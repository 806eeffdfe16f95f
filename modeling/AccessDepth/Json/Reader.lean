import AccessDepth.Double
import AccessDepth.Json

/-!
# AccessDepth.Json.Reader

Reading JSON text, with a limit on how deep arrays and objects may nest:

* `Json.readValue fuel depth` — takes one value from the front of a text; a value that nests more
  than `depth` containers cannot be used, and a string or container may be at most `fuel` long.
* `Json.skip` — passes over a value, however deep it nests.
* `Json.parse depth` — reads a whole text, blanks around the value aside.

A reader takes characters from the front of a list and returns what is left. It refuses what the
grammar does not derive: a leading zero, a trailing comma, a control character in a string. What
the grammar derives and no value holds is read as something that cannot be used, for it may stand
where nothing looks at it. Nothing in a text is longer than the text itself, so that its length is
fuel enough.
-/

namespace AccessDepth
namespace Json

/-- Takes something from the front of a text and returns the rest. -/
abbrev Reader (α : Type) := List Char → Option (α × List Char)

def isBlank (c : Char) : Bool := c = ' ' || c = '\n' || c = '\t' || c = '\r'

/-- The text after its leading blanks. -/
def skipBlanks (cs : List Char) : List Char := cs.dropWhile isBlank

/-- The value of a hexadecimal digit. -/
def hexValue (c : Char) : Option Nat :=
  if '0' ≤ c ∧ c ≤ '9' then some (c.toNat - '0'.toNat)
  else if 'a' ≤ c ∧ c ≤ 'f' then some (c.toNat - 'a'.toNat + 10)
  else if 'A' ≤ c ∧ c ≤ 'F' then some (c.toNat - 'A'.toNat + 10)
  else none

/-- Four hexadecimal digits. -/
def readHex : Reader Nat
  | a :: b :: c :: d :: rest => do
    let a ← hexValue a
    let b ← hexValue b
    let c ← hexValue c
    let d ← hexValue d
    some (((a * 16 + b) * 16 + c) * 16 + d, rest)
  | _ => none

/-- The character of a `\u` escape. A unit of the high surrogates and one of the low surrogates
after it name one character; neither of them is a character by itself. -/
def readUnit (cs : List Char) : Option (Option Char × List Char) := do
  let (u, rest) ← readHex cs
  if 0xD800 ≤ u ∧ u < 0xDC00 then
    match rest with
    | '\\' :: 'u' :: more =>
      let (v, more) ← readHex more
      if 0xDC00 ≤ v ∧ v < 0xE000 then
        some (some (Char.ofNat (0x10000 + (u - 0xD800) * 0x400 + (v - 0xDC00))), more)
      else some (none, rest)
    | _ => some (none, rest)
  else if 0xDC00 ≤ u ∧ u < 0xE000 then some (none, rest)
  else some (some (Char.ofNat u), rest)

/-- The character that a letter after a backslash stands for. -/
def unescape : Char → Option Char
  | '"' => some '"'
  | '\\' => some '\\'
  | '/' => some '/'
  | 'b' => some '\x08'
  | 'f' => some '\x0c'
  | 'n' => some '\n'
  | 'r' => some '\r'
  | 't' => some '\t'
  | _ => none

/-- One character of a string, escaped or not, or half of a surrogate pair. -/
def readChar : Reader (Option Char)
  | '\\' :: 'u' :: rest => readUnit rest
  | '\\' :: c :: rest => (unescape c).map fun c => (some c, rest)
  | c :: rest => if c = '"' ∨ c = '\\' ∨ c.toNat < 32 then none else some (some c, rest)
  | [] => none

/-- The characters up to the closing quote, if all of them are characters; `fuel` bounds their
number. -/
def readChars : Nat → Reader (Option (List Char))
  | 0, _ => none
  | fuel + 1, cs =>
    match cs with
    | '"' :: rest => some (some [], rest)
    | _ => do
      let (c, rest) ← readChar cs
      let (s, rest) ← readChars fuel rest
      some (c.bind fun c => s.map (c :: ·), rest)

/-- What follows the opening quote of a string. -/
def readString (fuel : Nat) (cs : List Char) : Option (Option String × List Char) :=
  (readChars fuel cs).map fun (s, rest) => (s.map String.ofList, rest)

/-- The number that decimal digits write. -/
def digitsValue (ds : List Char) : Nat :=
  ds.foldl (fun n d => n * 10 + (d.toNat - '0'.toNat)) 0

/-- At least one digit. -/
def readDigits (cs : List Char) : Option (List Char × List Char) :=
  match cs.takeWhile Char.isDigit with
  | [] => none
  | d :: ds => some (d :: ds, cs.dropWhile Char.isDigit)

/-- The whole part of a number: a lone zero, or digits that do not start with one. -/
def readWhole : Reader (List Char)
  | '0' :: rest => if (rest.head?.any Char.isDigit) then none else some (['0'], rest)
  | cs => readDigits cs

/-- The fraction of a number, which may be missing. -/
def readFraction : Reader (List Char)
  | '.' :: rest => (readDigits rest).map fun (ds, rest) => ('.' :: ds, rest)
  | cs => some ([], cs)

/-- The exponent of a number, which may be missing. -/
def readExponent : Reader (List Char)
  | c :: rest =>
    if c = 'e' ∨ c = 'E' then
      match rest with
      | s :: tail =>
        if s = '+' ∨ s = '-' then
          (readDigits tail).map fun (ds, tail) => (c :: s :: ds, tail)
        else (readDigits rest).map fun (ds, tail) => (c :: ds, tail)
      | [] => none
    else some ([], c :: rest)
  | [] => some ([], [])

/-- The integers that are kept as such: those of 64 bits, signed or unsigned. -/
def isWord (n : Int) : Bool := Int64.minValue.toInt ≤ n ∧ n < UInt64.size

/-- The first digits of a number as far as 64 bits hold them, and the number of the others. -/
def leading (n : Nat) : List Char → Nat × Nat
  | [] => (n, 0)
  | d :: ds =>
    let more := digitsValue [d] + n * 10
    if more < UInt64.size then leading more ds else (n, ds.length + 1)

/-- The number that an exponent writes. -/
def exponentValue : List Char → Int
  | _ :: '-' :: ds => -(digitsValue ds : Int)
  | _ :: '+' :: ds => digitsValue ds
  | _ :: ds => digitsValue ds
  | [] => 0

/-- Whether a number is too large for a double. It is worked out from its leading digits and a power
of ten, both of them doubles. -/
def isTooLarge (whole fraction exponent : List Char) : Bool :=
  let (n, restOfWhole) := leading 0 whole
  let (n, restOfFraction) := leading n fraction
  let power : Int := restOfWhole + exponentValue exponent - (fraction.length - restOfFraction)
  n != 0 && (308 < power ||
    (0 ≤ power && Double.bound ≤ Double.nearest n * Double.nearest (Nat.pow 10 power.toNat)))

/-- The value of a number from its sign, whole part, fraction and exponent. -/
def numberOf (negative : Bool) (whole fraction exponent : List Char) : Json :=
  let lexeme := (if negative then ['-'] else []) ++ whole ++ fraction ++ exponent
  let magnitude : Int := digitsValue whole
  let value := if negative then -magnitude else magnitude
  if fraction.isEmpty && exponent.isEmpty && isWord value && !(negative && magnitude == 0) then
    .int value
  else if isTooLarge whole fraction.tail exponent then .unusable
  else .real (String.ofList lexeme)

def readUnsigned (negative : Bool) (cs : List Char) : Option (Json × List Char) := do
  let (whole, rest) ← readWhole cs
  let (fraction, rest) ← readFraction rest
  let (exponent, rest) ← readExponent rest
  some (numberOf negative whole fraction exponent, rest)

def readNumber : Reader Json
  | '-' :: rest => readUnsigned true rest
  | cs => readUnsigned false cs

/-- Items with commas between them, up to and with the closing mark; `fuel` bounds their number. -/
def readSeparated {α : Type} (item : Reader α) (close : Char) : Nat → Reader (List α)
  | 0, _ => none
  | fuel + 1, cs => do
    let (x, rest) ← item cs
    match skipBlanks rest with
    | [] => none
    | c :: rest =>
      if c = ',' then
        let (xs, rest) ← readSeparated item close fuel rest
        some (x :: xs, rest)
      else if c = close then some ([x], rest)
      else none

/-- The inside of a container and its closing mark. -/
def readContainer {α : Type} (item : Reader α) (close : Char) (fuel : Nat) (cs : List Char) :
    Option (List α × List Char) :=
  match skipBlanks cs with
  | [] => none
  | c :: rest =>
    if c = close then some ([], rest) else readSeparated item close fuel (c :: rest)

/-- A member name, its colon and its value; nothing if the name cannot be used. -/
def readMember (value : Reader Json) (fuel : Nat) (cs : List Char) :
    Option (Option (String × Json) × List Char) :=
  match skipBlanks cs with
  | '"' :: rest => do
    let (name, rest) ← readString fuel rest
    match skipBlanks rest with
    | ':' :: rest =>
      let (v, rest) ← value rest
      some (name.map (·, v), rest)
    | _ => none
  | _ => none

/-- An object, if all of its names can be used. -/
def objectOf (members : List (Option (String × Json))) : Json :=
  ((members.mapM id).map .obj).getD .unusable

/-- A value that is neither an array nor an object. -/
def readScalar (fuel : Nat) : Reader Json
  | 'n' :: 'u' :: 'l' :: 'l' :: rest => some (.null, rest)
  | 't' :: 'r' :: 'u' :: 'e' :: rest => some (.bool true, rest)
  | 'f' :: 'a' :: 'l' :: 's' :: 'e' :: rest => some (.bool false, rest)
  | '"' :: rest =>
    (readString fuel rest).map fun (s, rest) => ((s.map .str).getD .unusable, rest)
  | cs => readNumber cs

/-- What comes next in a text that is passed over. -/
inductive Awaited where
  | value
  /-- A name, its colon and a value. -/
  | member
  /-- The first item or member of a container, or its end. -/
  | first
  /-- A comma, or the end of a container. -/
  | next

/-- Passes over the rest of a value in which containers are open, the innermost first; `true` stands
for an object. `fuel` bounds the steps. -/
def skipFrom (size : Nat) : Nat → List Bool → Awaited → List Char → Option (List Char)
  | 0, _, _, _ => none
  | _ + 1, [], .next, cs => some cs
  | fuel + 1, opened, awaited, cs =>
    let isObject := opened.head? == some true
    let another : Awaited := if isObject then .member else .value
    let goOn (opened : List Bool) (awaited : Awaited) (cs : List Char) :=
      skipFrom size fuel opened awaited cs
    match awaited, skipBlanks cs with
    | _, [] => none
    | .value, c :: rest =>
      if c = '[' then goOn (false :: opened) .first rest
      else if c = '\x7b' then goOn (true :: opened) .first rest
      else (readScalar size (c :: rest)).bind fun (_, rest) => goOn opened .next rest
    | .member, c :: rest =>
      if c != '"' then none
      else
        (readString size rest).bind fun (_, rest) =>
          match skipBlanks rest with
          | ':' :: rest => goOn opened .value rest
          | _ => none
    | .first, c :: rest =>
      if c = (if isObject then '\x7d' else ']') then goOn opened.tail .next rest
      else goOn opened another (c :: rest)
    | .next, c :: rest =>
      if c = ',' then goOn opened another rest
      else if c = (if isObject then '\x7d' else ']') then goOn opened.tail .next rest
      else none

/-- Passes over one value. Each step but the first in a container takes a character. -/
def skip (fuel : Nat) (cs : List Char) : Option (List Char) :=
  skipFrom fuel (2 * fuel + 2) [] .value cs

/-- One value, after any blanks; containers that nest deeper than `depth` cannot be used. -/
def readValue (fuel depth : Nat) (cs : List Char) : Option (Json × List Char) :=
  match skipBlanks cs with
  | [] => none
  | c :: rest =>
    if c = '[' ∨ c = '\x7b' then
      match depth with
      | 0 => (skip fuel (c :: rest)).map (.unusable, ·)
      | depth + 1 =>
        if c = '[' then
          (readContainer (readValue fuel depth) ']' fuel rest).map fun (items, rest) =>
            (.arr items, rest)
        else
          (readContainer (readMember (readValue fuel depth) fuel) '\x7d' fuel rest).map
            fun (members, rest) => (objectOf members, rest)
    else readScalar fuel (c :: rest)
termination_by structural depth

/-- The value that a text writes; containers that nest deeper than `depth` cannot be used. -/
def parse (depth : Nat) (text : String) : Option Json :=
  match readValue text.length depth text.toList with
  | some (v, rest) => if (skipBlanks rest).isEmpty then some v else none
  | none => none

/-- The value that a text writes, however deep it nests, if all of it can be used: a text cannot
nest deeper than it is long. -/
def parseAny (text : String) : Option Json := (parse text.length text).filter isUsable

end Json
end AccessDepth
