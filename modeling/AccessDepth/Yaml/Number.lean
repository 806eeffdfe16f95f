import AccessDepth.Double
import AccessDepth.Yaml.Character

/-!
# AccessDepth.Yaml.Number

Numbers as plain scalars.

* `Number.natural?` — a number that is not negative, in one of four bases.
* `Number.isRead` — whether a text is read as a number: an integer of at most 128 bits, a decimal
  number that a double can hold, or a word for infinity or for no number.
* `Number.isZeroLed` — digits after a zero, which are a text.
-/

namespace AccessDepth
namespace Yaml
namespace Number

/-- A text without a plus sign in front. -/
def dropPlus : List Char → List Char
  | '+' :: cs => cs
  | cs => cs

/-- A text without a sign in front. -/
def dropSign : List Char → List Char
  | '-' :: cs => cs
  | cs => dropPlus cs

/-- Whether these are a zero and more digits, perhaps with a sign. -/
def isZeroLed (cs : List Char) : Bool :=
  match dropSign cs with
  | '0' :: d :: ds => (d :: ds).all Char.isDigit
  | _ => false

/-- A number without a sign: hexadecimal, octal, binary or decimal. -/
def magnitude? (cs : List Char) : Option Nat :=
  let inBase := match cs with
    | '0' :: 'x' :: ds => digitsIn 16 ds
    | '0' :: 'o' :: ds => digitsIn 8 ds
    | '0' :: 'b' :: ds => digitsIn 2 ds
    | _ => none
  match inBase with
  | some n => some n
  | none => if isZeroLed cs then none else digitsIn 10 cs

/-- A number that is not negative; it may have a plus sign. -/
def natural? (cs : List Char) : Option Nat := magnitude? (dropPlus cs)

/-- Whether a text is an integer that 128 bits hold, with a sign if it is negative. -/
def isInteger (cs : List Char) : Bool :=
  match cs with
  | '-' :: ds => (magnitude? ds).any (· ≤ 1 <<< 127)
  | cs => (natural? cs).any (· < 1 <<< 128)

/-- A decimal number without a sign: the digits before and behind the point, and the exponent. -/
structure Decimal where
  whole : List Char
  fraction : List Char
  exponent : Int

/-- An exponent after its letter. -/
def exponent? (cs : List Char) : Option Int :=
  match cs with
  | '-' :: ds => (digitsIn 10 ds).map fun n => -(n : Int)
  | cs => (digitsIn 10 (dropPlus cs)).map fun n => (n : Int)

/-- Digits, a point or both, and perhaps an exponent. -/
def decimal? (cs : List Char) : Option Decimal := do
  let whole := cs.takeWhile Char.isDigit
  let rest := cs.dropWhile Char.isDigit
  let (fraction, rest) := match rest with
    | '.' :: rest => (rest.takeWhile Char.isDigit, rest.dropWhile Char.isDigit)
    | rest => ([], rest)
  let exponent ← match rest with
    | [] => some 0
    | e :: rest => if e = 'e' ∨ e = 'E' then exponent? rest else none
  if whole.isEmpty && fraction.isEmpty then none else some ⟨whole, fraction, exponent⟩

/-- Whether a double comes near to a number. With more than 310 digits before its point it is too
large, and with fewer than 300 it is not; only in between is it worked out. -/
def Decimal.isFinite (d : Decimal) : Bool :=
  let digits := (d.whole ++ d.fraction).dropWhile (· = '0')
  let point : Int := digits.length - d.fraction.length + d.exponent
  if digits.isEmpty || point < 300 then true
  else if 310 < point then false
  else
    let n := (digitsIn 10 digits).getD 0
    let scale : Int := point - digits.length
    if 0 ≤ scale then n * Nat.pow 10 scale.toNat < Double.bound
    else n < Double.bound * Nat.pow 10 (-scale).toNat

/-- The words for infinity, which may have a sign, and for no number. -/
def limitWords : List String :=
  [".inf", ".Inf", ".INF", "+.inf", "+.Inf", "+.INF", "-.inf", "-.Inf", "-.INF", ".nan", ".NaN",
    ".NAN"]

/-- Whether a text is read as a number. -/
def isRead (text : String) : Bool :=
  let cs := text.toList
  isInteger cs || limitWords.contains text ||
    (!isZeroLed cs && (decimal? (dropSign cs)).any Decimal.isFinite)

end Number
end Yaml
end AccessDepth
