import AccessDepth.Json

/-!
# AccessDepth.Json.Writer

The compact text of a value: no blank outside strings, members in their order.

* `Json.write v rest` — the characters of `v` followed by `rest`.
* `Json.text` — the whole text of a value.

In a string, a quote, a backslash and the control characters below the blank are escaped, the five
usual ones by their letter and the others by four hexadecimal digits; all else is written as is.
-/

namespace AccessDepth
namespace Json

/-- The characters that stand for one character inside a string. -/
def escape (c : Char) : List Char :=
  if c = '"' then ['\\', '"']
  else if c = '\\' then ['\\', '\\']
  else if c = '\n' then ['\\', 'n']
  else if c = '\r' then ['\\', 'r']
  else if c = '\t' then ['\\', 't']
  else if c = '\x08' then ['\\', 'b']
  else if c = '\x0c' then ['\\', 'f']
  else if c.toNat < 32 then
    ['\\', 'u', '0', '0', Nat.digitChar (c.toNat / 16), Nat.digitChar (c.toNat % 16)]
  else [c]

/-- The characters of a string between its quotes, followed by `rest`. -/
def writeChars : List Char → List Char → List Char
  | [], rest => rest
  | c :: cs, rest => escape c ++ writeChars cs rest

/-- A quoted string, followed by `rest`. -/
def writeString (s : String) (rest : List Char) : List Char :=
  '"' :: writeChars s.toList ('"' :: rest)

/-- An integer in decimal digits, followed by `rest`. -/
def writeInt : Int → List Char → List Char
  | .ofNat n, rest => Nat.toDigits 10 n ++ rest
  | .negSucc n, rest => '-' :: (Nat.toDigits 10 (n + 1) ++ rest)

mutual

/-- The compact text of a value, followed by `rest`; what cannot be used is null. -/
def write : Json → List Char → List Char
  | .null, rest => 'n' :: 'u' :: 'l' :: 'l' :: rest
  | .unusable, rest => 'n' :: 'u' :: 'l' :: 'l' :: rest
  | .bool true, rest => 't' :: 'r' :: 'u' :: 'e' :: rest
  | .bool false, rest => 'f' :: 'a' :: 'l' :: 's' :: 'e' :: rest
  | .int n, rest => writeInt n rest
  | .real t, rest => t.toList ++ rest
  | .str s, rest => writeString s rest
  | .arr [], rest => '[' :: ']' :: rest
  | .arr (v :: vs), rest => '[' :: write v (writeItems vs (']' :: rest))
  | .obj [], rest => '\x7b' :: '\x7d' :: rest
  | .obj ((name, v) :: ms), rest =>
    '\x7b' :: writeString name (':' :: write v (writeMembers ms ('\x7d' :: rest)))
termination_by structural v => v

/-- Further items, a comma before each. -/
def writeItems : List Json → List Char → List Char
  | [], rest => rest
  | v :: vs, rest => ',' :: write v (writeItems vs rest)
termination_by structural vs => vs

/-- Further members, a comma before each. -/
def writeMembers : List (String × Json) → List Char → List Char
  | [], rest => rest
  | (name, v) :: ms, rest => ',' :: writeString name (':' :: write v (writeMembers ms rest))
termination_by structural ms => ms

end

/-- The compact text of a value. -/
def text (v : Json) : String := String.ofList (v.write [])

end Json
end AccessDepth
