/-!
# AccessDepth.Literal

Integer literals of Go: decimal, or with the prefix `0x`, `0o` or `0b`, or octal by a leading zero.
Underscores may separate digits.

* `Literal.int?` — the value of a literal, if it is one and fits in 64 signed bits. It is lenient
  where the language is not: an underscore may stand anywhere, and a sign may follow the prefix.
-/

namespace AccessDepth
namespace Literal

/-- The value of a digit of any base up to sixteen. -/
def digit? (c : Char) : Option Nat :=
  if '0' ≤ c ∧ c ≤ '9' then some (c.toNat - '0'.toNat)
  else if 'a' ≤ c ∧ c ≤ 'f' then some (c.toNat - 'a'.toNat + 10)
  else none

/-- The value of one digit more. -/
def extend (radix : Nat) (value : Nat) (c : Char) : Option Nat := do
  let d ← digit? c
  if d < radix then some (value * radix + d) else none

/-- The value of digits of a base, of which there must be one at least. -/
def natural? (radix : Nat) : List Char → Option Nat
  | [] => none
  | cs => cs.foldlM (extend radix) 0

/-- The value of digits that a sign may precede. -/
def integer? (radix : Nat) : List Char → Option Int
  | '+' :: cs => (natural? radix cs).map Int.ofNat
  | '-' :: cs => (natural? radix cs).map fun n => -(n : Int)
  | cs => (natural? radix cs).map Int.ofNat

/-- The base of a literal in lower case, and what follows its mark. -/
def split : List Char → Nat × List Char
  | '0' :: 'x' :: cs => (16, cs)
  | '0' :: 'o' :: cs => (8, cs)
  | '0' :: 'b' :: cs => (2, cs)
  | '0' :: c :: cs => (8, c :: cs)
  | cs => (10, cs)

/-- A letter of the alphabet in lower case, any other character unchanged. -/
def lower (c : Char) : Char := c.toLower

/-- The integers of 64 signed bits. -/
def fits (n : Int) : Bool := Int64.minValue.toInt ≤ n && n ≤ Int64.maxValue.toInt

/-- The value of an integer literal that fits in 64 signed bits. -/
def int? (text : String) : Option Int := do
  let (radix, cs) := split ((text.toList.filter (· ≠ '_')).map lower)
  let n ← integer? radix cs
  if fits n then some n else none

end Literal
end AccessDepth
