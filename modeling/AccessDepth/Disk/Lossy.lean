/-!
# AccessDepth.Disk.Lossy

Text from bytes that need not be text.

* `Lossy.text` — the characters of the bytes in UTF-8; where they are none, U+FFFD stands for each
  longest run of bytes that begins a character.

The bytes that may follow the first one of a character depend on it: they exclude the forms that are
longer than needed, the surrogates, and what lies above U+10FFFF.
-/

namespace AccessDepth
namespace Lossy

/-- How many bytes follow the first byte of a character, and between which bounds the first of them
lies. -/
def expected (first : UInt8) : Option (Nat × UInt8 × UInt8) :=
  if first < 0x80 then some (0, 0x80, 0xBF)
  else if first < 0xC2 then none
  else if first < 0xE0 then some (1, 0x80, 0xBF)
  else if first = 0xE0 then some (2, 0xA0, 0xBF)
  else if first = 0xED then some (2, 0x80, 0x9F)
  else if first < 0xF0 then some (2, 0x80, 0xBF)
  else if first = 0xF0 then some (3, 0x90, 0xBF)
  else if first < 0xF4 then some (3, 0x80, 0xBF)
  else if first = 0xF4 then some (3, 0x80, 0x8F)
  else none

/-- The bits that the first byte of a character contributes, where this many bytes follow. -/
def leadBits (first : UInt8) : Nat → Nat
  | 0 => first.toNat
  | 1 => first.toNat - 0xC0
  | 2 => first.toNat - 0xE0
  | _ => first.toNat - 0xF0

/-- Takes the bytes that follow the first one of a character: the character, or none if they break
off, and how many there are. -/
def follow (bits : Nat) : Nat → UInt8 → UInt8 → List UInt8 → Option Nat × Nat
  | 0, _, _, _ => (some bits, 0)
  | _ + 1, _, _, [] => (none, 0)
  | n + 1, low, high, b :: bs =>
    if low ≤ b ∧ b ≤ high then
      let (c, used) := follow (bits * 64 + (b.toNat - 0x80)) n 0x80 0xBF bs
      (c, used + 1)
    else (none, 0)

/-- The character at the front of some bytes, and how many bytes follow its first one. -/
def front (first : UInt8) (rest : List UInt8) : Char × Nat :=
  match expected first with
  | none => ('\ufffd', 0)
  | some (n, low, high) =>
    match follow (leadBits first n) n low high rest with
    | (some c, used) => (Char.ofNat c, used)
    | (none, used) => ('\ufffd', used)

/-- The characters of some bytes. The first `skip` bytes belong to a character before them. -/
def chars : Nat → List UInt8 → List Char
  | _, [] => []
  | skip + 1, _ :: bs => chars skip bs
  | 0, b :: bs =>
    let (c, used) := front b bs
    c :: chars used bs

def text (bytes : ByteArray) : String := String.ofList (chars 0 bytes.toList)

end Lossy
end AccessDepth
