import AccessDepth.Json.Reader
import AccessDepth.Json.Writer

/-!
# AccessDepth.Proofs.Json.Lexemes

The parts of a text that was written are read back.

* `Json.isPlain` — everything in a value can be used, and its numbers are integers of 64 bits.
* `readChars_writeChars`, `readNumber_writeInt`, `readScalar_write` — strings, integers and scalars
  are read back.
* `depth_lt_length` — a value takes more characters than containers nest in it.
* `readMember_write`, `readSeparated_last`, `readSeparated_next` — so are the parts of a container,
  if their values are.
-/

namespace AccessDepth
namespace Json

mutual

/-- Whether everything in a value can be used, and its numbers are integers of 64 bits. -/
def isPlain : Json → Bool
  | .arr items => itemsPlain items
  | .obj members => membersPlain members
  | .null => true
  | .bool _ => true
  | .int n => isWord n
  | .real _ => false
  | .str _ => true
  | .unusable => false
termination_by structural v => v

def itemsPlain : List Json → Bool
  | [] => true
  | v :: vs => isPlain v && itemsPlain vs
termination_by structural vs => vs

def membersPlain : List (String × Json) → Bool
  | [] => true
  | (_, v) :: ms => isPlain v && membersPlain ms
termination_by structural ms => ms

end

mutual

theorem isUsable_of_isPlain : (v : Json) → v.isPlain = true → v.isUsable = true
  | .null, _ | .bool _, _ | .int _, _ | .str _, _ => rfl
  | .arr items, h => itemsUsable_of_itemsPlain items h
  | .obj members, h => membersUsable_of_membersPlain members h
termination_by structural v => v

theorem itemsUsable_of_itemsPlain : (vs : List Json) → itemsPlain vs = true → itemsUsable vs = true
  | [], _ => rfl
  | v :: vs, h => by
    obtain ⟨hv, hvs⟩ := Bool.and_eq_true_iff.mp h
    rw [itemsUsable, isUsable_of_isPlain v hv, itemsUsable_of_itemsPlain vs hvs]
    rfl
termination_by structural vs => vs

theorem membersUsable_of_membersPlain :
    (ms : List (String × Json)) → membersPlain ms = true → membersUsable ms = true
  | [], _ => rfl
  | (_, v) :: ms, h => by
    obtain ⟨hv, hms⟩ := Bool.and_eq_true_iff.mp h
    rw [membersUsable, isUsable_of_isPlain v hv, membersUsable_of_membersPlain ms hms]
    rfl
termination_by structural ms => ms

end

/-! ## Strings -/

theorem hexValue_digitChar : ∀ n < 16, hexValue (Nat.digitChar n) = some n := by decide

theorem readUnit_control {n : Nat} (h : n < 32) (rest : List Char) :
    readUnit ('0' :: '0' :: Nat.digitChar (n / 16) :: Nat.digitChar (n % 16) :: rest) =
      some (some (Char.ofNat n), rest) := by
  have zero : hexValue '0' = some 0 := by decide
  have high := hexValue_digitChar (n / 16) (by omega)
  have low := hexValue_digitChar (n % 16) (by omega)
  have value : ((0 * 16 + 0) * 16 + n / 16) * 16 + n % 16 = n := by omega
  simp only [readUnit, readHex, zero, high, low, Option.bind_eq_bind, Option.bind_some, value]
  rw [if_neg (by omega), if_neg (by omega)]

theorem readChar_escape (c : Char) (rest : List Char) :
    readChar (escape c ++ rest) = some (some c, rest) := by
  unfold escape
  split
  · next h => subst h; rfl
  split
  · next h => subst h; rfl
  split
  · next h => subst h; rfl
  split
  · next h => subst h; rfl
  split
  · next h => subst h; rfl
  split
  · next h => subst h; rfl
  split
  · next h => subst h; rfl
  split
  · next h =>
    have unit := readUnit_control h rest
    rw [Char.ofNat_toNat] at unit
    exact unit
  · next quote backslash _ _ _ _ _ control =>
    simp [readChar, quote, backslash, control]

theorem escape_append_ne_quote (c : Char) (rest tail : List Char) :
    escape c ++ rest ≠ '"' :: tail := by
  unfold escape
  split
  · simp
  · next quote =>
    repeat' split
    all_goals simp [quote]

theorem readChars_writeChars (cs rest : List Char) {fuel : Nat} (h : cs.length < fuel) :
    readChars fuel (writeChars cs ('"' :: rest)) = some (some cs, rest) := by
  induction cs generalizing fuel with
  | nil =>
    obtain ⟨fuel, rfl⟩ := Nat.exists_eq_add_one_of_ne_zero (Nat.ne_of_gt h)
    rfl
  | cons c cs ih =>
    obtain ⟨fuel, rfl⟩ := Nat.exists_eq_add_one_of_ne_zero (Nat.ne_of_gt (Nat.zero_lt_of_lt h))
    have inner := @ih fuel (by simpa using h)
    rw [writeChars, readChars, readChar_escape]
    · simp [inner]
    · exact fun tail => escape_append_ne_quote c _ tail

theorem readString_writeChars (s : String) (rest : List Char) (fuel : Nat)
    (h : s.toList.length < fuel) :
    readString fuel (writeChars s.toList ('"' :: rest)) = some (some s, rest) := by
  rw [readString, readChars_writeChars s.toList rest h]
  simp

theorem length_writeChars (cs rest : List Char) :
    cs.length + rest.length ≤ (writeChars cs rest).length := by
  induction cs with
  | nil => simp [writeChars]
  | cons c cs ih =>
    have : 1 ≤ (escape c).length := by
      unfold escape
      repeat' split
      all_goals simp
    simp only [writeChars, List.length_cons, List.length_append]
    omega

/-! ## Integers -/

/-- What may follow a value: nothing, a comma, or the end of a container. -/
def Ends (rest : List Char) : Prop := ∀ c ∈ rest.head?, c = ',' ∨ c = ']' ∨ c = '\x7d'

theorem ends_nil : Ends [] := by
  intro c hc
  cases hc

theorem ends_cons {c : Char} (rest : List Char) (h : c = ',' ∨ c = ']' ∨ c = '\x7d') :
    Ends (c :: rest) := by
  intro d hd
  cases hd
  exact h

theorem toDigits_head {n : Nat} (h : 0 < n) :
    ∃ d ds, Nat.toDigits 10 n = d :: ds ∧ d ≠ '0' := by
  induction n using Nat.strongRecOn with
  | ind n ih =>
    rw [Nat.toDigits_eq_if (by decide)]
    split
    · next small => exact ⟨_, [], rfl, by simp; omega⟩
    · obtain ⟨d, ds, hd, hz⟩ := ih (n / 10) (by omega) (by omega)
      exact ⟨d, ds ++ [Nat.digitChar (n % 10)], by rw [hd]; rfl, hz⟩

theorem digitsValue_toDigits (n : Nat) : digitsValue (Nat.toDigits 10 n) = n := by
  have value := Nat.ofDigitChars_ten_toDigits (n := n)
  rw [Nat.ofDigitChars_eq_foldl] at value
  simpa only [digitsValue, Nat.mul_comm] using value

theorem isDigit_toDigits {n : Nat} : ∀ d ∈ Nat.toDigits 10 n, d.isDigit = true :=
  fun _ hd => Nat.isDigit_of_mem_toDigits (by decide) (by decide) hd

theorem writeInt_head (n : Int) (rest : List Char) :
    ∃ c cs, writeInt n rest = c :: cs ∧ (c.isDigit = true ∨ c = '-') := by
  cases n with
  | ofNat n =>
    cases hd : Nat.toDigits 10 n with
    | nil => exact absurd hd Nat.toDigits_ne_nil
    | cons d ds =>
      exact ⟨d, ds ++ rest, by rw [writeInt, hd]; rfl,
        .inl (isDigit_toDigits (n := n) d (by simp [hd]))⟩
  | negSucc n => exact ⟨_, _, rfl, .inr rfl⟩

theorem ne_of_number {c d : Char} (hd : d.isDigit = false ∧ d ≠ '-')
    (h : c.isDigit = true ∨ c = '-') : c ≠ d := by
  rintro rfl
  obtain h | h := h
  · rw [hd.1] at h
    cases h
  · exact hd.2 h

theorem isBlank_of_number {c : Char} (h : c.isDigit = true ∨ c = '-') : isBlank c = false := by
  simp [isBlank, ne_of_number (d := ' ') (by decide) h, ne_of_number (d := '\n') (by decide) h,
    ne_of_number (d := '\t') (by decide) h, ne_of_number (d := '\r') (by decide) h]

section

variable {rest : List Char} (he : Ends rest)
include he

theorem Ends.isDigit {c : Char} (hc : c ∈ rest.head?) : c.isDigit = false := by
  obtain rfl | rfl | rfl := he c hc <;> rfl

theorem readDigits_append {ds : List Char} (hne : ds ≠ []) (hd : ∀ d ∈ ds, d.isDigit = true) :
    readDigits (ds ++ rest) = some (ds, rest) := by
  have none_left : rest.takeWhile Char.isDigit = [] ∧ rest.dropWhile Char.isDigit = rest := by
    cases rest with
    | nil => exact ⟨rfl, rfl⟩
    | cons c cs =>
      have stop : c.isDigit = false := he.isDigit (by simp)
      simp [stop]
  cases ds with
  | nil => exact absurd rfl hne
  | cons d ds =>
    rw [readDigits, List.takeWhile_append_of_pos hd, List.dropWhile_append_of_pos hd,
      none_left.1, none_left.2, List.append_nil]

theorem readWhole_toDigits (n : Nat) :
    readWhole (Nat.toDigits 10 n ++ rest) = some (Nat.toDigits 10 n, rest) := by
  by_cases hn : n = 0
  · subst hn
    rw [Nat.toDigits_zero]
    have stop : rest.head?.any Char.isDigit = false := by
      cases rest with
      | nil => rfl
      | cons c cs => exact he.isDigit (by simp)
    simp [readWhole, stop]
  · obtain ⟨d, ds, hd, hz⟩ := toDigits_head (Nat.pos_of_ne_zero hn)
    have digits := readDigits_append he (List.cons_ne_nil d ds) (hd ▸ isDigit_toDigits)
    rw [hd]
    simpa [readWhole, hz] using digits

theorem readFraction_of_ends : readFraction rest = some ([], rest) := by
  cases rest with
  | nil => rfl
  | cons c cs => obtain rfl | rfl | rfl := he c (by simp) <;> rfl

theorem readExponent_of_ends : readExponent rest = some ([], rest) := by
  cases rest with
  | nil => rfl
  | cons c cs => obtain rfl | rfl | rfl := he c (by simp) <;> rfl

theorem readUnsigned_toDigits (negative : Bool) (n : Nat) :
    readUnsigned negative (Nat.toDigits 10 n ++ rest) =
      some (numberOf negative (Nat.toDigits 10 n) [] [], rest) := by
  simp only [readUnsigned, readWhole_toDigits he, readFraction_of_ends he, readExponent_of_ends he,
    Option.bind_eq_bind, Option.bind_some]

/-- An integer is read back. -/
theorem readNumber_writeInt {n : Int} (hn : isWord n = true) :
    readNumber (writeInt n rest) = some (.int n, rest) := by
  cases n with
  | ofNat n =>
    obtain ⟨d, ds, hd, hs⟩ : ∃ d ds, Nat.toDigits 10 n = d :: ds ∧ d ≠ '-' := by
      cases hd : Nat.toDigits 10 n with
      | nil => exact absurd hd Nat.toDigits_ne_nil
      | cons d ds =>
        refine ⟨d, ds, rfl, ?_⟩
        rintro rfl
        have : ('-' : Char).isDigit = true := isDigit_toDigits (n := n) _ (by simp [hd])
        cases this
    have number : readNumber (Nat.toDigits 10 n ++ rest) =
        readUnsigned false (Nat.toDigits 10 n ++ rest) := by
      rw [hd]
      simp [readNumber, hs]
    have word : isWord (n : Int) = true := hn
    rw [writeInt, number, readUnsigned_toDigits he, numberOf, digitsValue_toDigits]
    simp [word]
  | negSucc n =>
    have number : readNumber (writeInt (.negSucc n) rest) =
        readUnsigned true (Nat.toDigits 10 (n + 1) ++ rest) := rfl
    have value : -((n + 1 : Nat) : Int) = .negSucc n := rfl
    rw [number, readUnsigned_toDigits he, numberOf, digitsValue_toDigits]
    simp only [if_true, value, hn]
    simp
    omega

end

/-! ## Values -/

mutual

/-- A plain value takes more characters than containers nest in it. -/
theorem depth_lt_length : (v : Json) → v.isPlain = true → (rest : List Char) →
    v.depth + rest.length < (v.write rest).length
  | .null, _, rest => by
    simp [depth, write]
    omega
  | .bool true, _, rest => by
    simp [depth, write]
    omega
  | .bool false, _, rest => by
    simp [depth, write]
    omega
  | .int n, _, rest => by
    have digits (m : Nat) : 0 < (Nat.toDigits 10 m).length := Nat.length_toDigits_pos
    cases n with
    | ofNat n =>
      have := digits n
      simp only [depth, write, writeInt, List.length_append]
      omega
    | negSucc n =>
      simp only [depth, write, writeInt, List.length_append, List.length_cons]
      omega
  | .str s, _, rest => by
    have := length_writeChars s.toList ('"' :: rest)
    simp only [depth, write, writeString, List.length_cons] at this ⊢
    omega
  | .arr [], _, rest => by
    simp [depth, itemsDepth, write]
    omega
  | .arr (v :: vs), h, rest => by
    obtain ⟨hv, hvs⟩ := Bool.and_eq_true_iff.mp h
    have first := depth_lt_length v hv (writeItems vs (']' :: rest))
    have further := itemsDepth_le_length vs hvs (']' :: rest)
    simp only [depth, itemsDepth, write, List.length_cons] at first further ⊢
    omega
  | .obj [], _, rest => by
    simp [depth, membersDepth, write]
    omega
  | .obj ((name, v) :: ms), h, rest => by
    obtain ⟨hv, hms⟩ := Bool.and_eq_true_iff.mp h
    have first := depth_lt_length v hv (writeMembers ms ('\x7d' :: rest))
    have further := membersDepth_le_length ms hms ('\x7d' :: rest)
    have named := length_writeChars name.toList
      ('"' :: ':' :: v.write (writeMembers ms ('\x7d' :: rest)))
    simp only [depth, membersDepth, write, writeString, List.length_cons] at first further named ⊢
    omega
termination_by structural v => v

theorem itemsDepth_le_length : (vs : List Json) → itemsPlain vs = true → (rest : List Char) →
    max (itemsDepth vs) vs.length + rest.length ≤ (writeItems vs rest).length
  | [], _, rest => by simp [itemsDepth, writeItems]
  | v :: vs, h, rest => by
    obtain ⟨hv, hvs⟩ := Bool.and_eq_true_iff.mp h
    have first := depth_lt_length v hv (writeItems vs rest)
    have further := itemsDepth_le_length vs hvs rest
    simp only [itemsDepth, writeItems, List.length_cons] at first further ⊢
    omega
termination_by structural vs => vs

theorem membersDepth_le_length : (ms : List (String × Json)) → membersPlain ms = true →
    (rest : List Char) →
    max (membersDepth ms) ms.length + rest.length ≤ (writeMembers ms rest).length
  | [], _, rest => by simp [membersDepth, writeMembers]
  | (name, v) :: ms, h, rest => by
    obtain ⟨hv, hms⟩ := Bool.and_eq_true_iff.mp h
    have first := depth_lt_length v hv (writeMembers ms rest)
    have further := membersDepth_le_length ms hms rest
    have named := length_writeChars name.toList ('"' :: ':' :: v.write (writeMembers ms rest))
    simp only [membersDepth, writeMembers, writeString, List.length_cons] at first further named ⊢
    omega
termination_by structural ms => ms

end

/-- A plain value starts with a character that is neither blank nor the end of a container. -/
theorem write_head {v : Json} (h : v.isPlain = true) (rest : List Char) :
    ∃ c tail, v.write rest = c :: tail ∧ isBlank c = false ∧ c ≠ ']' ∧ c ≠ '\x7d' := by
  cases v with
  | null => exact ⟨_, _, rfl, by decide⟩
  | bool b => cases b <;> exact ⟨_, _, rfl, by decide⟩
  | int n =>
    obtain ⟨c, cs, head, hc⟩ := writeInt_head n rest
    exact ⟨c, cs, head, isBlank_of_number hc, ne_of_number (by decide) hc,
      ne_of_number (by decide) hc⟩
  | real => cases h
  | str s => exact ⟨_, _, rfl, by decide⟩
  | arr items => cases items <;> exact ⟨_, _, rfl, by decide⟩
  | obj members => cases members <;> exact ⟨_, _, rfl, by decide⟩
  | unusable => cases h

theorem skipBlanks_cons {c : Char} (cs : List Char) (h : isBlank c = false) :
    skipBlanks (c :: cs) = c :: cs := by
  simp [skipBlanks, h]

theorem readScalar_of_number {c : Char} (cs : List Char) (fuel : Nat)
    (h : c.isDigit = true ∨ c = '-') : readScalar fuel (c :: cs) = readNumber (c :: cs) := by
  simp [readScalar, ne_of_number (d := 'n') (by decide) h, ne_of_number (d := 't') (by decide) h,
    ne_of_number (d := 'f') (by decide) h, ne_of_number (d := '"') (by decide) h]

/-- A plain value that is no container is a scalar. -/
theorem readScalar_write {v : Json} (h : v.isPlain = true) (hd : v.depth = 0) {rest : List Char}
    (he : Ends rest) {fuel : Nat} (hf : (v.write rest).length ≤ fuel) :
    ∃ c tail, v.write rest = c :: tail ∧ isBlank c = false ∧ (c ≠ '[' ∧ c ≠ '\x7b') ∧
      readScalar fuel (c :: tail) = some (v, rest) := by
  cases v with
  | null => exact ⟨_, _, rfl, by decide, by decide, rfl⟩
  | bool b => cases b <;> exact ⟨_, _, rfl, by decide, by decide, rfl⟩
  | int n =>
    obtain ⟨c, cs, head, hc⟩ := writeInt_head n rest
    refine ⟨c, cs, head, isBlank_of_number hc,
      ⟨ne_of_number (by decide) hc, ne_of_number (by decide) hc⟩, ?_⟩
    rw [readScalar_of_number _ _ hc, ← head, readNumber_writeInt he h]
  | real => cases h
  | str s =>
    have room := length_writeChars s.toList ('"' :: rest)
    simp only [write, writeString, List.length_cons] at hf room
    have read := readString_writeChars s rest fuel (by omega)
    exact ⟨_, _, rfl, by decide, by decide, by simp [readScalar, read]⟩
  | arr items => cases hd
  | obj members => cases hd
  | unusable => cases h

theorem readValue_of_scalar {c : Char} (cs : List Char) (fuel depth : Nat)
    (hb : isBlank c = false) (hc : c ≠ '[' ∧ c ≠ '\x7b') :
    readValue fuel depth (c :: cs) = readScalar fuel (c :: cs) := by
  cases depth <;> rw [readValue, skipBlanks_cons cs hb] <;>
    exact if_neg (by simp [hc.1, hc.2])

theorem length_le_of_member {name : String} {cs : List Char} {fuel : Nat}
    (h : (writeString name (':' :: cs)).length ≤ fuel) : cs.length ≤ fuel := by
  have room := length_writeChars name.toList ('"' :: ':' :: cs)
  simp only [writeString, List.length_cons] at h room
  omega

/-- One member is read back, if its value is. -/
theorem readMember_write {value : Reader Json} {name : String} {v : Json} {cs rest : List Char}
    {fuel : Nat} (hf : (writeString name (':' :: cs)).length ≤ fuel)
    (hv : value cs = some (v, rest)) :
    readMember value fuel (writeString name (':' :: cs)) = some (some (name, v), rest) := by
  have room := length_writeChars name.toList ('"' :: ':' :: cs)
  simp only [writeString, List.length_cons] at hf room
  have read := readString_writeChars name (':' :: cs) fuel (by omega)
  rw [readMember, writeString, skipBlanks_cons _ (by decide)]
  simp [read, skipBlanks_cons (c := ':') _ (by decide), hv]

theorem readSeparated_last {α : Type} {item : Reader α} {close : Char} {cs rest : List Char} {x : α}
    (fuel : Nat) (hi : item cs = some (x, close :: rest)) (hb : isBlank close = false)
    (hc : close ≠ ',') : readSeparated item close (fuel + 1) cs = some ([x], rest) := by
  simp [readSeparated, hi, skipBlanks_cons _ hb, hc]

theorem readSeparated_next {α : Type} {item : Reader α} {close : Char} {cs cs' rest : List Char}
    {x : α} {xs : List α} {fuel : Nat} (hi : item cs = some (x, ',' :: cs'))
    (hr : readSeparated item close fuel cs' = some (xs, rest)) :
    readSeparated item close (fuel + 1) cs = some (x :: xs, rest) := by
  simp [readSeparated, hi, skipBlanks_cons (c := ',') _ (by decide), hr]

theorem objectOf_map_some (ms : List (String × Json)) : objectOf (ms.map some) = .obj ms := by
  have all : (ms.map some).mapM id = some ms := by
    induction ms with
    | nil => rfl
    | cons m ms ih => simp [List.mapM_cons, ih]
  rw [objectOf, all]
  rfl

theorem ends_writeItems (vs : List Json) (rest : List Char) :
    Ends (writeItems vs (']' :: rest)) := by
  cases vs <;> exact ends_cons _ (by decide)

theorem ends_writeMembers (ms : List (String × Json)) (rest : List Char) :
    Ends (writeMembers ms ('\x7d' :: rest)) := by
  cases ms with
  | nil => exact ends_cons _ (by decide)
  | cons m ms => exact ends_cons _ (by decide)

end Json
end AccessDepth
