import AccessDepth.Proofs.Json.Lexemes

/-!
# AccessDepth.Proofs.Json.Text

A value that is written is read back as far as the reader goes.

* `Json.Passes` — from one place in a text that is passed over to a later one.
* `skip_write` — a plain value is passed over, however deep it nests.
* `Json.cut` — what is left of a value where containers nest too deep.
* `readValue_write` — a plain value is read from the front of a text, cut where the reader stops.
* `parse_cut`, `parse_text`, `parseAny_text` — so it is from a whole text, and it is read back if it
  nests no deeper than the reader goes.
-/

namespace AccessDepth
namespace Json

/-! ## Values that are passed over -/

def opening : Bool → Char
  | false => '['
  | true => '\x7b'

def closing : Bool → Char
  | false => ']'
  | true => '\x7d'

def Awaited.inside : Bool → Awaited
  | false => .value
  | true => .member

/-- From one place in a text that is passed over to a later one, in so many steps. -/
def Passes (size steps : Nat) (opened : List Bool) (a : Awaited) (cs : List Char)
    (opened' : List Bool) (a' : Awaited) (cs' : List Char) : Prop :=
  ∀ fuel, skipFrom size (fuel + steps) opened a cs = skipFrom size fuel opened' a' cs'

section

variable {size : Nat} {opened : List Bool} {cs rest : List Char}

attribute [local simp] skipFrom

namespace Passes

theorem trans {n m : Nat} {o o' o'' : List Bool} {a a' a'' : Awaited} {cs cs' cs'' : List Char}
    (h : Passes size n o a cs o' a' cs') (h' : Passes size m o' a' cs' o'' a'' cs'') :
    Passes size (m + n) o a cs o'' a'' cs'' := fun fuel => by
  rw [← Nat.add_assoc, h, h']

theorem scalar {c : Char} {v : Json} (hb : isBlank c = false) (hc : c ≠ '[' ∧ c ≠ '\x7b')
    (h : readScalar size (c :: cs) = some (v, rest)) :
    Passes size 1 opened .value (c :: cs) opened .next rest := fun fuel => by
  cases opened <;> simp [skipBlanks_cons _ hb, hc.1, hc.2, h]

theorem name {name : String} (hf : (writeString name (':' :: cs)).length ≤ size) :
    Passes size 1 opened .member (writeString name (':' :: cs)) opened .value cs := fun fuel => by
  have room := length_writeChars name.toList ('"' :: ':' :: cs)
  simp only [writeString, List.length_cons] at hf room
  have read := readString_writeChars name (':' :: cs) size (by omega)
  cases opened <;> simp [writeString, skipBlanks_cons (c := '"') _ (by decide), read,
    skipBlanks_cons (c := ':') _ (by decide)]

theorem opens (b : Bool) : Passes size 1 opened .value (opening b :: cs) (b :: opened) .first cs :=
  fun fuel => by
    cases opened <;> cases b <;> simp [skipBlanks_cons (c := '[') _ (by decide),
      skipBlanks_cons (c := '\x7b') _ (by decide), opening]

theorem enters (b : Bool) {c : Char} (hb : isBlank c = false) (hc : c ≠ closing b) :
    Passes size 1 (b :: opened) .first (c :: cs) (b :: opened) (.inside b) (c :: cs) :=
  fun fuel => by
    cases b <;> simp_all [skipBlanks_cons _ hb, closing, Awaited.inside]

theorem comma (b : Bool) :
    Passes size 1 (b :: opened) .next (',' :: cs) (b :: opened) (.inside b) cs := fun fuel => by
  cases b <;> simp [skipBlanks_cons (c := ',') _ (by decide), Awaited.inside]

theorem closes (b : Bool) {a : Awaited} (ha : a = .first ∨ a = .next) :
    Passes size 1 (b :: opened) a (closing b :: cs) opened .next cs := fun fuel => by
  rcases ha with rfl | rfl <;> cases b <;> simp [skipBlanks_cons (c := ']') _ (by decide),
    skipBlanks_cons (c := '\x7d') _ (by decide), closing]

end Passes

theorem passes_scalar {v : Json} (h : v.isPlain = true) (hd : v.depth = 0) (opened : List Bool)
    (he : Ends rest) (hf : (v.write rest).length ≤ size) :
    ∃ n, n + 2 * rest.length ≤ 2 * (v.write rest).length ∧
      Passes size n opened .value (v.write rest) opened .next rest := by
  obtain ⟨c, tail, head, blank, bracket, read⟩ := readScalar_write h hd he hf
  have shorter := depth_lt_length v h rest
  rw [head] at shorter ⊢
  exact ⟨1, by omega, .scalar blank bracket read⟩

theorem passes_empty (b : Bool) (opened : List Bool) (rest : List Char) :
    ∃ n, n + 2 * rest.length ≤ 2 * (opening b :: closing b :: rest).length ∧
      Passes size n opened .value (opening b :: closing b :: rest) opened .next rest :=
  ⟨2, by simp only [List.length_cons]; omega, .trans (.opens b) (.closes b (.inl rfl))⟩

end

mutual

/-- A plain value is passed over, in at most two steps for each of its characters. -/
theorem passes_write (size : Nat) : (v : Json) → v.isPlain = true → (opened : List Bool) →
    (rest : List Char) → Ends rest → (v.write rest).length ≤ size →
    ∃ n, n + 2 * rest.length ≤ 2 * (v.write rest).length ∧
      Passes size n opened .value (v.write rest) opened .next rest
  | .null, h, opened, _, he, hf => passes_scalar h rfl opened he hf
  | .bool _, h, opened, _, he, hf => passes_scalar h rfl opened he hf
  | .int _, h, opened, _, he, hf => passes_scalar h rfl opened he hf
  | .str _, h, opened, _, he, hf => passes_scalar h rfl opened he hf
  | .arr [], _, opened, rest, _, _ => passes_empty false opened rest
  | .arr (v :: vs), h, opened, rest, he, hf => by
    obtain ⟨hv, hvs⟩ := Bool.and_eq_true_iff.mp h
    have shorter := depth_lt_length v hv (writeItems vs (']' :: rest))
    simp only [write, List.length_cons] at hf ⊢
    obtain ⟨n, hn, first⟩ := passes_write size v hv (false :: opened) (writeItems vs (']' :: rest))
      (ends_writeItems vs rest) (by omega)
    obtain ⟨m, hm, further⟩ := passes_writeItems size vs hvs opened rest (by omega)
    obtain ⟨c, tail, head, blank, close, -⟩ := write_head hv (writeItems vs (']' :: rest))
    have item : Passes size 1 (false :: opened) .first (v.write (writeItems vs (']' :: rest)))
        (false :: opened) .value (v.write (writeItems vs (']' :: rest))) := by
      rw [head]
      exact .enters false blank close
    exact ⟨_, by omega, (((Passes.opens false).trans item).trans first).trans further⟩
  | .obj [], _, opened, rest, _, _ => passes_empty true opened rest
  | .obj ((name, v) :: ms), h, opened, rest, he, hf => by
    obtain ⟨hv, hms⟩ := Bool.and_eq_true_iff.mp h
    have shorter := depth_lt_length v hv (writeMembers ms ('\x7d' :: rest))
    have named := length_writeChars name.toList
      ('"' :: ':' :: v.write (writeMembers ms ('\x7d' :: rest)))
    simp only [write, List.length_cons] at hf ⊢
    have room := length_le_of_member (Nat.le_of_succ_le hf)
    obtain ⟨n, hn, first⟩ := passes_write size v hv (true :: opened)
      (writeMembers ms ('\x7d' :: rest)) (ends_writeMembers ms rest) room
    obtain ⟨m, hm, further⟩ := passes_writeMembers size ms hms opened rest (by omega)
    have member : Passes size (1 + 1) (true :: opened) .first _ (true :: opened) .value _ :=
      .trans (.enters true (by decide) (by decide)) (.name (Nat.le_of_succ_le hf))
    simp only [writeString, List.length_cons] at named ⊢
    exact ⟨_, by omega, (((Passes.opens true).trans member).trans first).trans further⟩
termination_by structural v => v

theorem passes_writeItems (size : Nat) : (vs : List Json) → itemsPlain vs = true →
    (opened : List Bool) → (rest : List Char) → (writeItems vs (']' :: rest)).length ≤ size →
    ∃ n, n + 2 * rest.length ≤ 2 * (writeItems vs (']' :: rest)).length ∧
      Passes size n (false :: opened) .next (writeItems vs (']' :: rest)) opened .next rest
  | [], _, opened, rest, _ =>
    ⟨1, by simp only [writeItems, List.length_cons]; omega, .closes false (.inr rfl)⟩
  | v :: vs, h, opened, rest, hf => by
    obtain ⟨hv, hvs⟩ := Bool.and_eq_true_iff.mp h
    have shorter := depth_lt_length v hv (writeItems vs (']' :: rest))
    simp only [writeItems, List.length_cons] at hf ⊢
    obtain ⟨n, hn, first⟩ := passes_write size v hv (false :: opened) (writeItems vs (']' :: rest))
      (ends_writeItems vs rest) (by omega)
    obtain ⟨m, hm, further⟩ := passes_writeItems size vs hvs opened rest (by omega)
    exact ⟨_, by omega, ((Passes.comma false).trans first).trans further⟩
termination_by structural vs => vs

theorem passes_writeMembers (size : Nat) : (ms : List (String × Json)) → membersPlain ms = true →
    (opened : List Bool) → (rest : List Char) → (writeMembers ms ('\x7d' :: rest)).length ≤ size →
    ∃ n, n + 2 * rest.length ≤ 2 * (writeMembers ms ('\x7d' :: rest)).length ∧
      Passes size n (true :: opened) .next (writeMembers ms ('\x7d' :: rest)) opened .next rest
  | [], _, opened, rest, _ =>
    ⟨1, by simp only [writeMembers, List.length_cons]; omega, .closes true (.inr rfl)⟩
  | (name, v) :: ms, h, opened, rest, hf => by
    obtain ⟨hv, hms⟩ := Bool.and_eq_true_iff.mp h
    have shorter := depth_lt_length v hv (writeMembers ms ('\x7d' :: rest))
    have named := length_writeChars name.toList
      ('"' :: ':' :: v.write (writeMembers ms ('\x7d' :: rest)))
    simp only [writeMembers, List.length_cons] at hf ⊢
    have room := length_le_of_member (Nat.le_of_succ_le hf)
    obtain ⟨n, hn, first⟩ := passes_write size v hv (true :: opened)
      (writeMembers ms ('\x7d' :: rest)) (ends_writeMembers ms rest) room
    obtain ⟨m, hm, further⟩ := passes_writeMembers size ms hms opened rest (by omega)
    have member : Passes size (1 + 1) (true :: opened) .next _ (true :: opened) .value _ :=
      .trans (.comma true) (.name (Nat.le_of_succ_le hf))
    simp only [writeString, List.length_cons] at named ⊢
    exact ⟨_, by omega, (member.trans first).trans further⟩
termination_by structural ms => ms

end

/-- A plain value is passed over, however deep it nests. -/
theorem skip_write {v : Json} (h : v.isPlain = true) {rest : List Char} (he : Ends rest)
    {fuel : Nat} (hf : (v.write rest).length ≤ fuel) : skip fuel (v.write rest) = some rest := by
  obtain ⟨n, hn, passes⟩ := passes_write fuel v h [] rest he hf
  obtain ⟨k, hk⟩ : ∃ k, 2 * fuel + 2 = (k + 1) + n := ⟨2 * fuel + 1 - n, by omega⟩
  rw [skip, hk, passes]
  rfl

/-! ## Values that are cut -/

mutual

/-- A value in which containers that nest deeper than `depth` cannot be used. -/
def cut : Json → Nat → Json
  | .arr _, 0 => .unusable
  | .arr items, depth + 1 => .arr (itemsCut items depth)
  | .obj _, 0 => .unusable
  | .obj members, depth + 1 => .obj (membersCut members depth)
  | .null, _ => .null
  | .bool b, _ => .bool b
  | .int n, _ => .int n
  | .real t, _ => .real t
  | .str s, _ => .str s
  | .unusable, _ => .unusable
termination_by structural v => v

def itemsCut : List Json → Nat → List Json
  | [], _ => []
  | v :: vs, depth => cut v depth :: itemsCut vs depth
termination_by structural vs => vs

def membersCut : List (String × Json) → Nat → List (String × Json)
  | [], _ => []
  | (name, v) :: ms, depth => (name, cut v depth) :: membersCut ms depth
termination_by structural ms => ms

end

mutual

theorem cut_of_depth_le : (v : Json) → (depth : Nat) → v.depth ≤ depth → v.cut depth = v
  | .null, _, _ | .bool _, _, _ | .int _, _, _ => rfl
  | .real _, _, _ | .str _, _, _ | .unusable, _, _ => rfl
  | .arr items, depth, h => by
    obtain ⟨depth, rfl⟩ := Nat.exists_eq_add_one_of_ne_zero (Nat.ne_of_gt (Nat.zero_lt_of_lt h))
    rw [cut, itemsCut_of_depth_le items depth (Nat.le_of_succ_le_succ h)]
  | .obj members, depth, h => by
    obtain ⟨depth, rfl⟩ := Nat.exists_eq_add_one_of_ne_zero (Nat.ne_of_gt (Nat.zero_lt_of_lt h))
    rw [cut, membersCut_of_depth_le members depth (Nat.le_of_succ_le_succ h)]
termination_by structural v => v

theorem itemsCut_of_depth_le : (vs : List Json) → (depth : Nat) → itemsDepth vs ≤ depth →
    itemsCut vs depth = vs
  | [], _, _ => rfl
  | v :: vs, depth, h => by
    obtain ⟨hv, hvs⟩ := Nat.max_le.mp h
    rw [itemsCut, cut_of_depth_le v depth hv, itemsCut_of_depth_le vs depth hvs]
termination_by structural vs => vs

theorem membersCut_of_depth_le : (ms : List (String × Json)) → (depth : Nat) →
    membersDepth ms ≤ depth → membersCut ms depth = ms
  | [], _, _ => rfl
  | (name, v) :: ms, depth, h => by
    obtain ⟨hv, hms⟩ := Nat.max_le.mp h
    rw [membersCut, cut_of_depth_le v depth hv, membersCut_of_depth_le ms depth hms]
termination_by structural ms => ms

end

/-! ## Values that are read -/

/-- A value is read wherever it ends, within a text of some length. -/
def ReadBack (fuel depth : Nat) (v : Json) : Prop :=
  ∀ rest, Ends rest → (v.write rest).length ≤ fuel →
    readValue fuel depth (v.write rest) = some (v.cut depth, rest)

theorem readBack_scalar {fuel depth : Nat} {v : Json} (h : v.isPlain = true) (hd : v.depth = 0) :
    ReadBack fuel depth v := fun rest he hf => by
  obtain ⟨c, tail, head, blank, bracket, read⟩ := readScalar_write h hd he hf
  rw [cut_of_depth_le v depth (by omega), head, readValue_of_scalar _ _ _ blank bracket, read]

theorem readValue_stopped {c : Char} (cs : List Char) (fuel : Nat) (hc : c = '[' ∨ c = '\x7b') :
    readValue fuel 0 (c :: cs) = (skip fuel (c :: cs)).map (.unusable, ·) := by
  have blank : isBlank c = false := by rcases hc with rfl | rfl <;> decide
  rw [readValue, skipBlanks_cons cs blank]
  exact if_pos hc

/-- Where the reader stops, a container is passed over. -/
theorem readBack_stopped {fuel : Nat} {v : Json} (h : v.isPlain = true) (hd : 0 < v.depth) :
    ReadBack fuel 0 v := fun rest he hf => by
  have passed := skip_write h he hf
  obtain ⟨c, tail, head, bracket⟩ :
      ∃ c tail, v.write rest = c :: tail ∧ (c = '[' ∨ c = '\x7b') := by
    cases v with
    | arr items => cases items <;> exact ⟨_, _, rfl, .inl rfl⟩
    | obj members => cases members <;> exact ⟨_, _, rfl, .inr rfl⟩
    | null | bool | int | real | str | unusable => cases hd
  have none : v.cut 0 = .unusable := by
    cases v with
    | arr items => rfl
    | obj members => rfl
    | null | bool | int | real | str | unusable => cases hd
  rw [head] at passed ⊢
  rw [readValue_stopped tail fuel bracket, passed, none]
  rfl

mutual

/-- A plain value is read from the front of a text, cut where the reader stops. -/
theorem readValue_write (fuel : Nat) : (v : Json) → v.isPlain = true → (depth : Nat) →
    ReadBack fuel depth v
  | .null, h, _ => readBack_scalar h rfl
  | .bool _, h, _ => readBack_scalar h rfl
  | .int _, h, _ => readBack_scalar h rfl
  | .str _, h, _ => readBack_scalar h rfl
  | .arr items, h, 0 => readBack_stopped h (Nat.succ_pos _)
  | .obj members, h, 0 => readBack_stopped h (Nat.succ_pos _)
  | .arr [], _, depth + 1 => fun rest _ _ => by
    simp [write, readValue, skipBlanks_cons (c := '[') _ (by decide), readContainer,
      skipBlanks_cons (c := ']') _ (by decide), cut, itemsCut]
  | .arr (v :: vs), h, depth + 1 => fun rest _ hf => by
    obtain ⟨hv, hvs⟩ := Bool.and_eq_true_iff.mp h
    have further := itemsDepth_le_length vs hvs (']' :: rest)
    have first := depth_lt_length v hv (writeItems vs (']' :: rest))
    simp only [write, List.length_cons] at hf
    have read := readItems_write fuel vs hvs depth v hv (readValue_write fuel v hv depth) rest fuel
      (by omega) (by omega)
    obtain ⟨c, tail, head, blank, close, -⟩ := write_head hv (writeItems vs (']' :: rest))
    rw [head] at read
    simp [write, readValue, skipBlanks_cons (c := '[') _ (by decide), readContainer, head,
      skipBlanks_cons _ blank, close, read, cut, itemsCut]
  | .obj [], _, depth + 1 => fun rest _ _ => by
    simp [write, readValue, skipBlanks_cons (c := '\x7b') _ (by decide), readContainer,
      skipBlanks_cons (c := '\x7d') _ (by decide), objectOf, cut, membersCut]
  | .obj ((name, v) :: ms), h, depth + 1 => fun rest _ hf => by
    obtain ⟨hv, hms⟩ := Bool.and_eq_true_iff.mp h
    have further := membersDepth_le_length ms hms ('\x7d' :: rest)
    have first := depth_lt_length v hv (writeMembers ms ('\x7d' :: rest))
    have named := length_writeChars name.toList
      ('"' :: ':' :: v.write (writeMembers ms ('\x7d' :: rest)))
    simp only [write, writeString, List.length_cons] at hf named
    have read := readMembers_write fuel ms hms depth name v hv (readValue_write fuel v hv depth)
      rest fuel (by omega) (by
        simp only [writeString, List.length_cons]
        omega)
    rw [writeString] at read
    simp [write, writeString, readValue, skipBlanks_cons (c := '\x7b') _ (by decide), readContainer,
      skipBlanks_cons (c := '"') _ (by decide), read, ← List.map_cons, objectOf_map_some, cut,
      membersCut]
termination_by structural v => v

theorem readItems_write (fuel : Nat) : (vs : List Json) → itemsPlain vs = true → (depth : Nat) →
    (v : Json) → v.isPlain = true → ReadBack fuel depth v → (rest : List Char) → (k : Nat) →
    vs.length < k → (v.write (writeItems vs (']' :: rest))).length ≤ fuel →
    readSeparated (readValue fuel depth) ']' k (v.write (writeItems vs (']' :: rest))) =
      some (v.cut depth :: itemsCut vs depth, rest)
  | [], _, _, v, _, hr, rest, k, hk, hf => by
    obtain ⟨k, rfl⟩ := Nat.exists_eq_add_one_of_ne_zero (Nat.ne_of_gt hk)
    exact readSeparated_last k (hr _ (ends_writeItems [] rest) hf) (by decide) (by decide)
  | w :: ws, h, depth, v, hv, hr, rest, k, hk, hf => by
    obtain ⟨k, rfl⟩ := Nat.exists_eq_add_one_of_ne_zero (Nat.ne_of_gt (Nat.zero_lt_of_lt hk))
    obtain ⟨hw, hws⟩ := Bool.and_eq_true_iff.mp h
    have shorter := depth_lt_length v hv (writeItems (w :: ws) (']' :: rest))
    simp only [writeItems, List.length_cons] at shorter hf hk
    have later := readItems_write fuel ws hws depth w hw (readValue_write fuel w hw depth) rest k
      (by omega) (by omega)
    exact readSeparated_next (hr _ (ends_writeItems (w :: ws) rest) hf) later
termination_by structural vs => vs

theorem readMembers_write (fuel : Nat) : (ms : List (String × Json)) → membersPlain ms = true →
    (depth : Nat) → (name : String) → (v : Json) → v.isPlain = true → ReadBack fuel depth v →
    (rest : List Char) → (k : Nat) → ms.length < k →
    (writeString name (':' :: v.write (writeMembers ms ('\x7d' :: rest)))).length ≤ fuel →
    readSeparated (readMember (readValue fuel depth) fuel) '\x7d' k
        (writeString name (':' :: v.write (writeMembers ms ('\x7d' :: rest)))) =
      some (some (name, v.cut depth) :: (membersCut ms depth).map some, rest)
  | [], _, _, name, v, _, hr, rest, k, hk, hf => by
    obtain ⟨k, rfl⟩ := Nat.exists_eq_add_one_of_ne_zero (Nat.ne_of_gt hk)
    have value := hr _ (ends_writeMembers [] rest) (by have := length_le_of_member hf; omega)
    exact readSeparated_last k (readMember_write hf value) (by decide) (by decide)
  | (next, w) :: ms, h, depth, name, v, hv, hr, rest, k, hk, hf => by
    obtain ⟨k, rfl⟩ := Nat.exists_eq_add_one_of_ne_zero (Nat.ne_of_gt (Nat.zero_lt_of_lt hk))
    obtain ⟨hw, hms⟩ := Bool.and_eq_true_iff.mp h
    have shorter := depth_lt_length v hv (writeMembers ((next, w) :: ms) ('\x7d' :: rest))
    have room := length_le_of_member hf
    have value := hr _ (ends_writeMembers ((next, w) :: ms) rest) room
    simp only [writeMembers, List.length_cons] at shorter room hk
    have later := readMembers_write fuel ms hms depth next w hw (readValue_write fuel w hw depth)
      rest k (by omega) (by omega)
    exact readSeparated_next (readMember_write hf value) later
termination_by structural ms => ms

end

/-! ## Texts -/

/-- A plain value is read from its text, cut where the reader stops. -/
theorem parse_cut {v : Json} (h : v.isPlain = true) (limit : Nat) :
    parse limit v.text = some (v.cut limit) := by
  have read := readValue_write v.text.length v h limit [] ends_nil
    (Nat.le_of_eq (by rw [text, String.length_ofList]))
  rw [parse, text, String.toList_ofList, ← text, read]
  rfl

/-- A plain value is read back from its text, if the reader goes as deep as the value nests. -/
theorem parse_text {v : Json} (h : v.isPlain = true) {limit : Nat} (hd : v.depth ≤ limit) :
    parse limit v.text = some v := by
  rw [parse_cut h, cut_of_depth_le v limit hd]

/-- Read without a limit, it is read back however deep it nests. -/
theorem parseAny_text {v : Json} (h : v.isPlain = true) : parseAny v.text = some v := by
  have deep := depth_lt_length v h []
  have read : parse v.text.length v.text = some v := by
    refine parse_text h ?_
    rw [text, String.length_ofList]
    omega
  rw [parseAny, read]
  simp [isUsable_of_isPlain v h]

end Json
end AccessDepth
