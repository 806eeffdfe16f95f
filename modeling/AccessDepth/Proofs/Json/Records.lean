import AccessDepth.Json.Decode
import AccessDepth.Proofs.Json.Text
import AccessDepth.Vocabulary

/-!
# AccessDepth.Proofs.Json.Records

Records and variants that are written are read back.

* `Json.Codec` — a value is written plainly and read back from what is written.
* `slots_obj`, `formSlots_obj` — a record finds its members in the object that it writes.
* `Codec.option`, `Codec.list` — absent and repeated values.
* `Json.Kept` — as `Codec`, for a reader that goes down to a level: it reads back what nests less deep.
* `Kept.record`, `Kept.variant`, `Kept.form` — the same of records and variants.
-/

namespace AccessDepth
namespace Json

/-- A value is written plainly and not as null, and is read back from what is written. -/
structure Codec {α : Type} (write : α → Json) (read : Json → Option α) (x : α) : Prop where
  plain : (write x).isPlain = true
  notNull : write x ≠ .null
  read : read (write x) = some x

variable {α : Type} {write : α → Json}

/-! ## Members -/

theorem given_of_mem {members : List (String × Json)} (hd : (members.map (·.1)).Nodup)
    {slot : Slot} {m : String × Json} (hm : m ∈ members) (hn : m.1 = slot.name) :
    slot.given members = some (some m.2) := by
  have only : members.filter (fun m' => m'.1 == slot.name) = [m] := by
    induction members with
    | nil => cases hm
    | cons m' ms ih =>
      obtain ⟨hnot, hms⟩ := List.nodup_cons.mp hd
      have others (heq : m'.1 = slot.name) : ms.filter (fun m => m.1 == slot.name) = [] :=
        List.filter_eq_nil_iff.mpr fun x hx h =>
          hnot (List.mem_map.mpr ⟨x, hx, (beq_iff_eq.mp h).trans heq.symm⟩)
      obtain rfl | hm := List.mem_cons.mp hm
      · rw [List.filter_cons_of_pos (by simp [hn]), others hn]
      · have ne : m'.1 ≠ slot.name := fun heq =>
          hnot (List.mem_map.mpr ⟨m, hm, hn.trans heq.symm⟩)
        rw [List.filter_cons_of_neg (by simp [ne]), ih hms hm]
  rw [Slot.given, only]

theorem mapM_given {members : List (String × Json)} (hd : (members.map (·.1)).Nodup)
    {ss : List Slot} {ms : List (String × Json)} (hs : ms.map (·.1) = ss.map (·.name))
    (hm : ∀ m ∈ ms, m ∈ members) : ss.mapM (Slot.given members) = some (ms.map (some ·.2)) := by
  induction ms generalizing ss with
  | nil =>
    rw [List.map_eq_nil_iff.mp hs.symm]
    rfl
  | cons m ms ih =>
    cases ss with
    | nil => cases hs
    | cons slot ss =>
      obtain ⟨hn, hs⟩ := List.cons.inj hs
      rw [List.mapM_cons, given_of_mem hd (hm m List.mem_cons_self) hn,
        ih hs fun x hx => hm x (List.mem_cons_of_mem m hx)]
      rfl

/-- A record finds its members in an object that has them in order. -/
theorem slots_obj {ss : List Slot} {members : List (String × Json)}
    (hs : members.map (·.1) = ss.map (·.name)) (hd : (ss.map (·.name)).Nodup) :
    (Json.obj members).slots ss = some (members.map (some ·.2)) :=
  mapM_given (hs ▸ hd) hs fun _ hm => hm

theorem formSlots_obj (o : Origin) {ss : List Slot} {members : List (String × Json)}
    (hs : members.map (·.1) = ss.map (·.name)) (hd : (ss.map (·.name)).Nodup) :
    (Json.obj members).formSlots o ss = some (members.map (some ·.2)) := by
  cases o <;> exact slots_obj hs hd

/-! ## Absent and repeated values -/

theorem isPlain_ofOption {x : Option α} (h : ∀ a ∈ x, (write a).isPlain = true) :
    (ofOption write x).isPlain = true := by
  cases x with
  | none => rfl
  | some a => exact h a rfl

theorem isPlain_ofList {xs : List α} (h : ∀ a ∈ xs, (write a).isPlain = true) :
    (ofList write xs).isPlain = true := by
  rw [ofList, isPlain]
  induction xs with
  | nil => rfl
  | cons a xs ih =>
    rw [List.map_cons, itemsPlain, h a List.mem_cons_self,
      ih fun b hb => h b (List.mem_cons_of_mem a hb)]
    rfl

namespace Codec

variable {read : Json → Option α}

theorem option {x : Option α} (h : ∀ a ∈ x, Codec write read a) :
    optional read (some (ofOption write x)) = some x := by
  cases x with
  | none => rfl
  | some a =>
    have written := h a rfl
    have content : optional read (some (write a)) = (read (write a)).map some := by
      unfold optional
      split
      · next heq => cases heq
      · next heq => exact absurd (Option.some.inj heq) written.notNull
      · next heq => cases heq; rfl
    rw [ofOption, content, written.read]
    rfl

theorem list {xs : List α} (h : ∀ a ∈ xs, Codec write read a) :
    list? read (ofList write xs) = some xs := by
  rw [ofList, list?]
  induction xs with
  | nil => rfl
  | cons a xs ih =>
    rw [List.map_cons, List.mapM_cons, (h a List.mem_cons_self).read,
      ih fun b hb => h b (List.mem_cons_of_mem a hb)]
    rfl

end Codec

/-- A record that is written is read back, if its members are. -/
theorem Codec.record {read : Json → Option α} {x : α} {members : List (String × Json)}
    (hw : write x = .obj members) (plain : membersPlain members = true)
    (hr : read (.obj members) = some x) : Codec write read x :=
  ⟨by rwa [hw], by simp [hw], by rwa [hw]⟩

/-! ## Scalars -/

@[simp] theorem isPlain_str (s : String) : (Json.str s).isPlain = true := rfl

@[simp] theorem string?_str (s : String) : string? (.str s) = some s := rfl

@[simp] theorem isPlain_bool (b : Bool) : (Json.bool b).isPlain = true := rfl

@[simp] theorem bool?_bool (b : Bool) : bool? (.bool b) = some b := rfl

@[simp] theorem isPlain_ofUInt32 (n : UInt32) : (ofUInt32 n).isPlain = true := by
  have small := n.toNat_lt
  simp only [ofUInt32, isPlain, isWord, Int64.toInt_minValue, UInt64.size, decide_eq_true_eq]
  omega

@[simp] theorem uint32?_ofUInt32 (n : UInt32) : uint32? (ofUInt32 n) = some n := by
  have within : (0 : Int) ≤ n.toNat ∧ (n.toNat : Int) < UInt32.size :=
    ⟨Int.natCast_nonneg _, Int.ofNat_lt.mpr n.toNat_lt_size⟩
  rw [uint32?, ofUInt32, intIn?, if_pos within]
  simp

@[simp] theorem isPlain_ofInt64 (n : Int64) : (ofInt64 n).isPlain = true := by
  have lower := n.le_toInt
  have upper := n.toInt_lt
  simp only [ofInt64, isPlain, isWord, Int64.toInt_minValue, UInt64.size, decide_eq_true_eq]
  omega

@[simp] theorem int64?_ofInt64 (n : Int64) : int64? (ofInt64 n) = some n := by
  rw [int64?, ofInt64, intIn?, if_pos ⟨n.minValue_le_toInt, Int.lt_add_one_of_le n.toInt_le⟩]
  simp

theorem codec_string (s : String) : Codec .str string? s := ⟨rfl, by simp, rfl⟩

theorem codec_uint32 (n : UInt32) : Codec ofUInt32 uint32? n := ⟨by simp, by simp [ofUInt32], by simp⟩

theorem codec_int64 (n : Int64) : Codec ofInt64 int64? n := ⟨by simp, by simp [ofInt64], by simp⟩

/-- A vocabulary in which every word is that of one value. -/
def NamesApart (α : Type) [Vocabulary α] : Prop :=
  ∀ x : α, Vocabulary.named? (Vocabulary.name x) = some x

theorem codec_term [Vocabulary α] (h : NamesApart α) (x : α) :
    Codec Vocabulary.toJson Vocabulary.ofJson? x :=
  ⟨rfl, by simp [Vocabulary.toJson], h x⟩

theorem codec_taggedTerm [Vocabulary α] (h : NamesApart α) (x : α) :
    Codec Vocabulary.toJson Vocabulary.ofTaggedJson? x :=
  ⟨rfl, by simp [Vocabulary.toJson], h x⟩

/-! ## Variants -/

@[simp] theorem isBare_obj (form name : String) (members : List (String × Json)) :
    isBare form (.obj [(name, .obj members)]) = false := rfl

/-! ## Readers that go down to a level -/

/-- A value is written plainly, and is read back at every level that is above the depth of what is
written. -/
structure Kept (write : α → Json) (read : Nat → Json → Option α) (x : α) : Prop where
  plain : (write x).isPlain = true
  read : ∀ level, (write x).depth < level → read level (write x) = some x

namespace Kept

variable {read : Nat → Json → Option α} {x : α}

theorem codec (h : Kept write read x) (notNull : write x ≠ .null) :
    Codec write (fun v => read (v.depth + 1) v) x :=
  ⟨h.plain, notNull, h.read _ (Nat.lt_add_one _)⟩

abbrev Maybe (write : α → Json) (read : Nat → Json → Option α) : Option α → Prop :=
  Kept (ofOption write) fun level v => optional (read level) (some v)

abbrev All (write : α → Json) (read : Nat → Json → Option α) : List α → Prop :=
  Kept (ofList write) fun level => list? (read level)

theorem none : Maybe write read none := ⟨rfl, fun _ _ => rfl⟩

theorem some (h : Kept write read x) (notNull : write x ≠ .null) : Maybe write read (some x) where
  plain := h.plain
  read level hd := Codec.option fun a ha => by
    cases ha
    exact ⟨h.plain, notNull, h.read level hd⟩

theorem nil : All write read [] := ⟨rfl, fun _ _ => rfl⟩

theorem cons {xs : List α} (h : Kept write read x) (hs : All write read xs) :
    All write read (x :: xs) where
  plain := by
    have rest : itemsPlain (xs.map write) = true := hs.plain
    rw [ofList, isPlain, List.map_cons, itemsPlain, h.plain, rest]
    rfl
  read level hd := by
    rw [ofList, depth, List.map_cons, itemsDepth] at hd
    have first := h.read level (by omega)
    have rest : (xs.map write).mapM (read level) = .some xs :=
      hs.read level (by rw [ofList, depth]; omega)
    rw [ofList, list?, List.map_cons, List.mapM_cons, first, rest]
    rfl

/-- A record that has been written is read back, if its members are. -/
theorem record {members : List (String × Json)} (hw : write x = .obj members)
    (plain : membersPlain members = true)
    (hr : ∀ level, membersDepth members < level →
      read (level + 1) (.obj members) = .some x) : Kept write read x where
  plain := by rwa [hw]
  read level hd := by
    obtain ⟨level, rfl⟩ := Nat.exists_eq_add_one_of_ne_zero (Nat.ne_of_gt (Nat.zero_lt_of_lt hd))
    rw [hw]
    rw [hw, depth] at hd
    exact hr level (by omega)

/-- A variant with content that has been written is read back, if its content is. -/
theorem variant {name : String} {content : Json} (hw : write x = .obj [(name, content)])
    (plain : content.isPlain = true)
    (hr : ∀ level, content.depth < level →
      read (level + 1) (.obj [(name, content)]) = .some x) : Kept write read x :=
  record hw (by rw [membersPlain, plain]; rfl) fun level hd => by
    simp only [membersDepth] at hd
    exact hr level (by omega)

/-- A form that has been written is read back, if its members are. -/
theorem form {name : String} {members : List (String × Json)}
    (hw : write x = .obj [(name, .obj members)]) (plain : membersPlain members = true)
    (hr : ∀ level, membersDepth members < level →
      read (level + 1) (.obj [(name, .obj members)]) = .some x) : Kept write read x :=
  variant hw plain fun level hd => by
    rw [depth] at hd
    exact hr level (by omega)

end Kept

end Json
end AccessDepth
