import AccessDepth.Literal
import Mathlib.Data.Nat.Digits.Defs
import Mathlib.Tactic.IntervalCases

/-!
# AccessDepth.Proofs.Literals

Integer literals by the grammar of Go, and their values.

* `Literal.Digits` — digits of a base, with an underscore between two of them or none.
* `Literal.Written` — a text is an integer literal, and which number it stands for.
* `Literal.int?_written` — the value of a literal is read, unless it takes more than 63 bits.
-/

namespace AccessDepth
namespace Literal

/-! ## Grammar -/

/-- A digit of a base, in small or capital letters, and its value. -/
def IsDigit (radix : Nat) (c : Char) (d : Nat) : Prop :=
  d < radix ∧ (c = d.digitChar ∨ c = d.digitChar.toUpper)

instance (radix : Nat) (c : Char) (d : Nat) : Decidable (IsDigit radix c d) :=
  inferInstanceAs (Decidable (_ ∧ _))

/-- Digits of a base and their values. One underscore may stand between two digits. -/
inductive Digits (radix : Nat) : List Char → List Nat → Prop
  | last {c : Char} {d : Nat} : IsDigit radix c d → Digits radix [c] [d]
  | next {c : Char} {d : Nat} {cs : List Char} {ds : List Nat} :
    IsDigit radix c d → Digits radix cs ds → Digits radix (c :: cs) (d :: ds)
  | apart {c : Char} {d : Nat} {cs : List Char} {ds : List Nat} :
    IsDigit radix c d → Digits radix cs ds → Digits radix (c :: '_' :: cs) (d :: ds)

/-- What may follow the zero at the start of a literal, and the base that it tells. -/
def marks : List (List Char × Nat) :=
  [([], 8), (['x'], 16), (['X'], 16), (['o'], 8), (['O'], 8), (['b'], 2), (['B'], 2)]

def value (radix : Nat) (ds : List Nat) : Nat := Nat.ofDigits radix ds.reverse

/-- A text is an integer literal, and stands for a number. -/
inductive Written : List Char → Nat → Prop
  | zero : Written ['0'] 0
  /-- Only digits, and no zero in front. -/
  | decimal {cs : List Char} {d : Nat} {ds : List Nat} :
    Digits 10 cs (d :: ds) → d ≠ 0 → Written cs (value 10 (d :: ds))
  /-- A zero, the mark of a base, perhaps an underscore, and digits of that base. -/
  | marked {mark separator cs : List Char} {radix : Nat} {ds : List Nat} :
    (mark, radix) ∈ marks → separator = [] ∨ separator = ['_'] → Digits radix cs ds →
      Written ('0' :: mark ++ separator ++ cs) (value radix ds)

/-! ## Digits -/

variable {radix d : Nat} {c : Char} {cs : List Char} {ds : List Nat}

theorem digitChar_plain (h : d < 16) :
    d.digitChar ≠ '_' ∧ d.digitChar.toUpper ≠ '_' ∧ d.digitChar ≠ '+' ∧ d.digitChar ≠ '-' ∧
      d.digitChar ≠ 'x' ∧ d.digitChar ≠ 'o' := by
  interval_cases d <;> decide

theorem lower_digitChar (h : d < 16) :
    lower d.digitChar = d.digitChar ∧ lower d.digitChar.toUpper = d.digitChar := by
  interval_cases d <;> decide

theorem digit?_digitChar (h : d < 16) : digit? d.digitChar = some d := by
  interval_cases d <;> decide

/-- A literal as it is read: without underscores, in small letters. -/
def plain (cs : List Char) : List Char := (cs.filter (· ≠ '_')).map lower

theorem plain_append (cs cs' : List Char) : plain (cs ++ cs') = plain cs ++ plain cs' := by
  simp [plain]

theorem IsDigit.plain_cons (h : IsDigit radix c d) (hr : radix ≤ 16) :
    plain (c :: cs) = d.digitChar :: plain cs := by
  obtain ⟨hd, hc⟩ := h
  have small : d < 16 := Nat.lt_of_lt_of_le hd hr
  obtain ⟨own, capital, -⟩ := digitChar_plain small
  obtain ⟨lowerOwn, lowerCapital⟩ := lower_digitChar small
  obtain rfl | rfl := hc
  · simp [plain, own, lowerOwn]
  · simp [plain, capital, lowerCapital]

theorem Digits.plain_eq (h : Digits radix cs ds) (hr : radix ≤ 16) :
    plain cs = ds.map Nat.digitChar := by
  induction h with
  | last hc => exact hc.plain_cons hr
  | next hc _ ih => rw [hc.plain_cons hr, ih, List.map_cons]
  | @apart c d cs ds hc _ ih =>
    have skipped : plain ('_' :: cs) = plain cs := by simp [plain]
    rw [hc.plain_cons hr, skipped, ih, List.map_cons]

theorem Digits.lt (h : Digits radix cs ds) : ∀ d ∈ ds, d < radix := by
  induction h with
  | last hc => simpa using hc.1
  | next hc _ ih | apart hc _ ih => exact List.forall_mem_cons.mpr ⟨hc.1, ih⟩

theorem Digits.ne_nil (h : Digits radix cs ds) : ds ≠ [] := by cases h <;> simp

/-! ## Values -/

theorem value_cons (radix d : Nat) (ds : List Nat) :
    value radix (d :: ds) = d * radix ^ ds.length + value radix ds := by
  simp [value, Nat.ofDigits_append, Nat.add_comm, Nat.mul_comm]

theorem foldlM_extend (hr : radix ≤ 16) (h : ∀ d ∈ ds, d < radix) (v : Nat) :
    (ds.map Nat.digitChar).foldlM (extend radix) v =
      some (v * radix ^ ds.length + value radix ds) := by
  induction ds generalizing v with
  | nil => simp [value]
  | cons d ds ih =>
    obtain ⟨hd, hds⟩ := List.forall_mem_cons.mp h
    have step : extend radix v d.digitChar = some (v * radix + d) := by
      simp [extend, digit?_digitChar (Nat.lt_of_lt_of_le hd hr), hd]
    rw [List.map_cons, List.foldlM_cons, step, Option.bind_eq_bind, Option.bind_some, ih hds,
      value_cons, List.length_cons, Nat.pow_succ]
    exact congrArg some (by ring)

theorem integer?_digits (hr : radix ≤ 16) (h : ∀ d ∈ ds, d < radix) (hne : ds ≠ []) :
    integer? radix (ds.map Nat.digitChar) = some (value radix ds : Int) := by
  have read := foldlM_extend hr h 0
  obtain ⟨d, ds, rfl⟩ := List.exists_cons_of_ne_nil hne
  obtain ⟨-, -, plus, minus, -⟩ :=
    digitChar_plain (Nat.lt_of_lt_of_le (h d List.mem_cons_self) hr)
  rw [List.map_cons] at read ⊢
  unfold integer?
  split
  · rename_i first
    exact absurd (List.cons.inj first).1 plus
  · rename_i first
    exact absurd (List.cons.inj first).1 minus
  · simp [natural?, read]

/-! ## Literals -/

theorem fits_natCast (n : Nat) : fits n = decide (n ≤ 2 ^ 63 - 1) := by
  have least : Int64.minValue.toInt = -2 ^ 63 := by decide
  have greatest : Int64.maxValue.toInt = 2 ^ 63 - 1 := by decide
  rw [fits, least, greatest, ← Bool.decide_and]
  congr 1
  simp only [eq_iff_iff]
  omega

theorem int?_of_split {text : String} (hs : split (plain text.toList) = (radix, ds.map Nat.digitChar))
    (hr : radix ≤ 16) (h : ∀ d ∈ ds, d < radix) (hne : ds ≠ []) :
    int? text = if value radix ds ≤ 2 ^ 63 - 1 then some (value radix ds : Int) else none := by
  unfold int?
  rw [show (text.toList.filter (· ≠ '_')).map lower = plain text.toList from rfl, hs]
  simp [integer?_digits hr h hne, fits_natCast]

theorem split_decimal (hd : d < 10) (h : d ≠ 0) :
    split (d.digitChar :: cs) = (10, d.digitChar :: cs) := by
  interval_cases d <;> first | exact absurd rfl h | rfl

theorem split_octal (hd : d < 8) : split ('0' :: d.digitChar :: cs) = (8, d.digitChar :: cs) := by
  interval_cases d <;> rfl

theorem split_marked {mark : List Char} (hm : (mark, radix) ∈ marks) (h : ∀ d ∈ ds, d < radix)
    (hne : ds ≠ []) : split ('0' :: plain mark ++ ds.map Nat.digitChar) =
      (radix, ds.map Nat.digitChar) := by
  obtain ⟨d, ds, rfl⟩ := List.exists_cons_of_ne_nil hne
  simp only [marks, List.mem_cons, Prod.mk.injEq, List.not_mem_nil, or_false] at hm
  rcases hm with ⟨rfl, rfl⟩ | ⟨rfl, rfl⟩ | ⟨rfl, rfl⟩ | ⟨rfl, rfl⟩ | ⟨rfl, rfl⟩ | ⟨rfl, rfl⟩ |
    ⟨rfl, rfl⟩
  · exact split_octal (h d List.mem_cons_self)
  all_goals rfl

theorem radix_le_of_mark {mark : List Char} (hm : (mark, radix) ∈ marks) : radix ≤ 16 := by
  simp only [marks, List.mem_cons, Prod.mk.injEq, List.not_mem_nil, or_false] at hm
  omega

/-- The value of an integer literal is read when it has 63 bits at most, and nothing is when it has
more. -/
theorem int?_written {text : String} {n : Nat} (h : Written text.toList n) :
    int? text = if n ≤ 2 ^ 63 - 1 then some (n : Int) else none := by
  generalize ht : text.toList = cs at h
  cases h with
  | zero =>
    have hs : split (plain text.toList) = (10, [0].map Nat.digitChar) := by
      rw [ht]
      rfl
    exact int?_of_split hs (by decide) (by decide) (by decide)
  | @decimal cs d ds hd nonzero =>
    refine int?_of_split ?_ (by decide) hd.lt hd.ne_nil
    rw [ht, hd.plain_eq (by decide), List.map_cons]
    exact split_decimal (hd.lt d List.mem_cons_self) nonzero
  | @marked mark separator cs radix ds hm hs hd =>
    have hr := radix_le_of_mark hm
    refine int?_of_split ?_ hr hd.lt hd.ne_nil
    have skipped : plain separator = [] := by obtain rfl | rfl := hs <;> rfl
    rw [ht, plain_append, plain_append, skipped, hd.plain_eq hr, List.append_nil]
    exact split_marked hm hd.lt hd.ne_nil

/-- The greatest number that is read, in base sixteen, and the next one, in base eight. -/
theorem int?_limit_written :
    Written "0X_7fFF_ffff_ffff_ffff".toList (2 ^ 63 - 1) ∧
      int? "0X_7fFF_ffff_ffff_ffff" = some (2 ^ 63 - 1) ∧
      Written "01_000000000000000000000".toList (2 ^ 63) ∧
      int? "01_000000000000000000000" = none := by
  have seven : IsDigit 16 '7' 7 := by decide
  have f : IsDigit 16 'f' 15 := by decide
  have capital : IsDigit 16 'F' 15 := by decide
  have one : IsDigit 8 '1' 1 := by decide
  have zero : IsDigit 8 '0' 0 := by decide
  have group {cs : List Char} {ds : List Nat} (h : Digits 16 cs ds) :
      Digits 16 ('f' :: 'f' :: 'f' :: 'f' :: '_' :: cs) (15 :: 15 :: 15 :: 15 :: ds) :=
    .next f (.next f (.next f (.apart f h)))
  have zeros (n : Nat) : Digits 8 (List.replicate (n + 1) '0') (List.replicate (n + 1) 0) := by
    induction n with
    | zero => exact .last zero
    | succ n ih => exact .next zero ih
  have greatest : Written "0X_7fFF_ffff_ffff_ffff".toList (2 ^ 63 - 1) :=
    @Written.marked ['X'] ['_'] _ 16 _ (by decide) (.inr rfl)
      (.next seven (.next f (.next capital (.apart capital (group (group
        (.next f (.next f (.next f (.last f))))))))))
  have next : Written "01_000000000000000000000".toList (2 ^ 63) :=
    @Written.marked [] [] _ 8 _ (by decide) (.inl rfl) (.apart one (zeros 20))
  exact ⟨greatest, int?_written greatest, next, int?_written next⟩

end Literal
end AccessDepth
