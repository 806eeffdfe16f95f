import AccessDepth.Path

/-!
# AccessDepth.Proofs.Paths

Paths by their components.

* `Path.same_comm` — equality as paths is symmetric.
* `Path.notAfter_trans`, `Path.notAfter_total` — the order of two paths. `Path.same_of_notAfter`: none
  of two paths comes after the other only if they are equal.
* `Path.sorted_mergeSort` — paths that were sorted are in that order.
* `Path.components_child`, `Path.parent?_child` — an entry of a directory has one component more than
  the directory.
-/

namespace AccessDepth
namespace Path

theorem same_comm (p q : Path) : p.same q = q.same p := by simp [same, eq_comm]

theorem utf8_inj {s t : String} (h : utf8 s = utf8 t) : s = t :=
  String.toByteArray_inj.mp (ByteArray.ext (Array.toList_inj.mp h))

theorem utf8_ofList (cs : List Char) :
    utf8 (String.ofList cs) = cs.flatMap String.utf8EncodeChar := by
  simp [utf8, List.utf8Encode]

theorem length_utf8_ofList {cs : List Char} (h : ∀ c ∈ cs, c.utf8Size = 1) :
    (utf8 (String.ofList cs)).length = cs.length := by
  rw [utf8_ofList]
  induction cs with
  | nil => rfl
  | cons c cs ih =>
    obtain ⟨first, rest⟩ := List.forall_mem_cons.mp h
    rw [List.flatMap_cons, List.length_append, ih rest, String.length_utf8EncodeChar, first,
      List.length_cons, Nat.add_comm]

/-- The bytes of a component that is a name. -/
def Component.nameBytes : Component → List UInt8
  | .name text => utf8 text
  | _ => []

theorem Component.compare_eq :
    Component.compare = compareLex (compareOn Component.rank) (compareOn Component.nameBytes) := by
  funext a b
  cases a <;> cases b <;> rfl

theorem compareComponents_eq : compareComponents = List.compareLex Component.compare := by
  funext as bs
  induction as generalizing bs with
  | nil => cases bs <;> rfl
  | cons a as ih =>
    cases bs with
    | nil => rfl
    | cons b bs =>
      rw [compareComponents, List.compareLex, ih]
      cases a.compare b <;> rfl

instance : Std.TransCmp Component.compare := by
  rw [Component.compare_eq]
  infer_instance

instance : Std.TransCmp compareComponents := by
  rw [compareComponents_eq]
  infer_instance

instance : Std.LawfulEqCmp Component.compare where
  eq_of_compare {a b} h := by
    have ranks (h : Ord.compare a.rank b.rank = .eq) : a.rank = b.rank :=
      Std.LawfulEqCmp.eq_of_compare h
    cases a <;> cases b
    case name.name s t =>
      have bytes : Ord.compare (utf8 s) (utf8 t) = .eq := h
      exact congrArg Component.name (utf8_inj (Std.LawfulEqCmp.eq_of_compare bytes))
    all_goals first | rfl | exact absurd (ranks h) (by simp [Component.rank])

instance : Std.LawfulEqCmp compareComponents := by
  rw [compareComponents_eq]
  infer_instance

theorem same_of_notAfter {p q : Path} (h : p.notAfter q = true) (h' : q.notAfter p = true) :
    p.same q = true := by
  have eq : p.compare q = .eq := @Std.OrientedCmp.isLE_antisymm _ compareComponents _ _ _ h h'
  have components : p.components = q.components :=
    @Std.LawfulEqCmp.eq_of_compare _ compareComponents _ _ _ eq
  simp [same, components]

theorem notAfter_trans {p q r : Path} (h : p.notAfter q = true) (h' : q.notAfter r = true) :
    p.notAfter r = true :=
  @Std.TransCmp.isLE_trans _ compareComponents _ _ _ _ h h'

theorem notAfter_total (p q : Path) : (p.notAfter q || q.notAfter p) = true := by
  unfold notAfter compare
  rw [@Std.OrientedCmp.eq_swap _ compareComponents _ q.components]
  cases compareComponents p.components q.components <;> rfl

theorem sorted_mergeSort (ps : List Path) :
    (ps.mergeSort notAfter).Pairwise fun p q => p.notAfter q = true :=
  @List.pairwise_mergeSort _ notAfter (fun _ _ _ h h' => notAfter_trans h h') notAfter_total ps

/-! ## Entries of a directory -/

def IsName (name : String) : Prop := '/' ∉ name.toList ∧ name ≠ "" ∧ name ≠ "." ∧ name ≠ ".."

theorem pieces_name {name : String} (h : '/' ∉ name.toList) :
    (name.toList.splitOn '/').map String.ofList = [name] := by
  rw [List.splitOn_eq_singleton h]
  simp

theorem isAbsolute_name {name : String} (h : '/' ∉ name.toList) :
    (Path.mk name).isAbsolute = false := by
  unfold isAbsolute
  cases hn : name.toList with
  | nil => rfl
  | cons c cs =>
    have hc : c ≠ '/' := by
      rintro rfl
      exact h (hn ▸ List.mem_cons_self)
    simp [hc]

theorem isAbsolute_append {p : Path} (h : p.text ≠ "") (more : String) :
    (Path.mk (p.text ++ more)).isAbsolute = p.isAbsolute := by
  unfold isAbsolute
  cases hc : p.text.toList with
  | nil => exact absurd (String.toList_eq_nil_iff.mp hc) h
  | cons c cs => simp [hc]

theorem isAbsolute_child (p : Path) {name : String} (h : '/' ∉ name.toList) :
    (p.child name).isAbsolute = p.isAbsolute := by
  unfold child join
  simp only [isAbsolute_name h, Bool.false_eq_true, if_false]
  by_cases empty : p.text = ""
  · have relative : p.isAbsolute = false := by simp [isAbsolute, empty]
    have alone : (Path.mk ("" ++ name)).isAbsolute = false := by
      rw [String.empty_append, isAbsolute_name h]
    simp only [empty, true_or, if_true, relative, alone]
  · split
    · exact isAbsolute_append empty name
    · rw [String.append_assoc]
      exact isAbsolute_append empty _

theorem pieces_child (p : Path) : ∃ pieces, ∀ {name : String}, '/' ∉ name.toList →
    (p.child name).pieces = pieces ++ [name] := by
  unfold child join
  by_cases hp : p.text = "" ∨ p.text.toList.getLast? = some '/'
  · obtain hp | hp := hp
    · refine ⟨[], fun {name} h => ?_⟩
      simp [isAbsolute_name h, hp, pieces, pieces_name h]
    · obtain ⟨cs, hcs⟩ := List.getLast?_eq_some_iff.mp hp
      refine ⟨(cs.splitOn '/').map String.ofList, fun {name} h => ?_⟩
      simp [isAbsolute_name h, pieces, hcs, List.splitOn_append_cons_self, pieces_name h]
  · refine ⟨p.pieces, fun {name} h => ?_⟩
    simp only [isAbsolute_name h, hp, Bool.false_eq_true, if_false]
    simp [pieces, List.splitOn_append_cons_self, pieces_name h]

theorem components_of_pieces {p q : Path} {first : String} {ps more more' : List String}
    (hp : p.pieces = first :: ps ++ more) (hq : q.pieces = first :: ps ++ more')
    (ha : q.isAbsolute = p.isAbsolute) : ∃ cs, p.components = cs ++ more.filterMap componentOf ∧
      q.components = cs ++ more'.filterMap componentOf := by
  unfold components
  rw [hp, hq, ha]
  simp only [List.cons_append, List.filterMap_append, ← List.append_assoc]
  exact ⟨_, rfl, rfl⟩

/-- An entry of a directory has one component more. -/
theorem components_child (p : Path) {name : String} (h : IsName name) :
    (p.child name).components = p.components ++ [.name name] := by
  obtain ⟨slash, empty, here, up⟩ := h
  have last : componentOf name = some (.name name) := by simp [componentOf, empty, here, up]
  have relative := isAbsolute_name slash
  by_cases ht : p.text = ""
  · have none : p.components = [] := by
      obtain ⟨text⟩ := p
      cases ht
      rfl
    have child : p.child name = ⟨name⟩ := by simp [child, join, relative, ht]
    rw [child, none]
    simp [components, pieces, pieces_name slash, relative, here, last]
  · by_cases he : p.text.toList.getLast? = some '/'
    · obtain ⟨cs, hcs⟩ := List.getLast?_eq_some_iff.mp he
      obtain ⟨first, ps, hps⟩ := List.exists_cons_of_ne_nil (List.splitOn_ne_nil '/' cs)
      have child : p.child name = ⟨p.text ++ name⟩ := by simp [child, join, relative, he]
      have own : p.pieces = String.ofList first :: ps.map String.ofList ++ [""] := by
        simp [pieces, hcs, List.splitOn_append_cons_self, hps]
      have longer : pieces ⟨p.text ++ name⟩ =
          String.ofList first :: ps.map String.ofList ++ [name] := by
        simp [pieces, hcs, List.splitOn_append_cons_self, hps, pieces_name slash]
      obtain ⟨pre, hp, hq⟩ := components_of_pieces own longer (isAbsolute_append ht name)
      rw [child, hp, hq]
      simp [componentOf, empty, here, up]
    · obtain ⟨first, ps, hps⟩ := List.exists_cons_of_ne_nil (List.splitOn_ne_nil '/' p.text.toList)
      have child : p.child name = ⟨p.text ++ ("/" ++ name)⟩ := by
        simp [child, join, relative, ht, he, String.append_assoc]
      have own : p.pieces = String.ofList first :: ps.map String.ofList ++ [] := by
        simp [pieces, hps]
      have longer : pieces ⟨p.text ++ ("/" ++ name)⟩ =
          String.ofList first :: ps.map String.ofList ++ [name] := by
        simp [pieces, List.splitOn_append_cons_self, hps, pieces_name slash]
      obtain ⟨pre, hp, hq⟩ := components_of_pieces own longer (isAbsolute_append ht _)
      rw [child, hp, hq]
      simp [componentOf, empty, here, up]

theorem components_foldl_child (p : Path) {names : List String} (h : ∀ name ∈ names, IsName name) :
    (names.foldl child p).components = p.components ++ names.map .name := by
  induction names generalizing p with
  | nil => simp
  | cons name names ih =>
    obtain ⟨first, rest⟩ := List.forall_mem_cons.mp h
    rw [List.foldl_cons, ih (p.child name) rest, components_child p first]
    simp

theorem compareComponents_append (cs as bs : List Component) :
    compareComponents (cs ++ as) (cs ++ bs) = compareComponents as bs := by
  induction cs with
  | nil => rfl
  | cons c cs ih =>
    have same : c.compare c = .eq := Std.ReflCmp.compare_self
    rw [List.cons_append, List.cons_append, compareComponents, same, ih]
    rfl

theorem compareComponents_names (ns ms : List String) :
    compareComponents (ns.map .name) (ms.map .name) = Ord.compare (ns.map utf8) (ms.map utf8) := by
  induction ns generalizing ms with
  | nil => cases ms <;> rfl
  | cons n ns ih =>
    cases ms with
    | nil => rfl
    | cons m ms =>
      rw [List.map_cons, List.map_cons, compareComponents, ih]
      simp only [List.map_cons, List.compare_cons_cons]
      rfl

/-- What is in a directory has that directory above it. -/
theorem parent?_child (p : Path) {name : String} (h : IsName name) :
    (p.child name).parent? = some (ofComponents p.components) := by
  unfold parent?
  rw [components_child p h, List.reverse_append, ← List.reverse_reverse p.components]
  cases p.components.reverse <;> simp

end Path
end AccessDepth
