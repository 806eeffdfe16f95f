import AccessDepth.Proofs.Additions
import AccessDepth.Proofs.Plan.Rows

/-!
# AccessDepth.Proofs.Outside.Alike

Two computations side by side, over objects that look the same from inside a corpus.

* `ObjectTable.SameInside` — two tables hold the same objects, one by one, but for where they are
  declared outside a corpus.
* `Analyze.Alike` — two computations do the same on every session for a corpus, and add no files but
  those that are asked for. `Tame` — a computation adds no others.
* `alike_atDeclaration` — looking up the declarations of two such objects is alike.
* `Scope.over`, `Scope.Inside` — a scope beside the one over other objects.
-/

namespace AccessDepth

/-! ## Packages that look the same from inside a corpus -/

def Object.IsForeign (o : Object) (root : Path) : Prop :=
  ∀ site, o.decl = some site → site.file.startsWith root = false

/-- Objects that are the same but for where they are declared outside a corpus. -/
def Object.SameInside (root : Path) (o o' : Object) : Prop :=
  ∃ decl, o' = { o with decl := decl } ∧
    (o.decl = decl ∨ o.IsForeign root ∧ o'.IsForeign root)

/-- Tables of the same objects, one by one, but for where they are declared outside a corpus. -/
def ObjectTable.SameInside (root : Path) (t t' : ObjectTable) : Prop :=
  List.Forall₂ (Object.SameInside root) t.objects.toList t'.objects.toList

namespace Object.SameInside

variable {root : Path} {o o' : Object}

/-- In a file of the corpus both are declared at the same positions. -/
theorem declaredAt_eq (h : o.SameInside root o') {path : Path}
    (hp : path.startsWith root = true) (position : Position) :
    o.declaredAt path position = o'.declaredAt path position := by
  obtain ⟨decl, rfl, same | ⟨outside, outside'⟩⟩ := h
  · simp only [Object.declaredAt, same]
  · have never {x : Object} (hx : x.IsForeign root) : x.declaredAt path position = false := by
      unfold Object.declaredAt
      cases hd : x.decl with
      | none => rfl
      | some site =>
        have apart : site.file.same path = false := by
          rw [Bool.eq_false_iff]
          intro same
          have equal : site.file.components = path.components := by simpa [Path.same] using same
          have there := hx site hd
          simp only [Path.startsWith, equal] at there hp
          rw [hp] at there
          cases there
        simp [SourceSite.isAt, apart]
    rw [never outside, never outside']

end Object.SameInside

/-- A reference denotes nothing in both tables, or objects that look the same from the corpus. -/
theorem ObjectTable.SameInside.get? {root : Path} {t t' : ObjectTable} (h : t.SameInside root t')
    (r : Option ObjectRef) : Option.Rel (Object.SameInside root) (t.get? r) (t'.get? r) := by
  cases r with
  | none => exact .none
  | some r =>
    change Option.Rel _ t.objects[r.toNat]? t'.objects[r.toNat]?
    rw [← Array.getElem?_toList, ← Array.getElem?_toList]
    have entry {xs ys : List Object} (h : List.Forall₂ (Object.SameInside root) xs ys) (n : Nat) :
        Option.Rel (Object.SameInside root) xs[n]? ys[n]? := by
      induction h generalizing n with
      | nil => exact .none
      | cons here _ ih =>
        cases n with
        | zero => exact .some here
        | succ n => exact ih n
    exact entry h r.toNat

/-! ## Computations that do the same -/

/-- The files that were added were asked for. -/
structure Session.AddsFiles (asked : Path → Prop) (s s' : Session) : Prop where
  root : s'.corpusRoot = s.corpusRoot
  files : ∀ r ∈ s'.store.files, r ∈ s.store.files ∨ ∃ path, asked path ∧ r.path = path.text

namespace Session.AddsFiles

variable {asked : Path → Prop} {s s' s'' : Session}

theorem refl (asked : Path → Prop) (s : Session) : AddsFiles asked s s := ⟨rfl, fun _ h => .inl h⟩

theorem trans (h : AddsFiles asked s s') (h' : AddsFiles asked s' s'') : AddsFiles asked s s'' where
  root := h'.root.trans h.root
  files r hr := by
    obtain hr | new := h'.files r hr
    · exact h.files r hr
    · exact .inr new

theorem of_eq (hr : s'.corpusRoot = s.corpusRoot) (hf : s'.store.files = s.store.files) :
    AddsFiles asked s s' := ⟨hr, fun _ h => .inl (hf ▸ h)⟩

end Session.AddsFiles

namespace Analyze

open Session (AddsFiles)

variable {α β : Type} {root : Path} {asked : Path → Prop}

/-- Two computations do the same on every session for a corpus. The files that they add are asked
for. -/
structure Alike (root : Path) (asked : Path → Prop) (a b : Analyze α) : Prop where
  same : ∀ s, s.corpusRoot = root → a s = b s
  adds : ∀ s, s.corpusRoot = root →
    a.Ends s (fun _ => AddsFiles asked s) fun _ => AddsFiles asked s

/-- A computation adds no file that is not asked for. -/
abbrev Tame (root : Path) (asked : Path → Prop) (a : Analyze α) : Prop := Alike root asked a a

theorem tame_pure (x : α) : Tame root asked (pure x) where
  same _ _ := rfl
  adds s _ := ends_pure (.refl asked s)

theorem Alike.bind {a b : Analyze α} {f g : α → Analyze β} (h : Alike root asked a b)
    (hf : ∀ x, Alike root asked (f x) (g x)) : Alike root asked (a >>= f) (b >>= g) where
  same s hs := by
    have first := h.adds s hs
    unfold Ends at first
    cases ha : a s with
    | ok x s' =>
      rw [ha] at first
      rw [bind_of_ok ha, bind_of_ok (h.same s hs ▸ ha)]
      exact (hf x).same s' (first.root.trans hs)
    | error e s' => rw [bind_of_error ha, bind_of_error (h.same s hs ▸ ha)]
  adds s hs := by
    refine (h.adds s hs).bind fun x s' first => ?_
    have rest := (hf x).adds s' (first.root.trans hs)
    exact rest.mono (fun _ _ h => first.trans h) fun _ _ h => first.trans h

/-- Steps that add no files. -/
theorem tame_of_steps {P : Table → Prop} {known : Path → Prop} {a : Analyze α}
    (h : Steps P known a) (hP : ¬ P .files) : Tame root asked a where
  same _ _ := rfl
  adds s _ := by
    have added := h.adds s
    have later := h.later s
    unfold Ends at *
    cases ha : a s with
    | ok x s' =>
      rw [ha] at added later
      exact .of_eq later.root (added.rows_eq hP)
    | error e s' =>
      rw [ha] at added later
      exact .of_eq later.root (added.rows_eq hP)

theorem tame_commit {P : Table → Prop} {t : Transaction α}
    (ht : ∀ s x s', t s = .ok (x, s') → Inserts P s s') (hP : ¬ P .files) :
    Tame root asked (commit t) :=
  tame_of_steps (@Steps.commit P (fun _ => True) _ t ht) hP

theorem tame_typeId (table : TypeTable) (ref : Option TypeRef) :
    Tame root asked (typeIdIfResolved table ref) :=
  tame_of_steps (@Steps.type (·.owner = .types) (fun _ => True) table ref fun _ h => h).ifResolved
    (by simp [Table.owner])

theorem tame_fileId {path : Path} (h : asked path) : Tame root asked (fileId path) where
  same _ _ := rfl
  adds s _ := by
    have looked : AddsFiles asked s { s with files := (s.files.get path.components).2 } :=
      .of_eq rfl rfl
    have asks : (cachedFile path).Ends s
        (fun _ s' => s' = { s with files := (s.files.get path.components).2 })
        fun _ => AddsFiles asked s := rfl
    refine asks.bind ?_
    rintro x s' rfl
    cases x with
    | some id => exact ends_pure looked
    | none =>
      refine Ends.bind ((@commit_later _ (fun _ => False) _ (recordFile path) fun h =>
        (recordFile_inserts h).le).mono (fun _ _ h => h) ?_) ?_
      · rintro f s' rfl
        exact looked
      · rintro id s₂ ⟨hr, later⟩
        refine ⟨later.root, fun r hm => ?_⟩
        obtain ⟨isNew, hr⟩ := recordFile_ok hr
        obtain same | ⟨-, same⟩ := Plan.Write.ensure_eq hr
        · exact .inl (same ▸ hm)
        · change r ∈ s₂.store.rows .files at hm
          rw [same, Store.rows_pushAll] at hm
          obtain hm | hm := List.mem_append.mp hm
          · exact .inl hm
          · cases List.mem_singleton.mp (AnyRow.mem_of_in? hm)
            exact .inr ⟨path, h, rfl⟩

theorem tame_variableAt (site : SourceSite) : Tame root asked (variableAt site) :=
  tame_of_steps (@Steps.varAt (fun _ => False) (fun _ => True) site trivial) fun h => h

theorem tame_definition {site : SourceSite} (h : asked site.file) :
    Tame root asked (definition site) where
  same _ _ := rfl
  adds s hs := by
    refine ends_get ?_
    split
    · exact ((tame_fileId h).adds s hs).bind fun _ _ first => ends_pure first
    · exact ends_pure (.refl asked s)

/-- What is looked up at the declaration of an object, where nothing is found outside the corpus. -/
theorem alike_atDeclaration {o o' : Object} (h : o.SameInside root o')
    {look : SourceSite → Analyze (Option α)}
    (outside : ∀ site, site.file.startsWith root = false →
      ∀ s, s.corpusRoot = root → look site s = .ok none s)
    (inside : ∀ site, o.decl = some site → site.file.startsWith root = true →
      Tame root asked (look site)) :
    Alike root asked (o.decl.elim (pure none) look) (o'.decl.elim (pure none) look) := by
  have foreign {x : Object} (hx : x.IsForeign root) {s : Session} (hs : s.corpusRoot = root) :
      x.decl.elim (pure none) look s = .ok none s := by
    cases hd : x.decl with
    | none => rfl
    | some site => exact outside site (hx site hd) s hs
  have same_of {a : Analyze (Option α)} (ha : ∀ s, s.corpusRoot = root → a s = .ok none s) :
      Tame root asked a :=
    ⟨fun _ _ => rfl, fun s hs => by
      unfold Ends
      rw [ha s hs]
      exact .refl asked s⟩
  obtain ⟨decl, rfl, same | ⟨here, there⟩⟩ := h
  · rw [same]
    cases hd : decl with
    | none => exact tame_pure none
    | some site =>
      cases hi : site.file.startsWith root with
      | true => exact inside site (same.trans hd) hi
      | false => exact same_of (outside site hi)
  · exact ⟨fun s hs => (foreign here hs).trans (foreign there hs).symm,
      (same_of fun _ => foreign here).adds⟩

theorem definition_outside {site : SourceSite} (h : site.file.startsWith root = false)
    {s : Session} (hs : s.corpusRoot = root) : definition site s = .ok none s := by
  have away : s.inCorpus site.file = false := by rwa [Session.inCorpus, hs]
  change (if s.inCorpus site.file then _ else pure none : Analyze _) s = _
  rw [away]
  rfl

theorem variableAt_outside {site : SourceSite} (h : site.file.startsWith root = false)
    {s : Session} (hs : s.corpusRoot = root) : variableAt site s = .ok none s := by
  have away : s.inCorpus site.file = false := by rwa [Session.inCorpus, hs]
  have missed : storedFile site.file s = .ok none s := by
    change (if s.inCorpus site.file then _ else pure none : Analyze _) s = _
    rw [away]
    rfl
  unfold variableAt
  rw [bind_of_ok missed]
  rfl

theorem tame_functionAt (w : Scope) (position : Position) :
    Tame root asked (w.functionAt position) :=
  tame_of_steps (@Steps.funcAt (fun _ => False) (fun _ => True) w position) fun h => h

end Analyze

/-! ## Scopes -/

/-- The scope over the same package with other objects. -/
def Scope.over (w : Scope) (others : ObjectTable) : Scope :=
  { w with package := { w.package with objects := others } }

/-- A scope lies in the corpus, and its package and the one with other objects look the same from
there. What is declared in the corpus may be asked for. -/
structure Scope.Inside (w : Scope) (root : Path) (asked : Path → Prop) (others : ObjectTable) :
    Prop where
  path : w.path.startsWith root = true
  objects : w.package.objects.SameInside root others
  asks : ∀ {r o site}, w.object? r = some o → o.decl = some site →
    site.file.startsWith root = true → asked site.file

open Analyze

variable {root : Path} {asked : Path → Prop} {others : ObjectTable} {w : Scope}

namespace Scope.Inside

theorem enter (h : w.Inside root asked others) (id : FunctionId) :
    (w.enter id).Inside root asked others :=
  ⟨h.path, h.objects, h.asks⟩

theorem object_cases (h : w.Inside root asked others) (r : Option ObjectRef) :
    (w.object? r = none ∧ (w.over others).object? r = none) ∨
      ∃ o o', w.object? r = some o ∧ (w.over others).object? r = some o' ∧
        o.SameInside root o' := by
  have same : Option.Rel (Object.SameInside root) (w.object? r) ((w.over others).object? r) :=
    h.objects.get? r
  generalize w.object? r = x, (w.over others).object? r = y at same ⊢
  cases same with
  | none => exact .inl ⟨rfl, rfl⟩
  | some same => exact .inr ⟨_, _, rfl, rfl, same⟩

theorem type_eq (h : w.Inside root asked others) (r : Option ObjectRef) :
    ((w.over others).object? r).bind (·.type) = (w.object? r).bind (·.type) := by
  obtain ⟨ho, ho'⟩ | ⟨o, _, ho, ho', decl, rfl, -⟩ := h.object_cases r
  · rw [ho, ho']
  · rw [ho, ho']
    rfl

theorem typeOfName_eq (h : w.Inside root asked others) (i : Ident) :
    (w.over others).typeOfName i = w.typeOfName i :=
  congrArg i.type.or (h.type_eq i.object)

end Scope.Inside

end AccessDepth
