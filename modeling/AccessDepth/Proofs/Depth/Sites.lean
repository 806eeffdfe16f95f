import AccessDepth.Proofs.Depth.Ends
import AccessDepth.Proofs.DepthPass

/-!
# AccessDepth.Proofs.Depth.Sites

What the depth pass finds at the sites that a node refers to.

* `Session.SameSites` — two sessions have the same files and variables.
* `Analyze.Steady` — from two such sessions a computation tells the same and leaves two such sessions.
* `Analyze.located`, `Analyze.variableOf?` — what is looked up for a site, if there is one.
* `definition_eq`, `variableOf_eq` — the pass looks up where an object is declared.
-/

namespace AccessDepth

/-- Two sessions have the same files and variables. -/
structure Session.SameSites (s t : Session) : Prop where
  root : s.corpusRoot = t.corpusRoot
  cached : s.files = t.files
  files : s.store.files = t.store.files
  vars : s.store.vars = t.store.vars

namespace Session.SameSites

variable {s t u : Session}

theorem refl (s : Session) : s.SameSites s := ⟨rfl, rfl, rfl, rfl⟩

theorem symm (h : s.SameSites t) : t.SameSites s :=
  ⟨h.root.symm, h.cached.symm, h.files.symm, h.vars.symm⟩

theorem trans (h : s.SameSites t) (h' : t.SameSites u) : s.SameSites u :=
  ⟨h.root.trans h'.root, h.cached.trans h'.cached, h.files.trans h'.files, h.vars.trans h'.vars⟩

theorem inCorpus (h : s.SameSites t) (path : Path) : s.inCorpus path = t.inCorpus path := by
  simp only [Session.inCorpus, h.root]

theorem of_inserts {P : Table → Prop} (root : t.corpusRoot = s.corpusRoot) (cached : t.files = s.files)
    (h : Inserts P s.store t.store) (hf : ¬ P .files) (hv : ¬ P .variables) : s.SameSites t :=
  ⟨root.symm, cached.symm, (h.rows_eq (v := .files) hf).symm, (h.rows_eq (v := .variables) hv).symm⟩

end Session.SameSites

namespace Analyze

variable {α β : Type}

/-- From two sessions with the same files and variables a computation tells the same, and leaves two
such sessions. -/
def Steady (a : Analyze α) : Prop :=
  ∀ ⦃s t s' t' : Session⦄ ⦃x y : α⦄, s.SameSites t → a s = .ok x s' → a t = .ok y t' →
    x = y ∧ s'.SameSites t'

theorem steady_pure (x : α) : Steady (pure x) := by
  intro s t s' t' y z h hs ht
  cases hs
  cases ht
  exact ⟨rfl, h⟩

theorem Steady.bind {a : Analyze α} {f : α → Analyze β} (ha : Steady a) (hf : ∀ x, Steady (f x)) :
    Steady (a >>= f) := by
  intro s t s' t' y z h hs ht
  obtain ⟨x, s₁, ha₁, hs⟩ := bind_eq_ok.mp hs
  obtain ⟨x', t₁, ha₂, ht⟩ := bind_eq_ok.mp ht
  obtain ⟨rfl, h₁⟩ := ha h ha₁ ha₂
  exact hf x h₁ hs ht

theorem steady_get {f : Session → Analyze α} (same : ∀ s t, s.SameSites t → f s = f t)
    (hf : ∀ s, Steady (f s)) : Steady (get >>= f) := by
  intro s t s' t' x y h hs ht
  have hs : f s s = .ok x s' := hs
  have ht : f t t = .ok y t' := ht
  rw [same s t h] at hs
  exact hf t h hs ht

theorem steady_cachedFile (path : Path) : Steady (cachedFile path) := by
  intro s t s' t' x y h hs ht
  cases hs
  cases ht
  rw [h.cached]
  exact ⟨rfl, h.root, rfl, h.files, h.vars⟩

theorem steady_cacheFile (path : Path) (id : FileId) : Steady (cacheFile path id) := by
  intro s t s' t' x y h hs ht
  cases hs
  cases ht
  exact ⟨rfl, h.root, congrArg (·.put path.components id) h.cached, h.files, h.vars⟩

theorem commit_eq_ok {t : Transaction α} {s s' : Session} {x : α} (h : commit t s = .ok x s') :
    ∃ store, t s.store = .ok (x, store) ∧ s' = s.committed store := by
  unfold commit at h
  split at h
  · cases ht : t s.store with
    | error v =>
      rw [ht] at h
      cases h
    | ok r =>
      rw [ht] at h
      cases h
      exact ⟨r.2, rfl, rfl⟩
  · cases h

theorem recordFile_of_missing {path : Path} {s s' : Store} {id : FileId}
    (hn : s.fileNamed? path.text = none) (h : recordFile path s = .ok (id, s')) :
    id = ⟨s.nextNumber .files⟩ ∧ s'.files = s.files ++ [⟨id, path.text⟩] := by
  obtain ⟨isNew, h⟩ := recordFile_ok h
  obtain ⟨found, -, -⟩ | ⟨-, -, hid, s₁, inserted, done⟩ := Transaction.ensure_ok h
  · rw [hn] at found
    cases found
  · cases done
    refine ⟨hid, ?_⟩
    rw [Store.eq_push_of_insert inserted]
    exact Store.rows_push_self s .files _

/-- The row of a file depends on the rows of the files only. -/
theorem recordFile_steady {path : Path} {s t s' t' : Store} {id id' : FileId}
    (h : s.files = t.files) (hs : recordFile path s = .ok (id, s'))
    (ht : recordFile path t = .ok (id', t')) : id = id' ∧ s'.files = t'.files := by
  have named : s.fileNamed? path.text = t.fileNamed? path.text := by
    simp only [Store.fileNamed?, h]
  cases hn : t.fileNamed? path.text with
  | some found =>
    rw [recordFile_of_found (named.trans hn)] at hs
    rw [recordFile_of_found hn] at ht
    cases hs
    cases ht
    exact ⟨rfl, h⟩
  | none =>
    obtain ⟨rfl, hs⟩ := recordFile_of_missing (named.trans hn) hs
    obtain ⟨rfl, ht⟩ := recordFile_of_missing hn ht
    have number : s.nextNumber .files = t.nextNumber .files := Store.nextNumber_eq (u := .files) h
    exact ⟨by rw [number], by rw [hs, ht, h, number]⟩

theorem steady_recordFile (path : Path) : Steady (commit (recordFile path)) := by
  intro s t s' t' x y h hs ht
  obtain ⟨s₁, first, rfl⟩ := commit_eq_ok hs
  obtain ⟨t₁, second, rfl⟩ := commit_eq_ok ht
  obtain ⟨rfl, files⟩ := recordFile_steady h.files first second
  have vars {s s' : Store} {id : FileId} (h : recordFile path s = .ok (id, s')) :
      s'.vars = s.vars := (recordFile_inserts h).rows_eq (v := .variables) (by simp [Table.owner])
  exact ⟨rfl, h.root, h.cached, files, (vars first).trans (h.vars.trans (vars second).symm)⟩

theorem steady_fileId (path : Path) : Steady (fileId path) := by
  refine (steady_cachedFile path).bind fun id => ?_
  cases id with
  | some id => exact steady_pure id
  | none =>
    refine (steady_recordFile path).bind fun id => ?_
    exact (steady_cacheFile path id).bind fun _ => steady_pure id

theorem steady_definition (site : SourceSite) : Steady (definition site) := by
  refine steady_get (fun s t h => by rw [h.inCorpus]) fun s => ?_
  split
  · exact (steady_fileId site.file).bind fun file => steady_pure _
  · exact steady_pure none

theorem steady_storedFile (path : Path) : Steady (storedFile path) := by
  refine steady_get (fun s t h => by rw [h.inCorpus]) fun s => ?_
  split
  · refine (steady_cachedFile path).bind fun id => ?_
    cases id with
    | some id => exact steady_pure (some id)
    | none =>
      refine steady_get (fun s t h => by simp only [Store.fileNamed?, h.files]) fun s => ?_
      split
      · exact (steady_cacheFile path _).bind fun _ => steady_pure _
      · exact steady_pure none
  · exact steady_pure none

theorem steady_variableAt (site : SourceSite) : Steady (variableAt site) := by
  refine (steady_storedFile site.file).bind fun file => ?_
  cases file with
  | some file =>
    exact steady_get (fun s t h => by simp only [Store.variableAt?, h.vars]) fun s => steady_pure _
  | none => exact steady_pure none

/-- The row and the position of a site, if there is one. -/
def located (site : Option SourceSite) : Analyze (Option (FileId × Position)) :=
  match site with
  | some site => Analyze.definition site
  | none => pure none

/-- The variable of a site, if there is one. -/
def variableOf? (site : Option SourceSite) : Analyze (Option VariableId) :=
  match site with
  | some site => variableAt site
  | none => pure none

theorem steady_located (site : Option SourceSite) : Steady (located site) := by
  cases site with
  | some site => exact steady_definition site
  | none => exact steady_pure none

theorem steady_variableOf? (site : Option SourceSite) : Steady (variableOf? site) := by
  cases site with
  | some site => exact steady_variableAt site
  | none => exact steady_pure none

/-! ## What does not matter at the sites -/

def KeepsSites (a : Analyze α) : Prop :=
  ∀ s, s.Ready → a.Ends s (fun _ s' => s'.Ready ∧ s.SameSites s') fun _ _ => True

theorem keepsSites_pure (x : α) : KeepsSites (pure x) := fun s hs => ⟨hs, .refl s⟩

theorem KeepsSites.bind {a : Analyze α} {f : α → Analyze β} (ha : KeepsSites a)
    (hf : ∀ x, KeepsSites (f x)) : KeepsSites (a >>= f) := by
  intro s hs
  refine (ha s hs).bind ?_
  rintro x s₁ ⟨ready, first⟩
  exact (hf x s₁ ready).mono (fun _ _ h => ⟨h.1, first.trans h.2⟩) fun _ _ h => h

theorem keepsSites_type (table : TypeTable) (ref : Option TypeRef) :
    KeepsSites (typeIdIfResolved table ref) := by
  intro s hs
  have ends := typeIdIfResolved_ends hs table ref
  have cached := typeId_files table ref s
  have same {s' : Session} (h : Session.LeadsTo (·.owner = .types) s s')
      (cached : s'.files = s.files) : s'.Ready ∧ s.SameSites s' :=
    ⟨h.ready, .of_inserts h.root cached h.inserts (by simp [Table.owner]) (by simp [Table.owner])⟩
  unfold leaves at cached
  unfold Ends typeIdIfResolved at ends ⊢
  cases ha : typeId table ref s with
  | ok id s' =>
    rw [ha] at ends cached
    exact same ends.1 cached
  | error f s' =>
    rw [ha] at ends cached
    cases f with
    | nilType => exact same ends.1 cached
    | store | file | exported | settings | internal => trivial

end Analyze

/-- Where the variable at the root of an access is declared. An access through another one has it from
there. -/
def Plan.AccessNote.rootSite? (n : AccessNote) : Option SourceSite :=
  match n.inner with
  | none => n.base
  | some _ => none

namespace Depth

/-! ## Objects -/

section

variable {p : Package} {w : Scope} {s : Session}

/-- The pass locates an object where it is declared. -/
theorem definition_eq (hp : w.package = p) (object : Option ObjectRef) :
    definition w object s = Analyze.located (p.declaration? s.corpusRoot object) s := by
  unfold definition Package.declaration? Scope.object?
  rw [hp]
  cases (p.objects.get? object).bind (·.decl) with
  | none => rfl
  | some site =>
    simp only [Option.bind_some, SourceSite.within]
    split
    · rfl
    · rename_i outside
      exact congrFun (if_neg outside) s

/-- The pass looks for a variable where it is declared. -/
theorem variableOf_eq {object : Option ObjectRef} {o : Object} (ho : p.objects.get? object = some o) :
    variableOf o s = Analyze.variableOf? (p.declaration? s.corpusRoot object) s := by
  unfold variableOf Package.declaration?
  rw [ho, Option.bind_some]
  cases o.decl with
  | none => rfl
  | some site =>
    simp only [Option.bind_some, SourceSite.within]
    split
    · rfl
    · rename_i outside
      have missing : Analyze.storedFile site.file s = .ok none s := congrFun (if_neg outside) s
      exact bind_of_ok missing

end

/-! ## Nodes -/

def Mark.nameSite? (p : Package) (root : Path) : Mark → Option SourceSite
  | .expr _ e => mentioned p root e
  | .name _ i => p.declaration? root i.object
  | _ => none

/-- What is looked up for a node at sites: where its name is defined, and then the variable at the
root of its access. -/
def Mark.seek (p : Package) (root : Path) (m : Mark) : Analyze (Option VariableId) := do
  let _ ← Analyze.located (m.nameSite? p root)
  Analyze.variableOf? ((m.access? p root).bind (·.rootSite?))

theorem Mark.steady_seek (p : Package) (root : Path) (m : Mark) : (m.seek p root).Steady :=
  (Analyze.steady_located _).bind fun _ => Analyze.steady_variableOf? _

end Depth
end AccessDepth
