import AccessDepth.Proofs.Plan.Completion
import AccessDepth.Proofs.Plan.Prepared
import AccessDepth.Proofs.Steps

/-!
# AccessDepth.Proofs.Progress

What can stop a pass.

* `Session.Unhindered` — the store takes any number of transactions and has the row of no variable.
* `Analyze.Proceeds` — an unhindered session stops a computation only in given ways.
* `Scope.typeId_proceeds`, `Analyze.commit_proceeds` — a type is looked up, and a tidy write is
  recorded if what it refers to is there.
* `Scope.Stored` — the rows of a scope are there. `Scope.Goes` — from there a part of a pass proceeds.
* `Definitions.run_proceeds`, `Allocation.containers_proceeds`, `Allocation.sizes_proceeds` — nothing
  stops these passes.
-/

namespace AccessDepth

open Plan (Write)

theorem Store.IsFile.has {s : Store} {file : FileId} {path : Path} (h : s.IsFile file path) :
    s.has (.to file) = true := by
  obtain ⟨r, hr, rfl, -⟩ := h
  exact has_iff.mpr ⟨r, hr, rfl⟩

theorem Store.FitsType.has {s : Store} {table : TypeTable} {ref : Option TypeRef} {id : TypeId}
    (h : s.FitsType table ref (some id)) : s.has (.to id) = true := by
  obtain ⟨r, rfl, hr⟩ := Option.bind_eq_some_iff.mp h
  exact has_typeOf? hr

/-- A session whose store takes any number of transactions and has the row of no variable. -/
structure Session.Unhindered (s : Session) : Prop where
  unlimited : s.writesLeft = none
  isNew : Store.initial ≤ s.store

namespace Session

variable {P : Table → Prop} {s s' : Session}

theorem LeadsTo.unhindered (h : s.LeadsTo P s') (hs : s.Unhindered) : s'.Unhindered :=
  ⟨h.unlimited hs.unlimited, le_trans hs.isNew h.inserts.le⟩

theorem Halts.hindered {f : Failure} (h : s.Halts f) (hs : s.Ready) : ¬ s.Unhindered := by
  intro free
  cases h with
  | closed limited => exact limited free.unlimited
  | @type table r f hi hf =>
    obtain ⟨a, t, ok⟩ | missing := Uncached.intern_ends hs.sound
      (Nat.lt_succ_of_le (table.unstored_le_size s.store)) r
    · cases ok.symm.trans hi
    · cases missing.symm.trans hi
      exact hf rfl

end Session

open Session (LeadsTo)

/-! ## Computations -/

namespace Analyze

variable {R : Failure → Store → Prop} {α β : Type} {a : Analyze α} {s : Session}

/-- A tidy write is recorded if what it refers to is there. -/
theorem commit_records {t : Transaction α} {x : Write} (hs : s.Ready) (ht : x.record = discard t)
    (tidy : x.Tidy) (refs : s.Unhindered → ∀ ref ∈ x.refs, s.store.has ref = true) :
    (commit t).Ends s
      (fun y s' => t s.store = .ok (y, s'.store) ∧ x.record s.store = .ok ((), s'.store) ∧
        LeadsTo (·.owner = x.table) s s' ∧ s' = s.committed s'.store)
      fun _ _ => ¬ s.Unhindered := by
  have recorded {y : α} {s' : Store} (h : t s.store = .ok (y, s')) :
      x.record s.store = .ok ((), s') := by
    rw [ht]
    exact Plan.discard_ok.mpr ⟨y, h⟩
  refine (commit_ends hs fun y s' h => Write.record_inserts (recorded h)).mono ?_ ?_
  · rintro y s' ⟨h, later, committed⟩
    exact ⟨h, recorded h, later, committed⟩
  · rintro f s' ⟨-, ⟨-, limited⟩ | ⟨e, he, -⟩⟩ free
    · exact limited free.unlimited
    · obtain ⟨s', ok⟩ | ⟨-, ref, href, lacks⟩ := x.record_ends hs.sound tidy
      · rw [ht] at ok
        obtain ⟨y, ok⟩ := Plan.discard_ok.mp ok
        cases ok.symm.trans he
      · rw [refs free ref href] at lacks
        cases lacks

/-- From a session that is ready and unhindered, a computation ends with a result or fails in one of
some ways. -/
def Proceeds (R : Failure → Store → Prop) (a : Analyze α) (s : Session) (post : α → Store → Prop) :
    Prop :=
  s.Ready → a.Ends s (fun x s' => LeadsTo (fun _ => True) s s' ∧ post x s'.store)
    fun f s' => s.Unhindered → R f s'.store

theorem proceeds_pure {x : α} {post : α → Store → Prop} (h : post x s.store) :
    Proceeds R (pure x) s post :=
  fun hs => ends_pure ⟨.refl hs, h⟩

theorem Proceeds.bind {f : α → Analyze β} {mid : α → Store → Prop} {post : β → Store → Prop}
    (h : a.Proceeds R s mid)
    (hf : ∀ x s', LeadsTo (fun _ => True) s s' → mid x s'.store → (f x).Proceeds R s' post) :
    (a >>= f).Proceeds R s post := by
  intro hs
  refine (h hs).bind ?_
  rintro x s₁ ⟨later, hm⟩
  refine (hf x s₁ later hm later.ready).mono ?_ ?_
  · exact fun _ _ h => ⟨later.trans h.1, h.2⟩
  · exact fun _ _ h free => h (later.unhindered free)

/-- A tidy write stops nothing if what it refers to is there. -/
theorem commit_proceeds {t : Transaction α} {x : Write} (ht : x.record = discard t)
    (tidy : x.Tidy) (refs : ∀ ref ∈ x.refs, s.store.has ref = true) :
    (commit t).Proceeds R s fun y t' => t s.store = .ok (y, t') := by
  intro hs
  refine (commit_records hs ht tidy fun _ => refs).mono ?_ ?_
  · exact fun _ _ h => ⟨h.2.2.1.mono fun _ _ => trivial, h.1⟩
  · exact fun _ _ hindered free => (hindered free).elim

theorem commit_unit_proceeds {t : Transaction α} {x : Write} (ht : x.record = discard t) (tidy : x.Tidy)
    (refs : ∀ ref ∈ x.refs, s.store.has ref = true) :
    (commit t >>= fun _ => pure ()).Proceeds R s fun _ _ => True :=
  (commit_proceeds ht tidy refs).bind fun _ _ _ _ => proceeds_pure trivial

theorem fileId_proceeds (path : Path) :
    (fileId path).Proceeds R s fun id t => t.IsFile id path := by
  intro hs
  refine (fileId_ends hs path).mono ?_ ?_
  · exact fun _ _ h => ⟨h.1.mono fun _ _ => trivial, h.2⟩
  · exact fun _ _ h free => (h.2.hindered hs free).elim

end Analyze

/-! ## Scopes -/

namespace Scope

variable {R : Failure → Store → Prop} {w : Scope} {s s' : Session} {t t' : Store}

theorem typeId_ends (hs : s.Ready) (w : Scope) (ref : Option TypeRef) :
    (w.typeId ref).Ends s
      (fun id s' => LeadsTo (·.owner = .types) s s' ∧
        ∀ ref ∈ (id.map Reference.to).toList, s'.store.has ref = true)
      fun _ _ => ¬ s.Unhindered := by
  refine (Analyze.typeIdIfResolved_ends hs w.package.types ref).mono ?_ ?_
  · rintro id s' ⟨later, fits⟩
    refine ⟨later, fun ref href => ?_⟩
    obtain ⟨i, rfl, rfl⟩ := Option.map_eq_some_iff.mp (Option.mem_toList.mp href)
    exact fits.has
  · exact fun _ _ h => h.2.hindered hs

theorem typeId_proceeds (w : Scope) (ref : Option TypeRef) :
    (w.typeId ref).Proceeds R s fun id t =>
      ∀ ref ∈ (id.map Reference.to).toList, t.has ref = true := by
  intro hs
  refine (typeId_ends hs w ref).mono ?_ fun _ _ hindered free => (hindered free).elim
  exact fun _ _ h => ⟨h.1.mono fun _ _ => trivial, h.2⟩

/-- The rows of the file and of the functions around a place are there. -/
structure Stored (w : Scope) (t : Store) : Prop where
  file : t.has (.to w.file) = true
  enclosing : ∀ ref ∈ w.enclosing.refs, t.has ref = true

theorem Stored.of_le (h : w.Stored t) (hle : t ≤ t') : w.Stored t' :=
  ⟨Store.has_of_le hle h.file, fun ref href => Store.has_of_le hle (h.enclosing ref href)⟩

theorem Stored.innermost (h : w.Stored t) :
    ∀ ref ∈ (w.enclosing.innermost.map Reference.to).toList, t.has ref = true :=
  fun ref href => h.enclosing ref (List.mem_append_right _ href)

theorem Stored.enter (h : w.Stored t) {id : FunctionId} (hid : t.has (.to id) = true) :
    (w.enter id).Stored t where
  file := h.file
  enclosing := by
    intro ref href
    obtain href | href := List.mem_append.mp href
    · cases ho : w.enclosing.outermost with
      | none =>
        simp only [Scope.enter, ho, Option.none_or, Option.map_some, Option.toList_some,
          List.mem_singleton] at href
        rwa [href]
      | some o =>
        refine h.enclosing ref (List.mem_append_left _ ?_)
        simpa only [Scope.enter, ho, Option.some_or] using href
    · obtain rfl := List.mem_singleton.mp href
      exact hid

/-- From wherever the rows of a scope are there, a part of a pass proceeds. -/
structure Goes (R : Failure → Store → Prop) (w : Scope) (a : Analyze Unit) : Prop where
  proceeds : ∀ s : Session, w.Stored s.store → a.Proceeds R s fun _ _ => True

theorem goes_pure : w.Goes R (pure ()) := ⟨fun _ _ => Analyze.proceeds_pure trivial⟩

theorem Goes.bind {a b : Analyze Unit} (ha : w.Goes R a) (hb : w.Goes R b) :
    w.Goes R (a >>= fun _ => b) where
  proceeds s h := (ha.proceeds s h).bind fun _ s' later _ =>
    hb.proceeds s' (h.of_le later.inserts.le)

end Scope

variable {R : Failure → Store → Prop} {s : Session}

theorem proceeds_inFile {p : Package} {f : SourceFile} {pass : Scope → Analyze Unit}
    (h : ∀ file, Scope.Goes R ⟨p, f.path, file, ⟨none, none⟩⟩ (pass ⟨p, f.path, file, ⟨none, none⟩⟩)) :
    (Scope.ofFile p f >>= pass).Proceeds R s fun _ _ => True := by
  unfold Scope.ofFile
  rw [bind_assoc]
  refine (Analyze.fileId_proceeds f.path).bind fun file s₁ _ isFile => ?_
  rw [pure_bind]
  exact (h file).proceeds s₁ ⟨isFile.has, fun _ href => by cases href⟩

/-! ## Definitions -/

namespace Definitions

/-- Entries of a signature at some places, whose types are stored. -/
structure Enters (places : List (SignatureRole × Int)) (items : List SignatureItem) (t : Store) :
    Prop where
  places : (items.map fun e => (e.role, e.position)) = places
  types : ∀ ref ∈ (items.filterMap (·.type)).map Reference.to, t.has ref = true

theorem Enters.append {places places' : List (SignatureRole × Int)} {items items' : List SignatureItem}
    {t t' : Store} (h : Enters places items t) (h' : Enters places' items' t') (hle : t ≤ t') :
    Enters (places ++ places') (items ++ items') t' where
  places := by rw [List.map_append, h.places, h'.places]
  types := by
    rw [List.filterMap_append, List.map_append]
    simp only [List.forall_mem_append]
    exact ⟨fun ref href => Store.has_of_le hle (h.types ref href), h'.types⟩

theorem entries_proceeds (w : Scope) (role : SignatureRole) (ps : List (Int × SignatureParam))
    (s : Session) :
    (entries w role ps).Proceeds R s (Enters (ps.map fun x => (role, x.1))) := by
  induction ps generalizing s with
  | nil => exact Analyze.proceeds_pure ⟨rfl, fun _ href => by cases href⟩
  | cons x ps ih =>
    obtain ⟨position, p⟩ := x
    refine (w.typeId_proceeds _).bind fun type s₁ _ stored => ?_
    refine (ih s₁).bind fun rest s₂ later rest_stored => Analyze.proceeds_pure ?_
    have first : Enters [(role, position)]
        [{ role := role, position := position, type := type, name := p.name }] s₁.store := by
      refine ⟨rfl, ?_⟩
      cases type with
      | none => exact fun _ href => by cases href
      | some id => exact stored
    exact first.append rest_stored later.inserts.le

theorem allEntries_proceeds (w : Scope) (groups : List (SignatureRole × List SignatureParam))
    (s : Session) : (allEntries w groups).Proceeds R s (Enters (signaturePlaces groups)) := by
  induction groups generalizing s with
  | nil => exact Analyze.proceeds_pure ⟨rfl, fun _ href => by cases href⟩
  | cons x groups ih =>
    obtain ⟨role, params⟩ := x
    refine (entries_proceeds w role _ s).bind fun first s₁ _ h => ?_
    refine (ih s₁).bind fun rest s₂ later h' => Analyze.proceeds_pure ?_
    exact h.append h' later.inserts.le

/-- A function is recorded. -/
theorem function_proceeds {w : Scope} (hw : w.Stored s.store) {site : Site} (type : FuncType)
    (parent : ∀ ref ∈ (site.parent.map Reference.to).toList, s.store.has ref = true) :
    (function w site type).Proceeds R s fun id t => t.has (.to id) = true := by
  refine (w.typeId_proceeds _).bind fun id s₁ first type_stored => ?_
  refine (allEntries_proceeds w _ s₁).bind fun items s₂ second entered => ?_
  have le₁ := first.inserts.le
  have le₂ := second.inserts.le
  have distinct : (items.map fun e => (e.role, e.position)).Nodup := by
    rw [entered.places]
    refine signaturePlaces_nodup ?_
    cases signature? w site.type with
    | none => exact .nil
    | some s => exact s.groups_apart
  refine (Analyze.commit_proceeds (x := .function _ items) rfl (Write.tidy_function distinct) ?_).bind
    fun x s₃ _ recorded => Analyze.proceeds_pure ?_
  · simp only [Write.refs, List.forall_mem_cons, List.forall_mem_append]
    refine ⟨(hw.of_le (le_trans le₁ le₂)).file, ⟨fun ref href => ?_, fun ref href => ?_⟩,
      entered.types⟩
    · exact Store.has_of_le (le_trans le₁ le₂) (parent ref href)
    · exact Store.has_of_le le₂ (type_stored ref href)
  · exact Store.has_functionAt? (functionAt?_of_recordFunction recorded)

theorem namedVariable_goes (w : Scope) (name : String) (position : Position)
    (type : Option TypeRef) (isConst : Bool) (role : VariableRole) :
    w.Goes R (namedVariable w name position type isConst role) := by
  unfold namedVariable
  split
  · exact Scope.goes_pure
  · refine ⟨fun s hw => ?_⟩
    refine (w.typeId_proceeds _).bind fun id s₁ later stored => ?_
    have hw₁ := hw.of_le later.inserts.le
    refine Analyze.commit_unit_proceeds (x := .var _) rfl (Write.tidy_var _) ?_
    simp only [Write.refs, List.forall_mem_cons, List.forall_mem_append]
    exact ⟨hw₁.file, stored, hw₁.innermost⟩

theorem function_goes {w : Scope} (site : Site) (type : FuncType) {inside : Scope → Analyze Unit}
    (parent : site.parent = none ∨ site.parent = w.enclosing.innermost)
    (hi : ∀ w : Scope, w.Goes R (inside w)) :
    w.Goes R (function w site type >>= fun id => inside (w.enter id)) := by
  refine ⟨fun s hw => ?_⟩
  have parent_stored : ∀ ref ∈ (site.parent.map Reference.to).toList, s.store.has ref = true := by
    obtain none | innermost := parent
    · rw [none]
      exact fun _ href => by cases href
    · rw [innermost]
      exact hw.innermost
  refine (function_proceeds hw type parent_stored).bind fun id s₁ later stored => ?_
  exact (hi _).proceeds s₁ ((hw.of_le later.inserts.le).enter stored)

theorem goes_composes : Composes (Scope.Goes R) where
  pure _ := Scope.goes_pure
  bind := Scope.Goes.bind
  variableRow := namedVariable_goes
  functionRow := function_goes

theorem run_proceeds (p : Package) (f : SourceFile) : (run p f).Proceeds R s fun _ _ => True :=
  proceeds_inFile fun _ => goes_composes.walk f.outlines _

end Definitions

/-! ## Allocations -/

namespace Allocation

theorem site_goes {w : Scope} {t : Transaction Bool} {x : Write} (ht : x.record = discard t)
    (tidy : x.Tidy) (refs : x.refs = [.to w.file]) :
    w.Goes R (Analyze.commit t >>= fun _ => pure ()) := by
  refine ⟨fun s hw => Analyze.commit_unit_proceeds ht tidy ?_⟩
  rw [refs]
  simpa using hw.file

theorem makeHook_goes (w : Scope) (n : Node) (below : Analyze Unit) (hb : w.Goes R below) :
    w.Goes R (makeHook w n below) := by
  unfold makeHook
  split
  · split
    · split
      · exact site_goes (x := .makeSite _) rfl ⟨fun _ _ hr => (nomatch hr), fun _ => .nil⟩ rfl
      · exact Scope.goes_pure
    · exact hb
  · exact hb

theorem recordAlloc_goes (w : Scope) (span : Span) (builtin : String)
    (found : Option (String × Int)) : w.Goes R (recordAlloc w span builtin found) := by
  cases found with
  | none => exact Scope.goes_pure
  | some found =>
    exact site_goes (x := .sizedAlloc _) rfl ⟨fun _ _ hr => (nomatch hr), fun _ => .nil⟩ rfl

theorem sizedHook_goes (w : Scope) (n : Node) (below : Analyze Unit) (hb : w.Goes R below) :
    w.Goes R (sizedHook w n below) := by
  unfold sizedHook
  split
  · split
    · exact recordAlloc_goes ..
    · split
      · exact recordAlloc_goes ..
      · exact hb
  · exact hb

theorem containers_proceeds (p : Package) (f : SourceFile) :
    (containers p f).Proceeds R s fun _ _ => True :=
  proceeds_inFile fun _ => Outline.visitAll_good Scope.goes_pure (fun _ _ => Scope.Goes.bind)
    (makeHook_goes _) f.outlines

theorem sizes_proceeds (p : Package) (f : SourceFile) :
    (sizes p f).Proceeds R s fun _ _ => True :=
  proceeds_inFile fun _ => Outline.visitAll_good Scope.goes_pure (fun _ _ => Scope.Goes.bind)
    (sizedHook_goes _) f.outlines

end Allocation
end AccessDepth
