import AccessDepth.Proofs.Additions
import AccessDepth.Proofs.Allocation.Sites
import AccessDepth.Proofs.Plan.Rows
import AccessDepth.Proofs.PrunedWalk

/-!
# AccessDepth.Proofs.Allocation.Passes

What the allocation passes do to a session.

* `SourceFile.writes` — the transactions of a pass over a file: one at most for each node where its walk
  stops.
* `Analyze.Surveys` — a pass makes these transactions, one after the other. `containers_surveys`,
  `sizes_surveys` — both passes do.
* `Store.Gains` — the rows that came to a store are those of some transactions.
* `Surveys.gains` — so it is with a pass over files, on every session and whether it succeeds or fails.
* `Surveys.enters` — on a session whose caches agree with its store, a pass that succeeds has made every
  transaction, in the row of its file.
-/

namespace AccessDepth

open Plan (Write)

/-! ## Transactions of a pass -/

/-- The transactions of a pass over a file. -/
def SourceFile.writes (stop : Node → Bool) (write? : FileId → Node → Option Write) (f : SourceFile)
    (file : FileId) : List Write :=
  (f.ends stop).filterMap (write? file)

namespace Analyze

/-- A pass makes one transaction at most for each node where its walk stops. -/
def Surveys (stop : Node → Bool) (write? : FileId → Node → Option Write)
    (pass : SourceFile → Analyze Unit) : Prop :=
  ∀ f, pass f = fileId f.path >>= fun file =>
    (f.writes stop write? file).forM fun w => commit w.record

theorem commit_discard {α : Type} (t : Transaction α) :
    commit (discard t : Transaction Unit) = commit t >>= fun _ => pure () := by
  funext s
  have done : (discard t : Transaction Unit) s.store = (t s.store).map fun r => ((), r.2) := by
    simp only [discard, Functor.discard, Functor.mapConst, StateT.map, Function.comp_def,
      Function.const]
    cases t s.store <;> rfl
  simp only [commit, Bind.bind, EStateM.bind]
  by_cases ho : s.isOpen = true
  · simp only [ho, if_true, done]
    cases t s.store <;> rfl
  · simp only [ho]
    rfl

theorem forM_cons {α : Type} (g : α → Analyze Unit) (x : α) (xs : List α) :
    (x :: xs).forM g = g x >>= fun _ => xs.forM g := rfl

theorem forM_filterMap {α β : Type} (f : α → Option β) (g : β → Analyze Unit) (xs : List α) :
    (xs.filterMap f).forM g = xs.forM fun x => (f x).elim (pure ()) g := by
  induction xs with
  | nil => rfl
  | cons x xs ih =>
    cases hx : f x with
    | none =>
      rw [List.filterMap_cons_none hx, forM_cons, hx, ih]
      rfl
    | some y =>
      rw [List.filterMap_cons_some hx, forM_cons, forM_cons, hx, ih]
      rfl

theorem surveys_of_hook {stop : Node → Bool} {write? : FileId → Node → Option Write} {p : Package}
    {hook : Scope → Node → Analyze Unit → Analyze Unit}
    (prunes : ∀ w, w.package = p → Outline.Prunes stop (hook w))
    (makes : ∀ w n, w.package = p →
      hook w n (pure ()) = (write? w.file n).elim (pure ()) fun x => commit x.record) :
    Surveys stop write? fun f =>
      Scope.ofFile p f >>= fun w => Outline.visitAll (hook w) f.outlines := by
  intro f
  simp only [Scope.ofFile, bind_assoc, pure_bind]
  refine congrArg _ (funext fun file => ?_)
  rw [Outline.visitAll_eq (prunes _ rfl), SourceFile.writes, forM_filterMap]
  exact congrArg _ (funext fun n => makes _ n rfl)

end Analyze

namespace Allocation

open Analyze (Surveys commit_discard)

variable {p : Package} {w : Scope}

theorem makeHook_prunes (hw : w.package = p) : Outline.Prunes (calls p ["make"]) (makeHook w) where
  stops n below h := by
    obtain ⟨e, name, args, rfl, hn, named, builtin⟩ := calls_iff.mp h
    obtain rfl := List.mem_singleton.mp hn
    have named := isBuiltin_iff.mpr ⟨_, named, builtin⟩
    simp only [makeHook, callsBuiltin_eq hw, named, if_true]
  goes n below h := by
    cases n with
    | expr e =>
      obtain ⟨span, type, node⟩ := e
      cases node with
      | call fn args spread =>
        have other : isBuiltin p fn "make" = false := by simpa [calls] using h
        simp [makeHook, callsBuiltin_eq hw, other]
      | _ => rfl
    | stmt | func | gen => rfl

theorem sizedHook_prunes (hw : w.package = p) :
    Outline.Prunes (calls p ["make", "new"]) (sizedHook w) where
  stops n below h := by
    obtain ⟨e, name, args, rfl, hn, named, builtin⟩ := calls_iff.mp h
    have named := isBuiltin_iff.mpr ⟨_, named, builtin⟩
    obtain rfl | hn := List.mem_cons.mp hn
    · simp only [sizedHook, callsBuiltin_eq hw, named, if_true]
    · obtain rfl := List.mem_singleton.mp hn
      simp only [sizedHook, callsBuiltin_eq hw, named, if_true]
  goes n below h := by
    cases n with
    | expr e =>
      obtain ⟨span, type, node⟩ := e
      cases node with
      | call fn args spread =>
        have others : isBuiltin p fn "make" = false ∧ isBuiltin p fn "new" = false := by
          simpa [calls] using h
        simp [sizedHook, callsBuiltin_eq hw, others]
      | _ => rfl
    | stmt | func | gen => rfl

theorem makeHook_eq (hw : w.package = p) (n : Node) :
    makeHook w n (pure ()) =
      (makeWrite? p w.file n).elim (pure ()) fun x => Analyze.commit x.record := by
  cases n with
  | expr e =>
    obtain ⟨span, type, node⟩ := e
    cases node with
    | call fn args spread =>
      simp only [makeHook, makeWrite?, callsBuiltin_eq hw]
      cases isBuiltin p fn "make" with
      | false => rfl
      | true =>
        cases args.head?.bind containerOf? with
        | none => rfl
        | some container => exact (commit_discard _).symm
    | _ => rfl
  | stmt | func | gen => rfl

theorem recordAlloc_eq (w : Scope) (span : Span) (builtin : String)
    (found : Option (String × Int)) :
    recordAlloc w span builtin found =
      (allocWrite? w.file span builtin found).elim (pure ()) fun x => Analyze.commit x.record := by
  cases found with
  | none => rfl
  | some found => exact (commit_discard _).symm

theorem sizedHook_eq (hw : w.package = p) (n : Node) :
    sizedHook w n (pure ()) =
      (sizeWrite? p w.file n).elim (pure ()) fun x => Analyze.commit x.record := by
  cases n with
  | expr e =>
    obtain ⟨span, type, node⟩ := e
    cases node with
    | call fn args spread =>
      simp only [sizedHook, sizeWrite?, callsBuiltin_eq hw, hw]
      cases isBuiltin p fn "make" with
      | true => exact recordAlloc_eq ..
      | false =>
        cases isBuiltin p fn "new" with
        | true => exact recordAlloc_eq ..
        | false => rfl
    | _ => rfl
  | stmt | func | gen => rfl

/-- The pass over containers. -/
theorem containers_surveys (p : Package) :
    Surveys (calls p ["make"]) (makeWrite? p) (containers p) :=
  Analyze.surveys_of_hook (fun _ hw => makeHook_prunes hw) fun _ n hw => makeHook_eq hw n

/-- The pass over sizes. -/
theorem sizes_surveys (p : Package) :
    Surveys (calls p ["make", "new"]) (sizeWrite? p) (sizes p) :=
  Analyze.surveys_of_hook (fun _ hw => sizedHook_prunes hw) fun _ n hw => sizedHook_eq hw n

end Allocation

/-! ## Rows that come to a store -/

/-- The rows that came to a store, of those that stand at places of files, are those of some
transactions. -/
structure Store.Gains (Made : Write → Prop) (s t : Store) : Prop where
  le : s ≤ t
  rows : ∀ u ∈ Table.placed, ∀ r ∈ t.rows u,
    r ∈ s.rows u ∨ ∃ w, Made w ∧ ∃ n, (⟨u, r⟩ : AnyRow) = ⟨w.table, w.row n⟩

namespace Store.Gains

variable {Made Made' : Write → Prop} {s t t' : Store}

theorem refl (s : Store) : Gains Made s s := ⟨le_refl s, fun _ _ _ h => .inl h⟩

theorem trans (h : Gains Made s t) (h' : Gains Made t t') : Gains Made s t' where
  le := le_trans h.le h'.le
  rows u hu r hr := (h'.rows u hu r hr).elim (h.rows u hu r) .inr

theorem mono (h : Gains Made s t) (hw : ∀ w, Made w → Made' w) : Gains Made' s t where
  le := h.le
  rows u hu r hr := (h.rows u hu r hr).imp_right fun ⟨w, hm, n, he⟩ => ⟨w, hw w hm, n, he⟩

theorem of_inserts {P : Table → Prop} (h : Inserts P s t) (hP : ∀ u ∈ Table.placed, ¬ P u) :
    Gains Made s t :=
  ⟨h.le, fun u hu _ hr => .inl (h.rows_eq (hP u hu) ▸ hr)⟩

theorem of_record {w : Write} (h : w.record s = .ok ((), t)) : Gains (· = w) s t where
  le := (Write.record_inserts h).le
  rows _ hu _ hr := (w.mem_rows h hu hr).imp_right fun ⟨n, he⟩ => ⟨w, rfl, n, he⟩

end Store.Gains

namespace Analyze

open Session (Ready)

variable {stop : Node → Bool} {write? : FileId → Node → Option Write}
  {pass : SourceFile → Analyze Unit} {s : Session}

theorem steps_commitAll (ws : List Write) :
    Steps (fun _ => True) (fun _ => True) (ws.forM fun w => commit w.record) := by
  induction ws with
  | nil => exact .ret ()
  | cons w ws ih =>
    refine Steps.bind (.commit fun s x s' h => ?_) fun _ => ih
    exact (Write.record_inserts h).mono fun _ _ => trivial

/-- Transactions one after the other. -/
theorem commitAll_ends (ws : List Write) (s : Session) :
    (ws.forM fun w => commit w.record).Ends s
      (fun _ s' => s.store.Gains (· ∈ ws) s'.store ∧ ∀ w ∈ ws, w.Settled s'.store)
      fun _ s' => s.store.Gains (· ∈ ws) s'.store := by
  induction ws generalizing s with
  | nil => exact ends_pure ⟨.refl _, List.forall_mem_nil _⟩
  | cons w ws ih =>
    rw [forM_cons]
    have first : (commit w.record).Ends s
        (fun _ s' => s.store.Gains (· ∈ w :: ws) s'.store ∧ w.Settled s'.store)
        fun _ s' => s.store.Gains (· ∈ w :: ws) s'.store := by
      refine (@commit_later _ (fun _ => False) s w.record fun h =>
        (Write.record_inserts h).le).mono ?_ ?_
      · rintro x s' ⟨hc, -⟩
        exact ⟨(Store.Gains.of_record hc).mono fun _ he => he ▸ List.mem_cons_self,
          Write.settled_of_record hc⟩
      · rintro f s' rfl
        exact .refl _
    refine first.bind fun _ s₁ ⟨gained, settled⟩ => ?_
    have later {s' : Session} (h : s₁.store.Gains (· ∈ ws) s'.store) :
        s.store.Gains (· ∈ w :: ws) s'.store :=
      gained.trans (h.mono fun _ => List.mem_cons_of_mem w)
    refine (ih s₁).mono (fun _ s' h => ⟨later h.1, ?_⟩) fun _ s' h => later h
    rintro w' (_ | ⟨_, hw⟩)
    · exact Write.settled_of_le h.1.le settled
    · exact h.2 w' hw

theorem files_unplaced : ∀ u ∈ Table.placed, ¬ u.owner = .files := by decide

namespace Surveys

def Makes (stop : Node → Bool) (write? : FileId → Node → Option Write) (files : List SourceFile)
    (w : Write) : Prop :=
  ∃ f ∈ files, ∃ file, w ∈ f.writes stop write? file

/-- The rows of a pass over files are those of its transactions. -/
theorem gains (h : Surveys stop write? pass) (files : List SourceFile) (s : Session) :
    (passOver pass files).Ends s (fun _ s' => s.store.Gains (Makes stop write? files) s'.store)
      fun _ s' => s.store.Gains (Makes stop write? files) s'.store := by
  induction files generalizing s with
  | nil => exact ends_pure (.refl _)
  | cons f files ih =>
    have asked : (fileId f.path).Ends s
        (fun _ s' => s.store.Gains (Makes stop write? (f :: files)) s'.store)
        fun _ s' => s.store.Gains (Makes stop write? (f :: files)) s'.store :=
      (adds_fileId (P := (·.owner = .files)) (fun _ h => h) f.path s).mono
        (fun _ _ h => .of_inserts h files_unplaced) fun _ _ h => .of_inserts h files_unplaced
    unfold passOver
    rw [h f, bind_assoc]
    refine asked.bind fun file s₁ first => ?_
    have here {s' : Session} (h : s₁.store.Gains (· ∈ f.writes stop write? file) s'.store) :
        s.store.Gains (Makes stop write? (f :: files)) s'.store :=
      first.trans (h.mono fun _ hw => ⟨f, List.mem_cons_self, file, hw⟩)
    have made := (commitAll_ends (f.writes stop write? file) s₁).mono (fun _ _ h => here h.1)
      fun _ _ h => here h
    refine made.bind fun _ s₂ second => ?_
    have rest {s' : Session} (h : s₂.store.Gains (Makes stop write? files) s'.store) :
        s.store.Gains (Makes stop write? (f :: files)) s'.store := by
      refine second.trans (h.mono ?_)
      rintro w ⟨g, hg, file, hw⟩
      exact ⟨g, List.mem_cons_of_mem f hg, file, hw⟩
    exact (ih s₂).mono (fun _ _ h => rest h) fun _ _ h => rest h

/-- A pass over files has made its transactions: each file, with the row that stands for its path, is
one of `files`. -/
structure Entered (stop : Node → Bool) (write? : FileId → Node → Option Write)
    (files : List (SourceFile × FileId)) (s t : Store) : Prop where
  stand : ∀ z ∈ files, t.IsFile z.2 z.1.path
  settled : ∀ z ∈ files, ∀ w ∈ z.1.writes stop write? z.2, w.Settled t
  gains : s.Gains (fun w => ∃ z ∈ files, w ∈ z.1.writes stop write? z.2) t

theorem Entered.cons {f : SourceFile} {file : FileId} {files : List (SourceFile × FileId)}
    {s t t' : Store} (hf : t.IsFile file f.path)
    (hs : ∀ w ∈ f.writes stop write? file, w.Settled t)
    (hg : s.Gains (· ∈ f.writes stop write? file) t) (h : Entered stop write? files t t') :
    Entered stop write? ((f, file) :: files) s t' where
  stand := by
    rintro z (_ | ⟨_, hz⟩)
    · exact hf.of_le h.gains.le
    · exact h.stand z hz
  settled := by
    rintro z (_ | ⟨_, hz⟩) w hw
    · exact Write.settled_of_le h.gains.le (hs w hw)
    · exact h.settled z hz w hw
  gains := (hg.mono fun _ hw => ⟨_, List.mem_cons_self, hw⟩).trans
    (h.gains.mono fun _ ⟨z, hz, hw⟩ => ⟨z, List.mem_cons_of_mem _ hz, hw⟩)

/-- A pass over files that succeeds has made every transaction, in the rows of the files. -/
theorem enters (h : Surveys stop write? pass) (files : List SourceFile) (hs : s.Ready) :
    (passOver pass files).Ends s
      (fun _ s' => s'.Ready ∧ ∃ zs : List (SourceFile × FileId), zs.map Prod.fst = files ∧
        Entered stop write? zs s.store s'.store)
      fun _ _ => True := by
  induction files generalizing s with
  | nil => exact ends_pure ⟨hs, [], rfl, List.forall_mem_nil _, List.forall_mem_nil _, .refl _⟩
  | cons f files ih =>
    unfold passOver
    rw [h f, bind_assoc]
    refine ((fileId_ends hs f.path).mono (fun _ _ h => h) fun _ _ _ => trivial).bind ?_
    rintro file s₁ ⟨first, hf⟩
    have kept := (steps_commitAll (f.writes stop write? file)).stays.ends s₁ first.ready
    have made := kept.and (commitAll_ends (f.writes stop write? file) s₁)
    refine (made.mono (fun _ _ h => h) fun _ _ _ => trivial).bind ?_
    rintro _ s₂ ⟨second, gained, settled⟩
    refine (ih second.ready).mono ?_ fun _ _ h => h
    rintro _ s₃ ⟨ready, zs, rfl, entered⟩
    refine ⟨ready, (f, file) :: zs, rfl, .cons (hf.of_le gained.le) settled ?_ entered⟩
    exact (Store.Gains.of_inserts first.inserts files_unplaced).trans gained

end Surveys
end Analyze

/-! ## A small package -/

def Expr.calling (span : Span) (name : String) (args : List Expr) : Expr :=
  ⟨span, none, .call ⟨⟨span.startLine, span.startColumn, span.startLine,
    span.startColumn + UInt32.ofNat name.length⟩, none, .ident name none⟩ args false⟩

def Expr.ints (span : Span) (type : Option TypeRef) : Expr :=
  ⟨span, none, .arrayType none ⟨span, type, .ident "int" none⟩⟩

def Expr.integer (span : Span) (text : String) : Expr := ⟨span, none, .basicLit .int text⟩

/-- A file with a function around some expressions: `func f() { … }`. -/
def SourceFile.running (es : List Expr) : SourceFile where
  path := ⟨"corpus/a.go"⟩
  package := ⟨"a", ⟨1, 9, 1, 10⟩, none, none⟩
  decls := [.func ⟨⟨2, 1, 9, 2⟩, none, ⟨"f", ⟨2, 6, 2, 7⟩, none, none⟩,
    ⟨⟨2, 1, 2, 9⟩, none, ⟨none, []⟩, none⟩,
    some ⟨⟨2, 10, 9, 2⟩, es.map fun e => .expr e.span e⟩⟩]

def Package.running (sizes : List Int64) (es : List Expr) : Package where
  dir := ⟨"corpus"⟩
  name := "a"
  files := [.running es]
  types := ⟨(sizes.map fun size => ⟨"int", some size, .basic .int⟩).toArray⟩
  objects := ⟨#[]⟩
  diagnostics := []

end AccessDepth
