import AccessDepth.Proofs.Restart

/-!
# AccessDepth.Proofs.Interleaving

Runs over one corpus, in two orders or with their work shared.

* `Store.Sound.exprAt?_of_nameOf`, `variableOf?_of_nameOf` — a row is found under its name.
* `Corpus.MembersResolve.of_content` — which variables the package members have is told by what the
  accesses say.
* `Job.Leaves` — what a run in all modes can leave: one that takes the directories one after the other,
  in some order, or one whose workers do something in whatever order.
* `Run.alike_inAnyOrder` — it is always the same.
-/

namespace AccessDepth

/-! ## Rows that are found under their names -/

namespace Store.Sound

variable {s : Store} (hs : s.Sound)
include hs

theorem fileNamed?_of_pathOf {file : FileId} {path : String} (h : s.pathOf file = some path) :
    s.fileNamed? path = some file := by
  obtain ⟨r, hr, rfl⟩ := Option.map_eq_some_iff.mp h
  obtain ⟨hm, hn⟩ := (hs.byNumber_eq_some rfl).mp hr
  obtain rfl : r.id = file := congrArg RowId.mk hn
  exact hs.fileNamed?_iff.mpr hm

theorem exprAt?_of_nameOf {id : ExprId} {path : String} {span : Span}
    (h : s.nameOf .expressions id.value = some (.span path span)) :
    ∃ file, s.fileNamed? path = some file ∧ s.exprAt? file span = some id := by
  obtain ⟨r, hr, named⟩ := Option.bind_eq_some_iff.mp h
  obtain ⟨hm, hn⟩ := (hs.byNumber_eq_some (u := .expressions) rfl).mp hr
  obtain ⟨_, hp, same⟩ := Option.map_eq_some_iff.mp named
  cases same
  obtain rfl : r.id = id := congrArg RowId.mk hn
  exact ⟨r.file, hs.fileNamed?_of_pathOf hp, hs.exprAt?_eq hm⟩

theorem variableOf?_of_nameOf {id : VariableId} {site : SourceSite}
    (h : s.nameOf .variables id.value = some (.place site.file.text site.position)) :
    s.variableOf? site = some id := by
  obtain ⟨r, hr, named⟩ := Option.bind_eq_some_iff.mp h
  obtain ⟨hm, hn⟩ := (hs.byNumber_eq_some (u := .variables) rfl).mp hr
  obtain ⟨path, hp, same⟩ := Option.map_eq_some_iff.mp named
  injection same with text position
  subst text
  obtain rfl : r.id = id := congrArg RowId.mk hn
  rw [variableOf?, hs.fileNamed?_of_pathOf hp, Option.bind_some, ← position]
  exact hs.variableAt?_eq hm

theorem accessesOf_of_mem {r : AccessRow} (hr : r ∈ s.accesses) : s.accessesOf r.expr = [r] := by
  have one : ∀ x ∈ s.accessesOf r.expr, x = r := fun x hx => by
    obtain ⟨hx, same⟩ := List.mem_filter.mp hx
    exact hs.eq_of_key (u := .accesses) hx hr (by simpa [Row.key, Cell.ofId_inj] using same)
  have there : r ∈ s.accessesOf r.expr := List.mem_filter.mpr ⟨hr, by simp⟩
  have nodup : (s.accessesOf r.expr).Nodup :=
    (List.Nodup.of_map _ (hs.keys .accesses)).filter _
  exact List.perm_singleton.mp ((List.perm_ext_iff_of_nodup nodup (List.nodup_singleton r)).mpr
    fun x => ⟨fun hx => by simp [one x hx], fun hx => by simpa [List.mem_singleton.mp hx] using there⟩)

end Store.Sound

namespace Store

theorem describe_access (s : Store) (r : AccessRow) : s.describe .accesses r =
    [.name (s.nameOf .expressions r.expr.value), .cell (.ofTerm r.kind),
      Value.ofCalled (s.called r.inner), .cell (.ofOption .text r.baseName),
      Value.ofCalled (s.called r.baseVariable), .cell (.int r.depth),
      .cell (.int r.uncertainty)] := by
  have whole : Table.isNumbered .accesses = false := by decide
  simp [describe, Table.columns, Row.cells, whole]

theorem eq_none_of_ofCalled {s : Store} {u : Table} {id : Option (RowId u)}
    (h : Value.ofCalled (s.called id) = .cell .null) : id = none := by
  cases id with
  | none => rfl
  | some id => cases h

theorem eq_some_of_ofCalled {s : Store} {u : Table} {id : Option (RowId u)} {n : Option RowName}
    (h : Value.ofCalled (s.called id) = .name n) : ∃ x, id = some x ∧ s.nameOf u x.value = n := by
  cases id with
  | none => cases h
  | some id => exact ⟨id, rfl, Value.name.inj h⟩

end Store

theorem AccessKind.eq_ident {kind : AccessKind}
    (h : Cell.ofTerm kind = Cell.ofTerm AccessKind.ident) : kind = .ident := by
  revert h
  cases kind <;> simp [Cell.ofTerm, Vocabulary.text]

/-- Which variables the package members have is told by what the accesses say. -/
theorem Corpus.MembersResolve.of_content {c : Corpus} {s t : Store} (h : c.MembersResolve s)
    (hs : s.Sound) (ht : t.Sound) (hst : s.content .accesses ⊆ t.content .accesses) :
    c.MembersResolve t := by
  intro d hd path span p a e hk x sel o site he hx ho hkind hsite declares
  obtain ⟨file, id, v, hf, hid, hv, only⟩ :=
    h d hd path span p a e hk x sel o site he hx ho hkind hsite declares
  have there : (⟨id, .ident, none, some sel.name, some v, 1, 0⟩ : AccessRow) ∈ s.accesses := by
    have held : _ ∈ s.accessesOf id := only ▸ List.mem_singleton_self _
    exact (List.mem_filter.mp held).1
  obtain ⟨r, hr, said⟩ := List.mem_map.mp (hst (List.mem_map_of_mem there))
  rw [Store.describe_access, Store.describe_access] at said
  simp only [List.cons.injEq, Value.name.injEq, Value.cell.injEq, Cell.int.injEq] at said
  obtain ⟨expr, kind, inner, name, base, depth, uncertainty, -⟩ := said
  obtain ⟨id', kind', inner', name', base', depth', uncertainty'⟩ := r
  obtain rfl : depth' = 1 := depth
  obtain rfl : uncertainty' = 0 := uncertainty
  obtain rfl : inner' = none := Store.eq_none_of_ofCalled inner
  obtain rfl : name' = some sel.name := by
    cases name' with
    | none => cases name
    | some text => exact congrArg some (Cell.text.inj name)
  obtain rfl : kind' = .ident := AccessKind.eq_ident kind
  obtain ⟨v', rfl, named⟩ := Store.eq_some_of_ofCalled base
  rw [Store.nameOf_exprAt? hs hf hid] at expr
  obtain ⟨file', hf', hid'⟩ := ht.exprAt?_of_nameOf expr
  obtain ⟨_, hfile, hat⟩ := Option.bind_eq_some_iff.mp hv
  have same := named.trans (Store.nameOf_variableAt? hs hfile hat)
  exact ⟨file', id', v', hf', hid', ht.variableOf?_of_nameOf same, ht.accessesOf_of_mem hr⟩

/-! ## Runs -/

namespace Crew

variable {job : Job} {mode : Mode} {w : Workspace}

theorem begin_session (phases : List Mode) (candidates : List Path) (total : RunReport)
    (w : Workspace) : (begin job phases candidates total w).workspace.session = w.session := by
  cases phases with
  | nil => rfl
  | cons mode later =>
    rw [begin_cons]
    cases ho : Phase.opening job mode candidates w with
    | error f w' => obtain rfl | rfl := Phase.refused_of_opening ho <;> rfl
    | ok split w' =>
      obtain ⟨done, disk, -, -, rfl, -⟩ := Phase.split_of_opening ho
      rfl

theorem start_session : (start job mode w).workspace.session = w.session := by
  unfold start
  split
  · rfl
  · exact begin_session ..

/-- A run whose work was shared leaves what a run leaves that takes one directory after the other. -/
theorem alone_of_shared {d : Disk} (ready : job.Restartable mode d) {typeCapacity fileCapacity : Nat}
    (hs : ∀ mode dirs, (job.schedule mode dirs).Perm dirs) {es : List Event} {report : RunReport}
    (h : ((first job mode d typeCapacity fileCapacity).acts job es).result = some (.ok report)) :
    ∃ report' w, Run.execute job mode
        ⟨d, .start .initial job.settings.corpusRoot typeCapacity fileCapacity⟩ = .ok report' w ∧
      ((first job mode d typeCapacity fileCapacity).acts job es).workspace.Like job.settings mode
        w := by
  obtain ⟨stopped, ended⟩ := result_ok h
  have going := not_stopped stopped
  obtain ⟨-, course⟩ := course_first ready going
  obtain ⟨lines, once⟩ := course.acts es
  obtain ⟨π, hr, whole⟩ := once.whole_of_over ended
  have unlimited : (first job mode d typeCapacity fileCapacity).workspace.session.writesLeft = none :=
    congrArg Session.writesLeft start_session
  exact (once.repeats hs ended course (paced_start job mode _) fun es calm =>
    (course.goes ⟨π, _, hr, whole⟩ going unlimited calm).1).alone

end Crew

namespace Job

variable {job : Job} {d : Disk} {typeCapacity fileCapacity : Nat} {w w' : Workspace}

/-- What a run in all modes can leave: one that takes the directories one after the other, in some
order, or one whose work is shared. -/
inductive Leaves (job : Job) (d : Disk) (typeCapacity fileCapacity : Nat) : Workspace → Prop
  | alone {σ : Schedule} {report : RunReport} {w : Workspace} :
      (∀ mode dirs, (σ mode dirs).Perm dirs) →
      Run.execute { job with schedule := σ } .all
        ⟨d, .start .initial job.settings.corpusRoot typeCapacity fileCapacity⟩ = .ok report w →
      Leaves job d typeCapacity fileCapacity w
  | shared {es : List Crew.Event} {report : RunReport} :
      ((Crew.first job .all d typeCapacity fileCapacity).acts job es).result =
        some (.ok report) →
      Leaves job d typeCapacity fileCapacity
        ((Crew.first job .all d typeCapacity fileCapacity).acts job es).workspace

theorem Leaves.isShared (h : job.Leaves d typeCapacity fileCapacity w) :
    ∃ es report, ((Crew.first job .all d typeCapacity fileCapacity).acts job es).result =
        some (.ok report) ∧
      ((Crew.first job .all d typeCapacity fileCapacity).acts job es).workspace = w := by
  cases h with
  | shared h => exact ⟨_, _, h, rfl⟩
  | @alone σ report w hσ h =>
    obtain ⟨es, run⟩ := @Run.execute_shared { job with schedule := σ } hσ .all
      ⟨d, .start .initial job.settings.corpusRoot typeCapacity fileCapacity⟩
    rw [h] at run
    exact ⟨es, report, run⟩

theorem Leaves.course (ready : job.Restartable .all d) (h : job.Leaves d typeCapacity fileCapacity w) :
    ∃ lines c, Crew.Course ready lines c ∧ c.phases = [] ∧ c.workspace = w := by
  obtain ⟨es, report, result, rfl⟩ := h.isShared
  obtain ⟨stopped, ended⟩ := Crew.result_ok result
  obtain ⟨-, course⟩ := Crew.course_first ready (Crew.not_stopped stopped)
  obtain ⟨lines, once⟩ := course.acts es
  exact ⟨lines, _, once, ended, rfl⟩

theorem Leaves.like (ready : job.Restartable .all d) (h : job.Leaves d typeCapacity fileCapacity w)
    (h' : job.Leaves d typeCapacity fileCapacity w') : w.Like job.settings .all w' := by
  obtain ⟨_, _, once, ended, rfl⟩ := h.course ready
  obtain ⟨_, _, once', ended', rfl⟩ := h'.course ready
  exact once.like once' ended ended'

theorem Leaves.sound (ready : job.Restartable .all d)
    (h : job.Leaves d typeCapacity fileCapacity w) : w.session.store.Sound := by
  obtain ⟨_, _, once, ended, rfl⟩ := h.course ready
  obtain ⟨_, hr, -⟩ := once.whole_of_over ended
  exact hr.sound

theorem Leaves.resolves (fit : job.Ready d) (ready : job.Restartable .all d)
    (hw : job.settings.hasWorkers = true) (h : job.Leaves d typeCapacity fileCapacity w) :
    (job.corpus d).MembersResolve w.session.store := by
  obtain ⟨es, report, result, rfl⟩ := h.isShared
  have same : ∀ (_ : Mode) (dirs : List Path), dirs.Perm dirs := fun _ dirs => .refl dirs
  have ready' : { job with schedule := .asFound }.Restartable .all d :=
    ⟨ready.proper, ready.agrees, ready.steady, ready.lines, ready.blank⟩
  obtain ⟨_, w', executed, like⟩ := Crew.alone_of_shared ready' same result
  have resolves := (Run.execute_inAnyOrder same same fit executed executed).2.2 hw
  exact resolves.1.of_content ((Leaves.alone same executed).sound ready) (h.sound ready)
    (like.content .accesses).symm.subset

end Job

/-- Two workspaces are alike, and in both every package member has the variable that it names as its
base, if any directory declares it. -/
structure Workspace.Alike (job : Job) (d : Disk) (w w' : Workspace) : Prop
    extends w.Like job.settings .all w' where
  resolve : job.settings.hasWorkers = true → (job.corpus d).MembersResolve w.session.store ∧
    (job.corpus d).MembersResolve w'.session.store

/-- Two runs in all modes over one corpus leave stores with the same content and logs of the same
directories, and every package member resolves. So it is of runs that take one directory after the
other, in whatever orders. If the names in each directory are distinct and each path fits in a line of
a log, it is also so of runs whose work is shared, whatever the workers do first. -/
theorem Run.alike_inAnyOrder {job : Job} {d : Disk} (fit : job.Ready d)
    (typeCapacity fileCapacity : Nat) :
    (∀ σ σ' : Schedule, (∀ mode dirs, (σ mode dirs).Perm dirs) →
      (∀ mode dirs, (σ' mode dirs).Perm dirs) → ∀ r r' w w',
      execute { job with schedule := σ } .all
        ⟨d, .start .initial job.settings.corpusRoot typeCapacity fileCapacity⟩ = .ok r w →
      execute { job with schedule := σ' } .all
        ⟨d, .start .initial job.settings.corpusRoot typeCapacity fileCapacity⟩ = .ok r' w' →
      w.Alike job d w') ∧
    (job.Restartable .all d → ∀ w w', job.Leaves d typeCapacity fileCapacity w →
      job.Leaves d typeCapacity fileCapacity w' → w.Alike job d w') := by
  refine ⟨fun σ σ' hσ hσ' r r' w w' h h' => ?_, fun ready w w' h h' => ?_⟩
  · obtain ⟨content, logs, resolve⟩ := execute_inAnyOrder hσ hσ' fit h h'
    exact ⟨⟨content, logs⟩, resolve⟩
  · exact ⟨h.like ready h', fun hw => ⟨h.resolves fit ready hw, h'.resolves fit ready hw⟩⟩

/-! ## Two workers -/

namespace Crew

/-- Both directories of the small corpus are loaded before one of them is analyzed, and the second one
is through first. -/
def sampleDefs : List Event :=
  [.load 0, .load 0, .analyze 1 none, .finish 1, .analyze 0 none, .finish 0, .settle, .settle]

/-- The same in the next pass, where the second directory is loaded first. -/
def sampleDepths : List Event :=
  [.load 1, .load 0, .analyze 1 none, .analyze 0 none, .finish 0, .finish 0, .settle, .settle, .next]

theorem sample_over : ∃ report, ((first .sample .all .sample 4 4).acts .sample
    (sampleDefs ++ .next :: sampleDepths)).result = some (.ok report) := by
  rw [first_sample, acts_append, acts_cons]
  generalize hc : (begin Job.sample [.defs, .depth] [⟨"corpus/a"⟩, ⟨"corpus/b"⟩] ⟨2, 0, 0, 0, []⟩
    .sample).acts .sample sampleDefs = c
  have idle : (c.isIdle && decide (c.phases = [.defs, .depth]) &&
      decide (c.report.finished = [⟨"corpus/b"⟩, ⟨"corpus/a"⟩])) = true := by
    subst hc
    decide +kernel
  have through :
      (let c' := (begin Job.sample [.depth] [⟨"corpus/a"⟩, ⟨"corpus/b"⟩]
        (c.total.after { c.report with finished := [⟨"corpus/a"⟩, ⟨"corpus/b"⟩] })
        c.workspace).acts .sample sampleDepths
      c'.stopped.isNone && c'.phases.isEmpty) = true := by
    subst hc
    decide +kernel
  simp only [Bool.and_eq_true, decide_eq_true_eq] at idle through
  obtain ⟨⟨quiet, phases⟩, finished⟩ := idle
  have after : Path.notAfter ⟨"corpus/b"⟩ ⟨"corpus/a"⟩ = false := by decide +kernel
  have sorted : c.report.finished.mergeSort Path.notAfter = [⟨"corpus/a"⟩, ⟨"corpus/b"⟩] := by
    rw [finished]
    simp [List.mergeSort, List.MergeSort.Internal.splitInTwo, after]
  have next : c.act .sample .next = begin Job.sample [.depth] [⟨"corpus/a"⟩, ⟨"corpus/b"⟩]
      (c.total.after { c.report with finished := [⟨"corpus/a"⟩, ⟨"corpus/b"⟩] }) c.workspace := by
    simp only [act, phases, Crew.next, quiet, if_true, sorted]
  rw [next]
  obtain ⟨going, last⟩ := through
  exact ⟨_, result_of_over (by simpa using going) (by simpa using last)⟩

end Crew

/-- The small corpus, the directories taken backwards by one worker and at the same time by two. -/
theorem Run.alike_sample_inAnyOrder : ∃ r w report,
    execute { Job.sample with schedule := .backwards } .all
      ⟨.sample, .start .initial ⟨"corpus"⟩ 4 4⟩ = .ok r w ∧
    ((Crew.first .sample .all .sample 4 4).acts .sample
      (Crew.sampleDefs ++ .next :: Crew.sampleDepths)).result = some (.ok report) ∧
    w.Alike .sample .sample ((Crew.first .sample .all .sample 4 4).acts .sample
      (Crew.sampleDefs ++ .next :: Crew.sampleDepths)).workspace := by
  have after : Path.notAfter ⟨"corpus/b"⟩ ⟨"corpus/a"⟩ = false := by decide +kernel
  obtain ⟨r, w, h⟩ := execute_sample_ok .backwards (fun _ => rfl)
    (by simp [List.mergeSort, List.MergeSort.Internal.splitInTwo, after]) (by decide +kernel)
  obtain ⟨report, shared⟩ := Crew.sample_over
  have fit : Job.sample.Ready .sample := ⟨Job.sample_agrees, fun _ _ _ _ => rfl, Job.sample_blank⟩
  have backwards : ∀ (_ : Mode) (dirs : List Path), dirs.reverse.Perm dirs :=
    fun _ dirs => dirs.reverse_perm
  exact ⟨r, w, report, h, shared, (alike_inAnyOrder fit 4 4).2 Job.sample_restartable _ _
    (.alone backwards h) (.shared shared)⟩

end AccessDepth
