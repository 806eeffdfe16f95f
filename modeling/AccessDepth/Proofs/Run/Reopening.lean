import AccessDepth.Proofs.Paths
import AccessDepth.Proofs.Run.Crew
import AccessDepth.Proofs.Run.Lines
import Mathlib.Data.List.TakeWhile

/-!
# AccessDepth.Proofs.Run.Reopening

What was opened once can be opened again.

* `Disk.There` — a directory is there. `createDirs_there`, `createDirs_of_there`: after it was made it
  is, and then making it changes nothing.
* `Settings.logPath_parent?` — all logs are in one directory.
* `Ledger.Open` — a log whose directory is there and that can be read and added to.
* `Phase.opening_of_open` — a pass can start with it.
* `Disk.place_sibling` — where one entry of a directory can be looked up, so can another one.
-/

namespace AccessDepth

/-- A path of nothing but slashes is absolute. -/
theorem Path.isAbsolute_of_blank {p : Path} (ht : p.text ≠ "") (h : ∀ y ∈ p.pieces, y = "") :
    p.isAbsolute = true := by
  unfold Path.isAbsolute
  cases hc : p.text.toList with
  | nil => exact absurd (String.toList_eq_nil_iff.mp hc) ht
  | cons c cs =>
    by_cases slash : c = '/'
    · simp [slash]
    · have first : ∃ pre, '/' ∉ c :: pre ∧ String.ofList (c :: pre) ∈ p.pieces := by
        unfold Path.pieces
        rw [hc]
        by_cases hs : '/' ∈ cs
        · obtain ⟨pre, post, rfl, none⟩ := List.eq_append_cons_of_mem hs
          have other : '/' ∉ c :: pre := by simp [Ne.symm slash, none]
          refine ⟨pre, other, ?_⟩
          rw [← List.cons_append, List.splitOn_append_cons_self, List.splitOn_eq_singleton other]
          simp
        · have other : '/' ∉ c :: cs := by simp [Ne.symm slash, hs]
          refine ⟨cs, other, ?_⟩
          rw [List.splitOn_eq_singleton other]
          simp
      obtain ⟨pre, -, there⟩ := first
      have blank := congrArg String.toList (h _ there)
      simp at blank

namespace Disk

variable {d d' : Disk} {p : Path} {x : List String}

/-! ## Directories that are there -/

theorem isDirectory_iff : d.isDirectory p = true ↔ ∃ x, d.place p = .ok x ∧ d.IsDirectoryAt x := by
  unfold isDirectory entry IsDirectoryAt
  cases d.place p with
  | error e => simp [bind, Except.bind]
  | ok x =>
    cases he : d.root.at? x with
    | none => simp [bind, Except.bind, he]
    | some e => cases e <;> simp [bind, Except.bind, he, Entry.isDirectory]

theorem step_blank (h : d.IsDirectoryAt x) : d.step x "" = .ok x := by
  obtain ⟨es, he⟩ := h
  simp [step, he]

theorem foldlM_blank (h : d.IsDirectoryAt x) (k : Nat) :
    (List.replicate k "").foldlM d.step x = .ok x := by
  induction k with
  | zero => rfl
  | succ k ih =>
    rw [List.replicate_succ, List.foldlM_cons, step_blank h]
    exact ih

theorem pieces_eq (p : Path) : ∃ k,
    p.pieces = (p.pieces.reverse.dropWhile (· = "")).reverse ++ List.replicate k "" := by
  have blank : p.pieces.reverse.takeWhile (· = "") =
      List.replicate (p.pieces.reverse.takeWhile (· = "")).length "" :=
    List.eq_replicate_iff.mpr ⟨rfl, fun y hy => by simpa using List.mem_takeWhile_imp hy⟩
  refine ⟨(p.pieces.reverse.takeWhile (· = "")).length, ?_⟩
  rw [← List.reverse_replicate, ← blank, ← List.reverse_append, List.takeWhile_append_dropWhile,
    List.reverse_reverse]

theorem at?_dropLast {e : Entry} (h : d.root.at? x = some e) : d.root.at? x.dropLast ≠ none := by
  cases hx : x.getLast? with
  | none =>
    cases List.getLast?_eq_none_iff.mp hx
    simp [Entry.at?]
  | some name =>
    rw [← List.dropLast_append_getLast? name hx, Entry.at?_append] at h
    intro none
    rw [none] at h
    cases h

/-- Where nothing is, the directory above is there. -/
theorem parent_of_missing {pieces origin : List String} (hp : pieces ≠ [])
    (h : pieces.foldlM d.step origin = .ok x) (hx : d.root.at? x = none) :
    ∃ q name, x = q ++ [name] ∧ d.IsDirectoryAt q := by
  rw [← List.dropLast_concat_getLast hp] at h
  obtain ⟨q, -, hq⟩ := foldlM_append_ok h
  obtain ⟨above, -⟩ := step_ok hq
  have there := above
  obtain ⟨es, he⟩ := there
  simp only [step, he] at hq
  split at hq
  · cases hq
    rw [he] at hx
    cases hx
  · split at hq
    · cases hq
      exact absurd hx (at?_dropLast he)
    · split at hq
      · cases hq
      · cases hq
        exact ⟨q, _, rfl, above⟩

/-- A path that leads somewhere can be followed on any disk. -/
theorem follow_ok {pieces : List String} (h : d.follow p pieces = .ok x) :
    p.text ≠ "" ∧ ∀ (d₁ : Disk) (more : List String),
      d₁.follow p more = more.foldlM d₁.step (d₁.origin p) := by
  unfold follow at h
  split at h
  · cases h
  · rename_i empty
    split at h
    · cases h
    · rename_i zero
      split at h
      · cases h
      · rename_i long
        exact ⟨empty, fun d₁ more => by simp only [follow, empty, zero, long, if_false]; rfl⟩

/-- A directory that was made is there, and it was not before. -/
theorem makeDir_there (h : makeDir p d = .ok () d') :
    d'.isDirectory p = true ∧ d.isDirectory p = false := by
  have grows := (makeDir_ok h).grows
  have h := change_ok h
  obtain ⟨k, hk⟩ := pieces_eq p
  generalize (p.pieces.reverse.dropWhile (· = "")).reverse = pieces at h hk
  cases hf : d.follow p pieces with
  | error e =>
    rw [hf] at h
    cases h
  | ok x =>
    rw [hf] at h
    simp only [bind, Except.bind] at h
    split at h
    · cases h
    · rename_i missing
      cases h
      obtain ⟨text, follows⟩ := follow_ok hf
      have place (d₁ : Disk) : d₁.place p = (pieces.foldlM d₁.step (d₁.origin p)).bind
          fun y => (List.replicate k "").foldlM d₁.step y := by
        rw [Disk.place, follows, hk, List.foldlM_append]
        rfl
      rw [follows] at hf
      have some : pieces ≠ [] := by
        rintro rfl
        cases hf
        have absolute := Path.isAbsolute_of_blank text fun y hy => by
          rw [hk, List.nil_append] at hy
          exact List.eq_of_mem_replicate hy
        simp [Disk.origin, absolute, Entry.at?] at missing
      obtain ⟨q, name, rfl, es, hq⟩ := parent_of_missing some hf missing
      constructor
      · have made : (d.put (q ++ [name]) (.some (.directory []))).IsDirectoryAt (q ++ [name]) :=
          ⟨[], Entry.at?_set_self d.root _ hq⟩
        refine isDirectory_iff.mpr ⟨q ++ [name], ?_, made⟩
        have there := foldlM_step_ok (fun _ => grows.isDirectoryAt) hf
        rw [place, show (d.put _ _).origin p = d.origin p from rfl, there]
        exact foldlM_blank made k
      · refine Bool.eq_false_iff.mpr fun was => ?_
        obtain ⟨y, hy, es', he⟩ := isDirectory_iff.mp was
        rw [place, hf] at hy
        cases k with
        | zero =>
          cases hy
          rw [missing] at he
          cases he
        | succ k =>
          simp only [Except.bind, List.replicate_succ, List.foldlM_cons, step, missing] at hy
          cases hy

/-- A directory is there. The empty path stands for one that always is. -/
def There (d : Disk) (p : Path) : Prop := p.text = "" ∨ d.isDirectory p = true

theorem There.of_dirs (h : d.There p) (hs : d'.start = d.start)
    (hd : ∀ y, d.IsDirectoryAt y → d'.IsDirectoryAt y) : d'.There p := by
  refine h.imp_right fun h => ?_
  obtain ⟨x, hx, dir⟩ := isDirectory_iff.mp h
  exact isDirectory_iff.mpr ⟨x, place_of_dirs hs hd hx, hd x dir⟩

theorem ensureDir_there (h : ensureDir p d = .ok () d') : d'.isDirectory p = true := by
  unfold ensureDir at h
  cases hm : makeDir p d with
  | ok u d₁ =>
    rw [hm] at h
    cases h
    exact (makeDir_there hm).1
  | error e d₁ =>
    rw [hm] at h
    simp only at h
    split at h
    · cases h
      assumption
    · cases h

/-- After a directory was made it is there. -/
theorem createDirs_there (h : createDirs p d = .ok () d') : d'.There p := by
  unfold createDirs at h
  split at h
  · exact .inl ‹_›
  · refine .inr ?_
    split at h
    · split at h
      · exact ensureDir_there h
      · cases h
    · rename_i result _
      exact ensureDir_there h

/-- A directory that is there need not be made. -/
theorem createDirs_of_there (h : d.There p) : createDirs p d = .ok () d := by
  unfold createDirs
  split
  · rfl
  · rename_i ht
    have there := h.resolve_left ht
    have ensured : ensureDir p d = .ok () d := by
      unfold ensureDir
      cases hm : makeDir p d with
      | ok u d₁ =>
        rw [(makeDir_there hm).2] at there
        cases there
      | error e d₁ =>
        obtain rfl := change_error hm
        simp only [there, if_true]
    rw [ensured]

def Above (d : Disk) (p : Path) : Prop := ∀ parent ∈ p.parent?, d.There parent

theorem Above.of_dirs (h : d.Above p) (hs : d'.start = d.start)
    (hd : ∀ y, d.IsDirectoryAt y → d'.IsDirectoryAt y) : d'.Above p :=
  fun parent hp => (h parent hp).of_dirs hs hd

theorem createParents_above (h : createParents p d = .ok () d') : d'.Above p := by
  intro parent hp
  unfold createParents at h
  rw [Option.mem_def.mp hp] at h
  exact createDirs_there h

theorem createParents_of_above (h : d.Above p) : createParents p d = .ok () d := by
  unfold createParents
  cases hp : p.parent? with
  | none => rfl
  | some parent => exact createDirs_of_there (h parent hp)

/-- Where one entry of a directory can be looked up, so can another one whose name and path are not
too long. -/
theorem place_sibling {dir : Path} {name other : String} {y : List String}
    (hn : '/' ∉ name.toList) (ho : Path.IsName other) (short : other.utf8ByteSize ≤ nameLimit)
    (h : d.place (dir.child name) = .ok x) (h' : d'.place (dir.child other) = .ok y) :
    ∃ q, d.place (dir.child other) = .ok (q ++ [other]) := by
  obtain ⟨pieces, hp⟩ := dir.pieces_child
  obtain ⟨slash, empty, here, up⟩ := ho
  have origin : d.origin (dir.child other) = d.origin (dir.child name) := by
    simp only [Disk.origin, dir.isAbsolute_child hn, dir.isAbsolute_child slash]
  have fold : (pieces ++ [name]).foldlM d.step (d.origin (dir.child name)) = .ok x := by
    rw [← hp hn, ← (follow_ok h).2 d]
    exact h
  obtain ⟨q, above, last⟩ := foldlM_append_ok fold
  obtain ⟨es, he⟩ := (step_ok last).1
  refine ⟨q, ?_⟩
  rw [Disk.place, (follow_ok h').2 d, hp slash, List.foldlM_append, origin, above]
  simp [bind, Except.bind, pure, Except.pure, step, he, empty, here, up, not_lt.mpr short]

/-! ## Files that can be added to -/

theorem write_succeeds {old : Option ByteArray} (h : d.LeadsTo p old) (bytes : ByteArray) :
    ∃ d', write p bytes d = .ok () d' := by
  obtain ⟨x, hx, he⟩ := h
  cases old <;> simp [write, putFile, Change.of, hx, he, bind, Except.bind]

theorem append_succeeds {old : Option ByteArray} (h : d.LeadsTo p old) (bytes : ByteArray) :
    ∃ d', append p bytes d = .ok () d' := by
  unfold append
  cases old with
  | some b =>
    rw [h.read]
    exact write_succeeds h _
  | none =>
    have missing : d.read p = .error .notFound := by
      obtain ⟨x, hx, he⟩ := h
      simp [Disk.read, entry, hx, he, bind, Except.bind]
    rw [missing]
    exact write_succeeds h _

end Disk

/-! ## Logs -/

/-- All logs are in one directory. -/
theorem Settings.logPath_parent? (c : Settings) (m m' : Mode) :
    (c.logPath m).parent? = (c.logPath m').parent? :=
  (Path.parent?_child _ m.isName_logName).trans (Path.parent?_child _ m'.isName_logName).symm

namespace Ledger

variable {c : Settings} {m m' : Mode} {d d' : Disk} {dirs : List Path}

/-- A log that can be read and added to: its directory is there, and the log itself is a file or
missing. -/
structure Open (c : Settings) (m : Mode) (d : Disk) : Prop where
  above : d.Above (c.logPath m)
  leads : ∃ old, d.LeadsTo (c.logPath m) old

theorem Open.append (h : Open c m d) {bytes : ByteArray}
    (ha : Disk.append (c.logPath m') bytes d = .ok () d') : Open c m d' := by
  obtain ⟨old, hold, hnew, dirs, x, -, keeps⟩ := Disk.append_ok (c.logPath_endsIn m') ha
  refine ⟨h.above.of_dirs keeps.start dirs, ?_⟩
  by_cases hm : m = m'
  · subst hm
    exact ⟨_, hnew⟩
  · obtain ⟨own, hown⟩ := h.leads
    have other : m'.logName ≠ m.logName := by
      cases m <;> cases m' <;> first | exact absurd rfl hm | decide
    exact ⟨own, Disk.append_other (c.logPath_endsIn m') (c.logPath_endsIn m) other ha hown⟩

theorem Open.prepare_eq (h : Open c m d) :
    prepare (c.logPath m) d = Disk.append (c.logPath m) .empty d := by
  unfold prepare
  rw [bind_of_ok (Disk.createParents_of_above h.above)]

theorem Open.prepare (h : Open c m d) (hp : prepare (c.logPath m') d = .ok () d')
    (h' : Open c m' d) : Open c m d' := by
  rw [h'.prepare_eq] at hp
  exact h.append hp

/-- An open log can be read. -/
theorem Open.read (h : Open c m d) (hl : Holds c m d dirs) :
    Ledger.read d (c.logPath m) = .ok (paths (text dirs)) := by
  obtain hl | ⟨rfl, untouched⟩ := hl
  · exact read_of_leadsTo hl
  · obtain ⟨old, hold⟩ := h.leads
    have empty := untouched d (Disk.Grows.refl d).keepsNames old hold
    cases old with
    | none =>
      obtain ⟨x, hx, he⟩ := hold
      have missing : d.readText (c.logPath m) = .error .notFound := by
        simp [Disk.readText, Disk.read, Disk.entry, hx, he, bind, Except.bind]
      unfold Ledger.read
      rw [missing]
      rfl
    | some bytes =>
      obtain rfl : bytes = .empty := empty
      exact read_of_leadsTo hold

end Ledger

/-- A pass can start with an open log. -/
theorem Phase.opening_of_open {job : Job} {mode : Mode} {candidates lines : List Path}
    {w : Workspace} (h : Ledger.Open job.settings mode w.disk)
    (hl : Ledger.Holds job.settings mode w.disk lines) :
    ∃ disk, Ledger.prepare (job.settings.logPath mode) w.disk = .ok () disk ∧
      Phase.opening job mode candidates w =
        .ok (candidates.partition fun dir => (Ledger.paths (Ledger.text lines)).any dir.same)
          { w with disk := disk } := by
  obtain ⟨old, hold⟩ := h.leads
  obtain ⟨disk, ha⟩ := Disk.append_succeeds hold .empty
  rw [← h.prepare_eq] at ha
  refine ⟨disk, ha, ?_⟩
  have held : Run.inspect (fun d => (Ledger.read d (job.settings.logPath mode)).mapError .file) w =
      .ok (Ledger.paths (Ledger.text lines)) w := by
    simp only [Run.inspect, h.read hl]
    rfl
  have prepared : Run.onDisk (Ledger.prepare (job.settings.logPath mode)) w =
      .ok () { w with disk := disk } := by
    simp only [Run.onDisk, ha]
  unfold Phase.opening
  rw [bind_of_ok held, bind_of_ok prepared]
  rfl

end AccessDepth
