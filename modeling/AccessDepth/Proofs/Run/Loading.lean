import AccessDepth.Proofs.Ledger
import AccessDepth.Run

/-!
# AccessDepth.Proofs.Run.Loading

What loads while logs are written.

* `Ledger.Logged` — disks that come from a disk by what is done to logs.
* `Job.Steady` — what loads does not change while logs are written.
* `Loader.exports_steady` — so it is for packages that are exported to files, if no log has the name
  of these files.
-/

namespace AccessDepth

/-- Disks that come from a disk by what is done to some logs. -/
inductive Ledger.Logged (logs : List Path) (d : Disk) : Disk → Prop
  | refl : Logged logs d d
  | prepare {log : Path} {d' d'' : Disk} : Logged logs d d' → log ∈ logs →
      Ledger.prepare log d' = .ok () d'' → Logged logs d d''
  | append {log dir : Path} {d' d'' : Disk} : Logged logs d d' → log ∈ logs →
      Ledger.append log dir d' = .ok () d'' → Logged logs d d''

namespace Job

def found (job : Job) (d : Disk) : List Path :=
  (Discovery.discover d job.settings.corpusRoot).toOption.getD []

/-- What the directories load does not change while the logs are written. -/
def Steady (job : Job) (d : Disk) : Prop :=
  ∀ d', Ledger.Logged (job.settings.logPaths .all) d d' → ∀ dir ∈ job.found d,
    (job.loader d' dir .resolved).toOption = (job.loader d dir .resolved).toOption

end Job

/-! ## Exports -/

/-- Under every name but those of logs, an entry is there as before. -/
structure Disk.KeepsNames (logNames : List String) (d d' : Disk) : Prop where
  start : d'.start = d.start
  dirs : ∀ y, d.IsDirectoryAt y → d'.IsDirectoryAt y
  kept : ∀ q name, name ∉ logNames →
    Entry.Kept (d.root.at? (q ++ [name])) (d'.root.at? (q ++ [name]))

namespace Disk

variable {d d' d'' : Disk} {p : Path} {names : List String}

theorem KeepsNames.trans (h : KeepsNames names d d') (h' : KeepsNames names d' d'') :
    KeepsNames names d d'' where
  start := h'.start.trans h.start
  dirs y hy := h'.dirs y (h.dirs y hy)
  kept q name hn := (h.kept q name hn).trans (h'.kept q name hn)

theorem Grows.keepsNames (h : Grows d d') : KeepsNames names d d' :=
  ⟨h.start, fun _ => h.isDirectoryAt, fun _ _ _ => h.kept _⟩

theorem append_keepsNames {name : String} (hn : p.EndsIn name) (hm : name ∈ names)
    {bytes : ByteArray} (h : append p bytes d = .ok () d') : KeepsNames names d d' := by
  obtain ⟨-, -, -, dirs, x, hx, keeps⟩ := append_ok hn h
  refine ⟨keeps.start, dirs, fun q other ho => .inl (keeps.still _ ?_)⟩
  obtain ⟨q', -, rfl⟩ := place_of_endsIn hn hx
  intro he
  exact ho (List.singleton_inj.mp (List.append_inj_right' he rfl) ▸ hm)

/-- The text of the file at a place. -/
theorem readText_at {place : List String} (hx : d.place p = .ok place) :
    (d.readText p).toOption =
      match d.root.at? place with
      | some (.file bytes) => String.fromUTF8? bytes
      | _ => none := by
  unfold Disk.readText Disk.read Disk.entry
  rw [hx]
  simp only [bind, Except.bind]
  cases d.root.at? place with
  | none => rfl
  | some e =>
    cases e with
    | directory | store => rfl
    | file bytes =>
      simp only
      cases String.fromUTF8? bytes <;> rfl

theorem KeepsNames.readText (h : KeepsNames names d d') {name : String} (hn : p.EndsIn name)
    (hm : name ∉ names) {x : List String} (hx : d.place p = .ok x) :
    (d'.readText p).toOption = (d.readText p).toOption := by
  have hx' := place_of_dirs h.start h.dirs hx
  obtain ⟨q, -, rfl⟩ := place_of_endsIn hn hx
  rw [readText_at hx, readText_at hx']
  obtain (he | ⟨_, _, he, he'⟩) | ⟨he, _, he'⟩ := h.kept q name hm
  · rw [he]
  · rw [he, he']
  · rw [he, he']

end Disk

theorem Ledger.Logged.keepsNames {c : Settings} {mode : Mode} {d d' : Disk}
    (h : Logged (c.logPaths mode) d d') :
    Disk.KeepsNames (mode.phases.map Mode.logName) d d' := by
  have name {log : Path} (hl : log ∈ c.logPaths mode) :
      ∃ name ∈ mode.phases.map Mode.logName, log.EndsIn name := by
    obtain ⟨m, hm, rfl⟩ := List.mem_map.mp hl
    exact ⟨_, List.mem_map_of_mem hm, c.logPath_endsIn m⟩
  induction h with
  | refl => exact (Disk.Grows.refl d).keepsNames
  | prepare _ hl hp ih =>
    obtain ⟨n, hm, hn⟩ := name hl
    obtain ⟨d₁, hc, ha⟩ := Ledger.prepare_ok hp
    exact ih.trans ((Disk.createParents_ok hc).keepsNames.trans (Disk.append_keepsNames hn hm ha))
  | append _ hl ha ih =>
    obtain ⟨n, hm, hn⟩ := name hl
    exact ih.trans (Disk.append_keepsNames hn hm ha)

/-- Packages that are exported to files do not change while the logs are written, if no log has the
name of these files. -/
theorem Loader.exports_steady {job : Job} {d : Disk} {fileName : String}
    (hj : job.loader = Loader.exports fileName) (hs : '/' ∉ fileName.toList) (empty : fileName ≠ "")
    (here : fileName ≠ ".") (up : fileName ≠ "..")
    (hn : fileName ∉ Mode.all.phases.map Mode.logName)
    (hp : ∀ dir ∈ job.found d, ∃ x, d.place (dir.child fileName) = .ok x) : job.Steady d := by
  intro d' hl dir hd
  obtain ⟨x, hx⟩ := hp dir hd
  have text (d : Disk) : (job.loader d dir .resolved).toOption =
      (d.readText (dir.child fileName)).toOption.bind fun text =>
        (Loader.ofText (dir.child fileName) .resolved text).toOption := by
    rw [hj]
    unfold Loader.exports
    simp only
    cases hr : d.readText (dir.child fileName) with
    | ok text =>
      simp only [Except.toOption, Option.bind_some]
      cases Loader.ofText (dir.child fileName) .resolved text <;> rfl
    | error e => cases e <;> rfl
  rw [text, text,
    hl.keepsNames.readText (dir.child_endsIn ⟨hs, empty, here, up⟩) hn hx]

end AccessDepth
