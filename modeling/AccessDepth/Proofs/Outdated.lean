import AccessDepth.Proofs.Caches
import AccessDepth.Proofs.Truncation

/-!
# AccessDepth.Proofs.Outdated

What a session tells after its store was truncated. The caches stay as they were.

* `Session.truncated` — a session whose store was truncated.
* `Session.truncated_type`, `truncated_file` — a name or path that was cached is told a row that is
  gone.
* `Event`, `Aged` — queries and truncations one after the other, with what was cached at the last
  truncation.
* `Aged.Fresh` — whatever else is cached is stored. Every event keeps this.
* `Aged.numbers_valid` — so the rows that are told are there, unless they were cached at the last
  truncation.
* `Aged.numbers_outdated` — and those may be rows of another type or file.
-/

namespace AccessDepth

open Session (Later)

/-! ## Truncations -/

namespace Session

variable {s : Session}

/-- The session whose store was truncated. -/
def truncated (s : Session) : Session :=
  match s.store.truncate with
  | .ok store => { s with store := store }
  | .error _ => s

theorem truncated_eq (s : Session) : s.truncated = { s with store := .initial } := by
  unfold truncated
  rw [Store.truncate_eq]

/-- A type that was cached keeps its number, although no types are stored. -/
theorem truncated_type {name : String} {id : TypeId} (h : s.types.find? name = some id)
    {table : TypeTable} {ref : Option TypeRef} (hn : ref.bind table.name? = some name) :
    ∃ s', Analyze.typeId table ref s.truncated = .ok id s' ∧ s'.store.types = [] := by
  obtain ⟨r, rfl, hr⟩ := Option.bind_eq_some_iff.mp hn
  refine ⟨{ s.truncated with types := (s.types.get name).2 }, ?_, by rw [truncated_eq]; rfl⟩
  rw [truncated_eq]
  simp only [Plan.typeId_of_name hr, h]

/-- A file that was cached keeps its number, although only the unknown file is stored. -/
theorem truncated_file {path : Path} {id : FileId} (h : s.files.find? path.components = some id) :
    ∃ s', Analyze.fileId path s.truncated = .ok id s' ∧ s'.store.files = [Store.unknownFile] := by
  refine ⟨{ s.truncated with files := (s.files.get path.components).2 }, ?_,
    by rw [truncated_eq]; rfl⟩
  rw [truncated_eq]
  exact Analyze.fileId_of_cached h

end Session

/-! ## What was cached -/

/-- Something is asked in a session, or its store is truncated. -/
inductive Event where
  | ask (q : Query)
  | truncate

/-- A session, with what was cached when its store was last truncated. -/
structure Aged where
  session : Session
  types : List (String × TypeId)
  files : List (List Path.Component × FileId)

namespace Aged

def start (s : Session) : Aged := ⟨s, [], []⟩

def next (a : Aged) : Event → Aged
  | .ask q => { a with session := (q.answer a.session).2 }
  | .truncate => ⟨a.session.truncated, a.session.types.entries, a.session.files.entries⟩

def after (a : Aged) (es : List Event) : Aged := es.foldl next a

/-- What is cached is stored, unless it was cached at the last truncation. -/
structure Fresh (a : Aged) : Prop where
  types : ∀ {name id}, (name, id) ∉ a.types → a.session.types.find? name = some id →
    a.session.store.typeNamed? name = some id
  files : ∀ {components id}, (components, id) ∉ a.files →
    a.session.files.find? components = some id →
      ∃ path : Path, path.components = components ∧
        a.session.store.fileNamed? path.text = some id

variable {a : Aged} {known : Path → Prop} {s : Session}

theorem Fresh.later (h : a.Fresh) (l : Later known a.session s) : Fresh { a with session := s } where
  types hn hf := by
    rcases l.types hf with hf | stored
    · exact Store.typeNamed?_of_le l.le (h.types hn hf)
    · exact stored
  files hn hf := by
    rcases l.files hf with hf | ⟨path, -, hc, stored⟩
    · obtain ⟨path, hc, stored⟩ := h.files hn hf
      exact ⟨path, hc, Store.fileNamed?_of_le l.le stored⟩
    · exact ⟨path, hc, stored⟩

theorem Fresh.next (h : a.Fresh) (e : Event) : (a.next e).Fresh := by
  cases e with
  | ask q =>
    have steps := @Query.run_steps (fun _ => True) q fun _ _ => trivial
    have later := (steps.later a.session).leaves
    rw [← Query.answer_leaves] at later
    exact h.later later
  | truncate =>
    have kept : a.session.truncated.types = a.session.types ∧
        a.session.truncated.files = a.session.files := by
      rw [Session.truncated_eq]
      exact ⟨rfl, rfl⟩
    constructor
    · intro name id hn hf
      exact absurd (Cache.mem_of_find? (kept.1 ▸ hf)) hn
    · intro components id hn hf
      exact absurd (Cache.mem_of_find? (kept.2 ▸ hf)) hn

theorem Fresh.after (h : a.Fresh) (es : List Event) : (a.after es).Fresh := by
  induction es generalizing a with
  | nil => exact h
  | cons e es ih => exact ih (h.next e)

theorem fresh_start (ht : s.types.entries = []) (hf : s.files.entries = []) :
    (start s).Fresh where
  types _ h := by simp [start, Cache.find?, ht] at h
  files _ h := by simp [start, Cache.find?, hf] at h

/-- Events follow each other in a session that starts with empty caches. Then the number that is
told for a type is that of a row with its name, unless it was cached for the name at the last
truncation, and the number that is told for a file is that of a row with its path, unless it was
cached for the path. -/
theorem numbers_valid (ht : s.types.entries = []) (hf : s.files.entries = []) (es : List Event) :
    let a := (start s).after es
    (∀ table ref id s', Analyze.typeId table ref a.session = .ok id s' →
      ∃ name, ref.bind table.name? = some name ∧
        ((name, id) ∈ a.types ∨ ∃ r ∈ s'.store.types, r.id = id ∧ r.name = name)) ∧
    ∀ path id s', Analyze.fileId path a.session = .ok id s' →
      (path.components, id) ∈ a.files ∨ s'.store.IsFile id path := by
  intro a
  have fresh : a.Fresh := (fresh_start ht hf).after es
  constructor
  · intro table ref id s' h
    obtain ⟨later, name, hn, told⟩ :=
      (@Analyze.typeId_later (fun _ => True) a.session table ref).of_ok h
    refine ⟨name, hn, ?_⟩
    by_cases old : (name, id) ∈ a.types
    · exact .inl old
    · have stored : s'.store.typeNamed? name = some id := by
        rcases told with cached | stored
        · exact Store.typeNamed?_of_le later.le (fresh.types old cached)
        · exact stored
      obtain ⟨r, hr, rfl⟩ := Option.map_eq_some_iff.mp stored
      exact .inr ⟨r, List.mem_of_find?_eq_some hr, rfl, by simpa using List.find?_some hr⟩
  · intro path id s' h
    obtain ⟨later, told⟩ :=
      (@Analyze.fileId_later (fun _ => True) a.session path trivial).of_ok h
    by_cases old : (path.components, id) ∈ a.files
    · exact .inl old
    · rcases told with cached | stored
      · obtain ⟨p, hc, stored⟩ := fresh.files old cached
        exact .inr (Store.isFile_of_fileNamed? (Store.fileNamed?_of_le later.le stored) hc)
      · exact .inr (Store.isFile_of_fileNamed? stored rfl)

/-- A type and a file are cached, the store is truncated, and the sample package is analyzed. -/
theorem numbers_sample_valid :
    let a := (start .sample).after
      [.ask (.type .sample (some 0)), .ask (.file ⟨"corpus/b.go"⟩), .truncate,
        .ask (.analysis .sample .all)]
    (∀ table ref id s', Analyze.typeId table ref a.session = .ok id s' →
      ∃ name, ref.bind table.name? = some name ∧
        ((name, id) ∈ a.types ∨ ∃ r ∈ s'.store.types, r.id = id ∧ r.name = name)) ∧
    ∀ path id s', Analyze.fileId path a.session = .ok id s' →
      (path.components, id) ∈ a.files ∨ s'.store.IsFile id path :=
  numbers_valid rfl rfl _

/-- A type and a file are cached, the store is truncated, and another type and another file take
their rows. Then those rows are told for them. -/
theorem numbers_outdated :
    let table : TypeTable := ⟨#[⟨"int", some 8, .basic .int⟩, ⟨"string", some 16, .basic .string⟩]⟩
    let a := (start .sample).after
      [.ask (.type table (some 0)), .ask (.file ⟨"corpus/a.go"⟩), .truncate,
        .ask (.type table (some 1)), .ask (.file ⟨"corpus/b.go"⟩)]
    (∃ s', Analyze.typeId table (some 0) a.session = .ok ⟨1⟩ s' ∧
      s'.store.types.map (fun r => (r.id, r.name)) = [(⟨1⟩, "string")]) ∧
    ∃ s', Analyze.fileId ⟨"corpus/a.go"⟩ a.session = .ok ⟨2⟩ s' ∧
      s'.store.files.map (fun r => (r.id, r.path)) = [(⟨1⟩, "<unknown>"), (⟨2⟩, "corpus/b.go")] :=
  ⟨⟨_, by rfl, by rfl⟩, ⟨_, by rfl, by rfl⟩⟩

end Aged
end AccessDepth
