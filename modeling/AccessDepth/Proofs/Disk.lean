import AccessDepth.Disk

/-!
# AccessDepth.Proofs.Disk

What changes of a disk leave as it was.

* `Entry.Still` — an entry is there as before; a directory may hold something else.
* `Disk.Keeps` — every entry is there as before, but for the one at a place.
* `Disk.Grows` — every entry is there as before, and directories may have been added.
* `Disk.Built`, `createDirs_built` — directories were made one by one.
* `Disk.LeadsTo` — a path leads to a file with some bytes, or to nothing.
* `Disk.append_ok` — what adding to a file does to it, and to the others.
-/

namespace AccessDepth

namespace Entry

/-- An entry is there as before; a directory may hold something else. -/
def Still (e e' : Option Entry) : Prop :=
  e' = e ∨ ∃ es es', e = some (.directory es) ∧ e' = some (.directory es')

theorem Still.refl (e : Option Entry) : Still e e := .inl rfl

theorem Still.trans {e e' e'' : Option Entry} (h : Still e e') (h' : Still e' e'') : Still e e'' := by
  obtain rfl | ⟨es, es', rfl, rfl⟩ := h
  · exact h'
  · obtain rfl | ⟨_, es'', -, rfl⟩ := h'
    · exact .inr ⟨es, es', rfl, rfl⟩
    · exact .inr ⟨es, es'', rfl, rfl⟩

/-- An entry is there as before, or a directory came where nothing was. -/
def Kept (e e' : Option Entry) : Prop :=
  Still e e' ∨ e = none ∧ ∃ entries, e' = some (.directory entries)

theorem Kept.trans {e e' e'' : Option Entry} (h : Kept e e') (h' : Kept e' e'') : Kept e e'' := by
  obtain h | ⟨hn, entries, rfl⟩ := h
  · obtain h' | ⟨rfl, hd⟩ := h'
    · exact .inl (h.trans h')
    · obtain rfl | ⟨_, _, -, h⟩ := h
      · exact .inr ⟨rfl, hd⟩
      · cases h
  · obtain (rfl | ⟨_, es, -, rfl⟩) | ⟨h, -⟩ := h'
    · exact .inr ⟨hn, entries, rfl⟩
    · exact .inr ⟨hn, es, rfl⟩
    · cases h

theorem setName_some (entries : List (String × Entry)) (name : String) (child : Entry) :
    setName entries name (some child) =
      if entries.any fun e => e.1 == name then
        entries.map fun e => if e.1 == name then (name, child) else e
      else entries ++ [(name, child)] := rfl

theorem named?_setName_self (entries : List (String × Entry)) (name : String) (child : Entry) :
    named? (setName entries name (some child)) name = some child := by
  rw [setName_some]
  unfold named?
  split
  · rename_i h
    induction entries with
    | nil => cases h
    | cons e es ih =>
      by_cases he : e.1 = name
      · simp [he]
      · have rest : (es.any fun e => e.1 == name) = true := by simpa [he] using h
        simpa [he] using ih rest
  · rename_i h
    have none : entries.find? (fun e => e.1 == name) = none :=
      List.find?_eq_none.mpr fun e he heq => h (List.any_eq_true.mpr ⟨e, he, heq⟩)
    simp [List.find?_append, none]

theorem named?_setName_of_ne (entries : List (String × Entry)) {name other : String} (child : Entry)
    (h : other ≠ name) : named? (setName entries name (some child)) other = named? entries other := by
  rw [setName_some]
  unfold named?
  split
  · rename_i hany
    clear hany
    induction entries with
    | nil => rfl
    | cons e es ih =>
      by_cases he : e.1 = name
      · simpa [he, h.symm] using ih
      · by_cases ho : e.1 = other
        · simp [ho, h]
        · simpa [he, ho] using ih
  · simp [List.find?_append, h.symm]

theorem at?_cons (entries : List (String × Entry)) (name : String) (names : List String) :
    (directory entries).at? (name :: names) = (named? entries name).bind (·.at? names) := by
  simp only [at?]
  cases named? entries name <;> rfl

theorem at?_append (e : Entry) (names more : List String) :
    e.at? (names ++ more) = (e.at? names).bind (·.at? more) := by
  induction names generalizing e with
  | nil => rfl
  | cons name names ih =>
    cases e with
    | file | store => rfl
    | directory es =>
      rw [List.cons_append, at?_cons, at?_cons]
      cases named? es name with
      | none => rfl
      | some child => exact ih child

section

variable {entries : List (String × Entry)} {name : String} {new : Entry}

theorem set_of_child {names : List String} {child : Entry} (h : named? entries name = some child) :
    (directory entries).set (some new) (name :: names) =
      directory (setName entries name (some (child.set (some new) names))) := by
  cases names with
  | nil => rfl
  | cons n ns => simp only [set, h]

theorem set_of_missing (h : named? entries name = none) (n : String) (ns : List String) :
    (directory entries).set (some new) (name :: n :: ns) = directory entries := by
  simp only [set, h]

end

/-- What is put at the end of some names in a directory is there. -/
theorem at?_set_self (e new : Entry) {names : List String} {name : String}
    {entries : List (String × Entry)} (h : e.at? names = some (.directory entries)) :
    (e.set (some new) (names ++ [name])).at? (names ++ [name]) = some new := by
  induction names generalizing e with
  | nil =>
    cases h
    rw [List.nil_append, set, at?_cons, named?_setName_self]
    rfl
  | cons n ns ih =>
    cases e with
    | file | store => cases h
    | directory es =>
      rw [at?_cons] at h
      obtain ⟨child, hn, h⟩ := Option.bind_eq_some_iff.mp h
      rw [List.cons_append, set_of_child hn, at?_cons, named?_setName_self, Option.bind_some,
        ih child h]

/-- What is put somewhere is there, unless nothing can be put there. -/
theorem at?_set (e new : Entry) (place : List String) :
    (e.set (some new) place).at? place = some new ∨
      e.at? place = none ∧ (e.set (some new) place).at? place = none := by
  induction place generalizing e with
  | nil => exact .inl rfl
  | cons name names ih =>
    cases e with
    | file | store => exact .inr ⟨rfl, by cases names <;> rfl⟩
    | directory es =>
      cases hn : named? es name with
      | some child =>
        rw [set_of_child hn, at?_cons, at?_cons, named?_setName_self, hn]
        exact ih child
      | none =>
        cases names with
        | cons m ms =>
          rw [set_of_missing hn, at?_cons, hn]
          exact .inr ⟨rfl, rfl⟩
        | nil =>
          rw [set, at?_cons, named?_setName_self]
          exact .inl rfl

/-- Elsewhere everything is as before, if nothing was below and nothing is below what is put. -/
theorem still_set {e new : Entry} {place other : List String} (hne : other ≠ place)
    (old : ∀ child, e.at? place = some child → ∀ n ns, child.at? (n :: ns) = none)
    (below : ∀ n ns, new.at? (n :: ns) = none) :
    Still (e.at? other) ((e.set (some new) place).at? other) := by
  induction place generalizing e other with
  | nil =>
    cases other with
    | nil => exact absurd rfl hne
    | cons n ns => exact .inl ((below n ns).trans (old e rfl n ns).symm)
  | cons name names ih =>
    cases e with
    | file | store => cases names <;> exact .refl _
    | directory es =>
      cases hn : named? es name with
      | some child =>
        rw [set_of_child hn]
        cases other with
        | nil => exact .inr ⟨_, _, rfl, rfl⟩
        | cons n ns =>
          rw [at?_cons, at?_cons]
          by_cases h : n = name
          · subst h
            rw [named?_setName_self, hn, Option.bind_some, Option.bind_some]
            refine ih (fun he => hne (he ▸ rfl)) fun x hx => old x ?_
            rw [at?_cons, hn, Option.bind_some, hx]
          · rw [named?_setName_of_ne es _ h]
            exact .refl _
      | none =>
        cases names with
        | cons m ms =>
          rw [set_of_missing hn]
          exact .refl _
        | nil =>
          rw [set]
          cases other with
          | nil => exact .inr ⟨_, _, rfl, rfl⟩
          | cons n ns =>
            rw [at?_cons, at?_cons]
            by_cases h : n = name
            · subst h
              rw [named?_setName_self, hn, Option.bind_some, Option.bind_none]
              cases ns with
              | nil => exact absurd rfl hne
              | cons m ms => exact .inl (below m ms)
            · rw [named?_setName_of_ne es _ h]
              exact .refl _

end Entry

namespace Disk

variable {d d' d'' : Disk} {p p' : Path} {x : List String}

/-! ## Places -/

def IsDirectoryAt (d : Disk) (x : List String) : Prop :=
  ∃ entries, d.root.at? x = some (.directory entries)

/-- Every entry is there as before, but for the one at a place. -/
structure Keeps (x : List String) (d d' : Disk) : Prop where
  start : d'.start = d.start
  still : ∀ y, y ≠ x → Entry.Still (d.root.at? y) (d'.root.at? y)

/-- Every entry is there as before, and directories may have been added. -/
structure Grows (d d' : Disk) : Prop where
  start : d'.start = d.start
  kept : ∀ y, Entry.Kept (d.root.at? y) (d'.root.at? y)

theorem isDirectoryAt_of_still {x : List String} (h : Entry.Still (d.root.at? x) (d'.root.at? x))
    (hd : d.IsDirectoryAt x) : d'.IsDirectoryAt x := by
  obtain ⟨es, he⟩ := hd
  obtain h | ⟨_, es', -, h⟩ := h
  · exact ⟨es, h.trans he⟩
  · exact ⟨es', h⟩

theorem Grows.refl (d : Disk) : Grows d d := ⟨rfl, fun _ => .inl (.refl _)⟩

theorem Grows.isDirectoryAt (h : Grows d d') {x : List String} (hd : d.IsDirectoryAt x) :
    d'.IsDirectoryAt x := by
  obtain h | ⟨-, h⟩ := h.kept x
  · exact isDirectoryAt_of_still h hd
  · exact h

theorem Grows.trans (h : Grows d d') (h' : Grows d' d'') : Grows d d'' where
  start := h'.start.trans h.start
  kept y := (h.kept y).trans (h'.kept y)

theorem step_ok {place next : List String} {piece : String} (h : d.step place piece = .ok next) :
    d.IsDirectoryAt place ∧
      ∀ d' : Disk, d'.IsDirectoryAt place → d'.step place piece = .ok next := by
  unfold step at h
  split at h
  · cases h
  · rename_i es he
    refine ⟨⟨es, he⟩, fun d' ⟨es', he'⟩ => ?_⟩
    simp only [step, he']
    exact h
  · cases h

/-- Where no directory is gone, a path that leads somewhere leads there. -/
theorem foldlM_step_ok (hd : ∀ y, d.IsDirectoryAt y → d'.IsDirectoryAt y) {pieces : List String}
    {origin : List String} (h : pieces.foldlM d.step origin = .ok x) :
    pieces.foldlM d'.step origin = .ok x := by
  induction pieces generalizing origin with
  | nil => exact h
  | cons piece pieces ih =>
    rw [List.foldlM_cons] at h ⊢
    cases hs : d.step origin piece with
    | error e =>
      rw [hs] at h
      cases h
    | ok next =>
      rw [hs] at h
      have here := step_ok hs
      rw [here.2 d' (hd _ here.1)]
      exact ih h

theorem place_of_dirs (hs : d'.start = d.start)
    (hd : ∀ y, d.IsDirectoryAt y → d'.IsDirectoryAt y) (h : d.place p = .ok x) :
    d'.place p = .ok x := by
  unfold place follow at h ⊢
  split
  · rename_i hn
    simp only [hn, if_true] at h
    cases h
  · rename_i hn
    rw [if_neg hn] at h
    split
    · rename_i hz
      rw [if_pos hz] at h
      cases h
    · rename_i hz
      rw [if_neg hz] at h
      split
      · rename_i hl
        rw [if_pos hl] at h
        cases h
      · rename_i hl
        rw [if_neg hl] at h
        have origin : d'.origin p = d.origin p := by simp only [Disk.origin, hs]
        rw [origin]
        exact foldlM_step_ok hd h

/-! ## Changes -/

theorem put_keeps {new : Entry} (hx : ¬ d.IsDirectoryAt x)
    (below : ∀ n ns, new.at? (n :: ns) = none) : Keeps x d (d.put x (some new)) where
  start := rfl
  still y hy := by
    refine Entry.still_set hy (fun child hc n ns => ?_) below
    cases child with
    | file | store => rfl
    | directory es => exact absurd ⟨es, hc⟩ hx

theorem Keeps.isDirectoryAt (h : Keeps x d d') (hx : ¬ d.IsDirectoryAt x) {y : List String}
    (hd : d.IsDirectoryAt y) : d'.IsDirectoryAt y := by
  refine isDirectoryAt_of_still (h.still y fun he => hx (he ▸ hd)) hd

/-- A new directory where nothing was. -/
theorem put_directory_grows (hx : d.root.at? x = none) :
    Grows d (d.put x (some (.directory []))) where
  start := rfl
  kept y := by
    have missing : ¬ d.IsDirectoryAt x := by
      rintro ⟨es, he⟩
      rw [hx] at he
      cases he
    by_cases hy : y = x
    · subst hy
      obtain h | ⟨-, h⟩ := Entry.at?_set d.root (.directory []) y
      · exact .inr ⟨hx, [], h⟩
      · exact .inl (.inl (h.trans hx.symm))
    · exact .inl ((put_keeps missing fun _ _ => rfl).still y hy)

theorem change_ok {f : Disk → Except FileProblem Disk} (h : Change.of f d = .ok () d') :
    f d = .ok d' := by
  unfold Change.of at h
  split at h
  · rename_i hf
    cases h
    exact hf
  · cases h

/-- Directories were made, each where nothing was. -/
inductive Built (d : Disk) : Disk → Prop
  | refl : Built d d
  | put {d' : Disk} {x : List String} : Built d d' → d'.root.at? x = none →
      Built d (d'.put x (some (.directory [])))

theorem Built.trans (h : Built d d') (h' : Built d' d'') : Built d d'' := by
  induction h' with
  | refl => exact h
  | put _ hx ih => exact ih.put hx

theorem Built.grows (h : Built d d') : Grows d d' := by
  induction h with
  | refl => exact .refl d
  | put _ hx ih => exact ih.trans (put_directory_grows hx)

theorem makeDir_ok (h : makeDir p d = .ok () d') : Built d d' := by
  have h := change_ok h
  cases hf : d.follow p (p.pieces.reverse.dropWhile (· = "")).reverse with
  | error e =>
    rw [hf] at h
    cases h
  | ok place =>
    rw [hf] at h
    simp only [bind, Except.bind] at h
    split at h
    · cases h
    · rename_i hn
      cases h
      exact Built.refl.put hn

def Change.leaves (c : Change) (d : Disk) : Disk :=
  match c d with
  | .ok () d' => d'
  | .error _ d' => d'

theorem Change.leaves_ok {c : Change} (h : c d = .ok () d') : c.leaves d = d' := by
  simp only [leaves, h]

theorem Change.leaves_error {c : Change} {e : FileProblem} (h : c d = .error e d') :
    c.leaves d = d' := by
  simp only [leaves, h]

theorem createAlong_built (pieces place : List String) (d : Disk) :
    Built d ((createAlong place pieces).leaves d) := by
  induction pieces generalizing d place with
  | nil => exact .refl
  | cons piece pieces ih =>
    unfold Change.leaves createAlong
    cases d.step place piece with
    | error e => exact .refl
    | ok next =>
      simp only
      cases he : d.root.at? next with
      | none => exact (Built.refl.put he).trans (ih _ _)
      | some e =>
        cases e with
        | directory es => exact ih _ _
        | file | store => exact .refl

theorem change_error {f : Disk → Except FileProblem Disk} {e : FileProblem}
    (h : Change.of f d = .error e d') : d' = d := by
  unfold Change.of at h
  split at h
  · cases h
  · cases h
    rfl

theorem ensureDir_built (p : Path) (d : Disk) : Built d ((ensureDir p).leaves d) := by
  unfold Change.leaves ensureDir
  cases hm : makeDir p d with
  | ok u d₁ => exact makeDir_ok hm
  | error e d₁ =>
    obtain rfl := change_error hm
    by_cases hd : d₁.isDirectory p = true
    · simp only [hd, if_true]
      exact .refl
    · simp only [hd]
      exact .refl

/-- Nothing but directories is made, also where that stops. -/
theorem createDirs_built (p : Path) (d : Disk) : Built d ((createDirs p).leaves d) := by
  have here := ensureDir_built p d
  by_cases ht : p.text = ""
  · have same : (createDirs p).leaves d = d := by simp only [Change.leaves, createDirs, ht, if_true]
    rw [same]
    exact .refl
  · unfold Change.leaves createDirs
    rw [if_neg ht]
    cases he : ensureDir p d with
    | ok u d₁ =>
      rw [Change.leaves_ok he] at here
      exact here
    | error e d₁ =>
      rw [Change.leaves_error he] at here
      cases e with
      | notFound =>
        simp only
        have along := createAlong_built ((p.parent?.map Path.pieces).getD []) (d₁.origin p) d₁
        cases ha : createAlong (d₁.origin p) ((p.parent?.map Path.pieces).getD []) d₁ with
        | ok u d₂ =>
          rw [Change.leaves_ok ha] at along
          exact (here.trans along).trans (ensureDir_built p d₂)
        | error e d₂ =>
          rw [Change.leaves_error ha] at along
          exact here.trans along
      | _ => exact here

theorem createParents_built (p : Path) (d : Disk) : Built d ((createParents p).leaves d) := by
  unfold createParents
  cases p.parent? with
  | some parent => exact createDirs_built parent d
  | none => exact .refl

theorem createParents_grows (p : Path) (d : Disk) : Grows d ((createParents p).leaves d) :=
  (createParents_built p d).grows

theorem createParents_ok (h : createParents p d = .ok () d') : Grows d d' := by
  have grows := createParents_grows p d
  rwa [Change.leaves_ok h] at grows

/-! ## Files -/

/-- A path leads to a file with some bytes, or to nothing in a directory. -/
def LeadsTo (d : Disk) (p : Path) (bytes : Option ByteArray) : Prop :=
  ∃ x, d.place p = .ok x ∧ d.root.at? x = bytes.map .file

theorem LeadsTo.read {bytes : ByteArray} (h : d.LeadsTo p (some bytes)) :
    d.read p = .ok bytes := by
  obtain ⟨x, hx, he⟩ := h
  simp [Disk.read, entry, hx, he, bind, Except.bind]

theorem leadsTo_of_read {bytes : ByteArray} (h : d.read p = .ok bytes) :
    d.LeadsTo p (some bytes) := by
  unfold Disk.read entry at h
  cases hp : d.place p with
  | error e =>
    rw [hp] at h
    cases h
  | ok x =>
    refine ⟨x, hp, ?_⟩
    rw [hp] at h
    simp only [bind, Except.bind] at h
    cases he : d.root.at? x with
    | none =>
      rw [he] at h
      cases h
    | some e =>
      rw [he] at h
      cases e with
      | file b =>
        cases h
        rfl
      | directory | store => cases h

theorem LeadsTo.of_grows {bytes : ByteArray} (h : d.LeadsTo p (some bytes)) (hg : Grows d d') :
    d'.LeadsTo p (some bytes) := by
  obtain ⟨x, hx, he⟩ := h
  refine ⟨x, place_of_dirs hg.start (fun _ => hg.isDirectoryAt) hx, ?_⟩
  obtain (h | ⟨_, _, h, -⟩) | ⟨h, -⟩ := hg.kept x
  · exact h.trans he
  · rw [he] at h
    cases h
  · rw [he] at h
    cases h

end Disk

def Path.EndsIn (p : Path) (name : String) : Prop :=
  (∃ pieces, p.pieces = pieces ++ [name]) ∧ name ≠ "" ∧ name ≠ "." ∧ name ≠ ".."

namespace Disk

variable {d d' : Disk} {p p' : Path} {x : List String} {name name' : String}

theorem foldlM_append_ok {pieces : List String} {piece : String} {origin : List String}
    (h : (pieces ++ [piece]).foldlM d.step origin = .ok x) :
    ∃ q, pieces.foldlM d.step origin = .ok q ∧ d.step q piece = .ok x := by
  rw [List.foldlM_append] at h
  cases hq : pieces.foldlM d.step origin with
  | error e =>
    rw [hq] at h
    cases h
  | ok q =>
    rw [hq] at h
    refine ⟨q, rfl, ?_⟩
    have last : (d.step q piece).bind pure = .ok x := h
    cases hs : d.step q piece with
    | error e =>
      rw [hs] at last
      cases last
    | ok y =>
      rw [hs] at last
      exact last

/-- A path that ends in a name leads to that name in a directory. -/
theorem place_of_endsIn (hn : p.EndsIn name) (h : d.place p = .ok x) :
    ∃ q, d.IsDirectoryAt q ∧ x = q ++ [name] := by
  obtain ⟨⟨pieces, hp⟩, empty, here, up⟩ := hn
  have fold : p.pieces.foldlM d.step (d.origin p) = .ok x := by
    unfold place follow at h
    split at h
    · cases h
    · split at h
      · cases h
      · split at h
        · cases h
        · exact h
  rw [hp] at fold
  obtain ⟨q, -, hq⟩ := foldlM_append_ok fold
  refine ⟨q, (step_ok hq).1, ?_⟩
  obtain ⟨es, he⟩ := (step_ok hq).1
  simp only [step, he, empty, here, up, or_self, if_false] at hq
  split at hq
  · cases hq
  · cases hq
    rfl

theorem write_ok {bytes : ByteArray} (h : write p bytes d = .ok () d') :
    ∃ x, d.place p = .ok x ∧ ¬ d.IsDirectoryAt x ∧ d' = d.put x (some (.file bytes)) := by
  unfold write putFile at h
  have h := change_ok h
  cases hp : d.place p with
  | error e =>
    rw [hp] at h
    cases h
  | ok x =>
    rw [hp] at h
    simp only [bind, Except.bind] at h
    split at h
    · cases h
    · rename_i hd
      cases h
      exact ⟨x, rfl, fun ⟨es, he⟩ => hd es he, rfl⟩

/-- What is written to a path is there. Every directory is still there, and so is every entry but the
one that the path led to. -/
theorem write_leadsTo {bytes : ByteArray} (hn : p.EndsIn name) (h : write p bytes d = .ok () d') :
    d'.LeadsTo p (some bytes) ∧ (∀ y, d.IsDirectoryAt y → d'.IsDirectoryAt y) ∧
      ∃ x, d.place p = .ok x ∧ Keeps x d d' := by
  obtain ⟨x, hx, hd, rfl⟩ := write_ok h
  have keeps : Keeps x d (d.put x (some (.file bytes))) := put_keeps hd fun _ _ => rfl
  have dirs (y : List String) := keeps.isDirectoryAt hd (y := y)
  obtain ⟨q, ⟨es, hq⟩, rfl⟩ := place_of_endsIn hn hx
  exact ⟨⟨_, place_of_dirs keeps.start dirs hx, Entry.at?_set_self d.root _ hq⟩, dirs, _, hx, keeps⟩

/-- Adding to a file leaves what was there with the bytes after it. -/
theorem append_ok {bytes : ByteArray} (hn : p.EndsIn name) (h : append p bytes d = .ok () d') :
    ∃ old, d.LeadsTo p old ∧ d'.LeadsTo p (some (old.getD .empty ++ bytes)) ∧
      (∀ y, d.IsDirectoryAt y → d'.IsDirectoryAt y) ∧ ∃ x, d.place p = .ok x ∧ Keeps x d d' := by
  unfold append at h
  split at h
  · rename_i old hr
    exact ⟨some old, leadsTo_of_read hr, write_leadsTo hn h⟩
  · rename_i hr
    obtain ⟨x, hx, hd, -⟩ := write_ok h
    have nothing : d.root.at? x = none := by
      cases he : d.root.at? x with
      | none => rfl
      | some e =>
        simp only [Disk.read, entry, hx, he, bind, Except.bind] at hr
        cases e <;> cases hr
    refine ⟨none, ⟨x, hx, nothing⟩, ?_⟩
    rw [Option.getD_none, ByteArray.empty_append]
    exact write_leadsTo hn h
  · cases h

/-- A file of another name is left as it was. -/
theorem append_other {bytes : ByteArray} (hn : p.EndsIn name) (hn' : p'.EndsIn name')
    (hne : name ≠ name') (h : append p bytes d = .ok () d') {old : Option ByteArray}
    (hl : d.LeadsTo p' old) : d'.LeadsTo p' old := by
  obtain ⟨-, -, -, dirs, x, hx, keeps⟩ := append_ok hn h
  obtain ⟨y, hy, he⟩ := hl
  refine ⟨y, place_of_dirs keeps.start dirs hy, ?_⟩
  have apart : y ≠ x := by
    obtain ⟨q, -, rfl⟩ := place_of_endsIn hn hx
    obtain ⟨q', -, rfl⟩ := place_of_endsIn hn' hy
    intro he
    exact hne (List.append_inj_right' he rfl |> List.singleton_inj.mp).symm
  obtain h | ⟨es, _, h, -⟩ := keeps.still y apart
  · exact h.trans he
  · rw [he] at h
    cases old <;> cases h

end Disk
end AccessDepth
