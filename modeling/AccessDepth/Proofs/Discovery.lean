import AccessDepth.Proofs.Run.Loading
import AccessDepth.Proofs.Trees

/-!
# AccessDepth.Proofs.Discovery

Which directories are found, and that logs do not change that.

* `Entry.induct` — induction from what is in a directory to the directory.
* `Entry.Distinct` — no directory has two entries of one name.
* `Discovery.Same` — at the place of every directory there is one, and the same ones below it hold
  sources. `Ledger.Logged.same`: so it is after logs were written.
* `Discovery.discover_logged` — the directories that are found are found again after logs were
  written.
* `Discovery.discover_names` — what is found on a disk is what the search finds in a tree.
* `Discovery.discover_ascends`, `discover_apart` — what is found ascends; no directory is found twice.
* `Discovery.text_ne_of_discover` — no directory that is found has an empty path.
-/

namespace AccessDepth
namespace Entry

variable {entries : List (String × Entry)} {name : String} {e new : Entry}

/-- Something holds of every entry if it holds of a directory whenever it holds of what is in it. -/
theorem induct {P : Entry → Prop} (file : ∀ bytes, P (.file bytes)) (store : ∀ s, P (.store s))
    (directory : ∀ entries, (∀ x ∈ entries, P x.2) → P (.directory entries)) : (e : Entry) → P e
  | .file bytes => file bytes
  | .store s => store s
  | .directory entries => directory entries fun x _ => induct file store directory x.2
  termination_by e => e
  decreasing_by
    have smaller := List.sizeOf_lt_of_mem ‹x ∈ entries›
    obtain ⟨name, e⟩ := x
    simp only [Prod.mk.sizeOf_spec, Entry.directory.sizeOf_spec] at smaller ⊢
    omega

/-- No directory has two entries of one name. -/
def Distinct (e : Entry) : Prop :=
  ∀ names entries, e.at? names = some (.directory entries) → (entries.map (·.1)).Nodup

theorem Distinct.here (h : (directory entries).Distinct) : (entries.map (·.1)).Nodup :=
  h [] entries rfl

theorem Distinct.child (h : (directory entries).Distinct) (hn : named? entries name = some e) :
    e.Distinct := fun names es he =>
  h (name :: names) es (by rw [at?_cons, hn, Option.bind_some, he])

theorem named?_of_mem (h : (entries.map (·.1)).Nodup) (he : (name, e) ∈ entries) :
    named? entries name = some e := by
  unfold named?
  induction entries with
  | nil => cases he
  | cons x xs ih =>
    obtain ⟨fresh, rest⟩ := List.nodup_cons.mp h
    obtain rfl | he := List.mem_cons.mp he
    · simp
    · have other : x.1 ≠ name := by
        rintro rfl
        exact fresh (List.mem_map_of_mem (f := (·.1)) he)
      rw [List.find?_cons_of_neg (by simpa using other)]
      exact ih rest he

/-! ## One entry more -/

theorem setName_of_missing (h : named? entries name = none) :
    setName entries name (some new) = entries ++ [(name, new)] := by
  have none : (entries.any fun e => e.1 == name) = false := by
    simpa [named?, List.find?_eq_none] using h
  rw [setName_some, none]
  rfl

/-- Where no name stands twice, one entry is replaced. -/
theorem setName_of_named (new : Entry) (hd : (entries.map (·.1)).Nodup)
    (h : named? entries name = some e) :
    ∃ before after, entries = before ++ (name, e) :: after ∧
      setName entries name (some new) = before ++ (name, new) :: after := by
  obtain ⟨⟨other, old⟩, hf, rfl⟩ := Option.map_eq_some_iff.mp h
  obtain ⟨same, before, after, rfl, first⟩ := List.find?_eq_some_iff_append.mp hf
  obtain rfl : other = name := by simpa using same
  refine ⟨before, after, rfl, ?_⟩
  have kept {es : List (String × Entry)} (hes : ∀ x ∈ es, x.1 ≠ other) :
      es.map (fun x => if x.1 == other then (other, new) else x) = es :=
    (List.map_congr_left fun x hx => if_neg (by simpa using hes x hx)).trans (List.map_id es)
  have later : ∀ x ∈ after, x.1 ≠ other := by
    rintro x hx rfl
    rw [List.map_append, List.map_cons] at hd
    have fresh := (List.nodup_cons.mp (List.nodup_append.mp hd).2.1).1
    exact fresh (List.mem_map_of_mem (f := (·.1)) hx)
  have there : (before ++ (other, old) :: after).any (fun x => x.1 == other) = true := by simp
  rw [setName_some, if_pos there, List.map_append, List.map_cons,
    kept fun x hx => by simpa using first x hx, kept later]
  simp

theorem nodup_setName (hd : (entries.map (·.1)).Nodup) :
    ((setName entries name (some new)).map (·.1)).Nodup := by
  cases h : named? entries name with
  | none =>
    rw [setName_of_missing h, List.map_append, List.map_cons, List.map_nil]
    refine List.nodup_append.mpr ⟨hd, by simp, ?_⟩
    rintro x hx y hy rfl
    obtain rfl := List.mem_singleton.mp hy
    obtain ⟨z, hz, rfl⟩ := List.mem_map.mp hx
    simp [named?_of_mem hd (e := z.2) hz] at h
  | some e =>
    obtain ⟨before, after, rfl, hs⟩ := setName_of_named new hd h
    rw [hs]
    simpa using hd

/-- Names stay distinct when an entry is put somewhere whose own names are. -/
theorem Distinct.set (h : e.Distinct) (hn : new.Distinct) (place : List String) :
    (e.set (some new) place).Distinct := by
  induction place generalizing e with
  | nil => exact hn
  | cons name names ih =>
    cases e with
    | file | store => cases names <;> exact h
    | directory es =>
      have put {child : Entry} (hc : child.Distinct) :
          (directory (setName es name (some child))).Distinct := by
        intro path es' he
        cases path with
        | nil =>
          cases he
          exact nodup_setName h.here
        | cons n ns =>
          rw [at?_cons] at he
          by_cases same : n = name
          · subst same
            rw [named?_setName_self, Option.bind_some] at he
            exact hc ns es' he
          · rw [named?_setName_of_ne es _ same, ← at?_cons] at he
            exact h (n :: ns) es' he
      cases hc : named? es name with
      | some child =>
        rw [set_of_child hc]
        exact put (ih (h.child hc))
      | none =>
        cases names with
        | nil => exact put hn
        | cons m ms =>
          rw [set_of_missing hc]
          exact h

end Entry

/-! ## Sources -/

namespace Discovery

open Entry (named? setName)

variable {entries : List (String × Entry)} {name : String} {e new : Entry}

theorem Tree.ofEntries_eq (entries : List (String × Entry)) :
    Tree.ofEntries entries = entries.map fun e => (.text e.1, .ofEntry e.2) := by
  induction entries with
  | nil => rfl
  | cons x xs ih => rw [Tree.ofEntries, ih, List.map_cons]

def sourcesOf (path : RawPath) (e : Entry) : List RawPath := sourceDirs path (.ofEntry e)

theorem sourcesOf_directory (path : RawPath) (entries : List (String × Entry)) :
    sourcesOf path (.directory entries) =
      if fits path then
        (if holdsSource (Tree.ofEntries entries) then [path] else []) ++
          entries.flatMap fun e =>
            if isExcluded (.text e.1) then [] else sourcesOf (path.child (.text e.1)) e.2
      else [] := by
  rw [sourcesOf, Tree.ofEntry, sourceDirs, sourceDirsIn_eq, Tree.ofEntries_eq, List.flatMap_map]
  rfl

theorem holdsSource_ofEntries (entries : List (String × Entry)) :
    holdsSource (Tree.ofEntries entries) =
      entries.any fun e => isSource (.text e.1) (.ofEntry e.2) := by
  rw [Tree.ofEntries_eq, holdsSource, List.any_map]
  rfl

/-- Whether an entry tells of the same sources as what its name stood for before. -/
structure Alike (name : String) (old : Option Entry) (new : Entry) : Prop where
  source : isSource (.text name) (.ofEntry new) =
    old.any fun e => isSource (.text name) (.ofEntry e)
  below : ∀ path, sourcesOf path new = (old.map (sourcesOf path)).getD []

theorem sourcesOf_setName (hd : (entries.map (·.1)).Nodup)
    (h : Alike name (named? entries name) new) (path : RawPath) :
    sourcesOf path (.directory (setName entries name (some new))) =
      sourcesOf path (.directory entries) := by
  obtain ⟨source, below⟩ := h
  have whole {es es' : List (String × Entry)}
      (holds : holdsSource (Tree.ofEntries es') = holdsSource (Tree.ofEntries es))
      (dirs : (es'.flatMap fun e =>
          if isExcluded (.text e.1) then [] else sourcesOf (path.child (.text e.1)) e.2) =
        es.flatMap fun e =>
          if isExcluded (.text e.1) then [] else sourcesOf (path.child (.text e.1)) e.2) :
      sourcesOf path (.directory es') = sourcesOf path (.directory es) := by
    rw [sourcesOf_directory, sourcesOf_directory, holds, dirs]
  cases hn : named? entries name with
  | none =>
    rw [hn] at source below
    rw [Entry.setName_of_missing hn]
    exact whole (by simp [holdsSource_ofEntries, source]) (by simp [below])
  | some e =>
    rw [hn] at source below
    obtain ⟨before, after, rfl, hs⟩ := Entry.setName_of_named new hd hn
    rw [hs]
    exact whole (by simp [holdsSource_ofEntries, source]) (by simp [below])

/-- At the place of every directory there is one, and the same ones below it hold sources. -/
def Same (e e' : Entry) : Prop :=
  ∀ names entries, e.at? names = some (.directory entries) →
    ∃ entries', e'.at? names = some (.directory entries') ∧
      ∀ path, sourcesOf path (.directory entries') = sourcesOf path (.directory entries)

theorem Same.refl (e : Entry) : Same e e := fun _ entries h => ⟨entries, h, fun _ => rfl⟩

theorem Same.trans {e' e'' : Entry} (h : Same e e') (h' : Same e' e'') : Same e e'' := by
  intro names entries he
  obtain ⟨entries', he', same⟩ := h names entries he
  obtain ⟨entries'', he'', same'⟩ := h' names entries' he'
  exact ⟨entries'', he'', fun path => (same' path).trans (same path)⟩

theorem same_setName (hd : (entries.map (·.1)).Nodup) (h : Alike name (named? entries name) new)
    (hs : ∀ old ∈ named? entries name, Same old new) :
    Same (.directory entries) (.directory (setName entries name (some new))) := by
  intro names es he
  cases names with
  | nil =>
    cases he
    exact ⟨_, rfl, sourcesOf_setName hd h⟩
  | cons n ns =>
    rw [Entry.at?_cons] at he ⊢
    by_cases hn : n = name
    · subst hn
      obtain ⟨old, hold, he⟩ := Option.bind_eq_some_iff.mp he
      rw [Entry.named?_setName_self, Option.bind_some]
      exact hs old hold ns es he
    · rw [Entry.named?_setName_of_ne entries _ hn]
      exact ⟨es, he, fun _ => rfl⟩

theorem alike_of_same {names : List String} (hn : names ≠ [])
    (h : Same e (e.set (some new) names)) :
    Alike name (some e) (e.set (some new) names) := by
  obtain ⟨n, ns, rfl⟩ := List.exists_cons_of_ne_nil hn
  cases e with
  | file | store => cases ns <;> exact ⟨rfl, fun _ => rfl⟩
  | directory es =>
    obtain ⟨es', he, below⟩ := h [] es rfl
    obtain he : (Entry.directory es).set (some new) (n :: ns) = .directory es' := Option.some.inj he
    rw [he]
    exact ⟨rfl, below⟩

/-- An entry is put where no directory was, and tells of the same sources as what was there. -/
theorem same_set {q : List String} (hd : e.Distinct)
    (file : ∀ es, e.at? (q ++ [name]) ≠ some (.directory es))
    (h : Alike name (e.at? (q ++ [name])) new) : Same e (e.set (some new) (q ++ [name])) := by
  induction q generalizing e with
  | nil =>
    cases e with
    | file | store => exact .refl _
    | directory es =>
      have here : (Entry.directory es).at? [name] = named? es name := by
        rw [Entry.at?_cons]
        cases named? es name <;> rfl
      rw [List.nil_append, here] at h file
      refine same_setName hd.here h fun old hold names es' he => ?_
      cases old with
      | directory => exact absurd hold (file _)
      | file | store => cases names <;> cases he
  | cons n q ih =>
    cases e with
    | file | store => cases hq : q ++ [name] <;> simp [Entry.set, hq] <;> exact .refl _
    | directory es =>
      rw [List.cons_append, Entry.at?_cons] at h file
      rw [List.cons_append]
      cases hc : named? es n with
      | none =>
        obtain ⟨m, ms, hq⟩ := List.exists_cons_of_ne_nil (l := q ++ [name]) (by simp)
        rw [hq, Entry.set_of_missing hc]
        exact .refl _
      | some child =>
        rw [hc, Option.bind_some] at h file
        have same := ih (hd.child hc) file h
        rw [Entry.set_of_child hc]
        refine same_setName hd.here ?_ fun old hold => ?_
        · rw [hc]
          exact alike_of_same (by simp) same
        · cases hc.symm.trans hold
          exact same

end Discovery

/-! ## Logs -/

namespace Disk

open Discovery (Alike Same isSource sourcesOf)

variable {d d' : Disk} {p : Path} {name : String} {new : Entry}

theorem put_same {q : List String} {old : Option Entry} (hd : d.root.Distinct) (hn : new.Distinct)
    (ho : d.root.at? (q ++ [name]) = old) (file : ∀ es, old ≠ some (.directory es))
    (h : Alike name old new) :
    (d.put (q ++ [name]) (some new)).root.Distinct ∧
      Same d.root (d.put (q ++ [name]) (some new)).root := by
  subst ho
  exact ⟨hd.set hn _, Discovery.same_set hd file h⟩

theorem Built.same (h : Built d d') (hd : d.root.Distinct) :
    d'.root.Distinct ∧ Same d.root d'.root := by
  induction h with
  | refl => exact ⟨hd, .refl _⟩
  | @put _ x _ hx ih =>
    obtain ⟨hd', same⟩ := ih
    have new : (Entry.directory []).Distinct := by
      intro names es he
      cases names with
      | nil =>
        cases he
        exact List.nodup_nil
      | cons => cases he
    obtain ⟨q, name, rfl⟩ : ∃ q name, x = q ++ [name] := by
      have hne : x ≠ [] := by
        rintro rfl
        cases hx
      exact ⟨_, _, (List.dropLast_concat_getLast hne).symm⟩
    have alike : Alike name none (.directory []) := by
      refine ⟨rfl, fun path => ?_⟩
      rw [Discovery.sourcesOf_directory]
      cases Discovery.fits path <;> rfl
    obtain ⟨hd'', same'⟩ := put_same hd' new hx (by simp) alike
    exact ⟨hd'', same.trans same'⟩

theorem append_same (hn : p.EndsIn name)
    (ext : (RawText.text name).extension? ≠ some (Path.utf8 Discovery.sourceExtension))
    {bytes : ByteArray}
    (h : append p bytes d = .ok () d') (hd : d.root.Distinct) :
    d'.root.Distinct ∧ Same d.root d'.root := by
  obtain ⟨old, ⟨x, hx, he⟩, -⟩ := append_ok hn h
  obtain ⟨b, hw⟩ : ∃ b, write p b d = .ok () d' := by
    unfold append at h
    split at h
    · exact ⟨_, h⟩
    · exact ⟨_, h⟩
    · cases h
  obtain ⟨y, hy, -, rfl⟩ := write_ok hw
  cases hx.symm.trans hy
  obtain ⟨q, -, rfl⟩ := place_of_endsIn hn hx
  have quiet (t : Discovery.Tree) : isSource (.text name) t = false := by
    simp [isSource, ext]
  refine put_same hd (fun names es he => ?_) he (by cases old <;> simp) ?_
  · cases names <;> cases he
  · refine ⟨(quiet _).trans ?_, fun path => ?_⟩
    · cases old <;> simp [quiet]
    · cases old <;> rfl

end Disk

theorem Mode.extension?_logName (m : Mode) :
    (RawText.text m.logName).extension? ≠ some (Path.utf8 Discovery.sourceExtension) := by
  cases m <;> decide

theorem Ledger.Logged.same {c : Settings} {mode : Mode} {d d' : Disk}
    (h : Logged (c.logPaths mode) d d') (hd : d.root.Distinct) :
    d'.root.Distinct ∧ Discovery.Same d.root d'.root := by
  have append {log : Path} {bytes : ByteArray} {d d' : Disk} (hl : log ∈ c.logPaths mode)
      (ha : Disk.append log bytes d = .ok () d') (hd : d.root.Distinct) :
      d'.root.Distinct ∧ Discovery.Same d.root d'.root := by
    obtain ⟨m, -, rfl⟩ := List.mem_map.mp hl
    exact Disk.append_same (c.logPath_endsIn m) m.extension?_logName ha hd
  induction h with
  | refl => exact ⟨hd, .refl _⟩
  | @prepare log d' d'' _ hl hp ih =>
    obtain ⟨hd', same⟩ := ih
    obtain ⟨d₁, hc, ha⟩ := Ledger.prepare_ok hp
    have built := Disk.createParents_built log d'
    rw [Disk.Change.leaves_ok hc] at built
    obtain ⟨hd₁, same₁⟩ := built.same hd'
    obtain ⟨hd₂, same₂⟩ := append hl ha hd₁
    exact ⟨hd₂, same.trans (same₁.trans same₂)⟩
  | append _ hl ha ih =>
    obtain ⟨hd', same⟩ := ih
    obtain ⟨hd₂, same₂⟩ := append hl ha hd'
    exact ⟨hd₂, same.trans same₂⟩

namespace Discovery

variable {d d' : Disk} {root : Path} {found : List Path}

theorem entry_eq_ok {e : Entry} :
    d.entry root = .ok e ↔ ∃ x, d.place root = .ok x ∧ d.root.at? x = some e := by
  unfold Disk.entry
  cases d.place root with
  | error e => simp [bind, Except.bind]
  | ok x => cases he : d.root.at? x <;> simp [bind, Except.bind, he]

theorem discover_directory {entries : List (String × Entry)}
    (h : d.entry root = .ok (.directory entries)) :
    discover d root = .ok
      ((search (.ofPath root) (.ofEntry (.directory entries))).filterMap RawPath.toPath?) := by
  unfold discover
  rw [h]

theorem discover_ok (h : discover d root = .ok found) : ∃ x entries, d.place root = .ok x ∧
    d.root.at? x = some (.directory entries) := by
  unfold discover at h
  split at h
  · rename_i entries there
    obtain ⟨x, hx, he⟩ := entry_eq_ok.mp there
    exact ⟨x, entries, hx, he⟩
  · cases h

/-- The directories that are found are found again after logs were written. -/
theorem discover_logged {c : Settings} {mode : Mode} (hl : Ledger.Logged (c.logPaths mode) d d')
    (hd : d.root.Distinct) (h : discover d root = .ok found) : discover d' root = .ok found := by
  obtain ⟨x, entries, hx, he⟩ := discover_ok h
  obtain ⟨entries', he', same⟩ := (hl.same hd).2 x entries he
  have keeps := hl.keepsNames
  have hx' := Disk.place_of_dirs keeps.start keeps.dirs hx
  have sources := same (.ofPath root)
  unfold sourcesOf at sources
  rw [← h, discover_directory (entry_eq_ok.mpr ⟨x, hx, he⟩),
    discover_directory (entry_eq_ok.mpr ⟨x, hx', he'⟩), search, search, sources]

end Discovery

/-! ## Directories that are found -/

/-- The names in each directory are distinct, and none of them has another meaning in a path. -/
def Entry.Proper (e : Entry) : Prop :=
  ∀ names entries, e.at? names = some (.directory entries) →
    (entries.map (·.1)).Nodup ∧ ∀ x ∈ entries, Path.IsName x.1

namespace Entry

variable {entries : List (String × Entry)} {e : Entry}

theorem Proper.distinct (h : e.Proper) : e.Distinct := fun names entries he =>
  (h names entries he).1

theorem proper_file (bytes : ByteArray) : (file bytes).Proper := by
  intro names entries he
  cases names <;> cases he

theorem proper_directory (nodup : (entries.map (·.1)).Nodup)
    (proper : ∀ x ∈ entries, Path.IsName x.1 ∧ x.2.Proper) : (directory entries).Proper := by
  intro names entries' he
  cases names with
  | nil =>
    cases he
    exact ⟨nodup, fun x hx => (proper x hx).1⟩
  | cons name names =>
    rw [at?_cons] at he
    obtain ⟨child, hc, he⟩ := Option.bind_eq_some_iff.mp he
    obtain ⟨x, hx, rfl⟩ := Option.map_eq_some_iff.mp hc
    exact (proper x (List.mem_of_find?_eq_some hx)).2 names entries' he

theorem Proper.at? {x : List String} (h : e.Proper) {e' : Entry} (he : e.at? x = some e') :
    e'.Proper := fun names entries he' =>
  h (x ++ names) entries (by rw [at?_append, he, Option.bind_some, he'])

theorem Proper.child (h : (directory entries).Proper) {x : String × Entry} (hx : x ∈ entries) :
    Path.IsName x.1 ∧ x.2.Proper := by
  obtain ⟨nodup, named⟩ := h [] entries rfl
  refine ⟨named x hx, h.at? (x := [x.1]) ?_⟩
  rw [at?_cons, named?_of_mem nodup (e := x.2) hx]
  rfl

end Entry

namespace Discovery

variable {d : Disk} {root : Path} {found : List Path} {e : Entry} {entries : List (String × Entry)}

/-- What leads to a directory of a disk leads to one of the tree that the search sees there. -/
theorem leadsTo_ofEntry (h : e.Proper) {names : List RawText} {ts : List (RawText × Tree)}
    (hl : Tree.LeadsTo (.ofEntry e) names ts) :
    ∃ ns es, names = ns.map .text ∧ (∀ n ∈ ns, Path.IsName n) ∧ ts = Tree.ofEntries es ∧
      e.at? ns = some (.directory es) := by
  induction e using Entry.induct generalizing names ts with
  | file | store => cases hl
  | directory es ih =>
    rw [Tree.ofEntry] at hl
    cases hl with
    | here => exact ⟨[], es, rfl, by simp, rfl, rfl⟩
    | @into _ _ name t names hx leads =>
      rw [Tree.ofEntries_eq, List.mem_map] at hx
      obtain ⟨x, hx, same⟩ := hx
      obtain ⟨rfl, rfl⟩ := Prod.mk.inj same
      obtain ⟨named, proper⟩ := h.child hx
      obtain ⟨ns, es', rfl, hns, rfl, he⟩ := ih x hx proper leads
      refine ⟨x.1 :: ns, es', rfl, List.forall_mem_cons.mpr ⟨named, hns⟩, rfl, ?_⟩
      rw [Entry.at?_cons, Entry.named?_of_mem h.distinct.here (e := x.2) hx, Option.bind_some, he]

theorem distinct_ofEntry (h : e.Proper) : (Tree.ofEntry e).Distinct := by
  intro names ts hl
  obtain ⟨ns, es, -, -, rfl, he⟩ := leadsTo_ofEntry h hl
  have nodup := (h ns es he).1.map fun _ _ => RawText.text.inj
  rw [List.map_map] at nodup
  rw [Tree.ofEntries_eq, List.map_map]
  exact nodup

theorem toPath?_below (root : Path) (ns : List String) :
    ((RawPath.ofPath root).below (ns.map .text)).toPath? = some (ns.foldl Path.child root) := by
  have texts : (ns.map RawText.text).mapM RawText.text? = some ns := by
    induction ns with
    | nil => rfl
    | cons n ns ih => simp [ih, RawText.text?]
  simp [RawPath.toPath?, RawPath.below, RawPath.ofPath, RawText.text?, texts]

/-- What is found on a disk is what the search finds in the tree at the root, as texts. -/
theorem discover_names (hd : d.root.Proper) (h : d.entry root = .ok (.directory entries)) :
    ∃ nss : List (List String), (∀ ns ∈ nss, ∀ n ∈ ns, Path.IsName n) ∧
      search (.ofPath root) (.ofEntry (.directory entries)) =
        nss.map (fun ns => (RawPath.ofPath root).below (ns.map .text)) ∧
      discover d root = .ok (nss.map fun ns => ns.foldl Path.child root) := by
  obtain ⟨x, -, he⟩ := entry_eq_ok.mp h
  have proper := hd.at? he
  have texts (ps : List RawPath)
      (hps : ∀ p ∈ ps, p ∈ search (.ofPath root) (.ofEntry (.directory entries))) :
      ∃ nss : List (List String), (∀ ns ∈ nss, ∀ n ∈ ns, Path.IsName n) ∧
        ps = nss.map fun ns => (RawPath.ofPath root).below (ns.map .text) := by
    induction ps with
    | nil => exact ⟨[], by simp, rfl⟩
    | cons p ps ih =>
      obtain ⟨first, rest⟩ := List.forall_mem_cons.mp hps
      obtain ⟨names, ts, leads, -, -, rfl, -⟩ := (mem_sourceDirs_iff _ _).mp (mem_search.mp first)
      obtain ⟨ns, es, rfl, hns, -, -⟩ := leadsTo_ofEntry proper leads
      obtain ⟨nss, hnss, rfl⟩ := ih rest
      exact ⟨ns :: nss, List.forall_mem_cons.mpr ⟨hns, hnss⟩, rfl⟩
  obtain ⟨nss, hnss, same⟩ := texts _ fun _ hp => hp
  refine ⟨nss, hnss, same, ?_⟩
  rw [discover_directory h, same, List.filterMap_map]
  simp [toPath?_below]

/-- What is found ascends by components, so nothing is found twice. -/
theorem discover_ascends (hd : d.root.Proper) (h : discover d root = .ok found) :
    found.Pairwise fun p q => p.compare q = .lt := by
  obtain ⟨x, entries, hx, he⟩ := discover_ok h
  obtain ⟨nss, hnss, same, names⟩ := discover_names hd (entry_eq_ok.mpr ⟨x, hx, he⟩)
  obtain rfl := Except.ok.inj (h.symm.trans names)
  have ascends := search_ascends (.ofPath root) (distinct_ofEntry (hd.at? he))
  rw [same, List.pairwise_map] at ascends
  refine List.pairwise_map.mpr (ascends.imp_of_mem fun {ns ms} hns hms less => ?_)
  rw [Path.compare, Path.components_foldl_child root (hnss ns hns),
    Path.components_foldl_child root (hnss ms hms), Path.compareComponents_append,
    Path.compareComponents_names]
  simpa [RawPath.compare, RawPath.below, RawPath.ofPath, Function.comp_def, RawText.toBytes]
    using less

/-- No directory is found twice. -/
theorem discover_apart (hd : d.root.Proper) (h : discover d root = .ok found) :
    found.Pairwise fun a b => a.same b = false := by
  refine (discover_ascends hd h).imp fun {p q} less => ?_
  unfold Path.compare at less
  simp only [Path.same, decide_eq_false_iff_not]
  intro same
  rw [same, @Std.ReflCmp.compare_self _ Path.compareComponents] at less
  cases less

end Discovery
end AccessDepth
