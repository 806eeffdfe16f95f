import AccessDepth.Proofs.Discovery
import Mathlib.Data.List.TakeDrop
import Mathlib.Data.List.TakeWhile

/-!
# AccessDepth.Proofs.SourceDirectories

Which directories of a tree are found, and in which order.

* `RawText.extension?_eq_some_iff` — the extension of a file name.
* `Discovery.Excluded`, `Discovery.IsSourceName` — the names that are left out, and those of sources.
* `Discovery.IsSourceDir` — a directory that can be read and directly holds a source, with no name on
  the way to it that is left out.
* `Discovery.discover_exact` — these are the directories that are found, however a tree is listed, and
  in which order.
* `Discovery.search_unexpected` — a name that is no text is never left out, and a directory whose path
  is too long is never found.
-/

namespace AccessDepth

/-- The extension of a file name follows its last dot, before which there is something. -/
theorem RawText.extension?_eq_some_iff {name : RawText} {extension : List UInt8} :
    name.extension? = some extension ↔ '.'.toUInt8 ∉ extension ∧
      ∃ stem, stem ≠ [] ∧ name.toBytes = stem ++ '.'.toUInt8 :: extension := by
  unfold extension?
  generalize name.toBytes = bytes
  rw [List.span_eq_takeWhile_dropWhile]
  constructor
  · intro h
    have parts := List.takeWhile_append_dropWhile (p := (· ≠ '.'.toUInt8)) (l := bytes.reverse)
    have before : ∀ b ∈ bytes.reverse.takeWhile (· ≠ '.'.toUInt8), b ≠ '.'.toUInt8 := fun b hb => by
      simpa using List.mem_takeWhile_imp hb
    have first := List.head?_dropWhile_not (· ≠ '.'.toUInt8) bytes.reverse
    split at h
    · rename_i after dot b rest heq
      obtain ⟨hs, hr⟩ := Prod.mk.inj heq
      rw [hs, hr] at parts
      rw [hs] at before
      rw [hr] at first
      obtain rfl : dot = '.'.toUInt8 := by simpa using first
      cases h
      refine ⟨fun dot => before _ (List.mem_reverse.mp dot) rfl, (b :: rest).reverse, by simp, ?_⟩
      have whole := congrArg List.reverse parts
      rw [List.reverse_reverse] at whole
      simp [← whole]
    · cases h
  · rintro ⟨plain, stem, hne, rfl⟩
    have span : (stem ++ '.'.toUInt8 :: extension).reverse =
        extension.reverse ++ '.'.toUInt8 :: stem.reverse := by simp
    obtain ⟨b, rest, hstem⟩ := List.exists_cons_of_ne_nil (l := stem.reverse) (by simpa)
    have passed : ∀ b ∈ extension.reverse, decide (b ≠ '.'.toUInt8) = true := by
      intro b hb
      rw [decide_eq_true_iff]
      rintro rfl
      exact plain (List.mem_reverse.mp hb)
    rw [span, List.takeWhile_append_of_pos passed, List.dropWhile_append_of_pos passed, hstem]
    simp

namespace Discovery

open Discovery.Tree (Relisted)

/-- A directory of this name is left out with everything below it. -/
def Excluded (name : RawText) : Prop :=
  ∃ text, name = .text text ∧
    (text ∈ excludedNames ∨ (∃ start, text = start ++ "_test") ∨ ∃ rest, text = "." ++ rest)

/-- A file of this name is a source. -/
def IsSourceName (name : RawText) : Prop :=
  ∃ stem, stem ≠ [] ∧ name.toBytes = stem ++ Path.utf8 ".go"

theorem isExcludedText_iff {text : String} : isExcludedText text = true ↔
    text ∈ excludedNames ∨ (∃ start, text = start ++ "_test") ∨ ∃ rest, text = "." ++ rest := by
  have ends : "_test".toList <:+ text.toList ↔ ∃ start, text = start ++ "_test" := by
    constructor
    · rintro ⟨start, h⟩
      exact ⟨String.ofList start, String.toList_inj.mp (by simpa using h.symm)⟩
    · rintro ⟨start, rfl⟩
      exact ⟨start.toList, by simp⟩
  have begins : ".".toList <+: text.toList ↔ ∃ rest, text = "." ++ rest := by
    constructor
    · rintro ⟨rest, h⟩
      exact ⟨String.ofList rest, String.toList_inj.mp (by simpa using h.symm)⟩
    · rintro ⟨rest, rfl⟩
      exact ⟨rest.toList, by simp⟩
  simp only [isExcludedText, Bool.or_eq_true, List.contains_iff_mem,
    List.isSuffixOf_iff_suffix, List.isPrefixOf_iff_prefix, ends, begins, or_assoc]

theorem isExcluded_iff {name : RawText} : isExcluded name = true ↔ Excluded name := by
  cases name with
  | text text => simp [isExcluded, RawText.text?, Excluded, isExcludedText_iff]
  | bytes bs invalid => simp [isExcluded, RawText.text?, Excluded]

theorem isSource_iff {name : RawText} {t : Tree} :
    isSource name t = true ↔ t = .file ∧ IsSourceName name := by
  have go : Path.utf8 ".go" = '.'.toUInt8 :: Path.utf8 sourceExtension := by decide
  have plain : '.'.toUInt8 ∉ Path.utf8 sourceExtension := by decide
  have file : t.isFile = true ↔ t = .file := by cases t <;> simp [Tree.isFile]
  rw [isSource, Bool.and_eq_true, beq_iff_eq, RawText.extension?_eq_some_iff, file,
    and_iff_right plain, IsSourceName, go]

/-- A directory of a tree, which a path leads to: it can be read and directly holds a regular file that
is a source, and no name below the root on the way to it is left out. -/
def IsSourceDir (tree : Tree) (root p : RawPath) : Prop :=
  ∃ names ts, tree.LeadsTo names ts ∧ (∀ name ∈ names, ¬ Excluded name) ∧
    (∃ x ∈ ts, x.2 = .file ∧ IsSourceName x.1) ∧
    p = root.below names ∧ p.toBytes.length ≤ Disk.pathLimit

variable {tree tree' : Tree} {root p : RawPath}

theorem mem_search_iff (root : RawPath) (tree : Tree) :
    p ∈ search root tree ↔ IsSourceDir tree root p := by
  rw [mem_search, mem_sourceDirs_iff]
  simp only [IsSourceDir, ← isExcluded_iff, Bool.not_eq_true, holdsSource, List.any_eq_true,
    isSource_iff, fits, decide_eq_true_eq]

/-- What the search finds in a tree in which no directory lists a name twice: its source directories,
each once, ascending by their components, and the same ones in whatever order entries are listed. What
is found on a disk is what the search finds in the tree at its root, as texts. -/
theorem discover_exact (distinct : tree.Distinct) (root : RawPath) :
    (search root tree).Pairwise (fun p q => p.compare q = .lt) ∧
      (∀ p, p ∈ search root tree ↔ IsSourceDir tree root p) ∧
      (∀ tree', Relisted tree tree' → search root tree' = search root tree) ∧
      ∀ d path entries, d.root.Proper → d.entry path = .ok (.directory entries) →
        root = .ofPath path → tree = .ofEntry (.directory entries) →
        ∃ found, discover d path = .ok found ∧
          (search root tree).map RawPath.toPath? = found.map some ∧
          found.Pairwise fun p q => p.compare q = .lt := by
  refine ⟨search_ascends root distinct, fun p => mem_search_iff root tree,
    fun tree' listed => search_of_relisted root distinct listed, ?_⟩
  rintro d path entries proper there rfl rfl
  obtain ⟨nss, -, same, found⟩ := discover_names proper there
  refine ⟨_, found, ?_, discover_ascends proper found⟩
  rw [same, List.map_map, List.map_map]
  exact List.map_congr_left fun ns _ => toPath?_below path ns

/-- Directories whose order by components is not that of their texts, and one that is left out. -/
def sampleEntries : List (String × Entry) :=
  [("a-b", .directory [("x.go", .file .empty)]),
    ("a", .directory [("b", .directory [("y.go", .file .empty)])]),
    ("a_test", .directory [("c", .directory [("z.go", .file .empty)])])]

/-- The tree that they make. -/
def sampleTree : Tree :=
  .directory [(.text "a-b", .directory [(.text "x.go", .file)]),
    (.text "a", .directory [(.text "b", .directory [(.text "y.go", .file)])]),
    (.text "a_test", .directory [(.text "c", .directory [(.text "z.go", .file)])])]

/-- A disk with one directory, the name of which would be left out below another one. -/
def sampleDisk : Disk := ⟨.directory [("vendor", .directory sampleEntries)], []⟩

theorem sampleDisk_proper : sampleDisk.root.Proper := by
  have names : ∀ name ∈ ["vendor", "a-b", "x.go", "a", "b", "y.go", "a_test", "c", "z.go"],
      Path.IsName name := by
    unfold Path.IsName
    decide
  have single {name : String} {e : Entry} (hn : Path.IsName name) (he : e.Proper) :
      (Entry.directory [(name, e)]).Proper :=
    Entry.proper_directory (by simp) fun x hx => by
      rw [List.mem_singleton.mp hx]
      exact ⟨hn, he⟩
  refine single (names _ (by simp)) (Entry.proper_directory (by decide) fun x hx => ?_)
  simp only [sampleEntries, List.mem_cons, List.not_mem_nil, or_false] at hx
  obtain rfl | rfl | rfl := hx
  · exact ⟨names _ (by simp), single (names _ (by simp)) (Entry.proper_file _)⟩
  · exact ⟨names _ (by simp), single (names _ (by simp)) (single (names _ (by simp))
      (Entry.proper_file _))⟩
  · exact ⟨names _ (by simp), single (names _ (by simp)) (single (names _ (by simp))
      (Entry.proper_file _))⟩

/-- Both directories with sources are found below a root called `vendor`, in the order of their
components, whether the one is listed first or the other. -/
theorem discover_sample_exact :
    sampleTree.Distinct ∧ sampleDisk.root.Proper ∧
      sampleDisk.entry ⟨"vendor"⟩ = .ok (.directory sampleEntries) ∧
      ∃ found, discover sampleDisk ⟨"vendor"⟩ = .ok found ∧
        found.Pairwise (fun p q => p.compare q = .lt) ∧
        ⟨"vendor/a-b"⟩ ∈ found ∧ ⟨"vendor/a/b"⟩ ∈ found ∧
        (search (.ofPath ⟨"vendor"⟩) (.ofEntry (.directory sampleEntries.reverse))).map
          RawPath.toPath? = found.map some := by
  have there : sampleDisk.entry ⟨"vendor"⟩ = .ok (.directory sampleEntries) := rfl
  obtain ⟨x, -, he⟩ := entry_eq_ok.mp there
  have distinct : sampleTree.Distinct := distinct_ofEntry (sampleDisk_proper.at? he)
  obtain ⟨-, own, relisted, onDisk⟩ := discover_exact distinct (.ofPath ⟨"vendor"⟩)
  obtain ⟨found, hf, texts, ascends⟩ := onDisk _ _ _ sampleDisk_proper there rfl rfl
  have turned : Relisted sampleTree (.ofEntry (.directory sampleEntries.reverse)) :=
    .order (List.reverse_perm [_, _, _]).symm
  have text (ns : List String)
      (hp : IsSourceDir sampleTree (.ofPath ⟨"vendor"⟩)
        ((RawPath.ofPath ⟨"vendor"⟩).below (ns.map .text))) :
      ns.foldl Path.child ⟨"vendor"⟩ ∈ found := by
    have mem := List.mem_map_of_mem (f := RawPath.toPath?) ((own _).mpr hp)
    rw [texts, toPath?_below] at mem
    simpa using mem
  have allowed {name : String} (h : isExcluded (.text name) = false) : ¬ Excluded (.text name) :=
    fun hn => by
      rw [isExcluded_iff.mpr hn] at h
      cases h
  have first : sampleTree.LeadsTo [.text "a-b"] [(.text "x.go", .file)] :=
    .into (t := .directory [(.text "x.go", .file)]) (by simp) (.here _)
  have second : sampleTree.LeadsTo [.text "a", .text "b"] [(.text "y.go", .file)] :=
    .into (t := .directory [(.text "b", .directory [(.text "y.go", .file)])]) (by simp)
      (.into (t := .directory [(.text "y.go", .file)]) (by simp) (.here _))
  refine ⟨distinct, sampleDisk_proper, there, found, hf, ascends, ?_, ?_, ?_⟩
  · exact text ["a-b"] ⟨_, _, first, by simpa using allowed (by decide),
      ⟨_, List.mem_singleton_self _, rfl, Path.utf8 "x", by decide, by decide⟩, rfl, by decide⟩
  · exact text ["a", "b"] ⟨_, _, second, by simpa using ⟨allowed (by decide), allowed (by decide)⟩,
      ⟨_, List.mem_singleton_self _, rfl, Path.utf8 "y", by decide, by decide⟩, rfl, by decide⟩
  · rw [relisted _ turned, texts]

/-! ## Names that are no texts, and long paths -/

/-- What the name of a directory that is left out reads like, also if it is no text. -/
def ReadsExcluded (name : RawText) : Prop :=
  name.toBytes ∈ excludedNames.map Path.utf8 ∨
    Path.utf8 "_test" <:+ name.toBytes ∨ Path.utf8 "." <+: name.toBytes

/-- A directory of a tree that directly holds a source, with no name on the way to it that reads as if
it were left out, whether its path can be read or not. -/
def ReadsSourceDir (tree : Tree) (root p : RawPath) : Prop :=
  ∃ names ts, tree.LeadsTo names ts ∧ (∀ name ∈ names, ¬ ReadsExcluded name) ∧
    (∃ x ∈ ts, x.2 = .file ∧ IsSourceName x.1) ∧ p = root.below names

/-- A name that begins with a dot and is no text. -/
def oddName : RawText := .bytes [0x2E, 0xFF] (by decide)

def longText : List Char := (List.replicate 1950 ['.', '/']).flatten ++ "corpus".toList

def longRoot : Path := ⟨String.ofList longText⟩

def longName : RawText := .text (String.ofList (List.replicate 200 'a'))

/-- A tree of one directory in another one. -/
def nested (name : RawText) : Tree := .directory [(name, .directory [(.text "x.go", .file)])]

theorem nested_leadsTo (name : RawText) : (nested name).LeadsTo [name] [(.text "x.go", .file)] :=
  .into (List.mem_singleton_self _) (.here _)

theorem nested_distinct (name : RawText) : (nested name).Distinct := by
  intro names ts leads
  cases leads with
  | here => exact List.nodup_singleton _
  | into hx leads =>
    cases List.mem_singleton.mp hx
    cases leads with
    | here => exact List.nodup_singleton _
    | into hx leads =>
      cases List.mem_singleton.mp hx
      cases leads

theorem isSourceName_x : IsSourceName (.text "x.go") := ⟨Path.utf8 "x", by decide, by decide⟩

theorem length_below_ofPath (p : Path) (name : RawText) :
    (Path.utf8 p.text).length + name.toBytes.length ≤
      ((RawPath.ofPath p).below [name]).toBytes.length := by
  have joined : ((RawPath.ofPath p).below [name]).toBytes =
      RawPath.joinBytes (Path.utf8 p.text) name.toBytes := rfl
  rw [joined, RawPath.joinBytes]
  split <;> simp

theorem longRoot_below_long :
    Disk.pathLimit < ((RawPath.ofPath longRoot).below [longName]).toBytes.length := by
  have ascii : (['.', '/'] ++ "corpus".toList).all (·.utf8Size == 1) = true := by decide
  have own : ∀ c ∈ longText, c.utf8Size = 1 := by
    intro c hc
    refine beq_iff_eq.mp (List.all_eq_true.mp ascii c ?_)
    rw [longText, List.mem_append, List.mem_flatten] at hc
    rcases hc with ⟨l, hl, hc⟩ | hc
    · cases List.eq_of_mem_replicate hl
      exact List.mem_append_left _ hc
    · exact List.mem_append_right _ hc
  have size : longText.length = 3906 := by
    rw [longText, List.length_append, List.length_flatten, List.map_replicate,
      List.sum_replicate_nat]
    rfl
  have root : (Path.utf8 longRoot.text).length = longText.length := Path.length_utf8_ofList own
  have name : longName.toBytes.length = 200 := by
    rw [longName, RawText.toBytes, Path.length_utf8_ofList, List.length_replicate]
    rintro c hc
    rw [List.eq_of_mem_replicate hc]
    decide
  have sum := length_below_ofPath longRoot longName
  unfold Disk.pathLimit
  omega

/-- Below one root a directory is found whose name begins with a dot, and below another one a directory
is not found whose name nothing is wrong with. -/
theorem search_unexpected :
    (nested oddName).Distinct ∧ (nested longName).Distinct ∧
      (RawPath.ofPath ⟨"corpus"⟩).below [oddName] ∈ search (.ofPath ⟨"corpus"⟩) (nested oddName) ∧
      ¬ ReadsSourceDir (nested oddName) (.ofPath ⟨"corpus"⟩)
        ((RawPath.ofPath ⟨"corpus"⟩).below [oddName]) ∧
      ReadsSourceDir (nested longName) (.ofPath longRoot)
        ((RawPath.ofPath longRoot).below [longName]) ∧
      (RawPath.ofPath longRoot).below [longName] ∉
        search (.ofPath longRoot) (nested longName) := by
  refine ⟨nested_distinct _, nested_distinct _, ?_, ?_, ?_, ?_⟩
  · refine (mem_search_iff _ _).mpr ⟨_, _, nested_leadsTo oddName, ?_, ⟨_, List.mem_singleton_self _, rfl,
      isSourceName_x⟩, rfl, by decide⟩
    rintro name hn ⟨text, same, -⟩
    cases List.mem_singleton.mp hn
    cases same
  · rintro ⟨names, ts, -, allowed, -, same⟩
    cases RawPath.below_inj.mp same
    exact allowed oddName (List.mem_singleton_self _) (.inr (.inr (by decide)))
  · refine ⟨_, _, nested_leadsTo longName, ?_, ⟨_, List.mem_singleton_self _, rfl, isSourceName_x⟩, rfl⟩
    rintro name hn
    cases List.mem_singleton.mp hn
    unfold ReadsExcluded
    decide +kernel
  · rw [mem_search_iff]
    rintro ⟨names, ts, -, -, -, -, fits⟩
    exact absurd longRoot_below_long (Nat.not_lt.mpr fits)

end Discovery
end AccessDepth
