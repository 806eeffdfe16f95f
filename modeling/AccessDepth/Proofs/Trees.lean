import AccessDepth.Proofs.Paths
import AccessDepth.Run.Discovery
import Mathlib.Data.List.Sort

/-!
# AccessDepth.Proofs.Trees

What the search finds in a tree.

* `Discovery.Tree.LeadsTo` — names that lead from a tree down to a directory.
* `Discovery.mem_sourceDirs_iff` — the directories that are found.
* `Discovery.search_ascends` — nothing is found twice, and what is found ascends.
* `Discovery.Tree.Relisted` — a tree that differs in nothing but the order in which entries are
  listed. `Discovery.search_of_relisted`: what is found is the same.
-/

namespace AccessDepth

theorem RawText.toBytes_inj {a b : RawText} (h : a.toBytes = b.toBytes) : a = b := by
  have valid {s : String} {bs : List UInt8} (h : Path.utf8 s = bs) : bs.toByteArray.IsValidUTF8 := by
    have same : bs.toByteArray = s.toByteArray := ByteArray.ext (by simp [← h, Path.utf8])
    rw [same]
    exact s.isValidUTF8
  cases a with
  | text s =>
    cases b with
    | text t => rw [Path.utf8_inj h]
    | bytes bs invalid => exact absurd (valid h) invalid
  | bytes bs invalid =>
    cases b with
    | text t => exact absurd (valid h.symm) invalid
    | bytes bs' invalid' =>
      cases h
      rfl

namespace RawPath

variable {p q r : RawPath}

def below (p : RawPath) (names : List RawText) : RawPath := { p with names := p.names ++ names }

theorem below_nil (p : RawPath) : p.below [] = p := by simp [below]

theorem below_child (p : RawPath) (name : RawText) (names : List RawText) :
    (p.child name).below names = p.below (name :: names) := by simp [below, child]

theorem below_inj {names names' : List RawText} : p.below names = p.below names' ↔ names = names' := by
  simp [below]

theorem length_le_joinBytes (path name : List UInt8) : path.length ≤ (joinBytes path name).length := by
  unfold joinBytes
  split <;> simp

theorem length_toBytes_le (p : RawPath) (names : List RawText) :
    p.toBytes.length ≤ (p.below names).toBytes.length := by
  unfold toBytes below
  rw [List.foldl_append]
  generalize p.names.foldl (fun path name => joinBytes path name.toBytes) p.start.toBytes = bytes
  induction names generalizing bytes with
  | nil => exact Nat.le_refl _
  | cons name names ih => exact (length_le_joinBytes bytes name.toBytes).trans (ih _)

instance : Std.TransCmp compare :=
  inferInstanceAs (Std.TransCmp (compareOn fun p : RawPath => p.names.map RawText.toBytes))

theorem notAfter_trans (h : p.notAfter q = true) (h' : q.notAfter r = true) :
    p.notAfter r = true := Std.TransCmp.isLE_trans h h'

theorem notAfter_total (p q : RawPath) : (p.notAfter q || q.notAfter p) = true := by
  unfold notAfter
  rw [@Std.OrientedCmp.eq_swap _ compare _ q]
  cases p.compare q <;> rfl

theorem eq_of_compare (hs : p.start = q.start) (h : p.compare q = .eq) : p = q := by
  have names : p.names = q.names :=
    List.map_injective_iff.mpr (fun _ _ => RawText.toBytes_inj) (Std.LawfulEqOrd.eq_of_compare h)
  obtain ⟨start, ns⟩ := p
  cases hs
  cases names
  rfl

end RawPath

namespace Discovery
namespace Tree

variable {t t' : Tree} {ts ts' : List (RawText × Tree)} {names : List RawText} {name : RawText}

theorem induct {P : Tree → Prop} (closed : P .closed) (file : P .file) (special : P .special)
    (directory : ∀ ts, (∀ x ∈ ts, P x.2) → P (.directory ts)) : (t : Tree) → P t
  | .closed => closed
  | .file => file
  | .special => special
  | .directory ts => directory ts fun x _ => induct closed file special directory x.2
  termination_by t => t
  decreasing_by
    have smaller := List.sizeOf_lt_of_mem ‹x ∈ ts›
    obtain ⟨name, t⟩ := x
    simp only [Prod.mk.sizeOf_spec, Tree.directory.sizeOf_spec] at smaller ⊢
    omega

/-- Names that lead from a tree down to a directory, with what is in it. -/
inductive LeadsTo : Tree → List RawText → List (RawText × Tree) → Prop
  | here (ts : List (RawText × Tree)) : LeadsTo (.directory ts) [] ts
  | into {ts ts' : List (RawText × Tree)} {name : RawText} {t : Tree} {names : List RawText} :
    (name, t) ∈ ts → LeadsTo t names ts' → LeadsTo (.directory ts) (name :: names) ts'

/-- No directory lists a name twice. -/
def Distinct (t : Tree) : Prop := ∀ names ts, t.LeadsTo names ts → (ts.map (·.1)).Nodup

theorem Distinct.here (h : (directory ts).Distinct) : (ts.map (·.1)).Nodup := h [] ts (.here ts)

theorem Distinct.child (h : (directory ts).Distinct) (ht : (name, t) ∈ ts) : t.Distinct :=
  fun names ts' hl => h (name :: names) ts' (.into ht hl)

end Tree

open Discovery.Tree (LeadsTo Distinct)

variable {t t' : Tree} {ts ts' : List (RawText × Tree)} {names : List RawText} {p path : RawPath}

theorem fits_of_below (h : fits (path.below names) = true) : fits path = true := by
  simp only [fits, decide_eq_true_eq] at h ⊢
  exact (path.length_toBytes_le names).trans h

theorem sourceDirsIn_eq (path : RawPath) (ts : List (RawText × Tree)) :
    sourceDirsIn path ts = ts.flatMap fun e =>
      if isExcluded e.1 then [] else sourceDirs (path.child e.1) e.2 := by
  induction ts with
  | nil => rfl
  | cons x xs ih => rw [sourceDirsIn, ih, List.flatMap_cons]

theorem mem_sourceDirs_directory : p ∈ sourceDirs path (.directory ts) ↔
    fits path = true ∧ (holdsSource ts = true ∧ p = path ∨
      ∃ x ∈ ts, isExcluded x.1 = false ∧ p ∈ sourceDirs (path.child x.1) x.2) := by
  rw [sourceDirs]
  split
  · rename_i fit
    rw [List.mem_append, sourceDirsIn_eq, List.mem_flatMap]
    refine Iff.trans (or_congr ?_ ?_) (and_iff_right fit).symm
    · cases holdsSource ts <;> simp
    · refine exists_congr fun x => and_congr_right fun _ => ?_
      cases isExcluded x.1 <;> simp
  · exact iff_of_false List.not_mem_nil fun h => ‹¬fits path = true› h.1

/-- A directory is found if it holds a source, no name on the way to it is left out, and its path is
not too long. -/
theorem mem_sourceDirs_iff (path : RawPath) (t : Tree) : p ∈ sourceDirs path t ↔
    ∃ names ts, t.LeadsTo names ts ∧ (∀ name ∈ names, isExcluded name = false) ∧
      holdsSource ts = true ∧ p = path.below names ∧ fits p = true := by
  induction t using Tree.induct generalizing path with
  | closed | file | special =>
    refine iff_of_false (by rw [sourceDirs]; exact List.not_mem_nil) ?_
    rintro ⟨_, _, leads, -⟩
    cases leads
  | directory ts ih =>
    rw [mem_sourceDirs_directory]
    constructor
    · rintro ⟨fit, ⟨source, rfl⟩ | ⟨x, hx, allowed, hp⟩⟩
      · exact ⟨[], ts, .here ts, by simp, source, (RawPath.below_nil p).symm, fit⟩
      · obtain ⟨names, ts', leads, rest, source, rfl, fit'⟩ := (ih x hx _).mp hp
        exact ⟨x.1 :: names, ts', .into hx leads, List.forall_mem_cons.mpr ⟨allowed, rest⟩, source,
          path.below_child x.1 names, fit'⟩
    · rintro ⟨names, ts', leads, allowed, source, rfl, fit⟩
      refine ⟨fits_of_below fit, ?_⟩
      cases leads with
      | here => exact .inl ⟨source, path.below_nil⟩
      | @into _ _ name t names hx leads =>
        obtain ⟨first, rest⟩ := List.forall_mem_cons.mp allowed
        refine .inr ⟨(name, t), hx, first, (ih _ hx _).mpr ⟨names, ts', leads, rest, source, ?_, fit⟩⟩
        rw [path.below_child]

/-- No directory is listed twice. -/
theorem sourceDirs_nodup (path : RawPath) (t : Tree) (h : t.Distinct) :
    (sourceDirs path t).Nodup := by
  induction t using Tree.induct generalizing path with
  | closed | file | special =>
    rw [sourceDirs]
    exact .nil
  | directory ts ih =>
    have inside {x : RawText × Tree} {p : RawPath}
        (hp : p ∈ if isExcluded x.1 then [] else sourceDirs (path.child x.1) x.2) :
        ∃ names, p = path.below (x.1 :: names) := by
      split at hp
      · cases hp
      · obtain ⟨names, _, _, _, _, rfl, _⟩ := (mem_sourceDirs_iff _ _).mp hp
        exact ⟨names, path.below_child x.1 names⟩
    rw [sourceDirs, sourceDirsIn_eq]
    split
    · refine List.nodup_append.mpr ⟨?_, List.nodup_flatMap.mpr ⟨fun x hx => ?_, ?_⟩, ?_⟩
      · split
        · exact List.nodup_singleton _
        · exact .nil
      · split
        · exact .nil
        · exact ih x hx _ (h.child hx)
      · refine (List.pairwise_map.mp h.here).imp fun {x y} differ p hp hq => ?_
        obtain ⟨names, rfl⟩ := inside hp
        obtain ⟨names', same⟩ := inside hq
        exact differ (List.cons.inj (RawPath.below_inj.mp same)).1
      · rintro p hp q hq rfl
        obtain ⟨x, -, hq⟩ := List.mem_flatMap.mp hq
        obtain ⟨names, same⟩ := inside hq
        split at hp
        · exact absurd (RawPath.below_inj.mp (path.below_nil.trans
            ((List.mem_singleton.mp hp).symm.trans same))) (by simp)
        · cases hp
    · exact .nil

theorem mem_search : p ∈ search path t ↔ p ∈ sourceDirs path t := List.mem_mergeSort

/-- What is found ascends, so nothing is found twice. -/
theorem search_ascends (path : RawPath) (h : t.Distinct) :
    (search path t).Pairwise fun p q => p.compare q = .lt := by
  have sorted := @List.pairwise_mergeSort _ RawPath.notAfter
    (fun _ _ _ => RawPath.notAfter_trans) RawPath.notAfter_total (sourceDirs path t)
  have nodup := (List.mergeSort_perm (sourceDirs path t) RawPath.notAfter).nodup_iff.mpr
    (sourceDirs_nodup path t h)
  have start {p : RawPath} (hp : p ∈ search path t) : p.start = path.start := by
    obtain ⟨_, _, _, _, _, rfl, _⟩ := (mem_sourceDirs_iff path t).mp (mem_search.mp hp)
    rfl
  refine (sorted.and nodup).imp_of_mem fun {p q} hp hq ⟨ordered, differ⟩ => ?_
  unfold RawPath.notAfter at ordered
  cases hc : p.compare q with
  | lt => rfl
  | eq => exact absurd (RawPath.eq_of_compare ((start hp).trans (start hq).symm) hc) differ
  | gt =>
    rw [hc] at ordered
    cases ordered

theorem eq_of_ascending {ps qs : List RawPath} (hp : ps.Pairwise fun p q => p.compare q = .lt)
    (hq : qs.Pairwise fun p q => p.compare q = .lt) (h : ∀ p, p ∈ ps ↔ p ∈ qs) : ps = qs := by
  let before (p q : RawPath) : Prop := p.compare q = .lt
  have : Std.Irrefl before := ⟨fun p hp => by
    have same : p.compare p = .eq := Std.ReflCmp.compare_self
    cases hp.symm.trans same⟩
  have : Std.Antisymm before := ⟨fun p q hp hq => by
    have turned : p.compare q = (q.compare p).swap := Std.OrientedCmp.eq_swap
    rw [hp, hq] at turned
    cases turned⟩
  exact hp.eq_of_mem_iff (r := before) hq h

/-! ## Listings -/

namespace Tree

/-- The same tree in another listing: entries of a directory, at the top or further down, stand in
another order. -/
inductive Relisted : Tree → Tree → Prop
  | refl (t : Tree) : Relisted t t
  | order {ts ts' : List (RawText × Tree)} : ts.Perm ts' → Relisted (.directory ts) (.directory ts')
  | inside {before after : List (RawText × Tree)} {name : RawText} {t t' : Tree} :
    Relisted t t' → Relisted (.directory (before ++ (name, t) :: after))
      (.directory (before ++ (name, t') :: after))
  | trans {t t' t'' : Tree} : Relisted t t' → Relisted t' t'' → Relisted t t''

theorem Relisted.symm (h : Relisted t t') : Relisted t' t := by
  induction h with
  | refl => exact .refl _
  | order hp => exact .order hp.symm
  | inside _ ih => exact .inside ih
  | trans _ _ ih ih' => exact ih'.trans ih

theorem Relisted.isFile_eq (h : Relisted t t') : t'.isFile = t.isFile := by
  induction h with
  | refl | order | inside => rfl
  | trans _ _ ih ih' => exact ih'.trans ih

def listing (ts : List (RawText × Tree)) : List (RawText × Bool) := ts.map fun x => (x.1, x.2.isFile)

theorem holdsSource_eq_listing (ts : List (RawText × Tree)) : holdsSource ts =
    (listing ts).any fun x => x.2 && x.1.extension? == some (Path.utf8 sourceExtension) := by
  simp [holdsSource, isSource, listing, Function.comp_def]

/-- The same names lead to directories in which the same is listed. -/
theorem Relisted.leadsTo (h : Relisted t t') (hl : t.LeadsTo names ts) :
    ∃ ts', t'.LeadsTo names ts' ∧ (listing ts).Perm (listing ts') := by
  induction h generalizing names ts with
  | refl => exact ⟨ts, hl, .refl _⟩
  | order hp =>
    cases hl with
    | here => exact ⟨_, .here _, hp.map _⟩
    | into hx leads => exact ⟨ts, .into (hp.subset hx) leads, .refl _⟩
  | @inside before after name t t' same ih =>
    cases hl with
    | here => exact ⟨_, .here _, by simp [listing, same.isFile_eq]⟩
    | @into _ _ n u names hx leads =>
      simp only [List.mem_append, List.mem_cons, Prod.mk.injEq] at hx
      obtain hx | ⟨rfl, rfl⟩ | hx := hx
      · exact ⟨ts, .into (by simp [hx]) leads, .refl _⟩
      · obtain ⟨ts', leads', listed⟩ := ih leads
        exact ⟨ts', .into (by simp) leads', listed⟩
      · exact ⟨ts, .into (by simp [hx]) leads, .refl _⟩
  | trans _ _ ih ih' =>
    obtain ⟨ts', leads', first⟩ := ih hl
    obtain ⟨ts'', leads'', second⟩ := ih' leads'
    exact ⟨ts'', leads'', first.trans second⟩

theorem Relisted.distinct (h : Relisted t t') (hd : t.Distinct) : t'.Distinct := by
  intro names ts' leads'
  obtain ⟨ts, leads, listed⟩ := h.symm.leadsTo leads'
  have names := listed.map Prod.fst
  rw [listing, listing, List.map_map, List.map_map] at names
  exact names.nodup_iff.mpr (hd _ ts leads)

end Tree

open Discovery.Tree (Relisted)

theorem mem_sourceDirs_of_relisted (h : Relisted t t') (hp : p ∈ sourceDirs path t) :
    p ∈ sourceDirs path t' := by
  obtain ⟨names, ts, leads, allowed, source, there⟩ := (mem_sourceDirs_iff path t).mp hp
  obtain ⟨ts', leads', listed⟩ := h.leadsTo leads
  refine (mem_sourceDirs_iff path t').mpr ⟨names, ts', leads', allowed, ?_, there⟩
  rwa [Tree.holdsSource_eq_listing, ← listed.any_eq, ← Tree.holdsSource_eq_listing]

/-- The order in which entries are listed does not matter to what is found. -/
theorem search_of_relisted (path : RawPath) (hd : t.Distinct) (h : Relisted t t') :
    search path t' = search path t := by
  refine eq_of_ascending (search_ascends path (h.distinct hd)) (search_ascends path hd) fun p => ?_
  rw [mem_search, mem_search]
  exact ⟨mem_sourceDirs_of_relisted h.symm, mem_sourceDirs_of_relisted h⟩

end Discovery
end AccessDepth
