import AccessDepth.Proofs.DepthPass
import AccessDepth.Proofs.Plan.Orders

/-!
# AccessDepth.Proofs.Corpus

Passes over a corpus whose packages agree.

* `Corpus` — directories, and the packages that each of them exports.
* `Corpus.Agrees` — types of one name are alike, no reference leads out of a type table, no file is
  exported by two directories, and equal paths are spelled the same.
* `Corpus.Pass` — one pass over some directories.
* `Corpus.Agrees.orders` — a pass in two orders.
* `Corpus.Agrees.content_perm` — the definitions and then the depths of some directories leave the
  same content in whichever orders.
-/

namespace AccessDepth

open Plan (AccessNote Op Visits Orders)

/-- Directories, and the packages that each of them exports. -/
structure Corpus where
  root : Path
  dirs : List Path
  packages : Path → List Package

namespace Corpus

variable {c : Corpus} {mode : Mode} {ds ds' es es' : List Path} {s s' t t' : Store}

def Exports (c : Corpus) (p : Package) : Prop := ∃ d ∈ c.dirs, p ∈ c.packages d

structure Agrees (c : Corpus) : Prop where
  /-- No entry of a type table refers to what is outside of it. -/
  closed : ∀ p, c.Exports p → p.types.Closed
  /-- Entries of one name have the same structure, with types of the same names. -/
  alike : EntriesAlike fun t => ∃ p, c.Exports p ∧ p.types = t
  /-- No file is exported by two directories. -/
  apart : ∀ d ∈ c.dirs, ∀ d' ∈ c.dirs, ∀ p ∈ c.packages d, ∀ p' ∈ c.packages d',
    ∀ f ∈ p.files, ∀ f' ∈ p'.files, f.path = f'.path → d = d'
  /-- Equal paths are spelled the same. -/
  spelled : SpelledAlike fun path => ∃ p, c.Exports p ∧ p.HasPath path

def code (c : Corpus) (visit : Mode × Path) : List Op :=
  (c.packages visit.2).flatMap (·.code c.root visit.1)

/-- A pass over directories of the corpus, one after the other. -/
structure Pass (c : Corpus) (mode : Mode) (ds : List Path) (s t : Store) : Prop where
  dirs : ds ⊆ c.dirs
  visits : Visits c.code (ds.map (mode, ·)) s t

theorem code_of {d : Path} {o : Op} (ho : o ∈ c.code (mode, d)) :
    ∃ p ∈ c.packages d, ∃ f ∈ p.files, o.Of p f.path mode.tables := by
  obtain ⟨p, hp, ho⟩ := List.mem_flatMap.mp ho
  obtain ⟨f, hf, ho⟩ := p.code_of c.root mode o ho
  exact ⟨p, hp, f, (List.mem_filter.mp hf).1, ho⟩

theorem table_ne_variables {d : Path} {o : Op} (ho : o ∈ c.code (.depth, d)) :
    o.table ≠ .variables := by
  obtain ⟨p, -, f, -, ho⟩ := code_of ho
  intro hv
  cases ho with
  | file | type => cases hv
  | @record a item _ ht =>
    have depths : item.table ∈ [Table.expressions, .statements] := ht
    rw [show item.table = .variables from hv] at depths
    simp at depths

namespace Agrees

variable (h : c.Agrees)
include h

theorem code_type {d : Path} (hd : d ∈ c.dirs) {table : TypeTable} {ref : Option TypeRef}
    (ho : .type table ref ∈ c.code (mode, d)) :
    (∃ p, c.Exports p ∧ p.types = table) ∧ table.Closed := by
  obtain ⟨p, hp, f, -, ho⟩ := code_of ho
  cases ho
  exact ⟨⟨p, ⟨d, hd, hp⟩, rfl⟩, h.closed p ⟨d, hd, hp⟩⟩

theorem apart_of_record {d d' : Path} (hd : d ∈ c.dirs) (hd' : d' ∈ c.dirs) {a a' : Plan.Around}
    {item item' : Plan.Item} (ho : .record a item ∈ c.code (mode, d))
    (ho' : .record a' item' ∈ c.code (mode, d')) (hp : a.path.text = a'.path.text) : d = d' := by
  obtain ⟨p, hpd, f, hf, ho⟩ := code_of ho
  obtain ⟨p', hpd', f', hf', ho'⟩ := code_of ho'
  have path : f.path = f'.path :=
    (Plan.of_record.mp ho).1.symm.trans ((congrArg Path.mk hp).trans (Plan.of_record.mp ho').1)
  exact h.apart d hd d' hd' p hpd p' hpd' f hf f' hf' path

/-- A pass in two orders, from two stores with the same places taken. -/
theorem orders (hm : mode = .defs ∨ mode = .depth) (hp : c.Pass mode ds s t)
    (hp' : c.Pass mode ds' s' t') (hds : ds.Perm ds') (hs : s.Sound) (hs' : s'.Sound)
    (hn : Store.initial ≤ s) (hn' : Store.initial ≤ s')
    (places : ∀ u ∈ Table.placed, u ∈ Store.namedTables → ∀ path place,
      s.Occupied u path place ↔ s'.Occupied u path place) :
    Orders c.code (ds.map (mode, ·)) (ds'.map (mode, ·)) s t s' t' where
  first := hp.visits
  second := hp'.visits
  sound := hs
  sound' := hs'
  new := hn
  new' := hn'
  places := places
  dirs d := (hds.map (mode, ·)).mem_iff
  closed x hx o ho := by
    obtain ⟨d, hd, rfl⟩ := List.mem_map.mp hx
    obtain ⟨p, hp', f, -, ho⟩ := code_of ho
    exact ho.closed (h.closed p ⟨d, hp.dirs hd, hp'⟩)
  named x hx a item ho := by
    obtain ⟨d, hd, rfl⟩ := List.mem_map.mp hx
    obtain ⟨p, -, f, -, ho⟩ := code_of ho
    have ht := (Plan.of_record.mp ho).2
    obtain rfl | rfl := hm
    · simp only [Mode.tables, Definitions.tables, List.mem_cons, List.not_mem_nil, or_false] at ht
      obtain ht | ht := ht <;> simp [ht, Store.namedTables]
    · simp only [Mode.tables, Depth.tables, List.mem_cons, List.not_mem_nil, or_false] at ht
      obtain ht | ht := ht <;> simp [ht, Store.namedTables]
  apart x hx x' hx' a item a' item' ho ho' hpath := by
    obtain ⟨d, hd, rfl⟩ := List.mem_map.mp hx
    obtain ⟨d', hd', rfl⟩ := List.mem_map.mp hx'
    rw [h.apart_of_record (hp.dirs hd) (hp.dirs hd') ho ho' hpath]
  separate x hx a item ho hi x' hx' o ho' hv := by
    obtain ⟨d, hd, rfl⟩ := List.mem_map.mp hx
    obtain ⟨d', hd', rfl⟩ := List.mem_map.mp hx'
    obtain ⟨p, -, f, -, ho⟩ := code_of ho
    have ht := (Plan.of_record.mp ho).2
    obtain rfl | rfl := hm
    · simp [Mode.tables, Definitions.tables, hi] at ht
    · exact table_ne_variables ho' hv

/-- What the definitions and then the depths of some directories leave in one order, they leave in
any other one. -/
theorem content_subset {u : Table} (hds : ds.Perm ds') (hes : es.Perm es')
    (defs : c.Pass .defs ds .initial s) (depth : c.Pass .depth es s t)
    (defs' : c.Pass .defs ds' .initial s') (depth' : c.Pass .depth es' s' t') :
    t.content u ⊆ t'.content u := by
  have visits := defs.visits.append depth.visits
  have visits' := defs'.visits.append depth'.visits
  have both : ds.map (Mode.defs, ·) ++ es.map (Mode.depth, ·) ⊆
      ds'.map (Mode.defs, ·) ++ es'.map (Mode.depth, ·) :=
    ((hds.map _).append (hes.map _)).subset
  have first := h.orders (.inl rfl) defs defs' hds Store.initial_sound Store.initial_sound
    (le_refl _) (le_refl _) fun _ _ _ _ _ => Iff.rfl
  have second := h.orders (.inr rfl) depth depth' hes (defs.visits.sound Store.initial_sound)
    (defs'.visits.sound Store.initial_sound) defs.visits.le defs'.visits.le
    fun _ hu hn _ _ => first.places_after hu hn
  obtain rfl | hu | hu := u.owner_cases
  · exact visits.files_subset visits' both (List.Subset.refl _)
  · refine visits.types_subset visits' both Store.initial_sound Store.initial_sound h.alike ?_ ?_ ?_
      hu
    · intro x hx table ref ho
      obtain hx | hx := List.mem_append.mp hx
      · obtain ⟨d, hd, rfl⟩ := List.mem_map.mp hx
        exact h.code_type (defs'.dirs hd) ho
      · obtain ⟨d, hd, rfl⟩ := List.mem_map.mp hx
        exact h.code_type (depth'.dirs hd) ho
    all_goals
      intro v hv
      cases v <;> first | rfl | cases hv
  · exact second.content_subset hu (first.content_subset hu (List.Subset.refl _))

/-- The definitions and then the depths of some directories leave the same content in whichever
orders. -/
theorem content_perm (hds : ds.Perm ds') (hes : es.Perm es') (defs : c.Pass .defs ds .initial s)
    (depth : c.Pass .depth es s t) (defs' : c.Pass .defs ds' .initial s')
    (depth' : c.Pass .depth es' s' t') (u : Table) : (t.content u).Perm (t'.content u) :=
  Store.content_perm
    (depth.visits.sound (defs.visits.sound Store.initial_sound))
    (depth'.visits.sound (defs'.visits.sound Store.initial_sound))
    (h.content_subset hds hes defs depth defs' depth')
    (h.content_subset hds.symm hes.symm defs' depth' defs depth)

end Agrees

/-! ## Accesses -/

/-- The node of a directory that has the row of a span of a file, with its package: the first one that
stands there. -/
def nodeAt? (c : Corpus) (d path : Path) (span : Span) : Option (Package × Depth.Mark) :=
  (c.packages d).findSome? fun p => (p.nodeAt? path span).map (p, ·)

/-- The depth pass records of each node with a row the access that it is, with the variable at its
root, whatever the order of the directories. -/
theorem Agrees.accessesOf_of_pass (h : c.Agrees) (hp : c.Pass .depth es s t) (hs : s.Sound)
    (free : ∀ path place, ¬ s.Occupied .expressions path place) {d path : Path} (hd : d ∈ es)
    {span : Span} {p : Package} {k : Depth.Mark} (hk : c.nodeAt? d path span = some (p, k)) :
    ∃ file id, t.fileNamed? path.text = some file ∧ t.exprAt? file span = some id ∧
      ∃ x, (k.access? p c.root).mapM (·.row? t file id) = some x ∧ t.accessesOf id = x.toList := by
  obtain ⟨packages, q, packages', hpackages, hq, others⟩ := List.findSome?_eq_some_iff.mp hk
  obtain ⟨k', hk', he⟩ := Option.map_eq_some_iff.mp hq
  cases he
  obtain ⟨rfl, before, kind, detail, after, code, first, hv⟩ := p.code_at c.root (m := .depth) rfl hk'
  obtain ⟨earlier, later, rfl, hnew⟩ := List.eq_append_cons_of_mem hd
  have split : ((earlier ++ d :: later).map (Mode.depth, ·)).flatMap c.code =
      ((earlier.map (Mode.depth, ·)).flatMap c.code ++ packages.flatMap (·.code c.root .depth) ++
        before) ++ .record k.around (.expr kind span detail (k.access? p c.root)) ::
        (after ++ packages'.flatMap (·.code c.root .depth) ++
          (later.map (Mode.depth, ·)).flatMap c.code) := by
    simp [Corpus.code, hpackages, code]
  have whole := hp.visits.run_flatMap
  rw [split] at whole
  have here : .record k.around (.expr kind span detail (k.access? p c.root)) ∈
      c.code (.depth, d) := by
    simp [Corpus.code, hpackages, code]
  refine Plan.accessesOf_of_run hs whole (free _ _) ?_ ?_
  · intro b item hb ht hpath
    simp only [List.mem_append] at hb
    obtain (hb | hb) | hb := hb
    · obtain ⟨x, hx, hb⟩ := List.mem_flatMap.mp hb
      obtain ⟨d', hd', rfl⟩ := List.mem_map.mp hx
      have same := h.apart_of_record (hp.dirs (List.mem_append_left _ hd'))
        (hp.dirs (List.mem_append_right _ List.mem_cons_self)) hb here hpath
      exact absurd (same ▸ hd') hnew
    · intro hplace
      obtain ⟨q, hq, hb⟩ := List.mem_flatMap.mp hb
      have there := Package.nodeAt?_isSome hb ht hplace
      rw [show b.path = k.around.path from congrArg Path.mk hpath,
        Option.map_eq_none_iff.mp (others q hq)] at there
      cases there
    · exact first b item hb ht hpath
  · intro o ho
    simp only [List.mem_append] at ho
    obtain (ho | ho) | ho := ho
    · exact hv o ho
    · have within : o ∈ c.code (.depth, d) := by
        rw [Corpus.code, hpackages, List.flatMap_append, List.flatMap_cons]
        exact List.mem_append_right _ (List.mem_append_right _ ho)
      exact table_ne_variables within
    · obtain ⟨x, hx, ho⟩ := List.mem_flatMap.mp ho
      obtain ⟨d', -, rfl⟩ := List.mem_map.mp hx
      exact table_ne_variables ho

/-- Whether a directory declares a variable at a site. -/
def Declares (c : Corpus) (site : SourceSite) : Prop :=
  ∃ d ∈ c.dirs, ∃ a name isConst role,
    .record a (.var name site.position isConst role) ∈ c.code (.defs, d) ∧ a.path = site.file

/-- Every package member that a directory records has as its base the variable that it names, if any
directory declares it. -/
def MembersResolve (c : Corpus) (t : Store) : Prop :=
  ∀ d ∈ c.dirs, ∀ path span p a e, c.nodeAt? d path span = some (p, .expr a e) →
    ∀ x sel o site, e.node = .selector x sel → p.isPackageName x = true →
      p.objects.get? sel.object = some o → o.kind = .var →
      p.declaration? c.root sel.object = some site → c.Declares site →
        ∃ file id v, t.fileNamed? path.text = some file ∧ t.exprAt? file span = some id ∧
          t.variableOf? site = some v ∧
          t.accessesOf id =
            [{ expr := id, kind := .ident, inner := none, baseName := some sel.name,
               baseVariable := some v, depth := 1, uncertainty := 0 }]

/-- The name of a package is no access, so a member of it is one indirection away from the variable
that it names. -/
theorem access?_of_member {p : Package} {root path : Path} {e x : Expr} {sel : Ident} {o : Object}
    (he : e.node = .selector x sel) (hx : p.isPackageName x = true)
    (ho : p.objects.get? sel.object = some o) (hk : o.kind = .var) :
    e.access? p root path = some (.member sel.name (p.declaration? root sel.object)) := by
  have none : x.access? p root path = none := by
    obtain ⟨span, type, node⟩ := x
    cases node with
    | ident name object =>
      unfold Package.isPackageName at hx
      cases hq : p.objects.get? object with
      | none => simp [hq] at hx
      | some q =>
        have kind : q.kind = .pkgName := by simpa [hq] using hx
        simp [Expr.access?, ExprNode.access?, hq, kind]
    | _ => cases hx
  obtain ⟨span, type, node⟩ := e
  cases he
  simp [Expr.access?, ExprNode.access?, ho, hk, none, Package.memberAccess?, hx]

/-- The definitions and then the depths of all directories resolve every package member. -/
theorem Agrees.membersResolve (h : c.Agrees) (hds : c.dirs ⊆ ds) (hes : c.dirs ⊆ es)
    (defs : c.Pass .defs ds .initial s) (depth : c.Pass .depth es s t) : c.MembersResolve t := by
  intro d hd path span p a e hk x sel o site he hx ho hkind hsite declares
  have sound := defs.visits.sound Store.initial_sound
  have free (path : String) (place : List Cell) : ¬ s.Occupied .expressions path place := by
    rw [defs.visits.occupied_iff Store.initial_sound (by simp [Store.namedTables])
      (by simp [Table.placed])]
    rintro (⟨file, -, r, hr, -⟩ | ⟨y, hy, b, item, hb, ht, -⟩)
    · cases hr
    · obtain ⟨d', -, rfl⟩ := List.mem_map.mp hy
      obtain ⟨q, -, f, -, hb⟩ := code_of hb
      have defines := (Plan.of_record.mp hb).2
      simp [Mode.tables, Definitions.tables, ht] at defines
  obtain ⟨file, id, hf, hid, y, hy, hacc⟩ := h.accessesOf_of_pass depth sound free (hes hd) hk
  obtain ⟨d', hd', b, name, isConst, role, hb, hpath⟩ := declares
  have occupied : s.Occupied .variables site.file.text (Cell.ofPosition site.position) := by
    rw [defs.visits.occupied_iff Store.initial_sound (by simp [Store.namedTables])
      (by simp [Table.placed])]
    exact .inr ⟨_, List.mem_map_of_mem (hds hd'), b, _, hb, rfl, congrArg Path.text hpath, rfl⟩
  obtain ⟨v, hv⟩ := Option.isSome_iff_exists.mp
    (Store.variableOf?_isSome.mpr (occupied.of_le depth.visits.le))
  refine ⟨file, id, v, hf, hid, hv, ?_⟩
  rw [Depth.Mark.access?, access?_of_member he hx ho hkind, hsite] at hy
  have row : (some (AccessNote.member sel.name (some site))).mapM (·.row? t file id) =
      some (some { expr := id, kind := .ident, inner := none, baseName := some sel.name,
                   baseVariable := some v, depth := 1, uncertainty := 0 }) := by
    simp [AccessNote.row?, AccessNote.access?, AccessNote.member, NewAccess.row,
      NewAccess.storedBase, hv]
  rw [row] at hy
  cases hy
  exact hacc

end Corpus
end AccessDepth
