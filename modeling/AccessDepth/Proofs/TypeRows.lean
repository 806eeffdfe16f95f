import AccessDepth.Proofs.Interners
import AccessDepth.Proofs.Interning.Encoding

/-!
# AccessDepth.Proofs.TypeRows

The rows of types are complete.

* `TypeChildren` — what the tables below that of the types hold of one type.
* `TypeShape.children` — what they are to hold of a structure.
* `TypeEntry.Describes` — a row and what is below it are those of an entry.
* `Contexts.requests_described` — requests leave rows of entries that they walk through, each with
  everything below it. If no two entries share a name, a request adds all names that it walks through.
-/

namespace AccessDepth

/-- The rows below that of one type, table by table. -/
structure TypeChildren where
  ints : List TypeIntRow := []
  arrays : List TypeArrayRow := []
  elems : List TypeElemRow := []
  maps : List TypeMapRow := []
  chans : List TypeChanRow := []
  members : List TypeMemberRow := []
  named : List TypeNamedRow := []
  funcs : List TypeFuncRow := []
  funcSigs : List TypeFuncSigRow := []
  unions : List TypeUnionRow := []

def Store.childrenOf (s : Store) (id : TypeId) : TypeChildren where
  ints := s.typeInts.filter (·.type = id)
  arrays := s.typeArrays.filter (·.type = id)
  elems := s.typeElems.filter (·.type = id)
  maps := s.typeMaps.filter (·.type = id)
  chans := s.typeChans.filter (·.type = id)
  members := s.typeMembers.filter (·.type = id)
  named := s.typeNamed.filter (·.type = id)
  funcs := s.typeFuncs.filter (·.type = id)
  funcSigs := s.typeFuncSigs.filter (·.type = id)
  unions := s.typeUnions.filter (·.type = id)

def SignatureParam.rows (of : TypeRef → TypeId) (id : TypeId) (role : SignatureRole)
    (params : List SignatureParam) : List TypeFuncSigRow :=
  params.mapIdx fun i p =>
    { type := id, role := role, position := i, member := of p.type, name := p.name }

/-- The rows below the row `id` of a structure, where the types that it refers to have these rows. -/
def TypeShape.children (of : TypeRef → TypeId) (id : TypeId) : TypeShape → TypeChildren
  | .basic b => { ints := b.layout.signed.toList.map fun signed => { type := id, signed := signed } }
  | .array len elem => { arrays := [{ type := id, base := of elem, size := len }] }
  | .slice elem | .pointer elem => { elems := [{ type := id, base := of elem }] }
  | .map key value => { maps := [{ type := id, key := of key, value := of value }] }
  | .chan dir elem => { chans := [{ type := id, direction := dir, base := of elem }] }
  | .struct fields =>
    { members := fields.mapIdx fun i f =>
        { type := id, position := i, embedded := f.embedded, name := some f.name,
          member := of f.type } }
  | .interface methods embedded =>
    { members :=
        (methods.mapIdx fun i m =>
          { type := id, position := i, embedded := false, name := some m.name,
            member := of m.type }) ++
        embedded.mapIdx fun i t =>
          { type := id, position := methods.length + i, embedded := true, name := none,
            member := of t } }
  | .named package name underlying =>
    { named := [{ type := id, package := package, name := name, underlying := of underlying }] }
  | .signature g =>
    { funcs := [{ type := id, variadic := g.variadic, generic := g.typeParams ≠ [] }]
      funcSigs := SignatureParam.rows of id .receiver g.receiver.toList ++
        SignatureParam.rows of id .param g.params ++ SignatureParam.rows of id .result g.results ++
        SignatureParam.rows of id .typeParam g.typeParams }
  | .union terms =>
    { unions := terms.mapIdx fun i u =>
        { type := id, position := i, term := of u.type, tilde := u.tilde } }
  | .typeParam _ | .tuple _ => {}

/-- A row is that of an entry, with everything below it: where it refers to a type, it refers to the
one row with the canonical name of that type. -/
structure TypeEntry.Describes (e : TypeEntry) (t : TypeTable) (s : Store) (row : TypeRow) :
    Prop where
  name : row.name = e.name
  kind : row.kind = e.shape.kind
  length : row.length = e.shape.length?
  children : ∃ of : TypeRef → TypeId,
    (∀ r ∈ e.shape.references, ∃ c, t.get? r = some c ∧ s.NamesType c.name (of r)) ∧
      s.childrenOf row.id = e.shape.children of row.id

theorem map_numbered_eq {α β : Type} (f : Int → α → β) (n : Int) (xs : List α) :
    (numbered n xs).map (fun x => f x.1 x.2) = xs.mapIdx fun i x => f (n + i) x := by
  induction xs generalizing n with
  | nil => rfl
  | cons x xs ih =>
    have next (i : Nat) : n + 1 + i = n + (i + 1 : Nat) := by
      push_cast
      omega
    rw [numbered, List.map_cons, ih, List.mapIdx_cons]
    simp [next]

def TypeChildren.ofRows (rows : List AnyRow) : TypeChildren where
  ints := rows.filterMap (AnyRow.at? .typeInts)
  arrays := rows.filterMap (AnyRow.at? .typeArrays)
  elems := rows.filterMap (AnyRow.at? .typeElems)
  maps := rows.filterMap (AnyRow.at? .typeMaps)
  chans := rows.filterMap (AnyRow.at? .typeChans)
  members := rows.filterMap (AnyRow.at? .typeMembers)
  named := rows.filterMap (AnyRow.at? .typeNamed)
  funcs := rows.filterMap (AnyRow.at? .typeFuncs)
  funcSigs := rows.filterMap (AnyRow.at? .typeFuncSigs)
  unions := rows.filterMap (AnyRow.at? .typeUnions)

section

variable {α : Type} {u : Table} (row : Int → α → Row u) {of : TypeRef → TypeId}
  {p : Int × α → TypePart} (h : ∀ x, (p x).fill of = ⟨u, row x.1 x.2⟩) (n : Int) (xs : List α)
include h

theorem at?_numbered :
    (((numbered n xs).map p).map (TypePart.fill of)).filterMap (AnyRow.at? u) =
      xs.mapIdx fun i x => row (n + i) x := by
  have filled : AnyRow.at? u ∘ TypePart.fill of ∘ p = some ∘ fun x => row x.1 x.2 := by
    funext x
    exact (congrArg (AnyRow.at? u) (h x)).trans (AnyRow.at?_self u _)
  rw [List.filterMap_map, List.filterMap_map, Function.comp_assoc, filled, List.filterMap_eq_map,
    map_numbered_eq row]

theorem at?_numbered_of_ne {v : Table} (hne : u ≠ v) :
    (((numbered n xs).map p).map (TypePart.fill of)).filterMap (AnyRow.at? v) = [] := by
  rw [List.filterMap_eq_nil_iff]
  intro r hr
  simp only [List.map_map, List.mem_map, Function.comp_apply] at hr
  obtain ⟨x, -, rfl⟩ := hr
  rw [h]
  exact AnyRow.at?_of_ne hne

end

namespace TypeChildren

def append (c d : TypeChildren) : TypeChildren where
  ints := c.ints ++ d.ints
  arrays := c.arrays ++ d.arrays
  elems := c.elems ++ d.elems
  maps := c.maps ++ d.maps
  chans := c.chans ++ d.chans
  members := c.members ++ d.members
  named := c.named ++ d.named
  funcs := c.funcs ++ d.funcs
  funcSigs := c.funcSigs ++ d.funcSigs
  unions := c.unions ++ d.unions

theorem ofRows_append (rs rs' : List AnyRow) :
    ofRows (rs ++ rs') = (ofRows rs).append (ofRows rs') := by
  simp only [ofRows, append, List.filterMap_append]

def only : (u : Table) → List (Row u) → TypeChildren
  | .typeInts, rs => { ints := rs }
  | .typeArrays, rs => { arrays := rs }
  | .typeElems, rs => { elems := rs }
  | .typeMaps, rs => { maps := rs }
  | .typeChans, rs => { chans := rs }
  | .typeMembers, rs => { members := rs }
  | .typeNamed, rs => { named := rs }
  | .typeFuncs, rs => { funcs := rs }
  | .typeFuncSigs, rs => { funcSigs := rs }
  | .typeUnions, rs => { unions := rs }
  | _, _ => {}

theorem ofRows_numbered {α : Type} {of : TypeRef → TypeId} {p : Int × α → TypePart} (u : Table)
    (row : Int → α → Row u) (h : ∀ x, (p x).fill of = ⟨u, row x.1 x.2⟩) (n : Int) (xs : List α) :
    ofRows (((numbered n xs).map p).map (TypePart.fill of)) =
      only u (xs.mapIdx fun i x => row (n + i) x) := by
  cases u <;>
    simp only [ofRows, only, at?_numbered row h, at?_numbered_of_ne row h, ne_eq, reduceCtorEq,
      not_false_eq_true]

theorem ofRows_signatureItems (of : TypeRef → TypeId) (id : TypeId) (role : SignatureRole)
    (ps : List SignatureParam) :
    ofRows (((numbered 0 ps).map fun (i, p) => TypePart.signatureItem id role i p).map
      (TypePart.fill of)) = { funcSigs := SignatureParam.rows of id role ps } := by
  refine (ofRows_numbered .typeFuncSigs
    (fun i (p : SignatureParam) => ⟨id, role, i, of p.type, p.name⟩) (fun _ => rfl) 0 ps).trans ?_
  simp [only, SignatureParam.rows]

theorem ofRows_parts (of : TypeRef → TypeId) (id : TypeId) (shape : TypeShape) :
    ofRows ((shape.parts id).map (TypePart.fill of)) = shape.children of id := by
  cases shape with
  | basic b =>
    cases h : b.layout.signed <;>
      simp [TypeShape.parts, TypeShape.children, ofRows, h, TypePart.fill, AnyRow.at?]
  | array | slice | pointer | map | chan | named | typeParam | tuple => rfl
  | struct fields =>
    refine (ofRows_numbered .typeMembers
      (fun i (f : TypeMember) => ⟨id, i, f.embedded, some f.name, of f.type⟩) (fun _ => rfl)
      0 fields).trans ?_
    simp [only, TypeShape.children]
  | interface methods embedded =>
    rw [TypeShape.parts, List.map_append, ofRows_append,
      ofRows_numbered .typeMembers
        (fun i (m : TypeMember) => ⟨id, i, false, some m.name, of m.type⟩) (fun _ => rfl),
      ofRows_numbered .typeMembers
        (fun i (r : TypeRef) => ⟨id, i, true, none, of r⟩) (fun _ => rfl)]
    simp [only, append, TypeShape.children]
  | signature g =>
    rw [TypeShape.parts, List.map_cons, ← List.singleton_append, ofRows_append]
    simp only [Signature.groups, List.flatMap_cons, List.flatMap_nil, List.map_append,
      ofRows_append, ofRows_signatureItems, List.append_nil]
    have generic : g.isGeneric = decide (g.typeParams ≠ []) := by
      unfold Signature.isGeneric
      cases g.typeParams <;> rfl
    simp [append, ofRows, TypePart.fill, AnyRow.at?, TypeShape.children, generic]
  | union terms =>
    refine (ofRows_numbered .typeUnions
      (fun i (u : UnionTerm) => ⟨id, i, of u.type, u.tilde⟩) (fun _ => rfl) 0 terms).trans ?_
    simp [only, TypeShape.children]

end TypeChildren

theorem Store.childrenOf_eq (s : Store) (id : TypeId) : s.childrenOf id =
    { ints := s.rowsOf .typeInts id, arrays := s.rowsOf .typeArrays id
      elems := s.rowsOf .typeElems id, maps := s.rowsOf .typeMaps id
      chans := s.rowsOf .typeChans id, members := s.rowsOf .typeMembers id
      named := s.rowsOf .typeNamed id, funcs := s.rowsOf .typeFuncs id
      funcSigs := s.rowsOf .typeFuncSigs id, unions := s.rowsOf .typeUnions id } := by
  have same (a : TypeId) : (a.value = id.value) = (a = id) := by
    cases a
    cases id
    simp
  simp only [childrenOf, rowsOf, Row.number, same]
  rfl

/-- An entry that is encoded is described by its row and what is below it. -/
theorem TypeEntry.Encoded.describes {e : TypeEntry} {t : TypeTable} {s : Store} {row : TypeRow}
    (hs : s.Sound) (h : e.Encoded t s row) : e.Describes t s row where
  name := congrArg TypeRow.name h.own
  kind := congrArg TypeRow.kind h.own
  length := congrArg TypeRow.length h.own
  children := by
    refine ⟨s.numberOf t, fun r hr => ?_, ?_⟩
    · obtain ⟨name, hn, hid⟩ := Option.bind_eq_some_iff.mp (h.stored r hr)
      obtain ⟨c, hc, rfl⟩ := Option.map_eq_some_iff.mp hn
      exact ⟨c, hc, hs.namesType hid⟩
    · have below (u : Table) (hu : u.owner = .types ∧ u ≠ .types) := h.parts u hu.1 hu.2
      rw [Store.childrenOf_eq, ← TypeChildren.ofRows_parts, TypeChildren.ofRows,
        below .typeInts (by decide), below .typeArrays (by decide), below .typeElems (by decide),
        below .typeMaps (by decide), below .typeChans (by decide), below .typeMembers (by decide),
        below .typeNamed (by decide), below .typeFuncs (by decide),
        below .typeFuncSigs (by decide), below .typeUnions (by decide)]

/-! ## Requests -/

namespace Contexts

variable {ι : Type} [DecidableEq ι] {w : Contexts ι}

/-- A request that succeeds adds what interning its type adds; one that fails adds nothing. -/
theorem request_encodes (ha : w.TypesAgree) (hs : w.store.Sound) (q : TypeRequest ι) :
    (∃ a r, (w.request q).1 = .ok a ∧ q.type = some r ∧
      q.table.Encodes [r] w.store (w.request q).2.store) ∨
    ∃ f, (w.request q).1 = .error f ∧ (w.request q).2.store = w.store := by
  obtain ⟨answer, left⟩ := Prod.mk.inj (request_yields ha q).result
  rw [answer, left]
  cases hc : w.cached? q with
  | some a =>
    obtain ⟨name, hn, hf⟩ := Option.bind_eq_some_iff.mp hc
    obtain ⟨r, ht, hname⟩ := Option.bind_eq_some_iff.mp hn
    have found : w.store.typeOf? q.table r = some a := by
      rw [Store.typeOf?, hname, Option.bind_some]
      exact (ha _ none).types hf
    refine .inl ⟨a, r, rfl, ht, .refl _, .refl _ _, fun c hc => ?_, fun _ hrow => .inl hrow⟩
    rw [List.mem_singleton.mp hc, found, Store.numberOf_eq found]
  | none =>
    simp only [TypeRequest.outcome]
    split
    · rename_i r name ht hn
      cases q.refused with
      | true => exact .inr ⟨_, rfl, rfl⟩
      | false =>
        cases hu : Uncached.intern q.table (q.table.size + 1) r w.store with
        | error f => exact .inr ⟨f, rfl, rfl⟩
        | ok x => exact .inl ⟨x.1, r, rfl, ht, (Uncached.intern_encodes hs hu).1⟩
    · exact .inr ⟨_, rfl, rfl⟩

/-- Requests add rows with new numbers, each of an entry that one of them walks through. -/
theorem requests_encode (ha : w.TypesAgree) (hs : w.store.Sound) (qs : List (TypeRequest ι)) :
    w.store.Fresh (w.store.nextNumber .types ≤ ·) (w.requests id qs).2.store ∧
      ∀ row ∈ (w.requests id qs).2.store.types, row ∈ w.store.types ∨
        ∃ before q later r e a, qs = before ++ q :: later ∧ q.type = some r ∧
          ((w.requests id before).2.request q).1 = .ok a ∧
          q.table.Walked (w.requests id before).2.store r e ∧
          e.Encoded q.table (w.requests id qs).2.store row := by
  induction qs generalizing w with
  | nil => exact ⟨.refl _ _, fun _ hrow => .inl hrow⟩
  | cons q qs ih =>
    have yields := request_yields ha q
    have inserts : Inserts (·.owner = .types) w.store (w.request q).2.store := by
      have := result_inserts w q
      rwa [← yields.result] at this
    obtain ⟨fresh, new⟩ := ih yields.agree (inserts.sound hs)
    have mono := Store.nextNumber_mono inserts.le .types
    have first : w.store.Fresh (w.store.nextNumber .types ≤ ·) (w.request q).2.store := by
      obtain ⟨a, r, -, -, encodes⟩ | ⟨f, -, same⟩ := request_encodes ha hs q
      · exact encodes.fresh
      · rw [same]
        exact .refl _ _
    refine ⟨first.trans (fresh.mono fun n hn => Int.le_trans mono hn), fun row hrow => ?_⟩
    obtain hrow | ⟨before, q', later, r, e, a, rfl, ht, ok, walked, encoded⟩ := new row hrow
    · obtain ⟨a, r, ok, ht, encodes⟩ | ⟨f, -, same⟩ := request_encodes ha hs q
      · refine (encodes.new row hrow).imp_right fun ⟨c, hc, e, walked, encoded⟩ => ?_
        obtain rfl := List.mem_singleton.mp hc
        refine ⟨[], q, qs, c, e, a, rfl, ht, ok, walked, ?_⟩
        have old := Store.number_lt_nextNumber (u := .types) hrow
        have later := (requests_stored yields.agree qs).1.le
        exact encoded.of_fresh later fresh (Int.not_le.mpr old)
      · exact .inl (same ▸ hrow)
    · exact .inr ⟨q :: before, q', later, r, e, a, rfl, ht, ok, walked, encoded⟩

def after (w : Contexts ι) (qs : List (TypeRequest ι)) : Contexts ι := (w.requests id qs).2

/-- Contexts start with empty caches, on a store without types, and make requests. In the end every
row of a type is that of an entry that some request has walked through, with exactly the rows below
it that its structure requires. If no two entries of a table share a name, a request that succeeds
adds the names of the entries that it walks through, and no others. -/
theorem requests_described (hn : ∀ i, (w.context i).IsNew) (hs : w.store.Sound)
    (ht : w.store.types = []) (qs : List (TypeRequest ι)) :
    (∀ row ∈ (w.after qs).store.types, ∃ before q later r e a, qs = before ++ q :: later ∧
      q.type = some r ∧ ((w.after before).request q).1 = .ok a ∧
      q.table.Walked (w.after before).store r e ∧
      e.Describes q.table (w.after qs).store row) ∧
    ∀ before q later r a, qs = before ++ q :: later → q.type = some r →
      ((w.after before).request q).1 = .ok a →
      (q.table.entries.toList.map (·.name)).Nodup →
      ∀ name, ((w.after before).store.typeNamed? name = none ∧
          ((w.after before).request q).2.store.typeNamed? name ≠ none) ↔
        ∃ e, q.table.Walked (w.after before).store r e ∧ e.name = name := by
  have ha : w.TypesAgree := agree_of_new hn _
  have sound (qs : List (TypeRequest ι)) := (requests_stored ha qs).1.sound hs
  refine ⟨fun row hrow => ?_, fun before q _ r a _ hq ok distinct name => ?_⟩
  · obtain old | ⟨before, q, later, r, e, a, hqs, hq, ok, walked, encoded⟩ :=
      (requests_encode ha hs qs).2 row hrow
    · rw [ht] at old
      cases old
    · exact ⟨before, q, later, r, e, a, hqs, hq, ok, walked, encoded.describes (sound qs)⟩
  · have agree := (requests_stored ha before).2.1
    obtain ⟨a', r', -, hq', encodes⟩ | ⟨f, failed, -⟩ := request_encodes agree (sound before) q
    · cases hq.symm.trans hq'
      exact encodes.names distinct name
    · cases ok.symm.trans failed

theorem requests_sample_described :
    (Contexts.sample.after TypeRequest.samples).store.types.map (·.name) =
        ["List", "struct\x7bNext *List\x7d", "*List"] ∧
      ∀ row ∈ (Contexts.sample.after TypeRequest.samples).store.types,
        ∃ before q later r e a, TypeRequest.samples = before ++ q :: later ∧ q.type = some r ∧
          ((Contexts.sample.after before).request q).1 = .ok a ∧
          q.table.Walked (Contexts.sample.after before).store r e ∧
          e.Describes q.table (Contexts.sample.after TypeRequest.samples).store row := by
  have new (i : Bool) : (Contexts.sample.context i).IsNew := ⟨rfl, rfl⟩
  exact ⟨by decide +kernel,
    (requests_described new Store.initial_sound rfl TypeRequest.samples).1⟩

end Contexts
end AccessDepth
