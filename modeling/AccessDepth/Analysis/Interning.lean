import AccessDepth.Analysis.Session

/-!
# AccessDepth.Analysis.Interning

One row for each canonical type name.

* `TypeShape.parts` — what is recorded of a structure beside its row: which types it refers to, and
  the row that each reference completes.
* `Interning.intern` — finds or records a type and all types that it reaches, in one transaction. A
  type's own row is added before its parts are looked at, so that a type which contains itself finds
  its own row.
* `Analyze.typeId` — the row of a type, through the cache. Names are put into the cache only when
  their rows are there to stay.
-/

namespace AccessDepth

/-- A row that completes a type, once the types that it refers to have rows of their own. -/
inductive TypePart where
  | plain (row : AnyRow)
  | one (type : TypeRef) (row : TypeId → AnyRow)
  | two (first second : TypeRef) (row : TypeId → TypeId → AnyRow)

namespace TypePart

/-- The types that a part refers to. -/
def types : TypePart → List TypeRef
  | .plain _ => []
  | .one t _ => [t]
  | .two t u _ => [t, u]

def member (id : TypeId) (position : Int) (embedded : Bool) (name : Option String)
    (type : TypeRef) : TypePart :=
  .one type fun member =>
    ⟨.typeMembers,
      { type := id, position := position, embedded := embedded, name := name, member := member }⟩

def signatureItem (id : TypeId) (role : SignatureRole) (position : Int) (p : SignatureParam) :
    TypePart :=
  .one p.type fun member =>
    ⟨.typeFuncSigs,
      { type := id, role := role, position := position, member := member, name := p.name }⟩

def unionItem (id : TypeId) (position : Int) (t : UnionTerm) : TypePart :=
  .one t.type fun term =>
    ⟨.typeUnions, { type := id, position := position, term := term, tilde := t.tilde }⟩

end TypePart

namespace TypeShape

/-- The width of a basic type, the length of an array. -/
def length? : TypeShape → Option Int64
  | .basic b => b.layout.width
  | .array len _ => some len
  | _ => none

/-- The parts of a type whose row is `id`, in the order in which they are recorded. -/
def parts (id : TypeId) : TypeShape → List TypePart
  | .basic b =>
    b.layout.signed.toList.map fun signed =>
      .plain ⟨.typeInts, { type := id, signed := signed }⟩
  | .array len elem =>
    [.one elem fun base => ⟨.typeArrays, { type := id, base := base, size := len }⟩]
  | .slice elem | .pointer elem =>
    [.one elem fun base => ⟨.typeElems, { type := id, base := base }⟩]
  | .map key value =>
    [.two key value fun key value => ⟨.typeMaps, { type := id, key := key, value := value }⟩]
  | .chan dir elem =>
    [.one elem fun base => ⟨.typeChans, { type := id, direction := dir, base := base }⟩]
  | .struct fields =>
    (numbered 0 fields).map fun (i, f) => .member id i f.embedded (some f.name) f.type
  | .interface methods embedded =>
    ((numbered 0 methods).map fun (i, m) => .member id i false (some m.name) m.type) ++
      (numbered methods.length embedded).map fun (i, t) => .member id i true none t
  | .named package name underlying =>
    [.one underlying fun under =>
      ⟨.typeNamed, { type := id, package := package, name := name, underlying := under }⟩]
  | .signature s =>
    .plain ⟨.typeFuncs, { type := id, variadic := s.variadic, generic := s.isGeneric }⟩ ::
      s.groups.flatMap fun (role, params) =>
        (numbered 0 params).map fun (i, p) => .signatureItem id role i p
  | .typeParam _ | .tuple _ => []
  | .union terms => (numbered 0 terms).map fun (i, t) => .unionItem id i t

end TypeShape

/-- An interning transaction under way. -/
structure InterningState where
  store : Store
  cache : Cache String TypeId
  /-- Names that were found or recorded by this transaction, the latest first. -/
  pending : List (String × TypeId)

abbrev Interning := EStateM Failure InterningState

namespace Interning

def write {α : Type} (t : Transaction α) : Interning α := fun s =>
  match t s.store with
  | .ok (a, store) => .ok a { s with store := store }
  | .error v => .error (.store (.violation v)) s

def note (name : String) (id : TypeId) : Interning Unit :=
  modify fun s => { s with pending := (name, id) :: s.pending }

/-- The row of a name that this transaction met before, that is cached, or that is stored. -/
def known (name : String) : Interning (Option TypeId) := do
  match (← get).pending.lookup name with
  | some id => pure (some id)
  | none =>
    let (cached, cache) := (← get).cache.get name
    modify fun s => { s with cache := cache }
    match cached with
    | some id => pure (some id)
    | none =>
      match (← get).store.typeNamed? name with
      | some id =>
        note name id
        pure (some id)
      | none => pure none

/-- Adds the row of a type, which from then on is known. -/
def reserve (e : TypeEntry) : Interning TypeId := do
  let id ← write (.create .types fun id =>
    { id := id, kind := e.shape.kind, name := e.name, length := e.shape.length? })
  note e.name id
  pure id

/-- Records the parts of a type; `type` interns the types that they refer to. -/
def complete (type : TypeRef → Interning TypeId) : List TypePart → Interning Unit
  | [] => pure ()
  | .plain row :: parts => do
    write (.insert row.table row.row)
    complete type parts
  | .one t row :: parts => do
    let r := row (← type t)
    write (.insert r.table r.row)
    complete type parts
  | .two t u row :: parts => do
    let t ← type t
    let u ← type u
    write (.insert (row t u).table (row t u).row)
    complete type parts

/-- The row of a type, recorded with everything that it reaches if it is not known. Each level of
the recursion adds the row of another name, so that a depth of one more than the table is long is
never used up. -/
def intern (table : TypeTable) : Nat → TypeRef → Interning TypeId
  | 0, _ => throw (.internal "type table exhausted")
  | depth + 1, r =>
    match table.get? r with
    | none => throw .nilType
    | some e => do
      match ← known e.name with
      | some id => pure id
      | none =>
        let id ← reserve e
        complete (intern table depth) (e.shape.parts id)
        pure id

end Interning

namespace Analyze

/-- The cached row of a type name, which becomes the most recently used one. -/
def cachedType (name : String) : Analyze (Option TypeId) :=
  modifyGet fun s =>
    let (id, types) := s.types.get name
    (id, { s with types := types })

/-- Interns a type in one transaction. A failure adds no row and no cached name. The new names go into
the cache in the order in which their rows were added. That order is a choice: the names wait in a
table that has none of its own. It shows only where the cache is too small for all of them. -/
def internType (table : TypeTable) (r : TypeRef) : Analyze TypeId := fun s =>
  if s.isOpen then
    match Interning.intern table (table.size + 1) r ⟨s.store, s.types, []⟩ with
    | .ok id t =>
      .ok id { s.committed t.store with types := t.cache.putAll t.pending.reverse }
    | .error f t => .error f { s with types := t.cache }
  else .error (.store .closed) s

/-- The row of a type, recorded if it is not there. Fails if no type is given or if a reference on
the way leads out of the table. -/
def typeId (table : TypeTable) (r : Option TypeRef) : Analyze TypeId :=
  match r with
  | none => throw .nilType
  | some r =>
    match table.name? r with
    | none => throw .nilType
    | some name => do
      match ← cachedType name with
      | some id => pure id
      | none => internType table r

/-- As `typeId`; nothing for a type that does not resolve. -/
def typeIdIfResolved (table : TypeTable) (r : Option TypeRef) : Analyze (Option TypeId) := fun s =>
  match typeId table r s with
  | .ok id s => .ok (some id) s
  | .error .nilType s => .ok none s
  | .error f s => .error f s

end Analyze

end AccessDepth
