import AccessDepth.Package.Export.Tables
import AccessDepth.Proofs.Json.Records

/-!
# AccessDepth.Proofs.Codec.Tables

The exchanged form of types and objects loses nothing: `TypeEntry.codec`, `Object.codec` and the
like say that a value is written plainly and read back from what is written.

Where integers are read, proofs by evaluation would make the checker count up to the bounds of
machine words; so the simplifier is told to give explicit proofs instead.
-/

namespace AccessDepth

open Json (Codec slots_obj isPlain_ofOption isPlain_ofList codec_string codec_uint32 codec_int64
  codec_term codec_taggedTerm membersPlain)

/-! ## Vocabularies -/

theorem BasicKind.namesApart : Json.NamesApart BasicKind := by
  intro x
  cases x <;> decide

theorem ChanDir.namesApart : Json.NamesApart ChanDir := by
  intro x
  cases x <;> decide

theorem ObjectKind.namesApart : Json.NamesApart ObjectKind := by
  intro x
  cases x <;> decide

/-! ## Places -/

theorem Position.codec (p : Position) : Codec toJson ofJson? p := by
  refine .record rfl (by simp [membersPlain]) ?_
  rw [ofJson?, slots_obj rfl (by decide)]
  simp -implicitDefEqProofs [Json.required]

theorem Span.codec (s : Span) : Codec toJson ofJson? s := by
  refine .record rfl (by simp [membersPlain]) ?_
  rw [ofJson?, slots_obj rfl (by decide)]
  simp -implicitDefEqProofs [Json.required]

theorem Path.codec (p : Path) : Codec toJson ofJson? p := ⟨rfl, by simp [toJson], rfl⟩

theorem SourceSite.codec (d : SourceSite) : Codec toJson ofJson? d := by
  refine .record rfl (by simp [membersPlain, (Path.codec _).plain, (Position.codec _).plain]) ?_
  rw [ofJson?, slots_obj rfl (by decide)]
  simp -implicitDefEqProofs [Json.required, (Path.codec _).read, (Position.codec _).read]

/-! ## Types -/

theorem TypeMember.codec (m : TypeMember) : Codec toJson ofJson? m := by
  refine .record rfl ?_ ?_
  · simp [membersPlain]
  · rw [ofJson?, slots_obj rfl (by decide)]
    simp -implicitDefEqProofs [Json.required, Json.orElse]

theorem SignatureParam.codec (p : SignatureParam) : Codec toJson ofJson? p := by
  have name : ∀ s ∈ p.name, Codec .str Json.string? s := fun s _ => codec_string s
  refine .record rfl ?_ ?_
  · simp [membersPlain, isPlain_ofOption fun s hs => (name s hs).plain]
  · rw [ofJson?, slots_obj rfl (by decide)]
    simp -implicitDefEqProofs [Json.required, Codec.option name]

theorem UnionTerm.codec (t : UnionTerm) : Codec toJson ofJson? t := by
  refine .record rfl (by simp [membersPlain]) ?_
  rw [ofJson?, slots_obj rfl (by decide)]
  simp -implicitDefEqProofs [Json.required, Json.orElse]

namespace Signature

theorem membersPlain_members (s : Signature) : membersPlain s.members = true := by
  have params (ps : List SignatureParam) : (Json.ofList SignatureParam.toJson ps).isPlain = true :=
    isPlain_ofList fun p _ => (SignatureParam.codec p).plain
  simp [members, membersPlain, params, isPlain_ofOption fun p _ => (SignatureParam.codec p).plain]

theorem ofJson?_members (s : Signature) : ofJson? (.obj s.members) = some s := by
  have params (ps : List SignatureParam) :
      Json.list? SignatureParam.ofJson? (Json.ofList SignatureParam.toJson ps) = some ps :=
    Codec.list fun p _ => SignatureParam.codec p
  rw [ofJson?, members, slots_obj rfl (by decide)]
  simp -implicitDefEqProofs [Json.orElse, Codec.option fun p _ => SignatureParam.codec p, params]

end Signature

namespace TypeShape

theorem split?_record {kind : String} {members : List (String × Json)}
    (h : ∀ m ∈ members, m.1 ≠ "kind") :
    split? (record kind members) = some (kind, .obj members) := by
  have none : members.filter (fun m => m.1 == "kind") = [] :=
    List.filter_eq_nil_iff.mpr fun m hm => by simp [h m hm]
  have all : members.filter (fun m => m.1 != "kind") = members :=
    List.filter_eq_self.mpr fun m hm => by simp [h m hm]
  simp [split?, record, none, all]

theorem codec_of_record {shape : TypeShape} {kind : String} {members : List (String × Json)}
    (hw : shape.toJson = record kind members) (plain : membersPlain members = true)
    (hr : (guard (record kind members).isUsable : Option Unit) = some () →
      split? (record kind members) = some (kind, .obj members) →
      ofJson? (record kind members) = some shape)
    (hk : ∀ m ∈ members, m.1 ≠ "kind") : Codec toJson ofJson? shape := by
  have written : (record kind members).isPlain = true := plain
  exact ⟨hw ▸ written, by simp [hw, record],
    hw ▸ hr (if_pos (Json.isUsable_of_isPlain _ written)) (split?_record hk)⟩

theorem codec (shape : TypeShape) : Codec toJson ofJson? shape := by
  cases shape with
  | basic b =>
    refine codec_of_record rfl ?_ (fun usable split => ?_) (by simp)
    · simp [membersPlain, (codec_term BasicKind.namesApart _).plain]
    · simp -implicitDefEqProofs only [ofJson?, split, ↓usable, Option.bind_eq_bind,
        Option.bind_some]
      rw [slots_obj rfl (by decide)]
      simp -implicitDefEqProofs [Json.required, (codec_taggedTerm BasicKind.namesApart _).read]
  | array | slice | pointer | map | typeParam =>
    refine codec_of_record rfl ?_ (fun usable split => ?_) (by simp)
    · simp [membersPlain]
    · simp -implicitDefEqProofs only [ofJson?, split, ↓usable, Option.bind_eq_bind,
        Option.bind_some]
      rw [slots_obj rfl (by decide)]
      simp -implicitDefEqProofs [Json.required]
  | chan dir elem =>
    refine codec_of_record rfl ?_ (fun usable split => ?_) (by simp)
    · simp [membersPlain, (codec_term ChanDir.namesApart _).plain]
    · simp -implicitDefEqProofs only [ofJson?, split, ↓usable, Option.bind_eq_bind,
        Option.bind_some]
      rw [slots_obj rfl (by decide)]
      simp -implicitDefEqProofs [Json.required, Json.orElse,
        (codec_taggedTerm ChanDir.namesApart _).read]
  | struct fields =>
    refine codec_of_record rfl ?_ (fun usable split => ?_) (by simp)
    · simp [membersPlain, isPlain_ofList fun m _ => (TypeMember.codec m).plain]
    · simp -implicitDefEqProofs only [ofJson?, split, ↓usable, Option.bind_eq_bind,
        Option.bind_some]
      rw [slots_obj rfl (by decide)]
      simp -implicitDefEqProofs [Json.orElse, Codec.list fun m _ => TypeMember.codec m]
  | interface methods embedded =>
    refine codec_of_record rfl ?_ (fun usable split => ?_) (by simp)
    · simp [membersPlain, isPlain_ofList fun m _ => (TypeMember.codec m).plain,
        isPlain_ofList fun t _ => (codec_uint32 t).plain]
    · simp -implicitDefEqProofs only [ofJson?, split, ↓usable, Option.bind_eq_bind,
        Option.bind_some]
      rw [slots_obj rfl (by decide)]
      simp -implicitDefEqProofs [Json.orElse, Codec.list fun m _ => TypeMember.codec m,
        Codec.list fun t _ => codec_uint32 t]
  | named package name underlying =>
    refine codec_of_record rfl ?_ (fun usable split => ?_) (by simp)
    · simp [membersPlain, isPlain_ofOption fun s _ => (codec_string s).plain]
    · simp -implicitDefEqProofs only [ofJson?, split, ↓usable, Option.bind_eq_bind,
        Option.bind_some]
      rw [slots_obj rfl (by decide)]
      simp -implicitDefEqProofs [Json.required, Codec.option fun s _ => codec_string s]
  | signature s =>
    refine codec_of_record rfl s.membersPlain_members (fun usable split => ?_)
      (by simp [Signature.members])
    simp -implicitDefEqProofs only [ofJson?, split, ↓usable, Option.bind_eq_bind,
      Option.bind_some, Signature.ofJson?_members]
  | tuple elems =>
    refine codec_of_record rfl ?_ (fun usable split => ?_) (by simp)
    · simp [membersPlain, isPlain_ofList fun t _ => (codec_uint32 t).plain]
    · simp -implicitDefEqProofs only [ofJson?, split, ↓usable, Option.bind_eq_bind,
        Option.bind_some]
      rw [slots_obj rfl (by decide)]
      simp -implicitDefEqProofs [Json.orElse, Codec.list fun t _ => codec_uint32 t]
  | union terms =>
    refine codec_of_record rfl ?_ (fun usable split => ?_) (by simp)
    · simp [membersPlain, isPlain_ofList fun t _ => (UnionTerm.codec t).plain]
    · simp -implicitDefEqProofs only [ofJson?, split, ↓usable, Option.bind_eq_bind,
        Option.bind_some]
      rw [slots_obj rfl (by decide)]
      simp -implicitDefEqProofs [Json.required, Codec.list fun t _ => UnionTerm.codec t]

end TypeShape

theorem TypeEntry.codec (e : TypeEntry) : Codec toJson ofJson? e := by
  refine .record rfl ?_ ?_
  · simp [membersPlain, isPlain_ofOption fun n _ => (codec_int64 n).plain,
      (TypeShape.codec _).plain]
  · rw [ofJson?, slots_obj rfl (by decide)]
    simp -implicitDefEqProofs [Json.required,
      Codec.option fun n _ => codec_int64 n, (TypeShape.codec _).read]

theorem TypeTable.codec (t : TypeTable) : Codec toJson ofJson? t := by
  refine ⟨isPlain_ofList fun e _ => (TypeEntry.codec e).plain, by simp [toJson, Json.ofList], ?_⟩
  rw [ofJson?, toJson, Codec.list fun e _ => TypeEntry.codec e]
  simp

/-! ## Objects -/

theorem Object.codec (o : Object) : Codec toJson ofJson? o := by
  refine .record rfl ?_ ?_
  · simp [membersPlain, (codec_term ObjectKind.namesApart _).plain,
      isPlain_ofOption fun d _ => (SourceSite.codec d).plain,
      isPlain_ofOption fun t _ => (codec_uint32 t).plain]
  · rw [ofJson?, slots_obj rfl (by decide)]
    simp -implicitDefEqProofs [Json.required,
      (codec_term ObjectKind.namesApart _).read, Codec.option fun d _ => SourceSite.codec d,
      Codec.option fun t _ => codec_uint32 t]

theorem ObjectTable.codec (t : ObjectTable) : Codec toJson ofJson? t := by
  refine ⟨isPlain_ofList fun o _ => (Object.codec o).plain, by simp [toJson, Json.ofList], ?_⟩
  rw [ofJson?, toJson, Codec.list fun o _ => Object.codec o]
  simp

end AccessDepth
