import AccessDepth.Proofs.Codec.Tree

/-!
# AccessDepth.Proofs.Codec

What is exchanged comes back as it was, as a value and as a text.

* `Json.Lossless` — a value is read back from what it is written as.
* `exchange_lossless` — packages and all that they consist of are.
-/

namespace AccessDepth
namespace Json

variable {α : Type} {write : α → Json}

/-- A value is read back from what it is written as: from the value at hand, from its text under
every nesting limit that admits it, and from its text when there is no limit. -/
structure Lossless (write : α → Json) (read : Origin → Json → Option α) (x : α) : Prop where
  value : read .value (write x) = some x
  text : ∀ limit, (write x).depth ≤ limit → (parse limit (write x).text).bind (read .text) = some x
  unlimited : (parseAny (write x).text).bind (read .text) = some x

theorem Lossless.of_codec {read : Origin → Json → Option α} {x : α}
    (h : ∀ o, Codec write (read o) x) : Lossless write read x where
  value := (h .value).read
  text limit hd := by
    rw [parse_text (h .text).plain hd]
    exact (h .text).read
  unlimited := by
    rw [parseAny_text (h .text).plain]
    exact (h .text).read

end Json

open Json (Lossless)

/-- Packages, syntax, types, objects and places are read back from what they are written as. -/
theorem exchange_lossless :
    (∀ p, Lossless Package.toJson Package.ofJson? p) ∧
    (∀ f, Lossless SourceFile.toJson SourceFile.ofJson? f) ∧
    (∀ d, Lossless Decl.toJson Decl.ofJson? d) ∧
    (∀ s, Lossless Spec.toJson Spec.ofJson? s) ∧
    (∀ s, Lossless Stmt.toJson Stmt.ofJson? s) ∧
    (∀ e, Lossless Expr.toJson Expr.ofJson? e) ∧
    (∀ b, Lossless Block.toJson Block.ofJson? b) ∧
    (∀ e, Lossless TypeEntry.toJson (fun _ => TypeEntry.ofJson?) e) ∧
    (∀ t, Lossless TypeShape.toJson (fun _ => TypeShape.ofJson?) t) ∧
    (∀ x, Lossless Object.toJson (fun _ => Object.ofJson?) x) ∧
    (∀ d, Lossless SourceSite.toJson (fun _ => SourceSite.ofJson?) d) ∧
    (∀ s, Lossless Span.toJson (fun _ => Span.ofJson?) s) ∧
    ∀ p, Lossless Position.toJson (fun _ => Position.ofJson?) p :=
  ⟨fun p => .of_codec fun o => p.codec o, fun f => .of_codec fun o => f.codec o,
    fun d => .of_codec fun o => d.codec o, fun s => .of_codec fun o => s.codec o,
    fun s => .of_codec fun o => s.codec o, fun e => .of_codec fun o => e.codec o,
    fun b => .of_codec fun o => b.codec o, fun e => .of_codec fun _ => e.codec,
    fun t => .of_codec fun _ => t.codec, fun x => .of_codec fun _ => x.codec,
    fun d => .of_codec fun _ => d.codec, fun s => .of_codec fun _ => s.codec,
    fun p => .of_codec fun _ => p.codec⟩

theorem Package.listOfText?_listToText {ps : List Package}
    (h : (Json.ofList toJson ps).depth ≤ nestingLimit) : listOfText? (listToText ps) = some ps := by
  have plain : (Json.ofList toJson ps).isPlain = true :=
    Json.isPlain_ofList fun p _ => (p.codec .text).plain
  rw [listOfText?, listToText, Json.parse_text plain h]
  exact Json.Codec.list fun p _ => p.codec .text

end AccessDepth
