import AccessDepth.Proofs.Codec
import AccessDepth.Proofs.Ledger
import AccessDepth.Run.Loader

/-!
# AccessDepth.Proofs.Nesting

What the packages of an export file are loaded as.

* `Loader.exports_written` — packages that nest no deeper than an export file may are loaded as they
  were written.
* `Package.listOfText?_of_value` — an export file is refused if the value of a variable is cut so
  that it cannot be read.
* `Expr.concatenation` — a string concatenation. It nests three containers deeper with each operand.
* `Loader.exports_concatenation` — an export file with one of more than 38 operands is refused.
* `Loader.exports_concatenating` — a package that has no other content is loaded up to that length.
-/

namespace AccessDepth

open Json (slots_obj formSlots_obj membersCut itemsCut)

/-! ## Packages that are loaded -/

namespace Loader

variable {d : Disk} {dir : Path} {name : String} {ps : List Package} {mode : LoadMode}

theorem prepared_of_serves (file : Path) (hs : ∀ p ∈ ps, serves p = true) :
    prepared file .resolved ps = .ok ps := by
  have none : (ps.find? fun p => !serves p) = none := by
    simpa using hs
  simp only [prepared, none]

theorem exports_eq_ofText (hd : d.read (dir.child name) = .ok (Package.listToText ps).toUTF8) :
    exports name d dir mode =
      (ofText (dir.child name) mode (Package.listToText ps)).mapError .exported := by
  have text : d.readText (dir.child name) = .ok (Package.listToText ps) := by
    simp only [Disk.readText, hd, bind, Except.bind, Ledger.fromUTF8?_toUTF8]
  unfold exports
  dsimp only
  rw [text]

theorem ofText_listToText (hn : (Json.ofList Package.toJson ps).depth ≤ Package.nestingLimit)
    (file : Path) : ofText file mode (Package.listToText ps) = prepared file mode ps := by
  simp only [ofText, Package.listOfText?_listToText hn]

/-- The packages of an export file that nests no deeper than such files may are loaded as they were
written: with resolution if all of them can be used then, and without it in any case. -/
theorem exports_written (hd : d.read (dir.child name) = .ok (Package.listToText ps).toUTF8)
    (hn : (Json.ofList Package.toJson ps).depth ≤ Package.nestingLimit) :
    ((∀ p ∈ ps, serves p = true) → exports name d dir .resolved = .ok ps) ∧
      exports name d dir .syntaxOnly = .ok (ps.map Package.withoutResolution) := by
  constructor
  · intro hs
    rw [exports_eq_ofText hd, ofText_listToText hn, prepared_of_serves _ hs]
    rfl
  · rw [exports_eq_ofText hd, ofText_listToText hn]
    rfl

end Loader

/-! ## Packages that are refused -/

namespace Json

variable {α : Type} {write : α → Json} {read : Json → Option α} {depth : Nat}

theorem mem_itemsCut {v : Json} {vs : List Json} (h : v ∈ vs) (depth : Nat) :
    v.cut depth ∈ itemsCut vs depth := by
  induction h with
  | head => exact .head _
  | tail _ _ ih => exact .tail _ ih

theorem mapM_eq_none {v : Json} {vs : List Json} (hv : v ∈ vs) (h : read v = none) :
    vs.mapM read = none := by
  induction hv with
  | head => simp [List.mapM_cons, h]
  | tail _ _ ih => simp [List.mapM_cons, ih]

theorem list?_cut {x : α} {xs : List α} (hx : x ∈ xs) (h : read ((write x).cut depth) = none) :
    list? read ((ofList write xs).cut (depth + 1)) = none :=
  mapM_eq_none (mem_itemsCut (List.mem_map_of_mem hx) depth) h

end Json

section

variable {o : Json.Origin} {level depth : Nat}

theorem Spec.read_cut {span : Span} {names : List Ident} {type : Option Expr} {values : List Expr}
    {e : Expr} (he : e ∈ values) (h : ∀ level, Expr.read o level (e.toJson.cut depth) = none) :
    Spec.read o level ((Spec.value span names type values).toJson.cut (depth + 3)) = none := by
  cases level with
  | zero => rfl
  | succ level =>
    have values' := Json.list?_cut he (h level)
    rw [Spec.toJson, Json.form, Expr.arr_listToJson]
    simp only [Json.cut, membersCut]
    rw [Spec.read, Json.content?_bind]
    simp -implicitDefEqProofs only
    rw [formSlots_obj o rfl (by decide)]
    simp -implicitDefEqProofs [Json.orElse, values']

theorem GenDecl.read_cut {g : GenDecl} {s : Spec} (hs : s ∈ g.specs)
    (h : ∀ level, Spec.read o level (s.toJson.cut depth) = none) :
    GenDecl.read o level (g.toJson.cut (depth + 2)) = none := by
  cases level with
  | zero => rfl
  | succ level =>
    have specs' := Json.list?_cut hs (h level)
    obtain ⟨span, tok, specs⟩ := g
    rw [GenDecl.toJson, Spec.arr_listToJson]
    simp only [Json.cut, membersCut]
    rw [GenDecl.read, slots_obj rfl (by decide)]
    simp -implicitDefEqProofs [Json.required, specs']

theorem Decl.ofJson?_cut {g : GenDecl}
    (h : ∀ level, GenDecl.read o level (g.toJson.cut depth) = none) :
    Decl.ofJson? o ((Decl.gen g).toJson.cut (depth + 1)) = none := by
  rw [Decl.toJson, Json.form]
  simp only [Json.cut, membersCut]
  rw [Decl.ofJson?, Json.content?_bind]
  simp -implicitDefEqProofs [GenDecl.ofJson?, h]

theorem SourceFile.ofJson?_cut {f : SourceFile} {decl : Decl} (hd : decl ∈ f.decls)
    (h : Decl.ofJson? o (decl.toJson.cut depth) = none) :
    SourceFile.ofJson? o (f.toJson.cut (depth + 2)) = none := by
  have decls' := Json.list?_cut hd h
  rw [SourceFile.toJson]
  simp only [Json.cut, membersCut]
  rw [SourceFile.ofJson?, slots_obj rfl (by decide)]
  simp -implicitDefEqProofs [Json.required, decls']

theorem Package.ofJson?_cut {p : Package} {f : SourceFile} (hf : f ∈ p.files)
    (h : SourceFile.ofJson? o (f.toJson.cut depth) = none) :
    Package.ofJson? o (p.toJson.cut (depth + 2)) = none := by
  have files' := Json.list?_cut hf h
  rw [Package.toJson]
  simp only [Json.cut, membersCut]
  rw [Package.ofJson?, slots_obj rfl (by decide)]
  simp -implicitDefEqProofs [Json.required, files']

/-- An export file is refused if in one of its packages a package-level variable or constant has a
value that cannot be read where it is cut: eleven containers enclose that value. -/
theorem Package.listOfText?_of_value {ps : List Package} {p : Package} {f : SourceFile}
    {g : GenDecl} {span : Span} {names : List Ident} {type : Option Expr} {values : List Expr}
    {e : Expr} (hp : p ∈ ps) (hf : f ∈ p.files) (hg : .gen g ∈ f.decls)
    (hs : .value span names type values ∈ g.specs) (he : e ∈ values)
    (h : ∀ level, Expr.read .text level (e.toJson.cut (nestingLimit - 11)) = none) :
    listOfText? (listToText ps) = none := by
  have plain : (Json.ofList toJson ps).isPlain = true :=
    Json.isPlain_ofList fun p _ => (p.codec .text).plain
  rw [listOfText?, listToText, Json.parse_cut plain]
  have decl := Decl.ofJson?_cut fun _ => GenDecl.read_cut hs fun _ => Spec.read_cut he h
  exact Json.list?_cut hp (Package.ofJson?_cut hf (SourceFile.ofJson?_cut hg decl))

/-! ## Concatenations -/

namespace Expr

variable {span : Span} {type : Option TypeRef}

theorem read_cut {node : ExprNode}
    (h : ∀ level, ExprNode.read o level (node.toJson.cut depth) = none) :
    Expr.read o level ((Expr.mk span type node).toJson.cut (depth + 1)) = none := by
  cases level with
  | zero => rfl
  | succ level =>
    rw [Expr.toJson]
    simp only [Json.cut, membersCut]
    rw [Expr.read, slots_obj rfl (by decide)]
    simp -implicitDefEqProofs [Json.required, h]

theorem read_cut_of_lt {node : ExprNode} (form : node.toJson.cut 0 = .unusable)
    (h : ∀ level, ExprNode.read o level (node.toJson.cut 1) = none) (hd : depth < 3) :
    Expr.read o level ((Expr.mk span type node).toJson.cut depth) = none := by
  match depth, hd with
  | 0, _ => cases level <;> rfl
  | 1, _ =>
    refine read_cut fun level => ?_
    rw [form]
    cases level <;> rfl
  | 2, _ => exact read_cut h

end Expr

namespace ExprNode

theorem read_binary_cut {op : String} {x y : Expr}
    (h : ∀ level, Expr.read o level (x.toJson.cut depth) = none) :
    ExprNode.read o level ((ExprNode.binary op x y).toJson.cut (depth + 2)) = none := by
  cases level with
  | zero => rfl
  | succ level =>
    rw [ExprNode.toJson, Json.form]
    simp only [Json.cut, membersCut]
    rw [ExprNode.read, if_neg (by simp), Json.content?_bind]
    simp -implicitDefEqProofs only
    rw [formSlots_obj o rfl (by decide)]
    simp -implicitDefEqProofs [Json.required, h]

end ExprNode

namespace Expr

def literal (column : Nat) : Expr :=
  ⟨⟨2, .ofNat column, 2, .ofNat (column + 3)⟩, none, .basicLit .string "\"a\""⟩

/-- `"a" + … + "a"` with so many operands after the first one. -/
def concatenation : Nat → Expr
  | 0 => literal 9
  | n + 1 =>
    ⟨⟨2, 9, 2, .ofNat (6 * n + 18)⟩, none,
      .binary "+" (concatenation n) (literal (6 * n + 15))⟩

theorem depth_concatenation (n : Nat) : (concatenation n).toJson.depth = 3 * n + 3 := by
  induction n with
  | zero => rfl
  | succ n ih =>
    have second : (literal (6 * n + 15)).toJson.depth = 3 := rfl
    have span (s : Span) : s.toJson.depth = 1 := rfl
    simp [concatenation, toJson, ExprNode.toJson, Json.form, Json.depth, Json.membersDepth,
      Json.ofOption, ih, second, span]
    omega

theorem read_concatenation_cut {n : Nat} (h : depth < 3 * n + 3) :
    ∀ level, Expr.read o level ((concatenation n).toJson.cut depth) = none := by
  induction n generalizing depth with
  | zero =>
    exact fun _ => read_cut_of_lt rfl (fun level => by cases o <;> cases level <;> rfl) h
  | succ n ih =>
    intro level
    by_cases shallow : depth < 3
    · exact read_cut_of_lt rfl (fun level => by cases o <;> cases level <;> rfl) shallow
    · obtain ⟨depth, rfl⟩ := Nat.exists_eq_add_of_le' (Nat.le_of_not_lt shallow)
      have operand := @ih depth (by omega)
      exact read_cut fun _ => ExprNode.read_binary_cut operand

end Expr

/-- An export file in which a package-level variable or constant is a concatenation of more than 38
operands is refused, whatever else it holds. -/
theorem Loader.exports_concatenation {d : Disk} {dir : Path} {name : String} {ps : List Package}
    (hd : d.read (dir.child name) = .ok (Package.listToText ps).toUTF8) {p : Package}
    {f : SourceFile} {g : GenDecl} {span : Span} {names : List Ident} {type : Option Expr}
    {values : List Expr} {n : Nat} (hp : p ∈ ps) (hf : f ∈ p.files) (hg : .gen g ∈ f.decls)
    (hs : .value span names type values ∈ g.specs) (he : Expr.concatenation n ∈ values)
    (hn : 38 ≤ n) (mode : LoadMode) :
    exports name d dir mode = .error (.exported (.malformed (dir.child name))) := by
  have refused : Package.listOfText? (Package.listToText ps) = none :=
    Package.listOfText?_of_value hp hf hg hs he
      (Expr.read_concatenation_cut (by rw [Package.nestingLimit]; omega))
  rw [exports_eq_ofText hd, ofText, refused]
  rfl

end

/-! ## At the limit -/

/-- `var s = "a" + … + "a"` in one file, with so many operands after the first one. -/
def Package.concatenating (n : Nat) : Package where
  dir := ⟨"corpus"⟩
  name := "a"
  files := [⟨⟨"corpus/a.go"⟩, ⟨"a", ⟨1, 9, 1, 10⟩, none, none⟩,
    [.gen ⟨⟨2, 1, 2, .ofNat (6 * n + 12)⟩, .var,
      [.value ⟨2, 5, 2, .ofNat (6 * n + 12)⟩ [⟨"s", ⟨2, 5, 2, 6⟩, none, none⟩] none
        [.concatenation n]]⟩]⟩]
  types := ⟨#[⟨"string", some 16, .basic .string⟩]⟩
  objects := .empty
  diagnostics := []

def Disk.exporting (bytes : ByteArray) : Disk :=
  ⟨.directory [("corpus", .directory [(Loader.defaultFileName, .file bytes)])], []⟩

theorem Disk.read_exporting (bytes : ByteArray) :
    (exporting bytes).read (Path.child ⟨"corpus"⟩ Loader.defaultFileName) = .ok bytes := by
  rfl

theorem Package.depth_concatenating (n : Nat) :
    (Json.ofList toJson [concatenating n]).depth = 3 * n + 14 := by
  have value := Expr.depth_concatenation n
  have span (s : Span) : s.toJson.depth = 1 := rfl
  simp [concatenating, toJson, SourceFile.toJson, Decl.toJson, GenDecl.toJson, Spec.listToJson,
    Spec.toJson, Expr.listToJson, Expr.optionToJson, Ident.toJson, Path.toJson, TypeTable.toJson,
    TypeEntry.toJson, TypeShape.toJson, TypeShape.record, ObjectTable.toJson, ObjectTable.empty,
    Vocabulary.toJson, Json.form, Json.ofList, Json.ofOption, Json.ofInt64, Json.depth,
    Json.membersDepth, Json.itemsDepth, value, span]

namespace Loader

/-- A package that is nothing but a concatenation is loaded if it has at most 38 operands, and is
refused otherwise. -/
theorem exports_concatenating (n : Nat) :
    exports defaultFileName
        (.exporting (Package.listToText [.concatenating n]).toUTF8) ⟨"corpus"⟩ .resolved =
      if n < 38 then .ok [.concatenating n]
      else .error (.exported (.malformed (Path.child ⟨"corpus"⟩ defaultFileName))) := by
  have hd := Disk.read_exporting (Package.listToText [.concatenating n]).toUTF8
  by_cases hn : n < 38
  · have fits : (Json.ofList Package.toJson [.concatenating n]).depth ≤ Package.nestingLimit := by
      rw [Package.depth_concatenating, Package.nestingLimit]
      omega
    rw [exports_eq_ofText hd, ofText_listToText fits, if_pos hn]
    rfl
  · rw [if_neg hn]
    exact exports_concatenation hd (.head _) (.head _) (.head _) (.head _) (.head _)
      (Nat.le_of_not_lt hn) _

/-- A concatenation of 38 operands is loaded. -/
theorem exports_written_at_limit :
    let d := Disk.exporting (Package.listToText [.concatenating 37]).toUTF8
    exports defaultFileName d ⟨"corpus"⟩ .resolved = .ok [.concatenating 37] ∧
      exports defaultFileName d ⟨"corpus"⟩ .syntaxOnly =
        .ok [(Package.concatenating 37).withoutResolution] := by
  have loaded := exports_written
    (Disk.read_exporting (Package.listToText [.concatenating 37]).toUTF8)
    (by rw [Package.depth_concatenating]; decide)
  exact ⟨loaded.1 (by decide), loaded.2⟩

/-- One of 39 operands is not. -/
theorem exports_refused_past_limit :
    let d := Disk.exporting (Package.listToText [.concatenating 38]).toUTF8
    serves (.concatenating 38) = true ∧
      exports defaultFileName d ⟨"corpus"⟩ .resolved ≠ .ok [.concatenating 38] := by
  refine ⟨rfl, ?_⟩
  rw [exports_concatenating, if_neg (by decide)]
  exact nofun

end Loader
end AccessDepth
