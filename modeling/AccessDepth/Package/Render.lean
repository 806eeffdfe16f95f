import AccessDepth.Package.Tree

/-!
# AccessDepth.Package.Render

Type expressions as they are written in source.

* `Expr.render` — the text of a type expression. An expression of a form without a short spelling is
  given by the name of its type, and by a question mark if it has none.
-/

namespace AccessDepth

/-- The name of a type, or a question mark. -/
def TypeTable.nameOr (types : TypeTable) (type : Option TypeRef) : String :=
  (type.bind types.name?).getD "?"

mutual

def Expr.render (types : TypeTable) : Expr → String
  | ⟨_, type, node⟩ => (node.render types).getD (types.nameOr type)
termination_by structural e => e

/-- The spelling of a form, if it has a short one. -/
def ExprNode.render (types : TypeTable) : ExprNode → Option String
  | .ident name _ => some name
  | .basicLit _ value => some value
  | .selector x sel => some (x.render types ++ "." ++ sel.name)
  | .star x => some ("*" ++ x.render types)
  | .paren x => some ("(" ++ x.render types ++ ")")
  | .ellipsis (some elt) => some ("..." ++ elt.render types)
  | .arrayType none elt => some ("[]" ++ elt.render types)
  | .arrayType (some len) elt => some ("[" ++ len.render types ++ "]" ++ elt.render types)
  | .mapType key value => some ("map[" ++ key.render types ++ "]" ++ value.render types)
  | .chanType .both value => some ("chan " ++ value.render types)
  | .chanType .send value => some ("chan<- " ++ value.render types)
  | .chanType .recv value => some ("<-chan " ++ value.render types)
  | .index x index => some (x.render types ++ "[" ++ index.render types ++ "]")
  | .indexList x indices =>
    some (x.render types ++ "[" ++ ", ".intercalate (Expr.renderAll types indices) ++ "]")
  | .structType ⟨_, []⟩ => some "struct\x7b\x7d"
  | .interfaceType ⟨_, []⟩ => some "interface\x7b\x7d"
  | _ => none
termination_by structural n => n

def Expr.renderAll (types : TypeTable) : List Expr → List String
  | [] => []
  | e :: es => e.render types :: Expr.renderAll types es
termination_by structural es => es

end

end AccessDepth
