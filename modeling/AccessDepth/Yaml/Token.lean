import AccessDepth.Yaml.Tag

/-!
# AccessDepth.Yaml.Token

The tokens of a YAML text. Indentation is a token, too: a block opens where it gets deeper, and
closes where it gets less.
-/

namespace AccessDepth
namespace Yaml

/-- How a text is written. -/
inductive Style where
  | plain
  | quoted
  | literal
  | folded
  deriving DecidableEq, Repr, Inhabited

inductive Token where
  | directive (d : Directive)
  | documentStart
  | documentEnd
  | blockSequence
  | blockMapping
  | blockEnd
  | flowSequence
  | flowSequenceEnd
  | flowMapping
  | flowMappingEnd
  /-- A dash. -/
  | item
  /-- A comma. -/
  | comma
  /-- The start of a key, whether or not a question mark is written. -/
  | key
  /-- A colon. -/
  | value
  /-- An alias. -/
  | reference (name : String)
  | anchor (name : String)
  | tag (t : Tag)
  | text (style : Style) (text : String)
  | textEnd
  deriving DecidableEq, Repr, Inhabited

end Yaml
end AccessDepth
