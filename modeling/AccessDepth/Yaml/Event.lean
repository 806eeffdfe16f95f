import AccessDepth.Yaml.Token

/-!
# AccessDepth.Yaml.Event

What the tokens of a text say, one thing after the other: a scalar, the start or the end of a
collection, a reference to an earlier value.

* `Event.ofTokens` — the events of the only document of a text. A text without a document has none,
  and a text with two documents is refused.
* `Expectation` — what may come next; the grammar is a stack of them, and `Grammar.step` meets the
  first one.

A value that is left out is an empty plain scalar.
-/

namespace AccessDepth
namespace Yaml

/-- A scalar with its style and its tag. -/
structure Scalar where
  text : String
  style : Style
  tag : Option String
  deriving DecidableEq, Repr, Inhabited

inductive CollectionKind where
  | sequence
  | mapping
  deriving DecidableEq, Repr, Inhabited

/-- A value may have an anchor, by which aliases refer to it. A reference is an alias. -/
inductive Event where
  | scalar (anchor : Option String) (s : Scalar)
  | opened (anchor : Option String) (kind : CollectionKind)
  | closed
  | reference (name : String)
  deriving DecidableEq, Repr, Inhabited

/-- A scalar that is not written. -/
def Event.missing : Event := .scalar none ⟨"", .plain, none⟩

/-- What may come next. -/
inductive Expectation where
  /-- A value in a block, or between brackets if `inBlock` does not hold; where a list may stand
  that is not indented, `isLoose` holds. -/
  | value (inBlock isLoose : Bool)
  /-- The value of a document, which may be missing. -/
  | content
  /-- An item of a block list, or its end. -/
  | item
  /-- An item of a list that is not indented, or its end. -/
  | looseItem
  /-- A key of a block mapping, or its end. -/
  | key
  | keyValue
  /-- An item of a list in brackets, or its end. -/
  | flowItem (isFirst : Bool)
  /-- The key, value and end of a mapping that is an item by itself. -/
  | pairKey
  | pairValue
  | pairEnd
  /-- A key of a mapping in brackets, or its end. -/
  | flowKey (isFirst : Bool)
  | flowValue
  /-- The value of a key without a colon. -/
  | flowNoValue
  deriving DecidableEq, Repr

/-- What is expected, the first thing first, the tokens to come and the events so far, the last one
first. -/
structure Grammar where
  expected : List Expectation
  tokens : List Token
  events : List Event

namespace Grammar

/-- Adds an event and takes tokens. -/
def emit (g : Grammar) (e : Event) (tokens : List Token) (expected : List Expectation) : Grammar :=
  ⟨expected ++ g.expected, tokens, e :: g.events⟩

/-- Takes tokens only. -/
def expect (g : Grammar) (tokens : List Token) (expected : List Expectation) : Grammar :=
  { g with expected := expected ++ g.expected, tokens := tokens }

/-- The anchor and the tag in front of a value, in either order. -/
def properties : List Token → Option String × Option Tag × List Token
  | .anchor a :: .tag t :: ts => (some a, some t, ts)
  | .tag t :: .anchor a :: ts => (some a, some t, ts)
  | .anchor a :: ts => (some a, none, ts)
  | .tag t :: ts => (none, some t, ts)
  | ts => (none, none, ts)

/-- A value. The tag of a lone exclamation mark says nothing about a scalar that is written. -/
def value (handles : List (String × String)) (g : Grammar) (inBlock isLoose : Bool) :
    Option Grammar :=
  match g.tokens with
  | .reference name :: ts => some (g.emit (.reference name) ts [])
  | tokens => do
    let (anchor, tag, ts) := properties tokens
    let expanded ← match tag with
      | none => some none
      | some t => (t.expand handles).map some
    let opened (kind : CollectionKind) (ts : List Token) (next : Expectation) : Option Grammar :=
      some (g.emit (.opened anchor kind) ts [next])
    match ts with
    | .item :: _ => if isLoose then opened .sequence ts .looseItem else empty anchor expanded ts
    | .text style text :: ts =>
      some (g.emit (.scalar anchor ⟨text, style, expanded.filter (· != "!")⟩) ts [])
    | .flowSequence :: ts => opened .sequence ts (.flowItem true)
    | .flowMapping :: ts => opened .mapping ts (.flowKey true)
    | .blockSequence :: rest =>
      if inBlock then opened .sequence rest .item else empty anchor expanded ts
    | .blockMapping :: rest =>
      if inBlock then opened .mapping rest .key else empty anchor expanded ts
    | ts => empty anchor expanded ts
where
  /-- Properties alone make an empty scalar. -/
  empty (anchor tag : Option String) (ts : List Token) : Option Grammar :=
    if anchor.isNone && tag.isNone then none
    else some (g.emit (.scalar anchor ⟨"", .plain, tag⟩) ts [])

/-- Meets the first expectation, the others being those of `g`. -/
def step (handles : List (String × String)) (g : Grammar) : Expectation → Option Grammar
  | .value inBlock isLoose => g.value handles inBlock isLoose
  | .content =>
    match g.tokens with
    | [] => none
    | .directive _ :: _ | .documentStart :: _ | .documentEnd :: _ | .textEnd :: _ =>
      some (g.emit .missing g.tokens [])
    | ts => some (g.expect ts [.value true false])
  | .item =>
    match g.tokens with
    | .item :: ts =>
      match ts with
      | .item :: _ | .blockEnd :: _ => some (g.emit .missing ts [.item])
      | _ => some (g.expect ts [.value true false, .item])
    | .blockEnd :: ts => some (g.emit .closed ts [])
    | _ => none
  | .looseItem =>
    match g.tokens with
    | .item :: ts =>
      match ts with
      | .item :: _ | .key :: _ | .value :: _ | .blockEnd :: _ =>
        some (g.emit .missing ts [.looseItem])
      | _ => some (g.expect ts [.value true false, .looseItem])
    | ts => some (g.emit .closed ts [])
  | .key =>
    match g.tokens with
    | .key :: ts =>
      match ts with
      | .key :: _ | .value :: _ | .blockEnd :: _ => some (g.emit .missing ts [.keyValue])
      | _ => some (g.expect ts [.value true true, .keyValue])
    | .blockEnd :: ts => some (g.emit .closed ts [])
    | _ => none
  | .keyValue =>
    match g.tokens with
    | .value :: ts =>
      match ts with
      | .key :: _ | .value :: _ | .blockEnd :: _ => some (g.emit .missing ts [.key])
      | _ => some (g.expect ts [.value true true, .key])
    | ts => some (g.emit .missing ts [.key])
  | .flowItem isFirst =>
    match g.tokens with
    | .flowSequenceEnd :: ts => some (g.emit .closed ts [])
    | ts => do
      match ← afterComma isFirst ts with
      | .key :: ts => some (g.emit (.opened none .mapping) ts [.pairKey, .flowItem false])
      | .flowSequenceEnd :: ts => some (g.emit .closed ts [])
      | ts => some (g.expect ts [.value false false, .flowItem false])
  | .pairKey =>
    match g.tokens with
    | .value :: ts | .comma :: ts | .flowSequenceEnd :: ts =>
      some (g.emit .missing ts [.pairValue])
    | ts => some (g.expect ts [.value false false, .pairValue])
  | .pairValue =>
    match g.tokens with
    | .value :: ts =>
      match ts with
      | .comma :: _ | .flowSequenceEnd :: _ => some (g.emit .missing ts [.pairEnd])
      | _ => some (g.expect ts [.value false false, .pairEnd])
    | ts => some (g.emit .missing ts [.pairEnd])
  | .pairEnd => some (g.emit .closed g.tokens [])
  | .flowKey isFirst =>
    match g.tokens with
    | .flowMappingEnd :: ts => some (g.emit .closed ts [])
    | ts => do
      match ← afterComma isFirst ts with
      | .key :: ts =>
        match ts with
        | .value :: _ | .comma :: _ | .flowMappingEnd :: _ =>
          some (g.emit .missing ts [.flowValue])
        | _ => some (g.expect ts [.value false false, .flowValue])
      | .flowMappingEnd :: ts => some (g.emit .closed ts [])
      | ts => some (g.expect ts [.value false false, .flowNoValue])
  | .flowValue =>
    match g.tokens with
    | .value :: ts =>
      match ts with
      | .comma :: _ | .flowMappingEnd :: _ => some (g.emit .missing ts [.flowKey false])
      | _ => some (g.expect ts [.value false false, .flowKey false])
    | ts => some (g.emit .missing ts [.flowKey false])
  | .flowNoValue => some (g.emit .missing g.tokens [.flowKey false])
where
  /-- The first item needs no comma before it. -/
  afterComma (isFirst : Bool) : List Token → Option (List Token)
    | .comma :: ts => some (if isFirst then .comma :: ts else ts)
    | ts => if isFirst then some ts else none

/-- Meets all expectations; `fuel` bounds the steps. -/
def run (handles : List (String × String)) : Nat → Grammar → Option Grammar
  | 0, _ => none
  | fuel + 1, g =>
    match g.expected with
    | [] => some g
    | e :: es => (step handles { g with expected := es } e).bind (run handles fuel)

end Grammar

namespace Event

/-- Whether a version is read. -/
def knowsVersion (major minor : Nat) : Bool := major = 1 && (minor = 1 || minor = 2)

/-- The handles that directives give a meaning, and the tokens behind the directives; there may be
one version, and one directive for each handle. -/
def readDirectives (hasVersion : Bool) (handles : List (String × String)) :
    List Token → Option (List (String × String) × List Token)
  | .directive (.version major minor) :: ts =>
    if hasVersion || !knowsVersion major minor then none else readDirectives true handles ts
  | .directive (.tag handle expansion) :: ts =>
    if (handles.lookup handle).isSome then none
    else readDirectives hasVersion ((handle, expansion) :: handles) ts
  | ts => some (handles, ts)

/-- The events of a document, and the tokens behind it. A step takes a token or meets an
expectation that a token has left, and no token leaves more than four. -/
def ofDocument (handles : List (String × String)) (first : Expectation) (ts : List Token) :
    Option (List Event × List Token) :=
  (Grammar.run (handles ++ Tag.defaultHandles) (5 * ts.length + 5) ⟨[first], ts, []⟩).map
    fun g => (g.events.reverse, g.tokens)

/-- Whether nothing but marks of the end follows a document. -/
def isOver : List Token → Bool
  | .documentEnd :: ts => isOver ts
  | [.textEnd] => true
  | _ => false

def ofTokens (tokens : List Token) : Option (List Event) :=
  match tokens with
  | [.textEnd] => some []
  | _ => do
    let (handles, ts) ← readDirectives false [] tokens
    let (events, ts) ← match ts with
      | .documentStart :: ts => ofDocument handles .content ts
      | ts => if ts.length = tokens.length then ofDocument [] (.value true false) ts else none
    if isOver ts then some events else none

end Event
end Yaml
end AccessDepth
