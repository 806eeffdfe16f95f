import AccessDepth.Yaml.Block
import AccessDepth.Yaml.Plain
import AccessDepth.Yaml.Quoted
import AccessDepth.Yaml.Token

/-!
# AccessDepth.Yaml.Token.Lexer

The tokens of a text.

* `Token.ofText` — all of them, or none if one cannot be read.
* `Lexer` — how far the text is read, how deep its blocks are indented, and where a key may have
  started.
* `Lexer.token` — reads one token.

That something is a key shows only at the colon after it. Until then its place among the tokens is
kept, one for each open bracket and one for the block around them. A key lies within one line, and
its colon comes no more than `keyReach` characters after its start. Where a line of a mapping
starts, a key is required.
-/

namespace AccessDepth
namespace Yaml

/-- How far a colon may be from the start of its key. -/
def keyReach : Nat := 1024

/-- The place where a key may have started. -/
structure PossibleKey where
  isRequired : Bool
  /-- The number of tokens before it. -/
  index : Nat
  line : Nat
  column : Nat
  deriving Inhabited

structure Lexer where
  cursor : Cursor
  /-- The columns of the open blocks, the innermost first. -/
  blocks : List Nat
  /-- The possible key outside of brackets. -/
  blockKey : Option PossibleKey
  /-- The possible key inside each open bracket, the innermost first. -/
  flowKeys : List (Option PossibleKey)
  /-- Whether a key may start here. -/
  allowsKey : Bool
  count : Nat
  /-- The tokens before the cursor, the last one first. -/
  tokens : List Token

namespace Lexer

def start (cs : List Char) : Lexer :=
  { cursor := .start cs, blocks := [], blockKey := none, flowKeys := [], allowsKey := true,
    count := 0, tokens := [] }

/-- Whether the cursor is between brackets. -/
def inFlow (l : Lexer) : Bool := !l.flowKeys.isEmpty

/-- The first column at which something inside the innermost block can start. -/
def margin (l : Lexer) : Nat := (l.blocks.head?.map (· + 1)).getD 0

/-! ## Tokens and blocks -/

def push (l : Lexer) (t : Token) : Lexer := { l with count := l.count + 1, tokens := t :: l.tokens }

/-- Puts a token before those from a place on. -/
def insert (l : Lexer) (index : Nat) (t : Token) : Lexer :=
  let later := l.count - index
  { l with count := l.count + 1, tokens := l.tokens.take later ++ t :: l.tokens.drop later }

/-- Opens a block at a column that is deeper than the innermost block. Brackets hold no blocks. -/
def openBlock (l : Lexer) (column index : Nat) (t : Token) : Lexer :=
  if l.inFlow || column < l.margin then l
  else { l.insert index t with blocks := column :: l.blocks }

/-- Closes the innermost blocks that satisfy a condition. -/
def closeBlocks (l : Lexer) (p : Nat → Bool) : Lexer :=
  if l.inFlow then l
  else
    let closed := (l.blocks.takeWhile p).length
    { l with
      blocks := l.blocks.drop closed
      count := l.count + closed
      tokens := List.replicate closed .blockEnd ++ l.tokens }

/-! ## Possible keys -/

/-- The innermost possible key. -/
def possibleKey (l : Lexer) : Option PossibleKey :=
  match l.flowKeys with
  | [] => l.blockKey
  | k :: _ => k

def setKey (l : Lexer) (k : Option PossibleKey) : Lexer :=
  match l.flowKeys with
  | [] => { l with blockKey := k }
  | _ :: ks => { l with flowKeys := k :: ks }

/-- No key has started before this place; refused if one is required. -/
def dropKey (l : Lexer) : Option Lexer :=
  if l.possibleKey.any (·.isRequired) then none else some (l.setKey none)

/-- A key may start at this place. -/
def noteKey (l : Lexer) : Option Lexer :=
  if l.allowsKey then
    l.dropKey.map fun l =>
      l.setKey (some
        { isRequired := !l.inFlow && l.blocks.head? == some l.cursor.column
          index := l.count
          line := l.cursor.line
          column := l.cursor.column })
  else some l

/-- Whether a colon here would be too late for a key. -/
def isStale (c : Cursor) (k : PossibleKey) : Bool :=
  k.line < c.line || k.column + keyReach < c.column

/-- Forgets the keys whose colon is too late; refused if one of them is required. -/
def dropStale (l : Lexer) : Option Lexer :=
  let isLate (k : Option PossibleKey) : Bool := k.any (isStale l.cursor)
  let keep (k : Option PossibleKey) : Option PossibleKey := if isLate k then none else k
  if isLate l.blockKey && l.blockKey.any (·.isRequired) then none
  else some { l with blockKey := keep l.blockKey, flowKeys := l.flowKeys.map keep }

/-! ## One token -/

/-- To the next token: past blanks, comments and line breaks. A tab may not stand where a key may
start, unless that is between brackets. -/
def skipToToken : Nat → Lexer → Lexer
  | 0, l => l
  | fuel + 1, l =>
    let c := l.cursor
    let c := if c.column = 0 && c.sees byteOrderMark then c.next else c
    let tabsToo := l.inFlow || !l.allowsKey
    let c := (c.span fun x => x = ' ' || (x = '\t' && tabsToo)).2.skipComment
    if c.atBreak then
      skipToToken fuel { l with cursor := c.next, allowsKey := l.allowsKey || !l.inFlow }
    else { l with cursor := c }

/-- A token of some characters of the line, after which a key may start or not. -/
def mark (l : Lexer) (t : Token) (width : Nat) (allowsKey : Bool) : Lexer :=
  { l.push t with cursor := l.cursor.skip width, allowsKey := allowsKey }

/-- A token that was read up to a place. -/
def pass (l : Lexer) (t : Token) (c : Cursor) (allowsKey : Bool) : Lexer :=
  { l.push t with cursor := c, allowsKey := allowsKey }

/-- Outside of all blocks. -/
def leaveBlocks (l : Lexer) : Option Lexer :=
  ((l.closeBlocks fun _ => true).dropKey).map fun l => { l with allowsKey := false }

def directive (l : Lexer) : Option Lexer := do
  let l ← l.leaveBlocks
  let (d, c) ← Directive.read l.cursor
  some (l.pass (.directive d) c false)

def documentMark (l : Lexer) (t : Token) : Option Lexer := do
  let l ← l.leaveBlocks
  some (l.mark t 3 false)

def openFlow (l : Lexer) (t : Token) : Option Lexer := do
  let l ← l.noteKey
  let l := l.mark t 1 true
  some { l with flowKeys := none :: l.flowKeys }

def closeFlow (l : Lexer) (t : Token) : Option Lexer := do
  let l ← l.dropKey
  some ({ l with flowKeys := l.flowKeys.tail }.mark t 1 false)

def comma (l : Lexer) : Option Lexer := do
  let l ← l.dropKey
  some (l.mark .comma 1 true)

def item (l : Lexer) : Option Lexer := do
  if !l.inFlow && !l.allowsKey then none
  else
    let l ← (l.openBlock l.cursor.column l.count .blockSequence).dropKey
    some (l.mark .item 1 true)

/-- A question mark. -/
def key (l : Lexer) : Option Lexer := do
  if !l.inFlow && !l.allowsKey then none
  else
    let l ← (l.openBlock l.cursor.column l.count .blockMapping).dropKey
    some (l.mark .key 1 (!l.inFlow))

/-- A colon: what is before it becomes a key if it can be one. -/
def value (l : Lexer) : Option Lexer :=
  match l.possibleKey with
  | some k =>
    let l := (l.insert k.index .key).openBlock k.column k.index .blockMapping
    some ((l.setKey none).mark .value 1 false)
  | none =>
    if l.inFlow then some (l.mark .value 1 false)
    else if l.allowsKey then
      some ((l.openBlock l.cursor.column l.count .blockMapping).mark .value 1 true)
    else none

def reference (l : Lexer) : Option Lexer := do
  let l ← l.noteKey
  let (name, c) ← readAnchor l.cursor
  some (l.pass (.reference name) c false)

def anchor (l : Lexer) : Option Lexer := do
  let l ← l.noteKey
  let (name, c) ← readAnchor l.cursor
  some (l.pass (.anchor name) c false)

def tag (l : Lexer) : Option Lexer := do
  let l ← l.noteKey
  let (t, c) ← Tag.read l.inFlow l.cursor
  some (l.pass (.tag t) c false)

def block (l : Lexer) (isFolded : Bool) (size : Nat) : Option Lexer := do
  let l ← l.dropKey
  let (text, c) ← Block.read isFolded l.margin size l.cursor.next
  some (l.pass (.text (if isFolded then .folded else .literal) text) c true)

def quoted (l : Lexer) (isSingle : Bool) (size : Nat) : Option Lexer := do
  let l ← l.noteKey
  let (text, c) ← Quoted.read isSingle size l.cursor
  some (l.pass (.text .quoted text) c false)

def plain (l : Lexer) (size : Nat) : Option Lexer := do
  let l ← l.noteKey
  let r ← Plain.read l.inFlow l.margin size l.cursor
  some (l.pass (.text .plain r.text) r.after r.endsLine)

/-- The token that starts with a character; `size` bounds the length of the text. -/
def token (l : Lexer) (size : Nat) (x : Char) (cs : List Char) : Option Lexer :=
  if l.cursor.column = 0 && x = '%' then l.directive
  else if l.cursor.atMark "---" then l.documentMark .documentStart
  else if l.cursor.atMark "..." then l.documentMark .documentEnd
  else if x = '[' then l.openFlow .flowSequence
  else if x = '\x7b' then l.openFlow .flowMapping
  else if x = ']' then l.closeFlow .flowSequenceEnd
  else if x = '\x7d' then l.closeFlow .flowMappingEnd
  else if x = ',' then l.comma
  else if x = '-' && endsWord cs then l.item
  else if x = '?' && (l.inFlow || endsWord cs) then l.key
  else if x = ':' && (l.inFlow || endsWord cs) then l.value
  else if x = '*' then l.reference
  else if x = '&' then l.anchor
  else if x = '!' then l.tag
  else if x = '|' && !l.inFlow then l.block false size
  else if x = '>' && !l.inFlow then l.block true size
  else if x = '\'' then l.quoted true size
  else if x = '"' then l.quoted false size
  else if Plain.starts l.inFlow (x :: cs) then l.plain size
  else none

/-- All tokens from here on; `fuel` bounds their number. -/
def run (size : Nat) : Nat → Lexer → Option (List Token)
  | 0, _ => none
  | fuel + 1, l => do
    let l ← (skipToToken size l).dropStale
    let l := l.closeBlocks (l.cursor.column < ·)
    match l.cursor.rest with
    | [] =>
      let l ← l.leaveBlocks
      some (l.push .textEnd).tokens.reverse
    | x :: cs => run size fuel (← l.token size x cs)

end Lexer

/-- The tokens of a text; every token but the last one has a character of its own. -/
def Token.ofText (cs : List Char) : Option (List Token) :=
  let size := cs.length + 1
  Lexer.run size size (.start cs)

end Yaml
end AccessDepth
