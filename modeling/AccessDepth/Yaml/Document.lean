import AccessDepth.Yaml.Event
import AccessDepth.Yaml.Token.Lexer

/-!
# AccessDepth.Yaml.Document

The mapping that a text writes, as far as a reader of scalars needs it.

* `Yaml.readMapping` — the keys and values in order; none if the text is no YAML, holds no document
  or more than one, or has something else than a mapping in it.
* `Anchors` — the values that aliases refer to.

What stands inside a value that is a list or a mapping counts only for its anchors.
-/

namespace AccessDepth
namespace Yaml

/-- A key or a value of a mapping. -/
inductive Value where
  | scalar (s : Scalar)
  | collection
  deriving DecidableEq, Repr, Inhabited

/-! ## Anchors -/

/-- The anchors of the events so far. A name gets the number of different names before it, also
when it is given again; a number stands for the last value that got it. -/
structure Anchors where
  numbers : List (String × Nat)
  values : List (Nat × Value)

namespace Anchors

def empty : Anchors := ⟨[], []⟩

/-- The number of different names. -/
def size (a : Anchors) : Nat := (a.numbers.map Prod.fst).eraseDups.length

def add (a : Anchors) (v : Value) : Option String → Anchors
  | none => a
  | some name => ⟨(name, a.size) :: a.numbers, (a.size, v) :: a.values⟩

/-- The anchors after an event, and the number that an alias stands for; refused if nothing has that
name yet. -/
def afterEvent (a : Anchors) : Event → Option (Anchors × Option Nat)
  | .scalar anchor s => some (a.add (.scalar s) anchor, none)
  | .opened anchor _ => some (a.add .collection anchor, none)
  | .closed => some (a, none)
  | .reference name => (a.numbers.lookup name).map fun n => (a, some n)

end Anchors

/-! ## Mappings -/

/-- A value that is written, or the number of one. -/
inductive Reference where
  | direct (v : Value)
  | numbered (n : Nat)
  deriving DecidableEq, Repr, Inhabited

def Reference.value? (a : Anchors) : Reference → Option Value
  | .direct v => some v
  | .numbered n => a.values.lookup n

/-- The items of the outermost collection, and all anchors; `depth` collections are open. -/
def items (a : Anchors) (depth : Nat) : List Event → Option (List Reference × Anchors)
  | [] => some ([], a)
  | e :: es => do
    let (a, number) ← a.afterEvent e
    let item : Option Reference := match e with
      | .scalar _ s => some (.direct (.scalar s))
      | .opened _ _ => some (.direct .collection)
      | .closed => none
      | .reference _ => number.map .numbered
    let depthAfter := match e with
      | .opened _ _ => depth + 1
      | .closed => depth - 1
      | _ => depth
    let (more, a) ← items a depthAfter es
    some (if depth = 1 then item.toList ++ more else more, a)

/-- Keys and values by turns. -/
def pairs {α : Type} : List α → List (α × α)
  | k :: v :: rest => (k, v) :: pairs rest
  | _ => []

/-- The keys and values of a mapping. -/
def mappingOf (events : List Event) : Option (List (Value × Value)) := do
  let (refs, a) ← items .empty 0 events
  match events with
  | .opened _ .mapping :: _ => pairs <$> refs.mapM (Reference.value? a)
  | _ => none

def readMapping (text : String) : Option (List (Value × Value)) := do
  let tokens ← Token.ofText (← characters text)
  mappingOf (← Event.ofTokens tokens)

end Yaml
end AccessDepth
