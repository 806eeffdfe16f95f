/-!
# AccessDepth.Cache

A cache that forgets what was used least recently.

* `Cache.get` — the value of a key, which becomes the most recent one.
* `Cache.put` — sets the value of a key, which becomes the most recent one; in a full cache the
  least recent key is forgotten.
* `Cache.find?` — the value of a key, with nothing changed.
-/

namespace AccessDepth

structure Cache (κ ν : Type) where
  capacity : Nat
  /-- The most recently used entry first. -/
  entries : List (κ × ν)

namespace Cache

variable {κ ν : Type} [DecidableEq κ]

def empty (capacity : Nat) : Cache κ ν := ⟨capacity, []⟩

def size (c : Cache κ ν) : Nat := c.entries.length

def find? (c : Cache κ ν) (key : κ) : Option ν :=
  (c.entries.find? fun e => e.1 = key).map (·.2)

/-- The entries of the other keys. -/
def others (c : Cache κ ν) (key : κ) : List (κ × ν) := c.entries.filter fun e => e.1 ≠ key

def put (c : Cache κ ν) (key : κ) (value : ν) : Cache κ ν :=
  { c with entries := ((key, value) :: c.others key).take c.capacity }

def get (c : Cache κ ν) (key : κ) : Option ν × Cache κ ν :=
  match c.find? key with
  | some value => (some value, { c with entries := (key, value) :: c.others key })
  | none => (none, c)

/-- Puts entries one after the other. -/
def putAll (c : Cache κ ν) (entries : List (κ × ν)) : Cache κ ν :=
  entries.foldl (fun c e => c.put e.1 e.2) c

end Cache

end AccessDepth
