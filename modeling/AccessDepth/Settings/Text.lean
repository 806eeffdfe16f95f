import AccessDepth.Settings
import AccessDepth.Yaml.Writer

/-!
# AccessDepth.Settings.Text

The file form of settings: a YAML mapping of names to values.

* `Settings.toText` — every setting, in order; an unset one is null.
* `Settings.ofText?` — the settings that a text gives. Only the corpus root is required; names that
  are no settings are ignored, and a setting given twice is refused.
* `Settings.load`, `Settings.save` — to and from a disk.
-/

namespace AccessDepth
namespace Settings

/-- The settings in order, with what is written behind their colons. -/
def entries (c : Settings) : List (String × String) :=
  let path (p : Path) := Yaml.writeText p.text
  let number (n : Nat) := " " ++ toString n ++ "\n"
  let optional {α : Type} (write : α → String) (x : Option α) := (x.map write).getD " null\n"
  [("corpus-root", path c.corpusRoot), ("database", optional path c.database),
    ("log-dir", optional path c.logDir), ("parse-workers", optional number c.parseWorkers),
    ("write-workers", optional number c.writeWorkers), ("queue-capacity", number c.queueCapacity),
    ("busy-timeout-ms", number c.busyTimeout),
    ("type-cache-capacity", number c.typeCacheCapacity),
    ("file-cache-capacity", number c.fileCacheCapacity)]

def toText (c : Settings) : String := String.join (c.entries.map fun e => e.1 ++ ":" ++ e.2)

/-- The one value of a name, or none if it is missing; refused if it is given twice. -/
def valueIn (values : List (String × Yaml.Value)) (name : String) : Option (Option Yaml.Value) :=
  match values.filter fun e => e.1 == name with
  | [] => some none
  | [e] => some (some e.2)
  | _ => none

/-- A setting that may be unset. -/
def optional {α : Type} (read : Yaml.Value → Option α) : Option Yaml.Value → Option (Option α)
  | none => some none
  | some v => do if ← v.isUnset then some none else (read v).map some

/-- A setting that has a value when it is missing. -/
def orDefault {α : Type} (missing : α) (read : Yaml.Value → Option α) :
    Option Yaml.Value → Option α
  | none => some missing
  | some v => read v

def ofValues? (values : List (String × Yaml.Value)) : Option Settings := do
  let path (v : Yaml.Value) : Option Path := v.text?.map fun t => ⟨t⟩
  let number := Yaml.Value.number?
  let value := valueIn values
  some {
    corpusRoot := ← path (← (← value "corpus-root"))
    database := ← optional path (← value "database")
    logDir := ← optional path (← value "log-dir")
    parseWorkers := ← optional number (← value "parse-workers")
    writeWorkers := ← optional number (← value "write-workers")
    queueCapacity := ← orDefault defaultQueueCapacity number (← value "queue-capacity")
    busyTimeout := ← orDefault defaultBusyTimeout number (← value "busy-timeout-ms")
    typeCacheCapacity :=
      ← orDefault defaultCacheCapacity number (← value "type-cache-capacity")
    fileCacheCapacity :=
      ← orDefault defaultCacheCapacity number (← value "file-cache-capacity") }

def ofText? (text : String) : Option Settings := do
  let entries ← Yaml.readMapping text
  ofValues? (← entries.mapM fun (name, v) => name.text?.map (·, v))

def load (d : Disk) (p : Path) : Except Failure Settings :=
  match d.readText p with
  | .error e => .error (.file e)
  | .ok text =>
    match ofText? text with
    | some c => .ok c
    | none => .error (.settings .malformed)

def save (c : Settings) (p : Path) : Disk.Change := Disk.write p c.toText.toUTF8

end Settings
end AccessDepth
