import AccessDepth.Command.Arguments

/-!
# AccessDepth.Command.Help

The texts about the tool.

* `Help.columns` — labels with what is said about them beside them.
* `Help.page` — how to call the tool, or one of its commands.
* `Help.versionLine` — the version.
-/

namespace AccessDepth
namespace Help

def blanks (n : Nat) : String := String.ofList (List.replicate n ' ')

/-- A label with what is said about it. -/
structure Item where
  label : String
  about : String

/-- Items, one below the other; a line is as long as its text needs. -/
def columns (items : List Item) : List String :=
  let widest := items.foldl (fun n i => max n i.label.length) 0
  items.map fun i => "  " ++ i.label ++ blanks (widest + 2 - i.label.length) ++ i.about

/-! ## What is said -/

def aboutSwitch : Switch → String
  | .config => "YAML configuration file"
  | .corpus =>
    "Corpus root directory (overrides the configuration; defaults to current directory)"
  | .database => "Database file (overrides the configuration)"
  | .verbose => "Verbose output (can be repeated: -v, -vv, -vvv)"
  | .mode => "Passes to run (defs, depth, all, make, alloc-sizes) [default: all]"
  | .parseWorkers => "Parse workers (defaults to a quarter of the hardware threads)"
  | .writeWorkers => "Analyze/write workers (defaults to an eighth of the hardware threads)"
  | .unitsFile =>
    "Name of the per-directory unit export [default: " ++ Loader.defaultFileName ++ "]"
  | .yes => "Confirm deleting every row"
  | .minDepth => "Only show accesses at or below this depth"
  | .help => "Print help"
  | .version => "Print version"

def aboutCommand : CommandName → String
  | .run => "Analyze every pending directory of the corpus"
  | .truncate => "Delete every row from every table"
  | .stats => "Show row counts per table"
  | .depths => "Show the memory accesses recorded for one source file"

def aboutTool : String :=
  "Relational encoder and memory-access depth analyzer for Go source corpora"

def toolName : String := "memdepth"

/-- The name of an option's value: that of the option in capitals. -/
def valueName (s : Switch) : String := s.long.map fun c => if c = '-' then '_' else c.toUpper

/-- An option with its letter and its value. -/
def label (s : Switch) : String :=
  let letter := match s.short? with
    | some c => String.ofList ['-', c, ',', ' ']
    | none => blanks 4
  let value :=
    if s.takesValue then " <" ++ valueName s ++ ">" else if s = .verbose then "..." else ""
  letter ++ "--" ++ s.long ++ value

def switchItem (s : Switch) : Item := ⟨label s, aboutSwitch s⟩

/-- The options and flags in the order of a page. -/
def listed : Topic → List Switch
  | .tool | .command .stats => [.config, .corpus, .database, .verbose, .help, .version]
  | .command .run =>
    [.config, .mode, .corpus, .parseWorkers, .database, .writeWorkers, .unitsFile, .verbose, .help,
      .version]
  | .command .truncate => [.config, .yes, .corpus, .database, .verbose, .help, .version]
  | .command .depths => [.config, .minDepth, .corpus, .database, .verbose, .help, .version]
  | .help => []

def aboutTopic : Topic → String
  | .tool => aboutTool
  | .command c => aboutCommand c
  | .help => "Print this message or the help of the given subcommand(s)"

/-- The commands with what they do. -/
def commands : List Item :=
  CommandName.all.map (fun c => ⟨c.text, aboutCommand c⟩) ++
    [⟨Topic.helpWord, aboutTopic .help⟩]

/-- The words that a command takes. -/
def arguments : Topic → List Item
  | .command .depths =>
    [⟨"<FILE>", "Source file, as recorded (absolute path under the corpus root)"⟩]
  | .help => [⟨"[COMMAND]...", "Print help for the subcommand(s)"⟩]
  | _ => []

/-- How a topic is called: its words in order. -/
def usage (about : Topic) : String :=
  let name := match about with
    | .tool => []
    | .command c => [c.text]
    | .help => [Topic.helpWord]
  let options := if (listed about).isEmpty then [] else ["[OPTIONS]"]
  let command := if about = .tool then ["<COMMAND>"] else []
  " ".intercalate ([toolName] ++ name ++ options ++ command ++ (arguments about).map (·.label))

/-- The parts of a page that list something. -/
def sections (about : Topic) : List (String × List Item) :=
  [("Commands:", if about = .tool then commands else []), ("Arguments:", arguments about),
    ("Options:", (listed about).map switchItem)].filter fun s => !s.2.isEmpty

/-- What is said about a topic, how it is called, and what it takes. -/
def page (about : Topic) : List String :=
  [aboutTopic about, "", "Usage: " ++ usage about] ++
    (sections about).flatMap fun s => "" :: s.1 :: columns s.2

def versionLine (command : Option CommandName) : String :=
  toolName ++ ((command.map fun c => "-" ++ c.text).getD "") ++ " 0.1.0"

end Help
end AccessDepth
