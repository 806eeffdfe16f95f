import AccessDepth.Kind
import AccessDepth.Path
import AccessDepth.Run.Loader

/-!
# AccessDepth.Command.Arguments

The words of the command line.

* `Switch` — the options and flags, with their names and the values they take.
* `Given.scan` — splits a list of words into options and other words.
* `Request.ofArguments?` — what a command line asks for. Settings that concern every command may
  stand before or after its name; after it they win. No option may be given twice in one place.

A value follows its option as a word of its own, after an equals sign, or, for an option of one
letter, at once. A word of its own must not start with a hyphen. Help and the version are given as
soon as they are asked for, and what stands after that does not matter.
-/

namespace AccessDepth

/-- A number of decimal digits. -/
def digits? (cs : List Char) : Option Nat :=
  if cs.isEmpty || !cs.all Char.isDigit then none
  else some (cs.foldl (fun n c => n * 10 + (c.toNat - '0'.toNat)) 0)

/-- An unsigned number of 64 bits, perhaps with a plus sign. -/
def natural? (s : String) : Option Nat :=
  let magnitude := match s.toList with
    | '+' :: cs => digits? cs
    | cs => digits? cs
  magnitude.filter (· < UInt64.size)

/-- A signed number of 64 bits, perhaps with a sign. -/
def integer? (s : String) : Option Int :=
  let value : Option Int := match s.toList with
    | '+' :: cs => (digits? cs).map fun n => (n : Int)
    | '-' :: cs => (digits? cs).map fun n => -(n : Int)
    | cs => (digits? cs).map fun n => (n : Int)
  value.filter fun n => Int64.minValue.toInt ≤ n ∧ n ≤ Int64.maxValue.toInt

/-- A path must not be empty. -/
def nonemptyPath? (s : String) : Option Path := if s = "" then none else some ⟨s⟩

/-! ## Options and flags -/

/-- An option or flag. -/
inductive Switch where
  | config | corpus | database | verbose | mode | parseWorkers | writeWorkers | unitsFile | yes
  | minDepth | help | version
  deriving DecidableEq, Repr

namespace Switch

def long : Switch → String
  | .config => "config"
  | .corpus => "corpus"
  | .database => "database"
  | .verbose => "verbose"
  | .mode => "mode"
  | .parseWorkers => "parse-workers"
  | .writeWorkers => "write-workers"
  | .unitsFile => "units-file"
  | .yes => "yes"
  | .minDepth => "min-depth"
  | .help => "help"
  | .version => "version"

def short? : Switch → Option Char
  | .config => some 'c'
  | .verbose => some 'v'
  | .mode => some 'm'
  | .yes => some 'y'
  | .help => some 'h'
  | .version => some 'V'
  | _ => none

def takesValue : Switch → Bool
  | .verbose | .yes | .help | .version => false
  | _ => true

/-- Whether a value is one that the option takes. -/
def accepts (s : Switch) (value : String) : Bool :=
  match s with
  | .config | .corpus | .database => (nonemptyPath? value).isSome
  | .mode => (Vocabulary.parse? value : Option Mode).isSome
  | .parseWorkers | .writeWorkers => (natural? value).isSome
  | .minDepth => (integer? value).isSome
  | .verbose | .unitsFile | .yes | .help | .version => true

/-- Whether the flag asks for a text about the tool, and for nothing else. -/
def isQuestion (s : Switch) : Bool := s == .help || s == .version

/-- Those that concern every command. -/
def everywhere : List Switch := [.config, .corpus, .database, .verbose, .help, .version]

end Switch

/-- Options with their values, a flag with the empty text; and the other words. -/
structure Given where
  options : List (Switch × String)
  words : List String

namespace Given

def empty : Given := ⟨[], []⟩

/-- The options of a group of letters, and the one at its end that still waits for its value. -/
def letters (accepted : List Switch) : List Char → Option (List (Switch × String) × Option Switch)
  | [] => some ([], none)
  | c :: cs => do
    let s ← accepted.find? fun s => s.short? == some c
    if s.isQuestion then some ([(s, "")], none)
    else if s.takesValue then
      match cs with
      | [] => some ([], some s)
      | '=' :: value => some ([(s, String.ofList value)], none)
      | value => some ([(s, String.ofList value)], none)
    else
      let (options, waiting) ← letters accepted cs
      some ((s, "") :: options, waiting)

/-- The option of a long name, and its value if it stands after an equals sign. -/
def named (accepted : List Switch) (cs : List Char) :
    Option (List (Switch × String) × Option Switch) := do
  let name := cs.takeWhile (· ≠ '=')
  let s ← accepted.find? fun s => s.long.toList == name
  match cs.dropWhile (· ≠ '=') with
  | [] => if s.takesValue then some ([], some s) else some ([(s, "")], none)
  | _ :: value => if s.takesValue then some ([(s, String.ofList value)], none) else none

/-- Whether a word is an option or flag, and not a value. -/
def isSwitch (word : String) : Bool :=
  match word.toList with
  | '-' :: _ :: _ => true
  | _ => false

/-- The options of a word that is one or more of them. -/
def ofWord (accepted : List Switch) (word : String) :
    Option (List (Switch × String) × Option Switch) :=
  match word.toList with
  | '-' :: '-' :: cs => named accepted cs
  | '-' :: cs => letters accepted cs
  | _ => none

/-- Splits words into options and others. Where a command is expected, its name ends the scan, and
what follows it is returned. A question ends the scan as well. After two hyphens every word is an
other word. -/
def scan (accepted : List Switch) (commandExpected : Bool) :
    List String → Option (Given × List String)
  | [] => some (.empty, [])
  | word :: rest =>
    if word = "--" then
      if commandExpected then none else some (⟨[], rest⟩, [])
    else if isSwitch word then do
      let (options, waiting) ← ofWord accepted word
      if options.any fun o => o.1.isQuestion then some (⟨options, []⟩, [])
      else
        match waiting with
        | none =>
          let (g, after) ← scan accepted commandExpected rest
          some ({ g with options := options ++ g.options }, after)
        | some s =>
          match rest with
          | [] => none
          | value :: rest =>
            if isSwitch value then none
            else
              let (g, after) ← scan accepted commandExpected rest
              some ({ g with options := options ++ (s, value) :: g.options }, after)
    else if commandExpected then some (.empty, word :: rest)
    else do
      let (g, after) ← scan accepted commandExpected rest
      some ({ g with words := word :: g.words }, after)

/-- The value of an option, if it is given. -/
def value? (g : Given) (s : Switch) : Option String := (g.options.lookup s)

/-- Whether a flag is given. -/
def has (g : Given) (s : Switch) : Bool := (g.value? s).isSome

/-- Whether every value is one that its option takes, and no option but the one for more messages is
given twice. -/
def isSound (g : Given) : Bool :=
  (g.options.all fun o => o.1.accepts o.2) &&
    decide ((g.options.map (·.1)).filter (· != .verbose)).Nodup

end Given

/-! ## Commands -/

/-- The name of a command. -/
inductive CommandName where
  | run | truncate | stats | depths
  deriving DecidableEq, Repr

namespace CommandName

def all : List CommandName := [.run, .truncate, .stats, .depths]

def text : CommandName → String
  | .run => "run"
  | .truncate => "truncate"
  | .stats => "stats"
  | .depths => "depths"

def parse? (s : String) : Option CommandName := all.find? fun c => c.text == s

/-- The options and flags of the command's own. -/
def switches : CommandName → List Switch
  | .run => [.mode, .parseWorkers, .writeWorkers, .unitsFile]
  | .truncate => [.yes]
  | .stats => []
  | .depths => [.minDepth]

/-- Whether these may be words that the command takes, or the first of them. -/
def takesWords (c : CommandName) (words : List String) : Bool :=
  match c, words with
  | _, [] => true
  | .depths, [file] => (nonemptyPath? file).isSome
  | _, _ => false

end CommandName

/-- What is to be done. -/
inductive Command where
  | run (mode : Mode) (parseWorkers writeWorkers : Option Nat) (unitsFile : String)
  | truncate (confirmed : Bool)
  | stats
  | depths (file : Path) (minDepth : Option Int)
  deriving DecidableEq

/-- A command with the settings that concern every command. -/
structure Invocation where
  config : Option Path
  corpus : Option Path
  database : Option Path
  command : Command
  deriving DecidableEq

/-- What a page of help is about. -/
inductive Topic where
  | tool
  | command (c : CommandName)
  /-- The command that shows help. -/
  | help
  deriving DecidableEq

/-- The word that asks for help on a command. -/
def Topic.helpWord : String := "help"

/-- The topic of a command's name. -/
def Topic.parse? (s : String) : Option Topic :=
  if s = helpWord then some .help else (CommandName.parse? s).map .command

/-- What a command line asks for. -/
inductive Request where
  | help (about : Topic)
  | version (command : Option CommandName)
  | invoke (invocation : Invocation)
  deriving DecidableEq

namespace Request

/-- The first question among some options. -/
def question? (command : Option CommandName) (g : Given) : Option Request :=
  if g.has .help then some (.help ((command.map .command).getD .tool))
  else if g.has .version then some (.version command)
  else none

/-- A command with what is given for it. -/
def commandOf? (c : CommandName) (g : Given) : Option Command :=
  match c, g.words with
  | .run, _ => some (.run (((g.value? .mode).bind Vocabulary.parse?).getD .all)
      ((g.value? .parseWorkers).bind natural?) ((g.value? .writeWorkers).bind natural?)
      ((g.value? .unitsFile).getD Loader.defaultFileName))
  | .truncate, _ => some (.truncate (g.has .yes))
  | .stats, _ => some .stats
  | .depths, [file] => some (.depths ⟨file⟩ ((g.value? .minDepth).bind integer?))
  | .depths, _ => none

/-- What is asked for by a command with the options before and after its name. -/
def ofCommand? (c : CommandName) (before after : Given) : Option Request := do
  guard (after.isSound && c.takesWords after.words)
  match question? (some c) after with
  | some r => some r
  | none =>
    let setting (s : Switch) : Option Path :=
      (after.value? s).or (before.value? s) |>.map fun text => ⟨text⟩
    some (.invoke {
      config := setting .config, corpus := setting .corpus, database := setting .database,
      command := ← commandOf? c after })

/-- What a command line asks for. -/
def ofArguments? (arguments : List String) : Option Request := do
  let (before, rest) ← Given.scan Switch.everywhere true arguments
  guard before.isSound
  match question? none before, rest with
  | some r, _ => some r
  | none, [] => none
  | none, name :: rest =>
    match CommandName.parse? name with
    | some c =>
      let (after, _) ← Given.scan (Switch.everywhere ++ c.switches) false rest
      ofCommand? c before after
    | none =>
      if name = Topic.helpWord then
        match rest with
        | [] => some (.help .tool)
        | [topic] => (Topic.parse? topic).map .help
        | _ => none
      else none

end Request

end AccessDepth
