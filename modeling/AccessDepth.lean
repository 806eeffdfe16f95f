import AccessDepth.Analysis
import AccessDepth.Analysis.Allocation
import AccessDepth.Analysis.Definitions
import AccessDepth.Analysis.Depth
import AccessDepth.Analysis.Interning
import AccessDepth.Analysis.Scope
import AccessDepth.Analysis.Session
import AccessDepth.Cache
import AccessDepth.Chain
import AccessDepth.Command
import AccessDepth.Command.Arguments
import AccessDepth.Command.Help
import AccessDepth.Command.Report
import AccessDepth.Disk
import AccessDepth.Disk.Lossy
import AccessDepth.Double
import AccessDepth.Failure
import AccessDepth.Json
import AccessDepth.Json.Decode
import AccessDepth.Json.Reader
import AccessDepth.Json.Writer
import AccessDepth.Kind
import AccessDepth.Literal
import AccessDepth.Main
import AccessDepth.Package
import AccessDepth.Package.Export
import AccessDepth.Package.Export.Tables
import AccessDepth.Package.Export.Tree
import AccessDepth.Package.Objects
import AccessDepth.Package.Outline
import AccessDepth.Package.Render
import AccessDepth.Package.Tree
import AccessDepth.Package.Types
import AccessDepth.Path
import AccessDepth.Path.Raw
import AccessDepth.Position
import AccessDepth.Proofs.Access
import AccessDepth.Proofs.Access.Rooted
import AccessDepth.Proofs.AccessChains
import AccessDepth.Proofs.AccessRecords
import AccessDepth.Proofs.AccessRows
import AccessDepth.Proofs.Additions
import AccessDepth.Proofs.Allocation.Passes
import AccessDepth.Proofs.Allocation.Sites
import AccessDepth.Proofs.AllocationRows
import AccessDepth.Proofs.AllocationSizes
import AccessDepth.Proofs.Cache
import AccessDepth.Proofs.Caches
import AccessDepth.Proofs.ChainArithmetic
import AccessDepth.Proofs.Clashes
import AccessDepth.Proofs.Codec
import AccessDepth.Proofs.Codec.Tables
import AccessDepth.Proofs.Codec.Tree
import AccessDepth.Proofs.Corpus
import AccessDepth.Proofs.Corpus.Parts
import AccessDepth.Proofs.Declared
import AccessDepth.Proofs.Depth.Accounts
import AccessDepth.Proofs.Depth.Ends
import AccessDepth.Proofs.Depth.Entered
import AccessDepth.Proofs.Depth.Logic
import AccessDepth.Proofs.Depth.Places
import AccessDepth.Proofs.Depth.Recording
import AccessDepth.Proofs.Depth.Registered
import AccessDepth.Proofs.Depth.Sites
import AccessDepth.Proofs.Depth.Trail
import AccessDepth.Proofs.Depth.Walk
import AccessDepth.Proofs.DepthPass
import AccessDepth.Proofs.Discovery
import AccessDepth.Proofs.Disk
import AccessDepth.Proofs.Effects
import AccessDepth.Proofs.Enclosing
import AccessDepth.Proofs.FileCache
import AccessDepth.Proofs.FunctionContext
import AccessDepth.Proofs.Idempotence
import AccessDepth.Proofs.Interleaving
import AccessDepth.Proofs.Interners
import AccessDepth.Proofs.Interning
import AccessDepth.Proofs.Interning.Encoding
import AccessDepth.Proofs.Interning.Resolution
import AccessDepth.Proofs.Interning.Rows
import AccessDepth.Proofs.Interning.Success
import AccessDepth.Proofs.Interning.Termination
import AccessDepth.Proofs.Json.Lexemes
import AccessDepth.Proofs.Json.Records
import AccessDepth.Proofs.Json.Text
import AccessDepth.Proofs.Ledger
import AccessDepth.Proofs.Literals
import AccessDepth.Proofs.NamedTypes
import AccessDepth.Proofs.Nesting
import AccessDepth.Proofs.NodeRows
import AccessDepth.Proofs.Outdated
import AccessDepth.Proofs.Outside
import AccessDepth.Proofs.Outside.Alike
import AccessDepth.Proofs.Parentheses
import AccessDepth.Proofs.Parentheses.Accesses
import AccessDepth.Proofs.Parentheses.Tree
import AccessDepth.Proofs.Passes
import AccessDepth.Proofs.Paths
import AccessDepth.Proofs.Pipeline
import AccessDepth.Proofs.Pipeline.Accounts
import AccessDepth.Proofs.Pipeline.Appends
import AccessDepth.Proofs.Pipeline.Ending
import AccessDepth.Proofs.Pipeline.Moves
import AccessDepth.Proofs.Pipeline.Sequential
import AccessDepth.Proofs.Pipeline.Standing
import AccessDepth.Proofs.Pipeline.Tally
import AccessDepth.Proofs.Plan
import AccessDepth.Proofs.Plan.Accesses
import AccessDepth.Proofs.Plan.Agreement
import AccessDepth.Proofs.Plan.Allocation
import AccessDepth.Proofs.Plan.Analysis
import AccessDepth.Proofs.Plan.Completion
import AccessDepth.Proofs.Plan.Definitions
import AccessDepth.Proofs.Plan.Depth
import AccessDepth.Proofs.Plan.DepthFollows
import AccessDepth.Proofs.Plan.Effect
import AccessDepth.Proofs.Plan.Follows
import AccessDepth.Proofs.Plan.Lookups
import AccessDepth.Proofs.Plan.Operations
import AccessDepth.Proofs.Plan.Orders
import AccessDepth.Proofs.Plan.Origins
import AccessDepth.Proofs.Plan.Prepared
import AccessDepth.Proofs.Plan.Reached
import AccessDepth.Proofs.Plan.Refusal
import AccessDepth.Proofs.Plan.Rows
import AccessDepth.Proofs.Plan.Scopes
import AccessDepth.Proofs.Plan.Told
import AccessDepth.Proofs.Plan.Visits
import AccessDepth.Proofs.Progress
import AccessDepth.Proofs.PrunedWalk
import AccessDepth.Proofs.Queries
import AccessDepth.Proofs.Restart
import AccessDepth.Proofs.Resume
import AccessDepth.Proofs.Run.Course
import AccessDepth.Proofs.Run.Crew
import AccessDepth.Proofs.Run.Ending
import AccessDepth.Proofs.Run.Lines
import AccessDepth.Proofs.Run.Loading
import AccessDepth.Proofs.Run.Pass
import AccessDepth.Proofs.Run.Progress
import AccessDepth.Proofs.Run.Recorded
import AccessDepth.Proofs.Run.Reopening
import AccessDepth.Proofs.Run.Share
import AccessDepth.Proofs.Schedule
import AccessDepth.Proofs.Separate
import AccessDepth.Proofs.Session
import AccessDepth.Proofs.Shifts
import AccessDepth.Proofs.SourceDirectories
import AccessDepth.Proofs.StageHistory
import AccessDepth.Proofs.Steps
import AccessDepth.Proofs.Store.Content
import AccessDepth.Proofs.Store.Described
import AccessDepth.Proofs.Store.Growth
import AccessDepth.Proofs.Store.Record
import AccessDepth.Proofs.Store.Refusal
import AccessDepth.Proofs.Store.Sound
import AccessDepth.Proofs.StoreCalls
import AccessDepth.Proofs.Tracing
import AccessDepth.Proofs.Tree
import AccessDepth.Proofs.Trees
import AccessDepth.Proofs.Truncation
import AccessDepth.Proofs.TypeRows
import AccessDepth.Proofs.TypeSpelling
import AccessDepth.Proofs.VariableUses
import AccessDepth.Run
import AccessDepth.Run.Discovery
import AccessDepth.Run.Ledger
import AccessDepth.Run.Loader
import AccessDepth.Run.Phase
import AccessDepth.Run.Pipeline
import AccessDepth.Run.Stage
import AccessDepth.Run.Workspace
import AccessDepth.Settings
import AccessDepth.Settings.Text
import AccessDepth.Store
import AccessDepth.Store.Image
import AccessDepth.Store.Record
import AccessDepth.Store.Report
import AccessDepth.Store.Row
import AccessDepth.Store.Table
import AccessDepth.Vocabulary
import AccessDepth.Yaml.Block
import AccessDepth.Yaml.Character
import AccessDepth.Yaml.Cursor
import AccessDepth.Yaml.Document
import AccessDepth.Yaml.Event
import AccessDepth.Yaml.Number
import AccessDepth.Yaml.Plain
import AccessDepth.Yaml.Quoted
import AccessDepth.Yaml.Tag
import AccessDepth.Yaml.Token
import AccessDepth.Yaml.Token.Lexer
import AccessDepth.Yaml.Value
import AccessDepth.Yaml.Writer
