import Retarget.Binary64
import Retarget.Cli
import Retarget.Cli.Help
import Retarget.Cli.Request
import Retarget.Command
import Retarget.Diff
import Retarget.Diff.Hunk
import Retarget.Diff.Script
import Retarget.Disk
import Retarget.Disk.Branch
import Retarget.Error
import Retarget.Extraction
import Retarget.FileQuery
import Retarget.Formatting
import Retarget.Glob.Pattern
import Retarget.Glob.Reader
import Retarget.Json
import Retarget.Json.Reader
import Retarget.Json.Typed
import Retarget.Json.Writer
import Retarget.Language
import Retarget.Main
import Retarget.Migration.Basic
import Retarget.Migration.ProjectWork
import Retarget.Migration.Run
import Retarget.OrderedMap
import Retarget.Path
import Retarget.Plugin
import Retarget.Profile
import Retarget.Profile.Draft
import Retarget.Profile.JsonDocument
import Retarget.Profile.Source
import Retarget.Profile.YamlDocument
import Retarget.Project
import Retarget.Relocation
import Retarget.Relocation.Fragment
import Retarget.Report
import Retarget.Repository
import Retarget.Repository.Ignore
import Retarget.Shell.Condition
import Retarget.Shell.Escape
import Retarget.Shell.Lexeme
import Retarget.Shell.Printing
import Retarget.Shell.Reader
import Retarget.Shell.Script
import Retarget.Shell.Session
import Retarget.Shell.Tool
import Retarget.Staging
import Retarget.Syntax.Cursor
import Retarget.Syntax.Form
import Retarget.Syntax.Grammar
import Retarget.Syntax.Grammar.Expressions
import Retarget.Syntax.Grammar.Functions
import Retarget.Syntax.Grammar.Markup
import Retarget.Syntax.Grammar.Statements
import Retarget.Syntax.Grammar.Types
import Retarget.Syntax.Lexeme
import Retarget.Syntax.Node
import Retarget.Syntax.NodeType
import Retarget.Syntax.Parse
import Retarget.Syntax.Query
import Retarget.Syntax.Rule
import Retarget.Target
import Retarget.Target.Reduction
import Retarget.Text.Blank
import Retarget.Text.Quoted
import Retarget.Text.Replace
import Retarget.Text.Utf8
import Retarget.Workspace
import Retarget.Workspace.Discovery
import Retarget.Yaml.Event
import Retarget.Yaml.Input
import Retarget.Yaml.Kind
import Retarget.Yaml.Scalar
import Retarget.Yaml.Token
import Retarget.Yaml.Typed
import Retarget.Yaml.Writer
import Retarget.Proofs.Disk.Attempting
import Retarget.Proofs.Disk.Distinct
import Retarget.Proofs.Disk.Frame
import Retarget.Proofs.Disk.Listing
import Retarget.Proofs.Disk.Places
import Retarget.Proofs.Disk.Selecting
import Retarget.Proofs.Disk.Swapping
import Retarget.Proofs.Extraction.Entries
import Retarget.Proofs.Extraction.FirstMatch
import Retarget.Proofs.Extraction.Hits
import Retarget.Proofs.Extraction.Strict
import Retarget.Proofs.Extraction.Visiting
import Retarget.Proofs.Json.Distinct
import Retarget.Proofs.Json.Equality
import Retarget.Proofs.Migration.Agreement
import Retarget.Proofs.Migration.BoundTargets
import Retarget.Proofs.Migration.Carrying
import Retarget.Proofs.Migration.Conservation
import Retarget.Proofs.Migration.Effects
import Retarget.Proofs.Migration.FailedProject
import Retarget.Proofs.Migration.FailedRun
import Retarget.Proofs.Migration.Footprint
import Retarget.Proofs.Migration.Independence
import Retarget.Proofs.Migration.IndependentRuns
import Retarget.Proofs.Migration.Outcome
import Retarget.Proofs.Migration.Persistence
import Retarget.Proofs.Migration.Preservation
import Retarget.Proofs.Migration.Refinement
import Retarget.Proofs.Migration.Rehearsal
import Retarget.Proofs.Migration.Reports
import Retarget.Proofs.Migration.Rewriting
import Retarget.Proofs.Migration.RunAccount
import Retarget.Proofs.Migration.RunLog
import Retarget.Proofs.Migration.Settling
import Retarget.Proofs.Migration.SkippedProject
import Retarget.Proofs.Migration.Swaps
import Retarget.Proofs.Migration.TargetWork
import Retarget.Proofs.Migration.Warnings
import Retarget.Proofs.OrderedMap.Adjusting
import Retarget.Proofs.OrderedMap.Distinct
import Retarget.Proofs.Path.Archive
import Retarget.Proofs.Path.Archiving
import Retarget.Proofs.Path.Canonical
import Retarget.Proofs.Path.Extension
import Retarget.Proofs.Path.Rebasing
import Retarget.Proofs.Path.Spelling
import Retarget.Proofs.Plugin.Binding
import Retarget.Proofs.Plugin.Imports
import Retarget.Proofs.Plugin.Rendering
import Retarget.Proofs.Plugin.RoundTrip
import Retarget.Proofs.Plugin.Synthesizing
import Retarget.Proofs.Project.Editing
import Retarget.Proofs.Relocation.Considering
import Retarget.Proofs.Relocation.Editing
import Retarget.Proofs.Relocation.Extracted
import Retarget.Proofs.Relocation.Literals
import Retarget.Proofs.Relocation.Normalizing
import Retarget.Proofs.Staging.Advancing
import Retarget.Proofs.Staging.Agreement
import Retarget.Proofs.Staging.Alike
import Retarget.Proofs.Staging.Bookkeeping
import Retarget.Proofs.Staging.Coherence
import Retarget.Proofs.Staging.Differences
import Retarget.Proofs.Staging.Flushing
import Retarget.Proofs.Staging.Growth
import Retarget.Proofs.Staging.Mirroring
import Retarget.Proofs.Staging.Quiet
import Retarget.Proofs.Staging.Restoring
import Retarget.Proofs.Staging.Session
import Retarget.Proofs.Staging.WriteAhead
import Retarget.Proofs.Syntax.Accepting
import Retarget.Proofs.Syntax.Bytes
import Retarget.Proofs.Syntax.Fuel
import Retarget.Proofs.Syntax.Makers
import Retarget.Proofs.Syntax.Matching
import Retarget.Proofs.Syntax.Moves
import Retarget.Proofs.Syntax.Openings
import Retarget.Proofs.Syntax.Phrases
import Retarget.Proofs.Syntax.Placed
import Retarget.Proofs.Syntax.Programs
import Retarget.Proofs.Syntax.Ranks
import Retarget.Proofs.Syntax.Reaching
import Retarget.Proofs.Syntax.Reading
import Retarget.Proofs.Syntax.Scanning
import Retarget.Proofs.Syntax.Searching
import Retarget.Proofs.Syntax.Statements
import Retarget.Proofs.Syntax.Walking
import Retarget.Proofs.Target.Pruning
import Retarget.Proofs.Target.Reducing
import Retarget.Proofs.Target.Sifting
import Retarget.Proofs.Target.Stripping
import Retarget.Proofs.Target.Tidying
import Retarget.Proofs.Target.Transforming
import Retarget.Proofs.Text.ByteOrder
import Retarget.Proofs.Workspace.Discovery
import Retarget.Proofs.Workspace.Documents
import Retarget.Proofs.Workspace.Names
import Retarget.Proofs.Relocation.Pairs
import Retarget.Proofs.Relocation.Once
import Retarget.Proofs.Relocation.Substituting
import Retarget.Proofs.Relocation.Replacing
