import AnySome.CommandLine.Arguments
import AnySome.CommandLine.Log
import AnySome.CommandLine.Options
import AnySome.CommandLine.Usage
import AnySome.Config.Basic
import AnySome.Config.Json
import AnySome.Config.Relaxed
import AnySome.Cursor.Basic
import AnySome.Cursor.Fault
import AnySome.Cursor.Parser
import AnySome.Cursor.Skip
import AnySome.Declaration.Basic
import AnySome.Declaration.Parser
import AnySome.Interface.Heuristic
import AnySome.Interface.Registry
import AnySome.Interface.Resolution
import AnySome.Main
import AnySome.Migration.File
import AnySome.Migration.Policy
import AnySome.Migration.Requalify
import AnySome.Numeric.Rounding
import AnySome.Pipeline
import AnySome.Program
import AnySome.Project.Discovery
import AnySome.Project.FileTree
import AnySome.Project.Path
import AnySome.Report.Basic
import AnySome.Report.Render
import AnySome.Source.Blank
import AnySome.Source.Diagnostic
import AnySome.Source.Name
import AnySome.Source.Position
import AnySome.Source.Span
import AnySome.Source.Text
import AnySome.SourceFile
import AnySome.Token.Basic
import AnySome.Token.Kind
import AnySome.Token.Literal
import AnySome.Token.Scan
import AnySome.Token.Trivia
import AnySome.TypeExpr.Basic
import AnySome.TypeExpr.Parser
import AnySome.TypeExpr.Printer
import AnySome.Proofs.PathOrder
import AnySome.Proofs.Schedule.Basic
import AnySome.Proofs.Schedule.Invariant
import AnySome.Proofs.Schedule.Safety
import AnySome.Proofs.Schedule.Accounting
import AnySome.Proofs.Schedule.Sequential
import AnySome.Proofs.Run.Leads
import AnySome.Proofs.Run.Steady
import AnySome.Proofs.Run.Retrace
import AnySome.Proofs.TypeGrammar.Basic
import AnySome.Proofs.Run.Loops
import AnySome.Proofs.TypeGrammar.Steps
import AnySome.Proofs.TypeGrammar.Sound
import AnySome.Proofs.TypeGrammar.Shape
import AnySome.Proofs.TypeGrammar.Complete
import AnySome.Proofs.Lexical.Form
import AnySome.Proofs.Lexical.Hinge
import AnySome.Proofs.Lexical.Extent
import AnySome.Proofs.Lexical.Reads
import AnySome.Proofs.Lexical.Settled
import AnySome.Proofs.Lexical.Delimiters
import AnySome.Proofs.Lexical.Strings
import AnySome.Proofs.Lexical.RawStrings
import AnySome.Proofs.Lexical.OneLine
import AnySome.Proofs.Respell.Regap
import AnySome.Proofs.Respell.Variant
import AnySome.Proofs.Respell.Parts
import AnySome.Proofs.Respell.Canonical
import AnySome.Proofs.Mirror.Chunks
import AnySome.Proofs.Mirror.Declarations
import AnySome.Proofs.Mirror.Lookahead
import AnySome.Proofs.Mirror.Outline
import AnySome.Proofs.Mirror.Simulation
import AnySome.Proofs.Rewrite.Reread
import AnySome.Proofs.Migration.Sites
import AnySome.Proofs.Migration.Nodes
import AnySome.Proofs.Migration.Passes
import AnySome.Proofs.Rewrite.Lossless
import AnySome.Proofs.Migration.Opacity
import AnySome.Proofs.Rewrite.Idempotence
import AnySome.Proofs.Rewrite.Nesting
import AnySome.Proofs.Config.Tokens
import AnySome.Proofs.Config.Normalize
import AnySome.Proofs.Balance.Units
import AnySome.Proofs.Balance.Tidy
import AnySome.Proofs.Balance.Declarations
import AnySome.Proofs.Migration.Exclusion
import AnySome.Proofs.TypeGrammar.Alone
import AnySome.Proofs.Rewrite.Depth
import AnySome.Proofs.Lexical.Gap
import AnySome.Proofs.Lexical.Tiling
import AnySome.Proofs.Lexical.Recoding
import AnySome.Proofs.Lexical.RecodedTokens
import AnySome.Proofs.Lexical.Bytes
import AnySome.Proofs.Control.Script
import AnySome.Proofs.Control.Runs
import AnySome.Proofs.Control.Realizes
import AnySome.Proofs.Control.Skipping
import AnySome.Proofs.Control.Types
import AnySome.Proofs.Control.Declarations
import AnySome.Proofs.Run.Rejection
import AnySome.Proofs.Rewrite.Detection
import AnySome.Proofs.Project.WriteBack
import AnySome.Proofs.Project.Search
import AnySome.Proofs.Schedule.SecondRun
import AnySome.Proofs.Schedule.Verdict
import AnySome.Proofs.LineEnds.Basic
import AnySome.Proofs.LineEnds.Coding
import AnySome.Proofs.LineEnds.Gaps
import AnySome.Proofs.LineEnds.Tokens
import AnySome.Proofs.LineEnds.Conversion
import AnySome.Proofs.LineEnds.Cursors
import AnySome.Proofs.LineEnds.Simulation
import AnySome.Proofs.LineEnds.Types
import AnySome.Proofs.LineEnds.Declarations
import AnySome.Proofs.LineEnds.Migration
import AnySome.Proofs.Rewrite.Standalone
import AnySome.Proofs.Migration.Placement
import AnySome.Proofs.Migration.Erasure
import AnySome.Proofs.Migration.Conservative
import AnySome.Proofs.Migration.Stacking
import AnySome.Proofs.Schedule.Registration
import AnySome.Proofs.Respell.Comments
import AnySome.Proofs.Rewrite.Comments
import AnySome.Proofs.Migration.Frame
import AnySome.Proofs.Rewrite.Slices
import AnySome.Proofs.Findings.Anchored
import AnySome.Proofs.Findings.Placement
