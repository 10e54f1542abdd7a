import CommaStyle.CommandLine.Disk
import CommaStyle.CommandLine.Request
import CommaStyle.CommandLine.Run
import CommaStyle.Decimal
import CommaStyle.Diagnostic
import CommaStyle.Document
import CommaStyle.Grammar.Reading
import CommaStyle.Grammar.Rules
import CommaStyle.Lint
import CommaStyle.Main
import CommaStyle.Outline
import CommaStyle.Proofs.Documents
import CommaStyle.Proofs.Editing
import CommaStyle.Proofs.Exemption
import CommaStyle.Proofs.Gaps
import CommaStyle.Proofs.Grammar.Completeness
import CommaStyle.Proofs.Grammar.Completeness.Expressions
import CommaStyle.Proofs.Grammar.Completeness.Literals
import CommaStyle.Proofs.Grammar.Cutting
import CommaStyle.Proofs.Grammar.Cutting.Basic
import CommaStyle.Proofs.Grammar.Cutting.Phrases
import CommaStyle.Proofs.Grammar.Derivations
import CommaStyle.Proofs.Grammar.Guarded
import CommaStyle.Proofs.Grammar.Holes
import CommaStyle.Proofs.Grammar.InPlace
import CommaStyle.Proofs.Grammar.Literals
import CommaStyle.Proofs.Grammar.Passing
import CommaStyle.Proofs.Grammar.Progress
import CommaStyle.Proofs.Grammar.Soundness
import CommaStyle.Proofs.Grammar.Soundness.Loops
import CommaStyle.Proofs.Grammar.Tracking
import CommaStyle.Proofs.Layouts
import CommaStyle.Proofs.Leading
import CommaStyle.Proofs.Lexers
import CommaStyle.Proofs.Mending
import CommaStyle.Proofs.Relaying
import CommaStyle.Proofs.Respacing
import CommaStyle.Proofs.Scanning.Contents
import CommaStyle.Proofs.Scanning.Cuts
import CommaStyle.Proofs.Scanning.Endings
import CommaStyle.Proofs.Scanning.Fits
import CommaStyle.Proofs.Scanning.Lookahead
import CommaStyle.Proofs.Scanning.Opaque
import CommaStyle.Proofs.Scanning.Runs
import CommaStyle.Proofs.Scanning.Terminators
import CommaStyle.Proofs.Significance
import CommaStyle.Proofs.Sorting
import CommaStyle.Proofs.Standing
import CommaStyle.Proofs.Strict.Basic
import CommaStyle.Proofs.Strict.Checking
import CommaStyle.Proofs.Strict.Documents
import CommaStyle.Proofs.Surroundings
import CommaStyle.Report.Excerpt
import CommaStyle.Report.Log
import CommaStyle.Report.Window
import CommaStyle.Spacing
import CommaStyle.Settings.Fault
import CommaStyle.Settings.Input
import CommaStyle.Settings.Written
import CommaStyle.Text
import CommaStyle.Text.Quoted
import CommaStyle.Token
import CommaStyle.Proofs.Grammar.Arrangement
import CommaStyle.Proofs.Collections
import CommaStyle.Proofs.Comments
import CommaStyle.Proofs.Shapes
import CommaStyle.Proofs.Reporting
import CommaStyle.Proofs.Disks
import CommaStyle.Proofs.Runs
import CommaStyle.Proofs.Substituting
import CommaStyle.Proofs.GapEdits
import CommaStyle.Proofs.Enclosing
import CommaStyle.Proofs.Fragments
import CommaStyle.Proofs.Selecting
import CommaStyle.Proofs.Filtering
import CommaStyle.Proofs.Joining
import CommaStyle.Proofs.Scanning.Numerals
import CommaStyle.Proofs.Settings.Json
import CommaStyle.Proofs.Settings.Strings
import CommaStyle.Proofs.Settings.Values
import CommaStyle.Proofs.Settings.Options
import CommaStyle.Proofs.Grammar.Assignments
import CommaStyle.Proofs.Targets
import CommaStyle.Proofs.Grammar.Skipping
