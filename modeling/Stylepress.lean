import Stylepress.Text.Blank
import Stylepress.Text.Pieces
import Stylepress.Text.Pass
import Stylepress.Text.Utf8
import Stylepress.Text.Integer
import Stylepress.Css.Level
import Stylepress.Css.Token
import Stylepress.Css.Comment
import Stylepress.Css.EmptyRuleset
import Stylepress.Css.Spacing
import Stylepress.Css.Semicolon
import Stylepress.Css.Segment
import Stylepress.Css.Condition
import Stylepress.Css.Line
import Stylepress.Css.Layout
import Stylepress.Css.Minify
import Stylepress.Disk.Path
import Stylepress.Disk.Basic
import Stylepress.Disk.Edit
import Stylepress.Disk.Media
import Stylepress.Web.Path
import Stylepress.Web.Link
import Stylepress.Manifest.Toml.Document
import Stylepress.Manifest.Basic
import Stylepress.Bundle.Warning
import Stylepress.Bundle.Policy
import Stylepress.Bundle.Staleness
import Stylepress.Bundle.Error
import Stylepress.Bundle.Source
import Stylepress.Bundle.Target
import Stylepress.Bundle.Basic
import Stylepress.CommandLine.Argument
import Stylepress.CommandLine.Command
import Stylepress.CommandLine.Help
import Stylepress.CommandLine.Run
import Stylepress.CommandLine.Mention
import Stylepress.Main
import Stylepress.Proofs.Plain.Sheet
import Stylepress.Proofs.Plain.Spelling
import Stylepress.Proofs.TextLaws
import Stylepress.Proofs.Plain.Cleaning
import Stylepress.Proofs.Plain.Segmentation
import Stylepress.Proofs.Bundle.Calls
import Stylepress.Proofs.Bundle.Overwriting
import Stylepress.Proofs.Plain.Layout
import Stylepress.Proofs.Plain.Pressing
import Stylepress.Proofs.Plain.Repressing
import Stylepress.Proofs.Plain.Bundling
import Stylepress.Proofs.Plain.Lightening
import Stylepress.Proofs.Bundle.Provenance
import Stylepress.Proofs.Bundle.Rebuilding
import Stylepress.Proofs.Nesting
import Stylepress.Proofs.Lines
import Stylepress.Proofs.Balance
import Stylepress.Proofs.Agreement
import Stylepress.Proofs.Fragments
import Stylepress.Proofs.Accounts
import Stylepress.Proofs.Words
import Stylepress.Proofs.Spans
import Stylepress.Proofs.Runs
import Stylepress.Proofs.EmptyRulesets
import Stylepress.Proofs.LineEnds
import Stylepress.Proofs.Terminated
import Stylepress.Proofs.Semicolons
import Stylepress.Proofs.Spaces
import Stylepress.Proofs.Compact
import Stylepress.Proofs.LoneRuleset
import Stylepress.Proofs.Urls
import Stylepress.Proofs.Bundle.Saving
import Stylepress.Proofs.Bundle.Forcing
import Stylepress.Proofs.Bundle.Failing
import Stylepress.Proofs.CommandLine.Reporting
import Stylepress.Proofs.Bundle.Surveying
import Stylepress.Proofs.Bundle.Combining
import Stylepress.Proofs.Trailing
import Stylepress.Proofs.BraceLines
import Stylepress.Proofs.NormalSpacing
import Stylepress.Proofs.Settling
import Stylepress.Proofs.WebPaths
