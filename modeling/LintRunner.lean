import LintRunner.Main
import LintRunner.Repository.History
import LintRunner.Proofs.Utf8
import LintRunner.Proofs.Listing
import LintRunner.Proofs.Relay
import LintRunner.Proofs.Glob
import LintRunner.Proofs.Fnmatch
import LintRunner.Proofs.DryRun
import LintRunner.Proofs.Interleaving
import LintRunner.Proofs.CallerDirectory
import LintRunner.Proofs.IgnoreContents
import LintRunner.Proofs.UnreadableNames
import LintRunner.Proofs.FoundTool
import LintRunner.Proofs.Advice
import LintRunner.Proofs.IgnoreLines
import LintRunner.Proofs.MatchedPattern
import LintRunner.Proofs.ClassBounds
import LintRunner.Proofs.TakenAsText
import LintRunner.Proofs.BrokenRelay
import LintRunner.Proofs.Coverage
import LintRunner.Proofs.PassedOver
import LintRunner.Proofs.Reaping
import LintRunner.Proofs.WrittenDatabase
import LintRunner.Proofs.CommandWords
import LintRunner.Proofs.NormalPaths
import LintRunner.Proofs.VersionedTool
import LintRunner.Proofs.LogGroup
import LintRunner.Proofs.SettledGlobs
import LintRunner.Proofs.QuotedText
import LintRunner.Proofs.KeptPatterns
import LintRunner.Proofs.Lookups
