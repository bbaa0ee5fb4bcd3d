import RegexMachine.Pattern.Report
import RegexMachine.Proofs.GuardedSearches
import RegexMachine.Proofs.Resumption
import RegexMachine.Proofs.Scans
import RegexMachine.Regex
import RegexMachine.Proofs.Characters
import RegexMachine.Proofs.Folds
import RegexMachine.Proofs.Charts
import RegexMachine.Proofs.LeastBytes
import RegexMachine.Proofs.Beginnings
import RegexMachine.Proofs.SoundHints
import RegexMachine.Proofs.Reuse
import RegexMachine.Proofs.Generated
import RegexMachine.Proofs.Callers
import RegexMachine.Proofs.CallDepth
import RegexMachine.Proofs.AbsentBodies
import RegexMachine.Proofs.Selections
import RegexMachine.Proofs.Reports
import RegexMachine.Proofs.Budgets
import RegexMachine.Proofs.LiteralSpans
import RegexMachine.Proofs.EscapedTexts
import RegexMachine.Proofs.LiteralPrograms
import RegexMachine.Proofs.TextSearches
import RegexMachine.Proofs.FoldedSpans
import RegexMachine.Proofs.ExpandedSearches
import RegexMachine.Proofs.Concord
import RegexMachine.Proofs.ConcordLoops
import RegexMachine.Proofs.CodeSets
import RegexMachine.Proofs.ConcordCalls
import RegexMachine.Proofs.ConcordTrees
import RegexMachine.Proofs.CountedLoops
import RegexMachine.Proofs.FullReadings
import RegexMachine.Proofs.Renumbering
import RegexMachine.Proofs.PropertyLookups
import RegexMachine.Proofs.CharClasses
import RegexMachine.Proofs.TypeRanges
import RegexMachine.Proofs.Descents
import RegexMachine.Proofs.CodeSizes
