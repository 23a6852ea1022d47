import LabelFlow.Diagnostic.Saved
import LabelFlow.Report
import LabelFlow.Session
import LabelFlow.Term.Parse
import LabelFlow.Proofs.Acceptance
import LabelFlow.Proofs.Accumulation
import LabelFlow.Proofs.Analysis
import LabelFlow.Proofs.Assignment
import LabelFlow.Proofs.AssignmentReport
import LabelFlow.Proofs.Availability
import LabelFlow.Proofs.Bisection
import LabelFlow.Proofs.Cascade
import LabelFlow.Proofs.Checks
import LabelFlow.Proofs.ColumnCounts
import LabelFlow.Proofs.Columns
import LabelFlow.Proofs.Concatenation
import LabelFlow.Proofs.Consultation
import LabelFlow.Proofs.Definitions
import LabelFlow.Proofs.Derivation
import LabelFlow.Proofs.Discipline
import LabelFlow.Proofs.Displacement
import LabelFlow.Proofs.Display
import LabelFlow.Proofs.Distinctness
import LabelFlow.Proofs.FaultPlaces
import LabelFlow.Proofs.Findings
import LabelFlow.Proofs.FlatTerms
import LabelFlow.Proofs.Forwarding
import LabelFlow.Proofs.Grammar
import LabelFlow.Proofs.Grouping
import LabelFlow.Proofs.Guarded
import LabelFlow.Proofs.GuardedAssignment
import LabelFlow.Proofs.GuardedCursor
import LabelFlow.Proofs.GuardedNames
import LabelFlow.Proofs.GuardedReport
import LabelFlow.Proofs.GuardedRun
import LabelFlow.Proofs.GuardedSearch
import LabelFlow.Proofs.GuardedTerms
import LabelFlow.Proofs.GuardedTree
import LabelFlow.Proofs.JsonGrammar
import LabelFlow.Proofs.JsonLibrary
import LabelFlow.Proofs.JsonMembers
import LabelFlow.Proofs.JsonReading
import LabelFlow.Proofs.JsonRecords
import LabelFlow.Proofs.Layout
import LabelFlow.Proofs.Lexing
import LabelFlow.Proofs.LineSearch
import LabelFlow.Proofs.Locality
import LabelFlow.Proofs.Matching
import LabelFlow.Proofs.NameLength
import LabelFlow.Proofs.NameList
import LabelFlow.Proofs.Occurrences
import LabelFlow.Proofs.Offsets
import LabelFlow.Proofs.Outputs
import LabelFlow.Proofs.Parens
import LabelFlow.Proofs.Places
import LabelFlow.Proofs.Reading
import LabelFlow.Proofs.Regions
import LabelFlow.Proofs.Rendering
import LabelFlow.Proofs.Repeats
import LabelFlow.Proofs.Run
import LabelFlow.Proofs.Safety
import LabelFlow.Proofs.SavedCatalogs
import LabelFlow.Proofs.SavedDiagnostics
import LabelFlow.Proofs.SavedSettings
import LabelFlow.Proofs.Search
import LabelFlow.Proofs.Selection
import LabelFlow.Proofs.Subterms
import LabelFlow.Proofs.Symbols
import LabelFlow.Proofs.TermAccesses
import LabelFlow.Proofs.TermLayout
import LabelFlow.Proofs.Tokenization
import LabelFlow.Proofs.Unambiguity
import LabelFlow.Proofs.Violations
