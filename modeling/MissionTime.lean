import MissionTime.Capped
import MissionTime.Error
import MissionTime.Arithmetic
import MissionTime.Interval
import MissionTime.Text
import MissionTime.Blocks
import MissionTime.Dictionary
import MissionTime.Formula.Basic
import MissionTime.Formula.Order
import MissionTime.Formula.Printer
import MissionTime.Formula.Horizon
import MissionTime.NormalFormula.Basic
import MissionTime.NormalFormula.Canonical
import MissionTime.Grammar.Expectation
import MissionTime.Grammar.Rule
import MissionTime.Grammar.Syntax
import MissionTime.Grammar.Production
import MissionTime.Scan
import MissionTime.Pattern.Bit
import MissionTime.Pattern.Word
import MissionTime.Pattern.Basic
import MissionTime.Pattern.Reader
import MissionTime.Cover.Basic
import MissionTime.Cover.Simplify
import MissionTime.Cover.Algebra
import MissionTime.Cover.Disjoint
import MissionTime.Cover.Expansion
import MissionTime.Trace
import MissionTime.Denotation.Engine
import MissionTime.Denotation.Session
import MissionTime.Written
import MissionTime.Proofs.Extent
import MissionTime.Proofs.Horizon
import MissionTime.Proofs.Meaning
import MissionTime.Proofs.Locality
import MissionTime.Proofs.Cover.Delay
import MissionTime.Proofs.Cover.Merging
import MissionTime.Proofs.Cover.Combination
import MissionTime.Proofs.Cover.Separation
import MissionTime.Proofs.Cover.Listing
import MissionTime.Proofs.Cover.Beginnings
import MissionTime.Proofs.Cover.Realization
import MissionTime.Proofs.Recording
import MissionTime.Proofs.Denotation.Plain
import MissionTime.Proofs.Denotation.Windows
import MissionTime.Proofs.Denotation.Coupling
import MissionTime.Proofs.Denotation.Soundness
import MissionTime.Proofs.Denotation.Lengths
import MissionTime.Proofs.Denotation.Models
import MissionTime.Proofs.Denotation.Duality
import MissionTime.Proofs.Denotation.Transparency
import MissionTime.Proofs.Denotation.History
import MissionTime.Proofs.Denotation.Confinement
import MissionTime.Proofs.Cover.Alignment
import MissionTime.Proofs.Denotation.Unrolling
import MissionTime.Proofs.Grammar.Machine
import MissionTime.Proofs.Grammar.Bounds
import MissionTime.Proofs.Grammar.Reader
import MissionTime.Proofs.Grammar.Derivation
import MissionTime.Proofs.Grammar.Reading
import MissionTime.Proofs.Grammar.Record
import MissionTime.Proofs.Grammar.Frontier
import MissionTime.Proofs.Grammar.Following
import MissionTime.Proofs.Grammar.Lexemes
import MissionTime.Proofs.Grammar.Agreement
import MissionTime.Proofs.Grammar.Entries
import MissionTime.Proofs.Grammar.Forms
import MissionTime.Proofs.Conditions
import MissionTime.Proofs.Grammar.Printing
import MissionTime.Proofs.Facade
import MissionTime.Proofs.Cover.Shape
import MissionTime.Proofs.Cover.Partition
import MissionTime.Proofs.Cover.Counting
import MissionTime.Proofs.Cover.Irreducible
import MissionTime.Proofs.Cover.Simplification
import MissionTime.Proofs.Denotation.Irreducible
import MissionTime.Proofs.Denotation.Refusal
import MissionTime.Proofs.Grammar.Nesting
import MissionTime.Proofs.Grammar.Landmarks
import MissionTime.Proofs.Validation
import MissionTime.Proofs.Congruence
import MissionTime.Proofs.Bracketing
import MissionTime.Proofs.WindowSum
import MissionTime.Proofs.Denotation.Interchange
import MissionTime.Proofs.Grammar.Numbers
import MissionTime.Proofs.Grammar.Extension
import MissionTime.Proofs.Grammar.Expectations
import MissionTime.Proofs.Grammar.FirstFailure
import MissionTime.Proofs.DoubleNegation
import MissionTime.Proofs.Grammar.Balance
import MissionTime.Proofs.Grammar.Separators
import MissionTime.Proofs.Grammar.Omissions
import MissionTime.Proofs.PatternText
import MissionTime.Proofs.Instances
import MissionTime.Proofs.Descent
import MissionTime.Proofs.Enumeration
