import LineCode.Compile
import LineCode.Machine.Run
import LineCode.Proofs.Pool
import LineCode.Proofs.Lending
import LineCode.Proofs.Loading
import LineCode.Proofs.Emission
import LineCode.Proofs.Sections
import LineCode.Proofs.Labels
import LineCode.Proofs.Layout
import LineCode.Proofs.Vocabulary
import LineCode.Proofs.Legibility
import LineCode.Proofs.Slots
import LineCode.Proofs.Scoping
import LineCode.Proofs.Isolation
import LineCode.Proofs.Correspondence
import LineCode.Proofs.Erasure
import LineCode.Proofs.Renaming
import LineCode.Proofs.Agreement
import LineCode.Proofs.Safety
import LineCode.Proofs.Evaluation
import LineCode.Proofs.Execution
import LineCode.Proofs.Fragment
import LineCode.Proofs.Expressions
import LineCode.Proofs.Statements
import LineCode.Proofs.Preservation
import LineCode.Proofs.Balance
import LineCode.Proofs.Acceptance
import LineCode.Proofs.History
import LineCode.Proofs.Insertion
import LineCode.Proofs.Splicing
import LineCode.Proofs.Transparency
import LineCode.Proofs.Aliasing
import LineCode.Proofs.Occurrences
import LineCode.Proofs.Convention
import LineCode.Proofs.Crossing
import LineCode.Proofs.Nesting
import LineCode.Proofs.Spending
import LineCode.Proofs.Sparing
import LineCode.Proofs.Occupancy
import LineCode.Proofs.Addresses
import LineCode.Proofs.Inspection
import LineCode.Proofs.Spacing
