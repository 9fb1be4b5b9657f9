import Arithmetization.Main
import Arithmetization.Language.Naming
import Arithmetization.Proofs.Numeral
import Arithmetization.Proofs.Decimal
import Arithmetization.Proofs.Readability
import Arithmetization.Proofs.Numbering
import Arithmetization.Proofs.Diagonal
import Arithmetization.Proofs.Replacement
import Arithmetization.Proofs.Growth
import Arithmetization.Proofs.Alignment
import Arithmetization.Proofs.Refusal
import Arithmetization.Proofs.Template
import Arithmetization.Proofs.Layout
import Arithmetization.Proofs.Words
import Arithmetization.Proofs.Printing
import Arithmetization.Proofs.Reader
import Arithmetization.Proofs.Reading
import Arithmetization.Proofs.Validation
import Arithmetization.Proofs.Cutting
import Arithmetization.Proofs.Lines
import Arithmetization.Proofs.Breaks
import Arithmetization.Proofs.Widening
import Arithmetization.Proofs.Coloring
import Arithmetization.Proofs.Composition
import Arithmetization.Proofs.Evaluation
import Arithmetization.Proofs.Renaming
import Arithmetization.Proofs.Magnitude
import Arithmetization.Proofs.Nesting
import Arithmetization.Proofs.ByteOrder
import Arithmetization.Proofs.Assignment
import Arithmetization.Proofs.Keys
import Arithmetization.Proofs.Document
import Arithmetization.Proofs.Prefix
import Arithmetization.Proofs.Naming
import Arithmetization.Proofs.Records
import Arithmetization.Proofs.Arguments
import Arithmetization.Proofs.Demonstration
import Arithmetization.Proofs.Digits
import Arithmetization.Proofs.Workbench
import Arithmetization.Proofs.Polish
