import FractalFormula.Main
import FractalFormula.Proofs.Acceptance
import FractalFormula.Proofs.Advance
import FractalFormula.Proofs.Branches
import FractalFormula.Proofs.Canonical
import FractalFormula.Proofs.Comparison
import FractalFormula.Proofs.Condition
import FractalFormula.Proofs.Emission
import FractalFormula.Proofs.Estimate
import FractalFormula.Proofs.Extent
import FractalFormula.Proofs.Findings
import FractalFormula.Proofs.Grouped
import FractalFormula.Proofs.Heading
import FractalFormula.Proofs.Insignificant
import FractalFormula.Proofs.Instruction
import FractalFormula.Proofs.Lookup
import FractalFormula.Proofs.Modulus
import FractalFormula.Proofs.Negation
import FractalFormula.Proofs.Operands
import FractalFormula.Proofs.Ordinary
import FractalFormula.Proofs.Overflow
import FractalFormula.Proofs.Paired
import FractalFormula.Proofs.Pointing
import FractalFormula.Proofs.Products
import FractalFormula.Proofs.Progress
import FractalFormula.Proofs.Reach
import FractalFormula.Proofs.Recognition
import FractalFormula.Proofs.Rescaling
import FractalFormula.Proofs.Resolvable
import FractalFormula.Proofs.Room
import FractalFormula.Proofs.Rounding
import FractalFormula.Proofs.Section
import FractalFormula.Proofs.SeedBits
import FractalFormula.Proofs.Seeding
import FractalFormula.Proofs.SelfProduct
import FractalFormula.Proofs.Shifts
import FractalFormula.Proofs.Simulation
import FractalFormula.Proofs.Squares
import FractalFormula.Proofs.Sums
import FractalFormula.Proofs.Table
import FractalFormula.Proofs.Unread
import FractalFormula.Proofs.Usage
