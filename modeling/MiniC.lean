import MiniC.Grammar.Rule
import MiniC.Main
import MiniC.Proofs.Accesses
import MiniC.Proofs.Agreement
import MiniC.Proofs.Bookkeeping
import MiniC.Proofs.Comparisons
import MiniC.Proofs.Drawing
import MiniC.Proofs.DynamicMemory
import MiniC.Proofs.Jumps
import MiniC.Proofs.LineCount
import MiniC.Proofs.Logical
import MiniC.Proofs.Nesting
import MiniC.Proofs.Offsets
import MiniC.Proofs.OneLineRun
import MiniC.Proofs.Outcomes
import MiniC.Proofs.ParsedShape
import MiniC.Proofs.Precedence
import MiniC.Proofs.Resolution
import MiniC.Proofs.ScannedInput
import MiniC.Proofs.ScopeChain
import MiniC.Proofs.Spacing
import MiniC.Proofs.TwosComplement
