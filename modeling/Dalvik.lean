import Dalvik.Graph.Dot
import Dalvik.Main
import Dalvik.Proofs.Optimization
import Dalvik.Proofs.Verdict
import Dalvik.Proofs.Reading
import Dalvik.Proofs.Propagation
import Dalvik.Proofs.Naming
import Dalvik.Proofs.Numerals
import Dalvik.Proofs.Quoting
import Dalvik.Proofs.Scanning
import Dalvik.Proofs.Agreement
import Dalvik.Proofs.Budgets
import Dalvik.Proofs.DeadCode
import Dalvik.Proofs.DeadStores
import Dalvik.Proofs.Truncation
import Dalvik.Proofs.Dependence
import Dalvik.Proofs.Framing
import Dalvik.Proofs.WidenedRuns
import Dalvik.Proofs.Peephole
import Dalvik.Proofs.Bounds
import Dalvik.Proofs.Completion
import Dalvik.Proofs.Ceilings
import Dalvik.Proofs.Coherence
import Dalvik.Proofs.Convergence
import Dalvik.Proofs.Escaping
import Dalvik.Proofs.Precedence
import Dalvik.Proofs.Clearing
import Dalvik.Proofs.Closing
import Dalvik.Proofs.TrueContents
import Dalvik.Proofs.Emission
import Dalvik.Proofs.Identities
import Dalvik.Proofs.Strings
import Dalvik.Proofs.Guarding
import Dalvik.Proofs.Unreflecting
import Dalvik.Proofs.Comparing
import Dalvik.Proofs.Integers
import Dalvik.Proofs.Assembling
import Dalvik.Proofs.Decoding
import Dalvik.Proofs.Readers
import Dalvik.Proofs.Idempotence
import Dalvik.Proofs.Restoring
import Dalvik.Proofs.Sweeping
