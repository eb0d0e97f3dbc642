import Bindery.Main
import Bindery.Proofs.Recovery
import Bindery.Proofs.CapturedLocals
import Bindery.Proofs.MissingNames
import Bindery.Proofs.IndexBounds
import Bindery.Proofs.PathEnds
import Bindery.Proofs.ExpressionValues
import Bindery.Proofs.Mismatches
import Bindery.Proofs.PoolDecoding
import Bindery.Proofs.Disassembly
import Bindery.Proofs.Modes
import Bindery.Proofs.Reuse
import Bindery.Proofs.BuiltSpans
import Bindery.Proofs.RoundTrip
import Bindery.Proofs.StackedSlots
import Bindery.Proofs.WrittenPrograms
