import AtomicSlots.Proofs.Duties
import AtomicSlots.Proofs.Scan
import AtomicSlots.Script.CellOperation
import AtomicSlots.Script.Value
import AtomicSlots.Threads.Scripts
import AtomicSlots.Proofs.Counting
import AtomicSlots.Proofs.Sequential
import AtomicSlots.Proofs.Progress
import AtomicSlots.Proofs.Linearization
import AtomicSlots.Proofs.Races
import AtomicSlots.Proofs.Retries
import AtomicSlots.Proofs.Unwinding
import AtomicSlots.Proofs.Ownership
import AtomicSlots.Proofs.OverlappingScans
import AtomicSlots.Proofs.JointFilling
import AtomicSlots.Proofs.Allocation
import AtomicSlots.Proofs.LiveWalks
import AtomicSlots.Proofs.Signals
import AtomicSlots.Proofs.Opacity
import AtomicSlots.Proofs.Disposal
import AtomicSlots.Proofs.OwnSlots
import AtomicSlots.Proofs.Disjoint
import AtomicSlots.Proofs.Attempts
import AtomicSlots.Proofs.Fillings
import AtomicSlots.Proofs.FilteredWalks
import AtomicSlots.Proofs.OverlappingCopies
import AtomicSlots.Proofs.OverlappingClears
import AtomicSlots.Proofs.Rebuilding
import AtomicSlots.Proofs.Probing
import AtomicSlots.Proofs.WordArithmetic
import AtomicSlots.Proofs.Addressing
import AtomicSlots.Proofs.WalkBounds
