import AtomicSlots.Script.Operation
import AtomicSlots.Threads.Contest

/-! # Scripts side by side

Each thread performs a list of script operations of its own on one array.
-/
namespace AtomicSlots

/-- What scripts that run side by side show at the end. -/
structure SharedTranscript (V : Type) where
  replies : List (List (Reply V))
  size : Nat
  final : List (UInt64 × V)

/-- Runs lists of operations side by side, one thread for each list. -/
def runSideBySide {V : Type} (capacity : UInt64) (lists : List (List (Operation V))) :
    SharedTranscript V :=
  let a : SlotArray := ⟨capacity⟩
  let thread list : Thread V (Notebook V) (Reply V) :=
    .ofPrograms (list.map (Operation.program (fun _ _ _ _ => .done false) a))
  let pool := (Pool.mk ⟨a.freshMemory, .empty⟩ (lists.map thread)).takeTurns 0
  ⟨pool.answers, pool.session.memory.size, a.contents pool.session.memory⟩

end AtomicSlots
