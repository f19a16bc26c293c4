import AtomicSlots.Event
import AtomicSlots.Memory

/-! # Atomic actions

Each action is one indivisible step of one operation. Those on the memory are the loads, the
conditional exchanges and the swaps of cells, the load and the publication of table entries, and the
read and the change of the count. The others touch what belongs to the caller: the host state, in
which callbacks keep whatever they need, and the journal of trace events, which is part of it.
-/
namespace AtomicSlots

/-- Host states that take note of trace events. -/
class Journal (H : Type) where
  record : TraceEvent → H → H

/-- Events gathered with the latest first. -/
instance : Journal (List TraceEvent) := ⟨List.cons⟩

/-- A host that does not watch. -/
instance : Journal Unit := ⟨fun _ _ => ()⟩

/-- The shared memory together with the state of the caller. -/
structure Session (V H : Type) where
  memory : Memory V
  host : H

/-- One indivisible step. -/
inductive Action (V H : Type) where
  | loadEntry (entry : UInt64)
  | publish (entry : UInt64)
  | load (cell : Cell)
  | exchangeIf (cell : Cell) (expected : Option (Occupant V)) (new : Option V)
  | swap (cell : Cell) (new : Option V)
  /-- Hands an occupant that was taken out of its cell to reclamation. When its storage is used
  again cannot be observed, so nothing in the session changes. -/
  | retire (occupant : Occupant V)
  | adjust (change : Int)
  | readSize
  | emit (event : TraceEvent)
  | readHost
  | changeHost (change : H → H)

namespace Action

variable {V H : Type}

/-- What an action answers. -/
abbrev Result : Action V H → Type
  | loadEntry _ => Option Nat
  | publish _ => Publication
  | load _ => Option (Occupant V)
  | exchangeIf .. => Exchange V
  | swap .. => Option (Occupant V)
  | retire _ => Unit
  | adjust _ => Unit
  | readSize => Nat
  | emit _ => Unit
  | readHost => H
  | changeHost _ => Unit

/-- The answer of an action and the session after it. -/
def perform [Journal H] : (act : Action V H) → Session V H → act.Result × Session V H
  | loadEntry entry, s => (s.memory.segmentAt entry, s)
  | publish entry, ⟨m, h⟩ => match m.publish entry with | (r, m) => (r, ⟨m, h⟩)
  | load cell, s => (s.memory.content cell, s)
  | exchangeIf cell expected new, ⟨m, h⟩ =>
    match m.exchangeIf cell expected new with | (r, m) => (r, ⟨m, h⟩)
  | swap cell new, ⟨m, h⟩ => match m.swap cell new with | (r, m) => (r, ⟨m, h⟩)
  | retire _, s => ((), s)
  | adjust change, ⟨m, h⟩ => ((), ⟨m.adjust change, h⟩)
  | readSize, s => (s.memory.size, s)
  | emit event, ⟨m, h⟩ => ((), ⟨m, Journal.record event h⟩)
  | readHost, s => (s.host, s)
  | changeHost change, ⟨m, h⟩ => ((), ⟨m, change h⟩)

end Action

end AtomicSlots
