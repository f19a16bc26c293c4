import AtomicSlots.Script.Transcript

/-! # Operations on the cells themselves

Scripts of a second kind work one layer below the slot operations. They reach a cell by one of the
three kinds of access and change it as they please; the signal that they give back is passed on and
is not counted anywhere. Inside an access other cell operations may be performed.
-/
namespace AtomicSlots

/-- What is done with a cell once it is reached. -/
inductive CellAct (V : Type) where
  | peek
  /-- Stores if the cell is empty now. -/
  | fill (v : V)
  /-- Stores whatever the cell holds. -/
  | put (v : V)
  | empty
  /-- Stores if the cell still has the content that was read first. -/
  | putIfSame (v : V)
deriving DecidableEq, Repr

/-- One operation of a script on cells. -/
inductive CellOperation (V : Type) where
  /-- Reaches a cell, performs the asides, panics or acts, and gives back the signal of the act or
  the one that is asked for instead. -/
  | access (purpose : Access) (i : UInt64) (act : CellAct V) (signal : Option Bool)
      (aside : List (CellOperation V)) (panics : Bool)
  | first (start : UInt64)
  | scan (start : UInt64)
  | capacity
  | segmentCount

namespace CellAct

variable {V : Type}

/-- Acts on a cell whose content was read before, and tells by a signal whether the act changed
what it is to change. -/
def perform (cell : Cell) (content : Option (Occupant V)) : CellAct V → ScriptProgram V Bool
  | peek => Option.isSome <$> cell.load
  | fill v => Exchange.won <$> cell.exchangeIf none (some v)
  | put v => Option.isNone <$> cell.replace (some v)
  | empty => do
    let old ← cell.replace none
    ScriptProgram.note (.old (old.map Occupant.value))
    return old.isSome
  | putIfSame v => do
    let exchange ← cell.exchangeIf content (some v)
    if exchange.won then
      Cell.retire? content
    return exchange.won && content.isNone

end CellAct

namespace CellOperation

variable {V : Type}

open ScriptProgram

mutual

/-- The program of an operation on cells. -/
def program (a : SlotArray) : CellOperation V → ScriptProgram V (Reply V)
  | access purpose i act signal aside panics => do
      let answer ← a.accessSignal purpose i fun cell => do
        let content ← cell.load
        consult .cell .content (fun _ _ => ()) (fun _ => nested a aside)
          (if panics then some 0 else none) 0 (content.map Occupant.value)
        let answer ← act.perform cell content
        return signal.getD answer
      return .flag answer
  | first start => do
      let found ← a.firstFrom start
      return .slot (found.map fun (i, occupant) => (i, occupant.value))
  | scan start => do
      let (found, _) ← a.drain a.next ⟨start, 0⟩
      return .slots found
  | capacity => return .number a.capacity.toNat
  | segmentCount => return .number a.segmentCount.toNat

/-- Performs operations one after another and notes the reply of each. -/
def nested (a : SlotArray) : List (CellOperation V) → ScriptProgram V Unit
  | [] => .done ()
  | operation :: rest => do
    let reply ← operation.program a
    note (.nested reply)
    nested a rest

end

end CellOperation

/-- A script on the cells of an array. -/
structure CellScript (V : Type) where
  capacity : UInt64
  operations : List (CellOperation V)
  showEvents : Bool

/-- One step of a script on cells. -/
structure CellReport (V : Type) where
  reply : Reply V
  allocated : Nat
  log : List (Entry V)

/-- What running a script on cells shows. -/
structure CellTranscript (V : Type) where
  segments : UInt64
  steps : List (CellReport V)
  final : List (UInt64 × V)
  dropped : List (Entry V)

namespace CellScript

variable {V : Type}

/-- The reports of a list of operations and the session after them. -/
def runOperations (showEvents : Bool) (a : SlotArray) :
    List (CellOperation V) → ScriptSession V → List (CellReport V) →
      List (CellReport V) × ScriptSession V
  | [], s, reports => (reports.reverse, s)
  | operation :: rest, s, reports =>
    let (reply, s) := s.perform (operation.program a)
    let (log, s) := s.takeLog showEvents
    runOperations showEvents a rest s (⟨reply, s.memory.allocated, log⟩ :: reports)

/-- Runs a script on cells; their storage reports its release but not its creation. -/
def run (script : CellScript V) : CellTranscript V :=
  let a : SlotArray := ⟨script.capacity⟩
  let (steps, s) := runOperations script.showEvents a script.operations
    ⟨a.freshMemory, .empty⟩ []
  let drops := (SlotArray.freed s.memory).map .drop
  { segments := a.segmentCount, steps
    final := a.contents s.memory
    dropped := if script.showEvents then drops ++ [.event (a.released s.memory)] else drops }

end CellScript

end AtomicSlots
