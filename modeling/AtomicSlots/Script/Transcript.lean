import AtomicSlots.Script.Operation

/-! # Transcripts

Running a script makes an array, performs the script's operations one after another, and releases
the array. The transcript tells what each operation answered and left behind. A panic ends the
operation in which it arises and nothing else: the next operation goes on with what is there.
-/
namespace AtomicSlots

/-- How the array of a script comes into being. -/
inductive Origin (V : Type) where
  | empty (capacity : UInt64)
  | ofList (values : List V)

/-- A script: an array, the predicates of its named walks by number, and its operations. -/
structure Script (V : Type) where
  origin : Origin V
  filters : Array (Filter V)
  operations : List (Operation V)
  /-- Whether trace events are told. -/
  showEvents : Bool
  /-- Whether each step tells what it left in the slots. -/
  showContents : Bool

/-- One step of a transcript. -/
structure StepReport (V : Type) where
  reply : Reply V
  size : Nat
  contents : Option (List (UInt64 × V))
  log : List (Entry V)

/-- What running a script shows. -/
structure Transcript (V : Type) where
  capacity : UInt64
  size : Nat
  log : List (Entry V)
  steps : List (StepReport V)
  final : List (UInt64 × V)
  dropped : List (Entry V)

/-- A session whose host state is the notebook of a script. -/
abbrev ScriptSession (V : Type) := Session V (Notebook V)

namespace ScriptSession

variable {V : Type}

/-- The log in the order in which it was written, and the session with an empty log. -/
def takeLog (showEvents : Bool) : ScriptSession V → List (Entry V) × ScriptSession V
  | ⟨memory, ⟨walks, names, log⟩⟩ =>
    (log.reverse.filter fun entry => showEvents || !entry.isEvent, ⟨memory, ⟨walks, names, []⟩⟩)

/-- Performs an operation to its answer or its panic. -/
def perform (operation : ScriptProgram V (Reply V)) (s : ScriptSession V) :
    Reply V × ScriptSession V :=
  match operation.run s with
  | (.ok reply, s) => (reply, s)
  | (.error reason, s) => (.panicked reason, s)

end ScriptSession

namespace Origin

variable {V : Type}

/-- The array and the session with which a script begins. -/
def start : Origin V → SlotArray × ScriptSession V
  | empty capacity =>
    let a : SlotArray := ⟨capacity⟩
    (a, ⟨a.freshMemory, .ofLog [.event a.created]⟩)
  | ofList values =>
    let (a, s) := SlotArray.ofList values
    (a, ⟨s.memory, .ofLog (s.host.map .event)⟩)

end Origin

namespace Script

variable {V : Type}

/-- The predicates of a script's filters. A predicate may go on with other walks, and so use other
filters, but no walk goes on inside its own predicate. So the nesting of filters is never deeper
than their number, which is `depth` at the outset. -/
def filtersAt (filters : Array (Filter V)) (a : SlotArray) : Nat → Filters V
  | 0, _, _, _, _ => .done false
  | depth + 1, k, call, i, v =>
    match filters[k]? with
    | none => .done false
    | some filter => filter.accepts (filtersAt filters a depth) a call i v

/-- The predicates of a script's filters. -/
def predicates (script : Script V) (a : SlotArray) : Filters V :=
  filtersAt script.filters a script.filters.size

/-- The reports of a list of operations and the session after them. -/
def runOperations (script : Script V) (a : SlotArray) :
    List (Operation V) → ScriptSession V → List (StepReport V) →
      List (StepReport V) × ScriptSession V
  | [], s, reports => (reports.reverse, s)
  | operation :: rest, s, reports =>
    let (reply, s) := s.perform (operation.program (script.predicates a) a)
    let (log, s) := s.takeLog script.showEvents
    let contents := if script.showContents then some (a.contents s.memory) else none
    runOperations script a rest s (⟨reply, s.memory.size, contents, log⟩ :: reports)

/-- The log of releasing an array. -/
def releaseLog (a : SlotArray) (m : Memory V) : List (Entry V) :=
  .event (a.dropping m) :: (SlotArray.freed m).map .drop ++ [.event (a.released m)]

/-- Runs a script from the creation of its array to the release. -/
def run (script : Script V) : Transcript V :=
  let (a, s) := script.origin.start
  let (log, s) := s.takeLog script.showEvents
  let size := s.memory.size
  let (steps, s) := script.runOperations a script.operations s []
  { capacity := a.capacity, size, log, steps
    final := a.contents s.memory
    dropped := (releaseLog a s.memory).filter fun entry => script.showEvents || !entry.isEvent }

end Script

end AtomicSlots
