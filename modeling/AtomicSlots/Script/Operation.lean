import AtomicSlots.Script.Callback

/-! # Operations of a script

A script is written in operations on one slot array. Their callbacks may contain operations on the
same array, to any depth. The meaning of an operation is a program, by recursion on its nesting.
-/
namespace AtomicSlots

/-- One operation of a script. -/
inductive Operation (V : Type) where
  | insert (i : UInt64) (v : V)
  | tryInsert (i : UInt64) (v : V)
  | getOrInsert (i : UInt64) (v : V)
  | getOrFill (i : UInt64) (make : Callback (Operation V) Unit V)
  | exchange (i : UInt64) (v : V)
  | set (i : UInt64) (v : V)
  | erase (i : UInt64)
  | take (i : UInt64)
  | eraseIf (i : UInt64) (accepts : Callback (Operation V) V Bool)
  | eraseRetry (i : UInt64) (attempts : Nat) (accepts : Callback (Operation V) V Bool)
  | update (i : UInt64) (factory : Callback (Operation V) V V)
      (accepts : Callback (Operation V) V Bool)
  | updateRetry (i : UInt64) (attempts : Nat) (factory : Callback (Operation V) V V)
      (accepts : Callback (Operation V) V Bool)
  | get (i : UInt64)
  | contains (i : UInt64)
  | clear
  | size
  | isEmpty
  | capacity
  | describe (oneLine : Bool)
  | copyTo (target : List V) (offset : Nat)
  | fillRange (value : UInt64 → V) (first stop step : Nat)
  | eraseRange (first stop step : Nat)
  | collect
  | collectIndexed
  | collectWhere (accepts : Callback (Operation V) V Bool)
  | collectWhereIndex (accepts : Callback (Operation V) UInt64 Bool)
  | forEach (body : Callback (Operation V) V Unit)
  | rebuild
  /-- Starts a walk and gives it a name. -/
  | walk (name : String) (shape : Shape)
  | nextItem (name : String)
  | drain (name : String)
  | bounds (name : String)

/-- The predicate of a filtered walk. -/
inductive Filter (V : Type) where
  | byValue (accepts : Callback (Operation V) V Bool)
  | byIndex (accepts : Callback (Operation V) UInt64 Bool)

/-- The predicates of all filters: filter number, call number, index and value of the slot. -/
abbrev Filters (V : Type) := Nat → Nat → UInt64 → V → ScriptProgram V Bool

namespace SlotArray

variable {V : Type}

/-- One step of the walk with a given number. -/
def stepWalk (a : SlotArray) (filters : Filters V) (number : Nat) (shape : Shape)
    (cursor : Cursor) : ScriptProgram V (Option (UInt64 × V) × Cursor) :=
  match shape with
  | .values | .indexed => a.next cursor
  | .filtered k =>
    a.nextWhere (fun cursor => .changeHost (.moveWalk number cursor)) (filters k) cursor

/-- Finds a walk by its name, goes on with it, and notes where it stands then. What happens to the
name on the way does not matter to the walk. -/
def continueWalk {α : Type} (name : String) (missing : α)
    (proceed : Nat → Walk → ScriptProgram V (α × Cursor)) : ScriptProgram V α := do
  match (← Program.readHost).walk? name with
  | none => return missing
  | some (number, walk) =>
    let (answer, cursor) ← proceed number walk
    .changeHost (.moveWalk number cursor)
    return answer

def nextItem (a : SlotArray) (filters : Filters V) (name : String) :
    ScriptProgram V (Option (Item V)) :=
  continueWalk name none fun number walk => do
    let (found, cursor) ← a.stepWalk filters number walk.shape walk.cursor
    return (found.map walk.shape.item, cursor)

def drainWalk (a : SlotArray) (filters : Filters V) (name : String) :
    ScriptProgram V (List (Item V)) :=
  continueWalk name [] fun number walk => do
    let (found, cursor) ← a.drain (a.stepWalk filters number walk.shape) walk.cursor
    return (found.map walk.shape.item, cursor)

def boundsOf (a : SlotArray) (name : String) : ScriptProgram V (Reply V) := do
  match (← Program.readHost).walk? name with
  | none => return .bounds 0 none
  | some (_, ⟨.filtered _, _⟩) => return .bounds 0 none
  | some (_, ⟨.values, cursor⟩) | some (_, ⟨.indexed, cursor⟩) =>
    return .bounds (a.bounds cursor).1 (a.bounds cursor).2

/-- The values of the slots that a predicate accepts, met by a fresh cursor that nobody else sees. -/
def collectWhere (a : SlotArray) (accepts : Nat → UInt64 → V → ScriptProgram V Bool) :
    ScriptProgram V (Reply V) := do
  let (found, _) ← a.drain (a.nextWhere (fun _ => .done ()) accepts) .start
  return .items (found.map fun (_, v) => .value v)

end SlotArray

namespace Operation

variable {V : Type}

open ScriptProgram

mutual

/-- The program of an operation. -/
def program (filters : Filters V) (a : SlotArray) : Operation V → ScriptProgram V (Reply V)
  | insert i v => .flag <$> a.insert i v
  | tryInsert i v => .filling <$> a.fill i (.done v)
  | getOrInsert i v => .content <$> a.getOrInsert i v
  | getOrFill i ⟨answer, asides, panicAt⟩ => .content <$> a.getOrFill i
      (consult .make (fun _ => .nothing) answer (aside filters a asides) panicAt 0 ())
  | exchange i v => .exchanged <$> a.exchange i v
  | set i v => .flag <$> a.set i v
  | erase i => .flag <$> a.erase i
  | take i => .content <$> a.take i
  | eraseIf i ⟨answer, asides, panicAt⟩ => do
      let attempt ← a.eraseIf i
        (consult .predicate .value answer (aside filters a asides) panicAt 0)
      return .flag attempt.isCommitted
  | eraseRetry i attempts ⟨answer, asides, panicAt⟩ => .flags <$> a.eraseRetry i
      (consult .predicate .value answer (aside filters a asides) panicAt) attempts
  | update i ⟨make, makeAsides, makePanicAt⟩ ⟨answer, asides, panicAt⟩ => do
      let attempt ← a.update i
        (consult .factory .value make (aside filters a makeAsides) makePanicAt 0)
        (consult .predicate .value answer (aside filters a asides) panicAt 0)
      return .outcome (.ofAttempt attempt)
  | updateRetry i attempts ⟨make, makeAsides, makePanicAt⟩ ⟨answer, asides, panicAt⟩ =>
      .outcomes <$> a.updateRetry i
        (consult .factory .value make (aside filters a makeAsides) makePanicAt)
        (consult .predicate .value answer (aside filters a asides) panicAt) attempts
  | get i => .content <$> a.get? i
  | contains i => .flag <$> a.contains i
  | clear => do
      a.clear
      return .done
  | size => .number <$> SlotArray.size
  | isEmpty => .flag <$> SlotArray.isEmpty
  | capacity => return .number a.capacity.toNat
  | describe oneLine => do
      let size ← SlotArray.size
      return .text (a.describe size oneLine)
  | copyTo target offset => do
      let (result, target) ← a.copyTo target offset
      return .copied result target
  | fillRange value first stop step => .number <$> a.fillRange value first stop step
  | eraseRange first stop step => .number <$> a.eraseRange first stop step
  | collect => do
      let found ← a.toList
      return .items (found.map Shape.values.item)
  | collectIndexed => do
      let found ← a.toList
      return .items (found.map Shape.indexed.item)
  | collectWhere ⟨answer, asides, panicAt⟩ => a.collectWhere fun call _ v =>
      consult .predicate .value answer (aside filters a asides) panicAt call v
  | collectWhereIndex ⟨answer, asides, panicAt⟩ => a.collectWhere fun call i _ =>
      consult .indexPredicate .index answer (aside filters a asides) panicAt call i
  | forEach ⟨answer, asides, panicAt⟩ => do
      let values ← a.forEach
        (consult .body .value answer (aside filters a asides) panicAt)
      return .items (values.map .value)
  | rebuild => .rebuilt <$> a.rebuild
  | walk name shape => do
      .changeHost (.startWalk name shape)
      return .done
  | nextItem name => .item <$> a.nextItem filters name
  | drain name => .items <$> a.drainWalk filters name
  | bounds name => a.boundsOf name

/-- What a callback performs on a given call. -/
def aside (filters : Filters V) (a : SlotArray) :
    List (List (Operation V)) → Nat → ScriptProgram V Unit
  | [], _ => .done ()
  | operations :: _, 0 => nested filters a operations
  | _ :: rest, call + 1 => aside filters a rest call

/-- Performs operations one after another and notes the reply of each. -/
def nested (filters : Filters V) (a : SlotArray) : List (Operation V) → ScriptProgram V Unit
  | [] => .done ()
  | operation :: rest => do
    let reply ← operation.program filters a
    note (.nested reply)
    nested filters a rest

end

end Operation

namespace Filter

variable {V : Type}

open ScriptProgram

/-- The predicate of a filter. -/
def accepts (filters : Filters V) (a : SlotArray) :
    Filter V → Nat → UInt64 → V → ScriptProgram V Bool
  | byValue predicate, call, _, v =>
    consult .predicate .value predicate.answer (Operation.aside filters a predicate.asides)
      predicate.panicAt call v
  | byIndex predicate, call, i, _ =>
    consult .indexPredicate .index predicate.answer (Operation.aside filters a predicate.asides)
      predicate.panicAt call i

end Filter

end AtomicSlots
