/-! # Outcomes of operations

The answers of those operations that can end in more ways than two. A conditional change is one
attempt, and `Attempt` tells all the ways in which it can end; the coarser answers that callers get
are functions of it.
-/
namespace AtomicSlots

/-- How storing into an empty slot ended. It is refused with the value that is already there, or
with nothing if no slot has the index. -/
inductive Filling (V : Type) where
  | stored (value : V)
  | refused (found : Option V)
deriving DecidableEq, Repr

namespace Filling

variable {V : Type}

def isStored : Filling V → Bool
  | stored _ => true
  | refused _ => false

/-- The value that the slot holds afterwards. -/
def value? : Filling V → Option V
  | stored value => some value
  | refused found => found

end Filling

/-- How one attempt at a conditional change of a slot ended. -/
inductive Attempt where
  /-- There was no occupant to look at. -/
  | absent
  /-- The predicate rejected the occupant. -/
  | rejected
  /-- The occupant was replaced by another one before the change. -/
  | replaced
  /-- The slot was emptied before the change. -/
  | vacated
  | committed
deriving DecidableEq, Repr

namespace Attempt

def isCommitted (attempt : Attempt) : Bool := attempt == committed

/-- Number of calls of the predicate during the attempt. -/
def predicateCalls : Attempt → Nat
  | absent => 0
  | rejected | replaced | vacated | committed => 1

/-- Number of calls of the factory during the attempt. -/
def factoryCalls : Attempt → Nat
  | absent | rejected => 0
  | replaced | vacated | committed => 1

end Attempt

/-- The answer of an update. -/
inductive UpdateOutcome where
  /-- The slot now holds what the factory made. -/
  | updated
  /-- The slot is occupied but was left alone. -/
  | declined
  /-- The slot was empty, became empty before the change, or does not exist. -/
  | empty
deriving DecidableEq, Repr

namespace UpdateOutcome

def ofAttempt : Attempt → UpdateOutcome
  | .committed => updated
  | .rejected | .replaced => declined
  | .absent | .vacated => empty

def isUpdated (outcome : UpdateOutcome) : Bool := outcome == updated

def isEmpty (outcome : UpdateOutcome) : Bool := outcome == empty

def name : UpdateOutcome → String
  | updated => "Updated"
  | declined => "Declined"
  | empty => "Empty"

@[simp] theorem isUpdated_ofAttempt (attempt : Attempt) :
    (ofAttempt attempt).isUpdated = attempt.isCommitted := by cases attempt <;> rfl

end UpdateOutcome

/-- Why the values could not be copied into a destination. -/
inductive CopyError where
  /-- The offset lies past the end of the destination. -/
  | offsetOutOfRange (offset length : Nat)
  /-- More values are stored than the destination has room for behind the offset. -/
  | insufficientSpace (needed available : Nat)
deriving DecidableEq, Repr

namespace CopyError

def name : CopyError → String
  | offsetOutOfRange .. => "OffsetOutOfRange"
  | insufficientSpace .. => "InsufficientSpace"

/-- The numbers of an error under their names. -/
def fields : CopyError → List (String × Nat)
  | offsetOutOfRange offset length => [("offset", offset), ("len", length)]
  | insufficientSpace needed available => [("needed", needed), ("available", available)]

/-- The text for a reader. -/
def message : CopyError → String
  | offsetOutOfRange offset length =>
    s!"offset {offset} is out of range for a destination of length {length}"
  | insufficientSpace needed available =>
    s!"destination has room for {available} values but the bucket holds {needed}"

/-- The text that shows the name, and the fields in braces. -/
def describe (error : CopyError) : String :=
  let fields := error.fields.map fun (name, n) => name ++ ": " ++ toString n
  error.name ++ " \x7b " ++ ", ".intercalate fields ++ " \x7d"

end CopyError

end AtomicSlots
