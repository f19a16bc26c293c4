import AtomicSlots.SlotArray.Access

/-! # Operations on one slot

Every change is one atomic exchange on the cell of the slot. Afterwards, and only by the operation
whose exchange did it, a change from empty to occupied is counted up and one from occupied to empty
is counted down. A replacement is not counted. An index that the array does not have changes
nothing, and no callback is asked about it.
-/
namespace AtomicSlots

namespace SlotArray

variable {V H : Type}

/-- Capacity of an array for which none is asked. -/
def defaultCapacity : UInt64 := 64

/-- Number of occupied slots. It is exact whenever no operation is under way. -/
def size : Program V H Nat := .readSize

def isEmpty : Program V H Bool := (· == 0) <$> size

/-- Stores what `make` answers if the slot is empty. -/
def fill (a : SlotArray) (i : UInt64) (make : Program V H V) : Program V H (Filling V) := do
  match ← a.access .fill i (·.fill make) with
  | none => return .refused none
  | some filling =>
    if filling.isStored then
      .adjustCount 1
    return filling

/-- Stores a value if the slot is empty, and tells whether it did. -/
def insert (a : SlotArray) (i : UInt64) (v : V) : Program V H Bool :=
  Filling.isStored <$> a.fill i (pure v)

/-- The value of the slot, which is filled first with what `make` answers if it is empty. -/
def getOrFill (a : SlotArray) (i : UInt64) (make : Program V H V) : Program V H (Option V) :=
  Filling.value? <$> a.fill i make

/-- The value of the slot, which is filled first with a given value if it is empty. -/
def getOrInsert (a : SlotArray) (i : UInt64) (v : V) : Program V H (Option V) :=
  a.getOrFill i (pure v)

/-- Stores a value whatever the slot holds. The answer is what it held, if there is such a slot. -/
def swap (a : SlotArray) (i : UInt64) (v : V) : Program V H (Option (Option V)) := do
  match ← a.access .fill i (·.replace (some v)) with
  | none => return none
  | some old =>
    if old.isNone then
      .adjustCount 1
    return some (old.map Occupant.value)

/-- Stores a value and answers what it replaced; without such a slot the value comes back. -/
def exchange (a : SlotArray) (i : UInt64) (v : V) : Program V H (Except V (Option V)) := do
  match ← a.swap i v with
  | none => return .error v
  | some old => return .ok old

/-- Stores a value and tells whether the slot was empty. -/
def set (a : SlotArray) (i : UInt64) (v : V) : Program V H Bool := do
  match ← a.swap i v with
  | none => return false
  | some old => return old.isNone

/-- Empties the slot and answers what it held. -/
def take (a : SlotArray) (i : UInt64) : Program V H (Option V) := do
  match ← a.access .vacate i (·.replace none) with
  | none => return none
  | some old =>
    if old.isSome then
      .adjustCount (-1)
    return old.map Occupant.value

/-- Empties the slot and tells whether it was occupied. -/
def erase (a : SlotArray) (i : UInt64) : Program V H Bool := Option.isSome <$> a.take i

/-- One attempt to empty the slot if `accepts` holds for its value. -/
def eraseIf (a : SlotArray) (i : UInt64) (accepts : V → Program V H Bool) :
    Program V H Attempt := do
  match ← a.access .vacate i (·.revise accepts fun _ => pure none) with
  | none => return .absent
  | some attempt =>
    if attempt.isCommitted then
      .adjustCount (-1)
    return attempt

/-- One attempt to replace the value of the slot by what `factory` makes of it, if `accepts` holds
for it. -/
def update (a : SlotArray) (i : UInt64) (factory : V → Program V H V)
    (accepts : V → Program V H Bool) : Program V H Attempt :=
  (Option.getD · .absent) <$> a.access .inspect i (·.revise accepts fun v => some <$> factory v)

/-- The value of the slot. -/
def get? (a : SlotArray) (i : UInt64) : Program V H (Option V) := do
  match ← a.access .inspect i Cell.load with
  | none => return none
  | some content => return content.map Occupant.value

/-- Whether the slot is occupied. -/
def contains (a : SlotArray) (i : UInt64) : Program V H Bool :=
  a.accessSignal .inspect i fun cell => Option.isSome <$> cell.load

/-- Updates the slot until it is updated or found empty, at most `n` times. Callbacks are told how
often they were asked before. -/
def updateRetry (a : SlotArray) (i : UInt64) (factory : Nat → V → Program V H V)
    (accepts : Nat → V → Program V H Bool) (n : Nat) : Program V H (List UpdateOutcome) :=
  go n 0 0 []
where
  go : Nat → Nat → Nat → List UpdateOutcome → Program V H (List UpdateOutcome)
  | 0, _, _, outcomes => return outcomes.reverse
  | n + 1, made, asked, outcomes => do
    let attempt ← a.update i (factory made) (accepts asked)
    let outcome := UpdateOutcome.ofAttempt attempt
    match outcome with
    | .declined =>
      go n (made + attempt.factoryCalls) (asked + attempt.predicateCalls) (outcome :: outcomes)
    | .updated | .empty => return (outcome :: outcomes).reverse

/-- Tries to empty the slot while it is occupied, at most `n` times. -/
def eraseRetry (a : SlotArray) (i : UInt64) (accepts : Nat → V → Program V H Bool) (n : Nat) :
    Program V H (List Bool) :=
  go n 0 []
where
  go : Nat → Nat → List Bool → Program V H (List Bool)
  | 0, _, tries => return tries.reverse
  | n + 1, asked, tries => do
    if ← a.contains i then
      let attempt ← a.eraseIf i (accepts asked)
      if attempt.isCommitted then
        return (true :: tries).reverse
      else
        go n (asked + attempt.predicateCalls) (false :: tries)
    else
      return tries.reverse

end SlotArray

end AtomicSlots
