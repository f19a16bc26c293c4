import AtomicSlots.Outcome
import AtomicSlots.Program

/-! # Programs on one cell

What a single cell can be asked to do. A change that depends on the content loads the cell once,
lets the callbacks look at the value it found, and then makes one conditional exchange against that
very occupant. Whoever takes an occupant out of its cell hands it to reclamation.
-/
namespace AtomicSlots

namespace Cell

variable {V H : Type}

def load (cell : Cell) : Program V H (Option (Occupant V)) := .perform (.load cell)

def exchangeIf (cell : Cell) (expected : Option (Occupant V)) (new : Option V) :
    Program V H (Exchange V) := .perform (.exchangeIf cell expected new)

def swap (cell : Cell) (new : Option V) : Program V H (Option (Occupant V)) :=
  .perform (.swap cell new)

/-- Hands an occupant to reclamation, if there is one. -/
def retire? : Option (Occupant V) → Program V H Unit
  | some occupant => .perform (.retire occupant)
  | none => pure ()

/-- Stores what `make` answers if the cell is empty. `make` is asked only if the cell was seen
empty, and its value is thrown away if the cell was filled meanwhile. -/
def fill (cell : Cell) (make : Program V H V) : Program V H (Filling V) := do
  match ← cell.load with
  | some occupant => return .refused (some occupant.value)
  | none =>
    let value ← make
    let exchange ← cell.exchangeIf none (some value)
    if exchange.won then
      return .stored value
    else
      return .refused (exchange.now.map Occupant.value)

/-- Stores a value or empties the cell, and returns what it held. -/
def replace (cell : Cell) (new : Option V) : Program V H (Option (Occupant V)) := do
  let old ← cell.swap new
  retire? old
  return old

/-- Makes one attempt to change the content to what `change` answers, if `accepts` holds for the
value found. Both see the value that was loaded. -/
def revise (cell : Cell) (accepts : V → Program V H Bool)
    (change : V → Program V H (Option V)) : Program V H Attempt := do
  match ← cell.load with
  | none => return .absent
  | some occupant =>
    if ← accepts occupant.value then
      let new ← change occupant.value
      let exchange ← cell.exchangeIf (some occupant) new
      if exchange.won then
        retire? (some occupant)
        return .committed
      else if exchange.now.isNone then
        return .vacated
      else
        return .replaced
    else
      return .rejected

end Cell

end AtomicSlots
