import AtomicSlots.SlotArray.Access

/-! # Cursors

A cursor walks over the occupied slots in the order of their indices. It is live: it takes no
snapshot, each step scans from the cursor's position, and the position is all that it remembers, so
a cursor that found nothing can find something later. A filtering step moves the cursor past a slot
before it asks about that slot, and the new cursor is handed to `save` in between. Hence a caller
that keeps its cursor there has it past the slot even if the predicate panics.
-/
namespace AtomicSlots

/-- Where a walk continues, and how many slots it has visited so far. -/
structure Cursor where
  position : UInt64
  visits : Nat
deriving DecidableEq, Repr

namespace Cursor

/-- A cursor in front of all slots. -/
def start : Cursor := ⟨0, 0⟩

/-- The cursor behind a slot that it visits. -/
def past (cursor : Cursor) (index : UInt64) : Cursor := ⟨index + 1, cursor.visits + 1⟩

end Cursor

namespace SlotArray

variable {V H : Type}

/-- Number of slots at or behind the position of a cursor. -/
def remaining (a : SlotArray) (cursor : Cursor) : Nat :=
  a.capacity.toNat - cursor.position.toNat

/-- Bounds for the number of items that an unfiltered walk still yields. -/
def bounds (a : SlotArray) (cursor : Cursor) : Nat × Option Nat := (0, some (a.remaining cursor))

/-- The next occupied slot with its value, and the cursor behind it. If there is none the cursor
stays where it is. -/
def next (a : SlotArray) (cursor : Cursor) : Program V H (Option (UInt64 × V) × Cursor) := do
  match ← a.firstFrom cursor.position with
  | none => return (none, cursor)
  | some (index, occupant) => return (some (index, occupant.value), cursor.past index)

/-- The next occupied slot that `accepts` holds for. `accepts` is told how many slots were visited
before, and the value it sees is the one that is yielded. -/
def nextWhere (a : SlotArray) (save : Cursor → Program V H Unit)
    (accepts : Nat → UInt64 → V → Program V H Bool) (cursor : Cursor) :
    Program V H (Option (UInt64 × V) × Cursor) :=
  go (a.remaining cursor) cursor
where
  /-- Visits no more than `n` slots; no walk has more than the remaining ones. -/
  go : Nat → Cursor → Program V H (Option (UInt64 × V) × Cursor)
  | 0, cursor => pure (none, cursor)
  | n + 1, cursor => do
    match ← a.next cursor with
    | (none, cursor) => return (none, cursor)
    | (some (index, value), after) =>
      save after
      if ← accepts cursor.visits index value then
        return (some (index, value), after)
      else
        go n after

/-- Takes steps until one yields nothing, at most `n`, and gathers what they yield. -/
def gather (step : Cursor → Program V H (Option (UInt64 × V) × Cursor)) :
    Nat → Cursor → List (UInt64 × V) → Program V H (List (UInt64 × V) × Cursor)
  | 0, cursor, items => pure (items.reverse, cursor)
  | n + 1, cursor, items => do
    match ← step cursor with
    | (none, cursor) => return (items.reverse, cursor)
    | (some item, cursor) => gather step n cursor (item :: items)

/-- All items that steps yield from a cursor on. Every step that yields moves past a slot, so there
are no more of them than slots behind the cursor. -/
def drain (a : SlotArray) (step : Cursor → Program V H (Option (UInt64 × V) × Cursor))
    (cursor : Cursor) : Program V H (List (UInt64 × V) × Cursor) :=
  gather step (a.remaining cursor) cursor []

/-- The occupied slots with their values, as a fresh cursor meets them. -/
def toList (a : SlotArray) : Program V H (List (UInt64 × V)) :=
  Prod.fst <$> a.drain a.next .start

/-- Runs `body` on the value of each slot that a fresh cursor meets, before it goes on to the next
one, and answers with the values. -/
def forEach (a : SlotArray) (body : Nat → V → Program V H Unit) : Program V H (List V) := do
  let step cursor := do
    let found ← a.next cursor
    match found.1 with
    | none => return found
    | some (_, value) =>
      body cursor.visits value
      return found
  let visited ← a.drain step .start
  return visited.1.map Prod.snd

end SlotArray

end AtomicSlots
