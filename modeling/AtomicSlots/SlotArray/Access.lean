import AtomicSlots.Cell

/-! # Reaching a slot

A slot array of a fixed capacity is reached through its segment table. Only an access that may fill
its slot brings a missing segment into being; the other accesses take a missing segment to be one
without occupants. A scan reads the cells of the table's segments in the order of their indices and
stops at the first occupant; nothing but single cells is read at one moment.
-/
namespace AtomicSlots

/-- A fixed number of slots, each empty or holding one value. -/
structure SlotArray where
  capacity : UInt64
deriving DecidableEq, Repr

/-- What an access to a slot is for. -/
inductive Access where
  | inspect
  | fill
  | vacate
deriving DecidableEq, Repr

/-- The segment behind a table entry; a missing one is made and published first. If another segment
was published meanwhile, that one is taken and the fresh one is left unused. -/
def segmentOrFresh {V H : Type} (entry : UInt64) : Program V H Nat := do
  match ← .perform (.loadEntry entry) with
  | some segment => return segment
  | none =>
    let publication ← .perform (.publish entry)
    match publication.found with
    | none =>
      .emit (.allocated entry)
      return publication.fresh
    | some segment =>
      .emit (.lostAllocation entry)
      return segment

/-- Loads at most `n` cells of a segment, from an offset on, up to the first occupant. -/
def firstInSegment {V H : Type} (segment : Nat) :
    Nat → UInt64 → Program V H (Option (UInt64 × Occupant V))
  | 0, _ => pure none
  | n + 1, offset => do
    match ← Cell.load ⟨segment, offset⟩ with
    | some occupant => return some (offset, occupant)
    | none => firstInSegment segment n (offset + 1)

namespace SlotArray

variable {V H α : Type}

/-- Number of entries in the segment table. -/
def segmentCount (a : SlotArray) : UInt64 := AtomicSlots.segmentCount a.capacity

/-- The place of a slot, if the array has it. -/
def address? (a : SlotArray) (index : UInt64) : Option Address :=
  if index < a.capacity then some (.ofIndex index) else none

/-- Runs a program on the cell of a slot. There is no answer if the array has no such slot, or if
the access does not fill and the slot's segment is missing. -/
def access (a : SlotArray) (purpose : Access) (index : UInt64) (use : Cell → Program V H α) :
    Program V H (Option α) := do
  match a.address? index with
  | none => return none
  | some address =>
    match purpose with
    | .fill =>
      let segment ← segmentOrFresh address.entry
      some <$> use ⟨segment, address.offset⟩
    | .inspect | .vacate =>
      match ← .perform (.loadEntry address.entry) with
      | none => return none
      | some segment => some <$> use ⟨segment, address.offset⟩

/-- Runs a program on the cell of a slot and passes its signal on; without a cell it is `false`. -/
def accessSignal (a : SlotArray) (purpose : Access) (index : UInt64)
    (use : Cell → Program V H Bool) : Program V H Bool :=
  (Option.getD · false) <$> a.access purpose index use

/-- Looks at no more than `n` segments, from an index on, for the first occupant. -/
def scan (a : SlotArray) : Nat → UInt64 → Program V H (Option (UInt64 × Occupant V))
  | 0, _ => pure none
  | n + 1, index =>
    if index < a.capacity then do
      let entry := (Address.ofIndex index).entry
      let base := Address.base entry
      match ← .perform (.loadEntry entry) with
      | none => a.scan n (base + segmentSize)
      | some segment =>
        let stop := min segmentSize (a.capacity - base)
        let start := index - base
        match ← firstInSegment segment (stop - start).toNat start with
        | some (offset, occupant) => return some (base + offset, occupant)
        | none => a.scan n (base + segmentSize)
    else
      pure none

/-- The first occupied slot at or behind an index, as far as single loads can tell. No scan passes
more segments than the table has entries. -/
def firstFrom (a : SlotArray) (index : UInt64) : Program V H (Option (UInt64 × Occupant V)) :=
  a.scan a.segmentCount.toNat index

theorem address?_eq_some_iff {a : SlotArray} {i : UInt64} {address : Address} :
    a.address? i = some address ↔ i < a.capacity ∧ Address.ofIndex i = address := by
  simp [address?]

@[simp] theorem access_of_le {a : SlotArray} {purpose : Access} {i : UInt64}
    {use : Cell → Program V H α} (h : a.capacity ≤ i) : a.access purpose i use = .done none := by
  have hn : a.address? i = none := by simp [address?, UInt64.not_lt.mpr h]
  simp [access, hn]

end SlotArray

end AtomicSlots
