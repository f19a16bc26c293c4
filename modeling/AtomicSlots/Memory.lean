import AtomicSlots.Address

/-! # Shared memory

The state that all operations on one slot array share: a table whose entries are empty or name a
segment, the segments in the order in which they came into being, the signed count of occupied
slots, and the next free stamp. A cell is empty or holds an occupant. An occupant carries the stamp
it got when it was stored, so two occupants with equal values stay distinguishable, and a
conditional exchange compares stamps only: stored values are never looked at.

A stamp stands for the place in storage where a value was put, which is what an exchange of pointers
compares. That takes one thing for granted: while an occupant may still be compared with, no other
one is at its place. It is so for values that take up storage, since the place of a retired one is
not used again before everybody who may have seen it is done. Values that take up none are all at
the same place; for them stamps tell occupants apart that pointers do not, and an exchange that is
refused here may take place.
-/
namespace AtomicSlots

/-- A stored value together with the stamp that identifies this act of storing it. Nothing else is
known of the stamp but that no two acts have the same one. -/
structure Occupant (V : Type) where
  stamp : Nat
  value : V
deriving DecidableEq, Repr

/-- The cells of one segment. -/
abbrev Segment (V : Type) := Array (Option (Occupant V))

/-- A cell, named by its segment and its position there. -/
structure Cell where
  segment : Nat
  offset : UInt64
deriving DecidableEq, Repr

/-- Everything that the operations on one slot array share. -/
structure Memory (V : Type) where
  table : Array (Option Nat)
  segments : Array (Segment V)
  /-- Occupied slots as far as counted; a removal may be counted before the insertion it undoes. -/
  count : Int
  stamps : Nat
deriving Repr

/-- Answer of an attempt to publish a segment: the segment made for it and what the entry held. -/
structure Publication where
  fresh : Nat
  found : Option Nat
deriving DecidableEq, Repr

/-- Answer of a conditional exchange: whether it took place, and the content of the cell after it. -/
structure Exchange (V : Type) where
  won : Bool
  now : Option (Occupant V)
deriving DecidableEq, Repr

/-- What a walk over the storage has given back: the values, the latest first, and their number as
the walk has counted it. -/
structure Release (V : Type) where
  dropped : List V
  count : Nat
deriving DecidableEq, Repr

/-- Gives back what a cell holds, and counts it. -/
def Release.visit {V : Type} (release : Release V) : Option (Occupant V) → Release V
  | none => release
  | some occupant => ⟨occupant.value :: release.dropped, release.count + 1⟩

/-- Whether two cell contents are the same: both empty, or one and the same occupant. -/
def sameOccupant {V : Type} (a b : Option (Occupant V)) : Bool :=
  a.map Occupant.stamp == b.map Occupant.stamp

namespace Memory

variable {V : Type}

/-- Memory with an all-empty table. -/
def ofEntries (entries : UInt64) : Memory V := ⟨.replicate entries.toNat none, #[], 0, 0⟩

/-- The segment that a table entry names. -/
def segmentAt (m : Memory V) (entry : UInt64) : Option Nat := m.table[entry.toNat]?.join

/-- The content of a cell. -/
def content (m : Memory V) (cell : Cell) : Option (Occupant V) :=
  (m.segments[cell.segment]?.bind (·[cell.offset.toNat]?)).join

/-- Overwrites a cell. -/
def write (m : Memory V) (cell : Cell) (occupant : Option (Occupant V)) : Memory V :=
  match m with
  | ⟨table, segments, count, stamps⟩ =>
    ⟨table, segments.modify cell.segment (·.setIfInBounds cell.offset.toNat occupant), count, stamps⟩

/-- Makes an occupant of a value, with a stamp that no other occupant has. -/
def stampValue (m : Memory V) (value : V) : Occupant V × Memory V :=
  match m with
  | ⟨table, segments, count, stamps⟩ => (⟨stamps, value⟩, ⟨table, segments, count, stamps + 1⟩)

/-- The content to be stored for a value or for nothing. -/
def stampValue? (m : Memory V) : Option V → Option (Occupant V) × Memory V
  | none => (none, m)
  | some value =>
    match m.stampValue value with
    | (occupant, m) => (some occupant, m)

/-- A segment in which nothing has been stored. -/
def emptySegment : Segment V := .replicate segmentSize.toNat none

/-- Makes an empty segment and puts it into a table entry if that is still empty. -/
def publish (m : Memory V) (entry : UInt64) : Publication × Memory V :=
  match m.segmentAt entry, m with
  | some current, ⟨table, segments, count, stamps⟩ =>
    (⟨segments.size, some current⟩, ⟨table, segments.push emptySegment, count, stamps⟩)
  | none, ⟨table, segments, count, stamps⟩ =>
    (⟨segments.size, none⟩,
      ⟨table.setIfInBounds entry.toNat (some segments.size), segments.push emptySegment, count, stamps⟩)

/-- Stores into a cell if it still has the expected content. -/
def exchangeIf (m : Memory V) (cell : Cell) (expected : Option (Occupant V)) (new : Option V) :
    Exchange V × Memory V :=
  let found := m.content cell
  if sameOccupant found expected then
    match m.stampValue? new with
    | (occupant, m) => (⟨true, occupant⟩, m.write cell occupant)
  else
    (⟨false, found⟩, m)

/-- Stores into a cell whatever it holds, and returns what it held. -/
def swap (m : Memory V) (cell : Cell) (new : Option V) : Option (Occupant V) × Memory V :=
  let found := m.content cell
  match m.stampValue? new with
  | (occupant, m) => (found, m.write cell occupant)

/-- Changes the count. -/
def adjust (m : Memory V) (change : Int) : Memory V := { m with count := m.count + change }

/-- Number of occupied slots as far as counted, never below zero. -/
def size (m : Memory V) : Nat := m.count.toNat

/-- Number of table entries that name a segment. -/
def allocated (m : Memory V) : Nat := m.table.countP Option.isSome

/-- The occupied cells of one segment, with the indices of their slots. -/
def segmentValues (segment : Segment V) (base : Nat) : List (Nat × V) :=
  (segment.toList.zipIdx base).filterMap fun (content, i) => content.map fun o => (i, o.value)

/-- The stored values behind the first entries of the table, in front of others. -/
def storedBefore (m : Memory V) : Nat → List (Nat × V) → List (Nat × V)
  | 0, rest => rest
  | e + 1, rest =>
    match m.table[e]?.join.bind (m.segments[·]?) with
    | some segment => storedBefore m e (segmentValues segment (e * segmentSize.toNat) ++ rest)
    | none => storedBefore m e rest

/-- All stored values with their indices, in the order in which the table is walked. Every cell of
a segment is visited, also one that no index reaches. -/
def storedValues (m : Memory V) : List (Nat × V) := m.storedBefore m.table.size []

/-- Gives back what the segment behind a table entry holds, cell by cell. -/
def visitEntry (m : Memory V) (release : Release V) (entry : Option Nat) : Release V :=
  match entry.bind (m.segments[·]?) with
  | some segment => segment.foldl Release.visit release
  | none => release

/-- Gives back all that is stored, in the order of the table. -/
def release (m : Memory V) : Release V := m.table.foldl m.visitEntry ⟨[], 0⟩

@[simp] theorem content_ofEntries (entries : UInt64) (cell : Cell) :
    (ofEntries entries : Memory V).content cell = none := by simp [content, ofEntries]

@[simp] theorem segmentAt_write (m : Memory V) (cell : Cell) (o : Option (Occupant V)) (e : UInt64) :
    (m.write cell o).segmentAt e = m.segmentAt e := rfl

@[simp] theorem count_write (m : Memory V) (cell : Cell) (o : Option (Occupant V)) :
    (m.write cell o).count = m.count := rfl

/-- A segment with that cell has come into being. -/
def HasCell (m : Memory V) (cell : Cell) : Prop :=
  ∃ segment, m.segments[cell.segment]? = some segment ∧ cell.offset.toNat < segment.size

theorem content_write_self {m : Memory V} {cell : Cell} (o : Option (Occupant V))
    (h : m.HasCell cell) : (m.write cell o).content cell = o := by
  obtain ⟨segment, hs, hlt⟩ := h
  simp [content, write, Array.getElem?_modify, hs, hlt]

/-- A write is seen by no other cell. -/
theorem content_write_of_ne (m : Memory V) {c d : Cell} (o : Option (Occupant V)) (h : d ≠ c) :
    (m.write c o).content d = m.content d := by
  have hne : c.segment = d.segment → c.offset.toNat ≠ d.offset.toNat := by
    intro hs ho
    apply h
    cases c
    cases d
    simp_all [UInt64.toNat_inj]
  simp only [content, write, Array.getElem?_modify]
  split
  · rename_i hs
    cases hd : m.segments[d.segment]? with
    | none => simp
    | some segment =>
      simp only [Option.map_some, Option.bind_some]
      rw [Array.getElem?_setIfInBounds_ne (hne hs)]
  · rfl

/-- An exchange takes place if and only if the cell has the expected content. -/
@[simp] theorem won_exchangeIf (m : Memory V) (cell : Cell) (expected : Option (Occupant V))
    (new : Option V) :
    (m.exchangeIf cell expected new).1.won = sameOccupant (m.content cell) expected := by
  simp only [exchangeIf]
  split <;> simp_all

@[simp] theorem fst_swap (m : Memory V) (cell : Cell) (new : Option V) :
    (m.swap cell new).1 = m.content cell := rfl

@[simp] theorem found_publish (m : Memory V) (entry : UInt64) :
    (m.publish entry).1.found = m.segmentAt entry := by
  unfold publish
  split <;> simp_all

@[simp] theorem segments_publish (m : Memory V) (entry : UInt64) :
    (m.publish entry).2.segments = m.segments.push emptySegment := by
  unfold publish
  split <;> rfl

/-- A new segment is empty, so publishing changes the content of no cell. -/
@[simp] theorem content_publish (m : Memory V) (entry : UInt64) (cell : Cell) :
    (m.publish entry).2.content cell = m.content cell := by
  simp only [content, segments_publish, Array.getElem?_push]
  split
  · rename_i h
    have hn : m.segments[cell.segment]? = none := by simp [h]
    by_cases ho : cell.offset.toNat < segmentSize.toNat <;> simp [emptySegment, hn, ho]
  · rfl

/-- The segment that an entry names stays the same for good. -/
theorem segmentAt_publish_of_isSome {m : Memory V} {entry other : UInt64}
    (h : (m.segmentAt other).isSome) :
    (m.publish entry).2.segmentAt other = m.segmentAt other := by
  unfold publish
  split
  · rfl
  · rename_i hn
    have hne : entry.toNat ≠ other.toNat := by
      intro he
      rw [UInt64.toNat_inj.mp he] at hn
      simp [hn] at h
    simp only [segmentAt]
    rw [Array.getElem?_setIfInBounds_ne hne]

end Memory

end AtomicSlots
