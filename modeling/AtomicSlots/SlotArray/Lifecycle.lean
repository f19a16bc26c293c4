import AtomicSlots.SlotArray.Bulk

/-! # Creation and release

A slot array begins with an empty table and ends by giving back, segment by segment and cell by
cell, the values that are still stored. Building an array from a list inserts its elements under
their positions into a fresh array that nobody else can reach yet.
-/
namespace AtomicSlots

namespace SlotArray

variable {V H : Type}

/-- The memory of an array in which nothing has been stored yet. -/
def freshMemory (a : SlotArray) : Memory V := .ofEntries a.segmentCount

/-- What the creation of an array reports. -/
def created (a : SlotArray) : TraceEvent := .created a.capacity a.segmentCount

/-- Inserts the elements of a list under successive indices. -/
def insertAll (a : SlotArray) : UInt64 → List V → Program V H Unit
  | _, [] => pure ()
  | i, v :: rest => do
    discard (a.insert i v)
    a.insertAll (i + 1) rest

/-- The array, the memory and the events that come from inserting a list into an array of its
length. -/
def ofList (values : List V) : SlotArray × Session V (List TraceEvent) :=
  let a : SlotArray := ⟨.ofNat values.length⟩
  (a, ((a.insertAll 0 values).run ⟨a.freshMemory, [a.created]⟩).2)

/-- The occupied slots of an array with their values, in the order of their indices. -/
def contents (a : SlotArray) (m : Memory V) : List (UInt64 × V) :=
  m.storedValues.filterMap fun (i, v) =>
    if i < a.capacity.toNat then some (.ofNat i, v) else none

/-- What a fresh cursor lists while no operation is under way. -/
def listed [Journal H] (a : SlotArray) (s : Session V H) : List (UInt64 × V) :=
  match (a.toList.run s).1 with
  | .ok items => items
  | .error _ => []

/-- The values that the release of an array gives back, in order. -/
def freed (m : Memory V) : List V := m.release.dropped.reverse

/-- The event in front of a release. -/
def dropping (a : SlotArray) (m : Memory V) : TraceEvent := .dropping a.capacity m.size

/-- The event after a release, with the number that the walk has counted. -/
def released (a : SlotArray) (m : Memory V) : TraceEvent := .released a.capacity m.release.count

/-- A new array that is filled with values, looked at, and released again. -/
structure Rebuilt (V : Type) where
  capacity : UInt64
  size : Nat
  items : List (UInt64 × V)
deriving DecidableEq, Repr

/-- Fills a new array with the values that a fresh cursor meets and releases it again. The events
of the new array are emitted here; it shares no memory with this one. -/
def rebuild (a : SlotArray) : Program V H (Rebuilt V) := do
  let items ← a.toList
  let (b, s) := ofList (items.map Prod.snd)
  .emitAll s.host.reverse
  .emit (b.dropping s.memory)
  .emit (b.released s.memory)
  return ⟨b.capacity, s.memory.size, b.listed s⟩

/-- The text that shows capacity and number of occupied slots, on one line or with one field a
line. -/
def describe (a : SlotArray) (size : Nat) (oneLine : Bool) : String :=
  let fields := [("capacity", a.capacity.toNat), ("len", size)].map
    fun (name, n) => name ++ ": " ++ toString n
  if oneLine then
    "Bucket \x7b " ++ ", ".intercalate fields ++ " \x7d"
  else
    "Bucket \x7b\n" ++ String.join (fields.map fun field => "    " ++ field ++ ",\n") ++ "\x7d"

end SlotArray

end AtomicSlots
