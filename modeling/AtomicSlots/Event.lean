/-! # Trace events

What a slot array tells an observer about its storage: its creation, each segment that comes into
being, and its release. Events carry no stored values.
-/
namespace AtomicSlots

/-- How much an event matters to an observer. -/
inductive Level where
  | debug
  | trace
deriving DecidableEq, Repr

namespace Level

def name : Level → String
  | debug => "DEBUG"
  | trace => "TRACE"

end Level

/-- Something that happened to the storage of a slot array. -/
inductive TraceEvent where
  | created (capacity segments : UInt64)
  /-- A table entry went from empty to a segment. -/
  | allocated (entry : UInt64)
  /-- A fresh segment was thrown away because another one was published first. -/
  | lostAllocation (entry : UInt64)
  | dropping (capacity : UInt64) (size : Nat)
  /-- All storage is gone, together with the number of values that were still stored. -/
  | released (capacity : UInt64) (freed : Nat)
deriving DecidableEq, Repr

namespace TraceEvent

def level : TraceEvent → Level
  | created .. | dropping .. => .debug
  | allocated .. | lostAllocation .. | released .. => .trace

def message : TraceEvent → String
  | created .. => "created bucket"
  | allocated .. => "allocated bucket segment"
  | lostAllocation .. => "lost bucket segment allocation race"
  | dropping .. => "dropping bucket"
  | released .. => "released bucket storage"

/-- The named numbers that go with the message. -/
def fields : TraceEvent → List (String × Nat)
  | created capacity segments => [("capacity", capacity.toNat), ("segments", segments.toNat)]
  | allocated entry | lostAllocation entry => [("segment", entry.toNat)]
  | dropping capacity size => [("capacity", capacity.toNat), ("len", size)]
  | released capacity freed => [("capacity", capacity.toNat), ("freed", freed)]

end TraceEvent

end AtomicSlots
