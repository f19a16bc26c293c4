import AtomicSlots.SlotArray.Lifecycle

/-! # The notebook of a script

What a script keeps besides the shared memory: its walks over the slot array and the log of all that
happened. Walks are numbered in the order in which they start. A name stands for the walk that was
started last under it, but a walk that is under way keeps its number: it goes on even if its name
passes to another walk meanwhile. The log holds trace events, calls of callbacks with their
arguments, and the replies of operations that callbacks performed, in the order in which they
happened.
-/
namespace AtomicSlots

/-- What a walk yields, and for which slots. -/
inductive Shape where
  | values
  | indexed
  /-- The values that the script's filter of this number accepts. -/
  | filtered (filter : Nat)
deriving DecidableEq, Repr

/-- What a walk yields for a slot. -/
inductive Item (V : Type) where
  | value (value : V)
  | indexed (index : UInt64) (value : V)
deriving DecidableEq, Repr

namespace Shape

def item {V : Type} : Shape → UInt64 × V → Item V
  | indexed, (i, v) => .indexed i v
  | values, (_, v) | filtered _, (_, v) => .value v

end Shape

/-- A walk that a script has started. -/
structure Walk where
  shape : Shape
  cursor : Cursor
deriving DecidableEq, Repr

/-- The answer of a script's operation. -/
inductive Reply (V : Type) where
  | done
  | flag (answer : Bool)
  | flags (answers : List Bool)
  | number (n : Nat)
  | text (text : String)
  | content (content : Option V)
  | filling (filling : Filling V)
  | exchanged (result : Except V (Option V))
  | outcome (outcome : UpdateOutcome)
  | outcomes (outcomes : List UpdateOutcome)
  | copied (result : Except CopyError Nat) (target : List V)
  | item (item : Option (Item V))
  | items (items : List (Item V))
  | slot (slot : Option (UInt64 × V))
  | slots (slots : List (UInt64 × V))
  | bounds (lower : Nat) (upper : Option Nat)
  | rebuilt (result : SlotArray.Rebuilt V)
  | panicked (reason : Panic)

/-- What a callback was called with. -/
inductive Argument (V : Type) where
  | nothing
  | value (value : V)
  | index (index : UInt64)
  | content (content : Option V)
deriving DecidableEq, Repr

/-- One line of the log. -/
inductive Entry (V : Type) where
  | event (event : TraceEvent)
  | call (site : CallSite) (argument : Argument V)
  /-- An operation that a callback performed has ended. -/
  | nested (reply : Reply V)
  /-- What a cell held when it was emptied. -/
  | old (content : Option V)
  /-- A value was given back when the storage was released. -/
  | drop (value : V)

namespace Entry

def isEvent {V : Type} : Entry V → Bool
  | event _ => true
  | call .. | nested _ | old _ | drop _ => false

end Entry

/-- The host state of a script: its walks by number, the numbers that names stand for, and its log
with the latest line first. -/
structure Notebook (V : Type) where
  walks : Array Walk
  names : List (String × Nat)
  log : List (Entry V)

namespace Notebook

variable {V : Type}

/-- A notebook with a log and without walks. -/
def ofLog (log : List (Entry V)) : Notebook V := ⟨#[], [], log⟩

def empty : Notebook V := ofLog []

def note (entry : Entry V) (book : Notebook V) : Notebook V :=
  { book with log := entry :: book.log }

instance : Journal (Notebook V) := ⟨fun event => note (.event event)⟩

/-- The walk that a name stands for, with its number. -/
def walk? (book : Notebook V) (name : String) : Option (Nat × Walk) := do
  let number ← book.names.lookup name
  let walk ← book.walks[number]?
  return (number, walk)

/-- Starts a walk in front of all slots and gives it a name, which no earlier walk keeps. -/
def startWalk (name : String) (shape : Shape) (book : Notebook V) : Notebook V :=
  { book with
    walks := book.walks.push ⟨shape, .start⟩
    names := (name, book.walks.size) :: book.names.filter fun entry => entry.1 != name }

/-- Notes where a walk stands, whatever name it has by now. -/
def moveWalk (number : Nat) (cursor : Cursor) (book : Notebook V) : Notebook V :=
  { book with walks := book.walks.modify number fun walk => { walk with cursor := cursor } }

@[simp] theorem walk?_startWalk (book : Notebook V) (name : String) (shape : Shape) :
    (book.startWalk name shape).walk? name = some (book.walks.size, ⟨shape, .start⟩) := by
  simp [walk?, startWalk]

@[simp] theorem log_startWalk (book : Notebook V) (name : String) (shape : Shape) :
    (book.startWalk name shape).log = book.log := rfl

@[simp] theorem names_moveWalk (book : Notebook V) (number : Nat) (cursor : Cursor) :
    (book.moveWalk number cursor).names = book.names := rfl

@[simp] theorem log_moveWalk (book : Notebook V) (number : Nat) (cursor : Cursor) :
    (book.moveWalk number cursor).log = book.log := rfl

/-- Moving a walk leaves every other walk where it stands. -/
theorem walks_moveWalk_of_ne (book : Notebook V) {number other : Nat} (cursor : Cursor)
    (h : number ≠ other) : (book.moveWalk number cursor).walks[other]? = book.walks[other]? := by
  simp [moveWalk, Array.getElem?_modify, h]

end Notebook

end AtomicSlots
