import AtomicSlots.SlotArray.Lifecycle
import AtomicSlots.Threads.Pool

/-! # Contests between threads

Several threads meet on one array, and what is asked for afterwards does not depend on how their
actions interleave: the winners of a race for one slot, the value that increments leave, the cells
that a joint filling fills, and whether the count is exact once everybody is done. Threads take
turns action by action, and each of them may begin.
-/
namespace AtomicSlots

/-- What each thread of a race does once with the contested slot. -/
inductive Move where
  | insert
  | tryInsert
  | set
  | exchange
  | getOrFill
  | erase
  | take
  | eraseIf
  | update
deriving DecidableEq, Repr

/-- A program whose stored values are integers and that leaves no trace. -/
abbrev QuietProgram (α : Type) := Program Int Unit α

namespace Move

/-- The value that a contested slot holds at the start if it is filled. -/
def prize : Int := 1000

/-- The move of the thread with a given number, and whether that thread won. To win is to change an
empty slot to an occupied one, to take the prize out, or to replace the prize. -/
def program (a : SlotArray) (i : UInt64) (thread : Nat) : Move → QuietProgram Bool
  | insert => a.insert i thread
  | tryInsert => Filling.isStored <$> a.fill i (.done thread)
  | set => a.set i thread
  | exchange => do
    match ← a.exchange i thread with
    | .ok none => return true
    | .ok (some _) | .error _ => return false
  | getOrFill => (· == some (thread : Int)) <$> a.getOrFill i (.done thread)
  | erase => a.erase i
  | take => Option.isSome <$> a.take i
  | eraseIf => Attempt.isCommitted <$> a.eraseIf i fun v => .done (v == prize)
  | update =>
    Attempt.isCommitted <$> a.update i (fun _ => .done thread) fun v => .done (v == prize)

end Move

/-- Totals over the rounds of a contest. -/
structure RaceTotals where
  wins : Nat
  size : Nat
  /-- Whether count, slots and values were as they have to be after every round. -/
  sane : Bool
deriving DecidableEq, Repr

/-- A race of several threads for one slot. -/
structure Race where
  move : Move
  capacity : UInt64
  slot : UInt64
  threads : Nat
  filled : Bool
deriving DecidableEq, Repr

namespace Race

/-- The memory in front of a race. -/
def start (race : Race) : Session Int Unit :=
  let a : SlotArray := ⟨race.capacity⟩
  let s : Session Int Unit := ⟨a.freshMemory, ()⟩
  if race.filled then ((a.insert race.slot Move.prize).run s).2 else s

/-- The pool of a race in which nobody has moved yet. -/
def pool (race : Race) : Pool Int Unit Bool :=
  ⟨race.start, (List.range race.threads).map fun thread =>
    .ofPrograms [race.move.program ⟨race.capacity⟩ race.slot thread]⟩

/-- Whether a value can be in the contested slot after the race. -/
def isPossible (race : Race) (value : Int) : Bool :=
  value == Move.prize || (0 ≤ value && value < race.threads)

/-- One race in which a given thread begins. -/
def round (race : Race) (first : Nat) : RaceTotals :=
  let a : SlotArray := ⟨race.capacity⟩
  let pool := race.pool.takeTurns first
  let items := a.listed pool.session
  { wins := (pool.answers.flatten).countP id
    size := pool.session.memory.size
    sane := pool.session.memory.size == items.length &&
      (items.lookup race.slot).all race.isPossible }

/-- Races one after another, each on a fresh array. -/
def rounds (race : Race) : Nat → RaceTotals
  | 0 => ⟨0, 0, true⟩
  | n + 1 =>
    let earlier := race.rounds n
    let last := race.round n
    ⟨earlier.wins + last.wins, earlier.size + last.size, earlier.sane && last.sane⟩

end Race

namespace SlotArray

/-- Increments the value of a slot as often as asked, and tries again when another change came in
between. `attempts` bounds the tries; an increment fails only if another one succeeds, so it is
never used up if it is the number of all increments of all threads. -/
def increment (a : SlotArray) (i : UInt64) : (attempts times made : Nat) → QuietProgram Nat
  | 0, _, made => pure made
  | _ + 1, 0, made => pure made
  | attempts + 1, times + 1, made => do
    let attempt ← a.update i (fun v => .done (v + 1)) fun _ => .done true
    match UpdateOutcome.ofAttempt attempt with
    | .updated => a.increment i attempts times (made + 1)
    | .declined => a.increment i attempts (times + 1) made
    | .empty => pure made

/-- Stores an index under itself if its cell is empty, without counting it. -/
def fillCell (a : SlotArray) (i : UInt64) : QuietProgram Bool :=
  a.accessSignal .fill i fun cell => Exchange.won <$> cell.exchangeIf none (some i.toNat)

end SlotArray

/-- What threads that increment one slot leave. -/
structure IncrementTotals where
  updated : Nat
  value : Option Int
  size : Nat
deriving DecidableEq, Repr

/-- Threads that each increment the only slot of an array a number of times, from zero on. -/
def incrementTogether (threads times : Nat) : IncrementTotals :=
  let a : SlotArray := ⟨1⟩
  let start : Session Int Unit := ((a.insert 0 0).run ⟨a.freshMemory, ()⟩).2
  let thread := Thread.ofPrograms [a.increment 0 (threads * times) times 0]
  let pool := (Pool.mk start (List.replicate threads thread)).takeTurns 0
  { updated := pool.answers.flatten.foldl (· + ·) 0
    value := (a.listed pool.session).lookup 0
    size := pool.session.memory.size }

/-- What threads that fill an array together leave. -/
structure FillTotals where
  stored : Nat
  allocated : Nat
  found : Nat
deriving DecidableEq, Repr

/-- One joint filling: thread `t` of `threads` fills the cells `t`, `t + threads` and so on. -/
def fillTogether (capacity : UInt64) (threads first : Nat) : FillTotals :=
  let a : SlotArray := ⟨capacity⟩
  let thread t : Thread Int Unit Bool := .ofPrograms <|
    (List.range (SlotArray.stepsBelow t capacity.toNat threads)).map fun k =>
      a.fillCell (.ofNat (t + k * threads))
  let pool := (Pool.mk ⟨a.freshMemory, ()⟩ ((List.range threads).map thread)).takeTurns first
  { stored := pool.answers.flatten.countP id
    allocated := pool.session.memory.allocated
    found := (a.listed pool.session).countP fun (i, v) => v == i.toNat }

/-- Joint fillings one after another, each of a fresh array. -/
def fillRounds (capacity : UInt64) (threads : Nat) : Nat → FillTotals
  | 0 => ⟨0, 0, 0⟩
  | n + 1 =>
    let earlier := fillRounds capacity threads n
    let last := fillTogether capacity threads n
    ⟨earlier.stored + last.stored, earlier.allocated + last.allocated, earlier.found + last.found⟩

namespace SlotArray

/-- The `k`-th operation of a thread in a mixed load: the slots and the operations change from one
to the next, and different threads meet on the same slots. -/
def mixedOperation (a : SlotArray) (thread k : Nat) : QuietProgram Unit :=
  let i : UInt64 := .ofNat (7 * thread + 5 * k) % (a.capacity + 1)
  let value : Int := thread + k
  match (3 * thread + k) % 7 with
  | 0 | 1 => discard (a.insert i value)
  | 2 => discard (a.set i value)
  | 3 => discard (a.erase i)
  | 4 => discard (a.update i (fun v => .done (v + 1)) fun v => .done (v % 2 == 0))
  | 5 => discard (a.eraseIf i fun v => .done (v % 3 == 0))
  | _ => discard (a.take i)

/-- Whether the count of an array agrees with what a fresh cursor and a look at each slot find. -/
def countIsExact {V H : Type} [Journal H] (a : SlotArray) (s : Session V H) : Bool :=
  let items := a.listed s
  let occupied := (List.range a.capacity.toNat).countP fun i =>
    match ((a.contains (.ofNat i)).run s).1 with
    | .ok answer => answer
    | .error _ => false
  s.memory.size == items.length && s.memory.size == occupied

end SlotArray

/-- Whether the count is exact after threads have put a mixed load on an array. -/
def mixTogether (capacity : UInt64) (threads rounds : Nat) : Bool :=
  let a : SlotArray := ⟨capacity⟩
  let thread t : Thread Int Unit Unit := .ofPrograms <|
    (List.range rounds).map fun k => a.mixedOperation t k
  let pool := (Pool.mk ⟨a.freshMemory, ()⟩ ((List.range threads).map thread)).takeTurns 0
  a.countIsExact pool.session

end AtomicSlots
