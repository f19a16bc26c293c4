import AtomicSlots.Proofs.Clients

/-!
# Routines and their courses

A routine is what one caller does with an array, written down: which operations it performs, with
which callbacks, and where it panics or catches a panic. Callbacks are routines, so operations nest
to any depth, and an operation that is no constructor is a sequence of others. As a program a
routine performs the actions of its operations. Its course says the same without a memory, on a list
of contents and a count: how it ends, and which calls of operations that may change a slot it makes,
in the order in which they end. A call changes a slot only when it returns, and one that a panic of
its callback passes through changes nothing.
-/
namespace AtomicSlots

variable {V H α β : Type}

/-- What a caller does with an array. -/
inductive Routine (V H : Type) : Type → Type 1
  | done {α : Type} (x : α) : Routine V H α
  | panic {α : Type} (reason : Panic) : Routine V H α
  | bind {α β : Type} (p : Routine V H α) (f : α → Routine V H β) : Routine V H β
  | caught {α : Type} (p : Routine V H α) : Routine V H (Except Panic α)
  | readHost : Routine V H H
  | changeHost (change : H → H) : Routine V H Unit
  | size : Routine V H ℕ
  | get (i : UInt64) : Routine V H (Option V)
  | first (i : UInt64) : Routine V H (Option (UInt64 × V))
  | fill (i : UInt64) (make : Routine V H V) : Routine V H (Filling V)
  | swap (i : UInt64) (v : V) : Routine V H (Option (Option V))
  | take (i : UInt64) : Routine V H (Option V)
  | eraseIf (i : UInt64) (accepts : V → Routine V H Bool) : Routine V H Attempt
  | update (i : UInt64) (factory : V → Routine V H V) (accepts : V → Routine V H Bool) :
      Routine V H Attempt

namespace Routine

instance : Monad (Routine V H) where
  pure := done
  bind := bind

/-- The actions of a routine. -/
def program (a : SlotArray) : {α : Type} → Routine V H α → Program V H α
  | _, done x => .done x
  | _, panic reason => .panic reason
  | _, bind p f => p.program a >>= fun x => (f x).program a
  | _, caught p => (p.program a).caught
  | _, readHost => .readHost
  | _, changeHost change => .changeHost change
  | _, size => SlotArray.size
  | _, get i => a.get? i
  | _, first i => Option.map (fun (j, o) => (j, o.value)) <$> a.firstFrom i
  | _, fill i make => a.fill i (make.program a)
  | _, swap i v => a.swap i v
  | _, take i => a.take i
  | _, eraseIf i accepts => a.eraseIf i fun v => (accepts v).program a
  | _, update i factory accepts =>
    a.update i (fun v => (factory v).program a) fun v => (accepts v).program a

theorem client (a : SlotArray) (r : Routine V H α) : a.Client (r.program a) := by
  induction r with
  | done x => exact .done x
  | panic reason => exact .panic reason
  | bind p f hp hf => exact .bind hp hf
  | caught p hp => exact .caught hp
  | readHost => exact .readHost
  | changeHost change => exact .changeHost change
  | size => exact .size
  | get i => exact .get? i
  | first i => exact .map _ (.firstFrom i)
  | fill i make hmake => exact .fill i hmake
  | swap i v => exact .swap i v
  | take i => exact .take i
  | eraseIf i accepts ha => exact .eraseIf i ha
  | update i factory accepts hf ha => exact .update i hf ha

/-! The other operations on one slot, and the step of a cursor, are made of these. -/

def insert (i : UInt64) (v : V) : Routine V H Bool := Filling.isStored <$> fill i (done v)

def getOrFill (i : UInt64) (make : Routine V H V) : Routine V H (Option V) :=
  Filling.value? <$> fill i make

def exchange (i : UInt64) (v : V) : Routine V H (Except V (Option V)) := do
  match ← swap i v with
  | none => return .error v
  | some old => return .ok old

def set (i : UInt64) (v : V) : Routine V H Bool := do
  match ← swap i v with
  | none => return false
  | some old => return old.isNone

def erase (i : UInt64) : Routine V H Bool := Option.isSome <$> take i

def contains (i : UInt64) : Routine V H Bool := Option.isSome <$> get i

def next (cursor : Cursor) : Routine V H (Option (UInt64 × V) × Cursor) := do
  match ← first cursor.position with
  | none => return (none, cursor)
  | some (i, v) => return (some (i, v), cursor.past i)

theorem program_insert (a : SlotArray) (i : UInt64) (v : V) :
    (insert i v : Routine V H Bool).program a = a.insert i v := rfl

theorem program_getOrFill (a : SlotArray) (i : UInt64) (make : Routine V H V) :
    (getOrFill i make).program a = a.getOrFill i (make.program a) := rfl

theorem program_exchange (a : SlotArray) (i : UInt64) (v : V) :
    (exchange i v : Routine V H _).program a = a.exchange i v := by
  change (_ >>= _) = (_ >>= _)
  refine congrArg _ (funext fun old => ?_)
  cases old <;> rfl

theorem program_set (a : SlotArray) (i : UInt64) (v : V) :
    (set i v : Routine V H Bool).program a = a.set i v := by
  change (_ >>= _) = (_ >>= _)
  refine congrArg _ (funext fun old => ?_)
  cases old <;> rfl

theorem program_erase (a : SlotArray) (i : UInt64) :
    (erase i : Routine V H Bool).program a = a.erase i := rfl

theorem program_contains (a : SlotArray) (i : UInt64) :
    (contains i : Routine V H Bool).program a = a.contains i := by
  change Option.isSome <$> a.get? i = (Option.getD · false) <$> a.access .inspect i _
  rw [SlotArray.get?, SlotArray.access, SlotArray.access]
  cases a.address? i with
  | none => rfl
  | some address =>
    refine congrArg (Program.step _) (funext fun entry => ?_)
    cases entry with
    | none => rfl
    | some segment =>
      refine congrArg (Program.step _) (funext fun content => ?_)
      cases content <;> rfl

theorem program_next (a : SlotArray) (cursor : Cursor) :
    (next cursor : Routine V H _).program a = a.next cursor := by
  change (Option.map _ <$> a.firstFrom cursor.position >>= _) = (_ >>= _)
  rw [bind_map_left]
  refine congrArg _ (funext fun found => ?_)
  cases found <;> rfl

/-- A filtering step of a cursor that its owner keeps in the host state. -/
def nextWhere (move : Cursor → H → H) (accepts : ℕ → UInt64 → V → Routine V H Bool) :
    ℕ → Cursor → Routine V H (Option (UInt64 × V) × Cursor)
  | 0, cursor => done (none, cursor)
  | n + 1, cursor => do
    match ← next cursor with
    | (none, cursor) => return (none, cursor)
    | (some (i, v), after) =>
      changeHost (move after)
      if ← accepts cursor.visits i v then
        return (some (i, v), after)
      else
        nextWhere move accepts n after

/-- It is the step of the array, with the position saved in the host state. -/
theorem program_nextWhere (a : SlotArray) (move : Cursor → H → H)
    (accepts : ℕ → UInt64 → V → Routine V H Bool) (cursor : Cursor) :
    (nextWhere move accepts (a.remaining cursor) cursor).program a =
      a.nextWhere (fun cursor => .changeHost (move cursor))
        (fun k i v => (accepts k i v).program a) cursor := by
  suffices h : ∀ n cursor, (nextWhere move accepts n cursor).program a =
      SlotArray.nextWhere.go a (fun cursor => .changeHost (move cursor))
        (fun k i v => (accepts k i v).program a) n cursor from h _ cursor
  intro n
  induction n with
  | zero => exact fun _ => rfl
  | succ n ih =>
    intro cursor
    rw [SlotArray.nextWhere.go, ← program_next]
    change (_ >>= _) = (_ >>= _)
    refine congrArg _ (funext fun ⟨found, after⟩ => ?_)
    cases found with
    | none => rfl
    | some item =>
      change (_ >>= _) = (_ >>= _)
      refine congrArg _ (funext fun _ => ?_)
      change (_ >>= _) = (_ >>= _)
      refine congrArg _ (funext fun yes => ?_)
      cases yes with
      | true => rfl
      | false => exact ih after

end Routine

/-- What an array holds, to a reader of slots and of the count. -/
structure Stock (V : Type) where
  slots : List (Option V)
  count : ℤ
deriving DecidableEq

/-- How a call of an operation ended: a panic passed through it, it left its slot alone, or it
changed the content of its slot. -/
inductive Ending (V : Type) where
  | unwound
  | kept
  | changed (old new : Option V)

/-- A call of an operation on a slot, and whether the operation makes the slot's segment. -/
structure Call (V : Type) where
  index : UInt64
  fills : Bool
  ending : Ending V

namespace Call

/-- Whether the call changed the slot with that index. -/
def changes (call : Call V) (i : UInt64) : Bool :=
  match call.ending with
  | .changed _ _ => call.index == i
  | .unwound | .kept => false

/-- Whether the call returned. -/
def hasReturned (call : Call V) : Bool :=
  match call.ending with
  | .unwound => false
  | .kept | .changed _ _ => true

/-- Whether the call makes a segment, if that is missing. -/
def allocates (a : SlotArray) (call : Call V) (entry : UInt64) : Bool :=
  call.fills && decide (call.index < a.capacity) && (Address.ofIndex call.index).entry == entry

end Call

namespace Stock

/-- The content of a slot; behind the last slot there is none. -/
def content (stock : Stock V) (i : UInt64) : Option V := stock.slots[i.toNat]?.join

/-- What a call leaves. -/
def afterCall (stock : Stock V) (call : Call V) : Stock V :=
  match call.ending with
  | .unwound | .kept => stock
  | .changed old new => ⟨stock.slots.set call.index.toNat new,
      stock.count + (new.isSome.toNat - old.isSome.toNat)⟩

/-- What calls leave, one after the other. -/
def after (stock : Stock V) (calls : List (Call V)) : Stock V := calls.foldl afterCall stock

@[simp] theorem after_nil (stock : Stock V) : stock.after [] = stock := rfl

@[simp] theorem after_append (stock : Stock V) (first second : List (Call V)) :
    stock.after (first ++ second) = (stock.after first).after second := List.foldl_append

/-- Calls that were unwound make no difference. -/
theorem after_filter_hasReturned (stock : Stock V) (calls : List (Call V)) :
    stock.after (calls.filter Call.hasReturned) = stock.after calls := by
  induction calls generalizing stock with
  | nil => rfl
  | cons call rest ih =>
    obtain ⟨index, fills, ending⟩ := call
    cases ending <;> exact ih _

/-- The first occupied one of so many slots from an index on. -/
def firstAmong (slots : List (Option V)) : ℕ → UInt64 → Option (UInt64 × V)
  | 0, _ => none
  | n + 1, i =>
    match slots[i.toNat]?.join with
    | some v => some (i, v)
    | none => firstAmong slots n (i + 1)

/-- The first occupied slot from an index on, in the next segments. -/
def scan (a : SlotArray) (slots : List (Option V)) : ℕ → UInt64 → Option (UInt64 × V)
  | 0, _ => none
  | n + 1, i =>
    if i < a.capacity then
      let base := Address.base (Address.ofIndex i).entry
      match firstAmong slots (min segmentSize (a.capacity - base) - (i - base)).toNat i with
      | some found => some found
      | none => scan a slots n (base + segmentSize)
    else
      none

end Stock

/-- How a routine goes: how it ends, the calls that it makes, and the host state at its end. -/
structure Course (V H α : Type) where
  answer : Except Panic α
  calls : List (Call V)
  host : H

namespace Course

/-- Goes on with an answer. -/
def andThen (course : Course V H α) (stock : Stock V)
    (next : α → Stock V → H → Course V H β) : Course V H β :=
  match course.answer with
  | .ok x =>
    let rest := next x (stock.after course.calls) course.host
    ⟨rest.answer, course.calls ++ rest.calls, rest.host⟩
  | .error reason => ⟨.error reason, course.calls, course.host⟩

/-- What ends with an answer and makes no call goes on at once. -/
theorem ok_andThen (x : α) (host : H) (stock : Stock V) (next : α → Stock V → H → Course V H β) :
    (Course.mk (.ok x) [] host).andThen stock next = next x stock host := rfl

theorem exists_of_andThen_eq_ok {course : Course V H α} {stock : Stock V}
    {next : α → Stock V → H → Course V H β} {y : β}
    (h : (course.andThen stock next).answer = .ok y) :
    ∃ x, (next x (stock.after course.calls) course.host).answer = .ok y := by
  rw [andThen] at h
  split at h
  · exact ⟨_, h⟩
  · cases h

/-- A call that ends after its callbacks, unless one of them panics. -/
def close (course : Course V H α) (i : UInt64) (fills : Bool) (settle : α → β × Ending V) :
    Course V H β :=
  match course.answer with
  | .ok x => ⟨.ok (settle x).1, course.calls ++ [⟨i, fills, (settle x).2⟩], course.host⟩
  | .error reason => ⟨.error reason, course.calls ++ [⟨i, fills, .unwound⟩], course.host⟩

theorem exists_mem_close (course : Course V H α) (i : UInt64) (fills : Bool)
    (settle : α → β × Ending V) :
    ∃ ending, ⟨i, fills, ending⟩ ∈ (course.close i fills settle).calls := by
  rw [close]
  split
  · exact ⟨_, List.mem_append_right _ (List.mem_singleton_self _)⟩
  · exact ⟨_, List.mem_append_right _ (List.mem_singleton_self _)⟩

/-- A call that asks no callback. -/
def ofCall (answer : α) (i : UInt64) (fills : Bool) (ending : Ending V) (host : H) :
    Course V H α := ⟨.ok answer, [⟨i, fills, ending⟩], host⟩

/-- The end of a fill that found its slot empty and has a value for it. -/
def settleFill (content : Option V) (v : V) : Filling V × Ending V :=
  match content with
  | none => (.stored v, .changed none (some v))
  | some w => (.refused (some w), .kept)

/-- The end of a conditional operation that found a value. Its callbacks have rejected the value or
ask for a change. That is made unless a call changed the slot while they were at work. -/
def settleChange (v : V) (overtaken : Bool) (content : Option V) :
    Option (Option V) → Attempt × Ending V
  | none => (.rejected, .kept)
  | some new =>
    if overtaken then
      (if content.isNone then .vacated else .replaced, .kept)
    else
      (.committed, .changed (some v) new)

/-- A conditional operation on a slot. The callbacks are asked about its value, if it has one. -/
def revise (stock : Stock V) (host : H) (i : UInt64)
    (consult : V → Course V H (Option (Option V))) : Course V H Attempt :=
  match stock.content i with
  | none => ofCall .absent i false .kept host
  | some v =>
    (consult v).close i false <|
      settleChange v ((consult v).calls.any (·.changes i))
        ((stock.after (consult v).calls).content i)

end Course

/-- How a routine goes on an array with these contents. -/
def Routine.course (a : SlotArray) :
    {α : Type} → Routine V H α → Stock V → H → Course V H α
  | _, done x, _, host => ⟨.ok x, [], host⟩
  | _, panic reason, _, host => ⟨.error reason, [], host⟩
  | _, bind p f, stock, host => (p.course a stock host).andThen stock fun x => (f x).course a
  | _, caught p, stock, host =>
    let course := p.course a stock host
    ⟨.ok course.answer, course.calls, course.host⟩
  | _, readHost, _, host => ⟨.ok host, [], host⟩
  | _, changeHost change, _, host => ⟨.ok (), [], change host⟩
  | _, size, stock, host => ⟨.ok stock.count.toNat, [], host⟩
  | _, get i, stock, host => ⟨.ok (stock.content i), [], host⟩
  | _, first i, stock, host => ⟨.ok (Stock.scan a stock.slots a.segmentCount.toNat i), [], host⟩
  | _, fill i make, stock, host =>
    match stock.slots[i.toNat]? with
    | none => .ofCall (.refused none) i true .kept host
    | some (some v) => .ofCall (.refused (some v)) i true .kept host
    | some none =>
      let course := make.course a stock host
      course.close i true (Course.settleFill ((stock.after course.calls).content i))
  | _, swap i v, stock, host =>
    match stock.slots[i.toNat]? with
    | none => .ofCall none i true .kept host
    | some old => .ofCall (some old) i true (.changed old (some v)) host
  | _, take i, stock, host =>
    match stock.content i with
    | none => .ofCall none i false .kept host
    | some v => .ofCall (some v) i false (.changed (some v) none) host
  | _, eraseIf i accepts, stock, host => .revise stock host i fun v =>
    ((accepts v).course a stock host).andThen stock fun yes _ host =>
      ⟨.ok (if yes then some none else none), [], host⟩
  | _, update i factory accepts, stock, host => .revise stock host i fun v =>
    ((accepts v).course a stock host).andThen stock fun yes stock host =>
      if yes then
        ((factory v).course a stock host).andThen stock fun new _ host =>
          ⟨.ok (some (some new)), [], host⟩
      else
        ⟨.ok none, [], host⟩

end AtomicSlots
