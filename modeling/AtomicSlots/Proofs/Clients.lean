import AtomicSlots.Script.Transcript
import Mathlib.Tactic

/-!
# Clients of a slot array

A client is a program that works on an array through its operations only. It may keep state of its
own, it may panic anywhere or catch a panic, and the callbacks that it hands to operations are
clients again, so operations nest to any finite depth. `Client` has one rule for each operation that
touches the memory in a way of its own; the lemmas after it say that all other operations are made
of these, and that the operations of scripts are clients.
-/
namespace AtomicSlots

variable {V H α β : Type}

/-- Goes on after a panic too: the answer is how the program ended. -/
def Program.caught : Program V H α → Program V H (Except Panic α)
  | .done x => .done (.ok x)
  | .panic reason => .done (.error reason)
  | .step act next => .step act fun r => (next r).caught

theorem Program.run_caught [Journal H] (p : Program V H α) (s : Session V H) :
    p.caught.run s = (.ok (p.run s).1, (p.run s).2) := by
  induction p generalizing s with
  | done x => rfl
  | panic reason => rfl
  | step act next ih => exact ih _ _

namespace SlotArray

/-- Programs that use an array through its operations, with clients for callbacks. -/
inductive Client (a : SlotArray) : {α : Type} → Program V H α → Prop
  | done {α : Type} (x : α) : Client a (.done x)
  | panic {α : Type} (reason : Panic) : Client a (.panic reason : Program V H α)
  | bind {α β : Type} {p : Program V H α} {f : α → Program V H β} :
      Client a p → (∀ x, Client a (f x)) → Client a (p >>= f)
  | caught {α : Type} {p : Program V H α} : Client a p → Client a p.caught
  | readHost : Client a .readHost
  | changeHost (change : H → H) : Client a (.changeHost change)
  | emit (event : TraceEvent) : Client a (.emit event)
  | size : Client a size
  | fill (i : UInt64) {make : Program V H V} : Client a make → Client a (a.fill i make)
  | swap (i : UInt64) (v : V) : Client a (a.swap i v)
  | take (i : UInt64) : Client a (a.take i)
  | eraseIf (i : UInt64) {accepts : V → Program V H Bool} :
      (∀ v, Client a (accepts v)) → Client a (a.eraseIf i accepts)
  | update (i : UInt64) {factory : V → Program V H V} {accepts : V → Program V H Bool} :
      (∀ v, Client a (factory v)) → (∀ v, Client a (accepts v)) →
      Client a (a.update i factory accepts)
  | get? (i : UInt64) : Client a (a.get? i)
  | contains (i : UInt64) : Client a (a.contains i)
  | firstFrom (i : UInt64) : Client a (a.firstFrom i)

namespace Client

variable {a : SlotArray} {p : Program V H α}

theorem map (f : α → β) (h : a.Client p) : a.Client (f <$> p) := .bind h fun x => .done (f x)

theorem discard (h : a.Client p) : a.Client (Functor.discard p) := h.map _

/-! The other operations on one slot. -/

theorem insert (i : UInt64) (v : V) : a.Client (a.insert i v : Program V H Bool) :=
  .map _ (.fill i (.done v))

theorem getOrFill (i : UInt64) {make : Program V H V} (h : a.Client make) :
    a.Client (a.getOrFill i make) := .map _ (.fill i h)

theorem getOrInsert (i : UInt64) (v : V) : a.Client (a.getOrInsert i v : Program V H (Option V)) :=
  getOrFill i (.done v)

theorem exchange (i : UInt64) (v : V) :
    a.Client (a.exchange i v : Program V H (Except V (Option V))) := by
  refine .bind (.swap i v) fun old => ?_
  cases old <;> exact .done _

theorem set (i : UInt64) (v : V) : a.Client (a.set i v : Program V H Bool) := by
  refine .bind (.swap i v) fun old => ?_
  cases old <;> exact .done _

theorem erase (i : UInt64) : a.Client (a.erase i : Program V H Bool) := .map _ (.take i)

theorem isEmpty : a.Client (isEmpty : Program V H Bool) := .map _ .size

theorem updateRetry (i : UInt64) {factory : ℕ → V → Program V H V}
    {accepts : ℕ → V → Program V H Bool} (hf : ∀ k v, a.Client (factory k v))
    (ha : ∀ k v, a.Client (accepts k v)) (n : ℕ) :
    a.Client (a.updateRetry i factory accepts n) := by
  suffices h : ∀ made asked outcomes,
      a.Client (updateRetry.go a i factory accepts n made asked outcomes) from h 0 0 []
  induction n with
  | zero => exact fun _ _ _ => .done _
  | succ n ih =>
    intro made asked outcomes
    refine .bind (.update i (hf made) (ha asked)) fun attempt => ?_
    cases attempt <;> first | exact .done _ | exact ih _ _ _

theorem eraseRetry (i : UInt64) {accepts : ℕ → V → Program V H Bool}
    (ha : ∀ k v, a.Client (accepts k v)) (n : ℕ) : a.Client (a.eraseRetry i accepts n) := by
  suffices h : ∀ asked tries, a.Client (eraseRetry.go a i accepts n asked tries) from h 0 []
  induction n with
  | zero => exact fun _ _ => .done _
  | succ n ih =>
    intro asked tries
    refine .bind (.contains i) fun found => ?_
    cases found with
    | false => exact .done _
    | true =>
      refine .bind (.eraseIf i (ha asked)) fun attempt => ?_
      cases attempt <;> first | exact .done _ | exact ih _ _

/-! Walks over many slots. -/

theorem next (cursor : Cursor) :
    a.Client (a.next cursor : Program V H (Option (UInt64 × V) × Cursor)) := by
  refine .bind (.firstFrom _) fun found => ?_
  cases found <;> exact .done _

theorem nextWhere {save : Cursor → Program V H Unit} {accepts : ℕ → UInt64 → V → Program V H Bool}
    (hs : ∀ cursor, a.Client (save cursor)) (ha : ∀ k i v, a.Client (accepts k i v))
    (cursor : Cursor) : a.Client (a.nextWhere save accepts cursor) := by
  suffices h : ∀ n cursor, a.Client (nextWhere.go a save accepts n cursor) from h _ cursor
  intro n
  induction n with
  | zero => exact fun _ => .done _
  | succ n ih =>
    intro cursor
    refine .bind (next cursor) fun ⟨found, after⟩ => ?_
    cases found with
    | none => exact .done _
    | some item =>
      refine .bind (hs after) fun _ => .bind (ha _ _ _) fun accepted => ?_
      cases accepted
      · exact ih after
      · exact .done _

theorem gather {step : Cursor → Program V H (Option (UInt64 × V) × Cursor)}
    (h : ∀ cursor, a.Client (step cursor)) (n : ℕ) (cursor : Cursor) (items : List (UInt64 × V)) :
    a.Client (SlotArray.gather step n cursor items) := by
  induction n generalizing cursor items with
  | zero => exact .done _
  | succ n ih =>
    refine .bind (h cursor) fun ⟨found, after⟩ => ?_
    cases found with
    | none => exact .done _
    | some item => exact ih after (item :: items)

theorem drain {step : Cursor → Program V H (Option (UInt64 × V) × Cursor)}
    (h : ∀ cursor, a.Client (step cursor)) (cursor : Cursor) : a.Client (a.drain step cursor) :=
  gather h _ cursor []

theorem toList : a.Client (a.toList : Program V H (List (UInt64 × V))) := .map _ (drain next _)

theorem forEach {body : ℕ → V → Program V H Unit} (h : ∀ k v, a.Client (body k v)) :
    a.Client (a.forEach body) := by
  refine .bind (drain (fun cursor => ?_) _) fun _ => .done _
  refine .bind (next cursor) fun ⟨found, after⟩ => ?_
  cases found with
  | none => exact .done _
  | some item => exact .bind (h _ _) fun _ => .done _

theorem clear : a.Client (a.clear : Program V H Unit) := by
  suffices h : ∀ n start, a.Client (clear.go a n start : Program V H Unit) from h _ 0
  intro n
  induction n with
  | zero => exact fun _ => .done _
  | succ n ih =>
    intro start
    refine .bind (.firstFrom start) fun found => ?_
    cases found with
    | none => exact .done _
    | some item => exact .bind (.discard (.take _)) fun _ => ih _

theorem copyTo (target : List V) (offset : ℕ) :
    a.Client (a.copyTo target offset : Program V H (Except CopyError ℕ × List V)) := by
  unfold SlotArray.copyTo
  split
  · exact .done _
  · refine .bind .size fun needed => ?_
    split
    · exact .done _
    · exact .bind (gather next _ _ _) fun _ => .done _

theorem countSuccesses {operation : UInt64 → Program V H Bool} (h : ∀ i, a.Client (operation i))
    (step n index successes : ℕ) :
    a.Client (SlotArray.countSuccesses operation step n index successes) := by
  induction n generalizing index successes with
  | zero => exact .done _
  | succ n ih => exact .bind (h _) fun _ => ih _ _

theorem fillRange (value : UInt64 → V) (first stop step : ℕ) :
    a.Client (a.fillRange value first stop step : Program V H ℕ) :=
  countSuccesses (fun i => insert i (value i)) _ _ _ _

theorem eraseRange (first stop step : ℕ) :
    a.Client (a.eraseRange first stop step : Program V H ℕ) :=
  countSuccesses (fun i => erase i) _ _ _ _

theorem emitAll (events : List TraceEvent) :
    a.Client (.emitAll events : Program V H Unit) := by
  induction events with
  | nil => exact .done _
  | cons event rest ih => exact .bind (.emit event) fun _ => ih

theorem rebuild : a.Client (a.rebuild : Program V H (Rebuilt V)) :=
  .bind toList fun _ => .bind (emitAll _) fun _ => .bind (.emit _) fun _ =>
    .bind (.emit _) fun _ => .done _

end Client

end SlotArray

open SlotArray (Client)

/-! Scripts. Their callbacks note each call and perform the operations that are listed for it. -/

theorem ScriptProgram.client_consult {a : SlotArray} {site : CallSite}
    {argument : α → Argument V} {answer : ℕ → α → β} {aside : ℕ → ScriptProgram V Unit}
    (h : ∀ k, a.Client (aside k)) (panicAt : Option ℕ) (call : ℕ) (x : α) :
    a.Client (consult site argument answer aside panicAt call x) := by
  refine .bind (.changeHost _) fun _ => .bind (h call) fun _ => ?_
  split
  · exact .panic _
  · exact .done _

namespace SlotArray.Client

variable {a : SlotArray} {filters : Filters V}

theorem stepWalk (h : ∀ k call i v, a.Client (filters k call i v)) (number : ℕ) (shape : Shape)
    (cursor : Cursor) : a.Client (a.stepWalk filters number shape cursor) := by
  cases shape with
  | values => exact next cursor
  | indexed => exact next cursor
  | filtered k => exact nextWhere (fun _ => .changeHost _) (h k) cursor

theorem continueWalk {name : String} {missing : α}
    {proceed : ℕ → Walk → ScriptProgram V (α × Cursor)} (h : ∀ k walk, a.Client (proceed k walk)) :
    a.Client (SlotArray.continueWalk name missing proceed) := by
  refine .bind .readHost fun book => ?_
  split
  · exact .done _
  · exact .bind (h _ _) fun _ => .bind (.changeHost _) fun _ => .done _

theorem collectWhere {accepts : ℕ → UInt64 → V → ScriptProgram V Bool}
    (h : ∀ k i v, a.Client (accepts k i v)) : a.Client (a.collectWhere accepts) :=
  .bind (drain (nextWhere (fun _ => .done ()) h) _) fun _ => .done _

theorem boundsOf (name : String) : a.Client (a.boundsOf name : ScriptProgram V (Reply V)) := by
  refine .bind .readHost fun book => ?_
  split <;> exact .done _

end SlotArray.Client

namespace Operation

open ScriptProgram SlotArray.Client

variable {a : SlotArray} {filters : Filters V}

mutual

/-- Every operation of a script is a client if the filters are. -/
theorem client_program (h : ∀ k call i v, a.Client (filters k call i v)) :
    ∀ operation : Operation V, a.Client (operation.program filters a)
  | insert i v => .map _ (SlotArray.Client.insert i v)
  | tryInsert i v => .map _ (.fill i (.done v))
  | getOrInsert i v => .map _ (SlotArray.Client.getOrInsert i v)
  | getOrFill i ⟨_, asides, _⟩ => .map _ <| SlotArray.Client.getOrFill i <|
      client_consult (client_aside h asides) _ _ _
  | exchange i v => .map _ (SlotArray.Client.exchange i v)
  | set i v => .map _ (SlotArray.Client.set i v)
  | erase i => .map _ (SlotArray.Client.erase i)
  | take i => .map _ (.take i)
  | eraseIf i ⟨_, asides, _⟩ =>
      .bind (.eraseIf i (client_consult (client_aside h asides) _ _)) fun _ => .done _
  | eraseRetry i attempts ⟨_, asides, _⟩ => .map _ <| SlotArray.Client.eraseRetry i
      (fun k => client_consult (client_aside h asides) _ k) attempts
  | update i ⟨_, makeAsides, _⟩ ⟨_, asides, _⟩ =>
      .bind (.update i (client_consult (client_aside h makeAsides) _ _)
        (client_consult (client_aside h asides) _ _)) fun _ => .done _
  | updateRetry i attempts ⟨_, makeAsides, _⟩ ⟨_, asides, _⟩ =>
      .map _ <| SlotArray.Client.updateRetry i
        (fun k => client_consult (client_aside h makeAsides) _ k)
        (fun k => client_consult (client_aside h asides) _ k) attempts
  | get i => .map _ (.get? i)
  | contains i => .map _ (.contains i)
  | clear => .bind SlotArray.Client.clear fun _ => .done _
  | size => .map _ .size
  | isEmpty => .map _ SlotArray.Client.isEmpty
  | capacity => .done _
  | describe _ => .bind .size fun _ => .done _
  | copyTo target offset => .bind (SlotArray.Client.copyTo target offset) fun _ => .done _
  | fillRange value first stop step => .map _ (SlotArray.Client.fillRange value first stop step)
  | eraseRange first stop step => .map _ (SlotArray.Client.eraseRange first stop step)
  | collect => .bind toList fun _ => .done _
  | collectIndexed => .bind toList fun _ => .done _
  | collectWhere ⟨_, asides, _⟩ => SlotArray.Client.collectWhere fun k _ v =>
      client_consult (client_aside h asides) _ k v
  | collectWhereIndex ⟨_, asides, _⟩ => SlotArray.Client.collectWhere fun k i _ =>
      client_consult (client_aside h asides) _ k i
  | forEach ⟨_, asides, _⟩ => .bind (SlotArray.Client.forEach fun k =>
      client_consult (client_aside h asides) _ k) fun _ => .done _
  | rebuild => .map _ SlotArray.Client.rebuild
  | walk _ _ => .bind (.changeHost _) fun _ => .done _
  | nextItem _ => .map _ <| SlotArray.Client.continueWalk fun k walk =>
      .bind (stepWalk h k walk.shape walk.cursor) fun _ => .done _
  | drain _ => .map _ <| SlotArray.Client.continueWalk fun k walk =>
      .bind (SlotArray.Client.drain (stepWalk h k walk.shape) walk.cursor) fun _ => .done _
  | bounds name => boundsOf name

theorem client_aside (h : ∀ k call i v, a.Client (filters k call i v)) :
    ∀ (asides : List (List (Operation V))) (call : ℕ), a.Client (aside filters a asides call)
  | [], _ => .done ()
  | operations :: _, 0 => client_nested h operations
  | _ :: rest, call + 1 => client_aside h rest call

theorem client_nested (h : ∀ k call i v, a.Client (filters k call i v)) :
    ∀ operations : List (Operation V), a.Client (nested filters a operations)
  | [] => .done ()
  | operation :: rest => .bind (client_program h operation) fun _ =>
      .bind (.changeHost _) fun _ => client_nested h rest

end

end Operation

/-- The predicates of a script's filters are clients, however deep filters use filters. -/
theorem Script.client_filtersAt (filters : Array (Filter V)) (a : SlotArray) (depth : ℕ) :
    ∀ k call i v, a.Client (filtersAt filters a depth k call i v) := by
  induction depth with
  | zero => exact fun _ _ _ _ => .done _
  | succ depth ih =>
    intro k call i v
    rw [filtersAt]
    cases filters[k]? with
    | none => exact .done _
    | some filter =>
      cases filter with
      | byValue accepts =>
        exact ScriptProgram.client_consult (Operation.client_aside ih accepts.asides) _ _ _
      | byIndex accepts =>
        exact ScriptProgram.client_consult (Operation.client_aside ih accepts.asides) _ _ _

end AtomicSlots
