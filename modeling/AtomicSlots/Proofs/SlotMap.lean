import AtomicSlots.Script.Notebook
import AtomicSlots.Proofs.Slots

/-!
# The slot map that an array stands for

To a caller an array is a list of optional values. An operation on one slot looks at the element at
its index, if there is one, asks its callbacks about it, and answers and changes it accordingly; an
index behind the end changes nothing and asks nobody. The callbacks keep their hands off the array:
all they use is state of their own, in which they can note how they were called. This file says what
each operation does to such a list, without a table, segments, cells or a count.
-/
namespace AtomicSlots

variable {V H α β : Type}

/-- Actions outside the memory. -/
def Action.isOutside : Action V H → Bool
  | readHost | changeHost _ | emit _ => true
  | loadEntry _ | publish _ | load _ | exchangeIf .. | swap .. | retire _ | adjust _ | readSize =>
    false

namespace Program

/-- Programs that leave the memory alone and do not look at it either. -/
def HandsOff : Program V H α → Prop
  | done _ | panic _ => True
  | step act next => act.isOutside = true ∧ ∀ r, (next r).HandsOff

theorem HandsOff.bind {p : Program V H α} {f : α → Program V H β} (hp : p.HandsOff)
    (hf : ∀ x, (f x).HandsOff) : (p >>= f).HandsOff := by
  induction p with
  | done x => exact hf x
  | panic reason => trivial
  | step act next ih => exact ⟨hp.1, fun r => ih r (hp.2 r)⟩

/-- The ends that a program comes to if others may change everything between its actions. -/
inductive MayEnd : Program V H α → Except Panic α → Prop
  | done (x : α) : MayEnd (.done x) (.ok x)
  | panic (reason : Panic) : MayEnd (.panic reason) (.error reason)
  | step {act : Action V H} {next : act.Result → Program V H α} {answer : Except Panic α}
      (r : act.Result) : MayEnd (next r) answer → MayEnd (.step act next) answer

@[simp] theorem mayEnd_done_iff {x : α} {answer : Except Panic α} :
    (.done x : Program V H α).MayEnd answer ↔ answer = .ok x := by
  constructor
  · rintro ⟨⟩
    rfl
  · rintro rfl
    exact .done x

theorem MayEnd.of_eq_pure {p : Program V H α} {x : α} (h : p = pure x) : p.MayEnd (.ok x) := by
  rw [h]
  exact .done x

theorem MayEnd.bind {p : Program V H α} {f : α → Program V H β} {x : α} {answer : Except Panic β}
    (hp : p.MayEnd (.ok x)) (hf : (f x).MayEnd answer) : (p >>= f).MayEnd answer := by
  generalize hr : (Except.ok x : Except Panic α) = r at hp
  induction hp with
  | done y =>
    cases hr
    exact hf
  | panic reason => cases hr
  | step r _ ih => exact .step r (ih hr)

theorem MayEnd.bind_error {p : Program V H α} {reason : Panic} (hp : p.MayEnd (.error reason))
    (f : α → Program V H β) : (p >>= f).MayEnd (.error reason) := by
  generalize hr : (Except.error reason : Except Panic α) = r at hp
  induction hp with
  | done x => cases hr
  | panic other =>
    cases hr
    exact .panic _
  | step r _ ih => exact .step r (ih hr)

/-- A sequence ends where its second part ends, or with a panic of its first part. -/
theorem mayEnd_bind_iff {p : Program V H α} {f : α → Program V H β} {answer : Except Panic β} :
    (p >>= f).MayEnd answer ↔ (∃ x, p.MayEnd (.ok x) ∧ (f x).MayEnd answer) ∨
      ∃ reason, answer = .error reason ∧ p.MayEnd (.error reason) := by
  constructor
  · intro h
    induction p with
    | done x => exact .inl ⟨x, .done x, h⟩
    | panic reason =>
      cases h
      exact .inr ⟨reason, rfl, .panic reason⟩
    | step act next ih =>
      cases h with
      | step r h =>
        rcases ih r h with ⟨x, hx, hf⟩ | ⟨reason, rfl, hp⟩
        · exact .inl ⟨x, .step r hx, hf⟩
        · exact .inr ⟨reason, rfl, .step r hp⟩
  · rintro (⟨x, hx, hf⟩ | ⟨reason, rfl, hp⟩)
    · exact hx.bind hf
    · exact hp.bind_error f

/-- Runs a program that leaves the memory alone. -/
def alone [Journal H] (p : Program V H α) (host : H) : Except Panic α × H :=
  let (answer, s) := p.run ⟨.ofEntries 0, host⟩
  (answer, s.host)

/-- Whatever the memory is, such a program keeps it and does the same. -/
theorem HandsOff.run_eq [Journal H] {p : Program V H α} (h : p.HandsOff) (s : Session V H) :
    p.run s = ((p.alone s.host).1, ⟨s.memory, (p.alone s.host).2⟩) := by
  obtain ⟨m, host⟩ := s
  induction p generalizing host with
  | done x => rfl
  | panic reason => rfl
  | step act next ih =>
    obtain ⟨hact, hnext⟩ := h
    cases act with
    | readHost => exact ih host (hnext host) host
    | changeHost change => exact ih () (hnext ()) (change host)
    | emit event => exact ih () (hnext ()) (Journal.record event host)
    | _ => cases hact

end Program

/-- The operations on one slot, with programs for callbacks. -/
inductive SlotOperation (V H : Type) where
  | insert (i : UInt64) (v : V)
  | tryInsert (i : UInt64) (v : V)
  | getOrInsert (i : UInt64) (v : V)
  | getOrFill (i : UInt64) (make : Program V H V)
  | exchange (i : UInt64) (v : V)
  | set (i : UInt64) (v : V)
  | erase (i : UInt64)
  | take (i : UInt64)
  | eraseIf (i : UInt64) (accepts : V → Program V H Bool)
  | update (i : UInt64) (factory : V → Program V H V) (accepts : V → Program V H Bool)
  | get (i : UInt64)
  | contains (i : UInt64)

namespace SlotOperation

def index : SlotOperation V H → UInt64
  | insert i _ | tryInsert i _ | getOrInsert i _ | getOrFill i _ | exchange i _ | set i _ | erase i
  | take i | eraseIf i _ | update i _ _ | get i | contains i => i

/-- All callbacks keep their hands off the array. -/
def HandsOff : SlotOperation V H → Prop
  | getOrFill _ make => make.HandsOff
  | eraseIf _ accepts => ∀ v, (accepts v).HandsOff
  | update _ factory accepts => (∀ v, (factory v).HandsOff) ∧ ∀ v, (accepts v).HandsOff
  | insert .. | tryInsert .. | getOrInsert .. | exchange .. | set .. | erase _ | take _ | get _
  | contains _ => True

/-- The operation as a program on an array. -/
def program (a : SlotArray) : SlotOperation V H → Program V H (Reply V)
  | insert i v => .flag <$> a.insert i v
  | tryInsert i v => .filling <$> a.fill i (pure v)
  | getOrInsert i v => .content <$> a.getOrInsert i v
  | getOrFill i make => .content <$> a.getOrFill i make
  | exchange i v => .exchanged <$> a.exchange i v
  | set i v => .flag <$> a.set i v
  | erase i => .flag <$> a.erase i
  | take i => .content <$> a.take i
  | eraseIf i accepts => (.flag ∘ Attempt.isCommitted) <$> a.eraseIf i accepts
  | update i factory accepts => (.outcome ∘ UpdateOutcome.ofAttempt) <$> a.update i factory accepts
  | get i => .content <$> a.get? i
  | contains i => .flag <$> a.contains i

/-- The reply for an index that is not in the list. -/
def outside : SlotOperation V H → Reply V
  | insert .. | set .. | erase _ | eraseIf .. | contains _ => .flag false
  | tryInsert .. => .filling (.refused none)
  | getOrInsert .. | getOrFill .. | take _ | get _ => .content none
  | exchange _ v => .exchanged (.error v)
  | update .. => .outcome .empty

/-- What the operation does with the content of its slot: its reply and the new content. -/
def onContent : SlotOperation V H → Option V → Program V H (Reply V × Option V)
  | insert _ v, none => return (.flag true, some v)
  | insert _ _, some w => return (.flag false, some w)
  | tryInsert _ v, none => return (.filling (.stored v), some v)
  | tryInsert _ _, some w => return (.filling (.refused (some w)), some w)
  | getOrInsert _ v, none => return (.content (some v), some v)
  | getOrInsert _ _, some w => return (.content (some w), some w)
  | getOrFill _ make, none => do
    let v ← make
    return (.content (some v), some v)
  | getOrFill _ _, some w => return (.content (some w), some w)
  | exchange _ v, content => return (.exchanged (.ok content), some v)
  | set _ v, content => return (.flag content.isNone, some v)
  | erase _, content => return (.flag content.isSome, none)
  | take _, content => return (.content content, none)
  | eraseIf _ _, none => return (.flag false, none)
  | eraseIf _ accepts, some w => do
    if ← accepts w then
      return (.flag true, none)
    else
      return (.flag false, some w)
  | update _ _ _, none => return (.outcome .empty, none)
  | update _ factory accepts, some w => do
    if ← accepts w then
      let v ← factory w
      return (.outcome .updated, some v)
    else
      return (.outcome .declined, some w)
  | get _, content => return (.content content, content)
  | contains _, content => return (.flag content.isSome, content)

/-- What the operation does with a list of contents: its reply and the new list. -/
def onSlots (operation : SlotOperation V H) (slots : List (Option V)) :
    Program V H (Reply V × List (Option V)) :=
  match slots[operation.index.toNat]? with
  | none => return (operation.outside, slots)
  | some content => do
    let (reply, new) ← operation.onContent content
    return (reply, slots.set operation.index.toNat new)

theorem HandsOff.onContent {operation : SlotOperation V H} (h : operation.HandsOff)
    (content : Option V) : (operation.onContent content).HandsOff := by
  cases operation with
  | getOrFill i make =>
    cases content with
    | none => exact Program.HandsOff.bind h fun _ => trivial
    | some w => trivial
  | eraseIf i accepts =>
    cases content with
    | none => trivial
    | some w => exact (h w).bind fun yes => by cases yes <;> trivial
  | update i factory accepts =>
    cases content with
    | none => trivial
    | some w =>
      refine (h.2 w).bind fun yes => ?_
      cases yes with
      | false => trivial
      | true => exact (h.1 w).bind fun _ => trivial
  | insert i v | tryInsert i v | getOrInsert i v => cases content <;> trivial
  | exchange i v | set i v | erase i | take i | get i | contains i => trivial

/-- The six ways in which operations work on a slot. Operations of one way differ in what they make
of the answer. -/
inductive Kind (a : SlotArray) (operation : SlotOperation V H) : Prop
  | fill (make : Program V H V) (reply : Filling V → Reply V)
      (program_eq : operation.program a = reply <$> a.fill operation.index make)
      (on_some : ∀ w, operation.onContent (some w) = pure (reply (.refused (some w)), some w))
      (on_none : operation.onContent none = make >>= fun v => pure (reply (.stored v), some v))
      (outside_eq : operation.outside = reply (.refused none))
      (handsOff : operation.HandsOff → make.HandsOff)
  | swap (v : V) (reply : Option (Option V) → Reply V)
      (program_eq : operation.program a = reply <$> a.swap operation.index v)
      (on_content : ∀ content, operation.onContent content = pure (reply (some content), some v))
      (outside_eq : operation.outside = reply none)
  | take (reply : Option V → Reply V)
      (program_eq : operation.program a = reply <$> a.take operation.index)
      (on_content : ∀ content, operation.onContent content = pure (reply content, none))
      (outside_eq : operation.outside = reply none)
  | look (reply : Option V → Reply V)
      (program_eq : operation.program a = reply <$> a.get? operation.index)
      (on_content : ∀ content, operation.onContent content = pure (reply content, content))
      (outside_eq : operation.outside = reply none)
  | eraseIf (i : UInt64) (accepts : V → Program V H Bool) (eq : operation = .eraseIf i accepts)
  | update (i : UInt64) (factory : V → Program V H V) (accepts : V → Program V H Bool)
      (eq : operation = .update i factory accepts)

theorem contains_eq (a : SlotArray) (i : UInt64) :
    (a.contains i : Program V H Bool) = Option.isSome <$> a.get? i := by
  by_cases hi : i < a.capacity
  · have hp : Access.inspect ≠ .fill := by decide
    rw [SlotArray.contains, SlotArray.accessSignal, SlotArray.get?, SlotArray.access_of_lt hi hp,
      SlotArray.access_of_lt hi hp]
    simp only [map_eq_bind_pure_comp, bind_assoc]
    congr 1
    funext found
    cases found with
    | none => rfl
    | some segment =>
      change (Cell.load _ >>= _) = (Cell.load _ >>= _)
      congr 1
      funext content
      cases content <;> rfl
  · have hle := UInt64.not_lt.mp hi
    rw [SlotArray.contains, SlotArray.accessSignal, SlotArray.get?, SlotArray.access_of_le hle,
      SlotArray.access_of_le hle]
    rfl

theorem kind (a : SlotArray) (operation : SlotOperation V H) : operation.Kind a := by
  cases operation with
  | insert i v =>
    refine .fill (pure v) (.flag ∘ Filling.isStored) ?_ (fun _ => rfl) rfl rfl fun _ => trivial
    rw [program, SlotArray.insert, ← comp_map]
    rfl
  | tryInsert i v => exact .fill (pure v) .filling rfl (fun _ => rfl) rfl rfl fun _ => trivial
  | getOrInsert i v =>
    refine .fill (pure v) (.content ∘ Filling.value?) ?_ (fun _ => rfl) rfl rfl fun _ => trivial
    rw [program, SlotArray.getOrInsert, SlotArray.getOrFill, ← comp_map]
    rfl
  | getOrFill i make =>
    refine .fill make (.content ∘ Filling.value?) ?_ (fun _ => rfl) rfl rfl id
    rw [program, SlotArray.getOrFill, ← comp_map]
    rfl
  | exchange i v =>
    refine .swap v (fun old => .exchanged (old.elim (.error v) .ok)) ?_ (fun _ => rfl) rfl
    rw [program, SlotArray.exchange, map_bind]
    refine congrArg _ (funext fun old => ?_)
    cases old <;> rfl
  | set i v =>
    refine .swap v (fun old => .flag (old.elim false Option.isNone)) ?_ (fun _ => rfl) rfl
    rw [program, SlotArray.set, map_bind]
    refine congrArg _ (funext fun old => ?_)
    cases old <;> rfl
  | erase i =>
    refine .take (.flag ∘ Option.isSome) ?_ (fun _ => rfl) rfl
    rw [program, SlotArray.erase, ← comp_map]
    rfl
  | take i => exact .take .content rfl (fun _ => rfl) rfl
  | eraseIf i accepts => exact .eraseIf i accepts rfl
  | update i factory accepts => exact .update i factory accepts rfl
  | get i => exact .look .content rfl (fun _ => rfl) rfl
  | contains i =>
    refine .look (.flag ∘ Option.isSome) ?_ (fun _ => rfl) rfl
    rw [program, contains_eq, ← comp_map]
    rfl

/-- Outside the array an operation performs no action at all. -/
theorem program_of_le {a : SlotArray} {operation : SlotOperation V H}
    (h : a.capacity ≤ operation.index) : operation.program a = .done operation.outside := by
  rcases operation.kind a with ⟨make, reply, hp, -, -, ho, -⟩ | ⟨v, reply, hp, -, ho⟩ |
    ⟨reply, hp, -, ho⟩ | ⟨reply, hp, -, ho⟩ | ⟨i, accepts, rfl⟩ | ⟨i, factory, accepts, rfl⟩
  · rw [hp, ho, SlotArray.fill, SlotArray.access_of_le h]
    rfl
  · rw [hp, ho, SlotArray.swap, SlotArray.access_of_le h]
    rfl
  · rw [hp, ho, SlotArray.take, SlotArray.access_of_le h]
    rfl
  · rw [hp, ho, SlotArray.get?, SlotArray.access_of_le h]
    rfl
  · have hi : a.capacity ≤ i := h
    rw [program, SlotArray.eraseIf, SlotArray.access_of_le hi]
    rfl
  · have hi : a.capacity ≤ i := h
    rw [program, SlotArray.update, SlotArray.access_of_le hi]
    rfl

end SlotOperation

end AtomicSlots
