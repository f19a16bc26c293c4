import AtomicSlots.Proofs.Interference
import AtomicSlots.Proofs.SlotMap

/-!
# The decisive action of an operation

Seen from outside, an operation on one slot happens in a single action of its own, and every other
action of it changes no slot. Which action that is differs: the load that finds an occupant or no
segment, the exchange that is won or lost, the swap. When callbacks decide, it may be clear only
later that an earlier load was the decisive action, so the operation remembers the memory of that
load. The replies are those of the slot map at that moment, with one exception: a conditional
operation that was ready to change what it saw may find another occupant instead, and declines.
-/
namespace AtomicSlots

variable {V H α : Type}

open Program SlotArray

namespace SlotOperation

/-- The predicate may accept this value. -/
def Accepts : SlotOperation V H → V → Prop
  | eraseIf _ accepts, w | update _ _ accepts, w => (accepts w).MayEnd (.ok true)
  | insert .., _ | tryInsert .., _ | getOrInsert .., _ | getOrFill .., _ | exchange .., _
  | set .., _ | erase _, _ | take _, _ | get _, _ | contains _, _ => False

/-- The reply of a conditional operation that leaves an occupied slot alone. -/
def declined : SlotOperation V H → Reply V
  | eraseIf .. => .flag false
  | update .. => .outcome .declined
  | insert .. | tryInsert .. | getOrInsert .. | getOrFill .. | exchange .. | set .. | erase _
  | take _ | get _ | contains _ => .done

/-- How an operation can happen in a sequence of operations on a list of contents: with the reply
and the change that it has there, or with a panic of a callback and no change. A conditional
operation may also be lost: it declines an occupied slot, although its predicate has accepted a
value. -/
inductive Moves (operation : SlotOperation V H) :
    (lost : Bool) → List (Option V) → Except Panic (Reply V) → List (Option V) → Prop
  | answers {slots new : List (Option V)} {reply : Reply V}
      (h : (operation.onSlots slots).MayEnd (.ok (reply, new))) :
      Moves operation false slots (.ok reply) new
  | panics {slots : List (Option V)} {reason : Panic}
      (h : (operation.onSlots slots).MayEnd (.error reason)) :
      Moves operation false slots (.error reason) slots
  | declines {slots : List (Option V)} {accepted found : V} (h : operation.Accepts accepted)
      (hfound : slots[operation.index.toNat]? = some (some found)) :
      Moves operation true slots (.ok operation.declined) slots

end SlotOperation

/-- How far an operation has come: it has not seen its slot, it has seen it in a certain memory and
has not decided, or it has happened and will end in a certain way. -/
inductive Progress (V : Type) where
  | waiting
  | looked (m : Memory V)
  | finished (answer : Except Panic (Reply V))

namespace Progress

theorem waiting_ne_finished (earlier : Except Panic (Reply V)) : waiting ≠ finished earlier := by
  intro h
  cases h

theorem looked_ne_finished (m : Memory V) (earlier : Except Panic (Reply V)) :
    looked m ≠ finished earlier := by
  intro h
  cases h

/-- What one action can mean to an operation. -/
inductive Advances (a : SlotArray) (operation : SlotOperation V H) : Protocol V H (Progress V)
  | idles {progress : Progress V} {act : Action V H} {m n : Memory V}
      (h : ∀ i, a.occupant? n i = a.occupant? m i) : Advances a operation progress act m n progress
  | looks {act : Action V H} {m : Memory V} : Advances a operation waiting act m m (looked m)
  | happens {progress : Progress V} {act : Action V H} {m n : Memory V} {reply : Reply V}
      (hbefore : ∀ earlier, progress ≠ finished earlier)
      (h : (operation.onSlots (a.slots m)).MayEnd (.ok (reply, a.slots n))) :
      Advances a operation progress act m n (finished (.ok reply))
  | declines {seen m : Memory V} {act : Action V H} {o p : Occupant V}
      (hseen : a.occupant? seen operation.index = some o) (haccepts : operation.Accepts o.value)
      (hfound : a.occupant? m operation.index = some p) (hne : p.stamp ≠ o.stamp) :
      Advances a operation (looked seen) act m m (finished (.ok operation.declined))

/-- The ends that an operation can come to. One that has not happened happens where it has looked,
or anywhere if it has not looked at all. -/
def Ends (a : SlotArray) (operation : SlotOperation V H) (answer : Except Panic (Reply V)) :
    Progress V → Prop
  | waiting => ∀ m, operation.Moves false (a.slots m) answer (a.slots m)
  | looked m => operation.Moves false (a.slots m) answer (a.slots m)
  | finished earlier => answer = earlier

end Progress

open Progress

section Steps

variable {a : SlotArray} {operation : SlotOperation V H} {m : Memory V}

/-- What the slot map does is what the operation does with the content of its slot. -/
theorem SlotOperation.onSlots_eq (hi : operation.index < a.capacity) :
    operation.onSlots (a.slots m) = (operation.onContent (a.value? m operation.index)) >>=
      fun (reply, new) => pure (reply, (a.slots m).set operation.index.toNat new) := by
  rw [onSlots, getElem?_slots, if_pos hi]

theorem set_value? {i : UInt64} (hi : i < a.capacity) :
    (a.slots m).set i.toNat (a.value? m i) = a.slots m := by
  have hget := getElem?_slots a m i
  rw [if_pos hi] at hget
  obtain ⟨hlt, hget⟩ := List.getElem?_eq_some_iff.mp hget
  rw [← hget]
  exact List.set_getElem_self hlt

/-- An operation that leaves the content as it is leaves the list as it is. -/
theorem SlotOperation.mayEnd_onSlots_keep (hi : operation.index < a.capacity)
    {content : Option V} (hcontent : a.value? m operation.index = content) {reply : Reply V}
    (h : (operation.onContent content).MayEnd (.ok (reply, content))) :
    (operation.onSlots (a.slots m)).MayEnd (.ok (reply, a.slots m)) := by
  rw [onSlots_eq hi, hcontent]
  have hset : (a.slots m).set operation.index.toNat content = a.slots m :=
    hcontent ▸ set_value? hi
  refine h.bind ?_
  change (done (reply, (a.slots m).set operation.index.toNat content)).MayEnd _
  rw [hset]
  exact .done _

/-- An action that stores what the operation makes of the content is the decisive one. -/
theorem Progress.Advances.of_store (hs : a.Sound m) {cell : Cell}
    (hc : a.cell? m operation.index = some cell) {progress : Progress V} {act : Action V H}
    {new : Option V} {reply : Reply V} (hbefore : ∀ earlier, progress ≠ finished earlier)
    (h : (operation.onContent ((m.content cell).map Occupant.value)).MayEnd (.ok (reply, new))) :
    Advances a operation progress act m (m.store cell new) (finished (.ok reply)) := by
  have hi := (cell?_eq_some_iff.mp hc).1
  refine .happens hbefore ?_
  rw [SlotOperation.onSlots_eq hi, value?_of_cell? hc, slots_store hs hc]
  exact h.bind (.done _)

/-- So is an action that finds a content with which the operation does nothing. -/
theorem Progress.Advances.of_keep (hi : operation.index < a.capacity) {content : Option V}
    (hcontent : a.value? m operation.index = content) {progress : Progress V} {act : Action V H}
    {reply : Reply V} (hbefore : ∀ earlier, progress ≠ finished earlier)
    (h : (operation.onContent content).MayEnd (.ok (reply, content))) :
    Advances a operation progress act m m (finished (.ok reply)) :=
  .happens hbefore (SlotOperation.mayEnd_onSlots_keep hi hcontent h)

/-- What callbacks make of the content that was seen is the answer, if it is no change. -/
theorem Progress.ends_looked (hi : operation.index < a.capacity) {content : Option V}
    (hcontent : a.value? m operation.index = content) {reply : Reply V}
    (h : (operation.onContent content).MayEnd (.ok (reply, content))) :
    Ends a operation (.ok reply) (looked m) :=
  .answers (SlotOperation.mayEnd_onSlots_keep hi hcontent h)

/-- A panic of a callback that was asked about the content that was seen. -/
theorem Progress.ends_looked_of_panic (hi : operation.index < a.capacity) {content : Option V}
    (hcontent : a.value? m operation.index = content) {reason : Panic}
    (h : (operation.onContent content).MayEnd (.error reason)) :
    Ends a operation (.error reason) (looked m) := by
  refine .panics ?_
  rw [SlotOperation.onSlots_eq hi, hcontent]
  exact h.bind_error _

end Steps

/-! Each way of working on a slot has its decisive action. -/

section Ways

variable {a : SlotArray} {operation : SlotOperation V H} {m : Memory V}

theorem SlotOperation.idle_waiting (a : SlotArray) (operation : SlotOperation V H) :
    (Advances a operation).Idle a waiting where
  loadEntry _ _ := .idles fun _ => rfl
  publish e _ h := .idles (occupant?_publish h e)
  emit _ _ := .idles fun _ => rfl

/-- What does not fill a slot is decided by the missing segment, if that is missing. -/
theorem SlotOperation.advances_of_missing (hi : operation.index < a.capacity)
    (hc : a.cell? m operation.index = none) {act : Action V H} {reply : Reply V}
    (h : (operation.onContent none).MayEnd (.ok (reply, none))) :
    Advances a operation waiting act m m (finished (.ok reply)) := by
  exact .of_keep hi (value?_of_cell?_eq_none hc) waiting_ne_finished h

variable [Journal H]

/-- A program that leaves the memory alone comes to one of its ends, and nothing moves. -/
theorem Program.HandsOff.follows {G : Type} {R : Protocol V H G} {g : G} {p : Program V H α}
    (h : p.HandsOff) (hidle : ∀ act n, act.isOutside = true → R g act n n g) :
    p.Follows a R (fun r g' _ => g' = g ∧ p.MayEnd r) g m := by
  induction p generalizing m with
  | done x => exact ⟨rfl, .done x⟩
  | panic reason => exact ⟨rfl, .panic reason⟩
  | step act next ih =>
    intro s _ _
    have hmemory : (act.perform s).2.memory = s.memory := by
      cases act <;> first | rfl | cases h.1
    have hadmits : a.Admits s.memory act := by
      cases act <;> first | trivial | cases h.1
    refine ⟨hadmits, g, hmemory ▸ hidle act s.memory h.1, ?_⟩
    exact (ih _ (h.2 _)).mono fun r g' _ _ hend => ⟨hend.1, .step _ hend.2⟩

namespace SlotOperation

/-- The program of an operation gets to its decisive action and ends accordingly. -/
abbrev IsDecided (a : SlotArray) (operation : SlotOperation V H) (m : Memory V) : Prop :=
  (operation.program a).Follows a (Advances a operation)
    (fun answer progress _ => Ends a operation answer progress) waiting m

theorem isDecided_of_fill (hi : operation.index < a.capacity) {make : Program V H V}
    {reply : Filling V → Reply V}
    (hp : operation.program a = reply <$> a.fill operation.index make)
    (hsome : ∀ w, operation.onContent (some w) = pure (reply (.refused (some w)), some w))
    (hnone : operation.onContent none = make >>= fun v => pure (reply (.stored v), some v))
    (hmake : make.HandsOff) : operation.IsDecided a m := by
  rw [IsDecided, hp, follows_map, SlotArray.fill, follows_bind]
  refine follows_access_fill (idle_waiting a operation)
    (fun hle => absurd hi (UInt64.not_lt.mpr hle)) ?_
  intro n cell _ _ hc
  -- an occupant decides at once, whether it is loaded or found by the exchange
  have hfull : ∀ k o progress act, n.Later k → k.content cell = some o →
      (∀ earlier, progress ≠ finished earlier) →
      Advances a operation progress act k k (finished (.ok (reply (.refused (some o.value))))) := by
    intro k o progress act hl ho hbefore
    have hvalue : a.value? k operation.index = some o.value := by
      rw [value?_of_cell? (cell?_later hl hc), ho]
      rfl
    exact .of_keep hi hvalue hbefore (.of_eq_pure (hsome o.value))
  refine Cell.follows_fill ⟨_, hc⟩ ?_ ?_
  · intro k o hl _ ho
    exact ⟨_, hfull k o waiting _ hl ho waiting_ne_finished, rfl⟩
  · intro k hl hk ho
    refine ⟨looked k, .looks, (hmake.follows fun _ _ _ => .idles fun _ => rfl).mono ?_⟩
    have hvalue : a.value? k operation.index = none := by
      rw [value?_of_cell? (cell?_later hl hc), ho]
      rfl
    rintro (reason | v) progress n₁ hl₁ ⟨rfl, hend⟩
    · exact ends_looked_of_panic hi hvalue (hnone ▸ hend.bind_error _)
    · intro l hll hsl
      have hnl : n.Later l := hl.trans (hl₁.trans hll)
      refine ⟨fun hempty => ?_, fun o ho => ⟨_, hfull l o _ _ hnl ho (looked_ne_finished _), rfl⟩⟩
      refine ⟨finished (.ok (reply (.stored v))),
          .of_store hsl (cell?_later hnl hc) (looked_ne_finished _) ?_, ?_⟩
      · rw [hempty]
        exact hnone ▸ hend.bind (.done _)
      · intro s _ _
        exact ⟨trivial, _, .idles fun _ => rfl, rfl⟩

theorem isDecided_of_swap (hi : operation.index < a.capacity) {v : V}
    {reply : Option (Option V) → Reply V}
    (hp : operation.program a = reply <$> a.swap operation.index v)
    (hcontent : ∀ content, operation.onContent content = pure (reply (some content), some v)) :
    operation.IsDecided a m := by
  rw [IsDecided, hp, follows_map, SlotArray.swap, follows_bind]
  refine follows_access_fill (idle_waiting a operation)
    (fun hle => absurd hi (UInt64.not_lt.mpr hle)) ?_
  intro n cell _ _ hc
  refine Cell.follows_replace ⟨_, hc⟩ fun k hl hk => ?_
  refine ⟨finished (.ok (reply (some ((k.content cell).map Occupant.value)))), ?_, fun ho => ?_,
    fun o ho l _ _ => ⟨_, .idles fun _ => rfl, ?_⟩⟩
  · exact .of_store hk (cell?_later hl hc) waiting_ne_finished (.of_eq_pure (hcontent _))
  · rw [ho]
    intro s _ _
    exact ⟨trivial, _, .idles fun _ => rfl, rfl⟩
  · rw [ho]
    rfl

theorem isDecided_of_take (hi : operation.index < a.capacity) {reply : Option V → Reply V}
    (hp : operation.program a = reply <$> a.take operation.index)
    (hcontent : ∀ content, operation.onContent content = pure (reply content, none)) :
    operation.IsDecided a m := by
  rw [IsDecided, hp, follows_map, SlotArray.take, follows_bind]
  refine follows_access (by decide) (fun _ _ => .idles fun _ => rfl)
    (fun hle => absurd hi (UInt64.not_lt.mpr hle)) ?_ ?_
  · intro n _ _ _ hc
    exact ⟨_, advances_of_missing hi hc (.of_eq_pure (hcontent none)), rfl⟩
  · intro n cell _ _ hc
    refine Cell.follows_replace ⟨_, hc⟩ fun k hl hk => ?_
    refine ⟨finished (.ok (reply ((k.content cell).map Occupant.value))), ?_, fun ho => ?_,
      fun o ho l _ _ => ⟨_, .idles fun _ => rfl, ?_⟩⟩
    · exact .of_store hk (cell?_later hl hc) waiting_ne_finished (.of_eq_pure (hcontent _))
    · rw [ho]
      rfl
    · rw [ho]
      intro s _ _
      exact ⟨trivial, _, .idles fun _ => rfl, rfl⟩

theorem isDecided_of_look (hi : operation.index < a.capacity) {reply : Option V → Reply V}
    (hp : operation.program a = reply <$> a.get? operation.index)
    (hcontent : ∀ content, operation.onContent content = pure (reply content, content)) :
    operation.IsDecided a m := by
  rw [IsDecided, hp, follows_map, SlotArray.get?, follows_bind]
  refine follows_access (by decide) (fun _ _ => .idles fun _ => rfl)
    (fun hle => absurd hi (UInt64.not_lt.mpr hle)) ?_ ?_
  · intro n _ _ _ hc
    exact ⟨_, advances_of_missing hi hc (.of_eq_pure (hcontent none)), rfl⟩
  · intro n cell _ _ hc
    refine Cell.follows_load fun k hl _ => ?_
    have hvalue := value?_of_cell? (cell?_later hl hc)
    exact ⟨_, .of_keep hi hvalue waiting_ne_finished (.of_eq_pure (hcontent _)), rfl⟩

/-- A conditional operation decides when it finds nothing or its exchange is won or finds nothing.
It happened where it looked if its callbacks leave the value alone, and it is lost if the exchange
finds another occupant. -/
theorem follows_revise {cell : Cell} (hc : a.cell? m operation.index = some cell)
    {accepts : V → Program V H Bool} {change : V → Program V H (Option V)}
    {reply : Attempt → Reply V} (ha : ∀ w, (accepts w).HandsOff)
    (hchange : ∀ w, (change w).HandsOff)
    (hsome : ∀ w, operation.onContent (some w) = accepts w >>= fun yes =>
      if yes then change w >>= fun new => pure (reply .committed, new)
      else pure (operation.declined, some w))
    (hnone : operation.onContent none = pure (reply .absent, none))
    (haccepts : ∀ w, (accepts w).MayEnd (.ok true) → operation.Accepts w)
    (hvacated : reply .vacated = reply .absent) (hrejected : reply .rejected = operation.declined)
    (hreplaced : reply .replaced = operation.declined) :
    (cell.revise accepts change).Follows a (Advances a operation)
      (fun answer progress _ => Ends a operation (reply <$> answer) progress) waiting m := by
  have hi := (cell?_eq_some_iff.mp hc).1
  have hvalue : ∀ {k : Memory V} {content : Option (Occupant V)}, m.Later k →
      k.content cell = content → a.value? k operation.index = content.map Occupant.value := by
    intro k content hl ho
    rw [value?_of_cell? (cell?_later hl hc), ho]
  refine Cell.follows_revise ⟨_, hc⟩ ?_ ?_
  · intro n hl _ ho
    exact ⟨_, .of_keep hi (hvalue hl ho) waiting_ne_finished (.of_eq_pure hnone), rfl⟩
  intro n o hl _ ho
  refine ⟨looked n, .looks, ((ha o.value).follows fun _ _ _ => .idles fun _ => rfl).mono ?_⟩
  rintro (reason | yes) progress n₁ hl₁ ⟨rfl, hyes⟩
  · refine ends_looked_of_panic hi (hvalue hl ho) ?_
    exact hsome o.value ▸ hyes.bind_error _
  cases yes with
  | false =>
    change Ends a operation (.ok (reply .rejected)) (looked n)
    refine ends_looked hi (hvalue hl ho) ?_
    rw [hrejected]
    exact hsome o.value ▸ hyes.bind (.done _)
  | true =>
    refine ((hchange o.value).follows fun _ _ _ => .idles fun _ => rfl).mono ?_
    rintro (reason | new) progress n₂ hl₂ ⟨rfl, hnew⟩
    · refine ends_looked_of_panic hi (hvalue hl ho) ?_
      exact hsome o.value ▸ hyes.bind (hnew.bind_error _)
    intro k hlk hk
    have hmk : m.Later k := hl.trans (hl₁.trans (hl₂.trans hlk))
    refine ⟨fun hsame => ?_, fun hempty => ?_, fun p hp hne => ?_⟩
    · refine ⟨finished (.ok (reply .committed)),
          .of_store hk (cell?_later hmk hc) (looked_ne_finished _) ?_, ?_⟩
      · rw [hsame]
        exact hsome o.value ▸ hyes.bind (hnew.bind (.done _))
      · exact fun l _ _ => ⟨_, .idles fun _ => rfl, rfl⟩
    · refine ⟨_, .of_keep hi (hvalue hmk hempty) (looked_ne_finished _) (.of_eq_pure hnone), ?_⟩
      exact congrArg Except.ok hvacated
    · refine ⟨_, .declines ?_ (haccepts _ hyes) ?_ hne, congrArg Except.ok hreplaced⟩
      · rw [occupant?_of_cell? (cell?_later hl hc), ho]
      · rw [occupant?_of_cell? (cell?_later hmk hc), hp]

theorem isDecided_eraseIf {i : UInt64} (hi : i < a.capacity) {accepts : V → Program V H Bool}
    (ha : ∀ w, (accepts w).HandsOff) : (eraseIf i accepts).IsDecided a m := by
  rw [IsDecided, program, follows_map, SlotArray.eraseIf, follows_bind]
  refine follows_access (by decide) (fun _ _ => .idles fun _ => rfl)
    (fun hle => absurd hi (UInt64.not_lt.mpr hle)) ?_ ?_
  · intro n _ _ _ hc
    have hmissing : Advances a (eraseIf i accepts) waiting
        (.loadEntry (Address.ofIndex i).entry) n n (finished (.ok (.flag false))) :=
      advances_of_missing (by exact hi) (by exact hc) (.done _)
    exact ⟨_, hmissing, rfl⟩
  · intro n cell _ _ hc
    have hchange : ∀ _ : V, (pure none : Program V H (Option V)).HandsOff := fun _ => trivial
    have hrevise : (cell.revise accepts fun _ => pure none).Follows a
        (Advances a (eraseIf i accepts)) (fun answer progress _ =>
          Ends a (eraseIf i accepts) ((.flag ∘ Attempt.isCommitted) <$> answer) progress)
        waiting n :=
      follows_revise hc ha hchange (fun _ => rfl) rfl (fun _ h => h) rfl rfl rfl
    refine hrevise.mono ?_
    rintro (reason | attempt) progress k _ hend
    · exact hend
    cases attempt with
    | committed =>
      intro s _ _
      exact ⟨trivial, _, .idles fun _ => rfl, hend⟩
    | absent | rejected | replaced | vacated => exact hend

theorem isDecided_update {i : UInt64} (hi : i < a.capacity) {factory : V → Program V H V}
    {accepts : V → Program V H Bool} (hf : ∀ w, (factory w).HandsOff)
    (ha : ∀ w, (accepts w).HandsOff) : (update i factory accepts).IsDecided a m := by
  rw [IsDecided, program, follows_map, SlotArray.update, follows_map]
  refine follows_access (by decide) (fun _ _ => .idles fun _ => rfl)
    (fun hle => absurd hi (UInt64.not_lt.mpr hle)) ?_ ?_
  · intro n _ _ _ hc
    have hmissing : Advances a (update i factory accepts) waiting
        (.loadEntry (Address.ofIndex i).entry) n n (finished (.ok (.outcome .empty))) :=
      advances_of_missing (by exact hi) (by exact hc) (.done _)
    exact ⟨_, hmissing, rfl⟩
  · intro n cell _ _ hc
    have hchange : ∀ w, (some <$> factory w).HandsOff := fun w => (hf w).bind fun _ => trivial
    have hsome : ∀ w, (update i factory accepts).onContent (some w) = accepts w >>= fun yes =>
        if yes then some <$> factory w >>= fun new => pure (.outcome .updated, new)
        else pure (.outcome .declined, some w) := by
      intro w
      simp only [bind_map_left]
      rfl
    have hrevise : (cell.revise accepts fun w => some <$> factory w).Follows a
        (Advances a (update i factory accepts)) (fun answer progress _ =>
          Ends a (update i factory accepts)
            ((.outcome ∘ UpdateOutcome.ofAttempt) <$> answer) progress)
        waiting n :=
      follows_revise hc ha hchange hsome rfl (fun _ h => h) rfl rfl rfl
    refine hrevise.mono ?_
    rintro (reason | attempt) progress k _ hend <;> exact hend

/-- On every array, every operation whose callbacks keep their hands off is decided by one action of
its own. -/
theorem HandsOff.isDecided (h : operation.HandsOff) : operation.IsDecided a m := by
  by_cases hi : operation.index < a.capacity
  · rcases operation.kind a with ⟨make, reply, hp, hsome, hnone, -, hmake⟩ |
      ⟨v, reply, hp, hcontent, -⟩ | ⟨reply, hp, hcontent, -⟩ | ⟨reply, hp, hcontent, -⟩ |
      ⟨i, accepts, rfl⟩ | ⟨i, factory, accepts, rfl⟩
    · exact isDecided_of_fill hi hp hsome hnone (hmake h)
    · exact isDecided_of_swap hi hp hcontent
    · exact isDecided_of_take hi hp hcontent
    · exact isDecided_of_look hi hp hcontent
    · exact isDecided_eraseIf hi h
    · exact isDecided_update hi h.1 h.2
  · rw [IsDecided, program_of_le (UInt64.not_lt.mp hi)]
    intro n
    refine .answers ?_
    rw [onSlots, getElem?_slots, if_neg hi]
    exact .done _

/-- Alone, an operation happens: the one way in which it can decline needs somebody else. -/
theorem HandsOff.moves_alone (h : operation.HandsOff) {s : Session V H} (hs : a.Sound s.memory) :
    a.Sound ((operation.program a).run s).2.memory ∧
      operation.Moves false (a.slots s.memory) ((operation.program a).run s).1
        (a.slots ((operation.program a).run s).2.memory) := by
  let unchanged (m : Memory V) : Prop := ∀ i, a.occupant? m i = a.occupant? s.memory i
  let inv : Progress V → Memory V → Prop
    | waiting, m => unchanged m
    | looked seen, m => unchanged seen ∧ unchanged m
    | finished answer, m => operation.Moves false (a.slots s.memory) answer (a.slots m)
  have hstep : ∀ (t : Session V H) act progress next, a.Sound t.memory → a.Admits t.memory act →
      Advances a operation progress act t.memory (act.perform t).2.memory next →
      inv progress t.memory → inv next (act.perform t).2.memory := by
    intro t act progress next _ _ hact hinv
    generalize (act.perform t).2.memory = n at hact
    generalize t.memory = m at hact hinv
    cases hact with
    | idles hsame =>
      cases progress with
      | waiting => exact fun i => (hsame i).trans (hinv i)
      | looked seen => exact ⟨hinv.1, fun i => (hsame i).trans (hinv.2 i)⟩
      | finished answer =>
        change operation.Moves false _ answer (a.slots n)
        rw [slots_congr_occupant hsame]
        exact hinv
    | looks => exact ⟨hinv, hinv⟩
    | happens hbefore hmay =>
      have hsame : unchanged m := by
        cases progress with
        | waiting => exact hinv
        | looked seen => exact hinv.2
        | finished answer => exact absurd rfl (hbefore answer)
      rw [slots_congr_occupant hsame] at hmay
      exact .answers hmay
    | declines hseen _ hfound hne =>
      rw [hinv.1] at hseen
      rw [hinv.2, hseen] at hfound
      cases hfound
      exact absurd rfl hne
  obtain ⟨hsound, progress, hend, hinv⟩ := Follows.run h.isDecided hs (fun _ => rfl) hstep
  refine ⟨hsound, ?_⟩
  cases progress with
  | waiting =>
    rw [slots_congr_occupant hinv]
    exact hend s.memory
  | looked seen =>
    have hmoves : operation.Moves false (a.slots seen) _ (a.slots seen) := hend
    rw [slots_congr_occupant hinv.2]
    rwa [slots_congr_occupant hinv.1] at hmoves
  | finished answer =>
    rw [show _ = answer from hend]
    exact hinv

end SlotOperation

end Ways

end AtomicSlots
