import AtomicSlots.Proofs.Counting
import AtomicSlots.Proofs.OwnSlots
import AtomicSlots.Proofs.Progress

/-!
# Operations on different slots

Callers work side by side on one array, each on a list of operations, and no slot occurs in two of
the lists. The callbacks keep their hands off the array, and those of each caller have a state of
their own. Then every caller gets the answers that it would get alone, in whatever way the actions
of the callers interleave and whatever the other lists ask for, also where slots of different
callers lie in one segment: which caller brought that into being can be seen in nothing but the
trace. What the slots hold at the end, their number and the segments are the same in all orders.
-/
namespace AtomicSlots

variable {V K H α β : Type}

open Program SlotArray

/-! Callers side by side, each with a host state of its own. -/

namespace Session

/-- The session as one of the callers sees it. -/
def box (s : Session V (Unwatched (ℕ → K))) (k : ℕ) : Session V (Unwatched K) :=
  ⟨s.memory, ⟨s.host.state k⟩⟩

/-- The session after one of the callers has come from what it saw to another one. -/
def setBox (s : Session V (Unwatched (ℕ → K))) (k : ℕ) (t : Session V (Unwatched K)) :
    Session V (Unwatched (ℕ → K)) :=
  ⟨t.memory, ⟨Function.update s.host.state k t.host.state⟩⟩

end Session

namespace Action

/-- The action with the state of one caller for the host state. -/
def inBox (k : ℕ) : Action V (Unwatched K) → Action V (Unwatched (ℕ → K))
  | loadEntry e => loadEntry e
  | publish e => publish e
  | load cell => load cell
  | exchangeIf cell expected new => exchangeIf cell expected new
  | swap cell new => swap cell new
  | retire o => retire o
  | adjust change => adjust change
  | readSize => readSize
  | emit event => emit event
  | readHost => readHost
  | changeHost change =>
    changeHost fun host => ⟨Function.update host.state k (change ⟨host.state k⟩).state⟩

/-- What the caller gets of the answer. -/
def outOfBox (k : ℕ) : (act : Action V (Unwatched K)) → (act.inBox k).Result → act.Result
  | readHost, host => ⟨host.state k⟩
  | loadEntry _, r | publish _, r | load _, r | exchangeIf .., r | swap .., r | retire _, r
  | adjust _, r | readSize, r | emit _, r | changeHost _, r => r

/-- In its box an action does what it does on the session that the caller sees. -/
theorem perform_inBox (act : Action V (Unwatched K)) (k : ℕ)
    (s : Session V (Unwatched (ℕ → K))) :
    act.outOfBox k ((act.inBox k).perform s).1 = (act.perform (s.box k)).1 ∧
      ((act.inBox k).perform s).2 = s.setBox k (act.perform (s.box k)).2 := by
  obtain ⟨m, boxes⟩ := s
  have hsame : ∀ n : Memory V, (⟨n, boxes⟩ : Session V (Unwatched (ℕ → K))) =
      Session.setBox ⟨m, boxes⟩ k ⟨n, ⟨boxes.state k⟩⟩ := by
    intro n
    simp only [Session.setBox, Function.update_eq_self]
  cases act with
  | changeHost change => exact ⟨rfl, rfl⟩
  | loadEntry | publish | load | exchangeIf | swap | retire | adjust | readSize | emit
  | readHost => exact ⟨rfl, hsame _⟩

end Action

namespace Program

/-- The program with the state of one caller for the host state. -/
def inBox (k : ℕ) : Program V (Unwatched K) α → Program V (Unwatched (ℕ → K)) α
  | done x => done x
  | panic reason => panic reason
  | step act next => step (act.inBox k) fun r => (next (act.outOfBox k r)).inBox k

/-- Duties are the same in every box. -/
theorem Follows.inBox {a : SlotArray} {Q : Except Panic α → Duty V → Memory V → Prop}
    {p : Program V (Unwatched K) α} {duty : Duty V} {m : Memory V}
    (h : p.Follows a Duty.protocol Q duty m) (k : ℕ) :
    (p.inBox k).Follows a Duty.protocol Q duty m := by
  induction p generalizing duty m with
  | done x => exact h
  | panic reason => exact h
  | step act next ih =>
    intro s hl hs
    obtain ⟨hadmits, duty', hstep, hnext⟩ := h (s.box k) hl hs
    obtain ⟨hresult, hsession⟩ := act.perform_inBox k s
    have hadmits' : a.Admits s.memory (act.inBox k) := by cases act <;> exact hadmits
    refine ⟨hadmits', duty', ?_, ?_⟩
    · rw [hsession]
      cases act <;> cases duty <;> exact hstep
    · dsimp only
      rw [hresult, hsession]
      exact ih _ hnext

end Program

/-- Callbacks that keep their hands off the array have no duties. -/
theorem Program.HandsOff.dutiful [Journal H] {a : SlotArray} {p : Program V H α}
    (h : p.HandsOff) : p.Dutiful a := by
  have hidle : ∀ (act : Action V H) (n : Memory V), act.isOutside = true →
      Duty.protocol .free act n n .free := by
    intro act n hact
    cases act <;> first | exact Duty.protocol_free trivial rfl | cases hact
  exact fun m => (h.follows hidle).mono fun _ _ _ _ hend => hend.1

namespace SlotOperation

theorem HandsOff.dutiful [Journal H] {a : SlotArray} {operation : SlotOperation V H}
    (h : operation.HandsOff) : (operation.program a).Dutiful a := by
  change (operation.program a).ComesToRest a Duty.protocol .free
  rcases operation.kind a with ⟨make, reply, hp, -, -, -, hmake⟩ | ⟨v, reply, hp, -, -⟩ |
    ⟨reply, hp, -, -⟩ | ⟨reply, hp, -, -⟩ | ⟨i, accepts, rfl⟩ | ⟨i, factory, accepts, rfl⟩
  · rw [hp]
    exact .map (Dutiful.fill (hmake h).dutiful) reply
  · rw [hp]
    exact .map (Dutiful.swap _ v) reply
  · rw [hp]
    exact .map (Dutiful.take _) reply
  · rw [hp]
    exact .map (.get? Duty.reads_free _) reply
  · exact .map (Dutiful.eraseIf fun v => (h v).dutiful) _
  · exact .map (Dutiful.update (fun v => (h.1 v).dutiful) fun v => (h.2 v).dutiful) _

/-- What comes out of operations on a list of contents: the answers with the latest first, the list
and the host state. -/
structure Outcome (V H : Type) where
  answers : List (Except Panic (Reply V))
  contents : List (Option V)
  host : H

/-- Performs operations on a list of contents one after another, behind earlier answers. -/
def steps [Journal H] : List (SlotOperation V H) → List (Except Panic (Reply V)) →
    List (Option V) → H → Outcome V H
  | [], answers, contents, host => ⟨answers, contents, host⟩
  | operation :: rest, answers, contents, host =>
    match operation.step contents host with
    | (answer, contents, host) => steps rest (answer :: answers) contents host

/-- Lists of operations for callers side by side: no slot occurs in two of the lists, and all
callbacks keep their hands off the array. -/
structure Separate (lists : List (List (SlotOperation V H))) : Prop where
  pairwise : lists.Pairwise fun list others =>
    ∀ operation ∈ list, ∀ other ∈ others, operation.index ≠ other.index
  handsOff : ∀ list ∈ lists, ∀ operation ∈ list, operation.HandsOff

theorem Separate.index_ne {lists : List (List (SlotOperation V H))} (h : Separate lists) {j k : ℕ}
    {list others : List (SlotOperation V H)} (hj : lists[j]? = some list)
    (hk : lists[k]? = some others) (hjk : j ≠ k) {operation other : SlotOperation V H}
    (hmem : operation ∈ list) (hother : other ∈ others) : operation.index ≠ other.index := by
  obtain ⟨hlj, rfl⟩ := List.getElem?_eq_some_iff.mp hj
  obtain ⟨hlk, rfl⟩ := List.getElem?_eq_some_iff.mp hk
  have hpairs := List.pairwise_iff_getElem.mp h.pairwise
  rcases Nat.lt_or_gt_of_ne hjk with hlt | hlt
  · exact hpairs j k hlj hlk hlt operation hmem other hother
  · exact (hpairs k j hlk hlj hlt other hother operation hmem).symm

/-- What the operations of a list work on. -/
def share (a : SlotArray) (list : List (SlotOperation V H)) : Share where
  slots i := ∃ operation ∈ list, operation.index = i
  entries e := ∃ operation ∈ list, operation.CallsFor a e

theorem covers_share (a : SlotArray) {list : List (SlotOperation V H)}
    {operation : SlotOperation V H} (h : operation ∈ list) : (share a list).Covers a operation :=
  ⟨⟨operation, h, rfl⟩, fun _ he => ⟨operation, h, he⟩⟩

end SlotOperation

/-! One of the callers. What comes out at its end is known from the start. -/

section Caller

variable {a : SlotArray} {list rest : List (SlotOperation V (Unwatched K))}
  {outcome : SlotOperation.Outcome V (Unwatched K)}
  {answers : List (Except Panic (Reply V))} {host : Unwatched K} {m n : Memory V} {k : ℕ}

open SlotOperation

/-- Between two operations: the rest of the list leads to the outcome, the slots show what the
earlier operations have made of the list of contents, and their segments are there. -/
def SlotArray.Rests (a : SlotArray) (list : List (SlotOperation V (Unwatched K)))
    (outcome : Outcome V (Unwatched K)) (rest : List (SlotOperation V (Unwatched K)))
    (answers : List (Except Panic (Reply V))) (host : Unwatched K) (m : Memory V) : Prop :=
  ∃ contents, steps rest answers contents host = outcome ∧
    a.Shows (share a list).slots contents m ∧
    ∀ operation ∈ list, operation ∈ rest ∨
      ∀ e, operation.CallsFor a e → (m.segmentAt e).isSome = true

namespace SlotArray.Rests

theorem leaves (h : a.Rests list outcome rest answers host m)
    (hl : a.Leaves (share a list).slots m n) : a.Rests list outcome rest answers host n := by
  obtain ⟨contents, hsteps, hshows, hcalled⟩ := h
  refine ⟨contents, hsteps, hshows.leaves hl, fun operation hmem => ?_⟩
  exact (hcalled operation hmem).imp_right fun he e hcalls =>
    hl.later.isSome_segmentAt (he e hcalls)

/-- The next operation of the list comes to the next rest. -/
theorem tends {operation : SlotOperation V (Unwatched K)}
    (h : a.Rests list outcome (operation :: rest) answers host m) (hmem : operation ∈ list)
    (hoff : operation.HandsOff) :
    (operation.program a).Tends a (share a list) (fun answer host n =>
      a.Rests list outcome rest (answer :: answers) host n) host m := by
  obtain ⟨contents, hsteps, hshows, hcalled⟩ := h
  refine (hoff.tends (covers_share a hmem) hshows).mono ?_
  rintro answer after n hl ⟨new, hstep, hshows, hown⟩
  refine ⟨new, ?_, hshows, fun other hother => ?_⟩
  · rw [steps, hstep] at hsteps
    exact hsteps
  · rcases hcalled other hother with hin | he
    · rcases List.mem_cons.mp hin with rfl | hin
      · exact .inr hown
      · exact .inl hin
    · exact .inr fun e hcalls => hl.isSome_segmentAt (he e hcalls)

/-! With nothing left to do, everything is as the outcome says. -/

theorem answers_eq (h : a.Rests list outcome [] answers host m) : outcome.answers = answers := by
  obtain ⟨contents, rfl, -⟩ := h
  rfl

theorem host_eq (h : a.Rests list outcome [] answers host m) : outcome.host = host := by
  obtain ⟨contents, rfl, -⟩ := h
  rfl

theorem shows (h : a.Rests list outcome [] answers host m) :
    a.Shows (share a list).slots outcome.contents m := by
  obtain ⟨contents, rfl, hshows, -⟩ := h
  exact hshows

theorem isSome_segmentAt (h : a.Rests list outcome [] answers host m) {e : UInt64}
    (he : (share a list).entries e) : (m.segmentAt e).isSome = true := by
  obtain ⟨-, -, -, hcalled⟩ := h
  obtain ⟨operation, hmem, hcalls⟩ := he
  rcases hcalled operation hmem with hin | hthere
  · cases hin
  · exact hthere e hcalls

end SlotArray.Rests

/-- A thread that works on a list as one of the callers: it is at rest, or an operation of it is
under way and will end with the answer that leads to the outcome. -/
def Thread.Plays (a : SlotArray) (list : List (SlotOperation V (Unwatched K))) (k : ℕ)
    (outcome : Outcome V (Unwatched K)) :
    Thread V (Unwatched (ℕ → K)) (Reply V) → Session V (Unwatched (ℕ → K)) → Prop
  | ⟨[], answers⟩, s => a.Rests list outcome [] answers (s.box k).host s.memory
  | ⟨current :: later, answers⟩, s => ∃ (p : Program V (Unwatched K) (Reply V))
      (rest : List (SlotOperation V (Unwatched K))), current = p.inBox k ∧
      later = rest.map (fun operation => (operation.program a).inBox k) ∧ rest ⊆ list ∧
      p.Tends a (share a list) (fun answer host n =>
        a.Rests list outcome rest (answer :: answers) host n) (s.box k).host s.memory

namespace Thread

variable {thread : Thread V (Unwatched (ℕ → K)) (Reply V)} {s t : Session V (Unwatched (ℕ → K))}

theorem Plays.leaves (h : thread.Plays a list k outcome s)
    (hl : a.Leaves (share a list).slots s.memory t.memory)
    (hbox : (t.box k).host = (s.box k).host) :
    thread.Plays a list k outcome t := by
  obtain ⟨todo, answers⟩ := thread
  cases todo with
  | nil =>
    rw [Plays, hbox]
    exact SlotArray.Rests.leaves h hl
  | cons current later =>
    obtain ⟨p, rest, hcurrent, hlater, hsub, hp⟩ := h
    refine ⟨p, rest, hcurrent, hlater, hsub, ?_⟩
    rw [hbox]
    exact hp.leaves hl fun answer hrests => hrests.leaves hl

theorem plays_of_rests (hoff : ∀ operation ∈ list, operation.HandsOff) (hsub : rest ⊆ list)
    (h : a.Rests list outcome rest answers (s.box k).host s.memory) :
    Thread.Plays a list k outcome
      ⟨rest.map fun operation => (operation.program a).inBox k, answers⟩ s := by
  cases rest with
  | nil => exact h
  | cons operation rest =>
    obtain ⟨hmem, hsub⟩ := List.cons_subset.mp hsub
    exact ⟨_, rest, rfl, rfl, hsub, h.tends hmem (hoff operation hmem)⟩

/-- A turn of one of the callers stays within the share of that caller. -/
theorem Plays.step (h : thread.Plays a list k outcome s) (hs : a.Sound s.memory)
    (hoff : ∀ operation ∈ list, operation.HandsOff) :
    (thread.step s).1.Plays a list k outcome (thread.step s).2 ∧
      a.StaysWithin (share a list) s.memory (thread.step s).2.memory ∧
      ∀ j, j ≠ k → ((thread.step s).2.box j).host = (s.box j).host := by
  obtain ⟨todo, answers⟩ := thread
  cases todo with
  | nil => exact ⟨h, .refl hs, fun _ _ => rfl⟩
  | cons current later =>
    obtain ⟨p, rest, rfl, rfl, hsub, hp⟩ := h
    cases p with
    | done x => exact ⟨plays_of_rests hoff hsub hp, .refl hs, fun _ _ => rfl⟩
    | panic reason => exact ⟨plays_of_rests hoff hsub hp, .refl hs, fun _ _ => rfl⟩
    | step act next =>
      obtain ⟨hstays, hnext⟩ := hp s.memory (.refl hs)
      obtain ⟨hresult, hsession⟩ := act.perform_inBox k s
      change Thread.Plays a list k outcome
          ⟨(next (act.outOfBox k ((act.inBox k).perform s).1)).inBox k :: _, answers⟩
          ((act.inBox k).perform s).2 ∧
        a.StaysWithin (share a list) s.memory ((act.inBox k).perform s).2.memory ∧
        ∀ j, j ≠ k → (((act.inBox k).perform s).2.box j).host = (s.box j).host
      rw [hresult, hsession]
      refine ⟨⟨_, rest, rfl, rfl, hsub, ?_⟩, hstays, fun j hj => ?_⟩
      · have hbox : ((s.setBox k (act.perform (s.box k)).2).box k).host =
            (act.perform (s.box k)).2.host := by
          simp [Session.setBox, Session.box]
        rw [hbox]
        exact hnext
      · simp [Session.setBox, Session.box, hj]

end Thread

end Caller

/-! All callers together. -/

namespace Pool

section Orders

variable [Journal H]

/-- Lets one thread perform the whole of its next operation. -/
def perform (pool : Pool V H α) (k : ℕ) : Pool V H α :=
  match pool.threads[k]? with
  | some ⟨p :: rest, answers⟩ =>
    match p.run pool.session with
    | (answer, s) => ⟨s, pool.threads.set k ⟨rest, answer :: answers⟩⟩
  | _ => pool

/-- Lets threads perform one whole operation after another. -/
def performAll (pool : Pool V H α) (order : List ℕ) : Pool V H α := order.foldl perform pool

theorem exists_run_eq_perform (pool : Pool V H α) (k : ℕ) :
    ∃ schedule, pool.perform k = pool.run schedule := by
  cases hk : pool.threads[k]? with
  | none => exact ⟨[], by simp [perform, hk]⟩
  | some thread =>
    obtain ⟨todo, answers⟩ := thread
    cases todo with
    | nil => exact ⟨[], by simp [perform, hk]⟩
    | cons p rest =>
      obtain ⟨n, hn⟩ := Thread.exists_iterate_run p rest answers pool.session
      refine ⟨.replicate n k, ?_⟩
      rw [run_replicate hk, hn]
      simp only [perform, hk]

/-- Whole operations one after another are one of the ways in which actions interleave. -/
theorem exists_run_eq_performAll (pool : Pool V H α) (order : List ℕ) :
    ∃ schedule, pool.performAll order = pool.run schedule := by
  induction order generalizing pool with
  | nil => exact ⟨[], rfl⟩
  | cons k rest ih =>
    obtain ⟨first, hfirst⟩ := pool.exists_run_eq_perform k
    obtain ⟨second, hsecond⟩ := ih (pool.perform k)
    refine ⟨first ++ second, ?_⟩
    rw [run_append, ← hfirst, ← hsecond]
    rfl

/-- What threads come to, be it that their actions interleave in any way, or that they perform one
whole operation after another. -/
def Reaches (start now : Pool V H α) : Prop :=
  (∃ schedule, now = start.run schedule) ∨ ∃ order, now = start.performAll order

theorem Reaches.exists_schedule {start now : Pool V H α} (h : start.Reaches now) :
    ∃ schedule, now = start.run schedule := by
  rcases h with hschedule | ⟨order, rfl⟩
  · exact hschedule
  · exact start.exists_run_eq_performAll order

end Orders

/-- In an idle pool a thread is nothing but its answers. -/
theorem getElem?_threads_of_isIdle {pool : Pool V H α} (h : pool.isIdle = true) {k : ℕ}
    {answers : List (Except Panic α)}
    (hk : (pool.threads.map Thread.answers)[k]? = some answers) :
    pool.threads[k]? = some ⟨[], answers⟩ := by
  rw [List.getElem?_map, Option.map_eq_some_iff] at hk
  obtain ⟨⟨todo, answers⟩, hthread, rfl⟩ := hk
  obtain rfl : todo = [] := by
    simpa using List.all_eq_true.mp h _ (List.mem_of_getElem? hthread)
  exact hthread

/-- Callers side by side on an array, in front of their lists of operations. -/
def sideBySide (a : SlotArray) (m : Memory V) (states : ℕ → K)
    (lists : List (List (SlotOperation V (Unwatched K)))) :
    Pool V (Unwatched (ℕ → K)) (Reply V) :=
  ⟨⟨m, ⟨states⟩⟩, (lists.mapIdx fun k list =>
    list.map fun operation => (operation.program a).inBox k).map .ofPrograms⟩

section Callers

open SlotOperation

variable {a : SlotArray} {m : Memory V} {states : ℕ → K}
  {lists : List (List (SlotOperation V (Unwatched K)))}
  {pool : Pool V (Unwatched (ℕ → K)) (Reply V)}

/-- Every caller is on the way to the outcome of its list alone, on the contents that the slots had
at first. What belongs to nobody is as it was. -/
structure Plays (a : SlotArray) (m : Memory V) (states : ℕ → K)
    (lists : List (List (SlotOperation V (Unwatched K))))
    (pool : Pool V (Unwatched (ℕ → K)) (Reply V)) : Prop where
  leaves : a.Leaves (fun i => ∀ list ∈ lists, ¬ (share a list).slots i) m pool.session.memory
  allocates : ∀ e, (pool.session.memory.segmentAt e).isSome = true →
    (m.segmentAt e).isSome = true ∨ ∃ list ∈ lists, (share a list).entries e
  length_eq : pool.threads.length = lists.length
  threads : ∀ (k : ℕ) thread, pool.threads[k]? = some thread → ∃ list, lists[k]? = some list ∧
    thread.Plays a list k (steps list [] (a.slots m) ⟨states k⟩) pool.session
  outside : ∀ k, lists.length ≤ k → (pool.session.box k).host = ⟨states k⟩

namespace Plays

theorem start (hs : a.Sound m) (hlists : Separate lists) (states : ℕ → K) :
    (sideBySide a m states lists).Plays a m states lists where
  leaves := .refl hs
  allocates _ he := .inl he
  length_eq := by simp [sideBySide]
  threads k thread hk := by
    simp only [sideBySide, List.getElem?_map, List.getElem?_mapIdx, Option.map_map,
      Option.map_eq_some_iff] at hk
    obtain ⟨list, hlist, rfl⟩ := hk
    refine ⟨list, hlist, ?_⟩
    have hoff := hlists.handsOff list (List.mem_of_getElem? hlist)
    refine Thread.plays_of_rests hoff (List.Subset.refl _) ?_
    exact ⟨a.slots m, rfl, fun _ _ => rfl, fun operation hmem => .inl hmem⟩
  outside _ _ := rfl

/-- A turn of one of the callers is no concern of the others. -/
theorem step (h : pool.Plays a m states lists) (hlists : Separate lists) (k : ℕ) :
    (pool.step k).Plays a m states lists := by
  cases hk : pool.threads[k]? with
  | none =>
    have hstep : pool.step k = pool := by simp [Pool.step, hk]
    rwa [hstep]
  | some thread =>
    obtain ⟨list, hlist, hplays⟩ := h.threads k thread hk
    have hmem := List.mem_of_getElem? hlist
    obtain ⟨hnext, hstays, hboxes⟩ := hplays.step h.leaves.sound (hlists.handsOff list hmem)
    have hlt := (List.getElem?_eq_some_iff.mp hk).1
    rw [step_of_thread hk]
    refine ⟨?_, fun e he => ?_, by simpa using h.length_eq, fun j other hj => ?_, fun j hj => ?_⟩
    · exact h.leaves.trans (hstays.toLeaves.anti fun i hi => hi list hmem)
    · rcases hstays.allocates e he with hold | hown
      · exact h.allocates e hold
      · exact .inr ⟨list, hmem, hown⟩
    · by_cases hjk : k = j
      · subst hjk
        rw [List.getElem?_set_self hlt] at hj
        cases hj
        exact ⟨list, hlist, hnext⟩
      · rw [List.getElem?_set_ne hjk] at hj
        obtain ⟨otherList, hotherList, hotherPlays⟩ := h.threads j other hj
        refine ⟨otherList, hotherList, hotherPlays.leaves ?_ (hboxes j (Ne.symm hjk))⟩
        -- the slot of this turn is none of the other caller's
        refine hstays.toLeaves.anti ?_
        rintro i ⟨operation, hin, rfl⟩ ⟨mine, hmine, heq⟩
        exact hlists.index_ne hlist hotherList hjk hmine hin heq
    · rw [hboxes j (by rw [h.length_eq] at hlt; omega)]
      exact h.outside j hj

theorem run (h : pool.Plays a m states lists) (hlists : Separate lists) (schedule : List ℕ) :
    (pool.run schedule).Plays a m states lists :=
  run_induction (fun _ k hpool => hpool.step hlists k) h schedule

/-- A caller that has finished has come to the outcome of its list alone. -/
theorem rests (h : pool.Plays a m states lists) {k : ℕ} {answers : List (Except Panic (Reply V))}
    (hk : pool.threads[k]? = some ⟨[], answers⟩) : ∃ list, lists[k]? = some list ∧
      a.Rests list (steps list [] (a.slots m) ⟨states k⟩) [] answers
        (pool.session.box k).host pool.session.memory :=
  h.threads k _ hk

/-- When all callers have finished, each one has come to the outcome of its list alone. -/
theorem ends (h : pool.Plays a m states lists) (hidle : pool.isIdle = true) {k : ℕ}
    {list : List (SlotOperation V (Unwatched K))} (hlist : lists[k]? = some list) :
    ∃ answers, pool.threads[k]? = some ⟨[], answers⟩ ∧
      a.Rests list (steps list [] (a.slots m) ⟨states k⟩) [] answers
        (pool.session.box k).host pool.session.memory := by
  have hlt : k < (pool.threads.map Thread.answers).length := by
    rw [List.length_map, h.length_eq]
    exact (List.getElem?_eq_some_iff.mp hlist).1
  have hk := getElem?_threads_of_isIdle hidle (List.getElem?_eq_getElem hlt)
  obtain ⟨other, hother, hrests⟩ := h.rests hk
  obtain rfl := Option.some.inj (hlist.symm.trans hother)
  exact ⟨_, hk, hrests⟩

end Plays

/-- Two pools that have finished with the same answers for each thread and the same host state, and
with the same contents of all slots, the same size and the same allocated entries of the table. -/
structure EndsAlike (a : SlotArray) (first second : Pool V H α) : Prop where
  answers_eq : first.threads.map Thread.answers = second.threads.map Thread.answers
  host_eq : first.session.host = second.session.host
  slots_eq : a.slots first.session.memory = a.slots second.session.memory
  size_eq : first.session.memory.size = second.session.memory.size
  segments_iff : ∀ e, (first.session.memory.segmentAt e).isSome = true ↔
    (second.session.memory.segmentAt e).isSome = true

namespace Plays

variable {first second : Pool V (Unwatched (ℕ → K)) (Reply V)}

theorem answers_eq (h : first.Plays a m states lists) (hidle : first.isIdle = true)
    (h' : second.Plays a m states lists) (hidle' : second.isIdle = true) :
    first.threads.map Thread.answers = second.threads.map Thread.answers := by
  apply List.ext_getElem?
  intro k
  rw [List.getElem?_map, List.getElem?_map]
  cases hlist : lists[k]? with
  | none =>
    have hle := List.getElem?_eq_none_iff.mp hlist
    rw [List.getElem?_eq_none (h.length_eq.trans_le hle),
      List.getElem?_eq_none (h'.length_eq.trans_le hle)]
  | some list =>
    obtain ⟨_, hk, hrests⟩ := h.ends hidle hlist
    obtain ⟨_, hk', hrests'⟩ := h'.ends hidle' hlist
    rw [hk, hk', Option.map_some, Option.map_some, ← hrests.answers_eq, ← hrests'.answers_eq]

theorem host_eq (h : first.Plays a m states lists) (hidle : first.isIdle = true)
    (h' : second.Plays a m states lists) (hidle' : second.isIdle = true) :
    first.session.host = second.session.host := by
  suffices hboxes : ∀ k, (first.session.box k).host = (second.session.box k).host from
    congrArg Unwatched.mk (funext fun k => congrArg Unwatched.state (hboxes k))
  intro k
  cases hlist : lists[k]? with
  | none =>
    have hle := List.getElem?_eq_none_iff.mp hlist
    rw [h.outside k hle, h'.outside k hle]
  | some list =>
    obtain ⟨_, -, hrests⟩ := h.ends hidle hlist
    obtain ⟨_, -, hrests'⟩ := h'.ends hidle' hlist
    rw [← hrests.host_eq, ← hrests'.host_eq]

/-- A slot holds what its own caller has left there, or what it held at first. -/
theorem slots_eq (h : first.Plays a m states lists) (hidle : first.isIdle = true)
    (h' : second.Plays a m states lists) (hidle' : second.isIdle = true) :
    a.slots first.session.memory = a.slots second.session.memory := by
  apply slots_congr
  intro i
  by_cases hi : i < a.capacity
  · by_cases hown : ∃ list ∈ lists, (share a list).slots i
    · obtain ⟨list, hmem, hslot⟩ := hown
      obtain ⟨k, hlist⟩ := List.mem_iff_getElem?.mp hmem
      obtain ⟨_, -, hrests⟩ := h.ends hidle hlist
      obtain ⟨_, -, hrests'⟩ := h'.ends hidle' hlist
      have hget := hrests.shows.getElem?_eq hslot hi
      rw [hrests'.shows.getElem?_eq hslot hi] at hget
      exact (Option.some.inj hget).symm
    · have hnobody : ∀ list ∈ lists, ¬ (share a list).slots i :=
        fun list hmem hslot => hown ⟨list, hmem, hslot⟩
      rw [h.leaves.value?_eq hnobody, h'.leaves.value?_eq hnobody]
  · have hle := UInt64.not_lt.mp hi
    rw [value?_of_le _ hle, value?_of_le _ hle]

/-- The segments are those that were there and those for which some operation calls. -/
theorem isSome_segmentAt_iff (h : pool.Plays a m states lists) (hidle : pool.isIdle = true)
    (e : UInt64) : (pool.session.memory.segmentAt e).isSome = true ↔
      (m.segmentAt e).isSome = true ∨ ∃ list ∈ lists, (share a list).entries e := by
  refine ⟨h.allocates e, ?_⟩
  rintro (hold | ⟨list, hmem, hcalled⟩)
  · exact h.leaves.later.isSome_segmentAt hold
  · obtain ⟨k, hlist⟩ := List.mem_iff_getElem?.mp hmem
    obtain ⟨_, -, hrests⟩ := h.ends hidle hlist
    exact hrests.isSome_segmentAt hcalled

end Plays

/-- Callers side by side keep to their duties. -/
theorem count_sideBySide (hs : a.Sound m) (hcount : m.count = a.occupied m)
    (hlists : Separate lists) {schedule : List ℕ}
    (hidle : ((sideBySide a m states lists).run schedule).isIdle = true) :
    ((sideBySide a m states lists).run schedule).session.memory.count =
      a.occupied ((sideBySide a m states lists).run schedule).session.memory := by
  refine Balanced.count_eq_of_isIdle ((Balanced.of_dutiful hs hcount ?_).run schedule) hidle
  intro programs hprograms p hp
  obtain ⟨k, hk, rfl⟩ := List.mem_mapIdx.mp hprograms
  obtain ⟨operation, hmem, rfl⟩ := List.mem_map.mp hp
  exact fun n => ((hlists.handsOff _ (List.getElem_mem hk) operation hmem).dutiful n).inBox k

end Callers

end Pool

/-- The memories that any clients leave on a fresh array when all of them have finished. -/
def SlotArray.Reached (a : SlotArray) (m : Memory V) : Prop :=
  ∃ (H α : Type) (_ : Journal H) (host : H) (programs : List (List (Program V H α)))
    (schedule : List ℕ), (∀ list ∈ programs, ∀ p ∈ list, a.Client p) ∧
    ((Pool.fresh a host programs).run schedule).isIdle = true ∧
    ((Pool.fresh a host programs).run schedule).session.memory = m

/-- In such a memory the count is exact. -/
theorem SlotArray.Reached.counted {a : SlotArray} {m : Memory V} (h : a.Reached m) :
    a.Sound m ∧ m.count = a.occupied m := by
  obtain ⟨H, α, _, host, programs, schedule, hclients, hidle, rfl⟩ := h
  have hbalanced := (Pool.Balanced.fresh host hclients).run schedule
  exact ⟨hbalanced.sound, hbalanced.count_eq_of_isIdle hidle⟩

namespace SlotArray

open Pool

/-- From every memory that clients can leave, callers that work on different slots end alike,
however their actions interleave, and so in all orders of whole operations: with the same answers
and panics, the same states of their callbacks, the same contents of all slots, the same size and
the same segments. A caller that has finished its list has the same answers whatever the lists of
the others are and however far the others have come. -/
theorem disjoint_operations_commute (a : SlotArray) {m : Memory V} (hm : a.Reached m)
    {lists : List (List (SlotOperation V (Unwatched K)))} (h : SlotOperation.Separate lists)
    (states : ℕ → K) :
    let start := sideBySide a m states lists
    (∀ first second, start.Reaches first → start.Reaches second →
        first.isIdle = true → second.isIdle = true → EndsAlike a first second) ∧
      ∀ (others : List (List (SlotOperation V (Unwatched K)))) (otherStates : ℕ → K) (k : ℕ),
        SlotOperation.Separate others → others[k]? = lists[k]? → otherStates k = states k →
          ∀ now other answers otherAnswers, start.Reaches now →
            (sideBySide a m otherStates others).Reaches other →
              now.threads[k]? = some ⟨[], answers⟩ →
                other.threads[k]? = some ⟨[], otherAnswers⟩ → answers = otherAnswers := by
  obtain ⟨hs, hcount⟩ := hm.counted
  refine ⟨?_, ?_⟩
  · intro first second hfirst hsecond hidle hidle'
    obtain ⟨schedule, rfl⟩ := hfirst.exists_schedule
    obtain ⟨schedule', rfl⟩ := hsecond.exists_schedule
    have hplays := (Plays.start hs h states).run h schedule
    have hplays' := (Plays.start hs h states).run h schedule'
    have hslots := hplays.slots_eq hidle hplays' hidle'
    refine ⟨hplays.answers_eq hidle hplays' hidle', hplays.host_eq hidle hplays' hidle', hslots,
      ?_, fun e => ?_⟩
    · rw [Memory.size, Memory.size, count_sideBySide hs hcount h hidle,
        count_sideBySide hs hcount h hidle', occupied, occupied, hslots]
    · rw [hplays.isSome_segmentAt_iff hidle, hplays'.isSome_segmentAt_iff hidle']
  · intro others otherStates k hothers hlist hstate now other answers otherAnswers hnow hother
      hk hk'
    obtain ⟨schedule, rfl⟩ := hnow.exists_schedule
    obtain ⟨schedule', rfl⟩ := hother.exists_schedule
    obtain ⟨list, hmine, hrests⟩ := ((Plays.start hs h states).run h schedule).rests hk
    obtain ⟨list', hmine', hrests'⟩ :=
      ((Plays.start hs hothers otherStates).run hothers schedule').rests hk'
    rw [hlist, hmine] at hmine'
    cases hmine'
    rw [← hrests.answers_eq, ← hrests'.answers_eq, hstate]

/-- Two callers on neighbouring slots. Both have callbacks that count their calls. -/
def neighbours : List (List (SlotOperation ℕ (Unwatched ℕ))) :=
  let count : Program ℕ (Unwatched ℕ) Unit := .changeHost fun host => ⟨host.state + 1⟩
  [[.getOrFill 33 (count >>= fun _ => .done 5), .take 33],
    [.insert 34 7, .update 34 (fun v => count >>= fun _ => .done (v + 1)) fun _ => .done true]]

/-- Side by side, both callers make a segment for their slots and one of the segments is lost; one
after the other, only one of them makes any. The first caller has the answers that it has alone. -/
theorem disjoint_operations_commute_of_neighbours :
    let a : SlotArray := ⟨40⟩
    let start := sideBySide a a.freshMemory (fun _ => 0) neighbours
    let first := start.run (.flatten (.replicate 16 [0, 1]))
    let second := start.performAll [1, 0, 1, 0]
    let alone := (sideBySide a a.freshMemory (fun _ => 0) (neighbours.take 1)).performAll [0, 0]
    (EndsAlike a first second ∧ first.threads[0]? = alone.threads[0]?) ∧
      a.value? first.session.memory 33 = none ∧ a.value? first.session.memory 34 = some 8 ∧
      first.session.memory.segments.size = 2 ∧ second.session.memory.segments.size = 1 := by
  intro a start first second alone
  have hreached : a.Reached (a.freshMemory : Memory ℕ) :=
    ⟨Unit, Unit, inferInstance, (), [], [], by simp, rfl, rfl⟩
  have hseparate : SlotOperation.Separate neighbours := by
    refine ⟨by simp [neighbours, SlotOperation.index], ?_⟩
    simp only [neighbours, SlotOperation.HandsOff, List.forall_mem_cons, List.not_mem_nil]
    exact ⟨⟨⟨rfl, fun _ => trivial⟩, trivial, fun _ h => h.elim⟩,
      ⟨trivial, ⟨fun _ => ⟨rfl, fun _ => trivial⟩, fun _ => trivial⟩, fun _ h => h.elim⟩,
      fun _ h => h.elim⟩
  have halone : SlotOperation.Separate (neighbours.take 1) :=
    ⟨by simp [neighbours], fun list hlist => hseparate.handsOff list (List.mem_of_mem_take hlist)⟩
  have hidle : first.isIdle = true := by decide +kernel
  have hidle' : alone.isIdle = true := by decide +kernel
  obtain ⟨hsame, hown⟩ := disjoint_operations_commute a hreached hseparate fun _ => 0
  refine ⟨⟨?_, ?_⟩, by decide +kernel, by decide +kernel, by decide +kernel, by decide +kernel⟩
  · exact hsame first second (.inl ⟨_, rfl⟩) (.inr ⟨_, rfl⟩) hidle (by decide +kernel)
  · have hlt : 0 < (first.threads.map Thread.answers).length := by decide +kernel
    have hlt' : 0 < (alone.threads.map Thread.answers).length := by decide +kernel
    have hk := getElem?_threads_of_isIdle hidle (List.getElem?_eq_getElem hlt)
    have hk' := getElem?_threads_of_isIdle hidle' (List.getElem?_eq_getElem hlt')
    rw [hk, hk', hown _ (fun _ => 0) 0 halone rfl rfl first alone _ _ (.inl ⟨_, rfl⟩)
      (.inr ⟨_, rfl⟩) hk hk']

end SlotArray

end AtomicSlots
