import AtomicSlots.Proofs.Counting
import AtomicSlots.Proofs.OwnTurns

/-!
# Who publishes a segment

Only an access for filling brings a segment into being. It looks at the entry of its slot, and if it
finds that empty it publishes a segment there, or takes the one that another thread has published in
between; whoever has published announces it. All code outside of this leaves the table alone. So at
each moment of a run of any number of threads, the segments are those of the slots that were called
for, except where a thread has found an entry empty and is about to publish; and there is one
announcement for each segment, made or about to be made.
-/
namespace AtomicSlots

variable {V H α β : Type}

open Program SlotArray

/-- What an action means to the table of segments. -/
inductive Intent where
  | ordinary
  | publish (entry : UInt64)
  | announce (entry : UInt64)
deriving DecidableEq

def Action.intent : Action V H → Intent
  | .publish e => .publish e
  | .emit (.allocated e) => .announce e
  | _ => .ordinary

theorem Action.eq_publish_of_intent {act : Action V H} {e : UInt64}
    (h : act.intent = .publish e) : act = .publish e := by
  cases act with
  | publish d => cases h; rfl
  | emit event => cases event <;> cases h
  | loadEntry | load | exchangeIf | swap | retire | adjust | readSize | readHost | changeHost =>
    cases h

/-- What the next action of a program means to the table. -/
def Program.intent : Program V H α → Intent
  | .step act _ => act.intent
  | .done _ | .panic _ => .ordinary

def Thread.intent : Thread V H α → Intent
  | ⟨p :: _, _⟩ => p.intent
  | ⟨[], _⟩ => .ordinary

/-- What a thread is about to do to the table. -/
def Pool.intent (pool : Pool V H α) (k : ℕ) : Intent :=
  pool.threads[k]?.elim .ordinary Thread.intent

/-- What follows when an entry was found empty. -/
def publishOrTake (entry : UInt64) : Program V H ℕ :=
  .step (.publish entry) fun publication =>
    match publication.found with
    | none => .step (.emit (.allocated entry)) fun _ => .done publication.fresh
    | some segment => .step (.emit (.lostAllocation entry)) fun _ => .done segment

theorem segmentOrFresh_eq (e : UInt64) : (segmentOrFresh e : Program V H ℕ) =
    .step (.loadEntry e) fun found => match found with
      | some segment => .done segment
      | none => publishOrTake e := by
  refine congrArg (Program.step _) (funext fun found => ?_)
  cases found with
  | some segment => rfl
  | none =>
    refine congrArg (Program.step _) (funext fun publication => ?_)
    obtain ⟨fresh, found⟩ := publication
    cases found <;> rfl

namespace Program

/-- The program goes on with an access to that slot. -/
def Accesses (a : SlotArray) (purpose : Access) (i : UInt64) (p : Program V H α) : Prop :=
  ∃ (β : Type) (use : Cell → Program V H β) (f : Option β → Program V H α),
    p = a.access purpose i use >>= f

/-- The program goes on with an access for filling that slot. -/
abbrev Calls (a : SlotArray) (i : UInt64) (p : Program V H α) : Prop := p.Accesses a .fill i

/-- Programs in which segments are published by accesses for filling only. -/
inductive Orderly (a : SlotArray) : Program V H α → Prop
  | done (x : α) : Orderly a (.done x)
  | panic (reason : Panic) : Orderly a (.panic reason)
  | step {act : Action V H} {next : act.Result → Program V H α} (hact : act.intent = .ordinary)
      (hnext : ∀ r, Orderly a (next r)) : Orderly a (.step act next)
  | access {i : UInt64} {β : Type} {use : Cell → Program V H β} {f : Option β → Program V H α}
      (hi : i < a.capacity) (huse : ∀ cell, Orderly a (use cell >>= fun x => f (some x))) :
      Orderly a (a.access .fill i use >>= f)

/-- To catch the panics of a sequence is to catch those of its parts. -/
theorem caught_bind (p : Program V H α) (f : α → Program V H β) :
    (p >>= f).caught = p.caught >>= fun r => match r with
      | .ok x => (f x).caught
      | .error reason => .done (.error reason) := by
  induction p with
  | done x => rfl
  | panic reason => rfl
  | step act next ih => exact congrArg (Program.step act) (funext ih)

theorem caught_segmentOrFresh_bind (e : UInt64) (f : ℕ → Program V H α) :
    (segmentOrFresh e >>= f).caught = segmentOrFresh e >>= fun segment => (f segment).caught := by
  rw [segmentOrFresh_eq]
  refine congrArg (Program.step _) (funext fun found => ?_)
  cases found with
  | some segment => rfl
  | none =>
    refine congrArg (Program.step _) (funext fun publication => ?_)
    obtain ⟨fresh, found⟩ := publication
    cases found <;> rfl

namespace Orderly

variable {a : SlotArray} {p : Program V H α}

theorem bind {f : α → Program V H β} (hp : p.Orderly a) (hf : ∀ x, (f x).Orderly a) :
    (p >>= f).Orderly a := by
  induction hp with
  | done x => exact hf x
  | panic reason => exact .panic reason
  | step hact _ ih => exact .step hact ih
  | access hi _ ih =>
    rw [bind_assoc]
    refine .access hi fun cell => ?_
    have hcell := ih cell
    rwa [bind_assoc] at hcell

theorem map (hp : p.Orderly a) (f : α → β) : (f <$> p).Orderly a := hp.bind fun x => .done (f x)

/-- Catching a panic of the program that gets the cell is left to that program. -/
theorem caught (hp : p.Orderly a) : p.caught.Orderly a := by
  induction hp with
  | done x => exact .done _
  | panic reason => exact .done _
  | step hact _ ih => exact .step hact ih
  | @access i _ use f hi _ ih =>
    have hcaught : (a.access .fill i use >>= f).caught =
        a.access .fill i (fun cell => (use cell).caught) >>= fun r => match r with
          | some (.ok x) => (f (some x)).caught
          | some (.error reason) => .done (.error reason)
          | none => (f none).caught := by
      rw [access_fill_bind hi, access_fill_bind hi, caught_segmentOrFresh_bind]
      simp only [caught_bind]
      refine congrArg _ (funext fun segment => congrArg _ (funext fun r => ?_))
      cases r <;> rfl
    rw [hcaught]
    refine .access hi fun cell => ?_
    have hcell := ih cell
    rw [caught_bind] at hcell
    convert hcell using 3 with r
    cases r <;> rfl

theorem of_only {P : Action V H → Prop} (h : p.Only P)
    (hP : ∀ act, P act → act.intent = .ordinary) : p.Orderly a := by
  induction p with
  | done x => exact .done x
  | panic reason => exact .panic reason
  | step act next ih => exact .step (hP act h.1) fun r => ih r (h.2 r)

theorem perform {act : Action V H} (h : act.intent = .ordinary) : (perform act).Orderly a :=
  .step h fun _ => .done _

theorem accessOf (purpose : Access) (i : UInt64) {use : Cell → Program V H α}
    (h : ∀ cell, (use cell).Orderly a) : (a.access purpose i use).Orderly a := by
  by_cases hi : i < a.capacity
  · by_cases hp : purpose = .fill
    · subst hp
      have haccess := Orderly.access (f := Program.done) hi fun cell =>
        (h cell).bind fun x => .done (some x)
      rwa [bind_done] at haccess
    · rw [access_of_lt hi hp]
      refine (Orderly.perform rfl).bind fun found => ?_
      cases found with
      | none => exact .done none
      | some segment => exact (h _).map some
  · rw [access_of_le (UInt64.not_lt.mp hi)]
    exact .done none

theorem intent_eq (h : p.Orderly a) : p.intent = .ordinary := by
  cases h with
  | done x => rfl
  | panic reason => rfl
  | step hact _ => exact hact
  | access hi _ =>
    rw [access_fill_bind hi, segmentOrFresh_eq]
    rfl

end Orderly

end Program

/-- Clients leave the table to the accesses. -/
theorem SlotArray.CellClient.orderly {a : SlotArray} {holds : Cell → Prop} {p : Program V H α}
    (h : a.CellClient holds p) : p.Orderly a := by
  induction h with
  | done x => exact .done x
  | panic reason => exact .panic reason
  | bind _ _ ihp ihf => exact ihp.bind ihf
  | caught _ ih => exact ih.caught
  | readHost | changeHost | size | adjustCount | load | exchangeIf | swap | retire =>
    exact .perform rfl
  | access purpose i _ ih => exact .accessOf purpose i ih
  | firstFrom i =>
    refine .of_only (a.only_firstFrom i) fun act hload => ?_
    cases act <;> first | rfl | exact hload.elim

namespace Program

variable {a : SlotArray}

/-- How a program of a client can stand: at code that leaves the table alone, or between the actions
of an access that has found an entry empty. -/
inductive Stands (a : SlotArray) : Program V H α → Prop
  | orderly {p : Program V H α} (h : p.Orderly a) : Stands a p
  | publishing (e : UInt64) {f : ℕ → Program V H α} (h : ∀ segment, (f segment).Orderly a) :
      Stands a (publishOrTake e >>= f)
  | announcing (e : UInt64) {p : Program V H α} (h : p.Orderly a) :
      Stands a (.step (.emit (.allocated e)) fun _ => p)

/-- What an action of a client leads to. It is about to publish only if it was the first one of an
access that found an entry empty, and to announce only if it has published. -/
theorem Stands.acts [Journal H] {act : Action V H} {next : act.Result → Program V H α}
    (h : (step act next).Stands a) (s : Session V H) :
    (next (act.perform s).1).Stands a ∧
      (∀ e, (next (act.perform s).1).intent = .publish e → s.memory.segmentAt e = none ∧
        ∃ i, i < a.capacity ∧ (Address.ofIndex i).entry = e ∧ (step act next).Calls a i) ∧
      ∀ e, (next (act.perform s).1).intent = .announce e ↔
        s.memory.segmentAt e = none ∧ act.intent = .publish e := by
  have hquiet : ∀ {q : Program V H α}, q.Orderly a → (∀ e, act.intent = .publish e →
      s.memory.segmentAt e ≠ none) → q.Stands a ∧
      (∀ e, q.intent = .publish e → s.memory.segmentAt e = none ∧
        ∃ i, i < a.capacity ∧ (Address.ofIndex i).entry = e ∧ (step act next).Calls a i) ∧
      ∀ e, q.intent = .announce e ↔ s.memory.segmentAt e = none ∧ act.intent = .publish e := by
    intro q hq hact
    have hordinary := hq.intent_eq
    refine ⟨.orderly hq, fun e he => ?_, fun e => ⟨fun he => ?_, fun he => ?_⟩⟩
    · cases hordinary.symm.trans he
    · cases hordinary.symm.trans he
    · exact absurd he.1 (hact e he.2)
  generalize hp : step act next = p at h hquiet ⊢
  cases h with
  | orderly h =>
    cases h with
    | done x => cases hp
    | panic reason => cases hp
    | step hact hnext =>
      cases hp
      exact hquiet (hnext _) fun e he => by rw [hact] at he; cases he
    | @access i _ use f hi huse =>
      have hcalls : (a.access .fill i use >>= f).Calls a i := ⟨_, use, f, rfl⟩
      rw [access_fill_bind hi, segmentOrFresh_eq] at hp
      cases hp
      cases hn : s.memory.segmentAt (Address.ofIndex i).entry with
      | some segment =>
        simp only [Action.perform, hn]
        exact hquiet (huse ⟨segment, (Address.ofIndex i).offset⟩) fun e he => by cases he
      | none =>
        simp only [Action.perform, hn]
        refine ⟨.publishing _ fun segment => huse ⟨segment, _⟩, ?_, fun e => ?_⟩
        · rintro e ⟨⟩
          exact ⟨hn, i, hi, rfl, hcalls⟩
        · constructor
          · rintro ⟨⟩
          · rintro ⟨-, ⟨⟩⟩
  | @publishing e f h =>
    cases hp
    simp only [Action.perform, s.memory.found_publish]
    cases hn : s.memory.segmentAt e with
    | none =>
      refine ⟨.announcing e (h _), fun d hd => ?_, fun d => ⟨?_, ?_⟩⟩
      · cases hd
      · rintro ⟨⟩
        exact ⟨hn, rfl⟩
      · rintro ⟨-, ⟨⟩⟩
        rfl
    | some segment =>
      refine hquiet (.step rfl fun _ => h segment) ?_
      rintro d ⟨⟩
      rw [hn]
      exact Option.some_ne_none segment
  | announcing e h =>
    cases hp
    exact hquiet h fun d hd => by cases hd

/-- An access for filling begins with a look at the entry of its slot. If that is empty, it goes on
to publish a segment there. -/
theorem Calls.acts [Journal H] {act : Action V H} {next : act.Result → Program V H α} {i : UInt64}
    (h : (step act next).Calls a i) (hi : i < a.capacity) (s : Session V H) :
    act = .loadEntry (Address.ofIndex i).entry ∧
      (s.memory.segmentAt (Address.ofIndex i).entry = none →
        (next (act.perform s).1).intent = .publish (Address.ofIndex i).entry) := by
  obtain ⟨β, use, f, hp⟩ := h
  rw [access_fill_bind hi, segmentOrFresh_eq] at hp
  cases hp
  refine ⟨rfl, fun hn => ?_⟩
  simp only [Action.perform, hn]
  rfl

/-- A program that has ended goes on with nothing. -/
theorem not_calls_ofEnd {answer : Except Panic α} {i : UInt64} (hi : i < a.capacity) :
    ¬ (ofEnd answer : Program V H α).Calls a i := by
  rintro ⟨β, use, f, hp⟩
  rw [access_fill_bind hi, segmentOrFresh_eq] at hp
  cases answer <;> cases hp

end Program

/-- Only a publication changes the table. -/
theorem Action.segmentAt_perform [Journal H] {act : Action V H}
    (h : ∀ e, act.intent ≠ .publish e) (s : Session V H) (e : UInt64) :
    (act.perform s).2.memory.segmentAt e = s.memory.segmentAt e := by
  cases act with
  | publish d => exact absurd rfl (h d)
  | exchangeIf cell expected new =>
    change (s.memory.exchangeIf cell expected new).2.segmentAt e = _
    cases hs : sameOccupant (s.memory.content cell) expected with
    | true => rw [Memory.exchangeIf_of_same new hs, Memory.segmentAt_store]
    | false => rw [Memory.exchangeIf_of_not_same new hs]
  | swap cell new => exact s.memory.segmentAt_store cell new e
  | loadEntry | load | retire | adjust | readSize | emit | readHost | changeHost => rfl

/-- The threads of clients. -/
def Thread.Stands (a : SlotArray) : Thread V H α → Prop
  | ⟨[], _⟩ => True
  | ⟨p :: rest, _⟩ => p.Stands a ∧ ∀ q ∈ rest, q.Orderly a

theorem Thread.stands_of_orderly {a : SlotArray} {todo : List (Program V H α)}
    (h : ∀ p ∈ todo, p.Orderly a) (answers : List (Except Panic α)) :
    Thread.Stands a ⟨todo, answers⟩ ∧ Thread.intent ⟨todo, answers⟩ = .ordinary := by
  cases todo with
  | nil => exact ⟨trivial, rfl⟩
  | cons p rest =>
    have hp := h p (by simp)
    exact ⟨⟨.orderly hp, fun q hq => h q (by simp [hq])⟩, hp.intent_eq⟩

namespace Intent

/-- The entry that is announced, if that is what is about to happen. -/
def announced : Intent → List UInt64
  | announce e => [e]
  | ordinary | publish _ => []

theorem count_announced (intent : Intent) (e : UInt64) :
    intent.announced.count e = (decide (intent = announce e)).toNat := by
  cases intent with
  | announce d =>
    by_cases hd : d = e <;> simp [announced, hd]
  | ordinary | publish => rfl

end Intent

namespace Pool

theorem intent_of_thread {pool : Pool V H α} {k : ℕ} {thread : Thread V H α}
    (hk : pool.threads[k]? = some thread) : pool.intent k = thread.intent := by
  rw [intent, hk]
  rfl

variable [Journal H]

/-- The next turn of a thread begins an access for filling that slot. -/
def Begins (a : SlotArray) (pool : Pool V H α) (k : ℕ) (i : UInt64) : Prop :=
  ∃ p rest answers, pool.threads[k]? = some ⟨p :: rest, answers⟩ ∧ p.Calls a i

/-- Along a schedule, an access was begun for filling a slot of the array behind that entry. -/
def CalledFor (a : SlotArray) (pool : Pool V H α) (schedule : List ℕ) (e : UInt64) : Prop :=
  ∃ early k late i, schedule = early ++ k :: late ∧ i < a.capacity ∧
    (Address.ofIndex i).entry = e ∧ (pool.run early).Begins a k i

/-- The entries whose segments were announced along a schedule. -/
def announced : Pool V H α → List ℕ → List UInt64
  | _, [] => []
  | pool, k :: rest => (pool.intent k).announced ++ (pool.step k).announced rest

theorem announced_concat (pool : Pool V H α) (schedule : List ℕ) (k : ℕ) :
    pool.announced (schedule ++ [k]) =
      pool.announced schedule ++ ((pool.run schedule).intent k).announced := by
  induction schedule generalizing pool with
  | nil => simp [announced]
  | cons j rest ih => simp only [List.cons_append, announced, ih, List.append_assoc, run_cons]

theorem calledFor_concat {a : SlotArray} {pool : Pool V H α} {schedule : List ℕ} {k : ℕ}
    {e : UInt64} : pool.CalledFor a (schedule ++ [k]) e ↔ pool.CalledFor a schedule e ∨
      ∃ i, i < a.capacity ∧ (Address.ofIndex i).entry = e ∧ (pool.run schedule).Begins a k i := by
  constructor
  · rintro ⟨early, j, late, i, hschedule, hi, he, hbegins⟩
    rcases List.eq_nil_or_concat late with rfl | ⟨late, l, rfl⟩
    · obtain ⟨rfl, hjk⟩ := List.append_inj' hschedule rfl
      cases hjk
      exact .inr ⟨i, hi, he, hbegins⟩
    · rw [List.concat_eq_append, ← List.cons_append, ← List.append_assoc] at hschedule
      obtain ⟨rfl, -⟩ := List.append_inj' hschedule rfl
      exact .inl ⟨early, j, late, i, rfl, hi, he, hbegins⟩
  · rintro (⟨early, j, late, i, rfl, hi, he, hbegins⟩ | ⟨i, hi, he, hbegins⟩)
    · exact ⟨early, j, late ++ [k], i, by simp, hi, he, hbegins⟩
    · exact ⟨schedule, k, [], i, rfl, hi, he, hbegins⟩

/-- What the table has to do with the run that led to it. -/
structure Publishes (a : SlotArray) (start : Pool V H α) (schedule : List ℕ) : Prop where
  lawful : (start.run schedule).Lawful a
  stands : ∀ thread ∈ (start.run schedule).threads, thread.Stands a
  /-- A thread that is about to publish has found the entry empty at its last turn. -/
  publish_begun : ∀ k e, (start.run schedule).intent k = .publish e →
    ∃ early late i, schedule = early ++ k :: late ∧ k ∉ late ∧ i < a.capacity ∧
      (Address.ofIndex i).entry = e ∧ (start.run early).Begins a k i ∧
      (start.run early).session.memory.segmentAt e = none
  called_of_segment : ∀ e, ((start.run schedule).session.memory.segmentAt e).isSome = true →
    start.CalledFor a schedule e
  segment_of_called : ∀ e, start.CalledFor a schedule e →
    ((start.run schedule).session.memory.segmentAt e).isSome = true ∨
      ∃ k, (start.run schedule).intent k = .publish e
  /-- Announcements that were made, and those that are about to be made. -/
  announced_once : ∀ e, (start.announced schedule).count e +
    (start.run schedule).threads.countP (fun thread => thread.intent = .announce e) =
      ((start.run schedule).session.memory.segmentAt e).isSome.toNat

namespace Publishes

variable {a : SlotArray} {start : Pool V H α} {schedule : List ℕ} {k : ℕ}

theorem calledFor_of_publish (h : Publishes a start schedule) {e : UInt64}
    (he : (start.run schedule).intent k = .publish e) : start.CalledFor a schedule e := by
  obtain ⟨early, late, i, hschedule, -, hi, hentry, hbegins, -⟩ := h.publish_begun k e he
  exact ⟨early, k, late, i, hschedule, hi, hentry, hbegins⟩

/-- A turn in which a thread moves on. -/
theorem set (h : Publishes a start schedule) {thread next : Thread V H α} {s : Session V H}
    (hk : (start.run schedule).threads[k]? = some thread)
    (hstep : (start.run schedule).step k = ⟨s, (start.run schedule).threads.set k next⟩)
    (hstands : next.Stands a)
    (hpublish : ∀ e, next.intent = .publish e →
      (start.run schedule).session.memory.segmentAt e = none ∧ ∃ i, i < a.capacity ∧
        (Address.ofIndex i).entry = e ∧ (start.run schedule).Begins a k i)
    (hbegins : ∀ i, i < a.capacity → (start.run schedule).Begins a k i →
      (s.memory.segmentAt (Address.ofIndex i).entry).isSome = true ∨
        next.intent = .publish (Address.ofIndex i).entry)
    (hsegment : ∀ e, (s.memory.segmentAt e).isSome = true ↔
      ((start.run schedule).session.memory.segmentAt e).isSome = true ∨ thread.intent = .publish e)
    (hannounce : ∀ e, next.intent = .announce e ↔
      (start.run schedule).session.memory.segmentAt e = none ∧ thread.intent = .publish e) :
    Publishes a start (schedule ++ [k]) := by
  have hrun : start.run (schedule ++ [k]) = ⟨s, (start.run schedule).threads.set k next⟩ := by
    rw [run_append]
    exact hstep
  have hlt := (List.getElem?_eq_some_iff.mp hk).1
  have hself : (start.run (schedule ++ [k])).intent k = next.intent := by
    rw [hrun]
    exact intent_of_thread (List.getElem?_set_self hlt)
  have hother : ∀ j, j ≠ k →
      (start.run (schedule ++ [k])).intent j = (start.run schedule).intent j := by
    intro j hj
    rw [hrun, intent, List.getElem?_set_ne (Ne.symm hj)]
    rfl
  have hmemory : (start.run (schedule ++ [k])).session.memory = s.memory := by rw [hrun]
  refine ⟨?_, ?_, ?_, ?_, ?_, ?_⟩
  · rw [run_append]
    exact h.lawful.step k
  · rw [hrun]
    intro other hmem
    rcases List.mem_or_eq_of_mem_set hmem with hmem | rfl
    · exact h.stands other hmem
    · exact hstands
  · intro j e he
    by_cases hj : j = k
    · subst hj
      rw [hself] at he
      obtain ⟨hn, i, hi, hentry, hbegun⟩ := hpublish e he
      exact ⟨schedule, [], i, rfl, by simp, hi, hentry, hbegun, hn⟩
    · rw [hother j hj] at he
      obtain ⟨early, late, i, rfl, hlate, hrest⟩ := h.publish_begun j e he
      exact ⟨early, late ++ [k], i, by simp, by simp [hlate, hj], hrest⟩
  · intro e he
    rw [hmemory, hsegment] at he
    rw [calledFor_concat]
    rcases he with he | he
    · exact .inl (h.called_of_segment e he)
    · exact .inl (h.calledFor_of_publish ((intent_of_thread hk).trans he))
  · intro e he
    rw [hmemory]
    rcases calledFor_concat.mp he with he | ⟨i, hi, rfl, hbegun⟩
    · rcases h.segment_of_called e he with he | ⟨j, hj⟩
      · exact .inl ((hsegment e).mpr (.inl he))
      · by_cases hjk : j = k
        · subst hjk
          exact .inl ((hsegment e).mpr (.inr ((intent_of_thread hk).symm.trans hj)))
        · exact .inr ⟨j, (hother j hjk).trans hj⟩
    · exact (hbegins i hi hbegun).imp_right fun he => ⟨k, hself.trans he⟩
  · intro e
    have hold := h.announced_once e
    have hget : (start.run schedule).threads[k] = thread := (List.getElem?_eq_some_iff.mp hk).2
    have hpos : (decide (thread.intent = .announce e)).toNat ≤
        (start.run schedule).threads.countP fun thread => thread.intent = .announce e := by
      cases hd : decide (thread.intent = .announce e) with
      | false => simp
      | true => exact List.countP_pos_iff.mpr ⟨thread, List.mem_of_getElem? hk, hd⟩
    -- the turn makes a segment if and only if it leaves the thread about to announce it
    have hnew : (decide (next.intent = .announce e)).toNat +
        ((start.run schedule).session.memory.segmentAt e).isSome.toNat =
          (s.memory.segmentAt e).isSome.toNat := by
      cases hn : (start.run schedule).session.memory.segmentAt e with
      | some segment =>
        have hsome := (hsegment e).mpr (.inl (by rw [hn]; rfl))
        have hquiet : ¬ next.intent = .announce e := fun hd => by
          have hnone := ((hannounce e).mp hd).1
          rw [hn] at hnone
          cases hnone
        simp [hsome, hquiet]
      | none =>
        by_cases hi : thread.intent = .publish e
        · simp [(hsegment e).mpr (.inr hi), (hannounce e).mpr ⟨hn, hi⟩]
        · have hnone : (s.memory.segmentAt e).isSome = false := by
            rw [← Bool.not_eq_true, hsegment, hn]
            simp [hi]
          have hquiet : ¬ next.intent = .announce e := fun hd => hi ((hannounce e).mp hd).2
          simp [hnone, hquiet]
    have hif : ∀ b : Bool, (if b = true then 1 else 0) = b.toNat := fun b => by cases b <;> rfl
    rw [announced_concat, List.count_append, Intent.count_announced, intent_of_thread hk, hmemory,
      hrun]
    simp only [List.countP_set hlt, hget, hif]
    omega

/-- A turn in which nothing is left to do. -/
theorem rest (h : Publishes a start schedule)
    (hrests : ∀ thread, (start.run schedule).threads[k]? = some thread → thread.todo = [])
    (hstep : (start.run schedule).step k = start.run schedule) :
    Publishes a start (schedule ++ [k]) := by
  have hrun : start.run (schedule ++ [k]) = start.run schedule := by
    rw [run_append]
    exact hstep
  have hintent : (start.run schedule).intent k = .ordinary := by
    rw [intent]
    cases hk : (start.run schedule).threads[k]? with
    | none => rfl
    | some thread =>
      obtain ⟨todo, answers⟩ := thread
      obtain rfl : todo = [] := hrests _ hk
      rfl
  have hcalled : ∀ e, start.CalledFor a (schedule ++ [k]) e ↔ start.CalledFor a schedule e := by
    intro e
    rw [calledFor_concat]
    refine or_iff_left ?_
    rintro ⟨i, -, -, p, rest, answers, hk, -⟩
    cases hrests _ hk
  refine ⟨by rw [hrun]; exact h.lawful, by rw [hrun]; exact h.stands, ?_, ?_, ?_, ?_⟩
  · intro j e he
    rw [hrun] at he
    obtain ⟨early, late, i, rfl, hlate, hrest⟩ := h.publish_begun j e he
    have hj : j ≠ k := by
      rintro rfl
      rw [hintent] at he
      cases he
    exact ⟨early, late ++ [k], i, by simp, by simp [hlate, hj], hrest⟩
  · intro e he
    rw [hrun] at he
    exact (hcalled e).mpr (h.called_of_segment e he)
  · intro e he
    rw [hrun]
    exact h.segment_of_called e ((hcalled e).mp he)
  · intro e
    rw [hrun, announced_concat, hintent]
    simpa [Intent.announced] using h.announced_once e

theorem step (h : Publishes a start schedule) (k : ℕ) : Publishes a start (schedule ++ [k]) := by
  have hturn := (start.run schedule).turn k
  generalize hnext : (start.run schedule).step k = next at hturn
  cases hturn with
  | rests hrests => exact h.rest hrests hnext
  | @returns answer rest answers hk =>
    have hstands := h.stands _ (List.mem_of_getElem? hk)
    obtain ⟨hstands', hintent⟩ := Thread.stands_of_orderly hstands.2 (answer :: answers)
    have hquiet : Thread.intent ⟨ofEnd answer :: rest, answers⟩ = .ordinary := by
      cases answer <;> rfl
    refine h.set hk hnext hstands' ?_ ?_ ?_ ?_
    · simp [hintent]
    · rintro i hi ⟨p, _, _, hp, hcalls⟩
      rw [hk] at hp
      cases hp
      exact absurd hcalls (not_calls_ofEnd hi)
    · simp [hquiet]
    · simp [hintent, hquiet]
  | @acts act next rest answers hk =>
    obtain ⟨hp, hrest⟩ := h.stands _ (List.mem_of_getElem? hk)
    obtain ⟨hgoes, hpublish, hannounce⟩ := hp.acts (start.run schedule).session
    refine h.set hk hnext ⟨hgoes, hrest⟩ ?_ ?_ ?_ hannounce
    · intro e he
      obtain ⟨hn, i, hi, hentry, hcalls⟩ := hpublish e he
      exact ⟨hn, i, hi, hentry, _, _, _, hk, hcalls⟩
    · rintro i hi ⟨p, _, _, hthread, hcalls⟩
      rw [hk] at hthread
      cases hthread
      obtain ⟨rfl, hempty⟩ := hcalls.acts hi (start.run schedule).session
      cases hn : (start.run schedule).session.memory.segmentAt (Address.ofIndex i).entry with
      | none => exact .inr (hempty hn)
      | some segment => exact .inl (Option.isSome_iff_exists.mpr ⟨segment, hn⟩)
    · intro e
      change _ ↔ _ ∨ act.intent = .publish e
      cases hact : act.intent with
      | publish d =>
        obtain rfl := act.eq_publish_of_intent hact
        obtain ⟨early, late, i, -, -, hi, rfl, -⟩ :=
          h.publish_begun k d ((intent_of_thread hk).trans hact)
        rw [Intent.publish.injEq]
        exact Memory.isSome_segmentAt_publish (h.lawful.sound.entry_lt hi) e
      | ordinary | announce =>
        rw [Action.segmentAt_perform (by rw [hact]; exact nofun)]
        exact (or_iff_left nofun).symm

/-- Clients in front of their programs, on a fresh array. -/
theorem fresh (host : H) {programs : List (List (Program V H α))}
    (h : ∀ list ∈ programs, ∀ p ∈ list, a.CellClient (fun _ => False) p) :
    Publishes a (Pool.fresh a host programs) [] := by
  have hthread : ∀ thread ∈ (Pool.fresh a host programs).threads,
      thread.Stands a ∧ thread.intent = .ordinary := by
    intro thread hmem
    obtain ⟨list, hlist, rfl⟩ := List.mem_map.mp hmem
    exact Thread.stands_of_orderly (fun p hp => (h list hlist p hp).orderly) []
  have hnone : ∀ e, (Pool.fresh a host programs).session.memory.segmentAt e = none :=
    fun e => Memory.segmentAt_ofEntries _ e
  refine ⟨lawful_of_programs (sound_ofEntries a) fun list hlist p hp => (h list hlist p hp).lawful,
    fun thread hmem => (hthread thread hmem).1, ?_, ?_, ?_, ?_⟩
  · intro k e he
    rw [run_nil, intent] at he
    cases hk : (Pool.fresh a host programs).threads[k]? with
    | none => rw [hk] at he; cases he
    | some thread =>
      rw [hk] at he
      cases ((hthread thread (List.mem_of_getElem? hk)).2.symm.trans he)
  · intro e he
    rw [run_nil, hnone] at he
    cases he
  · rintro e ⟨early, k, late, i, hschedule, -⟩
    exact absurd hschedule (by simp)
  · intro e
    have hquiet : (Pool.fresh a host programs).threads.countP
        (fun thread => thread.intent = .announce e) = 0 := by
      rw [List.countP_eq_zero]
      intro thread hmem
      simp [(hthread thread hmem).2]
    rw [run_nil, hquiet, hnone]
    rfl

theorem run (h : Publishes a start []) (schedule : List ℕ) : Publishes a start schedule := by
  induction schedule using List.reverseRecOn with
  | nil => exact h
  | append_singleton schedule k ih => exact ih.step k

end Publishes

/-- An access for filling has handed the cell of its slot to its program by the time its thread has
had three turns. A thread that lost against another one takes the segment of that one. -/
theorem exists_entry {a : SlotArray} {pool : Pool V H α} (hpool : pool.Lawful a) {k : ℕ}
    {i : UInt64} (hi : i < a.capacity) {use : Cell → Program V H β}
    {f : Option β → Program V H α} {rest : List (Program V H α)} {answers : List (Except Panic α)}
    (hk : pool.threads[k]? = some ⟨(a.access .fill i use >>= f) :: rest, answers⟩)
    {schedule : List ℕ} (hturns : 3 ≤ schedule.count k) :
    ∃ during later cell, schedule = during ++ later ∧ during.count k ≤ 3 ∧
      (pool.run during).threads[k]? =
        some ⟨(use cell >>= fun x => f (some x)) :: rest, answers⟩ ∧
      a.cell? (pool.run during).session.memory i = some cell := by
  rw [access_fill_bind hi] at hk
  have hsegment : (segmentOrFresh (Address.ofIndex i).entry : Program V H ℕ).Follows a Sees
      (fun r _ m => ∃ segment, r = .ok segment ∧
        m.segmentAt (Address.ofIndex i).entry = some segment)
      (fun _ => False) pool.session.memory :=
    follows_segmentOrFresh (Sees.idle a _) (fun n hn => hn.entry_lt hi)
      fun n segment _ _ hn => ⟨segment, rfl, hn⟩
  obtain ⟨during, later, segment, -, hschedule, hcount, hend, hn, -⟩ :=
    exists_return hpool hk (within_segmentOrFresh _) hsegment hturns
  exact ⟨during, later, _, hschedule, hcount, hend, cell?_eq_some_iff.mpr ⟨hi, hn, rfl⟩⟩

/-- Any other access looks for the cell of its slot in the next turn of its thread. If the slot has
one, the access hands it to its program, and if not, it ends without an answer. -/
theorem step_of_access {a : SlotArray} {pool : Pool V H α} {k : ℕ} {purpose : Access}
    (hpurpose : purpose ≠ .fill) {i : UInt64} (hi : i < a.capacity) {use : Cell → Program V H β}
    {f : Option β → Program V H α} {rest : List (Program V H α)} {answers : List (Except Panic α)}
    (hk : pool.threads[k]? = some ⟨(a.access purpose i use >>= f) :: rest, answers⟩) :
    a.cell? pool.session.memory i = none ∧
        (pool.step k).threads[k]? = some ⟨f none :: rest, answers⟩ ∨
      ∃ cell, a.cell? pool.session.memory i = some cell ∧
        (pool.step k).threads[k]? =
          some ⟨(use cell >>= fun x => f (some x)) :: rest, answers⟩ := by
  rw [access_of_lt hi hpurpose, bind_assoc] at hk
  obtain ⟨-, hstep⟩ := step_of_acts hk
  cases hn : pool.session.memory.segmentAt (Address.ofIndex i).entry with
  | none =>
    simp only [Action.perform, hn] at hstep
    exact .inl ⟨cell?_of_missing hn, hstep⟩
  | some segment =>
    simp only [Action.perform, hn] at hstep
    refine .inr ⟨⟨segment, (Address.ofIndex i).offset⟩, cell?_eq_some_iff.mpr ⟨hi, hn, rfl⟩, ?_⟩
    rw [← bind_map_left]
    exact hstep

end Pool

end AtomicSlots
