import AtomicSlots.Proofs.Progress
import AtomicSlots.SlotArray.Lifecycle

/-!
# Linearization of operations on slots

Threads that work on one array, each on a list of operations, take turns in any order. The turns of
a schedule are numbered, and an operation has those turns that its thread makes while it is at this
operation. Every operation that has ended, and every pending one that has taken effect, can be given
one of its own turns so that all of them, in the order of these turns, do to a list of contents what
they did to the array. The turns are found while the schedule goes on: that of the decisive action
when it comes, and that of an earlier load once the operation has ended without a change.
-/
namespace AtomicSlots

variable {V H α : Type}

open Program SlotArray Progress

/-- An operation in its place: its turn, its thread and number, how it ends, and whether it was
lost. -/
structure Effect (V : Type) where
  time : ℕ
  thread : ℕ
  number : ℕ
  answer : Except Panic (Reply V)
  lost : Bool

/-- The operation of a thread with a number. -/
def operationAt (lists : List (List (SlotOperation V H))) (thread number : ℕ) :
    Option (SlotOperation V H) :=
  lists[thread]?.bind (·[number]?)

/-- Operations in order take a list of contents to another one. -/
inductive Replays (lists : List (List (SlotOperation V H))) :
    List (Option V) → List (Effect V) → List (Option V) → Prop
  | nil (slots : List (Option V)) : Replays lists slots [] slots
  | cons {slots new last : List (Option V)} {effect : Effect V} {rest : List (Effect V)}
      {operation : SlotOperation V H}
      (hoperation : operationAt lists effect.thread effect.number = some operation)
      (hmoves : operation.Moves effect.lost slots effect.answer new)
      (hrest : Replays lists new rest last) : Replays lists slots (effect :: rest) last

theorem Replays.concat {lists : List (List (SlotOperation V H))}
    {slots middle last : List (Option V)} {effects : List (Effect V)}
    (h : Replays lists slots effects middle) {effect : Effect V}
    {operation : SlotOperation V H}
    (hoperation : operationAt lists effect.thread effect.number = some operation)
    (hmoves : operation.Moves effect.lost middle effect.answer last) :
    Replays lists slots (effects ++ [effect]) last := by
  induction h with
  | nil slots => exact .cons hoperation hmoves (.nil last)
  | cons hop hmove _ ih => exact .cons hop hmove (ih hmoves)

namespace Pool

/-- The pool in front of a turn. -/
def before [Journal H] (start : Pool V H α) (schedule : List ℕ) (t : ℕ) : Pool V H α :=
  start.run (schedule.take t)

theorem before_zero [Journal H] (start : Pool V H α) (schedule : List ℕ) :
    start.before schedule 0 = start := rfl

theorem before_succ [Journal H] (start : Pool V H α) {schedule : List ℕ} {t k : ℕ}
    (h : schedule[t]? = some k) :
    start.before schedule (t + 1) = (start.before schedule t).step k := by
  rw [before, before, List.take_add_one, h, run_append]
  rfl

/-- A thread is at the operation with a number: it is about to begin it, to go on with it or to
return from it. -/
def IsAt (pool : Pool V H α) (k number : ℕ) : Prop :=
  ∃ thread, pool.threads[k]? = some thread ∧ thread.todo ≠ [] ∧ thread.answers.length = number

/-- The turns of an operation. -/
def IsTurnOf [Journal H] (start : Pool V H α) (schedule : List ℕ) (k number t : ℕ) : Prop :=
  schedule[t]? = some k ∧ (start.before schedule t).IsAt k number

/-- Threads in front of their lists of operations, on a fresh array. -/
def ofOperations (a : SlotArray) (host : H) (lists : List (List (SlotOperation V H))) :
    Pool V H (Reply V) :=
  ⟨⟨a.freshMemory, host⟩, lists.map fun list => .ofPrograms (list.map (·.program a))⟩

end Pool

section

variable [Journal H] (a : SlotArray) (start : Pool V H (Reply V)) (schedule : List ℕ)

/-- The occupant of a slot in front of a turn. -/
def SlotArray.occupantBefore (t : ℕ) (i : UInt64) : Option (Occupant V) :=
  a.occupant? (start.before schedule t).session.memory i

/-- The contents of all slots in front of a turn. -/
def SlotArray.slotsBefore (t : ℕ) : List (Option V) :=
  a.slots (start.before schedule t).session.memory

/-- Why an operation may be lost at a turn: at an earlier turn of its own it saw an occupant that
its predicate accepts, and now it finds another one. -/
def SlotArray.Loses (operation : SlotOperation V H) (k number t : ℕ) : Prop :=
  ∃ earlier < t, start.IsTurnOf schedule k number earlier ∧ ∃ seen found,
    a.occupantBefore start schedule earlier operation.index = some seen ∧
    operation.Accepts seen.value ∧
    a.occupantBefore start schedule t operation.index = some found ∧ found.stamp ≠ seen.stamp

/-- What makes an order of operations a linearization of a schedule. -/
structure SlotArray.Linearizes (lists : List (List (SlotOperation V H)))
    (order : List (Effect V)) : Prop where
  sorted : order.Pairwise fun e f => e.time < f.time
  once : order.Pairwise fun e f => ¬ (e.thread = f.thread ∧ e.number = f.number)
  /-- Each operation is placed at one of its own turns. -/
  own : ∀ e ∈ order, start.IsTurnOf schedule e.thread e.number e.time
  /-- Each operation that has ended is in its place, with its answer. -/
  complete : ∀ (k : ℕ) (thread : Thread V H (Reply V)) (number : ℕ)
    (answer : Except Panic (Reply V)),
    (start.run schedule).threads[k]? = some thread →
    thread.answers.reverse[number]? = some answer →
    ∃ e ∈ order, e.thread = k ∧ e.number = number ∧ e.answer = answer
  /-- What is in its place has ended with its answer, or is pending. -/
  faithful : ∀ e ∈ order, ∃ thread, (start.run schedule).threads[e.thread]? = some thread ∧
    (thread.answers.reverse[e.number]? = some e.answer ∨ thread.answers.length = e.number)
  /-- In their order the operations do to a list of contents what they did to the array. -/
  replays : Replays lists (a.slots start.session.memory) order
    (a.slots (start.run schedule).session.memory)
  /-- An operation is lost only if another one of the order has changed its slot since it looked. -/
  excused : ∀ e ∈ order, e.lost = true → ∃ operation,
    operationAt lists e.thread e.number = some operation ∧
    ∃ earlier < e.time, start.IsTurnOf schedule e.thread e.number earlier ∧
    (∃ seen, a.occupantBefore start schedule earlier operation.index = some seen ∧
      operation.Accepts seen.value) ∧
    ∃ f ∈ order, earlier < f.time ∧ f.time < e.time ∧
      a.occupantBefore start schedule (f.time + 1) operation.index ≠
        a.occupantBefore start schedule f.time operation.index

end

section Placement

variable [Journal H] {a : SlotArray} {lists : List (List (SlotOperation V H))}
  {start : Pool V H (Reply V)} {schedule : List ℕ} {entries : ℕ → Option (Effect V)} {T : ℕ}

/-- An entry that may stand at a turn. -/
structure Effect.IsValid (a : SlotArray) (lists : List (List (SlotOperation V H)))
    (start : Pool V H (Reply V)) (schedule : List ℕ) (t : ℕ) (e : Effect V) : Prop where
  time_eq : e.time = t
  own : start.IsTurnOf schedule e.thread e.number t
  moves : ∃ operation, operationAt lists e.thread e.number = some operation ∧
    operation.Moves e.lost (a.slotsBefore start schedule t) e.answer
      (a.slotsBefore start schedule (t + 1)) ∧
    (e.lost = true → a.Loses start schedule operation e.thread e.number t)

/-- Entries at some of the first turns, such that nothing changes at the others. -/
structure Placement (a : SlotArray) (lists : List (List (SlotOperation V H)))
    (start : Pool V H (Reply V)) (schedule : List ℕ) (entries : ℕ → Option (Effect V)) (T : ℕ) :
    Prop where
  valid : ∀ t e, entries t = some e → t < T ∧ e.IsValid a lists start schedule t
  quiet : ∀ t < T, entries t = none → ∀ i,
    a.occupantBefore start schedule (t + 1) i = a.occupantBefore start schedule t i
  once : ∀ t u e f, entries t = some e → entries u = some f → e.thread = f.thread →
    e.number = f.number → t = u

namespace Placement

theorem entries_eq_none (h : Placement a lists start schedule entries T) {t : ℕ} (ht : T ≤ t) :
    entries t = none := by
  cases he : entries t with
  | none => rfl
  | some e => exact absurd (h.valid t e he).1 (by omega)

/-- A turn at which nothing changes needs no entry. -/
theorem skip (h : Placement a lists start schedule entries T)
    (hquiet : ∀ i,
      a.occupantBefore start schedule (T + 1) i = a.occupantBefore start schedule T i) :
    Placement a lists start schedule entries (T + 1) where
  valid t e he := ⟨(h.valid t e he).1.trans (Nat.lt_succ_self T), (h.valid t e he).2⟩
  quiet t ht he := by
    rcases Nat.lt_succ_iff_lt_or_eq.mp ht with ht | rfl
    · exact h.quiet t ht he
    · exact hquiet
  once := h.once

/-- An operation without an entry can get one at this turn or at an earlier one that is free. -/
theorem add (h : Placement a lists start schedule entries T) {t : ℕ} {e : Effect V} (ht : t ≤ T)
    (hnone : entries t = none) (he : e.IsValid a lists start schedule t)
    (hfresh : ∀ u f, entries u = some f → f.thread = e.thread → f.number ≠ e.number)
    (hquiet : t ≠ T → ∀ i,
      a.occupantBefore start schedule (T + 1) i = a.occupantBefore start schedule T i) :
    Placement a lists start schedule (Function.update entries t (some e)) (T + 1) where
  valid u f hf := by
    by_cases hu : u = t
    · subst hu
      rw [Function.update_self] at hf
      cases hf
      exact ⟨by omega, he⟩
    · rw [Function.update_of_ne hu] at hf
      exact ⟨(h.valid u f hf).1.trans (Nat.lt_succ_self T), (h.valid u f hf).2⟩
  quiet u hu hnone' := by
    by_cases hut : u = t
    · rw [hut, Function.update_self] at hnone'
      cases hnone'
    · rw [Function.update_of_ne hut] at hnone'
      rcases Nat.lt_succ_iff_lt_or_eq.mp hu with hu | rfl
      · exact h.quiet u hu hnone'
      · exact hquiet (Ne.symm hut)
  once u v f g hf hg hthread hnumber := by
    by_cases hu : u = t
    · by_cases hv : v = t
      · rw [hu, hv]
      · rw [hu, Function.update_self] at hf
        rw [Function.update_of_ne hv] at hg
        cases hf
        exact absurd hnumber.symm (hfresh v g hg hthread.symm)
    · rw [Function.update_of_ne hu] at hf
      by_cases hv : v = t
      · rw [hv, Function.update_self] at hg
        cases hg
        exact absurd hnumber (hfresh u f hf hthread)
      · rw [Function.update_of_ne hv] at hg
        exact h.once u v f g hf hg hthread hnumber

end Placement

/-- What a thread's operations have come to: those that have ended have their entries, and the one
that it is at has an entry if it has happened. A turn at which it has looked is still free. -/
structure Attends (a : SlotArray) (lists : List (List (SlotOperation V H)))
    (start : Pool V H (Reply V)) (schedule : List ℕ) (entries : ℕ → Option (Effect V)) (T k : ℕ)
    (thread : Thread V H (Reply V)) (progress : Progress V) : Prop where
  answered : ∀ (number : ℕ) (answer : Except Panic (Reply V)),
    thread.answers.reverse[number]? = some answer →
    ∃ t e, entries t = some e ∧ e.thread = k ∧ e.number = number ∧ e.answer = answer
  recorded : ∀ t e, entries t = some e → e.thread = k →
    thread.answers.reverse[e.number]? = some e.answer ∨
      (e.number = thread.answers.length ∧ progress = finished e.answer)
  looked : ∀ m, progress = looked m → ∃ t < T,
    start.IsTurnOf schedule k thread.answers.length t ∧ entries t = none ∧
      (start.before schedule t).session.memory = m
  finished : ∀ answer, progress = finished answer → ∃ t e, entries t = some e ∧ e.thread = k ∧
    e.number = thread.answers.length ∧ e.answer = answer

/-- What a thread still has to do: to finish its operation, and to begin with the next ones. -/
def Thread.Pursues (a : SlotArray) (operations : List (SlotOperation V H)) :
    Thread V H (Reply V) → Progress V → Memory V → Prop
  | ⟨[], _⟩, _, _ => True
  | ⟨p :: rest, answers⟩, progress, m => ∃ operation, operations[answers.length]? = some operation ∧
      p.Follows a (Advances a operation)
        (fun answer progress _ => Ends a operation answer progress) progress m ∧
      rest = (operations.drop (answers.length + 1)).map (·.program a)

theorem Thread.Pursues.later {operations : List (SlotOperation V H)}
    {thread : Thread V H (Reply V)} {progress : Progress V} {m n : Memory V}
    (h : thread.Pursues a operations progress m) (hl : m.Later n) :
    thread.Pursues a operations progress n := by
  obtain ⟨todo, answers⟩ := thread
  cases todo with
  | nil => trivial
  | cons p rest =>
    obtain ⟨operation, hoperation, hp, hrest⟩ := h
    exact ⟨operation, hoperation, hp.later hl, hrest⟩

/-- In front of an operation, nothing has been seen of its slot. -/
theorem Thread.pursues_waiting {operations : List (SlotOperation V H)}
    (h : ∀ operation ∈ operations, operation.HandsOff) (answers : List (Except Panic (Reply V)))
    (m : Memory V) :
    Thread.Pursues a operations
      ⟨(operations.drop answers.length).map (·.program a), answers⟩ waiting m := by
  cases hdrop : operations.drop answers.length with
  | nil => trivial
  | cons operation rest =>
    have hoperation : operations[answers.length]? = some operation := by
      rw [← List.head?_drop, hdrop]
      rfl
    refine ⟨operation, hoperation, (h _ (List.mem_of_getElem? hoperation)).isDecided, ?_⟩
    rw [← List.tail_drop, hdrop]
    rfl

namespace Attends

variable {k : ℕ} {thread : Thread V H (Reply V)} {progress : Progress V}

theorem of_le (h : Attends a lists start schedule entries T k thread progress) {T' : ℕ}
    (hle : T ≤ T') : Attends a lists start schedule entries T' k thread progress where
  answered := h.answered
  recorded := h.recorded
  looked m hm := by
    obtain ⟨t, ht, hlook⟩ := h.looked m hm
    exact ⟨t, ht.trans_le hle, hlook⟩
  finished := h.finished

/-- The programs that a thread still has to run make no difference. -/
theorem of_answers_eq (h : Attends a lists start schedule entries T k thread progress)
    {after : Thread V H (Reply V)} (heq : after.answers = thread.answers) :
    Attends a lists start schedule entries T k after progress where
  answered := heq ▸ h.answered
  recorded := heq ▸ h.recorded
  looked := heq ▸ h.looked
  finished := heq ▸ h.finished

/-- A look at a turn that has no entry. -/
theorem looks (h : Attends a lists start schedule entries T k thread progress)
    (hbefore : ∀ earlier, progress ≠ .finished earlier)
    (hown : start.IsTurnOf schedule k thread.answers.length T) (hnone : entries T = none) :
    Attends a lists start schedule entries (T + 1) k thread
      (.looked (start.before schedule T).session.memory) where
  answered := h.answered
  recorded t e he hk := by
    rcases h.recorded t e he hk with hanswer | ⟨-, hfinished⟩
    · exact .inl hanswer
    · exact absurd hfinished (hbefore e.answer)
  looked m hm := by
    cases hm
    exact ⟨T, Nat.lt_succ_self T, hown, hnone, rfl⟩
  finished answer hanswer := by cases hanswer

/-- An operation that has not happened has no entry. -/
theorem number_ne (h : Attends a lists start schedule entries T k thread progress)
    (hbefore : ∀ earlier, progress ≠ .finished earlier) {t : ℕ} {e : Effect V}
    (he : entries t = some e) (hk : e.thread = k) : e.number ≠ thread.answers.length := by
  intro hnumber
  rcases h.recorded t e he hk with hanswer | ⟨-, hfinished⟩
  · rw [hnumber, List.getElem?_eq_none (by simp)] at hanswer
    cases hanswer
  · exact hbefore e.answer hfinished

/-- An entry of another thread makes no difference. -/
theorem of_other (h : Attends a lists start schedule entries T k thread progress) {t : ℕ}
    {e : Effect V} (hnone : entries t = none) (he : e.thread ≠ k)
    (hturn : schedule[t]? = some e.thread) :
    Attends a lists start schedule (Function.update entries t (some e)) (T + 1) k thread
      progress where
  answered number answer hanswer := by
    obtain ⟨u, f, hf, hrest⟩ := h.answered number answer hanswer
    refine ⟨u, f, ?_, hrest⟩
    rwa [Function.update_of_ne (by rintro rfl; rw [hnone] at hf; cases hf)]
  recorded u f hf hk := by
    by_cases hu : u = t
    · rw [hu, Function.update_self] at hf
      cases hf
      exact absurd hk he
    · rw [Function.update_of_ne hu] at hf
      exact h.recorded u f hf hk
  looked m hm := by
    obtain ⟨u, hu, hown, hfree, hmem⟩ := h.looked m hm
    refine ⟨u, hu.trans (Nat.lt_succ_self T), hown, ?_, hmem⟩
    rwa [Function.update_of_ne]
    rintro rfl
    rw [hown.1] at hturn
    exact he (Option.some.inj hturn).symm
  finished reply hreply := by
    obtain ⟨u, f, hf, hrest⟩ := h.finished reply hreply
    refine ⟨u, f, ?_, hrest⟩
    rwa [Function.update_of_ne (by rintro rfl; rw [hnone] at hf; cases hf)]

/-- The entry of the operation that the thread is at, when this happens. -/
theorem happens (h : Attends a lists start schedule entries T k thread progress)
    (hbefore : ∀ earlier, progress ≠ .finished earlier) {t : ℕ} {e : Effect V}
    (hnone : entries t = none) (hk : e.thread = k) (hnumber : e.number = thread.answers.length) :
    Attends a lists start schedule (Function.update entries t (some e)) (T + 1) k thread
      (.finished e.answer) where
  answered number answer hgiven := by
    obtain ⟨u, f, hf, hrest⟩ := h.answered number answer hgiven
    refine ⟨u, f, ?_, hrest⟩
    rwa [Function.update_of_ne (by rintro rfl; rw [hnone] at hf; cases hf)]
  recorded u f hf hfk := by
    by_cases hu : u = t
    · rw [hu, Function.update_self] at hf
      cases hf
      exact .inr ⟨hnumber, rfl⟩
    · rw [Function.update_of_ne hu] at hf
      rcases h.recorded u f hf hfk with hgiven | ⟨-, hearlier⟩
      · exact .inl hgiven
      · exact absurd hearlier (hbefore f.answer)
  looked m hm := by cases hm
  finished answer hanswer := by
    cases hanswer
    exact ⟨t, e, Function.update_self .., hk, hnumber, rfl⟩

/-- When an operation returns its answer, it has an entry with that answer. -/
theorem returns (h : Attends a lists start schedule entries T k thread progress)
    {answer : Except Panic (Reply V)}
    (hentry : ∃ t e, entries t = some e ∧ e.thread = k ∧ e.number = thread.answers.length ∧
      e.answer = answer)
    (honce : ∀ t u e f, entries t = some e → entries u = some f → e.thread = f.thread →
      e.number = f.number → t = u) (rest : List (Program V H (Reply V))) :
    Attends a lists start schedule entries T k ⟨rest, answer :: thread.answers⟩ waiting where
  answered number other hother := by
    rw [List.reverse_cons] at hother
    rcases lt_trichotomy number thread.answers.length with hlt | rfl | hlt
    · rw [List.getElem?_append_left (by simpa using hlt)] at hother
      exact h.answered number other hother
    · rw [List.getElem?_append_right (by simp)] at hother
      simp only [List.length_reverse, Nat.sub_self, List.getElem?_cons_zero] at hother
      cases hother
      exact hentry
    · rw [List.getElem?_eq_none (by simp; omega)] at hother
      cases hother
  recorded t e he hk := by
    left
    rw [List.reverse_cons]
    rcases h.recorded t e he hk with hanswer | ⟨hnumber, -⟩
    · rwa [List.getElem?_append_left (List.getElem?_eq_some_iff.mp hanswer).1]
    · obtain ⟨u, f, hf, hfk, hfnumber, rfl⟩ := hentry
      obtain rfl := honce t u e f he hf (hk.trans hfk.symm) (hnumber.trans hfnumber.symm)
      rw [he] at hf
      cases hf
      rw [hnumber, List.getElem?_append_right (by simp)]
      simp
  looked m hm := by cases hm
  finished reply hreply := by cases hreply

end Attends

/-- The invariant of a schedule: the entries are in their places, and each thread attends to its
operations. -/
structure Attended (a : SlotArray) (lists : List (List (SlotOperation V H)))
    (start : Pool V H (Reply V)) (schedule : List ℕ) (entries : ℕ → Option (Effect V)) (T : ℕ) :
    Prop where
  placement : Placement a lists start schedule entries T
  sound : a.Sound (start.before schedule T).session.memory
  threads : ∀ (k : ℕ) (thread : Thread V H (Reply V)),
    (start.before schedule T).threads[k]? = some thread →
    ∃ operations progress, lists[k]? = some operations ∧
      Attends a lists start schedule entries T k thread progress ∧
      thread.Pursues a operations progress (start.before schedule T).session.memory

namespace Attended

variable {k : ℕ} {thread after : Thread V H (Reply V)} {s : Session V H}
  {entries' : ℕ → Option (Effect V)}

/-- A turn of one thread concerns the others only as far as the memory becomes later. -/
theorem of_turn (h : Attended a lists start schedule entries T)
    (hafter : start.before schedule (T + 1) =
      ⟨s, (start.before schedule T).threads.set k after⟩)
    (hs : a.Sound s.memory) (hl : (start.before schedule T).session.memory.Later s.memory)
    (hplacement : Placement a lists start schedule entries' (T + 1))
    (hothers : ∀ j thread progress, j ≠ k →
      Attends a lists start schedule entries T j thread progress →
      Attends a lists start schedule entries' (T + 1) j thread progress)
    (hself : ∃ operations progress, lists[k]? = some operations ∧
      Attends a lists start schedule entries' (T + 1) k after progress ∧
      after.Pursues a operations progress s.memory) :
    Attended a lists start schedule entries' (T + 1) where
  placement := hplacement
  sound := by rwa [hafter]
  threads j thread hj := by
    rw [hafter] at hj ⊢
    by_cases hjk : k = j
    · subst hjk
      have hlt : k < (start.before schedule T).threads.length := by
        simpa using (List.getElem?_eq_some_iff.mp hj).1
      rw [List.getElem?_set_self hlt] at hj
      cases hj
      exact hself
    · rw [List.getElem?_set_ne hjk] at hj
      obtain ⟨operations, progress, hlist, hattends, hpursues⟩ := h.threads j thread hj
      exact ⟨operations, progress, hlist, hothers j thread progress (Ne.symm hjk) hattends,
        hpursues.later hl⟩

/-- A turn that changes no slot and needs no entry. -/
theorem of_quiet_turn (h : Attended a lists start schedule entries T)
    (hafter : start.before schedule (T + 1) =
      ⟨s, (start.before schedule T).threads.set k after⟩)
    (hs : a.Sound s.memory) (hl : (start.before schedule T).session.memory.Later s.memory)
    (hquiet : ∀ i, a.occupant? s.memory i =
      a.occupant? (start.before schedule T).session.memory i)
    (hself : ∃ operations progress, lists[k]? = some operations ∧
      Attends a lists start schedule entries (T + 1) k after progress ∧
      after.Pursues a operations progress s.memory) :
    Attended a lists start schedule entries (T + 1) := by
  refine h.of_turn hafter hs hl (h.placement.skip fun i => ?_)
    (fun _ _ _ _ hother => hother.of_le (Nat.le_succ T)) hself
  rw [occupantBefore, hafter]
  exact hquiet i

/-- A turn that gives its thread's operation an entry, at this turn or at an earlier one. -/
theorem of_entry (h : Attended a lists start schedule entries T) {t : ℕ} {e : Effect V}
    (hafter : start.before schedule (T + 1) =
      ⟨s, (start.before schedule T).threads.set e.thread after⟩)
    (hs : a.Sound s.memory) (hl : (start.before schedule T).session.memory.Later s.memory)
    (ht : t ≤ T) (hnone : entries t = none) (he : e.IsValid a lists start schedule t)
    (hfresh : ∀ u f, entries u = some f → f.thread = e.thread → f.number ≠ e.number)
    (hquiet : t ≠ T → ∀ i, a.occupant? s.memory i =
      a.occupant? (start.before schedule T).session.memory i)
    (hself : ∃ operations progress, lists[e.thread]? = some operations ∧
      Attends a lists start schedule (Function.update entries t (some e)) (T + 1) e.thread after
        progress ∧
      after.Pursues a operations progress s.memory) :
    Attended a lists start schedule (Function.update entries t (some e)) (T + 1) := by
  refine h.of_turn hafter hs hl (h.placement.add ht hnone he hfresh fun hne i => ?_)
    (fun j _ _ hj hother => hother.of_other hnone (Ne.symm hj) he.own.1) hself
  rw [occupantBefore, hafter]
  exact hquiet hne i

/-- A turn at which the operation of its thread happens. -/
theorem of_happening (h : Attended a lists start schedule entries T) {e : Effect V}
    {operations : List (SlotOperation V H)} (hlist : lists[e.thread]? = some operations)
    {progress : Progress V}
    (hattends : Attends a lists start schedule entries T e.thread thread progress)
    (hbefore : ∀ earlier, progress ≠ .finished earlier)
    (hnumber : e.number = thread.answers.length) (he : e.IsValid a lists start schedule T)
    (hafter : start.before schedule (T + 1) =
      ⟨s, (start.before schedule T).threads.set e.thread after⟩)
    (hs : a.Sound s.memory) (hl : (start.before schedule T).session.memory.Later s.memory)
    (hanswers : after.answers = thread.answers)
    (hpursues : after.Pursues a operations (.finished e.answer) s.memory) :
    Attended a lists start schedule (Function.update entries T (some e)) (T + 1) := by
  have hnone := h.placement.entries_eq_none le_rfl
  have hfresh : ∀ u f, entries u = some f → f.thread = e.thread → f.number ≠ e.number := by
    intro u f hf hthread
    rw [hnumber]
    exact hattends.number_ne hbefore hf hthread
  have hhappens := hattends.happens hbefore hnone rfl hnumber
  exact h.of_entry hafter hs hl le_rfl hnone he hfresh (fun hne => absurd rfl hne)
    ⟨operations, _, hlist, hhappens.of_answers_eq hanswers, hpursues⟩

/-- An operation that returns without having happened gets an entry where it changes nothing. -/
theorem of_late_entry (h : Attended a lists start schedule entries T)
    {operations : List (SlotOperation V H)} (hlist : lists[k]? = some operations)
    (ho : ∀ operation ∈ operations, operation.HandsOff) {operation : SlotOperation V H}
    (hoperation : operations[thread.answers.length]? = some operation) {progress : Progress V}
    (hattends : Attends a lists start schedule entries T k thread progress)
    (hbefore : ∀ earlier, progress ≠ .finished earlier) {answer : Except Panic (Reply V)}
    (hafter : start.before schedule (T + 1) = ⟨(start.before schedule T).session,
      (start.before schedule T).threads.set k
        ⟨(operations.drop (thread.answers.length + 1)).map (·.program a),
          answer :: thread.answers⟩⟩)
    {t : ℕ} (ht : t ≤ T) (hnone : entries t = none)
    (hown : start.IsTurnOf schedule k thread.answers.length t)
    (hslots : a.slotsBefore start schedule (t + 1) = a.slotsBefore start schedule t)
    (hmoves : operation.Moves false (a.slotsBefore start schedule t) answer
      (a.slotsBefore start schedule t)) :
    ∃ entries', Attended a lists start schedule entries' (T + 1) := by
  have hat : operationAt lists k thread.answers.length = some operation := by
    rw [operationAt, hlist]
    exact hoperation
  let e : Effect V := ⟨t, k, thread.answers.length, answer, false⟩
  have hvalid : e.IsValid a lists start schedule t :=
    ⟨rfl, hown, operation, hat, hslots ▸ hmoves, fun h => by cases h⟩
  have hhappens := hattends.happens (e := e) hbefore hnone rfl rfl
  have hfresh : ∀ u f, entries u = some f → f.thread = e.thread → f.number ≠ e.number :=
    fun u f hf hthread => hattends.number_ne hbefore hf hthread
  have honce := (h.placement.add ht hnone hvalid hfresh fun _ i => by
    rw [occupantBefore, hafter]
    rfl).once
  refine ⟨_, h.of_entry hafter h.sound (.refl _) ht hnone hvalid hfresh (fun _ _ => rfl) ?_⟩
  exact ⟨operations, waiting, hlist, hhappens.returns (hhappens.finished _ rfl) honce _,
    Thread.pursues_waiting ho (answer :: thread.answers) _⟩

/-- The return of an operation. -/
theorem returns (h : Attended a lists start schedule entries T)
    (hlists : ∀ list ∈ lists, ∀ operation ∈ list, operation.HandsOff)
    (hk : schedule[T]? = some k)
    {p : Program V H (Reply V)} {rest : List (Program V H (Reply V))}
    {answers : List (Except Panic (Reply V))}
    (hthread : (start.before schedule T).threads[k]? = some ⟨p :: rest, answers⟩)
    {answer : Except Panic (Reply V)}
    (hafter : start.before schedule (T + 1) = ⟨(start.before schedule T).session,
      (start.before schedule T).threads.set k ⟨rest, answer :: answers⟩⟩)
    (hends : ∀ (operation : SlotOperation V H) progress m, p.Follows a (Advances a operation)
      (fun answer progress _ => Ends a operation answer progress) progress m →
      Ends a operation answer progress) :
    ∃ entries', Attended a lists start schedule entries' (T + 1) := by
  obtain ⟨operations, progress, hlist, hattends, hpursues⟩ := h.threads k _ hthread
  obtain ⟨operation, hoperation, hp, rfl⟩ := hpursues
  have ho := hlists operations (List.mem_of_getElem? hlist)
  have hsame : ∀ i, a.occupantBefore start schedule (T + 1) i =
      a.occupantBefore start schedule T i := by
    intro i
    rw [occupantBefore, hafter]
    rfl
  have hend := hends operation progress _ hp
  cases progress with
  | finished earlier =>
    obtain rfl : answer = earlier := hend
    refine ⟨entries, h.of_quiet_turn hafter h.sound (.refl _) (fun _ => rfl) ?_⟩
    exact ⟨operations, waiting, hlist,
      (hattends.returns (hattends.finished _ rfl) h.placement.once _).of_le (Nat.le_succ T),
      Thread.pursues_waiting ho (answer :: answers) _⟩
  | looked m =>
    obtain ⟨t, ht, hown, hfree, rfl⟩ := hattends.looked m rfl
    have hslots : a.slotsBefore start schedule (t + 1) = a.slotsBefore start schedule t :=
      slots_congr_occupant (h.placement.quiet t ht hfree)
    exact h.of_late_entry hlist ho hoperation hattends (looked_ne_finished _) hafter ht.le hfree
      hown hslots hend
  | waiting =>
    have hown : start.IsTurnOf schedule k answers.length T :=
      ⟨hk, _, hthread, by simp, rfl⟩
    exact h.of_late_entry hlist ho hoperation hattends waiting_ne_finished hafter le_rfl
      (h.placement.entries_eq_none le_rfl) hown (slots_congr_occupant hsame) (hend _)

/-- An action of an operation. -/
theorem acts (h : Attended a lists start schedule entries T) (hk : schedule[T]? = some k)
    {act : Action V H} {next : act.Result → Program V H (Reply V)}
    {rest : List (Program V H (Reply V))} {answers : List (Except Panic (Reply V))}
    (hthread : (start.before schedule T).threads[k]? = some ⟨.step act next :: rest, answers⟩)
    (hafter : start.before schedule (T + 1) =
      ⟨(act.perform (start.before schedule T).session).2,
        (start.before schedule T).threads.set k
          ⟨next (act.perform (start.before schedule T).session).1 :: rest, answers⟩⟩) :
    ∃ entries', Attended a lists start schedule entries' (T + 1) := by
  obtain ⟨operations, progress, hlist, hattends, hpursues⟩ := h.threads k _ hthread
  obtain ⟨operation, hoperation, hp, hrest⟩ := hpursues
  obtain ⟨hadmits, progress', hadvances, hnext⟩ := hp _ (.refl _) h.sound
  obtain ⟨hs, hl⟩ := h.sound.perform hadmits
  have hown : start.IsTurnOf schedule k answers.length T := ⟨hk, _, hthread, by simp, rfl⟩
  have hat : operationAt lists k answers.length = some operation := by
    rw [operationAt, hlist]
    exact hoperation
  generalize act.perform (start.before schedule T).session = done at hafter hadvances hnext hs hl
  obtain ⟨result, s⟩ := done
  have hnow : a.slotsBefore start schedule (T + 1) = a.slots s.memory := by
    rw [slotsBefore, hafter]
  generalize hn : s.memory = n at hadvances
  cases hadvances with
  | idles hsame =>
    have hlater := hattends.of_le (Nat.le_succ T)
    refine ⟨entries, h.of_quiet_turn hafter hs hl (fun i => hn ▸ hsame i) ?_⟩
    exact ⟨operations, _, hlist, hlater.of_answers_eq rfl, operation, hoperation, hnext, hrest⟩
  | looks =>
    have hlooks := hattends.looks waiting_ne_finished hown (h.placement.entries_eq_none le_rfl)
    refine ⟨entries, h.of_quiet_turn hafter hs hl (fun i => by rw [hn]) ?_⟩
    exact ⟨operations, _, hlist, hlooks.of_answers_eq rfl, operation, hoperation, hnext, hrest⟩
  | happens hbefore hmay =>
    rename_i reply
    let e : Effect V := ⟨T, k, answers.length, .ok reply, false⟩
    have hvalid : e.IsValid a lists start schedule T := by
      refine ⟨rfl, hown, operation, hat, .answers ?_, fun h => by cases h⟩
      rw [hnow, hn]
      exact hmay
    exact ⟨_, h.of_happening (e := e) hlist hattends hbefore rfl hvalid hafter hs hl rfl
      ⟨operation, hoperation, hnext, hrest⟩⟩
  | declines hseen haccepts hfound hne =>
    rename_i seen o p
    obtain ⟨t, ht, hturn, -, rfl⟩ := hattends.looked seen rfl
    have hslots : a.slotsBefore start schedule (T + 1) = a.slotsBefore start schedule T := by
      rw [hnow, hn]
      rfl
    have hoccupied : (a.slotsBefore start schedule T)[operation.index.toNat]? =
        some (some p.value) := by
      rw [slotsBefore, getElem?_slots, if_pos (lt_of_occupant? hfound), value?, hfound]
      rfl
    let e : Effect V := ⟨T, k, answers.length, .ok operation.declined, true⟩
    have hvalid : e.IsValid a lists start schedule T := by
      have hloses : a.Loses start schedule operation k answers.length T :=
        ⟨t, ht, hturn, o, p, hseen, haccepts, hfound, hne⟩
      refine ⟨rfl, hown, operation, hat, ?_, fun _ => hloses⟩
      rw [hslots]
      exact .declines haccepts hoccupied
    exact ⟨_, h.of_happening (e := e) hlist hattends (looked_ne_finished _) rfl hvalid hafter hs hl
      rfl ⟨operation, hoperation, hnext, hrest⟩⟩

/-- Every turn of a schedule keeps the invariant, with another entry or without. -/
theorem step (h : Attended a lists start schedule entries T)
    (hlists : ∀ list ∈ lists, ∀ operation ∈ list, operation.HandsOff)
    (hk : schedule[T]? = some k) :
    ∃ entries', Attended a lists start schedule entries' (T + 1) := by
  have hsucc := start.before_succ hk
  cases hthread : (start.before schedule T).threads[k]? with
  | none =>
    have hsame : start.before schedule (T + 1) = start.before schedule T := by
      rw [hsucc, Pool.step, hthread]
    refine ⟨entries, h.placement.skip fun i => by rw [occupantBefore, hsame]; rfl, ?_, ?_⟩
    · rw [hsame]
      exact h.sound
    · intro j other hj
      rw [hsame] at hj ⊢
      obtain ⟨operations, progress, hlist, hattends, hpursues⟩ := h.threads j other hj
      exact ⟨operations, progress, hlist, hattends.of_le (Nat.le_succ T), hpursues⟩
  | some thread =>
    rw [Pool.step, hthread] at hsucc
    obtain ⟨todo, answers⟩ := thread
    cases todo with
    | nil =>
      refine ⟨entries, h.of_quiet_turn hsucc h.sound (.refl _) (fun _ => rfl) ?_⟩
      obtain ⟨operations, progress, hlist, hattends, hpursues⟩ := h.threads k _ hthread
      exact ⟨operations, progress, hlist, hattends.of_le (Nat.le_succ T), hpursues⟩
    | cons p rest =>
      cases p with
      | done x => exact h.returns hlists hk hthread hsucc fun _ _ _ hend => hend
      | panic reason => exact h.returns hlists hk hthread hsucc fun _ _ _ hend => hend
      | step act next => exact h.acts hk hthread hsucc

end Attended

/-- Before the first turn. -/
theorem attended_zero (host : H)
    (hlists : ∀ list ∈ lists, ∀ operation ∈ list, operation.HandsOff) (schedule : List ℕ) :
    Attended a lists (.ofOperations a host lists) schedule (fun _ => none) 0 where
  placement := {
    valid := fun t e he => by cases he
    quiet := fun t ht => absurd ht (Nat.not_lt_zero t)
    once := fun t u e f he => by cases he }
  sound := by
    rw [Pool.before_zero]
    exact sound_ofEntries a
  threads k thread hk := by
    rw [Pool.before_zero, Pool.ofOperations, List.getElem?_map, Option.map_eq_some_iff] at hk
    obtain ⟨list, hlist, rfl⟩ := hk
    refine ⟨list, waiting, hlist, ⟨?_, ?_, ?_, ?_⟩, ?_⟩
    · intro number answer hanswer
      simp [Thread.ofPrograms] at hanswer
    · intro t e he
      cases he
    · intro m hm
      cases hm
    · intro answer hanswer
      cases hanswer
    · exact Thread.pursues_waiting (hlists list (List.mem_of_getElem? hlist)) [] _

theorem exists_attended (host : H)
    (hlists : ∀ list ∈ lists, ∀ operation ∈ list, operation.HandsOff) {t : ℕ}
    (ht : t ≤ schedule.length) :
    ∃ entries, Attended a lists (.ofOperations a host lists) schedule entries t := by
  induction t with
  | zero => exact ⟨_, attended_zero host hlists schedule⟩
  | succ t ih =>
    obtain ⟨entries, h⟩ := ih (by omega)
    exact h.step hlists (List.getElem?_eq_getElem (by omega))

namespace Placement

theorem mem_order (h : Placement a lists start schedule entries T) {e : Effect V} :
    e ∈ (List.range T).filterMap entries ↔ entries e.time = some e := by
  rw [List.mem_filterMap]
  constructor
  · rintro ⟨t, -, he⟩
    rwa [(h.valid t e he).2.time_eq]
  · intro he
    exact ⟨e.time, List.mem_range.mpr (h.valid _ e he).1, he⟩

theorem sorted (h : Placement a lists start schedule entries T) :
    ((List.range T).filterMap entries).Pairwise fun e f => e.time < f.time := by
  apply List.pairwise_filterMap.mpr
  apply List.pairwise_lt_range.imp
  intro t u htu e he f hf
  rwa [(h.valid t e he).2.time_eq, (h.valid u f hf).2.time_eq]

theorem pairwise_once (h : Placement a lists start schedule entries T) :
    ((List.range T).filterMap entries).Pairwise fun e f =>
      ¬ (e.thread = f.thread ∧ e.number = f.number) := by
  apply List.pairwise_filterMap.mpr
  apply List.pairwise_lt_range.imp
  rintro t u htu e he f hf ⟨hthread, hnumber⟩
  exact absurd (h.once t u e f he hf hthread hnumber) htu.ne

/-- Entries one after another do what the turns did. -/
theorem replays (h : Placement a lists start schedule entries T) {t : ℕ} (ht : t ≤ T) :
    Replays lists (a.slotsBefore start schedule 0) ((List.range t).filterMap entries)
      (a.slotsBefore start schedule t) := by
  induction t with
  | zero => exact .nil _
  | succ t ih =>
    have ih := ih (by omega)
    rw [List.range_succ, List.filterMap_append]
    cases he : entries t with
    | none =>
      have hslots : a.slotsBefore start schedule (t + 1) = a.slotsBefore start schedule t :=
        slots_congr_occupant (h.quiet t (by omega) he)
      simpa [he, hslots] using ih
    | some e =>
      obtain ⟨operation, hoperation, hmoves, -⟩ := (h.valid t e he).2.moves
      simpa [he] using ih.concat hoperation hmoves

/-- A thread is at one operation at a time. -/
theorem eq_of_isTurnOf {k l n p t : ℕ} (h : start.IsTurnOf schedule k n t)
    (h' : start.IsTurnOf schedule l p t) : k = l ∧ n = p := by
  obtain ⟨hk, thread, hthread, -, rfl⟩ := h
  obtain ⟨hl, other, hother, -, rfl⟩ := h'
  rw [hk] at hl
  cases hl
  rw [hthread] at hother
  cases hother
  exact ⟨rfl, rfl⟩

/-- Between the two turns of an operation that is lost, another one has changed its slot. -/
theorem exists_change (h : Placement a lists start schedule entries T) {e : Effect V}
    (he : entries e.time = some e) {operation : SlotOperation V H} {earlier : ℕ}
    (hlt : earlier < e.time) (hturn : start.IsTurnOf schedule e.thread e.number earlier)
    (hne : a.occupantBefore start schedule e.time operation.index ≠
      a.occupantBefore start schedule earlier operation.index) :
    ∃ f ∈ (List.range T).filterMap entries, earlier < f.time ∧ f.time < e.time ∧
      a.occupantBefore start schedule (f.time + 1) operation.index ≠
        a.occupantBefore start schedule f.time operation.index := by
  by_contra hnone
  have hsame : ∀ t, earlier ≤ t → t ≤ e.time →
      a.occupantBefore start schedule t operation.index =
        a.occupantBefore start schedule earlier operation.index := by
    intro t hle
    induction t, hle using Nat.le_induction with
    | base => exact fun _ => rfl
    | succ t hle ih =>
      intro ht
      rw [← ih (by omega)]
      cases hf : entries t with
      | none => exact h.quiet t (ht.trans (h.valid _ e he).1.le) hf _
      | some f =>
        have hvalid := (h.valid t f hf).2
        obtain rfl := hvalid.time_eq
        by_cases hte : earlier = f.time
        · -- the earlier turn is of the operation itself, which has its entry elsewhere
          subst hte
          obtain ⟨hthread, hnumber⟩ := eq_of_isTurnOf hvalid.own hturn
          have := h.once _ _ f e hf he hthread hnumber
          omega
        · by_contra hchange
          exact hnone ⟨f, h.mem_order.mpr hf, by omega, by omega, hchange⟩
  exact hne (hsame e.time hlt.le le_rfl)

end Placement

theorem Pool.before_length (start : Pool V H α) (schedule : List ℕ) :
    start.before schedule schedule.length = start.run schedule := by
  rw [before, List.take_length]

/-- A thread that has a turn is still there at the end. -/
theorem Pool.IsTurnOf.exists_thread {k number t : ℕ} (h : start.IsTurnOf schedule k number t) :
    ∃ thread, (start.run schedule).threads[k]? = some thread := by
  obtain ⟨-, thread, hthread, -⟩ := h
  have hlt := (List.getElem?_eq_some_iff.mp hthread).1
  rw [Pool.before, Pool.length_threads_run] at hlt
  rw [← Pool.length_threads_run start schedule] at hlt
  exact ⟨_, List.getElem?_eq_getElem hlt⟩

namespace Attended

theorem complete (h : Attended a lists start schedule entries schedule.length) {k number : ℕ}
    {thread : Thread V H (Reply V)} {answer : Except Panic (Reply V)}
    (hk : (start.run schedule).threads[k]? = some thread)
    (hanswer : thread.answers.reverse[number]? = some answer) :
    ∃ e ∈ (List.range schedule.length).filterMap entries,
      e.thread = k ∧ e.number = number ∧ e.answer = answer := by
  rw [← Pool.before_length] at hk
  obtain ⟨operations, progress, -, hattends, -⟩ := h.threads k thread hk
  obtain ⟨t, e, he, hrest⟩ := hattends.answered number answer hanswer
  refine ⟨e, h.placement.mem_order.mpr ?_, hrest⟩
  rwa [(h.placement.valid t e he).2.time_eq]

theorem faithful (h : Attended a lists start schedule entries schedule.length) {e : Effect V}
    (he : entries e.time = some e) :
    ∃ thread, (start.run schedule).threads[e.thread]? = some thread ∧
      (thread.answers.reverse[e.number]? = some e.answer ∨ thread.answers.length = e.number) := by
  obtain ⟨thread, hthread⟩ := (h.placement.valid _ e he).2.own.exists_thread
  refine ⟨thread, hthread, ?_⟩
  rw [← Pool.before_length] at hthread
  obtain ⟨operations, progress, -, hattends, -⟩ := h.threads e.thread thread hthread
  rcases hattends.recorded _ e he rfl with hanswer | ⟨hnumber, -⟩
  · exact .inl hanswer
  · exact .inr hnumber.symm

/-- After all turns the entries make up a linearization. -/
theorem linearizes (h : Attended a lists start schedule entries schedule.length) :
    a.Linearizes start schedule lists ((List.range schedule.length).filterMap entries) where
  sorted := h.placement.sorted
  once := h.placement.pairwise_once
  own e he := (h.placement.valid _ e (h.placement.mem_order.mp he)).2.own
  complete k thread number answer hk hanswer := h.complete hk hanswer
  faithful e he := h.faithful (h.placement.mem_order.mp he)
  replays := by
    have hreplays := h.placement.replays le_rfl
    rwa [slotsBefore, slotsBefore, Pool.before_zero, Pool.before_length] at hreplays
  excused e he hlost := by
    have he := h.placement.mem_order.mp he
    obtain ⟨operation, hoperation, -, hloses⟩ := (h.placement.valid _ e he).2.moves
    obtain ⟨earlier, hlt, hturn, seen, found, hseen, haccepts, hfound, hne⟩ := hloses hlost
    refine ⟨operation, hoperation, earlier, hlt, hturn, ⟨seen, hseen, haccepts⟩, ?_⟩
    apply h.placement.exists_change he hlt hturn
    rw [hseen, hfound]
    intro hsame
    cases hsame
    exact hne rfl

end Attended

/-- Whatever threads do to slots with operations whose callbacks keep their hands off the array, and
however their actions interleave, there is a linearization. -/
theorem SlotArray.exists_linearization (a : SlotArray) (host : H)
    {lists : List (List (SlotOperation V H))}
    (h : ∀ list ∈ lists, ∀ operation ∈ list, operation.HandsOff) (schedule : List ℕ) :
    ∃ order, a.Linearizes (.ofOperations a host lists) schedule lists order := by
  obtain ⟨entries, hattended⟩ := exists_attended (a := a) host h (le_refl schedule.length)
  exact ⟨_, hattended.linearizes⟩

end Placement

/-- One thread fills a slot and updates it; another one stores into it. -/
def contending : List (List (SlotOperation ℕ Unit)) :=
  [[.insert 0 1, .update 0 (fun v => .done (v + 1)) fun _ => .done true], [.set 0 7]]

/-- The store comes between the load and the exchange of the update. -/
def overlapping : List ℕ := [0, 0, 0, 0, 0, 0, 0, 0, 0, 1, 1, 1, 1, 0, 0]

/-- The update declines, and the schedule has a linearization. -/
theorem exists_linearization_of_lost_update :
    (∃ order, (SlotArray.mk 1).Linearizes (.ofOperations ⟨1⟩ () contending) overlapping
      contending order) ∧
      ((Pool.ofOperations ⟨1⟩ () contending).run overlapping).threads.map Thread.answers =
        [[.ok (.outcome .declined), .ok (.flag true)], [.ok (.flag false)]] := by
  have h : ∀ list ∈ contending, ∀ operation ∈ list, operation.HandsOff := by
    simp [contending, SlotOperation.HandsOff, Program.HandsOff]
  exact ⟨(SlotArray.mk 1).exists_linearization () h overlapping, rfl⟩

end AtomicSlots
