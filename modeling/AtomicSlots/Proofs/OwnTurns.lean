import AtomicSlots.Proofs.CellClients
import AtomicSlots.Proofs.Scan

/-!
# Turns of one's own

Between two turns of a thread the others may have any number of turns, but they take none of its
work away and add none to it. So a program that performs at most `n` actions has ended by the time
its thread has had `n` turns, wherever in a schedule these turns are. What it has seen by then are
memories of moments in between, each of them the memory at one of its turns.
-/
namespace AtomicSlots

variable {V H α β : Type}

open SlotArray

namespace Program

/-- The program performs at most so many actions. -/
def Within : Program V H α → ℕ → Prop
  | done _, _ | panic _, _ => True
  | step _ _, 0 => False
  | step _ next, n + 1 => ∀ r, (next r).Within n

variable {p : Program V H α} {m n : ℕ}

@[simp] theorem within_done (x : α) (n : ℕ) : (done x : Program V H α).Within n := trivial

theorem Within.mono (h : p.Within m) (hmn : m ≤ n) : p.Within n := by
  induction p generalizing m n with
  | done _ => trivial
  | panic _ => trivial
  | step act next ih =>
    cases m with
    | zero => exact h.elim
    | succ m =>
      obtain ⟨n, rfl⟩ : ∃ k, n = k + 1 := ⟨n - 1, by omega⟩
      exact fun r => ih r (h r) (by omega)

theorem Within.bind {f : α → Program V H β} (hp : p.Within m) (hf : ∀ x, (f x).Within n) :
    (p >>= f).Within (m + n) := by
  induction p generalizing m with
  | done x => exact (hf x).mono (by omega)
  | panic _ => trivial
  | step act next ih =>
    cases m with
    | zero => exact hp.elim
    | succ m =>
      rw [Nat.add_right_comm]
      exact fun r => ih r (hp r)

theorem Within.map (h : p.Within n) (f : α → β) : (f <$> p).Within n :=
  h.bind (n := 0) fun x => within_done (f x) 0

theorem within_perform (act : Action V H) : (perform act).Within 1 := fun _ => trivial

end Program

open Program

/-- A segment is there, or it takes a publication and an event to bring it about. -/
theorem within_segmentOrFresh (e : UInt64) : (segmentOrFresh e : Program V H ℕ).Within 3 := by
  refine (within_perform _).bind (n := 2) fun found => ?_
  cases found with
  | some segment => trivial
  | none =>
    refine (within_perform _).bind (n := 1) fun publication => ?_
    obtain ⟨fresh, found⟩ := publication
    cases found with
    | none => exact fun _ => trivial
    | some segment => exact fun _ => trivial

theorem within_firstInSegment (segment n : ℕ) (offset : UInt64) :
    (firstInSegment segment n offset : Program V H (Option (UInt64 × Occupant V))).Within n := by
  induction n generalizing offset with
  | zero => trivial
  | succ n ih =>
    rw [firstInSegment, Nat.add_comm]
    refine (within_perform _).bind fun content => ?_
    cases content with
    | none => exact ih _
    | some o => trivial

namespace SlotArray

variable {a : SlotArray} {i : UInt64}

/-- One action for the segment, and one for each of its cells. -/
theorem within_scan (a : SlotArray) (n : ℕ) (i : UInt64) :
    (a.scan n i : Program V H (Option (UInt64 × Occupant V))).Within (33 * n) := by
  induction n generalizing i with
  | zero => trivial
  | succ n ih =>
    rw [scan]
    split
    · rename_i hi
      rw [show 33 * (n + 1) = 1 + (32 + 33 * n) by omega]
      refine (within_perform _).bind fun found => ?_
      cases found with
      | none => exact (ih _).mono (by omega)
      | some segment =>
        have hlength := toNat_restOfSegment hi
        refine ((within_firstInSegment segment _ _).mono (by omega)).bind fun found => ?_
        cases found with
        | none => exact ih _
        | some item => trivial
    · trivial

theorem within_firstFrom (a : SlotArray) (i : UInt64) :
    (a.firstFrom i : Program V H (Option (UInt64 × Occupant V))).Within
      (33 * a.segmentCount.toNat) := a.within_scan _ i

theorem within_access_fill {use : Cell → Program V H α} {n : ℕ} (h : ∀ cell, (use cell).Within n) :
    (a.access .fill i use).Within (3 + n) := by
  by_cases hi : i < a.capacity
  · rw [access_fill_of_lt hi]
    exact (within_segmentOrFresh _).bind fun segment => (h _).map some
  · rw [access_of_le (UInt64.not_lt.mp hi)]
    trivial

end SlotArray

/-- A program may take note of the memory that one of its actions finds. -/
def Sees : Protocol V H (Memory V → Prop) := fun seen _ m _ seen' => ∀ k, seen' k → seen k ∨ k = m

theorem Sees.nothing (seen : Memory V → Prop) (act : Action V H) (m n : Memory V) :
    Sees seen act m n seen := fun _ h => .inl h

theorem Sees.idle (a : SlotArray) (seen : Memory V → Prop) : (Sees : Protocol V H _).Idle a seen :=
  ⟨fun _ _ => nothing seen _ _ _, fun _ _ _ => nothing seen _ _ _, fun _ _ => nothing seen _ _ _⟩

/-- The memories that were seen before, and the present one. -/
def Sees.also (seen : Memory V → Prop) (m : Memory V) : Memory V → Prop := fun k => seen k ∨ k = m

theorem Sees.sees_also (seen : Memory V → Prop) (act : Action V H) (m n : Memory V) :
    Sees seen act m n (also seen m) := fun _ h => h

namespace Pool

variable [Journal H] {a : SlotArray} {pool : Pool V H α} {k j : ℕ}

theorem getElem?_step_of_ne (h : j ≠ k) : (pool.step j).threads[k]? = pool.threads[k]? := by
  rw [step]
  cases pool.threads[j]? with
  | none => rfl
  | some thread => exact List.getElem?_set_ne h

theorem getElem?_run_of_not_mem {schedule : List ℕ} (h : k ∉ schedule) :
    (pool.run schedule).threads[k]? = pool.threads[k]? := by
  induction schedule generalizing pool with
  | nil => rfl
  | cons j rest ih =>
    rw [List.mem_cons, not_or] at h
    rw [run_cons, ih h.2, getElem?_step_of_ne (Ne.symm h.1)]

/-- The turn of a thread that is at an action. -/
theorem step_of_acts {act : Action V H} {next : act.Result → Program V H α}
    {rest : List (Program V H α)} {answers : List (Except Panic α)}
    (hk : pool.threads[k]? = some ⟨.step act next :: rest, answers⟩) :
    (pool.step k).session = (act.perform pool.session).2 ∧
      (pool.step k).threads[k]? =
        some ⟨next (act.perform pool.session).1 :: rest, answers⟩ := by
  rw [step_of_thread hk]
  exact ⟨rfl, List.getElem?_set_self (List.getElem?_eq_some_iff.mp hk).1⟩

/-- At some moment of a schedule, its beginning and its end among them, this holds of the memory. -/
def Sometime (pool : Pool V H α) (schedule : List ℕ) (P : Memory V → Prop) : Prop :=
  ∃ early, early <+: schedule ∧ P (pool.run early).session.memory

theorem Sometime.of_eq {schedule : List ℕ} {m : Memory V} (h : pool.Sometime schedule (· = m))
    {P : Memory V → Prop} (hP : P m) : pool.Sometime schedule P := by
  obtain ⟨early, hearly, rfl⟩ := h
  exact ⟨early, hearly, hP⟩

theorem Sometime.append {first rest : List ℕ} {P : Memory V → Prop}
    (h : (pool.run first).Sometime rest P) : pool.Sometime (first ++ rest) P := by
  obtain ⟨early, hearly, hP⟩ := h
  exact ⟨first ++ early, (List.prefix_append_right_inj _).mpr hearly, by rwa [run_append]⟩

end Pool

/-- An action that a thread has performed, with the memory that it found and the one that it left. -/
structure Performed (V H : Type) where
  act : Action V H
  found : Memory V
  left : Memory V

/-- Actions that move the state of a protocol, one after another. -/
inductive Protocol.Moves {G : Type} (R : Protocol V H G) : G → List (Performed V H) → G → Prop
  | nil {g : G} : Moves R g [] g
  | cons {g g' g'' : G} {p : Performed V H} {rest : List (Performed V H)} :
      R g p.act p.found p.left g' → Moves R g' rest g'' → Moves R g (p :: rest) g''

theorem Sees.seen_of_moves {seen seen' : Memory V → Prop} {actions : List (Performed V H)}
    (h : (Sees : Protocol V H _).Moves seen actions seen') {m : Memory V} (hm : seen' m) :
    seen m ∨ ∃ p ∈ actions, p.found = m := by
  induction h with
  | nil => exact .inl hm
  | cons hsees _ ih =>
    rcases ih hm with hm | ⟨p, hp, rfl⟩
    · exact (hsees m hm).imp_right fun h => ⟨_, List.mem_cons_self, h.symm⟩
    · exact .inr ⟨p, List.mem_cons_of_mem _ hp, rfl⟩

namespace Pool

variable [Journal H] {a : SlotArray} {pool : Pool V H α} {k j : ℕ}

/-- The actions that a thread performs in the course of a schedule. -/
def performed (pool : Pool V H α) (k : ℕ) : List ℕ → List (Performed V H)
  | [] => []
  | j :: schedule =>
    let own := if j = k then pool.action? k else none
    own.toList.map (⟨·, pool.session.memory, (pool.step k).session.memory⟩) ++
      (pool.step j).performed k schedule

theorem performed_append (first rest : List ℕ) :
    pool.performed k (first ++ rest) =
      pool.performed k first ++ (pool.run first).performed k rest := by
  induction first generalizing pool with
  | nil => rfl
  | cons j first ih => simp only [List.cons_append, performed, ih, List.append_assoc, run_cons]

theorem performed_of_not_mem {schedule : List ℕ} (h : k ∉ schedule) :
    pool.performed k schedule = [] := by
  induction schedule generalizing pool with
  | nil => rfl
  | cons j schedule ih =>
    rw [List.mem_cons, not_or] at h
    simp [performed, Ne.symm h.1, ih h.2]

theorem performed_of_acts {act : Action V H} {next : act.Result → Program V H α}
    {rest : List (Program V H α)} {answers : List (Except Panic α)}
    (hk : pool.threads[k]? = some ⟨.step act next :: rest, answers⟩) (schedule : List ℕ) :
    pool.performed k (k :: schedule) =
      ⟨act, pool.session.memory, (act.perform pool.session).2.memory⟩ ::
        (pool.step k).performed k schedule := by
  have haction : pool.action? k = some act := by rw [action?, hk]
  simp [performed, haction, (step_of_acts hk).1]

/-- What an action finds and what it leaves are memories of moments. -/
theorem sometime_of_mem_performed {schedule : List ℕ} {p : Performed V H}
    (hp : p ∈ pool.performed k schedule) :
    pool.Sometime schedule (· = p.found) ∧ pool.Sometime schedule (· = p.left) := by
  induction schedule generalizing pool with
  | nil => cases hp
  | cons j schedule ih =>
    rcases List.mem_append.mp hp with hp | hp
    · obtain ⟨act, hact, rfl⟩ := List.mem_map.mp hp
      have hj : j = k := by
        by_contra hj
        simp [hj] at hact
      subst hj
      exact ⟨⟨[], List.nil_prefix, rfl⟩, ⟨[j], ⟨schedule, rfl⟩, rfl⟩⟩
    · have hrest : ∀ P, (pool.step j).Sometime schedule P → pool.Sometime (j :: schedule) P := by
        rintro P ⟨early, hearly, hP⟩
        exact ⟨j :: early, List.cons_prefix_cons.mpr ⟨rfl, hearly⟩, hP⟩
      exact (ih hp).imp (hrest _) (hrest _)

/-- A program that performs at most `n` actions has ended by the time its thread has had `n` turns.
The actions that the thread has performed by then have moved the state of the protocol that the
program follows. -/
theorem exists_return_moves {G : Type} {R : Protocol V H G} (hpool : pool.Lawful a)
    {p : Program V H β} {f : β → Program V H α} {rest : List (Program V H α)}
    {answers : List (Except Panic α)} (hk : pool.threads[k]? = some ⟨(p >>= f) :: rest, answers⟩)
    {n : ℕ} (hn : p.Within n) {Q : β → G → Memory V → Prop} {g : G}
    (hp : p.Follows a R (fun r g m => ∃ x, r = .ok x ∧ Q x g m) g pool.session.memory)
    {schedule : List ℕ} (hcount : n ≤ schedule.count k) :
    ∃ early late x g', schedule = early ++ late ∧ early.count k ≤ n ∧
      (pool.run early).threads[k]? = some ⟨f x :: rest, answers⟩ ∧
      Q x g' (pool.run early).session.memory ∧ R.Moves g (pool.performed k early) g' := by
  induction p generalizing pool n g schedule with
  | done x =>
    obtain ⟨y, hxy, hQ⟩ := hp
    cases hxy
    exact ⟨[], schedule, x, g, rfl, by simp, hk, hQ, .nil⟩
  | panic reason =>
    obtain ⟨y, hxy, -⟩ := hp
    cases hxy
  | step act next ih =>
    cases n with
    | zero => exact hn.elim
    | succ n =>
      -- the others have their turns until the thread has its own
      have hmem : k ∈ schedule := List.count_pos_iff.mp (by omega)
      obtain ⟨others, schedule, rfl, hothers⟩ := List.eq_append_cons_of_mem hmem
      rw [List.count_append, List.count_eq_zero.mpr hothers, List.count_cons_self] at hcount
      have hcount' : n ≤ schedule.count k := by omega
      have hthread : (pool.run others).threads[k]? = _ := (getElem?_run_of_not_mem hothers).trans hk
      have hothers' := hpool.run others
      obtain ⟨hsession, hnext⟩ := step_of_acts hthread
      obtain ⟨-, g₁, hmove, hfollows⟩ :=
        hp (pool.run others).session (hpool.later_run others) hothers'.sound
      rw [← hsession] at hfollows
      obtain ⟨early, late, x, g', rfl, hle, hend, hQ, hmoves⟩ :=
        ih _ (hothers'.step k) hnext (hn _) hfollows hcount'
      refine ⟨others ++ k :: early, late, x, g', by simp, ?_, ?_, ?_, ?_⟩
      · rw [List.count_append, List.count_eq_zero.mpr hothers, List.count_cons_self]
        omega
      · rwa [run_append]
      · rwa [run_append]
      · rw [performed_append, performed_of_not_mem hothers, List.nil_append,
          performed_of_acts hthread]
        exact .cons hmove hmoves

/-- What a program has seen when it has ended was so at moments in between. -/
theorem exists_return (hpool : pool.Lawful a) {p : Program V H β} {f : β → Program V H α}
    {rest : List (Program V H α)} {answers : List (Except Panic α)}
    (hk : pool.threads[k]? = some ⟨(p >>= f) :: rest, answers⟩) {n : ℕ} (hn : p.Within n)
    {Q : β → (Memory V → Prop) → Memory V → Prop}
    (hp : p.Follows a Sees (fun r seen m => ∃ x, r = .ok x ∧ Q x seen m) (fun _ => False)
      pool.session.memory)
    {schedule : List ℕ} (hcount : n ≤ schedule.count k) :
    ∃ early late x seen, schedule = early ++ late ∧ early.count k ≤ n ∧
      (pool.run early).threads[k]? = some ⟨f x :: rest, answers⟩ ∧
      Q x seen (pool.run early).session.memory ∧
      ∀ P : Memory V → Prop, (∃ m, seen m ∧ P m) → pool.Sometime early P := by
  obtain ⟨early, late, x, seen, hschedule, hle, hend, hQ, hmoves⟩ :=
    exists_return_moves hpool hk hn hp hcount
  refine ⟨early, late, x, seen, hschedule, hle, hend, hQ, ?_⟩
  rintro P ⟨m, hm, hP⟩
  rcases Sees.seen_of_moves hmoves hm with hm | ⟨q, hq, rfl⟩
  · exact hm.elim
  · exact (sometime_of_mem_performed hq).1.of_eq hP

end Pool

/-! A thread comes to the end of all that it has to do. -/

/-- Programs that end, with the turns that take their answers, within so many turns. -/
def Thread.EndsWithin : List (Program V H α) → ℕ → Prop
  | [], _ => True
  | p :: rest, n => ∃ m l, p.Within m ∧ EndsWithin rest l ∧ m + 1 + l ≤ n

theorem Thread.endsWithin_of_forall {n : ℕ} {programs : List (Program V H α)}
    (h : ∀ p ∈ programs, p.Within n) : EndsWithin programs ((n + 1) * programs.length) := by
  induction programs with
  | nil => trivial
  | cons p rest ih =>
    refine ⟨n, _, h p (by simp), ih fun q hq => h q (by simp [hq]), ?_⟩
    rw [List.length_cons, Nat.mul_succ]
    omega

/-- A turn of a thread is a step towards its end. -/
theorem Thread.EndsWithin.step [Journal H] {thread : Thread V H α} {n : ℕ}
    (h : EndsWithin thread.todo (n + 1)) (s : Session V H) :
    EndsWithin (thread.step s).1.todo n := by
  obtain ⟨todo, answers⟩ := thread
  cases todo with
  | nil => trivial
  | cons p rest =>
    obtain ⟨m, l, hp, hrest, hle⟩ := h
    have hless : ∀ {l n : ℕ}, EndsWithin rest l → l ≤ n → EndsWithin rest n := by
      intro l n hl hln
      cases rest with
      | nil => trivial
      | cons q rest =>
        obtain ⟨m, k, hq, hrest, hle⟩ := hl
        exact ⟨m, k, hq, hrest, by omega⟩
    cases p with
    | done x => exact hless hrest (by omega)
    | panic reason => exact hless hrest (by omega)
    | step act next =>
      cases m with
      | zero => exact hp.elim
      | succ m => exact ⟨m, l, hp _, hrest, by omega⟩

/-- A thread that has had its turns has nothing left to do. -/
theorem Pool.todo_eq_nil_of_count [Journal H] {pool : Pool V H α} {k n : ℕ} {schedule : List ℕ}
    (h : ∀ thread, pool.threads[k]? = some thread → Thread.EndsWithin thread.todo n)
    (hcount : n ≤ schedule.count k) {thread : Thread V H α}
    (hk : (pool.run schedule).threads[k]? = some thread) : thread.todo = [] := by
  induction schedule generalizing pool n with
  | nil =>
    obtain rfl : n = 0 := by simpa using hcount
    have hend := h thread hk
    cases htodo : thread.todo with
    | nil => rfl
    | cons p rest =>
      rw [htodo] at hend
      obtain ⟨m, l, -, -, hle⟩ := hend
      omega
  | cons j schedule ih =>
    by_cases hj : j = k
    · subst hj
      rw [List.count_cons_self] at hcount
      refine ih (n := n - 1) ?_ (by omega) hk
      intro next hnext
      cases hold : pool.threads[j]? with
      | none =>
        rw [step, hold] at hnext
        simp [hold] at hnext
      | some old =>
        have hlt := (List.getElem?_eq_some_iff.mp hold).1
        rw [step_of_thread hold, List.getElem?_set_self hlt] at hnext
        cases hnext
        cases n with
        | zero =>
          have hend := h old hold
          obtain ⟨todo, answers⟩ := old
          cases todo with
          | nil => trivial
          | cons p rest =>
            obtain ⟨m, l, -, -, hle⟩ := hend
            omega
        | succ n => exact (h old hold).step _
    · rw [List.count_cons_of_ne hj] at hcount
      exact ih (fun next hnext => h next (by rwa [getElem?_step_of_ne hj] at hnext)) hcount hk

end AtomicSlots
