import AtomicSlots.Proofs.Rest

/-!
# Turns of threads

A pool changes by turns, and a turn is one of three things: the thread rests because there is
nothing left to do for it, its operation returns, or its operation performs one action. What holds
after every schedule is proved by looking at these. To let the threads finish one after another is
to follow a schedule too.
-/
namespace AtomicSlots

variable {V H α : Type}

namespace Program

/-- The program that has come to an end. -/
def ofEnd : Except Panic α → Program V H α
  | .ok x => .done x
  | .error reason => .panic reason

@[simp] theorem follows_ofEnd [Journal H] {G : Type} {a : SlotArray} {R : Protocol V H G}
    {Q : Except Panic α → G → Memory V → Prop} {g : G} {m : Memory V} (answer : Except Panic α) :
    (ofEnd answer : Program V H α).Follows a R Q g m ↔ Q answer g m := by cases answer <;> rfl

end Program

namespace Thread

variable [Journal H]

theorem exists_iterate_run (p : Program V H α) (rest : List (Program V H α))
    (answers : List (Except Panic α)) (s : Session V H) :
    ∃ n, (Function.uncurry step)^[n] (⟨p :: rest, answers⟩, s) =
      (⟨rest, (p.run s).1 :: answers⟩, (p.run s).2) := by
  induction p generalizing s with
  | done x => exact ⟨1, rfl⟩
  | panic reason => exact ⟨1, rfl⟩
  | step act next ih =>
    obtain ⟨n, hn⟩ := ih (act.perform s).1 (act.perform s).2
    exact ⟨n + 1, hn⟩

/-- A thread that is alone finishes by making steps. -/
theorem exists_iterate_finish (thread : Thread V H α) (s : Session V H) :
    ∃ n, (Function.uncurry step)^[n] (thread, s) = thread.finish s := by
  obtain ⟨todo, answers⟩ := thread
  induction todo generalizing s answers with
  | nil => exact ⟨0, rfl⟩
  | cons p rest ih =>
    obtain ⟨n, hn⟩ := exists_iterate_run p rest answers s
    obtain ⟨l, hl⟩ := ih (p.run s).2 ((p.run s).1 :: answers)
    refine ⟨l + n, ?_⟩
    rw [Function.iterate_add_apply, hn, hl]
    rfl

@[simp] theorem todo_finish (thread : Thread V H α) (s : Session V H) :
    (thread.finish s).1.todo = [] := rfl

end Thread

namespace Pool

theorem set_of_thread {pool : Pool V H α} {k : ℕ} {thread : Thread V H α}
    (hk : pool.threads[k]? = some thread) : pool.threads.set k thread = pool.threads := by
  obtain ⟨hlt, rfl⟩ := List.getElem?_eq_some_iff.mp hk
  exact List.set_getElem_self hlt

/-- The action that a thread is to perform next. -/
def action? (pool : Pool V H α) (k : ℕ) : Option (Action V H) :=
  match pool.threads[k]? with
  | some ⟨.step act _ :: _, _⟩ => some act
  | _ => none

theorem action?_of_isIdle {pool : Pool V H α} (h : pool.isIdle = true) (k : ℕ) :
    pool.action? k = none := by
  rw [action?]
  cases hk : pool.threads[k]? with
  | none => rfl
  | some thread =>
    have htodo := List.all_eq_true.mp h thread (List.mem_of_getElem? hk)
    obtain ⟨todo, answers⟩ := thread
    obtain rfl : todo = [] := by simpa using htodo
    rfl

variable [Journal H]

/-- What the turn of a thread can make of a pool. -/
inductive Turn (pool : Pool V H α) (k : ℕ) : Pool V H α → Prop
  | rests (h : ∀ thread, pool.threads[k]? = some thread → thread.todo = []) : Turn pool k pool
  | returns (answer : Except Panic α) {rest : List (Program V H α)}
      {answers : List (Except Panic α)}
      (hk : pool.threads[k]? = some ⟨.ofEnd answer :: rest, answers⟩) :
      Turn pool k ⟨pool.session, pool.threads.set k ⟨rest, answer :: answers⟩⟩
  | acts {act : Action V H} {next : act.Result → Program V H α} {rest : List (Program V H α)}
      {answers : List (Except Panic α)}
      (hk : pool.threads[k]? = some ⟨.step act next :: rest, answers⟩) :
      Turn pool k ⟨(act.perform pool.session).2,
        pool.threads.set k ⟨next (act.perform pool.session).1 :: rest, answers⟩⟩

theorem step_of_thread {pool : Pool V H α} {k : ℕ} {thread : Thread V H α}
    (hk : pool.threads[k]? = some thread) :
    pool.step k =
      ⟨(thread.step pool.session).2, pool.threads.set k (thread.step pool.session).1⟩ := by
  simp [step, hk]

/-- Every step of a pool is a turn. -/
theorem turn (pool : Pool V H α) (k : ℕ) : pool.Turn k (pool.step k) := by
  cases hk : pool.threads[k]? with
  | none =>
    have hstep : pool.step k = pool := by simp [step, hk]
    rw [hstep]
    exact .rests fun thread hthread => by simp [hk] at hthread
  | some thread =>
    rw [step_of_thread hk]
    obtain ⟨todo, answers⟩ := thread
    cases todo with
    | nil =>
      have hrests : ∀ thread, pool.threads[k]? = some thread → thread.todo = [] := by
        intro other hother
        rw [hk] at hother
        cases hother
        rfl
      change Turn pool k ⟨pool.session, pool.threads.set k ⟨[], answers⟩⟩
      rw [set_of_thread hk]
      exact .rests hrests
    | cons p rest =>
      cases p with
      | done x => exact .returns (.ok x) hk
      | panic reason => exact .returns (.error reason) hk
      | step act next => exact .acts hk

/-- What every turn keeps holds after every schedule. -/
theorem run_induction {I : Pool V H α → Prop} (hstep : ∀ pool k, I pool → I (pool.step k))
    {pool : Pool V H α} (h : I pool) (schedule : List ℕ) : I (pool.run schedule) := by
  induction schedule generalizing pool with
  | nil => exact h
  | cons k rest ih => exact ih (hstep pool k h)

/-- A thread that has all the turns goes on as if it were alone. -/
theorem run_replicate {pool : Pool V H α} {k : ℕ} {thread : Thread V H α}
    (hk : pool.threads[k]? = some thread) (n : ℕ) :
    pool.run (.replicate n k) =
      ⟨((Function.uncurry Thread.step)^[n] (thread, pool.session)).2,
        pool.threads.set k ((Function.uncurry Thread.step)^[n] (thread, pool.session)).1⟩ := by
  have hlt := (List.getElem?_eq_some_iff.mp hk).1
  induction n generalizing pool thread with
  | zero =>
    change pool = ⟨pool.session, pool.threads.set k thread⟩
    rw [set_of_thread hk]
  | succ n ih =>
    have hnext : (pool.step k).threads[k]? = some (thread.step pool.session).1 := by
      rw [step_of_thread hk]
      exact List.getElem?_set_self hlt
    rw [List.replicate_succ, run_cons, ih hnext (List.getElem?_eq_some_iff.mp hnext).1,
      step_of_thread hk, List.set_set]
    rfl

/-- To let threads finish one after another is to follow a schedule. -/
theorem exists_run_eq_finishAll (threads finished : List (Thread V H α)) (s : Session V H) :
    ∃ schedule, finishAll threads finished s = run ⟨s, finished.reverse ++ threads⟩ schedule := by
  induction threads generalizing finished s with
  | nil => exact ⟨[], by simp [finishAll]⟩
  | cons thread rest ih =>
    obtain ⟨n, hn⟩ := thread.exists_iterate_finish s
    obtain ⟨schedule, hschedule⟩ := ih ((thread.finish s).1 :: finished) (thread.finish s).2
    refine ⟨.replicate n finished.length ++ schedule, ?_⟩
    have hk : (finished.reverse ++ thread :: rest)[finished.length]? = some thread := by simp
    rw [run_append, run_replicate hk, hn, finishAll]
    simpa using hschedule

theorem isIdle_finishAll (threads finished : List (Thread V H α)) (s : Session V H)
    (h : ∀ thread ∈ finished, thread.todo = []) :
    (finishAll threads finished s).isIdle = true := by
  induction threads generalizing finished s with
  | nil => simpa [finishAll, isIdle] using h
  | cons thread rest ih =>
    apply ih
    simpa using h

/-- To let threads take turns until all is done is to follow a schedule after which they are
idle. -/
theorem exists_run_eq_takeTurns (pool : Pool V H α) (first : ℕ) :
    ∃ schedule, pool.takeTurns first = pool.run schedule ∧ (pool.run schedule).isIdle = true := by
  obtain ⟨turns, hturns⟩ :=
    repeatRun_eq_run ((List.range pool.threads.length).rotateLeft first) patience pool
  obtain ⟨rest, hrest⟩ :=
    exists_run_eq_finishAll (pool.run turns).threads [] (pool.run turns).session
  have hidle := isIdle_finishAll (pool.run turns).threads [] (pool.run turns).session (by simp)
  refine ⟨turns ++ rest, ?_, ?_⟩
  · rw [takeTurns, hturns, run_append]
    exact hrest
  · rw [hrest] at hidle
    rwa [run_append]

end Pool

/-! Pools whose threads follow protocols, each with a state of its own. Between its operations, a
thread has the state of rest. -/

section Follows

variable [Journal H] {G : Type} {a : SlotArray} {R : Protocol V H G} {rest : G}

def Thread.Follows (a : SlotArray) (R : Protocol V H G) (rest : G) :
    Thread V H α → G → Memory V → Prop
  | ⟨[], _⟩, g, _ => g = rest
  | ⟨p :: later, _⟩, g, m =>
    p.Follows a R (fun _ g _ => g = rest) g m ∧ ∀ q ∈ later, q.ComesToRest a R rest

theorem Thread.Follows.later {thread : Thread V H α} {g : G} {m n : Memory V}
    (h : thread.Follows a R rest g m) (hl : m.Later n) : thread.Follows a R rest g n := by
  obtain ⟨todo, answers⟩ := thread
  cases todo with
  | nil => exact h
  | cons p later => exact ⟨Program.Follows.later h.1 hl, h.2⟩

theorem Thread.follows_of_comesToRest {todo : List (Program V H α)}
    (h : ∀ p ∈ todo, p.ComesToRest a R rest) (answers : List (Except Panic α)) (m : Memory V) :
    Thread.Follows a R rest ⟨todo, answers⟩ rest m := by
  cases todo with
  | nil => rfl
  | cons p later => exact ⟨h p (by simp) m, fun q hq => h q (by simp [hq])⟩

structure Pool.Follows (a : SlotArray) (R : ℕ → Protocol V H G) (rest : G) (pool : Pool V H α)
    (states : ℕ → G) : Prop where
  sound : a.Sound pool.session.memory
  threads : ∀ (k : ℕ) thread, pool.threads[k]? = some thread →
    thread.Follows a (R k) rest (states k) pool.session.memory
  outside : ∀ k, pool.threads.length ≤ k → states k = rest

namespace Pool.Follows

variable {pool : Pool V H α} {R : ℕ → Protocol V H G} {states : ℕ → G}

theorem of_comesToRest {s : Session V H} (hs : a.Sound s.memory)
    {programs : List (List (Program V H α))}
    (h : ∀ (k : ℕ) list, programs[k]? = some list → ∀ p ∈ list, p.ComesToRest a (R k) rest) :
    Pool.Follows a R rest ⟨s, programs.map .ofPrograms⟩ fun _ => rest where
  sound := hs
  threads k thread hk := by
    rw [List.getElem?_map, Option.map_eq_some_iff] at hk
    obtain ⟨list, hlist, rfl⟩ := hk
    exact Thread.follows_of_comesToRest (h k list hlist) _ _
  outside _ _ := rfl

/-- A thread without a next action is between two operations. -/
theorem eq_rest (h : pool.Follows a R rest states) {k : ℕ} (hk : pool.action? k = none) :
    states k = rest := by
  rw [action?] at hk
  cases hthread : pool.threads[k]? with
  | none => exact h.outside k (List.getElem?_eq_none_iff.mp hthread)
  | some thread =>
    have hfollows := h.threads k thread hthread
    rw [hthread] at hk
    obtain ⟨todo, answers⟩ := thread
    rcases todo with _ | ⟨p, later⟩
    · exact hfollows
    · cases p with
      | done x => exact hfollows.1
      | panic reason => exact hfollows.1
      | step act next => cases hk

/-- The other threads go on from where they are. -/
theorem set (h : pool.Follows a R rest states) {k : ℕ} {thread : Thread V H α} {s : Session V H}
    {g : G} (hs : a.Sound s.memory) (hl : pool.session.memory.Later s.memory)
    (hk : k < pool.threads.length) (hthread : thread.Follows a (R k) rest g s.memory) :
    Pool.Follows a R rest ⟨s, pool.threads.set k thread⟩ (Function.update states k g) where
  sound := hs
  threads j other hj := by
    by_cases hjk : k = j
    · subst hjk
      rw [List.getElem?_set_self hk] at hj
      cases hj
      rwa [Function.update_self]
    · rw [List.getElem?_set_ne hjk] at hj
      rw [Function.update_of_ne (Ne.symm hjk)]
      exact (h.threads j other hj).later hl
  outside j hj := by
    rw [List.length_set] at hj
    rw [Function.update_of_ne (by omega)]
    exact h.outside j hj

/-- A turn performs an action that the protocol allows, or it leaves the session and all states
alone. -/
theorem step (h : pool.Follows a R rest states) (k : ℕ) :
    (pool.action? k = none ∧ (pool.step k).session = pool.session ∧
      (pool.step k).Follows a R rest states) ∨
    ∃ act g, pool.action? k = some act ∧ a.Admits pool.session.memory act ∧
      (pool.step k).session = (act.perform pool.session).2 ∧
      R k (states k) act pool.session.memory (act.perform pool.session).2.memory g ∧
      (pool.step k).Follows a R rest (Function.update states k g) := by
  have hturn := pool.turn k
  generalize pool.step k = next at hturn ⊢
  cases hturn with
  | rests hrests =>
    refine .inl ⟨?_, rfl, h⟩
    rw [action?]
    cases hk : pool.threads[k]? with
    | none => rfl
    | some thread =>
      obtain ⟨todo, answers⟩ := thread
      obtain rfl : todo = [] := hrests _ hk
      rfl
  | @returns answer later answers hk =>
    obtain ⟨hend, hlater⟩ := h.threads k _ hk
    have hrest : states k = rest := by simpa using hend
    refine .inl ⟨?_, rfl, ?_⟩
    · rw [action?, hk]
      cases answer <;> rfl
    · have hset := h.set h.sound (.refl _) (List.getElem?_eq_some_iff.mp hk).1
        (Thread.follows_of_comesToRest hlater (answer :: answers) _)
      have hstates : Function.update states k rest = states := by
        rw [← hrest, Function.update_eq_self]
      rwa [hstates] at hset
  | acts hk =>
    obtain ⟨hfollows, hlater⟩ := h.threads k _ hk
    obtain ⟨hact, g, hR, hnext⟩ := hfollows pool.session (.refl _) h.sound
    obtain ⟨hs, hl⟩ := h.sound.perform hact
    refine .inr ⟨_, g, by rw [action?, hk], hact, rfl, hR, ?_⟩
    exact h.set hs hl (List.getElem?_eq_some_iff.mp hk).1 ⟨hnext, hlater⟩

theorem later_run (h : pool.Follows a R rest states) (schedule : List ℕ) :
    pool.session.memory.Later (pool.run schedule).session.memory := by
  induction schedule generalizing pool states with
  | nil => exact .refl _
  | cons k schedule ih =>
    rcases h.step k with ⟨-, hsession, hnext⟩ | ⟨act, g, -, hact, hsession, -, hnext⟩
    · have hrest := ih hnext
      rwa [hsession] at hrest
    · have hrest := ih hnext
      rw [hsession] at hrest
      exact (h.sound.perform hact).2.trans hrest

end Pool.Follows

end Follows

end AtomicSlots
