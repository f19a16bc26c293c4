import AtomicSlots.Program

/-! # Threads

Threads work on one session. A schedule is a list of thread numbers, and each number lets that
thread perform one atomic action of the operation it is at. So the schedules are all the ways in
which the actions of the threads can interleave, and an operation takes effect in its actions only.
-/
namespace AtomicSlots

/-- A thread: its operations still to do, the first of which may be under way, and what the earlier
ones answered, latest first. -/
structure Thread (V H α : Type) where
  todo : List (Program V H α)
  answers : List (Except Panic α)

namespace Thread

variable {V H α : Type}

def ofPrograms (programs : List (Program V H α)) : Thread V H α := ⟨programs, []⟩

/-- Lets a thread perform one action, or take the answer of an operation that has ended. -/
def step [Journal H] : Thread V H α → Session V H → Thread V H α × Session V H
  | ⟨[], answers⟩, s => (⟨[], answers⟩, s)
  | ⟨.done a :: rest, answers⟩, s => (⟨rest, .ok a :: answers⟩, s)
  | ⟨.panic reason :: rest, answers⟩, s => (⟨rest, .error reason :: answers⟩, s)
  | ⟨.step act next :: rest, answers⟩, s =>
    match act.perform s with
    | (r, s) => (⟨next r :: rest, answers⟩, s)

/-- Runs operations one after another. -/
def runAll [Journal H] :
    List (Program V H α) → List (Except Panic α) → Session V H →
      List (Except Panic α) × Session V H
  | [], answers, s => (answers, s)
  | p :: rest, answers, s =>
    match p.run s with
    | (answer, s) => runAll rest (answer :: answers) s

/-- Lets a thread do all that it still has to do. -/
def finish [Journal H] (t : Thread V H α) (s : Session V H) : Thread V H α × Session V H :=
  match runAll t.todo t.answers s with
  | (answers, s) => (⟨[], answers⟩, s)

end Thread

/-- Threads and the session that they share. -/
structure Pool (V H α : Type) where
  session : Session V H
  threads : List (Thread V H α)

namespace Pool

variable {V H α : Type}

/-- Lets one thread make a step; a number without a thread lets nothing happen. -/
def step [Journal H] : Pool V H α → Nat → Pool V H α
  | ⟨s, threads⟩, k =>
    match threads[k]? with
    | none => ⟨s, threads⟩
    | some thread =>
      match thread.step s with
      | (thread, s) => ⟨s, threads.set k thread⟩

/-- Runs a pool along a schedule. -/
def run [Journal H] (pool : Pool V H α) (schedule : List Nat) : Pool V H α :=
  schedule.foldl step pool

/-- Lets the threads finish one after another. -/
def finishAll [Journal H] :
    List (Thread V H α) → List (Thread V H α) → Session V H → Pool V H α
  | [], finished, s => ⟨s, finished.reverse⟩
  | thread :: rest, finished, s =>
    match thread.finish s with
    | (thread, s) => finishAll rest (thread :: finished) s

/-- Whether no thread has anything left to do. -/
def isIdle (pool : Pool V H α) : Bool := pool.threads.all fun thread => thread.todo.isEmpty

/-- Follows a schedule again and again until all threads are idle, at most `n` times. -/
def repeatRun [Journal H] (schedule : List Nat) : Nat → Pool V H α → Pool V H α
  | 0, pool => pool
  | n + 1, pool => if pool.isIdle then pool else repeatRun schedule n (pool.run schedule)

/-- Number of turns after which threads no longer take turns but finish one after another. -/
def patience : Nat := 2000

/-- Lets the threads take turns, from a given one on, until all they have to do is done. -/
def takeTurns [Journal H] (pool : Pool V H α) (first : Nat) : Pool V H α :=
  match repeatRun ((List.range pool.threads.length).rotateLeft first) patience pool with
  | ⟨s, threads⟩ => finishAll threads [] s

/-- The answers of each thread in the order of its operations; those of panicked ones are left
out. -/
def answers (pool : Pool V H α) : List (List α) :=
  pool.threads.map fun thread => thread.answers.reverse.filterMap Except.toOption

@[simp] theorem run_nil [Journal H] (pool : Pool V H α) : pool.run [] = pool := rfl

@[simp] theorem run_cons [Journal H] (pool : Pool V H α) (k : Nat) (schedule : List Nat) :
    pool.run (k :: schedule) = (pool.step k).run schedule := rfl

theorem run_append [Journal H] (pool : Pool V H α) (first second : List Nat) :
    pool.run (first ++ second) = (pool.run first).run second := List.foldl_append

theorem length_threads_run [Journal H] (pool : Pool V H α) (schedule : List Nat) :
    (pool.run schedule).threads.length = pool.threads.length := by
  induction schedule generalizing pool with
  | nil => rfl
  | cons k rest ih =>
    rw [run_cons, ih, step]
    split
    · rfl
    · simp

/-- To follow a schedule repeatedly is to follow a longer one. -/
theorem repeatRun_eq_run [Journal H] (schedule : List Nat) (n : Nat) (pool : Pool V H α) :
    ∃ longer, repeatRun schedule n pool = pool.run longer := by
  induction n generalizing pool with
  | zero => exact ⟨[], rfl⟩
  | succ n ih =>
    by_cases h : pool.isIdle
    · exact ⟨[], by simp [repeatRun, h]⟩
    · obtain ⟨longer, hl⟩ := ih (pool.run schedule)
      exact ⟨schedule ++ longer, by simp [repeatRun, h, hl, run_append]⟩

end Pool

end AtomicSlots
