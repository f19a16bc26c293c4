import AtomicSlots.Action

/-! # Programs of atomic actions

An operation is a program: it ends with an answer, ends because a callback panicked, or performs one
action and goes on with what the action answered. Callbacks are programs too, so a callback may run
any operation on the same memory, and whatever it did before a panic stays done. Running a program
alone is a plain recursion on it; threads interleave programs action by action.
-/
namespace AtomicSlots

/-- The callbacks that can interrupt an operation by panicking. -/
inductive CallSite where
  | predicate
  | indexPredicate
  | factory
  | make
  | body
  | cell
deriving DecidableEq, Repr

namespace CallSite

def name : CallSite → String
  | predicate => "pred"
  | indexPredicate => "index_pred"
  | factory => "factory"
  | make => "make"
  | body => "body"
  | cell => "cell"

end CallSite

/-- Which callback panicked, and on which of its calls. -/
structure Panic where
  site : CallSite
  call : Nat
deriving DecidableEq, Repr

namespace Panic

def message (reason : Panic) : String :=
  reason.site.name ++ " panicked on call " ++ toString reason.call

end Panic

/-- A program that works with atomic actions and answers with a value of type `α`. -/
inductive Program (V H α : Type) where
  | done (answer : α)
  | panic (reason : Panic)
  | step (act : Action V H) (next : act.Result → Program V H α)

namespace Program

variable {V H α β γ : Type}

/-- Goes on with the answer of a program; a panic passes through. -/
def bind : Program V H α → (α → Program V H β) → Program V H β
  | done a, f => f a
  | panic p, _ => panic p
  | step act next, f => step act fun r => (next r).bind f

instance : Monad (Program V H) where
  pure := done
  bind := bind

@[simp] theorem pure_eq (a : α) : (pure a : Program V H α) = done a := rfl

@[simp] theorem done_bind (a : α) (f : α → Program V H β) : (done a >>= f) = f a := rfl

@[simp] theorem panic_bind (p : Panic) (f : α → Program V H β) : (panic p >>= f) = panic p := rfl

@[simp] theorem step_bind (act : Action V H) (next : act.Result → Program V H α)
    (f : α → Program V H β) : (step act next >>= f) = step act fun r => next r >>= f := rfl

theorem bind_done (p : Program V H α) : (p >>= done) = p := by
  induction p with
  | done _ => rfl
  | panic _ => rfl
  | step act next ih => simp only [step_bind, ih]

theorem bind_bind (p : Program V H α) (f : α → Program V H β) (g : β → Program V H γ) :
    (p >>= f) >>= g = p >>= fun a => f a >>= g := by
  induction p with
  | done _ => rfl
  | panic _ => rfl
  | step act next ih => simp only [step_bind, ih]

instance : LawfulMonad (Program V H) := 
  LawfulMonad.mk' (Program V H) bind_done (fun _ _ => rfl) bind_bind

/-- Runs a program alone to its end. -/
def run [Journal H] : Program V H α → Session V H → Except Panic α × Session V H
  | done a, s => (.ok a, s)
  | panic p, s => (.error p, s)
  | step act next, s => match act.perform s with | (r, s) => (next r).run s

@[simp] theorem run_done [Journal H] (a : α) (s : Session V H) :
    (done a : Program V H α).run s = (.ok a, s) := rfl

@[simp] theorem run_panic [Journal H] (p : Panic) (s : Session V H) :
    (panic p : Program V H α).run s = (.error p, s) := rfl

@[simp] theorem run_step [Journal H] (act : Action V H) (next : act.Result → Program V H α)
    (s : Session V H) :
    (step act next).run s = (next (act.perform s).1).run (act.perform s).2 := rfl

/-- A sequence runs its second part from where the first part left the session. -/
theorem run_bind [Journal H] (p : Program V H α) (f : α → Program V H β) (s : Session V H) :
    (p >>= f).run s = match p.run s with
      | (.ok a, t) => (f a).run t
      | (.error e, t) => (.error e, t) := by
  induction p generalizing s with
  | done _ => rfl
  | panic _ => rfl
  | step act next ih => simp only [step_bind, run_step, ih]

/-- A single action as a program. -/
def perform (act : Action V H) : Program V H act.Result := step act done

def emit (event : TraceEvent) : Program V H Unit := perform (.emit event)

def adjustCount (change : Int) : Program V H Unit := perform (.adjust change)

def readSize : Program V H Nat := perform .readSize

def readHost : Program V H H := perform .readHost

def changeHost (change : H → H) : Program V H Unit := perform (.changeHost change)

/-- Emits events in order. -/
def emitAll : List TraceEvent → Program V H Unit
  | [] => done ()
  | event :: rest => do
    emit event
    emitAll rest

end Program

end AtomicSlots
