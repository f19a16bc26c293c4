import AtomicSlots.Script.Notebook

/-! # Callbacks of a script

A callback of a script does four things on each call: it notes the call, it performs the operations
that the script lists for this call, it panics if the script says so, and otherwise it answers.
-/
namespace AtomicSlots

/-- A callback whose asides are operations of type `ω`. -/
structure Callback (ω α β : Type) where
  /-- The answer to an argument on a given call. -/
  answer : Nat → α → β
  /-- The operations to perform on each call; none on later calls. -/
  asides : List (List ω)
  /-- The call that ends with a panic. -/
  panicAt : Option Nat

/-- A program that works on a script's notebook. -/
abbrev ScriptProgram (V α : Type) := Program V (Notebook V) α

namespace ScriptProgram

variable {V : Type}

def note (entry : Entry V) : ScriptProgram V Unit := .changeHost (.note entry)

/-- One call of a callback. What it performs on a call is looked at only when that call is made, so
operations that are listed for calls that never come cost nothing. -/
def consult {α β : Type} (site : CallSite) (argument : α → Argument V) (answer : Nat → α → β)
    (aside : Nat → ScriptProgram V Unit) (panicAt : Option Nat) (call : Nat) (x : α) :
    ScriptProgram V β := do
  note (.call site (argument x))
  aside call
  if panicAt = some call then
    .panic ⟨site, call⟩
  else
    return answer call x

end ScriptProgram

end AtomicSlots
