/-! # Values, tests and producers

The values that a script stores, the tests by which its predicates answer, and the producers by
which its factories make new values. Slot arrays know none of this: they never look at a value.
-/
namespace AtomicSlots

/-- A stored value. -/
inductive Value where
  | null
  | bool (b : Bool)
  | int (n : Int)
  | str (s : String)
  | list (items : List Value)
deriving Repr, Inhabited

namespace Value

mutual

/-- Equality of values. -/
def same : Value → Value → Bool
  | null, null => true
  | bool a, bool b => a == b
  | int a, int b => a == b
  | str a, str b => a == b
  | list a, list b => sameAll a b
  | _, _ => false

/-- Equality of lists, item by item. -/
def sameAll : List Value → List Value → Bool
  | [], [] => true
  | a :: as, b :: bs => same a b && sameAll as bs
  | _, _ => false

end

instance : BEq Value := ⟨same⟩

mutual

theorem same_iff (v w : Value) : same v w = true ↔ v = w := by
  cases v <;> cases w <;> simp [same, sameAll_iff]

theorem sameAll_iff (vs ws : List Value) : sameAll vs ws = true ↔ vs = ws := by
  cases vs <;> cases ws <;> simp [sameAll, same_iff, sameAll_iff]

end

instance : LawfulBEq Value where
  eq_of_beq h := (same_iff _ _).mp h
  rfl := (same_iff _ _).mpr rfl

def isNull : Value → Bool
  | null => true
  | _ => false

/-- The integer that a value is, if it is one that fits into a signed 64-bit word. -/
def word? : Value → Option Int
  | int n => if -9223372036854775808 ≤ n ∧ n ≤ 9223372036854775807 then some n else none
  | _ => none

end Value

/-- A condition on a value. -/
inductive Test where
  | always (answer : Bool)
  | atLeast (bound : Int)
  | lessThan (bound : Int)
  /-- The remainder by `modulus`, which is never negative, is `rest`. -/
  | remainder (modulus rest : Int)
  | equals (value : Value)
  | isNull
  | negation (test : Test)
  /-- The answer depends on the number of the call only, and is `false` behind the list. -/
  | byCall (answers : List Bool)
deriving Repr, Inhabited

namespace Test

/-- Whether a test holds for a value on a given call. Comparisons and remainders hold for signed
64-bit integers only. -/
def holds (call : Nat) : Test → Value → Bool
  | always answer, _ => answer
  | atLeast bound, v => v.word?.any (bound ≤ ·)
  | lessThan bound, v => v.word?.any (· < bound)
  | remainder modulus rest, v => v.word?.any (·.emod modulus == rest)
  | equals value, v => v == value
  | isNull, v => v.isNull
  | negation test, v => !test.holds call v
  | byCall answers, _ => answers.getD call false

end Test

/-- A way to make a value from another one. -/
inductive Producer where
  /-- Adds to an integer and leaves every other value as it is. -/
  | add (n : Int)
  | const (value : Value)
  /-- Puts the value into a list of its own. -/
  | wrap
  | keep
deriving Repr, Inhabited

namespace Producer

def apply : Producer → Value → Value
  | add n, .int k => .int (k + n)
  | add _, v => v
  | const value, _ => value
  | wrap, v => .list [v]
  | keep, v => v

end Producer

end AtomicSlots
