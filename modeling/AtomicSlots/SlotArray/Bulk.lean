import AtomicSlots.SlotArray.Basic
import AtomicSlots.SlotArray.Cursor

/-! # Operations on many slots

None of these is atomic: each is a sequence of operations on single slots, and other operations may
come in between.
-/
namespace AtomicSlots

namespace SlotArray

variable {V H : Type}

/-- Empties every slot that a scan finds occupied, in the order of their indices. Each slot is
emptied by a swap of its own, whatever it holds by then. -/
def clear (a : SlotArray) : Program V H Unit :=
  go a.capacity.toNat 0
where
  /-- Empties no more than `n` slots, from an index on; there are no more than the capacity. -/
  go : Nat → UInt64 → Program V H Unit
  | 0, _ => pure ()
  | n + 1, start => do
    match ← a.firstFrom start with
    | none => return
    | some (index, _) =>
      discard (a.take index)
      go n (index + 1)

/-- Overwrites the elements of a list from an offset on. -/
def overwrite (target : List V) (offset : Nat) (values : List V) : List V :=
  target.take offset ++ values ++ target.drop (offset + values.length)

/-- Values that fit do not change the length. -/
theorem length_overwrite {target : List V} {offset : Nat} {values : List V}
    (h : offset + values.length ≤ target.length) :
    (overwrite target offset values).length = target.length := by
  simp only [overwrite, List.length_append, List.length_take, List.length_drop]
  omega

/-- An element is overwritten if its place is among those of the values, and kept otherwise. -/
theorem getElem?_overwrite {target : List V} {offset : Nat} {values : List V}
    (h : offset + values.length ≤ target.length) (k : Nat) :
    (overwrite target offset values)[k]? =
      if offset ≤ k ∧ k < offset + values.length then values[k - offset]? else target[k]? := by
  have hm : min offset target.length = offset := by omega
  simp only [overwrite, List.append_assoc, List.getElem?_append, List.length_take, hm,
    List.getElem?_take, List.getElem?_drop]
  by_cases h1 : k < offset
  · have h2 : ¬ (offset ≤ k ∧ k < offset + values.length) := by omega
    simp [h1, h2]
  · by_cases h2 : k - offset < values.length
    · have h3 : offset ≤ k ∧ k < offset + values.length := by omega
      simp [h1, h2, h3]
    · have h3 : ¬ (offset ≤ k ∧ k < offset + values.length) := by omega
      have h4 : offset + values.length + (k - offset - values.length) = k := by omega
      simp [h1, h2, h3, h4]

/-- Copies the values in the order of their indices into a destination, from an offset on. The
destination must have room for all values counted at the start. Values that come up later are
copied only while there is room. -/
def copyTo (a : SlotArray) (target : List V) (offset : Nat) :
    Program V H (Except CopyError Nat × List V) := do
  if target.length < offset then
    return (.error (.offsetOutOfRange offset target.length), target)
  let available := target.length - offset
  let needed ← size
  if available < needed then
    return (.error (.insufficientSpace needed available), target)
  let (items, _) ← gather a.next available .start []
  let values := items.map Prod.snd
  return (.ok values.length, overwrite target offset values)

/-- Performs an operation on `n` indices in steps, and counts how often it succeeds. -/
def countSuccesses (operation : UInt64 → Program V H Bool) (step : Nat) :
    Nat → Nat → Nat → Program V H Nat
  | 0, _, successes => pure successes
  | n + 1, index, successes => do
    let success ← operation (.ofNat index)
    countSuccesses operation step n (index + step) (successes + success.toNat)

/-- Number of indices from `first` on, in steps, that lie below `stop`. -/
def stepsBelow (first stop step : Nat) : Nat := (stop - first + (step - 1)) / step

theorem lt_stepsBelow_iff {first stop step k : Nat} (h : 0 < step) :
    k < stepsBelow first stop step ↔ first + k * step < stop := by
  rw [stepsBelow, Nat.lt_iff_add_one_le, Nat.le_div_iff_mul_le h, Nat.add_one_mul]
  omega

/-- Inserts into every slot from `first` on, in steps, that lies below `stop`, and counts how many
were empty. Indices that the array does not have could not succeed and are passed over. -/
def fillRange (a : SlotArray) (value : UInt64 → V) (first stop step : Nat) : Program V H Nat :=
  countSuccesses (fun i => a.insert i (value i)) step
    (stepsBelow first (min stop a.capacity.toNat) step) first 0

/-- Empties every slot from `first` on, in steps, that lies below `stop`, and counts how many were
occupied. Indices that the array does not have are passed over. -/
def eraseRange (a : SlotArray) (first stop step : Nat) : Program V H Nat :=
  countSuccesses (fun i => a.erase i) step
    (stepsBelow first (min stop a.capacity.toNat) step) first 0

end SlotArray

end AtomicSlots
