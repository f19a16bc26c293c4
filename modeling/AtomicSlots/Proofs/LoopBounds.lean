import AtomicSlots.SlotArray.Bulk
import AtomicSlots.Proofs.Scan

/-!
# Bounds of loops

A scan and a clear are loops with a bound for the number of their rounds. Every round takes a scan
to a later segment and a clear past a slot, so neither is cut off by its bound: with a larger one it
is the same program, action for action. This holds whatever the actions find, so it is not about
runs, in which only some answers are possible, but about all answers that a program has.
-/
namespace AtomicSlots

variable {V H α β : Type}

namespace Program

/-- Whatever its actions find, a program that answers gives an answer that satisfies a predicate. -/
def Answers (Q : α → Prop) : Program V H α → Prop
  | done x => Q x
  | panic _ => True
  | step _ next => ∀ r, (next r).Answers Q

variable {p : Program V H α} {Q : α → Prop}

theorem Answers.mono {R : α → Prop} (h : p.Answers Q) (hQ : ∀ x, Q x → R x) : p.Answers R := by
  induction p with
  | done x => exact hQ x h
  | panic reason => trivial
  | step act next ih => exact fun r => ih r (h r)

theorem Answers.bind {R : β → Prop} {f : α → Program V H β} (h : p.Answers Q)
    (hf : ∀ x, Q x → (f x).Answers R) : (p >>= f).Answers R := by
  induction p with
  | done x => exact hf x h
  | panic reason => trivial
  | step act next ih => exact fun r => ih r (h r)

/-- What comes after a program only matters for the answers that it has. -/
theorem Answers.bind_congr {f g : α → Program V H β} (h : p.Answers Q)
    (hfg : ∀ x, Q x → f x = g x) : p >>= f = p >>= g := by
  induction p with
  | done x => exact hfg x h
  | panic reason => rfl
  | step act next ih => exact congrArg (step act) (funext fun r => ih r (h r))

theorem answers_true (p : Program V H α) : p.Answers fun _ => True := by
  induction p with
  | done x => trivial
  | panic reason => trivial
  | step act next ih => exact ih

end Program

open Program

/-- The search of a segment finds nothing in front of its first cell or behind its last one. -/
theorem answers_firstInSegment (segment : ℕ) {n : ℕ} {first : UInt64}
    (h : first.toNat + n < 2 ^ 64) :
    (firstInSegment segment n first : Program V H (Option (UInt64 × Occupant V))).Answers
      fun found => ∀ offset o, found = some (offset, o) →
        first ≤ offset ∧ offset.toNat < first.toNat + n := by
  induction n generalizing first with
  | zero => exact nofun
  | succ n ih =>
    refine (answers_true _).bind fun content _ => ?_
    cases content with
    | some o =>
      rintro offset - ⟨⟩
      exact ⟨UInt64.le_refl _, by omega⟩
    | none =>
      have hnext : (first + 1).toNat = first.toNat + 1 := toNat_add_one (by omega)
      refine (ih (by omega)).mono fun found hfound offset o hsome => ?_
      obtain ⟨hle, hlt⟩ := hfound offset o hsome
      rw [UInt64.le_iff_toNat_le] at hle ⊢
      omega

namespace SlotArray

variable {a : SlotArray} {i : UInt64} {n : ℕ}

theorem toNat_next_segment (hcap : a.capacity.toNat ≤ 2 ^ 64 - 32) (hi : i < a.capacity) :
    (Address.base (Address.ofIndex i).entry + segmentSize).toNat = 32 * (i.toNat / 32) + 32 := by
  have hlt := UInt64.lt_iff_toNat_lt.mp hi
  have hsize : segmentSize.toNat = 32 := rfl
  rw [UInt64.toNat_add, Address.toNat_base_entry, hsize]
  omega

/-- A scan answers with an index of the array. It is not in front of where the scan has started, unless
the sum that leads to the next segment wraps around. -/
theorem answers_scan (n : ℕ) (i : UInt64) :
    (a.scan n i : Program V H _).Answers fun found =>
      ∀ j o, found = some (j, o) → (a.capacity.toNat ≤ 2 ^ 64 - 32 → i ≤ j) ∧ j < a.capacity := by
  induction n generalizing i with
  | zero => exact nofun
  | succ n ih =>
    rw [scan]
    split
    · rename_i hi
      have hlt := UInt64.lt_iff_toNat_lt.mp hi
      have hword := a.capacity.toNat_lt
      have hbase := Address.toNat_base_entry i
      have hlater : (a.scan n (Address.base (Address.ofIndex i).entry + segmentSize) :
          Program V H _).Answers fun found => ∀ j o, found = some (j, o) →
            (a.capacity.toNat ≤ 2 ^ 64 - 32 → i ≤ j) ∧ j < a.capacity := by
        refine (ih _).mono fun found hfound j o hsome => ?_
        obtain ⟨hle, hj⟩ := hfound j o hsome
        refine ⟨fun hcap => ?_, hj⟩
        have hnext := toNat_next_segment hcap hi
        have hbehind := UInt64.le_iff_toNat_le.mp (hle hcap)
        rw [UInt64.le_iff_toNat_le]
        omega
      refine (answers_true _).bind fun segment _ => ?_
      cases segment with
      | none => exact hlater
      | some segment =>
        have hstart := toNat_sub_base i
        have hlength := toNat_restOfSegment hi
        refine (answers_firstInSegment segment (by omega)).bind fun found hfound => ?_
        rcases found with _ | ⟨offset, o⟩
        · exact hlater
        · obtain ⟨hle, hoffset⟩ := hfound offset o rfl
          have hj : (Address.base (Address.ofIndex i).entry + offset).toNat =
              (Address.base (Address.ofIndex i).entry).toNat + offset.toNat := by
            rw [UInt64.toNat_add]
            omega
          rintro j - ⟨⟩
          rw [UInt64.le_iff_toNat_le] at hle
          rw [UInt64.le_iff_toNat_le, UInt64.lt_iff_toNat_lt]
          omega
    · exact nofun

/-- What a step of a cursor may answer, whatever it finds: it yields a slot of the array and moves past
that slot, or it yields nothing and the cursor stays where it is. The slot is not in front of the
cursor, unless the index of a scan wraps around. -/
def MayStepTo (a : SlotArray) (cursor : Cursor) (item : Option (UInt64 × V)) (after : Cursor) : Prop :=
  item = none ∧ after = cursor ∨ ∃ i v, item = some (i, v) ∧
    (a.capacity.toNat ≤ 2 ^ 64 - 32 → cursor.position ≤ i) ∧ i < a.capacity ∧ after = cursor.past i

theorem answers_next (a : SlotArray) (cursor : Cursor) :
    (a.next cursor : Program V H _).Answers fun (item, after) => a.MayStepTo cursor item after := by
  refine (answers_scan _ _).bind fun found hfound => ?_
  rcases found with _ | ⟨i, o⟩
  · exact .inl ⟨rfl, rfl⟩
  · obtain ⟨hle, hi⟩ := hfound i o rfl
    exact .inr ⟨i, o.value, rfl, hle, hi, rfl⟩

theorem scan_of_le (hi : a.capacity ≤ i) (n : ℕ) : (a.scan n i : Program V H _) = .done none := by
  cases n with
  | zero => rfl
  | succ n => rw [scan, if_neg (UInt64.not_lt.mpr hi)]; rfl

/-- A scan that may look at all segments from its index on is not cut off. -/
theorem scan_add (hcap : a.capacity.toNat ≤ 2 ^ 64 - 32)
    (hn : a.segmentCount.toNat ≤ n + i.toNat / 32) (l : ℕ) :
    (a.scan (n + l) i : Program V H _) = a.scan n i := by
  have hcount : a.segmentCount.toNat = (a.capacity.toNat + 31) / 32 := toNat_segmentCount a.capacity
  induction n generalizing i with
  | zero =>
    have hi : a.capacity ≤ i := UInt64.le_iff_toNat_le.mpr (by omega)
    rw [scan_of_le hi, scan_of_le hi]
  | succ n ih =>
    rw [Nat.add_right_comm, scan, scan]
    split
    · rename_i hi
      have hnext := toNat_next_segment hcap hi
      have hlater := ih (i := Address.base (Address.ofIndex i).entry + segmentSize) (by omega)
      simp only [hlater]
    · rfl

theorem scan_eq_firstFrom (hcap : a.capacity.toNat ≤ 2 ^ 64 - 32)
    (hn : a.segmentCount.toNat ≤ n) (i : UInt64) :
    (a.scan n i : Program V H _) = a.firstFrom i := by
  obtain ⟨l, rfl⟩ := Nat.exists_eq_add_of_le hn
  exact scan_add hcap (by omega) l

/-- A clear that may empty all slots from its index on is not cut off. -/
theorem clear_go_add (hcap : a.capacity.toNat ≤ 2 ^ 64 - 32) (hn : a.capacity.toNat ≤ n + i.toNat)
    (l : ℕ) : (clear.go a (n + l) i : Program V H Unit) = clear.go a n i := by
  induction n generalizing i with
  | zero =>
    have hi : a.capacity ≤ i := UInt64.le_iff_toNat_le.mpr (by omega)
    cases l with
    | zero => rfl
    | succ l =>
      have hnone : (a.firstFrom i : Program V H _) = .done none := scan_of_le hi _
      rw [Nat.zero_add, clear.go, clear.go, hnone]
      rfl
  | succ n ih =>
    rw [Nat.add_right_comm, clear.go, clear.go]
    refine (answers_scan _ i).bind_congr fun found hfound => ?_
    rcases found with _ | ⟨j, o⟩
    · rfl
    · obtain ⟨hle, hj⟩ := hfound j o rfl
      have hpast := toNat_add_one_of_lt hj
      have hbehind := UInt64.le_iff_toNat_le.mp (hle hcap)
      simp only [ih (i := j + 1) (by omega)]

theorem clear_go_eq_clear (hcap : a.capacity.toNat ≤ 2 ^ 64 - 32) (hn : a.capacity.toNat ≤ n) :
    (clear.go a n 0 : Program V H Unit) = a.clear := by
  obtain ⟨l, rfl⟩ := Nat.exists_eq_add_of_le hn
  exact clear_go_add hcap (by simp) l

end SlotArray

end AtomicSlots
