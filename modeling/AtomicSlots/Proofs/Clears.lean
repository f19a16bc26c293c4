import AtomicSlots.Proofs.Scan

/-!
# Clears

A clear that is alone does what emptying one slot after another does. It comes only to the slots
that are occupied, but to empty the others would change nothing. What the two have in common is the
memory that they leave, which is defined here slot by slot.
-/
namespace AtomicSlots

variable {V H : Type}

open Program

namespace SlotArray

variable {a : SlotArray} {m : Memory V} {i j : UInt64}

/-- The memory after a slot has been emptied, and counted down if it was occupied. -/
def cleared (a : SlotArray) (i : UInt64) (m : Memory V) : Memory V :=
  match a.cell? m i with
  | some cell => if (m.content cell).isSome then (m.store cell none).adjust (-1) else m
  | none => m

theorem cleared_of_empty (h : a.occupant? m i = none) : a.cleared i m = m := by
  rw [cleared]
  cases hc : a.cell? m i with
  | none => rfl
  | some cell =>
    rw [occupant?_of_cell? hc] at h
    simp [h]

theorem cleared_of_occupant {o : Occupant V} (h : a.occupant? m i = some o) :
    ∃ cell, a.cell? m i = some cell ∧ a.cleared i m = (m.store cell none).adjust (-1) := by
  obtain ⟨cell, hc, hcontent⟩ := Option.bind_eq_some_iff.mp h
  exact ⟨cell, hc, by simp [cleared, hc, hcontent]⟩

theorem Sound.cleared (h : a.Sound m) (i : UInt64) : a.Sound (a.cleared i m) := by
  cases ho : a.occupant? m i with
  | none => rwa [cleared_of_empty ho]
  | some o =>
    obtain ⟨cell, hc, heq⟩ := cleared_of_occupant ho
    rw [heq]
    exact (h.store hc none).adjust (-1)

@[simp] theorem table_cleared (a : SlotArray) (i : UInt64) (m : Memory V) :
    (a.cleared i m).table = m.table := by
  cases ho : a.occupant? m i with
  | none => rw [cleared_of_empty ho]
  | some o =>
    obtain ⟨cell, -, heq⟩ := cleared_of_occupant ho
    rw [heq]
    exact m.table_store cell none

theorem Sound.occupant?_cleared_self (h : a.Sound m) (i : UInt64) :
    a.occupant? (a.cleared i m) i = none := by
  cases ho : a.occupant? m i with
  | none => rw [cleared_of_empty ho, ho]
  | some o =>
    obtain ⟨cell, hc, heq⟩ := cleared_of_occupant ho
    rw [heq, occupant?_adjust, occupant?_store_self h hc]
    rfl

theorem Sound.occupant?_cleared_of_ne (h : a.Sound m) (hj : j ≠ i) :
    a.occupant? (a.cleared i m) j = a.occupant? m j := by
  cases ho : a.occupant? m i with
  | none => rw [cleared_of_empty ho]
  | some o =>
    obtain ⟨cell, hc, heq⟩ := cleared_of_occupant ho
    rw [heq, occupant?_adjust, occupant?_store_of_ne h hc none hj]

/-- The count is as far from the number of occupied slots as it was. -/
theorem Sound.excess_cleared (h : a.Sound m) (i : UInt64) :
    (a.cleared i m).count - a.occupied (a.cleared i m) = m.count - a.occupied m := by
  cases ho : a.occupant? m i with
  | none => rw [cleared_of_empty ho]
  | some o =>
    obtain ⟨cell, hc, heq⟩ := cleared_of_occupant ho
    have hoccupied := occupied_store h hc none
    rw [occupant?_of_cell? hc] at ho
    simp only [ho, Option.isSome_some, Option.isSome_none, Bool.toNat_true, Bool.toNat_false,
      Nat.cast_one, Nat.cast_zero, add_zero] at hoccupied
    rw [heq, occupied_adjust, Memory.adjust, Memory.count_store]
    change m.count + -1 - _ = _
    omega

/-- The memory after the slots from an index on, so many of them, have been emptied. -/
def swept (a : SlotArray) : ℕ → ℕ → Memory V → Memory V
  | _, 0, m => m
  | first, n + 1, m => a.swept (first + 1) n (a.cleared (.ofNat first) m)

theorem swept_add (a : SlotArray) (first n l : ℕ) (m : Memory V) :
    a.swept first (n + l) m = a.swept (first + n) l (a.swept first n m) := by
  induction n generalizing first m with
  | zero => rw [Nat.zero_add]; rfl
  | succ n ih =>
    rw [Nat.add_right_comm n 1 l, swept, ih, Nat.add_right_comm first 1 n]
    rfl

theorem swept_of_empty {first n : ℕ} (hn : first + n ≤ a.capacity.toNat)
    (h : ∀ k : UInt64, first ≤ k.toNat → k.toNat < first + n → a.occupant? m k = none) :
    a.swept first n m = m := by
  induction n generalizing first with
  | zero => rfl
  | succ n ih =>
    have hword : (UInt64.ofNat first).toNat = first := a.toNat_ofNat_of_lt (by omega)
    have hfirst : a.occupant? m (.ofNat first) = none := h _ (by omega) (by omega)
    rw [swept, cleared_of_empty hfirst]
    exact ih (by omega) fun k hk hlt => h k (by omega) (by omega)

theorem Sound.swept (h : a.Sound m) (first n : ℕ) : a.Sound (a.swept first n m) := by
  induction n generalizing first m with
  | zero => exact h
  | succ n ih => exact ih (h.cleared _) _

@[simp] theorem table_swept (a : SlotArray) (first n : ℕ) (m : Memory V) :
    (a.swept first n m).table = m.table := by
  induction n generalizing first m with
  | zero => rfl
  | succ n ih => rw [SlotArray.swept, ih, table_cleared]

theorem Sound.excess_swept (h : a.Sound m) (first n : ℕ) :
    (a.swept first n m).count - a.occupied (a.swept first n m) = m.count - a.occupied m := by
  induction n generalizing first m with
  | zero => rfl
  | succ n ih => rw [SlotArray.swept, ih (h.cleared _), h.excess_cleared]

theorem Sound.occupant?_swept (h : a.Sound m) {first n : ℕ} (hn : first + n ≤ a.capacity.toNat)
    (j : UInt64) : a.occupant? (a.swept first n m) j =
      if first ≤ j.toNat ∧ j.toNat < first + n then none else a.occupant? m j := by
  induction n generalizing first m with
  | zero => rw [if_neg (by omega)]; rfl
  | succ n ih =>
    have hword : (UInt64.ofNat first).toNat = first := a.toNat_ofNat_of_lt (by omega)
    rw [SlotArray.swept, ih (h.cleared _) (by omega)]
    by_cases hj : j = .ofNat first
    · subst hj
      rw [if_neg (by omega), if_pos (by omega), h.occupant?_cleared_self]
    · have hne : j.toNat ≠ first := fun heq => hj (UInt64.toNat_inj.mp (by omega))
      rw [h.occupant?_cleared_of_ne hj]
      congr 1
      simp only [eq_iff_iff]
      omega

/-- When all slots have been emptied, none is occupied. -/
theorem Sound.occupant?_swept_all (h : a.Sound m) (j : UInt64) :
    a.occupant? (a.swept 0 a.capacity.toNat m) j = none := by
  rw [h.occupant?_swept (by omega)]
  split
  · rfl
  · exact occupant?_of_le _ (UInt64.le_iff_toNat_le.mpr (by omega))

theorem Sound.slots_swept_all (h : a.Sound m) :
    a.slots (a.swept 0 a.capacity.toNat m) = .replicate a.capacity.toNat none := by
  refine List.eq_replicate_iff.mpr ⟨length_slots _ _, fun content hcontent => ?_⟩
  obtain ⟨i, -, rfl⟩ := List.mem_map.mp hcontent
  rw [value?, h.occupant?_swept_all]
  rfl

theorem Sound.count_swept_all (h : a.Sound m) (hcount : m.count = a.occupied m) :
    (a.swept 0 a.capacity.toNat m).count = 0 := by
  have hexcess := h.excess_swept 0 a.capacity.toNat
  rw [occupied, h.slots_swept_all] at hexcess
  simp only [List.countP_replicate, Option.isSome_none, Bool.false_eq_true, if_false,
    Nat.cast_zero, sub_zero, hcount, sub_self] at hexcess
  exact hexcess

section Run

variable [Journal H] {s : Session V H}

/-- An operation that empties a slot answers what it held. -/
theorem run_take_eq (a : SlotArray) (i : UInt64) (s : Session V H) :
    (a.take i).run s = (.ok (a.value? s.memory i), ⟨a.cleared i s.memory, s.host⟩) := by
  rw [take, run_bind]
  cases hc : a.cell? s.memory i with
  | none =>
    rw [run_access_of_missing (by decide) hc, value?_of_cell?_eq_none hc,
      cleared_of_empty (occupant?_of_cell?_eq_none hc)]
    rfl
  | some cell =>
    rw [run_access_of_cell (by decide) hc, run_map, Cell.replace, Cell.swap, value?_of_cell? hc]
    simp only [perform, step_bind, done_bind, run_step, Action.perform, Memory.swap_eq]
    have ho := occupant?_of_cell? hc
    cases hcontent : s.memory.content cell with
    | none =>
      rw [cleared_of_empty (ho.trans hcontent), Memory.store_none_of_empty hcontent]
      rfl
    | some o =>
      obtain ⟨cell', hc', heq⟩ := cleared_of_occupant (ho.trans hcontent)
      cases hc.symm.trans hc'
      rw [heq]
      rfl

/-- Empties slot after slot, so many from an index on, and answers what they held. -/
def takeAll (a : SlotArray) (first n : ℕ) : Program V H (List (Option V)) :=
  (List.range' first n).mapM fun i => a.take (.ofNat i)

theorem run_takeAll (hs : a.Sound s.memory) {first n : ℕ} (hn : first + n ≤ a.capacity.toNat) :
    (a.takeAll first n).run s =
      (.ok ((List.range' first n).map fun i => a.value? s.memory (.ofNat i)),
        ⟨a.swept first n s.memory, s.host⟩) := by
  rw [takeAll]
  induction n generalizing first s with
  | zero => rfl
  | succ n ih =>
    have hfit : first + 1 + n ≤ a.capacity.toNat := by omega
    have hrest := ih (s := ⟨a.cleared (.ofNat first) s.memory, s.host⟩) (hs.cleared _) hfit
    have hvalues : (List.range' (first + 1) n).map
          (fun k => a.value? (a.cleared (.ofNat first) s.memory) (.ofNat k)) =
        (List.range' (first + 1) n).map fun k => a.value? s.memory (.ofNat k) := by
      refine List.map_congr_left fun k hk => ?_
      have hk := List.mem_range'_1.mp hk
      have hne : UInt64.ofNat k ≠ .ofNat first := by
        intro heq
        have hword := congrArg UInt64.toNat heq
        rw [a.toNat_ofNat_of_lt (by omega), a.toNat_ofNat_of_lt (by omega)] at hword
        omega
      rw [value?, value?, hs.occupant?_cleared_of_ne hne]
    rw [List.range'_succ, List.mapM_cons, run_bind, run_take_eq]
    simp only [run_bind, hrest, hvalues]
    rfl

/-- Whatever is occupied lies at or behind the start, so a scan finds it without a wrap. -/
theorem finds_of_empty_before {found : Option (UInt64 × Occupant V)}
    (hbefore : ∀ k < i, a.occupant? m k = none)
    (hsome : ∀ j o, found = some (j, o) → a.occupant? m j = some o)
    (hfinds : a.FindsOrWraps m i found) : a.Finds m i found := by
  rcases hfinds with hfinds | ⟨-, hnone⟩
  · exact hfinds
  · rcases found with _ | ⟨j, o⟩
    · exact hnone
    · have ho := hsome j o rfl
      by_cases hj : j < i
      · rw [hbefore j hj] at ho
        cases ho
      · rw [hnone j (UInt64.not_lt.mp hj)] at ho
        cases ho

/-- Each round empties the first occupied slot, and none is left in front of the next round. -/
theorem run_clear_go_eq {n : ℕ} (hs : a.Sound s.memory)
    (hbefore : ∀ k < i, a.occupant? s.memory k = none) (hn : a.capacity.toNat ≤ n + i.toNat) :
    (clear.go a n i).run s =
      (.ok (), ⟨a.swept i.toNat (a.capacity.toNat - i.toNat) s.memory, s.host⟩) := by
  induction n generalizing i s with
  | zero =>
    rw [show a.capacity.toNat - i.toNat = 0 by omega]
    rfl
  | succ n ih =>
    obtain ⟨found, hrun, hsome, hfinds⟩ := a.run_firstFrom i s
    have hfinds := finds_of_empty_before hbefore hsome hfinds
    rw [clear.go, run_bind, hrun]
    rcases found with _ | ⟨j, o⟩
    · by_cases hi : a.capacity.toNat ≤ i.toNat
      · rw [show a.capacity.toNat - i.toNat = 0 by omega]
        rfl
      · rw [swept_of_empty (by omega) fun k hk _ => hfinds k (UInt64.le_iff_toNat_le.mpr hk)]
        rfl
    · obtain ⟨hle, ho, hmin⟩ := hfinds
      have hj := UInt64.lt_iff_toNat_lt.mp (lt_of_occupant? ho)
      have hnext : (j + 1).toNat = j.toNat + 1 := toNat_add_one_of_lt (lt_of_occupant? ho)
      rw [UInt64.le_iff_toNat_le] at hle
      -- the slots in front of the one that is found are empty already
      have hskip : a.swept i.toNat (j.toNat - i.toNat) s.memory = s.memory :=
        swept_of_empty (by omega) fun k hk hlt =>
          hmin k (UInt64.le_iff_toNat_le.mpr hk) (UInt64.lt_iff_toNat_lt.mpr (by omega))
      have hafter : ∀ k < j + 1, a.occupant? (a.cleared j s.memory) k = none := by
        intro k hk
        rw [UInt64.lt_iff_toNat_lt, hnext] at hk
        by_cases hkj : k = j
        · rw [hkj, hs.occupant?_cleared_self]
        · have hne : k.toNat ≠ j.toNat := fun h => hkj (UInt64.toNat_inj.mp h)
          rw [hs.occupant?_cleared_of_ne hkj]
          by_cases hki : k < i
          · exact hbefore k hki
          · exact hmin k (UInt64.not_lt.mp hki) (UInt64.lt_iff_toNat_lt.mpr (by omega))
      have hrest := ih (s := ⟨a.cleared j s.memory, s.host⟩) (i := j + 1) (hs.cleared j) hafter
        (by omega)
      have hlength : a.capacity.toNat - i.toNat =
          (j.toNat - i.toNat) + (1 + (a.capacity.toNat - (j.toNat + 1))) := by omega
      rw [hlength, swept_add, hskip, show i.toNat + (j.toNat - i.toNat) = j.toNat by omega,
        Nat.add_comm 1, swept, UInt64.ofNat_toNat, ← hnext, ← hrest]
      change ((fun _ => ()) <$> a.take j >>= fun _ => clear.go a n (j + 1)).run s = _
      rw [run_bind, run_map, run_take_eq]
      rfl

/-- Alone, a clear is the same as to empty all slots one after another. -/
theorem run_clear_eq (hs : a.Sound s.memory) :
    a.clear.run s = (.ok (), ⟨a.swept 0 a.capacity.toNat s.memory, s.host⟩) :=
  run_clear_go_eq hs (fun _ hk => absurd hk (UInt64.not_lt.mpr UInt64.zero_le)) le_rfl

end Run

end SlotArray

end AtomicSlots
