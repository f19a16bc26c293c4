import AtomicSlots.Proofs.Disposal
import AtomicSlots.Proofs.OverlappingScans

/-!
# Copies

A copy asks for the size once and then walks over the array until the room or the walk comes to an
end. Its two ends are checked against different things, the size against the room and the walk
against the slots, so that nothing is left out when both are at rest rests on the count. While
others act, the size that was asked for says nothing about what the walk meets: what holds then is
due to the walk alone, which takes no more steps than there is room.
-/
namespace AtomicSlots

variable {V H α : Type} [Journal H]

open Program

namespace SlotArray

variable {a : SlotArray} {s : Session V H}

/-- A walk alone changes nothing. -/
theorem exists_run_gather_next (n : ℕ) (cursor : Cursor) (items : List (UInt64 × V))
    (s : Session V H) : ∃ found, (gather a.next n cursor items).run s = (.ok found, s) := by
  induction n generalizing cursor items with
  | zero => exact ⟨_, rfl⟩
  | succ n ih =>
    obtain ⟨found, hrun, -⟩ := a.run_firstFrom cursor.position s
    rw [gather, run_bind, next, run_bind, hrun]
    rcases found with _ | ⟨j, o⟩
    · exact ⟨_, rfl⟩
    · exact ih (cursor.past j) ((j, o.value) :: items)

/-- The occupied slots with their values, in the order of their indices. -/
structure Lists (a : SlotArray) (m : Memory V) (items : List (UInt64 × V)) : Prop where
  sorted : (items.map Prod.fst).Pairwise (· < ·)
  mem_iff : ∀ i v, (i, v) ∈ items ↔ a.value? m i = some v
  length_eq : items.length = a.occupied m

theorem lists_itemsFrom_zero (a : SlotArray) (m : Memory V) : a.Lists m (a.itemsFrom m 0) :=
  ⟨pairwise_itemsFrom 0, fun _ _ => mem_itemsFrom_zero, length_itemsFrom_zero a m⟩

/-- The size is exact if no fill or removal that is done waits for being counted. -/
theorem size_eq_of_nothing_owed {pool : Pool V H α} {standings : List (Standing V)}
    (h : pool.Balanced a standings) (hfilled : standings.countP Standing.hasFilled = 0)
    (hemptied : standings.countP Standing.hasEmptied = 0) :
    pool.session.memory.size = a.occupied pool.session.memory := by
  have hbalance := h.balance
  rw [Standing.sum_owed, hfilled, hemptied] at hbalance
  rw [Memory.size]
  omega

theorem run_copyTo (a : SlotArray) (target : List V) (offset : ℕ) (s : Session V H) :
    (a.copyTo target offset).run s =
      if target.length < offset then
        (.ok (.error (.offsetOutOfRange offset target.length), target), s)
      else if target.length - offset < s.memory.size then
        (.ok (.error (.insufficientSpace s.memory.size (target.length - offset)), target), s)
      else match (gather a.next (target.length - offset) .start []).run s with
        | (.ok (items, _), t) =>
          (.ok (.ok items.length, overwrite target offset (items.map Prod.snd)), t)
        | (.error reason, t) => (.error reason, t) := by
  rw [copyTo]
  split
  · rfl
  · change (if target.length - offset < s.memory.size then _ else _ : Program V H _).run s = _
    split
    · rfl
    · rw [run_bind]
      rcases (gather a.next (target.length - offset) .start []).run s with ⟨(reason | _), t⟩
      · rfl
      · simp only [run_done, pure_eq, List.length_map]

/-- Values that fit are copied, and the rest of the destination is kept. -/
structure IsCopy (target : List V) (offset : ℕ) (values copy : List V) : Prop where
  length_eq : copy.length = target.length
  getElem?_eq : ∀ k, copy[k]? =
    if offset ≤ k ∧ k < offset + values.length then values[k - offset]? else target[k]?

theorem isCopy_overwrite {target : List V} {offset : ℕ} {values : List V}
    (h : offset + values.length ≤ target.length) :
    IsCopy target offset values (overwrite target offset values) :=
  ⟨length_overwrite h, getElem?_overwrite h⟩

/-- Threads of clients have made any steps on a fresh array, and no fill or removal that one of them
has made waits for being counted. Then a copy to any place of any destination has one of three ends,
and leaves the array as it is. It fails if the place is not in the destination, and if the occupied
slots are more than there is room for behind it; then the destination is as before. Otherwise all
their values are copied in the order of the slots' indices. (Only a scan of more than `2 ^ 64 - 32`
slots, whose table would take a quarter of all addresses of a 64-bit word, has a sum that wraps
around.) -/
theorem copyTo_copies_all_or_nothing (a : SlotArray) (host : H)
    {programs : List (List (Program V H α))} (h : ∀ list ∈ programs, ∀ p ∈ list, a.Client p)
    (schedule : List ℕ)
    (hfilled : ((Pool.fresh a host programs).standings schedule).countP Standing.hasFilled = 0)
    (hemptied : ((Pool.fresh a host programs).standings schedule).countP Standing.hasEmptied = 0)
    (target : List V) (offset : ℕ) :
    let s := ((Pool.fresh a host programs).run schedule).session
    let room := target.length - offset
    let ended := (a.copyTo target offset).run s
    ended.2 = s ∧
      (target.length < offset →
        ended.1 = .ok (.error (.offsetOutOfRange offset target.length), target)) ∧
      (offset ≤ target.length → room < a.occupied s.memory →
        ended.1 = .ok (.error (.insufficientSpace (a.occupied s.memory) room), target)) ∧
      (a.capacity.toNat ≤ 2 ^ 64 - 32 → offset ≤ target.length → a.occupied s.memory ≤ room →
        ∃ items copy, ended.1 = .ok (.ok (a.occupied s.memory), copy) ∧
          a.Lists s.memory items ∧ IsCopy target offset (items.map Prod.snd) copy) := by
  intro s room ended
  have hsize : s.memory.size = a.occupied s.memory :=
    size_eq_of_nothing_owed ((Pool.Balanced.fresh host h).run schedule) hfilled hemptied
  have hended : ended = (a.copyTo target offset).run s := rfl
  rw [run_copyTo, hsize] at hended
  clear_value ended
  subst hended
  refine ⟨?_, fun hlt => ?_, fun hle hroom => ?_, fun hcap hle hroom => ?_⟩
  · obtain ⟨found, hrun⟩ := a.exists_run_gather_next room .start [] s
    rw [hrun]
    split
    · rfl
    · split <;> rfl
  · rw [if_pos hlt]
  · rw [if_neg (Nat.not_lt.mpr hle), if_pos hroom]
  · have hlists := a.lists_itemsFrom_zero s.memory
    obtain ⟨after, hrun⟩ := run_gather_next_take (n := room) (s := s) .start [] (.inl hcap)
    have hall : (a.itemsFrom s.memory 0).take room = a.itemsFrom s.memory 0 :=
      List.take_of_length_le (by rw [hlists.length_eq]; exact hroom)
    rw [if_neg (Nat.not_lt.mpr hle), if_neg (Nat.not_lt.mpr hroom), hrun]
    refine ⟨a.itemsFrom s.memory 0, _, ?_, hlists, isCopy_overwrite ?_⟩
    · change Except.ok (Except.ok ((a.itemsFrom s.memory 0).take room).length,
        overwrite target offset (((a.itemsFrom s.memory 0).take room).map Prod.snd)) = _
      rw [hall, hlists.length_eq]
    · rw [List.length_map, hlists.length_eq]
      omega

/-- A thread has filled two slots and emptied one of them, and another one stands in the middle of a
look at a slot. The value that is left fits behind all but one of the elements, but not behind all
of them. -/
theorem copyTo_copies_all_or_nothing_of_exact_fit :
    let a : SlotArray := ⟨40⟩
    let programs : List (List (Program ℕ Unit Bool)) :=
      [[a.insert 3 5, a.insert 35 6, a.erase 3], [a.contains 35]]
    let s := ((Pool.fresh a () programs).run (List.replicate 25 0 ++ [1])).session
    ((a.copyTo [1, 2, 3] 2).run s).1 = .ok (.ok 1, [1, 2, 6]) ∧
      ((a.copyTo [1, 2, 3] 3).run s).1 = .ok (.error (.insufficientSpace 1 0), [1, 2, 3]) ∧
      ((a.copyTo [1, 2, 3] 4).run s).1 = .ok (.error (.offsetOutOfRange 4 3), [1, 2, 3]) := by
  intro a programs s
  have h : ∀ list ∈ programs, ∀ p ∈ list, a.Client p := by
    simp [programs, Client.insert, Client.erase, Client.contains]
  have hcopies := copyTo_copies_all_or_nothing a () h (List.replicate 25 0 ++ [1])
    (by decide +kernel) (by decide +kernel) [1, 2, 3]
  have hone : a.occupied s.memory = 1 := by decide +kernel
  refine ⟨?_, ?_, ?_⟩
  · obtain ⟨items, copy, hended, hlists, hcopy⟩ :=
      (hcopies 2).2.2.2 (by decide) (by decide) hone.le
    have hitem : (35, 6) ∈ items := (hlists.mem_iff 35 6).mpr (by decide +kernel)
    obtain ⟨item, rfl⟩ := List.length_eq_one_iff.mp (hlists.length_eq.trans hone)
    obtain rfl := List.mem_singleton.mp hitem
    have hvalues : copy = [1, 2, 6] := List.ext_getElem? fun k => by
      rw [hcopy.getElem?_eq]
      match k with
      | 0 | 1 | 2 => rfl
      | k + 3 => simp
    rw [hended, hone, hvalues]
  · have hended := (hcopies 3).2.2.1 (by decide) (by rw [hone]; decide)
    rwa [hone] at hended
  · exact (hcopies 4).2.1 (by decide)

end SlotArray

end AtomicSlots
