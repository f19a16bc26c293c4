import AtomicSlots.Proofs.Copies

/-!
# Copies while others act

The size that a copy asks for is out of date as soon as it is known, and it can be less than the
number of values that the walk comes to. So nothing that holds of a copy among other threads is due
to the check of the room. That it writes nowhere else is due to the number of steps that the walk
takes at most, and that it leaves out no slot that is occupied all the time, as long as there is
room, is due to the scans that the walk is made of.
-/
namespace AtomicSlots

variable {V H α : Type}

open Program

namespace SlotArray

variable {a : SlotArray} {seen seen' : Memory V → Prop} {n : ℕ} {i : UInt64}
  {items : List (UInt64 × V)}

/-- The memories that were seen bear out what a walk from an index on has yielded in at most so many
steps. -/
inductive Gathers (a : SlotArray) (seen : Memory V → Prop) :
    ℕ → UInt64 → List (UInt64 × V) → Prop
  | full {i : UInt64} : Gathers a seen 0 i []
  | ended {n : ℕ} {i : UInt64} : a.Glimpses seen i none → Gathers a seen (n + 1) i []
  | next {n : ℕ} {i j : UInt64} {o : Occupant V} {items : List (UInt64 × V)} :
      a.Glimpses seen i (some (j, o)) → Gathers a seen n (j + 1) items →
      Gathers a seen (n + 1) i ((j, o.value) :: items)

theorem Glimpses.mono {found : Option (UInt64 × Occupant V)} (h : a.Glimpses seen i found)
    (hseen : ∀ m, seen m → seen' m) : a.Glimpses seen' i found := by
  rcases found with _ | ⟨j, o⟩
  · exact fun k hk => (h k hk).mono hseen
  · obtain ⟨hle, ⟨m, hm, ho⟩, hpassed⟩ := h
    exact ⟨hle, ⟨m, hseen m hm, ho⟩, fun k hk hkj => (hpassed k hk hkj).mono hseen⟩

namespace Gathers

theorem le (h : a.Gathers seen n i items) : ∀ item ∈ items, i ≤ item.1 := by
  induction h with
  | full | ended => simp
  | next hglimpses _ ih =>
    obtain ⟨hle, hheld, -⟩ := hglimpses
    have hlt := lt_of_seenHolding hheld
    intro item hitem
    rcases List.mem_cons.mp hitem with rfl | hitem
    · exact hle
    · exact UInt64.le_trans hle (UInt64.le_of_lt ((lt_iff_add_one_le hlt).mpr (ih item hitem)))

theorem sorted (h : a.Gathers seen n i items) : (items.map Prod.fst).Pairwise (· < ·) := by
  induction h with
  | full | ended => exact .nil
  | next hglimpses hrest ih =>
    refine .cons (fun k hk => ?_) ih
    obtain ⟨item, hitem, rfl⟩ := List.mem_map.mp hk
    exact (lt_iff_add_one_le (lt_of_seenHolding hglimpses.2.1)).mpr (hrest.le item hitem)

/-- A slot that the walk has nothing of was seen empty, unless the walk stopped in front of it
because it was full. -/
theorem seenEmpty (h : a.Gathers seen n i items) {k : UInt64} (hk : i ≤ k)
    (hnot : k ∉ items.map Prod.fst) (hwalked : items.length < n ∨ ∃ item ∈ items, k < item.1) :
    a.SeenEmpty seen k := by
  induction h with
  | full => simp at hwalked
  | ended hnone => exact hnone k hk
  | @next n i j o items hglimpses _ ih =>
    obtain ⟨-, hheld, hpassed⟩ := hglimpses
    rw [List.map_cons, List.mem_cons, not_or] at hnot
    by_cases hkj : k < j
    · exact hpassed k hk hkj
    · have hjk : j < k := UInt64.lt_of_le_of_ne (UInt64.not_lt.mp hkj) (Ne.symm hnot.1)
      refine ih ((lt_iff_add_one_le (lt_of_seenHolding hheld)).mp hjk) hnot.2 ?_
      rcases hwalked with hlength | ⟨item, hitem, hlt⟩
      · exact .inl (by simpa using hlength)
      · rcases List.mem_cons.mp hitem with rfl | hitem
        · exact absurd hlt hkj
        · exact .inr ⟨item, hitem, hlt⟩

end Gathers

/-- What the steps of a walk have seen bears out what they have yielded. -/
structure HasGathered (a : SlotArray) (n : ℕ) (i : UInt64) (seen seen' : Memory V → Prop)
    (items : List (UInt64 × V)) : Prop where
  mono : ∀ m, seen m → seen' m
  length_le : items.length ≤ n
  held : ∀ item ∈ items, ∃ o, a.SeenHolding seen' item.1 o ∧ o.value = item.2
  gathers : a.capacity.toNat ≤ 2 ^ 64 - 32 → a.Gathers seen' n i items

section Steps

variable [Journal H]

theorem follows_gather_next (a : SlotArray) (n : ℕ) (cursor : Cursor)
    (earlier : List (UInt64 × V)) (seen : Memory V → Prop) (m : Memory V) :
    (gather a.next n cursor earlier : Program V H _).Follows a Sees
      (fun r seen' _ => ∃ items after, r = .ok (earlier.reverse ++ items, after) ∧
        a.HasGathered n cursor.position seen seen' items) seen m := by
  induction n generalizing cursor earlier seen m with
  | zero =>
    exact ⟨[], cursor, by simp, fun _ hm => hm, le_rfl, nofun, fun _ => .full⟩
  | succ n ih =>
    rw [gather, next]
    refine follows_bind.mpr (follows_bind.mpr ((a.follows_firstFrom cursor.position seen m).mono ?_))
    rintro r seen₁ l - ⟨found, rfl, hsought⟩
    rcases found with _ | ⟨j, o⟩
    · exact ⟨[], cursor, by simp, hsought.mono, by simp, nofun,
        fun hcap => .ended (hsought.glimpses hcap)⟩
    · refine (ih (cursor.past j) ((j, o.value) :: earlier) seen₁ l).mono ?_
      rintro r seen₂ k - ⟨items, after, rfl, hrest⟩
      refine ⟨(j, o.value) :: items, after, by simp,
        fun m hm => hrest.mono m (hsought.mono m hm), Nat.succ_le_succ hrest.length_le, ?_,
        fun hcap => .next ((hsought.glimpses hcap).mono hrest.mono) (hrest.gathers hcap)⟩
      obtain ⟨m, hm, ho⟩ := hsought.held j o rfl
      exact List.forall_mem_cons.mpr ⟨⟨o, ⟨m, hrest.mono m hm, ho⟩, rfl⟩, hrest.held⟩

end Steps

theorem within_gather_next (a : SlotArray) (n : ℕ) (cursor : Cursor)
    (earlier : List (UInt64 × V)) :
    (gather a.next n cursor earlier : Program V H _).Within (n * (33 * a.segmentCount.toNat)) := by
  induction n generalizing cursor earlier with
  | zero => trivial
  | succ n ih =>
    rw [gather, next, bind_assoc, Nat.succ_mul, Nat.add_comm]
    refine (a.within_firstFrom cursor.position).bind fun found => ?_
    rcases found with _ | ⟨j, o⟩
    · trivial
    · exact ih (cursor.past j) ((j, o.value) :: earlier)

theorem within_copyTo (a : SlotArray) (target : List V) (offset : ℕ) :
    (a.copyTo target offset : Program V H _).Within
      (1 + (target.length - offset) * (33 * a.segmentCount.toNat)) := by
  rw [copyTo]
  split
  · trivial
  · refine (within_perform _).bind fun needed => ?_
    split
    · trivial
    · exact (a.within_gather_next _ .start []).bind (n := 0) fun _ => within_done _ _

/-- The ends that a copy can have. What is said of memories has been met in one of those that the
copy may have seen. -/
inductive CopyEnds (a : SlotArray) (met : (Memory V → Prop) → Prop) (target : List V) (offset : ℕ) :
    Except CopyError ℕ × List V → Prop
  /-- The place is not in the destination. -/
  | outOfRange : target.length < offset →
      CopyEnds a met target offset (.error (.offsetOutOfRange offset target.length), target)
  /-- The size was more than the room. -/
  | noRoom {needed : ℕ} : offset ≤ target.length → target.length - offset < needed →
      met (·.size = needed) →
      CopyEnds a met target offset
        (.error (.insufficientSpace needed (target.length - offset)), target)
  /-- The values are copied side by side, and the rest of the destination is kept. Each of them was
  in its slot. The slots come in the order of their indices, and a slot that is left out was empty,
  if it is in front of one that is not or if there is room left. -/
  | copied {items : List (UInt64 × V)} {copy : List V} : offset ≤ target.length →
      met (·.size ≤ target.length - offset) → items.length ≤ target.length - offset →
      IsCopy target offset (items.map Prod.snd) copy →
      (∀ item ∈ items, item.1 < a.capacity ∧ met fun m => a.value? m item.1 = some item.2) →
      (a.capacity.toNat ≤ 2 ^ 64 - 32 → (items.map Prod.fst).Pairwise (· < ·) ∧
        ∀ k < a.capacity, k ∉ items.map Prod.fst →
          (items.length < target.length - offset ∨ ∃ item ∈ items, k < item.1) →
          met fun m => a.occupant? m k = none) →
      CopyEnds a met target offset (.ok items.length, copy)

theorem CopyEnds.mono {met met' : (Memory V → Prop) → Prop} {target : List V} {offset : ℕ}
    {ended : Except CopyError ℕ × List V} (h : a.CopyEnds met target offset ended)
    (hmet : ∀ P, met P → met' P) : a.CopyEnds met' target offset ended := by
  cases h with
  | outOfRange hlt => exact .outOfRange hlt
  | noRoom hle hlt hsize => exact .noRoom hle hlt (hmet _ hsize)
  | copied hle hsize hlength hcopy hheld hrest =>
    exact .copied hle (hmet _ hsize) hlength hcopy
      (fun item hitem => (hheld item hitem).imp_right (hmet _))
      fun hcap => (hrest hcap).imp_right fun hempty k hk hnot hwalked =>
        hmet _ (hempty k hk hnot hwalked)

/-- A walk that has taken no more steps than there is room makes for a copy. -/
theorem HasGathered.copyEnds {target : List V} {offset : ℕ} (hle : offset ≤ target.length)
    (hsize : ∃ m, seen m ∧ m.size ≤ target.length - offset)
    (h : a.HasGathered (target.length - offset) 0 seen seen' items) :
    a.CopyEnds (fun P => ∃ m, seen' m ∧ P m) target offset
      (.ok (items.map Prod.snd).length, overwrite target offset (items.map Prod.snd)) := by
  have hlength := h.length_le
  rw [List.length_map]
  refine .copied hle ?_ hlength (isCopy_overwrite ?_) ?_ fun hcap => ?_
  · obtain ⟨m, hm, hsize⟩ := hsize
    exact ⟨m, h.mono m hm, hsize⟩
  · rw [List.length_map]
    omega
  · intro item hitem
    obtain ⟨o, hholding, hvalue⟩ := h.held item hitem
    obtain ⟨m, hm, ho⟩ := id hholding
    exact ⟨lt_of_seenHolding hholding, m, hm, by simp [value?, ho, hvalue]⟩
  · have hgathers := h.gathers hcap
    exact ⟨hgathers.sorted, fun k hk hnot hwalked =>
      hgathers.seenEmpty UInt64.zero_le hnot hwalked hk⟩

section Calls

variable [Journal H]

theorem follows_copyTo (a : SlotArray) (target : List V) (offset : ℕ) (seen : Memory V → Prop)
    (m : Memory V) :
    (a.copyTo target offset : Program V H _).Follows a Sees (fun r seen' _ => ∃ ended,
      r = .ok ended ∧ a.CopyEnds (fun P => ∃ m, seen' m ∧ P m) target offset ended) seen m := by
  rw [copyTo]
  split
  · rename_i hlt
    exact ⟨_, rfl, .outOfRange hlt⟩
  · rename_i hle
    have hle := Nat.not_lt.mp hle
    intro s hl hs
    refine ⟨trivial, _, Sees.sees_also seen _ s.memory _, ?_⟩
    change (if target.length - offset < s.memory.size then _ else _ : Program V H _).Follows a Sees
      _ (Sees.also seen s.memory) s.memory
    split
    · rename_i hlt
      exact ⟨_, rfl, .noRoom hle hlt ⟨s.memory, .inr rfl, rfl⟩⟩
    · rename_i hroom
      refine follows_bind.mpr ((a.follows_gather_next _ .start [] _ _).mono ?_)
      rintro r seen' l - ⟨items, after, rfl, hgathered⟩
      exact ⟨_, rfl, hgathered.copyEnds hle ⟨s.memory, .inr rfl, Nat.not_lt.mp hroom⟩⟩

/-- Threads of lawful programs share a fresh array, and one of them has come to a copy. However
their actions interleave from then on, the copy has ended by the time its thread has had 33 turns
for each segment of the table and each place behind the offset, and one for the size. If it fails
the destination is as before. If it does not it has written as many values side by side as it
answers, all of them behind the offset and inside the destination, and each was in its slot at some
moment of the copy. Their slots are in the order of their indices; every slot in front of the last
of them that is not one of them was empty at some moment of the copy, and so was every other slot if
there is room left. That the size was no more than the room was true at some moment, too, but
nothing else depends on it. -/
theorem copyTo_copies_what_it_meets (a : SlotArray) (host : H)
    {programs : List (List (Program V H α))} (h : ∀ list ∈ programs, ∀ p ∈ list, p.Lawful a)
    (earlier : List ℕ) {k : ℕ} {target : List V} {offset : ℕ}
    {f : Except CopyError ℕ × List V → Program V H α} {rest : List (Program V H α)}
    {answers : List (Except Panic α)}
    (hk : ((Pool.fresh a host programs).run earlier).threads[k]? =
      some ⟨(a.copyTo target offset >>= f) :: rest, answers⟩)
    {schedule : List ℕ}
    (hturns : 1 + (target.length - offset) * (33 * a.segmentCount.toNat) ≤ schedule.count k) :
    let pool := (Pool.fresh a host programs).run earlier
    ∃ during later ended, schedule = during ++ later ∧
      during.count k ≤ 1 + (target.length - offset) * (33 * a.segmentCount.toNat) ∧
      (pool.run during).threads[k]? = some ⟨f ended :: rest, answers⟩ ∧
      a.CopyEnds (pool.Sometime during) target offset ended := by
  intro pool
  have hpool : pool.Lawful a := (Pool.lawful_of_programs (sound_ofEntries a) h).run earlier
  obtain ⟨during, later, ended, seen, hschedule, hcount, hend, hended, hsometime⟩ :=
    Pool.exists_return hpool hk (a.within_copyTo target offset) (a.follows_copyTo target offset _ _)
      hturns
  exact ⟨during, later, ended, hschedule, hcount, hend, hended.mono hsometime⟩

/-- A copy asks for the size of an empty array, and then two slots are filled, one more than there
is room for behind the offset. Slot 0 is filled while the copy is under way, but the copy has found
its segment missing, and copies the value of slot 33. -/
theorem copyTo_copies_what_it_meets_of_stale_size :
    let a : SlotArray := ⟨40⟩
    let f (ended : Except CopyError ℕ × List ℕ) : Program ℕ Unit (List ℕ) := .done ended.2
    let insert (i : UInt64) (v : ℕ) : Program ℕ Unit (List ℕ) := a.insert i v >>= fun _ => .done []
    let pool := Pool.fresh a () [[a.copyTo [1, 2] 1 >>= f], [insert 33 8, insert 34 9, insert 0 6]]
    let schedule := [0] ++ List.replicate 12 1 ++ [0] ++ List.replicate 7 1 ++ List.replicate 66 0
    (pool.run schedule).answers = [[[1, 8]], [[], [], []]] ∧
      (pool.run schedule).session.memory.size = 3 ∧
      ∃ during later ended, schedule = during ++ later ∧
        (pool.run during).threads[0]? = some ⟨[f ended], []⟩ ∧
        a.CopyEnds (pool.Sometime during) [1, 2] 1 ended := by
  intro a f insert pool schedule
  have h : ∀ list ∈ [[a.copyTo [1, 2] 1 >>= f], [insert 33 8, insert 34 9, insert 0 6]],
      ∀ p ∈ list, p.Lawful a := by
    have hcopy : (a.copyTo [1, 2] 1 >>= f).Lawful a :=
      Client.lawful (.bind (.copyTo [1, 2] 1) fun _ => .done _)
    have hinsert : ∀ i v, (insert i v).Lawful a :=
      fun i v => Client.lawful (.bind (.insert i v) fun _ => .done _)
    simp [hcopy, hinsert]
  have hturns : 1 + (List.length [1, 2] - 1) * (33 * a.segmentCount.toNat) ≤ schedule.count 0 := by
    decide
  obtain ⟨during, later, ended, hschedule, -, hend, hended⟩ :=
    copyTo_copies_what_it_meets a () h [] (f := f) rfl hturns
  exact ⟨by decide +kernel, by decide +kernel, during, later, ended, hschedule, hend, hended⟩

end Calls

end SlotArray

end AtomicSlots
