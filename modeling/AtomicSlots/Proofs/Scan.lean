import AtomicSlots.Proofs.Slots
import AtomicSlots.SlotArray.Lifecycle

/-!
# Looking at slots alone

While nobody else acts, an operation that only looks at slots leaves the session as it is, and what
it answers can be read off the memory. A scan comes to the first occupied slot at or behind its
index. It adds 32 to a segment's first index to get to the next segment; in the last segment of an
array of more than `2 ^ 64 - 32` slots this sum wraps around, and the scan goes on from the front.
-/
namespace AtomicSlots

variable {V H : Type} [Journal H] {a : SlotArray} {s : Session V H} {i : UInt64}

open Program

namespace SlotArray

theorem cell?_of_missing {m : Memory V} (h : m.segmentAt (Address.ofIndex i).entry = none) :
    a.cell? m i = none := by
  simp only [cell?, address?]
  split
  · simp [h]
  · rfl

theorem occupant?_of_missing {m : Memory V} (h : m.segmentAt (Address.ofIndex i).entry = none) :
    a.occupant? m i = none := occupant?_of_cell?_eq_none (cell?_of_missing h)

/-- Each entry of the table selects a slot of the array. -/
theorem exists_slot_of_entry {e : ℕ} (he : e < a.segmentCount.toNat) :
    ∃ i, i < a.capacity ∧ (Address.ofIndex i).entry.toNat = e := by
  rw [segmentCount, toNat_segmentCount] at he
  have hlt : 32 * e < a.capacity.toNat := by omega
  have hi : (UInt64.ofNat (32 * e)).toNat = 32 * e := a.toNat_ofNat_of_lt hlt
  refine ⟨.ofNat (32 * e), UInt64.lt_iff_toNat_lt.mpr (by omega), ?_⟩
  rw [Address.toNat_entry_ofIndex, hi]
  omega

/-- Where every slot is occupied, every segment is there. -/
theorem Sound.allocated_of_full {m : Memory V} (h : a.Sound m)
    (hfull : ∀ i < a.capacity, (a.value? m i).isSome = true) :
    m.allocated = a.segmentCount.toNat := by
  rw [Memory.allocated, ← h.size_table, Array.countP_eq_size]
  intro entry hmem
  obtain ⟨e, he, rfl⟩ := Array.mem_iff_getElem.mp hmem
  obtain ⟨i, hi, hentry⟩ := exists_slot_of_entry (a := a) (by rwa [← h.size_table])
  by_contra hnone
  have hsegment : m.segmentAt (Address.ofIndex i).entry = none := by
    rw [Memory.segmentAt, hentry]
    simpa [he] using hnone
  have hsome := hfull i hi
  rw [value?, occupant?_of_missing hsegment] at hsome
  cases hsome

theorem occupant?_of_segment {m : Memory V} {segment : ℕ} (hi : i < a.capacity)
    (h : m.segmentAt (Address.ofIndex i).entry = some segment) :
    a.occupant? m i = m.content ⟨segment, (Address.ofIndex i).offset⟩ :=
  occupant?_of_cell? (cell?_eq_some_iff.mpr ⟨hi, h, rfl⟩)

theorem run_map {α β : Type} (p : Program V H α) (f : α → β) (s : Session V H) :
    (f <$> p).run s = (f <$> (p.run s).1, (p.run s).2) := by
  change (p >>= fun x => done (f x)).run s = _
  rw [run_bind]
  rcases p.run s with ⟨(reason | x), t⟩ <;> rfl

theorem run_load (cell : Cell) (s : Session V H) :
    (cell.load : Program V H _).run s = (.ok (s.memory.content cell), s) := rfl

/-- A segment that is there is taken. -/
theorem run_segmentOrFresh_of_segment {e : UInt64} {segment : ℕ}
    (h : s.memory.segmentAt e = some segment) : (segmentOrFresh e).run s = (.ok segment, s) := by
  simp only [segmentOrFresh, perform, step_bind, done_bind, run_step, Action.perform, h]
  rfl

/-- A missing segment is published and announced. -/
theorem run_segmentOrFresh_of_missing {e : UInt64} (h : s.memory.segmentAt e = none) :
    (segmentOrFresh e).run s = (.ok s.memory.segments.size,
      ⟨(s.memory.publish e).2, Journal.record (.allocated e) s.host⟩) := by
  simp only [segmentOrFresh, perform, step_bind, done_bind, run_step, Action.perform, h,
    Memory.publish_of_none h]
  rfl

section Access

variable {α β : Type} {purpose : Access} {use : Cell → Program V H α} {f : Option α → Program V H β}

theorem run_access_fill_of_segment {segment : ℕ} (hi : i < a.capacity)
    (h : s.memory.segmentAt (Address.ofIndex i).entry = some segment) :
    (a.access .fill i use >>= f).run s =
      (use ⟨segment, (Address.ofIndex i).offset⟩ >>= fun x => f (some x)).run s := by
  rw [access_fill_bind hi, run_bind, run_segmentOrFresh_of_segment h]

/-- A missing segment is announced before the program on the cell begins. -/
theorem run_access_fill_of_missing (hi : i < a.capacity)
    (h : s.memory.segmentAt (Address.ofIndex i).entry = none) :
    (a.access .fill i use >>= f).run s =
      (use ⟨s.memory.segments.size, (Address.ofIndex i).offset⟩ >>= fun x => f (some x)).run
        ⟨(s.memory.publish (Address.ofIndex i).entry).2,
          Journal.record (.allocated (Address.ofIndex i).entry) s.host⟩ := by
  rw [access_fill_bind hi, run_bind, run_segmentOrFresh_of_missing h]

/-- An access for looking at a slot that has no cell ends at once. -/
theorem run_access_of_missing (hp : purpose ≠ .fill) (h : a.cell? s.memory i = none) :
    (a.access purpose i use).run s = (.ok none, s) := by
  by_cases hi : i < a.capacity
  · have hn : s.memory.segmentAt (Address.ofIndex i).entry = none := by
      simpa [cell?, address?, hi] using h
    rw [access_of_lt hi hp]
    simp only [perform, step_bind, done_bind, run_step, Action.perform]
    rw [hn]
    rfl
  · rw [access_of_le (UInt64.not_lt.mp hi)]
    rfl

theorem run_access_of_cell {cell : Cell} (hp : purpose ≠ .fill)
    (h : a.cell? s.memory i = some cell) :
    (a.access purpose i use).run s = (some <$> use cell).run s := by
  obtain ⟨hi, hn, ho⟩ := cell?_eq_some_iff.mp h
  rw [access_of_lt hi hp]
  simp only [perform, step_bind, done_bind, run_step, Action.perform]
  rw [hn, ho]

theorem run_access_bind_of_missing (hp : purpose ≠ .fill) (h : a.cell? s.memory i = none) :
    (a.access purpose i use >>= f).run s = (f none).run s := by
  rw [run_bind, run_access_of_missing hp h]

theorem run_access_bind_of_cell {cell : Cell} (hp : purpose ≠ .fill)
    (h : a.cell? s.memory i = some cell) :
    (a.access purpose i use >>= f).run s = (use cell >>= fun x => f (some x)).run s := by
  rw [run_bind, run_access_of_cell hp h, ← run_bind, bind_map_left]

end Access

theorem run_get? (a : SlotArray) (i : UInt64) (s : Session V H) :
    (a.get? i).run s = (.ok (a.value? s.memory i), s) := by
  rw [get?, run_bind]
  cases hc : a.cell? s.memory i with
  | none =>
    rw [run_access_of_missing (by decide) hc]
    simp [value?, occupant?, hc]
  | some cell =>
    rw [run_access_of_cell (by decide) hc, run_map, value?, occupant?_of_cell? hc]
    rfl

theorem run_contains (a : SlotArray) (i : UInt64) (s : Session V H) :
    (a.contains i).run s = (.ok (a.occupant? s.memory i).isSome, s) := by
  rw [contains, accessSignal, run_map]
  cases hc : a.cell? s.memory i with
  | none =>
    rw [run_access_of_missing (by decide) hc]
    simp [occupant?, hc]
  | some cell =>
    rw [run_access_of_cell (by decide) hc, run_map, occupant?_of_cell? hc]
    rfl

/-- The first index from one on at which a search stops, where all indices in front of it are ones
that it may pass. -/
def FindsFirst (stops : UInt64 → Occupant V → Prop) (passes : UInt64 → Prop) (i : UInt64) :
    Option (UInt64 × Occupant V) → Prop
  | none => ∀ k, i ≤ k → passes k
  | some (j, o) => i ≤ j ∧ stops j o ∧ ∀ k, i ≤ k → k < j → passes k

/-- Indices that may be passed in front of the place from which a search goes on make no
difference. -/
theorem FindsFirst.extend {stops : UInt64 → Occupant V → Prop} {passes : UInt64 → Prop}
    {i j : UInt64} {found : Option (UInt64 × Occupant V)} (h : FindsFirst stops passes j found)
    (hij : i ≤ j) (hpasses : ∀ k, i ≤ k → k < j → passes k) : FindsFirst stops passes i found := by
  have hcases : ∀ k, i ≤ k → (j ≤ k → passes k) → passes k := by
    intro k hk hlater
    by_cases hkj : k < j
    · exact hpasses k hk hkj
    · exact hlater (UInt64.not_lt.mp hkj)
  rcases found with _ | ⟨l, o⟩
  · exact fun k hk => hcases k hk (h k)
  · obtain ⟨hle, hl, hmin⟩ := h
    exact ⟨UInt64.le_trans hij hle, hl, fun k hk hkl => hcases k hk fun hjk => hmin k hjk hkl⟩

/-- What a scan from an index on is to find: the first occupied slot that is not in front of it. -/
def Finds (a : SlotArray) (m : Memory V) (i : UInt64) : Option (UInt64 × Occupant V) → Prop
  | none => ∀ k, i ≤ k → a.occupant? m k = none
  | some (j, o) => i ≤ j ∧ a.occupant? m j = some o ∧
      ∀ k, i ≤ k → k < j → a.occupant? m k = none

theorem finds_iff {m : Memory V} {found : Option (UInt64 × Occupant V)} :
    a.Finds m i found ↔ FindsFirst (fun j o => a.occupant? m j = some o)
      (fun k => a.occupant? m k = none) i found := by cases found <;> rfl

/-- There is only one first occupied slot. -/
theorem Finds.unique {m : Memory V} {found other : Option (UInt64 × Occupant V)}
    (h : a.Finds m i found) (h' : a.Finds m i other) : found = other := by
  have hnone : ∀ {j o}, a.Finds m i (some (j, o)) → ¬ a.Finds m i none := by
    intro j o hsome hnone
    have hempty := hnone j hsome.1
    rw [hsome.2.1] at hempty
    cases hempty
  have hle : ∀ {j k o p}, a.Finds m i (some (j, o)) → a.Finds m i (some (k, p)) → j ≤ k := by
    intro j k o p hj hk
    by_contra hlt
    have hempty := hj.2.2 k hk.1 (UInt64.not_le.mp hlt)
    rw [hk.2.1] at hempty
    cases hempty
  rcases found with _ | ⟨j, o⟩ <;> rcases other with _ | ⟨k, p⟩
  · rfl
  · exact absurd h (hnone h')
  · exact absurd h' (hnone h)
  · obtain rfl : j = k := UInt64.le_antisymm (hle h h') (hle h' h)
    have hsame := h.2.1.symm.trans h'.2.1
    cases hsame
    rfl

end SlotArray

theorem toNat_add_one {k : UInt64} (h : k.toNat + 1 < 2 ^ 64) : (k + 1).toNat = k.toNat + 1 := by
  rw [UInt64.toNat_add]
  simp
  omega

/-- The same for the cells of a segment. -/
def SegmentFinds (m : Memory V) (segment n : ℕ) (offset : UInt64) :
    Option (UInt64 × Occupant V) → Prop
  | none => ∀ k : UInt64, offset ≤ k → k.toNat < offset.toNat + n → m.content ⟨segment, k⟩ = none
  | some (j, o) => offset ≤ j ∧ j.toNat < offset.toNat + n ∧ m.content ⟨segment, j⟩ = some o ∧
      ∀ k, offset ≤ k → k < j → m.content ⟨segment, k⟩ = none

theorem run_firstInSegment (segment : ℕ) {n : ℕ} (offset : UInt64) (h : offset.toNat + n ≤ 32) :
    ∃ found, (firstInSegment segment n offset).run s = (.ok found, s) ∧
      SegmentFinds s.memory segment n offset found := by
  induction n generalizing offset with
  | zero =>
    refine ⟨none, rfl, fun k hk hlt => ?_⟩
    rw [UInt64.le_iff_toNat_le] at hk
    omega
  | succ n ih =>
    rw [firstInSegment, run_bind, SlotArray.run_load]
    cases ho : s.memory.content ⟨segment, offset⟩ with
    | some o =>
      refine ⟨some (offset, o), rfl, UInt64.le_refl _, by omega, ho, fun k hk hlt => ?_⟩
      exact absurd hlt (UInt64.not_lt.mpr hk)
    | none =>
      have hnext : (offset + 1).toNat = offset.toNat + 1 := toNat_add_one (by omega)
      obtain ⟨found, hrun, hfound⟩ := ih (offset + 1) (by omega)
      -- the cell that was looked at is not the one that is found
      have hstep : ∀ k : UInt64, offset ≤ k → k = offset ∨ offset + 1 ≤ k := by
        intro k hk
        rw [UInt64.le_iff_toNat_le] at hk ⊢
        rw [← UInt64.toNat_inj]
        omega
      refine ⟨found, hrun, ?_⟩
      rcases found with _ | ⟨j, o⟩
      · intro k hk hlt
        rcases hstep k hk with rfl | hk
        · exact ho
        · exact hfound k hk (by omega)
      · obtain ⟨hle, hlt, hj, hmin⟩ := hfound
        refine ⟨?_, by omega, hj, fun k hk hkj => ?_⟩
        · rw [UInt64.le_iff_toNat_le] at hle ⊢
          omega
        · rcases hstep k hk with rfl | hk
          · exact ho
          · exact hmin k hk hkj

namespace SlotArray

/-- The index behind a slot is no farther than the end of the array. -/
theorem toNat_add_one_of_lt (h : i < a.capacity) : (i + 1).toNat = i.toNat + 1 := by
  have hcap := a.capacity.toNat_lt
  exact toNat_add_one (by have := UInt64.lt_iff_toNat_lt.mp h; omega)

theorem lt_iff_add_one_le (h : i < a.capacity) {k : UInt64} : i < k ↔ i + 1 ≤ k := by
  rw [UInt64.lt_iff_toNat_lt, UInt64.le_iff_toNat_le, toNat_add_one_of_lt h]
  exact Iff.rfl

theorem entry_congr {i k : UInt64} (h : k.toNat / 32 = i.toNat / 32) :
    (Address.ofIndex k).entry = (Address.ofIndex i).entry := by
  apply UInt64.toNat_inj.mp
  simpa using h

/-- How far behind the start of its segment a slot lies. -/
theorem toNat_sub_base (i : UInt64) :
    (i - Address.base (Address.ofIndex i).entry).toNat = i.toNat % 32 := by
  have hbase := Address.toNat_base_entry i
  rw [UInt64.toNat_sub_of_le _ _ (UInt64.le_iff_toNat_le.mpr (by omega))]
  omega

/-- How many cells of its segment a slot has from itself on, up to the last one of the array. -/
theorem toNat_restOfSegment (hi : i < a.capacity) :
    let base := Address.base (Address.ofIndex i).entry
    (min segmentSize (a.capacity - base) - (i - base)).toNat =
      min 32 (a.capacity.toNat - 32 * (i.toNat / 32)) - i.toNat % 32 := by
  intro base
  have hbase : base.toNat = 32 * (i.toNat / 32) := Address.toNat_base_entry i
  have hstart : (i - base).toNat = i.toNat % 32 := toNat_sub_base i
  have hlt := UInt64.lt_iff_toNat_lt.mp hi
  have hrest : (a.capacity - base).toNat = a.capacity.toNat - base.toNat :=
    UInt64.toNat_sub_of_le _ _ (UInt64.le_iff_toNat_le.mpr (by omega))
  have hstop : (min segmentSize (a.capacity - base)).toNat =
      min 32 (a.capacity.toNat - base.toNat) := by
    change (if segmentSize ≤ a.capacity - base then segmentSize else a.capacity - base).toNat = _
    simp only [UInt64.le_iff_toNat_le, hrest]
    have hsize : segmentSize.toNat = 32 := rfl
    split <;> omega
  rw [UInt64.toNat_sub_of_le _ _ (UInt64.le_iff_toNat_le.mpr (by omega))]
  omega

/-- The search of a segment comes to the first occupied slot in that segment. -/
theorem run_firstInSegment_of_slot {segment : ℕ} (hi : i < a.capacity)
    (hn : s.memory.segmentAt (Address.ofIndex i).entry = some segment) :
    let base := Address.base (Address.ofIndex i).entry
    let stop := min segmentSize (a.capacity - base)
    ∃ found, (firstInSegment segment (stop - (i - base)).toNat (i - base)).run s = (.ok found, s) ∧
      match found with
      | none => ∀ k, i ≤ k → k.toNat / 32 = i.toNat / 32 → a.occupant? s.memory k = none
      | some (offset, o) => a.Finds s.memory i (some (base + offset, o)) := by
  intro base stop
  have hbase : base.toNat = 32 * (i.toNat / 32) := Address.toNat_base_entry i
  have hstart : (i - base).toNat = i.toNat % 32 := toNat_sub_base i
  have hlength : (stop - (i - base)).toNat =
      min 32 (a.capacity.toNat - 32 * (i.toNat / 32)) - i.toNat % 32 := toNat_restOfSegment hi
  have hlt := UInt64.lt_iff_toNat_lt.mp hi
  have hcap := a.capacity.toNat_lt
  -- a slot of the segment is where its offset says
  have hslot : ∀ k : UInt64, k < a.capacity → k.toNat / 32 = i.toNat / 32 →
      a.occupant? s.memory k = s.memory.content ⟨segment, (Address.ofIndex k).offset⟩ :=
    fun k hk hsame => occupant?_of_segment hk (by rw [entry_congr hsame, hn])
  have hoffset : ∀ k : UInt64, (Address.ofIndex k).offset.toNat = k.toNat % 32 := by simp
  obtain ⟨found, hrun, hfound⟩ := run_firstInSegment (s := s) segment
    (n := (stop - (i - base)).toNat) (i - base) (by omega)
  refine ⟨found, hrun, ?_⟩
  rcases found with _ | ⟨offset, o⟩
  · intro k hk hsame
    rw [UInt64.le_iff_toNat_le] at hk
    by_cases hkc : k < a.capacity
    · rw [hslot k hkc hsame]
      rw [UInt64.lt_iff_toNat_lt] at hkc
      have hko := hoffset k
      exact hfound _ (UInt64.le_iff_toNat_le.mpr (by omega)) (by omega)
    · exact occupant?_of_le _ (UInt64.not_lt.mp hkc)
  · obtain ⟨hle, hbound, ho, hmin⟩ := hfound
    rw [UInt64.le_iff_toNat_le] at hle
    have hj : (base + offset).toNat = base.toNat + offset.toNat := by
      rw [UInt64.toNat_add]
      omega
    have hsame : (base + offset).toNat / 32 = i.toNat / 32 := by omega
    have hjo : (Address.ofIndex (base + offset)).offset = offset := by
      apply UInt64.toNat_inj.mp
      rw [hoffset]
      omega
    refine ⟨UInt64.le_iff_toNat_le.mpr (by omega), ?_, fun k hk hkj => ?_⟩
    · rw [hslot _ (UInt64.lt_iff_toNat_lt.mpr (by omega)) hsame, hjo, ho]
    · rw [UInt64.le_iff_toNat_le] at hk
      rw [UInt64.lt_iff_toNat_lt] at hkj
      rw [hslot k (UInt64.lt_iff_toNat_lt.mpr (by omega)) (by omega)]
      have hko := hoffset k
      exact hmin _ (UInt64.le_iff_toNat_le.mpr (by omega)) (UInt64.lt_iff_toNat_lt.mpr (by omega))

/-- What a scan finds that may look at all segments from its index on: the first occupied slot. Only
if that would need an index behind the last word, it may find another one. -/
def FindsOrWraps (a : SlotArray) (m : Memory V) (i : UInt64)
    (found : Option (UInt64 × Occupant V)) : Prop :=
  a.Finds m i found ∨ (2 ^ 64 - 32 < a.capacity.toNat ∧ a.Finds m i none)

theorem finds_none_of_le {m : Memory V} (h : a.capacity.toNat ≤ i.toNat) : a.Finds m i none := by
  intro k hk
  exact occupant?_of_le _ (UInt64.le_trans (UInt64.le_iff_toNat_le.mpr h) hk)

/-- A search that passes the rest of a segment finds what a search from the next segment on finds.
Where the index of that segment wraps around, there is nothing to find behind the segment. -/
theorem FindsFirst.of_next_segment {stops : UInt64 → Occupant V → Prop} {passes : UInt64 → Prop}
    {found : Option (UInt64 × Occupant V)} (hi : i < a.capacity)
    (hpasses : ∀ k, i ≤ k → k.toNat / 32 = i.toNat / 32 → passes k)
    (h : i.toNat / 32 + 1 =
        (Address.base (Address.ofIndex i).entry + segmentSize).toNat / 32 →
      FindsFirst stops passes (Address.base (Address.ofIndex i).entry + segmentSize) found ∨
        2 ^ 64 - 32 < a.capacity.toNat ∧
        FindsFirst stops passes (Address.base (Address.ofIndex i).entry + segmentSize) none) :
    FindsFirst stops passes i found ∨
      2 ^ 64 - 32 < a.capacity.toNat ∧ FindsFirst stops passes i none := by
  have hlt := UInt64.lt_iff_toNat_lt.mp hi
  have hcap := a.capacity.toNat_lt
  have hadd : (Address.base (Address.ofIndex i).entry + segmentSize).toNat =
      (32 * (i.toNat / 32) + 32) % 2 ^ 64 := by
    rw [UInt64.toNat_add, Address.toNat_base_entry]
    rfl
  by_cases hwrap : 32 * (i.toNat / 32) + 32 = 2 ^ 64
  · refine .inr ⟨by omega, fun k hk => hpasses k hk ?_⟩
    have hword := k.toNat_lt
    rw [UInt64.le_iff_toNat_le] at hk
    omega
  · have hle : i ≤ Address.base (Address.ofIndex i).entry + segmentSize := by
      rw [UInt64.le_iff_toNat_le, hadd]
      omega
    have hskip : ∀ k, i ≤ k → k < Address.base (Address.ofIndex i).entry + segmentSize →
        passes k := by
      intro k hk hkj
      rw [UInt64.lt_iff_toNat_lt, hadd] at hkj
      apply hpasses k hk
      rw [UInt64.le_iff_toNat_le] at hk
      omega
    rcases h (by omega) with hfinds | ⟨hbig, hfinds⟩
    · exact .inl (hfinds.extend hle hskip)
    · exact .inr ⟨hbig, hfinds.extend hle hskip⟩

theorem FindsOrWraps.of_next_segment {m : Memory V} {found : Option (UInt64 × Occupant V)}
    (hi : i < a.capacity)
    (hempty : ∀ k, i ≤ k → k.toNat / 32 = i.toNat / 32 → a.occupant? m k = none)
    (h : i.toNat / 32 + 1 =
        (Address.base (Address.ofIndex i).entry + segmentSize).toNat / 32 →
      a.FindsOrWraps m (Address.base (Address.ofIndex i).entry + segmentSize) found) :
    a.FindsOrWraps m i found := by
  simp only [FindsOrWraps, finds_iff] at h ⊢
  exact FindsFirst.of_next_segment hi hempty h

/-- A scan answers with an occupied slot or with none. It finds the first one if it may look at all
segments from its index on. -/
theorem run_scan (a : SlotArray) (n : ℕ) (i : UInt64) (s : Session V H) :
    ∃ found, (a.scan n i).run s = (.ok found, s) ∧
      (∀ j o, found = some (j, o) → a.occupant? s.memory j = some o) ∧
      (a.segmentCount.toNat ≤ n + i.toNat / 32 → a.FindsOrWraps s.memory i found) := by
  have hcount : a.segmentCount.toNat = (a.capacity.toNat + 31) / 32 := toNat_segmentCount a.capacity
  induction n generalizing i with
  | zero => exact ⟨none, rfl, by simp, fun h => .inl (finds_none_of_le (by omega))⟩
  | succ n ih =>
    rw [scan]
    split
    · rename_i hi
      obtain ⟨later, hrun, hsome, hlater⟩ :=
        ih (Address.base (Address.ofIndex i).entry + segmentSize)
      have hnext (hempty : ∀ k, i ≤ k → k.toNat / 32 = i.toNat / 32 →
          a.occupant? s.memory k = none) (hfuel : a.segmentCount.toNat ≤ n + 1 + i.toNat / 32) :
          a.FindsOrWraps s.memory i later :=
        .of_next_segment hi hempty fun hentry => hlater (by omega)
      simp only [perform, step_bind, done_bind, run_step, Action.perform]
      cases hn : s.memory.segmentAt (Address.ofIndex i).entry with
      | none =>
        have hempty (k) (_ : i ≤ k) (hsame : k.toNat / 32 = i.toNat / 32) :
            a.occupant? s.memory k = none :=
          occupant?_of_missing (by rw [entry_congr hsame, hn])
        exact ⟨later, hrun, hsome, hnext hempty⟩
      | some segment =>
        obtain ⟨found, hfirst, hfound⟩ := run_firstInSegment_of_slot hi hn
        simp only [run_bind, hfirst]
        rcases found with _ | ⟨offset, o⟩
        · exact ⟨later, hrun, hsome, hnext hfound⟩
        · refine ⟨_, rfl, fun j p hj => ?_, fun _ => .inl hfound⟩
          cases hj
          exact hfound.2.1
    · rename_i hi
      have hle := UInt64.le_iff_toNat_le.mp (UInt64.not_lt.mp hi)
      exact ⟨none, rfl, by simp, fun _ => .inl (finds_none_of_le hle)⟩

/-- The first occupied slot from an index on, unless the sum that leads to the next segment wraps
around behind the last one. Then the slots from that index on are all empty. -/
theorem run_firstFrom (a : SlotArray) (i : UInt64) (s : Session V H) :
    ∃ found, (a.firstFrom i).run s = (.ok found, s) ∧
      (∀ j o, found = some (j, o) → a.occupant? s.memory j = some o) ∧
      a.FindsOrWraps s.memory i found := by
  obtain ⟨found, hrun, hsome, hfinds⟩ := a.run_scan a.segmentCount.toNat i s
  exact ⟨found, hrun, hsome, hfinds (by omega)⟩

theorem run_firstFrom_finds (h : a.capacity.toNat ≤ 2 ^ 64 - 32) (i : UInt64) (s : Session V H) :
    ∃ found, (a.firstFrom i).run s = (.ok found, s) ∧ a.Finds s.memory i found := by
  obtain ⟨found, hrun, -, hfinds⟩ := a.run_firstFrom i s
  rcases hfinds with hfinds | ⟨hbig, -⟩
  · exact ⟨found, hrun, hfinds⟩
  · exact absurd h (by omega)

/-- The occupied slots from an index on with their values, in the order of their indices. -/
def itemsFrom (a : SlotArray) (m : Memory V) (first : ℕ) : List (UInt64 × V) :=
  (List.range' first (a.capacity.toNat - first)).filterMap fun i =>
    (a.value? m (.ofNat i)).map (.ofNat i, ·)

theorem length_itemsFrom_zero (a : SlotArray) (m : Memory V) :
    (a.itemsFrom m 0).length = a.occupied m := by
  rw [itemsFrom, List.length_filterMap_eq_countP, occupied, slots, List.countP_map]
  simp only [Nat.sub_zero, List.range_eq_range', Option.isSome_map]
  rfl

/-- Empty slots have no items. -/
theorem items_eq_nil {m : Memory V} {first n : ℕ} (hn : n ≤ a.capacity.toNat - first)
    (h : ∀ k : UInt64, first ≤ k.toNat → k.toNat < first + n → a.occupant? m k = none) :
    (List.range' first n).filterMap
      (fun i => (a.value? m (.ofNat i)).map (UInt64.ofNat i, ·)) = [] := by
  apply List.filterMap_eq_nil_iff.mpr
  intro k hk
  have hrange := List.mem_range'_1.mp hk
  have hword : (UInt64.ofNat k).toNat = k := a.toNat_ofNat_of_lt (by omega)
  simp [value?, h (.ofNat k) (by omega) (by omega)]

theorem itemsFrom_of_empty {m : Memory V} {first stop : ℕ} (hle : first ≤ stop)
    (hstop : stop ≤ a.capacity.toNat)
    (h : ∀ k : UInt64, first ≤ k.toNat → k.toNat < stop → a.occupant? m k = none) :
    a.itemsFrom m first = a.itemsFrom m stop := by
  have hlen : a.capacity.toNat - first = (stop - first) + (a.capacity.toNat - stop) := by omega
  have hat : first + (stop - first) = stop := by omega
  have hnil := items_eq_nil (a := a) (m := m) (n := stop - first) (by omega)
    fun k hk hlt => h k hk (by omega)
  rw [itemsFrom, hlen, ← List.range'_append_1, hat, List.filterMap_append, hnil, List.nil_append]
  rfl

theorem itemsFrom_of_occupant {m : Memory V} {j : UInt64} {o : Occupant V}
    (h : a.occupant? m j = some o) :
    a.itemsFrom m j.toNat = (j, o.value) :: a.itemsFrom m (j.toNat + 1) := by
  have hj := UInt64.lt_iff_toNat_lt.mp (lt_of_occupant? h)
  have hlen : a.capacity.toNat - j.toNat = (a.capacity.toNat - (j.toNat + 1)) + 1 := by omega
  rw [itemsFrom, hlen, List.range'_succ, List.filterMap_cons_some (b := (j, o.value))]
  · rfl
  · simp [value?, h]

theorem length_itemsFrom_le (a : SlotArray) (m : Memory V) (first : ℕ) :
    (a.itemsFrom m first).length ≤ a.capacity.toNat - first := by
  rw [itemsFrom]
  refine (List.length_filterMap_le _ _).trans ?_
  rw [List.length_range']

/-- Where there is an item to come to, no sum has to wrap around. -/
theorem run_firstFrom_of_items {i : UInt64} (h : a.itemsFrom s.memory i.toNat ≠ []) :
    ∃ found, (a.firstFrom i).run s = (.ok found, s) ∧ a.Finds s.memory i found := by
  obtain ⟨found, hrun, -, hfinds⟩ := a.run_firstFrom i s
  rcases hfinds with hfinds | ⟨-, hnone⟩
  · exact ⟨found, hrun, hfinds⟩
  · exact absurd (items_eq_nil le_rfl fun k hk _ => hnone k (UInt64.le_iff_toNat_le.mpr hk)) h

/-- The items from an index on, if a scan from there comes to a slot. -/
theorem Finds.itemsFrom_eq {m : Memory V} {i j : UInt64} {o : Occupant V}
    (h : a.Finds m i (some (j, o))) :
    a.itemsFrom m i.toNat = (j, o.value) :: a.itemsFrom m (j.toNat + 1) := by
  obtain ⟨hle, ho, hmin⟩ := h
  have hj := UInt64.lt_iff_toNat_lt.mp (lt_of_occupant? ho)
  rw [itemsFrom_of_empty (UInt64.le_iff_toNat_le.mp hle) hj.le fun k hk hkj =>
    hmin k (UInt64.le_iff_toNat_le.mpr hk) (UInt64.lt_iff_toNat_lt.mpr hkj),
    itemsFrom_of_occupant ho]

/-- A walk alone yields the next items, as many as are asked for and are there. -/
theorem run_gather_next_take {n : ℕ} (cursor : Cursor) (items : List (UInt64 × V))
    (h : a.capacity.toNat ≤ 2 ^ 64 - 32 ∨
      n ≤ (a.itemsFrom s.memory cursor.position.toNat).length) :
    ∃ after, (gather a.next n cursor items).run s =
      (.ok (items.reverse ++ (a.itemsFrom s.memory cursor.position.toNat).take n, after), s) := by
  induction n generalizing cursor items with
  | zero => exact ⟨cursor, by simp [gather]⟩
  | succ n ih =>
    obtain ⟨found, hrun, hfinds⟩ :
        ∃ found, (a.firstFrom cursor.position).run s = (.ok found, s) ∧
          a.Finds s.memory cursor.position found := by
      rcases h with h | h
      · exact run_firstFrom_finds h cursor.position s
      · exact run_firstFrom_of_items (List.ne_nil_of_length_pos (by omega))
    rw [gather, run_bind, next, run_bind, hrun]
    rcases found with _ | ⟨j, o⟩
    · have hempty : a.itemsFrom s.memory cursor.position.toNat = [] :=
        items_eq_nil le_rfl fun k hk _ => hfinds k (UInt64.le_iff_toNat_le.mpr hk)
      exact ⟨cursor, by simp [hempty]⟩
    · have hpast : (cursor.past j).position.toNat = j.toNat + 1 :=
        toNat_add_one_of_lt (lt_of_occupant? hfinds.2.1)
      rw [hfinds.itemsFrom_eq] at h ⊢
      obtain ⟨after, hafter⟩ := ih (cursor.past j) ((j, o.value) :: items)
        (by rw [hpast]; exact h.imp_right Nat.le_of_succ_le_succ)
      refine ⟨after, ?_⟩
      rw [hpast] at hafter
      simpa [Cursor.past] using hafter

/-- A walk alone yields the occupied slots from its position on, each once. -/
theorem run_gather_next (h : a.capacity.toNat ≤ 2 ^ 64 - 32) {n : ℕ} (cursor : Cursor)
    (hn : a.remaining cursor ≤ n) (items : List (UInt64 × V)) (s : Session V H) :
    ∃ after, (gather a.next n cursor items).run s =
      (.ok (items.reverse ++ a.itemsFrom s.memory cursor.position.toNat, after), s) := by
  obtain ⟨after, hrun⟩ := run_gather_next_take (n := n) (s := s) cursor items (.inl h)
  have hall := (a.length_itemsFrom_le s.memory cursor.position.toNat).trans hn
  exact ⟨after, by rw [hrun, List.take_of_length_le hall]⟩

/-- A fresh cursor lists the occupied slots. -/
theorem run_toList (h : a.capacity.toNat ≤ 2 ^ 64 - 32) (s : Session V H) :
    a.toList.run s = (.ok (a.itemsFrom s.memory 0), s) := by
  obtain ⟨after, hrun⟩ := run_gather_next h .start le_rfl [] s
  rw [toList, run_map, drain, hrun]
  rfl

theorem listed_eq_itemsFrom (h : a.capacity.toNat ≤ 2 ^ 64 - 32) (s : Session V H) :
    a.listed s = a.itemsFrom s.memory 0 := by
  rw [listed, run_toList h]

end SlotArray

end AtomicSlots
