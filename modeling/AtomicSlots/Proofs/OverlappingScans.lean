import AtomicSlots.Proofs.Counting
import AtomicSlots.Proofs.OwnTurns

/-!
# Scans while others act

A scan takes no snapshot: between its loads, segments come into being and slots are filled and
emptied, in front of it and behind it. All it can promise is about moments. The slot that it finds
held the occupant that it answers at some moment of the scan, and each slot that it passes was empty
at some moment of it: the slot's cell was loaded and found empty, or its segment was still missing,
and a slot without a cell is empty. So a slot that is occupied all the time is never passed.
-/
namespace AtomicSlots

variable {V H α : Type} [Journal H]

open Program

namespace SlotArray

variable {a : SlotArray} {i : UInt64} {seen seen' : Memory V → Prop} {m : Memory V}

/-- One of the memories that were seen holds that occupant in a slot. -/
def SeenHolding (a : SlotArray) (seen : Memory V → Prop) (j : UInt64) (o : Occupant V) : Prop :=
  ∃ m, seen m ∧ a.occupant? m j = some o

/-- In one of the memories that were seen the slot is empty. Behind the last slot there is nothing
to see. -/
def SeenEmpty (a : SlotArray) (seen : Memory V → Prop) (k : UInt64) : Prop :=
  k < a.capacity → ∃ m, seen m ∧ a.occupant? m k = none

/-- The memories that were seen bear out what a scan from an index on has found. -/
abbrev Glimpses (a : SlotArray) (seen : Memory V → Prop) :
    UInt64 → Option (UInt64 × Occupant V) → Prop :=
  FindsFirst (a.SeenHolding seen) (a.SeenEmpty seen)

theorem SeenEmpty.mono {k : UInt64} (h : a.SeenEmpty seen k) (hseen : ∀ m, seen m → seen' m) :
    a.SeenEmpty seen' k := fun hk => (h hk).imp fun m hm => ⟨hseen m hm.1, hm.2⟩

theorem lt_of_seenHolding {j : UInt64} {o : Occupant V} (h : a.SeenHolding seen j o) :
    j < a.capacity := by
  obtain ⟨m, -, ho⟩ := h
  exact lt_of_occupant? ho

/-- What a search of the next cells of a segment has found, in terms of slots. -/
def GlimpsesAmong (a : SlotArray) (seen : Memory V → Prop) (i : UInt64) (n : ℕ) :
    Option (UInt64 × Occupant V) → Prop
  | none => ∀ k, i ≤ k → k.toNat < i.toNat + n → a.SeenEmpty seen k
  | some (offset, o) => ∃ j, (Address.ofIndex j).offset = offset ∧ j.toNat < i.toNat + n ∧
      a.Glimpses seen i (some (j, o))

/-- A slot that was seen empty can be put in front. -/
theorem GlimpsesAmong.succ {n : ℕ} {found : Option (UInt64 × Occupant V)}
    (hi : i.toNat + 1 < 2 ^ 64) (hempty : a.SeenEmpty seen i)
    (h : a.GlimpsesAmong seen (i + 1) n found) : a.GlimpsesAmong seen i (n + 1) found := by
  have hnext : (i + 1).toNat = i.toNat + 1 := toNat_add_one hi
  -- the slot that is put in front is the only one between the two indices
  have hfirst : ∀ k, i ≤ k → k < i + 1 → a.SeenEmpty seen k := by
    intro k hk hlt
    rw [UInt64.le_iff_toNat_le] at hk
    rw [UInt64.lt_iff_toNat_lt, hnext] at hlt
    obtain rfl : k = i := UInt64.toNat_inj.mp (by omega)
    exact hempty
  rcases found with _ | ⟨offset, o⟩
  · intro k hk hlt
    by_cases hki : k < i + 1
    · exact hfirst k hk hki
    · exact h k (UInt64.not_lt.mp hki) (by omega)
  · obtain ⟨j, hoffset, hlt, hj⟩ := h
    refine ⟨j, hoffset, by omega, hj.extend (UInt64.le_iff_toNat_le.mpr (by omega)) hfirst⟩

/-- The search of a segment, cell by cell. -/
theorem follows_firstInSegment {segment n : ℕ}
    (hn : 0 < n → m.segmentAt (Address.ofIndex i).entry = some segment)
    (hrest : i.toNat % 32 + n ≤ 32) (hcap : i.toNat + n ≤ a.capacity.toNat) :
    (firstInSegment segment n (Address.ofIndex i).offset : Program V H _).Follows a Sees
      (fun r seen' _ => ∃ found, r = .ok found ∧ (∀ m, seen m → seen' m) ∧
        a.GlimpsesAmong seen' i n found) seen m := by
  induction n generalizing i m seen with
  | zero =>
    refine ⟨none, rfl, fun _ hm => hm, fun k hk hlt => ?_⟩
    rw [UInt64.le_iff_toNat_le] at hk
    omega
  | succ n ih =>
    have hword := a.capacity.toNat_lt
    have hi : i < a.capacity := UInt64.lt_iff_toNat_lt.mpr (by omega)
    have hnext : (i + 1).toNat = i.toNat + 1 := toNat_add_one (by omega)
    rw [firstInSegment, follows_bind]
    apply Cell.follows_load
    intro l hl _
    refine ⟨_, Sees.sees_also seen _ l l, ?_⟩
    have hsegment := hl.segmentAt_eq _ _ (hn (by omega))
    have hcontent := occupant?_of_segment hi hsegment
    cases ho : l.content ⟨segment, (Address.ofIndex i).offset⟩ with
    | some o =>
      refine ⟨some _, rfl, fun _ hm => .inl hm, i, rfl, by omega, UInt64.le_refl i,
        ⟨l, .inr rfl, hcontent.trans ho⟩, fun k hk hlt => ?_⟩
      exact absurd hlt (UInt64.not_lt.mpr hk)
    | none =>
      have hempty : a.SeenEmpty (Sees.also seen l) i := fun _ => ⟨l, .inr rfl, hcontent.trans ho⟩
      have hoffset : (firstInSegment segment n ((Address.ofIndex i).offset + 1) :
          Program V H (Option (UInt64 × Occupant V))) =
            firstInSegment segment n (Address.ofIndex (i + 1)).offset := by
        cases n with
        | zero => rfl
        | succ n =>
          congr 1
          apply UInt64.toNat_inj.mp
          rw [toNat_add_one (by rw [Address.toNat_offset_ofIndex]; omega)]
          simp only [Address.toNat_offset_ofIndex, hnext]
          omega
      have hsame : 0 < n → l.segmentAt (Address.ofIndex (i + 1)).entry = some segment := by
        intro hpos
        rw [entry_congr (k := i + 1) (i := i) (by omega), hsegment]
      change (firstInSegment segment n ((Address.ofIndex i).offset + 1)).Follows a Sees _
        (Sees.also seen l) l
      rw [hoffset]
      refine (ih hsame (by omega) (by omega)).mono ?_
      rintro r after k - ⟨found, rfl, hafter, hglimpses⟩
      exact ⟨found, rfl, fun m hm => hafter m (.inl hm), hglimpses.succ (by omega)
        (hempty.mono hafter)⟩

/-- The search of the rest of a segment passes only slots that it has seen empty. -/
theorem follows_restOfSegment {segment : ℕ} (hi : i < a.capacity)
    (hn : m.segmentAt (Address.ofIndex i).entry = some segment) :
    let base := Address.base (Address.ofIndex i).entry
    let stop := min segmentSize (a.capacity - base)
    (firstInSegment segment (stop - (i - base)).toNat (i - base) : Program V H _).Follows a Sees
      (fun r seen' _ => ∃ found, r = .ok found ∧ (∀ m, seen m → seen' m) ∧ match found with
        | none => ∀ k, i ≤ k → k.toNat / 32 = i.toNat / 32 → a.SeenEmpty seen' k
        | some (offset, o) => a.Glimpses seen' i (some (base + offset, o))) seen m := by
  intro base stop
  have hstart : i - base = (Address.ofIndex i).offset := by
    apply UInt64.toNat_inj.mp
    rw [toNat_sub_base, Address.toNat_offset_ofIndex]
  have hlength : (stop - (i - base)).toNat =
      min 32 (a.capacity.toNat - 32 * (i.toNat / 32)) - i.toNat % 32 := toNat_restOfSegment hi
  have hlt := UInt64.lt_iff_toNat_lt.mp hi
  rw [hstart] at hlength ⊢
  refine (follows_firstInSegment (fun _ => hn) (by omega) (by omega)).mono ?_
  rintro r seen' l - ⟨found, rfl, hseen, hglimpses⟩
  refine ⟨found, rfl, hseen, ?_⟩
  rcases found with _ | ⟨offset, o⟩
  · intro k hk hsame hkc
    rw [UInt64.le_iff_toNat_le] at hk
    have hkc' := UInt64.lt_iff_toNat_lt.mp hkc
    exact hglimpses k (UInt64.le_iff_toNat_le.mpr hk) (by omega) hkc
  · obtain ⟨j, hoffset, hltj, hj⟩ := hglimpses
    have hle := UInt64.le_iff_toNat_le.mp hj.1
    have hindex : base + offset = j := by
      rw [← hoffset, show base = Address.base (Address.ofIndex j).entry by
        rw [entry_congr (i := i) (by omega)]]
      exact Address.index_ofIndex j
    change a.Glimpses seen' i (some (base + offset, o))
    rwa [hindex]

/-- What a scan has seen bears out what it has found, if it may look at all segments from its index
on; if the sum that leads to the next segment wraps around, it has seen all slots empty by then. -/
def HasScanned (a : SlotArray) (n : ℕ) (i : UInt64) (seen : Memory V → Prop)
    (r : Except Panic (Option (UInt64 × Occupant V))) (seen' : Memory V → Prop) : Prop :=
  ∃ found, r = .ok found ∧ (∀ m, seen m → seen' m) ∧
    (∀ j o, found = some (j, o) → a.SeenHolding seen' j o) ∧
    (a.segmentCount.toNat ≤ n + i.toNat / 32 → a.Glimpses seen' i found ∨
      2 ^ 64 - 32 < a.capacity.toNat ∧ a.Glimpses seen' i none)

theorem seenEmpty_of_le {k : UInt64} (hi : a.capacity.toNat ≤ i.toNat) (hk : i ≤ k) :
    a.SeenEmpty seen k := by
  intro hlt
  rw [UInt64.le_iff_toNat_le] at hk
  rw [UInt64.lt_iff_toNat_lt] at hlt
  omega

/-- A scan that has passed the rest of a segment goes on with the next one. -/
theorem HasScanned.of_next_segment {n : ℕ} {later : Memory V → Prop}
    {r : Except Panic (Option (UInt64 × Occupant V))} (hi : i < a.capacity)
    (hlater : ∀ m, seen m → later m)
    (hempty : ∀ k, i ≤ k → k.toNat / 32 = i.toNat / 32 → a.SeenEmpty later k)
    (h : a.HasScanned n (Address.base (Address.ofIndex i).entry + segmentSize) later r seen') :
    a.HasScanned (n + 1) i seen r seen' := by
  obtain ⟨found, rfl, hseen, hsome, hfinds⟩ := h
  refine ⟨found, rfl, fun m hm => hseen m (hlater m hm), hsome, fun hfuel => ?_⟩
  exact FindsFirst.of_next_segment hi (fun k hk hsame => (hempty k hk hsame).mono hseen)
    fun hentry => hfinds (by omega)

theorem follows_scan (a : SlotArray) (n : ℕ) (i : UInt64) (seen : Memory V → Prop) (m : Memory V) :
    (a.scan n i : Program V H _).Follows a Sees (fun r seen' _ => a.HasScanned n i seen r seen')
      seen m := by
  have hcount : a.segmentCount.toNat = (a.capacity.toNat + 31) / 32 := toNat_segmentCount a.capacity
  induction n generalizing i seen m with
  | zero =>
    exact ⟨none, rfl, fun _ hm => hm, nofun,
      fun h => .inl fun k hk => seenEmpty_of_le (by omega) hk⟩
  | succ n ih =>
    rw [scan]
    split
    · rename_i hi
      apply follows_bind.mpr
      intro s hl hs
      refine ⟨trivial, _, Sees.sees_also seen _ s.memory _, ?_⟩
      change andThen _ _ (.ok (s.memory.segmentAt (Address.ofIndex i).entry)) _ s.memory
      cases hn : s.memory.segmentAt (Address.ofIndex i).entry with
      | none =>
        refine (ih _ (Sees.also seen s.memory) s.memory).mono fun r seen' _ _ hscanned =>
          hscanned.of_next_segment hi (fun _ hm => .inl hm) fun k hk hsame hkc => ?_
        exact ⟨s.memory, .inr rfl, occupant?_of_missing (by rw [entry_congr hsame, hn])⟩
      | some segment =>
        refine follows_bind.mpr ((follows_restOfSegment hi hn).mono ?_)
        rintro r later l - ⟨found, rfl, hlater, hglimpses⟩
        have hseen : ∀ m, seen m → later m := fun m hm => hlater m (.inl hm)
        rcases found with _ | ⟨offset, o⟩
        · exact (ih _ later l).mono fun r seen' _ _ hscanned =>
            hscanned.of_next_segment hi hseen hglimpses
        · refine ⟨some _, rfl, hseen, ?_, fun _ => .inl hglimpses⟩
          rintro j p hjp
          cases hjp
          exact hglimpses.2.1
    · rename_i hi
      have hle := UInt64.le_iff_toNat_le.mp (UInt64.not_lt.mp hi)
      exact ⟨none, rfl, fun _ hm => hm, nofun, fun _ => .inl fun k hk => seenEmpty_of_le hle hk⟩

/-- What a scan of the whole table has seen bears out what it has found. -/
structure HasSought (a : SlotArray) (i : UInt64) (seen seen' : Memory V → Prop)
    (found : Option (UInt64 × Occupant V)) : Prop where
  mono : ∀ m, seen m → seen' m
  held : ∀ j o, found = some (j, o) → a.SeenHolding seen' j o
  glimpses : a.capacity.toNat ≤ 2 ^ 64 - 32 → a.Glimpses seen' i found

theorem follows_firstFrom (a : SlotArray) (i : UInt64) (seen : Memory V → Prop) (m : Memory V) :
    (a.firstFrom i : Program V H _).Follows a Sees (fun r seen' _ => ∃ found, r = .ok found ∧
      a.HasSought i seen seen' found) seen m := by
  refine (a.follows_scan _ i seen m).mono ?_
  rintro r seen' _ - ⟨found, rfl, hseen, hsome, hfinds⟩
  refine ⟨found, rfl, hseen, hsome, fun hcap => ?_⟩
  rcases hfinds (by omega) with hfinds | ⟨hbig, -⟩
  · exact hfinds
  · omega

/-- A slot that a scan was to look at is one that it has not reached, or it was seen empty. -/
theorem Glimpses.reached {found : Option (UInt64 × Occupant V)} {l : UInt64}
    (h : a.Glimpses seen i found) (hl : i ≤ l) :
    (∃ j o, found = some (j, o) ∧ j ≤ l) ∨ a.SeenEmpty seen l := by
  rcases found with _ | ⟨j, o⟩
  · exact .inr (h l hl)
  · by_cases hjl : j ≤ l
    · exact .inl ⟨j, o, rfl, hjl⟩
    · exact .inr (h.2.2 l hl (UInt64.not_le.mp hjl))

/-- In a pool of lawful threads a scan ends, and what it has seen was so at moments of the scan. -/
theorem exists_scanned {pool : Pool V H α} {k : ℕ}
    {f : Option (UInt64 × Occupant V) → Program V H α} {rest : List (Program V H α)}
    {answers : List (Except Panic α)} {schedule : List ℕ}
    (hpool : pool.Lawful a)
    (hk : pool.threads[k]? = some ⟨(a.firstFrom i >>= f) :: rest, answers⟩)
    (hturns : 33 * a.segmentCount.toNat ≤ schedule.count k) :
    ∃ during later found seen, schedule = during ++ later ∧
      during.count k ≤ 33 * a.segmentCount.toNat ∧
      (pool.run during).threads[k]? = some ⟨f found :: rest, answers⟩ ∧
      (∀ P : Memory V → Prop, (∃ m, seen m ∧ P m) → pool.Sometime during P) ∧
      (∀ j o, found = some (j, o) → a.SeenHolding seen j o) ∧
      (a.capacity.toNat ≤ 2 ^ 64 - 32 → a.Glimpses seen i found) := by
  obtain ⟨during, later, found, seen, hschedule, hcount, hend, hsought, hsometime⟩ :=
    Pool.exists_return hpool hk (a.within_firstFrom i) (a.follows_firstFrom i _ _) hturns
  exact ⟨during, later, found, seen, hschedule, hcount, hend, hsometime, hsought.held,
    hsought.glimpses⟩

/-- Threads of lawful programs share a fresh array, and one of them has come to a scan. However
their actions interleave from then on, the scan has ended by the time its thread has had 33 turns
for each segment of the table. If it answers with a slot, that slot held the occupant at some moment
of the scan. Each slot from its index on up to the one that it found, or up to the last one if it
found none, was empty at some moment of the scan; so a slot that is occupied all the time is not
passed, whatever its occupants are. Only a table for more than `2 ^ 64 - 32` slots, which would take
a quarter of all addresses of a 64-bit word, has an index that wraps around. -/
theorem firstFrom_passes_empty_slots (a : SlotArray) (host : H)
    {programs : List (List (Program V H α))} (h : ∀ list ∈ programs, ∀ p ∈ list, p.Lawful a)
    (earlier : List ℕ) {k : ℕ} {i : UInt64} {f : Option (UInt64 × Occupant V) → Program V H α}
    {rest : List (Program V H α)} {answers : List (Except Panic α)}
    (hk : ((Pool.fresh a host programs).run earlier).threads[k]? =
      some ⟨(a.firstFrom i >>= f) :: rest, answers⟩)
    {schedule : List ℕ} (hturns : 33 * a.segmentCount.toNat ≤ schedule.count k) :
    let pool := (Pool.fresh a host programs).run earlier
    ∃ during later found, schedule = during ++ later ∧
      during.count k ≤ 33 * a.segmentCount.toNat ∧
      (pool.run during).threads[k]? = some ⟨f found :: rest, answers⟩ ∧
      (∀ j o, found = some (j, o) → j < a.capacity ∧
        pool.Sometime during fun m => a.occupant? m j = some o) ∧
      (a.capacity.toNat ≤ 2 ^ 64 - 32 →
        (∀ j o, found = some (j, o) → i ≤ j ∧
          ∀ l, i ≤ l → l < j → pool.Sometime during fun m => a.occupant? m l = none) ∧
        (found = none →
          ∀ l, i ≤ l → l < a.capacity → pool.Sometime during fun m => a.occupant? m l = none) ∧
        ∀ l, i ≤ l → l < a.capacity →
          (∀ early, early <+: during →
            (a.occupant? (pool.run early).session.memory l).isSome = true) →
          ∃ j o, found = some (j, o) ∧ j ≤ l) := by
  intro pool
  have hpool : pool.Lawful a :=
    (Pool.lawful_of_programs (sound_ofEntries a) h).run earlier
  obtain ⟨during, later, found, seen, hschedule, hcount, hend, hmoment, hsome, hglimpses⟩ :=
    exists_scanned hpool hk hturns
  refine ⟨during, later, found, hschedule, hcount, hend, fun j o hj => ?_, fun hcap => ?_⟩
  · have hholding := hsome j o hj
    exact ⟨lt_of_seenHolding hholding, hmoment _ hholding⟩
  · have hempty : ∀ l, l < a.capacity → a.SeenEmpty seen l →
        pool.Sometime during fun m => a.occupant? m l = none :=
      fun l hl hempty => hmoment _ (hempty hl)
    have hfinds := hglimpses hcap
    refine ⟨?_, ?_, fun l hil hl hoccupied => (hfinds.reached hil).resolve_right fun hseen => ?_⟩
    · rintro j o rfl
      exact ⟨hfinds.1, fun l hil hlj => hempty l
        (UInt64.lt_trans hlj (lt_of_seenHolding hfinds.2.1)) (hfinds.2.2 l hil hlj)⟩
    · rintro rfl l hil hl
      exact hempty l hl (hfinds l hil)
    · obtain ⟨early, hearly, hnone⟩ := hempty l hl hseen
      have hheld := hoccupied early hearly
      rw [hnone] at hheld
      cases hheld

/-- A scan finds the first segment missing. Then slots 33 and 0 are filled, and the scan goes on and
answers with slot 33: slot 0 was empty at some moment of the scan, and is occupied at its end. -/
theorem firstFrom_passes_slot_filled_late :
    let a : SlotArray := ⟨40⟩
    let f (found : Option (UInt64 × Occupant ℕ)) : Program ℕ Unit (Option UInt64) :=
      .done (found.map Prod.fst)
    let insert (i : UInt64) : Program ℕ Unit (Option UInt64) := a.insert i 5 >>= fun _ => .done none
    let pool := Pool.fresh a () [[a.firstFrom 0 >>= f], [insert 33, insert 0]]
    let schedule := 0 :: List.replicate 14 1 ++ List.replicate 66 0
    (pool.run schedule).answers = [[some 33], [none, none]] ∧
      (a.value? (pool.run schedule).session.memory 0) = some 5 ∧
      ∃ during later found, schedule = during ++ later ∧
        (pool.run during).threads[0]? = some ⟨[f found], []⟩ ∧
        (∀ j o, found = some (j, o) →
          ∀ l, l < j → pool.Sometime during fun m => a.occupant? m l = none) ∧
        ∀ l, l < a.capacity → (∀ early, early <+: during →
            (a.occupant? (pool.run early).session.memory l).isSome = true) →
          ∃ j o, found = some (j, o) ∧ j ≤ l := by
  intro a f insert pool schedule
  have h : ∀ list ∈ [[a.firstFrom 0 >>= f], [insert 33, insert 0]], ∀ p ∈ list, p.Lawful a := by
    have hscan : (a.firstFrom 0 >>= f).Lawful a :=
      Client.lawful (.bind (.firstFrom 0) fun _ => .done _)
    have hinsert : ∀ i, (insert i).Lawful a :=
      fun i => Client.lawful (.bind (.insert i 5) fun _ => .done _)
    simp only [List.mem_cons, List.not_mem_nil, or_false]
    rintro list (rfl | rfl) p hp
    · rcases List.mem_singleton.mp hp with rfl
      exact hscan
    · rcases List.mem_pair.mp hp with rfl | rfl
      · exact hinsert 33
      · exact hinsert 0
  have hturns : 33 * a.segmentCount.toNat ≤ schedule.count 0 := by decide
  obtain ⟨during, later, found, hschedule, -, hend, -, hrest⟩ :=
    firstFrom_passes_empty_slots a () h [] (f := f) rfl hturns
  obtain ⟨hpassed, -, hoccupied⟩ := hrest (by decide)
  refine ⟨by decide +kernel, by decide +kernel, during, later, found, hschedule, hend, ?_, ?_⟩
  · exact fun j o hj l hlj => (hpassed j o hj).2 l UInt64.zero_le hlj
  · exact fun l hl => hoccupied l UInt64.zero_le hl

end SlotArray

end AtomicSlots
