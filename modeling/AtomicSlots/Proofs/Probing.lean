import AtomicSlots.Proofs.Copies

/-!
# Scanning and probing

A scan goes from segment to segment: it skips the missing ones, begins in the middle of the first
one and ends before the end of the last one. The plain way to come to the first occupied slot is to
probe one slot after another by an access that only looks. Both find the same, whatever segments are
there and whatever their cells hold, and cells that belong to no slot make no difference.
-/
namespace AtomicSlots

variable {V H : Type}

open Program

namespace SlotArray

/-- Looks at one slot after another, from an index on, for the first occupant. -/
def probe (a : SlotArray) : ℕ → UInt64 → Program V H (Option (UInt64 × Occupant V))
  | 0, _ => pure none
  | n + 1, index => do
    match ← a.access .inspect index Cell.load with
    | some (some occupant) => return some (index, occupant)
    | some none | none => a.probe n (index + 1)

variable [Journal H] {a : SlotArray} {s : Session V H} {i j : UInt64} {o : Occupant V}

/-- An access that looks at the slot comes to a cell, whatever it is to do there, and that cell
holds the occupant. -/
def Meets (a : SlotArray) (s : Session V H) (i : UInt64) (o : Occupant V) : Prop :=
  ∃ cell, (∀ {α : Type} (use : Cell → Program V H α),
    (a.access .inspect i use).run s = (some <$> use cell).run s) ∧ s.memory.content cell = some o

theorem run_access_load (a : SlotArray) (i : UInt64) (s : Session V H) :
    (a.access .inspect i Cell.load).run s =
      (.ok ((a.cell? s.memory i).map s.memory.content), s) := by
  cases hc : a.cell? s.memory i with
  | none => exact run_access_of_missing (by decide) hc
  | some cell => rw [run_access_of_cell (by decide) hc, run_map, run_load]; rfl

theorem meets_iff : a.Meets s i o ↔ a.occupant? s.memory i = some o := by
  constructor
  · rintro ⟨cell, huse, ho⟩
    have hload := huse Cell.load
    rw [run_access_load, run_map, run_load] at hload
    have hfound : (a.cell? s.memory i).map s.memory.content = some (s.memory.content cell) :=
      Except.ok.inj (congrArg Prod.fst hload)
    obtain ⟨d, hd, hcontent⟩ := Option.map_eq_some_iff.mp hfound
    rw [occupant?_of_cell? hd, hcontent, ho]
  · intro ho
    obtain ⟨cell, hc, hcontent⟩ := Option.bind_eq_some_iff.mp ho
    exact ⟨cell, fun use => run_access_of_cell (by decide) hc, hcontent⟩

/-- The slot is the first one, from an index on, in which such an access meets an occupant. -/
def MeetsFirst (a : SlotArray) (s : Session V H) (i j : UInt64) (o : Occupant V) : Prop :=
  i ≤ j ∧ j < a.capacity ∧ a.Meets s j o ∧ ∀ k, i ≤ k → k < j → ∀ p, ¬ a.Meets s k p

theorem occupant?_eq_none_iff : a.occupant? s.memory i = none ↔ ∀ o, ¬ a.Meets s i o := by
  simp only [meets_iff, Option.eq_none_iff_forall_ne_some, ne_eq]

theorem run_probe {n : ℕ} (hn : a.capacity.toNat - i.toNat = n) :
    ∃ found, (a.probe n i).run s = (.ok found, s) ∧ a.Finds s.memory i found := by
  induction n generalizing i with
  | zero => exact ⟨none, rfl, finds_none_of_le (by omega)⟩
  | succ n ih =>
    have hi : i < a.capacity := UInt64.lt_iff_toNat_lt.mpr (by omega)
    have hpast := toNat_add_one_of_lt hi
    obtain ⟨found, hrun, hfinds⟩ := ih (i := i + 1) (by omega)
    -- an empty slot is passed, with or without a cell
    have hnext : a.occupant? s.memory i = none → a.Finds s.memory i found := by
      intro hempty
      rw [finds_iff] at hfinds ⊢
      refine hfinds.extend (UInt64.le_iff_toNat_le.mpr (by omega)) fun k hk hlt => ?_
      rw [UInt64.le_iff_toNat_le] at hk
      rw [UInt64.lt_iff_toNat_lt] at hlt
      obtain rfl : k = i := UInt64.toNat_inj.mp (by omega)
      exact hempty
    rw [probe, run_bind, run_access_load]
    cases hc : a.cell? s.memory i with
    | none => exact ⟨found, hrun, hnext (occupant?_of_cell?_eq_none hc)⟩
    | some cell =>
      have hcontent := occupant?_of_cell? hc
      cases ho : s.memory.content cell with
      | none =>
        rw [ho] at hcontent
        exact ⟨found, by simpa [ho] using hrun, hnext hcontent⟩
      | some o =>
        rw [ho] at hcontent
        refine ⟨some (i, o), by simp [ho], UInt64.le_refl i, hcontent, fun k hk hlt => ?_⟩
        exact absurd hlt (UInt64.not_lt.mpr hk)

theorem meetsFirst_iff : a.MeetsFirst s i j o ↔ a.Finds s.memory i (some (j, o)) := by
  simp only [MeetsFirst, Finds, meets_iff, Option.eq_none_iff_forall_ne_some, ne_eq]
  exact ⟨fun h => ⟨h.1, h.2.2⟩, fun h => ⟨h.1, lt_of_occupant? h.2.1, h.2⟩⟩

theorem finds_none_iff : a.Finds s.memory i none ↔
    ∀ j, i ≤ j → j < a.capacity → ∀ o, ¬ a.Meets s j o := by
  simp only [Finds, ← occupant?_eq_none_iff]
  refine ⟨fun h j hj _ => h j hj, fun h j hj => ?_⟩
  by_cases hlt : j < a.capacity
  · exact h j hj hlt
  · exact occupant?_of_le _ (UInt64.not_lt.mp hlt)

/-- The content of a cell that belongs to no slot is seen in no slot. -/
theorem occupant?_write_of_no_slot {m : Memory V} {cell : Cell}
    (h : ∀ j, a.cell? m j ≠ some cell) (content : Option (Occupant V)) (j : UInt64) :
    a.occupant? (m.write cell content) j = a.occupant? m j := by
  have hcell : a.cell? (m.write cell content) j = a.cell? m j := rfl
  cases hd : a.cell? m j with
  | none => rw [occupant?_of_cell?_eq_none hd, occupant?_of_cell?_eq_none (hcell.trans hd)]
  | some d =>
    rw [occupant?_of_cell? hd, occupant?_of_cell? (hcell.trans hd)]
    refine Memory.content_write_of_ne m content ?_
    rintro rfl
    exact h j hd

/-- Whatever segments are in a table and whatever their cells hold, a scan from any index that finds
a slot has found one of the array, in which an access that looks meets that occupant, and it never
misses the first such slot that is not in front of the index. In an array of no more than
`2 ^ 64 - 32` slots it finds just that one, or nothing if there is none; so it finds what is found by
probing one slot after another, and what stands in cells of no slot, such as those behind the last
one, is not found. (The table of a larger array would take a quarter of all addresses of a 64-bit
word; where there is nothing to find in it, the index of a scan wraps around.) A walk of such scans
lists the slots in which there is an occupant to meet, each once, in the order of their indices. -/
theorem firstFrom_meets_first (a : SlotArray) (s : Session V H) (i : UInt64) :
    (∃ found, (a.firstFrom i).run s = (.ok found, s) ∧
      (∀ j o, found = some (j, o) → j < a.capacity ∧ a.Meets s j o) ∧
      (∀ j o, a.MeetsFirst s i j o → found = some (j, o)) ∧
      (a.capacity.toNat ≤ 2 ^ 64 - 32 →
        (∀ j o, found = some (j, o) ↔ a.MeetsFirst s i j o) ∧
        (found = none ↔ ∀ j, i ≤ j → j < a.capacity → ∀ o, ¬ a.Meets s j o) ∧
        (a.probe (a.capacity.toNat - i.toNat) i).run s = (.ok found, s) ∧
        ∀ cell content, (∀ j, a.cell? s.memory j ≠ some cell) →
          let t : Session V H := ⟨s.memory.write cell content, s.host⟩
          (a.firstFrom i).run t = (.ok found, t))) ∧
    (a.capacity.toNat ≤ 2 ^ 64 - 32 → ∀ visits, ∃ items after,
      (a.drain a.next ⟨i, visits⟩).run s = (.ok (items, after), s) ∧
      (items.map Prod.fst).Pairwise (· < ·) ∧
      ∀ j v, (j, v) ∈ items ↔ i ≤ j ∧ ∃ o, a.Meets s j o ∧ o.value = v) := by
  refine ⟨?_, fun hcap visits => ?_⟩
  · obtain ⟨found, hrun, hsome, hfinds⟩ := a.run_firstFrom i s
    have hexact (hcap : a.capacity.toNat ≤ 2 ^ 64 - 32) : a.Finds s.memory i found :=
      hfinds.resolve_right fun hwraps => absurd hwraps.1 (by omega)
    refine ⟨found, hrun, fun j o hj => ?_, fun j o hfirst => ?_, fun hcap => ⟨fun j o => ?_, ?_, ?_,
      fun cell content hcell => ?_⟩⟩
    · exact ⟨lt_of_occupant? (hsome j o hj), meets_iff.mpr (hsome j o hj)⟩
    · rw [meetsFirst_iff] at hfirst
      rcases hfinds with hfinds | ⟨-, hnone⟩
      · exact hfinds.unique hfirst
      · exact absurd (hnone.unique hfirst) nofun
    · rw [meetsFirst_iff]
      exact ⟨fun hj => hj ▸ hexact hcap, fun hfirst => (hexact hcap).unique hfirst⟩
    · rw [← finds_none_iff]
      exact ⟨fun hnone => hnone ▸ hexact hcap, fun hnone => (hexact hcap).unique hnone⟩
    · obtain ⟨probed, hprobe, hprobed⟩ := run_probe (a := a) (s := s) (i := i) rfl
      rw [hprobe, hprobed.unique (hexact hcap)]
    · intro t
      obtain ⟨other, hother, hfound⟩ := run_firstFrom_finds hcap i t
      rw [finds_iff] at hfound
      simp only [t, occupant?_write_of_no_slot hcell] at hfound
      rw [← finds_iff] at hfound
      rw [hother, hfound.unique (hexact hcap)]
  · obtain ⟨after, hrun⟩ := run_gather_next hcap ⟨i, visits⟩ le_rfl [] s
    refine ⟨a.itemsFrom s.memory i.toNat, after, hrun, pairwise_itemsFrom _, fun j v => ?_⟩
    simp only [mem_itemsFrom, UInt64.le_iff_toNat_le, meets_iff, value?, Option.map_eq_some_iff]

/-- Of the two segments for 34 slots only the second one is there. It holds an occupant in slot 33,
and another one in the cell behind it, which belongs to no slot. -/
theorem firstFrom_meets_first_of_partial_segment :
    let a : SlotArray := ⟨34⟩
    let segment : Segment ℕ := (Memory.emptySegment.set! 1 (some ⟨0, 5⟩)).set! 2 (some ⟨1, 7⟩)
    let s : Session ℕ Unit := ⟨⟨#[none, some 0], #[segment], 1, 2⟩, ()⟩
    s.memory.content ⟨0, 2⟩ = some ⟨1, 7⟩ ∧
      (a.firstFrom 2).run s = (.ok (some (33, ⟨0, 5⟩)), s) ∧ a.MeetsFirst s 2 33 ⟨0, 5⟩ ∧
      (a.firstFrom 34).run s = (.ok none, s) ∧ (∀ j, 34 ≤ j → j < 34 → ∀ o, ¬ a.Meets s j o) ∧
      ∃ after, (a.drain a.next ⟨0, 0⟩).run s = (.ok ([(33, 5)], after), s) := by
  intro a segment s
  have hcap : a.capacity.toNat ≤ 2 ^ 64 - 32 := by decide
  obtain ⟨found, hrun, -, -, hfirst⟩ := (firstFrom_meets_first a s 2).1
  obtain ⟨last, hlast, -, -, hnone⟩ := (firstFrom_meets_first a s 34).1
  obtain ⟨items, after, hdrain, -, -⟩ := (firstFrom_meets_first a s 0).2 hcap 0
  have hscan : ((a.firstFrom 2).run s).1.toOption = some (some (33, ⟨0, 5⟩)) := by decide +kernel
  have hbehind : ((a.firstFrom 34).run s).1.toOption = some none := by decide +kernel
  have hitems : ((a.drain a.next ⟨0, 0⟩).run s).1.toOption.map Prod.fst = some [(33, 5)] := by
    decide +kernel
  rw [hrun] at hscan
  rw [hlast] at hbehind
  rw [hdrain] at hitems
  obtain rfl := Option.some.inj hscan
  obtain rfl := Option.some.inj hbehind
  obtain rfl := Option.some.inj hitems
  exact ⟨by decide, hrun, ((hfirst hcap).1 33 ⟨0, 5⟩).mp rfl, hlast, (hnone hcap).2.1.mp rfl, after,
    hdrain⟩

end SlotArray

end AtomicSlots
