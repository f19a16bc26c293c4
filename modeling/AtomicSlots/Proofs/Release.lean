import AtomicSlots.Proofs.Scan

/-!
# What the release of an array gives back

The release walks over the table and the cells of its segments and counts what it gives back. It
comes to the value of every occupied slot once, in the order of the indices, and to nothing else: a
cell of the last segment that no index reaches is never filled.
-/
namespace AtomicSlots

variable {V : Type}

/-- The values in some cells, one after another. -/
def occupantValues (contents : List (Option (Occupant V))) : List V :=
  contents.filterMap (Option.map Occupant.value)

namespace Release

/-- The walk after it has given back some more values. -/
def giveBack (release : Release V) (values : List V) : Release V :=
  ⟨values.reverse ++ release.dropped, release.count + values.length⟩

theorem giveBack_append (release : Release V) (first second : List V) :
    release.giveBack (first ++ second) = (release.giveBack first).giveBack second := by
  simp [giveBack, Nat.add_assoc]

theorem foldl_visit (contents : List (Option (Occupant V))) (release : Release V) :
    contents.foldl visit release = release.giveBack (occupantValues contents) := by
  induction contents generalizing release with
  | nil => rfl
  | cons content rest ih =>
    rw [List.foldl_cons, ih]
    cases content with
    | none => rfl
    | some o => exact (release.giveBack_append [o.value] (occupantValues rest)).symm

end Release

namespace Memory

/-- The values behind a table entry. -/
def entryValues (m : Memory V) (entry : Option ℕ) : List V :=
  (entry.bind (m.segments[·]?)).elim [] fun segment => occupantValues segment.toList

theorem visitEntry_eq (m : Memory V) (release : Release V) (entry : Option ℕ) :
    m.visitEntry release entry = release.giveBack (m.entryValues entry) := by
  rw [visitEntry, entryValues]
  cases entry.bind (m.segments[·]?) with
  | none => rfl
  | some segment =>
    change segment.foldl Release.visit release = release.giveBack (occupantValues segment.toList)
    rw [← Array.foldl_toList, Release.foldl_visit]

theorem foldl_visitEntry (m : Memory V) (entries : List (Option ℕ)) (release : Release V) :
    entries.foldl m.visitEntry release = release.giveBack (entries.flatMap m.entryValues) := by
  induction entries generalizing release with
  | nil => rfl
  | cons entry rest ih =>
    rw [List.foldl_cons, visitEntry_eq, ih, List.flatMap_cons, Release.giveBack_append]

theorem map_snd_segmentValues (segment : Segment V) (base : ℕ) :
    (segmentValues segment base).map Prod.snd = occupantValues segment.toList := by
  have hvalue : ∀ place : Option (Occupant V) × ℕ,
      (place.1.map fun o => (place.2, o.value)).map Prod.snd = place.1.map Occupant.value := by
    rintro ⟨content, i⟩
    cases content <;> rfl
  have hcontents : (segment.toList.zipIdx base).map Prod.fst = segment.toList :=
    List.zipIdx_map_fst base segment.toList
  conv_rhs => rw [← hcontents, occupantValues, List.filterMap_map]
  rw [segmentValues, List.map_filterMap]
  exact List.filterMap_congr fun place _ => hvalue place

theorem map_snd_storedBefore (m : Memory V) (e : ℕ) (rest : List (ℕ × V)) :
    (m.storedBefore e rest).map Prod.snd =
      (m.table.toList.take e).flatMap m.entryValues ++ rest.map Prod.snd := by
  induction e generalizing rest with
  | zero => rfl
  | succ e ih =>
    have hentry : m.table.toList[e]?.toList.flatMap m.entryValues =
        m.entryValues m.table[e]?.join := by
      rw [Array.getElem?_toList]
      cases m.table[e]? with
      | none => rfl
      | some entry => simp
    rw [storedBefore, List.take_add_one, List.flatMap_append, hentry, List.append_assoc, entryValues]
    cases m.table[e]?.join.bind (m.segments[·]?) with
    | none => exact ih rest
    | some segment => rw [ih, List.map_append, map_snd_segmentValues]; rfl

/-- The walk gives back what is stored, and counts it. -/
theorem release_eq (m : Memory V) :
    m.release = Release.giveBack ⟨[], 0⟩ (m.storedValues.map Prod.snd) := by
  have hall : m.table.toList.take m.table.size = m.table.toList := List.take_length
  rw [release, ← Array.foldl_toList, foldl_visitEntry, storedValues, map_snd_storedBefore, hall,
    List.map_nil, List.append_nil]

/-- The value in the cell that the walk comes to at a place. -/
def valueAt (m : Memory V) (k : ℕ) : Option V :=
  (((m.table[k / 32]?.join.bind (m.segments[·]?)).bind (·[k % 32]?)).join).map Occupant.value

theorem segmentValues_eq (segment : Segment V) (base : ℕ) :
    segmentValues segment base = (List.range segment.size).filterMap fun k =>
      (segment[k]?.join.map Occupant.value).map (base + k, ·) := by
  have hzip : segment.toList.zipIdx base =
      (List.range segment.size).map fun k => (segment[k]?.join, base + k) := by
    apply List.ext_getElem?
    intro k
    by_cases hk : k < segment.size <;> simp [hk]
  rw [segmentValues, hzip, List.filterMap_map]
  refine List.filterMap_congr fun k _ => ?_
  rw [Option.map_map]
  rfl

theorem storedBefore_eq {m : Memory V} (h : ∀ (s : ℕ) segment, m.segments[s]? = some segment →
    segment.size = 32) (e : ℕ) (rest : List (ℕ × V)) :
    m.storedBefore e rest =
      (List.range (e * 32)).filterMap (fun k => (m.valueAt k).map (k, ·)) ++ rest := by
  induction e generalizing rest with
  | zero => rfl
  | succ e ih =>
    have hplace : ∀ k < 32, m.valueAt (e * 32 + k) =
        (((m.table[e]?.join.bind (m.segments[·]?)).bind (·[k]?)).join).map Occupant.value := by
      intro k hk
      rw [valueAt, show (e * 32 + k) / 32 = e by omega, show (e * 32 + k) % 32 = k by omega]
    rw [storedBefore, Nat.succ_mul, List.range_add, List.filterMap_append, List.filterMap_map,
      List.append_assoc]
    split
    · rename_i segment hsegment
      obtain ⟨s, -, hs⟩ := Option.bind_eq_some_iff.mp hsegment
      rw [ih, segmentValues_eq, h s segment hs]
      congr 2
      refine List.filterMap_congr fun k hk => ?_
      rw [Function.comp_apply, hplace k (List.mem_range.mp hk), hsegment]
      rfl
    · rename_i hsegment
      rw [ih]
      have hnone : (List.range 32).filterMap
          ((fun k => (m.valueAt k).map (k, ·)) ∘ (e * 32 + ·)) = [] := by
        refine List.filterMap_eq_nil_iff.mpr fun k hk => ?_
        rw [Function.comp_apply, hplace k (List.mem_range.mp hk), hsegment]
        rfl
      rw [hnone]
      rfl

theorem valueAt_eq (m : Memory V) (i : UInt64) :
    m.valueAt i.toNat = (m.segmentAt (Address.ofIndex i).entry).bind fun s =>
      (m.content ⟨s, (Address.ofIndex i).offset⟩).map Occupant.value := by
  rw [valueAt, segmentAt, Address.toNat_entry_ofIndex]
  cases m.table[i.toNat / 32]?.join with
  | none => rfl
  | some s => rw [Option.bind_some, Option.bind_some, content, Address.toNat_offset_ofIndex]

end Memory

namespace SlotArray

variable {a : SlotArray} {m : Memory V}

theorem freed_eq_stored (m : Memory V) : freed m = m.storedValues.map Prod.snd := by
  rw [freed, m.release_eq, Release.giveBack, List.append_nil, List.reverse_reverse]

/-- The number that is told after a release is that of the values given back. -/
theorem released_eq (a : SlotArray) (m : Memory V) :
    a.released m = .released a.capacity (freed m).length := by
  rw [released, freed_eq_stored, m.release_eq, Release.giveBack, Nat.zero_add]

theorem valueAt_of_lt {i : UInt64} (hi : i < a.capacity) : m.valueAt i.toNat = a.value? m i := by
  rw [m.valueAt_eq, value?]
  cases hn : m.segmentAt (Address.ofIndex i).entry with
  | none => rw [occupant?_of_missing hn]; rfl
  | some s => rw [occupant?_of_segment hi hn]; rfl

/-- Behind the last slot there is nothing. -/
theorem Sound.valueAt_of_le (h : a.Sound m) {i : UInt64} (hi : a.capacity ≤ i) :
    m.valueAt i.toNat = none := by
  rw [m.valueAt_eq]
  cases hn : m.segmentAt (Address.ofIndex i).entry with
  | none => rfl
  | some s =>
    rw [Option.bind_some, Option.map_eq_none_iff]
    by_contra hne
    obtain ⟨o, ho⟩ := Option.ne_none_iff_exists'.mp hne
    obtain ⟨j, hj⟩ := h.in_slot _ o ho
    obtain ⟨hlt, hsegment, hoffset⟩ := cell?_eq_some_iff.mp hj
    have hentry := h.entry_unique _ _ _ hsegment hn
    have hindex : j = i := Address.ofIndex_injective (by
      generalize Address.ofIndex j = x at hentry hoffset
      generalize Address.ofIndex i = y at hentry hoffset
      cases x
      cases y
      simp_all)
    rw [hindex] at hlt
    exact absurd hlt (UInt64.not_lt.mpr hi)

/-- The release comes to the occupied slots, each once, in the order of their indices. -/
theorem Sound.storedValues_eq (h : a.Sound m) :
    m.storedValues = (List.range a.capacity.toNat).filterMap fun k =>
      (a.value? m (.ofNat k)).map (k, ·) := by
  have hcap := a.capacity.toNat_lt
  have hsize : m.table.size = (a.capacity.toNat + 31) / 32 := by
    rw [h.size_table, segmentCount, toNat_segmentCount]
  obtain ⟨behind, hbehind⟩ : ∃ behind, m.table.size * 32 = a.capacity.toNat + behind :=
    ⟨m.table.size * 32 - a.capacity.toNat, by omega⟩
  have hword : ∀ k < m.table.size * 32, (UInt64.ofNat k).toNat = k := by
    intro k hk
    have hsmall : k < 2 ^ 64 := by omega
    exact UInt64.toNat_ofNat_of_lt' hsmall
  have hnone : ((List.range behind).map (a.capacity.toNat + ·)).filterMap
      (fun k => (m.valueAt k).map (k, ·)) = [] := by
    refine List.filterMap_eq_nil_iff.mpr fun k hk => ?_
    obtain ⟨l, hl, rfl⟩ := List.mem_map.mp hk
    have hk := hword (a.capacity.toNat + l) (by have := List.mem_range.mp hl; omega)
    rw [← hk, h.valueAt_of_le (UInt64.le_iff_toNat_le.mpr (by omega))]
    rfl
  rw [Memory.storedValues, Memory.storedBefore_eq h.size_segment, List.append_nil, hbehind,
    List.range_add, List.filterMap_append, hnone, List.append_nil]
  refine List.filterMap_congr fun k hk => ?_
  have hlt := List.mem_range.mp hk
  have hk := hword k (by omega)
  rw [← valueAt_of_lt (UInt64.lt_iff_toNat_lt.mpr (by omega)), hk]

/-- The values in the slots, in the order of their indices. -/
def values (a : SlotArray) (m : Memory V) : List V := (a.slots m).filterMap id

theorem Sound.freed_eq (h : a.Sound m) : freed m = a.values m := by
  rw [freed_eq_stored, h.storedValues_eq, values, slots, List.map_filterMap, List.filterMap_map]
  refine List.filterMap_congr fun k _ => ?_
  rw [Option.map_map]
  exact congrFun Option.map_id _

end SlotArray

end AtomicSlots
