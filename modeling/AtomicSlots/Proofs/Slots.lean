import AtomicSlots.SlotArray.Access
import Mathlib.Tactic

/-!
# The slots of an array in memory

The memory holds a table, segments and cells; a slot array is seen as one list of optional values.
This file defines that view and the invariant under which it makes sense: every entry of the table
names a segment of its own, and every occupant stands in the cell of exactly one slot. It also says
what one memory must have in common with a later one. Stores change one slot of the view, and
nothing else in the memory changes the view.
-/
namespace AtomicSlots

variable {V : Type}

namespace Memory

/-- What a store of a value, or of nothing, leaves in its cell. -/
def stamped (m : Memory V) (new : Option V) : Option (Occupant V) := new.map (⟨m.stamps, ·⟩)

/-- Stores a value, or nothing, into a cell whatever it holds. -/
def store (m : Memory V) (cell : Cell) (new : Option V) : Memory V :=
  (m.stampValue? new).2.write cell (m.stampValue? new).1

theorem stampValue?_fst (m : Memory V) (new : Option V) :
    (m.stampValue? new).1 = m.stamped new := by cases new <;> rfl

theorem map_value_stamped (m : Memory V) (new : Option V) :
    (m.stamped new).map Occupant.value = new := by cases new <;> rfl

theorem isSome_stamped (m : Memory V) (new : Option V) :
    (m.stamped new).isSome = new.isSome := by cases new <;> rfl

@[simp] theorem segments_stampValue? (m : Memory V) (new : Option V) :
    (m.stampValue? new).2.segments = m.segments := by cases new <;> rfl

@[simp] theorem table_store (m : Memory V) (cell : Cell) (new : Option V) :
    (m.store cell new).table = m.table := by cases new <;> rfl

@[simp] theorem segmentAt_store (m : Memory V) (cell : Cell) (new : Option V) (e : UInt64) :
    (m.store cell new).segmentAt e = m.segmentAt e := by simp [segmentAt]

@[simp] theorem count_store (m : Memory V) (cell : Cell) (new : Option V) :
    (m.store cell new).count = m.count := by cases new <;> rfl

theorem segments_store (m : Memory V) (cell : Cell) (new : Option V) :
    (m.store cell new).segments =
      m.segments.modify cell.segment (·.setIfInBounds cell.offset.toNat (m.stamped new)) := by
  cases new <;> rfl

/-- To empty an empty cell changes nothing. -/
theorem store_none_of_empty {m : Memory V} {cell : Cell} (h : m.content cell = none) :
    m.store cell none = m := by
  obtain ⟨table, segments, count, stamps⟩ := m
  have hsegments : segments.modify cell.segment (·.setIfInBounds cell.offset.toNat none) =
      segments := by
    refine Array.ext_getElem? fun j => ?_
    rw [Array.getElem?_modify]
    split
    · rename_i hj
      subst hj
      cases hs : segments[cell.segment]? with
      | none => rfl
      | some segment =>
        rw [content, hs] at h
        refine congrArg some (Array.ext_getElem? fun k => ?_)
        rw [Array.getElem?_setIfInBounds]
        split
        · rename_i hk
          subst hk
          split
          · rename_i hlt
            simpa [hlt] using h.symm
          · rename_i hlt
            simp [hlt]
        · rfl
    · rfl
  exact congrArg (Memory.mk table · count stamps) hsegments

theorem stamps_store (m : Memory V) (cell : Cell) (new : Option V) :
    (m.store cell new).stamps = m.stamps + if new.isSome then 1 else 0 := by cases new <;> rfl

theorem stamps_le_store (m : Memory V) (cell : Cell) (new : Option V) :
    m.stamps ≤ (m.store cell new).stamps := by rw [stamps_store]; omega

theorem stamped_lt_store {m : Memory V} (cell : Cell) {new : Option V} {o : Occupant V}
    (h : m.stamped new = some o) :
    o.stamp = m.stamps ∧ m.stamps < (m.store cell new).stamps := by
  cases new with
  | none => cases h
  | some v => cases h; simp [stamps_store]

theorem content_store_self {m : Memory V} {cell : Cell} (new : Option V) (h : m.HasCell cell) :
    (m.store cell new).content cell = m.stamped new := by
  rw [store, stampValue?_fst]
  apply content_write_self
  simpa [HasCell] using h

theorem content_store_of_ne (m : Memory V) {c d : Cell} (new : Option V) (h : d ≠ c) :
    (m.store c new).content d = m.content d := by
  rw [store, content_write_of_ne _ _ h]
  simp [content]

theorem swap_eq (m : Memory V) (cell : Cell) (new : Option V) :
    m.swap cell new = (m.content cell, m.store cell new) := rfl

theorem exchangeIf_of_same {m : Memory V} {cell : Cell} {expected : Option (Occupant V)}
    (new : Option V) (h : sameOccupant (m.content cell) expected = true) :
    m.exchangeIf cell expected new = (⟨true, m.stamped new⟩, m.store cell new) := by
  simp only [exchangeIf, h, if_true, store, stampValue?_fst]

theorem exchangeIf_of_not_same {m : Memory V} {cell : Cell} {expected : Option (Occupant V)}
    (new : Option V) (h : sameOccupant (m.content cell) expected = false) :
    m.exchangeIf cell expected new = (⟨false, m.content cell⟩, m) := by
  simp [exchangeIf, h]

@[simp] theorem content_adjust (m : Memory V) (change : Int) (cell : Cell) :
    (m.adjust change).content cell = m.content cell := rfl

@[simp] theorem segmentAt_adjust (m : Memory V) (change : Int) (e : UInt64) :
    (m.adjust change).segmentAt e = m.segmentAt e := rfl

@[simp] theorem segmentAt_ofEntries (entries e : UInt64) :
    (ofEntries entries : Memory V).segmentAt e = none := by
  simp only [segmentAt, ofEntries, Array.getElem?_replicate]
  split <;> rfl

theorem sameOccupant_none (o : Option (Occupant V)) :
    sameOccupant o none = true ↔ o = none := by cases o <;> simp [sameOccupant]

@[simp] theorem sameOccupant_self (o : Option (Occupant V)) : sameOccupant o o = true := by
  simp [sameOccupant]

/-- What a memory shares with every memory that comes after it. Segments stay where they were
published, and an occupant whose stamp has been given out already was there before. -/
structure Later (m n : Memory V) : Prop where
  segmentAt_eq : ∀ e s, m.segmentAt e = some s → n.segmentAt e = some s
  stamps_le : m.stamps ≤ n.stamps
  was_there : ∀ cell o, n.content cell = some o → o.stamp < m.stamps → m.content cell = some o

namespace Later

theorem refl (m : Memory V) : m.Later m := ⟨fun _ _ h => h, le_rfl, fun _ _ h _ => h⟩

theorem trans {m n k : Memory V} (h : m.Later n) (h' : n.Later k) : m.Later k where
  segmentAt_eq e s hs := h'.segmentAt_eq e s (h.segmentAt_eq e s hs)
  stamps_le := h.stamps_le.trans h'.stamps_le
  was_there cell o ho hlt :=
    h.was_there cell o (h'.was_there cell o ho (lt_of_lt_of_le hlt h.stamps_le)) hlt

/-- An allocated entry stays allocated. -/
theorem isSome_segmentAt {m n : Memory V} (h : m.Later n) {e : UInt64}
    (he : (m.segmentAt e).isSome = true) : (n.segmentAt e).isSome = true := by
  obtain ⟨segment, hsegment⟩ := Option.isSome_iff_exists.mp he
  rw [h.segmentAt_eq e segment hsegment]
  rfl

end Later

theorem later_store {m : Memory V} {cell : Cell} (h : m.HasCell cell) (new : Option V) :
    m.Later (m.store cell new) where
  segmentAt_eq e s hs := by simpa using hs
  stamps_le := stamps_le_store m cell new
  was_there d o ho hlt := by
    by_cases hd : d = cell
    · subst hd
      rw [content_store_self new h] at ho
      have := (stamped_lt_store d ho).1
      omega
    · rwa [content_store_of_ne m new hd] at ho

theorem stamps_publish (m : Memory V) (e : UInt64) : (m.publish e).2.stamps = m.stamps := by
  unfold publish
  split <;> rfl

theorem count_publish (m : Memory V) (e : UInt64) : (m.publish e).2.count = m.count := by
  unfold publish
  split <;> rfl

theorem fresh_publish (m : Memory V) (e : UInt64) : (m.publish e).1.fresh = m.segments.size := by
  unfold publish
  split <;> rfl

theorem publish_of_some {m : Memory V} {e : UInt64} {s : Nat} (h : m.segmentAt e = some s) :
    m.publish e =
      (⟨m.segments.size, some s⟩, { m with segments := m.segments.push emptySegment }) := by
  simp only [publish, h]

theorem publish_of_none {m : Memory V} {e : UInt64} (h : m.segmentAt e = none) :
    m.publish e = (⟨m.segments.size, none⟩,
      { m with
        table := m.table.setIfInBounds e.toNat (some m.segments.size)
        segments := m.segments.push emptySegment }) := by
  simp only [publish, h]

theorem later_publish (m : Memory V) (e : UInt64) : m.Later (m.publish e).2 where
  segmentAt_eq d s hs := by
    rw [segmentAt_publish_of_isSome (by rw [hs]; rfl)]
    exact hs
  stamps_le := (stamps_publish m e).ge
  was_there cell o ho _ := by simpa using ho

/-- An entry that names a segment after a publication named it before, or is the entry of that
publication and names the new segment. -/
theorem segmentAt_publish {m : Memory V} {e d : UInt64} {s : Nat}
    (h : (m.publish e).2.segmentAt d = some s) :
    m.segmentAt d = some s ∨ (d = e ∧ m.segmentAt e = none ∧ s = m.segments.size) := by
  cases hn : m.segmentAt e with
  | some t =>
    left
    simpa [publish_of_some hn, segmentAt] using h
  | none =>
    simp only [publish_of_none hn, segmentAt, Array.getElem?_setIfInBounds] at h
    by_cases hd : e.toNat = d.toNat
    · right
      refine ⟨(UInt64.toNat_inj.mp hd).symm, rfl, ?_⟩
      rw [if_pos hd] at h
      split at h <;> simp_all
    · left
      rwa [if_neg hd] at h

theorem segmentAt_publish_self {m : Memory V} {e : UInt64} (h : e.toNat < m.table.size)
    (hn : m.segmentAt e = none) : (m.publish e).2.segmentAt e = some m.segments.size := by
  simp [publish_of_none hn, segmentAt, h]

/-- A publication leaves its entry with a segment, and the other entries as they are. -/
theorem isSome_segmentAt_publish {m : Memory V} {e : UInt64} (he : e.toNat < m.table.size)
    (d : UInt64) : ((m.publish e).2.segmentAt d).isSome = true ↔
      (m.segmentAt d).isSome = true ∨ e = d := by
  constructor
  · intro hd
    obtain ⟨segment, hsegment⟩ := Option.isSome_iff_exists.mp hd
    rcases segmentAt_publish hsegment with hold | ⟨rfl, -, -⟩
    · exact .inl (by rw [hold]; rfl)
    · exact .inr rfl
  · rintro (hd | rfl)
    · rwa [segmentAt_publish_of_isSome hd]
    · cases hn : m.segmentAt e with
      | none =>
        rw [m.segmentAt_publish_self he hn]
        rfl
      | some segment =>
        rw [segmentAt_publish_of_isSome (by rw [hn]; rfl), hn]
        rfl

end Memory

namespace SlotArray

/-- The cell of a slot, once its segment has come into being. -/
def cell? (a : SlotArray) (m : Memory V) (i : UInt64) : Option Cell :=
  (a.address? i).bind fun address => (m.segmentAt address.entry).map (⟨·, address.offset⟩)

/-- The occupant of a slot. A slot without a cell has none. -/
def occupant? (a : SlotArray) (m : Memory V) (i : UInt64) : Option (Occupant V) :=
  (a.cell? m i).bind m.content

/-- The value of a slot. -/
def value? (a : SlotArray) (m : Memory V) (i : UInt64) : Option V :=
  (a.occupant? m i).map Occupant.value

/-- The contents of all slots, in the order of their indices. -/
def slots (a : SlotArray) (m : Memory V) : List (Option V) :=
  (List.range a.capacity.toNat).map fun i => a.value? m (.ofNat i)

/-- Indices of slots are words. -/
theorem toNat_ofNat_of_lt (a : SlotArray) {k : ℕ} (h : k < a.capacity.toNat) :
    (UInt64.ofNat k).toNat = k :=
  UInt64.toNat_ofNat_of_lt' (h.trans a.capacity.toNat_lt)

/-- Number of occupied slots, by looking at each of them. -/
def occupied (a : SlotArray) (m : Memory V) : ℕ := (a.slots m).countP Option.isSome

/-- The invariant of a memory that serves an array. -/
structure Sound (a : SlotArray) (m : Memory V) : Prop where
  size_table : m.table.size = a.segmentCount.toNat
  segment_lt : ∀ e s, m.segmentAt e = some s → s < m.segments.size
  entry_unique : ∀ e d s, m.segmentAt e = some s → m.segmentAt d = some s → e = d
  size_segment : ∀ (s : ℕ) segment, m.segments[s]? = some segment → segment.size = 32
  /-- Whatever is stored is stored in a slot. -/
  in_slot : ∀ cell o, m.content cell = some o → ∃ i, a.cell? m i = some cell
  stamp_lt : ∀ cell o, m.content cell = some o → o.stamp < m.stamps
  stamp_unique : ∀ c d o p, m.content c = some o → m.content d = some p →
    o.stamp = p.stamp → c = d

theorem cell?_eq_some_iff {a : SlotArray} {m : Memory V} {i : UInt64} {cell : Cell} :
    a.cell? m i = some cell ↔ i < a.capacity ∧
      m.segmentAt (Address.ofIndex i).entry = some cell.segment ∧
      (Address.ofIndex i).offset = cell.offset := by
  simp only [cell?, address?]
  split
  · rename_i h
    obtain ⟨segment, offset⟩ := cell
    simp [h]
  · rename_i h
    simp [h]

theorem cell?_of_le {a : SlotArray} (m : Memory V) {i : UInt64} (h : a.capacity ≤ i) :
    a.cell? m i = none := by
  simp [cell?, address?, UInt64.not_lt.mpr h]

theorem occupant?_of_le {a : SlotArray} (m : Memory V) {i : UInt64} (h : a.capacity ≤ i) :
    a.occupant? m i = none := by simp [occupant?, cell?_of_le m h]

theorem occupant?_of_cell? {a : SlotArray} {m : Memory V} {i : UInt64} {cell : Cell}
    (h : a.cell? m i = some cell) : a.occupant? m i = m.content cell := by simp [occupant?, h]

theorem occupant?_of_cell?_eq_none {a : SlotArray} {m : Memory V} {i : UInt64}
    (h : a.cell? m i = none) : a.occupant? m i = none := by simp [occupant?, h]

theorem value?_of_cell? {a : SlotArray} {m : Memory V} {i : UInt64} {cell : Cell}
    (h : a.cell? m i = some cell) : a.value? m i = (m.content cell).map Occupant.value := by
  rw [value?, occupant?_of_cell? h]

theorem value?_of_cell?_eq_none {a : SlotArray} {m : Memory V} {i : UInt64}
    (h : a.cell? m i = none) : a.value? m i = none := by simp [value?, occupant?_of_cell?_eq_none h]

theorem value?_of_le {a : SlotArray} (m : Memory V) {i : UInt64} (h : a.capacity ≤ i) :
    a.value? m i = none := by simp [value?, occupant?_of_le m h]

theorem lt_of_occupant? {a : SlotArray} {m : Memory V} {i : UInt64} {o : Occupant V}
    (h : a.occupant? m i = some o) : i < a.capacity := by
  by_contra hn
  rw [occupant?_of_le m (UInt64.not_lt.mp hn)] at h
  cases h

theorem lt_of_value? {a : SlotArray} {m : Memory V} {i : UInt64} {v : V}
    (h : a.value? m i = some v) : i < a.capacity := by
  obtain ⟨o, ho, -⟩ := Option.map_eq_some_iff.mp h
  exact lt_of_occupant? ho

/-- A cell keeps its slot for good. -/
theorem cell?_later {a : SlotArray} {m n : Memory V} (h : m.Later n) {i : UInt64} {cell : Cell}
    (hc : a.cell? m i = some cell) : a.cell? n i = some cell := by
  rw [cell?_eq_some_iff] at hc ⊢
  exact ⟨hc.1, h.segmentAt_eq _ _ hc.2.1, hc.2.2⟩

@[simp] theorem length_slots (a : SlotArray) (m : Memory V) :
    (a.slots m).length = a.capacity.toNat := by simp [slots]

theorem getElem?_slots (a : SlotArray) (m : Memory V) (i : UInt64) :
    (a.slots m)[i.toNat]? = if i < a.capacity then some (a.value? m i) else none := by
  simp only [slots, List.getElem?_map, UInt64.lt_iff_toNat_lt]
  by_cases h : i.toNat < a.capacity.toNat
  · simp [h]
  · simp [h]

/-- Memories with the same values in all slots are the same to a reader of slots. -/
theorem slots_congr {a : SlotArray} {m n : Memory V} (h : ∀ i, a.value? m i = a.value? n i) :
    a.slots m = a.slots n := by simp only [slots, h]

theorem slots_congr_occupant {a : SlotArray} {m n : Memory V}
    (h : ∀ i, a.occupant? m i = a.occupant? n i) : a.slots m = a.slots n :=
  slots_congr fun i => by simp only [value?, h]

namespace Sound

variable {a : SlotArray} {m : Memory V}

/-- Different slots have different cells. -/
theorem cell?_inj (h : a.Sound m) {i j : UInt64} {cell : Cell} (hi : a.cell? m i = some cell)
    (hj : a.cell? m j = some cell) : i = j := by
  rw [cell?_eq_some_iff] at hi hj
  apply Address.ofIndex_injective
  have he := h.entry_unique _ _ _ hi.2.1 hj.2.1
  have ho := hi.2.2.trans hj.2.2.symm
  generalize Address.ofIndex i = x at he ho
  generalize Address.ofIndex j = y at he ho
  cases x
  cases y
  simp_all

theorem hasCell (h : a.Sound m) {i : UInt64} {cell : Cell} (hc : a.cell? m i = some cell) :
    m.HasCell cell := by
  rw [cell?_eq_some_iff] at hc
  have hlt := h.segment_lt _ _ hc.2.1
  refine ⟨m.segments[cell.segment], by simp [hlt], ?_⟩
  rw [h.size_segment cell.segment _ (by simp [hlt]), ← hc.2.2, Address.toNat_offset_ofIndex]
  omega

/-- An occupant that was seen in a cell is what a conditional exchange finds there later, if it
finds the stamp. -/
theorem content_of_sameOccupant (h : a.Sound m) {n : Memory V} (hl : m.Later n) {cell : Cell}
    {o : Occupant V} (ho : m.content cell = some o)
    (hs : sameOccupant (n.content cell) (some o) = true) : n.content cell = some o := by
  cases hn : n.content cell with
  | none => simp [hn, sameOccupant] at hs
  | some p =>
    have hp : p.stamp = o.stamp := by simpa [hn, sameOccupant] using hs
    have hlt := h.stamp_lt cell o ho
    have := hl.was_there cell p hn (by omega)
    rw [ho] at this
    exact this.symm

/-- An entry that an index selects lies in the table. -/
theorem entry_lt (h : a.Sound m) {i : UInt64} (hi : i < a.capacity) :
    (Address.ofIndex i).entry.toNat < m.table.size := by
  rw [UInt64.lt_iff_toNat_lt] at hi
  rw [h.size_table, segmentCount, toNat_segmentCount, Address.toNat_entry_ofIndex]
  omega

end Sound

/-! An access to a slot of the array is a look at the table, with what follows from it. -/

theorem access_fill_of_lt {H α : Type} {a : SlotArray} {i : UInt64} {use : Cell → Program V H α}
    (h : i < a.capacity) :
    a.access .fill i use = segmentOrFresh (Address.ofIndex i).entry >>=
      fun segment => some <$> use ⟨segment, (Address.ofIndex i).offset⟩ := by
  simp only [access, address?_eq_some_iff.mpr ⟨h, rfl⟩]

/-- An access for filling, and what comes after it, up to the program that gets the cell. -/
theorem access_fill_bind {H α β : Type} {a : SlotArray} {i : UInt64} (h : i < a.capacity)
    (use : Cell → Program V H β) (f : Option β → Program V H α) :
    a.access .fill i use >>= f = segmentOrFresh (Address.ofIndex i).entry >>=
      fun segment => use ⟨segment, (Address.ofIndex i).offset⟩ >>= fun x => f (some x) := by
  rw [access_fill_of_lt h, bind_assoc]
  simp only [bind_map_left]

theorem access_of_lt {H α : Type} {a : SlotArray} {purpose : Access} {i : UInt64}
    {use : Cell → Program V H α} (h : i < a.capacity) (hp : purpose ≠ .fill) :
    a.access purpose i use = Program.perform (.loadEntry (Address.ofIndex i).entry) >>= fun found =>
      match found with
      | none => .done none
      | some segment => some <$> use ⟨segment, (Address.ofIndex i).offset⟩ := by
  cases purpose with
  | fill => exact absurd rfl hp
  | inspect =>
    simp only [access, address?_eq_some_iff.mpr ⟨h, rfl⟩]
    congr 1
    funext found
    cases found <;> rfl
  | vacate =>
    simp only [access, address?_eq_some_iff.mpr ⟨h, rfl⟩]
    congr 1
    funext found
    cases found <;> rfl

/-! Publications and stores keep the invariant. A publication changes no slot, and a store into
the cell of a slot changes that slot only. -/

theorem Sound.publish {a : SlotArray} {m : Memory V} (h : a.Sound m) (e : UInt64) :
    a.Sound (m.publish e).2 where
  size_table := by
    cases hn : m.segmentAt e with
    | some s => simpa [m.publish_of_some hn] using h.size_table
    | none => simpa [m.publish_of_none hn] using h.size_table
  segment_lt d s hs := by
    rw [Memory.segments_publish, Array.size_push]
    rcases Memory.segmentAt_publish hs with hs | ⟨_, _, rfl⟩
    · exact (h.segment_lt d s hs).trans (Nat.lt_succ_self _)
    · exact Nat.lt_succ_self _
  entry_unique d k s hd hk := by
    rcases Memory.segmentAt_publish hd with hold | ⟨hde, _, hs⟩
    · rcases Memory.segmentAt_publish hk with hold' | ⟨_, _, hs⟩
      · exact h.entry_unique d k s hold hold'
      · exact absurd (h.segment_lt d s hold) (by omega)
    · rcases Memory.segmentAt_publish hk with hold | ⟨hke, _, _⟩
      · exact absurd (h.segment_lt k s hold) (by omega)
      · rw [hde, hke]
  size_segment s segment hs := by
    rw [Memory.segments_publish, Array.getElem?_push] at hs
    split at hs
    · cases hs
      simp [Memory.emptySegment, segmentSize]
    · exact h.size_segment s segment hs
  in_slot cell o ho := by
    obtain ⟨i, hi⟩ := h.in_slot cell o (by simpa using ho)
    exact ⟨i, cell?_later (m.later_publish e) hi⟩
  stamp_lt cell o ho := by
    rw [Memory.stamps_publish]
    exact h.stamp_lt cell o (by simpa using ho)
  stamp_unique c d o p hc hd := h.stamp_unique c d o p (by simpa using hc) (by simpa using hd)

theorem occupant?_publish {a : SlotArray} {m : Memory V} (h : a.Sound m) (e i : UInt64) :
    a.occupant? (m.publish e).2 i = a.occupant? m i := by
  cases hc : a.cell? m i with
  | some cell =>
    rw [occupant?_of_cell? hc, occupant?_of_cell? (cell?_later (m.later_publish e) hc),
      Memory.content_publish]
  | none =>
    rw [occupant?_of_cell?_eq_none hc]
    cases ho : a.occupant? (m.publish e).2 i with
    | none => rfl
    | some o =>
      -- an occupant would stand in a slot that had a cell before
      obtain ⟨cell, hcell, ho⟩ := Option.bind_eq_some_iff.mp ho
      rw [Memory.content_publish] at ho
      obtain ⟨j, hj⟩ := h.in_slot cell o ho
      have hij := (h.publish e).cell?_inj hcell (cell?_later (m.later_publish e) hj)
      rw [hij, hj] at hc
      cases hc

theorem Sound.adjust {a : SlotArray} {m : Memory V} (h : a.Sound m) (change : ℤ) :
    a.Sound (m.adjust change) :=
  ⟨h.size_table, h.segment_lt, h.entry_unique, h.size_segment, h.in_slot, h.stamp_lt,
    h.stamp_unique⟩

@[simp] theorem occupant?_adjust (a : SlotArray) (m : Memory V) (change : ℤ) (i : UInt64) :
    a.occupant? (m.adjust change) i = a.occupant? m i := rfl

@[simp] theorem slots_adjust (a : SlotArray) (m : Memory V) (change : ℤ) :
    a.slots (m.adjust change) = a.slots m := rfl

@[simp] theorem occupied_adjust (a : SlotArray) (m : Memory V) (change : ℤ) :
    a.occupied (m.adjust change) = a.occupied m := rfl

@[simp] theorem cell?_store (a : SlotArray) (m : Memory V) (cell : Cell) (new : Option V)
    (i : UInt64) : a.cell? (m.store cell new) i = a.cell? m i := by
  simp [cell?, Memory.segmentAt_store]

section Store

variable {a : SlotArray} {m : Memory V} {i : UInt64} {cell : Cell}

theorem Sound.store (h : a.Sound m) (hc : a.cell? m i = some cell) (new : Option V) :
    a.Sound (m.store cell new) where
  size_table := by simpa using h.size_table
  segment_lt e s hs := by
    rw [Memory.segments_store, Array.size_modify]
    exact h.segment_lt e s (by simpa using hs)
  entry_unique e d s he hd := h.entry_unique e d s (by simpa using he) (by simpa using hd)
  size_segment s segment hs := by
    rw [Memory.segments_store, Array.getElem?_modify] at hs
    split at hs
    · obtain ⟨old, hold, rfl⟩ := Option.map_eq_some_iff.mp hs
      rw [Array.size_setIfInBounds]
      exact h.size_segment s old hold
    · exact h.size_segment s segment hs
  in_slot d o ho := by
    by_cases hd : d = cell
    · exact ⟨i, by simpa [hd] using hc⟩
    · rw [Memory.content_store_of_ne m new hd] at ho
      simpa using h.in_slot d o ho
  stamp_lt d o ho := by
    by_cases hd : d = cell
    · subst hd
      rw [Memory.content_store_self new (h.hasCell hc)] at ho
      have := Memory.stamped_lt_store d ho
      omega
    · rw [Memory.content_store_of_ne m new hd] at ho
      exact lt_of_lt_of_le (h.stamp_lt d o ho) (m.stamps_le_store cell new)
  stamp_unique c d o p hco hdp hs := by
    -- the new occupant has a stamp that no other one can have
    have hold : ∀ e q, (m.store cell new).content e = some q → e ≠ cell → q.stamp < m.stamps := by
      intro e q hq he
      rw [Memory.content_store_of_ne m new he] at hq
      exact h.stamp_lt e q hq
    have hnew : ∀ q, (m.store cell new).content cell = some q → q.stamp = m.stamps := by
      intro q hq
      rw [Memory.content_store_self new (h.hasCell hc)] at hq
      exact (Memory.stamped_lt_store cell hq).1
    by_cases hcc : c = cell
    · by_cases hdc : d = cell
      · rw [hcc, hdc]
      · have := hnew o (hcc ▸ hco)
        have := hold d p hdp hdc
        omega
    · by_cases hdc : d = cell
      · have := hnew p (hdc ▸ hdp)
        have := hold c o hco hcc
        omega
      · rw [Memory.content_store_of_ne m new hcc] at hco
        rw [Memory.content_store_of_ne m new hdc] at hdp
        exact h.stamp_unique c d o p hco hdp hs

theorem occupant?_store_self (h : a.Sound m) (hc : a.cell? m i = some cell) (new : Option V) :
    a.occupant? (m.store cell new) i = m.stamped new := by
  rw [occupant?_of_cell? (by simpa using hc), Memory.content_store_self new (h.hasCell hc)]

theorem occupant?_store_of_ne (h : a.Sound m) (hc : a.cell? m i = some cell) (new : Option V)
    {j : UInt64} (hj : j ≠ i) : a.occupant? (m.store cell new) j = a.occupant? m j := by
  cases hd : a.cell? m j with
  | none => rw [occupant?_of_cell?_eq_none hd, occupant?_of_cell?_eq_none (by simpa using hd)]
  | some d =>
    rw [occupant?_of_cell? hd, occupant?_of_cell? (by simpa using hd)]
    apply Memory.content_store_of_ne
    rintro rfl
    exact hj (h.cell?_inj hd hc)

/-- A store into the cell of a slot sets the contents of that slot. -/
theorem slots_store (h : a.Sound m) (hc : a.cell? m i = some cell) (new : Option V) :
    a.slots (m.store cell new) = (a.slots m).set i.toNat new := by
  apply List.ext_getElem?
  intro k
  by_cases hk : k < a.capacity.toNat
  · have hkw := hk.trans a.capacity.toNat_lt
    obtain ⟨j, rfl⟩ : ∃ j : UInt64, j.toNat = k := ⟨.ofNat k, by simpa using Nat.mod_eq_of_lt hkw⟩
    have hj : j < a.capacity := UInt64.lt_iff_toNat_lt.mpr hk
    rw [getElem?_slots, if_pos hj, List.getElem?_set]
    by_cases hij : i = j
    · subst hij
      simp [hk, value?, occupant?_store_self h hc, Memory.map_value_stamped]
    · have hne : i.toNat ≠ j.toNat := fun he => hij (UInt64.toNat_inj.mp he)
      simp [hne, getElem?_slots, hj, value?, occupant?_store_of_ne h hc new (Ne.symm hij)]
  · simp [hk]

/-- A store changes the number of occupied slots by what it changes in its slot. -/
theorem occupied_store (h : a.Sound m) (hc : a.cell? m i = some cell) (new : Option V) :
    (a.occupied (m.store cell new) : ℤ) + (m.content cell).isSome.toNat =
      a.occupied m + new.isSome.toNat := by
  have hi := (cell?_eq_some_iff.mp hc).1
  have hlt : i.toNat < (a.slots m).length := by simpa using UInt64.lt_iff_toNat_lt.mp hi
  have hget : (a.slots m)[i.toNat] = a.value? m i := by
    have := getElem?_slots a m i
    rw [if_pos hi, List.getElem?_eq_getElem hlt] at this
    exact Option.some.inj this
  have hsome : (a.value? m i).isSome = (m.content cell).isSome := by
    rw [value?, Option.isSome_map, occupant?_of_cell? hc]
  have hpos : (m.content cell).isSome.toNat ≤ a.occupied m := by
    cases hs : (m.content cell).isSome with
    | false => simp
    | true =>
      have hmem : a.value? m i ∈ a.slots m := hget ▸ List.getElem_mem hlt
      simpa [occupied] using List.countP_pos_iff.mpr ⟨_, hmem, by rw [hsome, hs]⟩
  have hset : a.occupied (m.store cell new) =
      a.occupied m - (m.content cell).isSome.toNat + new.isSome.toNat := by
    rw [occupied, slots_store h hc, List.countP_set hlt, hget, hsome]
    cases (m.content cell).isSome <;> cases new.isSome <;> rfl
  omega

end Store

/-- The memory of a fresh array. -/
theorem sound_ofEntries (a : SlotArray) : a.Sound (.ofEntries a.segmentCount : Memory V) where
  size_table := by simp [Memory.ofEntries]
  segment_lt e s h := by simp at h
  entry_unique e d s h := by simp at h
  size_segment s segment h := by simp [Memory.ofEntries] at h
  in_slot cell o h := by simp at h
  stamp_lt cell o h := by simp at h
  stamp_unique c d o p h := by simp at h

theorem occupant?_ofEntries (a : SlotArray) (i : UInt64) :
    a.occupant? (.ofEntries a.segmentCount : Memory V) i = none := by
  simp only [occupant?]
  cases a.cell? (.ofEntries a.segmentCount : Memory V) i <;> simp

theorem slots_ofEntries (a : SlotArray) :
    a.slots (.ofEntries a.segmentCount : Memory V) = .replicate a.capacity.toNat none := by
  simp [slots, value?, occupant?_ofEntries]

theorem occupied_ofEntries (a : SlotArray) :
    a.occupied (.ofEntries a.segmentCount : Memory V) = 0 := by
  simp [occupied, slots_ofEntries, List.countP_replicate]

end SlotArray

end AtomicSlots
