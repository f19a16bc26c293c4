import AtomicSlots.Proofs.Allocation
import AtomicSlots.Proofs.LoopBounds

/-!
# Addresses and cells

The indices of an array and the places behind its table are in one-to-one correspondence. An access
to a slot takes an index apart; a scan goes the other way and puts an index together from a place.
Both mean the same cell: whatever the actions of a scan find, the cell that it has loaded last when
it reports an index is the one that an access to that index is given. The last segment may have
cells behind the capacity. They belong to no index, and nothing is ever stored in them.
-/
namespace AtomicSlots

variable {V H α β : Type}

namespace Program

/-- A program can come to the answer `x` by the actions of a list, each with what it found. -/
inductive EndsAlong : Program V H α → List ((act : Action V H) × act.Result) → α → Prop
  | done (x : α) : EndsAlong (.done x) [] x
  | step {act : Action V H} {next : act.Result → Program V H α} (r : act.Result)
      {history : List ((act : Action V H) × act.Result)} {x : α} :
      EndsAlong (next r) history x → EndsAlong (.step act next) (⟨act, r⟩ :: history) x

variable {p : Program V H α} {history : List ((act : Action V H) × act.Result)}

theorem endsAlong_done {x y : α} : (done x).EndsAlong history y ↔ history = [] ∧ x = y := by
  constructor
  · rintro ⟨⟩
    exact ⟨rfl, rfl⟩
  · rintro ⟨rfl, rfl⟩
    exact .done x

/-- A program that runs alone comes to its answer by what it finds in the session. -/
theorem exists_endsAlong [Journal H] {s t : Session V H} {x : α} (h : p.run s = (.ok x, t)) :
    ∃ history, p.EndsAlong history x := by
  induction p generalizing s with
  | done y =>
    cases h
    exact ⟨[], .done x⟩
  | panic reason => cases h
  | step act next ih =>
    obtain ⟨history, hrest⟩ := ih _ h
    exact ⟨_, .step _ hrest⟩

/-- A sequence of programs goes along one history and then along another. -/
theorem EndsAlong.bind {f : α → Program V H β} {y : β} (h : (p >>= f).EndsAlong history y) :
    ∃ first second x, history = first ++ second ∧ p.EndsAlong first x ∧
      (f x).EndsAlong second y := by
  induction p generalizing history with
  | done x => exact ⟨[], history, x, rfl, .done x, h⟩
  | panic reason => cases h
  | step act next ih =>
    rw [step_bind] at h
    cases h with
    | step r h =>
      obtain ⟨first, second, x, rfl, hfirst, hsecond⟩ := ih r h
      exact ⟨_, second, x, rfl, .step r hfirst, hsecond⟩

theorem EndsAlong.perform_bind {act : Action V H} {f : act.Result → Program V H α} {x : α}
    (h : (perform act >>= f).EndsAlong history x) :
    ∃ r rest, history = ⟨act, r⟩ :: rest ∧ (f r).EndsAlong rest x := by
  cases h with
  | step r h => exact ⟨r, _, rfl, h⟩

theorem Answers.of_endsAlong {Q : α → Prop} {x : α} (hp : p.Answers Q)
    (h : p.EndsAlong history x) : Q x := by
  induction h with
  | done x => exact hp
  | step r _ ih => exact ih (hp r)

end Program

open Program

variable {history : List ((act : Action V H) × act.Result)}

/-- A segment's search has loaded last the cell whose occupant it reports. -/
theorem exists_of_firstInSegment {segment n : ℕ} {first offset : UInt64} {o : Occupant V}
    (h : (firstInSegment segment n first).EndsAlong history (some (offset, o))) :
    ∃ before, history = before ++ [⟨.load ⟨segment, offset⟩, some o⟩] := by
  induction n generalizing first history with
  | zero => cases h
  | succ n ih =>
    obtain ⟨content, rest, rfl, hrest⟩ := h.perform_bind
    cases content with
    | some p =>
      cases hrest
      exact ⟨[], rfl⟩
    | none =>
      obtain ⟨before, rfl⟩ := ih hrest
      exact ⟨_ :: before, rfl⟩

namespace SlotArray

variable {a : SlotArray} {i j : UInt64} {o : Occupant V}

/-- When a scan reports an index, it has asked the table for the segment of that index and has
loaded last the cell of that index there. -/
structure Located (a : SlotArray) (history : List ((act : Action V H) × act.Result)) (j : UInt64)
    (o : Occupant V) (segment : ℕ) : Prop where
  lt : j < a.capacity
  named : ⟨.loadEntry (Address.ofIndex j).entry, some segment⟩ ∈ history
  loaded : history.getLast? = some ⟨.load ⟨segment, (Address.ofIndex j).offset⟩, some o⟩

theorem Located.cons {segment : ℕ} (h : a.Located history j o segment)
    (first : (act : Action V H) × act.Result) : a.Located (first :: history) j o segment where
  lt := h.lt
  named := .tail _ h.named
  loaded := by
    rw [List.getLast?_cons, h.loaded]
    rfl

theorem Located.append {segment : ℕ} (h : a.Located history j o segment)
    (first : List ((act : Action V H) × act.Result)) :
    a.Located (first ++ history) j o segment := by
  induction first with
  | nil => exact h
  | cons action rest ih => exact ih.cons action

theorem offset_lt (i : UInt64) : (Address.ofIndex i).offset < segmentSize := by
  have hsize : segmentSize.toNat = 32 := rfl
  rw [UInt64.lt_iff_toNat_lt, Address.toNat_offset_ofIndex]
  omega

/-- A place inside its segment is the place of the index that it adds up to. -/
theorem ofIndex_eq_iff (i : UInt64) {address : Address} (hoffset : address.offset < segmentSize) :
    Address.ofIndex i = address ↔
      address.entry.toNat * segmentSize.toNat + address.offset.toNat = i.toNat := by
  obtain ⟨entry, offset⟩ := address
  have hsize : segmentSize.toNat = 32 := rfl
  have hlt : offset.toNat < 32 := UInt64.lt_iff_toNat_lt.mp hoffset
  rw [hsize]
  constructor
  · intro h
    rw [← h, Address.toNat_entry_ofIndex, Address.toNat_offset_ofIndex]
    omega
  · intro h
    dsimp only at h
    have hentry : (Address.ofIndex i).entry = entry := by
      rw [← UInt64.toNat_inj, Address.toNat_entry_ofIndex]
      omega
    have hrest : (Address.ofIndex i).offset = offset := by
      rw [← UInt64.toNat_inj, Address.toNat_offset_ofIndex]
      omega
    rw [← hentry, ← hrest]

/-- A scan that adds an offset to the base of an index gets an index with that offset behind the
same entry. -/
theorem ofIndex_base_add (a : SlotArray) (i : UInt64) {offset : UInt64}
    (hoffset : offset.toNat < min 32 (a.capacity.toNat - 32 * (i.toNat / 32))) :
    let j := Address.base (Address.ofIndex i).entry + offset
    j < a.capacity ∧ Address.ofIndex j = ⟨(Address.ofIndex i).entry, offset⟩ := by
  intro j
  have hcap := a.capacity.toNat_lt
  have hsize : segmentSize.toNat = 32 := rfl
  have hentry := Address.toNat_entry_ofIndex i
  have hj : j.toNat = 32 * (i.toNat / 32) + offset.toNat := by
    rw [UInt64.toNat_add, Address.toNat_base_entry]
    omega
  constructor
  · rw [UInt64.lt_iff_toNat_lt]
    omega
  · have hlt : offset < segmentSize := UInt64.lt_iff_toNat_lt.mpr (by omega)
    rw [ofIndex_eq_iff j hlt, hsize, hentry]
    dsimp only
    omega

theorem exists_located {n : ℕ} (h : (a.scan n i).EndsAlong history (some (j, o))) :
    ∃ segment, a.Located history j o segment := by
  induction n generalizing i history with
  | zero => cases h
  | succ n ih =>
    rw [scan] at h
    split at h
    · rename_i hi
      obtain ⟨entry, rest, rfl, hrest⟩ := h.perform_bind
      cases entry with
      | none =>
        obtain ⟨segment, hlater⟩ := ih hrest
        exact ⟨segment, hlater.cons _⟩
      | some segment =>
        obtain ⟨first, second, found, rfl, hfirst, hsecond⟩ := hrest.bind
        rcases found with _ | ⟨offset, p⟩
        · obtain ⟨segment, hlater⟩ := ih hsecond
          exact ⟨segment, (hlater.append first).cons _⟩
        · obtain ⟨rfl, hsome⟩ := endsAlong_done.mp hsecond
          cases hsome
          have hcap := a.capacity.toNat_lt
          have hlt := UInt64.lt_iff_toNat_lt.mp hi
          have hstart := toNat_sub_base i
          have hlength := toNat_restOfSegment hi
          obtain ⟨-, hoffset⟩ := (answers_firstInSegment segment (by omega)).of_endsAlong hfirst
            offset o rfl
          have hroom : offset.toNat < min 32 (a.capacity.toNat - 32 * (i.toNat / 32)) := by omega
          obtain ⟨hj, hplace⟩ := a.ofIndex_base_add i hroom
          obtain ⟨before, rfl⟩ := exists_of_firstInSegment hfirst
          refine ⟨segment, hj, ?_, ?_⟩
          · rw [hplace]
            exact .head _
          · rw [hplace, List.append_nil, ← List.cons_append]
            exact List.getLast?_concat
    · cases h

/-- A place is the place of a slot if it lies inside its segment and in front of the capacity, and
then it is that of one slot. -/
theorem address?_eq_some_iff_index {address : Address} :
    a.address? i = some address ↔ i < a.capacity ∧ address.offset < segmentSize ∧
      address.entry.toNat * segmentSize.toNat + address.offset.toNat = i.toNat := by
  rw [address?_eq_some_iff]
  constructor
  · rintro ⟨hi, rfl⟩
    exact ⟨hi, offset_lt i, (ofIndex_eq_iff i (offset_lt i)).mp rfl⟩
  · rintro ⟨hi, hoffset, hindex⟩
    exact ⟨hi, (ofIndex_eq_iff i hoffset).mpr hindex⟩

/-- Of the cells of a published segment those in front of the capacity are cells of slots. -/
theorem Sound.has_slot_iff {m : Memory V} (h : a.Sound m) {e : UInt64} {segment : ℕ}
    (he : m.segmentAt e = some segment) (offset : UInt64) :
    (∃ i, a.cell? m i = some ⟨segment, offset⟩) ↔
      offset < segmentSize ∧ e.toNat * segmentSize.toNat + offset.toNat < a.capacity.toNat := by
  constructor
  · rintro ⟨i, hi⟩
    obtain ⟨hlt, hsegment, hoffset⟩ := cell?_eq_some_iff.mp hi
    have hentry : (Address.ofIndex i).entry = e := h.entry_unique _ _ _ hsegment he
    have hindex := (ofIndex_eq_iff i (offset_lt i)).mp rfl
    dsimp only at hoffset
    rw [hentry, hoffset] at hindex
    rw [hindex, ← UInt64.lt_iff_toNat_lt, ← hoffset]
    exact ⟨offset_lt i, hlt⟩
  · rintro ⟨hoffset, hlt⟩
    have hi := a.toNat_ofNat_of_lt hlt
    have hplace : Address.ofIndex _ = ⟨e, offset⟩ := (ofIndex_eq_iff _ hoffset).mpr hi.symm
    refine ⟨.ofNat (e.toNat * segmentSize.toNat + offset.toNat), cell?_eq_some_iff.mpr ?_⟩
    rw [hplace, UInt64.lt_iff_toNat_lt, hi]
    exact ⟨hlt, he, rfl⟩

/-- The indices of an array and the places behind its table are in one-to-one correspondence, for
every capacity: an index has a place if and only if the array has the slot, the place is an entry of
the table and an offset inside a segment that add up to the index, and a place for which they add up
to less than the capacity is that of one index. No entry is there without a slot. When a scan
reports an index, be it whatever its actions have found, it has loaded last the cell of the place of
that index, in the segment that the table has named to it, which is the cell that an access to the
index is given. And whatever threads do that get their cells from accesses, different slots have
different cells, and a cell that belongs to no slot is empty: in the last segment these are the
cells behind the capacity. -/
theorem addresses_are_shared :
    (∀ (a : SlotArray) (i : UInt64),
      ((a.address? i).isSome = true ↔ i < a.capacity) ∧
      (∀ address, a.address? i = some address ↔ i < a.capacity ∧ address.offset < segmentSize ∧
        address.entry.toNat * segmentSize.toNat + address.offset.toNat = i.toNat) ∧
      (∀ address, a.address? i = some address → address.entry < a.segmentCount) ∧
      (∀ j address, a.address? i = some address → a.address? j = some address → i = j)) ∧
    (∀ (a : SlotArray) (address : Address), address.offset < segmentSize →
      address.entry.toNat * segmentSize.toNat + address.offset.toNat < a.capacity.toNat →
      ∃ i, a.address? i = some address) ∧
    (∀ {V H : Type} (a : SlotArray) (i j : UInt64) (o : Occupant V)
        (history : List ((act : Action V H) × act.Result)),
      (a.firstFrom i).EndsAlong history (some (j, o)) →
      ∃ address segment, a.address? j = some address ∧
        ⟨.loadEntry address.entry, some segment⟩ ∈ history ∧
        history.getLast? = some ⟨.load ⟨segment, address.offset⟩, some o⟩ ∧
        ∀ m : Memory V, m.segmentAt address.entry = some segment →
          a.cell? m j = some ⟨segment, address.offset⟩) ∧
    ∀ {V H α : Type} [Journal H] (a : SlotArray) (host : H)
        {programs : List (List (Program V H α))},
      (∀ list ∈ programs, ∀ p ∈ list, a.CellClient (fun _ => False) p) →
      ∀ schedule : List ℕ,
      let m := ((Pool.fresh a host programs).run schedule).session.memory
      m.table.size = a.segmentCount.toNat ∧
      (∀ e, e < m.table.size → ∃ i address, a.address? i = some address ∧
        address.entry.toNat = e) ∧
      (∀ i j cell, a.cell? m i = some cell → a.cell? m j = some cell → i = j) ∧
      (∀ e segment offset, m.segmentAt e = some segment →
        ((∃ i, a.cell? m i = some ⟨segment, offset⟩) ↔ offset < segmentSize ∧
          e.toNat * segmentSize.toNat + offset.toNat < a.capacity.toNat)) ∧
      ∀ cell, (∀ i, a.cell? m i ≠ some cell) → m.content cell = none := by
  refine ⟨fun a i => ⟨?_, fun _ => address?_eq_some_iff_index, ?_, ?_⟩, ?_, ?_, ?_⟩
  · rw [address?]
    split <;> simp [*]
  · intro address h
    obtain ⟨hi, rfl⟩ := address?_eq_some_iff.mp h
    have hlt := UInt64.lt_iff_toNat_lt.mp hi
    rw [UInt64.lt_iff_toNat_lt, segmentCount, toNat_segmentCount, Address.toNat_entry_ofIndex]
    omega
  · intro j address hi hj
    apply Address.ofIndex_injective
    rw [(address?_eq_some_iff.mp hi).2, (address?_eq_some_iff.mp hj).2]
  · intro a address hoffset hlt
    have hi := a.toNat_ofNat_of_lt hlt
    refine ⟨_, address?_eq_some_iff_index.mpr ⟨?_, hoffset, hi.symm⟩⟩
    rwa [UInt64.lt_iff_toNat_lt, hi]
  · intro V H a i j o history h
    obtain ⟨segment, hlt, hnamed, hloaded⟩ := exists_located h
    exact ⟨Address.ofIndex j, segment, address?_eq_some_iff.mpr ⟨hlt, rfl⟩, hnamed, hloaded,
      fun m hm => cell?_eq_some_iff.mpr ⟨hlt, hm, rfl⟩⟩
  · intro V H α _ a host programs h schedule m
    have hpool : (Pool.fresh a host programs).Lawful a :=
      Pool.lawful_of_programs (sound_ofEntries a) fun list hlist p hp => (h list hlist p hp).lawful
    have hm : a.Sound m := (hpool.run schedule).sound
    refine ⟨hm.size_table, fun e he => ?_, fun i j cell => hm.cell?_inj,
      fun e segment offset he => hm.has_slot_iff he offset, fun cell hcell => ?_⟩
    · rw [hm.size_table] at he
      obtain ⟨i, hi, hentry⟩ := exists_slot_of_entry he
      exact ⟨i, _, address?_eq_some_iff.mpr ⟨hi, rfl⟩, hentry⟩
    · by_contra hsome
      obtain ⟨o, ho⟩ := Option.ne_none_iff_exists'.mp hsome
      obtain ⟨i, hi⟩ := hm.in_slot cell o ho
      exact hcell i hi

/-- One thread fills the last slot of an array whose last segment has 30 cells behind the capacity.
Another one tries to store into the first of them. A scan that finds the first segment missing
reports the slot. -/
theorem addresses_are_shared_of_partial_segment :
    let a : SlotArray := ⟨34⟩
    let programs : List (List (Program ℤ Unit Bool)) :=
      [[a.insert 33 7], [a.accessSignal .fill 34 fun cell => Option.isSome <$> cell.swap (some 9)]]
    let m := ((Pool.fresh a () programs).run [0, 1, 0, 0, 0, 1, 0, 0, 0]).session.memory
    let o : Occupant ℤ := ⟨0, 7⟩
    a.occupant? m 33 = some o ∧ m.segmentAt 1 = some 0 ∧
      (∀ offset, 2 ≤ offset → m.content ⟨0, offset⟩ = none) ∧
      ∃ history, (a.firstFrom 0 : Program ℤ Unit _).EndsAlong history (some (33, o)) ∧
        ∃ address segment, a.address? 33 = some address ∧
          ⟨.loadEntry address.entry, some segment⟩ ∈ history ∧
          history.getLast? = some ⟨.load ⟨segment, address.offset⟩, some o⟩ := by
  intro a programs m o
  obtain ⟨-, -, hscans, hpools⟩ := addresses_are_shared
  have hclients : ∀ list ∈ programs, ∀ p ∈ list, a.CellClient (fun _ => False) p := by
    simp only [programs, List.mem_cons, List.not_mem_nil, or_false]
    rintro list (rfl | rfl) p hp
    · rcases List.mem_singleton.mp hp with rfl
      exact .map _ (.fillSlot 33 (.done 7))
    · rcases List.mem_singleton.mp hp with rfl
      exact .accessSignal .fill 34 fun cell => .map _ (.swap _ (.inl rfl))
  obtain ⟨-, -, -, hslots, hempty⟩ := hpools a () hclients [0, 1, 0, 0, 0, 1, 0, 0, 0]
  have hsegment : m.segmentAt 1 = some 0 := by decide +kernel
  have hoccupant : a.occupant? m 33 = some o := by decide +kernel
  obtain ⟨found, hrun⟩ : ∃ found, (a.firstFrom 0 : Program ℤ Unit _).run ⟨m, ()⟩ = (.ok found, _) :=
    (a.run_firstFrom 0 ⟨m, ()⟩).imp fun _ h => h.1
  have hfound : ((a.firstFrom 0 : Program ℤ Unit _).run ⟨m, ()⟩).1.toOption = some (some (33, o)) := by
    decide +kernel
  rw [hrun] at hfound
  cases hfound
  obtain ⟨history, hhistory⟩ := exists_endsAlong hrun
  obtain ⟨address, segment, haddress, hnamed, hloaded, -⟩ := hscans a 0 33 o history hhistory
  refine ⟨hoccupant, hsegment, fun offset hoffset => hempty _ fun i hi => ?_,
    history, hhistory, address, segment, haddress, hnamed, hloaded⟩
  obtain ⟨-, hlt⟩ := (hslots 1 0 offset hsegment).mp ⟨i, hi⟩
  have hle : 2 ≤ offset.toNat := UInt64.le_iff_toNat_le.mp hoffset
  have hcapacity : a.capacity.toNat = 34 := rfl
  have hfirst : (1 : UInt64).toNat * segmentSize.toNat = 32 := rfl
  omega

end SlotArray

end AtomicSlots
