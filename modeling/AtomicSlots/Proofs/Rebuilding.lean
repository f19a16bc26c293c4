import AtomicSlots.Proofs.Copies
import AtomicSlots.Proofs.Fillings

/-!
# Building and rebuilding

An array that is built from a list is full: each element is inserted into a slot that is still
empty, and in the end no slot is left. So all its segments are there, and a walk over it never comes
to the end of the table before it has all elements. To rebuild an array is to build one from the
values that a walk meets, and to do so once more changes nothing.
-/
namespace AtomicSlots

variable {V H α : Type}

open Program

/-- The elements of a list under their positions. -/
def numbered (values : List V) : List (UInt64 × V) := values.mapIdx fun k v => (.ofNat k, v)

@[simp] theorem map_snd_numbered (values : List V) : (numbered values).map Prod.snd = values :=
  List.ext_getElem (by simp [numbered]) (by simp [numbered])

@[simp] theorem length_numbered (values : List V) : (numbered values).length = values.length :=
  List.length_mapIdx

theorem numbered_eq_filterMap (values : List V) :
    numbered values = (List.range values.length).filterMap fun k =>
      values[k]?.map (UInt64.ofNat k, ·) := by
  induction values using List.reverseRecOn with
  | nil => rfl
  | append_singleton values v ih =>
    have hfirst : (List.range values.length).filterMap (fun k =>
        (values ++ [v])[k]?.map (UInt64.ofNat k, ·)) = numbered values := by
      rw [ih]
      refine List.filterMap_congr fun k hk => ?_
      rw [List.getElem?_append_left (List.mem_range.mp hk)]
    rw [List.length_append, List.length_singleton, List.range_succ, List.filterMap_append, hfirst]
    simp [numbered, List.mapIdx_append]

namespace SlotArray

variable {a : SlotArray} {i : UInt64}

/-- The array holds the elements of a list under their positions, and has no room for others. -/
structure Holds [Journal H] (a : SlotArray) (s : Session V H) (values : List V) : Prop where
  capacity_eq : a.capacity.toNat = values.length
  size_eq : s.memory.size = values.length
  run_get?_eq : ∀ i : UInt64, (a.get? i).run s = (.ok values[i.toNat]?, s)
  allocated_eq : s.memory.allocated = a.segmentCount.toNat
  run_toList_eq : a.toList.run s = (.ok (numbered values), s)

section Construction

variable [Journal H] {s : Session V H} {values : List V}

/-- An insertion into an empty slot succeeds, and no other slot changes. -/
theorem run_insert_of_empty (hs : s.Settled a) (hi : i < a.capacity)
    (hempty : a.value? s.memory i = none) (v : V) :
    ∃ t, (a.insert i v).run s = (.ok true, t) ∧ t.Settled a ∧ a.value? t.memory i = some v ∧
      ∀ j, j ≠ i → a.value? t.memory j = a.value? s.memory j := by
  have hreach : ∀ j, a.value? (a.reaching i s).memory j = a.value? s.memory j := by
    intro j
    rw [value?, occupant?_reaching hs.sound, value?]
  have hsettled := hs.run (Client.insert (a := a) (H := H) i v)
  have hends := fillEnds (i := i) hs (Client.done (H := H) v)
  rw [insert, run_map] at hsettled ⊢
  change FillEnds a i _ s ((a.fill i (pure v)).run s) at hends
  generalize (a.fill i (pure v)).run s = ended at hends hsettled
  cases hends with
  | outside hle => exact absurd hi (UInt64.not_lt.mpr hle)
  | occupied hv =>
    rw [hempty] at hv
    cases hv
  | panicked _ _ hmake => cases hmake
  | stored _ _ hmake _ hputs =>
    cases hmake
    refine ⟨_, rfl, hsettled, hputs.value?_eq, fun j hj => ?_⟩
    rw [← hreach j, value?, hputs.occupant?_eq j hj, value?]
  | refused _ _ hmake hfound =>
    cases hmake
    rw [hreach, hempty] at hfound
    cases hfound

/-- The first elements are there, and the others find their slots empty. -/
theorem run_insertAll (first rest : List V) (hs : s.Settled a)
    (hcap : first.length + rest.length ≤ a.capacity.toNat) (hi : i.toNat = first.length)
    (hfirst : ∀ j, a.value? s.memory j = first[j.toNat]?) :
    ∃ t, (a.insertAll i rest).run s = (.ok (), t) ∧ t.Settled a ∧
      ∀ j, a.value? t.memory j = (first ++ rest)[j.toNat]? := by
  induction rest generalizing first i s with
  | nil => exact ⟨s, rfl, hs, by simpa using hfirst⟩
  | cons v rest ih =>
    rw [List.length_cons] at hcap
    have hlt : i < a.capacity := UInt64.lt_iff_toNat_lt.mpr (by omega)
    have hempty : a.value? s.memory i = none := by
      rw [hfirst, hi]
      exact List.getElem?_eq_none le_rfl
    obtain ⟨t, hrun, ht, hself, hother⟩ := run_insert_of_empty hs hlt hempty v
    have hvalues : ∀ j, a.value? t.memory j = (first ++ [v])[j.toNat]? := by
      intro j
      by_cases hj : j = i
      · rw [hj, hself, hi]
        simp
      · have hne : j.toNat ≠ first.length := fun h => hj (UInt64.toNat_inj.mp (h.trans hi.symm))
        rw [hother j hj, hfirst, List.getElem?_append]
        split
        · rfl
        · rw [List.getElem?_eq_none (by omega), List.getElem?_eq_none (by simp; omega)]
    have hnext : (i + 1).toNat = (first ++ [v]).length := by
      have hword := a.capacity.toNat_lt
      rw [toNat_add_one (by omega), hi, List.length_append, List.length_singleton]
    obtain ⟨u, hrest, hu⟩ := ih (first ++ [v]) ht (by simp; omega) hnext hvalues
    refine ⟨u, ?_, by simpa using hu⟩
    change ((fun _ => ()) <$> a.insert i v >>= fun _ => a.insertAll (i + 1) rest).run s = _
    rw [run_bind, run_map, hrun]
    exact hrest

theorem itemsFrom_eq_numbered {m : Memory V} (hcap : a.capacity.toNat = values.length)
    (hvalues : ∀ j, a.value? m j = values[j.toNat]?) : a.itemsFrom m 0 = numbered values := by
  rw [numbered_eq_filterMap, itemsFrom, Nat.sub_zero, hcap, ← List.range_eq_range']
  refine List.filterMap_congr fun k hk => ?_
  rw [hvalues, a.toNat_ofNat_of_lt (by rw [hcap]; exact List.mem_range.mp hk)]

/-- A full array is walked over from end to end, however large it is. -/
theorem holds_of_value? (hs : s.Settled a) (hcap : a.capacity.toNat = values.length)
    (hvalues : ∀ j, a.value? s.memory j = values[j.toNat]?) : a.Holds s values := by
  have hitems : a.itemsFrom s.memory 0 = numbered values := itemsFrom_eq_numbered hcap hvalues
  have hoccupied : a.occupied s.memory = values.length := by
    rw [← length_itemsFrom_zero, hitems, length_numbered]
  refine ⟨hcap, ?_, fun i => by rw [run_get?, hvalues], ?_, ?_⟩
  · rw [Memory.size, hs.count_eq, hoccupied]
    rfl
  · refine hs.sound.allocated_of_full fun i hi => ?_
    rw [hvalues, List.getElem?_eq_getElem (by rwa [← hcap, ← UInt64.lt_iff_toNat_lt])]
    rfl
  · have hlength : a.remaining .start ≤ (a.itemsFrom s.memory 0).length := by
      rw [hitems, length_numbered, ← hcap]
      exact Nat.sub_le _ _
    obtain ⟨after, hrun⟩ := run_gather_next_take (s := s) .start [] (.inr hlength)
    rw [toList, run_map, drain, hrun]
    have hle : (a.itemsFrom s.memory 0).length ≤ a.remaining .start := a.length_itemsFrom_le _ 0
    have hall : (a.itemsFrom s.memory 0).take (a.remaining .start) = numbered values := by
      rw [List.take_of_length_le hle, hitems]
    exact congrArg (fun items => (Except.ok items, s)) hall

/-- An array that is built from a list holds it, and no insertion has found its slot occupied. -/
theorem holds_ofList (values : List V) (hlt : values.length < 2 ^ 64) :
    (ofList values).1.Holds (ofList values).2 values := by
  have hcap : (ofList values).1.capacity.toNat = values.length := UInt64.toNat_ofNat_of_lt' hlt
  obtain ⟨t, hrun, ht, hvalues⟩ := run_insertAll [] values (i := 0)
    (.fresh (ofList values).1 [(ofList values).1.created]) (by simp [hcap]) rfl fun j => by
      simp [freshMemory, value?, occupant?_ofEntries]
  have hsession : (ofList values).2 = t := congrArg Prod.snd hrun
  rw [hsession]
  exact holds_of_value? ht hcap hvalues

theorem insert_ofList_take (hlt : values.length < 2 ^ 64) {k : ℕ} (hk : k < values.length) :
    let a := (ofList values).1
    let s := ((a.insertAll 0 (values.take k)).run ⟨a.freshMemory, [a.created]⟩).2
    ((a.insert (.ofNat k) values[k]).run s).1 = .ok true := by
  intro a s
  have hcap : a.capacity.toNat = values.length := UInt64.toNat_ofNat_of_lt' hlt
  have hword : (UInt64.ofNat k).toNat = k := a.toNat_ofNat_of_lt (by omega)
  obtain ⟨t, hrun, ht, hvalues⟩ := run_insertAll [] (values.take k) (i := 0)
    (.fresh a [a.created]) (by simp [hcap]) rfl fun j => by
      simp [freshMemory, value?, occupant?_ofEntries]
  have hsession : s = t := congrArg Prod.snd hrun
  have hempty : a.value? t.memory (.ofNat k) = none := by
    rw [hvalues, hword]
    simp
  obtain ⟨u, hinsert, -⟩ := run_insert_of_empty ht (UInt64.lt_iff_toNat_lt.mpr (by omega)) hempty
    values[k]
  rw [hsession, hinsert]

end Construction

/-- What is seen of an array that is built from a list. -/
def rebuiltFrom (values : List V) : Rebuilt V :=
  ⟨.ofNat values.length, values.length, numbered values⟩

section Rebuild

variable [Journal H] {s : Session V H} {values : List V}

theorem memory_run_emitAll (events : List TraceEvent) (s : Session V H) :
    ∃ host, (emitAll events).run s = (.ok (), ⟨s.memory, host⟩) := by
  induction events generalizing s with
  | nil => exact ⟨s.host, rfl⟩
  | cons event rest ih => exact ih ⟨s.memory, Journal.record event s.host⟩

/-- To rebuild an array is to build one from the values that a fresh cursor meets. -/
theorem run_rebuild {items : List (UInt64 × V)} (h : a.toList.run s = (.ok items, s))
    (hlt : items.length < 2 ^ 64) :
    ∃ host, a.rebuild.run s = (.ok (rebuiltFrom (items.map Prod.snd)), ⟨s.memory, host⟩) := by
  have hholds := holds_ofList (items.map Prod.snd) (by rwa [List.length_map])
  have hlisted : (ofList (items.map Prod.snd)).1.listed (ofList (items.map Prod.snd)).2 =
      numbered (items.map Prod.snd) := by
    rw [listed, hholds.run_toList_eq]
  obtain ⟨host, hemit⟩ :=
    memory_run_emitAll (ofList (items.map Prod.snd)).2.host.reverse s
  rw [rebuild, run_bind, h]
  simp only [run_bind, hemit, hholds.size_eq, hlisted]
  exact ⟨_, rfl⟩

/-- An array that is built from a list of fewer elements than a word can count has as many slots,
and as large a size, as the list has elements. No insertion of the construction fails, every slot
holds the element of its index, every segment is there, and a fresh cursor lists the elements.

Threads of clients have made any steps on a fresh array. To rebuild that array leaves its memory as
it is, and makes an array from the values of its occupied slots in the order of their indices. It
has as many slots as there are values, which is the size of the first array if no fill or removal
waits there for being counted. To rebuild it in turn gives the same capacity, size and items once
more. (Only for more than `2 ^ 64 - 32` slots the index of a scan can wrap around; their table would
take a quarter of all addresses of a 64-bit word.) -/
theorem rebuilding_keeps_values (a : SlotArray) (host : H)
    {programs : List (List (Program V H α))} (h : ∀ list ∈ programs, ∀ p ∈ list, a.Client p)
    (schedule : List ℕ) :
    let standings := (Pool.fresh a host programs).standings schedule
    let s := ((Pool.fresh a host programs).run schedule).session
    (∀ values : List V, values.length < 2 ^ 64 →
      let (b, t) := ofList values
      b.Holds t values ∧ ∀ k (hk : k < values.length),
        let before := ((b.insertAll 0 (values.take k)).run ⟨b.freshMemory, [b.created]⟩).2
        ((b.insert (.ofNat k) values[k]).run before).1 = .ok true) ∧
    (a.capacity.toNat ≤ 2 ^ 64 - 32 → ∃ items, a.Lists s.memory items ∧
      let values := items.map Prod.snd
      let (b, t) := ofList values
      (∃ after, a.rebuild.run s = (.ok (rebuiltFrom values), ⟨s.memory, after⟩)) ∧
      b.Holds t values ∧ values.length = a.occupied s.memory ∧
      (standings.countP Standing.hasFilled = 0 → standings.countP Standing.hasEmptied = 0 →
        values.length = s.memory.size) ∧
      ∃ after, b.rebuild.run t = (.ok (rebuiltFrom values), ⟨t.memory, after⟩)) := by
  intro standings s
  refine ⟨fun values hlt => ⟨holds_ofList values hlt, fun k hk => insert_ofList_take hlt hk⟩,
    fun hcap => ?_⟩
  have hlists := a.lists_itemsFrom_zero s.memory
  have hword : (a.itemsFrom s.memory 0).length < 2 ^ 64 :=
    (a.length_itemsFrom_le s.memory 0).trans_lt (by omega)
  have hholds := holds_ofList ((a.itemsFrom s.memory 0).map Prod.snd)
    (by rwa [List.length_map])
  have hlength : ((a.itemsFrom s.memory 0).map Prod.snd).length = a.occupied s.memory := by
    rw [List.length_map, hlists.length_eq]
  refine ⟨_, hlists, run_rebuild (run_toList hcap s) hword, hholds, hlength,
    fun hfilled hemptied => ?_, ?_⟩
  · have hsize := size_eq_of_nothing_owed ((Pool.Balanced.fresh host h).run schedule) hfilled
      hemptied
    exact hlength.trans hsize.symm
  · have hagain := run_rebuild hholds.run_toList_eq (by rwa [length_numbered, List.length_map])
    rwa [map_snd_numbered] at hagain

/-- Of three slots that a thread has filled it has emptied the second one. The two values that are
left move together, and rebuilding what they move to moves nothing. -/
theorem rebuilding_keeps_values_of_gap :
    let a : SlotArray := ⟨40⟩
    let programs : List (List (Program ℕ Unit Bool)) :=
      [[a.insert 3 5, a.insert 35 6, a.insert 39 7, a.erase 35]]
    let s := ((Pool.fresh a () programs).run (List.replicate 40 0)).session
    let (b, t) := ofList [5, 7]
    (a.rebuild.run s).1 = .ok ⟨2, 2, [(0, 5), (1, 7)]⟩ ∧ s.memory.size = 2 ∧
      b.Holds t [5, 7] ∧ (b.rebuild.run t).1 = .ok ⟨2, 2, [(0, 5), (1, 7)]⟩ := by
  intro a programs s
  have h : ∀ list ∈ programs, ∀ p ∈ list, a.Client p := by
    simp [programs, Client.insert, Client.erase]
  have hcap : a.capacity.toNat ≤ 2 ^ 64 - 32 := by decide
  obtain ⟨items, hlists, ⟨after, hrebuild⟩, hholds, -, hsize, ⟨later, hagain⟩⟩ :=
    (rebuilding_keeps_values a () h (List.replicate 40 0)).2 hcap
  have hitems : items = [(3, 5), (39, 7)] := by
    have htwo : a.occupied s.memory = 2 := by decide +kernel
    have hthree : (3, 5) ∈ items := (hlists.mem_iff 3 5).mpr (by decide +kernel)
    have hlast : (39, 7) ∈ items := (hlists.mem_iff 39 7).mpr (by decide +kernel)
    have hsorted := hlists.sorted
    obtain ⟨first, second, rfl⟩ := List.length_eq_two.mp (hlists.length_eq.trans htwo)
    rcases List.mem_pair.mp hthree with rfl | rfl
    · rcases List.mem_pair.mp hlast with heq | rfl
      · cases heq
      · rfl
    · rcases List.mem_pair.mp hlast with rfl | heq
      · simp at hsorted
      · cases heq
  subst hitems
  exact ⟨congrArg Prod.fst hrebuild, (hsize (by decide +kernel) (by decide +kernel)).symm, hholds,
    congrArg Prod.fst hagain⟩

end Rebuild

end SlotArray

end AtomicSlots
