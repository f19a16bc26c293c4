import AtomicSlots.Proofs.Duties
import AtomicSlots.Proofs.Release
import AtomicSlots.Proofs.Turns

/-!
# Who owns an occupant

The actions of the threads publish occupants in cells, unlink them from their cells and retire them.
A ledger keeps these events apart from the memory, so that they can be compared with it: an occupant
is in a slot if and only if it was published there and has not been unlinked, every occupant is
published, unlinked and retired at most once, and it is the thread that unlinked an occupant whose
next action retires it.
-/
namespace AtomicSlots

variable {V H α : Type}

/-- A store: who made it, what the cell held before and after it, and whether it was an exchange
against an occupant. -/
structure Store (V : Type) where
  thread : ℕ
  cell : Cell
  old : Option (Occupant V)
  new : Option (Occupant V)
  revises : Bool

/-- What threads did with occupants, the latest first. -/
structure Ledger (V : Type) where
  stores : List (Store V)
  retired : List (ℕ × Occupant V)

namespace Ledger

/-- The occupants that were stored, with their cells. -/
def published (ledger : Ledger V) : List (Cell × Occupant V) :=
  ledger.stores.filterMap fun store => store.new.map (store.cell, ·)

/-- The occupants that were taken out of their cells, with the threads that did it. -/
def unlinked (ledger : Ledger V) : List (ℕ × Occupant V) :=
  ledger.stores.filterMap fun store => store.old.map (store.thread, ·)

/-- The entries of one thread. -/
def ofThread (k : ℕ) (entries : List (ℕ × α)) : List α :=
  (entries.filter fun entry => entry.1 == k).map Prod.snd

theorem mem_ofThread {k : ℕ} {entries : List (ℕ × α)} {x : α} :
    x ∈ ofThread k entries ↔ (k, x) ∈ entries := by
  simp [ofThread]

theorem map_ofThread (k : ℕ) (entries : List (ℕ × α)) :
    (ofThread k entries).map (k, ·) = entries.filter fun entry => entry.1 == k := by
  have hkeep : ∀ entry ∈ entries.filter fun entry => entry.1 == k, (k, entry.2) = entry := by
    intro entry hentry
    rw [← beq_iff_eq.mp (List.mem_filter.mp hentry).2]
  rw [ofThread, List.map_map]
  exact (List.map_congr_left hkeep).trans (List.map_id _)

theorem ofThread_cons (j : ℕ) (entry : ℕ × α) (entries : List (ℕ × α)) :
    ofThread j (entry :: entries) =
      if entry.1 = j then entry.2 :: ofThread j entries else ofThread j entries := by
  simp only [ofThread, List.filter_cons, beq_iff_eq]
  split <;> rfl

theorem ofThread_append_self (k : ℕ) (x : Option α) (entries : List (ℕ × α)) :
    ofThread k ((x.map (k, ·)).toList ++ entries) = x.toList ++ ofThread k entries := by
  cases x with
  | none => rfl
  | some x => exact (ofThread_cons k (k, x) entries).trans (if_pos rfl)

theorem ofThread_append_of_ne {j k : ℕ} (h : j ≠ k) (x : Option α) (entries : List (ℕ × α)) :
    ofThread j ((x.map (k, ·)).toList ++ entries) = ofThread j entries := by
  cases x with
  | none => rfl
  | some x => exact (ofThread_cons j (k, x) entries).trans (if_neg (Ne.symm h))

/-- The ledger after an action that takes one memory to another. -/
def after (ledger : Ledger V) (k : ℕ) (act : Action V H) (m n : Memory V) : Ledger V :=
  match act with
  | .swap cell _ =>
    ⟨⟨k, cell, m.content cell, n.content cell, false⟩ :: ledger.stores, ledger.retired⟩
  | .exchangeIf cell expected _ =>
    if sameOccupant (m.content cell) expected then
      ⟨⟨k, cell, m.content cell, n.content cell, expected.isSome⟩ :: ledger.stores, ledger.retired⟩
    else
      ledger
  | .retire o => ⟨ledger.stores, (k, o) :: ledger.retired⟩
  | _ => ledger

/-- The ledger with a store. -/
def enter (ledger : Ledger V) (m : Memory V) (cell : Cell) (new : Option V) (k : ℕ)
    (revises : Bool) : Ledger V :=
  ⟨⟨k, cell, m.content cell, m.stamped new, revises⟩ :: ledger.stores, ledger.retired⟩

section After

variable {m : Memory V} {cell : Cell} {expected : Option (Occupant V)} (ledger : Ledger V) (k : ℕ)
  (new : Option V)

theorem after_swap (h : m.HasCell cell) :
    ledger.after k (.swap cell new : Action V H) m (m.store cell new) =
      ledger.enter m cell new k false := by
  rw [after, Memory.content_store_self new h]
  rfl

theorem after_exchangeIf_of_same (h : m.HasCell cell)
    (hsame : sameOccupant (m.content cell) expected = true) :
    ledger.after k (.exchangeIf cell expected new : Action V H) m
      (m.exchangeIf cell expected new).2 = ledger.enter m cell new k expected.isSome := by
  rw [after, if_pos hsame, Memory.exchangeIf_of_same new hsame, Memory.content_store_self new h]
  rfl

theorem after_exchangeIf_of_not_same (hsame : sameOccupant (m.content cell) expected = false) :
    ledger.after k (.exchangeIf cell expected new : Action V H) m
      (m.exchangeIf cell expected new).2 = ledger := by
  rw [after, hsame]
  rfl

end After

/-- What an action can mean to a ledger and to the slots. -/
inductive Enters (a : SlotArray) (ledger : Ledger V) (k : ℕ) (m : Memory V) :
    Action V H → Memory V → Ledger V → Prop
  | nothing {act : Action V H} {n : Memory V} (hact : ∀ o, act ≠ .retire o)
      (hcontent : ∀ cell, n.content cell = m.content cell) (hslots : a.slots n = a.slots m)
      (hstamps : n.stamps = m.stamps) : Enters a ledger k m act n ledger
  | store {act : Action V H} {i : UInt64} {cell : Cell} (new : Option V) (revises : Bool)
      (hact : act = .swap cell new ∧ revises = false ∨
        ∃ expected, act = .exchangeIf cell expected new ∧
          sameOccupant (m.content cell) expected = true ∧ revises = expected.isSome)
      (hc : a.cell? m i = some cell) :
      Enters a ledger k m act (m.store cell new) (ledger.enter m cell new k revises)
  | retires (o : Occupant V) : Enters a ledger k m (.retire o) m
      ⟨ledger.stores, (k, o) :: ledger.retired⟩

theorem enters [Journal H] {a : SlotArray} {s : Session V H} (h : a.Sound s.memory)
    {act : Action V H} (hact : a.Admits s.memory act) (ledger : Ledger V) (k : ℕ) :
    Enters a ledger k s.memory act (act.perform s).2.memory
      (ledger.after k act s.memory (act.perform s).2.memory) := by
  cases act with
  | loadEntry e => exact .nothing nofun (fun _ => rfl) rfl rfl
  | publish e =>
    exact .nothing nofun (s.memory.content_publish e)
      (SlotArray.slots_congr_occupant (SlotArray.occupant?_publish h e)) (s.memory.stamps_publish e)
  | load cell => exact .nothing nofun (fun _ => rfl) rfl rfl
  | exchangeIf cell expected new =>
    obtain ⟨i, hi⟩ := hact
    change Enters a ledger k s.memory _ (s.memory.exchangeIf cell expected new).2
      (ledger.after k _ s.memory (s.memory.exchangeIf cell expected new).2)
    cases hs : sameOccupant (s.memory.content cell) expected with
    | true =>
      rw [after_exchangeIf_of_same ledger k new (h.hasCell hi) hs, Memory.exchangeIf_of_same new hs]
      exact .store new expected.isSome (.inr ⟨expected, rfl, hs, rfl⟩) hi
    | false =>
      rw [after_exchangeIf_of_not_same ledger k new hs, Memory.exchangeIf_of_not_same new hs]
      exact .nothing nofun (fun _ => rfl) rfl rfl
  | swap cell new =>
    obtain ⟨i, hi⟩ := hact
    change Enters a ledger k s.memory _ (s.memory.store cell new)
      (ledger.after k _ s.memory (s.memory.store cell new))
    rw [after_swap ledger k new (h.hasCell hi)]
    exact .store new false (.inl ⟨rfl, rfl⟩) hi
  | retire o => exact .retires o
  | adjust change => exact .nothing nofun (fun _ => rfl) rfl rfl
  | readSize => exact .nothing nofun (fun _ => rfl) rfl rfl
  | emit event => exact .nothing nofun (fun _ => rfl) rfl rfl
  | readHost => exact .nothing nofun (fun _ => rfl) rfl rfl
  | changeHost change => exact .nothing nofun (fun _ => rfl) rfl rfl

end Ledger

namespace SlotArray

/-- To replace a content of a list is to exchange what is in it for what comes. -/
theorem filterMap_set {slots : List (Option V)} {k : ℕ} {old : Option V}
    (hk : slots[k]? = some old) (new : Option V) :
    ((slots.set k new).filterMap id : Multiset V) + old.toList =
      slots.filterMap id + new.toList := by
  induction slots generalizing k with
  | nil => cases hk
  | cons content rest ih =>
    have hcons : ∀ content (rest : List (Option V)),
        ((content :: rest).filterMap id : Multiset V) = content.toList + rest.filterMap id := by
      intro content rest
      cases content <;> rfl
    cases k with
    | zero =>
      obtain rfl : content = old := by simpa using hk
      rw [List.set_cons_zero, hcons, hcons]
      abel
    | succ k =>
      rw [List.set_cons_succ, hcons, hcons, add_assoc, ih (by simpa using hk), add_assoc]

theorem values_store {a : SlotArray} {m : Memory V} {i : UInt64} {cell : Cell} (h : a.Sound m)
    (hc : a.cell? m i = some cell) (new : Option V) :
    (a.values (m.store cell new) : Multiset V) + ((m.content cell).map Occupant.value).toList =
      a.values m + new.toList := by
  have hi := (cell?_eq_some_iff.mp hc).1
  have hget : (a.slots m)[i.toNat]? = some ((m.content cell).map Occupant.value) := by
    rw [getElem?_slots, if_pos hi, value?, occupant?_of_cell? hc]
  rw [values, slots_store h hc, filterMap_set hget]
  rfl

end SlotArray

namespace Ledger

/-- The ledger agrees with the memory. -/
structure Books (a : SlotArray) (ledger : Ledger V) (m : Memory V) : Prop where
  stamp_lt : ∀ entry ∈ ledger.published, entry.2.stamp < m.stamps
  published_nodup : (ledger.published.map fun entry => entry.2.stamp).Nodup
  in_slot : ∀ entry ∈ ledger.published, ∃ i, a.cell? m i = some entry.1
  content_iff : ∀ cell o, m.content cell = some o ↔
    (cell, o) ∈ ledger.published ∧ ∀ k, (k, o) ∉ ledger.unlinked
  unlinked_nodup : (ledger.unlinked.map fun entry => entry.2.stamp).Nodup
  unlinked_published : ∀ entry ∈ ledger.unlinked, ∃ cell, (cell, entry.2) ∈ ledger.published
  values_eq : (ledger.published.map fun entry => entry.2.value : Multiset V) =
    (ledger.unlinked.map fun entry => entry.2.value : List V) + a.values m

namespace Books

variable {a : SlotArray} {ledger : Ledger V} {m : Memory V}

theorem fresh (a : SlotArray) : Books a ⟨[], []⟩ (.ofEntries a.segmentCount : Memory V) where
  stamp_lt _ h := by cases h
  published_nodup := List.nodup_nil
  in_slot _ h := by cases h
  content_iff cell o := by
    rw [Memory.content_ofEntries]
    exact ⟨nofun, fun h => by cases h.1⟩
  unlinked_nodup := List.nodup_nil
  unlinked_published _ h := by cases h
  values_eq := by
    rw [SlotArray.values, SlotArray.slots_ofEntries]
    simp [published, unlinked]

theorem eq_of_stamp (h : ledger.Books a m) {entry other : Cell × Occupant V}
    (he : entry ∈ ledger.published) (ho : other ∈ ledger.published)
    (hstamp : entry.2.stamp = other.2.stamp) : entry = other :=
  List.inj_on_of_nodup_map h.published_nodup he ho hstamp

theorem stamp_lt_of_unlinked (h : ledger.Books a m) {entry : ℕ × Occupant V}
    (he : entry ∈ ledger.unlinked) : entry.2.stamp < m.stamps := by
  obtain ⟨cell, hcell⟩ := h.unlinked_published entry he
  exact h.stamp_lt _ hcell

/-- An occupant that is still in its cell has another stamp than all that were unlinked. -/
theorem stamp_ne_of_unlinked (h : ledger.Books a m) {cell : Cell} {o : Occupant V}
    (ho : m.content cell = some o) {entry : ℕ × Occupant V} (he : entry ∈ ledger.unlinked) :
    entry.2.stamp ≠ o.stamp := by
  intro hstamp
  obtain ⟨hpublished, hnot⟩ := (h.content_iff cell o).mp ho
  obtain ⟨other, hother⟩ := h.unlinked_published entry he
  obtain rfl : entry.2 = o := congrArg Prod.snd (h.eq_of_stamp hother hpublished hstamp)
  exact hnot entry.1 he

section Store

variable {i : UInt64} {cell : Cell} {new : Option V} {k : ℕ} {revises : Bool}

theorem mem_published_enter {entry : Cell × Occupant V} :
    entry ∈ (enter ledger m cell new k revises).published ↔
      (cell = entry.1 ∧ m.stamped new = some entry.2) ∨ entry ∈ ledger.published := by
  obtain ⟨d, o⟩ := entry
  rw [published, enter, List.filterMap_cons]
  cases m.stamped new with
  | none => simp [published]
  | some p => simp [published, eq_comm]

theorem mem_unlinked_enter {entry : ℕ × Occupant V} :
    entry ∈ (enter ledger m cell new k revises).unlinked ↔
      (k = entry.1 ∧ m.content cell = some entry.2) ∨ entry ∈ ledger.unlinked := by
  obtain ⟨j, o⟩ := entry
  rw [unlinked, enter, List.filterMap_cons]
  cases m.content cell with
  | none => simp [unlinked]
  | some p => simp [unlinked, eq_comm]

/-- A store puts an occupant with a stamp of its own into one cell, and takes out what was there. -/
theorem content_iff_enter (h : ledger.Books a m) (hm : a.Sound m) (hc : a.cell? m i = some cell)
    (new : Option V) (d : Cell) (o : Occupant V) : (m.store cell new).content d = some o ↔
      (d, o) ∈ (enter ledger m cell new k revises).published ∧
        ∀ j, (j, o) ∉ (enter ledger m cell new k revises).unlinked := by
  rw [mem_published_enter]
  simp only [mem_unlinked_enter, not_or]
  by_cases hd : cell = d
  · subst hd
    rw [Memory.content_store_self new (hm.hasCell hc)]
    constructor
    · intro hnew
      have hstamp := (Memory.stamped_lt_store cell hnew).1
      refine ⟨.inl ⟨rfl, hnew⟩, fun j => ⟨fun hold => ?_, fun hunlinked => ?_⟩⟩
      · have hlt := hm.stamp_lt cell o hold.2
        omega
      · have hlt : o.stamp < m.stamps := h.stamp_lt_of_unlinked hunlinked
        omega
    · rintro ⟨⟨-, hnew⟩ | hold, hnot⟩
      · exact hnew
      · have ho := (h.content_iff cell o).mpr ⟨hold, fun j => (hnot j).2⟩
        exact absurd ⟨rfl, ho⟩ (hnot k).1
  · rw [Memory.content_store_of_ne m new (Ne.symm hd), h.content_iff]
    constructor
    · rintro ⟨hold, hnot⟩
      refine ⟨.inr hold, fun j => ⟨fun hcell => hd ?_, hnot j⟩⟩
      exact hm.stamp_unique _ _ _ _ hcell.2 ((h.content_iff d o).mpr ⟨hold, hnot⟩) rfl
    · rintro ⟨⟨hcell, -⟩ | hold, hnot⟩
      · exact absurd hcell hd
      · exact ⟨hold, fun j => (hnot j).2⟩

theorem values_eq_enter (h : ledger.Books a m) (hm : a.Sound m) (hc : a.cell? m i = some cell)
    (new : Option V) :
    ((enter ledger m cell new k revises).published.map fun entry => entry.2.value : Multiset V) =
      ((enter ledger m cell new k revises).unlinked.map fun entry => entry.2.value : List V) +
        a.values (m.store cell new) := by
  have hpublished : ((enter ledger m cell new k revises).published.map
      fun entry => entry.2.value : Multiset V) =
        new.toList + (ledger.published.map fun entry => entry.2.value : List V) := by
    rw [published, enter, List.filterMap_cons]
    cases new <;> rfl
  have hunlinked : ((enter ledger m cell new k revises).unlinked.map
      fun entry => entry.2.value : Multiset V) =
        ((m.content cell).map Occupant.value).toList +
          (ledger.unlinked.map fun entry => entry.2.value : List V) := by
    rw [unlinked, enter, List.filterMap_cons]
    cases m.content cell <;> rfl
  have hvalues := SlotArray.values_store hm hc new
  rw [hpublished, hunlinked, h.values_eq, add_left_comm, add_comm (new.toList : Multiset V),
    ← hvalues]
  abel

theorem store (h : ledger.Books a m) (hm : a.Sound m) (hc : a.cell? m i = some cell) :
    Books a (enter ledger m cell new k revises) (m.store cell new) where
  stamp_lt entry he := by
    rcases mem_published_enter.mp he with ⟨-, hnew⟩ | hold
    · have hstamp := Memory.stamped_lt_store cell hnew
      omega
    · exact (h.stamp_lt entry hold).trans_le (m.stamps_le_store cell new)
  published_nodup := by
    rw [published, enter, List.filterMap_cons]
    cases new with
    | none => exact h.published_nodup
    | some v =>
      refine List.nodup_cons.mpr ⟨fun hmem => ?_, h.published_nodup⟩
      obtain ⟨entry, he, hstamp⟩ := List.mem_map.mp hmem
      exact absurd (h.stamp_lt entry he) (by rw [hstamp]; exact lt_irrefl _)
  in_slot entry he := by
    rcases mem_published_enter.mp he with ⟨rfl, -⟩ | hold
    · exact ⟨i, by simpa using hc⟩
    · simpa using h.in_slot entry hold
  content_iff := h.content_iff_enter hm hc new
  unlinked_nodup := by
    rw [unlinked, enter, List.filterMap_cons]
    cases ho : m.content cell with
    | none => exact h.unlinked_nodup
    | some o =>
      refine List.nodup_cons.mpr ⟨fun hmem => ?_, h.unlinked_nodup⟩
      obtain ⟨entry, he, hstamp⟩ := List.mem_map.mp hmem
      exact h.stamp_ne_of_unlinked ho he hstamp
  unlinked_published entry he := by
    simp only [mem_published_enter]
    rcases mem_unlinked_enter.mp he with ⟨-, ho⟩ | hold
    · exact ⟨cell, .inr ((h.content_iff cell _).mp ho).1⟩
    · obtain ⟨d, hd⟩ := h.unlinked_published entry hold
      exact ⟨d, .inr hd⟩
  values_eq := h.values_eq_enter hm hc new

end Store

theorem of_same_content (h : ledger.Books a m) {n : Memory V} (hl : m.Later n)
    (hcontent : ∀ cell, n.content cell = m.content cell) (hslots : a.slots n = a.slots m)
    (hstamps : n.stamps = m.stamps) : ledger.Books a n where
  stamp_lt entry he := hstamps ▸ h.stamp_lt entry he
  published_nodup := h.published_nodup
  in_slot entry he := by
    obtain ⟨i, hi⟩ := h.in_slot entry he
    exact ⟨i, SlotArray.cell?_later hl hi⟩
  content_iff cell o := by rw [hcontent, h.content_iff]
  unlinked_nodup := h.unlinked_nodup
  unlinked_published := h.unlinked_published
  values_eq := by rw [h.values_eq, SlotArray.values, SlotArray.values, hslots]

theorem retire (h : ledger.Books a m) (k : ℕ) (o : Occupant V) :
    Books a ⟨ledger.stores, (k, o) :: ledger.retired⟩ m :=
  ⟨h.stamp_lt, h.published_nodup, h.in_slot, h.content_iff, h.unlinked_nodup,
    h.unlinked_published, h.values_eq⟩

theorem enters (h : ledger.Books a m) (hm : a.Sound m) {k : ℕ} {act : Action V H} {n : Memory V}
    {next : Ledger V} (hl : m.Later n) (henters : Enters a ledger k m act n next) :
    next.Books a n := by
  cases henters with
  | nothing _ hcontent hslots hstamps => exact h.of_same_content hl hcontent hslots hstamps
  | store new revises _ hc => exact h.store hm hc
  | retires o => exact h.retire k o

end Books

end Ledger

/-- The occupant that is to be retired next. -/
def Duty.toRetire : Duty V → Option (Occupant V)
  | replaced o | emptied o => some o
  | free | filled | retired => none

theorem Duty.toRetire_ofChange (old new : Option (Occupant V)) :
    (Duty.ofChange old new).toRetire = old := by cases old <;> cases new <;> rfl

theorem Duty.toRetire_after {duty : Duty V} {act : Action V H} {m n : Memory V}
    (hact : ∀ o, act ≠ .retire o) (hcontent : ∀ cell, n.content cell = m.content cell) :
    (duty.after act m n).toRetire = duty.toRetire := by
  cases act with
  | retire o => exact absurd rfl (hact o)
  | adjust change => cases duty <;> simp only [after] <;> first | rfl | (split <;> rfl)
  | exchangeIf | swap => cases duty <;> simp [after, hcontent]
  | loadEntry | publish | load | readSize | emit | readHost | changeHost => cases duty <;> rfl

namespace Ledger

/-- Each thread has retired what it has unlinked, except for what it is to retire next. -/
structure Settled (ledger : Ledger V) (duties : ℕ → Duty V) : Prop where
  retired_eq : ∀ k, ofThread k ledger.unlinked =
    (duties k).toRetire.toList ++ ofThread k ledger.retired
  retired_nodup : (ledger.retired.map fun entry => entry.2.stamp).Nodup

namespace Settled

variable {a : SlotArray} {ledger : Ledger V} {m : Memory V} {duties : ℕ → Duty V} {k : ℕ}

theorem fresh : Settled ⟨[], []⟩ fun _ => (.free : Duty V) := ⟨fun _ => rfl, List.nodup_nil⟩

theorem mem_unlinked (h : ledger.Settled duties) {entry : ℕ × Occupant V}
    (he : entry ∈ ledger.retired) : entry ∈ ledger.unlinked := by
  apply mem_ofThread.mp
  rw [h.retired_eq]
  exact List.mem_append_right _ (mem_ofThread.mpr he)

/-- What is to be retired has been unlinked, and has not been retired before. -/
theorem not_retired (h : ledger.Settled duties) (hbooks : ledger.Books a m) {o : Occupant V}
    (ho : (duties k).toRetire = some o) {entry : ℕ × Occupant V} (he : entry ∈ ledger.retired) :
    entry.2.stamp ≠ o.stamp := by
  intro hstamp
  have hk := h.retired_eq k
  rw [ho] at hk
  have hunlinked : (k, o) ∈ ledger.unlinked := by
    apply mem_ofThread.mp
    rw [hk]
    exact List.mem_cons_self
  obtain rfl : entry = (k, o) :=
    List.inj_on_of_nodup_map hbooks.unlinked_nodup (h.mem_unlinked he) hunlinked hstamp
  have hnodup : ((ofThread k ledger.unlinked).map Occupant.stamp).Nodup := by
    rw [ofThread, List.map_map]
    exact (List.filter_sublist.map _).nodup hbooks.unlinked_nodup
  rw [hk] at hnodup
  exact (List.nodup_cons.mp hnodup).1 (List.mem_map_of_mem (mem_ofThread.mpr he))

theorem of_toRetire_eq (h : ledger.Settled duties) {g : Duty V}
    (hg : g.toRetire = (duties k).toRetire) : ledger.Settled (Function.update duties k g) := by
  refine ⟨fun j => ?_, h.retired_nodup⟩
  rw [h.retired_eq]
  by_cases hj : j = k
  · rw [hj, Function.update_self, hg]
  · rw [Function.update_of_ne hj]

theorem store (h : ledger.Settled duties) (hk : (duties k).toRetire = none) (cell : Cell)
    (new : Option V) (revises : Bool) {g : Duty V} (hg : g.toRetire = m.content cell) :
    (ledger.enter m cell new k revises).Settled (Function.update duties k g) := by
  refine ⟨fun j => ?_, h.retired_nodup⟩
  have hj := h.retired_eq j
  have hunlinked : (ledger.enter m cell new k revises).unlinked =
      ((m.content cell).map (k, ·)).toList ++ ledger.unlinked := by
    rw [unlinked, enter, List.filterMap_cons]
    cases m.content cell <;> rfl
  change _ = _ ++ ofThread j ledger.retired
  by_cases hjk : j = k
  · subst hjk
    rw [hk] at hj
    rw [hunlinked, Function.update_self, hg, ofThread_append_self, hj]
    rfl
  · rw [hunlinked, Function.update_of_ne hjk, ofThread_append_of_ne hjk, hj]

theorem retire (h : ledger.Settled duties) (hbooks : ledger.Books a m) {o : Occupant V}
    (ho : (duties k).toRetire = some o) {g : Duty V} (hg : g.toRetire = none) :
    Settled ⟨ledger.stores, (k, o) :: ledger.retired⟩ (Function.update duties k g) := by
  refine ⟨fun j => ?_, List.nodup_cons.mpr ⟨fun hmem => ?_, h.retired_nodup⟩⟩
  · change ofThread j ledger.unlinked = _ ++ ofThread j ((k, o) :: ledger.retired)
    rw [h.retired_eq, ofThread_cons]
    by_cases hjk : j = k
    · rw [hjk, Function.update_self, if_pos rfl, ho, hg]
      rfl
    · rw [Function.update_of_ne hjk, if_neg (Ne.symm hjk)]
  · obtain ⟨entry, he, hstamp⟩ := List.mem_map.mp hmem
    exact h.not_retired hbooks ho he hstamp

theorem enters (h : ledger.Settled duties) (hbooks : ledger.Books a m) (hm : a.Sound m)
    {act : Action V H} {n : Memory V} {next : Ledger V} {g : Duty V}
    (henters : Enters a ledger k m act n next) (hstep : Duty.protocol (duties k) act m n g) :
    next.Settled (Function.update duties k g) := by
  obtain ⟨hallows, rfl⟩ := hstep
  cases henters with
  | nothing hact hcontent _ _ => exact h.of_toRetire_eq (Duty.toRetire_after hact hcontent)
  | store new revises hact hc =>
    have hfree : duties k = .free := by
      cases hduty : duties k <;> rw [hduty] at hallows <;>
        rcases hact with ⟨rfl, -⟩ | ⟨expected, rfl, -⟩ <;> first | rfl | exact hallows.elim
    refine h.store (by rw [hfree]; rfl) _ new revises ?_
    rw [hfree, Duty.after_store hm hc, Duty.toRetire_ofChange]
    rcases hact with ⟨rfl, -⟩ | ⟨expected, rfl, -⟩
    · exact .inl rfl
    · exact .inr ⟨expected, rfl⟩
  | retires o =>
    have ho : (duties k).toRetire = some o := by
      cases hduty : duties k <;> rw [hduty] at hallows <;>
        first | exact hallows.elim | exact congrArg some hallows
    refine h.retire hbooks ho ?_
    cases hduty : duties k <;> rw [hduty] at hallows <;> first | exact hallows.elim | skip
    · rw [show _ = o from hallows]
      simp [Duty.after, Duty.toRetire]
    · rw [show _ = o from hallows]
      simp [Duty.after, Duty.toRetire]

end Settled

end Ledger

namespace Pool

variable [Journal H]

/-- The ledger after a turn. -/
def record (pool : Pool V H α) (ledger : Ledger V) (k : ℕ) : Ledger V :=
  match pool.action? k with
  | some act => ledger.after k act pool.session.memory (pool.step k).session.memory
  | none => ledger

/-- The ledger after a schedule, if one knows it before. -/
def ledgerFrom (pool : Pool V H α) (before : Ledger V) : List ℕ → Ledger V
  | [] => before
  | k :: schedule => (pool.step k).ledgerFrom (pool.record before k) schedule

/-- The ledger of a pool that starts, after a schedule. -/
def ledger (pool : Pool V H α) (schedule : List ℕ) : Ledger V := pool.ledgerFrom ⟨[], []⟩ schedule

/-- The occupant that a thread retires in its next action. -/
def retiring? (pool : Pool V H α) (k : ℕ) : Option (Occupant V) :=
  match pool.action? k with
  | some (.retire o) => some o
  | _ => none

end Pool

section Owned

variable [Journal H] {a : SlotArray} {pool : Pool V H α} {ledger : Ledger V} {duties : ℕ → Duty V}

theorem Pool.Follows.toRetire_eq (h : pool.Follows a (fun _ => Duty.protocol) .free duties)
    (k : ℕ) : (duties k).toRetire = pool.retiring? k := by
  rw [retiring?]
  cases hact : pool.action? k with
  | none =>
    rw [h.eq_rest hact]
    rfl
  | some act =>
    rcases h.step k with ⟨hnone, -⟩ | ⟨_, g, hact', -, -, ⟨hallows, -⟩, -⟩
    · rw [hact] at hnone
      cases hnone
    · cases hact.symm.trans hact'
      cases hduty : duties k <;> rw [hduty] at hallows <;> cases act <;>
        first | exact hallows.elim | rfl | exact congrArg some hallows

/-- The invariant of a pool whose threads do their duties. -/
structure Pool.Owned (a : SlotArray) (pool : Pool V H α) (ledger : Ledger V)
    (duties : ℕ → Duty V) : Prop where
  follows : pool.Follows a (fun _ => Duty.protocol) .free duties
  books : ledger.Books a pool.session.memory
  settled : ledger.Settled duties

namespace Pool.Owned

theorem step (h : pool.Owned a ledger duties) (k : ℕ) :
    ∃ next, (pool.step k).Owned a (pool.record ledger k) next := by
  rcases h.follows.step k with ⟨hact, hsession, hfollows⟩ |
    ⟨act, g, hact, hadmits, hsession, hstep, hfollows⟩
  · refine ⟨duties, hfollows, ?_, ?_⟩
    · rw [record, hact, hsession]
      exact h.books
    · rw [record, hact]
      exact h.settled
  · have henters := Ledger.enters h.follows.sound hadmits ledger k
    obtain ⟨-, hl⟩ := h.follows.sound.perform hadmits
    refine ⟨_, hfollows, ?_, ?_⟩
    · rw [record, hact, hsession]
      exact h.books.enters h.follows.sound hl henters
    · rw [record, hact, hsession]
      exact h.settled.enters h.books h.follows.sound henters hstep

theorem run (h : pool.Owned a ledger duties) (schedule : List ℕ) :
    ∃ last, (pool.run schedule).Owned a (pool.ledgerFrom ledger schedule) last := by
  induction schedule generalizing pool ledger duties with
  | nil => exact ⟨duties, h⟩
  | cons k schedule ih =>
    obtain ⟨next, hnext⟩ := h.step k
    exact ih hnext

end Pool.Owned

end Owned

end AtomicSlots
