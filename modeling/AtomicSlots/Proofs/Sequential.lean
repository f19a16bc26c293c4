import AtomicSlots.Proofs.Clears
import AtomicSlots.Proofs.SlotMap

/-!
# Operations one after another

While one operation after another works on an array, the array does what its slot map does: each
reply, each state of the callers and, after each operation, the contents of all slots and the size
are those of a list of optional values. The list is related to a table that gets its segments only
when slots are filled, and to a count that is kept apart from the slots.
-/
namespace AtomicSlots

variable {V H α β : Type}

/-- A host state of callers that trace events do not touch. -/
structure Unwatched (H : Type) where
  state : H

instance : Journal (Unwatched H) := ⟨fun _ host => host⟩

open Program

namespace Program

variable [Journal H]

@[simp] theorem alone_done (x : α) (host : H) :
    (done x : Program V H α).alone host = (.ok x, host) := rfl

/-- A sequence goes on from the host state that its first part left. -/
theorem alone_bind {p : Program V H α} (h : p.HandsOff) (f : α → Program V H β) (host : H) :
    (p >>= f).alone host = match p.alone host with
      | (.ok x, after) => (f x).alone after
      | (.error reason, after) => (.error reason, after) := by
  have hrun := h.run_eq ⟨.ofEntries 0, host⟩
  rw [alone, run_bind, hrun]
  rcases p.alone host with ⟨(reason | x), after⟩ <;> rfl

end Program

namespace SlotArray

/-- A memory that holds a list of contents and counts it exactly. -/
structure Represents (a : SlotArray) (m : Memory V) (slots : List (Option V)) : Prop where
  sound : a.Sound m
  slots_eq : a.slots m = slots
  count_eq : m.count = slots.countP Option.isSome

namespace Represents

variable {a : SlotArray} {m n : Memory V} {slots : List (Option V)} {i : UInt64} {cell : Cell}

theorem ofEntries (a : SlotArray) :
    a.Represents (.ofEntries a.segmentCount : Memory V) (.replicate a.capacity.toNat none) where
  sound := sound_ofEntries a
  slots_eq := slots_ofEntries a
  count_eq := by
    rw [List.countP_replicate]
    rfl

theorem length_eq (h : a.Represents m slots) : slots.length = a.capacity.toNat := by
  rw [← h.slots_eq, length_slots]

theorem getElem?_eq (h : a.Represents m slots) (hi : i < a.capacity) :
    slots[i.toNat]? = some (a.value? m i) := by
  rw [← h.slots_eq, getElem?_slots, if_pos hi]

theorem lt_of_getElem? (h : a.Represents m slots) {content : Option V}
    (hi : slots[i.toNat]? = some content) : i < a.capacity := by
  have hlt := (List.getElem?_eq_some_iff.mp hi).1
  rw [h.length_eq] at hlt
  exact UInt64.lt_iff_toNat_lt.mpr hlt

theorem value?_eq (h : a.Represents m slots) {content : Option V}
    (hi : slots[i.toNat]? = some content) : a.value? m i = content := by
  rw [h.getElem?_eq (h.lt_of_getElem? hi)] at hi
  exact Option.some.inj hi

theorem content_eq (h : a.Represents m slots) (hc : a.cell? m i = some cell) {content : Option V}
    (hi : slots[i.toNat]? = some content) : (m.content cell).map Occupant.value = content := by
  rw [← h.value?_eq hi, value?, occupant?_of_cell? hc]

theorem set_of_getElem? (h : a.Represents m slots) {k : ℕ} {content : Option V}
    (hk : slots[k]? = some content) : a.Represents m (slots.set k content) := by
  obtain ⟨hlt, rfl⟩ := List.getElem?_eq_some_iff.mp hk
  rwa [List.set_getElem_self hlt]

/-- Another memory with the same occupants and count will do. -/
theorem congr (h : a.Represents m slots) (hs : a.Sound n) (hcount : n.count = m.count)
    (hoccupants : ∀ j, a.occupant? n j = a.occupant? m j) : a.Represents n slots where
  sound := hs
  slots_eq := (slots_congr_occupant hoccupants).trans h.slots_eq
  count_eq := hcount.trans h.count_eq

/-- A store with the change of the count that goes with it. -/
theorem store (h : a.Represents m slots) (hc : a.cell? m i = some cell) {new : Option V}
    {change : ℤ} (hchange : change = new.isSome.toNat - (m.content cell).isSome.toNat) :
    a.Represents ((m.store cell new).adjust change) (slots.set i.toNat new) where
  sound := (h.sound.store hc new).adjust change
  slots_eq := by rw [slots_adjust, slots_store h.sound hc, h.slots_eq]
  count_eq := by
    have hstore := occupied_store h.sound hc new
    rw [occupied, slots_store h.sound hc, occupied, h.slots_eq] at hstore
    have hcount : ((m.store cell new).adjust change).count = m.count + change := by
      rw [← Memory.count_store m cell new]
      rfl
    rw [hcount, h.count_eq, hchange]
    omega

/-- A store that replaces a value needs no change of the count. -/
theorem store_of_isSome_eq (h : a.Represents m slots) (hc : a.cell? m i = some cell)
    {new : Option V} (hnew : new.isSome = (m.content cell).isSome) :
    a.Represents (m.store cell new) (slots.set i.toNat new) := by
  have hzero : (m.store cell new).adjust 0 = m.store cell new := by
    rw [Memory.adjust, Int.add_zero]
  rw [← hzero]
  exact h.store hc (by rw [hnew, sub_self])

end Represents

section Run

variable {a : SlotArray} {s : Session V (Unwatched H)} {slots : List (Option V)} {i : UInt64}

/-- Bringing a segment into being changes no content. -/
theorem run_segmentOrFresh (h : a.Represents s.memory slots) (hi : i < a.capacity) :
    ∃ m segment, (segmentOrFresh (Address.ofIndex i).entry).run s = (.ok segment, ⟨m, s.host⟩) ∧
      a.Represents m slots ∧ a.cell? m i = some ⟨segment, (Address.ofIndex i).offset⟩ := by
  cases hn : s.memory.segmentAt (Address.ofIndex i).entry with
  | some segment =>
    exact ⟨s.memory, segment, run_segmentOrFresh_of_segment hn, h,
      cell?_eq_some_iff.mpr ⟨hi, hn, rfl⟩⟩
  | none =>
    have hat := s.memory.segmentAt_publish_self (h.sound.entry_lt hi) hn
    exact ⟨_, s.memory.segments.size, run_segmentOrFresh_of_missing hn,
      h.congr (h.sound.publish _) (s.memory.count_publish _) (occupant?_publish h.sound _),
      cell?_eq_some_iff.mpr ⟨hi, hat, rfl⟩⟩

/-- An access for filling goes on with the cell of the slot. -/
theorem run_access_fill (h : a.Represents s.memory slots) (hi : i < a.capacity)
    (use : Cell → Program V (Unwatched H) α) :
    ∃ m cell, (a.access .fill i use).run s = (some <$> use cell).run ⟨m, s.host⟩ ∧
      a.Represents m slots ∧ a.cell? m i = some cell := by
  obtain ⟨m, segment, hrun, hm, hc⟩ := run_segmentOrFresh h hi
  refine ⟨m, _, ?_, hm, hc⟩
  rw [access_fill_of_lt hi, run_bind, hrun]

theorem run_exchangeIf_of_same {m : Memory V} {cell : Cell} {expected : Option (Occupant V)}
    {host : Unwatched H} (new : Option V)
    (hsame : sameOccupant (m.content cell) expected = true) :
    (cell.exchangeIf expected new : Program V (Unwatched H) _).run ⟨m, host⟩ =
      (.ok ⟨true, m.stamped new⟩, ⟨m.store cell new, host⟩) := by
  change (Except.ok (m.exchangeIf cell expected new).1,
    Session.mk (m.exchangeIf cell expected new).2 host) = _
  rw [Memory.exchangeIf_of_same new hsame]

theorem run_fill_of_some (h : a.Represents s.memory slots) {w : V}
    (hi : slots[i.toNat]? = some (some w)) (make : Program V (Unwatched H) V) :
    ∃ m, (a.fill i make).run s = (.ok (.refused (some w)), ⟨m, s.host⟩) ∧
      a.Represents m slots := by
  obtain ⟨m, cell, hrun, hm, hc⟩ := run_access_fill h (h.lt_of_getElem? hi) (·.fill make)
  obtain ⟨o, ho, rfl⟩ := Option.map_eq_some_iff.mp (hm.content_eq hc hi)
  refine ⟨m, ?_, hm⟩
  rw [fill, run_bind, hrun, run_map, Cell.fill, run_bind, run_load, ho]
  rfl

/-- An empty slot is filled with what is made for it, if that does not panic. -/
theorem run_fill_of_none (h : a.Represents s.memory slots) (hi : slots[i.toNat]? = some none)
    {make : Program V (Unwatched H) V} (hmake : make.HandsOff) :
    ∃ m, (a.fill i make).run s =
        (.stored <$> (make.alone s.host).1, ⟨m, (make.alone s.host).2⟩) ∧
      a.Represents m (match (make.alone s.host).1 with
        | .ok v => slots.set i.toNat (some v)
        | .error _ => slots) := by
  obtain ⟨m, cell, hrun, hm, hc⟩ := run_access_fill h (h.lt_of_getElem? hi) (·.fill make)
  have ho : m.content cell = none := Option.map_eq_none_iff.mp (hm.content_eq hc hi)
  have hmake' := hmake.run_eq ⟨m, s.host⟩
  have hfill : (cell.fill make).run ⟨m, s.host⟩ = match make.alone s.host with
      | (.ok v, host) => (.ok (.stored v), ⟨m.store cell (some v), host⟩)
      | (.error reason, host) => (.error reason, ⟨m, host⟩) := by
    rw [Cell.fill, run_bind, run_load, ho]
    simp only [run_bind, hmake']
    rcases make.alone s.host with ⟨(reason | v), host⟩
    · rfl
    · simp only [run_exchangeIf_of_same (some v) (show sameOccupant (m.content cell) none = true by
        simp [ho])]
      rfl
  rw [fill, run_bind, hrun, run_map, hfill]
  rcases make.alone s.host with ⟨(reason | v), host⟩
  · exact ⟨m, rfl, hm⟩
  · exact ⟨_, rfl, hm.store hc (by rw [ho]; rfl)⟩

theorem run_swap (h : a.Represents s.memory slots) {content : Option V}
    (hi : slots[i.toNat]? = some content) (v : V) :
    ∃ m, (a.swap i v).run s = (.ok (some content), ⟨m, s.host⟩) ∧
      a.Represents m (slots.set i.toNat (some v)) := by
  obtain ⟨m, cell, hrun, hm, hc⟩ := run_access_fill h (h.lt_of_getElem? hi) (·.replace (some v))
  have hcontent := hm.content_eq hc hi
  rw [swap, run_bind, hrun, run_map, Cell.replace, Cell.swap]
  simp only [perform, step_bind, done_bind, run_step, Action.perform, Memory.swap_eq]
  cases ho : m.content cell with
  | none =>
    rw [ho] at hcontent
    subst hcontent
    exact ⟨_, rfl, hm.store hc (by rw [ho]; rfl)⟩
  | some o =>
    rw [ho] at hcontent
    subst hcontent
    exact ⟨_, rfl, hm.store_of_isSome_eq hc (by rw [ho]; rfl)⟩

/-- What does not fill a slot may find that its segment is missing. Then the slot is empty. -/
theorem content_of_missing (h : a.Represents s.memory slots) {content : Option V}
    (hi : slots[i.toNat]? = some content) (hc : a.cell? s.memory i = none) : content = none := by
  rw [← h.value?_eq hi, value?, occupant?_of_cell?_eq_none hc]
  rfl

theorem run_take (h : a.Represents s.memory slots) {content : Option V}
    (hi : slots[i.toNat]? = some content) :
    ∃ m, (a.take i).run s = (.ok content, ⟨m, s.host⟩) ∧
      a.Represents m (slots.set i.toNat none) := by
  rw [take, run_bind]
  cases hc : a.cell? s.memory i with
  | none =>
    obtain rfl := content_of_missing h hi hc
    rw [run_access_of_missing (by decide) hc]
    exact ⟨s.memory, rfl, h.set_of_getElem? hi⟩
  | some cell =>
    have hcontent := h.content_eq hc hi
    rw [run_access_of_cell (by decide) hc, run_map, Cell.replace, Cell.swap]
    simp only [perform, step_bind, done_bind, run_step, Action.perform, Memory.swap_eq]
    cases ho : s.memory.content cell with
    | none =>
      rw [ho] at hcontent
      subst hcontent
      exact ⟨_, rfl, h.store_of_isSome_eq hc (by rw [ho]; rfl)⟩
    | some o =>
      rw [ho] at hcontent
      subst hcontent
      exact ⟨_, rfl, h.store hc (by rw [ho]; rfl)⟩

theorem run_revise_of_none {cell : Cell} (ho : s.memory.content cell = none)
    (accepts : V → Program V (Unwatched H) Bool)
    (change : V → Program V (Unwatched H) (Option V)) :
    (cell.revise accepts change).run s = (.ok .absent, s) := by
  rw [Cell.revise, run_bind, run_load, ho]
  rfl

/-- Nobody comes in between, so a revision is never lost. -/
theorem run_revise_of_some {m : Memory V} {host : Unwatched H} {cell : Cell} {o : Occupant V}
    (ho : m.content cell = some o) {accepts : V → Program V (Unwatched H) Bool}
    {change : V → Program V (Unwatched H) (Option V)} (ha : (accepts o.value).HandsOff)
    (hchange : (change o.value).HandsOff) :
    (cell.revise accepts change).run ⟨m, host⟩ = match (accepts o.value).alone host with
      | (.error reason, host) => (.error reason, ⟨m, host⟩)
      | (.ok false, host) => (.ok .rejected, ⟨m, host⟩)
      | (.ok true, host) => match (change o.value).alone host with
        | (.error reason, host) => (.error reason, ⟨m, host⟩)
        | (.ok new, host) => (.ok .committed, ⟨m.store cell new, host⟩) := by
  rw [Cell.revise, run_bind, run_load, ho]
  simp only [run_bind, ha.run_eq ⟨m, host⟩]
  rcases (accepts o.value).alone host with ⟨(reason | (_ | _)), host₁⟩
  · rfl
  · rfl
  · simp only [if_true, run_bind, hchange.run_eq ⟨m, host₁⟩]
    rcases (change o.value).alone host₁ with ⟨(reason | new), host₂⟩
    · rfl
    · simp only [run_exchangeIf_of_same new
        (show sameOccupant (m.content cell) (some o) = true by simp [ho])]
      rfl

theorem run_eraseIf_of_none (h : a.Represents s.memory slots) (hi : slots[i.toNat]? = some none)
    (accepts : V → Program V (Unwatched H) Bool) :
    (a.eraseIf i accepts).run s = (.ok .absent, s) := by
  rw [eraseIf, run_bind]
  cases hc : a.cell? s.memory i with
  | none =>
    rw [run_access_of_missing (by decide) hc]
    rfl
  | some cell =>
    have ho := Option.map_eq_none_iff.mp (h.content_eq hc hi)
    rw [run_access_of_cell (by decide) hc, run_map, run_revise_of_none ho]
    rfl

theorem run_eraseIf_of_some (h : a.Represents s.memory slots) {w : V}
    (hi : slots[i.toNat]? = some (some w)) {accepts : V → Program V (Unwatched H) Bool}
    (ha : ∀ v, (accepts v).HandsOff) :
    ∃ m, (a.eraseIf i accepts).run s =
        ((bif · then .committed else .rejected) <$> ((accepts w).alone s.host).1,
          ⟨m, ((accepts w).alone s.host).2⟩) ∧
      a.Represents m (match ((accepts w).alone s.host).1 with
        | .ok true => slots.set i.toNat none
        | .ok false | .error _ => slots) := by
  obtain ⟨m, host⟩ := s
  rw [eraseIf, run_bind]
  cases hc : a.cell? m i with
  | none => cases content_of_missing h hi hc
  | some cell =>
    obtain ⟨o, ho, rfl⟩ := Option.map_eq_some_iff.mp (h.content_eq hc hi)
    have hnone : (pure none : Program V (Unwatched H) (Option V)).HandsOff := trivial
    rw [run_access_of_cell (by decide) hc, run_map, run_revise_of_some ho (ha _) hnone]
    rcases (accepts o.value).alone host with ⟨(reason | (_ | _)), host⟩
    · exact ⟨m, rfl, h⟩
    · exact ⟨m, rfl, h⟩
    · exact ⟨_, rfl, h.store hc (by simp only [ho]; rfl)⟩

theorem run_update_of_none (h : a.Represents s.memory slots) (hi : slots[i.toNat]? = some none)
    (factory : V → Program V (Unwatched H) V) (accepts : V → Program V (Unwatched H) Bool) :
    (a.update i factory accepts).run s = (.ok .absent, s) := by
  rw [update, run_map]
  cases hc : a.cell? s.memory i with
  | none =>
    rw [run_access_of_missing (by decide) hc]
    rfl
  | some cell =>
    have ho := Option.map_eq_none_iff.mp (h.content_eq hc hi)
    rw [run_access_of_cell (by decide) hc, run_map, run_revise_of_none ho]
    rfl

/-- The factory is asked after the predicate, and only if that accepts. -/
theorem run_update_of_some (h : a.Represents s.memory slots) {w : V}
    (hi : slots[i.toNat]? = some (some w)) {factory : V → Program V (Unwatched H) V}
    {accepts : V → Program V (Unwatched H) Bool} (hf : ∀ v, (factory v).HandsOff)
    (ha : ∀ v, (accepts v).HandsOff) :
    ∃ m, (a.update i factory accepts).run s = (match (accepts w).alone s.host with
        | (.error reason, host) => (.error reason, ⟨m, host⟩)
        | (.ok false, host) => (.ok .rejected, ⟨m, host⟩)
        | (.ok true, host) =>
          ((fun _ => .committed) <$> ((factory w).alone host).1, ⟨m, ((factory w).alone host).2⟩)) ∧
      a.Represents m (match (accepts w).alone s.host with
        | (.ok true, host) => match ((factory w).alone host).1 with
          | .ok v => slots.set i.toNat (some v)
          | .error _ => slots
        | (.ok false, _) | (.error _, _) => slots) := by
  obtain ⟨m, host⟩ := s
  rw [update, run_map]
  cases hc : a.cell? m i with
  | none => cases content_of_missing h hi hc
  | some cell =>
    obtain ⟨o, ho, rfl⟩ := Option.map_eq_some_iff.mp (h.content_eq hc hi)
    have hchange : (some <$> factory o.value).HandsOff := (hf o.value).bind fun _ => trivial
    rw [run_access_of_cell (by decide) hc, run_map, run_revise_of_some ho (ha _) hchange]
    rcases (accepts o.value).alone host with ⟨(reason | (_ | _)), host₁⟩
    · exact ⟨m, rfl, h⟩
    · exact ⟨m, rfl, h⟩
    · have hmap : (some <$> factory o.value).alone host₁ =
          (some <$> ((factory o.value).alone host₁).1, ((factory o.value).alone host₁).2) := by
        change (factory o.value >>= fun v => done (some v)).alone host₁ = _
        rw [alone_bind (hf o.value)]
        rcases (factory o.value).alone host₁ with ⟨(reason | v), host₂⟩ <;> rfl
      simp only [hmap]
      rcases (factory o.value).alone host₁ with ⟨(reason | v), host₂⟩
      · exact ⟨m, rfl, h⟩
      · exact ⟨_, rfl, h.store_of_isSome_eq hc (by simp only [ho]; rfl)⟩

end Run

end SlotArray

namespace SlotOperation

open SlotArray

/-- An operation on a list of contents without anybody else: the reply, the list after it and the
host after it. A callback that panics leaves the list as it is. -/
def step [Journal H] (operation : SlotOperation V H) (slots : List (Option V)) (host : H) :
    Except Panic (Reply V) × List (Option V) × H :=
  match (operation.onSlots slots).alone host with
  | (.ok (reply, new), host) => (.ok reply, new, host)
  | (.error reason, host) => (.error reason, slots, host)

theorem step_of_none [Journal H] {operation : SlotOperation V H} {slots : List (Option V)}
    (h : slots[operation.index.toNat]? = none) (host : H) :
    operation.step slots host = (.ok operation.outside, slots, host) := by
  simp [step, onSlots, h]

theorem step_of_some [Journal H] {operation : SlotOperation V H} {slots : List (Option V)}
    {content : Option V} (ho : operation.HandsOff)
    (h : slots[operation.index.toNat]? = some content) (host : H) :
    operation.step slots host = match (operation.onContent content).alone host with
      | (.ok (reply, new), host) => (.ok reply, slots.set operation.index.toNat new, host)
      | (.error reason, host) => (.error reason, slots, host) := by
  simp only [step, onSlots, h, alone_bind (ho.onContent content)]
  rcases (operation.onContent content).alone host with ⟨(reason | ⟨reply, new⟩), host⟩ <;> rfl

/-- Where no callback is asked, the list gets the new content in the place of the old one. -/
theorem step_of_pure [Journal H] {operation : SlotOperation V H} {slots : List (Option V)}
    {content new : Option V} {reply : Reply V} (h : slots[operation.index.toNat]? = some content)
    (hcontent : operation.onContent content = pure (reply, new)) (host : H) :
    operation.step slots host = (.ok reply, slots.set operation.index.toNat new, host) := by
  simp only [step, onSlots, h, hcontent]
  rfl

variable {a : SlotArray} {s : Session V (Unwatched H)} {slots : List (Option V)}

/-- On an array that represents a list, an operation does what it does on the list: the reply, the
contents after it and the host after it are the same. -/
def Agrees (a : SlotArray) (operation : SlotOperation V (Unwatched H))
    (s : Session V (Unwatched H)) (slots : List (Option V)) : Prop :=
  ∃ m, (operation.program a).run s =
      ((operation.step slots s.host).1, ⟨m, (operation.step slots s.host).2.2⟩) ∧
    a.Represents m (operation.step slots s.host).2.1

section Agrees

variable {operation : SlotOperation V (Unwatched H)} {m : Memory V} {content new : Option V}

theorem agrees_of_le (h : a.Represents s.memory slots)
    (hi : slots[operation.index.toNat]? = none) : operation.Agrees a s slots := by
  have hle : a.capacity ≤ operation.index := by
    rw [UInt64.le_iff_toNat_le, ← h.length_eq]
    exact List.getElem?_eq_none_iff.mp hi
  rw [Agrees, program_of_le hle, step_of_none hi]
  exact ⟨s.memory, rfl, h⟩

/-- Where the list asks no callback, it is enough to know the reply and the new content. -/
theorem agrees_of_pure {reply : Reply V} (hi : slots[operation.index.toNat]? = some content)
    (hcontent : operation.onContent content = pure (reply, new))
    (hrun : (operation.program a).run s = (.ok reply, ⟨m, s.host⟩))
    (hm : a.Represents m (slots.set operation.index.toNat new)) : operation.Agrees a s slots := by
  rw [Agrees, step_of_pure hi hcontent]
  exact ⟨m, hrun, hm⟩

theorem agrees_fill {make : Program V (Unwatched H) V} {reply : Filling V → Reply V}
    (ho : operation.HandsOff) (h : a.Represents s.memory slots)
    (hi : slots[operation.index.toNat]? = some content)
    (hp : operation.program a = reply <$> a.fill operation.index make)
    (hsome : ∀ w, operation.onContent (some w) = pure (reply (.refused (some w)), some w))
    (hnone : operation.onContent none = make >>= fun v => pure (reply (.stored v), some v))
    (hmake : make.HandsOff) : operation.Agrees a s slots := by
  cases content with
  | some w =>
    obtain ⟨m, hrun, hm⟩ := run_fill_of_some h hi make
    refine agrees_of_pure hi (hsome w) ?_ (hm.set_of_getElem? hi)
    rw [hp, run_map, hrun]
    rfl
  | none =>
    obtain ⟨m, hrun, hm⟩ := run_fill_of_none h hi hmake
    rw [Agrees, step_of_some ho hi, hp, hnone, run_map, hrun, alone_bind hmake]
    refine ⟨m, ?_⟩
    generalize make.alone s.host = made at hm ⊢
    rcases made with ⟨(reason | v), host⟩
    · exact ⟨rfl, hm⟩
    · exact ⟨rfl, hm⟩

theorem agrees_eraseIf {i : UInt64} {accepts : V → Program V (Unwatched H) Bool}
    (ha : ∀ v, (accepts v).HandsOff) (h : a.Represents s.memory slots)
    (hi : slots[i.toNat]? = some content) : (eraseIf i accepts).Agrees a s slots := by
  cases content with
  | none =>
    refine agrees_of_pure hi rfl ?_ (h.set_of_getElem? hi)
    rw [program, run_map, run_eraseIf_of_none h hi]
    rfl
  | some w =>
    have ho : (eraseIf i accepts).HandsOff := ha
    obtain ⟨m, hrun, hm⟩ := run_eraseIf_of_some h hi ha
    rw [Agrees, step_of_some ho hi, program, run_map, hrun, onContent, alone_bind (ha w)]
    refine ⟨m, ?_⟩
    generalize (accepts w).alone s.host = answered at hm ⊢
    rcases answered with ⟨(reason | (_ | _)), host⟩
    · exact ⟨rfl, hm⟩
    · exact ⟨rfl, hm.set_of_getElem? hi⟩
    · exact ⟨rfl, hm⟩

theorem agrees_update {i : UInt64} {factory : V → Program V (Unwatched H) V}
    {accepts : V → Program V (Unwatched H) Bool} (hf : ∀ v, (factory v).HandsOff)
    (ha : ∀ v, (accepts v).HandsOff) (h : a.Represents s.memory slots)
    (hi : slots[i.toNat]? = some content) : (update i factory accepts).Agrees a s slots := by
  cases content with
  | none =>
    refine agrees_of_pure hi rfl ?_ (h.set_of_getElem? hi)
    rw [program, run_map, run_update_of_none h hi]
    rfl
  | some w =>
    have ho : (update i factory accepts).HandsOff := ⟨hf, ha⟩
    obtain ⟨m, hrun, hm⟩ := run_update_of_some h hi hf ha
    rw [Agrees, step_of_some ho hi, program, run_map, hrun, onContent, alone_bind (ha w)]
    refine ⟨m, ?_⟩
    generalize (accepts w).alone s.host = answered at hm ⊢
    rcases answered with ⟨(reason | (_ | _)), host⟩
    · exact ⟨rfl, hm⟩
    · exact ⟨rfl, hm.set_of_getElem? hi⟩
    · simp only [if_true, alone_bind (hf w)] at hm ⊢
      generalize (factory w).alone host = made at hm ⊢
      rcases made with ⟨(reason | v), host⟩
      · exact ⟨rfl, hm⟩
      · exact ⟨rfl, hm⟩

end Agrees

/-- On an array that nobody else works on, an operation does what it does on the list. -/
theorem agrees {operation : SlotOperation V (Unwatched H)} (ho : operation.HandsOff)
    (h : a.Represents s.memory slots) : operation.Agrees a s slots := by
  cases hi : slots[operation.index.toNat]? with
  | none => exact agrees_of_le h hi
  | some content =>
    rcases operation.kind a with ⟨make, reply, hp, hsome, hnone, -, hmake⟩ |
      ⟨v, reply, hp, hcontent, -⟩ | ⟨reply, hp, hcontent, -⟩ | ⟨reply, hp, hcontent, -⟩ |
      ⟨i, accepts, rfl⟩ | ⟨i, factory, accepts, rfl⟩
    · exact agrees_fill ho h hi hp hsome hnone (hmake ho)
    · obtain ⟨m, hrun, hm⟩ := run_swap h hi v
      refine agrees_of_pure hi (hcontent content) ?_ hm
      rw [hp, run_map, hrun]
      rfl
    · obtain ⟨m, hrun, hm⟩ := run_take h hi
      refine agrees_of_pure hi (hcontent content) ?_ hm
      rw [hp, run_map, hrun]
      rfl
    · refine agrees_of_pure hi (hcontent content) ?_ (h.set_of_getElem? hi)
      rw [hp, run_map, run_get?, h.value?_eq hi]
      rfl
    · exact agrees_eraseIf ho h hi
    · exact agrees_update ho.1 ho.2 h hi

end SlotOperation

namespace SlotArray

section Clear

variable {a : SlotArray} {s : Session V (Unwatched H)} {slots : List (Option V)}

theorem run_clear (h : a.Represents s.memory slots) :
    ∃ m, (a.clear : Program V (Unwatched H) Unit).run s = (.ok (), ⟨m, s.host⟩) ∧
      a.Represents m (.replicate slots.length none) := by
  have hcount : s.memory.count = a.occupied s.memory := by rw [h.count_eq, occupied, h.slots_eq]
  refine ⟨_, run_clear_eq h.sound, h.sound.swept _ _, ?_, ?_⟩
  · rw [h.sound.slots_swept_all, h.length_eq]
  · rw [h.sound.count_swept_all hcount, List.countP_replicate]
    rfl

end Clear

end SlotArray

/-- The operations that one caller performs: those on one slot, and those on the whole array. -/
inductive ArrayOperation (V H : Type) where
  | onSlot (operation : SlotOperation V H)
  | clear
  | size
  | isEmpty

/-- What there is to see after an operation. -/
structure Report (V H : Type) where
  reply : Except Panic (Reply V)
  slots : List (Option V)
  size : ℕ
  host : H

namespace ArrayOperation

def HandsOff : ArrayOperation V H → Prop
  | onSlot operation => operation.HandsOff
  | clear | size | isEmpty => True

def program (a : SlotArray) : ArrayOperation V H → Program V H (Reply V)
  | onSlot operation => operation.program a
  | clear => (fun _ => .done) <$> a.clear
  | size => .number <$> SlotArray.size
  | isEmpty => .flag <$> SlotArray.isEmpty

/-- The operation on a list of contents. -/
def step [Journal H] (operation : ArrayOperation V H) (slots : List (Option V)) (host : H) :
    Except Panic (Reply V) × List (Option V) × H :=
  match operation with
  | onSlot operation => operation.step slots host
  | clear => (.ok .done, slots.map fun _ => none, host)
  | size => (.ok (.number (slots.countP Option.isSome)), slots, host)
  | isEmpty => (.ok (.flag (slots.all Option.isNone)), slots, host)

/-- What there is to see after each of a caller's operations on an array. -/
def reports [Journal H] (a : SlotArray) :
    List (ArrayOperation V H) → Session V H → List (Report V H)
  | [], _ => []
  | operation :: rest, s =>
    let (reply, s) := (operation.program a).run s
    ⟨reply, a.slots s.memory, s.memory.size, s.host⟩ :: reports a rest s

/-- What there is to see after each operation on a list. -/
def listReports [Journal H] :
    List (ArrayOperation V H) → List (Option V) → H → List (Report V H)
  | [], _, _ => []
  | operation :: rest, slots, host =>
    let (reply, slots, host) := operation.step slots host
    ⟨reply, slots, slots.countP Option.isSome, host⟩ :: listReports rest slots host

variable {a : SlotArray} {s : Session V (Unwatched H)} {slots : List (Option V)}

theorem size_eq_countP {m : Memory V} (h : a.Represents m slots) :
    m.size = slots.countP Option.isSome := by
  rw [Memory.size, h.count_eq]
  exact Int.toNat_natCast _

theorem run_program {operation : ArrayOperation V (Unwatched H)} (ho : operation.HandsOff)
    (h : a.Represents s.memory slots) :
    ∃ m, (operation.program a).run s =
        ((operation.step slots s.host).1, ⟨m, (operation.step slots s.host).2.2⟩) ∧
      a.Represents m (operation.step slots s.host).2.1 := by
  cases operation with
  | onSlot operation => exact SlotOperation.agrees ho h
  | clear =>
    obtain ⟨m, hrun, hm⟩ := SlotArray.run_clear h
    rw [program, SlotArray.run_map, hrun]
    refine ⟨m, rfl, ?_⟩
    change a.Represents m (slots.map fun _ => none)
    rwa [List.map_const']
  | size =>
    refine ⟨s.memory, ?_, h⟩
    rw [step, ← size_eq_countP h]
    rfl
  | isEmpty =>
    refine ⟨s.memory, ?_, h⟩
    have hall : slots.all Option.isNone = (s.memory.size == 0) := by
      rw [size_eq_countP h, Bool.eq_iff_iff]
      simp
    rw [step, hall]
    rfl

theorem reports_eq {operations : List (ArrayOperation V (Unwatched H))}
    (ho : ∀ operation ∈ operations, operation.HandsOff) (h : a.Represents s.memory slots) :
    reports a operations s = listReports operations slots s.host := by
  induction operations generalizing s slots with
  | nil => rfl
  | cons operation rest ih =>
    obtain ⟨m, hrun, hm⟩ := run_program (ho operation List.mem_cons_self) h
    rw [reports, hrun]
    simp only [listReports, hm.slots_eq, size_eq_countP hm]
    rw [ih (s := ⟨m, _⟩) (fun other hmem => ho other (List.mem_cons_of_mem _ hmem)) hm]

/-- On a fresh array of any capacity, any operations with any callbacks that keep their hands off it
show just what they show on a list of so many empty slots: their replies and panics, what the
callbacks noted about their calls, the contents of all slots, and the size. -/
theorem reports_eq_listReports (a : SlotArray) (host : Unwatched H)
    {operations : List (ArrayOperation V (Unwatched H))}
    (h : ∀ operation ∈ operations, operation.HandsOff) :
    reports a operations ⟨a.freshMemory, host⟩ =
      listReports operations (.replicate a.capacity.toNat none) host :=
  reports_eq h (SlotArray.Represents.ofEntries a)

/-- A predicate notes its argument; outside the array it is not asked. -/
theorem reports_of_noting_predicate :
    let accepts (v : ℕ) : Program ℕ (Unwatched (List ℕ)) Bool :=
      .changeHost (fun host => ⟨v :: host.state⟩) >>= fun _ => .done (v == 5)
    let operations : List (ArrayOperation ℕ (Unwatched (List ℕ))) :=
      [.onSlot (.insert 40 5), .onSlot (.eraseIf 40 accepts), .onSlot (.eraseIf 41 accepts)]
    (∀ operation ∈ operations, operation.HandsOff) ∧
      (reports ⟨41⟩ operations ⟨(SlotArray.mk 41).freshMemory, ⟨[]⟩⟩).map
        (fun report => (report.size, report.host.state)) = [(1, []), (0, [5]), (0, [5])] := by
  intro accepts operations
  have haccepts : ∀ v, (accepts v).HandsOff := fun v => ⟨rfl, fun _ => trivial⟩
  have h : ∀ operation ∈ operations, operation.HandsOff := by
    simpa [operations, HandsOff, SlotOperation.HandsOff] using haccepts
  refine ⟨h, ?_⟩
  rw [reports_eq_listReports ⟨41⟩ ⟨[]⟩ h]
  rfl

end ArrayOperation

end AtomicSlots
