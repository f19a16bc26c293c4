import AtomicSlots.Proofs.Allocation
import AtomicSlots.Proofs.Sequential

/-!
# Programs with slots of their own

A program that has slots of its own relies on the others to leave the occupants of these slots
alone, and in turn it leaves all other slots alone. Whatever else the others do, they fill other
slots, bring segments into being and count, cannot be noticed by it: a segment that somebody else
has published is as empty in its slots as a missing one. So an operation on a slot of its own ends
as it ends on a list of contents, with the same answer, the same change of its slot and the same
state of its callbacks. The rules are those of a predicate transformer on programs, one for each way
to get to a cell and one for each program on a cell.
-/
namespace AtomicSlots

variable {V H α β : Type}

open Program SlotArray

/-- What belongs to a program: slots that nobody else works on, and entries of the table for which
it may bring a segment into being. -/
structure Share where
  slots : UInt64 → Prop
  entries : UInt64 → Prop

namespace SlotArray

variable {a : SlotArray} {slots : UInt64 → Prop} {m n k : Memory V}

/-- The second memory comes later, and some slots have the occupants that they had. -/
structure Leaves (a : SlotArray) (slots : UInt64 → Prop) (m n : Memory V) : Prop where
  sound : a.Sound n
  later : m.Later n
  occupant?_eq : ∀ i, slots i → a.occupant? n i = a.occupant? m i

namespace Leaves

theorem refl (h : a.Sound m) : a.Leaves slots m m := ⟨h, .refl m, fun _ _ => rfl⟩

theorem trans (h : a.Leaves slots m n) (h' : a.Leaves slots n k) : a.Leaves slots m k where
  sound := h'.sound
  later := h.later.trans h'.later
  occupant?_eq i hi := (h'.occupant?_eq i hi).trans (h.occupant?_eq i hi)

theorem anti {others : UInt64 → Prop} (h : a.Leaves slots m n) (hle : ∀ i, others i → slots i) :
    a.Leaves others m n := ⟨h.sound, h.later, fun i hi => h.occupant?_eq i (hle i hi)⟩

/-- New segments and the count are seen in no slot. -/
theorem publish (h : a.Sound m) (e : UInt64) : a.Leaves slots m (m.publish e).2 where
  sound := h.publish e
  later := m.later_publish e
  occupant?_eq i _ := occupant?_publish h e i

theorem adjust (h : a.Sound m) (change : ℤ) : a.Leaves slots m (m.adjust change) where
  sound := h.adjust change
  later := ⟨fun _ _ hs => hs, le_rfl, fun _ _ ho _ => ho⟩
  occupant?_eq _ _ := rfl

theorem value?_eq (h : a.Leaves slots m n) {i : UInt64} (hi : slots i) :
    a.value? n i = a.value? m i := by rw [value?, h.occupant?_eq i hi, value?]

/-- The cell of a slot keeps its content. -/
theorem content_eq (h : a.Leaves slots m n) {i : UInt64} {cell : Cell}
    (hc : a.cell? m i = some cell) (hi : slots i) : n.content cell = m.content cell := by
  rw [← occupant?_of_cell? (cell?_later h.later hc), h.occupant?_eq i hi, occupant?_of_cell? hc]

end Leaves

/-- One action that leaves the slots of the others alone and brings no segment into being but for
entries of its own. -/
structure StaysWithin (a : SlotArray) (share : Share) (m n : Memory V) : Prop extends
    a.Leaves (fun i => ¬ share.slots i) m n where
  allocates : ∀ e, (n.segmentAt e).isSome = true →
    (m.segmentAt e).isSome = true ∨ share.entries e

namespace StaysWithin

variable {share : Share}

theorem refl (h : a.Sound m) : a.StaysWithin share m m := ⟨.refl h, fun _ => .inl⟩

theorem publish (h : a.Sound m) {e : UInt64} (he : share.entries e)
    (hlt : e.toNat < m.table.size) : a.StaysWithin share m (m.publish e).2 where
  toLeaves := .publish h e
  allocates d hd := by
    rcases (Memory.isSome_segmentAt_publish hlt d).mp hd with hold | rfl
    · exact .inl hold
    · exact .inr he

theorem adjust (h : a.Sound m) (change : ℤ) : a.StaysWithin share m (m.adjust change) :=
  ⟨.adjust h change, fun _ => .inl⟩

theorem store (h : a.Sound m) {i : UInt64} {cell : Cell} (hc : a.cell? m i = some cell)
    (hi : share.slots i) (new : Option V) : a.StaysWithin share m (m.store cell new) where
  sound := h.store hc new
  later := Memory.later_store (h.hasCell hc) new
  occupant?_eq j hj := occupant?_store_of_ne h hc new fun hij => hj (hij ▸ hi)
  allocates e he := .inl (by simpa using he)

end StaysWithin

end SlotArray

namespace Program

variable [Journal H] {a : SlotArray} {share : Share}
  {Q Q' : Except Panic α → H → Memory V → Prop} {p : Program V H α} {host : H} {m n : Memory V}

/-- From a state of its callers and a memory on, the program stays within its share and ends as `Q`
asks, if before each of its actions the others leave its slots and the state of its callers alone. -/
def Tends (a : SlotArray) (share : Share) (Q : Except Panic α → H → Memory V → Prop) :
    Program V H α → H → Memory V → Prop
  | done x, host, m => Q (.ok x) host m
  | panic reason, host, m => Q (.error reason) host m
  | step act next, host, m => ∀ n, a.Leaves share.slots m n →
      a.StaysWithin share n (act.perform ⟨n, host⟩).2.memory ∧
        (next (act.perform ⟨n, host⟩).1).Tends a share Q (act.perform ⟨n, host⟩).2.host
          (act.perform ⟨n, host⟩).2.memory

theorem tends_bind {f : α → Program V H β} {Q : Except Panic β → H → Memory V → Prop} :
    (p >>= f).Tends a share Q host m ↔
      p.Tends a share (andThen Q fun x => (f x).Tends a share Q) host m := by
  induction p generalizing host m with
  | done x => exact Iff.rfl
  | panic reason => exact Iff.rfl
  | step act next ih => simp only [step_bind, Tends, ih]

theorem tends_map {f : α → β} {Q : Except Panic β → H → Memory V → Prop} :
    (f <$> p).Tends a share Q host m ↔ p.Tends a share (fun r => Q (f <$> r)) host m := by
  have hQ : andThen Q (fun x => (done (f x) : Program V H β).Tends a share Q) =
      fun r => Q (f <$> r) := by
    funext r
    cases r <;> rfl
  rw [← hQ, ← tends_bind]
  rfl

theorem Tends.mono (h : p.Tends a share Q host m)
    (hQ : ∀ r host n, m.Later n → Q r host n → Q' r host n) : p.Tends a share Q' host m := by
  induction p generalizing host m with
  | done x => exact hQ _ host m (.refl m) h
  | panic reason => exact hQ _ host m (.refl m) h
  | step act next ih =>
    intro n hn
    obtain ⟨hstays, hnext⟩ := h n hn
    have hl := hn.later.trans hstays.later
    exact ⟨hstays, ih _ hnext fun r host k hk => hQ r host k (hl.trans hk)⟩

/-- What the others may do is no hindrance, if an end is an end also after it. -/
theorem Tends.leaves (h : p.Tends a share Q host m) (hl : a.Leaves share.slots m n)
    (hQ : ∀ r, Q r host m → Q r host n) : p.Tends a share Q host n := by
  cases p with
  | done x => exact hQ _ h
  | panic reason => exact hQ _ h
  | step act next => exact fun k hk => h k (hl.trans hk)

/-- A program that keeps its hands off the memory ends as it ends alone. -/
theorem HandsOff.tends (h : p.HandsOff) (hs : a.Sound m)
    (hQ : ∀ n, a.Leaves share.slots m n → Q (p.alone host).1 (p.alone host).2 n) :
    p.Tends a share Q host m := by
  induction p generalizing host m with
  | done x => exact hQ m (.refl hs)
  | panic reason => exact hQ m (.refl hs)
  | step act next ih =>
    intro n hn
    obtain ⟨hact, hnext⟩ := h
    have hlater := fun k (hk : a.Leaves share.slots n k) => hQ k (hn.trans hk)
    cases act with
    | readHost => exact ⟨.refl hn.sound, ih host (hnext host) hn.sound hlater⟩
    | changeHost change => exact ⟨.refl hn.sound, ih () (hnext ()) hn.sound hlater⟩
    | emit event => exact ⟨.refl hn.sound, ih () (hnext ()) hn.sound hlater⟩
    | _ => cases hact

end Program

/-! The ways to get to a cell, and the programs on it. -/

section Rules

variable {a : SlotArray} {share : Share} {i : UInt64} {cell : Cell} {host : Unwatched H}
  {m : Memory V}

namespace SlotArray

/-- Whether the segment was there, is new, or is that of somebody else makes no difference. -/
theorem tends_segmentOrFresh {e : UInt64} {Q : Except Panic ℕ → Unwatched H → Memory V → Prop}
    (he : share.entries e) (hlt : ∀ n : Memory V, a.Sound n → e.toNat < n.table.size)
    (hQ : ∀ n segment, a.Leaves share.slots m n → n.segmentAt e = some segment →
      Q (.ok segment) host n) :
    (segmentOrFresh e).Tends a share Q host m := by
  rw [segmentOrFresh, tends_bind]
  intro n hn
  refine ⟨.refl hn.sound, ?_⟩
  change andThen Q _ (.ok (n.segmentAt e)) host n
  cases hfound : n.segmentAt e with
  | some segment => exact hQ n segment hn hfound
  | none =>
    refine tends_bind.mpr fun k hk => ?_
    refine ⟨.publish hk.sound he (hlt k hk.sound), ?_⟩
    change andThen Q _ (.ok (k.publish e).1) host (k.publish e).2
    have hafter : a.Leaves share.slots m (k.publish e).2 :=
      (hn.trans hk).trans (.publish hk.sound e)
    cases hthere : k.segmentAt e with
    | some segment =>
      have hat := (k.later_publish e).segmentAt_eq _ _ hthere
      simp only [andThen, k.found_publish, hthere]
      refine tends_bind.mpr fun l hl => ⟨.refl hl.sound, ?_⟩
      exact hQ l segment (hafter.trans hl) (hl.later.segmentAt_eq _ _ hat)
    | none =>
      have hat := k.segmentAt_publish_self (hlt k hk.sound) hthere
      rw [← k.fresh_publish e] at hat
      simp only [andThen, k.found_publish, hthere]
      refine tends_bind.mpr fun l hl => ⟨.refl hl.sound, ?_⟩
      exact hQ l _ (hafter.trans hl) (hl.later.segmentAt_eq _ _ hat)

variable {use : Cell → Program V (Unwatched H) α}
  {Q : Except Panic (Option α) → Unwatched H → Memory V → Prop}

theorem tends_access_fill (hi : i < a.capacity) (he : share.entries (Address.ofIndex i).entry)
    (huse : ∀ n cell, a.Leaves share.slots m n → a.cell? n i = some cell →
      (use cell).Tends a share (fun r => Q (some <$> r)) host n) :
    (a.access .fill i use).Tends a share Q host m := by
  rw [access_fill_of_lt hi, tends_bind]
  refine tends_segmentOrFresh he (fun _ hn => hn.entry_lt hi) fun n segment hn hsegment => ?_
  exact tends_map.mpr (huse n _ hn (cell?_eq_some_iff.mpr ⟨hi, hsegment, rfl⟩))

theorem tends_access {purpose : Access} (hp : purpose ≠ .fill) (hi : i < a.capacity)
    (hmissing : ∀ n, a.Leaves share.slots m n → a.cell? n i = none → Q (.ok none) host n)
    (huse : ∀ n cell, a.Leaves share.slots m n → a.cell? n i = some cell →
      (use cell).Tends a share (fun r => Q (some <$> r)) host n) :
    (a.access purpose i use).Tends a share Q host m := by
  rw [access_of_lt hi hp, tends_bind]
  intro n hn
  refine ⟨.refl hn.sound, ?_⟩
  change andThen Q _ (.ok (n.segmentAt (Address.ofIndex i).entry)) host n
  cases hfound : n.segmentAt (Address.ofIndex i).entry with
  | none => exact hmissing n hn (by simp [cell?, address?, hi, hfound])
  | some segment => exact tends_map.mpr (huse n _ hn (cell?_eq_some_iff.mpr ⟨hi, hfound, rfl⟩))

theorem tends_adjustCount {change : ℤ} {Q : Except Panic Unit → Unwatched H → Memory V → Prop}
    (h : ∀ n, a.Leaves share.slots m n → Q (.ok ()) host n) :
    (adjustCount change : Program V (Unwatched H) Unit).Tends a share Q host m := fun _ hn =>
  ⟨.adjust hn.sound change, h _ (hn.trans (.adjust hn.sound change))⟩

end SlotArray

namespace Cell

theorem tends_load {Q : Except Panic (Option (Occupant V)) → Unwatched H → Memory V → Prop}
    (hc : a.cell? m i = some cell) (hi : share.slots i)
    (h : ∀ n, a.Leaves share.slots m n → Q (.ok (m.content cell)) host n) :
    (cell.load : Program V (Unwatched H) _).Tends a share Q host m := by
  intro n hn
  rw [← hn.content_eq hc hi] at h
  exact ⟨.refl hn.sound, h n hn⟩

theorem tends_retire? {o : Option (Occupant V)}
    {Q : Except Panic Unit → Unwatched H → Memory V → Prop} (hs : a.Sound m)
    (h : ∀ n, a.Leaves share.slots m n → Q (.ok ()) host n) :
    (retire? o : Program V (Unwatched H) Unit).Tends a share Q host m := by
  cases o with
  | none => exact h m (.refl hs)
  | some o => exact fun n hn => ⟨.refl hn.sound, h n hn⟩

/-- An exchange against the content that the cell had is won. -/
theorem tends_exchangeIf {expected : Option (Occupant V)} {new : Option V}
    {Q : Except Panic (Exchange V) → Unwatched H → Memory V → Prop}
    (hc : a.cell? m i = some cell) (hi : share.slots i) (hexpected : m.content cell = expected)
    (h : ∀ n, a.Leaves share.slots m n →
      Q (.ok ⟨true, n.stamped new⟩) host (n.store cell new)) :
    (cell.exchangeIf expected new : Program V (Unwatched H) _).Tends a share Q host m := by
  intro n hn
  have hsame : sameOccupant (n.content cell) expected = true := by
    rw [hn.content_eq hc hi, hexpected, Memory.sameOccupant_self]
  change a.StaysWithin share n (n.exchangeIf cell expected new).2 ∧
    Q (.ok (n.exchangeIf cell expected new).1) host (n.exchangeIf cell expected new).2
  rw [Memory.exchangeIf_of_same new hsame]
  exact ⟨.store hn.sound (cell?_later hn.later hc) hi new, h n hn⟩

theorem tends_replace {new : Option V}
    {Q : Except Panic (Option (Occupant V)) → Unwatched H → Memory V → Prop}
    (hc : a.cell? m i = some cell) (hi : share.slots i)
    (h : ∀ n k, a.Leaves share.slots m n → a.Leaves share.slots (n.store cell new) k →
      Q (.ok (m.content cell)) host k) :
    (cell.replace new : Program V (Unwatched H) _).Tends a share Q host m := by
  rw [replace, tends_bind]
  intro n hn
  have hcell := cell?_later hn.later hc
  refine ⟨.store hn.sound hcell hi new, ?_⟩
  refine tends_bind.mpr (tends_retire? (hn.sound.store hcell new) fun k hk => ?_)
  have hend := h n k hn hk
  rwa [← hn.content_eq hc hi] at hend

/-- An occupant is answered, and nobody is asked for a value. An empty cell is filled with the value
that is made, if that does not panic. -/
theorem tends_fill {make : Program V (Unwatched H) V}
    {Q : Except Panic (Filling V) → Unwatched H → Memory V → Prop}
    (hc : a.cell? m i = some cell) (hi : share.slots i) (hmake : make.HandsOff)
    (hfull : ∀ o n, m.content cell = some o → a.Leaves share.slots m n →
      Q (.ok (.refused (some o.value))) host n)
    (hempty : ∀ n, m.content cell = none → a.Leaves share.slots m n →
      match make.alone host with
      | (.error reason, host) => Q (.error reason) host n
      | (.ok v, host) => Q (.ok (.stored v)) host (n.store cell (some v))) :
    (cell.fill make).Tends a share Q host m := by
  rw [fill, tends_bind]
  refine tends_load hc hi fun n hn => ?_
  cases hcontent : m.content cell with
  | some o => exact hfull o n hcontent hn
  | none =>
    refine tends_bind.mpr (hmake.tends hn.sound fun k hk => ?_)
    have hend := fun l (hl : a.Leaves share.slots k l) =>
      hempty l hcontent ((hn.trans hk).trans hl)
    have hcell := cell?_later (hn.trans hk).later hc
    have hnone : k.content cell = none := by rw [(hn.trans hk).content_eq hc hi, hcontent]
    generalize make.alone host = made at hend ⊢
    rcases made with ⟨(reason | v), after⟩
    · exact hend k (.refl hk.sound)
    · exact tends_bind.mpr (tends_exchangeIf hcell hi hnone hend)

/-- A revision decides about the occupant, and the exchange is won if there is one. -/
theorem tends_revise {accepts : V → Program V (Unwatched H) Bool}
    {change : V → Program V (Unwatched H) (Option V)}
    {Q : Except Panic Attempt → Unwatched H → Memory V → Prop}
    (hc : a.cell? m i = some cell) (hi : share.slots i) (haccepts : ∀ v, (accepts v).HandsOff)
    (hchange : ∀ v, (change v).HandsOff)
    (hempty : ∀ n, m.content cell = none → a.Leaves share.slots m n → Q (.ok .absent) host n)
    (hfull : ∀ o n, m.content cell = some o → a.Leaves share.slots m n →
      match (accepts o.value).alone host with
      | (.error reason, host) => Q (.error reason) host n
      | (.ok false, host) => Q (.ok .rejected) host n
      | (.ok true, host) => match (change o.value).alone host with
        | (.error reason, host) => Q (.error reason) host n
        | (.ok new, host) => ∀ k, a.Leaves share.slots (n.store cell new) k →
          Q (.ok .committed) host k) :
    (cell.revise accepts change).Tends a share Q host m := by
  rw [revise, tends_bind]
  refine tends_load hc hi fun n hn => ?_
  cases hcontent : m.content cell with
  | none => exact hempty n hcontent hn
  | some o =>
    refine tends_bind.mpr ((haccepts o.value).tends hn.sound fun k hk => ?_)
    have hend := fun l (hl : a.Leaves share.slots k l) =>
      hfull o l hcontent ((hn.trans hk).trans hl)
    generalize (accepts o.value).alone host = answered at hend ⊢
    rcases answered with ⟨(reason | (_ | _)), after⟩
    · exact hend k (.refl hk.sound)
    · exact hend k (.refl hk.sound)
    · refine tends_bind.mpr ((hchange o.value).tends hk.sound fun l hl => ?_)
      have hend' := fun l' (hl' : a.Leaves share.slots l l') => hend l' (hl.trans hl')
      have hml : a.Leaves share.slots m l := (hn.trans hk).trans hl
      have hsome : l.content cell = some o := by rw [hml.content_eq hc hi, hcontent]
      dsimp only at hend'
      generalize (change o.value).alone after = made at hend' ⊢
      rcases made with ⟨(reason | new), last⟩
      · exact hend' l (.refl hl.sound)
      · have hcell := cell?_later hml.later hc
        refine tends_bind.mpr (tends_exchangeIf hcell hi hsome fun l' hl' => ?_)
        have hstored := hl'.sound.store (cell?_later hl'.later hcell) new
        exact tends_bind.mpr (tends_retire? hstored (hend' l' hl'))

end Cell

end Rules

/-! Operations on slots of their own. -/

/-- The slots have the contents that a list has in their places. -/
def SlotArray.Shows (a : SlotArray) (slots : UInt64 → Prop) (contents : List (Option V))
    (m : Memory V) : Prop :=
  ∀ i, slots i → (a.slots m)[i.toNat]? = contents[i.toNat]?

namespace SlotArray.Shows

variable {a : SlotArray} {slots : UInt64 → Prop} {contents : List (Option V)} {m n : Memory V}
  {i : UInt64} {cell : Cell}

theorem leaves (h : a.Shows slots contents m) (hl : a.Leaves slots m n) :
    a.Shows slots contents n := by
  intro i hi
  rw [← h i hi, getElem?_slots, getElem?_slots, hl.value?_eq hi]

theorem getElem?_eq (h : a.Shows slots contents m) (hi : slots i) (hlt : i < a.capacity) :
    contents[i.toNat]? = some (a.value? m i) := by
  rw [← h i hi, getElem?_slots, if_pos hlt]

theorem set_of_getElem? (h : a.Shows slots contents m) {j : ℕ} {content : Option V}
    (hj : contents[j]? = some content) : a.Shows slots (contents.set j content) m := by
  obtain ⟨hlt, rfl⟩ := List.getElem?_eq_some_iff.mp hj
  rwa [List.set_getElem_self hlt]

theorem store (h : a.Shows slots contents m) (hs : a.Sound m) (hc : a.cell? m i = some cell)
    (new : Option V) : a.Shows slots (contents.set i.toNat new) (m.store cell new) := by
  intro j hj
  rw [slots_store hs hc, List.getElem?_set', List.getElem?_set', h j hj]

end SlotArray.Shows

namespace SlotOperation

/-- The operation asks for the segment behind an entry, whether its slot is empty or not. -/
def CallsFor (a : SlotArray) (operation : SlotOperation V H) (e : UInt64) : Prop :=
  operation.purpose = .fill ∧ operation.index < a.capacity ∧
    (Address.ofIndex operation.index).entry = e

/-- The operations that are not for filling are those that leave an empty slot as it is. -/
theorem purpose_ne_fill_iff {operation : SlotOperation V H} :
    operation.purpose ≠ .fill ↔ ∃ reply, operation.onContent none = pure (reply, none) := by
  cases operation with
  | getOrFill i make => cases make <;> simp [purpose, onContent]
  | insert | tryInsert | getOrInsert | exchange | set | erase | take | eraseIf | update | get
  | contains => simp [purpose, onContent]

end SlotOperation

/-- A share has the slot of an operation, and every entry for which that calls. -/
structure Share.Covers (share : Share) (a : SlotArray) (operation : SlotOperation V H) : Prop where
  slot : share.slots operation.index
  entries : ∀ e, operation.CallsFor a e → share.entries e

namespace SlotOperation

/-- The operation ends as it ends on a list of contents, the slots show what is then in the list,
and there are the segments for which the operation calls. -/
def Played (a : SlotArray) (share : Share) (operation : SlotOperation V (Unwatched H))
    (contents : List (Option V)) (host : Unwatched H) (answer : Except Panic (Reply V))
    (after : Unwatched H) (n : Memory V) : Prop :=
  ∃ new, operation.step contents host = (answer, new, after) ∧ a.Shows share.slots new n ∧
    ∀ e, operation.CallsFor a e → (n.segmentAt e).isSome = true

variable {a : SlotArray} {share : Share} {operation : SlotOperation V (Unwatched H)}
  {contents : List (Option V)} {host : Unwatched H} {m n : Memory V} {cell : Cell}

theorem Played.leaves {answer : Except Panic (Reply V)} {after : Unwatched H}
    (h : operation.Played a share contents host answer after m)
    (hl : a.Leaves share.slots m n) : operation.Played a share contents host answer after n := by
  obtain ⟨new, hstep, hshows, hcalled⟩ := h
  exact ⟨new, hstep, hshows.leaves hl, fun e he => hl.later.isSome_segmentAt (hcalled e he)⟩

/-- Whoever has the cell of the slot has all the segments that the operation calls for. -/
theorem isSome_segmentAt_of_cell? (hc : a.cell? m operation.index = some cell) {e : UInt64}
    (h : operation.CallsFor a e) : (m.segmentAt e).isSome = true := by
  obtain ⟨-, -, rfl⟩ := h
  rw [(cell?_eq_some_iff.mp hc).2.1]
  rfl

theorem getElem?_of_cell? (hc : a.cell? m operation.index = some cell)
    (hcovers : share.Covers a operation) (hshows : a.Shows share.slots contents m) :
    contents[operation.index.toNat]? = some ((m.content cell).map Occupant.value) := by
  rw [hshows.getElem?_eq hcovers.slot (cell?_eq_some_iff.mp hc).1, value?_of_cell? hc]

/-- An operation that finds no segment leaves its slot as empty as it is. -/
theorem played_of_missing (hc : a.cell? m operation.index = none)
    (hi : operation.index < a.capacity) (hcovers : share.Covers a operation)
    (hshows : a.Shows share.slots contents m) {reply : Reply V}
    (h : operation.onContent none = pure (reply, none)) :
    operation.Played a share contents host (.ok reply) host m := by
  have hget : contents[operation.index.toNat]? = some none := by
    rw [hshows.getElem?_eq hcovers.slot hi, value?_of_cell?_eq_none hc]
  refine ⟨_, step_of_pure hget h host, hshows.set_of_getElem? hget, fun e he => ?_⟩
  exact absurd he.1 (purpose_ne_fill_iff.mpr ⟨reply, h⟩)

/-- An operation that leaves a content as it is, with the answer that goes with it. -/
theorem played_of_keep (hc : a.cell? m operation.index = some cell)
    (hcovers : share.Covers a operation) (hshows : a.Shows share.slots contents m)
    {content : Option V} (hcontent : (m.content cell).map Occupant.value = content)
    {reply : Reply V} (h : operation.onContent content = pure (reply, content)) :
    operation.Played a share contents host (.ok reply) host m := by
  have hget := getElem?_of_cell? hc hcovers hshows
  rw [hcontent] at hget
  exact ⟨_, step_of_pure hget h host, hshows.set_of_getElem? hget,
    fun _ => isSome_segmentAt_of_cell? hc⟩

/-- An operation that has stored, with the answer that goes with it. -/
theorem played_of_store (hs : a.Sound m) (hc : a.cell? m operation.index = some cell)
    (hshows : a.Shows share.slots contents m) {new : Option V} {answer : Except Panic (Reply V)}
    {after : Unwatched H}
    (h : operation.step contents host = (answer, contents.set operation.index.toNat new, after)) :
    operation.Played a share contents host answer after (m.store cell new) :=
  ⟨_, h, hshows.store hs hc new,
    fun _ => isSome_segmentAt_of_cell? (by rwa [cell?_store])⟩

/-- An operation whose callback has panicked. -/
theorem played_of_panic (hc : a.cell? m operation.index = some cell)
    (hshows : a.Shows share.slots contents m) {reason : Panic} {after : Unwatched H}
    (h : operation.step contents host = (.error reason, contents, after)) :
    operation.Played a share contents host (.error reason) after m :=
  ⟨_, h, hshows, fun _ => isSome_segmentAt_of_cell? hc⟩

section Ways

variable (hi : operation.index < a.capacity) (hcovers : share.Covers a operation)
  (hshows : a.Shows share.slots contents m)

include hi hcovers hshows

theorem tends_of_fill (ho : operation.HandsOff) {make : Program V (Unwatched H) V}
    {reply : Filling V → Reply V}
    (hp : operation.program a = reply <$> a.fill operation.index make)
    (hsome : ∀ w, operation.onContent (some w) = pure (reply (.refused (some w)), some w))
    (hnone : operation.onContent none = make >>= fun v => pure (reply (.stored v), some v))
    (hmake : make.HandsOff) :
    (operation.program a).Tends a share (operation.Played a share contents host) host m := by
  have hpurpose : operation.purpose = .fill := by
    by_contra hne
    obtain ⟨other, hother⟩ := purpose_ne_fill_iff.mp hne
    rw [hnone] at hother
    cases make <;> simp at hother
  rw [hp, tends_map, SlotArray.fill, tends_bind]
  refine tends_access_fill hi (hcovers.entries _ ⟨hpurpose, hi, rfl⟩) fun n cell hn hc => ?_
  have hshows := hshows.leaves hn
  refine Cell.tends_fill hc hcovers.slot hmake ?_ ?_
  · intro o k ho hk
    have hkeep : operation.Played a share contents host _ host n :=
      played_of_keep hc hcovers hshows (congrArg _ ho) (hsome o.value)
    exact hkeep.leaves hk
  · intro k hempty hk
    have hget := getElem?_of_cell? hc hcovers hshows
    rw [hempty, Option.map_none] at hget
    have hstep := step_of_some ho hget host
    rw [hnone, alone_bind hmake] at hstep
    have hck := cell?_later hk.later hc
    generalize make.alone host = made at hstep ⊢
    rcases made with ⟨(reason | v), after⟩
    · exact played_of_panic hck (hshows.leaves hk) hstep
    · refine tends_bind.mpr (tends_adjustCount fun l hl => ?_)
      exact (played_of_store hk.sound hck (hshows.leaves hk) hstep).leaves hl

theorem tends_of_swap {v : V} {reply : Option (Option V) → Reply V}
    (hp : operation.program a = reply <$> a.swap operation.index v)
    (hcontent : ∀ content, operation.onContent content = pure (reply (some content), some v)) :
    (operation.program a).Tends a share (operation.Played a share contents host) host m := by
  have hpurpose : operation.purpose = .fill := by
    by_contra hne
    obtain ⟨other, hother⟩ := purpose_ne_fill_iff.mp hne
    rw [hcontent] at hother
    simp at hother
  rw [hp, tends_map, SlotArray.swap, tends_bind]
  refine tends_access_fill hi (hcovers.entries _ ⟨hpurpose, hi, rfl⟩) fun n cell hn hc => ?_
  refine Cell.tends_replace hc hcovers.slot fun k l hk hl => ?_
  have hget := getElem?_of_cell? hc hcovers (hshows.leaves hn)
  have hplayed := (played_of_store hk.sound (cell?_later hk.later hc)
    (hshows.leaves (hn.trans hk)) (step_of_pure hget (hcontent _) host)).leaves hl
  cases hold : n.content cell with
  | some o => rwa [hold] at hplayed
  | none =>
    rw [hold] at hplayed
    exact tends_bind.mpr (tends_adjustCount fun l' hl' => hplayed.leaves hl')

theorem tends_of_take {reply : Option V → Reply V}
    (hp : operation.program a = reply <$> a.take operation.index)
    (hcontent : ∀ content, operation.onContent content = pure (reply content, none)) :
    (operation.program a).Tends a share (operation.Played a share contents host) host m := by
  rw [hp, tends_map, SlotArray.take, tends_bind]
  refine tends_access (by decide) hi ?_ fun n cell hn hc => ?_
  · intro n hn hc
    exact played_of_missing hc hi hcovers (hshows.leaves hn) (hcontent none)
  · refine Cell.tends_replace hc hcovers.slot fun k l hk hl => ?_
    have hget := getElem?_of_cell? hc hcovers (hshows.leaves hn)
    have hplayed := (played_of_store hk.sound (cell?_later hk.later hc)
      (hshows.leaves (hn.trans hk)) (step_of_pure hget (hcontent _) host)).leaves hl
    cases hold : n.content cell with
    | none => rwa [hold] at hplayed
    | some o =>
      rw [hold] at hplayed
      exact tends_bind.mpr (tends_adjustCount fun l' hl' => hplayed.leaves hl')

theorem tends_of_look {reply : Option V → Reply V}
    (hp : operation.program a = reply <$> a.get? operation.index)
    (hcontent : ∀ content, operation.onContent content = pure (reply content, content)) :
    (operation.program a).Tends a share (operation.Played a share contents host) host m := by
  rw [hp, tends_map, SlotArray.get?, tends_bind]
  refine tends_access (by decide) hi ?_ fun n cell hn hc => ?_
  · intro n hn hc
    exact played_of_missing hc hi hcovers (hshows.leaves hn) (hcontent none)
  · refine Cell.tends_load hc hcovers.slot fun k hk => ?_
    have hkeep : operation.Played a share contents host _ host n :=
      played_of_keep hc hcovers (hshows.leaves hn) rfl (hcontent _)
    exact hkeep.leaves hk

end Ways

/-- A conditional operation on a cell: what its predicate and its change make of the occupant is
what happens, since the exchange cannot be lost. -/
theorem tends_revise (ho : operation.HandsOff) (hc : a.cell? m operation.index = some cell)
    (hcovers : share.Covers a operation) (hshows : a.Shows share.slots contents m)
    {accepts : V → Program V (Unwatched H) Bool}
    {change : V → Program V (Unwatched H) (Option V)} {reply : Attempt → Reply V}
    (ha : ∀ w, (accepts w).HandsOff) (hchange : ∀ w, (change w).HandsOff)
    (hsome : ∀ w, operation.onContent (some w) = accepts w >>= fun yes =>
      if yes then change w >>= fun new => pure (reply .committed, new)
      else pure (reply .rejected, some w))
    (hnone : operation.onContent none = pure (reply .absent, none)) :
    (cell.revise accepts change).Tends a share
      (fun r => operation.Played a share contents host (reply <$> r)) host m := by
  refine Cell.tends_revise hc hcovers.slot ha hchange ?_ ?_
  · intro n hempty hn
    have hkeep : operation.Played a share contents host _ host m :=
      played_of_keep hc hcovers hshows (congrArg _ hempty) hnone
    exact hkeep.leaves hn
  · intro o n hfull hn
    have hget := getElem?_of_cell? hc hcovers hshows
    rw [hfull, Option.map_some] at hget
    have hstep := step_of_some ho hget host
    rw [hsome, alone_bind (ha _)] at hstep
    have hcn := cell?_later hn.later hc
    have hshows := hshows.leaves hn
    generalize (accepts o.value).alone host = answered at hstep ⊢
    rcases answered with ⟨(reason | (_ | _)), after⟩
    · exact played_of_panic hcn hshows hstep
    · exact ⟨_, hstep, hshows.set_of_getElem? hget, fun _ => isSome_segmentAt_of_cell? hcn⟩
    · simp only [if_true, alone_bind (hchange _)] at hstep
      dsimp only
      generalize (change o.value).alone after = made at hstep ⊢
      rcases made with ⟨(reason | new), last⟩
      · exact played_of_panic hcn hshows hstep
      · exact fun k hk => (played_of_store hn.sound hcn hshows hstep).leaves hk

theorem tends_eraseIf {i : UInt64} {accepts : V → Program V (Unwatched H) Bool}
    (ha : ∀ w, (accepts w).HandsOff) (hi : i < a.capacity)
    (hcovers : share.Covers a (eraseIf i accepts)) (hshows : a.Shows share.slots contents m) :
    ((eraseIf i accepts).program a).Tends a share
      ((eraseIf i accepts).Played a share contents host) host m := by
  have ho : (eraseIf i accepts).HandsOff := ha
  rw [program, tends_map, SlotArray.eraseIf, tends_bind]
  refine tends_access (by decide) hi ?_ fun n cell hn hc => ?_
  · intro n hn hc
    have hmissing : (eraseIf i accepts).Played a share contents host _ host n :=
      played_of_missing hc (by exact hi) hcovers (hshows.leaves hn) rfl
    exact hmissing
  · have hchange : ∀ _ : V, (pure none : Program V (Unwatched H) (Option V)).HandsOff :=
      fun _ => trivial
    have hrevise : (cell.revise accepts fun _ => pure none).Tends a share (fun r =>
        (eraseIf i accepts).Played a share contents host ((.flag ∘ Attempt.isCommitted) <$> r))
        host n :=
      tends_revise ho hc hcovers (hshows.leaves hn) ha hchange (fun _ => rfl) rfl
    refine hrevise.mono ?_
    rintro (reason | attempt) after k _ hplayed
    · exact hplayed
    cases attempt with
    | committed => exact tends_bind.mpr (tends_adjustCount fun l hl => hplayed.leaves hl)
    | absent | rejected | replaced | vacated => exact hplayed

theorem tends_update {i : UInt64} {factory : V → Program V (Unwatched H) V}
    {accepts : V → Program V (Unwatched H) Bool} (hf : ∀ w, (factory w).HandsOff)
    (ha : ∀ w, (accepts w).HandsOff) (hi : i < a.capacity)
    (hcovers : share.Covers a (update i factory accepts))
    (hshows : a.Shows share.slots contents m) :
    ((update i factory accepts).program a).Tends a share
      ((update i factory accepts).Played a share contents host) host m := by
  have ho : (update i factory accepts).HandsOff := ⟨hf, ha⟩
  rw [program, tends_map, SlotArray.update, tends_map]
  refine tends_access (by decide) hi ?_ fun n cell hn hc => ?_
  · intro n hn hc
    have hmissing : (update i factory accepts).Played a share contents host _ host n :=
      played_of_missing hc (by exact hi) hcovers (hshows.leaves hn) rfl
    exact hmissing
  · have hchange : ∀ w, (some <$> factory w).HandsOff := fun w => (hf w).bind fun _ => trivial
    have hsome : ∀ w, (update i factory accepts).onContent (some w) = accepts w >>= fun yes =>
        if yes then some <$> factory w >>= fun new => pure (.outcome .updated, new)
        else pure (.outcome .declined, some w) := by
      intro w
      simp only [bind_map_left]
      rfl
    have hrevise : (cell.revise accepts fun w => some <$> factory w).Tends a share (fun r =>
        (update i factory accepts).Played a share contents host
          ((.outcome ∘ UpdateOutcome.ofAttempt) <$> r)) host n :=
      tends_revise ho hc hcovers (hshows.leaves hn) ha hchange hsome rfl
    refine hrevise.mono ?_
    rintro (reason | attempt) after k _ hplayed <;> exact hplayed

/-- Whatever the others do in their slots, an operation on a slot of its own does what it does on a
list of contents. -/
theorem HandsOff.tends (h : operation.HandsOff) (hcovers : share.Covers a operation)
    (hshows : a.Shows share.slots contents m) :
    (operation.program a).Tends a share (operation.Played a share contents host) host m := by
  by_cases hi : operation.index < a.capacity
  · rcases operation.kind a with ⟨make, reply, hp, hsome, hnone, -, hmake⟩ |
      ⟨v, reply, hp, hcontent, -⟩ | ⟨reply, hp, hcontent, -⟩ | ⟨reply, hp, hcontent, -⟩ |
      ⟨i, accepts, rfl⟩ | ⟨i, factory, accepts, rfl⟩
    · exact tends_of_fill hi hcovers hshows h hp hsome hnone (hmake h)
    · exact tends_of_swap hi hcovers hshows hp hcontent
    · exact tends_of_take hi hcovers hshows hp hcontent
    · exact tends_of_look hi hcovers hshows hp hcontent
    · exact tends_eraseIf h hi hcovers hshows
    · exact tends_update h.1 h.2 hi hcovers hshows
  · rw [program_of_le (UInt64.not_lt.mp hi)]
    have hget : contents[operation.index.toNat]? = none := by
      rw [← hshows _ hcovers.slot, getElem?_slots, if_neg hi]
    exact ⟨contents, step_of_none hget host, hshows, fun e he => absurd he.2.1 hi⟩

end SlotOperation

end AtomicSlots
