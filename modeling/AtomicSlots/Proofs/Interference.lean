import AtomicSlots.Proofs.Slots
import AtomicSlots.SlotArray.Basic
import AtomicSlots.Threads.Pool

/-!
# Programs among other programs

Between two actions of a program, other threads may act. A protocol gives the program a state of
its own and says how each action may move it; a program follows a protocol if all its actions do,
whatever the others have done to the memory in the meantime. What others can do is bounded: the
memory stays sound and only becomes later. Following is a predicate transformer on programs, with
one rule for each way in which programs are built, and one rule for each kind of access to a slot.
-/
namespace AtomicSlots

variable {V H α β G : Type}

namespace SlotArray

/-- Exchanges and swaps are for cells that belong to slots. -/
def Admits (a : SlotArray) (m : Memory V) : Action V H → Prop
  | .exchangeIf cell _ _ | .swap cell _ => ∃ i, a.cell? m i = some cell
  | _ => True

/-- What one action does to the invariant: it keeps it, and the memory becomes later. -/
theorem Sound.perform [Journal H] {a : SlotArray} {s : Session V H} (h : a.Sound s.memory)
    {act : Action V H} (hact : a.Admits s.memory act) :
    a.Sound (act.perform s).2.memory ∧ s.memory.Later (act.perform s).2.memory := by
  cases act with
  | loadEntry e => exact ⟨h, .refl _⟩
  | publish e => exact ⟨h.publish e, s.memory.later_publish e⟩
  | load cell => exact ⟨h, .refl _⟩
  | exchangeIf cell expected new =>
    obtain ⟨i, hi⟩ := hact
    change a.Sound (s.memory.exchangeIf cell expected new).2 ∧
      s.memory.Later (s.memory.exchangeIf cell expected new).2
    cases hs : sameOccupant (s.memory.content cell) expected with
    | true =>
      rw [Memory.exchangeIf_of_same new hs]
      exact ⟨h.store hi new, Memory.later_store (h.hasCell hi) new⟩
    | false =>
      rw [Memory.exchangeIf_of_not_same new hs]
      exact ⟨h, .refl _⟩
  | swap cell new =>
    obtain ⟨i, hi⟩ := hact
    exact ⟨h.store hi new, Memory.later_store (h.hasCell hi) new⟩
  | retire o => exact ⟨h, .refl _⟩
  | adjust change => exact ⟨h.adjust change, fun _ _ hs => hs, le_rfl, fun _ _ ho _ => ho⟩
  | readSize => exact ⟨h, .refl _⟩
  | emit event => exact ⟨h, .refl _⟩
  | readHost => exact ⟨h, .refl _⟩
  | changeHost change => exact ⟨h, .refl _⟩

end SlotArray

/-- How the state of a program may move when an action takes one memory to another. -/
abbrev Protocol (V H G : Type) := G → Action V H → Memory V → Memory V → G → Prop

namespace Program

variable [Journal H] {a : SlotArray} {R : Protocol V H G}

/-- From a state and a memory on, the program moves along a protocol until it ends as `Q` asks. -/
def Follows (a : SlotArray) (R : Protocol V H G) (Q : Except Panic α → G → Memory V → Prop) :
    Program V H α → G → Memory V → Prop
  | done x, g, m => Q (.ok x) g m
  | panic reason, g, m => Q (.error reason) g m
  | step act next, g, m => ∀ s : Session V H, m.Later s.memory → a.Sound s.memory →
      a.Admits s.memory act ∧ ∃ g', R g act s.memory (act.perform s).2.memory g' ∧
        Follows a R Q (next (act.perform s).1) g' (act.perform s).2.memory

variable {Q Q' : Except Panic α → G → Memory V → Prop} {g : G} {m : Memory V}

@[simp] theorem follows_done {x : α} :
    (done x : Program V H α).Follows a R Q g m ↔ Q (.ok x) g m := Iff.rfl

@[simp] theorem follows_panic {reason : Panic} :
    (panic reason : Program V H α).Follows a R Q g m ↔ Q (.error reason) g m := Iff.rfl

/-- What an end leads to: an answer goes on, and a panic passes through. -/
def andThen (Q : Except Panic β → G → Memory V → Prop) (next : α → G → Memory V → Prop) :
    Except Panic α → G → Memory V → Prop
  | .ok x, g, m => next x g m
  | .error reason, g, m => Q (.error reason) g m

theorem follows_bind {p : Program V H α} {f : α → Program V H β}
    {Q : Except Panic β → G → Memory V → Prop} :
    (p >>= f).Follows a R Q g m ↔ p.Follows a R (andThen Q fun x => (f x).Follows a R Q) g m := by
  induction p generalizing g m with
  | done x => exact Iff.rfl
  | panic reason => exact Iff.rfl
  | step act next ih => simp only [step_bind, Follows, ih]

theorem follows_map {p : Program V H α} {f : α → β}
    {Q : Except Panic β → G → Memory V → Prop} :
    (f <$> p).Follows a R Q g m ↔ p.Follows a R (fun r => Q (f <$> r)) g m := by
  have hQ : andThen Q (fun x => (done (f x) : Program V H β).Follows a R Q) =
      fun r => Q (f <$> r) := by
    funext r
    cases r <;> rfl
  rw [← hQ, ← follows_bind]
  rfl

@[simp] theorem follows_perform {act : Action V H}
    {Q : Except Panic act.Result → G → Memory V → Prop} :
    (perform act).Follows a R Q g m ↔ ∀ s : Session V H, m.Later s.memory → a.Sound s.memory →
      a.Admits s.memory act ∧ ∃ g', R g act s.memory (act.perform s).2.memory g' ∧
        Q (.ok (act.perform s).1) g' (act.perform s).2.memory := Iff.rfl

theorem Follows.mono {p : Program V H α} (h : p.Follows a R Q g m)
    (hQ : ∀ r g' n, m.Later n → Q r g' n → Q' r g' n) : p.Follows a R Q' g m := by
  induction p generalizing g m with
  | done x => exact hQ _ g m (.refl m) h
  | panic reason => exact hQ _ g m (.refl m) h
  | step act next ih =>
    intro s hl hs
    obtain ⟨hact, g', hR, hnext⟩ := h s hl hs
    refine ⟨hact, g', hR, ih _ hnext fun r g'' n hn => hQ r g'' n ?_⟩
    exact (hl.trans (hs.perform hact).2).trans hn

/-- What was true of a memory stays true of later ones, if the end does not look at the memory. -/
theorem Follows.later {Q : Except Panic α → G → Prop} {p : Program V H α} {n : Memory V}
    (h : p.Follows a R (fun r g _ => Q r g) g m) (hn : m.Later n) :
    p.Follows a R (fun r g _ => Q r g) g n := by
  cases p with
  | done x => exact h
  | panic reason => exact h
  | step act next => exact fun s hl hs => h s (hn.trans hl) hs

/-- Alone, the program comes to an end that `Q` allows, with an invariant that all moves keep. -/
theorem Follows.run {I : G → Memory V → Prop} {p : Program V H α} {s : Session V H}
    (h : p.Follows a R Q g s.memory) (hs : a.Sound s.memory) (hI : I g s.memory)
    (hmove : ∀ (t : Session V H) act g g', a.Sound t.memory → a.Admits t.memory act →
      R g act t.memory (act.perform t).2.memory g' → I g t.memory →
        I g' (act.perform t).2.memory) :
    a.Sound (p.run s).2.memory ∧
      ∃ g', Q (p.run s).1 g' (p.run s).2.memory ∧ I g' (p.run s).2.memory := by
  induction p generalizing g s with
  | done x => exact ⟨hs, g, h, hI⟩
  | panic reason => exact ⟨hs, g, h, hI⟩
  | step act next ih =>
    obtain ⟨hact, g', hR, hnext⟩ := h s (.refl _) hs
    exact ih _ hnext (hs.perform hact).1 (hmove s act g g' hs hact hR hI)

end Program

/-- A state that does not move while a program looks for the cell of a slot. -/
structure Protocol.Idle (a : SlotArray) (R : Protocol V H G) (g : G) : Prop where
  loadEntry : ∀ e m, R g (.loadEntry e) m m g
  publish : ∀ e m, a.Sound m → R g (.publish e) m (m.publish e).2 g
  emit : ∀ event m, R g (.emit event) m m g

namespace SlotArray

open Program

variable [Journal H] {a : SlotArray} {R : Protocol V H G} {g : G} {m : Memory V} {i : UInt64}
  {use : Cell → Program V H α} {Q : Except Panic (Option α) → G → Memory V → Prop}

/-- The segment that an access for filling comes to belongs to the slot for good. -/
theorem follows_segmentOrFresh {e : UInt64} {Q : Except Panic ℕ → G → Memory V → Prop}
    (hidle : R.Idle a g) (he : ∀ n : Memory V, a.Sound n → e.toNat < n.table.size)
    (hQ : ∀ n s, m.Later n → a.Sound n → n.segmentAt e = some s → Q (.ok s) g n) :
    (segmentOrFresh e).Follows a R Q g m := by
  rw [segmentOrFresh, follows_bind]
  intro s hl hs
  refine ⟨trivial, g, hidle.loadEntry e s.memory, ?_⟩
  change andThen Q _ (.ok (s.memory.segmentAt e)) g s.memory
  cases hn : s.memory.segmentAt e with
  | some segment => exact hQ s.memory segment hl hs hn
  | none =>
    apply follows_bind.mpr
    intro t hlt ht
    have hl' := (hl.trans hlt).trans (t.memory.later_publish e)
    refine ⟨trivial, g, hidle.publish e t.memory ht, ?_⟩
    change andThen Q _ (.ok (t.memory.publish e).1) g (t.memory.publish e).2
    cases hf : t.memory.segmentAt e with
    | some segment =>
      simp only [andThen, t.memory.found_publish, hf]
      apply follows_bind.mpr
      intro u hlu hu
      refine ⟨trivial, g, hidle.emit _ u.memory, ?_⟩
      exact hQ u.memory segment (hl'.trans hlu) hu
        (hlu.segmentAt_eq _ _ ((t.memory.later_publish e).segmentAt_eq _ _ hf))
    | none =>
      simp only [andThen, t.memory.found_publish, hf]
      apply follows_bind.mpr
      intro u hlu hu
      refine ⟨trivial, g, hidle.emit _ u.memory, ?_⟩
      apply hQ u.memory _ (hl'.trans hlu) hu
      rw [t.memory.fresh_publish]
      exact hlu.segmentAt_eq _ _ (t.memory.segmentAt_publish_self (he _ ht) hf)

/-- An access for filling ends at once outside the array, and comes to the slot's cell inside. -/
theorem follows_access_fill (hidle : R.Idle a g) (hout : a.capacity ≤ i → Q (.ok none) g m)
    (huse : ∀ n cell, m.Later n → a.Sound n → a.cell? n i = some cell →
      (use cell).Follows a R (fun r => Q (some <$> r)) g n) :
    (a.access .fill i use).Follows a R Q g m := by
  by_cases hi : i < a.capacity
  · rw [access_fill_of_lt hi, follows_bind]
    apply follows_segmentOrFresh hidle fun n hn => hn.entry_lt hi
    intro n s hl hn hs
    apply follows_map.mpr
    exact huse n ⟨s, (Address.ofIndex i).offset⟩ hl hn (cell?_eq_some_iff.mpr ⟨hi, hs, rfl⟩)
  · rw [access_of_le (UInt64.not_lt.mp hi)]
    exact hout (UInt64.not_lt.mp hi)

/-- Any other access ends also when it finds that the slot has no cell. -/
theorem follows_access {purpose : Access} (hp : purpose ≠ .fill)
    (hload : ∀ e n, R g (.loadEntry e) n n g) (hout : a.capacity ≤ i → Q (.ok none) g m)
    (hmissing : ∀ n, m.Later n → a.Sound n → i < a.capacity → a.cell? n i = none →
      ∃ g', R g (.loadEntry (Address.ofIndex i).entry) n n g' ∧ Q (.ok none) g' n)
    (huse : ∀ n cell, m.Later n → a.Sound n → a.cell? n i = some cell →
      (use cell).Follows a R (fun r => Q (some <$> r)) g n) :
    (a.access purpose i use).Follows a R Q g m := by
  by_cases hi : i < a.capacity
  · rw [access_of_lt hi hp, follows_bind]
    intro s hl hs
    cases hn : s.memory.segmentAt (Address.ofIndex i).entry with
    | none =>
      have hcell : a.cell? s.memory i = none := by simp [cell?, address?, hi, hn]
      obtain ⟨g', hR, hQ⟩ := hmissing s.memory hl hs hi hcell
      refine ⟨trivial, g', hR, ?_⟩
      change andThen Q _ (.ok (s.memory.segmentAt (Address.ofIndex i).entry)) g' s.memory
      rw [hn]
      exact hQ
    | some segment =>
      refine ⟨trivial, g, hload _ s.memory, ?_⟩
      change andThen Q _ (.ok (s.memory.segmentAt (Address.ofIndex i).entry)) g s.memory
      rw [hn]
      apply follows_map.mpr
      exact huse s.memory ⟨segment, (Address.ofIndex i).offset⟩ hl hs
        (cell?_eq_some_iff.mpr ⟨hi, hn, rfl⟩)
  · rw [access_of_le (UInt64.not_lt.mp hi)]
    exact hout (UInt64.not_lt.mp hi)

end SlotArray

namespace Cell

open Program SlotArray

variable [Journal H] {a : SlotArray} {R : Protocol V H G} {g : G} {m : Memory V} {cell : Cell}

theorem follows_load {Q : Except Panic (Option (Occupant V)) → G → Memory V → Prop}
    (h : ∀ n, m.Later n → a.Sound n → ∃ g', R g (.load cell) n n g' ∧
      Q (.ok (n.content cell)) g' n) : (cell.load : Program V H _).Follows a R Q g m :=
  fun s hl hs => ⟨trivial, h s.memory hl hs⟩

theorem follows_retire {o : Occupant V} {Q : Except Panic Unit → G → Memory V → Prop}
    (h : ∀ n, m.Later n → a.Sound n → ∃ g', R g (.retire o) n n g' ∧ Q (.ok ()) g' n) :
    (retire? (some o) : Program V H Unit).Follows a R Q g m :=
  fun s hl hs => ⟨trivial, h s.memory hl hs⟩

theorem follows_exchangeIf {expected : Option (Occupant V)} {new : Option V}
    {Q : Except Panic (Exchange V) → G → Memory V → Prop} (hc : ∃ i, a.cell? m i = some cell)
    (hwon : ∀ n, m.Later n → a.Sound n → sameOccupant (n.content cell) expected = true →
      ∃ g', R g (.exchangeIf cell expected new) n (n.store cell new) g' ∧
        Q (.ok ⟨true, n.stamped new⟩) g' (n.store cell new))
    (hlost : ∀ n, m.Later n → a.Sound n → sameOccupant (n.content cell) expected = false →
      ∃ g', R g (.exchangeIf cell expected new) n n g' ∧ Q (.ok ⟨false, n.content cell⟩) g' n) :
    (cell.exchangeIf expected new : Program V H _).Follows a R Q g m := by
  intro s hl hs
  obtain ⟨i, hi⟩ := hc
  refine ⟨⟨i, cell?_later hl hi⟩, ?_⟩
  change ∃ g', R g _ s.memory (s.memory.exchangeIf cell expected new).2 g' ∧
    Q (.ok (s.memory.exchangeIf cell expected new).1) g' (s.memory.exchangeIf cell expected new).2
  cases hsame : sameOccupant (s.memory.content cell) expected with
  | true =>
    rw [Memory.exchangeIf_of_same new hsame]
    exact hwon s.memory hl hs hsame
  | false =>
    rw [Memory.exchangeIf_of_not_same new hsame]
    exact hlost s.memory hl hs hsame

/-- A fill ends with the occupant that it finds at first, or asks for a value, and then stores it or
ends with the occupant that it finds instead. -/
theorem follows_fill {make : Program V H V} {Q : Except Panic (Filling V) → G → Memory V → Prop}
    (hc : ∃ i, a.cell? m i = some cell)
    (hfull : ∀ n o, m.Later n → a.Sound n → n.content cell = some o →
      ∃ g', R g (.load cell) n n g' ∧ Q (.ok (.refused (some o.value))) g' n)
    (hempty : ∀ n, m.Later n → a.Sound n → n.content cell = none →
      ∃ g', R g (.load cell) n n g' ∧ make.Follows a R (andThen Q fun v g n => ∀ k, n.Later k →
        a.Sound k →
        (k.content cell = none → ∃ g', R g (.exchangeIf cell none (some v)) k
          (k.store cell (some v)) g' ∧ Q (.ok (.stored v)) g' (k.store cell (some v))) ∧
        ∀ o, k.content cell = some o → ∃ g', R g (.exchangeIf cell none (some v)) k k g' ∧
          Q (.ok (.refused (some o.value))) g' k) g' n) :
    (cell.fill make).Follows a R Q g m := by
  rw [fill, follows_bind]
  apply follows_load
  intro n hl hn
  cases ho : n.content cell with
  | some o => exact hfull n o hl hn ho
  | none =>
    obtain ⟨g', hR, hmake⟩ := hempty n hl hn ho
    refine ⟨g', hR, follows_bind.mpr (hmake.mono ?_)⟩
    rintro (reason | v) g₁ n₁ hl₁ hend
    · exact hend
    obtain ⟨i, hi⟩ := hc
    apply follows_bind.mpr
    refine follows_exchangeIf ⟨i, cell?_later (hl.trans hl₁) hi⟩ ?_ ?_
    · intro k hlk hk hsame
      exact (hend k hlk hk).1 ((Memory.sameOccupant_none _).mp hsame)
    · intro k hlk hk hsame
      cases hp : k.content cell with
      | none => simp [hp] at hsame
      | some p => exact (hend k hlk hk).2 p hp

theorem follows_replace {new : Option V}
    {Q : Except Panic (Option (Occupant V)) → G → Memory V → Prop}
    (hc : ∃ i, a.cell? m i = some cell)
    (h : ∀ n, m.Later n → a.Sound n → ∃ g', R g (.swap cell new) n (n.store cell new) g' ∧
      (n.content cell = none → Q (.ok none) g' (n.store cell new)) ∧
      ∀ o, n.content cell = some o → ∀ k, (n.store cell new).Later k → a.Sound k →
        ∃ g'', R g' (.retire o) k k g'' ∧ Q (.ok (some o)) g'' k) :
    (cell.replace new : Program V H _).Follows a R Q g m := by
  rw [replace, follows_bind]
  intro s hl hs
  obtain ⟨i, hi⟩ := hc
  refine ⟨⟨i, cell?_later hl hi⟩, ?_⟩
  obtain ⟨g', hR, hnone, hsome⟩ := h s.memory hl hs
  refine ⟨g', hR, ?_⟩
  change Follows a R Q (retire? (s.memory.content cell) >>= fun _ => done (s.memory.content cell))
    g' (s.memory.store cell new)
  cases ho : s.memory.content cell with
  | none => exact hnone ho
  | some o => exact follows_bind.mpr (follows_retire (hsome o ho))

/-- A revision is one attempt on the very occupant that was loaded. -/
theorem follows_revise {accepts : V → Program V H Bool} {change : V → Program V H (Option V)}
    {Q : Except Panic Attempt → G → Memory V → Prop} (hc : ∃ i, a.cell? m i = some cell)
    (hempty : ∀ n, m.Later n → a.Sound n → n.content cell = none →
      ∃ g', R g (.load cell) n n g' ∧ Q (.ok .absent) g' n)
    (hfull : ∀ n o, m.Later n → a.Sound n → n.content cell = some o →
      ∃ g', R g (.load cell) n n g' ∧ (accepts o.value).Follows a R (andThen Q fun yes g n =>
        if yes then (change o.value).Follows a R (andThen Q fun new g n => ∀ k, n.Later k →
          a.Sound k →
          (k.content cell = some o → ∃ g', R g (.exchangeIf cell (some o) new) k
            (k.store cell new) g' ∧ ∀ l, (k.store cell new).Later l → a.Sound l →
              ∃ g'', R g' (.retire o) l l g'' ∧ Q (.ok .committed) g'' l) ∧
          (k.content cell = none → ∃ g', R g (.exchangeIf cell (some o) new) k k g' ∧
            Q (.ok .vacated) g' k) ∧
          ∀ p, k.content cell = some p → p.stamp ≠ o.stamp →
            ∃ g', R g (.exchangeIf cell (some o) new) k k g' ∧ Q (.ok .replaced) g' k) g n
        else Q (.ok .rejected) g n) g' n) :
    (cell.revise accepts change).Follows a R Q g m := by
  rw [revise, follows_bind]
  apply follows_load
  intro n hl hn
  cases ho : n.content cell with
  | none => exact hempty n hl hn ho
  | some o =>
    obtain ⟨g₁, hR, haccepts⟩ := hfull n o hl hn ho
    refine ⟨g₁, hR, follows_bind.mpr (haccepts.mono ?_)⟩
    rintro (reason | yes) g₂ n₂ hl₂ hend
    · exact hend
    cases yes with
    | false => exact hend
    | true =>
      apply follows_bind.mpr
      refine Follows.mono hend ?_
      rintro (reason | new) g₃ n₃ hl₃ hend
      · exact hend
      obtain ⟨i, hi⟩ := hc
      apply follows_bind.mpr
      refine follows_exchangeIf ⟨i, cell?_later (hl.trans (hl₂.trans hl₃)) hi⟩ ?_ ?_
      · intro k hlk hk hsame
        have hk' := hn.content_of_sameOccupant ((hl₂.trans hl₃).trans hlk) ho hsame
        obtain ⟨g₄, hR₄, hretire⟩ := (hend k hlk hk).1 hk'
        exact ⟨g₄, hR₄, follows_bind.mpr (follows_retire hretire)⟩
      · intro k hlk hk hsame
        cases hp : k.content cell with
        | none => exact (hend k hlk hk).2.1 hp
        | some p => exact (hend k hlk hk).2.2 p hp (by simpa [hp, sameOccupant] using hsame)

end Cell

end AtomicSlots
