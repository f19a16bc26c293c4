import AtomicSlots.Proofs.Courses
import AtomicSlots.Proofs.Disposal

/-!
# Conditional operations whose callbacks work on the same array

A conditional operation reads a slot, consults its callbacks about the value that it found, and then
makes one exchange against the occupant that had this value. In the meantime the callbacks may do
anything to the array. The exchange takes place if and only if none of their actions has stored into
the slot or emptied it. What the slot holds by then does not decide it: a value that was replaced by
an equal one, or taken out and put back, is another occupant.
-/
namespace AtomicSlots

variable {V H α β : Type}

/-- Whether an action stores into a slot or empties it. -/
def Action.alters (a : SlotArray) (i : UInt64) (m : Memory V) : Action V H → Bool
  | .exchangeIf cell expected new =>
    decide (a.cell? m i = some cell) && sameOccupant (m.content cell) expected &&
      ((m.content cell).isSome || new.isSome)
  | .swap cell new => decide (a.cell? m i = some cell) && ((m.content cell).isSome || new.isSome)
  | _ => false

namespace Program

variable [Journal H] {a : SlotArray} {i : UInt64}

/-- Whether an action of the program, which is run alone, stores into a slot or empties it. -/
def alters (a : SlotArray) (i : UInt64) : Program V H α → Session V H → Bool
  | done _, _ | panic _, _ => false
  | step act next, s =>
    act.alters a i s.memory || (next (act.perform s).1).alters a i (act.perform s).2

@[simp] theorem alters_done (x : α) (s : Session V H) :
    (done x : Program V H α).alters a i s = false := rfl

theorem alters_bind (p : Program V H α) (f : α → Program V H β) (s : Session V H) :
    (p >>= f).alters a i s = (p.alters a i s || match p.run s with
      | (.ok x, t) => (f x).alters a i t
      | (.error _, _) => false) := by
  induction p generalizing s with
  | done x => rfl
  | panic reason => rfl
  | step act next ih => simp only [step_bind, alters, ih, run_step, Bool.or_assoc]

theorem alters_map (p : Program V H α) (f : α → β) (s : Session V H) :
    (f <$> p).alters a i s = p.alters a i s := by
  change (p >>= fun x => done (f x)).alters a i s = _
  rw [alters_bind]
  rcases p.run s with ⟨(reason | x), t⟩ <;> simp

end Program

namespace SlotArray

variable {a : SlotArray} {m n : Memory V} {i j : UInt64} {cell : Cell} {o : Occupant V}

section Perform

variable [Journal H] {s : Session V H} {act : Action V H}

/-- Swaps, and exchanges that take place, are stores. -/
theorem occupant?_store_iff (h : a.Sound m) (hc : a.cell? m j = some cell) (new : Option V)
    (ho : a.occupant? m i = some o) : a.occupant? (m.store cell new) i = some o ↔
      (decide (a.cell? m i = some cell) && ((m.content cell).isSome || new.isSome)) = false := by
  by_cases hij : i = j
  · subst hij
    have hlt := h.stamp_lt_of_occupant? ho
    have hnew : m.stamped new ≠ some o := fun heq => by
      have := (Memory.stamped_lt_store cell heq).1
      omega
    rw [occupant?_of_cell? hc] at ho
    simp [occupant?_store_self h hc, hnew, hc, ho]
  · have hcell : a.cell? m i ≠ some cell := fun heq => hij (h.cell?_inj heq hc)
    simp [occupant?_store_of_ne h hc new hij, ho, hcell]

/-- An action leaves an occupant where it is if and only if it does not alter the slot. -/
theorem Sound.occupant?_perform_iff (h : a.Sound s.memory) (hact : a.Admits s.memory act)
    (ho : a.occupant? s.memory i = some o) :
    a.occupant? (act.perform s).2.memory i = some o ↔ act.alters a i s.memory = false := by
  cases act with
  | publish e => simpa [Action.alters, Action.perform, occupant?_publish h] using ho
  | swap cell new =>
    obtain ⟨j, hj⟩ := hact
    exact occupant?_store_iff h hj new ho
  | exchangeIf cell expected new =>
    obtain ⟨j, hj⟩ := hact
    change a.occupant? (s.memory.exchangeIf cell expected new).2 i = some o ↔ _
    cases hsame : sameOccupant (s.memory.content cell) expected with
    | true =>
      rw [Memory.exchangeIf_of_same new hsame, occupant?_store_iff h hj new ho]
      simp [Action.alters, hsame]
    | false =>
      rw [Memory.exchangeIf_of_not_same new hsame]
      simp [Action.alters, hsame, ho]
  | adjust | loadEntry | load | retire | readSize | emit | readHost | changeHost =>
    simpa [Action.alters, Action.perform] using ho

/-- What does not alter a slot leaves it as it is, also if it is empty. -/
theorem Sound.occupant?_perform (h : a.Sound s.memory) (hact : a.Admits s.memory act)
    (halters : act.alters a i s.memory = false) :
    a.occupant? (act.perform s).2.memory i = a.occupant? s.memory i := by
  cases ho : a.occupant? s.memory i with
  | some o => exact (h.occupant?_perform_iff hact ho).mpr halters
  | none =>
    have hstore : ∀ {j cell} new, a.cell? s.memory j = some cell →
        (decide (a.cell? s.memory i = some cell) &&
          ((s.memory.content cell).isSome || new.isSome)) = false →
        a.occupant? (s.memory.store cell new) i = none := by
      intro j cell new hj hkeeps
      by_cases hij : i = j
      · subst hij
        rw [occupant?_of_cell? hj] at ho
        obtain rfl : new = none := by simpa [hj, ho] using hkeeps
        exact occupant?_store_self h hj none
      · rw [occupant?_store_of_ne h hj new hij, ho]
    cases act with
    | publish e => exact (occupant?_publish h e i).trans ho
    | swap cell new =>
      obtain ⟨j, hj⟩ := hact
      exact hstore new hj halters
    | exchangeIf cell expected new =>
      obtain ⟨j, hj⟩ := hact
      change a.occupant? (s.memory.exchangeIf cell expected new).2 i = none
      cases hsame : sameOccupant (s.memory.content cell) expected with
      | true =>
        rw [Memory.exchangeIf_of_same new hsame]
        exact hstore new hj (by simpa [Action.alters, hsame] using halters)
      | false =>
        rw [Memory.exchangeIf_of_not_same new hsame]
        exact ho
    | adjust | loadEntry | load | retire | readSize | emit | readHost | changeHost => exact ho

end Perform

end SlotArray

open Program SlotArray

section Lawful

variable [Journal H] {a : SlotArray} {i : UInt64} {p : Program V H α} {s : Session V H}
  {o : Occupant V}

/-- A program that follows a protocol leaves a memory that serves the array and is later. -/
theorem Program.Follows.later_run {G : Type} {R : Protocol V H G}
    {Q : Except Panic α → G → Memory V → Prop} {g : G} (h : p.Follows a R Q g s.memory)
    (hs : a.Sound s.memory) : a.Sound (p.run s).2.memory ∧ s.memory.Later (p.run s).2.memory := by
  obtain ⟨hsound, -, -, hlater⟩ := h.run (I := fun _ n => s.memory.Later n) hs (.refl _)
    fun t act _ _ ht hact _ hl => hl.trans (ht.perform hact).2
  exact ⟨hsound, hlater⟩

/-- An occupant that has gone never comes back. -/
theorem Program.Follows.occupant?_run_iff {G : Type} {R : Protocol V H G}
    {Q : Except Panic α → G → Memory V → Prop} {g : G} (h : p.Follows a R Q g s.memory)
    (hs : a.Sound s.memory) (ho : a.occupant? s.memory i = some o) :
    a.occupant? (p.run s).2.memory i = some o ↔ p.alters a i s = false := by
  induction p generalizing g s with
  | done x => simpa [alters] using ho
  | panic reason => simpa [alters] using ho
  | step act next ih =>
    obtain ⟨hact, g', -, hnext⟩ := h s (.refl _) hs
    obtain ⟨hs', hl⟩ := hs.perform hact
    have hstep := hs.occupant?_perform_iff hact ho
    cases halters : act.alters a i s.memory with
    | false => simpa [alters, halters] using ih _ hnext hs' (hstep.mpr halters)
    | true =>
      obtain ⟨hend, hlater⟩ := hnext.later_run hs'
      have hlt := (hs.stamp_lt_of_occupant? ho).trans_le hl.stamps_le
      have hgone : a.occupant? (act.perform s).2.memory i ≠ some o := by simp [hstep, halters]
      refine iff_of_false (fun hback => ?_) (by simp [alters, halters])
      exact hgone (hs'.occupant?_of_later hend hlater hback hlt)

/-- A run of a client leaves an occupant where it is if and only if none of its actions stores into
the slot or empties it. -/
theorem SlotArray.Client.occupant?_run_iff (h : a.Client p) (hs : a.Sound s.memory)
    (ho : a.occupant? s.memory i = some o) :
    a.occupant? (p.run s).2.memory i = some o ↔ p.alters a i s = false :=
  (h.lawful s.memory).occupant?_run_iff hs ho

end Lawful

namespace SlotArray

variable {a : SlotArray} {m n : Memory V} {i : UInt64}

/-- The memory with something else in a slot, if that has a cell. -/
def put (a : SlotArray) (i : UInt64) (new : Option V) (m : Memory V) : Memory V :=
  match a.cell? m i with
  | some cell => m.store cell new
  | none => m

/-- From one memory to another, the content of a slot and the count have changed, and nothing else:
in the other slots the same occupants stand, and no segment has come into being. -/
structure Puts (a : SlotArray) (i : UInt64) (new : Option V) (change : ℤ) (m n : Memory V) :
    Prop where
  value?_eq : a.value? n i = new
  occupant?_eq : ∀ j, j ≠ i → a.occupant? n j = a.occupant? m j
  count_eq : n.count = m.count + change
  table_eq : n.table = m.table

theorem Sound.puts (h : a.Sound m) {cell : Cell} (hc : a.cell? m i = some cell)
    (new : Option V) (change : ℤ) : a.Puts i new change m ((a.put i new m).adjust change) := by
  rw [put, hc]
  refine ⟨?_, fun j hj => ?_, ?_, Memory.table_store m cell new⟩
  · rw [value?, occupant?_adjust, occupant?_store_self h hc, Memory.map_value_stamped]
  · rw [occupant?_adjust, occupant?_store_of_ne h hc new hj]
  · rw [← Memory.count_store m cell new]
    rfl

/-- One less is counted behind a removal. -/
theorem size_put_none {s : Session V H} (hs : s.Settled a) {o : Occupant V}
    (ho : a.occupant? s.memory i = some o) :
    ((a.put i none s.memory).adjust (-1)).size + 1 = s.memory.size := by
  obtain ⟨cell, hc, hcontent⟩ := Option.bind_eq_some_iff.mp ho
  have hoccupied := occupied_store hs.sound hc none
  have hcount := (hs.sound.puts hc none (-1)).count_eq
  rw [hcontent] at hoccupied
  simp only [Option.isSome_some, Bool.toNat_true, Option.isSome_none, Bool.toNat_false] at hoccupied
  rw [Memory.size, Memory.size, hcount, hs.count_eq]
  omega

/-- One attempt to change the value of a slot to what `change` answers, if `accepts` holds for it. -/
def attempt (a : SlotArray) (purpose : Access) (i : UInt64) (accepts : V → Program V H Bool)
    (change : V → Program V H (Option V)) : Program V H Attempt :=
  (Option.getD · .absent) <$> a.access purpose i (·.revise accepts change)

theorem update_eq_attempt (a : SlotArray) (i : UInt64) (factory : V → Program V H V)
    (accepts : V → Program V H Bool) :
    a.update i factory accepts = a.attempt .inspect i accepts fun v => some <$> factory v := rfl

theorem eraseIf_eq_attempt (a : SlotArray) (i : UInt64) (accepts : V → Program V H Bool) :
    a.eraseIf i accepts = a.attempt .vacate i accepts (fun _ => pure none) >>= fun attempt => do
      if attempt.isCommitted then
        .adjustCount (-1)
      return attempt := by
  rw [eraseIf, attempt, bind_map_left]
  refine congrArg _ (funext fun found => ?_)
  cases found <;> rfl

section Attempt

variable [Journal H] {s : Session V H} {purpose : Access} {accepts : V → Program V H Bool}
  {change : V → Program V H (Option V)}

theorem run_attempt_of_none (hp : purpose ≠ .fill) (ho : a.occupant? s.memory i = none) :
    (a.attempt purpose i accepts change).run s = (.ok .absent, s) := by
  rw [attempt, run_map]
  cases hc : a.cell? s.memory i with
  | none =>
    rw [run_access_of_missing hp hc]
    rfl
  | some cell =>
    rw [occupant?_of_cell? hc] at ho
    rw [run_access_of_cell hp hc, run_map, Cell.revise_eq, run_bind, run_load, ho]
    rfl

theorem run_exchangeIf_eq (cell : Cell) (expected : Option (Occupant V)) (new : Option V)
    (s : Session V H) : (cell.exchangeIf expected new : Program V H _).run s =
      (.ok (s.memory.exchangeIf cell expected new).1,
        ⟨(s.memory.exchangeIf cell expected new).2, s.host⟩) := rfl

/-- What the callbacks ask for is done if they have not altered the slot. -/
theorem run_reviseTo_of_iff {t : Session V H} {cell : Cell} {o : Occupant V} {altered : Bool}
    (hs : a.Sound s.memory) (hl : s.memory.Later t.memory) (hc : a.cell? s.memory i = some cell)
    (ho : a.occupant? s.memory i = some o)
    (hiff : a.occupant? t.memory i = some o ↔ altered = false) (new : Option V) :
    (cell.reviseTo o (some new)).run t =
      if altered then
        (.ok (if (a.occupant? t.memory i).isNone then .vacated else .replaced), t)
      else
        (.ok .committed, ⟨a.put i new t.memory, t.host⟩) := by
  have hc' := cell?_later hl hc
  rw [occupant?_of_cell? hc'] at hiff ⊢
  rw [occupant?_of_cell? hc] at ho
  rw [Cell.reviseTo, run_bind, run_exchangeIf_eq]
  cases altered with
  | false =>
    have hsame : sameOccupant (t.memory.content cell) (some o) = true := by
      simp [hiff.mpr rfl]
    rw [Memory.exchangeIf_of_same new hsame, put, hc']
    rfl
  | true =>
    have hsame : sameOccupant (t.memory.content cell) (some o) = false := by
      by_contra hwins
      have hback := hs.content_of_sameOccupant hl ho (by simpa using hwins)
      simp [hiff] at hback
    rw [Memory.exchangeIf_of_not_same new hsame]
    cases t.memory.content cell <;> rfl

/-- An attempt consults its callbacks once about the value that it found. -/
theorem run_attempt_of_some (hp : purpose ≠ .fill) (hs : a.Sound s.memory) {o : Occupant V}
    (ho : a.occupant? s.memory i = some o)
    (hconsult : a.Client (Cell.consult accepts change o.value)) :
    (a.attempt purpose i accepts change).run s =
      match (Cell.consult accepts change o.value).run s with
      | (.error reason, t) => (.error reason, t)
      | (.ok none, t) => (.ok .rejected, t)
      | (.ok (some new), t) =>
        if (Cell.consult accepts change o.value).alters a i s then
          (.ok (if (a.occupant? t.memory i).isNone then .vacated else .replaced), t)
        else
          (.ok .committed, ⟨a.put i new t.memory, t.host⟩) := by
  obtain ⟨cell, hc, hcontent⟩ := Option.bind_eq_some_iff.mp ho
  have hiff := hconsult.occupant?_run_iff hs ho
  have hl := ((hconsult.lawful s.memory).later_run hs).2
  rw [attempt, run_map, run_access_of_cell hp hc, run_map, Cell.revise_eq, run_bind, run_load,
    hcontent]
  simp only [run_bind]
  rcases hrun : (Cell.consult accepts change o.value).run s with ⟨(reason | (_ | new)), t⟩
  · rfl
  · rfl
  · rw [hrun] at hiff hl
    simp only [run_reviseTo_of_iff hs hl hc ho hiff new]
    split <;> rfl

theorem run_consult (accepts : V → Program V H Bool) (change : V → Program V H (Option V)) (v : V)
    (s : Session V H) : (Cell.consult accepts change v).run s =
    match (accepts v).run s with
    | (.error reason, t) => (.error reason, t)
    | (.ok false, t) => (.ok none, t)
    | (.ok true, t) => match (change v).run t with
      | (.error reason, u) => (.error reason, u)
      | (.ok new, u) => (.ok (some new), u) := by
  rw [Cell.consult, run_bind]
  rcases (accepts v).run s with ⟨(reason | (_ | _)), t⟩
  · rfl
  · rfl
  · simp only [if_true, run_map]
    rcases (change v).run t with ⟨(reason | new), u⟩ <;> rfl

theorem alters_consult {v : V} {t : Session V H} (h : (accepts v).run s = (.ok true, t)) :
    (Cell.consult accepts change v).alters a i s =
      ((accepts v).alters a i s || (change v).alters a i t) := by
  rw [Cell.consult, alters_bind, h]
  simp only [if_true, alters_map]

end Attempt

/-- How an update ends, with the session that it leaves. What it does depends on the occupant that it
read and on what its callbacks do, each of which is asked at most once, about the value of that
occupant, the factory after the predicate. -/
inductive UpdateEnds [Journal H] (a : SlotArray) (i : UInt64) (factory : V → Program V H V)
    (accepts : V → Program V H Bool) (s : Session V H) :
    Except Panic UpdateOutcome × Session V H → Prop
  /-- Without an occupant, no callback is asked. -/
  | absent (ho : a.occupant? s.memory i = none) : UpdateEnds a i factory accepts s (.ok .empty, s)
  | panicked {o : Occupant V} {reason : Panic} {t : Session V H}
      (ho : a.occupant? s.memory i = some o) (ha : (accepts o.value).run s = (.error reason, t)) :
      UpdateEnds a i factory accepts s (.error reason, t)
  /-- The factory is not asked, and the slot stays as the predicate left it. -/
  | rejected {o : Occupant V} {t : Session V H} (ho : a.occupant? s.memory i = some o)
      (ha : (accepts o.value).run s = (.ok false, t)) :
      UpdateEnds a i factory accepts s (.ok .declined, t)
  | failed {o : Occupant V} {reason : Panic} {t u : Session V H}
      (ho : a.occupant? s.memory i = some o) (ha : (accepts o.value).run s = (.ok true, t))
      (hf : (factory o.value).run t = (.error reason, u)) :
      UpdateEnds a i factory accepts s (.error reason, u)
  /-- Both callbacks left the slot alone. It gets the new value, and nothing else changes. -/
  | committed {o : Occupant V} {new : V} {t u : Session V H} {m : Memory V}
      (ho : a.occupant? s.memory i = some o) (ha : (accepts o.value).run s = (.ok true, t))
      (hf : (factory o.value).run t = (.ok new, u))
      (halters : ((accepts o.value).alters a i s || (factory o.value).alters a i t) = false)
      (hsame : a.occupant? u.memory i = some o)
      (hputs : a.Puts i (some new) 0 u.memory m) :
      UpdateEnds a i factory accepts s (.ok .updated, ⟨m, u.host⟩)
  /-- A callback altered the slot, and another occupant is there. All stays as it is. -/
  | replaced {o p : Occupant V} {new : V} {t u : Session V H}
      (ho : a.occupant? s.memory i = some o) (ha : (accepts o.value).run s = (.ok true, t))
      (hf : (factory o.value).run t = (.ok new, u))
      (halters : ((accepts o.value).alters a i s || (factory o.value).alters a i t) = true)
      (hp : a.occupant? u.memory i = some p) (hne : p ≠ o) :
      UpdateEnds a i factory accepts s (.ok .declined, u)
  /-- A callback altered the slot, and nothing is there. All stays as it is. -/
  | vacated {o : Occupant V} {new : V} {t u : Session V H}
      (ho : a.occupant? s.memory i = some o) (ha : (accepts o.value).run s = (.ok true, t))
      (hf : (factory o.value).run t = (.ok new, u))
      (halters : ((accepts o.value).alters a i s || (factory o.value).alters a i t) = true)
      (hp : a.occupant? u.memory i = none) :
      UpdateEnds a i factory accepts s (.ok .empty, u)

section Ends

variable [Journal H] {s : Session V H} {factory : V → Program V H V}
  {accepts : V → Program V H Bool}

theorem updateEnds (hs : a.Sound s.memory) (hf : ∀ v, a.Client (factory v))
    (ha : ∀ v, a.Client (accepts v)) : UpdateEnds a i factory accepts s
      ((UpdateOutcome.ofAttempt <$> a.update i factory accepts).run s) := by
  have hconsult : ∀ v, a.Client (Cell.consult accepts (fun v => some <$> factory v) v) := by
    intro v
    refine .bind (ha v) fun yes => ?_
    cases yes with
    | false => exact .done _
    | true => exact .map _ (.map _ (hf v))
  rw [update_eq_attempt, run_map]
  cases ho : a.occupant? s.memory i with
  | none =>
    rw [run_attempt_of_none (by decide) ho]
    exact .absent ho
  | some o =>
    have hrun := run_consult accepts (fun v => some <$> factory v) o.value s
    have hiff := (hconsult o.value).occupant?_run_iff hs ho
    rw [run_attempt_of_some (by decide) hs ho (hconsult o.value)]
    rcases hyes : (accepts o.value).run s with ⟨(reason | (_ | _)), t⟩
    · rw [hrun, hyes]
      exact .panicked ho hyes
    · rw [hrun, hyes]
      exact .rejected ho hyes
    · have hsound := (hf o.value).lawful.sound_run ((ha o.value).lawful.sound_run hs)
      simp only [hyes, run_map] at hrun hsound
      simp only [alters_consult hyes, alters_map] at hiff ⊢
      rcases hnew : (factory o.value).run t with ⟨(reason | new), u⟩
      · rw [hrun, hnew]
        exact .failed ho hyes hnew
      · simp only [hnew] at hrun hsound
        rw [hrun] at hiff ⊢
        cases halters : (accepts o.value).alters a i s || (factory o.value).alters a i t with
        | false =>
          have hsame := hiff.mpr halters
          obtain ⟨cell, hc, -⟩ := Option.bind_eq_some_iff.mp hsame
          refine .committed ho hyes hnew halters hsame ?_
          rw [← Memory.adjust_zero (a.put i (some new) u.memory)]
          exact hsound.puts hc _ 0
        | true =>
          change UpdateEnds a i factory accepts s (.ok (UpdateOutcome.ofAttempt
            (if (a.occupant? u.memory i).isNone then .vacated else .replaced)), u)
          cases hp : a.occupant? u.memory i with
          | none => exact .vacated ho hyes hnew halters hp
          | some p =>
            refine .replaced ho hyes hnew halters hp ?_
            rintro rfl
            simpa [halters] using hiff.mp hp

/-- An update commits on the very occupant that it read, in every state of the array, and whatever
its callbacks do to the array. -/
theorem update_commits_on_what_it_read (hs : a.Sound s.memory) (hf : ∀ v, a.Client (factory v))
    (ha : ∀ v, a.Client (accepts v)) :
    let ended := (UpdateOutcome.ofAttempt <$> a.update i factory accepts).run s
    UpdateEnds a i factory accepts s ended ∧
    (ended.1 = .ok .updated ↔ ∃ v t new u, a.value? s.memory i = some v ∧
      (accepts v).run s = (.ok true, t) ∧ (factory v).run t = (.ok new, u) ∧
      ((accepts v).alters a i s || (factory v).alters a i t) = false) ∧
    (ended.1 = .ok .declined ↔ ∃ o t, a.occupant? s.memory i = some o ∧
      ((accepts o.value).run s = (.ok false, t) ∨
        (accepts o.value).run s = (.ok true, t) ∧ ∃ new u p,
          (factory o.value).run t = (.ok new, u) ∧ a.occupant? u.memory i = some p ∧ p ≠ o)) ∧
    (ended.1 = .ok .empty ↔ a.capacity ≤ i ∨ a.value? s.memory i = none ∨
      ∃ v t new u, a.value? s.memory i = some v ∧ (accepts v).run s = (.ok true, t) ∧
        (factory v).run t = (.ok new, u) ∧ a.value? u.memory i = none) := by
  intro ended
  have hends : UpdateEnds a i factory accepts s ended := updateEnds hs hf ha
  clear_value ended
  refine ⟨hends, ?_, ?_, ?_⟩
  · cases hends <;> grind [value?]
  · cases hends <;> grind [value?]
  · have hlt : ∀ o, a.occupant? s.memory i = some o → i < a.capacity := fun o => lt_of_occupant?
    cases hends <;> grind [value?]

/-- A predicate that takes the value out of the slot and puts it back makes the update decline; a
factory that works on another slot does not. -/
theorem update_commits_on_what_it_read_of_return :
    let a : SlotArray := ⟨2⟩
    let s : Session ℤ Unit := ((a.insert 0 5).run ⟨a.freshMemory, ()⟩).2
    let putsBack : ℤ → Program ℤ Unit Bool := fun v => a.take 0 >>= fun _ => a.insert 0 v
    let factory : ℤ → Program ℤ Unit ℤ := fun v => a.set 1 7 >>= fun _ => .done (v + 1)
    ((UpdateOutcome.ofAttempt <$> a.update 0 factory putsBack).run s).1 = .ok .declined ∧
    ((UpdateOutcome.ofAttempt <$> a.update 0 factory fun _ => .done true).run s).1 =
      .ok .updated := by
  intro a s putsBack factory
  have hs : s.Settled a := Session.Settled.run (.fresh a ()) (.insert 0 5)
  have hf : ∀ v, a.Client (factory v) := fun v => .bind (.set 1 7) fun _ => .done _
  have hp : ∀ v, a.Client (putsBack v) := fun v => .bind (.take 0) fun _ => .insert 0 v
  have hrun : ∀ {α : Type} (p : Program ℤ Unit α) t x, (p.run t).1 = .ok x →
      p.run t = (.ok x, (p.run t).2) := fun p t x h => Prod.ext h rfl
  constructor
  · refine (update_commits_on_what_it_read hs.sound hf hp).2.2.1.mpr ?_
    exact ⟨⟨0, 5⟩, _, by decide +kernel, .inr ⟨hrun _ _ _ (by decide +kernel), 6, _, ⟨1, 5⟩,
      hrun _ _ _ (by decide +kernel), by decide +kernel, by decide⟩⟩
  · refine (update_commits_on_what_it_read hs.sound hf fun _ => .done true).2.1.mpr ?_
    exact ⟨5, s, 6, _, by decide +kernel, rfl, hrun _ _ _ (by decide +kernel), by decide +kernel⟩

/-- How a conditional removal ends, with the session that it leaves. -/
inductive EraseEnds (a : SlotArray) (i : UInt64) (accepts : V → Program V H Bool)
    (s : Session V H) : Except Panic Bool × Session V H → Prop
  /-- Without an occupant, the predicate is not asked. -/
  | absent (ho : a.occupant? s.memory i = none) : EraseEnds a i accepts s (.ok false, s)
  | panicked {o : Occupant V} {reason : Panic} {t : Session V H}
      (ho : a.occupant? s.memory i = some o) (ha : (accepts o.value).run s = (.error reason, t)) :
      EraseEnds a i accepts s (.error reason, t)
  | rejected {o : Occupant V} {t : Session V H} (ho : a.occupant? s.memory i = some o)
      (ha : (accepts o.value).run s = (.ok false, t)) : EraseEnds a i accepts s (.ok false, t)
  /-- The predicate left the slot alone. The slot becomes empty, and that is counted once. -/
  | committed {o : Occupant V} {t : Session V H} {m : Memory V}
      (ho : a.occupant? s.memory i = some o) (ha : (accepts o.value).run s = (.ok true, t))
      (halters : (accepts o.value).alters a i s = false)
      (hsame : a.occupant? t.memory i = some o) (hputs : a.Puts i none (-1) t.memory m)
      (hsize : m.size + 1 = t.memory.size) : EraseEnds a i accepts s (.ok true, ⟨m, t.host⟩)
  /-- The predicate altered the slot. All stays as it is, and nothing is counted. -/
  | lost {o : Occupant V} {t : Session V H} (ho : a.occupant? s.memory i = some o)
      (ha : (accepts o.value).run s = (.ok true, t))
      (halters : (accepts o.value).alters a i s = true)
      (hgone : a.occupant? t.memory i ≠ some o) : EraseEnds a i accepts s (.ok false, t)

theorem eraseEnds (hs : s.Settled a) (ha : ∀ v, a.Client (accepts v)) :
    EraseEnds a i accepts s ((Attempt.isCommitted <$> a.eraseIf i accepts).run s) := by
  have hconsult : ∀ v, a.Client (Cell.consult accepts (fun _ => pure none) v) := by
    intro v
    refine .bind (ha v) fun yes => ?_
    cases yes <;> exact .done _
  rw [eraseIf_eq_attempt, run_map, run_bind]
  cases ho : a.occupant? s.memory i with
  | none =>
    rw [run_attempt_of_none (by decide) ho]
    exact .absent ho
  | some o =>
    have hrun := run_consult accepts (fun _ => pure none) o.value s
    have hiff := (ha o.value).occupant?_run_iff hs.sound ho
    have ht := hs.run (ha o.value)
    rw [run_attempt_of_some (by decide) hs.sound ho (hconsult o.value), hrun]
    rcases hyes : (accepts o.value).run s with ⟨(reason | (_ | _)), t⟩
    · exact .panicked ho hyes
    · exact .rejected ho hyes
    · rw [hyes] at hiff ht
      simp only [alters_consult hyes, pure_eq, alters_done, Bool.or_false, run_done]
      cases halters : (accepts o.value).alters a i s with
      | false =>
        have hsame := hiff.mpr halters
        obtain ⟨cell, hc, -⟩ := Option.bind_eq_some_iff.mp hsame
        exact .committed ho hyes halters hsame (ht.sound.puts hc none (-1))
          (size_put_none ht hsame)
      | true =>
        have hgone : a.occupant? t.memory i ≠ some o := fun h => by
          simpa [halters] using hiff.mp h
        rw [if_pos rfl]
        cases a.occupant? t.memory i <;> exact .lost ho hyes halters hgone

/-- A conditional removal removes the very occupant that its predicate was asked about, in every
state in which the count is exact, and whatever the predicate does to the array. -/
theorem eraseIf_removes_what_it_read (hs : s.Settled a) (ha : ∀ v, a.Client (accepts v)) :
    let ended := (Attempt.isCommitted <$> a.eraseIf i accepts).run s
    EraseEnds a i accepts s ended ∧
    (ended.1 = .ok true ↔ ∃ v t, a.value? s.memory i = some v ∧
      (accepts v).run s = (.ok true, t) ∧ (accepts v).alters a i s = false) ∧
    (ended.1 ≠ .ok true → ended.2 = match a.value? s.memory i with
      | none => s
      | some v => ((accepts v).run s).2) := by
  intro ended
  have hends : EraseEnds a i accepts s ended := eraseEnds hs ha
  clear_value ended
  refine ⟨hends, ?_, ?_⟩
  · cases hends <;> grind [value?]
  · cases hends <;> grind [value?]

/-- A predicate that takes the value out of the slot and puts it back keeps it there. One that
empties the slot with a conditional removal of its own does it once. -/
theorem eraseIf_removes_what_it_read_of_nested :
    let a : SlotArray := ⟨2⟩
    let s : Session ℤ Unit := ((a.insert 0 5).run ⟨a.freshMemory, ()⟩).2
    let putsBack : ℤ → Program ℤ Unit Bool := fun v => a.take 0 >>= fun _ => a.insert 0 v
    let erases : ℤ → Program ℤ Unit Bool := fun _ =>
      Attempt.isCommitted <$> a.eraseIf 0 fun _ => .done true
    let kept := (Attempt.isCommitted <$> a.eraseIf 0 putsBack).run s
    let erased := (Attempt.isCommitted <$> a.eraseIf 0 erases).run s
    kept.2 = ((putsBack 5).run s).2 ∧ kept.2.memory.size = 1 ∧
      erased.2 = ((erases 5).run s).2 ∧ erased.2.memory.size = 0 := by
  intro a s putsBack erases kept erased
  have hs : s.Settled a := Session.Settled.run (.fresh a ()) (.insert 0 5)
  have hp : ∀ v, a.Client (putsBack v) := fun v => .bind (.take 0) fun _ => .insert 0 v
  have he : ∀ v, a.Client (erases v) := fun _ => .map _ (.eraseIf 0 fun _ => .done true)
  have hvalue : a.value? s.memory 0 = some 5 := by decide +kernel
  have hkept := (eraseIf_removes_what_it_read (i := 0) hs hp).2.2 (by decide +kernel)
  have herased := (eraseIf_removes_what_it_read (i := 0) hs he).2.2 (by decide +kernel)
  rw [hvalue] at hkept herased
  exact ⟨hkept, by decide +kernel, herased, by decide +kernel⟩

end Ends

end SlotArray

end AtomicSlots
