import AtomicSlots.Proofs.Rest

/-!
# Duties after a change

An exchange or a swap that changes a slot leaves its thread with duties: an occupant that was taken
out has to be retired, and a change from empty to occupied or back has to be counted. Every client
does its duties at once, one after the other, before it does anything else. So at each moment a
thread owes the count at most one, and it owes nothing while client code is at work. The duties are
read off the actions and their effect on the memory, not off the program.
-/
namespace AtomicSlots

variable {V H α β : Type}

/-- What a thread still has to do about the last change that it made to a slot. -/
inductive Duty (V : Type) where
  | free
  /-- An empty slot was filled, and this is not counted yet. -/
  | filled
  /-- This occupant was replaced and is not retired yet. -/
  | replaced (o : Occupant V)
  /-- This occupant was taken out of a slot, and is neither retired nor counted yet. -/
  | emptied (o : Occupant V)
  /-- The occupant of an emptied slot is retired, and the slot is not counted yet. -/
  | retired

namespace Duty

/-- By how much the count still has to change. -/
def owed : Duty V → ℤ
  | free | replaced _ => 0
  | filled => 1
  | emptied _ | retired => -1

/-- The duties that come with a change of a cell. -/
def ofChange : Option (Occupant V) → Option (Occupant V) → Duty V
  | none, none => free
  | none, some _ => filled
  | some o, some _ => replaced o
  | some o, none => emptied o

/-- The duties after an action that takes one memory to another. An action that is not the one that
is due changes nothing about what is due. -/
def after (duty : Duty V) (act : Action V H) (m n : Memory V) : Duty V :=
  match duty, act with
  | _, .exchangeIf cell _ _ | _, .swap cell _ =>
    if (m.content cell).map Occupant.stamp = (n.content cell).map Occupant.stamp then duty
    else ofChange (m.content cell) (n.content cell)
  | filled, .adjust change => if change = 1 then free else filled
  | retired, .adjust change => if change = -1 then free else retired
  | emptied o, .adjust change => if change = -1 then replaced o else emptied o
  | replaced o, .retire p => if o.stamp = p.stamp then free else replaced o
  | emptied o, .retire p => if o.stamp = p.stamp then retired else emptied o
  | _, _ => duty

/-- Retiring and counting wait for their duty, and everything else waits until no duty is left. -/
def Allows : Duty V → Action V H → Prop
  | filled, .adjust change => change = 1
  | retired, .adjust change => change = -1
  | replaced o, .retire p | emptied o, .retire p => o = p
  | free, .retire _ | free, .adjust _ => False
  | free, _ => True
  | _, _ => False

/-- Duties are taken on by changes and done in their order. -/
def protocol : Protocol V H (Duty V) := fun duty act m n duty' =>
  duty.Allows act ∧ duty' = duty.after act m n

theorem owed_ofChange (o p : Option (Occupant V)) :
    (ofChange o p).owed = p.isSome.toNat - o.isSome.toNat := by
  cases o <;> cases p <;> rfl

variable {a : SlotArray} {m : Memory V} {i : UInt64} {cell : Cell}

/-- A store into a cell brings the duties of the change that it makes. -/
theorem after_store (h : a.Sound m) (hc : a.cell? m i = some cell) {act : Action V H}
    {new : Option V}
    (hact : act = .swap cell new ∨ ∃ expected, act = .exchangeIf cell expected new) :
    free.after act m (m.store cell new) = ofChange (m.content cell) (m.stamped new) := by
  have hn := Memory.content_store_self new (h.hasCell hc)
  have hafter : free.after act m (m.store cell new) =
      if (m.content cell).map Occupant.stamp = (m.stamped new).map Occupant.stamp then free
      else ofChange (m.content cell) (m.stamped new) := by
    rcases hact with rfl | ⟨expected, rfl⟩ <;> simp only [after, hn]
  rw [hafter]
  split
  · rename_i heq
    cases ho : m.content cell with
    | none =>
      rw [ho] at heq
      cases hs : m.stamped new with
      | none => rfl
      | some p => simp [hs] at heq
    | some o =>
      -- the new stamp is not that of an occupant
      rw [ho] at heq
      cases hs : m.stamped new with
      | none => simp [hs] at heq
      | some p =>
        have hp := (Memory.stamped_lt_store cell hs).1
        have hlt := h.stamp_lt cell o ho
        simp [hs] at heq
        omega
  · rfl

end Duty

open Duty Program SlotArray

/-- An action that changes no cell and is no duty leaves a free thread free. -/
theorem Duty.protocol_free {act : Action V H} {m n : Memory V} (h : free.Allows act)
    (hact : free.after act m n = free) : protocol free act m n free := ⟨h, hact.symm⟩

theorem Duty.idle_free (a : SlotArray) : (protocol : Protocol V H (Duty V)).Idle a free where
  loadEntry _ _ := protocol_free trivial rfl
  publish _ _ _ := protocol_free trivial rfl
  emit _ _ := protocol_free trivial rfl

theorem Duty.reads_free : (protocol : Protocol V H (Duty V)).Reads free where
  loadEntry _ _ := protocol_free trivial rfl
  load _ _ := protocol_free trivial rfl
  readSize _ := protocol_free trivial rfl

/-- An exchange that is lost leaves no duty. -/
theorem Duty.protocol_lost (cell : Cell) (expected : Option (Occupant V)) (new : Option V)
    (m : Memory V) : protocol free (.exchangeIf cell expected new : Action V H) m m free :=
  protocol_free trivial (by simp [after])

variable [Journal H] {a : SlotArray} {i : UInt64} {p : Program V H α}

/-- From a free state on, the program does all duties it takes on, and ends with none left. -/
def Program.Dutiful (a : SlotArray) (p : Program V H α) : Prop :=
  ∀ m, p.Follows a protocol (fun _ duty _ => duty = free) free m

namespace Program.Dutiful

theorem fill {make : Program V H V} (h : make.Dutiful a) : (a.fill i make).Dutiful a := by
  intro m
  rw [SlotArray.fill, follows_bind]
  refine follows_access_fill (idle_free a) (fun _ => rfl) ?_
  intro n cell hl hn hc
  refine Cell.follows_fill ⟨i, hc⟩ ?_ ?_
  · intro k o _ _ _
    exact ⟨free, protocol_free trivial rfl, rfl⟩
  · intro k hlk _ _
    refine ⟨free, protocol_free trivial rfl, (h k).mono ?_⟩
    rintro (reason | v) duty k' hlk' rfl
    · rfl
    intro l hll hsl
    have hcl : a.cell? l i = some cell := cell?_later (hlk.trans (hlk'.trans hll)) hc
    refine ⟨fun hnone => ?_, fun o _ => ⟨free, protocol_lost _ _ _ l, rfl⟩⟩
    refine ⟨filled, ⟨trivial, ?_⟩, ?_⟩
    · rw [after_store hsl hcl (.inr ⟨none, rfl⟩), hnone]
      rfl
    · -- the fill was won and is counted up
      intro s _ _
      exact ⟨trivial, free, ⟨rfl, rfl⟩, rfl⟩

theorem swap (i : UInt64) (v : V) : (a.swap i v : Program V H _).Dutiful a := by
  intro m
  rw [SlotArray.swap, follows_bind]
  refine follows_access_fill (idle_free a) (fun _ => rfl) ?_
  intro n cell hl hn hc
  refine Cell.follows_replace ⟨i, hc⟩ fun k hlk hk => ?_
  have hck : a.cell? k i = some cell := cell?_later hlk hc
  refine ⟨ofChange (k.content cell) (k.stamped (some v)),
    ⟨trivial, (after_store hk hck (.inl rfl)).symm⟩, fun hnone => ?_, fun o ho l _ _ => ?_⟩
  · rw [hnone]
    intro s _ _
    exact ⟨trivial, free, ⟨rfl, rfl⟩, rfl⟩
  · rw [ho]
    exact ⟨free, ⟨rfl, by simp [after, ofChange, Memory.stamped]⟩, rfl⟩

theorem take (i : UInt64) : (a.take i : Program V H _).Dutiful a := by
  intro m
  rw [SlotArray.take, follows_bind]
  refine follows_access (by decide) (fun _ _ => protocol_free trivial rfl) (fun _ => rfl)
    (fun _ _ _ _ _ => ⟨free, protocol_free trivial rfl, rfl⟩) ?_
  intro n cell hl hn hc
  refine Cell.follows_replace ⟨i, hc⟩ fun k hlk hk => ?_
  have hck : a.cell? k i = some cell := cell?_later hlk hc
  refine ⟨ofChange (k.content cell) (k.stamped none),
    ⟨trivial, (after_store hk hck (.inl rfl)).symm⟩, fun hnone => ?_, fun o ho l _ _ => ?_⟩
  · rw [hnone]
    rfl
  · rw [ho]
    refine ⟨retired, ⟨rfl, by simp [after, ofChange, Memory.stamped]⟩, ?_⟩
    intro s _ _
    exact ⟨trivial, free, ⟨rfl, rfl⟩, rfl⟩

/-- A revision that is lost or not wanted leaves no duty. A committed one leaves the count as it has
to be if the revision fills the cell, and has to be counted down if it empties the cell. -/
theorem revise {cell : Cell} {accepts : V → Program V H Bool}
    {change : V → Program V H (Option V)} {fills : Bool} {m : Memory V}
    (hc : a.cell? m i = some cell) (ha : ∀ v, (accepts v).Dutiful a)
    (hchange : ∀ v n, (change v).Follows a protocol
      (fun r duty _ => duty = free ∧ ∀ new, r = .ok new → new.isSome = fills) free n) :
    (cell.revise accepts change).Follows a protocol (fun r duty _ =>
      duty = if r = .ok .committed ∧ fills = false then retired else free) free m := by
  refine Cell.follows_revise ⟨i, hc⟩ (fun n _ _ _ => ⟨free, protocol_free trivial rfl, rfl⟩) ?_
  intro n o hl _ _
  refine ⟨free, protocol_free trivial rfl, (ha o.value n).mono ?_⟩
  rintro (reason | yes) duty n₁ hl₁ rfl
  · rfl
  cases yes with
  | false => rfl
  | true =>
    refine (hchange o.value n₁).mono ?_
    rintro (reason | new) duty n₂ hl₂ ⟨rfl, hnew⟩
    · rfl
    intro k hlk hk
    have hck : a.cell? k i = some cell :=
      cell?_later (hl.trans (hl₁.trans (hl₂.trans hlk))) hc
    refine ⟨fun ho => ?_, fun _ => ⟨free, protocol_lost _ _ _ k, rfl⟩,
      fun p _ _ => ⟨free, protocol_lost _ _ _ k, rfl⟩⟩
    refine ⟨ofChange (some o) (k.stamped new), ⟨trivial, ?_⟩, fun l _ _ => ?_⟩
    · rw [after_store hk hck (.inr ⟨some o, rfl⟩), ho]
    · have hfills := hnew new rfl
      cases new with
      | none =>
        exact ⟨retired, ⟨rfl, by simp [after, ofChange, Memory.stamped]⟩, by simp [← hfills]⟩
      | some v =>
        exact ⟨free, ⟨rfl, by simp [after, ofChange, Memory.stamped]⟩, by simp [← hfills]⟩

theorem eraseIf {accepts : V → Program V H Bool} (ha : ∀ v, (accepts v).Dutiful a) :
    (a.eraseIf i accepts).Dutiful a := by
  intro m
  rw [SlotArray.eraseIf, follows_bind]
  refine follows_access (by decide) (fun _ _ => protocol_free trivial rfl) (fun _ => rfl)
    (fun _ _ _ _ _ => ⟨free, protocol_free trivial rfl, rfl⟩) ?_
  intro n cell hl hn hc
  have hnone : ∀ (v : V) k, (pure none : Program V H (Option V)).Follows a protocol
      (fun r duty _ => duty = free ∧ ∀ new, r = .ok new → new.isSome = false) free k :=
    fun _ _ => ⟨rfl, fun new h => by cases h; rfl⟩
  refine (revise hc ha hnone).mono ?_
  rintro (reason | attempt) duty k _ rfl
  · rfl
  cases attempt with
  | committed =>
    intro s _ _
    exact ⟨trivial, free, ⟨rfl, rfl⟩, rfl⟩
  | absent | rejected | replaced | vacated => rfl

theorem update {factory : V → Program V H V} {accepts : V → Program V H Bool}
    (hf : ∀ v, (factory v).Dutiful a) (ha : ∀ v, (accepts v).Dutiful a) :
    (a.update i factory accepts).Dutiful a := by
  intro m
  rw [SlotArray.update, follows_map]
  refine follows_access (by decide) (fun _ _ => protocol_free trivial rfl) (fun _ => rfl)
    (fun _ _ _ _ _ => ⟨free, protocol_free trivial rfl, rfl⟩) ?_
  intro n cell hl hn hc
  have hsome : ∀ v k, (some <$> factory v).Follows a protocol
      (fun r duty _ => duty = free ∧ ∀ new, r = .ok new → new.isSome = true) free k := by
    intro v k
    refine follows_map.mpr ((hf v k).mono ?_)
    rintro (reason | w) duty _ _ rfl
    · exact ⟨rfl, fun new h => by cases h⟩
    · exact ⟨rfl, fun new h => by cases h; rfl⟩
  refine (revise hc ha hsome).mono ?_
  rintro r duty k _ rfl
  simp

end Program.Dutiful

/-- Every client does its duties at once. -/
theorem SlotArray.Client.dutiful (h : a.Client p) : p.Dutiful a := by
  change p.ComesToRest a protocol free
  induction h with
  | done x => exact .done x
  | panic reason => exact .panic reason
  | bind _ _ ihp ihf => exact .bind ihp ihf
  | caught _ ih => exact .caught ih
  | readHost => exact .perform fun _ => ⟨trivial, protocol_free trivial rfl⟩
  | changeHost change => exact .perform fun _ => ⟨trivial, protocol_free trivial rfl⟩
  | emit event => exact .perform fun _ => ⟨trivial, protocol_free trivial rfl⟩
  | size => exact .size reads_free
  | fill i _ ih => exact Program.Dutiful.fill ih
  | swap i v => exact Program.Dutiful.swap i v
  | take i => exact Program.Dutiful.take i
  | eraseIf i _ ih => exact Program.Dutiful.eraseIf ih
  | update i _ _ ihf iha => exact Program.Dutiful.update ihf iha
  | get? i => exact .get? reads_free i
  | contains i => exact .contains reads_free i
  | firstFrom i => exact .firstFrom reads_free i

end AtomicSlots
