import AtomicSlots.Proofs.Clients
import AtomicSlots.Proofs.Interference

/-!
# Programs that come back to rest

Where operations follow a protocol one after another, there is a state that all of them start from
and come back to. The rules for such programs are those of sequences, and operations that only read
need nothing but that reading keeps the state.
-/
namespace AtomicSlots

variable {V H α β G : Type}

namespace Program

/-- Every action that the program can come to satisfies a predicate. -/
def Only (P : Action V H → Prop) : Program V H α → Prop
  | done _ | panic _ => True
  | step act next => P act ∧ ∀ r, (next r).Only P

variable {P : Action V H → Prop} {p : Program V H α}

theorem Only.bind {f : α → Program V H β} (hp : p.Only P) (hf : ∀ x, (f x).Only P) :
    (p >>= f).Only P := by
  induction p with
  | done x => exact hf x
  | panic reason => trivial
  | step act next ih => exact ⟨hp.1, fun r => ih r (hp.2 r)⟩

theorem Only.perform {act : Action V H} (h : P act) : (perform act).Only P := ⟨h, fun _ => trivial⟩

end Program

/-- Loads of table entries and of cells. -/
def Action.IsLoad : Action V H → Prop
  | loadEntry _ | load _ => True
  | _ => False

/-- The search of a segment only loads. -/
theorem only_firstInSegment (segment n : ℕ) (offset : UInt64) :
    (firstInSegment segment n offset : Program V H (Option (UInt64 × Occupant V))).Only
      Action.IsLoad := by
  induction n generalizing offset with
  | zero => trivial
  | succ n ih =>
    refine .bind (.perform trivial) fun content => ?_
    cases content with
    | none => exact ih _
    | some o => trivial

/-- A scan only loads. -/
theorem SlotArray.only_firstFrom (a : SlotArray) (i : UInt64) :
    (a.firstFrom i : Program V H (Option (UInt64 × Occupant V))).Only Action.IsLoad := by
  suffices hscan : ∀ n i, (a.scan n i : Program V H (Option (UInt64 × Occupant V))).Only
    Action.IsLoad from hscan _ i
  intro n
  induction n with
  | zero => exact fun _ => trivial
  | succ n ih =>
    intro i
    rw [scan]
    split
    · refine .bind (.perform trivial) fun entry => ?_
      cases entry with
      | none => exact ih _
      | some segment =>
        refine .bind (only_firstInSegment _ _ _) fun found => ?_
        cases found with
        | none => exact ih _
        | some item => trivial
    · trivial

variable [Journal H] {a : SlotArray} {R : Protocol V H G} {rest : G}

/-- The program comes back to rest, however it ends. -/
def Program.ComesToRest (a : SlotArray) (R : Protocol V H G) (rest : G) (p : Program V H α) :
    Prop :=
  ∀ m, p.Follows a R (fun _ g _ => g = rest) rest m

/-- A state that does not move when something is read. -/
structure Protocol.Reads (R : Protocol V H G) (g : G) : Prop where
  loadEntry : ∀ e m, R g (.loadEntry e) m m g
  load : ∀ cell m, R g (.load cell) m m g
  readSize : ∀ m, R g .readSize m m g

/-- A state that does not move during an attempt at a conditional change either. -/
structure Protocol.Revises (R : Protocol V H G) (g : G) : Prop extends R.Reads g where
  exchangeIf : ∀ cell o new m n, R g (.exchangeIf cell (some o) new) m n g
  retire : ∀ o m, R g (.retire o) m m g
  adjust : ∀ change m, R g (.adjust change) m (m.adjust change) g

open Program SlotArray

/-- Whoever catches a panic goes on from where it was thrown. -/
theorem Program.Follows.caught {Q : Except Panic (Except Panic α) → G → Memory V → Prop}
    {p : Program V H α} {g : G} {m : Memory V} (h : p.Follows a R (fun r => Q (.ok r)) g m) :
    p.caught.Follows a R Q g m := by
  induction p generalizing g m with
  | done x => exact h
  | panic reason => exact h
  | step act next ih =>
    intro s hl hs
    obtain ⟨hact, g', hstep, hnext⟩ := h s hl hs
    exact ⟨hact, g', hstep, ih _ hnext⟩

namespace Program.ComesToRest

theorem done (x : α) : (.done x : Program V H α).ComesToRest a R rest := fun _ => rfl

theorem panic (reason : Panic) : (.panic reason : Program V H α).ComesToRest a R rest :=
  fun _ => rfl

theorem bind {p : Program V H α} {f : α → Program V H β} (hp : p.ComesToRest a R rest)
    (hf : ∀ x, (f x).ComesToRest a R rest) : (p >>= f).ComesToRest a R rest := by
  intro m
  refine follows_bind.mpr ((hp m).mono ?_)
  rintro (reason | x) g n _ rfl
  · rfl
  · exact hf x n

theorem map {p : Program V H α} (hp : p.ComesToRest a R rest) (f : α → β) :
    (f <$> p).ComesToRest a R rest := hp.bind fun x => .done (f x)

theorem caught {p : Program V H α} (hp : p.ComesToRest a R rest) :
    p.caught.ComesToRest a R rest := fun m => (hp m).caught

/-- A single action that keeps the state of rest. -/
theorem perform {act : Action V H} (h : ∀ s : Session V H, a.Admits s.memory act ∧
    R rest act s.memory (act.perform s).2.memory rest) : (perform act).ComesToRest a R rest :=
  fun _ s _ _ => ⟨(h s).1, rest, (h s).2, rfl⟩

/-- Actions each of which keeps the state of rest. -/
theorem of_only {P : Action V H → Prop} {p : Program V H α} (h : p.Only P)
    (hP : ∀ act, P act → ∀ s : Session V H, a.Admits s.memory act ∧
      R rest act s.memory (act.perform s).2.memory rest) : p.ComesToRest a R rest := by
  induction p with
  | done x => exact done x
  | panic reason => exact panic reason
  | step act next ih =>
    intro m s _ _
    exact ⟨(hP act h.1 s).1, rest, (hP act h.1 s).2, ih _ (h.2 _) _⟩

variable (h : R.Reads rest)

include h

theorem size : (SlotArray.size : Program V H ℕ).ComesToRest a R rest :=
  perform fun s => ⟨trivial, h.readSize s.memory⟩

theorem load (cell : Cell) : (cell.load : Program V H _).ComesToRest a R rest :=
  perform fun s => ⟨trivial, h.load cell s.memory⟩

theorem access {purpose : Access} (hp : purpose ≠ .fill) (i : UInt64) {use : Cell → Program V H α}
    (huse : ∀ cell, (use cell).ComesToRest a R rest) :
    (a.access purpose i use).ComesToRest a R rest := by
  intro m
  refine follows_access hp (fun e n => h.loadEntry e n) (fun _ => rfl)
    (fun n _ _ _ _ => ⟨rest, h.loadEntry _ n, rfl⟩) ?_
  exact fun n cell _ _ _ => huse cell n

theorem get? (i : UInt64) : (a.get? i : Program V H _).ComesToRest a R rest := by
  refine bind (access h (by decide) i fun cell => load h cell) fun found => ?_
  cases found <;> exact done _

theorem contains (i : UInt64) : (a.contains i : Program V H _).ComesToRest a R rest :=
  (access h (by decide) i fun cell => (load h cell).map _).map _

/-- A scan only reads. -/
theorem firstFrom (i : UInt64) : (a.firstFrom i : Program V H _).ComesToRest a R rest := by
  refine of_only (a.only_firstFrom i) fun act hload s => ?_
  cases act with
  | loadEntry e => exact ⟨trivial, h.loadEntry e s.memory⟩
  | load cell => exact ⟨trivial, h.load cell s.memory⟩
  | publish | exchangeIf | swap | retire | adjust | readSize | emit | readHost | changeHost =>
    exact hload.elim

end Program.ComesToRest

/-! Conditional operations whose callbacks come back to rest. -/

namespace Program.ComesToRest

variable {m : Memory V} {i : UInt64} {accepts : V → Program V H Bool}

theorem follows_revise (h : R.Revises rest) {cell : Cell} (hc : a.cell? m i = some cell)
    {change : V → Program V H (Option V)} (ha : ∀ v, (accepts v).ComesToRest a R rest)
    (hchange : ∀ v, (change v).ComesToRest a R rest) :
    (cell.revise accepts change).Follows a R (fun _ g _ => g = rest) rest m := by
  refine Cell.follows_revise ⟨i, hc⟩ (fun _ _ _ _ => ⟨rest, h.load _ _, rfl⟩) ?_
  intro n o _ _ _
  refine ⟨rest, h.load _ _, (ha o.value n).mono ?_⟩
  rintro (reason | yes) g n₁ _ rfl
  · rfl
  cases yes with
  | false => rfl
  | true =>
    refine (hchange o.value n₁).mono ?_
    rintro (reason | new) g n₂ _ rfl
    · rfl
    intro l _ _
    exact ⟨fun _ => ⟨_, h.exchangeIf _ _ _ _ _, fun _ _ _ => ⟨_, h.retire _ _, rfl⟩⟩,
      fun _ => ⟨_, h.exchangeIf _ _ _ _ _, rfl⟩, fun _ _ _ => ⟨_, h.exchangeIf _ _ _ _ _, rfl⟩⟩

theorem eraseIf (h : R.Revises rest) (ha : ∀ v, (accepts v).ComesToRest a R rest) :
    (a.eraseIf i accepts).ComesToRest a R rest := by
  intro m
  rw [SlotArray.eraseIf, follows_bind]
  refine follows_access (by decide) (fun e n => h.loadEntry e n) (fun _ => rfl)
    (fun n _ _ _ _ => ⟨rest, h.loadEntry _ n, rfl⟩) ?_
  intro n cell _ _ hc
  refine (follows_revise h hc ha fun _ => done none).mono ?_
  rintro (reason | attempt) g l _ rfl
  · rfl
  cases attempt with
  | committed => exact fun s _ _ => ⟨trivial, _, h.adjust _ _, rfl⟩
  | absent | rejected | replaced | vacated => rfl

theorem update (h : R.Revises rest) {factory : V → Program V H V}
    (hf : ∀ v, (factory v).ComesToRest a R rest) (ha : ∀ v, (accepts v).ComesToRest a R rest) :
    (a.update i factory accepts).ComesToRest a R rest := by
  intro m
  rw [SlotArray.update, follows_map]
  refine follows_access (by decide) (fun e n => h.loadEntry e n) (fun _ => rfl)
    (fun n _ _ _ _ => ⟨rest, h.loadEntry _ n, rfl⟩) ?_
  exact fun n cell _ _ hc => follows_revise h hc ha fun v => (hf v).map some

end Program.ComesToRest

end AtomicSlots
