import AtomicSlots.Proofs.CellClients

/-!
# Two runs side by side

Take one run, put other values into it, and let a second run go along. The second memory is always
the first one with the values mapped: same table, same stamps, same count. For this it is enough
that each program of the second run mirrors one of the first, action by action, because no action
looks at a value. `Mirrors` is the relation between programs that says this, and `Twins` are the
pairs of programs that are built from the accesses to one array in the same way.
-/
namespace AtomicSlots

variable {V W H K α β γ δ : Type}

/-- The relation of a value to its image. -/
abbrev ImageBy (g : α → β) (x : α) (y : β) : Prop := y = g x

/-- The same act of storing, with another value. -/
def Occupant.map (f : V → W) (o : Occupant V) : Occupant W := ⟨o.stamp, f o.value⟩

def Exchange.map (f : V → W) (exchange : Exchange V) : Exchange W :=
  ⟨exchange.won, exchange.now.map (.map f)⟩

namespace Memory

/-- The same memory with other values in its occupants. -/
def map (f : V → W) (m : Memory V) : Memory W :=
  ⟨m.table, m.segments.map (·.map (Option.map (.map f))), m.count, m.stamps⟩

variable (f : V → W) (m : Memory V)

@[simp] theorem segmentAt_map (e : UInt64) : (m.map f).segmentAt e = m.segmentAt e := rfl

@[simp] theorem size_map : (m.map f).size = m.size := rfl

theorem content_map (cell : Cell) : (m.map f).content cell = (m.content cell).map (.map f) := by
  simp only [content, map, Array.getElem?_map]
  cases m.segments[cell.segment]? with
  | none => rfl
  | some segment =>
    simp only [Option.map_some, Option.bind_some, Array.getElem?_map]
    cases segment[cell.offset.toNat]? <;> rfl

theorem map_id : m.map id = m := by
  have hsegment : (fun segment : Segment V => segment.map (Option.map (Occupant.map id))) = id := by
    funext segment
    have hcontent : (Option.map (Occupant.map id) : Option (Occupant V) → _) = id :=
      Option.map_id
    rw [hcontent, Array.map_id]
    rfl
  rw [map, hsegment, Array.map_id]

theorem map_emptySegment :
    (emptySegment : Segment V).map (Option.map (Occupant.map f)) = emptySegment := by
  simp [emptySegment]

theorem map_ofEntries (entries : UInt64) :
    (ofEntries entries : Memory V).map f = ofEntries entries := by simp [map, ofEntries]

theorem publish_map (e : UInt64) :
    (m.map f).publish e = ((m.publish e).1, (m.publish e).2.map f) := by
  cases h : m.segmentAt e with
  | some segment =>
    rw [m.publish_of_some h, (m.map f).publish_of_some h]
    simp [map, map_emptySegment]
  | none =>
    rw [m.publish_of_none h, (m.map f).publish_of_none h]
    simp [map, map_emptySegment]

theorem map_stamped (new : Option V) :
    (m.stamped new).map (.map f) = (m.map f).stamped (new.map f) := by cases new <;> rfl

theorem map_store (cell : Cell) (new : Option V) :
    (m.store cell new).map f = (m.map f).store cell (new.map f) := by
  have hsegments : ((m.store cell new).map f).segments =
      ((m.map f).store cell (new.map f)).segments := by
    rw [map, segments_store, segments_store, ← map_stamped]
    apply Array.ext_getElem?
    intro j
    simp only [map, Array.getElem?_map, Array.getElem?_modify]
    split
    · cases m.segments[j]? with
      | none => rfl
      | some segment => simp [Array.map_setIfInBounds]
    · rfl
  cases new <;> exact congrArg (Memory.mk m.table · m.count _) hsegments

theorem swap_map (cell : Cell) (new : Option V) :
    (m.map f).swap cell (new.map f) =
      ((m.swap cell new).1.map (.map f), (m.swap cell new).2.map f) := by
  rw [swap_eq, swap_eq, content_map, map_store]

/-- Whether an exchange takes place is seen from stamps, so equal values make no difference. -/
theorem sameOccupant_map (a b : Option (Occupant V)) :
    sameOccupant (a.map (.map f)) (b.map (.map f)) = sameOccupant a b := by
  simp only [sameOccupant, Option.map_map]
  rfl

theorem exchangeIf_map (cell : Cell) (expected : Option (Occupant V)) (new : Option V) :
    (m.map f).exchangeIf cell (expected.map (.map f)) (new.map f) =
      ((m.exchangeIf cell expected new).1.map f, (m.exchangeIf cell expected new).2.map f) := by
  have hsame : sameOccupant ((m.map f).content cell) (expected.map (.map f)) =
      sameOccupant (m.content cell) expected := by rw [content_map, sameOccupant_map]
  cases h : sameOccupant (m.content cell) expected with
  | true =>
    rw [exchangeIf_of_same new h, exchangeIf_of_same (new.map f) (hsame.trans h), ← map_store,
      ← map_stamped]
    rfl
  | false =>
    rw [exchangeIf_of_not_same new h, exchangeIf_of_not_same (new.map f) (hsame.trans h),
      content_map]
    rfl

theorem segmentValues_map (segment : Segment V) (base : ℕ) :
    segmentValues (segment.map (Option.map (Occupant.map f))) base =
      (segmentValues segment base).map (Prod.map id f) := by
  simp only [segmentValues, Array.toList_map, List.zipIdx_map, List.filterMap_map,
    List.map_filterMap]
  refine List.filterMap_congr fun ⟨content, i⟩ _ => ?_
  cases content <;> rfl

theorem storedBefore_map (e : ℕ) (rest : List (ℕ × V)) :
    (m.map f).storedBefore e (rest.map (Prod.map id f)) =
      (m.storedBefore e rest).map (Prod.map id f) := by
  induction e generalizing rest with
  | zero => rfl
  | succ e ih =>
    have hsegment : (m.map f).table[e]?.join.bind ((m.map f).segments[·]?) =
        (m.table[e]?.join.bind (m.segments[·]?)).map (·.map (Option.map (.map f))) := by
      simp only [map, Array.getElem?_map]
      cases m.table[e]?.join <;> rfl
    rw [storedBefore, storedBefore, hsegment]
    cases m.table[e]?.join.bind (m.segments[·]?) with
    | none => exact ih rest
    | some segment =>
      simp only [Option.map_some, segmentValues_map, ← List.map_append]
      exact ih _

theorem storedValues_map :
    (m.map f).storedValues = m.storedValues.map (Prod.map id f) :=
  storedBefore_map f m m.table.size []

end Memory

/-- The second session holds the images of the first one's values, and the hosts are related. -/
structure Session.Twin (f : V → W) (ρ : H → K → Prop) (s : Session V H) (t : Session W K) :
    Prop where
  memory : t.memory = s.memory.map f
  host : ρ s.host t.host

/-- Two operations ended in the same way: with related answers, or with the same panic. -/
inductive SameEnd (A : α → β → Prop) : Except Panic α → Except Panic β → Prop
  | ok {x : α} {y : β} : A x y → SameEnd A (.ok x) (.ok y)
  | error (reason : Panic) : SameEnd A (.error reason) (.error reason)

theorem SameEnd.eq {x y : Except Panic α} (h : SameEnd Eq x y) : x = y := by
  cases h with
  | ok h => rw [h]
  | error reason => rfl

/-- Hosts that stay related when both take note of the same event. -/
def Journal.Respects [Journal H] [Journal K] (ρ : H → K → Prop) : Prop :=
  ∀ event h k, ρ h k → ρ (Journal.record event h) (Journal.record event k)

variable [Journal H] [Journal K] {f : V → W} {ρ : H → K → Prop}

/-- The second program mirrors the first: from sessions that are twins, each action of the first is
answered by one of the second that leaves twins, and the answers at the end are related. -/
inductive Program.Mirrors (f : V → W) (ρ : H → K → Prop) (A : α → β → Prop) :
    Program V H α → Program W K β → Prop
  | done {x : α} {y : β} : A x y → Mirrors f ρ A (.done x) (.done y)
  | panic (reason : Panic) : Mirrors f ρ A (.panic reason) (.panic reason)
  | step {act : Action V H} {act' : Action W K} {next : act.Result → Program V H α}
      {next' : act'.Result → Program W K β} :
      (∀ s t, Session.Twin f ρ s t → Session.Twin f ρ (act.perform s).2 (act'.perform t).2) →
      (∀ s t, Session.Twin f ρ s t →
        Mirrors f ρ A (next (act.perform s).1) (next' (act'.perform t).1)) →
      Mirrors f ρ A (.step act next) (.step act' next')

namespace Program.Mirrors

variable {A : α → β → Prop} {B : γ → δ → Prop} {p : Program V H α} {q : Program W K β}

theorem bind (h : p.Mirrors f ρ A q) {g : α → Program V H γ} {k : β → Program W K δ}
    (hg : ∀ x y, A x y → (g x).Mirrors f ρ B (k y)) : (p >>= g).Mirrors f ρ B (q >>= k) := by
  induction h with
  | done hxy => exact hg _ _ hxy
  | panic reason => exact .panic reason
  | step hact _ ih => exact .step hact ih

theorem mono (h : p.Mirrors f ρ A q) {B : α → β → Prop} (hAB : ∀ x y, A x y → B x y) :
    p.Mirrors f ρ B q := by
  induction h with
  | done hxy => exact .done (hAB _ _ hxy)
  | panic reason => exact .panic reason
  | step hact _ ih => exact .step hact ih

theorem map (h : p.Mirrors f ρ A q) {g : α → γ} {k : β → δ}
    (hg : ∀ x y, A x y → B (g x) (k y)) : (g <$> p).Mirrors f ρ B (k <$> q) :=
  h.bind fun x y hxy => .done (hg x y hxy)

theorem caught (h : p.Mirrors f ρ A q) : p.caught.Mirrors f ρ (SameEnd A) q.caught := by
  induction h with
  | done hxy => exact .done (.ok hxy)
  | panic reason => exact .done (.error reason)
  | step hact _ ih => exact .step hact ih

theorem perform (act : Action V H) (act' : Action W K) {A : act.Result → act'.Result → Prop}
    (h : ∀ s t, Session.Twin f ρ s t → Session.Twin f ρ (act.perform s).2 (act'.perform t).2 ∧
      A (act.perform s).1 (act'.perform t).1) :
    (Program.perform act).Mirrors f ρ A (Program.perform act') :=
  .step (fun s t hst => (h s t hst).1) fun s t hst => .done (h s t hst).2

/-- A program and its mirror image end in the same way, in sessions that are twins. -/
theorem run (h : p.Mirrors f ρ A q) {s : Session V H} {t : Session W K}
    (hst : Session.Twin f ρ s t) :
    SameEnd A (p.run s).1 (q.run t).1 ∧ Session.Twin f ρ (p.run s).2 (q.run t).2 := by
  induction h generalizing s t with
  | done hxy => exact ⟨.ok hxy, hst⟩
  | panic reason => exact ⟨.error reason, hst⟩
  | step hact _ ih => exact ih s t hst (hact s t hst)

/-! Single actions. -/

section

variable (f : V → W) (ρ : H → K → Prop)


theorem loadEntry (e : UInt64) :
    (Program.perform (.loadEntry e) : Program V H (Option ℕ)).Mirrors f ρ Eq
      (Program.perform (.loadEntry e) : Program W K (Option ℕ)) := by
  refine perform (.loadEntry e) (.loadEntry e) fun s t hst => ⟨hst, ?_⟩
  change s.memory.segmentAt e = t.memory.segmentAt e
  rw [hst.memory, Memory.segmentAt_map]

theorem publish (e : UInt64) :
    (Program.perform (.publish e) : Program V H Publication).Mirrors f ρ Eq
      (Program.perform (.publish e) : Program W K Publication) := by
  refine perform (.publish e) (.publish e) fun s t hst => ?_
  have heq : t.memory.publish e = ((s.memory.publish e).1, (s.memory.publish e).2.map f) := by
    rw [hst.memory, Memory.publish_map]
  exact ⟨⟨congrArg Prod.snd heq, hst.host⟩, (congrArg Prod.fst heq).symm⟩

theorem load (cell : Cell) :
    (cell.load : Program V H _).Mirrors f ρ (ImageBy (Option.map (.map f))) cell.load := by
  refine perform (.load cell) (.load cell) fun s t hst => ⟨hst, ?_⟩
  change t.memory.content cell = (s.memory.content cell).map (.map f)
  rw [hst.memory, Memory.content_map]

theorem exchangeIf (cell : Cell) (expected : Option (Occupant V)) (new : Option V) :
    (cell.exchangeIf expected new : Program V H _).Mirrors f ρ (ImageBy (Exchange.map f))
      (cell.exchangeIf (expected.map (.map f)) (new.map f)) := by
  refine perform (.exchangeIf cell expected new)
    (.exchangeIf cell (expected.map (.map f)) (new.map f)) fun s t hst => ?_
  have heq : t.memory.exchangeIf cell (expected.map (.map f)) (new.map f) =
      ((s.memory.exchangeIf cell expected new).1.map f,
        (s.memory.exchangeIf cell expected new).2.map f) := by
    rw [hst.memory, Memory.exchangeIf_map]
  exact ⟨⟨congrArg Prod.snd heq, hst.host⟩, congrArg Prod.fst heq⟩

theorem swap (cell : Cell) (new : Option V) :
    (cell.swap new : Program V H _).Mirrors f ρ (ImageBy (Option.map (.map f)))
      (cell.swap (new.map f)) := by
  refine perform (.swap cell new) (.swap cell (new.map f)) fun s t hst => ?_
  have heq : t.memory.swap cell (new.map f) =
      ((s.memory.swap cell new).1.map (.map f), (s.memory.swap cell new).2.map f) := by
    rw [hst.memory, Memory.swap_map]
  exact ⟨⟨congrArg Prod.snd heq, hst.host⟩, congrArg Prod.fst heq⟩

theorem retire (o : Occupant V) :
    (Program.perform (.retire o) : Program V H Unit).Mirrors f ρ Eq
      (Program.perform (.retire (o.map f))) :=
  perform (.retire o) (.retire (o.map f)) fun _ _ hst => ⟨hst, rfl⟩

theorem adjustCount (change : ℤ) :
    (Program.adjustCount change : Program V H Unit).Mirrors f ρ Eq
      (Program.adjustCount change) := by
  refine perform (.adjust change) (.adjust change) fun s t hst => ⟨⟨?_, hst.host⟩, rfl⟩
  change t.memory.adjust change = (s.memory.adjust change).map f
  rw [hst.memory]
  rfl

theorem readSize : (Program.readSize : Program V H ℕ).Mirrors f ρ Eq Program.readSize := by
  refine perform .readSize .readSize fun s t hst => ⟨hst, ?_⟩
  change s.memory.size = t.memory.size
  rw [hst.memory, Memory.size_map]

theorem readHost : (Program.readHost : Program V H H).Mirrors f ρ ρ Program.readHost :=
  perform .readHost .readHost fun _ _ hst => ⟨hst, hst.host⟩

theorem changeHost {change : H → H} {change' : K → K}
    (h : ∀ x y, ρ x y → ρ (change x) (change' y)) :
    (Program.changeHost change : Program V H Unit).Mirrors f ρ Eq
      (Program.changeHost change') :=
  perform (.changeHost change) (.changeHost change')
    fun _ _ hst => ⟨⟨hst.memory, h _ _ hst.host⟩, rfl⟩

theorem emit (hρ : Journal.Respects ρ) (event : TraceEvent) :
    (Program.emit event : Program V H Unit).Mirrors f ρ Eq (Program.emit event) :=
  perform (.emit event) (.emit event) fun _ _ hst => ⟨⟨hst.memory, hρ event _ _ hst.host⟩, rfl⟩

end

/-! Ways to a cell. They depend on the table and on which cells are occupied. -/

theorem segmentOrFresh (hρ : Journal.Respects ρ) (e : UInt64) :
    (segmentOrFresh e : Program V H ℕ).Mirrors f ρ Eq (segmentOrFresh e) := by
  refine .bind (loadEntry f ρ e) ?_
  rintro found _ rfl
  cases found with
  | some segment => exact .done rfl
  | none =>
    refine .bind (publish f ρ e) ?_
    rintro ⟨fresh, found⟩ _ rfl
    cases found with
    | none => exact .bind (emit f ρ hρ _) fun _ _ _ => .done rfl
    | some segment => exact .bind (emit f ρ hρ _) fun _ _ _ => .done rfl

theorem access (hρ : Journal.Respects ρ) (a : SlotArray) (purpose : Access) (i : UInt64)
    {use : Cell → Program V H α} {use' : Cell → Program W K β}
    (h : ∀ cell, (use cell).Mirrors f ρ A (use' cell)) :
    (a.access purpose i use).Mirrors f ρ (Option.Rel A) (a.access purpose i use') := by
  have huse : ∀ cell, (some <$> use cell).Mirrors f ρ (Option.Rel A) (some <$> use' cell) :=
    fun cell => (h cell).map fun _ _ => .some
  by_cases hi : i < a.capacity
  · have hload : ∀ purpose, purpose ≠ .fill →
        (a.access purpose i use).Mirrors f ρ (Option.Rel A) (a.access purpose i use') := by
      intro purpose hp
      rw [SlotArray.access_of_lt hi hp, SlotArray.access_of_lt hi hp]
      refine .bind (loadEntry f ρ _) ?_
      rintro found _ rfl
      cases found with
      | none => exact .done .none
      | some segment => exact huse _
    cases purpose with
    | fill =>
      rw [SlotArray.access_fill_of_lt hi, SlotArray.access_fill_of_lt hi]
      refine .bind (segmentOrFresh hρ _) ?_
      rintro segment _ rfl
      exact huse _
    | inspect => exact hload .inspect (by decide)
    | vacate => exact hload .vacate (by decide)
  · have hle := UInt64.not_lt.mp hi
    rw [SlotArray.access_of_le hle, SlotArray.access_of_le hle]
    exact .done .none

variable (f ρ) in
theorem firstInSegment (segment n : ℕ) (offset : UInt64) :
    (firstInSegment segment n offset : Program V H _).Mirrors f ρ
      (ImageBy (Option.map (Prod.map id (.map f)))) (firstInSegment segment n offset) := by
  induction n generalizing offset with
  | zero => exact .done rfl
  | succ n ih =>
    refine .bind (load f ρ ⟨segment, offset⟩) ?_
    rintro found _ rfl
    cases found with
    | some o => exact .done rfl
    | none => exact ih (offset + 1)

/-- Scans of two memories find the same slots if the memories have the same table and the same
occupied cells. -/
theorem firstFrom (a : SlotArray) (i : UInt64) :
    (a.firstFrom i : Program V H _).Mirrors f ρ
      (ImageBy (Option.map (Prod.map id (.map f)))) (a.firstFrom i) := by
  suffices hscan : ∀ n i, (a.scan n i : Program V H _).Mirrors f ρ
      (ImageBy (Option.map (Prod.map id (.map f)))) (a.scan n i) from hscan _ i
  intro n
  induction n with
  | zero => exact fun _ => .done rfl
  | succ n ih =>
    intro i
    rw [SlotArray.scan, SlotArray.scan]
    split
    · refine .bind (loadEntry f ρ _) ?_
      rintro found _ rfl
      cases found with
      | none => exact ih _
      | some segment =>
        refine .bind (firstInSegment f ρ segment _ _) ?_
        rintro found _ rfl
        cases found with
        | none => exact ih _
        | some item => exact .done rfl
    · exact .done rfl

end Program.Mirrors

/-! Threads and pools. -/

/-- Two threads of which the second mirrors what the first one has still to do, after answers that
are related. -/
structure Thread.Mirrors (f : V → W) (ρ : H → K → Prop) (A : α → β → Prop) (thread : Thread V H α)
    (twin : Thread W K β) : Prop where
  todo : List.Forall₂ (Program.Mirrors f ρ A) thread.todo twin.todo
  answers : List.Forall₂ (SameEnd A) thread.answers twin.answers

/-- Two pools of which the second mirrors the first, thread by thread. -/
structure Pool.Mirrors (f : V → W) (ρ : H → K → Prop) (A : α → β → Prop) (pool : Pool V H α)
    (twin : Pool W K β) : Prop where
  session : Session.Twin f ρ pool.session twin.session
  threads : List.Forall₂ (Thread.Mirrors f ρ A) pool.threads twin.threads

variable {A : α → β → Prop}

omit [Journal H] [Journal K] in
theorem forall₂_set {R : α → β → Prop} {xs : List α} {ys : List β} (h : List.Forall₂ R xs ys)
    {x : α} {y : β} (hxy : R x y) (k : ℕ) : List.Forall₂ R (xs.set k x) (ys.set k y) := by
  induction h generalizing k with
  | nil => exact .nil
  | cons hhead htail ih =>
    cases k with
    | zero => exact .cons hxy htail
    | succ k => exact .cons hhead (ih k)

theorem Thread.Mirrors.step {thread : Thread V H α} {twin : Thread W K β}
    (h : thread.Mirrors f ρ A twin) {s : Session V H} {t : Session W K}
    (hst : Session.Twin f ρ s t) :
    Thread.Mirrors f ρ A (thread.step s).1 (twin.step t).1 ∧
      Session.Twin f ρ (thread.step s).2 (twin.step t).2 := by
  obtain ⟨todo, answers⟩ := thread
  obtain ⟨todo', answers'⟩ := twin
  obtain ⟨htodo, hanswers⟩ := h
  cases htodo with
  | nil => exact ⟨⟨.nil, hanswers⟩, hst⟩
  | cons hp hrest =>
    cases hp with
    | done hxy => exact ⟨⟨hrest, .cons (.ok hxy) hanswers⟩, hst⟩
    | panic reason => exact ⟨⟨hrest, .cons (.error reason) hanswers⟩, hst⟩
    | step hact hnext => exact ⟨⟨.cons (hnext s t hst) hrest, hanswers⟩, hact s t hst⟩

namespace Pool.Mirrors

variable {pool : Pool V H α} {twin : Pool W K β}

/-- A turn of a thread and the same turn of its mirror image. -/
theorem step (h : pool.Mirrors f ρ A twin) (k : ℕ) : (pool.step k).Mirrors f ρ A (twin.step k) := by
  cases hk : pool.threads[k]? with
  | none =>
    have hk' : twin.threads[k]? = none := by
      rw [List.getElem?_eq_none_iff] at hk ⊢
      rwa [← h.threads.length_eq]
    rw [Pool.step, Pool.step, hk, hk']
    exact h
  | some thread =>
    obtain ⟨hlt, rfl⟩ := List.getElem?_eq_some_iff.mp hk
    have hlt' : k < twin.threads.length := by rwa [← h.threads.length_eq]
    have hthread := (h.threads.get hlt hlt').step h.session
    rw [step_of_thread hk, step_of_thread (List.getElem?_eq_getElem hlt')]
    exact ⟨hthread.2, forall₂_set h.threads hthread.1 k⟩

/-- Under every schedule the second pool goes the same way as the first. -/
theorem run (h : pool.Mirrors f ρ A twin) (schedule : List ℕ) :
    (pool.run schedule).Mirrors f ρ A (twin.run schedule) := by
  induction schedule generalizing pool twin with
  | nil => exact h
  | cons k rest ih => exact ih (h.step k)

end Pool.Mirrors

namespace SlotArray

/-- Pairs of programs that use an array in the same way, the second one with the images of the
first one's values. Programs that run inside are twins again, and twins may do different things
with different answers only as far as the answers' relation shows the difference. -/
inductive Twins (a : SlotArray) (f : V → W) (ρ : H → K → Prop) :
    {α β : Type} → (α → β → Prop) → Program V H α → Program W K β → Prop
  | done {α β : Type} {A : α → β → Prop} {x : α} {y : β} :
      A x y → Twins a f ρ A (.done x) (.done y)
  | panic {α β : Type} {A : α → β → Prop} (reason : Panic) :
      Twins a f ρ A (.panic reason) (.panic reason)
  | bind {α β γ δ : Type} {A : α → β → Prop} {B : γ → δ → Prop} {p : Program V H α}
      {q : Program W K β} {g : α → Program V H γ} {k : β → Program W K δ} :
      Twins a f ρ A p q → (∀ x y, A x y → Twins a f ρ B (g x) (k y)) →
      Twins a f ρ B (p >>= g) (q >>= k)
  | caught {α β : Type} {A : α → β → Prop} {p : Program V H α} {q : Program W K β} :
      Twins a f ρ A p q → Twins a f ρ (SameEnd A) p.caught q.caught
  | readHost : Twins a f ρ ρ .readHost .readHost
  | changeHost {change : H → H} {change' : K → K} :
      (∀ x y, ρ x y → ρ (change x) (change' y)) →
      Twins a f ρ Eq (.changeHost change) (.changeHost change')
  | emit (event : TraceEvent) : Twins a f ρ Eq (.emit event) (.emit event)
  | size : Twins a f ρ Eq size size
  | adjustCount (change : ℤ) : Twins a f ρ Eq (.adjustCount change) (.adjustCount change)
  | load (cell : Cell) : Twins a f ρ (ImageBy (Option.map (.map f))) cell.load cell.load
  | exchangeIf (cell : Cell) (expected : Option (Occupant V)) (new : Option V) :
      Twins a f ρ (ImageBy (Exchange.map f)) (cell.exchangeIf expected new)
        (cell.exchangeIf (expected.map (.map f)) (new.map f))
  | swap (cell : Cell) (new : Option V) :
      Twins a f ρ (ImageBy (Option.map (.map f))) (cell.swap new) (cell.swap (new.map f))
  | retire (o : Occupant V) :
      Twins a f ρ Eq (.perform (.retire o)) (.perform (.retire (o.map f)))
  | access (purpose : Access) (i : UInt64) {α β : Type} {A : α → β → Prop}
      {use : Cell → Program V H α} {use' : Cell → Program W K β} :
      (∀ cell, Twins a f ρ A (use cell) (use' cell)) →
      Twins a f ρ (Option.Rel A) (a.access purpose i use) (a.access purpose i use')
  | firstFrom (i : UInt64) :
      Twins a f ρ (ImageBy (Option.map (Prod.map id (.map f)))) (a.firstFrom i) (a.firstFrom i)

namespace Twins

variable {a : SlotArray} {B : γ → δ → Prop} {p : Program V H α} {q : Program W K β}

omit [Journal H] [Journal K] in
theorem map (h : a.Twins f ρ A p q) {g : α → γ} {k : β → δ} (hg : ∀ x y, A x y → B (g x) (k y)) :
    a.Twins f ρ B (g <$> p) (k <$> q) := .bind h fun x y hxy => .done (hg x y hxy)

omit [Journal H] [Journal K] in
theorem retire? (found : Option (Occupant V)) :
    a.Twins f ρ Eq (Cell.retire? found : Program V H Unit)
      (Cell.retire? (found.map (.map f))) := by
  cases found with
  | none => exact .done rfl
  | some o => exact .retire o

/-- Twins mirror each other. -/
theorem mirrors (hρ : Journal.Respects ρ) (h : a.Twins f ρ A p q) : p.Mirrors f ρ A q := by
  induction h with
  | done hxy => exact .done hxy
  | panic reason => exact .panic reason
  | bind _ _ ihp ihg => exact ihp.bind ihg
  | caught _ ih => exact ih.caught
  | readHost => exact .readHost f ρ
  | changeHost hchange => exact .changeHost f ρ hchange
  | emit event => exact .emit f ρ hρ event
  | size => exact .readSize f ρ
  | adjustCount change => exact .adjustCount f ρ change
  | load cell => exact .load f ρ cell
  | exchangeIf cell expected new => exact .exchangeIf f ρ cell expected new
  | swap cell new => exact .swap f ρ cell new
  | retire o => exact .retire f ρ o
  | access purpose i _ ih => exact .access hρ a purpose i ih
  | firstFrom i => exact .firstFrom a i

end Twins

end SlotArray

/-- Threads that perform lists of twins mirror each other. -/
theorem Pool.Mirrors.of_twins {a : SlotArray} (hρ : Journal.Respects ρ) {s : Session V H}
    {t : Session W K} (hst : Session.Twin f ρ s t) {lists : List (List (Program V H α))}
    {lists' : List (List (Program W K β))}
    (h : List.Forall₂ (List.Forall₂ (a.Twins f ρ A)) lists lists') :
    Pool.Mirrors f ρ A ⟨s, lists.map .ofPrograms⟩ ⟨t, lists'.map .ofPrograms⟩ := by
  refine ⟨hst, ?_⟩
  rw [List.forall₂_map_left_iff, List.forall₂_map_right_iff]
  exact h.imp fun _ _ hlist => ⟨hlist.imp fun _ _ htwins => htwins.mirrors hρ, .nil⟩

end AtomicSlots
