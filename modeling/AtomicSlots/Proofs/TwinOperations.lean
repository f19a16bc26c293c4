import AtomicSlots.Proofs.Twins

/-!
# Operations as twins

Every operation of a slot array, given the image of a value where the other one is given the value
itself and given twins for callbacks, is the twin of itself. Answers in which values occur are
images; all other answers are the same.
-/
namespace AtomicSlots

variable {V W H K : Type}

/-- The same outcome with the images of its values. -/
def Filling.map (f : V → W) : Filling V → Filling W
  | stored value => .stored (f value)
  | refused found => .refused (found.map f)

@[simp] theorem Filling.isStored_map (f : V → W) (filling : Filling V) :
    (filling.map f).isStored = filling.isStored := by cases filling <;> rfl

@[simp] theorem Filling.value?_map (f : V → W) (filling : Filling V) :
    (filling.map f).value? = filling.value?.map f := by cases filling <;> rfl

/-- A found slot with the image of its value. -/
abbrev mapItem (f : V → W) : UInt64 × V → UInt64 × W := Prod.map id f

/-- What a step of a walk yields, with the image of its value. The cursor stays the same. -/
abbrev mapFound (f : V → W) : Option (UInt64 × V) × Cursor → Option (UInt64 × W) × Cursor :=
  Prod.map (Option.map (mapItem f)) id

/-- What a walk has gathered, with the images of the values. -/
abbrev mapGathered (f : V → W) : List (UInt64 × V) × Cursor → List (UInt64 × W) × Cursor :=
  Prod.map (List.map (mapItem f)) id

theorem map_snd_mapItem {ι : Type} (f : V → W) (items : List (ι × V)) :
    (items.map (Prod.map id f)).map Prod.snd = (items.map Prod.snd).map f := by
  rw [List.map_map, List.map_map]
  rfl

theorem map_value_map (f : V → W) (content : Option (Occupant V)) :
    (content.map (.map f)).map Occupant.value = (content.map Occupant.value).map f := by
  cases content <;> rfl

namespace SlotArray.Twins

variable {a : SlotArray} {f : V → W} {ρ : H → K → Prop}

/-! Programs on one cell. -/

theorem cellFill (cell : Cell) {make : Program V H V} {make' : Program W K W}
    (h : a.Twins f ρ (ImageBy f) make make') :
    a.Twins f ρ (ImageBy (Filling.map f)) (cell.fill make) (cell.fill make') := by
  refine .bind (.load cell) ?_
  rintro found _ rfl
  cases found with
  | some o => exact .done rfl
  | none =>
    refine .bind h ?_
    rintro v _ rfl
    refine .bind (.exchangeIf cell none (some v)) ?_
    rintro ⟨won, now⟩ _ rfl
    cases won with
    | true => exact .done rfl
    | false => exact .done (congrArg Filling.refused (map_value_map f now))

theorem replace (cell : Cell) (new : Option V) :
    a.Twins f ρ (ImageBy (Option.map (.map f))) (cell.replace new : Program V H _)
      (cell.replace (new.map f)) := by
  refine .bind (.swap cell new) ?_
  rintro old _ rfl
  exact .bind (.retire? old) fun _ _ _ => .done rfl

theorem revise (cell : Cell) {accepts : V → Program V H Bool} {accepts' : W → Program W K Bool}
    {change : V → Program V H (Option V)} {change' : W → Program W K (Option W)}
    (ha : ∀ v, a.Twins f ρ Eq (accepts v) (accepts' (f v)))
    (hc : ∀ v, a.Twins f ρ (ImageBy (Option.map f)) (change v) (change' (f v))) :
    a.Twins f ρ Eq (cell.revise accepts change) (cell.revise accepts' change') := by
  refine .bind (.load cell) ?_
  rintro found _ rfl
  cases found with
  | none => exact .done rfl
  | some o =>
    refine .bind (ha o.value) ?_
    rintro yes _ rfl
    cases yes with
    | false => exact .done rfl
    | true =>
      refine .bind (hc o.value) ?_
      rintro new _ rfl
      refine .bind (.exchangeIf cell (some o) new) ?_
      rintro ⟨won, now⟩ _ rfl
      cases won with
      | true => exact .bind (.retire? (some o)) fun _ _ _ => .done rfl
      | false => cases now <;> exact .done rfl

/-! Operations on one slot. -/

/-- An access whose signal is the answer. What the signals of the two programs have to do with each
other decides what their answers have to do with each other. -/
theorem accessSignal (purpose : Access) (i : UInt64) {S : Bool → Bool → Prop} (hS : S false false)
    {use : Cell → Program V H Bool} {use' : Cell → Program W K Bool}
    (h : ∀ cell, a.Twins f ρ S (use cell) (use' cell)) :
    a.Twins f ρ S (a.accessSignal purpose i use) (a.accessSignal purpose i use') := by
  refine .map (.access purpose i h) ?_
  rintro _ _ (hxy | -)
  · exact hxy
  · exact hS

theorem isEmpty : a.Twins f ρ Eq (isEmpty : Program V H Bool) isEmpty :=
  .map .size fun _ _ h => by rw [h]

theorem fill (i : UInt64) {make : Program V H V} {make' : Program W K W}
    (h : a.Twins f ρ (ImageBy f) make make') :
    a.Twins f ρ (ImageBy (Filling.map f)) (a.fill i make) (a.fill i make') := by
  refine .bind (.access .fill i fun cell => cellFill cell h) ?_
  rintro _ _ (⟨rfl⟩ | -)
  · rename_i filling
    cases filling with
    | stored v => exact .bind (.adjustCount 1) fun _ _ _ => .done rfl
    | refused found => exact .done rfl
  · exact .done rfl

theorem insert (i : UInt64) (v : V) :
    a.Twins f ρ Eq (a.insert i v : Program V H Bool) (a.insert i (f v)) :=
  .map (fill i (.done rfl)) fun filling _ h => by rw [h, Filling.isStored_map]

theorem getOrFill (i : UInt64) {make : Program V H V} {make' : Program W K W}
    (h : a.Twins f ρ (ImageBy f) make make') :
    a.Twins f ρ (ImageBy (Option.map f)) (a.getOrFill i make) (a.getOrFill i make') :=
  .map (fill i h) fun filling _ h => by rw [h, Filling.value?_map]

theorem getOrInsert (i : UInt64) (v : V) :
    a.Twins f ρ (ImageBy (Option.map f)) (a.getOrInsert i v : Program V H _)
      (a.getOrInsert i (f v)) := getOrFill i (.done rfl)

theorem swapSlot (i : UInt64) (v : V) :
    a.Twins f ρ (ImageBy (Option.map (Option.map f))) (a.swap i v : Program V H _)
      (a.swap i (f v)) := by
  refine .bind (.access .fill i fun cell => replace cell (some v)) ?_
  rintro _ _ (⟨rfl⟩ | -)
  · rename_i old
    cases old with
    | none => exact .bind (.adjustCount 1) fun _ _ _ => .done rfl
    | some o => exact .done rfl
  · exact .done rfl

theorem exchange (i : UInt64) (v : V) :
    a.Twins f ρ (ImageBy fun result => (result.map (Option.map f)).mapError f)
      (a.exchange i v : Program V H (Except V (Option V))) (a.exchange i (f v)) := by
  refine .bind (swapSlot i v) ?_
  rintro old _ rfl
  cases old <;> exact .done rfl

theorem set (i : UInt64) (v : V) :
    a.Twins f ρ Eq (a.set i v : Program V H Bool) (a.set i (f v)) := by
  refine .bind (swapSlot i v) ?_
  rintro old _ rfl
  rcases old with _ | _ | old <;> exact .done rfl

theorem take (i : UInt64) :
    a.Twins f ρ (ImageBy (Option.map f)) (a.take i : Program V H _) (a.take i) := by
  refine .bind (.access .vacate i fun cell => replace cell none) ?_
  rintro _ _ (⟨rfl⟩ | -)
  · rename_i old
    cases old with
    | none => exact .done rfl
    | some o => exact .bind (.adjustCount (-1)) fun _ _ _ => .done rfl
  · exact .done rfl

theorem erase (i : UInt64) : a.Twins f ρ Eq (a.erase i : Program V H Bool) (a.erase i) :=
  .map (take i) fun old _ h => by rw [h, Option.isSome_map]

theorem eraseIf (i : UInt64) {accepts : V → Program V H Bool} {accepts' : W → Program W K Bool}
    (h : ∀ v, a.Twins f ρ Eq (accepts v) (accepts' (f v))) :
    a.Twins f ρ Eq (a.eraseIf i accepts) (a.eraseIf i accepts') := by
  refine .bind (.access .vacate i fun cell => revise cell h fun _ => .done rfl) ?_
  rintro _ _ (⟨rfl⟩ | -)
  · rename_i attempt
    cases attempt with
    | committed => exact .bind (.adjustCount (-1)) fun _ _ _ => .done rfl
    | absent | rejected | replaced | vacated => exact .done rfl
  · exact .done rfl

theorem update (i : UInt64) {factory : V → Program V H V} {factory' : W → Program W K W}
    {accepts : V → Program V H Bool} {accepts' : W → Program W K Bool}
    (hf : ∀ v, a.Twins f ρ (ImageBy f) (factory v) (factory' (f v)))
    (ha : ∀ v, a.Twins f ρ Eq (accepts v) (accepts' (f v))) :
    a.Twins f ρ Eq (a.update i factory accepts) (a.update i factory' accepts') := by
  have hrevise : ∀ cell : Cell, a.Twins f ρ Eq
      (cell.revise accepts fun v => some <$> factory v)
      (cell.revise accepts' fun w => some <$> factory' w) := fun cell =>
    revise cell ha fun v => .map (hf v) fun _ _ h => by rw [h]; rfl
  refine .map (.access .inspect i hrevise) ?_
  rintro _ _ (⟨rfl⟩ | -) <;> rfl

theorem get? (i : UInt64) :
    a.Twins f ρ (ImageBy (Option.map f)) (a.get? i : Program V H _) (a.get? i) := by
  refine .bind (.access .inspect i fun cell => .load cell) ?_
  rintro _ _ (⟨rfl⟩ | -)
  · exact .done (map_value_map f _)
  · exact .done rfl

theorem contains (i : UInt64) :
    a.Twins f ρ Eq (a.contains i : Program V H Bool) (a.contains i) :=
  accessSignal .inspect i rfl fun cell =>
    .map (.load cell) fun content _ h => by rw [h, Option.isSome_map]

theorem updateRetry (i : UInt64) {factory : ℕ → V → Program V H V}
    {factory' : ℕ → W → Program W K W} {accepts : ℕ → V → Program V H Bool}
    {accepts' : ℕ → W → Program W K Bool}
    (hf : ∀ k v, a.Twins f ρ (ImageBy f) (factory k v) (factory' k (f v)))
    (ha : ∀ k v, a.Twins f ρ Eq (accepts k v) (accepts' k (f v))) (n : ℕ) :
    a.Twins f ρ Eq (a.updateRetry i factory accepts n) (a.updateRetry i factory' accepts' n) := by
  suffices h : ∀ made asked outcomes, a.Twins f ρ Eq
      (updateRetry.go a i factory accepts n made asked outcomes)
      (updateRetry.go a i factory' accepts' n made asked outcomes) from h 0 0 []
  induction n with
  | zero => exact fun _ _ _ => .done rfl
  | succ n ih =>
    intro made asked outcomes
    refine .bind (update i (hf made) (ha asked)) ?_
    rintro attempt _ rfl
    cases attempt <;> first | exact .done rfl | exact ih _ _ _

theorem eraseRetry (i : UInt64) {accepts : ℕ → V → Program V H Bool}
    {accepts' : ℕ → W → Program W K Bool}
    (ha : ∀ k v, a.Twins f ρ Eq (accepts k v) (accepts' k (f v))) (n : ℕ) :
    a.Twins f ρ Eq (a.eraseRetry i accepts n) (a.eraseRetry i accepts' n) := by
  suffices h : ∀ asked tries, a.Twins f ρ Eq (eraseRetry.go a i accepts n asked tries)
      (eraseRetry.go a i accepts' n asked tries) from h 0 []
  induction n with
  | zero => exact fun _ _ => .done rfl
  | succ n ih =>
    intro asked tries
    refine .bind (contains i) ?_
    rintro found _ rfl
    cases found with
    | false => exact .done rfl
    | true =>
      refine .bind (eraseIf i (ha asked)) ?_
      rintro attempt _ rfl
      cases attempt <;> first | exact .done rfl | exact ih _ _

/-! Walks over many slots. -/

theorem next (cursor : Cursor) :
    a.Twins f ρ (ImageBy (mapFound f)) (a.next cursor : Program V H _) (a.next cursor) := by
  refine .bind (.firstFrom _) ?_
  rintro found _ rfl
  cases found <;> exact .done rfl

theorem nextWhere {save : Cursor → Program V H Unit} {save' : Cursor → Program W K Unit}
    {accepts : ℕ → UInt64 → V → Program V H Bool} {accepts' : ℕ → UInt64 → W → Program W K Bool}
    (hs : ∀ cursor, a.Twins f ρ Eq (save cursor) (save' cursor))
    (ha : ∀ k i v, a.Twins f ρ Eq (accepts k i v) (accepts' k i (f v))) (cursor : Cursor) :
    a.Twins f ρ (ImageBy (mapFound f)) (a.nextWhere save accepts cursor)
      (a.nextWhere save' accepts' cursor) := by
  suffices h : ∀ n cursor, a.Twins f ρ (ImageBy (mapFound f)) (nextWhere.go a save accepts n cursor)
      (nextWhere.go a save' accepts' n cursor) from h _ cursor
  intro n
  induction n with
  | zero => exact fun _ => .done rfl
  | succ n ih =>
    intro cursor
    refine .bind (next cursor) ?_
    rintro ⟨found, after⟩ _ rfl
    cases found with
    | none => exact .done rfl
    | some item =>
      refine .bind (hs after) fun _ _ _ => .bind (ha _ _ _) ?_
      rintro accepted _ rfl
      cases accepted with
      | false => exact ih after
      | true => exact .done rfl

section

variable {step : Cursor → Program V H (Option (UInt64 × V) × Cursor)}
  {step' : Cursor → Program W K (Option (UInt64 × W) × Cursor)}
  (h : ∀ cursor, a.Twins f ρ (ImageBy (mapFound f)) (step cursor) (step' cursor))

include h

theorem gather (n : ℕ) (cursor : Cursor) (items : List (UInt64 × V)) :
    a.Twins f ρ (ImageBy (mapGathered f)) (SlotArray.gather step n cursor items)
      (SlotArray.gather step' n cursor (items.map (mapItem f))) := by
  have hreverse : ∀ (items : List (UInt64 × V)) cursor,
      ImageBy (mapGathered f) (items.reverse, cursor)
        ((items.map (mapItem f)).reverse, cursor) := by
    intro items cursor
    rw [← List.map_reverse]
    rfl
  induction n generalizing cursor items with
  | zero => exact .done (hreverse items cursor)
  | succ n ih =>
    refine .bind (h cursor) ?_
    rintro ⟨found, after⟩ _ rfl
    cases found with
    | none => exact .done (hreverse items after)
    | some item => exact ih after (item :: items)

theorem drain (cursor : Cursor) :
    a.Twins f ρ (ImageBy (mapGathered f)) (a.drain step cursor) (a.drain step' cursor) :=
  gather h _ cursor []

end

theorem toList :
    a.Twins f ρ (ImageBy (List.map (mapItem f))) (a.toList : Program V H _) a.toList :=
  .map (drain next _) fun _ _ h => by rw [h]; rfl

theorem forEach {body : ℕ → V → Program V H Unit} {body' : ℕ → W → Program W K Unit}
    (h : ∀ k v, a.Twins f ρ Eq (body k v) (body' k (f v))) :
    a.Twins f ρ (ImageBy (List.map f)) (a.forEach body) (a.forEach body') := by
  refine .bind (A := ImageBy (mapGathered f)) (drain (fun cursor => ?_) _) ?_
  · refine .bind (next cursor) ?_
    rintro ⟨found, after⟩ _ rfl
    cases found with
    | none => exact .done rfl
    | some item => exact .bind (h _ _) fun _ _ _ => .done rfl
  · rintro ⟨items, cursor⟩ _ rfl
    exact .done (map_snd_mapItem f items)

theorem clear : a.Twins f ρ Eq (a.clear : Program V H Unit) a.clear := by
  suffices h : ∀ n start, a.Twins f ρ Eq (clear.go a n start : Program V H Unit)
      (clear.go a n start) from h _ 0
  intro n
  induction n with
  | zero => exact fun _ => .done rfl
  | succ n ih =>
    intro start
    refine .bind (.firstFrom start) ?_
    rintro found _ rfl
    cases found with
    | none => exact .done rfl
    | some item =>
      exact .bind (.map (take item.1) (B := Eq) fun _ _ _ => rfl) fun _ _ _ => ih _

theorem overwrite_map (target : List V) (offset : ℕ) (values : List V) :
    overwrite (target.map f) offset (values.map f) = (overwrite target offset values).map f := by
  simp [overwrite]

theorem copyTo (target : List V) (offset : ℕ) :
    a.Twins f ρ (ImageBy (Prod.map id (List.map f)))
      (a.copyTo target offset : Program V H (Except CopyError ℕ × List V))
      (a.copyTo (target.map f) offset) := by
  unfold SlotArray.copyTo
  rw [List.length_map]
  split
  · exact .done rfl
  · refine .bind .size ?_
    rintro needed _ rfl
    split
    · exact .done rfl
    · refine .bind (gather next _ _ []) ?_
      rintro ⟨items, cursor⟩ _ rfl
      refine .done ?_
      change (_, overwrite (target.map f) offset ((items.map (mapItem f)).map Prod.snd)) = _
      rw [map_snd_mapItem, overwrite_map]
      simp

theorem countSuccesses {operation : UInt64 → Program V H Bool}
    {operation' : UInt64 → Program W K Bool}
    (h : ∀ i, a.Twins f ρ Eq (operation i) (operation' i)) (step n index successes : ℕ) :
    a.Twins f ρ Eq (SlotArray.countSuccesses operation step n index successes)
      (SlotArray.countSuccesses operation' step n index successes) := by
  induction n generalizing index successes with
  | zero => exact .done rfl
  | succ n ih =>
    refine .bind (h _) ?_
    rintro success _ rfl
    exact ih _ _

theorem fillRange (value : UInt64 → V) (first stop step : ℕ) :
    a.Twins f ρ Eq (a.fillRange value first stop step : Program V H ℕ)
      (a.fillRange (f ∘ value) first stop step) :=
  countSuccesses (fun i => insert i (value i)) _ _ _ _

theorem eraseRange (first stop step : ℕ) :
    a.Twins f ρ Eq (a.eraseRange first stop step : Program V H ℕ)
      (a.eraseRange first stop step) :=
  countSuccesses (fun i => erase i) _ _ _ _

theorem emitAll (events : List TraceEvent) :
    a.Twins f ρ Eq (.emitAll events : Program V H Unit) (.emitAll events) := by
  induction events with
  | nil => exact .done rfl
  | cons event rest ih => exact .bind (.emit event) fun _ _ _ => ih

theorem insertAll (i : UInt64) (values : List V) :
    a.Twins f ρ Eq (a.insertAll i values : Program V H Unit) (a.insertAll i (values.map f)) := by
  induction values generalizing i with
  | nil => exact .done rfl
  | cons v rest ih =>
    exact .bind (.map (insert i v) (B := Eq) fun _ _ _ => rfl) fun _ _ _ => ih (i + 1)

theorem mono {α β : Type} {A B : α → β → Prop} {p : Program V H α} {q : Program W K β}
    (h : a.Twins f ρ A p q) (hAB : ∀ x y, A x y → B x y) : a.Twins f ρ B p q := by
  rw [← Program.bind_done p, ← Program.bind_done q]
  exact .bind h fun x y hxy => .done (hAB x y hxy)

/-- Two calls of callbacks that note related calls, do twin things and answer in related ways. -/
theorem consult {α β α' β' : Type} {ρ : Notebook V → Notebook W → Prop} {A : β → β' → Prop}
    {site : CallSite} {argument : α → Argument V} {argument' : α' → Argument W}
    {answer : ℕ → α → β} {answer' : ℕ → α' → β'} {aside : ℕ → ScriptProgram V Unit}
    {aside' : ℕ → ScriptProgram W Unit} {call : ℕ} {x : α} {x' : α'}
    (hnote : ∀ h k, ρ h k →
      ρ (h.note (.call site (argument x))) (k.note (.call site (argument' x'))))
    (haside : a.Twins f ρ Eq (aside call) (aside' call)) (panicAt : Option ℕ)
    (hanswer : A (answer call x) (answer' call x')) :
    a.Twins f ρ A (ScriptProgram.consult site argument answer aside panicAt call x)
      (ScriptProgram.consult site argument' answer' aside' panicAt call x') := by
  refine .bind (.changeHost hnote) fun _ _ _ => .bind haside fun _ _ _ => ?_
  split
  · exact .panic _
  · exact .done hanswer

end SlotArray.Twins

end AtomicSlots
