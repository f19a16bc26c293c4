import AtomicSlots.Proofs.Attempts
import AtomicSlots.Proofs.Notices

/-!
# Fills whose callback works on the same array

A fill reads its slot, asks for a value if the slot is empty, and then makes one exchange against an
empty slot. So it does not matter what the callback did to the slot, only whether the slot is empty
when it returns. Whoever fills a slot is told the value that the slot holds then, and there is such a
value unless there is no such slot. This is so in every interleaving of threads, and slots that are
changed by fills only are changed once.
-/
namespace AtomicSlots

variable {V H α β : Type}

open Program SlotArray

namespace SlotArray

variable {a : SlotArray} {i : UInt64}

/-- The session in which a fill looks at its slot: the segment of the slot has come into being. -/
def reaching [Journal H] (a : SlotArray) (i : UInt64) (s : Session V H) : Session V H :=
  if i < a.capacity then
    ((segmentOrFresh (Address.ofIndex i).entry : Program V H ℕ).run s).2
  else
    s

/-- How a fill ends, with the session that it leaves. The callback is asked at most once. -/
inductive FillEnds [Journal H] (a : SlotArray) (i : UInt64) (make : Program V H V)
    (s : Session V H) : Except Panic (Filling V) × Session V H → Prop
  | outside (hi : a.capacity ≤ i) : FillEnds a i make s (.ok (.refused none), s)
  | occupied {v : V} (hv : a.value? s.memory i = some v) :
      FillEnds a i make s (.ok (.refused (some v)), s)
  | panicked {reason : Panic} {t : Session V H} (hi : i < a.capacity)
      (hv : a.value? s.memory i = none) (hmake : make.run (a.reaching i s) = (.error reason, t)) :
      FillEnds a i make s (.error reason, t)
  /-- The slot is empty when the callback returns. It gets the value, and that is counted. -/
  | stored {v : V} {t : Session V H} {m : Memory V} (hi : i < a.capacity)
      (hv : a.value? s.memory i = none) (hmake : make.run (a.reaching i s) = (.ok v, t))
      (hempty : a.value? t.memory i = none) (hputs : a.Puts i (some v) 1 t.memory m)
      (hsize : m.size = t.memory.size + 1) : FillEnds a i make s (.ok (.stored v), ⟨m, t.host⟩)
  /-- The slot is occupied by then. The value is thrown away, and all stays as it is. -/
  | refused {v w : V} {t : Session V H} (hi : i < a.capacity)
      (hv : a.value? s.memory i = none) (hmake : make.run (a.reaching i s) = (.ok v, t))
      (hfound : a.value? t.memory i = some w) :
      FillEnds a i make s (.ok (.refused (some w)), t)

section Alone

variable [Journal H] {s : Session V H} {make : Program V H V}

/-- To reach a slot is to publish a segment, or nothing. -/
theorem memory_reaching (a : SlotArray) (i : UInt64) (s : Session V H) :
    (a.reaching i s).memory = s.memory ∨ ∃ e, (a.reaching i s).memory = (s.memory.publish e).2 := by
  rw [reaching]
  split
  · cases hn : s.memory.segmentAt (Address.ofIndex i).entry with
    | some segment =>
      rw [run_segmentOrFresh_of_segment hn]
      exact .inl rfl
    | none =>
      rw [run_segmentOrFresh_of_missing hn]
      exact .inr ⟨_, rfl⟩
  · exact .inl rfl

theorem reaching_of_value? {v : V} (hv : a.value? s.memory i = some v) : a.reaching i s = s := by
  obtain ⟨o, ho, -⟩ := Option.map_eq_some_iff.mp hv
  obtain ⟨cell, hc, -⟩ := Option.bind_eq_some_iff.mp ho
  obtain ⟨hi, hn, -⟩ := cell?_eq_some_iff.mp hc
  rw [reaching, if_pos hi, run_segmentOrFresh_of_segment hn]

/-- No slot changes, and nothing is counted. -/
theorem occupant?_reaching (hs : a.Sound s.memory) (j : UInt64) :
    a.occupant? (a.reaching i s).memory j = a.occupant? s.memory j := by
  rcases memory_reaching a i s with heq | ⟨e, heq⟩
  · rw [heq]
  · rw [heq, occupant?_publish hs]

theorem sound_reaching (hs : a.Sound s.memory) : a.Sound (a.reaching i s).memory := by
  rcases memory_reaching a i s with heq | ⟨e, heq⟩
  · rwa [heq]
  · rw [heq]
    exact hs.publish e

theorem settled_reaching (hs : s.Settled a) : (a.reaching i s).Settled a := by
  refine ⟨sound_reaching hs.sound, ?_⟩
  rcases memory_reaching a i s with heq | ⟨e, heq⟩
  · exact (hs.congr heq).count_eq
  · rw [heq, Memory.count_publish, hs.count_eq, occupied, occupied,
      slots_congr_occupant (occupant?_publish hs.sound e)]

/-- An access for filling goes on with the cell of its slot. -/
theorem exists_cell_reaching (hs : a.Sound s.memory) (hi : i < a.capacity) : ∃ cell,
    a.cell? (a.reaching i s).memory i = some cell ∧
    ∀ {α β : Type} (use : Cell → Program V H α) (f : Option α → Program V H β),
      (a.access .fill i use >>= f).run s =
        (use cell >>= fun x => f (some x)).run (a.reaching i s) := by
  rw [reaching, if_pos hi]
  cases hn : s.memory.segmentAt (Address.ofIndex i).entry with
  | some segment =>
    rw [run_segmentOrFresh_of_segment hn]
    exact ⟨⟨segment, _⟩, cell?_eq_some_iff.mpr ⟨hi, hn, rfl⟩,
      fun _ _ => run_access_fill_of_segment hi hn⟩
  | none =>
    have hat := s.memory.segmentAt_publish_self (hs.entry_lt hi) hn
    rw [run_segmentOrFresh_of_missing hn]
    exact ⟨⟨s.memory.segments.size, _⟩, cell?_eq_some_iff.mpr ⟨hi, hat, rfl⟩,
      fun _ _ => run_access_fill_of_missing hi hn⟩

/-- A value is stored into an empty cell, and given up if the cell is occupied. -/
theorem run_fillWith_of_none {t : Session V H} {cell : Cell} (hc : a.cell? t.memory i = some cell)
    (ho : t.memory.content cell = none) (v : V) : (cell.fillWith v).run t =
      (.ok (.stored v), ⟨(a.put i (some v) t.memory).adjust 1, t.host⟩) := by
  have hsame : sameOccupant (t.memory.content cell) none = true := by simp [ho]
  rw [Cell.fillWith, run_bind, run_exchangeIf_eq, Memory.exchangeIf_of_same _ hsame, put, hc]
  rfl

theorem run_fillWith_of_some {t : Session V H} {cell : Cell} {o : Occupant V}
    (ho : t.memory.content cell = some o) (v : V) :
    (cell.fillWith v).run t = (.ok (.refused (some o.value)), t) := by
  have hsame : sameOccupant (t.memory.content cell) none = false := by rw [ho]; rfl
  rw [Cell.fillWith, run_bind, run_exchangeIf_eq, Memory.exchangeIf_of_not_same _ hsame, ho]
  rfl

theorem fillEnds (hs : s.Settled a) (hmake : a.Client make) :
    FillEnds a i make s ((a.fill i make).run s) := by
  by_cases hi : i < a.capacity
  · obtain ⟨cell, hc, hrun⟩ := exists_cell_reaching hs.sound hi
    have hr : (a.reaching i s).Settled a := settled_reaching hs
    have hvalue : a.value? s.memory i =
        ((a.reaching i s).memory.content cell).map Occupant.value := by
      rw [value?, ← occupant?_reaching (i := i) hs.sound, occupant?_of_cell? hc]
    rw [fill, hrun, Cell.fill_counted, run_bind, run_load]
    cases ho : (a.reaching i s).memory.content cell with
    | some o =>
      rw [ho] at hvalue
      simp only [reaching_of_value? hvalue]
      exact .occupied hvalue
    | none =>
      rw [ho] at hvalue
      simp only [run_bind]
      have hl := ((hmake.lawful (a.reaching i s).memory).later_run hr.sound).2
      have ht := hr.run hmake
      rcases hmade : make.run (a.reaching i s) with ⟨(reason | v), t⟩
      · exact .panicked hi hvalue hmade
      · rw [hmade] at hl ht
        have hct := cell?_later hl hc
        have hnow : a.value? t.memory i = (t.memory.content cell).map Occupant.value := by
          rw [value?, occupant?_of_cell? hct]
        cases hot : t.memory.content cell with
        | none =>
          have hputs := ht.sound.puts hct (some v) 1
          simp only [run_fillWith_of_none hct hot]
          refine .stored hi hvalue hmade (by rw [hnow, hot]; rfl) hputs ?_
          rw [Memory.size, Memory.size, hputs.count_eq, ht.count_eq]
          omega
        | some o =>
          simp only [run_fillWith_of_some hot]
          exact .refused hi hvalue hmade (by rw [hnow, hot]; rfl)
  · rw [fill, access_of_le (UInt64.not_lt.mp hi)]
    exact .outside (UInt64.not_lt.mp hi)

/-- The answer is the value that the slot holds, and only a slot that does not exist has none. -/
theorem FillEnds.answer_eq {ended : Except Panic (Filling V) × Session V H}
    (h : FillEnds a i make s ended) {filling : Filling V} (hok : ended.1 = .ok filling) :
    filling.value? = a.value? ended.2.memory i ∧ (filling.value? = none ↔ a.capacity ≤ i) := by
  cases h with
  | outside hi =>
    cases hok
    exact ⟨(value?_of_le _ hi).symm, iff_of_true rfl hi⟩
  | occupied hv =>
    cases hok
    exact ⟨hv.symm, iff_of_false nofun (UInt64.not_le.mpr (lt_of_value? hv))⟩
  | panicked => cases hok
  | stored hi hv hmake hempty hputs =>
    cases hok
    exact ⟨hputs.value?_eq.symm, iff_of_false nofun (UInt64.not_le.mpr hi)⟩
  | refused hi hv hmake hfound =>
    cases hok
    exact ⟨hfound.symm, iff_of_false nofun (UInt64.not_le.mpr hi)⟩

end Alone

end SlotArray

namespace Notice

/-- The answer is about a slot. A fill tells the value that the slot holds. -/
def Tells (a : SlotArray) (m : Memory V) : Notice V → Prop
  | filled i answer => ∃ v, answer.value? = some v ∧ a.value? m i = some v
  | swapped i _ answer => i < a.capacity ∧ answer.isSome = true
  | taken i _ => i < a.capacity

/-- The answer is missing if and only if the slot is. A take also answers nothing about a slot that is
empty. -/
def IsRight (a : SlotArray) : Notice V → Prop
  | filled i answer => answer.value? = none ↔ a.capacity ≤ i
  | swapped i _ answer => answer = none ↔ a.capacity ≤ i
  | taken i answer => a.capacity ≤ i → answer = none

variable {a : SlotArray} {m : Memory V} {notice : Notice V}

theorem Missed.isRight (h : notice.Missed a) : notice.IsRight a := by
  cases notice with
  | filled i answer =>
    obtain ⟨hi, rfl⟩ := h
    exact iff_of_true rfl hi
  | swapped i v answer => exact iff_of_true h.2 h.1
  | taken i answer => exact fun _ => h

theorem Tells.isRight (h : notice.Tells a m) : notice.IsRight a := by
  cases notice with
  | filled i answer =>
    obtain ⟨v, hanswer, hv⟩ := h
    exact iff_of_false (by simp [hanswer]) (UInt64.not_le.mpr (lt_of_value? hv))
  | swapped i v answer =>
    exact iff_of_false (Option.isSome_iff_ne_none.mp h.2) (UInt64.not_le.mpr h.1)
  | taken i answer => exact fun hi => absurd h (UInt64.not_lt.mpr hi)

/-- An answer tells of the slot as it is after the action that decides the answer. -/
theorem Decided.tells [Journal H] {s : Session V H} {act : Action V H} (hs : a.Sound s.memory)
    (h : Decided a s.memory act notice) : notice.Tells a (act.perform s).2.memory := by
  cases h with
  | @load i cell o hc ho =>
    have hvalue : a.value? s.memory i = some o.value := by simp [value?_of_cell? hc, ho]
    exact ⟨o.value, rfl, hvalue⟩
  | @exchangeIf i cell v hc =>
    show (ofFill i v _).Tells a (s.memory.exchangeIf cell none (some v)).2
    cases hfound : s.memory.content cell with
    | none =>
      have hwon := (Memory.sameOccupant_none _).mpr hfound
      have hvalue : a.value? (s.memory.store cell (some v)) i = some v := by
        simp [value?, occupant?_store_self hs hc, Memory.stamped]
      rw [Memory.exchangeIf_of_same _ hwon]
      exact ⟨v, rfl, hvalue⟩
    | some o =>
      have hlost : sameOccupant (s.memory.content cell) none = false := by
        simp [hfound, sameOccupant]
      have hvalue : a.value? s.memory i = some o.value := by simp [value?_of_cell? hc, hfound]
      rw [Memory.exchangeIf_of_not_same _ hlost]
      exact ⟨o.value, rfl, hvalue⟩
  | @swap i cell new hc =>
    have hi := (cell?_eq_some_iff.mp hc).1
    cases new with
    | none => exact hi
    | some v => exact ⟨hi, rfl⟩

/-- What is new after an action has missed its slot, or tells of the slot as it is then. -/
theorem new_of_protocol [Journal H] (notice : Notice V) {k : ℕ} {s : Session V (NoticeBoard V H)}
    (hs : a.Sound s.memory) {act : Action V (NoticeBoard V H)} {late next : Option (Notice V)}
    (h : protocol a k late act s.memory (act.perform s).2.memory next) :
    (notice ∈ (act.perform s).2.host.notices.map Prod.snd →
      notice ∈ s.host.notices.map Prod.snd ∨ late = some notice ∨ notice.Missed a) ∧
    (next = some notice → late = some notice ∨ notice.Tells a (act.perform s).2.memory) := by
  have hquiet : next = late → next = some notice →
      late = some notice ∨ notice.Tells a (act.perform s).2.memory :=
    fun heq hnext => .inl (heq ▸ hnext)
  have htells : (∃ other, next = some other ∧ Decided a s.memory act other) →
      next = some notice → late = some notice ∨ notice.Tells a (act.perform s).2.memory := by
    rintro ⟨other, hother, hdecided⟩ hnext
    cases hother.symm.trans hnext
    exact .inr (hdecided.tells hs)
  cases act with
  | load cell => exact ⟨.inl, h.elim hquiet fun hdecided => htells hdecided.2⟩
  | swap cell new => exact ⟨.inl, htells h.2⟩
  | exchangeIf cell expected new =>
    cases expected with
    | none => exact ⟨.inl, htells h.2⟩
    | some o => exact ⟨.inl, hquiet h⟩
  | changeHost change =>
    rcases h with ⟨heq, hkeeps⟩ | ⟨hnone, other, hother, hposts⟩
    · exact ⟨fun hmem => .inl (hkeeps s.host ▸ hmem), hquiet heq⟩
    · refine ⟨fun hmem => ?_, fun hnext => by cases hnone.symm.trans hnext⟩
      have hmem' : notice ∈ (change s.host).notices.map Prod.snd := hmem
      rw [hposts, List.map_cons, List.mem_cons] at hmem'
      rcases hmem' with rfl | hold
      · exact .inr (hother.imp_right And.right)
      · exact .inl hold
  | loadEntry | publish | retire | adjust | readSize | emit | readHost =>
    exact ⟨.inl, hquiet h⟩

end Notice

namespace Action

/-- Whether the action stores a value into a cell that it expects to be empty, as fills do. -/
def fills : Action V H → Bool
  | exchangeIf _ none (some _) => true
  | _ => false

/-- A fill changes a slot that was empty. -/
theorem value?_eq_none_of_fills {a : SlotArray} {i : UInt64} {m : Memory V} {act : Action V H}
    (hfills : act.fills = true) (halters : act.alters a i m = true) :
    i < a.capacity ∧ a.value? m i = none := by
  cases act with
  | exchangeIf cell expected new =>
    cases expected with
    | some o => cases hfills
    | none =>
      simp only [alters, Bool.and_eq_true, decide_eq_true_eq] at halters
      obtain ⟨⟨hc, hsame⟩, -⟩ := halters
      refine ⟨(cell?_eq_some_iff.mp hc).1, ?_⟩
      rw [value?_of_cell? hc, (Memory.sameOccupant_none _).mp hsame]
      rfl
  | loadEntry | publish | load | swap | retire | adjust | readSize | emit | readHost | changeHost =>
    cases hfills

end Action

section Pools

variable [Journal H] {a : SlotArray} {i : UInt64}

/-- Whether a slot is changed by fills only along a schedule. -/
def Pool.onlyFills (a : SlotArray) (i : UInt64) : Pool V H α → List ℕ → Bool
  | _, [] => true
  | pool, k :: schedule =>
    (pool.action? k).all (fun act => !act.alters a i pool.session.memory || act.fills) &&
      (pool.step k).onlyFills a i schedule

variable {pool : Pool V (NoticeBoard V H) α} {late : ℕ → Option (Notice V)}

/-- A notice that has been posted, or that an operation under way has still to post. -/
def Pool.Gives (pool : Pool V (NoticeBoard V H) α) (late : ℕ → Option (Notice V))
    (notice : Notice V) : Prop :=
  notice ∈ pool.session.host.notices.map Prod.snd ∨ ∃ k, late k = some notice

/-- The invariant of a pool whose callers post notices. -/
structure Pool.Posting (a : SlotArray) (pool : Pool V (NoticeBoard V H) α)
    (late : ℕ → Option (Notice V)) : Prop where
  follows : pool.Follows a (Notice.protocol a) none late
  right : ∀ notice, pool.Gives late notice → notice.IsRight a

namespace Pool.Posting

/-- In a turn, notices stay or are new: then they have missed their slot, or tell of the slot as it is
after the turn. -/
theorem gives_of_step {k : ℕ} {act : Action V (NoticeBoard V H)} {next : Option (Notice V)}
    (hs : a.Sound pool.session.memory)
    (hsession : (pool.step k).session = (act.perform pool.session).2)
    (hstep : Notice.protocol a k (late k) act pool.session.memory
      (act.perform pool.session).2.memory next) {notice : Notice V}
    (h : (pool.step k).Gives (Function.update late k next) notice) :
    pool.Gives late notice ∨ notice.Missed a ∨ notice.Tells a (pool.step k).session.memory := by
  obtain ⟨hposted, hlate⟩ := Notice.new_of_protocol notice hs hstep
  rw [hsession]
  rcases h with hmem | ⟨j, hj⟩
  · rw [hsession] at hmem
    rcases hposted hmem with hold | hk | hmissed
    · exact .inl (.inl hold)
    · exact .inl (.inr ⟨k, hk⟩)
    · exact .inr (.inl hmissed)
  · by_cases hjk : j = k
    · subst hjk
      rw [Function.update_self] at hj
      exact (hlate hj).imp (fun hold => .inr ⟨j, hold⟩) .inr
    · rw [Function.update_of_ne hjk] at hj
      exact .inl (.inr ⟨j, hj⟩)

/-- A turn keeps notices right. Those that tell the value of a slot stay true, if the turn changes
that slot by a fill only: a slot that a notice told of was not empty. -/
theorem step (h : pool.Posting a late) (k : ℕ) :
    ∃ next, (pool.step k).Posting a next ∧
      ((pool.action? k).all (fun act => !act.alters a i pool.session.memory || act.fills) = true →
        (∀ answer, pool.Gives late (.filled i answer) →
          answer.value? = a.value? pool.session.memory i) →
        ∀ answer, (pool.step k).Gives next (.filled i answer) →
          answer.value? = a.value? (pool.step k).session.memory i) := by
  rcases h.follows.step k with ⟨hact, hsession, hfollows⟩ |
    ⟨act, next, hact, hadmits, hsession, hstep, hfollows⟩
  · refine ⟨late, ⟨hfollows, ?_⟩, fun _ htold => ?_⟩
    · simpa only [Gives, hsession] using h.right
    · simpa only [Gives, hsession] using htold
  · refine ⟨_, ⟨hfollows, fun notice hgives => ?_⟩, fun honly htold answer hgives => ?_⟩
    · rcases gives_of_step h.follows.sound hsession hstep hgives with hold | hmissed | htells
      · exact h.right notice hold
      · exact hmissed.isRight
      · exact htells.isRight
    · rcases gives_of_step h.follows.sound hsession hstep hgives with
        hold | ⟨hi, hmissed⟩ | ⟨v, hanswer, hv⟩
      · have hbefore := htold answer hold
        rw [hsession]
        cases halters : act.alters a i pool.session.memory with
        | false => rw [hbefore, value?, value?, h.follows.sound.occupant?_perform hadmits halters]
        | true =>
          have hfills : act.fills = true := by simpa [hact, halters] using honly
          obtain ⟨hi, hempty⟩ := act.value?_eq_none_of_fills hfills halters
          have hle := (h.right _ hold).mp (hbefore.trans hempty)
          exact absurd hi (UInt64.not_lt.mpr hle)
      · rw [value?_of_le _ hi, hmissed]
        rfl
      · rw [hanswer, hv]

theorem run (h : pool.Posting a late) (schedule : List ℕ) :
    ∃ last, (pool.run schedule).Posting a last ∧
      (pool.onlyFills a i schedule = true →
        (∀ answer, pool.Gives late (.filled i answer) →
          answer.value? = a.value? pool.session.memory i) →
        ∀ answer, (pool.run schedule).Gives last (.filled i answer) →
          answer.value? = a.value? (pool.run schedule).session.memory i) := by
  induction schedule generalizing pool late with
  | nil => exact ⟨late, h, fun _ htold => htold⟩
  | cons k schedule ih =>
    obtain ⟨next, hnext, hone⟩ := h.step (i := i) k
    obtain ⟨last, hlast, hrest⟩ := ih hnext
    refine ⟨last, hlast, fun honly htold => ?_⟩
    obtain ⟨hk, hschedule⟩ := Bool.and_eq_true_iff.mp honly
    exact hrest hschedule (hone hk htold)

/-- Threads that have not begun have posted nothing. -/
theorem start {m : Memory V} (hm : a.Sound m) (host : H)
    (routines : List (List (Routine V H α))) :
    Posting a (Routine.postingPool a m host routines) fun _ => none where
  follows := Routine.follows_postingPool hm host routines
  right notice hgives := by
    rcases hgives with hmem | ⟨k, hk⟩
    · cases hmem
    · cases hk

end Pool.Posting

end Pools

namespace SlotArray

/-- What an exchange of a value answers when its swap has answered. -/
def exchanged (v : V) : Option (Option V) → Except V (Option V)
  | none => .error v
  | some old => .ok old

theorem exchange_eq (a : SlotArray) (i : UInt64) (v : V) :
    (a.exchange i v : Program V H _) = exchanged v <$> a.swap i v := by
  refine congrArg _ (funext fun old => ?_)
  cases old <;> rfl

/-- Fills answer what is in the slot, whatever happens in the meantime.

Alone, a fill asks its callback once if the slot is empty, and stores the value if the slot is empty
again or still when the callback has returned; the size grows by one then, and otherwise everything
stays as the callback left it. The answer is the value that the slot holds in the end.

Whatever threads do to an array, from any state on and at any depth of nesting, a fill answers that
there is no value, and an exchange hands its value back, if and only if there is no such slot. While
a slot is changed by fills only, all fills of that slot answer the same value. -/
theorem fills_answer_what_is_there (a : SlotArray) :
    (∀ {H : Type} [Journal H] (i : UInt64) (s : Session V H) (make : Program V H V),
      s.Settled a → a.Client make →
      let filled := (a.fill i make).run s
      let ended := (a.getOrFill i make).run s
      (∀ j, a.occupant? (a.reaching i s).memory j = a.occupant? s.memory j) ∧
      FillEnds a i make s filled ∧ ended = (Filling.value? <$> filled.1, filled.2) ∧
      ∀ answer, ended.1 = .ok answer →
        answer = a.value? ended.2.memory i ∧ (answer = none ↔ a.capacity ≤ i)) ∧
    (∀ {H : Type} (i : UInt64) (v : V),
      (a.exchange i v : Program V H _) = exchanged v <$> a.swap i v) ∧
    ∀ {H : Type} [Journal H] {α : Type} (m : Memory V) (host : H)
      (routines : List (List (Routine V H α))) (schedule : List ℕ), a.Sound m →
      let start := Routine.postingPool a m host routines
      let pool := start.run schedule
      let notices := pool.session.host.notices.map Prod.snd
      (∀ i answer, .filled i answer ∈ notices →
        (answer = .refused none ↔ a.capacity ≤ i) ∧ (answer.value? = none ↔ a.capacity ≤ i)) ∧
      (∀ i v answer, .swapped i v answer ∈ notices →
        (exchanged v answer = .error v ↔ a.capacity ≤ i)) ∧
      ∀ i, start.onlyFills a i schedule = true →
        ∀ answer, .filled i answer ∈ notices → answer.value? = a.value? pool.session.memory i := by
  refine ⟨?_, fun i v => a.exchange_eq i v, ?_⟩
  · intro H _ i s make hs hmake filled ended
    have hends : FillEnds a i make s filled := fillEnds hs hmake
    have hended : ended = (Filling.value? <$> filled.1, filled.2) := run_map _ _ _
    refine ⟨occupant?_reaching hs.sound, hends, hended, fun answer hanswer => ?_⟩
    rw [hended] at hanswer ⊢
    rcases hfilled : filled.1 with reason | filling
    · rw [hfilled] at hanswer
      cases hanswer
    · rw [hfilled] at hanswer
      obtain rfl : filling.value? = answer := Except.ok.inj hanswer
      exact hends.answer_eq hfilled
  · intro H _ α m host routines schedule hm start pool notices
    have hstart : start.Posting a fun _ => none := .start hm host routines
    refine ⟨fun i answer hmem => ?_, fun i v answer hmem => ?_, fun i honly answer hmem => ?_⟩
    · obtain ⟨late, hposting, -⟩ := hstart.run (i := i) schedule
      have hright : answer.value? = none ↔ a.capacity ≤ i := hposting.right _ (.inl hmem)
      refine ⟨?_, hright⟩
      rw [← hright]
      cases answer <;> simp [Filling.value?]
    · obtain ⟨late, hposting, -⟩ := hstart.run (i := i) schedule
      have hright : answer = none ↔ a.capacity ≤ i := hposting.right _ (.inl hmem)
      rw [← hright]
      cases answer <;> simp [exchanged]
    · obtain ⟨late, -, htold⟩ := hstart.run (i := i) schedule
      refine htold honly (fun answer hgives => ?_) answer (.inl hmem)
      rcases hgives with hnone | ⟨k, hk⟩
      · cases hnone
      · cases hk

/-- A callback fills the slot and empties it again, and its value is stored all the same. Two threads
find a slot empty; the second one fills it, and the first one answers the same value. -/
theorem fills_answer_what_is_there_of_race :
    let a : SlotArray := ⟨2⟩
    let s : Session ℤ Unit := ⟨a.freshMemory, ()⟩
    let make : Program ℤ Unit ℤ :=
      a.getOrFill 0 (.done 5) >>= fun _ => a.take 0 >>= fun _ => .done 7
    let routines : List (List (Routine ℤ Unit (Option ℤ))) :=
      [[.getOrFill 0 (.done 1)], [.getOrFill 0 (.done 2), .getOrFill 9 (.done 3)]]
    let schedule := [0, 0, 0, 0] ++ List.replicate 9 1 ++ List.replicate 4 0
    let pool := (Routine.postingPool a s.memory () routines).run schedule
    let notices := pool.session.host.notices.map Prod.snd
    ((a.getOrFill 0 make).run s).1 = .ok (some 7) ∧
    a.value? ((a.getOrFill 0 make).run s).2.memory 0 = some 7 ∧
    notices.length = 3 ∧
    (∀ answer, .filled 0 answer ∈ notices → answer.value? = some 2) ∧
    ∀ answer, .filled 9 answer ∈ notices → answer = .refused none := by
  intro a s make routines schedule pool notices
  obtain ⟨halone, -, hpools⟩ := fills_answer_what_is_there (V := ℤ) a
  have hmake : a.Client make :=
    .bind (.getOrFill 0 (.done 5)) fun _ => .bind (.take 0) fun _ => .done 7
  have hanswer : ((a.getOrFill 0 make).run s).1 = .ok (some 7) := by decide +kernel
  have hvalue := ((halone 0 s make (.fresh a ()) hmake).2.2.2 _ hanswer).1
  obtain ⟨hright, -, hsame⟩ := hpools s.memory () routines schedule (sound_ofEntries a)
  have hnow : a.value? pool.session.memory 0 = some 2 := by decide +kernel
  have honly : (Routine.postingPool a s.memory () routines).onlyFills a 0 schedule = true := by
    decide +kernel
  simp only [notices, pool] at hnow ⊢
  refine ⟨hanswer, hvalue.symm, by decide +kernel, fun answer hmem => ?_, fun answer hmem => ?_⟩
  · exact (hsame 0 honly answer hmem).trans hnow
  · exact (hright 9 answer hmem).1.mpr (by decide)

end SlotArray

end AtomicSlots
