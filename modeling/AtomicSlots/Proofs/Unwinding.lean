import AtomicSlots.Proofs.Courses

/-!
# Panics that pass through operations

When a panic passes through operations, however deep they are nested, all that is left are the
effects of the calls that returned before, in their order: no interrupted operation has stored,
removed or counted anything. Besides, an interrupted fill may leave its segment, and an interrupted
filtering step of a cursor leaves the position behind the slot whose predicate panicked. What comes
later depends on the contents and the count only.
-/
namespace AtomicSlots

variable {V H α β : Type}

namespace Routine

variable {a : SlotArray} {move : Cursor → H → H} {accepts : ℕ → UInt64 → V → Routine V H Bool}

theorem course_next (cursor : Cursor) (stock : Stock V) (host : H) :
    (next cursor : Routine V H _).course a stock host =
      ⟨.ok (match Stock.scan a stock.slots a.segmentCount.toNat cursor.position with
        | none => (none, cursor)
        | some (i, v) => (some (i, v), cursor.past i)), [], host⟩ := by
  change (Course.mk (.ok (Stock.scan a stock.slots a.segmentCount.toNat cursor.position)) []
    host).andThen stock _ = _
  rw [Course.ok_andThen]
  cases Stock.scan a stock.slots a.segmentCount.toNat cursor.position <;> rfl

theorem course_nextWhere_succ (n : ℕ) (cursor : Cursor) (stock : Stock V) (host : H) :
    (nextWhere move accepts (n + 1) cursor).course a stock host =
      match Stock.scan a stock.slots a.segmentCount.toNat cursor.position with
      | none => ⟨.ok (none, cursor), [], host⟩
      | some (i, v) =>
        ((accepts cursor.visits i v).course a stock (move (cursor.past i) host)).andThen stock
          fun yes stock host =>
            if yes then
              ⟨.ok (some (i, v), cursor.past i), [], host⟩
            else
              (nextWhere move accepts n (cursor.past i)).course a stock host := by
  rw [nextWhere]
  change ((next cursor).course a stock host).andThen stock _ = _
  rw [course_next, Course.ok_andThen]
  cases Stock.scan a stock.slots a.segmentCount.toNat cursor.position with
  | none => rfl
  | some item =>
    change (Course.mk (.ok ()) [] _).andThen stock _ = _
    rw [Course.ok_andThen]
    refine congrArg (Course.andThen _ stock) (funext fun yes => ?_)
    cases yes <;> rfl

/-- A filtering step that ends with a panic has visited a slot whose predicate panicked. When that
predicate was asked, the position behind the slot had been saved. -/
theorem course_nextWhere_of_error {n : ℕ} {cursor : Cursor} {stock : Stock V} {host : H}
    {reason : Panic}
    (h : ((nextWhere move accepts n cursor).course a stock host).answer = .error reason) :
    let course := (nextWhere move accepts n cursor).course a stock host
    ∃ (earlier later : List (Call V)) (visited : Cursor) (i : UInt64) (v : V) (before : H),
      course.calls = earlier ++ later ∧
      Stock.scan a (stock.after earlier).slots a.segmentCount.toNat visited.position = some (i, v) ∧
      (accepts visited.visits i v).course a (stock.after earlier) (move (visited.past i) before) =
        ⟨.error reason, later, course.host⟩ := by
  induction n generalizing cursor stock host with
  | zero => cases h
  | succ n ih =>
    rw [course_nextWhere_succ] at h ⊢
    cases hfound : Stock.scan a stock.slots a.segmentCount.toNat cursor.position with
    | none =>
      rw [hfound] at h
      cases h
    | some item =>
      obtain ⟨i, v⟩ := item
      rw [hfound] at h
      simp only at h ⊢
      generalize hasked : (accepts cursor.visits i v).course a stock (move (cursor.past i) host) =
        asked at h ⊢
      obtain ⟨(other | (_ | _)), calls, after⟩ := asked
      · cases h
        exact ⟨[], calls, cursor, i, v, host, rfl, hfound, hasked⟩
      · obtain ⟨earlier, later, visited, j, w, before, hcalls, hnext, hpanics⟩ := ih h
        refine ⟨calls ++ earlier, later, visited, j, w, before, ?_, ?_, ?_⟩
        · exact (congrArg (calls ++ ·) hcalls).trans (List.append_assoc _ _ _).symm
        · rwa [Stock.after_append]
        · rwa [Stock.after_append]
      · cases h

variable {s u : Session V (Unwatched H)}

theorem sound_run {r : Routine V (Unwatched H) α} (hs : a.Sound s.memory) :
    a.Sound ((r.program a).run s).2.memory := by
  obtain ⟨n, hrun, hreaches⟩ := r.goes s hs
  rw [hrun]
  exact hreaches.sound

/-- What a routine does depends on the contents and the count only. -/
theorem run_congr (r : Routine V (Unwatched H) α) (hs : a.Sound s.memory) (hu : a.Sound u.memory)
    (hstock : a.stock u.memory = a.stock s.memory) (hhost : u.host = s.host) :
    ((r.program a).run u).1 = ((r.program a).run s).1 ∧
      a.stock ((r.program a).run u).2.memory = a.stock ((r.program a).run s).2.memory ∧
      ((r.program a).run u).2.host = ((r.program a).run s).2.host := by
  obtain ⟨n, hrun, hreaches⟩ := r.goes s hs
  obtain ⟨k, hrun', hreaches'⟩ := r.goes u hu
  rw [hstock, hhost] at hrun' hreaches'
  rw [hrun, hrun']
  refine ⟨rfl, ?_, rfl⟩
  rw [hreaches'.stock_eq, hreaches.stock_eq, hstock]

end Routine

/-- A panic that passes through operations leaves the effects of those calls that had returned, in
their order, and nothing else but segments: it changes the contents and the count as these calls do,
keeps the count as far from the number of occupied slots as it was, and keeps every occupant whose
slot no such call changed. Afterwards every routine does what it does on any memory with the same
contents and count. A filtering step that panics leaves its cursor behind the slot that it asked
about, as far as its predicate does not move it. -/
theorem SlotArray.panic_leaves_returned_calls (a : SlotArray) {s : Session V (Unwatched H)}
    (hs : a.Sound s.memory) :
    (∀ {α : Type} (r : Routine V (Unwatched H) α) (reason : Panic),
      ((r.program a).run s).1 = .error reason →
      let course := r.course a (a.stock s.memory) s.host
      let t := ((r.program a).run s).2
      course.answer = .error reason ∧ course.host = t.host ∧
      a.Reaches s.memory course.calls t.memory ∧
      a.stock t.memory = (a.stock s.memory).after (course.calls.filter Call.hasReturned) ∧
      ∀ {β : Type} (q : Routine V (Unwatched H) β) (u : Session V (Unwatched H)),
        a.Sound u.memory → a.stock u.memory = a.stock t.memory → u.host = t.host →
        ((q.program a).run u).1 = ((q.program a).run t).1 ∧
        a.stock ((q.program a).run u).2.memory = a.stock ((q.program a).run t).2.memory ∧
        ((q.program a).run u).2.host = ((q.program a).run t).2.host) ∧
    ∀ (move : Cursor → Unwatched H → Unwatched H)
      (accepts : ℕ → UInt64 → V → Routine V (Unwatched H) Bool) (cursor : Cursor) (reason : Panic),
      let step := a.nextWhere (fun cursor => .changeHost (move cursor))
        (fun k i v => (accepts k i v).program a) cursor
      (step.run s).1 = .error reason →
      ∃ (earlier later : List (Call V)) (visited : Cursor) (i : UInt64) (v : V)
        (before : Unwatched H),
        a.Reaches s.memory (earlier ++ later) (step.run s).2.memory ∧
        Stock.scan a ((a.stock s.memory).after earlier).slots a.segmentCount.toNat
          visited.position = some (i, v) ∧
        (accepts visited.visits i v).course a ((a.stock s.memory).after earlier)
          (move (visited.past i) before) = ⟨.error reason, later, (step.run s).2.host⟩ := by
  constructor
  · intro α r reason hr course t
    obtain ⟨n, hrun, hreaches⟩ := r.goes s hs
    have ht : t = ⟨n, course.host⟩ := congrArg Prod.snd hrun
    have hanswer : course.answer = .error reason := (congrArg Prod.fst hrun).symm.trans hr
    rw [ht]
    refine ⟨hanswer, rfl, hreaches, ?_, fun q u hu hstock hhost => ?_⟩
    · rw [hreaches.stock_eq, Stock.after_filter_hasReturned]
    · exact q.run_congr hreaches.sound hu hstock hhost
  · intro move accepts cursor reason step hstep
    obtain ⟨n, hrun, hreaches⟩ :=
      (Routine.nextWhere move accepts (a.remaining cursor) cursor).goes s hs
    rw [Routine.program_nextWhere] at hrun
    change step.run s = _ at hrun
    rw [hrun] at hstep ⊢
    obtain ⟨earlier, later, visited, i, v, before, hcalls, hfound, hpanics⟩ :=
      Routine.course_nextWhere_of_error hstep
    rw [hcalls] at hreaches
    exact ⟨earlier, later, visited, i, v, before, hreaches, hfound, hpanics⟩

/-- While slot 1 is filled, the occupant of slot 0 is updated; while that is on its way, slot 2 is
occupied, and then a predicate panics. The occupant of slot 2 is all that is left of it. A filtering
step on slot 0 whose predicate panics leaves the cursor behind that slot. -/
theorem panic_leaves_nested_swap :
    let a : SlotArray := ⟨3⟩
    let s := (((Routine.fill 0 (.done 5) : Routine ℕ (Unwatched Cursor) _).program a).run
      ⟨a.freshMemory, ⟨.start⟩⟩).2
    let late : Routine ℕ (Unwatched Cursor) Attempt := .eraseIf 2 fun _ => .panic ⟨.predicate, 0⟩
    let made : Routine ℕ (Unwatched Cursor) Attempt :=
      .update 0 (fun v => .bind (.swap 2 7) fun _ => .bind late fun _ => .done v)
        fun _ => .done true
    let r : Routine ℕ (Unwatched Cursor) (Filling ℕ) := .fill 1 (.bind made fun _ => .done 9)
    let t := ((r.program a).run s).2
    let step := a.nextWhere (fun cursor => .changeHost fun _ => Unwatched.mk cursor)
      (fun _ _ _ => (Routine.panic ⟨.predicate, 0⟩ : Routine ℕ (Unwatched Cursor) Bool).program a)
      .start
    a.Sound s.memory ∧
      ((r.program a).run s).1 = .error ⟨.predicate, 0⟩ ∧
      a.stock t.memory = ⟨[some 5, none, some 7], 2⟩ ∧
      (step.run s).1 = .error ⟨.predicate, 0⟩ ∧
      ∃ (earlier : List (Call ℕ)) (visited : Cursor) (i : UInt64) (v : ℕ),
        Stock.scan a ((a.stock s.memory).after earlier).slots a.segmentCount.toNat
          visited.position = some (i, v) ∧ (step.run s).2.host = ⟨visited.past i⟩ := by
  intro a s late made r t step
  have hs : a.Sound s.memory := Routine.sound_run (SlotArray.sound_ofEntries a)
  have hr : ((r.program a).run s).1 = .error ⟨.predicate, 0⟩ := by decide +kernel
  have hstep : (step.run s).1 = .error ⟨.predicate, 0⟩ := by decide +kernel
  have hstock := ((a.panic_leaves_returned_calls hs).1 r _ hr).2.2.2.1
  have hleft : a.stock t.memory = ⟨[some 5, none, some 7], 2⟩ := hstock.trans (by decide +kernel)
  obtain ⟨earlier, later, visited, i, v, before, -, hfound, hpanics⟩ :=
    (a.panic_leaves_returned_calls hs).2 (fun cursor _ => Unwatched.mk cursor)
      (fun _ _ _ => Routine.panic ⟨.predicate, 0⟩) Cursor.start ⟨.predicate, 0⟩ hstep
  exact ⟨hs, hr, hleft, hstep, earlier, visited, i, v, hfound, (congrArg Course.host hpanics).symm⟩

end AtomicSlots
