import AtomicSlots.Proofs.Publication
import AtomicSlots.Threads.Contest

/-!
# Filling an array together

Each of some threads fills every so many cells of a fresh array, so that no two of them meet in one
cell, but all of them meet in the segments: any of them may find a segment missing, and several may
publish one at the same time. No fill is lost in a segment that is thrown away. In every order in
which the threads act, each fill finds its cell empty and stores into it; when all are done, every
segment is there and every cell holds its own index.
-/
namespace AtomicSlots

variable {V H α β : Type}

open Program

namespace SlotArray

/-- The slot that a thread fills in a given round. -/
def roundSlot (threads t round : ℕ) : UInt64 := .ofNat (t + round * threads)

/-- Number of slots that a thread fills. -/
def rounds (a : SlotArray) (threads t : ℕ) : ℕ := stepsBelow t a.capacity.toNat threads

/-- The fills of a thread, from a round on. -/
def fillsFrom (a : SlotArray) (threads t first : ℕ) : List (QuietProgram Bool) :=
  (List.range' first (a.rounds threads t - first)).map fun round =>
    a.fillCell (roundSlot threads t round)

/-- Threads that fill an array together, before any of them has moved. -/
def jointFilling (a : SlotArray) (threads : ℕ) : Pool ℤ Unit Bool :=
  Pool.fresh a () ((List.range threads).map fun t => a.fillsFrom threads t 0)

variable {a : SlotArray} {threads t round : ℕ}

theorem toNat_roundSlot (ht : t < threads) (hround : round < a.rounds threads t) :
    (roundSlot threads t round).toNat = t + round * threads ∧
      t + round * threads < a.capacity.toNat := by
  have hlt := (lt_stepsBelow_iff (by omega)).mp hround
  exact ⟨a.toNat_ofNat_of_lt hlt, hlt⟩

theorem fillsFrom_of_lt (hround : round < a.rounds threads t) :
    a.fillsFrom threads t round =
      a.fillCell (roundSlot threads t round) :: a.fillsFrom threads t (round + 1) := by
  have hlen : a.rounds threads t - round = a.rounds threads t - (round + 1) + 1 := by omega
  rw [fillsFrom, hlen, List.range'_succ]
  rfl

theorem fillsFrom_of_le (hround : a.rounds threads t ≤ round) :
    a.fillsFrom threads t round = [] := by
  rw [fillsFrom, Nat.sub_eq_zero_of_le hround]
  rfl

/-- How far a fill has come. -/
inductive Stage where
  | waiting
  | stored
  /-- It found its cell occupied. -/
  | overtaken

/-- One action of a fill of a slot. -/
inductive Fills (a : SlotArray) (i : UInt64) : Protocol ℤ Unit Stage
  | keeps (stage : Stage) (act : Action ℤ Unit) {m n : Memory ℤ}
      (h : ∀ j, a.occupant? n j = a.occupant? m j) : Fills a i stage act m n stage
  | stores (act : Action ℤ Unit) {m n : Memory ℤ} (hi : a.value? n i = some (i.toNat : ℤ))
      (hother : ∀ j, j ≠ i → a.occupant? n j = a.occupant? m j) : Fills a i .waiting act m n .stored
  | overtaken (act : Action ℤ Unit) {m n : Memory ℤ} (hi : a.value? m i ≠ none) :
      Fills a i .waiting act m n .overtaken

theorem Fills.idle (a : SlotArray) (i : UInt64) (stage : Stage) : (Fills a i).Idle a stage where
  loadEntry _ _ := .keeps _ _ fun _ => rfl
  publish e _ h := .keeps _ _ (occupant?_publish h e)
  emit _ _ := .keeps _ _ fun _ => rfl

/-- A fill that was not overtaken has stored and tells so. -/
def IsFilled (answer : Except Panic Bool) (stage : Stage) : Prop :=
  match stage with
  | .waiting => False
  | .stored => answer = .ok true
  | .overtaken => True

theorem follows_fillCell {i : UInt64} (hi : i < a.capacity) (m : Memory ℤ) :
    (a.fillCell i).Follows a (Fills a i) (fun r stage _ => IsFilled r stage) .waiting m := by
  rw [fillCell, accessSignal, follows_map]
  refine follows_access_fill (Fills.idle a i _) (fun hle => absurd hi (UInt64.not_lt.mpr hle)) ?_
  intro n cell _ _ hc
  refine follows_map.mpr (Cell.follows_exchangeIf ⟨i, hc⟩ ?_ ?_)
  · intro k hlk hk _
    have hck := cell?_later hlk hc
    refine ⟨.stored, .stores _ ?_ fun j hj => occupant?_store_of_ne hk hck _ hj, rfl⟩
    rw [value?, occupant?_store_self hk hck, Memory.map_value_stamped]
  · intro k hlk _ hfull
    refine ⟨.overtaken, .overtaken _ ?_, trivial⟩
    rw [value?, occupant?_of_cell? (cell?_later hlk hc)]
    cases ho : k.content cell with
    | none => simp [ho] at hfull
    | some o => exact Option.some_ne_none _

/-- How a thread of a joint filling stands that has stored into so many slots. -/
inductive Fillings (a : SlotArray) (threads t : ℕ) (m : Memory ℤ) : ℕ → Thread ℤ Unit Bool → Prop
  | waiting {round : ℕ} {p : QuietProgram Bool} (hround : round < a.rounds threads t)
      (hp : p.Follows a (Fills a (roundSlot threads t round))
        (fun r stage _ => IsFilled r stage) .waiting m) :
      Fillings a threads t m round
        ⟨p :: a.fillsFrom threads t (round + 1), .replicate round (.ok true)⟩
  | stored {round : ℕ} {p : QuietProgram Bool} (hround : round < a.rounds threads t)
      (hp : p.Follows a (Fills a (roundSlot threads t round))
        (fun r stage _ => IsFilled r stage) .stored m) :
      Fillings a threads t m (round + 1)
        ⟨p :: a.fillsFrom threads t (round + 1), .replicate round (.ok true)⟩
  | finished : Fillings a threads t m (a.rounds threads t)
      ⟨[], .replicate (a.rounds threads t) (.ok true)⟩

namespace Fillings

variable {m n : Memory ℤ} {thread : Thread ℤ Unit Bool} {filled : ℕ}

theorem later (h : Fillings a threads t m filled thread) (hl : m.Later n) :
    Fillings a threads t n filled thread := by
  cases h with
  | waiting hround hp => exact .waiting hround (hp.later hl)
  | stored hround hp => exact .stored hround (hp.later hl)
  | finished => exact .finished

/-- In front of a round, or behind the last one. -/
theorem between (ht : t < threads) (hround : round ≤ a.rounds threads t) (m : Memory ℤ) :
    Fillings a threads t m round
      ⟨a.fillsFrom threads t round, .replicate round (.ok true)⟩ := by
  by_cases hlt : round < a.rounds threads t
  · obtain ⟨hslot, hcap⟩ := toNat_roundSlot ht hlt
    rw [fillsFrom_of_lt hlt]
    exact .waiting hlt (follows_fillCell (UInt64.lt_iff_toNat_lt.mpr (by omega)) m)
  · obtain rfl : round = a.rounds threads t := by omega
    rw [fillsFrom_of_le le_rfl]
    exact .finished

theorem answers_eq (h : Fillings a threads t m filled thread) :
    ∀ answer ∈ thread.answers, answer = .ok true := by
  cases h <;> exact fun _ hmem => List.eq_of_mem_replicate hmem

theorem eq_of_todo (h : Fillings a threads t m filled thread) (htodo : thread.todo = []) :
    filled = a.rounds threads t ∧ thread.answers = .replicate (a.rounds threads t) (.ok true) := by
  cases h with
  | waiting | stored => cases htodo
  | finished => exact ⟨rfl, rfl⟩

end Fillings

/-- The invariant of a joint filling: each thread has filled its slots up to a round, and all other
slots are empty. -/
structure FilledUpTo (a : SlotArray) (threads : ℕ) (pool : Pool ℤ Unit Bool) (filled : ℕ → ℕ) :
    Prop where
  sound : a.Sound pool.session.memory
  length_eq : pool.threads.length = threads
  fillings : ∀ t thread, pool.threads[t]? = some thread →
    Fillings a threads t pool.session.memory (filled t) thread
  value?_eq : ∀ i, i < a.capacity → a.value? pool.session.memory i =
    if i.toNat / threads < filled (i.toNat % threads) then some (i.toNat : ℤ) else none

namespace FilledUpTo

variable {pool : Pool ℤ Unit Bool} {filled : ℕ → ℕ}

theorem start (a : SlotArray) (threads : ℕ) :
    FilledUpTo a threads (a.jointFilling threads) fun _ => 0 where
  sound := sound_ofEntries a
  length_eq := by simp [jointFilling, Pool.fresh]
  fillings t thread hk := by
    simp only [jointFilling, Pool.fresh, List.map_map, List.getElem?_map, Option.map_eq_some_iff,
      List.getElem?_eq_some_iff, List.length_range, List.getElem_range] at hk
    obtain ⟨_, ⟨ht, rfl⟩, rfl⟩ := hk
    exact .between ht (Nat.zero_le _) _
  value?_eq i _ := by
    change (a.occupant? (.ofEntries a.segmentCount : Memory ℤ) i).map Occupant.value = _
    simp [occupant?_ofEntries]

/-- The other threads stay where they are when one thread moves on. -/
theorem fillings_set (h : a.FilledUpTo threads pool filled) {m : Memory ℤ}
    {thread : Thread ℤ Unit Bool} {n : ℕ} (hl : pool.session.memory.Later m)
    (hthread : Fillings a threads t m n thread) (l : ℕ) (other : Thread ℤ Unit Bool)
    (hother : (pool.threads.set t thread)[l]? = some other) :
    Fillings a threads l m (Function.update filled t n l) other := by
  by_cases hlt : l = t
  · subst hlt
    rw [List.getElem?_set_self'] at hother
    obtain ⟨-, -, rfl⟩ := Option.map_eq_some_iff.mp hother
    rwa [Function.update_self]
  · rw [List.getElem?_set_ne (Ne.symm hlt)] at hother
    rw [Function.update_of_ne hlt]
    exact (h.fillings l other hother).later hl

/-- A store into the slot of a round fills that slot and no other one. -/
theorem value?_update (h : a.FilledUpTo threads pool filled) {m : Memory ℤ} (ht : t < threads)
    (hround : round < a.rounds threads t) (hfilled : filled t = round)
    (hself : a.value? m (roundSlot threads t round) = some ((roundSlot threads t round).toNat : ℤ))
    (hother : ∀ j, j ≠ roundSlot threads t round →
      a.occupant? m j = a.occupant? pool.session.memory j) {i : UInt64} (hi : i < a.capacity) :
    a.value? m i = if i.toNat / threads < Function.update filled t (round + 1) (i.toNat % threads)
      then some (i.toNat : ℤ) else none := by
  obtain ⟨hslot, -⟩ := toNat_roundSlot ht hround
  have hdiv := Nat.div_add_mod i.toNat threads
  by_cases hit : i = roundSlot threads t round
  · subst hit
    rw [hself, hslot, Nat.add_mul_mod_self_right, Nat.mod_eq_of_lt ht, Function.update_self,
      Nat.add_mul_div_right _ _ (by omega), Nat.div_eq_of_lt ht, if_pos (by omega)]
  · rw [value?, hother i hit]
    refine (h.value?_eq i hi).trans ?_
    by_cases hmod : i.toNat % threads = t
    · have hne : i.toNat / threads ≠ round := by
        rintro rfl
        apply hit
        apply UInt64.toNat_inj.mp
        rw [hslot, ← hmod, Nat.mul_comm]
        omega
      rw [hmod, Function.update_self, hfilled]
      simp only [Nat.lt_succ_iff_lt_or_eq, hne, or_false]
    · rw [Function.update_of_ne hmod]

theorem lt_threads (h : a.FilledUpTo threads pool filled) {thread : Thread ℤ Unit Bool}
    (hk : pool.threads[t]? = some thread) : t < threads := by
  rw [← h.length_eq]
  exact (List.getElem?_eq_some_iff.mp hk).1

theorem step (h : a.FilledUpTo threads pool filled) (t : ℕ) :
    ∃ filled, a.FilledUpTo threads (pool.step t) filled := by
  generalize hstep : pool.step t = stepped
  cases hstep ▸ pool.turn t with
  | rests => exact ⟨filled, h⟩
  | @returns answer rest answers hk =>
    have hthread := h.fillings t _ hk
    generalize hnow : filled t = now at hthread
    cases hthread with
    | waiting hround hp => exact absurd ((follows_ofEnd answer).mp hp) id
    | stored hround hp =>
      obtain rfl : answer = .ok true := (follows_ofEnd answer).mp hp
      have hbetween := Fillings.between (h.lt_threads hk) hround pool.session.memory
      refine ⟨Function.update filled t (_ + 1), h.sound, by simpa using h.length_eq,
        h.fillings_set (.refl _) hbetween, ?_⟩
      rw [← hnow, Function.update_eq_self]
      exact h.value?_eq
  | @acts act next rest answers hk =>
    have ht := h.lt_threads hk
    have hthread := h.fillings t _ hk
    generalize hnow : filled t = now at hthread
    have hkept : ∀ {m : Memory ℤ}, (∀ j, a.occupant? m j = a.occupant? pool.session.memory j) →
        ∀ i, i < a.capacity → a.value? m i =
          if i.toNat / threads < Function.update filled t now (i.toNat % threads)
            then some (i.toNat : ℤ) else none := by
      intro m hm i hi
      rw [← hnow, Function.update_eq_self, value?, hm i]
      exact h.value?_eq i hi
    cases hthread with
    | waiting hround hp =>
      obtain ⟨hadmits, stage, haction, hnext⟩ := hp pool.session (.refl _) h.sound
      obtain ⟨hs, hl⟩ := h.sound.perform hadmits
      cases haction with
      | keeps _ _ hm =>
        exact ⟨_, hs, by simpa using h.length_eq, h.fillings_set hl (.waiting hround hnext),
          hkept hm⟩
      | stores _ hself hother =>
        exact ⟨_, hs, by simpa using h.length_eq, h.fillings_set hl (.stored hround hnext),
          fun i hi => h.value?_update ht hround hnow hself hother hi⟩
      | overtaken _ hfull =>
        -- nobody else stores into the slot of this round
        obtain ⟨hslot, hcap⟩ := toNat_roundSlot ht hround
        refine absurd ?_ hfull
        rw [h.value?_eq _ (UInt64.lt_iff_toNat_lt.mpr (by omega)), hslot,
          Nat.add_mul_mod_self_right, Nat.mod_eq_of_lt ht, Nat.add_mul_div_right _ _ (by omega),
          Nat.div_eq_of_lt ht, hnow, if_neg (by omega)]
    | stored hround hp =>
      obtain ⟨hadmits, stage, haction, hnext⟩ := hp pool.session (.refl _) h.sound
      obtain ⟨hs, hl⟩ := h.sound.perform hadmits
      cases haction with
      | keeps _ _ hm =>
        exact ⟨_, hs, by simpa using h.length_eq, h.fillings_set hl (.stored hround hnext),
          hkept hm⟩

/-- When all threads are done, every fill has succeeded, every segment is there, and every cell
holds its own index. -/
theorem ends (h : a.FilledUpTo threads pool filled) (hthreads : 0 < threads)
    (hidle : pool.isIdle = true) :
    (∀ t, t < threads →
      pool.threads[t]? = some ⟨[], .replicate (a.rounds threads t) (.ok true)⟩) ∧
    pool.session.memory.allocated = a.segmentCount.toNat ∧
    ∀ i, i < a.capacity → a.value? pool.session.memory i = some (i.toNat : ℤ) := by
  have hend : ∀ t, t < threads → filled t = a.rounds threads t ∧
      pool.threads[t]? = some ⟨[], .replicate (a.rounds threads t) (.ok true)⟩ := by
    intro t ht
    rw [← h.length_eq] at ht
    have hget := List.getElem?_eq_getElem ht
    have htodo := List.all_eq_true.mp hidle _ (List.getElem_mem ht)
    have hthread := h.fillings t _ hget
    generalize pool.threads[t] = thread at hget htodo hthread
    obtain ⟨todo, answers⟩ := thread
    obtain rfl : todo = [] := by simpa using htodo
    obtain ⟨hfilled, hanswers⟩ := hthread.eq_of_todo rfl
    exact ⟨hfilled, by rw [hget, ← hanswers]⟩
  have hvalue : ∀ i, i < a.capacity → a.value? pool.session.memory i = some (i.toNat : ℤ) := by
    intro i hi
    have hmod := Nat.mod_lt i.toNat hthreads
    have hround : i.toNat / threads < a.rounds threads (i.toNat % threads) := by
      rw [rounds, lt_stepsBelow_iff hthreads, Nat.mod_add_div']
      exact UInt64.lt_iff_toNat_lt.mp hi
    rw [h.value?_eq i hi, (hend _ hmod).1, if_pos hround]
  refine ⟨fun t ht => (hend t ht).2, ?_, hvalue⟩
  exact h.sound.allocated_of_full fun i hi => by rw [hvalue i hi]; rfl

end FilledUpTo

theorem within_fillCell (i : UInt64) : (a.fillCell i).Within 4 :=
  (within_access_fill fun _ => (within_perform _).map _).map _

theorem cellClient_fillCell (i : UInt64) : a.CellClient (fun _ => False) (a.fillCell i) :=
  .accessSignal .fill i fun _ => .map _ (.exchangeIf _ _ (.inl rfl))

/-- In every order in which the threads act, all fills that have ended so far have succeeded. -/
theorem exists_filledUpTo (a : SlotArray) (threads : ℕ) (schedule : List ℕ) :
    ∃ filled, a.FilledUpTo threads ((a.jointFilling threads).run schedule) filled :=
  Pool.run_induction (I := fun pool => ∃ filled, a.FilledUpTo threads pool filled)
    (fun _ k ⟨_, h⟩ => h.step k) ⟨_, .start a threads⟩ schedule

/-- A fill takes at most five turns. -/
theorem isIdle_jointFilling {schedule : List ℕ}
    (hturns : ∀ t, t < threads → 5 * a.rounds threads t ≤ schedule.count t) :
    ((a.jointFilling threads).run schedule).isIdle = true := by
  rw [Pool.isIdle, List.all_eq_true]
  intro thread hmem
  obtain ⟨t, hlt, rfl⟩ := List.mem_iff_getElem.mp hmem
  have hget := List.getElem?_eq_getElem hlt
  have hstart : (a.jointFilling threads).threads =
      (List.range threads).map fun t => .ofPrograms (a.fillsFrom threads t 0) := by
    simp [jointFilling, Pool.fresh]
  have ht : t < threads := by
    obtain ⟨filled, h⟩ := a.exists_filledUpTo threads schedule
    exact h.lt_threads hget
  have hends : ∀ thread, (a.jointFilling threads).threads[t]? = some thread →
      Thread.EndsWithin thread.todo (5 * a.rounds threads t) := by
    intro thread hk
    rw [hstart, List.getElem?_map, List.getElem?_range ht] at hk
    cases hk
    have hwithin : ∀ p ∈ a.fillsFrom threads t 0, p.Within 4 := by
      intro p hp
      obtain ⟨round, -, rfl⟩ := List.mem_map.mp hp
      exact within_fillCell _
    simpa [fillsFrom, Thread.ofPrograms] using Thread.endsWithin_of_forall hwithin
  rw [Pool.todo_eq_nil_of_count hends (hturns t ht) hget]
  rfl

/-- Each slot falls to one thread in one round. -/
theorem sum_rounds (a : SlotArray) (h : 0 < threads) :
    ∑ t ∈ Finset.range threads, a.rounds threads t = a.capacity.toNat := by
  have hshare : ∀ t ∈ Finset.range threads, a.rounds threads t =
      ((Finset.range a.capacity.toNat).filter (· % threads = t)).card := by
    intro t ht
    have hlt := Finset.mem_range.mp ht
    rw [← Finset.card_range (a.rounds threads t)]
    -- the slots with one remainder, each with its quotient for the round
    refine Finset.card_nbij' (fun round => t + round * threads) (· / threads) ?_ ?_ ?_ ?_
    · intro round hround
      have hround' := Finset.mem_range.mp hround
      simp [(lt_stepsBelow_iff h).mp hround', Nat.mod_eq_of_lt hlt]
    · intro i hi
      obtain ⟨hcap, rfl⟩ := Finset.mem_filter.mp (Finset.mem_coe.mp hi)
      refine Finset.mem_coe.mpr (Finset.mem_range.mpr ((lt_stepsBelow_iff h).mpr ?_))
      rw [Nat.mod_add_div']
      exact Finset.mem_range.mp hcap
    · intro round _
      simp [Nat.add_mul_div_right _ _ h, Nat.div_eq_of_lt hlt]
    · intro i hi
      obtain ⟨-, rfl⟩ := Finset.mem_filter.mp (Finset.mem_coe.mp hi)
      exact Nat.mod_add_div' i threads
  rw [Finset.sum_congr rfl hshare, ← Finset.card_eq_sum_card_fiberwise, Finset.card_range]
  exact fun i _ => Finset.mem_range.mpr (Nat.mod_lt i h)

/-- When all threads are done, as many fills have succeeded as there are slots. -/
theorem FilledUpTo.countP_answers {pool : Pool ℤ Unit Bool} {filled : ℕ → ℕ}
    (h : a.FilledUpTo threads pool filled) (hthreads : 0 < threads) (hidle : pool.isIdle = true) :
    pool.answers.flatten.countP id = a.capacity.toNat := by
  have hanswers : pool.answers =
      (List.range threads).map fun t => .replicate (a.rounds threads t) true := by
    refine List.ext_getElem (by simp [Pool.answers, h.length_eq]) fun t ht _ => ?_
    have hlt : t < pool.threads.length := by simpa [Pool.answers] using ht
    have hget := (h.ends hthreads hidle).1 t (h.length_eq ▸ hlt)
    rw [List.getElem?_eq_getElem hlt, Option.some_inj] at hget
    simp [Pool.answers, hget, List.filterMap_replicate, Except.toOption]
  rw [hanswers, List.countP_flatten, List.map_map, ← a.sum_rounds hthreads]
  simp [Function.comp_def, List.countP_replicate]
  rfl

/-- A cursor finds every cell of a filled array, each with its own index. -/
theorem countP_itemsFrom_of_filled {m : Memory ℤ}
    (h : ∀ i, i < a.capacity → a.value? m i = some (i.toNat : ℤ)) :
    (a.itemsFrom m 0).countP (fun (i, v) => v == (i.toNat : ℤ)) = a.capacity.toNat := by
  have hslot : ∀ k, k < a.capacity.toNat → a.value? m (.ofNat k) = some (k : ℤ) := by
    intro k hk
    have hword : (UInt64.ofNat k).toNat = k := a.toNat_ofNat_of_lt hk
    rw [h _ (UInt64.lt_iff_toNat_lt.mpr (hword.symm ▸ hk)), hword]
  have hitems : a.itemsFrom m 0 =
      (List.range a.capacity.toNat).map fun k => (UInt64.ofNat k, (k : ℤ)) := by
    rw [itemsFrom, Nat.sub_zero, ← List.range_eq_range', ← List.filterMap_eq_map]
    refine List.filterMap_congr fun k hk => ?_
    rw [hslot k (List.mem_range.mp hk)]
    rfl
  rw [hitems, List.countP_map, List.countP_eq_length.mpr, List.length_range]
  intro k hk
  simp [a.toNat_ofNat_of_lt (List.mem_range.mp hk)]

/-- Whoever begins, a joint filling leaves every segment allocated and every cell filled. -/
theorem fillTogether_eq {capacity : UInt64} (hcap : capacity.toNat ≤ 2 ^ 64 - 32)
    (hthreads : 0 < threads) (first : ℕ) :
    fillTogether capacity threads first =
      ⟨capacity.toNat, (segmentCount ⟨capacity⟩).toNat, capacity.toNat⟩ := by
  obtain ⟨schedule, hschedule, hidle⟩ :=
    (jointFilling ⟨capacity⟩ threads).exists_run_eq_takeTurns first
  obtain ⟨filled, h⟩ := exists_filledUpTo ⟨capacity⟩ threads schedule
  obtain ⟨-, hallocated, hvalues⟩ := h.ends hthreads hidle
  have hpool : fillTogether capacity threads first =
      let pool := (jointFilling ⟨capacity⟩ threads).takeTurns first
      ⟨pool.answers.flatten.countP id, pool.session.memory.allocated,
        (listed ⟨capacity⟩ pool.session).countP fun (i, v) => v == (i.toNat : ℤ)⟩ := by
    simp [fillTogether, jointFilling, Pool.fresh, fillsFrom, rounds, roundSlot,
      List.range_eq_range', Function.comp_def]
  rw [hpool, hschedule]
  simp only [h.countP_answers hthreads hidle, hallocated, listed_eq_itemsFrom hcap,
    countP_itemsFrom_of_filled hvalues]

/-- No round of joint fillings loses a fill. -/
theorem fillRounds_eq {capacity : UInt64} (hcap : capacity.toNat ≤ 2 ^ 64 - 32)
    (hthreads : 0 < threads) (n : ℕ) :
    fillRounds capacity threads n =
      ⟨n * capacity.toNat, n * (segmentCount ⟨capacity⟩).toNat, n * capacity.toNat⟩ := by
  induction n with
  | zero => simp [fillRounds]
  | succ n ih => simp [fillRounds, ih, fillTogether_eq hcap hthreads, Nat.succ_mul]

/-- However clients race for segments, an entry of the table gets at most one segment and keeps it.
An access for filling hands the cell of its slot in that segment to its program. Any other access
does the same if the segment is there when it looks, and ends if it is not. So there is one cell for
each slot, whatever thread asks for it, when and what for, and different slots have different cells.
Each segment is announced once, at once by the thread that published it. Threads that fill an array
together therefore lose nothing: once they have had their turns, every fill has succeeded, all
segments are there and each cell holds its index. -/
theorem segments_are_published_once :
    (∀ {V H α : Type} [Journal H] (a : SlotArray) (host : H)
        {programs : List (List (Program V H α))},
      (∀ list ∈ programs, ∀ p ∈ list, a.CellClient (fun _ => False) p) →
      ∀ schedule : List ℕ,
      let pool := (Pool.fresh a host programs).run schedule
      (∀ later e segment, pool.session.memory.segmentAt e = some segment →
        (pool.run later).session.memory.segmentAt e = some segment) ∧
      (∀ {β : Type} (k : ℕ) (i : UInt64) (use : Cell → Program V H β)
          (f : Option β → Program V H α) (rest : List (Program V H α))
          (answers : List (Except Panic α)) (turns : List ℕ),
        pool.threads[k]? = some ⟨(a.access .fill i use >>= f) :: rest, answers⟩ →
        i < a.capacity → 3 ≤ turns.count k →
        ∃ during later cell, turns = during ++ later ∧ during.count k ≤ 3 ∧
          (pool.run during).threads[k]? =
            some ⟨(use cell >>= fun x => f (some x)) :: rest, answers⟩ ∧
          ∀ after, a.cell? ((pool.run during).run after).session.memory i = some cell) ∧
      (∀ {β : Type} (purpose : Access) (k : ℕ) (i : UInt64) (use : Cell → Program V H β)
          (f : Option β → Program V H α) (rest : List (Program V H α))
          (answers : List (Except Panic α)), purpose ≠ .fill →
        pool.threads[k]? = some ⟨(a.access purpose i use >>= f) :: rest, answers⟩ →
        i < a.capacity →
        a.cell? pool.session.memory i = none ∧
            (pool.step k).threads[k]? = some ⟨f none :: rest, answers⟩ ∨
          ∃ cell, (pool.step k).threads[k]? =
              some ⟨(use cell >>= fun x => f (some x)) :: rest, answers⟩ ∧
            ∀ after, a.cell? (pool.run after).session.memory i = some cell) ∧
      (∀ i j c d, a.cell? pool.session.memory i = some c → a.cell? pool.session.memory j = some d →
        (c = d ↔ i = j)) ∧
      ∀ e, ((Pool.fresh a host programs).announced schedule).count e +
        pool.threads.countP (fun thread => thread.intent = .announce e) =
          (pool.session.memory.segmentAt e).isSome.toNat) ∧
    ∀ (a : SlotArray) (threads : ℕ) (schedule : List ℕ), 0 < threads →
      let pool := (a.jointFilling threads).run schedule
      (∀ thread ∈ pool.threads, ∀ answer ∈ thread.answers, answer = .ok true) ∧
      ((∀ t, t < threads → 5 * a.rounds threads t ≤ schedule.count t) → pool.isIdle = true) ∧
      (pool.isIdle = true →
        (∀ t, t < threads →
          pool.threads[t]? = some ⟨[], .replicate (a.rounds threads t) (.ok true)⟩) ∧
        pool.session.memory.allocated = a.segmentCount.toNat ∧
        ∀ i, i < a.capacity → a.value? pool.session.memory i = some (i.toNat : ℤ)) := by
  constructor
  · intro V H α _ a host programs h schedule pool
    have hpublishes := (Pool.Publishes.fresh host h).run schedule
    have hpool : pool.Lawful a := hpublishes.lawful
    refine ⟨?_, ?_, ?_, ?_, hpublishes.announced_once⟩
    · exact fun later e segment he => (hpool.later_run later).segmentAt_eq e segment he
    · intro β k i use f rest answers turns hk hi hturns
      obtain ⟨during, later, cell, hschedule, hcount, hend, hcell⟩ :=
        Pool.exists_entry hpool hi hk hturns
      exact ⟨during, later, cell, hschedule, hcount, hend,
        fun after => cell?_later ((hpool.run during).later_run after) hcell⟩
    · intro β purpose k i use f rest answers hpurpose hk hi
      obtain hmissing | ⟨cell, hcell, hstep⟩ := Pool.step_of_access hpurpose hi hk
      · exact .inl hmissing
      · exact .inr ⟨cell, hstep, fun after => cell?_later (hpool.later_run after) hcell⟩
    · intro i j c d hc hd
      constructor
      · rintro rfl
        exact hpool.sound.cell?_inj hc hd
      · rintro rfl
        exact Option.some.inj (hc.symm.trans hd)
  · intro a threads schedule hthreads pool
    obtain ⟨filled, h⟩ := a.exists_filledUpTo threads schedule
    refine ⟨fun thread hmem => ?_, isIdle_jointFilling, h.ends hthreads⟩
    obtain ⟨t, hlt, rfl⟩ := List.mem_iff_getElem.mp hmem
    exact (h.fillings t _ (List.getElem?_eq_getElem hlt)).answers_eq

/-- Two fills find the same segment missing. The second thread publishes first, and the segment that
the first one has made is thrown away; it is announced to nobody, and both fills get cells of the
other one. A third thread that is to empty the slot of the first one is handed the cell that the slot
keeps. Then two threads fill three slots together, racing in the same way. -/
theorem segments_are_published_once_of_race :
    let a : SlotArray := ⟨40⟩
    let take : Cell → QuietProgram Bool := fun cell => Option.isSome <$> cell.swap none
    let vacate : QuietProgram Bool := a.access .vacate 0 take >>= fun found => .done found.isSome
    let programs : List (List (QuietProgram Bool)) := [[a.fillCell 0], [a.fillCell 1], [vacate]]
    let start := Pool.fresh a () programs
    let turns := [0, 1, 1, 0, 0, 1, 0, 1, 0, 1]
    let b : SlotArray := ⟨3⟩
    let together := (b.jointFilling 2).run (turns ++ [0, 0, 0, 0, 0])
    (start.run turns).answers = [[true], [true], []] ∧
      (start.run turns).session.memory.segments.size = 2 ∧ start.announced turns = [0] ∧
      (∃ during later cell, turns = during ++ later ∧ during.count 0 ≤ 3 ∧
        ∀ after, a.cell? ((start.run during).run after).session.memory 0 = some cell) ∧
      (∃ cell, ((start.run turns).step 2).threads[2]? =
          some ⟨[take cell >>= fun _ => .done true], []⟩ ∧
        ∀ after, a.cell? ((start.run turns).run after).session.memory 0 = some cell) ∧
      (∀ e, (start.announced turns).count e +
        (start.run turns).threads.countP (fun thread => thread.intent = .announce e) =
          ((start.run turns).session.memory.segmentAt e).isSome.toNat) ∧
      together.session.memory.segments.size = 2 ∧ together.session.memory.allocated = 1 ∧
      ∀ i, i < b.capacity → b.value? together.session.memory i = some (i.toNat : ℤ) := by
  intro a take vacate programs start turns b together
  obtain ⟨hrace, hjoint⟩ := segments_are_published_once
  have hclients : ∀ list ∈ programs, ∀ p ∈ list, a.CellClient (fun _ => False) p := by
    have hvacate : a.CellClient (fun _ => False) vacate :=
      .bind (.access .vacate 0 fun _ => .map _ (.swap none (.inl rfl))) fun _ => .done _
    simp only [programs, List.mem_cons, List.not_mem_nil, or_false]
    rintro list (rfl | rfl | rfl) p hp <;> rcases List.mem_singleton.mp hp with rfl
    · exact cellClient_fillCell _
    · exact cellClient_fillCell _
    · exact hvacate
  obtain ⟨-, hcell, -, -, -⟩ := hrace a () hclients []
  obtain ⟨-, -, hlook, -, hannounced⟩ := hrace a () hclients turns
  obtain ⟨during, later, cell, hturns, hcount, -, hafter⟩ :=
    hcell 0 0 _ _ [] [] turns rfl (by decide) (by decide)
  have hthread : (start.run turns).threads[2]? = some ⟨[vacate], []⟩ :=
    Pool.getElem?_run_of_not_mem (by decide)
  have hthere : a.cell? ((Pool.fresh a () programs).run turns).session.memory 0 ≠ none := by
    decide +kernel
  have hhanded := (hlook .vacate 2 0 take _ [] [] (by decide) hthread (by decide)).resolve_left
    fun hmissing => hthere hmissing.1
  obtain ⟨-, hidle, hends⟩ := hjoint b 2 (turns ++ [0, 0, 0, 0, 0]) (by decide)
  obtain ⟨-, hallocated, hvalues⟩ := hends (hidle (by decide +kernel))
  dsimp only [start, together]
  exact ⟨by decide +kernel, by decide +kernel, by decide +kernel,
    ⟨during, later, cell, hturns, hcount, hafter⟩, hhanded, hannounced, by decide +kernel,
    hallocated.trans (by decide), hvalues⟩

end SlotArray

end AtomicSlots
