import AtomicSlots.Proofs.Allocation
import AtomicSlots.Proofs.Fillings
import AtomicSlots.Proofs.LiveWalks
import AtomicSlots.Proofs.LoopBounds

/-!
# Bounds of walks while others work on the array

A walk tells how many items it may still yield at most: as many as there are slots from its position
on. Others go on working meanwhile, not only between the steps of the walk but also between the
actions of one step, and they may fill slots again that the walk has found empty, even after it has
come to the end. The bound stays one all the same, and it is never larger than need be.
-/
namespace AtomicSlots

variable {V H α : Type}

namespace LiveWalk

variable {a : SlotArray} {walk later : LiveWalk V} {answers : List (Option (UInt64 × V))}
  {item : Option (UInt64 × V)} {after : Cursor}

/-- The position behind the item yielded last; a walk that has yielded nothing is at the front. -/
def reached (walk : LiveWalk V) : ℕ := walk.yielded.getLast?.elim 0 fun item => item.1.toNat + 1

theorem yielded_of_none (after : Cursor) :
    yielded ⟨after, walk.answers ++ [none]⟩ = walk.yielded := by
  simp [yielded, List.reduceOption_append]

theorem yielded_of_some (after : Cursor) (item : UInt64 × V) :
    yielded ⟨after, walk.answers ++ [some item]⟩ = walk.yielded ++ [item] := by
  simp [yielded, List.reduceOption_append]

theorem Proceeds.yielded_eq (h : walk.Proceeds a answers later) :
    later.yielded = walk.yielded ++ answers.reduceOption := by
  rw [yielded, h.answers_eq, List.reduceOption_append]
  rfl

/-- The bound goes down by at least one for every item. -/
theorem Proceeds.remaining_le (h : walk.Proceeds a answers later)
    (hinside : later.cursor.position ≤ a.capacity) :
    answers.reduceOption.length + a.remaining later.cursor ≤ a.remaining walk.cursor := by
  have hroom := h.room
  rw [UInt64.le_iff_toNat_le] at hinside
  rw [SlotArray.remaining, SlotArray.remaining]
  omega

theorem inside_of_mayStepTo (hinside : walk.cursor.position ≤ a.capacity)
    (h : a.MayStepTo walk.cursor item after) : after.position ≤ a.capacity := by
  obtain ⟨-, rfl⟩ | ⟨i, v, -, -, hi, rfl⟩ := h
  · exact hinside
  · rw [UInt64.le_iff_toNat_le, Cursor.past, SlotArray.toNat_add_one_of_lt hi]
    exact UInt64.lt_iff_toNat_lt.mp hi

theorem proceeds_of_mayStepTo (hcap : a.capacity.toNat ≤ 2 ^ 64 - 32)
    (h : a.MayStepTo walk.cursor item after) :
    walk.Proceeds a [item] ⟨after, walk.answers ++ [item]⟩ := by
  refine .of_answer ?_
  obtain hnone | ⟨i, v, hsome, hle, hi, rfl⟩ := h
  · exact .inl hnone
  · exact .inr ⟨i, v, hsome, hle hcap, hi, SlotArray.toNat_add_one_of_lt hi⟩

theorem remaining_of_mayStepTo {v : UInt64 × V} (hcap : a.capacity.toNat ≤ 2 ^ 64 - 32)
    (h : a.MayStepTo walk.cursor (some v) after) :
    a.remaining after + 1 ≤ a.remaining walk.cursor := by
  obtain ⟨⟨⟩, -⟩ | ⟨i, w, -, hle, hi, rfl⟩ := h
  have hpast := SlotArray.toNat_add_one_of_lt hi
  have hbehind := UInt64.le_iff_toNat_le.mp (hle hcap)
  rw [UInt64.lt_iff_toNat_lt] at hi
  rw [SlotArray.remaining, SlotArray.remaining, Cursor.past, hpast]
  omega

theorem reached_of_mayStepTo (hposition : walk.cursor.position.toNat = walk.reached)
    (h : a.MayStepTo walk.cursor item after) :
    after.position.toNat = reached ⟨after, walk.answers ++ [item]⟩ := by
  obtain ⟨rfl, rfl⟩ | ⟨i, v, rfl, -, hi, rfl⟩ := h
  · rw [hposition, reached, reached, yielded_of_none]
  · rw [reached, yielded_of_some, List.getLast?_concat]
    exact SlotArray.toNat_add_one_of_lt hi

end LiveWalk

/-- A store leaves its value in the slot, whatever the slot has held. -/
theorem SlotArray.value?_run_swap [Journal H] {a : SlotArray} {s : Session V H}
    (hs : a.Sound s.memory) {i : UInt64} (hi : i < a.capacity) (v : V) :
    a.value? ((a.swap i v).run s).2.memory i = some v := by
  obtain ⟨cell, hc, hrun⟩ := exists_cell_reaching hs hi
  have hputs := (sound_reaching (i := i) hs).puts hc (some v)
  rw [swap, hrun]
  generalize a.reaching i s = t at *
  simp only [put, hc] at hputs
  simp only [Program.run_bind, Cell.replace, Cell.swap, Program.perform, Program.run_step,
    Action.perform, Memory.swap_eq, Program.run_done]
  cases t.memory.content cell with
  | none => exact (hputs 1).value?_eq
  | some o =>
    have hstored := (hputs 0).value?_eq
    rwa [Memory.adjust_zero] at hstored

/-- A step of a walk that finds the slot at its position occupied yields that one. -/
theorem SlotArray.run_next_of_value? [Journal H] {a : SlotArray} {s : Session V H} {cursor : Cursor}
    {v : V} (h : a.value? s.memory cursor.position = some v) :
    (a.next cursor).run s =
      (.ok (some (cursor.position, v), cursor.past cursor.position), s) := by
  obtain ⟨o, ho, rfl⟩ := Option.map_eq_some_iff.mp h
  have hfirst : a.Finds s.memory cursor.position (some (cursor.position, o)) :=
    ⟨UInt64.le_refl _, ho, fun k hk hlt => absurd hlt (UInt64.not_lt.mpr hk)⟩
  obtain ⟨found, hrun, -, hfinds | ⟨-, hnone⟩⟩ := a.run_firstFrom cursor.position s
  · rw [next, Program.run_bind, hrun, hfinds.unique hfirst]
    rfl
  · cases hnone.unique hfirst

/-- A thread that joins lawful threads and is to perform lawful programs is lawful too. -/
theorem Pool.Lawful.join [Journal H] {a : SlotArray} {pool : Pool V H α} (h : pool.Lawful a)
    {programs : List (Program V H α)} (hprograms : ∀ p ∈ programs, p.Lawful a) :
    Pool.Lawful a ⟨pool.session, pool.threads ++ [.ofPrograms programs]⟩ where
  sound := h.sound
  threads k thread hk := by
    rw [List.getElem?_append] at hk
    split at hk
    · exact h.threads k thread hk
    · obtain rfl := List.mem_singleton.mp (List.mem_of_getElem? hk)
      exact Thread.follows_of_comesToRest hprograms [] _
  outside _ _ := rfl

/-- A walk among threads. A step of the walk that is under way is a program. -/
structure Stroll (V H α : Type) where
  pool : Pool V H α
  walk : LiveWalk V
  underway : Option (Program V H (Option (UInt64 × V) × Cursor))

namespace Stroll

/-- What can happen to a walk among threads. -/
inductive Move (V H α : Type) where
  /-- A thread performs an action. -/
  | turn (k : ℕ)
  /-- A thread joins the others. -/
  | join (programs : List (Program V H α))
  /-- The walk begins a step, if none is under way. -/
  | call
  /-- The step of the walk that is under way performs an action, or the walk takes its answer. -/
  | act

/-- A new walk. -/
def start (pool : Pool V H α) : Stroll V H α := ⟨pool, .start, none⟩

variable [Journal H]

def move (a : SlotArray) : Stroll V H α → Move V H α → Stroll V H α
  | ⟨pool, walk, underway⟩, .turn k => ⟨pool.step k, walk, underway⟩
  | ⟨⟨s, threads⟩, walk, underway⟩, .join programs =>
    ⟨⟨s, threads ++ [.ofPrograms programs]⟩, walk, underway⟩
  | ⟨pool, walk, none⟩, .call => ⟨pool, walk, some (a.next walk.cursor)⟩
  | ⟨pool, walk, some p⟩, .call => ⟨pool, walk, some p⟩
  | ⟨pool, walk, none⟩, .act => ⟨pool, walk, none⟩
  | ⟨pool, walk, some (.done (found, after))⟩, .act => ⟨pool, ⟨after, walk.answers ++ [found]⟩, none⟩
  | ⟨pool, walk, some (.panic _)⟩, .act => ⟨pool, walk, none⟩
  | ⟨⟨s, threads⟩, walk, some (.step act next)⟩, .act =>
    match act.perform s with
    | (r, s) => ⟨⟨s, threads⟩, walk, some (next r)⟩

def run (a : SlotArray) (stroll : Stroll V H α) (moves : List (Move V H α)) : Stroll V H α :=
  moves.foldl (move a) stroll

variable {a : SlotArray} {stroll : Stroll V H α}

@[simp] theorem run_nil : stroll.run a [] = stroll := rfl

@[simp] theorem run_cons (x : Move V H α) (rest : List (Move V H α)) :
    stroll.run a (x :: rest) = (stroll.move a x).run a rest := rfl

theorem run_append (first second : List (Move V H α)) :
    stroll.run a (first ++ second) = (stroll.run a first).run a second := List.foldl_append

/-- The cursor of a walk stands at the front, or behind the item yielded last, and the step that is
under way can only answer as steps from there do. -/
structure Orderly (a : SlotArray) (stroll : Stroll V H α) : Prop where
  answers : ∀ p, stroll.underway = some p →
    p.Answers fun (item, after) => a.MayStepTo stroll.walk.cursor item after
  inside : stroll.walk.cursor.position ≤ a.capacity
  position_eq : stroll.walk.cursor.position.toNat = stroll.walk.reached

omit [Journal H] in
theorem Orderly.start (a : SlotArray) (pool : Pool V H α) : (start pool).Orderly a :=
  ⟨nofun, UInt64.le_iff_toNat_le.mpr (Nat.zero_le _), rfl⟩

/-- A move leaves the walk as it is, or the walk takes the answer of a step. -/
theorem Orderly.move (h : stroll.Orderly a) (x : Move V H α) :
    (stroll.move a x).Orderly a ∧
      ((stroll.move a x).walk = stroll.walk ∨ x = .act ∧ ∃ item after,
        (stroll.move a x).walk = ⟨after, stroll.walk.answers ++ [item]⟩ ∧
        a.MayStepTo stroll.walk.cursor item after) := by
  obtain ⟨⟨s, threads⟩, walk, underway⟩ := stroll
  obtain ⟨hanswers, hinside, hposition⟩ := h
  cases x with
  | turn k => exact ⟨⟨hanswers, hinside, hposition⟩, .inl rfl⟩
  | join programs => exact ⟨⟨hanswers, hinside, hposition⟩, .inl rfl⟩
  | call =>
    cases underway with
    | some p => exact ⟨⟨hanswers, hinside, hposition⟩, .inl rfl⟩
    | none =>
      refine ⟨⟨?_, hinside, hposition⟩, .inl rfl⟩
      rintro p ⟨⟩
      exact a.answers_next walk.cursor
  | act =>
    rcases underway with _ | (⟨item, after⟩ | reason | ⟨act, next⟩)
    · exact ⟨⟨hanswers, hinside, hposition⟩, .inl rfl⟩
    · have hstep : a.MayStepTo walk.cursor item after := hanswers _ rfl
      exact ⟨⟨nofun, LiveWalk.inside_of_mayStepTo hinside hstep,
        LiveWalk.reached_of_mayStepTo hposition hstep⟩, .inr ⟨rfl, item, after, rfl, hstep⟩⟩
    · exact ⟨⟨nofun, hinside, hposition⟩, .inl rfl⟩
    · refine ⟨⟨?_, hinside, hposition⟩, .inl rfl⟩
      rintro p ⟨⟩
      exact hanswers _ rfl _

theorem Orderly.run (h : stroll.Orderly a) (moves : List (Move V H α)) :
    (stroll.run a moves).Orderly a := by
  induction moves generalizing stroll with
  | nil => exact h
  | cons x rest ih => exact ih (h.move x).1

/-- However the moves of threads and walk come, the walk proceeds from its position on. -/
theorem Orderly.exists_proceeds (hcap : a.capacity.toNat ≤ 2 ^ 64 - 32) (h : stroll.Orderly a)
    (moves : List (Move V H α)) : ∃ answers, stroll.walk.Proceeds a answers (stroll.run a moves).walk := by
  induction moves generalizing stroll with
  | nil => exact ⟨[], .refl _⟩
  | cons x rest ih =>
    obtain ⟨hnext, hwalk⟩ := h.move x
    obtain ⟨answers, hproceeds⟩ := ih hnext
    obtain hwalk | ⟨-, item, after, hwalk, hstep⟩ := hwalk
    · rw [hwalk] at hproceeds
      exact ⟨answers, hproceeds⟩
    · rw [hwalk] at hproceeds
      exact ⟨_, (LiveWalk.proceeds_of_mayStepTo hcap hstep).trans hproceeds⟩

/-- Threads that join keep to the cells that accesses hand to them. -/
def Move.Lawful (a : SlotArray) : Move V H α → Prop
  | .join programs => ∀ p ∈ programs, a.CellClient (fun _ => False) p
  | .turn _ | .call | .act => True

/-- The threads keep to the cells that accesses hand to them, and the step that is under way only
loads. -/
structure Lawful (a : SlotArray) (stroll : Stroll V H α) : Prop where
  pool : stroll.pool.Lawful a
  loads : ∀ p, stroll.underway = some p → p.Only Action.IsLoad

theorem Lawful.move (h : stroll.Lawful a) {x : Move V H α} (hx : x.Lawful a) :
    (stroll.move a x).Lawful a := by
  obtain ⟨⟨s, threads⟩, walk, underway⟩ := stroll
  obtain ⟨hpool, hloads⟩ := h
  cases x with
  | turn k => exact ⟨hpool.step k, hloads⟩
  | join programs => exact ⟨hpool.join fun p hp => (hx p hp).lawful, hloads⟩
  | call =>
    cases underway with
    | some p => exact ⟨hpool, hloads⟩
    | none =>
      refine ⟨hpool, ?_⟩
      rintro p ⟨⟩
      exact .bind (a.only_firstFrom _) fun found => by cases found <;> trivial
  | act =>
    rcases underway with _ | (⟨item, after⟩ | reason | ⟨act, next⟩)
    · exact ⟨hpool, hloads⟩
    · exact ⟨hpool, nofun⟩
    · exact ⟨hpool, nofun⟩
    · obtain ⟨hload, hrest⟩ := hloads _ rfl
      have hsession : (act.perform s).2 = s := by
        cases act <;> first | rfl | exact hload.elim
      refine ⟨?_, ?_⟩
      · change Pool.Lawful a ⟨(act.perform s).2, threads⟩
        rwa [hsession]
      · rintro p ⟨⟩
        exact hrest _

theorem Lawful.run (h : stroll.Lawful a) {moves : List (Move V H α)}
    (hmoves : ∀ x ∈ moves, x.Lawful a) : (stroll.run a moves).Lawful a := by
  induction moves generalizing stroll with
  | nil => exact h
  | cons x rest ih =>
    rw [List.forall_mem_cons] at hmoves
    exact ih (h.move hmoves.1) hmoves.2

theorem run_turns (n k : ℕ) : stroll.run a (.replicate n (.turn k)) =
    ⟨stroll.pool.run (.replicate n k), stroll.walk, stroll.underway⟩ := by
  induction n generalizing stroll with
  | zero => rfl
  | succ n ih =>
    rw [List.replicate_succ, run_cons, ih]
    rfl

/-- A step of the walk that is not disturbed comes to its answer. -/
theorem exists_run_act {p : Program V H (Option (UInt64 × V) × Cursor)} {pool : Pool V H α}
    {walk : LiveWalk V} {item : Option (UInt64 × V)} {behind : Cursor} {s : Session V H}
    (h : p.run pool.session = (.ok (item, behind), s)) : ∃ n,
    (Stroll.mk pool walk (some p)).run a (.replicate n .act) =
      ⟨⟨s, pool.threads⟩, ⟨behind, walk.answers ++ [item]⟩, none⟩ := by
  induction p generalizing pool with
  | done answer =>
    cases h
    exact ⟨1, rfl⟩
  | panic reason => cases h
  | step act next ih =>
    let after : Pool V H α := ⟨(act.perform pool.session).2, pool.threads⟩
    have hrest : (next (act.perform pool.session).1).run after.session = (.ok (item, behind), s) := h
    obtain ⟨n, hn⟩ := ih _ hrest
    exact ⟨n + 1, hn⟩

/-- A thread that joins the others can store a value before anybody else acts. -/
theorem Lawful.exists_store (h : stroll.Lawful a) {i : UInt64} (hi : i < a.capacity) (v : V) (x : α) :
    ∃ moves pool, (∀ y ∈ moves, y.Lawful a) ∧
      stroll.run a moves = ⟨pool, stroll.walk, stroll.underway⟩ ∧
      a.value? pool.session.memory i = some v := by
  obtain ⟨⟨s, threads⟩, walk, underway⟩ := stroll
  let store : Program V H α := (fun _ => x) <$> a.swap i v
  let joined : List (Thread V H α) := threads ++ [.ofPrograms [store]]
  have hstore : joined[threads.length]? = some ⟨[store], []⟩ := by simp [joined, Thread.ofPrograms]
  obtain ⟨n, hn⟩ := Thread.exists_iterate_run store [] [] s
  refine ⟨.join [store] :: .replicate n (.turn threads.length), _, ?_, run_turns _ _, ?_⟩
  · rw [List.forall_mem_cons]
    constructor
    · intro p hp
      obtain rfl := List.mem_singleton.mp hp
      exact .map _ (.swapSlot i v)
    · intro y hy
      rw [List.eq_of_mem_replicate hy]
      trivial
  · change a.value? (Pool.run ⟨s, joined⟩ (.replicate n threads.length)).session.memory i = some v
    rw [Pool.run_replicate hstore, hn, SlotArray.run_map]
    exact SlotArray.value?_run_swap h.pool.sound hi v

/-- A walk can yield the slot at its position, whatever that holds: another thread stores a value
there before the walk goes on. -/
theorem Lawful.exists_yield (h : stroll.Lawful a) (hnone : stroll.underway = none)
    (hposition : stroll.walk.cursor.position < a.capacity) (v : V) (x : α) :
    ∃ moves pool, (∀ y ∈ moves, y.Lawful a) ∧
      stroll.run a moves = ⟨pool, ⟨stroll.walk.cursor.past stroll.walk.cursor.position,
        stroll.walk.answers ++ [some (stroll.walk.cursor.position, v)]⟩, none⟩ := by
  obtain ⟨first, pool, hfirst, hstored, hvalue⟩ := h.exists_store hposition v x
  obtain ⟨n, hn⟩ := exists_run_act (SlotArray.run_next_of_value? hvalue)
  refine ⟨first ++ .call :: .replicate n .act, pool, ?_, ?_⟩
  · rw [List.forall_mem_append, List.forall_mem_cons]
    refine ⟨hfirst, trivial, fun y hy => ?_⟩
    rw [List.eq_of_mem_replicate hy]
    trivial
  · rw [run_append, hstored, hnone]
    exact hn

/-- A walk can yield as many items as there are slots from its position on. -/
theorem Lawful.exists_yields (h : stroll.Lawful a) (hnone : stroll.underway = none) (v : V) (x : α) :
    ∃ moves items,
      (∀ y ∈ moves, y.Lawful a) ∧
      (stroll.run a moves).walk.yielded = stroll.walk.yielded ++ items ∧
      items.length = a.remaining stroll.walk.cursor := by
  induction hn : a.remaining stroll.walk.cursor generalizing stroll with
  | zero => exact ⟨[], [], nofun, (List.append_nil _).symm, rfl⟩
  | succ n ih =>
    rw [SlotArray.remaining] at hn
    have hposition : stroll.walk.cursor.position < a.capacity :=
      UInt64.lt_iff_toNat_lt.mpr (by omega)
    obtain ⟨first, pool, hfirst, hrun⟩ := h.exists_yield hnone hposition v x
    have hnext := h.run hfirst
    rw [hrun] at hnext
    have hpast := SlotArray.toNat_add_one_of_lt hposition
    obtain ⟨second, items, hsecond, hyielded, hlength⟩ := ih hnext rfl (by
      rw [SlotArray.remaining, Cursor.past, hpast]
      omega)
    refine ⟨first ++ second, (stroll.walk.cursor.position, v) :: items,
      List.forall_mem_append.mpr ⟨hfirst, hsecond⟩, ?_, ?_⟩
    · rw [run_append, hrun, hyielded, LiveWalk.yielded_of_some, List.append_assoc]
      rfl
    · rw [List.length_cons, hlength]

end Stroll

namespace SlotArray

/-- The bounds of a plain walk hold whatever else happens. Between its steps and between the actions
of a step, threads act as they like, and further ones join. At each moment the lower bound is zero
and the upper bound is the number of slots from the position of the cursor on; that is the front, or
behind the item yielded last, and never behind the capacity. A move leaves the walk and its bounds
as they are, unless the walk takes the answer of a step: if that yields nothing the bounds are left
as they are too, and if it yields an item the upper bound goes down. So from any moment on the walk
yields no more items than the upper bound says. (Only in an array of more than `2 ^ 64 - 32` slots,
whose table would take a quarter of all addresses of a 64-bit word, the index of a scan can wrap
around, so that the walk turns back.) Between its steps, also after it has come to the end, it can
still yield that many: others fill the slots in front of it. -/
theorem bounds_stay_true (a : SlotArray) :
    (∀ {V H α : Type} [Journal H] (pool : Pool V H α) (early : List (Stroll.Move V H α)),
      let now := (Stroll.start pool).run a early
      let cursor := now.walk.cursor
      let bound := a.remaining cursor
      (a.bounds cursor = (0, some bound) ∧ bound + cursor.position.toNat = a.capacity.toNat ∧
        (now.walk.yielded = [] ∧ cursor.position = 0 ∨
          ∃ (items : List (UInt64 × V)) (item : UInt64 × V),
            now.walk.yielded = items ++ [item] ∧ cursor.position.toNat = item.1.toNat + 1)) ∧
      (∀ x, (now.move a x).walk = now.walk ∨ x = .act ∧ ∃ item after,
        (now.move a x).walk = ⟨after, now.walk.answers ++ [item]⟩ ∧
        (item = none → after = cursor) ∧
        (a.capacity.toNat ≤ 2 ^ 64 - 32 → item ≠ none → a.remaining after + 1 ≤ bound)) ∧
      (a.capacity.toNat ≤ 2 ^ 64 - 32 → ∀ late, let later := now.run a late
        ∃ items, later.walk.yielded = now.walk.yielded ++ items ∧
          items.length + a.remaining later.walk.cursor ≤ bound)) ∧
    (∀ {V H α : Type} [Journal H] (host : H) {programs : List (List (Program V H α))}
        {early : List (Stroll.Move V H α)},
      (∀ list ∈ programs, ∀ p ∈ list, a.CellClient (fun _ => False) p) →
      (∀ x ∈ early, x.Lawful a) →
      let now := (Stroll.start (Pool.fresh a host programs)).run a early
      now.underway = none → V → α → ∃ late items, (∀ x ∈ late, x.Lawful a) ∧
        (now.run a late).walk.yielded = now.walk.yielded ++ items ∧
        items.length = a.remaining now.walk.cursor) ∧
    ∀ {V : Type} (filters : Filters V) (number : ℕ) (shape : Shape) (cursor : Cursor),
      (∀ k, shape ≠ .filtered k) → a.stepWalk filters number shape cursor = a.next cursor ∧
      ∀ name (s : ScriptSession V), s.host.walk? name = some (number, ⟨shape, cursor⟩) →
        (a.boundsOf name).run s =
          (.ok (.bounds (a.bounds cursor).1 (a.bounds cursor).2), s) := by
  refine ⟨?_, ?_, ?_⟩
  · intro V H α _ pool early now cursor bound
    have hnow : now.Orderly a := (Stroll.Orderly.start a pool).run early
    have hinside := UInt64.le_iff_toNat_le.mp hnow.inside
    refine ⟨⟨rfl, Nat.sub_add_cancel hinside, ?_⟩, fun x => ?_, fun hcap late => ?_⟩
    · have hposition := hnow.position_eq
      rw [LiveWalk.reached] at hposition
      obtain hnil | ⟨items, item, hlast⟩ := List.eq_nil_or_concat now.walk.yielded
      · rw [hnil] at hposition
        exact .inl ⟨hnil, UInt64.toNat_inj.mp hposition⟩
      · rw [hlast, List.concat_eq_append, List.getLast?_concat] at hposition
        exact .inr ⟨items, item, hlast.trans (List.concat_eq_append ..), hposition⟩
    · obtain ⟨-, hsame | ⟨hact, item, after, hwalk, hstep⟩⟩ := hnow.move x
      · exact .inl hsame
      · refine .inr ⟨hact, item, after, hwalk, ?_, fun hcap hsome => ?_⟩
        · rintro rfl
          obtain ⟨-, hafter⟩ | ⟨i, v, ⟨⟩, -⟩ := hstep
          exact hafter
        · obtain ⟨v, rfl⟩ := Option.ne_none_iff_exists'.mp hsome
          exact LiveWalk.remaining_of_mayStepTo hcap hstep
    · obtain ⟨answers, hproceeds⟩ := hnow.exists_proceeds hcap late
      exact ⟨_, hproceeds.yielded_eq, hproceeds.remaining_le (hnow.run late).inside⟩
  · intro V H α _ host programs early hprograms hearly now hnone v x
    have hstart : (Stroll.start (Pool.fresh a host programs)).Lawful a :=
      ⟨Pool.lawful_of_programs (sound_ofEntries a) fun list hlist p hp =>
        (hprograms list hlist p hp).lawful, nofun⟩
    obtain ⟨late, items, hlate, hyielded, hlength⟩ := (hstart.run hearly).exists_yields hnone v x
    exact ⟨late, items, hlate, hyielded, hlength⟩
  · intro V filters number shape cursor hshape
    cases shape with
    | values | indexed =>
      refine ⟨rfl, fun name s hs => ?_⟩
      simp only [boundsOf, Program.run_bind, Program.readHost, Program.perform, Program.run_step,
        Action.perform, Program.run_done, hs]
      rfl
    | filtered k => exact absurd rfl (hshape k)

/-- A walk yields a slot and then comes to the end, while another thread fills the slot in front of
the one it has yielded. After that the last slot is filled, and the walk goes on. -/
theorem bounds_stay_true_of_refill :
    let a : SlotArray := ⟨3⟩
    let programs : List (List (Program ℤ Unit Bool)) := [[a.insert 1 7], [a.insert 0 5, a.insert 2 8]]
    let step : List (Stroll.Move ℤ Unit Bool) := .call :: .replicate 4 .act
    let early : List (Stroll.Move ℤ Unit Bool) :=
      .replicate 7 (.turn 0) ++ step ++ .call :: .replicate 5 (.turn 1) ++ .replicate 4 .act
    let late : List (Stroll.Move ℤ Unit Bool) := .replicate 5 (.turn 1) ++ step
    let now := (Stroll.start (Pool.fresh a () programs)).run a early
    let later := now.run a late
    now.walk.answers = [some (1, 7), none] ∧ a.bounds now.walk.cursor = (0, some 1) ∧
      later.walk.answers = [some (1, 7), none, some (2, 8)] ∧
      a.bounds later.walk.cursor = (0, some 0) ∧
      (∃ items, later.walk.yielded = now.walk.yielded ++ items ∧
        items.length + a.remaining later.walk.cursor ≤ 1) ∧
      ∃ further items, (∀ x ∈ further, x.Lawful a) ∧
        (now.run a further).walk.yielded = now.walk.yielded ++ items ∧ items.length = 1 := by
  intro a programs step early late now later
  obtain ⟨hbounds, hattained, -⟩ := bounds_stay_true a
  have hprograms : ∀ list ∈ programs, ∀ p ∈ list, a.CellClient (fun _ => False) p := by
    have hinsert : ∀ i v, a.CellClient (fun _ => False) (a.insert i v : Program ℤ Unit Bool) :=
      fun i v => .map _ (.fillSlot i (.done v))
    simp only [programs, List.mem_cons, List.not_mem_nil, or_false]
    rintro list (rfl | rfl) p hp <;> simp only [List.mem_cons, List.not_mem_nil, or_false] at hp
    · exact hp ▸ hinsert 1 7
    · rcases hp with rfl | rfl <;> exact hinsert _ _
  have hearly : ∀ x ∈ early, x.Lawful a := by
    intro x hx
    cases x with
    | join programs => simp [early, step] at hx
    | turn k | call | act => trivial
  have hnone : now.underway = none := Option.isNone_iff_eq_none.mp (by decide +kernel)
  have hnow : now.walk.answers = [some (1, 7), none] := by decide +kernel
  have hbefore : a.remaining now.walk.cursor = 1 := by decide +kernel
  have hlater : later.walk.answers = [some (1, 7), none, some (2, 8)] := by decide +kernel
  have hafter : a.remaining later.walk.cursor = 0 := by decide +kernel
  have hyields := (hbounds (Pool.fresh a () programs) early).2.2 (by decide) late
  have hattains := hattained () hprograms hearly hnone 9 true
  -- from here on the values of the runs do not matter, only what is known of them
  have hrun : (Stroll.start (Pool.fresh a () programs)).run a early = now := rfl
  have hgoes : now.run a late = later := rfl
  simp only [hrun, hgoes, hbefore] at hyields hattains
  clear_value now later
  exact ⟨hnow, congrArg (0, some ·) hbefore, hlater, congrArg (0, some ·) hafter, hyields, hattains⟩

end SlotArray

end AtomicSlots
