import AtomicSlots.Proofs.Scan
import AtomicSlots.Script.Operation
import AtomicSlots.Threads.Pool
import Mathlib.Data.List.ReduceOption

/-!
# Walks while others work on the array

Any number of walks over one array are alive at once, and between their steps threads do what they
like with the array. A step of a walk sees the array as it is then: it yields the first occupied
slot that is not in front of its cursor, or nothing, and then the walk can still go on later. From
what a single step does it follows what a walk does in all its life.
-/
namespace AtomicSlots

variable {V H α : Type}

/-- A walk, with what its steps have answered so far. -/
structure LiveWalk (V : Type) where
  cursor : Cursor
  answers : List (Option (UInt64 × V))
deriving DecidableEq

namespace LiveWalk

def start : LiveWalk V := ⟨.start, []⟩

/-- The items that the walk has yielded. -/
def yielded (walk : LiveWalk V) : List (UInt64 × V) := walk.answers.reduceOption

end LiveWalk

/-- Threads that work on an array, and walks over it. -/
structure Scene (V H α : Type) where
  pool : Pool V H α
  walks : List (LiveWalk V)

/-- What can happen in a scene. -/
inductive Happening where
  | turn (k : ℕ)
  | newWalk
  | next (w : ℕ)
deriving DecidableEq

namespace Scene

variable [Journal H]

def happen (a : SlotArray) (scene : Scene V H α) : Happening → Scene V H α
  | .turn k => ⟨scene.pool.step k, scene.walks⟩
  | .newWalk => ⟨scene.pool, scene.walks ++ [.start]⟩
  | .next w =>
    match scene.walks[w]? with
    | none => scene
    | some walk =>
      match (a.next walk.cursor).run scene.pool.session with
      | (.error _, s) => ⟨⟨s, scene.pool.threads⟩, scene.walks⟩
      | (.ok (found, after), s) =>
        ⟨⟨s, scene.pool.threads⟩, scene.walks.set w ⟨after, walk.answers ++ [found]⟩⟩

def run (a : SlotArray) (scene : Scene V H α) (happenings : List Happening) : Scene V H α :=
  happenings.foldl (happen a) scene

@[simp] theorem run_nil (a : SlotArray) (scene : Scene V H α) : scene.run a [] = scene := rfl

@[simp] theorem run_cons (a : SlotArray) (scene : Scene V H α) (x : Happening)
    (rest : List Happening) : scene.run a (x :: rest) = (scene.happen a x).run a rest := rfl

theorem run_append (a : SlotArray) (scene : Scene V H α) (first second : List Happening) :
    scene.run a (first ++ second) = (scene.run a first).run a second := List.foldl_append

end Scene

/-- The cursor behind what a step has found. -/
def Cursor.after (cursor : Cursor) : Option (UInt64 × V) → Cursor
  | none => cursor
  | some (i, _) => cursor.past i

namespace SlotArray

/-- What a step of a walk answers, and where it leaves the cursor: behind the first occupied slot
that is not in front of it, or, if there is none, where it was. -/
def StepsTo (a : SlotArray) (m : Memory V) (cursor : Cursor) :
    Option (UInt64 × V) → Cursor → Prop
  | none, after => after = cursor ∧ ∀ i, cursor.position ≤ i → a.value? m i = none
  | some (i, v), after => after.position.toNat = i.toNat + 1 ∧ cursor.position ≤ i ∧
      a.value? m i = some v ∧ ∀ k, cursor.position ≤ k → k < i → a.value? m k = none

variable {a : SlotArray}

/-- A step looks at the array and does nothing else. -/
theorem run_next [Journal H] (h : a.capacity.toNat ≤ 2 ^ 64 - 32) (cursor : Cursor)
    (s : Session V H) : ∃ found, (a.next cursor).run s = (.ok (found, cursor.after found), s) ∧
      a.StepsTo s.memory cursor found (cursor.after found) := by
  obtain ⟨found, hrun, hfinds⟩ := run_firstFrom_finds h cursor.position s
  rw [next, Program.run_bind, hrun]
  rcases found with _ | ⟨i, o⟩
  · refine ⟨none, rfl, rfl, fun i hi => ?_⟩
    rw [value?, hfinds i hi]
    rfl
  · obtain ⟨hle, ho, hmin⟩ := hfinds
    have hi := UInt64.lt_iff_toNat_lt.mp (lt_of_occupant? ho)
    refine ⟨some (i, o.value), rfl, toNat_add_one (by omega), hle, ?_,
      fun k hk hki => ?_⟩
    · rw [value?, ho]
      rfl
    · rw [value?, hmin k hk hki]
      rfl

end SlotArray

/-- From one moment of its life to a later one, a walk has given these answers: it has yielded slots
from its position on, in the order of their indices, and has moved past each of them. -/
structure LiveWalk.Proceeds (a : SlotArray) (walk : LiveWalk V)
    (answers : List (Option (UInt64 × V))) (later : LiveWalk V) : Prop where
  answers_eq : later.answers = walk.answers ++ answers
  inside : walk.cursor.position ≤ a.capacity → later.cursor.position ≤ a.capacity
  bounds : ∀ i v, some (i, v) ∈ answers →
    walk.cursor.position ≤ i ∧ i < later.cursor.position ∧ i < a.capacity
  sorted : (answers.reduceOption.map Prod.fst).Pairwise (· < ·)
  /-- As many slots lie between the positions as were yielded, or more. -/
  room : answers.reduceOption.length + walk.cursor.position.toNat ≤ later.cursor.position.toNat

namespace LiveWalk

variable {a : SlotArray} {walk later last : LiveWalk V} {answers rest : List (Option (UInt64 × V))}

theorem Proceeds.refl (walk : LiveWalk V) : walk.Proceeds a [] walk := by
  refine ⟨(List.append_nil _).symm, id, fun _ _ h => ?_, .nil, by simp⟩
  cases h

theorem Proceeds.trans (h : walk.Proceeds a answers later) (h' : later.Proceeds a rest last) :
    walk.Proceeds a (answers ++ rest) last := by
  have hle : walk.cursor.position ≤ later.cursor.position :=
    UInt64.le_iff_toNat_le.mpr (by have := h.room; omega)
  have hle' : later.cursor.position ≤ last.cursor.position :=
    UInt64.le_iff_toNat_le.mpr (by have := h'.room; omega)
  refine ⟨?_, h'.inside ∘ h.inside, fun i v hmem => ?_, ?_, ?_⟩
  · rw [h'.answers_eq, h.answers_eq, List.append_assoc]
  · rcases List.mem_append.mp hmem with hmem | hmem
    · obtain ⟨hi, hlt, hcap⟩ := h.bounds i v hmem
      exact ⟨hi, UInt64.lt_of_lt_of_le hlt hle', hcap⟩
    · obtain ⟨hi, hlt, hcap⟩ := h'.bounds i v hmem
      exact ⟨UInt64.le_trans hle hi, hlt, hcap⟩
  · rw [List.reduceOption_append, List.map_append]
    refine List.pairwise_append.mpr ⟨h.sorted, h'.sorted, ?_⟩
    simp only [List.mem_map, List.reduceOption_mem_iff, Prod.exists, exists_and_right,
      exists_eq_right]
    rintro i ⟨v, hi⟩ j ⟨w, hj⟩
    exact UInt64.lt_of_lt_of_le (h.bounds i v hi).2.1 (h'.bounds j w hj).1
  · rw [List.reduceOption_append, List.length_append]
    have := h.room
    have := h'.room
    omega

/-- A step that yields nothing leaves the cursor where it is, and one that yields a slot moves it
past that slot. -/
theorem Proceeds.of_answer {found : Option (UInt64 × V)} {after : Cursor}
    (h : found = none ∧ after = walk.cursor ∨ ∃ i v, found = some (i, v) ∧
      walk.cursor.position ≤ i ∧ i < a.capacity ∧ after.position.toNat = i.toNat + 1) :
    walk.Proceeds a [found] ⟨after, walk.answers ++ [found]⟩ := by
  obtain ⟨rfl, rfl⟩ | ⟨i, v, rfl, hle, hi, hafter⟩ := h
  · exact ⟨rfl, id, by simp, by simp, by simp⟩
  · refine ⟨rfl, fun _ => ?_, ?_, by simp, ?_⟩
    · rw [UInt64.le_iff_toNat_le, hafter]
      exact UInt64.lt_iff_toNat_lt.mp hi
    · rintro j w hmem
      cases List.mem_singleton.mp hmem
      exact ⟨hle, UInt64.lt_iff_toNat_lt.mpr (by simp only [hafter]; omega), hi⟩
    · rw [UInt64.le_iff_toNat_le] at hle
      simp only [List.reduceOption_cons_of_some, List.reduceOption_nil, List.length_singleton]
      omega

theorem Proceeds.of_stepsTo {m : Memory V} {found : Option (UInt64 × V)} {after : Cursor}
    (h : a.StepsTo m walk.cursor found after) :
    walk.Proceeds a [found] ⟨after, walk.answers ++ [found]⟩ := by
  refine .of_answer ?_
  rcases found with _ | ⟨i, v⟩
  · exact .inl ⟨rfl, h.1⟩
  · obtain ⟨hafter, hle, hvalue, -⟩ := h
    exact .inr ⟨i, v, rfl, hle, SlotArray.lt_of_value? hvalue, hafter⟩

/-- What a walk has yielded from its start on. -/
theorem Proceeds.of_start (h : LiveWalk.start.Proceeds a answers walk) :
    (walk.yielded.map Prod.fst).Pairwise (· < ·) ∧
      (∀ item ∈ walk.yielded, item.1 < walk.cursor.position ∧ item.1 < a.capacity) ∧
      walk.yielded.length ≤ a.capacity.toNat := by
  have hanswers : walk.answers = answers := h.answers_eq
  have hinside := UInt64.le_iff_toNat_le.mp (h.inside (UInt64.le_iff_toNat_le.mpr (Nat.zero_le _)))
  have hroom := h.room
  rw [yielded, hanswers]
  refine ⟨h.sorted, fun item hmem => ?_, by omega⟩
  obtain ⟨-, hlt, hcap⟩ := h.bounds item.1 item.2 (List.reduceOption_mem_iff.mp hmem)
  exact ⟨hlt, hcap⟩

end LiveWalk

namespace Scene

variable [Journal H] {a : SlotArray} {scene : Scene V H α} {w : ℕ} {walk : LiveWalk V}

/-- A step of a walk changes nothing but that walk. -/
theorem happen_next (h : a.capacity.toNat ≤ 2 ^ 64 - 32) (hw : scene.walks[w]? = some walk) :
    ∃ found after, scene.happen a (.next w) =
        ⟨scene.pool, scene.walks.set w ⟨after, walk.answers ++ [found]⟩⟩ ∧
      a.StepsTo scene.pool.session.memory walk.cursor found after := by
  obtain ⟨found, hrun, hsteps⟩ := SlotArray.run_next h walk.cursor scene.pool.session
  refine ⟨found, _, ?_, hsteps⟩
  simp only [happen, hw, hrun]

/-- A walk stays where it is except in its own steps. -/
theorem happen_walk (h : a.capacity.toNat ≤ 2 ^ 64 - 32) (hw : scene.walks[w]? = some walk)
    (x : Happening) : (x ≠ .next w ∧ (scene.happen a x).walks[w]? = some walk) ∨
      x = .next w ∧ ∃ found after,
        (scene.happen a x).walks[w]? = some ⟨after, walk.answers ++ [found]⟩ ∧
        a.StepsTo scene.pool.session.memory walk.cursor found after := by
  cases x with
  | turn k => exact .inl ⟨nofun, hw⟩
  | newWalk =>
    refine .inl ⟨nofun, ?_⟩
    change (scene.walks ++ [.start])[w]? = some walk
    rw [List.getElem?_append_left (List.getElem?_eq_some_iff.mp hw).1, hw]
  | next l =>
    by_cases hl : l = w
    · subst hl
      obtain ⟨found, after, hnext, hsteps⟩ := happen_next h hw
      refine .inr ⟨rfl, found, after, ?_, hsteps⟩
      rw [hnext]
      exact List.getElem?_set_self (List.getElem?_eq_some_iff.mp hw).1
    · refine .inl ⟨fun heq => hl (Happening.next.inj heq), ?_⟩
      cases hother : scene.walks[l]? with
      | none =>
        simp only [happen, hother]
        exact hw
      | some other =>
        obtain ⟨found, after, hnext, -⟩ := happen_next h hother
        rw [hnext]
        exact (List.getElem?_set_ne hl).trans hw

/-- What a walk does while things happen. It does not pass a slot that is occupied all the time:
until it has yielded that slot, each of its steps yields one in front of it. -/
theorem run_walk (h : a.capacity.toNat ≤ 2 ^ 64 - 32) (hw : scene.walks[w]? = some walk)
    (happenings : List Happening) : ∃ answers later,
      (scene.run a happenings).walks[w]? = some later ∧ walk.Proceeds a answers later ∧
      answers.length = happenings.count (.next w) ∧
      ∀ i, walk.cursor.position ≤ i →
        (∀ during rest, happenings = during ++ rest →
          a.value? (scene.run a during).pool.session.memory i ≠ none) →
        (∃ v, some (i, v) ∈ answers) ∨ none ∉ answers ∧
          answers.length + walk.cursor.position.toNat ≤ i.toNat := by
  induction happenings generalizing scene walk with
  | nil =>
    refine ⟨[], walk, hw, .refl walk, rfl, fun i hi _ => .inr ⟨by simp, ?_⟩⟩
    simpa using UInt64.le_iff_toNat_le.mp hi
  | cons x rest ih =>
    rcases happen_walk h hw x with ⟨hx, hw'⟩ | ⟨rfl, found, after, hw', hsteps⟩
    · obtain ⟨answers, later, hlater, hproceeds, hlength, hmeets⟩ := ih hw'
      refine ⟨answers, later, hlater, hproceeds, ?_, fun i hi hfull => ?_⟩
      · rw [hlength, List.count_cons_of_ne hx]
      · exact hmeets i hi fun during rest' heq =>
          hfull (x :: during) rest' (congrArg (x :: ·) heq)
    · obtain ⟨answers, later, hlater, hproceeds, hlength, hmeets⟩ := ih hw'
      refine ⟨found :: answers, later, hlater,
        (LiveWalk.Proceeds.of_stepsTo hsteps).trans hproceeds, ?_, fun i hi hfull => ?_⟩
      · rw [List.length_cons, hlength, List.count_cons_self]
      · have hnow := hfull [] _ rfl
        rcases found with _ | ⟨j, v⟩
        · exact absurd (hsteps.2 i hi) hnow
        · obtain ⟨hafter, hle, -, hmin⟩ := hsteps
          have hji : ¬ i < j := fun hlt => hnow (hmin i hi hlt)
          by_cases hij : i = j
          · exact .inl ⟨v, by simp [hij]⟩
          · have hlt : j < i := UInt64.lt_of_le_of_ne (UInt64.not_lt.mp hji) (Ne.symm hij)
            rw [UInt64.lt_iff_toNat_lt] at hlt
            rw [UInt64.le_iff_toNat_le] at hle
            rcases hmeets i (UInt64.le_iff_toNat_le.mpr (by simpa [hafter] using hlt))
                fun during rest' heq => hfull (_ :: during) rest' (congrArg _ heq) with
              ⟨u, hu⟩ | ⟨hnone, hroom⟩
            · exact .inl ⟨u, List.mem_cons_of_mem _ hu⟩
            · refine .inr ⟨by simpa using hnone, ?_⟩
              simp only [hafter] at hroom
              rw [List.length_cons]
              omega

/-- Where no walk was, there is one only if it has just begun. -/
theorem eq_start_of_happen (h : a.capacity.toNat ≤ 2 ^ 64 - 32) (hnone : scene.walks[w]? = none)
    {x : Happening} (hw : (scene.happen a x).walks[w]? = some walk) : walk = .start := by
  cases x with
  | turn k => cases hnone.symm.trans hw
  | newWalk =>
    change (scene.walks ++ [.start])[w]? = some walk at hw
    rw [List.getElem?_append_right (List.getElem?_eq_none_iff.mp hnone)] at hw
    exact List.mem_singleton.mp (List.mem_of_getElem? hw)
  | next l =>
    cases hl : scene.walks[l]? with
    | none =>
      simp only [happen, hl] at hw
      cases hnone.symm.trans hw
    | some other =>
      obtain ⟨found, after, hnext, -⟩ := happen_next h hl
      have hlength := List.getElem?_eq_none_iff.mp hnone
      rw [hnext, List.getElem?_eq_none (by simpa using hlength)] at hw
      cases hw

/-- All walks of a scene were begun in it. -/
theorem proceeds_of_start (h : a.capacity.toNat ≤ 2 ^ 64 - 32) (hnone : scene.walks = [])
    {happenings : List Happening} (hw : (scene.run a happenings).walks[w]? = some walk) :
    LiveWalk.start.Proceeds a walk.answers walk := by
  induction happenings using List.reverseRecOn generalizing walk with
  | nil =>
    rw [run_nil, hnone] at hw
    cases hw
  | append_singleton early x ih =>
    rw [run_append, run_cons, run_nil] at hw
    cases hold : (scene.run a early).walks[w]? with
    | none =>
      rw [eq_start_of_happen h hold hw]
      exact .refl _
    | some old =>
      rcases happen_walk h hold x with ⟨-, hsame⟩ | ⟨-, found, after, hnew, hsteps⟩
      · cases hw.symm.trans hsame
        exact ih hold
      · cases hw.symm.trans hnew
        exact (ih hold).trans (.of_stepsTo hsteps)

end Scene

namespace SlotArray

/-- Walks are live. A step yields the first occupied slot at or behind the position of the cursor,
as the array is at that moment, and moves the cursor past it; it yields nothing if and only if there
is no such slot, and then it leaves the cursor where it is. Whatever happens between the steps, a
walk yields each slot at most once, in the order of the indices, and never one in front of the
position that it had before. A slot at or behind the position that is occupied from one moment on
until a step yields nothing, or until as many steps have been made as there are slots up to it, is
yielded. An array with more than `2 ^ 64 - 32` slots, whose table would take a quarter of all
addresses of a 64-bit word, is left aside. Alone, a fresh walk yields all occupied slots. -/
theorem walks_are_live (a : SlotArray) (h : a.capacity.toNat ≤ 2 ^ 64 - 32) :
    (∀ {V H α : Type} [Journal H] (start : Scene V H α) (early : List Happening) (w : ℕ)
        (walk : LiveWalk V), start.walks = [] → (start.run a early).walks[w]? = some walk →
      let now := start.run a early
      let position := walk.cursor.position
      (∃ found after, now.happen a (.next w) =
          ⟨now.pool, now.walks.set w ⟨after, walk.answers ++ [found]⟩⟩ ∧
        (found = none ↔ ∀ i, position ≤ i → i < a.capacity →
          a.value? now.pool.session.memory i = none) ∧
        (found = none → after = walk.cursor) ∧
        ∀ i v, found = some (i, v) → position ≤ i ∧ i < a.capacity ∧
          a.value? now.pool.session.memory i = some v ∧
          (∀ k, position ≤ k → k < i → a.value? now.pool.session.memory k = none) ∧
          after.position.toNat = i.toNat + 1) ∧
      ((walk.yielded.map Prod.fst).Pairwise (· < ·) ∧
        (∀ item ∈ walk.yielded, item.1 < position ∧ item.1 < a.capacity) ∧
        walk.yielded.length ≤ a.capacity.toNat) ∧
      ∀ late, ∃ answers later, (now.run a late).walks[w]? = some later ∧
        later.answers = walk.answers ++ answers ∧ answers.length = late.count (.next w) ∧
        (∀ i v, some (i, v) ∈ answers → position ≤ i) ∧
        ∀ i, position ≤ i → (∀ during rest, late = during ++ rest →
            a.value? (now.run a during).pool.session.memory i ≠ none) →
          none ∈ answers ∨ i.toNat - position.toNat < late.count (.next w) →
          (∃ v, some (i, v) ∈ answers) ∧ (later.yielded.map Prod.fst).count i = 1) ∧
    (∀ {V H : Type} [Journal H] (s : Session V H),
      a.toList.run s = (.ok (a.itemsFrom s.memory 0), s)) ∧
    ∀ {V : Type} (filters : Filters V) (number : ℕ) (shape : Shape) (cursor : Cursor),
      (∀ k, shape ≠ .filtered k) → a.stepWalk filters number shape cursor = a.next cursor := by
  refine ⟨?_, ?_, ?_⟩
  · intro V H α _ start early w walk hstart hw now position
    have hproceeds := Scene.proceeds_of_start h hstart hw
    refine ⟨?_, hproceeds.of_start, fun late => ?_⟩
    · obtain ⟨found, after, hnext, hsteps⟩ := Scene.happen_next h hw
      refine ⟨found, after, hnext, ?_⟩
      rcases found with _ | ⟨i, v⟩
      · obtain ⟨hafter, hempty⟩ := hsteps
        exact ⟨iff_of_true rfl fun i hi _ => hempty i hi, fun _ => hafter, nofun⟩
      · obtain ⟨hafter, hle, hvalue, hmin⟩ := hsteps
        have hi := lt_of_value? hvalue
        refine ⟨iff_of_false nofun fun hempty => ?_, nofun, ?_⟩
        · rw [hempty i hle hi] at hvalue
          cases hvalue
        · rintro j u ⟨⟩
          exact ⟨hle, hi, hvalue, hmin, hafter⟩
    · obtain ⟨answers, later, hlater, hgoes, hlength, hmeets⟩ := Scene.run_walk h hw late
      refine ⟨answers, later, hlater, hgoes.answers_eq, hlength,
        fun i v hmem => (hgoes.bounds i v hmem).1, fun i hi hfull hturns => ?_⟩
      have hyields : ∃ v, some (i, v) ∈ answers := by
        refine (hmeets i hi hfull).resolve_right ?_
        rintro ⟨hnone, hroom⟩
        rcases hturns with hmem | hcount
        · exact hnone hmem
        · have hroom' : answers.length + position.toNat ≤ i.toNat := hroom
          omega
      refine ⟨hyields, ?_⟩
      obtain ⟨v, hv⟩ := hyields
      rw [← Scene.run_append] at hlater
      have hsorted := (Scene.proceeds_of_start h hstart hlater).of_start.1
      have hmem : (i, v) ∈ later.yielded := by
        rw [LiveWalk.yielded, List.reduceOption_mem_iff, hgoes.answers_eq]
        exact List.mem_append_right _ hv
      exact List.count_eq_one_of_mem (hsorted.imp UInt64.ne_of_lt) (List.mem_map_of_mem hmem)
  · exact fun s => run_toList h s
  · intro V filters number shape cursor hshape
    cases shape with
    | values | indexed => rfl
    | filtered k => exact absurd rfl (hshape k)

/-- Two slots are filled and a walk yields the first one. Then that is emptied, a slot behind it and
one behind the other slot are filled, and the walk meets them all the same. -/
theorem walks_are_live_of_refill :
    let a : SlotArray := ⟨40⟩
    let start : Scene ℤ Unit Bool := ⟨⟨⟨a.freshMemory, ()⟩,
      [.ofPrograms [a.insert 0 5, a.insert 35 6],
        .ofPrograms [a.erase 0, a.insert 1 7, a.insert 36 8]]⟩, []⟩
    let early := .newWalk :: List.replicate 14 (.turn 0)
    let late := .next 0 :: List.replicate 15 (.turn 1) ++ List.replicate 4 (.next 0)
    ∃ later, ((start.run a early).run a late).walks[0]? = some later ∧
      later.answers = [some (0, 5), some (1, 7), some (35, 6), some (36, 8), none] ∧
      (later.yielded.map Prod.fst).count 35 = 1 := by
  intro a start early late
  obtain ⟨hlive, -, -⟩ := walks_are_live a (by decide)
  have hw : (start.run a early).walks[0]? = some .start := by decide +kernel
  obtain ⟨-, -, hlate⟩ := hlive start early 0 .start rfl hw
  obtain ⟨answers, later, hlater, hanswers, -, -, hslot⟩ := hlate late
  have hfull : ∀ n ≤ late.length,
      a.value? ((start.run a early).run a (late.take n)).pool.session.memory 35 ≠ none := by
    decide +kernel
  have hend : ((start.run a early).run a late).walks[0]?.map LiveWalk.answers =
      some [some (0, 5), some (1, 7), some (35, 6), some (36, 8), none] := by decide +kernel
  rw [hlater] at hend
  have hall := Option.some.inj hend
  have hnone : none ∈ answers := by
    obtain rfl : later.answers = answers := hanswers
    rw [hall]
    decide
  refine ⟨later, hlater, hall, (hslot 35 (by decide) (fun during rest heq => ?_) (.inl hnone)).2⟩
  have htake := hfull during.length (by rw [heq, List.length_append]; omega)
  rwa [heq, List.take_left] at htake

end SlotArray

end AtomicSlots
