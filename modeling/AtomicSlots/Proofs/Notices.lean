import AtomicSlots.Proofs.Routines
import AtomicSlots.Proofs.Turns

/-!
# Answers on a board

Callers post what their fills, swaps and takes answer. Such an answer is decided by one action of the
operation: a load that finds a cell occupied, an exchange against an empty cell, or a swap. From then
on the operation carries the answer along until its caller posts it, and nothing else is decided in
the meantime. So a board says, thread by thread and in their order, what the deciding actions have
met, up to what operations under way have still to answer. What callers come to know about values and
slots is read off the board.
-/
namespace AtomicSlots

variable {V H α : Type}

/-- What an operation has answered: a fill, a swap for a value, or a take. -/
inductive Notice (V : Type) where
  | filled (i : UInt64) (answer : Filling V)
  | swapped (i : UInt64) (v : V) (answer : Option (Option V))
  | taken (i : UInt64) (answer : Option V)

namespace Notice

/-- The answer of a fill that has met a cell as it is. -/
def ofFill (i : UInt64) (v : V) : Option (Occupant V) → Notice V
  | none => filled i (.stored v)
  | some o => filled i (.refused (some o.value))

/-- The answer about what was swapped out of a cell. -/
def ofSwap (i : UInt64) (old : Option (Occupant V)) : Option V → Notice V
  | some v => swapped i v (some (old.map Occupant.value))
  | none => taken i (old.map Occupant.value)

/-- The operation has not come to a cell, and the answer says so. -/
def Missed (a : SlotArray) : Notice V → Prop
  | filled i answer => a.capacity ≤ i ∧ answer = .refused none
  | swapped i _ answer => a.capacity ≤ i ∧ answer = none
  | taken _ answer => answer = none

/-- The action decides what its operation answers. -/
inductive Decided (a : SlotArray) (m : Memory V) : Action V H → Notice V → Prop
  | load {i : UInt64} {cell : Cell} {o : Occupant V} (hc : a.cell? m i = some cell)
      (ho : m.content cell = some o) :
      Decided a m (.load cell) (.filled i (.refused (some o.value)))
  | exchangeIf {i : UInt64} {cell : Cell} (v : V) (hc : a.cell? m i = some cell) :
      Decided a m (.exchangeIf cell none (some v)) (ofFill i v (m.content cell))
  | swap {i : UInt64} {cell : Cell} (new : Option V) (hc : a.cell? m i = some cell) :
      Decided a m (.swap cell new) (ofSwap i (m.content cell) new)

end Notice

/-- The state of callers, with all answers that they have posted, the latest first, each with the
thread that got it. -/
structure NoticeBoard (V H : Type) where
  host : H
  notices : List (ℕ × Notice V)

namespace NoticeBoard

instance [Journal H] : Journal (NoticeBoard V H) :=
  ⟨fun event board => ⟨Journal.record event board.host, board.notices⟩⟩

def post (k : ℕ) (notice : Notice V) (board : NoticeBoard V H) : NoticeBoard V H :=
  ⟨board.host, (k, notice) :: board.notices⟩

end NoticeBoard

namespace Routine

/-- The routine in which a thread posts every answer of a fill, a swap or a take, however deep it is
nested. -/
def posting (k : ℕ) : {α : Type} → Routine V H α → Routine V (NoticeBoard V H) α
  | _, done x => .done x
  | _, panic reason => .panic reason
  | _, bind p f => .bind (p.posting k) fun x => (f x).posting k
  | _, caught p => .caught (p.posting k)
  | _, readHost => .bind .readHost fun board => .done board.host
  | _, changeHost change => .changeHost fun board => ⟨change board.host, board.notices⟩
  | _, size => .size
  | _, get i => .get i
  | _, first i => .first i
  | _, fill i make => .bind (.fill i (make.posting k)) fun answer =>
    .bind (.changeHost (.post k (.filled i answer))) fun _ => .done answer
  | _, swap i v => .bind (.swap i v) fun answer =>
    .bind (.changeHost (.post k (.swapped i v answer))) fun _ => .done answer
  | _, take i => .bind (.take i) fun answer =>
    .bind (.changeHost (.post k (.taken i answer))) fun _ => .done answer
  | _, eraseIf i accepts => .eraseIf i fun v => (accepts v).posting k
  | _, update i factory accepts =>
    .update i (fun v => (factory v).posting k) fun v => (accepts v).posting k

/-- The programs of threads that post what operations answer. -/
def postingPrograms (a : SlotArray) (routines : List (List (Routine V H α))) :
    List (List (Program V (NoticeBoard V H) α)) :=
  routines.mapIdx fun k list => list.map fun r => (r.posting k).program a

theorem exists_posting {a : SlotArray} {routines : List (List (Routine V H α))} {k : ℕ}
    {list : List (Program V (NoticeBoard V H) α)}
    (hlist : (postingPrograms a routines)[k]? = some list)
    {p : Program V (NoticeBoard V H) α} (hp : p ∈ list) :
    ∃ r : Routine V H α, (r.posting k).program a = p := by
  rw [postingPrograms, List.getElem?_mapIdx, Option.map_eq_some_iff] at hlist
  obtain ⟨rs, -, rfl⟩ := hlist
  obtain ⟨r, -, hr⟩ := List.mem_map.mp hp
  exact ⟨r, hr⟩

theorem clients_postingPrograms (a : SlotArray) (routines : List (List (Routine V H α))) :
    ∀ list ∈ postingPrograms a routines, ∀ p ∈ list, a.Client p := by
  intro list hlist p hp
  obtain ⟨k, hk⟩ := List.getElem?_of_mem hlist
  obtain ⟨r, rfl⟩ := exists_posting hk hp
  exact (r.posting k).client a

/-- Threads that post every answer, on a memory that they find. -/
def postingPool (a : SlotArray) (m : Memory V) (host : H)
    (routines : List (List (Routine V H α))) : Pool V (NoticeBoard V H) α :=
  ⟨⟨m, ⟨host, []⟩⟩, (postingPrograms a routines).map .ofPrograms⟩

end Routine

namespace Notice

/-- The notice that an operation under way has still to post. It is there from the action on that
decides what the operation answers. An exchange against an occupant decides none: its operation
answers no value. -/
def protocol (a : SlotArray) (k : ℕ) : Protocol V (NoticeBoard V H) (Option (Notice V)) :=
  fun late act m _ next => match act with
    | .load _ => next = late ∨ late = none ∧ ∃ notice, next = some notice ∧ Decided a m act notice
    | .exchangeIf _ none _ | .swap .. =>
      late = none ∧ ∃ notice, next = some notice ∧ Decided a m act notice
    | .changeHost change =>
      (next = late ∧ ∀ board, (change board).notices = board.notices) ∨
      next = none ∧ ∃ notice, (late = some notice ∨ late = none ∧ notice.Missed a) ∧
        ∀ board, (change board).notices = (k, notice) :: board.notices
    | _ => next = late

theorem idle (a : SlotArray) (k : ℕ) (late : Option (Notice V)) :
    (protocol a k : Protocol V (NoticeBoard V H) _).Idle a late :=
  ⟨fun _ _ => rfl, fun _ _ _ => rfl, fun _ _ => rfl⟩

theorem revises (a : SlotArray) (k : ℕ) (late : Option (Notice V)) :
    (protocol a k : Protocol V (NoticeBoard V H) _).Revises late :=
  ⟨⟨fun _ _ => rfl, fun _ _ => .inl rfl, fun _ => rfl⟩, fun _ _ _ _ _ => rfl, fun _ _ => rfl,
    fun _ _ => rfl⟩

end Notice

section Follows

variable [Journal H] {a : SlotArray} {k : ℕ} {i : UInt64}

open Program SlotArray

/-- Programs of a thread that have posted all their notices when they end. -/
abbrev Program.Posts (a : SlotArray) (k : ℕ) (p : Program V (NoticeBoard V H) α) : Prop :=
  p.ComesToRest a (Notice.protocol a k) none

namespace Program.Posts

/-- Changes of the host state of the caller post nothing. -/
theorem changeHost {change : NoticeBoard V H → NoticeBoard V H}
    (h : ∀ board, (change board).notices = board.notices) :
    (Program.changeHost change : Program V (NoticeBoard V H) Unit).Posts a k :=
  .perform fun _ => ⟨trivial, .inl ⟨rfl, h⟩⟩

/-- What has just been answered is posted. -/
theorem of_answer {p : Program V (NoticeBoard V H) α} (notice : α → Notice V)
    (h : ∀ m, p.Follows a (Notice.protocol a k)
      (fun answer late _ => match answer with
        | .ok x => late = some (notice x) ∨ late = none ∧ (notice x).Missed a
        | .error _ => late = none) none m) :
    (p >>= fun x => (Program.changeHost (.post k (notice x)) : Program V (NoticeBoard V H) _) >>=
      fun _ => .done x).Posts a k := by
  intro m
  refine follows_bind.mpr ((h m).mono ?_)
  rintro (reason | x) late n _ hlate
  · exact hlate
  · intro s _ _
    exact ⟨trivial, none, .inr ⟨rfl, notice x, hlate, fun _ => rfl⟩, rfl⟩

theorem fill {make : Program V (NoticeBoard V H) V} (h : make.Posts a k) :
    (a.fill i make >>= fun answer =>
      (Program.changeHost (.post k (.filled i answer)) : Program V (NoticeBoard V H) _) >>=
        fun _ => .done answer).Posts a k := by
  refine of_answer (Notice.filled i) fun m => ?_
  rw [SlotArray.fill, follows_bind]
  refine follows_access_fill (Notice.idle a k _) (fun hi => .inr ⟨rfl, hi, rfl⟩) ?_
  intro n cell _ _ hc
  refine Cell.follows_fill ⟨i, hc⟩ ?_ ?_
  · intro n₁ o hl _ ho
    exact ⟨_, .inr ⟨rfl, _, rfl, .load (cell?_later hl hc) ho⟩, .inl rfl⟩
  · intro n₁ hl _ _
    refine ⟨none, .inl rfl, (h n₁).mono ?_⟩
    rintro (reason | v) late n₂ hl₂ rfl
    · rfl
    intro l hll _
    -- whatever the callback has done to the cell, the exchange decides by what it finds there now
    have hdecided : Notice.Decided (H := NoticeBoard V H) a l (.exchangeIf cell none (some v))
        (.ofFill i v (l.content cell)) := .exchangeIf v (cell?_later ((hl.trans hl₂).trans hll) hc)
    refine ⟨fun hnone => ⟨_, ⟨rfl, _, rfl, hdecided⟩, ?_⟩,
      fun o ho => ⟨_, ⟨rfl, _, rfl, hdecided⟩, ?_⟩⟩
    · rw [hnone]
      intro s _ _
      exact ⟨trivial, _, rfl, .inl rfl⟩
    · rw [ho]
      exact .inl rfl

theorem swap (i : UInt64) (v : V) : ((a.swap i v : Program V (NoticeBoard V H) _) >>= fun answer =>
    (Program.changeHost (.post k (.swapped i v answer)) : Program V (NoticeBoard V H) _) >>=
      fun _ => .done answer).Posts a k := by
  refine of_answer (Notice.swapped i v) fun m => ?_
  rw [SlotArray.swap, follows_bind]
  refine follows_access_fill (Notice.idle a k _) (fun hi => .inr ⟨rfl, hi, rfl⟩) ?_
  intro n cell _ _ hc
  refine Cell.follows_replace ⟨i, hc⟩ fun n₁ hl _ =>
    ⟨_, ⟨rfl, _, rfl, .swap (some v) (cell?_later hl hc)⟩, fun hnone => ?_, fun o ho l _ _ => ?_⟩
  · rw [hnone]
    intro s _ _
    exact ⟨trivial, _, rfl, .inl rfl⟩
  · rw [ho]
    exact ⟨_, rfl, .inl rfl⟩

theorem take (i : UInt64) : ((a.take i : Program V (NoticeBoard V H) _) >>= fun answer =>
    (Program.changeHost (.post k (.taken i answer)) : Program V (NoticeBoard V H) _) >>=
      fun _ => .done answer).Posts a k := by
  refine of_answer (Notice.taken i) fun m => ?_
  rw [SlotArray.take, follows_bind]
  refine follows_access (by decide) (fun _ _ => rfl) (fun _ => .inr ⟨rfl, rfl⟩)
    (fun _ _ _ _ _ => ⟨_, rfl, .inr ⟨rfl, rfl⟩⟩) ?_
  intro n cell _ _ hc
  refine Cell.follows_replace ⟨i, hc⟩ fun n₁ hl _ =>
    ⟨_, ⟨rfl, _, rfl, .swap none (cell?_later hl hc)⟩, fun hnone => ?_, fun o ho l _ _ => ?_⟩
  · rw [hnone]
    exact .inl rfl
  · rw [ho]
    refine ⟨_, rfl, ?_⟩
    intro s _ _
    exact ⟨trivial, _, rfl, .inl rfl⟩

end Program.Posts

theorem Routine.posts_posting (r : Routine V H α) : ((r.posting k).program a).Posts a k := by
  induction r with
  | done x => exact .done x
  | panic reason => exact .panic reason
  | bind p f hp hf => exact .bind hp hf
  | caught p hp => exact .caught hp
  | readHost => exact .bind (.perform fun _ => ⟨trivial, rfl⟩) fun _ => .done _
  | changeHost change => exact Program.Posts.changeHost fun _ => rfl
  | size => exact .size (Notice.revises a k _).toReads
  | get i => exact .get? (Notice.revises a k _).toReads i
  | first i => exact .map (.firstFrom (Notice.revises a k _).toReads i) _
  | fill i make hmake => exact Program.Posts.fill hmake
  | swap i v => exact Program.Posts.swap i v
  | take i => exact Program.Posts.take i
  | eraseIf i accepts ha => exact .eraseIf (Notice.revises a k _) ha
  | update i factory accepts hf ha => exact .update (Notice.revises a k _) hf ha

/-- Threads that have not begun have nothing to post. -/
theorem Routine.follows_postingPool {m : Memory V} (hm : a.Sound m) (host : H)
    (routines : List (List (Routine V H α))) :
    (postingPool a m host routines).Follows a (Notice.protocol a) none fun _ => none :=
  .of_comesToRest hm fun k list hlist p hp => by
    obtain ⟨r, rfl⟩ := exists_posting hlist hp
    exact r.posts_posting

end Follows

end AtomicSlots
