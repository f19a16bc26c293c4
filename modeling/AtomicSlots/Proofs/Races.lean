import AtomicSlots.Proofs.Counting
import AtomicSlots.Proofs.Progress
import AtomicSlots.Proofs.Turns
import AtomicSlots.Threads.Contest

/-!
# Races for one slot

Every thread makes the same move on one slot, once. A slot is open as long as it holds what the move
is after: nothing, an occupant, or the prize. The thread whose move happens first in an open slot
closes it and wins, and no move opens a slot again, so the winners and the open slot together are
always as many as at the start. A move that does not win has seen a closed slot: if it was lost, the
occupant that it was after was replaced, which closed the slot. So how a race ends does not depend
on how the threads interleave.
-/
namespace AtomicSlots

open Program SlotArray Progress

namespace Move

/-- The operation that a move is. -/
def operation (i : UInt64) (thread : ℕ) : Move → SlotOperation ℤ Unit
  | insert => .insert i thread
  | tryInsert => .tryInsert i thread
  | set => .set i thread
  | exchange => .exchange i thread
  | getOrFill => .getOrFill i (.done thread)
  | erase => .erase i
  | take => .take i
  | eraseIf => .eraseIf i fun v => .done (v == prize)
  | update => .update i (fun _ => .done thread) fun v => .done (v == prize)

/-- Whether a reply tells a thread that it has won. -/
def isWin (thread : ℕ) : Move → Reply ℤ → Bool
  | insert, .flag yes | set, .flag yes | erase, .flag yes | eraseIf, .flag yes => yes
  | tryInsert, .filling filling => filling.isStored
  | exchange, .exchanged (.ok none) => true
  | getOrFill, .content content => content == some (thread : ℤ)
  | take, .content content => content.isSome
  | update, .outcome outcome => outcome.isUpdated
  | _, _ => false

/-- The contents that a move is after. -/
def isAfter : Move → Option ℤ → Bool
  | insert | tryInsert | set | exchange | getOrFill => Option.isNone
  | erase | take => Option.isSome
  | eraseIf | update => (· == some prize)

/-- The contents that can come up in a race, as far as the move has a say in it. -/
def Fits (filled : Bool) : Move → Option ℤ → Prop
  | insert | tryInsert | set | exchange | getOrFill | erase | take => fun _ => True
  | eraseIf => fun content => content = none ∨ content = some prize
  | update => fun content => content.isSome = filled

/-- Whether a move fills an empty slot. -/
def fills : Move → Bool
  | insert | tryInsert | set | exchange | getOrFill => true
  | erase | take | eraseIf | update => false

/-- Whether the slot is occupied after a race in which somebody moved. -/
def leavesOccupied (filled : Bool) : Move → Bool
  | insert | tryInsert | set | exchange | getOrFill => true
  | erase | take | eraseIf => false
  | update => filled

variable {move : Move} {i : UInt64} {k : ℕ}

theorem program_eq (a : SlotArray) (i : UInt64) (k : ℕ) (move : Move) :
    move.program a i k = move.isWin k <$> (move.operation i k).program a := by
  cases move with
  | exchange =>
    rw [operation, SlotOperation.program, ← comp_map, map_eq_bind_pure_comp]
    change (a.exchange i (k : ℤ) >>= _) = (a.exchange i (k : ℤ) >>= _)
    refine congrArg _ (funext fun old => ?_)
    rcases old with _ | (_ | _) <;> rfl
  | update =>
    rw [operation, SlotOperation.program, ← comp_map]
    refine congrArg (· <$> _) (funext fun attempt => ?_)
    exact (UpdateOutcome.isUpdated_ofAttempt attempt).symm
  | insert | set | erase =>
    rw [operation, SlotOperation.program, ← comp_map]
    exact (id_map _).symm
  | tryInsert | getOrFill | take | eraseIf =>
    rw [operation, SlotOperation.program, ← comp_map]
    rfl

theorem handsOff_operation (i : UInt64) (k : ℕ) (move : Move) :
    (move.operation i k).HandsOff := by
  cases move <;> simp [operation, SlotOperation.HandsOff, Program.HandsOff]

@[simp] theorem index_operation (i : UInt64) (k : ℕ) (move : Move) :
    (move.operation i k).index = i := by cases move <;> rfl

theorem not_isWin_outside (i : UInt64) (k : ℕ) (move : Move) :
    move.isWin k (move.operation i k).outside = false := by cases move <;> rfl

theorem not_isWin_declined (i : UInt64) (k : ℕ) (move : Move) :
    move.isWin k (move.operation i k).declined = false := by cases move <;> rfl

theorem not_mayEnd_error {content : Option ℤ} {reason : Panic} :
    ¬ ((move.operation i k).onContent content).MayEnd (.error reason) := by
  cases move with
  | eraseIf | update =>
    cases content with
    | none => simp [operation, SlotOperation.onContent]
    | some v =>
      simp only [operation, SlotOperation.onContent, done_bind]
      split <;> simp
  | _ => cases content <;> simp [operation, SlotOperation.onContent]

/-- A move wins if and only if it finds a content that it is after, and it leaves one that it is not
after: nothing, what it found, or the value of its thread. -/
theorem onContent_wins (hk : (k : ℤ) ≠ prize) {content new : Option ℤ}
    (hown : content ≠ some (k : ℤ)) {reply : Reply ℤ}
    (h : ((move.operation i k).onContent content).MayEnd (.ok (reply, new))) :
    move.isWin k reply = move.isAfter content ∧ move.isAfter new = false ∧
      (new = none ∨ new = content ∨ new = some (k : ℤ)) ∧
      ∀ filled, move.Fits filled content → move.Fits filled new := by
  cases move with
  | eraseIf | update =>
    cases content with
    | none =>
      cases h
      simp [isWin, isAfter, UpdateOutcome.isUpdated]
    | some v =>
      simp only [operation, SlotOperation.onContent, done_bind] at h
      by_cases hv : v = prize
      · rw [if_pos (by simpa using hv)] at h
        cases h
        simp [hv, isWin, isAfter, Fits, UpdateOutcome.isUpdated, hk]
      · rw [if_neg (by simpa using hv)] at h
        cases h
        simp [hv, isWin, isAfter, Fits, UpdateOutcome.isUpdated]
  | _ =>
    cases content with
    | none =>
      cases h
      simp [isWin, isAfter, Fits, Filling.isStored]
    | some v =>
      have hne : v ≠ k := by simpa using hown
      cases h
      simp [isWin, isAfter, Fits, Filling.isStored, hne]

end Move

namespace Race

/-- The array that the slot belongs to. -/
abbrev array (race : Race) : SlotArray := ⟨race.capacity⟩

/-- The operation of a thread. -/
abbrev operation (race : Race) (k : ℕ) : SlotOperation ℤ Unit := race.move.operation race.slot k

/-- Whether the slot holds what the move is after. -/
def isOpen (race : Race) (slots : List (Option ℤ)) : Bool :=
  slots[race.slot.toNat]?.any race.move.isAfter

/-- The contents that can come up: nothing outside the contested slot, and in it what fits. -/
def Possible (race : Race) (slots : List (Option ℤ)) : Prop :=
  ∃ content, slots = (List.replicate race.capacity.toNat none).set race.slot.toNat content ∧
    race.move.Fits race.filled content

/-- Whether a thread that has come so far has won. -/
def hasWon (race : Race) (k : ℕ) : Progress ℤ → Bool
  | .finished (.ok reply) => race.move.isWin k reply
  | .waiting | .looked _ | .finished (.error _) => false

variable {race : Race} {k : ℕ}

/-- A move that happens wins if and only if the slot is open, and leaves a closed slot. -/
theorem onSlots_wins (hk : (k : ℤ) ≠ Move.prize) {slots new : List (Option ℤ)} {reply : Reply ℤ}
    (hown : slots[race.slot.toNat]? ≠ some (some (k : ℤ)))
    (h : ((race.operation k).onSlots slots).MayEnd (.ok (reply, new))) :
    race.move.isWin k reply = race.isOpen slots ∧ race.isOpen new = false ∧
      (race.Possible slots → race.Possible new) ∧
      ∀ v, new[race.slot.toNat]? = some (some v) →
        slots[race.slot.toNat]? = some (some v) ∨ v = k := by
  rw [SlotOperation.onSlots, Move.index_operation] at h
  cases hc : slots[race.slot.toNat]? with
  | none =>
    rw [hc] at h
    cases h
    simp [isOpen, hc, Move.not_isWin_outside]
  | some content =>
    rw [hc] at h
    rcases mayEnd_bind_iff.mp h with ⟨⟨reply', new'⟩, hcontent, hset⟩ | ⟨reason, hreason, -⟩
    · cases hset
      have hlt := (List.getElem?_eq_some_iff.mp hc).1
      have hcontent' : content ≠ some (k : ℤ) := by simpa [hc] using hown
      obtain ⟨hwin, hclosed, hnew, hfits⟩ := Move.onContent_wins hk hcontent' hcontent
      refine ⟨by simpa [isOpen, hc] using hwin, by simpa [isOpen, hlt] using hclosed, ?_, ?_⟩
      · rintro ⟨old, rfl, hold⟩
        refine ⟨new', by rw [List.set_set], hfits _ ?_⟩
        rw [List.getElem?_set_self (by simpa using hlt)] at hc
        cases hc
        exact hold
      · intro v hv
        rw [List.getElem?_set_self hlt] at hv
        cases hv
        rcases hnew with hnew | hnew | hnew
        · cases hnew
        · exact .inl (by rw [hnew])
        · exact .inr (by simpa using hnew)
    · cases hreason

theorem onSlots_not_mayEnd_error {slots : List (Option ℤ)} {reason : Panic} :
    ¬ ((race.operation k).onSlots slots).MayEnd (.error reason) := by
  intro h
  rw [SlotOperation.onSlots] at h
  split at h
  · cases h
  · rcases mayEnd_bind_iff.mp h with ⟨_, -, hset⟩ | ⟨_, -, hcontent⟩
    · cases hset
    · exact Move.not_mayEnd_error hcontent

/-- What a thread that has come so far knows of the slot. While the slot is open, it is as everybody
has seen it, and whoever is done with the move leaves or has found a closed slot. -/
def Knows (race : Race) (m : Memory ℤ) (k : ℕ) : Progress ℤ → Prop
  | .waiting => True
  | .looked n => (race.array.slots n)[race.slot.toNat]? ≠ some (some (k : ℤ)) ∧
      (race.isOpen (race.array.slots m) = true →
        race.array.occupant? n race.slot = race.array.occupant? m race.slot)
  | .finished answer =>
      race.isOpen (race.array.slots m) = false ∧ ∃ reply, answer = .ok reply

/-- What can be told of a race whose threads have come so far. -/
structure Contested (race : Race) (m : Memory ℤ) (progress : ℕ → Progress ℤ) : Prop where
  possible : race.Possible (race.array.slots m)
  /-- A value in the slot is the prize or comes from a thread that is done with its move. -/
  owned : ∀ v, (race.array.slots m)[race.slot.toNat]? = some (some v) →
    v = Move.prize ∨ ∃ l < race.threads, v = l ∧ ∃ answer, progress l = finished answer
  knows : ∀ k, race.Knows m k (progress k)
  winners : (List.range race.threads).countP (fun k => race.hasWon k (progress k)) +
    (race.isOpen (race.array.slots m)).toNat =
      (race.isOpen (race.array.slots race.start.memory)).toNat

theorem countP_range_update {f : ℕ → Progress ℤ} {k n : ℕ} (hk : k < n) {next : Progress ℤ}
    (h : race.hasWon k (f k) = false) :
    (List.range n).countP (fun l => race.hasWon l (Function.update f k next l)) =
      (List.range n).countP (fun l => race.hasWon l (f l)) + (race.hasWon k next).toNat := by
  have hnot : ∀ l ∈ (List.range n).erase k, l ≠ k := fun l hl =>
    (List.nodup_range.mem_erase_iff.mp hl).1
  have hperm := List.perm_cons_erase (List.mem_range.mpr hk)
  rw [hperm.countP_eq, hperm.countP_eq, List.countP_cons, List.countP_cons,
    Function.update_self, h]
  have hrest : ((List.range n).erase k).countP
      (fun l => race.hasWon l (Function.update f k next l)) =
      ((List.range n).erase k).countP (fun l => race.hasWon l (f l)) :=
    List.countP_congr fun l hl => by rw [Function.update_of_ne (hnot l hl)]
  rw [hrest]
  cases race.hasWon k next <;> rfl

theorem getElem?_slots_congr {a : SlotArray} {m n : Memory ℤ} {i : UInt64}
    (h : a.occupant? n i = a.occupant? m i) : (a.slots n)[i.toNat]? = (a.slots m)[i.toNat]? := by
  rw [getElem?_slots, getElem?_slots, value?, value?, h]

namespace Contested

variable {m n : Memory ℤ} {progress : ℕ → Progress ℤ}

theorem idles (h : race.Contested m progress)
    (hsame : ∀ i, race.array.occupant? n i = race.array.occupant? m i) :
    race.Contested n progress := by
  have hslots : race.array.slots n = race.array.slots m := slots_congr_occupant hsame
  obtain ⟨hpossible, howned, hknows, hwinners⟩ := h
  refine ⟨by rwa [hslots], by rwa [hslots], fun k => ?_, by rwa [hslots]⟩
  have hk := hknows k
  cases hnow : progress k with
  | waiting => trivial
  | looked seen =>
    rw [hnow] at hk
    rwa [Knows, hslots, hsame]
  | finished answer =>
    rw [hnow] at hk
    rwa [Knows, hslots]

/-- Nobody finds a value of its own in the slot. -/
theorem ne_own (h : race.Contested m progress) (hk : (k : ℤ) ≠ Move.prize)
    (hbefore : ∀ earlier, progress k ≠ finished earlier) :
    (race.array.slots m)[race.slot.toNat]? ≠ some (some (k : ℤ)) := by
  intro hown
  rcases h.owned _ hown with hprize | ⟨l, -, hl, answer, hanswer⟩
  · exact hk hprize
  · obtain rfl : k = l := by exact_mod_cast hl
    exact hbefore answer hanswer

/-- Whoever is done with the move stays in the list when another thread moves on. -/
theorem owned_update (h : race.Contested m progress)
    (hbefore : ∀ earlier, progress k ≠ finished earlier) (next : Progress ℤ) {v : ℤ}
    (hv : (race.array.slots m)[race.slot.toNat]? = some (some v)) :
    v = Move.prize ∨ ∃ l < race.threads, v = l ∧
      ∃ answer, Function.update progress k next l = finished answer := by
  rcases h.owned v hv with hprize | ⟨l, hln, hl, answer, hanswer⟩
  · exact .inl hprize
  · have hlk : l ≠ k := by
      rintro rfl
      exact hbefore answer hanswer
    exact .inr ⟨l, hln, hl, answer, by rwa [Function.update_of_ne hlk]⟩

theorem looks (h : race.Contested m progress) (hk : (k : ℤ) ≠ Move.prize)
    (hkn : k < race.threads) (hwaiting : progress k = waiting) :
    race.Contested m (Function.update progress k (looked m)) := by
  have hbefore : ∀ earlier, progress k ≠ finished earlier := fun earlier => by simp [hwaiting]
  refine ⟨h.possible, fun v hv => h.owned_update hbefore _ hv, ?_, ?_⟩
  · rw [Function.forall_update_iff progress (race.Knows m)]
    exact ⟨⟨h.ne_own hk hbefore, fun _ => rfl⟩, fun l _ => h.knows l⟩
  · rw [countP_range_update hkn (by rw [hwaiting]; rfl)]
    exact h.winners

/-- A thread gets done with its move, and leaves a closed slot. It wins if the slot was open. -/
theorem finishes (h : race.Contested m progress) (hkn : k < race.threads)
    (hbefore : ∀ earlier, progress k ≠ finished earlier) {reply : Reply ℤ}
    (hwin : race.move.isWin k reply = race.isOpen (race.array.slots m))
    (hclosed : race.isOpen (race.array.slots n) = false)
    (hpossible : race.Possible (race.array.slots n))
    (howned : ∀ v, (race.array.slots n)[race.slot.toNat]? = some (some v) →
      (race.array.slots m)[race.slot.toNat]? = some (some v) ∨ v = k) :
    race.Contested n (Function.update progress k (finished (.ok reply))) := by
  refine ⟨hpossible, fun v hv => ?_, ?_, ?_⟩
  · rcases howned v hv with hv | hv
    · exact h.owned_update hbefore _ hv
    · exact .inr ⟨k, hkn, hv, _, Function.update_self ..⟩
  · rw [Function.forall_update_iff progress (race.Knows n)]
    refine ⟨⟨hclosed, reply, rfl⟩, fun l _ => ?_⟩
    have hl := h.knows l
    cases hnow : progress l with
    | waiting => trivial
    | looked seen =>
      rw [hnow] at hl
      exact ⟨hl.1, fun hopen => by simp [hclosed] at hopen⟩
    | finished answer =>
      rw [hnow] at hl
      exact ⟨hclosed, hl.2⟩
  · have hlost : race.hasWon k (progress k) = false := by
      cases hnow : progress k with
      | finished answer => exact absurd hnow (hbefore answer)
      | waiting | looked => rfl
    have hwinners := h.winners
    rw [countP_range_update hkn hlost, hasWon, hwin, hclosed]
    simpa using hwinners

/-- A thread gets done without a change after it has seen a closed slot. -/
theorem loses (h : race.Contested m progress) (hkn : k < race.threads)
    (hbefore : ∀ earlier, progress k ≠ finished earlier) {reply : Reply ℤ}
    (hlost : race.move.isWin k reply = false)
    (hclosed : race.isOpen (race.array.slots m) = false) :
    race.Contested m (Function.update progress k (finished (.ok reply))) :=
  h.finishes hkn hbefore (by rw [hlost, hclosed]) hclosed h.possible fun _ hv => .inl hv

/-- Every action of every thread keeps what can be told. -/
theorem advances (h : race.Contested m progress) (hk : (k : ℤ) ≠ Move.prize)
    (hkn : k < race.threads) {act : Action ℤ Unit} {next : Progress ℤ}
    (hact : Advances race.array (race.operation k) (progress k) act m n next) :
    race.Contested n (Function.update progress k next) := by
  generalize hnow : progress k = now at hact
  cases hact with
  | idles hsame =>
    rw [← hnow, Function.update_eq_self]
    exact h.idles hsame
  | looks => exact h.looks hk hkn hnow
  | happens hbefore hmay =>
    rw [← hnow] at hbefore
    obtain ⟨hwin, hclosed, hpossible, howned⟩ := onSlots_wins hk (h.ne_own hk hbefore) hmay
    exact h.finishes hkn hbefore hwin hclosed (hpossible h.possible) howned
  | declines hseen haccepts hfound hne =>
    rename_i seen o p
    have hbefore : ∀ earlier, progress k ≠ finished earlier := fun earlier => by simp [hnow]
    rw [Move.index_operation] at hseen hfound
    refine h.loses hkn hbefore (Move.not_isWin_declined ..) ?_
    -- in an open slot the occupant would be the one that was accepted
    by_contra hopen
    have hknows := h.knows k
    rw [hnow] at hknows
    have hsame := hknows.2 (by simpa using hopen)
    rw [hseen, hfound] at hsame
    cases hsame
    exact hne rfl

/-- An operation that ends without a change has not won, and has seen a closed slot. -/
theorem ends (h : race.Contested m progress) (hk : (k : ℤ) ≠ Move.prize) (hkn : k < race.threads)
    {answer : Except Panic (Reply ℤ)}
    (hend : Ends race.array (race.operation k) answer (progress k)) :
    ∃ reply, answer = .ok reply ∧
      race.Contested m (Function.update progress k (finished (.ok reply))) := by
  -- the slots as they were seen
  have hkeep : ∀ seen : Memory ℤ, (∀ earlier, progress k ≠ finished earlier) →
      (race.array.slots seen)[race.slot.toNat]? ≠ some (some (k : ℤ)) →
      (race.isOpen (race.array.slots m) = true →
        race.array.occupant? seen race.slot = race.array.occupant? m race.slot) →
      (race.operation k).Moves false (race.array.slots seen) answer (race.array.slots seen) →
      ∃ reply, answer = .ok reply ∧
        race.Contested m (Function.update progress k (finished (.ok reply))) := by
    intro seen hbefore hown hunchanged hmoves
    cases hmoves with
    | answers hmay =>
      obtain ⟨hwin, hclosed, -⟩ := onSlots_wins hk hown hmay
      refine ⟨_, rfl, h.loses hkn hbefore (hwin.trans hclosed) ?_⟩
      by_contra hopen
      have hsame := getElem?_slots_congr (hunchanged (by simpa using hopen))
      rw [isOpen, hsame] at hclosed
      exact hopen hclosed
    | panics hmay => exact absurd hmay onSlots_not_mayEnd_error
  have hknows := h.knows k
  cases hnow : progress k with
  | waiting =>
    rw [hnow] at hend
    have hbefore : ∀ earlier, progress k ≠ finished earlier := fun earlier => by simp [hnow]
    exact hkeep m hbefore (h.ne_own hk hbefore) (fun _ => rfl) (hend m)
  | looked seen =>
    rw [hnow] at hend hknows
    exact hkeep seen (fun earlier => by simp [hnow]) hknows.1 hknows.2 hend
  | finished earlier =>
    rw [hnow] at hend hknows
    obtain ⟨-, reply, rfl⟩ := hknows
    refine ⟨reply, hend, ?_⟩
    rwa [← hnow, Function.update_eq_self]

end Contested

/-- How a thread of a race stands: it is at its only operation, or that has returned. -/
inductive Runs (race : Race) (k : ℕ) (m : Memory ℤ) : Progress ℤ → Thread ℤ Unit Bool → Prop
  | running {progress : Progress ℤ} {p : QuietProgram Bool}
      (h : p.Follows race.array (Advances race.array (race.operation k))
        (fun answer progress _ => ∃ reply, answer = race.move.isWin k <$> reply ∧
          Ends race.array (race.operation k) reply progress) progress m) :
      Runs race k m progress ⟨[p], []⟩
  | returned (reply : Reply ℤ) :
      Runs race k m (finished (.ok reply)) ⟨[], [.ok (race.move.isWin k reply)]⟩

theorem Runs.later {m n : Memory ℤ} {progress : Progress ℤ} {thread : Thread ℤ Unit Bool}
    (h : race.Runs k m progress thread) (hl : m.Later n) : race.Runs k n progress thread := by
  cases h with
  | running h => exact .running (h.later hl)
  | returned reply => exact .returned reply

/-- The invariant of a race. -/
structure Proceeds (race : Race) (pool : Pool ℤ Unit Bool) (progress : ℕ → Progress ℤ) :
    Prop where
  sound : race.array.Sound pool.session.memory
  length_eq : pool.threads.length = race.threads
  runs : ∀ k thread, pool.threads[k]? = some thread →
    race.Runs k pool.session.memory (progress k) thread
  contested : race.Contested pool.session.memory progress

namespace Proceeds

variable {pool : Pool ℤ Unit Bool} {progress : ℕ → Progress ℤ}

theorem lt_threads (h : race.Proceeds pool progress) {thread : Thread ℤ Unit Bool}
    (hk : pool.threads[k]? = some thread) : k < race.threads := by
  rw [← h.length_eq]
  exact (List.getElem?_eq_some_iff.mp hk).1

/-- The threads after one of them has moved on, and with it the memory. -/
theorem runs_set (h : race.Proceeds pool progress) {m : Memory ℤ} {thread : Thread ℤ Unit Bool}
    {next : Progress ℤ} (hl : pool.session.memory.Later m)
    (hthread : race.Runs k m next thread) (l : ℕ) (other : Thread ℤ Unit Bool)
    (hother : (pool.threads.set k thread)[l]? = some other) :
    race.Runs l m (Function.update progress k next l) other := by
  by_cases hlk : l = k
  · subst hlk
    rw [List.getElem?_set_self'] at hother
    obtain ⟨-, -, rfl⟩ := Option.map_eq_some_iff.mp hother
    rwa [Function.update_self]
  · rw [List.getElem?_set_ne (Ne.symm hlk)] at hother
    rw [Function.update_of_ne hlk]
    exact (h.runs l other hother).later hl

theorem step (hthreads : race.threads ≤ 1000) (h : race.Proceeds pool progress) (k : ℕ) :
    ∃ progress, race.Proceeds (pool.step k) progress := by
  have hprize : ∀ {l}, l < race.threads → (l : ℤ) ≠ Move.prize := by
    intro l hl
    rw [Move.prize]
    omega
  generalize hstep : pool.step k = stepped
  cases hstep ▸ pool.turn k with
  | rests => exact ⟨progress, h⟩
  | returns answer hk =>
    have hkn := h.lt_threads hk
    have hruns := h.runs k _ hk
    generalize hnow : progress k = now at hruns
    cases hruns with
    | running hp =>
      rw [follows_ofEnd, ← hnow] at hp
      obtain ⟨reply, rfl, hend⟩ := hp
      obtain ⟨reply, rfl, hcontested⟩ := h.contested.ends (hprize hkn) hkn hend
      refine ⟨_, h.sound, by simpa using h.length_eq, ?_, hcontested⟩
      exact h.runs_set (.refl _) (.returned reply)
  | acts hk =>
    have hkn := h.lt_threads hk
    have hruns := h.runs k _ hk
    generalize hnow : progress k = now at hruns
    cases hruns with
    | running hp =>
      obtain ⟨hadmits, next, hadvances, hnext⟩ := hp pool.session (.refl _) h.sound
      obtain ⟨hs, hl⟩ := h.sound.perform hadmits
      rw [← hnow] at hadvances
      refine ⟨_, hs, by simpa using h.length_eq, ?_,
        h.contested.advances (hprize hkn) hkn hadvances⟩
      exact h.runs_set hl (.running hnext)

end Proceeds

end Race

theorem Move.client (a : SlotArray) (i : UInt64) (k : ℕ) (move : Move) :
    a.Client (move.program a i k) := by
  cases move with
  | insert => exact .insert i _
  | tryInsert => exact .map _ (.fill i (.done _))
  | set => exact .set i _
  | exchange =>
    refine .bind (.exchange i _) fun old => ?_
    rcases old with _ | (_ | _) <;> exact .done _
  | getOrFill => exact .map _ (.getOrFill i (.done _))
  | erase => exact .erase i
  | take => exact .map _ (.take i)
  | eraseIf => exact .map _ (.eraseIf i fun _ => .done _)
  | update => exact .map _ (.update i (fun _ => .done _) fun _ => .done _)

namespace Race

/-- What the slot holds at the start. -/
def prize? (race : Race) : Option ℤ := if race.filled then some Move.prize else none

/-- An insertion into an empty list of contents. -/
theorem slots_of_moves_insert {i : UInt64} {v : ℤ} {capacity : ℕ}
    {answer : Except Panic (Reply ℤ)} {new : List (Option ℤ)}
    (h : (SlotOperation.insert i v : SlotOperation ℤ Unit).Moves false
      (List.replicate capacity none) answer new) :
    new = (List.replicate capacity none).set i.toNat (some v) := by
  have hind : (SlotOperation.insert i v : SlotOperation ℤ Unit).index = i := rfl
  by_cases hi : i.toNat < capacity
  · have hget : (List.replicate capacity (none : Option ℤ))[i.toNat]? = some none := by simp [hi]
    cases h with
    | answers h =>
      rw [SlotOperation.onSlots, hind, hget] at h
      cases h
      rfl
    | panics h =>
      rw [SlotOperation.onSlots, hind, hget] at h
      cases h
  · have hget : (List.replicate capacity (none : Option ℤ))[i.toNat]? = none := by simp [hi]
    rw [List.set_eq_of_length_le (by simpa using hi)]
    cases h with
    | answers h =>
      rw [SlotOperation.onSlots, hind, hget] at h
      cases h
      rfl
    | panics h => rfl

/-- The array in front of a race. -/
theorem start_spec (race : Race) :
    race.array.Sound race.start.memory ∧
      race.start.memory.count = race.array.occupied race.start.memory ∧
      race.array.slots race.start.memory =
        (List.replicate race.capacity.toNat none).set race.slot.toNat race.prize? := by
  have hsound := sound_ofEntries (V := ℤ) race.array
  have hslots := slots_ofEntries (V := ℤ) race.array
  have hcount : (Memory.ofEntries race.array.segmentCount : Memory ℤ).count =
      race.array.occupied (.ofEntries race.array.segmentCount : Memory ℤ) := by
    rw [occupied_ofEntries]
    rfl
  cases hfilled : race.filled with
  | false =>
    simp only [start, prize?, hfilled, Bool.false_eq_true, if_false]
    refine ⟨hsound, hcount, hslots.trans ?_⟩
    rw [List.set_replicate_self]
  | true =>
    simp only [start, prize?, hfilled, if_true]
    let s : Session ℤ Unit := ⟨race.array.freshMemory, ()⟩
    have hinsert : race.array.Client (race.array.insert race.slot Move.prize : QuietProgram Bool) :=
      .insert ..
    have hoff : (SlotOperation.insert race.slot Move.prize : SlotOperation ℤ Unit).HandsOff :=
      trivial
    obtain ⟨hsound', hmoves⟩ := hoff.moves_alone (a := race.array) (s := s) hsound
    rw [SlotOperation.program, run_map, show race.array.slots s.memory = _ from hslots]
      at hmoves
    rw [SlotOperation.program, run_map] at hsound'
    refine ⟨hsound', hinsert.count_eq_of_run hsound hcount, ?_⟩
    exact slots_of_moves_insert hmoves

theorem getElem?_set_replicate {capacity n : ℕ} (content : Option ℤ) :
    ((List.replicate capacity none).set n content)[n]? =
      if n < capacity then some content else none := by
  rw [List.getElem?_set_self']
  by_cases hn : n < capacity <;> simp [hn]

/-- The pool in front of a race. -/
theorem proceeds_start (race : Race) : race.Proceeds race.pool fun _ => waiting := by
  obtain ⟨hsound, -, hslots⟩ := race.start_spec
  refine ⟨hsound, by simp [pool], ?_, ?_, ?_, fun _ => trivial, ?_⟩
  · intro k thread hk
    obtain ⟨l, hl, rfl⟩ := Option.map_eq_some_iff.mp (List.getElem?_map .. ▸ hk)
    obtain ⟨hlt, hl⟩ := List.getElem?_eq_some_iff.mp hl
    obtain rfl : k = l := by simpa using hl
    refine .running ?_
    rw [Move.program_eq, follows_map]
    have hdecided := (Move.handsOff_operation race.slot k race.move).isDecided
      (a := race.array) (m := race.start.memory)
    exact hdecided.mono fun answer _ _ _ hend => ⟨answer, rfl, hend⟩
  · refine ⟨race.prize?, hslots, ?_⟩
    cases hmove : race.move <;> cases hfilled : race.filled <;> simp [Move.Fits, prize?, hfilled]
  · intro v hv
    change (race.array.slots race.start.memory)[_]? = _ at hv
    rw [hslots, getElem?_set_replicate] at hv
    left
    by_cases hi : race.slot.toNat < race.capacity.toNat
    · cases hfilled : race.filled with
      | false => simp [hi, prize?, hfilled] at hv
      | true => simpa [hi, prize?, hfilled, eq_comm] using hv
    · simp [hi] at hv
  · simp [hasWon, pool]

/-- What can be counted when a race is over. -/
structure Totals where
  winners : ℕ
  size : ℕ
  occupied : Bool
deriving DecidableEq

/-- The totals of a pool. -/
def totals (race : Race) (pool : Pool ℤ Unit Bool) : Totals :=
  ⟨pool.answers.flatten.countP id, pool.session.memory.size,
    (race.array.value? pool.session.memory race.slot).isSome⟩

/-- Whether there is something to win: somebody takes part, the slot exists, and it is filled if the
move does not fill it. -/
def hasWinner (race : Race) : Bool :=
  race.threads != 0 && race.slot < race.capacity && race.filled != race.move.fills

/-- Whether the slot is occupied at the end. -/
def endsOccupied (race : Race) : Bool :=
  race.slot < race.capacity &&
    if race.threads = 0 then race.filled else race.move.leavesOccupied race.filled

section Ends

variable {race : Race} {k : ℕ} {pool : Pool ℤ Unit Bool} {progress : ℕ → Progress ℤ}

/-- When a race is over every thread has answered. -/
theorem Proceeds.returned (h : race.Proceeds pool progress) (hidle : pool.isIdle = true)
    (hk : k < race.threads) :
    ∃ reply, progress k = finished (.ok reply) ∧
      pool.threads[k]? = some ⟨[], [.ok (race.move.isWin k reply)]⟩ := by
  have hk' : k < pool.threads.length := h.length_eq ▸ hk
  have htodo := List.all_eq_true.mp hidle _ (List.getElem_mem hk')
  have hget := List.getElem?_eq_getElem hk'
  have hruns := h.runs k _ hget
  rw [hget]
  generalize pool.threads[k] = thread at htodo hruns
  generalize hnow : progress k = now at hruns
  cases hruns with
  | running h => simp at htodo
  | returned reply => exact ⟨reply, rfl, rfl⟩

/-- The threads that answer that they have won are those that have won. -/
theorem Proceeds.countP_answers (h : race.Proceeds pool progress) (hidle : pool.isIdle = true) :
    pool.answers.flatten.countP id =
      (List.range race.threads).countP fun k => race.hasWon k (progress k) := by
  have hanswers : pool.answers =
      (List.range race.threads).map fun k => [race.hasWon k (progress k)] := by
    apply List.ext_getElem
    · simp [Pool.answers, h.length_eq]
    · intro k hk _
      have hk' : k < race.threads := by simpa [Pool.answers, h.length_eq] using hk
      obtain ⟨reply, hreply, hthread⟩ := h.returned hidle hk'
      obtain ⟨hlt, hthread⟩ := List.getElem?_eq_some_iff.mp hthread
      simp [Pool.answers, hthread, hreply, hasWon, Except.toOption]
  have hflatten : (pool.answers.flatten) =
      (List.range race.threads).map fun k => race.hasWon k (progress k) := by
    rw [hanswers, ← List.flatMap_def, List.map_eq_flatMap]
  rw [hflatten, List.countP_map]
  rfl

theorem isOpen_set_replicate (content : Option ℤ) :
    race.isOpen ((List.replicate race.capacity.toNat none).set race.slot.toNat content) =
      (decide (race.slot < race.capacity) && race.move.isAfter content) := by
  rw [isOpen, getElem?_set_replicate]
  by_cases hi : race.slot < race.capacity
  · have hi' := UInt64.lt_iff_toNat_lt.mp hi
    simp [hi, hi']
  · have hi' : ¬ race.slot.toNat < race.capacity.toNat := fun h => hi (UInt64.lt_iff_toNat_lt.mpr h)
    simp [hi, hi']

theorem isAfter_prize? : race.move.isAfter race.prize? = (race.filled != race.move.fills) := by
  cases hmove : race.move <;> cases hfilled : race.filled <;>
    simp [Move.isAfter, Move.fills, prize?, hfilled]

/-- A content that fits and is what nobody is after is occupied or not as the move leaves it. -/
theorem isSome_of_not_isAfter {content : Option ℤ} (hfits : race.move.Fits race.filled content)
    (hclosed : race.move.isAfter content = false) :
    content.isSome = race.move.leavesOccupied race.filled := by
  cases hmove : race.move <;> cases content <;>
    simp_all [Move.isAfter, Move.Fits, Move.leavesOccupied]

/-- A content that fits and is as wanted as the one at the start is occupied if that was. -/
theorem isSome_of_isAfter_eq {content : Option ℤ} (hfits : race.move.Fits race.filled content)
    (hsame : race.move.isAfter content = race.move.isAfter race.prize?) :
    content.isSome = race.filled := by
  rw [isAfter_prize?] at hsame
  cases hmove : race.move <;> cases content <;> cases hfilled : race.filled <;>
    simp_all [Move.isAfter, Move.Fits, Move.fills]

theorem countP_set_replicate (content : Option ℤ) :
    ((List.replicate race.capacity.toNat none).set race.slot.toNat content).countP Option.isSome =
      (decide (race.slot < race.capacity) && content.isSome).toNat := by
  by_cases hi : race.slot < race.capacity
  · have hi' := UInt64.lt_iff_toNat_lt.mp hi
    rw [List.countP_set (by simpa using hi')]
    cases content <;> simp [hi, List.countP_replicate]
  · have hi' : race.capacity.toNat ≤ race.slot.toNat :=
      UInt64.le_iff_toNat_le.mp (UInt64.not_lt.mp hi)
    rw [List.set_eq_of_length_le (by simpa using hi')]
    simp [hi, List.countP_replicate]

theorem isSome_value?_of_slots {m : Memory ℤ} {content : Option ℤ} (hslots : race.array.slots m =
    (List.replicate race.capacity.toNat none).set race.slot.toNat content) :
    (race.array.value? m race.slot).isSome =
      (decide (race.slot < race.capacity) && content.isSome) := by
  have hget := getElem?_slots race.array m race.slot
  rw [hslots, getElem?_set_replicate] at hget
  by_cases hi : race.slot < race.capacity
  · have hi' := UInt64.lt_iff_toNat_lt.mp hi
    rw [if_pos hi', if_pos hi, Option.some.injEq] at hget
    simp [← hget, hi]
  · rw [value?, occupant?_of_le _ (UInt64.not_lt.mp hi)]
    simp [hi]

/-- The slot at the end of a race, and how many have won. -/
theorem Proceeds.ends (h : race.Proceeds pool progress) (hidle : pool.isIdle = true) :
    ∃ content, race.array.slots pool.session.memory =
        (List.replicate race.capacity.toNat none).set race.slot.toNat content ∧
      (decide (race.slot < race.capacity) && content.isSome) = race.endsOccupied ∧
      pool.answers.flatten.countP id = race.hasWinner.toNat := by
  obtain ⟨content, hslots, hfits⟩ := h.contested.possible
  refine ⟨content, hslots, ?_⟩
  have hwinners := h.contested.winners
  rw [race.start_spec.2.2, hslots, isOpen_set_replicate, isOpen_set_replicate, isAfter_prize?]
    at hwinners
  rw [← h.countP_answers hidle] at hwinners
  rw [endsOccupied, hasWinner]
  by_cases hn : race.threads = 0
  · -- nobody has moved, so the slot is as open as it was
    have hnone : pool.answers.flatten.countP id = 0 := by
      rw [h.countP_answers hidle, hn]
      rfl
    refine ⟨?_, by simp [hnone, hn]⟩
    rw [if_pos hn]
    by_cases hi : race.slot < race.capacity
    · have hinj : ∀ b c : Bool, b.toNat = c.toNat → b = c := by decide
      rw [isSome_of_isAfter_eq hfits]
      rw [isAfter_prize?]
      apply hinj
      simpa [hnone, hi] using hwinners
    · simp [hi]
  · -- the first thread has seen the slot closed
    obtain ⟨reply, hreply, -⟩ := h.returned hidle (Nat.pos_of_ne_zero hn)
    have hknows := h.contested.knows 0
    rw [hreply] at hknows
    have hclosed := hknows.1
    rw [hslots, isOpen_set_replicate] at hclosed
    have hn' : (race.threads != 0) = true := by simpa using hn
    rw [if_neg hn, hn', Bool.true_and]
    refine ⟨?_, by rwa [hclosed] at hwinners⟩
    by_cases hi : race.slot < race.capacity
    · rw [isSome_of_not_isAfter hfits (by simpa [hi] using hclosed)]
    · simp [hi]

/-- The totals of a race that is over. -/
theorem Proceeds.totals_eq (h : race.Proceeds pool progress) (hidle : pool.isIdle = true)
    (hcount : pool.session.memory.count = race.array.occupied pool.session.memory) :
    race.totals pool = ⟨race.hasWinner.toNat, race.endsOccupied.toNat, race.endsOccupied⟩ := by
  obtain ⟨content, hslots, hend, hwinners⟩ := h.ends hidle
  rw [totals, hwinners, Memory.size, hcount, Int.toNat_natCast, occupied,
    isSome_value?_of_slots hslots, hslots, countP_set_replicate, hend]

/-- Before anybody has moved nobody owes anything to the count. -/
theorem balanced_start (race : Race) :
    race.pool.Balanced race.array (.replicate race.pool.threads.length .start) := by
  obtain ⟨hsound, hcount, -⟩ := race.start_spec
  refine ⟨hsound, by simp, fun k thread standing hk hstanding => ?_, ?_⟩
  · obtain ⟨l, -, rfl⟩ := List.mem_map.mp (List.mem_of_getElem? hk)
    obtain ⟨-, rfl⟩ := List.mem_replicate.mp (List.mem_of_getElem? hstanding)
    refine Thread.keeps_of_dutiful (fun p hp => ?_) _ _ _
    rw [List.mem_singleton.mp hp]
    exact (Move.client ..).dutiful
  · rw [List.map_replicate, List.sum_replicate]
    simpa [Standing.start, Duty.owed, pool] using hcount

theorem totals_of_isIdle (hthreads : race.threads ≤ 1000) {schedule : List ℕ}
    (hidle : (race.pool.run schedule).isIdle = true) :
    race.totals (race.pool.run schedule) =
      ⟨race.hasWinner.toNat, race.endsOccupied.toNat, race.endsOccupied⟩ := by
  have hproceeds : ∃ progress, race.Proceeds (race.pool.run schedule) progress :=
    Pool.run_induction (I := fun pool => ∃ progress, race.Proceeds pool progress)
      (fun _ k ⟨_, h⟩ => h.step hthreads k) ⟨_, race.proceeds_start⟩ schedule
  obtain ⟨progress, h⟩ := hproceeds
  exact h.totals_eq hidle ((race.balanced_start.run schedule).count_eq_of_isIdle hidle)

/-- However up to a thousand threads interleave, a race that is over has the totals that it has if
the threads move one after another. There is one winner if the slot exists and is empty for a move
that fills it, or holds the prize for one that does not, and otherwise there is none. The threads
carry the numbers below the prize, so no move puts the prize back. -/
theorem totals_of_schedule (hthreads : race.threads ≤ 1000) (schedule : List ℕ)
    (hidle : (race.pool.run schedule).isIdle = true) :
    race.totals (race.pool.run schedule) =
        race.totals (Pool.finishAll race.pool.threads [] race.pool.session) ∧
      race.totals (race.pool.run schedule) =
        ⟨race.hasWinner.toNat, race.endsOccupied.toNat, race.endsOccupied⟩ := by
  have htotals := totals_of_isIdle hthreads hidle
  obtain ⟨alone, halone⟩ :=
    Pool.exists_run_eq_finishAll race.pool.threads [] race.pool.session
  have hfinished := Pool.isIdle_finishAll race.pool.threads [] race.pool.session (by simp)
  refine ⟨?_, htotals⟩
  rw [halone] at hfinished ⊢
  rw [htotals]
  exact (totals_of_isIdle hthreads hfinished).symm

/-- Two threads load the prize before either of them replaces it; the second exchange is lost. -/
theorem totals_of_lost_update :
    let race : Race := ⟨.update, 1, 0, 2, true⟩
    let last := race.pool.run [0, 0, 1, 1, 0, 1, 0, 0, 1]
    (race.threads ≤ 1000 ∧ last.isIdle = true) ∧
      race.totals last = race.totals (Pool.finishAll race.pool.threads [] race.pool.session) ∧
      race.totals last = ⟨1, 1, true⟩ := by
  intro race last
  have hidle : last.isIdle = true := by decide +kernel
  exact ⟨⟨by decide, hidle⟩, totals_of_schedule (by decide) _ hidle⟩

/-- A round in which the threads take turns is over in the end, whoever begins. -/
theorem round_eq (hthreads : race.threads ≤ 1000) (first : ℕ) :
    (race.round first).wins = race.hasWinner.toNat ∧
      (race.round first).size = race.endsOccupied.toNat := by
  obtain ⟨schedule, hschedule, hidle⟩ := race.pool.exists_run_eq_takeTurns first
  have htotals := totals_of_isIdle hthreads hidle
  rw [← hschedule] at htotals
  exact ⟨congrArg Totals.winners htotals, congrArg Totals.size htotals⟩

end Ends

end Race

end AtomicSlots
