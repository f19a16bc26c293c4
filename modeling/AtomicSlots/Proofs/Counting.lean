import AtomicSlots.Proofs.Duties
import AtomicSlots.Proofs.Scan

/-!
# The count under threads

Any number of threads work on one array, each on a list of clients, and take turns in any order.
What a thread did so far tells how it stands: which duty it has and whether an operation of it is
under way. The count and all that is still owed to it make up the number of occupied slots, in every
state that any schedule reaches. So the count is exact whenever nobody owes anything.
-/
namespace AtomicSlots

variable {V H α : Type}

open Duty Program SlotArray

namespace Duty

variable {a : SlotArray} {act : Action V H} {duty duty' : Duty V}

/-- What a count has in common with all that is owed to it is kept by each action. -/
def Balances (a : SlotArray) (m n : Memory V) (duty duty' : Duty V) : Prop :=
  n.count + duty'.owed - a.occupied n = m.count + duty.owed - a.occupied m

theorem Balances.of_eq {m n : Memory V} (hcount : n.count = m.count)
    (hoccupied : a.occupied n = a.occupied m) (howed : duty'.owed = duty.owed) :
    Balances a m n duty duty' := by
  rw [Balances, hcount, hoccupied, howed]

/-- A store that a free thread makes brings just the duty that balances it. -/
theorem balances_store {m : Memory V} {i : UInt64} {cell : Cell} (h : a.Sound m)
    (hc : a.cell? m i = some cell) {new : Option V}
    (hact : act = .swap cell new ∨ ∃ expected, act = .exchangeIf cell expected new) :
    Balances a m (m.store cell new) free (free.after act m (m.store cell new)) := by
  have hoccupied := occupied_store h hc new
  have howed := owed_ofChange (m.content cell) (m.stamped new)
  rw [Memory.isSome_stamped] at howed
  rw [Balances, after_store h hc hact, howed, Memory.count_store]
  simp only [owed]
  omega

/-- One action of a thread that follows its duties changes the count by what it stops owing and the
number of occupied slots by what it starts to owe. -/
theorem balances_perform [Journal H] {s : Session V H} (h : a.Sound s.memory)
    (hact : a.Admits s.memory act)
    (hstep : protocol duty act s.memory (act.perform s).2.memory duty') :
    Balances a s.memory (act.perform s).2.memory duty duty' := by
  obtain ⟨hallows, rfl⟩ := hstep
  cases act with
  | loadEntry | load | readSize | emit | readHost | changeHost =>
    exact .of_eq rfl rfl (by cases duty <;> rfl)
  | publish e =>
    have hslots : a.slots (s.memory.publish e).2 = a.slots s.memory :=
      slots_congr_occupant (occupant?_publish h e)
    refine .of_eq (s.memory.count_publish e) ?_ (by cases duty <;> rfl)
    exact congrArg (List.countP Option.isSome) hslots
  | exchangeIf cell expected new =>
    obtain ⟨i, hi⟩ := hact
    cases duty <;> try exact hallows.elim
    change Balances a s.memory (s.memory.exchangeIf cell expected new).2 free
      (free.after _ s.memory (s.memory.exchangeIf cell expected new).2)
    cases hsame : sameOccupant (s.memory.content cell) expected with
    | true =>
      rw [Memory.exchangeIf_of_same new hsame]
      exact balances_store h hi (.inr ⟨expected, rfl⟩)
    | false =>
      rw [Memory.exchangeIf_of_not_same new hsame]
      exact .of_eq rfl rfl (by simp [after])
  | swap cell new =>
    obtain ⟨i, hi⟩ := hact
    cases duty <;> try exact hallows.elim
    exact balances_store h hi (.inl rfl)
  | retire o =>
    refine .of_eq rfl rfl ?_
    cases duty with
    | replaced p | emptied p => simp [after, show p = o from hallows, owed]
    | free | filled | retired => exact hallows.elim
  | adjust change =>
    have hcount : ((Action.adjust change).perform s).2.memory.count = s.memory.count + change := rfl
    have hoccupied : a.occupied ((Action.adjust change).perform s).2.memory = a.occupied s.memory :=
      rfl
    rw [Balances, hcount, hoccupied]
    cases duty with
    | filled | retired =>
      rw [show change = _ from hallows]
      simp only [after, owed, if_true]
      omega
    | free | replaced o | emptied o => exact hallows.elim

end Duty

/-- How a thread stands, as far as it shows in what it did. -/
structure Standing (V : Type) where
  duty : Duty V
  /-- An operation has begun and has not returned. -/
  underWay : Bool

namespace Standing

/-- In front of everything. -/
def start : Standing V := ⟨free, false⟩

/-- After a turn of a thread that takes one memory to another. A thread that performs an action has
an operation under way; if its operation has ended, the turn is its return. -/
def after (standing : Standing V) (thread : Thread V H α) (m n : Memory V) : Standing V :=
  match thread.todo with
  | .step act _ :: _ => ⟨standing.duty.after act m n, true⟩
  | _ => ⟨standing.duty, false⟩

/-- An empty slot was filled and the count was not raised since. -/
def hasFilled (standing : Standing V) : Bool :=
  match standing.duty with
  | filled => true
  | free | replaced _ | emptied _ | retired => false

/-- An occupied slot was emptied and the count was not lowered since. -/
def hasEmptied (standing : Standing V) : Bool :=
  match standing.duty with
  | emptied _ | retired => true
  | free | filled | replaced _ => false

theorem owed_eq (standing : Standing V) :
    standing.duty.owed = standing.hasFilled.toNat - standing.hasEmptied.toNat := by
  unfold hasFilled hasEmptied
  cases standing.duty <;> rfl

end Standing

namespace Pool

/-- How the threads stand after a turn of the pool. -/
def note [Journal H] (pool : Pool V H α) (standings : List (Standing V)) (k : ℕ) :
    List (Standing V) :=
  match pool.threads[k]? with
  | none => standings
  | some thread => standings.modify k
      (·.after thread pool.session.memory (pool.step k).session.memory)

/-- How the threads stand after a schedule, if one knows how they stand before. -/
def standingsFrom [Journal H] (pool : Pool V H α) (before : List (Standing V)) :
    List ℕ → List (Standing V)
  | [] => before
  | k :: schedule => (pool.step k).standingsFrom (pool.note before k) schedule

/-- How the threads of a pool that starts stand after a schedule. -/
def standings [Journal H] (pool : Pool V H α) (schedule : List ℕ) : List (Standing V) :=
  pool.standingsFrom (.replicate pool.threads.length .start) schedule

/-- Threads in front of their lists of programs, on a fresh array. -/
def fresh (a : SlotArray) (host : H) (programs : List (List (Program V H α))) : Pool V H α :=
  ⟨⟨a.freshMemory, host⟩, programs.map .ofPrograms⟩

end Pool

section Invariant

variable [Journal H] {a : SlotArray} {pool : Pool V H α} {standings : List (Standing V)}

/-- What a thread keeps to: it does the duties it has, its further operations will do theirs, and it
has none while no operation of it is under way. -/
def Thread.Keeps (a : SlotArray) : Thread V H α → Standing V → Memory V → Prop
  | ⟨[], _⟩, standing, _ => standing.duty = free
  | ⟨p :: rest, _⟩, standing, m =>
    p.Follows a protocol (fun _ duty _ => duty = free) standing.duty m ∧
      (∀ q ∈ rest, q.Dutiful a) ∧ (standing.underWay = false → standing.duty = free)

theorem Thread.Keeps.later {thread : Thread V H α} {standing : Standing V} {m n : Memory V}
    (h : thread.Keeps a standing m) (hl : m.Later n) : thread.Keeps a standing n := by
  obtain ⟨todo, answers⟩ := thread
  cases todo with
  | nil => exact h
  | cons p rest => exact ⟨h.1.later hl, h.2⟩

theorem Thread.Keeps.free_of_idle {thread : Thread V H α} {standing : Standing V} {m : Memory V}
    (h : thread.Keeps a standing m) (hidle : standing.underWay = false) : standing.duty = free := by
  obtain ⟨todo, answers⟩ := thread
  cases todo with
  | nil => exact h
  | cons p rest => exact h.2.2 hidle

/-- When an operation returns, the next one starts without duties. -/
theorem Thread.keeps_of_dutiful {rest : List (Program V H α)} (h : ∀ q ∈ rest, q.Dutiful a)
    (answers : List (Except Panic α)) (underWay : Bool) (m : Memory V) :
    Thread.Keeps a ⟨rest, answers⟩ ⟨free, underWay⟩ m := by
  cases rest with
  | nil => rfl
  | cons q rest =>
    exact ⟨h q (by simp) m, fun r hr => h r (by simp [hr]), fun _ => rfl⟩

/-- What one turn of a thread does to the memory, to the count and to its standing. -/
theorem Thread.Keeps.step {thread : Thread V H α} {standing : Standing V} {s : Session V H}
    (h : thread.Keeps a standing s.memory) (hs : a.Sound s.memory) :
    let after := standing.after thread s.memory (thread.step s).2.memory
    a.Sound (thread.step s).2.memory ∧ s.memory.Later (thread.step s).2.memory ∧
      (thread.step s).1.Keeps a after (thread.step s).2.memory ∧
      Balances a s.memory (thread.step s).2.memory standing.duty after.duty := by
  obtain ⟨todo, answers⟩ := thread
  cases todo with
  | nil => exact ⟨hs, .refl _, h, rfl⟩
  | cons p rest =>
    obtain ⟨hp, hrest, -⟩ := h
    cases p with
    | done x =>
      have hfree : standing.duty = free := hp
      refine ⟨hs, .refl _, ?_, rfl⟩
      rw [Standing.after, hfree]
      exact keeps_of_dutiful hrest _ _ _
    | panic reason =>
      have hfree : standing.duty = free := hp
      refine ⟨hs, .refl _, ?_, rfl⟩
      rw [Standing.after, hfree]
      exact keeps_of_dutiful hrest _ _ _
    | step act next =>
      obtain ⟨hact, duty', hstep, hnext⟩ := hp s (.refl _) hs
      obtain ⟨hs', hl⟩ := hs.perform hact
      have hbalances := balances_perform hs hact hstep
      obtain ⟨-, rfl⟩ := hstep
      exact ⟨hs', hl, ⟨hnext, hrest, fun h => by cases h⟩, hbalances⟩

/-- The invariant of a pool of clients: the count and all that is owed to it make up the number of
occupied slots, and each thread keeps to what its standing asks for. -/
structure Pool.Balanced (a : SlotArray) (pool : Pool V H α) (standings : List (Standing V)) :
    Prop where
  sound : a.Sound pool.session.memory
  length_eq : standings.length = pool.threads.length
  keeps : ∀ (k : ℕ) (thread : Thread V H α) (standing : Standing V),
    pool.threads[k]? = some thread → standings[k]? = some standing →
    thread.Keeps a standing pool.session.memory
  balance : pool.session.memory.count + (standings.map (·.duty.owed)).sum =
    a.occupied pool.session.memory

namespace Pool.Balanced

/-- Every turn of every thread keeps the invariant. -/
theorem step (h : pool.Balanced a standings) (k : ℕ) :
    (pool.step k).Balanced a (pool.note standings k) := by
  obtain ⟨s, threads⟩ := pool
  cases hk : threads[k]? with
  | none =>
    have hstep : Pool.step ⟨s, threads⟩ k = ⟨s, threads⟩ := by simp [Pool.step, hk]
    have hnote : Pool.note ⟨s, threads⟩ standings k = standings := by simp [Pool.note, hk]
    rw [hstep, hnote]
    exact h
  | some thread =>
    have hstep : Pool.step ⟨s, threads⟩ k =
        ⟨(thread.step s).2, threads.set k (thread.step s).1⟩ := by
      simp [Pool.step, hk]
    have hlt : k < standings.length := by
      rw [h.length_eq]
      exact (List.getElem?_eq_some_iff.mp hk).1
    have hstanding := List.getElem?_eq_getElem hlt
    have hkeeps := h.keeps k thread _ hk hstanding
    obtain ⟨hs, hl, hkeeps', hbalances⟩ := hkeeps.step h.sound
    have hnote : Pool.note ⟨s, threads⟩ standings k =
        standings.set k (standings[k].after thread s.memory (thread.step s).2.memory) := by
      simp only [Pool.note, hk, hstep]
      rw [List.modify_eq_set_getElem?, hstanding]
      rfl
    rw [hstep, hnote]
    refine ⟨hs, by simpa using h.length_eq, ?_, ?_⟩
    · intro j other standing hj hstanding'
      by_cases hjk : k = j
      · subst hjk
        rw [List.getElem?_set_self (List.getElem?_eq_some_iff.mp hk).1] at hj
        rw [List.getElem?_set_self hlt] at hstanding'
        cases hj
        cases hstanding'
        exact hkeeps'
      · rw [List.getElem?_set_ne hjk] at hj hstanding'
        exact (h.keeps j other standing hj hstanding').later hl
    · have hbalance := h.balance
      rw [List.map_set, List.sum_set', dif_pos (by simpa using hlt), List.getElem_map]
      rw [Balances] at hbalances
      dsimp only at hbalance hbalances ⊢
      omega

theorem run (h : pool.Balanced a standings) (schedule : List ℕ) :
    (pool.run schedule).Balanced a (pool.standingsFrom standings schedule) := by
  induction schedule generalizing pool standings with
  | nil => exact h
  | cons k schedule ih => exact ih (h.step k)

/-- Only a thread with an operation under way can owe something. -/
theorem free_of_idle (h : pool.Balanced a standings) :
    ∀ standing ∈ standings, standing.underWay = false → standing.duty = free := by
  intro standing hmem hidle
  obtain ⟨k, hk, rfl⟩ := List.getElem_of_mem hmem
  have hk' : k < pool.threads.length := h.length_eq ▸ hk
  have hkeeps := h.keeps k _ _ (List.getElem?_eq_getElem hk') (List.getElem?_eq_getElem hk)
  exact hkeeps.free_of_idle hidle

/-- When all threads are idle, all is counted. -/
theorem count_eq_of_isIdle (h : pool.Balanced a standings) (hidle : pool.isIdle = true) :
    pool.session.memory.count = a.occupied pool.session.memory := by
  have hfree : ∀ standing ∈ standings, standing.duty = free := by
    intro standing hmem
    obtain ⟨k, hk, rfl⟩ := List.getElem_of_mem hmem
    have hk' : k < pool.threads.length := h.length_eq ▸ hk
    have htodo := List.all_eq_true.mp hidle _ (List.getElem_mem hk')
    have hkeeps := h.keeps k _ _ (List.getElem?_eq_getElem hk') (List.getElem?_eq_getElem hk)
    generalize pool.threads[k] = thread at htodo hkeeps
    obtain ⟨todo, answers⟩ := thread
    obtain rfl : todo = [] := by simpa using htodo
    exact hkeeps
  have hsum : (standings.map (·.duty.owed)).sum = 0 := by
    apply List.sum_eq_zero
    intro owes howes
    obtain ⟨standing, hmem, rfl⟩ := List.mem_map.mp howes
    rw [hfree standing hmem]
    rfl
  have hbalance := h.balance
  omega

/-- Before anything happens nobody owes anything. -/
theorem of_dutiful {s : Session V H} (hs : a.Sound s.memory)
    (hcount : s.memory.count = a.occupied s.memory) {programs : List (List (Program V H α))}
    (h : ∀ list ∈ programs, ∀ p ∈ list, p.Dutiful a) :
    Pool.Balanced a ⟨s, programs.map .ofPrograms⟩
      (.replicate (programs.map Thread.ofPrograms).length .start) where
  sound := hs
  length_eq := List.length_replicate
  keeps k thread standing hk hstanding := by
    obtain ⟨list, hlist, rfl⟩ := List.mem_map.mp (List.mem_of_getElem? hk)
    obtain ⟨-, rfl⟩ := List.mem_replicate.mp (List.mem_of_getElem? hstanding)
    exact Thread.keeps_of_dutiful (h list hlist) _ _ _
  balance := by
    rw [List.map_replicate, List.sum_replicate, hcount]
    simp [Standing.start, owed]

theorem fresh (host : H) {programs : List (List (Program V H α))}
    (h : ∀ list ∈ programs, ∀ p ∈ list, a.Client p) :
    (Pool.fresh a host programs).Balanced a
      (.replicate (Pool.fresh a host programs).threads.length .start) := by
  have hcount : (a.freshMemory : Memory V).count = a.occupied (a.freshMemory : Memory V) :=
    (congrArg Nat.cast (occupied_ofEntries a)).symm
  exact of_dutiful (sound_ofEntries a) hcount fun list hlist p hp => (h list hlist p hp).dutiful

end Pool.Balanced

/-- All that is owed, by the threads that owe it. -/
theorem Standing.sum_owed (standings : List (Standing V)) :
    (standings.map (·.duty.owed)).sum =
      standings.countP hasFilled - (standings.countP hasEmptied : ℤ) := by
  induction standings with
  | nil => rfl
  | cons standing rest ih =>
    have hif : ∀ b : Bool, (if b = true then 1 else 0) = b.toNat := by decide
    rw [List.map_cons, List.sum_cons, ih, owed_eq]
    simp only [List.countP_cons, hif]
    omega

/-- A thread owes at most one change of the count, and only while it is at work. -/
theorem Standing.countP_owing_le {standings : List (Standing V)}
    (h : ∀ standing ∈ standings, standing.underWay = false → standing.duty = free) :
    standings.countP hasFilled + standings.countP hasEmptied ≤ standings.countP underWay := by
  induction standings with
  | nil => rfl
  | cons standing rest ih =>
    have hrest := ih fun other hmem => h other (List.mem_cons_of_mem _ hmem)
    have hone : standing.hasFilled.toNat + standing.hasEmptied.toNat ≤
        standing.underWay.toNat := by
      cases hidle : standing.underWay with
      | true =>
        unfold hasFilled hasEmptied
        cases standing.duty <;> simp
      | false =>
        have hfree := h standing List.mem_cons_self hidle
        simp [hasFilled, hasEmptied, hfree]
    have hif : ∀ b : Bool, (if b = true then 1 else 0) = b.toNat := by decide
    simp only [List.countP_cons, hif]
    omega

end Invariant

namespace SlotArray

variable [Journal H]

/-- The size is what a look at each slot finds, and what a fresh cursor yields. A table for more
than `2 ^ 64 - 32` slots would alone take a quarter of all addresses of a 64-bit word. -/
structure CountsAll (a : SlotArray) (s : Session V H) : Prop where
  size_eq : s.memory.size = a.occupied s.memory
  contained : (List.range a.capacity.toNat).countP (fun i =>
    ((a.contains (.ofNat i)).run s).1.toOption = some true) = a.occupied s.memory
  yielded : a.capacity.toNat ≤ 2 ^ 64 - 32 → (a.listed s).length = a.occupied s.memory

theorem countsAll_of_size {a : SlotArray} {s : Session V H}
    (h : s.memory.size = a.occupied s.memory) : a.CountsAll s where
  size_eq := h
  contained := by
    rw [occupied, slots, List.countP_map]
    apply List.countP_congr
    intro i _
    rw [run_contains]
    simp [value?, Except.toOption]
  yielded hcap := by rw [listed_eq_itemsFrom hcap, length_itemsFrom_zero]

/-- In every state that threads of clients reach, the count is the number of occupied slots, less
the fills and more the removals that are done but not counted yet. Each of these belongs to another
thread with an operation under way; while there is none, the count is exact. -/
theorem count_eq_occupied_of_schedule (a : SlotArray) (host : H)
    {programs : List (List (Program V H α))} (h : ∀ list ∈ programs, ∀ p ∈ list, a.Client p)
    (schedule : List ℕ) :
    let pool := (Pool.fresh a host programs).run schedule
    let standings := (Pool.fresh a host programs).standings schedule
    let m := pool.session.memory
    m.count = a.occupied m - standings.countP Standing.hasFilled +
        standings.countP Standing.hasEmptied ∧
      |m.count - a.occupied m| ≤ standings.countP Standing.underWay ∧
      m.size ≤ a.occupied m + standings.countP Standing.underWay ∧
      (standings.countP Standing.underWay = 0 → a.CountsAll pool.session) := by
  intro pool standings m
  have hbalanced : pool.Balanced a standings := (Pool.Balanced.fresh host h).run schedule
  have hbalance := hbalanced.balance
  rw [Standing.sum_owed] at hbalance
  have howing := Standing.countP_owing_le hbalanced.free_of_idle
  have hcount : m.count = a.occupied m - standings.countP Standing.hasFilled +
      standings.countP Standing.hasEmptied := by
    change m.count + _ = (a.occupied m : ℤ) at hbalance
    omega
  refine ⟨hcount, ?_, ?_, fun hidle => countsAll_of_size ?_⟩
  · rw [abs_le]
    omega
  · rw [Memory.size]
    omega
  · change m.count.toNat = a.occupied m
    omega

/-- One thread is to fill a slot and another one to empty it. -/
def overtaking : Pool ℕ Unit Bool :=
  .fresh ⟨2⟩ () [[(SlotArray.mk 2).insert 0 7], [(SlotArray.mk 2).erase 0]]

/-- The second one empties the slot and counts that before the first one has counted. Then the count
is negative, and the size is not. -/
theorem count_is_negative_when_overtaken :
    let pool := overtaking.run [0, 0, 0, 0, 0, 1, 1, 1, 1]
    let standings := overtaking.standings [0, 0, 0, 0, 0, 1, 1, 1, 1]
    let m := pool.session.memory
    (m.count = (SlotArray.mk 2).occupied m - standings.countP Standing.hasFilled +
        standings.countP Standing.hasEmptied) ∧
      m.count = -1 ∧ m.size = 0 ∧ standings.countP Standing.underWay = 2 := by
  have hclients : ∀ list ∈ [[(SlotArray.mk 2).insert 0 7],
      [((SlotArray.mk 2).erase 0 : Program ℕ Unit Bool)]],
      ∀ p ∈ list, (SlotArray.mk 2).Client p := by
    simp [Client.insert, Client.erase]
  have hcount := (count_eq_occupied_of_schedule _ () hclients [0, 0, 0, 0, 0, 1, 1, 1, 1]).1
  exact ⟨hcount, by decide +kernel, by decide +kernel, by decide +kernel⟩

end SlotArray

/-! A single thread runs clients one after another, and clients are made of clients: the operations
that a callback performs are nested in the operation that calls it. -/

/-- Whether the next action belongs to the end of an operation that has changed a slot. -/
def Thread.isSettling (thread : Thread V H α) : Bool :=
  match thread.todo with
  | .step (.retire _) _ :: _ | .step (.adjust _) _ :: _ => true
  | _ => false

/-- Whether a program performs any action at all. -/
def Program.acts : Program V H α → Bool
  | .step _ _ => true
  | .done _ | .panic _ => false

section Nesting

variable [Journal H] {a : SlotArray}

/-- Both ways to ask for the number of occupied slots answer exactly. -/
def SlotArray.SizeIsExact (a : SlotArray) (s : Session V H) : Prop :=
  (size.run s).1 = .ok (a.occupied s.memory) ∧
    (isEmpty.run s).1 = .ok (decide (a.occupied s.memory = 0))

theorem SlotArray.sizeIsExact_of_count {s : Session V H}
    (h : s.memory.count = a.occupied s.memory) : a.SizeIsExact s := by
  have hsize : s.memory.size = a.occupied s.memory := by
    rw [Memory.size]
    omega
  refine ⟨congrArg Except.ok hsize, ?_⟩
  rw [isEmpty, run_map]
  change Except.ok (s.memory.size == 0) = _
  rw [hsize]
  rfl

/-- The state of a thread that keeps to its duties and is alone with the array. -/
def Thread.KeepsAlone (a : SlotArray) (thread : Thread V H α) (s : Session V H) : Prop :=
  ∃ standing, a.Sound s.memory ∧ thread.Keeps a standing s.memory ∧
    s.memory.count + standing.duty.owed = a.occupied s.memory

theorem Thread.KeepsAlone.step {thread : Thread V H α} {s : Session V H}
    (h : thread.KeepsAlone a s) : (thread.step s).1.KeepsAlone a (thread.step s).2 := by
  obtain ⟨standing, hs, hkeeps, hcount⟩ := h
  obtain ⟨hs', -, hkeeps', hbalances⟩ := hkeeps.step hs
  refine ⟨_, hs', hkeeps', ?_⟩
  rw [Balances] at hbalances
  omega

/-- A client that begins never begins with the end of another operation. -/
theorem SlotArray.Client.not_isSettling {β : Type} {c : Program V H β} (hc : a.Client c)
    (hacts : c.acts = true) {s : Session V H} (hs : a.Sound s.memory) (k : β → Program V H α)
    (rest : List (Program V H α)) (answers : List (Except Panic α)) :
    Thread.isSettling ⟨(c >>= k) :: rest, answers⟩ = false := by
  cases c with
  | done x => cases hacts
  | panic reason => cases hacts
  | step act next =>
    obtain ⟨-, -, ⟨hallows, -⟩, -⟩ := hc.dutiful s.memory s (.refl _) hs
    cases act with
    | retire o => exact hallows.elim
    | adjust change => exact hallows.elim
    | _ => rfl

/-- Whatever waits for the end of an operation waits for the count. -/
theorem Thread.KeepsAlone.count_eq {thread : Thread V H α} {s : Session V H}
    (h : thread.KeepsAlone a s) (hsettling : thread.isSettling = false) :
    s.memory.count = a.occupied s.memory := by
  obtain ⟨standing, hs, hkeeps, hcount⟩ := h
  suffices hfree : standing.duty = free by
    rw [hfree] at hcount
    simpa [owed] using hcount
  obtain ⟨todo, answers⟩ := thread
  cases todo with
  | nil => exact hkeeps
  | cons p rest =>
    obtain ⟨hp, -, -⟩ := hkeeps
    cases p with
    | done x => exact hp
    | panic reason => exact hp
    | step act next =>
      obtain ⟨-, -, ⟨hallows, -⟩, -⟩ := hp s (.refl _) hs
      cases hduty : standing.duty with
      | free => rfl
      | filled | replaced o | emptied o | retired =>
        rw [hduty] at hallows
        cases act <;> first | exact hallows.elim | cases hsettling

/-- Run from an exact count, a client ends with an exact count, also if it panics. -/
theorem SlotArray.Client.count_eq_of_run {β : Type} {c : Program V H β} (hc : a.Client c)
    {s : Session V H} (hs : a.Sound s.memory) (h : s.memory.count = a.occupied s.memory) :
    (c.run s).2.memory.count = a.occupied (c.run s).2.memory := by
  obtain ⟨-, duty, hduty, hend⟩ := (hc.dutiful s.memory).run
    (I := fun duty m => m.count + duty.owed = a.occupied m) hs (by simpa [owed] using h)
    (fun t act duty duty' ht hact hstep hI => by
      have hbalances := balances_perform ht hact hstep
      rw [Balances] at hbalances
      omega)
  simpa [hduty, owed] using hend

/-- In a run of clients on a fresh array, at every moment that is not at the end of an operation
that has changed a slot, the size is exact. It is so when any client in it begins, be it a callback,
an operation that a callback performs or what follows, and again when that client has ended or has
panicked. -/
theorem SlotArray.sizeIsExact_of_clients (a : SlotArray) (host : H)
    {programs : List (Program V H α)} (h : ∀ p ∈ programs, a.Client p) (n : ℕ) :
    let start : Thread V H α × Session V H := (.ofPrograms programs, ⟨a.freshMemory, host⟩)
    let now := (Function.uncurry Thread.step)^[n] start
    (now.1.isSettling = false → a.SizeIsExact now.2) ∧
      ∀ {β : Type} (c : Program V H β) (k : β → Program V H α) (rest : List (Program V H α)),
        a.Client c → c.acts = true → now.1.todo = (c >>= k) :: rest →
          a.SizeIsExact now.2 ∧ a.SizeIsExact (c.run now.2).2 := by
  intro start now
  have hnow : now.1.KeepsAlone a now.2 := by
    have hstart : start.1.KeepsAlone a start.2 := by
      refine ⟨.start, sound_ofEntries a, ?_, ?_⟩
      · exact Thread.keeps_of_dutiful (fun p hp => (h p hp).dutiful) _ _ _
      · change (0 : ℤ) + 0 = a.occupied (.ofEntries a.segmentCount : Memory V)
        rw [occupied_ofEntries]
        rfl
    change ((Function.uncurry Thread.step)^[n] start).1.KeepsAlone a
      ((Function.uncurry Thread.step)^[n] start).2
    generalize start = before at hstart
    induction n generalizing before with
    | zero => exact hstart
    | succ n ih => exact ih _ hstart.step
  refine ⟨fun hsettling => sizeIsExact_of_count (hnow.count_eq hsettling), ?_⟩
  intro β c k rest hc hacts htodo
  obtain ⟨-, hs, -⟩ := id hnow
  have hsettling : now.1.isSettling = false := by
    have := hc.not_isSettling hacts hs k rest now.1.answers
    rwa [Thread.isSettling, htodo]
  have hcount := hnow.count_eq hsettling
  exact ⟨sizeIsExact_of_count hcount, sizeIsExact_of_count (hc.count_eq_of_run hs hcount)⟩

/-- A removal whose predicate empties the slot itself and then panics. -/
def nestedRemoval : Program ℕ Unit Attempt :=
  (SlotArray.mk 1).eraseIf 0 fun _ =>
    (SlotArray.mk 1).take 0 >>= fun _ => .panic ⟨.predicate, 0⟩

/-- It leaves an exact size, behind an insertion that has just ended. -/
theorem sizeIsExact_after_nested_panic :
    let now := (Function.uncurry Thread.step)^[7]
      (Thread.ofPrograms [(SlotArray.mk 1).insert 0 5, Attempt.isCommitted <$> nestedRemoval],
        (⟨(SlotArray.mk 1).freshMemory, ()⟩ : Session ℕ Unit))
    ((SlotArray.mk 1).SizeIsExact now.2 ∧
        (SlotArray.mk 1).SizeIsExact (nestedRemoval.run now.2).2) ∧
      now.2.memory.size = 1 ∧ (nestedRemoval.run now.2).2.memory.size = 0 ∧
      (nestedRemoval.run now.2).1 = .error ⟨.predicate, 0⟩ := by
  have hremoval : (SlotArray.mk 1).Client nestedRemoval :=
    .eraseIf 0 fun _ => .bind (.take 0) fun _ => .panic _
  have hclients : ∀ p ∈ [(SlotArray.mk 1).insert 0 5, Attempt.isCommitted <$> nestedRemoval],
      (SlotArray.mk 1).Client p := by
    simp [Client.insert, Client.map, hremoval]
  have hexact := (sizeIsExact_of_clients _ () hclients 7).2 nestedRemoval _ [] hremoval rfl rfl
  exact ⟨hexact, rfl, rfl, rfl⟩

end Nesting

end AtomicSlots
