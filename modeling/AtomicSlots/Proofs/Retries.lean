import AtomicSlots.Proofs.Progress
import AtomicSlots.Proofs.Turns

/-!
# Retry loops around updates

Threads update one occupied slot in retry loops, with predicates that accept everything, and nothing
else changes the slot or the count; their factories may look at anything. An update comes to one
exchange, its bid, and either wins it or finds that another bid was won since it has loaded the
slot. So the value is always what the winners made of it, one after the other, and no update finds
the slot empty. A thread loses at most once for each bid that another thread wins: between two lost
bids it loads the slot again, and what it has loaded is outdated only after somebody else has won.
-/
namespace AtomicSlots

variable {V H : Type}

open Program SlotArray

/-- A retry loop: what it makes of a value, which may depend on how often it was asked before, and
how often it tries at most. -/
structure RetryLoop (V H : Type) where
  factory : ℕ → V → Program V H V
  attempts : ℕ

/-- The loop as a program. It tries again as long as its update is declined. -/
def RetryLoop.program (a : SlotArray) (i : UInt64) (loop : RetryLoop V H) :
    Program V H (List UpdateOutcome) :=
  a.updateRetry i loop.factory (fun _ _ => .done true) loop.attempts

/-- An exchange that an update has come to: its thread, the number of the retry loop, and whether
the exchange took place. -/
structure Bid where
  thread : ℕ
  loop : ℕ
  won : Bool
deriving DecidableEq

namespace Bid

/-- What the update answers. -/
def outcome (bid : Bid) : UpdateOutcome := if bid.won then .updated else .declined

/-- Whether a bid belongs to a loop of a thread. -/
def isOf (k l : ℕ) (bid : Bid) : Bool := bid.thread == k && bid.loop == l

/-- The outcomes of one loop, in order. -/
def outcomes (bids : List Bid) (k l : ℕ) : List UpdateOutcome :=
  (bids.filter (isOf k l)).map outcome

theorem outcomes_append (bids new : List Bid) (k l : ℕ) :
    outcomes (bids ++ new) k l = outcomes bids k l ++ outcomes new k l := by
  rw [outcomes, List.filter_append, List.map_append]
  rfl

theorem outcomes_append_of_not {new : List Bid} {k l : ℕ} (bids : List Bid)
    (h : ∀ bid ∈ new, bid.isOf k l = false) : outcomes (bids ++ new) k l = outcomes bids k l := by
  have hnone : new.filter (isOf k l) = [] := by simpa using h
  rw [outcomes_append, outcomes, outcomes, hnone, List.map_nil, List.append_nil]

theorem isOf_of_outcomes_eq_nil {bids : List Bid} {k l : ℕ} (h : outcomes bids k l = []) {bid : Bid}
    (hbid : bid ∈ bids) : bid.isOf k l = false := by
  have hnone : ∀ bid ∈ bids, ¬ bid.isOf k l = true := by simpa [outcomes] using h
  simpa using hnone bid hbid

theorem length_outcomes (bids : List Bid) (k l : ℕ) :
    (outcomes bids k l).length = bids.countP (isOf k l) := by
  rw [outcomes, List.length_map, List.countP_eq_length_filter]

/-- The bids that a thread has won, or has lost. -/
def countBy (won : Bool) (k : ℕ) (bids : List Bid) : ℕ :=
  bids.countP fun bid => bid.won == won && bid.thread == k

/-- All bids that were won, or were lost. -/
def count (won : Bool) (bids : List Bid) : ℕ := bids.countP fun bid => bid.won == won

/-- What is counted is counted by what it is mapped to. -/
theorem countP_eq_sum {α : Type} {p : α → Bool} (f : α → ℕ) {n : ℕ} {xs : List α}
    (h : ∀ x ∈ xs, p x = true → f x < n) :
    xs.countP p = ∑ k ∈ Finset.range n, xs.countP fun x => p x && f x == k := by
  induction xs with
  | nil => simp
  | cons x rest ih =>
    have hone : ∑ k ∈ Finset.range n, (if (p x && f x == k) = true then 1 else 0) =
        if p x then 1 else 0 := by
      by_cases hp : p x
      · simp [hp, h x List.mem_cons_self hp]
      · simp [hp]
    simp only [List.countP_cons, Finset.sum_add_distrib, hone]
    rw [ih fun y hy => h y (List.mem_cons_of_mem _ hy)]

/-- Each bid belongs to one thread. -/
theorem count_eq_sum {bids : List Bid} {n : ℕ} (h : ∀ bid ∈ bids, bid.thread < n) (won : Bool) :
    count won bids = ∑ k ∈ Finset.range n, countBy won k bids :=
  countP_eq_sum thread fun bid hbid _ => h bid hbid

/-- Each bid that a thread has won belongs to one of its loops. -/
theorem countBy_eq_sum {bids : List Bid} {k n : ℕ}
    (h : ∀ bid ∈ bids, bid.thread = k → bid.loop < n) :
    countBy true k bids = ∑ l ∈ Finset.range n, (outcomes bids k l).count .updated := by
  have hloop : ∀ bid ∈ bids, (bid.won == true && bid.thread == k) = true → bid.loop < n :=
    fun bid hbid hp => h bid hbid (by simpa using (Bool.and_eq_true_iff.mp hp).2)
  rw [countBy, countP_eq_sum loop hloop]
  refine Finset.sum_congr rfl fun l _ => ?_
  rw [outcomes, List.count, List.countP_map, List.countP_filter]
  refine List.countP_congr fun bid _ => ?_
  cases hwon : bid.won <;> simp [outcome, isOf, hwon]

theorem countBy_append (won : Bool) (k : ℕ) (bids : List Bid) (bid : Bid) :
    countBy won k (bids ++ [bid]) =
      countBy won k bids + if bid.won = won ∧ bid.thread = k then 1 else 0 := by
  simp [countBy, List.countP_append, List.countP_singleton]

theorem count_append (won : Bool) (bids : List Bid) (bid : Bid) :
    count won (bids ++ [bid]) = count won bids + if bid.won = won then 1 else 0 := by
  simp [count, List.countP_append, List.countP_singleton]

/-- What the lost bids of each thread and its outdated load, if it has one, are charged to. -/
def Charged (bids : List Bid) (outdated : ℕ → Bool) : Prop :=
  ∀ k, countBy false k bids + countBy true k bids + (outdated k).toNat ≤ count true bids

theorem Charged.of_imp {bids : List Bid} {outdated next : ℕ → Bool} (h : Charged bids outdated)
    (hnext : ∀ k, next k = true → outdated k = true) : Charged bids next := by
  intro k
  have hk := h k
  have hle := hnext k
  generalize outdated k = b at hk hle
  cases hc : next k with
  | false => exact (Nat.le_add_right _ _).trans hk
  | true =>
    rw [hle hc] at hk
    exact hk

/-- A bid that is won can outdate what all other threads have loaded. -/
theorem Charged.won {bids : List Bid} {outdated next : ℕ → Bool} (h : Charged bids outdated)
    {k : ℕ} (l : ℕ) (hk : next k = false) : Charged (bids ++ [⟨k, l, true⟩]) next := by
  intro j
  have hj := h j
  rw [countBy_append, countBy_append, count_append]
  by_cases hjk : k = j
  · subst hjk
    simp [hk]
    omega
  · have hle := (next j).toNat_le
    simp [hjk]
    omega

/-- A bid is lost only with an outdated load, which is gone then. -/
theorem Charged.lost {bids : List Bid} {outdated next : ℕ → Bool} (h : Charged bids outdated)
    {k : ℕ} (l : ℕ) (hk : outdated k = true) (hnext : next k = false)
    (hrest : ∀ j, j ≠ k → next j = outdated j) : Charged (bids ++ [⟨k, l, false⟩]) next := by
  intro j
  have hj := h j
  rw [countBy_append, countBy_append, count_append]
  by_cases hjk : k = j
  · subst hjk
    rw [hk] at hj
    simp [hnext] at hj ⊢
    omega
  · simpa [hjk, hrest j (Ne.symm hjk)] using hj

end Bid

/-- Bids in order take a value to another one: each bid that was won puts what its loop makes of the
value there. -/
inductive Transforms (loops : List (List (RetryLoop V H))) : V → List Bid → V → Prop
  | start (v : V) : Transforms loops v [] v
  | lost {v w : V} {bids : List Bid} {k l : ℕ} (h : Transforms loops v bids w) :
      Transforms loops v (bids ++ [⟨k, l, false⟩]) w
  | won {v w made : V} {bids : List Bid} {k l : ℕ} {loop : RetryLoop V H}
      (h : Transforms loops v bids w) (hloop : loops[k]?.bind (·[l]?) = some loop)
      (hmade : (loop.factory (bids.countP (Bid.isOf k l)) w).MayEnd (.ok made)) :
      Transforms loops v (bids ++ [⟨k, l, true⟩]) made

/-- Each value is one more than the one before, if that is so for whatever a loop makes. -/
theorem Transforms.measure_eq {loops : List (List (RetryLoop V H))} {v w : V} {bids : List Bid}
    (h : Transforms loops v bids w) {measure : V → ℤ}
    (hmade : ∀ list ∈ loops, ∀ loop ∈ list, ∀ call v made,
      (loop.factory call v).MayEnd (.ok made) → measure made = measure v + 1) :
    measure w = measure v + Bid.count true bids := by
  induction h with
  | start => simp [Bid.count]
  | lost _ ih =>
    rw [ih, Bid.count_append]
    simp
  | won _ hloop hend ih =>
    obtain ⟨list, hlist, hloop⟩ := Option.bind_eq_some_iff.mp hloop
    rw [hmade _ (List.mem_of_getElem? hlist) _ (List.mem_of_getElem? hloop) _ _ _ hend, ih,
      Bid.count_append]
    push_cast
    simp
    omega

namespace Pool

variable {α : Type}

/-- The bid for a slot that a thread makes with its next turn. -/
def bid? (a : SlotArray) (i : UInt64) (pool : Pool V H α) (k : ℕ) : Option Bid :=
  match pool.threads[k]? with
  | some ⟨.step (.exchangeIf cell expected _) _ :: _, answers⟩ =>
    if a.cell? pool.session.memory i = some cell then
      some ⟨k, answers.length, sameOccupant (pool.session.memory.content cell) expected⟩
    else
      none
  | _ => none

variable {a : SlotArray} {i : UInt64}

theorem bid?_of_acts {pool : Pool V H α} {k : ℕ} {act : Action V H}
    {next : act.Result → Program V H α} {rest : List (Program V H α)}
    {answers : List (Except Panic α)}
    (hk : pool.threads[k]? = some ⟨.step act next :: rest, answers⟩)
    (hact : ∀ cell expected new, act = .exchangeIf cell expected new →
      a.cell? pool.session.memory i ≠ some cell) : pool.bid? a i k = none := by
  rw [bid?, hk]
  cases act with
  | exchangeIf cell expected new => exact if_neg (hact cell expected new rfl)
  | _ => rfl

theorem bid?_of_exchangeIf {pool : Pool V H α} {k : ℕ} {cell : Cell}
    {expected : Option (Occupant V)} {new : Option V}
    {next : Exchange V → Program V H α} {rest : List (Program V H α)}
    {answers : List (Except Panic α)}
    (hk : pool.threads[k]? = some ⟨.step (.exchangeIf cell expected new) next :: rest, answers⟩)
    (hc : a.cell? pool.session.memory i = some cell) : pool.bid? a i k =
      some ⟨k, answers.length, sameOccupant (pool.session.memory.content cell) expected⟩ := by
  rw [bid?, hk]
  exact if_pos hc

theorem bid?_of_end {pool : Pool V H α} {k : ℕ} {answer : Except Panic α}
    {rest : List (Program V H α)} {answers : List (Except Panic α)}
    (hk : pool.threads[k]? = some ⟨.ofEnd answer :: rest, answers⟩) :
    pool.bid? a i k = none := by
  rw [bid?, hk]
  cases answer <;> rfl

theorem bid?_of_rests {pool : Pool V H α} {k : ℕ}
    (h : ∀ thread, pool.threads[k]? = some thread → thread.todo = []) :
    pool.bid? a i k = none := by
  rw [bid?]
  cases hk : pool.threads[k]? with
  | none => rfl
  | some thread =>
    obtain ⟨todo, answers⟩ := thread
    obtain rfl : todo = [] := h _ hk
    rfl

/-- The bids along a schedule. -/
def bids [Journal H] (a : SlotArray) (i : UInt64) (pool : Pool V H α) : List ℕ → List Bid
  | [] => []
  | k :: schedule => (pool.bid? a i k).toList ++ (pool.step k).bids a i schedule

end Pool

/-! Programs that spare a slot. -/

/-- What others may do while a slot is updated: no exchange on its cell, nothing that changes its
occupant, and nothing that changes the count. -/
def Sparing (a : SlotArray) (i : UInt64) : Protocol V H Unit := fun _ act m n _ =>
  (∀ cell expected new, act = .exchangeIf cell expected new → a.cell? m i ≠ some cell) ∧
    a.occupant? n i = a.occupant? m i ∧ n.count = m.count

theorem Sparing.reads (a : SlotArray) (i : UInt64) :
    (Sparing a i : Protocol V H Unit).Reads () :=
  ⟨fun _ _ => ⟨nofun, rfl, rfl⟩, fun _ _ => ⟨nofun, rfl, rfl⟩, fun _ => ⟨nofun, rfl, rfl⟩⟩

/-- The program may look at anything, and may change other slots as far as the count stays. -/
abbrev Program.Spares [Journal H] {α : Type} (a : SlotArray) (i : UInt64) (p : Program V H α) :
    Prop := p.ComesToRest a (Sparing a i) ()

namespace Program

variable [Journal H] {α : Type} {a : SlotArray} {i : UInt64}

theorem HandsOff.spares {p : Program V H α} (h : p.HandsOff) : p.Spares a i := by
  intro m
  refine (h.follows fun act n hact => ⟨?_, rfl, rfl⟩).mono fun _ _ _ _ _ => rfl
  intro cell expected new h
  rw [h] at hact
  cases hact

/-- A program that spares a slot comes to one of its ends and leaves a protocol where it was, if
that allows what spares the slot. -/
theorem Spares.follows {G : Type} {R : Protocol V H G} {g : G} {p : Program V H α} {m : Memory V}
    (h : p.Spares a i) (hspare : ∀ act n n', Sparing a i () act n n' () → R g act n n' g) :
    p.Follows a R (fun r g' _ => g' = g ∧ p.MayEnd r) g m := by
  replace h := h m
  induction p generalizing m with
  | done x => exact ⟨rfl, .done x⟩
  | panic reason => exact ⟨rfl, .panic reason⟩
  | step act next ih =>
    intro s hl hs
    obtain ⟨hact, _, hstep, hnext⟩ := h s hl hs
    refine ⟨hact, g, hspare _ _ _ hstep, (ih _ hnext).mono ?_⟩
    exact fun r g' _ _ hend => ⟨hend.1, .step _ hend.2⟩

end Program

/-! A retry loop, seen from inside. -/

/-- How far a loop has come: the outcomes of its updates, latest first, and the occupant that the
update under way has loaded. -/
structure Attempts (V : Type) where
  outcomes : List UpdateOutcome
  seen : Option (Occupant V)

namespace Attempts

def start : Attempts V := ⟨[], none⟩

/-- What one action can mean to a loop. -/
inductive Advances (a : SlotArray) (i : UInt64) (factory : ℕ → V → Program V H V) :
    Protocol V H (Attempts V)
  | idles {attempts : Attempts V} {act : Action V H} {m n : Memory V}
      (h : Sparing a i () act m n ()) : Advances a i factory attempts act m n attempts
  | looks {outcomes : List UpdateOutcome} {m : Memory V} {cell : Cell} {o : Occupant V}
      (ho : a.occupant? m i = some o) :
      Advances a i factory ⟨outcomes, none⟩ (.load cell) m m ⟨outcomes, some o⟩
  | wins {outcomes : List UpdateOutcome} {m : Memory V} {cell : Cell} {o : Occupant V} {made : V}
      (hc : a.cell? m i = some cell) (ho : a.occupant? m i = some o)
      (hmade : (factory outcomes.length o.value).MayEnd (.ok made)) :
      Advances a i factory ⟨outcomes, some o⟩ (.exchangeIf cell (some o) (some made)) m
        (m.store cell (some made)) ⟨.updated :: outcomes, none⟩
  | loses {outcomes : List UpdateOutcome} {m : Memory V} {cell : Cell} {o p : Occupant V}
      {made : Option V} (hc : a.cell? m i = some cell) (hp : a.occupant? m i = some p)
      (hne : p.stamp ≠ o.stamp) :
      Advances a i factory ⟨outcomes, some o⟩ (.exchangeIf cell (some o) made) m m
        ⟨.declined :: outcomes, none⟩
  | misses {attempts next : Attempts V} {act : Action V H} {m : Memory V}
      (h : a.occupant? m i = none) : Advances a i factory attempts act m m next

/-- How a loop ends: with the outcomes of its updates, or with a panic in an update behind others
that were all declined. -/
inductive Ends : Except Panic (List UpdateOutcome) → Attempts V → Prop
  | answers (outcomes : List UpdateOutcome) : Ends (.ok outcomes.reverse) ⟨outcomes, none⟩
  | panics (reason : Panic) {attempts : Attempts V} (h : .updated ∉ attempts.outcomes) :
      Ends (.error reason) attempts

/-- What an update that comes behind others adds to the outcomes. -/
def Adds (outcomes : List UpdateOutcome) : Except Panic Attempt → Attempts V → Prop
  | .ok attempt, next => attempt ≠ .rejected ∧ next = ⟨.ofAttempt attempt :: outcomes, none⟩
  | .error _, next => next.outcomes = outcomes

variable [Journal H] {a : SlotArray} {i : UInt64} {factory : ℕ → V → Program V H V} {m : Memory V}

theorem follows_update (hi : i < a.capacity) (hf : ∀ call v, (factory call v).Spares a i)
    (outcomes : List UpdateOutcome) :
    (a.update i (factory outcomes.length) fun _ => .done true).Follows a (Advances a i factory)
      (fun answer attempts _ => Adds outcomes answer attempts) ⟨outcomes, none⟩ m := by
  rw [SlotArray.update, follows_map]
  refine follows_access (by decide) (fun e n => .idles ((Sparing.reads a i).loadEntry e n))
    (fun hle => absurd hi (UInt64.not_lt.mpr hle)) ?_ ?_
  · intro n _ _ _ hc
    exact ⟨⟨.empty :: outcomes, none⟩, .misses (occupant?_of_cell?_eq_none hc), by decide, rfl⟩
  intro n cell _ _ hc
  -- what the cell holds is what the slot holds
  have hslot : ∀ {k : Memory V}, n.Later k → a.cell? k i = some cell ∧
      a.occupant? k i = k.content cell := fun hl =>
    ⟨cell?_later hl hc, occupant?_of_cell? (cell?_later hl hc)⟩
  refine Cell.follows_revise ⟨i, hc⟩ ?_ ?_
  · intro k hl _ ho
    exact ⟨⟨.empty :: outcomes, none⟩, .misses ((hslot hl).2.trans ho), by decide, rfl⟩
  intro k o hl _ ho
  refine ⟨_, .looks ((hslot hl).2.trans ho), ?_⟩
  apply follows_map.mpr
  refine ((hf outcomes.length o.value).follows fun _ _ _ => .idles).mono ?_
  rintro (reason | made) attempts n₁ hl₁ ⟨rfl, hmade⟩
  · exact rfl
  intro n₂ hl₂ _
  obtain ⟨hc₂, ho₂⟩ := hslot (hl.trans (hl₁.trans hl₂))
  refine ⟨fun hsame => ?_, fun hempty => ?_, fun p hp hne => ?_⟩
  · refine ⟨_, .wins hc₂ (ho₂.trans hsame) hmade, fun n₃ _ _ => ?_⟩
    exact ⟨_, .idles ⟨(fun _ _ _ h => by cases h), rfl, rfl⟩, by decide, rfl⟩
  · exact ⟨⟨.empty :: outcomes, none⟩, .misses (ho₂.trans hempty), by decide, rfl⟩
  · exact ⟨_, .loses hc₂ (ho₂.trans hp) hne, by decide, rfl⟩

theorem follows_go (hi : i < a.capacity) (hf : ∀ call v, (factory call v).Spares a i) (n asked : ℕ)
    {outcomes : List UpdateOutcome} (h : .updated ∉ outcomes) :
    (updateRetry.go a i factory (fun _ _ => .done true) n outcomes.length asked outcomes).Follows a
      (Advances a i factory) (fun answer attempts _ => Ends answer attempts)
      ⟨outcomes, none⟩ m := by
  induction n generalizing asked outcomes m with
  | zero => exact .answers outcomes
  | succ n ih =>
    rw [updateRetry.go, follows_bind]
    refine (follows_update hi hf outcomes).mono ?_
    rintro (reason | attempt) attempts k _ hadds
    · have hsame : attempts.outcomes = outcomes := hadds
      exact .panics reason (by rwa [hsame])
    · obtain ⟨hnot, rfl⟩ := hadds
      cases attempt with
      | rejected => exact absurd rfl hnot
      | absent | vacated | committed => exact .answers _
      | replaced =>
        have hnext : .updated ∉ UpdateOutcome.declined :: outcomes := by simpa using h
        exact ih (asked + 1) hnext

end Attempts

/-- A retry loop comes to bids, and ends accordingly. -/
theorem RetryLoop.follows [Journal H] {a : SlotArray} {i : UInt64} (hi : i < a.capacity)
    {loop : RetryLoop V H} (hf : ∀ call v, (loop.factory call v).Spares a i) (m : Memory V) :
    (loop.program a i).Follows a (Attempts.Advances a i loop.factory)
      (fun answer attempts _ => Attempts.Ends answer attempts) .start m :=
  Attempts.follows_go hi hf loop.attempts 0 List.not_mem_nil

/-! Threads that run through lists of retry loops. -/

section Threads

variable [Journal H] {a : SlotArray} {i : UInt64} {list : List (RetryLoop V H)} {k : ℕ}
  {bids : List Bid} {attempts : Attempts V} {m : Memory V}

/-- How a thread stands after these bids: it is in one of its loops, which has come so far, and all
loops have the outcomes of their bids. -/
structure Thread.Retries (a : SlotArray) (i : UInt64) (list : List (RetryLoop V H)) (k : ℕ)
    (bids : List Bid) (attempts : Attempts V) (m : Memory V)
    (thread : Thread V H (List UpdateOutcome)) : Prop where
  current : ∀ p rest, thread.todo = p :: rest → ∃ loop,
    list[thread.answers.length]? = some loop ∧
    p.Follows a (Attempts.Advances a i loop.factory)
      (fun answer attempts _ => Attempts.Ends answer attempts) attempts m ∧
    rest = (list.drop (thread.answers.length + 1)).map (·.program a i)
  idle : thread.todo = [] → attempts.outcomes = []
  so_far : attempts.outcomes.reverse = Bid.outcomes bids k thread.answers.length
  later : ∀ l, thread.answers.length < l → Bid.outcomes bids k l = []
  answered : ∀ l answer, thread.answers.reverse[l]? = some answer →
    answer = .ok (Bid.outcomes bids k l) ∨
      ∃ reason, answer = .error reason ∧ .updated ∉ Bid.outcomes bids k l

namespace Thread.Retries

variable {rest : List (Program V H (List UpdateOutcome))}
  {answers : List (Except Panic (List UpdateOutcome))}

/-- The bids of another thread make no difference. -/
theorem of_other {thread : Thread V H (List UpdateOutcome)}
    (h : thread.Retries a i list k bids attempts m) {new : List Bid}
    (hnew : ∀ bid ∈ new, bid.thread ≠ k) {n : Memory V} (hl : m.Later n) :
    thread.Retries a i list k (bids ++ new) attempts n := by
  have hsame : ∀ l, Bid.outcomes (bids ++ new) k l = Bid.outcomes bids k l := fun l =>
    Bid.outcomes_append_of_not bids fun bid hbid => by simp [Bid.isOf, hnew bid hbid]
  refine ⟨fun p rest hp => ?_, h.idle, ?_, ?_, ?_⟩
  · obtain ⟨loop, hloop, hfollows, hrest⟩ := h.current p rest hp
    exact ⟨loop, hloop, hfollows.later hl, hrest⟩
  · rw [hsame]
    exact h.so_far
  · intro l hl
    rw [hsame]
    exact h.later l hl
  · intro l answer hanswer
    rw [hsame]
    exact h.answered l answer hanswer

/-- An action of the thread, which may be a bid. -/
theorem acts {act : Action V H} {next : act.Result → Program V H (List UpdateOutcome)}
    (h : Thread.Retries a i list k bids attempts m ⟨.step act next :: rest, answers⟩)
    {new : List Bid} (hnew : ∀ bid ∈ new, bid.isOf k answers.length = true)
    {attempts' : Attempts V}
    (hso_far : attempts'.outcomes.reverse = attempts.outcomes.reverse ++ new.map Bid.outcome)
    {n : Memory V} {r : act.Result} {loop : RetryLoop V H}
    (hloop : list[answers.length]? = some loop)
    (hnext : (next r).Follows a (Attempts.Advances a i loop.factory)
      (fun answer attempts _ => Attempts.Ends answer attempts) attempts' n) :
    Thread.Retries a i list k (bids ++ new) attempts' n ⟨next r :: rest, answers⟩ := by
  have hsame : ∀ l, l ≠ answers.length →
      Bid.outcomes (bids ++ new) k l = Bid.outcomes bids k l := by
    intro l hl
    refine Bid.outcomes_append_of_not bids fun bid hbid => ?_
    have hof := hnew bid hbid
    simp only [Bid.isOf, Bool.and_eq_true, beq_iff_eq] at hof
    simp [Bid.isOf, hof.2, Ne.symm hl]
  refine ⟨?_, fun h => (by cases h), ?_, fun l hl => ?_, fun l answer hanswer => ?_⟩
  · rintro p rest ⟨⟩
    obtain ⟨_, -, -, hrest⟩ := h.current _ _ rfl
    exact ⟨loop, hloop, hnext, hrest⟩
  · have hall : new.filter (Bid.isOf k answers.length) = new :=
      List.filter_eq_self.mpr hnew
    rw [hso_far, h.so_far, Bid.outcomes_append]
    congr 1
    rw [Bid.outcomes, hall]
  · rw [hsame l (Nat.ne_of_gt hl)]
    exact h.later l hl
  · have hlt : l < answers.length := by
      simpa using (List.getElem?_eq_some_iff.mp hanswer).1
    rw [hsame l (Nat.ne_of_lt hlt)]
    exact h.answered l answer hanswer

/-- When a loop returns, the next one begins. -/
theorem returns {answer : Except Panic (List UpdateOutcome)} (hi : i < a.capacity)
    (hf : ∀ loop ∈ list, ∀ call v, (loop.factory call v).Spares a i)
    (h : Thread.Retries a i list k bids attempts m ⟨.ofEnd answer :: rest, answers⟩) :
    Thread.Retries a i list k bids .start m ⟨rest, answer :: answers⟩ := by
  obtain ⟨loop, hloop, hend, hrest⟩ := h.current _ _ rfl
  rw [follows_ofEnd] at hend
  refine ⟨?_, fun _ => rfl, ?_, fun l hl => h.later l (by simp at hl ⊢; omega),
    fun l earlier hl => ?_⟩
  · rintro p rest' rfl
    obtain ⟨following, tail, hdrop, rfl, rfl⟩ := List.map_eq_cons_iff.mp hrest.symm
    have hget : list[answers.length + 1]? = some following := by
      rw [← List.head?_drop, hdrop, List.head?_cons]
    refine ⟨following, hget, following.follows hi (hf _ (List.mem_of_getElem? hget)) m, ?_⟩
    rw [List.length_cons, ← List.tail_drop, hdrop, List.tail_cons]
  · have hnone := h.later (answers.length + 1) (by simp)
    simpa [Attempts.start] using hnone.symm
  · rw [List.reverse_cons, List.getElem?_append] at hl
    split at hl
    · exact h.answered l earlier hl
    · rename_i hle
      obtain ⟨rfl, rfl⟩ : answers.length = l ∧ answer = earlier := by
        rw [List.getElem?_singleton, List.length_reverse] at hl
        rw [List.length_reverse] at hle
        split at hl
        · exact ⟨by omega, Option.some.inj hl⟩
        · cases hl
      have hso_far := h.so_far
      cases hend with
      | answers outcomes => exact .inl (congrArg Except.ok hso_far)
      | panics reason hnot =>
        refine .inr ⟨reason, rfl, ?_⟩
        rw [← hso_far]
        simpa using hnot

end Thread.Retries

/-- Whether the occupant that an update has loaded is not in the slot any more. -/
def Attempts.isOutdated (a : SlotArray) (i : UInt64) (m : Memory V) (attempts : Attempts V) :
    Bool :=
  attempts.seen.any fun o => (a.occupant? m i).map Occupant.stamp != some o.stamp

/-- The invariant of threads that retry on a slot which is occupied at the start. Each lost bid of a
thread, and an outdated load of it, is charged to a bid that another thread has won. -/
structure Retried (a : SlotArray) (i : UInt64) (loops : List (List (RetryLoop V H)))
    (start : Memory V) (pool : Pool V H (List UpdateOutcome)) (bids : List Bid)
    (attempts : ℕ → Attempts V) : Prop where
  sound : a.Sound pool.session.memory
  length_eq : pool.threads.length = loops.length
  count_eq : pool.session.memory.count = start.count
  transforms : ∃ v o, a.value? start i = some v ∧
    a.occupant? pool.session.memory i = some o ∧ Transforms loops v bids o.value
  threads : ∀ (k : ℕ) (thread : Thread V H (List UpdateOutcome)),
    pool.threads[k]? = some thread → ∃ list, loops[k]? = some list ∧
      thread.Retries a i list k bids (attempts k) pool.session.memory
  thread_lt : ∀ bid ∈ bids, bid.thread < loops.length
  charged : Bid.Charged bids fun k => (attempts k).isOutdated a i pool.session.memory

namespace Retried

variable {loops : List (List (RetryLoop V H))} {start : Memory V}
  {pool : Pool V H (List UpdateOutcome)} {attempts : ℕ → Attempts V}

/-- The threads after one of them has moved on, and with it the memory and the bids. -/
theorem threads_set (h : Retried a i loops start pool bids attempts) (new : List Bid)
    {n : Memory V} {thread : Thread V H (List UpdateOutcome)} {next : Attempts V}
    (hnew : ∀ bid ∈ new, bid.thread = k) (hl : pool.session.memory.Later n)
    (hthread : ∃ list, loops[k]? = some list ∧
      thread.Retries a i list k (bids ++ new) next n) (l : ℕ)
    (other : Thread V H (List UpdateOutcome))
    (hother : (pool.threads.set k thread)[l]? = some other) : ∃ list, loops[l]? = some list ∧
      other.Retries a i list l (bids ++ new) (Function.update attempts k next l) n := by
  by_cases hlk : l = k
  · subst hlk
    rw [List.getElem?_set_self'] at hother
    obtain ⟨-, -, rfl⟩ := Option.map_eq_some_iff.mp hother
    rwa [Function.update_self]
  · rw [List.getElem?_set_ne (Ne.symm hlk)] at hother
    rw [Function.update_of_ne hlk]
    obtain ⟨list, hlist, hretries⟩ := h.threads l other hother
    exact ⟨list, hlist, hretries.of_other (fun bid hbid => hnew bid hbid ▸ Ne.symm hlk) hl⟩

/-- A thread has moved on, with bids of its own. -/
theorem moves (h : Retried a i loops start pool bids attempts) (new : List Bid) {s : Session V H}
    {thread : Thread V H (List UpdateOutcome)} {next : Attempts V} (hs : a.Sound s.memory)
    (hl : pool.session.memory.Later s.memory)
    (hcount : s.memory.count = pool.session.memory.count) (hnew : ∀ bid ∈ new, bid.thread = k)
    (hthread : ∃ list, loops[k]? = some list ∧
      thread.Retries a i list k (bids ++ new) next s.memory)
    (htransforms : ∃ v o, a.value? start i = some v ∧ a.occupant? s.memory i = some o ∧
      Transforms loops v (bids ++ new) o.value)
    (hcharged : Bid.Charged (bids ++ new) fun l =>
      (Function.update attempts k next l).isOutdated a i s.memory) :
    Retried a i loops start ⟨s, pool.threads.set k thread⟩ (bids ++ new)
      (Function.update attempts k next) where
  sound := hs
  length_eq := by simpa using h.length_eq
  count_eq := hcount.trans h.count_eq
  transforms := htransforms
  threads := h.threads_set new hnew hl hthread
  thread_lt bid hbid := by
    rcases List.mem_append.mp hbid with hbid | hbid
    · exact h.thread_lt bid hbid
    · obtain ⟨list, hlist, -⟩ := hthread
      rw [hnew bid hbid]
      exact (List.getElem?_eq_some_iff.mp hlist).1
  charged := hcharged

/-- A thread has moved on without a bid, and the slot is as it was. -/
theorem moves_quietly (h : Retried a i loops start pool bids attempts) {s : Session V H}
    {thread : Thread V H (List UpdateOutcome)} {next : Attempts V} (hs : a.Sound s.memory)
    (hl : pool.session.memory.Later s.memory)
    (hcount : s.memory.count = pool.session.memory.count)
    (hslot : a.occupant? s.memory i = a.occupant? pool.session.memory i)
    (hthread : ∃ list, loops[k]? = some list ∧ thread.Retries a i list k bids next s.memory)
    (hnext : next.isOutdated a i pool.session.memory = true →
      (attempts k).isOutdated a i pool.session.memory = true) :
    Retried a i loops start ⟨s, pool.threads.set k thread⟩ bids
      (Function.update attempts k next) := by
  obtain ⟨v, o, hv, ho, htransforms⟩ := h.transforms
  rw [← List.append_nil bids] at hthread htransforms ⊢
  refine h.moves [] hs hl hcount nofun hthread ⟨v, o, hv, hslot.trans ho, htransforms⟩ ?_
  rw [List.append_nil]
  refine h.charged.of_imp fun l hl => ?_
  rw [Attempts.isOutdated, hslot, ← Attempts.isOutdated] at hl
  by_cases hlk : l = k
  · subst hlk
    rw [Function.update_self] at hl
    exact hnext hl
  · rwa [Function.update_of_ne hlk] at hl

/-- A loop returns. -/
theorem returns (h : Retried a i loops start pool bids attempts) (hi : i < a.capacity)
    (hf : ∀ list ∈ loops, ∀ loop ∈ list, ∀ call v, (loop.factory call v).Spares a i)
    {answer : Except Panic (List UpdateOutcome)} {rest : List (Program V H (List UpdateOutcome))}
    {answers : List (Except Panic (List UpdateOutcome))}
    (hk : pool.threads[k]? = some ⟨.ofEnd answer :: rest, answers⟩) :
    Retried a i loops start ⟨pool.session, pool.threads.set k ⟨rest, answer :: answers⟩⟩
      bids (Function.update attempts k .start) := by
  obtain ⟨list, hlist, hretries⟩ := h.threads k _ hk
  have hnext := hretries.returns hi (hf list (List.mem_of_getElem? hlist))
  exact h.moves_quietly h.sound (.refl _) rfl rfl ⟨list, hlist, hnext⟩ nofun

/-- A bid takes place on the occupant that was loaded, which is still in the slot. -/
theorem wins (h : Retried a i loops start pool bids attempts) {cell : Cell} {o : Occupant V}
    {made : V} {l : ℕ} {loop : RetryLoop V H} {s : Session V H}
    {thread : Thread V H (List UpdateOutcome)} {next : Attempts V}
    (hc : a.cell? pool.session.memory i = some cell)
    (ho : a.occupant? pool.session.memory i = some o)
    (hn : s.memory = pool.session.memory.store cell (some made))
    (hloop : loops[k]?.bind (·[l]?) = some loop)
    (hmade : (loop.factory (bids.countP (Bid.isOf k l)) o.value).MayEnd (.ok made))
    (hthread : ∃ list, loops[k]? = some list ∧
      thread.Retries a i list k (bids ++ [⟨k, l, true⟩]) next s.memory) (hseen : next.seen = none) :
    Retried a i loops start ⟨s, pool.threads.set k thread⟩ (bids ++ [⟨k, l, true⟩])
      (Function.update attempts k next) := by
  obtain ⟨v, p, hv, hp, htransforms⟩ := h.transforms
  obtain rfl : o = p := Option.some.inj (ho.symm.trans hp)
  have hstored : a.occupant? s.memory i = some ⟨pool.session.memory.stamps, made⟩ := by
    rw [hn]
    exact occupant?_store_self h.sound hc (some made)
  refine h.moves _ ?_ ?_ ?_ (by simp) hthread ⟨v, _, hv, hstored, htransforms.won hloop hmade⟩
    (h.charged.won _ ?_)
  · rw [hn]
    exact h.sound.store hc (some made)
  · rw [hn]
    exact Memory.later_store (h.sound.hasCell hc) (some made)
  · rw [hn, Memory.count_store]
  · rw [Function.update_self, Attempts.isOutdated, hseen]
    rfl

/-- A bid is lost because the occupant that was loaded is outdated. -/
theorem loses (h : Retried a i loops start pool bids attempts) {o p : Occupant V} {l : ℕ}
    {s : Session V H} {thread : Thread V H (List UpdateOutcome)} {next : Attempts V}
    (ho : (attempts k).seen = some o) (hp : a.occupant? pool.session.memory i = some p)
    (hne : p.stamp ≠ o.stamp) (hn : s.memory = pool.session.memory)
    (hthread : ∃ list, loops[k]? = some list ∧
      thread.Retries a i list k (bids ++ [⟨k, l, false⟩]) next s.memory)
    (hseen : next.seen = none) :
    Retried a i loops start ⟨s, pool.threads.set k thread⟩ (bids ++ [⟨k, l, false⟩])
      (Function.update attempts k next) := by
  obtain ⟨v, p', hv, hp', htransforms⟩ := h.transforms
  refine h.moves _ (hn ▸ h.sound) (hn ▸ .refl _) (by rw [hn]) (by simp) hthread
    ⟨v, p', hv, by rw [hn, hp'], htransforms.lost⟩ (h.charged.lost _ ?_ ?_ fun j hj => ?_)
  · simpa [Attempts.isOutdated, ho, hp] using hne
  · rw [Function.update_self, Attempts.isOutdated, hseen]
    rfl
  · rw [Function.update_of_ne hj, hn]

theorem acts (h : Retried a i loops start pool bids attempts) {act : Action V H}
    {next : act.Result → Program V H (List UpdateOutcome)}
    {rest : List (Program V H (List UpdateOutcome))}
    {answers : List (Except Panic (List UpdateOutcome))}
    (hk : pool.threads[k]? = some ⟨.step act next :: rest, answers⟩) :
    ∃ attempts, Retried a i loops start ⟨(act.perform pool.session).2,
        pool.threads.set k ⟨next (act.perform pool.session).1 :: rest, answers⟩⟩
      (bids ++ (pool.bid? a i k).toList) attempts := by
  obtain ⟨list, hlist, hretries⟩ := h.threads k _ hk
  obtain ⟨loop, hloop, hfollows, -⟩ := hretries.current _ _ rfl
  obtain ⟨hadmits, moved, hadvances, hnext⟩ := hfollows pool.session (.refl _) h.sound
  obtain ⟨hs, hl⟩ := h.sound.perform hadmits
  generalize hnow : attempts k = now at hadvances hretries
  generalize act.perform pool.session = done at hadvances hnext hs hl
  obtain ⟨r, s⟩ := done
  generalize hn : s.memory = n at hadvances
  -- the thread after bids of its own
  have hthread : ∀ new : List Bid, (∀ bid ∈ new, bid.isOf k answers.length = true) →
      moved.outcomes.reverse = now.outcomes.reverse ++ new.map Bid.outcome →
      ∃ list, loops[k]? = some list ∧
        Thread.Retries a i list k (bids ++ new) moved s.memory ⟨next r :: rest, answers⟩ :=
    fun new hnew hso_far => ⟨list, hlist, hretries.acts hnew hso_far hloop hnext⟩
  have hquiet : moved.outcomes = now.outcomes → ∃ list, loops[k]? = some list ∧
      Thread.Retries a i list k bids moved s.memory ⟨next r :: rest, answers⟩ := fun hsame => by
    have hsilent := hthread [] (by simp) (by simp [hsame])
    rwa [List.append_nil] at hsilent
  cases hadvances with
  | idles hspare =>
    obtain ⟨hact, hslot, hcount⟩ := hspare
    rw [Pool.bid?_of_acts hk hact, Option.toList_none, List.append_nil]
    exact ⟨_, h.moves_quietly hs hl (by rw [hn, hcount]) (by rw [hn, hslot]) (hquiet rfl)
      fun hold => hnow ▸ hold⟩
  | looks hseen =>
    rw [Pool.bid?_of_acts hk nofun, Option.toList_none, List.append_nil]
    refine ⟨_, h.moves_quietly hs hl (by rw [hn]) (by rw [hn]) (hquiet rfl) fun hold => ?_⟩
    simp [Attempts.isOutdated, hseen] at hold
  | wins hc hseen hmade =>
    rename_i outcomes cell o made
    have hcontent := occupant?_of_cell? hc
    rw [hseen] at hcontent
    rw [Pool.bid?_of_exchangeIf hk hc, ← hcontent, Memory.sameOccupant_self, Option.toList_some]
    have hcall : outcomes.length = bids.countP (Bid.isOf k answers.length) := by
      rw [← Bid.length_outcomes, ← hretries.so_far, List.length_reverse]
    rw [hcall] at hmade
    exact ⟨_, h.wins hc hseen hn (by rw [hlist]; exact hloop) hmade
      (hthread [⟨k, answers.length, true⟩] (by simp [Bid.isOf]) (by simp [Bid.outcome])) rfl⟩
  | loses hc hp hne =>
    rename_i outcomes cell o p made
    have hcontent := occupant?_of_cell? hc
    rw [hp] at hcontent
    have hdiffer : sameOccupant (some p) (some o) = false := by
      simpa [sameOccupant] using hne
    rw [Pool.bid?_of_exchangeIf hk hc, ← hcontent, hdiffer, Option.toList_some]
    exact ⟨_, h.loses (by rw [hnow]) hp hne hn
      (hthread [⟨k, answers.length, false⟩] (by simp [Bid.isOf]) (by simp [Bid.outcome])) rfl⟩
  | misses hmissing =>
    obtain ⟨-, o, -, ho, -⟩ := h.transforms
    rw [ho] at hmissing
    cases hmissing

/-- Every turn of every thread keeps the invariant. -/
theorem step (h : Retried a i loops start pool bids attempts) (hi : i < a.capacity)
    (hf : ∀ list ∈ loops, ∀ loop ∈ list, ∀ call v, (loop.factory call v).Spares a i) (k : ℕ) :
    ∃ attempts, Retried a i loops start (pool.step k) (bids ++ (pool.bid? a i k).toList)
      attempts := by
  generalize hstep : pool.step k = stepped
  cases hstep ▸ pool.turn k with
  | rests hrests =>
    rw [Pool.bid?_of_rests hrests, Option.toList_none, List.append_nil]
    exact ⟨attempts, h⟩
  | returns answer hk =>
    rw [Pool.bid?_of_end hk, Option.toList_none, List.append_nil]
    exact ⟨_, h.returns hi hf hk⟩
  | acts hk => exact h.acts hk

theorem run (h : Retried a i loops start pool bids attempts) (hi : i < a.capacity)
    (hf : ∀ list ∈ loops, ∀ loop ∈ list, ∀ call v, (loop.factory call v).Spares a i)
    (schedule : List ℕ) :
    ∃ attempts, Retried a i loops start (pool.run schedule) (bids ++ pool.bids a i schedule)
      attempts := by
  induction schedule generalizing pool bids attempts with
  | nil =>
    rw [Pool.bids, List.append_nil]
    exact ⟨attempts, h⟩
  | cons k schedule ih =>
    obtain ⟨attempts', h'⟩ := h.step hi hf k
    obtain ⟨last, hlast⟩ := ih h'
    rw [List.append_assoc] at hlast
    exact ⟨last, hlast⟩

end Retried

/-- Threads in front of their retry loops. -/
def Pool.ofRetryLoops (a : SlotArray) (i : UInt64) (start : Session V H)
    (loops : List (List (RetryLoop V H))) : Pool V H (List UpdateOutcome) :=
  ⟨start, loops.map fun list => .ofPrograms (list.map (·.program a i))⟩

theorem Retried.start {start : Session V H} (hs : a.Sound start.memory) {v : V}
    (hv : a.value? start.memory i = some v) {loops : List (List (RetryLoop V H))}
    (hf : ∀ list ∈ loops, ∀ loop ∈ list, ∀ call v, (loop.factory call v).Spares a i) :
    Retried a i loops start.memory (.ofRetryLoops a i start loops) [] fun _ => .start := by
  obtain ⟨o, ho, rfl⟩ := Option.map_eq_some_iff.mp hv
  have hi := lt_of_occupant? ho
  refine ⟨hs, by simp [Pool.ofRetryLoops], rfl, ⟨_, o, hv, ho, .start _⟩, fun k thread hk => ?_,
    fun bid hbid => (by cases hbid), fun k => le_rfl⟩
  rw [Pool.ofRetryLoops, List.getElem?_map, Option.map_eq_some_iff] at hk
  obtain ⟨list, hlist, rfl⟩ := hk
  refine ⟨list, hlist, fun p rest hp => ?_, fun _ => rfl, rfl, fun _ _ => rfl,
    fun l answer hl => ?_⟩
  · obtain ⟨loop, tail, rfl, rfl, rfl⟩ := List.map_eq_cons_iff.mp hp
    refine ⟨loop, rfl, loop.follows hi ?_ _, rfl⟩
    exact hf _ (List.mem_of_getElem? hlist) loop List.mem_cons_self
  · simp [Thread.ofPrograms] at hl

/-! What comes of it. -/

/-- A sum over the elements of a list, by their places. -/
theorem sum_map_eq_sum_range {α : Type} {f : α → ℕ} {g : ℕ → ℕ} (xs : List α)
    (h : ∀ k x, xs[k]? = some x → f x = g k) :
    (xs.map f).sum = ∑ k ∈ Finset.range xs.length, g k := by
  induction xs using List.reverseRecOn with
  | nil => rfl
  | append_singleton xs x ih =>
    have hlast : f x = g xs.length := h _ _ (by simp)
    have hrest := ih fun k y hy => h k y (by
      rw [List.getElem?_append_left (List.getElem?_eq_some_iff.mp hy).1, hy])
    simp [Finset.sum_range_succ, hlast, hrest]

/-- What the loops of a thread have answered, except those that panicked. -/
theorem count_flatten_filterMap (answers : List (Except Panic (List UpdateOutcome))) :
    (answers.filterMap Except.toOption).flatten.count .updated =
      (answers.map fun answer => (answer.toOption.getD []).count .updated).sum := by
  induction answers with
  | nil => rfl
  | cons answer rest ih =>
    cases answer with
    | error reason => exact ih.trans (Nat.zero_add _).symm
    | ok outcomes => simpa [Except.toOption] using ih

/-- A thread with nothing left to do has answered for all the bids that it has won. -/
theorem Thread.Retries.count_updated {thread : Thread V H (List UpdateOutcome)}
    (h : thread.Retries a i list k bids attempts m) (hidle : thread.todo = []) :
    (thread.answers.reverse.filterMap Except.toOption).flatten.count .updated =
      Bid.countBy true k bids := by
  have hlast : Bid.outcomes bids k thread.answers.length = [] := by
    rw [← h.so_far, h.idle hidle, List.reverse_nil]
  have hlt : ∀ bid ∈ bids, bid.thread = k → bid.loop < thread.answers.length := by
    intro bid hbid hk
    by_contra hle
    have hnone : Bid.outcomes bids k bid.loop = [] := by
      rcases Nat.eq_or_lt_of_le (Nat.le_of_not_lt hle) with heq | hgt
      · rwa [← heq]
      · exact h.later _ hgt
    have hof := Bid.isOf_of_outcomes_eq_nil hnone hbid
    simp [Bid.isOf, hk] at hof
  rw [count_flatten_filterMap, Bid.countBy_eq_sum hlt, ← List.length_reverse]
  refine sum_map_eq_sum_range thread.answers.reverse fun l answer hanswer => ?_
  rcases h.answered l answer hanswer with rfl | ⟨reason, rfl, hnot⟩
  · rfl
  · exact (List.count_eq_zero.mpr hnot).symm

namespace Retried

variable {loops : List (List (RetryLoop V H))} {start : Memory V}
  {pool : Pool V H (List UpdateOutcome)} {attempts : ℕ → Attempts V}

/-- All threads together lose at most one bid for each bid that another one has won. -/
theorem count_lost_le (h : Retried a i loops start pool bids attempts) :
    Bid.count false bids ≤ (loops.length - 1) * Bid.count true bids := by
  have hsum : ∑ k ∈ Finset.range loops.length,
      (Bid.countBy false k bids + Bid.countBy true k bids) ≤
        loops.length * Bid.count true bids := by
    have hle := Finset.sum_le_card_nsmul (Finset.range loops.length) _ (Bid.count true bids)
      fun k _ => (Nat.le_add_right _ _).trans (h.charged k)
    simpa using hle
  rw [Finset.sum_add_distrib, ← Bid.count_eq_sum h.thread_lt, ← Bid.count_eq_sum h.thread_lt]
    at hsum
  rw [Nat.sub_mul]
  omega

/-- When all threads are idle, the updates that answered so are the bids that were won. -/
theorem count_updated (h : Retried a i loops start pool bids attempts)
    (hidle : pool.isIdle = true) :
    pool.answers.flatten.flatten.count .updated = Bid.count true bids := by
  rw [List.flatten_flatten, List.count_flatten, List.map_map, Pool.answers, List.map_map,
    Bid.count_eq_sum h.thread_lt, ← h.length_eq]
  refine sum_map_eq_sum_range pool.threads fun k thread hk => ?_
  obtain ⟨list, -, hretries⟩ := h.threads k thread hk
  refine hretries.count_updated ?_
  simpa using List.all_eq_true.mp hidle _ (List.mem_of_getElem? hk)

end Retried

/-- What can be told of threads that have retried on a slot and come to these bids. -/
structure SlotArray.LosesNothing (a : SlotArray) (i : UInt64) (loops : List (List (RetryLoop V H)))
    (start : Session V H) (pool : Pool V H (List UpdateOutcome)) (bids : List Bid) : Prop where
  /-- The value is what the loops of the bids that were won have made of the first one, one after
  the other. -/
  transforms : ∃ v w, a.value? start.memory i = some v ∧ a.value? pool.session.memory i = some w ∧
    Transforms loops v bids w
  /-- A loop answers with the outcomes of its bids; if it panics, it has won none. -/
  answered : ∀ (k : ℕ) (thread : Thread V H (List UpdateOutcome)) (l : ℕ) answer,
    pool.threads[k]? = some thread → thread.answers.reverse[l]? = some answer →
      answer = .ok (Bid.outcomes bids k l) ∨
        ∃ reason, answer = .error reason ∧ .updated ∉ Bid.outcomes bids k l
  never_empty : .empty ∉ pool.answers.flatten.flatten
  size_eq : pool.session.memory.size = start.memory.size
  lost_le : Bid.count false bids ≤ (loops.length - 1) * Bid.count true bids
  updated_eq : pool.isIdle = true →
    pool.answers.flatten.flatten.count .updated = Bid.count true bids
  /-- If each loop makes one more of a value, the value has grown by the number of updates. -/
  grown : ∀ measure : V → ℤ, (∀ list ∈ loops, ∀ loop ∈ list, ∀ call v made,
      (loop.factory call v).MayEnd (.ok made) → measure made = measure v + 1) →
    pool.isIdle = true → ∃ v w, a.value? start.memory i = some v ∧
      a.value? pool.session.memory i = some w ∧
      measure w = measure v + pool.answers.flatten.flatten.count .updated

theorem Bid.empty_not_mem_outcomes (bids : List Bid) (k l : ℕ) : .empty ∉ outcomes bids k l := by
  intro h
  obtain ⟨bid, -, hbid⟩ := List.mem_map.mp h
  cases hwon : bid.won <;> simp [outcome, hwon] at hbid

/-- Threads retry on a slot that is occupied, and their factories spare it. Whatever they make of
the values, and however they interleave, no update is lost, none finds the slot empty, and each bid
that is won makes each other thread lose at most one. -/
theorem SlotArray.retries_lose_nothing {start : Session V H} (hs : a.Sound start.memory)
    (hfilled : (a.value? start.memory i).isSome = true) {loops : List (List (RetryLoop V H))}
    (hf : ∀ list ∈ loops, ∀ loop ∈ list, ∀ call v, (loop.factory call v).Spares a i)
    (schedule : List ℕ) :
    a.LosesNothing i loops start ((Pool.ofRetryLoops a i start loops).run schedule)
      ((Pool.ofRetryLoops a i start loops).bids a i schedule) := by
  obtain ⟨v, hv⟩ := Option.isSome_iff_exists.mp hfilled
  obtain ⟨o, ho, -⟩ := Option.map_eq_some_iff.mp hv
  obtain ⟨attempts, h⟩ := (Retried.start hs hv hf).run (lt_of_occupant? ho) hf schedule
  rw [List.nil_append] at h
  have htransforms : ∃ v w, a.value? start.memory i = some v ∧
      a.value? ((Pool.ofRetryLoops a i start loops).run schedule).session.memory i = some w ∧
      Transforms loops v ((Pool.ofRetryLoops a i start loops).bids a i schedule) w := by
    obtain ⟨v, p, hv, hp, htransforms⟩ := h.transforms
    exact ⟨v, p.value, hv, by rw [value?, hp]; rfl, htransforms⟩
  refine ⟨htransforms, fun k thread l answer hk hanswer => ?_, fun hempty => ?_, ?_,
    h.count_lost_le, h.count_updated, fun measure hmade hidle => ?_⟩
  · obtain ⟨list, -, hretries⟩ := h.threads k thread hk
    exact hretries.answered l answer hanswer
  · obtain ⟨outcomes, houtcomes, hempty⟩ := List.mem_flatten.mp hempty
    obtain ⟨answers, hanswers, houtcomes⟩ := List.mem_flatten.mp houtcomes
    obtain ⟨thread, hthread, rfl⟩ := List.mem_map.mp hanswers
    obtain ⟨k, hk⟩ := List.mem_iff_getElem?.mp hthread
    obtain ⟨answer, hanswer, hok⟩ := List.mem_filterMap.mp houtcomes
    obtain ⟨l, hl⟩ := List.mem_iff_getElem?.mp hanswer
    obtain ⟨list, -, hretries⟩ := h.threads k thread hk
    rcases hretries.answered l answer hl with rfl | ⟨reason, rfl, -⟩
    · cases hok
      exact Bid.empty_not_mem_outcomes _ _ _ hempty
    · cases hok
  · rw [Memory.size, Memory.size, h.count_eq]
  · obtain ⟨v, w, hv, hw, htransforms⟩ := htransforms
    refine ⟨v, w, hv, hw, ?_⟩
    rw [h.count_updated hidle]
    exact htransforms.measure_eq hmade

end Threads

/-- Two threads that each add one to a slot, in one retry loop, and look at the slot once more while
they are at it. -/
def incrementing : List (List (RetryLoop ℤ Unit)) :=
  List.replicate 2 [⟨fun _ v => (SlotArray.mk 1).get? 0 >>= fun _ => .done (v + 1), 3⟩]

/-- Both load the same value, so one of them has to try again. -/
theorem retries_lose_nothing_of_increments :
    let start : Session ℤ Unit :=
      (((SlotOperation.insert 0 5).program ⟨1⟩).run ⟨(SlotArray.mk 1).freshMemory, ()⟩).2
    let schedule := [0, 0, 1, 1, 0, 0, 1, 1, 0, 1, 0, 0] ++ List.replicate 7 1
    let pool := (Pool.ofRetryLoops ⟨1⟩ 0 start incrementing).run schedule
    let bids := (Pool.ofRetryLoops ⟨1⟩ 0 start incrementing).bids ⟨1⟩ 0 schedule
    (SlotArray.mk 1).LosesNothing 0 incrementing start pool bids ∧
      pool.answers = [[[.updated]], [[.declined, .updated]]] ∧
      (SlotArray.mk 1).value? pool.session.memory 0 = some 7 := by
  intro start schedule pool bids
  have hoff : (SlotOperation.insert 0 5 : SlotOperation ℤ Unit).HandsOff := trivial
  have hsound : (SlotArray.mk 1).Sound start.memory :=
    (hoff.moves_alone (s := ⟨(SlotArray.mk 1).freshMemory, ()⟩) (sound_ofEntries _)).1
  have hf : ∀ list ∈ incrementing, ∀ loop ∈ list, ∀ call v,
      (loop.factory call v).Spares ⟨1⟩ 0 := by
    intro list hlist loop hloop call v
    obtain ⟨-, rfl⟩ := List.mem_replicate.mp hlist
    obtain rfl := List.mem_singleton.mp hloop
    exact .bind (.get? (Sparing.reads _ _) 0) fun _ => .done _
  refine ⟨(SlotArray.mk 1).retries_lose_nothing hsound (by decide +kernel) hf schedule, ?_, ?_⟩
  · decide +kernel
  · decide +kernel

end AtomicSlots
