import AtomicSlots.Proofs.Clients
import AtomicSlots.Proofs.LiveWalks

/-!
# Walks that filter

A filtering step looks for the next occupied slot, moves the cursor past it and asks a predicate
about the value that it has read, until the predicate accepts one. The predicate may do anything to
the array, keep a state of its own and panic. All the same, to draw all items from such a walk is to
draw them from a plain walk and to keep those that the predicate accepts. The cursor only goes
forward, also if the predicate panics: then the slot has been passed as if it had been rejected.
-/
namespace AtomicSlots

variable {V H α β : Type}

open Program SlotArray

namespace SlotArray

/-- A step of a plain walk whose owner keeps the cursor. -/
def nextSaved (a : SlotArray) (save : Cursor → Program V H Unit) (cursor : Cursor) :
    Program V H (Option (UInt64 × V) × Cursor) := do
  match ← a.next cursor with
  | (none, after) => return (none, after)
  | (some item, after) =>
    save after
    return (some item, after)

/-- Takes steps of a plain walk until one yields nothing, at most `n`, asks about each item as soon
as it is there, and gathers those that `accepts` holds for. -/
def sift (a : SlotArray) (save : Cursor → Program V H Unit)
    (accepts : ℕ → UInt64 → V → Program V H Bool) :
    ℕ → Cursor → List (UInt64 × V) → Program V H (List (UInt64 × V) × Cursor)
  | 0, cursor, items => pure (items.reverse, cursor)
  | n + 1, cursor, items => do
    match ← a.nextSaved save cursor with
    | (none, after) => return (items.reverse, after)
    | (some (i, v), after) =>
      if ← accepts cursor.visits i v then
        a.sift save accepts n after ((i, v) :: items)
      else
        a.sift save accepts n after items

section Run

variable [Journal H] {a : SlotArray} {save : Cursor → Program V H Unit}
  {accepts : ℕ → UInt64 → V → Program V H Bool}

/-- Programs that run alike go on alike. -/
theorem run_bind_congr {p : Program V H α} {f g : α → Program V H β} {s : Session V H}
    (h : ∀ x t, (f x).run t = (g x).run t) : (p >>= f).run s = (p >>= g).run s := by
  rw [run_bind, run_bind]
  rcases p.run s with ⟨(reason | x), t⟩
  · rfl
  · exact h x t

/-- Fewer slots remain behind a slot that was found. -/
theorem remaining_past_lt {m : Memory V} {cursor : Cursor} {i : UInt64} {v : V}
    (h : a.StepsTo m cursor (some (i, v)) (cursor.past i)) :
    a.remaining (cursor.past i) < a.remaining cursor := by
  obtain ⟨hafter, hle, hvalue, -⟩ := h
  have hi := UInt64.lt_iff_toNat_lt.mp (lt_of_value? hvalue)
  rw [UInt64.le_iff_toNat_le] at hle
  rw [remaining, remaining, hafter]
  omega

/-- What a filtering step does with what the plain step has found. -/
def goOn (save : Cursor → Program V H Unit) (accepts : ℕ → UInt64 → V → Program V H Bool)
    (rest : Cursor → Program V H (Option (UInt64 × V) × Cursor)) (cursor : Cursor) :
    Option (UInt64 × V) → Program V H (Option (UInt64 × V) × Cursor)
  | none => .done (none, cursor)
  | some (i, v) => do
    save (cursor.past i)
    if ← accepts cursor.visits i v then
      return (some (i, v), cursor.past i)
    else
      rest (cursor.past i)

/-- Programs that go on alike after a found slot run alike. -/
theorem run_goOn_congr {rest rest' : Cursor → Program V H (Option (UInt64 × V) × Cursor)}
    {cursor : Cursor} {found : Option (UInt64 × V)}
    (h : ∀ i v, found = some (i, v) → ∀ t, (rest (cursor.past i)).run t =
      (rest' (cursor.past i)).run t) (s : Session V H) :
    (goOn save accepts rest cursor found).run s = (goOn save accepts rest' cursor found).run s := by
  rcases found with _ | ⟨i, v⟩
  · rfl
  · refine run_bind_congr fun _ t => run_bind_congr fun yes u => ?_
    cases yes with
    | true => rfl
    | false => exact h i v rfl u

/-- A bound that is not below the number of remaining slots leaves room for a step. -/
theorem run_go {n : ℕ} {cursor : Cursor} (hn : a.remaining cursor ≤ n) {s : Session V H}
    {found : Option (UInt64 × V)}
    (hrun : (a.next cursor).run s = (.ok (found, cursor.after found), s))
    (hsteps : a.StepsTo s.memory cursor found (cursor.after found)) :
    (nextWhere.go a save accepts n cursor).run s =
      (goOn save accepts (nextWhere.go a save accepts (n - 1)) cursor found).run s := by
  cases n with
  | zero =>
    rcases found with _ | ⟨i, v⟩
    · rfl
    · have := remaining_past_lt hsteps
      omega
  | succ n =>
    rw [nextWhere.go, run_bind, hrun]
    cases found <;> rfl

/-- The bound on the number of slots that a filtering step visits is never met. -/
theorem run_go_eq (h : a.capacity.toNat ≤ 2 ^ 64 - 32) {n k : ℕ} {cursor : Cursor}
    (hn : a.remaining cursor ≤ n) (hk : a.remaining cursor ≤ k) (s : Session V H) :
    (nextWhere.go a save accepts n cursor).run s = (nextWhere.go a save accepts k cursor).run s := by
  induction n generalizing k cursor s with
  | zero =>
    obtain ⟨found, hrun, hsteps⟩ := run_next h cursor s
    rw [run_go hn hrun hsteps, run_go hk hrun hsteps]
    refine run_goOn_congr (fun i v hfound t => ?_) s
    subst hfound
    have := remaining_past_lt hsteps
    omega
  | succ n ih =>
    obtain ⟨found, hrun, hsteps⟩ := run_next h cursor s
    rw [run_go hn hrun hsteps, run_go hk hrun hsteps]
    refine run_goOn_congr (fun i v hfound t => ?_) s
    subst hfound
    have := remaining_past_lt hsteps
    exact ih (by omega) (by omega) t

/-- A filtering step is a plain step, the question about what that has found, and a filtering step
from there if the answer is no. -/
theorem run_nextWhere (h : a.capacity.toNat ≤ 2 ^ 64 - 32) {cursor : Cursor} {s : Session V H}
    {found : Option (UInt64 × V)}
    (hrun : (a.next cursor).run s = (.ok (found, cursor.after found), s))
    (hsteps : a.StepsTo s.memory cursor found (cursor.after found)) :
    (a.nextWhere save accepts cursor).run s =
      (goOn save accepts (a.nextWhere save accepts) cursor found).run s := by
  rw [nextWhere, run_go le_rfl hrun hsteps]
  refine run_goOn_congr (fun i v hfound t => ?_) s
  subst hfound
  have := remaining_past_lt hsteps
  exact run_go_eq h (by omega) le_rfl t

theorem run_sift_of_some {n : ℕ} {cursor : Cursor} {i : UInt64} {v : V} {s : Session V H}
    (hrun : (a.next cursor).run s = (.ok (some (i, v), cursor.past i), s))
    (items : List (UInt64 × V)) : (a.sift save accepts (n + 1) cursor items).run s =
      (save (cursor.past i) >>= fun _ => accepts cursor.visits i v >>= fun yes =>
        if yes then a.sift save accepts n (cursor.past i) ((i, v) :: items)
        else a.sift save accepts n (cursor.past i) items).run s := by
  rw [sift, nextSaved, bind_assoc, run_bind, hrun]
  change ((save (cursor.past i) >>= _) >>= _).run s = _
  rw [bind_assoc]
  rfl

/-- Drawing all items from a filtering walk is sifting those of a plain walk. -/
theorem run_gather_nextWhere (h : a.capacity.toNat ≤ 2 ^ 64 - 32) {n k : ℕ} {cursor : Cursor}
    (hn : a.remaining cursor ≤ n) (hk : a.remaining cursor ≤ k) (items : List (UInt64 × V))
    (s : Session V H) : (gather (a.nextWhere save accepts) n cursor items).run s =
      (a.sift save accepts k cursor items).run s := by
  induction k generalizing n cursor items s with
  | zero =>
    obtain ⟨found, hrun, hsteps⟩ := run_next h cursor s
    rcases found with _ | ⟨i, v⟩
    · cases n with
      | zero => rfl
      | succ n =>
        rw [gather, run_bind, run_nextWhere h hrun hsteps]
        rfl
    · have := remaining_past_lt hsteps
      omega
  | succ k ih =>
    obtain ⟨found, hrun, hsteps⟩ := run_next h cursor s
    have hnext : (a.nextWhere save accepts cursor).run s = _ := run_nextWhere h hrun hsteps
    rcases found with _ | ⟨i, v⟩
    · rw [sift, nextSaved, bind_assoc, run_bind, hrun]
      cases n with
      | zero => rfl
      | succ n =>
        rw [gather, run_bind, hnext]
        rfl
    · have hlt := remaining_past_lt hsteps
      obtain ⟨n, rfl⟩ : ∃ l, n = l + 1 := ⟨n - 1, by omega⟩
      rw [run_sift_of_some hrun, gather, run_bind, hnext, ← run_bind, goOn, bind_assoc]
      -- both sides save the cursor and ask the predicate
      refine run_bind_congr fun _ t => ?_
      rw [bind_assoc]
      refine run_bind_congr fun yes u => ?_
      cases yes with
      | true => exact ih (by omega) (by omega) _ u
      | false => exact ih (n := n + 1) (by omega) (by omega) items u

theorem stepsTo_of_run_next (h : a.capacity.toNat ≤ 2 ^ 64 - 32) {cursor after : Cursor}
    {s t : Session V H} {found : Option (UInt64 × V)}
    (hrun : (a.next cursor).run s = (.ok (found, after), t)) :
    a.StepsTo s.memory cursor found (cursor.after found) := by
  obtain ⟨found', hrun', hsteps⟩ := run_next h cursor s
  cases hrun.symm.trans hrun'
  exact hsteps

/-- What is yielded was read before the predicate was asked about it. -/
theorem read_of_run_nextWhere (h : a.capacity.toNat ≤ 2 ^ 64 - 32) {cursor after : Cursor}
    {s t : Session V H} {i : UInt64} {v : V}
    (hyields : (a.nextWhere save accepts cursor).run s = (.ok (some (i, v), after), t)) :
    ∃ k u, after = ⟨i + 1, k + 1⟩ ∧ a.value? u.memory i = some v ∧
      (save after >>= fun _ => accepts k i v).run u = (.ok true, t) := by
  generalize hn : a.remaining cursor = n
  induction n using Nat.strong_induction_on generalizing cursor s with
  | h n ih =>
    obtain ⟨found, hrun, hsteps⟩ := run_next h cursor s
    rw [run_nextWhere h hrun hsteps] at hyields
    rcases found with _ | ⟨j, w⟩
    · cases hyields
    · rw [goOn, ← bind_assoc, run_bind] at hyields
      rcases hask : (save (cursor.past j) >>= fun _ => accepts cursor.visits j w).run s with
        ⟨(reason | (_ | _)), u⟩
      · rw [hask] at hyields
        cases hyields
      · rw [hask] at hyields
        exact ih _ (hn ▸ remaining_past_lt hsteps) hyields rfl
      · rw [hask] at hyields
        cases hyields
        exact ⟨cursor.visits, s, rfl, hsteps.2.2.1, hask⟩

end Run

end SlotArray

/-- The state of someone who keeps a filtering walk: its cursor, and the slots that the predicate was
asked about, the latest first. The predicate and all the others work on the rest of the state. -/
structure Walker (H : Type) where
  host : H
  cursor : Cursor
  asked : List UInt64

namespace Walker

instance [Journal H] : Journal (Walker H) :=
  ⟨fun event walker => { walker with host := Journal.record event walker.host }⟩

def fresh (host : H) : Walker H := ⟨host, .start, []⟩

def move (cursor : Cursor) (walker : Walker H) : Walker H := { walker with cursor }

def ask (i : UInt64) (walker : Walker H) : Walker H := { walker with asked := i :: walker.asked }

end Walker

/-- The same action where the host state has a walk beside it. -/
def Action.beside : Action V H → Action V (Walker H)
  | loadEntry entry => .loadEntry entry
  | publish entry => .publish entry
  | load cell => .load cell
  | exchangeIf cell expected new => .exchangeIf cell expected new
  | swap cell new => .swap cell new
  | retire occupant => .retire occupant
  | adjust change => .adjust change
  | readSize => .readSize
  | emit event => .emit event
  | readHost => .readHost
  | changeHost change => .changeHost fun walker => { walker with host := change walker.host }

/-- What an action answers to someone who does not see the walk. -/
def Action.answerBeside : (act : Action V H) → act.beside.Result → act.Result
  | loadEntry _, r => r
  | publish _, r => r
  | load _, r => r
  | exchangeIf .., r => r
  | swap .., r => r
  | retire _, r => r
  | adjust _, r => r
  | readSize, r => r
  | emit _, r => r
  | readHost, walker => walker.host
  | changeHost _, r => r

/-- The same program where the host state has a walk beside it. It cannot move the walk. -/
def Program.beside : Program V H α → Program V (Walker H) α
  | done x => .done x
  | panic reason => .panic reason
  | step act next => .step act.beside fun r => (next (act.answerBeside r)).beside

namespace Session

/-- The session without the walk. -/
def base (s : Session V (Walker H)) : Session V H := ⟨s.memory, s.host.host⟩

/-- The session in which the walk is where it was, and the rest has become that of another one. -/
def rebase (s : Session V (Walker H)) (t : Session V H) : Session V (Walker H) :=
  ⟨t.memory, { s.host with host := t.host }⟩

/-- The session in which the predicate is asked about a slot. -/
def visit (s : Session V (Walker H)) (i : UInt64) : Session V (Walker H) :=
  ⟨s.memory, (s.host.move (s.host.cursor.past i)).ask i⟩

end Session

theorem Program.run_beside [Journal H] (p : Program V H α) (s : Session V (Walker H)) :
    p.beside.run s = ((p.run s.base).1, s.rebase (p.run s.base).2) := by
  induction p generalizing s with
  | done x => rfl
  | panic reason => rfl
  | step act next ih => cases act <;> exact ih _ _

/-- The next item of the walk. -/
def Walker.next (a : SlotArray) (accepts : ℕ → UInt64 → V → Program V H Bool) :
    Program V (Walker H) (Option (UInt64 × V)) := do
  let walker ← .readHost
  let found ← a.nextWhere (fun cursor => .changeHost (.move cursor))
    (fun k i v => do
      .changeHost (.ask i)
      (accepts k i v).beside)
    walker.cursor
  .changeHost (.move found.2)
  return found.1

/-- A predicate that does on one of its calls all that the given one does, and then says no, whether
that one ends with an answer or in a panic. -/
def rejectingAt (k : ℕ) (accepts : ℕ → UInt64 → V → Program V H Bool) (l : ℕ) (i : UInt64) (v : V) :
    Program V H Bool :=
  if l = k then (fun _ => false) <$> (accepts l i v).caught else accepts l i v

theorem rejectingAt_of_ne {accepts : ℕ → UInt64 → V → Program V H Bool} {k l : ℕ} (h : l ≠ k) :
    rejectingAt k accepts l = accepts l := by
  funext i v
  exact if_neg h

theorem run_rejectingAt_self [Journal H] {accepts : ℕ → UInt64 → V → Program V H Bool} (k : ℕ)
    (i : UInt64) (v : V) (s : Session V H) :
    (rejectingAt k accepts k i v).run s = (.ok false, ((accepts k i v).run s).2) := by
  rw [rejectingAt, if_pos rfl, run_map, run_caught]
  rfl

namespace Walker

/-- What holds of a walk all its life: the slots that the predicate was asked about are in front of
its position, and each one is behind those before it. -/
structure Orderly (a : SlotArray) (walker : Walker H) : Prop where
  sorted : walker.asked.Pairwise (· > ·)
  passed : ∀ i ∈ walker.asked, i < walker.cursor.position
  inside : walker.cursor.position ≤ a.capacity
  visits : walker.asked.length = walker.cursor.visits
  room : walker.asked.length ≤ walker.cursor.position.toNat

theorem Orderly.fresh (a : SlotArray) (host : H) : (Walker.fresh host).Orderly a :=
  ⟨.nil, nofun, UInt64.le_iff_toNat_le.mpr (Nat.zero_le _), rfl, le_rfl⟩

variable {a : SlotArray} {s : Session V (Walker H)}

theorem Orderly.rebase (hs : s.host.Orderly a) (t : Session V H) : (s.rebase t).host.Orderly a := by
  obtain ⟨sorted, passed, inside, visits, room⟩ := hs
  exact ⟨sorted, passed, inside, visits, room⟩

theorem Orderly.visit {i : UInt64} {v : V} (hs : s.host.Orderly a)
    (hsteps : a.StepsTo s.memory s.host.cursor (some (i, v)) (s.host.cursor.past i)) :
    (s.visit i).host.Orderly a := by
  obtain ⟨hafter, hle, hvalue, -⟩ := hsteps
  have hi : i < (s.host.cursor.past i).position := UInt64.lt_iff_toNat_lt.mpr (by omega)
  have hbefore : ∀ j ∈ s.host.asked, j < i := fun j hj =>
    UInt64.lt_of_lt_of_le (hs.passed j hj) hle
  refine ⟨.cons hbefore hs.sorted, ?_, ?_, congrArg (· + 1) hs.visits, ?_⟩
  · rintro j (_ | ⟨_, hj⟩)
    · exact hi
    · exact UInt64.lt_trans (hbefore j hj) hi
  · refine UInt64.le_iff_toNat_le.mpr ?_
    change (s.host.cursor.past i).position.toNat ≤ _
    rw [hafter]
    exact UInt64.lt_iff_toNat_lt.mp (lt_of_value? hvalue)
  · change s.host.asked.length + 1 ≤ (s.host.cursor.past i).position.toNat
    have := hs.room
    rw [UInt64.le_iff_toNat_le] at hle
    omega

end Walker

namespace Walker

variable [Journal H] {a : SlotArray} {accepts : ℕ → UInt64 → V → Program V H Bool}
  {s t : Session V (Walker H)} {answer : Except Panic (Option (UInt64 × V))}

/-- A walk that finds nothing stays where it is. -/
theorem run_next_of_none (h : a.capacity.toNat ≤ 2 ^ 64 - 32)
    (hrun : (a.next s.host.cursor).run s = (.ok (none, s.host.cursor), s)) :
    (Walker.next a accepts).run s = (.ok none, s) := by
  rw [Walker.next, run_bind]
  change (a.nextWhere _ _ s.host.cursor >>= _).run s = _
  rw [run_bind, run_nextWhere h hrun (stepsTo_of_run_next h hrun)]
  rfl

/-- A walk that finds something asks about it, and goes on behind it if the answer is no. -/
theorem run_next_of_some (h : a.capacity.toNat ≤ 2 ^ 64 - 32) {i : UInt64} {v : V}
    (hrun : (a.next s.host.cursor).run s = (.ok (some (i, v), s.host.cursor.past i), s)) :
    (Walker.next a accepts).run s = match (accepts s.host.cursor.visits i v).run s.base with
      | (.error reason, t) => (.error reason, (s.visit i).rebase t)
      | (.ok true, t) => (.ok (some (i, v)), (s.visit i).rebase t)
      | (.ok false, t) => (Walker.next a accepts).run ((s.visit i).rebase t) := by
  rw [Walker.next, run_bind]
  change (a.nextWhere _ _ s.host.cursor >>= _).run s = _
  rw [run_bind, run_nextWhere h hrun (stepsTo_of_run_next h hrun), ← run_bind]
  change (((accepts s.host.cursor.visits i v).beside >>= fun yes => if yes then
    .done (some (i, v), s.host.cursor.past i) else
    a.nextWhere _ _ (s.host.cursor.past i)) >>= _).run (s.visit i) = _
  rw [bind_assoc, run_bind, run_beside, show (s.visit i).base = s.base from rfl]
  rcases (accepts s.host.cursor.visits i v).run s.base with ⟨(reason | (_ | _)), t⟩ <;> rfl

/-- What a step of a filtering walk comes to: one case for each way in which the loop goes. -/
inductive Goes (a : SlotArray) (accepts : ℕ → UInt64 → V → Program V H Bool) :
    Session V (Walker H) → Except Panic (Option (UInt64 × V)) → Session V (Walker H) → Prop
  | ends {s : Session V (Walker H)}
      (hrun : (a.next s.host.cursor).run s = (.ok (none, s.host.cursor), s)) :
      Goes a accepts s (.ok none) s
  | panics {s : Session V (Walker H)} {t : Session V H} {i : UInt64} {v : V} {reason : Panic}
      (hrun : (a.next s.host.cursor).run s = (.ok (some (i, v), s.host.cursor.past i), s))
      (hask : (accepts s.host.cursor.visits i v).run s.base = (.error reason, t)) :
      Goes a accepts s (.error reason) ((s.visit i).rebase t)
  | yields {s : Session V (Walker H)} {t : Session V H} {i : UInt64} {v : V}
      (hrun : (a.next s.host.cursor).run s = (.ok (some (i, v), s.host.cursor.past i), s))
      (hask : (accepts s.host.cursor.visits i v).run s.base = (.ok true, t)) :
      Goes a accepts s (.ok (some (i, v))) ((s.visit i).rebase t)
  | rejects {s last : Session V (Walker H)} {t : Session V H} {i : UInt64} {v : V}
      {answer : Except Panic (Option (UInt64 × V))}
      (hrun : (a.next s.host.cursor).run s = (.ok (some (i, v), s.host.cursor.past i), s))
      (hask : (accepts s.host.cursor.visits i v).run s.base = (.ok false, t))
      (hrest : Goes a accepts ((s.visit i).rebase t) answer last) :
      Goes a accepts s answer last

theorem goes_next (h : a.capacity.toNat ≤ 2 ^ 64 - 32)
    (accepts : ℕ → UInt64 → V → Program V H Bool) (s : Session V (Walker H)) :
    Goes a accepts s ((next a accepts).run s).1 ((next a accepts).run s).2 := by
  generalize hn : a.remaining s.host.cursor = n
  induction n using Nat.strong_induction_on generalizing s with
  | h n ih =>
    obtain ⟨found, hrun, hsteps⟩ := run_next h s.host.cursor s
    rcases found with _ | ⟨i, v⟩
    · rw [run_next_of_none h hrun]
      exact .ends hrun
    · rw [run_next_of_some h hrun]
      rcases hask : (accepts s.host.cursor.visits i v).run s.base with ⟨(reason | (_ | _)), t⟩
      · exact .panics hrun hask
      · exact .rejects hrun hask (ih _ (hn ▸ remaining_past_lt hsteps) _ rfl)
      · exact .yields hrun hask

theorem Goes.run_eq (h : a.capacity.toNat ≤ 2 ^ 64 - 32) (hgoes : Goes a accepts s answer t) :
    (next a accepts).run s = (answer, t) := by
  induction hgoes with
  | ends hrun => exact run_next_of_none h hrun
  | panics hrun hask | yields hrun hask => rw [run_next_of_some h hrun, hask]
  | rejects hrun hask _ ih =>
    rw [run_next_of_some h hrun, hask]
    exact ih

theorem Goes.orderly (h : a.capacity.toNat ≤ 2 ^ 64 - 32) (hgoes : Goes a accepts s answer t)
    (hs : s.host.Orderly a) : t.host.Orderly a := by
  induction hgoes with
  | ends hrun => exact hs
  | panics hrun hask | yields hrun hask =>
    exact (hs.visit (stepsTo_of_run_next h hrun)).rebase _
  | rejects hrun hask _ ih => exact ih ((hs.visit (stepsTo_of_run_next h hrun)).rebase _)

/-- A step does not take calls of the predicate back. -/
theorem Goes.visits_le (hgoes : Goes a accepts s answer t) :
    s.host.cursor.visits ≤ t.host.cursor.visits := by
  induction hgoes with
  | ends hrun => exact le_rfl
  | panics hrun hask | yields hrun hask => exact Nat.le_succ _
  | rejects hrun hask _ ih => exact (Nat.le_succ _).trans ih

/-- Only the calls that are still to come matter to a step. -/
theorem Goes.congr {accepts' : ℕ → UInt64 → V → Program V H Bool}
    (hgoes : Goes a accepts s answer t)
    (hsame : ∀ k, s.host.cursor.visits ≤ k → accepts' k = accepts k) :
    Goes a accepts' s answer t := by
  induction hgoes with
  | ends hrun => exact .ends hrun
  | panics hrun hask => exact .panics hrun (by rwa [hsame _ le_rfl])
  | yields hrun hask => exact .yields hrun (by rwa [hsame _ le_rfl])
  | rejects hrun hask _ ih =>
    exact .rejects hrun (by rwa [hsame _ le_rfl]) (ih fun k hk => hsame k (Nat.le_of_succ_le hk))

/-- A step ends in a panic only if the predicate does. Then the walk is behind the slot that it has
asked about, and from there it goes on as it would if the predicate had said no. -/
theorem Goes.of_panic {reason : Panic} (h : a.capacity.toNat ≤ 2 ^ 64 - 32)
    (hgoes : Goes a accepts s (.error reason) t) : ∃ k i v u,
      s.host.cursor.visits ≤ k ∧ t.host.cursor = ⟨i + 1, k + 1⟩ ∧ t.host.asked.head? = some i ∧
      a.value? u.memory i = some v ∧ (accepts k i v).run u = (.error reason, t.base) ∧
      ∀ answer last, Goes a accepts t answer last → Goes a (rejectingAt k accepts) s answer last := by
  generalize hanswer : Except.error reason = answer at hgoes
  induction hgoes with
  | ends hrun => cases hanswer
  | yields hrun hask => cases hanswer
  | @panics s t i v reason hrun hask =>
    cases hanswer
    refine ⟨s.host.cursor.visits, i, v, s.base, le_rfl, rfl, rfl,
      (stepsTo_of_run_next h hrun).2.2.1, hask, fun answer last hlast => ?_⟩
    refine .rejects (t := t) hrun ?_ (hlast.congr fun l hl => rejectingAt_of_ne ?_)
    · rw [run_rejectingAt_self, hask]
    · exact Nat.ne_of_gt hl
  | @rejects s last t i v answer hrun hask hrest ih =>
    obtain ⟨k, j, w, u, hk, hcursor, hhead, hvalue, hpanics, hlike⟩ := ih hanswer
    refine ⟨k, j, w, u, Nat.le_of_succ_le hk, hcursor, hhead, hvalue, hpanics,
      fun answer last hlast => .rejects hrun ?_ (hlike answer last hlast)⟩
    rwa [rejectingAt_of_ne (Nat.ne_of_lt hk)]

end Walker

/-- What is done while a filtering walk is alive: its next item is asked for, or it is left alone and
something else is done. -/
inductive Deed (V H : Type) where
  | next
  | other (p : Program V H Unit)

namespace Walker

variable [Journal H] {a : SlotArray} {accepts : ℕ → UInt64 → V → Program V H Bool}

/-- What the walk answers each time that it is asked for its next item, and the session at the end.
A panic ends the deed in which it is thrown, and then the next deed is done. -/
def live (a : SlotArray) (accepts : ℕ → UInt64 → V → Program V H Bool) :
    List (Deed V H) → Session V (Walker H) →
      List (Except Panic (Option (UInt64 × V))) × Session V (Walker H)
  | [], s => ([], s)
  | .next :: deeds, s =>
    let step := (next a accepts).run s
    let later := live a accepts deeds step.2
    (step.1 :: later.1, later.2)
  | .other p :: deeds, s => live a accepts deeds (p.beside.run s).2

theorem orderly_live (h : a.capacity.toNat ≤ 2 ^ 64 - 32) (deeds : List (Deed V H))
    {s : Session V (Walker H)} (hs : s.host.Orderly a) :
    (live a accepts deeds s).2.host.Orderly a := by
  induction deeds generalizing s with
  | nil => exact hs
  | cons deed deeds ih =>
    cases deed with
    | next => exact ih ((goes_next h accepts s).orderly h hs)
    | other p =>
      rw [live, run_beside]
      exact ih (hs.rebase _)

/-- Only the calls that are still to come matter to a walk. -/
theorem live_congr (h : a.capacity.toNat ≤ 2 ^ 64 - 32)
    {accepts' : ℕ → UInt64 → V → Program V H Bool} (deeds : List (Deed V H))
    {s : Session V (Walker H)} (hsame : ∀ k, s.host.cursor.visits ≤ k → accepts' k = accepts k) :
    live a accepts' deeds s = live a accepts deeds s := by
  induction deeds generalizing s with
  | nil => rfl
  | cons deed deeds ih =>
    cases deed with
    | next =>
      have hgoes : Goes a accepts s _ _ := goes_next h accepts s
      rw [live, live, (hgoes.congr hsame).run_eq h,
        ih fun k hk => hsame k (hgoes.visits_le.trans hk)]
    | other p =>
      rw [live, live, run_beside]
      exact ih hsame

end Walker

/-- A filtering walk sifts a plain one, whatever the predicate does to the array meanwhile. A step
looks for the next item of the plain walk, moves past it and asks about it, until the answer is yes
or there is none. To draw all items is to draw them from a plain walk, to ask about each one as soon
as it is there and to keep those accepted: with the same calls, the same effects, the same panics and
the same memory at the end. The item that a step yields was read before the predicate was asked about
it. While the walk lives, the predicate is asked about slots of increasing index, so not more often
than there are slots. If it panics, the walk stands behind the slot in question, and from there on it
does what it would do if the predicate had said no. An array with more than `2 ^ 64 - 32` slots,
whose table would take a quarter of all addresses of a 64-bit word, is left aside. -/
theorem SlotArray.filtering_walks_sift_plain_ones (a : SlotArray)
    (h : a.capacity.toNat ≤ 2 ^ 64 - 32) :
    (∀ {V H : Type} [Journal H] (save : Cursor → Program V H Unit)
        (accepts : ℕ → UInt64 → V → Program V H Bool) (cursor : Cursor) (s : Session V H),
      let step := a.nextWhere save accepts
      (step cursor).run s =
        (a.next cursor >>= fun found => goOn save accepts step cursor found.1).run s ∧
      (∀ n, a.remaining cursor ≤ n →
        (gather step n cursor []).run s = (a.drain step cursor).run s ∧
        (a.sift save accepts n cursor []).run s = (a.drain step cursor).run s) ∧
      ∀ i v after t, (step cursor).run s = (.ok (some (i, v), after), t) → ∃ k u,
        after = ⟨i + 1, k + 1⟩ ∧ a.value? u.memory i = some v ∧
        (save after >>= fun _ => accepts k i v).run u = (.ok true, t)) ∧
    ∀ {V H : Type} [Journal H] (accepts : ℕ → UInt64 → V → Program V H Bool) (m : Memory V)
        (host : H) (deeds : List (Deed V H)),
      let now := (Walker.live a accepts deeds ⟨m, .fresh host⟩).2
      let walker := now.host
      walker.asked.Pairwise (· > ·) ∧
      (∀ i ∈ walker.asked, i < walker.cursor.position ∧ i < a.capacity) ∧
      walker.asked.length ≤ a.capacity.toNat ∧
      ∀ reason t, (Walker.next a accepts).run now = (.error reason, t) → ∃ k i v u,
        t.host.cursor = ⟨i + 1, k + 1⟩ ∧ (i + 1).toNat = i.toNat + 1 ∧
        t.host.asked.head? = some i ∧ a.value? u.memory i = some v ∧
        (accepts k i v).run u = (.error reason, t.base) ∧
        ∀ more, Walker.live a (rejectingAt k accepts) more t = Walker.live a accepts more t ∧
          Walker.live a (rejectingAt k accepts) (.next :: more) now =
            Walker.live a accepts (.next :: more) t := by
  constructor
  · intro V H _ save accepts cursor s step
    refine ⟨?_, fun n hn => ⟨?_, ?_⟩, fun i v after t => read_of_run_nextWhere h⟩
    · obtain ⟨found, hrun, hsteps⟩ := run_next h cursor s
      rw [run_bind, hrun]
      exact run_nextWhere h hrun hsteps
    · rw [run_gather_nextWhere h hn le_rfl, drain, run_gather_nextWhere h le_rfl le_rfl]
    · rw [drain, run_gather_nextWhere h le_rfl hn]
  · intro V H _ accepts m host deeds now walker
    have hnow : walker.Orderly a := Walker.orderly_live h deeds (.fresh a host)
    refine ⟨hnow.sorted, fun i hi => ?_, ?_, fun reason t hpanic => ?_⟩
    · exact ⟨hnow.passed i hi, UInt64.lt_of_lt_of_le (hnow.passed i hi) hnow.inside⟩
    · exact hnow.room.trans (UInt64.le_iff_toNat_le.mp hnow.inside)
    · have hgoes := Walker.goes_next h accepts now
      rw [hpanic] at hgoes
      obtain ⟨k, i, v, u, -, hcursor, hhead, hvalue, hthrows, hlike⟩ := hgoes.of_panic h
      have hi := UInt64.lt_iff_toNat_lt.mp (lt_of_value? hvalue)
      have hsame : ∀ l, t.host.cursor.visits ≤ l → rejectingAt k accepts l = accepts l := by
        rw [hcursor]
        exact fun l hl => rejectingAt_of_ne (Nat.ne_of_gt hl)
      refine ⟨k, i, v, u, hcursor, toNat_add_one (by omega), hhead, hvalue, hthrows,
        fun more => ⟨Walker.live_congr h more hsame, ?_⟩⟩
      have hlater := Walker.goes_next h accepts t
      rw [Walker.live, Walker.live, (hlike _ _ hlater).run_eq h, Walker.live_congr h more]
      exact fun l hl => hsame l (hlater.visits_le.trans hl)

/-- The predicate empties the first slot, fills one behind all others and says yes; it replaces the
value of the second slot and panics. The item of the first slot is what was read there, and after the
panic the walk goes on as if the second slot had been rejected. -/
theorem SlotArray.filtering_walks_sift_plain_ones_of_panic :
    let a : SlotArray := ⟨40⟩
    let accepts : ℕ → UInt64 → ℤ → Program ℤ Unit Bool := fun k i _ => match k with
      | 0 => a.erase i >>= fun _ => a.insert 36 8
      | 1 => a.set i 9 >>= fun _ => .panic ⟨.predicate, 1⟩
      | _ => .done true
    let fills := [(0, 5), (1, 6), (35, 7)].map fun (i, v) =>
      Deed.other (Functor.discard (a.insert i v : Program ℤ Unit Bool))
    let start : Session ℤ (Walker Unit) := ⟨a.freshMemory, .fresh ()⟩
    let now := Walker.live a accepts (fills ++ [.next]) start
    now.1 = [.ok (some (0, 5))] ∧
      ∃ t, (Walker.next a accepts).run now.2 = (.error ⟨.predicate, 1⟩, t) ∧
        t.host.cursor = ⟨2, 2⟩ ∧ t.host.asked = [1, 0] ∧ a.value? t.memory 0 = none ∧
        a.value? t.memory 1 = some 9 ∧
        (Walker.live a (rejectingAt 1 accepts) [.next, .next, .next] now.2).1 =
          [.ok (some (35, 7)), .ok (some (36, 8)), .ok none] := by
  intro a accepts fills start now
  obtain ⟨-, hlife⟩ := filtering_walks_sift_plain_ones a (by decide)
  obtain ⟨-, -, -, hpanics⟩ := hlife accepts a.freshMemory () (fills ++ [.next])
  have hfirst : now.1 = [.ok (some (0, 5))] := by decide +kernel
  have hstep : let step := (Walker.next a accepts).run now.2
      step.1 = .error ⟨.predicate, 1⟩ ∧ step.2.host.cursor = ⟨2, 2⟩ ∧
      step.2.host.asked = [1, 0] ∧ a.value? step.2.memory 0 = none ∧
      a.value? step.2.memory 1 = some 9 ∧
      (Walker.live a accepts [.next, .next, .next] step.2).1 =
        [.ok (some (35, 7)), .ok (some (36, 8)), .ok none] := by decide +kernel
  change ∀ reason t, (Walker.next a accepts).run now.2 = (.error reason, t) → _ at hpanics
  -- from here on nothing but what was evaluated is needed of the session
  generalize now.2 = s at hpanics hstep ⊢
  obtain ⟨hanswer, hcursor, hasked, hempty, hvalue, hlater⟩ := hstep
  have hpanic : (Walker.next a accepts).run s = (.error _, ((Walker.next a accepts).run s).2) :=
    Prod.ext hanswer rfl
  obtain ⟨k, i, v, u, hpast, -, -, -, -, hlike⟩ := hpanics _ _ hpanic
  obtain rfl : k = 1 := Nat.succ_inj.mp (congrArg Cursor.visits (hpast.symm.trans hcursor))
  exact ⟨hfirst, _, hpanic, hcursor, hasked, hempty, hvalue,
    (congrArg Prod.fst (hlike [.next, .next]).2).trans hlater⟩

end AtomicSlots
