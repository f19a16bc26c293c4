import AtomicSlots.Proofs.Ledger
import AtomicSlots.Proofs.Notices

/-!
# What operations hand out

Callers keep an account of the values that operations stored for them and of those that they got
back: it is read off what they post. Whatever the threads do, the account of a thread is what the
ledger says of its stores, in the same order, up to what its operation under way has still to answer.
-/
namespace AtomicSlots

variable {V H α : Type}

/-- What an operation has stored, and what it has taken out. -/
structure Trade (V : Type) where
  stored : Option V
  returned : Option V

namespace Trade

def nothing : Trade V := ⟨none, none⟩

/-- What an answer tells of. A swap without a slot stores nothing. -/
def ofNotice : Notice V → Trade V
  | .filled _ (.stored v) => ⟨some v, none⟩
  | .filled _ (.refused _) => nothing
  | .swapped _ v old => ⟨old.map fun _ => v, old.join⟩
  | .taken _ old => ⟨none, old⟩

/-- The trade that an operation under way has still to answer. -/
def ofLate (late : Option (Notice V)) : Trade V := late.elim nothing ofNotice

theorem ofNotice_ofFill (i : UInt64) (v : V) (found : Option (Occupant V)) :
    ofNotice (.ofFill i v found) = if found.isNone then ⟨some v, none⟩ else nothing := by
  cases found <;> rfl

theorem ofNotice_ofSwap (i : UInt64) (old : Option (Occupant V)) (new : Option V) :
    ofNotice (.ofSwap i old new) = ⟨new, old.map Occupant.value⟩ := by
  cases new <;> rfl

/-- Where no cell was come to, nothing was stored or taken out. -/
theorem ofNotice_of_missed {a : SlotArray} {notice : Notice V} (h : notice.Missed a) :
    ofNotice notice = nothing := by
  cases notice with
  | filled i answer =>
    obtain ⟨-, rfl⟩ := h
    rfl
  | swapped i v answer =>
    obtain ⟨-, rfl⟩ := h
    rfl
  | taken i answer =>
    obtain rfl : answer = none := h
    rfl

end Trade

/-- Values stored and values taken out, the latest first, each with the thread that did it. -/
structure Entries (V : Type) where
  stored : List (ℕ × V)
  returned : List (ℕ × V)

namespace Entries

def enter (entries : Entries V) (k : ℕ) (trade : Trade V) : Entries V :=
  ⟨(trade.stored.map (k, ·)).toList ++ entries.stored,
    (trade.returned.map (k, ·)).toList ++ entries.returned⟩

def ofNotices : List (ℕ × Notice V) → Entries V
  | [] => ⟨[], []⟩
  | (k, notice) :: notices => (ofNotices notices).enter k (.ofNotice notice)

end Entries

/-- The account of what has been posted. -/
def NoticeBoard.noted (board : NoticeBoard V H) : Entries V := .ofNotices board.notices

open Ledger

namespace Entries

/-- What a thread has noted is what a ledger says of it, up to a trade that is late. -/
structure LagsBehind (noted ledger : Entries V) (k : ℕ) (late : Trade V) : Prop where
  stored_eq : ofThread k ledger.stored = late.stored.toList ++ ofThread k noted.stored
  returned_eq : ofThread k ledger.returned = late.returned.toList ++ ofThread k noted.returned

namespace LagsBehind

variable {noted ledger : Entries V} {j k : ℕ} {late : Trade V}

theorem enter (h : noted.LagsBehind ledger k .nothing) (trade : Trade V) :
    noted.LagsBehind (ledger.enter k trade) k trade where
  stored_eq := (ofThread_append_self k _ _).trans (congrArg _ h.stored_eq)
  returned_eq := (ofThread_append_self k _ _).trans (congrArg _ h.returned_eq)

theorem note (h : noted.LagsBehind ledger k late) :
    (noted.enter k late).LagsBehind ledger k .nothing where
  stored_eq := h.stored_eq.trans (ofThread_append_self k _ _).symm
  returned_eq := h.returned_eq.trans (ofThread_append_self k _ _).symm

theorem enter_of_ne (h : noted.LagsBehind ledger j late) (hj : j ≠ k) (trade : Trade V) :
    noted.LagsBehind (ledger.enter k trade) j late where
  stored_eq := (ofThread_append_of_ne hj _ _).trans h.stored_eq
  returned_eq := (ofThread_append_of_ne hj _ _).trans h.returned_eq

theorem note_of_ne (h : noted.LagsBehind ledger j late) (hj : j ≠ k) (trade : Trade V) :
    (noted.enter k trade).LagsBehind ledger j late where
  stored_eq := h.stored_eq.trans (congrArg _ (ofThread_append_of_ne hj _ _).symm)
  returned_eq := h.returned_eq.trans (congrArg _ (ofThread_append_of_ne hj _ _).symm)

end LagsBehind

/-- Entries are the same, but for their order, if they are the same for every thread. -/
theorem perm_of_ofThread_eq {entries others : List (ℕ × V)}
    (h : ∀ k, ofThread k entries = ofThread k others) : entries.Perm others := by
  classical
  refine List.perm_iff_count.mpr fun ⟨k, v⟩ => ?_
  have hcount : ∀ entries : List (ℕ × V),
      entries.count (k, v) = ((ofThread k entries).map (k, ·)).count (k, v) := by
    intro entries
    rw [map_ofThread, List.count_filter (by simp)]
  rw [hcount entries, hcount others, h]

end Entries

namespace Ledger

/-- The values that were stored. -/
def newValues (stores : List (Store V)) : List (ℕ × V) :=
  stores.filterMap fun store => store.new.map fun o => (store.thread, o.value)

/-- The values that were taken out of cells. -/
def oldValues (stores : List (Store V)) : List (ℕ × V) :=
  stores.filterMap fun store => store.old.map fun o => (store.thread, o.value)

/-- The trades of all stores that were not made against an occupant. -/
def trades (ledger : Ledger V) : Entries V :=
  ⟨newValues (ledger.stores.filter (!·.revises)), oldValues (ledger.stores.filter (!·.revises))⟩

theorem trades_eq {ledger : Ledger V} (h : ∀ store ∈ ledger.stores, store.revises = false) :
    ledger.trades = ⟨newValues ledger.stores, oldValues ledger.stores⟩ := by
  have hall : ledger.stores.filter (!·.revises) = ledger.stores :=
    List.filter_eq_self.mpr fun store hmem => by rw [h store hmem]; rfl
  rw [trades, hall]

theorem trades_enter (ledger : Ledger V) (m : Memory V) (cell : Cell) (new : Option V) (k : ℕ) :
    (ledger.enter m cell new k false).trades =
      ledger.trades.enter k ⟨new, (m.content cell).map Occupant.value⟩ := by
  have hnew : newValues (⟨k, cell, m.content cell, m.stamped new, false⟩ ::
      ledger.stores.filter (!·.revises)) = (new.map (k, ·)).toList ++ ledger.trades.stored := by
    rw [newValues, List.filterMap_cons]
    cases new <;> rfl
  have hold : oldValues (⟨k, cell, m.content cell, m.stamped new, false⟩ ::
      ledger.stores.filter (!·.revises)) =
        (((m.content cell).map Occupant.value).map (k, ·)).toList ++ ledger.trades.returned := by
    rw [oldValues, List.filterMap_cons]
    cases m.content cell <;> rfl
  exact congrArg₂ Entries.mk hnew hold

theorem trades_enter_revision (ledger : Ledger V) (m : Memory V) (cell : Cell) (new : Option V)
    (k : ℕ) : (ledger.enter m cell new k true).trades = ledger.trades := rfl

/-- An action that decides an answer makes the trade of that answer. -/
theorem trades_after_of_decided [Journal H] {a : SlotArray} {s : Session V H}
    (h : a.Sound s.memory) {act : Action V H} {notice : Notice V}
    (hdecided : Notice.Decided a s.memory act notice) (ledger : Ledger V) (k : ℕ) :
    (ledger.after k act s.memory (act.perform s).2.memory).trades =
      ledger.trades.enter k (.ofNotice notice) := by
  cases hdecided with
  | load hc ho => rfl
  | @exchangeIf i cell v hc =>
    rw [Trade.ofNotice_ofFill]
    cases hfound : s.memory.content cell with
    | none =>
      have hsame := (Memory.sameOccupant_none _).mpr hfound
      have hafter := congrArg trades
        (after_exchangeIf_of_same (H := H) ledger k (some v) (h.hasCell hc) hsame)
      refine hafter.trans ?_
      rw [Option.isSome_none, trades_enter, hfound]
      rfl
    | some o =>
      have hsame : sameOccupant (s.memory.content cell) none = false := by rw [hfound]; rfl
      exact congrArg trades (after_exchangeIf_of_not_same ledger k (some v) hsame)
  | @swap i cell new hc =>
    rw [Trade.ofNotice_ofSwap]
    exact (congrArg trades (after_swap ledger k new (h.hasCell hc))).trans
      (trades_enter ledger s.memory cell new k)

/-- What an action means to the trades: nothing, or it makes one, or the one that is late is
noted. -/
theorem trades_after [Journal H] {a : SlotArray} {s : Session V (NoticeBoard V H)}
    (h : a.Sound s.memory) {act : Action V (NoticeBoard V H)} (hact : a.Admits s.memory act)
    (ledger : Ledger V) {k : ℕ} {late next : Option (Notice V)}
    (hstep : Notice.protocol a k late act s.memory (act.perform s).2.memory next) :
    let after := (ledger.after k act s.memory (act.perform s).2.memory).trades
    let noted := (act.perform s).2.host.noted
    (after = ledger.trades ∧ noted = s.host.noted ∧ next = late) ∨
    (after = ledger.trades.enter k (.ofLate next) ∧ noted = s.host.noted ∧ late = none) ∨
    (after = ledger.trades ∧ noted = s.host.noted.enter k (.ofLate late) ∧ next = none) := by
  intro after noted
  have hmakes : ∀ notice, next = some notice → Notice.Decided a s.memory act notice →
      after = ledger.trades.enter k (.ofLate next) := by
    rintro notice rfl hdecided
    exact trades_after_of_decided h hdecided ledger k
  cases act with
  | loadEntry | publish | readSize | retire | adjust | emit | readHost =>
    exact .inl ⟨rfl, rfl, hstep⟩
  | load cell =>
    rcases hstep with hquiet | ⟨hlate, notice, hnext, hdecided⟩
    · exact .inl ⟨rfl, rfl, hquiet⟩
    · exact .inr (.inl ⟨hmakes notice hnext hdecided, rfl, hlate⟩)
  | swap cell new =>
    obtain ⟨hlate, notice, hnext, hdecided⟩ := hstep
    exact .inr (.inl ⟨hmakes notice hnext hdecided, rfl, hlate⟩)
  | exchangeIf cell expected new =>
    cases expected with
    | none =>
      obtain ⟨hlate, notice, hnext, hdecided⟩ := hstep
      exact .inr (.inl ⟨hmakes notice hnext hdecided, rfl, hlate⟩)
    | some o =>
      refine .inl ⟨?_, rfl, hstep⟩
      obtain ⟨i, hi⟩ := hact
      cases hsame : sameOccupant (s.memory.content cell) (some o) with
      | false => exact congrArg trades (after_exchangeIf_of_not_same ledger k new hsame)
      | true =>
        exact (congrArg trades (after_exchangeIf_of_same ledger k new (h.hasCell hi) hsame)).trans
          (trades_enter_revision ledger s.memory cell new k)
  | changeHost change =>
    rcases hstep with ⟨hquiet, hkeeps⟩ | ⟨hnext, notice, hlate, hposts⟩
    · exact .inl ⟨rfl, congrArg Entries.ofNotices (hkeeps s.host), hquiet⟩
    · refine .inr (.inr ⟨rfl, (congrArg Entries.ofNotices (hposts s.host)).trans ?_, hnext⟩)
      have htrade : Trade.ofNotice notice = .ofLate late := by
        rcases hlate with rfl | ⟨rfl, hmissed⟩
        · rfl
        · exact Trade.ofNotice_of_missed hmissed
      rw [Entries.ofNotices, htrade]
      rfl

end Ledger

section Accounted

variable [Journal H] {a : SlotArray} {pool : Pool V (NoticeBoard V H) α} {ledger : Ledger V}
  {late : ℕ → Option (Notice V)}

/-- The invariant of a pool whose callers keep an account. -/
structure Pool.Accounted (a : SlotArray) (pool : Pool V (NoticeBoard V H) α) (ledger : Ledger V)
    (late : ℕ → Option (Notice V)) : Prop where
  follows : pool.Follows a (Notice.protocol a) none late
  lags : ∀ k, pool.session.host.noted.LagsBehind ledger.trades k (.ofLate (late k))

namespace Pool.Accounted

theorem step (h : pool.Accounted a ledger late) (k : ℕ) :
    ∃ next, (pool.step k).Accounted a (pool.record ledger k) next := by
  rcases h.follows.step k with ⟨hact, hsession, hfollows⟩ |
    ⟨act, next, hact, hadmits, hsession, hstep, hfollows⟩
  · refine ⟨late, hfollows, ?_⟩
    rw [record, hact, hsession]
    exact h.lags
  · refine ⟨_, hfollows, fun j => ?_⟩
    rw [record, hact, hsession]
    by_cases hj : j = k
    · subst hj
      rw [Function.update_self]
      have hlags := h.lags j
      rcases Ledger.trades_after h.follows.sound hadmits ledger hstep with
        ⟨htrades, hnoted, hlate⟩ | ⟨htrades, hnoted, hlate⟩ | ⟨htrades, hnoted, hlate⟩
      · rwa [htrades, hnoted, hlate]
      · rw [hlate] at hlags
        rw [htrades, hnoted]
        exact hlags.enter (.ofLate next)
      · rw [htrades, hnoted, hlate]
        exact hlags.note
    · rw [Function.update_of_ne hj]
      rcases Ledger.trades_after h.follows.sound hadmits ledger hstep with
        ⟨htrades, hnoted, -⟩ | ⟨htrades, hnoted, -⟩ | ⟨htrades, hnoted, -⟩
      · rw [htrades, hnoted]
        exact h.lags j
      · rw [htrades, hnoted]
        exact (h.lags j).enter_of_ne hj (.ofLate next)
      · rw [htrades, hnoted]
        exact (h.lags j).note_of_ne hj (.ofLate (late k))

theorem run (h : pool.Accounted a ledger late) (schedule : List ℕ) :
    ∃ last, (pool.run schedule).Accounted a (pool.ledgerFrom ledger schedule) last := by
  induction schedule generalizing pool ledger late with
  | nil => exact ⟨late, h⟩
  | cons k schedule ih =>
    obtain ⟨next, hnext⟩ := h.step k
    exact ih hnext

/-- When all threads are idle, they have noted all their trades. -/
theorem perm_trades (h : pool.Accounted a ledger late) (hidle : pool.isIdle = true) :
    pool.session.host.noted.stored.Perm ledger.trades.stored ∧
      pool.session.host.noted.returned.Perm ledger.trades.returned := by
  have hlags : ∀ k, pool.session.host.noted.LagsBehind ledger.trades k .nothing := by
    intro k
    have hlags := h.lags k
    rwa [h.follows.eq_rest (action?_of_isIdle hidle k)] at hlags
  exact ⟨Entries.perm_of_ofThread_eq fun k => (hlags k).stored_eq.symm,
    Entries.perm_of_ofThread_eq fun k => (hlags k).returned_eq.symm⟩

end Pool.Accounted

end Accounted

end AtomicSlots
