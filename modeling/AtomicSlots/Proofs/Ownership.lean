import AtomicSlots.Proofs.Accounts
import AtomicSlots.Proofs.Counting

/-!
# Each occupant has one owner

At each moment of each run, an occupant that was stored is in its slot, or it has been taken out by
one thread, which retires it once; what is still in slots at the end is freed by the release. So no
value gets lost, and none is handed out twice. Where slots are emptied and overwritten by operations
only that answer what they took out, callers can check that: what was stored for them is what they
got back and what is still there.
-/
namespace AtomicSlots

variable {V H α : Type}

open Ledger

/-- How it stands with the occupants in a pool. -/
structure Pool.Owns [Journal H] (a : SlotArray) (pool : Pool V H α) (ledger : Ledger V) :
    Prop where
  /-- A published occupant is in its slot, and neither unlinked nor retired; or it is in no slot,
  one thread has unlinked it, and this one has retired it or does so in its next action. -/
  fate : ∀ cell o, (cell, o) ∈ ledger.published → ∃ i,
    a.cell? pool.session.memory i = some cell ∧
      ((a.occupant? pool.session.memory i = some o ∧
          ∀ k, (k, o) ∉ ledger.unlinked ∧ (k, o) ∉ ledger.retired) ∨
        (∀ j, a.occupant? pool.session.memory j ≠ some o) ∧
          ∃ k, (k, o) ∈ ledger.unlinked ∧ (∀ j, (j, o) ∈ ledger.unlinked → j = k) ∧
            ((k, o) ∈ ledger.retired ∨ pool.retiring? k = some o))
  /-- What is in a slot was published there. -/
  in_slot : ∀ i o, a.occupant? pool.session.memory i = some o →
    ∃ cell, a.cell? pool.session.memory i = some cell ∧ (cell, o) ∈ ledger.published
  unlinked_published : ∀ k o, (k, o) ∈ ledger.unlinked → ∃ cell, (cell, o) ∈ ledger.published
  retired_published : ∀ k o, (k, o) ∈ ledger.retired → ∃ cell, (cell, o) ∈ ledger.published
  published_once : (ledger.published.map fun entry => entry.2.stamp).Nodup
  unlinked_once : (ledger.unlinked.map fun entry => entry.2.stamp).Nodup
  retired_once : (ledger.retired.map fun entry => entry.2.stamp).Nodup
  /-- A thread has retired, in the same order, what it has unlinked, up to its next action. -/
  retired_eq : ∀ k, ofThread k ledger.unlinked =
    (pool.retiring? k).toList ++ ofThread k ledger.retired
  /-- The values published are those that were unlinked and those that are still in slots. -/
  values_eq : (ledger.published.map fun entry => entry.2.value).Perm
    ((ledger.unlinked.map fun entry => entry.2.value) ++ a.values pool.session.memory)
  /-- An exchange that loses leaves no trace of its value. -/
  lost : ∀ k cell expected new, pool.action? k = some (.exchangeIf cell expected new) →
    sameOccupant (pool.session.memory.content cell) expected = false →
    (pool.step k).session.memory = pool.session.memory ∧ pool.record ledger k = ledger
  /-- The release comes to each occupied slot once. -/
  released : pool.session.memory.storedValues =
    (List.range a.capacity.toNat).filterMap fun k =>
      (a.value? pool.session.memory (.ofNat k)).map (k, ·)

namespace Ledger

theorem map_value_published (ledger : Ledger V) :
    (ledger.published.map fun entry => entry.2.value) = (newValues ledger.stores).map Prod.snd := by
  rw [published, newValues, List.map_filterMap, List.map_filterMap]
  refine List.filterMap_congr fun store _ => ?_
  rw [Option.map_map, Option.map_map]
  rfl

theorem map_value_unlinked (ledger : Ledger V) :
    (ledger.unlinked.map fun entry => entry.2.value) = (oldValues ledger.stores).map Prod.snd := by
  rw [unlinked, oldValues, List.map_filterMap, List.map_filterMap]
  refine List.filterMap_congr fun store _ => ?_
  rw [Option.map_map, Option.map_map]
  rfl

end Ledger

section Owns

variable [Journal H] {a : SlotArray} {pool : Pool V H α} {ledger : Ledger V} {duties : ℕ → Duty V}

namespace Pool.Owned

theorem retired_eq (h : pool.Owned a ledger duties) (k : ℕ) :
    ofThread k ledger.unlinked = (pool.retiring? k).toList ++ ofThread k ledger.retired := by
  rw [← h.follows.toRetire_eq]
  exact h.settled.retired_eq k

/-- A published occupant has been unlinked or is still in its slot. -/
theorem fate (h : pool.Owned a ledger duties) {cell : Cell} {o : Occupant V}
    (ho : (cell, o) ∈ ledger.published) : ∃ i, a.cell? pool.session.memory i = some cell ∧
      ((a.occupant? pool.session.memory i = some o ∧
          ∀ k, (k, o) ∉ ledger.unlinked ∧ (k, o) ∉ ledger.retired) ∨
        (∀ j, a.occupant? pool.session.memory j ≠ some o) ∧
          ∃ k, (k, o) ∈ ledger.unlinked ∧ (∀ j, (j, o) ∈ ledger.unlinked → j = k) ∧
            ((k, o) ∈ ledger.retired ∨ pool.retiring? k = some o)) := by
  obtain ⟨i, hi⟩ := h.books.in_slot _ ho
  refine ⟨i, hi, ?_⟩
  by_cases hunlinked : ∃ k, (k, o) ∈ ledger.unlinked
  · obtain ⟨k, hk⟩ := hunlinked
    refine .inr ⟨fun j hj => ?_, k, hk, fun j hj => ?_, ?_⟩
    · obtain ⟨d, -, hcontent⟩ := Option.bind_eq_some_iff.mp hj
      exact ((h.books.content_iff d o).mp hcontent).2 k hk
    · exact congrArg Prod.fst
        (List.inj_on_of_nodup_map h.books.unlinked_nodup hj hk rfl : (j, o) = (k, o))
    · have hmem := mem_ofThread.mpr hk
      rw [h.retired_eq, List.mem_append, Option.mem_toList, mem_ofThread] at hmem
      exact hmem.symm
  · have hnot : ∀ k, (k, o) ∉ ledger.unlinked := fun k hk => hunlinked ⟨k, hk⟩
    refine .inl ⟨?_, fun k => ⟨hnot k, fun hk => hnot k (h.settled.mem_unlinked hk)⟩⟩
    rw [SlotArray.occupant?_of_cell? hi]
    exact (h.books.content_iff cell o).mpr ⟨ho, hnot⟩

theorem owns (h : pool.Owned a ledger duties) : pool.Owns a ledger where
  fate _ _ := h.fate
  in_slot i o ho := by
    obtain ⟨cell, hc, hcontent⟩ := Option.bind_eq_some_iff.mp ho
    exact ⟨cell, hc, ((h.books.content_iff cell o).mp hcontent).1⟩
  unlinked_published k o hk := h.books.unlinked_published _ hk
  retired_published k o hk := h.books.unlinked_published _ (h.settled.mem_unlinked hk)
  published_once := h.books.published_nodup
  unlinked_once := h.books.unlinked_nodup
  retired_once := h.settled.retired_nodup
  retired_eq := h.retired_eq
  values_eq := Multiset.coe_eq_coe.mp (h.books.values_eq.trans (Multiset.coe_add _ _))
  lost k cell expected new hact hlost := by
    rcases h.follows.step k with ⟨hnone, -, -⟩ | ⟨act, g, hact', -, hsession, -, -⟩
    · rw [hact] at hnone
      cases hnone
    · obtain rfl : Action.exchangeIf cell expected new = act :=
        Option.some.inj (hact.symm.trans hact')
      constructor
      · rw [hsession]
        exact congrArg Prod.snd (Memory.exchangeIf_of_not_same new hlost)
      · rw [record, hact, hsession]
        exact after_exchangeIf_of_not_same ledger k new hlost
  released := h.follows.sound.storedValues_eq

theorem fresh (host : H) {programs : List (List (Program V H α))}
    (h : ∀ list ∈ programs, ∀ p ∈ list, a.Client p) :
    (Pool.fresh a host programs).Owned a ⟨[], []⟩ fun _ => .free where
  follows := .of_comesToRest (SlotArray.sound_ofEntries a) fun _ list hlist p hp =>
    (h list (List.mem_of_getElem? hlist) p hp).dutiful
  books := .fresh a
  settled := .fresh

/-- When all threads are idle, all that was unlinked is retired. -/
theorem perm_retired (h : pool.Owned a ledger duties) (hidle : pool.isIdle = true) :
    ledger.unlinked.Perm ledger.retired := by
  refine (List.perm_ext_iff_of_nodup (.of_map _ h.books.unlinked_nodup)
    (.of_map _ h.settled.retired_nodup)).mpr fun ⟨k, o⟩ => ?_
  have hk := h.settled.retired_eq k
  rw [h.follows.eq_rest (Pool.action?_of_isIdle hidle k)] at hk
  rw [← mem_ofThread, hk]
  exact mem_ofThread

end Pool.Owned

theorem Pool.ledgerFrom_append (pool : Pool V H α) (ledger : Ledger V) (first second : List ℕ) :
    pool.ledgerFrom ledger (first ++ second) =
      (pool.run first).ledgerFrom (pool.ledgerFrom ledger first) second := by
  induction first generalizing pool ledger with
  | nil => rfl
  | cons k first ih => exact ih _ _

/-- Nothing is taken back from a ledger. -/
theorem Pool.suffix_ledgerFrom (pool : Pool V H α) (ledger : Ledger V) (schedule : List ℕ) :
    ledger.stores <:+ (pool.ledgerFrom ledger schedule).stores ∧
      ledger.retired <:+ (pool.ledgerFrom ledger schedule).retired := by
  induction schedule generalizing pool ledger with
  | nil => exact ⟨List.suffix_rfl, List.suffix_rfl⟩
  | cons k schedule ih =>
    have hrecord : ledger.stores <:+ (pool.record ledger k).stores ∧
        ledger.retired <:+ (pool.record ledger k).retired := by
      rw [record]
      cases pool.action? k with
      | none => exact ⟨List.suffix_rfl, List.suffix_rfl⟩
      | some act =>
        cases act with
        | swap => exact ⟨List.suffix_cons _ _, List.suffix_rfl⟩
        | retire => exact ⟨List.suffix_rfl, List.suffix_cons _ _⟩
        | exchangeIf =>
          simp only [Ledger.after]
          split
          · exact ⟨List.suffix_cons _ _, List.suffix_rfl⟩
          · exact ⟨List.suffix_rfl, List.suffix_rfl⟩
        | loadEntry | publish | load | adjust | readSize | emit | readHost | changeHost =>
          exact ⟨List.suffix_rfl, List.suffix_rfl⟩
    obtain ⟨hstores, hretired⟩ := ih (pool.step k) (pool.record ledger k)
    exact ⟨hrecord.1.trans hstores, hrecord.2.trans hretired⟩

end Owns

namespace Pool.Owns

variable [Journal H] {a : SlotArray} {pool later : Pool V H α} {ledger more : Ledger V}

/-- An occupant that is in a slot at one moment is in no other slot at a later one. -/
theorem index_eq (h : pool.Owns a ledger) (hlater : later.Owns a more)
    (hmore : ledger.stores <:+ more.stores)
    (hl : pool.session.memory.Later later.session.memory)
    (hs : a.Sound later.session.memory) {i j : UInt64} {o p : Occupant V}
    (ho : a.occupant? pool.session.memory i = some o)
    (hp : a.occupant? later.session.memory j = some p) (hstamp : o.stamp = p.stamp) :
    i = j ∧ o = p := by
  obtain ⟨c, hc, hoc⟩ := h.in_slot i o ho
  obtain ⟨d, hd, hpd⟩ := hlater.in_slot j p hp
  have hmem : (c, o) ∈ more.published := (hmore.filterMap _).mem hoc
  have heq : (c, o) = (d, p) :=
    List.inj_on_of_nodup_map hlater.published_once hmem hpd hstamp
  obtain ⟨rfl, rfl⟩ := Prod.mk.inj heq
  exact ⟨hs.cell?_inj (SlotArray.cell?_later hl hc) hd, rfl⟩

end Pool.Owns

theorem Pool.Accounted.fresh [Journal H] (a : SlotArray) (host : H)
    (routines : List (List (Routine V H α))) :
    (Pool.fresh a (⟨host, []⟩ : NoticeBoard V H) (Routine.postingPrograms a routines)).Accounted
      a ⟨[], []⟩ fun _ => none where
  follows := Routine.follows_postingPool (SlotArray.sound_ofEntries a) host routines
  lags _ := ⟨rfl, rfl⟩

/-- In every run of clients on a fresh array, each occupant that an operation publishes is at every
later moment in its slot, or has been unlinked by one thread that retires it once. Exchanges that
lose leave nothing behind, no occupant is ever in two slots, and once all threads are idle, what was
unlinked is retired and the release frees what is still in slots.

Where the callers post what operations answer, a thread has noted, in their order, the values that
its fills and swaps stored and those that its swaps took out, up to the operation that is under way.
So if no exchange against an occupant was won, and slots were therefore emptied and overwritten by
swaps only, the values stored for the callers are in the end those that they got back and those that
are still in slots. -/
theorem SlotArray.each_occupant_has_one_owner (a : SlotArray) :
    (∀ {H : Type} [Journal H] {α : Type} (host : H) (programs : List (List (Program V H α))),
      (∀ list ∈ programs, ∀ p ∈ list, a.Client p) → ∀ schedule,
      let start := Pool.fresh a host programs
      let pool := start.run schedule
      let ledger := start.ledger schedule
      pool.Owns a ledger ∧
      (pool.isIdle = true → ledger.unlinked.Perm ledger.retired ∧
        freed pool.session.memory = a.values pool.session.memory) ∧
      ∀ more, (start.run (schedule ++ more)).Owns a (start.ledger (schedule ++ more)) ∧
        ledger.stores <:+ (start.ledger (schedule ++ more)).stores ∧
        ledger.retired <:+ (start.ledger (schedule ++ more)).retired ∧
        ∀ i j o p, a.occupant? pool.session.memory i = some o →
          a.occupant? (start.run (schedule ++ more)).session.memory j = some p →
          o.stamp = p.stamp → i = j ∧ o = p) ∧
    ∀ {H : Type} [Journal H] {α : Type} (host : H) (routines : List (List (Routine V H α)))
      (schedule : List ℕ),
      let start := Pool.fresh a (⟨host, []⟩ : NoticeBoard V H) (Routine.postingPrograms a routines)
      let pool := start.run schedule
      let ledger := start.ledger schedule
      let noted := pool.session.host.noted
      (∀ k, ∃ late, noted.LagsBehind ledger.trades k late ∧
        (pool.action? k = none → late = .nothing)) ∧
      (pool.isIdle = true → (∀ store ∈ ledger.stores, store.revises = false) →
        (noted.stored.map Prod.snd).Perm
          (noted.returned.map Prod.snd ++ a.values pool.session.memory)) := by
  constructor
  · intro H _ α host programs hclients schedule start pool ledger
    obtain ⟨duties, howned⟩ := (Pool.Owned.fresh host hclients).run schedule
    refine ⟨howned.owns, fun hidle => ⟨howned.perm_retired hidle, howned.follows.sound.freed_eq⟩,
      fun more => ?_⟩
    obtain ⟨last, hlast⟩ := howned.run more
    have hrun : start.run (schedule ++ more) = pool.run more := Pool.run_append _ _ _
    have hledger : start.ledger (schedule ++ more) = pool.ledgerFrom ledger more :=
      Pool.ledgerFrom_append _ _ _ _
    obtain ⟨hstores, hretired⟩ := Pool.suffix_ledgerFrom pool ledger more
    rw [hrun, hledger]
    exact ⟨hlast.owns, hstores, hretired, fun i j o p ho hp hstamp =>
      howned.owns.index_eq hlast.owns hstores (howned.follows.later_run more)
        hlast.follows.sound ho hp hstamp⟩
  · intro H _ α host routines schedule start pool ledger noted
    obtain ⟨late, haccounted⟩ := (Pool.Accounted.fresh a host routines).run schedule
    obtain ⟨duties, howned⟩ := (Pool.Owned.fresh (⟨host, []⟩ : NoticeBoard V H)
      (Routine.clients_postingPrograms a routines)).run schedule
    refine ⟨fun k => ⟨_, haccounted.lags k, fun hact => ?_⟩, fun hidle hplain => ?_⟩
    · rw [haccounted.follows.eq_rest hact]
      rfl
    have hnoted : noted.stored.Perm ledger.trades.stored ∧
        noted.returned.Perm ledger.trades.returned := haccounted.perm_trades hidle
    have hvalues := howned.owns.values_eq
    rw [map_value_published, map_value_unlinked] at hvalues
    rw [trades_eq hplain] at hnoted
    exact ((hnoted.1.map _).trans hvalues).trans ((hnoted.2.symm.map _).append_right _)

/-- A fill finds slot 0 empty and is overtaken by a swap, so it stores nothing and its value 5 is
nowhere. The value 7 of the swap is taken out afterwards, and 8 stays in slot 1. -/
theorem owners_of_overtaken_fill :
    let a : SlotArray := ⟨2⟩
    let routines : List (List (Routine ℕ Unit Unit)) :=
      [[.bind (.fill 0 (.done 5)) fun _ => .done (), .bind (.take 0) fun _ => .done ()],
        [.bind (.swap 0 7) fun _ => .done (), .bind (.swap 1 8) fun _ => .done ()]]
    let schedule := [0, 0, 0, 0] ++ List.replicate 11 1 ++ List.replicate 9 0
    let start := Pool.fresh a (⟨(), []⟩ : NoticeBoard ℕ Unit) (Routine.postingPrograms a routines)
    let pool := start.run schedule
    let ledger := start.ledger schedule
    let noted := pool.session.host.noted
    (∀ list ∈ Routine.postingPrograms a routines, ∀ p ∈ list, a.Client p) ∧ pool.isIdle = true ∧
      (∀ store ∈ ledger.stores, store.revises = false) ∧
      noted.stored = [(1, 8), (1, 7)] ∧ noted.returned = [(0, 7)] ∧
      a.values pool.session.memory = [8] ∧
      (noted.stored.map Prod.snd).Perm
        (noted.returned.map Prod.snd ++ a.values pool.session.memory) ∧
      pool.Owns a ledger ∧ ledger.unlinked.Perm ledger.retired := by
  intro a routines schedule start pool ledger noted
  have hclients := Routine.clients_postingPrograms a routines
  have hidle : pool.isIdle = true := by decide +kernel
  have hplain : ∀ store ∈ ledger.stores, store.revises = false := by decide +kernel
  have hstored : noted.stored = [(1, 8), (1, 7)] := by decide +kernel
  have hreturned : noted.returned = [(0, 7)] := by decide +kernel
  have hvalues : a.values pool.session.memory = [8] := by decide +kernel
  have howns := a.each_occupant_has_one_owner.1 (⟨(), []⟩ : NoticeBoard ℕ Unit) _ hclients schedule
  have hbalance := (a.each_occupant_has_one_owner.2 () routines schedule).2 hidle hplain
  refine ⟨hclients, hidle, hplain, hstored, hreturned, hvalues, ?_, howns.1, (howns.2.1 hidle).1⟩
  simp only [noted, pool, start]
  exact hbalance

end AtomicSlots
