import AtomicSlots.Proofs.Courses
import AtomicSlots.Proofs.LoopBounds
import AtomicSlots.Proofs.OverlappingCopies

/-!
# Clears while others act

A clear looks for an occupied slot in one step and empties it in another one. In between, the slot
can be emptied by somebody else, or filled again, so what a clear unlinks and counts is what its
swap finds, not what its scan found. Slots that are filled behind it stay filled. That each slot is
empty at some moment of the clear is due to the scan for the slots that it passes, and to the swap
for those that it empties.
-/
namespace AtomicSlots

variable {V H α G G' : Type}

instance : DecidablePred (Action.IsLoad : Action V H → Prop)
  | .loadEntry _ | .load _ => .isTrue trivial
  | .publish _ | .exchangeIf .. | .swap .. | .retire _ | .adjust _ | .readSize | .emit _
  | .readHost | .changeHost _ => .isFalse id

open Program SlotArray

/-- A program that follows one protocol follows another one, if the actions that it is limited to
move the states of both alike. -/
theorem Program.Follows.along [Journal H] {a : SlotArray} {R : Protocol V H G}
    {R' : Protocol V H G'} {P : Action V H → Prop} {Q : Except Panic α → G → Memory V → Prop}
    {p : Program V H α} {g : G} {m : Memory V} (h : p.Follows a R Q g m) (hp : p.Only P)
    (φ : G → G') (hR : ∀ g act m n g', P act → R g act m n g' → R' (φ g) act m n (φ g')) :
    p.Follows a R' (fun r h n => ∃ g', h = φ g' ∧ Q r g' n) (φ g) m := by
  induction p generalizing g m with
  | done x => exact ⟨g, rfl, h⟩
  | panic reason => exact ⟨g, rfl, h⟩
  | step act next ih =>
    intro s hl hs
    obtain ⟨hact, g', hstep, hnext⟩ := h s hl hs
    exact ⟨hact, φ g', hR g act _ _ g' hp.1 hstep, ih _ hnext (hp.2 _)⟩

/-- The memories that a program has seen, and its actions that are more than loads. -/
structure Logbook (V H : Type) where
  seen : Memory V → Prop
  entries : List (Performed V H)

namespace Logbook

/-- Of memories, a program may enter those that its actions find and leave. Of its actions, it has
to enter all but loads. -/
def protocol : Protocol V H (Logbook V H) := fun g act m n g' =>
  (∀ k, g'.seen k → g.seen k ∨ k = m ∨ k = n) ∧
    g'.entries = g.entries ++ if act.IsLoad then [] else [⟨act, m, n⟩]

/-- The logbook with an action and its memories. -/
def enter (g : Logbook V H) (act : Action V H) (m n : Memory V) : Logbook V H :=
  ⟨fun k => g.seen k ∨ k = m ∨ k = n, g.entries ++ [⟨act, m, n⟩]⟩

theorem protocol_enter {act : Action V H} (hact : ¬ act.IsLoad) (g : Logbook V H)
    (m n : Memory V) : protocol g act m n (g.enter act m n) :=
  ⟨fun _ hk => hk, by rw [if_neg hact]; rfl⟩

theorem protocol_load {act : Action V H} (hact : act.IsLoad) {seen' : Memory V → Prop}
    {g : Logbook V H} {m n : Memory V} (hsees : Sees g.seen act m n seen') :
    protocol g act m n ⟨seen', g.entries⟩ :=
  ⟨fun k hk => (hsees k hk).imp_right .inl, by rw [if_pos hact, List.append_nil]⟩

theorem protocol_idle {act : Action V H} (hact : act.IsLoad) (g : Logbook V H) (m n : Memory V) :
    protocol g act m n g := protocol_load hact (Sees.nothing g.seen act m n)

/-- What a program has seen lies in the past. -/
theorem follows_past [Journal H] {a : SlotArray}
    {Q : Except Panic α → Logbook V H → Memory V → Prop} {p : Program V H α} {g : Logbook V H}
    {m : Memory V} (h : p.Follows a protocol Q g m) (hpast : ∀ k, g.seen k → k.Later m) :
    p.Follows a protocol (fun r g' n => Q r g' n ∧ ∀ k, g'.seen k → k.Later n) g m := by
  induction p generalizing g m with
  | done x => exact ⟨h, hpast⟩
  | panic reason => exact ⟨h, hpast⟩
  | step act next ih =>
    intro s hl hs
    obtain ⟨hact, g', hstep, hnext⟩ := h s hl hs
    have hafter := (hs.perform hact).2
    refine ⟨hact, g', hstep, ih _ hnext fun k hk => ?_⟩
    rcases hstep.1 k hk with hk | rfl | rfl
    · exact ((hpast k hk).trans hl).trans hafter
    · exact hafter
    · exact .refl _

theorem of_moves {g g' : Logbook V H} {actions : List (Performed V H)}
    (h : (protocol : Protocol V H _).Moves g actions g') :
    g'.entries = g.entries ++ actions.filter (fun p => ¬ p.act.IsLoad) ∧
      ∀ m, g'.seen m → g.seen m ∨ ∃ p ∈ actions, p.found = m ∨ p.left = m := by
  induction h with
  | nil => exact ⟨by simp, fun _ hm => .inl hm⟩
  | @cons g g₁ g' p rest hmove _ ih =>
    obtain ⟨hsees, hentries⟩ := hmove
    refine ⟨?_, fun m hm => ?_⟩
    · rw [ih.1, hentries, List.append_assoc]
      congr 1
      by_cases hload : p.act.IsLoad <;> simp [hload]
    · rcases ih.2 m hm with hm | ⟨q, hq, hm⟩
      · exact (hsees m hm).imp_right fun h => ⟨p, List.mem_cons_self, h.imp Eq.symm Eq.symm⟩
      · exact .inr ⟨q, List.mem_cons_of_mem _ hq, hm⟩

end Logbook

namespace SlotArray

variable {a : SlotArray} {i j : UInt64} {m : Memory V} {n : ℕ}

/-- A slot is emptied by a swap. If the swap finds an occupant, that one is handed to reclamation
and counted down, and otherwise nothing is. -/
inductive Empties (a : SlotArray) (j : UInt64) : List (Performed V H) → Prop
  | late {cell : Cell} {m : Memory V} : a.cell? m j = some cell → a.occupant? m j = none →
      Empties a j [⟨.swap cell none, m, m.store cell none⟩]
  | unlinks {cell : Cell} {o : Occupant V} {m m₁ m₂ : Memory V} : a.cell? m j = some cell →
      a.occupant? m j = some o →
      Empties a j [⟨.swap cell none, m, m.store cell none⟩, ⟨.retire o, m₁, m₁⟩,
        ⟨.adjust (-1), m₂, m₂.adjust (-1)⟩]

/-- Whoever empties a slot publishes no segment. -/
theorem Empties.ne_publish {actions : List (Performed V H)} (h : a.Empties j actions)
    {p : Performed V H} (hp : p ∈ actions) (e : UInt64) : p.act ≠ .publish e := by
  cases h with
  | late =>
    rcases List.mem_singleton.mp hp with rfl
    nofun
  | unlinks =>
    simp only [List.mem_cons, List.not_mem_nil, or_false] at hp
    rcases hp with rfl | rfl | rfl <;> nofun

/-- If a walk may take as many steps as there are slots, it does not stop before the last one. -/
theorem Gathers.seenEmpty_to_end {seen : Memory V → Prop} {items : List (UInt64 × V)}
    (h : a.Gathers seen n i items) (hn : a.capacity.toNat ≤ n + i.toNat) {k : UInt64} (hk : i ≤ k)
    (hnot : k ∉ items.map Prod.fst) : a.SeenEmpty seen k := by
  induction h with
  | full => exact seenEmpty_of_le (by omega) hk
  | ended hnone => exact hnone k hk
  | @next n i j o items hglimpses _ ih =>
    obtain ⟨hle, hheld, hpassed⟩ := hglimpses
    rw [List.map_cons, List.mem_cons, not_or] at hnot
    have hlt := lt_of_seenHolding hheld
    rw [UInt64.le_iff_toNat_le] at hle
    by_cases hkj : k < j
    · exact hpassed k hk hkj
    · have hjk : j < k := UInt64.lt_of_le_of_ne (UInt64.not_lt.mp hkj) (Ne.symm hnot.1)
      exact ih (by rw [toNat_add_one_of_lt hlt]; omega) ((lt_iff_add_one_le hlt).mp hjk) hnot.2

section Steps

variable [Journal H] {g : Logbook V H}

/-- A scan enters nothing but what it has seen. -/
theorem follows_firstFrom_logged (a : SlotArray) (i : UInt64) (g : Logbook V H) (m : Memory V) :
    (a.firstFrom i : Program V H _).Follows a Logbook.protocol (fun r g' _ => ∃ found,
      r = .ok found ∧ g'.entries = g.entries ∧ a.HasSought i g.seen g'.seen found) g m := by
  let noting (seen : Memory V → Prop) : Logbook V H := ⟨seen, g.entries⟩
  have hmoves : ∀ seen act m n seen', act.IsLoad → Sees seen act m n seen' →
      Logbook.protocol (noting seen) act m n (noting seen') :=
    fun _ _ _ _ _ hact hsees => Logbook.protocol_load hact hsees
  refine ((a.follows_firstFrom i g.seen m).along (a.only_firstFrom i) noting hmoves).mono ?_
  rintro r g' - - ⟨seen', rfl, found, rfl, hsought⟩
  exact ⟨found, rfl, rfl, hsought⟩

/-- A removal empties its slot by a swap, if the slot has its cell already. -/
theorem follows_take {cell : Cell} (hc : a.cell? m j = some cell) :
    (a.take j).Follows a Logbook.protocol (fun r g' _ => ∃ answer actions, r = .ok answer ∧
      a.Empties j actions ∧ g'.entries = g.entries ++ actions ∧
      (∀ m, g.seen m → g'.seen m) ∧ a.SeenEmpty g'.seen j) g m := by
  rw [take, follows_bind]
  refine follows_access (by decide) (fun e n => Logbook.protocol_idle (by exact trivial) g n n)
    (fun hle => ?_) (fun n hl _ _ hnone => ?_) ?_
  · exact absurd (cell?_eq_some_iff.mp hc).1 (UInt64.not_lt.mpr hle)
  · rw [cell?_later hl hc] at hnone
    cases hnone
  · intro n cell hl hn hc
    refine Cell.follows_replace ⟨j, hc⟩ fun n₁ hl₁ hn₁ => ?_
    have hc₁ := cell?_later hl₁ hc
    have ho₁ := occupant?_of_cell? hc₁
    have hempty : a.occupant? (n₁.store cell none) j = none := occupant?_store_self hn₁ hc₁ none
    refine ⟨g.enter (.swap cell none) n₁ (n₁.store cell none), Logbook.protocol_enter id _ _ _,
      fun hnone => ?_, fun o ho n₂ _ _ => ?_⟩
    · exact ⟨none, _, rfl, .late hc₁ (ho₁.trans hnone), rfl, fun _ hm => .inl hm,
        fun _ => ⟨_, .inr (.inr rfl), hempty⟩⟩
    · refine ⟨_, Logbook.protocol_enter id _ _ _, fun s _ _ => ⟨trivial, _,
        Logbook.protocol_enter id _ _ _, ?_⟩⟩
      have hunlinks : a.Empties j [⟨.swap cell none, n₁, n₁.store cell none⟩,
          ⟨.retire o, n₂, n₂⟩, (⟨.adjust (-1), s.memory, s.memory.adjust (-1)⟩ : Performed V H)] :=
        .unlinks hc₁ (ho₁.trans ho)
      refine ⟨_, _, rfl, hunlinks, ?_, fun _ hm => .inl (.inl (.inl hm)),
        fun _ => ⟨_, .inl (.inl (.inr (.inr rfl))), hempty⟩⟩
      simp only [Logbook.enter, List.append_assoc]
      rfl

/-- What a clear has entered from an index on. It has walked over the slots like a copy, and those
that the walk came to are emptied in their order. -/
structure HasCleared (a : SlotArray) (n : ℕ) (i : UInt64) (g g' : Logbook V H)
    (sweeps : List (UInt64 × List (Performed V H))) : Prop where
  mono : ∀ m, g.seen m → g'.seen m
  entries_eq : g'.entries = g.entries ++ (sweeps.map Prod.snd).flatten
  empties : ∀ sweep ∈ sweeps, a.Empties sweep.1 sweep.2
  emptied : ∀ sweep ∈ sweeps, a.SeenEmpty g'.seen sweep.1
  length_le : sweeps.length ≤ n
  gathers : a.capacity.toNat ≤ 2 ^ 64 - 32 →
    ∃ items, a.Gathers g'.seen n i items ∧ items.map Prod.fst = sweeps.map Prod.fst

theorem follows_clear_go (a : SlotArray) (n : ℕ) (i : UInt64) {g : Logbook V H} {m : Memory V}
    (hpast : ∀ k, g.seen k → k.Later m) :
    (clear.go a n i).Follows a Logbook.protocol (fun r g' _ => r = .ok () ∧ ∃ sweeps,
      a.HasCleared n i g g' sweeps) g m := by
  induction n generalizing i g m with
  | zero => exact ⟨rfl, [], fun _ hm => hm, by simp, nofun, nofun, le_rfl, fun _ => ⟨[], .full, rfl⟩⟩
  | succ n ih =>
    rw [clear.go]
    refine follows_bind.mpr
      ((Logbook.follows_past (a.follows_firstFrom_logged i g m) hpast).mono ?_)
    rintro r g₁ m₁ - ⟨⟨found, rfl, hentries, hsought⟩, hpast₁⟩
    rcases found with _ | ⟨j, o⟩
    · exact ⟨rfl, [], hsought.mono, by simpa using hentries, nofun, nofun, by simp,
        fun hcap => ⟨[], .ended (hsought.glimpses hcap), rfl⟩⟩
    · -- the slot had an occupant, so by now it has a cell
      obtain ⟨k, hk, ho⟩ := hsought.held j o rfl
      obtain ⟨cell, hc, -⟩ := Option.bind_eq_some_iff.mp ho
      have htake := Logbook.follows_past (follows_take (g := g₁) (cell?_later (hpast₁ k hk) hc)) hpast₁
      refine follows_bind.mpr (follows_map.mpr (htake.mono ?_))
      rintro r g₂ m₂ - ⟨⟨answer, actions, rfl, hempties, hentries₂, hmono₂, hempty⟩, hpast₂⟩
      refine (ih (j + 1) hpast₂).mono ?_
      rintro r g₃ m₃ - ⟨rfl, sweeps, hrest⟩
      have hlater : ∀ m, g₁.seen m → g₃.seen m := fun m hm => hrest.mono m (hmono₂ m hm)
      refine ⟨rfl, (j, actions) :: sweeps, fun m hm => hlater m (hsought.mono m hm), ?_, ?_, ?_, ?_,
        fun hcap => ?_⟩
      · rw [hrest.entries_eq, hentries₂, hentries]
        simp
      · exact List.forall_mem_cons.mpr ⟨hempties, hrest.empties⟩
      · exact List.forall_mem_cons.mpr ⟨hempty.mono hrest.mono, hrest.emptied⟩
      · exact Nat.succ_le_succ hrest.length_le
      · obtain ⟨items, hgathers, hitems⟩ := hrest.gathers hcap
        exact ⟨_, .next ((hsought.glimpses hcap).mono hlater) hgathers, by simp [hitems]⟩

end Steps

theorem within_access {purpose : Access} (hp : purpose ≠ .fill) {use : Cell → Program V H α}
    (h : ∀ cell, (use cell).Within n) : (a.access purpose i use).Within (1 + n) := by
  by_cases hi : i < a.capacity
  · rw [access_of_lt hi hp]
    refine (within_perform _).bind fun found => ?_
    cases found with
    | none => trivial
    | some segment => exact (h _).map some
  · rw [access_of_le (UInt64.not_lt.mp hi)]
    trivial

theorem within_take (a : SlotArray) (i : UInt64) :
    (a.take i : Program V H (Option V)).Within 4 := by
  have hreplace : ∀ cell : Cell, (cell.replace none : Program V H (Option (Occupant V))).Within 2 := by
    intro cell
    refine (within_perform _).bind (n := 1) fun old => ?_
    cases old with
    | none => trivial
    | some o => exact fun _ => trivial
  refine (within_access (by decide) hreplace).bind (n := 1) fun found => ?_
  rcases found with _ | _ | o
  · trivial
  · trivial
  · exact fun _ => trivial

theorem within_clear (a : SlotArray) :
    (a.clear : Program V H Unit).Within
      (a.capacity.toNat * (33 * a.segmentCount.toNat + 4)) := by
  suffices hgo : ∀ n i, (clear.go a n i : Program V H Unit).Within
    (n * (33 * a.segmentCount.toNat + 4)) from hgo _ 0
  intro n
  induction n with
  | zero => exact fun _ => trivial
  | succ n ih =>
    intro i
    rw [clear.go, Nat.succ_mul, Nat.add_comm, Nat.add_assoc]
    refine (a.within_firstFrom i).bind fun found => ?_
    rcases found with _ | ⟨j, o⟩
    · trivial
    · exact ((a.within_take j).map _).bind fun _ => ih (j + 1)

section Calls

variable [Journal H]

/-- What a clear of one thread has done, and what has been true of the slots while it was under
way. -/
structure Clears (a : SlotArray) (pool : Pool V H α) (k : ℕ) (during : List ℕ)
    (sweeps : List (UInt64 × List (Performed V H))) : Prop where
  changes_eq : (pool.performed k during).filter (fun p => ¬ p.act.IsLoad) =
    (sweeps.map Prod.snd).flatten
  empties : ∀ sweep ∈ sweeps, a.Empties sweep.1 sweep.2
  length_le : sweeps.length ≤ a.capacity.toNat
  publishes_nothing : ∀ p ∈ pool.performed k during, ∀ e, p.act ≠ .publish e
  sorted : a.capacity.toNat ≤ 2 ^ 64 - 32 → (sweeps.map Prod.fst).Pairwise (· < ·)
  sometime_empty : a.capacity.toNat ≤ 2 ^ 64 - 32 →
    ∀ j < a.capacity, pool.Sometime during fun m => a.occupant? m j = none
  none_stays : a.capacity.toNat ≤ 2 ^ 64 - 32 →
    ∀ j o, a.occupant? pool.session.memory j = some o →
      a.occupant? (pool.run during).session.memory j ≠ some o

/-- An occupant does not come back to a slot that was empty meanwhile. -/
theorem not_occupant?_of_sometime_empty {pool : Pool V H α} (hpool : pool.Lawful a)
    {during : List ℕ} (hempty : pool.Sometime during fun m => a.occupant? m j = none)
    {o : Occupant V} (ho : a.occupant? pool.session.memory j = some o) :
    a.occupant? (pool.run during).session.memory j ≠ some o := by
  obtain ⟨early, ⟨late, rfl⟩, hnone⟩ := hempty
  intro hagain
  have hearly := hpool.run early
  have hlt : o.stamp < (pool.run early).session.memory.stamps :=
    (hpool.sound.stamp_lt_of_occupant? ho).trans_le (hpool.later_run early).stamps_le
  rw [Pool.run_append] at hagain
  rw [hearly.sound.occupant?_of_later (hearly.run late).sound (hearly.later_run late) hagain hlt]
    at hnone
  cases hnone

/-- A logbook with what a clear has entered is borne out by the moments of the clear. -/
theorem HasCleared.clears {pool : Pool V H α} (hpool : pool.Lawful a) {k : ℕ} {during : List ℕ}
    {g : Logbook V H} {sweeps : List (UInt64 × List (Performed V H))}
    (h : a.HasCleared a.capacity.toNat 0 ⟨fun _ => False, []⟩ g sweeps)
    (hmoves : (Logbook.protocol : Protocol V H _).Moves ⟨fun _ => False, []⟩
      (pool.performed k during) g) : a.Clears pool k during sweeps := by
  obtain ⟨hentries, hseen⟩ := Logbook.of_moves hmoves
  have hchanges := hentries.symm.trans h.entries_eq
  simp only [List.nil_append] at hchanges
  have hempty : a.capacity.toNat ≤ 2 ^ 64 - 32 →
      ∀ j < a.capacity, pool.Sometime during fun m => a.occupant? m j = none := by
    intro hcap j hj
    obtain ⟨items, hgathers, hitems⟩ := h.gathers hcap
    have hseenEmpty : a.SeenEmpty g.seen j := by
      by_cases hswept : j ∈ sweeps.map Prod.fst
      · obtain ⟨sweep, hsweep, rfl⟩ := List.mem_map.mp hswept
        exact h.emptied sweep hsweep
      · exact hgathers.seenEmpty_to_end le_rfl UInt64.zero_le (by rwa [hitems])
    obtain ⟨m, hm, hnone⟩ := hseenEmpty hj
    rcases hseen m hm with hm | ⟨p, hp, rfl | rfl⟩
    · exact hm.elim
    · exact (Pool.sometime_of_mem_performed hp).1.of_eq hnone
    · exact (Pool.sometime_of_mem_performed hp).2.of_eq hnone
  refine ⟨hchanges, h.empties, h.length_le, fun p hp e hpublish => ?_, fun hcap => ?_, hempty,
    fun hcap j o ho => ?_⟩
  · have hload : ¬ p.act.IsLoad := by rw [hpublish]; exact id
    have hchange : p ∈ (pool.performed k during).filter fun p => ¬ p.act.IsLoad := by
      simpa [hp] using hload
    rw [hchanges] at hchange
    obtain ⟨actions, hactions, hmem⟩ := List.mem_flatten.mp hchange
    obtain ⟨sweep, hsweep, rfl⟩ := List.mem_map.mp hactions
    exact (h.empties sweep hsweep).ne_publish hmem e hpublish
  · obtain ⟨items, hgathers, hitems⟩ := h.gathers hcap
    rw [← hitems]
    exact hgathers.sorted
  · have hj := lt_of_occupant? ho
    exact not_occupant?_of_sometime_empty hpool (hempty hcap j hj) ho

/-- Threads of lawful programs share a fresh array, and one of them has come to a clear. However
their actions interleave from then on, the clear has ended by the time its thread has had as many
turns as it takes to scan the table and to empty a slot, for each slot. Besides loads, the thread
has performed a swap on each of some slots, no more than there are, in the order of their indices.
If a swap has found an occupant the thread has handed that one to reclamation and has counted it
down once, and if it has found none, because somebody else was faster, it has not counted. It has
published no segment. Every slot was empty at some moment of the clear; so no occupant that was in
its slot at the beginning is there at the end. None of this is due to the bounds of the loops: with
larger ones, scans and clears are the same programs. (For more than `2 ^ 64 - 32` slots the index of
a scan can wrap around; their table would take a quarter of all addresses of a 64-bit word.)

Alone, from a memory with an exact count, a clear empties every slot, leaves a size of zero and the
table as it was, and does the same as to empty all slots one after another, which answers what they
held. -/
theorem clear_empties_every_slot (a : SlotArray) (host : H)
    {programs : List (List (Program V H α))} (h : ∀ list ∈ programs, ∀ p ∈ list, p.Lawful a)
    (earlier : List ℕ) {k : ℕ} {f : Unit → Program V H α} {rest : List (Program V H α)}
    {answers : List (Except Panic α)}
    (hk : ((Pool.fresh a host programs).run earlier).threads[k]? =
      some ⟨(a.clear >>= f) :: rest, answers⟩)
    {schedule : List ℕ}
    (hturns : a.capacity.toNat * (33 * a.segmentCount.toNat + 4) ≤ schedule.count k) :
    let pool := (Pool.fresh a host programs).run earlier
    (∃ during later sweeps, schedule = during ++ later ∧
      during.count k ≤ a.capacity.toNat * (33 * a.segmentCount.toNat + 4) ∧
      (pool.run during).threads[k]? = some ⟨f () :: rest, answers⟩ ∧
      a.Clears pool k during sweeps) ∧
    (a.capacity.toNat ≤ 2 ^ 64 - 32 →
      (∀ n i, a.segmentCount.toNat ≤ n → (a.scan n i : Program V H _) = a.firstFrom i) ∧
      ∀ n, a.capacity.toNat ≤ n → (clear.go a n 0 : Program V H Unit) = a.clear) ∧
    ∀ s : Session V H, s.Settled a → ∃ t, a.clear.run s = (.ok (), t) ∧
      (a.takeAll 0 a.capacity.toNat).run s = (.ok (a.slots s.memory), t) ∧
      (∀ i, a.occupant? t.memory i = none) ∧ t.memory.size = 0 ∧
      t.memory.table = s.memory.table := by
  intro pool
  refine ⟨?_, fun hcap => ⟨fun _ i hn => scan_eq_firstFrom hcap hn i,
    fun _ hn => clear_go_eq_clear hcap hn⟩, fun s hs => ?_⟩
  · have hpool : pool.Lawful a := (Pool.lawful_of_programs (sound_ofEntries a) h).run earlier
    have hclear : (a.clear : Program V H Unit).Follows a Logbook.protocol
        (fun r g _ => ∃ x, r = .ok x ∧ ∃ sweeps,
          a.HasCleared a.capacity.toNat 0 ⟨fun _ => False, []⟩ g sweeps)
        ⟨fun _ => False, []⟩ pool.session.memory :=
      (a.follows_clear_go a.capacity.toNat 0 (by simp)).mono
        fun r g _ _ hcleared => ⟨(), hcleared⟩
    obtain ⟨during, later, ⟨⟩, g, hschedule, hcount, hend, ⟨sweeps, hcleared⟩, hmoves⟩ :=
      Pool.exists_return_moves hpool hk a.within_clear hclear hturns
    exact ⟨during, later, sweeps, hschedule, hcount, hend, hcleared.clears hpool hmoves⟩
  · refine ⟨_, run_clear_eq hs.sound, ?_, hs.sound.occupant?_swept_all, ?_,
      a.table_swept 0 a.capacity.toNat s.memory⟩
    · rw [run_takeAll hs.sound (by omega), slots, List.range_eq_range']
    · rw [Memory.size, hs.sound.count_swept_all hs.count_eq]
      rfl

/-- A clear finds slot 1 occupied. Before it empties that slot, another thread does, and fills slot 0
behind it. The clear swaps once and counts nothing, and slot 0 stays filled. -/
theorem clear_empties_every_slot_of_overtaken :
    let a : SlotArray := ⟨2⟩
    let f (_ : Unit) : Program ℕ Unit Bool := .done true
    let pool := Pool.fresh a () [[a.clear >>= f], [a.insert 1 5, a.erase 1, a.insert 0 6]]
    let schedule := List.replicate 7 1 ++ List.replicate 3 0 ++ List.replicate 10 1 ++
      List.replicate 75 0
    (pool.run schedule).answers = [[true], [true, true, true]] ∧
      a.value? (pool.run schedule).session.memory 0 = some 6 ∧
      (pool.run schedule).session.memory.size = 1 ∧
      ((pool.performed 0 schedule).filter fun p => ¬ p.act.IsLoad).length = 1 ∧
      ∃ during later sweeps, schedule = during ++ later ∧
        (pool.run during).threads[0]? = some ⟨[f ()], []⟩ ∧ a.Clears pool 0 during sweeps := by
  intro a f pool schedule
  have h : ∀ list ∈ [[a.clear >>= f], [a.insert 1 5, a.erase 1, a.insert 0 6]],
      ∀ p ∈ list, p.Lawful a := by
    have hclear : (a.clear >>= f).Lawful a := Client.lawful (.bind .clear fun _ => .done _)
    have hinsert : ∀ i v, (a.insert i v : Program ℕ Unit Bool).Lawful a :=
      fun i v => Client.lawful (.insert i v)
    have herase : ∀ i, (a.erase i : Program ℕ Unit Bool).Lawful a :=
      fun i => Client.lawful (.erase i)
    simp [hclear, hinsert, herase]
  have hturns : a.capacity.toNat * (33 * a.segmentCount.toNat + 4) ≤ schedule.count 0 := by decide
  obtain ⟨during, later, sweeps, hschedule, -, hend, hclears⟩ :=
    (clear_empties_every_slot a () h [] (f := f) rfl hturns).1
  exact ⟨by decide +kernel, by decide +kernel, by decide +kernel, by decide +kernel, during, later,
    sweeps, hschedule, hend, hclears⟩

end Calls

end SlotArray

end AtomicSlots
