import AtomicSlots.Proofs.CellClients
import AtomicSlots.Proofs.Counting
import AtomicSlots.Proofs.Release
import AtomicSlots.Script.CellOperation

/-!
# The account of a release

Three numbers meet when an array is released: the count that the operations kept, the number of
slots that a cursor would come to, and the number of values that the walk over the segments gives
back. After any run of clients they are the same, and so are the values. Below the operations, where
signals may be wrong and nobody counts, the values that are given back are still those that a scan
would list: the walk visits cells that no index reaches, but they are never filled.
-/
namespace AtomicSlots

variable {V H α : Type}

namespace SlotArray

variable {a : SlotArray} {m : Memory V}

/-- The release gives back the values of the occupied slots, each once, in the order of the slots'
indices. -/
structure FreesOccupied (a : SlotArray) (m : Memory V) : Prop where
  sorted : ((a.contents m).map Prod.fst).Pairwise (· < ·)
  mem_contents : ∀ i v, (i, v) ∈ a.contents m ↔ a.value? m i = some v
  freed_eq : freed m = (a.contents m).map Prod.snd

theorem mem_itemsFrom {first : ℕ} {i : UInt64} {v : V} :
    (i, v) ∈ a.itemsFrom m first ↔ first ≤ i.toNat ∧ a.value? m i = some v := by
  simp only [itemsFrom, List.mem_filterMap, List.mem_range'_1, Option.map_eq_some_iff, Prod.mk.injEq]
  constructor
  · rintro ⟨k, hk, w, hw, rfl, rfl⟩
    rw [toNat_ofNat_of_lt a (by omega)]
    exact ⟨hk.1, hw⟩
  · rintro ⟨hle, hv⟩
    obtain ⟨o, ho, -⟩ := Option.map_eq_some_iff.mp hv
    have hi := UInt64.lt_iff_toNat_lt.mp (lt_of_occupant? ho)
    exact ⟨i.toNat, by omega, v, by simpa using hv, by simp, rfl⟩

theorem mem_itemsFrom_zero {i : UInt64} {v : V} :
    (i, v) ∈ a.itemsFrom m 0 ↔ a.value? m i = some v := by
  rw [mem_itemsFrom, and_iff_right (Nat.zero_le _)]

theorem pairwise_itemsFrom (first : ℕ) :
    ((a.itemsFrom m first).map Prod.fst).Pairwise (· < ·) := by
  rw [itemsFrom, List.map_filterMap, List.pairwise_filterMap]
  refine (List.pairwise_lt_range' ..).imp_of_mem ?_
  intro k l hk hl hlt i hi j hj
  have hk := toNat_ofNat_of_lt a (k := k) (by have := List.mem_range'_1.mp hk; omega)
  have hl := toNat_ofNat_of_lt a (k := l) (by have := List.mem_range'_1.mp hl; omega)
  simp only [Option.map_map, Option.map_eq_some_iff] at hi hj
  obtain ⟨v, -, rfl⟩ := hi
  obtain ⟨w, -, rfl⟩ := hj
  rw [UInt64.lt_iff_toNat_lt]
  simpa [hk, hl] using hlt

/-- What is stored in slots is all that is stored. -/
theorem Sound.contents_eq (h : a.Sound m) : a.contents m = a.itemsFrom m 0 := by
  rw [contents, h.storedValues_eq, List.filterMap_filterMap, itemsFrom, Nat.sub_zero,
    ← List.range_eq_range']
  refine List.filterMap_congr fun k hk => ?_
  have hk := List.mem_range.mp hk
  cases a.value? m (.ofNat k) with
  | none => rfl
  | some v => simp [hk]

theorem Sound.freesOccupied (h : a.Sound m) : a.FreesOccupied m where
  sorted := by
    rw [h.contents_eq]
    exact pairwise_itemsFrom 0
  mem_contents i v := by rw [h.contents_eq, mem_itemsFrom_zero]
  freed_eq := by
    rw [h.contents_eq, freed_eq_stored, h.storedValues_eq, itemsFrom, List.map_filterMap, List.map_filterMap,
      Nat.sub_zero, ← List.range_eq_range']
    refine List.filterMap_congr fun k _ => ?_
    cases a.value? m (.ofNat k) <;> rfl

/-- As many values are given back as there are occupied slots. -/
theorem Sound.length_contents (h : a.Sound m) : (a.contents m).length = a.occupied m := by
  rw [h.contents_eq, length_itemsFrom_zero]

theorem Sound.length_freed (h : a.Sound m) : (freed m).length = (a.contents m).length := by
  rw [h.freesOccupied.freed_eq, List.length_map]

/-- The occupied slots are as many as the occupied cells. -/
theorem Sound.ncard_cells (h : a.Sound m) :
    {cell | (m.content cell).isSome = true}.ncard = (a.contents m).length := by
  have hslots : {i | (a.value? m i).isSome = true}.ncard = (a.contents m).length := by
    have hset : {i | (a.value? m i).isSome = true} =
        (((a.contents m).map Prod.fst).toFinset : Set UInt64) := by
      ext i
      simp only [Set.mem_ofPred_eq, Option.isSome_iff_exists, List.coe_toFinset, List.mem_map,
        Prod.exists, exists_and_right, exists_eq_right, h.freesOccupied.mem_contents]
    have hnodup : ((a.contents m).map Prod.fst).Nodup :=
      h.freesOccupied.sorted.imp UInt64.ne_of_lt
    rw [hset, Set.ncard_coe_finset, List.toFinset_card_of_nodup hnodup, List.length_map]
  rw [← hslots]
  symm
  have hcell : ∀ i, (a.value? m i).isSome = true → (a.cell? m i).isSome = true := by
    intro i hi
    by_contra hn
    rw [value?, occupant?_of_cell?_eq_none (Option.not_isSome_iff_eq_none.mp hn)] at hi
    cases hi
  refine Set.ncard_congr (fun i hi => (a.cell? m i).get (hcell i hi)) ?_ ?_ ?_
  · intro i hi
    obtain ⟨cell, hc⟩ := Option.isSome_iff_exists.mp (hcell i hi)
    simp only [Set.mem_ofPred_eq, value?, occupant?_of_cell? hc, Option.isSome_map] at hi
    simpa [hc] using hi
  · intro i j hi hj hij
    obtain ⟨cell, hc⟩ := Option.isSome_iff_exists.mp (hcell i hi)
    obtain ⟨cell', hc'⟩ := Option.isSome_iff_exists.mp (hcell j hj)
    simp only [hc, hc', Option.get_some] at hij
    exact h.cell?_inj hc (hc'.trans (congrArg some hij.symm))
  · intro cell hcell
    obtain ⟨o, ho⟩ := Option.isSome_iff_exists.mp hcell
    obtain ⟨i, hi⟩ := h.in_slot cell o ho
    refine ⟨i, ?_, by simp [hi]⟩
    simp [value?, occupant?_of_cell? hi, ho]

end SlotArray

open SlotArray

/-- A lawful program leaves a memory that serves the array, however it ends. -/
theorem Program.Lawful.sound_run [Journal H] {a : SlotArray} {p : Program V H α} (h : p.Lawful a)
    {s : Session V H} (hs : a.Sound s.memory) : a.Sound (p.run s).2.memory :=
  ((h s.memory).run (I := fun _ _ => True) hs trivial fun _ _ _ _ _ _ _ _ => trivial).1

/-- The memory serves the array, and its count is exact. -/
structure Session.Settled (a : SlotArray) (s : Session V H) : Prop where
  sound : a.Sound s.memory
  count_eq : s.memory.count = a.occupied s.memory

namespace Session.Settled

variable {a : SlotArray} {s : Session V H}

theorem fresh (a : SlotArray) (host : H) : Settled a (⟨a.freshMemory, host⟩ : Session V H) where
  sound := sound_ofEntries a
  count_eq := by
    rw [freshMemory, occupied_ofEntries]
    rfl

theorem congr {K : Type} {t : Session V K} (h : Settled a s) (hmemory : t.memory = s.memory) :
    Settled a t := by
  refine ⟨?_, ?_⟩ <;> rw [hmemory]
  · exact h.sound
  · exact h.count_eq

theorem size_eq (h : Settled a s) : s.memory.size = (a.contents s.memory).length := by
  rw [h.sound.length_contents, Memory.size, h.count_eq]
  rfl

variable [Journal H]

theorem run {p : Program V H α} (h : Settled a s) (hp : a.Client p) : Settled a (p.run s).2 :=
  ⟨hp.lawful.sound_run h.sound, hp.count_eq_of_run h.sound h.count_eq⟩

end Session.Settled

/-! Scripts. What they leave is settled after every operation, also after one that panicked. -/

namespace ScriptSession

variable {a : SlotArray}

theorem memory_perform (p : ScriptProgram V (Reply V)) (s : ScriptSession V) :
    (s.perform p).2.memory = (p.run s).2.memory := by
  rw [perform]
  rcases p.run s with ⟨(reason | reply), t⟩ <;> rfl

end ScriptSession

namespace Origin

theorem settled_start (origin : Origin V) : Session.Settled origin.start.1 origin.start.2 := by
  cases origin with
  | empty capacity => exact .fresh ⟨capacity⟩ _
  | ofList values =>
    have hinsert : ∀ (a : SlotArray) i,
        a.Client (a.insertAll i values : Program V (List TraceEvent) Unit) := by
      intro a i
      induction values generalizing i with
      | nil => exact .done _
      | cons v rest ih => exact .bind (.discard (.insert i v)) fun _ => ih _
    exact ((Session.Settled.fresh ⟨.ofNat values.length⟩ [_]).run (hinsert _ 0)).congr rfl

end Origin

namespace Script

variable {a : SlotArray}

theorem settled_runOperations (script : Script V) (operations : List (Operation V))
    {s : ScriptSession V} (h : s.Settled a) (reports : List (StepReport V)) :
    (script.runOperations a operations s reports).2.Settled a := by
  induction operations generalizing s reports with
  | nil => exact h
  | cons operation rest ih =>
    have hclient : a.Client (operation.program (script.predicates a) a) :=
      Operation.client_program (client_filtersAt script.filters a script.filters.size) operation
    rw [runOperations]
    refine ih (Session.Settled.congr (h.run hclient) ?_) _
    exact ScriptSession.memory_perform _ s

end Script

namespace SlotArray.CellClient

variable {a : SlotArray} {holds : Cell → Prop}

theorem next (cursor : Cursor) :
    a.CellClient holds (a.next cursor : Program V H (Option (UInt64 × V) × Cursor)) := by
  refine .bind (.firstFrom _) fun found => ?_
  cases found <;> exact .done _

theorem gather {step : Cursor → Program V H (Option (UInt64 × V) × Cursor)}
    (h : ∀ cursor, a.CellClient holds (step cursor)) (n : ℕ) (cursor : Cursor)
    (items : List (UInt64 × V)) :
    a.CellClient holds (SlotArray.gather step n cursor items) := by
  induction n generalizing cursor items with
  | zero => exact .done _
  | succ n ih =>
    refine .bind (h cursor) fun ⟨found, after⟩ => ?_
    cases found with
    | none => exact .done _
    | some item => exact ih after (item :: items)

end SlotArray.CellClient

namespace CellOperation

variable {a : SlotArray} {holds : Cell → Prop}

theorem cellClient_consult {β γ : Type} {site : CallSite} {argument : β → Argument V}
    {answer : ℕ → β → γ} {aside : ℕ → ScriptProgram V Unit} {call : ℕ}
    (h : a.CellClient holds (aside call)) (panicAt : Option ℕ) (x : β) :
    a.CellClient holds (ScriptProgram.consult site argument answer aside panicAt call x) := by
  refine .bind (.changeHost _) fun _ => .bind h fun _ => ?_
  split
  · exact .panic _
  · exact .done _

theorem cellClient_act {cell : Cell} (hcell : holds cell) (content : Option (Occupant V))
    (act : CellAct V) : a.CellClient holds (act.perform cell content) := by
  cases act with
  | peek => exact .map _ (.load hcell)
  | fill v => exact .map _ (.exchangeIf _ _ hcell)
  | put v => exact .map _ (.replace hcell _)
  | empty => exact .bind (.replace hcell _) fun _ => .bind (.changeHost _) fun _ => .done _
  | putIfSame v =>
    refine .bind (.exchangeIf _ _ hcell) fun exchange => ?_
    split
    · exact .bind (.retire? _) fun _ => .done _
    · exact .done _

mutual

/-- Every operation on cells is a client that keeps to the cells it is handed. -/
theorem cellClient_program : ∀ (operation : CellOperation V) {holds : Cell → Prop},
    a.CellClient holds (operation.program a)
  | access purpose i act _ aside _, _ =>
      .bind (.accessSignal purpose i fun _ => .bind (.load (.inl rfl)) fun _ =>
        .bind (cellClient_consult (cellClient_nested aside) _ _) fun _ =>
          .bind (cellClient_act (.inl rfl) _ act) fun _ => .done _) fun _ => .done _
  | first _, _ => .bind (.firstFrom _) fun _ => .done _
  | scan _, _ => .bind (.gather .next _ _ _) fun _ => .done _
  | capacity, _ => .done _
  | segmentCount, _ => .done _

theorem cellClient_nested : ∀ (operations : List (CellOperation V)) {holds : Cell → Prop},
    a.CellClient holds (nested a operations)
  | [], _ => .done ()
  | operation :: rest, _ => .bind (cellClient_program operation) fun _ =>
      .bind (.changeHost _) fun _ => cellClient_nested rest

end

end CellOperation

namespace CellScript

variable {a : SlotArray}

theorem sound_runOperations (showEvents : Bool) (operations : List (CellOperation V))
    {s : ScriptSession V} (h : a.Sound s.memory) (reports : List (CellReport V)) :
    a.Sound (runOperations showEvents a operations s reports).2.memory := by
  induction operations generalizing s reports with
  | nil => exact h
  | cons operation rest ih =>
    have hrun := (operation.cellClient_program (a := a)).lawful.sound_run h
    rw [← ScriptSession.memory_perform] at hrun
    rw [runOperations]
    refine ih ?_ _
    exact hrun

theorem releaseLog_eq {m : Memory V} (h : a.Sound m) (showEvents : Bool) :
    (if showEvents then (freed m).map Entry.drop ++ [.event (a.released m)]
      else (freed m).map Entry.drop) =
      (a.contents m).map (fun item => .drop item.2) ++
        if showEvents then [.event (.released a.capacity (a.contents m).length)] else [] := by
  rw [released_eq, h.length_freed, h.freesOccupied.freed_eq, List.map_map]
  cases showEvents with
  | true => rfl
  | false => exact (List.append_nil _).symm

end CellScript

namespace Script

/-- The log of a release that gives back some values and tells their number before and after. -/
def exactLog (capacity : UInt64) (values : List V) : List (Entry V) :=
  .event (.dropping capacity values.length) :: values.map .drop ++
    [.event (.released capacity values.length)]

theorem releaseLog_eq {a : SlotArray} {s : Session V H} (h : s.Settled a) :
    releaseLog a s.memory = exactLog a.capacity (freed s.memory) := by
  rw [releaseLog, exactLog, dropping, released_eq, h.size_eq, h.sound.length_freed]

end Script

namespace SlotArray

variable [Journal H]

/-- A release gives back what is stored. After every run of clients, panicking and nested ones
included, it gives back the values of the occupied slots, each once, in the order of their indices;
the count that is told before and the number that is told after are the number of these values. For
programs on cells, whatever they signal, the number that is told is that of the occupied cells, and
the values are those that a scan from the first slot lists just before. (A table for more than
`2 ^ 64 - 32` slots would alone take a quarter of all addresses.) -/
theorem release_frees_what_is_stored (a : SlotArray) (host : H) :
    (∀ programs : List (List (Program V H α)), (∀ list ∈ programs, ∀ p ∈ list, a.Client p) →
      ∀ schedule,
        let pool := (Pool.fresh a host programs).run schedule
        let m := pool.session.memory
        pool.isIdle = true →
          a.FreesOccupied m ∧ (freed m).length = a.occupied m ∧
          Script.releaseLog a m = Script.exactLog a.capacity (freed m)) ∧
    (∀ script : Script V,
      let final := script.run.final
      (final.map Prod.fst).Pairwise (· < ·) ∧
        script.run.dropped = (Script.exactLog script.run.capacity (final.map Prod.snd)).filter
          fun entry => script.showEvents || !entry.isEvent) ∧
    (∀ programs : List (List (Program V H α)),
      (∀ list ∈ programs, ∀ p ∈ list, a.CellClient (fun _ => False) p) → ∀ schedule,
        let s := ((Pool.fresh a host programs).run schedule).session
        a.FreesOccupied s.memory ∧
          a.released s.memory =
            .released a.capacity {cell | (s.memory.content cell).isSome = true}.ncard ∧
          (a.capacity.toNat ≤ 2 ^ 64 - 32 → ∃ items after,
            (a.drain a.next .start).run s = (.ok (items, after), s) ∧
              freed s.memory = items.map Prod.snd)) ∧
    ∀ script : CellScript V,
      let final := script.run.final
      (final.map Prod.fst).Pairwise (· < ·) ∧
        script.run.dropped = final.map (fun item => .drop item.2) ++
          if script.showEvents then [.event (.released script.capacity final.length)] else [] := by
  refine ⟨?_, ?_, ?_, ?_⟩
  · intro programs h schedule pool m hidle
    have hpool : pool.Balanced a _ := (Pool.Balanced.fresh host h).run schedule
    have hsettled : pool.session.Settled a := ⟨hpool.sound, hpool.count_eq_of_isIdle hidle⟩
    exact ⟨hsettled.sound.freesOccupied,
      hsettled.sound.length_freed.trans hsettled.sound.length_contents,
      Script.releaseLog_eq hsettled⟩
  · intro script final
    have hstart : (script.origin.start.2.takeLog script.showEvents).2.Settled script.origin.start.1 :=
      script.origin.settled_start.congr rfl
    have hend := script.settled_runOperations script.operations hstart []
    have hfreed := hend.sound.freesOccupied.freed_eq
    refine ⟨hend.sound.freesOccupied.sorted, ?_⟩
    have hdropped := congrArg (List.filter fun entry => script.showEvents || !entry.isEvent)
      (Script.releaseLog_eq hend)
    rw [hfreed] at hdropped
    exact hdropped
  · intro programs h schedule s
    have hsound : a.Sound s.memory := by
      have hlawful : (Pool.fresh a host programs).Lawful a :=
        Pool.lawful_of_programs (sound_ofEntries a) fun list hlist p hp =>
          (h list hlist p hp).lawful
      exact (hlawful.run schedule).sound
    refine ⟨hsound.freesOccupied, ?_, fun hcap => ?_⟩
    · rw [released_eq, hsound.length_freed, hsound.ncard_cells]
    · obtain ⟨after, hrun⟩ := run_gather_next hcap .start le_rfl [] s
      refine ⟨a.itemsFrom s.memory 0, after, hrun, ?_⟩
      rw [hsound.freesOccupied.freed_eq, hsound.contents_eq]
  · intro script final
    have hend := CellScript.sound_runOperations script.showEvents script.operations
      (s := ⟨(SlotArray.mk script.capacity).freshMemory, .empty⟩) (sound_ofEntries _) []
    exact ⟨hend.freesOccupied.sorted, CellScript.releaseLog_eq hend script.showEvents⟩

/-- A predicate fills another slot and panics, beside a thread that fills a slot of an earlier
segment. Then a program on a cell fills it and signals that it did not. -/
theorem release_frees_what_is_stored_of_panic :
    let a : SlotArray := ⟨40⟩
    let remove : Program ℕ Unit Bool := Attempt.isCommitted <$> a.eraseIf 33 fun _ =>
      a.insert 1 7 >>= fun _ => .panic ⟨.predicate, 0⟩
    let fill : Program ℕ Unit Bool :=
      a.accessSignal .fill 33 fun cell => (fun _ => false) <$> cell.exchangeIf none (some 5)
    let turns := [0, 1] ++ List.replicate 16 0 ++ List.replicate 6 1
    let pool := (Pool.fresh a () [[a.insert 33 5, remove], [a.insert 0 9]]).run turns
    let cells := (Pool.fresh a () [[fill]]).run (List.replicate 5 0)
    pool.isIdle = true ∧ freed pool.session.memory = [9, 7, 5] ∧
      Script.releaseLog a pool.session.memory = Script.exactLog a.capacity [9, 7, 5] ∧
      cells.answers = [[false]] ∧
      {cell | (cells.session.memory.content cell).isSome = true}.ncard = 1 := by
  intro a remove fill turns
  dsimp only
  have hclients : ∀ list ∈ [[a.insert 33 5, remove], [a.insert 0 9]], ∀ p ∈ list, a.Client p := by
    have hremove : a.Client remove :=
      .map _ (.eraseIf 33 fun _ => .bind (.insert 1 7) fun _ => .panic _)
    simp [Client.insert, hremove]
  have hcells : ∀ list ∈ [[fill]], ∀ p ∈ list, a.CellClient (fun _ => False) p := by
    have hfill : a.CellClient (fun _ => False) fill :=
      .accessSignal .fill 33 fun _ => .map _ (.exchangeIf _ _ (.inl rfl))
    simp [hfill]
  have hidle : ((Pool.fresh a () [[a.insert 33 5, remove], [a.insert 0 9]]).run turns).isIdle =
      true := by decide +kernel
  have hfreed : freed ((Pool.fresh a () [[a.insert 33 5, remove], [a.insert 0 9]]).run
      turns).session.memory = [9, 7, 5] := by decide +kernel
  obtain ⟨hpools, -, hcellPools, -⟩ := release_frees_what_is_stored (V := ℕ) (α := Bool) a ()
  obtain ⟨-, -, hlog⟩ := hpools _ hclients _ hidle
  obtain ⟨-, hreleased, -⟩ := hcellPools _ hcells (List.replicate 5 0)
  refine ⟨hidle, hfreed, ?_, by decide +kernel, ?_⟩
  · rw [← hfreed]
    exact hlog
  · have hone : a.released ((Pool.fresh a () [[fill]]).run (List.replicate 5 0)).session.memory =
        .released 40 1 := by decide +kernel
    exact (TraceEvent.released.inj (hreleased.symm.trans hone)).2

end SlotArray

end AtomicSlots
