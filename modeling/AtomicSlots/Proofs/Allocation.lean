import AtomicSlots.Proofs.Courses
import AtomicSlots.Proofs.Publication
import AtomicSlots.Proofs.SlotMap

/-!
# Which segments there are

One thread works on a fresh array: it performs accesses with any programs on their cells, and these
may perform accesses again, panic, and catch panics. At each moment the segments are those of the
slots for which an access for filling has begun, except that an access which has found its segment
missing publishes it with its next action. The six operations that may store into an empty slot are
such accesses, the other ones are not.
-/
namespace AtomicSlots

variable {V H α β : Type}

open Program

namespace SlotArray

variable {a : SlotArray}

/-- What is allocated is counted entry by entry. -/
theorem Sound.allocated_eq_ncard {m : Memory V} (h : a.Sound m) :
    m.allocated = {e : UInt64 | (m.segmentAt e).isSome = true}.ncard := by
  let allocated := (List.range m.table.size).filter fun k => (m.table[k]?.join).isSome
  have hlist : m.table.toList = (List.range m.table.size).map fun k => m.table[k]?.join := by
    refine List.ext_getElem (by simp) fun k hk _ => ?_
    have hlt : k < m.table.size := by simpa using hk
    simp [hlt]
  have himage : UInt64.toNat '' {e | (m.segmentAt e).isSome = true} = allocated.toFinset := by
    ext k
    simp only [allocated, Set.mem_image, Set.mem_ofPred_eq, List.coe_toFinset, List.mem_filter,
      List.mem_range]
    constructor
    · rintro ⟨e, he, rfl⟩
      refine ⟨?_, he⟩
      by_contra hlt
      rw [Memory.segmentAt, Array.getElem?_eq_none (by omega)] at he
      cases he
    · rintro ⟨hlt, hk⟩
      have hword : (UInt64.ofNat k).toNat = k := by
        rw [h.size_table] at hlt
        exact UInt64.toNat_ofNat_of_lt' (hlt.trans a.segmentCount.toNat_lt)
      exact ⟨.ofNat k, by rwa [Memory.segmentAt, hword], hword⟩
  have hinj : Function.Injective UInt64.toNat := fun _ _ => UInt64.toNat_inj.mp
  rw [← Set.ncard_image_of_injective _ hinj, himage, Set.ncard_coe_finset,
    List.toFinset_card_of_nodup (List.nodup_range.filter _), Memory.allocated,
    ← Array.countP_toList, hlist, List.countP_map, List.countP_eq_length_filter]
  rfl

/-- A client that may use more cells is one still. -/
theorem CellClient.mono {p : Program V H α} {holds holds' : Cell → Prop}
    (h : a.CellClient holds p) (hle : ∀ cell, holds cell → holds' cell) :
    a.CellClient holds' p := by
  induction h generalizing holds' with
  | done x => exact .done x
  | panic reason => exact .panic reason
  | bind _ _ ihp ihf => exact .bind (ihp hle) fun x => ihf x hle
  | caught _ ih => exact .caught (ih hle)
  | readHost => exact .readHost
  | changeHost change => exact .changeHost change
  | size => exact .size
  | adjustCount change => exact .adjustCount change
  | load hcell => exact .load (hle _ hcell)
  | exchangeIf expected new hcell => exact .exchangeIf expected new (hle _ hcell)
  | swap new hcell => exact .swap new (hle _ hcell)
  | retire o => exact .retire o
  | access purpose i _ ih => exact .access purpose i fun cell => ih cell fun c => .imp_right (hle c)
  | firstFrom i => exact .firstFrom i

/-! The operations on one slot are clients of cells, with clients for callbacks. -/

namespace CellClient

variable {holds : Cell → Prop}

theorem fillSlot (i : UInt64) {make : Program V H V} (h : a.CellClient holds make) :
    a.CellClient holds (a.fill i make) := by
  refine .bind (.access .fill i fun cell => .fill (.inl rfl) (h.mono fun _ => .inr)) fun found => ?_
  cases found with
  | none => exact .done _
  | some filling =>
    dsimp only
    split
    · exact .bind (.adjustCount 1) fun _ => .done _
    · exact .done _

theorem swapSlot (i : UInt64) (v : V) : a.CellClient holds (a.swap i v : Program V H _) := by
  refine .bind (.access .fill i fun cell => .replace (.inl rfl) _) fun found => ?_
  cases found with
  | none => exact .done _
  | some old => cases old <;> first | exact .done _ | exact .bind (.adjustCount 1) fun _ => .done _

theorem takeSlot (i : UInt64) : a.CellClient holds (a.take i : Program V H _) := by
  refine .bind (.access .vacate i fun cell => .replace (.inl rfl) _) fun found => ?_
  cases found with
  | none => exact .done _
  | some old =>
    cases old <;> first | exact .done _ | exact .bind (.adjustCount (-1)) fun _ => .done _

theorem eraseSlotIf (i : UInt64) {accepts : V → Program V H Bool}
    (ha : ∀ v, a.CellClient holds (accepts v)) : a.CellClient holds (a.eraseIf i accepts) := by
  refine .bind (.access .vacate i fun cell =>
    .revise (.inl rfl) (fun v => (ha v).mono fun _ => .inr) fun _ => .done _) fun found => ?_
  cases found with
  | none => exact .done _
  | some attempt =>
    cases attempt <;> first | exact .done _ | exact .bind (.adjustCount (-1)) fun _ => .done _

theorem updateSlot (i : UInt64) {factory : V → Program V H V} {accepts : V → Program V H Bool}
    (hf : ∀ v, a.CellClient holds (factory v)) (ha : ∀ v, a.CellClient holds (accepts v)) :
    a.CellClient holds (a.update i factory accepts) :=
  .map _ (.access .inspect i fun _ => .revise (.inl rfl) (fun v => (ha v).mono fun _ => .inr)
    fun v => .map _ ((hf v).mono fun _ => .inr))

theorem getSlot (i : UInt64) : a.CellClient holds (a.get? i : Program V H _) := by
  refine .bind (.access .inspect i fun _ => .load (.inl rfl)) fun found => ?_
  cases found <;> exact .done _

end CellClient

end SlotArray

theorem Routine.cellClient {holds : Cell → Prop} (a : SlotArray) (r : Routine V H α) :
    a.CellClient holds (r.program a) := by
  induction r with
  | done x => exact .done x
  | panic reason => exact .panic reason
  | bind p f hp hf => exact .bind hp hf
  | caught p hp => exact .caught hp
  | readHost => exact .readHost
  | changeHost change => exact .changeHost change
  | size => exact .size
  | get i => exact .getSlot i
  | first i => exact .map _ (.firstFrom i)
  | fill i make hmake => exact .fillSlot i hmake
  | swap i v => exact .swapSlot i v
  | take i => exact .takeSlot i
  | eraseIf i accepts ha => exact .eraseSlotIf i ha
  | update i factory accepts hf ha => exact .updateSlot i hf ha

namespace Program.Accesses

variable {a : SlotArray} {purpose : Access} {i : UInt64} {p : Program V H α}

theorem bind (h : p.Accesses a purpose i) (f : α → Program V H β) :
    (p >>= f).Accesses a purpose i := by
  obtain ⟨γ, use, g, rfl⟩ := h
  exact ⟨γ, use, _, bind_assoc ..⟩

theorem map (h : p.Accesses a purpose i) (f : α → β) : (f <$> p).Accesses a purpose i :=
  h.bind fun x => .done (f x)

theorem fill (i : UInt64) (make : Program V H V) : (a.fill i make).Accesses a .fill i :=
  ⟨_, _, _, rfl⟩

theorem swap (i : UInt64) (v : V) : (a.swap i v : Program V H _).Accesses a .fill i :=
  ⟨_, _, _, rfl⟩

theorem take (i : UInt64) : (a.take i : Program V H _).Accesses a .vacate i := ⟨_, _, _, rfl⟩

end Program.Accesses

namespace SlotOperation

variable {a : SlotArray}

/-- What an operation wants its slot for. -/
def purpose : SlotOperation V H → Access
  | insert .. | tryInsert .. | getOrInsert .. | getOrFill .. | exchange .. | set .. => .fill
  | erase _ | take _ | eraseIf .. => .vacate
  | update .. | get _ | contains _ => .inspect

/-- An operation is an access to its slot, whose answer it makes its reply of. -/
theorem accesses (a : SlotArray) (operation : SlotOperation V H) :
    (operation.program a).Accesses a operation.purpose operation.index := by
  cases operation with
  | insert i v => exact (Accesses.fill i _).map _ |>.map _
  | tryInsert i v => exact (Accesses.fill i _).map _
  | getOrInsert i v => exact (Accesses.fill i _).map _ |>.map _
  | getOrFill i make => exact (Accesses.fill i _).map _ |>.map _
  | exchange i v => exact (Accesses.swap i _).bind _ |>.map _
  | set i v => exact (Accesses.swap i _).bind _ |>.map _
  | erase i => exact (Accesses.take i).map _ |>.map _
  | take i => exact (Accesses.take i).map _
  | eraseIf i accepts => exact Accesses.map ⟨_, _, _, rfl⟩ _
  | update i factory accepts => exact Accesses.map ⟨_, _, _, rfl⟩ _
  | get i => exact Accesses.map ⟨_, _, _, rfl⟩ _
  | contains i => exact Accesses.map ⟨_, _, _, rfl⟩ _

/-- The callbacks of the operation are clients themselves. -/
def IsClient (a : SlotArray) : SlotOperation V H → Prop
  | getOrFill _ make => a.CellClient (fun _ => False) make
  | eraseIf _ accepts => ∀ v, a.CellClient (fun _ => False) (accepts v)
  | update _ factory accepts => (∀ v, a.CellClient (fun _ => False) (factory v)) ∧
      ∀ v, a.CellClient (fun _ => False) (accepts v)
  | insert .. | tryInsert .. | getOrInsert .. | exchange .. | set .. | erase _ | take _ | get _
  | contains _ => True

theorem IsClient.cellClient {operation : SlotOperation V H} (h : operation.IsClient a) :
    a.CellClient (fun _ => False) (operation.program a) := by
  cases operation with
  | insert i v | getOrInsert i v => exact .map _ (.map _ (.fillSlot i (.done v)))
  | tryInsert i v => exact .map _ (.fillSlot i (.done v))
  | getOrFill i make => exact .map _ (.map _ (.fillSlot i h))
  | exchange i v | set i v =>
    refine .map _ (.bind (.swapSlot i v) fun old => ?_)
    cases old <;> exact .done _
  | erase i => exact .map _ (.map _ (.takeSlot i))
  | take i => exact .map _ (.takeSlot i)
  | eraseIf i accepts => exact .map _ (.eraseSlotIf i h)
  | update i factory accepts => exact .map _ (.updateSlot i h.1 h.2)
  | get i => exact .map _ (.getSlot i)
  | contains i =>
    exact .map _ (.accessSignal .inspect i fun _ => .map _ (.load (.inl rfl)))

end SlotOperation

namespace Program

/-- What a program goes on with when it has a segment can be read off the program. -/
theorem eq_of_segmentOrFresh_bind {e d : UInt64} {f g : ℕ → Program V H α}
    (h : segmentOrFresh e >>= f = segmentOrFresh d >>= g) (segment : ℕ) :
    f segment = g segment := by
  rw [segmentOrFresh_eq, segmentOrFresh_eq] at h
  obtain ⟨-, hnext⟩ := Program.step.inj h
  exact congrFun (eq_of_heq hnext) (some segment)

/-- A program that has got the cell of its slot from an access leaves the table alone. -/
theorem Stands.orderly_of_access {a : SlotArray} {i : UInt64} (hi : i < a.capacity)
    {use : Cell → Program V H β} {f : Option β → Program V H α}
    (h : (a.access .fill i use >>= f).Stands a) (segment : ℕ) :
    (use ⟨segment, (Address.ofIndex i).offset⟩ >>= fun x => f (some x)).Orderly a := by
  generalize hp : a.access .fill i use >>= f = p at h
  rw [SlotArray.access_fill_bind hi] at hp
  cases h with
  | orderly h =>
    cases h with
    | done x => cases hp
    | panic reason => cases hp
    | step hact hnext =>
      rw [segmentOrFresh_eq] at hp
      cases hp
      cases (hnext none).intent_eq
    | access hj huse =>
      rw [SlotArray.access_fill_bind hj] at hp
      rw [eq_of_segmentOrFresh_bind hp segment]
      exact huse _
  | publishing e h => cases hp
  | announcing e h => cases hp

end Program

namespace Pool

variable {a : SlotArray} {start pool : Pool V H α} {turns : List ℕ}

/-- The thread is not inside an access that has not yet got its cell: it stands in front of what
comes before such an access, on its cell, or after it, or has nothing left to do. -/
def IsOutside (a : SlotArray) (pool : Pool V H α) : Prop :=
  ∀ p rest answers, pool.threads[0]? = some ⟨p :: rest, answers⟩ → p.Orderly a

theorem IsOutside.intent_eq (h : pool.IsOutside a) : pool.intent 0 = .ordinary := by
  rw [intent]
  cases hk : pool.threads[0]? with
  | none => rfl
  | some thread =>
    obtain ⟨_ | ⟨p, rest⟩, answers⟩ := thread
    · rfl
    · exact (h p rest answers hk).intent_eq

theorem isOutside_of_isIdle (h : pool.isIdle = true) : pool.IsOutside a := by
  intro p rest answers hk
  have htodo := List.all_eq_true.mp h _ (List.mem_of_getElem? hk)
  cases htodo

variable [Journal H]

/-- An access begins with a look. -/
theorem session_step_of_begins {k : ℕ} {i : UInt64} (hi : i < a.capacity)
    (h : pool.Begins a k i) : (pool.step k).session = pool.session := by
  obtain ⟨p, rest, answers, hk, β, use, f, rfl⟩ := h
  rw [SlotArray.access_fill_bind hi, segmentOrFresh_eq] at hk
  exact (step_of_acts hk).1

/-- What one thread alone has made of a fresh array at a moment of its run. -/
structure AllocatesOnCall (a : SlotArray) (start : Pool V H α) (turns : List ℕ) : Prop where
  /-- A segment is there if an access for filling has begun that needs it, unless that access has
  just found it missing. -/
  isSome_iff : ∀ e, ((start.run turns).session.memory.segmentAt e).isSome = true ↔
    start.CalledFor a turns e ∧ (start.run turns).intent 0 ≠ .publish e
  begun_of_publish : ∀ e, (start.run turns).intent 0 = .publish e → ∃ early i,
    turns = early ++ [0] ∧ i < a.capacity ∧ (Address.ofIndex i).entry = e ∧
      (start.run early).Begins a 0 i
  outside : (start.run turns).IsOutside a →
    (∀ e, ((start.run turns).session.memory.segmentAt e).isSome = true ↔
      start.CalledFor a turns e) ∧
    (start.run turns).session.memory.allocated = {e | start.CalledFor a turns e}.ncard ∧
    ∀ e, (start.announced turns).count e =
      ((start.run turns).session.memory.segmentAt e).isSome.toNat
  entered : ∀ {β : Type} (i : UInt64) (use : Cell → Program V H β)
    (f : Option β → Program V H α) (rest : List (Program V H α))
    (answers : List (Except Panic α)), i < a.capacity →
    (start.run turns).threads[0]? = some ⟨(a.access .fill i use >>= f) :: rest, answers⟩ →
    ∃ n cell, n ≤ 3 ∧ (start.run (turns ++ .replicate n 0)).threads[0]? =
        some ⟨(use cell >>= fun x => f (some x)) :: rest, answers⟩ ∧
      a.cell? (start.run (turns ++ .replicate n 0)).session.memory i = some cell ∧
      (start.run (turns ++ .replicate n 0)).IsOutside a
  kept : ∀ later e segment, (start.run turns).session.memory.segmentAt e = some segment →
    (start.run (turns ++ later)).session.memory.segmentAt e = some segment
  in_segment : ∀ cell o, (start.run turns).session.memory.content cell = some o →
    ∃ i, i < a.capacity ∧ (Address.ofIndex i).offset = cell.offset ∧
      (start.run turns).session.memory.segmentAt (Address.ofIndex i).entry = some cell.segment
  allocated_le : (start.run turns).session.memory.allocated ≤ a.segmentCount.toNat
  segmentCount_eq : a.segmentCount.toNat = (a.capacity.toNat + 31) / 32

variable {host : H} {programs : List (Program V H α)} {n : ℕ}

theorem intent_of_ne_zero {k : ℕ} (hk : k ≠ 0) :
    ((Pool.fresh a host [programs]).run turns).intent k = .ordinary := by
  have hlength := length_threads_run (Pool.fresh a host [programs]) turns
  rw [intent, List.getElem?_eq_none]
  · rfl
  · rw [hlength]
    exact Nat.one_le_iff_ne_zero.mpr hk

/-- The thread is about to publish only after the first turn of an access. -/
theorem Publishes.begun_alone (h : Publishes a start (.replicate n 0)) {e : UInt64}
    (he : (start.run (.replicate n 0)).intent 0 = .publish e) :
    (start.run (.replicate n 0)).session.memory.segmentAt e = none ∧ ∃ early i,
      List.replicate n 0 = early ++ [0] ∧ i < a.capacity ∧ (Address.ofIndex i).entry = e ∧
        (start.run early).Begins a 0 i := by
  obtain ⟨early, late, i, hturns, hlate, hi, hentry, hbegins, hn⟩ := h.publish_begun 0 e he
  obtain rfl : late = [] := by
    obtain ⟨-, -, hall⟩ := List.append_eq_replicate_iff.mp hturns.symm
    refine List.eq_nil_iff_forall_not_mem.mpr fun k hk => ?_
    obtain rfl : k = 0 := List.eq_of_mem_replicate (hall ▸ List.mem_cons_of_mem 0 hk)
    exact hlate hk
  refine ⟨?_, early, i, hturns, hi, hentry, hbegins⟩
  rw [hturns, run_append, run_cons, run_nil, session_step_of_begins hi hbegins, hn]

theorem Publishes.entered (h : Publishes a start turns) {i : UInt64} (hi : i < a.capacity)
    {use : Cell → Program V H β} {f : Option β → Program V H α} {rest : List (Program V H α)}
    {answers : List (Except Panic α)} (hk : (start.run turns).threads[0]? =
      some ⟨(a.access .fill i use >>= f) :: rest, answers⟩) :
    ∃ n cell, n ≤ 3 ∧ (start.run (turns ++ .replicate n 0)).threads[0]? =
        some ⟨(use cell >>= fun x => f (some x)) :: rest, answers⟩ ∧
      a.cell? (start.run (turns ++ .replicate n 0)).session.memory i = some cell ∧
      (start.run (turns ++ .replicate n 0)).IsOutside a := by
  have hthree : 3 ≤ (List.replicate 3 0).count 0 := by simp
  obtain ⟨during, later, cell, hduring, -, hend, hcell⟩ := exists_entry h.lawful hi hk hthree
  obtain ⟨hlength, hall, -⟩ := List.append_eq_replicate_iff.mp hduring.symm
  refine ⟨during.length, cell, by omega, ?_⟩
  rw [← hall, run_append]
  refine ⟨hend, hcell, fun p rest' answers' hp => ?_⟩
  rw [hend] at hp
  cases hp
  obtain ⟨-, -, hoffset⟩ := SlotArray.cell?_eq_some_iff.mp hcell
  have hstands := (h.stands _ (List.mem_of_getElem? hk)).1.orderly_of_access hi cell.segment
  rwa [hoffset] at hstands

theorem allocatesOnCall (a : SlotArray) (host : H) {programs : List (Program V H α)}
    (h : ∀ p ∈ programs, a.CellClient (fun _ => False) p) (n : ℕ) :
    (Pool.fresh a host [programs]).AllocatesOnCall a (.replicate n 0) := by
  have hclients : ∀ list ∈ [programs], ∀ p ∈ list, a.CellClient (fun _ => False) p :=
    fun list hlist => List.mem_singleton.mp hlist ▸ h
  have hpublishes := (Publishes.fresh host hclients).run (.replicate n 0)
  have hsound := hpublishes.lawful.sound
  have hiff : ∀ e, (((Pool.fresh a host [programs]).run (.replicate n 0)).session.memory.segmentAt
      e).isSome = true ↔ (Pool.fresh a host [programs]).CalledFor a (.replicate n 0) e ∧
        ((Pool.fresh a host [programs]).run (.replicate n 0)).intent 0 ≠ .publish e := by
    intro e
    constructor
    · intro he
      refine ⟨hpublishes.called_of_segment e he, fun hpublish => ?_⟩
      rw [(hpublishes.begun_alone hpublish).1] at he
      cases he
    · rintro ⟨hcalled, hpublish⟩
      rcases hpublishes.segment_of_called e hcalled with he | ⟨k, hk⟩
      · exact he
      · by_cases hzero : k = 0
        · exact absurd (hzero ▸ hk) hpublish
        · rw [intent_of_ne_zero hzero] at hk
          cases hk
  refine ⟨hiff, fun e he => (hpublishes.begun_alone he).2, fun houtside => ?_,
    fun i use f rest answers hi hk => hpublishes.entered hi hk, ?_, ?_, ?_,
    toNat_segmentCount a.capacity⟩
  · have hquiet := houtside.intent_eq
    have hcalled : ∀ e, _ ↔ _ := fun e => (hiff e).trans (and_iff_left (by rw [hquiet]; nofun))
    refine ⟨hcalled, ?_, fun e => ?_⟩
    · rw [hsound.allocated_eq_ncard]
      simp only [hcalled]
    · have hnone : ((Pool.fresh a host [programs]).run (.replicate n 0)).threads.countP
          (fun thread => thread.intent = .announce e) = 0 := by
        refine List.countP_eq_zero.mpr fun thread hmem => ?_
        obtain ⟨k, hk⟩ := List.mem_iff_getElem?.mp hmem
        rw [← intent_of_thread hk]
        by_cases hzero : k = 0
        · simp [hzero, hquiet]
        · simp [intent_of_ne_zero hzero]
      rw [← hpublishes.announced_once e, hnone, Nat.add_zero]
  · intro later e segment he
    rw [run_append]
    exact (hpublishes.lawful.later_run later).segmentAt_eq e segment he
  · intro cell o ho
    obtain ⟨i, hi⟩ := hsound.in_slot cell o ho
    obtain ⟨hlt, hn, hoffset⟩ := SlotArray.cell?_eq_some_iff.mp hi
    exact ⟨i, hlt, hoffset, hn⟩
  · rw [Memory.allocated, ← hsound.size_table]
    exact Array.countP_le_size

end Pool

/-- One thread alone has allocated the segments of those slots for which it has begun an access for
filling, no more and no fewer, at each moment except between the look of such an access and its
publication; so it is wherever a client begins, goes on or ends. Nothing else allocates: not an
access for another purpose, not one to a slot that the array does not have, and no scan. An access
for filling announces a segment that it finds missing before the program on its cell begins, and no
other announcement of that segment is made. Of the operations on one slot, those that may store into
an empty one are accesses for filling, whatever becomes of them. -/
theorem SlotArray.segments_are_those_called_for :
    (∀ {V H α : Type} [Journal H] (a : SlotArray) (host : H) {programs : List (Program V H α)},
      (∀ p ∈ programs, a.CellClient (fun _ => False) p) →
      ∀ n, (Pool.fresh a host [programs]).AllocatesOnCall a (.replicate n 0)) ∧
    (∀ {V H α : Type} (a : SlotArray) {holds : Cell → Prop} {p : Program V H α},
      a.CellClient holds p → p.Orderly a) ∧
    (∀ {V H α β : Type} [Journal H] (a : SlotArray) (i : UInt64) (use : Cell → Program V H β)
        (f : Option β → Program V H α) (s : Session V H), a.Sound s.memory →
      let entry := (Address.ofIndex i).entry
      let offset := (Address.ofIndex i).offset
      (i < a.capacity → ∀ segment, s.memory.segmentAt entry = some segment →
        (a.access .fill i use >>= f).run s =
          (use ⟨segment, offset⟩ >>= fun x => f (some x)).run s) ∧
      (i < a.capacity → s.memory.segmentAt entry = none → ∃ segment,
        (a.access .fill i use >>= f).run s = (use ⟨segment, offset⟩ >>= fun x => f (some x)).run
          ⟨(s.memory.publish entry).2, Journal.record (.allocated entry) s.host⟩ ∧
        (s.memory.publish entry).2.segmentAt entry = some segment ∧
        ∀ e, ((s.memory.publish entry).2.segmentAt e).isSome = true ↔
          (s.memory.segmentAt e).isSome = true ∨ entry = e) ∧
      (∀ purpose, a.capacity ≤ i ∨ purpose ≠ .fill ∧ s.memory.segmentAt entry = none →
        (a.access purpose i use >>= f).run s = (f none).run s) ∧
      (∀ purpose segment, i < a.capacity → purpose ≠ .fill →
        s.memory.segmentAt entry = some segment → (a.access purpose i use >>= f).run s =
          (use ⟨segment, offset⟩ >>= fun x => f (some x)).run s) ∧
      ((a.firstFrom i).run s).2 = s) ∧
    (∀ {V H : Type} (a : SlotArray) (operation : SlotOperation V H),
      (operation.program a).Accesses a operation.purpose operation.index ∧
      (operation.IsClient a → a.CellClient (fun _ => False) (operation.program a))) ∧
    ∀ {V H α : Type} (a : SlotArray) (r : Routine V (Unwatched H) α)
        (s : Session V (Unwatched H)), a.Sound s.memory →
      a.CellClient (fun _ => False) (r.program a) ∧
      ∀ e, (((r.program a).run s).2.memory.segmentAt e).isSome = true ↔
        (s.memory.segmentAt e).isSome = true ∨
          ∃ call ∈ (r.course a (a.stock s.memory) s.host).calls, call.fills = true ∧
            call.index < a.capacity ∧ (Address.ofIndex call.index).entry = e := by
  refine ⟨fun a host _ h n => Pool.allocatesOnCall a host h n, fun a _ _ h => h.orderly, ?_,
    fun a operation => ⟨operation.accesses a, fun h => h.cellClient⟩, ?_⟩
  · intro V H α β _ a i use f s hs entry offset
    refine ⟨fun hi segment h => run_access_fill_of_segment hi h, fun hi h => ?_, ?_, ?_, ?_⟩
    · exact ⟨_, run_access_fill_of_missing hi h, s.memory.segmentAt_publish_self (hs.entry_lt hi) h,
        Memory.isSome_segmentAt_publish (hs.entry_lt hi)⟩
    · rintro purpose (hi | ⟨hp, h⟩)
      · rw [access_of_le hi]
        rfl
      · exact run_access_bind_of_missing hp (cell?_of_missing h)
    · exact fun purpose segment hi hp h =>
        run_access_bind_of_cell hp (cell?_eq_some_iff.mpr ⟨hi, h, rfl⟩)
    · obtain ⟨found, hrun, -⟩ := a.run_firstFrom i s
      rw [hrun]
  · intro V H α a r s hs
    refine ⟨r.cellClient a, fun e => ?_⟩
    obtain ⟨n, hrun, hreaches⟩ := r.goes s hs
    rw [hrun, hreaches.allocated_iff]
    simp [Call.allocates, and_assoc]

/-- The callback of the first operation fills a slot of the other segment and panics; the second
operation finds its segment there, and the last one is on an index that the array does not have. -/
theorem SlotArray.segments_are_those_called_for_of_panic :
    let a : SlotArray := ⟨40⟩
    let panicking : Program ℤ (List TraceEvent) ℤ := a.insert 2 7 >>= fun _ => .panic ⟨.make, 0⟩
    let operations : List (SlotOperation ℤ (List TraceEvent)) :=
      [.getOrFill 33 panicking, .exchange 3 1, .set 40 1]
    let start := Pool.fresh a [] [operations.map fun operation => operation.program a]
    let turns := List.replicate 40 0
    let fresh : Session ℤ (List TraceEvent) := ⟨a.freshMemory, []⟩
    let routine : Routine ℤ (Unwatched Unit) (Option ℤ) :=
      .getOrFill 33 (.bind (.insert 2 7) fun _ => .panic ⟨.make, 0⟩)
    (start.run turns).isIdle = true ∧
      (start.run turns).session.host = [.allocated 0, .allocated 1] ∧
      (start.run turns).session.memory.allocated = 2 ∧ {e | start.CalledFor a turns e}.ncard = 2 ∧
      (∀ e, (start.announced turns).count e =
        ((start.run turns).session.memory.segmentAt e).isSome.toNat) ∧
      (a.access .fill 40 Cell.load >>= Program.done).run fresh = (.ok none, fresh) ∧
      ∀ e, (((routine.program a).run ⟨a.freshMemory, ⟨()⟩⟩).2.memory.segmentAt e).isSome = true ↔
        ((a.freshMemory : Memory ℤ).segmentAt e).isSome = true ∨
          ∃ call ∈ (routine.course a (a.stock a.freshMemory) ⟨()⟩).calls, call.fills = true ∧
            call.index < a.capacity ∧ (Address.ofIndex call.index).entry = e := by
  intro a panicking operations start turns fresh routine
  obtain ⟨hmoments, -, hruns, hoperations, hroutines⟩ := segments_are_those_called_for
  have hclients : ∀ p ∈ operations.map fun operation => operation.program a,
      a.CellClient (fun _ => False) p := by
    intro p hp
    obtain ⟨operation, hmem, rfl⟩ := List.mem_map.mp hp
    refine (hoperations a operation).2 ?_
    simp only [operations, List.mem_cons, List.not_mem_nil, or_false] at hmem
    rcases hmem with rfl | rfl | rfl
    · exact .bind (.map _ (.fillSlot 2 (.done 7))) fun _ => .panic _
    · trivial
    · trivial
  have hidle : (start.run turns).isIdle = true := by decide +kernel
  have hlast : start.AllocatesOnCall a turns := hmoments a [] hclients 40
  obtain ⟨-, hcount, hannounced⟩ := hlast.outside (Pool.isOutside_of_isIdle hidle)
  have hallocated : (start.run turns).session.memory.allocated = 2 := by decide +kernel
  obtain ⟨-, -, houtside, -⟩ := hruns a 40 Cell.load Program.done fresh (sound_ofEntries a)
  exact ⟨hidle, by decide +kernel, hallocated, hcount.symm.trans hallocated, hannounced,
    houtside .fill (.inl (by decide)), (hroutines a routine _ (sound_ofEntries a)).2⟩

end AtomicSlots
