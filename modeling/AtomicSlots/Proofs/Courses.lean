import AtomicSlots.Proofs.Routines
import AtomicSlots.Proofs.Sequential

/-!
# Routines go as their courses say

While nobody else works on an array, running a routine answers what its course says and takes the
memory where the calls of the course take its contents and its count. That is shown operation by
operation, for every memory that serves the array: the count need not be exact. The segments that
come into being and the occupants that stay are followed too, since they tell which calls there
were.
-/
namespace AtomicSlots

variable {V H α β : Type}

open Program

namespace Memory

@[simp] theorem adjust_zero (m : Memory V) : m.adjust 0 = m := by rw [adjust, Int.add_zero]

end Memory

namespace SlotArray

/-- What a memory holds for an array. -/
def stock (a : SlotArray) (m : Memory V) : Stock V := ⟨a.slots m, m.count⟩

theorem content_stock (a : SlotArray) (m : Memory V) (i : UInt64) :
    (a.stock m).content i = a.value? m i := by
  rw [Stock.content, stock, getElem?_slots]
  split
  · rfl
  · rename_i hi
    rw [value?, occupant?_of_le m (UInt64.not_lt.mp hi)]
    rfl

theorem getElem?_stock (a : SlotArray) (m : Memory V) (i : UInt64) :
    (a.stock m).slots[i.toNat]? = if i < a.capacity then some (a.value? m i) else none :=
  getElem?_slots a m i

/-- An occupant with an old stamp was in its slot before. -/
theorem Sound.occupant?_of_later {a : SlotArray} {m n : Memory V} (h : a.Sound m) (hn : a.Sound n)
    (hl : m.Later n) {i : UInt64} {o : Occupant V} (ho : a.occupant? n i = some o)
    (hlt : o.stamp < m.stamps) : a.occupant? m i = some o := by
  obtain ⟨cell, hc, hcontent⟩ := Option.bind_eq_some_iff.mp ho
  have hold := hl.was_there cell o hcontent hlt
  obtain ⟨j, hj⟩ := h.in_slot cell o hold
  obtain rfl := hn.cell?_inj hc (cell?_later hl hj)
  rwa [occupant?_of_cell? hj]

theorem Sound.stamp_lt_of_occupant? {a : SlotArray} {m : Memory V} (h : a.Sound m) {i : UInt64}
    {o : Occupant V} (ho : a.occupant? m i = some o) : o.stamp < m.stamps := by
  obtain ⟨cell, -, hcontent⟩ := Option.bind_eq_some_iff.mp ho
  exact h.stamp_lt cell o hcontent

/-- Calls take one memory to another. The count stays as far from the number of occupied slots as it
was. An occupant is still the same if and only if no call has changed its slot, and a segment is
there if it was before or a call has made it. -/
structure Reaches (a : SlotArray) (m : Memory V) (calls : List (Call V)) (n : Memory V) : Prop where
  sound : a.Sound n
  later : m.Later n
  stock_eq : a.stock n = (a.stock m).after calls
  excess_eq : n.count - a.occupied n = m.count - a.occupied m
  same_iff : ∀ i o, a.occupant? m i = some o →
    (a.occupant? n i = some o ↔ ∀ call ∈ calls, call.changes i = false)
  allocated_iff : ∀ e, (n.segmentAt e).isSome = true ↔
    (m.segmentAt e).isSome = true ∨ ∃ call ∈ calls, call.allocates a e = true

namespace Reaches

variable {a : SlotArray} {m n k : Memory V} {calls later : List (Call V)} {i : UInt64} {cell : Cell}

theorem refl (h : a.Sound m) : a.Reaches m [] m :=
  ⟨h, .refl m, rfl, rfl, fun _ _ ho => by simp [ho], fun _ => by simp⟩

theorem trans (hm : a.Sound m) (h : a.Reaches m calls n) (h' : a.Reaches n later k) :
    a.Reaches m (calls ++ later) k where
  sound := h'.sound
  later := h.later.trans h'.later
  stock_eq := by rw [h'.stock_eq, h.stock_eq, Stock.after_append]
  excess_eq := h'.excess_eq.trans h.excess_eq
  same_iff i o ho := by
    have hfirst := h.same_iff i o ho
    have hall : (∀ call ∈ calls ++ later, call.changes i = false) ↔
        (∀ call ∈ calls, call.changes i = false) ∧ ∀ call ∈ later, call.changes i = false := by
      simp only [List.mem_append, or_imp, forall_and]
    rw [hall, ← hfirst]
    constructor
    · intro hk
      have hlt := (hm.stamp_lt_of_occupant? ho).trans_le h.later.stamps_le
      have hn := h.sound.occupant?_of_later h'.sound h'.later hk hlt
      exact ⟨hn, (h'.same_iff i o hn).mp hk⟩
    · rintro ⟨hn, hsame⟩
      exact (h'.same_iff i o hn).mpr hsame
  allocated_iff e := by
    rw [h'.allocated_iff, h.allocated_iff]
    simp only [List.mem_append, or_and_right, exists_or, or_assoc]

/-- A call makes no segment if its slot has one. -/
theorem isSome_segmentAt_of_allocates {call : Call V} {e : UInt64}
    (hcell : call.fills = true → call.index < a.capacity →
      (a.cell? m call.index).isSome = true) (he : call.allocates a e = true) :
    (m.segmentAt e).isSome = true := by
  simp only [Call.allocates, Bool.and_eq_true, decide_eq_true_eq, beq_iff_eq] at he
  obtain ⟨⟨hfills, hi⟩, rfl⟩ := he
  obtain ⟨cell, hc⟩ := Option.isSome_iff_exists.mp (hcell hfills hi)
  rw [(cell?_eq_some_iff.mp hc).2.1]
  rfl

/-- A call that leaves its slot alone. -/
theorem of_kept (h : a.Sound m) {fills : Bool}
    (hfills : fills = true → i < a.capacity → (a.cell? m i).isSome = true) {ending : Ending V}
    (hending : ∀ old new, ending ≠ .changed old new) : a.Reaches m [⟨i, fills, ending⟩] m where
  sound := h
  later := .refl m
  stock_eq := by cases ending <;> first | rfl | exact absurd rfl (hending _ _)
  excess_eq := rfl
  same_iff j o ho := by
    have hchanges : Call.changes ⟨i, fills, ending⟩ j = false := by
      cases ending <;> first | rfl | exact absurd rfl (hending _ _)
    simp [ho, hchanges]
  allocated_iff e := by
    have hsome : Call.allocates a (⟨i, fills, ending⟩ : Call V) e = true →
        (m.segmentAt e).isSome = true := isSome_segmentAt_of_allocates hfills
    simpa using hsome

/-- A store with the change of the count that goes with it. -/
theorem of_store (h : a.Sound m) (hc : a.cell? m i = some cell) (fills : Bool) {old : Option V}
    (hold : (m.content cell).map Occupant.value = old) (new : Option V) :
    a.Reaches m [⟨i, fills, .changed old new⟩]
      ((m.store cell new).adjust (new.isSome.toNat - old.isSome.toNat)) where
  sound := (h.store hc new).adjust _
  later := (Memory.later_store (h.hasCell hc) new).trans
    ⟨fun _ _ hs => hs, le_rfl, fun _ _ ho _ => ho⟩
  stock_eq := by
    rw [stock, slots_adjust, slots_store h hc]
    change Stock.mk _ ((m.store cell new).count + _) = _
    rw [Memory.count_store]
    rfl
  excess_eq := by
    have hoccupied := occupied_store h hc new
    have hsome : (m.content cell).isSome = old.isSome := by rw [← hold, Option.isSome_map]
    rw [hsome] at hoccupied
    have hcount : ((m.store cell new).adjust (new.isSome.toNat - old.isSome.toNat)).count =
        m.count + (new.isSome.toNat - old.isSome.toNat) := by
      rw [← Memory.count_store m cell new]
      rfl
    rw [occupied_adjust, hcount]
    omega
  same_iff j o ho := by
    by_cases hij : i = j
    · subst hij
      have hne : m.stamped new ≠ some o := by
        intro hn
        have hlt := h.stamp_lt_of_occupant? ho
        rw [(Memory.stamped_lt_store cell hn).1] at hlt
        exact lt_irrefl _ hlt
      simp [occupant?_store_self h hc, hne, Call.changes]
    · have hother := occupant?_store_of_ne h hc new (Ne.symm hij)
      simp [hother, ho, Call.changes, hij]
  allocated_iff e := by
    have hsome : Call.allocates a (⟨i, fills, .changed old new⟩ : Call V) e = true →
        (m.segmentAt e).isSome = true :=
      isSome_segmentAt_of_allocates fun _ _ => by rw [hc]; rfl
    simpa using hsome

theorem publish (h : a.Sound m) (hi : i < a.capacity) :
    a.Reaches m [⟨i, true, .kept⟩] (m.publish (Address.ofIndex i).entry).2 where
  sound := h.publish _
  later := m.later_publish _
  stock_eq := by
    rw [stock, slots_congr_occupant (occupant?_publish h _), Memory.count_publish]
    rfl
  excess_eq := by
    rw [occupied, slots_congr_occupant (occupant?_publish h _), Memory.count_publish]
    rfl
  same_iff j o ho := by
    rw [occupant?_publish h]
    simp [ho, Call.changes]
  allocated_iff e := by
    simp only [List.mem_singleton, exists_eq_left, Call.allocates, hi, decide_true,
      Bool.and_self, Bool.true_and, beq_iff_eq]
    exact Memory.isSome_segmentAt_publish (h.entry_lt hi) e

end Reaches

/-- A segment that comes into being in front of other calls belongs to one of them. -/
theorem Reaches.of_kept_front {a : SlotArray} {m n k : Memory V} {calls : List (Call V)}
    {i : UInt64} (hm : a.Sound m) (hkept : a.Reaches m [⟨i, true, .kept⟩] n)
    (hcalls : a.Reaches n calls k) (hmem : ∃ ending, ⟨i, true, ending⟩ ∈ calls) :
    a.Reaches m calls k := by
  have h := hkept.trans hm hcalls
  refine ⟨h.sound, h.later, h.stock_eq, h.excess_eq, fun j o ho => ?_, fun e => ?_⟩
  · rw [h.same_iff j o ho, List.singleton_append, List.forall_mem_cons]
    exact and_iff_right rfl
  · rw [h.allocated_iff e]
    refine or_congr_right ⟨?_, ?_⟩
    · rintro ⟨call, hcall, he⟩
      rcases List.mem_cons.mp hcall with rfl | hcall
      · obtain ⟨ending, hending⟩ := hmem
        exact ⟨_, hending, he⟩
      · exact ⟨call, hcall, he⟩
    · rintro ⟨call, hcall, he⟩
      exact ⟨call, List.mem_cons_of_mem _ hcall, he⟩

end SlotArray

/-- A program that is alone with an array goes as a course says. -/
def Program.Goes (a : SlotArray) (p : Program V (Unwatched H) α) (s : Session V (Unwatched H))
    (course : Course V (Unwatched H) α) : Prop :=
  ∃ n, p.run s = (course.answer, ⟨n, course.host⟩) ∧ a.Reaches s.memory course.calls n

namespace Cell

/-- The rest of a fill that found its cell empty and has a value for it. -/
def fillWith (cell : Cell) (v : V) : Program V H (Filling V) := do
  let exchange ← cell.exchangeIf none (some v)
  if exchange.won then
    .adjustCount 1
    return .stored v
  else
    return .refused (exchange.now.map Occupant.value)

theorem fill_counted (cell : Cell) (make : Program V H V) :
    (cell.fill make >>= fun filling => do
      if filling.isStored then
        .adjustCount 1
      return filling) = cell.load >>= fun content =>
        match content with
        | some o => .done (.refused (some o.value))
        | none => make >>= cell.fillWith := by
  rw [fill, bind_assoc]
  refine congrArg _ (funext fun content => ?_)
  rcases content with _ | o
  · change (make >>= _) >>= _ = _
    rw [bind_assoc]
    refine congrArg _ (funext fun v => ?_)
    rw [bind_assoc]
    refine congrArg _ (funext fun exchange => ?_)
    cases exchange.won <;> rfl
  · rfl

/-- The rest of a revision whose callbacks have answered with what the cell is to hold, or with
nothing if they reject the occupant that was found. -/
def reviseTo (cell : Cell) (o : Occupant V) : Option (Option V) → Program V H Attempt
  | none => return .rejected
  | some new => do
    let exchange ← cell.exchangeIf (some o) new
    if exchange.won then
      retire? (some o)
      return .committed
    else
      return if exchange.now.isNone then .vacated else .replaced

/-- What the callbacks of a revision answer together. -/
def consult (accepts : V → Program V H Bool) (change : V → Program V H (Option V)) (v : V) :
    Program V H (Option (Option V)) := do
  if ← accepts v then
    some <$> change v
  else
    return none

/-- A revision consults its callbacks before it does anything. -/
theorem revise_eq (cell : Cell) (accepts : V → Program V H Bool)
    (change : V → Program V H (Option V)) :
    cell.revise accepts change = cell.load >>= fun content =>
      match content with
      | none => .done .absent
      | some o => consult accepts change o.value >>= cell.reviseTo o := by
  rw [revise]
  refine congrArg _ (funext fun content => ?_)
  rcases content with _ | o
  · rfl
  · change (accepts o.value >>= _) = ((accepts o.value >>= _) >>= _)
    rw [bind_assoc]
    refine congrArg _ (funext fun yes => ?_)
    cases yes with
    | false => rfl
    | true =>
      change (change o.value >>= _) = ((some <$> change o.value) >>= _)
      rw [bind_map_left]
      refine congrArg _ (funext fun new => congrArg _ (funext fun exchange => ?_))
      cases exchange.won <;> cases exchange.now <;> rfl

end Cell

section Goes

variable {a : SlotArray} {s : Session V (Unwatched H)} {i : UInt64}

open SlotArray

namespace Program.Goes

variable {p : Program V (Unwatched H) α} {course : Course V (Unwatched H) α}

/-- A program that leaves the memory alone. -/
theorem of_quiet (hs : a.Sound s.memory) {answer : Except Panic α} {host : Unwatched H}
    (h : p.run s = (answer, ⟨s.memory, host⟩)) : p.Goes a s ⟨answer, [], host⟩ :=
  ⟨s.memory, h, .refl hs⟩

theorem bind (hs : a.Sound s.memory) (hp : p.Goes a s course)
    {f : α → Program V (Unwatched H) β}
    {next : α → Stock V → Unwatched H → Course V (Unwatched H) β}
    (hf : ∀ x n, a.Sound n → a.stock n = (a.stock s.memory).after course.calls →
      (f x).Goes a ⟨n, course.host⟩ (next x (a.stock n) course.host)) :
    (p >>= f).Goes a s (course.andThen (a.stock s.memory) next) := by
  obtain ⟨n, hrun, hreaches⟩ := hp
  obtain ⟨answer, calls, host⟩ := course
  rw [Goes, run_bind, hrun, Course.andThen]
  cases answer with
  | error reason => exact ⟨n, rfl, hreaches⟩
  | ok x =>
    obtain ⟨k, hrun', hreaches'⟩ := hf x n hreaches.sound hreaches.stock_eq
    rw [← hreaches.stock_eq]
    exact ⟨k, hrun', hreaches.trans hs hreaches'⟩

/-- An operation that ends in one way or another once its callbacks have returned. -/
theorem close (hs : a.Sound s.memory) (hp : p.Goes a s course) {fills : Bool}
    (hfills : fills = true → i < a.capacity → (a.cell? s.memory i).isSome = true)
    {f : α → Program V (Unwatched H) β} {settle : α → β × Ending V}
    (hf : ∀ x n, course.answer = .ok x → a.Reaches s.memory course.calls n →
      ∃ k, (f x).run ⟨n, course.host⟩ = (.ok (settle x).1, ⟨k, course.host⟩) ∧
        a.Reaches n [⟨i, fills, (settle x).2⟩] k) :
    (p >>= f).Goes a s (course.close i fills settle) := by
  obtain ⟨n, hrun, hreaches⟩ := hp
  obtain ⟨answer, calls, host⟩ := course
  rw [Goes, run_bind, hrun, Course.close]
  cases answer with
  | error reason =>
    refine ⟨n, rfl, hreaches.trans hs (.of_kept hreaches.sound (fun hyes hi => ?_) ?_)⟩
    · obtain ⟨cell, hc⟩ := Option.isSome_iff_exists.mp (hfills hyes hi)
      rw [cell?_later hreaches.later hc]
      rfl
    · intro old new h
      cases h
  | ok x =>
    obtain ⟨k, hrun', hreaches'⟩ := hf x n rfl hreaches
    exact ⟨k, hrun', hreaches.trans hs hreaches'⟩

theorem caught (hp : p.Goes a s course) :
    p.caught.Goes a s ⟨.ok course.answer, course.calls, course.host⟩ := by
  obtain ⟨n, hrun, hreaches⟩ := hp
  refine ⟨n, ?_, hreaches⟩
  rw [run_caught, hrun]

end Program.Goes

/-! Operations that only look. -/

theorem goes_get (hs : a.Sound s.memory) (i : UInt64) :
    (a.get? i).Goes a s ⟨.ok ((a.stock s.memory).content i), [], s.host⟩ := by
  refine .of_quiet hs ?_
  rw [run_get?, content_stock]

theorem goes_size (hs : a.Sound s.memory) :
    (SlotArray.size : Program V (Unwatched H) ℕ).Goes a s
      ⟨.ok (a.stock s.memory).count.toNat, [], s.host⟩ := .of_quiet hs rfl

theorem firstAmong_eq_none {slots : List (Option V)} {n : ℕ}
    (h : ∀ k < n, slots[(i + .ofNat k).toNat]?.join = none) :
    Stock.firstAmong slots n i = none := by
  induction n generalizing i with
  | zero => rfl
  | succ n ih =>
    have hfirst : slots[i.toNat]?.join = none := by simpa using h 0 (Nat.succ_pos n)
    rw [Stock.firstAmong, hfirst]
    refine ih fun k hk => ?_
    rw [UInt64.add_assoc, UInt64.add_comm 1, ← UInt64.ofNat_one, ← UInt64.ofNat_add]
    exact h (k + 1) (Nat.succ_lt_succ hk)

/-- The cells of a segment are searched as the contents of their slots are. -/
theorem run_firstInSegment_eq (segment : ℕ) (base offset : UInt64) {n : ℕ}
    (h : ∀ k < n, a.occupant? s.memory (base + offset + .ofNat k) =
      s.memory.content ⟨segment, offset + .ofNat k⟩) :
    ∃ found, (firstInSegment segment n offset).run s = (.ok found, s) ∧
      found.map (fun (j, o) => (base + j, o.value)) =
        Stock.firstAmong (a.slots s.memory) n (base + offset) := by
  induction n generalizing offset with
  | zero => exact ⟨none, rfl, rfl⟩
  | succ n ih =>
    have hfirst : (a.slots s.memory)[(base + offset).toNat]?.join =
        (s.memory.content ⟨segment, offset⟩).map Occupant.value := by
      have hat : a.occupant? s.memory (base + offset) = s.memory.content ⟨segment, offset⟩ := by
        simpa using h 0 (Nat.succ_pos n)
      rw [← hat]
      exact content_stock a s.memory (base + offset)
    rw [firstInSegment, run_bind, run_load, Stock.firstAmong, hfirst]
    cases s.memory.content ⟨segment, offset⟩ with
    | some o => exact ⟨some (offset, o), rfl, rfl⟩
    | none =>
      obtain ⟨found, hrun, hfound⟩ := ih (offset + 1) fun k hk => by
        have hnext := h (k + 1) (Nat.succ_lt_succ hk)
        rw [UInt64.ofNat_add, UInt64.ofNat_one, UInt64.add_comm (.ofNat k)] at hnext
        simpa only [UInt64.add_assoc] using hnext
      refine ⟨found, hrun, ?_⟩
      rw [hfound, UInt64.add_assoc]
      rfl

/-- The slots from one on to the end of its segment. -/
theorem slot_of_rest {k : ℕ} (hi : i < a.capacity)
    (hk : k < (min segmentSize (a.capacity - Address.base (Address.ofIndex i).entry) -
      (i - Address.base (Address.ofIndex i).entry)).toNat) :
    i + .ofNat k < a.capacity ∧
      (Address.ofIndex (i + .ofNat k)).entry = (Address.ofIndex i).entry ∧
      (Address.ofIndex (i + .ofNat k)).offset =
        i - Address.base (Address.ofIndex i).entry + .ofNat k := by
  rw [toNat_restOfSegment hi] at hk
  have hlt := UInt64.lt_iff_toNat_lt.mp hi
  have hcap := a.capacity.toNat_lt
  have hstart := toNat_sub_base i
  have hsmall : k < 2 ^ 64 := by omega
  have hword : (UInt64.ofNat k).toNat = k := UInt64.toNat_ofNat_of_lt' hsmall
  have hindex : (i + .ofNat k).toNat = i.toNat + k := by
    rw [UInt64.toNat_add, hword]
    omega
  refine ⟨UInt64.lt_iff_toNat_lt.mpr (by omega), entry_congr (by omega), ?_⟩
  apply UInt64.toNat_inj.mp
  rw [Address.toNat_offset_ofIndex, hindex, UInt64.toNat_add, hstart, hword]
  omega

theorem run_scan_eq (a : SlotArray) (n : ℕ) (i : UInt64) (s : Session V (Unwatched H)) :
    ∃ found, (a.scan n i).run s = (.ok found, s) ∧
      found.map (fun (j, o) => (j, o.value)) = Stock.scan a (a.slots s.memory) n i := by
  induction n generalizing i with
  | zero => exact ⟨none, rfl, rfl⟩
  | succ n ih =>
    rw [scan, Stock.scan]
    split
    · rename_i hi
      have hbase : Address.base (Address.ofIndex i).entry +
          (i - Address.base (Address.ofIndex i).entry) = i := by
        rw [UInt64.add_comm, UInt64.sub_add_cancel]
      obtain ⟨later, hrun, hlater⟩ := ih (Address.base (Address.ofIndex i).entry + segmentSize)
      simp only [perform, step_bind, done_bind, run_step, Action.perform]
      cases hn : s.memory.segmentAt (Address.ofIndex i).entry with
      | none =>
        rw [firstAmong_eq_none]
        · exact ⟨later, hrun, hlater⟩
        · intro k hk
          obtain ⟨-, hentry, -⟩ := slot_of_rest hi hk
          have hempty := occupant?_of_missing (a := a) (hentry ▸ hn)
          have hcontent := content_stock a s.memory (i + .ofNat k)
          rwa [value?, hempty] at hcontent
      | some segment =>
        obtain ⟨found, hsearch, hfound⟩ := run_firstInSegment_eq segment
          (Address.base (Address.ofIndex i).entry)
          (i - Address.base (Address.ofIndex i).entry) fun k hk => by
            obtain ⟨hlt, hentry, hoffset⟩ := slot_of_rest hi hk
            rw [hbase, occupant?_of_segment hlt (hentry ▸ hn), hoffset]
        rw [hbase] at hfound
        simp only [run_bind]
        rw [hsearch, ← hfound]
        cases found with
        | none => exact ⟨later, hrun, hlater⟩
        | some item => exact ⟨some _, rfl, rfl⟩
    · exact ⟨none, rfl, rfl⟩

theorem goes_first (hs : a.Sound s.memory) (i : UInt64) :
    (Option.map (fun (j, o) => (j, o.value)) <$> a.firstFrom i).Goes a s
      ⟨.ok (Stock.scan a (a.stock s.memory).slots a.segmentCount.toNat i), [], s.host⟩ := by
  obtain ⟨found, hrun, hfound⟩ := run_scan_eq a a.segmentCount.toNat i s
  refine .of_quiet hs ?_
  rw [run_map, firstFrom, hrun]
  change (Except.ok (found.map _), s) = _
  rw [hfound]
  rfl

/-! Operations that store. -/

theorem run_exchangeIf_of_not_same {m : Memory V} {cell : Cell} {expected : Option (Occupant V)}
    {host : Unwatched H} (new : Option V)
    (hsame : sameOccupant (m.content cell) expected = false) :
    (cell.exchangeIf expected new : Program V (Unwatched H) _).run ⟨m, host⟩ =
      (.ok ⟨false, m.content cell⟩, ⟨m, host⟩) := by
  change (Except.ok (m.exchangeIf cell expected new).1,
    Session.mk (m.exchangeIf cell expected new).2 host) = _
  rw [Memory.exchangeIf_of_not_same new hsame]

/-- An access for filling goes on with the cell of the slot. All that it may have changed is that
the segment has come into being. -/
theorem run_access_fill_bind (hs : a.Sound s.memory) (hi : i < a.capacity)
    (use : Cell → Program V (Unwatched H) α) (f : Option α → Program V (Unwatched H) β) :
    ∃ n cell, (a.access .fill i use >>= f).run s =
        (use cell >>= fun x => f (some x)).run ⟨n, s.host⟩ ∧
      a.Reaches s.memory [⟨i, true, .kept⟩] n ∧ a.cell? n i = some cell := by
  cases hn : s.memory.segmentAt (Address.ofIndex i).entry with
  | some segment =>
    have hc : a.cell? s.memory i = some ⟨segment, (Address.ofIndex i).offset⟩ :=
      cell?_eq_some_iff.mpr ⟨hi, hn, rfl⟩
    exact ⟨s.memory, _, run_access_fill_of_segment hi hn,
      .of_kept hs (fun _ _ => by rw [hc]; rfl) nofun, hc⟩
  | none =>
    have hat := s.memory.segmentAt_publish_self (hs.entry_lt hi) hn
    exact ⟨_, _, run_access_fill_of_missing hi hn, .publish hs hi,
      cell?_eq_some_iff.mpr ⟨hi, hat, rfl⟩⟩

/-- A call on an index that the array does not have. -/
theorem Program.Goes.of_outside {p : Program V (Unwatched H) α} (hs : a.Sound s.memory)
    (hi : ¬ i < a.capacity) {answer : α} (hp : p = .done answer) (fills : Bool) :
    p.Goes a s (.ofCall answer i fills .kept s.host) := by
  subst hp
  exact ⟨s.memory, rfl, .of_kept hs (fun _ hlt => absurd hlt hi) nofun⟩

theorem run_fillWith {m k : Memory V} {cell : Cell} {calls : List (Call V)}
    (hc : a.cell? k i = some cell) (h : a.Reaches m calls k) (v : V) (host : Unwatched H) :
    let settled := Course.settleFill (((a.stock m).after calls).content i) v
    ∃ l, (cell.fillWith v).run ⟨k, host⟩ = (.ok settled.1, ⟨l, host⟩) ∧
      a.Reaches k [⟨i, true, settled.2⟩] l := by
  rw [← h.stock_eq, content_stock, value?_of_cell? hc, Cell.fillWith, run_bind]
  cases hk : k.content cell with
  | none =>
    have hsame : sameOccupant (k.content cell) none = true := by simp [hk]
    rw [run_exchangeIf_of_same (some v) hsame]
    exact ⟨_, rfl, .of_store h.sound hc true (by rw [hk]; rfl) (some v)⟩
  | some o =>
    have hsame : sameOccupant (k.content cell) none = false := by rw [hk]; rfl
    rw [run_exchangeIf_of_not_same (some v) hsame, hk]
    exact ⟨k, rfl, .of_kept h.sound (fun _ _ => by rw [hc]; rfl) nofun⟩

theorem goes_fill (hs : a.Sound s.memory) (i : UInt64) {make : Program V (Unwatched H) V}
    {made : Stock V → Unwatched H → Course V (Unwatched H) V}
    (hmake : ∀ s, a.Sound s.memory → make.Goes a s (made (a.stock s.memory) s.host)) :
    (a.fill i make).Goes a s (match (a.stock s.memory).slots[i.toNat]? with
      | none => .ofCall (.refused none) i true .kept s.host
      | some (some v) => .ofCall (.refused (some v)) i true .kept s.host
      | some none => (made (a.stock s.memory) s.host).close i true (Course.settleFill
          (((a.stock s.memory).after (made (a.stock s.memory) s.host).calls).content i))) := by
  by_cases hi : i < a.capacity
  · obtain ⟨n, cell, hrun, hkept, hc⟩ := run_access_fill_bind hs hi (·.fill make) _
    have hstock : a.stock n = a.stock s.memory := hkept.stock_eq
    rw [← hstock, getElem?_stock, if_pos hi, value?_of_cell? hc, Program.Goes, fill, hrun,
      Cell.fill_counted, run_bind, run_load]
    cases ho : n.content cell with
    | some o => exact ⟨n, rfl, hkept⟩
    | none =>
      obtain ⟨k, hmade, hreaches⟩ := (hmake ⟨n, s.host⟩ hkept.sound).close hkept.sound
        (fun _ _ => by rw [hc]; rfl) (f := cell.fillWith) fun v k _ hreaches =>
          run_fillWith (cell?_later hreaches.later hc) hreaches v _
      exact ⟨k, hmade, .of_kept_front hs hkept hreaches (Course.exists_mem_close _ _ _ _)⟩
  · rw [getElem?_stock, if_neg hi]
    refine .of_outside hs hi ?_ true
    rw [fill, access_of_le (UInt64.not_lt.mp hi)]
    rfl

theorem goes_swap (hs : a.Sound s.memory) (i : UInt64) (v : V) :
    (a.swap i v).Goes a s (match (a.stock s.memory).slots[i.toNat]? with
      | none => .ofCall none i true .kept s.host
      | some old => .ofCall (some old) i true (.changed old (some v)) s.host) := by
  by_cases hi : i < a.capacity
  · obtain ⟨n, cell, hrun, hkept, hc⟩ := run_access_fill_bind hs hi (·.replace (some v)) _
    have hstock : a.stock n = a.stock s.memory := hkept.stock_eq
    have hreaches := Reaches.of_kept_front hs hkept
      (.of_store hkept.sound hc true rfl (some v))
      ⟨_, List.mem_singleton_self _⟩
    rw [← hstock, getElem?_stock, if_pos hi, value?_of_cell? hc, Program.Goes, swap, hrun,
      run_bind, Cell.replace, Cell.swap]
    simp only [perform, step_bind, done_bind, run_step, Action.perform, Memory.swap_eq]
    cases ho : n.content cell with
    | none =>
      rw [ho] at hreaches
      exact ⟨_, rfl, hreaches⟩
    | some o =>
      simp only [ho, Option.map_some, Option.isSome_some, sub_self, Memory.adjust_zero] at hreaches
      exact ⟨_, rfl, hreaches⟩
  · rw [getElem?_stock, if_neg hi]
    refine .of_outside hs hi ?_ true
    rw [swap, access_of_le (UInt64.not_lt.mp hi)]
    rfl

theorem goes_take (hs : a.Sound s.memory) (i : UInt64) :
    (a.take i).Goes a s (match (a.stock s.memory).content i with
      | none => .ofCall none i false .kept s.host
      | some v => .ofCall (some v) i false (.changed (some v) none) s.host) := by
  have hkept : a.Reaches s.memory [⟨i, false, .kept⟩] s.memory :=
    .of_kept hs (by nofun) nofun
  rw [content_stock, Program.Goes, take, run_bind]
  cases hc : a.cell? s.memory i with
  | none =>
    rw [run_access_of_missing (by decide) hc, value?, occupant?_of_cell?_eq_none hc]
    exact ⟨s.memory, rfl, hkept⟩
  | some cell =>
    rw [run_access_of_cell (by decide) hc, run_map, Cell.replace, Cell.swap, value?_of_cell? hc]
    simp only [perform, step_bind, done_bind, run_step, Action.perform, Memory.swap_eq]
    cases ho : s.memory.content cell with
    | none =>
      rw [Memory.store_none_of_empty ho]
      exact ⟨s.memory, rfl, hkept⟩
    | some o => exact ⟨_, rfl, .of_store hs hc false (by rw [ho]; rfl) none⟩

section Conditional

variable {purpose : Access} {accepts : V → Program V (Unwatched H) Bool}
  {change : V → Program V (Unwatched H) (Option V)}
  {consulted : V → Course V (Unwatched H) (Option (Option V))}
  {tally : Attempt → Program V (Unwatched H) Unit}

/-- What the callbacks ask for is done if and only if no call has changed the slot meanwhile: an
occupant that is still there is the one that was found. -/
theorem run_reviseTo {m n : Memory V} {cell : Cell} {o : Occupant V} {calls : List (Call V)}
    (hm : a.Sound m) (hc : a.cell? m i = some cell) (ho : m.content cell = some o)
    (h : a.Reaches m calls n) {answer : Option (Option V)} {step : ℤ}
    (hstep : ∀ new, answer = some new → (new.isSome.toNat : ℤ) - 1 = step) (host : Unwatched H) :
    let settled := Course.settleChange o.value (calls.any (·.changes i))
      (((a.stock m).after calls).content i) answer
    ∃ k, (cell.reviseTo o answer).run ⟨n, host⟩ = (.ok settled.1, ⟨k, host⟩) ∧
      a.Reaches n [⟨i, false, settled.2⟩]
        (k.adjust (if settled.1.isCommitted then step else 0)) := by
  have hc' := cell?_later h.later hc
  have hsame := h.same_iff i o ((occupant?_of_cell? hc).trans ho)
  have hkept : a.Reaches n [⟨i, false, .kept⟩] (n.adjust 0) := by
    rw [Memory.adjust_zero]
    exact .of_kept h.sound (by nofun) nofun
  rw [occupant?_of_cell? hc'] at hsame
  rw [← h.stock_eq, content_stock, value?_of_cell? hc']
  rcases answer with _ | new
  · exact ⟨n, rfl, hkept⟩
  · rw [Cell.reviseTo, run_bind]
    by_cases heq : n.content cell = some o
    · have hall : calls.any (·.changes i) = false := by
        simpa using hsame.mp heq
      have hwins : sameOccupant (n.content cell) (some o) = true := by simp [heq]
      rw [run_exchangeIf_of_same new hwins, hall, ← hstep new rfl]
      exact ⟨_, rfl, .of_store h.sound hc' false (by rw [heq]; rfl) new⟩
    · have hany : calls.any (·.changes i) = true := by
        by_contra hnone
        exact heq (hsame.mpr (by simpa using hnone))
      have hloses : sameOccupant (n.content cell) (some o) = false := by
        by_contra hwins
        exact heq (hm.content_of_sameOccupant h.later ho (by simpa using hwins))
      rw [run_exchangeIf_of_not_same new hloses, hany]
      refine ⟨n, ?_, ?_⟩
      · cases n.content cell <;> rfl
      · cases n.content cell <;> exact hkept

/-- A conditional operation on a slot with the change of the count that goes with it. -/
theorem goes_revise (step : ℤ) (hs : a.Sound s.memory) (hp : purpose ≠ .fill)
    (hconsult : ∀ v, (Cell.consult accepts change v).Goes a s (consulted v))
    (hstep : ∀ v new, (consulted v).answer = .ok (some new) → (new.isSome.toNat : ℤ) - 1 = step)
    (htally : ∀ attempt s, (tally attempt).run s =
      (.ok (), ⟨s.memory.adjust (if attempt.isCommitted then step else 0), s.host⟩)) :
    (a.access purpose i (·.revise accepts change) >>= fun found =>
      match found with
      | none => .done .absent
      | some attempt => tally attempt >>= fun _ => .done attempt).Goes
        a s (.revise (a.stock s.memory) s.host i consulted) := by
  have hkept : a.Reaches s.memory [⟨i, false, .kept⟩] s.memory :=
    .of_kept hs (by nofun) nofun
  have hcounted : ∀ attempt s, (tally attempt >>= fun _ => done attempt).run s =
      (.ok attempt, ⟨s.memory.adjust (if attempt.isCommitted then step else 0), s.host⟩) := by
    intro attempt s
    rw [run_bind, htally]
    rfl
  rw [Course.revise, content_stock]
  cases hc : a.cell? s.memory i with
  | none =>
    rw [value?, occupant?_of_cell?_eq_none hc, Program.Goes, run_bind, run_access_of_missing hp hc]
    exact ⟨s.memory, rfl, hkept⟩
  | some cell =>
    rw [value?_of_cell? hc, Program.Goes, run_bind, run_access_of_cell hp hc, ← run_bind,
      bind_map_left, Cell.revise_eq, bind_assoc, run_bind, run_load]
    cases ho : s.memory.content cell with
    | none =>
      refine ⟨s.memory, ?_, hkept⟩
      change (tally Attempt.absent >>= fun _ => done Attempt.absent).run s = (.ok .absent, s)
      rw [hcounted]
      simp [Attempt.isCommitted]
    | some o =>
      simp only [bind_assoc]
      refine (hconsult o.value).close hs (by nofun) fun answer n hanswer hreaches => ?_
      obtain ⟨k, hrun, hk⟩ := run_reviseTo hs hc ho hreaches
        (fun new hnew => hstep o.value new (hnew ▸ hanswer)) (consulted o.value).host
      refine ⟨_, ?_, hk⟩
      rw [run_bind, hrun]
      exact hcounted _ _

theorem goes_eraseIf (hs : a.Sound s.memory) (i : UInt64)
    {asked : V → Stock V → Unwatched H → Course V (Unwatched H) Bool}
    (ha : ∀ v, (accepts v).Goes a s (asked v (a.stock s.memory) s.host)) :
    (a.eraseIf i accepts).Goes a s (.revise (a.stock s.memory) s.host i fun v =>
      (asked v (a.stock s.memory) s.host).andThen (a.stock s.memory) fun yes _ host =>
        ⟨.ok (if yes then some none else none), [], host⟩) := by
  have heq : a.eraseIf i accepts = a.access .vacate i (·.revise accepts fun _ => pure none) >>=
      fun found => match found with
        | none => .done .absent
        | some attempt => (if attempt.isCommitted then .adjustCount (-1) else .done ()) >>=
          fun _ => .done attempt := by
    rw [eraseIf]
    refine congrArg _ (funext fun found => ?_)
    rcases found with _ | attempt
    · rfl
    · cases attempt <;> rfl
  rw [heq]
  refine goes_revise (-1) hs (by decide) (fun v => (ha v).bind hs fun yes n hn _ => ?_)
    (fun v new hnew => ?_) fun attempt s => ?_
  · cases yes <;> exact .of_quiet hn rfl
  · obtain ⟨yes, hyes⟩ := Course.exists_of_andThen_eq_ok hnew
    cases yes <;> cases hyes
    rfl
  · cases attempt <;> simp [Attempt.isCommitted, adjustCount, perform, Action.perform]

theorem goes_update (hs : a.Sound s.memory) (i : UInt64) {factory : V → Program V (Unwatched H) V}
    {asked : V → Stock V → Unwatched H → Course V (Unwatched H) Bool}
    {made : V → Stock V → Unwatched H → Course V (Unwatched H) V}
    (ha : ∀ v, (accepts v).Goes a s (asked v (a.stock s.memory) s.host))
    (hf : ∀ v s, a.Sound s.memory → (factory v).Goes a s (made v (a.stock s.memory) s.host)) :
    (a.update i factory accepts).Goes a s (.revise (a.stock s.memory) s.host i fun v =>
      (asked v (a.stock s.memory) s.host).andThen (a.stock s.memory) fun yes stock host =>
        if yes then
          (made v stock host).andThen stock fun new _ host => ⟨.ok (some (some new)), [], host⟩
        else
          ⟨.ok none, [], host⟩) := by
  have heq : a.update i factory accepts =
      a.access .inspect i (·.revise accepts fun v => some <$> factory v) >>= fun found =>
        match found with
        | none => .done .absent
        | some attempt => (.done () >>= fun _ => .done attempt) := by
    rw [update, map_eq_pure_bind]
    refine congrArg _ (funext fun found => ?_)
    cases found <;> rfl
  rw [heq]
  refine goes_revise 0 hs (by decide) (fun v => (ha v).bind hs fun yes n hn _ => ?_)
    (fun v new hnew => ?_) fun attempt s => ?_
  · cases yes with
    | false => exact .of_quiet hn rfl
    | true =>
      change Program.Goes a (some <$> some <$> factory v) _ _
      rw [map_eq_pure_bind, map_eq_pure_bind, bind_assoc]
      rw [if_pos rfl]
      refine (hf v ⟨n, _⟩ hn).bind hn fun new k hk _ => ?_
      exact .of_quiet hk rfl
  · obtain ⟨yes, hyes⟩ := Course.exists_of_andThen_eq_ok hnew
    cases yes with
    | false => cases hyes
    | true =>
      rw [if_pos rfl] at hyes
      obtain ⟨made, hmade⟩ := Course.exists_of_andThen_eq_ok hyes
      cases hmade
      rfl
  · simp

end Conditional

end Goes

/-- While nobody else works on the array, a routine goes as its course says. -/
theorem Routine.goes {a : SlotArray} (r : Routine V (Unwatched H) α)
    (s : Session V (Unwatched H)) (hs : a.Sound s.memory) :
    (r.program a).Goes a s (r.course a (a.stock s.memory) s.host) := by
  induction r generalizing s with
  | done x => exact .of_quiet hs rfl
  | panic reason => exact .of_quiet hs rfl
  | bind p f hp hf => exact (hp s hs).bind hs fun x n hn _ => hf x ⟨n, _⟩ hn
  | caught p hp => exact (hp s hs).caught
  | readHost => exact .of_quiet hs rfl
  | changeHost change => exact .of_quiet hs rfl
  | size => exact goes_size hs
  | get i => exact goes_get hs i
  | first i => exact goes_first hs i
  | fill i make hmake => exact goes_fill hs i hmake
  | swap i v => exact goes_swap hs i v
  | take i => exact goes_take hs i
  | eraseIf i accepts ha => exact goes_eraseIf hs i fun v => ha v s hs
  | update i factory accepts hf ha => exact goes_update hs i (fun v => ha v s hs) hf

end AtomicSlots
