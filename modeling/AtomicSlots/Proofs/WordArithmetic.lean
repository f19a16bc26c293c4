import AtomicSlots.Proofs.LoopBounds
import Mathlib.Algebra.Order.Floor.Div

/-!
# Indices that are words

A scan computes with the indices of slots, and so does whoever goes on behind a slot that a scan has
found. All these numbers are words. Here the same programs compute with integers instead, on a
machine that has some of them as numbers, and stop with a fault as soon as they come to another
number, to a place outside the table or outside a segment, or to an index that is not farther than
the one before. A machine that has all integers never runs out of numbers. A machine that has words
only does not either: the programs make no fault and are those on words, action for action.
-/
namespace AtomicSlots

variable {V H α β γ δ : Type}

/-- Why a computation with integers does not go on. -/
inductive Fault where
  /-- The machine does not have the number. -/
  | noNumber (n : ℤ)
  /-- A place lies outside, or an index does not come before the next one. -/
  | notBelow (m n : ℤ)
  /-- The rounds of a loop are used up before it ends. -/
  | outOfRounds
deriving DecidableEq, Repr

/-- A program that stops at the first fault. -/
abbrev Guarded (V H α : Type) := ExceptT Fault (Program V H) α

/-- The integers that are words. -/
def isWord (n : ℤ) : Bool := 0 ≤ n ∧ n < 2 ^ 64

namespace Guarded

/-- The number, if the machine has it. -/
def number (numbers : ℤ → Bool) (n : ℤ) : Guarded V H ℤ :=
  if numbers n then pure n else throw (.noNumber n)

/-- Goes on if `m` is a place among the first `n`. -/
def below (m n : ℤ) : Guarded V H Unit := if 0 ≤ m ∧ m < n then pure () else throw (.notBelow m n)

/-- The number, if the machine has it and it is farther than another one. -/
def farther (numbers : ℤ → Bool) (start n : ℤ) : Guarded V H ℤ := do
  let next ← number numbers n
  below start next
  return next

/-- The program makes no fault. It performs the actions of `q`, and answers what `f` makes of the
answer of `q`. -/
def Matches (p : Guarded V H α) (q : Program V H β) (f : β → α) : Prop :=
  p.run = (fun x => .ok (f x)) <$> q

theorem Matches.pure (x : β) (f : β → α) :
    (Pure.pure (f x) : Guarded V H α).Matches (.done x) f := rfl

theorem Matches.bind {p : Guarded V H α} {q : Program V H β} {f : β → α} {Q : β → Prop}
    (hp : p.Matches q f) (hq : q.Answers Q) {next : α → Guarded V H γ} {after : β → Program V H δ}
    {g : δ → γ} (hnext : ∀ x, Q x → (next (f x)).Matches (after x) g) :
    (p >>= next).Matches (q >>= after) g := by
  rw [Matches, ExceptT.run_bind, hp, bind_map_left, map_bind]
  exact hq.bind_congr hnext

theorem Matches.lift_bind (q : Program V H α) {next : α → Guarded V H γ} {after : α → Program V H δ}
    {g : δ → γ} (hnext : ∀ x, (next x).Matches (after x) g) :
    (ExceptT.lift q >>= next : Guarded V H γ).Matches (q >>= after) g :=
  Matches.bind (f := id) rfl q.answers_true fun x _ => hnext x

theorem below_bind {m n : ℤ} (hpos : 0 ≤ m) (hlt : m < n) (next : Unit → Guarded V H α) :
    (below m n >>= next) = next () := by
  rw [below, if_pos ⟨hpos, hlt⟩, pure_bind]

section Words

variable {numbers : ℤ → Bool} (h : ∀ n, isWord n = true → numbers n = true)
include h

theorem number_bind {n : ℤ} (hpos : 0 ≤ n) (hlt : n < 2 ^ 64) (next : ℤ → Guarded V H α) :
    (number numbers n >>= next) = next n := by
  rw [number, if_pos (h n (decide_eq_true ⟨hpos, hlt⟩)), pure_bind]

theorem farther_bind {start n : ℤ} (hpos : 0 ≤ start) (hlt : start < n) (hn : n < 2 ^ 64)
    (next : ℤ → Guarded V H α) : (farther numbers start n >>= next) = next n := by
  rw [farther, number_bind h (hpos.trans hlt.le) hn, below_bind hpos hlt, pure_bind]

end Words

end Guarded

open Guarded

/-- The word for a number, where an action asks for one. -/
def wordOf (n : ℤ) : UInt64 := .ofNat n.toNat

theorem wordOf_eq {n : ℤ} {i : UInt64} (h : n = i.toNat) : wordOf n = i := by
  rw [wordOf, h, Int.toNat_natCast, UInt64.ofNat_toNat]

/-- What was found under a word, found under a number. -/
def wide {α : Type} (found : Option (UInt64 × α)) : Option (ℤ × α) :=
  found.map fun (i, x) => ((i.toNat : ℤ), x)

/-- A cursor with a number for its position. -/
structure WideCursor where
  position : ℤ
  visits : ℕ
deriving DecidableEq, Repr

def Cursor.widen (cursor : Cursor) : WideCursor := ⟨cursor.position.toNat, cursor.visits⟩

/-- What a step of a cursor yields and the cursor behind it, both with numbers. -/
def wideStep (found : Option (UInt64 × V) × Cursor) : Option (ℤ × V) × WideCursor :=
  (wide found.1, found.2.widen)

/-- The search of a segment, with numbers for offsets. -/
def firstInSegmentOver (numbers : ℤ → Bool) (segment : ℕ) :
    ℕ → ℤ → Guarded V H (Option (ℤ × Occupant V))
  | 0, _ => pure none
  | n + 1, offset => do
    below offset segmentSize.toNat
    match ← ExceptT.lift (Cell.load ⟨segment, wordOf offset⟩) with
    | some occupant => return some (offset, occupant)
    | none =>
      let next ← number numbers (offset + 1)
      firstInSegmentOver numbers segment n next

namespace SlotArray

/-- The search of the segment that starts at the index `base`, with numbers for indices. -/
def restOfSegmentOver (a : SlotArray) (numbers : ℤ → Bool) (segment : ℕ) (base index : ℤ) :
    Guarded V H (Option (ℤ × Occupant V)) := do
  let rest ← number numbers (a.capacity.toNat - base)
  let start ← number numbers (index - base)
  let length ← number numbers (min (segmentSize.toNat : ℤ) rest - start)
  match ← firstInSegmentOver numbers segment length.toNat start with
  | some (offset, occupant) =>
    let found ← number numbers (base + offset)
    return some (found, occupant)
  | none => return none

/-- A scan of at most `n` segments, with numbers for indices. It is a fault if slots are left when
the rounds are used up, and if a round does not lead to a farther index. -/
def scanOver (a : SlotArray) (numbers : ℤ → Bool) :
    ℕ → ℤ → Guarded V H (Option (ℤ × Occupant V))
  | 0, index => if index < a.capacity.toNat then throw .outOfRounds else pure none
  | n + 1, index =>
    if index < a.capacity.toNat then do
      let entry := index / segmentSize.toNat
      let base ← number numbers (entry * segmentSize.toNat)
      let onward : Guarded V H (Option (ℤ × Occupant V)) := do
        let next ← farther numbers index (base + segmentSize.toNat)
        a.scanOver numbers n next
      below entry a.segmentCount.toNat
      match ← ExceptT.lift (.perform (.loadEntry (wordOf entry))) with
      | none => onward
      | some segment =>
        match ← a.restOfSegmentOver numbers segment base index with
        | some found => return some found
        | none => onward
    else
      pure none

/-- The first occupied slot at or behind a number, in as many rounds as the table has entries. -/
def firstFromOver (a : SlotArray) (numbers : ℤ → Bool) (index : ℤ) :
    Guarded V H (Option (ℤ × Occupant V)) := a.scanOver numbers a.segmentCount.toNat index

/-- A step of a cursor, with numbers for positions. -/
def nextOver (a : SlotArray) (numbers : ℤ → Bool) (cursor : WideCursor) :
    Guarded V H (Option (ℤ × V) × WideCursor) := do
  match ← a.firstFromOver numbers cursor.position with
  | none => return (none, cursor)
  | some (index, occupant) =>
    let past ← farther numbers cursor.position (index + 1)
    return (some (index, occupant.value), ⟨past, cursor.visits + 1⟩)

/-- A filtering step of a cursor, with numbers for positions. The callbacks are those of the words.
It is a fault if slots are left when the rounds are used up. -/
def nextWhereOver (a : SlotArray) (numbers : ℤ → Bool) (save : Cursor → Program V H Unit)
    (accepts : ℕ → UInt64 → V → Program V H Bool) (cursor : WideCursor) :
    Guarded V H (Option (ℤ × V) × WideCursor) :=
  go (a.capacity.toNat - cursor.position).toNat cursor
where
  go : ℕ → WideCursor → Guarded V H (Option (ℤ × V) × WideCursor)
  | 0, cursor =>
    if cursor.position < a.capacity.toNat then throw .outOfRounds else pure (none, cursor)
  | n + 1, cursor => do
    match ← a.nextOver numbers cursor with
    | (none, cursor) => return (none, cursor)
    | (some (index, value), after) =>
      ExceptT.lift (save ⟨wordOf after.position, after.visits⟩)
      if ← ExceptT.lift (accepts cursor.visits (wordOf index) value) then
        return (some (index, value), after)
      else
        go n after

/-- A clear, with numbers for indices. It is a fault if slots are left when the rounds are used
up. -/
def clearOver (a : SlotArray) (numbers : ℤ → Bool) : Guarded V H Unit :=
  go a.capacity.toNat 0
where
  go : ℕ → ℤ → Guarded V H Unit
  | 0, start => if start < a.capacity.toNat then throw .outOfRounds else pure ()
  | n + 1, start => do
    match ← a.firstFromOver numbers start with
    | none => return
    | some (index, _) =>
      ExceptT.lift (discard (a.take (wordOf index)))
      let next ← farther numbers start (index + 1)
      go n next

variable {a : SlotArray} {numbers : ℤ → Bool} {i : UInt64} {n : ℕ}

/-! The programs on a machine that has all words, and perhaps other numbers, one by one. -/

section Words

variable (h : ∀ n, isWord n = true → numbers n = true)
include h

theorem matches_firstInSegment (segment : ℕ) {offset : UInt64} (hroom : offset.toNat + n ≤ 32) :
    (firstInSegmentOver numbers segment n offset.toNat : Guarded V H _).Matches
      (firstInSegment segment n offset) wide := by
  induction n generalizing offset with
  | zero => exact .pure none wide
  | succ n ih =>
    have hsize : (segmentSize.toNat : ℤ) = 32 := rfl
    have hnext : (offset + 1).toNat = offset.toNat + 1 := toNat_add_one (by omega)
    rw [firstInSegmentOver, below_bind (by omega) (by omega), wordOf_eq rfl]
    refine Matches.lift_bind _ fun content => ?_
    cases content with
    | some o => exact .pure (some (offset, o)) wide
    | none =>
      change ((number numbers (offset.toNat + 1) >>= _ : Guarded V H _)).Matches _ _
      rw [number_bind h (by omega) (by omega)]
      have hshort : (offset + 1).toNat + n ≤ 32 := by omega
      have hrest := ih hshort
      rwa [hnext, Nat.cast_add_one] at hrest

theorem matches_restOfSegment (segment : ℕ) (hi : i < a.capacity) :
    let base := Address.base (Address.ofIndex i).entry
    let stop := min segmentSize (a.capacity - base)
    (a.restOfSegmentOver numbers segment base.toNat i.toNat : Guarded V H _).Matches
      (firstInSegment segment (stop - (i - base)).toNat (i - base))
      fun found => wide (found.map fun (offset, o) => (base + offset, o)) := by
  intro base stop
  have hlt := UInt64.lt_iff_toNat_lt.mp hi
  have hcap := a.capacity.toNat_lt
  have hsize : (segmentSize.toNat : ℤ) = 32 := rfl
  have hbase : base.toNat = 32 * (i.toNat / 32) := Address.toNat_base_entry i
  have hstart : (i - base).toNat = i.toNat % 32 := toNat_sub_base i
  have hlength : (stop - (i - base)).toNat =
      min 32 (a.capacity.toNat - 32 * (i.toNat / 32)) - i.toNat % 32 := toNat_restOfSegment hi
  have hfirst : (i.toNat : ℤ) - base.toNat = (i - base).toNat := by omega
  have hmany : (min 32 ((a.capacity.toNat : ℤ) - base.toNat) - (i - base).toNat).toNat =
      (stop - (i - base)).toNat := by omega
  rw [restOfSegmentOver, hsize, number_bind h (by omega) (by omega), hfirst,
    number_bind h (by omega) (by omega), number_bind h (by omega) (by omega), hmany,
    ← bind_pure (firstInSegment _ _ _)]
  refine (matches_firstInSegment h segment (by omega)).bind
    (answers_firstInSegment segment (by omega)) fun found hfound => ?_
  rcases found with _ | ⟨offset, o⟩
  · rfl
  · obtain ⟨-, hoffset⟩ := hfound offset o rfl
    have hj : (base + offset).toNat = base.toNat + offset.toNat := by
      rw [UInt64.toNat_add]
      omega
    change (number numbers (base.toNat + offset.toNat) >>= _ : Guarded V H _).Matches _ _
    rw [number_bind h (by omega) (by omega), ← Nat.cast_add, ← hj]
    rfl

/-- Behind a slot that is not in front of `i` there is a word, and it is farther than `i`. -/
theorem farther_past {j : UInt64} (hle : i ≤ j) (hj : j < a.capacity) (next : ℤ → Guarded V H α) :
    (farther numbers i.toNat (j.toNat + 1) >>= next) = next (j + 1).toNat := by
  have hcap := a.capacity.toNat_lt
  have hpast := toNat_add_one_of_lt hj
  rw [UInt64.le_iff_toNat_le] at hle
  rw [UInt64.lt_iff_toNat_lt] at hj
  rw [farther_bind h (by omega) (by omega) (by omega), hpast, Nat.cast_add_one]

variable (hcap : a.capacity.toNat ≤ 2 ^ 64 - 32)
include hcap

theorem matches_scan (hn : a.segmentCount.toNat ≤ n + i.toNat / 32) :
    (a.scanOver numbers n i.toNat : Guarded V H _).Matches (a.scan n i) wide := by
  have hcount : a.segmentCount.toNat = (a.capacity.toNat + 31) / 32 := toNat_segmentCount a.capacity
  induction n generalizing i with
  | zero =>
    rw [scanOver, if_neg (by omega)]
    exact .pure none wide
  | succ n ih =>
    rw [scanOver, scan]
    by_cases hi : i < a.capacity
    · have hlt := UInt64.lt_iff_toNat_lt.mp hi
      have hsize : (segmentSize.toNat : ℤ) = 32 := rfl
      have hcell := Address.toNat_entry_ofIndex i
      have hentry : wordOf (i.toNat / 32) = (Address.ofIndex i).entry := wordOf_eq (by omega)
      have hbase := Address.toNat_base_entry i
      have hnext := toNat_next_segment hcap hi
      have hsearch := fun segment => matches_restOfSegment (V := V) (H := H) h segment hi
      generalize hb : Address.base (Address.ofIndex i).entry = base at *
      have hfirst : (i.toNat : ℤ) / 32 * 32 = base.toNat := by omega
      have hthen : (base.toNat : ℤ) + 32 = (base + segmentSize).toNat := by omega
      have honward := ih (i := base + segmentSize) (by omega)
      rw [if_pos (by omega), if_pos hi]
      dsimp only
      rw [hsize, hfirst, number_bind h (by omega) (by omega), hthen,
        farther_bind h (by omega) (by omega) (by omega), below_bind (by omega) (by omega), hentry, hb]
      refine Matches.lift_bind _ fun segment => ?_
      cases segment with
      | none => exact honward
      | some segment =>
        refine (hsearch segment).bind (Program.answers_true _) fun found _ => ?_
        rcases found with _ | ⟨offset, o⟩
        · exact honward
        · exact .pure (some (base + offset, o)) wide
    · have hge := UInt64.le_iff_toNat_le.mp (UInt64.not_lt.mp hi)
      rw [if_neg (by omega), if_neg hi]
      exact .pure none wide

theorem matches_firstFrom (i : UInt64) :
    (a.firstFromOver numbers i.toNat : Guarded V H _).Matches (a.firstFrom i) wide :=
  matches_scan h hcap (by omega)

theorem matches_next (cursor : Cursor) :
    (a.nextOver numbers cursor.widen : Guarded V H _).Matches (a.next cursor) wideStep := by
  refine (matches_firstFrom h hcap cursor.position).bind (answers_scan _ _)
    fun found hfound => ?_
  rcases found with _ | ⟨j, o⟩
  · exact .pure (none, cursor) wideStep
  · obtain ⟨hle, hj⟩ := hfound j o rfl
    change (farther numbers cursor.position.toNat (j.toNat + 1) >>= _ : Guarded V H _).Matches _ _
    rw [farther_past h (hle hcap) hj]
    exact .pure (some (j, o.value), cursor.past j) wideStep

theorem matches_nextWhere_go (save : Cursor → Program V H Unit)
    (accepts : ℕ → UInt64 → V → Program V H Bool) {cursor : Cursor}
    (hn : a.capacity.toNat ≤ n + cursor.position.toNat) :
    (nextWhereOver.go a numbers save accepts n cursor.widen).Matches
      (nextWhere.go a save accepts n cursor) wideStep := by
  induction n generalizing cursor with
  | zero =>
    have hposition : cursor.widen.position = cursor.position.toNat := rfl
    rw [nextWhereOver.go, if_neg (by omega)]
    exact .pure (none, cursor) wideStep
  | succ n ih =>
    refine (matches_next h hcap cursor).bind (answers_next a cursor) fun found hfound => ?_
    obtain ⟨item, after⟩ := found
    obtain ⟨rfl, rfl⟩ | ⟨j, v, rfl, hle, hj, rfl⟩ := hfound
    · exact .pure (none, after) wideStep
    · have hpast := toNat_add_one_of_lt hj
      have hbehind := UInt64.le_iff_toNat_le.mp (hle hcap)
      have hafter : Cursor.mk (wordOf (cursor.past j).widen.position) (cursor.visits + 1) =
          cursor.past j := congrArg (Cursor.mk · _) (wordOf_eq rfl)
      change (ExceptT.lift (save ⟨wordOf (cursor.past j).widen.position, cursor.visits + 1⟩) >>= _ :
        Guarded V H _).Matches (save (cursor.past j) >>= _) _
      rw [hafter]
      refine Matches.lift_bind _ fun _ => ?_
      rw [wordOf_eq rfl]
      refine Matches.lift_bind _ fun accepted => ?_
      cases accepted with
      | true => exact .pure (some (j, v), cursor.past j) wideStep
      | false =>
        have hrounds : a.capacity.toNat ≤ n + (cursor.past j).position.toNat := by
          rw [Cursor.past, hpast]
          omega
        exact ih hrounds

theorem matches_nextWhere (save : Cursor → Program V H Unit)
    (accepts : ℕ → UInt64 → V → Program V H Bool) (cursor : Cursor) :
    (a.nextWhereOver numbers save accepts cursor.widen).Matches (a.nextWhere save accepts cursor)
      wideStep := by
  have hposition : cursor.widen.position = cursor.position.toNat := rfl
  have hrounds : (a.capacity.toNat - cursor.widen.position).toNat = a.remaining cursor := by
    rw [remaining]
    omega
  rw [nextWhereOver, nextWhere, hrounds]
  exact matches_nextWhere_go h hcap save accepts (by rw [remaining]; omega)

theorem matches_clear_go (hn : a.capacity.toNat ≤ n + i.toNat) :
    (clearOver.go a numbers n i.toNat : Guarded V H Unit).Matches (clear.go a n i) id := by
  induction n generalizing i with
  | zero =>
    rw [clearOver.go, if_neg (by omega)]
    exact .pure () id
  | succ n ih =>
    refine (matches_firstFrom h hcap i).bind (answers_scan _ _) fun found hfound => ?_
    rcases found with _ | ⟨j, o⟩
    · exact .pure () id
    · obtain ⟨hle, hj⟩ := hfound j o rfl
      have hpast := toNat_add_one_of_lt hj
      change (ExceptT.lift (discard (a.take (wordOf j.toNat))) >>= _ : Guarded V H Unit).Matches
        (discard (a.take j) >>= _) _
      rw [wordOf_eq rfl]
      refine Matches.lift_bind _ fun _ => ?_
      have hbehind := UInt64.le_iff_toNat_le.mp (hle hcap)
      rw [farther_past h (hle hcap) hj]
      exact ih (by omega)

theorem matches_clear : (a.clearOver numbers : Guarded V H Unit).Matches a.clear id :=
  matches_clear_go (i := 0) h hcap (by omega)

end Words

/-- On an array with at most `2 ^ 64 - 32` slots (the table of a larger one would take a quarter of
all addresses of a 64-bit word), scans, steps of plain and of filtering cursors, and clears make no
fault on a machine that has all words as numbers, be it that it has no others or that it has all
integers, and there they are the programs on words. So no number that they come to is outside the
words, no entry outside the table, no offset outside its segment; indices increase from round to
round, and as many rounds as there are entries are enough. -/
theorem words_suffice (hcap : a.capacity.toNat ≤ 2 ^ 64 - 32)
    (h : ∀ n, isWord n = true → numbers n = true) :
    (∀ i, (a.firstFromOver numbers i.toNat : Guarded V H _).Matches (a.firstFrom i) wide) ∧
    (∀ cursor, (a.nextOver numbers cursor.widen : Guarded V H _).Matches (a.next cursor) wideStep) ∧
    (∀ save accepts cursor, (a.nextWhereOver numbers save accepts cursor.widen :
      Guarded V H _).Matches (a.nextWhere save accepts cursor) wideStep) ∧
    (a.clearOver numbers : Guarded V H Unit).Matches a.clear id ∧
    ∀ m : Memory V, a.Sound m → m.table.size = a.segmentCount.toNat ∧
      a.segmentCount.toNat = a.capacity.toNat ⌈/⌉ segmentSize.toNat ∧
      ∀ (s : ℕ) segment, m.segments[s]? = some segment → segment.size = segmentSize.toNat := by
  refine ⟨matches_firstFrom h hcap, matches_next h hcap, matches_nextWhere h hcap,
    matches_clear h hcap, fun m hm => ⟨hm.size_table, ?_, hm.size_segment⟩⟩
  rw [Nat.ceilDiv_eq_add_pred_div]
  exact toNat_segmentCount a.capacity

theorem words_suffice_for_largest_array :
    let a : SlotArray := ⟨.ofNat (2 ^ 64 - 32)⟩
    let i : UInt64 := .ofNat (2 ^ 64 - 33)
    a.capacity.toNat ≤ 2 ^ 64 - 32 ∧ i < a.capacity ∧
      (a.firstFromOver isWord i.toNat : Guarded ℕ Unit _).Matches (a.firstFrom i) wide ∧
      (a.firstFromOver (fun _ => true) i.toNat : Guarded ℕ Unit _).Matches (a.firstFrom i)
        wide := by
  intro a i
  have hcap : a.capacity.toNat ≤ 2 ^ 64 - 32 := by decide +kernel
  obtain ⟨hwords, -⟩ := words_suffice (V := ℕ) (H := Unit) hcap fun _ (h : isWord _ = true) => h
  obtain ⟨hintegers, -⟩ := words_suffice (V := ℕ) (H := Unit) hcap
    fun n (_ : isWord n = true) => (rfl : (fun _ : ℤ => true) n = true)
  exact ⟨hcap, by decide +kernel, hwords i, hintegers i⟩

/-- On a larger array a scan that comes past the last segment would need a number that is not a
word. -/
example : ((⟨.ofNat (2 ^ 64 - 31)⟩ : SlotArray).firstFromOver isWord (2 ^ 64 - 32) :
    Guarded ℕ Unit _).run.run ⟨.ofEntries 0, ()⟩ |>.1.toOption =
      some (.error (.noNumber (2 ^ 64))) := by decide +kernel

end SlotArray

end AtomicSlots
