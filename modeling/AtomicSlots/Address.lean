/-! # Addresses of slots

Slots are kept in segments of 32 cells. The index of a slot is a 64-bit word: its low five bits
select a cell inside a segment and the other bits select the entry of the segment table. All
arithmetic here is that of the word. The lemmas say that splitting an index loses nothing.
-/
namespace AtomicSlots

/-- Number of low index bits that select a cell inside its segment. -/
def segmentBits : UInt64 := 5

/-- Number of cells in a segment. -/
def segmentSize : UInt64 := 32

/-- The low bits of an index. -/
def offsetMask : UInt64 := segmentSize - 1

/-- A slot's place: its entry in the segment table and its cell inside that segment. -/
structure Address where
  entry : UInt64
  offset : UInt64
deriving DecidableEq, Repr

namespace Address

/-- The index of the first slot behind a table entry. -/
def base (entry : UInt64) : UInt64 := entry <<< segmentBits

/-- The place of the slot with a given index. -/
def ofIndex (index : UInt64) : Address := ⟨index >>> segmentBits, index &&& offsetMask⟩

/-- The index of the slot at a place. -/
def index (address : Address) : UInt64 := base address.entry + address.offset

@[simp] theorem toNat_entry_ofIndex (i : UInt64) : (ofIndex i).entry.toNat = i.toNat / 32 := by
  simp [ofIndex, segmentBits, Nat.shiftRight_eq_div_pow]

@[simp] theorem toNat_offset_ofIndex (i : UInt64) : (ofIndex i).offset.toNat = i.toNat % 32 := by
  have h : (i &&& (31 : UInt64)).toNat = i.toNat &&& 31 := by simp
  simpa [ofIndex, offsetMask, segmentSize] using h.trans (Nat.and_two_pow_sub_one_eq_mod i.toNat 5)

theorem toNat_base_entry (i : UInt64) :
    (base (ofIndex i).entry).toNat = 32 * (i.toNat / 32) := by
  have h := i.toNat_lt
  simp only [base, segmentBits, UInt64.toNat_shiftLeft, toNat_entry_ofIndex]
  simp only [UInt64.reduceToNat, Nat.shiftLeft_eq, Nat.reduceMod, Nat.reducePow]
  omega

@[simp] theorem index_ofIndex (i : UInt64) : (ofIndex i).index = i := by
  apply UInt64.toNat_inj.mp
  have h := i.toNat_lt
  simp only [index, UInt64.toNat_add, toNat_base_entry, toNat_offset_ofIndex]
  omega

theorem ofIndex_injective {i j : UInt64} (h : ofIndex i = ofIndex j) : i = j := by
  simpa using congrArg index h

end Address

/-- Number of table entries that cover a capacity, with no spare entry. -/
def segmentCount (capacity : UInt64) : UInt64 :=
  capacity / segmentSize + if capacity % segmentSize = 0 then 0 else 1

theorem toNat_segmentCount (capacity : UInt64) :
    (segmentCount capacity).toNat = (capacity.toNat + 31) / 32 := by
  have h := capacity.toNat_lt
  have hz : capacity % segmentSize = 0 ↔ capacity.toNat % 32 = 0 := by
    rw [← UInt64.toNat_inj]; simp [segmentSize]
  simp only [segmentCount, hz]
  split <;> simp [segmentSize, UInt64.toNat_add, UInt64.toNat_div] <;> omega

end AtomicSlots
