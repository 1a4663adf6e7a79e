/-
# Sizes, size classes and the vectors they name

The allocator serves a request from one of 128 common vectors (multiples of
eight up to 1024 bytes), from one of 88 large vectors (up to 100 KB) or straight
from the operating system.  This module translates the size arithmetic and the
two lookup tables, and proves the facts the rest of the development uses: every
request up to 100 KB names a vector, and the real size of that vector's class
covers the request.
-/

import Mathlib.Data.Fin.Basic
import Mathlib.Tactic.IntervalCases

namespace Memalart

/-- Number of values of a 64-bit `usize`. -/
def usizeRange : Nat := 2 ^ 64

/-- Number of values of a `u32`. -/
def u32Range : Nat := 2 ^ 32

def commonChunkSize : Nat := 64 * 1024
def commonSizeMax : Nat := 1024
def commonSizeTableLen : Nat := 128
def largeChunkSize : Nat := 512 * 1024
def commonChunksInLargeChunk : Nat := largeChunkSize / commonChunkSize
def largeSizeMax : Nat := 100 * 1024
def realNumberOfLargeObjectVectors : Nat := 88

/-- `common_size_to_index`, with the wrapping `u16` subtraction of the source. -/
def commonSizeToIndex (size : Nat) : Nat := ((size + 65535) % 65536) >>> 3

/-- `find_large_slot_id`: four bits of mantissa below the leading bit. -/
def findLargeSlotId (size : Nat) : Nat :=
  let size := size - 1
  let b := Nat.log2 size
  (b <<< 4) + ((size >>> (b - 4)) % 16)

/-- The real size for every slot id from 160 on; the first 160 entries of the
source's table are filler. -/
def largeSizesFromFirstId : List Nat := [
  1088, 1152, 1216, 1280, 1344, 1408, 1472, 1536, 1600, 1664, 1728, 1792, 1856, 1920, 1984, 2048,
  2176, 2304, 2432, 2560, 2688, 2816, 2944, 3072, 3200, 3328, 3456, 3584, 3712, 3840, 3968, 4096,
  4352, 4608, 4864, 5120, 5376, 5632, 5888, 6144, 6400, 6656, 6912, 7168, 7424, 7680, 7936, 8192,
  8704, 9216, 9728, 10240, 10752, 11264, 11776, 12288, 12800, 13312, 13824, 14336, 14848, 15360,
  15872, 16384, 17408, 18432, 19456, 20480, 21504, 22528, 23552, 24576, 25600, 26624, 28672,
  28672, 30720, 30720, 32768, 32768, 34816, 36864, 38912, 43008, 43008, 47104, 47104, 51200,
  51200, 57344, 57344, 57344, 65536, 65536, 65536, 65536, 73728, 73728, 86016, 86016, 86016,
  102400, 102400, 102400, 102400]

/-- The index of the vector for every slot id from 160 on. -/
def lookupFromFirstId : List Nat := [
  0, 1, 2, 3, 4, 5, 6, 7, 8, 9, 10, 11, 12, 13, 14, 15, 16, 17, 18, 19, 20, 21, 22, 23, 24, 25,
  26, 27, 28, 29, 30, 31, 32, 33, 34, 35, 36, 37, 38, 39, 40, 41, 42, 43, 44, 45, 46, 47, 48, 49,
  50, 51, 52, 53, 54, 55, 56, 57, 58, 59, 60, 61, 62, 63, 64, 65, 66, 67, 68, 69, 70, 71, 72, 73,
  74, 74, 75, 75, 76, 76, 77, 78, 79, 80, 80, 81, 81, 82, 82, 83, 83, 83, 84, 84, 84, 84, 85, 85,
  86, 86, 86, 87, 87, 87, 87]

/-- The first slot id that a large size has. -/
def firstId : Nat := 160

/-- `LARGE_SIZES_FOR_ID`. -/
def largeSizesForId (id : Nat) : Nat :=
  if id < firstId then 0 else largeSizesFromFirstId.getD (id - firstId) 0

/-- `LOOKUP_TABLE`. -/
def lookupTable (id : Nat) : Nat :=
  if id < firstId then 0 else lookupFromFirstId.getD (id - firstId) 0

/-- Keep an entry only where it differs from the one before it. -/
def dropRepeats (prev : Nat) : List Nat → List Nat
  | [] => []
  | curr :: rest => if curr ≠ prev then curr :: dropRepeats curr rest else dropRepeats prev rest

/-- `REAL_LARGE_SIZES`: the different entries of `LARGE_SIZES_FOR_ID`, in order. -/
def realLargeSizes : List Nat := dropRepeats 0 largeSizesFromFirstId

def isPowerOfTwo (size : Nat) : Bool := size == 2 ^ Nat.log2 size

/-- `usize::next_power_of_two`. -/
def nextPowerOfTwo (n : Nat) : Nat := if n ≤ 1 then 1 else 2 ^ (Nat.log2 (n - 1) + 1)

/-- `large_size_to_id_and_real_size`.  The table that the source reads for a
power of two holds `find_large_slot_id` of that power. -/
def largeSizeToIdAndRealSize (size : Nat) : Nat × Nat :=
  if isPowerOfTwo size then (findLargeSlotId size, size)
  else (findLargeSlotId size, largeSizesForId (findLargeSlotId size))

inductive SizeClass
  | common
  | large
  | extraLarge
deriving DecidableEq, Repr

def SizeClass.define (size : Nat) : SizeClass :=
  if size ≤ commonSizeMax then .common
  else if size ≤ largeSizeMax then .large
  else .extraLarge

def recommendedSize (minSize : Nat) : Nat :=
  if minSize ≤ commonSizeMax then (minSize + 7) / 8 * 8
  else if minSize ≤ largeSizeMax then (largeSizeToIdAndRealSize minSize).2
  else minSize

/-- The vector of a size class: a place in `common_object_table` or in
`large_object_table`. -/
inductive Slot
  | common (idx : Fin 128)
  | large (idx : Fin 88)
deriving DecidableEq

namespace Slot

/-- The vector of `common_object_table` at an index, when there is one. -/
def ofCommonIdx (idx : Nat) : Option Slot :=
  if h : idx < 128 then some (.common ⟨idx, h⟩) else none

/-- The vector of `large_object_table` at an index, when there is one. -/
def ofLargeIdx (idx : Nat) : Option Slot :=
  if h : idx < 88 then some (.large ⟨idx, h⟩) else none

/-- `get_vec_mut_by_id`: the large vector of a slot id. -/
def ofLargeId (id : Nat) : Option Slot := ofLargeIdx (lookupTable id)

/-- The size of an object of the class, as `InfoForSizeIter` reports it. -/
def realSize : Slot → Nat
  | .common idx => (idx.val + 1) * 8
  | .large idx => realLargeSizes.getD idx.val 0

/-- The size of the chunks that objects of the class are cut from. -/
def chunkSize : Slot → Nat
  | .common _ => commonChunkSize
  | .large _ => largeChunkSize

/-- How many objects one chunk of the class is cut into. -/
def slotsPerChunk (s : Slot) : Nat := s.chunkSize / s.realSize

/-- The position of a class among the 216, common classes first. -/
def index : Slot → Nat
  | .common idx => idx.val
  | .large idx => 128 + idx.val

end Slot

/-- The vector that serves a request of this size, by the three ranges of
`SizeClass::define`. -/
def slotForSize (size : Nat) : Option Slot :=
  match SizeClass.define size with
  | .common => Slot.ofCommonIdx (commonSizeToIndex size)
  | .large => Slot.ofLargeId (largeSizeToIdAndRealSize size).1
  | .extraLarge => none

/-! ## Facts about the size tables -/

theorem realLargeSizes_length : realLargeSizes.length = 88 := by decide

/-- What the tables show, id by id and vector by vector. -/
theorem sizeTables :
    (∀ k : Fin 105, (lookupTable (160 + k.val) < 88 ∧
        realLargeSizes.getD (lookupTable (160 + k.val)) 0 = largeSizesForId (160 + k.val)) ∧
        (17 + (160 + k.val) % 16) * 2 ^ ((160 + k.val) / 16 - 4) ≤
          largeSizesForId (160 + k.val)) ∧
      (∀ idx : Fin 128, slotForSize (Slot.common idx).realSize = some (.common idx)) ∧
      ∀ idx : Fin 88, slotForSize (Slot.large idx).realSize = some (.large idx) ∧
        8 ≤ (Slot.large idx).realSize ∧ (Slot.large idx).realSize % 8 = 0 ∧
        (Slot.large idx).realSize ≤ largeSizeMax ∧
        5 * (Slot.large idx).realSize ≤ (Slot.large idx).chunkSize := by
  decide +kernel

/-- The two tables agree: the vector that an id is routed to is the vector of
the id's real size. -/
theorem realLargeSizes_lookupTable {id : Nat} (hlow : 160 ≤ id) (hhigh : id ≤ 264) :
    lookupTable id < 88 ∧ realLargeSizes.getD (lookupTable id) 0 = largeSizesForId id := by
  have hk := (sizeTables.1 ⟨id - 160, by omega⟩).1
  rwa [show 160 + (id - 160) = id by omega] at hk

/-- The real size of an id covers every size that has the id: those sizes go up
to `17 + id % 16` units of the id's exponent. -/
theorem mantissa_le_largeSizesForId {id : Nat} (hlow : 160 ≤ id) (hhigh : id ≤ 264) :
    (17 + id % 16) * 2 ^ (id / 16 - 4) ≤ largeSizesForId id := by
  have hk := (sizeTables.1 ⟨id - 160, by omega⟩).2
  rwa [show 160 + (id - 160) = id by omega] at hk

/-- The exponent of a large size lies between 10 and 16. -/
theorem log2_of_large {n : Nat} (hlow : 1024 ≤ n) (hhigh : n < 102400) :
    10 ≤ Nat.log2 n ∧ Nat.log2 n ≤ 16 := by
  have hne : n ≠ 0 := by omega
  constructor
  · exact (Nat.le_log2 hne).mpr (by omega)
  · have := (Nat.log2_lt hne (k := 17)).mpr (by omega)
    omega

/-- What `find_large_slot_id` computes on a large size: its id is in the range of
the tables, and the size lies below the next mantissa. -/
theorem findLargeSlotId_spec {size : Nat} (hlow : commonSizeMax < size)
    (hhigh : size ≤ largeSizeMax) :
    160 ≤ findLargeSlotId size ∧ findLargeSlotId size ≤ 264 ∧
      size ≤ (17 + findLargeSlotId size % 16) * 2 ^ (findLargeSlotId size / 16 - 4) := by
  obtain ⟨n, rfl⟩ : ∃ n, size = n + 1 := ⟨size - 1, by omega⟩
  simp only [commonSizeMax, largeSizeMax] at hlow hhigh
  obtain ⟨hb, hb'⟩ := log2_of_large (n := n) (by omega) (by omega)
  have hle : 2 ^ Nat.log2 n ≤ n := Nat.log2_self_le (by omega)
  have hlt : n < 2 ^ (Nat.log2 n + 1) := Nat.lt_log2_self
  simp only [findLargeSlotId, Nat.add_sub_cancel, Nat.shiftLeft_eq, Nat.shiftRight_eq_div_pow]
  generalize Nat.log2 n = b at *
  -- the mantissa is the quotient by the unit, less its leading bit
  obtain ⟨e, rfl⟩ : ∃ e, b = e + 4 := ⟨b - 4, by omega⟩
  have hunit : 0 < 2 ^ e := Nat.two_pow_pos e
  have hlead : 16 ≤ n / 2 ^ e :=
    (Nat.le_div_iff_mul_le hunit).mpr (by rw [pow_add] at hle; omega)
  have hmant : n / 2 ^ e < 32 :=
    (Nat.div_lt_iff_lt_mul hunit).mpr (by rw [Nat.pow_succ, pow_add] at hlt; omega)
  have hnext : n < (n / 2 ^ e + 1) * 2 ^ e := by
    rw [mul_comm]
    exact Nat.lt_mul_div_succ n hunit
  have hlast : e = 12 → n / 2 ^ e ≤ 24 := by
    rintro rfl
    omega
  simp only [Nat.add_sub_cancel, show (2 : Nat) ^ 4 = 16 by rfl]
  generalize n / 2 ^ e = q at *
  have hdiv : ((e + 4) * 16 + q % 16) / 16 - 4 = e := by omega
  have hmod : 17 + ((e + 4) * 16 + q % 16) % 16 = q + 1 := by omega
  rw [hdiv, hmod]
  refine ⟨by omega, by omega, hnext⟩

theorem SizeClass.define_eq_common {size : Nat} (h : size ≤ commonSizeMax) :
    SizeClass.define size = .common := by
  simp [SizeClass.define, h]

theorem SizeClass.define_eq_large {size : Nat} (hlow : commonSizeMax < size)
    (hhigh : size ≤ largeSizeMax) : SizeClass.define size = .large := by
  simp [SizeClass.define, hhigh, Nat.not_le.mpr hlow]

theorem SizeClass.define_eq_extraLarge {size : Nat} (h : largeSizeMax < size) :
    SizeClass.define size = .extraLarge := by
  have : ¬ size ≤ commonSizeMax := by simp only [commonSizeMax, largeSizeMax] at *; omega
  simp [SizeClass.define, this, Nat.not_le.mpr h]

/-! ## Classes of requests -/

/-- The fast path for a power of two gives the real size that the table holds. -/
theorem largeSizeToIdAndRealSize_eq {size : Nat} (hlow : commonSizeMax < size)
    (hhigh : size ≤ largeSizeMax) :
    largeSizeToIdAndRealSize size =
      (findLargeSlotId size, largeSizesForId (findLargeSlotId size)) := by
  unfold largeSizeToIdAndRealSize
  split
  · next hpow =>
      have hsize : size = 2 ^ Nat.log2 size := by simpa [isPowerOfTwo] using hpow
      simp only [commonSizeMax, largeSizeMax] at hlow hhigh
      obtain ⟨hb, hb'⟩ := log2_of_large (n := size - 1) (by omega) (by omega)
      have hk : 11 ≤ Nat.log2 size := by
        by_contra hlt
        have : 2 ^ Nat.log2 size ≤ 2 ^ 10 := Nat.pow_le_pow_right (by omega) (by omega)
        omega
      have hk' : Nat.log2 size ≤ 16 := by
        by_contra hlt
        have : 2 ^ 17 ≤ 2 ^ Nat.log2 size := Nat.pow_le_pow_right (by omega) (by omega)
        omega
      rw [hsize]
      generalize Nat.log2 size = k at hk hk'
      interval_cases k <;> decide +kernel
  · rfl

theorem commonSizeToIndex_eq {size : Nat} (hpos : 1 ≤ size) (hhigh : size ≤ commonSizeMax) :
    commonSizeToIndex size = (size - 1) / 8 := by
  simp only [commonSizeMax] at hhigh
  have hwrap : (size + 65535) % 65536 = size - 1 := by omega
  simp only [commonSizeToIndex, hwrap, Nat.shiftRight_eq_div_pow]

/-- Every request of 1 to 1024 bytes is served from the common vector of the next
multiple of eight. -/
theorem slotForSize_common {size : Nat} (hpos : 1 ≤ size) (hhigh : size ≤ commonSizeMax) :
    ∃ s, slotForSize size = some s ∧ s.realSize = recommendedSize size ∧
      s.chunkSize = commonChunkSize := by
  have hidx : commonSizeToIndex size < 128 := by
    rw [commonSizeToIndex_eq hpos hhigh]
    simp only [commonSizeMax] at hhigh
    omega
  refine ⟨.common ⟨commonSizeToIndex size, hidx⟩, ?_, ?_, rfl⟩
  · simp [slotForSize, SizeClass.define_eq_common hhigh, Slot.ofCommonIdx, hidx]
  · simp only [Slot.realSize, recommendedSize, hhigh, if_true, commonSizeToIndex_eq hpos hhigh]
    omega

/-- Every request above 1024 bytes and up to 100 KB is served from the large
vector of its recommended size. -/
theorem slotForSize_large {size : Nat} (hlow : commonSizeMax < size)
    (hhigh : size ≤ largeSizeMax) :
    ∃ s, slotForSize size = some s ∧ s.realSize = recommendedSize size ∧
      s.chunkSize = largeChunkSize := by
  obtain ⟨hid, hid', -⟩ := findLargeSlotId_spec hlow hhigh
  obtain ⟨hidx, hreal⟩ := realLargeSizes_lookupTable hid hid'
  refine ⟨.large ⟨lookupTable (findLargeSlotId size), hidx⟩, ?_, ?_, rfl⟩
  · simp [slotForSize, SizeClass.define_eq_large hlow hhigh, Slot.ofLargeId, Slot.ofLargeIdx,
      largeSizeToIdAndRealSize_eq hlow hhigh, hidx]
  · simp only [Slot.realSize, hreal, recommendedSize, hhigh, Nat.not_le.mpr hlow, if_true,
      if_false, largeSizeToIdAndRealSize_eq hlow hhigh]

theorem le_recommendedSize (size : Nat) : size ≤ recommendedSize size := by
  unfold recommendedSize
  split
  · omega
  · split
    · next hlow hhigh =>
        have hlow : commonSizeMax < size := Nat.not_le.mp hlow
        obtain ⟨hid, hid', hle⟩ := findLargeSlotId_spec hlow hhigh
        rw [largeSizeToIdAndRealSize_eq hlow hhigh]
        exact hle.trans (mantissa_le_largeSizesForId hid hid')
    · exact le_rfl

/-- The vector that serves a request of 1 byte to 100 KB, and its real size. -/
theorem slotForSize_spec {size : Nat} (hpos : 1 ≤ size) (hhigh : size ≤ largeSizeMax) :
    ∃ s, slotForSize size = some s ∧ s.realSize = recommendedSize size ∧ size ≤ s.realSize := by
  by_cases hlow : size ≤ commonSizeMax
  · obtain ⟨s, hs, hreal, -⟩ := slotForSize_common hpos hlow
    exact ⟨s, hs, hreal, hreal ▸ le_recommendedSize size⟩
  · obtain ⟨s, hs, hreal, -⟩ := slotForSize_large (Nat.not_le.mp hlow) hhigh
    exact ⟨s, hs, hreal, hreal ▸ le_recommendedSize size⟩

/-- An object of a class's real size goes back to the class's own vector. -/
theorem slotForSize_realSize (s : Slot) : slotForSize s.realSize = some s := by
  cases s with
  | common idx => exact sizeTables.2.1 idx
  | large idx => exact (sizeTables.2.2 idx).1

namespace Slot

/-- What every class satisfies: its size is a positive multiple of eight, at most
100 KB, and at least five objects fit into a chunk. -/
theorem bounds (s : Slot) :
    8 ≤ s.realSize ∧ s.realSize % 8 = 0 ∧ s.realSize ≤ largeSizeMax ∧
      5 * s.realSize ≤ s.chunkSize := by
  cases s with
  | common idx =>
      simp only [realSize, chunkSize, largeSizeMax, commonChunkSize]
      omega
  | large idx => exact (sizeTables.2.2 idx).2

theorem realSize_pos (s : Slot) : 0 < s.realSize := by
  have := s.bounds
  omega

theorem five_le_slotsPerChunk (s : Slot) : 5 ≤ s.slotsPerChunk :=
  (Nat.le_div_iff_mul_le s.realSize_pos).mpr s.bounds.2.2.2

theorem realSize_injective : Function.Injective realSize := by
  intro s t h
  have hs := slotForSize_realSize s
  rw [h, slotForSize_realSize t] at hs
  exact (Option.some.inj hs).symm

end Slot

/-- A size that is served from a vector is at least one byte and at most 100 KB. -/
theorem slotForSize_eq_some {size : Nat} {s : Slot} (h : slotForSize size = some s) :
    1 ≤ size ∧ size ≤ largeSizeMax ∧ s.realSize = recommendedSize size := by
  have hhigh : size ≤ largeSizeMax := by
    by_contra hgt
    simp [slotForSize, SizeClass.define_eq_extraLarge (Nat.not_le.mp hgt)] at h
  have hpos : 1 ≤ size := by
    by_contra hzero
    obtain rfl : size = 0 := by omega
    exact absurd h (by decide +kernel +revert)
  obtain ⟨t, ht, hreal, -⟩ := slotForSize_spec hpos hhigh
  rw [h] at ht
  exact ⟨hpos, hhigh, Option.some.inj ht ▸ hreal⟩

end Memalart
