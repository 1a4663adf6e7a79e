/-
# Why some large sizes are merged

Four bits of mantissa give 105 sizes up to 100 KB, and 88 of them have a vector: of those that
leave room for equally many objects in a chunk only the largest is kept.  This loses no object,
and what is lost of a chunk in the worst case is within the bound that the source gives.
-/

import Mathlib.Data.List.Chain
import Mathlib.Order.Fin.Basic
import Memalart.SizeClosure

namespace Memalart

/-- `GENERATED_SIZES_AND_INDEXES`: each size before the merging, with its id. -/
def generatedSizesAndIndexes : List (Nat × Nat) := [
  (1088, 160), (1152, 161), (1216, 162), (1280, 163), (1344, 164), (1408, 165), (1472, 166),
  (1536, 167), (1600, 168), (1664, 169), (1728, 170), (1792, 171), (1856, 172), (1920, 173),
  (1984, 174), (2048, 175), (2176, 176), (2304, 177), (2432, 178), (2560, 179), (2688, 180),
  (2816, 181), (2944, 182), (3072, 183), (3200, 184), (3328, 185), (3456, 186), (3584, 187),
  (3712, 188), (3840, 189), (3968, 190), (4096, 191), (4352, 192), (4608, 193), (4864, 194),
  (5120, 195), (5376, 196), (5632, 197), (5888, 198), (6144, 199), (6400, 200), (6656, 201),
  (6912, 202), (7168, 203), (7424, 204), (7680, 205), (7936, 206), (8192, 207), (8704, 208),
  (9216, 209), (9728, 210), (10240, 211), (10752, 212), (11264, 213), (11776, 214), (12288,
  215), (12800, 216), (13312, 217), (13824, 218), (14336, 219), (14848, 220), (15360, 221),
  (15872, 222), (16384, 223), (17408, 224), (18432, 225), (19456, 226), (20480, 227), (21504,
  228), (22528, 229), (23552, 230), (24576, 231), (25600, 232), (26624, 233), (27648, 234),
  (28672, 235), (29696, 236), (30720, 237), (31744, 238), (32768, 239), (34816, 240), (36864,
  241), (38912, 242), (40960, 243), (43008, 244), (45056, 245), (47104, 246), (49152, 247),
  (51200, 248), (53248, 249), (55296, 250), (57344, 251), (59392, 252), (61440, 253), (63488,
  254), (65536, 255), (69632, 256), (73728, 257), (77824, 258), (81920, 259), (86016, 260),
  (90112, 261), (94208, 262), (98304, 263), (102400, 264), (106496, 265), (110592, 266),
  (114688, 267), (118784, 268), (122880, 269), (126976, 270), (131072, 271), (139264, 272),
  (147456, 273), (155648, 274), (163840, 275), (172032, 276), (180224, 277), (188416, 278),
  (196608, 279), (204800, 280), (212992, 281), (221184, 282), (229376, 283), (237568, 284),
  (245760, 285), (253952, 286), (262144, 287), (278528, 288), (294912, 289), (311296, 290),
  (327680, 291), (344064, 292), (360448, 293), (376832, 294), (393216, 295), (409600, 296),
  (425984, 297), (442368, 298), (458752, 299), (475136, 300), (491520, 301), (507904, 302)]

/-- The largest size with this id. -/
def sizeOfId (id : Nat) : Nat := (17 + id % 16) * 2 ^ (id / 16 - 4)

/-- A size that there would be a vector for without the merging. -/
def Generated (size : Nat) : Prop :=
  ∃ id, (size, id) ∈ generatedSizesAndIndexes ∧ size ≤ largeSizeMax

/-! ## The two tables -/

/-- What the rows of the tables show: the first one has every id from 160 on with its largest
size, and going up from there to the real size loses no object and less than 18 % of a chunk. -/
theorem tables :
    generatedSizesAndIndexes = (List.range 143).map (fun k => (sizeOfId (160 + k), 160 + k)) ∧
      (∀ k : Fin 143, commonSizeMax < sizeOfId (160 + k.val) ∧
        (sizeOfId (160 + k.val) ≤ largeSizeMax ↔ k.val ≤ 104)) ∧
      (∀ size ∈ largeSizesFromFirstId,
        size ∈ generatedSizesAndIndexes.map Prod.fst ∧ size ≤ largeSizeMax) ∧
      (∀ k : Fin 105,
        largeChunkSize / largeSizesForId (160 + k.val) =
            largeChunkSize / sizeOfId (160 + k.val) ∧
          82 * largeChunkSize ≤ 100 * (largeChunkSize / largeSizesForId (160 + k.val) *
            ((16 + (160 + k.val) % 16) * 2 ^ ((160 + k.val) / 16 - 4) + 1)) ∧
          ∀ row ∈ generatedSizesAndIndexes,
            (16 + (160 + k.val) % 16) * 2 ^ ((160 + k.val) / 16 - 4) < row.1 →
              sizeOfId (160 + k.val) ≤ row.1) ∧
      (realLargeSizes.map fun size => largeChunkSize / size).IsChain (· > ·) := by
  decide +kernel

theorem generated_iff {size : Nat} :
    Generated size ↔ ∃ id, 160 ≤ id ∧ id ≤ 264 ∧ sizeOfId id = size := by
  obtain ⟨hrows, hids, -⟩ := tables
  constructor
  · rintro ⟨id, hrow, hle⟩
    rw [hrows] at hrow
    obtain ⟨k, hk, hrow⟩ := List.mem_map.mp hrow
    obtain ⟨rfl, rfl⟩ := Prod.mk.inj hrow
    have hk' : k ≤ 104 := (hids ⟨k, List.mem_range.mp hk⟩).2.mp hle
    exact ⟨160 + k, by omega, by omega, rfl⟩
  · rintro ⟨id, hlow, hhigh, rfl⟩
    obtain ⟨k, rfl⟩ := Nat.exists_eq_add_of_le hlow
    have hk : k < 143 := by omega
    have hk' : k ≤ 104 := by omega
    refine ⟨160 + k, ?_, (hids ⟨k, hk⟩).2.mpr hk'⟩
    rw [hrows]
    exact List.mem_map.mpr ⟨k, List.mem_range.mpr hk, rfl⟩

theorem commonSizeMax_lt {size : Nat} (h : Generated size) : commonSizeMax < size := by
  obtain ⟨id, hlow, hhigh, rfl⟩ := generated_iff.mp h
  have hid := (tables.2.1 ⟨id - 160, by omega⟩).1
  rwa [show 160 + (id - 160) = id by omega] at hid

section Id

variable {id : Nat}

/-- The real size of an id is one of the sizes before the merging. -/
theorem generated_largeSizesForId (hlow : 160 ≤ id) (hhigh : id ≤ 264) :
    Generated (largeSizesForId id) := by
  have hlength : largeSizesFromFirstId.length = 105 := rfl
  have hidx : id - 160 < largeSizesFromFirstId.length := by omega
  have hsize : largeSizesForId id = largeSizesFromFirstId[id - 160] :=
    (if_neg (Nat.not_lt.mpr hlow)).trans (List.getD_eq_getElem _ _ hidx)
  obtain ⟨hmem, hle⟩ := tables.2.2.1 _ (List.getElem_mem hidx)
  obtain ⟨row, hrow, hfst⟩ := List.mem_map.mp hmem
  rw [hsize]
  exact ⟨row.2, hfst ▸ hrow, hle⟩

/-- Going up to the real size of the id loses no object. -/
theorem objects_largeSizesForId (hlow : 160 ≤ id) (hhigh : id ≤ 264) :
    largeChunkSize / largeSizesForId id = largeChunkSize / sizeOfId id := by
  have hid := (tables.2.2.2.1 ⟨id - 160, by omega⟩).1
  rwa [show 160 + (id - 160) = id by omega] at hid

/-- The smallest size with an id leaves more than four fifths of a chunk in use. -/
theorem used_largeSizesForId (hlow : 160 ≤ id) (hhigh : id ≤ 264) :
    82 * largeChunkSize ≤ 100 * (largeChunkSize / largeSizesForId id *
      ((16 + id % 16) * 2 ^ (id / 16 - 4) + 1)) := by
  have hid := (tables.2.2.2.1 ⟨id - 160, by omega⟩).2.1
  rwa [show 160 + (id - 160) = id by omega] at hid

/-- No size before the merging lies between the sizes of an id. -/
theorem sizeOfId_le (hlow : 160 ≤ id) (hhigh : id ≤ 264) {size : Nat} (hsize : Generated size)
    (hlt : (16 + id % 16) * 2 ^ (id / 16 - 4) < size) : sizeOfId id ≤ size := by
  obtain ⟨id', hrow, -⟩ := hsize
  have hid := (tables.2.2.2.1 ⟨id - 160, by omega⟩).2.2 _ hrow
  rw [show 160 + (id - 160) = id by omega] at hid
  exact hid hlt

end Id

namespace Slot

/-- A larger large class has fewer objects in a chunk. -/
theorem slotsPerChunk_strictAnti : StrictAnti fun idx : Fin 88 => (large idx).slotsPerChunk := by
  have hpairs := List.pairwise_map.mp (List.isChain_iff_pairwise.mp tables.2.2.2.2)
  intro i j hij
  have hi : i.val < realLargeSizes.length := i.isLt.trans_eq realLargeSizes_length.symm
  have hj : j.val < realLargeSizes.length := j.isLt.trans_eq realLargeSizes_length.symm
  have hlt := List.pairwise_iff_getElem.mp hpairs i.val j.val hi hj hij
  simpa only [slotsPerChunk, chunkSize, realSize, List.getD_eq_getElem _ _ hi,
    List.getD_eq_getElem _ _ hj] using hlt

end Slot

/-! ## What merging costs -/

theorem recommendedSize_eq {size : Nat} (hlow : commonSizeMax < size)
    (hhigh : size ≤ largeSizeMax) :
    recommendedSize size = largeSizesForId (findLargeSlotId size) := by
  rw [recommendedSize, if_neg (Nat.not_le.mpr hlow), if_pos hhigh,
    largeSizeToIdAndRealSize_eq hlow hhigh]

/-- The size that four bits of mantissa round to. -/
theorem isLeast_sizeOfId {size : Nat} (hlow : commonSizeMax < size) (hhigh : size ≤ largeSizeMax) :
    IsLeast {exact | Generated exact ∧ size ≤ exact} (sizeOfId (findLargeSlotId size)) := by
  obtain ⟨hid, hid', hle⟩ := findLargeSlotId_spec hlow hhigh
  refine ⟨⟨generated_iff.mpr ⟨_, hid, hid', rfl⟩, hle⟩, ?_⟩
  rintro exact' ⟨hgenerated, hle'⟩
  exact sizeOfId_le hid hid' hgenerated ((findLargeSlotId_lower hlow hhigh).trans_le hle')

/-- The size before the merging and the real size leave room for equally many objects. -/
theorem objects_recommendedSize {size : Nat} (hlow : commonSizeMax < size)
    (hhigh : size ≤ largeSizeMax) : largeChunkSize / recommendedSize size =
      largeChunkSize / sizeOfId (findLargeSlotId size) := by
  obtain ⟨hid, hid', -⟩ := findLargeSlotId_spec hlow hhigh
  rw [recommendedSize_eq hlow hhigh, objects_largeSizesForId hid hid']

/-- Real sizes with equally many objects in a chunk are one. -/
theorem recommendedSize_congr {n m : Nat} (hn : commonSizeMax < n) (hn' : n ≤ largeSizeMax)
    (hm : commonSizeMax < m) (hm' : m ≤ largeSizeMax)
    (h : largeChunkSize / recommendedSize n = largeChunkSize / recommendedSize m) :
    recommendedSize n = recommendedSize m := by
  have hlarge : ∀ {size}, commonSizeMax < size → size ≤ largeSizeMax →
      ∃ idx : Fin 88, (Slot.large idx).realSize = recommendedSize size := by
    intro size hlow hhigh
    obtain ⟨s, -, hreal, hchunk⟩ := slotForSize_large hlow hhigh
    cases s with
    | common idx =>
        have hne : commonChunkSize ≠ largeChunkSize := by decide
        exact absurd hchunk hne
    | large idx => exact ⟨idx, hreal⟩
  obtain ⟨i, hi⟩ := hlarge hn hn'
  obtain ⟨j, hj⟩ := hlarge hm hm'
  rw [← hi, ← hj] at h
  rw [← hi, ← hj, Slot.slotsPerChunk_strictAnti.injective h]

/-- Of the sizes that four bits of mantissa give, the real size of a request is the largest that
leaves room for as many objects in a chunk as the exact one, and less than 18 % of a chunk is
lost. -/
theorem recommendedSize_merges {size : Nat} (hlow : commonSizeMax < size)
    (hhigh : size ≤ largeSizeMax) :
    ∃ exact, IsLeast {exact | Generated exact ∧ size ≤ exact} exact ∧
      IsGreatest {merged | Generated merged ∧
        largeChunkSize / merged = largeChunkSize / exact} (recommendedSize size) ∧
      82 * largeChunkSize ≤ 100 * (largeChunkSize / recommendedSize size * size) := by
  obtain ⟨hid, hid', -⟩ := findLargeSlotId_spec hlow hhigh
  have hround := recommendedSize_eq hlow hhigh
  refine ⟨sizeOfId (findLargeSlotId size), isLeast_sizeOfId hlow hhigh, ⟨⟨?_, ?_⟩, ?_⟩, ?_⟩
  · rw [hround]
    exact generated_largeSizesForId hid hid'
  · exact objects_recommendedSize hlow hhigh
  · rintro merged ⟨hgenerated, hobjects⟩
    have hlow' : commonSizeMax < merged := commonSizeMax_lt hgenerated
    have hhigh' : merged ≤ largeSizeMax := hgenerated.choose_spec.2
    have hself : sizeOfId (findLargeSlotId merged) = merged :=
      (isLeast_sizeOfId hlow' hhigh').unique ⟨⟨hgenerated, le_rfl⟩, fun exact' h => h.2⟩
    have hmerged := objects_recommendedSize hlow' hhigh'
    rw [hself, hobjects, ← objects_recommendedSize hlow hhigh] at hmerged
    exact (le_recommendedSize merged).trans_eq
      (recommendedSize_congr hlow' hhigh' hlow hhigh hmerged)
  · rw [hround]
    refine (used_largeSizesForId hid hid').trans ?_
    exact Nat.mul_le_mul_left 100 (Nat.mul_le_mul_left _ (findLargeSlotId_lower hlow hhigh))

/-- The largest loss: a byte more than the size before gets the last real size. -/
theorem recommendedSize_merges_worst : recommendedSize 86017 = 102400 ∧
    ∃ exact, IsLeast {exact | Generated exact ∧ 86017 ≤ exact} exact ∧
      IsGreatest {merged | Generated merged ∧
        largeChunkSize / merged = largeChunkSize / exact} (recommendedSize 86017) ∧
      82 * largeChunkSize ≤ 100 * (largeChunkSize / recommendedSize 86017 * 86017) :=
  ⟨(recommendedSize_eq (by decide) (by decide)).trans (by rfl),
    recommendedSize_merges (by decide) (by decide)⟩

end Memalart
