/-
# Regions, chunks and chunk metadata

A region is 32 MB, aligned to its size.  Its first common chunk holds metadata,
one entry for every common-chunk unit of the region; the rest is cut into seven
common chunks and 63 large ones.  This module translates the address arithmetic
of the source and proves the geometry that the ledgers of the allocator rest on:
the chunks of a region cover each of its 511 units once, and the metadata entry
of an address depends on its unit only.
-/

import Mathlib.Data.List.Range
import Mathlib.Data.List.Nodup
import Memalart.Sizes

namespace Memalart

def regionSize : Nat := 32 * 1024 * 1024
def largeChunksInRegion : Nat := regionSize / largeChunkSize - 1
def restCommonChunksInRegion : Nat := largeChunkSize / commonChunkSize - 1
def maxCommonChunksInRegion : Nat :=
  largeChunksInRegion * commonChunksInLargeChunk + restCommonChunksInRegion

/-- Bytes of one `ChunkMetadata`. -/
def chunkMetadataSize : Nat := 24

/-- `OffsetToSlotInTable`: which of the two object tables, and the index in it. -/
structure OffsetToSlotInTable where
  isCommon : Bool
  idx : Nat
deriving DecidableEq, Repr

namespace OffsetToSlotInTable

def newForCommonChunk (idx : Nat) : OffsetToSlotInTable := ⟨true, idx⟩
def newForLargeChunk (idx : Nat) : OffsetToSlotInTable := ⟨false, idx⟩

/-- The offset that a returned list node carries; it names no vector. -/
def random : OffsetToSlotInTable := ⟨false, 16000000⟩

/-- `get_vec`: the vector that the offset names. -/
def getVec (o : OffsetToSlotInTable) : Option Slot :=
  if o.isCommon then Slot.ofCommonIdx o.idx else Slot.ofLargeIdx o.idx

end OffsetToSlotInTable

/-- The offset that the metadata of a chunk of the class should hold. -/
def Slot.offset : Slot → OffsetToSlotInTable
  | .common idx => .newForCommonChunk idx.val
  | .large idx => .newForLargeChunk idx.val

/-- Addresses are plain numbers with `0` as the null pointer; a fresh page holds
zeros. -/
structure ChunkMetadata where
  nonLocalPtrManager : Nat
  offsetToSlotInTable : OffsetToSlotInTable
deriving DecidableEq, Repr

/-- What the metadata of a freshly mapped region reads as. -/
def ChunkMetadata.zero : ChunkMetadata := ⟨0, ⟨false, 0⟩⟩

structure ParsedRegion where
  commonChunks : List Nat
  largeChunks : List Nat

/-- `parse_region`: the chunks of a region in the order of their addresses. -/
def parseRegion (region : Nat) : ParsedRegion where
  commonChunks := (List.range restCommonChunksInRegion).map fun i =>
    region + (commonChunkSize + i * commonChunkSize)
  largeChunks := (List.range largeChunksInRegion).map fun i =>
    region + (commonChunkSize + restCommonChunksInRegion * commonChunkSize + i * largeChunkSize)

def splitLargeChunkToCommon (ptr : Nat) : List Nat :=
  (List.range commonChunksInLargeChunk).map fun i => ptr + i * commonChunkSize

/-- `region_ptr_from_chunk_ptr`: clear the bits below the region size. -/
def regionPtrFromChunkPtr (chunkPtr : Nat) : Nat := chunkPtr / regionSize * regionSize

/-- `chunk_ptr_to_chunk_metadata_ptr`: the entry of the unit that holds the
address. -/
def chunkPtrToChunkMetadataPtr (chunkPtr : Nat) : Nat :=
  let regionStart := regionPtrFromChunkPtr chunkPtr
  let idx := (chunkPtr - regionStart) / commonChunkSize
  regionStart + idx * chunkMetadataSize

/-! ## Units -/

/-- The unit of an address: the common-chunk-sized cell that it lies in. -/
def unitOf (a : Nat) : Nat := a / commonChunkSize * commonChunkSize

/-- The units of a region apart from the one that holds its metadata. -/
def regionUnits (region : Nat) : List Nat :=
  (List.range maxCommonChunksInRegion).map fun k => region + (k + 1) * commonChunkSize

/-- The chunks that `parse_region` cuts cover each unit of the region once. -/
theorem parseRegion_units (region : Nat) :
    (parseRegion region).commonChunks ++
      (parseRegion region).largeChunks.flatMap splitLargeChunkToCommon = regionUnits region := by
  have hoffsets : (List.range restCommonChunksInRegion).map (fun i =>
        commonChunkSize + i * commonChunkSize) ++
      ((List.range largeChunksInRegion).map fun i => commonChunkSize +
        restCommonChunksInRegion * commonChunkSize + i * largeChunkSize).flatMap
        splitLargeChunkToCommon =
      (List.range maxCommonChunksInRegion).map fun k => (k + 1) * commonChunkSize := by
    decide +kernel
  have hshift := congrArg (List.map fun a => region + a) hoffsets
  simpa [parseRegion, regionUnits, List.map_flatMap, List.flatMap_map, splitLargeChunkToCommon,
    Function.comp_def, Nat.add_assoc] using hshift

theorem regionUnits_nodup (region : Nat) : (regionUnits region).Nodup := by
  refine List.nodup_range.map fun i j h => ?_
  have h : region + (i + 1) * 65536 = region + (j + 1) * 65536 := h
  omega

/-- A unit of an aligned region lies in that region, after its metadata. -/
theorem mem_regionUnits {region u : Nat} (h : u ∈ regionUnits region) :
    region + commonChunkSize ≤ u ∧ u + commonChunkSize ≤ region + regionSize := by
  simp only [regionUnits, List.mem_map, List.mem_range] at h
  obtain ⟨k, hk, rfl⟩ := h
  have hk' : k < 511 := hk
  simp only [commonChunkSize, regionSize]
  omega

theorem regionPtr_of_mem_regionUnits {region u : Nat} (haligned : region % regionSize = 0)
    (h : u ∈ regionUnits region) : regionPtrFromChunkPtr u = region := by
  have hbounds := mem_regionUnits h
  simp only [regionPtrFromChunkPtr, regionSize, commonChunkSize] at *
  omega

/-- The metadata entry of an address in terms of the region and of the unit inside
the region. -/
theorem chunkMetadataPtr_eq (a : Nat) :
    chunkPtrToChunkMetadataPtr a =
      a / 33554432 * 33554432 + a % 33554432 / 65536 * 24 := by
  have hshift : a - a / 33554432 * 33554432 = a % 33554432 := by omega
  show a / 33554432 * 33554432 + (a - a / 33554432 * 33554432) / 65536 * 24 = _
  rw [hshift]

/-- The number of a unit, from its region and its place in the region. -/
theorem unit_eq (a : Nat) : a / 65536 = a / 33554432 * 512 + a % 33554432 / 65536 := by
  have hsplit : a = 65536 * (a / 33554432 * 512) + a % 33554432 := by omega
  calc a / 65536 = (65536 * (a / 33554432 * 512) + a % 33554432) / 65536 := by rw [← hsplit]
    _ = a / 33554432 * 512 + a % 33554432 / 65536 := Nat.mul_add_div (by omega) _ _

/-- The metadata entry of an address is the entry of its unit. -/
theorem chunkMetadataPtr_unitOf (a : Nat) :
    chunkPtrToChunkMetadataPtr (unitOf a) = chunkPtrToChunkMetadataPtr a := by
  rw [chunkMetadataPtr_eq, chunkMetadataPtr_eq]
  have hregion : a / 65536 * 65536 / 33554432 = a / 33554432 := by omega
  have hunit : a / 65536 * 65536 % 33554432 / 65536 = a % 33554432 / 65536 := by omega
  show a / 65536 * 65536 / 33554432 * 33554432 + a / 65536 * 65536 % 33554432 / 65536 * 24 = _
  rw [hregion, hunit]

theorem unitInRegion_lt (a : Nat) : a % 33554432 / 65536 < 512 :=
  Nat.div_lt_of_lt_mul (Nat.mod_lt a (by decide))

/-- Addresses with one metadata entry lie in one unit. -/
theorem unitOf_eq_of_chunkMetadataPtr_eq {a b : Nat}
    (h : chunkPtrToChunkMetadataPtr a = chunkPtrToChunkMetadataPtr b) : unitOf a = unitOf b := by
  rw [chunkMetadataPtr_eq, chunkMetadataPtr_eq] at h
  have hka := unitInRegion_lt a
  have hkb := unitInRegion_lt b
  show a / 65536 * 65536 = b / 65536 * 65536
  rw [unit_eq a, unit_eq b]
  generalize a % 33554432 / 65536 = k at *
  generalize b % 33554432 / 65536 = l at *
  generalize a / 33554432 = q at *
  generalize b / 33554432 = r at *
  have hquot : ∀ q k, k < 512 → (q * 33554432 + k * 24) / 33554432 = q := fun q k hk => by
    rw [mul_comm, Nat.mul_add_div (by decide), Nat.div_eq_of_lt (by omega), Nat.add_zero]
  have hregion : q = r := by rw [← hquot q k hka, h, hquot r l hkb]
  subst hregion
  have hunit : k = l := by omega
  rw [hunit]

/-- The unit of an address inside a common-chunk-sized cell. -/
theorem unitOf_of_lt {u a : Nat} (hu : u % commonChunkSize = 0) (hle : u ≤ a)
    (hlt : a < u + commonChunkSize) : unitOf a = u := by
  simp only [unitOf, commonChunkSize] at *
  omega

end Memalart
