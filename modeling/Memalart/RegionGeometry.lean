/-
# The geometry of a region

The size of a region is configured: 32 MB, and 2 MB in a test build.  For any power of two
that the constants of the source allow, the chunks that `parse_region` cuts tile the region
behind its metadata, whichever large chunks are split, and the masks, divisions and strides of
the address arithmetic agree with that tiling.
-/

import Memalart.Lib.Mask
import Memalart.Lib.Tiling
import Memalart.Os

namespace Memalart

open Memalart.Lib

/-- `REGION_SIZE` and what the source checks of it when it is compiled. -/
structure RegionConfig where
  regionSize : Nat
  powerOfTwo : ∃ e, regionSize = 2 ^ e
  /-- `LARGE_CHUNKS_IN_REGION` does not go below zero. -/
  largeChunkSize_le : largeChunkSize ≤ regionSize
  /-- The assertion "Region metadata size is too big." -/
  metadata_le : chunkMetadataSize * ((regionSize / largeChunkSize - 1) * commonChunksInLargeChunk +
    restCommonChunksInRegion) ≤ commonChunkSize

namespace RegionConfig

/-- Without `cfg(test)`. -/
def shipped : RegionConfig where
  regionSize := 32 * 1024 * 1024
  powerOfTwo := ⟨25, rfl⟩
  largeChunkSize_le := by decide
  metadata_le := by decide

/-- With `cfg(test)`. -/
def tested : RegionConfig where
  regionSize := 2 * 1024 * 1024
  powerOfTwo := ⟨21, rfl⟩
  largeChunkSize_le := by decide
  metadata_le := by decide

variable (c : RegionConfig)

def largeChunksInRegion : Nat := c.regionSize / largeChunkSize - 1

/-- `parse_region`: one cursor for the common chunks and then for the large ones. -/
def parseRegion (region : Nat) : ParsedRegion :=
  let (commonChunks, curr) :=
    carve commonChunkSize restCommonChunksInRegion (region + commonChunkSize)
  let (largeChunks, _) := carve largeChunkSize c.largeChunksInRegion curr
  { commonChunks := commonChunks, largeChunks := largeChunks }

/-- `split_large_chunk_to_common`. -/
def splitLargeChunkToCommon (ptr : Nat) : List Nat :=
  (carve commonChunkSize commonChunksInLargeChunk ptr).1

/-- `region_ptr_from_chunk_ptr`; a null region is a bug. -/
def regionPtrFromChunkPtr (chunkPtr : Nat) : Except Fault Nat :=
  if maskDown 64 c.regionSize chunkPtr = 0 then .error (.bugHint "null pointer")
  else .ok (maskDown 64 c.regionSize chunkPtr)

/-- `chunk_ptr_to_chunk_metadata_ptr`. -/
def chunkPtrToChunkMetadataPtr (chunkPtr : Nat) : Nat :=
  let regionStart := maskDown 64 c.regionSize chunkPtr
  let shiftFromStart := chunkPtr - regionStart
  let idx := shiftFromStart / commonChunkSize
  regionStart + idx * chunkMetadataSize

/-! ## Tiles -/

/-- The chunks behind the metadata, with these large ones split. -/
def usableChunks (region : Nat) (split : Nat → Bool) : List Block :=
  ((c.parseRegion region).commonChunks.map fun p => (p, commonChunkSize)) ++
    (c.parseRegion region).largeChunks.flatMap fun p =>
      if split p then (splitLargeChunkToCommon p).map fun p => (p, commonChunkSize)
      else [(p, largeChunkSize)]

/-- With the metadata chunk in front. -/
def allChunks (region : Nat) (split : Nat → Bool) : List Block :=
  (region, commonChunkSize) :: c.usableChunks region split

/-- The address lies in a chunk that can be used, split or not. -/
def Usable (region a : Nat) : Prop :=
  ∃ split : Nat → Bool, ∃ chunk ∈ c.usableChunks region split, chunk.Holds a

variable {c} {region a : Nat}

theorem largeChunkSize_dvd (c : RegionConfig) : largeChunkSize ∣ c.regionSize := by
  obtain ⟨e, he⟩ := c.powerOfTwo
  have hle := c.largeChunkSize_le
  have hlarge : largeChunkSize = 2 ^ 19 := by decide
  rw [he, hlarge] at hle ⊢
  exact Nat.pow_dvd_pow 2 ((Nat.pow_le_pow_iff_right Nat.one_lt_two).mp hle)

/-- The region is the large chunks and one more in their place. -/
theorem regionSize_eq (c : RegionConfig) :
    c.regionSize = largeChunkSize + c.largeChunksInRegion * largeChunkSize := by
  obtain ⟨q, hq⟩ := c.largeChunkSize_dvd
  have hle := c.largeChunkSize_le
  have hpos : 0 < largeChunkSize := by decide
  have hquot : c.regionSize / largeChunkSize = q := by rw [hq, Nat.mul_div_cancel_left _ hpos]
  have hq₁ : 1 ≤ q := by
    rw [← hquot]
    exact (Nat.one_le_div_iff hpos).mpr hle
  rw [largeChunksInRegion, hquot, Nat.sub_mul, Nat.one_mul, hq, Nat.mul_comm q]
  have hmul := Nat.mul_le_mul_left largeChunkSize hq₁
  omega

/-- The chunks tile what is left of the region, whichever large ones are split. -/
theorem tiles_usableChunks (c : RegionConfig) (region : Nat) (split : Nat → Bool) :
    Tiles (region + commonChunkSize) (region + c.regionSize) (c.usableChunks region split) := by
  have hpos : 0 < commonChunkSize := by decide
  have hpos' : 0 < largeChunkSize := by decide
  obtain ⟨hcommon, hlast⟩ :=
    Tiles.carve hpos restCommonChunksInRegion (region + commonChunkSize)
  have hrest : region + commonChunkSize + restCommonChunksInRegion * commonChunkSize =
      region + largeChunkSize := by
    have hsum : commonChunkSize + restCommonChunksInRegion * commonChunkSize = largeChunkSize := by
      decide
    omega
  obtain ⟨hlarge, -⟩ := Tiles.carve hpos' c.largeChunksInRegion (region + largeChunkSize)
  have hend : region + largeChunkSize + c.largeChunksInRegion * largeChunkSize =
      region + c.regionSize := by
    rw [c.regionSize_eq, Nat.add_assoc]
  rw [hrest] at hcommon hlast
  rw [hend] at hlarge
  have hsplit : ∀ b ∈ (carve largeChunkSize c.largeChunksInRegion (region + largeChunkSize)).1.map
        (fun p => (p, largeChunkSize)),
      Tiles b.1 (b.1 + b.2) (if split b.1 then
        (splitLargeChunkToCommon b.1).map (fun p => (p, commonChunkSize))
        else [(b.1, largeChunkSize)]) := by
    intro b hb
    obtain ⟨p, -, rfl⟩ := List.mem_map.mp hb
    split
    · exact (Tiles.carve hpos commonChunksInLargeChunk p).1
    · exact .block hpos' (.done _)
  have hcut := hlarge.refine hsplit
  rw [List.flatMap_map] at hcut
  simp only [usableChunks, parseRegion, hlast]
  exact hcommon.append hcut

/-- The metadata and the chunks tile the region. -/
theorem tiles_region (c : RegionConfig) (region : Nat) (split : Nat → Bool) :
    Tiles region (region + c.regionSize) (c.allChunks region split) := by
  have hpos : 0 < commonChunkSize := by decide
  exact .block hpos (c.tiles_usableChunks region split)

/-- An address can be used exactly if it lies behind the metadata. -/
theorem usable_iff : c.Usable region a ↔ region + commonChunkSize ≤ a ∧ a < region + c.regionSize := by
  constructor
  · rintro ⟨split, hchunk⟩
    exact (c.tiles_usableChunks region split).exists_holds_iff.mp hchunk
  · intro ha
    exact ⟨fun _ => false, (c.tiles_usableChunks region _).exists_holds_iff.mpr ha⟩

/-! ## Masks -/

theorem regionSize_le (c : RegionConfig) : c.regionSize ≤ 2 ^ 28 := by
  have hmetadata : 24 * (c.largeChunksInRegion * 8 + 7) ≤ 65536 := c.metadata_le
  have hsize : c.regionSize = 524288 + c.largeChunksInRegion * 524288 := c.regionSize_eq
  omega

/-- An aligned region ends within the address space. -/
theorem region_end_le (haligned : region % c.regionSize = 0) (hlt : region < usizeRange) :
    region + c.regionSize ≤ usizeRange := by
  obtain ⟨e, he⟩ := c.powerOfTwo
  have hle := c.regionSize_le
  rw [he] at haligned hle ⊢
  have he28 : e ≤ 28 := (Nat.pow_le_pow_iff_right Nat.one_lt_two).mp hle
  have hdvd : 2 ^ e ∣ usizeRange := Nat.pow_dvd_pow 2 (by omega)
  have hgap : 2 ^ e ≤ usizeRange - region :=
    Nat.le_of_dvd (by omega) (Nat.dvd_sub hdvd (Nat.dvd_of_mod_eq_zero haligned))
  omega

/-- The mask leaves the region of an address. -/
theorem maskDown_regionSize (haligned : region % c.regionSize = 0) (hlt : region < usizeRange)
    (hle : region ≤ a) (ha : a < region + c.regionSize) : maskDown 64 c.regionSize a = region := by
  have hend := region_end_le haligned hlt
  obtain ⟨e, he⟩ := c.powerOfTwo
  have hsize := c.regionSize_le
  rw [he] at haligned ha hend hsize ⊢
  have he28 : e ≤ 28 := (Nat.pow_le_pow_iff_right Nat.one_lt_two).mp hsize
  rw [maskDown_two_pow (by omega) (ha.trans_le hend)]
  obtain ⟨q, rfl⟩ := Nat.dvd_of_mod_eq_zero haligned
  have hquot : a / 2 ^ e = q := by
    rw [Nat.div_eq_iff (Nat.two_pow_pos e)]
    rw [Nat.mul_comm] at hle ha
    omega
  rw [hquot, Nat.mul_comm]

/-! ## Metadata entries -/

theorem chunkMetadataPtr_of_mem (haligned : region % c.regionSize = 0) (hlt : region < usizeRange)
    (hle : region ≤ a) (ha : a < region + c.regionSize) :
    c.chunkPtrToChunkMetadataPtr a =
      region + (a - region) / commonChunkSize * chunkMetadataSize := by
  rw [chunkPtrToChunkMetadataPtr, maskDown_regionSize haligned hlt hle ha]

/-- The entry of an address that can be used lies in the metadata chunk. -/
theorem entry_bounds (haligned : region % c.regionSize = 0) (hlt : region < usizeRange)
    (ha : c.Usable region a) : region ≤ c.chunkPtrToChunkMetadataPtr a ∧
      c.chunkPtrToChunkMetadataPtr a + chunkMetadataSize ≤ region + commonChunkSize := by
  obtain ⟨hle, hend⟩ := usable_iff.mp ha
  have hmetadata : 24 * (c.largeChunksInRegion * 8 + 7) ≤ 65536 := c.metadata_le
  have hsize : c.regionSize = 524288 + c.largeChunksInRegion * 524288 := c.regionSize_eq
  rw [chunkMetadataPtr_of_mem haligned hlt (by omega) hend]
  unfold commonChunkSize chunkMetadataSize
  omega

/-- Two aligned regions are the same or lie a region apart. -/
theorem regions_apart {region' : Nat} (haligned : region % c.regionSize = 0)
    (haligned' : region' % c.regionSize = 0) :
    region = region' ∨ region + c.regionSize ≤ region' ∨ region' + c.regionSize ≤ region := by
  obtain ⟨q, rfl⟩ := Nat.dvd_of_mod_eq_zero haligned
  obtain ⟨q', rfl⟩ := Nat.dvd_of_mod_eq_zero haligned'
  rcases Nat.lt_trichotomy q q' with hq | rfl | hq
  · exact .inr (.inl (Nat.mul_succ c.regionSize q ▸ Nat.mul_le_mul_left _ hq))
  · exact .inl rfl
  · exact .inr (.inr (Nat.mul_succ c.regionSize q' ▸ Nat.mul_le_mul_left _ hq))

/-- A region is a whole number of blocks of the size of a common chunk. -/
theorem commonChunkSize_dvd (c : RegionConfig) : commonChunkSize ∣ c.regionSize :=
  (by decide : commonChunkSize ∣ largeChunkSize).trans c.largeChunkSize_dvd

/-- Entries are the same for addresses of one block, and otherwise apart. -/
theorem entries_of_usable {region' b : Nat} (haligned : region % c.regionSize = 0)
    (hlt : region < usizeRange) (ha : c.Usable region a) (haligned' : region' % c.regionSize = 0)
    (hlt' : region' < usizeRange) (hb : c.Usable region' b) :
    (c.chunkPtrToChunkMetadataPtr a = c.chunkPtrToChunkMetadataPtr b ↔
        a / commonChunkSize = b / commonChunkSize) ∧
      (c.chunkPtrToChunkMetadataPtr a ≠ c.chunkPtrToChunkMetadataPtr b →
        c.chunkPtrToChunkMetadataPtr a + chunkMetadataSize ≤ c.chunkPtrToChunkMetadataPtr b ∨
          c.chunkPtrToChunkMetadataPtr b + chunkMetadataSize ≤ c.chunkPtrToChunkMetadataPtr a) := by
  have hboundsA := entry_bounds haligned hlt ha
  have hboundsB := entry_bounds haligned' hlt' hb
  obtain ⟨hleA, hendA⟩ := usable_iff.mp ha
  obtain ⟨hleB, hendB⟩ := usable_iff.mp hb
  have hlarge : 524288 ≤ c.regionSize := c.largeChunkSize_le
  have hdvd : 65536 ∣ c.regionSize := c.commonChunkSize_dvd
  have hblock : region % 65536 = 0 :=
    Nat.mod_eq_zero_of_dvd (hdvd.trans (Nat.dvd_of_mod_eq_zero haligned))
  have hblock' : region' % 65536 = 0 :=
    Nat.mod_eq_zero_of_dvd (hdvd.trans (Nat.dvd_of_mod_eq_zero haligned'))
  have hsize : c.regionSize % 65536 = 0 := Nat.mod_eq_zero_of_dvd hdvd
  unfold commonChunkSize chunkMetadataSize at *
  rcases regions_apart haligned haligned' with rfl | happart
  · have hA := chunkMetadataPtr_of_mem haligned hlt (by omega) hendA
    have hB := chunkMetadataPtr_of_mem haligned hlt (by omega) hendB
    unfold commonChunkSize chunkMetadataSize at hA hB
    omega
  · omega

/-- The entries that `init_metadata_for_large_chunk` writes one after the other are those of the
blocks of the chunk. -/
theorem chunkMetadataPtr_add {i : Nat} (haligned : region % c.regionSize = 0)
    (hlt : region < usizeRange) (hle : region ≤ a)
    (ha : a + i * commonChunkSize < region + c.regionSize) :
    c.chunkPtrToChunkMetadataPtr (a + i * commonChunkSize) =
      c.chunkPtrToChunkMetadataPtr a + i * chunkMetadataSize := by
  rw [chunkMetadataPtr_of_mem haligned hlt (by omega) ha,
    chunkMetadataPtr_of_mem haligned hlt hle (by omega)]
  unfold commonChunkSize chunkMetadataSize
  omega

/-- The geometry of a region, for every configured size, base and choice of split chunks: the
chunks tile it, the mask leads back to its base, and the metadata entries belong to the blocks
of the size of a common chunk, one to one, inside the metadata chunk. -/
theorem region_geometry (c : RegionConfig) {base : Nat} (hne : base ≠ 0)
    (haligned : base % c.regionSize = 0) (hlt : base < usizeRange) :
    (∀ split : Nat → Bool,
      Tiles base (base + c.regionSize) (c.allChunks base split) ∧
      (∀ a, (∃ chunk ∈ c.allChunks base split, chunk.Holds a) ↔
        base ≤ a ∧ a < base + c.regionSize) ∧
      (c.allChunks base split).Pairwise fun chunk chunk' => chunk.1 + chunk.2 ≤ chunk'.1) ∧
    (∀ a, base ≤ a → a < base + c.regionSize → c.regionPtrFromChunkPtr a = .ok base) ∧
    (∀ a, c.Usable base a → base ≤ c.chunkPtrToChunkMetadataPtr a ∧
      c.chunkPtrToChunkMetadataPtr a + chunkMetadataSize ≤ base + commonChunkSize) ∧
    ∀ base', base' % c.regionSize = 0 → base' < usizeRange →
      ∀ a b, c.Usable base a → c.Usable base' b →
        (c.chunkPtrToChunkMetadataPtr a = c.chunkPtrToChunkMetadataPtr b ↔
          a / commonChunkSize = b / commonChunkSize) ∧
        (c.chunkPtrToChunkMetadataPtr a ≠ c.chunkPtrToChunkMetadataPtr b →
          c.chunkPtrToChunkMetadataPtr a + chunkMetadataSize ≤ c.chunkPtrToChunkMetadataPtr b ∨
            c.chunkPtrToChunkMetadataPtr b + chunkMetadataSize ≤
              c.chunkPtrToChunkMetadataPtr a) := by
  refine ⟨fun split => ⟨c.tiles_region base split, fun a =>
    (c.tiles_region base split).exists_holds_iff, (c.tiles_region base split).pairwise⟩,
    fun a hle ha => ?_, fun a ha => entry_bounds haligned hlt ha,
    fun base' haligned' hlt' a b ha hb =>
      entries_of_usable haligned hlt ha haligned' hlt' hb⟩
  rw [regionPtrFromChunkPtr, maskDown_regionSize haligned hlt hle ha, if_neg hne]

/-- The second region of the address space, in a build that is shipped. -/
theorem region_geometry_shipped :
    shipped.regionPtrFromChunkPtr (33554432 + 5000000) = .ok 33554432 ∧
      shipped.Usable 33554432 (33554432 + 5000000) :=
  ⟨(region_geometry shipped (by decide) (by decide) (by decide)).2.1 _ (by decide) (by decide),
    usable_iff.mpr (by decide)⟩

/-! ## The region of the allocator's model -/

theorem shipped_parseRegion (region : Nat) :
    shipped.parseRegion region = Memalart.parseRegion region := by
  have hlast := (Tiles.carve (show 0 < commonChunkSize by decide) restCommonChunksInRegion
    (region + commonChunkSize)).2
  simp only [parseRegion, Memalart.parseRegion, hlast, carve_eq, Nat.add_assoc]
  rfl

theorem splitLargeChunkToCommon_eq (ptr : Nat) :
    splitLargeChunkToCommon ptr = Memalart.splitLargeChunkToCommon ptr :=
  carve_eq _ _ _

theorem shipped_maskDown (ha : a < usizeRange) :
    maskDown 64 shipped.regionSize a = Memalart.regionPtrFromChunkPtr a := by
  have hsize : shipped.regionSize = 2 ^ 25 := by decide
  have hsize' : Memalart.regionSize = 2 ^ 25 := by decide
  rw [hsize, maskDown_two_pow (by decide) ha, Memalart.regionPtrFromChunkPtr, hsize']

theorem shipped_regionPtrFromChunkPtr (ha : a < usizeRange)
    (hne : Memalart.regionPtrFromChunkPtr a ≠ 0) :
    shipped.regionPtrFromChunkPtr a = .ok (Memalart.regionPtrFromChunkPtr a) := by
  rw [regionPtrFromChunkPtr, shipped_maskDown ha, if_neg hne]

theorem shipped_chunkPtrToChunkMetadataPtr (ha : a < usizeRange) :
    shipped.chunkPtrToChunkMetadataPtr a = Memalart.chunkPtrToChunkMetadataPtr a := by
  rw [chunkPtrToChunkMetadataPtr, shipped_maskDown ha]
  rfl

end RegionConfig

end Memalart
