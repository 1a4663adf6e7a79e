/-
# What the short statistics promise

`ShortStats` adds up what the iterator reports for every class and every extra-large size.
The bytes that are out are at most those it calls used, these are at most those it calls
allocated, and the latter fit into the regions of the allocator, next to the metadata and the
free chunks.
-/

import Mathlib.Algebra.BigOperators.Ring.List
import Mathlib.Algebra.Order.BigOperators.Group.Finset
import Memalart.BlockMemory
import Memalart.ExactStats
import Memalart.UnusedMemory

namespace Memalart

open Memalart.Lib ThreadLocalAllocator

variable {P : Params}

/-- A sum over all classes follows the order of `iter_allocated_size`. -/
theorem Slot.sum_eq (f : Slot → Nat) :
    ∑ s, f s = (ChunkKind.common.slots.map f).sum + (ChunkKind.large.slots.map f).sum := by
  have huniv : (Finset.univ : Finset Slot) = inOrder.toFinset := by
    ext s
    simp only [Finset.mem_univ, List.mem_toFinset, mem_inOrder]
  rw [huniv, List.sum_toFinset f nodup_inOrder, inOrder, List.map_append, List.sum_append]

theorem Slot.chunkSize_eq (s : Slot) : s.chunkSize = s.kind.numberOfUnits * commonChunkSize := by
  cases s with
  | common idx => exact (Nat.one_mul commonChunkSize).symm
  | large idx => exact (by decide : largeChunkSize = commonChunksInLargeChunk * commonChunkSize)

namespace World

variable {w : World P} {arr : UsedObjects}

/-! ## The totals -/

/-- The bytes of the chunks in the two chunk tables. -/
def chunkBytes (w : World P) : Nat := ∑ s : Slot, (w.inner.chunkTable s).len * s.chunkSize

/-- The bytes of the free chunks. -/
def freeBytes (w : World P) : Nat :=
  (w.freeChunks .common).length * commonChunkSize + (w.freeChunks .large).length * largeChunkSize

/-- The bytes of the extra-large blocks that are counted. -/
def extraLargeBytes (w : World P) : Nat :=
  ((P.tree.entries w.inner.allocatedLargeSizes).map fun e => e.1 * e.2).sum

/-- The bytes of the objects of the classes that the allocator has for itself. -/
def ownBytes (w : World P) : Nat :=
  ∑ s : Slot, s.realSize * UsedObjects.total s.realSize w.selfAllocatedSizes

/-! ## The sums of the statistics -/

theorem foldl_infos (infos : List (SizeClass × InfoForSize)) {acc : ShortStats}
    (hallocated : acc.allocatedMemoryFromOs + (infos.map fun e => e.2.memoryAllocated).sum <
      usizeRange) (hused : acc.usedMemory + (infos.map fun e => e.2.memoryUsed).sum < usizeRange) :
    infos.foldl (fun acc e => acc.add e.2) acc =
      ⟨acc.allocatedMemoryFromOs + (infos.map fun e => e.2.memoryAllocated).sum,
        acc.usedMemory + (infos.map fun e => e.2.memoryUsed).sum⟩ := by
  induction infos generalizing acc with
  | nil => rfl
  | cons e infos ih =>
      rw [List.map_cons, List.sum_cons, ← Nat.add_assoc] at hallocated hused
      have hadd : acc.add e.2 =
          ⟨acc.allocatedMemoryFromOs + e.2.memoryAllocated, acc.usedMemory + e.2.memoryUsed⟩ := by
        unfold ShortStats.add
        rw [Nat.mod_eq_of_lt (Nat.lt_of_add_right_lt hallocated),
          Nat.mod_eq_of_lt (Nat.lt_of_add_right_lt hused)]
      rw [List.foldl_cons, hadd, ih hallocated hused]
      simp only [List.map_cons, List.sum_cons, Nat.add_assoc]

/-- A kind without a chunk table contributes nothing. -/
theorem sum_infoForKind (k : ChunkKind) (f : InfoForSize → Nat)
    (hnone : chunkTableBox k w = none → ∀ s : Slot, s.kind = k → f (w.infoForSize arr s) = 0) :
    ((w.infoForKind arr k).map f).sum = (k.slots.map fun s => f (w.infoForSize arr s)).sum := by
  unfold infoForKind
  cases hbox : chunkTableBox k w with
  | none =>
      have hzero : ∀ s ∈ k.slots, f (w.infoForSize arr s) = 0 := fun s hs =>
        hnone hbox s (kind_of_mem_slots hs)
      rw [List.map_congr_left hzero, List.map_const', List.sum_replicate, nsmul_zero]
      rfl
  | some ptr => rw [List.map_map, Function.comp_def]

theorem sum_infos (f : InfoForSize → Nat)
    (hnone : ∀ s : Slot, chunkTableBox s.kind w = none → f (w.infoForSize arr s) = 0)
    (harr : w.allocatedForSelf = some arr) :
    ∃ infos, w.iterAllocatedSize = some infos ∧ (infos.map fun e => f e.2).sum =
      (∑ s, f (w.infoForSize arr s)) +
        ((P.tree.entries w.inner.allocatedLargeSizes).map fun e =>
          f (infoForExtraLarge arr e)).sum := by
  refine ⟨_, by rw [iterAllocatedSize, harr, Option.map_some], ?_⟩
  have hkind : ∀ k : ChunkKind, chunkTableBox k w = none →
      ∀ s : Slot, s.kind = k → f (w.infoForSize arr s) = 0 := fun k hbox s hs =>
    hnone s (hs ▸ hbox)
  simp only [List.map_append, List.sum_append, List.map_map, Function.comp_def, Slot.sum_eq,
    sum_infoForKind .common f (hkind .common), sum_infoForKind .large f (hkind .large)]

end World

/-! ## The regions -/

namespace World

variable {w : World P}

/-- The chunks that an entry stands for, by their units. -/
theorem card_entryUnits (k : ChunkKind) (chunks : List Nat) :
    ((entriesAll k chunks).bind entryUnits).card = chunks.length * k.numberOfUnits := by
  rw [bind_entriesAll, Multiset.coe_card, List.length_flatMap,
    List.map_congr_left fun c _ => k.length_units c, List.map_const', List.sum_replicate_nat]

/-- The units of the entries are those of the chunks in the tables and of the free ones. -/
theorem card_units (w : World P) : (w.entries.bind entryUnits).card * commonChunkSize =
    w.chunkBytes + w.freeBytes := by
  have hsum : (w.entries.bind entryUnits).card =
      ∑ v, ((entriesOf v (w.vec v).elems).bind entryUnits).card := by
    unfold World.entries
    rw [bind_entryUnits_sum, Multiset.card_sum]
  have htable : ∀ s : Slot, ((entriesOf (.chunk s) (w.vec (.chunk s)).elems).bind entryUnits).card *
      commonChunkSize = (w.inner.chunkTable s).len * s.chunkSize := fun s => by
    rw [s.chunkSize_eq, ← Nat.mul_assoc]
    exact congrArg (· * commonChunkSize) (card_entryUnits s.kind _)
  have hobject : ∀ s : Slot,
      ((entriesOf (.object s) (w.vec (.object s)).elems).bind entryUnits).card = 0 := fun _ => rfl
  have hcommon : ((entriesOf .freeCommonChunks (w.vec .freeCommonChunks).elems).bind
      entryUnits).card * commonChunkSize = (w.freeChunks .common).length * commonChunkSize := by
    refine congrArg (· * commonChunkSize) ((card_entryUnits .common _).trans ?_)
    exact Nat.mul_one _
  have hlarge : ((entriesOf .freeLargeChunks (w.vec .freeLargeChunks).elems).bind
      entryUnits).card * commonChunkSize = (w.freeChunks .large).length * largeChunkSize := by
    refine (congrArg (· * commonChunkSize) (card_entryUnits .large _)).trans ?_
    exact Nat.mul_assoc _ _ _
  have hregions : ((entriesOf .regions (w.vec .regions).elems).bind entryUnits).card = 0 := rfl
  rw [hsum, VecId.sum_eq, chunkBytes, Slot.sum_eq, freeBytes, hregions]
  simp only [hobject, List.map_const', List.sum_replicate_nat, Nat.mul_zero, Nat.add_zero,
    Nat.zero_add, Nat.add_mul, hcommon, hlarge, ← List.sum_map_mul_right, htable]
  omega

/-- A multiset is counted by its parts, if each element is in one of them. -/
theorem card_eq_sum_parts {α : Type} (m : Multiset α) (part : α → Nat) (parts : Finset Nat)
    (h : ∀ u ∈ m, part u ∈ parts) :
    m.card = ∑ r ∈ parts, (m.filter fun u => part u = r).card := by
  have hmap : ∀ r ∈ m.map part, r ∈ parts := by
    intro r hr
    obtain ⟨u, hu, rfl⟩ := Multiset.mem_map.1 hr
    exact h u hu
  calc m.card = (m.map part).card := (Multiset.card_map part m).symm
    _ = ∑ r ∈ parts, (m.map part).count r := (Multiset.sum_count_eq_card hmap).symm
    _ = ∑ r ∈ parts, (m.filter fun u => part u = r).card := by
        refine Finset.sum_congr rfl fun r _ => ?_
        rw [Multiset.count_map]
        exact congrArg Multiset.card (Multiset.filter_congr fun u _ => eq_comm)

end World

/-- The units of all containers fit into the regions, one common chunk of each for the metadata
left out. -/
theorem AtHand.card_units_le {w : World P} {hand : Multiset Item} (h : AtHand w hand) :
    (w.entries.bind entryUnits).card ≤ w.inner.regions.len * maxCommonChunksInRegion := by
  have hpart : ∀ u ∈ w.entries.bind entryUnits,
      regionPtrFromChunkPtr u ∈ (w.inner.regions.elems.map RegionView.ptr).toFinset := by
    intro u hu
    rw [← unitsOf_holdings h.states] at hu
    obtain ⟨i, hi, hu⟩ := mem_unitsOf.1 hu
    obtain ⟨n, hn⟩ := h.exists_region hi hu
    exact List.mem_toFinset.2 (List.mem_map.2 ⟨_, hn, rfl⟩)
  have hle : ∀ r ∈ (w.inner.regions.elems.map RegionView.ptr).toFinset,
      w.unitsListed r ≤ maxCommonChunksInRegion := by
    intro r hr
    obtain ⟨view, hview, rfl⟩ := List.mem_map.1 (List.mem_toFinset.1 hr)
    obtain ⟨hmax, hlisted⟩ := h.occupied hview
    exact (Nat.le_of_add_right_le hlisted).trans hmax
  calc (w.entries.bind entryUnits).card
      = ∑ r ∈ (w.inner.regions.elems.map RegionView.ptr).toFinset, w.unitsListed r := by
        unfold World.unitsListed
        exact World.card_eq_sum_parts _ _ _ hpart
    _ ≤ (w.inner.regions.elems.map RegionView.ptr).toFinset.card * maxCommonChunksInRegion :=
        (Finset.sum_le_sum hle).trans_eq (Finset.sum_const_nat fun _ _ => rfl)
    _ ≤ w.inner.regions.len * maxCommonChunksInRegion := by
        refine Nat.mul_le_mul_right _ ((List.toFinset_card_le _).trans ?_)
        exact (List.length_map _).le

namespace Session

variable {s : Session P} {calls : List Call}

/-! ## The live blocks -/

/-- The bytes that the callers have asked for, in the blocks of the classes. -/
def liveBytes (s : Session P) : Nat :=
  ((s.live.filter fun b => b.size ≤ largeSizeMax).map Block.size).sum

/-- A block has room in its object. -/
theorem le_sum_blockItem (b : Block) (hb : b.size ≤ largeSizeMax) :
    b.size ≤ ∑ slot : Slot,
      slot.realSize * countIn Item.objectsOf slot {blockItem b.size b.ptr} := by
  rcases Nat.eq_zero_or_pos b.size with hzero | hpos
  · rw [hzero]
    exact Nat.zero_le _
  · obtain ⟨slot, -, hreal, hle⟩ := slotForSize_spec hpos hb
    have hone : countIn Item.objectsOf slot {blockItem b.size b.ptr} = 1 := by
      rw [objectsIn_blockItem, UsedObjects.total, hreal, if_pos rfl]
      rfl
    calc b.size ≤ slot.realSize * countIn Item.objectsOf slot {blockItem b.size b.ptr} := by
          rw [hone, Nat.mul_one]
          exact hle
      _ ≤ _ := Finset.single_le_sum (f := fun slot : Slot =>
          slot.realSize * countIn Item.objectsOf slot {blockItem b.size b.ptr})
          (fun _ _ => Nat.zero_le _) (Finset.mem_univ slot)

theorem liveBytes_le (s : Session P) :
    s.liveBytes ≤ ∑ slot : Slot, slot.realSize * countIn Item.objectsOf slot (held s.live) := by
  unfold liveBytes
  induction s.live with
  | nil => exact Nat.zero_le _
  | cons b live ih =>
      simp only [held_cons, countIn_add, Nat.mul_add, Finset.sum_add_distrib]
      by_cases hb : b.size ≤ largeSizeMax
      · rw [List.filter_cons_of_pos (by simpa using hb), List.map_cons, List.sum_cons]
        exact Nat.add_le_add (le_sum_blockItem b hb) ih
      · rw [List.filter_cons_of_neg (by simpa using hb)]
        exact ih.trans (Nat.le_add_left _ _)

/-! ## One class -/

/-- What is out of a class is called used, and what is called used is called allocated. -/
theorem Reached.used_bounds (h : Reached calls s) (hstored : s.world.os.NoStateStored)
    (arr : UsedObjects) (slot : Slot) :
    slot.realSize * countIn Item.objectsOf slot (held s.live) +
        slot.realSize * UsedObjects.total slot.realSize s.world.selfAllocatedSizes ≤
      slot.realSize * (s.world.infoForSize arr slot).objectsUsed ∧
    slot.realSize * (s.world.infoForSize arr slot).objectsUsed ≤
      (s.world.inner.chunkTable slot).len * slot.chunkSize := by
  obtain ⟨lost, hbalance, -⟩ := h.balance hstored slot
  have hused := h.infoForSize hstored arr slot
  have hle : (s.world.inner.chunkTable slot).len * slot.slotsPerChunk ≤
      (s.world.inner.chunkTable slot).len * slot.chunkSize / slot.realSize :=
    Nat.mul_div_le_mul_div_assoc _ _ _
  rw [← Nat.mul_add]
  constructor
  · exact Nat.mul_le_mul_left _ (by omega)
  · refine le_trans (Nat.mul_le_mul_left _ (Nat.le_of_add_right_le hused.le)) ?_
    exact Nat.mul_div_le _ _

/-! ## The short statistics -/

/-- Whenever the short statistics are taken, they exist.  As long as the regions and the
extra-large blocks that are counted have fewer than 2^64 bytes together, nothing wraps: the live
blocks and what the allocator has for itself are at most what they call used, this is at most
what they call allocated, and that fits into the regions beside the free chunks and one common
chunk of metadata for each region.  The extra-large blocks that are counted are counted in both
numbers. -/
theorem shortStats_bounds (h : Reached calls s) (hstored : s.world.os.NoStateStored)
    (hfits : s.world.inner.regions.len * regionSize + s.world.extraLargeBytes < usizeRange) :
    ∃ stats, s.world.shortStats = some stats ∧
      s.liveBytes + s.world.ownBytes + s.world.extraLargeBytes ≤ stats.usedMemory ∧
      stats.usedMemory ≤ stats.allocatedMemoryFromOs ∧
      stats.allocatedMemoryFromOs + s.world.freeBytes +
          s.world.inner.regions.len * commonChunkSize ≤
        s.world.inner.regions.len * regionSize + s.world.extraLargeBytes := by
  obtain ⟨arr, harr⟩ := h.atRest.1.orderly.allocatedForSelf
  have hnew : ∀ slot : Slot, chunkTableBox slot.kind s.world = none →
      (s.world.inner.chunkTable slot).len * slot.chunkSize = 0 := fun slot hbox => by
    rw [h.books.1.formed.boxes slot.kind hbox slot rfl]
    exact Nat.zero_mul _
  have hregions : s.world.chunkBytes + s.world.freeBytes ≤
      s.world.inner.regions.len * maxCommonChunksInRegion * commonChunkSize := by
    rw [← World.card_units]
    exact Nat.mul_le_mul_right _ (atHand_of_reached h).card_units_le
  have hregion : s.world.inner.regions.len * maxCommonChunksInRegion * commonChunkSize +
      s.world.inner.regions.len * commonChunkSize = s.world.inner.regions.len * regionSize := by
    rw [Nat.mul_assoc, ← Nat.mul_add]
    exact congrArg (s.world.inner.regions.len * ·) (by decide)
  -- the single products are parts of the totals, so they do not wrap either
  have hchunk : ∀ slot, (s.world.inner.chunkTable slot).len * slot.chunkSize < usizeRange := by
    intro slot
    have hpart : (s.world.inner.chunkTable slot).len * slot.chunkSize ≤ s.world.chunkBytes :=
      Finset.single_le_sum (f := fun slot : Slot =>
        (s.world.inner.chunkTable slot).len * slot.chunkSize) (fun _ _ => Nat.zero_le _)
        (Finset.mem_univ slot)
    omega
  have hmemory : ∀ slot, (s.world.infoForSize arr slot).memoryUsed =
      slot.realSize * (s.world.infoForSize arr slot).objectsUsed := by
    intro slot
    have hle := (h.used_bounds hstored arr slot).2
    rw [InfoForSize.memoryUsed, Nat.mul_comm]
    exact Nat.mod_eq_of_lt (hle.trans_lt (hchunk slot))
  have hentry : ∀ e ∈ P.tree.entries s.world.inner.allocatedLargeSizes, e.1 * e.2 < usizeRange := by
    intro e he
    have hpart : e.1 * e.2 ≤ s.world.extraLargeBytes :=
      List.le_sum_of_mem (List.mem_map_of_mem (f := fun e : Nat × Nat => e.1 * e.2) he)
    omega
  obtain ⟨infos, hinfos, hallocated⟩ := World.sum_infos InfoForSize.memoryAllocated
    (fun slot hbox => (Nat.mul_comm _ _).trans (hnew slot hbox)) harr
  obtain ⟨infos', hinfos', hused⟩ := World.sum_infos InfoForSize.memoryUsed
    (fun slot hbox => (hmemory slot).trans
      (Nat.le_zero.1 ((h.used_bounds hstored arr slot).2.trans_eq (hnew slot hbox)))) harr
  obtain rfl : infos = infos' := Option.some.inj (hinfos.symm.trans hinfos')
  have hchunks : ∑ slot, (s.world.infoForSize arr slot).memoryAllocated = s.world.chunkBytes :=
    Finset.sum_congr rfl fun slot _ => Nat.mul_comm _ _
  have hextra : ((P.tree.entries s.world.inner.allocatedLargeSizes).map fun e =>
      (World.infoForExtraLarge arr e).memoryAllocated).sum = s.world.extraLargeBytes :=
    congrArg List.sum (List.map_congr_left fun e he => Nat.mod_eq_of_lt (hentry e he))
  have hextra' : ((P.tree.entries s.world.inner.allocatedLargeSizes).map fun e =>
      (World.infoForExtraLarge arr e).memoryUsed).sum = s.world.extraLargeBytes := by
    refine congrArg List.sum (List.map_congr_left fun e he => ?_)
    rw [InfoForSize.memoryUsed, Nat.mul_comm]
    exact Nat.mod_eq_of_lt (hentry e he)
  have hout : s.liveBytes + s.world.ownBytes ≤
      ∑ slot, (s.world.infoForSize arr slot).memoryUsed := by
    refine (Nat.add_le_add_right s.liveBytes_le _).trans ?_
    rw [World.ownBytes, ← Finset.sum_add_distrib]
    exact Finset.sum_le_sum fun slot _ =>
      (h.used_bounds hstored arr slot).1.trans_eq (hmemory slot).symm
  have hle : ∑ slot, (s.world.infoForSize arr slot).memoryUsed ≤ s.world.chunkBytes :=
    Finset.sum_le_sum fun slot _ => (hmemory slot).trans_le (h.used_bounds hstored arr slot).2
  rw [hchunks, hextra] at hallocated
  rw [hextra'] at hused
  have hstats : s.world.shortStats = some
      ⟨(infos.map fun e => e.2.memoryAllocated).sum, (infos.map fun e => e.2.memoryUsed).sum⟩ := by
    rw [World.shortStats, hinfos, Option.map_some, World.foldl_infos infos (by dsimp only; omega)
      (by dsimp only; omega), Nat.zero_add, Nat.zero_add]
  refine ⟨_, hstats, ?_, ?_, ?_⟩
  · dsimp only
    omega
  · dsimp only
    omega
  · dsimp only
    omega

theorem shortStats_bounds_mapped : ∃ (s : Session lockFreeParams) (stats : ShortStats),
    s.live = [⟨4096, 200000⟩, ⟨164036568, 24⟩] ∧ s.world.shortStats = some stats ∧
      200024 ≤ stats.usedMemory ∧ stats.usedMemory ≤ stats.allocatedMemoryFromOs := by
  obtain ⟨s, hreached, hstored, hlive, hregions, hentries⟩ := exists_reached_mapped
  have hextra : s.world.extraLargeBytes = 200000 := by
    show ((sizeMap.entries s.world.inner.allocatedLargeSizes).map fun e => e.1 * e.2).sum = 200000
    rw [hentries]
    rfl
  have hbytes : s.liveBytes = 24 := by
    rw [liveBytes, hlive]
    rfl
  have hfits : s.world.inner.regions.len * regionSize + s.world.extraLargeBytes < usizeRange := by
    rw [hregions, hextra]
    decide
  obtain ⟨stats, hstats, hout, hused, -⟩ := shortStats_bounds hreached hstored hfits
  exact ⟨s, stats, hlive, hstats, by omega, hused⟩

end Session

end Memalart
