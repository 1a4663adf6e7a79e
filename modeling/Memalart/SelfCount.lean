/-
# The array of `allocated_for_self` is large enough

The array has room for one entry per object that the allocator may hold for itself, but
the tree adds entries of its own.  The entries are kept by size, and a buffer, a box, a
manager or a node has either the size of a class or that of a power of two, so there are
far fewer sizes than there is room for, and the array is never too small.
-/

import Memalart.StatsIter

namespace Memalart

open Memalart.Lib

variable {P : Params}

/-! ## The sizes there are -/

/-- The sizes of the classes, and the powers of two. -/
def selfSizes : List Nat :=
  (ChunkKind.common.slots ++ ChunkKind.large.slots).map Slot.realSize ++
    (List.range 64).map (2 ^ ·)

theorem length_selfSizes : selfSizes.length ≤ maxNumberOfSelfAllocatedObjects := by
  simp only [selfSizes, List.length_append, List.length_map, World.length_slots_common,
    World.length_slots_large, List.length_range]
  decide

theorem realSize_mem_selfSizes (s : Slot) : s.realSize ∈ selfSizes := by
  refine List.mem_append.mpr (.inl (List.mem_map_of_mem (List.mem_append.mpr ?_)))
  cases s with
  | common idx => exact .inl (List.mem_map_of_mem (List.mem_finRange idx))
  | large idx => exact .inr (List.mem_map_of_mem (List.mem_finRange idx))

theorem recommendedSize_mem_selfSizes {size : Nat} (hpos : 1 ≤ size) (hle : size ≤ largeSizeMax) :
    recommendedSize size ∈ selfSizes := by
  obtain ⟨s, -, hreal, -⟩ := slotForSize_spec hpos hle
  rw [← hreal]
  exact realSize_mem_selfSizes s

theorem pow_mem_selfSizes {j : Nat} (hj : j < 64) : 2 ^ j ∈ selfSizes :=
  List.mem_append.mpr (.inr (List.mem_map_of_mem (List.mem_range.mpr hj)))

theorem exists_nextPowerOfTwo (n : Nat) : ∃ j, nextPowerOfTwo n = 2 ^ j := by
  unfold nextPowerOfTwo
  split
  · exact ⟨0, rfl⟩
  · exact ⟨_, rfl⟩

theorem recommendedSize_le_largeSizeMax {size : Nat} (h : size ≤ largeSizeMax) :
    recommendedSize size ≤ largeSizeMax := by
  rcases Nat.eq_zero_or_pos size with rfl | hpos
  · exact Nat.zero_le _
  · obtain ⟨s, -, hreal, -⟩ := slotForSize_spec hpos h
    rw [← hreal]
    exact s.bounds.2.2.1

/-- The bytes of a buffer that is not served from a class are a power of two. -/
theorem VecId.HasCapacity.bytes {v : VecId} {cap : Nat} (h : v.HasCapacity cap)
    (hlarge : largeSizeMax < cap * v.elemSize) : ∃ j < 64, cap * v.elemSize = 2 ^ j := by
  rcases h with rfl | ⟨n, hcap⟩
  · rw [Nat.zero_mul] at hlarge
    exact absurd hlarge (Nat.not_lt_zero _)
  · obtain ⟨j, hj⟩ := exists_nextPowerOfTwo n
    rw [hj] at hcap
    have hle : cap * v.elemSize ≤ recommendedSize (2 ^ j) := by
      rw [hcap]
      exact (Nat.mul_le_mul_right _ (Nat.mod_le _ _)).trans (Nat.div_mul_le_self _ _)
    have hbig : largeSizeMax < 2 ^ j := by
      by_contra hnot
      have hsmall := recommendedSize_le_largeSizeMax (Nat.not_lt.mp hnot)
      omega
    have hrec : recommendedSize (2 ^ j) = 2 ^ j := by
      unfold recommendedSize
      rw [if_neg (by unfold commonSizeMax; unfold largeSizeMax at hbig; omega),
        if_neg (Nat.not_le.mpr hbig)]
    have hj5 : 5 ≤ j := by
      by_contra hnot
      have hpow : 2 ^ j ≤ 2 ^ 4 := Nat.pow_le_pow_right (by decide) (by omega)
      unfold largeSizeMax at hbig
      omega
    rw [hrec] at hcap
    have hpow : ∀ e, e ≤ 4 → 2 ^ j / 2 ^ e % u32Range * 2 ^ e = cap * v.elemSize →
        ∃ j < 64, cap * v.elemSize = 2 ^ j := by
      intro e he heq
      rw [Nat.pow_div (by omega) (by decide)] at heq
      by_cases hlt : j - e < 32
      · refine ⟨j, by omega, ?_⟩
        have hsmall : 2 ^ (j - e) < u32Range := Nat.pow_lt_pow_right (by decide) hlt
        rw [← heq, Nat.mod_eq_of_lt hsmall, ← Nat.pow_add, Nat.sub_add_cancel (by omega)]
      · have hzero : 2 ^ (j - e) % u32Range = 0 :=
          Nat.mod_eq_zero_of_dvd (Nat.pow_dvd_pow 2 (Nat.not_lt.mp hlt))
        rw [hzero, Nat.zero_mul] at heq
        omega
    rcases v.elemSize_eq with helem | helem
    · refine hpow 3 (by decide) ?_
      rw [hcap, helem]
      rfl
    · refine hpow 4 le_rfl ?_
      rw [hcap, helem]
      rfl

namespace World

variable {w : World P}

theorem Orderly.bytesAllocated (h : w.Orderly) (v : VecId) :
    w.bytesAllocated v = 0 ∨ w.bytesAllocated v ∈ selfSizes := by
  unfold World.bytesAllocated SelfAllocatedVec.bytesAllocated
  rcases Nat.eq_zero_or_pos ((w.vec v).cap * v.elemSize) with hzero | hpos
  · rw [hzero]
    exact .inl rfl
  · right
    by_cases hle : (w.vec v).cap * v.elemSize ≤ largeSizeMax
    · exact recommendedSize_mem_selfSizes hpos hle
    · obtain ⟨j, hj, heq⟩ := (h.caps v).bytes (Nat.not_le.mp hle)
      have hrec : recommendedSize ((w.vec v).cap * v.elemSize) = (w.vec v).cap * v.elemSize := by
        unfold recommendedSize
        rw [if_neg (by unfold commonSizeMax; unfold largeSizeMax at hle; omega), if_neg hle]
      rw [hrec, heq]
      exact pow_mem_selfSizes hj

/-- The tree has nodes of a size that it counts. -/
theorem mem_selfAllocatedMemory {tree : P.tree.Tree} {size number : Nat}
    (h : (size, number) ∈ P.tree.selfAllocatedMemory tree) :
    size = 0 ∨ number = 0 ∨ size ∈ selfSizes := by
  by_cases hzero : size = 0 ∨ number = 0
  · rcases hzero with hzero | hzero
    · exact .inl hzero
    · exact .inr (.inl hzero)
  · have htotal := P.tree.total_selfAllocatedMemory size tree fun hsize => hzero (.inl hsize)
    have hpos : ∀ entries : List (Nat × Nat), (size, number) ∈ entries →
        number ≤ UsedObjects.total size (entries.map fun e => (e.2, e.1)) := by
      intro entries hmem
      induction entries with
      | nil => exact absurd hmem List.not_mem_nil
      | cons e rest ih =>
          simp only [List.map_cons, UsedObjects.total]
          rcases List.mem_cons.mp hmem with rfl | hmem
          · rw [if_pos rfl]
            omega
          · have hle := ih hmem
            omega
    have hcount := hpos _ h
    rw [htotal] at hcount
    have hnumber : 0 < number := Nat.pos_of_ne_zero fun hnumber => hzero (.inr hnumber)
    obtain ⟨node, hnode, heq⟩ := List.countP_pos_iff.mp (hnumber.trans_le hcount)
    obtain ⟨hlow, hhigh⟩ := P.tree.node_size tree node hnode
    rw [decide_eq_true_eq] at heq
    rw [← heq]
    exact .inr (.inr (recommendedSize_mem_selfSizes hlow
      (hhigh.trans (by decide : commonSizeMax ≤ largeSizeMax))))

theorem Orderly.tableSizes (h : w.Orderly) (k : ChunkKind) :
    ∀ e ∈ w.tableSizes k, e.2 = 0 ∨ e.1 = 0 ∨ e.2 ∈ selfSizes := by
  intro e he
  unfold World.tableSizes at he
  split at he
  · rcases List.mem_cons.mp he with rfl | he
    · refine .inr (.inr (recommendedSize_mem_selfSizes ?_ ?_)) <;> cases k <;> decide
    · obtain ⟨s, -, rfl⟩ := List.mem_map.mp he
      exact (h.bytesAllocated (.chunk s)).imp_right .inr
  · exact absurd he List.not_mem_nil

/-- Every size that `allocated_for_self` writes is one of these. -/
theorem Orderly.selfAllocatedSizes (h : w.Orderly) :
    ∀ e ∈ w.selfAllocatedSizes, e.2 = 0 ∨ e.1 = 0 ∨ e.2 ∈ selfSizes := by
  intro e he
  simp only [World.selfAllocatedSizes, List.mem_append] at he
  rcases he with (((((he | he) | he) | he) | he) | he) | he
  · split at he
    · split at he
      · next hsize =>
          obtain rfl := List.mem_singleton.mp he
          exact .inr (.inr (recommendedSize_mem_selfSizes (Nat.one_le_iff_ne_zero.mpr hsize)
            P.managerSize_le))
      · exact absurd he List.not_mem_nil
    · exact absurd he List.not_mem_nil
  · simp only [List.mem_cons, List.not_mem_nil, or_false] at he
    rcases he with rfl | rfl | rfl
    · exact (h.bytesAllocated .freeLargeChunks).imp_right .inr
    · exact (h.bytesAllocated .freeCommonChunks).imp_right .inr
    · exact (h.bytesAllocated .regions).imp_right .inr
  · obtain ⟨s, -, rfl⟩ := List.mem_map.mp he
    exact (h.bytesAllocated (.object s)).imp_right .inr
  · exact h.tableSizes .common e he
  · obtain ⟨s, -, rfl⟩ := List.mem_map.mp he
    exact (h.bytesAllocated (.object s)).imp_right .inr
  · exact h.tableSizes .large e he
  · obtain ⟨⟨size, number⟩, hmem, rfl⟩ := List.mem_map.mp he
    exact mem_selfAllocatedMemory hmem

/-- The array is never too small. -/
theorem Orderly.allocatedForSelf (h : w.Orderly) : ∃ arr, w.allocatedForSelf = some arr :=
  Option.ne_none_iff_exists'.mp (UsedObjects.writeAll_ne_none List.Pairwise.nil
    (fun _ he => absurd he List.not_mem_nil) h.selfAllocatedSizes length_selfSizes)

end World

end Memalart
