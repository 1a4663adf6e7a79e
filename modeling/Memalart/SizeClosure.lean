/-
# Rounding sizes is a closure

Allocation, deallocation, the buffers of the allocator and its statistics each round a
size, and not always the same one.  They agree because `recommended_size` is a closure
operator: it takes a size to the least real size above it, and real sizes to themselves.
The class and the vector of a size can therefore be read off its rounding as well.
-/

import Mathlib.Data.List.GetD
import Mathlib.Order.Closure
import Memalart.Sizes

namespace Memalart

/-! ## Rounding up to closed elements -/

/-- An element is rounded to a closed one exactly if it lies below it, and above all
closed elements before it. -/
theorem closure_eq_iff {α : Type} [LinearOrder α] (c : ClosureOperator α) {x s : α}
    (hs : c.IsClosed s) :
    c x = s ↔ x ≤ s ∧ ∀ r, c.IsClosed r → r < s → r < x := by
  constructor
  · rintro rfl
    refine ⟨c.le_closure x, fun r hr hlt => ?_⟩
    by_contra hle
    exact absurd hlt (not_lt.mpr (ClosureOperator.closure_min (not_lt.mp hle) hr))
  · rintro ⟨hle, hbetween⟩
    refine le_antisymm (ClosureOperator.closure_min hle hs) ?_
    by_contra hlt
    exact absurd (hbetween _ (c.isClosed_closure x) (not_le.mp hlt))
      (not_lt.mpr (c.le_closure x))

/-! ## The shortcut for powers of two -/

/-- `trailing_zeros` of a `usize`. -/
def trailingZeros (n : Nat) : Nat := Nat.log2 (Nat.gcd n usizeRange)

/-- `TABLE` of `large_size_to_id_and_real_size`: the slot ids of the large powers of two,
behind filler for the smaller ones. -/
def powerOfTwoTable : List Nat :=
  List.replicate 11 (usizeRange - 1) ++
    [findLargeSlotId 2048, findLargeSlotId 4096, findLargeSlotId 8192, findLargeSlotId 16384,
      findLargeSlotId 32768, findLargeSlotId 65536]

/-- What the shortcut answers. -/
def largeSizeShortcut (size : Nat) : Nat × Nat :=
  (powerOfTwoTable.getD (trailingZeros size) 0, size)

/-- What the tables answer. -/
def largeSizeByTable (size : Nat) : Nat × Nat :=
  (findLargeSlotId size, largeSizesForId (findLargeSlotId size))

/-- The large powers of two. -/
theorem large_powerOfTwo {size : Nat} (hlow : commonSizeMax < size) (hhigh : size ≤ largeSizeMax)
    (hpow : isPowerOfTwo size = true) : ∃ k, 11 ≤ k ∧ k ≤ 16 ∧ size = 2 ^ k := by
  have hsize : size = 2 ^ Nat.log2 size := by simpa [isPowerOfTwo] using hpow
  simp only [commonSizeMax, largeSizeMax] at hlow hhigh
  refine ⟨Nat.log2 size, ?_, ?_, hsize⟩
  · by_contra hlt
    have hle : 2 ^ Nat.log2 size ≤ 2 ^ 10 := Nat.pow_le_pow_right (by omega) (by omega)
    omega
  · by_contra hgt
    have hle : 2 ^ 17 ≤ 2 ^ Nat.log2 size := Nat.pow_le_pow_right (by omega) (by omega)
    omega

/-- The shortcut finds the power in its table, and answers what the tables do. -/
theorem largeSizeShortcut_eq {size : Nat} (hlow : commonSizeMax < size)
    (hhigh : size ≤ largeSizeMax) (hpow : isPowerOfTwo size = true) :
    trailingZeros size < powerOfTwoTable.length ∧
      largeSizeShortcut size = largeSizeByTable size := by
  have hpowers : ∀ i : Fin 6, trailingZeros (2 ^ (11 + i.val)) < powerOfTwoTable.length ∧
      largeSizeShortcut (2 ^ (11 + i.val)) = largeSizeByTable (2 ^ (11 + i.val)) := by
    decide +kernel
  obtain ⟨k, hk, hk', rfl⟩ := large_powerOfTwo hlow hhigh hpow
  have hi := hpowers ⟨k - 11, by omega⟩
  rwa [show 11 + (k - 11) = k by omega] at hi

/-- `large_size_to_id_and_real_size` with its table written out. -/
theorem largeSizeToIdAndRealSize_shortcut {size : Nat} (hlow : commonSizeMax < size)
    (hhigh : size ≤ largeSizeMax) : largeSizeToIdAndRealSize size =
      if isPowerOfTwo size then largeSizeShortcut size else largeSizeByTable size := by
  rw [largeSizeToIdAndRealSize_eq hlow hhigh]
  split
  · next hpow => exact (largeSizeShortcut_eq hlow hhigh hpow).2.symm
  · rfl

/-! ## The least real size -/

/-- The sizes that objects have: those of the classes, and every extra-large size. -/
def RealSize (size : Nat) : Prop := (∃ s : Slot, s.realSize = size) ∨ largeSizeMax < size

/-- A size lies above those of the id before its own. -/
theorem findLargeSlotId_lower {size : Nat} (hlow : commonSizeMax < size)
    (hhigh : size ≤ largeSizeMax) :
    (16 + findLargeSlotId size % 16) * 2 ^ (findLargeSlotId size / 16 - 4) < size := by
  obtain ⟨n, rfl⟩ : ∃ n, size = n + 1 := ⟨size - 1, by omega⟩
  simp only [commonSizeMax, largeSizeMax] at hlow hhigh
  obtain ⟨hb, -⟩ := log2_of_large (n := n) (by omega) (by omega)
  have hle : 2 ^ Nat.log2 n ≤ n := Nat.log2_self_le (by omega)
  have hlt : n < 2 ^ (Nat.log2 n + 1) := Nat.lt_log2_self
  simp only [findLargeSlotId, Nat.add_sub_cancel, Nat.shiftLeft_eq, Nat.shiftRight_eq_div_pow]
  generalize Nat.log2 n = b at *
  obtain ⟨e, rfl⟩ : ∃ e, b = e + 4 := ⟨b - 4, by omega⟩
  have hunit : 0 < 2 ^ e := Nat.two_pow_pos e
  have hlead : 16 ≤ n / 2 ^ e :=
    (Nat.le_div_iff_mul_le hunit).mpr (by rw [pow_add] at hle; omega)
  have hmant : n / 2 ^ e < 32 :=
    (Nat.div_lt_iff_lt_mul hunit).mpr (by rw [Nat.pow_succ, pow_add] at hlt; omega)
  have hself : n / 2 ^ e * 2 ^ e ≤ n := Nat.div_mul_le_self n (2 ^ e)
  simp only [Nat.add_sub_cancel, show (2 : Nat) ^ 4 = 16 by rfl]
  generalize n / 2 ^ e = q at *
  have hdiv : ((e + 4) * 16 + q % 16) / 16 - 4 = e := by omega
  have hmod : 16 + ((e + 4) * 16 + q % 16) % 16 = q := by omega
  rw [hdiv, hmod]
  omega

/-- No real size lies between the sizes of an id and the real size of the id. -/
theorem largeSizesForId_le {id : Nat} (hlow : 160 ≤ id) (hhigh : id ≤ 264) {s : Slot}
    (hs : (16 + id % 16) * 2 ^ (id / 16 - 4) < s.realSize) :
    largeSizesForId id ≤ s.realSize := by
  have hcommon : 1024 ≤ (16 + id % 16) * 2 ^ (id / 16 - 4) := by
    have hunit : 2 ^ 6 ≤ 2 ^ (id / 16 - 4) := Nat.pow_le_pow_right (by omega) (by omega)
    calc 1024 = 16 * 2 ^ 6 := rfl
      _ ≤ (16 + id % 16) * 2 ^ (id / 16 - 4) := Nat.mul_le_mul (by omega) hunit
  have hlarge : ∀ k : Fin 105, ∀ size ∈ realLargeSizes,
      (16 + (160 + k.val) % 16) * 2 ^ ((160 + k.val) / 16 - 4) < size →
        largeSizesForId (160 + k.val) ≤ size := by
    decide +kernel
  have hid : 160 + (id - 160) = id := by omega
  cases s with
  | common idx =>
      simp only [Slot.realSize] at hs
      have hidx := idx.isLt
      omega
  | large idx =>
      have hle := hlarge ⟨id - 160, by omega⟩ (Slot.large idx).realSize
      rw [hid] at hle
      refine hle ?_ hs
      have hidx : idx.val < realLargeSizes.length := idx.isLt.trans_eq realLargeSizes_length.symm
      rw [Slot.realSize, List.getD_eq_getElem _ _ hidx]
      exact List.getElem_mem hidx

/-- The rounding of a size goes no further than the next real size. -/
theorem recommendedSize_le {size real : Nat} (hreal : RealSize real) (hle : size ≤ real) :
    recommendedSize size ≤ real := by
  by_cases hcommon : size ≤ commonSizeMax
  · have hround : recommendedSize size = (size + 7) / 8 * 8 := if_pos hcommon
    rw [hround]
    simp only [commonSizeMax] at hcommon
    rcases hreal with ⟨s, rfl⟩ | hextra
    · obtain ⟨-, hmod, -, -⟩ := s.bounds
      omega
    · simp only [largeSizeMax] at hextra
      omega
  · have hlow : commonSizeMax < size := Nat.not_le.mp hcommon
    by_cases hlarge : size ≤ largeSizeMax
    · obtain ⟨hid, hid', -⟩ := findLargeSlotId_spec hlow hlarge
      have hround : recommendedSize size = largeSizesForId (findLargeSlotId size) := by
        rw [recommendedSize, if_neg hcommon, if_pos hlarge, largeSizeToIdAndRealSize_eq hlow hlarge]
      rcases hreal with ⟨s, rfl⟩ | hextra
      · rw [hround]
        exact largeSizesForId_le hid hid' ((findLargeSlotId_lower hlow hlarge).trans_le hle)
      · obtain ⟨s, -, hs, -⟩ := slotForSize_large hlow hlarge
        rw [← hs]
        exact s.bounds.2.2.1.trans hextra.le
    · have hround : recommendedSize size = size := by
        rw [recommendedSize, if_neg hcommon, if_neg hlarge]
      rw [hround]
      exact hle

/-- A rounded size is a real one. -/
theorem realSize_recommendedSize {size : Nat} (hpos : 1 ≤ size) : RealSize (recommendedSize size) := by
  by_cases hlarge : size ≤ largeSizeMax
  · obtain ⟨s, -, hs, -⟩ := slotForSize_spec hpos hlarge
    exact .inl ⟨s, hs⟩
  · exact .inr ((Nat.not_le.mp hlarge).trans_le (le_recommendedSize size))

/-- Rounding a size, as a closure operator: what it closes is the real sizes, and nothing. -/
def sizeClosure : ClosureOperator Nat :=
  .ofPred recommendedSize (fun size => size = 0 ∨ RealSize size) le_recommendedSize
    (fun size => by
      rcases Nat.eq_zero_or_pos size with rfl | hpos
      · exact .inl rfl
      · exact .inr (realSize_recommendedSize hpos))
    (fun size real hle hreal => by
      rcases hreal with rfl | hreal
      · obtain rfl := Nat.le_zero.mp hle
        exact le_rfl
      · exact recommendedSize_le hreal hle)

/-! ## What the users of a size rely on -/

/-- A size and its rounding are of one class and name one vector. -/
theorem slotForSize_recommendedSize (size : Nat) (hpos : 1 ≤ size) :
    SizeClass.define (recommendedSize size) = SizeClass.define size ∧
      slotForSize (recommendedSize size) = slotForSize size := by
  by_cases hcommon : size ≤ commonSizeMax
  · obtain ⟨s, hs, hreal, -⟩ := slotForSize_common hpos hcommon
    have hle : recommendedSize size ≤ commonSizeMax := by
      rw [recommendedSize, if_pos hcommon]
      simp only [commonSizeMax] at *
      omega
    rw [SizeClass.define_eq_common hcommon, SizeClass.define_eq_common hle, hs, ← hreal]
    exact ⟨rfl, slotForSize_realSize s⟩
  · have hlow : commonSizeMax < size := Nat.not_le.mp hcommon
    by_cases hlarge : size ≤ largeSizeMax
    · obtain ⟨s, hs, hreal, -⟩ := slotForSize_large hlow hlarge
      have hlow' : commonSizeMax < recommendedSize size := hlow.trans_le (le_recommendedSize size)
      have hle : recommendedSize size ≤ largeSizeMax := hreal ▸ s.bounds.2.2.1
      rw [SizeClass.define_eq_large hlow hlarge, SizeClass.define_eq_large hlow' hle, hs, ← hreal]
      exact ⟨rfl, slotForSize_realSize s⟩
    · have hround : recommendedSize size = size := by
        rw [recommendedSize, if_neg hcommon, if_neg hlarge]
      rw [hround]
      exact ⟨rfl, rfl⟩

/-- The entry of `REAL_LARGE_SIZES` that a large size is led to is the real size, and the
least entry that the size fits into. -/
theorem realLargeSizes_least {size : Nat} (hlow : commonSizeMax < size)
    (hhigh : size ≤ largeSizeMax) :
    realLargeSizes[lookupTable (largeSizeToIdAndRealSize size).1]? =
        some (largeSizeToIdAndRealSize size).2 ∧
      IsLeast {entry | entry ∈ realLargeSizes ∧ size ≤ entry} (largeSizeToIdAndRealSize size).2 := by
  obtain ⟨hid, hid', -⟩ := findLargeSlotId_spec hlow hhigh
  obtain ⟨hidx, hreal⟩ := realLargeSizes_lookupTable hid hid'
  have hidx' : lookupTable (findLargeSlotId size) < realLargeSizes.length :=
    hidx.trans_eq realLargeSizes_length.symm
  have hround : recommendedSize size = largeSizesForId (findLargeSlotId size) := by
    rw [recommendedSize, if_neg (Nat.not_le.mpr hlow), if_pos hhigh,
      largeSizeToIdAndRealSize_eq hlow hhigh]
  rw [List.getD_eq_getElem _ _ hidx'] at hreal
  rw [largeSizeToIdAndRealSize_eq hlow hhigh]
  refine ⟨?_, ⟨?_, ?_⟩, ?_⟩
  · rw [List.getElem?_eq_getElem hidx', hreal]
  · exact hreal ▸ List.getElem_mem hidx'
  · exact hround ▸ le_recommendedSize size
  · rintro entry ⟨hentry, hle⟩
    obtain ⟨i, hi, rfl⟩ := List.mem_iff_getElem.mp hentry
    have hreal' : RealSize realLargeSizes[i] :=
      .inl ⟨.large ⟨i, hi.trans_eq realLargeSizes_length⟩, List.getD_eq_getElem _ _ hi⟩
    exact hround ▸ recommendedSize_le hreal' hle

/-- All users of a size agree on its class, its vector and its real size. -/
theorem recommendedSize_closure {n m : Nat} (hn : 1 ≤ n) :
    n ≤ recommendedSize n ∧ recommendedSize (recommendedSize n) = recommendedSize n ∧
      (n ≤ m → recommendedSize n ≤ recommendedSize m) ∧
      SizeClass.define (recommendedSize n) = SizeClass.define n ∧
      slotForSize (recommendedSize n) = slotForSize n ∧
      (SizeClass.define n = .large →
        realLargeSizes[lookupTable (largeSizeToIdAndRealSize n).1]? = some (recommendedSize n) ∧
          IsLeast {entry | entry ∈ realLargeSizes ∧ n ≤ entry} (recommendedSize n) ∧
          (isPowerOfTwo n → largeSizeShortcut n = largeSizeByTable n)) := by
  obtain ⟨hclass, hslot⟩ := slotForSize_recommendedSize n hn
  refine ⟨sizeClosure.le_closure n, sizeClosure.idempotent n, fun h => sizeClosure.monotone h,
    hclass, hslot, fun hlarge => ?_⟩
  have hlow : commonSizeMax < n := by
    by_contra hle
    rw [SizeClass.define_eq_common (Nat.not_lt.mp hle)] at hlarge
    cases hlarge
  have hhigh : n ≤ largeSizeMax := by
    by_contra hgt
    rw [SizeClass.define_eq_extraLarge (Nat.not_le.mp hgt)] at hlarge
    cases hlarge
  have hround : recommendedSize n = (largeSizeToIdAndRealSize n).2 := by
    rw [recommendedSize, if_neg (Nat.not_le.mpr hlow), if_pos hhigh]
  obtain ⟨hentry, hleast⟩ := realLargeSizes_least hlow hhigh
  rw [hround]
  exact ⟨hentry, hleast, fun hpow => (largeSizeShortcut_eq hlow hhigh hpow).2⟩

/-- A size that has an id of its own, and one that shares the last id. -/
theorem recommendedSize_closure_large : recommendedSize 4096 = 4096 ∧
    recommendedSize 4096 ≤ recommendedSize 90000 ∧
    largeSizeShortcut 4096 = largeSizeByTable 4096 := by
  obtain ⟨-, -, hmono, -, -, hlarge⟩ := recommendedSize_closure (n := 4096) (m := 90000) (by decide)
  refine ⟨by decide +kernel, hmono (by decide), ?_⟩
  exact (hlarge (by decide)).2.2 (by decide +kernel)

end Memalart
