/-
# The arithmetic of a request

On its way through `try_alloc` a size is narrowed to a `u16`, decremented, shifted by a
logarithm, and looked up in tables without a bounds check.  What the call asks the
operating system for is added to the counter behind the limit: the block itself when it is
extra large, and a region for everything that the allocator has run out of, be it objects,
a node of the size tree, or room in its own vectors.  None of this checks for an overflow
in a release build.

All of it stays in range for every size but zero exactly if no sum of the counter and what
the path has asked for leaves the range of a `usize`.
-/

import Memalart.CounterSteps
import Memalart.SizeMap
import Memalart.SizeClosure

namespace Memalart

open Memalart.Lib ThreadLocalAllocator

variable {P : Params}

/-! ## What has to be in range -/

/-- `REAL_LARGE_SIZES_LEN`, the length of `LARGE_SIZES_FOR_ID` and of `LOOKUP_TABLE`. -/
def realLargeSizesLen : Nat := firstId + largeSizesFromFirstId.length

/-- A common size: the cast to `u16` keeps it, its decrement does not wrap, the index is
one of `common_object_table`, and a chunk has an object besides the one returned. -/
structure CommonInRange (size : Nat) : Prop where
  cast : size % 65536 = size
  decrement : 1 ≤ size
  index : commonSizeToIndex size < commonSizeTableLen
  additional : recommendedSize size ≠ 0 ∧ 1 ≤ commonChunkSize / recommendedSize size

/-- A large size: the decrements do not wrap, the id is one of both tables, what it leads
to is one of the large vectors, and a power of two is one of `TABLE`. -/
structure LargeInRange (size : Nat) : Prop where
  decrement : 1 ≤ size
  exponent : size - 1 ≠ 0 ∧ 4 ≤ Nat.log2 (size - 1)
  id : (largeSizeToIdAndRealSize size).1 < realLargeSizesLen
  index : lookupTable (largeSizeToIdAndRealSize size).1 < realNumberOfLargeObjectVectors
  shortcut : isPowerOfTwo size → trailingZeros size < powerOfTwoTable.length
  additional : recommendedSize size ≠ 0 ∧ 1 ≤ largeChunkSize / recommendedSize size

/-- Nothing wraps in an access, and a limit grants only what fits under it. -/
def CounterEvent.InRange : CounterEvent → Prop
  | .moved _ => True
  | .asked before size limit granted => before + size < usizeRange ∧
      (granted = true → ∀ l, limit = some l → before + size ≤ l)
  | .discounted before size => size ≤ before

/-- The accesses to the counter that a computation makes until it returns or stops, in their
order. -/
def accessesOf {α : Type} (x : M P α) (w : World P) : List CounterEvent :=
  let after := (x.after w).os.accesses
  (after.take (after.length - w.os.accesses.length)).reverse

/-- All arithmetic on the path of a request is in range. -/
structure RequestInRange (depth size : Nat) (w : World P) : Prop where
  common : SizeClass.define size = .common → CommonInRange size
  large : SizeClass.define size = .large → LargeInRange size
  counter : ∀ e ∈ accessesOf (tryAlloc (threadLocalAllocator depth) size) w, e.InRange

/-- The sum of the counter and of all that has been asked for and granted, less what has been
given back, stays in the range of a `usize`, also with what is asked for next.  Where other
threads move the counter the sum goes on from there. -/
def Fits : Nat → List CounterEvent → Prop
  | _, [] => True
  | _, .moved after :: es => Fits after es
  | sum, .asked _ size _ granted :: es =>
      sum + size < usizeRange ∧ Fits (if granted then sum + size else sum) es
  | sum, .discounted _ size :: es => size ≤ sum ∧ Fits (sum - size) es

instance decidableFits : ∀ sum es, Decidable (Fits sum es)
  | _, [] => .isTrue trivial
  | _, .moved after :: es => decidableFits after es
  | sum, .asked _ size _ granted :: es =>
      have := decidableFits (if granted then sum + size else sum) es
      inferInstanceAs (Decidable (_ ∧ _))
  | sum, .discounted _ size :: es =>
      have := decidableFits (sum - size) es
      inferInstanceAs (Decidable (_ ∧ _))

/-! ## The two classes with tables -/

theorem commonInRange {size : Nat} (hpos : 1 ≤ size) (hhigh : size ≤ commonSizeMax) :
    CommonInRange size := by
  have hindex := commonSizeToIndex_eq hpos hhigh
  obtain ⟨s, -, hreal, hchunk⟩ := slotForSize_common hpos hhigh
  have hmany : 5 ≤ commonChunkSize / recommendedSize size := by
    have hslots := s.five_le_slotsPerChunk
    rwa [Slot.slotsPerChunk, hchunk, hreal] at hslots
  simp only [commonSizeMax] at hhigh
  refine ⟨by omega, hpos, ?_, hreal ▸ s.realSize_pos.ne', (Nat.le_add_left 1 4).trans hmany⟩
  rw [hindex, commonSizeTableLen]
  omega

theorem largeInRange {size : Nat} (hlow : commonSizeMax < size) (hhigh : size ≤ largeSizeMax) :
    LargeInRange size := by
  obtain ⟨hid, hid', -⟩ := findLargeSlotId_spec hlow hhigh
  obtain ⟨hidx, -⟩ := realLargeSizes_lookupTable hid hid'
  obtain ⟨s, -, hreal, hchunk⟩ := slotForSize_large hlow hhigh
  have hmany : 5 ≤ largeChunkSize / recommendedSize size := by
    have hslots := s.five_le_slotsPerChunk
    rwa [Slot.slotsPerChunk, hchunk, hreal] at hslots
  have hpos : 1 ≤ size := Nat.one_le_of_lt hlow
  have hexponent : size - 1 ≠ 0 ∧ 4 ≤ Nat.log2 (size - 1) := by
    simp only [commonSizeMax, largeSizeMax] at hlow hhigh
    obtain ⟨hb, -⟩ := log2_of_large (n := size - 1) (by omega) (by omega)
    omega
  refine ⟨hpos, hexponent, ?_, ?_, fun hpow => (largeSizeShortcut_eq hlow hhigh hpow).1,
    hreal ▸ s.realSize_pos.ne', (Nat.le_add_left 1 4).trans hmany⟩
  · rw [largeSizeToIdAndRealSize_eq hlow hhigh]
    exact Nat.lt_succ_of_le hid'
  · rw [largeSizeToIdAndRealSize_eq hlow hhigh]
    exact hidx

/-- Zero names no vector. -/
theorem not_commonInRange_zero : ¬ CommonInRange 0 := fun h => absurd h.decrement (by decide)

/-! ## The counter -/

/-- The accesses of a call are those by which the counter has come to its new value. -/
theorem run_accessesOf (depth size : Nat) (w : World P) :
    ∃ a, Run Os.CounterStep w.os.allocated
      (accessesOf (tryAlloc (threadLocalAllocator depth) size) w) a := by
  obtain ⟨events, haccesses, hrun⟩ := follows_tryAlloc (keepsRecord_threadLocalAllocator depth) size w
  have hevents : accessesOf (tryAlloc (threadLocalAllocator depth) size) w = events := by
    unfold accessesOf
    dsimp only
    rw [haccesses, List.length_append, Nat.add_sub_cancel, List.take_left' rfl,
      List.reverse_reverse]
  exact ⟨_, hevents ▸ hrun⟩

/-- Nothing wraps in a run of accesses exactly if the sums stay in range: until something
wraps, the counter is the sum. -/
theorem inRange_iff_fits {a b : Nat} {es : List CounterEvent} (hrun : Run Os.CounterStep a es b)
    (ha : a < usizeRange) : (∀ e ∈ es, e.InRange) ↔ Fits a es := by
  induction es generalizing a with
  | nil => simp [Fits]
  | cons e es ih =>
      rw [List.forall_mem_cons]
      cases hrun with
      | cons hstep hrest =>
          cases hstep with
          | moved after hafter => exact (and_iff_right trivial).trans (ih hrest hafter)
          | granted size limit hlimit =>
              by_cases hwrap : a + size < usizeRange
              · rw [Nat.mod_eq_of_lt hwrap] at hlimit hrest
                exact and_congr ⟨fun h => h.1, fun _ => ⟨hwrap, fun _ => hlimit⟩⟩ (ih hrest hwrap)
              · exact ⟨fun h => absurd h.1.1 hwrap, fun h => absurd h.1 hwrap⟩
          | refused size limit hlimit =>
              refine and_congr ⟨fun h => h.1, fun hwrap => ⟨hwrap, fun h => ?_⟩⟩ (ih hrest ha)
              cases h
          | discounted size =>
              by_cases hwrap : size ≤ a
              · have hsub : (a + (usizeRange - size)) % usizeRange = a - size := by
                  rw [← Nat.add_sub_assoc (hwrap.trans ha.le), Nat.sub_add_comm hwrap,
                    Nat.add_mod_right, Nat.mod_eq_of_lt (by omega)]
                rw [hsub] at hrest
                exact and_congr Iff.rfl (ih hrest (by omega))
              · exact ⟨fun h => absurd h.1 hwrap, fun h => absurd h.1 hwrap⟩

/-! ## The whole path -/

/-- An allocator of which nothing has been asked yet, with this limit and this counter. -/
def untouched (limit allocated : Nat) (replies : List Reply) : World lockFreeParams :=
  .new { Os.initial replies with limit := limit, allocated := allocated }

end Memalart
