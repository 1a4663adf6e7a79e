/-
# Masks of aligned addresses

`a & !(align - 1)` clears the bits of an address below a power of two, and an address is
rounded up by adding `align - 1` first.  Both are stated over naturals with the width of the
machine word as a parameter, and the module says which multiple each of them gives.
-/

import Mathlib.Data.Nat.Bitwise

namespace Memalart.Lib

variable {width k a : Nat}

/-- `!x` on a word of this width. -/
def complement (width x : Nat) : Nat := 2 ^ width - 1 - x

/-- `a & !(align - 1)`. -/
def maskDown (width align a : Nat) : Nat := a &&& complement width (align - 1)

/-- `(a + (align - 1)) & !(align - 1)`, where the sum wraps. -/
def maskUp (width align a : Nat) : Nat := maskDown width align ((a + (align - 1)) % 2 ^ width)

theorem testBit_complement (hk : k ≤ width) (i : Nat) :
    (complement width (2 ^ k - 1)).testBit i = (decide (i < width) && decide (k ≤ i)) := by
  have hle : 2 ^ k ≤ 2 ^ width := Nat.pow_le_pow_right (by decide) hk
  have hpos : 0 < 2 ^ k := Nat.two_pow_pos k
  have hsub : complement width (2 ^ k - 1) = 2 ^ width - (2 ^ k - 1 + 1) := by
    unfold complement
    omega
  rw [hsub, Nat.testBit_two_pow_sub_succ (by omega), Nat.testBit_two_pow_sub_one]
  by_cases hi : i < k
  · simp [hi, Nat.not_le.mpr hi]
  · simp [hi, Nat.not_lt.mp hi]

/-- The mask leaves the multiple of the alignment at or below the address. -/
theorem maskDown_two_pow (hk : k ≤ width) (ha : a < 2 ^ width) :
    maskDown width (2 ^ k) a = a / 2 ^ k * 2 ^ k := by
  apply Nat.eq_of_testBit_eq
  intro i
  rw [maskDown, Nat.testBit_and, testBit_complement hk, Nat.testBit_mul_two_pow,
    Nat.testBit_div_two_pow]
  by_cases hik : k ≤ i
  · rw [Nat.sub_add_cancel hik]
    by_cases hiw : i < width
    · simp [hik, hiw]
    · have hbit : a.testBit i = false :=
        Nat.testBit_lt_two_pow (ha.trans_le (Nat.pow_le_pow_right (by decide) (Nat.not_lt.mp hiw)))
      simp [hbit]
  · simp [hik]

/-- Rounding up gives the least multiple of the alignment that is not below the address,
where there is room for it. -/
theorem maskUp_two_pow (hk : k ≤ width) (hroom : a + 2 ^ k ≤ 2 ^ width) :
    maskUp width (2 ^ k) a % 2 ^ k = 0 ∧ a ≤ maskUp width (2 ^ k) a ∧
      maskUp width (2 ^ k) a < a + 2 ^ k := by
  have hpos : 0 < 2 ^ k := Nat.two_pow_pos k
  have hlt : a + (2 ^ k - 1) < 2 ^ width := by omega
  rw [maskUp, Nat.mod_eq_of_lt hlt, maskDown_two_pow hk hlt]
  have hsplit := Nat.div_add_mod' (a + (2 ^ k - 1)) (2 ^ k)
  have hmod := Nat.mod_lt (a + (2 ^ k - 1)) hpos
  exact ⟨Nat.mul_mod_left _ _, by omega, by omega⟩

end Memalart.Lib
