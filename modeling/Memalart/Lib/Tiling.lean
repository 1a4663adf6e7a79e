/-
# Tilings of a range of addresses

Blocks that are laid end to end from one address to another.  The module says how tilings are
put together, that a tile may be replaced by tiles of it, what a cursor that moves by a fixed
stride cuts, and that each address of the range lies in exactly one block.
-/

import Mathlib.Data.List.Pairwise
import Mathlib.Data.List.Range
import Mathlib.Order.Basic

namespace Memalart.Lib

/-- A block: its address and its size. -/
abbrev Block := Nat × Nat

/-- The address lies in the block. -/
def Block.Holds (b : Block) (a : Nat) : Prop := b.1 ≤ a ∧ a < b.1 + b.2

/-- The blocks, none of them empty, lie end to end from `low` to `high`. -/
inductive Tiles : Nat → Nat → List Block → Prop
  | done (low : Nat) : Tiles low low []
  | block {low size high : Nat} {rest : List Block} :
      0 < size → Tiles (low + size) high rest → Tiles low high ((low, size) :: rest)

/-- Cut `n` blocks off, moving the cursor by the stride after each. -/
def carve (stride : Nat) : Nat → Nat → List Nat × Nat
  | 0, curr => ([], curr)
  | n + 1, curr =>
      let (rest, last) := carve stride n (curr + stride)
      (curr :: rest, last)

/-- Where the cursor has been. -/
theorem carve_eq (stride n curr : Nat) :
    (carve stride n curr).1 = (List.range n).map fun i => curr + i * stride := by
  induction n generalizing curr with
  | zero => rfl
  | succ n ih =>
      have hshift : (fun i => curr + stride + i * stride) =
          (fun i => curr + i * stride) ∘ Nat.succ := by
        funext i
        simp only [Function.comp_apply, Nat.succ_mul]
        omega
      simp only [carve, ih, List.range_succ_eq_map, List.map_cons, List.map_map, hshift,
        Nat.zero_mul, Nat.add_zero]

namespace Tiles

variable {low mid high a : Nat} {blocks blocks' : List Block}

theorem le (h : Tiles low high blocks) : low ≤ high := by
  induction h with
  | done low => exact Nat.le_refl low
  | block hpos _ ih => omega

theorem append (h : Tiles low mid blocks) (h' : Tiles mid high blocks') :
    Tiles low high (blocks ++ blocks') := by
  induction h with
  | done => exact h'
  | block hpos _ ih => exact .block hpos (ih h')

/-- A tile may be replaced by tiles of it. -/
theorem refine (h : Tiles low high blocks) {cut : Block → List Block}
    (hcut : ∀ b ∈ blocks, Tiles b.1 (b.1 + b.2) (cut b)) :
    Tiles low high (blocks.flatMap cut) := by
  induction h with
  | done => exact .done _
  | block hpos _ ih =>
      obtain ⟨hfirst, hrest⟩ := List.forall_mem_cons.mp hcut
      exact hfirst.append (ih hrest)

/-- The cursor cuts a tiling by blocks of its stride. -/
theorem carve {stride : Nat} (hpos : 0 < stride) (n : Nat) (curr : Nat) :
    Tiles curr (curr + n * stride) ((Lib.carve stride n curr).1.map fun p => (p, stride)) ∧
      (Lib.carve stride n curr).2 = curr + n * stride := by
  induction n generalizing curr with
  | zero => simpa [Lib.carve] using Tiles.done curr
  | succ n ih =>
      obtain ⟨htiles, hlast⟩ := ih (curr + stride)
      have hend : curr + stride + n * stride = curr + (n + 1) * stride := by
        rw [Nat.succ_mul]
        omega
      rw [hend] at htiles hlast
      exact ⟨.block hpos htiles, hlast⟩

/-- The blocks lie in the range. -/
theorem bounds (h : Tiles low high blocks) {b : Block} (hb : b ∈ blocks) :
    low ≤ b.1 ∧ b.1 + b.2 ≤ high := by
  induction h with
  | done => cases hb
  | block hpos hrest ih =>
      rcases List.mem_cons.mp hb with rfl | hb
      · exact ⟨Nat.le_refl _, hrest.le⟩
      · have hbounds := ih hb
        omega

/-- Each address of the range lies in a block, and no other does. -/
theorem exists_holds_iff (h : Tiles low high blocks) :
    (∃ b ∈ blocks, b.Holds a) ↔ low ≤ a ∧ a < high := by
  induction h with
  | done low =>
      refine iff_of_false (fun h => ?_) (fun h => absurd h.2 (Nat.not_lt.mpr h.1))
      obtain ⟨b, hb, -⟩ := h
      cases hb
  | @block low size high rest hpos hrest ih =>
      have hle := hrest.le
      simp only [List.mem_cons, exists_eq_or_imp]
      rw [ih]
      simp only [Block.Holds]
      omega

/-- Two blocks do not overlap. -/
theorem pairwise (h : Tiles low high blocks) :
    blocks.Pairwise fun b b' => b.1 + b.2 ≤ b'.1 := by
  induction h with
  | done => exact .nil
  | block hpos hrest ih => exact .cons (fun b hb => (hrest.bounds hb).1) ih

end Tiles

end Memalart.Lib
