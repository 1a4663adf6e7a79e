/-
# Sums for accounting

Two facts that accounts of resources rest on: what a sum over a family of accounts does
when one account changes, and that disjoint intervals inside an address space are not
longer together than the space.
-/

import Mathlib.Algebra.BigOperators.Ring.Finset
import Mathlib.Order.Interval.Finset.Nat

namespace Memalart.Lib

/-- Families that agree apart from one place have sums that differ by that place. -/
theorem sum_exchange {ι M : Type*} [Fintype ι] [DecidableEq ι] [AddCommMonoid M] {f g : ι → M}
    (i : ι) (h : ∀ j, j ≠ i → f j = g j) : ∑ j, f j + g i = ∑ j, g j + f i := by
  have hrest : ∑ j ∈ Finset.univ.erase i, f j = ∑ j ∈ Finset.univ.erase i, g j :=
    Finset.sum_congr rfl fun j hj => h j (Finset.ne_of_mem_erase hj)
  rw [← Finset.add_sum_erase _ f (Finset.mem_univ i), ← Finset.add_sum_erase _ g (Finset.mem_univ i),
    hrest, add_right_comm, add_right_comm (g i), add_comm (f i)]

/-! ## Disjoint intervals -/

/-- Two intervals, each given by its start and its length, have no point in common. -/
def Apart (m n : Nat × Nat) : Prop := m.1 + m.2 ≤ n.1 ∨ n.1 + n.2 ≤ m.1

/-- The points of a list of intervals. -/
def points (ms : List (Nat × Nat)) : Finset Nat :=
  ms.foldr (fun m rest => Finset.Ico m.1 (m.1 + m.2) ∪ rest) ∅

theorem mem_points {ms : List (Nat × Nat)} {a : Nat} :
    a ∈ points ms ↔ ∃ m ∈ ms, m.1 ≤ a ∧ a < m.1 + m.2 := by
  induction ms with
  | nil => simp [points]
  | cons m ms ih =>
      have hcons : points (m :: ms) = Finset.Ico m.1 (m.1 + m.2) ∪ points ms := rfl
      rw [hcons, Finset.mem_union, ih, Finset.mem_Ico]
      simp

/-- Disjoint intervals have as many points as they are long. -/
theorem card_points {ms : List (Nat × Nat)} (h : ms.Pairwise Apart) :
    (points ms).card = (ms.map Prod.snd).sum := by
  induction ms with
  | nil => rfl
  | cons m ms ih =>
      obtain ⟨hm, hms⟩ := List.pairwise_cons.mp h
      have hdisjoint : Disjoint (Finset.Ico m.1 (m.1 + m.2)) (points ms) := by
        rw [Finset.disjoint_left]
        intro a ha ha'
        obtain ⟨n, hn, hbounds⟩ := mem_points.mp ha'
        have hapart := hm n hn
        have hin := Finset.mem_Ico.mp ha
        unfold Apart at hapart
        omega
      have hcons : points (m :: ms) = Finset.Ico m.1 (m.1 + m.2) ∪ points ms := rfl
      rw [hcons, Finset.card_union_of_disjoint hdisjoint, ih hms, Nat.card_Ico]
      simp

/-- Disjoint intervals between two bounds fit between them. -/
theorem sum_length_le {ms : List (Nat × Nat)} {low high : Nat} (h : ms.Pairwise Apart)
    (hlow : ∀ m ∈ ms, low ≤ m.1) (hhigh : ∀ m ∈ ms, m.1 + m.2 ≤ high) :
    (ms.map Prod.snd).sum ≤ high - low := by
  rw [← card_points h, ← Nat.card_Ico]
  refine Finset.card_le_card fun a ha => ?_
  obtain ⟨m, hm, hbounds⟩ := mem_points.mp ha
  have hlow' := hlow m hm
  have hhigh' := hhigh m hm
  exact Finset.mem_Ico.mpr ⟨by omega, by omega⟩

end Memalart.Lib
