/-
# How many extents hold an address

Extents that are cut into smaller ones, handed on and forgotten can be accounted for address
by address: the load of an address is the number of extents that hold it.  Where no address
has a load over one, the extents are apart.
-/

import Mathlib.Data.List.Basic
import Memalart.Lib.Heap

namespace Memalart.Lib

/-- The address lies in the extent. -/
def Extent.Holds (e : Extent) (a : Nat) : Prop := e.start ≤ a ∧ a < e.start + e.length

instance (e : Extent) (a : Nat) : Decidable (e.Holds a) := inferInstanceAs (Decidable (_ ∧ _))

/-- How many of the extents hold the address. -/
def load (es : List Extent) (a : Nat) : Nat := es.countP fun e => e.Holds a

section Load

variable {e : Extent} {es es' : List Extent} {a start size : Nat}

@[simp] theorem load_nil : load [] a = 0 := rfl

@[simp] theorem load_cons : load (e :: es) a = (if e.Holds a then 1 else 0) + load es a := by
  simp only [load, List.countP_cons, decide_eq_true_eq]
  exact Nat.add_comm _ _

@[simp] theorem load_append : load (es ++ es') a = load es a + load es' a :=
  List.countP_append

theorem load_head : load (e :: es) a = load [e] a + load es a := @load_append [e] es a

theorem load_singleton :
    load [⟨start, size⟩] a = if start ≤ a ∧ a < start + size then 1 else 0 := load_cons

theorem load_perm (h : es.Perm es') : load es a = load es' a := h.countP_eq _

theorem load_pos_iff : 0 < load es a ↔ ∃ e ∈ es, e.Holds a := by
  simp only [load, List.countP_pos_iff, decide_eq_true_eq]

/-- An extent is the two parts that it is cut into. -/
theorem load_cut (start a n m : Nat) :
    load [⟨start, n + m⟩] a = load [⟨start, n⟩] a + load [⟨start + n, m⟩] a := by
  simp only [load_singleton]
  split_ifs <;> omega

/-- The end of an extent may be forgotten. -/
theorem load_shorten (start a : Nat) {n m : Nat} (h : n ≤ m) :
    load [⟨start, n⟩] a ≤ load [⟨start, m⟩] a := by
  simp only [load_singleton]
  split_ifs <;> omega

/-- Pieces of one size, laid end to end. -/
theorem load_pieces (start size a n : Nat) :
    load ((List.range n).map fun i => ⟨start + i * size, size⟩) a =
      load [⟨start, n * size⟩] a := by
  induction n with
  | zero =>
      rw [Nat.zero_mul, load_singleton, if_neg (by omega)]
      rfl
  | succ n ih =>
      rw [List.range_succ, List.map_append, load_append, ih, Nat.succ_mul, load_cut]
      rfl

/-- Extents that no address lies in twice are apart, but for the empty ones. -/
theorem pairwise_apart_of_load (h : ∀ a, load es a ≤ 1) :
    (es.filter fun e => 0 < e.length).Pairwise Extent.Apart := by
  induction es with
  | nil => exact .nil
  | cons e es ih =>
      have hrest : ∀ a, load es a ≤ 1 := fun a => by
        have hload := h a
        rw [load_cons] at hload
        omega
      by_cases hpos : 0 < e.length
      · rw [List.filter_cons_of_pos (by simpa using hpos)]
        refine .cons (fun e' he' => ?_) (ih hrest)
        obtain ⟨hmem, hpos'⟩ := List.mem_filter.mp he'
        refine Extent.apart_of_forall hpos (by simpa using hpos') fun a hle hlt hle' hlt' => ?_
        have hload := h a
        have hother : 0 < load es a := load_pos_iff.mpr ⟨e', hmem, hle', hlt'⟩
        rw [load_cons, if_pos ⟨hle, hlt⟩] at hload
        omega
      · rw [List.filter_cons_of_neg (by simpa using hpos)]
        exact ih hrest

end Load

end Memalart.Lib
