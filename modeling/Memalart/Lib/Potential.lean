/-
# Potentials

What the steps of a system cost is charged to the steps that bring work into it.  A state
owes what has been brought and not been paid for yet; where every step pays for itself out
of what is owed and charged, so does every run.

An optimistic update is such a system: an actor reads a cell and writes it later, if it still
has the value that was read.  What makes it retry is a change that another one has made.
-/

import Mathlib.Data.Fintype.Card
import Memalart.Lib.Run

namespace Memalart.Lib

universe u v w

variable {σ : Type u} {α : Type v}

/-- What the steps of a run add up to, in a system whose next state is a function. -/
def total (next : σ → α → σ) (cost : σ → α → Nat) : σ → List α → Nat
  | _, [] => 0
  | s, a :: labels => cost s a + total next cost (next s a) labels

section Total

variable {next : σ → α → σ} {cost cost' : σ → α → Nat}

theorem total_mono (h : ∀ s a, cost s a ≤ cost' s a) (s : σ) (labels : List α) :
    total next cost s labels ≤ total next cost' s labels := by
  induction labels generalizing s with
  | nil => exact Nat.le_refl _
  | cons a labels ih => exact Nat.add_le_add (h s a) (ih _)

theorem total_zero (s : σ) (labels : List α) : total next (fun _ _ => 0) s labels = 0 := by
  induction labels generalizing s with
  | nil => rfl
  | cons a labels ih => rw [total, ih]

theorem total_add (s : σ) (labels : List α) :
    total next (fun s a => cost s a + cost' s a) s labels =
      total next cost s labels + total next cost' s labels := by
  induction labels generalizing s with
  | nil => rfl
  | cons a labels ih =>
      simp only [total, ih]
      exact Nat.add_add_add_comm _ _ _ _

theorem total_mul (n : Nat) (s : σ) (labels : List α) :
    total next (fun s a => n * cost s a) s labels = n * total next cost s labels := by
  induction labels generalizing s with
  | nil => rfl
  | cons a labels ih =>
      simp only [total, ih]
      exact (Nat.mul_add _ _ _).symm

end Total

namespace Run

variable {step : σ → α → σ → Prop} {next : σ → α → σ} {I : σ → Prop} {s t : σ} {labels : List α}

/-- The steps of a run cost no more than what was owed and what they were charged. -/
theorem total_le (cost charge : σ → α → Nat) (owed : σ → Nat)
    (hnext : ∀ s a t, step s a t → t = next s a)
    (hinv : ∀ s a t, I s → step s a t → I t)
    (hpays : ∀ s a, I s → step s a (next s a) → cost s a + owed (next s a) ≤ owed s + charge s a)
    (hrun : Run step s labels t) (hs : I s) :
    total next cost s labels + owed t ≤ owed s + total next charge s labels := by
  induction hrun with
  | nil s => exact Nat.le_of_eq (Nat.zero_add _)
  | @cons s m t a labels hstep hrest ih =>
      obtain rfl := hnext s a m hstep
      have hpay := hpays s a hs hstep
      have htail := ih (hinv _ _ _ hs hstep)
      simp only [total]
      omega

/-- A run in which every step costs something is no longer than its cost. -/
theorem length_le (cost : σ → α → Nat) (hnext : ∀ s a t, step s a t → t = next s a)
    (hcost : ∀ s a t, step s a t → 1 ≤ cost s a) (hrun : Run step s labels t) :
    labels.length ≤ total next cost s labels := by
  induction hrun with
  | nil s => exact Nat.le_refl _
  | @cons s m t a labels hstep hrest ih =>
      have hone := hcost _ _ _ hstep
      obtain rfl := hnext s a m hstep
      rw [List.length_cons, total]
      omega

end Run

/-! ## Optimistic updates -/

/-- A stale actor is one whose next update fails.  Only a change makes an actor stale, and a
retry is made by a stale actor, which then is so no more. -/
structure Optimistic {ι : Type w} (step : σ → α → σ → Prop) (next : σ → α → σ) (I : σ → Prop)
    (isStale : σ → ι → Bool) (retries changes : σ → α → Nat) : Prop where
  kept : ∀ s a, I s → step s a (next s a) → changes s a = 0 →
    ∀ i, isStale (next s a) i → isStale s i
  retry : ∀ s a, I s → step s a (next s a) → retries s a ≠ 0 →
    changes s a = 0 ∧ retries s a = 1 ∧ ∃ i, isStale s i ∧ isStale (next s a) i = false

namespace Optimistic

variable {ι : Type w} [Fintype ι] {step : σ → α → σ → Prop} {next : σ → α → σ} {I : σ → Prop}
  {isStale : σ → ι → Bool} {retries changes : σ → α → Nat} {s t : σ} {labels : List α}

/-- The actors whose next update fails. -/
def stale (isStale : σ → ι → Bool) (s : σ) : Finset ι := Finset.univ.filter fun i => isStale s i

theorem pays (h : Optimistic step next I isStale retries changes) {a : α} (hs : I s)
    (hstep : step s a (next s a)) :
    retries s a + (stale isStale (next s a)).card ≤
      (stale isStale s).card + Fintype.card ι * changes s a := by
  have hsub (hzero : changes s a = 0) : stale isStale (next s a) ⊆ stale isStale s := by
    intro i hi
    rw [stale, Finset.mem_filter] at hi ⊢
    exact ⟨hi.1, h.kept s a hs hstep hzero i hi.2⟩
  by_cases hretry : retries s a = 0
  · by_cases hzero : changes s a = 0
    · have hle := Finset.card_le_card (hsub hzero)
      omega
    · have hle : (stale isStale (next s a)).card ≤ Fintype.card ι := Finset.card_le_univ _
      have hmul : Fintype.card ι ≤ Fintype.card ι * changes s a :=
        Nat.le_mul_of_pos_right _ (Nat.pos_of_ne_zero hzero)
      omega
  · obtain ⟨hzero, hone, i, hi, hi'⟩ := h.retry s a hs hstep hretry
    have hlt : (stale isStale (next s a)).card < (stale isStale s).card := by
      refine Finset.card_lt_card ((Finset.ssubset_iff_of_subset (hsub hzero)).2 ⟨i, ?_, ?_⟩)
      · exact Finset.mem_filter.2 ⟨Finset.mem_univ i, hi⟩
      · simp [stale, hi']
    omega

/-- Each change makes each actor retry once at most. -/
theorem retries_le (h : Optimistic step next I isStale retries changes)
    (hnext : ∀ s a t, step s a t → t = next s a) (hinv : ∀ s a t, I s → step s a t → I t)
    (hrun : Run step s labels t) (hs : I s) :
    total next retries s labels ≤
      (stale isStale s).card + Fintype.card ι * total next changes s labels := by
  have hle := hrun.total_le retries (fun s a => Fintype.card ι * changes s a)
    (fun s => (stale isStale s).card) hnext hinv (fun _ _ hs hstep => h.pays hs hstep) hs
  rw [total_mul] at hle
  omega

end Optimistic

end Memalart.Lib
