/-
# Runs of a labelled step relation

A transition system is a relation between a state, a label and the next state.
A run is a finite sequence of steps; what every step preserves, every run
preserves.
-/

namespace Memalart.Lib

universe u v w

variable {σ : Type u} {α : Type v}

/-- `Run step s labels t` says that the labelled steps lead from `s` to `t`. -/
inductive Run (step : σ → α → σ → Prop) : σ → List α → σ → Prop
  | nil (s : σ) : Run step s [] s
  | cons {s m t : σ} {a : α} {labels : List α} :
      step s a m → Run step m labels t → Run step s (a :: labels) t

namespace Run

variable {step : σ → α → σ → Prop} {s m t : σ} {labels first second : List α}

/-- An invariant of the steps is an invariant of the runs. -/
theorem invariant {I : σ → Prop} (hstep : ∀ s a t, I s → step s a t → I t)
    (hrun : Run step s first t) (hs : I s) : I t := by
  induction hrun with
  | nil s => exact hs
  | cons h _ ih => exact ih (hstep _ _ _ hs h)

/-- It is enough that the steps of this run preserve it. -/
theorem invariant_of_mem {I : σ → Prop} (hrun : Run step s first t)
    (hstep : ∀ s a t, a ∈ first → I s → step s a t → I t) (hs : I s) : I t := by
  induction hrun with
  | nil s => exact hs
  | cons h _ ih =>
      refine ih (fun s a t ha => hstep s a t (List.mem_cons_of_mem _ ha)) ?_
      exact hstep _ _ _ List.mem_cons_self hs h

/-- A run of steps that are all steps of another relation is a run of that relation. -/
theorem mono {step' : σ → α → σ → Prop} (hstep : ∀ s a t, step s a t → step' s a t)
    (hrun : Run step s first t) : Run step' s first t := by
  induction hrun with
  | nil s => exact .nil s
  | cons h _ ih => exact .cons (hstep _ _ _ h) ih

theorem append (hfirst : Run step s first m) (hsecond : Run step m second t) :
    Run step s (first ++ second) t := by
  induction hfirst with
  | nil s => exact hsecond
  | cons h _ ih => exact .cons h (ih hsecond)

/-- Forward simulation: steps that can be followed one by one are followed along a run. -/
theorem simulate {τ : Type w} {step' : τ → α → τ → Prop} {R : σ → τ → Prop}
    (hstep : ∀ s a t u, R s u → step s a t → ∃ v, step' u a v ∧ R t v)
    (hrun : Run step s labels t) {u : τ} (hu : R s u) : ∃ v, Run step' u labels v ∧ R t v := by
  induction hrun generalizing u with
  | nil s => exact ⟨u, .nil u, hu⟩
  | cons h _ ih =>
      obtain ⟨v, hv, hmid⟩ := hstep _ _ _ _ hu h
      obtain ⟨x, hrest, hx⟩ := ih hmid
      exact ⟨x, .cons hv hrest, hx⟩

/-- A run that is computed step by step. -/
theorem of_foldlM {next : σ → α → Option σ} (hnext : ∀ s a t, next s a = some t → step s a t)
    (h : labels.foldlM next s = some t) : Run step s labels t := by
  induction labels generalizing s with
  | nil =>
      cases h
      exact .nil _
  | cons a rest ih =>
      rw [List.foldlM_cons] at h
      obtain ⟨m, hfirst, hrest⟩ := Option.bind_eq_some_iff.1 h
      exact .cons (hnext _ _ _ hfirst) (ih hrest)

end Run

end Memalart.Lib
