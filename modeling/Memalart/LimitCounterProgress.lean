/-
# Calls at the limit come to an end

A call of `may_allocate` takes five steps, and two more whenever its compare-exchange fails.
It fails only if the counter has been changed since the call has read it, by a grant, by
`allocate_any_way` or by `mark_deallocated`, or for no reason.
-/

import Memalart.LimitCounter
import Memalart.Lib.Potential
import Memalart.Lib.Sums

set_option linter.unusedSectionVars false

namespace Memalart.LimitCounter

open Memalart.Lib

universe u

variable {Thread : Type u}

namespace Phase

/-- The value of the counter that has been read. -/
def known : Phase → Option Nat
  | .testing _ _ allocated | .exchanging _ _ allocated _ => some allocated
  | _ => none

/-- The steps that a call still takes if nothing comes between. -/
def owed : Phase → Nat
  | .idle => 0
  | .begun _ => 5
  | .limitRead _ _ => 4
  | .testing _ _ _ => 3
  | .exchanging _ _ _ _ => 2
  | .granted _ | .refused _ => 1

end Phase

namespace Process

/-- The thread has read a value that the counter has no more. -/
def isStale (p : Process Thread) (t : Thread) : Bool :=
  (p.phase t).known.any fun allocated => decide (p.allocated ≠ allocated)

/-- The calls of `may_allocate`. -/
def calls (_ : Process Thread) : Action Thread → Nat
  | .call _ _ => 1
  | _ => 0

/-- The steps of these calls. -/
def steps (_ : Process Thread) : Action Thread → Nat
  | .loadLimit _ | .loadAllocated _ | .test _ | .exchange _ _ | .answer _ => 1
  | _ => 0

/-- The compare-exchanges that fail for no reason. -/
def spurious (_ : Process Thread) : Action Thread → Nat
  | .exchange _ true => 1
  | _ => 0

/-- The others that fail. -/
def retries (p : Process Thread) : Action Thread → Nat
  | .exchange t false => if p.isStale t then 1 else 0
  | _ => 0

/-- The operations that write to the counter. -/
def changes (p : Process Thread) : Action Thread → Nat
  | .exchange t false => if p.isStale t then 0 else 1
  | .allocateAnyWay _ _ | .markDeallocated _ _ => 1
  | _ => 0

variable [DecidableEq Thread]

/-- The process after a step. -/
def after (p : Process Thread) (a : Action Thread) : Process Thread := (p.next a).getD p

/-- A step of an arbitrary interleaving, whatever the sums run up to. -/
def Takes (p : Process Thread) (a : Action Thread) (q : Process Thread) : Prop := p.next a = some q

variable {p q : Process Thread} {a : Action Thread} {t : Thread} {phase : Phase}

theorem Takes.eq_after (h : p.Takes a q) : q = p.after a := by
  rw [after, show p.next a = some q from h]
  rfl

/-! ## What a step does -/

/-- A step takes a thread to a place of its program.  Unless the counter is changed, what the
thread knows there is old, or the value that the counter has. -/
structure Goes (p : Process Thread) (a : Action Thread) (q : Process Thread) (t : Thread)
    (phase : Phase) : Prop where
  phase_eq : q.phase = Function.update p.phase t phase
  pays : p.steps a + phase.owed ≤
    (p.phase t).owed + (5 * p.calls a + 2 * (p.retries a + p.spurious a))
  quiet : p.changes a = 0 → q.allocated = p.allocated ∧
    (phase.known = none ∨ phase.known = some p.allocated ∨ phase.known = (p.phase t).known)
  retry : p.retries a ≠ 0 → p.changes a = 0 ∧ p.retries a = 1 ∧ p.isStale t ∧
    phase.known = some p.allocated

theorem Takes.goes (h : p.Takes a q) : ∃ t phase, p.Goes a q t phase := by
  have hnext : p.next a = some q := h
  cases a with
  | call t size =>
      cases hphase : p.phase t <;> simp only [next, hphase, reduceCtorEq] at hnext
      cases hnext
      exact ⟨t, _, rfl, by rw [hphase]; exact le_rfl, fun _ => ⟨rfl, .inl rfl⟩, absurd rfl⟩
  | loadLimit t =>
      cases hphase : p.phase t <;> simp only [next, hphase, reduceCtorEq] at hnext
      cases hnext
      exact ⟨t, _, rfl, by rw [hphase]; exact le_rfl, fun _ => ⟨rfl, .inl rfl⟩, absurd rfl⟩
  | loadAllocated t =>
      cases hphase : p.phase t <;> simp only [next, hphase, reduceCtorEq] at hnext
      cases hnext
      exact ⟨t, _, rfl, by rw [hphase]; exact le_rfl, fun _ => ⟨rfl, .inr (.inl rfl)⟩, absurd rfl⟩
  | test t =>
      cases hphase : p.phase t <;> simp only [next, hphase, reduceCtorEq] at hnext
      split at hnext
      · cases hnext
        exact ⟨t, _, rfl, by rw [hphase]; exact Nat.le_succ _, fun _ => ⟨rfl, .inl rfl⟩, absurd rfl⟩
      · cases hnext
        exact ⟨t, _, rfl, by rw [hphase]; exact le_rfl,
          fun _ => ⟨rfl, .inr (.inr (by rw [hphase]; rfl))⟩, absurd rfl⟩
  | exchange t b =>
      cases hphase : p.phase t with
      | exchanging size limit allocated new =>
          have hstale : p.isStale t = decide (p.allocated ≠ allocated) := by
            rw [isStale, hphase]
            rfl
          simp only [next, hphase] at hnext
          split at hnext
          · next hfound =>
              obtain ⟨heq, rfl⟩ := hfound
              have hfresh : p.isStale t = false := by simp [hstale, heq]
              cases hnext
              refine ⟨t, _, rfl, ?_, ?_, ?_⟩
              · rw [hphase]
                exact Nat.le_add_right 2 _
              · simp [changes, hfresh]
              · simp [retries, hfresh]
          · next hfailed =>
              cases hnext
              cases b with
              | true =>
                  refine ⟨t, _, rfl, ?_, fun _ => ⟨rfl, .inr (.inl rfl)⟩, absurd rfl⟩
                  rw [hphase]
                  exact le_rfl
              | false =>
                  have hold : p.isStale t = true := by
                    rw [hstale]
                    exact decide_eq_true fun heq => hfailed ⟨heq, rfl⟩
                  refine ⟨t, _, rfl, ?_, fun _ => ⟨rfl, .inr (.inl rfl)⟩, fun _ => ?_⟩
                  · simp [steps, calls, retries, spurious, hold, hphase, Phase.owed]
                  · exact ⟨if_pos hold, if_pos hold, hold, rfl⟩
      | _ => simp only [next, hphase, reduceCtorEq] at hnext
  | answer t =>
      cases hphase : p.phase t <;> simp only [next, hphase, reduceCtorEq] at hnext
      · cases hnext
        exact ⟨t, _, rfl, by rw [hphase]; exact le_rfl, fun _ => ⟨rfl, .inl rfl⟩, absurd rfl⟩
      · cases hnext
        exact ⟨t, _, rfl, by rw [hphase]; exact le_rfl, fun _ => ⟨rfl, .inl rfl⟩, absurd rfl⟩
  | allocateAnyWay t size | markDeallocated t size =>
      cases hphase : p.phase t <;> simp only [next, hphase, reduceCtorEq] at hnext
      cases hnext
      refine ⟨t, p.phase t, (Function.update_eq_self t p.phase).symm, ?_, ?_, absurd rfl⟩
      · exact (Nat.zero_add _).le.trans (Nat.le_add_right _ _)
      · intro hzero
        cases hzero

/-! ## What is owed -/

section Owed

variable [Fintype Thread]

/-- The steps that all calls in progress still take. -/
def owed (p : Process Thread) : Nat := ∑ t, (p.phase t).owed

/-- A call is charged five steps, and two more for each compare-exchange that fails. -/
theorem pays (h : p.Takes a q) :
    p.steps a + q.owed ≤ p.owed + (5 * p.calls a + 2 * (p.retries a + p.spurious a)) := by
  obtain ⟨t, phase, hgoes⟩ := h.goes
  have hsum := sum_exchange (f := fun u => (q.phase u).owed) (g := fun u => (p.phase u).owed) t
    fun u hu => by rw [hgoes.phase_eq, Function.update_of_ne hu]
  have hphase : q.phase t = phase := by rw [hgoes.phase_eq, Function.update_self]
  rw [hphase] at hsum
  have hpays := hgoes.pays
  unfold owed
  omega

end Owed

/-! ## Retries -/

/-- A compare-exchange fails because of a change that was made to the counter meanwhile. -/
theorem optimistic : Optimistic (@Takes Thread _) after (fun _ => True) isStale retries
    changes where
  kept := by
    intro p a _ hstep hzero u hu
    obtain ⟨t, phase, hgoes⟩ := hstep.goes
    obtain ⟨hallocated, hknown⟩ := hgoes.quiet hzero
    rw [isStale, hallocated, hgoes.phase_eq] at hu
    by_cases hut : u = t
    · subst hut
      rw [Function.update_self] at hu
      rcases hknown with hnone | hsome | hold
      · rw [hnone] at hu
        cases hu
      · rw [hsome] at hu
        exact absurd rfl (of_decide_eq_true hu)
      · rwa [hold] at hu
    · rwa [Function.update_of_ne hut] at hu
  retry := by
    intro p a _ hstep hretry
    obtain ⟨t, phase, hgoes⟩ := hstep.goes
    obtain ⟨hzero, hone, hstale, hknown⟩ := hgoes.retry hretry
    refine ⟨hzero, hone, t, hstale, ?_⟩
    rw [isStale, (hgoes.quiet hzero).1, hgoes.phase_eq, Function.update_self, hknown]
    exact decide_eq_false (not_not.2 rfl)

/-! ## Runs -/

variable [Fintype Thread]

theorem owed_initial (limit : Nat) : (initial limit : Process Thread).owed = 0 := by
  simp [owed, initial, Phase.owed]

theorem stale_initial (limit : Nat) :
    Optimistic.stale isStale (initial limit : Process Thread) = ∅ := by
  simp [Optimistic.stale, isStale, initial, Phase.known]

end Process

/-- In every interleaving, whatever the sums run up to, the calls of `may_allocate` take no
more steps than five for each call, two for each spurious failure, and two for each thread
and each change of the counter: while a call is kept waiting, others succeed. -/
theorem steps_le_of_run [DecidableEq Thread] [Fintype Thread] {limit : Nat}
    {actions : List (Action Thread)} {p : Process Thread}
    (hrun : Run Process.Takes (Process.initial limit) actions p) :
    total Process.after Process.steps (Process.initial limit) actions ≤
      5 * total Process.after Process.calls (Process.initial limit) actions +
        2 * total Process.after Process.spurious (Process.initial limit) actions +
        2 * (Fintype.card Thread *
          total Process.after Process.changes (Process.initial limit) actions) := by
  have hsteps := hrun.total_le Process.steps
    (fun p a => 5 * p.calls a + 2 * (p.retries a + p.spurious a)) Process.owed
    (I := fun _ => True) (fun _ _ _ hstep => hstep.eq_after) (fun _ _ _ _ _ => trivial)
    (fun _ _ _ hstep => Process.pays hstep) trivial
  have hretries := Process.optimistic.retries_le (fun _ _ _ hstep => hstep.eq_after)
    (fun _ _ _ _ _ => trivial) hrun trivial
  rw [Process.owed_initial, total_add, total_mul, total_mul, total_add] at hsteps
  rw [Process.stale_initial, Finset.card_empty] at hretries
  omega

/-- Two threads contend: the second one is kept waiting by the first. -/
theorem contended_steps :
    total Process.after Process.steps (Process.initial 10) contendedActions ≤ 24 := by
  have hrun : Run Process.Step (Process.initial 10) contendedActions contended :=
    Run.of_foldlM Process.step_of_guarded (Option.some_get contendedActions_isSome).symm
  exact (steps_le_of_run (hrun.mono fun _ _ _ hstep => hstep.1)).trans (by decide)

end Memalart.LimitCounter
