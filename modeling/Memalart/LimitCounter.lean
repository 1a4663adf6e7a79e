/-
# The limit's counter under interleaving

`may_allocate`, `allocate_any_way` and `mark_deallocated` as programs of atomic
operations on the one counter of the process, run by any number of threads.  The
compare-exchange of `may_allocate` may fail spuriously and is retried with the
value it read.
-/

import Memalart.Lib.Run
import Memalart.Os

namespace Memalart.LimitCounter

open Memalart.Lib

universe u

/-- Where a thread stands in `may_allocate`. -/
inductive Phase
  /-- Outside `may_allocate`. -/
  | idle
  | begun (size : Nat)
  | limitRead (size limit : Nat)
  /-- At the head of the loop, with a value of the counter that may be stale. -/
  | testing (size limit allocated : Nat)
  | exchanging (size limit allocated newAllocated : Nat)
  | granted (size : Nat)
  | refused (size : Nat)
deriving DecidableEq, Repr

/-- The size that a call adds to the value it is about to read. -/
def Phase.addend : Phase → Option Nat
  | .limitRead size _ | .exchanging size _ _ _ => some size
  | _ => none

/-- What has happened to the counter and what the calls have answered.  A call is
named by its thread and its number; no step reads the log. -/
inductive Entry (Thread : Type u)
  | exchanged (thread : Thread) (call size : Nat) (new : Nat)
  | added (thread : Thread) (size : Nat)
  | subtracted (thread : Thread) (size : Nat)
  | answered (thread : Thread) (call size : Nat) (answer : Bool)
deriving DecidableEq, Repr

/-- The process: the two atomics and, for each thread, its place and the number of
calls it has completed. -/
structure Process (Thread : Type u) where
  limit : Nat
  allocated : Nat
  phase : Thread → Phase
  completed : Thread → Nat
  log : List (Entry Thread)

/-- One atomic operation, or a step that a thread makes on its own. -/
inductive Action (Thread : Type u)
  | call (thread : Thread) (size : Nat)
  | loadLimit (thread : Thread)
  | loadAllocated (thread : Thread)
  | test (thread : Thread)
  | exchange (thread : Thread) (spurious : Bool)
  | answer (thread : Thread)
  | allocateAnyWay (thread : Thread) (size : Nat)
  | markDeallocated (thread : Thread) (size : Nat)

variable {Thread : Type u}

namespace Entry

/-- The bytes that an entry grants. -/
def grants : Entry Thread → Nat
  | .exchanged _ _ size _ => size
  | .added _ size => size
  | _ => 0

/-- The bytes that an entry gives back. -/
def releases : Entry Thread → Nat
  | .subtracted _ size => size
  | _ => 0

end Entry

/-- The sizes that one call of `may_allocate` has added to the counter. -/
def additions [DecidableEq Thread] (thread : Thread) (call : Nat) :
    List (Entry Thread) → List Nat
  | [] => []
  | .exchanged t n size _ :: log =>
      if t = thread ∧ n = call then size :: additions thread call log
      else additions thread call log
  | .added _ _ :: log | .subtracted _ _ :: log | .answered _ _ _ _ :: log =>
      additions thread call log

/-! ## The programs -/

namespace Process

/-- Nothing is allocated and no thread has called. -/
def initial (limit : Nat) : Process Thread where
  limit := limit
  allocated := 0
  phase := fun _ => .idle
  completed := fun _ => 0
  log := []

/-- The sum of the granted sizes. -/
def grantedSum (p : Process Thread) : Nat := (p.log.map Entry.grants).sum

/-- The sum of the released sizes. -/
def releasedSum (p : Process Thread) : Nat := (p.log.map Entry.releases).sum

/-- The bytes that are out: granted and not released. -/
def outstanding (p : Process Thread) : Nat := p.grantedSum - p.releasedSum

variable [DecidableEq Thread]

/-- The thread moves on; the counter is not touched. -/
def setPhase (thread : Thread) (phase : Phase) (p : Process Thread) : Process Thread :=
  { p with phase := Function.update p.phase thread phase }

/-- One step, or `none` where the thread is not at this place of its program. -/
def next (p : Process Thread) : Action Thread → Option (Process Thread)
  | .call t size =>
      match p.phase t with
      | .idle => some (p.setPhase t (.begun size))
      | _ => none
  | .loadLimit t =>
      match p.phase t with
      | .begun size => some (p.setPhase t (.limitRead size p.limit))
      | _ => none
  | .loadAllocated t =>
      match p.phase t with
      | .limitRead size limit => some (p.setPhase t (.testing size limit p.allocated))
      | _ => none
  | .test t =>
      match p.phase t with
      | .testing size limit allocated =>
          let newAllocated := (allocated + size) % usizeRange
          if newAllocated > limit then some (p.setPhase t (.refused size))
          else some (p.setPhase t (.exchanging size limit allocated newAllocated))
      | _ => none
  | .exchange t spurious =>
      match p.phase t with
      | .exchanging size limit allocated newAllocated =>
          if p.allocated = allocated ∧ spurious = false then
            some { p.setPhase t (.granted size) with
              allocated := newAllocated
              log := .exchanged t (p.completed t) size newAllocated :: p.log }
          else some (p.setPhase t (.testing size limit p.allocated))
      | _ => none
  | .answer t =>
      match p.phase t with
      | .granted size =>
          some { p.setPhase t .idle with
            completed := Function.update p.completed t (p.completed t + 1)
            log := .answered t (p.completed t) size true :: p.log }
      | .refused size =>
          some { p.setPhase t .idle with
            completed := Function.update p.completed t (p.completed t + 1)
            log := .answered t (p.completed t) size false :: p.log }
      | _ => none
  | .allocateAnyWay t size =>
      match p.phase t with
      | .idle => some { p with
          allocated := (p.allocated + size) % usizeRange, log := .added t size :: p.log }
      | _ => none
  | .markDeallocated t size =>
      match p.phase t with
      | .idle => some { p with
          allocated := (p.allocated + (usizeRange - size)) % usizeRange
          log := .subtracted t size :: p.log }
      | _ => none

/-- The running sums stay below `2^64`, at each addition and at each value that
`may_allocate` adds its size to, and nothing is released that was not granted. -/
def InRange (p : Process Thread) : Action Thread → Prop
  | .loadAllocated t | .exchange t _ =>
      ∀ size ∈ (p.phase t).addend, p.outstanding + size < usizeRange
  | .allocateAnyWay _ size => p.outstanding + size < usizeRange
  | .markDeallocated _ size => size ≤ p.outstanding
  | _ => True

instance (p : Process Thread) : (a : Action Thread) → Decidable (p.InRange a)
  | .loadAllocated _ | .exchange _ _ => inferInstanceAs (Decidable (∀ _ ∈ _, _))
  | .allocateAnyWay _ size => inferInstanceAs (Decidable (p.outstanding + size < usizeRange))
  | .markDeallocated _ size => inferInstanceAs (Decidable (size ≤ p.outstanding))
  | .call _ _ | .loadLimit _ | .test _ | .answer _ => inferInstanceAs (Decidable True)

/-- A step of an arbitrary interleaving. -/
def Step (p : Process Thread) (a : Action Thread) (q : Process Thread) : Prop :=
  p.next a = some q ∧ p.InRange a

end Process

/-- The operations of one call of `may_allocate` that nothing interrupts. -/
def uninterrupted (thread : Thread) (granted : Bool) : List (Action Thread) :=
  if granted then [.loadLimit thread, .loadAllocated thread, .test thread,
    .exchange thread false, .answer thread]
  else [.loadLimit thread, .loadAllocated thread, .test thread, .answer thread]

/-- Run alone, the call is the step that the sequential model makes. -/
theorem foldlM_uninterrupted [DecidableEq Thread] (p : Process Thread) (os : Os) (t : Thread)
    (size : Nat) (hphase : p.phase t = .begun size) (hlimit : p.limit = os.limit)
    (hallocated : p.allocated = os.allocated) :
    ∃ q log, (uninterrupted t (os.mayAllocate size).1).foldlM Process.next p = some q ∧
      q.allocated = (os.mayAllocate size).2.allocated ∧ q.phase t = .idle ∧
      q.log = .answered t (p.completed t) size (os.mayAllocate size).1 :: log := by
  by_cases hover : (os.allocated + size) % usizeRange > os.limit
  · simp [Os.mayAllocate, hover, uninterrupted, Process.next, hphase, Process.setPhase, hlimit,
      hallocated]
  · simp [Os.mayAllocate, hover, uninterrupted, Process.next, hphase, Process.setPhase, hlimit,
      hallocated]

/-! ## The invariant -/

namespace Phase

/-- What a call has added to the counter at this place of its program. -/
def additions : Phase → List Nat
  | .granted size => [size]
  | _ => []

/-- What a thread knows at this place: the value it tests may be stale, but its
sum with the size did not overflow, and the value it wants to store has passed
the test. -/
def Valid (limit : Nat) : Phase → Prop
  | .limitRead _ l => l = limit
  | .testing size l allocated => l = limit ∧ allocated + size < usizeRange
  | .exchanging size l allocated new => l = limit ∧ new = allocated + size ∧
      new < usizeRange ∧ new ≤ limit
  | _ => True

end Phase

/-- What a thread's call has added, counted from the number of its completed calls. -/
def Running [DecidableEq Thread] (p : Process Thread) (t : Thread) : Prop :=
  ∀ n, p.completed t ≤ n →
    additions t n p.log = if n = p.completed t then (p.phase t).additions else []

/-- The invariant of every interleaving. -/
structure Accounted [DecidableEq Thread] (limit : Nat) (p : Process Thread) : Prop where
  limit_eq : p.limit = limit
  allocated_lt : p.allocated < usizeRange
  balance : p.allocated + p.releasedSum = p.grantedSum
  phases : ∀ t, (p.phase t).Valid limit
  /-- The call that a thread is in has added its size if and only if it is about
  to answer `true`; later calls have added nothing. -/
  running : ∀ t, Running p t
  answers : ∀ t n size answer, .answered t n size answer ∈ p.log →
    n < p.completed t ∧ additions t n p.log = if answer then [size] else []
  grants : ∀ t n size new, .exchanged t n size new ∈ p.log → new ≤ limit

namespace Accounted

variable [DecidableEq Thread] {limit : Nat} {p q : Process Thread}

theorem initial (limit : Nat) :
    Accounted limit (Process.initial limit : Process Thread) where
  limit_eq := rfl
  allocated_lt := by
    have : 0 < usizeRange := by decide
    simpa [Process.initial] using this
  balance := rfl
  phases := fun _ => trivial
  running := by
    intro t n _
    change [] = if n = 0 then [] else []
    split <;> rfl
  answers := by simp [Process.initial]
  grants := by simp [Process.initial]

theorem outstanding_eq (h : Accounted limit p) : p.outstanding = p.allocated := by
  have := h.balance
  unfold Process.outstanding
  omega

/-- A step of a thread on its own, between two places that have added the same. -/
theorem setPhase (h : Accounted limit p) {t : Thread} {phase : Phase}
    (hadd : phase.additions = (p.phase t).additions) (hvalid : phase.Valid limit) :
    Accounted limit (p.setPhase t phase) where
  limit_eq := h.limit_eq
  allocated_lt := h.allocated_lt
  balance := h.balance
  phases := by
    intro u
    by_cases hu : u = t
    · subst hu
      simpa [Process.setPhase] using hvalid
    · simpa [Process.setPhase, hu] using h.phases u
  running := by
    intro u n hn
    have hrun := h.running u n hn
    by_cases hu : u = t
    · subst hu
      simpa [Process.setPhase, hadd] using hrun
    · simpa [Process.setPhase, hu] using hrun
  answers := h.answers
  grants := h.grants

/-- The compare-exchange found the value that was tested. -/
theorem exchange (h : Accounted limit p) {t : Thread} {size l new : Nat}
    (hphase : p.phase t = .exchanging size l p.allocated new) :
    Accounted limit { p.setPhase t (.granted size) with
      allocated := new, log := .exchanged t (p.completed t) size new :: p.log } := by
  obtain ⟨-, hnew, hlt, hle⟩ : (Phase.exchanging size l p.allocated new).Valid limit :=
    hphase ▸ h.phases t
  refine ⟨h.limit_eq, hlt, ?_, ?_, ?_, ?_, ?_⟩
  · have hbalance := h.balance
    simp only [Process.grantedSum, Process.releasedSum, List.map_cons, List.sum_cons,
      Entry.grants, Entry.releases] at hbalance ⊢
    omega
  · intro u
    by_cases hu : u = t
    · subst hu
      simp [Process.setPhase, Phase.Valid]
    · simpa [Process.setPhase, hu] using h.phases u
  · intro u n hn
    have hrun := h.running u n hn
    by_cases hu : u = t
    · subst hu
      by_cases hcall : n = p.completed u
      · subst hcall
        simp_all [Process.setPhase, additions, Phase.additions]
      · simp_all [Process.setPhase, additions, Ne.symm hcall]
    · simp_all [Process.setPhase, additions, Ne.symm hu]
  · intro u n s answer hmem
    obtain ⟨hlt', hadd⟩ := h.answers u n s answer (by simpa using hmem)
    refine ⟨hlt', ?_⟩
    have hother : ¬(t = u ∧ p.completed t = n) := by
      rintro ⟨rfl, rfl⟩
      exact lt_irrefl _ hlt'
    simpa [additions, hother] using hadd
  · intro u n s value hmem
    rcases List.mem_cons.1 hmem with heq | hmem
    · cases heq
      exact hle
    · exact h.grants u n s value hmem

/-- A call returns what it has found. -/
theorem answer (h : Accounted limit p) {t : Thread} {size : Nat} {found : Bool}
    (hadd : (p.phase t).additions = if found then [size] else []) :
    Accounted limit { p.setPhase t .idle with
      completed := Function.update p.completed t (p.completed t + 1)
      log := .answered t (p.completed t) size found :: p.log } := by
  refine ⟨h.limit_eq, h.allocated_lt, ?_, ?_, ?_, ?_, ?_⟩
  · have hbalance := h.balance
    simpa [Process.setPhase, Process.grantedSum, Process.releasedSum, Entry.grants,
      Entry.releases] using hbalance
  · intro u
    by_cases hu : u = t
    · subst hu
      simp [Process.setPhase, Phase.Valid]
    · simpa [Process.setPhase, hu] using h.phases u
  · intro u n hn
    by_cases hu : u = t
    · subst hu
      have hn' : p.completed u + 1 ≤ n := by simpa using hn
      have hrun := h.running u n (Nat.le_of_succ_le hn')
      have hne : n ≠ p.completed u := Nat.ne_of_gt hn'
      simpa [Process.setPhase, additions, Phase.additions, hne] using hrun
    · have hn' : p.completed u ≤ n := by simpa [hu] using hn
      simpa [Process.setPhase, additions, hu] using h.running u n hn'
  · intro u n s a hmem
    rcases List.mem_cons.1 hmem with heq | hmem
    · cases heq
      have hrun := h.running t (p.completed t) (le_refl _)
      rw [if_pos rfl, hadd] at hrun
      exact ⟨by simp, hrun⟩
    · obtain ⟨hlt, hadditions⟩ := h.answers u n s a hmem
      refine ⟨?_, hadditions⟩
      by_cases hu : u = t
      · subst hu
        simpa using Nat.lt_succ_of_lt hlt
      · simpa [hu] using hlt
  · intro u n s value hmem
    exact h.grants u n s value (by simpa using hmem)

/-- A `fetch_add` or a `fetch_sub`: no call has added anything. -/
theorem fetch (h : Accounted limit p) {entry : Entry Thread} {allocated : Nat}
    (hallocated : allocated < usizeRange)
    (hbalance : allocated + p.releasedSum + entry.releases = p.grantedSum + entry.grants)
    (hentry : (∃ t size, entry = .added t size) ∨ ∃ t size, entry = .subtracted t size) :
    Accounted limit { p with allocated := allocated, log := entry :: p.log } := by
  have hadd : ∀ t n, additions t n (entry :: p.log) = additions t n p.log := by
    intro t n
    rcases hentry with ⟨u, size, rfl⟩ | ⟨u, size, rfl⟩ <;> rfl
  refine ⟨h.limit_eq, hallocated, ?_, h.phases, ?_, ?_, ?_⟩
  · simp only [Process.grantedSum, Process.releasedSum, List.map_cons, List.sum_cons] at hbalance ⊢
    omega
  · intro t n hn
    rw [hadd]
    exact h.running t n hn
  · intro t n size answer hmem
    rw [hadd]
    refine h.answers t n size answer ?_
    rcases hentry with ⟨u, s, rfl⟩ | ⟨u, s, rfl⟩ <;> simpa using hmem
  · intro t n size new hmem
    refine h.grants t n size new ?_
    rcases hentry with ⟨u, s, rfl⟩ | ⟨u, s, rfl⟩ <;> simpa using hmem

/-- What one step preserves. -/
theorem step (h : Accounted limit p) {a : Action Thread} (hstep : p.Step a q) :
    Accounted limit q := by
  obtain ⟨hnext, hrange⟩ := hstep
  have hout := h.outstanding_eq
  cases a with
  | call t size =>
      cases hphase : p.phase t <;> simp only [Process.next, hphase, reduceCtorEq] at hnext
      cases hnext
      exact h.setPhase (by rw [hphase]; rfl) trivial
  | loadLimit t =>
      cases hphase : p.phase t <;> simp only [Process.next, hphase, reduceCtorEq] at hnext
      cases hnext
      exact h.setPhase (by rw [hphase]; rfl) h.limit_eq
  | loadAllocated t =>
      have hvalid := h.phases t
      cases hphase : p.phase t <;> simp only [Process.next, hphase, reduceCtorEq] at hnext
      cases hnext
      rw [hphase] at hvalid
      have hlt : p.allocated + _ < usizeRange := hout ▸ hrange _ (by rw [hphase]; rfl)
      exact h.setPhase (by rw [hphase]; rfl) ⟨hvalid, hlt⟩
  | test t =>
      have hvalid := h.phases t
      cases hphase : p.phase t <;> simp only [Process.next, hphase, reduceCtorEq] at hnext
      rw [hphase] at hvalid
      obtain ⟨rfl, hlt⟩ := hvalid
      rw [Nat.mod_eq_of_lt hlt] at hnext
      split at hnext
      · cases hnext
        exact h.setPhase (by rw [hphase]; rfl) trivial
      · rename_i hle
        cases hnext
        exact h.setPhase (by rw [hphase]; rfl) ⟨rfl, rfl, hlt, not_lt.1 hle⟩
  | exchange t spurious =>
      have hvalid := h.phases t
      cases hphase : p.phase t <;> simp only [Process.next, hphase, reduceCtorEq] at hnext
      rw [hphase] at hvalid
      split at hnext
      · rename_i hfound
        obtain ⟨rfl, -⟩ := hfound
        cases hnext
        exact h.exchange hphase
      · cases hnext
        have hlt : p.allocated + _ < usizeRange := hout ▸ hrange _ (by rw [hphase]; rfl)
        exact h.setPhase (by rw [hphase]; rfl) ⟨hvalid.1, hlt⟩
  | answer t =>
      cases hphase : p.phase t <;> simp only [Process.next, hphase, reduceCtorEq] at hnext
      · cases hnext
        exact h.answer (by rw [hphase]; rfl)
      · cases hnext
        exact h.answer (by rw [hphase]; rfl)
  | allocateAnyWay t size =>
      cases hphase : p.phase t <;> simp only [Process.next, hphase, reduceCtorEq] at hnext
      cases hnext
      simp only [Process.InRange, hout] at hrange
      rw [Nat.mod_eq_of_lt hrange]
      have hbalance := h.balance
      refine h.fetch hrange ?_ (Or.inl ⟨t, size, rfl⟩)
      simp only [Entry.releases, Entry.grants]
      omega
  | markDeallocated t size =>
      cases hphase : p.phase t <;> simp only [Process.next, hphase, reduceCtorEq] at hnext
      cases hnext
      simp only [Process.InRange, hout] at hrange
      have hlt := h.allocated_lt
      have hwrap : (p.allocated + (usizeRange - size)) % usizeRange = p.allocated - size := by
        have hsum : p.allocated + (usizeRange - size) = p.allocated - size + usizeRange := by
          omega
        rw [hsum, Nat.add_mod_right, Nat.mod_eq_of_lt (by omega)]
      rw [hwrap]
      have hbalance := h.balance
      refine h.fetch (by omega) ?_ (Or.inr ⟨t, size, rfl⟩)
      simp only [Entry.releases, Entry.grants]
      omega

/-- What a whole interleaving preserves. -/
theorem run {actions : List (Action Thread)}
    (hrun : Run Process.Step (Process.initial limit) actions p) : Accounted limit p :=
  hrun.invariant (fun _ _ _ h hstep => h.step hstep) (Accounted.initial limit)

end Accounted

/-! ## The law of the counter -/

/-- In every interleaving the counter is what was granted less what was released,
a call of `may_allocate` adds its size once if it answers `true` and nothing if it
answers `false`, and no grant leaves the counter above the limit. -/
theorem allocated_exact_of_run [DecidableEq Thread] {limit : Nat}
    {actions : List (Action Thread)} {p : Process Thread}
    (hrun : Run Process.Step (Process.initial limit) actions p) :
    (p.releasedSum ≤ p.grantedSum ∧ p.allocated = p.grantedSum - p.releasedSum) ∧
      (∀ t n size, .answered t n size true ∈ p.log → additions t n p.log = [size]) ∧
      (∀ t n size, .answered t n size false ∈ p.log → additions t n p.log = []) ∧
      ∀ t n size new, .exchanged t n size new ∈ p.log → new ≤ limit := by
  have h := Accounted.run hrun
  have hbalance := h.balance
  refine ⟨⟨?_, ?_⟩, ?_, ?_, h.grants⟩
  · omega
  · omega
  · intro t n size hmem
    simpa using (h.answers t n size true hmem).2
  · intro t n size hmem
    simpa using (h.answers t n size false hmem).2

/-- The steps of an interleaving, computed. -/
def Process.guarded [DecidableEq Thread] (p : Process Thread) (a : Action Thread) :
    Option (Process Thread) :=
  if p.InRange a then p.next a else none

theorem Process.step_of_guarded [DecidableEq Thread] (p : Process Thread) (a : Action Thread)
    (q : Process Thread) (h : p.guarded a = some q) : p.Step a q := by
  unfold Process.guarded at h
  split at h
  · exact ⟨h, ‹_›⟩
  · cases h

/-- Two threads ask for six of ten bytes; both read the counter at zero.  The first
is granted its bytes, the second fails its exchange once spuriously and once for
good. -/
def contendedActions : List (Action Bool) :=
  [.call false 6, .call true 6, .loadLimit false, .loadLimit true, .loadAllocated false,
    .loadAllocated true, .test false, .test true, .exchange true true, .test true,
    .exchange false false, .exchange true false, .answer false, .test true, .answer true,
    .allocateAnyWay true 5, .markDeallocated false 6]

theorem contendedActions_isSome :
    (contendedActions.foldlM Process.guarded (Process.initial 10)).isSome = true := by
  decide

/-- The process it ends in. -/
def contended : Process Bool :=
  (contendedActions.foldlM Process.guarded (Process.initial 10)).get contendedActions_isSome

theorem contended_exact :
    contended.allocated = 5 ∧ additions false 0 contended.log = [6] ∧
      additions true 0 contended.log = [] := by
  have h := allocated_exact_of_run
    (Run.of_foldlM Process.step_of_guarded (Option.some_get contendedActions_isSome).symm)
  exact ⟨h.1.2.trans (by decide), h.2.1 false 0 6 (by decide), h.2.2.1 true 0 6 (by decide)⟩

end Memalart.LimitCounter
