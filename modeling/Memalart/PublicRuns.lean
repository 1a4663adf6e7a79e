/-
# Everything a program can do with one allocator

The operations that `thread_local_allocator` hands out: requests and frees of any size and
of any address, what arrives from other threads, the statistics with their iterators, the
destructor, and whatever the rest of the process does to the operating system.  Iterators
are unbounded in number; the allocator only has one flag for all of them.
-/

import Memalart.Destructor
import Memalart.SelfCount

namespace Memalart

open Memalart.Lib ThreadLocalAllocator

variable {P : Params}

/-- `short_stats`. -/
def ThreadLocalAllocator.takeShortStats : M P ShortStats := do
  let _ ← newInfoForSizeIter
  let stats ← Machine.orFault (.bugHint "the chunk table of the phase is missing")
    (← Machine.gets World.shortStats)
  dropInfoForSizeIter
  pure stats

/-- An allocator, and how many of its iterators are alive. -/
structure Public (P : Params) where
  world : World P
  iterators : Nat

namespace Public

inductive Action
  | tryAlloc (size : Nat) (r : Option Nat)
  | dealloc (ptr size : Nat)
  | checkNonLocalPtrs
  | freeUnused (k : ChunkKind)
  /-- `lazy_detailed_stats`. -/
  | createIterator
  | dropIterator
  | shortStats
  | snapshot
  | tryFreeAllMemory (freed : Bool)
  /-- The destructor; it answers whether the allocator has moved to another thread. -/
  | destructor (moved : Bool)
  /-- Other threads have pushed on the list of the manager. -/
  | received
  /-- The rest of the process has used the operating system. -/
  | outside
deriving DecidableEq

/-- A call that returns, however deep its calls nest and however long its loops run. -/
inductive Step : Public P → Action → Public P → Prop
  | tryAlloc {w w' : World P} {n size : Nat} {r : Option Nat} (depth : Nat)
      (h : (tryAlloc (threadLocalAllocator depth) size).Returns w r w') :
      Step ⟨w, n⟩ (.tryAlloc size r) ⟨w', n⟩
  | dealloc {w w' : World P} {n ptr size : Nat} (depth : Nat)
      (h : (dealloc (threadLocalAllocator depth) ptr size).Returns w () w') :
      Step ⟨w, n⟩ (.dealloc ptr size) ⟨w', n⟩
  | checkNonLocalPtrs {w w' : World P} {n : Nat} (depth : Nat)
      (h : (checkNonLocalPtrs (threadLocalAllocator depth)).Returns w () w') :
      Step ⟨w, n⟩ .checkNonLocalPtrs ⟨w', n⟩
  | freeUnused {w w' : World P} {n : Nat} {again : Bool} (k : ChunkKind)
      (h : (freeNext k).Returns w again w') : Step ⟨w, n⟩ (.freeUnused k) ⟨w', n⟩
  | createIterator {w w' : World P} {n : Nat} {it : InfoForSizeIter}
      (h : newInfoForSizeIter.Returns w it w') : Step ⟨w, n⟩ .createIterator ⟨w', n + 1⟩
  | dropIterator {w w' : World P} {n : Nat} (h : dropInfoForSizeIter.Returns w () w') :
      Step ⟨w, n + 1⟩ .dropIterator ⟨w', n⟩
  | shortStats {w w' : World P} {n : Nat} {stats : ShortStats}
      (h : takeShortStats.Returns w stats w') : Step ⟨w, n⟩ .shortStats ⟨w', n⟩
  | snapshot {w w' : World P} {n : Nat} {slots : List (List InfoForSize)} (fuel : Nat)
      (h : (snapshotDetailedStats fuel).Returns w slots w') : Step ⟨w, n⟩ .snapshot ⟨w', n⟩
  | tryFreeAllMemory {w w' : World P} {n : Nat} {freed : Bool} (depth fuel : Nat)
      (h : (tryFreeAllMemory (threadLocalAllocator depth) fuel).Returns w freed w') :
      Step ⟨w, n⟩ (.tryFreeAllMemory freed) ⟨w', n⟩
  | destructor {w w' : World P} {n : Nat} {moved : Bool} (panicking : Bool) (depth fuel : Nat)
      (h : (destructor (threadLocalAllocator depth) panicking fuel).Returns w moved w') :
      Step ⟨w, n⟩ (.destructor moved) ⟨w', n⟩
  | received {w : World P} {n : Nat} (nodes : List Node) :
      Step ⟨w, n⟩ .received ⟨{ w with incoming := nodes ++ w.incoming }, n⟩
  | outside {w : World P} {n : Nat} (os : Os) : Step ⟨w, n⟩ .outside ⟨w.setOs os, n⟩

/-- Reached from a new allocator. -/
def Reached (actions : List Action) (s : Public P) : Prop :=
  ∃ os, Run Step ⟨.new os, 0⟩ actions s

/-! ## Every call leaves the allocator at rest -/

section AtRest

variable {w w' : World P} {A : AllocatorForSelfAllocations P}

theorem atRest_new (os : Os) : (World.new os : World P).AtRest where
  orderly := {
    chunks := fun k hk => by
      have helems : ((World.new os : World P).vec k.freeVec).elems = [] := by cases k <;> rfl
      exact absurd helems hk
    nodup := by
      change ((P.tree.entries P.tree.empty).map Prod.fst).Nodup
      rw [P.tree.entries_empty]
      exact List.nodup_nil
    large := by
      change ∀ e ∈ P.tree.entries P.tree.empty, largeSizeMax < e.1
      rw [P.tree.entries_empty]
      exact fun e he => absurd he List.not_mem_nil
    caps := fun v => .inl (by cases v <;> rfl) }
  tables := .inr fun k => by cases k <;> rfl

/-- A call without a State. -/
theorem atRest_of_triple {α : Type} {x : M P α} {a : α}
    (hx : (tableDiscipline P false).Triple 0 x fun _ => 0) (h : w.AtRest)
    (hret : x.Returns w a w') : w'.AtRest := by
  obtain ⟨horderly, hadvances, -⟩ :=
    step_of_orderly hx h.orderly (fun k hk => absurd hk (Multiset.notMem_zero k)) hret
  refine ⟨horderly, ?_⟩
  rcases hadvances.settles rfl with htabled | hsame
  · exact .inl htabled
  · rcases h.tables with htabled | hnone
    · exact .inl fun k => hadvances.box k (htabled k)
    · exact .inr fun k => (hsame k).trans (hnone k)

/-- What is at rest does not depend on the operating system and on messages. -/
theorem atRest_of_inner (h : w.AtRest) (hinner : w'.inner = w.inner) : w'.AtRest := by
  have hbox : ∀ k, chunkTableBox k w' = chunkTableBox k w := by
    intro k
    cases k <;> simp only [chunkTableBox, hinner]
  have hvec : ∀ v, w'.vec v = w.vec v := fun v => by rw [World.vec, hinner, World.vec]
  refine ⟨⟨fun k hk j => ?_, ?_, ?_, fun v => ?_⟩, ?_⟩
  · rw [hbox]
    rw [hvec] at hk
    exact h.orderly.chunks k hk j
  · rw [hinner]
    exact h.orderly.nodup
  · rw [hinner]
    exact h.orderly.large
  · rw [hvec]
    exact h.orderly.caps v
  · simp only [World.Tabled, hbox]
    exact h.tables

theorem freeNext_orderly (k : ChunkKind) :
    (tableDiscipline P false).Triple 0 (freeNext k : M P Bool) fun _ => 0 := by
  refine (tryGetChunk_orderly k).bind fun r => ?_
  cases r with
  | none => exact Discipline.Triple.pure rfl
  | some chunk =>
      refine orderly_forget (fun _ => tabled) (Discipline.Triple.conv ?_ rfl fun _ => add_zero _)
      exact (freeChunk_orderly k chunk).bind fun _ => Discipline.Triple.pure rfl

theorem atRest_setDeallocated (w : World P) : w.setDeallocated.AtRest :=
  have hnew := atRest_new (P := P) w.os
  ⟨⟨fun k hk => absurd (by cases k <;> rfl) hk, hnew.orderly.nodup, hnew.orderly.large,
    fun v => .inl (by cases v <;> rfl)⟩, .inr fun k => by cases k <;> rfl⟩

end AtRest

/-! ## What the statistics and the destructor do to the state -/

section Effects

variable {w w' : World P} {A : AllocatorForSelfAllocations P}

theorem returns_snapshot {fuel : Nat} {slots : List (List InfoForSize)}
    (h : (snapshotDetailedStats fuel).Returns w slots w') : w' = w.setBorrowed false := by
  obtain ⟨it, w₁, hnew, hrest⟩ := Machine.returns_bind.mp h
  obtain ⟨arr, -, rfl, rfl⟩ := returns_newInfoForSizeIter.mp hnew
  obtain ⟨w₂, w₃, hget, hrest⟩ := Machine.returns_bind.mp hrest
  obtain ⟨rfl, rfl⟩ := Machine.returns_get.mp hget
  split at hrest
  · exact absurd hrest Machine.not_returns_fault
  · obtain ⟨_, w₄, hdrop, hpure⟩ := Machine.returns_bind.mp hrest
    obtain rfl := Machine.returns_modify.mp hdrop
    exact (Machine.returns_pure.mp hpure).2

theorem returns_takeShortStats {stats : ShortStats} (h : takeShortStats.Returns w stats w') :
    w' = w.setBorrowed false := by
  simp only [takeShortStats, dropInfoForSizeIter, ThreadLocalAllocator.setBorrowed,
    Machine.returns_bind, returns_newInfoForSizeIter, Machine.returns_gets, Machine.returns_orFault,
    Machine.returns_modify, Machine.returns_pure] at h
  obtain ⟨it, _, ⟨arr, -, -, rfl⟩, _, _, ⟨-, rfl⟩, _, _, ⟨-, rfl⟩, _, _, rfl, -, rfl⟩ := h
  rfl

theorem atRest_tryFreeAllMemory {fuel : Nat} {freed : Bool} (h : w.AtRest)
    (hret : (tryFreeAllMemory A fuel).Returns w freed w') : w'.AtRest := by
  obtain ⟨-, -, ⟨-, -, rfl⟩ | ⟨-, -, -, rfl⟩ | ⟨-, -, -, hdestroy⟩⟩ := h.returns_tryFreeAllMemory hret
  · exact h
  · exact h
  · obtain ⟨_, _, w₂, -, -, rfl⟩ := returns_destroy hdestroy
    exact atRest_setDeallocated w₂

/-- The destructor leaves the allocator as it is, or it has asked whether it can be freed. -/
theorem returns_destructor {panicking moved : Bool} {fuel : Nat}
    (h : (destructor A panicking fuel).Returns w moved w') :
    w' = w ∨ ∃ freed w₁, (tryFreeAllMemory A fuel).Returns w freed w₁ ∧
      (w' = w₁ ∨ w' = w₁.setDeallocated) := by
  obtain ⟨w₀, w₁, hget, hrest⟩ := Machine.returns_bind.mp h
  obtain ⟨rfl, rfl⟩ := Machine.returns_get.mp hget
  split at hrest
  · exact .inl (Machine.returns_pure.mp hrest).2
  · obtain ⟨freed, w₂, htry, hlast⟩ := Machine.returns_bind.mp hrest
    refine .inr ⟨freed, w₂, htry, ?_⟩
    cases freed with
    | true => exact .inl (Machine.returns_pure.mp hlast).2
    | false =>
        obtain ⟨_, w₃, hreset, hpure⟩ := Machine.returns_bind.mp hlast
        rw [(Machine.returns_pure.mp hpure).2]
        exact .inr (Machine.returns_modify.mp hreset)

end Effects

/-! ## Runs -/

variable {s s' : Public P} {a : Action} {actions : List Action}

theorem Step.atRest (hstep : Step s a s') (h : s.world.AtRest) : s'.world.AtRest := by
  cases hstep with
  | tryAlloc depth hret =>
      exact atRest_of_triple (tryAlloc_orderly (keepsOrder_threadLocalAllocator depth) _) h hret
  | dealloc depth hret =>
      exact atRest_of_triple (dealloc_orderly (keepsOrder_threadLocalAllocator depth) _ _) h hret
  | checkNonLocalPtrs depth hret =>
      exact atRest_of_triple (checkNonLocalPtrs_orderly (keepsOrder_threadLocalAllocator depth)) h hret
  | freeUnused k hret => exact atRest_of_triple (freeNext_orderly k) h hret
  | createIterator hret =>
      obtain ⟨arr, -, -, rfl⟩ := returns_newInfoForSizeIter.mp hret
      exact h.setBorrowed true
  | dropIterator hret =>
      obtain rfl := Machine.returns_modify.mp hret
      exact h.setBorrowed false
  | shortStats hret =>
      obtain rfl := returns_takeShortStats hret
      exact h.setBorrowed false
  | snapshot fuel hret =>
      obtain rfl := returns_snapshot hret
      exact h.setBorrowed false
  | tryFreeAllMemory depth fuel hret => exact atRest_tryFreeAllMemory h hret
  | destructor panicking depth fuel hret =>
      rcases returns_destructor hret with rfl | ⟨freed, w₁, htry, rfl | rfl⟩
      · exact h
      · exact atRest_tryFreeAllMemory h htry
      · exact atRest_setDeallocated w₁
  | received nodes => exact atRest_of_inner h rfl
  | outside os => exact atRest_of_inner h rfl

/-! ## Runs that are computed -/

/-- What a program asks for. -/
inductive Request
  | tryAlloc (size : Nat)
  | dealloc (ptr size : Nat)
  | createIterator
  | dropIterator
  | tryFreeAllMemory

/-- Carry out one request, with calls that nest and loops that run at most so often. -/
def perform (depth fuel : Nat) (request : Request) (s : Public P) : Option (Action × Public P) :=
  match request with
  | .tryAlloc size =>
      match ThreadLocalAllocator.tryAlloc (threadLocalAllocator depth) size s.world with
      | .ok (r, w) => some (.tryAlloc size r, ⟨w, s.iterators⟩)
      | .error _ => none
  | .dealloc ptr size =>
      match ThreadLocalAllocator.dealloc (threadLocalAllocator depth) ptr size s.world with
      | .ok (_, w) => some (.dealloc ptr size, ⟨w, s.iterators⟩)
      | .error _ => none
  | .createIterator =>
      match newInfoForSizeIter s.world with
      | .ok (_, w) => some (.createIterator, ⟨w, s.iterators + 1⟩)
      | .error _ => none
  | .dropIterator =>
      match s.iterators, dropInfoForSizeIter s.world with
      | n + 1, .ok (_, w) => some (.dropIterator, ⟨w, n⟩)
      | _, _ => none
  | .tryFreeAllMemory =>
      match ThreadLocalAllocator.tryFreeAllMemory (threadLocalAllocator depth) fuel s.world with
      | .ok (freed, w) => some (.tryFreeAllMemory freed, ⟨w, s.iterators⟩)
      | .error _ => none

theorem step_of_perform {depth fuel : Nat} {request : Request}
    (h : perform depth fuel request s = some (a, s')) : Step s a s' := by
  obtain ⟨w, n⟩ := s
  cases request with
  | tryAlloc size =>
      simp only [perform] at h
      split at h
      · next r w' hret =>
          cases h
          exact .tryAlloc depth hret
      · cases h
  | dealloc ptr size =>
      simp only [perform] at h
      split at h
      · next u w' hret =>
          cases h
          exact .dealloc depth hret
      · cases h
  | createIterator =>
      simp only [perform] at h
      split at h
      · next it w' hret =>
          cases h
          exact .createIterator hret
      · cases h
  | dropIterator =>
      simp only [perform] at h
      split at h
      · next n w' hret =>
          cases h
          exact .dropIterator hret
      · cases h
  | tryFreeAllMemory =>
      simp only [perform] at h
      split at h
      · next freed w' hret =>
          cases h
          exact .tryFreeAllMemory depth fuel hret
      · cases h

/-- Carry out requests one after the other, and ask whether the outcome satisfies `p`. -/
def trial (depth fuel : Nat) (p : List Action → Public P → Bool) :
    List Request → List Action → Public P → Bool
  | [], actions, s => p actions s
  | request :: requests, actions, s =>
      match perform depth fuel request s with
      | some (a, s') => trial depth fuel p requests (actions ++ [a]) s'
      | none => false

/-- A computed run is a run. -/
theorem reached_of_trial {depth fuel : Nat} {p : List Action → Public P → Bool}
    {requests : List Request} (hs : Reached actions s)
    (h : trial depth fuel p requests actions s = true) :
    ∃ actions' s', Reached actions' s' ∧ p actions' s' = true := by
  induction requests generalizing actions s with
  | nil => exact ⟨actions, s, hs, h⟩
  | cons request requests ih =>
      simp only [trial] at h
      split at h
      · next a s' hperform =>
          obtain ⟨os, hrun⟩ := hs
          exact ih ⟨os, hrun.append (.cons (step_of_perform hperform) (.nil s'))⟩ h
      · cases h

theorem reached_nil (os : Os) : Reached [] (⟨.new os, 0⟩ : Public P) := ⟨os, .nil _⟩

/-! ## The statistics -/

theorem Reached.atRest (h : Reached actions s) : s.world.AtRest := by
  obtain ⟨os, hrun⟩ := h
  exact hrun.invariant (I := fun s => s.world.AtRest) (fun _ _ _ hrest hstep => hstep.atRest hrest)
    (atRest_new os)

/-- While an iterator is alive the flag is set, and the destructor does not get past it. -/
def Guarded (s : Public P) : Prop :=
  0 < s.iterators → s.world.inner.isBorrowedForUnknownTime = true ∧
    ∀ depth fuel freed w', ¬ (tryFreeAllMemory (threadLocalAllocator depth) fuel).Returns s.world
      freed w'

/-- The iterator that ends with this call is the last one.  The statistics that are taken at
once end the iterator that they have made. -/
def EndsLast (s : Public P) : Action → Prop
  | .dropIterator => s.iterators = 1
  | .shortStats | .snapshot => s.iterators = 0
  | _ => True

theorem guarded_iff (h : s.world.AtRest) :
    s.Guarded ↔ (0 < s.iterators → s.world.inner.isBorrowedForUnknownTime = true) := by
  constructor
  · exact fun hguarded halive => (hguarded halive).1
  · intro hflag halive
    refine ⟨hflag halive, fun depth fuel freed w' hret => ?_⟩
    have hborrowed := (h.returns_tryFreeAllMemory hret).2.1
    rw [hflag halive] at hborrowed
    cases hborrowed

/-- A step from a guarded state leads to a guarded state exactly if no iterator ends before
another one. -/
theorem Step.guarded_iff (hstep : Step s a s') (hrest : s.world.AtRest) (h : s.Guarded) :
    s'.Guarded ↔ s.EndsLast a := by
  rw [Public.guarded_iff (hstep.atRest hrest)]
  rw [Public.guarded_iff hrest] at h
  have hkeeps : ∀ {α : Type} {x : M P α} {r : α} {w w' : World P}, w.AtRest →
      ((tableDiscipline P false).Triple 0 x fun _ => 0) → x.Returns w r w' →
      w'.inner.isBorrowedForUnknownTime = w.inner.isBorrowedForUnknownTime := by
    intro α x r w w' hw hx hret
    exact (step_of_orderly hx hw.orderly (fun k hk => absurd hk (Multiset.notMem_zero k))
      hret).2.1.borrowed
  have hsame : ∀ {w w' : World P} {n : Nat},
      (0 < n → w.inner.isBorrowedForUnknownTime = true) →
      w'.inner.isBorrowedForUnknownTime = w.inner.isBorrowedForUnknownTime →
      ((0 < n → w'.inner.isBorrowedForUnknownTime = true) ↔ True) := by
    intro w w' n hw heq
    rw [heq]
    exact iff_true_intro hw
  have hcleared : ∀ (w : World P) (n : Nat),
      (0 < n → (w.setBorrowed false).inner.isBorrowedForUnknownTime = true) ↔ n = 0 := by
    intro w n
    constructor
    · intro hclaim
      by_contra hne
      exact Bool.false_ne_true (hclaim (Nat.pos_of_ne_zero hne))
    · intro hzero halive
      omega
  have hnone : ∀ {w : World P} {n depth fuel : Nat} {freed : Bool} {w' : World P}, w.AtRest →
      (0 < n → w.inner.isBorrowedForUnknownTime = true) →
      (ThreadLocalAllocator.tryFreeAllMemory (threadLocalAllocator depth) fuel).Returns w freed w' →
        n = 0 := by
    intro w n depth fuel freed w' hw hflag hret
    have hborrowed := (hw.returns_tryFreeAllMemory hret).2.1
    by_contra hne
    rw [hflag (Nat.pos_of_ne_zero hne)] at hborrowed
    cases hborrowed
  cases hstep with
  | tryAlloc depth hret =>
      exact hsame h (hkeeps hrest (tryAlloc_orderly (keepsOrder_threadLocalAllocator depth) _) hret)
  | dealloc depth hret =>
      exact hsame h (hkeeps hrest (dealloc_orderly (keepsOrder_threadLocalAllocator depth) _ _) hret)
  | checkNonLocalPtrs depth hret =>
      exact hsame h
        (hkeeps hrest (checkNonLocalPtrs_orderly (keepsOrder_threadLocalAllocator depth)) hret)
  | freeUnused k hret => exact hsame h (hkeeps hrest (freeNext_orderly k) hret)
  | createIterator hret =>
      obtain ⟨arr, -, -, rfl⟩ := returns_newInfoForSizeIter.mp hret
      exact iff_true_intro fun _ => rfl
  | @dropIterator w w' n hret =>
      obtain rfl := Machine.returns_modify.mp hret
      exact (hcleared w n).trans Nat.add_eq_right.symm
  | @shortStats w w' n stats hret =>
      obtain rfl := returns_takeShortStats hret
      exact hcleared w n
  | @snapshot w w' n slots fuel hret =>
      obtain rfl := returns_snapshot hret
      exact hcleared w n
  | tryFreeAllMemory depth fuel hret =>
      have hzero := hnone hrest h hret
      exact iff_true_intro fun halive => by
        simp only at halive hzero
        omega
  | destructor panicking depth fuel hret =>
      rcases returns_destructor hret with rfl | ⟨freed, w₁, htry, -⟩
      · exact iff_true_intro h
      · have hzero := hnone hrest h htry
        exact iff_true_intro fun halive => by
          simp only at halive hzero
          omega
  | received nodes => exact hsame h rfl
  | outside os => exact hsame h rfl

/-- The runs in which no iterator ends before another one are those in which the flag
always guards the iterators that are alive. -/
theorem guarded_run_iff (os : Os) (actions : List Action) (s : Public P) :
    Run (fun s a s' => Step s a s' ∧ s.EndsLast a) ⟨.new os, 0⟩ actions s ↔
      Run (fun s a s' => Step s a s' ∧ s'.Guarded) ⟨.new os, 0⟩ actions s := by
  have hrun : ∀ s₀ : Public P, s₀.world.AtRest → s₀.Guarded →
      (Run (fun s a s' => Step s a s' ∧ s.EndsLast a) s₀ actions s ↔
        Run (fun s a s' => Step s a s' ∧ s'.Guarded) s₀ actions s) := by
    induction actions with
    | nil =>
        intro s₀ _ _
        constructor <;>
        · rintro ⟨⟩
          exact .nil _
    | cons a rest ih =>
        intro s₀ hrest hguarded
        constructor
        · rintro (_ | ⟨⟨hstep, hlast⟩, htail⟩)
          have hguarded' := (hstep.guarded_iff hrest hguarded).mpr hlast
          exact .cons ⟨hstep, hguarded'⟩ ((ih _ (hstep.atRest hrest) hguarded').mp htail)
        · rintro (_ | ⟨⟨hstep, hguarded'⟩, htail⟩)
          have hlast := (hstep.guarded_iff hrest hguarded).mp hguarded'
          exact .cons ⟨hstep, hlast⟩ ((ih _ (hstep.atRest hrest) hguarded').mpr htail)
  exact hrun _ (atRest_new os) fun halive => absurd halive (Nat.lt_irrefl 0)

/-- Of two iterators one ends, and the destructor frees what the other one reads. -/
theorem unguarded_two :
    (¬ ∀ (actions : List Action) (s : Public lockFreeParams), Reached actions s →
      0 < s.iterators → s.world.inner.isBorrowedForUnknownTime = true) ∧
    ∃ s : Public lockFreeParams, Reached [.createIterator, .createIterator, .dropIterator,
      .tryFreeAllMemory true] s ∧ 0 < s.iterators ∧
      .released 134217728 regionSize ∈ s.world.os.log := by
  have hrun : trial 4 1 (fun actions s => actions = [.createIterator, .createIterator,
      .dropIterator, .tryFreeAllMemory true] && 0 < s.iterators &&
      s.world.inner.isBorrowedForUnknownTime = false &&
      (.released 134217728 regionSize ∈ s.world.os.log : Bool))
      [.createIterator, .createIterator, .dropIterator, .tryFreeAllMemory] []
      (⟨.new (Os.initial [⟨0, 134217728⟩, ⟨0, 20480⟩]), 0⟩ : Public lockFreeParams) = true := by
    decide +kernel
  obtain ⟨actions, s, hreached, hcheck⟩ := reached_of_trial (reached_nil _) hrun
  simp only [Bool.and_eq_true, decide_eq_true_eq] at hcheck
  obtain ⟨⟨⟨rfl, halive⟩, hflag⟩, hreleased⟩ := hcheck
  refine ⟨fun hclaim => ?_, s, hreached, halive, hreleased⟩
  have hset := hclaim _ s hreached halive
  rw [hflag] at hset
  cases hset

/-! ## The answer of the destructor -/

/-- In every reachable state the destructor keeps its word if a class is in use, or if there
is nothing extra large; it does not if the walk reaches an extra-large size. -/
theorem keepsItsWord_of_reached {depth fuel : Nat} {freed : Bool} {w' : World P}
    (h : Reached actions s)
    (hret : (tryFreeAllMemory (threadLocalAllocator depth) fuel).Returns s.world freed w') :
    (s.world.InUse ∨ (P.tree.entries s.world.inner.allocatedLargeSizes = [] ∧
        s.world.NoExtraLargeBuffer) →
      World.KeepsItsWord (threadLocalAllocator depth) s.world freed w') ∧
    (World.KeepsItsWord (threadLocalAllocator depth) s.world freed w' →
      s.world.InUse ∨ P.tree.entries s.world.inner.allocatedLargeSizes = []) :=
  h.atRest.keepsItsWord hret

/-- A block of 200 000 bytes is alive, and the destructor answers `Ok`. -/
theorem exists_freed_extraLarge : ∃ (s : Public lockFreeParams) (w' : World lockFreeParams),
    Reached [.tryAlloc 200000 (some 20480)] s ∧
      (tryFreeAllMemory (threadLocalAllocator 8) 300).Returns s.world true w' ∧
      w'.inner.isAlreadyDestructured = false := by
  have hrun : trial 8 0 (fun actions s => actions = [.tryAlloc 200000 (some 20480)] &&
      match tryFreeAllMemory (threadLocalAllocator 8) 300 s.world with
      | .ok (freed, w') => freed && !w'.inner.isAlreadyDestructured
      | .error _ => false) [.tryAlloc 200000] []
      (⟨.new (Os.initial [⟨0, 20480⟩, ⟨0, 134217728⟩]), 0⟩ : Public lockFreeParams) = true := by
    decide +kernel
  obtain ⟨actions, s, hreached, hcheck⟩ := reached_of_trial (reached_nil _) hrun
  simp only [Bool.and_eq_true, decide_eq_true_eq] at hcheck
  obtain ⟨rfl, hfree⟩ := hcheck
  split at hfree
  · next freed w' hret =>
      simp only [Bool.and_eq_true, Bool.not_eq_true'] at hfree
      obtain ⟨rfl, hdestructured⟩ := hfree
      exact ⟨s, w', hreached, hret, hdestructured⟩
  · cases hfree

/-- A block of 24 bytes is allocated and freed; nothing extra large is left, and the
destructor keeps its word. -/
theorem keepsItsWord_freed : ∃ (s : Public lockFreeParams) (w' : World lockFreeParams),
    Reached [.tryAlloc 24 (some 164036568), .dealloc 164036568 24] s ∧
      (tryFreeAllMemory (threadLocalAllocator 4) 300).Returns s.world true w' ∧
      World.KeepsItsWord (threadLocalAllocator 4) s.world true w' := by
  have hrun : trial 4 0 (fun actions s =>
      actions = [.tryAlloc 24 (some 164036568), .dealloc 164036568 24] &&
      lockFreeParams.tree.entries s.world.inner.allocatedLargeSizes = [] &&
      (VecId.inOrder.all fun v => (s.world.vec v).cap * v.elemSize ≤ largeSizeMax) &&
      match tryFreeAllMemory (threadLocalAllocator 4) 300 s.world with
      | .ok (freed, _) => freed
      | .error _ => false) [.tryAlloc 24, .dealloc 164036568 24] []
      (⟨.new (Os.initial [⟨0, 134217728⟩, ⟨0, 20480⟩]), 0⟩ : Public lockFreeParams) = true := by
    decide +kernel
  obtain ⟨actions, s, hreached, hcheck⟩ := reached_of_trial (reached_nil _) hrun
  simp only [Bool.and_eq_true, decide_eq_true_eq, List.all_eq_true] at hcheck
  obtain ⟨⟨⟨rfl, hentries⟩, hbuffers⟩, hfree⟩ := hcheck
  split at hfree
  · next freed w' hret =>
      obtain rfl := hfree
      exact ⟨s, w', hreached, hret, (keepsItsWord_of_reached hreached hret).1
        (.inr ⟨hentries, fun v => hbuffers v v.mem_inOrder⟩)⟩
  · cases hfree

/-- With a live block of 200 000 bytes the destructor answers `Ok` and frees nothing. -/
theorem breaksItsWord_extraLarge : ¬ ∀ (actions : List Action) (s : Public lockFreeParams),
    Reached actions s → ∀ (depth fuel : Nat) (freed : Bool) (w' : World lockFreeParams),
      (tryFreeAllMemory (threadLocalAllocator depth) fuel).Returns s.world freed w' →
        World.KeepsItsWord (threadLocalAllocator depth) s.world freed w' := by
  intro hclaim
  obtain ⟨s, w', hreached, hret, hdestructured⟩ := exists_freed_extraLarge
  obtain ⟨m, w₁, -, hdestroyed⟩ := hclaim _ s hreached 8 300 true w' hret
  rw [hdestroyed.reset] at hdestructured
  cases hdestructured

end Public

end Memalart
