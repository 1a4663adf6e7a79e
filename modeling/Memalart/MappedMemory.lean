/-
# The counter and what is mapped

Every path that maps or unmaps memory for allocators: the two ways to get a region, a
region that is given back, the loop of the destructor over all regions, and extra-large
blocks.  Any number of threads run these paths for any number of allocators, one atomic
operation or one call of the kernel at a time.

A region takes two mappings: a reservation that is large enough to hold an aligned region,
and a second one that commits the region.  The code looks at the answer to the first one
only: if the kernel refuses the second, the region is counted and handed out although it is
not mapped.  As long as that does not happen the counter is the size of what is mapped as
soon as every path has come to its end, whatever else the kernel and the limit refuse;
before, it is off by what the paths in progress have counted and not mapped, or unmapped
and not discounted.
-/

import Mathlib.Algebra.BigOperators.Group.Multiset.Basic
import Mathlib.Algebra.BigOperators.Ring.Finset
import Mathlib.Data.Fintype.BigOperators
import Mathlib.Data.ZMod.Basic
import Mathlib.Tactic.Abel
import Mathlib.Tactic.LinearCombination
import Mathlib.Tactic.Ring
import Memalart.Allocator
import Memalart.Lib.Mask
import Memalart.Lib.Sums
import Memalart.LimitCounter

namespace Memalart.MappedMemory

open Memalart.Lib

universe u

/-- A mapping: its address and its size. -/
abbrev Mapping := Nat × Nat

variable {Allocator Thread : Type u}

/-- What a thread wants to have mapped: a region for an allocator, or an extra-large
block of some `usize`. -/
inductive Request (Allocator : Type u)
  | region (owner : Allocator)
  | extraLarge (size : Fin usizeRange)

namespace Request

def size : Request Allocator → Nat
  | .region _ => regionSize
  | .extraLarge size => size.val

def alignment : Request Allocator → Nat
  | .region _ => regionSize
  | .extraLarge _ => ThreadLocalAllocator.pageSize

theorem size_lt (r : Request Allocator) : r.size < usizeRange := by
  cases r with
  | region a =>
      have h : regionSize < usizeRange := by decide
      exact h
  | extraLarge size => exact size.isLt

end Request

/-- Where a thread stands in one of the paths. -/
inductive Stage (Allocator : Type u)
  | idle
  /-- In `may_allocate`. -/
  | asking (r : Request Allocator)
  /-- The bytes are counted, and the kernel is asked next. -/
  | mapping (r : Request Allocator)
  /-- The kernel has refused, and `mark_deallocated` is next. -/
  | restoring (r : Request Allocator)
  /-- These mappings are given back, one after the other. -/
  | releasing (todo : List Mapping)
  /-- One of them is unmapped, and `mark_deallocated` is next. -/
  | discounting (size : Nat) (todo : List Mapping)

/-- The process: the counter with the threads that are in `may_allocate`, the regions
that each allocator has, the extra-large blocks that are live, and what the kernel has
mapped. -/
structure System (Allocator Thread : Type u) where
  counter : LimitCounter.Process Thread
  stage : Thread → Stage Allocator
  regions : Allocator → List Nat
  blocks : List Mapping
  mappings : List Mapping

inductive Action (Allocator Thread : Type u)
  | setLimit (limit : Nat)
  | allocRegion (thread : Thread) (owner : Allocator)
  | allocRegionWithoutCountingLimit (thread : Thread) (owner : Allocator)
  | allocExtraLarge (thread : Thread) (size : Fin usizeRange)
  /-- One of the operations inside `may_allocate`. -/
  | inside (operation : LimitCounter.Action Thread)
  /-- `may_allocate` returns. -/
  | answer (thread : Thread)
  /-- The kernel answers `alloc_from_os`, with null or with an address. -/
  | kernel (thread : Thread) (reply : Nat)
  /-- The kernel answers both mappings of `alloc_aligned_from_os`: the reservation with null or
  with an address, and the commit of the aligned region in it.  Nobody else can map anything
  inside the reservation between the two. -/
  | alignedKernel (thread : Thread) (reserved : Nat) (commits : Bool)
  | restore (thread : Thread)
  /-- `free_common` or `free_large` has emptied a region. -/
  | deallocRegion (thread : Thread) (owner : Allocator) (region : Nat)
  | freeAllMemory (thread : Thread) (owner : Allocator)
  | deallocExtraLarge (thread : Thread) (block : Mapping)
  | unmap (thread : Thread)
  | discount (thread : Thread)
  | finish (thread : Thread)

/-- The operations that `may_allocate` consists of. -/
def isInside : LimitCounter.Action Thread → Bool
  | .loadLimit _ | .loadAllocated _ | .test _ | .exchange _ _ => true
  | _ => false

/-- What the kernel promises of a mapping, next to those that there are. -/
def Fits (mappings : List Mapping) (ptr size alignment : Nat) : Prop :=
  ptr ≠ 0 ∧ ptr % alignment = 0 ∧ ptr + size ≤ usizeRange ∧
    ∀ m ∈ mappings, ptr + size ≤ m.1 ∨ m.1 + m.2 ≤ ptr

instance (mappings : List Mapping) (ptr size alignment : Nat) :
    Decidable (Fits mappings ptr size alignment) :=
  inferInstanceAs (Decidable (_ ∧ _ ∧ _ ∧ _))

/-- What is reserved for a region: `align - 1 + size` bytes, in whole pages. -/
def reservedSize : Nat := 2 * regionSize

/-- The mappings of regions. -/
def regionMappings (regions : List Nat) : List Mapping := regions.map fun r => (r, regionSize)

namespace System

/-- Nothing is mapped, and nobody has called. -/
def initial (limit : Nat) : System Allocator Thread where
  counter := .initial limit
  stage := fun _ => .idle
  regions := fun _ => []
  blocks := []
  mappings := []

variable [DecidableEq Allocator] [DecidableEq Thread]

/-- The thread moves on, and the counter has become `counter`. -/
def goTo (s : System Allocator Thread) (t : Thread) (stage : Stage Allocator)
    (counter : LimitCounter.Process Thread) : System Allocator Thread :=
  { s with stage := Function.update s.stage t stage, counter := counter }

/-- What was asked for belongs to its owner. -/
def receive (s : System Allocator Thread) (ptr : Nat) : Request Allocator → System Allocator Thread
  | .region a => { s with
      regions := Function.update s.regions a (ptr :: s.regions a)
      mappings := (ptr, regionSize) :: s.mappings }
  | .extraLarge size => { s with
      blocks := (ptr, size.val) :: s.blocks, mappings := (ptr, size.val) :: s.mappings }

/-- A region whose commit has been refused belongs to its owner as well: outside test builds
nothing looks at the answer.  What is left of its reservation cannot be read or written. -/
def receiveUncommitted (s : System Allocator Thread) (region : Nat) (a : Allocator) :
    System Allocator Thread :=
  { s with regions := Function.update s.regions a (region :: s.regions a) }

/-- Enter `may_allocate`. -/
def ask (s : System Allocator Thread) (t : Thread) (r : Request Allocator) :
    Option (System Allocator Thread) :=
  match s.stage t with
  | .idle => (s.counter.next (.call t r.size)).map (s.goTo t (.asking r))
  | _ => none

/-- One step, or `none` where the thread is not at this place of its path. -/
def next (s : System Allocator Thread) : Action Allocator Thread → Option (System Allocator Thread)
  | .setLimit limit => some { s with counter := { s.counter with limit := limit } }
  | .allocRegion t a => s.ask t (.region a)
  | .allocExtraLarge t size => s.ask t (.extraLarge size)
  | .allocRegionWithoutCountingLimit t a =>
      match s.stage t with
      | .idle => (s.counter.next (.allocateAnyWay t regionSize)).map (s.goTo t (.mapping (.region a)))
      | _ => none
  | .inside operation =>
      if isInside operation then (s.counter.next operation).map fun c => { s with counter := c }
      else none
  | .answer t =>
      match s.stage t, s.counter.phase t with
      | .asking r, .granted _ => (s.counter.next (.answer t)).map (s.goTo t (.mapping r))
      | .asking _, .refused _ => (s.counter.next (.answer t)).map (s.goTo t .idle)
      | _, _ => none
  | .kernel t reply =>
      match s.stage t with
      | .mapping (.extraLarge size) =>
          if Fits s.mappings reply size.val ThreadLocalAllocator.pageSize then
            some ((s.receive reply (.extraLarge size)).goTo t .idle s.counter)
          else some (s.goTo t (.restoring (.extraLarge size)) s.counter)
      | _ => none
  | .alignedKernel t reserved commits =>
      match s.stage t with
      | .mapping (.region a) =>
          if Fits s.mappings reserved reservedSize ThreadLocalAllocator.pageSize then
            let region := maskUp 64 regionSize reserved
            some ((if commits then s.receive region (.region a)
              else s.receiveUncommitted region a).goTo t .idle s.counter)
          else some (s.goTo t (.restoring (.region a)) s.counter)
      | _ => none
  | .restore t =>
      match s.stage t with
      | .restoring r => (s.counter.next (.markDeallocated t r.size)).map (s.goTo t .idle)
      | _ => none
  | .deallocRegion t a region =>
      match s.stage t with
      | .idle =>
          if region ∈ s.regions a then
            some ({ s with regions := Function.update s.regions a ((s.regions a).erase region) }.goTo
              t (.releasing [(region, regionSize)]) s.counter)
          else none
      | _ => none
  | .freeAllMemory t a =>
      match s.stage t with
      | .idle => some ({ s with regions := Function.update s.regions a [] }.goTo
          t (.releasing (regionMappings (s.regions a))) s.counter)
      | _ => none
  | .deallocExtraLarge t block =>
      match s.stage t with
      | .idle =>
          if block ∈ s.blocks then
            some ({ s with blocks := s.blocks.erase block }.goTo t (.releasing [block]) s.counter)
          else none
      | _ => none
  | .unmap t =>
      match s.stage t with
      | .releasing (m :: todo) =>
          some ({ s with mappings := s.mappings.erase m }.goTo t (.discounting m.2 todo) s.counter)
      | _ => none
  | .discount t =>
      match s.stage t with
      | .discounting size todo =>
          (s.counter.next (.markDeallocated t size)).map (s.goTo t (.releasing todo))
      | _ => none
  | .finish t =>
      match s.stage t with
      | .releasing [] => some (s.goTo t .idle s.counter)
      | _ => none

def Step (s : System Allocator Thread) (a : Action Allocator Thread)
    (s' : System Allocator Thread) : Prop :=
  s.next a = some s'

/-- The kernel does not refuse to commit a region that it has reserved. -/
def Commits (s : System Allocator Thread) : Action Allocator Thread → Prop
  | .alignedKernel _ reserved commits =>
      Fits s.mappings reserved reservedSize ThreadLocalAllocator.pageSize → commits = true
  | _ => True

instance (s : System Allocator Thread) (a : Action Allocator Thread) : Decidable (s.Commits a) := by
  cases a <;> unfold Commits <;> infer_instance

def CommittedStep (s : System Allocator Thread) (a : Action Allocator Thread)
    (s' : System Allocator Thread) : Prop :=
  s.Step a s' ∧ s.Commits a

/-- The committed step as a function. -/
def nextCommitted (s : System Allocator Thread) (a : Action Allocator Thread) :
    Option (System Allocator Thread) :=
  if s.Commits a then s.next a else none

theorem committedStep_of_next {s s' : System Allocator Thread} {a : Action Allocator Thread}
    (h : s.nextCommitted a = some s') : s.CommittedStep a s' := by
  unfold nextCommitted at h
  split at h
  · next hcommits => exact ⟨h, hcommits⟩
  · cases h

/-- No path is in progress. -/
def AtRest (s : System Allocator Thread) : Prop := ∀ t, s.stage t = .idle

/-- The regions of an allocator that are mapped. -/
def mappedRegions (s : System Allocator Thread) (a : Allocator) : List Nat :=
  (s.regions a).filter fun r => (r, regionSize) ∈ s.mappings

/-- The counter is the size of the regions that are mapped and of the live extra-large
blocks. -/
def CountsMapped [Fintype Allocator] (s : System Allocator Thread) : Prop :=
  s.counter.allocated =
    regionSize * ∑ a, (s.mappedRegions a).length + (s.blocks.map Prod.snd).sum

end System

/-! ## The counter -/

/-- The bytes that a call of `may_allocate` asks for. -/
def sizeOf : LimitCounter.Phase → Option Nat
  | .idle => none
  | .begun size | .limitRead size _ | .testing size _ _ | .exchanging size _ _ _ => some size
  | .granted size | .refused size => some size

/-- The bytes that it has counted already. -/
def grantedBytes : LimitCounter.Phase → Nat
  | .granted size => size
  | _ => 0

/-- The value that a compare-exchange wants to store is the sum. -/
def Sums : LimitCounter.Phase → Prop
  | .exchanging size _ allocated new => new = (allocated + size) % usizeRange
  | _ => True

section Counter

variable [DecidableEq Thread] {p q : LimitCounter.Process Thread}

/-- What an operation inside `may_allocate` does: one thread moves on in its call, and
the counter has grown by what that thread has counted. -/
structure Counts (p : LimitCounter.Process Thread) (t : Thread)
    (q : LimitCounter.Process Thread) : Prop where
  inCall : sizeOf (p.phase t) ≠ none
  others : ∀ u, u ≠ t → q.phase u = p.phase u
  size : sizeOf (q.phase t) = sizeOf (p.phase t)
  sums : Sums (q.phase t)
  lt : p.allocated < usizeRange → q.allocated < usizeRange
  allocated : (q.allocated : ZMod usizeRange) + grantedBytes (p.phase t) =
    p.allocated + grantedBytes (q.phase t)

/-- Casts forget the wrapping. -/
theorem cast_mod (n : Nat) : ((n % usizeRange : Nat) : ZMod usizeRange) = n :=
  ZMod.natCast_mod n usizeRange

theorem mod_lt_usizeRange (n : Nat) : n % usizeRange < usizeRange :=
  Nat.mod_lt n (by decide)

theorem counts_setPhase {t : Thread} {phase : LimitCounter.Phase}
    (hcall : sizeOf (p.phase t) ≠ none) (hsize : sizeOf phase = sizeOf (p.phase t)) (hsums : Sums phase)
    (hgranted : grantedBytes phase = grantedBytes (p.phase t)) : Counts p t (p.setPhase t phase) where
  inCall := hcall
  others u hu := by simp [LimitCounter.Process.setPhase, hu]
  size := by simpa [LimitCounter.Process.setPhase] using hsize
  sums := by simpa [LimitCounter.Process.setPhase] using hsums
  lt h := h
  allocated := by simp [LimitCounter.Process.setPhase, hgranted]

theorem counts_of_inside {a : LimitCounter.Action Thread} (ha : isInside a = true)
    (hnext : p.next a = some q) (hsums : ∀ t, Sums (p.phase t)) : ∃ t, Counts p t q := by
  cases a with
  | loadLimit t =>
      simp only [LimitCounter.Process.next] at hnext
      split at hnext
      · next size hphase =>
          cases hnext
          exact ⟨t, counts_setPhase (by simp [hphase, sizeOf]) (by simp [hphase, sizeOf]) trivial
              (by simp [hphase, grantedBytes])⟩
      · cases hnext
  | loadAllocated t =>
      simp only [LimitCounter.Process.next] at hnext
      split at hnext
      · next size limit hphase =>
          cases hnext
          exact ⟨t, counts_setPhase (by simp [hphase, sizeOf]) (by simp [hphase, sizeOf]) trivial
              (by simp [hphase, grantedBytes])⟩
      · cases hnext
  | test t =>
      simp only [LimitCounter.Process.next] at hnext
      split at hnext
      · next size limit allocated hphase =>
          split at hnext
          · cases hnext
            exact ⟨t, counts_setPhase (by simp [hphase, sizeOf]) (by simp [hphase, sizeOf]) trivial
              (by simp [hphase, grantedBytes])⟩
          · cases hnext
            exact ⟨t, counts_setPhase (by simp [hphase, sizeOf]) (by simp [hphase, sizeOf]) rfl
              (by simp [hphase, grantedBytes])⟩
      · cases hnext
  | exchange t spurious =>
      simp only [LimitCounter.Process.next] at hnext
      split at hnext
      · next size limit allocated new hphase =>
          split at hnext
          · next hread =>
              cases hnext
              have hnew : new = (allocated + size) % usizeRange := by simpa [hphase, Sums] using hsums t
              refine ⟨t, ?_, ?_, ?_, ?_, ?_, ?_⟩
              · simp [hphase, sizeOf]
              · intro u hu
                simp [LimitCounter.Process.setPhase, hu]
              · simp [LimitCounter.Process.setPhase, hphase, sizeOf]
              · simp [LimitCounter.Process.setPhase, Sums]
              · intro _
                exact hnew ▸ mod_lt_usizeRange _
              · simp [LimitCounter.Process.setPhase, hphase, grantedBytes, hnew, hread.1]
          · cases hnext
            exact ⟨t, counts_setPhase (by simp [hphase, sizeOf]) (by simp [hphase, sizeOf]) trivial
              (by simp [hphase, grantedBytes])⟩
      · cases hnext
  | _ => cases ha

/-- `mark_deallocated` takes bytes off the counter. -/
theorem markDeallocated_spec {p q : LimitCounter.Process Thread} {t : Thread} {size : Nat}
    (hsize : size ≤ usizeRange) (hnext : p.next (.markDeallocated t size) = some q) :
    q.phase = p.phase ∧ q.allocated < usizeRange ∧
      (q.allocated : ZMod usizeRange) + size = p.allocated := by
  simp only [LimitCounter.Process.next] at hnext
  split at hnext
  · cases hnext
    refine ⟨rfl, mod_lt_usizeRange _, ?_⟩
    dsimp only
    rw [cast_mod]
    push_cast [Nat.cast_sub hsize, ZMod.natCast_self]
    ring
  · cases hnext

end Counter

/-! ## The account -/

namespace Stage

/-- The mappings that the path has taken from their owner and not given back yet. -/
def holds : Stage Allocator → Multiset Mapping
  | .releasing todo => (todo : Multiset Mapping)
  | .discounting _ todo => (todo : Multiset Mapping)
  | _ => 0

/-- The bytes that are counted and not mapped, by a path whose call of `may_allocate` is in
this phase. -/
def pending (phase : LimitCounter.Phase) : Stage Allocator → Nat
  | .asking _ => grantedBytes phase
  | .mapping r => r.size
  | .restoring r => r.size
  | .discounting size _ => size
  | _ => 0

/-- A path is in `may_allocate` exactly when its thread is, and for the size of its request. -/
def Matches (phase : LimitCounter.Phase) : Stage Allocator → Prop
  | .asking r => sizeOf phase = some r.size
  | .discounting size _ => phase = .idle ∧ size ≤ usizeRange
  | _ => phase = .idle

end Stage

namespace System

variable [Fintype Allocator] (s : System Allocator Thread)

/-- What belongs to the allocators and to the holders of blocks. -/
def listed : Multiset Mapping :=
  ∑ a, (regionMappings (s.regions a) : Multiset Mapping) + (s.blocks : Multiset Mapping)

/-- The bytes that are mapped. -/
def mappedBytes : Nat := (s.mappings.map Prod.snd).sum

/-- The bytes that a thread has counted and not mapped, or unmapped and not discounted. -/
def pendingBytes (t : Thread) : Nat := (s.stage t).pending (s.counter.phase t)

/-- Other regions for one allocator. -/
theorem listed_setRegions [DecidableEq Allocator] (a : Allocator) (rs : List Nat) :
    ({ s with regions := Function.update s.regions a rs } : System Allocator Thread).listed +
      regionMappings (s.regions a) = s.listed + regionMappings rs := by
  have hsum := sum_exchange
    (f := fun b => (regionMappings (Function.update s.regions a rs b) : Multiset Mapping))
    (g := fun b => (regionMappings (s.regions b) : Multiset Mapping)) a
    fun b hb => by rw [Function.update_of_ne hb]
  rw [Function.update_self] at hsum
  rw [listed, listed, add_right_comm, hsum]
  abel

theorem listed_receive [DecidableEq Allocator] (ptr : Nat) (r : Request Allocator) :
    (s.receive ptr r).listed = {(ptr, r.size)} + s.listed := by
  cases r with
  | region a =>
      have hlisted := listed_setRegions s a (ptr :: s.regions a)
      have hcons : (regionMappings (ptr :: s.regions a) : Multiset Mapping) =
          {(ptr, regionSize)} + regionMappings (s.regions a) := rfl
      rw [hcons, ← add_assoc] at hlisted
      exact (add_right_cancel hlisted).trans (add_comm _ _)
  | extraLarge size =>
      have hcons : (((ptr, size.val) :: s.blocks : List Mapping) : Multiset Mapping) =
          {(ptr, size.val)} + s.blocks := rfl
      exact (congrArg (_ + ·) hcons).trans (add_left_comm _ _ _)

/-- The account of the process. -/
structure Balanced [Fintype Thread] : Prop where
  lt : s.counter.allocated < usizeRange
  sums : ∀ t, Sums (s.counter.phase t)
  matched : ∀ t, (s.stage t).Matches (s.counter.phase t)
  apart : s.mappings.Pairwise Apart
  bounds : ∀ m ∈ s.mappings, 1 ≤ m.1 ∧ m.1 + m.2 ≤ usizeRange
  owned : (s.mappings : Multiset Mapping) = s.listed + ∑ t, (s.stage t).holds
  counted : (s.counter.allocated : ZMod usizeRange) =
    s.mappedBytes + ∑ t, (s.pendingBytes t : ZMod usizeRange)

variable {s} {s' : System Allocator Thread} [Fintype Thread]

/-- What a path gives back is mapped. -/
theorem Balanced.mem_mappings (h : s.Balanced) {t : Thread} {m : Mapping}
    (hm : m ∈ (s.stage t).holds) : m ∈ s.mappings := by
  have hsum : m ∈ ∑ u, (s.stage u).holds := Multiset.mem_sum.mpr ⟨t, Finset.mem_univ t, hm⟩
  refine Multiset.mem_coe.mp ?_
  rw [h.owned]
  exact Multiset.mem_add.mpr (.inr hsum)

variable [DecidableEq Thread]

/-- What a step of one thread has to show: the thread matches again, and what it gains and
loses is what its owner, the kernel and the counter lose and gain. -/
theorem Balanced.move (h : s.Balanced) (t : Thread)
    (hothers : ∀ u, u ≠ t → s'.stage u = s.stage u ∧ s'.counter.phase u = s.counter.phase u)
    (hlt : s'.counter.allocated < usizeRange) (hsums : Sums (s'.counter.phase t))
    (hmatched : (s'.stage t).Matches (s'.counter.phase t)) (hapart : s'.mappings.Pairwise Apart)
    (hbounds : ∀ m ∈ s'.mappings, 1 ≤ m.1 ∧ m.1 + m.2 ≤ usizeRange)
    (howned : (s'.mappings : Multiset Mapping) + (s.listed + (s.stage t).holds) =
      s.mappings + (s'.listed + (s'.stage t).holds))
    (hcounted : (s'.counter.allocated : ZMod usizeRange) + (s.mappedBytes + s.pendingBytes t) =
      s.counter.allocated + (s'.mappedBytes + s'.pendingBytes t)) : s'.Balanced where
  lt := hlt
  sums u := by
    by_cases hu : u = t
    · exact hu ▸ hsums
    · rw [(hothers u hu).2]
      exact h.sums u
  matched u := by
    by_cases hu : u = t
    · exact hu ▸ hmatched
    · rw [(hothers u hu).1, (hothers u hu).2]
      exact h.matched u
  apart := hapart
  bounds := hbounds
  owned := by
    have hsum := sum_exchange (f := fun u => (s'.stage u).holds) (g := fun u => (s.stage u).holds) t
      fun u hu => by rw [(hothers u hu).1]
    have howned' := howned
    rw [h.owned] at howned'
    refine add_right_cancel (b := s.listed + (s.stage t).holds + ∑ u, (s.stage u).holds) ?_
    calc (s'.mappings : Multiset Mapping) + (s.listed + (s.stage t).holds + ∑ u, (s.stage u).holds)
        = (s'.mappings + (s.listed + (s.stage t).holds)) + ∑ u, (s.stage u).holds := by
          abel
      _ = (s.listed + ∑ u, (s.stage u).holds + (s'.listed + (s'.stage t).holds)) +
            ∑ u, (s.stage u).holds := by rw [howned']
      _ = s'.listed + (∑ u, (s.stage u).holds + (s'.stage t).holds) +
            (s.listed + ∑ u, (s.stage u).holds) := by abel
      _ = s'.listed + ∑ u, (s'.stage u).holds +
            (s.listed + (s.stage t).holds + ∑ u, (s.stage u).holds) := by
          rw [← hsum]
          abel
  counted := by
    have hsum := sum_exchange (f := fun u => (s'.pendingBytes u : ZMod usizeRange))
      (g := fun u => (s.pendingBytes u : ZMod usizeRange)) t fun u hu => by
        rw [pendingBytes, pendingBytes, (hothers u hu).1, (hothers u hu).2]
    have hcounted' := hcounted
    rw [h.counted] at hcounted'
    linear_combination hcounted' - hsum

/-- A step that maps nothing, unmaps nothing and leaves what is owned. -/
theorem Balanced.goTo (h : s.Balanced) {t : Thread} {stage : Stage Allocator}
    {counter : LimitCounter.Process Thread}
    (hothers : ∀ u, u ≠ t → counter.phase u = s.counter.phase u)
    (hlt : counter.allocated < usizeRange) (hsums : Sums (counter.phase t))
    (hmatched : stage.Matches (counter.phase t)) (hholds : stage.holds = (s.stage t).holds)
    (hcounted : (counter.allocated : ZMod usizeRange) + s.pendingBytes t =
      s.counter.allocated + stage.pending (counter.phase t)) : (s.goTo t stage counter).Balanced := by
  refine h.move t (fun u hu => ?_) hlt hsums ?_ h.apart h.bounds ?_ ?_
  · simp [System.goTo, hu, hothers u hu]
  · simpa [System.goTo] using hmatched
  · have hstage : ((s.goTo t stage counter).stage t).holds = (s.stage t).holds := by
      simp [System.goTo, hholds]
    rw [hstage]
    rfl
  · have hpending : (s.goTo t stage counter).pendingBytes t = stage.pending (counter.phase t) := by
      simp [pendingBytes, System.goTo]
    have hbytes : (s.goTo t stage counter).mappedBytes = s.mappedBytes := rfl
    rw [hpending, hbytes]
    show (counter.allocated : ZMod usizeRange) + _ = _
    linear_combination hcounted

/-- Requests leave no trace yet. -/
theorem Balanced.ask (h : s.Balanced) {t : Thread} {r : Request Allocator}
    (hnext : s.ask t r = some s') : s'.Balanced := by
  unfold System.ask at hnext
  split at hnext
  · next hstage =>
      obtain ⟨c, hc, rfl⟩ := Option.map_eq_some_iff.mp hnext
      have hphase : s.counter.phase t = .idle := by simpa [hstage, Stage.Matches] using h.matched t
      simp only [LimitCounter.Process.next, hphase, Option.some.injEq] at hc
      subst hc
      refine h.goTo (fun u hu => ?_) h.lt ?_ ?_ ?_ ?_
      · simp [LimitCounter.Process.setPhase, hu]
      · simp [LimitCounter.Process.setPhase, Sums]
      · simp [LimitCounter.Process.setPhase, Stage.Matches, sizeOf]
      · simp [Stage.holds, hstage]
      · simp [LimitCounter.Process.setPhase, Stage.pending, grantedBytes, pendingBytes, hstage]
  · cases hnext

theorem Balanced.discountTo (h : s.Balanced) {t : Thread} {size : Nat} {stage : Stage Allocator}
    {c : LimitCounter.Process Thread} (hnext : s.counter.next (.markDeallocated t size) = some c)
    (hsize : size ≤ usizeRange) (hpending : s.pendingBytes t = size)
    (hafter : stage.pending (s.counter.phase t) = 0) (hmatched : stage.Matches (s.counter.phase t))
    (hholds : stage.holds = (s.stage t).holds) : (s.goTo t stage c).Balanced := by
  obtain ⟨hphase, hlt, hallocated⟩ := markDeallocated_spec hsize hnext
  refine h.goTo (fun u _ => by rw [hphase]) hlt ?_ ?_ hholds ?_
  · rw [hphase]
    exact h.sums t
  · rwa [hphase]
  · rw [hphase, hpending, hafter]
    linear_combination hallocated

omit [Fintype Allocator] [Fintype Thread] [DecidableEq Thread] in
/-- The aligned region lies inside its reservation. -/
theorem fits_of_reserved {mappings : List Mapping} {reserved : Nat}
    (h : Fits mappings reserved reservedSize ThreadLocalAllocator.pageSize) :
    Fits mappings (maskUp 64 regionSize reserved) regionSize regionSize := by
  obtain ⟨hnull, -, hhigh, hapart⟩ := h
  have hsize : reservedSize = regionSize + regionSize := Nat.two_mul regionSize
  have hroom : reserved + 2 ^ 25 ≤ 2 ^ 64 :=
    le_trans (by rw [hsize]; exact Nat.add_le_add_left (Nat.le_add_left _ _) _) hhigh
  obtain ⟨haligned, hle, hlt⟩ := maskUp_two_pow (by decide : 25 ≤ 64) hroom
  rw [show (2 : Nat) ^ 25 = regionSize by decide] at haligned hle hlt
  refine ⟨by omega, haligned, by omega, fun m hm => ?_⟩
  have hm := hapart m hm
  omega

/-- What the kernel grants goes to its owner. -/
theorem Balanced.receive [DecidableEq Allocator] (h : s.Balanced) {t : Thread}
    {r : Request Allocator} {ptr : Nat} (hstage : s.stage t = .mapping r)
    (hfits : Fits s.mappings ptr r.size r.alignment) :
    ((s.receive ptr r).goTo t .idle s.counter).Balanced := by
  obtain ⟨hnull, -, hhigh, hapart⟩ := hfits
  have hmappings : (s.receive ptr r).mappings = (ptr, r.size) :: s.mappings := by cases r <;> rfl
  have hphase : s.counter.phase t = .idle := by simpa [hstage, Stage.Matches] using h.matched t
  refine h.move t (fun u hu => ?_) h.lt ?_ ?_ ?_ ?_ ?_ ?_
  · refine ⟨?_, rfl⟩
    cases r <;> simp [System.goTo, System.receive, hu]
  · exact h.sums t
  · simpa [System.goTo, Stage.Matches] using hphase
  · show (s.receive ptr r).mappings.Pairwise Apart
    rw [hmappings]
    exact List.pairwise_cons.mpr ⟨hapart, h.apart⟩
  · show ∀ m ∈ (s.receive ptr r).mappings, 1 ≤ m.1 ∧ m.1 + m.2 ≤ usizeRange
    rw [hmappings]
    intro m hm
    rcases List.mem_cons.mp hm with rfl | hm
    · exact ⟨Nat.one_le_iff_ne_zero.mpr hnull, hhigh⟩
    · exact h.bounds m hm
  · show ((s.receive ptr r).mappings : Multiset Mapping) + _ =
      s.mappings + ((s.receive ptr r).listed + _)
    have hcons : (((ptr, r.size) :: s.mappings : List Mapping) : Multiset Mapping) =
        {(ptr, r.size)} + s.mappings := rfl
    rw [hmappings, s.listed_receive, hcons, hstage]
    simp only [System.goTo, Function.update_self, Stage.holds, add_zero]
    abel
  · have hbytes : ((s.receive ptr r).goTo t .idle s.counter).mappedBytes =
        r.size + s.mappedBytes := by
      show ((s.receive ptr r).mappings.map Prod.snd).sum = _
      rw [hmappings]
      rfl
    have hpending : ((s.receive ptr r).goTo t .idle s.counter).pendingBytes t = 0 := by
      simp [pendingBytes, System.goTo, Stage.pending]
    have hbefore : s.pendingBytes t = r.size := by simp [pendingBytes, hstage, Stage.pending]
    rw [hbytes, hpending, hbefore]
    show (s.counter.allocated : ZMod usizeRange) + _ = _
    push_cast
    ring

/-- What the kernel refuses is still to be given back to the limit. -/
theorem Balanced.refuse (h : s.Balanced) {t : Thread} {r : Request Allocator}
    (hstage : s.stage t = .mapping r) : (s.goTo t (.restoring r) s.counter).Balanced := by
  have hphase : s.counter.phase t = .idle := by simpa [hstage, Stage.Matches] using h.matched t
  refine h.goTo (fun _ _ => rfl) h.lt (h.sums t) hphase ?_ ?_
  · rw [hstage]
    rfl
  · rw [pendingBytes, hstage]
    rfl

/-- What is to be given back leaves its owner. -/
theorem Balanced.take (h : s.Balanced) {t : Thread} {todo : List Mapping}
    {s₁ : System Allocator Thread} (hstage : s.stage t = .idle)
    (hstages : s₁.stage = s.stage) (hmappings : s₁.mappings = s.mappings)
    (hlisted : s₁.listed + (todo : Multiset Mapping) = s.listed) :
    (s₁.goTo t (.releasing todo) s.counter).Balanced := by
  have hphase : s.counter.phase t = .idle := by simpa [hstage, Stage.Matches] using h.matched t
  refine h.move t (fun u hu => ?_) h.lt (h.sums t) ?_ ?_ ?_ ?_ ?_
  · simp [System.goTo, hu, hstages]
  · simpa [System.goTo, Stage.Matches] using hphase
  · exact hmappings ▸ h.apart
  · exact hmappings ▸ h.bounds
  · have hafter : (s₁.goTo t (.releasing todo) s.counter).listed = s₁.listed := rfl
    have hkeep : (s₁.goTo t (.releasing todo) s.counter).mappings = s.mappings := hmappings
    rw [hafter, hkeep, hstage]
    simp only [System.goTo, Function.update_self, Stage.holds, hlisted, add_zero]
  · have hbytes : (s₁.goTo t (.releasing todo) s.counter).mappedBytes = s.mappedBytes :=
      congrArg (fun ms => (ms.map Prod.snd).sum) hmappings
    have hpending : (s₁.goTo t (.releasing todo) s.counter).pendingBytes t = 0 := by
      simp [pendingBytes, System.goTo, Stage.pending]
    have hbefore : s.pendingBytes t = 0 := by simp [pendingBytes, hstage, Stage.pending]
    rw [hbytes, hpending, hbefore]
    rfl

theorem Balanced.unmap (h : s.Balanced) {t : Thread} {m : Mapping} {todo : List Mapping}
    (hstage : s.stage t = .releasing (m :: todo)) :
    ({ s with mappings := s.mappings.erase m }.goTo t (.discounting m.2 todo) s.counter).Balanced := by
  have hmem : m ∈ s.mappings := h.mem_mappings (t := t) (by simp [hstage, Stage.holds])
  have hphase : s.counter.phase t = .idle := by simpa [hstage, Stage.Matches] using h.matched t
  have hperm := List.perm_cons_erase hmem
  have hbounds := h.bounds m hmem
  refine h.move t (fun u hu => ?_) h.lt (h.sums t) ?_ ?_ ?_ ?_ ?_
  · simp [System.goTo, hu]
  · have hsize : m.2 ≤ usizeRange := by omega
    simpa [System.goTo, Stage.Matches] using ⟨hphase, hsize⟩
  · exact h.apart.sublist List.erase_sublist
  · exact fun n hn => h.bounds n (List.mem_of_mem_erase hn)
  · have hafter : ({ s with mappings := s.mappings.erase m }.goTo t (.discounting m.2 todo)
        s.counter).listed = s.listed := rfl
    have hcons : (s.mappings : Multiset Mapping) = {m} + (s.mappings.erase m : List Mapping) :=
      Multiset.coe_eq_coe.mpr hperm
    have hhead : ((m :: todo : List Mapping) : Multiset Mapping) = {m} + todo := rfl
    rw [hafter, hstage, hcons]
    simp only [System.goTo, Function.update_self, Stage.holds, hhead]
    abel
  · have hbytes : s.mappedBytes = m.2 + ((s.mappings.erase m).map Prod.snd).sum := by
      rw [mappedBytes, (hperm.map Prod.snd).sum_eq]
      rfl
    have hpending : ({ s with mappings := s.mappings.erase m }.goTo t (.discounting m.2 todo)
        s.counter).pendingBytes t = m.2 := by
      simp [pendingBytes, System.goTo, Stage.pending]
    have hbefore : s.pendingBytes t = 0 := by simp [pendingBytes, hstage, Stage.pending]
    rw [hbytes, hpending, hbefore]
    show (s.counter.allocated : ZMod usizeRange) + _ =
      s.counter.allocated + ((((s.mappings.erase m).map Prod.snd).sum : Nat) + _)
    push_cast
    ring

/-- A region that does not ask the limit is counted at once. -/
theorem Balanced.countAnyWay (h : s.Balanced) {t : Thread} {a : Allocator}
    {c : LimitCounter.Process Thread} (hstage : s.stage t = .idle)
    (hc : s.counter.next (.allocateAnyWay t regionSize) = some c) :
    (s.goTo t (.mapping (.region a)) c).Balanced := by
  have hphase : s.counter.phase t = .idle := by simpa [hstage, Stage.Matches] using h.matched t
  simp only [LimitCounter.Process.next, hphase, Option.some.injEq] at hc
  subst hc
  refine h.goTo (fun _ _ => rfl) (mod_lt_usizeRange _) (h.sums t) hphase ?_ ?_
  · rw [hstage]
    rfl
  · have hbefore : s.pendingBytes t = 0 := by simp [pendingBytes, hstage, Stage.pending]
    rw [hbefore]
    dsimp only
    rw [cast_mod]
    push_cast
    exact add_zero _

/-- The operations inside `may_allocate` count for the path of their thread. -/
theorem Balanced.inside (h : s.Balanced) {operation : LimitCounter.Action Thread}
    {c : LimitCounter.Process Thread} (hinside : isInside operation)
    (hc : s.counter.next operation = some c) : ({ s with counter := c } : System _ _).Balanced := by
  obtain ⟨t, hcounts⟩ := counts_of_inside hinside hc h.sums
  -- the thread that has moved is in `may_allocate`, and so is its path
  have hmatched := h.matched t
  obtain ⟨r, hstage⟩ : ∃ r, s.stage t = .asking r := by
    cases hstage : s.stage t with
    | asking r => exact ⟨r, rfl⟩
    | discounting size todo =>
        rw [hstage] at hmatched
        exact absurd (congrArg sizeOf hmatched.1) hcounts.inCall
    | _ =>
        rw [hstage] at hmatched
        exact absurd (congrArg sizeOf hmatched) hcounts.inCall
  have hsize : sizeOf (s.counter.phase t) = some r.size := by
    rw [hstage] at hmatched
    exact hmatched
  refine h.move t (fun u hu => ⟨rfl, hcounts.others u hu⟩) (hcounts.lt h.lt) hcounts.sums
    ?_ h.apart h.bounds rfl ?_
  · have hafter : (Stage.asking r).Matches (c.phase t) := hcounts.size.trans hsize
    exact hstage ▸ hafter
  · have hbytes : ({ s with counter := c } : System Allocator Thread).mappedBytes =
        s.mappedBytes := rfl
    have hbefore : s.pendingBytes t = grantedBytes (s.counter.phase t) := by
      rw [pendingBytes, hstage]
      rfl
    have hafter : ({ s with counter := c } : System Allocator Thread).pendingBytes t =
        grantedBytes (c.phase t) := by
      simp only [pendingBytes, hstage]
      rfl
    rw [hbytes, hbefore, hafter]
    linear_combination hcounts.allocated

/-- The answer of `may_allocate` takes the path to a stage that counts the same. -/
theorem Balanced.answerTo (h : s.Balanced) {t : Thread} {c : LimitCounter.Process Thread}
    (stage : Stage Allocator) (hphase : c.phase = Function.update s.counter.phase t .idle)
    (hallocated : c.allocated = s.counter.allocated) (hmatched : stage.Matches .idle)
    (hholds : stage.holds = (s.stage t).holds)
    (hpending : s.pendingBytes t = stage.pending .idle) : (s.goTo t stage c).Balanced := by
  have hidle : c.phase t = .idle := by rw [hphase, Function.update_self]
  refine h.goTo (fun u hu => ?_) (hallocated ▸ h.lt) ?_ ?_ hholds ?_
  · rw [hphase, Function.update_of_ne hu]
  · rw [hidle]
    trivial
  · rwa [hidle]
  · rw [hidle, hpending, hallocated]

theorem Balanced.step [DecidableEq Allocator] (h : s.Balanced) {a : Action Allocator Thread}
    (hstep : s.Step a s') (hcommits : s.Commits a) : s'.Balanced := by
  have hidle : ∀ {t stage}, s.stage t = stage → stage.Matches (s.counter.phase t) :=
    fun {t stage} hstage => hstage ▸ h.matched t
  simp only [Step, next] at hstep
  cases a with
  | setLimit limit =>
      cases hstep
      exact ⟨h.lt, h.sums, h.matched, h.apart, h.bounds, h.owned, h.counted⟩
  | allocRegion t a => exact h.ask hstep
  | allocExtraLarge t size => exact h.ask hstep
  | allocRegionWithoutCountingLimit t a =>
      dsimp only at hstep
      split at hstep
      · next hstage =>
          obtain ⟨c, hc, rfl⟩ := Option.map_eq_some_iff.mp hstep
          exact h.countAnyWay hstage hc
      · cases hstep
  | inside operation =>
      dsimp only at hstep
      split at hstep
      · next hinside =>
          obtain ⟨c, hc, rfl⟩ := Option.map_eq_some_iff.mp hstep
          exact h.inside hinside hc
      · cases hstep
  | answer t =>
      dsimp only at hstep
      split at hstep
      · next r size hstage hphase =>
          obtain ⟨c, hc, rfl⟩ := Option.map_eq_some_iff.mp hstep
          have hsize : sizeOf (s.counter.phase t) = some r.size := hidle hstage
          rw [hphase] at hsize
          simp only [LimitCounter.Process.next, hphase, Option.some.injEq] at hc
          subst hc
          refine h.answerTo (.mapping r) rfl rfl rfl (by rw [hstage]; rfl) ?_
          rw [pendingBytes, hstage, hphase, Stage.pending, Stage.pending, grantedBytes,
            Option.some.inj hsize]
      · next r size hstage hphase =>
          obtain ⟨c, hc, rfl⟩ := Option.map_eq_some_iff.mp hstep
          simp only [LimitCounter.Process.next, hphase, Option.some.injEq] at hc
          subst hc
          refine h.answerTo .idle rfl rfl rfl (by rw [hstage]; rfl) ?_
          rw [pendingBytes, hstage, hphase]
          rfl
      · cases hstep
  | kernel t reply =>
      dsimp only at hstep
      split at hstep
      · next size hstage =>
          split at hstep
          · next hfits =>
              cases hstep
              exact h.receive hstage hfits
          · cases hstep
            exact h.refuse hstage
      · cases hstep
  | alignedKernel t reserved commits =>
      dsimp only at hstep
      split at hstep
      · next a hstage =>
          split at hstep
          · next hfits =>
              cases hstep
              rw [if_pos (hcommits hfits)]
              exact h.receive hstage (fits_of_reserved hfits)
          · cases hstep
            exact h.refuse hstage
      · cases hstep
  | restore t =>
      dsimp only at hstep
      split at hstep
      · next r hstage =>
          obtain ⟨c, hc, rfl⟩ := Option.map_eq_some_iff.mp hstep
          have hphase : s.counter.phase t = .idle := hidle hstage
          refine h.discountTo hc r.size_lt.le ?_ rfl hphase ?_
          · rw [pendingBytes, hstage]
            rfl
          · rw [hstage]
            rfl
      · cases hstep
  | deallocRegion t a region =>
      dsimp only at hstep
      split at hstep
      · next hstage =>
          split at hstep
          · next hmem =>
              cases hstep
              refine h.take hstage rfl rfl ?_
              have hlisted := s.listed_setRegions a ((s.regions a).erase region)
              have hperm : (regionMappings (s.regions a) : Multiset Mapping) =
                  {(region, regionSize)} + regionMappings ((s.regions a).erase region) :=
                Multiset.coe_eq_coe.mpr ((List.perm_cons_erase hmem).map _)
              rw [hperm, ← add_assoc] at hlisted
              exact add_right_cancel hlisted
          · cases hstep
      · cases hstep
  | freeAllMemory t a =>
      dsimp only at hstep
      split at hstep
      · next hstage =>
          cases hstep
          refine h.take hstage rfl rfl ?_
          exact (s.listed_setRegions a []).trans (add_zero _)
      · cases hstep
  | deallocExtraLarge t block =>
      dsimp only at hstep
      split at hstep
      · next hstage =>
          split at hstep
          · next hmem =>
              cases hstep
              refine h.take hstage rfl rfl ?_
              have hperm : (s.blocks : Multiset Mapping) =
                  {block} + (s.blocks.erase block : List Mapping) :=
                Multiset.coe_eq_coe.mpr (List.perm_cons_erase hmem)
              rw [listed, listed, hperm, add_comm ({block} : Multiset Mapping)]
              exact add_assoc _ _ _
          · cases hstep
      · cases hstep
  | unmap t =>
      dsimp only at hstep
      split at hstep
      · next m todo hstage =>
          cases hstep
          exact h.unmap hstage
      · cases hstep
  | discount t =>
      dsimp only at hstep
      split at hstep
      · next size todo hstage =>
          obtain ⟨c, hc, rfl⟩ := Option.map_eq_some_iff.mp hstep
          obtain ⟨hphase, hsize⟩ : _ ∧ size ≤ usizeRange := hidle hstage
          refine h.discountTo hc hsize ?_ rfl hphase ?_
          · rw [pendingBytes, hstage]
            rfl
          · rw [hstage]
            rfl
      · cases hstep
  | finish t =>
      dsimp only at hstep
      split at hstep
      · next hstage =>
          cases hstep
          have hphase : s.counter.phase t = .idle := hidle hstage
          refine h.goTo (fun _ _ => rfl) h.lt (h.sums t) hphase ?_ ?_
          · rw [hstage]
            rfl
          · rw [pendingBytes, hstage]
            rfl
      · cases hstep

omit [DecidableEq Thread] in
theorem balanced_initial [DecidableEq Allocator] (limit : Nat) :
    (initial limit : System Allocator Thread).Balanced where
  lt := by
    have h : 0 < usizeRange := by decide
    exact h
  sums _ := trivial
  matched _ := rfl
  apart := .nil
  bounds := by simp [initial]
  owned := by simp [initial, listed, regionMappings, Stage.holds]
  counted := by simp [initial, LimitCounter.Process.initial, mappedBytes, pendingBytes, Stage.pending]

theorem balanced_of_run [DecidableEq Allocator] {limit : Nat} {actions : List (Action Allocator Thread)}
    (hrun : Run CommittedStep (initial limit : System Allocator Thread) actions s) : s.Balanced :=
  hrun.invariant (I := fun s => s.Balanced) (fun _ _ _ h hstep => h.step hstep.1 hstep.2)
    (balanced_initial limit)

omit [DecidableEq Thread] in
/-- The mappings leave the null page out. -/
theorem Balanced.mappedBytes_lt (h : s.Balanced) : s.mappedBytes < usizeRange := by
  have hsum : s.mappedBytes ≤ usizeRange - 1 := sum_length_le h.apart (fun m hm => (h.bounds m hm).1)
    fun m hm => (h.bounds m hm).2
  have hpos : 0 < usizeRange := by decide
  omega

/-- The bytes of the regions and of the blocks. -/
def ownedBytes (s : System Allocator Thread) : Nat :=
  regionSize * ∑ a, (s.regions a).length + (s.blocks.map Prod.snd).sum

omit [Fintype Thread] [DecidableEq Thread] in
theorem sum_listed (s : System Allocator Thread) : (s.listed.map Prod.snd).sum = s.ownedBytes := by
  have hregions : ∀ a, ((regionMappings (s.regions a) : Multiset Mapping).map Prod.snd).sum =
      regionSize * (s.regions a).length := by
    intro a
    have hall : (regionMappings (s.regions a)).map Prod.snd =
        List.replicate (s.regions a).length regionSize := by
      rw [regionMappings, List.map_map]
      exact List.map_const
    rw [Multiset.map_coe, Multiset.sum_coe, hall, List.sum_replicate, smul_eq_mul, mul_comm]
  have hsum := map_sum (Multiset.sumAddMonoidHom.comp (Multiset.mapAddMonoidHom Prod.snd))
    (fun a => (regionMappings (s.regions a) : Multiset Mapping)) Finset.univ
  rw [listed, Multiset.map_add, Multiset.sum_add, ownedBytes, Finset.mul_sum]
  exact congrArg₂ _ (hsum.trans (Finset.sum_congr rfl fun a _ => hregions a)) rfl

omit [Fintype Thread] [DecidableEq Thread] in
/-- If what is owned is what is mapped, every region is mapped. -/
theorem mappedRegions_eq (howned : (s.mappings : Multiset Mapping) = s.listed) (a : Allocator) :
    s.mappedRegions a = s.regions a := by
  refine List.filter_eq_self.mpr fun r hr => decide_eq_true ?_
  have hmem : (r, regionSize) ∈ s.listed := by
    refine Multiset.mem_add.mpr (.inl (Multiset.mem_sum.mpr ⟨a, Finset.mem_univ a, ?_⟩))
    exact Multiset.mem_coe.mpr (List.mem_map.mpr ⟨r, hr, rfl⟩)
  rw [← howned] at hmem
  exact Multiset.mem_coe.mp hmem

/-- In every run in which no commit is refused, the counter is the size of what is mapped and
of what the paths in progress have counted and not mapped, or unmapped and not discounted.
When no path is in progress it is the size of the regions and of the extra-large blocks, and
those are what is mapped. -/
theorem allocated_eq_of_run [DecidableEq Allocator] {limit : Nat}
    {actions : List (Action Allocator Thread)}
    (hrun : Run CommittedStep (initial limit : System Allocator Thread) actions s) :
    s.counter.allocated ≡ s.mappedBytes + ∑ t, s.pendingBytes t [MOD usizeRange] ∧
      (s.AtRest → s.CountsMapped ∧ (∀ a, s.mappedRegions a = s.regions a) ∧
        (s.mappings : Multiset Mapping) = ∑ a, (regionMappings (s.regions a) : Multiset Mapping) +
          (s.blocks : Multiset Mapping)) := by
  have h := balanced_of_run hrun
  have hmod : s.counter.allocated ≡ s.mappedBytes + ∑ t, s.pendingBytes t [MOD usizeRange] := by
    rw [← ZMod.natCast_eq_natCast_iff, Nat.cast_add, Nat.cast_sum]
    exact h.counted
  refine ⟨hmod, fun hrest => ?_⟩
  have hpending : ∑ t, s.pendingBytes t = 0 := Finset.sum_eq_zero fun t _ => by
    simp [pendingBytes, hrest t, Stage.pending]
  have hholds : ∑ t, (s.stage t).holds = 0 := Finset.sum_eq_zero fun t _ => by
    simp [hrest t, Stage.holds]
  have howned := h.owned
  rw [hholds, add_zero] at howned
  rw [hpending, add_zero] at hmod
  have hmapped : ∀ a, s.mappedRegions a = s.regions a := mappedRegions_eq howned
  refine ⟨?_, hmapped, howned⟩
  have hexact := Nat.ModEq.eq_of_lt_of_lt hmod h.lt h.mappedBytes_lt
  have hbytes : s.mappedBytes = s.ownedBytes := by
    rw [← sum_listed, ← howned]
    rfl
  unfold CountsMapped
  simp only [hmapped]
  exact hexact.trans hbytes

/-- A refused commit: the region is handed out and counted, and it is not mapped. -/
def uncommittedActions : List (Action Unit Unit) :=
  [.allocRegionWithoutCountingLimit () (), .alignedKernel () 0x101000 false]

theorem uncommittedActions_isSome :
    (uncommittedActions.foldlM next (initial (usizeRange - 1))).isSome = true := by
  decide +kernel

theorem not_countsMapped_of_refusedCommit :
    ¬ ∀ limit actions (s : System Unit Unit), Run Step (initial limit) actions s → s.AtRest →
      s.CountsMapped := by
  intro h
  have hrest : AtRest ((uncommittedActions.foldlM next (initial (usizeRange - 1))).get
      uncommittedActions_isSome) := fun _ => rfl
  have hcounts := h _ _ _
    (Run.of_foldlM (fun _ _ _ h => h) (Option.some_get uncommittedActions_isSome).symm) hrest
  have hnot : ¬ CountsMapped ((uncommittedActions.foldlM next (initial (usizeRange - 1))).get
      uncommittedActions_isSome) := by
    unfold CountsMapped
    decide +kernel
  exact hnot hcounts

/-! ## A busy process -/

/-- One thread gets a region while another asks for an extra-large block, loses its first
exchange and is then refused by the kernel; it maps a region past the limit instead.  The
destructor gives the first region back. -/
def trafficActions : List (Action Bool Bool) :=
  [.allocRegion false false, .allocExtraLarge true ⟨131072, by decide⟩, .inside (.loadLimit false),
    .inside (.loadLimit true), .inside (.loadAllocated true), .inside (.loadAllocated false),
    .inside (.test false), .inside (.test true), .inside (.exchange false false),
    .inside (.exchange true false), .inside (.test true), .inside (.exchange true false),
    .answer true, .kernel true 0, .answer false, .alignedKernel false 1052672 true, .restore true,
    .allocRegionWithoutCountingLimit true true, .freeAllMemory false false, .unmap false,
    .alignedKernel true 67108864 true, .discount false, .finish false]

theorem trafficActions_isSome :
    (trafficActions.foldlM nextCommitted (initial 40000000)).isSome = true := by
  decide +kernel

/-- The process it ends in. -/
def traffic : System Bool Bool :=
  (trafficActions.foldlM nextCommitted (initial 40000000)).get trafficActions_isSome

theorem traffic_allocated : traffic.counter.allocated = 33554432 := by
  have h := allocated_eq_of_run
    (Run.of_foldlM (fun _ _ _ => committedStep_of_next) (Option.some_get trafficActions_isSome).symm)
  have hrest : traffic.AtRest := fun t => by cases t <;> rfl
  exact (h.2 hrest).1.trans (by decide +kernel)

/-! ## The sequential functions -/

/-- The process as the operating system of one thread, which stands at some stage and is not
inside `may_allocate`. -/
structure Agrees (s : System Allocator Thread) (t : Thread) (stage : Stage Allocator) (os : Os) :
    Prop where
  stage : s.stage t = stage
  phase : s.counter.phase t = .idle
  limit : s.counter.limit = os.limit
  allocated : s.counter.allocated = os.allocated
  mappings : s.mappings = os.mappings

/-- One state leads to another. -/
def Reaches [DecidableEq Allocator] (s s' : System Allocator Thread) : Prop :=
  ∃ actions, Run Step s actions s'

section Alone

variable [DecidableEq Allocator] {t : Thread} {os : Os} {r : Request Allocator}

omit [Fintype Allocator] [Fintype Thread] in
theorem Reaches.trans {s₁ s₂ s₃ : System Allocator Thread} (h : s₁.Reaches s₂)
    (h' : s₂.Reaches s₃) : s₁.Reaches s₃ := by
  obtain ⟨first, hfirst⟩ := h
  obtain ⟨second, hsecond⟩ := h'
  exact ⟨first ++ second, hfirst.append hsecond⟩

omit [Fintype Allocator] [Fintype Thread] [DecidableEq Thread] [DecidableEq Allocator] in
theorem Agrees.of_eq {stage : Stage Allocator} {os' : Os} (h : Agrees s t stage os)
    (hlimit : os'.limit = os.limit) (hallocated : os'.allocated = os.allocated)
    (hmappings : os'.mappings = os.mappings) : Agrees s t stage os' :=
  ⟨h.stage, h.phase, h.limit.trans hlimit.symm, h.allocated.trans hallocated.symm,
    h.mappings.trans hmappings.symm⟩

omit [Fintype Allocator] [Fintype Thread] in
/-- Run alone, `may_allocate` counts the bytes if they fit under the limit. -/
theorem Agrees.ask (h : Agrees s t .idle os) (first : Action Allocator Thread)
    (hfirst : s.next first = s.ask t r) :
    (∃ os' s', os.mayAllocate r.size = (true, os') ∧ s.Reaches s' ∧ Agrees s' t (.mapping r) os') ∨
      ∃ os' s', os.mayAllocate r.size = (false, os') ∧ s.Reaches s' ∧ Agrees s' t .idle os' := by
  obtain ⟨hstage, hphase, hlimit, hallocated, hmappings⟩ := h
  by_cases hover : (os.allocated + r.size) % usizeRange > os.limit
  · have hrun : ∃ s', ([first, .inside (.loadLimit t), .inside (.loadAllocated t),
        .inside (.test t), .answer t].foldlM next s) = some s' ∧ Agrees s' t .idle os := by
      rw [List.foldlM_cons, hfirst]
      simp [System.ask, hstage, hphase, next, isInside, LimitCounter.Process.next,
        LimitCounter.Process.setPhase, System.goTo, hlimit, hallocated, hover]
      exact ⟨by simp, by simp, rfl, rfl, hmappings⟩
    obtain ⟨s', hs', hagrees⟩ := hrun
    refine .inr ⟨(os.mayAllocate r.size).2, s', ?_, ⟨_, Run.of_foldlM (fun _ _ _ h => h) hs'⟩, ?_⟩
    · simp only [Os.mayAllocate, if_pos hover]
    · simp only [Os.mayAllocate, if_pos hover]
      exact hagrees.of_eq rfl rfl rfl
  · have hrun : ∃ s', ([first, .inside (.loadLimit t), .inside (.loadAllocated t),
        .inside (.test t), .inside (.exchange t false), .answer t].foldlM next s) = some s' ∧
        Agrees s' t (.mapping r)
          { os with allocated := (os.allocated + r.size) % usizeRange } := by
      rw [List.foldlM_cons, hfirst]
      simp [System.ask, hstage, hphase, next, isInside, LimitCounter.Process.next,
        LimitCounter.Process.setPhase, System.goTo, hlimit, hallocated, hover]
      exact ⟨by simp, by simp, rfl, rfl, hmappings⟩
    obtain ⟨s', hs', hagrees⟩ := hrun
    refine .inl ⟨(os.mayAllocate r.size).2, s', ?_, ⟨_, Run.of_foldlM (fun _ _ _ h => h) hs'⟩, ?_⟩
    · simp only [Os.mayAllocate, if_neg hover]
    · simp only [Os.mayAllocate, if_neg hover]
      exact hagrees.of_eq rfl rfl rfl

omit [Fintype Allocator] [Fintype Thread] [DecidableEq Allocator] in
/-- Nothing but the stage changes. -/
theorem Agrees.goTo {stage next : Stage Allocator} (h : Agrees s t stage os) :
    Agrees (s.goTo t next s.counter) t next os :=
  ⟨Function.update_self .., h.phase, h.limit, h.allocated, h.mappings⟩

omit [Fintype Allocator] [Fintype Thread] in
/-- What the kernel grants. -/
theorem Agrees.receive {stage : Stage Allocator} (h : Agrees s t stage os) (answer : Nat)
    (r : Request Allocator) :
    Agrees ((s.receive answer r).goTo t .idle s.counter) t .idle
      { os with mappings := (answer, r.size) :: os.mappings } := by
  refine ⟨by simp [System.goTo], h.phase, h.limit, h.allocated, ?_⟩
  cases r <;> exact congrArg _ h.mappings

omit [Fintype Allocator] [Fintype Thread] in
/-- What a refusal of the kernel restores. -/
theorem Agrees.restore (h : Agrees s t (.restoring r) os) :
    ∃ s', s.Reaches s' ∧ Agrees s' t .idle (os.markDeallocated r.size) := by
  have hnext : s.next (.restore t) =
      (s.counter.next (.markDeallocated t r.size)).map (s.goTo t .idle) := by
    simp only [next, h.stage]
  simp only [LimitCounter.Process.next, h.phase, Option.map_some] at hnext
  refine ⟨_, ⟨[.restore t], .cons hnext (.nil _)⟩, by simp [System.goTo], h.phase, h.limit, ?_,
    h.mappings⟩
  exact congrArg (fun n => (n + (usizeRange - r.size)) % usizeRange) h.allocated

omit [Fintype Allocator] [Fintype Thread] in
/-- What follows a refusal of the kernel. -/
theorem Agrees.refuse (h : Agrees s t (.mapping r) os) (action : Action Allocator Thread)
    (hrefused : s.next action = some (s.goTo t (.restoring r) s.counter)) :
    ∃ s', s.Reaches s' ∧
      Agrees s' t .idle ((os.record (.refused r.size)).markDeallocated r.size) := by
  have hagrees : Agrees (s.goTo t (.restoring r) s.counter) t (.restoring r)
      (os.record (.refused r.size)) := h.goTo.of_eq rfl rfl rfl
  obtain ⟨s', hreaches, hafter⟩ := hagrees.restore
  exact ⟨s', Reaches.trans ⟨[_], .cons hrefused (.nil _)⟩ hreaches, hafter⟩

omit [Fintype Allocator] [Fintype Thread] in
/-- The answer of the kernel to an extra-large request, and what a refusal restores. -/
theorem Agrees.kernel {size : Fin usizeRange} (h : Agrees s t (.mapping (.extraLarge size)) os)
    (answer : Nat) :
    ∃ s', s.Reaches s' ∧ Agrees s' t .idle
      (match os.mmap answer size.val ThreadLocalAllocator.pageSize with
        | (some _, os') => os'
        | (none, os') => os'.markDeallocated size.val) := by
  by_cases hfits : os.Fresh answer size.val ThreadLocalAllocator.pageSize
  · have hfits' : Fits s.mappings answer size.val ThreadLocalAllocator.pageSize :=
      h.mappings ▸ hfits
    have hstep : s.Step (.kernel t answer)
        ((s.receive answer (.extraLarge size)).goTo t .idle s.counter) := by
      simp only [Step, next, h.stage, if_pos hfits']
    refine ⟨_, ⟨[_], .cons hstep (.nil _)⟩, ?_⟩
    simp only [Os.mmap, if_pos hfits]
    exact (h.receive answer (.extraLarge size)).of_eq rfl rfl rfl
  · have hfits' : ¬ Fits s.mappings answer size.val ThreadLocalAllocator.pageSize :=
      h.mappings ▸ hfits
    obtain ⟨s', hreaches, hagrees⟩ := h.refuse (.kernel t answer)
      (by simp only [next, h.stage, if_neg hfits'])
    refine ⟨s', hreaches, ?_⟩
    simp only [Os.mmap, if_neg hfits]
    exact hagrees

/-- The address that stands for both answers to `alloc_aligned_from_os`: if a region can be
there, it is the aligned one of a reservation that the kernel can grant. -/
def OfReservation (os : Os) (answer : Nat) : Prop :=
  os.Fresh answer regionSize regionSize → ∃ reserved,
    os.Fresh reserved reservedSize ThreadLocalAllocator.pageSize ∧
      maskUp 64 regionSize reserved = answer

theorem OfReservation.of_eq {os' : Os} {answer : Nat} (h : OfReservation os answer)
    (hmappings : os'.mappings = os.mappings) : OfReservation os' answer := by
  unfold OfReservation Os.Fresh at h ⊢
  rwa [hmappings]

theorem mappings_mayAllocate (os : Os) (size : Nat) :
    (os.mayAllocate size).2.mappings = os.mappings := by
  unfold Os.mayAllocate
  dsimp only
  split
  · rfl
  · rfl

omit [Fintype Allocator] [Fintype Thread] in
/-- `alloc_region_`, once the bytes are counted, when no commit is refused. -/
theorem Agrees.allocRegion_ {a : Allocator} (h : Agrees s t (.mapping (.region a)) os)
    {answer : Nat} (hreserved : OfReservation os answer) :
    ∃ s', s.Reaches s' ∧ Agrees s' t .idle (os.allocRegion_ answer).2 := by
  by_cases hfits : os.Fresh answer regionSize regionSize
  · obtain ⟨reserved, hfresh, hmask⟩ := hreserved hfits
    have hfits' : Fits s.mappings reserved reservedSize ThreadLocalAllocator.pageSize :=
      h.mappings ▸ hfresh
    have hstep : s.Step (.alignedKernel t reserved true)
        ((s.receive answer (.region a)).goTo t .idle s.counter) := by
      simp only [Step, next, h.stage, if_pos hfits', if_true, hmask]
    refine ⟨_, ⟨[_], .cons hstep (.nil _)⟩, ?_⟩
    simp only [Os.allocRegion_, Os.mmap, if_pos hfits]
    exact (h.receive answer (.region a)).of_eq rfl rfl rfl
  · have hnull : ¬ Fits s.mappings 0 reservedSize ThreadLocalAllocator.pageSize := fun h => h.1 rfl
    obtain ⟨s', hreaches, hagrees⟩ := h.refuse (.alignedKernel t 0 false)
      (by simp only [next, h.stage, if_neg hnull])
    refine ⟨s', hreaches, ?_⟩
    simp only [Os.allocRegion_, Os.mmap, if_neg hfits]
    exact hagrees

omit [Fintype Allocator] [Fintype Thread] [DecidableEq Thread] [DecidableEq Allocator] in
/-- A reply that no other thread comes with. -/
theorem Agrees.takeReply {stage : Stage Allocator} (h : Agrees s t stage os)
    (hquiet : os.takeReply.2.allocated = os.allocated) : Agrees s t stage os.takeReply.2 := by
  refine h.of_eq ?_ hquiet ?_
  · cases hreplies : os.replies <;> simp [Os.takeReply, hreplies]
  · cases hreplies : os.replies <;> simp [Os.takeReply, hreplies]

omit [Fintype Allocator] [Fintype Thread] [DecidableEq Allocator] in
/-- `allocate_any_way`. -/
theorem Agrees.count {stage : Stage Allocator} (h : Agrees s t stage os) (size : Nat)
    (next : Stage Allocator) :
    Agrees (s.goTo t next { s.counter with
      allocated := (s.counter.allocated + size) % usizeRange
      log := .added t size :: s.counter.log }) t next (os.allocateAnyWay size) where
  stage := Function.update_self ..
  phase := h.phase
  limit := h.limit
  allocated := congrArg (fun n => (n + size) % usizeRange) h.allocated
  mappings := h.mappings

omit [Fintype Allocator] [Fintype Thread] [DecidableEq Thread] [DecidableEq Allocator] in
theorem allocRegion_true (os : Os) : (os.allocRegion true).2 =
    (match os.takeReply.2.mayAllocate regionSize with
      | (false, os₂) => os₂.record (.refused regionSize)
      | (true, os₂) => (os₂.allocRegion_ os.takeReply.1).2) := by
  unfold Os.allocRegion
  dsimp only
  rw [if_pos rfl]
  generalize os.takeReply.2.mayAllocate regionSize = reply
  obtain ⟨granted, os₂⟩ := reply
  cases granted <;> rfl

omit [Fintype Allocator] [Fintype Thread] in
/-- `alloc_region` and `alloc_region_without_counting_limit`, when nobody else moves the
counter and no commit is refused. -/
theorem Agrees.allocRegion (h : Agrees s t .idle os) (a : Allocator) (withCountingLimit : Bool)
    (hquiet : os.takeReply.2.allocated = os.allocated)
    (hreserved : OfReservation os.takeReply.2 os.takeReply.1) :
    ∃ s', s.Reaches s' ∧ Agrees s' t .idle (os.allocRegion withCountingLimit).2 := by
  have hreply := h.takeReply hquiet
  cases withCountingLimit with
  | true =>
      rw [allocRegion_true]
      rcases hreply.ask (r := .region a) (.allocRegion t a) rfl with
        ⟨os', s₁, hmay, hask, hagrees⟩ | ⟨os', s₁, hmay, hask, hagrees⟩
      · have hmay' : os.takeReply.2.mayAllocate regionSize = (true, os') := hmay
        have hmappings := mappings_mayAllocate os.takeReply.2 regionSize
        rw [hmay'] at hmappings
        obtain ⟨s', hmap, hmapped⟩ := hagrees.allocRegion_ (hreserved.of_eq hmappings)
        rw [hmay']
        exact ⟨s', hask.trans hmap, hmapped⟩
      · have hmay' : os.takeReply.2.mayAllocate regionSize = (false, os') := hmay
        rw [hmay']
        exact ⟨s₁, hask, hagrees.of_eq rfl rfl rfl⟩
  | false =>
      have hstep : s.Step (.allocRegionWithoutCountingLimit t a)
          (s.goTo t (.mapping (.region a)) { s.counter with
            allocated := (s.counter.allocated + regionSize) % usizeRange
            log := .added t regionSize :: s.counter.log }) := by
        simp only [Step, next, hreply.stage, LimitCounter.Process.next, hreply.phase,
          Option.map_some]
      have hagrees := hreply.count regionSize (.mapping (.region a))
      have hmappings : (os.takeReply.2.allocateAnyWay regionSize).mappings =
          os.takeReply.2.mappings := Os.mappings_access ..
      obtain ⟨s', hmap, hmapped⟩ := hagrees.allocRegion_ (hreserved.of_eq hmappings)
      have hfalse : (os.allocRegion false).2 =
          ((os.takeReply.2.allocateAnyWay regionSize).allocRegion_ os.takeReply.1).2 := by
        unfold Os.allocRegion
        dsimp only
        rw [if_neg Bool.false_ne_true]
      exact ⟨s', Reaches.trans ⟨[_], .cons hstep (.nil _)⟩ hmap, hfalse ▸ hmapped⟩

omit [Fintype Allocator] [Fintype Thread] [DecidableEq Thread] [DecidableEq Allocator] in
theorem mapExtraLarge_os (size : Nat) (os : Os) :
    (ThreadLocalAllocator.mapExtraLarge size os).2.2 =
      (match os.takeReply.2.mayAllocate size with
        | (false, os₂) => os₂.record (.refused size)
        | (true, os₂) =>
            match os₂.mmap os.takeReply.1 size ThreadLocalAllocator.pageSize with
            | (some _, os₃) => os₃
            | (none, os₃) => os₃.markDeallocated size) := by
  unfold ThreadLocalAllocator.mapExtraLarge
  dsimp only
  generalize os.takeReply.2.mayAllocate size = reply
  obtain ⟨granted, os₂⟩ := reply
  cases granted with
  | false => rfl
  | true =>
      dsimp only
      generalize os₂.mmap os.takeReply.1 size ThreadLocalAllocator.pageSize = answer
      obtain ⟨ptr, os₃⟩ := answer
      cases ptr <;> rfl

omit [Fintype Allocator] [Fintype Thread] in
/-- `alloc_extra_large`, as far as the memory goes. -/
theorem Agrees.mapExtraLarge (h : Agrees s t .idle os) (size : Fin usizeRange)
    (hquiet : os.takeReply.2.allocated = os.allocated) :
    ∃ s', s.Reaches s' ∧
      Agrees s' t .idle (ThreadLocalAllocator.mapExtraLarge size.val os).2.2 := by
  rw [mapExtraLarge_os]
  rcases (h.takeReply hquiet).ask (r := .extraLarge size) (.allocExtraLarge t size) rfl with
    ⟨os', s₁, hmay, hask, hagrees⟩ | ⟨os', s₁, hmay, hask, hagrees⟩
  · obtain ⟨s', hmap, hmapped⟩ := hagrees.kernel os.takeReply.1
    have hmay' : os.takeReply.2.mayAllocate size.val = (true, os') := hmay
    rw [hmay']
    exact ⟨s', hask.trans hmap, hmapped⟩
  · have hmay' : os.takeReply.2.mayAllocate size.val = (false, os') := hmay
    rw [hmay']
    exact ⟨s₁, hask, hagrees.of_eq rfl rfl rfl⟩

omit [Fintype Allocator] [Fintype Thread] in
/-- The end of a path that gives one mapping back. -/
theorem Agrees.release {m : Mapping} (h : Agrees s t (.releasing [m]) os) :
    ∃ s', s.Reaches s' ∧ Agrees s' t .idle ((os.munmap m.1 m.2).markDeallocated m.2) := by
  obtain ⟨hstage, hphase, hlimit, hallocated, hmappings⟩ := h
  have hrun : ∃ s', ([.unmap t, .discount t, .finish t].foldlM next s) = some s' ∧
      Agrees s' t .idle ((os.munmap m.1 m.2).markDeallocated m.2) := by
    simp [next, hstage, System.goTo, LimitCounter.Process.next, hphase]
    exact ⟨by simp, hphase, hlimit,
      congrArg (fun n => (n + (usizeRange - m.2)) % usizeRange) hallocated,
      congrArg (fun ms => ms.erase m) hmappings⟩
  obtain ⟨s', hs', hagrees⟩ := hrun
  exact ⟨s', ⟨_, Run.of_foldlM (fun _ _ _ h => h) hs'⟩, hagrees⟩

omit [Fintype Allocator] [Fintype Thread] in
/-- `dealloc_region`, for a region that an allocator has. -/
theorem Agrees.deallocRegion (h : Agrees s t .idle os) {a : Allocator} {region : Nat}
    (hregion : region ∈ s.regions a) :
    ∃ s', s.Reaches s' ∧ Agrees s' t .idle (os.deallocRegion region) := by
  have hstep : s.Step (.deallocRegion t a region)
      (({ s with regions := Function.update s.regions a ((s.regions a).erase region) } :
        System Allocator Thread).goTo t (.releasing [(region, regionSize)]) s.counter) := by
    simp only [Step, next, h.stage, if_pos hregion]
  have hagrees : Agrees (({ s with regions := Function.update s.regions a ((s.regions a).erase region) } :
      System Allocator Thread).goTo t (.releasing [(region, regionSize)]) s.counter) t
        (.releasing [(region, regionSize)]) os :=
    ⟨by simp [System.goTo], h.phase, h.limit, h.allocated, h.mappings⟩
  obtain ⟨s', hreleased, hafter⟩ := hagrees.release
  exact ⟨s', Reaches.trans ⟨[_], .cons hstep (.nil _)⟩ hreleased, hafter⟩

omit [Fintype Allocator] [Fintype Thread] in
/-- The memory side of `dealloc_extra_large`, for a block that is live. -/
theorem Agrees.deallocExtraLarge (h : Agrees s t .idle os) {m : Mapping} (hblock : m ∈ s.blocks) :
    ∃ s', s.Reaches s' ∧ Agrees s' t .idle ((os.munmap m.1 m.2).markDeallocated m.2) := by
  have hstep : s.Step (.deallocExtraLarge t m)
      (({ s with blocks := s.blocks.erase m } : System Allocator Thread).goTo t (.releasing [m])
        s.counter) := by
    simp only [Step, next, h.stage, if_pos hblock]
  have hagrees : Agrees (({ s with blocks := s.blocks.erase m } : System Allocator Thread).goTo t
      (.releasing [m]) s.counter) t (.releasing [m]) os :=
    ⟨by simp [System.goTo], h.phase, h.limit, h.allocated, h.mappings⟩
  obtain ⟨s', hreleased, hafter⟩ := hagrees.release
  exact ⟨s', Reaches.trans ⟨[_], .cons hstep (.nil _)⟩ hreleased, hafter⟩

end Alone

end System

end Memalart.MappedMemory
