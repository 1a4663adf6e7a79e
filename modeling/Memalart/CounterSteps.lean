/-
# What a call does to the counter

The counter behind the limit changes in a few functions of the operating system only, and
each of them records its access.  So whatever function of the allocator runs, and whether
it returns or stops, the counter goes from its old to its new value by the accesses that
the run has recorded.
-/

import Memalart.Allocator

namespace Memalart

open Memalart.Lib Machine

namespace Os

instance : IsPreorder Os Counted where
  refl := Counted.refl
  trans _ _ _ h h' := h.trans h'

variable (os : Os)

theorem counted_takeReply : os.Counted os.takeReply.2 := by
  unfold takeReply
  split
  · exact .refl os
  · exact (Counted.access (.moved _ _ (Nat.mod_lt _ (by decide)))).trans (.of_eq rfl rfl)

theorem counted_mayAllocate (size : Nat) : os.Counted (os.mayAllocate size).2 := by
  unfold mayAllocate
  dsimp only
  split
  · next hover => exact .access (.refused _ _ _ hover)
  · next hfits =>
      refine .access (.granted _ _ _ fun l hl => ?_)
      obtain rfl := Option.some.inj hl
      exact Nat.not_lt.mp hfits

theorem counted_allocateAnyWay (size : Nat) : os.Counted (os.allocateAnyWay size) :=
  .access (.granted _ _ _ (by simp))

theorem counted_markDeallocated (size : Nat) : os.Counted (os.markDeallocated size) :=
  .access (.discounted _ _)

theorem counted_mmap (answer size alignment : Nat) :
    os.Counted (os.mmap answer size alignment).2 := by
  unfold mmap
  split
  · exact .of_eq rfl rfl
  · exact .of_eq rfl rfl

theorem counted_allocRegion_ (answer : Nat) : os.Counted (os.allocRegion_ answer).2 := by
  have hmap := os.counted_mmap answer regionSize regionSize
  unfold allocRegion_
  cases hanswer : os.mmap answer regionSize regionSize with
  | mk ptr os' =>
      rw [hanswer] at hmap
      cases ptr with
      | none => exact hmap.trans (counted_markDeallocated _ _)
      | some region => exact hmap.trans (.of_eq rfl rfl)

theorem counted_allocRegion (withCountingLimit : Bool) :
    os.Counted (os.allocRegion withCountingLimit).2 := by
  have hreply := os.counted_takeReply
  cases withCountingLimit with
  | true =>
      have hmay := os.takeReply.2.counted_mayAllocate regionSize
      unfold allocRegion
      dsimp only
      rw [if_pos rfl]
      cases hanswer : os.takeReply.2.mayAllocate regionSize with
      | mk granted os' =>
          rw [hanswer] at hmay
          cases granted with
          | false => exact (hreply.trans hmay).trans (.of_eq rfl rfl)
          | true => exact (hreply.trans hmay).trans (counted_allocRegion_ _ _)
  | false =>
      unfold allocRegion
      dsimp only
      rw [if_neg Bool.false_ne_true]
      exact (hreply.trans (counted_allocateAnyWay _ _)).trans (counted_allocRegion_ _ _)

theorem counted_deallocRegion (region : Nat) : os.Counted (os.deallocRegion region) :=
  (Counted.of_eq rfl rfl : os.Counted (os.munmap region regionSize)).trans
    (counted_markDeallocated _ _)

theorem counted_foldl {ι : Type} {write : Os → ι → Os} (h : ∀ os i, Counted os (write os i))
    (is : List ι) : os.Counted (is.foldl write os) := by
  induction is generalizing os with
  | nil => exact .refl os
  | cons i rest ih => exact (h os i).trans (ih _)

theorem counted_initMetadata (s : Slot) (manager chunkPtr : Nat) :
    os.Counted (os.initMetadata s manager chunkPtr) := by
  cases s with
  | common => exact .of_eq rfl rfl
  | large =>
      unfold initMetadata
      dsimp only
      unfold initMetadataForLargeChunk
      refine os.counted_foldl ?_ _
      exact fun _ _ => .of_eq rfl rfl

end Os

/-! ## The chain of States -/

theorem follows_allocNewStateIn (withCountingLimit : Bool) (chain : List State) :
    Follows Os.Counted (allocNewStateIn withCountingLimit chain) := by
  intro os
  have hregion := os.counted_allocRegion withCountingLimit
  unfold after allocNewStateIn
  cases hanswer : os.allocRegion withCountingLimit with
  | mk region os' =>
      rw [hanswer] at hregion
      cases region with
      | none => exact hregion
      | some region =>
          dsimp only
          cases tryAllocSize .large sizeOfState chain with
          | some found => exact hregion.trans (.of_eq rfl rfl)
          | none =>
              dsimp only
              cases popFree .large [State.fromRegion region .live] with
              | some t => exact hregion.trans (.of_eq rfl rfl)
              | none => exact hregion

theorem follows_getFreeLargeChunk_ (withCountingLimit : Bool) (before chain : List State) :
    Follows Os.Counted (getFreeLargeChunk_ withCountingLimit before chain) := by
  unfold getFreeLargeChunk_
  cases popFree .large chain with
  | some t => exact follows_pure
  | none =>
      refine follows_ite follows_fault (follows_bind (follows_allocNewStateIn _ _) fun r => ?_)
      cases r with
      | none => exact follows_pure
      | some r =>
          obtain ⟨chain, next⟩ := r
          dsimp only
          cases popFree .large [next] with
          | some t => exact follows_pure
          | none => exact follows_fault

theorem follows_getFreeCommonChunk (withCountingLimit : Bool) (chain : List State) :
    Follows Os.Counted (getFreeCommonChunk withCountingLimit chain) := by
  unfold getFreeCommonChunk
  cases popFree .common chain with
  | some t => exact follows_pure
  | none =>
      refine follows_bind (follows_getFreeLargeChunk_ _ _ _) fun r => ?_
      cases r with
      | none => exact follows_pure
      | some t =>
          dsimp only
          cases t.owner.freeCommonChunks with
          | nil =>
              dsimp only
              cases (splitLargeChunkToCommon t.chunk).reverse with
              | nil => exact follows_fault
              | cons chunk chunks => exact follows_pure
          | cons chunk chunks =>
              exact follows_bind (follows_modify fun os => .of_eq rfl rfl) fun _ => follows_pure

theorem follows_allocSize (withCountingLimit : Bool) (k : ChunkKind) (size : Nat)
    (chain : List State) : Follows Os.Counted (allocSize withCountingLimit k size chain) := by
  have hchunk : Follows Os.Counted (getFreeChunk withCountingLimit k chain) := by
    cases k with
    | common => exact follows_getFreeCommonChunk _ _
    | large => exact follows_getFreeLargeChunk_ _ _ _
  unfold allocSize
  cases tryAllocSize k size chain with
  | some found => exact follows_pure
  | none =>
      refine follows_bind hchunk fun r => ?_
      cases r with
      | none => exact follows_pure
      | some t => exact follows_pure

/-! ## The functions of the allocator -/

variable {P : Params}

/-- The counter of the one has become that of the other by recorded accesses. -/
def World.Counted (w w' : World P) : Prop := w.os.Counted w'.os

instance : IsPreorder (World P) World.Counted where
  refl w := .refl w.os
  trans _ _ _ h h' := h.trans h'

/-- What leaves the operating system alone. -/
theorem World.Counted.of_os {w w' : World P} (h : w'.os = w.os) : w.Counted w' :=
  .of_eq (congrArg Os.allocated h) (congrArg Os.accesses h)

namespace ThreadLocalAllocator

/-- Accesses that take no part in the counting. -/
theorem follows_of_os {α : Type} {x : M P α} (h : ∀ w, (x.after w).os = w.os) :
    Follows World.Counted x := fun w => .of_os (h w)

theorem follows_modify_of_os {g : World P → World P} (h : ∀ w, (g w).os = w.os) :
    Follows World.Counted (Machine.modify g : M P Unit) := follows_modify fun w => .of_os (h w)

theorem follows_popObject (s : Slot) : Follows World.Counted (popObject s : M P _) :=
  follows_of_os fun w => by
    unfold after popObject
    cases (w.inner.objectTable s).pop <;> rfl

theorem follows_tryGetChunk (k : ChunkKind) : Follows World.Counted (tryGetChunk k : M P _) :=
  follows_of_os fun w => by
    unfold after tryGetChunk popChunk
    cases k with
    | common =>
        dsimp only
        cases w.inner.freeCommonChunks.pop <;> rfl
    | large =>
        dsimp only
        cases w.inner.freeLargeChunks.pop <;> rfl

theorem follows_tryExtend (v : VecId) (xs : List v.Elem) :
    Follows World.Counted (tryExtend v xs : M P _) :=
  follows_of_os fun w => by
    unfold after tryExtend
    cases (w.vec v).tryExtend xs <;> rfl

theorem follows_extendUnchecked (v : VecId) (xs : List v.Elem) :
    Follows World.Counted (extendUnchecked v xs : M P _) :=
  follows_bind (follows_tryExtend v xs) fun _ => follows_ite follows_pure follows_fault

theorem follows_install (v : VecId) (ptr cap : Nat) :
    Follows World.Counted (install v ptr cap : M P _) :=
  follows_of_os fun w => by
    unfold after install
    cases (w.vec v).moveTo ptr cap <;> rfl

theorem follows_minCapacity (v : VecId) (additional : Nat) :
    Follows World.Counted (minCapacity v additional : M P _) := follows_gets

/-- A function of the operating system that records what it does to the counter. -/
theorem follows_onOs {α : Type} {f : Os → α × Os} (h : ∀ os : Os, os.Counted (f os).2) :
    Follows World.Counted (onOs f : M P α) := fun w => h w.os

theorem follows_record (e : Event) : Follows World.Counted (record e : M P _) :=
  follows_modify fun _ => .of_eq rfl rfl

theorem follows_stateAllocSize (withCountingLimit : Bool) (k : ChunkKind) (size : Nat) :
    Follows World.Counted (stateAllocSize withCountingLimit k size : M P _) := by
  intro w
  unfold after stateAllocSize
  cases hstates : w.states with
  | nil => exact .of_os rfl
  | cons chain rest =>
      have hsize := follows_allocSize withCountingLimit k size chain w.os
      unfold after at hsize
      dsimp only
      cases hrun : allocSize withCountingLimit k size chain w.os <;> (rw [hrun] at hsize; exact hsize)

theorem follows_stateGetFreeLargeChunk (withCountingLimit : Bool) :
    Follows World.Counted (stateGetFreeLargeChunk withCountingLimit : M P _) := by
  intro w
  unfold after stateGetFreeLargeChunk
  cases hstates : w.states with
  | nil => exact .of_os rfl
  | cons chain rest =>
      have hchunk := follows_getFreeLargeChunk_ withCountingLimit [] chain w.os
      unfold after at hchunk
      dsimp only
      cases hrun : getFreeLargeChunk_ withCountingLimit [] chain w.os with
      | error e =>
          rw [hrun] at hchunk
          exact hchunk
      | ok r =>
          obtain ⟨taken, os⟩ := r
          rw [hrun] at hchunk
          cases taken <;> exact hchunk

theorem follows_enterState (region : Nat) : Follows World.Counted (enterState region : M P _) :=
  follows_modify_of_os fun _ => rfl

theorem follows_currentState : Follows World.Counted (currentState : M P _) :=
  follows_of_os fun w => by
    unfold after currentState
    rcases w.states with _ | ⟨_ | ⟨s, chain⟩, rest⟩ <;> rfl

theorem follows_updateState (f : State → State) : Follows World.Counted (updateState f : M P _) :=
  follows_of_os fun w => by
    unfold after updateState
    rcases w.states with _ | ⟨_ | ⟨s, chain⟩, rest⟩ <;> rfl

theorem follows_freeChunk (k : ChunkKind) (chunk : Nat) :
    Follows World.Counted (freeChunk k chunk : M P _) := by
  intro w
  unfold after freeChunk
  dsimp only
  cases releaseUnits k.numberOfUnits (regionPtrFromChunkPtr chunk)
      w.inner.regions.elems.reverse with
  | none => exact .of_os rfl
  | some r =>
      obtain ⟨views, empty⟩ := r
      dsimp only
      by_cases hle : views.reverse.length ≤ w.inner.regions.elems.length
      · rw [dif_pos hle]
        cases empty with
        | false => exact .of_eq rfl rfl
        | true =>
            exact (Os.Counted.of_eq rfl rfl : w.os.Counted (w.os.record (.chunkGivenBack chunk))).trans
              (Os.counted_deallocRegion _ _)
      · rw [dif_neg hle]
        exact .of_os rfl

theorem follows_managerPtr : Follows World.Counted (managerPtr : M P _) := follows_gets

theorem follows_initMetadata (s : Slot) (manager chunkPtr : Nat) :
    Follows World.Counted (initMetadata s manager chunkPtr : M P _) :=
  follows_modify fun w => w.os.counted_initMetadata s manager chunkPtr

theorem follows_commitUsedChunk (manager : Nat) (k : ChunkKind) (chunk : UsedChunk) :
    Follows World.Counted (commitUsedChunk manager k chunk : M P _) :=
  follows_bind (follows_updateState _) fun _ =>
    follows_bind follows_orFault fun _ =>
      follows_bind (follows_extendUnchecked _ _) fun _ =>
        follows_bind (follows_initMetadata _ _ _) fun _ => follows_extendUnchecked _ _

theorem follows_finishState : Follows World.Counted (finishState : M P _) := by
  refine follows_bind follows_currentState fun s =>
    follows_bind (follows_extendUnchecked _ _) fun _ =>
      follows_bind (follows_extendUnchecked _ _) fun _ =>
        follows_bind (follows_extendUnchecked _ _) fun _ => follows_of_os fun w => ?_
  unfold after
  beta_reduce
  rcases w.states with _ | ⟨_ | ⟨s, _ | ⟨next, chain⟩⟩, rest⟩ <;> rfl

theorem follows_registerDestructor : Follows World.Counted (registerDestructor : M P _) :=
  follows_bind follows_gets fun _ =>
    follows_ite follows_fault (follows_modify_of_os fun _ => rfl)

theorem follows_setManager (ptr : Nat) : Follows World.Counted (setManager ptr : M P _) :=
  follows_modify_of_os fun _ => rfl

theorem follows_moveState : Follows World.Counted (moveState : M P _) :=
  follows_modify_of_os fun w => by
    cases w.states <;> rfl

theorem follows_addNewNode (manager : Nat) (node : Node) :
    Follows World.Counted (addNewNode manager node : M P _) :=
  follows_of_os fun w => by
    unfold after addNewNode
    by_cases hnull : manager = 0
    · rw [if_pos hnull]
    · rw [if_neg hnull]
      by_cases hown : w.inner.nonLocalPtrManager = some manager
      · rw [if_pos hown]
      · rw [if_neg hown]

/-! ## The functions that call back -/

/-- What the allocator calls itself through keeps the record as well. -/
structure KeepsRecord (A : AllocatorForSelfAllocations P) : Prop where
  selfAlloc : ∀ withCountingLimit size hasState,
    Follows World.Counted (A.selfAlloc withCountingLimit size hasState)
  selfDealloc : ∀ ptr size hasState, Follows World.Counted (A.selfDealloc ptr size hasState)
  tryAlloc : ∀ size, Follows World.Counted (A.tryAlloc size)

section Callbacks

variable {A : AllocatorForSelfAllocations P} (hA : KeepsRecord A)

include hA

theorem follows_allocWith (withCountingLimit : Bool) (v : VecId) (minCap : Nat) (hasState : Bool) :
    Follows World.Counted (allocWith A withCountingLimit v minCap hasState) :=
  follows_bind (hA.selfAlloc _ _ _) fun _ => follows_pure

theorem follows_maybeDealloc (v : VecId) (ptr cap : Nat) (hasState : Bool) :
    Follows World.Counted (maybeDealloc A v ptr cap hasState) :=
  follows_ite (hA.selfDealloc _ _ _) follows_pure

theorem follows_reserveSlow (withCountingLimit : Bool) (v : VecId) (additional : Nat)
    (hasState : Bool) (fuel minCap : Nat) :
    Follows World.Counted (reserveSlow A withCountingLimit v additional hasState fuel minCap) := by
  induction fuel generalizing minCap with
  | zero => exact follows_fault
  | succ fuel ih =>
      unfold reserveSlow
      refine follows_bind (follows_allocWith hA _ _ _ _) fun r => ?_
      obtain ⟨newPtr, newCap⟩ := r
      refine follows_bind (follows_minCapacity _ _) fun needed => follows_ite ?_ ?_
      · cases newPtr with
        | none => exact ih needed
        | some ptr => exact follows_bind (follows_maybeDealloc hA _ _ _ _) fun _ => ih needed
      · cases newPtr with
        | none => exact follows_pure
        | some ptr =>
            refine follows_bind (follows_install _ _ _) fun old => ?_
            exact follows_bind (follows_maybeDealloc hA _ _ _ _) fun _ =>
              follows_bind (follows_minCapacity _ _) fun needed => follows_ite (ih needed) follows_pure

theorem follows_reserve (withCountingLimit : Bool) (v : VecId) (additional : Nat)
    (hasState : Bool) : Follows World.Counted (reserve A withCountingLimit v additional hasState) :=
  follows_bind (follows_minCapacity _ _) fun _ =>
    follows_bind follows_gets fun _ => follows_ite follows_pure
      (follows_bind (follows_reserveSlow hA _ _ _ _ _ _) fun _ => follows_pure)

theorem follows_extendFromSlice (withCountingLimit : Bool) (v : VecId) (xs : List v.Elem)
    (hasState : Bool) :
    Follows World.Counted (extendFromSlice A withCountingLimit v xs hasState) := by
  refine follows_bind (follows_reserve hA _ _ _ _) fun r => ?_
  cases r with
  | none => exact follows_pure
  | some _ => exact follows_bind (follows_extendUnchecked _ _) fun _ => follows_pure

theorem follows_push (withCountingLimit : Bool) (v : VecId) (x : v.Elem) (hasState : Bool) :
    Follows World.Counted (push A withCountingLimit v x hasState) :=
  follows_extendFromSlice hA _ _ _ _

theorem follows_pushObjectOrPanic (s : Slot) (ptr : Nat) (hasState : Bool) :
    Follows World.Counted (pushObjectOrPanic A s ptr hasState) :=
  follows_bind (follows_push hA _ _ _ _) fun _ => follows_ite follows_pure follows_fault

theorem follows_ensureChunkTable (k : ChunkKind) (hasState : Bool) :
    Follows World.Counted (ensureChunkTable A k hasState) := by
  refine follows_bind follows_gets fun box => ?_
  cases box with
  | some _ => exact follows_pure
  | none =>
      refine follows_bind (hA.selfAlloc _ _ _) fun ptr => ?_
      cases ptr with
      | none => exact follows_fault
      | some ptr => exact follows_modify_of_os fun w => by cases k <;> rfl

theorem follows_reserveOrPanic (message : String) (withCountingLimit : Bool) (v : VecId)
    (additional : Nat) :
    Follows World.Counted (reserveOrPanic A message withCountingLimit v additional) := by
  refine follows_bind (follows_reserve hA _ _ _ _) fun r => ?_
  cases r with
  | none => exact follows_fault
  | some _ => exact follows_pure

theorem follows_reserveObjects (k : ChunkKind) : Follows World.Counted (reserveObjects A k) :=
  follows_bind follows_currentState fun _ => follows_anyOf (fun _ =>
    follows_bind follows_currentState fun _ => follows_bind follows_orFault fun _ =>
      follows_bind follows_orFault fun _ => follows_reserveOrPanic hA _ _ _ _) _

theorem follows_reserveTables (k : ChunkKind) : Follows World.Counted (reserveTables A k) :=
  follows_bind follows_currentState fun _ => follows_bind follows_orFault fun _ =>
    follows_anyOf (fun _ => follows_bind follows_orFault fun _ =>
      follows_bind (follows_ensureChunkTable hA _ _) fun _ => follows_reserveOrPanic hA _ _ _ _) _

theorem follows_prepareToHandleState : Follows World.Counted (prepareToHandleState A) :=
  follows_bind (follows_reserveOrPanic hA _ _ _ _) fun _ =>
    follows_bind follows_currentState fun _ =>
      follows_bind (follows_reserveOrPanic hA _ _ _ _) fun _ =>
        follows_bind follows_currentState fun _ =>
          follows_bind (follows_reserveOrPanic hA _ _ _ _) fun _ => follows_pure

theorem follows_reservePass : Follows World.Counted (reservePass A) :=
  follows_bind (follows_reserveObjects hA _) fun _ =>
    follows_bind (follows_reserveObjects hA _) fun _ =>
      follows_bind (follows_reserveTables hA _) fun _ =>
        follows_bind (follows_reserveTables hA _) fun _ =>
          follows_bind (follows_prepareToHandleState hA) fun _ => follows_pure

theorem follows_reserveLoop (fuel : Nat) : Follows World.Counted (reserveLoop A fuel) := by
  induction fuel with
  | zero => exact follows_fault
  | succ fuel ih => exact follows_bind (follows_reservePass hA) fun _ => follows_ite ih follows_pure

theorem follows_allocManager : Follows World.Counted (allocManager A) := by
  refine follows_bind (follows_updateState _) fun _ =>
    follows_bind (hA.selfAlloc _ _ _) fun ptr => ?_
  cases ptr with
  | none => exact follows_fault
  | some ptr => exact follows_bind (follows_setManager _) fun _ => follows_updateState _

theorem follows_getOrInitManagerWithState :
    Follows World.Counted (getOrInitManagerWithState A) := by
  refine follows_bind follows_managerPtr fun manager => ?_
  cases manager with
  | some ptr => exact follows_pure
  | none =>
      refine follows_bind follows_gets fun registered => ?_
      have hstored : Follows World.Counted (do
          Machine.orFault (.bugHint "the manager has been stored") (← managerPtr) : M P Nat) :=
        follows_bind follows_managerPtr fun _ => follows_orFault
      have hmanager : Follows World.Counted (do
          if P.managerSize = 0 then setManager danglingManager
          else allocManager A
          Machine.orFault (.bugHint "the manager has been stored") (← managerPtr) : M P Nat) :=
        follows_ite (follows_bind (follows_setManager _) fun _ => hstored)
          (follows_bind (follows_allocManager hA) fun _ => hstored)
      exact follows_ite hmanager (follows_bind follows_registerDestructor fun _ => hmanager)

theorem follows_commitUsedChunks : Follows World.Counted (commitUsedChunks A) :=
  follows_bind (follows_getOrInitManagerWithState hA) fun _ =>
    follows_bind (follows_ensureChunkTable hA _ _) fun _ =>
      follows_bind follows_currentState fun _ =>
        follows_bind (follows_forEach (fun _ => follows_commitUsedChunk _ _ _) _) fun _ =>
          follows_bind (follows_ensureChunkTable hA _ _) fun _ =>
            follows_bind follows_currentState fun _ =>
              follows_forEach (fun _ => follows_commitUsedChunk _ _ _) _

theorem follows_handleStates (fuel : Nat) (toDealloc : List Nat) :
    Follows World.Counted (handleStates A fuel toDealloc) := by
  induction fuel generalizing toDealloc with
  | zero => exact follows_fault
  | succ fuel ih =>
      refine follows_bind (follows_reserveLoop hA _) fun _ =>
        follows_bind (follows_commitUsedChunks hA) fun _ =>
          follows_bind follows_finishState fun storage => ?_
      cases storage with
      | none => exact follows_pure
      | some storage => exact follows_bind follows_orFault fun _ => follows_ite (ih _) follows_fault

theorem follows_handleState : Follows World.Counted (handleState A) := by
  refine follows_bind follows_moveState fun _ => follows_bind follows_gets fun _ => ?_
  have hstates : Follows World.Counted (do
      let toDealloc ← handleStates A A.rounds []
      Machine.forEach toDealloc fun ptr => A.selfDealloc ptr sizeOfState false) :=
    follows_bind (follows_handleStates hA _ _) fun _ =>
      follows_forEach (fun _ => hA.selfDealloc _ _ _) _
  exact follows_ite hstates
    (follows_bind (follows_getOrInitManagerWithState hA) fun _ => hstates)

theorem follows_getOrInitManager (hasState : Bool) :
    Follows World.Counted (getOrInitManager A hasState) := by
  refine follows_ite (follows_getOrInitManagerWithState hA) ?_
  refine follows_bind follows_managerPtr fun manager => ?_
  cases manager with
  | some ptr => exact follows_pure
  | none =>
      refine follows_bind follows_gets fun registered => ?_
      have hstored : Follows World.Counted (do
          Machine.orFault (.bugHint "the manager has been stored") (← managerPtr) : M P Nat) :=
        follows_bind follows_managerPtr fun _ => follows_orFault
      refine follows_ite ?_ (follows_bind follows_registerDestructor fun _ => ?_)
      all_goals
        refine follows_ite (follows_bind (follows_setManager _) fun _ => hstored) ?_
        refine follows_bind (follows_onOs fun os => os.counted_allocRegion false) fun region => ?_
        cases region with
        | none => exact follows_bind follows_fault fun _ => hstored
        | some region =>
            exact follows_bind (follows_enterState _) fun _ =>
              follows_bind (follows_allocManager hA) fun _ =>
                follows_bind (follows_handleState hA) fun _ => hstored

theorem follows_handleNode (node : Node) : Follows World.Counted (handleNode A node) :=
  follows_ite
    (follows_bind follows_orFault fun _ =>
      follows_bind (follows_push hA _ _ _ _) fun _ => follows_ite follows_pure follows_fault)
    (follows_bind follows_orFault fun _ =>
      follows_bind (follows_pushObjectOrPanic hA _ _ _) fun _ =>
        follows_bind follows_gets fun _ => follows_addNewNode _ _)

theorem follows_checkNonLocalPtrs : Follows World.Counted (checkNonLocalPtrs A) := by
  refine follows_bind follows_managerPtr fun manager => ?_
  cases manager with
  | none => exact follows_pure
  | some _ =>
      exact follows_bind (follows_of_os fun _ => rfl) fun _ =>
        follows_forEach (follows_handleNode hA) _

omit hA in
theorem follows_initCutMetadata (s : Slot) (manager chunk curr : Nat) :
    Follows World.Counted (initCutMetadata s manager chunk curr : M P _) :=
  follows_modify fun w => by
    have hwrite := w.os.counted_initMetadata s manager curr
    dsimp only
    split
    · exact hwrite.trans (.of_eq rfl rfl)
    · exact hwrite

theorem follows_allocSlow (isAllocatingManager : Bool) (s : Slot) (realSize : Nat)
    {getChunk : M P (Option Nat)} (hgetChunk : Follows World.Counted getChunk) (hasState : Bool) :
    Follows World.Counted (allocSlow A isAllocatingManager s realSize getChunk hasState) := by
  have hcut : ∀ curr chunk, Follows World.Counted (do
      let manager ← if isAllocatingManager then pure curr else getOrInitManager A hasState
      initCutMetadata s manager chunk curr
      pure (some curr) : M P (Option Nat)) := by
    intro curr chunk
    have hwrite : ∀ manager, Follows World.Counted (do
        initCutMetadata s manager chunk curr
        pure (some curr) : M P (Option Nat)) := fun manager =>
      follows_bind (follows_initCutMetadata _ _ _ _) fun _ => follows_pure
    exact follows_ite (follows_bind follows_pure fun _ => hwrite _)
      (follows_bind (follows_getOrInitManager hA _) fun _ => hwrite _)
  -- what follows is the same whether the incoming pointers are checked or not
  refine follows_ite (follows_bind (follows_checkNonLocalPtrs hA) fun _ =>
    follows_bind (follows_popObject s) ?_) (follows_bind follows_pure ?_)
  all_goals
    intro incoming
    cases incoming with
    | some ptr => exact follows_pure
    | none =>
        refine follows_bind hgetChunk fun chunk => ?_
        cases chunk with
        | none => exact follows_pure
        | some chunk =>
            refine follows_bind (follows_popObject s) fun popped => ?_
            cases popped with
            | some ptr => exact follows_bind (follows_freeChunk _ _) fun _ => follows_pure
            | none =>
                refine follows_bind (follows_ensureChunkTable hA _ _) fun _ =>
                  follows_bind (follows_push hA _ _ _ _) fun _ => follows_ite ?_
                    (follows_bind (follows_record _) fun _ => follows_pure)
                refine follows_bind (follows_reserve hA _ _ _ _) fun room => ?_
                cases room with
                | none => exact follows_bind (follows_record _) fun _ => follows_pure
                | some _ => exact follows_bind (follows_extendUnchecked _ _) fun _ => hcut _ _

theorem follows_allocLargeChunk : Follows World.Counted (allocLargeChunk A) := by
  refine follows_bind (follows_onOs fun os => os.counted_allocRegion true) fun region => ?_
  cases region with
  | none => exact follows_pure
  | some region =>
      refine follows_bind (follows_enterState _) fun _ =>
        follows_bind (follows_stateGetFreeLargeChunk _) fun chunk => ?_
      cases chunk with
      | none => exact follows_fault
      | some chunk => exact follows_bind (follows_handleState hA) fun _ => follows_pure

theorem follows_getLargeChunk : Follows World.Counted (getLargeChunk A) := by
  refine follows_bind (follows_tryGetChunk _) fun chunk => ?_
  cases chunk with
  | some chunk => exact follows_pure
  | none => exact follows_allocLargeChunk hA

theorem follows_getCommonChunkSlow : Follows World.Counted (getCommonChunkSlow A) := by
  refine follows_bind (follows_getLargeChunk hA) fun chunk => ?_
  cases chunk with
  | none => exact follows_pure
  | some chunk =>
      refine follows_bind (follows_tryGetChunk _) fun common => ?_
      cases common with
      | some common =>
          exact follows_bind (follows_push hA _ _ _ _) fun _ =>
            follows_ite follows_pure (follows_bind (follows_record _) fun _ => follows_pure)
      | none =>
          exact follows_bind (follows_extendFromSlice hA _ _ _ _) fun _ =>
            follows_ite follows_orFault (follows_bind (follows_record _) fun _ => follows_pure)

theorem follows_getCommonChunk : Follows World.Counted (getCommonChunk A) := by
  refine follows_bind (follows_tryGetChunk _) fun chunk => ?_
  cases chunk with
  | some chunk => exact follows_pure
  | none => exact follows_getCommonChunkSlow hA

theorem follows_allocCommon (size : Nat) : Follows World.Counted (allocCommon A size) := by
  refine follows_bind follows_orFault fun s => follows_bind (follows_popObject s) fun popped => ?_
  cases popped with
  | some ptr => exact follows_pure
  | none => exact follows_allocSlow hA _ _ _ (follows_getCommonChunk hA) _

theorem follows_allocLarge (size : Nat) : Follows World.Counted (allocLarge A size) := by
  refine follows_bind follows_orFault fun s => follows_bind (follows_popObject s) fun popped => ?_
  cases popped with
  | some ptr => exact follows_pure
  | none => exact follows_allocSlow hA _ _ _ (follows_getLargeChunk hA) _

omit hA in
theorem counted_mapExtraLarge (size : Nat) (os : Os) :
    os.Counted (mapExtraLarge size os).2.2 := by
  have hmay := os.counted_takeReply.trans (os.takeReply.2.counted_mayAllocate size)
  unfold mapExtraLarge
  dsimp only
  cases hanswer : os.takeReply.2.mayAllocate size with
  | mk granted os' =>
      rw [hanswer] at hmay
      cases granted with
      | false => exact hmay.trans (.of_eq rfl rfl)
      | true =>
          have hmap := os'.counted_mmap os.takeReply.1 size pageSize
          dsimp only
          cases hmmap : os'.mmap os.takeReply.1 size pageSize with
          | mk ptr os'' =>
              rw [hmmap] at hmap
              cases ptr with
              | none => exact (hmay.trans hmap).trans (Os.counted_markDeallocated _ _)
              | some ptr => exact hmay.trans hmap

theorem follows_allocNodes (sizes : List Nat) : Follows World.Counted (allocNodes A sizes) := by
  induction sizes with
  | nil => exact follows_pure
  | cons size sizes ih =>
      refine follows_bind (hA.selfAlloc _ _ _) fun ptr => ?_
      cases ptr with
      | none => exact follows_fault
      | some ptr => exact follows_bind ih fun _ => follows_pure

omit hA in
theorem follows_setTreeBusy (busy : Bool) : Follows World.Counted (setTreeBusy busy : M P _) :=
  follows_modify_of_os fun _ => rfl

omit hA in
theorem follows_updateTree (f : P.tree.Tree → P.tree.Tree) :
    Follows World.Counted (updateTree f : M P _) := follows_modify_of_os fun _ => rfl

omit hA in
theorem follows_sizeTree : Follows World.Counted (sizeTree : M P _) :=
  follows_of_os fun w => by
    unfold after sizeTree
    cases w.treeBusy <;> rfl

theorem follows_countExtraLarge (size : Nat) : Follows World.Counted (countExtraLarge A size) := by
  refine follows_bind follows_sizeTree fun tree => ?_
  cases (P.tree.entries tree).lookup size with
  | some _ => exact follows_updateTree _
  | none =>
      exact follows_bind (follows_setTreeBusy _) fun _ =>
        follows_bind (follows_allocNodes hA _) fun _ =>
          follows_bind (follows_updateTree _) fun _ => follows_setTreeBusy _

theorem follows_allocExtraLarge (size : Nat) : Follows World.Counted (allocExtraLarge A size) := by
  refine follows_bind (follows_onOs fun os => counted_mapExtraLarge size os) fun r => ?_
  exact follows_ite (follows_bind (follows_countExtraLarge hA _) fun _ => follows_pure) follows_pure

theorem follows_deallocExtraLarge (ptr size : Nat) :
    Follows World.Counted (deallocExtraLarge A ptr size) := by
  have hunmap : ∀ os : Os, os.Counted ((os.munmap ptr size).markDeallocated size) := fun os =>
    (Os.Counted.of_eq rfl rfl : os.Counted (os.munmap ptr size)).trans
      (Os.counted_markDeallocated _ _)
  refine follows_bind (follows_onOs hunmap) fun _ => follows_bind follows_sizeTree fun tree => ?_
  cases (P.tree.entries tree).lookup size with
  | none => exact follows_pure
  | some count =>
      refine follows_bind (follows_updateTree _) fun _ => follows_ite ?_ follows_pure
      exact follows_bind follows_sizeTree fun _ => follows_bind (follows_setTreeBusy _) fun _ =>
        follows_bind (follows_updateTree _) fun _ =>
          follows_bind (follows_forEach (fun _ => hA.selfDealloc _ _ _) _) fun _ =>
            follows_setTreeBusy _

theorem follows_tryAlloc (size : Nat) : Follows World.Counted (tryAlloc A size) := by
  unfold tryAlloc
  cases SizeClass.define size with
  | common => exact follows_allocCommon hA size
  | large => exact follows_allocLarge hA size
  | extraLarge => exact follows_allocExtraLarge hA size

theorem follows_deallocObject (s : Slot) (ptr : Nat) :
    Follows World.Counted (deallocObject A s ptr) := by
  have hnonLocal : ∀ metadata, Follows World.Counted (deallocNonLocalPtr A ptr metadata) := by
    intro metadata
    refine follows_bind (follows_getOrInitManager hA _) fun _ =>
      follows_bind (hA.tryAlloc _) fun node => ?_
    cases node with
    | none => exact follows_fault
    | some node => exact follows_addNewNode _ _
  exact follows_bind follows_gets fun metadata => follows_bind follows_managerPtr fun _ =>
    follows_ite (follows_pushObjectOrPanic hA _ _ _) (hnonLocal metadata)

theorem follows_tryAllocFromCache (s : Slot) (size : Nat) (hasState : Bool) :
    Follows World.Counted (tryAllocFromCache A s size hasState) := by
  refine follows_bind (follows_popObject s) fun popped => ?_
  cases popped with
  | some ptr => exact follows_pure
  | none =>
      have hslow : ∀ isAllocatingManager, Follows World.Counted
          (allocSlow A isAllocatingManager s size (tryGetChunk s.kind) hasState) :=
        fun isAllocatingManager => follows_allocSlow hA _ _ _ (follows_tryGetChunk _) _
      have hrest : ∀ isAllocatingManager : Bool, Follows World.Counted (do
          if isAllocatingManager then
            updateState fun s => { s with isAllocatingNonLocalPtrManagerNow := false }
          else pure ()
          allocSlow A isAllocatingManager s size (tryGetChunk s.kind) hasState : M P _) :=
        fun isAllocatingManager => follows_ite
          (follows_bind (follows_updateState _) fun _ => hslow _) (hslow _)
      exact follows_ite (follows_bind follows_currentState fun _ => hrest _) (hrest _)

theorem follows_slowSelfAlloc (withCountingLimit : Bool) (k : ChunkKind) (size : Nat)
    (hasState : Bool) : Follows World.Counted (slowSelfAlloc A withCountingLimit k size hasState) := by
  refine follows_ite (follows_stateAllocSize _ _ _) ?_
  refine follows_bind (follows_onOs fun os => os.counted_allocRegion _) fun region => ?_
  cases region with
  | none => exact follows_pure
  | some region =>
      exact follows_bind (follows_enterState _) fun _ =>
        follows_bind (follows_stateAllocSize _ _ _) fun _ =>
          follows_bind (follows_handleState hA) fun _ => follows_pure

theorem follows_selfAlloc (withCountingLimit : Bool) (size : Nat) (hasState : Bool) :
    Follows World.Counted (selfAlloc A withCountingLimit size hasState) := by
  unfold selfAlloc
  cases SizeClass.define size with
  | extraLarge => exact follows_allocExtraLarge hA size
  | _ =>
      refine follows_bind follows_orFault fun s =>
        follows_bind (follows_tryAllocFromCache hA _ _ _) fun ptr => ?_
      cases ptr with
      | some ptr => exact follows_pure
      | none => exact follows_slowSelfAlloc hA _ _ _ _

theorem follows_selfDealloc (ptr size : Nat) (hasState : Bool) :
    Follows World.Counted (selfDealloc A ptr size hasState) := by
  unfold selfDealloc
  cases SizeClass.define size with
  | extraLarge => exact follows_deallocExtraLarge hA ptr size
  | _ =>
      exact follows_bind follows_orFault fun _ =>
        follows_ite (follows_pushObjectOrPanic hA _ _ _) (follows_deallocObject hA _ _)

end Callbacks

end ThreadLocalAllocator

open ThreadLocalAllocator

/-- However deep the calls nest. -/
theorem keepsRecord_threadLocalAllocator (depth : Nat) :
    KeepsRecord (threadLocalAllocator depth : AllocatorForSelfAllocations P) := by
  induction depth with
  | zero => exact ⟨fun _ _ _ => follows_fault, fun _ _ _ => follows_fault, fun _ => follows_fault⟩
  | succ depth ih =>
      exact ⟨follows_selfAlloc ih, follows_selfDealloc ih, follows_tryAlloc ih⟩

end Memalart
