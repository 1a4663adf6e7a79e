/-
# The whole allocator

Deallocation, the allocation for the allocator's own use, and `try_alloc`.  Each is
judged against an allocator that serves; the recursion through the interface is closed
by induction on how deep calls may nest.
-/

import Memalart.TreeSteps

namespace Memalart

open Memalart.Lib ThreadLocalAllocator

variable {P : Params} {A : AllocatorForSelfAllocations P}

/-! ## Deallocation -/

/-- Metadata that names no manager leads nowhere. -/
theorem not_returns_deallocNonLocalPtr {ptr : Nat} {metadata : ChunkMetadata} {w w' : World P}
    {u : Unit} (hnull : metadata.nonLocalPtrManager = 0) :
    ¬ (deallocNonLocalPtr A ptr metadata).Returns w u w' := by
  intro hret
  obtain ⟨m, w₁, -, hret⟩ := Machine.returns_bind.mp hret
  obtain ⟨node, w₂, -, hret⟩ := Machine.returns_bind.mp hret
  cases node with
  | none => exact Machine.not_returns_fault hret
  | some node =>
      simp only [Machine.Returns, addNewNode, hnull, if_true] at hret
      cases hret

theorem deallocObject_triple (hA : Serves A) (s : Slot) (ptr : Nat) :
    (discipline P).Triple (tokens {.object s ptr}) (deallocObject A s ptr) fun _ => 0 := by
  intro w rest hs
  refine Discipline.At.gets (Discipline.At.gets ?_)
  by_cases hown : (w.os.metadata (chunkPtrToChunkMetadataPtr ptr)).nonLocalPtrManager =
      w.inner.nonLocalPtrManager.getD 0
  · rw [if_pos hown]
    exact pushObjectOrPanic_triple hA s ptr false w rest hs
  · rw [if_neg hown]
    -- this allocator writes its own manager only, so the entry is empty
    have hnull : (w.os.metadata (chunkPtrToChunkMetadataPtr ptr)).nonLocalPtrManager = 0 := by
      rcases hs.own (chunkPtrToChunkMetadataPtr ptr) with h | h
      · exact h
      · rw [h] at hown
        exact absurd rfl hown
    exact fun u w' hret => absurd hret (not_returns_deallocNonLocalPtr hnull)

/-- What a size that is not extra large goes back to. -/
theorem slotForSize_eq_none {size : Nat} (hclass : SizeClass.define size = .extraLarge) :
    slotForSize size = none := by
  rw [slotForSize, hclass]

theorem blockItem_extraLarge {size : Nat} (hclass : SizeClass.define size = .extraLarge)
    (ptr : Nat) : blockItem size ptr = .extra size ptr := by
  rw [blockItem, slotForSize_eq_none hclass]

/-- An object of a size goes back to the vector that the size names. -/
theorem deallocSlot_triple (hA : Serves A) (size ptr : Nat) :
    (discipline P).Triple (tokens {blockItem size ptr}) (do
        deallocObject A (← slotOrFault size) ptr) fun _ => 0 := by
  refine Discipline.Triple.orFault fun s hslot => ?_
  rw [blockItem_of_slot hslot]
  exact deallocObject_triple hA s ptr

theorem dealloc_triple (hA : Serves A) (ptr size : Nat) :
    (discipline P).Triple (tokens {blockItem size ptr}) (dealloc A ptr size) fun _ => 0 := by
  unfold dealloc
  cases hclass : SizeClass.define size with
  | extraLarge =>
      rw [blockItem_extraLarge hclass]
      exact deallocExtraLarge_triple hA ptr size
  | common => exact deallocSlot_triple hA size ptr
  | large => exact deallocSlot_triple hA size ptr

theorem selfDeallocSlot_triple (hA : Serves A) (size ptr : Nat) (hasState : Bool) :
    (discipline P).Triple (tokens {blockItem size ptr}) (do
        let s ← slotOrFault size
        if hasState then pushObjectOrPanic A s ptr true
        else deallocObject A s ptr) fun _ => 0 := by
  refine Discipline.Triple.orFault fun s hslot => ?_
  rw [blockItem_of_slot hslot]
  exact Discipline.Triple.ite (fun _ => pushObjectOrPanic_triple hA s ptr true)
    fun _ => deallocObject_triple hA s ptr

theorem selfDealloc_triple (hA : Serves A) (ptr size : Nat) (hasState : Bool) :
    (discipline P).Triple (tokens {blockItem size ptr}) (selfDealloc A ptr size hasState)
      fun _ => 0 := by
  unfold selfDealloc
  cases hclass : SizeClass.define size with
  | extraLarge =>
      rw [blockItem_extraLarge hclass]
      exact deallocExtraLarge_triple hA ptr size
  | common => exact selfDeallocSlot_triple hA size ptr hasState
  | large => exact selfDeallocSlot_triple hA size ptr hasState

/-! ## Allocation for the allocator itself -/

theorem slowSelfAlloc_triple (hA : ServesAlways A) (limit : Bool) {s : Slot} {size : Nat}
    (hreal : s.realSize = size) (hslot : slotForSize size = some s) (hasState : Bool) :
    (discipline P).Triple 0 (slowSelfAlloc A limit s.kind size hasState)
      fun r => tokens (blockOf size r) := by
  refine Discipline.Triple.ite (fun _ => stateAllocSize_triple limit hreal hslot) fun _ => ?_
  refine (allocRegion_triple limit).bind fun region => ?_
  cases region with
  | none => exact Discipline.Triple.pure rfl
  | some region =>
      refine (enterState_triple region).bind fun _ => ?_
      have halloc := (stateAllocSize_triple (P := P) limit hreal hslot).frame {.chain}
      rw [zero_add] at halloc
      refine halloc.bind fun ptr => ?_
      have hhandle := (handleState_triple hA).frame (tokens (blockOf size ptr))
      rw [add_comm]
      refine (Triple.forgetAfter (fun _ => .ready) hhandle).bind fun _ => ?_
      exact Discipline.Triple.pure rfl

theorem lt_of_define_eq_extraLarge {size : Nat} (hclass : SizeClass.define size = .extraLarge) :
    largeSizeMax < size := by
  unfold SizeClass.define at hclass
  grind

theorem selfAlloc_triple (hA : ServesAlways A) (limit : Bool) (size : Nat) (hasState : Bool)
    (hreal : IsReal size) :
    (discipline P).Triple 0 (selfAlloc A limit size hasState)
      fun r => tokens (blockOf size r) := by
  cases hslot : slotForSize size with
  | some s =>
      have hsize := hreal s hslot
      rw [selfAlloc_of_slot hslot]
      have hcache := tryAllocFromCache_triple hA s hasState
      rw [hsize] at hcache
      refine hcache.bind fun ptr => ?_
      cases ptr with
      | none => exact slowSelfAlloc_triple hA limit hsize hslot hasState
      | some ptr =>
          refine Discipline.Triple.pure ?_
          rw [blockOf_some, blockItem_of_slot hslot, tokens_singleton]
          rfl
  | none =>
      have hfault : ∀ f : Slot → M P (Option Nat), (discipline P).Triple 0 (slotOrFault size >>= f)
          fun r => tokens (blockOf size r) := fun f =>
        Discipline.Triple.orFault fun s hs => by simp [hslot] at hs
      unfold selfAlloc
      cases hclass : SizeClass.define size with
      | common => exact hfault _
      | large => exact hfault _
      | extraLarge =>
          exact allocExtraLarge_triple hA.toServes (lt_of_define_eq_extraLarge hclass)

/-! ## Allocation for a caller -/

/-- The permission to give a chunk back is used up by a call that serves, and kept by one
that does not. -/
theorem tryAlloc_triple (hA : ServesAlways A) (size : Nat) :
    (discipline P).Triple (tokens {.permit}) (tryAlloc A size)
      fun r => tokens (served (blockItem size) r) := by
  unfold tryAlloc
  cases hclass : SizeClass.define size with
  | common => exact allocCommon_triple hA hclass
  | large => exact allocLarge_triple hA hclass
  | extraLarge =>
      have halloc := (allocExtraLarge_triple hA.toServes
        (lt_of_define_eq_extraLarge hclass)).frame (tokens {.permit})
      rw [zero_add] at halloc
      refine Triple.served (halloc.conv rfl fun r => ?_)
      cases r with
      | none => rfl
      | some ptr => rfl

/-! ## Closing the recursion -/

/-- The allocator, for calls that nest at most so deep, serves itself. -/
theorem servesAlways_threadLocalAllocator (depth : Nat) :
    ServesAlways (threadLocalAllocator depth : AllocatorForSelfAllocations P) := by
  induction depth with
  | zero =>
      refine ⟨⟨fun _ _ _ _ => Discipline.Triple.fault _, fun _ _ _ => Discipline.Triple.fault _⟩,
        fun _ _ _ _ hret => absurd hret Machine.not_returns_fault⟩
  | succ depth ih =>
      refine ⟨⟨fun limit size hasState hreal => selfAlloc_triple ih limit size hasState hreal,
        fun ptr size hasState => selfDealloc_triple ih.toServes ptr size hasState⟩, ?_⟩
      exact fun hformed hready hslot hreal hret =>
        returns_selfAlloc_boots hformed hready hslot hreal hret

end Memalart
