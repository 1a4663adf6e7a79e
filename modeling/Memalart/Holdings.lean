/-
# What an allocator holds

The abstraction from the concrete allocator to its estate.  Every vector holds its
elements and its buffer, the boxes, the manager and the nodes of the tree hold
their objects, and a bootstrap State holds its region and its chunks.  What calls
in progress have in hand are tokens.
-/

import Mathlib.Algebra.BigOperators.Group.Finset.Basic
import Mathlib.Algebra.BigOperators.Group.Multiset.Basic
import Mathlib.Data.Fintype.Sum
import Mathlib.Tactic.DeriveFintype
import Memalart.Allocator
import Memalart.MetadataLedger

namespace Memalart

open Memalart.Lib

variable {P : Params}

deriving instance Fintype for Slot
deriving instance Fintype for VecId

/-! ## Items of the data structures -/

/-- A block that was allocated with a size: an object, or an extra-large block. -/
def blockItem (size ptr : Nat) : Item :=
  match slotForSize size with
  | some s => .object s ptr
  | none => .extra size ptr

/-- The block that an optional pointer names. -/
def blockOf (size : Nat) : Option Nat → Multiset Item
  | some ptr => {blockItem size ptr}
  | none => 0

/-- The buffer of a vector. -/
def bufferItems (v : VecId) (ptr cap : Nat) : Multiset Item :=
  if cap = 0 then 0 else {blockItem (cap * v.elemSize) ptr}

/-- What the elements of a vector stand for. -/
def contents : (v : VecId) → List v.Elem → Multiset Item
  | .object s, xs => Item.all (.object s) xs
  | .chunk s, xs => Item.all (.recorded s) xs
  | .freeLargeChunks, xs => Item.all (.chunk .large) xs
  | .freeCommonChunks, xs => Item.all (.chunk .common) xs
  | .regions, xs => (xs.map fun view => .view view.ptr view.numberOfCommonChunksOccupied : List Item)

def vecItems (v : VecId) (x : SelfAllocatedVec v.Elem) : Multiset Item :=
  contents v x.elems + bufferItems v x.ptr x.cap

def usedItems (k : ChunkKind) (chunks : List UsedChunk) : Multiset Item :=
  (chunks.map (.cutting k) : List Item)

def State.items (s : State) : Multiset Item :=
  {.parsed s.regionPtr} + Item.all (.chunk .common) s.freeCommonChunks +
    Item.all (.chunk .large) s.freeLargeChunks + usedItems .common s.usedCommonChunks +
    usedItems .large s.usedLargeChunks + blockOf sizeOfState s.storage

def chainItems (chain : List State) : Multiset Item := (chain.map State.items).sum

def managerItems (P : Params) (manager : Option Nat) : Multiset Item :=
  if P.managerSize = 0 then 0 else blockOf P.managerSize manager

def nodeItems (nodes : List (Nat × Nat)) : Multiset Item :=
  (nodes.map fun node => blockItem node.2 node.1 : List Item)

def ThreadLocalAllocatorInner.items (a : ThreadLocalAllocatorInner P) : Multiset Item :=
  ∑ v, vecItems v (a.vec v) +
    (blockOf (ThreadLocalAllocator.chunkTableSize .common) a.commonChunkTable +
      blockOf (ThreadLocalAllocator.chunkTableSize .large) a.largeChunkTable +
      managerItems P a.nonLocalPtrManager + nodeItems (P.tree.nodes a.allocatedLargeSizes))

def World.holdings (w : World P) : Multiset Item :=
  w.inner.items + (w.states.map chainItems).sum

/-! ## How they change -/

/-- An exchange in one summand is an exchange in a sum. -/
theorem add_exchange {new old x y others states : Multiset Item} (h : new + x = old + y) :
    new + others + states + x = old + others + states + y := by
  calc new + others + states + x = (new + x) + (others + states) := by abel
    _ = (old + y) + (others + states) := by rw [h]
    _ = old + others + states + y := by abel

theorem sum_vecItems_setVec (a : ThreadLocalAllocatorInner P) (v : VecId)
    (x : SelfAllocatedVec v.Elem) :
    ∑ u, vecItems u ((a.setVec v x).vec u) + vecItems v (a.vec v) =
      ∑ u, vecItems u (a.vec u) + vecItems v x := by
  have hrest : ∑ u ∈ Finset.univ.erase v, vecItems u ((a.setVec v x).vec u) =
      ∑ u ∈ Finset.univ.erase v, vecItems u (a.vec u) :=
    Finset.sum_congr rfl fun u hu => by
      rw [a.vec_setVec_of_ne v x (Finset.ne_of_mem_erase hu)]
  rw [← Finset.add_sum_erase _ _ (Finset.mem_univ v),
    ← Finset.add_sum_erase Finset.univ (fun u => vecItems u (a.vec u)) (Finset.mem_univ v), hrest,
    ThreadLocalAllocatorInner.vec_setVec_self]
  abel

namespace World

variable (w : World P)

/-- Replacing a vector exchanges its items. -/
theorem holdings_setVec (v : VecId) (x : SelfAllocatedVec v.Elem) :
    (w.setVec v x).holdings + vecItems v (w.vec v) = w.holdings + vecItems v x := by
  have hsum := sum_vecItems_setVec w.inner v x
  simp only [holdings, ThreadLocalAllocatorInner.items, states_setVec, inner_setVec,
    ThreadLocalAllocatorInner.commonChunkTable_setVec,
    ThreadLocalAllocatorInner.largeChunkTable_setVec,
    ThreadLocalAllocatorInner.nonLocalPtrManager_setVec,
    ThreadLocalAllocatorInner.allocatedLargeSizes_setVec, World.vec]
  exact add_exchange hsum

@[simp] theorem holdings_setOs (os : Os) : (w.setOs os).holdings = w.holdings := rfl

end World

@[simp] theorem chainItems_nil : chainItems [] = 0 := rfl

@[simp] theorem chainItems_cons (s : State) (chain : List State) :
    chainItems (s :: chain) = s.items + chainItems chain := rfl

@[simp] theorem chainItems_append (chain chain' : List State) :
    chainItems (chain ++ chain') = chainItems chain + chainItems chain' := by
  simp [chainItems]

@[simp] theorem usedItems_nil (k : ChunkKind) : usedItems k [] = 0 := rfl

@[simp] theorem usedItems_cons (k : ChunkKind) (u : UsedChunk) (chunks : List UsedChunk) :
    usedItems k (u :: chunks) = {.cutting k u} + usedItems k chunks := rfl

@[simp] theorem usedItems_append (k : ChunkKind) (chunks chunks' : List UsedChunk) :
    usedItems k (chunks ++ chunks') = usedItems k chunks + usedItems k chunks' := by
  simp [usedItems]

@[simp] theorem blockOf_none (size : Nat) : blockOf size none = 0 := rfl
@[simp] theorem blockOf_some (size ptr : Nat) : blockOf size (some ptr) = {blockItem size ptr} := rfl

theorem blockItem_of_slot {size : Nat} {s : Slot} (h : slotForSize size = some s) (ptr : Nat) :
    blockItem size ptr = .object s ptr := by
  simp [blockItem, h]

namespace State

theorem items_setUsed (s : State) (chunks : List UsedChunk) (k : ChunkKind) :
    (s.setUsed chunks k).items + usedItems k (s.used k) = s.items + usedItems k chunks := by
  cases k <;> simp only [items, setUsed, used] <;> abel

theorem items_fromRegion (region : Nat) (first : FirstState) :
    (fromRegion region first).items = {.parsed region} + regionChunks region := by
  simp only [items, fromRegion, Item.all_reverse, regionChunks, usedItems_nil, blockOf_none,
    add_zero, add_assoc]

theorem items_storage (s : State) (ptr : Nat) (hnone : s.storage = none) :
    ({ s with storage := some ptr } : State).items = s.items + {blockItem sizeOfState ptr} := by
  simp only [items, hnone, blockOf_none, blockOf_some, add_zero]

end State

end Memalart
