/-
# The memory that one allocator works on

The fields of a `ThreadLocalAllocator`, the bootstrap States that calls of it are
working with, the messages that other allocators have left for it and that it has
left for others, and the operating system.  The two object tables are one table
indexed by the class, and so are the two chunk tables; a chunk table whose box
does not exist yet has only empty vectors.
-/

import Memalart.SelfAllocatedVec
import Memalart.State
import Memalart.UsedObjects

namespace Memalart

open Memalart.Lib

/-! ## The B-tree of extra-large sizes -/

/-- The interface of `SelfAllocatedBTreeMap<usize, usize>`, the map from an
extra-large size to the number of live blocks of that size.  The nodes of the
tree are objects of the allocator itself; the laws are those of a map whose nodes
are counted. -/
structure SizeTree where
  Tree : Type
  empty : Tree
  /-- What `iter` yields. -/
  entries : Tree → List (Nat × Nat)
  /-- Address and size of every node. -/
  nodes : Tree → List (Nat × Nat)
  /-- `self_allocated_memory`: a real size and the number of nodes of that size. -/
  selfAllocatedMemory : Tree → List (Nat × Nat)
  /-- `and_modify` on an occupied entry. -/
  modify : Nat → (Nat → Nat) → Tree → Tree
  /-- The sizes of the nodes that inserting a new key allocates, in order. -/
  nodesToInsert : Nat → Tree → List Nat
  /-- Insert a new key, with the addresses of the nodes that it needs. -/
  insert : Nat → Nat → List Nat → Tree → Tree
  /-- Remove a key; the nodes that merging gives back come with it. -/
  remove : Nat → Tree → Tree × List (Nat × Nat)
  entries_empty : entries empty = []
  nodes_empty : nodes empty = []
  entries_modify : ∀ k f t,
    entries (modify k f t) = (entries t).map fun e => if e.1 = k then (e.1, f e.2) else e
  nodes_modify : ∀ k f t, nodes (modify k f t) = nodes t
  entries_insert : ∀ k n ptrs t, (entries t).lookup k = none →
    (entries (insert k n ptrs t)).Perm ((k, n) :: entries t)
  nodes_insert : ∀ k n ptrs t, ptrs.length = (nodesToInsert k t).length →
    (nodes (insert k n ptrs t)).Perm (ptrs.zip (nodesToInsert k t) ++ nodes t)
  entries_remove : ∀ k t, entries (remove k t).1 = (entries t).filter fun e => e.1 ≠ k
  nodes_remove : ∀ k t, (nodes t).Perm ((remove k t).2 ++ nodes (remove k t).1)
  total_selfAllocatedMemory : ∀ s t, s ≠ 0 →
    UsedObjects.total s ((selfAllocatedMemory t).map fun e => (e.2, e.1)) =
      (nodes t).countP fun node => recommendedSize node.2 = s
  node_size : ∀ t, ∀ node ∈ nodes t, 1 ≤ node.2 ∧ node.2 ≤ commonSizeMax
  nodesToInsert_size : ∀ k t, ∀ size ∈ nodesToInsert k t, 1 ≤ size ∧ size ≤ commonSizeMax

/-- What the allocator is generic in: the size of its manager, whether the manager
asks for incoming pointers to be checked by the slow paths, and the tree.  A
manager is at most as large as an object that a chunk is cut into. -/
structure Params where
  managerSize : Nat
  managerSize_le : managerSize ≤ largeSizeMax
  shouldAutoCheck : Bool
  tree : SizeTree

/-! ## The allocator -/

structure RegionView where
  ptr : Nat
  numberOfCommonChunksOccupied : Nat
deriving DecidableEq

/-- The vectors of an allocator. -/
inductive VecId
  | object (s : Slot)
  | chunk (s : Slot)
  | freeLargeChunks
  | freeCommonChunks
  | regions
deriving DecidableEq

namespace VecId

/-- The elements are pointers, except for the views of the regions. -/
@[reducible] def Elem : VecId → Type
  | .regions => RegionView
  | _ => Nat

/-- `size_of` of an element. -/
def elemSize : VecId → Nat
  | .regions => 16
  | _ => 8

theorem elemSize_eq (v : VecId) : v.elemSize = 8 ∨ v.elemSize = 16 := by
  cases v <;> simp [elemSize]

end VecId

structure ThreadLocalAllocatorInner (P : Params) where
  nonLocalPtrManager : Option Nat
  objectTable : Slot → SelfAllocatedVec Nat
  commonChunkTable : Option Nat
  largeChunkTable : Option Nat
  chunkTable : Slot → SelfAllocatedVec Nat
  freeLargeChunks : SelfAllocatedVec Nat
  freeCommonChunks : SelfAllocatedVec Nat
  regions : SelfAllocatedVec RegionView
  allocatedLargeSizes : P.tree.Tree
  isBorrowedForUnknownTime : Bool
  isAlreadyDestructured : Bool
  isDestructorRegistered : Bool

/-- What a remote free carries: a pointer and the vector it belongs to. -/
structure NonLocalPtrData where
  ptr : Nat
  offsetToSlotInTable : OffsetToSlotInTable
deriving DecidableEq

/-- A node of a manager's list: its address and its value. -/
structure Node where
  addr : Nat
  value : NonLocalPtrData
deriving DecidableEq

/-- `size_of::<Node<NonLocalPtrData>>()`: the link, the pointer and the offset. -/
def sizeOfNode : Nat := 32

structure World (P : Params) where
  inner : ThreadLocalAllocatorInner P
  os : Os
  /-- The chains of bootstrap States that calls are working with, innermost first. -/
  states : List (List State)
  /-- The manager's list, from its head on. -/
  incoming : List Node
  /-- The nodes this allocator has pushed on lists, with the manager of the list. -/
  outbox : List (Nat × Node)
  /-- The tree is being changed: a node of it is being allocated or given back. -/
  treeBusy : Bool

variable {P : Params}

namespace ThreadLocalAllocatorInner

def new : ThreadLocalAllocatorInner P where
  nonLocalPtrManager := none
  objectTable := fun _ => .new
  commonChunkTable := none
  largeChunkTable := none
  chunkTable := fun _ => .new
  freeLargeChunks := .new
  freeCommonChunks := .new
  regions := .new
  allocatedLargeSizes := P.tree.empty
  isBorrowedForUnknownTime := false
  isAlreadyDestructured := false
  isDestructorRegistered := false

def vec (a : ThreadLocalAllocatorInner P) : (v : VecId) → SelfAllocatedVec v.Elem
  | .object s => a.objectTable s
  | .chunk s => a.chunkTable s
  | .freeLargeChunks => a.freeLargeChunks
  | .freeCommonChunks => a.freeCommonChunks
  | .regions => a.regions

def setVec (a : ThreadLocalAllocatorInner P) :
    (v : VecId) → SelfAllocatedVec v.Elem → ThreadLocalAllocatorInner P
  | .object s, x => { a with objectTable := fun t => if t = s then x else a.objectTable t }
  | .chunk s, x => { a with chunkTable := fun t => if t = s then x else a.chunkTable t }
  | .freeLargeChunks, x => { a with freeLargeChunks := x }
  | .freeCommonChunks, x => { a with freeCommonChunks := x }
  | .regions, x => { a with regions := x }

variable (a : ThreadLocalAllocatorInner P) (v : VecId) (x : SelfAllocatedVec v.Elem)

@[simp] theorem vec_setVec_self : (a.setVec v x).vec v = x := by
  cases v <;> simp [setVec, vec]

theorem vec_setVec_of_ne {u : VecId} (h : u ≠ v) : (a.setVec v x).vec u = a.vec u := by
  cases v <;> cases u <;> simp_all [setVec, vec]

@[simp] theorem nonLocalPtrManager_setVec :
    (a.setVec v x).nonLocalPtrManager = a.nonLocalPtrManager := by cases v <;> rfl

@[simp] theorem commonChunkTable_setVec :
    (a.setVec v x).commonChunkTable = a.commonChunkTable := by cases v <;> rfl

@[simp] theorem largeChunkTable_setVec :
    (a.setVec v x).largeChunkTable = a.largeChunkTable := by cases v <;> rfl

@[simp] theorem allocatedLargeSizes_setVec :
    (a.setVec v x).allocatedLargeSizes = a.allocatedLargeSizes := by cases v <;> rfl

@[simp] theorem isDestructorRegistered_setVec :
    (a.setVec v x).isDestructorRegistered = a.isDestructorRegistered := by cases v <;> rfl

@[simp] theorem vec_new (v : VecId) : (new : ThreadLocalAllocatorInner P).vec v = .new := by
  cases v <;> rfl

end ThreadLocalAllocatorInner

/-- Computations of the allocator. -/
abbrev M (P : Params) := Machine (World P) Fault

namespace World

/-- An allocator that has not been used yet. -/
def new (os : Os) : World P where
  inner := .new
  os := os
  states := []
  incoming := []
  outbox := []
  treeBusy := false

def vec (w : World P) (v : VecId) : SelfAllocatedVec v.Elem := w.inner.vec v

def setVec (w : World P) (v : VecId) (x : SelfAllocatedVec v.Elem) : World P :=
  { w with inner := w.inner.setVec v x }

def setOs (w : World P) (os : Os) : World P := { w with os := os }

variable (w : World P) (v : VecId) (x : SelfAllocatedVec v.Elem)

@[simp] theorem vec_setVec_self : (w.setVec v x).vec v = x := by simp [setVec, vec]

theorem vec_setVec_of_ne {u : VecId} (h : u ≠ v) : (w.setVec v x).vec u = w.vec u :=
  ThreadLocalAllocatorInner.vec_setVec_of_ne _ _ _ h

@[simp] theorem os_setVec : (w.setVec v x).os = w.os := rfl
@[simp] theorem states_setVec : (w.setVec v x).states = w.states := rfl
@[simp] theorem outbox_setVec : (w.setVec v x).outbox = w.outbox := rfl
@[simp] theorem incoming_setVec : (w.setVec v x).incoming = w.incoming := rfl
@[simp] theorem inner_setVec : (w.setVec v x).inner = w.inner.setVec v x := rfl
@[simp] theorem vec_setOs (os : Os) : (w.setOs os).vec v = w.vec v := rfl

end World

end Memalart
