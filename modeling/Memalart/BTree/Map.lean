/-
# The map

`SelfAllocatedBTreeMap` with the calls that the allocator makes: `entry` with `and_modify`
and `or_insert`, `remove`, `iter`, `len` and `clear`.  The counters that the map has as a
field stand next to the history of the allocator.
-/

import Memalart.BTree.Balance
import Memalart.BTree.Insert

namespace Memalart.BTree

open Lib Machine

variable {K V : Type}

structure SelfAllocatedBTreeMap (K V : Type) where
  root : Option (Root K V)
  length : Nat

/-- `Entry`: `OccupiedEntry` or `VacantEntry`. -/
inductive Entry (K V : Type)
  | occupied (handle : NodeHandle K V)
  | vacant (key : K) (handle : Option (NodeHandle K V))

namespace Entry

/-- `and_modify`. -/
def andModify (f : V → V) : Entry K V → Except Fault (Entry K V)
  | occupied handle => do
      let kv ← handle.intoKv
      .ok (occupied (handle.replaceKv (kv.1, f kv.2)))
  | vacant key handle => .ok (vacant key handle)

/-- The map after an entry that is not used any more. -/
def release (map : SelfAllocatedBTreeMap K V) : Entry K V → SelfAllocatedBTreeMap K V
  | occupied handle => { map with root := some handle.node.toRoot }
  | vacant _ _ => map

end Entry

namespace SelfAllocatedBTreeMap

def new : SelfAllocatedBTreeMap K V := ⟨none, 0⟩

/-- `len`. -/
def len (map : SelfAllocatedBTreeMap K V) : Nat := map.length

/-- `VacantEntry::insert`: the place of the value, unless the allocator has refused. -/
def insertVacant (A : SelfAllocator) (S : NodeSizes) (map : SelfAllocatedBTreeMap K V) (key : K)
    (handle : Option (NodeHandle K V)) (value : V) :
    Heap (Option (NodeHandle K V) × SelfAllocatedBTreeMap K V) := do
  match handle with
  | none => do
      match ← LeafNode.new (K := K) (V := V) A S with
      | none => pure (none, map)
      | some leaf => do
          let (leaf, idx) ← ofExcept (leaf.pushLeaf (key, value))
          pure (some ⟨⟨0, leaf, []⟩, idx⟩, ⟨some ⟨0, leaf⟩, 1⟩)
  | some handle => do
      let newHandle ← insertRecursing A S handle (key, value)
      pure (some newHandle, ⟨some newHandle.node.toRoot, map.length + 1⟩)

/-- `or_insert`: the place that the `&mut V` refers to. -/
def orInsert (A : SelfAllocator) (S : NodeSizes) (map : SelfAllocatedBTreeMap K V)
    (entry : Entry K V) (default : V) :
    Heap (Option (NodeHandle K V) × SelfAllocatedBTreeMap K V) :=
  match entry with
  | .occupied handle => pure (some handle, (Entry.occupied handle).release map)
  | .vacant key handle => map.insertVacant A S key handle default

/-- `OccupiedEntry::remove_kv`. -/
def removeOccupied (S : NodeSizes) (map : SelfAllocatedBTreeMap K V) (handle : NodeHandle K V) :
    Heap ((K × V) × SelfAllocatedBTreeMap K V) := do
  let removed ← handle.removeKvTracking S
  if removed.emptied then do
    let root ← removed.root.popInternalLevel S
    pure (removed.kv, ⟨some root, map.length - 1⟩)
  else pure (removed.kv, ⟨some removed.root, map.length - 1⟩)

section Search

variable [LinearOrder K]

/-- `entry`. -/
def entry (map : SelfAllocatedBTreeMap K V) (key : K) : Except Fault (Entry K V) :=
  match map.root with
  | none => .ok (.vacant key none)
  | some root => do
      match ← root.borrow.searchTree key with
      | .found handle => .ok (.occupied handle)
      | .goDown handle => .ok (.vacant key (some handle))

/-- The value that a call of `or_insert` refers to. -/
def valueAt (res : Option (NodeHandle K V) × SelfAllocatedBTreeMap K V) :
    Heap (Option V × SelfAllocatedBTreeMap K V) := do
  match res.1 with
  | none => pure (none, res.2)
  | some place => do
      let kv ← ofExcept place.intoKv
      pure (some kv.2, res.2)

/-- `entry(key).or_insert(default)`, and a read through the reference that it returns. -/
def getOrInsert (A : SelfAllocator) (S : NodeSizes) (map : SelfAllocatedBTreeMap K V) (key : K)
    (default : V) : Heap (Option V × SelfAllocatedBTreeMap K V) := do
  let entry ← ofExcept (map.entry key)
  let res ← map.orInsert A S entry default
  valueAt res

/-- `entry(key).and_modify(f)`. -/
def andModify (map : SelfAllocatedBTreeMap K V) (key : K) (f : V → V) :
    Except Fault (SelfAllocatedBTreeMap K V) := do
  let entry ← map.entry key
  let entry ← entry.andModify f
  .ok (entry.release map)

/-- `entry(key).and_modify(f).or_insert(default)`, and a read through the reference that it
returns. -/
def modifyOrInsert (A : SelfAllocator) (S : NodeSizes) (map : SelfAllocatedBTreeMap K V) (key : K)
    (f : V → V) (default : V) : Heap (Option V × SelfAllocatedBTreeMap K V) := do
  let entry ← ofExcept (map.entry key)
  let entry ← ofExcept (entry.andModify f)
  let res ← map.orInsert A S entry default
  valueAt res

/-- `remove`, with `remove_entry`. -/
def remove (S : NodeSizes) (map : SelfAllocatedBTreeMap K V) (key : K) :
    Heap (Option V × SelfAllocatedBTreeMap K V) := do
  match map.root with
  | none => pure (none, map)
  | some root => do
      match ← ofExcept (root.borrow.searchTree key) with
      | .found handle => do
          let (kv, map) ← map.removeOccupied S handle
          pure (some kv.2, map)
      | .goDown _ => pure (none, map)

end Search

end SelfAllocatedBTreeMap

/-! ## Iteration -/

/-- `LazyLeafHandle`. -/
inductive LazyLeafHandle (K V : Type)
  | root (root : NodeRef K V)
  | edge (edge : NodeHandle K V)

/-- `first_leaf_edge` of a root that has not been descended. -/
def LazyLeafHandle.force : LazyLeafHandle K V → Except Fault (NodeHandle K V)
  | root r => r.firstLeafEdge
  | edge e => .ok e

/-- `Iter`, and the range of `IntoIter`, from the front. -/
structure Iter (K V : Type) where
  front : Option (LazyLeafHandle K V)
  length : Nat

/-- `iter`, and `into_iter`. -/
def SelfAllocatedBTreeMap.iter (map : SelfAllocatedBTreeMap K V) : Iter K V :=
  match map.root with
  | some root => ⟨some (.root root.borrow), map.length⟩
  | none => ⟨none, 0⟩

namespace Iter

/-- `init_front`, unwrapped. -/
def initFront (it : Iter K V) : Except Fault (NodeHandle K V) :=
  match it.front with
  | none => .error (.panic "called `Option::unwrap()` on a `None` value")
  | some front => front.force

/-- `next`. -/
def next (it : Iter K V) : Except Fault (Option (K × V) × Iter K V) :=
  if it.length = 0 then .ok (none, it)
  else do
    let edge ← it.initFront
    match ← edge.nextKv with
    | none => .error (.panic "called `Option::unwrap()` on a `None` value")
    | some kv => do
        let edge ← kv.nextLeafEdge
        let item ← kv.intoKv
        .ok (some item, ⟨some (.edge edge), it.length - 1⟩)

end Iter

/-! ## Clearing -/

namespace Memory

/-- The fresh counters of a cleared map. -/
def cleared (m : Memory) : Memory := { m with allocatedMemory := .new }

/-- `self_dealloc` of a dying node, and the decrement of the number that stands in for the
counters. -/
def buried (addr size plug : Nat) (m : Memory) : Memory :=
  { m with
    log := .dealloc addr size :: m.log
    underflowed := m.underflowed || decide (plug < size) }

end Memory

namespace NodeRef

/-- `deallocate_and_ascend`. -/
def deallocateAndAscend (S : NodeSizes) (r : NodeRef K V) (plug : Nat) :
    Heap (Option (NodeHandle K V) × Nat) := do
  let parent ← ofExcept r.ascend
  modify (Memory.buried r.node.addr (S.at r.height) plug)
  pure (parent, plug - S.at r.height)

end NodeRef

namespace NodeHandle

/-- The loop of `deallocating_next`: the edge after the next key. -/
def deallocatingNextLoop (S : NodeSizes) :
    Nat → NodeHandle K V → Nat → Heap (Option (NodeHandle K V))
  | 0, _, _ => fault .outOfFuel
  | fuel + 1, edge, plug =>
      match edge.rightKv with
      | some kv => do
          let next ← ofExcept kv.nextLeafEdge
          pure (some next)
      | none => do
          match ← edge.node.deallocateAndAscend S plug with
          | (some parentEdge, plug) => deallocatingNextLoop S fuel parentEdge plug
          | (none, _) => pure none

/-- The loop of `deallocating_end`. -/
def deallocatingEndLoop (S : NodeSizes) : Nat → NodeRef K V → Nat → Heap Unit
  | 0, _, _ => fault .outOfFuel
  | fuel + 1, r, plug => do
      match ← r.deallocateAndAscend S plug with
      | (some parentEdge, plug) => deallocatingEndLoop S fuel parentEdge.node plug
      | (none, _) => pure ()

end NodeHandle

namespace Iter

/-- `plug` of `dying_next`, `usize::MAX`. -/
def plug : Nat := usizeRange - 1

/-- `dying_next`: the range after it, none at the end. -/
def dyingNext (S : NodeSizes) (it : Iter K V) : Heap (Option (Iter K V)) := do
  if it.length = 0 then do
    match it.front with
    | none => pure none
    | some front => do
        let edge ← ofExcept front.force
        NodeHandle.deallocatingEndLoop S (edge.node.path.length + 1) edge.node plug
        pure none
  else do
    let edge ← ofExcept it.initFront
    match ← edge.deallocatingNextLoop S (edge.node.path.length + 1) plug with
    | none => fault (.panic "called `Option::unwrap()` on a `None` value")
    | some next => pure (some ⟨some (.edge next), it.length - 1⟩)

/-- The loop that drops an `IntoIter`. -/
def dropLoop (S : NodeSizes) : Nat → Iter K V → Heap Unit
  | 0, _ => fault .outOfFuel
  | fuel + 1, it => do
      match ← it.dyingNext S with
      | some rest => dropLoop S fuel rest
      | none => pure ()

end Iter

/-- `clear`. -/
def SelfAllocatedBTreeMap.clear (S : NodeSizes) (map : SelfAllocatedBTreeMap K V) :
    Heap (SelfAllocatedBTreeMap K V) := do
  modify Memory.cleared
  map.iter.dropLoop S (map.length + 1)
  pure .new

end Memalart.BTree
