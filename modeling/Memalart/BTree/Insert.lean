/-
# Insertion

A key goes into a leaf.  A full node is split at a point that depends on where the new key
goes, and the middle key goes into the parent in the same way, up to a new root.
-/

import Memalart.BTree.Node

namespace Memalart.BTree

open Lib Machine

variable {K V : Type}

/-- `SplitResult`: the changed node, the key and value split off, and the new node. -/
structure SplitResult (K V : Type) where
  left : NodeRef K V
  kv : K × V
  right : Root K V

/-- What became of the node that something was inserted into. -/
inductive Insertion (K V : Type)
  | fit (node : NodeRef K V)
  | split (result : SplitResult K V)

/-- `splitpoint`. -/
def splitpoint (edgeIdx : Nat) : Nat × LeftOrRight Nat :=
  if edgeIdx < edgeIdxLeftOfCenter then (kvIdxCenter - 1, .left edgeIdx)
  else if edgeIdx = edgeIdxLeftOfCenter then (kvIdxCenter, .left edgeIdx)
  else if edgeIdx = edgeIdxRightOfCenter then (kvIdxCenter, .right 0)
  else (kvIdxCenter + 1, .right (edgeIdx - (kvIdxCenter + 1 + 1)))

namespace Node

/-- `insert_fit` of a leaf. -/
def insertFitLeaf (n : Node K V) (idx : Nat) (kv : K × V) : Node K V :=
  { n with kvs := sliceInsert n.kvs idx kv }

/-- `insert_fit` of an internal node. -/
def insertFitInternal (n : Node K V) (idx : Nat) (kv : K × V) (edge : Node K V) : Node K V :=
  { n with kvs := sliceInsert n.kvs idx kv, edges := sliceInsert n.edges (idx + 1) edge }
    |>.correctChildrensParentLinks (idx + 1) (n.len + 2)

/-- `split_leaf_data`: what stays, the key and value split off, and what moves. -/
def splitLeafData (n : Node K V) (idx : Nat) :
    Except Fault (List (K × V) × (K × V) × List (K × V)) := do
  let kv ← getUnchecked n.kvs idx
  .ok (n.kvs.take idx, kv, n.kvs.drop (idx + 1))

end Node

/-- `split` of a leaf. -/
def splitLeaf (A : SelfAllocator) (S : NodeSizes) (middle : NodeHandle K V) :
    Heap (SplitResult K V) := do
  match ← LeafNode.new (K := K) (V := V) A S with
  | none => fault (.panic "Failed to create leaf node for allocator.")
  | some newNode => do
    let (left, kv, right) ← ofExcept (middle.node.node.splitLeafData middle.idx)
    pure ⟨{ middle.node with node.kvs := left }, kv, ⟨0, { newNode with kvs := right }⟩⟩

/-- `split` of an internal node. -/
def splitInternal (A : SelfAllocator) (S : NodeSizes) (middle : NodeHandle K V) :
    Heap (SplitResult K V) := do
  match ← InternalNode.new (K := K) (V := V) A S with
  | none => fault (.panic "Failed to allocate memory for `NodeHandle`.")
  | some newNode => do
    let n := middle.node.node
    let (left, kv, right) ← ofExcept (n.splitLeafData middle.idx)
    pure ⟨{ middle.node with
        node := { n with kvs := left, edges := n.edges.take (middle.idx + 1) } }, kv,
      ⟨middle.node.height, { newNode with kvs := right, edges := n.edges.drop (middle.idx + 1) }
        |>.correctAllChildrensParentLinks⟩⟩

/-- `insert`, at an edge of a leaf, with the handle to the new value. -/
def insertLeaf (A : SelfAllocator) (S : NodeSizes) (edge : NodeHandle K V) (kv : K × V) :
    Heap (Insertion K V × Dormant) := do
  let n := edge.node.node
  if n.len < capacity then
    pure (.fit { edge.node with node := n.insertFitLeaf edge.idx kv }, edge.dormant)
  else do
    let result ← splitLeaf A S ⟨edge.node, (splitpoint edge.idx).1⟩
    match (splitpoint edge.idx).2 with
    | .left insertIdx =>
        pure (.split { result with left.node := result.left.node.insertFitLeaf insertIdx kv },
          ⟨result.left.node.addr, insertIdx⟩)
    | .right insertIdx =>
        pure (.split { result with right.node := result.right.node.insertFitLeaf insertIdx kv },
          ⟨result.right.node.addr, insertIdx⟩)

/-- `insert`, at an edge of an internal node. -/
def insertInternal (A : SelfAllocator) (S : NodeSizes) (parent : NodeHandle K V) (kv : K × V)
    (edge : Root K V) : Heap (Insertion K V) := do
  let n := parent.node.node
  if edge.height = parent.node.height - 1 then
    if n.len < capacity then
      pure (.fit { parent.node with node := n.insertFitInternal parent.idx kv edge.node })
    else do
      let result ← splitInternal A S ⟨parent.node, (splitpoint parent.idx).1⟩
      match (splitpoint parent.idx).2 with
      | .left insertIdx =>
          pure (.split { result with
            left.node := result.left.node.insertFitInternal insertIdx kv edge.node })
      | .right insertIdx =>
          pure (.split { result with
            right.node := result.right.node.insertFitInternal insertIdx kv edge.node })
  else fault (.panic "assertion failed: edge.height == self.node.height - 1")

/-- What `VacantEntry::insert` does when the root has been split. -/
def splitRoot (A : SelfAllocator) (S : NodeSizes) (ins : SplitResult K V) : Heap (Root K V) := do
  let root ← (Root.mk ins.left.height ins.left.node).pushInternalLevel A S
  let node ← ofExcept (root.node.pushInternal root.height ins.kv ins.right)
  pure { root with node := node }

/-- The loop of `insert_recursing`. -/
def insertRecursingLoop (A : SelfAllocator) (S : NodeSizes) :
    Nat → SplitResult K V → Heap (Root K V)
  | 0, _ => fault .outOfFuel
  | fuel + 1, split => do
      match ← ofExcept split.left.ascend with
      | some parent => do
          match ← insertInternal A S parent split.kv split.right with
          | .fit node => pure node.toRoot
          | .split result => insertRecursingLoop A S fuel result
      | none => splitRoot A S split

/-- `insert_recursing`: the new value, in the tree that it is in now. -/
def insertRecursing (A : SelfAllocator) (S : NodeSizes) (edge : NodeHandle K V) (kv : K × V) :
    Heap (NodeHandle K V) := do
  let (insertion, handle) ← insertLeaf A S edge kv
  match insertion with
  | .fit node => ofExcept (handle.awaken node.toRoot)
  | .split result => do
      let root ← insertRecursingLoop A S (edge.node.path.length + 1) result
      ofExcept (handle.awaken root)

end Memalart.BTree
