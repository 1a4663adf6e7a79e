/-
# Removal and rebalancing

A key is removed from a leaf.  A node that has too few keys afterwards takes some from a
sibling or is merged with it, which removes a key from the parent, and so on upwards.
-/

import Memalart.BTree.Navigate

namespace Memalart.BTree

open Lib Machine

variable {K V : Type}

/-- `BalancingContext`: a key and value of an internal node with the children around it. -/
structure BalancingContext (K V : Type) where
  parent : NodeHandle K V
  leftChild : Node K V
  rightChild : Node K V

/-- `choose_parent_kv`: the sibling on the left where there is one; none at the root. -/
def NodeRef.chooseParentKv (r : NodeRef K V) :
    Except Fault (Option (LeftOrRight (BalancingContext K V))) := do
  match ← r.ascend with
  | none => .ok none
  | some parentEdge =>
      match parentEdge.leftKv with
      | some leftParentKv => do
          let leftChild ← leftParentKv.leftEdge.descend
          .ok (some (.left ⟨leftParentKv, leftChild.node, r.node⟩))
      | none =>
          match parentEdge.rightKv with
          | some rightParentKv => do
              let rightChild ← rightParentKv.rightEdge.descend
              .ok (some (.right ⟨rightParentKv, r.node, rightChild.node⟩))
          | none => .error (.panic "empty internal node")

namespace BalancingContext

/-- `can_merge`. -/
def canMerge (ctx : BalancingContext K V) : Bool :=
  ctx.leftChild.len + 1 + ctx.rightChild.len ≤ capacity

/-- The parent with the children as they are now. -/
def writeBack (ctx : BalancingContext K V) : NodeRef K V :=
  { ctx.parent.node with
    node.edges := (ctx.parent.node.node.edges.set ctx.parent.idx ctx.leftChild).set
      (ctx.parent.idx + 1) ctx.rightChild }

/-- `do_merge`, which returns the parent and the left child. -/
def doMerge (S : NodeSizes) (ctx : BalancingContext K V) : Heap (NodeRef K V × Node K V) := do
  let parent := ctx.parent.node.node
  let parentIdx := ctx.parent.idx
  let left := ctx.leftChild
  let right := ctx.rightChild
  let newLeftLen := left.len + 1 + right.len
  if newLeftLen ≤ capacity then do
    let kv ← ofExcept (getUnchecked parent.kvs parentIdx)
    let left := { left with kvs := left.kvs ++ kv :: right.kvs }
    let parent' := { parent with
      kvs := sliceRemove parent.kvs parentIdx
      edges := sliceRemove parent.edges (parentIdx + 1) }
        |>.correctChildrensParentLinks (parentIdx + 1) parent.len
    if ctx.parent.node.height > 1 then do
      let left := { left with edges := left.edges ++ right.edges }
        |>.correctChildrensParentLinks (ctx.leftChild.len + 1) (newLeftLen + 1)
      deallocNode right.addr S.internal
      pure ({ ctx.parent.node with
        node := { parent' with edges := parent'.edges.set parentIdx left } }, left)
    else do
      deallocNode right.addr S.leaf
      pure ({ ctx.parent.node with
        node := { parent' with edges := parent'.edges.set parentIdx left } }, left)
  else fault (.panic "assertion failed: new_left_len <= CAPACITY")

/-- `merge_tracking_parent`. -/
def mergeTrackingParent (S : NodeSizes) (ctx : BalancingContext K V) : Heap (NodeRef K V) := do
  let (parent, _) ← ctx.doMerge S
  pure parent

/-- A child of the parent, at the edge with an index. -/
def childAt (parent : NodeRef K V) (idx : Nat) (child : Node K V) : NodeRef K V :=
  ⟨parent.height - 1, child, parent.node.frameAt idx :: parent.path⟩

/-- `merge_tracking_child_edge`. -/
def mergeTrackingChildEdge (S : NodeSizes) (ctx : BalancingContext K V)
    (trackEdgeIdx : LeftOrRight Nat) : Heap (NodeHandle K V) := do
  let oldLeftLen := ctx.leftChild.len
  match trackEdgeIdx with
  | .left idx =>
      if idx ≤ oldLeftLen then do
        let (parent, child) ← ctx.doMerge S
        pure ⟨childAt parent ctx.parent.idx child, idx⟩
      else fault (.panic "assertion failed: idx <= old_left_len")
  | .right idx =>
      if idx ≤ ctx.rightChild.len then do
        let (parent, child) ← ctx.doMerge S
        pure ⟨childAt parent ctx.parent.idx child, oldLeftLen + 1 + idx⟩
      else fault (.panic "assertion failed: idx <= right_len")

/-- `bulk_steal_left`. -/
def bulkStealLeft (ctx : BalancingContext K V) (count : Nat) :
    Except Fault (BalancingContext K V) :=
  let left := ctx.leftChild
  let right := ctx.rightChild
  if count > 0 ∧ right.len + count ≤ capacity ∧ left.len ≥ count then do
    let newLeftLen := left.len - count
    let newRightLen := right.len + count
    let stolen ← getUnchecked left.kvs newLeftLen
    let kv ← ctx.parent.intoKv
    let left' := { left with kvs := left.kvs.take newLeftLen }
    let right' := { right with kvs := left.kvs.drop (newLeftLen + 1) ++ kv :: right.kvs }
    if ctx.parent.node.height > 1 then
      .ok ⟨ctx.parent.replaceKv stolen, { left' with edges := left.edges.take (newLeftLen + 1) },
        { right' with edges := left.edges.drop (newLeftLen + 1) ++ right.edges }
          |>.correctChildrensParentLinks 0 (newRightLen + 1)⟩
    else .ok ⟨ctx.parent.replaceKv stolen, left', right'⟩
  else .error (.panic "assertion failed in bulk_steal_left")

/-- `bulk_steal_right`. -/
def bulkStealRight (ctx : BalancingContext K V) (count : Nat) :
    Except Fault (BalancingContext K V) :=
  let left := ctx.leftChild
  let right := ctx.rightChild
  if count > 0 ∧ left.len + count ≤ capacity ∧ right.len ≥ count then do
    let newLeftLen := left.len + count
    let newRightLen := right.len - count
    let stolen ← getUnchecked right.kvs (count - 1)
    let kv ← ctx.parent.intoKv
    let left' := { left with kvs := left.kvs ++ kv :: right.kvs.take (count - 1) }
    let right' := { right with kvs := right.kvs.drop count }
    if ctx.parent.node.height > 1 then
      .ok ⟨ctx.parent.replaceKv stolen,
        { left' with edges := left.edges ++ right.edges.take count }
          |>.correctChildrensParentLinks (left.len + 1) (newLeftLen + 1),
        { right' with edges := right.edges.drop count }
          |>.correctChildrensParentLinks 0 (newRightLen + 1)⟩
    else .ok ⟨ctx.parent.replaceKv stolen, left', right'⟩
  else .error (.panic "assertion failed in bulk_steal_right")

/-- `steal_left`. -/
def stealLeft (ctx : BalancingContext K V) (trackRightEdgeIdx : Nat) :
    Except Fault (NodeHandle K V) := do
  let ctx' ← ctx.bulkStealLeft 1
  .ok ⟨childAt ctx'.writeBack (ctx.parent.idx + 1) ctx'.rightChild, 1 + trackRightEdgeIdx⟩

/-- `steal_right`. -/
def stealRight (ctx : BalancingContext K V) (trackLeftEdgeIdx : Nat) :
    Except Fault (NodeHandle K V) := do
  let ctx' ← ctx.bulkStealRight 1
  .ok ⟨childAt ctx'.writeBack ctx.parent.idx ctx'.leftChild, trackLeftEdgeIdx⟩

end BalancingContext

/-! ## Up from an underfull node -/

/-- What `fix_node_through_parent` returns: `Ok(Some(parent))`, `Ok(None)` or `Err(root)`,
each with the place it leaves the tree at. -/
inductive Fixed (K V : Type)
  | parent (parent : NodeRef K V)
  | done (place : NodeRef K V)
  | emptyRoot (root : NodeRef K V)

namespace NodeRef

/-- `fix_node_through_parent`. -/
def fixNodeThroughParent (S : NodeSizes) (r : NodeRef K V) : Heap (Fixed K V) := do
  let len := r.len
  if len ≥ minLen then pure (.done r)
  else
    match ← ofExcept r.chooseParentKv with
    | some (.left leftParentKv) =>
        if leftParentKv.canMerge then do
          let parent ← leftParentKv.mergeTrackingParent S
          pure (.parent parent)
        else do
          let ctx ← ofExcept (leftParentKv.bulkStealLeft (minLen - len))
          pure (.done ctx.writeBack)
    | some (.right rightParentKv) =>
        if rightParentKv.canMerge then do
          let parent ← rightParentKv.mergeTrackingParent S
          pure (.parent parent)
        else do
          let ctx ← ofExcept (rightParentKv.bulkStealRight (minLen - len))
          pure (.done ctx.writeBack)
    | none => if len > 0 then pure (.done r) else pure (.emptyRoot r)

/-- The loop of `fix_node_and_affected_ancestors`. -/
def fixLoop (S : NodeSizes) : Nat → NodeRef K V → Heap (Root K V × Bool)
  | 0, _ => fault .outOfFuel
  | fuel + 1, r => do
      match ← r.fixNodeThroughParent S with
      | .parent parent => fixLoop S fuel parent
      | .done place => pure (place.toRoot, true)
      | .emptyRoot root => pure (root.toRoot, false)

/-- `fix_node_and_affected_ancestors`: the tree, and whether its root still has a key. -/
def fixNodeAndAffectedAncestors (S : NodeSizes) (r : NodeRef K V) : Heap (Root K V × Bool) :=
  fixLoop S (r.path.length + 1) r

end NodeRef

/-! ## Removal -/

/-- What a removal returns: the key and value, the edge they have left, the tree, and
whether `handle_emptied_internal_root` has been called. -/
structure Removed (K V : Type) where
  kv : K × V
  pos : Dormant
  root : Root K V
  emptied : Bool

namespace NodeHandle

/-- `remove`, of a leaf's key and value. -/
def remove (kv : NodeHandle K V) : Except Fault ((K × V) × NodeHandle K V) := do
  let old ← getUnchecked kv.node.node.kvs kv.idx
  .ok (old, { kv with node.node.kvs := sliceRemove kv.node.node.kvs kv.idx }.leftEdge)

/-- The place of the removed key, after its leaf has been filled up from a sibling. -/
def rebalanceLeaf (S : NodeSizes) (pos : NodeHandle K V) : Heap (NodeHandle K V) := do
  match ← ofExcept pos.node.chooseParentKv with
  | some (.left leftParentKv) =>
      if leftParentKv.canMerge then leftParentKv.mergeTrackingChildEdge S (.right pos.idx)
      else ofExcept (leftParentKv.stealLeft pos.idx)
  | some (.right rightParentKv) =>
      if rightParentKv.canMerge then rightParentKv.mergeTrackingChildEdge S (.left pos.idx)
      else ofExcept (rightParentKv.stealRight pos.idx)
  | none => pure pos

/-- `remove_leaf_kv`. -/
def removeLeafKv (S : NodeSizes) (kv : NodeHandle K V) : Heap (Removed K V) := do
  let (old, pos) ← ofExcept kv.remove
  if pos.node.len < minLen then do
    let pos ← pos.rebalanceLeaf S
    match ← ofExcept pos.node.ascend with
    | some parent => do
        let (root, ok) ← parent.node.fixNodeAndAffectedAncestors S
        pure ⟨old, pos.dormant, root, !ok⟩
    | none => pure ⟨old, pos.dormant, pos.node.toRoot, false⟩
  else pure ⟨old, pos.dormant, pos.node.toRoot, false⟩

/-- `remove_internal_kv`. -/
def removeInternalKv (S : NodeSizes) (kv : NodeHandle K V) : Heap (Removed K V) := do
  let child ← ofExcept kv.leftEdge.descend
  let edge ← ofExcept child.lastLeafEdge
  match edge.leftKv with
  | none => fault (.bugHint "There is no key on the left.")
  | some leftLeafKv => do
    let removed ← leftLeafKv.removeLeafKv S
    -- The internal node may have been changed or merged: find the key again from the hole.
    let leftHole ← ofExcept (removed.pos.awaken removed.root)
    match ← ofExcept leftHole.nextKv with
    | none => fault (.bugHint "There is no key on the right.")
    | some internal => do
      let old ← ofExcept internal.intoKv
      let internal := internal.replaceKv removed.kv
      let pos ← ofExcept internal.nextLeafEdge
      pure ⟨old, pos.dormant, internal.node.toRoot, removed.emptied⟩

/-- `remove_kv_tracking`. -/
def removeKvTracking (S : NodeSizes) (kv : NodeHandle K V) : Heap (Removed K V) :=
  if kv.node.height = 0 then kv.removeLeafKv S else kv.removeInternalKv S

end NodeHandle

end Memalart.BTree
