/-
# Walking through the tree

The walks down to a leaf, from a position to the next key, and the search for a key.  A walk
down is counted by the height, a walk up by the nodes above.
-/

import Mathlib.Order.Defs.LinearOrder
import Memalart.BTree.Node

namespace Memalart.BTree

variable {K V : Type}

namespace NodeRef

/-- The loop of `first_leaf_edge`. -/
def firstLeafEdgeLoop : Nat → NodeRef K V → Except Fault (NodeHandle K V)
  | 0, r => .ok r.firstEdge
  | height + 1, r => do
      let child ← r.firstEdge.descend
      firstLeafEdgeLoop height child

/-- `first_leaf_edge`. -/
def firstLeafEdge (r : NodeRef K V) : Except Fault (NodeHandle K V) := firstLeafEdgeLoop r.height r

/-- The loop of `last_leaf_edge`. -/
def lastLeafEdgeLoop : Nat → NodeRef K V → Except Fault (NodeHandle K V)
  | 0, r => .ok r.lastEdge
  | height + 1, r => do
      let child ← r.lastEdge.descend
      lastLeafEdgeLoop height child

/-- `last_leaf_edge`. -/
def lastLeafEdge (r : NodeRef K V) : Except Fault (NodeHandle K V) := lastLeafEdgeLoop r.height r

end NodeRef

namespace NodeHandle

/-- The loop of `next_kv`. -/
def nextKvLoop : Nat → NodeHandle K V → Except Fault (Option (NodeHandle K V))
  | 0, _ => .error .outOfFuel
  | fuel + 1, edge =>
      match edge.rightKv with
      | some kv => .ok (some kv)
      | none => do
          match ← edge.node.ascend with
          | some parentEdge => nextKvLoop fuel parentEdge
          | none => .ok none

/-- `next_kv`, of a leaf edge; none at the end of the tree. -/
def nextKv (edge : NodeHandle K V) : Except Fault (Option (NodeHandle K V)) :=
  nextKvLoop (edge.node.path.length + 1) edge

/-- `next_leaf_edge`. -/
def nextLeafEdge (kv : NodeHandle K V) : Except Fault (NodeHandle K V) :=
  if kv.node.height = 0 then .ok kv.rightEdge
  else do
    let child ← kv.rightEdge.descend
    child.firstLeafEdge

end NodeHandle

/-! ## Search -/

/-- `IndexResult`. -/
inductive IndexResult
  | kv (idx : Nat)
  | edge (idx : Nat)
deriving DecidableEq, Repr

/-- `SearchResult`. -/
inductive SearchResult (K V : Type)
  | found (handle : NodeHandle K V)
  | goDown (handle : NodeHandle K V)

variable [LinearOrder K]

/-- `find_key_index` among the keys from an index on. -/
def findKeyIndex (key : K) : List (K × V) → Nat → IndexResult
  | [], idx => .edge idx
  | (k, _) :: rest, idx =>
      match compare key k with
      | .gt => findKeyIndex key rest (idx + 1)
      | .eq => .kv idx
      | .lt => .edge idx

namespace NodeRef

/-- `search_node`. -/
def searchNode (key : K) (r : NodeRef K V) : SearchResult K V :=
  match findKeyIndex key r.node.kvs 0 with
  | .kv idx => .found ⟨r, idx⟩
  | .edge idx => .goDown ⟨r, idx⟩

/-- The loop of `search_tree`. -/
def searchTreeLoop (key : K) : Nat → NodeRef K V → Except Fault (SearchResult K V)
  | 0, r => .ok (r.searchNode key)
  | height + 1, r =>
      match r.searchNode key with
      | .found handle => .ok (.found handle)
      | .goDown edge => do
          let child ← edge.descend
          searchTreeLoop key height child

/-- `search_tree`. -/
def searchTree (key : K) (r : NodeRef K V) : Except Fault (SearchResult K V) :=
  searchTreeLoop key r.height r

end NodeRef

end Memalart.BTree
