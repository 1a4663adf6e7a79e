/-
# Nodes, and the ways between them

A node of the B-tree has its keys with their values, its edges, and a link to the edge of
its parent that holds it.  A reference to a node carries the nodes above it, each without
the child that the reference has come from, so that a change of the node is a change of the
tree.  Going up follows the node's own link: a link that is not the edge above the node is
a fault, as it would be a wild pointer.
-/

import Memalart.BTree.Heap

namespace Memalart.BTree

open Lib Machine

/-- `B`. -/
def b : Nat := 6

/-- `CAPACITY`. -/
def capacity : Nat := 2 * b - 1

/-- `MIN_LEN_AFTER_SPLIT`, the `MIN_LEN` of the map. -/
def minLen : Nat := b - 1

def kvIdxCenter : Nat := b - 1

def edgeIdxLeftOfCenter : Nat := b - 1

def edgeIdxRightOfCenter : Nat := b

/-- `LeafNode` and `InternalNode`.  The keys and values are one list, `len` its length; a
leaf has no edges. -/
structure Node (K V : Type) where
  addr : Nat
  /-- `parent` and `parent_idx`. -/
  parent : Option (Nat × Nat)
  kvs : List (K × V)
  edges : List (Node K V)

/-- The part of an internal node around one of its edges. -/
structure Frame (K V : Type) where
  addr : Nat
  parent : Option (Nat × Nat)
  kvsLeft : List (K × V)
  kvsRight : List (K × V)
  edgesLeft : List (Node K V)
  edgesRight : List (Node K V)

/-- A `NodeRef` that is borrowed: the node, its height and the nodes above it, the nearest
first. -/
structure NodeRef (K V : Type) where
  height : Nat
  node : Node K V
  path : List (Frame K V)

/-- A `NodeRef` that is owned: the root of a tree. -/
structure Root (K V : Type) where
  height : Nat
  node : Node K V

/-- A `NodeHandle` to an edge or to a key and value of a node. -/
structure NodeHandle (K V : Type) where
  node : NodeRef K V
  idx : Nat

/-- A handle whose tree may have changed since: the node's address and the index. -/
structure Dormant where
  addr : Nat
  idx : Nat
deriving DecidableEq, Repr

/-- `LeftOrRight`. -/
inductive LeftOrRight (α : Type)
  | left (a : α)
  | right (a : α)
deriving DecidableEq, Repr

variable {K V : Type}

namespace Node

/-- `len`. -/
def len (n : Node K V) : Nat := n.kvs.length

/-- `set_parent_link`. -/
def setParentLink (n : Node K V) (parent parentIdx : Nat) : Node K V :=
  { n with parent := some (parent, parentIdx) }

/-- `clear_parent_link`. -/
def clearParentLink (n : Node K V) : Node K V := { n with parent := none }

/-- Link children to consecutive edges. -/
def relink (addr : Nat) : Nat → List (Node K V) → List (Node K V)
  | _, [] => []
  | i, c :: cs => c.setParentLink addr i :: relink addr (i + 1) cs

/-- `correct_childrens_parent_links(start..stop)`. -/
def correctChildrensParentLinks (n : Node K V) (start stop : Nat) : Node K V :=
  { n with
    edges := n.edges.take start ++ relink n.addr start ((n.edges.take stop).drop start) ++
      n.edges.drop stop }

/-- `correct_all_childrens_parent_links`. -/
def correctAllChildrensParentLinks (n : Node K V) : Node K V :=
  n.correctChildrensParentLinks 0 (n.len + 1)

end Node

/-! ## Slices -/

/-- `slice_insert`. -/
def sliceInsert {α : Type} (slice : List α) (idx : Nat) (val : α) : List α :=
  slice.take idx ++ val :: slice.drop idx

/-- `slice_remove`, without the removed element. -/
def sliceRemove {α : Type} (slice : List α) (idx : Nat) : List α :=
  slice.take idx ++ slice.drop (idx + 1)

/-- A read of an element that the code does not check to be there. -/
def getUnchecked {α : Type} (slice : List α) (idx : Nat) : Except Fault α :=
  match slice[idx]? with
  | some a => .ok a
  | none => .error (.bugHint "Index out of bounds.")

/-! ## Up and down -/

/-- The part of a node around an edge. -/
def Node.frameAt (n : Node K V) (i : Nat) : Frame K V :=
  ⟨n.addr, n.parent, n.kvs.take i, n.kvs.drop i, n.edges.take i, n.edges.drop (i + 1)⟩

namespace Frame

/-- The index of the edge that the frame leaves out. -/
def idx (f : Frame K V) : Nat := f.edgesLeft.length

/-- The node, with a child at the edge that the frame leaves out. -/
def plug (f : Frame K V) (child : Node K V) : Node K V :=
  ⟨f.addr, f.parent, f.kvsLeft ++ f.kvsRight, f.edgesLeft ++ child :: f.edgesRight⟩

/-- What a child at the edge that the frame leaves out has as its link. -/
def link (f : Frame K V) : Nat × Nat := (f.addr, f.idx)

end Frame

/-- The node under all the frames of a path. -/
def plugAll (node : Node K V) : List (Frame K V) → Node K V
  | [] => node
  | f :: path => plugAll (f.plug node) path

/-- The link of a node at the end of a path. -/
def linkOf (path : List (Frame K V)) : Option (Nat × Nat) := path.head?.map Frame.link

namespace Root

/-- `borrow_mut` and `reborrow`. -/
def borrow (root : Root K V) : NodeRef K V := ⟨root.height, root.node, []⟩

end Root

namespace NodeRef

/-- `len`. -/
def len (r : NodeRef K V) : Nat := r.node.len

/-- The tree that a reference points into. -/
def toRoot (r : NodeRef K V) : Root K V := ⟨r.height + r.path.length, plugAll r.node r.path⟩

/-- `ascend`: the parent edge, or none at the root. -/
def ascend (r : NodeRef K V) : Except Fault (Option (NodeHandle K V)) :=
  if r.node.parent = linkOf r.path then
    match r.path with
    | [] => .ok none
    | f :: path => .ok (some ⟨⟨r.height + 1, f.plug r.node, path⟩, f.idx⟩)
  else .error (.bugHint "The link to the parent is wrong.")

/-- `first_edge`. -/
def firstEdge (r : NodeRef K V) : NodeHandle K V := ⟨r, 0⟩

/-- `last_edge`. -/
def lastEdge (r : NodeRef K V) : NodeHandle K V := ⟨r, r.len⟩

end NodeRef

namespace NodeHandle

/-- `descend`. -/
def descend (edge : NodeHandle K V) : Except Fault (NodeRef K V) :=
  match edge.node.height, edge.node.node.edges[edge.idx]? with
  | height + 1, some child => .ok ⟨height, child, edge.node.node.frameAt edge.idx :: edge.node.path⟩
  | _, _ => .error (.bugHint "There is no child.")

/-- `dormant`. -/
def dormant (h : NodeHandle K V) : Dormant := ⟨h.node.node.addr, h.idx⟩

/-- `left_kv`, of an edge. -/
def leftKv (edge : NodeHandle K V) : Option (NodeHandle K V) :=
  if edge.idx > 0 then some ⟨edge.node, edge.idx - 1⟩ else none

/-- `right_kv`, of an edge. -/
def rightKv (edge : NodeHandle K V) : Option (NodeHandle K V) :=
  if edge.idx < edge.node.len then some edge else none

/-- `left_edge`, of a key and value. -/
def leftEdge (kv : NodeHandle K V) : NodeHandle K V := kv

/-- `right_edge`, of a key and value. -/
def rightEdge (kv : NodeHandle K V) : NodeHandle K V := ⟨kv.node, kv.idx + 1⟩

/-- `into_kv`. -/
def intoKv (kv : NodeHandle K V) : Except Fault (K × V) := getUnchecked kv.node.node.kvs kv.idx

/-- `replace_kv`, without the old key and value. -/
def replaceKv (kv : NodeHandle K V) (new : K × V) : NodeHandle K V :=
  { kv with node.node.kvs := kv.node.node.kvs.set kv.idx new }

end NodeHandle

/-- The leaf of a subtree that stands at an address: what `awaken` dereferences. -/
def locate (addr : Nat) : Nat → Node K V → List (Frame K V) → Option (NodeRef K V)
  | 0, n, path => if n.addr = addr then some ⟨0, n, path⟩ else none
  | height + 1, n, path =>
      (List.range n.edges.length).findSome? fun i =>
        n.edges[i]?.bind fun child => locate addr height child (n.frameAt i :: path)

/-- `awaken`. -/
def Dormant.awaken (d : Dormant) (root : Root K V) : Except Fault (NodeHandle K V) :=
  match locate d.addr root.height root.node [] with
  | some leaf => .ok ⟨leaf, d.idx⟩
  | none => .error (.bugHint "The node is gone.")

/-! ## New nodes -/

/-- `LeafNode::new`. -/
def LeafNode.new (A : SelfAllocator) (S : NodeSizes) : Heap (Option (Node K V)) := do
  match ← allocNode A S.leaf with
  | none => pure none
  | some addr => pure (some ⟨addr, none, [], []⟩)

/-- `InternalNode::new`. -/
def InternalNode.new (A : SelfAllocator) (S : NodeSizes) : Heap (Option (Node K V)) := do
  match ← allocNode A S.internal with
  | none => pure none
  | some addr => pure (some ⟨addr, none, [], []⟩)

namespace Root

/-- `new_internal`, with `from_new_internal`. -/
def newInternal (A : SelfAllocator) (S : NodeSizes) (child : Root K V) :
    Heap (Option (Root K V)) := do
  match ← InternalNode.new A S with
  | none => pure none
  | some node => pure (some
      ⟨child.height + 1, { node with edges := [child.node] }.correctAllChildrensParentLinks⟩)

/-- `push_internal_level`. -/
def pushInternalLevel (A : SelfAllocator) (S : NodeSizes) (root : Root K V) :
    Heap (Root K V) := do
  match ← root.newInternal A S with
  | none => fault (.panic "Failed to create internal node for allocator.")
  | some root => pure root

/-- `pop_internal_level`. -/
def popInternalLevel (S : NodeSizes) (root : Root K V) : Heap (Root K V) := do
  if root.height > 0 then do
    let child ← ofExcept (getUnchecked root.node.edges 0)
    deallocNode root.node.addr S.internal
    pure ⟨root.height - 1, child.clearParentLink⟩
  else fault (.panic "assertion failed: self.height > 0")

end Root

namespace Node

/-- `push` on a leaf: the node, and the index of the new value. -/
def pushLeaf (n : Node K V) (kv : K × V) : Except Fault (Node K V × Nat) :=
  if n.len < capacity then .ok ({ n with kvs := n.kvs ++ [kv] }, n.len)
  else .error (.panic "assertion failed: idx < CAPACITY")

/-- `push` on an internal node. -/
def pushInternal (n : Node K V) (height : Nat) (kv : K × V) (edge : Root K V) :
    Except Fault (Node K V) :=
  if edge.height = height - 1 then
    if n.len < capacity then
      .ok ({ n with kvs := n.kvs ++ [kv], edges := n.edges ++ [edge.node] }
        |>.correctChildrensParentLinks (n.len + 1) (n.len + 2))
    else .error (.panic "assertion failed: idx < CAPACITY")
  else .error (.panic "assertion failed: edge.height == self.height - 1")

end Node

end Memalart.BTree
