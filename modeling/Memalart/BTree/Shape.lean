/-
# The shape of the tree, and what stands in it

The invariant of a tree follows its height: leaves have no edges, an internal node has one
edge more than keys, and the nodes under its edges have their numbers of keys in bounds and
link back to the edge.  The same is said of the nodes around a place in the tree, so that
the place can be filled and the tree be whole again.
-/

import Mathlib.Tactic.Abel
import Memalart.Lib.Weave
import Memalart.BTree.Node

namespace Memalart.BTree

open Lib

variable {K V : Type}

theorem capacity_eq : capacity = 11 := rfl

theorem Node.eta (n : Node K V) : Node.mk n.addr n.parent n.kvs n.edges = n := by
  cases n
  rfl

/-! ## The invariant -/

/-- Nodes under consecutive edges of one parent, each with a property. -/
def Siblings (P : Node K V → Prop) (addr : Nat) : Nat → List (Node K V) → Prop
  | _, [] => True
  | i, c :: cs => (c.parent = some (addr, i) ∧ P c) ∧ Siblings P addr (i + 1) cs

/-- A tree of a height, without the bounds for its own root. -/
def Sound : Nat → Node K V → Prop
  | 0, n => n.edges = []
  | h + 1, n => n.edges.length = n.kvs.length + 1 ∧
      Siblings (fun c => (minLen ≤ c.len ∧ c.len ≤ capacity) ∧ Sound h c) n.addr 0 n.edges

/-- A tree of a height whose root is not the root of the map. -/
def Filled (h : Nat) (n : Node K V) : Prop := (minLen ≤ n.len ∧ n.len ≤ capacity) ∧ Sound h n

section Siblings

variable {P : Node K V → Prop} {addr i h : Nat} {xs ys : List (Node K V)} {c : Node K V}

@[simp] theorem siblings_nil : Siblings P addr i [] := trivial

@[simp] theorem siblings_cons :
    Siblings P addr i (c :: xs) ↔ (c.parent = some (addr, i) ∧ P c) ∧ Siblings P addr (i + 1) xs :=
  Iff.rfl

@[simp] theorem siblings_append :
    Siblings P addr i (xs ++ ys) ↔ Siblings P addr i xs ∧ Siblings P addr (i + xs.length) ys := by
  induction xs generalizing i with
  | nil => simp
  | cons x xs ih =>
      have hindex : i + (x :: xs).length = i + 1 + xs.length := by
        rw [List.length_cons]
        omega
      rw [List.cons_append, siblings_cons, siblings_cons, ih, hindex]
      exact and_assoc.symm

theorem Siblings.forall (hs : Siblings P addr i xs) : ∀ c ∈ xs, P c := by
  induction xs generalizing i with
  | nil => simp
  | cons x xs ih =>
      intro c hc
      rcases List.mem_cons.1 hc with rfl | hc
      · exact hs.1.2
      · exact ih hs.2 c hc

end Siblings

/-! ## The contents -/

/-- A piece of the tree, from left to right. -/
inductive Token (K V : Type)
  | leaf (addr : Nat) (kvs : List (K × V))
  | sep (kv : K × V)

def Token.kvs : Token K V → List (K × V)
  | leaf _ kvs => kvs
  | sep kv => [kv]

/-- The keys with their values. -/
def bindings (tokens : List (Token K V)) : List (K × V) := tokens.flatMap Token.kvs

@[simp] theorem bindings_nil : bindings ([] : List (Token K V)) = [] := rfl

@[simp] theorem bindings_leaf (addr : Nat) (kvs : List (K × V)) (ts : List (Token K V)) :
    bindings (.leaf addr kvs :: ts) = kvs ++ bindings ts := List.flatMap_cons

@[simp] theorem bindings_sep (kv : K × V) (ts : List (Token K V)) :
    bindings (.sep kv :: ts) = kv :: bindings ts := List.flatMap_cons

@[simp] theorem bindings_append (ts ts' : List (Token K V)) :
    bindings (ts ++ ts') = bindings ts ++ bindings ts' := List.flatMap_append

/-- The leaves of a tree and the keys between them, from left to right. -/
def layout : Nat → Node K V → List (Token K V)
  | 0, n => [.leaf n.addr n.kvs]
  | h + 1, n => weave (n.edges.map (layout h)) (n.kvs.map .sep)

/-- The blocks that the nodes of a tree stand in, with their sizes. -/
def blocks (S : NodeSizes) : Nat → Node K V → Multiset (Nat × Nat)
  | 0, n => {(n.addr, recommendedSize S.leaf)}
  | h + 1, n => (n.addr, recommendedSize S.internal) ::ₘ (n.edges.map (blocks S h)).sum

section Links

variable {S : NodeSizes} {P : Node K V → Prop} {addr i h : Nat} {n c : Node K V}
  {xs ys : List (Node K V)}

/-! ## Links do not matter for the rest -/

@[simp] theorem layout_setParentLink : layout h (n.setParentLink addr i) = layout h n := by
  cases h <;> rfl

@[simp] theorem blocks_setParentLink : blocks S h (n.setParentLink addr i) = blocks S h n := by
  cases h <;> rfl

@[simp] theorem filled_setParentLink : Filled h (n.setParentLink addr i) ↔ Filled h n := by
  cases h <;> rfl

@[simp] theorem length_relink : (Node.relink addr i xs).length = xs.length := by
  induction xs generalizing i with
  | nil => rfl
  | cons x xs ih => rw [Node.relink, List.length_cons, ih, List.length_cons]

@[simp] theorem map_layout_relink :
    (Node.relink addr i xs).map (layout h) = xs.map (layout h) := by
  induction xs generalizing i with
  | nil => rfl
  | cons x xs ih => rw [Node.relink, List.map_cons, ih, List.map_cons, layout_setParentLink]

@[simp] theorem map_blocks_relink :
    (Node.relink addr i xs).map (blocks S h) = xs.map (blocks S h) := by
  induction xs generalizing i with
  | nil => rfl
  | cons x xs ih => rw [Node.relink, List.map_cons, ih, List.map_cons, blocks_setParentLink]

/-- Linked anew, nodes are siblings. -/
theorem siblings_relink (hxs : ∀ c ∈ xs, Filled h c) :
    Siblings (Filled h) addr i (Node.relink addr i xs) := by
  induction xs generalizing i with
  | nil => trivial
  | cons x xs ih =>
      refine ⟨⟨rfl, filled_setParentLink.2 (hxs x List.mem_cons_self)⟩, ?_⟩
      exact ih fun c hc => hxs c (List.mem_cons_of_mem _ hc)

/-- The links that are corrected are those from an edge on. -/
theorem correctChildrensParentLinks_edges {start stop : Nat} (hedges : n.edges = xs ++ ys)
    (hstart : xs.length = start) (hstop : (xs ++ ys).length ≤ stop) :
    n.correctChildrensParentLinks start stop =
      { n with edges := xs ++ Node.relink n.addr start ys } := by
  rw [Node.correctChildrensParentLinks, hedges, List.take_of_length_le hstop,
    List.drop_of_length_le hstop, List.append_nil, List.take_left' hstart, List.drop_left' hstart]

theorem correctChildrensParentLinks_all {stop : Nat} (hstop : n.edges.length ≤ stop) :
    n.correctChildrensParentLinks 0 stop = { n with edges := Node.relink n.addr 0 n.edges } := by
  have hstart : ([] : List (Node K V)).length = 0 := rfl
  rw [correctChildrensParentLinks_edges rfl hstart hstop, List.nil_append]

theorem correctAllChildrensParentLinks_edges (hlen : n.edges.length = n.kvs.length + 1) :
    n.correctAllChildrensParentLinks = { n with edges := Node.relink n.addr 0 n.edges } :=
  correctChildrensParentLinks_all (Nat.le_of_eq hlen)

end Links

/-! ## Around a place in the tree -/

/-- The fewest keys of a node: those of the root depend on the height, and on whether it may
have lost its last key. -/
def leastLen (rootLen height : Nat) : List (Frame K V) → Nat
  | [] => min height rootLen
  | _ :: _ => minLen

/-- The number of keys of the node that a frame is a part of. -/
def Frame.len (f : Frame K V) : Nat := f.kvsLeft.length + f.kvsRight.length

/-- The nodes around a child are siblings of it. -/
structure FrameOk (h : Nat) (f : Frame K V) : Prop where
  left_length : f.edgesLeft.length = f.kvsLeft.length
  right_length : f.edgesRight.length = f.kvsRight.length
  left : Siblings (Filled h) f.addr 0 f.edgesLeft
  right : Siblings (Filled h) f.addr (f.edgesLeft.length + 1) f.edgesRight

/-- The nodes above a place are those of a tree. -/
def PathOk (rootLen : Nat) : Nat → List (Frame K V) → Prop
  | _, [] => True
  | h, f :: path => FrameOk h f ∧ f.parent = linkOf path ∧
      (leastLen rootLen (h + 1) path ≤ f.len ∧ f.len ≤ capacity) ∧ PathOk rootLen (h + 1) path

/-- A node in a tree, which may have too few keys. -/
structure Loose (rootLen : Nat) (r : NodeRef K V) : Prop where
  path : PathOk rootLen r.height r.path
  link : r.node.parent = linkOf r.path
  sound : Sound r.height r.node
  len_le : r.node.len ≤ capacity

/-- A node in a tree. -/
structure Fits (rootLen : Nat) (r : NodeRef K V) : Prop extends Loose rootLen r where
  le_len : leastLen rootLen r.height r.path ≤ r.node.len

/-- What stands in a node to the left of a child. -/
def Frame.before (h : Nat) (f : Frame K V) : List (Token K V) :=
  weave (f.edgesLeft.map (layout h)) (f.kvsLeft.map .sep)

/-- What stands in a node to the right of a child. -/
def Frame.after (h : Nat) (f : Frame K V) : List (Token K V) :=
  weave ([] :: f.edgesRight.map (layout h)) (f.kvsRight.map .sep)

/-- What stands in the tree to the left of a place. -/
def before : Nat → List (Frame K V) → List (Token K V)
  | _, [] => []
  | h, f :: path => before (h + 1) path ++ f.before h

/-- What stands in the tree to the right of a place. -/
def after : Nat → List (Frame K V) → List (Token K V)
  | _, [] => []
  | h, f :: path => f.after h ++ after (h + 1) path

/-- The blocks of the nodes above a place and beside it. -/
def pathBlocks (S : NodeSizes) : Nat → List (Frame K V) → Multiset (Nat × Nat)
  | _, [] => 0
  | h, f :: path => (f.addr, recommendedSize S.internal) ::ₘ
      ((f.edgesLeft.map (blocks S h)).sum + (f.edgesRight.map (blocks S h)).sum +
        pathBlocks S (h + 1) path)

namespace NodeRef

/-- What stands in the tree that a reference points into. -/
def tokens (r : NodeRef K V) : List (Token K V) :=
  before r.height r.path ++ layout r.height r.node ++ after r.height r.path

/-- The blocks of that tree. -/
def blocks (S : NodeSizes) (r : NodeRef K V) : Multiset (Nat × Nat) :=
  BTree.blocks S r.height r.node + pathBlocks S r.height r.path

end NodeRef

section Place

variable {S : NodeSizes} {rootLen h i : Nat} {n c : Node K V} {f : Frame K V}
  {path : List (Frame K V)} {r : NodeRef K V}

theorem Loose.fits (hr : Loose rootLen r) (hlen : leastLen rootLen r.height r.path ≤ r.node.len) :
    Fits rootLen r := { hr with le_len := hlen }

/-- A node that is not the root has its number of keys in bounds. -/
theorem Fits.filled (hr : Fits rootLen ⟨h, c, f :: path⟩) : Filled h c :=
  ⟨⟨hr.le_len, hr.len_le⟩, hr.sound⟩

theorem FrameOk.sound_plug (hf : FrameOk h f) (hc : Filled h c) (hlink : c.parent = some f.link) :
    Sound (h + 1) (f.plug c) := by
  refine ⟨?_, ?_⟩
  · rw [Frame.plug, List.length_append, List.length_cons, List.length_append, hf.left_length,
      hf.right_length, Nat.add_assoc]
  · refine siblings_append.2 ⟨hf.left, ⟨?_, hc⟩, ?_⟩
    · rw [Nat.zero_add]
      exact hlink
    · rw [Nat.zero_add]
      exact hf.right

theorem len_plug : (f.plug c).len = f.len := List.length_append

/-! ## Up -/

theorem Fits.up (hr : Fits rootLen ⟨h, c, f :: path⟩) : Fits rootLen ⟨h + 1, f.plug c, path⟩ := by
  obtain ⟨hframe, hlink, ⟨hle, hcap⟩, hpath⟩ := hr.path
  exact
    { path := hpath
      link := hlink
      sound := hframe.sound_plug hr.filled hr.link
      len_le := len_plug.trans_le hcap
      le_len := hle.trans_eq len_plug.symm }

theorem layout_plug (hf : FrameOk h f) :
    layout (h + 1) (f.plug c) = f.before h ++ layout h c ++ f.after h := by
  have hlength : (f.edgesLeft.map (layout h)).length = (f.kvsLeft.map Token.sep).length := by
    rw [List.length_map, List.length_map, hf.left_length]
  simp only [layout, Frame.plug, Frame.before, Frame.after, List.map_append, List.map_cons]
  rw [weave_append hlength, weave_cons]
  simp only [List.append_assoc]

theorem tokens_up (hf : FrameOk h f) :
    NodeRef.tokens ⟨h + 1, f.plug c, path⟩ = NodeRef.tokens ⟨h, c, f :: path⟩ := by
  simp only [NodeRef.tokens, before, after, layout_plug hf, List.append_assoc]

theorem blocks_up : NodeRef.blocks S ⟨h + 1, f.plug c, path⟩ = NodeRef.blocks S ⟨h, c, f :: path⟩ := by
  simp only [NodeRef.blocks, pathBlocks, BTree.blocks, Frame.plug, List.map_append, List.map_cons,
    List.sum_append, List.sum_cons, ← Multiset.singleton_add]
  abel

theorem toRoot_up :
    NodeRef.toRoot ⟨h + 1, f.plug c, path⟩ = NodeRef.toRoot ⟨h, c, f :: path⟩ := by
  simp only [NodeRef.toRoot, plugAll, List.length_cons, Root.mk.injEq, and_true]
  omega

/-- A node that fits fills the tree up to the root. -/
theorem Fits.toRoot (hr : Fits rootLen r) :
    Fits rootLen r.toRoot.borrow ∧ r.toRoot.borrow.tokens = r.tokens ∧
      r.toRoot.borrow.blocks S = r.blocks S := by
  obtain ⟨h, n, path⟩ := r
  induction path generalizing h n with
  | nil => exact ⟨hr, rfl, rfl⟩
  | cons f path ih =>
      obtain ⟨hfits, htokens, hblocks⟩ := ih _ _ hr.up
      rw [toRoot_up] at hfits htokens hblocks
      exact ⟨hfits, htokens.trans (tokens_up hr.path.1), hblocks.trans blocks_up⟩

/-! ## Down -/

theorem plug_frameAt (hc : n.edges[i]? = some c) : (n.frameAt i).plug c = n := by
  obtain ⟨hi, hget⟩ := List.getElem?_eq_some_iff.1 hc
  simp only [Frame.plug, Node.frameAt, List.take_append_drop]
  rw [← hget, List.getElem_cons_drop, List.take_append_drop, Node.eta]

theorem Sound.frameAt (hn : Sound (h + 1) n) (hc : n.edges[i]? = some c) :
    FrameOk h (n.frameAt i) ∧ c.parent = some (n.frameAt i).link ∧ Filled h c := by
  obtain ⟨hlength, hsiblings⟩ := hn
  obtain ⟨hi, hget⟩ := List.getElem?_eq_some_iff.1 hc
  have hedges : n.edges = n.edges.take i ++ c :: n.edges.drop (i + 1) := by
    rw [← hget, List.getElem_cons_drop, List.take_append_drop]
  rw [hedges, siblings_append, siblings_cons, Nat.zero_add] at hsiblings
  obtain ⟨hleft, ⟨hlink, hfilled⟩, hright⟩ := hsiblings
  refine ⟨⟨?_, ?_, hleft, hright⟩, hlink, hfilled⟩
  · simp only [Node.frameAt, List.length_take]
    omega
  · simp only [Node.frameAt, List.length_drop]
    omega

theorem Fits.down (hr : Fits rootLen ⟨h + 1, n, path⟩) (hc : n.edges[i]? = some c) :
    Fits rootLen ⟨h, c, n.frameAt i :: path⟩ := by
  obtain ⟨hframe, hlink, hfilled⟩ := hr.sound.frameAt hc
  have hlen : (n.frameAt i).len = n.len := by
    rw [← len_plug (c := c), plug_frameAt hc]
  exact
    { path := ⟨hframe, hr.link, ⟨hr.le_len.trans_eq hlen.symm, hlen.trans_le hr.len_le⟩, hr.path⟩
      link := hlink
      sound := hfilled.2
      len_le := hfilled.1.2
      le_len := hfilled.1.1 }

/-- What stands in a node, on both sides of a child. -/
theorem layout_frameAt (hn : Sound (h + 1) n) (hc : n.edges[i]? = some c) :
    layout (h + 1) n = (n.frameAt i).before h ++ layout h c ++ (n.frameAt i).after h := by
  conv_lhs => rw [← plug_frameAt hc]
  exact layout_plug (hn.frameAt hc).1

theorem toRoot_down (hc : n.edges[i]? = some c) :
    NodeRef.toRoot ⟨h, c, n.frameAt i :: path⟩ = NodeRef.toRoot ⟨h + 1, n, path⟩ := by
  rw [← toRoot_up, plug_frameAt hc]

/-- There is a child at every index up to the number of keys. -/
theorem Sound.exists_edge (hn : Sound (h + 1) n) (hi : i ≤ n.len) : ∃ c, n.edges[i]? = some c := by
  have hlt : i < n.edges.length := by
    rw [hn.1]
    exact Nat.lt_succ_of_le hi
  exact ⟨_, List.getElem?_eq_getElem hlt⟩

end Place

end Memalart.BTree
