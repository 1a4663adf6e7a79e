/-
# Insertion keeps the tree

What stands in the tree after an insertion is what stood there before, with the new key at
its place.  A split leaves two nodes that have enough keys, whatever the place.
-/

import Memalart.BTree.Insert
import Memalart.BTree.Walk

namespace Memalart.BTree

open Lib Machine

variable {K V : Type} {A : SelfAllocator} {S : NodeSizes} {h i m addr : Nat}
  {n l r : Node K V} {f : Frame K V} {path : List (Frame K V)} {kv mid : K × V}
  {xs ys zs : List (Node K V)} {kvs pre post p q : List (K × V)} {mem : Memory}

/-! ## Lists that come apart -/

theorem exists_append_of_le {α : Type} {list : List α} (hi : i ≤ list.length) :
    ∃ p q, list = p ++ q ∧ p.length = i :=
  ⟨_, _, (List.take_append_drop i list).symm, List.length_take_of_le hi⟩

theorem exists_append_cons_of_lt {α : Type} {list : List α} (hi : i < list.length) :
    ∃ p a q, list = p ++ a :: q ∧ p.length = i := by
  refine ⟨list.take i, list[i], list.drop (i + 1), ?_, List.length_take_of_le (Nat.le_of_lt hi)⟩
  rw [List.getElem_cons_drop, List.take_append_drop]

theorem sliceInsert_append {α : Type} {p q : List α} (a : α) (hp : p.length = i) :
    sliceInsert (p ++ q) i a = p ++ a :: q := by
  rw [sliceInsert, List.take_left' hp, List.drop_left' hp]

theorem getUnchecked_append {α : Type} {p q : List α} (a : α) (hp : p.length = i) :
    getUnchecked (p ++ a :: q) i = .ok a := by
  rw [getUnchecked, List.getElem?_append_right (Nat.le_of_eq hp), hp, Nat.sub_self]
  rfl

theorem splitLeafData_eq (hkvs : n.kvs = pre ++ mid :: post) (hm : pre.length = m) :
    n.splitLeafData m = .ok (pre, mid, post) := by
  have hdrop : (pre ++ mid :: post).drop (m + 1) = post := by
    rw [List.append_cons, List.drop_left' (by rw [List.length_append, hm]; rfl)]
  rw [Node.splitLeafData, hkvs, getUnchecked_append mid hm, List.take_left' hm, hdrop]
  rfl

/-- The point at which a full node is split leaves enough keys on either side. -/
theorem splitpoint_spec (hi : i ≤ capacity) :
    (∃ m, splitpoint i = (m, .left i) ∧ i ≤ m ∧ minLen ≤ m + 1 ∧ minLen + m < capacity) ∨
      ∃ m, splitpoint i = (m, .right (i - (m + 1))) ∧ m < i ∧ minLen ≤ m ∧
        minLen + m ≤ capacity := by
  simp only [capacity, b] at hi
  interval_cases i
  all_goals simp [splitpoint, edgeIdxLeftOfCenter, edgeIdxRightOfCenter, kvIdxCenter, capacity, minLen, b]

/-! ## Within an internal node -/

theorem relink_append :
    Node.relink addr i (xs ++ ys) = Node.relink addr i xs ++ Node.relink addr (i + xs.length) ys := by
  induction xs generalizing i with
  | nil => rfl
  | cons x xs ih =>
      have hindex : i + (x :: xs).length = i + 1 + xs.length := by
        rw [List.length_cons]
        omega
      rw [List.cons_append, Node.relink, ih, Node.relink, hindex, List.cons_append]

theorem insertFitInternal_eq (hf : FrameOk h f) :
    (f.plug l).insertFitInternal f.idx kv r =
      ⟨f.addr, f.parent, f.kvsLeft ++ kv :: f.kvsRight,
        (f.edgesLeft ++ [l]) ++ Node.relink f.addr (f.idx + 1) (r :: f.edgesRight)⟩ := by
  have hedges : sliceInsert (f.plug l).edges (f.idx + 1) r = (f.edgesLeft ++ [l]) ++ r :: f.edgesRight := by
    rw [Frame.plug, List.append_cons]
    exact sliceInsert_append r (by simp [Frame.idx])
  have hkvs : sliceInsert (f.plug l).kvs f.idx kv = f.kvsLeft ++ kv :: f.kvsRight :=
    sliceInsert_append kv hf.left_length.symm
  rw [Node.insertFitInternal, hedges, hkvs,
    correctChildrensParentLinks_edges rfl (by simp [Frame.idx])]
  · rfl
  · have hlen : (f.plug l).len = f.kvsLeft.length + f.kvsRight.length := len_plug
    rw [hlen]
    simp only [List.length_append, List.length_cons, List.length_nil, hf.left_length, hf.right_length]
    omega

/-- A key and a child that are put into a node with room behind one of its children. -/
theorem insertFitInternal_spec (kv : K × V) (hf : FrameOk h f) (hl : Filled h l)
    (hlink : l.parent = some f.link) (hr : Filled h r) :
    Sound (h + 1) ((f.plug l).insertFitInternal f.idx kv r) ∧
      layout (h + 1) ((f.plug l).insertFitInternal f.idx kv r) =
        f.before h ++ layout h l ++ .sep kv :: layout h r ++ f.after h ∧
      blocks S (h + 1) ((f.plug l).insertFitInternal f.idx kv r) =
        blocks S (h + 1) (f.plug l) + blocks S h r := by
  have hlength : (f.edgesLeft.map (layout h) ++ [layout h l]).length =
      (f.kvsLeft.map Token.sep).length + 1 := by
    simp [hf.left_length]
  have hlength' : (f.edgesLeft.map (layout h)).length = (f.kvsLeft.map Token.sep).length := by
    simp [hf.left_length]
  rw [insertFitInternal_eq hf]
  refine ⟨⟨?_, ?_⟩, ?_, ?_⟩
  · simp only [List.length_append, List.length_cons, List.length_nil, length_relink, hf.left_length,
      hf.right_length]
    omega
  · simp only [siblings_append, siblings_cons, siblings_nil, and_true, Nat.zero_add,
      List.length_append, List.length_singleton]
    refine ⟨⟨hf.left, hlink, hl⟩, siblings_relink ?_⟩
    intro c hc
    rcases List.mem_cons.1 hc with rfl | hc
    · exact hr
    · exact hf.right.forall c hc
  · have hweave : weave (f.edgesLeft.map (layout h) ++ [layout h l]) (f.kvsLeft.map .sep ++ []) =
        f.before h ++ layout h l := by
      rw [weave_append hlength', weave_singleton]
      rfl
    rw [List.append_nil] at hweave
    simp only [layout, List.map_append, List.map_cons, List.map_nil, map_layout_relink]
    rw [weave_join _ hlength, hweave, weave_cons]
    simp only [Frame.after, List.append_assoc, List.cons_append]
  · simp only [blocks, Frame.plug, List.map_append, List.map_cons, List.map_nil, map_blocks_relink,
      List.sum_append, List.sum_cons, List.sum_nil, ← Multiset.singleton_add, add_zero]
    abel

/-! ## Splitting an internal node -/

/-- The middle key of a node stands right of a child: what is left of the key. -/
def Frame.upToKey (f : Frame K V) (p : List (K × V)) (xs : List (Node K V)) : Frame K V :=
  { f with kvsRight := p, edgesRight := xs }

theorem FrameOk.upToKey (hf : FrameOk h f) (hedges : f.edgesRight = xs ++ ys)
    (hlength : xs.length = p.length) : FrameOk h (f.upToKey p xs) where
  left_length := hf.left_length
  right_length := hlength
  left := hf.left
  right := by
    have hright := hf.right
    rw [hedges, siblings_append] at hright
    exact hright.1

/-- What is right of a child, with the middle key in it. -/
theorem after_split (hkvs : f.kvsRight = p ++ mid :: post) (hedges : f.edgesRight = xs ++ ys)
    (hlength : xs.length = p.length) :
    f.after h = (f.upToKey p xs).after h ++ .sep mid :: weave (ys.map (layout h)) (post.map .sep) := by
  have hlength' : ([] :: xs.map (layout h)).length = (p.map (Token.sep (K := K) (V := V))).length + 1 := by
    simp [hlength]
  simp only [Frame.after, hkvs, hedges, List.map_append, List.map_cons]
  exact weave_join (.sep mid) hlength'

/-- The new node of a split. -/
theorem sound_relink (hlength : ys.length = post.length + 1) (hys : ∀ c ∈ ys, Filled h c)
    (parent : Option (Nat × Nat)) :
    Sound (h + 1) (⟨addr, parent, post, Node.relink addr 0 ys⟩ : Node K V) := by
  refine ⟨?_, siblings_relink hys⟩
  rw [length_relink]
  exact hlength

theorem ensures_internalNodeNew {bs : Multiset (Nat × Nat)} (hA : A.Serves) (hacc : Accounted S mem bs) :
    Ensures (InternalNode.new (K := K) (V := V) A S) mem fun node mem' =>
      ∃ addr, node = some ⟨addr, none, [], []⟩ ∧
        Accounted S mem' ((addr, recommendedSize S.internal) ::ₘ bs) := by
  unfold InternalNode.new
  rw [ensures_bind]
  refine (ensures_allocNode hA hacc (.inr rfl)).mono ?_
  rintro _ mem' - ⟨addr, rfl, hacc'⟩
  exact ensures_pure.2 ⟨addr, rfl, hacc'⟩

theorem ensures_splitInternal {bs : Multiset (Nat × Nat)} (hA : A.Serves) (hacc : Accounted S mem bs)
    (hkvs : n.kvs = pre ++ mid :: post) (hm : pre.length = m) (hedges : n.edges = xs ++ ys)
    (hxs : xs.length = m + 1) (hys : ys.length = post.length + 1) :
    Ensures (splitInternal A S ⟨⟨h, n, path⟩, m⟩) mem fun s mem' =>
      ∃ addr, s = ⟨⟨h, ⟨n.addr, n.parent, pre, xs⟩, path⟩, mid,
          ⟨h, ⟨addr, none, post, Node.relink addr 0 ys⟩⟩⟩ ∧
        Accounted S mem' ((addr, recommendedSize S.internal) ::ₘ bs) := by
  unfold splitInternal
  rw [ensures_bind]
  refine (ensures_internalNodeNew hA hacc).mono ?_
  rintro _ mem' - ⟨addr, rfl, hacc'⟩
  simp only [ensures_bind, ensures_ofExcept (splitLeafData_eq hkvs hm), ensures_pure]
  refine ⟨addr, ?_, hacc'⟩
  rw [hedges, List.take_left' hxs, List.drop_left' hxs, correctAllChildrensParentLinks_edges hys]

/-! ## Up the tree -/

/-- A node on the way up has been split: its left part stands where it stood. -/
structure SplitOk (s : SplitResult K V) : Prop where
  path : PathOk 1 s.left.height s.left.path
  link : s.left.node.parent = linkOf s.left.path
  left : Filled s.left.height s.left.node
  right : Filled s.left.height s.right.node
  height : s.right.height = s.left.height

namespace SplitResult

/-- What stands in the tree once the right part is inserted. -/
def tokens (s : SplitResult K V) : List (Token K V) :=
  before s.left.height s.left.path ++ layout s.left.height s.left.node ++
    .sep s.kv :: layout s.left.height s.right.node ++ after s.left.height s.left.path

def blocks (S : NodeSizes) (s : SplitResult K V) : Multiset (Nat × Nat) :=
  s.left.blocks S + BTree.blocks S s.left.height s.right.node

end SplitResult

/-- An insertion has left the tree with these tokens, or a split one level further up. -/
inductive Grown (S : NodeSizes) (mem : Memory) (tokens : List (Token K V)) (path : List (Frame K V)) :
    Insertion K V → Prop
  | fit {place : NodeRef K V} : Fits 1 place → place.tokens = tokens →
      Accounted S mem (place.blocks S) → Grown S mem tokens path (.fit place)
  | split {s : SplitResult K V} : SplitOk s → s.tokens = tokens → s.left.path = path →
      Accounted S mem (s.blocks S) → Grown S mem tokens path (.split s)

section Split

variable (hs : SplitOk ⟨⟨h, l, f :: path⟩, kv, ⟨h, r⟩⟩)

theorem length_insertFitInternal (kv : K × V) (l r : Node K V) (hf : FrameOk h f) :
    ((f.plug l).insertFitInternal f.idx kv r).len = f.len + 1 := by
  rw [insertFitInternal_eq hf]
  simp only [Node.len, Frame.len, List.length_append, List.length_cons]
  omega

theorem parent_insertFitInternal (hf : FrameOk h f) :
    ((f.plug l).insertFitInternal f.idx kv r).parent = f.parent := by
  rw [insertFitInternal_eq hf]

include hs

/-- The key and the right part fit into the parent. -/
theorem grown_fit (hacc : Accounted S mem (SplitResult.blocks S ⟨⟨h, l, f :: path⟩, kv, ⟨h, r⟩⟩))
    (hroom : f.len < capacity) :
    Grown S mem (SplitResult.tokens ⟨⟨h, l, f :: path⟩, kv, ⟨h, r⟩⟩) path
      (.fit ⟨h + 1, (f.plug l).insertFitInternal f.idx kv r, path⟩) := by
  obtain ⟨hframe, hlink, ⟨hle, -⟩, hpath⟩ := hs.path
  obtain ⟨hsound, hlayout, hblocks⟩ :=
    insertFitInternal_spec (S := S) kv hframe hs.left hs.link hs.right
  have hlen := length_insertFitInternal kv l r hframe
  refine .fit ⟨⟨hpath, (parent_insertFitInternal hframe).trans hlink, hsound, ?_⟩, ?_⟩ ?_ ?_
  · rw [hlen]
    exact hroom
  · rw [hlen]
    exact Nat.le_succ_of_le hle
  · simp only [NodeRef.tokens, SplitResult.tokens, before, after, hlayout, List.append_assoc,
      List.cons_append]
  · have hup : NodeRef.blocks S ⟨h + 1, f.plug l, path⟩ = NodeRef.blocks S ⟨h, l, f :: path⟩ := blocks_up
    have hsame : NodeRef.blocks S ⟨h + 1, (f.plug l).insertFitInternal f.idx kv r, path⟩ =
        SplitResult.blocks S ⟨⟨h, l, f :: path⟩, kv, ⟨h, r⟩⟩ := by
      rw [SplitResult.blocks, ← hup, NodeRef.blocks, NodeRef.blocks, hblocks]
      exact add_right_comm _ _ _
    rw [hsame]
    exact hacc

/-- The parent is split right of the key. -/
theorem grown_left (hacc : Accounted S mem ((addr, recommendedSize S.internal) ::ₘ
      SplitResult.blocks S ⟨⟨h, l, f :: path⟩, kv, ⟨h, r⟩⟩))
    (hkvs : f.kvsRight = p ++ mid :: post) (hedges : f.edgesRight = xs ++ ys)
    (hxs : xs.length = p.length) (hys : ys.length = post.length + 1)
    (hleft : minLen ≤ f.kvsLeft.length + p.length + 1 ∧ f.kvsLeft.length + p.length < capacity)
    (hright : minLen ≤ post.length ∧ post.length ≤ capacity) :
    Grown S mem (SplitResult.tokens ⟨⟨h, l, f :: path⟩, kv, ⟨h, r⟩⟩) path
      (.split ⟨⟨h + 1, ((f.upToKey p xs).plug l).insertFitInternal (f.upToKey p xs).idx kv r, path⟩,
        mid, ⟨h + 1, ⟨addr, none, post, Node.relink addr 0 ys⟩⟩⟩) := by
  obtain ⟨hframe, hlink, -, hpath⟩ := hs.path
  have hframe' : FrameOk h (f.upToKey p xs) := hframe.upToKey hedges hxs
  have hys' : ∀ c ∈ ys, Filled h c := by
    intro c hc
    apply hframe.right.forall
    rw [hedges]
    exact List.mem_append_right _ hc
  obtain ⟨hsound, hlayout, hblocks⟩ :=
    insertFitInternal_spec (S := S) kv hframe' hs.left hs.link hs.right
  have hlen := length_insertFitInternal kv l r hframe'
  refine .split ⟨hpath, (parent_insertFitInternal hframe').trans hlink, ⟨?_, hsound⟩,
    ⟨hright, sound_relink hys hys' _⟩, rfl⟩ ?_ rfl ?_
  · rw [hlen]
    exact hleft
  · have hafter : f.after h = _ := after_split hkvs hedges hxs
    have hnew : layout (h + 1) (⟨addr, none, post, Node.relink addr 0 ys⟩ : Node K V) =
        weave (ys.map (layout h)) (post.map .sep) := by
      rw [layout, map_layout_relink]
    simp only [SplitResult.tokens, before, after, hlayout, hafter, hnew, List.append_assoc,
      List.cons_append]
    rfl
  · convert hacc using 1
    simp only [SplitResult.blocks, NodeRef.blocks, pathBlocks, hblocks]
    simp only [blocks, Frame.plug, Frame.upToKey, hedges, List.map_append, List.map_cons,
      map_blocks_relink, List.sum_append, List.sum_cons, ← Multiset.singleton_add]
    abel

/-- What is right of the middle key, when it stands left of a child. -/
def Frame.fromKey (addr : Nat) (f : Frame K V) (q : List (K × V)) (ys : List (Node K V)) : Frame K V :=
  ⟨addr, none, q, f.kvsRight, Node.relink addr 0 ys, Node.relink addr (ys.length + 1) f.edgesRight⟩

/-- The parent is split left of the key. -/
theorem grown_right (hacc : Accounted S mem ((addr, recommendedSize S.internal) ::ₘ
      SplitResult.blocks S ⟨⟨h, l, f :: path⟩, kv, ⟨h, r⟩⟩))
    (hkvs : f.kvsLeft = pre ++ mid :: q) (hedges : f.edgesLeft = xs ++ ys)
    (hxs : xs.length = pre.length + 1) (hys : ys.length = q.length)
    (hleft : minLen ≤ pre.length ∧ pre.length ≤ capacity)
    (hright : minLen ≤ q.length + f.kvsRight.length + 1 ∧ q.length + f.kvsRight.length < capacity) :
    Grown S mem (SplitResult.tokens ⟨⟨h, l, f :: path⟩, kv, ⟨h, r⟩⟩) path
      (.split ⟨⟨h + 1, ⟨f.addr, f.parent, pre, xs⟩, path⟩, mid,
        ⟨h + 1, (⟨addr, none, q ++ f.kvsRight, Node.relink addr 0 (ys ++ l :: f.edgesRight)⟩ :
          Node K V).insertFitInternal q.length kv r⟩⟩) := by
  obtain ⟨hframe, hlink, -, hpath⟩ := hs.path
  have hl : Filled h l := hs.left
  have hsiblings := hframe.left
  rw [hedges, siblings_append] at hsiblings
  have hframe' : FrameOk h (f.fromKey addr q ys) :=
    { left_length := length_relink.trans hys
      right_length := length_relink.trans hframe.right_length
      left := siblings_relink hsiblings.2.forall
      right := by
        rw [Frame.fromKey, length_relink]
        exact siblings_relink hframe.right.forall }
  have hnode : (⟨addr, none, q ++ f.kvsRight, Node.relink addr 0 (ys ++ l :: f.edgesRight)⟩ : Node K V) =
      (f.fromKey addr q ys).plug (l.setParentLink addr ys.length) := by
    rw [relink_append, Node.relink, Nat.zero_add]
    rfl
  have hidx : q.length = (f.fromKey addr q ys).idx := by
    rw [Frame.idx, Frame.fromKey, length_relink, hys]
  have hlink' : (l.setParentLink addr ys.length).parent = some (f.fromKey addr q ys).link := by
    rw [Frame.link, ← hidx, ← hys]
    rfl
  obtain ⟨hsound, hlayout, hblocks⟩ :=
    insertFitInternal_spec (S := S) kv hframe' (filled_setParentLink.2 hl) hlink' hs.right
  have hlen := length_insertFitInternal kv (l.setParentLink addr ys.length) r hframe'
  have hlengths : (xs.map (layout h)).length = (pre.map (Token.sep (K := K) (V := V))).length + 1 := by
    simp [hxs]
  rw [hnode, hidx]
  refine .split ⟨hpath, hlink, ⟨hleft, hxs, hsiblings.1⟩, ⟨?_, hsound⟩, rfl⟩ ?_ rfl ?_
  · rw [hlen]
    exact hright
  · have hbefore : f.before h = weave (xs.map (layout h)) (pre.map .sep) ++
        .sep mid :: (f.fromKey addr q ys).before h := by
      simp only [Frame.before, Frame.fromKey, hkvs, hedges, List.map_append, List.map_cons,
        map_layout_relink]
      exact weave_join (.sep mid) hlengths
    have hafter : (f.fromKey addr q ys).after h = f.after h := by
      simp only [Frame.after, Frame.fromKey, map_layout_relink]
    have hold : layout (h + 1) (⟨f.addr, f.parent, pre, xs⟩ : Node K V) =
        weave (xs.map (layout h)) (pre.map .sep) := rfl
    simp only [SplitResult.tokens, before, after, hlayout, hbefore, hafter, hold,
      layout_setParentLink, List.append_assoc, List.cons_append]
  · convert hacc using 1
    simp only [SplitResult.blocks, NodeRef.blocks, pathBlocks, hblocks]
    simp only [blocks, Frame.plug, Frame.fromKey, hedges, List.map_append, List.map_cons,
      map_blocks_relink, blocks_setParentLink, List.sum_append, List.sum_cons, ← Multiset.singleton_add]
    abel

end Split

theorem ensures_insertInternal (hA : A.Serves) (hs : SplitOk ⟨⟨h, l, f :: path⟩, kv, ⟨h, r⟩⟩)
    (hacc : Accounted S mem (SplitResult.blocks S ⟨⟨h, l, f :: path⟩, kv, ⟨h, r⟩⟩)) :
    Ensures (insertInternal A S ⟨⟨h + 1, f.plug l, path⟩, f.idx⟩ kv ⟨h, r⟩) mem fun ins mem' =>
      Grown S mem' (SplitResult.tokens ⟨⟨h, l, f :: path⟩, kv, ⟨h, r⟩⟩) path ins := by
  obtain ⟨hframe, -, ⟨-, hcap⟩, -⟩ := hs.path
  have hlen : (f.plug l).len = f.len := len_plug
  have hidx : f.idx = f.kvsLeft.length := hframe.left_length
  have hlength := hframe.left_length
  have hlength' := hframe.right_length
  unfold insertInternal
  simp only [Nat.add_sub_cancel, if_true, hlen]
  by_cases hroom : f.len < capacity
  · rw [if_pos hroom, ensures_pure]
    exact grown_fit hs hacc hroom
  · rw [if_neg hroom, ensures_bind]
    have hfull : f.kvsLeft.length + f.kvsRight.length = capacity :=
      Nat.le_antisymm hcap (Nat.not_lt.1 hroom)
    have hi : f.idx ≤ capacity := by omega
    rcases splitpoint_spec hi with ⟨m, hpoint, hle, hmin, hmax⟩ | ⟨m, hpoint, hlt, hmin, hmax⟩
    · -- The middle key is right of the edge.
      have hm : m - f.idx < f.kvsRight.length := by omega
      obtain ⟨p, mid, post, hkvs, hp⟩ := exists_append_cons_of_lt hm
      have hcount : f.kvsRight.length = p.length + (post.length + 1) := by
        rw [hkvs, List.length_append, List.length_cons]
      have hsplit : p.length ≤ f.edgesRight.length := by omega
      obtain ⟨xs, ys, hedges, hxs⟩ := exists_append_of_le hsplit
      have hcount' : f.edgesRight.length = xs.length + ys.length := by
        rw [hedges, List.length_append]
      have hkvs' : (f.plug l).kvs = (f.kvsLeft ++ p) ++ mid :: post := by
        rw [Frame.plug, hkvs, List.append_assoc]
      have hedges' : (f.plug l).edges = (f.edgesLeft ++ l :: xs) ++ ys := by
        rw [Frame.plug, hedges, List.append_assoc, List.cons_append]
      have hpre : (f.kvsLeft ++ p).length = m := by
        rw [List.length_append]
        omega
      have hxs' : (f.edgesLeft ++ l :: xs).length = m + 1 := by
        rw [List.length_append, List.length_cons]
        omega
      have hys : ys.length = post.length + 1 := by omega
      rw [hpoint]
      refine (ensures_splitInternal hA hacc hkvs' hpre hedges' hxs' hys).mono ?_
      rintro _ mem' - ⟨addr, rfl, hacc'⟩
      rw [ensures_pure]
      have hleft : minLen ≤ f.kvsLeft.length + p.length + 1 ∧ f.kvsLeft.length + p.length < capacity := by
        omega
      have hright : minLen ≤ post.length ∧ post.length ≤ capacity := by omega
      exact grown_left hs hacc' hkvs hedges hxs hys hleft hright
    · -- The middle key is left of the edge.
      have hm : m < f.kvsLeft.length := by omega
      obtain ⟨pre, mid, q, hkvs, hpre⟩ := exists_append_cons_of_lt hm
      have hcount : f.kvsLeft.length = pre.length + (q.length + 1) := by
        rw [hkvs, List.length_append, List.length_cons]
      have hsplit : m + 1 ≤ f.edgesLeft.length := by omega
      obtain ⟨xs, ys, hedges, hxs⟩ := exists_append_of_le hsplit
      have hcount' : f.edgesLeft.length = xs.length + ys.length := by
        rw [hedges, List.length_append]
      have hkvs' : (f.plug l).kvs = pre ++ mid :: (q ++ f.kvsRight) := by
        rw [Frame.plug, hkvs, List.append_assoc, List.cons_append]
      have hedges' : (f.plug l).edges = xs ++ (ys ++ l :: f.edgesRight) := by
        rw [Frame.plug, hedges, List.append_assoc]
      have hys : (ys ++ l :: f.edgesRight).length = (q ++ f.kvsRight).length + 1 := by
        rw [List.length_append, List.length_append, List.length_cons]
        omega
      rw [hpoint]
      refine (ensures_splitInternal hA hacc hkvs' hpre hedges' hxs hys).mono ?_
      rintro _ mem' - ⟨addr, rfl, hacc'⟩
      rw [ensures_pure]
      have hindex : f.idx - (m + 1) = q.length := by omega
      have hleft : minLen ≤ pre.length ∧ pre.length ≤ capacity := by omega
      have hright : minLen ≤ q.length + f.kvsRight.length + 1 ∧
          q.length + f.kvsRight.length < capacity := by omega
      rw [hindex]
      exact grown_right hs hacc' hkvs hedges (by omega) (by omega) hleft hright

/-- A new root over the two parts of the old one. -/
theorem ensures_splitRoot (hA : A.Serves) (hs : SplitOk ⟨⟨h, l, []⟩, kv, ⟨h, r⟩⟩)
    (hacc : Accounted S mem (SplitResult.blocks S ⟨⟨h, l, []⟩, kv, ⟨h, r⟩⟩)) :
    Ensures (splitRoot A S ⟨⟨h, l, []⟩, kv, ⟨h, r⟩⟩) mem fun root mem' =>
      Fits 1 root.borrow ∧ root.borrow.tokens = SplitResult.tokens ⟨⟨h, l, []⟩, kv, ⟨h, r⟩⟩ ∧
        Accounted S mem' (root.borrow.blocks S) := by
  have hl : Filled h l := hs.left
  have hr : Filled h r := hs.right
  unfold splitRoot Root.pushInternalLevel Root.newInternal
  simp only [ensures_bind]
  refine (ensures_internalNodeNew hA hacc).mono ?_
  rintro _ mem' - ⟨addr, rfl, hacc'⟩
  have hone : Node.correctAllChildrensParentLinks (⟨addr, none, [], [l]⟩ : Node K V) =
      ⟨addr, none, [], [l.setParentLink addr 0]⟩ := correctAllChildrensParentLinks_edges rfl
  have hpush : Node.pushInternal (⟨addr, none, [], [l.setParentLink addr 0]⟩ : Node K V) (h + 1) kv
      ⟨h, r⟩ = .ok ⟨addr, none, [kv], [l.setParentLink addr 0, r.setParentLink addr 1]⟩ := by
    have hheight : h = h + 1 - 1 := rfl
    have hroom : (⟨addr, none, [], [l.setParentLink addr 0]⟩ : Node K V).len < capacity := by
      rw [capacity_eq]
      exact Nat.zero_lt_succ _
    rw [Node.pushInternal, if_pos hheight, if_pos hroom]
    rfl
  simp only [ensures_pure]
  rw [hone, ensures_ofExcept hpush]
  refine ⟨⟨⟨trivial, rfl, ?_, ?_⟩, ?_⟩, ?_, ?_⟩
  · refine ⟨rfl, ⟨rfl, ?_⟩, ⟨rfl, ?_⟩, trivial⟩
    · exact filled_setParentLink.2 hl
    · exact filled_setParentLink.2 hr
  · simp [Root.borrow, Node.len, capacity_eq]
  · simp [Root.borrow, Node.len, leastLen]
  · simp [NodeRef.tokens, SplitResult.tokens, Root.borrow, before, after, layout]
  · convert hacc' using 1
    simp [NodeRef.blocks, SplitResult.blocks, Root.borrow, blocks, pathBlocks]

theorem ensures_insertRecursingLoop (hA : A.Serves) {s : SplitResult K V} {fuel : Nat}
    (hs : SplitOk s) (hacc : Accounted S mem (s.blocks S)) (hfuel : s.left.path.length < fuel) :
    Ensures (insertRecursingLoop A S fuel s) mem fun root mem' =>
      Fits 1 root.borrow ∧ root.borrow.tokens = s.tokens ∧
        Accounted S mem' (root.borrow.blocks S) := by
  induction fuel generalizing s mem with
  | zero => exact absurd hfuel (Nat.not_lt_zero _)
  | succ fuel ih =>
      obtain ⟨⟨h, l, path⟩, kv, ⟨h', r⟩⟩ := s
      obtain rfl : h' = h := hs.height
      rw [insertRecursingLoop, ensures_bind]
      cases path with
      | nil =>
          rw [ensures_ofExcept (ascend_nil hs.link)]
          exact ensures_splitRoot hA hs hacc
      | cons f path =>
          rw [ensures_ofExcept (ascend_cons hs.link)]
          simp only [ensures_bind]
          refine (ensures_insertInternal hA hs hacc).mono ?_
          rintro ins mem' - hgrown
          cases hgrown with
          | @fit place hfits htokens hacc' =>
              obtain ⟨hroot, htokens', hblocks⟩ := hfits.toRoot (S := S)
              rw [ensures_pure, htokens', hblocks]
              exact ⟨hroot, htokens, hacc'⟩
          | @split s' hs' htokens hpath hacc' =>
              rw [← htokens]
              refine ih hs' hacc' ?_
              rw [hpath]
              exact Nat.lt_of_succ_lt_succ hfuel

/-! ## At a leaf -/

theorem ensures_leafNodeNew {bs : Multiset (Nat × Nat)} (hA : A.Serves) (hacc : Accounted S mem bs) :
    Ensures (LeafNode.new (K := K) (V := V) A S) mem fun node mem' =>
      ∃ addr, node = some ⟨addr, none, [], []⟩ ∧
        Accounted S mem' ((addr, recommendedSize S.leaf) ::ₘ bs) := by
  unfold LeafNode.new
  rw [ensures_bind]
  refine (ensures_allocNode hA hacc (.inl rfl)).mono ?_
  rintro _ mem' - ⟨addr, rfl, hacc'⟩
  exact ensures_pure.2 ⟨addr, rfl, hacc'⟩

theorem ensures_splitLeaf {bs : Multiset (Nat × Nat)} (hA : A.Serves) (hacc : Accounted S mem bs)
    (hkvs : n.kvs = pre ++ mid :: post) (hm : pre.length = m) :
    Ensures (splitLeaf A S ⟨⟨h, n, path⟩, m⟩) mem fun s mem' =>
      ∃ addr, s = ⟨⟨h, { n with kvs := pre }, path⟩, mid, ⟨0, ⟨addr, none, post, []⟩⟩⟩ ∧
        Accounted S mem' ((addr, recommendedSize S.leaf) ::ₘ bs) := by
  unfold splitLeaf
  rw [ensures_bind]
  refine (ensures_leafNodeNew hA hacc).mono ?_
  rintro _ mem' - ⟨addr, rfl, hacc'⟩
  simp only [ensures_bind, ensures_ofExcept (splitLeafData_eq hkvs hm), ensures_pure]
  exact ⟨addr, rfl, hacc'⟩

/-- A handle to a leaf that stands alone. -/
theorem marks_leaf (addr : Nat) (p q : List (K × V)) :
    Marks [.leaf addr (p ++ q)] ⟨addr, p.length⟩ (p ++ q) p q := by
  refine ⟨?_, [], [], rfl, ?_, ?_⟩
  · rw [List.length_append]
    exact Nat.le_add_right _ _
  · rw [List.take_left, bindings_nil, List.nil_append]
  · rw [List.drop_left, bindings_nil, List.append_nil]

/-- Where the new key is after an insertion into a leaf. -/
def Inserted (S : NodeSizes) (mem : Memory) (path : List (Frame K V)) (kv : K × V)
    (left right : List (K × V)) (res : Insertion K V × Dormant) : Prop :=
  ∃ tokens kvs, Grown S mem tokens path res.1 ∧ Marks tokens res.2 kvs left (kv :: right) ∧
    kvs[res.2.idx]? = some kv

theorem getElem?_append_cons {α : Type} (a : α) (p q : List α) : (p ++ a :: q)[p.length]? = some a := by
  rw [List.getElem?_append_right (Nat.le_refl _), Nat.sub_self]
  rfl

section Leaf

variable (hfits : Fits 1 ⟨0, n, path⟩)
include hfits

theorem inserted_fit (kv : K × V) (hacc : Accounted S mem (NodeRef.blocks S ⟨0, n, path⟩))
    (hkvs : n.kvs = p ++ q) (hroom : n.len < capacity) :
    Inserted S mem path kv (bindings (before 0 path) ++ p) (q ++ bindings (after 0 path))
      (.fit ⟨0, n.insertFitLeaf p.length kv, path⟩, ⟨n.addr, p.length⟩) := by
  have hnode : n.insertFitLeaf p.length kv = { n with kvs := p ++ kv :: q } := by
    rw [Node.insertFitLeaf, hkvs, sliceInsert_append kv rfl]
  have hlen : ({ n with kvs := p ++ kv :: q } : Node K V).len = n.len + 1 := by
    simp only [Node.len, hkvs, List.length_append, List.length_cons]
    omega
  refine ⟨before 0 path ++ [.leaf n.addr (p ++ kv :: q)] ++ after 0 path, p ++ kv :: q,
    .fit ⟨⟨hfits.path, ?_, ?_, ?_⟩, ?_⟩ ?_ hacc, (marks_leaf n.addr p (kv :: q)).append _ _,
    getElem?_append_cons kv p q⟩
  · rw [hnode]
    exact hfits.link
  · rw [hnode]
    exact hfits.sound
  · rw [hnode, hlen]
    exact hroom
  · rw [hnode, hlen]
    exact Nat.le_succ_of_le hfits.le_len
  · rw [hnode]
    rfl

/-- A leaf is split right of the new key. -/
theorem inserted_left (hacc : Accounted S mem ((addr, recommendedSize S.leaf) ::ₘ
      NodeRef.blocks S ⟨0, n, path⟩))
    (hleft : minLen ≤ p.length + q.length + 1 ∧ p.length + q.length < capacity)
    (hright : minLen ≤ post.length ∧ post.length ≤ capacity) :
    Inserted S mem path kv (bindings (before 0 path) ++ p)
      ((q ++ mid :: post) ++ bindings (after 0 path))
      (.split ⟨⟨0, ({ n with kvs := p ++ q } : Node K V).insertFitLeaf p.length kv, path⟩, mid,
        ⟨0, ⟨addr, none, post, []⟩⟩⟩, ⟨n.addr, p.length⟩) := by
  have hnode : ({ n with kvs := p ++ q } : Node K V).insertFitLeaf p.length kv =
      { n with kvs := p ++ kv :: q } := by
    rw [Node.insertFitLeaf, sliceInsert_append kv rfl]
  have hlen : ({ n with kvs := p ++ kv :: q } : Node K V).len = p.length + q.length + 1 := by
    simp only [Node.len, List.length_append, List.length_cons]
    omega
  have hmarks : Marks [.leaf n.addr (p ++ kv :: q), .sep mid, .leaf addr post] ⟨n.addr, p.length⟩
      (p ++ kv :: q) p (kv :: (q ++ mid :: post)) := by
    obtain ⟨hidx, -⟩ := marks_leaf n.addr p (kv :: q)
    exact ⟨hidx, [], [.sep mid, .leaf addr post], rfl, by simp, by simp⟩
  rw [hnode]
  refine ⟨_, _, .split ⟨hfits.path, hfits.link, ⟨?_, hfits.sound⟩, ⟨hright, rfl⟩, rfl⟩ ?_ rfl ?_,
    hmarks.append (before 0 path) (after 0 path), getElem?_append_cons kv p q⟩
  · rw [hlen]
    exact hleft
  · simp [SplitResult.tokens, layout]
  · convert hacc using 1
    simp only [SplitResult.blocks, NodeRef.blocks, blocks, ← Multiset.singleton_add]
    abel

/-- A leaf is split left of the new key. -/
theorem inserted_right (hacc : Accounted S mem ((addr, recommendedSize S.leaf) ::ₘ
      NodeRef.blocks S ⟨0, n, path⟩))
    (hleft : minLen ≤ pre.length ∧ pre.length ≤ capacity)
    (hright : minLen ≤ p.length + q.length + 1 ∧ p.length + q.length < capacity) :
    Inserted S mem path kv (bindings (before 0 path) ++ (pre ++ mid :: p))
      (q ++ bindings (after 0 path))
      (.split ⟨⟨0, { n with kvs := pre }, path⟩, mid,
        ⟨0, (⟨addr, none, p ++ q, []⟩ : Node K V).insertFitLeaf p.length kv⟩⟩, ⟨addr, p.length⟩) := by
  have hnode : (⟨addr, none, p ++ q, []⟩ : Node K V).insertFitLeaf p.length kv =
      ⟨addr, none, p ++ kv :: q, []⟩ := by
    rw [Node.insertFitLeaf, sliceInsert_append kv rfl]
  have hlen : (⟨addr, none, p ++ kv :: q, []⟩ : Node K V).len = p.length + q.length + 1 := by
    simp only [Node.len, List.length_append, List.length_cons]
    omega
  have hmarks : Marks [.leaf n.addr pre, .sep mid, .leaf addr (p ++ kv :: q)] ⟨addr, p.length⟩
      (p ++ kv :: q) (pre ++ mid :: p) (kv :: q) := by
    obtain ⟨hidx, -⟩ := marks_leaf addr p (kv :: q)
    exact ⟨hidx, [.leaf n.addr pre, .sep mid], [], rfl, by simp, by simp⟩
  rw [hnode]
  refine ⟨_, _, .split ⟨hfits.path, hfits.link, ⟨hleft, hfits.sound⟩, ⟨?_, rfl⟩, rfl⟩ ?_ rfl ?_,
    hmarks.append (before 0 path) (after 0 path), getElem?_append_cons kv p q⟩
  · rw [hlen]
    exact hright
  · simp [SplitResult.tokens, layout]
  · convert hacc using 1
    simp only [SplitResult.blocks, NodeRef.blocks, blocks, ← Multiset.singleton_add]
    abel

end Leaf

theorem ensures_insertLeaf (kv : K × V) (hA : A.Serves) (hfits : Fits 1 ⟨0, n, path⟩) (hi : i ≤ n.len)
    (hacc : Accounted S mem (NodeRef.blocks S ⟨0, n, path⟩)) :
    Ensures (insertLeaf A S ⟨⟨0, n, path⟩, i⟩ kv) mem fun res mem' =>
      Inserted S mem' path kv (bindings (before 0 path) ++ n.kvs.take i)
        (n.kvs.drop i ++ bindings (after 0 path)) res := by
  have hcap : n.kvs.length ≤ capacity := hfits.len_le
  unfold insertLeaf
  by_cases hroom : n.len < capacity
  · have hlength : (n.kvs.take i).length = i := List.length_take_of_le hi
    have hfit := inserted_fit hfits kv hacc (List.take_append_drop i n.kvs).symm hroom
    rw [hlength] at hfit
    rw [if_pos hroom, ensures_pure]
    exact hfit
  · rw [if_neg hroom, ensures_bind]
    have hfull : n.kvs.length = capacity := Nat.le_antisymm hcap (Nat.not_lt.1 hroom)
    have hi' : i ≤ n.kvs.length := hi
    rcases splitpoint_spec (hi'.trans hcap) with ⟨m, hpoint, hle, hmin, hmax⟩ | ⟨m, hpoint, hlt, hmin, hmax⟩
    · have hm : m < n.kvs.length := by omega
      obtain ⟨pre, mid, post, hkvs, hpre⟩ := exists_append_cons_of_lt hm
      have hcount : n.kvs.length = pre.length + (post.length + 1) := by
        rw [hkvs, List.length_append, List.length_cons]
      have hsplit : i ≤ pre.length := by omega
      obtain ⟨p, q, rfl, rfl⟩ := exists_append_of_le hsplit
      rw [List.length_append] at hcount hpre
      have hleft : minLen ≤ p.length + q.length + 1 ∧ p.length + q.length < capacity := by omega
      have hright : minLen ≤ post.length ∧ post.length ≤ capacity := by omega
      have htake : n.kvs.take p.length = p := by rw [hkvs, List.append_assoc, List.take_left]
      have hdrop : n.kvs.drop p.length = q ++ mid :: post := by
        rw [hkvs, List.append_assoc, List.drop_left]
      rw [hpoint, htake, hdrop]
      refine (ensures_splitLeaf hA hacc hkvs (by rw [List.length_append, hpre])).mono ?_
      rintro _ mem' - ⟨addr, rfl, hacc'⟩
      rw [ensures_pure]
      exact inserted_left hfits hacc' hleft hright
    · have hm : m < n.kvs.length := by omega
      obtain ⟨pre, mid, post, hkvs, hpre⟩ := exists_append_cons_of_lt hm
      have hcount : n.kvs.length = pre.length + (post.length + 1) := by
        rw [hkvs, List.length_append, List.length_cons]
      have hsplit : i - (m + 1) ≤ post.length := by omega
      obtain ⟨p, q, rfl, hp⟩ := exists_append_of_le hsplit
      rw [List.length_append] at hcount
      have hleft : minLen ≤ pre.length ∧ pre.length ≤ capacity := by omega
      have hright : minLen ≤ p.length + q.length + 1 ∧ p.length + q.length < capacity := by omega
      have hkvs' : n.kvs = (pre ++ mid :: p) ++ q := by
        rw [hkvs, List.append_assoc, List.cons_append]
      have hlength : (pre ++ mid :: p).length = i := by
        rw [List.length_append, List.length_cons]
        omega
      rw [hpoint]
      conv => enter [3, res, mem']; rw [hkvs', List.take_left' hlength, List.drop_left' hlength]
      refine (ensures_splitLeaf hA hacc hkvs hpre).mono ?_
      rintro _ mem' - ⟨addr, rfl, hacc'⟩
      rw [ensures_pure, ← hp]
      exact inserted_right hfits hacc' hleft hright

/-- An insertion puts the key where the handle stands. -/
theorem ensures_insertRecursing {root : Root K V} {e : NodeHandle K V} {left right : List (K × V)}
    (hA : A.Serves) (hs : Stands 1 root e left right) (hheight : e.node.height = 0)
    (hacc : Accounted S mem (root.borrow.blocks S)) :
    Ensures (insertRecursing A S e kv) mem fun e' mem' =>
      ∃ root', Stands 1 root' e' left (kv :: right) ∧ e'.idx < e'.node.len ∧
        Accounted S mem' (root'.borrow.blocks S) := by
  obtain ⟨⟨h, n, path⟩, i⟩ := e
  obtain rfl : h = 0 := hheight
  obtain ⟨-, -, hblocks⟩ := hs.fits.toRoot (S := S)
  rw [← hs.toRoot, hblocks] at hacc
  rw [← hs.left_eq, ← hs.right_eq]
  unfold insertRecursing
  rw [ensures_bind]
  refine (ensures_insertLeaf kv hA hs.fits hs.idx_le hacc).mono ?_
  rintro ⟨ins, d⟩ mem' - ⟨tokens, kvs, hgrown, hmarks, hget⟩
  cases hgrown with
  | @fit place hfits htokens hacc' =>
      obtain ⟨hroot, htokens', hblocks'⟩ := hfits.toRoot (S := S)
      rw [← htokens, ← htokens'] at hmarks
      rw [← hblocks'] at hacc'
      obtain ⟨e', hawaken, -, hidx, hkvs, hstands⟩ := awaken_spec hroot hacc'.distinct hmarks
      simp only [ensures_ofExcept hawaken]
      refine ⟨_, hstands, ?_, hacc'⟩
      rw [NodeRef.len, Node.len, hkvs, hidx]
      exact (List.getElem?_eq_some_iff.1 hget).1
  | @split s hsplit htokens hpath hacc' =>
      simp only [ensures_bind]
      refine (ensures_insertRecursingLoop hA hsplit hacc' (by rw [hpath]; exact Nat.lt_succ_self _)).mono ?_
      rintro root' mem'' - ⟨hroot, htokens', hacc''⟩
      rw [← htokens, ← htokens'] at hmarks
      obtain ⟨e', hawaken, -, hidx, hkvs, hstands⟩ := awaken_spec hroot hacc''.distinct hmarks
      simp only [ensures_ofExcept hawaken]
      refine ⟨_, hstands, ?_, hacc''⟩
      rw [NodeRef.len, Node.len, hkvs, hidx]
      exact (List.getElem?_eq_some_iff.1 hget).1

end Memalart.BTree
