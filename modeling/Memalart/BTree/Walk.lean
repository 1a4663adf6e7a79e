/-
# Where a handle stands

A handle has keys on its left and keys on its right, which together are those of the tree.
The walks leave the tree as it is and move along this list: down to the first or the last
leaf, to the next key, past it, to the place of a key that is searched for, and to a leaf of
which only the address is known.
-/

import Memalart.BTree.Navigate
import Memalart.BTree.Shape

namespace Memalart.BTree

open Lib

variable {K V : Type} {S : NodeSizes} {rootLen h i : Nat} {n c : Node K V} {f : Frame K V}
  {path : List (Frame K V)} {r : NodeRef K V} {e kv : NodeHandle K V} {root : Root K V}
  {left right items : List (K × V)} {item : K × V}

/-! ## Left and right -/

/-- The keys up to an edge of a node, with those below the edge. -/
def upTo : Nat → Node K V → Nat → List (K × V)
  | 0, n, i => n.kvs.take i
  | h + 1, n, i =>
      bindings (weave ((n.edges.take (i + 1)).map (layout h)) ((n.kvs.take i).map .sep))

/-- The keys from an edge of a node on, without those below the edge. -/
def onFrom : Nat → Node K V → Nat → List (K × V)
  | 0, n, i => n.kvs.drop i
  | h + 1, n, i =>
      bindings (weave ([] :: (n.edges.drop (i + 1)).map (layout h)) ((n.kvs.drop i).map .sep))

/-- A handle stands in a tree, with these keys on its left and on its right. -/
structure Stands (rootLen : Nat) (root : Root K V) (e : NodeHandle K V)
    (left right : List (K × V)) : Prop where
  fits : Fits rootLen e.node
  toRoot : e.node.toRoot = root
  idx_le : e.idx ≤ e.node.len
  left_eq : bindings (before e.node.height e.node.path) ++ upTo e.node.height e.node.node e.idx = left
  right_eq : onFrom e.node.height e.node.node e.idx ++ bindings (after e.node.height e.node.path) = right

/-- What is left of an edge ends with what is below it. -/
theorem upTo_succ (hn : Sound (h + 1) n) (hc : n.edges[i]? = some c) :
    upTo (h + 1) n i = bindings ((n.frameAt i).before h) ++ bindings (layout h c) := by
  have hlength : ((n.edges.take i).map (layout h)).length = ((n.kvs.take i).map Token.sep).length := by
    rw [List.length_map, List.length_map]
    exact (hn.frameAt hc).1.left_length
  have hweave : weave ((n.edges.take i).map (layout h) ++ [layout h c])
      ((n.kvs.take i).map Token.sep ++ []) = _ := weave_append hlength
  rw [List.append_nil] at hweave
  have htake : n.edges.take (i + 1) = n.edges.take i ++ [c] := by
    rw [List.take_add_one, hc, Option.toList_some]
  rw [upTo, htake, List.map_append, List.map_singleton, hweave, bindings_append, weave_singleton]
  rfl

theorem onFrom_frameAt : onFrom (h + 1) n i = bindings ((n.frameAt i).after h) := rfl

theorem Fits.stands (hr : Fits rootLen r) (hi : i ≤ r.len) :
    Stands rootLen r.toRoot ⟨r, i⟩ (bindings (before r.height r.path) ++ upTo r.height r.node i)
      (onFrom r.height r.node i ++ bindings (after r.height r.path)) :=
  ⟨hr, rfl, hi, rfl, rfl⟩

/-- Left and right together are the keys of the tree. -/
theorem Stands.append_eq (hs : Stands rootLen root e left right) :
    left ++ right = bindings root.borrow.tokens := by
  obtain ⟨-, htokens, -⟩ := hs.fits.toRoot (S := ⟨0, 0⟩)
  rw [← hs.toRoot, htokens, ← hs.left_eq, ← hs.right_eq]
  obtain ⟨⟨h, n, path⟩, i⟩ := e
  cases h with
  | zero =>
      simp only [NodeRef.tokens, upTo, onFrom, layout, bindings_append, bindings_leaf,
        bindings_nil, List.append_nil, List.append_assoc]
      rw [← List.append_assoc (n.kvs.take i), List.take_append_drop]
  | succ h =>
      obtain ⟨c, hc⟩ := hs.fits.sound.exists_edge hs.idx_le
      have hframe := (hs.fits.sound.frameAt hc).1
      have htokens : NodeRef.tokens ⟨h + 1, n, path⟩ = NodeRef.tokens ⟨h, c, n.frameAt i :: path⟩ := by
        rw [← tokens_up hframe, plug_frameAt hc]
      rw [htokens, upTo_succ hs.fits.sound hc]
      simp [NodeRef.tokens, before, after, onFrom_frameAt]

/-! ## Down -/

theorem descend_eq (hr : Fits rootLen ⟨h + 1, n, path⟩) (hi : i ≤ n.len) :
    ∃ c, n.edges[i]? = some c ∧
      NodeHandle.descend ⟨⟨h + 1, n, path⟩, i⟩ = .ok ⟨h, c, n.frameAt i :: path⟩ ∧
      Fits rootLen ⟨h, c, n.frameAt i :: path⟩ := by
  obtain ⟨c, hc⟩ := hr.sound.exists_edge hi
  refine ⟨c, hc, ?_, hr.down hc⟩
  simp only [NodeHandle.descend, hc]

theorem firstLeafEdge_spec (hr : Fits rootLen r) :
    ∃ e, r.firstLeafEdge = .ok e ∧ e.node.height = 0 ∧
      Stands rootLen r.toRoot e (bindings (before r.height r.path))
        (bindings (layout r.height r.node) ++ bindings (after r.height r.path)) := by
  obtain ⟨h, n, path⟩ := r
  unfold NodeRef.firstLeafEdge
  induction h generalizing n path with
  | zero =>
      refine ⟨_, rfl, rfl, hr, rfl, Nat.zero_le _, ?_, ?_⟩
      · simp [upTo, NodeRef.firstEdge]
      · simp [onFrom, NodeRef.firstEdge, layout]
  | succ h ih =>
      obtain ⟨c, hc, hdescend, hfits⟩ := descend_eq hr (Nat.zero_le _)
      obtain ⟨e, he, hheight, hstands⟩ := ih _ _ hfits
      refine ⟨e, ?_, hheight, ?_⟩
      · rw [NodeRef.firstLeafEdgeLoop, NodeRef.firstEdge, hdescend]
        exact he
      · rw [toRoot_down hc] at hstands
        convert hstands using 1
        · simp [before, Frame.before, Node.frameAt]
        · simp [layout_frameAt hr.sound hc, after, Frame.before, Node.frameAt]

theorem lastLeafEdge_spec (hr : Fits rootLen r) :
    ∃ e, r.lastLeafEdge = .ok e ∧ e.node.height = 0 ∧ e.idx = e.node.len ∧
      Stands rootLen r.toRoot e
        (bindings (before r.height r.path) ++ bindings (layout r.height r.node))
        (bindings (after r.height r.path)) := by
  obtain ⟨h, n, path⟩ := r
  unfold NodeRef.lastLeafEdge
  induction h generalizing n path with
  | zero =>
      refine ⟨_, rfl, rfl, rfl, hr, rfl, Nat.le_refl _, ?_, ?_⟩
      · simp [upTo, NodeRef.lastEdge, NodeRef.len, Node.len, layout]
      · simp [onFrom, NodeRef.lastEdge, NodeRef.len, Node.len]
  | succ h ih =>
      obtain ⟨c, hc, hdescend, hfits⟩ := descend_eq hr (Nat.le_refl _)
      obtain ⟨e, he, hheight, hidx, hstands⟩ := ih _ _ hfits
      have hkvs : n.kvs.drop n.len = [] := List.drop_length
      have hedges : n.edges.drop (n.len + 1) = [] :=
        List.drop_eq_nil_of_le (Nat.le_of_eq hr.sound.1)
      refine ⟨e, ?_, hheight, hidx, ?_⟩
      · rw [NodeRef.lastLeafEdgeLoop, NodeRef.lastEdge, NodeRef.len, hdescend]
        exact he
      · rw [toRoot_down hc] at hstands
        convert hstands using 1
        · simp [layout_frameAt hr.sound hc, before, Frame.after, Node.frameAt, hkvs, hedges]
        · simp [after, Frame.after, Node.frameAt, hkvs, hedges]

/-! ## To the next key -/

theorem onFrom_zero (hget : n.kvs[i]? = some item) :
    onFrom 0 n i = item :: n.kvs.drop (i + 1) := by
  obtain ⟨hlt, rfl⟩ := List.getElem?_eq_some_iff.1 hget
  exact List.drop_eq_getElem_cons hlt

theorem onFrom_succ (hget : n.kvs[i]? = some item) :
    onFrom (h + 1) n i = item ::
      bindings (weave ((n.edges.drop (i + 1)).map (layout h)) ((n.kvs.drop (i + 1)).map .sep)) := by
  obtain ⟨hlt, rfl⟩ := List.getElem?_eq_some_iff.1 hget
  rw [onFrom, List.drop_eq_getElem_cons hlt, List.map_cons, weave_cons_cons, List.nil_append,
    bindings_sep]

/-- A handle that has a key of its node on the right. -/
theorem Stands.right_of_lt (hs : Stands rootLen root kv left right) (hlt : kv.idx < kv.node.len) :
    ∃ item rest, kv.node.node.kvs[kv.idx]? = some item ∧ right = item :: rest := by
  obtain ⟨⟨h, n, path⟩, i⟩ := kv
  have hget : n.kvs[i]? = some n.kvs[i] := List.getElem?_eq_getElem hlt
  rw [← hs.right_eq]
  cases h with
  | zero => exact ⟨_, _, hget, by rw [onFrom_zero hget, List.cons_append]⟩
  | succ h => exact ⟨_, _, hget, by rw [onFrom_succ hget, List.cons_append]⟩

/-- The key of a handle is the next one on the right. -/
theorem Stands.getElem? (hs : Stands rootLen root kv left (item :: items))
    (hlt : kv.idx < kv.node.len) : kv.node.node.kvs[kv.idx]? = some item := by
  obtain ⟨item', rest, hget, hright⟩ := hs.right_of_lt hlt
  rw [List.cons.injEq] at hright
  rw [hget, hright.1]

theorem Stands.intoKv (hs : Stands rootLen root kv left (item :: items))
    (hlt : kv.idx < kv.node.len) : kv.intoKv = .ok item := by
  rw [NodeHandle.intoKv, getUnchecked, hs.getElem? hlt]

/-- Everything in a node is left of its last edge. -/
theorem upTo_len (hn : Sound h n) : upTo h n n.len = bindings (layout h n) := by
  cases h with
  | zero => simp [upTo, layout, Node.len]
  | succ h =>
      have hedges : n.edges.take (n.len + 1) = n.edges := List.take_of_length_le (Nat.le_of_eq hn.1)
      have hkvs : n.kvs.take n.len = n.kvs := List.take_length
      rw [upTo, hedges, hkvs, layout]

theorem onFrom_len (hn : Sound h n) : onFrom h n n.len = [] := by
  have hkvs : n.kvs.drop n.len = [] := List.drop_length
  cases h with
  | zero => exact hkvs
  | succ h =>
      have hedges : n.edges.drop (n.len + 1) = [] := List.drop_eq_nil_of_le (Nat.le_of_eq hn.1)
      rw [onFrom, hedges, hkvs, List.map_nil, List.map_nil, weave_singleton, bindings_nil]

theorem getElem?_plug : (f.plug c).edges[f.idx]? = some c := by
  rw [Frame.plug, Frame.idx, List.getElem?_append_right (Nat.le_refl _), Nat.sub_self]
  rfl

theorem frameAt_plug (hf : FrameOk h f) : (f.plug c).frameAt f.idx = f := by
  have hedges : (f.edgesLeft ++ c :: f.edgesRight).drop (f.edgesLeft.length + 1) = f.edgesRight := by
    rw [List.append_cons, List.drop_left' (by simp)]
  rw [Node.frameAt, Frame.plug, Frame.idx, hedges, List.take_left, hf.left_length, List.take_left,
    List.drop_left]

/-- From the end of a node, the walk goes on at the edge above. -/
theorem Stands.up (hs : Stands rootLen root ⟨⟨h, n, f :: path⟩, n.len⟩ left right) :
    Stands rootLen root ⟨⟨h + 1, f.plug n, path⟩, f.idx⟩ left right := by
  have hframe : FrameOk h f := hs.fits.path.1
  have hup := hs.fits.up
  refine ⟨hup, toRoot_up.trans hs.toRoot, ?_, ?_, ?_⟩
  · show f.idx ≤ (f.plug n).len
    rw [len_plug, Frame.len, Frame.idx, hframe.left_length]
    exact Nat.le_add_right _ _
  · rw [← hs.left_eq, upTo_succ hup.sound getElem?_plug, upTo_len hs.fits.sound,
      frameAt_plug hframe]
    simp [before]
  · rw [← hs.right_eq, onFrom_len hs.fits.sound, onFrom_frameAt, frameAt_plug hframe]
    simp [after]

theorem ascend_nil (hlink : n.parent = none) : NodeRef.ascend ⟨h, n, []⟩ = .ok none := by
  rw [NodeRef.ascend]
  exact if_pos hlink

theorem ascend_cons (hlink : n.parent = linkOf (f :: path)) :
    NodeRef.ascend ⟨h, n, f :: path⟩ = .ok (some ⟨⟨h + 1, f.plug n, path⟩, f.idx⟩) := by
  rw [NodeRef.ascend]
  exact if_pos hlink

theorem nextKvLoop_spec {fuel : Nat} (hs : Stands rootLen root e left right)
    (hfuel : e.node.path.length < fuel) :
    (right = [] ∧ NodeHandle.nextKvLoop fuel e = .ok none) ∨
      ∃ kv, NodeHandle.nextKvLoop fuel e = .ok (some kv) ∧ kv.idx < kv.node.len ∧
        Stands rootLen root kv left right := by
  induction fuel generalizing e with
  | zero => exact absurd hfuel (Nat.not_lt_zero _)
  | succ fuel ih =>
      by_cases hlt : e.idx < e.node.len
      · refine .inr ⟨e, ?_, hlt, hs⟩
        rw [NodeHandle.nextKvLoop, NodeHandle.rightKv, if_pos hlt]
      · obtain ⟨⟨h, n, path⟩, i⟩ := e
        have hi : i = n.len := Nat.le_antisymm hs.idx_le (Nat.not_lt.1 hlt)
        subst hi
        cases path with
        | nil =>
            refine .inl ⟨?_, ?_⟩
            · rw [← hs.right_eq, onFrom_len hs.fits.sound]
              rfl
            · rw [NodeHandle.nextKvLoop, NodeHandle.rightKv, if_neg hlt]
              show (NodeRef.ascend ⟨h, n, []⟩ >>= _) = _
              rw [ascend_nil hs.fits.link]
              rfl
        | cons f path =>
            have hrest := ih hs.up (Nat.lt_of_succ_lt_succ hfuel)
            have hstep : NodeHandle.nextKvLoop (fuel + 1) ⟨⟨h, n, f :: path⟩, n.len⟩ =
                NodeHandle.nextKvLoop fuel ⟨⟨h + 1, f.plug n, path⟩, f.idx⟩ := by
              rw [NodeHandle.nextKvLoop, NodeHandle.rightKv, if_neg hlt]
              show (NodeRef.ascend ⟨h, n, f :: path⟩ >>= _) = _
              rw [ascend_cons hs.fits.link]
              rfl
            rw [hstep]
            exact hrest

/-- The walk ends at the next key on the right. -/
theorem nextKv_next (hs : Stands rootLen root e left (item :: items)) :
    ∃ kv, e.nextKv = .ok (some kv) ∧ kv.idx < kv.node.len ∧
      Stands rootLen root kv left (item :: items) := by
  rcases nextKvLoop_spec hs (Nat.lt_succ_self _) with ⟨hright, -⟩ | hkv
  · cases hright
  · exact hkv

/-- What is left of the edge after a key ends with the key. -/
theorem bindings_before_succ (hn : Sound (h + 1) n) (hget : n.kvs[i]? = some item) :
    bindings ((n.frameAt (i + 1)).before h) = upTo (h + 1) n i ++ [item] := by
  obtain ⟨hlt, -⟩ := List.getElem?_eq_some_iff.1 hget
  obtain ⟨c, hc⟩ := hn.exists_edge (Nat.le_of_lt hlt)
  have hlength : ((n.edges.take i).map (layout h)).length = ((n.kvs.take i).map Token.sep).length := by
    rw [List.length_map, List.length_map]
    exact (hn.frameAt hc).1.left_length
  rw [upTo_succ hn hc]
  simp only [Frame.before, Node.frameAt, List.take_add_one]
  rw [hget, hc, Option.toList_some, Option.toList_some, List.map_append, List.map_append,
    weave_append hlength]
  simp

/-- What is right of a key begins with what is below the edge after it. -/
theorem weave_drop_succ (hc : n.edges[i + 1]? = some c) :
    weave ((n.edges.drop (i + 1)).map (layout h)) ((n.kvs.drop (i + 1)).map .sep) =
      layout h c ++ (n.frameAt (i + 1)).after h := by
  obtain ⟨hlt, rfl⟩ := List.getElem?_eq_some_iff.1 hc
  rw [List.drop_eq_getElem_cons hlt, List.map_cons, weave_cons]
  rfl

/-- The leaf edge after a key. -/
theorem nextLeafEdge_spec (hs : Stands rootLen root kv left (item :: items))
    (hlt : kv.idx < kv.node.len) :
    ∃ e, kv.nextLeafEdge = .ok e ∧ e.node.height = 0 ∧
      Stands rootLen root e (left ++ [item]) items := by
  have hget := hs.getElem? hlt
  obtain ⟨⟨h, n, path⟩, i⟩ := kv
  have hright := hs.right_eq
  rw [← hs.left_eq, ← hs.toRoot]
  cases h with
  | zero =>
      rw [onFrom_zero hget, List.cons_append, List.cons.injEq] at hright
      refine ⟨_, rfl, rfl, hs.fits, rfl, hlt, ?_, hright.2⟩
      simp only [NodeHandle.rightEdge, upTo, List.append_assoc, List.take_add_one]
      rw [hget, Option.toList_some]
  | succ h =>
      rw [onFrom_succ hget, List.cons_append, List.cons.injEq] at hright
      obtain ⟨c, hc, hdescend, hfits⟩ := descend_eq hs.fits hlt
      obtain ⟨e, he, hheight, hstands⟩ := firstLeafEdge_spec hfits
      refine ⟨e, ?_, hheight, ?_⟩
      · show (NodeHandle.descend ⟨⟨h + 1, n, path⟩, i + 1⟩ >>= _) = _
        rw [hdescend]
        exact he
      · rw [toRoot_down hc] at hstands
        convert hstands using 1
        · simp [before, bindings_before_succ hs.fits.sound hget]
        · rw [← hright.2, weave_drop_succ hc]
          simp [after]

/-! ## To a leaf of which the address is known -/

/-- The address of a leaf. -/
def Token.addr : Token K V → Option Nat
  | leaf addr _ => some addr
  | sep _ => none

/-- The leaves of a tree stand in blocks of their own. -/
theorem leaves_le_blocks (S : NodeSizes) (h : Nat) (n : Node K V) :
    (((layout h n).filterMap Token.addr : List Nat) : Multiset Nat) ≤ (blocks S h n).map Prod.fst := by
  induction h generalizing n with
  | zero => exact le_rfl
  | succ h ih =>
      have hseps : ∀ s ∈ n.kvs.map Token.sep, Token.addr s = none := by
        intro s hs
        obtain ⟨kv, -, rfl⟩ := List.mem_map.1 hs
        rfl
      have hedges : ∀ es : List (Node K V),
          ((((es.map (layout h)).map (List.filterMap Token.addr)).flatten : List Nat) : Multiset Nat) ≤
            ((es.map (blocks S h)).sum).map Prod.fst := by
        intro es
        induction es with
        | nil => simp
        | cons c es ihes =>
            simp only [List.map_cons, List.flatten_cons, List.sum_cons, Multiset.map_add,
              ← Multiset.coe_add]
            exact add_le_add (ih c) ihes
      rw [layout, filterMap_weave _ hseps, blocks, Multiset.map_cons]
      exact (hedges n.edges).trans (Multiset.le_cons_self _ _)

theorem locate_sound {addr : Nat} (hfits : Fits rootLen ⟨h, n, path⟩)
    (hlocate : locate addr h n path = some r) :
    r.height = 0 ∧ r.node.addr = addr ∧ Fits rootLen r ∧ r.toRoot = NodeRef.toRoot ⟨h, n, path⟩ := by
  induction h generalizing n path with
  | zero =>
      rw [locate] at hlocate
      split at hlocate
      · next haddr =>
        cases hlocate
        exact ⟨rfl, haddr, hfits, rfl⟩
      · cases hlocate
  | succ h ih =>
      rw [locate] at hlocate
      obtain ⟨i, -, hfound⟩ := List.exists_of_findSome?_eq_some hlocate
      obtain ⟨c, hc, hchild⟩ := Option.bind_eq_some_iff.1 hfound
      obtain ⟨hheight, haddr, hr, hroot⟩ := ih (hfits.down hc) hchild
      exact ⟨hheight, haddr, hr, hroot.trans (toRoot_down hc)⟩

theorem locate_complete {addr : Nat} {kvs : List (K × V)} (hmem : Token.leaf addr kvs ∈ layout h n) :
    (locate addr h n path).isSome := by
  induction h generalizing n path with
  | zero =>
      rw [layout, List.mem_singleton, Token.leaf.injEq] at hmem
      rw [locate, if_pos hmem.1.symm]
      rfl
  | succ h ih =>
      rcases mem_weave hmem with ⟨block, hblock, hleaf⟩ | hsep
      · obtain ⟨c, hc, rfl⟩ := List.mem_map.1 hblock
        obtain ⟨i, hi, rfl⟩ := List.getElem_of_mem hc
        rw [locate, List.findSome?_isSome_iff]
        refine ⟨i, List.mem_range.2 hi, ?_⟩
        rw [List.getElem?_eq_getElem hi]
        exact ih hleaf
      · obtain ⟨kv, -, hkv⟩ := List.mem_map.1 hsep
        cases hkv

/-- A dormant handle to a leaf, and what is left and right of it. -/
structure Marks (tokens : List (Token K V)) (d : Dormant) (kvs left right : List (K × V)) : Prop where
  idx_le : d.idx ≤ kvs.length
  exists_eq : ∃ T T', tokens = T ++ .leaf d.addr kvs :: T' ∧
    bindings T ++ kvs.take d.idx = left ∧ kvs.drop d.idx ++ bindings T' = right

/-- What stands around the tokens is left and right of the handle. -/
theorem Marks.append {tokens : List (Token K V)} {d : Dormant} {kvs : List (K × V)}
    (hm : Marks tokens d kvs left right) (B A : List (Token K V)) :
    Marks (B ++ tokens ++ A) d kvs (bindings B ++ left) (right ++ bindings A) := by
  obtain ⟨hidx, T, T', rfl, rfl, rfl⟩ := hm
  exact ⟨hidx, B ++ T, T' ++ A, by simp, by simp, by simp⟩

/-- A handle to a leaf stands where the leaf is now. -/
theorem awaken_spec {d : Dormant} {kvs : List (K × V)} (hroot : Fits rootLen root.borrow)
    (hnodup : ((root.borrow.blocks S).map Prod.fst).Nodup)
    (hmarks : Marks root.borrow.tokens d kvs left right) :
    ∃ e, d.awaken root = .ok e ∧ e.node.height = 0 ∧ e.idx = d.idx ∧ e.node.node.kvs = kvs ∧
      Stands rootLen root e left right := by
  obtain ⟨hidx, T, T', htokens, rfl, rfl⟩ := hmarks
  have hlayout : layout root.height root.node = root.borrow.tokens := by
    simp [NodeRef.tokens, before, after, Root.borrow]
  have hmem : Token.leaf d.addr kvs ∈ layout root.height root.node := by
    rw [hlayout, htokens]
    simp
  obtain ⟨r, hr⟩ := Option.isSome_iff_exists.1 (locate_complete hmem)
  obtain ⟨hheight, haddr, hfits, htoRoot⟩ := locate_sound hroot hr
  have hleaves : (root.borrow.tokens.filterMap Token.addr).Nodup := by
    have hle := leaves_le_blocks S root.height root.node
    rw [hlayout] at hle
    have hblocks : root.borrow.blocks S = blocks S root.height root.node := by
      simp [NodeRef.blocks, pathBlocks, Root.borrow]
    rw [hblocks] at hnodup
    exact Multiset.coe_nodup.1 (Multiset.nodup_of_le hle hnodup)
  obtain ⟨height, n, path⟩ := r
  obtain rfl : height = 0 := hheight
  have htokens' : root.borrow.tokens = before 0 path ++ .leaf d.addr n.kvs :: after 0 path := by
    have htree := (hfits.toRoot (S := S)).2.1
    rw [show NodeRef.toRoot ⟨0, n, path⟩ = root from htoRoot] at htree
    rw [htree, ← haddr]
    simp [NodeRef.tokens, layout]
  rw [htokens] at hleaves
  obtain ⟨rfl, hleaf, rfl⟩ :=
    append_cons_unique hleaves (htokens.symm.trans htokens') rfl rfl
  rw [Token.leaf.injEq] at hleaf
  obtain rfl : kvs = n.kvs := hleaf.2
  refine ⟨⟨⟨0, n, path⟩, d.idx⟩, ?_, rfl, rfl, rfl, hfits, htoRoot, hidx, rfl, rfl⟩
  rw [Dormant.awaken, hr]

end Memalart.BTree
