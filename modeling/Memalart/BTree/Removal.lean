/-
# What a removal leaves

A removal takes one key out of the keys of the tree and leaves the rest as it stands.  The
handle that it returns stands where the key has been.  The root may lose its last key on the
way: the tree is then one level too high, until the level is popped.
-/

import Memalart.BTree.Shrink

namespace Memalart.BTree

open Lib Machine

variable {K V : Type} {S : NodeSizes} {h i count rootLen : Nat} {l r c n : Node K V}
  {f : Frame K V} {path : List (Frame K V)} {kv item : K × V} {s : Seam K V} {mem : Memory}
  {root : Root K V} {kvh : NodeHandle K V} {left right items : List (K × V)}

/-! ## Up to the root -/

/-- The fewest keys of a root above the leaves. -/
def rootLeast (emptied : Bool) : Nat := if emptied then 0 else 1

/-- A tree that has been put right up to its root. -/
structure Mended (S : NodeSizes) (root : Root K V) (emptied : Bool) (mem : Memory) : Prop where
  fits : Fits (rootLeast emptied) root.borrow
  emptied : emptied = true → 0 < root.height ∧ root.node.len = 0
  accounted : Accounted S mem (root.borrow.blocks S)

theorem Mended.whole (hfits : Fits 1 root.borrow) (hacc : Accounted S mem (root.borrow.blocks S)) :
    Mended S root false mem := by
  refine ⟨hfits, ?_, hacc⟩
  intro hfalse
  cases hfalse

theorem ensures_fixLoop {fuel : Nat} {r : NodeRef K V} (hr : Loose 1 r) (hheight : 0 < r.height)
    (hfuel : r.path.length < fuel) (hacc : Accounted S mem (r.blocks S)) :
    Ensures (NodeRef.fixLoop S fuel r) mem fun res mem' =>
      res.1.borrow.tokens = r.tokens ∧ Mended S res.1 (!res.2) mem' := by
  induction fuel generalizing r mem with
  | zero => exact absurd hfuel (Nat.not_lt_zero _)
  | succ fuel ih =>
      rw [NodeRef.fixLoop, ensures_bind]
      refine (ensures_fixNodeThroughParent hr hheight hacc).mono ?_
      rintro res mem' - hres
      cases hres with
      | parent p loose height path tokens accounted =>
          rw [← tokens]
          exact ih loose height (Nat.lt_of_lt_of_le path (Nat.le_of_lt_succ hfuel)) accounted
      | done p fits tokens accounted =>
          obtain ⟨hfits, htokens, hblocks⟩ := fits.toRoot (S := S)
          rw [ensures_pure]
          refine ⟨htokens.trans tokens, .whole hfits ?_⟩
          rw [hblocks]
          exact accounted
      | emptyRoot path len accounted =>
          obtain ⟨h, c, path⟩ := r
          subst path
          rw [ensures_pure]
          refine ⟨rfl, ⟨⟨trivial, hr.link, hr.sound, hr.len_le⟩, ?_⟩, fun _ => ⟨hheight, len⟩, accounted⟩
          exact (min_le_right _ _).trans (Nat.zero_le _)

theorem ensures_fixNodeAndAffectedAncestors {r : NodeRef K V} (hr : Loose 1 r)
    (hheight : 0 < r.height) (hacc : Accounted S mem (r.blocks S)) :
    Ensures (r.fixNodeAndAffectedAncestors S) mem fun res mem' =>
      res.1.borrow.tokens = r.tokens ∧ Mended S res.1 (!res.2) mem' :=
  ensures_fixLoop hr hheight (Nat.lt_succ_self _) hacc

/-! ## The leaf -/

/-- A leaf edge, with the keys on its left and on its right. -/
structure StandsLeaf (e : NodeHandle K V) (left right : List (K × V)) : Prop where
  height : e.node.height = 0
  link : e.node.node.parent = linkOf e.node.path
  idx_le : e.idx ≤ e.node.len
  left_eq : bindings (before 0 e.node.path) ++ e.node.node.kvs.take e.idx = left
  right_eq : e.node.node.kvs.drop e.idx ++ bindings (after 0 e.node.path) = right

/-- The leaf is at its place in the tokens. -/
theorem StandsLeaf.marks {e : NodeHandle K V} (he : StandsLeaf e left right) :
    Marks e.node.tokens e.dormant e.node.node.kvs left right := by
  obtain ⟨⟨h, n, path⟩, i⟩ := e
  obtain rfl : h = 0 := he.height
  refine ⟨he.idx_le, before 0 path, after 0 path, ?_, he.left_eq, he.right_eq⟩
  simp [NodeRef.tokens, layout, NodeHandle.dormant]

/-- A leaf that has its number of keys in bounds: what is above it may still lack one. -/
inductive LeafFixed : NodeRef K V → Prop
  | root (n : Node K V) (fits : Fits 1 ⟨0, n, []⟩) : LeafFixed ⟨0, n, []⟩
  | child (n : Node K V) (f : Frame K V) (path : List (Frame K V)) (frame : FrameOk 0 f)
      (loose : Loose 1 ⟨1, f.plug n, path⟩) : LeafFixed ⟨0, n, f :: path⟩

/-- The reference goes to the child of which the frame is known. -/
theorem childAt_plug (hf : FrameOk h f) (hidx : f.idx = i) :
    BalancingContext.childAt ⟨h + 1, f.plug c, path⟩ i c = ⟨h, c, f :: path⟩ := by
  rw [BalancingContext.childAt, ← hidx, frameAt_plug hf]
  rfl

theorem take_past (xs : List (K × V)) (kv : K × V) (ys : List (K × V)) (i : Nat) :
    (xs ++ kv :: ys).take (xs.length + 1 + i) = xs ++ kv :: ys.take i := by
  rw [Nat.add_assoc, List.take_append, List.take_of_length_le (Nat.le_add_right _ _),
    Nat.add_sub_cancel_left, Nat.add_comm 1, List.take_succ_cons]

theorem drop_past (xs : List (K × V)) (kv : K × V) (ys : List (K × V)) (i : Nat) :
    (xs ++ kv :: ys).drop (xs.length + 1 + i) = ys.drop i := by
  rw [Nat.add_assoc, List.drop_append, List.drop_eq_nil_of_le (Nat.le_add_right _ _),
    Nat.add_sub_cancel_left, Nat.add_comm 1, List.drop_succ_cons, List.nil_append]

section Leaf

variable (hp : Pair 0 s path l r)
include hp

/-- A merger of leaves, with the edge in the right one. -/
theorem ensures_merge_right (hle : minLen ≤ l.len + 1 + r.len) (hroom : l.len + 1 + r.len ≤ capacity)
    (hacc : Accounted S mem (pairBlocks S 0 s path l r))
    (hpos : StandsLeaf ⟨⟨0, r, s.aroundRight l kv :: path⟩, i⟩ left right) :
    Ensures ((s.context 0 path l kv r).mergeTrackingChildEdge S (.right i)) mem fun e mem' =>
      StandsLeaf e left right ∧ LeafFixed e.node ∧ Accounted S mem' (e.node.blocks S) := by
  have hi : i ≤ (s.context 0 path l kv r).rightChild.len := hpos.idx_le
  obtain ⟨hfilled, hframe, hlink, hloose⟩ := hp.merged_ok kv hle hroom
  have hidx : s.aroundMerged.idx = s.idx := hp.left_length
  simp only [BalancingContext.mergeTrackingChildEdge, if_pos hi, ensures_bind]
  refine (hp.ensures_doMerge hroom hacc).mono ?_
  rintro _ mem' - ⟨rfl, hacc'⟩
  rw [ensures_pure]
  show StandsLeaf ⟨BalancingContext.childAt _ s.idx _, l.len + 1 + i⟩ _ _ ∧
    LeafFixed (BalancingContext.childAt _ s.idx _) ∧
    Accounted S mem' (NodeRef.blocks S (BalancingContext.childAt _ s.idx _))
  rw [childAt_plug hframe hidx]
  refine ⟨⟨rfl, hlink, ?_, ?_, ?_⟩, .child _ _ _ hframe hloose, hacc'⟩
  · show l.len + 1 + i ≤ (merged 0 l kv r).len
    rw [merged_len]
    exact Nat.add_le_add_left hi _
  · rw [← hpos.left_eq]
    show _ ++ (merged 0 l kv r).kvs.take _ = _
    rw [merged_kvs, Node.len, take_past]
    simp [before, Seam.before_aroundMerged, Seam.before_aroundRight hp.toSeamOk, layout]
  · rw [← hpos.right_eq]
    show (merged 0 l kv r).kvs.drop _ ++ _ = _
    rw [merged_kvs, Node.len, drop_past]
    simp [after, Seam.after_aroundMerged, Seam.after_aroundRight]

/-- A merger of leaves, with the edge in the left one. -/
theorem ensures_merge_left (hle : minLen ≤ l.len + 1 + r.len) (hroom : l.len + 1 + r.len ≤ capacity)
    (hacc : Accounted S mem (pairBlocks S 0 s path l r))
    (hpos : StandsLeaf ⟨⟨0, l, s.aroundLeft kv r :: path⟩, i⟩ left right) :
    Ensures ((s.context 0 path l kv r).mergeTrackingChildEdge S (.left i)) mem fun e mem' =>
      StandsLeaf e left right ∧ LeafFixed e.node ∧ Accounted S mem' (e.node.blocks S) := by
  have hi : i ≤ (s.context 0 path l kv r).leftChild.len := hpos.idx_le
  have hi' : i ≤ l.kvs.length := hi
  obtain ⟨hfilled, hframe, hlink, hloose⟩ := hp.merged_ok kv hle hroom
  have hidx : s.aroundMerged.idx = s.idx := hp.left_length
  simp only [BalancingContext.mergeTrackingChildEdge, if_pos hi, ensures_bind]
  refine (hp.ensures_doMerge hroom hacc).mono ?_
  rintro _ mem' - ⟨rfl, hacc'⟩
  rw [ensures_pure]
  show StandsLeaf ⟨BalancingContext.childAt _ s.idx _, i⟩ _ _ ∧
    LeafFixed (BalancingContext.childAt _ s.idx _) ∧
    Accounted S mem' (NodeRef.blocks S (BalancingContext.childAt _ s.idx _))
  rw [childAt_plug hframe hidx]
  refine ⟨⟨rfl, hlink, ?_, ?_, ?_⟩, .child _ _ _ hframe hloose, hacc'⟩
  · show i ≤ (merged 0 l kv r).len
    rw [merged_len, Nat.add_assoc]
    exact hi.trans (Nat.le_add_right _ _)
  · rw [← hpos.left_eq]
    show _ ++ (merged 0 l kv r).kvs.take _ = _
    rw [merged_kvs, List.take_append_of_le_length hi']
    simp [before, Seam.before_aroundMerged, Seam.before_aroundLeft]
  · rw [← hpos.right_eq]
    show (merged 0 l kv r).kvs.drop _ ++ _ = _
    rw [merged_kvs, List.drop_append_of_le_length hi']
    simp [after, Seam.after_aroundMerged, Seam.after_aroundLeft, layout]

/-- One key is taken from the left leaf, with the edge in the right one. -/
theorem stealLeft_spec (hl : minLen + 1 ≤ l.len) (hlcap : l.len ≤ capacity) (hr : minLen ≤ r.len + 1)
    (hrcap : r.len + 1 ≤ capacity)
    (hpos : StandsLeaf ⟨⟨0, r, s.aroundRight l kv :: path⟩, i⟩ left right) :
    ∃ e, (s.context 0 path l kv r).stealLeft i = .ok e ∧ StandsLeaf e left right ∧
      LeafFixed e.node ∧ e.node.blocks S = pairBlocks S 0 s path l r := by
  obtain ⟨l', stolen, r', heq, hstolen, hmoved, hfits⟩ :=
    hp.bulkStealLeft (S := S) 1 kv Nat.zero_lt_one hl hlcap hr hrcap
  have hframe : FrameOk 0 (s.aroundRight l' stolen) := hfits.path.1
  obtain ⟨moved, hlkvs, hrkvs, hcount⟩ := hstolen.exists_eq
  obtain rfl : moved = [] := List.length_eq_zero_iff.1 (Nat.succ.inj hcount)
  have hidx : (s.aroundRight l' stolen).idx = s.idx + 1 := by
    simp [Frame.idx, Seam.aroundRight, Seam.idx, hp.left_length]
  refine ⟨⟨⟨0, r', s.aroundRight l' stolen :: path⟩, 1 + i⟩, ?_, ⟨rfl, hfits.link, ?_, ?_, ?_⟩,
    .child _ _ _ hframe hfits.up.toLoose, ?_⟩
  · rw [BalancingContext.stealLeft]
    show (_ >>= _) = _
    rw [heq]
    show Except.ok (NodeHandle.mk (BalancingContext.childAt (BalancingContext.writeBack _) _ _) _) = _
    rw [writeBack_eq hp.toSeamOk, SeamOk.join_eq_aroundRight]
    exact congrArg (fun ref => Except.ok (NodeHandle.mk ref (1 + i))) (childAt_plug hframe hidx)
  · show 1 + i ≤ r'.len
    rw [hstolen.right_len, Nat.add_comm]
    exact Nat.succ_le_succ hpos.idx_le
  · rw [← hpos.left_eq]
    show _ ++ r'.kvs.take (1 + i) = _
    rw [hrkvs, Nat.add_comm]
    simp [before, Seam.before_aroundRight hp.toSeamOk, layout, hlkvs]
  · rw [← hpos.right_eq]
    show r'.kvs.drop (1 + i) ++ _ = _
    rw [hrkvs, Nat.add_comm]
    rfl
  · rw [Seam.blocks_aroundRight, hmoved.blocks_eq]
    rfl

/-- One key is taken from the right leaf, with the edge in the left one. -/
theorem stealRight_spec (hr : minLen + 1 ≤ r.len) (hrcap : r.len ≤ capacity) (hl : minLen ≤ l.len + 1)
    (hlcap : l.len + 1 ≤ capacity)
    (hpos : StandsLeaf ⟨⟨0, l, s.aroundLeft kv r :: path⟩, i⟩ left right) :
    ∃ e, (s.context 0 path l kv r).stealRight i = .ok e ∧ StandsLeaf e left right ∧
      LeafFixed e.node ∧ e.node.blocks S = pairBlocks S 0 s path l r := by
  obtain ⟨l', stolen, r', heq, hstolen, hmoved, hfits⟩ :=
    hp.bulkStealRight (S := S) 1 kv Nat.zero_lt_one hr hrcap hl hlcap
  have hframe : FrameOk 0 (s.aroundLeft stolen r') := hfits.path.1
  obtain ⟨moved, hrkvs, hlkvs, hcount⟩ := hstolen.exists_eq
  obtain rfl : moved = [] := List.length_eq_zero_iff.1 (Nat.succ.inj hcount)
  have hidx : (s.aroundLeft stolen r').idx = s.idx := hp.left_length
  have hi : i ≤ l.kvs.length := hpos.idx_le
  refine ⟨⟨⟨0, l', s.aroundLeft stolen r' :: path⟩, i⟩, ?_, ⟨rfl, hfits.link, ?_, ?_, ?_⟩,
    .child _ _ _ hframe hfits.up.toLoose, ?_⟩
  · rw [BalancingContext.stealRight]
    show (_ >>= _) = _
    rw [heq]
    show Except.ok (NodeHandle.mk (BalancingContext.childAt (BalancingContext.writeBack _) _ _) _) = _
    rw [writeBack_eq hp.toSeamOk, SeamOk.join_eq_aroundLeft]
    exact congrArg (fun ref => Except.ok (NodeHandle.mk ref i)) (childAt_plug hframe hidx)
  · show i ≤ l'.len
    rw [hstolen.left_len]
    exact Nat.le_succ_of_le hpos.idx_le
  · rw [← hpos.left_eq]
    show _ ++ l'.kvs.take i = _
    rw [hlkvs, List.take_append_of_le_length hi]
    rfl
  · rw [← hpos.right_eq]
    show l'.kvs.drop i ++ _ = _
    rw [hlkvs, List.drop_append_of_le_length hi]
    simp [after, Seam.after_aroundLeft, layout, hrkvs]
  · rw [Seam.blocks_aroundLeft, hmoved.blocks_eq]
    rfl

end Leaf

/-- A leaf that lacks one key gets it from a sibling or is merged with it, and the edge moves
with its keys. -/
theorem ensures_rebalanceLeaf {pos : NodeHandle K V} (hpos : StandsLeaf pos left right)
    (hloose : Loose 1 pos.node) (hlen : leastLen 1 0 pos.node.path ≤ pos.node.len + 1)
    (hlt : pos.node.len < minLen)
    (hacc : Accounted S mem (pos.node.blocks S)) :
    Ensures (pos.rebalanceLeaf S) mem fun e mem' =>
      StandsLeaf e left right ∧ LeafFixed e.node ∧ Accounted S mem' (e.node.blocks S) := by
  obtain ⟨⟨h, c, path⟩, i⟩ := pos
  obtain rfl : h = 0 := hpos.height
  have hcap : minLen + minLen + 1 ≤ capacity := Nat.le_refl 11
  simp only [NodeRef.len] at hlen hlt
  rw [NodeHandle.rebalanceLeaf, ensures_bind]
  cases path with
  | nil =>
      have hchoose : NodeRef.chooseParentKv ⟨0, c, []⟩ = .ok none := by
        show (NodeRef.ascend ⟨0, c, []⟩ >>= _) = _
        rw [ascend_nil hloose.link]
        rfl
      rw [ensures_ofExcept hchoose, ensures_pure]
      exact ⟨hpos, .root _ (hloose.fits (Nat.zero_le _)), hacc⟩
  | cons f path =>
      rcases chooseParentKv_spec hloose with
        ⟨s, l, kv, rfl, hp, hl, hchoose⟩ | ⟨s, kv, r, rfl, hp, hr, hchoose⟩
      · rw [ensures_ofExcept hchoose]
        rw [Seam.blocks_aroundRight] at hacc
        by_cases hmerge : (s.context 0 path l kv c).canMerge
        · have hroom : l.len + 1 + c.len ≤ capacity := of_decide_eq_true hmerge
          simp only [if_pos hmerge]
          exact ensures_merge_right hp (hl.1.1.trans (by omega)) hroom hacc hpos
        · have hroom : ¬ l.len + 1 + c.len ≤ capacity := fun h => hmerge (decide_eq_true h)
          obtain ⟨e, heq, he, hfixed, hblocks⟩ := stealLeft_spec (S := S) hp (by omega) hl.1.2 hlen
            (by omega) hpos
          simp only [if_neg hmerge]
          rw [ensures_ofExcept heq, hblocks]
          exact ⟨he, hfixed, hacc⟩
      · rw [ensures_ofExcept hchoose]
        rw [Seam.blocks_aroundLeft] at hacc
        by_cases hmerge : (s.context 0 path c kv r).canMerge
        · have hroom : c.len + 1 + r.len ≤ capacity := of_decide_eq_true hmerge
          simp only [if_pos hmerge]
          exact ensures_merge_left hp (hr.1.1.trans (Nat.le_add_left _ _)) hroom hacc hpos
        · have hroom : ¬ c.len + 1 + r.len ≤ capacity := fun h => hmerge (decide_eq_true h)
          obtain ⟨e, heq, he, hfixed, hblocks⟩ := stealRight_spec (S := S) hp (by omega) hr.1.2 hlen
            (by omega) hpos
          simp only [if_neg hmerge]
          rw [ensures_ofExcept heq, hblocks]
          exact ⟨he, hfixed, hacc⟩

/-! ## Removal from a leaf -/

/-- What a removal returns, with the keys on the left and on the right of the removed one. -/
structure Shrunk (S : NodeSizes) (left right : List (K × V)) (res : Removed K V) (mem : Memory) :
    Prop extends Mended S res.root res.emptied mem where
  marks : ∃ kvs, Marks res.root.borrow.tokens res.pos kvs left right

theorem sliceRemove_of_getElem? {α : Type} {xs : List α} {a : α} (hget : xs[i]? = some a) :
    (sliceRemove xs i).length + 1 = xs.length ∧ i ≤ (sliceRemove xs i).length ∧
      (sliceRemove xs i).take i = xs.take i ∧ (sliceRemove xs i).drop i = xs.drop (i + 1) := by
  obtain ⟨hlt, -⟩ := List.getElem?_eq_some_iff.1 hget
  have hlength : (xs.take i).length = i := List.length_take_of_le (Nat.le_of_lt hlt)
  refine ⟨?_, ?_, List.take_left' hlength, List.drop_left' hlength⟩
  · rw [sliceRemove, List.length_append, hlength, List.length_drop]
    omega
  · rw [sliceRemove, List.length_append, hlength]
    exact Nat.le_add_right _ _

/-- The leaf without the key. -/
theorem remove_spec (hs : Stands 1 root kvh left (item :: right)) (hheight : kvh.node.height = 0)
    (hlt : kvh.idx < kvh.node.len) :
    ∃ pos, kvh.remove = .ok (item, pos) ∧ StandsLeaf pos left right ∧ Loose 1 pos.node ∧
      leastLen 1 0 pos.node.path ≤ pos.node.len + 1 ∧ pos.node.blocks S = kvh.node.blocks S := by
  have hget := hs.getElem? hlt
  obtain ⟨⟨h, n, path⟩, i⟩ := kvh
  obtain rfl : h = 0 := hheight
  obtain ⟨hlength, hi, htake, hdrop⟩ := sliceRemove_of_getElem? hget
  have hright := hs.right_eq
  rw [onFrom_zero hget, List.cons_append, List.cons.injEq] at hright
  refine ⟨⟨⟨0, { n with kvs := sliceRemove n.kvs i }, path⟩, i⟩, ?_,
    ⟨rfl, hs.fits.link, hi, ?_, ?_⟩, ⟨hs.fits.path, hs.fits.link, hs.fits.sound, ?_⟩, ?_, rfl⟩
  · show (getUnchecked n.kvs i >>= _) = _
    rw [getUnchecked, hget]
    rfl
  · rw [← hs.left_eq, htake]
    rfl
  · rw [← hright.2, hdrop]
  · exact (Nat.le_succ _).trans (hlength.trans_le hs.fits.len_le)
  · exact hs.fits.le_len.trans_eq hlength.symm

theorem ensures_removeLeafKv (hs : Stands 1 root kvh left (item :: right))
    (hheight : kvh.node.height = 0) (hlt : kvh.idx < kvh.node.len)
    (hacc : Accounted S mem (root.borrow.blocks S)) :
    Ensures (kvh.removeLeafKv S) mem fun res mem' =>
      res.kv = item ∧ Shrunk S left right res mem' := by
  obtain ⟨pos, hremove, hpos, hloose, hlen, hblocks⟩ := remove_spec (S := S) hs hheight hlt
  rw [← hs.toRoot, (hs.fits.toRoot).2.2, ← hblocks] at hacc
  rw [NodeHandle.removeLeafKv, ensures_bind, ensures_ofExcept hremove]
  by_cases hshort : pos.node.len < minLen
  · simp only [if_pos hshort, ensures_bind]
    refine (ensures_rebalanceLeaf hpos hloose hlen hshort hacc).mono ?_
    rintro e mem' - ⟨he, hfixed, hacc'⟩
    obtain ⟨node, i⟩ := e
    cases hfixed with
    | root n fits =>
        rw [ensures_ofExcept (ascend_nil he.link), ensures_pure]
        exact ⟨rfl, .whole fits hacc', _, he.marks⟩
    | child n f path frame loose =>
        rw [ensures_ofExcept (ascend_cons he.link)]
        simp only [ensures_bind]
        rw [← blocks_up] at hacc'
        refine (ensures_fixNodeAndAffectedAncestors loose Nat.zero_lt_one hacc').mono ?_
        rintro ⟨root', ok⟩ mem'' - ⟨htokens, hmended⟩
        rw [ensures_pure]
        refine ⟨rfl, hmended, n.kvs, ?_⟩
        rw [htokens, tokens_up frame]
        exact he.marks
  · simp only [if_neg hshort]
    rw [ensures_pure]
    have hfits := hloose.fits (leastLen_le_minLen.trans (Nat.not_lt.1 hshort))
    obtain ⟨hroot, htokens, hrootBlocks⟩ := hfits.toRoot (S := S)
    refine ⟨rfl, .whole hroot ?_, pos.node.node.kvs, ?_⟩
    · rw [hrootBlocks]
      exact hacc
    · rw [htokens]
      exact hpos.marks

/-! ## Removal from an internal node -/

/-- The key on the left of a leaf edge. -/
theorem leftKv_spec {e : NodeHandle K V} (he : Stands rootLen root e left right)
    (hheight : e.node.height = 0) (hpos : 0 < e.idx) :
    ∃ kvh prev left', e.leftKv = some kvh ∧ left = left' ++ [prev] ∧ kvh.node.height = 0 ∧
      kvh.idx < kvh.node.len ∧ Stands rootLen root kvh left' (prev :: right) := by
  obtain ⟨⟨h, n, path⟩, i⟩ := e
  obtain rfl : h = 0 := hheight
  obtain ⟨i, rfl⟩ := Nat.exists_eq_succ_of_ne_zero (Nat.ne_of_gt hpos)
  have hlt : i < n.kvs.length := he.idx_le
  have hget : n.kvs[i]? = some n.kvs[i] := List.getElem?_eq_getElem hlt
  refine ⟨⟨⟨0, n, path⟩, i⟩, n.kvs[i], bindings (before 0 path) ++ n.kvs.take i, if_pos hpos, ?_, rfl,
    hlt, he.fits, he.toRoot, Nat.le_of_lt hlt, rfl, ?_⟩
  · rw [← he.left_eq]
    simp only [upTo, List.take_add_one]
    rw [hget, Option.toList_some, List.append_assoc]
  · rw [← he.right_eq, onFrom_zero hget]
    rfl

theorem plugAll_len {n n' : Node K V} (hlen : n.len = n'.len) (path : List (Frame K V)) :
    (plugAll n path).len = (plugAll n' path).len := by
  induction path generalizing n n' with
  | nil => exact hlen
  | cons f path ih => exact ih (len_plug.trans len_plug.symm)

/-- Another key in the place of one. -/
theorem replaceKv_spec (hs : Stands rootLen root kvh left (item :: right))
    (hlt : kvh.idx < kvh.node.len) (new : K × V) :
    (kvh.replaceKv new).idx < (kvh.replaceKv new).node.len ∧
      Stands rootLen (kvh.replaceKv new).node.toRoot (kvh.replaceKv new) left (new :: right) ∧
      (kvh.replaceKv new).node.blocks S = kvh.node.blocks S ∧
      (kvh.replaceKv new).node.toRoot.height = root.height ∧
      (kvh.replaceKv new).node.toRoot.node.len = root.node.len := by
  have hget := hs.getElem? hlt
  have hroot := hs.toRoot
  obtain ⟨⟨h, n, path⟩, i⟩ := kvh
  have hget' : (n.kvs.set i new)[i]? = some new := List.getElem?_set_self hlt
  have hlen : ({ n with kvs := n.kvs.set i new } : Node K V).len = n.len := List.length_set
  have htake : (n.kvs.set i new).take i = n.kvs.take i := List.take_set_of_le (Nat.le_refl i)
  have hdrop : (n.kvs.set i new).drop (i + 1) = n.kvs.drop (i + 1) :=
    List.drop_set_of_lt (Nat.lt_succ_self i)
  have hsound : Sound h { n with kvs := n.kvs.set i new } := by
    cases h with
    | zero => exact hs.fits.sound
    | succ h => exact ⟨hs.fits.sound.1.trans (congrArg Nat.succ hlen.symm), hs.fits.sound.2⟩
  have hfits : Fits rootLen ⟨h, { n with kvs := n.kvs.set i new }, path⟩ :=
    ⟨⟨hs.fits.path, hs.fits.link, hsound, hlen.trans_le hs.fits.len_le⟩,
      hs.fits.le_len.trans_eq hlen.symm⟩
  have hright := hs.right_eq
  refine ⟨Nat.lt_of_lt_of_eq hlt hlen.symm, ⟨hfits, rfl, ?_, ?_, ?_⟩, ?_, ?_, ?_⟩
  · exact (Nat.le_of_lt hlt).trans_eq hlen.symm
  · rw [← hs.left_eq]
    cases h with
    | zero => simp only [NodeHandle.replaceKv, upTo, htake]
    | succ h => simp only [NodeHandle.replaceKv, upTo, htake]
  · cases h with
    | zero =>
        rw [onFrom_zero hget, List.cons_append, List.cons.injEq] at hright
        rw [← hright.2]
        show onFrom 0 { n with kvs := n.kvs.set i new } i ++ _ = _
        rw [onFrom_zero hget', hdrop]
        rfl
    | succ h =>
        rw [onFrom_succ hget, List.cons_append, List.cons.injEq] at hright
        rw [← hright.2]
        show onFrom (h + 1) { n with kvs := n.kvs.set i new } i ++ _ = _
        rw [onFrom_succ hget', hdrop]
        rfl
  · cases h <;> rfl
  · rw [← hroot]
    rfl
  · rw [← hroot]
    exact plugAll_len hlen path

/-- A leaf edge, as a place in the tokens. -/
theorem Stands.marks {e : NodeHandle K V} (he : Stands rootLen root e left right)
    (hheight : e.node.height = 0) :
    Marks root.borrow.tokens e.dormant e.node.node.kvs left right := by
  obtain ⟨-, htokens, -⟩ := he.fits.toRoot (S := ⟨0, 0⟩)
  rw [← he.toRoot, htokens]
  obtain ⟨⟨h, n, path⟩, i⟩ := e
  obtain rfl : h = 0 := hheight
  exact StandsLeaf.marks ⟨rfl, he.fits.link, he.idx_le, he.left_eq, he.right_eq⟩

/-- The last leaf edge below the left edge of an internal key stands where the key does. -/
theorem lastLeafEdge_left (hs : Stands rootLen root kvh left right) (hheight : 0 < kvh.node.height) :
    ∃ child e, kvh.leftEdge.descend = .ok child ∧ child.lastLeafEdge = .ok e ∧ e.node.height = 0 ∧
      e.idx = e.node.len ∧ minLen ≤ e.node.len ∧ Stands rootLen root e left right := by
  obtain ⟨⟨h, n, path⟩, i⟩ := kvh
  obtain ⟨h, rfl⟩ := Nat.exists_eq_succ_of_ne_zero (Nat.ne_of_gt hheight)
  obtain ⟨c, hc, hdescend, hfits⟩ := descend_eq hs.fits hs.idx_le
  obtain ⟨e, he, he_height, hidx, hstands⟩ := lastLeafEdge_spec hfits
  have hroot : NodeRef.toRoot ⟨h, c, n.frameAt i :: path⟩ = root := (toRoot_down hc).trans hs.toRoot
  rw [hroot] at hstands
  have hleft : bindings (before h (n.frameAt i :: path)) ++ bindings (layout h c) = left := by
    rw [← hs.left_eq, upTo_succ hs.fits.sound hc]
    simp [before]
  have hright : bindings (after h (n.frameAt i :: path)) = right := by
    rw [← hs.right_eq, onFrom_frameAt]
    simp [after]
  rw [hleft, hright] at hstands
  refine ⟨_, e, hdescend, he, he_height, hidx, ?_, hstands⟩
  have hpath : e.node.path.length = h + 1 + path.length := by
    have hlevels := congrArg Root.height (hstands.toRoot.trans hs.toRoot.symm)
    simpa [NodeRef.toRoot, he_height] using hlevels
  have hle := hstands.fits.le_len
  obtain ⟨⟨h', n', path'⟩, i'⟩ := e
  cases path' with
  | nil =>
      rw [List.length_nil] at hpath
      omega
  | cons f path' => exact hle

theorem ensures_removeInternalKv (hs : Stands 1 root kvh left (item :: right))
    (hheight : 0 < kvh.node.height) (hacc : Accounted S mem (root.borrow.blocks S)) :
    Ensures (kvh.removeInternalKv S) mem fun res mem' =>
      res.kv = item ∧ Shrunk S left right res mem' := by
  obtain ⟨child, e, hdescend, hlast, he_height, hidx, hlen, he⟩ := lastLeafEdge_left hs hheight
  have hpos : 0 < e.idx := by
    rw [hidx]
    exact Nat.lt_of_lt_of_le (Nat.succ_pos 4) hlen
  obtain ⟨prevKv, prev, left, hleftKv, rfl, hprev_height, hprev_lt, hprev⟩ :=
    leftKv_spec he he_height hpos
  rw [NodeHandle.removeInternalKv, ensures_bind, ensures_ofExcept hdescend, ensures_bind,
    ensures_ofExcept hlast]
  simp only [hleftKv, ensures_bind]
  refine (ensures_removeLeafKv hprev hprev_height hprev_lt hacc).mono ?_
  rintro removed mem' - ⟨rfl, hshrunk⟩
  obtain ⟨kvs, hmarks⟩ := hshrunk.marks
  -- The hole that the leaf's key has left is found again, and the key is on its right.
  obtain ⟨hole, hawaken, -, -, -, hhole⟩ := awaken_spec hshrunk.fits hshrunk.accounted.distinct hmarks
  obtain ⟨internal, hnext, hlt, hinternal⟩ := nextKv_next hhole
  obtain ⟨hlt', hreplaced, hblocks, hroot_height, hroot_len⟩ :=
    replaceKv_spec (S := S) hinternal hlt removed.kv
  obtain ⟨pos, hedge, hpos_height, hpos⟩ := nextLeafEdge_spec hreplaced hlt'
  obtain ⟨-, -, hblocks'⟩ := hreplaced.fits.toRoot (S := S)
  obtain ⟨-, -, hblocks''⟩ := hinternal.fits.toRoot (S := S)
  rw [ensures_ofExcept hawaken, ensures_ofExcept hnext]
  simp only [ensures_bind]
  rw [ensures_ofExcept (hinternal.intoKv hlt), ensures_ofExcept hedge, ensures_pure]
  obtain ⟨hfits, -, -⟩ := hreplaced.fits.toRoot (S := S)
  refine ⟨rfl, ⟨⟨hfits, ?_, ?_⟩, pos.node.node.kvs, ?_⟩⟩
  · intro hemptied
    rw [hroot_height, hroot_len]
    exact hshrunk.emptied hemptied
  · show Accounted S mem' (NodeRef.blocks S (Root.borrow _))
    rw [hblocks', hblocks, ← hblocks'', hinternal.toRoot]
    exact hshrunk.accounted
  · exact hpos.marks hpos_height

/-- A key is removed from the keys of the tree. -/
theorem ensures_removeKvTracking (hs : Stands 1 root kvh left (item :: right))
    (hlt : kvh.idx < kvh.node.len) (hacc : Accounted S mem (root.borrow.blocks S)) :
    Ensures (kvh.removeKvTracking S) mem fun res mem' =>
      res.kv = item ∧ Shrunk S left right res mem' := by
  rw [NodeHandle.removeKvTracking]
  by_cases hheight : kvh.node.height = 0
  · rw [if_pos hheight]
    exact ensures_removeLeafKv hs hheight hlt hacc
  · rw [if_neg hheight]
    exact ensures_removeInternalKv hs (Nat.pos_of_ne_zero hheight) hacc

end Memalart.BTree
