/-
# Removal keeps the tree

A removal takes one key out of what stands in the tree.  Whatever is merged and moved on the
way up, above the leaves the leaves and the keys between them stay in their order, so that
the place of the removed key can be found again.
-/

import Memalart.BTree.Siblings

namespace Memalart.BTree

open Lib Machine

variable {K V : Type} {S : NodeSizes} {h i count rootLen : Nat} {l r c l' r' : Node K V}
  {f : Frame K V} {path : List (Frame K V)} {kv stolen : K × V} {s : Seam K V} {mem : Memory}

/-! ## What stands around a seam -/

namespace Seam

def before (h : Nat) (s : Seam K V) : List (Token K V) :=
  weave (s.edgesLeft.map (layout h)) (s.kvsLeft.map .sep)

def after (h : Nat) (s : Seam K V) : List (Token K V) :=
  weave ([] :: s.edgesRight.map (layout h)) (s.kvsRight.map .sep)

/-- The blocks of the node and of its other children. -/
def blocks (S : NodeSizes) (h : Nat) (s : Seam K V) : Multiset (Nat × Nat) :=
  (s.addr, recommendedSize S.internal) ::ₘ
    ((s.edgesLeft.map (BTree.blocks S h)).sum + (s.edgesRight.map (BTree.blocks S h)).sum)

theorem before_aroundLeft : (s.aroundLeft kv r).before h = s.before h := rfl

theorem after_aroundLeft :
    (s.aroundLeft kv r).after h = .sep kv :: layout h r ++ s.after h := by
  simp only [Frame.after, aroundLeft, List.map_cons, weave_cons_cons, List.nil_append]
  rw [weave_cons]
  rfl

theorem before_aroundRight (hs : SeamOk h s) :
    (s.aroundRight l kv).before h = s.before h ++ layout h l ++ [.sep kv] := by
  have hlength : (s.edgesLeft.map (layout h)).length = (s.kvsLeft.map Token.sep).length := by
    simp [hs.left_length]
  simp only [Frame.before, aroundRight, List.map_append, List.map_cons, List.map_nil]
  rw [weave_append hlength, weave_cons_cons, weave_nil, List.append_assoc]
  rfl

theorem after_aroundRight : (s.aroundRight l kv).after h = s.after h := rfl

theorem before_aroundMerged : s.aroundMerged.before h = s.before h := rfl

theorem after_aroundMerged : s.aroundMerged.after h = s.after h := by
  rw [Frame.after, aroundMerged, map_layout_relink]
  rfl

theorem blocks_aroundLeft :
    NodeRef.blocks S ⟨h, l, s.aroundLeft kv r :: path⟩ =
      BTree.blocks S h l + BTree.blocks S h r + (s.blocks S h + pathBlocks S (h + 1) path) := by
  simp only [NodeRef.blocks, pathBlocks, aroundLeft, blocks, List.map_cons, List.sum_cons,
    ← Multiset.singleton_add]
  abel

theorem blocks_aroundRight :
    NodeRef.blocks S ⟨h, r, s.aroundRight l kv :: path⟩ =
      BTree.blocks S h l + BTree.blocks S h r + (s.blocks S h + pathBlocks S (h + 1) path) := by
  simp only [NodeRef.blocks, pathBlocks, aroundRight, blocks, List.map_append, List.map_cons,
    List.map_nil, List.sum_append, List.sum_cons, List.sum_nil, ← Multiset.singleton_add]
  abel

theorem blocks_aroundMerged :
    NodeRef.blocks S ⟨h, c, s.aroundMerged :: path⟩ =
      BTree.blocks S h c + (s.blocks S h + pathBlocks S (h + 1) path) := by
  simp only [NodeRef.blocks, pathBlocks, aroundMerged, blocks, map_blocks_relink,
    ← Multiset.singleton_add]
  abel

end Seam

/-- An internal node around two children, in a tree. -/
structure SeamIn (h : Nat) (s : Seam K V) (path : List (Frame K V)) : Prop extends SeamOk h s where
  path_ok : PathOk 1 (h + 1) path
  link : s.parent = linkOf path
  le_len : leastLen 1 (h + 1) path ≤ s.kvsLeft.length + s.kvsRight.length + 1
  len_le : s.kvsLeft.length + s.kvsRight.length + 1 ≤ capacity

/-- Two children at the places that the node leaves for them. -/
structure Pair (h : Nat) (s : Seam K V) (path : List (Frame K V)) (l r : Node K V) : Prop
    extends SeamIn h s path where
  left_link : l.parent = some (s.addr, s.idx)
  right_link : r.parent = some (s.addr, s.idx + 1)
  left_sound : Sound h l
  right_sound : Sound h r

namespace Seam

/-- The tree with some tokens in the place of the two children. -/
def around (h : Nat) (s : Seam K V) (path : List (Frame K V)) (tokens : List (Token K V)) :
    List (Token K V) :=
  BTree.before (h + 1) path ++ s.before h ++ tokens ++ (s.after h ++ BTree.after (h + 1) path)

theorem tokens_aroundLeft :
    NodeRef.tokens ⟨h, l, s.aroundLeft kv r :: path⟩ =
      s.around h path (layout h l ++ .sep kv :: layout h r) := by
  simp [NodeRef.tokens, BTree.before, BTree.after, around, before_aroundLeft, after_aroundLeft]

theorem tokens_aroundRight (hs : SeamOk h s) :
    NodeRef.tokens ⟨h, r, s.aroundRight l kv :: path⟩ =
      s.around h path (layout h l ++ .sep kv :: layout h r) := by
  simp [NodeRef.tokens, BTree.before, BTree.after, around, before_aroundRight hs, after_aroundRight]

theorem tokens_join (hs : SeamOk h s) :
    NodeRef.tokens ⟨h + 1, s.join l kv r, path⟩ =
      s.around h path (layout h l ++ .sep kv :: layout h r) := by
  have hlength : (s.edgesLeft.map (layout h)).length = (s.kvsLeft.map Token.sep).length := by
    simp [hs.left_length]
  simp only [NodeRef.tokens, layout, join, around, List.map_append, List.map_cons]
  rw [weave_append hlength, weave_cons_cons, weave_cons]
  simp [Seam.before, Seam.after]

theorem tokens_aroundMerged :
    NodeRef.tokens ⟨h, c, s.aroundMerged :: path⟩ = s.around h path (layout h c) := by
  simp [NodeRef.tokens, BTree.before, BTree.after, around, before_aroundMerged, after_aroundMerged]

end Seam

theorem Seam.len_aroundRight : (s.aroundRight l kv).len = s.kvsLeft.length + s.kvsRight.length + 1 := by
  simp only [Frame.len, Seam.aroundRight, List.length_append, List.length_singleton]
  omega

theorem Seam.len_aroundLeft : (s.aroundLeft kv r).len = s.kvsLeft.length + s.kvsRight.length + 1 := by
  simp only [Frame.len, Seam.aroundLeft, List.length_cons]
  omega

namespace Pair

variable (hp : Pair h s path l r)
include hp

/-- Two children with enough keys make the node whole, seen from the right one. -/
theorem fits (hl : minLen ≤ l.len ∧ l.len ≤ capacity) (hr : minLen ≤ r.len ∧ r.len ≤ capacity) :
    Fits 1 ⟨h, r, s.aroundRight l kv :: path⟩ where
  path := by
    refine ⟨hp.toSeamOk.aroundRight ⟨hl, hp.left_sound⟩ hp.left_link, hp.link, ?_, hp.path_ok⟩
    rw [Seam.len_aroundRight]
    exact ⟨hp.le_len, hp.len_le⟩
  link := by
    rw [hp.right_link, linkOf, List.head?_cons, Option.map_some, Frame.link, Frame.idx]
    simp [Seam.aroundRight, Seam.idx, hp.left_length]
  sound := hp.right_sound
  len_le := hr.2
  le_len := hr.1

/-- The same, seen from the left one. -/
theorem fits_left (hl : minLen ≤ l.len ∧ l.len ≤ capacity)
    (hr : minLen ≤ r.len ∧ r.len ≤ capacity) : Fits 1 ⟨h, l, s.aroundLeft kv r :: path⟩ where
  path := by
    refine ⟨hp.toSeamOk.aroundLeft ⟨hr, hp.right_sound⟩ hp.right_link, hp.link, ?_, hp.path_ok⟩
    rw [Seam.len_aroundLeft]
    exact ⟨hp.le_len, hp.len_le⟩
  link := by
    rw [hp.left_link, linkOf, List.head?_cons, Option.map_some, Frame.link, Frame.idx]
    simp [Seam.aroundLeft, Seam.idx, hp.left_length]
  sound := hp.left_sound
  len_le := hl.2
  le_len := hl.1

/-- Keys that move between the two leave them where they are. -/
theorem moved {kv' : K × V} (hmoved : Moved S h l kv r l' kv' r') : Pair h s path l' r' :=
  { hp with
    left_link := hmoved.left_parent.trans hp.left_link
    right_link := hmoved.right_parent.trans hp.right_link
    left_sound := hmoved.left
    right_sound := hmoved.right }

/-- A merger fits in the place of the two, and leaves the node one key short. -/
theorem merged_ok (kv : K × V) (hle : minLen ≤ l.len + 1 + r.len) (hroom : l.len + 1 + r.len ≤ capacity) :
    Filled h (merged h l kv r) ∧ FrameOk h s.aroundMerged ∧
      (merged h l kv r).parent = linkOf (s.aroundMerged :: path) ∧
      Loose 1 ⟨h + 1, s.aroundMerged.plug (merged h l kv r), path⟩ := by
  have hfilled : Filled h (merged h l kv r) := by
    refine ⟨?_, sound_merged hp.left_sound hp.right_sound⟩
    rw [merged_len]
    exact ⟨hle, hroom⟩
  have hlink : (merged h l kv r).parent = some s.aroundMerged.link := by
    rw [merged_parent, hp.left_link, Frame.link, Frame.idx]
    simp [Seam.aroundMerged, Seam.idx, hp.left_length]
  refine ⟨hfilled, hp.aroundMerged, hlink, hp.path_ok, hp.link, ?_, ?_⟩
  · exact hp.aroundMerged.sound_plug hfilled hlink
  · show (s.aroundMerged.plug (merged h l kv r)).len ≤ capacity
    rw [len_plug]
    exact (Nat.le_succ _).trans hp.len_le

end Pair

/-! ## The sibling -/

theorem Loose.pos_len (hr : Loose 1 ⟨h, c, f :: path⟩) : 0 < f.len := by
  refine Nat.lt_of_lt_of_le ?_ hr.path.2.2.1.1
  cases path with
  | nil => exact Nat.lt_of_lt_of_le Nat.zero_lt_one (le_min (Nat.succ_pos h) (Nat.le_refl 1))
  | cons => exact Nat.succ_pos 4

/-- The key on the left of a child comes first. -/
theorem chooseParentKv_aroundRight (hs : SeamOk h s) (hlink : r.parent = some (s.addr, s.idx + 1)) :
    NodeRef.chooseParentKv ⟨h, r, s.aroundRight l kv :: path⟩ =
      .ok (some (.left (s.context h path l kv r))) := by
  have hidx : (s.aroundRight l kv).idx = s.idx + 1 := by
    simp [Frame.idx, Seam.aroundRight, Seam.idx, hs.left_length]
  have hparent : r.parent = linkOf (s.aroundRight l kv :: path) := by
    rw [hlink, linkOf, List.head?_cons, Option.map_some, Frame.link, hidx]
    rfl
  have hchild : (s.join l kv r).edges[s.idx]? = some l := by
    rw [SeamOk.join_eq_aroundLeft]
    have hget := getElem?_plug (f := s.aroundLeft kv r) (c := l)
    rwa [Frame.idx, Seam.aroundLeft, hs.left_length] at hget
  have hleftKv : NodeHandle.leftKv ⟨⟨h + 1, (s.aroundRight l kv).plug r, path⟩, (s.aroundRight l kv).idx⟩ =
      some ⟨⟨h + 1, s.join l kv r, path⟩, s.idx⟩ := by
    rw [hidx, ← SeamOk.join_eq_aroundRight]
    exact if_pos (Nat.succ_pos _)
  have hdescend : NodeHandle.descend ⟨⟨h + 1, s.join l kv r, path⟩, s.idx⟩ =
      .ok ⟨h, l, (s.join l kv r).frameAt s.idx :: path⟩ := by
    simp only [NodeHandle.descend, hchild]
  have hascend := ascend_cons (h := h) hparent
  unfold NodeRef.chooseParentKv
  show (_ >>= _) = _
  rw [hascend]
  simp only [bind, Except.bind, hleftKv, NodeHandle.leftEdge, hdescend]
  rfl

/-- A node that is not the root has a sibling on the left, or is the first and has one on the
right. -/
theorem chooseParentKv_spec (hr : Loose 1 ⟨h, c, f :: path⟩) :
    (∃ s l kv, f = s.aroundRight l kv ∧ Pair h s path l c ∧ Filled h l ∧
      NodeRef.chooseParentKv ⟨h, c, f :: path⟩ = .ok (some (.left (s.context h path l kv c)))) ∨
    ∃ s kv r, f = s.aroundLeft kv r ∧ Pair h s path c r ∧ Filled h r ∧
      NodeRef.chooseParentKv ⟨h, c, f :: path⟩ = .ok (some (.right (s.context h path c kv r))) := by
  have hpos := hr.pos_len
  obtain ⟨hframe, hlink, ⟨hle, hcap⟩, hpath⟩ := hr.path
  have hascend := ascend_cons (h := h) hr.link
  have hchild : c.parent = some f.link := hr.link
  obtain ⟨addr, parent, kvsLeft, kvsRight, edgesLeft, edgesRight⟩ := f
  obtain ⟨hleft_length, hright_length, hleft, hright⟩ := hframe
  simp only [Frame.len] at *
  rcases List.eq_nil_or_concat edgesLeft with rfl | ⟨es, l, rfl⟩
  · obtain rfl : kvsLeft = [] := List.length_eq_zero_iff.1 hleft_length.symm
    cases kvsRight with
    | nil => exact absurd hpos (Nat.lt_irrefl 0)
    | cons kv kvsRight =>
        cases edgesRight with
        | nil => cases hright_length
        | cons r edgesRight =>
            refine .inr ⟨⟨addr, parent, [], kvsRight, [], edgesRight⟩, kv, r, rfl, ?_, hright.1.2, ?_⟩
            · exact
                { left_length := rfl
                  right_length := Nat.succ.inj hright_length
                  left := trivial
                  right := hright.2
                  path_ok := hpath
                  link := hlink
                  le_len := hle
                  len_le := hcap
                  left_link := hchild
                  right_link := hright.1.1
                  left_sound := hr.sound
                  right_sound := hright.1.2.2 }
            · show (NodeRef.ascend _ >>= _) = _
              rw [hascend]
              rfl
  · rw [List.length_concat] at hleft_length
    rcases List.eq_nil_or_concat kvsLeft with rfl | ⟨ks, kv, rfl⟩
    · cases hleft_length
    · rw [List.length_concat] at hleft_length
      rw [List.concat_eq_append, siblings_append] at hleft
      rw [List.concat_eq_append, List.concat_eq_append]
      obtain ⟨hleft, ⟨hl_link, hl⟩, -⟩ := hleft
      have hs : SeamOk h ⟨addr, parent, ks, kvsRight, es, edgesRight⟩ :=
        { left_length := Nat.succ.inj hleft_length
          right_length := hright_length
          left := hleft
          right := by
            rw [Seam.idx, ← Nat.succ.inj hleft_length]
            rwa [List.length_concat] at hright }
      have hr_link : c.parent = some (addr, ks.length + 1) := by
        rw [hchild, Frame.link, Frame.idx, List.length_concat, ← Nat.succ.inj hleft_length]
      refine .inl ⟨⟨addr, parent, ks, kvsRight, es, edgesRight⟩, l, kv, rfl, ?_, hl,
        chooseParentKv_aroundRight hs hr_link⟩
      rw [List.length_concat, Nat.add_right_comm] at hle hcap
      refine ⟨⟨hs, hpath, hlink, hle, hcap⟩, ?_, hr_link, hl.2, hr.sound⟩
      · rw [hl_link, Nat.zero_add, Seam.idx, Nat.succ.inj hleft_length]

/-! ## Merging and stealing in the tree -/

theorem StolenLeft.left_len {kv' : K × V} (hs : StolenLeft l kv r l' kv' r' count) :
    l.len = l'.len + count := by
  obtain ⟨moved, hl, -, rfl⟩ := hs.exists_eq
  rw [Node.len, hl, List.length_append, List.length_cons, Node.len]

theorem StolenLeft.right_len {kv' : K × V} (hs : StolenLeft l kv r l' kv' r' count) :
    r'.len = r.len + count := by
  obtain ⟨moved, -, hr, rfl⟩ := hs.exists_eq
  rw [Node.len, hr, List.length_append, List.length_cons, Node.len]
  omega

theorem StolenRight.right_len {kv' : K × V} (hs : StolenRight l kv r l' kv' r' count) :
    r.len = r'.len + count := by
  obtain ⟨moved, hr, -, rfl⟩ := hs.exists_eq
  rw [Node.len, hr, List.length_append, List.length_cons, Node.len, Nat.add_comm]
  omega

theorem StolenRight.left_len {kv' : K × V} (hs : StolenRight l kv r l' kv' r' count) :
    l'.len = l.len + count := by
  obtain ⟨moved, -, hl, rfl⟩ := hs.exists_eq
  rw [Node.len, hl, List.length_append, List.length_cons, Node.len]

/-- The blocks of a tree with two children beside a key. -/
def pairBlocks (S : NodeSizes) (h : Nat) (s : Seam K V) (path : List (Frame K V)) (l r : Node K V) :
    Multiset (Nat × Nat) :=
  BTree.blocks S h l + BTree.blocks S h r + (s.blocks S h + pathBlocks S (h + 1) path)

namespace Pair

variable (hp : Pair h s path l r)
include hp

theorem ensures_doMerge (hroom : l.len + 1 + r.len ≤ capacity)
    (hacc : Accounted S mem (pairBlocks S h s path l r)) :
    Ensures ((s.context h path l kv r).doMerge S) mem fun res mem' =>
      res = (⟨h + 1, s.aroundMerged.plug (merged h l kv r), path⟩, merged h l kv r) ∧
        Accounted S mem' (NodeRef.blocks S ⟨h, merged h l kv r, s.aroundMerged :: path⟩) := by
  have hmerged : (r.addr, recommendedSize (S.at h)) ::ₘ BTree.blocks S h (merged h l kv r) =
      BTree.blocks S h l + BTree.blocks S h r := blocks_merged
  rw [pairBlocks, ← hmerged, Multiset.cons_add, ← Seam.blocks_aroundMerged] at hacc
  exact BTree.ensures_doMerge hp.toSeamOk hp.left_sound hp.right_sound hroom hacc

/-- Keys are taken from the left child. -/
theorem bulkStealLeft (count : Nat) (kv : K × V) (hcount : 0 < count) (hl : minLen + count ≤ l.len)
    (hlcap : l.len ≤ capacity) (hr : minLen ≤ r.len + count) (hrcap : r.len + count ≤ capacity) :
    ∃ l' stolen r', (s.context h path l kv r).bulkStealLeft count =
        .ok ⟨(s.context h path l kv r).parent.replaceKv stolen, l', r'⟩ ∧
      StolenLeft l kv r l' stolen r' count ∧ Moved S h l kv r l' stolen r' ∧
      Fits 1 ⟨h, r', s.aroundRight l' stolen :: path⟩ := by
  obtain ⟨l', stolen, r', heq, hstolen, hmoved⟩ := bulkStealLeft_spec (S := S) (s := s) path kv
    hp.left_sound hp.right_sound hcount hrcap ((Nat.le_add_left _ _).trans hl)
  have hleft := hstolen.left_len
  have hright := hstolen.right_len
  refine ⟨l', stolen, r', heq, hstolen, hmoved, (hp.moved hmoved).fits ?_ ?_⟩
  · constructor <;> omega
  · constructor <;> omega

/-- Keys are taken from the right child. -/
theorem bulkStealRight (count : Nat) (kv : K × V) (hcount : 0 < count) (hr : minLen + count ≤ r.len)
    (hrcap : r.len ≤ capacity) (hl : minLen ≤ l.len + count) (hlcap : l.len + count ≤ capacity) :
    ∃ l' stolen r', (s.context h path l kv r).bulkStealRight count =
        .ok ⟨(s.context h path l kv r).parent.replaceKv stolen, l', r'⟩ ∧
      StolenRight l kv r l' stolen r' count ∧ Moved S h l kv r l' stolen r' ∧
      Fits 1 ⟨h, l', s.aroundLeft stolen r' :: path⟩ := by
  obtain ⟨l', stolen, r', heq, hstolen, hmoved⟩ := bulkStealRight_spec (S := S) (s := s) path kv
    hp.left_sound hp.right_sound hcount hlcap ((Nat.le_add_left _ _).trans hr)
  have hleft := hstolen.left_len
  have hright := hstolen.right_len
  refine ⟨l', stolen, r', heq, hstolen, hmoved, (hp.moved hmoved).fits_left ?_ ?_⟩
  · constructor <;> omega
  · constructor <;> omega

end Pair

/-! ## Up from an underfull node -/

/-- What `fix_node_through_parent` makes of a tree above its leaves. -/
inductive FixedOk (S : NodeSizes) (r : NodeRef K V) (mem : Memory) : Fixed K V → Prop
  | parent (p : NodeRef K V) (loose : Loose 1 p) (height : 0 < p.height)
      (path : p.path.length < r.path.length) (tokens : p.tokens = r.tokens)
      (accounted : Accounted S mem (p.blocks S)) : FixedOk S r mem (.parent p)
  | done (p : NodeRef K V) (fits : Fits 1 p) (tokens : p.tokens = r.tokens)
      (accounted : Accounted S mem (p.blocks S)) : FixedOk S r mem (.done p)
  | emptyRoot (path : r.path = []) (len : r.len = 0) (accounted : Accounted S mem (r.blocks S)) :
      FixedOk S r mem (.emptyRoot r)

namespace Pair

variable (hp : Pair h s path l r) (hpos : 0 < h)
include hp hpos

/-- Above the leaves a steal changes neither what stands in the tree nor its blocks. -/
theorem writeBack_spec (hmoved : Moved S h l kv r l' stolen r')
    (hfits : Fits 1 ⟨h + 1, s.join l' stolen r', path⟩) :
    ∃ p, BalancingContext.writeBack ⟨(s.context h path l kv r).parent.replaceKv stolen, l', r'⟩ = p ∧
      Fits 1 p ∧ p.tokens = s.around h path (layout h l ++ .sep kv :: layout h r) ∧
      p.blocks S = pairBlocks S h s path l r := by
  refine ⟨_, writeBack_eq hp.toSeamOk, hfits, ?_, ?_⟩
  · rw [Seam.tokens_join hp.toSeamOk, hmoved.layout_eq hpos]
  · rw [SeamOk.join_eq_aroundLeft, blocks_up, Seam.blocks_aroundLeft, hmoved.blocks_eq]
    rfl

/-- The merger of two children above the leaves. -/
theorem ensures_mergeTrackingParent (hle : minLen ≤ l.len + 1 + r.len)
    (hroom : l.len + 1 + r.len ≤ capacity) (hacc : Accounted S mem (pairBlocks S h s path l r)) :
    Ensures ((s.context h path l kv r).mergeTrackingParent S) mem fun p mem' =>
      Loose 1 p ∧ p.height = h + 1 ∧ p.path = path ∧
        p.tokens = s.around h path (layout h l ++ .sep kv :: layout h r) ∧
        Accounted S mem' (p.blocks S) := by
  obtain ⟨-, hframe, -, hloose⟩ := hp.merged_ok kv hle hroom
  obtain ⟨h, rfl⟩ := Nat.exists_eq_succ_of_ne_zero (Nat.ne_of_gt hpos)
  rw [BalancingContext.mergeTrackingParent, ensures_bind]
  refine (hp.ensures_doMerge hroom hacc).mono ?_
  rintro _ mem' - ⟨rfl, hacc'⟩
  rw [ensures_pure]
  refine ⟨hloose, rfl, rfl, ?_, ?_⟩
  · rw [tokens_up hframe, Seam.tokens_aroundMerged, layout_merged hp.left_sound]
  · rw [blocks_up]
    exact hacc'

end Pair

theorem leastLen_le_minLen : leastLen 1 h path ≤ minLen := by
  cases path with
  | nil => exact (min_le_right _ _).trans (Nat.succ_le_succ (Nat.zero_le 4))
  | cons => exact le_rfl

theorem ensures_fixNodeThroughParent {r : NodeRef K V} (hr : Loose 1 r) (hheight : 0 < r.height)
    (hacc : Accounted S mem (r.blocks S)) :
    Ensures (r.fixNodeThroughParent S) mem fun res mem' => FixedOk S r mem' res := by
  unfold NodeRef.fixNodeThroughParent
  by_cases hlen : r.len ≥ minLen
  · rw [if_pos hlen, ensures_pure]
    exact .done r (hr.fits (leastLen_le_minLen.trans hlen)) rfl hacc
  rw [if_neg hlen, ensures_bind]
  obtain ⟨h, c, path⟩ := r
  cases path with
  | nil =>
      have hchoose : NodeRef.chooseParentKv ⟨h, c, []⟩ = .ok none := by
        show (NodeRef.ascend ⟨h, c, []⟩ >>= _) = _
        rw [ascend_nil hr.link]
        rfl
      rw [ensures_ofExcept hchoose]
      by_cases hpos : NodeRef.len ⟨h, c, []⟩ > 0
      · simp only [if_pos hpos, ensures_pure]
        exact .done _ (hr.fits ((min_le_right _ _).trans hpos)) rfl hacc
      · simp only [if_neg hpos, ensures_pure]
        exact .emptyRoot rfl (Nat.eq_zero_of_not_pos hpos) hacc
  | cons f path =>
      have hc : c.len < minLen := Nat.lt_of_not_le hlen
      have hcap : minLen + minLen + 1 ≤ capacity := Nat.le_refl 11
      rcases chooseParentKv_spec hr with
        ⟨s, l, kv, rfl, hp, hl, hchoose⟩ | ⟨s, kv, r, rfl, hp, hr', hchoose⟩
      · rw [ensures_ofExcept hchoose]
        rw [Seam.blocks_aroundRight] at hacc
        have htokens : NodeRef.tokens ⟨h, c, s.aroundRight l kv :: path⟩ =
            s.around h path (layout h l ++ .sep kv :: layout h c) :=
          Seam.tokens_aroundRight hp.toSeamOk
        by_cases hmerge : (s.context h path l kv c).canMerge
        · have hroom : l.len + 1 + c.len ≤ capacity := of_decide_eq_true hmerge
          have hle : minLen ≤ l.len + 1 + c.len := hl.1.1.trans (by omega)
          simp only [if_pos hmerge, ensures_bind]
          refine (hp.ensures_mergeTrackingParent hheight hle hroom hacc).mono ?_
          rintro p mem' - ⟨hloose, hp_height, hp_path, hp_tokens, hacc'⟩
          rw [ensures_pure]
          refine .parent p hloose ?_ ?_ (hp_tokens.trans htokens.symm) hacc'
          · rw [hp_height]
            exact Nat.succ_pos h
          · rw [hp_path]
            exact Nat.lt_succ_self _
        · have hroom : ¬ l.len + 1 + c.len ≤ capacity := fun h => hmerge (decide_eq_true h)
          obtain ⟨l', stolen, r', heq, -, hmoved, hfits⟩ :=
            hp.bulkStealLeft (S := S) (minLen - c.len) kv (by omega) (by omega) hl.1.2
              (by omega) (by omega)
          obtain ⟨p, hp_eq, hp_fits, hp_tokens, hp_blocks⟩ := hp.writeBack_spec hheight hmoved
            (by rw [SeamOk.join_eq_aroundRight]; exact hfits.up)
          simp only [if_neg hmerge, ensures_bind]
          rw [NodeRef.len, ensures_ofExcept heq, ensures_pure, hp_eq]
          refine .done p hp_fits (hp_tokens.trans htokens.symm) ?_
          rw [hp_blocks]
          exact hacc
      · rw [ensures_ofExcept hchoose]
        rw [Seam.blocks_aroundLeft] at hacc
        have htokens : NodeRef.tokens ⟨h, c, s.aroundLeft kv r :: path⟩ =
            s.around h path (layout h c ++ .sep kv :: layout h r) := Seam.tokens_aroundLeft
        by_cases hmerge : (s.context h path c kv r).canMerge
        · have hroom : c.len + 1 + r.len ≤ capacity := of_decide_eq_true hmerge
          have hle : minLen ≤ c.len + 1 + r.len := hr'.1.1.trans (Nat.le_add_left _ _)
          simp only [if_pos hmerge, ensures_bind]
          refine (hp.ensures_mergeTrackingParent hheight hle hroom hacc).mono ?_
          rintro p mem' - ⟨hloose, hp_height, hp_path, hp_tokens, hacc'⟩
          rw [ensures_pure]
          refine .parent p hloose ?_ ?_ (hp_tokens.trans htokens.symm) hacc'
          · rw [hp_height]
            exact Nat.succ_pos h
          · rw [hp_path]
            exact Nat.lt_succ_self _
        · have hroom : ¬ c.len + 1 + r.len ≤ capacity := fun h => hmerge (decide_eq_true h)
          obtain ⟨l', stolen, r', heq, -, hmoved, hfits⟩ :=
            hp.bulkStealRight (S := S) (minLen - c.len) kv (by omega) (by omega) hr'.1.2
              (by omega) (by omega)
          obtain ⟨p, hp_eq, hp_fits, hp_tokens, hp_blocks⟩ := hp.writeBack_spec hheight hmoved hfits.up
          simp only [if_neg hmerge, ensures_bind]
          rw [NodeRef.len, ensures_ofExcept heq, ensures_pure, hp_eq]
          refine .done p hp_fits (hp_tokens.trans htokens.symm) ?_
          rw [hp_blocks]
          exact hacc

end Memalart.BTree
