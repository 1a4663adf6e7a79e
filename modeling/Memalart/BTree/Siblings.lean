/-
# Two children beside one key

Merging two children, and moving keys from one of them to the other through the key between
them, is seen by the rest of the tree only in the key and in the numbers of keys: what stands
in the two children and between them stays the same.  Above the leaves even the leaves stay.
-/

import Memalart.BTree.Balance
import Memalart.BTree.Growth

namespace Memalart.BTree

open Lib Machine

variable {K V : Type} {S : NodeSizes} {h i count : Nat} {l r c : Node K V} {f : Frame K V}
  {path : List (Frame K V)} {kv stolen : K × V} {xs ys : List (Node K V)} {p q : List (K × V)}
  {mem : Memory}

/-- An internal node around one of its keys and the two children beside it. -/
structure Seam (K V : Type) where
  addr : Nat
  parent : Option (Nat × Nat)
  kvsLeft : List (K × V)
  kvsRight : List (K × V)
  edgesLeft : List (Node K V)
  edgesRight : List (Node K V)

namespace Seam

/-- The node, with the key and the two children. -/
def join (s : Seam K V) (l : Node K V) (kv : K × V) (r : Node K V) : Node K V :=
  ⟨s.addr, s.parent, s.kvsLeft ++ kv :: s.kvsRight, s.edgesLeft ++ l :: r :: s.edgesRight⟩

/-- The index of the key and of the left child. -/
def idx (s : Seam K V) : Nat := s.kvsLeft.length

/-- The node around the left child. -/
def aroundLeft (s : Seam K V) (kv : K × V) (r : Node K V) : Frame K V :=
  ⟨s.addr, s.parent, s.kvsLeft, kv :: s.kvsRight, s.edgesLeft, r :: s.edgesRight⟩

/-- The node around the right child. -/
def aroundRight (s : Seam K V) (l : Node K V) (kv : K × V) : Frame K V :=
  ⟨s.addr, s.parent, s.kvsLeft ++ [kv], s.kvsRight, s.edgesLeft ++ [l], s.edgesRight⟩

/-- The node around the one child that is left of a merger. -/
def aroundMerged (s : Seam K V) : Frame K V :=
  ⟨s.addr, s.parent, s.kvsLeft, s.kvsRight, s.edgesLeft, Node.relink s.addr (s.idx + 1) s.edgesRight⟩

end Seam

/-- The other children are siblings of the two. -/
structure SeamOk (h : Nat) (s : Seam K V) : Prop where
  left_length : s.edgesLeft.length = s.kvsLeft.length
  right_length : s.edgesRight.length = s.kvsRight.length
  left : Siblings (Filled h) s.addr 0 s.edgesLeft
  right : Siblings (Filled h) s.addr (s.idx + 2) s.edgesRight

namespace SeamOk

variable {s : Seam K V} (hs : SeamOk h s)
include hs

theorem aroundLeft (hr : Filled h r) (hlink : r.parent = some (s.addr, s.idx + 1)) :
    FrameOk h (s.aroundLeft kv r) where
  left_length := hs.left_length
  right_length := congrArg Nat.succ hs.right_length
  left := hs.left
  right := by
    simp only [Seam.aroundLeft, hs.left_length]
    exact ⟨⟨hlink, hr⟩, hs.right⟩

theorem aroundRight (hl : Filled h l) (hlink : l.parent = some (s.addr, s.idx)) :
    FrameOk h (s.aroundRight l kv) where
  left_length := by simp [Seam.aroundRight, hs.left_length]
  right_length := hs.right_length
  left := by
    simp only [Seam.aroundRight, siblings_append, hs.left_length, Nat.zero_add]
    exact ⟨hs.left, ⟨hlink, hl⟩, trivial⟩
  right := by
    simp only [Seam.aroundRight, List.length_append, List.length_singleton, hs.left_length]
    exact hs.right

theorem aroundMerged : FrameOk h s.aroundMerged where
  left_length := hs.left_length
  right_length := length_relink.trans hs.right_length
  left := hs.left
  right := by
    simp only [Seam.aroundMerged, hs.left_length]
    exact siblings_relink hs.right.forall

omit hs in
theorem join_eq_aroundRight : s.join l kv r = (s.aroundRight l kv).plug r := by
  simp [Seam.join, Seam.aroundRight, Frame.plug]

omit hs in
theorem join_eq_aroundLeft : s.join l kv r = (s.aroundLeft kv r).plug l := rfl

end SeamOk

/-! ## Moving keys between the two -/

/-- Keys have moved between two children and the key between them. -/
structure Moved (S : NodeSizes) (h : Nat) (l : Node K V) (kv : K × V) (r : Node K V)
    (l' : Node K V) (kv' : K × V) (r' : Node K V) : Prop where
  left : Sound h l'
  right : Sound h r'
  left_parent : l'.parent = l.parent
  right_parent : r'.parent = r.parent
  layout_eq : 0 < h → layout h l' ++ .sep kv' :: layout h r' = layout h l ++ .sep kv :: layout h r
  blocks_eq : blocks S h l' + blocks S h r' = blocks S h l + blocks S h r

/-- Children of a sound node, with their own property. -/
theorem Sound.forall_edges (hn : Sound (h + 1) l) : ∀ c ∈ l.edges, Filled h c := hn.2.forall

theorem layout_split (hkvs : l.kvs = p ++ stolen :: q) (hedges : l.edges = xs ++ ys)
    (hxs : xs.length = p.length + 1) :
    layout (h + 1) l = weave (xs.map (layout h)) (p.map .sep) ++
      .sep stolen :: weave (ys.map (layout h)) (q.map .sep) := by
  have hlength : (xs.map (layout h)).length = (p.map (Token.sep (K := K) (V := V))).length + 1 := by
    simp [hxs]
  simp only [layout, hkvs, hedges, List.map_append, List.map_cons]
  exact weave_join (.sep stolen) hlength

/-- The last keys of an internal node go to its right sibling, with the children behind them. -/
theorem moved_left (hl : Sound (h + 1) l) (hr : Sound (h + 1) r) (hkvs : l.kvs = p ++ stolen :: q)
    (hedges : l.edges = xs ++ ys) (hxs : xs.length = p.length + 1) :
    Moved S (h + 1) l kv r { l with kvs := p, edges := xs } stolen
      { r with kvs := q ++ kv :: r.kvs, edges := Node.relink r.addr 0 (ys ++ r.edges) } := by
  obtain ⟨hlength, hsiblings⟩ := hl
  rw [hedges, siblings_append] at hsiblings
  have hys : ys.length = q.length + 1 := by
    rw [hedges, hkvs, List.length_append, List.length_append, List.length_cons] at hlength
    omega
  have hlength' : (ys.map (layout h)).length = (q.map (Token.sep (K := K) (V := V))).length + 1 := by
    simp [hys]
  have hright : layout (h + 1)
        { r with kvs := q ++ kv :: r.kvs, edges := Node.relink r.addr 0 (ys ++ r.edges) } =
      weave (ys.map (layout h)) (q.map .sep) ++ .sep kv :: layout (h + 1) r := by
    simp only [layout, map_layout_relink, List.map_append, List.map_cons]
    exact weave_join (.sep kv) hlength'
  refine ⟨⟨hxs, hsiblings.1⟩, ⟨?_, siblings_relink ?_⟩, rfl, rfl, ?_, ?_⟩
  · rw [length_relink, List.length_append, List.length_append, List.length_cons, hys, hr.1]
    omega
  · intro c hc
    exact (List.mem_append.1 hc).elim (hsiblings.2.forall c) (hr.forall_edges c)
  · intro _
    rw [hright, layout_split hkvs hedges hxs, List.append_assoc, List.cons_append]
    rfl
  · simp only [blocks, map_blocks_relink, hedges, List.map_append, List.sum_append,
      ← Multiset.singleton_add]
    abel

/-- The first keys of an internal node go to its left sibling, with the children before them. -/
theorem moved_right (hl : Sound (h + 1) l) (hr : Sound (h + 1) r) (hkvs : r.kvs = p ++ stolen :: q)
    (hedges : r.edges = xs ++ ys) (hxs : xs.length = p.length + 1) :
    Moved S (h + 1) l kv r
      { l with kvs := l.kvs ++ kv :: p, edges := l.edges ++ Node.relink l.addr (l.len + 1) xs }
      stolen { r with kvs := q, edges := Node.relink r.addr 0 ys } := by
  obtain ⟨hlength, hsiblings⟩ := hr
  rw [hedges, siblings_append] at hsiblings
  have hys : ys.length = q.length + 1 := by
    rw [hedges, hkvs, List.length_append, List.length_append, List.length_cons] at hlength
    omega
  have hlength' : (l.edges.map (layout h)).length =
      (l.kvs.map (Token.sep (K := K) (V := V))).length + 1 := by
    simp [hl.1]
  have hleft : layout (h + 1) { l with
      kvs := l.kvs ++ kv :: p, edges := l.edges ++ Node.relink l.addr (l.len + 1) xs } =
      layout (h + 1) l ++ .sep kv :: weave (xs.map (layout h)) (p.map .sep) := by
    simp only [layout, map_layout_relink, List.map_append, List.map_cons]
    exact weave_join (.sep kv) hlength'
  have hright : layout (h + 1) { r with kvs := q, edges := Node.relink r.addr 0 ys } =
      weave (ys.map (layout h)) (q.map .sep) := by
    rw [layout, map_layout_relink]
  refine ⟨⟨?_, ?_⟩, ⟨length_relink.trans hys, siblings_relink hsiblings.2.forall⟩, rfl, rfl, ?_, ?_⟩
  · rw [List.length_append, length_relink, List.length_append, List.length_cons, hl.1, hxs]
    omega
  · refine siblings_append.2 ⟨hl.2, ?_⟩
    rw [Nat.zero_add, hl.1]
    exact siblings_relink hsiblings.1.forall
  · intro _
    rw [hleft, hright, layout_split hkvs hedges hxs, List.append_assoc, List.cons_append]
  · simp only [blocks, map_blocks_relink, hedges, List.map_append, List.sum_append,
      ← Multiset.singleton_add]
    abel

/-- Between leaves only keys move. -/
theorem moved_leaf (hl : Sound 0 l) (hr : Sound 0 r) :
    Moved S 0 l kv r { l with kvs := p } stolen { r with kvs := q } :=
  ⟨hl, hr, rfl, rfl, fun h => absurd h (Nat.lt_irrefl _), rfl⟩

theorem set_append {α : Type} (p q : List α) (a a' : α) : (p ++ a :: q).set p.length a' = p ++ a' :: q := by
  rw [List.set_append_right _ _ (Nat.le_refl _), Nat.sub_self, List.set_cons_zero]

/-- The context of a key and the two children beside it. -/
def Seam.context (s : Seam K V) (h : Nat) (path : List (Frame K V)) (l : Node K V) (kv : K × V)
    (r : Node K V) : BalancingContext K V :=
  ⟨⟨⟨h + 1, s.join l kv r, path⟩, s.idx⟩, l, r⟩

/-- The keys that a steal from the left moves. -/
structure StolenLeft (l : Node K V) (kv : K × V) (r l' : Node K V) (stolen : K × V) (r' : Node K V)
    (count : Nat) : Prop where
  exists_eq : ∃ moved, l.kvs = l'.kvs ++ stolen :: moved ∧ r'.kvs = moved ++ kv :: r.kvs ∧
    moved.length + 1 = count
  left_addr : l'.addr = l.addr
  right_addr : r'.addr = r.addr

/-- The keys that a steal from the right moves. -/
structure StolenRight (l : Node K V) (kv : K × V) (r l' : Node K V) (stolen : K × V) (r' : Node K V)
    (count : Nat) : Prop where
  exists_eq : ∃ moved, r.kvs = moved ++ stolen :: r'.kvs ∧ l'.kvs = l.kvs ++ kv :: moved ∧
    moved.length + 1 = count
  left_addr : l'.addr = l.addr
  right_addr : r'.addr = r.addr

section Steal

variable {s : Seam K V} {l' r' : Node K V}

theorem writeBack_eq (hs : SeamOk h s) :
    BalancingContext.writeBack ⟨(s.context h path l kv r).parent.replaceKv stolen, l', r'⟩ =
      ⟨h + 1, s.join l' stolen r', path⟩ := by
  have hidx : s.idx = s.edgesLeft.length := hs.left_length.symm
  have hedges : ((s.edgesLeft ++ l :: r :: s.edgesRight).set s.idx l').set (s.idx + 1) r' =
      s.edgesLeft ++ l' :: r' :: s.edgesRight := by
    rw [hidx, set_append, List.append_cons]
    have hlength : s.edgesLeft.length + 1 = (s.edgesLeft ++ [l']).length := by simp
    rw [hlength, set_append]
    simp
  have hkvs : (s.kvsLeft ++ kv :: s.kvsRight).set s.idx stolen = s.kvsLeft ++ stolen :: s.kvsRight :=
    set_append _ _ _ _
  simp only [BalancingContext.writeBack, NodeHandle.replaceKv, Seam.context, Seam.join]
  rw [hedges, hkvs]

theorem intoKv_context : (s.context h path l kv r).parent.intoKv = .ok kv :=
  getUnchecked_append kv rfl

theorem bulkStealLeft_spec (path : List (Frame K V)) (kv : K × V) (hl : Sound h l)
    (hr : Sound h r) (hcount : 0 < count) (hroom : r.len + count ≤ capacity) (henough : count ≤ l.len) :
    ∃ l' stolen r', (s.context h path l kv r).bulkStealLeft count =
        .ok ⟨(s.context h path l kv r).parent.replaceKv stolen, l', r'⟩ ∧
      StolenLeft l kv r l' stolen r' count ∧ Moved S h l kv r l' stolen r' := by
  have hlt : l.len - count < l.kvs.length := by
    rw [Node.len] at henough ⊢
    omega
  obtain ⟨p, stolen, q, hkvs, hp⟩ := exists_append_cons_of_lt hlt
  have hq : q.length + 1 = count := by
    rw [Node.len, hkvs, List.length_append, List.length_cons] at hp henough
    omega
  have hget : getUnchecked l.kvs (l.len - count) = .ok stolen := by
    rw [hkvs]
    exact getUnchecked_append stolen hp
  have htake : l.kvs.take (l.len - count) = p := by
    rw [hkvs, List.take_left' hp]
  have hdrop : l.kvs.drop (l.len - count + 1) = q := by
    rw [hkvs, List.append_cons, List.drop_left' (by simp [hp])]
  have hassert : count > 0 ∧ r.len + count ≤ capacity ∧ l.len ≥ count := ⟨hcount, hroom, henough⟩
  cases h with
  | zero =>
      refine ⟨{ l with kvs := p }, stolen, { r with kvs := q ++ kv :: r.kvs }, ?_,
        ⟨⟨q, hkvs, rfl, hq⟩, rfl, rfl⟩, moved_leaf hl hr⟩
      have hheight : ¬ (0 + 1 > 1) := Nat.lt_irrefl 1
      unfold BalancingContext.bulkStealLeft
      simp only [intoKv_context]
      simp only [Seam.context, if_pos hassert, hget, htake, hdrop, if_neg hheight]
      rfl
  | succ h =>
      have hedge : l.len - count + 1 ≤ l.edges.length := by
        rw [hl.1]
        exact Nat.succ_le_succ (Nat.le_of_lt hlt)
      obtain ⟨xs, ys, hedges, hxs⟩ := exists_append_of_le hedge
      have hys : ys.length = q.length + 1 := by
        have hlength := hl.1
        rw [hedges, hkvs, List.length_append, List.length_append, List.length_cons] at hlength
        omega
      have htake' : l.edges.take (l.len - count + 1) = xs := by rw [hedges, List.take_left' hxs]
      have hdrop' : l.edges.drop (l.len - count + 1) = ys := by rw [hedges, List.drop_left' hxs]
      have hstop : (ys ++ r.edges).length ≤ r.len + count + 1 := by
        rw [List.length_append, hys, hr.1, Node.len]
        omega
      have hheight : h + 1 + 1 > 1 := Nat.succ_lt_succ (Nat.succ_pos h)
      refine ⟨{ l with kvs := p, edges := xs }, stolen,
        { r with kvs := q ++ kv :: r.kvs, edges := Node.relink r.addr 0 (ys ++ r.edges) }, ?_,
        ⟨⟨q, hkvs, rfl, hq⟩, rfl, rfl⟩, moved_left hl hr hkvs hedges (hxs.trans (by rw [hp]))⟩
      unfold BalancingContext.bulkStealLeft
      simp only [intoKv_context]
      simp only [Seam.context, if_pos hassert, hget, htake, hdrop, htake', hdrop', if_pos hheight]
      have hcorrect := correctChildrensParentLinks_all
        (n := { r with kvs := q ++ kv :: r.kvs, edges := ys ++ r.edges }) hstop
      show Except.ok _ = _
      rw [hcorrect]

theorem bulkStealRight_spec (path : List (Frame K V)) (kv : K × V) (hl : Sound h l)
    (hr : Sound h r) (hcount : 0 < count) (hroom : l.len + count ≤ capacity) (henough : count ≤ r.len) :
    ∃ l' stolen r', (s.context h path l kv r).bulkStealRight count =
        .ok ⟨(s.context h path l kv r).parent.replaceKv stolen, l', r'⟩ ∧
      StolenRight l kv r l' stolen r' count ∧ Moved S h l kv r l' stolen r' := by
  have hlt : count - 1 < r.kvs.length := by
    rw [Node.len] at henough
    omega
  obtain ⟨p, stolen, q, hkvs, hp⟩ := exists_append_cons_of_lt hlt
  have hp' : p.length + 1 = count := by omega
  have hget : getUnchecked r.kvs (count - 1) = .ok stolen := by
    rw [hkvs]
    exact getUnchecked_append stolen hp
  have htake : r.kvs.take (count - 1) = p := by rw [hkvs, List.take_left' hp]
  have hdrop : r.kvs.drop count = q := by
    rw [hkvs, List.append_cons, List.drop_left' (by rw [List.length_append, ← hp']; rfl)]
  have hassert : count > 0 ∧ l.len + count ≤ capacity ∧ r.len ≥ count := ⟨hcount, hroom, henough⟩
  cases h with
  | zero =>
      refine ⟨{ l with kvs := l.kvs ++ kv :: p }, stolen, { r with kvs := q }, ?_,
        ⟨⟨p, hkvs, rfl, hp'⟩, rfl, rfl⟩, moved_leaf hl hr⟩
      have hheight : ¬ (0 + 1 > 1) := Nat.lt_irrefl 1
      unfold BalancingContext.bulkStealRight
      simp only [intoKv_context]
      simp only [Seam.context, if_pos hassert, hget, htake, hdrop, if_neg hheight]
      rfl
  | succ h =>
      have hedge : count ≤ r.edges.length := by
        rw [hr.1]
        exact Nat.le_succ_of_le henough
      obtain ⟨xs, ys, hedges, hxs⟩ := exists_append_of_le hedge
      have hys : ys.length = q.length + 1 := by
        have hlength := hr.1
        rw [hedges, hkvs, List.length_append, List.length_append, List.length_cons] at hlength
        omega
      have htake' : r.edges.take count = xs := by rw [hedges, List.take_left' hxs]
      have hdrop' : r.edges.drop count = ys := by rw [hedges, List.drop_left' hxs]
      have hheight : h + 1 + 1 > 1 := Nat.succ_lt_succ (Nat.succ_pos h)
      have hstart : l.edges.length = l.len + 1 := hl.1
      have hstop : (l.edges ++ xs).length ≤ l.len + count + 1 := by
        rw [List.length_append, hstart, hxs]
        omega
      have hstop' : ys.length ≤ r.len - count + 1 := by
        rw [hys, Node.len, hkvs, List.length_append, List.length_cons]
        omega
      refine ⟨{ l with
          kvs := l.kvs ++ kv :: p, edges := l.edges ++ Node.relink l.addr (l.len + 1) xs }, stolen,
        { r with kvs := q, edges := Node.relink r.addr 0 ys }, ?_,
        ⟨⟨p, hkvs, rfl, hp'⟩, rfl, rfl⟩, moved_right hl hr hkvs hedges (hxs.trans hp'.symm)⟩
      unfold BalancingContext.bulkStealRight
      simp only [intoKv_context]
      simp only [Seam.context, if_pos hassert, hget, htake, hdrop, htake', hdrop', if_pos hheight]
      have hcorrect := correctChildrensParentLinks_edges
        (n := { l with kvs := l.kvs ++ kv :: p, edges := l.edges ++ xs }) rfl hstart hstop
      have hcorrect' := correctChildrensParentLinks_all (n := { r with kvs := q, edges := ys }) hstop'
      show Except.ok _ = _
      rw [hcorrect, hcorrect']

end Steal

/-! ## Merging the two -/

/-- The left child of a merger. -/
def merged : Nat → Node K V → K × V → Node K V → Node K V
  | 0, l, kv, r => { l with kvs := l.kvs ++ kv :: r.kvs }
  | _ + 1, l, kv, r =>
      { l with
        kvs := l.kvs ++ kv :: r.kvs
        edges := l.edges ++ Node.relink l.addr (l.len + 1) r.edges }

theorem merged_kvs : (merged h l kv r).kvs = l.kvs ++ kv :: r.kvs := by
  cases h <;> rfl

theorem merged_parent : (merged h l kv r).parent = l.parent := by
  cases h <;> rfl

theorem merged_len : (merged h l kv r).len = l.len + 1 + r.len := by
  rw [Node.len, merged_kvs, List.length_append, List.length_cons, Node.len, Node.len]
  omega

theorem sound_merged (hl : Sound h l) (hr : Sound h r) : Sound h (merged h l kv r) := by
  cases h with
  | zero => exact hl
  | succ h =>
      refine ⟨?_, siblings_append.2 ⟨hl.2, ?_⟩⟩
      · simp only [merged, List.length_append, List.length_cons, length_relink, hl.1, hr.1]
        omega
      · rw [Nat.zero_add, hl.1]
        exact siblings_relink hr.forall_edges

theorem layout_merged (hl : Sound (h + 1) l) :
    layout (h + 1) (merged (h + 1) l kv r) = layout (h + 1) l ++ .sep kv :: layout (h + 1) r := by
  have hlength : (l.edges.map (layout h)).length =
      (l.kvs.map (Token.sep (K := K) (V := V))).length + 1 := by
    simp [hl.1]
  simp only [merged, layout, List.map_append, List.map_cons, map_layout_relink]
  exact weave_join (.sep kv) hlength

theorem blocks_merged :
    (r.addr, recommendedSize (S.at h)) ::ₘ blocks S h (merged h l kv r) =
      blocks S h l + blocks S h r := by
  cases h with
  | zero =>
      have hsize : S.at 0 = S.leaf := if_neg (Nat.lt_irrefl 0)
      simp only [hsize, merged, blocks, ← Multiset.singleton_add]
      abel
  | succ h =>
      have hsize : S.at (h + 1) = S.internal := if_pos (Nat.succ_pos h)
      rw [hsize]
      simp only [merged, blocks, List.map_append, List.sum_append, map_blocks_relink,
        ← Multiset.singleton_add]
      abel

theorem sliceRemove_append {α : Type} (p q : List α) (a : α) :
    sliceRemove (p ++ a :: q) p.length = p ++ q := by
  rw [sliceRemove, List.take_left, List.append_cons, List.drop_left' (by simp)]

theorem ensures_doMerge {s : Seam K V} {bs : Multiset (Nat × Nat)} (hs : SeamOk h s)
    (hl : Sound h l) (hr : Sound h r) (hroom : l.len + 1 + r.len ≤ capacity)
    (hacc : Accounted S mem ((r.addr, recommendedSize (S.at h)) ::ₘ bs)) :
    Ensures ((s.context h path l kv r).doMerge S) mem fun res mem' =>
      res = (⟨h + 1, s.aroundMerged.plug (merged h l kv r), path⟩, merged h l kv r) ∧
        Accounted S mem' bs := by
  have hidx : s.idx = s.edgesLeft.length := hs.left_length.symm
  have hkvs : sliceRemove (s.kvsLeft ++ kv :: s.kvsRight) s.idx = s.kvsLeft ++ s.kvsRight :=
    sliceRemove_append _ _ _
  have hedges : sliceRemove (s.edgesLeft ++ l :: r :: s.edgesRight) (s.idx + 1) =
      (s.edgesLeft ++ [l]) ++ s.edgesRight := by
    have hlength : s.idx + 1 = (s.edgesLeft ++ [l]).length := by simp [hidx]
    rw [List.append_cons, hlength, sliceRemove_append]
  have hget : getUnchecked (s.kvsLeft ++ kv :: s.kvsRight) s.idx = .ok kv := getUnchecked_append kv rfl
  have hstart : (s.edgesLeft ++ [l]).length = s.idx + 1 := by simp [hidx]
  have hstop : (s.edgesLeft ++ [l] ++ s.edgesRight).length ≤ (s.join l kv r).len := by
    simp only [Seam.join, Node.len, List.length_append, List.length_cons, List.length_nil,
      hs.left_length, hs.right_length]
    omega
  have hcorrect := correctChildrensParentLinks_edges
    (n := ⟨s.addr, s.parent, s.kvsLeft ++ s.kvsRight, (s.edgesLeft ++ [l]) ++ s.edgesRight⟩)
    rfl hstart hstop
  have hset (c : Node K V) : ((s.edgesLeft ++ [l]) ++ Node.relink s.addr (s.idx + 1) s.edgesRight).set
      s.idx c = s.edgesLeft ++ c :: Node.relink s.addr (s.idx + 1) s.edgesRight := by
    rw [List.append_assoc, hidx]
    exact set_append _ _ _ _
  unfold BalancingContext.doMerge
  have hassert : (s.context h path l kv r).leftChild.len + 1 +
      (s.context h path l kv r).rightChild.len ≤ capacity := hroom
  rw [if_pos hassert, ensures_bind]
  simp only [Seam.context, Seam.join]
  rw [ensures_ofExcept hget]
  simp only [Seam.join] at hcorrect
  simp only [hkvs, hedges, hcorrect, hset]
  cases h with
  | zero =>
      have hheight : ¬ (0 + 1 > 1) := Nat.lt_irrefl 1
      rw [if_neg hheight, ensures_bind]
      refine (ensures_deallocNode hacc (.inl rfl)).mono ?_
      rintro _ mem' - hacc'
      exact ensures_pure.2 ⟨rfl, hacc'⟩
  | succ h =>
      have hheight : h + 1 + 1 > 1 := Nat.succ_lt_succ (Nat.succ_pos h)
      have hsize : S.at (h + 1) = S.internal := if_pos (Nat.succ_pos h)
      have hlink : l.edges.length = l.len + 1 := hl.1
      have hlink' : r.edges.length = r.len + 1 := hr.1
      have hend : (l.edges ++ r.edges).length ≤ l.len + 1 + r.len + 1 := by
        rw [List.length_append, hlink, hlink']
        omega
      have hcorrect' := correctChildrensParentLinks_edges
        (n := ⟨l.addr, l.parent, l.kvs ++ kv :: r.kvs, l.edges ++ r.edges⟩) rfl hlink hend
      rw [hsize] at hacc
      rw [if_pos hheight, ensures_bind]
      refine (ensures_deallocNode hacc (.inr rfl)).mono ?_
      rintro _ mem' - hacc'
      rw [ensures_pure, hcorrect']
      exact ⟨rfl, hacc'⟩

end Memalart.BTree
