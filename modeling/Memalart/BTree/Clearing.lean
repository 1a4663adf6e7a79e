/-
# Clearing frees every node

A cleared map is walked through from the left, and each node is freed when the walk leaves it
for the last time.  What is still to be freed is the node that the walk is at, what is on the
right of it, and the nodes above with what is on their right.
-/

import Memalart.BTree.Contents

namespace Memalart.BTree

open Lib Machine

variable {K V : Type} {S : NodeSizes} {h i addr size plug : Nat} {n c : Node K V} {f : Frame K V}
  {path : List (Frame K V)} {r : NodeRef K V} {e kv : NodeHandle K V} {root : Root K V}
  {left right items : List (K × V)} {item : K × V} {mem : Memory} {bs : Multiset (Nat × Nat)}

/-! ## What is still to be freed -/

/-- The blocks of the nodes above a place, and of what is on their right. -/
def ahead (S : NodeSizes) : Nat → List (Frame K V) → Multiset (Nat × Nat)
  | _, [] => 0
  | h, f :: path =>
      (f.addr, recommendedSize S.internal) ::ₘ
        ((f.edgesRight.map (blocks S h)).sum + ahead S (h + 1) path)

/-- The blocks that a walk at an edge has not freed. -/
def NodeHandle.unfreed (S : NodeSizes) (e : NodeHandle K V) : Multiset (Nat × Nat) :=
  (e.node.node.addr, recommendedSize (S.at e.node.height)) ::ₘ
    (((e.node.node.edges.drop (e.idx + 1)).map (blocks S (e.node.height - 1))).sum +
      ahead S e.node.height e.node.path)

theorem NodeSizes.at_succ : S.at (h + 1) = S.internal := if_pos (Nat.succ_pos h)

/-- At the first leaf edge nothing of the tree below has been freed. -/
theorem firstLeafEdge_unfreed (hr : Fits 1 r) (he : r.firstLeafEdge = .ok e) :
    e.unfreed S = blocks S r.height r.node + ahead S r.height r.path := by
  obtain ⟨h, n, path⟩ := r
  unfold NodeRef.firstLeafEdge at he
  induction h generalizing n path with
  | zero =>
      cases he
      have hedges : n.edges = [] := hr.sound
      simp [NodeHandle.unfreed, NodeRef.firstEdge, hedges, blocks, NodeSizes.at]
  | succ h ih =>
      obtain ⟨c, hc, hdescend, hfits⟩ := descend_eq hr (Nat.zero_le _)
      rw [NodeRef.firstLeafEdgeLoop, NodeRef.firstEdge, hdescend] at he
      rw [ih _ _ hfits he]
      obtain ⟨hlt, rfl⟩ := List.getElem?_eq_some_iff.1 hc
      have hedges : n.edges = n.edges[0] :: n.edges.drop 1 := by
        rw [List.getElem_cons_drop, List.drop_zero]
      have hsum : (n.edges.map (blocks S h)).sum =
          blocks S h n.edges[0] + ((n.edges.drop 1).map (blocks S h)).sum := by
        conv_lhs => rw [hedges]
        rw [List.map_cons, List.sum_cons]
      simp only [ahead, Node.frameAt, blocks, hsum, ← Multiset.singleton_add]
      abel

/-- Past a key, the walk has freed as much as before it. -/
theorem nextLeafEdge_unfreed (hs : Stands 1 root kv left right) (hlt : kv.idx < kv.node.len)
    (he : kv.nextLeafEdge = .ok e) : e.unfreed S = kv.unfreed S := by
  obtain ⟨⟨h, n, path⟩, i⟩ := kv
  cases h with
  | zero =>
      cases he
      have hedges : n.edges = [] := hs.fits.sound
      simp [NodeHandle.unfreed, NodeHandle.rightEdge, hedges]
  | succ h =>
      obtain ⟨c, hc, hdescend, hfits⟩ := descend_eq hs.fits hlt
      have hfirst : NodeRef.firstLeafEdge ⟨h, c, n.frameAt (i + 1) :: path⟩ = .ok e := by
        rw [← he]
        show _ = (NodeHandle.descend ⟨⟨h + 1, n, path⟩, i + 1⟩ >>= _)
        rw [hdescend]
        rfl
      rw [firstLeafEdge_unfreed hfits hfirst]
      obtain ⟨hlt', rfl⟩ := List.getElem?_eq_some_iff.1 hc
      have hdrop : n.edges.drop (i + 1) = n.edges[i + 1] :: n.edges.drop (i + 2) :=
        List.drop_eq_getElem_cons hlt'
      simp only [NodeHandle.unfreed, ahead, Node.frameAt, hdrop, List.map_cons, List.sum_cons,
        NodeSizes.at_succ, Nat.add_sub_cancel, ← Multiset.singleton_add]
      abel

/-- Nothing is on the right of the last edge. -/
theorem Sound.drop_edges (hn : Sound h n) : n.edges.drop (n.len + 1) = [] := by
  cases h with
  | zero =>
      rw [show n.edges = [] from hn]
      exact List.drop_nil
  | succ h => exact List.drop_eq_nil_of_le (Nat.le_of_eq hn.1)

/-- Leaving a node for its parent frees the node. -/
theorem unfreed_up (hn : Sound h n) :
    NodeHandle.unfreed S ⟨⟨h, n, f :: path⟩, n.len⟩ =
      (n.addr, recommendedSize (S.at h)) ::ₘ NodeHandle.unfreed S ⟨⟨h + 1, f.plug n, path⟩, f.idx⟩ := by
  have hright : (f.plug n).edges.drop (f.idx + 1) = f.edgesRight := by
    rw [Frame.plug, Frame.idx, List.append_cons, List.drop_left' (by simp)]
  simp only [NodeHandle.unfreed, hn.drop_edges, hright, ahead, NodeSizes.at_succ, Nat.add_sub_cancel]
  simp [Frame.plug]

theorem unfreed_root (hn : Sound h n) :
    NodeHandle.unfreed S ⟨⟨h, n, []⟩, n.len⟩ = {(n.addr, recommendedSize (S.at h))} := by
  simp [NodeHandle.unfreed, hn.drop_edges, ahead]

/-! ## The memory on the way -/

/-- The blocks of a dying map that are in use. -/
structure Dying (S : NodeSizes) (m : Memory) (bs : Multiset (Nat × Nat)) : Prop where
  live : live m.log = bs
  counters : m.allocatedMemory = .new
  underflow : S.Exact → m.underflowed = true → ∃ log, log <:+ m.log ∧ u32Range ≤ (BTree.live log).card

/-- Nodes that are freed one after the other, and what is left of the number that stands in
for the counters. -/
structure Burying (S : NodeSizes) (m : Memory) (bs : Multiset (Nat × Nat)) (plug : Nat) : Prop
    extends Dying S m bs where
  spent : S.Exact → ∃ log k, log <:+ m.log ∧ bs.card + k ≤ (BTree.live log).card ∧
    usizeRange ≤ plug + k * u32Range + 1

theorem Dying.burying (h : Dying S mem bs) : Burying S mem bs Iter.plug :=
  { h with
    spent := by
      intro _
      refine ⟨mem.log, 0, List.suffix_rfl, Nat.le_of_eq (by rw [h.live, Nat.add_zero]), ?_⟩
      rw [Nat.zero_mul, Nat.add_zero]
      exact Nat.le_refl usizeRange }

/-- The number lasts for `2 ^ 32` nodes. -/
theorem Burying.buried (h : Burying S mem ((addr, recommendedSize size) ::ₘ bs) plug)
    (hsize : S.IsSize size) : Burying S (mem.buried addr size plug) bs (plug - size) := by
  have hspent (hS : S.Exact) : ∃ log k, log <:+ (mem.buried addr size plug).log ∧
      bs.card + (k + 1) ≤ (BTree.live log).card ∧ usizeRange ≤ plug + k * u32Range + 1 := by
    obtain ⟨log, k, hlog, hcard, hspent⟩ := h.spent hS
    rw [Multiset.card_cons, Nat.add_assoc, Nat.add_comm 1] at hcard
    exact ⟨log, k, hlog.trans (List.suffix_cons _ _), hcard, hspent⟩
  refine ⟨⟨?_, h.counters, ?_⟩, ?_⟩
  · rw [Memory.buried, BTree.live, h.live, Multiset.erase_cons_head]
  · intro hS hunder
    rw [Memory.buried, Bool.or_eq_true, decide_eq_true_eq] at hunder
    rcases hunder with hunder | hshort
    · obtain ⟨log, hlog, hcard⟩ := h.underflow hS hunder
      exact ⟨log, hlog.trans (List.suffix_cons _ _), hcard⟩
    · obtain ⟨log, k, hlog, hcard, hspent⟩ := hspent hS
      refine ⟨log, hlog, ?_⟩
      have hlt := hS.lt hsize
      have hrange : u32Range = 4294967296 := rfl
      have hrange' : usizeRange = 18446744073709551616 := rfl
      rw [hrange] at hlt hspent ⊢
      rw [hrange'] at hspent
      omega
  · intro hS
    obtain ⟨log, k, hlog, hcard, hspent⟩ := hspent hS
    refine ⟨log, k + 1, hlog, hcard, ?_⟩
    have hlt := hS.lt hsize
    rw [Nat.add_mul, Nat.one_mul]
    omega

theorem ensures_deallocateAndAscend {parent : Option (NodeHandle K V)}
    (hascend : r.ascend = .ok parent)
    (hmem : Burying S mem ((r.node.addr, recommendedSize (S.at r.height)) ::ₘ bs) plug) :
    Ensures (r.deallocateAndAscend S plug) mem fun res mem' =>
      res = (parent, plug - S.at r.height) ∧ Burying S mem' bs (plug - S.at r.height) := by
  rw [NodeRef.deallocateAndAscend, ensures_bind, ensures_ofExcept hascend, ensures_bind,
    ensures_modify, ensures_pure]
  exact ⟨rfl, hmem.buried (S.isSize_at _)⟩

/-! ## The walk -/

theorem ensures_deallocatingNextLoop {fuel : Nat} (hs : Stands 1 root e left (item :: items))
    (hfuel : e.node.path.length < fuel) (hmem : Burying S mem (e.unfreed S) plug) :
    Ensures (NodeHandle.deallocatingNextLoop S fuel e plug) mem fun res mem' =>
      ∃ e', res = some e' ∧ Stands 1 root e' (left ++ [item]) items ∧ Dying S mem' (e'.unfreed S) := by
  induction fuel generalizing e mem plug with
  | zero => exact absurd hfuel (Nat.not_lt_zero _)
  | succ fuel ih =>
      rw [NodeHandle.deallocatingNextLoop]
      by_cases hlt : e.idx < e.node.len
      · obtain ⟨e', hedge, -, he'⟩ := nextLeafEdge_spec hs hlt
        rw [NodeHandle.rightKv, if_pos hlt]
        simp only [ensures_bind]
        rw [ensures_ofExcept hedge, ensures_pure]
        refine ⟨e', rfl, he', ?_⟩
        rw [nextLeafEdge_unfreed hs hlt hedge]
        exact hmem.toDying
      · rw [NodeHandle.rightKv, if_neg hlt]
        obtain ⟨⟨h, n, path⟩, i⟩ := e
        obtain rfl : i = n.len := Nat.le_antisymm hs.idx_le (Nat.not_lt.1 hlt)
        cases path with
        | nil =>
            have hright := hs.right_eq
            rw [onFrom_len hs.fits.sound] at hright
            cases hright
        | cons f path =>
            rw [unfreed_up hs.fits.sound] at hmem
            simp only [ensures_bind]
            refine (ensures_deallocateAndAscend (ascend_cons hs.fits.link) hmem).mono ?_
            rintro _ mem' - ⟨rfl, hmem'⟩
            exact ih hs.up (Nat.lt_of_succ_lt_succ hfuel) hmem'

theorem ensures_deallocatingEndLoop {fuel : Nat} (hs : Stands 1 root e left [])
    (hfuel : e.node.path.length < fuel) (hmem : Burying S mem (e.unfreed S) plug) :
    Ensures (NodeHandle.deallocatingEndLoop S fuel e.node plug) mem fun _ mem' => Dying S mem' 0 := by
  induction fuel generalizing e mem plug with
  | zero => exact absurd hfuel (Nat.not_lt_zero _)
  | succ fuel ih =>
      have hge : ¬ e.idx < e.node.len := by
        intro hlt
        obtain ⟨item, rest, -, hright⟩ := hs.right_of_lt hlt
        cases hright
      obtain ⟨⟨h, n, path⟩, i⟩ := e
      obtain rfl : i = n.len := Nat.le_antisymm hs.idx_le (Nat.not_lt.1 hge)
      rw [NodeHandle.deallocatingEndLoop, ensures_bind]
      cases path with
      | nil =>
          rw [unfreed_root hs.fits.sound, ← Multiset.cons_zero] at hmem
          refine (ensures_deallocateAndAscend (ascend_nil hs.fits.link) hmem).mono ?_
          rintro _ mem' - ⟨rfl, hmem'⟩
          exact ensures_pure.2 hmem'.toDying
      | cons f path =>
          rw [unfreed_up hs.fits.sound] at hmem
          refine (ensures_deallocateAndAscend (ascend_cons hs.fits.link) hmem).mono ?_
          rintro _ mem' - ⟨rfl, hmem'⟩
          exact ih hs.up (Nat.lt_of_succ_lt_succ hfuel) hmem'

theorem ensures_dropLoop {fuel : Nat} {front : LazyLeafHandle K V}
    (hforce : front.force = .ok e) (hs : Stands 1 root e left right) (hfuel : right.length < fuel)
    (hmem : Dying S mem (e.unfreed S)) :
    Ensures (Iter.dropLoop S fuel ⟨some front, right.length⟩) mem fun _ mem' => Dying S mem' 0 := by
  induction right generalizing fuel front e left mem with
  | nil =>
      obtain ⟨fuel, rfl⟩ := Nat.exists_eq_succ_of_ne_zero (Nat.ne_of_gt hfuel)
      have hzero : (⟨some front, ([] : List (K × V)).length⟩ : Iter K V).length = 0 := rfl
      rw [Iter.dropLoop, ensures_bind, Iter.dyingNext, if_pos hzero]
      simp only [ensures_bind]
      rw [ensures_ofExcept hforce]
      refine (ensures_deallocatingEndLoop hs (Nat.lt_succ_self _) hmem.burying).mono ?_
      rintro _ mem' - hmem'
      simp only [ensures_pure]
      exact hmem'
  | cons item items ih =>
      obtain ⟨fuel, rfl⟩ := Nat.exists_eq_succ_of_ne_zero (Nat.ne_of_gt (Nat.zero_lt_of_lt hfuel))
      have hpos : ¬ (⟨some front, (item :: items).length⟩ : Iter K V).length = 0 := Nat.succ_ne_zero _
      have hinit : Iter.initFront ⟨some front, (item :: items).length⟩ = .ok e := hforce
      rw [Iter.dropLoop, ensures_bind, Iter.dyingNext, if_neg hpos, ensures_bind,
        ensures_ofExcept hinit, ensures_bind]
      refine (ensures_deallocatingNextLoop hs (Nat.lt_succ_self _) hmem.burying).mono ?_
      rintro _ mem' - ⟨e', rfl, hs', hmem'⟩
      have hforce' : (LazyLeafHandle.edge e').force = .ok e' := rfl
      exact ensures_pure.2 (ih hforce' hs' (Nat.lt_of_succ_lt_succ hfuel) hmem')

/-- A cleared map has no nodes, and the blocks of the old ones are not in use. -/
theorem ensures_clear {map : SelfAllocatedBTreeMap K V} (hkept : Kept S mem map) :
    Ensures (map.clear S) mem fun map' mem' => map' = .new ∧ Kept S mem' map' := by
  have hdone {mem' : Memory} (hmem' : Dying S mem' 0) :
      Kept S mem' (.new : SelfAllocatedBTreeMap K V) := by
    have hacc : Accounted S mem' 0 := by
      refine ⟨hmem'.live, by simp, ?_, hmem'.underflow⟩
      intro _
      rw [hmem'.counters]
      exact .new
    exact ⟨by simp [SelfAllocatedBTreeMap.new], rfl, hacc⟩
  have hcleared : Dying S mem.cleared (map.blocks S) :=
    ⟨hkept.accounted.live, rfl, hkept.accounted.underflow⟩
  obtain ⟨root, length⟩ := map
  rw [SelfAllocatedBTreeMap.clear, ensures_bind, ensures_modify, ensures_bind]
  cases root with
  | none =>
      rw [SelfAllocatedBTreeMap.iter, Iter.dropLoop, ensures_bind, Iter.dyingNext, if_pos rfl]
      simp only [ensures_pure]
      exact ⟨trivial, hdone hcleared⟩
  | some root =>
      obtain ⟨e, left, he, hs, hlength⟩ := hkept.firstLeafEdge
      have hmem : Dying S mem.cleared (e.unfreed S) := by
        rw [firstLeafEdge_unfreed (hkept.fits root rfl) he]
        exact hcleared
      have hforce : (LazyLeafHandle.root root.borrow).force = .ok e := he
      show Ensures (Iter.dropLoop S (length + 1) ⟨some (.root root.borrow), length⟩) _ _
      rw [hlength]
      refine (ensures_dropLoop hforce hs (Nat.lt_succ_self _) hmem).mono ?_
      rintro _ mem' - hmem'
      exact ensures_pure.2 ⟨rfl, hdone hmem'⟩

end Memalart.BTree
