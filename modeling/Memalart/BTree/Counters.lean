/-
# The counters of the nodes

The counters of the map are `u32`s.  They are the numbers of the leaf and internal nodes up
to multiples of `2 ^ 32`, and so exact until that many nodes are in use.
-/

import Mathlib.Data.List.FinRange
import Memalart.BTree.Calls

namespace Memalart.BTree

open Lib Machine

variable {K V : Type} {S : NodeSizes} {A : SelfAllocator} {mem : Memory} {h s : Nat} {n : Node K V}

/-- The node sizes for keys and values that are `usize`s. -/
def usizeNodeSizes : NodeSizes := ⟨192, 288⟩

theorem usizeNodeSizes_exact : usizeNodeSizes.Exact where
  leaf := by decide
  internal := by decide
  leaf_pos := by decide
  internal_pos := by decide
  leaf_lt := by decide
  internal_lt := by decide

/-! ## Numbers of nodes -/

/-- The leaf nodes of a tree. -/
def leafNodes : Nat → Node K V → Nat
  | 0, _ => 1
  | h + 1, n => (n.edges.map (leafNodes h)).sum

/-- The internal nodes of a tree. -/
def internalNodes : Nat → Node K V → Nat
  | 0, _ => 0
  | h + 1, n => 1 + (n.edges.map (internalNodes h)).sum

namespace SelfAllocatedBTreeMap

/-- The leaf nodes of a map. -/
def leafNodes (map : SelfAllocatedBTreeMap K V) : Nat :=
  map.root.elim 0 fun root => BTree.leafNodes root.height root.node

/-- The internal nodes of a map. -/
def internalNodes (map : SelfAllocatedBTreeMap K V) : Nat :=
  map.root.elim 0 fun root => BTree.internalNodes root.height root.node

end SelfAllocatedBTreeMap

theorem number_add (bs bs' : Multiset (Nat × Nat)) :
    number s (bs + bs') = number s bs + number s bs' := Multiset.countP_add _ _ _

theorem number_singleton (b : Nat × Nat) : number s {b} = if b.2 = s then 1 else 0 := by
  rw [← Multiset.cons_zero, number_cons, number_zero, Nat.zero_add]

/-- Blocks of a leaf's size are the leaf nodes, those of the other size the internal nodes. -/
theorem number_blocks (h : Nat) (n : Node K V) :
    number s (blocks S h n) =
      (if recommendedSize S.leaf = s then leafNodes h n else 0) +
        if recommendedSize S.internal = s then internalNodes h n else 0 := by
  induction h generalizing n with
  | zero => simp [blocks, number_singleton, leafNodes, internalNodes]
  | succ h ih =>
      have hsum (es : List (Node K V)) : number s (es.map (blocks S h)).sum =
          (if recommendedSize S.leaf = s then (es.map (leafNodes h)).sum else 0) +
            if recommendedSize S.internal = s then (es.map (internalNodes h)).sum else 0 := by
        induction es with
        | nil => simp
        | cons e es ihes =>
            simp only [List.map_cons, List.sum_cons, number_add, ih, ihes]
            split <;> split <;> omega
      rw [blocks, number_cons, hsum, leafNodes, internalNodes]
      split <;> split <;> omega

theorem number_map (map : SelfAllocatedBTreeMap K V) :
    number s (map.blocks S) =
      (if recommendedSize S.leaf = s then map.leafNodes else 0) +
        if recommendedSize S.internal = s then map.internalNodes else 0 := by
  obtain ⟨root, length⟩ := map
  cases root with
  | none => simp [SelfAllocatedBTreeMap.blocks, SelfAllocatedBTreeMap.leafNodes,
      SelfAllocatedBTreeMap.internalNodes]
  | some root =>
      show number s (root.borrow.blocks S) = _
      rw [blocks_borrow, number_blocks]
      rfl

/-- The blocks of a map with keys and values that are `usize`s. -/
theorem number_usizeNodeSizes (map : SelfAllocatedBTreeMap K V) (size : Nat) :
    number size (map.blocks usizeNodeSizes) =
      (if 192 = size then map.leafNodes else 0) + if 288 = size then map.internalNodes else 0 := by
  rw [number_map, usizeNodeSizes_exact.leaf, usizeNodeSizes_exact.internal]
  rfl

/-! ## Every run -/

variable [LinearOrder K]

/-- After any calls, the blocks in use are the nodes of the tree, and the counters are their
numbers as `u32`s.  While fewer than `2 ^ 32` nodes are in use, the counters are exact and none
has been decremented at zero. -/
theorem runCalls_counters (hA : A.Serves) (calls : List (Call K V)) :
    Ensures (runCalls A usizeNodeSizes calls .new) .new fun res mem =>
      live mem.log = res.2.blocks usizeNodeSizes ∧
        (mem.allocatedMemory.reported 192 = res.2.leafNodes % u32Range ∧
          mem.allocatedMemory.reported 288 = res.2.internalNodes % u32Range ∧
          ∀ size, size ≠ 192 → size ≠ 288 → mem.allocatedMemory.reported size = 0) ∧
        ((∀ log, log <:+ mem.log → (live log).card < u32Range) →
          mem.allocatedMemory.reported 192 = res.2.leafNodes ∧
            mem.allocatedMemory.reported 288 = res.2.internalNodes ∧ mem.underflowed = false) := by
  refine (ensures_runCalls hA .new calls).mono ?_
  rintro ⟨answers, map⟩ mem - ⟨-, hholds⟩
  have hacc := hholds.accounted
  have hreported := (hacc.counts usizeNodeSizes_exact).reported usizeNodeSizes_exact
  have hleaf : number 192 (map.blocks usizeNodeSizes) = map.leafNodes :=
    (number_usizeNodeSizes map 192).trans (by simp)
  have hinternal : number 288 (map.blocks usizeNodeSizes) = map.internalNodes :=
    (number_usizeNodeSizes map 288).trans (by simp)
  refine ⟨hacc.live, ⟨?_, ?_, ?_⟩, ?_⟩
  · rw [hreported, hleaf]
  · rw [hreported, hinternal]
  · intro size hsize hsize'
    rw [hreported, number_usizeNodeSizes, if_neg (Ne.symm hsize), if_neg (Ne.symm hsize')]
    rfl
  · intro hfew
    have hcard : (map.blocks usizeNodeSizes).card < u32Range := by
      rw [← hacc.live]
      exact hfew mem.log List.suffix_rfl
    refine ⟨?_, ?_, ?_⟩
    · rw [hreported, Nat.mod_eq_of_lt (number_le_card.trans_lt hcard), hleaf]
    · rw [hreported, Nat.mod_eq_of_lt (number_le_card.trans_lt hcard), hinternal]
    · by_contra hunder
      obtain ⟨log, hlog, hmany⟩ :=
        hacc.underflow usizeNodeSizes_exact (Bool.eq_true_of_not_eq_false hunder)
      exact Nat.not_lt.2 hmany (hfew log hlog)

theorem runCalls_counters_splitAndMerge :
    ∃ res mem, Returns (runCalls (bumpAllocator 4096) usizeNodeSizes splitAndMerge .new) .new res mem ∧
      mem.log = [.dealloc 4288 192, .alloc 4768 192, .alloc 4480 288, .alloc 4288 192,
        .alloc 4096 192] ∧
      live mem.log = res.2.blocks usizeNodeSizes ∧
      mem.allocatedMemory.reported 192 = res.2.leafNodes % u32Range ∧
      mem.allocatedMemory.reported 288 = res.2.internalNodes % u32Range := by
  obtain ⟨res, mem, hreturns, hlive, ⟨hleaf, hinternal, -⟩, -⟩ :=
    runCalls_counters (bumpAllocator_serves 4096) splitAndMerge
  have hlog : ((runCalls (bumpAllocator 4096) usizeNodeSizes splitAndMerge .new).after .new).log =
      [.dealloc 4288 192, .alloc 4768 192, .alloc 4480 288, .alloc 4288 192, .alloc 4096 192] := by
    decide +kernel
  rw [hreturns.after_eq] at hlog
  exact ⟨res, mem, hreturns, hlog, hlive, hleaf, hinternal⟩

/-! ## More than `2 ^ 32` nodes -/

section Size

omit [LinearOrder K]

theorem length_bindings_weave (blocks : List (List (Token K V))) (seps : List (K × V)) :
    (bindings (weave blocks (seps.map .sep))).length ≤
      (blocks.map fun block => (bindings block).length).sum + seps.length := by
  induction blocks generalizing seps with
  | nil => simp
  | cons block blocks ih =>
      cases seps with
      | nil =>
          have hrest := ih []
          rw [List.map_nil, weave, bindings_append, List.length_append, List.map_cons, List.sum_cons]
          rw [List.map_nil] at hrest
          omega
      | cons kv seps =>
          have hrest := ih seps
          rw [List.map_cons, weave_cons_cons, bindings_append, bindings_sep, List.length_append,
            List.length_cons, List.map_cons, List.sum_cons, List.length_cons]
          omega

/-- A tree has at most `capacity` keys for each of its nodes. -/
theorem length_bindings_le (hn : Sound h n) (hlen : n.len ≤ capacity) :
    (bindings (layout h n)).length ≤ capacity * (leafNodes h n + internalNodes h n) := by
  induction h generalizing n with
  | zero =>
      rw [layout, bindings_leaf, bindings_nil, List.append_nil]
      exact hlen
  | succ h ih =>
      have hsum (es : List (Node K V)) (hes : ∀ c ∈ es, Filled h c) :
          ((es.map (layout h)).map fun block => (bindings block).length).sum ≤
            capacity * ((es.map (leafNodes h)).sum + (es.map (internalNodes h)).sum) := by
        induction es with
        | nil => simp
        | cons e es ihes =>
            have he := hes e List.mem_cons_self
            have hhead := ih he.2 he.1.2
            have hrest := ihes fun c hc => hes c (List.mem_cons_of_mem _ hc)
            simp only [List.map_cons, List.sum_cons, Nat.mul_add] at *
            omega
      have hedges := hsum n.edges hn.forall_edges
      have hweave := length_bindings_weave (n.edges.map (layout h)) n.kvs
      rw [Node.len] at hlen
      simp only [layout, leafNodes, internalNodes, Nat.mul_add] at *
      omega

/-- There are fewer internal nodes than leaves. -/
theorem internalNodes_lt (hn : Sound h n) (hlen : 0 < h → 1 ≤ n.len) :
    internalNodes h n < leafNodes h n := by
  induction h generalizing n with
  | zero => exact Nat.zero_lt_one
  | succ h ih =>
      have hsum (es : List (Node K V)) (hes : ∀ c ∈ es, Filled h c) :
          (es.map (internalNodes h)).sum + es.length ≤ (es.map (leafNodes h)).sum := by
        induction es with
        | nil => simp
        | cons e es ihes =>
            have he := hes e List.mem_cons_self
            have hhead := ih he.2 fun _ => (Nat.succ_le_succ (Nat.zero_le 4)).trans he.1.1
            have hrest := ihes fun c hc => hes c (List.mem_cons_of_mem _ hc)
            simp only [List.map_cons, List.sum_cons, List.length_cons]
            omega
      have hedges := hsum n.edges hn.forall_edges
      have hone := hlen (Nat.succ_pos h)
      rw [Node.len] at hone
      rw [hn.1] at hedges
      rw [internalNodes, leafNodes]
      omega

end Size

variable {map : SelfAllocatedBTreeMap K V} {m : K → Option V}

omit [LinearOrder K] in
/-- Many keys are in many leaves. -/
theorem Kept.length_items_le (hkept : Kept S mem map) :
    map.items.length ≤ capacity * (2 * map.leafNodes) := by
  obtain ⟨root, length⟩ := map
  cases root with
  | none => exact Nat.zero_le _
  | some root =>
      have hfits := hkept.fits root rfl
      have hlength := length_bindings_le hfits.sound hfits.len_le
      have hlt := internalNodes_lt hfits.sound hfits.balanced.one_le_len
      show (bindings root.borrow.tokens).length ≤ capacity * (2 * leafNodes root.height root.node)
      rw [tokens_borrow]
      refine hlength.trans (Nat.mul_le_mul_left _ ?_)
      show leafNodes root.height root.node + internalNodes root.height root.node ≤ _
      rw [Nat.two_mul]
      exact Nat.add_le_add_left (Nat.le_of_lt hlt) _

/-- Every inserted key is bound. -/
theorem applyCalls_orInsert (keys : List K) (val : K → V) (m : K → Option V) {key : K}
    (hkey : key ∈ keys ∨ m key ≠ none) :
    (applyCalls (keys.map fun key => .orInsert key (val key)) m).2 key ≠ none := by
  induction keys generalizing m with
  | nil => exact hkey.resolve_left List.not_mem_nil
  | cons k keys ih =>
      rw [List.map_cons, applyCalls]
      refine ih (Call.apply m (.orInsert k (val k))).2 ?_
      by_cases hk : key = k
      · right
        simp [Call.apply, insertDefault, hk]
      · rw [List.mem_cons] at hkey
        rcases hkey with (heq | hmem) | hbound
        · exact absurd heq hk
        · exact .inl hmem
        · right
          simpa [Call.apply, insertDefault, hk] using hbound

/-- With enough keys inserted, the counter of the leaves has gone around. -/
theorem reported_ne_leafNodes (hA : A.Serves) {keys : List K} (hkeys : keys.Nodup) (val : K → V)
    (hmany : capacity * (2 * u32Range) ≤ keys.length) :
    Ensures (runCalls A usizeNodeSizes (keys.map fun key => .orInsert key (val key)) .new) .new
      fun res mem => mem.allocatedMemory.reported 192 ≠ res.2.leafNodes := by
  refine (ensures_runCalls hA .new (keys.map fun key => .orInsert key (val key))).mono ?_
  rintro ⟨answers, map⟩ mem - ⟨-, hholds⟩
  have hlength := hholds.lists.length_le hkeys fun key hkey =>
    applyCalls_orInsert keys val _ (.inl hkey)
  have hleaves : u32Range ≤ map.leafNodes := by
    have hle := hmany.trans (hlength.trans hholds.length_items_le)
    exact Nat.le_of_mul_le_mul_left (Nat.le_of_mul_le_mul_left hle (Nat.succ_pos 10)) Nat.two_pos
  have hreported := (hholds.accounted.counts usizeNodeSizes_exact).reported usizeNodeSizes_exact 192
  intro heq
  refine Nat.not_lt.2 hleaves ?_
  show map.leafNodes < u32Range
  rw [← show mem.allocatedMemory.reported 192 = map.leafNodes from heq, hreported]
  exact Nat.mod_lt _ (Nat.succ_pos _)

/-- A value of `usize`. -/
abbrev Usize : Type := Fin usizeRange

/-- The smallest keys, in ascending order. -/
def firstKeys (count : Nat) : List Usize := (List.finRange usizeRange).take count

theorem nodup_firstKeys (count : Nat) : (firstKeys count).Nodup :=
  (List.nodup_finRange usizeRange).sublist (List.take_sublist _ _)

theorem length_firstKeys {count : Nat} (hcount : count ≤ usizeRange) :
    (firstKeys count).length = count := by
  rw [firstKeys, List.length_take, List.length_finRange, Nat.min_eq_left hcount]

theorem reported_ne_leafNodes_firstKeys :
    Ensures (runCalls (bumpAllocator 4096) usizeNodeSizes
      ((firstKeys (capacity * (2 * u32Range))).map fun key => .orInsert key key) .new) .new
        fun res mem => mem.allocatedMemory.reported 192 ≠ res.2.leafNodes := by
  have hcount : capacity * (2 * u32Range) ≤ usizeRange := by decide
  have hlength := length_firstKeys hcount
  refine reported_ne_leafNodes (bumpAllocator_serves 4096) (nodup_firstKeys _) (fun key => key) ?_
  exact Nat.le_of_eq hlength.symm

end Memalart.BTree
