/-
# Extra-large blocks

An extra-large block is a mapping of its own.  The tree that counts the blocks of each
size has nodes that are objects of the allocator; while it is changed, the call that
changes it holds it, and nobody else may enter it.
-/

import Memalart.SlowPathSteps

namespace Memalart

open Memalart.Lib ThreadLocalAllocator

variable {P : Params} {A : AllocatorForSelfAllocations P}

/-! ## Mappings -/

/-- The block of an optional mapping. -/
def extraOf (size : Nat) : Option Nat → Multiset Item
  | some ptr => {.extra size ptr}
  | none => 0

theorem mapExtraLarge_moves {size : Nat} {os os' : Os} {m : Option Nat} {counted : Bool}
    {ptr : Option Nat} (h : mapExtraLarge size os = (counted, ptr, os')) :
    Moves ⟨os, m, 0⟩ ⟨os', m, extraOf size ptr⟩ ∧ (counted = false → ptr = none) := by
  have hreply := os.quiet_takeReply
  unfold mapExtraLarge at h
  generalize os.takeReply = reply at h hreply
  obtain ⟨answer, os₁⟩ := reply
  have hmay := os₁.quiet_mayAllocate size
  simp only at h
  generalize os₁.mayAllocate size = may at h hmay
  obtain ⟨_ | _, os₂⟩ := may
  · cases h
    exact ⟨Moves.quiet ((hreply.trans hmay).trans (os₂.quiet_record _)) 0, fun _ => rfl⟩
  · simp only at h
    split at h
    · next p os₃ hmmap =>
        cases h
        have hmaps := Os.mmap_some hmmap
        refine ⟨(Moves.quiet (hreply.trans hmay) 0).trans ?_, by simp⟩
        exact Moves.single
          (.mapExtra size p hmaps.mappings hmaps.metadata hmaps.log hmaps.fresh) 0 rfl
          (add_zero _).symm
    · next os₃ hmmap =>
        cases h
        refine ⟨Moves.quiet ((hreply.trans hmay).trans ?_) 0, by simp⟩
        exact (Os.mmap_none hmmap).trans (os₃.quiet_markDeallocated size)

theorem mapExtraLarge_triple (size : Nat) :
    (discipline P).Triple 0 (onOs fun os =>
        let (counted, ptr, os) := mapExtraLarge size os
        ((counted, ptr), os))
      fun r => tokens (extraOf size (if r.1 then r.2 else none)) := by
  refine triple_of_step fun w rest r w' hs hret => ?_
  simp only [Machine.Returns, onOs, Except.ok.injEq, Prod.mk.injEq] at hret
  obtain ⟨rfl, rfl⟩ := hret
  obtain ⟨hmoves, huncounted⟩ := mapExtraLarge_moves (m := w.inner.nonLocalPtrManager)
    (Prod.ext rfl (Prod.ext rfl rfl) : mapExtraLarge size w.os = (_, _, _))
  refine .setOs hs.formed hs.calm (fun t => holds_tokens) (by simp) (by simp) ?_
  rw [itemsOf_zero, itemsOf_tokens]
  have hptr : (if (mapExtraLarge size w.os).1 then (mapExtraLarge size w.os).2.1 else none) =
      (mapExtraLarge size w.os).2.1 := by
    split
    · rfl
    · next hcounted => exact (huncounted (Bool.eq_false_iff.mpr hcounted)).symm
  simp only [hptr]
  exact hmoves

theorem munmap_triple (size ptr : Nat) :
    (discipline P).Triple (tokens {.extra size ptr})
      (onOs fun os => ((), (os.munmap ptr size).markDeallocated size)) fun _ => 0 := by
  refine triple_of_step fun w rest r w' hs hret => ?_
  simp only [Machine.Returns, onOs, Except.ok.injEq, Prod.mk.injEq] at hret
  obtain ⟨-, rfl⟩ := hret
  refine .setOs hs.formed hs.calm (by simp) (by simp) (by simp [Token.depth]) ?_
  rw [itemsOf_zero, itemsOf_tokens]
  have hunmap : Exchange w.os w.inner.nonLocalPtrManager {.extra size ptr} 0
      (w.os.munmap ptr size) w.inner.nonLocalPtrManager :=
    .unmapExtra size ptr rfl rfl (List.suffix_cons _ _)
  refine (Moves.single hunmap 0 (add_zero _).symm (add_zero _).symm).trans ?_
  exact Moves.quiet (Os.quiet_markDeallocated _ size) 0

/-! ## The tree -/

/-- A step of the call that holds the tree. -/
structure TreeStep (w : World P) (give : Multiset (Token P)) (w' : World P)
    (take : Multiset (Token P)) : Prop where
  formed : w'.WellFormed
  calm : w'.Calm
  manager : w'.inner.nonLocalPtrManager = w.inner.nonLocalPtrManager
  boxes : ∀ k, chunkTableBox k w' = chunkTableBox k w
  owned : busyness give = 1
  holds : ∀ t ∈ take, t.Holds w'
  busy : busyness take ≤ 1
  chains : w'.states.length + depth give = w.states.length + depth take
  moves : Moves (w.estate (itemsOf give)) (w'.estate (itemsOf take))

theorem TreeStep.sound {w w' : World P} {give take rest : Multiset (Token P)}
    (h : TreeStep w give w' take) (hs : Sound w (give + rest)) :
    Sound w' (take + rest) ∧ (discipline P).Goes (w, give + rest) (w', take + rest) := by
  have hframed : Moves (w.estate (itemsOf (give + rest))) (w'.estate (itemsOf (take + rest))) := by
    refine h.moves.framed (itemsOf rest) ?_ ?_ <;> rw [itemsOf_add, add_assoc]
  have hbusy := hs.busy
  rw [busyness_add, h.owned] at hbusy
  have hfree : busyness rest = 0 := by omega
  refine ⟨⟨h.formed, h.calm, hframed.kinds hs.kinds, hframed.ownManager hs.own, fun t ht => ?_, ?_,
    ?_⟩, hframed⟩
  · rcases Multiset.mem_add.mp ht with ht | ht
    · exact h.holds t ht
    · have hold := hs.holds t (Multiset.mem_add.mpr (.inr ht))
      cases t with
      | item i => trivial
      | chain => trivial
      | ready =>
          exact ⟨fun hnone => hold.1 (h.manager ▸ hnone), fun k hk => hold.2 k (h.boxes k ▸ hk)⟩
      | manager m => exact h.manager.trans hold
      | boxed k => exact fun hk => hold (h.boxes k ▸ hk)
      | busy tree =>
          -- there is only one such token
          obtain ⟨others, rfl⟩ := Multiset.exists_cons_of_mem ht
          simp [Token.busyness] at hfree
  · have hle := h.busy
    rw [busyness_add, hfree]
    exact hle
  · have hdepth := hs.depth
    have hchains := h.chains
    rw [depth_add] at hdepth ⊢
    omega

/-- A computation of the call that holds the tree. -/
theorem triple_of_treeStep {α : Type} {x : M P α} {give : Multiset (Token P)}
    {take : α → Multiset (Token P)}
    (h : ∀ w rest a w', Sound w (give + rest) → x.Returns w a w' → TreeStep w give w' (take a)) :
    (discipline P).Triple give x take :=
  fun w rest hs a w' hret => (h w rest a w' hs hret).sound hs

/-- The tree and the flag that it is being changed. -/
def setTree (busy : Bool) (tree : P.tree.Tree) (w : World P) : World P :=
  { w with inner := { w.inner with allocatedLargeSizes := tree }, treeBusy := busy }

theorem holdings_setTree (busy : Bool) (tree : P.tree.Tree) (w : World P) :
    (setTree busy tree w).holdings + nodeItems (P.tree.nodes w.inner.allocatedLargeSizes) =
      w.holdings + nodeItems (P.tree.nodes tree) := by
  have hvecs : ∀ v, (setTree busy tree w).inner.vec v = w.inner.vec v := fun v => by cases v <;> rfl
  simp only [World.holdings, ThreadLocalAllocatorInner.items, hvecs]
  simp only [setTree]
  abel

theorem treeStep_setTree {w : World P} {busy : Bool} {tree : P.tree.Tree}
    {give take : Multiset (Token P)} (hformed : w.WellFormed) (hcalm : w.Calm)
    (howned : busyness give = 1) (htake : ∀ t ∈ take, t.Holds (setTree busy tree w))
    (hbusy : busyness take ≤ 1) (hdepth : depth give = depth take)
    (hitems : nodeItems (P.tree.nodes tree) + itemsOf take =
      nodeItems (P.tree.nodes w.inner.allocatedLargeSizes) + itemsOf give) :
    TreeStep w give (setTree busy tree w) take where
  formed := by
    refine ⟨fun k hk => hformed.boxes k ?_, fun h => hformed.idle fun hready => h ⟨hready.1, fun k hk =>
      hready.2 k ?_⟩, hformed.heads, hformed.incoming⟩
    · cases k <;> exact hk
    · cases k <;> exact hk
  calm := hcalm
  manager := rfl
  boxes k := by cases k <;> rfl
  owned := howned
  holds := htake
  busy := hbusy
  chains := congrArg (w.states.length + ·) hdepth
  moves := by
    have hholdings := holdings_setTree busy tree w
    generalize nodeItems (P.tree.nodes w.inner.allocatedLargeSizes) = old at hholdings hitems
    generalize nodeItems (P.tree.nodes tree) = new at hholdings hitems
    refine Moves.of_eq (add_right_cancel (b := old + new) ?_)
    calc w.holdings + itemsOf give + (old + new)
        = (w.holdings + new) + (old + itemsOf give) := by abel
      _ = ((setTree busy tree w).holdings + old) + (new + itemsOf take) := by rw [hholdings, hitems]
      _ = (setTree busy tree w).holdings + itemsOf take + (old + new) := by abel

theorem returns_sizeTree {w w' : World P} {tree : P.tree.Tree} (h : sizeTree.Returns w tree w') :
    w' = w ∧ tree = w.inner.allocatedLargeSizes ∧ w.treeBusy = false := by
  simp only [Machine.Returns, sizeTree] at h
  split at h
  · cases h
  · next hbusy =>
      cases h
      exact ⟨rfl, rfl, Bool.eq_false_iff.mpr hbusy⟩

/-- The tree is taken by a call. -/
theorem Sound.takeTree {w : World P} {toks : Multiset (Token P)} (hs : Sound w toks)
    (hfree : w.treeBusy = false) :
    Sound { w with treeBusy := true } ({.busy w.inner.allocatedLargeSizes} + toks) ∧
      (discipline P).Goes (w, toks)
        ({ w with treeBusy := true }, {.busy w.inner.allocatedLargeSizes} + toks) := by
  have hnone : busyness toks = 0 := Multiset.sum_eq_zero fun n hn => by
    obtain ⟨t, ht, rfl⟩ := Multiset.mem_map.mp hn
    cases t with
    | busy tree =>
        have hbusy := (hs.holds _ ht).1
        rw [hfree] at hbusy
        cases hbusy
    | _ => rfl
  have hitems : itemsOf ({.busy w.inner.allocatedLargeSizes} + toks) = itemsOf toks := by
    rw [itemsOf_add, itemsOf_singleton]
    exact zero_add _
  refine ⟨⟨⟨hs.formed.boxes, hs.formed.idle, hs.formed.heads, hs.formed.incoming⟩, hs.calm, ?_,
    hs.own, fun t ht => ?_, ?_, ?_⟩, ?_⟩
  · rw [hitems]
    exact hs.kinds
  · rcases Multiset.mem_add.mp ht with ht | ht
    · obtain rfl := Multiset.mem_singleton.mp ht
      exact ⟨rfl, rfl⟩
    · have hold := hs.holds t ht
      cases t with
      | busy tree => exact ⟨rfl, hold.2⟩
      | _ => exact hold
  · rw [busyness_add, hnone]
    exact le_rfl
  · rw [depth_add]
    exact hs.depth.trans (zero_add _).symm
  · refine Moves.of_eq ?_
    show _ = w.holdings + itemsOf ({.busy w.inner.allocatedLargeSizes} + toks)
    rw [hitems]

/-- The tree is changed at once, by a call that finds it free. -/
theorem step_updateTree {w w' : World P} {f : P.tree.Tree → P.tree.Tree} {u : Unit}
    (hformed : w.WellFormed) (hcalm : w.Calm) (hfree : w.treeBusy = false)
    (hnodes : ∀ t, P.tree.nodes (f t) = P.tree.nodes t) (h : (updateTree f).Returns w u w') :
    Step w 0 w' 0 ∧ w'.treeBusy = false := by
  obtain rfl := Machine.returns_modify.mp h
  have hvecs : ∀ v, ThreadLocalAllocatorInner.vec
      { w.inner with allocatedLargeSizes := f w.inner.allocatedLargeSizes } v = w.inner.vec v :=
    fun v => by cases v <;> rfl
  refine ⟨⟨⟨fun k hk => hformed.boxes k ?_, fun h => hformed.idle fun hready => h ⟨hready.1,
    fun k hk => hready.2 k ?_⟩, hformed.heads, hformed.incoming⟩, hcalm, ⟨fun _ h => h,
    fun k hk => ?_, fun h => ?_⟩, by simp, le_rfl, rfl, ?_⟩, hfree⟩
  · cases k <;> exact hk
  · cases k <;> exact hk
  · cases k <;> exact hk
  · rw [hfree] at h
    cases h
  · refine Moves.of_eq ?_
    simp only [World.holdings, ThreadLocalAllocatorInner.items, hvecs, hnodes]

/-! ## The nodes of the tree -/

theorem nodeItems_cons (node : Nat × Nat) (nodes : List (Nat × Nat)) :
    nodeItems (node :: nodes) = {blockItem node.2 node.1} + nodeItems nodes := rfl

theorem nodeItems_append (nodes nodes' : List (Nat × Nat)) :
    nodeItems (nodes ++ nodes') = nodeItems nodes + nodeItems nodes' := by
  simp [nodeItems]

theorem nodeItems_perm {nodes nodes' : List (Nat × Nat)} (h : nodes.Perm nodes') :
    nodeItems nodes = nodeItems nodes' :=
  Multiset.coe_eq_coe.mpr (h.map _)

theorem returns_allocNodes_length {sizes ptrs : List Nat} {w w' : World P}
    (h : (allocNodes A sizes).Returns w ptrs w') : ptrs.length = sizes.length := by
  induction sizes generalizing w ptrs w' with
  | nil =>
      obtain ⟨rfl, -⟩ := Machine.returns_pure.mp h
      rfl
  | cons size sizes ih =>
      obtain ⟨ptr, w₁, -, hrest⟩ := Machine.returns_bind.mp h
      cases ptr with
      | none => exact absurd hrest Machine.not_returns_fault
      | some ptr =>
          obtain ⟨ptrs', w₂, htail, hpure⟩ := Machine.returns_bind.mp hrest
          obtain ⟨rfl, -⟩ := Machine.returns_pure.mp hpure
          rw [List.length_cons, List.length_cons, ih htail]

theorem allocNodes_triple (hA : Serves A) (sizes : List Nat)
    (hsizes : ∀ size ∈ sizes, 1 ≤ size ∧ size ≤ commonSizeMax) :
    (discipline P).Triple 0 (allocNodes A sizes) fun ptrs => tokens (nodeItems (ptrs.zip sizes)) := by
  induction sizes with
  | nil => exact Discipline.Triple.pure (by simp [nodeItems])
  | cons size sizes ih =>
      obtain ⟨⟨hpos, hle⟩, hrest⟩ := List.forall_mem_cons.mp hsizes
      refine (hA.selfAlloc true _ false (isReal_recommendedSize size)).bind fun ptr => ?_
      cases ptr with
      | none => exact Discipline.Triple.fault _
      | some ptr =>
          have hlarge : size ≤ largeSizeMax := hle.trans (by decide)
          have htail := (ih hrest).frame (tokens (blockOf (recommendedSize size) (some ptr)))
          rw [zero_add] at htail
          refine htail.bind fun ptrs => Discipline.Triple.pure ?_
          rw [List.zip_cons_cons, nodeItems_cons, tokens_add, blockOf_some,
            blockItem_recommendedSize hpos hlarge]
          exact add_comm _ _

/-- The new nodes enter the tree, and the tree is free again. -/
theorem insertNodes_triple (tree : P.tree.Tree) (size : Nat) (ptrs : List Nat)
    (hlength : ptrs.length = (P.tree.nodesToInsert size tree).length) :
    (discipline P).Triple
      ({.busy tree} + tokens (nodeItems (ptrs.zip (P.tree.nodesToInsert size tree)))) (do
        updateTree (P.tree.insert size 1 ptrs)
        setTreeBusy false) fun _ => 0 := by
  refine triple_of_treeStep fun w rest u w' hs hret => ?_
  obtain ⟨u₁, w₁, hupdate, hfree⟩ := Machine.returns_bind.mp hret
  have hw₁ := Machine.returns_modify.mp hupdate
  have hw' : w' = setTree false (P.tree.insert size 1 ptrs w.inner.allocatedLargeSizes) w := by
    rw [Machine.returns_modify.mp hfree, hw₁]
    rfl
  have htree : w.inner.allocatedLargeSizes = tree := (hs.holds (.busy tree) (by simp)).2
  have howned : busyness ({.busy tree} +
      tokens (nodeItems (ptrs.zip (P.tree.nodesToInsert size tree)))) = 1 := by
    rw [busyness_add, busyness_tokens, busyness_singleton]
    rfl
  have hbusy : (Token.busy tree : Token P).items = 0 := rfl
  rw [hw', htree]
  refine treeStep_setTree hs.formed hs.calm howned (by simp) (by simp) (by simp [Token.depth]) ?_
  rw [htree, nodeItems_perm (P.tree.nodes_insert size 1 ptrs tree hlength), nodeItems_append,
    itemsOf_add, itemsOf_singleton, itemsOf_tokens, itemsOf_zero, hbusy]
  abel

theorem countExtraLarge_triple (hA : Serves A) (size : Nat) :
    (discipline P).Triple 0 (countExtraLarge A size) fun _ => 0 := by
  intro w rest hs
  refine Discipline.At.read (fun tree w' h => (returns_sizeTree h).1) fun tree htree => ?_
  obtain ⟨-, rfl, hfree⟩ := returns_sizeTree htree
  cases hlookup : (P.tree.entries w.inner.allocatedLargeSizes).lookup size with
  | some count =>
      refine at_of_step hs fun u w' hret => ?_
      exact (step_updateTree hs.formed hs.calm hfree (P.tree.nodes_modify _ _) hret).1
  | none =>
      obtain ⟨hs₁, hgoes₁⟩ := hs.takeTree hfree
      have hbusy : (discipline P).At w (0 + rest) (setTreeBusy true)
          fun _ => {.busy w.inner.allocatedLargeSizes} + (0 + rest) := by
        intro u w' hret
        obtain rfl := Machine.returns_modify.mp hret
        exact ⟨hs₁, hgoes₁⟩
      refine hbusy.bind fun u w₁ _ hs₁ => ?_
      have hnodes := (allocNodes_triple hA _ (P.tree.nodesToInsert_size size
        w.inner.allocatedLargeSizes)).frame {.busy w.inner.allocatedLargeSizes}
      rw [zero_add] at hnodes hs₁ ⊢
      refine (hnodes w₁ rest hs₁).bind fun ptrs w₂ hret₂ hs₂ => ?_
      have hinsert := insertNodes_triple (P := P) _ size ptrs (returns_allocNodes_length hret₂)
      rw [add_comm] at hinsert
      exact hinsert w₂ rest hs₂

/-- A key leaves the tree, and the call gets the nodes that merging gives back. -/
theorem removeNodes_triple (tree : P.tree.Tree) (size : Nat) :
    (discipline P).Triple {.busy tree} (updateTree fun tree => (P.tree.remove size tree).1)
      fun _ => {.busy (P.tree.remove size tree).1} +
        tokens (nodeItems (P.tree.remove size tree).2) := by
  refine triple_of_treeStep fun w rest u w' hs hret => ?_
  obtain ⟨hbusy, htree⟩ := hs.holds (.busy tree) (by simp)
  have hw' : w' = setTree true (P.tree.remove size tree).1 w := by
    rw [Machine.returns_modify.mp hret, setTree, ← hbusy, htree]
  have howner : ∀ t : P.tree.Tree, (Token.busy t : Token P).items = 0 := fun _ => rfl
  rw [hw']
  refine treeStep_setTree hs.formed hs.calm (by rw [busyness_singleton]; rfl) (fun t ht => ?_) ?_
    (by simp [Token.depth]) ?_
  · rcases Multiset.mem_add.mp ht with ht | ht
    · obtain rfl := Multiset.mem_singleton.mp ht
      exact ⟨rfl, rfl⟩
    · exact holds_tokens ht
  · rw [busyness_add, busyness_tokens, busyness_singleton]
    exact le_rfl
  · rw [htree, nodeItems_perm (P.tree.nodes_remove size tree), nodeItems_append, itemsOf_add,
      itemsOf_singleton, itemsOf_singleton, itemsOf_tokens, howner, howner]
    abel

/-- The call is done with the tree. -/
theorem releaseTree_triple (tree : P.tree.Tree) :
    (discipline P).Triple {.busy tree} (setTreeBusy false) fun _ => 0 := by
  refine triple_of_treeStep fun w rest u w' hs hret => ?_
  have htree : w.inner.allocatedLargeSizes = tree := (hs.holds (.busy tree) (by simp)).2
  have hw' : w' = setTree false w.inner.allocatedLargeSizes w := Machine.returns_modify.mp hret
  have howner : (Token.busy tree : Token P).items = 0 := rfl
  rw [hw']
  refine treeStep_setTree hs.formed hs.calm (by rw [busyness_singleton]; rfl) (by simp) (by simp)
    (by simp [Token.depth]) ?_
  rw [itemsOf_zero, itemsOf_singleton, howner]

theorem tokens_nodeItems (nodes : List (Nat × Nat)) :
    (tokens (nodeItems nodes) : Multiset (Token P)) =
      (nodes.map fun node => tokens {blockItem node.2 node.1}).sum := by
  induction nodes with
  | nil => rfl
  | cons node nodes ih => rw [nodeItems_cons, tokens_add, List.map_cons, List.sum_cons, ih]

/-- The rest of `dealloc_extra_large`, from the removal of the last block of a size on. -/
theorem dropNodes_triple (hA : Serves A) (tree : P.tree.Tree) (size : Nat) :
    (discipline P).Triple {.busy tree} (do
        updateTree fun tree => (P.tree.remove size tree).1
        Machine.forEach (P.tree.remove size tree).2 fun node => A.selfDealloc node.1 node.2 false
        setTreeBusy false) fun _ => 0 := by
  refine (removeNodes_triple tree size).bind fun _ => ?_
  have hdealloc := Discipline.Triple.forEachGive (D := discipline P)
    (P.tree.remove size tree).2 fun node _ => hA.selfDealloc node.1 node.2 false
  rw [← tokens_nodeItems] at hdealloc
  have hframed := hdealloc.frame {.busy (P.tree.remove size tree).1}
  rw [add_comm] at hframed
  refine hframed.bind fun _ => ?_
  rw [zero_add]
  exact releaseTree_triple _

theorem deallocExtraLarge_triple (hA : Serves A) (ptr size : Nat) :
    (discipline P).Triple (tokens {.extra size ptr}) (deallocExtraLarge A ptr size)
      fun _ => 0 := by
  refine (munmap_triple size ptr).bind fun _ => ?_
  intro w rest hs
  refine Discipline.At.read (fun tree w' h => (returns_sizeTree h).1) fun tree htree => ?_
  obtain ⟨-, rfl, hfree⟩ := returns_sizeTree htree
  cases hlookup : (P.tree.entries w.inner.allocatedLargeSizes).lookup size with
  | none => exact Discipline.At.pure hs rfl
  | some count =>
      have hmodify : (discipline P).At w (0 + rest) (updateTree (P.tree.modify size (· - 1)))
          fun _ => 0 + rest := at_of_step hs fun u w' hret =>
        (step_updateTree hs.formed hs.calm hfree (P.tree.nodes_modify _ _) hret).1
      refine hmodify.bind fun u w₁ hret hs₁ => ?_
      by_cases hcount : count = 1
      · rw [if_pos hcount]
        refine Discipline.At.read (fun tree w' h => (returns_sizeTree h).1) fun tree htree => ?_
        obtain ⟨-, rfl, hfree₁⟩ := returns_sizeTree htree
        obtain ⟨hs₂, hgoes⟩ := hs₁.takeTree hfree₁
        have hbusy : (discipline P).At w₁ (0 + rest) (setTreeBusy true)
            fun _ => {.busy w₁.inner.allocatedLargeSizes} + (0 + rest) := by
          intro u w' hret
          obtain rfl := Machine.returns_modify.mp hret
          exact ⟨hs₂, hgoes⟩
        refine hbusy.bind fun u w₂ _ hs₂ => ?_
        rw [zero_add] at hs₂ ⊢
        exact dropNodes_triple hA _ size w₂ rest hs₂
      · rw [if_neg hcount]
        exact Discipline.At.pure hs₁ rfl

theorem allocExtraLarge_triple (hA : Serves A) {size : Nat} (hsize : largeSizeMax < size) :
    (discipline P).Triple 0 (allocExtraLarge A size) fun r => tokens (blockOf size r) := by
  have hslot : slotForSize size = none := by
    rw [slotForSize, SizeClass.define_eq_extraLarge hsize]
  have hblock : ∀ ptr, blockOf size ptr = extraOf size ptr := fun ptr => by
    cases ptr with
    | none => rfl
    | some ptr => simp only [blockOf_some, blockItem, hslot, extraOf]
  refine (mapExtraLarge_triple size).bind fun r => ?_
  obtain ⟨counted, ptr⟩ := r
  cases counted with
  | false => exact Discipline.Triple.pure rfl
  | true =>
      have hcount := (countExtraLarge_triple hA size).frame (tokens (extraOf size ptr))
      rw [zero_add] at hcount
      refine hcount.bind fun _ => Discipline.Triple.pure ?_
      rw [hblock]

end Memalart
