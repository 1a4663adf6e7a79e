/-
# Nodes come and nodes go

While a key is inserted, nodes are only allocated; while a key is removed, nodes are only
freed.  Neither depends on the tree that the call finds.
-/

import Memalart.BTree.Map

namespace Memalart.BTree

open Lib Machine

variable {K V : Type} {S : NodeSizes} {A : SelfAllocator} {m m' m'' : Memory}

/-! ## The blocks in use as a list -/

/-- The blocks in use, the latest first. -/
def standing : List HeapEvent → List (Nat × Nat)
  | [] => []
  | .alloc addr size :: log => (addr, size) :: standing log
  | .dealloc addr size :: log => (standing log).erase (addr, recommendedSize size)

theorem beq_block : (instBEqProd : BEq (Nat × Nat)) = instBEqOfDecidableEq :=
  lawful_beq_subsingleton _ _

theorem coe_standing (log : List HeapEvent) : (standing log : Multiset (Nat × Nat)) = live log := by
  induction log with
  | nil => rfl
  | cons event log ih =>
      cases event with
      | alloc addr size => rw [standing, live, ← ih, Multiset.cons_coe]
      | dealloc addr size => rw [standing, live, ← ih, Multiset.coe_erase, beq_block]

/-! ## Insertion -/

/-- The calls of the allocator since then have all allocated. -/
def Memory.Grows (m m' : Memory) : Prop :=
  ∃ bs : List (Nat × Nat), m'.log = bs.map (fun b => .alloc b.1 b.2) ++ m.log

namespace Memory.Grows

theorem refl (m : Memory) : m.Grows m := ⟨[], rfl⟩

theorem trans (h : m.Grows m') (h' : m'.Grows m'') : m.Grows m'' := by
  obtain ⟨bs, hbs⟩ := h
  obtain ⟨bs', hbs'⟩ := h'
  exact ⟨bs' ++ bs, by rw [hbs', hbs, List.map_append, List.append_assoc]⟩

theorem allocated (m : Memory) (addr size : Nat) : m.Grows (m.allocated addr size) :=
  ⟨[(addr, recommendedSize size)], rfl⟩

end Memory.Grows

/-- The new blocks stand before the old ones. -/
theorem Memory.Grows.standing_eq (h : m.Grows m') :
    standing m'.log = (standing m'.log).take ((standing m'.log).length - (standing m.log).length) ++
      standing m.log := by
  obtain ⟨bs, hbs⟩ := h
  have hstanding : standing m'.log = bs ++ standing m.log := by
    rw [hbs]
    clear hbs
    induction bs with
    | nil => rfl
    | cons b bs ih => exact congrArg (b :: ·) ih
  rw [hstanding, List.length_append, Nat.add_sub_cancel, List.take_left']
  rfl

instance : IsPreorder Memory Memory.Grows where
  refl := .refl
  trans _ _ _ h h' := h.trans h'

theorem grows_allocNode (size : Nat) : Follows Memory.Grows (allocNode A size) := by
  refine follows_bind follows_get fun m => ?_
  cases A.selfAlloc m.log (recommendedSize size) with
  | none => exact follows_pure
  | some addr =>
      exact follows_bind (follows_modify fun m => .allocated m addr size) fun _ => follows_pure

theorem grows_leafNodeNew : Follows Memory.Grows (LeafNode.new (K := K) (V := V) A S) := by
  refine follows_bind (grows_allocNode _) fun addr => ?_
  cases addr with
  | none => exact follows_pure
  | some addr => exact follows_pure

theorem grows_internalNodeNew : Follows Memory.Grows (InternalNode.new (K := K) (V := V) A S) := by
  refine follows_bind (grows_allocNode _) fun addr => ?_
  cases addr with
  | none => exact follows_pure
  | some addr => exact follows_pure

theorem grows_pushInternalLevel (root : Root K V) :
    Follows Memory.Grows (root.pushInternalLevel A S) := by
  refine follows_bind (follows_bind grows_internalNodeNew fun node => ?_) fun root => ?_
  · cases node with
    | none => exact follows_pure
    | some node => exact follows_pure
  · cases root with
    | none => exact follows_fault
    | some root => exact follows_pure

theorem grows_splitLeaf (middle : NodeHandle K V) : Follows Memory.Grows (splitLeaf A S middle) := by
  refine follows_bind grows_leafNodeNew fun newNode => ?_
  cases newNode with
  | none => exact follows_fault
  | some newNode => exact follows_bind follows_ofExcept fun _ => follows_pure

theorem grows_splitInternal (middle : NodeHandle K V) :
    Follows Memory.Grows (splitInternal A S middle) := by
  refine follows_bind grows_internalNodeNew fun newNode => ?_
  cases newNode with
  | none => exact follows_fault
  | some newNode => exact follows_bind follows_ofExcept fun _ => follows_pure

theorem grows_insertLeaf (edge : NodeHandle K V) (kv : K × V) :
    Follows Memory.Grows (insertLeaf A S edge kv) := by
  refine follows_ite follows_pure (follows_bind (grows_splitLeaf _) fun result => ?_)
  cases (splitpoint edge.idx).2 with
  | left insertIdx => exact follows_pure
  | right insertIdx => exact follows_pure

theorem grows_insertInternal (parent : NodeHandle K V) (kv : K × V) (edge : Root K V) :
    Follows Memory.Grows (insertInternal A S parent kv edge) := by
  refine follows_ite (follows_ite follows_pure ?_) follows_fault
  refine follows_bind (grows_splitInternal _) fun result => ?_
  cases (splitpoint parent.idx).2 with
  | left insertIdx => exact follows_pure
  | right insertIdx => exact follows_pure

theorem grows_splitRoot (ins : SplitResult K V) : Follows Memory.Grows (splitRoot A S ins) :=
  follows_bind (grows_pushInternalLevel _) fun _ => follows_bind follows_ofExcept fun _ => follows_pure

theorem grows_insertRecursingLoop (fuel : Nat) (split : SplitResult K V) :
    Follows Memory.Grows (insertRecursingLoop A S fuel split) := by
  induction fuel generalizing split with
  | zero => exact follows_fault
  | succ fuel ih =>
      refine follows_bind follows_ofExcept fun parent => ?_
      cases parent with
      | none => exact grows_splitRoot _
      | some parent =>
          refine follows_bind (grows_insertInternal _ _ _) fun insertion => ?_
          cases insertion with
          | fit node => exact follows_pure
          | split result => exact ih result

theorem grows_insertRecursing (edge : NodeHandle K V) (kv : K × V) :
    Follows Memory.Grows (insertRecursing A S edge kv) := by
  refine follows_bind (grows_insertLeaf _ _) fun res => ?_
  obtain ⟨insertion, handle⟩ := res
  cases insertion with
  | fit node => exact follows_ofExcept
  | split result =>
      exact follows_bind (grows_insertRecursingLoop _ _) fun _ => follows_ofExcept

theorem grows_insertVacant (map : SelfAllocatedBTreeMap K V) (key : K)
    (handle : Option (NodeHandle K V)) (value : V) :
    Follows Memory.Grows (map.insertVacant A S key handle value) := by
  cases handle with
  | none =>
      refine follows_bind grows_leafNodeNew fun leaf => ?_
      cases leaf with
      | none => exact follows_pure
      | some leaf => exact follows_bind follows_ofExcept fun _ => follows_pure
  | some handle => exact follows_bind (grows_insertRecursing _ _) fun _ => follows_pure

theorem grows_getOrInsert [LinearOrder K] (map : SelfAllocatedBTreeMap K V) (key : K)
    (default : V) : Follows Memory.Grows (map.getOrInsert A S key default) := by
  refine follows_bind follows_ofExcept fun entry => follows_bind ?_ fun res => ?_
  · cases entry with
    | occupied handle => exact follows_pure
    | vacant key handle => exact grows_insertVacant _ _ _ _
  · obtain ⟨place, map⟩ := res
    cases place with
    | none => exact follows_pure
    | some place => exact follows_bind follows_ofExcept fun _ => follows_pure

/-! ## Removal -/

/-- No block has come into use since then. -/
def Memory.Shrinks (m m' : Memory) : Prop := live m'.log ≤ live m.log

/-- The blocks that are gone, and those that still stand. -/
theorem Memory.Shrinks.perm (h : m.Shrinks m') :
    (standing m.log).Perm ((standing m.log).diff (standing m'.log) ++ standing m'.log) := by
  have hle : (standing m'.log : Multiset (Nat × Nat)) ≤ standing m.log := by
    rw [coe_standing, coe_standing]
    exact h
  rw [← Multiset.coe_eq_coe, ← Multiset.coe_add, beq_block, ← Multiset.coe_sub]
  exact (tsub_add_cancel_of_le hle).symm

instance : IsPreorder Memory Memory.Shrinks where
  refl m := le_refl (live m.log)
  trans _ _ _ h h' := le_trans h' h

theorem shrinks_deallocNode (addr size : Nat) : Follows Memory.Shrinks (deallocNode addr size) :=
  follows_modify fun m => Multiset.erase_le _ (live m.log)

theorem shrinks_doMerge (ctx : BalancingContext K V) : Follows Memory.Shrinks (ctx.doMerge S) := by
  refine follows_ite (follows_bind follows_ofExcept fun _ => ?_) follows_fault
  exact follows_ite (follows_bind (shrinks_deallocNode _ _) fun _ => follows_pure)
    (follows_bind (shrinks_deallocNode _ _) fun _ => follows_pure)

theorem shrinks_mergeTrackingParent (ctx : BalancingContext K V) :
    Follows Memory.Shrinks (ctx.mergeTrackingParent S) :=
  follows_bind (shrinks_doMerge ctx) fun _ => follows_pure

theorem shrinks_mergeTrackingChildEdge (ctx : BalancingContext K V) (idx : LeftOrRight Nat) :
    Follows Memory.Shrinks (ctx.mergeTrackingChildEdge S idx) := by
  have hmerge : ∀ i, Follows Memory.Shrinks (ctx.doMerge S >>= fun res =>
      pure (⟨BalancingContext.childAt res.1 ctx.parent.idx res.2, i⟩ : NodeHandle K V)) :=
    fun i => follows_bind (shrinks_doMerge ctx) fun _ => follows_pure
  cases idx with
  | left i => exact follows_ite (hmerge _) follows_fault
  | right i => exact follows_ite (hmerge _) follows_fault

theorem shrinks_fixNodeThroughParent (r : NodeRef K V) :
    Follows Memory.Shrinks (r.fixNodeThroughParent S) := by
  have hmerge : ∀ ctx : BalancingContext K V, Follows Memory.Shrinks
      (ctx.mergeTrackingParent S >>= fun parent => pure (Fixed.parent parent)) :=
    fun ctx => follows_bind (shrinks_mergeTrackingParent ctx) fun _ => follows_pure
  refine follows_ite follows_pure (follows_bind follows_ofExcept fun parentKv => ?_)
  cases parentKv with
  | none => exact follows_ite follows_pure follows_pure
  | some parentKv =>
      cases parentKv with
      | left ctx => exact follows_ite (hmerge ctx) (follows_bind follows_ofExcept fun _ => follows_pure)
      | right ctx => exact follows_ite (hmerge ctx) (follows_bind follows_ofExcept fun _ => follows_pure)

theorem shrinks_fixLoop (fuel : Nat) (r : NodeRef K V) :
    Follows Memory.Shrinks (NodeRef.fixLoop S fuel r) := by
  induction fuel generalizing r with
  | zero => exact follows_fault
  | succ fuel ih =>
      refine follows_bind (shrinks_fixNodeThroughParent r) fun fixed => ?_
      cases fixed with
      | parent parent => exact ih parent
      | done place => exact follows_pure
      | emptyRoot root => exact follows_pure

theorem shrinks_rebalanceLeaf (pos : NodeHandle K V) :
    Follows Memory.Shrinks (pos.rebalanceLeaf S) := by
  refine follows_bind follows_ofExcept fun parentKv => ?_
  cases parentKv with
  | none => exact follows_pure
  | some parentKv =>
      cases parentKv with
      | left ctx => exact follows_ite (shrinks_mergeTrackingChildEdge _ _) follows_ofExcept
      | right ctx => exact follows_ite (shrinks_mergeTrackingChildEdge _ _) follows_ofExcept

theorem shrinks_removeLeafKv (kv : NodeHandle K V) : Follows Memory.Shrinks (kv.removeLeafKv S) := by
  refine follows_bind follows_ofExcept fun res => follows_ite ?_ follows_pure
  refine follows_bind (shrinks_rebalanceLeaf _) fun pos => follows_bind follows_ofExcept fun parent => ?_
  cases parent with
  | none => exact follows_pure
  | some parent => exact follows_bind (shrinks_fixLoop _ _) fun _ => follows_pure

theorem shrinks_removeInternalKv (kv : NodeHandle K V) :
    Follows Memory.Shrinks (kv.removeInternalKv S) := by
  refine follows_bind follows_ofExcept fun child => follows_bind follows_ofExcept fun edge => ?_
  cases edge.leftKv with
  | none => exact follows_fault
  | some leftLeafKv =>
      refine follows_bind (shrinks_removeLeafKv _) fun removed =>
        follows_bind follows_ofExcept fun leftHole => follows_bind follows_ofExcept fun internal => ?_
      cases internal with
      | none => exact follows_fault
      | some internal =>
          exact follows_bind follows_ofExcept fun _ => follows_bind follows_ofExcept fun _ => follows_pure

theorem shrinks_removeOccupied (map : SelfAllocatedBTreeMap K V) (handle : NodeHandle K V) :
    Follows Memory.Shrinks (map.removeOccupied S handle) := by
  refine follows_bind (follows_ite (shrinks_removeLeafKv _) (shrinks_removeInternalKv _)) fun removed =>
    follows_ite (follows_bind (follows_ite ?_ follows_fault) fun _ => follows_pure) follows_pure
  exact follows_bind follows_ofExcept fun _ =>
    follows_bind (shrinks_deallocNode _ _) fun _ => follows_pure

theorem shrinks_remove [LinearOrder K] (map : SelfAllocatedBTreeMap K V) (key : K) :
    Follows Memory.Shrinks (map.remove S key) := by
  unfold SelfAllocatedBTreeMap.remove
  cases map.root with
  | none => exact follows_pure
  | some root =>
      refine follows_bind follows_ofExcept fun result => ?_
      cases result with
      | found handle => exact follows_bind (shrinks_removeOccupied _ _) fun _ => follows_pure
      | goDown edge => exact follows_pure

end Memalart.BTree
