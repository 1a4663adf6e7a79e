/-
# The search for a key

In a tree whose keys ascend, the search ends at the key, or at the leaf edge with the smaller
keys on its left and the larger ones on its right.
-/

import Memalart.BTree.Walk
import Memalart.Lib.Bindings

namespace Memalart.BTree

open Lib

variable {K V : Type} [LinearOrder K] {rootLen h i : Nat} {n : Node K V} {path : List (Frame K V)}
  {r : NodeRef K V} {root : Root K V} {key : K} {left right items kvs : List (K × V)} {item : K × V}

/-! ## Within a node -/

/-- What `find_key_index` has found in the keys from an index on. -/
theorem findKeyIndex_spec (key : K) (kvs : List (K × V)) (start : Nat) :
    (∃ i item, findKeyIndex key kvs start = .kv (start + i) ∧ kvs[i]? = some item ∧ item.1 = key) ∨
      ∃ i, findKeyIndex key kvs start = .edge (start + i) ∧ i ≤ kvs.length ∧
        Below key (kvs.take i) ∧ ∀ item, kvs[i]? = some item → key < item.1 := by
  induction kvs generalizing start with
  | nil => exact .inr ⟨0, rfl, le_rfl, by simp [Below], by simp⟩
  | cons kv rest ih =>
      obtain ⟨k, v⟩ := kv
      cases hcmp : compare key k with
      | lt =>
          refine .inr ⟨0, ?_, Nat.zero_le _, by simp [Below], ?_⟩
          · rw [findKeyIndex, hcmp]
            rfl
          · intro item hitem
            rw [List.getElem?_cons_zero, Option.some.injEq] at hitem
            rw [← hitem]
            exact compare_lt_iff_lt.1 hcmp
      | eq =>
          refine .inl ⟨0, (k, v), ?_, rfl, (compare_eq_iff_eq.1 hcmp).symm⟩
          rw [findKeyIndex, hcmp]
          rfl
      | gt =>
          have hstep : findKeyIndex key ((k, v) :: rest) start = findKeyIndex key rest (start + 1) := by
            rw [findKeyIndex, hcmp]
          rcases ih (start + 1) with ⟨i, item, hfind, hget, hkey⟩ | ⟨i, hfind, hle, hbelow, habove⟩
          · refine .inl ⟨i + 1, item, ?_, hget, hkey⟩
            rw [hstep, hfind, Nat.add_assoc, Nat.add_comm 1]
          · refine .inr ⟨i + 1, ?_, Nat.succ_le_succ hle, ?_, habove⟩
            · rw [hstep, hfind, Nat.add_assoc, Nat.add_comm 1]
            · intro x hx
              rw [List.take_succ_cons, List.mem_cons] at hx
              rcases hx with rfl | hx
              · exact compare_gt_iff_gt.1 hcmp
              · exact hbelow x hx

/-! ## Down the tree -/

/-- Where the search for a key ends. -/
inductive Finds (rootLen : Nat) (root : Root K V) (key : K) : SearchResult K V → Prop
  | found {kv : NodeHandle K V} {left items : List (K × V)} {item : K × V} :
      kv.idx < kv.node.len → Stands rootLen root kv left (item :: items) → item.1 = key →
      Finds rootLen root key (.found kv)
  | goDown {e : NodeHandle K V} {left right : List (K × V)} :
      e.node.height = 0 → Stands rootLen root e left right → Below key left → Above key right →
      Finds rootLen root key (.goDown e)

/-- Right of the edge that the search takes in a node, all keys are larger. -/
theorem above_right (hr : Fits rootLen r) (hroot : r.toRoot = root)
    (hasc : Ascending (bindings root.borrow.tokens))
    (hafter : Above key (bindings (after r.height r.path))) (hi : i ≤ r.node.kvs.length)
    (hnext : ∀ item, r.node.kvs[i]? = some item → key < item.1) :
    Above key (onFrom r.height r.node i ++ bindings (after r.height r.path)) := by
  have hstands := hr.stands hi
  rcases Nat.lt_or_eq_of_le hi with hlt | rfl
  · obtain ⟨item, rest, hget, hright⟩ := hstands.right_of_lt hlt
    rw [hroot] at hstands
    rw [← hstands.append_eq, hright] at hasc
    rw [hright]
    exact hasc.above (hnext item hget)
  · rw [show r.node.kvs.length = r.node.len from rfl, onFrom_len hr.sound]
    exact hafter

/-- Left of the child that the search goes down to, all keys are smaller. -/
theorem below_before (hr : Fits rootLen r) (hheight : r.height = h + 1) (hroot : r.toRoot = root)
    (hasc : Ascending (bindings root.borrow.tokens))
    (hbefore : Below key (bindings (before r.height r.path))) (hi : i ≤ r.node.kvs.length)
    (hbelow : Below key (r.node.kvs.take i)) :
    Below key (bindings (before h (r.node.frameAt i :: r.path))) := by
  rw [before, bindings_append, ← hheight]
  cases i with
  | zero => simpa [Frame.before, Node.frameAt] using hbefore
  | succ i =>
      have hstands := hr.stands (Nat.le_of_succ_le hi)
      obtain ⟨item, rest, hget, hright⟩ := hstands.right_of_lt hi
      have hitem : item.1 < key := by
        apply hbelow
        rw [List.take_add_one, List.mem_append]
        exact .inr (by simp only [hget, Option.toList_some, List.mem_singleton])
      rw [hroot, hright] at hstands
      rw [← hstands.append_eq] at hasc
      have hsound := hr.sound
      rw [hheight] at hsound
      have hall := hasc.below hitem
      rw [bindings_before_succ hsound hget, ← hheight, ← List.append_assoc]
      exact hall

/-- The search in one node. -/
theorem searchNode_spec (hr : Fits rootLen r) (hroot : r.toRoot = root)
    (hasc : Ascending (bindings root.borrow.tokens))
    (hafter : Above key (bindings (after r.height r.path))) :
    (∃ kv, r.searchNode key = .found kv ∧ Finds rootLen root key (.found kv)) ∨
      ∃ i, r.searchNode key = .goDown ⟨r, i⟩ ∧ i ≤ r.node.kvs.length ∧
        Below key (r.node.kvs.take i) ∧
        Above key (onFrom r.height r.node i ++ bindings (after r.height r.path)) := by
  rcases findKeyIndex_spec key r.node.kvs 0 with
    ⟨i, item, hfind, hget, hkey⟩ | ⟨i, hfind, hi, hbelow, hnext⟩
  · rw [Nat.zero_add] at hfind
    have hlt : i < r.len := (List.getElem?_eq_some_iff.1 hget).1
    have hstands := hr.stands (Nat.le_of_lt hlt)
    obtain ⟨item', rest, hget', hright⟩ := hstands.right_of_lt hlt
    rw [hroot, hright] at hstands
    obtain rfl : item = item' := Option.some.inj (hget.symm.trans hget')
    refine .inl ⟨⟨r, i⟩, ?_, .found hlt hstands hkey⟩
    rw [NodeRef.searchNode, hfind]
  · rw [Nat.zero_add] at hfind
    refine .inr ⟨i, ?_, hi, hbelow, above_right hr hroot hasc hafter hi hnext⟩
    rw [NodeRef.searchNode, hfind]

theorem searchTreeLoop_spec (hr : Fits rootLen ⟨h, n, path⟩) (hroot : NodeRef.toRoot ⟨h, n, path⟩ = root)
    (hasc : Ascending (bindings root.borrow.tokens)) (hbefore : Below key (bindings (before h path)))
    (hafter : Above key (bindings (after h path))) :
    ∃ result, NodeRef.searchTreeLoop key h ⟨h, n, path⟩ = .ok result ∧
      Finds rootLen root key result := by
  induction h generalizing n path with
  | zero =>
      refine ⟨_, rfl, ?_⟩
      rcases searchNode_spec hr hroot hasc hafter with
        ⟨kv, hsearch, hfinds⟩ | ⟨i, hsearch, hi, hbelow, habove⟩
      · rw [hsearch]
        exact hfinds
      · have hstands := hr.stands hi
        rw [hroot] at hstands
        rw [hsearch]
        exact .goDown rfl hstands (hbefore.append hbelow) habove
  | succ h ih =>
      rcases searchNode_spec hr hroot hasc hafter with
        ⟨kv, hsearch, hfinds⟩ | ⟨i, hsearch, hi, hbelow, habove⟩
      · refine ⟨_, ?_, hfinds⟩
        rw [NodeRef.searchTreeLoop, hsearch]
      · obtain ⟨c, hc, hdescend, hfits⟩ := descend_eq hr hi
        have hbelow' := below_before hr rfl hroot hasc hbefore hi hbelow
        have habove' : Above key (bindings (after h (n.frameAt i :: path))) := by
          rw [after, bindings_append]
          exact habove
        obtain ⟨result, hresult, hfinds⟩ :=
          ih hfits ((toRoot_down hc).trans hroot) hbelow' habove'
        refine ⟨result, ?_, hfinds⟩
        rw [NodeRef.searchTreeLoop, hsearch]
        show (NodeHandle.descend ⟨⟨h + 1, n, path⟩, i⟩ >>= _) = _
        rw [hdescend]
        exact hresult

/-- The search from the root. -/
theorem searchTree_spec (key : K) (hroot : Fits rootLen root.borrow)
    (hasc : Ascending (bindings root.borrow.tokens)) :
    ∃ result, root.borrow.searchTree key = .ok result ∧ Finds rootLen root key result :=
  searchTreeLoop_spec hroot rfl hasc (by simp [Below, before]) (by simp [Above, after])

end Memalart.BTree
