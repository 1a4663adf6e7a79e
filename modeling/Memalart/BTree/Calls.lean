/-
# Sequences of calls

The map after any sequence of calls holds the finite map after the same calls, and has
answered as that does.  Its tree is balanced and linked, and its iterator yields the bindings
in ascending order.
-/

import Mathlib.Tactic.IntervalCases
import Memalart.BTree.Clearing

namespace Memalart.BTree

open Lib Machine

variable {K V : Type} {S : NodeSizes} {A : SelfAllocator} {mem : Memory} {h : Nat} {n : Node K V}

/-- A call of the map. -/
inductive Call (K V : Type)
  | orInsert (key : K) (default : V)
  | andModify (key : K) (f : V → V)
  | modifyOrInsert (key : K) (f : V → V) (default : V)
  | remove (key : K)
  | clear

section Calls

variable [LinearOrder K] {map : SelfAllocatedBTreeMap K V} {m : K → Option V}

/-- What the map answers, and the map after the call. -/
def Call.run (A : SelfAllocator) (S : NodeSizes) (map : SelfAllocatedBTreeMap K V) :
    Call K V → Heap (Option V × SelfAllocatedBTreeMap K V)
  | orInsert key default => map.getOrInsert A S key default
  | andModify key f => do
      let map ← ofExcept (map.andModify key f)
      pure (none, map)
  | modifyOrInsert key f default => map.modifyOrInsert A S key f default
  | remove key => map.remove S key
  | clear => do
      let map ← map.clear S
      pure (none, map)

/-- What a finite map answers, and the finite map after the call. -/
def Call.apply (m : K → Option V) : Call K V → Option V × (K → Option V)
  | orInsert key default => (some ((m key).getD default), insertDefault m key default)
  | andModify key f => (none, modifyAt m key f)
  | modifyOrInsert key f default =>
      (some ((modifyAt m key f key).getD default), insertDefault (modifyAt m key f) key default)
  | remove key => (m key, Function.update m key none)
  | clear => (none, fun _ => none)

/-- The answers to a sequence of calls, and the map after them. -/
def runCalls (A : SelfAllocator) (S : NodeSizes) :
    List (Call K V) → SelfAllocatedBTreeMap K V → Heap (List (Option V) × SelfAllocatedBTreeMap K V)
  | [], map => pure ([], map)
  | call :: rest, map => do
      let (answer, map) ← call.run A S map
      let (answers, map) ← runCalls A S rest map
      pure (answer :: answers, map)

/-- The same for a finite map. -/
def applyCalls : List (Call K V) → (K → Option V) → List (Option V) × (K → Option V)
  | [], m => ([], m)
  | call :: rest, m =>
      let (answers, m') := applyCalls rest (call.apply m).2
      ((call.apply m).1 :: answers, m')

/-- Each call is refined. -/
theorem Call.ensures_run (hA : A.Serves) (hholds : Holds S mem map m) (call : Call K V) :
    Ensures (call.run A S map) mem fun res mem' =>
      res.1 = (call.apply m).1 ∧ Holds S mem' res.2 (call.apply m).2 := by
  cases call with
  | orInsert key default => exact ensures_getOrInsert hA hholds key default
  | andModify key f =>
      obtain ⟨map', hmap', hholds'⟩ := andModifyEntry_spec hholds key f
      rw [run, ensures_bind, ensures_ofExcept hmap', ensures_pure]
      exact ⟨rfl, hholds'⟩
  | modifyOrInsert key f default => exact ensures_modifyOrInsert hA hholds key f default
  | remove key => exact ensures_remove hholds key
  | clear =>
      rw [run, ensures_bind]
      refine (ensures_clear hholds.toKept).mono ?_
      rintro _ mem' - ⟨rfl, hkept⟩
      exact ensures_pure.2 ⟨rfl, hkept, .nil⟩

theorem ensures_runCalls (hA : A.Serves) (hholds : Holds S mem map m) (calls : List (Call K V)) :
    Ensures (runCalls A S calls map) mem fun res mem' =>
      res.1 = (applyCalls calls m).1 ∧ Holds S mem' res.2 (applyCalls calls m).2 := by
  induction calls generalizing mem map m with
  | nil => exact ensures_pure.2 ⟨rfl, hholds⟩
  | cons call rest ih =>
      rw [runCalls, ensures_bind]
      refine (call.ensures_run hA hholds).mono ?_
      rintro ⟨answer, map'⟩ mem' - ⟨hanswer, hholds'⟩
      rw [ensures_bind]
      refine (ih hholds').mono ?_
      rintro ⟨answers, map''⟩ mem'' - ⟨hanswers, hholds''⟩
      rw [ensures_pure]
      refine ⟨?_, hholds''⟩
      rw [applyCalls]
      exact congrArg₂ List.cons hanswer hanswers

end Calls

/-! ## The tree -/

/-- All leaves are at depth `height`, nodes other than the root have their numbers of keys in
bounds, a root above the leaves has a key, and links lead back to the edge that holds the
node. -/
structure Root.Balanced (root : Root K V) : Prop where
  sound : Sound root.height root.node
  link : root.node.parent = none
  len_le : root.node.len ≤ capacity
  one_le_len : 0 < root.height → 1 ≤ root.node.len

theorem Fits.balanced {root : Root K V} (h : Fits 1 root.borrow) : root.Balanced where
  sound := h.sound
  link := h.link
  len_le := h.len_le
  one_le_len hheight := (le_min hheight (Nat.le_refl 1)).trans h.le_len

variable [LinearOrder K]

/-- The map refines the finite map, and its tree stays balanced. -/
theorem runCalls_refines (hA : A.Serves) (calls : List (Call K V)) :
    Ensures (runCalls A S calls .new) .new fun res _ =>
      res.1 = (applyCalls calls fun _ => none).1 ∧
        (∃ items, Yields Iter.next res.2.iter items ∧
          Lists items (applyCalls calls fun _ => none).2 ∧ res.2.len = items.length) ∧
        ∀ root, res.2.root = some root → root.Balanced := by
  refine (ensures_runCalls hA .new calls).mono ?_
  rintro ⟨answers, map⟩ mem - ⟨hanswers, hholds⟩
  refine ⟨hanswers, ⟨map.items, hholds.yields, hholds.lists, hholds.length_eq⟩, ?_⟩
  intro root hroot
  exact (hholds.fits root hroot).balanced

/-- Twenty keys split the root and then a leaf; without two of them, two leaves are merged. -/
def splitAndMerge : List (Call Nat Nat) :=
  (List.range 20).map (fun key => .orInsert key (10 * key)) ++ [.remove 0, .remove 1]

theorem lists_splitAndMerge : Lists ((List.range' 2 18).map fun key => (key, 10 * key))
    (applyCalls splitAndMerge fun _ => none).2 := by
  refine ⟨by simp [Ascending, List.range'], fun key val => ?_⟩
  have happly : (applyCalls splitAndMerge fun _ => none).2 key =
      if 2 ≤ key ∧ key < 20 then some (10 * key) else none := by
    by_cases hkey : key < 20
    · interval_cases key <;> rfl
    · simp (disch := omega) [splitAndMerge, List.range_succ, applyCalls, Call.apply, insertDefault,
        Function.update_of_ne, hkey]
  rw [happly]
  simp only [List.mem_map, List.mem_range'_1, Prod.mk.injEq, Option.ite_none_right_eq_some,
    Option.some.injEq]
  grind

theorem runCalls_refines_splitAndMerge :
    Ensures (runCalls (bumpAllocator 4096) ⟨192, 288⟩ splitAndMerge .new) .new fun res _ =>
      res.1 = (List.range 20).map (fun key => some (10 * key)) ++ [some 0, some 10] ∧
        Yields Iter.next res.2.iter ((List.range' 2 18).map fun key => (key, 10 * key)) ∧
        res.2.len = 18 ∧ ∀ root, res.2.root = some root → root.Balanced := by
  refine (runCalls_refines (bumpAllocator_serves 4096) _).mono ?_
  rintro res mem' - ⟨hanswers, ⟨items, hyields, hlists, hlen⟩, hbalanced⟩
  obtain rfl := hlists.unique lists_splitAndMerge
  exact ⟨hanswers.trans (by decide), hyields, hlen.trans (by decide), hbalanced⟩

end Memalart.BTree
