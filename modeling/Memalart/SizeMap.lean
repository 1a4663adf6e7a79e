/-
# The tree of extra-large sizes

The interface through which the allocator uses its tree, provided by the B-tree map.  The map
only compares addresses with each other, so here it runs on addresses of its own, and a table
says where the allocator has put each node.
-/

import Memalart.BTree.Counters
import Memalart.BTree.NodeTraffic
import Memalart.Lib.Lookup
import Memalart.World

namespace Memalart

open Lib Machine BTree

/-- A map from sizes to numbers with the history of its nodes, and the place of each node. -/
structure SizeMap where
  map : SelfAllocatedBTreeMap Nat Nat
  memory : Memory
  place : Nat → Nat
  holds : ∃ m, Holds usizeNodeSizes memory map m

namespace SizeMap

variable {t : SizeMap} {m : Nat → Option Nat}

def empty : SizeMap := ⟨.new, .new, id, _, .new⟩

def entries (t : SizeMap) : List (Nat × Nat) := t.map.items

/-- The nodes where the allocator has put them. -/
def nodes (t : SizeMap) : List (Nat × Nat) :=
  (standing t.memory.log).map fun b => (t.place b.1, b.2)

/-- The two slots of the map, with counters that do not wrap. -/
def selfAllocatedMemory (t : SizeMap) : List (Nat × Nat) :=
  [t.memory.allocatedMemory.first.1, t.memory.allocatedMemory.second.1].map fun size =>
    (size, number size (standing t.memory.log))

/-! ## The calls -/

/-- The map after `entry(key).and_modify(f)`. -/
def modified (t : SizeMap) (key : Nat) (f : Nat → Nat) : SelfAllocatedBTreeMap Nat Nat :=
  match t.map.andModify key f with
  | .ok map => map
  | .error _ => t.map

theorem holds_modified (h : Holds usizeNodeSizes t.memory t.map m) (key : Nat) (f : Nat → Nat) :
    Holds usizeNodeSizes t.memory (t.modified key f) (modifyAt m key f) := by
  obtain ⟨map, hmap, hholds⟩ := andModifyEntry_spec h key f
  rw [modified, hmap]
  exact hholds

def modify (key : Nat) (f : Nat → Nat) (t : SizeMap) : SizeMap where
  map := t.modified key f
  memory := t.memory
  place := t.place
  holds := t.holds.elim fun _ h => ⟨_, holds_modified h key f⟩

/-- The map and its memory after `entry(key).or_insert(1)`. -/
def inserted (t : SizeMap) (key : Nat) : SelfAllocatedBTreeMap Nat Nat × Memory :=
  match t.map.getOrInsert (bumpAllocator 0) usizeNodeSizes key 1 t.memory with
  | .ok (res, memory) => (res.2, memory)
  | .error (_, memory) => (t.map, memory)

theorem inserted_spec (h : Holds usizeNodeSizes t.memory t.map m) (key : Nat) :
    Holds usizeNodeSizes (t.inserted key).2 (t.inserted key).1 (insertDefault m key 1) ∧
      t.memory.Grows (t.inserted key).2 := by
  obtain ⟨res, memory, hreturns, -, hholds⟩ :=
    ensures_getOrInsert (bumpAllocator_serves 0) h key 1
  have hgrows := grows_getOrInsert (A := bumpAllocator 0) (S := usizeNodeSizes) t.map key 1 t.memory
  rw [hreturns.after_eq] at hgrows
  rw [inserted, show _ = _ from hreturns]
  exact ⟨hholds, hgrows⟩

/-- The nodes that it has allocated, the latest first. -/
def newNodes (t : SizeMap) (key : Nat) : List (Nat × Nat) :=
  (standing (t.inserted key).2.log).take
    ((standing (t.inserted key).2.log).length - (standing t.memory.log).length)

theorem standing_inserted (t : SizeMap) (key : Nat) :
    standing (t.inserted key).2.log = t.newNodes key ++ standing t.memory.log :=
  t.holds.elim fun _ h => (inserted_spec h key).2.standing_eq

/-- The sizes of the nodes, in the order in which they are allocated. -/
def nodesToInsert (key : Nat) (t : SizeMap) : List Nat := (t.newNodes key).reverse.map Prod.snd

/-- `entry(key).or_insert(1)`, when the allocator has put the new nodes at these addresses. -/
def insertOne (key : Nat) (ptrs : List Nat) (t : SizeMap) : SizeMap where
  map := (t.inserted key).1
  memory := (t.inserted key).2
  place addr := ((((t.newNodes key).reverse.map Prod.fst).zip ptrs).lookup addr).getD (t.place addr)
  holds := t.holds.elim fun _ h => ⟨_, (inserted_spec h key).1⟩

/-- `*entry(key).or_insert(1) = number`; the allocator inserts a 1. -/
def insert (key number : Nat) (ptrs : List Nat) (t : SizeMap) : SizeMap :=
  (t.insertOne key ptrs).modify key fun _ => number

/-- The map and its memory after `remove(key)`. -/
def removed (t : SizeMap) (key : Nat) : SelfAllocatedBTreeMap Nat Nat × Memory :=
  match t.map.remove usizeNodeSizes key t.memory with
  | .ok (res, memory) => (res.2, memory)
  | .error (_, memory) => (t.map, memory)

theorem removed_spec (h : Holds usizeNodeSizes t.memory t.map m) (key : Nat) :
    Holds usizeNodeSizes (t.removed key).2 (t.removed key).1 (Function.update m key none) ∧
      t.memory.Shrinks (t.removed key).2 := by
  obtain ⟨res, memory, hreturns, -, hholds⟩ := ensures_remove h key
  have hshrinks := shrinks_remove (S := usizeNodeSizes) t.map key t.memory
  rw [hreturns.after_eq] at hshrinks
  rw [removed, show _ = _ from hreturns]
  exact ⟨hholds, hshrinks⟩

/-- `remove(key)`, with the nodes that merging has freed. -/
def remove (key : Nat) (t : SizeMap) : SizeMap × List (Nat × Nat) :=
  (⟨(t.removed key).1, (t.removed key).2, t.place,
      t.holds.elim fun _ h => ⟨_, (removed_spec h key).1⟩⟩,
    ((standing t.memory.log).diff (standing (t.removed key).2.log)).map
      fun b => (t.place b.1, b.2))

/-! ## The laws -/

theorem entries_modify (key : Nat) (f : Nat → Nat) (t : SizeMap) :
    entries (modify key f t) =
      (entries t).map fun e => if e.1 = key then (e.1, f e.2) else e := by
  obtain ⟨m, h⟩ := t.holds
  exact (holds_modified h key f).lists.unique (h.lists.modify key f)

theorem entries_insert (key number : Nat) (ptrs : List Nat) (t : SizeMap)
    (hnone : (entries t).lookup key = none) :
    (entries (insert key number ptrs t)).Perm ((key, number) :: entries t) := by
  obtain ⟨m, h⟩ := t.holds
  have hkey : m key = none := by
    rw [Option.eq_none_iff_forall_ne_some]
    intro val hval
    rw [← h.lists.mem_iff, ← lookup_eq_some_iff h.lists.nodup_keys] at hval
    exact Option.some_ne_none val (hval.symm.trans hnone)
  have hone := (inserted_spec h key).1
  have hlists := (holds_modified (t := t.insertOne key ptrs) hone key fun _ => number).lists
  rw [insertDefault_of_none hkey, modifyAt_of_some (Function.update_self _ _ _),
    Function.update_idem] at hlists
  exact h.lists.perm_cons hkey hlists

theorem nodes_insert (key number : Nat) (ptrs : List Nat) (t : SizeMap)
    (hlen : ptrs.length = (nodesToInsert key t).length) :
    (nodes (insert key number ptrs t)).Perm (ptrs.zip (nodesToInsert key t) ++ nodes t) := by
  obtain ⟨m, h⟩ := t.holds
  have hacc := (inserted_spec h key).1.accounted
  have hdistinct := hacc.distinct
  rw [← hacc.live, ← coe_standing, standing_inserted, Multiset.map_coe, Multiset.coe_nodup,
    List.map_append, List.nodup_append'] at hdistinct
  obtain ⟨hnew, -, hdisjoint⟩ := hdistinct
  have hkeys : ((t.newNodes key).reverse.map Prod.fst).Nodup := by
    rwa [List.map_reverse, List.nodup_reverse]
  have hold : (standing t.memory.log).map (fun b => ((t.insertOne key ptrs).place b.1, b.2)) =
      nodes t := by
    refine List.map_congr_left fun b hb => ?_
    have hnot : b.1 ∉ (t.newNodes key).reverse.map Prod.fst := by
      rw [List.map_reverse, List.mem_reverse]
      exact fun hmem => hdisjoint hmem (List.mem_map_of_mem hb)
    show (((_ : Option Nat).getD (t.place b.1)), b.2) = _
    rw [lookup_zip_of_notMem hnot, Option.getD_none]
  have hplaces : (t.newNodes key).reverse.map (fun b => ((t.insertOne key ptrs).place b.1, b.2)) =
      ptrs.zip (nodesToInsert key t) := by
    have hzip := map_lookup_zip hkeys (by rw [hlen, nodesToInsert, List.length_map, List.length_map])
      t.place
    rw [List.map_map] at hzip
    conv_rhs => rw [← hzip, nodesToInsert, List.zip_map']
    rfl
  show List.Perm ((standing (t.inserted key).2.log).map _) _
  rw [standing_inserted, List.map_append, ← hplaces, ← hold]
  exact ((List.reverse_perm _).symm.map _).append_right _

theorem entries_remove (key : Nat) (t : SizeMap) :
    entries (remove key t).1 = (entries t).filter fun e => e.1 ≠ key := by
  obtain ⟨m, h⟩ := t.holds
  exact (removed_spec h key).1.lists.unique (h.lists.remove key)

theorem nodes_remove (key : Nat) (t : SizeMap) :
    (nodes t).Perm ((remove key t).2 ++ nodes (remove key t).1) := by
  obtain ⟨m, h⟩ := t.holds
  rw [remove, nodes, nodes, ← List.map_append]
  exact (removed_spec h key).2.perm.map _

/-- The two slots account for all nodes. -/
theorem total_selfAllocatedMemory (size : Nat) (t : SizeMap) (hsize : size ≠ 0) :
    UsedObjects.total size ((selfAllocatedMemory t).map fun e => (e.2, e.1)) =
      (nodes t).countP fun node => recommendedSize node.2 = size := by
  obtain ⟨m, h⟩ := t.holds
  have hcounts := h.accounted.counts usizeNodeSizes_exact
  rw [← h.accounted.live, ← coe_standing] at hcounts
  have hexact : ∀ b ∈ standing t.memory.log,
      decide (recommendedSize b.2 = size) = true ↔ decide (b.2 = size) = true := by
    intro b hb
    rw [usizeNodeSizes_exact.recommendedSize_eq (hcounts.covers b hb).1]
  rw [nodes, List.countP_map]
  refine Eq.trans ?_ (List.countP_congr hexact).symm
  exact (hcounts.number_slots hsize)

/-- What the map reports under a size is this number as a `u32`. -/
theorem reported_eq (size : Nat) (t : SizeMap) (hsize : size ≠ 0) :
    t.memory.allocatedMemory.reported size =
      UsedObjects.total size ((selfAllocatedMemory t).map fun e => (e.2, e.1)) % u32Range := by
  obtain ⟨m, h⟩ := t.holds
  have hcounts := h.accounted.counts usizeNodeSizes_exact
  rw [hcounts.reported usizeNodeSizes_exact, ← h.accounted.live, ← coe_standing]
  rw [← h.accounted.live, ← coe_standing] at hcounts
  exact congrArg (· % u32Range) (hcounts.number_slots hsize).symm

/-- The bindings are what `iter` yields. -/
theorem yields_entries (t : SizeMap) : Yields Iter.next t.map.iter t.entries :=
  t.holds.elim fun _ h => h.yields

theorem size_of_standing {memory : Memory} {map : SelfAllocatedBTreeMap Nat Nat}
    (h : Holds usizeNodeSizes memory map m) {b : Nat × Nat} (hb : b ∈ standing memory.log) :
    1 ≤ b.2 ∧ b.2 ≤ commonSizeMax := by
  have hcounts := h.accounted.counts usizeNodeSizes_exact
  rw [← h.accounted.live, ← coe_standing] at hcounts
  rcases (hcounts.covers b hb).1 with hsize | hsize
  · rw [hsize]
    decide
  · rw [hsize]
    decide

end SizeMap

/-- The map from sizes to counts. -/
def sizeMap : SizeTree where
  Tree := SizeMap
  empty := SizeMap.empty
  entries := SizeMap.entries
  nodes := SizeMap.nodes
  selfAllocatedMemory := SizeMap.selfAllocatedMemory
  modify := SizeMap.modify
  nodesToInsert := SizeMap.nodesToInsert
  insert := SizeMap.insert
  remove := SizeMap.remove
  entries_empty := rfl
  nodes_empty := rfl
  entries_modify := SizeMap.entries_modify
  nodes_modify _ _ _ := rfl
  entries_insert := SizeMap.entries_insert
  nodes_insert := SizeMap.nodes_insert
  entries_remove := SizeMap.entries_remove
  nodes_remove := SizeMap.nodes_remove
  total_selfAllocatedMemory := SizeMap.total_selfAllocatedMemory
  node_size t node h := by
    obtain ⟨b, hb, rfl⟩ := List.mem_map.1 h
    obtain ⟨m, hholds⟩ := t.holds
    have hsize := SizeMap.size_of_standing hholds hb
    exact hsize
  nodesToInsert_size key t size h := by
    obtain ⟨b, hb, rfl⟩ := List.mem_map.1 h
    have hmem : b ∈ standing (t.inserted key).2.log := by
      rw [t.standing_inserted]
      exact List.mem_append_left _ (List.mem_reverse.1 hb)
    exact t.holds.elim fun _ hholds =>
      SizeMap.size_of_standing (SizeMap.inserted_spec hholds key).1 hmem

/-- The default allocator of the crate: a lock-free manager, whose cache-padded head
and reference count take 256 bytes, and slow paths that check for incoming
pointers. -/
def lockFreeParams : Params where
  managerSize := 256
  managerSize_le := by decide
  shouldAutoCheck := true
  tree := sizeMap

end Memalart
