/-
# What the map holds

The map holds a finite map: its tree is whole, the keys in it are the bindings in ascending
order, and `length` is their number.  A call answers as the finite map does and leaves the
map with the finite map after it.
-/

import Memalart.BTree.Map
import Memalart.BTree.Removal
import Memalart.BTree.Search
import Memalart.Lib.Cursor

namespace Memalart.BTree

open Lib Machine

variable {K V : Type} {S : NodeSizes} {A : SelfAllocator} {mem : Memory} {root : Root K V}
  {n c : Node K V} {h addr : Nat}

/-! ## The level of an emptied root -/

@[simp] theorem layout_clearParentLink : layout h n.clearParentLink = layout h n := by
  cases h <;> rfl

@[simp] theorem blocks_clearParentLink : blocks S h n.clearParentLink = blocks S h n := by
  cases h <;> rfl

@[simp] theorem sound_clearParentLink : Sound h n.clearParentLink ↔ Sound h n := by
  cases h <;> rfl

theorem tokens_borrow : root.borrow.tokens = layout root.height root.node := by
  simp [NodeRef.tokens, before, after, Root.borrow]

theorem blocks_borrow : root.borrow.blocks S = blocks S root.height root.node := by
  simp [NodeRef.blocks, pathBlocks, Root.borrow]

/-- A root without keys has one child, which takes its place. -/
theorem ensures_popInternalLevel (hroot : Fits 0 root.borrow) (hheight : 0 < root.height)
    (hlen : root.node.len = 0) (hacc : Accounted S mem (root.borrow.blocks S)) :
    Ensures (root.popInternalLevel S) mem fun root' mem' =>
      Fits 1 root'.borrow ∧ root'.borrow.tokens = root.borrow.tokens ∧
        Accounted S mem' (root'.borrow.blocks S) := by
  obtain ⟨h, n⟩ := root
  obtain ⟨h, rfl⟩ := Nat.exists_eq_succ_of_ne_zero (Nat.ne_of_gt hheight)
  have hsound : Sound (h + 1) n := hroot.sound
  have hkvs : n.kvs = [] := List.length_eq_zero_iff.1 hlen
  have hedges_length := hsound.1
  rw [hkvs, List.length_nil] at hedges_length
  obtain ⟨c, hedges⟩ := List.length_eq_one_iff.1 hedges_length
  have hc : Filled h c := hsound.2.forall c (by rw [hedges]; exact List.mem_singleton_self c)
  have hget : getUnchecked n.edges 0 = .ok c := by
    rw [hedges]
    rfl
  rw [blocks_borrow] at hacc
  simp only [blocks, hedges, List.map_singleton, List.sum_singleton] at hacc
  unfold Root.popInternalLevel
  rw [if_pos hheight, ensures_bind, ensures_ofExcept hget, ensures_bind]
  refine (ensures_deallocNode hacc (.inr rfl)).mono ?_
  rintro _ mem' - hacc'
  rw [ensures_pure]
  refine ⟨⟨⟨trivial, rfl, sound_clearParentLink.2 hc.2, hc.1.2⟩, ?_⟩, ?_, ?_⟩
  · exact (min_le_right _ _).trans ((Nat.succ_le_succ (Nat.zero_le 4)).trans hc.1.1)
  · rw [tokens_borrow, tokens_borrow, layout_clearParentLink]
    simp only [layout, hedges, hkvs, List.map_singleton, List.map_nil, weave_singleton]
    rfl
  · rw [blocks_borrow]
    simpa using hacc'

/-! ## The finite map -/

namespace SelfAllocatedBTreeMap

/-- The keys with their values. -/
def items (map : SelfAllocatedBTreeMap K V) : List (K × V) :=
  map.root.elim [] fun root => bindings root.borrow.tokens

/-- The blocks that the nodes stand in. -/
def blocks (S : NodeSizes) (map : SelfAllocatedBTreeMap K V) : Multiset (Nat × Nat) :=
  map.root.elim 0 fun root => root.borrow.blocks S

end SelfAllocatedBTreeMap

/-- The tree of a map that may be called. -/
structure Kept (S : NodeSizes) (mem : Memory) (map : SelfAllocatedBTreeMap K V) : Prop where
  fits (root : Root K V) : map.root = some root → Fits 1 root.borrow
  length_eq : map.length = map.items.length
  accounted : Accounted S mem (map.blocks S)

/-- The map holds the bindings of a finite map. -/
structure Holds [LinearOrder K] (S : NodeSizes) (mem : Memory) (map : SelfAllocatedBTreeMap K V)
    (m : K → Option V) : Prop extends Kept S mem map where
  lists : Lists map.items m

theorem Kept.new : Kept S .new (.new : SelfAllocatedBTreeMap K V) :=
  ⟨by simp [SelfAllocatedBTreeMap.new], rfl, .new⟩

theorem Kept.of_root {length : Nat} (hfits : Fits 1 root.borrow)
    (hlength : length = (bindings root.borrow.tokens).length)
    (hacc : Accounted S mem (root.borrow.blocks S)) : Kept S mem ⟨some root, length⟩ := by
  refine ⟨?_, hlength, hacc⟩
  rintro root' hroot'
  cases hroot'
  exact hfits

section Calls

variable [LinearOrder K] {map : SelfAllocatedBTreeMap K V} {m : K → Option V} {key : K} {val : V}
  {left right items : List (K × V)}

theorem Holds.new : Holds S .new (.new : SelfAllocatedBTreeMap K V) fun _ => none :=
  ⟨.new, .nil⟩

theorem Holds.of_stands {length : Nat} {e : NodeHandle K V} (hs : Stands 1 root e left right)
    (hlists : Lists (left ++ right) m) (hlength : length = (left ++ right).length)
    (hacc : Accounted S mem (root.borrow.blocks S)) : Holds S mem ⟨some root, length⟩ m := by
  have hroot : Fits 1 root.borrow := by
    rw [← hs.toRoot]
    exact (hs.fits.toRoot (S := S)).1
  rw [hs.append_eq] at hlists hlength
  exact ⟨.of_root hroot hlength hacc, hlists⟩

/-- What is known at a place in the tree. -/
theorem Holds.at_stands {length : Nat} (h : Holds S mem ⟨some root, length⟩ m)
    {e : NodeHandle K V} (hs : Stands 1 root e left right) :
    Lists (left ++ right) m ∧ length = (left ++ right).length := by
  rw [hs.append_eq]
  exact ⟨h.lists, h.length_eq⟩

/-! ## Insertion -/

theorem ensures_insertVacant_none (hA : A.Serves) (hholds : Holds S mem map m)
    (hroot : map.root = none) (key : K) (val : V) :
    Ensures (map.insertVacant A S key none val) mem fun res mem' =>
      ∃ place, res.1 = some place ∧ place.intoKv = .ok (key, val) ∧
        Holds S mem' res.2 (Function.update m key (some val)) := by
  obtain ⟨root, length⟩ := map
  obtain rfl : root = none := hroot
  have hlists : Lists ([] ++ []) m := hholds.lists
  rw [SelfAllocatedBTreeMap.insertVacant, ensures_bind]
  refine (ensures_leafNodeNew hA hholds.accounted).mono ?_
  rintro _ mem' - ⟨addr, rfl, hacc⟩
  have hpush : (⟨addr, none, [], []⟩ : Node K V).pushLeaf (key, val) =
      .ok (⟨addr, none, [(key, val)], []⟩, 0) := rfl
  simp only [ensures_bind]
  rw [ensures_ofExcept hpush, ensures_pure]
  have hfits : Fits 1 (⟨0, ⟨addr, none, [(key, val)], []⟩, []⟩ : NodeRef K V) :=
    ⟨⟨trivial, rfl, rfl, Nat.succ_le_succ (Nat.zero_le 10)⟩, Nat.zero_le _⟩
  have hs : Stands 1 ⟨0, ⟨addr, none, [(key, val)], []⟩⟩ ⟨_, 0⟩ [] [(key, val)] :=
    hfits.stands (Nat.zero_le _)
  refine ⟨_, rfl, rfl, .of_stands hs ?_ rfl hacc⟩
  exact hlists.insert (by simp [Below]) (by simp [Above]) val

theorem ensures_insertVacant_some (hA : A.Serves) {length : Nat}
    (hholds : Holds S mem ⟨some root, length⟩ m) {e : NodeHandle K V}
    (hs : Stands 1 root e left right) (hheight : e.node.height = 0) (hbelow : Below key left)
    (habove : Above key right) (val : V) :
    Ensures (SelfAllocatedBTreeMap.insertVacant A S ⟨some root, length⟩ key (some e) val) mem
      fun res mem' => ∃ place, res.1 = some place ∧ place.intoKv = .ok (key, val) ∧
        Holds S mem' res.2 (Function.update m key (some val)) := by
  obtain ⟨hlists, hlength⟩ := hholds.at_stands hs
  rw [SelfAllocatedBTreeMap.insertVacant, ensures_bind]
  refine (ensures_insertRecursing hA hs hheight hholds.accounted).mono ?_
  rintro place mem' - ⟨root', hplace, hlt, hacc⟩
  rw [ensures_pure]
  refine ⟨place, rfl, hplace.intoKv hlt, ?_⟩
  rw [hplace.toRoot]
  refine .of_stands hplace (hlists.insert hbelow habove val) ?_ hacc
  rw [hlength, List.length_append, List.length_append, List.length_cons, Nat.add_assoc]

/-- What an entry has found, in a map that holds a finite map. -/
inductive EntryOk (S : NodeSizes) (mem : Memory) (map : SelfAllocatedBTreeMap K V)
    (m : K → Option V) (key : K) : Entry K V → Prop
  | occupied {handle : NodeHandle K V} {root : Root K V} {left right : List (K × V)} {val : V}
      (stands : Stands 1 root handle left ((key, val) :: right))
      (idx_lt : handle.idx < handle.node.len) (holds : Holds S mem ⟨some root, map.length⟩ m) :
      EntryOk S mem map m key (.occupied handle)
  | empty (root_eq : map.root = none) (holds : Holds S mem map m) :
      EntryOk S mem map m key (.vacant key none)
  | vacant {e : NodeHandle K V} {root : Root K V} {left right : List (K × V)}
      (root_eq : map.root = some root) (holds : Holds S mem map m) (height : e.node.height = 0)
      (stands : Stands 1 root e left right) (below : Below key left) (above : Above key right) :
      EntryOk S mem map m key (.vacant key (some e))

theorem entry_spec (hholds : Holds S mem map m) (key : K) :
    ∃ entry, map.entry key = .ok entry ∧ EntryOk S mem map m key entry := by
  obtain ⟨root, length⟩ := map
  cases root with
  | none => exact ⟨_, rfl, .empty rfl hholds⟩
  | some root =>
      obtain ⟨result, hsearch, hfinds⟩ :=
        searchTree_spec key (hholds.fits root rfl) hholds.lists.ascending
      cases hfinds with
      | @found handle left items item hlt hs hkey =>
          obtain ⟨k, v⟩ := item
          obtain rfl : k = key := hkey
          refine ⟨.occupied handle, ?_, .occupied hs hlt hholds⟩
          show (_ >>= _) = _
          rw [hsearch]
          rfl
      | @goDown e left right hheight hs hbelow habove =>
          refine ⟨.vacant key (some e), ?_, .vacant rfl hholds hheight hs hbelow habove⟩
          show (_ >>= _) = _
          rw [hsearch]
          rfl

/-- The key of an entry is bound to its value, or not bound. -/
theorem EntryOk.apply_eq {entry : Entry K V} (h : EntryOk S mem map m key entry) :
    (∃ handle val, entry = .occupied handle ∧ m key = some val ∧ handle.intoKv = .ok (key, val)) ∨
      ((∀ handle, entry ≠ .occupied handle) ∧ m key = none) := by
  cases h with
  | occupied stands idx_lt holds =>
      exact .inl ⟨_, _, rfl, (holds.at_stands stands).1.apply_eq, stands.intoKv idx_lt⟩
  | empty root_eq holds =>
      have hlists : Lists ([] ++ []) m := by
        obtain ⟨root, length⟩ := map
        obtain rfl : root = none := root_eq
        exact holds.lists
      exact .inr ⟨by simp, hlists.apply_eq_none (by simp [Below]) (by simp [Above])⟩
  | vacant root_eq holds height stands below above =>
      obtain ⟨root, length⟩ := map
      obtain rfl : root = some _ := root_eq
      exact .inr ⟨by simp, (holds.at_stands stands).1.apply_eq_none below above⟩

/-- `and_modify` changes the value of a key that is bound. -/
theorem andModify_spec {entry : Entry K V} (h : EntryOk S mem map m key entry) (f : V → V) :
    ∃ entry', entry.andModify f = .ok entry' ∧ EntryOk S mem map (modifyAt m key f) key entry' := by
  rcases h.apply_eq with ⟨handle, val, rfl, hval, hkv⟩ | ⟨hvacant, hnone⟩
  · cases h with
    | @occupied _ root left right v stands idx_lt holds =>
        obtain ⟨hlists, hlength⟩ := holds.at_stands stands
        obtain rfl : val = v := Option.some.inj (hval.symm.trans hlists.apply_eq)
        obtain ⟨hlt', hs', hblocks, -, -⟩ := replaceKv_spec (S := S) stands idx_lt (key, f val)
        obtain ⟨-, -, hblocks'⟩ := hs'.fits.toRoot (S := S)
        obtain ⟨-, -, hblocks''⟩ := stands.fits.toRoot (S := S)
        refine ⟨.occupied (handle.replaceKv (key, f val)), ?_, .occupied hs' hlt' ?_⟩
        · show (_ >>= _) = _
          rw [hkv]
          rfl
        · rw [modifyAt_of_some hval]
          refine .of_stands hs' (hlists.replace (f val)) ?_ ?_
          · rw [hlength, List.length_append, List.length_append]
            rfl
          · rw [hblocks', hblocks, ← hblocks'', stands.toRoot]
            exact holds.accounted
  · rw [modifyAt_of_none hnone]
    cases h with
    | occupied => exact absurd rfl (hvacant _)
    | empty root_eq holds => exact ⟨_, rfl, .empty root_eq holds⟩
    | vacant root_eq holds height stands below above =>
        exact ⟨_, rfl, .vacant root_eq holds height stands below above⟩

/-- An entry that is dropped leaves the finite map. -/
theorem EntryOk.release {entry : Entry K V} (h : EntryOk S mem map m key entry) :
    Holds S mem (entry.release map) m := by
  cases h with
  | occupied stands idx_lt holds =>
      rw [Entry.release, stands.toRoot]
      exact holds
  | empty root_eq holds => exact holds
  | vacant root_eq holds => exact holds

/-- `or_insert` gives a key a value unless it has one, and returns its place. -/
theorem ensures_orInsert (hA : A.Serves) {entry : Entry K V} (h : EntryOk S mem map m key entry)
    (default : V) :
    Ensures (map.orInsert A S entry default) mem fun res mem' =>
      ∃ place, res.1 = some place ∧ place.intoKv = .ok (key, (m key).getD default) ∧
        Holds S mem' res.2 (insertDefault m key default) := by
  have hrelease := h.release
  rcases h.apply_eq with ⟨handle, val, rfl, hval, hkv⟩ | ⟨hvacant, hnone⟩
  · rw [SelfAllocatedBTreeMap.orInsert, ensures_pure, hval, Option.getD_some,
      insertDefault_of_some hval]
    exact ⟨handle, rfl, hkv, hrelease⟩
  · rw [hnone, Option.getD_none, insertDefault_of_none hnone]
    cases h with
    | occupied => exact absurd rfl (hvacant _)
    | empty root_eq holds => exact ensures_insertVacant_none hA holds root_eq key default
    | vacant root_eq holds height stands below above =>
        obtain ⟨root, length⟩ := map
        obtain rfl : root = some _ := root_eq
        exact ensures_insertVacant_some hA holds stands height below above default

omit [LinearOrder K] in
theorem ensures_valueAt {res : Option (NodeHandle K V) × SelfAllocatedBTreeMap K V}
    {place : NodeHandle K V} {item : K × V} (hres : res.1 = some place)
    (hplace : place.intoKv = .ok item) :
    Ensures (SelfAllocatedBTreeMap.valueAt res) mem fun res' mem' =>
      res' = (some item.2, res.2) ∧ mem' = mem := by
  obtain ⟨found, map⟩ := res
  obtain rfl : found = some place := hres
  simp only [SelfAllocatedBTreeMap.valueAt, ensures_bind]
  rw [ensures_ofExcept hplace, ensures_pure]
  exact ⟨rfl, rfl⟩

/-- `or_insert` as an operation of the finite map. -/
theorem ensures_getOrInsert (hA : A.Serves) (hholds : Holds S mem map m) (key : K) (default : V) :
    Ensures (map.getOrInsert A S key default) mem fun res mem' =>
      res.1 = some ((m key).getD default) ∧ Holds S mem' res.2 (insertDefault m key default) := by
  obtain ⟨entry, hentry, hok⟩ := entry_spec hholds key
  rw [SelfAllocatedBTreeMap.getOrInsert, ensures_bind, ensures_ofExcept hentry, ensures_bind]
  refine (ensures_orInsert hA hok default).mono ?_
  rintro res mem' - ⟨place, hres, hplace, hholds'⟩
  refine (ensures_valueAt hres hplace).mono ?_
  rintro _ _ - ⟨rfl, rfl⟩
  exact ⟨rfl, hholds'⟩

/-- `and_modify` as an operation of the finite map. -/
theorem andModifyEntry_spec (hholds : Holds S mem map m) (key : K) (f : V → V) :
    ∃ map', map.andModify key f = .ok map' ∧ Holds S mem map' (modifyAt m key f) := by
  obtain ⟨entry, hentry, hok⟩ := entry_spec hholds key
  obtain ⟨entry', hmodify, hok'⟩ := andModify_spec hok f
  refine ⟨entry'.release map, ?_, hok'.release⟩
  show (_ >>= _) = _
  rw [hentry]
  show (entry.andModify f >>= _) = _
  rw [hmodify]
  rfl

/-- `and_modify` and `or_insert`, one after the other. -/
theorem ensures_modifyOrInsert (hA : A.Serves) (hholds : Holds S mem map m) (key : K) (f : V → V)
    (default : V) :
    Ensures (map.modifyOrInsert A S key f default) mem fun res mem' =>
      res.1 = some ((modifyAt m key f key).getD default) ∧
        Holds S mem' res.2 (insertDefault (modifyAt m key f) key default) := by
  obtain ⟨entry, hentry, hok⟩ := entry_spec hholds key
  obtain ⟨entry', hmodify, hok'⟩ := andModify_spec hok f
  rw [SelfAllocatedBTreeMap.modifyOrInsert, ensures_bind, ensures_ofExcept hentry, ensures_bind,
    ensures_ofExcept hmodify, ensures_bind]
  refine (ensures_orInsert hA hok' default).mono ?_
  rintro res mem' - ⟨place, hres, hplace, hholds'⟩
  refine (ensures_valueAt hres hplace).mono ?_
  rintro _ _ - ⟨rfl, rfl⟩
  exact ⟨rfl, hholds'⟩

/-! ## Removal -/

omit [LinearOrder K] in
theorem Marks.bindings_eq {tokens : List (Token K V)} {d : Dormant} {kvs : List (K × V)}
    (hm : Marks tokens d kvs left right) : bindings tokens = left ++ right := by
  obtain ⟨-, T, T', rfl, rfl, rfl⟩ := hm
  rw [bindings_append, bindings_leaf, List.append_assoc, ← List.append_assoc (kvs.take d.idx),
    List.take_append_drop]

theorem ensures_removeOccupied {length : Nat} (hholds : Holds S mem ⟨some root, length⟩ m)
    {handle : NodeHandle K V} (hs : Stands 1 root handle left ((key, val) :: right))
    (hlt : handle.idx < handle.node.len) :
    Ensures (SelfAllocatedBTreeMap.removeOccupied S ⟨some root, length⟩ handle) mem fun res mem' =>
      res.1 = (key, val) ∧ Holds S mem' res.2 (Function.update m key none) := by
  obtain ⟨hlists, hlength⟩ := hholds.at_stands hs
  have hlength' : length - 1 = (left ++ right).length := by
    rw [hlength, List.length_append, List.length_append, List.length_cons]
    rfl
  rw [SelfAllocatedBTreeMap.removeOccupied, ensures_bind]
  refine (ensures_removeKvTracking hs hlt hholds.accounted).mono ?_
  rintro removed mem' - ⟨hkv, hshrunk⟩
  obtain ⟨kvs, hmarks⟩ := hshrunk.marks
  have hbindings := hmarks.bindings_eq
  by_cases hemptied : removed.emptied = true
  · obtain ⟨hheight, hlen⟩ := hshrunk.emptied hemptied
    have hfits : Fits 0 removed.root.borrow := by
      have hfits := hshrunk.fits
      rwa [hemptied] at hfits
    simp only [if_pos hemptied, ensures_bind]
    refine (ensures_popInternalLevel hfits hheight hlen hshrunk.accounted).mono ?_
    rintro root' mem'' - ⟨hfits', htokens, hacc⟩
    rw [ensures_pure]
    rw [← htokens] at hbindings
    refine ⟨hkv, .of_root hfits' ?_ hacc, ?_⟩
    · rw [hbindings]
      exact hlength'
    · show Lists (bindings root'.borrow.tokens) _
      rw [hbindings]
      exact hlists.erase
  · have hfits : Fits 1 removed.root.borrow := by
      have hfits := hshrunk.fits
      rwa [Bool.eq_false_of_not_eq_true hemptied] at hfits
    simp only [if_neg hemptied, ensures_pure]
    refine ⟨hkv, .of_root hfits ?_ hshrunk.accounted, ?_⟩
    · rw [hbindings]
      exact hlength'
    · show Lists (bindings removed.root.borrow.tokens) _
      rw [hbindings]
      exact hlists.erase

/-- `remove` takes the key out of the finite map. -/
theorem ensures_remove (hholds : Holds S mem map m) (key : K) :
    Ensures (map.remove S key) mem fun res mem' =>
      res.1 = m key ∧ Holds S mem' res.2 (Function.update m key none) := by
  have habsent (hnone : m key = none) : Function.update m key none = m :=
    Function.update_eq_self_iff.2 hnone.symm
  unfold SelfAllocatedBTreeMap.remove
  obtain ⟨root, length⟩ := map
  cases root with
  | none =>
      have hlists : Lists ([] ++ []) m := hholds.lists
      have hnone : m key = none := hlists.apply_eq_none (by simp [Below]) (by simp [Above])
      simp only [ensures_pure]
      rw [habsent hnone]
      exact ⟨hnone.symm, hholds⟩
  | some root =>
      obtain ⟨result, hsearch, hfinds⟩ :=
        searchTree_spec key (hholds.fits root rfl) hholds.lists.ascending
      simp only [ensures_bind]
      rw [ensures_ofExcept hsearch]
      cases hfinds with
      | @found handle left items item hlt hs hkey =>
          obtain ⟨k, v⟩ := item
          obtain rfl : k = key := hkey
          obtain ⟨hlists, -⟩ := hholds.at_stands hs
          simp only [ensures_bind]
          refine (ensures_removeOccupied hholds hs hlt).mono ?_
          rintro ⟨_, map'⟩ mem' - ⟨rfl, hholds'⟩
          rw [ensures_pure]
          exact ⟨hlists.apply_eq.symm, hholds'⟩
      | @goDown e left right hheight hs hbelow habove =>
          obtain ⟨hlists, -⟩ := hholds.at_stands hs
          have hnone : m key = none := hlists.apply_eq_none hbelow habove
          simp only [ensures_pure]
          rw [habsent hnone]
          exact ⟨hnone.symm, hholds⟩

end Calls

/-! ## Iteration -/

theorem Stands.yields {front : LazyLeafHandle K V} {e : NodeHandle K V} {left right : List (K × V)}
    (hforce : front.force = .ok e) (hs : Stands 1 root e left right) :
    Yields Iter.next ⟨some front, right.length⟩ right := by
  induction right generalizing front e left with
  | nil => exact .done rfl rfl
  | cons item items ih =>
      obtain ⟨kv, hnext, hlt, hkv⟩ := nextKv_next hs
      obtain ⟨e', hedge, -, he'⟩ := nextLeafEdge_spec hkv hlt
      have hforce' : (LazyLeafHandle.edge e').force = .ok e' := rfl
      refine .next ?_ (ih hforce' he')
      have hpos : (item :: items).length ≠ 0 := Nat.succ_ne_zero _
      rw [Iter.next]
      simp only [if_neg hpos]
      show (front.force >>= _) = _
      rw [hforce]
      show (e.nextKv >>= _) = _
      rw [hnext]
      show (kv.nextLeafEdge >>= _) = _
      rw [hedge]
      show (kv.intoKv >>= _) = _
      rw [hkv.intoKv hlt]
      rfl

/-- The first leaf edge of a map stands before all its bindings. -/
theorem Kept.firstLeafEdge {root : Root K V} {length : Nat}
    (hkept : Kept S mem (⟨some root, length⟩ : SelfAllocatedBTreeMap K V)) :
    ∃ e left, root.borrow.firstLeafEdge = .ok e ∧
      Stands 1 root.borrow.toRoot e left (bindings root.borrow.tokens) ∧
      length = (bindings root.borrow.tokens).length := by
  obtain ⟨e, he, -, hs⟩ := firstLeafEdge_spec (hkept.fits root rfl)
  have hright : bindings root.borrow.tokens =
      bindings (layout root.height root.node) ++ bindings (after root.height []) := by
    rw [tokens_borrow, after, bindings_nil, List.append_nil]
  exact ⟨e, _, he, hright ▸ hs, hkept.length_eq⟩

/-- The iterator yields the bindings in their order. -/
theorem Kept.yields {map : SelfAllocatedBTreeMap K V} (hkept : Kept S mem map) :
    Yields Iter.next map.iter map.items := by
  obtain ⟨root, length⟩ := map
  cases root with
  | none => exact .done rfl rfl
  | some root =>
      obtain ⟨e, left, he, hs, hlength⟩ := hkept.firstLeafEdge
      show Yields Iter.next ⟨some (.root root.borrow), length⟩ (bindings root.borrow.tokens)
      rw [hlength]
      have hforce : (LazyLeafHandle.root root.borrow).force = .ok e := he
      exact Stands.yields hforce hs

end Memalart.BTree
