/-
# Counting extra-large blocks on many allocators

An extra-large block has no metadata: whichever thread frees it unmaps it and
changes the counts of its own allocator.  Here any number of allocators allocate
and free extra-large blocks in any order, each with its own size tree.
-/

import Memalart.SizeMap
import Memalart.Lib.Lookup
import Memalart.Lib.Run
import Mathlib.Data.List.Count

namespace Memalart.ExtraLarge

open Memalart.Lib

/-! ## The count of one size -/

section Tree

variable (T : SizeTree)

/-- The number that a tree stores for a size; an absent key counts as zero. -/
def count (size : Nat) (t : T.Tree) : Nat := ((T.entries t).lookup size).getD 0

/-- `entry(size).and_modify(+ 1).or_insert(1)`, with the nodes that an insertion
needs. -/
def countBlock (size : Nat) (nodes : List Nat) (t : T.Tree) : T.Tree :=
  match (T.entries t).lookup size with
  | some _ => T.modify size (· + 1) t
  | none => T.insert size 1 nodes t

/-- `entry(size).and_modify(- 1)`, and the removal of a count that has come to zero. -/
def uncountBlock (size : Nat) (t : T.Tree) : T.Tree :=
  match (T.entries t).lookup size with
  | none => t
  | some count =>
      let t' := T.modify size (· - 1) t
      if count = 1 then (T.remove size t').1 else t'

/-- No size is bound twice, and no count is zero. -/
structure WellFormed (t : T.Tree) : Prop where
  nodup : ((T.entries t).map Prod.fst).Nodup
  pos : ∀ e ∈ T.entries t, 1 ≤ e.2

variable {T} {t : T.Tree} {size : Nat}

theorem keys_modify (size : Nat) (f : Nat → Nat) (t : T.Tree) :
    (T.entries (T.modify size f t)).map Prod.fst = (T.entries t).map Prod.fst := by
  rw [T.entries_modify]
  exact map_fst_update size f

theorem lookup_modify (size : Nat) (f : Nat → Nat) (t : T.Tree) (s : Nat) :
    (T.entries (T.modify size f t)).lookup s =
      if s = size then ((T.entries t).lookup s).map f else (T.entries t).lookup s := by
  rw [T.entries_modify]
  exact lookup_map_update size f s

theorem WellFormed.empty : WellFormed T T.empty := by
  constructor <;> simp [T.entries_empty]

/-- What counting a block does. -/
theorem WellFormed.countBlock (h : WellFormed T t) (size : Nat) (nodes : List Nat) :
    WellFormed T (countBlock T size nodes t) ∧
      ∀ s, count T s (ExtraLarge.countBlock T size nodes t) =
        if s = size then count T s t + 1 else count T s t := by
  unfold ExtraLarge.countBlock
  cases hlookup : (T.entries t).lookup size with
  | some n =>
      refine ⟨⟨?_, ?_⟩, ?_⟩
      · rw [keys_modify]
        exact h.nodup
      · intro e he
        rw [T.entries_modify, List.mem_map] at he
        obtain ⟨e', he', rfl⟩ := he
        have hpos := h.pos e' he'
        split
        · exact Nat.le_add_left 1 _
        · exact hpos
      · intro s
        rw [count, lookup_modify]
        by_cases hs : s = size
        · subst hs
          simp [count, hlookup]
        · rw [if_neg hs, if_neg hs, count]
  | none =>
      have hperm := T.entries_insert size 1 nodes t hlookup
      have hnot : size ∉ (T.entries t).map Prod.fst := by
        intro hmem
        obtain ⟨⟨k, n⟩, hbinding, rfl⟩ := List.mem_map.1 hmem
        rw [(lookup_eq_some_iff h.nodup).2 hbinding] at hlookup
        cases hlookup
      have hcons : (((size, 1) :: T.entries t).map Prod.fst).Nodup :=
        List.nodup_cons.2 ⟨hnot, h.nodup⟩
      have hnodup := (hperm.map Prod.fst).nodup_iff.2 hcons
      refine ⟨⟨hnodup, ?_⟩, ?_⟩
      · intro e he
        rcases List.mem_cons.1 (hperm.mem_iff.1 he) with rfl | he
        · exact le_rfl
        · exact h.pos e he
      · intro s
        rw [count, lookup_congr_of_perm hperm hnodup]
        by_cases hs : s = size
        · subst hs
          simp [count, hlookup]
        · rw [lookup_cons_of_ne hs, if_neg hs, count]

/-- What uncounting a block does: nothing, where there is no entry. -/
theorem WellFormed.uncountBlock (h : WellFormed T t) (size : Nat) :
    WellFormed T (uncountBlock T size t) ∧
      ∀ s, count T s (ExtraLarge.uncountBlock T size t) =
        if s = size then count T s t - 1 else count T s t := by
  unfold ExtraLarge.uncountBlock
  cases hlookup : (T.entries t).lookup size with
  | none =>
      refine ⟨h, fun s => ?_⟩
      by_cases hs : s = size
      · subst hs
        simp [count, hlookup]
      · rw [if_neg hs]
  | some n =>
      have hmem := (lookup_eq_some_iff h.nodup).1 hlookup
      have hn : 1 ≤ n := h.pos _ hmem
      have hnodup : ((T.entries (T.modify size (· - 1) t)).map Prod.fst).Nodup := by
        rw [keys_modify]
        exact h.nodup
      have hlookup' : ∀ s, (T.entries (T.modify size (· - 1) t)).lookup s =
          if s = size then some (n - 1) else (T.entries t).lookup s := by
        intro s
        rw [lookup_modify]
        by_cases hs : s = size
        · subst hs
          simp [hlookup]
        · rw [if_neg hs, if_neg hs]
      by_cases hone : n = 1
      · simp only [if_pos hone]
        refine ⟨⟨?_, ?_⟩, ?_⟩
        · rw [T.entries_remove]
          exact nodup_keys_filter hnodup _
        · intro e he
          rw [T.entries_remove, List.mem_filter] at he
          obtain ⟨he, hne⟩ := he
          rw [← lookup_eq_some_iff hnodup, hlookup', if_neg (by simpa using hne),
            lookup_eq_some_iff h.nodup] at he
          exact h.pos e he
        · intro s
          rw [count, T.entries_remove, lookup_filter_ne, hlookup']
          by_cases hs : s = size
          · subst hs
            simp [count, hlookup, hone]
          · rw [if_neg hs, if_neg hs, if_neg hs, count]
      · simp only [if_neg hone]
        refine ⟨⟨hnodup, ?_⟩, ?_⟩
        · intro e he
          rw [← lookup_eq_some_iff hnodup, hlookup'] at he
          by_cases hs : e.1 = size
          · rw [if_pos hs] at he
            have := Option.some.inj he
            omega
          · rw [if_neg hs, lookup_eq_some_iff h.nodup] at he
            exact h.pos e he
        · intro s
          rw [count, hlookup']
          by_cases hs : s = size
          · subst hs
            simp [count, hlookup]
          · rw [if_neg hs, if_neg hs, count]

end Tree

/-! ## Any number of allocators -/

universe u

variable {T : SizeTree} {Id : Type u}

/-- A live extra-large block and the allocator that allocated it. -/
structure Block (Id : Type u) where
  owner : Id
  ptr : Nat
  size : Nat
deriving DecidableEq

structure System (T : SizeTree) (Id : Type u) where
  /-- `allocated_large_sizes` of every allocator. -/
  tree : Id → T.Tree
  live : List (Block Id)

/-- A call of `alloc_extra_large` or of `dealloc_extra_large`. -/
inductive Action (Id : Type u)
  /-- The limit and the kernel grant the block; `nodes` are for the tree. -/
  | allocated (a : Id) (ptr size : Nat) (nodes : List Nat)
  | limitRefused (a : Id) (size : Nat)
  /-- The kernel refuses what the limit has allowed. -/
  | kernelRefused (a : Id) (size : Nat) (nodes : List Nat)
  /-- A live block is freed through an allocator, its owner or not. -/
  | freed (a : Id) (block : Block Id)
deriving DecidableEq

namespace System

def initial : System T Id := ⟨fun _ => T.empty, []⟩

variable [DecidableEq Id]

/-- Change the tree of one allocator. -/
def updateTree (a : Id) (f : T.Tree → T.Tree) (sys : System T Id) : System T Id :=
  { sys with tree := Function.update sys.tree a (f (sys.tree a)) }

/-- What a call does, if it may be made. -/
def next (sys : System T Id) : Action Id → Option (System T Id)
  | .allocated a ptr size nodes =>
      if largeSizeMax < size ∧ ∀ b ∈ sys.live, b.ptr ≠ ptr then
        some { sys.updateTree a (countBlock T size nodes) with live := ⟨a, ptr, size⟩ :: sys.live }
      else none
  | .limitRefused _ size => if largeSizeMax < size then some sys else none
  | .kernelRefused a size nodes =>
      if largeSizeMax < size then some (sys.updateTree a (countBlock T size nodes)) else none
  | .freed a block =>
      if block ∈ sys.live then
        some { sys.updateTree a (uncountBlock T block.size) with live := sys.live.erase block }
      else none

def Step (sys : System T Id) (a : Action Id) (sys' : System T Id) : Prop := sys.next a = some sys'

/-- The live blocks of a size that an allocator has allocated. -/
def liveOf (a : Id) (size : Nat) (sys : System T Id) : Nat :=
  sys.live.countP fun b => b.owner = a ∧ b.size = size

end System

/-- For blocks of one size that one allocator allocates or frees: it frees those
that it has allocated and no others, and the kernel grants what the limit allows. -/
def Action.Owned (a : Id) (size : Nat) : Action Id → Prop
  | .freed b block => block.size = size → (b = a ↔ block.owner = a)
  | .kernelRefused b s _ => ¬(b = a ∧ s = size)
  | _ => True

section Run

variable [DecidableEq Id] {sys sys' : System T Id}

theorem wellFormed_updateTree (h : ∀ a, WellFormed T (sys.tree a)) {a : Id} {f : T.Tree → T.Tree}
    (hf : WellFormed T (f (sys.tree a))) (b : Id) :
    WellFormed T ((sys.updateTree a f).tree b) := by
  by_cases hb : b = a
  · subst hb
    simpa [System.updateTree] using hf
  · simpa [System.updateTree, hb] using h b

/-- No step stores a count of zero, so no decrement underflows. -/
theorem wellFormed_step {l : Action Id} (h : ∀ a, WellFormed T (sys.tree a))
    (hstep : sys.Step l sys') (a : Id) : WellFormed T (sys'.tree a) := by
  unfold System.Step at hstep
  cases l with
  | allocated b ptr size nodes =>
      simp only [System.next, Option.ite_none_right_eq_some, Option.some.injEq] at hstep
      obtain ⟨-, rfl⟩ := hstep
      exact wellFormed_updateTree h ((h b).countBlock size nodes).1 a
  | limitRefused b size =>
      simp only [System.next, Option.ite_none_right_eq_some, Option.some.injEq] at hstep
      obtain ⟨-, rfl⟩ := hstep
      exact h a
  | kernelRefused b size nodes =>
      simp only [System.next, Option.ite_none_right_eq_some, Option.some.injEq] at hstep
      obtain ⟨-, rfl⟩ := hstep
      exact wellFormed_updateTree h ((h b).countBlock size nodes).1 a
  | freed b block =>
      simp only [System.next, Option.ite_none_right_eq_some, Option.some.injEq] at hstep
      obtain ⟨-, rfl⟩ := hstep
      exact wellFormed_updateTree h ((h b).uncountBlock block.size).1 a

theorem count_updateTree (a b : Id) (s : Nat) (f : T.Tree → T.Tree) :
    count T s ((sys.updateTree a f).tree b) =
      if b = a then count T s (f (sys.tree b)) else count T s (sys.tree b) := by
  by_cases hb : b = a
  · subst hb
    simp [System.updateTree]
  · simp [System.updateTree, hb]

/-- An exact count stays exact where blocks of this size are freed by their owner. -/
theorem count_step {l : Action Id} {a : Id} {s : Nat} (h : ∀ a, WellFormed T (sys.tree a))
    (hown : l.Owned a s) (hcount : count T s (sys.tree a) = sys.liveOf a s)
    (hstep : sys.Step l sys') : count T s (sys'.tree a) = sys'.liveOf a s := by
  unfold System.Step at hstep
  cases l with
  | allocated b ptr size nodes =>
      simp only [System.next, Option.ite_none_right_eq_some, Option.some.injEq] at hstep
      obtain ⟨-, rfl⟩ := hstep
      have hlive : System.liveOf a s { sys.updateTree b (countBlock T size nodes) with
          live := ⟨b, ptr, size⟩ :: sys.live } =
          sys.liveOf a s + if b = a ∧ size = s then 1 else 0 := by
        simp [System.liveOf, List.countP_cons]
      rw [hlive]
      change count T s ((sys.updateTree b (countBlock T size nodes)).tree a) = _
      rw [count_updateTree, ((h a).countBlock size nodes).2 s, hcount]
      by_cases hb : a = b
      · by_cases hs : s = size
        · simp [hb, hs]
        · simp [hb, hs, Ne.symm hs]
      · simp [hb, Ne.symm hb]
  | limitRefused b size =>
      simp only [System.next, Option.ite_none_right_eq_some, Option.some.injEq] at hstep
      obtain ⟨-, rfl⟩ := hstep
      exact hcount
  | kernelRefused b size nodes =>
      simp only [System.next, Option.ite_none_right_eq_some, Option.some.injEq] at hstep
      obtain ⟨-, rfl⟩ := hstep
      have hother : ¬(a = b ∧ s = size) := by
        rintro ⟨rfl, rfl⟩
        exact hown ⟨rfl, rfl⟩
      change count T s ((sys.updateTree b (countBlock T size nodes)).tree a) = sys.liveOf a s
      rw [count_updateTree, ((h a).countBlock size nodes).2 s, hcount]
      by_cases hb : a = b
      · have hs : s ≠ size := fun hs => hother ⟨hb, hs⟩
        simp [hs]
      · simp [hb]
  | freed b block =>
      simp only [System.next, Option.ite_none_right_eq_some, Option.some.injEq] at hstep
      obtain ⟨hmem, rfl⟩ := hstep
      have hlive : sys.liveOf a s = (if block.owner = a ∧ block.size = s then 1 else 0) +
          System.liveOf a s { sys.updateTree b (uncountBlock T block.size) with
            live := sys.live.erase block } := by
        have hperm := (List.perm_cons_erase hmem).countP_eq fun c => c.owner = a ∧ c.size = s
        simpa [System.liveOf, List.countP_cons, Nat.add_comm] using hperm
      change count T s ((sys.updateTree b (uncountBlock T block.size)).tree a) = _
      rw [count_updateTree, ((h a).uncountBlock block.size).2 s, hcount, hlive]
      by_cases hs : s = block.size
      · have hiff := hown hs.symm
        by_cases hb : a = b
        · have howner := hiff.1 hb.symm
          simp [hb, hs, howner.trans hb]
        · have howner : block.owner ≠ a := fun h => hb (hiff.2 h).symm
          simp [hb, hs, howner]
      · simp [hs, Ne.symm hs]

end Run

/-- Two allocators share a size; each frees its own block. -/
def ownFrees : List (Action Bool) :=
  [.allocated false 4096 200000 [8], .allocated true 409600 200000 [8],
    .allocated false 819200 200000 [], .freed true ⟨true, 409600, 200000⟩,
    .freed false ⟨false, 4096, 200000⟩]

/-- The system after the actions, if every one of them may be made. -/
def runActions (actions : List (Action Bool)) : Option (System sizeMap Bool) :=
  actions.foldlM System.next System.initial

theorem ownFrees_isSome : (runActions ownFrees).isSome = true := by decide

/-- The second allocator frees a block of the first one. -/
def foreignFree : List (Action Bool) :=
  [.allocated false 4096 200000 [8], .freed true ⟨false, 4096, 200000⟩]

theorem foreignFree_isSome : (runActions foreignFree).isSome = true := by decide

end Memalart.ExtraLarge
