/-
# What the tree map asks its allocator for

The map takes one block for every node and counts the blocks by size, by hand, in two
slots.  The module has the history of the calls, the blocks that are in use after it, the
counters, and the one invariant that ties the three together.
-/

import Mathlib.Algebra.Order.Group.Multiset
import Mathlib.Data.Multiset.Count
import Memalart.Os

namespace Memalart.BTree

open Lib Machine

/-- A call of the allocator, with what it answered. -/
inductive HeapEvent
  | alloc (addr size : Nat)
  | dealloc (addr size : Nat)
deriving DecidableEq, Repr

/-- The blocks that are allocated and not yet deallocated, the latest call at the head of
the history.  The allocator finds a block by its address and the class of its size. -/
def live : List HeapEvent → Multiset (Nat × Nat)
  | [] => 0
  | .alloc addr size :: log => (addr, size) ::ₘ live log
  | .dealloc addr size :: log => (live log).erase (addr, recommendedSize size)

/-- `AllocatorForSelfAllocations`, any that does not hand out a block in use: its answer may
depend on everything that the map has asked for so far. -/
structure SelfAllocator where
  selfAlloc : List HeapEvent → Nat → Option Nat
  fresh {log : List HeapEvent} {size addr : Nat} :
    selfAlloc log size = some addr → ∀ s, (addr, s) ∉ live log

/-- The allocator never refuses. -/
def SelfAllocator.Serves (A : SelfAllocator) : Prop := ∀ log size, (A.selfAlloc log size).isSome

/-- The end of the blocks that have ever been handed out, from an address on. -/
def bump (start : Nat) : List HeapEvent → Nat
  | [] => start
  | .alloc addr size :: log => max (bump start log) (addr + max size 1)
  | .dealloc _ _ :: log => bump start log

theorem lt_bump {start : Nat} {log : List HeapEvent} {b : Nat × Nat} (hb : b ∈ live log) :
    b.1 < bump start log := by
  induction log with
  | nil => simp [live] at hb
  | cons event log ih =>
      cases event with
      | alloc addr size =>
          rw [live, Multiset.mem_cons] at hb
          rcases hb with rfl | hb
          · exact lt_max_of_lt_right (Nat.lt_add_of_pos_right (lt_max_of_lt_right Nat.zero_lt_one))
          · exact lt_max_of_lt_left (ih hb)
      | dealloc addr size => exact ih (Multiset.mem_of_mem_erase hb)

/-- An allocator that takes each block behind all earlier ones. -/
def bumpAllocator (start : Nat) : SelfAllocator where
  selfAlloc log _ := some (bump start log)
  fresh := by
    rintro log size addr haddr s hmem
    cases haddr
    exact Nat.lt_irrefl _ (lt_bump hmem)

theorem bumpAllocator_serves (start : Nat) : (bumpAllocator start).Serves := fun _ _ => rfl

/-- `size_of` the two node types for the keys and values of a map. -/
structure NodeSizes where
  leaf : Nat
  internal : Nat

/-- The size of a node at a height. -/
def NodeSizes.at (S : NodeSizes) (height : Nat) : Nat := if height > 0 then S.internal else S.leaf

/-! ## The counters -/

/-- `SelfAllocatedMemory`: two slots of a size and a `u32`. -/
structure SelfAllocatedMemory where
  first : Nat × Nat
  second : Nat × Nat
deriving DecidableEq, Repr

namespace SelfAllocatedMemory

def new : SelfAllocatedMemory := ⟨(0, 0), (0, 0)⟩

/-- `+= 1` on a `u32`. -/
def inc (slot : Nat × Nat) : Nat × Nat := (slot.1, (slot.2 + 1) % u32Range)

/-- `-= 1` on a `u32`. -/
def dec (slot : Nat × Nat) : Nat × Nat :=
  (slot.1, if slot.2 = 0 then u32Range - 1 else slot.2 - 1)

/-- `inc_for_size`. -/
def incForSize (mem : SelfAllocatedMemory) (size : Nat) : SelfAllocatedMemory :=
  if mem.first.1 = size then { mem with first := inc mem.first }
  else if mem.second.1 = size then { mem with second := inc mem.second }
  else if mem.first.1 = 0 then { mem with first := inc (size, mem.first.2) }
  else { mem with second := inc (size, mem.second.2) }

/-- `dec_for_size`. -/
def decForSize (mem : SelfAllocatedMemory) (size : Nat) : SelfAllocatedMemory :=
  if mem.first.1 = size then { mem with first := dec mem.first }
  else { mem with second := dec mem.second }

/-- The counter that `dec_for_size` decrements. -/
def counterOf (mem : SelfAllocatedMemory) (size : Nat) : Nat :=
  if mem.first.1 = size then mem.first.2 else mem.second.2

/-- What `self_allocated_memory` reports under a size. -/
def reported (mem : SelfAllocatedMemory) (size : Nat) : Nat :=
  (([mem.first, mem.second].filter (·.1 = size)).map Prod.snd).sum

end SelfAllocatedMemory

/-- The allocator's history and the counters of the map.  No branch reads `underflowed`:
it says that a counter has been decremented at zero. -/
structure Memory where
  log : List HeapEvent
  allocatedMemory : SelfAllocatedMemory
  underflowed : Bool
deriving DecidableEq, Repr

/-- Before the first call. -/
def Memory.new : Memory := ⟨[], .new, false⟩

/-- Code of the map that may call the allocator. -/
abbrev Heap (α : Type) : Type := Machine Memory Fault α

namespace Memory

/-- `self_alloc` has answered with a block, and `inc_for_size` counts it. -/
def allocated (addr size : Nat) (m : Memory) : Memory :=
  { m with
    log := .alloc addr (recommendedSize size) :: m.log
    allocatedMemory := m.allocatedMemory.incForSize (recommendedSize size) }

/-- `self_dealloc`, with a size that is not rounded, and `dec_for_size` for the same size. -/
def deallocated (addr size : Nat) (m : Memory) : Memory :=
  { log := .dealloc addr size :: m.log
    allocatedMemory := m.allocatedMemory.decForSize size
    underflowed := m.underflowed || m.allocatedMemory.counterOf size == 0 }

end Memory

/-- `SelfAllocatedBox::new` for a node, with the count that follows it. -/
def allocNode (A : SelfAllocator) (size : Nat) : Heap (Option Nat) := do
  let m ← get
  match A.selfAlloc m.log (recommendedSize size) with
  | none => pure none
  | some addr => do
    modify (Memory.allocated addr size)
    pure (some addr)

/-- `self_dealloc` for a node, with the count that follows it. -/
def deallocNode (addr size : Nat) : Heap Unit := modify (Memory.deallocated addr size)

/-! ## Counting blocks -/

/-- The number of blocks of a size. -/
def number (size : Nat) (blocks : Multiset (Nat × Nat)) : Nat := blocks.countP fun b => b.2 = size

variable {A : SelfAllocator} {S : NodeSizes} {m : Memory} {blocks : Multiset (Nat × Nat)}
  {addr size s : Nat}

@[simp] theorem number_zero : number size 0 = 0 := Multiset.countP_zero _

theorem number_cons :
    number s ((addr, size) ::ₘ blocks) = number s blocks + if size = s then 1 else 0 := by
  rw [number, Multiset.countP_cons, number]

theorem number_eq_zero (h : ∀ b ∈ blocks, b.2 ≠ s) : number s blocks = 0 := by
  apply Multiset.countP_eq_zero.mpr
  exact h

theorem number_le_card : number s blocks ≤ blocks.card := Multiset.countP_le_card _ _

/-- The allocator rounds neither node size, so that a node is counted up and down under the
same size; and a `u32` holds the sizes. -/
structure NodeSizes.Exact (S : NodeSizes) : Prop where
  leaf : recommendedSize S.leaf = S.leaf
  internal : recommendedSize S.internal = S.internal
  leaf_pos : 0 < S.leaf
  internal_pos : 0 < S.internal
  leaf_lt : S.leaf < u32Range
  internal_lt : S.internal < u32Range

/-- One of the two sizes. -/
def NodeSizes.IsSize (S : NodeSizes) (size : Nat) : Prop := size = S.leaf ∨ size = S.internal

theorem NodeSizes.isSize_at (S : NodeSizes) (height : Nat) : S.IsSize (S.at height) := by
  unfold NodeSizes.at
  split
  · exact .inr rfl
  · exact .inl rfl

theorem NodeSizes.Exact.recommendedSize_eq (h : S.Exact) (hsize : S.IsSize size) :
    recommendedSize size = size := by
  rcases hsize with rfl | rfl
  · exact h.leaf
  · exact h.internal

theorem NodeSizes.Exact.pos (h : S.Exact) (hsize : S.IsSize size) : size ≠ 0 := by
  rcases hsize with rfl | rfl
  · exact Nat.ne_of_gt h.leaf_pos
  · exact Nat.ne_of_gt h.internal_pos

theorem NodeSizes.Exact.lt (h : S.Exact) (hsize : S.IsSize size) : size < u32Range := by
  rcases hsize with rfl | rfl
  · exact h.leaf_lt
  · exact h.internal_lt

/-- The slots hold the numbers of the blocks of their sizes, as `u32`s. -/
structure SelfAllocatedMemory.Counts (S : NodeSizes) (mem : SelfAllocatedMemory)
    (blocks : Multiset (Nat × Nat)) : Prop where
  first : mem.first.2 = number mem.first.1 blocks % u32Range
  second : mem.second.2 = number mem.second.1 blocks % u32Range
  /-- The second slot is taken after the first, for another size. -/
  second_free : mem.first.1 = 0 ∨ mem.first.1 = mem.second.1 → mem.second.1 = 0
  first_size : mem.first.1 = 0 ∨ S.IsSize mem.first.1
  second_size : mem.second.1 = 0 ∨ S.IsSize mem.second.1
  /-- Every block is of a size that a slot has. -/
  covers : ∀ b ∈ blocks, S.IsSize b.2 ∧ (b.2 = mem.first.1 ∨ b.2 = mem.second.1)

theorem SelfAllocatedMemory.Counts.new : SelfAllocatedMemory.new.Counts S 0 :=
  ⟨rfl, rfl, fun _ => rfl, .inl rfl, .inl rfl, by simp⟩

namespace SelfAllocatedMemory.Counts

variable {mem : SelfAllocatedMemory}

theorem number_zero_size (h : mem.Counts S blocks) (hS : S.Exact) : number 0 blocks = 0 := by
  apply number_eq_zero
  intro b hb
  exact hS.pos (h.covers b hb).1

/-- A size that no slot has is the size of no block. -/
theorem number_other (h : mem.Counts S blocks) (hfirst : mem.first.1 ≠ s)
    (hsecond : mem.second.1 ≠ s) : number s blocks = 0 := by
  apply number_eq_zero
  intro b hb hs
  rcases (h.covers b hb).2 with hb | hb
  · exact hfirst (hb.symm.trans hs)
  · exact hsecond (hb.symm.trans hs)

/-- When neither slot has a size of the map, one of them is free: the first, unless it is
taken. -/
theorem second_zero (h : mem.Counts S blocks) (hsize : S.IsSize size)
    (hfirst : mem.first.1 ≠ size) (hsecond : mem.second.1 ≠ size) : mem.second.1 = 0 := by
  rcases h.second_size with hzero | hsecond'
  · exact hzero
  · rcases h.first_size with hzero | hfirst'
    · exact h.second_free (.inl hzero)
    · apply h.second_free
      unfold NodeSizes.IsSize at hsize hfirst' hsecond'
      omega

theorem incForSize (h : mem.Counts S blocks) (hS : S.Exact) (hsize : S.IsSize size) :
    (mem.incForSize size).Counts S ((addr, size) ::ₘ blocks) := by
  have hpos : size ≠ 0 := hS.pos hsize
  have hfirst := h.first
  have hsecond := h.second
  have hzero := h.number_zero_size hS
  unfold SelfAllocatedMemory.incForSize
  split
  · next heq =>
    refine ⟨?_, ?_, h.second_free, h.first_size, h.second_size, ?_⟩
    · simp only [inc, number_cons, heq, if_true, hfirst, Nat.mod_add_mod]
    · have hne : size ≠ mem.second.1 := fun hs => hpos (hs.trans (h.second_free (.inr (heq.trans hs))))
      simpa only [number_cons, if_neg hne, Nat.add_zero] using hsecond
    · intro b hb
      rcases Multiset.mem_cons.1 hb with rfl | hb
      · exact ⟨hsize, .inl heq.symm⟩
      · exact h.covers b hb
  · next hne =>
    split
    · next heq =>
      refine ⟨?_, ?_, h.second_free, h.first_size, h.second_size, ?_⟩
      · simpa only [number_cons, if_neg (Ne.symm hne), Nat.add_zero] using hfirst
      · simp only [inc, number_cons, heq, if_true, hsecond, Nat.mod_add_mod]
      · intro b hb
        rcases Multiset.mem_cons.1 hb with rfl | hb
        · exact ⟨hsize, .inr heq.symm⟩
        · exact h.covers b hb
    · next hne' =>
      have hnumber : number size blocks = 0 := h.number_other hne hne'
      have hsecondZero : mem.second.1 = 0 := h.second_zero hsize hne hne'
      split
      · next hfree =>
        refine ⟨?_, ?_, ?_, .inr hsize, h.second_size, ?_⟩
        · simp [inc, number_cons, hfirst, hfree, hzero, hnumber]
        · simp [number_cons, hsecond, hsecondZero, hpos, hzero]
        · intro _
          exact hsecondZero
        · intro b hb
          rcases Multiset.mem_cons.1 hb with rfl | hb
          · exact ⟨hsize, .inl rfl⟩
          · have hb' := h.covers b hb
            rw [hfree, hsecondZero, or_self] at hb'
            exact absurd hb'.2 (hS.pos hb'.1)
      · next hfree =>
        refine ⟨?_, ?_, ?_, h.first_size, .inr hsize, ?_⟩
        · simpa only [number_cons, if_neg (Ne.symm hne), Nat.add_zero] using hfirst
        · simp [inc, number_cons, hsecond, hsecondZero, hzero, hnumber]
        · intro hor
          exact absurd hor (not_or.mpr ⟨hfree, hne⟩)
        · intro b hb
          rcases Multiset.mem_cons.1 hb with rfl | hb
          · exact ⟨hsize, .inr rfl⟩
          · have hb' := h.covers b hb
            rw [hsecondZero] at hb'
            exact ⟨hb'.1, .inl (hb'.2.resolve_right (hS.pos hb'.1))⟩

theorem dec_fst (slot : Nat × Nat) : (dec slot).1 = slot.1 := by
  rw [dec]

theorem dec_snd {slot : Nat × Nat} {n : Nat} (h : slot.2 = (n + 1) % u32Range) :
    (dec slot).2 = n % u32Range := by
  have hrange : u32Range = 4294967296 := rfl
  rw [dec, h, hrange]
  by_cases hzero : (n + 1) % 4294967296 = 0
  · rw [if_pos hzero]
    omega
  · rw [if_neg hzero]
    omega

theorem decForSize (h : mem.Counts S ((addr, size) ::ₘ blocks)) (hS : S.Exact) :
    (mem.decForSize size).Counts S blocks := by
  obtain ⟨hsize, hslot⟩ := h.covers _ (Multiset.mem_cons_self _ _)
  have hpos : size ≠ 0 := hS.pos hsize
  have hfirst := h.first
  have hsecond := h.second
  have hcovers : ∀ b ∈ blocks, S.IsSize b.2 ∧ (b.2 = mem.first.1 ∨ b.2 = mem.second.1) :=
    fun b hb => h.covers b (Multiset.mem_cons_of_mem hb)
  unfold SelfAllocatedMemory.decForSize
  split
  · next heq =>
    refine ⟨?_, ?_, ?_, ?_, h.second_size, ?_⟩
    · rw [number_cons, if_pos heq.symm] at hfirst
      rw [dec_fst]
      exact dec_snd hfirst
    · have hne : size ≠ mem.second.1 := fun hs => hpos (hs.trans (h.second_free (.inr (heq.trans hs))))
      simpa only [number_cons, if_neg hne, Nat.add_zero] using hsecond
    · rw [dec_fst]
      exact h.second_free
    · rw [dec_fst]
      exact h.first_size
    · rw [dec_fst]
      exact hcovers
  · next hne =>
    have heq : size = mem.second.1 := hslot.resolve_left (Ne.symm hne)
    refine ⟨?_, ?_, ?_, h.first_size, ?_, ?_⟩
    · simpa only [number_cons, if_neg (Ne.symm hne), Nat.add_zero] using hfirst
    · rw [number_cons, if_pos heq] at hsecond
      rw [dec_fst]
      exact dec_snd hsecond
    · rw [dec_fst]
      exact h.second_free
    · rw [dec_fst]
      exact h.second_size
    · rw [dec_fst]
      exact hcovers

/-- The counter that is about to be decremented is the number of blocks of that size. -/
theorem counterOf (h : mem.Counts S ((addr, size) ::ₘ blocks)) :
    mem.counterOf size = number size ((addr, size) ::ₘ blocks) % u32Range := by
  unfold SelfAllocatedMemory.counterOf
  obtain ⟨-, hslot⟩ := h.covers _ (Multiset.mem_cons_self _ _)
  split
  · next heq => rw [h.first, heq]
  · next hne => rw [h.second, ← hslot.resolve_left (Ne.symm hne)]

/-- What the map reports under a size is the number of blocks of that size, as a `u32`. -/
theorem reported (h : mem.Counts S blocks) (hS : S.Exact) (size : Nat) :
    mem.reported size = number size blocks % u32Range := by
  have hfirst := h.first
  have hsecond := h.second
  have hzero := h.number_zero_size hS
  unfold SelfAllocatedMemory.reported
  by_cases h₁ : mem.first.1 = size
  · by_cases h₂ : mem.second.1 = size
    · have hsize : size = 0 := h₂.symm.trans (h.second_free (.inr (h₁.trans h₂.symm)))
      rw [h₁, hsize, hzero] at hfirst
      rw [h₂, hsize, hzero] at hsecond
      simp [h₁, h₂, hfirst, hsecond, hsize, hzero]
    · simp [h₁, h₂, hfirst]
  · by_cases h₂ : mem.second.1 = size
    · simp [h₁, h₂, hsecond]
    · simp [h₁, h₂, h.number_other h₁ h₂]

/-- The two slots between them count every block of a size. -/
theorem number_slots (h : mem.Counts S blocks) (hsize : size ≠ 0) :
    (if mem.first.1 = size then number mem.first.1 blocks else 0) +
        (if mem.second.1 = size then number mem.second.1 blocks else 0) = number size blocks := by
  by_cases h₁ : mem.first.1 = size
  · have h₂ : mem.second.1 ≠ size := fun h₂ =>
      hsize (h₂.symm.trans (h.second_free (.inr (h₁.trans h₂.symm))))
    rw [if_pos h₁, if_neg h₂, h₁, Nat.add_zero]
  · by_cases h₂ : mem.second.1 = size
    · rw [if_neg h₁, if_pos h₂, h₂, Nat.zero_add]
    · rw [if_neg h₁, if_neg h₂, h.number_other h₁ h₂]

end SelfAllocatedMemory.Counts

/-! ## The history, the blocks and the counters -/

/-- The blocks in use, their addresses, and the counters for them.  A counter has been
decremented at zero only if `2 ^ 32` blocks have been in use at once. -/
structure Accounted (S : NodeSizes) (m : Memory) (blocks : Multiset (Nat × Nat)) : Prop where
  live : live m.log = blocks
  distinct : (blocks.map Prod.fst).Nodup
  counts : S.Exact → m.allocatedMemory.Counts S blocks
  underflow : S.Exact → m.underflowed = true → ∃ log, log <:+ m.log ∧ u32Range ≤ (BTree.live log).card

theorem Accounted.new : Accounted S .new 0 :=
  ⟨rfl, by simp, fun _ => .new, by simp [Memory.new]⟩

theorem Accounted.allocated (h : Accounted S m blocks) (hsize : S.IsSize size)
    (hanswer : A.selfAlloc m.log (recommendedSize size) = some addr) :
    Accounted S (m.allocated addr size) ((addr, recommendedSize size) ::ₘ blocks) := by
  refine ⟨by rw [Memory.allocated, BTree.live, h.live], ?_, ?_, ?_⟩
  · rw [Multiset.map_cons, Multiset.nodup_cons]
    refine ⟨?_, h.distinct⟩
    intro hmem
    obtain ⟨⟨a, s⟩, hb, rfl⟩ := Multiset.mem_map.1 hmem
    rw [← h.live] at hb
    exact A.fresh hanswer s hb
  · intro hS
    rw [Memory.allocated, hS.recommendedSize_eq hsize]
    exact (h.counts hS).incForSize hS hsize
  · intro hS hunder
    obtain ⟨log, hlog, hcard⟩ := h.underflow hS hunder
    exact ⟨log, hlog.trans (List.suffix_cons _ _), hcard⟩

theorem Accounted.deallocated (h : Accounted S m ((addr, recommendedSize size) ::ₘ blocks))
    (hsize : S.IsSize size) : Accounted S (m.deallocated addr size) blocks := by
  refine ⟨?_, ?_, ?_, ?_⟩
  · rw [Memory.deallocated, BTree.live, h.live, Multiset.erase_cons_head]
  · have hdistinct := h.distinct
    rw [Multiset.map_cons, Multiset.nodup_cons] at hdistinct
    exact hdistinct.2
  · intro hS
    have hcounts := h.counts hS
    rw [hS.recommendedSize_eq hsize] at hcounts
    exact hcounts.decForSize hS
  · intro hS hunder
    rw [Memory.deallocated, Bool.or_eq_true, beq_iff_eq] at hunder
    rcases hunder with hunder | hzero
    · obtain ⟨log, hlog, hcard⟩ := h.underflow hS hunder
      exact ⟨log, hlog.trans (List.suffix_cons _ _), hcard⟩
    · refine ⟨m.log, List.suffix_cons _ _, ?_⟩
      have hcounts := h.counts hS
      rw [hS.recommendedSize_eq hsize] at hcounts
      rw [hcounts.counterOf] at hzero
      have hcons : 0 < number size ((addr, size) ::ₘ blocks) := by simp [number_cons]
      have hle : u32Range ≤ number size ((addr, size) ::ₘ blocks) :=
        Nat.le_of_dvd hcons (Nat.dvd_of_mod_eq_zero hzero)
      rw [h.live, hS.recommendedSize_eq hsize]
      exact hle.trans number_le_card

/-- An allocation by an allocator that serves. -/
theorem ensures_allocNode (hA : A.Serves) (h : Accounted S m blocks) (hsize : S.IsSize size) :
    Ensures (allocNode A size) m fun r m' =>
      ∃ addr, r = some addr ∧ Accounted S m' ((addr, recommendedSize size) ::ₘ blocks) := by
  obtain ⟨addr, hanswer⟩ := Option.isSome_iff_exists.1 (hA m.log (recommendedSize size))
  unfold allocNode
  rw [ensures_bind, ensures_get, hanswer, ensures_bind, ensures_modify, ensures_pure]
  exact ⟨addr, rfl, h.allocated hsize hanswer⟩

theorem ensures_deallocNode (h : Accounted S m ((addr, recommendedSize size) ::ₘ blocks))
    (hsize : S.IsSize size) :
    Ensures (deallocNode addr size) m fun _ m' => Accounted S m' blocks :=
  ensures_modify.mpr (h.deallocated hsize)

end Memalart.BTree
