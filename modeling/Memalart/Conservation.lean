/-
# Every unit of a region is in one container

Between two calls the chunks of an allocator are in four containers: the two vectors of
free chunks and the two tables of recorded chunks.  As long as no chunk has been given
back or forgotten, each unit of each region is covered by exactly one of their entries.
The first allocation of a fresh allocator may already give a chunk back, and then the
chunk is in none of them.
-/

import Memalart.SizeMap
import Memalart.Sessions

namespace Memalart

open Memalart.Lib ThreadLocalAllocator

variable {P : Params}

/-! ## The containers -/

/-- Entries of chunks of one kind. -/
def entriesAll (k : ChunkKind) (chunks : List Nat) : Multiset (ChunkKind × Nat) :=
  ((chunks.map fun c => (k, c) : List (ChunkKind × Nat)) : Multiset (ChunkKind × Nat))

/-- The chunks that a vector lists. -/
def entriesOf : (v : VecId) → List v.Elem → Multiset (ChunkKind × Nat)
  | .chunk s, chunks => entriesAll s.kind chunks
  | .freeLargeChunks, chunks => entriesAll .large chunks
  | .freeCommonChunks, chunks => entriesAll .common chunks
  | .object _, _ => 0
  | .regions, _ => 0

/-- The units that an entry stands for. -/
def entryUnits (e : ChunkKind × Nat) : Multiset Nat := (e.1.units e.2 : Multiset Nat)

/-- The entries of `free_common_chunks`, `free_large_chunks` and the two chunk tables. -/
@[irreducible] def World.entries (w : World P) : Multiset (ChunkKind × Nat) :=
  ∑ v, entriesOf v (w.vec v).elems

/-- The unit is one of those that the entry stands for. -/
def Covers (u : Nat) (e : ChunkKind × Nat) : Prop := u ∈ e.1.units e.2

instance (u : Nat) : DecidablePred (Covers u) :=
  fun e => inferInstanceAs (Decidable (u ∈ e.1.units e.2))

/-- How many entries cover a unit. -/
def World.coverage (w : World P) (u : Nat) : Nat := w.entries.countP (Covers u)

/-! ## The units of what an allocator has -/

/-- Without bootstrap States, an item is an element of a vector or a block. -/
theorem mem_holdings {w : World P} (hstates : w.states = []) {i : Item} (hi : i ∈ w.holdings) :
    (∃ v, i ∈ contents v (w.vec v).elems) ∨ ∃ size ptr, i = blockItem size ptr := by
  have hblock : ∀ size ptr, i ∈ blockOf size ptr → ∃ size ptr, i = blockItem size ptr :=
    fun size ptr h => by
      cases ptr with
      | none => exact absurd h (Multiset.notMem_zero i)
      | some ptr => exact ⟨size, ptr, Multiset.mem_singleton.mp h⟩
  rw [World.holdings, hstates, List.map_nil, List.sum_nil, add_zero,
    ThreadLocalAllocatorInner.items] at hi
  simp only [Multiset.mem_add] at hi
  rcases hi with hi | (((hi | hi) | hi) | hi)
  · obtain ⟨v, -, hi⟩ := Multiset.mem_sum.mp hi
    rcases Multiset.mem_add.mp hi with hi | hi
    · exact .inl ⟨v, hi⟩
    · unfold bufferItems at hi
      split at hi
      · exact absurd hi (Multiset.notMem_zero i)
      · exact .inr ⟨_, _, Multiset.mem_singleton.mp hi⟩
  · exact .inr (hblock _ _ hi)
  · exact .inr (hblock _ _ hi)
  · unfold managerItems at hi
    split at hi
    · exact absurd hi (Multiset.notMem_zero i)
    · exact .inr (hblock _ _ hi)
  · obtain ⟨node, -, rfl⟩ := List.mem_map.mp (Multiset.mem_coe.mp hi)
    exact .inr ⟨node.2, node.1, rfl⟩

/-- The elements of a vector are items. -/
theorem mem_holdings_of_contents {w : World P} {v : VecId} {i : Item}
    (hi : i ∈ contents v (w.vec v).elems) : i ∈ w.holdings :=
  Multiset.mem_of_le (w.vecItems_le_holdings v) (Multiset.mem_add.mpr (.inl hi))

theorem units_blockItem (size ptr : Nat) : (blockItem size ptr).units = 0 := by
  unfold blockItem
  cases slotForSize size <;> rfl

theorem unitsOf_blockOf (size : Nat) (ptr : Option Nat) : unitsOf (blockOf size ptr) = 0 := by
  cases ptr with
  | none => exact unitsOf_zero
  | some ptr => rw [blockOf_some, unitsOf_singleton, units_blockItem]

theorem unitsOf_eq_zero {items : Multiset Item} (h : ∀ i ∈ items, i.units = 0) :
    unitsOf items = 0 := by
  rw [unitsOf, Multiset.bind_congr h, Multiset.bind_zero]

theorem bind_entriesAll (k : ChunkKind) (chunks : List Nat) :
    (entriesAll k chunks).bind entryUnits = (chunks.flatMap k.units : List Nat) := by
  induction chunks with
  | nil => rfl
  | cons c chunks ih =>
      have hcons : entriesAll k (c :: chunks) = (k, c) ::ₘ entriesAll k chunks := rfl
      rw [hcons, Multiset.cons_bind, ih]
      rfl

/-- The units of a vector are those of the chunks it lists. -/
theorem unitsOf_vecItems (v : VecId) (x : SelfAllocatedVec v.Elem) :
    unitsOf (vecItems v x) = (entriesOf v x.elems).bind entryUnits := by
  have hbuffer : unitsOf (bufferItems v x.ptr x.cap) = 0 := by
    unfold bufferItems
    split
    · exact unitsOf_zero
    · rw [unitsOf_singleton, units_blockItem]
  rw [vecItems, unitsOf_add, hbuffer, add_zero]
  cases v with
  | object s => exact unitsOf_all_object s x.elems
  | chunk s =>
      refine Eq.trans ?_ (bind_entriesAll s.kind x.elems).symm
      show unitsOf (Item.all (.recorded s) x.elems) = _
      induction x.elems with
      | nil => exact unitsOf_zero
      | cons c chunks ih =>
          rw [Item.all_cons, unitsOf_add, ih, unitsOf_singleton]
          rfl
  | freeLargeChunks => exact (unitsOf_all_chunk .large x.elems).trans (bind_entriesAll .large _).symm
  | freeCommonChunks =>
      exact (unitsOf_all_chunk .common x.elems).trans (bind_entriesAll .common _).symm
  | regions =>
      refine unitsOf_eq_zero fun i hi => ?_
      obtain ⟨view, -, rfl⟩ := List.mem_map.mp (Multiset.mem_coe.mp hi)
      rfl

/-- The units of items and of entries, as homomorphisms. -/
def unitsHom : Multiset Item →+ Multiset Nat where
  toFun := unitsOf
  map_zero' := unitsOf_zero
  map_add' := unitsOf_add

def entryUnitsHom : Multiset (ChunkKind × Nat) →+ Multiset Nat where
  toFun es := es.bind entryUnits
  map_zero' := Multiset.zero_bind entryUnits
  map_add' es es' := Multiset.add_bind es es' entryUnits

theorem unitsOf_sum {ι : Type} (vs : Finset ι) (f : ι → Multiset Item) :
    unitsOf (∑ v ∈ vs, f v) = ∑ v ∈ vs, unitsOf (f v) :=
  map_sum unitsHom f vs

theorem bind_entryUnits_sum {ι : Type} (vs : Finset ι) (f : ι → Multiset (ChunkKind × Nat)) :
    (∑ v ∈ vs, f v).bind entryUnits = ∑ v ∈ vs, (f v).bind entryUnits :=
  map_sum entryUnitsHom f vs

/-- Without bootstrap States the units of an allocator are those of its containers. -/
theorem unitsOf_holdings {w : World P} (hstates : w.states = []) :
    unitsOf w.holdings = w.entries.bind entryUnits := by
  have hvecs : unitsOf (∑ v, vecItems v (w.inner.vec v)) = w.entries.bind entryUnits := by
    refine (unitsOf_sum _ _).trans ?_
    unfold World.entries
    refine Eq.trans ?_ (bind_entryUnits_sum _ _).symm
    exact Finset.sum_congr rfl fun v _ => unitsOf_vecItems v (w.vec v)
  have hnodes : unitsOf (nodeItems (P.tree.nodes w.inner.allocatedLargeSizes)) = 0 :=
    unitsOf_eq_zero fun i hi => by
      obtain ⟨node, -, rfl⟩ := List.mem_map.mp (Multiset.mem_coe.mp hi)
      exact units_blockItem _ _
  have hmanager : unitsOf (managerItems P w.inner.nonLocalPtrManager) = 0 := by
    unfold managerItems
    split
    · exact unitsOf_zero
    · exact unitsOf_blockOf _ _
  rw [World.holdings, hstates, List.map_nil, List.sum_nil, add_zero,
    ThreadLocalAllocatorInner.items]
  simp only [unitsOf_add, hvecs, unitsOf_blockOf, hmanager, hnodes, add_zero]

theorem unitsOf_held (live : List Block) : unitsOf (Session.held live) = 0 :=
  unitsOf_eq_zero fun i hi => by
    obtain ⟨b, -, rfl⟩ := List.mem_map.mp (Multiset.mem_coe.mp hi)
    exact units_blockItem _ _

theorem unitsOf_items {s : Session P} (hs : s.Rests) :
    unitsOf s.items = s.world.entries.bind entryUnits := by
  rw [Session.items, unitsOf_add, unitsOf_held, add_zero, unitsOf_holdings hs.states]

/-! ## Conservation -/

/-- A unit that occurs once in the units of the entries is covered by one of them. -/
theorem countP_covers {es : Multiset (ChunkKind × Nat)} {u : Nat}
    (hnodup : (es.bind entryUnits).Nodup) :
    es.countP (Covers u) = (es.bind entryUnits).count u := by
  induction es using Multiset.induction_on with
  | empty => rfl
  | cons e es ih =>
      rw [Multiset.cons_bind, Multiset.nodup_add] at hnodup
      obtain ⟨he, hes, -⟩ := hnodup
      rw [Multiset.cons_bind, Multiset.count_add, Multiset.countP_cons, ih hes, add_comm]
      congr 1
      rw [Multiset.count_eq_of_nodup he]
      exact if_congr Iff.rfl rfl rfl

/-- No unit is covered twice. -/
theorem coverage_le_one {calls : List Call} {s : Session P} (h : Session.Reached calls s) (u : Nat) :
    s.world.coverage u ≤ 1 := by
  obtain ⟨hs, hbooks⟩ := h.books
  have hnodup := hbooks.tidy.units_nodup
  rw [unitsOf_items hs] at hnodup
  rw [World.coverage, countP_covers hnodup]
  exact Multiset.nodup_iff_count_le_one.mp hnodup u

/-- In a run in which no slow path gives its chunk back or forgets it, every unit of
every region is covered by exactly one entry of the four containers. -/
theorem coverage_eq_one {calls : List Call} {s : Session P} (h : Session.Reached calls s)
    (hback : s.world.os.NoChunkGivenBack) (habandoned : s.world.os.NoChunkAbandoned) :
    ∀ view ∈ s.world.inner.regions.elems, ∀ u ∈ regionUnits view.ptr, s.world.coverage u = 1 := by
  intro view hview u hu
  obtain ⟨hs, hbooks⟩ := h.books
  have hnodup := hbooks.tidy.units_nodup
  have hparsed : Parsed s.items view.ptr := by
    refine .inr ⟨view.numberOfCommonChunksOccupied, Multiset.mem_add.mpr (.inl ?_)⟩
    refine mem_holdings_of_contents (v := .regions) (Multiset.mem_coe.mpr ?_)
    exact List.mem_map.mpr ⟨view, hview, rfl⟩
  have hmem := hbooks.covered hback habandoned view.ptr hparsed u hu
  rw [unitsOf_items hs] at hnodup hmem
  rw [World.coverage, countP_covers hnodup]
  exact Multiset.count_eq_one_of_mem hnodup hmem

/-- An allocator of the crate, whose first region lies here. -/
def freshAllocator : Session lockFreeParams := .initial lockFreeParams [⟨0, 134217728⟩]

/-- A first block of 24 bytes leaves every unit covered. -/
theorem coverage_eq_one_first : ∃ s : Session lockFreeParams,
    Session.Reached [.served ⟨164036568, 24⟩] s ∧ s.world.inner.regions.elems ≠ [] ∧
      ∀ view ∈ s.world.inner.regions.elems, ∀ u ∈ regionUnits view.ptr, s.world.coverage u = 1 := by
  have hrun : Session.trial 4 (fun calls s => calls = [.served ⟨164036568, 24⟩] &&
      (s.world.inner.regions.elems ≠ [] : Bool) &&
      s.world.os.log = [.mapped 134217728 33554432]) [.tryAlloc 24] [] freshAllocator = true := by
    decide +kernel
  obtain ⟨calls, s, hreached, hcheck⟩ :=
    Session.reached_of_trial (Session.reached_initial [⟨0, 134217728⟩]) hrun
  simp only [Bool.and_eq_true, decide_eq_true_eq] at hcheck
  obtain ⟨⟨rfl, hregions⟩, hlog⟩ := hcheck
  refine ⟨s, hreached, hregions, coverage_eq_one hreached (fun c hc => ?_) fun c hc => ?_⟩
  · simp [hlog] at hc
  · simp [hlog] at hc

/-- A first block of 16 bytes strands a chunk. -/
theorem chunk_stranded : ¬ ∀ (calls : List Call) (s : Session lockFreeParams),
    Session.Reached calls s → (∀ c ∈ calls, c.Succeeds) →
      ∀ view ∈ s.world.inner.regions.elems, ∀ u ∈ regionUnits view.ptr,
        s.world.coverage u = 1 := by
  intro hclaim
  have hrun : Session.trial 4 (fun calls s => calls = [.served ⟨134610912, 16⟩] &&
      s.world.inner.regions.elems.map RegionView.ptr = [134217728] &&
      s.world.coverage 163971072 = 0) [.tryAlloc 16] [] freshAllocator = true := by
    decide +kernel
  obtain ⟨calls, s, hreached, hcheck⟩ :=
    Session.reached_of_trial (Session.reached_initial [⟨0, 134217728⟩]) hrun
  simp only [Bool.and_eq_true, decide_eq_true_eq] at hcheck
  obtain ⟨⟨rfl, hregions⟩, hstranded⟩ := hcheck
  obtain ⟨view, hview, hptr⟩ := List.mem_map.mp (hregions ▸ List.mem_singleton_self _)
  have hunit : 163971072 ∈ regionUnits view.ptr := by
    rw [hptr]
    decide +kernel
  have hone := hclaim _ s hreached (by simp [Call.Succeeds]) view hview _ hunit
  rw [hstranded] at hone
  exact absurd hone (by decide)

end Memalart
