/-
# The memory of blocks

As long as no State has been stored inside a chain, the objects of an allocator are the slots
of its chunks: no two of them share an address, whether a caller has them, a free vector lists
them, or the allocator keeps its own structures in them, and all lie in chunks of their class,
beside the metadata of the regions.  What the kernel has mapped is apart, so extra-large blocks
meet neither each other nor the objects.  To its callers the allocator is then a heap that
grants extents apart from those that are out.
-/

import Memalart.FreeChunks
import Memalart.Lib.Heap
import Memalart.Lib.Sums
import Memalart.Occupancy

namespace Memalart

open Memalart.Lib

variable {P : Params}

/-! ## Slots of chunks -/

/-- The class and the chunk that an item is cut for. -/
def Item.cutAs : Item → Option (Slot × Nat)
  | .recorded s c => some (s, c)
  | .cutting _ u => (slotForSize u.size).map fun s => (s, u.ptr)
  | _ => none

/-- The addresses of an object of a class. -/
def slotExtent (e : Slot × Nat) : Extent := ⟨e.2, e.1.realSize⟩

theorem slot_end_le {s : Slot} {n : Nat} (hn : n < s.slotsPerChunk) :
    n * s.realSize + s.realSize ≤ s.chunkSize := by
  calc n * s.realSize + s.realSize = (n + 1) * s.realSize := (Nat.succ_mul _ _).symm
    _ ≤ s.slotsPerChunk * s.realSize := Nat.mul_le_mul_right _ hn
    _ ≤ s.chunkSize := Nat.div_mul_le_self _ _

/-- Two slots of one chunk. -/
theorem slots_apart_of_ne (s : Slot) (c : Nat) {n n' : Nat} (hne : n ≠ n') :
    (slotExtent (s, c + n * s.realSize)).Apart (slotExtent (s, c + n' * s.realSize)) := by
  have hbefore : ∀ {i j : Nat}, i < j →
      c + i * s.realSize + s.realSize ≤ c + j * s.realSize := fun {i j} hlt => by
    have hle := Nat.mul_le_mul_right s.realSize (Nat.succ_le_of_lt hlt)
    rw [Nat.succ_mul] at hle
    omega
  rcases Nat.lt_or_gt_of_ne hne with hlt | hlt
  · exact .inl (hbefore hlt)
  · exact .inr (hbefore hlt)

section Slots

variable {os : Os} {items : Multiset Item} {i j : Item} {e e' : Slot × Nat}

/-- Where a slot lies in the chunk of its item. -/
theorem Item.mem_slotsOf (h : e ∈ i.slotsOf) :
    ∃ c, i.cutAs = some (e.1, c) ∧ ∃ n < e.1.slotsPerChunk, e.2 = c + n * e.1.realSize := by
  have hfrom : ∀ {s : Slot} {c first : Nat}, e ∈ s.cutFrom c first →
      s = e.1 ∧ ∃ n < e.1.slotsPerChunk, e.2 = c + n * e.1.realSize := by
    intro s c first hmem
    obtain ⟨n, hn, rfl⟩ := List.mem_map.mp (Multiset.mem_coe.mp hmem)
    exact ⟨rfl, n, List.mem_range.mp (List.mem_of_mem_drop hn), rfl⟩
  cases i with
  | recorded s c =>
      obtain ⟨rfl, hn⟩ := hfrom h
      exact ⟨c, rfl, hn⟩
  | cutting k u =>
      cases hslot : slotForSize u.size with
      | none =>
          simp only [slotsOf, hslot] at h
          exact absurd h (Multiset.notMem_zero _)
      | some s =>
          simp only [slotsOf, hslot] at h
          obtain ⟨rfl, hn⟩ := hfrom h
          exact ⟨u.ptr, by rw [cutAs, hslot]; rfl, hn⟩
  | _ => exact absurd h (Multiset.notMem_zero _)

theorem Item.nodup_slotsOf (i : Item) : i.slotsOf.Nodup := by
  have hcut : ∀ (s : Slot) (c first : Nat), (s.cutFrom c first).Nodup := by
    intro s c first
    refine (List.nodup_range.sublist (List.drop_sublist _ _)).map fun n n' heq => ?_
    have hmul : n * s.realSize = n' * s.realSize := by
      have hptr := congrArg Prod.snd heq
      exact Nat.add_left_cancel hptr
    exact Nat.eq_of_mul_eq_mul_right s.realSize_pos hmul
  cases i with
  | recorded s c => exact hcut s c 0
  | cutting k u =>
      rw [slotsOf]
      split
      · exact hcut _ _ _
      · exact Multiset.nodup_zero
  | _ => exact Multiset.nodup_zero

/-- The units of an item that is cut are those of its chunk. -/
theorem Exact.units_eq (h : Exact os items) (hi : i ∈ items) {s : Slot} {c : Nat}
    (hcut : i.cutAs = some (s, c)) : i.units = (s.kind.units c : Multiset Nat) := by
  cases i with
  | recorded t d =>
      cases hcut
      rfl
  | cutting k u =>
      obtain ⟨t, ht, rfl, -⟩ := h.cutting k u hi
      rw [Item.cutAs, ht] at hcut
      cases hcut
      rfl
  | _ => cases hcut

/-- The addresses of a slot lie in units of its item. -/
theorem Tidy.unitOf_extent (ht : Tidy os items) (h : Exact os items) (hi : i ∈ items)
    (he : e ∈ i.slotsOf) {a : Nat} (hle : e.2 ≤ a) (hlt : a < e.2 + e.1.realSize) :
    unitOf a ∈ i.units := by
  obtain ⟨c, hcut, n, hn, hptr⟩ := Item.mem_slotsOf he
  have hunits := h.units_eq hi hcut
  have hself : c ∈ i.units := hunits ▸ Multiset.mem_coe.mpr (e.1.kind.self_mem_units c)
  obtain ⟨r, hr, hregion⟩ := ht.inRegion i hi fun hzero => by simp [hzero] at hself
  have hend := slot_end_le hn
  rw [hunits]
  refine Multiset.mem_coe.mpr (unitOf_mem_units (ht.aligned r hr.mem_regionsOf) (hregion c hself) ?_ ?_)
  · omega
  · rw [e.1.chunkSize_kind]
    omega

/-- Two slots share no address. -/
theorem Tidy.slots_apart (ht : Tidy os items) (h : Exact os items) (hi : i ∈ items)
    (hj : j ∈ items) (he : e ∈ i.slotsOf) (he' : e' ∈ j.slotsOf) (hne : e ≠ e') :
    (slotExtent e).Apart (slotExtent e') := by
  by_cases hij : i = j
  · subst hij
    obtain ⟨c, hcut, n, -, hptr⟩ := Item.mem_slotsOf he
    obtain ⟨c', hcut', n', -, hptr'⟩ := Item.mem_slotsOf he'
    obtain ⟨hclass, rfl⟩ := Prod.mk.inj (Option.some.inj (hcut.symm.trans hcut'))
    obtain ⟨s, p⟩ := e
    obtain ⟨s', p'⟩ := e'
    obtain rfl : s = s' := hclass
    obtain rfl : p = c + n * s.realSize := hptr
    obtain rfl : p' = c + n' * s.realSize := hptr'
    refine slots_apart_of_ne s c ?_
    rintro rfl
    exact hne rfl
  · -- an address of both would lie in a unit of both chunks
    refine Extent.apart_of_forall e.1.realSize_pos e'.1.realSize_pos fun a hle hlt hle' hlt' => ?_
    exact ht.units_disjoint hi hj hij (ht.unitOf_extent h hi he hle hlt)
      (ht.unitOf_extent h hj he' hle' hlt')

/-- No slot is there twice. -/
theorem Tidy.nodup_slots (ht : Tidy os items) (h : Exact os items) :
    (items.bind Item.slotsOf).Nodup := by
  have hpart : ∀ part ≤ items, (part.bind Item.slotsOf).Nodup := by
    intro part
    induction part using Multiset.induction with
    | empty => exact fun _ => Multiset.nodup_zero
    | cons i part ih =>
        intro hle
        have hi : i ∈ items := Multiset.mem_of_le hle (Multiset.mem_cons_self i part)
        rw [Multiset.cons_bind, Multiset.nodup_add]
        refine ⟨i.nodup_slotsOf, ih ((Multiset.le_cons_self part i).trans hle), ?_⟩
        refine Multiset.disjoint_left.mpr fun {e} he he' => ?_
        obtain ⟨j, hj, hej⟩ := Multiset.mem_bind.mp he'
        have hj' : j ∈ items := Multiset.mem_of_le hle (Multiset.mem_cons_of_mem hj)
        have hpos := e.1.realSize_pos
        have hunits : (unitsOf (i ::ₘ part)).Nodup := by
          obtain ⟨rest, rfl⟩ := Multiset.le_iff_exists_add.mp hle
          have hall := ht.units_nodup
          rw [unitsOf_add] at hall
          exact (Multiset.nodup_add.mp hall).1
        rw [unitsOf_cons, Multiset.nodup_add] at hunits
        refine Multiset.disjoint_left.mp hunits.2.2 (ht.unitOf_extent h hi he le_rfl (by omega))
          (mem_unitsOf.mpr ⟨j, hj, ht.unitOf_extent h hj' hej le_rfl (by omega)⟩)
  exact hpart items le_rfl

end Slots

/-! ## The objects of a session -/

/-- The free objects that a vector lists. -/
def VecId.freeObjects : (v : VecId) → List v.Elem → Multiset (Slot × Nat)
  | .object s, ptrs => (ptrs.map fun p => (s, p) : List _)
  | _, _ => 0

theorem objectsOf_contents (v : VecId) (xs : List v.Elem) :
    (contents v xs).bind Item.objectsOf = v.freeObjects xs := by
  have hnone : ∀ {item : Nat → Item} (ptrs : List Nat), (∀ p, (item p).objectsOf = 0) →
      (Item.all item ptrs).bind Item.objectsOf = 0 := fun ptrs hitem => bind_eq_zero fun i hi => by
    obtain ⟨p, -, rfl⟩ := mem_itemAll.mp hi
    exact hitem p
  cases v with
  | object s => exact bind_objectsOf_all s xs
  | regions =>
      refine bind_eq_zero fun i hi => ?_
      obtain ⟨view, -, rfl⟩ := List.mem_map.mp (Multiset.mem_coe.mp hi)
      rfl
  | _ => exact hnone xs fun _ => rfl

/-- The objects among the items of a sum. -/
theorem bind_objectsOf_sum {ι : Type} (f : ι → Multiset Item) (parts : Finset ι) :
    (∑ v ∈ parts, f v).bind Item.objectsOf = ∑ v ∈ parts, (f v).bind Item.objectsOf := by
  classical
  induction parts using Finset.induction_on with
  | empty => exact Multiset.zero_bind _
  | insert v parts hv ih =>
      rw [Finset.sum_insert hv, Finset.sum_insert hv, Multiset.add_bind, ih]

/-- The objects in free vectors. -/
def World.freeObjects (w : World P) : Multiset (Slot × Nat) :=
  ∑ v, VecId.freeObjects v (w.vec v).elems

/-- The objects that the allocator uses itself. -/
def World.ownObjects (w : World P) : Multiset (Slot × Nat) := w.ownBlocks.bind Item.objectsOf

/-- The object of a block, when a class serves its size. -/
def Block.object (b : Block) : Option (Slot × Nat) := (slotForSize b.size).map fun s => (s, b.ptr)

/-- Its addresses: those of its object, or of its own mapping. -/
def Block.extent (b : Block) : Extent :=
  match b.object with
  | some o => slotExtent o
  | none => ⟨b.ptr, b.size⟩

/-- What a call is for a heap. -/
def Call.action : Call → Heap.Action
  | .served b => .grant b.extent
  | .freed b => .giveBack b.extent
  | .refused _ | .trimmed _ | .outside _ _ => .silent

namespace Session

variable {s s' : Session P} {calls : List Call}

/-- All objects: those in free vectors, those that the allocator uses itself, and those of
callers. -/
def objects (s : Session P) : Multiset (Slot × Nat) :=
  s.world.freeObjects + s.world.ownObjects + (s.live.filterMap Block.object : List _)

theorem objectsOf_held (live : List Block) :
    (held live).bind Item.objectsOf = (live.filterMap Block.object : List _) := by
  induction live with
  | nil => rfl
  | cons b live ih =>
      rw [held_cons, Multiset.add_bind, Multiset.singleton_bind, ih, blockItem, List.filterMap_cons,
        Block.object]
      cases slotForSize b.size <;> rfl

theorem Rests.objects_eq (hs : s.Rests) : s.items.bind Item.objectsOf = s.objects := by
  have hfree : (∑ v, contents v (s.world.vec v).elems).bind Item.objectsOf =
      s.world.freeObjects := by
    rw [bind_objectsOf_sum]
    exact Finset.sum_congr rfl fun v _ => objectsOf_contents v _
  rw [hs.items_eq, World.items_inner, Multiset.add_bind, Multiset.add_bind, hfree, objectsOf_held,
    objects, World.ownObjects]

attribute [irreducible] World.freeObjects

theorem mem_objects_of_live {b : Block} {o : Slot × Nat} (hb : b ∈ s.live) (ho : b.object = some o) :
    o ∈ s.objects := by
  rw [objects, Multiset.mem_add]
  exact .inr (Multiset.mem_coe.mpr (List.mem_filterMap.mpr ⟨b, hb, ho⟩))

theorem nodup_live (h : s.objects.Nodup) : (s.live.filterMap Block.object).Nodup := by
  rw [objects, Multiset.nodup_add] at h
  exact Multiset.coe_nodup.mp h.2.1

/-- Between two calls each region is in the list of regions. -/
theorem Rests.exists_view (hs : s.Rests) {r : Nat} (h : Parsed s.items r) :
    ∃ view ∈ s.world.inner.regions.elems, view.ptr = r := by
  have hregions : ∃ i ∈ s.items, i.regions = {r} := by
    rcases h with h | ⟨n, h⟩
    · exact ⟨_, h, rfl⟩
    · exact ⟨_, h, rfl⟩
  obtain ⟨i, hi, hr⟩ := hregions
  have hne : i.regions ≠ 0 := hr ▸ Multiset.singleton_ne_zero r
  rcases Multiset.mem_add.mp hi with hi | hi
  · obtain ⟨view, hview, rfl⟩ := view_of_regions hs.states hi hne
    exact ⟨view, hview, Multiset.singleton_inj.mp hr⟩
  · obtain ⟨b, -, rfl⟩ := List.mem_map.mp (Multiset.mem_coe.mp hi)
    exact absurd (regions_blockItem b.size b.ptr) hne

/-- A chunk ends inside its region. -/
theorem chunk_end_le {k : ChunkKind} {c r : Nat} (h : ∀ u ∈ k.units c, u ∈ regionUnits r) :
    c + k.chunkSize ≤ r + regionSize := by
  cases k with
  | common => exact (mem_regionUnits (h c (ChunkKind.self_mem_units _ c))).2
  | large =>
      have hlast : c + 7 * commonChunkSize ∈ ChunkKind.large.units c :=
        List.mem_map.mpr ⟨7, by decide, rfl⟩
      have hend := (mem_regionUnits (h _ hlast)).2
      have hsize : ChunkKind.large.chunkSize = 8 * commonChunkSize := rfl
      omega

/-- In every state that is reached while no State has been stored inside a chain, no object is
there twice, no two objects share an address, and each lies in a chunk of its class, in a region
of the allocator and beside the metadata of the region. -/
theorem objects_apart (h : Reached calls s) (hstored : s.world.os.NoStateStored) :
    s.objects.Nodup ∧
      (∀ e ∈ s.objects, ∀ e' ∈ s.objects, e ≠ e' → (slotExtent e).Apart (slotExtent e')) ∧
      ∀ e ∈ s.objects, ∃ c ∈ (s.world.inner.chunkTable e.1).elems,
        ∃ view ∈ s.world.inner.regions.elems,
          view.ptr + commonChunkSize ≤ c ∧ c ≤ e.2 ∧ e.2 + e.1.realSize ≤ c + e.1.chunkSize ∧
            c + e.1.chunkSize ≤ view.ptr + regionSize := by
  obtain ⟨hs, hbooks⟩ := h.books
  have htidy := hbooks.tidy
  have hexact := hbooks.exact hstored
  obtain ⟨lost, hbalance, -⟩ := hexact.objects
  rw [hs.objects_eq] at hbalance
  have hle : s.objects ≤ s.items.bind Item.slotsOf :=
    hbalance ▸ Multiset.le_add_right s.objects lost
  have hitem : ∀ e ∈ s.objects, ∃ i ∈ s.items, e ∈ i.slotsOf := fun e he =>
    Multiset.mem_bind.mp (Multiset.mem_of_le hle he)
  refine ⟨Multiset.nodup_of_le hle (htidy.nodup_slots hexact), fun e he e' he' hne => ?_,
    fun e he => ?_⟩
  · obtain ⟨i, hi, hei⟩ := hitem e he
    obtain ⟨j, hj, hej⟩ := hitem e' he'
    exact htidy.slots_apart hexact hi hj hei hej hne
  · obtain ⟨i, hi, hei⟩ := hitem e he
    obtain ⟨c, hcut, n, hn, hptr⟩ := Item.mem_slotsOf hei
    have hend := slot_end_le hn
    -- no State cuts chunks now, so the chunk is in the table of the class
    have hrecorded : i = .recorded e.1 c := by
      cases i with
      | recorded t d =>
          cases hcut
          rfl
      | cutting k u => exact absurd hi (not_cutting_of_rests hs k u)
      | _ => cases hcut
    subst hrecorded
    refine ⟨c, (recorded_mem_items hs).mp hi, ?_⟩
    have hself : c ∈ (Item.recorded e.1 c).units := Multiset.mem_coe.mpr (e.1.kind.self_mem_units c)
    obtain ⟨r, hr, hregion⟩ := htidy.inRegion _ hi fun hzero => by simp [hzero] at hself
    obtain ⟨view, hview, rfl⟩ := hs.exists_view hr
    refine ⟨view, hview, (mem_regionUnits (hregion c hself)).1, by omega, by omega, ?_⟩
    rw [← e.1.chunkSize_kind]
    exact chunk_end_le fun u hu => hregion u (Multiset.mem_coe.mpr hu)

/-! ## Mappings -/

/-- The kernel grants what is apart from all that is mapped. -/
theorem ledger_apart : Ledger fun os _ _ => os.mappings.Pairwise Apart where
  grant h := h
  exchange _ hexchange h := by
    cases hexchange with
    | quiet hquiet => exact hquiet.mappings ▸ h
    | map r hfresh hmappings => exact hmappings ▸ List.pairwise_cons.mpr ⟨hfresh.2.2.2, h⟩
    | mapExtra size p hmappings _ _ hfresh =>
        exact hmappings ▸ List.pairwise_cons.mpr ⟨hfresh.2.2.2, h⟩
    | unmapExtra size p hmappings => exact hmappings ▸ h.sublist List.erase_sublist
    | releaseLast k c n => exact h.sublist List.erase_sublist
    | write s c p => exact (Os.mappings_initMetadata s _ p _).symm ▸ h
    | writeLarge s c p _ _ hquiet =>
        rw [hquiet.mappings, Os.mappings_initMetadata]
        exact h
    | commit s u => exact (Os.mappings_initMetadata s _ u.ptr _).symm ▸ h
    | _ => exact h

/-- Two of the mappings that are listed. -/
theorem apart_of_pair_le {ms : List (Nat × Nat)} {m n : Nat × Nat} (h : ms.Pairwise Apart)
    (hle : ({m} + {n} : Multiset (Nat × Nat)) ≤ ms) : Apart m n := by
  obtain ⟨pair, hperm, hsub⟩ : List.Subperm [m, n] ms := Multiset.coe_le.mp hle
  have hpair : [m, n].Pairwise Apart :=
    (hperm.pairwise_iff fun {_ _} hapart => Or.symm hapart).mp (h.sublist hsub)
  exact List.rel_of_pairwise_cons hpair List.mem_cons_self

/-- Two items are mapped apart. -/
theorem Reached.mappings_apart (h : Reached calls s) {i j : Item} {m n : Nat × Nat}
    (hle : {i} + {j} ≤ s.items) (hi : i.mapping = {m}) (hj : j.mapping = {n}) : Apart m n := by
  obtain ⟨-, hapart⟩ := h.ledger ledger_apart fun _ => List.Pairwise.nil
  obtain ⟨rest, hrest⟩ := Multiset.le_iff_exists_add.mp hle
  have hmapped := h.books.2.tidy.mapped
  rw [hrest, mappingsOf_add, mappingsOf_add, mappingsOf_singleton, mappingsOf_singleton, hi, hj]
    at hmapped
  exact apart_of_pair_le hapart ((Multiset.le_add_right _ _).trans hmapped)

/-- The item of a block without an object is its own mapping. -/
theorem mapping_blockItem {b : Block} (ho : b.object = none) :
    (blockItem b.size b.ptr).mapping = {(b.ptr, b.size)} := by
  have hnone : slotForSize b.size = none := Option.map_eq_none_iff.mp ho
  rw [blockItem, hnone]
  rfl

/-- A region that is listed, and a block that is live. -/
theorem view_add_block_le {view : RegionView} (hview : view ∈ s.world.inner.regions.elems)
    {b : Block} (hb : b ∈ s.live) :
    {viewItem view} + {blockItem b.size b.ptr} ≤ s.items := by
  have hitem : viewItem view ∈ s.world.holdings :=
    mem_holdings_of_contents (v := .regions) (Multiset.mem_coe.mpr (List.mem_map_of_mem hview))
  have hblock : blockItem b.size b.ptr ∈ held s.live :=
    Multiset.mem_coe.mpr (List.mem_map_of_mem (f := fun b : Block => blockItem b.size b.ptr) hb)
  exact add_le_add (Multiset.singleton_le.mpr hitem) (Multiset.singleton_le.mpr hblock)

/-- An object and an extra-large block share no address: the object lies in a region, which is
another mapping. -/
theorem apart_of_object_of_mapping (h : Reached calls s) (hstored : s.world.os.NoStateStored)
    {b b' : Block} (hb : b ∈ s.live) (hb' : b' ∈ s.live) {o : Slot × Nat} (ho : b.object = some o)
    (ho' : b'.object = none) : b.extent.Apart b'.extent := by
  obtain ⟨-, -, hinside⟩ := objects_apart h hstored
  obtain ⟨c, -, view, hview, hlow, hstart, hend, hhigh⟩ := hinside o (mem_objects_of_live hb ho)
  have happart : Apart (view.ptr, regionSize) (b'.ptr, b'.size) :=
    h.mappings_apart (view_add_block_le hview hb') rfl (mapping_blockItem ho')
  rw [Block.extent, Block.extent, ho, ho']
  unfold Apart at happart
  simp only [Extent.Apart, slotExtent]
  omega

/-! ## The allocator as a heap -/

/-- What callers see of the allocator: the addresses of the blocks that they have. -/
def heap (s : Session P) : Heap := (s.live.map Block.extent : List _)

/-- A block that has just been served shares no address with those that are live. -/
theorem apart_of_served {w : World P} {live : List Block} {b : Block}
    (h : Reached calls ⟨w, b :: live⟩) (hstored : w.os.NoStateStored) :
    ∀ b' ∈ live, b.extent.Apart b'.extent := by
  intro b' hb'
  have hmem' : b' ∈ b :: live := List.mem_cons_of_mem _ hb'
  cases ho : b.object with
  | some o =>
      cases ho' : b'.object with
      | none => exact apart_of_object_of_mapping h hstored List.mem_cons_self hmem' ho ho'
      | some o' =>
          obtain ⟨hnodup, hapart, -⟩ := objects_apart h hstored
          have hlive := nodup_live hnodup
          rw [List.filterMap_cons, ho, List.nodup_cons] at hlive
          rw [Block.extent, Block.extent, ho, ho']
          refine hapart o (mem_objects_of_live List.mem_cons_self ho) o'
            (mem_objects_of_live hmem' ho') ?_
          rintro rfl
          exact hlive.1 (List.mem_filterMap.mpr ⟨b', hb', ho'⟩)
  | none =>
      cases ho' : b'.object with
      | some o' =>
          exact (apart_of_object_of_mapping h hstored hmem' List.mem_cons_self ho' ho).symm
      | none =>
          have hpair : {blockItem b.size b.ptr} + {blockItem b'.size b'.ptr} ≤
              (Session.mk w (b :: live)).items := by
            rw [items, held_cons, held_erase hb', ← add_assoc ({_} : Multiset Item)]
            exact (Multiset.le_add_right _ _).trans (Multiset.le_add_left _ _)
          have hapart := h.mappings_apart hpair (mapping_blockItem ho) (mapping_blockItem ho')
          rw [Block.extent, Block.extent, ho, ho']
          exact hapart

/-- Each call is a step of a heap. -/
theorem Step.refines {c : Call} (h : Reached calls s) (hstep : Step s c s')
    (hstored : s'.world.os.NoStateStored) : Heap.Step s.heap c.action s'.heap := by
  have h' := h.step hstep
  cases hstep with
  | @served w w' live ptr size depth hserved =>
      refine .grant _ fun x hx => ?_
      obtain ⟨b', hb', rfl⟩ := List.mem_map.mp (Multiset.mem_coe.mp hx)
      exact apart_of_served h' hstored b' hb'
  | @freed w w' live b depth hlive hfreed =>
      have hheap : (Session.mk w live).heap =
          b.extent ::ₘ (Session.mk w' (live.erase b)).heap :=
        Multiset.coe_eq_coe.mpr ((List.perm_cons_erase hlive).map _)
      have hgive := Heap.Step.giveBack b.extent
        (Multiset.mem_cons_self b.extent (Session.mk w' (live.erase b)).heap)
      rw [hheap, Call.action]
      rwa [Multiset.erase_cons_head] at hgive
  | refused => exact .silent _
  | trimmed => exact .silent _
  | outside => exact .silent _

theorem refines_of_reached {calls' : List Call} (h : Reached calls s) (hrun : Run Step s calls' s')
    (hstored : s'.world.os.NoStateStored) :
    Run Heap.Step s.heap (calls'.map Call.action) s'.heap := by
  induction hrun generalizing calls with
  | nil s => exact .nil _
  | cons hstep hrest ih =>
      have hm := h.step hstep
      have hbefore := hstored.mono (log_suffix_of_run hrest hm.books.1)
      exact .cons (hstep.refines h hbefore) (ih hm hstored)

/-- To its callers the allocator is a heap, as long as no State is stored inside a chain: each
block that it serves, be it an object or an extra-large block, has room for what was asked for,
and meets none of the blocks that are live. -/
theorem refines_heap {replies : List Reply} (hrun : Run Step (initial P replies) calls s)
    (hstored : s.world.os.NoStateStored) :
    Run Heap.Step 0 (calls.map Call.action) s.heap ∧ s.heap.AllApart ∧
      ∀ b ∈ s.live, b.extent.start = b.ptr ∧ b.size ≤ b.extent.length := by
  have hheap : Run Heap.Step 0 (calls.map Call.action) s.heap :=
    refines_of_reached (reached_initial replies) hrun hstored
  refine ⟨hheap, Heap.allApart_of_run hheap, fun b _ => ?_⟩
  unfold Block.extent Block.object
  cases hslot : slotForSize b.size with
  | none => exact ⟨rfl, le_rfl⟩
  | some slot =>
      refine ⟨rfl, ?_⟩
      show b.size ≤ slot.realSize
      rw [(slotForSize_eq_some hslot).2.2]
      exact le_recommendedSize b.size

/-- A common block, a second one, and the first one given back. -/
theorem exists_reached_blocks : ∃ s : Session lockFreeParams,
    Reached [.served ⟨164036568, 24⟩, .served ⟨163970952, 100⟩, .freed ⟨164036568, 24⟩] s ∧
      s.world.os.NoStateStored ∧ s.live = [⟨163970952, 100⟩] := by
  have hrun : trial 4 (fun calls s => calls = [.served ⟨164036568, 24⟩, .served ⟨163970952, 100⟩,
        .freed ⟨164036568, 24⟩] && s.live = [⟨163970952, 100⟩] &&
      s.world.os.log = [.mapped 134217728 33554432])
      [.tryAlloc 24, .tryAlloc 100, .dealloc ⟨164036568, 24⟩] [] freshAllocator = true := by
    decide +kernel
  obtain ⟨calls, s, hreached, hcheck⟩ := reached_of_trial (reached_initial [⟨0, 134217728⟩]) hrun
  simp only [Bool.and_eq_true, decide_eq_true_eq] at hcheck
  obtain ⟨⟨rfl, hlive⟩, hlog⟩ := hcheck
  exact ⟨s, hreached, fun c hc => by simp [hlog] at hc, hlive⟩

theorem objects_apart_blocks : ∃ s : Session lockFreeParams,
    s.live = [⟨163970952, 100⟩] ∧ s.objects.Nodup := by
  obtain ⟨s, hreached, hstored, hlive⟩ := exists_reached_blocks
  exact ⟨s, hlive, (objects_apart hreached hstored).1⟩

/-- A common block and an extra-large one. -/
theorem exists_reached_mapped : ∃ s : Session lockFreeParams,
    Reached [.served ⟨164036568, 24⟩, .served ⟨4096, 200000⟩] s ∧ s.world.os.NoStateStored ∧
      s.live = [⟨4096, 200000⟩, ⟨164036568, 24⟩] ∧ s.world.inner.regions.len = 1 ∧
      sizeMap.entries s.world.inner.allocatedLargeSizes = [(200000, 1)] := by
  have hrun : trial 8 (fun calls s => calls = [.served ⟨164036568, 24⟩, .served ⟨4096, 200000⟩] &&
      s.live = [⟨4096, 200000⟩, ⟨164036568, 24⟩] &&
      s.world.os.log = [.mapped 4096 200000, .mapped 134217728 33554432] &&
      s.world.inner.regions.len = 1 &&
      sizeMap.entries s.world.inner.allocatedLargeSizes = [(200000, 1)])
      [.tryAlloc 24, .tryAlloc 200000] []
        (initial lockFreeParams [⟨0, 134217728⟩, ⟨0, 4096⟩]) = true := by
    decide +kernel
  obtain ⟨calls, s, hreached, hcheck⟩ := reached_of_trial (reached_initial _) hrun
  simp only [Bool.and_eq_true, decide_eq_true_eq] at hcheck
  obtain ⟨⟨⟨⟨rfl, hlive⟩, hlog⟩, hregions⟩, hentries⟩ := hcheck
  exact ⟨s, hreached, fun c hc => by simp [hlog] at hc, hlive, hregions, hentries⟩

theorem refines_heap_mapped : ∃ s : Session lockFreeParams,
    Run Heap.Step 0 [.grant ⟨164036568, 24⟩, .grant ⟨4096, 200000⟩] s.heap := by
  obtain ⟨s, hreached, hstored, -⟩ := exists_reached_mapped
  obtain ⟨replies, hrun⟩ := reached_iff.mp hreached
  exact ⟨s, (refines_heap hrun hstored).1⟩

end Session

end Memalart
