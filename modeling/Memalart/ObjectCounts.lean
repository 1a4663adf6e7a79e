/-
# How many objects of a class are out

The statistics compute the number of objects from the bytes of all chunks of a class
together, while every chunk is cut for itself, and what does not fill an object is lost
once for each chunk.  The two agree as long as these remainders stay below one object.
Then the number that is out is exact, and what is out once the callers have freed all
their blocks is what the allocator has counted for itself.
-/

import Mathlib.Algebra.BigOperators.Group.Finset.Piecewise
import Memalart.PublicRuns
import Memalart.Routing

namespace Memalart

open Memalart.Lib ThreadLocalAllocator

variable {P : Params}

/-! ## Objects among items -/

/-- How many of the objects or slots of items belong to a class. -/
def countIn (f : Item → Multiset (Slot × Nat)) (s : Slot) (items : Multiset Item) : Nat :=
  (items.bind f).countP fun e => e.1 = s

section Counts

variable (f : Item → Multiset (Slot × Nat)) (s : Slot)

@[simp] theorem countIn_zero : countIn f s 0 = 0 := by
  rw [countIn, Multiset.zero_bind, Multiset.countP_zero]

@[simp] theorem countIn_add (items items' : Multiset Item) :
    countIn f s (items + items') = countIn f s items + countIn f s items' := by
  rw [countIn, Multiset.add_bind, Multiset.countP_add, countIn, countIn]

/-- The count as a homomorphism. -/
def countInHom : Multiset Item →+ Nat where
  toFun := countIn f s
  map_zero' := countIn_zero f s
  map_add' := countIn_add f s

theorem countIn_sum {ι : Type} (vs : Finset ι) (items : ι → Multiset Item) :
    countIn f s (∑ v ∈ vs, items v) = ∑ v ∈ vs, countIn f s (items v) :=
  map_sum (countInHom f s) items vs

variable {f} in
theorem countIn_eq_zero {items : Multiset Item} (h : ∀ i ∈ items, f i = 0) :
    countIn f s items = 0 := by
  rw [countIn, bind_eq_zero h, Multiset.countP_zero]

/-- Of pairs with the same class all count or none. -/
theorem countP_pairs (t : Slot) (ptrs : List Nat) :
    ((ptrs.map fun p => (t, p) : List (Slot × Nat)) : Multiset (Slot × Nat)).countP
      (fun e => e.1 = s) = if t = s then ptrs.length else 0 := by
  rw [Multiset.coe_countP]
  by_cases ht : t = s
  · rw [if_pos ht, List.countP_eq_length.mpr, List.length_map]
    intro e he
    obtain ⟨p, -, rfl⟩ := List.mem_map.mp he
    exact decide_eq_true ht
  · rw [if_neg ht, List.countP_eq_zero]
    intro e he
    obtain ⟨p, -, rfl⟩ := List.mem_map.mp he
    exact fun h => ht (of_decide_eq_true h)

/-- The free vector of a class holds objects of the class, and no other vector does. -/
theorem objectsIn_contents (v : VecId) (xs : List v.Elem) :
    countIn Item.objectsOf s (contents v xs) = if v = .object s then xs.length else 0 := by
  cases v with
  | object t =>
      rw [countIn, contents, bind_objectsOf_all, countP_pairs]
      exact if_congr ⟨congrArg VecId.object, VecId.object.inj⟩ rfl rfl
  | regions =>
      rw [if_neg VecId.noConfusion]
      refine countIn_eq_zero s fun i hi => ?_
      obtain ⟨view, -, rfl⟩ := List.mem_map.mp (Multiset.mem_coe.mp hi)
      rfl
  | _ =>
      rw [if_neg VecId.noConfusion]
      refine countIn_eq_zero s fun i hi => ?_
      obtain ⟨p, -, rfl⟩ := mem_itemAll.mp hi
      rfl

/-- The chunk table of a class has all the slots of the class. -/
theorem slotsIn_contents (v : VecId) (xs : List v.Elem) :
    countIn Item.slotsOf s (contents v xs) =
      if v = .chunk s then xs.length * s.slotsPerChunk else 0 := by
  cases v with
  | chunk t =>
      have hchunk : ∀ c, countIn Item.slotsOf s {.recorded t c} =
          if t = s then s.slotsPerChunk else 0 := by
        intro c
        rw [countIn, Multiset.singleton_bind, Item.slotsOf, Slot.cutFrom, List.drop_zero]
        have hpairs := countP_pairs s t ((List.range t.slotsPerChunk).map fun i =>
          c + i * t.realSize)
        rw [List.map_map, List.length_map, List.length_range] at hpairs
        refine hpairs.trans ?_
        by_cases ht : t = s
        · rw [if_pos ht, if_pos ht, ht]
        · rw [if_neg ht, if_neg ht]
      have hall : countIn Item.slotsOf s (Item.all (.recorded t) xs) =
          if t = s then xs.length * s.slotsPerChunk else 0 := by
        induction xs with
        | nil => simp
        | cons c xs ih =>
            rw [Item.all_cons, countIn_add, ih, hchunk c]
            by_cases ht : t = s
            · rw [if_pos ht, if_pos ht, if_pos ht, List.length_cons, Nat.succ_mul, Nat.add_comm]
            · rw [if_neg ht, if_neg ht, if_neg ht]
      exact hall.trans (if_congr ⟨congrArg VecId.chunk, VecId.chunk.inj⟩ rfl rfl)
  | regions =>
      rw [if_neg VecId.noConfusion]
      refine countIn_eq_zero s fun i hi => ?_
      obtain ⟨view, -, rfl⟩ := List.mem_map.mp (Multiset.mem_coe.mp hi)
      rfl
  | _ =>
      rw [if_neg VecId.noConfusion]
      refine countIn_eq_zero s fun i hi => ?_
      obtain ⟨p, -, rfl⟩ := mem_itemAll.mp hi
      rfl

theorem slotsOf_blockItem (size ptr : Nat) : (blockItem size ptr).slotsOf = 0 := by
  unfold blockItem
  cases slotForSize size <;> rfl

/-- A size is served from a class exactly if it is rounded to the class's size. -/
theorem slotForSize_eq_some_iff {size : Nat} :
    slotForSize size = some s ↔ recommendedSize size = s.realSize := by
  constructor
  · exact fun h => (slotForSize_eq_some h).2.2.symm
  · intro h
    have hpos : 1 ≤ size := Nat.one_le_iff_ne_zero.mpr fun hzero => by
      rw [hzero] at h
      exact absurd h (Nat.ne_of_lt s.realSize_pos)
    have hhigh : size ≤ largeSizeMax := (le_recommendedSize size).trans (h ▸ s.bounds.2.2.1)
    obtain ⟨t, ht, hreal, -⟩ := slotForSize_spec hpos hhigh
    rw [ht, Slot.realSize_injective (hreal.trans h)]

/-- A block counts where the array of `allocated_for_self` counts its size. -/
theorem objectsIn_blockItem (size ptr : Nat) :
    countIn Item.objectsOf s {blockItem size ptr} =
      UsedObjects.total s.realSize [(1, recommendedSize size)] := by
  have hcount : countIn Item.objectsOf s {blockItem size ptr} =
      if slotForSize size = some s then 1 else 0 := by
    rw [countIn, Multiset.singleton_bind, blockItem]
    cases slotForSize size with
    | none => rfl
    | some t =>
        simp only [Item.objectsOf, Option.some.injEq]
        split
        · next ht => rw [Multiset.countP_eq_card.mpr (by simp [ht]), Multiset.card_singleton]
        · next ht => rw [Multiset.countP_eq_zero.mpr (by simp [ht])]
  rw [hcount, UsedObjects.total, UsedObjects.total, add_zero]
  exact if_congr (slotForSize_eq_some_iff s) rfl rfl

/-- A buffer counts by its bytes, and so does a missing one. -/
theorem objectsIn_bufferItems (v : VecId) (x : SelfAllocatedVec v.Elem) :
    countIn Item.objectsOf s (bufferItems v x.ptr x.cap) =
      UsedObjects.total s.realSize [(1, x.bytesAllocated v.elemSize)] := by
  unfold bufferItems
  split
  · next hcap =>
      rw [countIn_zero, SelfAllocatedVec.bytesAllocated, hcap, Nat.zero_mul]
      exact (UsedObjects.total_eq_zero fun e he => by
        obtain rfl := List.mem_singleton.mp he
        exact Nat.ne_of_lt s.realSize_pos).symm
  · exact objectsIn_blockItem s _ _

/-- The nodes of the tree are what the tree counts for itself. -/
theorem objectsIn_nodeItems (tree : P.tree.Tree) :
    countIn Item.objectsOf s (nodeItems (P.tree.nodes tree)) =
      UsedObjects.total s.realSize ((P.tree.selfAllocatedMemory tree).map fun e => (e.2, e.1)) := by
  rw [P.tree.total_selfAllocatedMemory _ _ (Nat.ne_of_gt s.realSize_pos)]
  induction P.tree.nodes tree with
  | nil => exact countIn_zero _ s
  | cons node nodes ih =>
      have hcons : nodeItems (node :: nodes) = {blockItem node.2 node.1} + nodeItems nodes := rfl
      rw [hcons, countIn_add, ih, objectsIn_blockItem, List.countP_cons, add_comm,
        UsedObjects.total, UsedObjects.total, add_zero]
      simp only [decide_eq_true_eq]

end Counts

/-! ## What the allocator has counted for itself -/

/-- A sum over all vectors follows that order. -/
theorem VecId.sum_eq (f : VecId → Nat) :
    ∑ v, f v = f .freeLargeChunks + f .freeCommonChunks + f .regions +
      ((ChunkKind.common.slots.map fun s => f (.object s)).sum +
        (ChunkKind.large.slots.map fun s => f (.object s)).sum +
        ((ChunkKind.common.slots.map fun s => f (.chunk s)).sum +
          (ChunkKind.large.slots.map fun s => f (.chunk s)).sum)) := by
  have huniv : (Finset.univ : Finset VecId) = inOrder.toFinset := by
    ext v
    simp only [Finset.mem_univ, List.mem_toFinset, mem_inOrder]
  rw [huniv, List.sum_toFinset f nodup_inOrder]
  simp only [inOrder, Slot.inOrder, List.map_append, List.map_cons, List.map_nil, List.sum_append,
    List.sum_cons, List.sum_nil, List.map_map, Function.comp_def]
  omega

theorem UsedObjects.total_map {ι : Type} (size : Nat) (xs : List ι) (f : ι → Nat) :
    UsedObjects.total size (xs.map fun x => (1, f x)) =
      (xs.map fun x => UsedObjects.total size [(1, f x)]).sum := by
  induction xs with
  | nil => rfl
  | cons x xs ih =>
      rw [List.map_cons, List.map_cons, List.sum_cons, ← ih]
      simp only [UsedObjects.total, add_zero]

namespace World

variable {w : World P} (s : Slot)

/-- The count of a buffer. -/
def bufferCount (w : World P) (s : Slot) (v : VecId) : Nat :=
  UsedObjects.total s.realSize [(1, w.bytesAllocated v)]

/-- A chunk table counts its box and its vectors, and nothing before it exists. -/
theorem WellFormed.total_tableSizes (h : w.WellFormed) (k : ChunkKind) :
    UsedObjects.total s.realSize (w.tableSizes k) =
      countIn Item.objectsOf s (blockOf (chunkTableSize k) (chunkTableBox k w)) +
        (k.slots.map fun t => w.bufferCount s (.chunk t)).sum := by
  unfold World.tableSizes
  cases hbox : chunkTableBox k w with
  | none =>
      have hnone : ∀ t ∈ k.slots, w.bufferCount s (.chunk t) = 0 := by
        intro t ht
        have hnew : w.vec (.chunk t) = .new := h.boxes k hbox t (kind_of_mem_slots ht)
        have hbytes : w.bytesAllocated (.chunk t) = 0 := by
          rw [World.bytesAllocated, hnew, SelfAllocatedVec.bytesAllocated, SelfAllocatedVec.cap_new,
            Nat.zero_mul]
          rfl
        rw [bufferCount, hbytes]
        exact UsedObjects.total_eq_zero fun e he => by
          obtain rfl := List.mem_singleton.mp he
          exact Nat.ne_of_lt s.realSize_pos
      rw [blockOf_none, countIn_zero, List.map_congr_left hnone, List.map_const', List.sum_replicate,
        nsmul_zero]
      rfl
  | some ptr =>
      have hvecs := UsedObjects.total_map s.realSize k.slots fun t => w.bytesAllocated (.chunk t)
      rw [blockOf_some, objectsIn_blockItem]
      simp only [UsedObjects.total, add_zero, hvecs, bufferCount]

/-- What `allocated_for_self` says about a class, by what it counts. -/
theorem WellFormed.total_selfAllocatedSizes (h : w.WellFormed) :
    UsedObjects.total s.realSize w.selfAllocatedSizes =
      countIn Item.objectsOf s (managerItems P w.inner.nonLocalPtrManager) +
        (countIn Item.objectsOf s (blockOf (chunkTableSize .common) w.inner.commonChunkTable) +
          countIn Item.objectsOf s (blockOf (chunkTableSize .large) w.inner.largeChunkTable)) +
        ∑ v, w.bufferCount s v +
        countIn Item.objectsOf s (nodeItems (P.tree.nodes w.inner.allocatedLargeSizes)) := by
  have hcommon := h.total_tableSizes s .common
  have hlarge := h.total_tableSizes s .large
  have hobjects : ∀ k : ChunkKind, UsedObjects.total s.realSize
      (k.slots.map fun t => (1, w.bytesAllocated (.object t))) =
        (k.slots.map fun t => w.bufferCount s (.object t)).sum := fun k =>
    UsedObjects.total_map s.realSize k.slots fun t => w.bytesAllocated (.object t)
  have hthree : UsedObjects.total s.realSize [(1, w.bytesAllocated .freeLargeChunks),
      (1, w.bytesAllocated .freeCommonChunks), (1, w.bytesAllocated .regions)] =
        w.bufferCount s .freeLargeChunks + w.bufferCount s .freeCommonChunks +
          w.bufferCount s .regions := by
    simp only [bufferCount, UsedObjects.total, add_zero]
    omega
  rw [selfAllocatedSizes, VecId.sum_eq, objectsIn_nodeItems]
  simp only [UsedObjects.total_append, hcommon, hlarge, hobjects, hthree, chunkTableBox]
  unfold managerItems
  by_cases hzero : P.managerSize = 0
  · simp only [hzero, ne_eq, not_true_eq_false, if_true, if_false, countIn_zero]
    cases w.inner.nonLocalPtrManager with
    | none =>
        rw [UsedObjects.total]
        omega
    | some m =>
        rw [UsedObjects.total]
        omega
  · simp only [hzero, ne_eq, not_false_eq_true, if_true, if_false]
    cases w.inner.nonLocalPtrManager with
    | none =>
        rw [UsedObjects.total, blockOf_none, countIn_zero]
        omega
    | some m =>
        rw [blockOf_some, objectsIn_blockItem]
        dsimp only
        omega

/-- What the allocator has of a class is what is free and what it has counted for itself. -/
theorem WellFormed.objectsIn_items (h : w.WellFormed) :
    countIn Item.objectsOf s w.inner.items =
      (w.inner.objectTable s).len + UsedObjects.total s.realSize w.selfAllocatedSizes := by
  have hsplit : ∀ v, countIn Item.objectsOf s (vecItems v (w.inner.vec v)) =
      (if v = .object s then (w.inner.objectTable s).len else 0) + w.bufferCount s v := by
    intro v
    rw [vecItems, countIn_add, objectsIn_contents, objectsIn_bufferItems]
    refine congrArg₂ (· + ·) ?_ rfl
    by_cases hv : v = .object s
    · subst hv
      rfl
    · rw [if_neg hv, if_neg hv]
  have hvecs : countIn Item.objectsOf s (∑ v, vecItems v (w.inner.vec v)) =
      (w.inner.objectTable s).len + ∑ v, w.bufferCount s v := by
    rw [countIn_sum, Finset.sum_congr rfl fun v _ => hsplit v, Finset.sum_add_distrib,
      Finset.sum_ite_eq', if_pos (Finset.mem_univ _)]
  rw [ThreadLocalAllocatorInner.items, h.total_selfAllocatedSizes]
  simp only [countIn_add, hvecs]
  omega

end World

/-! ## Chunks fit into the address space -/

/-- The regions end below the end of the address space. -/
def RegionsFit (items : Multiset Item) : Prop := ∀ r ∈ regionsOf items, r + regionSize ≤ usizeRange

/-- Only a fresh mapping brings a region. -/
theorem Exchange.regions {os os' : Os} {m m' : Option Nat} {gone new : Multiset Item}
    (h : Exchange os m gone new os' m') {r : Nat} (hr : r ∈ regionsOf new) :
    r ∈ regionsOf gone ∨ r + regionSize ≤ usizeRange := by
  have hnone : ∀ {items : Multiset Item}, (∀ i ∈ items, i.regions = 0) → r ∉ regionsOf items :=
    fun hitems hmem => by
      rw [regionsOf_eq_zero hitems] at hmem
      exact Multiset.notMem_zero r hmem
  have hall : ∀ {item : Nat → Item} {ptrs : List Nat}, (∀ p, (item p).regions = 0) →
      ∀ i ∈ Item.all item ptrs, i.regions = 0 := fun hitem i hi => by
    obtain ⟨p, -, rfl⟩ := mem_itemAll.mp hi
    exact hitem p
  cases h with
  | map r' hfresh =>
      obtain rfl : r = r' := by simpa [Item.regions] using hr
      exact .inr hfresh.2.2.1
  | parse r' =>
      obtain rfl : r = r' := by simpa [Item.regions] using hr
      exact .inl (by simp [Item.regions])
  | enter r' =>
      obtain rfl : r = r' := by simpa [Item.regions] using hr
      exact .inl (by simp [Item.regions])
  | release k c n =>
      obtain rfl : r = regionPtrFromChunkPtr c := by simpa [Item.regions] using hr
      exact .inl (by simp [Item.regions])
  | split c => exact absurd hr (hnone (hall fun _ => rfl))
  | record s c =>
      refine absurd hr (hnone fun i hi => ?_)
      rcases mem_cut_items hi with rfl | rfl | ⟨p, rfl⟩ <;> rfl
  | commit s u =>
      refine absurd hr (hnone fun i hi => ?_)
      rcases Multiset.mem_add.mp hi with hi | hi
      · obtain rfl := Multiset.mem_singleton.mp hi
        rfl
      · exact hall (fun _ => rfl) i hi
  | _ => exact absurd hr (hnone (by simp [Item.regions]))

theorem ledger_regionsFit : Ledger fun _ _ items => RegionsFit items where
  exchange rest hexchange hfit r hr := by
    rw [RegionsFit, regionsOf_add] at hfit
    rw [regionsOf_add] at hr
    rcases Multiset.mem_add.mp hr with hr | hr
    · rcases hexchange.regions hr with hgone | hle
      · exact hfit r (Multiset.mem_add.mpr (.inl hgone))
      · exact hle
    · exact hfit r (Multiset.mem_add.mpr (.inr hr))
  grant hfit r hr := by
    rw [regionsOf_add, regionsOf_singleton] at hr
    exact hfit r (by simpa [Item.regions] using hr)

/-- The chunks of a table cover different units of the address space. -/
theorem length_chunks_mul_le {os : Os} {items rest : Multiset Item} {s : Slot} {chunks : List Nat}
    (htidy : Tidy os items) (hfit : RegionsFit items)
    (hitems : items = Item.all (.recorded s) chunks + rest) :
    chunks.length * s.chunkSize ≤ usizeRange := by
  have hunits : ∀ chunks : List Nat, unitsOf (Item.all (.recorded s) chunks) =
      (chunks.flatMap s.kind.units : List Nat) := by
    intro chunks
    induction chunks with
    | nil => exact unitsOf_zero
    | cons c chunks ih =>
        rw [Item.all_cons, unitsOf_add, ih, unitsOf_singleton]
        rfl
  have hnodup : (chunks.flatMap s.kind.units).Nodup := by
    have hall := htidy.units_nodup
    rw [hitems, unitsOf_add, hunits] at hall
    exact Multiset.coe_nodup.mp (Multiset.nodup_of_le (Multiset.le_add_right _ _) hall)
  have hbound : ∀ u ∈ chunks.flatMap s.kind.units, unitOf u = u ∧ u + commonChunkSize ≤ usizeRange := by
    intro u hu
    have hmem : u ∈ unitsOf items := by
      rw [hitems, unitsOf_add, hunits]
      exact Multiset.mem_add.mpr (.inl (Multiset.mem_coe.mpr hu))
    obtain ⟨hparsed, hregion⟩ := htidy.parsed_of_unit hmem
    have hend := hfit _ hparsed.mem_regionsOf
    have hlast := (mem_regionUnits hregion).2
    exact ⟨(unit_of_region (htidy.aligned _ hparsed.mem_regionsOf) hregion).1, by omega⟩
  have hindices : ((chunks.flatMap s.kind.units).map (· / commonChunkSize)).Nodup := by
    refine (List.nodup_map_iff_inj_on hnodup).mpr fun u hu v hv heq => ?_
    rw [← (hbound u hu).1, ← (hbound v hv).1, unitOf, unitOf, heq]
  have hrange : (chunks.flatMap s.kind.units).map (· / commonChunkSize) ⊆
      List.range (usizeRange / commonChunkSize) := by
    intro i hi
    obtain ⟨u, hu, rfl⟩ := List.mem_map.mp hi
    have hlast := (hbound u hu).2
    rw [List.mem_range]
    simp only [usizeRange, commonChunkSize] at hlast ⊢
    omega
  have hcount := (List.subperm_of_subset hindices hrange).length_le
  have hlength : (chunks.flatMap s.kind.units).length = chunks.length * s.kind.numberOfUnits := by
    rw [List.length_flatMap, List.map_congr_left fun c _ => s.kind.length_units c, List.map_const',
      List.sum_replicate_nat]
  rw [List.length_map, List.length_range, hlength] at hcount
  have hchunk : s.chunkSize = s.kind.numberOfUnits * commonChunkSize := by
    cases s with
    | common idx => exact (Nat.one_mul commonChunkSize).symm
    | large idx => exact (by decide : largeChunkSize = commonChunksInLargeChunk * commonChunkSize)
  calc chunks.length * s.chunkSize
      = chunks.length * s.kind.numberOfUnits * commonChunkSize := by rw [hchunk, Nat.mul_assoc]
    _ ≤ usizeRange / commonChunkSize * commonChunkSize := Nat.mul_le_mul_right _ hcount
    _ ≤ usizeRange := Nat.div_mul_le_self _ _

/-! ## A chunk that is cut has a manager -/

/-- Without a manager, every recorded chunk still waits for its metadata. -/
def Unmanaged (os : Os) (m : Option Nat) (items : Multiset Item) : Prop :=
  os.NoChunkLeftUncut → m = none →
    ∀ s c, items.count (.recorded s c) ≤ items.count (.unwritten s c)

/-- The item is in no chunk table and waits for no metadata. -/
def Item.isUnrecorded : Item → Bool
  | .recorded _ _ | .unwritten _ _ => false
  | _ => true

theorem Unmanaged.keep {os os' : Os} {m m' : Option Nat} {gone new rest : Multiset Item}
    (h : Unmanaged os m (gone + rest)) (hlog : os.log <:+ os'.log) (hm : m' = none → m = none)
    (hgone : ∀ i ∈ gone, i.isUnrecorded) (hnew : ∀ i ∈ new, i.isUnrecorded) :
    Unmanaged os' m' (new + rest) := by
  have hzero : ∀ {items : Multiset Item} {i : Item}, (∀ j ∈ items, j.isUnrecorded) →
      i.isUnrecorded = false → items.count i = 0 := fun hitems hi =>
    Multiset.count_eq_zero.mpr fun hmem => by
      rw [hitems _ hmem] at hi
      cases hi
  intro hcut hnone s c
  have hle := h (hcut.mono hlog) (hm hnone) s c
  rw [Multiset.count_add, Multiset.count_add, hzero hgone rfl, hzero hgone rfl] at hle
  rw [Multiset.count_add, Multiset.count_add, hzero hnew rfl, hzero hnew rfl]
  exact hle

theorem unmanaged_exchange {os os' : Os} {m m' : Option Nat} {gone new : Multiset Item}
    (rest : Multiset Item) (h : Exchange os m gone new os' m')
    (hunmanaged : Unmanaged os m (gone + rest)) : Unmanaged os' m' (new + rest) := by
  have hlog := h.log_suffix
  have hall : ∀ {item : Nat → Item} {ptrs : List Nat}, (∀ p, (item p).isUnrecorded) →
      ∀ i ∈ Item.all item ptrs, i.isUnrecorded := fun hitem i hi => by
    obtain ⟨p, -, rfl⟩ := mem_itemAll.mp hi
    exact hitem p
  cases h with
  | manage | write | writeLarge | commit | enter =>
      exact fun _ hnone => absurd hnone (Option.some_ne_none _)
  | leaveUncut s c hleft => exact fun hcut _ => absurd hleft (hcut c)
  | record s c =>
      intro hcut hnone t d
      have hle := hunmanaged hcut hnone t d
      have hobjects : ∀ i : Item, i.isUnrecorded = false → (s.objects c).count i = 0 := fun i hi =>
        Multiset.count_eq_zero.mpr fun hmem => by
          rw [hall (fun _ => rfl) i hmem] at hi
          cases hi
      simp only [Multiset.count_add, Multiset.count_singleton, hobjects (.recorded t d) rfl,
        hobjects (.unwritten t d) rfl, Item.recorded.injEq,
        Item.unwritten.injEq, reduceCtorEq, if_false] at hle ⊢
      omega
  | parse r =>
      refine hunmanaged.keep hlog id (by simp [Item.isUnrecorded]) fun i hi => ?_
      rcases Multiset.mem_add.mp hi with hi | hi
      · obtain rfl := Multiset.mem_singleton.mp hi
        rfl
      · obtain ⟨k, c, rfl⟩ := mem_regionChunks hi
        rfl
  | split c => exact hunmanaged.keep hlog id (by simp [Item.isUnrecorded]) (hall fun _ => rfl)
  | _ => exact hunmanaged.keep hlog id (by simp [Item.isUnrecorded]) (by simp [Item.isUnrecorded])

/-- The ledger of managers. -/
theorem ledger_unmanaged : Ledger Unmanaged where
  exchange rest hexchange h := unmanaged_exchange rest hexchange h
  grant {os m items} h := by
    have hzero : Unmanaged os m (0 + items) := by rwa [zero_add]
    exact hzero.keep List.suffix_rfl id (by simp) (by simp [Item.isUnrecorded])

/-! ## Between two calls -/

namespace World

variable {w : World P} (s : Slot)

/-- Without bootstrap States only the chunk table of a class has slots of the class. -/
theorem slotsIn_items (w : World P) :
    countIn Item.slotsOf s w.inner.items = (w.inner.chunkTable s).len * s.slotsPerChunk := by
  have hblock : ∀ size ptr, countIn Item.slotsOf s {blockItem size ptr} = 0 := fun size ptr =>
    countIn_eq_zero s fun i hi => by
      obtain rfl := Multiset.mem_singleton.mp hi
      exact slotsOf_blockItem size ptr
  have hblockOf : ∀ size ptr, countIn Item.slotsOf s (blockOf size ptr) = 0 := by
    intro size ptr
    cases ptr with
    | none => exact countIn_zero _ s
    | some ptr => exact hblock size ptr
  have hvec : ∀ v, countIn Item.slotsOf s (vecItems v (w.inner.vec v)) =
      if v = .chunk s then (w.inner.chunkTable s).len * s.slotsPerChunk else 0 := by
    intro v
    have hbuffer : countIn Item.slotsOf s
        (bufferItems v (w.inner.vec v).ptr (w.inner.vec v).cap) = 0 := by
      unfold bufferItems
      split
      · exact countIn_zero _ s
      · exact hblock _ _
    rw [vecItems, countIn_add, hbuffer, add_zero, slotsIn_contents]
    by_cases hv : v = .chunk s
    · subst hv
      rfl
    · rw [if_neg hv, if_neg hv]
  have hmanager : countIn Item.slotsOf s (managerItems P w.inner.nonLocalPtrManager) = 0 := by
    unfold managerItems
    split
    · exact countIn_zero _ s
    · exact hblockOf _ _
  have hnodes : countIn Item.slotsOf s (nodeItems (P.tree.nodes w.inner.allocatedLargeSizes)) = 0 :=
    countIn_eq_zero s fun i hi => by
      obtain ⟨node, -, rfl⟩ := List.mem_map.mp (Multiset.mem_coe.mp hi)
      exact slotsOf_blockItem _ _
  rw [ThreadLocalAllocatorInner.items]
  simp only [countIn_add, hblockOf, hmanager, hnodes, add_zero]
  rw [countIn_sum, Finset.sum_congr rfl fun v _ => hvec v, Finset.sum_ite_eq',
    if_pos (Finset.mem_univ _)]

end World

namespace Session

variable {s : Session P} {calls : List Call}

theorem Rests.items_eq (hs : s.Rests) : s.items = s.world.inner.items + held s.live := by
  rw [items, World.holdings, hs.states, List.map_nil, List.sum_nil, add_zero]

/-- The slots of the chunks of a class are its free objects, those that the allocator counts
for itself, the live blocks of the class, and what early returns have lost. -/
theorem Reached.balance (h : Reached calls s) (hstored : s.world.os.NoStateStored) (slot : Slot) :
    ∃ lost, (s.world.inner.objectTable slot).len +
        UsedObjects.total slot.realSize s.world.selfAllocatedSizes +
        countIn Item.objectsOf slot (held s.live) + lost =
        (s.world.inner.chunkTable slot).len * slot.slotsPerChunk ∧
      (s.world.os.NoChunkLeftUncut → lost = 0) := by
  obtain ⟨hs, hbooks⟩ := h.books
  obtain ⟨lost, hobjects, hlost⟩ := (hbooks.exact hstored).objects
  refine ⟨lost.countP fun e => e.1 = slot, ?_, fun hcut => ?_⟩
  · have hheld : countIn Item.slotsOf slot (held s.live) = 0 := countIn_eq_zero slot fun i hi => by
      obtain ⟨b, -, rfl⟩ := List.mem_map.mp (Multiset.mem_coe.mp hi)
      exact slotsOf_blockItem _ _
    have hslots : countIn Item.slotsOf slot s.items =
        (s.world.inner.chunkTable slot).len * slot.slotsPerChunk := by
      rw [hs.items_eq, countIn_add, hheld, add_zero, s.world.slotsIn_items]
    have hall : countIn Item.objectsOf slot s.items =
        (s.world.inner.objectTable slot).len +
          UsedObjects.total slot.realSize s.world.selfAllocatedSizes +
          countIn Item.objectsOf slot (held s.live) := by
      rw [hs.items_eq, countIn_add, hs.formed.objectsIn_items]
    rw [← hslots, ← hall, countIn, countIn, ← hobjects, Multiset.countP_add]
  · rw [hlost hcut, Multiset.countP_zero]

/-- An allocator that has cut a chunk has a manager. -/
theorem Reached.manager_ne_none (h : Reached calls s) (hcut : s.world.os.NoChunkLeftUncut)
    {slot : Slot} (hchunk : (s.world.inner.chunkTable slot).elems ≠ []) :
    s.world.inner.nonLocalPtrManager ≠ none := by
  intro hnone
  obtain ⟨hs, hunmanaged⟩ := h.ledger ledger_unmanaged fun _ => by simp [Unmanaged]
  obtain ⟨c, hc⟩ := List.exists_mem_of_ne_nil _ hchunk
  have hrecorded : .recorded slot c ∈ s.items := (recorded_mem_items hs).mpr hc
  have hle := hunmanaged hcut hnone slot c
  rw [Multiset.count_eq_zero.mpr (not_unwritten_of_rests hs slot c)] at hle
  exact absurd (Multiset.count_pos.mpr hrecorded) (Nat.not_lt.mpr hle)

/-- The bytes of the chunks of a class fit into the address space. -/
theorem Reached.chunks_le (h : Reached calls s) (slot : Slot) :
    (s.world.inner.chunkTable slot).len * slot.chunkSize ≤ usizeRange := by
  have htidy := h.books.2.tidy
  have hfit := (h.ledger ledger_regionsFit fun _ r hr => by simp at hr).2
  have hle : Item.all (.recorded slot) (s.world.inner.chunkTable slot).elems ≤ s.items :=
    ((Multiset.le_add_right _ _).trans (s.world.vecItems_le_holdings (.chunk slot))).trans
      (Multiset.le_add_right _ _)
  obtain ⟨rest, hrest⟩ := Multiset.le_iff_exists_add.mp hle
  exact length_chunks_mul_le htidy hfit hrest

end Session

end Memalart
