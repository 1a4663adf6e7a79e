/-
# What becomes of a free chunk

A call that fails must not lose memory.  A chunk that was free before the call is free
afterwards, or it is in a chunk table with every slot free or in use; a large chunk may
also have become eight common ones.  Only a chunk that an early return forgets, that is
left uncut, or that is given back to its region comes to another end.
-/

import Memalart.ExactStats

namespace Memalart

open Memalart.Lib ThreadLocalAllocator

variable {P : Params}

/-! ## Chunks among items -/

/-- The chunk is free, or each of its slots is an object or has still to be cut. -/
inductive Lodged (items : Multiset Item) (k : ChunkKind) (c : Nat) : Prop
  | free (h : .chunk k c ∈ items)
  | recorded (s : Slot) (hkind : s.kind = k) (h : .recorded s c ∈ items)
      (hobjects : ∀ i < s.slotsPerChunk, .object s (c + i * s.realSize) ∈ items)
  | cutting (s : Slot) (u : UsedChunk) (hkind : s.kind = k) (hsize : u.size = s.realSize)
      (hptr : u.ptr = c) (h : .cutting k u ∈ items)
      (hobjects : ∀ i, u.numberOfFreeSlots ≤ i → i < s.slotsPerChunk →
        .object s (c + i * s.realSize) ∈ items)

/-- The chunk is lodged, or it has been split into common chunks that are. -/
def Kept (items : Multiset Item) (k : ChunkKind) (c : Nat) : Prop :=
  Lodged items k c ∨ (k = .large ∧ ∀ u ∈ splitLargeChunkToCommon c, Lodged items .common u)

/-- None of the ways to lose a chunk has been taken for one that covers these units. -/
def Os.Remembers (os : Os) (k : ChunkKind) (c : Nat) : Prop :=
  ∀ u ∈ k.units c, .chunkGivenBack u ∉ os.log ∧ .chunkAbandoned u ∉ os.log ∧
    .chunkLeftUncut u ∉ os.log

theorem Os.Remembers.mono {os os' : Os} {k : ChunkKind} {c : Nat} (h : os'.Remembers k c)
    (hlog : os.log <:+ os'.log) : os.Remembers k c := fun u hu =>
  have hu' := h u hu
  ⟨fun hmem => hu'.1 (hlog.subset hmem), fun hmem => hu'.2.1 (hlog.subset hmem),
    fun hmem => hu'.2.2 (hlog.subset hmem)⟩

/-- The common chunks of a large one are remembered with it. -/
theorem Os.Remembers.split {os : Os} {c u : Nat} (h : os.Remembers .large c)
    (hu : u ∈ splitLargeChunkToCommon c) : os.Remembers .common u := fun v hv => by
  obtain rfl : v = u := List.mem_singleton.mp hv
  exact h v hu

/-! ## One exchange -/

section Exchange

variable {os os' : Os} {m m' : Option Nat} {gone new rest : Multiset Item} {k : ChunkKind} {c : Nat}

/-- An exchange that takes away no object and no recorded chunk has to account for the
chunk itself. -/
theorem Lodged.exchange (hl : Lodged (gone + rest) k c)
    (hobject : ∀ s p, .object s p ∉ gone) (hrecorded : ∀ s, .recorded s c ∉ gone)
    (hfree : .chunk k c ∈ gone → Lodged (new + rest) k c)
    (hcutting : ∀ s u, s.kind = k → u.size = s.realSize → u.ptr = c → .cutting k u ∈ gone →
      (∀ i, u.numberOfFreeSlots ≤ i → i < s.slotsPerChunk →
        .object s (c + i * s.realSize) ∈ rest) → Lodged (new + rest) k c) :
    Lodged (new + rest) k c := by
  have hrest : ∀ {i : Item}, i ∉ gone → i ∈ gone + rest → i ∈ rest := fun hgone hi =>
    (Multiset.mem_add.mp hi).resolve_left hgone
  have hkeep : ∀ {i : Item}, i ∈ rest → i ∈ new + rest := fun hi => Multiset.mem_add.mpr (.inr hi)
  cases hl with
  | free h =>
      rcases Multiset.mem_add.mp h with h | h
      · exact hfree h
      · exact .free (hkeep h)
  | recorded s hkind h hobjects =>
      exact .recorded s hkind (hkeep (hrest (hrecorded s) h)) fun i hi =>
        hkeep (hrest (hobject s _) (hobjects i hi))
  | cutting s u hkind hsize hptr h hobjects =>
      have hobjects' : ∀ i, u.numberOfFreeSlots ≤ i → i < s.slotsPerChunk →
          .object s (c + i * s.realSize) ∈ rest := fun i hle hlt =>
        hrest (hobject s _) (hobjects i hle hlt)
      rcases Multiset.mem_add.mp h with h | h
      · exact hcutting s u hkind hsize hptr h hobjects'
      · exact .cutting s u hkind hsize hptr (hkeep h) fun i hle hlt => hkeep (hobjects' i hle hlt)

/-- An exchange that takes away nothing of a chunk. -/
theorem Lodged.keep (hl : Lodged (gone + rest) k c)
    (hgone : ∀ i ∈ gone, i.units = 0 ∧ i.objectsOf = 0) : Lodged (new + rest) k c := by
  have hunits : ∀ i ∈ gone, c ∉ i.units := fun i hi => by
    rw [(hgone i hi).1]
    exact Multiset.notMem_zero c
  refine hl.exchange (fun s p hp => ?_) (fun s hs => ?_) (fun hc => ?_) fun s u _ _ hptr hu _ => ?_
  · have hnone : ({(s, p)} : Multiset (Slot × Nat)) = 0 := (hgone _ hp).2
    exact absurd hnone (Multiset.singleton_ne_zero _)
  · exact absurd (Multiset.mem_coe.mpr (s.kind.self_mem_units c)) (hunits _ hs)
  · exact absurd (Multiset.mem_coe.mpr (k.self_mem_units c)) (hunits _ hc)
  · exact absurd (Multiset.mem_coe.mpr (hptr ▸ k.self_mem_units u.ptr)) (hunits _ hu)

/-- The slot of a chunk begins in a unit of the chunk. -/
theorem Tidy.unitOf_slot (h : Tidy os rest) {i : Item} (hi : i ∈ rest) {s : Slot}
    (hunits : i.units = (s.kind.units c : Multiset Nat)) {n : Nat} (hn : n < s.slotsPerChunk) :
    unitOf (c + n * s.realSize) ∈ s.kind.units c := by
  have hself : c ∈ i.units := hunits ▸ Multiset.mem_coe.mpr (s.kind.self_mem_units c)
  obtain ⟨r, hr, hregion⟩ := h.inRegion i hi fun hzero => by simp [hzero] at hself
  refine unitOf_mem_units (h.aligned r hr.mem_regionsOf) (hregion c hself) (Nat.le_add_right _ _) ?_
  have hlt := lt_chunkSize_of_lt_div hn
  rw [s.chunkSize_kind]
  omega

/-- The slots of a chunk are not those of another one that is recorded. -/
theorem Tidy.slot_apart (h : Tidy os rest) {i : Item} (hi : i ∈ rest) {s t : Slot}
    (hunits : i.units = (t.kind.units c : Multiset Nat)) {d : Nat} (hd : .recorded s d ∈ rest)
    (hne : i ≠ .recorded s d) {n : Nat} (hn : n < t.slotsPerChunk) :
    .object t (c + n * t.realSize) ∉ s.objects d := by
  intro hobject
  obtain ⟨p, hp, heq⟩ := mem_itemAll.mp hobject
  obtain ⟨j, hj, rfl⟩ := mem_firstSlots.mp hp
  obtain ⟨rfl, hptr⟩ := Item.object.inj heq
  have hmine := h.unitOf_slot hi hunits hn
  have hother := h.unitOf_slot hd rfl hj
  rw [hptr] at hother
  exact h.units_disjoint hi hd hne (hunits ▸ Multiset.mem_coe.mpr hmine)
    (Multiset.mem_coe.mpr hother)

/-- Forgetting the slots of one chunk does not touch another one. -/
theorem Lodged.leaveUncut {s : Slot} {d : Nat} (ht : Tidy os ({.unwritten s d} + s.objects d + rest))
    (hne : c ≠ d) (hl : Lodged ({.unwritten s d} + s.objects d + rest) k c) : Lodged rest k c := by
  have hd : .recorded s d ∈ {.unwritten s d} + s.objects d + rest := ht.unwritten s d (by simp)
  have hobject : ∀ {t : Slot} {n : Nat}, .object t (c + n * t.realSize) ∉ s.objects d →
      .object t (c + n * t.realSize) ∈ {.unwritten s d} + s.objects d + rest →
      .object t (c + n * t.realSize) ∈ rest := by
    intro t n hnot hmem
    simpa [hnot] using hmem
  have hother : ∀ {i : Item}, (∀ p, i ≠ .object s p) → i ≠ .unwritten s d →
      i ∈ {.unwritten s d} + s.objects d + rest → i ∈ rest := by
    intro i hi hunwritten hmem
    rcases Multiset.mem_add.mp hmem with hmem | hmem
    · rcases Multiset.mem_add.mp hmem with hmem | hmem
      · exact absurd (Multiset.mem_singleton.mp hmem) hunwritten
      · obtain ⟨p, -, rfl⟩ := mem_itemAll.mp hmem
        exact absurd rfl (hi p)
    · exact hmem
  cases hl with
  | free h => exact .free (hother (by simp) (by simp) h)
  | recorded t hkind h hobjects =>
      subst hkind
      refine .recorded t rfl (hother (by simp) (by simp) h) fun i hi => ?_
      have hother' : Item.recorded t c ≠ .recorded s d := fun heq => hne (Item.recorded.inj heq).2
      exact hobject (ht.slot_apart h rfl hd hother' hi) (hobjects i hi)
  | cutting t u hkind hsize hptr h hobjects =>
      subst hkind hptr
      refine .cutting t u rfl hsize rfl (hother (by simp) (by simp) h) fun i hle hi => ?_
      exact hobject (ht.slot_apart h rfl hd Item.noConfusion hi) (hobjects i hle hi)

/-! ### A chunk that is cut -/

theorem slot_of_size {s t : Slot} {size : Nat} (hslot : slotForSize size = some s)
    (hsize : size = t.realSize) : s = t := by
  rw [hsize, slotForSize_realSize] at hslot
  exact (Option.some.inj hslot).symm

theorem lodged_record (s : Slot) (c : Nat) (rest : Multiset Item) :
    Lodged ({.recorded s c} + {.unwritten s c} + s.objects c + rest) s.kind c := by
  refine .recorded s rfl (by simp) fun i hi => ?_
  have hobject : .object s (c + i * s.realSize) ∈ s.objects c :=
    mem_itemAll.mpr ⟨_, mem_firstSlots.mpr ⟨i, hi, rfl⟩, rfl⟩
  exact Multiset.mem_add.mpr (.inl (Multiset.mem_add.mpr (.inr hobject)))

/-- The first object is the last slot of the chunk. -/
theorem lodged_start (s : Slot) (c : Nat) (rest : Multiset Item) :
    Lodged ({.cutting s.kind ⟨s.realSize, c, s.kind.chunkSize / s.realSize - 1⟩} +
      {.object s (c + s.realSize * (s.kind.chunkSize / s.realSize - 1))} + rest) s.kind c := by
  refine .cutting s ⟨s.realSize, c, s.kind.chunkSize / s.realSize - 1⟩ rfl rfl rfl (by simp)
    fun i hle hlt => ?_
  rw [s.chunkSize_div] at hle ⊢
  obtain rfl : i = s.slotsPerChunk - 1 := by
    dsimp only at hle
    omega
  rw [Nat.mul_comm s.realSize]
  exact Multiset.mem_add.mpr (.inl (Multiset.mem_add.mpr (.inr (Multiset.mem_singleton_self _))))

section Cutting

variable {s : Slot} {u : UsedChunk}

/-- The next object is the last slot that has not been cut. -/
theorem lodged_cut (hsize : u.size = s.realSize)
    (hobjects : ∀ i, u.numberOfFreeSlots ≤ i → i < s.slotsPerChunk →
      .object s (u.ptr + i * s.realSize) ∈ rest) :
    Lodged ({.cutting s.kind { u with numberOfFreeSlots := u.numberOfFreeSlots - 1 }} +
      {.object s (u.ptr + u.size * (u.numberOfFreeSlots - 1))} + rest) s.kind u.ptr := by
  refine .cutting s { u with numberOfFreeSlots := u.numberOfFreeSlots - 1 } rfl hsize rfl (by simp)
    fun i hle hlt => ?_
  by_cases hlast : u.numberOfFreeSlots ≤ i
  · exact Multiset.mem_add.mpr (.inr (hobjects i hlast hlt))
  · obtain rfl : i = u.numberOfFreeSlots - 1 := by
      dsimp only at hle
      omega
    rw [← hsize, Nat.mul_comm u.size]
    exact Multiset.mem_add.mpr (.inl (Multiset.mem_add.mpr (.inr (Multiset.mem_singleton_self _))))

/-- The slots that have not been cut become free objects. -/
theorem lodged_commit (hsize : u.size = s.realSize)
    (hobjects : ∀ i, u.numberOfFreeSlots ≤ i → i < s.slotsPerChunk →
      .object s (u.ptr + i * s.realSize) ∈ rest) :
    Lodged ({.recorded s u.ptr} +
      Item.all (.object s) (firstSlots u.ptr u.size u.numberOfFreeSlots) + rest) s.kind u.ptr := by
  refine .recorded s rfl (by simp) fun i hlt => ?_
  by_cases hlast : u.numberOfFreeSlots ≤ i
  · exact Multiset.mem_add.mpr (.inr (hobjects i hlast hlt))
  · have hslot : u.ptr + i * s.realSize ∈ firstSlots u.ptr u.size u.numberOfFreeSlots :=
      mem_firstSlots.mpr ⟨i, Nat.not_le.mp hlast, by rw [hsize]⟩
    exact Multiset.mem_add.mpr (.inl (Multiset.mem_add.mpr (.inr (mem_itemAll.mpr ⟨_, hslot, rfl⟩))))

end Cutting

/-! ### All exchanges -/

/-- A lodged chunk is kept, unless it takes a way to be lost. -/
theorem lodged_exchange (rest : Multiset Item) (h : Exchange os m gone new os' m')
    (hstored : os'.NoStateStored) (hremembers : os'.Remembers k c)
    (ht : Tidy os (gone + rest)) (hl : Lodged (gone + rest) k c) : Kept (new + rest) k c := by
  obtain ⟨hback, habandoned, huncut⟩ := hremembers.mono h.log_suffix c (k.self_mem_units c)
  cases h with
  | split d =>
      by_cases hsplit : k = .large ∧ c = d
      · obtain ⟨rfl, rfl⟩ := hsplit
        exact .inr ⟨rfl, fun u hu => .free
          (Multiset.mem_add.mpr (.inl (mem_itemAll.mpr ⟨u, hu, rfl⟩)))⟩
      · refine .inl (hl.exchange (by simp) (by simp) (fun hc => ?_) (by simp))
        exact absurd (by simpa using hc) hsplit
  | record s d =>
      refine .inl (hl.exchange (by simp) (by simp) (fun hc => ?_) (by simp))
      obtain ⟨rfl, rfl⟩ : k = s.kind ∧ c = d := by simpa using hc
      exact lodged_record s c rest
  | start s size d hslot hsize =>
      refine .inl (hl.exchange (by simp) (by simp) (fun hc => ?_) (by simp))
      obtain ⟨rfl, rfl⟩ : k = s.kind ∧ c = d := by simpa using hc
      obtain rfl : s.realSize = size := hsize.resolve_right fun ⟨p, hp⟩ => hstored p hp
      exact lodged_start s c rest
  | cut s u hslot hfree =>
      refine .inl (hl.exchange (by simp) (by simp) (by simp) fun t v _ hsize hptr hv hobjects => ?_)
      obtain ⟨rfl, rfl⟩ : k = s.kind ∧ v = u := by simpa using hv
      obtain rfl := slot_of_size hslot hsize
      subst hptr
      exact lodged_cut hsize hobjects
  | commit s u hslot =>
      refine .inl (hl.exchange (by simp) (by simp) (by simp) fun t v _ hsize hptr hv hobjects => ?_)
      obtain ⟨rfl, rfl⟩ : k = s.kind ∧ v = u := by simpa using hv
      obtain rfl := slot_of_size hslot hsize
      subst hptr
      exact lodged_commit hsize hobjects
  | release k' d n _ hgiven =>
      refine .inl (hl.exchange (by simp) (by simp) (fun hc => ?_) (by simp))
      obtain ⟨rfl, rfl⟩ : k = k' ∧ c = d := by simpa using hc
      exact absurd hgiven hback
  | releaseLast k' d n _ hgiven =>
      refine .inl (hl.exchange (by simp) (by simp) (fun hc => ?_) (by simp))
      obtain ⟨rfl, rfl⟩ : k = k' ∧ c = d := by simpa using hc
      exact absurd hgiven hback
  | abandon k' d hforgotten =>
      refine .inl (hl.exchange (by simp) (by simp) (fun hc => ?_) (by simp))
      obtain ⟨rfl, rfl⟩ : k = k' ∧ c = d := by simpa using hc
      exact absurd hforgotten habandoned
  | leaveUncut s d hleft =>
      have hne : c ≠ d := fun heq => absurd hleft (heq ▸ huncut)
      exact .inl (by simpa using hl.leaveUncut ht hne)
  | _ => exact .inl (hl.keep (by simp [Item.units, Item.objectsOf]))

/-- A chunk that is kept stays so, unless it takes a way to be lost. -/
theorem kept_exchange (rest : Multiset Item) (h : Exchange os m gone new os' m')
    (hstored : os'.NoStateStored) (hremembers : os'.Remembers k c) (ht : Tidy os (gone + rest))
    (hk : Kept (gone + rest) k c) : Kept (new + rest) k c := by
  rcases hk with hl | ⟨rfl, hparts⟩
  · exact lodged_exchange rest h hstored hremembers ht hl
  · refine .inr ⟨rfl, fun u hu => ?_⟩
    have hpart := lodged_exchange rest h hstored (hremembers.split hu) ht (hparts u hu)
    exact hpart.resolve_right fun hlarge => ChunkKind.noConfusion hlarge.1

/-- The books, and that a chunk is kept. -/
theorem ledger_kept (k : ChunkKind) (c : Nat) : Ledger fun os m items =>
    Books os m items ∧ (os.NoStateStored → os.Remembers k c → Kept items k c) where
  exchange rest h hJ := by
    refine ⟨ledger_books.exchange rest h hJ.1, fun hstored hremembers => ?_⟩
    exact kept_exchange rest h hstored hremembers hJ.1.tidy
      (hJ.2 (hstored.mono h.log_suffix) (hremembers.mono h.log_suffix))
  grant {os m items} hJ := by
    have hlodged : ∀ {k' c'}, Lodged items k' c' → Lodged ({.permit} + items) k' c' := by
      intro k' c' hl
      rw [← zero_add items] at hl
      exact hl.keep (by simp)
    refine ⟨ledger_books.grant hJ.1, fun hstored hremembers => ?_⟩
    rcases hJ.2 hstored hremembers with hl | ⟨hlarge, hparts⟩
    · exact .inl (hlodged hl)
    · exact .inr ⟨hlarge, fun u hu => hlodged (hparts u hu)⟩

end Exchange

/-! ## Objects that are out -/

namespace World

/-- The blocks that the allocator uses itself. -/
def ownBlocks (w : World P) : Multiset Item :=
  ∑ v, bufferItems v (w.vec v).ptr (w.vec v).cap +
    (blockOf (chunkTableSize .common) w.inner.commonChunkTable +
      blockOf (chunkTableSize .large) w.inner.largeChunkTable +
      managerItems P w.inner.nonLocalPtrManager +
      nodeItems (P.tree.nodes w.inner.allocatedLargeSizes))

theorem items_inner (w : World P) :
    w.inner.items = ∑ v, contents v (w.vec v).elems + w.ownBlocks := by
  rw [ownBlocks, ← add_assoc, ← Finset.sum_add_distrib]
  rfl

theorem mem_items {w : World P} {i : Item} :
    i ∈ w.inner.items ↔ (∃ v, i ∈ contents v (w.vec v).elems) ∨ i ∈ w.ownBlocks := by
  rw [items_inner, Multiset.mem_add, Multiset.mem_sum]
  simp only [Finset.mem_univ, true_and]

/-- They are what `allocated_for_self` counts. -/
theorem WellFormed.objectsIn_ownBlocks {w : World P} (h : w.WellFormed) (s : Slot) :
    countIn Item.objectsOf s w.ownBlocks = UsedObjects.total s.realSize w.selfAllocatedSizes := by
  have hbuffers : ∀ v, countIn Item.objectsOf s (bufferItems v (w.vec v).ptr (w.vec v).cap) =
      w.bufferCount s v := fun v => objectsIn_bufferItems s v (w.vec v)
  rw [h.total_selfAllocatedSizes, ownBlocks]
  simp only [countIn_add, countIn_sum, hbuffers]
  omega

end World

/-- Only the free vector of a class lists its objects. -/
theorem object_mem_contents {s : Slot} {p : Nat} {v : VecId} {w : World P}
    (h : .object s p ∈ contents v (w.vec v).elems) : p ∈ (w.inner.objectTable s).elems := by
  cases v with
  | object t =>
      obtain ⟨q, hq, heq⟩ := mem_itemAll.mp h
      obtain ⟨rfl, rfl⟩ := Item.object.inj heq
      exact hq
  | regions =>
      obtain ⟨view, -, hview⟩ := List.mem_map.mp (Multiset.mem_coe.mp h)
      exact Item.noConfusion hview
  | _ =>
      obtain ⟨q, -, heq⟩ := mem_itemAll.mp h
      exact Item.noConfusion heq

theorem slotForSize_of_blockItem {size ptr p : Nat} {s : Slot}
    (h : blockItem size ptr = .object s p) : slotForSize size = some s := by
  unfold blockItem at h
  split at h
  · next t ht =>
      obtain ⟨rfl, rfl⟩ := Item.object.inj h
      exact ht
  · exact Item.noConfusion h

theorem countIn_objectsOf_pos {items : Multiset Item} {s : Slot} {p : Nat}
    (h : .object s p ∈ items) : 0 < countIn Item.objectsOf s items :=
  Multiset.countP_pos.mpr ⟨(s, p),
    Multiset.mem_bind.mpr ⟨.object s p, h, Multiset.mem_singleton_self _⟩, rfl⟩

namespace Session

/-- The objects that are out: those of callers, and those that the allocator uses itself. -/
def out (s : Session P) : Multiset Item := s.world.ownBlocks + held s.live

/-- The object is in the free vector of its class, or it is out. -/
def HasObject (s : Session P) (slot : Slot) (p : Nat) : Prop :=
  p ∈ (s.world.inner.objectTable slot).elems ∨ .object slot p ∈ s.out

/-- The free chunks of a kind. -/
def freeChunks (s : Session P) : ChunkKind → List Nat
  | .common => s.world.inner.freeCommonChunks.elems
  | .large => s.world.inner.freeLargeChunks.elems

/-- The chunk is free, or it is in a chunk table and each of its slots is in the free vector
or out. -/
def Has (s : Session P) (k : ChunkKind) (c : Nat) : Prop :=
  c ∈ s.freeChunks k ∨ ∃ slot : Slot, slot.kind = k ∧ c ∈ (s.world.inner.chunkTable slot).elems ∧
    ∀ i < slot.slotsPerChunk, s.HasObject slot (c + i * slot.realSize)

/-- The chunk is there, or it has been split into common chunks that are. -/
def Keeps (s : Session P) (k : ChunkKind) (c : Nat) : Prop :=
  s.Has k c ∨ (k = .large ∧ ∀ u ∈ splitLargeChunkToCommon c, s.Has .common u)

variable {s s' : Session P} {calls : List Call} {k : ChunkKind} {c : Nat}

/-- Only the vectors of free chunks list free chunks. -/
theorem chunk_mem_contents {v : VecId} (h : .chunk k c ∈ contents v (s.world.vec v).elems) :
    c ∈ s.freeChunks k := by
  cases v with
  | freeCommonChunks =>
      obtain ⟨q, hq, heq⟩ := mem_itemAll.mp h
      obtain ⟨rfl, rfl⟩ := Item.chunk.inj heq
      exact hq
  | freeLargeChunks =>
      obtain ⟨q, hq, heq⟩ := mem_itemAll.mp h
      obtain ⟨rfl, rfl⟩ := Item.chunk.inj heq
      exact hq
  | regions =>
      obtain ⟨view, -, hview⟩ := List.mem_map.mp (Multiset.mem_coe.mp h)
      exact Item.noConfusion hview
  | _ =>
      obtain ⟨q, -, heq⟩ := mem_itemAll.mp h
      exact Item.noConfusion heq

theorem hasObject_of_mem (hs : s.Rests) {slot : Slot} {p : Nat} (h : .object slot p ∈ s.items) :
    s.HasObject slot p := by
  rw [hs.items_eq, Multiset.mem_add, World.mem_items] at h
  rcases h with (⟨v, hv⟩ | hown) | hlive
  · exact .inl (object_mem_contents hv)
  · exact .inr (Multiset.mem_add.mpr (.inl hown))
  · exact .inr (Multiset.mem_add.mpr (.inr hlive))

/-- The free chunks are the elements of their vectors. -/
theorem chunk_mem_items (hs : s.Rests) : .chunk k c ∈ s.items ↔ c ∈ s.freeChunks k := by
  constructor
  · intro hi
    rcases mem_items hs hi with ⟨v, hv⟩ | ⟨size, ptr, hblock⟩
    · exact chunk_mem_contents hv
    · rcases blockItem_cases size ptr with ⟨_, h⟩ | h <;> cases hblock.trans h
  · intro hc
    have hitem : ∃ v, .chunk k c ∈ contents v (s.world.vec v).elems := by
      cases k with
      | common => exact ⟨.freeCommonChunks, mem_itemAll.mpr ⟨c, hc, rfl⟩⟩
      | large => exact ⟨.freeLargeChunks, mem_itemAll.mpr ⟨c, hc, rfl⟩⟩
    obtain ⟨v, hv⟩ := hitem
    exact Multiset.mem_add.mpr (.inl (mem_holdings_of_contents hv))

theorem has_of_lodged (hs : s.Rests) (h : Lodged s.items k c) : s.Has k c := by
  cases h with
  | free h => exact .inl ((chunk_mem_items hs).mp h)
  | recorded slot hkind h hobjects =>
      exact .inr ⟨slot, hkind, (recorded_mem_items hs).mp h, fun i hi =>
        hasObject_of_mem hs (hobjects i hi)⟩
  | cutting slot u hkind hsize hptr h hobjects => exact absurd h (not_cutting_of_rests hs k u)

theorem keeps_of_kept (hs : s.Rests) (h : Kept s.items k c) : s.Keeps k c := by
  rcases h with h | ⟨hlarge, hparts⟩
  · exact .inl (has_of_lodged hs h)
  · exact .inr ⟨hlarge, fun u hu => has_of_lodged hs (hparts u hu)⟩

/-- What was free before a call is kept by it, unless the chunk has taken a way to be lost. -/
theorem Step.keepsChunk {call : Call} (hstep : Step s call s') (h : Reached calls s)
    (hstored : s'.world.os.NoStateStored) (hc : c ∈ s.freeChunks k)
    (hremembers : s'.world.os.Remembers k c) : s'.Keeps k c := by
  obtain ⟨hs, hbooks⟩ := h.books
  obtain ⟨hs', hmoves⟩ := hstep.moves hs
  have hfree : Kept s.items k c := .inl (.free ((chunk_mem_items hs).mpr hc))
  exact keeps_of_kept hs' (((ledger_kept k c).moves hmoves ⟨hbooks, fun _ _ => hfree⟩).2 hstored
    hremembers)

/-- After a call that fails, each chunk that was free is kept unless it has taken a way to be
lost, and the statistics are exact if and only if the remainders of each class are less
than an object. -/
theorem refused_keeps {size : Nat} (h : Reached calls s) (hstep : Step s (.refused size) s')
    (hstored : s'.world.os.NoStateStored) :
    (∀ k, ∀ c ∈ s.freeChunks k, s'.world.os.Remembers k c → s'.Keeps k c) ∧
      (s'.world.ReportsOut ↔ s'.world.Unrounded) :=
  ⟨fun _ _ hc hremembers => hstep.keepsChunk h hstored hc hremembers,
    (h.step hstep).reportsOut_iff hstored⟩

/-- The free common chunks are used up, and so are the objects that a growing free vector
could take for its buffer. -/
def exhausting : List Request :=
  [1000, 992, 984, 976, 968, 960, 952].map .tryAlloc ++ List.replicate 56 (.tryAlloc 1024) ++
    [.outside 0 0]

/-- What a call leaves of the last large chunk, which it has taken. -/
structure Strands (s' : Session lockFreeParams) (c : Nat) : Prop where
  log : s'.world.os.log = [.chunkLeftUncut c, .refused 33554432, .mapped 134217728 33554432]
  notFree : ∀ k, c ∉ s'.freeChunks k
  table : ∀ slot, c ∈ (s'.world.inner.chunkTable slot).elems → slot.realSize = 5120
  objects : ∀ slot : Slot, slot.realSize = 5120 → (s'.world.inner.objectTable slot).elems = []
  own : UsedObjects.total 5120 s'.world.selfAllocatedSizes = 0
  live : ∀ b ∈ s'.live, recommendedSize b.size ≠ 5120
  unrounded : s'.world.Unrounded

/-- With the limit exhausted, a call for 5000 bytes leaves its chunk in the chunk table. -/
theorem exists_strands : ∃ (calls : List Call) (s s' : Session lockFreeParams),
    Reached calls s ∧ Step s (.refused 5000) s' ∧ 167247872 ∈ s.freeChunks .large ∧
      162529280 ∈ s.freeChunks .large ∧ s'.Strands 167247872 := by
  have hrun : trial 4 (fun _ s => (perform 4 (.tryAlloc 5000) s).any fun r =>
      r.1 = .refused 5000 && 167247872 ∈ s.freeChunks .large && 162529280 ∈ s.freeChunks .large &&
      r.2.world.os.log = [.chunkLeftUncut 167247872, .refused 33554432, .mapped 134217728 33554432] &&
      167247872 ∉ r.2.freeChunks .common && 167247872 ∉ r.2.freeChunks .large &&
      (Slot.inOrder.all fun slot => slot.realSize = 5120 ||
        167247872 ∉ (r.2.world.inner.chunkTable slot).elems) &&
      (Slot.inOrder.all fun slot => slot.realSize ≠ 5120 ||
        (r.2.world.inner.objectTable slot).elems = []) &&
      UsedObjects.total 5120 r.2.world.selfAllocatedSizes = 0 &&
      (r.2.live.all fun b => recommendedSize b.size ≠ 5120) &&
      Slot.inOrder.all fun slot => (r.2.world.inner.chunkTable slot).len *
        (slot.chunkSize % slot.realSize) < slot.realSize)
      exhausting [] freshAllocator = true := by
    decide +kernel
  obtain ⟨calls, s, hreached, hcheck⟩ := reached_of_trial (reached_initial [⟨0, 134217728⟩]) hrun
  obtain ⟨⟨call, s'⟩, hperform, hcheck⟩ := (Option.any_eq_true _ _).mp hcheck
  simp only [Bool.and_eq_true, Bool.or_eq_true, decide_eq_true_eq, List.all_eq_true] at hcheck
  obtain ⟨⟨⟨⟨⟨⟨⟨⟨⟨⟨rfl, hfree⟩, hother⟩, hlog⟩, hcommon⟩, hlarge⟩, htable⟩, hobjects⟩, hown⟩, hlive⟩,
    hunrounded⟩ := hcheck
  refine ⟨calls, s, s', hreached, step_of_perform hperform, hfree, hother, hlog, fun k => ?_,
    fun slot hc => (htable slot slot.mem_inOrder).resolve_right fun hnot => hnot hc,
    fun slot hreal => (hobjects slot slot.mem_inOrder).resolve_left fun hnot => hnot hreal,
    hown, hlive, fun slot => hunrounded slot slot.mem_inOrder⟩
  cases k with
  | common => exact hcommon
  | large => exact hlarge

/-- No slot of the class is an object. -/
theorem Strands.not_hasObject {s : Session lockFreeParams} (h : s.Strands c) (hs : s.Rests)
    {slot : Slot} (hreal : slot.realSize = 5120) (p : Nat) : ¬ s.HasObject slot p := by
  rintro (hp | hout)
  · rw [h.objects slot hreal] at hp
    exact List.not_mem_nil hp
  · rcases Multiset.mem_add.mp hout with hown | hheld
    · have hcount := countIn_objectsOf_pos hown
      rw [hs.formed.objectsIn_ownBlocks, hreal, h.own] at hcount
      exact absurd hcount (Nat.lt_irrefl 0)
    · obtain ⟨b, hb, hblock⟩ := List.mem_map.mp (Multiset.mem_coe.mp hheld)
      refine h.live b hb (((slotForSize_eq_some_iff slot).mp ?_).trans hreal)
      exact slotForSize_of_blockItem hblock

theorem Strands.not_has {s : Session lockFreeParams} (h : s.Strands c) (hs : s.Rests)
    (k : ChunkKind) : ¬ s.Has k c := by
  rintro (hfree | ⟨slot, -, hrecorded, hobjects⟩)
  · exact h.notFree k hfree
  · exact h.not_hasObject hs (h.table slot hrecorded) _
      (hobjects 0 (Nat.lt_of_lt_of_le (by decide) slot.five_le_slotsPerChunk))

/-- In that call the other chunks are kept and the statistics are exact. -/
theorem refused_keeps_others : ∃ (calls : List Call) (s s' : Session lockFreeParams),
    Reached calls s ∧ Step s (.refused 5000) s' ∧ 162529280 ∈ s.freeChunks .large ∧
      s'.Keeps .large 162529280 ∧ s'.world.ReportsOut := by
  obtain ⟨calls, s, s', hreached, hstep, -, hother, hstrands⟩ := exists_strands
  have hkeeps := refused_keeps hreached hstep fun p hp => by simp [hstrands.log] at hp
  refine ⟨calls, s, s', hreached, hstep, hother, hkeeps.1 .large _ hother ?_,
    hkeeps.2.mpr hstrands.unrounded⟩
  simp only [Os.Remembers, hstrands.log]
  decide

/-- The chunk that the call has taken is in the chunk table, but none of its slots is an
object. -/
theorem not_keeps_exhausted : ¬ ∀ (calls : List Call) (s s' : Session lockFreeParams) (size : Nat),
    1 ≤ size → size ≤ largeSizeMax → Reached calls s → Step s (.refused size) s' →
      (∀ k, ∀ c ∈ s.freeChunks k, s'.Keeps k c) ∧ s'.world.ReportsOut := by
  intro hclaim
  obtain ⟨calls, s, s', hreached, hstep, hfree, -, hstrands⟩ := exists_strands
  have hs' := (hreached.step hstep).books.1
  rcases (hclaim calls s s' 5000 (by decide) (by decide) hreached hstep).1 .large _ hfree with
    hhas | ⟨-, hparts⟩
  · exact hstrands.not_has hs' .large hhas
  · exact hstrands.not_has hs' .common (hparts _ (by decide))

end Session

end Memalart
