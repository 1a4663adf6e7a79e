/-
# Where a freed block goes

A freed block finds its way by the metadata of its chunk.  As long as `alloc_large_slow`
has cut no chunk and no chunk was left uncut, the metadata of every recorded chunk is
right at each of its addresses and stays as it is: a local free takes the local path,
and a remote free names the same vector.  The metadata of a large chunk that a slow path
has cut begins at its last object, and its first units have none.
-/

import Memalart.Conservation

namespace Memalart

open Memalart.Lib ThreadLocalAllocator

variable {P : Params}

/-- A remote free reaches the vector that the metadata was written for. -/
@[simp] theorem Slot.getVec_offset (s : Slot) : s.offset.getVec = some s := by
  cases s with
  | common idx => simp [offset, OffsetToSlotInTable.newForCommonChunk, OffsetToSlotInTable.getVec,
      Slot.ofCommonIdx]
  | large idx => simp [offset, OffsetToSlotInTable.newForLargeChunk, OffsetToSlotInTable.getVec,
      Slot.ofLargeIdx]

/-- The metadata that a free of the address would read. -/
def World.metadata (w : World P) (a : Nat) : ChunkMetadata :=
  w.os.metadata (chunkPtrToChunkMetadataPtr a)

/-- A free finds its way: by the metadata of every recorded chunk, and so for every live
block. -/
structure Session.Routed (s : Session P) : Prop where
  chunks : ∀ (slot : Slot) (c : Nat), c ∈ (s.world.inner.chunkTable slot).elems →
    ∃ m, s.world.inner.nonLocalPtrManager = some m ∧
      ∀ a, c ≤ a → a < c + slot.chunkSize → s.world.metadata a = ⟨m, slot.offset⟩
  localFree : ∀ b ∈ s.live, ∀ slot, slotForSize b.size = some slot → ∀ A,
    deallocObject A slot b.ptr s.world = pushObjectOrPanic A slot b.ptr false s.world
  remoteFree : ∀ b ∈ s.live, ∀ slot, slotForSize b.size = some slot →
    (s.world.metadata b.ptr).offsetToSlotInTable.getVec = some slot

/-! ## Recorded chunks -/

/-- The address of a chunk lies in one of its units. -/
theorem unitOf_mem_units {k : ChunkKind} {c r a : Nat} (haligned : r % regionSize = 0)
    (hself : c ∈ regionUnits r) (hle : c ≤ a) (hlt : a < c + k.chunkSize) :
    unitOf a ∈ k.units c := by
  have hunit := (unit_of_region haligned hself).1
  cases k with
  | common =>
      have hchunk : ChunkKind.common.chunkSize = commonChunkSize := rfl
      rw [hchunk] at hlt
      rw [ChunkKind.units, List.mem_singleton]
      refine unitOf_of_lt ?_ hle hlt
      rw [← hunit, unitOf]
      exact Nat.mul_mod_left _ _
  | large =>
      rw [ChunkKind.units, splitLargeChunkToCommon]
      refine List.mem_map.mpr ⟨(a - c) / commonChunkSize, List.mem_range.mpr ?_, ?_⟩
      · have hchunk : ChunkKind.large.chunkSize = 524288 := rfl
        rw [hchunk] at hlt
        have hcount : (a - c) / 65536 < 8 := by omega
        exact hcount
      · simp only [unitOf, commonChunkSize] at *
        omega

section Items

variable {s : Session P}

/-- An item between two calls that no vector lists is a block. -/
theorem mem_items {i : Item} (hs : s.Rests) (hi : i ∈ s.items) :
    (∃ v, i ∈ contents v (s.world.vec v).elems) ∨ ∃ size ptr, i = blockItem size ptr := by
  rcases Multiset.mem_add.mp hi with hi | hi
  · exact mem_holdings hs.states hi
  · obtain ⟨b, -, rfl⟩ := List.mem_map.mp (Multiset.mem_coe.mp hi)
    exact .inr ⟨b.size, b.ptr, rfl⟩

theorem blockItem_cases (size ptr : Nat) :
    (∃ slot, blockItem size ptr = .object slot ptr) ∨ blockItem size ptr = .extra size ptr := by
  unfold blockItem
  cases slotForSize size with
  | none => exact .inr rfl
  | some slot => exact .inl ⟨slot, rfl⟩

/-- What the vectors list. -/
theorem contents_cases {v : VecId} {xs : List v.Elem} {i : Item} (hi : i ∈ contents v xs) :
    (∃ slot p, i = .object slot p) ∨ (∃ slot c, v = .chunk slot ∧ i = .recorded slot c) ∨
      (∃ k c, i = .chunk k c) ∨ ∃ r n, i = .view r n := by
  cases v with
  | object slot =>
      obtain ⟨p, -, rfl⟩ := mem_itemAll.mp hi
      exact .inl ⟨slot, p, rfl⟩
  | chunk slot =>
      obtain ⟨c, -, rfl⟩ := mem_itemAll.mp hi
      exact .inr (.inl ⟨slot, c, rfl, rfl⟩)
  | freeLargeChunks =>
      obtain ⟨c, -, rfl⟩ := mem_itemAll.mp hi
      exact .inr (.inr (.inl ⟨.large, c, rfl⟩))
  | freeCommonChunks =>
      obtain ⟨c, -, rfl⟩ := mem_itemAll.mp hi
      exact .inr (.inr (.inl ⟨.common, c, rfl⟩))
  | regions =>
      obtain ⟨view, -, rfl⟩ := List.mem_map.mp (Multiset.mem_coe.mp hi)
      exact .inr (.inr (.inr ⟨view.ptr, view.numberOfCommonChunksOccupied, rfl⟩))

/-- Between two calls no chunk waits for its metadata, and no State cuts one. -/
theorem not_unwritten_of_rests (hs : s.Rests) (slot : Slot) (c : Nat) :
    .unwritten slot c ∉ s.items := by
  intro hi
  rcases mem_items hs hi with ⟨v, hv⟩ | ⟨size, ptr, hblock⟩
  · rcases contents_cases hv with ⟨_, _, h⟩ | ⟨_, _, -, h⟩ | ⟨_, _, h⟩ | ⟨_, _, h⟩ <;> cases h
  · rcases blockItem_cases size ptr with ⟨_, h⟩ | h <;> cases hblock.trans h

theorem not_cutting_of_rests (hs : s.Rests) (k : ChunkKind) (u : UsedChunk) :
    .cutting k u ∉ s.items := by
  intro hi
  rcases mem_items hs hi with ⟨v, hv⟩ | ⟨size, ptr, hblock⟩
  · rcases contents_cases hv with ⟨_, _, h⟩ | ⟨_, _, -, h⟩ | ⟨_, _, h⟩ | ⟨_, _, h⟩ <;> cases h
  · rcases blockItem_cases size ptr with ⟨_, h⟩ | h <;> cases hblock.trans h

/-- The recorded chunks are those of the chunk tables. -/
theorem recorded_mem_items (hs : s.Rests) {slot : Slot} {c : Nat} :
    .recorded slot c ∈ s.items ↔ c ∈ (s.world.inner.chunkTable slot).elems := by
  constructor
  · intro hi
    rcases mem_items hs hi with ⟨v, hv⟩ | ⟨size, ptr, hblock⟩
    · rcases contents_cases hv with ⟨_, _, h⟩ | ⟨t, d, rfl, h⟩ | ⟨_, _, h⟩ | ⟨_, _, h⟩
      · cases h
      · obtain ⟨rfl, rfl⟩ := Item.recorded.inj h
        obtain ⟨p, hp, heq⟩ := mem_itemAll.mp hv
        obtain ⟨-, rfl⟩ := Item.recorded.inj heq
        exact hp
      · cases h
      · cases h
    · rcases blockItem_cases size ptr with ⟨_, h⟩ | h <;> cases hblock.trans h
  · intro hc
    refine Multiset.mem_add.mpr (.inl (mem_holdings_of_contents (v := .chunk slot) ?_))
    exact mem_itemAll.mpr ⟨c, hc, rfl⟩

end Items

/-- A recorded chunk stays recorded. -/
theorem recorded_exchange {os os' : Os} {m m' : Option Nat} {gone new : Multiset Item}
    {slot : Slot} {c : Nat} (rest : Multiset Item) (h : Exchange os m gone new os' m')
    (hc : .recorded slot c ∈ gone + rest) : .recorded slot c ∈ new + rest := by
  refine Multiset.mem_add.mpr (.inr ((Multiset.mem_add.mp hc).resolve_left fun hgone => ?_))
  cases h with
  | leaveUncut t d hlog =>
      rcases Multiset.mem_add.mp hgone with hgone | hgone
      · cases Multiset.mem_singleton.mp hgone
      · obtain ⟨p, -, heq⟩ := mem_itemAll.mp hgone
        cases heq
  | _ => simp at hgone

/-- A manager stays the manager. -/
theorem manager_exchange {os os' : Os} {m m' : Option Nat} {gone new : Multiset Item} {m₀ : Nat}
    (h : Exchange os m gone new os' m') (hm : m = some m₀) : m' = some m₀ := by
  cases h <;> first | exact hm | cases hm

namespace Session

/-- Chunks stay recorded under their class, and the manager stays, from one call to the next. -/
theorem Step.keeps {s s' : Session P} {call : Call} (hstep : Step s call s') (hs : s.Rests)
    {slot : Slot} {c m : Nat} (hc : .recorded slot c ∈ s.items)
    (hm : s.world.inner.nonLocalPtrManager = some m) :
    .recorded slot c ∈ s'.items ∧ s'.world.inner.nonLocalPtrManager = some m := by
  have hmoves := (hstep.moves hs).2
  have hkept := hmoves.invariant
    (J := fun _ m' items => .recorded slot c ∈ items ∧ m' = some m)
    (fun rest h hJ => ⟨recorded_exchange rest h hJ.1, manager_exchange h hJ.2⟩)
    ⟨Multiset.mem_add.mpr (.inr hc), hm⟩
  exact hkept

theorem keeps_of_run {s s' : Session P} {calls : List Call} (hrun : Run Step s calls s')
    (hs : s.Rests) {slot : Slot} {c m : Nat} (hc : .recorded slot c ∈ s.items)
    (hm : s.world.inner.nonLocalPtrManager = some m) :
    .recorded slot c ∈ s'.items ∧ s'.world.inner.nonLocalPtrManager = some m := by
  have hkept := hrun.invariant
    (I := fun s => s.Rests ∧ .recorded slot c ∈ s.items ∧
      s.world.inner.nonLocalPtrManager = some m)
    (fun s call s' hI hstep => ⟨(hstep.moves hI.1).1, hstep.keeps hI.1 hI.2.1 hI.2.2⟩)
    ⟨hs, hc, hm⟩
  exact hkept.2

theorem log_suffix_of_run {s s' : Session P} {calls : List Call} (hrun : Run Step s calls s')
    (hs : s.Rests) : s.world.os.log <:+ s'.world.os.log := by
  have hgrows := hrun.invariant
    (I := fun t => t.Rests ∧ s.world.os.log <:+ t.world.os.log)
    (fun t call t' hI hstep =>
      ⟨(hstep.moves hI.1).1, hI.2.trans (hstep.moves hI.1).2.log_suffix⟩)
    ⟨hs, List.suffix_rfl⟩
  exact hgrows.2

/-! ## Routing -/

/-- Without a chunk that a slow path has cut into large objects, or left uncut, a free
finds its way. -/
theorem Reached.routed {calls : List Call} {s : Session P} (h : Reached calls s)
    (hcut : s.world.os.NoLargeChunkCut) (hleft : s.world.os.NoChunkLeftUncut) : s.Routed := by
  obtain ⟨hs, hbooks⟩ := h.books
  have hwritten := hbooks.written hcut hleft
  have hchunk : ∀ (slot : Slot) (c : Nat), .recorded slot c ∈ s.items →
      ∃ m, s.world.inner.nonLocalPtrManager = some m ∧
        ∀ a, c ≤ a → a < c + slot.chunkSize → s.world.metadata a = ⟨m, slot.offset⟩ := by
    intro slot c hc
    obtain ⟨m, hm, hmeta⟩ := hwritten slot c hc (not_unwritten_of_rests hs slot c)
    obtain ⟨r, hr, hunits⟩ := hbooks.tidy.inRegion _ hc fun hzero => by
      have hself : c ∈ (Item.recorded slot c).units :=
        Multiset.mem_coe.mpr (slot.kind.self_mem_units c)
      simp [hzero] at hself
    refine ⟨m, hm, fun a hle hlt => ?_⟩
    have hself := hunits c (Multiset.mem_coe.mpr (slot.kind.self_mem_units c))
    have hunit := unitOf_mem_units (k := slot.kind) (hbooks.tidy.aligned r hr.mem_regionsOf) hself
      hle (slot.chunkSize_kind ▸ hlt)
    rw [World.metadata, ← chunkMetadataPtr_unitOf]
    exact hmeta _ hunit
  have hlive : ∀ b ∈ s.live, ∀ slot, slotForSize b.size = some slot →
      ∃ m, s.world.inner.nonLocalPtrManager = some m ∧ s.world.metadata b.ptr = ⟨m, slot.offset⟩ := by
    intro b hb slot hslot
    have hitem : .object slot b.ptr ∈ s.items := by
      refine Multiset.mem_add.mpr (.inr (Multiset.mem_coe.mpr (List.mem_map.mpr ⟨b, hb, ?_⟩)))
      exact blockItem_of_slot hslot b.ptr
    obtain ⟨c, hc, hle, hlt⟩ := hbooks.placed.object slot b.ptr hitem
    have hrecorded : .recorded slot c ∈ s.items :=
      hc.resolve_right fun ⟨u, hu, _⟩ => not_cutting_of_rests hs slot.kind u hu
    obtain ⟨m, hm, hmeta⟩ := hchunk slot c hrecorded
    exact ⟨m, hm, hmeta b.ptr hle hlt⟩
  refine ⟨fun slot c hc => hchunk slot c ((recorded_mem_items hs).mpr hc), ?_, ?_⟩
  · intro b hb slot hslot A
    obtain ⟨m, hm, hmeta⟩ := hlive b hb slot hslot
    have hread : (s.world.os.metadata (chunkPtrToChunkMetadataPtr b.ptr)).nonLocalPtrManager =
        s.world.inner.nonLocalPtrManager.getD 0 := by
      rw [hm, Option.getD_some]
      exact congrArg ChunkMetadata.nonLocalPtrManager hmeta
    have hunfold : deallocObject A slot b.ptr s.world =
        (if (s.world.os.metadata (chunkPtrToChunkMetadataPtr b.ptr)).nonLocalPtrManager =
            s.world.inner.nonLocalPtrManager.getD 0 then pushObjectOrPanic A slot b.ptr false
          else deallocNonLocalPtr A b.ptr
            (s.world.os.metadata (chunkPtrToChunkMetadataPtr b.ptr))) s.world := rfl
    rw [hunfold, if_pos hread]
  · intro b hb slot hslot
    obtain ⟨m, hm, hmeta⟩ := hlive b hb slot hslot
    rw [hmeta, Slot.getVec_offset]

/-- In a run in which `alloc_large_slow` has cut no chunk and no chunk was left uncut, a free
finds its way, and the metadata of a recorded chunk stays as it was written. -/
theorem routed_of_run {calls more : List Call} {s s' : Session P} (h : Reached calls s)
    (hrun : Run Step s more s') (hcut : s'.world.os.NoLargeChunkCut)
    (hleft : s'.world.os.NoChunkLeftUncut) :
    s'.Routed ∧ ∀ slot, ∀ c ∈ (s.world.inner.chunkTable slot).elems,
      c ∈ (s'.world.inner.chunkTable slot).elems ∧
        ∀ a, c ≤ a → a < c + slot.chunkSize → s'.world.metadata a = s.world.metadata a := by
  have hrests : s.Rests := h.books.1
  have hlater : Reached (calls ++ more) s' := h.append hrun
  have hlog : s.world.os.log <:+ s'.world.os.log := log_suffix_of_run hrun hrests
  have hrouted : s.Routed := h.routed (hcut.mono hlog) (hleft.mono hlog)
  have hrouted' : s'.Routed := hlater.routed hcut hleft
  refine ⟨hrouted', fun slot c hc => ?_⟩
  obtain ⟨m, hm, hmeta⟩ := hrouted.chunks slot c hc
  obtain ⟨hc', hm'⟩ := keeps_of_run hrun hrests ((recorded_mem_items hrests).mpr hc) hm
  have htable : c ∈ (s'.world.inner.chunkTable slot).elems :=
    (recorded_mem_items (hlater.books).1).mp hc'
  obtain ⟨m', hsame, hmeta'⟩ := hrouted'.chunks slot c htable
  refine ⟨htable, fun a hle hlt => ?_⟩
  rw [hmeta a hle hlt, hmeta' a hle hlt, Option.some.inj (hsame.symm.trans hm')]

/-- A first block of 24 bytes leaves every free routed. -/
theorem routed_of_run_first : ∃ s : Session lockFreeParams,
    Reached [.served ⟨164036568, 24⟩] s ∧ s.world.inner.regions.elems ≠ [] ∧ s.Routed := by
  have hrun : trial 4 (fun calls s => calls = [.served ⟨164036568, 24⟩] &&
      (s.world.inner.regions.elems ≠ [] : Bool) &&
      s.world.os.log = [.mapped 134217728 33554432]) [.tryAlloc 24] [] freshAllocator = true := by
    decide +kernel
  obtain ⟨calls, s, hreached, hcheck⟩ := reached_of_trial (reached_initial [⟨0, 134217728⟩]) hrun
  simp only [Bool.and_eq_true, decide_eq_true_eq] at hcheck
  obtain ⟨⟨rfl, hregions⟩, hlog⟩ := hcheck
  refine ⟨s, hreached, hregions, (routed_of_run hreached (.nil s) (fun c hc => ?_) fun c hc => ?_).1⟩
  · simp [hlog] at hc
  · simp [hlog] at hc

/-- After two blocks of 100 KB the large chunk that holds them has no metadata at its
start. -/
theorem large_chunk_unrouted : ¬ ∀ (calls : List Call) (s : Session lockFreeParams),
    Reached calls s → (∀ c ∈ calls, c.Succeeds) → s.Routed := by
  intro hclaim
  have hrun : trial 4 (fun calls s =>
      calls = [.served ⟨167657472, 102400⟩, .served ⟨167555072, 102400⟩] &&
      167247872 ∈ (s.world.inner.chunkTable (.large 87)).elems &&
      s.world.metadata 167247872 = .zero && s.world.metadata 167555072 = .zero)
      [.tryAlloc 102400, .tryAlloc 102400] [] freshAllocator = true := by
    decide +kernel
  obtain ⟨calls, s, hreached, hcheck⟩ := reached_of_trial (reached_initial [⟨0, 134217728⟩]) hrun
  simp only [Bool.and_eq_true, decide_eq_true_eq] at hcheck
  obtain ⟨⟨⟨rfl, hrecorded⟩, hstart⟩, -⟩ := hcheck
  have hrouted := hclaim _ s hreached (by simp [Call.Succeeds])
  obtain ⟨m, -, hmeta⟩ := hrouted.chunks (.large 87) 167247872 hrecorded
  have hright := hmeta 167247872 le_rfl (Nat.lt_add_of_pos_right (by decide))
  rw [hstart] at hright
  -- the class in the metadata is that of index 0
  have hoffset : 0 = 87 := congrArg (fun metadata => metadata.offsetToSlotInTable.idx) hright
  exact absurd hoffset (by decide)

end Session

end Memalart
