/-
# The ledger of usable memory

As long as no chunk is given back or forgotten, every unit of every region that has
been cut stays in some chunk.  Giving a chunk back only lowers the counter of its
region, so the chunk is in no list any more.
-/

import Memalart.UnitLedger

namespace Memalart

/-- No slow path has given its chunk back to the region. -/
def Os.NoChunkGivenBack (os : Os) : Prop := ∀ c, .chunkGivenBack c ∉ os.log

/-- No early return has forgotten a chunk. -/
def Os.NoChunkAbandoned (os : Os) : Prop := ∀ c, .chunkAbandoned c ∉ os.log

theorem Os.NoChunkGivenBack.mono {os os' : Os} (h : os'.NoChunkGivenBack)
    (hlog : os.log <:+ os'.log) : os.NoChunkGivenBack :=
  fun c hc => h c (hlog.subset hc)

theorem Os.NoChunkAbandoned.mono {os os' : Os} (h : os'.NoChunkAbandoned)
    (hlog : os.log <:+ os'.log) : os.NoChunkAbandoned :=
  fun c hc => h c (hlog.subset hc)

/-- Every unit of a region that has been cut is in a chunk. -/
def Covered (items : Multiset Item) : Prop :=
  ∀ r, Parsed items r → ∀ u ∈ regionUnits r, u ∈ unitsOf items

section Exchanges

variable {os os' : Os} {m m' : Option Nat} {gone new rest : Multiset Item}

/-- Items that keep the units, and cut no region, keep everything covered. -/
theorem Covered.keep (h : Covered (gone + rest)) (hunits : ∀ u ∈ unitsOf gone, u ∈ unitsOf new)
    (hparsed : ∀ r, Parsed new r → Parsed gone r) : Covered (new + rest) := by
  intro r hr u hu
  have hr' : Parsed (gone + rest) r := by
    rcases hr with hr | ⟨n, hr⟩
    · rcases Multiset.mem_add.mp hr with hr | hr
      · exact (hparsed r (.inl hr)).mono (Multiset.le_add_right _ _)
      · exact .inl (Multiset.mem_add.mpr (.inr hr))
    · rcases Multiset.mem_add.mp hr with hr | hr
      · exact (hparsed r (.inr ⟨n, hr⟩)).mono (Multiset.le_add_right _ _)
      · exact .inr ⟨n, Multiset.mem_add.mpr (.inr hr)⟩
  have hmem := h r hr' u hu
  rw [unitsOf_add] at hmem ⊢
  exact Multiset.mem_add.mpr ((Multiset.mem_add.mp hmem).imp_left (hunits u))

/-- A region that is cut is covered by its chunks. -/
theorem Covered.parse {r : Nat} (h : Covered ({.region r} + rest)) :
    Covered ({.parsed r} + regionChunks r + rest) := by
  intro r' hr' u hu
  have hunits : unitsOf ({.parsed r} + regionChunks r + rest) =
      (regionUnits r : Multiset Nat) + unitsOf rest := by
    simp [unitsOf_regionChunks, Item.units]
  rw [hunits]
  by_cases heq : r' = r
  · subst heq
    exact Multiset.mem_add.mpr (.inl (Multiset.mem_coe.mpr hu))
  · have hrest : Parsed rest r' := by
      have hchunk : ∀ i ∈ regionChunks r, i ≠ .parsed r' ∧ ∀ n, i ≠ .view r' n := fun i hi => by
        obtain ⟨k, c, rfl⟩ := mem_regionChunks hi
        simp
      rcases hr' with hr' | ⟨n, hr'⟩
      · rcases Multiset.mem_add.mp hr' with hr' | hr'
        · rcases Multiset.mem_add.mp hr' with hr' | hr'
          · cases Multiset.mem_singleton.mp hr'
            exact absurd rfl heq
          · exact absurd rfl (hchunk _ hr').1
        · exact .inl hr'
      · rcases Multiset.mem_add.mp hr' with hr' | hr'
        · rcases Multiset.mem_add.mp hr' with hr' | hr'
          · cases Multiset.mem_singleton.mp hr'
          · exact absurd rfl ((hchunk _ hr').2 n)
        · exact .inr ⟨n, hr'⟩
    have hmem := h r' (hrest.mono (Multiset.le_add_left _ _)) u hu
    rw [unitsOf_add, unitsOf_singleton] at hmem
    exact Multiset.mem_add.mpr (.inr (by simpa [Item.units] using hmem))

theorem not_parsed_of_regions {items : Multiset Item} (h : ∀ i ∈ items, i.regions = 0) {r : Nat} :
    ¬ Parsed items r := by
  intro hr
  have hmem := hr.mem_regionsOf
  rw [regionsOf_eq_zero h] at hmem
  exact Multiset.notMem_zero r hmem

theorem covered_exchange (rest : Multiset Item) (h : Exchange os m gone new os' m')
    (hback : os'.NoChunkGivenBack) (habandoned : os'.NoChunkAbandoned)
    (hcovered : Covered (gone + rest)) : Covered (new + rest) := by
  have hlog := h.log_suffix
  cases h with
  | parse r => exact hcovered.parse
  | release k c n _ hgiven => exact absurd hgiven (hback c)
  | releaseLast k c n _ hgiven => exact absurd (hlog.subset hgiven) (hback c)
  | abandon k c hforgotten => exact absurd hforgotten (habandoned c)
  | enter r =>
      refine hcovered.keep (fun u hu => by simp [Item.units] at hu) fun r' hr' => ?_
      rcases hr' with hr' | ⟨n, hr'⟩
      · cases Multiset.mem_singleton.mp hr'
      · cases Multiset.mem_singleton.mp hr'
        exact .inl (Multiset.mem_singleton_self _)
  | split c =>
      refine hcovered.keep (fun u hu => ?_) fun r hr => absurd hr (not_parsed_of_regions ?_)
      · rw [unitsOf_all_chunk, show (splitLargeChunkToCommon c).flatMap ChunkKind.common.units =
          splitLargeChunkToCommon c from List.flatMap_singleton' _]
        simpa [Item.units, ChunkKind.units] using hu
      · intro i hi
        obtain ⟨u, -, rfl⟩ := mem_itemAll.mp hi
        rfl
  | record s c =>
      refine hcovered.keep (fun u hu => ?_) fun r hr => absurd hr (not_parsed_of_regions ?_)
      · rw [unitsOf_add, unitsOf_add]
        simpa [Item.units, unitsOf_objects] using hu
      · intro i hi
        rcases mem_cut_items hi with rfl | rfl | ⟨p, rfl⟩ <;> rfl
  | commit s u hslot =>
      refine hcovered.keep (fun v hv => ?_) fun r hr => absurd hr (not_parsed_of_regions ?_)
      · rw [unitsOf_add, unitsOf_all_object]
        simpa [Item.units] using hv
      · intro i hi
        rcases Multiset.mem_add.mp hi with hi | hi
        · cases Multiset.mem_singleton.mp hi
          rfl
        · obtain ⟨p, -, rfl⟩ := mem_itemAll.mp hi
          rfl
  | map r =>
      refine hcovered.keep (fun u hu => by simp at hu) fun r' hr' => ?_
      rcases hr' with hr' | ⟨n, hr'⟩ <;> cases Multiset.mem_singleton.mp hr'
  | leaveUncut s c =>
      refine hcovered.keep (fun u hu => ?_) fun r hr => absurd hr (by simp [Parsed])
      rw [unitsOf_add, unitsOf_objects] at hu
      simp [Item.units] at hu
  | start s size c =>
      refine hcovered.keep (fun u hu => ?_) fun r hr => absurd hr (by simp [Parsed])
      simpa [Item.units] using hu
  | cut s u =>
      refine hcovered.keep (fun v hv => ?_) fun r hr => absurd hr (by simp [Parsed])
      simpa [Item.units] using hv
  | _ =>
      refine hcovered.keep (fun u hu => ?_) fun r hr => absurd hr (by simp [Parsed])
      simp [Item.units] at hu

end Exchanges

end Memalart
