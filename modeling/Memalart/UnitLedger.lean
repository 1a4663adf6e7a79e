/-
# The ledger of units and regions

Every unit of a region is in at most one chunk, every chunk lies in one region that
has been cut, and every region is mapped.  A region is given back to the operating
system only when none of its units is in a chunk any more: the number of occupied
units that its view carries never falls below the number of units in chunks.
-/

import Memalart.ObjectLedger

namespace Memalart

/-- The units that a chunk covers. -/
def Item.units : Item → Multiset Nat
  | .chunk k c => k.units c
  | .cutting k u => k.units u.ptr
  | .recorded s c => s.kind.units c
  | _ => 0

def Item.regions : Item → Multiset Nat
  | .region r => {r}
  | .parsed r => {r}
  | .view r _ => {r}
  | _ => 0

/-- The mapping behind a region or an extra-large block. -/
def Item.mapping : Item → Multiset (Nat × Nat)
  | .region r => {(r, regionSize)}
  | .parsed r => {(r, regionSize)}
  | .view r _ => {(r, regionSize)}
  | .extra size p => {(p, size)}
  | _ => 0

/-! The sums over all items are irreducible: they must not be computed for the chunks
of a whole region. -/

@[irreducible] def unitsOf (items : Multiset Item) : Multiset Nat := items.bind Item.units

@[irreducible] def regionsOf (items : Multiset Item) : Multiset Nat := items.bind Item.regions

@[irreducible] def mappingsOf (items : Multiset Item) : Multiset (Nat × Nat) :=
  items.bind Item.mapping

section Sums

variable (items items' : Multiset Item) (i : Item)

@[simp] theorem unitsOf_zero : unitsOf 0 = 0 := by simp [unitsOf]
@[simp] theorem regionsOf_zero : regionsOf 0 = 0 := by simp [regionsOf]
@[simp] theorem mappingsOf_zero : mappingsOf 0 = 0 := by simp [mappingsOf]

@[simp] theorem unitsOf_add : unitsOf (items + items') = unitsOf items + unitsOf items' := by
  simp [unitsOf, Multiset.add_bind]

@[simp] theorem regionsOf_add :
    regionsOf (items + items') = regionsOf items + regionsOf items' := by
  simp [regionsOf, Multiset.add_bind]

@[simp] theorem mappingsOf_add :
    mappingsOf (items + items') = mappingsOf items + mappingsOf items' := by
  simp [mappingsOf, Multiset.add_bind]

@[simp] theorem unitsOf_cons : unitsOf (i ::ₘ items) = i.units + unitsOf items := by
  simp [unitsOf]

@[simp] theorem regionsOf_cons : regionsOf (i ::ₘ items) = i.regions + regionsOf items := by
  simp [regionsOf]

@[simp] theorem mappingsOf_cons : mappingsOf (i ::ₘ items) = i.mapping + mappingsOf items := by
  simp [mappingsOf]

@[simp] theorem unitsOf_singleton : unitsOf {i} = i.units := by simp [unitsOf]
@[simp] theorem regionsOf_singleton : regionsOf {i} = i.regions := by simp [regionsOf]
@[simp] theorem mappingsOf_singleton : mappingsOf {i} = i.mapping := by simp [mappingsOf]

variable {items i}

theorem mem_unitsOf {u : Nat} : u ∈ unitsOf items ↔ ∃ i ∈ items, u ∈ i.units := by
  simp only [unitsOf, Multiset.mem_bind]

theorem mem_regionsOf {r : Nat} : r ∈ regionsOf items ↔ ∃ i ∈ items, r ∈ i.regions := by
  simp only [regionsOf, Multiset.mem_bind]

theorem mem_mappingsOf {m : Nat × Nat} :
    m ∈ mappingsOf items ↔ ∃ i ∈ items, m ∈ i.mapping := by
  simp only [mappingsOf, Multiset.mem_bind]

theorem regionsOf_eq_zero (h : ∀ i ∈ items, i.regions = 0) : regionsOf items = 0 := by
  rw [regionsOf, Multiset.bind_congr h, Multiset.bind_zero]

theorem mappingsOf_eq_zero (h : ∀ i ∈ items, i.mapping = 0) : mappingsOf items = 0 := by
  rw [mappingsOf, Multiset.bind_congr h, Multiset.bind_zero]

end Sums

/-- The region has been cut into chunks. -/
def Parsed (items : Multiset Item) (r : Nat) : Prop :=
  .parsed r ∈ items ∨ ∃ n, .view r n ∈ items

/-- The units of an item lie in one region that has been cut. -/
def InRegion (items : Multiset Item) (i : Item) : Prop :=
  ∃ r, Parsed items r ∧ ∀ u ∈ i.units, u ∈ regionUnits r

/-- The units of a region that are in chunks. -/
def unitsIn (r : Nat) (items : Multiset Item) : Multiset Nat :=
  (unitsOf items).filter fun u => regionPtrFromChunkPtr u = r

structure Tidy (os : Os) (items : Multiset Item) : Prop where
  units_nodup : (unitsOf items).Nodup
  inRegion : ∀ i ∈ items, i.units ≠ 0 → InRegion items i
  regions_nodup : (regionsOf items).Nodup
  aligned : ∀ r ∈ regionsOf items, r % regionSize = 0
  mapped : mappingsOf items ≤ (os.mappings : Multiset (Nat × Nat))
  occupied : ∀ r n, .view r n ∈ items →
    n ≤ maxCommonChunksInRegion ∧ (unitsIn r items).card ≤ n
  unwritten : ∀ s c, .unwritten s c ∈ items → .recorded s c ∈ items

/-! ## Small facts -/

theorem ChunkKind.self_mem_units (k : ChunkKind) (c : Nat) : c ∈ k.units c := by
  cases k with
  | common => simp [units]
  | large => exact List.mem_map.mpr ⟨0, by decide, by simp⟩

theorem ChunkKind.length_units (k : ChunkKind) (c : Nat) :
    (k.units c).length = k.numberOfUnits := by
  cases k with
  | common => rfl
  | large => simp [units, splitLargeChunkToCommon, numberOfUnits]

theorem Parsed.mem_regionsOf {items : Multiset Item} {r : Nat} (h : Parsed items r) :
    r ∈ regionsOf items := by
  rcases h with h | ⟨n, h⟩
  · exact Memalart.mem_regionsOf.mpr ⟨_, h, by simp [Item.regions]⟩
  · exact Memalart.mem_regionsOf.mpr ⟨_, h, by simp [Item.regions]⟩

theorem Parsed.mono {items items' : Multiset Item} {r : Nat} (h : Parsed items r)
    (hsub : items ≤ items') : Parsed items' r :=
  h.imp (Multiset.mem_of_le hsub) fun ⟨n, hn⟩ => ⟨n, Multiset.mem_of_le hsub hn⟩

theorem InRegion.mono {items items' : Multiset Item} {i : Item} (h : InRegion items i)
    (hsub : ∀ r, Parsed items r → Parsed items' r) : InRegion items' i := by
  obtain ⟨r, hr, hunits⟩ := h
  exact ⟨r, hsub r hr, hunits⟩

@[simp] theorem unitsIn_zero (r : Nat) : unitsIn r 0 = 0 := by simp [unitsIn]

@[simp] theorem unitsIn_add (r : Nat) (items items' : Multiset Item) :
    unitsIn r (items + items') = unitsIn r items + unitsIn r items' := by
  simp [unitsIn]

theorem unitsIn_singleton_of_units_eq_zero (r : Nat) {i : Item} (h : i.units = 0) :
    unitsIn r {i} = 0 := by
  simp [unitsIn, h]

theorem unitsIn_mono {items items' : Multiset Item} (r : Nat)
    (h : unitsOf items ≤ unitsOf items') : (unitsIn r items).card ≤ (unitsIn r items').card :=
  Multiset.card_le_card (Multiset.filter_le_filter _ h)

namespace Tidy

variable {os os' : Os} {items gone new rest : Multiset Item} {r : Nat}

/-- The region of a unit, from the ledger. -/
theorem parsed_of_unit (h : Tidy os items) {u : Nat} (hu : u ∈ unitsOf items) :
    Parsed items (regionPtrFromChunkPtr u) ∧ u ∈ regionUnits (regionPtrFromChunkPtr u) := by
  obtain ⟨i, hi, hui⟩ := mem_unitsOf.mp hu
  obtain ⟨r, hr, hunits⟩ := h.inRegion i hi fun hzero => by simp [hzero] at hui
  have hregion := regionPtr_of_mem_regionUnits (h.aligned r hr.mem_regionsOf) (hunits u hui)
  rw [hregion]
  exact ⟨hr, hunits u hui⟩

/-- A region has at most 511 units in chunks. -/
theorem card_unitsIn_le (h : Tidy os items) (r : Nat) :
    (unitsIn r items).card ≤ maxCommonChunksInRegion := by
  have hle : unitsIn r items ≤ (regionUnits r : Multiset Nat) := by
    refine (Multiset.le_iff_subset (h.units_nodup.filter _)).mpr ?_
    intro u hu
    obtain ⟨hmem, hregion⟩ := Multiset.mem_filter.mp hu
    exact Multiset.mem_coe.mpr (hregion ▸ (h.parsed_of_unit hmem).2)
  have hcard := Multiset.card_le_card hle
  simpa [regionUnits] using hcard

/-- The ledger stays tidy when items without regions are exchanged for others. -/
theorem chunks (h : Tidy os (gone + rest)) (hunits : unitsOf new ≤ unitsOf gone)
    (hitems : ∀ i ∈ new, i.units ≠ 0 → ∃ j ∈ gone, ∀ u ∈ i.units, u ∈ j.units)
    (hgone : ∀ i ∈ gone, i.regions = 0) (hnew : ∀ i ∈ new, i.regions = 0)
    (hmapping : mappingsOf gone + mappingsOf rest ≤ (os.mappings : Multiset _) →
      mappingsOf new + mappingsOf rest ≤ (os'.mappings : Multiset _))
    (hrecorded : ∀ s c, .recorded s c ∉ gone)
    (hunwritten : ∀ s c, .unwritten s c ∈ new → .recorded s c ∈ new) : Tidy os' (new + rest) := by
  have hparsed : ∀ r, Parsed (gone + rest) r → Parsed (new + rest) r := by
    rintro r (hr | ⟨n, hr⟩)
    · rcases Multiset.mem_add.mp hr with hr | hr
      · exact absurd (hgone _ hr) (by simp [Item.regions])
      · exact .inl (Multiset.mem_add.mpr (.inr hr))
    · rcases Multiset.mem_add.mp hr with hr | hr
      · exact absurd (hgone _ hr) (by simp [Item.regions])
      · exact .inr ⟨n, Multiset.mem_add.mpr (.inr hr)⟩
  have hle : unitsOf (new + rest) ≤ unitsOf (gone + rest) := by simpa using hunits
  have hregions : regionsOf (new + rest) = regionsOf (gone + rest) := by
    simp [regionsOf_eq_zero hgone, regionsOf_eq_zero hnew]
  constructor
  · exact Multiset.nodup_of_le hle h.units_nodup
  · intro i hi hne
    rcases Multiset.mem_add.mp hi with hi | hi
    · obtain ⟨j, hj, hsub⟩ := hitems i hi hne
      have hjne : j.units ≠ 0 := fun hzero => by
        obtain ⟨u, hu⟩ := Multiset.exists_mem_of_ne_zero hne
        simpa [hzero] using hsub u hu
      obtain ⟨r, hr, hjr⟩ := h.inRegion j (Multiset.mem_add.mpr (.inl hj)) hjne
      exact ⟨r, hparsed r hr, fun u hu => hjr u (hsub u hu)⟩
    · exact (h.inRegion i (Multiset.mem_add.mpr (.inr hi)) hne).mono hparsed
  · exact hregions ▸ h.regions_nodup
  · exact hregions ▸ h.aligned
  · have hmapped := h.mapped
    rw [mappingsOf_add] at hmapped ⊢
    exact hmapping hmapped
  · intro r n hview
    rcases Multiset.mem_add.mp hview with hview | hview
    · exact absurd (hnew _ hview) (by simp [Item.regions])
    · obtain ⟨hmax, hcard⟩ := h.occupied r n (Multiset.mem_add.mpr (.inr hview))
      exact ⟨hmax, (unitsIn_mono r hle).trans hcard⟩
  · intro s c hc
    rcases Multiset.mem_add.mp hc with hc | hc
    · exact Multiset.mem_add.mpr (.inl (hunwritten s c hc))
    · rcases Multiset.mem_add.mp (h.unwritten s c (Multiset.mem_add.mpr (.inr hc))) with hg | hr
      · exact absurd hg (hrecorded s c)
      · exact Multiset.mem_add.mpr (.inr hr)

/-- Items without regions and recorded chunks may be dropped. -/
theorem discard (h : Tidy os (gone + rest)) (hgone : ∀ i ∈ gone, i.regions = 0)
    (hrecorded : ∀ s c, .recorded s c ∉ gone)
    (hmapping : mappingsOf gone + mappingsOf rest ≤ (os.mappings : Multiset _) →
      mappingsOf rest ≤ (os'.mappings : Multiset _)) : Tidy os' (0 + rest) := by
  refine h.chunks ?_ (by simp) hgone (by simp) ?_ hrecorded (by simp)
  · rw [unitsOf_zero]
    exact Multiset.zero_le _
  · rwa [mappingsOf_zero, zero_add]

end Tidy

/-! ## Mapping and cutting a region -/

theorem unitsOf_all_chunk (k : ChunkKind) (chunks : List Nat) :
    unitsOf (Item.all (.chunk k) chunks) = (chunks.flatMap k.units : List Nat) := by
  induction chunks with
  | nil => simp
  | cons c chunks ih => simp [ih, Item.units]

/-- The chunks of a region cover its units. -/
theorem unitsOf_regionChunks (r : Nat) :
    unitsOf (regionChunks r) = (regionUnits r : Multiset Nat) := by
  have hcommon : (parseRegion r).commonChunks.flatMap ChunkKind.common.units =
      (parseRegion r).commonChunks := List.flatMap_singleton' _
  have hlarge : (parseRegion r).largeChunks.flatMap ChunkKind.large.units =
      (parseRegion r).largeChunks.flatMap splitLargeChunkToCommon := rfl
  rw [← parseRegion_units, regionChunks, unitsOf_add, unitsOf_all_chunk, unitsOf_all_chunk,
    hcommon, hlarge, Multiset.coe_add]

theorem mem_regionChunks {r : Nat} {i : Item} (h : i ∈ regionChunks r) :
    ∃ k c, i = .chunk k c := by
  rcases Multiset.mem_add.mp h with h | h
  · obtain ⟨c, -, rfl⟩ := mem_itemAll.mp h
    exact ⟨.common, c, rfl⟩
  · obtain ⟨c, -, rfl⟩ := mem_itemAll.mp h
    exact ⟨.large, c, rfl⟩

theorem mem_regionUnits_of_chunk {r u : Nat} {i : Item} (hi : i ∈ regionChunks r)
    (hu : u ∈ i.units) : u ∈ regionUnits r := by
  have hmem : u ∈ unitsOf (regionChunks r) := mem_unitsOf.mpr ⟨i, hi, hu⟩
  rw [unitsOf_regionChunks] at hmem
  exact Multiset.mem_coe.mp hmem

@[simp] theorem regionsOf_regionChunks (r : Nat) : regionsOf (regionChunks r) = 0 :=
  regionsOf_eq_zero fun i hi => by
    obtain ⟨k, c, rfl⟩ := mem_regionChunks hi
    rfl

@[simp] theorem mappingsOf_regionChunks (r : Nat) : mappingsOf (regionChunks r) = 0 :=
  mappingsOf_eq_zero fun i hi => by
    obtain ⟨k, c, rfl⟩ := mem_regionChunks hi
    rfl

section Regions

variable {os os' : Os} {rest : Multiset Item} {r : Nat}

/-- A region that the kernel has just granted is none of the old ones. -/
theorem Tidy.fresh (h : Tidy os rest) (hfresh : os.Fresh r regionSize regionSize) :
    r ∉ regionsOf rest := by
  intro hr
  obtain ⟨i, hi, hri⟩ := mem_regionsOf.mp hr
  have hi' : (r, regionSize) ∈ i.mapping := by
    cases i <;> simp_all [Item.regions, Item.mapping]
  have hmem := Multiset.mem_of_le h.mapped (mem_mappingsOf.mpr ⟨i, hi, hi'⟩)
  have hapart := hfresh.2.2.2 _ (Multiset.mem_coe.mp hmem)
  simp only [regionSize] at hapart
  omega

theorem tidy_map (h : Tidy os rest) (hfresh : os.Fresh r regionSize regionSize)
    (hmappings : os'.mappings = (r, regionSize) :: os.mappings) :
    Tidy os' ({.region r} + rest) := by
  have hnew : r ∉ regionsOf rest := h.fresh hfresh
  constructor
  · simpa [Item.units] using h.units_nodup
  · intro i hi hne
    rcases Multiset.mem_add.mp hi with hi | hi
    · obtain rfl := Multiset.mem_singleton.mp hi
      exact absurd rfl hne
    · exact (h.inRegion i hi hne).mono fun r' hr' => hr'.mono (Multiset.le_add_left _ _)
  · simpa [Item.regions] using ⟨hnew, h.regions_nodup⟩
  · intro r' hr'
    have hr' : r' = r ∨ r' ∈ regionsOf rest := by simpa [Item.regions] using hr'
    rcases hr' with rfl | hr'
    · exact hfresh.2.1
    · exact h.aligned r' hr'
  · have hcons : mappingsOf ({.region r} + rest) = (r, regionSize) ::ₘ mappingsOf rest := by
      simp [Item.mapping]
    rw [hcons, hmappings, ← Multiset.cons_coe]
    exact Multiset.cons_le_cons _ h.mapped
  · intro r' n hview
    have hview : .view r' n ∈ rest := by simpa using hview
    obtain ⟨hmax, hcard⟩ := h.occupied r' n hview
    refine ⟨hmax, ?_⟩
    rwa [unitsIn_add, unitsIn_singleton_of_units_eq_zero r' rfl, zero_add]
  · intro s c hc
    have hc : .unwritten s c ∈ rest := by simpa using hc
    exact Multiset.mem_add.mpr (.inr (h.unwritten s c hc))

theorem tidy_parse (h : Tidy os ({.region r} + rest)) :
    Tidy os ({.parsed r} + regionChunks r + rest) := by
  have haligned : r % regionSize = 0 := h.aligned r (by simp [Item.regions])
  have hregions : r ∉ regionsOf rest ∧ (regionsOf rest).Nodup := by
    simpa [Item.regions] using h.regions_nodup
  have hself : Parsed ({.parsed r} + regionChunks r + rest) r := .inl (by simp)
  have hold : ∀ r', Parsed ({.region r} + rest) r' → Parsed rest r' :=
    fun r' hr' => hr'.imp (fun hr' => by simpa using hr') fun ⟨n, hr'⟩ => ⟨n, by simpa using hr'⟩
  have hparsed : ∀ r', Parsed ({.region r} + rest) r' →
      Parsed ({.parsed r} + regionChunks r + rest) r' := fun r' hr' =>
    (hold r' hr').mono (Multiset.le_add_left _ _)
  -- no old unit lies in the region, whose chunks are new
  have hrest : ∀ u ∈ unitsOf rest, regionPtrFromChunkPtr u ≠ r := by
    rintro u hu rfl
    have hu' : u ∈ unitsOf ({.region (regionPtrFromChunkPtr u)} + rest) := by
      rw [unitsOf_add]
      exact Multiset.mem_add.mpr (.inr hu)
    exact hregions.1 (hold _ (h.parsed_of_unit hu').1).mem_regionsOf
  constructor
  · have hnodup : (unitsOf rest).Nodup := by simpa [Item.units] using h.units_nodup
    rw [unitsOf_add, unitsOf_add, unitsOf_singleton, unitsOf_regionChunks, Multiset.nodup_add]
    refine ⟨by simpa [Item.units] using regionUnits_nodup r, hnodup, ?_⟩
    refine Multiset.disjoint_left.mpr fun {u} hu hu' => hrest u hu' ?_
    have hu : u ∈ regionUnits r := by simpa [Item.units] using hu
    exact regionPtr_of_mem_regionUnits haligned hu
  · intro i hi hne
    rcases Multiset.mem_add.mp hi with hi | hi
    · rcases Multiset.mem_add.mp hi with hi | hi
      · obtain rfl := Multiset.mem_singleton.mp hi
        exact absurd rfl hne
      · exact ⟨r, hself, fun u hu => mem_regionUnits_of_chunk hi hu⟩
    · exact (h.inRegion i (Multiset.mem_add.mpr (.inr hi)) hne).mono hparsed
  · simpa [Item.regions] using hregions
  · simpa [Item.regions] using h.aligned
  · simpa [Item.mapping] using h.mapped
  · intro r' n hview
    have hview : .view r' n ∈ rest := by
      rcases Multiset.mem_add.mp hview with hview | hview
      · rcases Multiset.mem_add.mp hview with hview | hview
        · simp at hview
        · obtain ⟨k, c, heq⟩ := mem_regionChunks hview
          cases heq
      · exact hview
    obtain ⟨hmax, hcard⟩ := h.occupied r' n (Multiset.mem_add.mpr (.inr hview))
    have hne : r ≠ r' := by
      rintro rfl
      exact hregions.1 (Parsed.mem_regionsOf (.inr ⟨n, hview⟩))
    have hnone : unitsIn r' (regionChunks r) = 0 := by
      rw [unitsIn, unitsOf_regionChunks]
      refine Multiset.filter_eq_nil.mpr fun u hu hregion => hne ?_
      rw [← hregion, regionPtr_of_mem_regionUnits haligned (Multiset.mem_coe.mp hu)]
    rw [unitsIn_add, unitsIn_singleton_of_units_eq_zero r' rfl, zero_add] at hcard
    refine ⟨hmax, ?_⟩
    rwa [unitsIn_add, unitsIn_add, hnone, unitsIn_singleton_of_units_eq_zero r' rfl, zero_add,
      zero_add]
  · intro s c hc
    rcases Multiset.mem_add.mp hc with hc | hc
    · rcases Multiset.mem_add.mp hc with hc | hc
      · simp at hc
      · obtain ⟨k, c', heq⟩ := mem_regionChunks hc
        cases heq
    · have hrec := h.unwritten s c (Multiset.mem_add.mpr (.inr hc))
      exact Multiset.mem_add.mpr (.inr (by simpa using hrec))

/-- Exchanging one item of a region for another that the region's chunks may rely on. -/
theorem tidy_retag {i j : Item} (h : Tidy os ({i} + rest)) (hi : i.units = 0) (hj : j.units = 0)
    (hregions : j.regions = i.regions) (hmapping : j.mapping = i.mapping)
    (hparsed : ∀ r, Parsed {i} r → Parsed {j} r)
    (hview : ∀ r n, j = .view r n →
      n ≤ maxCommonChunksInRegion ∧ (unitsIn r rest).card ≤ n)
    (hunwritten : ∀ s c, j ≠ .unwritten s c) (hrecorded : ∀ s c, i ≠ .recorded s c) :
    Tidy os ({j} + rest) := by
  have hkeep : ∀ r, Parsed ({i} + rest) r → Parsed ({j} + rest) r := by
    rintro r (hr | ⟨n, hr⟩)
    · rcases Multiset.mem_add.mp hr with hr | hr
      · exact (hparsed r (.inl hr)).mono (Multiset.le_add_right _ _)
      · exact .inl (Multiset.mem_add.mpr (.inr hr))
    · rcases Multiset.mem_add.mp hr with hr | hr
      · exact (hparsed r (.inr ⟨n, hr⟩)).mono (Multiset.le_add_right _ _)
      · exact .inr ⟨n, Multiset.mem_add.mpr (.inr hr)⟩
  have hin : ∀ r k, k.units = 0 → unitsIn r ({k} + rest) = unitsIn r rest := fun r k hk => by
    rw [unitsIn_add, unitsIn_singleton_of_units_eq_zero r hk, zero_add]
  constructor
  · simpa [hi, hj] using h.units_nodup
  · intro k hk hne
    rcases Multiset.mem_add.mp hk with hk | hk
    · obtain rfl := Multiset.mem_singleton.mp hk
      exact absurd hj hne
    · exact (h.inRegion k (Multiset.mem_add.mpr (.inr hk)) hne).mono hkeep
  · simpa [hregions] using h.regions_nodup
  · simpa [hregions] using h.aligned
  · simpa [hmapping] using h.mapped
  · intro r n hv
    rw [hin r j hj]
    rcases Multiset.mem_add.mp hv with hv | hv
    · exact hview r n (Multiset.mem_singleton.mp hv).symm
    · have hold := h.occupied r n (Multiset.mem_add.mpr (.inr hv))
      rwa [hin r i hi] at hold
  · intro s c hc
    rcases Multiset.mem_add.mp hc with hc | hc
    · exact absurd (Multiset.mem_singleton.mp hc).symm (hunwritten s c)
    · rcases Multiset.mem_add.mp (h.unwritten s c (Multiset.mem_add.mpr (.inr hc))) with hg | hr
      · exact absurd (Multiset.mem_singleton.mp hg).symm (hrecorded s c)
      · exact Multiset.mem_add.mpr (.inr hr)

theorem tidy_enter (h : Tidy os ({.parsed r} + rest)) :
    Tidy os ({.view r maxCommonChunksInRegion} + rest) := by
  refine tidy_retag h rfl rfl rfl rfl ?_ ?_ (by simp) (by simp)
  · rintro r' (hr' | ⟨n, hr'⟩)
    · obtain rfl : r' = r := by simpa using hr'
      exact .inr ⟨maxCommonChunksInRegion, by simp⟩
    · simp at hr'
  · rintro r' n heq
    obtain ⟨rfl, rfl⟩ := Item.view.inj heq
    have hle := h.card_unitsIn_le r
    rw [unitsIn_add, unitsIn_singleton_of_units_eq_zero r rfl, zero_add] at hle
    exact ⟨le_rfl, hle⟩

/-! ## Giving chunks back -/

/-- The units of a chunk lie in the region of its address. -/
theorem Tidy.units_chunk {k : ChunkKind} {c : Nat} (h : Tidy os ({.chunk k c} + rest)) :
    unitsIn (regionPtrFromChunkPtr c) {.chunk k c} = (k.units c : Multiset Nat) := by
  obtain ⟨r, hr, hunits⟩ := h.inRegion (.chunk k c) (by simp)
    (fun hzero => absurd (k.self_mem_units c) (by simp [Item.units] at hzero; simp [hzero]))
  have haligned := h.aligned r hr.mem_regionsOf
  have hunits : ∀ u ∈ k.units c, u ∈ regionUnits r := fun u hu => hunits u (by simpa [Item.units])
  have hregion := regionPtr_of_mem_regionUnits haligned (hunits c (k.self_mem_units c))
  rw [unitsIn, unitsOf_singleton]
  refine Multiset.filter_eq_self.mpr fun u hu => ?_
  rw [hregion]
  exact regionPtr_of_mem_regionUnits haligned (hunits u (by simpa [Item.units] using hu))

/-- The counter of a view covers the units of a chunk that is given back. -/
theorem Tidy.release_count {k : ChunkKind} {c n : Nat}
    (h : Tidy os ({.chunk k c} + {.view (regionPtrFromChunkPtr c) n} + {.permit} + rest)) :
    (n + (usizeRange - k.numberOfUnits)) % usizeRange = n - k.numberOfUnits ∧
      n ≤ maxCommonChunksInRegion ∧
      (unitsIn (regionPtrFromChunkPtr c) rest).card + k.numberOfUnits ≤ n := by
  obtain ⟨hmax, hcard⟩ := h.occupied (regionPtrFromChunkPtr c) n (by simp)
  have hself : Tidy os ({.chunk k c} + ({.view (regionPtrFromChunkPtr c) n} + {.permit} + rest)) := by
    simpa only [add_assoc] using h
  simp only [unitsIn_add, hself.units_chunk, Multiset.card_add, Multiset.coe_card,
    k.length_units] at hcard
  have hle : (unitsIn (regionPtrFromChunkPtr c) rest).card + k.numberOfUnits ≤ n := by omega
  refine ⟨?_, hmax, hle⟩
  have hmax' : n ≤ 511 := hmax
  simp only [usizeRange]
  omega

/-- A chunk and the permission that are given back leave the rest tidy. -/
theorem Tidy.drop_chunk {k : ChunkKind} {c : Nat} {i : Item}
    (h : Tidy os ({.chunk k c} + {i} + {.permit} + rest)) : Tidy os ({i} + rest) := by
  have hgone : Tidy os ({.chunk k c} + {.permit} + ({i} + rest)) := by
    have hcomm : ({.chunk k c} + {i} + {.permit} + rest : Multiset Item) =
        {.chunk k c} + {.permit} + ({i} + rest) := by abel
    exact hcomm ▸ h
  rw [← zero_add ({i} + rest)]
  exact hgone.discard (by simp [Item.regions]) (by simp) (by simp [Item.mapping])

theorem coe_erase_mapping (mappings : List (Nat × Nat)) (a : Nat × Nat) :
    ((mappings.erase a : List (Nat × Nat)) : Multiset (Nat × Nat)) =
      (mappings : Multiset (Nat × Nat)).erase a := by
  rw [Multiset.coe_erase]
  congr 2
  exact lawful_beq_subsingleton _ _

/-- A region without units in chunks may be unmapped. -/
theorem tidy_unmap {n : Nat} (h : Tidy os ({.view r n} + rest)) (hnone : unitsIn r rest = 0)
    (hmappings : os'.mappings = os.mappings.erase (r, regionSize)) : Tidy os' rest := by
  have hregions : r ∉ regionsOf rest ∧ (regionsOf rest).Nodup := by
    simpa [Item.regions] using h.regions_nodup
  constructor
  · simpa [Item.units] using h.units_nodup
  · intro i hi hne
    obtain ⟨r', hr', hunits⟩ := h.inRegion i (Multiset.mem_add.mpr (.inr hi)) hne
    obtain ⟨u, hu⟩ := Multiset.exists_mem_of_ne_zero hne
    have haligned := h.aligned r' hr'.mem_regionsOf
    refine ⟨r', ?_, hunits⟩
    rcases hr' with hr' | ⟨n', hr'⟩
    · exact .inl (by simpa using hr')
    · rcases Multiset.mem_add.mp hr' with hr' | hr'
      · -- the unit would lie in the region that is unmapped
        obtain ⟨rfl, -⟩ := Item.view.inj (Multiset.mem_singleton.mp hr')
        have hmem : u ∈ unitsIn r' rest := Multiset.mem_filter.mpr
          ⟨mem_unitsOf.mpr ⟨i, hi, hu⟩, regionPtr_of_mem_regionUnits haligned (hunits u hu)⟩
        rw [hnone] at hmem
        exact absurd hmem (Multiset.notMem_zero u)
      · exact .inr ⟨n', hr'⟩
  · exact hregions.2
  · intro r' hr'
    exact h.aligned r' (by simp [hr'])
  · have hcons : mappingsOf ({.view r n} + rest) = (r, regionSize) ::ₘ mappingsOf rest := by
      simp [Item.mapping]
    have hle := h.mapped
    rw [hcons] at hle
    rw [hmappings, coe_erase_mapping]
    have herase := Multiset.erase_le_erase (r, regionSize) hle
    rwa [Multiset.erase_cons_head] at herase
  · intro r' n' hview
    obtain ⟨hmax, hcard⟩ := h.occupied r' n' (Multiset.mem_add.mpr (.inr hview))
    rw [unitsIn_add, unitsIn_singleton_of_units_eq_zero r' rfl, zero_add] at hcard
    exact ⟨hmax, hcard⟩
  · intro s c hc
    have hrec := h.unwritten s c (Multiset.mem_add.mpr (.inr hc))
    simpa using hrec

end Regions

theorem unitsOf_all_object (s : Slot) (ptrs : List Nat) :
    unitsOf (Item.all (.object s) ptrs) = 0 := by
  refine Multiset.eq_zero_of_forall_notMem fun u hu => ?_
  obtain ⟨i, hi, hui⟩ := mem_unitsOf.mp hu
  obtain ⟨p, -, rfl⟩ := mem_itemAll.mp hi
  simp [Item.units] at hui

theorem unitsOf_objects (s : Slot) (c : Nat) : unitsOf (s.objects c) = 0 :=
  unitsOf_all_object s _

/-- The units of a pair of items of which the second has none. -/
theorem mem_units_of_pair {i j k l : Item} {u : Nat} (hi : i ∈ ({j} + {k} : Multiset Item))
    (hk : k.units = 0) (hj : j.units = l.units) (hu : u ∈ i.units) : u ∈ l.units := by
  rcases Multiset.mem_add.mp hi with hi | hi
  · obtain rfl := Multiset.mem_singleton.mp hi
    exact hj ▸ hu
  · obtain rfl := Multiset.mem_singleton.mp hi
    simp [hk] at hu

/-- What recording a chunk makes of it. -/
theorem mem_cut_items {s : Slot} {c : Nat} {i : Item}
    (h : i ∈ ({.recorded s c} + {.unwritten s c} + s.objects c : Multiset Item)) :
    i = .recorded s c ∨ i = .unwritten s c ∨ ∃ p, i = .object s p := by
  rcases Multiset.mem_add.mp h with h | h
  · rcases Multiset.mem_add.mp h with h | h
    · exact .inl (Multiset.mem_singleton.mp h)
    · exact .inr (.inl (Multiset.mem_singleton.mp h))
  · obtain ⟨p, -, rfl⟩ := mem_itemAll.mp h
    exact .inr (.inr ⟨p, rfl⟩)

theorem tidy_exchange {os os' : Os} {m m' : Option Nat} {gone new : Multiset Item}
    (rest : Multiset Item) (h : Exchange os m gone new os' m') (ht : Tidy os (gone + rest)) :
    Tidy os' (new + rest) := by
  cases h with
  | map r hfresh hmappings =>
      rw [zero_add] at ht
      exact tidy_map ht hfresh hmappings
  | parse r => exact tidy_parse ht
  | enter r => exact tidy_enter ht
  | release k c n hkeep =>
      obtain ⟨hcount, hmax, hcard⟩ := ht.release_count
      rw [hcount]
      refine tidy_retag ht.drop_chunk rfl rfl rfl rfl ?_ ?_ (by simp) (by simp)
      · rintro r' (hr' | ⟨n', hr'⟩)
        · simp at hr'
        · obtain ⟨rfl, -⟩ := Item.view.inj (Multiset.mem_singleton.mp hr')
          exact .inr ⟨n - k.numberOfUnits, by simp⟩
      · rintro r' n' heq
        obtain ⟨rfl, rfl⟩ := Item.view.inj heq
        exact ⟨by omega, by omega⟩
  | releaseLast k c n hlast =>
      obtain ⟨hcount, hmax, hcard⟩ := ht.release_count
      rw [hcount] at hlast
      rw [zero_add]
      exact tidy_unmap ht.drop_chunk (Multiset.card_eq_zero.mp (by omega)) rfl
  | record s c =>
      refine ht.chunks ?_ ?_ (by simp [Item.regions]) ?_ ?_ (by simp) ?_
      · simp [unitsOf_objects, Item.units]
      · rintro i hi hne
        refine ⟨_, Multiset.mem_singleton_self _, ?_⟩
        rcases mem_cut_items hi with rfl | rfl | ⟨p, rfl⟩
        · exact fun u hu => hu
        · exact absurd rfl hne
        · exact absurd rfl hne
      · intro i hi
        rcases mem_cut_items hi with rfl | rfl | ⟨p, rfl⟩ <;> rfl
      · have hnone : mappingsOf (s.objects c) = 0 := mappingsOf_eq_zero fun i hi => by
          obtain ⟨p, -, rfl⟩ := mem_itemAll.mp hi
          rfl
        simp [hnone, Item.mapping]
      · intro t c' hc
        rcases mem_cut_items hc with heq | heq | ⟨p, heq⟩
        · cases heq
        · cases heq
          simp
        · cases heq
  | split c =>
      have hall : ∀ i ∈ Item.all (.chunk .common) (splitLargeChunkToCommon c),
          ∃ u ∈ splitLargeChunkToCommon c, i = .chunk .common u := fun i hi => by
        obtain ⟨u, hu, rfl⟩ := mem_itemAll.mp hi
        exact ⟨u, hu, rfl⟩
      refine ht.chunks ?_ ?_ (by simp [Item.regions]) ?_ ?_ (by simp) ?_
      · have hunits : (splitLargeChunkToCommon c).flatMap ChunkKind.common.units =
            splitLargeChunkToCommon c := List.flatMap_singleton' _
        rw [unitsOf_all_chunk, hunits]
        simp [Item.units, ChunkKind.units]
      · intro i hi hne
        obtain ⟨u, hu, rfl⟩ := hall i hi
        refine ⟨_, Multiset.mem_singleton_self _, fun v hv => ?_⟩
        obtain rfl : v = u := by simpa [Item.units, ChunkKind.units] using hv
        exact Multiset.mem_coe.mpr hu
      · intro i hi
        obtain ⟨u, hu, rfl⟩ := hall i hi
        rfl
      · have hnone : mappingsOf (Item.all (.chunk .common) (splitLargeChunkToCommon c)) = 0 :=
          mappingsOf_eq_zero fun i hi => by
            obtain ⟨u, hu, rfl⟩ := hall i hi
            rfl
        simp [hnone, Item.mapping]
      · intro s c' hc
        obtain ⟨u, -, heq⟩ := hall _ hc
        cases heq
  | start s size c hslot hsize =>
      refine ht.chunks (by simp [Item.units]) ?_ (by simp [Item.regions]) (by simp [Item.regions])
        (by simp [Item.mapping]) (by simp) (by simp)
      intro i hi hne
      exact ⟨_, Multiset.mem_singleton_self _, fun u hu => mem_units_of_pair hi rfl rfl hu⟩
  | cut s u hslot hfree =>
      refine ht.chunks (by simp [Item.units]) ?_ (by simp [Item.regions]) (by simp [Item.regions])
        (by simp [Item.mapping]) (by simp) (by simp)
      intro i hi hne
      exact ⟨_, Multiset.mem_singleton_self _, fun u hu => mem_units_of_pair hi rfl rfl hu⟩
  | commit s u hslot =>
      have hobject : ∀ i ∈ Item.all (.object s) (firstSlots u.ptr u.size u.numberOfFreeSlots),
          ∃ p, i = .object s p := fun i hi => by
        obtain ⟨p, -, rfl⟩ := mem_itemAll.mp hi
        exact ⟨p, rfl⟩
      refine ht.chunks ?_ ?_ (by simp [Item.regions]) ?_ ?_ (by simp) ?_
      · simp [unitsOf_all_object, Item.units]
      · intro i hi hne
        refine ⟨_, Multiset.mem_singleton_self _, fun v hv => ?_⟩
        rcases Multiset.mem_add.mp hi with hi | hi
        · obtain rfl := Multiset.mem_singleton.mp hi
          exact hv
        · obtain ⟨p, rfl⟩ := hobject i hi
          exact absurd rfl hne
      · intro i hi
        rcases Multiset.mem_add.mp hi with hi | hi
        · obtain rfl := Multiset.mem_singleton.mp hi
          rfl
        · obtain ⟨p, rfl⟩ := hobject i hi
          rfl
      · have hnone := mappingsOf_eq_zero fun i hi => by
          obtain ⟨p, rfl⟩ := hobject i hi
          exact (rfl : (Item.object s p).mapping = 0)
        simp [hnone, Item.mapping]
      · intro t c hc
        rcases Multiset.mem_add.mp hc with hc | hc
        · simp at hc
        · obtain ⟨p, heq⟩ := hobject _ hc
          cases heq
  | leaveUncut s c hlog =>
      have hitems : ∀ i ∈ ({.unwritten s c} + s.objects c : Multiset Item),
          i = .unwritten s c ∨ ∃ p, i = .object s p := fun i hi => by
        rcases Multiset.mem_add.mp hi with hi | hi
        · exact .inl (Multiset.mem_singleton.mp hi)
        · obtain ⟨p, -, rfl⟩ := mem_itemAll.mp hi
          exact .inr ⟨p, rfl⟩
      refine ht.discard ?_ ?_ fun hle => (Multiset.le_add_left _ _).trans hle
      · intro i hi
        rcases hitems i hi with rfl | ⟨p, rfl⟩ <;> rfl
      · intro t c' hc
        rcases hitems _ hc with heq | ⟨p, heq⟩ <;> cases heq
  | quiet h =>
      refine ht.discard (by simp) (by simp) fun hle => ?_
      rw [h.mappings]
      simpa using hle
  | writeLarge s c p _ _ hquiet =>
      refine ht.discard (by simp [Item.regions]) (by simp) fun hle => ?_
      rw [hquiet.mappings, Os.mappings_initMetadata]
      simpa [Item.mapping] using hle
  | write s c p =>
      refine ht.discard (by simp [Item.regions]) (by simp) fun hle => ?_
      rw [Os.mappings_initMetadata]
      simpa [Item.mapping] using hle
  | mapExtra size p hmappings =>
      refine ht.chunks (by simp [Item.units]) (by simp [Item.units]) (by simp)
        (by simp [Item.regions]) (fun hle => ?_) (by simp) (by simp)
      rw [hmappings, ← Multiset.cons_coe, mappingsOf_singleton, Item.mapping,
        Multiset.singleton_add]
      exact Multiset.cons_le_cons _ (by simpa using hle)
  | unmapExtra size p hmappings =>
      refine ht.discard (by simp [Item.regions]) (by simp) fun hle => ?_
      rw [hmappings, coe_erase_mapping]
      have herase := Multiset.erase_le_erase (p, size) hle
      simpa [Item.mapping] using herase
  | _ =>
      exact ht.discard (by simp [Item.regions]) (by simp)
        fun hle => (Multiset.le_add_left _ _).trans hle

/-- The ledger of units along a run. -/
theorem Moves.tidy {e e' : Estate} (h : Moves e e') (ht : Tidy e.os e.items) :
    Tidy e'.os e'.items :=
  h.invariant (J := fun os _ items => Tidy os items) tidy_exchange ht

end Memalart
