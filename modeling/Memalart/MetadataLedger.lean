/-
# The ledger of chunk metadata

Where the metadata of chunks is written correctly: the entry of every unit of a
recorded chunk names the allocator's manager and the class of the chunk.  This is
an invariant of moves, except for the one move that writes the metadata of a large
chunk from its last object on.  That a manager in the metadata is the allocator's
own, if there is any, holds in any case.
-/

import Memalart.UnitLedger

namespace Memalart

/-- The metadata entry of the unit that an address lies in. -/
def Os.metadataAt (os : Os) (a : Nat) : ChunkMetadata :=
  os.metadata (chunkPtrToChunkMetadataPtr a)

def Os.NoLargeChunkCut (os : Os) : Prop := ∀ c, .largeChunkCut c ∉ os.log

theorem Os.NoLargeChunkCut.mono {os os' : Os} (h : os'.NoLargeChunkCut)
    (hlog : os.log <:+ os'.log) : os.NoLargeChunkCut :=
  fun p hp => h p (hlog.subset hp)

/-- The metadata of every recorded chunk, once it is written, is right for each of its
units. -/
def Written (os : Os) (m : Option Nat) (items : Multiset Item) : Prop :=
  ∀ s c, .recorded s c ∈ items → .unwritten s c ∉ items →
    ∃ m₀, m = some m₀ ∧ ∀ u ∈ s.kind.units c, os.metadataAt u = ⟨m₀, s.offset⟩

/-- Metadata is empty or names the allocator's own manager. -/
def OwnManager (os : Os) (m : Option Nat) : Prop :=
  ∀ a, (os.metadata a).nonLocalPtrManager = 0 ∨ m = some (os.metadata a).nonLocalPtrManager

/-! ## What writing metadata does -/

namespace Os

theorem metadata_foldl_writeMetadata (f : Nat → Nat) (m : ChunkMetadata) (is : List Nat) (os : Os)
    (a : Nat) : (is.foldl (fun os i => os.writeMetadata (f i) m) os).metadata a =
      if a ∈ is.map f then m else os.metadata a := by
  induction is generalizing os with
  | nil => simp
  | cons i is ih =>
      rw [List.foldl_cons, ih, List.map_cons]
      by_cases hmem : a ∈ is.map f
      · rw [if_pos hmem, if_pos (List.mem_cons_of_mem _ hmem)]
      · by_cases heq : a = f i
        · rw [if_neg hmem, if_pos (heq ▸ List.mem_cons_self)]
          exact if_pos heq
        · rw [if_neg hmem, if_neg fun h => (List.mem_cons.mp h).elim heq hmem]
          exact if_neg heq

theorem manager_initMetadata (s : Slot) (m p : Nat) (os : Os) (a : Nat) :
    ((os.initMetadata s m p).metadata a).nonLocalPtrManager = m ∨
      (os.initMetadata s m p).metadata a = os.metadata a := by
  cases s with
  | common idx =>
      by_cases h : a = chunkPtrToChunkMetadataPtr p
      · exact .inl (congrArg _ (if_pos h))
      · exact .inr (if_neg h)
  | large idx =>
      simp only [initMetadata, initMetadataForLargeChunk, metadata_foldl_writeMetadata]
      split
      · exact .inl rfl
      · exact .inr rfl

end Os

/-- The metadata entry of a unit of a region. -/
theorem chunkMetadataPtr_region {r k : Nat} (haligned : r % regionSize = 0) (hk : k < 512) :
    chunkPtrToChunkMetadataPtr (r + k * 65536) = r + k * 24 := by
  rw [chunkMetadataPtr_eq]
  simp only [regionSize] at haligned
  obtain ⟨q, rfl⟩ : ∃ q, r = q * 33554432 := ⟨r / 33554432, by omega⟩
  have hdiv : (q * 33554432 + k * 65536) / 33554432 = q := by omega
  have hmod : (q * 33554432 + k * 65536) % 33554432 / 65536 = k := by omega
  rw [hdiv, hmod]

theorem eq_of_mem_regionUnits {r u : Nat} (h : u ∈ regionUnits r) :
    ∃ k, k + 1 < 512 ∧ u = r + (k + 1) * 65536 := by
  obtain ⟨k, hk, rfl⟩ := List.mem_map.mp h
  have hk : k < 511 := List.mem_range.mp hk
  exact ⟨k, by omega, rfl⟩

/-- A unit of a region is its own unit, and its metadata lies in the region. -/
theorem unit_of_region {r u : Nat} (haligned : r % regionSize = 0) (h : u ∈ regionUnits r) :
    unitOf u = u ∧ r ≤ chunkPtrToChunkMetadataPtr u ∧
      chunkPtrToChunkMetadataPtr u < r + regionSize := by
  obtain ⟨k, hk, rfl⟩ := eq_of_mem_regionUnits h
  have hmeta := chunkMetadataPtr_region haligned hk
  simp only [regionSize, unitOf, commonChunkSize] at *
  refine ⟨by omega, by omega, by omega⟩

/-- Unit `i` of a large chunk inside a region, and its entry. -/
theorem chunkMetadataPtr_add {c r i : Nat} (haligned : r % regionSize = 0)
    (hc : c ∈ regionUnits r) (hci : c + i * commonChunkSize ∈ regionUnits r) :
    chunkPtrToChunkMetadataPtr (c + i * commonChunkSize) =
      chunkPtrToChunkMetadataPtr c + i * chunkMetadataSize := by
  obtain ⟨k, hk, hc⟩ := eq_of_mem_regionUnits hc
  obtain ⟨l, hl, hci⟩ := eq_of_mem_regionUnits hci
  have hli : l = k + i := by
    simp only [commonChunkSize] at hci
    omega
  subst hli
  rw [hci, hc, chunkMetadataPtr_region haligned hk, chunkMetadataPtr_region haligned hl]
  simp only [chunkMetadataSize]
  omega

/-- The entries that are written for a chunk inside a region are those of its units. -/
theorem metadata_initMetadata {s : Slot} {c r : Nat} (haligned : r % regionSize = 0)
    (hunits : ∀ u ∈ s.kind.units c, u ∈ regionUnits r) (os : Os) (m a : Nat) :
    (os.initMetadata s m c).metadata a =
      if a ∈ (s.kind.units c).map chunkPtrToChunkMetadataPtr then ⟨m, s.offset⟩
      else os.metadata a := by
  cases s with
  | common idx =>
      simp only [Os.initMetadata, Os.initMetadataForCommonChunk, Os.writeMetadata, Slot.kind,
        ChunkKind.units, List.map_cons, List.map_nil, List.mem_singleton]
  | large idx =>
      simp only [Slot.kind, ChunkKind.units, splitLargeChunkToCommon, List.mem_map,
        List.mem_range] at hunits
      have hself : c ∈ regionUnits r := hunits c ⟨0, by decide, by simp⟩
      have hentries : (List.range commonChunksInLargeChunk).map
            (fun i => chunkPtrToChunkMetadataPtr c + i * chunkMetadataSize) =
          (splitLargeChunkToCommon c).map chunkPtrToChunkMetadataPtr := by
        rw [splitLargeChunkToCommon, List.map_map]
        refine List.map_congr_left fun i hi => ?_
        have hi' := hunits _ ⟨i, List.mem_range.mp hi, rfl⟩
        rw [Function.comp_apply, chunkMetadataPtr_add haligned hself hi']
      simp only [Os.initMetadata, Os.initMetadataForLargeChunk, Os.metadata_foldl_writeMetadata,
        Slot.kind, ChunkKind.units, hentries]
      exact if_congr Iff.rfl rfl rfl

/-! ## The invariants -/

section Ledger

variable {os os' : Os} {m m' : Option Nat} {items gone new rest : Multiset Item}

/-- Different chunks have no unit in common. -/
theorem Tidy.units_disjoint (h : Tidy os items) {i j : Item} (hi : i ∈ items) (hj : j ∈ items)
    (hne : i ≠ j) {u : Nat} (hu : u ∈ i.units) : u ∉ j.units := by
  obtain ⟨tail, rfl⟩ := Multiset.exists_cons_of_mem hi
  have hj : j ∈ tail := (Multiset.mem_cons.mp hj).resolve_left (Ne.symm hne)
  have hnodup := h.units_nodup
  rw [unitsOf_cons, Multiset.nodup_add] at hnodup
  exact fun hu' => Multiset.disjoint_left.mp hnodup.2.2 hu (mem_unitsOf.mpr ⟨j, hj, hu'⟩)

/-- The metadata of a recorded chunk survives writes for other chunks. -/
theorem Tidy.metadataAt_initMetadata (h : Tidy os items) {i : Item} {s t : Slot} {c d : Nat}
    (hi : i ∈ items) (hd : i.units = (s.kind.units d : Multiset Nat))
    (hc : .recorded t c ∈ items) (hne : i ≠ .recorded t c) (m₀ : Nat) {u : Nat}
    (hu : u ∈ t.kind.units c) : (os.initMetadata s m₀ d).metadataAt u = os.metadataAt u := by
  have hd' : ∀ v ∈ s.kind.units d, v ∈ i.units := fun v hv => hd ▸ Multiset.mem_coe.mpr hv
  obtain ⟨r, hr, hunits⟩ := h.inRegion i hi fun hzero => by
    have hself := hd' d (ChunkKind.self_mem_units _ d)
    simp [hzero] at hself
  have haligned := h.aligned r hr.mem_regionsOf
  rw [Os.metadataAt, metadata_initMetadata haligned fun v hv => hunits v (hd' v hv)]
  refine if_neg fun hmem => ?_
  obtain ⟨v, hv, heq⟩ := List.mem_map.mp hmem
  -- the two entries would belong to one unit
  obtain ⟨r', hr', hunits'⟩ := h.inRegion _ hc fun hzero => by
    have hself : u ∈ (Item.recorded t c).units := Multiset.mem_coe.mpr hu
    simp [hzero] at hself
  have haligned' := h.aligned r' hr'.mem_regionsOf
  have hunit := unitOf_eq_of_chunkMetadataPtr_eq heq
  rw [(unit_of_region haligned (hunits v (hd' v hv))).1,
    (unit_of_region haligned' (hunits' u (Multiset.mem_coe.mpr hu))).1] at hunit
  exact h.units_disjoint hi hc hne (hd' v hv) (hunit ▸ Multiset.mem_coe.mpr hu)

/-- An exchange that changes neither metadata nor the recorded chunks. -/
theorem Written.keep (hw : Written os m (gone + rest)) (hmetadata : os'.metadata = os.metadata)
    (hgone : ∀ s c, .unwritten s c ∉ gone)
    (hnew : ∀ s c, .recorded s c ∈ new → .unwritten s c ∈ new) : Written os' m (new + rest) := by
  intro s c hrec hun
  have hrest : .recorded s c ∈ rest := (Multiset.mem_add.mp hrec).resolve_left fun h =>
    hun (Multiset.mem_add.mpr (.inl (hnew s c h)))
  have hun' : .unwritten s c ∉ gone + rest := fun h =>
    (Multiset.mem_add.mp h).elim (hgone s c) fun h => hun (Multiset.mem_add.mpr (.inr h))
  obtain ⟨m₀, hm, hunits⟩ := hw s c (Multiset.mem_add.mpr (.inr hrest)) hun'
  refine ⟨m₀, hm, fun u hu => ?_⟩
  rw [Os.metadataAt, hmetadata]
  exact hunits u hu

theorem written_exchange (rest : Multiset Item) (h : Exchange os m gone new os' m')
    (hcut : os'.NoLargeChunkCut) (hleft : os'.NoChunkLeftUncut) (ht : Tidy os (gone + rest))
    (hw : Written os m (gone + rest)) : Written os' m' (new + rest) := by
  cases h with
  | manage m₀ =>
      intro s c hrec hun
      obtain ⟨m₁, hm, -⟩ := hw s c hrec hun
      cases hm
  | map r hfresh _ hmetadata =>
      intro s c hrec hun
      have hrest : .recorded s c ∈ 0 + rest := by simpa using hrec
      obtain ⟨m₀, hm, hunits⟩ := hw s c hrest fun h => hun (by simpa using h)
      refine ⟨m₀, hm, fun u hu => ?_⟩
      -- the chunk lies in another region than the one that is mapped now
      obtain ⟨r', hr', hunits'⟩ := ht.inRegion _ hrest fun hzero => by
        have hself : u ∈ (Item.recorded s c).units := Multiset.mem_coe.mpr hu
        simp [hzero] at hself
      have haligned' := ht.aligned r' hr'.mem_regionsOf
      have hne : r ≠ r' := by
        rintro rfl
        exact ht.fresh hfresh hr'.mem_regionsOf
      have hbounds := (unit_of_region haligned' (hunits' u (Multiset.mem_coe.mpr hu))).2
      have haligned := hfresh.2.1
      rw [Os.metadataAt, hmetadata]
      refine (if_neg fun hin => hne ?_).trans (hunits u hu)
      simp only [regionSize] at *
      omega
  | record s c =>
      refine hw.keep rfl (by simp) fun t c' hrec => ?_
      rcases mem_cut_items hrec with heq | heq | ⟨p, heq⟩
      · cases heq
        simp
      · cases heq
      · cases heq
  | @write m₀ s c p hkind hle hlt =>
      have hrecorded : .recorded s c ∈ {.unwritten s c} + rest := ht.unwritten s c (by simp)
      obtain ⟨r, hr, hunits⟩ := ht.inRegion _ hrecorded fun hzero => by
        have hself : c ∈ (Item.recorded s c).units := Multiset.mem_coe.mpr (s.kind.self_mem_units c)
        simp [hzero] at hself
      have hself := hunits c (Multiset.mem_coe.mpr (s.kind.self_mem_units c))
      have hunit := (unit_of_region (ht.aligned r hr.mem_regionsOf) hself).1
      have hsame : os.initMetadata s m₀ p = os.initMetadata s m₀ c := by
        have hp : unitOf p = c := unitOf_of_lt (by
          rw [← hunit, unitOf]
          exact Nat.mul_mod_left _ _) hle hlt
        have hptr := chunkMetadataPtr_unitOf p
        rw [hp] at hptr
        cases s with
        | common idx => simp only [Os.initMetadata, Os.initMetadataForCommonChunk, hptr]
        | large idx => cases hkind
      rw [hsame]
      intro t d hrec hun
      by_cases heq : Item.recorded s c = .recorded t d
      · obtain ⟨rfl, rfl⟩ := Item.recorded.inj heq
        refine ⟨m₀, rfl, fun u hu => ?_⟩
        rw [Os.metadataAt, metadata_initMetadata (ht.aligned r hr.mem_regionsOf)
          fun v hv => hunits v (Multiset.mem_coe.mpr hv)]
        exact if_pos (List.mem_map.mpr ⟨u, hu, rfl⟩)
      · have hold : .recorded t d ∈ {.unwritten s c} + rest := by simpa using hrec
        obtain ⟨m₁, hm, hmeta⟩ := hw t d hold (by
          intro hun'
          rcases Multiset.mem_add.mp hun' with h | h
          · obtain ⟨rfl, rfl⟩ : t = s ∧ d = c := by simpa using h
            exact heq rfl
          · exact hun (by simpa using h))
        refine ⟨m₁, hm, fun u hu => ?_⟩
        rw [ht.metadataAt_initMetadata hrecorded rfl hold heq m₀ hu]
        exact hmeta u hu
  | writeLarge s c p _ hlog _ => exact absurd hlog (hcut c)
  | leaveUncut s c hlog => exact absurd hlog (hleft c)
  | @commit m₀ s u hslot =>
      have hmem : .cutting s.kind u ∈ {.cutting s.kind u} + rest := by simp
      obtain ⟨r, hr, hunits⟩ := ht.inRegion _ hmem fun hzero => by
        have hself : u.ptr ∈ (Item.cutting s.kind u).units :=
          Multiset.mem_coe.mpr (s.kind.self_mem_units u.ptr)
        simp [hzero] at hself
      intro t d hrec hun
      by_cases heq : t = s ∧ d = u.ptr
      · obtain ⟨rfl, rfl⟩ := heq
        refine ⟨m₀, rfl, fun v hv => ?_⟩
        rw [Os.metadataAt, metadata_initMetadata (ht.aligned r hr.mem_regionsOf)
          fun v hv => hunits v (Multiset.mem_coe.mpr hv)]
        exact if_pos (List.mem_map.mpr ⟨v, hv, rfl⟩)
      · have hold : .recorded t d ∈ {.cutting s.kind u} + rest := by
          rcases Multiset.mem_add.mp hrec with h | h
          · rcases Multiset.mem_add.mp h with h | h
            · obtain ⟨rfl, rfl⟩ := Item.recorded.inj (Multiset.mem_singleton.mp h)
              exact absurd ⟨rfl, rfl⟩ heq
            · obtain ⟨p, -, hp⟩ := mem_itemAll.mp h
              cases hp
          · exact Multiset.mem_add.mpr (.inr h)
        obtain ⟨m₁, hm, hmeta⟩ := hw t d hold (by
          intro hun'
          have hrest : .unwritten t d ∈ rest := by simpa using hun'
          exact hun (Multiset.mem_add.mpr (.inr hrest)))
        refine ⟨m₁, hm, fun v hv => ?_⟩
        rw [ht.metadataAt_initMetadata hmem rfl hold (by simp) m₀ hv]
        exact hmeta v hv
  | parse r =>
      refine hw.keep rfl (by simp) fun s c hrec => ?_
      rcases Multiset.mem_add.mp hrec with h | h
      · simp at h
      · obtain ⟨k, c', heq⟩ := mem_regionChunks h
        cases heq
  | split c =>
      refine hw.keep rfl (by simp) fun s c' hrec => ?_
      obtain ⟨p, -, heq⟩ := mem_itemAll.mp hrec
      cases heq
  | quiet h => exact hw.keep h.metadata (by simp) (by simp)
  | mapExtra size p _ hmetadata => exact hw.keep hmetadata (by simp) (by simp)
  | unmapExtra size p _ hmetadata => exact hw.keep hmetadata (by simp) (by simp)
  | releaseLast k c n => exact hw.keep (os.metadata_deallocRegion _) (by simp) (by simp)
  | _ => exact hw.keep rfl (by simp) (by simp)

theorem ownManager_exchange (h : Exchange os m gone new os' m') (ho : OwnManager os m) :
    OwnManager os' m' := by
  have hinit : ∀ (s : Slot) (m₀ p : Nat), OwnManager os (some m₀) →
      OwnManager (os.initMetadata s m₀ p) (some m₀) := fun s m₀ p ho a => by
    rcases Os.manager_initMetadata s m₀ p os a with h | h
    · exact .inr (congrArg some h.symm)
    · rw [h]
      exact ho a
  cases h with
  | quiet h => exact fun a => h.metadata ▸ ho a
  | manage m₀ => exact fun a => .inl ((ho a).resolve_right (by simp))
  | map r _ _ hmetadata =>
      intro a
      rw [hmetadata]
      by_cases hin : r ≤ a ∧ a < r + regionSize
      · exact .inl (congrArg _ (if_pos hin))
      · rw [show (os.zeroMetadata r).metadata a = os.metadata a from if_neg hin]
        exact ho a
  | write s c p => exact hinit s _ p ho
  | writeLarge s c p _ _ hquiet => exact fun a => hquiet.metadata ▸ hinit s _ p ho a
  | commit s u => exact hinit s _ u.ptr ho
  | mapExtra size p _ hmetadata => exact fun a => hmetadata ▸ ho a
  | unmapExtra size p _ hmetadata => exact fun a => hmetadata ▸ ho a
  | releaseLast k c n =>
      intro a
      rw [os.metadata_deallocRegion]
      exact ho a
  | _ => exact ho

end Ledger

theorem Moves.ownManager {e e' : Estate} (h : Moves e e') (ho : OwnManager e.os e.manager) :
    OwnManager e'.os e'.manager :=
  h.invariant (J := fun os m _ => OwnManager os m) (fun _ => ownManager_exchange) ho

end Memalart
