/-
# Giving unused memory back

`free_unused_memory` takes every free chunk from the two vectors and takes its units off the
counter of its region; a region whose counter comes to zero is unmapped.  The counters, the
mappings and the bytes that are counted afterwards are determined by what was free before.
-/

import Memalart.Occupancy

namespace Memalart

open Memalart.Lib ThreadLocalAllocator

variable {P : Params} {w w₁ w' : World P} {k : ChunkKind} {c r n : Nat} {rest : List Nat}

/-- The free chunks of a kind, in the order in which they are popped. -/
def World.freeChunks (w : World P) : ChunkKind → List Nat
  | .common => w.inner.freeCommonChunks.elems
  | .large => w.inner.freeLargeChunks.elems

/-- The units of a region that are in free chunks. -/
def World.unitsFree (w : World P) (r : Nat) : Nat :=
  ((w.freeChunks .common).countP fun c => regionPtrFromChunkPtr c = r) +
    commonChunksInLargeChunk * (w.freeChunks .large).countP fun c => regionPtrFromChunkPtr c = r

/-- The two vectors of free chunks and the list of the regions keep their buffers, and nothing
else of the allocator changes. -/
structure OnlyFrees (w w' : World P) : Prop where
  eq : w' = { w with
    inner := { w.inner with
      freeLargeChunks := w'.inner.freeLargeChunks
      freeCommonChunks := w'.inner.freeCommonChunks
      regions := w'.inner.regions }
    os := w'.os }
  buffers : ∀ v, (w'.vec v).ptr = (w.vec v).ptr ∧ (w'.vec v).cap = (w.vec v).cap
  limit : w'.os.limit = w.os.limit
  metadata : w'.os.metadata = w.os.metadata
  replies : w'.os.replies = w.os.replies

namespace OnlyFrees

theorem refl (w : World P) : OnlyFrees w w := ⟨rfl, fun _ => ⟨rfl, rfl⟩, rfl, rfl, rfl⟩

theorem trans (h : OnlyFrees w w₁) (h' : OnlyFrees w₁ w') : OnlyFrees w w' where
  eq := by
    rw [h'.eq, h.eq]
  buffers v := ⟨(h'.buffers v).1.trans (h.buffers v).1, (h'.buffers v).2.trans (h.buffers v).2⟩
  limit := h'.limit.trans h.limit
  metadata := h'.metadata.trans h.metadata
  replies := h'.replies.trans h.replies

end OnlyFrees

/-! ## Popping a chunk -/

/-- A chunk is popped, and everything else stays. -/
structure Pops (k : ChunkKind) (w : World P) (c : Nat) (w' : World P) : Prop where
  only : OnlyFrees w w'
  cons : w.freeChunks k = c :: w'.freeChunks k
  other : ∀ k', k' ≠ k → w'.freeChunks k' = w.freeChunks k'
  regions : w'.inner.regions = w.inner.regions
  os : w'.os = w.os

theorem popChunk_cons (h : w.freeChunks k = c :: rest) :
    ∃ w', popChunk k w = (some c, w') ∧ Pops k w c w' := by
  cases k with
  | common =>
      cases hpop : w.inner.freeCommonChunks.pop with
      | none =>
          rw [World.freeChunks, SelfAllocatedVec.pop_eq_none.mp hpop] at h
          cases h
      | some popped =>
          obtain ⟨x, vec⟩ := popped
          obtain ⟨helems, hcap, hptr⟩ := SelfAllocatedVec.pop_eq_some hpop
          rw [World.freeChunks, helems] at h
          obtain ⟨rfl, -⟩ := List.cons.inj h
          refine ⟨w.setVec .freeCommonChunks vec, by simp only [popChunk, hpop],
            ⟨rfl, fun v => ?_, rfl, rfl, rfl⟩, helems, ?_, rfl, rfl⟩
          · cases v with
            | freeCommonChunks => exact ⟨hptr, hcap⟩
            | _ => exact ⟨rfl, rfl⟩
          · intro k' hk'
            cases k' with
            | common => exact absurd rfl hk'
            | large => rfl
  | large =>
      cases hpop : w.inner.freeLargeChunks.pop with
      | none =>
          rw [World.freeChunks, SelfAllocatedVec.pop_eq_none.mp hpop] at h
          cases h
      | some popped =>
          obtain ⟨x, vec⟩ := popped
          obtain ⟨helems, hcap, hptr⟩ := SelfAllocatedVec.pop_eq_some hpop
          rw [World.freeChunks, helems] at h
          obtain ⟨rfl, -⟩ := List.cons.inj h
          refine ⟨w.setVec .freeLargeChunks vec, by simp only [popChunk, hpop],
            ⟨rfl, fun v => ?_, rfl, rfl, rfl⟩, helems, ?_, rfl, rfl⟩
          · cases v with
            | freeLargeChunks => exact ⟨hptr, hcap⟩
            | _ => exact ⟨rfl, rfl⟩
          · intro k' hk'
            cases k' with
            | large => exact absurd rfl hk'
            | common => rfl

theorem popChunk_nil (h : w.freeChunks k = []) : popChunk k w = (none, w) := by
  cases k with
  | common => simp only [popChunk, SelfAllocatedVec.pop_eq_none.mpr h]
  | large => simp only [popChunk, SelfAllocatedVec.pop_eq_none.mpr h]

/-- What the popped chunk takes off the units that are free. -/
theorem Pops.unitsFree (h : Pops k w c w') (r : Nat) :
    w.unitsFree r = (if regionPtrFromChunkPtr c = r then k.numberOfUnits else 0) + w'.unitsFree r := by
  have hcons := h.cons
  cases k with
  | common =>
      have hother := h.other .large (by simp)
      simp only [World.unitsFree, hcons, hother, List.countP_cons, decide_eq_true_eq,
        ChunkKind.numberOfUnits]
      split <;> omega
  | large =>
      have hother := h.other .common (by simp)
      simp only [World.unitsFree, hcons, hother, List.countP_cons, decide_eq_true_eq,
        ChunkKind.numberOfUnits]
      split
      · rw [Nat.mul_succ]
        omega
      · rw [Nat.add_zero, Nat.zero_add]

/-! ## What has been given back -/

/-- Some units of each region have been given back, and these regions have been unmapped. -/
structure Trimmed (freed : Nat → Nat) (released : List Nat) (w w' : World P) : Prop where
  only : OnlyFrees w w'
  units : ∀ r, w.unitsFree r = freed r + w'.unitsFree r
  /-- A region stays in the list unless its last units are given back. -/
  regions : ∀ r n, ⟨r, n⟩ ∈ w'.inner.regions.elems ↔
    ⟨r, freed r + n⟩ ∈ w.inner.regions.elems ∧ (n = 0 → freed r = 0)
  /-- Otherwise it is unmapped, once. -/
  nodup : released.Nodup
  mem_released : ∀ r, r ∈ released ↔ ⟨r, freed r⟩ ∈ w.inner.regions.elems ∧ freed r ≠ 0
  mappings : w.os.mappings.Perm ((released.map fun r => (r, regionSize)) ++ w'.os.mappings)
  allocated : (w'.os.allocated + released.length * regionSize) % usizeRange =
    w.os.allocated % usizeRange

/-- Each region has one counter, and each free chunk is of a region with a counter. -/
structure Counted (w : World P) : Prop where
  unique : ∀ r m n, ⟨r, m⟩ ∈ w.inner.regions.elems → ⟨r, n⟩ ∈ w.inner.regions.elems → m = n
  listed : ∀ r, w.unitsFree r ≠ 0 → ∃ n, ⟨r, n⟩ ∈ w.inner.regions.elems

namespace Trimmed

variable {freed freed' : Nat → Nat} {released released' : List Nat}

theorem refl (w : World P) : Trimmed (fun _ => 0) [] w w where
  only := .refl w
  units _ := (Nat.zero_add _).symm
  regions r n := by simp
  nodup := .nil
  mem_released r := by simp
  mappings := .refl _
  allocated := by simp

/-- A region that has been unmapped has no counter any more. -/
theorem not_mem_of_released (h : Trimmed freed released w w₁) (hw : Counted w)
    (hr : r ∈ released) (n : Nat) : ⟨r, n⟩ ∉ w₁.inner.regions.elems := by
  intro hn
  obtain ⟨hlast, hne⟩ := (h.mem_released r).1 hr
  obtain ⟨hn, hzero⟩ := (h.regions r n).1 hn
  have heq := hw.unique r _ _ hlast hn
  exact hne (hzero (by omega))

theorem trans (h : Trimmed freed released w w₁) (h' : Trimmed freed' released' w₁ w')
    (hw : Counted w) (hw₁ : Counted w₁) :
    Trimmed (fun r => freed r + freed' r) (released ++ released') w w' where
  only := h.only.trans h'.only
  units r := by rw [h.units r, h'.units r, Nat.add_assoc]
  regions r n := by
    rw [h'.regions, h.regions, ← Nat.add_assoc]
    constructor
    · rintro ⟨⟨hmem, hfirst⟩, hsecond⟩
      exact ⟨hmem, fun hn => by have := hsecond hn; have := hfirst (by omega); omega⟩
    · rintro ⟨hmem, hboth⟩
      exact ⟨⟨hmem, fun hn => by have := hboth (by omega); omega⟩,
        fun hn => by have := hboth hn; omega⟩
  nodup := by
    refine List.nodup_append.2 ⟨h.nodup, h'.nodup, ?_⟩
    rintro r hr _ hr' rfl
    exact h.not_mem_of_released hw hr _ ((h'.mem_released r).1 hr').1
  mem_released r := by
    rw [List.mem_append, h'.mem_released]
    constructor
    · rintro (hr | ⟨hr, hne⟩)
      · have hzero : freed' r = 0 := by
          by_contra hne
          have hunits := h'.units r
          obtain ⟨n, hn⟩ := hw₁.listed r (by omega)
          exact h.not_mem_of_released hw hr n hn
        obtain ⟨hmem, hne⟩ := (h.mem_released r).1 hr
        rw [hzero, Nat.add_zero]
        exact ⟨hmem, hne⟩
      · exact ⟨((h.regions r _).1 hr).1, by omega⟩
    · rintro ⟨hmem, hne⟩
      by_cases hzero : freed' r = 0
      · rw [hzero, Nat.add_zero] at hmem hne
        exact .inl ((h.mem_released r).2 ⟨hmem, hne⟩)
      · exact .inr ⟨(h.regions r _).2 ⟨hmem, fun hn => absurd hn hzero⟩, hzero⟩
  mappings := by
    rw [List.map_append, List.append_assoc]
    exact h.mappings.trans (h'.mappings.append_left _)
  allocated := by
    have hfirst := h.allocated
    have hsecond := h'.allocated
    rw [List.length_append, Nat.add_mul]
    rw [← hfirst, Nat.add_comm (released.length * regionSize), ← Nat.add_assoc, Nat.add_mod, hsecond,
      ← Nat.add_mod]

end Trimmed

/-! ## One chunk -/

/-- The region of a unit that something has is in the list. -/
theorem AtHand.exists_region {hand : Multiset Item} (h : AtHand w hand) {i : Item}
    (hi : i ∈ w.holdings) {u : Nat} (hu : u ∈ i.units) :
    ∃ n, ⟨regionPtrFromChunkPtr u, n⟩ ∈ w.inner.regions.elems := by
  have hunit : u ∈ unitsOf (w.holdings + hand) :=
    mem_unitsOf.2 ⟨i, Multiset.mem_add.2 (.inl hi), hu⟩
  have hview : ∀ i ∈ w.holdings + hand, i.regions = {regionPtrFromChunkPtr u} →
      ∃ view ∈ w.inner.regions.elems, i = viewItem view := fun i hi hregions => by
    have hne : i.regions ≠ 0 := by simp [hregions]
    rcases Multiset.mem_add.1 hi with hi | hi
    · exact view_of_regions h.states hi hne
    · exact absurd (h.regions i hi) hne
  rcases (h.tidy.parsed_of_unit hunit).1 with hparsed | ⟨n, hparsed⟩
  · obtain ⟨view, -, heq⟩ := hview _ hparsed rfl
    cases heq
  · obtain ⟨view, hmem, heq⟩ := hview _ hparsed rfl
    obtain ⟨hptr, hcount⟩ := Item.view.inj heq
    refine ⟨n, ?_⟩
    rw [hptr, hcount]
    exact hmem

theorem AtHand.counted {hand : Multiset Item} (h : AtHand w hand) : Counted w where
  unique r m n hm hn := by
    have heq := List.inj_on_of_nodup_map h.nodup_ptrs hm hn rfl
    exact congrArg RegionView.numberOfCommonChunksOccupied heq
  listed r hr := by
    obtain ⟨k, c, hc, hcr⟩ : ∃ k, ∃ c ∈ w.freeChunks k, regionPtrFromChunkPtr c = r := by
      by_contra hnone
      push Not at hnone
      refine hr ?_
      have hzero : ∀ k, (w.freeChunks k).countP (fun c => regionPtrFromChunkPtr c = r) = 0 :=
        fun k => List.countP_eq_zero.2 fun c hc => by simpa using hnone k c hc
      rw [World.unitsFree, hzero, hzero, Nat.mul_zero]
    have hitem : .chunk k c ∈ w.holdings := by
      cases k with
      | common => exact mem_holdings_of_contents (v := .freeCommonChunks) (mem_itemAll.2 ⟨c, hc, rfl⟩)
      | large => exact mem_holdings_of_contents (v := .freeLargeChunks) (mem_itemAll.2 ⟨c, hc, rfl⟩)
    rw [← hcr]
    exact h.exists_region hitem (Multiset.mem_coe.2 (k.self_mem_units c))

theorem Os.limit_deallocRegion (os : Os) (region : Nat) :
    (os.deallocRegion region).limit = os.limit := by
  rw [Os.deallocRegion, Os.markDeallocated, Os.limit_access, Os.munmap]

theorem Os.replies_deallocRegion (os : Os) (region : Nat) :
    (os.deallocRegion region).replies = os.replies := by
  rw [Os.deallocRegion, Os.markDeallocated, Os.replies_access, Os.munmap]

theorem onlyFrees_freeChunk (h : (freeChunk k c).Returns w () w') : OnlyFrees w w' := by
  obtain ⟨views, empty, hle, -, rfl⟩ := returns_freeChunk h
  refine ⟨rfl, fun v => ?_, ?_, ?_, ?_⟩
  · cases v <;> exact ⟨rfl, rfl⟩
  · cases empty with
    | false => rfl
    | true => exact Os.limit_deallocRegion _ _
  · cases empty with
    | false => rfl
    | true => exact Os.metadata_deallocRegion _ _
  · cases empty with
    | false => rfl
    | true => exact Os.replies_deallocRegion _ _

theorem freeChunks_freeChunk (h : (freeChunk k c).Returns w () w') (k' : ChunkKind) :
    w'.freeChunks k' = w.freeChunks k' := by
  obtain ⟨views, empty, hle, -, rfl⟩ := returns_freeChunk h
  cases k' <;> rfl

/-- A region that was mapped, and the bytes that are counted once it is unmapped. -/
theorem Os.allocated_deallocRegion (os : Os) (region : Nat) :
    ((os.deallocRegion region).allocated + regionSize) % usizeRange = os.allocated % usizeRange := by
  have hle : regionSize ≤ usizeRange := by decide
  rw [Os.deallocRegion, Os.markDeallocated, Os.allocated_access, Os.munmap]
  rw [Nat.mod_add_mod, Nat.add_assoc, Nat.sub_add_cancel hle, Nat.add_mod_right]

/-- A chunk that was popped is given back. -/
theorem Pops.trimmed {hand : Multiset Item} (hpop : Pops k w c w₁) (h : AtHand w₁ hand)
    (hc : .chunk k c ∈ hand) : ∃ (w' : World P) (released : List Nat),
      (freeChunk k c).Returns w₁ () w' ∧
        Trimmed (fun r => if regionPtrFromChunkPtr c = r then k.numberOfUnits else 0) released w w' := by
  obtain ⟨view, hview, hptr, hcover, hmapped, w', hreturns, -⟩ := h.givesBack hc
  have honly := hpop.only.trans (onlyFrees_freeChunk hreturns)
  obtain ⟨views, empty, hle, hrelease, rfl⟩ := returns_freeChunk hreturns
  obtain ⟨n, others, hviews, hcase⟩ := releaseUnits_spec hrelease
  rw [Multiset.coe_reverse] at hviews
  generalize hregion : regionPtrFromChunkPtr c = region at *
  generalize hw' : (w₁.setVec .regions (w₁.inner.regions.replaceElems views.reverse hle)).setOs
    (if empty then (w₁.os.record (.chunkGivenBack c)).deallocRegion region
      else w₁.os.record (.chunkGivenBack c)) = w' at *
  have hpositive : 0 < k.numberOfUnits := by cases k <;> decide
  -- the one counter of the region
  have hothers : ∀ m, (⟨region, m⟩ : RegionView) ∉ others := fun m hm => by
    have hnodup := Multiset.coe_nodup.mpr h.nodup_ptrs
    rw [← Multiset.map_coe, hviews, Multiset.map_add, Multiset.map_singleton,
      Multiset.singleton_add, Multiset.nodup_cons] at hnodup
    exact hnodup.1 (Multiset.mem_map.mpr ⟨_, hm, rfl⟩)
  have hmem : ∀ r m, ⟨r, m⟩ ∈ w.inner.regions.elems ↔ r = region ∧ m = n ∨ ⟨r, m⟩ ∈ others := by
    intro r m
    rw [← hpop.regions, ← Multiset.mem_coe, hviews, Multiset.mem_add, Multiset.mem_singleton,
      RegionView.mk.injEq]
  obtain ⟨rfl, rfl⟩ : view.ptr = region ∧ view.numberOfCommonChunksOccupied = n := by
    rcases (hmem view.ptr view.numberOfCommonChunksOccupied).1 (hpop.regions ▸ hview) with heq | hin
    · exact heq
    · exact absurd (hptr ▸ hin) (hothers _)
  have hunits : k.numberOfUnits ≤ view.numberOfCommonChunksOccupied :=
    (Nat.le_add_left _ _).trans hcover
  have hcount : (view.numberOfCommonChunksOccupied + (usizeRange - k.numberOfUnits)) % usizeRange =
      view.numberOfCommonChunksOccupied - k.numberOfUnits := by
    have hmax : view.numberOfCommonChunksOccupied ≤ 511 := (h.occupied hview).1
    simp only [usizeRange]
    omega
  rw [hcount] at hcase
  have helems : w'.inner.regions.elems = views.reverse := by
    rw [← hw']
    rfl
  have hmem' : ∀ r m, ⟨r, m⟩ ∈ w'.inner.regions.elems ↔
      r = view.ptr ∧ m + k.numberOfUnits = view.numberOfCommonChunksOccupied ∧ m ≠ 0 ∨
        ⟨r, m⟩ ∈ others := by
    intro r m
    rw [helems, List.mem_reverse, ← Multiset.mem_coe]
    rcases hcase with ⟨-, hzero, hviews'⟩ | ⟨-, hne, hviews'⟩
    · rw [hviews']
      exact ⟨.inr, Or.rec (fun hm => absurd hm.2.1 (by omega)) id⟩
    · rw [hviews', Multiset.mem_add, Multiset.mem_singleton, RegionView.mk.injEq]
      refine or_congr_left (and_congr_right fun _ => ?_)
      omega
  have hempty : empty = true ↔ view.numberOfCommonChunksOccupied = k.numberOfUnits := by
    rcases hcase with ⟨rfl, hzero, -⟩ | ⟨rfl, hne, -⟩
    · exact iff_of_true rfl (by omega)
    · exact iff_of_false Bool.false_ne_true (by omega)
  refine ⟨w', if empty then [view.ptr] else [], hreturns, honly, fun r => ?_, fun r m => ?_, ?_,
    fun r => ?_, ?_, ?_⟩
  · rw [hpop.unitsFree, ← hw', hregion]
    rfl
  · rw [hmem, hmem']
    by_cases hr : r = view.ptr
    · subst hr
      simp only [hothers, if_true, true_and, or_false]
      omega
    · simp [hr, Ne.symm hr]
  · cases empty <;> simp
  · by_cases hr : r = view.ptr
    · subst hr
      rw [hmem, if_pos rfl, or_iff_left (hothers _)]
      cases empty with
      | true => exact iff_of_true (List.mem_singleton_self _) ⟨⟨rfl, (hempty.1 rfl).symm⟩, hpositive.ne'⟩
      | false =>
          refine iff_of_false List.not_mem_nil fun hlast => ?_
          exact Bool.false_ne_true (hempty.2 hlast.1.2.symm)
    · rw [if_neg (Ne.symm hr)]
      refine iff_of_false ?_ fun hlast => hlast.2 rfl
      cases empty <;> simp [hr]
  · have hmappings : w'.os.mappings =
        if empty then w.os.mappings.erase (view.ptr, regionSize) else w.os.mappings := by
      rw [← hw', ← hpop.os]
      cases empty <;> rfl
    rw [hmappings]
    cases empty with
    | true => exact List.perm_cons_erase (hpop.os ▸ hmapped)
    | false => exact .refl _
  · cases empty with
    | true =>
        rw [if_pos rfl, List.length_singleton, Nat.one_mul, ← hw', ← hpop.os]
        exact Os.allocated_deallocRegion _ _
    | false =>
        rw [if_neg Bool.false_ne_true, List.length_nil, Nat.zero_mul, Nat.add_zero, ← hw', ← hpop.os]
        rfl

/-! ## The loops -/

open Session in
/-- A round of a loop that finds a chunk. -/
theorem freeNext_cons {calls : List Call} {s : Session P} (h : Reached calls s)
    (hchunks : s.world.freeChunks k = c :: rest) : ∃ (w' : World P) (released : List Nat),
      (freeNext k).Returns s.world true w' ∧ Reached (calls ++ [.trimmed k]) ⟨w', s.live⟩ ∧
        w'.freeChunks k = rest ∧ (∀ k', k' ≠ k → w'.freeChunks k' = s.world.freeChunks k') ∧
        Trimmed (fun r => if regionPtrFromChunkPtr c = r then k.numberOfUnits else 0) released
          s.world w' := by
  obtain ⟨w₁, hpop, hpops⟩ := popChunk_cons hchunks
  have hget : (tryGetChunk k).Returns s.world (some c) w₁ := congrArg Except.ok hpop
  obtain ⟨hand, hat, hc⟩ := (InHand.unused hget).atHand h
  obtain ⟨w', released, hfree, htrimmed⟩ := hpops.trimmed hat hc
  have hnext : (freeNext k).Returns s.world true w' := by
    rw [freeNext, Machine.returns_bind]
    refine ⟨_, _, hget, ?_⟩
    rw [Machine.returns_bind]
    exact ⟨_, _, hfree, Machine.returns_pure.2 ⟨rfl, rfl⟩⟩
  refine ⟨w', released, hnext, h.step (.trimmed k hnext), ?_, ?_, htrimmed⟩
  · rw [freeChunks_freeChunk hfree]
    exact (List.cons.inj (hpops.cons.symm.trans hchunks)).2
  · intro k' hk'
    rw [freeChunks_freeChunk hfree, hpops.other k' hk']

open Session in
/-- One of the loops empties its vector. -/
theorem returns_freeUnused (k : ChunkKind) {calls : List Call} {s : Session P} (h : Reached calls s)
    {fuel : Nat} (hfuel : (s.world.freeChunks k).length < fuel) :
    ∃ (w' : World P) (freed : Nat → Nat) (released : List Nat) (more : List Call),
      (freeUnused k fuel).Returns s.world () w' ∧ Reached (calls ++ more) ⟨w', s.live⟩ ∧
        w'.freeChunks k = [] ∧ (∀ k', k' ≠ k → w'.freeChunks k' = s.world.freeChunks k') ∧
        Trimmed freed released s.world w' := by
  generalize hchunks : s.world.freeChunks k = chunks at hfuel
  induction chunks generalizing calls s fuel with
  | nil =>
      obtain ⟨fuel, rfl⟩ := Nat.exists_eq_succ_of_ne_zero hfuel.ne'
      refine ⟨s.world, _, [], [], ?_, by rwa [List.append_nil], hchunks, fun _ _ => rfl, .refl _⟩
      rw [freeUnused, Machine.returns_bind]
      refine ⟨false, s.world, ?_, Machine.returns_pure.2 ⟨rfl, rfl⟩⟩
      rw [freeNext, Machine.returns_bind]
      exact ⟨none, s.world, congrArg Except.ok (popChunk_nil hchunks), Machine.returns_pure.2 ⟨rfl, rfl⟩⟩
  | cons c rest ih =>
      obtain ⟨fuel, rfl⟩ := Nat.exists_eq_succ_of_ne_zero (Nat.ne_zero_of_lt hfuel)
      obtain ⟨w₁, released, hnext, hreached, hrest, hother, htrimmed⟩ := freeNext_cons h hchunks
      obtain ⟨w', freed, released', more, hloop, hreached', hnil, hother', htrimmed'⟩ :=
        ih hreached hrest (Nat.lt_of_succ_lt_succ hfuel)
      refine ⟨w', _, released ++ released', [.trimmed k] ++ more, ?_, ?_, hnil, ?_,
        htrimmed.trans htrimmed' (atHand_of_reached h).counted (atHand_of_reached hreached).counted⟩
      · rw [freeUnused, Machine.returns_bind]
        exact ⟨true, w₁, hnext, hloop⟩
      · rw [← List.append_assoc]
        exact hreached'
      · exact fun k' hk' => (hother' k' hk').trans (hother k' hk')

open Session in
/-- In every state that a session reaches, `free_unused_memory` ends and leaves no free chunk.
Each counter is then lower by the units of the region that were free; exactly the regions of
which nothing else was counted are unmapped, each once, and their bytes taken off the counter
behind the limit.  The regions of the chunks in use stay, and nothing else is touched. -/
theorem freeUnusedMemory_of_reached {calls : List Call} {s : Session P} (h : Reached calls s)
    {fuel : Nat} (hfuel : ∀ k, (s.world.freeChunks k).length < fuel) :
    ∃ (w' : World P) (released : List Nat) (more : List Call),
      (freeUnusedMemory fuel).Returns s.world () w' ∧ Reached (calls ++ more) ⟨w', s.live⟩ ∧
        (∀ k, w'.freeChunks k = []) ∧ Trimmed s.world.unitsFree released s.world w' ∧
        ∀ slot, ∀ c ∈ (s.world.inner.chunkTable slot).elems,
          regionPtrFromChunkPtr c ∉ released ∧
            (regionPtrFromChunkPtr c, regionSize) ∈ w'.os.mappings := by
  obtain ⟨w₁, freed, released, more, hcommon, hreached, hnil, hother, htrimmed⟩ :=
    returns_freeUnused .common h (hfuel .common)
  have hfuel' : (w₁.freeChunks .large).length < fuel := by
    rw [hother .large (by simp)]
    exact hfuel .large
  obtain ⟨w', freed', released', more', hlarge, hreached', hnil', hother', htrimmed'⟩ :=
    returns_freeUnused .large hreached hfuel'
  have hat := atHand_of_reached hreached'
  have hempty : ∀ k, w'.freeChunks k = [] := fun k => by
    cases k with
    | common => exact (hother' .common (by simp)).trans hnil
    | large => exact hnil'
  have hall := htrimmed.trans htrimmed' (atHand_of_reached h).counted
    (atHand_of_reached hreached).counted
  have hfreed : (fun r => freed r + freed' r) = s.world.unitsFree := by
    funext r
    have hunits := hall.units r
    have hzero : w'.unitsFree r = 0 := by simp [World.unitsFree, hempty]
    omega
  rw [hfreed] at hall
  refine ⟨w', released ++ released', more ++ more', ?_, ?_, hempty, hall, fun slot c hc => ?_⟩
  · rw [freeUnusedMemory, Machine.returns_bind]
    exact ⟨(), w₁, hcommon, hlarge⟩
  · rw [← List.append_assoc]
    exact hreached'
  · have hitem : .recorded slot c ∈ w'.holdings := by
      have htable : w'.inner.chunkTable = s.world.inner.chunkTable := by rw [hall.only.eq]
      refine mem_holdings_of_contents (v := .chunk slot) (mem_itemAll.2 ⟨c, ?_, rfl⟩)
      show c ∈ (w'.inner.chunkTable slot).elems
      rw [htable]
      exact hc
    obtain ⟨n, hn⟩ := hat.exists_region hitem (Multiset.mem_coe.2 (slot.kind.self_mem_units c))
    refine ⟨fun hreleased => ?_, hat.mapped hn⟩
    exact hall.not_mem_of_released (atHand_of_reached h).counted hreleased n hn

open Session in
/-- After the first allocation six common chunks and 55 large ones are free, and all of them are
given back. -/
theorem freeUnusedMemory_first : ∃ (calls : List Call) (s : Session lockFreeParams)
    (w' : World lockFreeParams), Reached calls s ∧ (s.world.freeChunks .common).length = 6 ∧
      (s.world.freeChunks .large).length = 55 ∧ (freeUnusedMemory 56).Returns s.world () w' ∧
        ∀ k, w'.freeChunks k = [] := by
  have hrun : trial 4 (fun _ s => (s.world.freeChunks .common).length = 6 &&
      (s.world.freeChunks .large).length = 55) [.tryAlloc 24] [] freshAllocator = true := by
    decide +kernel
  obtain ⟨calls, s, hreached, hcheck⟩ := reached_of_trial (reached_initial [⟨0, 134217728⟩]) hrun
  simp only [Bool.and_eq_true, decide_eq_true_eq] at hcheck
  obtain ⟨hcommon, hlarge⟩ := hcheck
  have hfuel : ∀ k, (s.world.freeChunks k).length < 56 := fun k => by
    cases k with
    | common => omega
    | large => omega
  obtain ⟨w', -, -, hreturns, -, hnil, -⟩ := freeUnusedMemory_of_reached hreached hfuel
  exact ⟨calls, s, w', hreached, hcommon, hlarge, hreturns, hnil⟩

end Memalart
