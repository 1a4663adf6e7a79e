/-
# What a chain of bootstrap States hands out

Before an allocator has anything of its own, all of its memory comes from a chain of States:
objects, large chunks, and the slots that further States of the chain are written to.  The
chain may be extended on the way, and a State may be written into a slot of another one.
Whatever the order of the calls, no address is handed out twice, nothing reaches the metadata
at the start of a region, and no buffer of a State takes more elements than it has room for.

The regions of the chain are shared out between the States and what has left them; a call
replaces one State by another one that answers for less.
-/

import Memalart.ChainMoves
import Memalart.Lib.Load
import Memalart.Lib.Run

namespace Memalart

open Memalart.Lib

/-! ## The memory of a State -/

/-- A chunk as a range of addresses. -/
def ChunkKind.extent (k : ChunkKind) (chunk : Nat) : Extent := ⟨chunk, k.chunkSize⟩

/-- The part of a used chunk that has not been handed out. -/
def UsedChunk.uncut (u : UsedChunk) : Extent := ⟨u.ptr, u.size * u.numberOfFreeSlots⟩

namespace State

/-- The free chunks of a kind, and what is left of the used ones. -/
def stock (s : State) (k : ChunkKind) : List Extent :=
  (s.free k).map k.extent ++ (s.used k).map UsedChunk.uncut

/-- The slot that the State is written to. -/
def slot (s : State) : List Extent := s.storage.toList.map fun ptr => ⟨ptr, sizeOfState⟩

/-- All memory that a State answers for. -/
def memory (s : State) : List Extent := s.stock .common ++ s.stock .large ++ s.slot

/-- Its region, behind the metadata. -/
def area (s : State) : Extent := ⟨s.regionPtr + commonChunkSize, regionSize - commonChunkSize⟩

/-- No unit is in two lists, and the common chunks are those of one large chunk at most. -/
structure Fits (s : State) : Prop where
  units : ∀ u, s.units.count u ≤ (regionUnits s.regionPtr).count u
  common : s.freeCommonChunks.length ≤ commonChunksInLargeChunk

section Lists

variable (s : State) (k : ChunkKind) (a : Nat)

@[simp] theorem free_setFree (xs : List Nat) : (s.setFree xs k).free k = xs := by cases k <;> rfl

@[simp] theorem setFree_setFree (xs ys : List Nat) :
    (s.setFree xs k).setFree ys k = s.setFree ys k := by cases k <;> rfl

@[simp] theorem setFree_free : s.setFree (s.free k) k = s := by cases k <;> rfl

/-- Other free chunks of a kind. -/
theorem load_memory_setFree (xs : List Nat) :
    load (s.setFree xs k).memory a + load ((s.free k).map k.extent) a =
      load s.memory a + load (xs.map k.extent) a := by
  cases k with
  | common => simp only [memory, stock, slot, setFree, free, used, load_append]; omega
  | large => simp only [memory, stock, slot, setFree, free, used, load_append]; omega

/-- Other used chunks of a kind. -/
theorem load_memory_setUsed (xs : List UsedChunk) :
    load (s.setUsed xs k).memory a + load ((s.used k).map UsedChunk.uncut) a =
      load s.memory a + load (xs.map UsedChunk.uncut) a := by
  cases k with
  | common => simp only [memory, stock, slot, setUsed, free, used, load_append]; omega
  | large => simp only [memory, stock, slot, setUsed, free, used, load_append]; omega

theorem length_free_setUsed (xs : List UsedChunk) :
    (s.setUsed xs k).freeCommonChunks.length = s.freeCommonChunks.length := by cases k <;> rfl

end Lists

/-- The four buffers of a State have room for what they hold. -/
structure WithinBuffers (s : State) : Prop where
  freeCommon : s.freeCommonChunks.length ≤ commonChunksInLargeChunk
  freeLarge : s.freeLargeChunks.length ≤ largeChunksInRegion
  usedCommon : s.usedCommonChunks.length ≤ maxCommonChunksInRegion
  usedLarge : s.usedLargeChunks.length ≤ largeChunksInRegion

/-- A region has no more units than that. -/
theorem Fits.withinBuffers {s : State} (h : s.Fits) : s.WithinBuffers := by
  have hlarge : ∀ chunks : List Nat, (chunkUnits .large chunks).length = 8 * chunks.length := by
    intro chunks
    induction chunks with
    | nil => rfl
    | cons chunk chunks ih =>
        have hsplit : (ChunkKind.large.units chunk).length = 8 := by
          simp only [ChunkKind.units, splitLargeChunkToCommon, List.length_map, List.length_range]
          decide
        rw [chunkUnits_cons, List.length_append, ih, hsplit, List.length_cons]
        omega
  have hlength := (List.subperm_iff_count.mpr h.units).length_le
  have hunits : (regionUnits s.regionPtr).length = 511 := by
    rw [regionUnits, List.length_map, List.length_range]
    decide
  simp only [State.units, List.length_append, hlarge, chunkUnits_common, hunits, List.length_map]
    at hlength
  have hconstants : maxCommonChunksInRegion = 511 ∧ largeChunksInRegion = 63 := by decide
  exact ⟨h.common, by omega, by omega, by omega⟩

end State

/-! ## Replacing one State -/

/-- One State may take the place of another one, when the new extents have left it. -/
structure State.Yields (s s' : State) (new : List Extent) : Prop where
  regionPtr : s'.regionPtr = s.regionPtr
  fits : s.Fits → s'.Fits
  load_le : ∀ a, load new a + load s'.memory a ≤ load s.memory a

namespace State.Yields

variable {s : State} {k : ChunkKind}

/-- A slot of a used chunk. -/
theorem takeSlot {size ptr : Nat} {used : List UsedChunk}
    (h : Memalart.takeSlot size (s.used k) = some (ptr, used)) :
    s.Yields (s.setUsed used k) [⟨ptr, size⟩] where
  regionPtr := s.regionPtr_setUsed used k
  fits hfits := by
    refine ⟨fun u => ?_, by rw [length_free_setUsed]; exact hfits.common⟩
    have hcount := s.count_units_setUsed used k u
    have hunits := hfits.units u
    rw [takeSlot_map_ptr h] at hcount
    rw [s.regionPtr_setUsed]
    omega
  load_le a := by
    have hload := s.load_memory_setUsed k a used
    suffices hsplit : load [⟨ptr, size⟩] a + load (used.map UsedChunk.uncut) a =
        load ((s.used k).map UsedChunk.uncut) a by omega
    clear hload
    generalize s.used k = chunks at h
    induction chunks generalizing ptr used with
    | nil => simp [Memalart.takeSlot] at h
    | cons chunk rest ih =>
        simp only [Memalart.takeSlot] at h
        split at h
        · simp only [Option.map_eq_some_iff, Prod.mk.injEq, Prod.exists] at h
          obtain ⟨ptr', rest', hrest, rfl, rfl⟩ := h
          have hsplit := ih hrest
          simp only [List.map_cons, load_cons, load_nil] at hsplit ⊢
          omega
        · next hcond =>
            obtain ⟨hsize, hfree⟩ : chunk.size = size ∧ chunk.numberOfFreeSlots ≠ 0 := by
              simpa [not_or] using hcond
            cases h
            have hslots := Nat.sub_add_cancel (Nat.pos_of_ne_zero hfree)
            have hcut := load_cut chunk.ptr a
              (size * (chunk.numberOfFreeSlots - 1)) size
            rw [← Nat.mul_succ, Nat.succ_eq_add_one, hslots] at hcut
            subst hsize
            simp only [List.map_cons]
            rw [@load_head chunk.uncut,
              @load_head (UsedChunk.uncut ⟨_, _, chunk.numberOfFreeSlots - 1⟩)]
            simp only [UsedChunk.uncut]
            omega

/-- A free chunk leaves the State. -/
theorem takeChunk (s : State) (k : ChunkKind) (chunk : Nat) :
    (s.setFree (chunk :: s.free k) k).Yields s [k.extent chunk] where
  regionPtr := (s.regionPtr_setFree _ k).symm
  fits hfits := by
    refine ⟨fun u => ?_, ?_⟩
    · have hcount := s.count_units_setFree (chunk :: s.free k) k u
      have hunits := hfits.units u
      rw [chunkUnits_cons, List.count_append] at hcount
      rw [s.regionPtr_setFree] at hunits
      omega
    · refine Nat.le_trans ?_ hfits.common
      cases k with
      | common => exact Nat.le_succ _
      | large => exact Nat.le_refl _
  load_le a := by
    have hload := s.load_memory_setFree k a (chunk :: s.free k)
    simp only [List.map_cons, load_cons, load_nil] at hload ⊢
    omega

/-- What has left the State may be forgotten. -/
theorem forget {s' : State} {new : List Extent} (h : s.Yields s' new) : s.Yields s' [] where
  regionPtr := h.regionPtr
  fits := h.fits
  load_le a := by
    have hload := h.load_le a
    rw [load_nil]
    omega

/-- A free chunk is cut, and its last object leaves the State. -/
theorem cut (s : State) (k : ChunkKind) {size : Nat} (chunk : Nat) (hpos : 0 < size)
    (hle : size ≤ k.chunkSize) :
    (s.setFree (chunk :: s.free k) k).Yields (s.cut k size chunk).2
      [⟨(s.cut k size chunk).1, size⟩] where
  regionPtr := by simp only [State.cut, regionPtr_setUsed, regionPtr_setFree]
  fits hfits := by
    have hs := (takeChunk s k chunk).fits hfits
    refine ⟨fun u => ?_, ?_⟩
    · have hused := s.count_units_setUsed (s.used k ++ [⟨size, chunk, k.chunkSize / size - 1⟩]) k u
      have hfree := s.count_units_setFree (chunk :: s.free k) k u
      have hunits := hfits.units u
      simp only [List.map_append, List.map_cons, List.map_nil, chunkUnits_append, chunkUnits_cons,
        chunkUnits_nil, List.append_nil, List.count_append] at hused hfree
      rw [s.regionPtr_setFree] at hunits
      simp only [State.cut, regionPtr_setUsed]
      omega
    · simp only [State.cut, length_free_setUsed]
      exact hs.common
  load_le a := by
    have hslots : k.chunkSize / size - 1 + 1 = k.chunkSize / size :=
      Nat.sub_add_cancel ((Nat.one_le_div_iff hpos).mpr hle)
    have hused := s.load_memory_setUsed k a (s.used k ++ [⟨size, chunk, k.chunkSize / size - 1⟩])
    have hfree := s.load_memory_setFree k a (chunk :: s.free k)
    have hcut := load_cut chunk a (size * (k.chunkSize / size - 1)) size
    rw [← Nat.mul_succ, Nat.succ_eq_add_one, hslots] at hcut
    have hshort := load_shorten chunk a (Nat.mul_div_le k.chunkSize size)
    rw [hcut] at hshort
    rw [List.map_append, load_append] at hused
    rw [List.map_cons, load_head] at hfree
    simp only [List.map_cons, List.map_nil, UsedChunk.uncut, ChunkKind.extent] at hused hfree
    simp only [State.cut]
    omega

/-- A free large chunk is split into the free common chunks of the State. -/
theorem split (s : State) {chunk first : Nat} {rest : List Nat}
    (hsplit : (splitLargeChunkToCommon chunk).reverse = first :: rest) :
    (s.setFree (chunk :: s.free .large) .large).Yields
      (s.setFree (first :: rest) .common) [] where
  regionPtr := by simp only [regionPtr_setFree]
  fits hfits := by
    refine ⟨fun u => ?_, ?_⟩
    · have hcommon := s.count_units_setFree (first :: rest) .common u
      have hlarge := s.count_units_setFree (chunk :: s.free .large) .large u
      have hunits := hfits.units u
      have hpieces : (first :: rest).count u = (splitLargeChunkToCommon chunk).count u := by
        rw [← hsplit, List.count_reverse]
      rw [chunkUnits_cons, List.count_append] at hlarge
      rw [chunkUnits_common, chunkUnits_common] at hcommon
      rw [s.regionPtr_setFree] at hunits ⊢
      simp only [ChunkKind.units] at hlarge
      omega
    · rw [← hsplit]
      show (splitLargeChunkToCommon chunk).reverse.length ≤ _
      rw [List.length_reverse, splitLargeChunkToCommon, List.length_map, List.length_range]
  load_le a := by
    have hcommon := s.load_memory_setFree .common a (first :: rest)
    have hlarge := s.load_memory_setFree .large a (chunk :: s.free .large)
    have hpieces : load ((first :: rest).map ChunkKind.common.extent) a =
        load [ChunkKind.large.extent chunk] a := by
      have hsum := load_pieces chunk commonChunkSize a commonChunksInLargeChunk
      rw [← hsplit, List.map_reverse, load, List.countP_reverse, splitLargeChunkToCommon,
        List.map_map]
      exact hsum
    rw [List.map_cons, load_head] at hlarge
    rw [load_nil]
    omega

end State.Yields

/-! ## The chain -/

/-- The regions of a chain are shared out between its States and what is out of them. -/
structure Shares (os : Os) (chain : List State) (out : List Extent) : Prop where
  mapped : ∀ s ∈ chain, (s.regionPtr, regionSize) ∈ os.mappings
  aligned : ∀ s ∈ chain, s.regionPtr % regionSize = 0
  nodup : (chain.map State.regionPtr).Nodup
  fits : ∀ s ∈ chain, s.Fits
  load_le : ∀ a, load out a + load (chain.flatMap State.memory) a ≤ load (chain.map State.area) a

/-- The chain with the chunk back in the State that it was taken from. -/
def Taken.putBack (t : Taken) (k : ChunkKind) : List State :=
  t.before ++ t.owner.setFree (t.chunk :: t.owner.free k) k :: t.after

/-- Nothing but the chunk has changed. -/
theorem popFree_putBack {k : ChunkKind} {chain : List State} {t : Taken}
    (h : popFree k chain = some t) : t.putBack k = chain := by
  obtain ⟨s, chunks, rfl, hfree, howner⟩ := popFree_eq_some h
  rw [Taken.putBack, howner, State.free_setFree, State.setFree_setFree, ← hfree,
    State.setFree_free]

/-- A State that is built from a region answers for all of it. -/
theorem State.fits_fromRegion (r : Nat) (first : FirstState) : (State.fromRegion r first).Fits where
  units u := Nat.le_of_eq ((State.unitsExact_fromRegion r first).count_eq u)
  common := by
    show (parseRegion r).commonChunks.reverse.length ≤ _
    rw [List.length_reverse, parseRegion, List.length_map, List.length_range]
    decide

/-- Its chunks lie end to end behind the metadata. -/
theorem State.load_fromRegion (r : Nat) (first : FirstState) (a : Nat) :
    load (State.fromRegion r first).memory a = load [(State.fromRegion r first).area] a := by
  have hcommon := load_pieces (r + commonChunkSize) commonChunkSize a restCommonChunksInRegion
  have hlarge := load_pieces (r + commonChunkSize + restCommonChunksInRegion * commonChunkSize)
    largeChunkSize a largeChunksInRegion
  have hsum : regionSize - commonChunkSize = restCommonChunksInRegion * commonChunkSize +
      largeChunksInRegion * largeChunkSize := by decide
  have hwhole := load_cut (r + commonChunkSize) a
    (restCommonChunksInRegion * commonChunkSize) (largeChunksInRegion * largeChunkSize)
  have hcommonEq : load ((parseRegion r).commonChunks.reverse.map ChunkKind.common.extent) a =
      load ((List.range restCommonChunksInRegion).map fun i =>
        ⟨r + commonChunkSize + i * commonChunkSize, commonChunkSize⟩) a := by
    rw [List.map_reverse, load, List.countP_reverse, parseRegion, List.map_map]
    simp only [Function.comp_def, ChunkKind.extent, ChunkKind.chunkSize, Nat.add_assoc]
    rfl
  have hlargeEq : load ((parseRegion r).largeChunks.reverse.map ChunkKind.large.extent) a =
      load ((List.range largeChunksInRegion).map fun i =>
        ⟨r + commonChunkSize + restCommonChunksInRegion * commonChunkSize + i * largeChunkSize,
          largeChunkSize⟩) a := by
    rw [List.map_reverse, load, List.countP_reverse, parseRegion, List.map_map]
    simp only [Function.comp_def, ChunkKind.extent, ChunkKind.chunkSize, Nat.add_assoc]
    rfl
  have hmemory : load (State.fromRegion r first).memory a =
      load ((parseRegion r).commonChunks.reverse.map ChunkKind.common.extent) a +
        load ((parseRegion r).largeChunks.reverse.map ChunkKind.large.extent) a := by
    simp only [State.memory, State.stock, State.slot, State.free, State.used, State.fromRegion,
      Option.toList_none, List.map_nil, List.append_nil, load_append]
  rw [hmemory, hcommonEq, hlargeEq, hcommon, hlarge, ← hwhole, ← hsum]
  rfl

namespace Shares

variable {os os' : Os} {chain chain' before after : List State} {out new : List Extent}
  {k : ChunkKind} {size ptr : Nat} {t : Taken} {limit : Bool}

/-- Only the mappings of the operating system matter. -/
theorem setOs (h : Shares os chain out) (hmappings : os'.mappings = os.mappings) :
    Shares os' chain out where
  mapped s hs := hmappings ▸ h.mapped s hs
  aligned := h.aligned
  nodup := h.nodup
  fits := h.fits
  load_le := h.load_le

/-- One State takes the place of another one. -/
theorem replace {s s' : State} (h : Shares os (before ++ s :: after) out)
    (hyields : s.Yields s' new) : Shares os (before ++ s' :: after) (new ++ out) := by
  have hregions : (before ++ s' :: after).map State.regionPtr =
      (before ++ s :: after).map State.regionPtr := by simp [hyields.regionPtr]
  have hareas : (before ++ s' :: after).map State.area = (before ++ s :: after).map State.area := by
    simp [State.area, hyields.regionPtr]
  have hmem : ∀ {P : State → Prop}, (∀ x ∈ before ++ s :: after, P x) → (P s → P s') →
      ∀ x ∈ before ++ s' :: after, P x := fun hall hs => by
    obtain ⟨hbefore, hrest⟩ := List.forall_mem_append.mp hall
    obtain ⟨hfirst, hafter⟩ := List.forall_mem_cons.mp hrest
    exact List.forall_mem_append.mpr ⟨hbefore, List.forall_mem_cons.mpr ⟨hs hfirst, hafter⟩⟩
  constructor
  · exact hmem h.mapped fun hs => by rwa [hyields.regionPtr]
  · exact hmem h.aligned fun hs => by rwa [hyields.regionPtr]
  · rw [hregions]
    exact h.nodup
  · exact hmem h.fits hyields.fits
  · intro a
    have hload := h.load_le a
    have hstate := hyields.load_le a
    rw [hareas]
    simp only [List.flatMap_append, List.flatMap_cons, load_append] at hload ⊢
    omega

/-- A slot of a used chunk is handed out. -/
theorem tryAllocSize (before : List State) (h : Shares os (before ++ chain) out)
    (htry : Memalart.tryAllocSize k size chain = some (ptr, chain')) :
    Shares os (before ++ chain') (⟨ptr, size⟩ :: out) := by
  induction chain generalizing before ptr chain' with
  | nil => simp [Memalart.tryAllocSize] at htry
  | cons s rest ih =>
      simp only [Memalart.tryAllocSize] at htry
      split at htry
      · next taken ptr' used hslot =>
          cases htry
          exact h.replace (.takeSlot hslot)
      · simp only [Option.map_eq_some_iff, Prod.mk.injEq, Prod.exists] at htry
        obtain ⟨ptr', rest', hrest, rfl, rfl⟩ := htry
        rw [List.append_cons] at h ⊢
        exact ih _ h hrest

/-- A chunk that is in hand is cut. -/
theorem cut (h : Shares os (t.putBack k) out) (hpos : 0 < size) (hle : size ≤ k.chunkSize) :
    Shares os (t.before ++ (t.owner.cut k size t.chunk).2 :: t.after)
      (⟨(t.owner.cut k size t.chunk).1, size⟩ :: out) :=
  h.replace (.cut t.owner k t.chunk hpos hle)

/-- A fresh region at the end of the chain. -/
theorem grow {r : Nat} (first : FirstState) (h : Shares os chain out)
    (hregion : os.allocRegion limit = (some r, os')) :
    Shares os' (chain ++ [State.fromRegion r first]) out := by
  obtain ⟨os₁, answer, hquiet, ⟨hnone, -⟩ | hgranted⟩ := Os.allocRegion_eq hregion
  · cases hnone
  · obtain ⟨hfresh, hmappings, -, -⟩ := Os.allocRegionMapped_some hgranted
    rw [hquiet.mappings] at hmappings
    obtain ⟨-, haligned, -, hapart⟩ := hfresh
    constructor
    · refine List.forall_mem_append.mpr ⟨fun s hs => ?_, fun s hs => ?_⟩
      · rw [hmappings]
        exact List.mem_cons_of_mem _ (h.mapped s hs)
      · rw [List.mem_singleton.mp hs, hmappings]
        exact List.mem_cons_self
    · refine List.forall_mem_append.mpr ⟨h.aligned, fun s hs => ?_⟩
      rw [List.mem_singleton.mp hs]
      exact haligned
    · rw [List.map_append]
      refine List.Nodup.append h.nodup (List.nodup_singleton _) fun x hx hx' => ?_
      obtain ⟨s, hs, rfl⟩ := List.mem_map.mp hx
      have heq : s.regionPtr = r := by simpa [State.fromRegion] using hx'
      have hother := hapart _ (hquiet.mappings ▸ h.mapped s hs)
      have hpos : 0 < regionSize := by decide
      simp only [heq] at hother
      omega
    · refine List.forall_mem_append.mpr ⟨h.fits, fun s hs => ?_⟩
      rw [List.mem_singleton.mp hs]
      exact State.fits_fromRegion r first
    · intro a
      have hload := h.load_le a
      have hnew := State.load_fromRegion r first a
      simp only [List.flatMap_append, List.flatMap_cons, List.flatMap_nil, List.append_nil,
        List.map_append, List.map_cons, List.map_nil, load_append] at hload ⊢
      omega

/-- The last State is written to a slot. -/
theorem store {s : State} (h : Shares os (chain ++ [s]) (⟨ptr, sizeOfState⟩ :: out))
    (hnone : s.storage = none) : Shares os (chain ++ [{ s with storage := some ptr }]) out := by
  have hmem : ∀ {P : State → Prop}, (∀ x ∈ chain ++ [s], P x) →
      (P s → P { s with storage := some ptr }) →
      ∀ x ∈ chain ++ [{ s with storage := some ptr }], P x := fun hall hs => by
    obtain ⟨hchain, hlast⟩ := List.forall_mem_append.mp hall
    exact List.forall_mem_append.mpr ⟨hchain,
      List.forall_mem_singleton.mpr (hs (List.forall_mem_singleton.mp hlast))⟩
  constructor
  · exact hmem h.mapped id
  · exact hmem h.aligned id
  · simpa using h.nodup
  · exact hmem h.fits fun hs => ⟨hs.units, hs.common⟩
  · intro a
    have hload := h.load_le a
    rw [load_head] at hload
    simp only [List.flatMap_append, List.flatMap_cons, List.flatMap_nil, List.append_nil,
      List.map_append, List.map_cons, List.map_nil, load_append, State.memory, State.slot, hnone,
      Option.toList_none, Option.toList_some, State.stock, State.free, State.used,
      State.area] at hload ⊢
    omega

/-- `alloc_new_state_in`: the new State ends the chain. -/
theorem allocNewStateIn {next : State} (h : Shares os chain out)
    (hcall : (Memalart.allocNewStateIn limit chain).Returns os (some (chain', next)) os') :
    Shares os' (chain' ++ [next]) out := by
  simp only [Machine.Returns, Memalart.allocNewStateIn] at hcall
  split at hcall
  · cases hcall
  · next region os₁ hregion =>
      split at hcall
      · next ptr chain₁ htry =>
          cases hcall
          have hserved := tryAllocSize [] h htry
          exact ((grow .live hserved hregion).store rfl).setOs rfl
      · split at hcall
        · next t hpop =>
            cases hcall
            obtain ⟨s, chunks, hs, -, howner⟩ := popFree_eq_some hpop
            obtain ⟨hbefore, rfl, hafter⟩ : t.before = [] ∧ s = State.fromRegion region .live ∧
                t.after = [] := by simpa [List.append_eq_cons_iff] using hs.symm
            have hback := popFree_putBack hpop
            rw [Taken.putBack, hbefore, hafter] at hback
            have hgrown := grow .live h hregion
            rw [← hback] at hgrown
            have hcut := hgrown.replace
              (.cut t.owner .large t.chunk (show 0 < sizeOfState by decide) (by decide))
            refine (hcut.store ?_).setOs rfl
            rw [howner]
            rfl
        · cases hcall

/-- `get_free_large_chunk_` gives a chunk of the chain, or of a State that extends it. -/
theorem getFreeLargeChunk (before : List State) (h : Shares os (before ++ after) out)
    (hcall : (getFreeLargeChunk_ limit before after).Returns os (some t) os') :
    Shares os' (t.putBack .large) out := by
  unfold getFreeLargeChunk_ at hcall
  split at hcall
  · next t₀ hpop =>
      obtain ⟨rfl, rfl⟩ := by simpa using hcall
      have hback := popFree_putBack hpop
      rw [← hback] at h
      simpa [Taken.putBack] using h
  · split at hcall
    · simp at hcall
    · obtain ⟨r, os₁, halloc, hrest⟩ := Machine.returns_bind.mp hcall
      cases r with
      | none => simp at hrest
      | some pair =>
          obtain ⟨chain, next⟩ := pair
          have hnext := h.allocNewStateIn halloc
          simp only at hrest
          split at hrest
          · next t₀ hpop =>
              obtain ⟨rfl, rfl⟩ := by simpa using hrest
              rw [← popFree_putBack hpop] at hnext
              simpa [Taken.putBack] using hnext
          · simp at hrest

/-- `get_free_common_chunk` gives a chunk of a State, or splits a large one; a large chunk
that it forgets is in no State any more. -/
theorem getFreeCommonChunk (h : Shares os chain out)
    (hcall : (Memalart.getFreeCommonChunk limit chain).Returns os (some t) os') :
    Shares os' (t.putBack .common) out := by
  unfold Memalart.getFreeCommonChunk at hcall
  split at hcall
  · next t₀ hpop =>
      obtain ⟨rfl, rfl⟩ := by simpa using hcall
      rwa [popFree_putBack hpop]
  · obtain ⟨r, os₁, hlarge, hrest⟩ := Machine.returns_bind.mp hcall
    cases r with
    | none => simp at hrest
    | some t₀ =>
        have hchain : chain.dropLast ++ chain.drop (chain.length - 1) = chain := by
          rw [List.dropLast_eq_take, List.take_append_drop]
        have htaken := getFreeLargeChunk _ (hchain.symm ▸ h) hlarge
        simp only at hrest
        split at hrest
        · split at hrest
          · next hfree chunk chunks hsplit =>
              obtain ⟨rfl, rfl⟩ := by simpa using hrest
              have hsplit := htaken.replace (.split t₀.owner hsplit)
              simpa [Taken.putBack] using hsplit
          · simp at hrest
        · next chunk chunks hfree =>
            obtain ⟨_, os₂, hmodify, hlast⟩ := Machine.returns_bind.mp hrest
            obtain rfl := Machine.returns_modify.mp hmodify
            obtain ⟨rfl, rfl⟩ := by simpa using hlast
            have hforgotten := htaken.replace
              (State.Yields.takeChunk t₀.owner .large t₀.chunk).forget
            have hback : t₀.owner.setFree (chunk :: chunks) .common = t₀.owner := by
              rw [← hfree]
              exact t₀.owner.setFree_free .common
            refine setOs (show Shares os₁ _ _ from ?_) rfl
            simpa [Taken.putBack, hback] using hforgotten

/-- Without a region nothing has changed. -/
theorem getFreeLargeChunk_none (h : Shares os chain out)
    (hcall : (getFreeLargeChunk_ limit before after).Returns os none os') :
    Shares os' chain out := by
  unfold getFreeLargeChunk_ at hcall
  split at hcall
  · simp at hcall
  · split at hcall
    · simp at hcall
    · obtain ⟨r, os₁, halloc, hrest⟩ := Machine.returns_bind.mp hcall
      cases r with
      | none =>
          obtain rfl : os' = os₁ := by simpa using hrest
          simp only [Machine.Returns, Memalart.allocNewStateIn] at halloc
          split at halloc
          · next hregion =>
              cases halloc
              exact h.setOs (Os.quiet_of_allocRegion_none hregion).mappings
          · split at halloc
            · cases halloc
            · split at halloc <;> cases halloc
      | some pair =>
          simp only at hrest
          split at hrest <;> simp at hrest

theorem getFreeCommonChunk_none (h : Shares os chain out)
    (hcall : (Memalart.getFreeCommonChunk limit chain).Returns os none os') :
    Shares os' chain out := by
  unfold Memalart.getFreeCommonChunk at hcall
  split at hcall
  · simp at hcall
  · obtain ⟨r, os₁, hlarge, hrest⟩ := Machine.returns_bind.mp hcall
    cases r with
    | none =>
        obtain rfl : os' = os₁ := by simpa using hrest
        exact h.getFreeLargeChunk_none hlarge
    | some t₀ =>
        simp only at hrest
        split at hrest
        · split at hrest <;> simp at hrest
        · simp [Machine.returns_bind] at hrest

/-- `alloc_size`: what it gives is out of the chain from then on. -/
theorem allocSize {given : Option Nat} (h : Shares os chain out) (hpos : 0 < size)
    (hle : size ≤ k.chunkSize)
    (hcall : (Memalart.allocSize limit k size chain).Returns os (given, chain') os') :
    Shares os' chain' ((given.toList.map fun ptr => ⟨ptr, size⟩) ++ out) := by
  unfold Memalart.allocSize at hcall
  split at hcall
  · next ptr chain₁ htry =>
      obtain ⟨⟨rfl, rfl⟩, rfl⟩ := by simpa using hcall
      exact tryAllocSize [] h htry
  · obtain ⟨r, os₁, hget, hrest⟩ := Machine.returns_bind.mp hcall
    cases r with
    | none =>
        obtain ⟨⟨rfl, rfl⟩, rfl⟩ := by simpa using hrest
        cases k with
        | common => exact h.getFreeCommonChunk_none hget
        | large => exact h.getFreeLargeChunk_none hget
    | some t =>
        obtain ⟨⟨rfl, rfl⟩, rfl⟩ := by simpa using hrest
        refine cut ?_ hpos hle
        cases k with
        | common => exact h.getFreeCommonChunk hget
        | large => exact getFreeLargeChunk [] h hget

/-! ### What the account says -/

/-- The regions of a chain have no address in common. -/
theorem load_areas_le (h : Shares os chain out) (a : Nat) : load (chain.map State.area) a ≤ 1 := by
  have hregion : ∀ s ∈ chain, s.area.Holds a → s.regionPtr = a / regionSize * regionSize := by
    intro s hs ha
    have haligned := h.aligned s hs
    simp only [State.area, Extent.Holds, regionSize, commonChunkSize] at ha haligned ⊢
    omega
  have hnodup := h.nodup
  clear h
  induction chain with
  | nil => simp
  | cons s rest ih =>
      obtain ⟨hs, hrest⟩ := List.forall_mem_cons.mp hregion
      obtain ⟨hnot, hnodup⟩ := List.nodup_cons.mp hnodup
      have hle := ih hrest hnodup
      rw [List.map_cons, load_cons]
      by_cases ha : s.area.Holds a
      · have hzero : load (rest.map State.area) a = 0 := by
          refine Nat.eq_zero_of_not_pos fun hpos => hnot ?_
          obtain ⟨e, he, hholds⟩ := load_pos_iff.mp hpos
          obtain ⟨t, ht, rfl⟩ := List.mem_map.mp he
          rw [hs ha, ← hrest t ht hholds]
          exact List.mem_map_of_mem ht
        rw [if_pos ha, hzero]
      · rwa [if_neg ha, Nat.zero_add]

/-- No address is in two places. -/
theorem apart (h : Shares os chain out) :
    ((out ++ chain.flatMap State.memory).filter fun e => 0 < e.length).Pairwise Extent.Apart := by
  refine pairwise_apart_of_load fun a => ?_
  rw [load_append]
  exact (h.load_le a).trans (h.load_areas_le a)

/-- Nothing reaches over the end of its region, or into the metadata of the next one. -/
theorem inside (h : Shares os chain out) {e : Extent}
    (he : e ∈ out ++ chain.flatMap State.memory) (hpos : 0 < e.length) :
    ∃ s ∈ chain, (s.regionPtr, regionSize) ∈ os.mappings ∧
      s.regionPtr + commonChunkSize ≤ e.start ∧ e.start + e.length ≤ s.regionPtr + regionSize := by
  have hholds : ∀ a, e.Holds a → ∃ s ∈ chain, s.area.Holds a := fun a ha => by
    have hload : 0 < load (out ++ chain.flatMap State.memory) a := load_pos_iff.mpr ⟨e, he, ha⟩
    rw [load_append] at hload
    obtain ⟨e', he', ha'⟩ := load_pos_iff.mp (hload.trans_le (h.load_le a))
    obtain ⟨s, hs, rfl⟩ := List.mem_map.mp he'
    exact ⟨s, hs, ha'⟩
  obtain ⟨s, hs, hstart⟩ := hholds e.start ⟨Nat.le_refl _, by omega⟩
  refine ⟨s, hs, h.mapped s hs, hstart.1, Nat.le_of_not_lt fun hover => ?_⟩
  -- otherwise the extent holds the first address behind the region, and that is metadata
  obtain ⟨t, ht, hend⟩ := hholds (s.regionPtr + regionSize) ⟨by
    have hlt := hstart.2
    simp only [State.area, regionSize, commonChunkSize] at hlt ⊢
    omega, hover⟩
  have haligned := h.aligned s hs
  have haligned' := h.aligned t ht
  simp only [State.area, Extent.Holds, regionSize, commonChunkSize] at hend haligned haligned'
  omega

end Shares

/-! ## Runs -/

namespace Bootstrap

/-- What is asked of a chain. -/
inductive Action
  | alloc (call : AllocCall)
  /-- `get_free_large_chunk`. -/
  | takeLarge (withCountingLimit : Bool)

/-- A chain, and all that it has handed out. -/
structure Serving where
  boot : Bootstrap
  out : List Extent

/-- One call.  The size of an object fits a chunk of its kind. -/
inductive Serves : Serving → Action → Serving → Prop
  | alloc {s : Serving} {c : AllocCall} {given : Option Nat} {chain : List State} {os : Os}
      (hpos : 0 < c.size) (hle : c.size ≤ c.kind.chunkSize)
      (h : (allocSize c.withCountingLimit c.kind c.size s.boot.chain).Returns s.boot.os
        (given, chain) os) :
      Serves s (.alloc c) ⟨⟨os, chain⟩, (given.toList.map fun ptr => ⟨ptr, c.size⟩) ++ s.out⟩
  | takeLarge {s : Serving} {limit : Bool} {t : Taken} {os : Os}
      (h : (getFreeLargeChunk_ limit [] s.boot.chain).Returns s.boot.os (some t) os) :
      Serves s (.takeLarge limit) ⟨⟨os, t.chain⟩, ChunkKind.large.extent t.chunk :: s.out⟩
  | refused {s : Serving} {limit : Bool} {os : Os}
      (h : (getFreeLargeChunk_ limit [] s.boot.chain).Returns s.boot.os none os) :
      Serves s (.takeLarge limit) ⟨⟨os, s.boot.chain⟩, s.out⟩

theorem shares_start {os : Os} {region : Nat} (hmapped : (region, regionSize) ∈ os.mappings)
    (haligned : region % regionSize = 0) : Shares os (start os region).chain [] where
  mapped := List.forall_mem_singleton.mpr hmapped
  aligned := List.forall_mem_singleton.mpr haligned
  nodup := List.nodup_singleton _
  fits := List.forall_mem_singleton.mpr (State.fits_fromRegion region .none)
  load_le a := by
    have hload := State.load_fromRegion region .none a
    simpa [start] using hload.le

theorem Serves.shares {s s' : Serving} {action : Action} (hstep : Serves s action s')
    (h : Shares s.boot.os s.boot.chain s.out) : Shares s'.boot.os s'.boot.chain s'.out := by
  cases hstep with
  | alloc hpos hle hcall => exact h.allocSize hpos hle hcall
  | @takeLarge limit t os hcall =>
      have htaken := Shares.getFreeLargeChunk [] h hcall
      exact htaken.replace (.takeChunk t.owner .large t.chunk)
  | refused hcall => exact h.getFreeLargeChunk_none hcall

/-- Whatever is asked of a chain, in whatever order, and whether or not it is extended: what it
has handed out, the slots of its States, and what it still has to give have no address in
common, lie in its regions behind their metadata, and its buffers have not overflowed. -/
theorem memory_of_run {os : Os} {region : Nat} {actions : List Action} {s : Serving}
    (hmapped : (region, regionSize) ∈ os.mappings) (haligned : region % regionSize = 0)
    (hrun : Lib.Run Serves ⟨start os region, []⟩ actions s) :
    ((s.out ++ s.boot.chain.flatMap State.memory).filter fun e => 0 < e.length).Pairwise
        Extent.Apart ∧
      (∀ e ∈ s.out ++ s.boot.chain.flatMap State.memory, 0 < e.length →
        ∃ t ∈ s.boot.chain, (t.regionPtr, regionSize) ∈ s.boot.os.mappings ∧
          t.regionPtr + commonChunkSize ≤ e.start ∧
          e.start + e.length ≤ t.regionPtr + regionSize) ∧
      ∀ t ∈ s.boot.chain, t.WithinBuffers := by
  have hshares : Shares s.boot.os s.boot.chain s.out :=
    hrun.invariant (I := fun s => Shares s.boot.os s.boot.chain s.out)
      (fun _ _ _ h hstep => hstep.shares h) (shares_start hmapped haligned)
  exact ⟨hshares.apart, fun e he hpos => hshares.inside he hpos,
    fun t ht => (hshares.fits t ht).withinBuffers⟩

/-- An object of each kind and a large chunk, from one region. -/
theorem memory_of_run_three :
    ∃ (os : Os) (s : Serving),
      Lib.Run Serves ⟨start os regionSize, []⟩
        [.alloc ⟨true, .large, 2048⟩, .alloc ⟨true, .common, 24⟩, .takeLarge true] s ∧
      s.out.length = 3 ∧
      ((s.out ++ s.boot.chain.flatMap State.memory).filter fun e => 0 < e.length).Pairwise
        Extent.Apart ∧
      ∀ t ∈ s.boot.chain, t.WithinBuffers := by
  let os : Os := { Os.initial [] with mappings := [(regionSize, regionSize)] }
  have hrun : ∃ s, Lib.Run Serves ⟨start os regionSize, []⟩
      [.alloc ⟨true, .large, 2048⟩, .alloc ⟨true, .common, 24⟩, .takeLarge true] s ∧
      s.out.length = 3 :=
    ⟨_, .cons (.alloc (by decide) (by decide) rfl) (.cons (.alloc (by decide) (by decide) rfl)
      (.cons (.takeLarge rfl) (.nil _))), rfl⟩
  obtain ⟨s, hrun, hlength⟩ := hrun
  obtain ⟨hapart, -, hbuffers⟩ := memory_of_run (List.mem_singleton_self _) (by decide) hrun
  exact ⟨os, s, hrun, hlength, hapart, hbuffers⟩

end Bootstrap

end Memalart
