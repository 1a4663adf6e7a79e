/-
# What a chain of bootstrap States does with its units

Every unit of a State's region should be in exactly one of the State's four
lists.  Each operation on a chain is described by what it does to that
partition; a run of `alloc_size` calls keeps it as long as no call for a common
chunk extends the chain, and the run below shows what such a call does.
-/

import Mathlib.Data.List.Perm.Basic
import Mathlib.Data.List.Count
import Mathlib.Logic.Relation
import Memalart.State

namespace Memalart

open Memalart.Lib

/-- The units that a list of chunks of one kind covers. -/
def chunkUnits (k : ChunkKind) (chunks : List Nat) : List Nat := chunks.flatMap k.units

/-- The units that the four lists of a State cover. -/
def State.units (s : State) : List Nat :=
  chunkUnits .common s.freeCommonChunks ++ chunkUnits .large s.freeLargeChunks ++
    chunkUnits .common (s.usedCommonChunks.map UsedChunk.ptr) ++
    chunkUnits .large (s.usedLargeChunks.map UsedChunk.ptr)

/-- Every unit of the State's region is in exactly one of its lists. -/
def State.UnitsExact (s : State) : Prop := s.units.Perm (regionUnits s.regionPtr)

/-- The same of every State of a chain. -/
def ChainExact (chain : List State) : Prop := ∀ s ∈ chain, s.UnitsExact

/-- A chunk has been taken from its State: it and the State's lists still cover
the region, and the other States are untouched. -/
def Taken.Exact (t : Taken) (k : ChunkKind) : Prop :=
  ChainExact t.before ∧ ChainExact t.after ∧
    (t.owner.units ++ k.units t.chunk).Perm (regionUnits t.owner.regionPtr)

/-- Exactness in the words of the counts: every unit of the region is listed once. -/
theorem State.UnitsExact.count_eq_one {s : State} (h : s.UnitsExact) {u : Nat}
    (hu : u ∈ regionUnits s.regionPtr) : s.units.count u = 1 := by
  rw [List.perm_iff_count.mp h u]
  exact List.count_eq_one_of_mem (regionUnits_nodup _) hu

/-! ## One list of one State -/

@[simp] theorem chunkUnits_nil (k : ChunkKind) : chunkUnits k [] = [] := rfl

@[simp] theorem chunkUnits_cons (k : ChunkKind) (chunk : Nat) (chunks : List Nat) :
    chunkUnits k (chunk :: chunks) = k.units chunk ++ chunkUnits k chunks := rfl

@[simp] theorem chunkUnits_append (k : ChunkKind) (xs ys : List Nat) :
    chunkUnits k (xs ++ ys) = chunkUnits k xs ++ chunkUnits k ys := List.flatMap_append

theorem chunkUnits_common (chunks : List Nat) : chunkUnits .common chunks = chunks := by
  induction chunks with
  | nil => rfl
  | cons chunk chunks ih => simp [ChunkKind.units, ih]

theorem chunkUnits_perm {k : ChunkKind} {xs ys : List Nat} (h : xs.Perm ys) :
    (chunkUnits k xs).Perm (chunkUnits k ys) := h.flatMap_right _

@[simp] theorem State.regionPtr_setFree (s : State) (xs : List Nat) (k : ChunkKind) :
    (s.setFree xs k).regionPtr = s.regionPtr := by cases k <;> rfl

@[simp] theorem State.regionPtr_setUsed (s : State) (xs : List UsedChunk) (k : ChunkKind) :
    (s.setUsed xs k).regionPtr = s.regionPtr := by cases k <;> rfl

/-- Replacing a list of free chunks exchanges its units for those of the new one. -/
theorem State.count_units_setFree (s : State) (xs : List Nat) (k : ChunkKind) (u : Nat) :
    (s.setFree xs k).units.count u + (chunkUnits k (s.free k)).count u =
      s.units.count u + (chunkUnits k xs).count u := by
  cases k with
  | common => simp only [units, setFree, free, List.count_append]; omega
  | large => simp only [units, setFree, free, List.count_append]; omega

/-- Replacing a list of used chunks exchanges its units for those of the new one. -/
theorem State.count_units_setUsed (s : State) (xs : List UsedChunk) (k : ChunkKind) (u : Nat) :
    (s.setUsed xs k).units.count u + (chunkUnits k ((s.used k).map UsedChunk.ptr)).count u =
      s.units.count u + (chunkUnits k (xs.map UsedChunk.ptr)).count u := by
  cases k with
  | common => simp only [units, setUsed, used, List.count_append]; omega
  | large => simp only [units, setUsed, used, List.count_append]; omega

/-- Taking a slot changes no chunk. -/
theorem takeSlot_map_ptr {size ptr : Nat} {used used' : List UsedChunk}
    (h : takeSlot size used = some (ptr, used')) :
    used'.map UsedChunk.ptr = used.map UsedChunk.ptr := by
  induction used generalizing ptr used' with
  | nil => simp [takeSlot] at h
  | cons chunk rest ih =>
      simp only [takeSlot] at h
      split at h
      · simp only [Option.map_eq_some_iff, Prod.mk.injEq, Prod.exists] at h
        obtain ⟨ptr', rest', hrest, -, rfl⟩ := h
        simp [ih hrest]
      · cases h
        rfl

/-! ## The operations of a chain -/

/-- The chunks of a region, as a State holds them, cover its units. -/
theorem chunkUnits_parseRegion (region : Nat) :
    ((parseRegion region).commonChunks.reverse ++
      chunkUnits .large (parseRegion region).largeChunks.reverse).Perm (regionUnits region) := by
  rw [← parseRegion_units]
  exact (List.reverse_perm _).append (chunkUnits_perm (List.reverse_perm _))

theorem State.units_fromRegion (region : Nat) (first : FirstState) :
    (State.fromRegion region first).units =
      (parseRegion region).commonChunks.reverse ++
        chunkUnits .large (parseRegion region).largeChunks.reverse := by
  simp only [State.units, State.fromRegion, List.map_nil, chunkUnits_nil, List.append_nil,
    chunkUnits_common]

/-- A State built from a region covers it. -/
theorem State.unitsExact_fromRegion (region : Nat) (first : FirstState) :
    (State.fromRegion region first).UnitsExact := by
  rw [State.UnitsExact, State.units_fromRegion]
  exact chunkUnits_parseRegion region

/-- An allocation from used chunks leaves every partition as it is. -/
theorem tryAllocSize_exact {k : ChunkKind} {size ptr : Nat} {chain chain' : List State}
    (hchain : ChainExact chain) (h : tryAllocSize k size chain = some (ptr, chain')) :
    ChainExact chain' := by
  induction chain generalizing ptr chain' with
  | nil => simp [tryAllocSize] at h
  | cons s rest ih =>
      simp only [ChainExact, List.forall_mem_cons] at hchain ⊢
      simp only [tryAllocSize] at h
      split at h
      · next taken ptr' used hslot =>
          cases h
          refine List.forall_mem_cons.mpr ⟨?_, hchain.2⟩
          rw [State.UnitsExact, State.regionPtr_setUsed]
          refine (List.perm_iff_count.mpr fun u => ?_).trans hchain.1
          have hcount := s.count_units_setUsed used k u
          rw [takeSlot_map_ptr hslot] at hcount
          exact Nat.add_right_cancel hcount
      · simp only [Option.map_eq_some_iff, Prod.mk.injEq, Prod.exists] at h
        obtain ⟨ptr', rest', hrest, -, rfl⟩ := h
        exact List.forall_mem_cons.mpr ⟨hchain.1, ih hchain.2 hrest⟩

theorem popFree_eq_none {k : ChunkKind} {chain : List State} (h : popFree k chain = none) :
    ∀ s ∈ chain, s.free k = [] := by
  induction chain with
  | nil => simp
  | cons s rest ih =>
      simp only [popFree] at h
      split at h
      · cases h
      · next hfree =>
          exact List.forall_mem_cons.mpr ⟨hfree, ih (Option.map_eq_none_iff.mp h)⟩

/-- A popped chunk is the last free one of a State of the chain. -/
theorem popFree_eq_some {k : ChunkKind} {chain : List State} {t : Taken}
    (h : popFree k chain = some t) :
    ∃ s chunks, chain = t.before ++ s :: t.after ∧ s.free k = t.chunk :: chunks ∧
      t.owner = s.setFree chunks k := by
  induction chain generalizing t with
  | nil => simp [popFree] at h
  | cons s rest ih =>
      simp only [popFree] at h
      split at h
      · next chunk chunks hfree =>
          cases h
          exact ⟨s, chunks, rfl, hfree, rfl⟩
      · obtain ⟨t', ht', rfl⟩ := Option.map_eq_some_iff.mp h
        obtain ⟨s', chunks, hchain, hfree, howner⟩ := ih ht'
        exact ⟨s', chunks, by simp [hchain], hfree, howner⟩

/-- Popping a free chunk takes its units from the State that owned it. -/
theorem popFree_exact {k : ChunkKind} {chain : List State} {t : Taken}
    (hchain : ChainExact chain) (h : popFree k chain = some t) : t.Exact k := by
  obtain ⟨s, chunks, rfl, hfree, howner⟩ := popFree_eq_some h
  obtain ⟨hbefore, hrest⟩ := List.forall_mem_append.mp hchain
  obtain ⟨hs, hafter⟩ := List.forall_mem_cons.mp hrest
  refine ⟨hbefore, hafter, ?_⟩
  rw [howner, State.regionPtr_setFree]
  refine (List.perm_iff_count.mpr fun u => ?_).trans hs
  have hcount := s.count_units_setFree chunks k u
  rw [hfree, chunkUnits_cons, List.count_append] at hcount
  rw [List.count_append]
  omega

/-- Cutting a chunk gives its units back to its owner. -/
theorem Taken.Exact.cut {t : Taken} {k : ChunkKind} (h : t.Exact k) (size : Nat) :
    ChainExact (t.before ++ (t.owner.cut k size t.chunk).2 :: t.after) := by
  obtain ⟨hbefore, hafter, howner⟩ := h
  refine List.forall_mem_append.mpr ⟨hbefore, List.forall_mem_cons.mpr ⟨?_, hafter⟩⟩
  simp only [State.cut, State.UnitsExact, State.regionPtr_setUsed]
  refine (List.perm_iff_count.mpr fun u => ?_).trans howner
  have hcount := t.owner.count_units_setUsed
    (t.owner.used k ++ [⟨size, t.chunk, k.chunkSize / size - 1⟩]) k u
  simp only [List.map_append, List.map_cons, List.map_nil, chunkUnits_append, chunkUnits_cons,
    chunkUnits_nil, List.append_nil, List.count_append] at hcount
  rw [List.count_append]
  omega

/-- Extending a chain keeps its partitions and adds a State with its own. -/
theorem allocNewStateIn_exact {limit : Bool} {chain chain' : List State} {next : State}
    {os os' : Os} (hchain : ChainExact chain)
    (h : (allocNewStateIn limit chain).Returns os (some (chain', next)) os') :
    ChainExact chain' ∧ next.UnitsExact := by
  simp only [Machine.Returns, allocNewStateIn] at h
  split at h
  · cases h
  · next region os₁ hregion =>
      have hfresh : ChainExact [State.fromRegion region .live] := by
        simpa [ChainExact] using State.unitsExact_fromRegion region .live
      split at h
      · next ptr chain₁ htry =>
          cases h
          exact ⟨tryAllocSize_exact hchain htry, State.unitsExact_fromRegion region .live⟩
      · split at h
        · next t ht =>
            cases h
            have hcut := ((popFree_exact hfresh ht).cut sizeOfState)
                (t.owner.cut .large sizeOfState t.chunk).2
              (by simp)
            exact ⟨hchain, hcut⟩
        · cases h

/-- A large chunk comes from a State of the chain or from the one that extends it;
either way only its owner's partition opens. -/
theorem getFreeLargeChunk_exact {limit : Bool} {before after : List State} {t : Taken}
    {os os' : Os} (hbefore : ChainExact before) (hafter : ChainExact after)
    (h : (getFreeLargeChunk_ limit before after).Returns os (some t) os') : t.Exact .large := by
  unfold getFreeLargeChunk_ at h
  split at h
  · next t₀ hpop =>
      obtain ⟨rfl, -⟩ := by simpa using h
      obtain ⟨hbefore₀, hafter₀, howner⟩ := popFree_exact hafter hpop
      exact ⟨List.forall_mem_append.mpr ⟨hbefore, hbefore₀⟩, hafter₀, howner⟩
  · split at h
    · simp at h
    · obtain ⟨r, os₁, halloc, hrest⟩ := Machine.returns_bind.mp h
      cases r with
      | none => simp at hrest
      | some pair =>
          obtain ⟨chain, next⟩ := pair
          have hchain : ChainExact (before ++ after) :=
            List.forall_mem_append.mpr ⟨hbefore, hafter⟩
          obtain ⟨hchain', hnext⟩ := allocNewStateIn_exact hchain halloc
          simp only at hrest
          split at hrest
          · next t₀ hpop =>
              obtain ⟨rfl, -⟩ := by simpa using hrest
              have hnext' : ChainExact [next] := by simpa [ChainExact] using hnext
              obtain ⟨hbefore₀, hafter₀, howner⟩ := popFree_exact hnext' hpop
              exact ⟨List.forall_mem_append.mpr ⟨hchain', hbefore₀⟩, hafter₀, howner⟩
          · simp at hrest

/-- Splitting gives the last of the eight units and keeps the other seven. -/
theorem Taken.Exact.split {t : Taken} (h : t.Exact .large) (hempty : t.owner.freeCommonChunks = [])
    {chunk : Nat} {chunks : List Nat}
    (hsplit : (splitLargeChunkToCommon t.chunk).reverse = chunk :: chunks) :
    Taken.Exact { t with owner := t.owner.setFree chunks .common, chunk := chunk } .common := by
  obtain ⟨hbefore, hafter, howner⟩ := h
  refine ⟨hbefore, hafter, ?_⟩
  simp only [State.regionPtr_setFree]
  refine (List.perm_iff_count.mpr fun u => ?_).trans howner
  have hcount := t.owner.count_units_setFree chunks .common u
  have hunits := congrArg (List.count u) hsplit
  simp only [List.count_reverse] at hunits
  simp only [State.free, hempty, chunkUnits_nil, List.count_nil, chunkUnits_common] at hcount
  rw [← List.singleton_append, List.count_append] at hunits
  simp only [List.count_append, ChunkKind.units]
  omega

/-- The call whose large chunk is lost: it asks for a common chunk, nothing in the
chain can serve it, its last State has no large chunk to split, and the region
that extends the chain is granted. -/
def CommonCallExtends (limit : Bool) (k : ChunkKind) (size : Nat) (os : Os)
    (chain : List State) : Prop :=
  k = .common ∧ tryAllocSize .common size chain = none ∧ popFree .common chain = none ∧
    popFree .large (chain.drop (chain.length - 1)) = none ∧ (os.allocRegion limit).1 ≠ none

theorem allocNewStateIn_none {limit : Bool} {chain : List State} {os os' : Os}
    {r : Option (List State × State)} (hrefused : (os.allocRegion limit).1 = none)
    (h : (allocNewStateIn limit chain).Returns os r os') : r = none := by
  simp only [Machine.Returns, allocNewStateIn] at h
  split at h
  · cases h
    rfl
  · next hregion => simp [hregion] at hrefused

/-- A large chunk that a granted extension did not provide comes from a State whose
common chunks are used up, when those of the whole chain are. -/
theorem owner_freeCommonChunks_eq_nil {limit : Bool} {chain : List State} {t : Taken}
    {os os' : Os} (hnone : popFree .common chain = none)
    (hkeeps : popFree .large (chain.drop (chain.length - 1)) = none →
      (os.allocRegion limit).1 = none)
    (h : (getFreeLargeChunk_ limit chain.dropLast
      (chain.drop (chain.length - 1))).Returns os (some t) os') :
    t.owner.freeCommonChunks = [] := by
  unfold getFreeLargeChunk_ at h
  split at h
  · next t₀ hpop =>
      obtain ⟨rfl, -⟩ := by simpa using h
      obtain ⟨s, chunks, hsuffix, -, howner⟩ := popFree_eq_some hpop
      have hs : s ∈ chain.drop (chain.length - 1) := by simp [hsuffix]
      have hfree := popFree_eq_none hnone s (List.mem_of_mem_drop hs)
      rw [howner]
      exact hfree
  · next hpop =>
      split at h
      · simp at h
      · obtain ⟨r, os₁, halloc, hrest⟩ := Machine.returns_bind.mp h
        obtain rfl := allocNewStateIn_none (hkeeps hpop) halloc
        simp at hrest

/-- Without an extension a common chunk is popped, or split from a large chunk of
the last State. -/
theorem getFreeCommonChunk_exact {limit : Bool} {chain : List State} {t : Taken}
    {os os' : Os} (hchain : ChainExact chain)
    (hkeeps : popFree .common chain = none →
      popFree .large (chain.drop (chain.length - 1)) = none → (os.allocRegion limit).1 = none)
    (h : (getFreeCommonChunk limit chain).Returns os (some t) os') : t.Exact .common := by
  unfold getFreeCommonChunk at h
  split at h
  · next t₀ hpop =>
      obtain ⟨rfl, -⟩ := by simpa using h
      exact popFree_exact hchain hpop
  · next hnone =>
      obtain ⟨r, os₁, hlarge, hrest⟩ := Machine.returns_bind.mp h
      cases r with
      | none => simp at hrest
      | some t₀ =>
          have hsuffix : ∀ s ∈ chain.drop (chain.length - 1), s ∈ chain := fun s hs =>
            List.mem_of_mem_drop hs
          have hexact : t₀.Exact .large := getFreeLargeChunk_exact
            (fun s hs => hchain s (List.dropLast_subset _ hs))
            (fun s hs => hchain s (hsuffix s hs)) hlarge
          -- the owner is the last State itself, whose common chunks are used up
          have hempty : t₀.owner.freeCommonChunks = [] :=
            owner_freeCommonChunks_eq_nil hnone (hkeeps hnone) hlarge
          simp only [hempty] at hrest
          split at hrest
          · next chunk chunks hsplit =>
              obtain ⟨rfl, -⟩ := by simpa using hrest
              exact hexact.split hempty hsplit
          · simp at hrest

/-! ## Runs of `alloc_size` -/

/-- One `alloc_size` call: its counting flag, its size class and its size. -/
structure AllocCall where
  withCountingLimit : Bool
  kind : ChunkKind
  size : Nat

/-- A chain together with the operating system it maps regions from. -/
structure Bootstrap where
  os : Os
  chain : List State

namespace Bootstrap

/-- The call returns and leads from one state to the next. -/
def Step (b : Bootstrap) (c : AllocCall) (b' : Bootstrap) : Prop :=
  ∃ r, (allocSize c.withCountingLimit c.kind c.size b.chain).Returns b.os (r, b'.chain) b'.os

/-- The call would take the path that loses a large chunk. -/
def Extends (c : AllocCall) (b : Bootstrap) : Prop :=
  CommonCallExtends c.withCountingLimit c.kind c.size b.os b.chain

instance (c : AllocCall) (b : Bootstrap) : Decidable (Extends c b) :=
  inferInstanceAs (Decidable (_ ∧ _ ∧ _ ∧ _ ∧ _))

/-- A call that takes another path. -/
def KeepingStep (b : Bootstrap) (c : AllocCall) (b' : Bootstrap) : Prop :=
  Step b c b' ∧ ¬ Extends c b

/-- The state that a chain starts from. -/
def start (os : Os) (region : Nat) : Bootstrap := ⟨os, [State.fromRegion region .none]⟩

/-- One call keeps every partition unless it extends the chain for a common
chunk. -/
theorem chainExact_step {c : AllocCall} {b b' : Bootstrap} (hchain : ChainExact b.chain)
    (hstep : KeepingStep b c b') : ChainExact b'.chain := by
  obtain ⟨⟨r, h⟩, hallowed⟩ := hstep
  unfold allocSize at h
  split at h
  · next ptr chain htry =>
      obtain ⟨⟨-, hchain'⟩, -⟩ := by simpa using h
      rw [hchain']
      exact tryAllocSize_exact hchain htry
  · next hnone =>
      obtain ⟨taken, os₁, hget, hrest⟩ := Machine.returns_bind.mp h
      cases taken with
      | none =>
          obtain ⟨⟨-, hchain'⟩, -⟩ := by simpa using hrest
          rwa [hchain']
      | some t =>
          obtain ⟨⟨-, hchain'⟩, -⟩ := by simpa using hrest
          rw [hchain']
          refine Taken.Exact.cut ?_ c.size
          cases hk : c.kind with
          | large =>
              rw [hk] at hget
              exact getFreeLargeChunk_exact (by simp [ChainExact]) hchain hget
          | common =>
              rw [hk] at hget hnone
              refine getFreeCommonChunk_exact hchain (fun hpop hpop' => ?_) hget
              by_contra hgranted
              exact hallowed ⟨hk, hnone, hpop, hpop', hgranted⟩

/-- A run that never extends the chain for a common chunk keeps every unit of
every region of the chain in exactly one list of its State. -/
theorem chainExact_of_run {os : Os} {region : Nat} {calls : List AllocCall} {b : Bootstrap}
    (hrun : Run KeepingStep (start os region) calls b) : ChainExact b.chain :=
  hrun.invariant (I := fun b => ChainExact b.chain) (fun _ _ _ hchain hstep => chainExact_step hchain hstep)
    (by simpa [ChainExact, start] using State.unitsExact_fromRegion region .none)

/-- The call as a function. -/
def next (b : Bootstrap) (c : AllocCall) : Option Bootstrap :=
  match allocSize c.withCountingLimit c.kind c.size b.chain b.os with
  | .ok ((_, chain), os) => some ⟨os, chain⟩
  | .error _ => none

theorem step_of_next {b b' : Bootstrap} {c : AllocCall} (h : next b c = some b') : Step b c b' := by
  unfold next at h
  split at h
  · next r chain os hcall =>
      cases h
      exact ⟨r, hcall⟩
  · cases h

def nextKeeping (b : Bootstrap) (c : AllocCall) : Option Bootstrap :=
  if Extends c b then none else next b c

theorem keepingStep_of_next {b b' : Bootstrap} {c : AllocCall} (h : nextKeeping b c = some b') :
    KeepingStep b c b' := by
  unfold nextKeeping at h
  split at h
  · cases h
  · next hkeeps => exact ⟨step_of_next h, hkeeps⟩

/-- One object of each of the 63 smallest large classes, one of each of the seven
smallest common classes, and one of the eighth. -/
def exhaustingCalls : List AllocCall :=
  (realLargeSizes.take 63).map (⟨true, .large, ·⟩) ++
    ((List.range 8).map fun i => ⟨true, .common, (i + 1) * 8⟩)

/-- Two regions are granted. -/
def twoRegions : Os := Os.initial [⟨0, 2 * regionSize⟩, ⟨0, 4 * regionSize⟩]

/-- Up to the last call, which would extend the chain, every unit is in one list. -/
theorem chainExact_seventy : ∃ b,
    Run KeepingStep (start twoRegions regionSize) (exhaustingCalls.take 70) b ∧
      ChainExact b.chain := by
  have hsome : ((exhaustingCalls.take 70).foldlM nextKeeping (start twoRegions regionSize)).isSome =
      true := by
    decide +kernel
  have hrun := Run.of_foldlM (fun _ _ _ => keepingStep_of_next) (Option.some_get hsome).symm
  exact ⟨_, hrun, chainExact_of_run hrun⟩

/-! ## Calls return -/

/-- A property of States that their lists do not matter for. -/
structure ListFree (P : State → Prop) : Prop where
  setFree : ∀ s xs k, P s → P (s.setFree xs k)
  setUsed : ∀ s xs k, P s → P (s.setUsed xs k)

end Bootstrap

theorem forall_tryAllocSize {P : State → Prop} (hP : Bootstrap.ListFree P) {k : ChunkKind}
    {size ptr : Nat} {chain chain' : List State} (hchain : ∀ s ∈ chain, P s)
    (h : tryAllocSize k size chain = some (ptr, chain')) : ∀ s ∈ chain', P s := by
  induction chain generalizing ptr chain' with
  | nil => simp [tryAllocSize] at h
  | cons s rest ih =>
      obtain ⟨hs, hrest⟩ := List.forall_mem_cons.mp hchain
      simp only [tryAllocSize] at h
      split at h
      · cases h
        exact List.forall_mem_cons.mpr ⟨hP.setUsed _ _ _ hs, hrest⟩
      · simp only [Option.map_eq_some_iff, Prod.mk.injEq, Prod.exists] at h
        obtain ⟨ptr', rest', hrest', -, rfl⟩ := h
        exact List.forall_mem_cons.mpr ⟨hs, ih hrest hrest'⟩

theorem forall_popFree {P : State → Prop} (hP : Bootstrap.ListFree P) {k : ChunkKind}
    {chain : List State} {t : Taken} (hchain : ∀ s ∈ chain, P s) (h : popFree k chain = some t) :
    ∀ s ∈ t.chain, P s := by
  obtain ⟨s, chunks, rfl, -, howner⟩ := popFree_eq_some h
  obtain ⟨hbefore, hrest⟩ := List.forall_mem_append.mp hchain
  obtain ⟨hs, hafter⟩ := List.forall_mem_cons.mp hrest
  refine List.forall_mem_append.mpr ⟨hbefore, List.forall_mem_cons.mpr ⟨?_, hafter⟩⟩
  rw [howner]
  exact hP.setFree _ _ _ hs

/-- A State with a free large chunk gives it. -/
theorem popFree_large_singleton {s : State} (h : s.freeLargeChunks ≠ []) :
    ∃ t, popFree .large [s] = some t := by
  obtain ⟨chunk, chunks, hfree⟩ := List.exists_cons_of_ne_nil h
  exact ⟨⟨[], s.setFree chunks .large, chunk, []⟩, by simp [popFree, State.free, hfree]⟩

theorem two_le_length_fromRegion (region : Nat) (first : FirstState) :
    2 ≤ (State.fromRegion region first).freeLargeChunks.length := by
  have hlarge : largeChunksInRegion = 63 := by decide
  simp [State.fromRegion, parseRegion, hlarge]

/-- Extending a chain returns, and the new State has large chunks left. -/
theorem allocNewStateIn_ensures (limit : Bool) (chain : List State) (os : Os) :
    (allocNewStateIn limit chain).Ensures os fun r _ => ∀ chain' next, r = some (chain', next) →
      next.freeLargeChunks ≠ [] ∧ next.firstState = .live := by
  simp only [Machine.Ensures, Machine.Returns, allocNewStateIn]
  split
  · exact ⟨none, _, rfl, by simp⟩
  · next region os₁ hregion =>
      have hlength := two_le_length_fromRegion region .live
      split
      · next ptr chain' htry =>
          refine ⟨_, _, rfl, ?_⟩
          rintro _ _ ⟨⟩
          exact ⟨List.ne_nil_of_length_pos (by simpa using by omega), rfl⟩
      · have hne : (State.fromRegion region .live).freeLargeChunks ≠ [] :=
          List.ne_nil_of_length_pos (by omega)
        obtain ⟨t, ht⟩ := popFree_large_singleton hne
        obtain ⟨s, chunks, hs, hfree, howner⟩ := popFree_eq_some ht
        obtain ⟨-, rfl, -⟩ := by simpa [List.append_eq_cons_iff] using hs.symm
        rw [ht]
        refine ⟨_, _, rfl, ?_⟩
        rintro _ _ ⟨⟩
        simp only [State.free] at hfree
        rw [howner]
        refine ⟨List.ne_nil_of_length_pos ?_, rfl⟩
        simp only [State.cut, State.setFree, State.setUsed]
        rw [hfree, List.length_cons] at hlength
        omega

/-- The `first_state` pointers of a chain that has not been moved. -/
def ChainSettled (chain : List State) : Prop := ∀ s ∈ chain, s.firstState ≠ .moved

theorem listFree_settled : Bootstrap.ListFree fun s => s.firstState ≠ .moved where
  setFree s xs k h := by cases k <;> exact h
  setUsed s xs k h := by cases k <;> exact h

theorem allocNewStateIn_settled {limit : Bool} {chain chain' : List State} {next : State}
    {os os' : Os} (hchain : ChainSettled chain)
    (h : (allocNewStateIn limit chain).Returns os (some (chain', next)) os') :
    ChainSettled chain' := by
  simp only [Machine.Returns, allocNewStateIn] at h
  split at h
  · cases h
  · split at h
    · next ptr chain₁ htry =>
        cases h
        exact forall_tryAllocSize listFree_settled hchain htry
    · split at h
      · cases h
        exact hchain
      · cases h

/-- Getting a large chunk from a settled chain returns and leaves it settled. -/
theorem getFreeLargeChunk_ensures (limit : Bool) {before after : List State} (os : Os)
    (hbefore : ChainSettled before) (hafter : ChainSettled after) :
    (getFreeLargeChunk_ limit before after).Ensures os fun r _ =>
      ∀ t, r = some t → ChainSettled t.chain := by
  unfold getFreeLargeChunk_
  split
  · next t hpop =>
      rw [Machine.ensures_pure]
      rintro _ ⟨⟩
      have ht : ChainSettled t.chain := forall_popFree listFree_settled hafter hpop
      rw [Taken.chain, List.append_assoc]
      exact List.forall_mem_append.mpr ⟨hbefore, ht⟩
  · next hnone =>
      have hlast : (after.getLast?.map State.firstState) ≠ some .moved := by
        intro hmoved
        obtain ⟨s, hs, hs'⟩ := Option.map_eq_some_iff.mp hmoved
        exact hafter s (List.mem_of_getLast? hs) hs'
      rw [if_neg hlast, Machine.ensures_bind]
      refine (allocNewStateIn_ensures limit (before ++ after) os).mono fun r os₁ halloc hnext => ?_
      cases r with
      | none => simp
      | some pair =>
          obtain ⟨chain, next⟩ := pair
          obtain ⟨hlarge, hlive⟩ := hnext chain next rfl
          obtain ⟨t, ht⟩ := popFree_large_singleton hlarge
          have hchain : ChainSettled chain := allocNewStateIn_settled
            (List.forall_mem_append.mpr ⟨hbefore, hafter⟩) halloc
          have hsingle : ChainSettled t.chain :=
            forall_popFree listFree_settled (by simp [hlive]) ht
          simp only [ht, Machine.ensures_pure]
          rintro _ ⟨⟩
          rw [Taken.chain, List.append_assoc]
          exact List.forall_mem_append.mpr ⟨hchain, hsingle⟩

/-- The same for a common chunk. -/
theorem getFreeCommonChunk_ensures (limit : Bool) {chain : List State} (os : Os)
    (hchain : ChainSettled chain) :
    (getFreeCommonChunk limit chain).Ensures os fun r _ =>
      ∀ t, r = some t → ChainSettled t.chain := by
  unfold getFreeCommonChunk
  split
  · next t hpop =>
      rw [Machine.ensures_pure]
      rintro _ ⟨⟩
      exact forall_popFree listFree_settled hchain hpop
  · rw [Machine.ensures_bind]
    refine (getFreeLargeChunk_ensures limit os
      (fun s hs => hchain s (List.dropLast_subset _ hs))
      (fun s hs => hchain s (List.mem_of_mem_drop hs))).mono fun r os₁ _ hsettled => ?_
    cases r with
    | none => simp
    | some t =>
        obtain ⟨hbefore, hrest⟩ := List.forall_mem_append.mp (hsettled t rfl)
        obtain ⟨howner, hafter⟩ := List.forall_mem_cons.mp hrest
        have hput : ∀ chunks chunk, ChainSettled
            { t with owner := t.owner.setFree chunks .common, chunk := chunk : Taken }.chain :=
          fun chunks chunk => List.forall_mem_append.mpr
            ⟨hbefore, List.forall_mem_cons.mpr ⟨howner, hafter⟩⟩
        cases hfree : t.owner.freeCommonChunks with
        | nil =>
            have hlen : commonChunksInLargeChunk = 8 := by decide
            obtain ⟨chunk, chunks, hsplit⟩ :=
              List.exists_cons_of_ne_nil (l := (splitLargeChunkToCommon t.chunk).reverse)
                (List.ne_nil_of_length_pos (by simp [splitLargeChunkToCommon, hlen]))
            simp only [hfree, hsplit, Machine.ensures_pure]
            rintro _ ⟨⟩
            exact hput chunks chunk
        | cons chunk chunks =>
            simp only [hfree, Machine.ensures_bind, Machine.ensures_modify, Machine.ensures_pure]
            rintro _ ⟨⟩
            exact hput chunks chunk

namespace Bootstrap

/-- No call of a settled chain is stopped by a fault. -/
theorem step_returns (c : AllocCall) {b : Bootstrap} (hchain : ChainSettled b.chain) :
    ∃ b', Step b c b' ∧ ChainSettled b'.chain := by
  have hcall : (allocSize c.withCountingLimit c.kind c.size b.chain).Ensures b.os fun r _ =>
      ChainSettled r.2 := by
    unfold allocSize
    split
    · next ptr chain htry =>
        rw [Machine.ensures_pure]
        exact forall_tryAllocSize listFree_settled hchain htry
    · have hget : (getFreeChunk c.withCountingLimit c.kind b.chain).Ensures b.os fun r _ =>
          ∀ t, r = some t → ChainSettled t.chain := by
        cases c.kind with
        | common => exact getFreeCommonChunk_ensures _ _ hchain
        | large => exact getFreeLargeChunk_ensures _ _ (by simp [ChainSettled]) hchain
      rw [allocSizeSlow, Machine.ensures_bind]
      refine hget.mono fun r os₁ _ hsettled => ?_
      cases r with
      | none => simpa using hchain
      | some t =>
          obtain ⟨hbefore, hrest⟩ := List.forall_mem_append.mp (hsettled t rfl)
          obtain ⟨howner, hafter⟩ := List.forall_mem_cons.mp hrest
          simp only [Machine.ensures_pure]
          exact List.forall_mem_append.mpr ⟨hbefore, List.forall_mem_cons.mpr
            ⟨listFree_settled.setUsed _ _ _ howner, hafter⟩⟩
  obtain ⟨r, os', hreturns, hsettled⟩ := hcall
  exact ⟨⟨os', r.2⟩, ⟨r.1, hreturns⟩, hsettled⟩

end Bootstrap

/-! ## A run that loses a chunk -/

namespace Bootstrap

/-- After these calls the lists of the second State cover 503 units only. -/
theorem exhaustingCalls_lose_chunk :
    ∃ b, Run Step (start twoRegions regionSize) exhaustingCalls b ∧ ¬ ChainExact b.chain := by
  have hshort : (exhaustingCalls.foldlM next (start twoRegions regionSize)).any
      (fun b => b.chain.any fun s => s.units.length = 503) = true := by decide +kernel
  cases hcalls : exhaustingCalls.foldlM next (start twoRegions regionSize) with
  | none => simp [hcalls] at hshort
  | some b =>
      refine ⟨b, Run.of_foldlM (fun _ _ _ => step_of_next) hcalls, fun hexact => ?_⟩
      simp only [hcalls, Option.any_some, List.any_eq_true, decide_eq_true_eq] at hshort
      obtain ⟨s, hs, hlength⟩ := hshort
      have hunits := (hexact s hs).length_eq
      rw [hlength, regionUnits, List.length_map, List.length_range] at hunits
      exact absurd hunits (by decide)

end Bootstrap

end Memalart
