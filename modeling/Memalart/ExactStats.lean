/-
# When the statistics are exact

The number of objects in use that the statistics report for a class is exact if and only
if the remainders of all chunks of the class are together less than one object.  It then
also agrees with what the allocator has counted for itself, once nothing of the callers
is alive, and the destructor releases everything.  With two chunks of 90 112 bytes the
number is already wrong.
-/

import Memalart.ObjectCounts

namespace Memalart

open Memalart.Lib ThreadLocalAllocator

variable {P : Params}

namespace World

/-- The bytes of a class that its chunks are too short for are less than one object. -/
def Unrounded (w : World P) : Prop :=
  ∀ s : Slot, (w.inner.chunkTable s).len * (s.chunkSize % s.realSize) < s.realSize

/-- Every item of a class reports how many objects are out: of all slots of its chunks,
those that are not in the free vector. -/
def ReportsOut (w : World P) : Prop :=
  ∃ infos, w.iterAllocatedSize = some infos ∧ ∀ item ∈ infos, item.1 ≠ .extraLarge →
    ∃ s : Slot, item.2.sizeOfElem = s.realSize ∧
      item.2.objectsUsed + (w.inner.objectTable s).len =
        (w.inner.chunkTable s).len * s.slotsPerChunk

/-- Every item of a class reports that only the allocator itself uses objects. -/
def ReportsOwn (w : World P) : Prop :=
  ∃ infos, w.iterAllocatedSize = some infos ∧ ∀ item ∈ infos, item.1 ≠ .extraLarge →
    item.2.objectsUsed = item.2.allocatedForSelfObjects

/-- No extra-large block is alive, and the allocator has none for itself. -/
def NoExtraLarge (w : World P) : Prop :=
  P.tree.entries w.inner.allocatedLargeSizes = [] ∧ w.NoExtraLargeBuffer

/-- The kernel grants the buffer for the addresses of the regions. -/
def GrantsBuffer (w : World P) : Prop :=
  w.os.takeReply.2.Fresh w.os.takeReply.1 (max w.inner.regions.len 4 * 8) pageSize

/-- The destructor answers `Ok`, and has released everything. -/
structure ReleasesAll (w : World P) : Prop where
  answer : ∀ depth fuel freed w',
    (tryFreeAllMemory (threadLocalAllocator depth) fuel).Returns w freed w' →
      freed = true ∧ KeepsItsWord (threadLocalAllocator depth) w true w'
  /-- It does answer, once a chunk has been cut. -/
  answers : ∀ s : Slot, (w.inner.chunkTable s).elems ≠ [] → w.GrantsBuffer →
    ∀ depth, ∃ rounds, ∀ fuel, rounds < fuel →
      (tryFreeAllMemory (threadLocalAllocator depth) fuel).Ensures w fun answer _ => answer = true

/-! ## One class -/

/-- Dividing all bytes at once gives as many objects as there are slots exactly if the
remainders do not make up another one. -/
theorem mul_div_eq_iff (n chunk : Nat) {size : Nat} (hsize : 0 < size) :
    n * chunk / size = n * (chunk / size) ↔ n * (chunk % size) < size := by
  have hsplit : n * chunk = n * (chunk % size) + size * (n * (chunk / size)) := by
    conv_lhs => rw [← Nat.mod_add_div chunk size]
    rw [Nat.mul_add, Nat.mul_left_comm]
  rw [hsplit, Nat.add_mul_div_left _ _ hsize, Nat.add_eq_right, Nat.div_eq_zero_iff]
  omega

/-- What the statistics report for a class whose chunks fit into the address space. -/
theorem infoForSize_objectsUsed (w : World P) (arr : UsedObjects) (s : Slot)
    (hfree : (w.inner.objectTable s).len ≤ (w.inner.chunkTable s).len * s.slotsPerChunk)
    (hfit : (w.inner.chunkTable s).len * s.chunkSize ≤ usizeRange) :
    (w.infoForSize arr s).objectsUsed + (w.inner.objectTable s).len =
      (w.inner.chunkTable s).len * s.chunkSize / s.realSize := by
  have hle : (w.inner.chunkTable s).len * s.slotsPerChunk ≤
      (w.inner.chunkTable s).len * s.chunkSize / s.realSize :=
    Nat.mul_div_le_mul_div_assoc _ _ _
  have hlt : (w.inner.chunkTable s).len * s.chunkSize / s.realSize < usizeRange := by
    refine (Nat.div_le_div hfit s.bounds.1 (by decide)).trans_lt ?_
    decide
  simp only [infoForSize, Nat.mul_comm s.chunkSize]
  generalize (w.inner.chunkTable s).len * s.chunkSize / s.realSize = objects at hle hlt ⊢
  have hwrap : objects + (usizeRange - (w.inner.objectTable s).len) =
      objects - (w.inner.objectTable s).len + usizeRange := by omega
  rw [hwrap, Nat.add_mod_right, Nat.mod_eq_of_lt (by omega)]
  omega

end World

/-! ## Sessions -/

namespace Session

variable {s : Session P} {calls : List Call}

/-- Between two calls the allocator is at rest, no iterator is alive, and nobody has
destructed it. -/
theorem Reached.atRest (h : Reached calls s) : s.world.AtRest ∧
    s.world.inner.isBorrowedForUnknownTime = false ∧
    s.world.inner.isAlreadyDestructured = false := by
  have hcall : ∀ {α : Type} {x : M P α} {r : α} {w w' : World P}, w.AtRest →
      ((tableDiscipline P false).Triple 0 x fun _ => 0) → x.Returns w r w' →
      w.inner.isBorrowedForUnknownTime = false ∧ w.inner.isAlreadyDestructured = false →
      w'.AtRest ∧ w'.inner.isBorrowedForUnknownTime = false ∧
        w'.inner.isAlreadyDestructured = false := by
    rintro α x r w w' hw hx hret ⟨hborrowed, halive⟩
    have hadvances := (step_of_orderly hx hw.orderly
      (fun k hk => absurd hk (Multiset.notMem_zero k)) hret).2.1
    exact ⟨Public.atRest_of_triple hx hw hret, hadvances.borrowed.trans hborrowed,
      hadvances.alive halive⟩
  obtain ⟨replies, hrun⟩ := reached_iff.mp h
  refine hrun.invariant (I := fun s => s.world.AtRest ∧
    s.world.inner.isBorrowedForUnknownTime = false ∧
    s.world.inner.isAlreadyDestructured = false) (fun s c s' hrest hstep => ?_)
    ⟨Public.atRest_new _, rfl, rfl⟩
  cases hstep with
  | served depth hret =>
      exact hcall hrest.1 (tryAlloc_orderly (keepsOrder_threadLocalAllocator depth) _) hret hrest.2
  | refused depth hret =>
      exact hcall hrest.1 (tryAlloc_orderly (keepsOrder_threadLocalAllocator depth) _) hret hrest.2
  | freed depth hlive hret =>
      exact hcall hrest.1 (dealloc_orderly (keepsOrder_threadLocalAllocator depth) _ _) hret hrest.2
  | trimmed k hret => exact hcall hrest.1 (Public.freeNext_orderly k) hret hrest.2
  | outside limit allocated => exact ⟨Public.atRest_of_inner hrest.1 rfl, hrest.2⟩

theorem Reached.infoForSize (h : Reached calls s) (hstored : s.world.os.NoStateStored)
    (arr : UsedObjects) (slot : Slot) :
    (s.world.infoForSize arr slot).objectsUsed + (s.world.inner.objectTable slot).len =
      (s.world.inner.chunkTable slot).len * slot.chunkSize / slot.realSize := by
  obtain ⟨lost, hbalance, -⟩ := h.balance hstored slot
  exact s.world.infoForSize_objectsUsed arr slot (by omega) (h.chunks_le slot)

/-- One class is reported exactly if its remainders are less than an object. -/
theorem Reached.infoForSize_iff (h : Reached calls s) (hstored : s.world.os.NoStateStored)
    (arr : UsedObjects) (slot : Slot) :
    (s.world.infoForSize arr slot).objectsUsed + (s.world.inner.objectTable slot).len =
        (s.world.inner.chunkTable slot).len * slot.slotsPerChunk ↔
      (s.world.inner.chunkTable slot).len * (slot.chunkSize % slot.realSize) < slot.realSize := by
  rw [h.infoForSize hstored]
  exact World.mul_div_eq_iff _ _ slot.realSize_pos

end Session

namespace World

variable {w : World P} {arr : UsedObjects} {infos : List (SizeClass × InfoForSize)}

theorem mem_infoForKind {k : ChunkKind} {info : InfoForSize} :
    info ∈ w.infoForKind arr k ↔
      ∃ s : Slot, s.kind = k ∧ chunkTableBox k w ≠ none ∧ info = w.infoForSize arr s := by
  unfold World.infoForKind
  cases chunkTableBox k w with
  | none => simp
  | some ptr =>
      rw [List.mem_map]
      constructor
      · rintro ⟨s, hs, rfl⟩
        exact ⟨s, kind_of_mem_slots hs, Option.some_ne_none ptr, rfl⟩
      · rintro ⟨s, rfl, -, rfl⟩
        exact ⟨s, ChunkKind.mem_slots s, rfl⟩

/-- The items of classes are those of the classes whose chunk table exists. -/
theorem exists_slot_of_mem (harr : w.allocatedForSelf = some arr)
    (hinfos : w.iterAllocatedSize = some infos) {item : SizeClass × InfoForSize}
    (hitem : item ∈ infos) (hclass : item.1 ≠ .extraLarge) :
    ∃ s : Slot, item.2 = w.infoForSize arr s := by
  rw [iterAllocatedSize, harr, Option.map_some, Option.some.injEq] at hinfos
  rw [← hinfos] at hitem
  rcases List.mem_append.mp hitem with hitem | hitem
  · rcases List.mem_append.mp hitem with hitem | hitem
    · obtain ⟨info, hinfo, rfl⟩ := List.mem_map.mp hitem
      obtain ⟨s, -, -, rfl⟩ := mem_infoForKind.mp hinfo
      exact ⟨s, rfl⟩
    · obtain ⟨info, hinfo, rfl⟩ := List.mem_map.mp hitem
      obtain ⟨s, -, -, rfl⟩ := mem_infoForKind.mp hinfo
      exact ⟨s, rfl⟩
  · obtain ⟨e, -, rfl⟩ := List.mem_map.mp hitem
    exact absurd rfl hclass

theorem exists_mem_of_box (harr : w.allocatedForSelf = some arr)
    (hinfos : w.iterAllocatedSize = some infos) {s : Slot} (hbox : chunkTableBox s.kind w ≠ none) :
    ∃ item ∈ infos, item.1 ≠ .extraLarge ∧ item.2 = w.infoForSize arr s := by
  rw [iterAllocatedSize, harr, Option.map_some, Option.some.injEq] at hinfos
  rw [← hinfos]
  have hinfo : w.infoForSize arr s ∈ w.infoForKind arr s.kind :=
    mem_infoForKind.mpr ⟨s, rfl, hbox, rfl⟩
  cases hkind : s.kind with
  | common =>
      rw [hkind] at hinfo
      exact ⟨_, List.mem_append_left _ (List.mem_append_left _ (List.mem_map_of_mem hinfo)),
        SizeClass.noConfusion, rfl⟩
  | large =>
      rw [hkind] at hinfo
      exact ⟨_, List.mem_append_left _ (List.mem_append_right _ (List.mem_map_of_mem hinfo)),
        SizeClass.noConfusion, rfl⟩

end World

namespace Session

variable {s : Session P} {calls : List Call}

theorem Reached.reportsOut_iff (h : Reached calls s) (hstored : s.world.os.NoStateStored) :
    s.world.ReportsOut ↔ s.world.Unrounded := by
  obtain ⟨arr, harr⟩ := h.atRest.1.orderly.allocatedForSelf
  constructor
  · rintro ⟨infos, hinfos, hreports⟩ slot
    by_cases hbox : chunkTableBox slot.kind s.world = none
    · have hnew := h.books.1.formed.boxes slot.kind hbox slot rfl
      rw [hnew]
      exact (Nat.zero_mul _).trans_lt slot.realSize_pos
    · obtain ⟨item, hitem, hclass, heq⟩ := World.exists_mem_of_box harr hinfos hbox
      obtain ⟨t, hsize, hused⟩ := hreports item hitem hclass
      rw [heq] at hsize hused
      obtain rfl : slot = t := Slot.realSize_injective hsize
      exact (h.infoForSize_iff hstored arr slot).mp hused
  · intro hunrounded
    obtain ⟨infos, hinfos⟩ : ∃ infos, s.world.iterAllocatedSize = some infos :=
      ⟨_, by rw [World.iterAllocatedSize, harr, Option.map_some]⟩
    refine ⟨infos, hinfos, fun item hitem hclass => ?_⟩
    obtain ⟨slot, heq⟩ := World.exists_slot_of_mem harr hinfos hitem hclass
    rw [heq]
    exact ⟨slot, rfl, (h.infoForSize_iff hstored arr slot).mpr (hunrounded slot)⟩

/-- What is out once the callers have freed everything is what the allocator counts for
itself. -/
theorem Reached.reportsOwn (h : Reached calls s) (hstored : s.world.os.NoStateStored)
    (hcut : s.world.os.NoChunkLeftUncut) (hunrounded : s.world.Unrounded) (hlive : s.live = []) :
    s.world.ReportsOwn ∧ ¬ s.world.InUse := by
  obtain ⟨arr, harr⟩ := h.atRest.1.orderly.allocatedForSelf
  have hown : ∀ slot, (s.world.infoForSize arr slot).objectsUsed = arr.find slot.realSize := by
    intro slot
    obtain ⟨lost, hbalance, hlost⟩ := h.balance hstored slot
    have hused := (h.infoForSize_iff hstored arr slot).mpr (hunrounded slot)
    obtain ⟨hsorted, htotal⟩ := UsedObjects.writeAll_spec List.Pairwise.nil harr
    have hfind : arr.find slot.realSize =
        UsedObjects.total slot.realSize s.world.selfAllocatedSizes := by
      rw [UsedObjects.find_eq_total hsorted, htotal _ (Nat.ne_of_gt slot.realSize_pos),
        UsedObjects.total, Nat.zero_add]
    rw [hlost hcut, hlive, held_nil, countIn_zero] at hbalance
    omega
  obtain ⟨infos, hinfos⟩ : ∃ infos, s.world.iterAllocatedSize = some infos :=
    ⟨_, by rw [World.iterAllocatedSize, harr, Option.map_some]⟩
  refine ⟨⟨infos, hinfos, fun item hitem hclass => ?_⟩, ?_⟩
  · obtain ⟨slot, heq⟩ := World.exists_slot_of_mem harr hinfos hitem hclass
    rw [heq, hown slot]
    rfl
  · rintro ⟨arr', harr', k, info, hinfo, hne⟩
    obtain rfl := Option.some.inj (harr.symm.trans harr')
    obtain ⟨slot, -, -, rfl⟩ := World.mem_infoForKind.mp hinfo
    exact hne (hown slot)

end Session

/-! ## Releasing everything -/

namespace World

variable {w : World P}

theorem GrantsBuffer.record (h : w.GrantsBuffer) (e : Event) :
    (w.setOs (w.os.record e)).GrantsBuffer := by
  obtain ⟨inner, ⟨limit, allocated, accesses, mappings, metadata, replies, log⟩, states, incoming,
    outbox, busy⟩ := w
  cases replies with
  | nil => exact h
  | cons reply rest => exact h

theorem GrantsBuffer.ensures_vecInOs (h : w.GrantsBuffer) :
    (vecInOs w.inner.regions.elems.reverse.length).Ensures w fun _ _ => True := by
  unfold vecInOs
  split
  · exact Machine.ensures_pure.mpr trivial
  · rw [Machine.ensures_bind]
    refine ⟨_, _, rfl, ?_⟩
    have hfresh : w.os.takeReply.2.Fresh w.os.takeReply.1
        (max w.inner.regions.elems.reverse.length 4 * 8) pageSize := by
      rw [List.length_reverse]
      exact h
    simp only [Os.mmap, if_pos hfresh]
    exact Machine.ensures_pure.mpr trivial

theorem ensures_deallocRegions (regions : List RegionView) (w : World P) :
    (Machine.forEach regions fun view => onOs fun os =>
      ((), os.deallocRegion view.ptr) : M P Unit).Ensures w fun _ _ => True := by
  induction regions generalizing w with
  | nil => exact Machine.ensures_pure.mpr trivial
  | cons view rest ih =>
      rw [Machine.forEach, Machine.ensures_bind]
      exact ⟨(), _, rfl, ih _⟩

/-- Everything is released when the kernel grants the buffer. -/
theorem GrantsBuffer.ensures_freeAllMemory (h : w.GrantsBuffer) :
    freeAllMemory.Ensures w fun _ _ => True := by
  simp only [freeAllMemory, forceBecomeNull, Machine.ensures_bind, Machine.ensures_modify,
    Machine.ensures_gets]
  have hbuffer : ((w.setVec .freeCommonChunks .new).setVec .freeLargeChunks .new).GrantsBuffer := h
  refine hbuffer.ensures_vecInOs.mono fun buffer w₁ _ _ => ?_
  refine (ensures_deallocRegions _ w₁).mono fun _ w₂ _ _ => ?_
  cases buffer with
  | none => exact Machine.ensures_pure.mpr trivial
  | some b => exact ⟨(), _, rfl, trivial⟩

theorem ensures_getOrInitManager (A : AllocatorForSelfAllocations P) {m : Nat}
    (hm : w.inner.nonLocalPtrManager = some m) :
    (getOrInitManager A false).Ensures w fun _ w' => w' = w := by
  unfold getOrInitManager
  rw [if_neg Bool.false_ne_true, managerPtr, Machine.ensures_bind, Machine.ensures_gets, hm]
  exact Machine.ensures_pure.mpr rfl

/-- With a manager, the destructor of an allocator that nobody uses comes to an end. -/
theorem AtRest.ensures_tryFreeAllMemory (h : w.AtRest) (A : AllocatorForSelfAllocations P)
    (hborrowed : w.inner.isBorrowedForUnknownTime = false)
    (halive : w.inner.isAlreadyDestructured = false) (huse : ¬ w.InUse)
    (hempty : P.tree.entries w.inner.allocatedLargeSizes = [])
    (hmanager : w.inner.nonLocalPtrManager ≠ none) (hgrants : w.GrantsBuffer) :
    ∃ rounds, ∀ fuel, rounds < fuel →
      (tryFreeAllMemory A fuel).Ensures w fun answer _ => answer = true := by
  obtain ⟨arr, harr⟩ := h.orderly.allocatedForSelf
  obtain ⟨m, hm⟩ := Option.ne_none_iff_exists'.mp hmanager
  refine ⟨(w.itemsAhead arr (InfoForSizeIter.start w arr).currIter).length, fun fuel hfuel => ?_⟩
  have hscan : scan (InfoForSizeIter.next w) .outOfFuel verdict fuel (InfoForSizeIter.start w arr) =
      .ok ((w.itemsAhead arr (InfoForSizeIter.start w arr).currIter).findSome? verdict) :=
    (h.validIter arr).yields.scan .outOfFuel verdict hfuel
  have hnone : (w.itemsAhead arr (InfoForSizeIter.start w arr).currIter).findSome? verdict = none := by
    rcases h.decides_scan harr hscan with ⟨hused, -⟩ | ⟨-, hne, -⟩ | ⟨-, -, hnone⟩
    · exact absurd hused huse
    · exact absurd hempty hne
    · exact hnone
  unfold tryFreeAllMemory
  rw [Machine.ensures_bind, Machine.ensures_get, if_neg (ne_true_of_eq_false halive),
    if_neg (ne_true_of_eq_false hborrowed), Machine.ensures_bind]
  refine ⟨InfoForSizeIter.start w arr, w.setBorrowed true,
    returns_newInfoForSizeIter.mpr ⟨arr, harr, rfl, rfl⟩, ?_⟩
  dsimp only
  rw [hscan, hnone]
  dsimp only
  rw [Machine.ensures_bind]
  refine ⟨(), w, Machine.returns_modify.mpr (setBorrowed_setBorrowed hborrowed).symm, ?_⟩
  simp only [destroy, record, Machine.ensures_bind, Machine.ensures_modify, Machine.ensures_pure]
  refine (ensures_getOrInitManager A hm).mono fun _ w₁ _ hw₁ => ?_
  subst hw₁
  have hrecorded : (w₁.setOs (w₁.os.record .managerDropped)).GrantsBuffer := hgrants.record _
  exact hrecorded.ensures_freeAllMemory.mono fun _ _ _ _ => trivial

end World

namespace Session

variable {s : Session P} {calls : List Call}

/-- In every state that is reached without storing a State, the statistics are exact if and
only if the remainders of each class are less than an object.  If besides no chunk was left
uncut, then once nothing of the callers is alive only the allocator uses objects, and the
destructor releases everything. -/
theorem statistics_exact (h : Reached calls s) (hstored : s.world.os.NoStateStored) :
    (s.world.ReportsOut ↔ s.world.Unrounded) ∧
      (s.world.Unrounded → s.world.os.NoChunkLeftUncut → s.live = [] → s.world.NoExtraLarge →
        s.world.ReportsOwn ∧ s.world.ReleasesAll) := by
  refine ⟨h.reportsOut_iff hstored, fun hunrounded hcut hlive hextra => ?_⟩
  obtain ⟨hrest, hborrowed, halive⟩ := h.atRest
  obtain ⟨hown, huse⟩ := h.reportsOwn hstored hcut hunrounded hlive
  refine ⟨hown, fun depth fuel freed w' hret => ?_, fun slot hchunk hgrants depth => ?_⟩
  · have hkeeps := (hrest.keepsItsWord hret).1 (.inr hextra)
    obtain ⟨-, -, ⟨hused, -⟩ | ⟨-, hne, -⟩ | ⟨-, -, rfl, -⟩⟩ := hrest.returns_tryFreeAllMemory hret
    · exact absurd hused huse
    · exact absurd hextra.1 hne
    · exact ⟨rfl, hkeeps⟩
  · exact hrest.ensures_tryFreeAllMemory _ hborrowed halive huse hextra.1
      (h.manager_ne_none hcut hchunk) hgrants

/-- A block of 24 bytes is allocated and freed, and the destructor releases everything. -/
theorem statistics_exact_freed : ∃ s : Session lockFreeParams,
    Reached [.served ⟨164036568, 24⟩, .freed ⟨164036568, 24⟩] s ∧
      s.world.ReportsOut ∧ s.world.ReportsOwn ∧ s.world.ReleasesAll := by
  have hrun : trial 4 (fun calls s =>
      calls = [.served ⟨164036568, 24⟩, .freed ⟨164036568, 24⟩] && s.live = [] &&
      s.world.os.log = [.mapped 134217728 33554432] &&
      (Slot.inOrder.all fun slot => (s.world.inner.chunkTable slot).len *
        (slot.chunkSize % slot.realSize) < slot.realSize) &&
      (VecId.inOrder.all fun v => (s.world.vec v).cap * v.elemSize ≤ largeSizeMax) &&
      lockFreeParams.tree.entries s.world.inner.allocatedLargeSizes = [])
      [.tryAlloc 24, .dealloc ⟨164036568, 24⟩] [] freshAllocator = true := by
    decide +kernel
  obtain ⟨calls, s, hreached, hcheck⟩ := reached_of_trial (reached_initial [⟨0, 134217728⟩]) hrun
  simp only [Bool.and_eq_true, decide_eq_true_eq, List.all_eq_true] at hcheck
  obtain ⟨⟨⟨⟨⟨rfl, hlive⟩, hlog⟩, hremainders⟩, hbuffers⟩, hentries⟩ := hcheck
  have hunrounded : s.world.Unrounded := fun slot => hremainders slot slot.mem_inOrder
  have hextra : s.world.NoExtraLarge := ⟨hentries, fun v => hbuffers v v.mem_inOrder⟩
  have hexact := statistics_exact hreached fun p hp => by simp [hlog] at hp
  exact ⟨s, hreached, hexact.1.mpr hunrounded,
    hexact.2 hunrounded (fun c hc => by simp [hlog] at hc) hlive hextra⟩

/-- The second chunk of the class of 26 624 bytes, of which 20 blocks are allocated, makes
up an object that does not exist. -/
theorem not_reportsOut_twenty : ¬ ∀ (calls : List Call) (s : Session lockFreeParams),
    Reached calls s → (∀ c ∈ calls, c.Succeeds) → s.world.ReportsOut := by
  intro hclaim
  have hrun : trial 4 (fun calls s => (calls.all fun c => c.Succeeds) &&
      s.world.os.log = [.largeChunkCut 162529280, .largeChunkCut 167247872,
        .mapped 134217728 33554432] &&
      Slot.inOrder.any fun slot => slot.realSize ≤ (s.world.inner.chunkTable slot).len *
        (slot.chunkSize % slot.realSize))
      (List.replicate 20 (.tryAlloc 26624)) [] freshAllocator = true := by
    decide +kernel
  obtain ⟨calls, s, hreached, hcheck⟩ := reached_of_trial (reached_initial [⟨0, 134217728⟩]) hrun
  simp only [Bool.and_eq_true, List.all_eq_true, List.any_eq_true, decide_eq_true_eq] at hcheck
  obtain ⟨⟨hsucceeds, hlog⟩, slot, -, hrounded⟩ := hcheck
  have hreports := hclaim calls s hreached hsucceeds
  have hunrounded := (hreached.reportsOut_iff fun p hp => by simp [hlog] at hp).mp hreports
  exact absurd (hunrounded slot) (Nat.not_lt.mpr hrounded)

end Session

end Memalart
