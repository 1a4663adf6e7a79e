/-
# The destructor

`try_free_all_memory` walks through the statistics, and frees all regions if every object
that has been cut is free again or belongs to the allocator itself.  Extra-large blocks do
not live in the regions; the walk reaches them last, and the first of them ends it with
the answer that everything has been freed.
-/

import Memalart.StatsIter

namespace Memalart

open Memalart.Lib ThreadLocalAllocator

variable {P : Params}

/-- What one item of the statistics decides: an extra-large size says that all is freed, a
class with an object that is still in use that it is not. -/
def verdict (item : SizeClass × InfoForSize) : Option Bool :=
  if item.1 = .extraLarge then some true
  else if item.2.objectsUsed = item.2.allocatedForSelfObjects then none
  else some false

/-- `set_deallocated`, and the registration that `try_free_all_memory` takes back.  The list
of the manager was in the memory of the allocator. -/
def World.setDeallocated (w : World P) : World P :=
  { w with inner := { ThreadLocalAllocatorInner.new with isAlreadyDestructured := true }
           incoming := [] }

namespace ThreadLocalAllocator

/-- `force_become_null` of a vector. -/
def forceBecomeNull (v : VecId) : M P Unit := Machine.modify fun w => w.setVec v .new

/-- `reserve` of a new `VecInOs` of pointers, which asks the operating system directly. -/
def vecInOs (required : Nat) : M P (Option (Nat × Nat)) :=
  if required = 0 then pure none
  else do
    let size := max required 4 * 8
    match ← onOs fun os => os.takeReply.2.mmap os.takeReply.1 size pageSize with
    | some ptr => pure (some (ptr, size))
    | none => Machine.fault (.panic "allocation failed")

/-- `free_all_memory` of the chunk manager. -/
def freeAllMemory : M P Unit := do
  forceBecomeNull .freeCommonChunks
  forceBecomeNull .freeLargeChunks
  let regions ← Machine.gets fun w => w.inner.regions.elems.reverse
  let buffer ← vecInOs regions.length
  Machine.forEach regions fun view => onOs fun os => ((), os.deallocRegion view.ptr)
  forceBecomeNull .regions
  match buffer with
  | none => pure ()
  | some (ptr, size) => onOs fun os => ((), os.munmap ptr size)

variable (A : AllocatorForSelfAllocations P)

/-- What follows when nothing is in use: the manager is dropped, even if it has to be set
up first, and everything is forgotten. -/
def destroy : M P Unit := do
  let _ ← getOrInitManager A false
  record .managerDropped
  freeAllMemory
  Machine.modify World.setDeallocated

/-- `try_free_all_memory`: whether the answer is `Ok`. -/
def tryFreeAllMemory (fuel : Nat) : M P Bool := do
  let w ← Machine.get
  if w.inner.isAlreadyDestructured then
    Machine.fault (.panic "assertion failed: !self.is_already_destructured()")
  else if w.inner.isBorrowedForUnknownTime then
    Machine.fault (.panic "trying to free memory while the allocator is borrowed (probably for the statistic iterator)")
  else do
    let it ← newInfoForSizeIter
    match scan (InfoForSizeIter.next w) .outOfFuel verdict fuel it with
    | .error e => Machine.fault e
    | .ok (some answer) => do
      dropInfoForSizeIter
      pure answer
    | .ok none => do
      dropInfoForSizeIter
      destroy A
      pure true

/-- `destructor` in its own thread: what cannot be freed moves to another thread, and the
answer is whether it does. -/
def destructor (panicking : Bool) (fuel : Nat) : M P Bool := do
  let w ← Machine.get
  if panicking || w.inner.isAlreadyDestructured then pure false
  else do
    let freed ← tryFreeAllMemory A fuel
    if freed then pure false
    else do
      Machine.modify World.setDeallocated
      pure true

end ThreadLocalAllocator

/-! ## What the destructor decides -/

namespace World

variable {w w' : World P} {A : AllocatorForSelfAllocations P} {fuel : Nat} {answer : Bool}

/-- An object of some class is in use, as the statistics count it. -/
def InUse (w : World P) : Prop :=
  ∃ arr, w.allocatedForSelf = some arr ∧ ∃ k, ∃ info ∈ w.infoForKind arr k,
    info.objectsUsed ≠ info.allocatedForSelfObjects

/-- What the walk comes to: the classes have their say before the extra-large sizes. -/
def Decides (used : Prop) (entries : List (Nat × Nat)) (r : Option Bool) : Prop :=
  (used ∧ r = some false) ∨ (¬ used ∧ entries ≠ [] ∧ r = some true) ∨
    (¬ used ∧ entries = [] ∧ r = none)

theorem decides_findSome? (arr : UsedObjects) (entries : List (Nat × Nat))
    {classes : List (SizeClass × InfoForSize)} (hclasses : ∀ item ∈ classes, item.1 ≠ .extraLarge) :
    Decides (∃ item ∈ classes, item.2.objectsUsed ≠ item.2.allocatedForSelfObjects) entries
      ((classes ++ entries.map fun e =>
        (SizeClass.extraLarge, infoForExtraLarge arr e)).findSome? verdict) := by
  induction classes with
  | nil =>
      cases entries with
      | nil => exact .inr (.inr ⟨by simp, rfl, rfl⟩)
      | cons e rest => exact .inr (.inl ⟨by simp, List.cons_ne_nil _ _, rfl⟩)
  | cons item rest ih =>
      obtain ⟨hitem, hrest⟩ := List.forall_mem_cons.mp hclasses
      rw [List.cons_append, List.findSome?_cons]
      by_cases hused : item.2.objectsUsed = item.2.allocatedForSelfObjects
      · have hnone : verdict item = none := by rw [verdict, if_neg hitem, if_pos hused]
        have hiff : (∃ x ∈ item :: rest, x.2.objectsUsed ≠ x.2.allocatedForSelfObjects) ↔
            ∃ x ∈ rest, x.2.objectsUsed ≠ x.2.allocatedForSelfObjects := by
          simp only [List.exists_mem_cons_iff, ne_eq, hused, not_true_eq_false, false_or]
        rw [hnone, hiff]
        exact ih hrest
      · have hsome : verdict item = some false := by rw [verdict, if_neg hitem, if_neg hused]
        rw [hsome]
        exact .inl ⟨⟨item, List.mem_cons_self, hused⟩, rfl⟩

/-- The walk of the destructor, however much fuel it has. -/
theorem AtRest.decides_scan (h : w.AtRest) {arr : UsedObjects}
    (harr : w.allocatedForSelf = some arr) {r : Option Bool}
    (hscan : scan (InfoForSizeIter.next w) .outOfFuel verdict fuel (InfoForSizeIter.start w arr) =
      .ok r) : Decides w.InUse (P.tree.entries w.inner.allocatedLargeSizes) r := by
  have hitems := h.itemsAhead_start harr
  rw [iterAllocatedSize, harr, Option.map_some] at hitems
  have hr : r = _ := (h.validIter arr).yields.scan_eq hscan
  change r = (w.itemsAhead arr (InfoForSizeIter.start w arr).currIter).findSome? verdict at hr
  rw [← Option.some.inj hitems] at hr
  have hclasses : ∀ item ∈ (w.infoForKind arr .common).map (SizeClass.common, ·) ++
      (w.infoForKind arr .large).map (SizeClass.large, ·), item.1 ≠ .extraLarge := by
    intro item hitem
    rcases List.mem_append.mp hitem with hitem | hitem
    · obtain ⟨info, -, rfl⟩ := List.mem_map.mp hitem
      exact SizeClass.noConfusion
    · obtain ⟨info, -, rfl⟩ := List.mem_map.mp hitem
      exact SizeClass.noConfusion
  have hdecides := decides_findSome? arr (P.tree.entries w.inner.allocatedLargeSizes) hclasses
  rw [← hr] at hdecides
  have huse : (∃ item ∈ (w.infoForKind arr .common).map (SizeClass.common, ·) ++
      (w.infoForKind arr .large).map (SizeClass.large, ·),
        item.2.objectsUsed ≠ item.2.allocatedForSelfObjects) ↔ w.InUse := by
    constructor
    · rintro ⟨item, hitem, hne⟩
      rcases List.mem_append.mp hitem with hitem | hitem
      · obtain ⟨info, hinfo, rfl⟩ := List.mem_map.mp hitem
        exact ⟨arr, harr, .common, info, hinfo, hne⟩
      · obtain ⟨info, hinfo, rfl⟩ := List.mem_map.mp hitem
        exact ⟨arr, harr, .large, info, hinfo, hne⟩
    · rintro ⟨arr', harr', k, info, hinfo, hne⟩
      obtain rfl := Option.some.inj (harr'.symm.trans harr)
      cases k with
      | common => exact ⟨_, List.mem_append.mpr (.inl (List.mem_map_of_mem hinfo)), hne⟩
      | large => exact ⟨_, List.mem_append.mpr (.inr (List.mem_map_of_mem hinfo)), hne⟩
  rwa [huse] at hdecides

theorem setBorrowed_setBorrowed (h : w.inner.isBorrowedForUnknownTime = false) :
    (w.setBorrowed true).setBorrowed false = w := by
  obtain ⟨inner, os, states, incoming, outbox, busy⟩ := w
  obtain ⟨manager, objects, common, large, chunks, freeLarge, freeCommon, regions, tree, borrowed,
    destructured, registered⟩ := inner
  obtain rfl : borrowed = false := h
  rfl

/-- The destructor only looks, or it destroys everything. -/
theorem AtRest.returns_tryFreeAllMemory (h : w.AtRest)
    (hret : (tryFreeAllMemory A fuel).Returns w answer w') :
    w.inner.isAlreadyDestructured = false ∧ w.inner.isBorrowedForUnknownTime = false ∧
      ((w.InUse ∧ answer = false ∧ w' = w) ∨
        (¬ w.InUse ∧ P.tree.entries w.inner.allocatedLargeSizes ≠ [] ∧ answer = true ∧ w' = w) ∨
        (¬ w.InUse ∧ P.tree.entries w.inner.allocatedLargeSizes = [] ∧ answer = true ∧
          (destroy A).Returns w () w')) := by
  unfold tryFreeAllMemory at hret
  obtain ⟨w₀, w₁, hget, hrun⟩ := Machine.returns_bind.mp hret
  obtain ⟨rfl, rfl⟩ := Machine.returns_get.mp hget
  clear hret
  cases hdestructured : w₁.inner.isAlreadyDestructured with
  | true =>
      rw [if_pos hdestructured] at hrun
      exact absurd hrun Machine.not_returns_fault
  | false =>
      rw [if_neg (ne_true_of_eq_false hdestructured)] at hrun
      cases hborrowed : w₁.inner.isBorrowedForUnknownTime with
      | true =>
          rw [if_pos hborrowed] at hrun
          exact absurd hrun Machine.not_returns_fault
      | false =>
          rw [if_neg (ne_true_of_eq_false hborrowed)] at hrun
          refine ⟨rfl, rfl, ?_⟩
          obtain ⟨it, w₂, hnew, hrest⟩ := Machine.returns_bind.mp hrun
          obtain ⟨arr, harr, rfl, rfl⟩ := returns_newInfoForSizeIter.mp hnew
          have hdrop : ∀ {u : Unit} {w₃ : World P},
              dropInfoForSizeIter.Returns (w₁.setBorrowed true) u w₃ → w₃ = w₁ := by
            intro u w₃ hdrop
            rw [Machine.returns_modify.mp hdrop, setBorrowed_setBorrowed hborrowed]
          split at hrest
          · exact absurd hrest Machine.not_returns_fault
          · next b hscan =>
              obtain ⟨_, w₃, hdropped, hpure⟩ := Machine.returns_bind.mp hrest
              obtain rfl := hdrop hdropped
              obtain ⟨rfl, rfl⟩ := Machine.returns_pure.mp hpure
              rcases h.decides_scan harr hscan with ⟨huse, hb⟩ | ⟨huse, hne, hb⟩ | ⟨-, -, hb⟩
              · exact .inl ⟨huse, Option.some.inj hb, rfl⟩
              · exact .inr (.inl ⟨huse, hne, Option.some.inj hb, rfl⟩)
              · cases hb
          · next hscan =>
              obtain ⟨_, w₃, hdropped, hlast⟩ := Machine.returns_bind.mp hrest
              obtain rfl := hdrop hdropped
              obtain ⟨_, w₄, hdestroy, hpure⟩ := Machine.returns_bind.mp hlast
              obtain ⟨rfl, rfl⟩ := Machine.returns_pure.mp hpure
              rcases h.decides_scan harr hscan with ⟨-, hb⟩ | ⟨-, -, hb⟩ | ⟨huse, hempty, -⟩
              · cases hb
              · cases hb
              · exact .inr (.inr ⟨huse, hempty, rfl, hdestroy⟩)

end World

/-! ## What the destructor releases -/

/-- The event of unmapping a region. -/
def RegionView.released (view : RegionView) : Event := .released view.ptr regionSize

section Release

variable {w w' : World P} {u : Unit}

/-- `VecInOs` maps its buffer, or it needs none. -/
theorem returns_vecInOs {required : Nat} {buffer : Option (Nat × Nat)}
    (h : (vecInOs required).Returns w buffer w') : w'.inner = w.inner ∧
      w'.os.log = buffer.toList.map (fun b => .mapped b.1 b.2) ++ w.os.log := by
  unfold vecInOs at h
  split at h
  · obtain ⟨rfl, rfl⟩ := Machine.returns_pure.mp h
    exact ⟨rfl, rfl⟩
  · obtain ⟨ptr, w₁, hmmap, hrest⟩ := Machine.returns_bind.mp h
    obtain ⟨rfl, rfl⟩ := Prod.mk.inj (Except.ok.inj hmmap)
    have hlog : w.os.takeReply.2.log = w.os.log := by
      unfold Os.takeReply
      cases w.os.replies <;> rfl
    unfold Os.mmap at hrest
    by_cases hfresh : w.os.takeReply.2.Fresh w.os.takeReply.1 (max required 4 * 8) pageSize
    · simp only [if_pos hfresh] at hrest
      obtain ⟨rfl, rfl⟩ := Machine.returns_pure.mp hrest
      exact ⟨rfl, congrArg (_ :: ·) hlog⟩
    · simp only [if_neg hfresh] at hrest
      exact absurd hrest Machine.not_returns_fault

/-- Every region is unmapped once, in the order of the list. -/
theorem returns_deallocRegions {regions : List RegionView}
    (h : (Machine.forEach regions fun view => onOs fun os =>
      ((), os.deallocRegion view.ptr) : M P Unit).Returns w u w') :
    w'.inner = w.inner ∧ w'.os.log = (regions.map RegionView.released).reverse ++ w.os.log := by
  induction regions generalizing w with
  | nil =>
      obtain ⟨-, rfl⟩ := Machine.returns_pure.mp h
      exact ⟨rfl, rfl⟩
  | cons view rest ih =>
      obtain ⟨_, w₁, hdealloc, hrest⟩ := Machine.returns_bind.mp h
      have hw₁ : w₁ = w.setOs (w.os.deallocRegion view.ptr) :=
        (Prod.mk.inj (Except.ok.inj hdealloc)).2.symm
      have hlog₁ : w₁.os.log = [view.released] ++ w.os.log := by
        rw [hw₁]
        rfl
      obtain ⟨hinner, hlog⟩ := ih hrest
      refine ⟨?_, ?_⟩
      · rw [hinner, hw₁, World.setOs]
      · rw [hlog, hlog₁, List.map_cons, List.reverse_cons, List.append_assoc]

/-- `free_all_memory` maps a buffer for the addresses, unmaps every region, and gives the
buffer back. -/
theorem returns_freeAllMemory (h : freeAllMemory.Returns w u w') :
    ∃ buffer : Option (Nat × Nat), w'.os.log =
      buffer.toList.map (fun b => .released b.1 b.2) ++
        (w.inner.regions.elems.map RegionView.released ++
          (buffer.toList.map (fun b => .mapped b.1 b.2) ++ w.os.log)) := by
  simp only [freeAllMemory, forceBecomeNull, Machine.returns_bind, Machine.returns_modify,
    Machine.returns_gets] at h
  obtain ⟨_, _, rfl, _, _, rfl, regions, _, ⟨rfl, rfl⟩, buffer, w₁, hbuffer, _, w₂, hdealloc,
    _, _, rfl, hlast⟩ := h
  obtain ⟨-, hlog₁⟩ := returns_vecInOs hbuffer
  obtain ⟨-, hlog₂⟩ := returns_deallocRegions hdealloc
  rw [List.map_reverse, List.reverse_reverse, hlog₁] at hlog₂
  refine ⟨buffer, ?_⟩
  cases buffer with
  | none =>
      obtain ⟨-, rfl⟩ := Machine.returns_pure.mp hlast
      exact hlog₂
  | some b =>
      obtain ⟨-, rfl⟩ := Prod.mk.inj (Except.ok.inj hlast)
      exact congrArg (_ :: ·) hlog₂

theorem returns_destroy {A : AllocatorForSelfAllocations P} (h : (destroy A).Returns w () w') :
    ∃ m w₁ w₂, (getOrInitManager A false).Returns w m w₁ ∧
      freeAllMemory.Returns (w₁.setOs (w₁.os.record .managerDropped)) () w₂ ∧
      w' = w₂.setDeallocated := by
  obtain ⟨m, w₁, hmanager, hrest⟩ := Machine.returns_bind.mp h
  obtain ⟨_, w₂, hrecord, hrest⟩ := Machine.returns_bind.mp hrest
  obtain ⟨_, w₃, hfree, hreset⟩ := Machine.returns_bind.mp hrest
  obtain rfl := Machine.returns_modify.mp hrecord
  exact ⟨m, w₁, w₃, hmanager, hfree, Machine.returns_modify.mp hreset⟩

end Release

namespace World

variable {w w' : World P} {A : AllocatorForSelfAllocations P} {fuel : Nat} {freed : Bool}

/-- What `Ok` stands for, when the allocator had the manager and the regions of `w₁`. -/
structure Destroyed (w w₁ w' : World P) : Prop where
  /-- Every region has been unmapped once and the manager has been dropped; the rest is the
  buffer for the addresses. -/
  regions : ∃ buffer : Option (Nat × Nat), w'.os.log =
    buffer.toList.map (fun b => .released b.1 b.2) ++
      (w₁.inner.regions.elems.map RegionView.released ++
        (buffer.toList.map (fun b => .mapped b.1 b.2) ++ .managerDropped :: w₁.os.log))
  /-- The extra-large buffers have gone back to the operating system. -/
  buffers : ∀ v, largeSizeMax < (w.vec v).cap * v.elemSize →
    w.os.log.count (.released (w.vec v).ptr ((w.vec v).cap * v.elemSize)) <
      w'.os.log.count (.released (w.vec v).ptr ((w.vec v).cap * v.elemSize))
  reset : w'.inner = { ThreadLocalAllocatorInner.new with isAlreadyDestructured := true }

/-- What `Err` stands for. -/
structure Unchanged (w w' : World P) : Prop where
  objectTable : w'.inner.objectTable = w.inner.objectTable
  chunkTable : w'.inner.chunkTable = w.inner.chunkTable
  box : ∀ k, chunkTableBox k w' = chunkTableBox k w
  freeChunks : ∀ k : ChunkKind, w'.vec k.freeVec = w.vec k.freeVec
  regions : w'.inner.regions = w.inner.regions
  allocatedLargeSizes : w'.inner.allocatedLargeSizes = w.inner.allocatedLargeSizes

/-- The answer is what it stands for. -/
def KeepsItsWord (A : AllocatorForSelfAllocations P) (w : World P) (freed : Bool) (w' : World P) :
    Prop :=
  if freed then ∃ m w₁, (getOrInitManager A false).Returns w m w₁ ∧ w.Destroyed w₁ w'
  else w.Unchanged w'

/-- The allocator has no extra-large buffer. -/
def NoExtraLargeBuffer (w : World P) : Prop := ∀ v : VecId, (w.vec v).cap * v.elemSize ≤ largeSizeMax

/-- Where the walk meets no extra-large size, and nothing is extra large that it does not
know of, the answer is kept; a walk that meets one answers `Ok` and frees nothing. -/
theorem AtRest.keepsItsWord (h : w.AtRest) (hret : (tryFreeAllMemory A fuel).Returns w freed w') :
    (w.InUse ∨ (P.tree.entries w.inner.allocatedLargeSizes = [] ∧ w.NoExtraLargeBuffer) →
      KeepsItsWord A w freed w') ∧
    (KeepsItsWord A w freed w' →
      w.InUse ∨ P.tree.entries w.inner.allocatedLargeSizes = []) := by
  obtain ⟨hdestructured, -, ⟨huse, rfl, rfl⟩ | ⟨huse, hne, rfl, rfl⟩ | ⟨huse, hempty, rfl, hdestroy⟩⟩ :=
    h.returns_tryFreeAllMemory hret
  · exact ⟨fun _ => ⟨rfl, rfl, fun _ => rfl, fun _ => rfl, rfl, rfl⟩, fun _ => .inl huse⟩
  · refine ⟨?_, ?_⟩
    · rintro (hused | ⟨hempty, -⟩)
      · exact absurd hused huse
      · exact absurd hempty hne
    · rintro ⟨m, w₁, -, hdestroyed⟩
      rw [hdestroyed.reset] at hdestructured
      cases hdestructured
  · refine ⟨fun hcondition => ?_, fun _ => .inr hempty⟩
    obtain ⟨m, w₁, w₂, hmanager, hfree, rfl⟩ := returns_destroy hdestroy
    obtain ⟨buffer, hlog⟩ := returns_freeAllMemory hfree
    refine ⟨m, w₁, hmanager, ⟨buffer, hlog⟩, fun v hv => ?_, rfl⟩
    rcases hcondition with hused | ⟨-, hsmall⟩
    · exact absurd hused huse
    · exact absurd (hsmall v) (Nat.not_le.mpr hv)

end World

end Memalart
