/-
# The limit and the operating system

Everything the allocator shares with the rest of the process: the counter behind
`set_allocator_limit`, the mappings that the kernel has granted, and the memory
that chunk metadata is written to.  What the kernel and the other threads do is
an input: a list of replies, one for each mapping that is asked for.
-/

import Memalart.Lib.Machine
import Memalart.Lib.Run
import Memalart.Region

namespace Memalart

open Memalart.Lib

/-- Why a call does not return.  `bugHint` stands for the places where the
source is allowed to be undefined: a hint that a branch is unreachable, or a
read or write through a pointer that is not valid. -/
inductive Fault
  | outOfFuel
  | panic (message : String)
  | bugHint (message : String)
  /-- The size tree has been entered while it was being changed.  The source has no
  check there; what it goes on to do depends on the nodes it has in hand. -/
  | treeEntered
deriving DecidableEq, Repr

/-- What happens around one request for memory: by how much other threads have
moved the counter since the last one, and the address that the kernel answers
with, `0` when it refuses. -/
structure Reply where
  drift : Nat
  mapped : Nat
deriving DecidableEq, Repr

/-- What the run has done.  The log is a history variable: no branch reads it. -/
inductive Event
  /-- The kernel granted a mapping. -/
  | mapped (ptr size : Nat)
  /-- The limit or the kernel refused one. -/
  | refused (size : Nat)
  | released (ptr size : Nat)
  /-- A bootstrap State was stored inside the chain that it extends. -/
  | stateStored (ptr : Nat)
  /-- An early return forgot a chunk that the call had taken; no list holds it. -/
  | chunkAbandoned (chunk : Nat)
  /-- An early return left a chunk in its chunk table without cutting it. -/
  | chunkLeftUncut (chunk : Nat)
  /-- `alloc_large_slow` cut a chunk into objects. -/
  | largeChunkCut (chunk : Nat)
  /-- A slow path found an object after all, and gave its chunk back to the region. -/
  | chunkGivenBack (chunk : Nat)
  /-- `self_drop` was called on the manager. -/
  | managerDropped
deriving DecidableEq, Repr

/-- One access to the counter behind the limit, with what it stood at before. -/
inductive CounterEvent
  /-- Other threads have moved the counter. -/
  | moved (after : Nat)
  /-- Bytes are asked for: by `may_allocate` with the limit it has read, or by
  `allocate_any_way` without one. -/
  | asked (before size : Nat) (limit : Option Nat) (granted : Bool)
  /-- `mark_deallocated`. -/
  | discounted (before size : Nat)
deriving DecidableEq, Repr

structure Os where
  limit : Nat
  /-- The counter behind the limit, a `usize` that wraps. -/
  allocated : Nat
  /-- Every access to the counter, the last one first; a history variable too. -/
  accesses : List CounterEvent
  mappings : List (Nat × Nat)
  /-- The metadata entry stored at an address of a region's first chunk. -/
  metadata : Nat → ChunkMetadata
  replies : List Reply
  log : List Event

abbrev OsM := Machine Os Fault

namespace Os

def record (e : Event) (os : Os) : Os := { os with log := e :: os.log }

/-- The counter becomes `allocated` in an access. -/
def access (e : CounterEvent) (allocated : Nat) (os : Os) : Os :=
  { os with allocated := allocated, accesses := e :: os.accesses }

section Access

variable (e : CounterEvent) (allocated : Nat) (os : Os)

@[simp] theorem allocated_access : (os.access e allocated).allocated = allocated := rfl
@[simp] theorem limit_access : (os.access e allocated).limit = os.limit := rfl
@[simp] theorem mappings_access : (os.access e allocated).mappings = os.mappings := rfl
@[simp] theorem replies_access : (os.access e allocated).replies = os.replies := rfl
@[simp] theorem log_access : (os.access e allocated).log = os.log := rfl

end Access

/-- Take the next reply; the other threads' share of the counter moves first. -/
def takeReply (os : Os) : Nat × Os :=
  match os.replies with
  | [] => (0, os)
  | reply :: rest =>
      let allocated := (os.allocated + reply.drift) % usizeRange
      (reply.mapped, { os.access (.moved allocated) allocated with replies := rest })

/-- `may_allocate`: count the bytes if they fit under the limit.  The retry of
the compare-exchange is the reply's drift. -/
def mayAllocate (size : Nat) (os : Os) : Bool × Os :=
  let newAllocated := (os.allocated + size) % usizeRange
  if newAllocated > os.limit then
    (false, os.access (.asked os.allocated size (some os.limit) false) os.allocated)
  else (true, os.access (.asked os.allocated size (some os.limit) true) newAllocated)

/-- `allocate_any_way`. -/
def allocateAnyWay (size : Nat) (os : Os) : Os :=
  os.access (.asked os.allocated size none true) ((os.allocated + size) % usizeRange)

/-- `mark_deallocated`: the subtraction wraps. -/
def markDeallocated (size : Nat) (os : Os) : Os :=
  os.access (.discounted os.allocated size) ((os.allocated + (usizeRange - size)) % usizeRange)

/-- What the kernel promises of a mapping: it is not null, it is aligned, and it
meets no other mapping. -/
def Fresh (os : Os) (ptr size alignment : Nat) : Prop :=
  ptr ≠ 0 ∧ ptr % alignment = 0 ∧ ptr + size ≤ usizeRange ∧
    ∀ m ∈ os.mappings, ptr + size ≤ m.1 ∨ m.1 + m.2 ≤ ptr

instance (os : Os) (ptr size alignment : Nat) : Decidable (os.Fresh ptr size alignment) :=
  inferInstanceAs (Decidable (_ ∧ _ ∧ _ ∧ _))

/-- Grant the mapping that the kernel answers with.  An answer that the kernel
cannot give counts as a refusal. -/
def mmap (answer size alignment : Nat) (os : Os) : Option Nat × Os :=
  if os.Fresh answer size alignment then
    (some answer, { os with mappings := (answer, size) :: os.mappings,
                            log := .mapped answer size :: os.log })
  else (none, os.record (.refused size))

/-- `os::free`. -/
def munmap (ptr size : Nat) (os : Os) : Os :=
  { os with mappings := os.mappings.erase (ptr, size), log := .released ptr size :: os.log }

/-- A fresh region reads as zeros. -/
def zeroMetadata (region : Nat) (os : Os) : Os :=
  { os with metadata := fun a =>
      if region ≤ a ∧ a < region + regionSize then .zero else os.metadata a }

def writeMetadata (ptr : Nat) (m : ChunkMetadata) (os : Os) : Os :=
  { os with metadata := fun a => if a = ptr then m else os.metadata a }

/-- `alloc_region_`: the bytes are counted already and are given back when the
kernel refuses.  One answer stands for both mappings of `alloc_aligned_from_os`, the
reservation and its commit; a region whose commit alone is refused faults at the first
access and is left to `AlignedMapping` and `MappedMemory`. -/
def allocRegion_ (answer : Nat) (os : Os) : Option Nat × Os :=
  match os.mmap answer regionSize regionSize with
  | (some region, os') => (some region, os'.zeroMetadata region)
  | (none, os') => (none, os'.markDeallocated regionSize)

/-- `alloc_region` and, when the limit is not to be counted,
`alloc_region_without_counting_limit`. -/
def allocRegion (withCountingLimit : Bool) (os : Os) : Option Nat × Os :=
  let (answer, os₁) := os.takeReply
  if withCountingLimit then
    match os₁.mayAllocate regionSize with
    | (false, os₂) => (none, os₂.record (.refused regionSize))
    | (true, os₂) => os₂.allocRegion_ answer
  else (os₁.allocateAnyWay regionSize).allocRegion_ answer

/-- `dealloc_region`. -/
def deallocRegion (region : Nat) (os : Os) : Os :=
  (os.munmap region regionSize).markDeallocated regionSize

/-! ## The history of the counter -/

/-- What the code makes of the counter in one access. -/
inductive CounterStep : Nat → CounterEvent → Nat → Prop
  | moved (a after : Nat) (h : after < usizeRange) : CounterStep a (.moved after) after
  | granted (a size : Nat) (limit : Option Nat)
      (h : ∀ l, limit = some l → (a + size) % usizeRange ≤ l) :
      CounterStep a (.asked a size limit true) ((a + size) % usizeRange)
  | refused (a size limit : Nat) (h : limit < (a + size) % usizeRange) :
      CounterStep a (.asked a size (some limit) false) a
  | discounted (a size : Nat) :
      CounterStep a (.discounted a size) ((a + (usizeRange - size)) % usizeRange)

/-- The counter has gone from one state to the other by recorded accesses. -/
def Counted (os os' : Os) : Prop :=
  ∃ events, os'.accesses = events.reverse ++ os.accesses ∧
    Run CounterStep os.allocated events os'.allocated

theorem Counted.of_eq {os os' : Os} (hallocated : os'.allocated = os.allocated)
    (haccesses : os'.accesses = os.accesses) : os.Counted os' :=
  ⟨[], haccesses, hallocated ▸ .nil _⟩

theorem Counted.refl (os : Os) : os.Counted os := .of_eq rfl rfl

theorem Counted.trans {os os' os'' : Os} (h : os.Counted os') (h' : os'.Counted os'') :
    os.Counted os'' := by
  obtain ⟨first, hfirst, hrun⟩ := h
  obtain ⟨second, hsecond, hrun'⟩ := h'
  refine ⟨first ++ second, ?_, hrun.append hrun'⟩
  rw [hsecond, hfirst, List.reverse_append, List.append_assoc]

/-- One access. -/
theorem Counted.access {os : Os} {e : CounterEvent} {allocated : Nat}
    (h : CounterStep os.allocated e allocated) : os.Counted (os.access e allocated) :=
  ⟨[e], rfl, .cons h (.nil _)⟩

@[simp] theorem metadata_markDeallocated (size : Nat) (os : Os) :
    (os.markDeallocated size).metadata = os.metadata := by
  unfold markDeallocated
  rfl

@[simp] theorem metadata_munmap (ptr size : Nat) (os : Os) :
    (os.munmap ptr size).metadata = os.metadata := by
  unfold munmap
  rfl

@[simp] theorem metadata_deallocRegion (region : Nat) (os : Os) :
    (os.deallocRegion region).metadata = os.metadata := by
  rw [deallocRegion, metadata_markDeallocated, metadata_munmap]

/-- `init_metadata_for_common_chunk`. -/
def initMetadataForCommonChunk (manager : Nat) (offset : OffsetToSlotInTable) (chunkPtr : Nat)
    (os : Os) : Os :=
  os.writeMetadata (chunkPtrToChunkMetadataPtr chunkPtr) ⟨manager, offset⟩

/-- `init_metadata_for_large_chunk`: eight consecutive entries, from the entry of
the pointer on. -/
def initMetadataForLargeChunk (manager : Nat) (offset : OffsetToSlotInTable) (chunkPtr : Nat)
    (os : Os) : Os :=
  (List.range commonChunksInLargeChunk).foldl
    (fun os i => os.writeMetadata
      (chunkPtrToChunkMetadataPtr chunkPtr + i * chunkMetadataSize) ⟨manager, offset⟩) os

/-- The one of the two that a class uses. -/
def initMetadata (s : Slot) (manager chunkPtr : Nat) (os : Os) : Os :=
  match s with
  | .common _ => os.initMetadataForCommonChunk manager s.offset chunkPtr
  | .large _ => os.initMetadataForLargeChunk manager s.offset chunkPtr

end Os

/-- Nothing is mapped, and no limit is set. -/
def Os.initial (replies : List Reply) : Os where
  limit := usizeRange - 1
  allocated := 0
  accesses := []
  mappings := []
  metadata := fun _ => .zero
  replies := replies
  log := []

end Memalart
