/-
# What the allocator reports about itself

`InfoForSizeIter` yields, for every class with a chunk table and for every extra-large
size, how many objects have been cut and how many of them are out.  The number that the
allocator has allocated for itself is counted separately, from the buffers of its
vectors, its boxes, its manager and its tree.  Both the statistics and the destructor
read these numbers.
-/

import Memalart.Conservation

namespace Memalart

open Memalart.Lib ThreadLocalAllocator

variable {P : Params}

/-- `MAX_NUMBER_OF_SELF_ALLOCATED_OBJECTS`. -/
def maxNumberOfSelfAllocatedObjects : Nat :=
  1 + commonSizeTableLen + 3 + 1 + commonSizeTableLen + realNumberOfLargeObjectVectors + 1 +
    realNumberOfLargeObjectVectors

/-- The classes of a kind, in the order of their indices. -/
def ChunkKind.slots : ChunkKind → List Slot
  | .common => (List.finRange 128).map Slot.common
  | .large => (List.finRange 88).map Slot.large

namespace World

variable (w : World P)

/-- `bytes_allocated` of a vector. -/
def bytesAllocated (v : VecId) : Nat := (w.vec v).bytesAllocated v.elemSize

/-- Numbers and sizes of what a chunk table holds: its box and its vectors. -/
def tableSizes (k : ChunkKind) : List (Nat × Nat) :=
  match chunkTableBox k w with
  | some _ => (1, recommendedSize (chunkTableSize k)) ::
      k.slots.map fun s => (1, w.bytesAllocated (.chunk s))
  | none => []

/-- What `allocated_for_self` writes, in its order.  The manager of the crate allocates
nothing for itself. -/
def selfAllocatedSizes : List (Nat × Nat) :=
  (match w.inner.nonLocalPtrManager with
    | some _ => if P.managerSize ≠ 0 then [(1, recommendedSize P.managerSize)] else []
    | none => []) ++
  [(1, w.bytesAllocated .freeLargeChunks), (1, w.bytesAllocated .freeCommonChunks),
    (1, w.bytesAllocated .regions)] ++
  ChunkKind.common.slots.map (fun s => (1, w.bytesAllocated (.object s))) ++
  w.tableSizes .common ++
  ChunkKind.large.slots.map (fun s => (1, w.bytesAllocated (.object s))) ++
  w.tableSizes .large ++
  (P.tree.selfAllocatedMemory w.inner.allocatedLargeSizes).map fun e => (e.2, e.1)

/-- `allocated_for_self`. -/
def allocatedForSelf : Option UsedObjects :=
  UsedObjects.writeAll maxNumberOfSelfAllocatedObjects w.selfAllocatedSizes []

end World

structure InfoForSize where
  memoryAllocated : Nat
  sizeOfElem : Nat
  objectsAllocated : Nat
  objectsUsed : Nat
  allocatedForSelfObjects : Nat

namespace InfoForSize

def memoryUsed (info : InfoForSize) : Nat := info.objectsUsed * info.sizeOfElem % usizeRange

end InfoForSize

namespace World

variable (w : World P)

/-- `InfoForSizeIter::next` on a class.  The chunks are counted together, and their bytes
are divided by the size.  Their number is a `u32`, so the product does not wrap; the
subtraction does. -/
def infoForSize (allocatedForSelf : UsedObjects) (s : Slot) : InfoForSize :=
  let memoryAllocated := s.chunkSize * (w.inner.chunkTable s).len
  let objectsAllocated := memoryAllocated / s.realSize
  { memoryAllocated := memoryAllocated
    sizeOfElem := s.realSize
    objectsAllocated := objectsAllocated
    objectsUsed := (objectsAllocated + (usizeRange - (w.inner.objectTable s).len)) % usizeRange
    allocatedForSelfObjects := allocatedForSelf.find s.realSize }

/-- `InfoForSizeIter::next` on an entry of the tree; the product wraps. -/
def infoForExtraLarge (allocatedForSelf : UsedObjects) (entry : Nat × Nat) : InfoForSize where
  memoryAllocated := entry.1 * entry.2 % usizeRange
  sizeOfElem := entry.1
  objectsAllocated := entry.2
  objectsUsed := entry.2
  allocatedForSelfObjects := allocatedForSelf.find entry.1

/-- What the iterator yields for the classes of a kind, if their chunk table exists. -/
def infoForKind (allocatedForSelf : UsedObjects) (k : ChunkKind) : List InfoForSize :=
  match chunkTableBox k w with
  | some _ => k.slots.map (w.infoForSize allocatedForSelf)
  | none => []

/-- `iter_allocated_size`: everything that the iterator yields.  There is no answer when
the array of `allocated_for_self` is too small. -/
def iterAllocatedSize : Option (List (SizeClass × InfoForSize)) :=
  w.allocatedForSelf.map fun arr =>
    (w.infoForKind arr .common).map (SizeClass.common, ·) ++
    (w.infoForKind arr .large).map (SizeClass.large, ·) ++
    (P.tree.entries w.inner.allocatedLargeSizes).map fun e =>
      (SizeClass.extraLarge, infoForExtraLarge arr e)

end World

structure ShortStats where
  allocatedMemoryFromOs : Nat
  usedMemory : Nat
deriving DecidableEq

/-- One item more; the sums wrap. -/
def ShortStats.add (acc : ShortStats) (info : InfoForSize) : ShortStats where
  allocatedMemoryFromOs := (acc.allocatedMemoryFromOs + info.memoryAllocated) % usizeRange
  usedMemory := (acc.usedMemory + info.memoryUsed) % usizeRange

/-- `ShortStats::new`. -/
def World.shortStats (w : World P) : Option ShortStats :=
  w.iterAllocatedSize.map fun infos => infos.foldl (fun acc e => acc.add e.2) ⟨0, 0⟩

end Memalart
