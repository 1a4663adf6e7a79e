/-
# The bootstrap State

When the allocator needs memory for its own vectors and cannot serve itself, it
maps a region and allocates from a `State`: a private stock of chunks that is
committed to the allocator afterwards.  A State whose region is exhausted is
extended by a further State, stored in a slot of the chain it extends.

A chain is the list of its States from the current one on; `next_state` is the
rest of the list.  Lists of free chunks hold the last element of the source's
buffer first, so that `pop` takes the head.
-/

import Memalart.Os

namespace Memalart

open Memalart.Lib

/-- The two kinds of chunk.  A State serves the common and the large size class;
for the third one the source marks the branch unreachable. -/
inductive ChunkKind
  | common
  | large
deriving DecidableEq, Repr

def ChunkKind.chunkSize : ChunkKind → Nat
  | .common => commonChunkSize
  | .large => largeChunkSize

/-- The kind of the chunks that a class is cut from. -/
def Slot.kind : Slot → ChunkKind
  | .common _ => .common
  | .large _ => .large

theorem Slot.chunkSize_kind (s : Slot) : s.kind.chunkSize = s.chunkSize := by cases s <;> rfl

/-- The units that a chunk of the kind covers. -/
def ChunkKind.units : ChunkKind → Nat → List Nat
  | .common, chunk => [chunk]
  | .large, chunk => splitLargeChunkToCommon chunk

/-- How many units a chunk of the kind covers. -/
def ChunkKind.numberOfUnits : ChunkKind → Nat
  | .common => 1
  | .large => commonChunksInLargeChunk

/-- The addresses of the first `count` objects of a chunk. -/
def firstSlots (chunk size count : Nat) : List Nat :=
  (List.range count).map fun i => chunk + i * size

/-- `UsedCommonChunk` and `UsedLargeChunk`: a chunk that is being cut into objects
of one size, from its end towards its start. -/
structure UsedChunk where
  size : Nat
  ptr : Nat
  numberOfFreeSlots : Nat
deriving DecidableEq, Repr

/-- `first_state`, the pointer from a State to the head of its chain.  The head
has none.  The pointer is valid until the head is moved into `handle_state`. -/
inductive FirstState
  | none
  | live
  | moved
deriving DecidableEq, Repr

structure State where
  regionPtr : Nat
  freeCommonChunks : List Nat
  freeLargeChunks : List Nat
  usedCommonChunks : List UsedChunk
  usedLargeChunks : List UsedChunk
  firstState : FirstState
  isAllocatingNonLocalPtrManagerNow : Bool
  /-- Where `alloc_new_state_in` has written the State. -/
  storage : Option Nat

/-- `size_of::<State>()`, when an `ArrayBuffer<T, N>` stores `N` elements and a
length: four buffers, three pointers, and a flag padded to eight bytes. -/
def sizeOfState : Nat :=
  (8 * commonChunksInLargeChunk + 8) + (8 * largeChunksInRegion + 8) +
    (24 * maxCommonChunksInRegion + 8) + (24 * largeChunksInRegion + 8) + 3 * 8 + 8

namespace State

def fromRegion (region : Nat) (firstState : FirstState) : State where
  regionPtr := region
  freeCommonChunks := (parseRegion region).commonChunks.reverse
  freeLargeChunks := (parseRegion region).largeChunks.reverse
  usedCommonChunks := []
  usedLargeChunks := []
  firstState := firstState
  isAllocatingNonLocalPtrManagerNow := false
  storage := none

def free (s : State) : ChunkKind → List Nat
  | .common => s.freeCommonChunks
  | .large => s.freeLargeChunks

def used (s : State) : ChunkKind → List UsedChunk
  | .common => s.usedCommonChunks
  | .large => s.usedLargeChunks

def setFree (s : State) (chunks : List Nat) : ChunkKind → State
  | .common => { s with freeCommonChunks := chunks }
  | .large => { s with freeLargeChunks := chunks }

def setUsed (s : State) (chunks : List UsedChunk) : ChunkKind → State
  | .common => { s with usedCommonChunks := chunks }
  | .large => { s with usedLargeChunks := chunks }

/-- Enter a chunk among the used ones and hand out its last object. -/
def cut (s : State) (k : ChunkKind) (size chunk : Nat) : Nat × State :=
  let numberOfFreeSlots := k.chunkSize / size - 1
  (chunk + size * numberOfFreeSlots,
    s.setUsed (s.used k ++ [⟨size, chunk, numberOfFreeSlots⟩]) k)

end State

/-! ## Allocation from a chain -/

/-- Take the last free slot of the first used chunk of this size that has one. -/
def takeSlot (size : Nat) : List UsedChunk → Option (Nat × List UsedChunk)
  | [] => none
  | chunk :: rest =>
      if chunk.size ≠ size ∨ chunk.numberOfFreeSlots = 0 then
        (takeSlot size rest).map fun (ptr, rest) => (ptr, chunk :: rest)
      else
        some (chunk.ptr + size * (chunk.numberOfFreeSlots - 1),
          { chunk with numberOfFreeSlots := chunk.numberOfFreeSlots - 1 } :: rest)

/-- `try_alloc_size`: look for a used chunk with a free slot along the chain. -/
def tryAllocSize (k : ChunkKind) (size : Nat) : List State → Option (Nat × List State)
  | [] => none
  | s :: rest =>
      match takeSlot size (s.used k) with
      | some (ptr, used) => some (ptr, s.setUsed used k :: rest)
      | none => (tryAllocSize k size rest).map fun (ptr, rest) => (ptr, s :: rest)

/-- A chunk taken from a chain, with the State that owned it and the States
before and after that one. -/
structure Taken where
  before : List State
  owner : State
  chunk : Nat
  after : List State

/-- The chain that a chunk was taken from. -/
def Taken.chain (t : Taken) : List State := t.before ++ t.owner :: t.after

/-- Pop a free chunk of the first State that has one of the kind. -/
def popFree (k : ChunkKind) : List State → Option Taken
  | [] => none
  | s :: rest =>
      match s.free k with
      | chunk :: chunks => some ⟨[], s.setFree chunks k, chunk, rest⟩
      | [] => (popFree k rest).map fun t => { t with before := s :: t.before }

/-- `alloc_new_state_in`: map a region for a new State, and find the slot that the
State itself is written to.  The slot has the size of a `State`, which is not the
real size of a class; the chain is asked first, then the new region. -/
def allocNewStateIn (withCountingLimit : Bool) (chain : List State) :
    OsM (Option (List State × State)) := fun os =>
  match os.allocRegion withCountingLimit with
  | (none, os) => .ok (none, os)
  | (some region, os) =>
      let state := State.fromRegion region .live
      match tryAllocSize .large sizeOfState chain with
      | some (ptr, chain) =>
          .ok (some (chain, { state with storage := some ptr }), os.record (.stateStored ptr))
      | none =>
          match popFree .large [state] with
          | some t =>
              let (ptr, state) := t.owner.cut .large sizeOfState t.chunk
              .ok (some (chain, { state with storage := some ptr }), os.record (.stateStored ptr))
          | none => .error (.bugHint "a fresh State has free large chunks", os)

/-- `get_free_large_chunk_`, called on the head of `after`, where `before` holds the
earlier States of the chain.  At the end of the chain it extends the chain and
goes on in the new State, which has free large chunks. -/
def getFreeLargeChunk_ (withCountingLimit : Bool) (before after : List State) :
    OsM (Option Taken) :=
  match popFree .large after with
  | some t => pure (some { t with before := before ++ t.before })
  | none =>
      if (after.getLast?.map State.firstState) = some .moved then
        Machine.fault (.bugHint "first_state points to a State that has been moved")
      else do
        match ← allocNewStateIn withCountingLimit (before ++ after) with
        | none => pure none
        | some (chain, next) =>
            match popFree .large [next] with
            | some t => pure (some { t with before := chain ++ t.before })
            | none => Machine.fault (.bugHint "a fresh State has free large chunks")

/-- `get_free_common_chunk`.  Without a free common chunk in the chain, its last
State splits a large chunk.  When getting that large chunk has extended the
chain, the new State has common chunks of its own, and the recursive call takes
one of these; the large chunk is then in no list any more. -/
def getFreeCommonChunk (withCountingLimit : Bool) (chain : List State) : OsM (Option Taken) :=
  match popFree .common chain with
  | some t => pure (some t)
  | none => do
      match ← getFreeLargeChunk_ withCountingLimit chain.dropLast
          (chain.drop (chain.length - 1)) with
      | none => pure none
      | some t =>
          match t.owner.freeCommonChunks with
          | [] =>
              match (splitLargeChunkToCommon t.chunk).reverse with
              | chunk :: chunks =>
                  pure (some { t with owner := t.owner.setFree chunks .common, chunk := chunk })
              | [] => Machine.fault (.bugHint "a large chunk splits into common chunks")
          | chunk :: chunks => do
              Machine.modify (Os.record (.chunkAbandoned t.chunk))
              pure (some { t with owner := t.owner.setFree chunks .common, chunk := chunk })

/-- The chunk that `alloc_size_slow` starts from. -/
def getFreeChunk (withCountingLimit : Bool) (k : ChunkKind) (chain : List State) :
    OsM (Option Taken) :=
  match k with
  | .common => getFreeCommonChunk withCountingLimit chain
  | .large => getFreeLargeChunk_ withCountingLimit [] chain

def allocSizeSlow (withCountingLimit : Bool) (k : ChunkKind) (size : Nat) (chain : List State) :
    OsM (Option Nat × List State) := do
  match ← getFreeChunk withCountingLimit k chain with
  | none => pure (none, chain)
  | some t =>
      let (ptr, owner) := t.owner.cut k size t.chunk
      pure (some ptr, t.before ++ owner :: t.after)

/-- `State::alloc_size`. -/
def allocSize (withCountingLimit : Bool) (k : ChunkKind) (size : Nat) (chain : List State) :
    OsM (Option Nat × List State) :=
  match tryAllocSize k size chain with
  | some (ptr, chain) => pure (some ptr, chain)
  | none => allocSizeSlow withCountingLimit k size chain

end Memalart
