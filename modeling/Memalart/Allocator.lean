/-
# The thread-local allocator

The allocator serves an object from the vector of its class, and fills that
vector from a chunk when it is empty.  The vectors, the chunk tables, the manager
and the nodes of the size tree are themselves objects of the allocator, so nearly
every function may be entered again by what it calls.  Each function below is
therefore written against an `AllocatorForSelfAllocations`, the interface that the
source calls back through, and `threadLocalAllocator` closes the recursion up to
a given depth.

`hasState` stands for the source's `maybe_state`: the caller passes the innermost
chain of bootstrap States on.
-/

import Memalart.World

namespace Memalart

open Memalart.Lib

variable {P : Params}

/-- The interface the allocator calls itself through, with the number of rounds
that a loop of the source may take. -/
structure AllocatorForSelfAllocations (P : Params) where
  rounds : Nat
  selfAlloc (withCountingLimit : Bool) (size : Nat) (hasState : Bool) : M P (Option Nat)
  selfDealloc (ptr size : Nat) (hasState : Bool) : M P Unit
  tryAlloc (size : Nat) : M P (Option Nat)

/-- The vector of free chunks of a kind. -/
def ChunkKind.freeVec : ChunkKind → VecId
  | .common => .freeCommonChunks
  | .large => .freeLargeChunks

/-- A free chunk is an address. -/
def popChunk (k : ChunkKind) (w : World P) : Option Nat × World P :=
  match k with
  | .common =>
      match w.inner.freeCommonChunks.pop with
      | some (chunk, vec) => (some chunk, w.setVec .freeCommonChunks vec)
      | none => (none, w)
  | .large =>
      match w.inner.freeLargeChunks.pop with
      | some (chunk, vec) => (some chunk, w.setVec .freeLargeChunks vec)
      | none => (none, w)

namespace ThreadLocalAllocator

/-! ## Single accesses -/

/-- `pop` on the free vector of a class. -/
def popObject (s : Slot) : M P (Option Nat) := fun w =>
  match (w.inner.objectTable s).pop with
  | some (ptr, vec) => .ok (some ptr, w.setVec (.object s) vec)
  | none => .ok (none, w)

/-- `try_get_common_chunk` and `try_get_large_chunk`. -/
def tryGetChunk (k : ChunkKind) : M P (Option Nat) := fun w => .ok (popChunk k w)

/-- Enter elements if there is room for them. -/
def tryExtend (v : VecId) (xs : List v.Elem) : M P Bool := fun w =>
  match (w.vec v).tryExtend xs with
  | some vec => .ok (true, w.setVec v vec)
  | none => .ok (false, w)

/-- Enter elements where the source does not look for room any more. -/
def extendUnchecked (v : VecId) (xs : List v.Elem) : M P Unit := do
  if ← tryExtend v xs then pure ()
  else Machine.fault (.bugHint "a vector is written past its capacity")

/-- Give a vector another buffer; the result is the old one. -/
def install (v : VecId) (ptr cap : Nat) : M P (Nat × Nat) := fun w =>
  match (w.vec v).moveTo ptr cap with
  | some vec => .ok (((w.vec v).ptr, (w.vec v).cap), w.setVec v vec)
  | none => .error (.bugHint "the elements of a vector do not fit into its new buffer", w)

/-- The capacity that `additional` more elements need. -/
def minCapacity (v : VecId) (additional : Nat) : M P Nat :=
  Machine.gets fun w => (w.vec v).len + additional

def onOs {α : Type} (f : Os → α × Os) : M P α := fun w => .ok ((f w.os).1, w.setOs (f w.os).2)

def record (e : Event) : M P Unit := Machine.modify fun w => w.setOs (w.os.record e)

/-- Allocate from the chain that the caller passes on. -/
def stateAllocSize (withCountingLimit : Bool) (k : ChunkKind) (size : Nat) : M P (Option Nat) :=
  fun w =>
    match w.states with
    | [] => .error (.bugHint "a State is expected", w)
    | chain :: rest =>
        match allocSize withCountingLimit k size chain w.os with
        | .ok ((ptr, chain), os) => .ok (ptr, { w with states := chain :: rest, os := os })
        | .error (e, os) => .error (e, w.setOs os)

/-- `get_free_large_chunk` on the innermost chain. -/
def stateGetFreeLargeChunk (withCountingLimit : Bool) : M P (Option Nat) := fun w =>
  match w.states with
  | [] => .error (.bugHint "a State is expected", w)
  | chain :: rest =>
      match getFreeLargeChunk_ withCountingLimit [] chain w.os with
      | .ok (some t, os) => .ok (some t.chunk, { w with states := t.chain :: rest, os := os })
      | .ok (none, os) => .ok (none, w.setOs os)
      | .error (e, os) => .error (e, w.setOs os)

/-- `state_from_region`: start a chain with a region. -/
def enterState (region : Nat) : M P Unit :=
  Machine.modify fun w => { w with states := [State.fromRegion region .none] :: w.states }

/-- The State a call works with: the head of the innermost chain. -/
def currentState : M P State := fun w =>
  match w.states with
  | (s :: _) :: _ => .ok (s, w)
  | _ => .error (.bugHint "a State is expected", w)

/-- Change the State a call works with. -/
def updateState (f : State → State) : M P Unit := fun w =>
  match w.states with
  | (s :: chain) :: rest => .ok ((), { w with states := (f s :: chain) :: rest })
  | _ => .error (.bugHint "a State is expected", w)

/-! ## Vectors -/

variable (A : AllocatorForSelfAllocations P)

/-- `alloc_with`: a buffer of the next power of two, and its capacity as a `u32`. -/
def allocWith (withCountingLimit : Bool) (v : VecId) (minCap : Nat) (hasState : Bool) :
    M P (Option Nat × Nat) := do
  let size := recommendedSize (nextPowerOfTwo (minCap * v.elemSize))
  let ptr ← A.selfAlloc withCountingLimit size hasState
  pure (ptr, size / v.elemSize % u32Range)

/-- `maybe_dealloc`. -/
def maybeDealloc (v : VecId) (ptr cap : Nat) (hasState : Bool) : M P Unit :=
  if cap ≠ 0 then A.selfDealloc ptr (cap * v.elemSize) hasState else pure ()

/-- `reserve_slow` from one `alloc_with` on.  What the vector needs is computed
again after every call that may have entered the vector. -/
def reserveSlow (withCountingLimit : Bool) (v : VecId) (additional : Nat) (hasState : Bool) :
    Nat → Nat → M P Bool
  | 0, _ => Machine.fault .outOfFuel
  | fuel + 1, minCap => do
    let (newPtr, newCap) ← allocWith A withCountingLimit v minCap hasState
    let minCap ← minCapacity v additional
    if minCap > newCap then
      match newPtr with
      | some ptr => do
        maybeDealloc A v ptr newCap hasState
        reserveSlow withCountingLimit v additional hasState fuel minCap
      | none => reserveSlow withCountingLimit v additional hasState fuel minCap
    else
      match newPtr with
      | none => pure false
      | some ptr => do
        let (oldPtr, oldCap) ← install v ptr newCap
        maybeDealloc A v oldPtr oldCap hasState
        let minCap ← minCapacity v additional
        if minCap > newCap then reserveSlow withCountingLimit v additional hasState fuel minCap
        else pure true

/-- `reserve` and `reserve_without_counting_limit`: `none` is an error, otherwise
whether memory was allocated. -/
def reserve (withCountingLimit : Bool) (v : VecId) (additional : Nat) (hasState : Bool) :
    M P (Option Bool) := do
  let minCap ← minCapacity v additional
  let cap ← Machine.gets fun w => (w.vec v).cap
  if cap ≥ minCap then pure (some false)
  else do
    let ok ← reserveSlow A withCountingLimit v additional hasState A.rounds minCap
    pure (if ok then some true else none)

/-- `extend_from_slice`, and `push` and `push_without_counting_limit` for one
element.  The answer is whether it succeeded. -/
def extendFromSlice (withCountingLimit : Bool) (v : VecId) (xs : List v.Elem) (hasState : Bool) :
    M P Bool := do
  match ← reserve A withCountingLimit v xs.length hasState with
  | none => pure false
  | some _ => do
    extendUnchecked v xs
    pure true

def push (withCountingLimit : Bool) (v : VecId) (x : v.Elem) (hasState : Bool) : M P Bool :=
  extendFromSlice A withCountingLimit v [x] hasState

/-- Return an object to the vector of its class; a failure is a panic. -/
def pushObjectOrPanic (s : Slot) (ptr : Nat) (hasState : Bool) : M P Unit := do
  if ← push A false (.object s) ptr hasState then pure ()
  else Machine.fault (.panic "Failed to return the pointer back.")

/-! ## Chunks that are given back -/

/-- `position`, the decrement and `swap_remove` of `free_common` and `free_large`,
on the views in the order of the vector.  The flag tells whether the region has
become empty. -/
def releaseUnits (units : Nat) (region : Nat) (views : List RegionView) :
    Option (List RegionView × Bool) :=
  match views.findIdx? fun view => view.ptr = region with
  | none => none
  | some idx =>
      let view := views.getD idx ⟨0, 0⟩
      let occupied := (view.numberOfCommonChunksOccupied + (usizeRange - units)) % usizeRange
      if occupied = 0 then
        some ((views.set idx (views.getLastD ⟨0, 0⟩)).dropLast, true)
      else some (views.set idx { view with numberOfCommonChunksOccupied := occupied }, false)

/-- `free_common` and `free_large`: the chunk is not put anywhere; its region is
unmapped once all its chunks have been given back. -/
def freeChunk (k : ChunkKind) (chunk : Nat) : M P Unit := fun w =>
  let region := regionPtrFromChunkPtr chunk
  match releaseUnits k.numberOfUnits region w.inner.regions.elems.reverse with
  | none => .error (.bugHint "the region of a chunk is not in the list", w)
  | some (views, empty) =>
      if h : views.reverse.length ≤ w.inner.regions.elems.length then
        let w' := w.setVec .regions (w.inner.regions.replaceElems views.reverse h)
        let os := w.os.record (.chunkGivenBack chunk)
        .ok ((), w'.setOs (if empty then os.deallocRegion region else os))
      else .error (.bugHint "removing a region does not add one", w)

/-- One round of a loop of `free_unused_memory`: whether there was a chunk. -/
def freeNext (k : ChunkKind) : M P Bool := do
  match ← tryGetChunk k with
  | some chunk => do
    freeChunk k chunk
    pure true
  | none => pure false

/-- One of the two loops. -/
def freeUnused (k : ChunkKind) : Nat → M P Unit
  | 0 => Machine.fault .outOfFuel
  | fuel + 1 => do
    if ← freeNext k then freeUnused k fuel else pure ()

/-- `free_unused_memory`. -/
def freeUnusedMemory (fuel : Nat) : M P Unit := do
  freeUnused .common fuel
  freeUnused .large fuel

/-! ## The tables of chunks -/

/-- Size of the box of a chunk table: one vector header of 16 bytes for each class. -/
def chunkTableSize : ChunkKind → Nat
  | .common => commonSizeTableLen * 16
  | .large => realNumberOfLargeObjectVectors * 16

/-- The box of a chunk table. -/
def chunkTableBox (k : ChunkKind) (w : World P) : Option Nat :=
  match k with
  | .common => w.inner.commonChunkTable
  | .large => w.inner.largeChunkTable

/-- Store the box of a chunk table, with vectors that are empty. -/
def setChunkTableBox (k : ChunkKind) (ptr : Nat) (w : World P) : World P :=
  let chunkTable := fun s : Slot => if s.kind = k then .new else w.inner.chunkTable s
  match k with
  | .common => { w with inner :=
      { w.inner with commonChunkTable := some ptr, chunkTable := chunkTable } }
  | .large => { w with inner :=
      { w.inner with largeChunkTable := some ptr, chunkTable := chunkTable } }

/-- `common_chunk_table` and `large_chunk_table`: allocate the box on first use. -/
def ensureChunkTable (k : ChunkKind) (hasState : Bool) : M P Unit := do
  match ← Machine.gets (chunkTableBox k) with
  | some _ => pure ()
  | none =>
      match ← A.selfAlloc true (recommendedSize (chunkTableSize k)) hasState with
      | some ptr => Machine.modify (setChunkTableBox k ptr)
      | none => Machine.fault (.panic "Failed to allocate `common_chunk_table`.")

/-! ## The reservation loop of `handle_state` -/

/-- Add up the answers of reservations; a failed one is a panic. -/
def reserveOrPanic (message : String) (withCountingLimit : Bool) (v : VecId)
    (additional : Nat) : M P Bool := do
  match ← reserve A withCountingLimit v additional true with
  | some allocated => pure allocated
  | none => Machine.fault (.panic message)

/-- Room in the free vectors for the free slots of the used chunks of one kind.  The
list may grow under the loop; the loop goes on to the length it started with. -/
def reserveObjects (k : ChunkKind) : M P Bool := do
  let count := ((← currentState).used k).length
  Machine.anyOf (List.range count) fun i => do
    let chunk ← Machine.orFault (.bugHint "a used chunk is expected")
      (((← currentState).used k)[i]?)
    let s ← Machine.orFault (.bugHint "a size names no vector") (slotForSize chunk.size)
    reserveOrPanic A "Failed to allocate an object table, a memory leak occurred" false
      (.object s) chunk.numberOfFreeSlots

/-- `count_all_common_used_chunks` and `count_all_large_used_chunks`. -/
def countUsedChunks (k : ChunkKind) (s : State) : Option UsedObjects :=
  UsedObjects.writeAll (match k with
    | .common => maxCommonChunksInRegion
    | .large => largeChunksInRegion) ((s.used k).map fun chunk => (1, chunk.size)) []

/-- Room in the chunk tables for the used chunks of one kind. -/
def reserveTables (k : ChunkKind) : M P Bool := do
  let counts ← Machine.orFault (.bugHint "Array too small") (countUsedChunks k (← currentState))
  Machine.anyOf counts fun (number, size) => do
    let s ← Machine.orFault (.bugHint "a size names no vector") (slotForSize size)
    ensureChunkTable A k true
    reserveOrPanic A "Failed to allocate a chunk table, a memory leak occurred" true
      (.chunk s) number

/-- `prepare_to_handle_state_and_return_if_allocated_more`. -/
def prepareToHandleState : M P Bool := do
  let regions ← reserveOrPanic A "Failed to reserve a slot for region" false .regions 1
  let large ← reserveOrPanic A "Failed to reserve slots for free large chunks" false
    .freeLargeChunks (← currentState).freeLargeChunks.length
  let common ← reserveOrPanic A "Failed to reserve slots for free common chunks" false
    .freeCommonChunks (← currentState).freeCommonChunks.length
  pure (regions || large || common)

/-- One pass of the inner loop: whether something has been allocated. -/
def reservePass : M P Bool := do
  let common ← reserveObjects A .common
  let large ← reserveObjects A .large
  let largeTables ← reserveTables A .large
  let commonTables ← reserveTables A .common
  let chunks ← prepareToHandleState A
  pure (common || large || largeTables || commonTables || chunks)

/-- The inner loop: pass after pass until one allocates nothing. -/
def reserveLoop : Nat → M P Unit
  | 0 => Machine.fault .outOfFuel
  | fuel + 1 => do
    if ← reservePass A then reserveLoop fuel else pure ()

/-! ## The commit of a State -/

/-- The address of the manager, if there is one. -/
def managerPtr : M P (Option Nat) := Machine.gets fun w => w.inner.nonLocalPtrManager

/-- `init_metadata_for_common_chunk` or `init_metadata_for_large_chunk`, by the
class. -/
def initMetadata (s : Slot) (manager chunkPtr : Nat) : M P Unit :=
  Machine.modify fun w => w.setOs (w.os.initMetadata s manager chunkPtr)

/-- Commit the first used chunk of a kind: its free slots, its metadata, and its
entry in the chunk table. -/
def commitUsedChunk (manager : Nat) (k : ChunkKind) (chunk : UsedChunk) : M P Unit := do
  updateState fun s => s.setUsed (s.used k).tail k
  let s ← Machine.orFault (.bugHint "a size names no vector") (slotForSize chunk.size)
  extendUnchecked (.object s) (firstSlots chunk.ptr chunk.size chunk.numberOfFreeSlots)
  initMetadata s manager chunk.ptr
  extendUnchecked (.chunk s) [chunk.ptr]

/-- `ChunkManager::handle_state` after `take_next_state`: commit the region and the
free chunks, and go on to the next State, which is read out of the slot that it is
stored in.  The result is that slot. -/
def finishState : M P (Option (Option Nat)) := do
  let s ← currentState
  extendUnchecked .regions [⟨s.regionPtr, maxCommonChunksInRegion⟩]
  extendUnchecked .freeCommonChunks s.freeCommonChunks.reverse
  extendUnchecked .freeLargeChunks s.freeLargeChunks.reverse
  fun w =>
    match w.states with
    | (_ :: next :: chain) :: rest =>
        .ok (some next.storage,
          { w with states := ({ next with storage := none } :: chain) :: rest })
    | _ => .ok (none, { w with states := w.states.tail })

/-! ## The manager -/

/-- `register_destructor`. -/
def registerDestructor : M P Unit := do
  if ← Machine.gets fun w => w.inner.isDestructorRegistered then
    Machine.fault (.panic "An attempt to register ThreadLocalAllocator twice")
  else
    Machine.modify fun w => { w with inner :=
      { w.inner with isDestructorRegistered := true, isAlreadyDestructured := false } }

/-- The address of the manager when it is a zero-sized type: a dangling pointer. -/
def danglingManager : Nat := 1

def setManager (ptr : Nat) : M P Unit :=
  Machine.modify fun w => { w with inner := { w.inner with nonLocalPtrManager := some ptr } }

/-- The manager's box, allocated with the flag of the State set. -/
def allocManager : M P Unit := do
  updateState fun s => { s with isAllocatingNonLocalPtrManagerNow := true }
  match ← A.selfAlloc true (recommendedSize P.managerSize) true with
  | none => Machine.fault (.panic "Failed to allocate `returning_local_ptr_handler`.")
  | some ptr => do
    setManager ptr
    updateState fun s => { s with isAllocatingNonLocalPtrManagerNow := false }

/-- `get_or_init_and_get_non_local_ptr_manager_ptr`, called with a State. -/
def getOrInitManagerWithState : M P Nat := do
  match ← managerPtr with
  | some ptr => pure ptr
  | none => do
    if ← Machine.gets fun w => w.inner.isDestructorRegistered then pure ()
    else registerDestructor
    if P.managerSize = 0 then setManager danglingManager
    else allocManager A
    Machine.orFault (.bugHint "the manager has been stored") (← managerPtr)

/-! ## `handle_state` -/

/-- Both chunk tables exist, and every used chunk is committed. -/
def commitUsedChunks : M P Unit := do
  let manager ← getOrInitManagerWithState A
  ensureChunkTable A .common true
  Machine.forEach (← currentState).usedCommonChunks (commitUsedChunk manager .common)
  ensureChunkTable A .large true
  Machine.forEach (← currentState).usedLargeChunks (commitUsedChunk manager .large)

/-- The outer loop of `handle_state`: reserve, commit, go on to the next State and
remember where it was stored. -/
def handleStates : Nat → List Nat → M P (List Nat)
  | 0, _ => Machine.fault .outOfFuel
  | fuel + 1, toDealloc => do
    reserveLoop A A.rounds
    commitUsedChunks A
    match ← finishState with
    | none => pure toDealloc
    | some storage => do
      let ptr ← Machine.orFault (.bugHint "a further State has been stored") storage
      if toDealloc.length < 8 then handleStates fuel (toDealloc ++ [ptr])
      else Machine.fault (.panic "Too many states were allocated.")

/-- A State that is passed by value: the pointers to its old place are stale. -/
def moveState : M P Unit := Machine.modify fun w =>
  match w.states with
  | [] => w
  | chain :: rest =>
      { w with states := chain.map (fun s =>
          { s with firstState := if s.firstState = .live then .moved else s.firstState }) :: rest }

/-- `handle_state` on the innermost chain. -/
def handleState : M P Unit := do
  moveState
  if ← Machine.gets fun w => w.inner.isDestructorRegistered then pure ()
  else do
    let _ ← getOrInitManagerWithState A
    pure ()
  let toDealloc ← handleStates A A.rounds []
  Machine.forEach toDealloc fun ptr => A.selfDealloc ptr sizeOfState false

/-- `get_or_init_and_get_non_local_ptr_manager_ptr`.  Without a State it maps a
region for the manager. -/
def getOrInitManager (hasState : Bool) : M P Nat := do
  if hasState then getOrInitManagerWithState A
  else
    match ← managerPtr with
    | some ptr => pure ptr
    | none => do
      if ← Machine.gets fun w => w.inner.isDestructorRegistered then pure ()
      else registerDestructor
      if P.managerSize = 0 then setManager danglingManager
      else
        match ← onOs (Os.allocRegion false) with
        | none => Machine.fault (.panic "Failed to allocate memory for the first allocation.")
        | some region => do
          enterState region
          allocManager A
          handleState A
      Machine.orFault (.bugHint "the manager has been stored") (← managerPtr)

/-! ## Incoming pointers -/

/-- `add_new_node_ptr` on the list of a manager: this allocator's own list or that
of another one.  A null manager is read through. -/
def addNewNode (manager : Nat) (node : Node) : M P Unit := fun w =>
  if manager = 0 then .error (.bugHint "the manager of a chunk is null", w)
  else if w.inner.nonLocalPtrManager = some manager then
    .ok ((), { w with incoming := node :: w.incoming })
  else .ok ((), { w with outbox := (manager, node) :: w.outbox })

/-- The metadata of the chunk that an address lies in. -/
def metadataOf (ptr : Nat) : M P ChunkMetadata :=
  Machine.gets fun w => w.os.metadata (chunkPtrToChunkMetadataPtr ptr)

/-- One node of the drained list.  A node that carries its own address has come
back; any other carries a freed object, and goes back to its owner. -/
def handleNode (node : Node) : M P Unit := do
  if node.value.ptr = node.addr then
    let s ← Machine.orFault (.bugHint "a size names no vector")
      (Slot.ofCommonIdx (commonSizeToIndex sizeOfNode))
    if ← push A true (.object s) node.addr false then pure ()
    else Machine.fault (.panic "Failed to allocate memory for internal usage")
  else
    let s ← Machine.orFault (.bugHint "an offset names no vector")
      node.value.offsetToSlotInTable.getVec
    pushObjectOrPanic A s node.value.ptr false
    let metadata ← metadataOf node.addr
    addNewNode metadata.nonLocalPtrManager ⟨node.addr, node.addr, .random⟩

/-- The swap of the list's head to null. -/
def takeIncoming : M P (List Node) := fun w => .ok (w.incoming, { w with incoming := [] })

/-- `check_non_local_ptrs`. -/
def checkNonLocalPtrs : M P Unit := do
  match ← managerPtr with
  | none => pure ()
  | some _ => do
    let nodes ← takeIncoming
    Machine.forEach nodes (handleNode A)

/-! ## The slow paths -/

/-- The metadata of a chunk that a slow path has cut, written from its last object
on. -/
def initCutMetadata (s : Slot) (manager chunk curr : Nat) : M P Unit :=
  Machine.modify fun w =>
    let os := w.os.initMetadata s manager curr
    w.setOs (if s.kind = .large then os.record (.largeChunkCut chunk) else os)

/-- `alloc_common_slow` and `alloc_large_slow`: take a chunk, enter it in its table,
make room in the free vector and cut the chunk into it.  The last object is
returned, and it is the pointer that the metadata is written from. -/
def allocSlow (isAllocatingManager : Bool) (s : Slot) (realSize : Nat)
    (getChunk : M P (Option Nat)) (hasState : Bool) : M P (Option Nat) := do
  let incoming ← if !isAllocatingManager && P.shouldAutoCheck then do
      checkNonLocalPtrs A
      popObject s
    else pure none
  match incoming with
  | some ptr => pure (some ptr)
  | none => do
    match ← getChunk with
    | none => pure none
    | some chunk => do
      match ← popObject s with
      | some ptr => do
        freeChunk s.kind chunk
        pure (some ptr)
      | none => do
        ensureChunkTable A s.kind hasState
        if ← push A true (.chunk s) chunk hasState then
          let additional := s.kind.chunkSize / realSize - 1
          match ← reserve A true (.object s) additional hasState with
          | none => do
            record (.chunkLeftUncut chunk)
            pure none
          | some _ => do
            extendUnchecked (.object s) (firstSlots chunk realSize additional)
            let curr := chunk + additional * realSize
            let manager ← if isAllocatingManager then pure curr else getOrInitManager A hasState
            initCutMetadata s manager chunk curr
            pure (some curr)
        else do
          record (.chunkAbandoned chunk)
          pure none

/-- `alloc_large_chunk`: the first large chunk of a new region. -/
def allocLargeChunk : M P (Option Nat) := do
  match ← onOs (Os.allocRegion true) with
  | none => pure none
  | some region => do
    enterState region
    match ← stateGetFreeLargeChunk false with
    | none =>
        Machine.fault (.panic "Can't allocate memory for internal usage, unrecoverable memory leak")
    | some chunk => do
      handleState A
      pure (some chunk)

def getLargeChunk : M P (Option Nat) := do
  match ← tryGetChunk .large with
  | some chunk => pure (some chunk)
  | none => allocLargeChunk A

/-- `get_common_chunk_slow`: split a large chunk, unless getting it has brought
common chunks. -/
def getCommonChunkSlow : M P (Option Nat) := do
  match ← getLargeChunk A with
  | none => pure none
  | some chunk => do
    match ← tryGetChunk .common with
    | some common => do
      if ← push A true .freeLargeChunks chunk false then pure ()
      else record (.chunkAbandoned chunk)
      pure (some common)
    | none => do
      let commons := splitLargeChunkToCommon chunk
      if ← extendFromSlice A true .freeCommonChunks commons.dropLast false then
        Machine.orFault (.bugHint "a large chunk splits into common chunks") (commons.getLast?.map some)
      else do
        record (.chunkAbandoned chunk)
        pure none

def getCommonChunk : M P (Option Nat) := do
  match ← tryGetChunk .common with
  | some chunk => pure (some chunk)
  | none => getCommonChunkSlow A

def getChunk : ChunkKind → M P (Option Nat)
  | .common => getCommonChunk A
  | .large => getLargeChunk A

/-- `alloc_common`. -/
def allocCommon (size : Nat) : M P (Option Nat) := do
  let s ← Machine.orFault (.bugHint "a size names no vector")
    (Slot.ofCommonIdx (commonSizeToIndex size))
  match ← popObject s with
  | some ptr => pure (some ptr)
  | none => allocSlow A false s ((size + 7) / 8 * 8) (getCommonChunk A) false

/-- `alloc_large`. -/
def allocLarge (size : Nat) : M P (Option Nat) := do
  let s ← Machine.orFault (.bugHint "a size names no vector")
    (Slot.ofLargeId (largeSizeToIdAndRealSize size).1)
  match ← popObject s with
  | some ptr => pure (some ptr)
  | none => allocSlow A false s (largeSizeToIdAndRealSize size).2 (getLargeChunk A) false

/-! ## Extra-large sizes -/

/-- The page size, which the kernel aligns a mapping to. -/
def pageSize : Nat := 4096

/-- `may_allocate` and `alloc_from_os`; the counted bytes are given back when the
kernel refuses. -/
def mapExtraLarge (size : Nat) (os : Os) : Bool × Option Nat × Os :=
  let (answer, os) := os.takeReply
  match os.mayAllocate size with
  | (false, os) => (false, none, os.record (.refused size))
  | (true, os) =>
      match os.mmap answer size pageSize with
      | (some ptr, os) => (true, some ptr, os)
      | (none, os) => (true, none, os.markDeallocated size)

/-- The nodes that an insertion needs, each allocated from the allocator. -/
def allocNodes : List Nat → M P (List Nat)
  | [] => pure []
  | size :: sizes => do
    match ← A.selfAlloc true (recommendedSize size) false with
    | none => Machine.fault (.panic "failed to allocate memory for internal usage")
    | some ptr => do
      let ptrs ← allocNodes sizes
      pure (ptr :: ptrs)

def setTreeBusy (busy : Bool) : M P Unit := Machine.modify fun w => { w with treeBusy := busy }

def updateTree (f : P.tree.Tree → P.tree.Tree) : M P Unit :=
  Machine.modify fun w => { w with inner :=
    { w.inner with allocatedLargeSizes := f w.inner.allocatedLargeSizes } }

/-- The tree.  A call that enters it while it is being changed ends here; the source goes on
with references to the same nodes twice. -/
def sizeTree : M P P.tree.Tree := fun w =>
  if w.treeBusy then .error (.treeEntered, w) else .ok (w.inner.allocatedLargeSizes, w)

/-- `entry(size).and_modify(+ 1).or_insert(1)`. -/
def countExtraLarge (size : Nat) : M P Unit := do
  let tree ← sizeTree
  match (P.tree.entries tree).lookup size with
  | some _ => updateTree (P.tree.modify size (· + 1))
  | none => do
    setTreeBusy true
    let ptrs ← allocNodes A (P.tree.nodesToInsert size tree)
    updateTree (P.tree.insert size 1 ptrs)
    setTreeBusy false

/-- `alloc_extra_large`.  Only a refusal by the limit leaves the tree alone. -/
def allocExtraLarge (size : Nat) : M P (Option Nat) := do
  let (counted, ptr) ← onOs fun os =>
    let (counted, ptr, os) := mapExtraLarge size os
    ((counted, ptr), os)
  if counted then
    countExtraLarge A size
    pure ptr
  else pure none

/-- `dealloc_extra_large`. -/
def deallocExtraLarge (ptr size : Nat) : M P Unit := do
  onOs fun os => ((), (os.munmap ptr size).markDeallocated size)
  let tree ← sizeTree
  match (P.tree.entries tree).lookup size with
  | none => pure ()
  | some count => do
    updateTree (P.tree.modify size (· - 1))
    if count = 1 then do
      let tree ← sizeTree
      setTreeBusy true
      updateTree fun tree => (P.tree.remove size tree).1
      Machine.forEach (P.tree.remove size tree).2 fun node => A.selfDealloc node.1 node.2 false
      setTreeBusy false
    else pure ()

/-! ## Allocation and deallocation -/

/-- `try_alloc`. -/
def tryAlloc (size : Nat) : M P (Option Nat) :=
  match SizeClass.define size with
  | .common => allocCommon A size
  | .large => allocLarge A size
  | .extraLarge => allocExtraLarge A size

/-- `dealloc_non_local_ptr`: a node carries the object to the manager of its chunk. -/
def deallocNonLocalPtr (ptr : Nat) (metadata : ChunkMetadata) : M P Unit := do
  let _ ← getOrInitManager A false
  match ← A.tryAlloc sizeOfNode with
  | none => Machine.fault (.panic "Failed to allocate memory for internal usage")
  | some node => addNewNode metadata.nonLocalPtrManager ⟨node, ptr, metadata.offsetToSlotInTable⟩

/-- `dealloc_common` and `dealloc_large`: an object of this allocator's own chunks
goes back to the vector of its size, any other to the manager of its chunk. -/
def deallocObject (s : Slot) (ptr : Nat) : M P Unit := do
  let metadata ← metadataOf ptr
  if metadata.nonLocalPtrManager = (← managerPtr).getD 0 then pushObjectOrPanic A s ptr false
  else deallocNonLocalPtr A ptr metadata

/-- The vector that a size names on the way back. -/
def slotOrFault (size : Nat) : M P Slot :=
  Machine.orFault (.bugHint "a size names no vector") (slotForSize size)

/-- `dealloc`. -/
def dealloc (ptr size : Nat) : M P Unit :=
  match SizeClass.define size with
  | .extraLarge => deallocExtraLarge A ptr size
  | _ => do deallocObject A (← slotOrFault size) ptr

/-- `try_alloc_common_from_cache` and `try_alloc_large_from_cache`. -/
def tryAllocFromCache (s : Slot) (size : Nat) (hasState : Bool) : M P (Option Nat) := do
  match ← popObject s with
  | some ptr => pure (some ptr)
  | none => do
    let isAllocatingManager ← if hasState then do
        let s ← currentState
        pure s.isAllocatingNonLocalPtrManagerNow
      else pure false
    if isAllocatingManager then
      updateState fun s => { s with isAllocatingNonLocalPtrManagerNow := false }
    else pure ()
    allocSlow A isAllocatingManager s size (tryGetChunk s.kind) hasState

/-- `slow_self_alloc_`: from the caller's State, or from a new one. -/
def slowSelfAlloc (withCountingLimit : Bool) (k : ChunkKind) (size : Nat) (hasState : Bool) :
    M P (Option Nat) := do
  if hasState then stateAllocSize withCountingLimit k size
  else
    match ← onOs (Os.allocRegion withCountingLimit) with
    | none => pure none
    | some region => do
      enterState region
      let ptr ← stateAllocSize withCountingLimit k size
      handleState A
      pure ptr

/-- `self_alloc_`. -/
def selfAlloc (withCountingLimit : Bool) (size : Nat) (hasState : Bool) : M P (Option Nat) :=
  match SizeClass.define size with
  | .extraLarge => allocExtraLarge A size
  | _ => do
    let s ← slotOrFault size
    match ← tryAllocFromCache A s size hasState with
    | some ptr => pure (some ptr)
    | none => slowSelfAlloc A withCountingLimit s.kind size hasState

/-- `self_dealloc`: with a State the object goes straight to its vector. -/
def selfDealloc (ptr size : Nat) (hasState : Bool) : M P Unit :=
  match SizeClass.define size with
  | .extraLarge => deallocExtraLarge A ptr size
  | _ => do
    let s ← slotOrFault size
    if hasState then pushObjectOrPanic A s ptr true
    else deallocObject A s ptr

end ThreadLocalAllocator

/-- The allocator as its own allocator for self allocations, for calls that nest at
most this deep. -/
def threadLocalAllocator : Nat → AllocatorForSelfAllocations P
  | 0 => {
      rounds := 0
      selfAlloc := fun _ _ _ => Machine.fault .outOfFuel
      selfDealloc := fun _ _ _ => Machine.fault .outOfFuel
      tryAlloc := fun _ => Machine.fault .outOfFuel }
  | depth + 1 => {
      rounds := depth + 1
      selfAlloc := ThreadLocalAllocator.selfAlloc (threadLocalAllocator depth)
      selfDealloc := ThreadLocalAllocator.selfDealloc (threadLocalAllocator depth)
      tryAlloc := ThreadLocalAllocator.tryAlloc (threadLocalAllocator depth) }

end Memalart
