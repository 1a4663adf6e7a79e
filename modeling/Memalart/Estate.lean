/-
# What the allocator does with memory

The abstract model.  An estate is a multiset of items: the regions, chunks and
objects that an allocator has, wherever its data structures keep them.  A move
exchanges some items for others: a region is cut into chunks, a chunk into
objects, and an object changes hands without any move at all.  Each move says what
it does to the memory of the process; the defects of the code appear as moves
that leave an event in the log.

The concrete allocator is shown to make such moves only, and the ledgers of its
memory are invariants of moves.
-/

import Mathlib.Data.Multiset.Bind
import Mathlib.Algebra.Order.Group.Multiset
import Mathlib.Logic.Relation
import Memalart.State

namespace Memalart

/-- A piece of memory in a certain role. -/
inductive Item
  /-- An object of a class, free or in use. -/
  | object (s : Slot) (ptr : Nat)
  /-- An extra-large block. -/
  | extra (size ptr : Nat)
  /-- A free chunk. -/
  | chunk (k : ChunkKind) (ptr : Nat)
  /-- A chunk that a bootstrap State cuts objects from. -/
  | cutting (k : ChunkKind) (chunk : UsedChunk)
  /-- A chunk in the chunk table of a class. -/
  | recorded (s : Slot) (ptr : Nat)
  /-- The metadata of a recorded chunk has still to be written. -/
  | unwritten (s : Slot) (ptr : Nat)
  /-- A region that has been mapped, and then the same region cut into chunks. -/
  | region (ptr : Nat)
  | parsed (ptr : Nat)
  /-- A region in the list of regions, with the number of its occupied units. -/
  | view (ptr occupied : Nat)
  /-- The permission to give one chunk back to its region. -/
  | permit
deriving DecidableEq

/-- Items of many pointers. -/
def Item.all (item : Nat → Item) (ptrs : List Nat) : Multiset Item :=
  ((ptrs.map item : List Item) : Multiset Item)

@[simp] theorem Item.all_nil (item : Nat → Item) : Item.all item [] = 0 := rfl

@[simp] theorem Item.all_cons (item : Nat → Item) (ptr : Nat) (ptrs : List Nat) :
    Item.all item (ptr :: ptrs) = {item ptr} + Item.all item ptrs := rfl

@[simp] theorem Item.all_append (item : Nat → Item) (ptrs ptrs' : List Nat) :
    Item.all item (ptrs ++ ptrs') = Item.all item ptrs + Item.all item ptrs' := by
  simp [Item.all]

@[simp] theorem Item.all_reverse (item : Nat → Item) (ptrs : List Nat) :
    Item.all item ptrs.reverse = Item.all item ptrs := by
  simp [Item.all]

/-- All objects that a chunk of a class is cut into. -/
def Slot.objects (s : Slot) (chunk : Nat) : Multiset Item :=
  Item.all (.object s) (firstSlots chunk s.realSize s.slotsPerChunk)

/-- The free chunks that a region is cut into. -/
def regionChunks (r : Nat) : Multiset Item :=
  Item.all (.chunk .common) (parseRegion r).commonChunks +
    Item.all (.chunk .large) (parseRegion r).largeChunks

structure Estate where
  os : Os
  manager : Option Nat
  items : Multiset Item

/-- Only the counter and the log have changed, and the log has grown. -/
structure Os.Quiet (os os' : Os) : Prop where
  metadata : os'.metadata = os.metadata
  mappings : os'.mappings = os.mappings
  log : os.log <:+ os'.log

/-- One exchange of items, and what happens to the memory of the process. -/
inductive Exchange : Os → Option Nat → Multiset Item → Multiset Item → Os → Option Nat → Prop
  | quiet {os os' : Os} {m : Option Nat} (h : os.Quiet os') : Exchange os m 0 0 os' m
  | manage {os : Os} (m : Nat) : Exchange os none 0 0 os (some m)
  | map {os os' : Os} {m : Option Nat} (r : Nat) (hfresh : os.Fresh r regionSize regionSize)
      (hmappings : os'.mappings = (r, regionSize) :: os.mappings)
      (hmetadata : os'.metadata = (os.zeroMetadata r).metadata) (hlog : os.log <:+ os'.log) :
      Exchange os m 0 {.region r} os' m
  | parse {os : Os} {m : Option Nat} (r : Nat) :
      Exchange os m {.region r} ({.parsed r} + regionChunks r) os m
  | split {os : Os} {m : Option Nat} (c : Nat) :
      Exchange os m {.chunk .large c} (Item.all (.chunk .common) (splitLargeChunkToCommon c)) os m
  | record {os : Os} {m : Option Nat} (s : Slot) (c : Nat) :
      Exchange os m {.chunk s.kind c} ({.recorded s c} + {.unwritten s c} + s.objects c) os m
  /-- The metadata of a common chunk may be written from any of its addresses. -/
  | write {os : Os} {m : Nat} (s : Slot) (c p : Nat) (hkind : s.kind = .common) (hle : c ≤ p)
      (hlt : p < c + commonChunkSize) :
      Exchange os (some m) {.unwritten s c} 0 (os.initMetadata s m p) (some m)
  | writeLarge {os os' : Os} {m : Nat} (s : Slot) (c p : Nat) (hkind : s.kind = .large)
      (hlog : .largeChunkCut c ∈ os'.log) (hquiet : (os.initMetadata s m p).Quiet os') :
      Exchange os (some m) {.unwritten s c} 0 os' (some m)
  /-- A State takes a chunk and cuts the first object off its end. -/
  | start {os : Os} {m : Option Nat} (s : Slot) (size c : Nat) (hslot : slotForSize size = some s)
      (hsize : s.realSize = size ∨ ∃ p, .stateStored p ∈ os.log) :
      Exchange os m {.chunk s.kind c}
        ({.cutting s.kind ⟨size, c, s.kind.chunkSize / size - 1⟩} +
          {.object s (c + size * (s.kind.chunkSize / size - 1))}) os m
  | cut {os : Os} {m : Option Nat} (s : Slot) (u : UsedChunk)
      (hslot : slotForSize u.size = some s) (hfree : u.numberOfFreeSlots ≠ 0) :
      Exchange os m {.cutting s.kind u}
        ({.cutting s.kind { u with numberOfFreeSlots := u.numberOfFreeSlots - 1 }} +
          {.object s (u.ptr + u.size * (u.numberOfFreeSlots - 1))}) os m
  /-- The chunk of a State goes to its chunk table. -/
  | commit {os : Os} {m : Nat} (s : Slot) (u : UsedChunk) (hslot : slotForSize u.size = some s) :
      Exchange os (some m) {.cutting s.kind u}
        ({.recorded s u.ptr} + Item.all (.object s) (firstSlots u.ptr u.size u.numberOfFreeSlots))
        (os.initMetadata s m u.ptr) (some m)
  | enter {os : Os} {m : Nat} (r : Nat) :
      Exchange os (some m) {.parsed r} {.view r maxCommonChunksInRegion} os (some m)
  | release {os : Os} {m : Option Nat} (k : ChunkKind) (c n : Nat)
      (hkeep : (n + (usizeRange - k.numberOfUnits)) % usizeRange ≠ 0)
      (hlog : .chunkGivenBack c ∈ os.log) :
      Exchange os m ({.chunk k c} + {.view (regionPtrFromChunkPtr c) n} + {.permit})
        {.view (regionPtrFromChunkPtr c) ((n + (usizeRange - k.numberOfUnits)) % usizeRange)} os m
  | releaseLast {os : Os} {m : Option Nat} (k : ChunkKind) (c n : Nat)
      (hlast : (n + (usizeRange - k.numberOfUnits)) % usizeRange = 0)
      (hlog : .chunkGivenBack c ∈ os.log) :
      Exchange os m ({.chunk k c} + {.view (regionPtrFromChunkPtr c) n} + {.permit}) 0
        (os.deallocRegion (regionPtrFromChunkPtr c)) m
  | abandon {os : Os} {m : Option Nat} (k : ChunkKind) (c : Nat)
      (hlog : .chunkAbandoned c ∈ os.log) : Exchange os m {.chunk k c} 0 os m
  | leaveUncut {os : Os} {m : Option Nat} (s : Slot) (c : Nat)
      (hlog : .chunkLeftUncut c ∈ os.log) :
      Exchange os m ({.unwritten s c} + s.objects c) 0 os m
  | mapExtra {os os' : Os} {m : Option Nat} {alignment : Nat} (size p : Nat)
      (hmappings : os'.mappings = (p, size) :: os.mappings)
      (hmetadata : os'.metadata = os.metadata) (hlog : os.log <:+ os'.log)
      (hfresh : os.Fresh p size alignment) : Exchange os m 0 {.extra size p} os' m
  | unmapExtra {os os' : Os} {m : Option Nat} (size p : Nat)
      (hmappings : os'.mappings = os.mappings.erase (p, size))
      (hmetadata : os'.metadata = os.metadata) (hlog : os.log <:+ os'.log) :
      Exchange os m {.extra size p} 0 os' m
  /-- An extra-large block whose address is lost. -/
  | leak {os : Os} {m : Option Nat} (size p : Nat) : Exchange os m {.extra size p} 0 os m
  | dropPermit {os : Os} {m : Option Nat} : Exchange os m {.permit} 0 os m

/-- An exchange in the presence of other items. -/
inductive Move : Estate → Estate → Prop
  | frame {os os' : Os} {m m' : Option Nat} {gone new : Multiset Item} (rest : Multiset Item)
      (h : Exchange os m gone new os' m') : Move ⟨os, m, gone + rest⟩ ⟨os', m', new + rest⟩

/-- Any number of moves. -/
def Moves : Estate → Estate → Prop := Relation.ReflTransGen Move

namespace Moves

variable {e e' e'' : Estate}

theorem refl (e : Estate) : Moves e e := Relation.ReflTransGen.refl

theorem of_eq {os : Os} {m : Option Nat} {items items' : Multiset Item} (h : items = items') :
    Moves ⟨os, m, items⟩ ⟨os, m, items'⟩ := h ▸ refl _

theorem trans (h : Moves e e') (h' : Moves e' e'') : Moves e e'' :=
  Relation.ReflTransGen.trans h h'

/-- One exchange, with the items of both sides given up to equality. -/
theorem single {os os' : Os} {m m' : Option Nat} {gone new items items' : Multiset Item}
    (h : Exchange os m gone new os' m') (rest : Multiset Item) (hitems : items = gone + rest)
    (hitems' : items' = new + rest) : Moves ⟨os, m, items⟩ ⟨os', m', items'⟩ := by
  rw [hitems, hitems']
  exact Relation.ReflTransGen.single (Move.frame rest h)

/-- More items may be present. -/
theorem frame {os os' : Os} {m m' : Option Nat} {items items' : Multiset Item}
    (kept : Multiset Item) (h : Moves ⟨os, m, items⟩ ⟨os', m', items'⟩) :
    Moves ⟨os, m, items + kept⟩ ⟨os', m', items' + kept⟩ := by
  generalize he : Estate.mk os m items = e at h
  generalize he' : Estate.mk os' m' items' = e' at h
  induction h generalizing os' m' items' with
  | refl =>
      obtain ⟨rfl, rfl, rfl⟩ := Estate.mk.inj (he'.trans he.symm)
      exact Moves.refl _
  | tail _ hlast ih =>
      obtain ⟨rest, hexchange⟩ := hlast
      obtain ⟨rfl, rfl, rfl⟩ := Estate.mk.inj he'
      exact (ih rfl).trans (single hexchange (rest + kept) (add_assoc _ _ _) (add_assoc _ _ _))

/-- More items may be present, with the items of both sides given up to equality. -/
theorem framed {os os' : Os} {m m' : Option Nat} {items items' all all' : Multiset Item}
    (h : Moves ⟨os, m, items⟩ ⟨os', m', items'⟩) (kept : Multiset Item)
    (hall : all = items + kept) (hall' : all' = items' + kept) :
    Moves ⟨os, m, all⟩ ⟨os', m', all'⟩ := by
  rw [hall, hall']
  exact h.frame kept

/-- A property that every framed exchange keeps holds after every number of moves. -/
theorem invariant {J : Os → Option Nat → Multiset Item → Prop}
    (hstep : ∀ {os m gone new os' m'} rest, Exchange os m gone new os' m' →
      J os m (gone + rest) → J os' m' (new + rest))
    (h : Moves e e') (hJ : J e.os e.manager e.items) : J e'.os e'.manager e'.items := by
  induction h with
  | refl => exact hJ
  | tail _ hlast ih =>
      obtain ⟨rest, hexchange⟩ := hlast
      exact hstep rest hexchange ih

end Moves

end Memalart
