/-
# Remote frees between allocators

An object that is freed on another thread travels to its owner in a node that the
freeing allocator has allocated; the node is pushed on the owner's list by a
compare-exchange, the owner swaps the list's head to null and works it off, and
each node goes back to the allocator that it was allocated from, on that one's
list.  Every allocator runs a stack of frames: pushing into a vector and
allocating a node may enter the allocator again, and drain its list again.
-/

import Memalart.Holdings
import Memalart.Lib.Run

namespace Memalart.RemoteFree

open Memalart.Lib

universe u v

/-- The vector of the objects that nodes are: common objects of 32 bytes. -/
def nodeSlot : Slot := .common 3

theorem ofCommonIdx_sizeOfNode : Slot.ofCommonIdx (commonSizeToIndex sizeOfNode) = some nodeSlot := by
  decide

/-- Why an allocator has an object in hand that it is about to put into a vector, or
into a node. -/
inductive Origin
  | freeing
  | localFree
  | remote
  | node
deriving DecidableEq, Repr

/-- Where an object is. -/
inductive Place (Id : Type u) (Obj : Type v)
  | unborn
  | live
  | own (a : Id)
  | free (a : Id) (s : Slot)
  | hand (a : Id) (origin : Origin)
  /-- A node on the list of an allocator. -/
  | listed (b : Id)
  /-- A node that an allocator is pushing, or has drained. -/
  | held (a : Id)
  /-- A node whose object has been taken out. -/
  | spent (a : Id)
  | carried (n : Obj)
  | released
deriving DecidableEq

/-- `NonLocalPtrData`; no slot stands for `OffsetToSlotInTable::random`. -/
structure Data (Obj : Type v) where
  ptr : Obj
  slot : Option Slot
deriving DecidableEq

/-- What an allocator is in the middle of. -/
inductive Frame (Id : Type u) (Obj : Type v)
  /-- `deallocate_non_local_ptr`, before its node is allocated. -/
  | freeing (x : Obj)
  /-- A push into a vector, which may have to grow first. -/
  | putting (s : Slot) (x : Obj) (origin : Origin)
  /-- `add_new_node_ptr`, with the head that was loaded. -/
  | pushing (n : Obj) (target : Id) (expected : Option (Option Obj))
  /-- The loop of `check_for_incoming_non_local_ptrs`; `rest` is the list from `cur` on. -/
  | draining (cur : Option Obj) (rest : List Obj)
  /-- The same loop, while the object of a node is handled. -/
  | returning (n : Obj) (nextOfNode : Option Obj) (rest : List Obj)
deriving DecidableEq

/-- What the metadata of an object's chunk say: the allocator whose manager they
name, and the vector. -/
structure Layout (Id : Type u) (Obj : Type v) where
  owner : Obj → Id
  slot : Obj → Slot

/-- What has happened to an object. -/
inductive Event (Obj : Type v)
  /-- It was freed on an allocator that is not its owner, and such a free arrived. -/
  | sent (x : Obj)
  | delivered (x : Obj)
  /-- It was taken as a node, pushed on its owner's list, and put into its vector. -/
  | lent (n : Obj)
  | returned (n : Obj)
  | home (n : Obj)
deriving DecidableEq

/-- All allocators.  The fields from `list` on are history: no allocator reads them. -/
structure State (Id : Type u) (Obj : Type v) where
  free : Id → Slot → List Obj
  /-- What an allocator has allocated for itself. -/
  own : Id → List Obj
  live : List Obj
  /-- The objects that the chunks of an allocator have been cut into. -/
  cut : Id → Slot → List Obj
  head : Id → Option Obj
  next : Obj → Option Obj
  value : Obj → Data Obj
  frames : Id → List (Frame Id Obj)
  list : Id → List Obj
  place : Obj → Place Id Obj
  log : List (Event Obj)

inductive Action (Id : Type u) (Obj : Type v)
  | cut (x : Obj)
  | take (a : Id) (s : Slot) (x : Obj)
  | takeOwn (a : Id) (s : Slot) (x : Obj)
  | deallocLocal (a : Id) (x : Obj)
  | deallocRemote (a : Id) (x : Obj)
  | deallocOwn (a : Id) (x : Obj)
  /-- The holder of a block writes to its memory: the program or an allocator. -/
  | write (holder : Option Id) (x : Obj) (value : Data Obj) (next : Option Obj)
  | allocNode (a : Id) (x n : Obj)
  | loadHead (a : Id) (n : Obj) (target : Id)
  | exchange (a : Id) (n : Obj) (target : Id) (expected : Option Obj) (spurious : Bool)
  | drain (a : Id)
  | takeReturned (a : Id) (n : Obj) (rest : List Obj)
  | takeCarried (a : Id) (n : Obj) (s : Slot) (rest : List Obj)
  | put (a : Id) (s : Slot) (x : Obj) (origin : Origin)
  | giveBack (a : Id) (n : Obj) (nextOfNode : Option Obj) (rest : List Obj)
  | finish (a : Id) (rest : List Obj)
  /-- `try_free_all_memory` succeeds, with what it finds as `objects_used`. -/
  | destroy (a : Id) (used : Slot → Nat)

variable {Id : Type u} {Obj : Type v}

/-- Whether the allocator is inside a call that may enter it again. -/
def mayEnter : List (Frame Id Obj) → Bool
  | [] | .freeing _ :: _ | .putting _ _ _ :: _ => true
  | _ => false

namespace State

/-- Nothing has been cut; memory reads as it happens to. -/
def initial (next : Obj → Option Obj) (value : Obj → Data Obj) : State Id Obj where
  free := fun _ _ => []
  own := fun _ => []
  live := []
  cut := fun _ _ => []
  head := fun _ => none
  next := next
  value := value
  frames := fun _ => []
  list := fun _ => []
  place := fun _ => .unborn
  log := []

variable [DecidableEq Id] [DecidableEq Obj]

/-- The objects of a class that are not in their vector. -/
def out (st : State Id Obj) (a : Id) (s : Slot) : Nat :=
  (st.cut a s).length - (st.free a s).length

/-- `allocated_for_self_objects` of a class. -/
def allocatedForSelf (L : Layout Id Obj) (st : State Id Obj) (a : Id) (s : Slot) : Nat :=
  (st.own a).countP fun x => L.slot x = s

/-- Where an action may be taken. -/
def Enabled (L : Layout Id Obj) (st : State Id Obj) : Action Id Obj → Prop
  | .cut x => st.place x = .unborn
  | .take a s x | .takeOwn a s x => mayEnter (st.frames a) ∧ x ∈ st.free a s
  | .deallocLocal a x => mayEnter (st.frames a) ∧ x ∈ st.live ∧ L.owner x = a
  | .deallocRemote a x => mayEnter (st.frames a) ∧ x ∈ st.live ∧ L.owner x ≠ a
  | .deallocOwn a x => mayEnter (st.frames a) ∧ x ∈ st.own a
  | .write none x _ _ => x ∈ st.live
  | .write (some a) x _ _ => x ∈ st.own a
  | .allocNode a x n => (st.frames a).head? = some (.freeing x) ∧ n ∈ st.free a nodeSlot
  | .loadHead a n target => (st.frames a).head? = some (.pushing n target none)
  | .exchange a n target expected _ =>
      (st.frames a).head? = some (.pushing n target (some expected))
  | .drain a => mayEnter (st.frames a)
  | .takeReturned a n rest =>
      (st.frames a).head? = some (.draining (some n) rest) ∧ (st.value n).ptr = n
  | .takeCarried a n s rest =>
      (st.frames a).head? = some (.draining (some n) rest) ∧ (st.value n).ptr ≠ n ∧
        (st.value n).slot = some s
  | .put a s x origin => (st.frames a).head? = some (.putting s x origin)
  | .giveBack a n nextOfNode rest => (st.frames a).head? = some (.returning n nextOfNode rest)
  | .finish a rest => (st.frames a).head? = some (.draining none rest)
  | .destroy a used => st.frames a = [] ∧ (∀ s, st.out a s ≤ used s) ∧
      ∀ s, used s = st.allocatedForSelf L a s

@[simps] def setFrames (a : Id) (fs : List (Frame Id Obj)) (st : State Id Obj) : State Id Obj :=
  { st with frames := Function.update st.frames a fs }

@[simps] def setPlace (x : Obj) (p : Place Id Obj) (st : State Id Obj) : State Id Obj :=
  { st with place := Function.update st.place x p }

@[simps] def setFree (a : Id) (s : Slot) (xs : List Obj) (st : State Id Obj) : State Id Obj :=
  { st with free := Function.update st.free a (Function.update (st.free a) s xs) }

@[simps] def setCut (a : Id) (s : Slot) (xs : List Obj) (st : State Id Obj) : State Id Obj :=
  { st with cut := Function.update st.cut a (Function.update (st.cut a) s xs) }

@[simps] def setOwn (a : Id) (xs : List Obj) (st : State Id Obj) : State Id Obj :=
  { st with own := Function.update st.own a xs }

@[simps] def setLive (xs : List Obj) (st : State Id Obj) : State Id Obj := { st with live := xs }

@[simps] def setValue (n : Obj) (d : Data Obj) (st : State Id Obj) : State Id Obj :=
  { st with value := Function.update st.value n d }

@[simps] def setNext (n : Obj) (p : Option Obj) (st : State Id Obj) : State Id Obj :=
  { st with next := Function.update st.next n p }

/-- Change the head of a list, and the list with it. -/
@[simps] def setList (b : Id) (head : Option Obj) (list : List Obj) (st : State Id Obj) :
    State Id Obj :=
  { st with head := Function.update st.head b head, list := Function.update st.list b list }

@[simps] def record (e : Event Obj) (st : State Id Obj) : State Id Obj :=
  { st with log := e :: st.log }

/-- Replace the top frame of an allocator by these. -/
def setTop (a : Id) (fs : List (Frame Id Obj)) (st : State Id Obj) : State Id Obj :=
  st.setFrames a (fs ++ (st.frames a).tail)

/-- Enter the allocator once more. -/
def enter (a : Id) (f : Frame Id Obj) (st : State Id Obj) : State Id Obj :=
  st.setFrames a (f :: st.frames a)

/-- What a put into a vector completes. -/
def complete (x : Obj) : Origin → State Id Obj → State Id Obj
  | .remote, st => st.record (.delivered x)
  | .node, st => st.record (.home x)
  | .freeing, st | .localFree, st => st

/-- What an action does. -/
def step (L : Layout Id Obj) (st : State Id Obj) : Action Id Obj → State Id Obj
  | .cut x =>
      ((st.setFree (L.owner x) (L.slot x) (x :: st.free (L.owner x) (L.slot x))).setCut (L.owner x)
        (L.slot x) (x :: st.cut (L.owner x) (L.slot x))).setPlace x (.free (L.owner x) (L.slot x))
  | .take a s x =>
      ((st.setFree a s ((st.free a s).erase x)).setLive (x :: st.live)).setPlace x .live
  | .takeOwn a s x =>
      ((st.setFree a s ((st.free a s).erase x)).setOwn a (x :: st.own a)).setPlace x (.own a)
  | .deallocLocal a x =>
      ((st.enter a (.putting (L.slot x) x .localFree)).setLive (st.live.erase x)).setPlace x
        (.hand a .localFree)
  | .deallocRemote a x =>
      (((st.enter a (.freeing x)).setLive (st.live.erase x)).setPlace x (.hand a .freeing)).record
        (.sent x)
  | .deallocOwn a x =>
      ((st.enter a (.putting (L.slot x) x .localFree)).setOwn a ((st.own a).erase x)).setPlace x
        (.hand a .localFree)
  | .write _ x d p => (st.setValue x d).setNext x p
  | .allocNode a x n =>
      (((((st.setTop a [.pushing n (L.owner x) none]).setFree a nodeSlot
        ((st.free a nodeSlot).erase n)).setValue n ⟨x, some (L.slot x)⟩).setPlace n
        (.held a)).setPlace x (.carried n)).record (.lent n)
  | .loadHead a n target => st.setTop a [.pushing n target (some (st.head target))]
  | .exchange a n target expected spurious =>
      if st.head target = expected ∧ spurious = false then
        (((st.setNext n expected).setTop a []).setList target (some n)
          (n :: st.list target)).setPlace n (.listed target)
      else (st.setNext n expected).setTop a [.pushing n target (some (st.head target))]
  | .drain a =>
      { (st.enter a (.draining (st.head a) (st.list a))).setList a none [] with
        place := fun n => if st.place n = .listed a then .held a else st.place n }
  | .takeReturned a n rest =>
      (st.setTop a [.putting nodeSlot n .node, .draining (st.next n) rest.tail]).setPlace n
        (.hand a .node)
  | .takeCarried a n s rest =>
      ((st.setTop a [.putting s (st.value n).ptr .remote,
        .returning n (st.next n) rest.tail]).setPlace n (.spent a)).setPlace (st.value n).ptr
        (.hand a .remote)
  | .put a s x origin =>
      (((st.setTop a []).setFree a s (x :: st.free a s)).setPlace x (.free a s)).complete x origin
  | .giveBack a n nextOfNode rest =>
      (((st.setTop a [.pushing n (L.owner n) none, .draining nextOfNode rest]).setValue n
        ⟨n, none⟩).setPlace n (.held a)).record (.returned n)
  | .finish a _ => st.setTop a []
  | .destroy a _ =>
      { st with
        free := Function.update st.free a fun _ => []
        own := Function.update st.own a []
        cut := Function.update st.cut a fun _ => []
        place := fun x =>
          if st.place x = .free a (L.slot x) ∨ st.place x = .own a then .released
          else st.place x }

/-- One step of an arbitrary interleaving. -/
def Step (L : Layout Id Obj) (st : State Id Obj) (a : Action Id Obj) (st' : State Id Obj) : Prop :=
  st.Enabled L a ∧ st' = st.step L a

end State

end Memalart.RemoteFree
