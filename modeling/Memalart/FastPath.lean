/-
# The fast path

A class that has a free object serves it, and a class whose vector has room takes an object
back, without the rest of the allocator.  As long as nothing else is asked for, the free objects
of every class are a stack: the operating system is not called, no vector moves and no State is
begun.
-/

import Memalart.Conservation

namespace Memalart

open Memalart.Lib ThreadLocalAllocator

variable {P : Params} {w w' : World P} {s s' : Session P}

/-! ## Stacks of free objects -/

/-- The free objects of every class, the next one to be served first. -/
abbrev Piles := Slot → List Nat

/-- A block is popped from the stack of its class, or pushed on it if there is room. -/
inductive Piles.Step (room : Slot → Nat) : Piles → Call → Piles → Prop
  | served {piles : Piles} {b : Block} {slot : Slot} {rest : List Nat}
      (hslot : slotForSize b.size = some slot) (htop : piles slot = b.ptr :: rest) :
      Step room piles (.served b) (Function.update piles slot rest)
  | freed {piles : Piles} {b : Block} {slot : Slot} (hslot : slotForSize b.size = some slot)
      (hroom : (piles slot).length < room slot) :
      Step room piles (.freed b) (Function.update piles slot (b.ptr :: piles slot))

namespace Session

/-- The free objects of an allocator. -/
def piles (s : Session P) : Piles := fun slot => (s.world.inner.objectTable slot).elems

/-- How many free objects fit into the vectors as they are. -/
def room (s : Session P) (slot : Slot) : Nat := (s.world.inner.objectTable slot).cap

/-- The class of the call has an object, or room for one. -/
def Fast (s : Session P) : Call → Prop
  | .served b => ∃ slot, slotForSize b.size = some slot ∧ s.piles slot ≠ []
  | .refused size => ∃ slot, slotForSize size = some slot ∧ s.piles slot ≠ []
  | .freed b => ∃ slot, slotForSize b.size = some slot ∧ (s.piles slot).length < s.room slot
  | .trimmed _ | .outside _ _ => False

/-- A call on the fast path. -/
def FastStep (s : Session P) (c : Call) (s' : Session P) : Prop := Step s c s' ∧ s.Fast c

end Session

/-! ## One call -/

/-- Nothing but the elements of the vectors of free objects has changed. -/
structure OnlyObjects (w w' : World P) : Prop where
  eq : w' = { w with inner := { w.inner with objectTable := w'.inner.objectTable } }
  buffers : ∀ slot, (w'.inner.objectTable slot).ptr = (w.inner.objectTable slot).ptr ∧
    (w'.inner.objectTable slot).cap = (w.inner.objectTable slot).cap

namespace OnlyObjects

theorem refl (w : World P) : OnlyObjects w w := ⟨rfl, fun _ => ⟨rfl, rfl⟩⟩

theorem trans {w₁ : World P} (h : OnlyObjects w w₁) (h' : OnlyObjects w₁ w') :
    OnlyObjects w w' where
  eq := by
    rw [h'.eq, h.eq]
  buffers slot :=
    ⟨(h'.buffers slot).1.trans (h.buffers slot).1, (h'.buffers slot).2.trans (h.buffers slot).2⟩

/-- One vector gets other elements. -/
theorem setVec {slot : Slot} {vec : SelfAllocatedVec Nat}
    (hptr : vec.ptr = (w.inner.objectTable slot).ptr)
    (hcap : vec.cap = (w.inner.objectTable slot).cap) :
    OnlyObjects w (w.setVec (.object slot) vec) where
  eq := rfl
  buffers t := by
    show (if t = slot then vec else w.inner.objectTable t).ptr = _ ∧
      (if t = slot then vec else w.inner.objectTable t).cap = _
    by_cases ht : t = slot
    · rw [if_pos ht, ht]
      exact ⟨hptr, hcap⟩
    · rw [if_neg ht]
      exact ⟨rfl, rfl⟩

end OnlyObjects

/-- The piles after one vector has got other elements. -/
theorem Session.piles_setVec (w : World P) (live : List Block) (slot : Slot)
    (vec : SelfAllocatedVec Nat) :
    (⟨w.setVec (.object slot) vec, live⟩ : Session P).piles =
      Function.update (⟨w, live⟩ : Session P).piles slot vec.elems := by
  funext t
  show (if t = slot then vec else w.inner.objectTable t).elems = _
  by_cases ht : t = slot
  · rw [if_pos ht, ht, Function.update_self]
  · rw [if_neg ht, Function.update_of_ne ht]
    rfl

/-- A free object of the class is served at once. -/
theorem returns_tryAlloc_fast {A : AllocatorForSelfAllocations P} {size ptr : Nat} {slot : Slot}
    {vec : SelfAllocatedVec Nat} (hslot : slotForSize size = some slot)
    (hpop : (w.inner.objectTable slot).pop = some (ptr, vec)) :
    (tryAlloc A size).Returns w (some ptr) (w.setVec (.object slot) vec) := by
  have hobject : (popObject slot).Returns w (some ptr) (w.setVec (.object slot) vec) := by
    unfold Machine.Returns popObject
    rw [hpop]
  unfold slotForSize at hslot
  unfold tryAlloc
  cases hclass : SizeClass.define size with
  | common =>
      rw [hclass] at hslot
      rw [allocCommon, Machine.returns_bind]
      refine ⟨slot, w, Machine.returns_orFault.2 ⟨hslot, rfl⟩, ?_⟩
      rw [Machine.returns_bind]
      exact ⟨some ptr, _, hobject, Machine.returns_pure.2 ⟨rfl, rfl⟩⟩
  | large =>
      rw [hclass] at hslot
      rw [allocLarge, Machine.returns_bind]
      refine ⟨slot, w, Machine.returns_orFault.2 ⟨hslot, rfl⟩, ?_⟩
      rw [Machine.returns_bind]
      exact ⟨some ptr, _, hobject, Machine.returns_pure.2 ⟨rfl, rfl⟩⟩
  | extraLarge =>
      rw [hclass] at hslot
      cases hslot

/-- A push into a vector with room moves nothing. -/
theorem returns_push_fast {A : AllocatorForSelfAllocations P} {limit ok : Bool} {ptr : Nat}
    {slot : Slot}
    (hroom : (w.inner.objectTable slot).elems.length < (w.inner.objectTable slot).cap)
    (h : (push A limit (.object slot) ptr false).Returns w ok w') :
    ∃ vec : SelfAllocatedVec Nat, vec.elems = ptr :: (w.inner.objectTable slot).elems ∧
      vec.ptr = (w.inner.objectTable slot).ptr ∧ vec.cap = (w.inner.objectTable slot).cap ∧
      ok = true ∧ w' = w.setVec (.object slot) vec := by
  obtain ⟨answer, w₂, hreserve, hextend⟩ := Machine.returns_bind.1 h
  have hkept : answer = some false ∧ w₂ = w := by
    obtain ⟨need, w₃, hneed, hreserve⟩ := Machine.returns_bind.1 hreserve
    obtain ⟨rfl, rfl⟩ := Machine.returns_gets.1 hneed
    obtain ⟨cap, w₄, hcap, hreserve⟩ := Machine.returns_bind.1 hreserve
    obtain ⟨rfl, rfl⟩ := Machine.returns_gets.1 hcap
    have henough : (w₄.vec (.object slot)).cap ≥ (w₄.vec (.object slot)).len + [ptr].length := hroom
    rw [if_pos henough] at hreserve
    exact Machine.returns_pure.1 hreserve
  obtain ⟨rfl, rfl⟩ := hkept
  obtain ⟨_, w₅, hentered, hdone⟩ := Machine.returns_bind.1 hextend
  obtain ⟨rfl, rfl⟩ := Machine.returns_pure.1 hdone
  obtain ⟨vec, hvec, rfl⟩ := returns_extendUnchecked.1 hentered
  obtain ⟨helems, hcap, hptr⟩ := SelfAllocatedVec.tryExtend_eq_some hvec
  exact ⟨vec, helems, hptr, hcap, rfl, rfl⟩

theorem returns_pushObjectOrPanic_fast {A : AllocatorForSelfAllocations P} {ptr : Nat} {slot : Slot}
    (hroom : (w.inner.objectTable slot).elems.length < (w.inner.objectTable slot).cap) {u : Unit}
    (h : (pushObjectOrPanic A slot ptr false).Returns w u w') :
    ∃ vec : SelfAllocatedVec Nat, vec.elems = ptr :: (w.inner.objectTable slot).elems ∧
      vec.ptr = (w.inner.objectTable slot).ptr ∧ vec.cap = (w.inner.objectTable slot).cap ∧
      w' = w.setVec (.object slot) vec := by
  obtain ⟨ok, w₁, hpush, hok⟩ := Machine.returns_bind.1 h
  obtain ⟨vec, helems, hptr, hcap, rfl, rfl⟩ := returns_push_fast hroom hpush
  obtain ⟨-, rfl⟩ := Machine.returns_pure.1 hok
  exact ⟨vec, helems, hptr, hcap, rfl⟩

/-- A block of a class goes back to its vector; metadata of no manager lead nowhere. -/
theorem returns_dealloc_local {A : AllocatorForSelfAllocations P} {ptr size : Nat} {slot : Slot}
    (hslot : slotForSize size = some slot) (hown : OwnManager w.os w.inner.nonLocalPtrManager)
    {u : Unit} (h : (dealloc A ptr size).Returns w u w') :
    (pushObjectOrPanic A slot ptr false).Returns w u w' := by
  have hobject : (deallocObject A slot ptr).Returns w u w' := by
    unfold dealloc at h
    cases hclass : SizeClass.define size with
    | extraLarge =>
        rw [slotForSize, hclass] at hslot
        cases hslot
    | common | large =>
        rw [hclass] at h
        obtain ⟨t, w₁, hfound, hobject⟩ := Machine.returns_bind.1 h
        obtain ⟨ht, rfl⟩ := Machine.returns_orFault.1 hfound
        obtain rfl : slot = t := Option.some.inj (hslot.symm.trans ht)
        exact hobject
  obtain ⟨metadata, w₁, hmetadata, hrest⟩ := Machine.returns_bind.1 hobject
  obtain ⟨rfl, rfl⟩ := Machine.returns_gets.1 hmetadata
  obtain ⟨manager, w₂, hmanager, hrest⟩ := Machine.returns_bind.1 hrest
  obtain ⟨rfl, rfl⟩ := Machine.returns_gets.1 hmanager
  by_cases hsame : (w₂.os.metadata (chunkPtrToChunkMetadataPtr ptr)).nonLocalPtrManager =
      w₂.inner.nonLocalPtrManager.getD 0
  · rwa [if_pos hsame] at hrest
  · rw [if_neg hsame] at hrest
    refine absurd hrest (not_returns_deallocNonLocalPtr ?_)
    rcases hown (chunkPtrToChunkMetadataPtr ptr) with hnull | hmine
    · exact hnull
    · rw [hmine] at hsame
      exact absurd rfl hsame

/-! ## Runs -/

namespace Session

/-- A call on the fast path is a step of the stacks. -/
theorem FastStep.step {c : Call} (h : FastStep s c s') (hs : s.Rests) :
    OnlyObjects s.world s'.world ∧ Piles.Step s.room s.piles c s'.piles := by
  obtain ⟨hstep, hfast⟩ := h
  have halloc : ∀ {w w' : World P} {live : List Block} {size : Nat} {r : Option Nat} {slot : Slot}
      {depth : Nat}, slotForSize size = some slot → (⟨w, live⟩ : Session P).piles slot ≠ [] →
      (tryAlloc (threadLocalAllocator depth) size).Returns w r w' →
      ∃ ptr vec, (w.inner.objectTable slot).pop = some (ptr, vec) ∧ r = some ptr ∧
        w' = w.setVec (.object slot) vec := by
    intro w w' live size r slot depth hslot hne hret
    cases hpop : (w.inner.objectTable slot).pop with
    | none => exact absurd (SelfAllocatedVec.pop_eq_none.1 hpop) hne
    | some popped =>
        have hfast := returns_tryAlloc_fast (A := threadLocalAllocator depth) hslot hpop
        obtain ⟨hr, hw⟩ := Prod.mk.inj (Except.ok.inj (hret.symm.trans hfast))
        exact ⟨popped.1, popped.2, rfl, hr, hw⟩
  cases hstep with
  | @served w w' live ptr size depth hret =>
      obtain ⟨slot, hslot, hne⟩ := hfast
      obtain ⟨ptr', vec, hpop, hptr, rfl⟩ := halloc hslot hne hret
      obtain rfl := Option.some.inj hptr
      obtain ⟨helems, hcap, hbuffer⟩ := SelfAllocatedVec.pop_eq_some hpop
      refine ⟨.setVec hbuffer hcap, ?_⟩
      rw [piles_setVec]
      exact .served hslot helems
  | refused depth hret =>
      obtain ⟨slot, hslot, hne⟩ := hfast
      obtain ⟨ptr', vec, -, hptr, -⟩ := halloc hslot hne hret
      cases hptr
  | @freed w w' live b depth hlive hret =>
      obtain ⟨slot, hslot, hroom⟩ := hfast
      obtain ⟨vec, helems, hbuffer, hcap, rfl⟩ :=
        returns_pushObjectOrPanic_fast hroom (returns_dealloc_local hslot hs.own hret)
      refine ⟨.setVec hbuffer hcap, ?_⟩
      rw [piles_setVec, helems]
      exact .freed hslot hroom
  | trimmed k hret => exact hfast.elim
  | outside limit allocated => exact hfast.elim

/-- As long as each call finds an object or room in its class, no call is refused, the vectors
of free objects are stacks, and nothing else of the allocator changes: no memory is mapped or
unmapped, no limit is read, no vector grows.  Any class that has an object left serves it. -/
theorem fast_of_run {calls more : List Call} (h : Reached calls s) (hrun : Run FastStep s more s') :
    OnlyObjects s.world s'.world ∧ Run (Piles.Step s.room) s.piles more s'.piles ∧
      ∀ size slot ptr rest, slotForSize size = some slot → s'.piles slot = ptr :: rest →
        ∃ s'', Step s' (.served ⟨ptr, size⟩) s'' ∧ OnlyObjects s'.world s''.world := by
  have hall : OnlyObjects s.world s'.world ∧ Run (Piles.Step s.room) s.piles more s'.piles := by
    have hs := h.books.1
    clear h
    induction hrun with
    | nil s => exact ⟨.refl _, .nil _⟩
    | @cons s m s' c more hfast _ ih =>
        obtain ⟨honly, hstep⟩ := hfast.step hs
        obtain ⟨hrest, hsteps⟩ := ih (hfast.1.moves hs).1
        have hroom : m.room = s.room := funext fun slot => (honly.buffers slot).2
        rw [hroom] at hsteps
        exact ⟨honly.trans hrest, .cons hstep hsteps⟩
  refine ⟨hall.1, hall.2, fun size slot ptr rest hslot htop => ?_⟩
  obtain ⟨w, live⟩ := s'
  cases hpop : (w.inner.objectTable slot).pop with
  | none =>
      have hnil : (⟨w, live⟩ : Session P).piles slot = [] := SelfAllocatedVec.pop_eq_none.1 hpop
      rw [hnil] at htop
      cases htop
  | some popped =>
      obtain ⟨ptr', vec⟩ := popped
      obtain ⟨helems, hcap, hbuffer⟩ := SelfAllocatedVec.pop_eq_some hpop
      obtain ⟨rfl, -⟩ := List.cons.inj (helems.symm.trans htop)
      exact ⟨_, .served 0 (returns_tryAlloc_fast hslot hpop), .setVec hbuffer hcap⟩

/-- The first block is given back and served again for a smaller size. -/
theorem fast_of_run_again : ∃ s s' : Session lockFreeParams,
    Run FastStep s [.freed ⟨164036568, 24⟩, .served ⟨164036568, 20⟩] s' ∧
      Run (Piles.Step s.room) s.piles [.freed ⟨164036568, 24⟩, .served ⟨164036568, 20⟩] s'.piles ∧
        s'.world.os = s.world.os := by
  have hrun : trial 4 (fun _ s => (perform 4 (.dealloc ⟨164036568, 24⟩) s).any fun r =>
      r.1 = .freed ⟨164036568, 24⟩ &&
        (s.piles (.common 2)).length < s.room (.common 2) && r.2.piles (.common 2) ≠ [] &&
          (perform 4 (.tryAlloc 20) r.2).any fun q => q.1 = .served ⟨164036568, 20⟩)
      [.tryAlloc 24] [] freshAllocator = true := by
    decide +kernel
  obtain ⟨calls, s, hreached, hcheck⟩ := reached_of_trial (reached_initial [⟨0, 134217728⟩]) hrun
  obtain ⟨⟨call, m⟩, hfreed, hcheck⟩ := (Option.any_eq_true _ _).mp hcheck
  simp only [Bool.and_eq_true, decide_eq_true_eq] at hcheck
  obtain ⟨⟨⟨rfl, hroom⟩, hfree⟩, hcheck⟩ := hcheck
  obtain ⟨⟨call, s'⟩, hserved, hcheck⟩ := (Option.any_eq_true _ _).mp hcheck
  obtain rfl := of_decide_eq_true hcheck
  have hsteps : Run FastStep s [.freed ⟨164036568, 24⟩, .served ⟨164036568, 20⟩] s' :=
    .cons ⟨step_of_perform hfreed, .common 2, by decide, hroom⟩ <|
      .cons ⟨step_of_perform hserved, .common 2, by decide, hfree⟩ <| .nil s'
  obtain ⟨honly, hpiles, -⟩ := fast_of_run hreached hsteps
  exact ⟨s, s', hsteps, hpiles, by rw [honly.eq]⟩

end Session

end Memalart
