/-
# Before the first State is committed

Until the manager and both chunk tables exist there are no free chunks, so an
allocation that comes with a State either finds an object or is served by that
State, and changes nothing else.  This is how the manager, which every committed
chunk has to name, and the boxes of the chunk tables come to be.
-/

import Memalart.VectorSteps

namespace Memalart

open Memalart.Lib ThreadLocalAllocator

variable {P : Params} {A : AllocatorForSelfAllocations P}

/-! ## Paths that do nothing -/

section Returns

variable {w w' : World P}

/-- Nobody has sent anything. -/
theorem returns_checkNonLocalPtrs {u : Unit} (hincoming : w.incoming = [])
    (h : (checkNonLocalPtrs A).Returns w u w') : w' = w := by
  obtain ⟨manager, w₁, hmanager, hrest⟩ := Machine.returns_bind.mp h
  obtain ⟨rfl, rfl⟩ := Machine.returns_gets.mp hmanager
  cases hm : w₁.inner.nonLocalPtrManager with
  | none =>
      rw [hm] at hrest
      exact (Machine.returns_pure.mp hrest).2
  | some m =>
      rw [hm] at hrest
      obtain ⟨nodes, w₂, htake, hloop⟩ := Machine.returns_bind.mp hrest
      have htaken : (w₁.incoming, { w₁ with incoming := [] }) = (nodes, w₂) := Except.ok.inj htake
      rw [hincoming] at htaken
      obtain ⟨rfl, rfl⟩ := Prod.mk.inj htaken
      rw [(Machine.returns_pure.mp hloop).2, ← hincoming]

theorem returns_popObject_none {s : Slot} {r : Option Nat} (hempty : (w.inner.objectTable s).elems = [])
    (h : (popObject s).Returns w r w') : r = none ∧ w' = w := by
  simp only [Machine.Returns, popObject, SelfAllocatedVec.pop_eq_none.mpr hempty] at h
  cases h
  exact ⟨rfl, rfl⟩

/-- An object is popped, or the vector is empty. -/
theorem returns_popObject {s : Slot} {r : Option Nat} (h : (popObject s).Returns w r w') :
    (∃ ptr vec, (w.inner.objectTable s).pop = some (ptr, vec) ∧ r = some ptr ∧
      w' = w.setVec (.object s) vec) ∨
      ((w.inner.objectTable s).elems = [] ∧ r = none ∧ w' = w) := by
  simp only [Machine.Returns, popObject] at h
  split at h
  · next ptr vec hpop =>
      cases h
      exact .inl ⟨ptr, vec, hpop, rfl, rfl⟩
  · next hpop =>
      cases h
      exact .inr ⟨SelfAllocatedVec.pop_eq_none.mp hpop, rfl, rfl⟩

theorem popChunk_idle (k : ChunkKind) (hformed : w.WellFormed) (hready : ¬ w.Ready) :
    popChunk k w = (none, w) := by
  obtain ⟨hcommon, hlarge⟩ := hformed.idle hready
  cases k with
  | common => simp only [popChunk, SelfAllocatedVec.pop_eq_none.mpr hcommon]
  | large => simp only [popChunk, SelfAllocatedVec.pop_eq_none.mpr hlarge]

/-- The end of a slow path: a chunk enters its table and is cut. -/
def cutChunk (A : AllocatorForSelfAllocations P) (isAllocatingManager : Bool) (s : Slot)
    (realSize : Nat) (hasState : Bool) (chunk : Nat) : M P (Option Nat) := do
  ensureChunkTable A s.kind hasState
  if ← push A true (.chunk s) chunk hasState then
    let additional := s.kind.chunkSize / realSize - 1
    match ← reserve A true (.object s) additional hasState with
    | none => do
      record (.chunkLeftUncut chunk)
      pure none
    | some _ => do
      extendUnchecked (.object s) (firstSlots chunk realSize additional)
      let curr := chunk + additional * realSize
      let manager ← if isAllocatingManager then pure curr else getOrInitManager A hasState
      initCutMetadata s manager chunk curr
      pure (some curr)
  else do
    record (.chunkAbandoned chunk)
    pure none

/-- The part of a slow path after the check for incoming pointers. -/
def allocFresh (A : AllocatorForSelfAllocations P) (isAllocatingManager : Bool) (s : Slot)
    (realSize : Nat) (getChunk : M P (Option Nat)) (hasState : Bool) : M P (Option Nat) := do
  match ← getChunk with
  | none => pure none
  | some chunk => do
    match ← popObject s with
    | some ptr => do
      freeChunk s.kind chunk
      pure (some ptr)
    | none => cutChunk A isAllocatingManager s realSize hasState chunk

/-- With an empty vector and nothing incoming, a slow path asks for a chunk. -/
theorem returns_allocSlow {isAllocatingManager : Bool} {s : Slot} {realSize : Nat}
    {getChunk : M P (Option Nat)} {hasState : Bool} {r : Option Nat} (hincoming : w.incoming = [])
    (hempty : (w.inner.objectTable s).elems = [])
    (h : (allocSlow A isAllocatingManager s realSize getChunk hasState).Returns w r w') :
    (allocFresh A isAllocatingManager s realSize getChunk hasState).Returns w r w' := by
  simp only [allocSlow] at h
  cases hcheck : !isAllocatingManager && P.shouldAutoCheck with
  | true =>
      rw [hcheck, if_pos rfl] at h
      obtain ⟨u, w₁, hchecked, hrest⟩ := Machine.returns_bind.mp h
      obtain rfl := returns_checkNonLocalPtrs hincoming hchecked
      obtain ⟨incoming, w₂, hpop, hfresh⟩ := Machine.returns_bind.mp hrest
      obtain ⟨rfl, rfl⟩ := returns_popObject_none hempty hpop
      exact hfresh
  | false =>
      rw [hcheck, if_neg Bool.false_ne_true] at h
      obtain ⟨incoming, w₁, hnone, hfresh⟩ := Machine.returns_bind.mp h
      obtain ⟨rfl, rfl⟩ := Machine.returns_pure.mp hnone
      exact hfresh

end Returns

/-! ## Allocation from a State alone -/

/-- What an allocation has done that was served by an object or by the State that came
with it: only free vectors and the innermost chain have changed, and perhaps the flag of
that chain's head. -/
structure Boots (w : World P) (k : ChunkKind) (size : Nat) (r : Option Nat) (w' : World P) :
    Prop where
  inner : ∃ table, w'.inner = { w.inner with objectTable := table }
  incoming : w'.incoming = w.incoming
  treeBusy : w'.treeBusy = w.treeBusy
  states : ∀ s tail rest, w.states = (s :: tail) :: rest → ∃ flag chain',
    w'.states = chain' :: rest ∧ ∀ {γ : Type} {g : State → γ} {fresh : γ → Prop},
      Lasting k g fresh →
        Grows g fresh ({ s with isAllocatingNonLocalPtrManagerNow := flag } :: tail) chain'
  moves : Moves (w.estate 0) (w'.estate (blockOf size r))

theorem selfAlloc_of_slot {limit : Bool} {size : Nat} {hasState : Bool} {s : Slot}
    (hslot : slotForSize size = some s) :
    selfAlloc A limit size hasState = (do
      match ← tryAllocFromCache A s size hasState with
      | some ptr => pure (some ptr)
      | none => slowSelfAlloc A limit s.kind size hasState) := by
  have hlarge : SizeClass.define size ≠ .extraLarge := fun h => by
    simp [slotForSize, h] at hslot
  unfold selfAlloc slotOrFault
  rw [hslot]
  cases hclass : SizeClass.define size with
  | extraLarge => exact absurd hclass hlarge
  | common => rfl
  | large => rfl

theorem returns_currentState {w w' : World P} {s : State} (h : currentState.Returns w s w') :
    w' = w ∧ ∃ chain rest, w.states = (s :: chain) :: rest := by
  simp only [Machine.Returns, currentState] at h
  split at h
  · next s' chain rest hstates =>
      cases h
      exact ⟨rfl, chain, rest, hstates⟩
  · cases h

theorem returns_updateState {w w' : World P} {f : State → State} {u : Unit}
    (h : (updateState f).Returns w u w') :
    ∃ s chain rest, w.states = (s :: chain) :: rest ∧
      w' = { w with states := (f s :: chain) :: rest } := by
  simp only [Machine.Returns, updateState] at h
  split at h
  · next s chain rest hstates =>
      cases h
      exact ⟨s, chain, rest, hstates, rfl⟩
  · cases h

/-- Changing what is not an item of the head of the innermost chain. -/
theorem holdings_updateHead {w : World P} {s s' : State} {chain : List State}
    {rest : List (List State)} (hstates : w.states = (s :: chain) :: rest)
    (hitems : s'.items = s.items) :
    ({ w with states := (s' :: chain) :: rest } : World P).holdings = w.holdings := by
  simp only [World.holdings, hstates, List.map_cons, List.sum_cons, chainItems_cons, hitems]

/-- The allocation itself, from the State. -/
theorem boots_stateAllocSize {w w' : World P} {limit : Bool} {s : Slot} {size : Nat}
    {r : Option Nat} (hslot : slotForSize size = some s) (hreal : s.realSize = size)
    (h : (stateAllocSize limit s.kind size).Returns w r w') : Boots w s.kind size r w' := by
  obtain ⟨chain, rest, chain', os', hstates, halloc, rfl⟩ := returns_stateAllocSize.mp h
  refine ⟨⟨_, rfl⟩, rfl, rfl, fun t tail rest' hstates' => ?_, ?_⟩
  · rw [hstates] at hstates'
    obtain ⟨rfl, rfl⟩ := List.cons.inj hstates'
    exact ⟨t.isAllocatingNonLocalPtrManagerNow, chain', rfl, fun hg => grows_allocSize hg halloc⟩
  · refine (allocSize_moves hreal hslot halloc).framed
      (w.inner.items + (rest.map chainItems).sum) ?_ ?_
    · rw [World.holdings, hstates, List.map_cons, List.sum_cons]
      abel
    · rw [World.holdings, List.map_cons, List.sum_cons]
      abel

/-- Before the first State is committed an allocation with a State is served by an
object or by that State. -/
theorem returns_selfAlloc_boots {w w' : World P} {limit : Bool} {s : Slot} {size : Nat}
    {r : Option Nat} (hformed : w.WellFormed) (hready : ¬ w.Ready)
    (hslot : slotForSize size = some s) (hreal : s.realSize = size)
    (h : (selfAlloc A limit size true).Returns w r w') : Boots w s.kind size r w' := by
  rw [selfAlloc_of_slot hslot] at h
  obtain ⟨cached, w₁, hcache, hrest⟩ := Machine.returns_bind.mp h
  obtain ⟨popped, w₂, hpop, hmiss⟩ := Machine.returns_bind.mp hcache
  rcases returns_popObject hpop with ⟨ptr, vec, hvec, rfl, rfl⟩ | ⟨hempty, rfl, rfl⟩
  · -- an object of the class is free
    obtain ⟨rfl, rfl⟩ := Machine.returns_pure.mp hmiss
    obtain ⟨rfl, rfl⟩ := Machine.returns_pure.mp hrest
    obtain ⟨helems, hcap, hptr⟩ := SelfAllocatedVec.pop_eq_some hvec
    refine ⟨⟨_, rfl⟩, rfl, rfl, fun t tail rest hstates => ?_, ?_⟩
    · exact ⟨t.isAllocatingNonLocalPtrManagerNow, t :: tail, hstates, fun _ => .of_map rfl⟩
    · have hexchange := World.holdings_exchange (w := w) (v := .object s) (x := vec)
        (a := 0) (b := blockOf size (some ptr)) (by
          rw [blockOf_some, blockItem_of_slot hslot]
          simp only [vecItems, contents, World.vec, ThreadLocalAllocatorInner.vec, helems, hcap,
            hptr, Item.all_cons]
          abel)
      exact Moves.of_eq hexchange.symm
  · simp only [if_true] at hmiss
    obtain ⟨t, w₃, hhead, hread⟩ := Machine.returns_bind.mp hmiss
    obtain ⟨rfl, chain, rest, hstates⟩ := returns_currentState hhead
    obtain ⟨set, w₄, hset, hslow⟩ := Machine.returns_bind.mp hread
    obtain ⟨rfl, rfl⟩ := Machine.returns_pure.mp hset
    -- the flag is reset, and nothing else happens up to the State
    obtain ⟨flag, w₅, hw₅, hslow⟩ : ∃ flag w₅, w₅ = { w₄ with states := ({ t with
        isAllocatingNonLocalPtrManagerNow := flag } :: chain) :: rest } ∧
        (allocSlow A t.isAllocatingNonLocalPtrManagerNow s size (tryGetChunk s.kind) true).Returns
          w₅ cached w₁ := by
      cases hset : t.isAllocatingNonLocalPtrManagerNow with
      | true =>
          rw [hset, if_pos rfl] at hslow
          obtain ⟨u, w₅, hupdate, hslow⟩ := Machine.returns_bind.mp hslow
          obtain ⟨t', chain', rest', hstates', rfl⟩ := returns_updateState hupdate
          rw [hstates] at hstates'
          obtain ⟨heads, rfl⟩ := List.cons.inj hstates'
          obtain ⟨rfl, rfl⟩ := List.cons.inj heads
          exact ⟨false, _, rfl, hslow⟩
      | false =>
          rw [hset, if_neg Bool.false_ne_true] at hslow
          refine ⟨false, _, ?_, hslow⟩
          rw [← hset, ← hstates]
    have hitems : w₅.holdings = w₄.holdings := hw₅ ▸ holdings_updateHead hstates rfl
    have hformed' : w₅.WellFormed := by
      obtain ⟨t', tail', heads, hstorage⟩ := hformed.heads _ (hstates ▸ List.mem_cons_self)
      obtain ⟨rfl, rfl⟩ := List.cons.inj heads
      rw [hw₅]
      refine ⟨hformed.boxes, hformed.idle, fun c hc => ?_, hformed.incoming⟩
      rcases List.mem_cons.mp hc with rfl | hc
      · exact ⟨_, _, rfl, hstorage⟩
      · exact hformed.heads c (hstates ▸ List.mem_cons_of_mem _ hc)
    have hready' : ¬ w₅.Ready := hw₅ ▸ hready
    have hempty' : (w₅.inner.objectTable s).elems = [] := hw₅ ▸ hempty
    have hfresh := returns_allocSlow hformed'.incoming hempty' hslow
    obtain ⟨chunk, w₆, hchunk, hfresh⟩ := Machine.returns_bind.mp hfresh
    simp only [Machine.Returns, tryGetChunk, popChunk_idle s.kind hformed' hready'] at hchunk
    cases hchunk
    obtain ⟨rfl, rfl⟩ := Machine.returns_pure.mp hfresh
    obtain ⟨⟨table, hinner⟩, hincoming, hbusy, hgrows, hmoves⟩ :=
      boots_stateAllocSize hslot hreal hrest
    refine ⟨⟨table, ?_⟩, ?_, ?_, ?_, ?_⟩
    · rw [hinner, hw₅]
    · rw [hincoming, hw₅]
    · rw [hbusy, hw₅]
    · intro t' tail' rest' hstates'
      rw [hstates] at hstates'
      obtain ⟨heads, rfl⟩ := List.cons.inj hstates'
      obtain ⟨rfl, rfl⟩ := List.cons.inj heads
      obtain ⟨flag', chain', hstates'', hg⟩ := hgrows _ _ _ (congrArg World.states hw₅)
      exact ⟨flag', chain', hstates'', hg⟩
    · have hestate : w₄.estate 0 = w₁.estate 0 := by
        rw [World.estate, World.estate, hitems, hw₅]
      rw [hestate]
      exact hmoves

/-! ## The manager -/

/-- An allocator that also serves before the first State is committed. -/
structure ServesAlways (A : AllocatorForSelfAllocations P) : Prop extends Serves A where
  boots : ∀ {w w' : World P} {limit : Bool} {s : Slot} {size : Nat} {r : Option Nat},
    w.WellFormed → ¬ w.Ready → slotForSize size = some s → s.realSize = size →
      (A.selfAlloc limit size true).Returns w r w' → Boots w s.kind size r w'

/-- The manager is an item like any other object. -/
theorem holdings_setManager {w : World P} (hnone : w.inner.nonLocalPtrManager = none) (ptr : Nat) :
    ({ w with inner := { w.inner with nonLocalPtrManager := some ptr } } : World P).holdings =
      w.holdings + managerItems P (some ptr) := by
  have hvecs : ∀ v, ({ w.inner with nonLocalPtrManager := some ptr } :
      ThreadLocalAllocatorInner P).vec v = w.inner.vec v := fun v => by cases v <;> rfl
  have hold : managerItems P none = 0 := by
    unfold managerItems
    split <;> rfl
  simp only [World.holdings, ThreadLocalAllocatorInner.items, hvecs, hnone, hold, add_zero]
  abel

theorem managerItems_eq {P : Params} (hsize : P.managerSize ≠ 0) (ptr : Nat) :
    managerItems P (some ptr) = blockOf (recommendedSize P.managerSize) (some ptr) := by
  rw [managerItems, if_neg hsize, blockOf_some, blockOf_some,
    blockItem_recommendedSize (Nat.one_le_iff_ne_zero.mpr hsize) P.managerSize_le]

theorem slotForSize_manager {P : Params} (hsize : P.managerSize ≠ 0) :
    ∃ s, slotForSize (recommendedSize P.managerSize) = some s ∧
      s.realSize = recommendedSize P.managerSize := by
  obtain ⟨s, -, hreal, -⟩ := slotForSize_spec (Nat.one_le_iff_ne_zero.mpr hsize) P.managerSize_le
  exact ⟨s, hreal ▸ slotForSize_realSize s, hreal⟩

theorem not_ready_of_manager {w : World P} (h : w.inner.nonLocalPtrManager = none) : ¬ w.Ready :=
  fun hready => hready.1 h

/-- The manager is allocated from the State, whose flag is set meanwhile. -/
theorem step_allocManager (hA : ServesAlways A) (hsize : P.managerSize ≠ 0) {w w' : World P}
    {u : Unit} (hformed : w.WellFormed) (hcalm : w.Calm)
    (hnone : w.inner.nonLocalPtrManager = none) (h : (allocManager A).Returns w u w') :
    Step w 0 w' 0 := by
  obtain ⟨u₁, w₁, hset, h⟩ := Machine.returns_bind.mp h
  obtain ⟨s, tail, rest, hstates, hw₁⟩ := returns_updateState hset
  obtain ⟨r, w₂, halloc, h⟩ := Machine.returns_bind.mp h
  cases r with
  | none => exact absurd h Machine.not_returns_fault
  | some ptr =>
      obtain ⟨u₂, w₃, hmanager, hreset⟩ := Machine.returns_bind.mp h
      have hw₃ := Machine.returns_modify.mp hmanager
      have hready := not_ready_of_manager hnone
      obtain ⟨hcommon, hlarge⟩ := hformed.idle hready
      -- the State that the flag is set of
      have hitems : w₁.holdings = w.holdings := hw₁ ▸ holdings_updateHead hstates rfl
      obtain ⟨s₀, tail₀, heads, hstorage⟩ := hformed.heads _ (hstates ▸ List.mem_cons_self)
      obtain ⟨rfl, rfl⟩ := List.cons.inj heads
      have hformed₁ : w₁.WellFormed := by
        rw [hw₁]
        refine ⟨hformed.boxes, hformed.idle, fun c hc => ?_, hformed.incoming⟩
        rcases List.mem_cons.mp hc with rfl | hc
        · exact ⟨_, _, rfl, hstorage⟩
        · exact hformed.heads c (hstates ▸ List.mem_cons_of_mem _ hc)
      obtain ⟨slot, hslot, hreal⟩ := slotForSize_manager hsize
      obtain ⟨⟨table, hinner⟩, hincoming, hbusy, hgrows, hmoves⟩ :=
        hA.boots hformed₁ (hw₁ ▸ hready) hslot hreal halloc
      obtain ⟨flag, chain', hstates₂, hg⟩ := hgrows _ _ _ (congrArg World.states hw₁)
      obtain ⟨s', tail', rfl, hstorage'⟩ := (hg (lasting_storage slot.kind)).head
      obtain ⟨s₁, tail₁, rest₁, hstates₃, rfl⟩ := returns_updateState hreset
      have hstates₃' : w₃.states = (s' :: tail') :: rest := by rw [hw₃]; exact hstates₂
      rw [hstates₃'] at hstates₃
      obtain ⟨heads, rfl⟩ := List.cons.inj hstates₃
      obtain ⟨rfl, rfl⟩ := List.cons.inj heads
      have hinner₃ : w₃.inner = { w.inner with objectTable := table, nonLocalPtrManager := some ptr } := by
        rw [hw₃, hinner, hw₁]
      have hbox : ∀ k, chunkTableBox k w₃ = chunkTableBox k w := fun k => by
        cases k <;> simp only [chunkTableBox, hinner₃]
      have htail : ∀ t ∈ tail', t.isAllocatingNonLocalPtrManagerNow = false := by
        intro t ht
        rcases (hg (lasting_flag slot.kind)).tail.mem ht with ⟨t₀, ht₀, heq⟩ | hfalse
        · exact heq.trans (hcalm _ (hstates ▸ List.mem_cons_self) t₀ (List.mem_cons_of_mem _ ht₀))
        · exact hfalse
      have hmanager : w₁.inner.nonLocalPtrManager = none := by rw [hw₁, hnone]
      have hmanager₂ : w₂.inner.nonLocalPtrManager = none := by rw [hinner, hmanager]
      refine ⟨⟨?_, ?_, ?_, ?_⟩, ?_, ⟨?_, ?_, ?_⟩, by simp, le_rfl, ?_, ?_⟩
      · intro k hk t ht
        show w₃.inner.chunkTable t = .new
        rw [hinner₃]
        exact hformed.boxes k ((hbox k).symm.trans hk) t ht
      · intro _
        show w₃.inner.freeCommonChunks.elems = [] ∧ w₃.inner.freeLargeChunks.elems = []
        rw [hinner₃]
        exact ⟨hcommon, hlarge⟩
      · intro c hc
        rcases List.mem_cons.mp hc with rfl | hc
        · exact ⟨_, _, rfl, hstorage'.trans hstorage⟩
        · exact hformed.heads c (hstates ▸ List.mem_cons_of_mem _ hc)
      · show w₃.incoming = []
        rw [hw₃]
        rw [hw₁] at hincoming
        exact hincoming.trans hformed.incoming
      · intro c hc t ht
        rcases List.mem_cons.mp hc with rfl | hc
        · rcases List.mem_cons.mp ht with rfl | ht
          · rfl
          · exact htail t ht
        · exact hcalm c (hstates ▸ List.mem_cons_of_mem _ hc) t ht
      · intro m hm
        rw [hnone] at hm
        cases hm
      · intro k hk
        exact (hbox k).trans_ne hk
      · intro hset
        refine ⟨?_, ?_⟩
        · show w₃.treeBusy = true
          rw [hw₃]
          rw [hw₁] at hbusy
          exact hbusy.trans hset
        · show w₃.inner.allocatedLargeSizes = _
          rw [hinner₃]
      · show (_ :: rest).length + depth 0 = w.states.length + depth 0
        rw [hstates]
        rfl
      · have hlast : ({ w₃ with states := ({ s' with isAllocatingNonLocalPtrManagerNow := false } ::
            tail') :: rest } : World P).holdings = w₃.holdings :=
          holdings_updateHead hstates₃' rfl
        have hend : w₃.holdings =
            w₂.holdings + blockOf (recommendedSize P.managerSize) (some ptr) := by
          rw [hw₃, holdings_setManager hmanager₂, managerItems_eq hsize]
        have hstart : w.estate 0 = w₁.estate 0 := by
          rw [World.estate, World.estate, hitems, hmanager, hnone, hw₁]
        rw [itemsOf_zero, hstart]
        refine hmoves.trans ?_
        rw [World.estate, World.estate, hmanager₂, hlast, hend, add_zero]
        show Moves _ ⟨w₃.os, w₃.inner.nonLocalPtrManager, _⟩
        rw [show w₃.os = w₂.os by rw [hw₃], show w₃.inner.nonLocalPtrManager = some ptr by rw [hinner₃]]
        exact Moves.single (.manage ptr) _ (zero_add _).symm (zero_add _).symm

theorem step_registerDestructor {w w' : World P} {u : Unit} (hformed : w.WellFormed)
    (hcalm : w.Calm) (h : registerDestructor.Returns w u w') :
    Step w 0 w' 0 ∧ w'.inner.nonLocalPtrManager = w.inner.nonLocalPtrManager := by
  obtain ⟨registered, w₁, hread, hrest⟩ := Machine.returns_bind.mp h
  obtain ⟨rfl, rfl⟩ := Machine.returns_gets.mp hread
  split at hrest
  · exact absurd hrest Machine.not_returns_fault
  · obtain rfl := Machine.returns_modify.mp hrest
    have hready : ∀ w' : World P, w'.inner.nonLocalPtrManager = w₁.inner.nonLocalPtrManager →
        (∀ k, chunkTableBox k w' = chunkTableBox k w₁) → (w'.Ready ↔ w₁.Ready) := by
      intro w' hm hbox
      rw [World.Ready, World.Ready, hm]
      simp only [hbox]
    refine ⟨⟨⟨fun k hk => hformed.boxes k ?_, fun h => hformed.idle ?_, hformed.heads,
      hformed.incoming⟩, hcalm, ⟨fun _ h => h, fun k hk => ?_, fun h => ⟨h, rfl⟩⟩, by simp, le_rfl,
      rfl, ?_⟩, rfl⟩
    · cases k <;> exact hk
    · exact fun hready' => h ((hready _ rfl fun k => by cases k <;> rfl).mpr hready')
    · cases k <;> exact hk
    · refine Moves.of_eq ?_
      have hvecs : ∀ v, ThreadLocalAllocatorInner.vec
          { w₁.inner with isDestructorRegistered := true, isAlreadyDestructured := false } v =
            w₁.inner.vec v := fun v => by cases v <;> rfl
      simp only [World.holdings, ThreadLocalAllocatorInner.items, hvecs]

/-- A manager that takes no memory. -/
theorem step_setManager (hsize : P.managerSize = 0) {w : World P} (hformed : w.WellFormed)
    (hcalm : w.Calm) (hnone : w.inner.nonLocalPtrManager = none) (ptr : Nat) :
    Step w 0 { w with inner := { w.inner with nonLocalPtrManager := some ptr } } 0 := by
  obtain ⟨hcommon, hlarge⟩ := hformed.idle (not_ready_of_manager hnone)
  refine ⟨⟨fun k hk => hformed.boxes k ?_, fun _ => ⟨hcommon, hlarge⟩, hformed.heads,
    hformed.incoming⟩, hcalm, ⟨fun m hm => ?_, fun k hk => ?_, fun h => ⟨h, rfl⟩⟩, by simp, le_rfl,
    rfl, ?_⟩
  · cases k <;> exact hk
  · rw [hnone] at hm
    cases hm
  · cases k <;> exact hk
  · rw [World.estate, World.estate, holdings_setManager hnone, managerItems, if_pos hsize, hnone]
    exact Moves.single (.manage ptr) _ (zero_add _).symm (by rw [add_zero, zero_add])

/-- The part of `get_or_init_and_get_non_local_ptr_manager_ptr` that stores a manager. -/
def storeManager (A : AllocatorForSelfAllocations P) : M P Nat :=
  let readBack : M P Nat := do
    Machine.orFault (.bugHint "the manager has been stored") (← managerPtr)
  if P.managerSize = 0 then do
    setManager danglingManager
    readBack
  else do
    allocManager A
    readBack

/-- The manager exists once somebody has asked for it. -/
theorem getOrInitManagerWithState_triple (hA : ServesAlways A) :
    (discipline P).Triple 0 (getOrInitManagerWithState A) fun m => {.manager m} := by
  refine triple_of_step fun w rest m w' hs hret => ?_
  have hknown : ∀ w₁ : World P, w₁.WellFormed → w₁.Calm → w₁.inner.nonLocalPtrManager = some m →
      Step w₁ 0 w₁ {.manager m} := fun w₁ hformed hcalm hm =>
    .stay hformed hcalm (by simpa [Token.Holds] using hm) (by simp [Token.busyness])
      (by simp [Token.depth]) (by simp [Token.items])
  obtain ⟨found, w₁, hptr, hrest⟩ := Machine.returns_bind.mp hret
  obtain ⟨rfl, rfl⟩ := Machine.returns_gets.mp hptr
  cases hm : w₁.inner.nonLocalPtrManager with
  | some ptr =>
      rw [hm] at hrest
      obtain ⟨rfl, rfl⟩ := Machine.returns_pure.mp hrest
      exact hknown _ hs.formed hs.calm hm
  | none =>
      rw [hm] at hrest
      obtain ⟨registered, w₂, hread, hrest⟩ := Machine.returns_bind.mp hrest
      obtain ⟨rfl, rfl⟩ := Machine.returns_gets.mp hread
      dsimp only at hrest
      -- the destructor is registered
      obtain ⟨w₃, hstep, hm₃, hrest⟩ : ∃ w₃, Step w₂ 0 w₃ 0 ∧ w₃.inner.nonLocalPtrManager = none ∧
          (storeManager A).Returns w₃ m w' := by
        cases hregistered : w₂.inner.isDestructorRegistered with
        | true =>
            rw [hregistered, if_pos rfl] at hrest
            exact ⟨w₂, .stay hs.formed hs.calm (by simp) le_rfl rfl rfl, hm, hrest⟩
        | false =>
            rw [hregistered, if_neg Bool.false_ne_true] at hrest
            obtain ⟨u, w₃, hregister, hrest⟩ := Machine.returns_bind.mp hrest
            obtain ⟨hstep, hkept⟩ := step_registerDestructor hs.formed hs.calm hregister
            exact ⟨w₃, hstep, hkept.trans hm, hrest⟩
      -- and the manager is stored
      obtain ⟨w₄, hstep₄, hrest⟩ : ∃ w₄, Step w₃ 0 w₄ 0 ∧ (do
          Machine.orFault (.bugHint "the manager has been stored") (← managerPtr) :
            M P Nat).Returns w₄ m w' := by
        by_cases hsize : P.managerSize = 0
        · rw [storeManager, if_pos hsize] at hrest
          obtain ⟨u, w₄, hset, hrest⟩ := Machine.returns_bind.mp hrest
          obtain rfl := Machine.returns_modify.mp hset
          exact ⟨_, step_setManager hsize hstep.formed hstep.calm hm₃ _, hrest⟩
        · rw [storeManager, if_neg hsize] at hrest
          obtain ⟨u, w₄, halloc, hrest⟩ := Machine.returns_bind.mp hrest
          exact ⟨w₄, step_allocManager hA hsize hstep.formed hstep.calm hm₃ halloc, hrest⟩
      obtain ⟨found, w₅, hptr, hrest⟩ := Machine.returns_bind.mp hrest
      obtain ⟨rfl, rfl⟩ := Machine.returns_gets.mp hptr
      obtain ⟨hm₅, rfl⟩ := Machine.returns_orFault.mp hrest
      exact (hstep.trans hstep₄).trans (hknown _ hstep₄.formed hstep₄.calm hm₅)

theorem getOrInitManager_triple (hasState : Bool) :
    (discipline P).Triple {.ready} (getOrInitManager A hasState)
      fun m => {.manager m} + {.ready} := by
  refine triple_of_step fun w rest m w' hs hret => ?_
  have hready : w.Ready := hs.holds .ready (by simp)
  obtain ⟨ptr, hptr⟩ := Option.ne_none_iff_exists'.mp hready.1
  have hread : ∀ {f : Option Nat → M P Nat}, f (some ptr) = pure ptr →
      (managerPtr >>= f).Returns w m w' → m = ptr ∧ w' = w := by
    intro f hf h
    obtain ⟨found, w₁, hfound, hrest⟩ := Machine.returns_bind.mp h
    obtain ⟨rfl, rfl⟩ := Machine.returns_gets.mp hfound
    rw [hptr, hf] at hrest
    exact Machine.returns_pure.mp hrest
  obtain ⟨rfl, rfl⟩ : m = ptr ∧ w' = w := by
    cases hasState with
    | true =>
        rw [getOrInitManager, if_pos rfl] at hret
        exact hread rfl hret
    | false =>
        rw [getOrInitManager, if_neg Bool.false_ne_true] at hret
        exact hread rfl hret
  exact .stay hs.formed hs.calm (by simp [Token.Holds, hptr, hready]) (by simp [Token.busyness])
    (by simp [Token.depth]) (by simp [Token.items])

/-! ## The chunk tables -/

section Tables

variable {w w' : World P} {k : ChunkKind} {ptr : Nat}

theorem vec_setChunkTableBox (hboxes : ∀ s, s.kind = k → w.inner.chunkTable s = .new) (v : VecId) :
    (setChunkTableBox k ptr w).inner.vec v = w.inner.vec v := by
  have htable : ∀ s : Slot, (if s.kind = k then SelfAllocatedVec.new else w.inner.chunkTable s) =
      w.inner.chunkTable s := fun s => by
    split
    · next hs => exact (hboxes s hs).symm
    · rfl
  cases v with
  | chunk s => cases k <;> exact htable s
  | _ => cases k <;> rfl

theorem chunkTableBox_setChunkTableBox (j : ChunkKind) :
    chunkTableBox j (setChunkTableBox k ptr w) = if j = k then some ptr else chunkTableBox j w := by
  cases j <;> cases k <;> rfl

theorem holdings_setChunkTableBox (hnone : chunkTableBox k w = none)
    (hboxes : ∀ s, s.kind = k → w.inner.chunkTable s = .new) :
    (setChunkTableBox k ptr w).holdings = w.holdings + blockOf (chunkTableSize k) (some ptr) := by
  have hvecs : ∀ v, (setChunkTableBox k ptr w).inner.vec v = w.inner.vec v :=
    vec_setChunkTableBox hboxes
  cases k with
  | common =>
      have hnone : w.inner.commonChunkTable = none := hnone
      simp only [World.holdings, ThreadLocalAllocatorInner.items, hvecs]
      simp only [setChunkTableBox, hnone, blockOf_none]
      abel
  | large =>
      have hnone : w.inner.largeChunkTable = none := hnone
      simp only [World.holdings, ThreadLocalAllocatorInner.items, hvecs]
      simp only [setChunkTableBox, hnone, blockOf_none]
      abel

/-- The box of a chunk table is stored. -/
theorem step_setChunkTableBox (hformed : w.WellFormed) (hcalm : w.Calm)
    (hnone : chunkTableBox k w = none) :
    Step w (tokens (blockOf (chunkTableSize k) (some ptr))) (setChunkTableBox k ptr w)
      {.boxed k} := by
  have hready : ¬ w.Ready := fun hready => hready.2 k hnone
  obtain ⟨hcommon, hlarge⟩ := hformed.idle hready
  have hboxes := hformed.boxes k hnone
  have hbox : ∀ j, chunkTableBox j (setChunkTableBox k ptr w) =
      if j = k then some ptr else chunkTableBox j w := chunkTableBox_setChunkTableBox
  refine ⟨⟨fun j hj t ht => ?_, fun _ => ?_, ?_, ?_⟩, ?_, ⟨fun m hm => ?_, fun j hj => ?_, fun h => ?_⟩,
    ?_, by simp [Token.busyness], ?_, ?_⟩
  · rw [hbox] at hj
    split at hj
    · cases hj
    · next hne =>
        have hvec : (setChunkTableBox k ptr w).inner.vec (.chunk t) = w.inner.vec (.chunk t) :=
          vec_setChunkTableBox hboxes (.chunk t)
        exact hvec.trans (hformed.boxes j hj t ht)
  · cases k <;> exact ⟨hcommon, hlarge⟩
  · cases k <;> exact hformed.heads
  · cases k <;> exact hformed.incoming
  · cases k <;> exact hcalm
  · cases k <;> exact hm
  · rw [hbox]
    split
    · simp
    · exact hj
  · cases k <;> exact ⟨h, rfl⟩
  · intro t ht
    obtain rfl := Multiset.mem_singleton.mp ht
    rw [Token.Holds, hbox, if_pos rfl]
    simp
  · cases k <;> simp [Token.depth, setChunkTableBox]
  · have hos : (setChunkTableBox k ptr w).os = w.os := by cases k <;> rfl
    have hmanager : (setChunkTableBox k ptr w).inner.nonLocalPtrManager =
        w.inner.nonLocalPtrManager := by cases k <;> rfl
    rw [World.estate, World.estate, hos, hmanager, holdings_setChunkTableBox hnone hboxes,
      (Knowledge.boxed k).items, itemsOf_tokens, add_zero]
    exact Moves.refl _

/-- Where the box exists, nothing happens. -/
theorem returns_ensureChunkTable_boxed {hasState : Bool} {u : Unit} (hbox : chunkTableBox k w ≠ none)
    (h : (ensureChunkTable A k hasState).Returns w u w') : w' = w := by
  obtain ⟨box, hptr⟩ := Option.ne_none_iff_exists'.mp hbox
  obtain ⟨found, w₁, hfound, hrest⟩ := Machine.returns_bind.mp h
  obtain ⟨rfl, rfl⟩ := Machine.returns_gets.mp hfound
  rw [hptr] at hrest
  exact (Machine.returns_pure.mp hrest).2

theorem ensureChunkTable_boxed (k : ChunkKind) (hasState : Bool) :
    (discipline P).Triple {.boxed k} (ensureChunkTable A k hasState) fun _ => {.boxed k} := by
  refine triple_of_step fun w rest u w' hs hret => ?_
  have hbox : chunkTableBox k w ≠ none := hs.holds (.boxed k) (by simp)
  obtain rfl := returns_ensureChunkTable_boxed hbox hret
  exact .stay hs.formed hs.calm (by simpa [Token.Holds] using hbox) le_rfl rfl rfl

theorem slotForSize_chunkTableSize (k : ChunkKind) :
    ∃ s, slotForSize (recommendedSize (chunkTableSize k)) = some s ∧
      s.realSize = recommendedSize (chunkTableSize k) ∧ s.kind = .large := by
  cases k with
  | common => exact ⟨.large 15, by decide +kernel⟩
  | large => exact ⟨.large 5, by decide +kernel⟩

theorem recommendedSize_chunkTableSize (k : ChunkKind) :
    recommendedSize (chunkTableSize k) = chunkTableSize k := by
  cases k <;> decide +kernel

/-- The box of a chunk table, with a State to allocate it from. -/
theorem ensureChunkTable_triple (hA : ServesAlways A) (k : ChunkKind) :
    (discipline P).Triple 0 (ensureChunkTable A k true) fun _ => {.boxed k} := by
  intro w rest hs
  refine Discipline.At.gets ?_
  cases hbox : chunkTableBox k w with
  | some box =>
      have hstay : Step w 0 w {.boxed k} := .stay hs.formed hs.calm
        (by simp [Token.Holds, hbox]) le_rfl rfl (by simp [Token.items])
      exact at_of_step hs fun u w' hret => (Machine.returns_pure.mp hret).2 ▸ hstay
  | none =>
      have hready : ¬ w.Ready := fun hready => hready.2 k hbox
      obtain ⟨s, hslot, hreal, -⟩ := slotForSize_chunkTableSize k
      refine Discipline.At.bind (hA.selfAlloc true _ true (isReal_recommendedSize _) w rest hs) ?_
      intro r w₁ hret hs₁
      cases r with
      | none => exact Discipline.At.fault _
      | some ptr =>
          obtain ⟨table, hinner⟩ := (hA.boots hs.formed hready hslot hreal hret).inner
          have hbox₁ : chunkTableBox k w₁ = none := by
            rw [← hbox]
            cases k <;> simp only [chunkTableBox, hinner]
          refine at_of_step hs₁ fun u w' hret' => ?_
          obtain rfl := Machine.returns_modify.mp hret'
          rw [recommendedSize_chunkTableSize]
          exact step_setChunkTableBox hs₁.formed hs₁.calm hbox₁

end Tables

end Memalart
