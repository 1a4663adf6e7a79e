/-
# The commit of a chain

`handle_state` makes room until nothing more is allocated, commits the used chunks of
a State, its region and its free chunks, and goes on to the next State.  The slots
that the further States were stored in are in hand until the last one is committed.
-/

import Memalart.BootSteps

namespace Memalart

open Memalart.Lib ThreadLocalAllocator

variable {P : Params} {A : AllocatorForSelfAllocations P}

/-! ## Making room -/

theorem reserveOrPanic_triple (hA : Serves A) (message : String) (limit : Bool) (v : VecId)
    (additional : Nat) :
    (discipline P).Triple (boxOf v) (reserveOrPanic A message limit v additional)
      fun _ => boxOf v := by
  refine (reserve_triple hA limit v additional true).bind fun r => ?_
  cases r with
  | none => exact Discipline.Triple.fault _
  | some allocated => exact Discipline.Triple.pure rfl

theorem currentState_read (w : World P) (s : State) (w' : World P)
    (h : currentState.Returns w s w') : w' = w :=
  (returns_currentState h).1

theorem reserveObjects_triple (hA : Serves A) (k : ChunkKind) :
    (discipline P).Triple 0 (reserveObjects A k) fun _ => 0 := by
  refine Discipline.Triple.read currentState_read fun head => ?_
  refine Discipline.Triple.anyOf fun i _ => ?_
  refine Discipline.Triple.read currentState_read fun s => ?_
  refine Discipline.Triple.orFault fun chunk _ => Discipline.Triple.orFault fun slot _ => ?_
  exact reserveOrPanic_triple hA _ false (.object slot) _

/-- The sizes of the chunks that a State cuts name vectors of their kind. -/
theorem Sound.slot_of_used {w : World P} {toks : Multiset (Token P)} (hs : Sound w toks)
    {s : State} {chain : List State} {rest : List (List State)}
    (hstates : w.states = (s :: chain) :: rest) {k : ChunkKind} {u : UsedChunk} (hu : u ∈ s.used k) :
    ∃ slot, slotForSize u.size = some slot ∧ slot.kind = k := by
  refine hs.kinds k u ?_
  have hitem : .cutting k u ∈ s.items := by
    obtain ⟨others, hitems, -⟩ := s.items_used k
    rw [hitems]
    exact Multiset.mem_add.mpr (.inl (Multiset.mem_coe.mpr (List.mem_map_of_mem hu)))
  rw [World.holdings, hstates, List.map_cons, List.sum_cons, chainItems_cons]
  refine Multiset.mem_add.mpr (.inl (Multiset.mem_add.mpr (.inr ?_)))
  exact Multiset.mem_add.mpr (.inl (Multiset.mem_add.mpr (.inl hitem)))

theorem reserveTables_triple (hA : ServesAlways A) (k : ChunkKind) :
    (discipline P).Triple 0 (reserveTables A k) fun _ => 0 := by
  intro w rest hs
  refine Discipline.At.read (currentState_read w) fun head hhead => ?_
  obtain ⟨-, chain, others, hstates⟩ := returns_currentState hhead
  refine Discipline.At.read (fun counts w' h => (Machine.returns_orFault.mp h).2)
    fun counts hcounts => ?_
  have hcounts := (Machine.returns_orFault.mp hcounts).1
  have hkinds : ∀ e ∈ counts, ∀ slot, slotForSize e.2 = some slot → slot.kind = k := by
    refine UsedObjects.forall_size_writeAll (Q := fun size =>
      ∀ slot, slotForSize size = some slot → slot.kind = k) (by simp) ?_ hcounts
    intro e he slot hslot
    obtain ⟨u, hu, rfl⟩ := List.mem_map.mp he
    obtain ⟨slot', hslot', hkind⟩ := hs.slot_of_used hstates hu
    rw [hslot'] at hslot
    exact Option.some.inj hslot ▸ hkind
  refine Discipline.Triple.anyOf (fun e he => ?_) w rest hs
  refine Discipline.Triple.orFault fun slot hslot => ?_
  have hkind := hkinds e he slot hslot
  refine (ensureChunkTable_triple hA k).bind fun _ => ?_
  have hreserve := reserveOrPanic_triple hA.toServes
    "Failed to allocate a chunk table, a memory leak occurred" true (.chunk slot) e.1
  rw [boxOf, hkind] at hreserve
  exact Triple.forgetAfter (fun _ => .boxed k)
    (hreserve.conv rfl fun _ => (add_zero _))

theorem prepareToHandleState_triple (hA : Serves A) :
    (discipline P).Triple 0 (prepareToHandleState A) fun _ => 0 := by
  refine (reserveOrPanic_triple hA _ false .regions 1).bind fun regions => ?_
  refine Discipline.Triple.read currentState_read fun head => ?_
  refine (reserveOrPanic_triple hA _ false .freeLargeChunks _).bind fun large => ?_
  refine Discipline.Triple.read currentState_read fun head => ?_
  refine (reserveOrPanic_triple hA _ false .freeCommonChunks _).bind fun common => ?_
  exact Discipline.Triple.pure rfl

theorem reservePass_triple (hA : ServesAlways A) :
    (discipline P).Triple 0 (reservePass A) fun _ => 0 := by
  refine (reserveObjects_triple hA.toServes .common).bind fun _ => ?_
  refine (reserveObjects_triple hA.toServes .large).bind fun _ => ?_
  refine (reserveTables_triple hA .large).bind fun _ => ?_
  refine (reserveTables_triple hA .common).bind fun _ => ?_
  refine (prepareToHandleState_triple hA.toServes).bind fun _ => ?_
  exact Discipline.Triple.pure rfl

theorem reserveLoop_triple (hA : ServesAlways A) (fuel : Nat) :
    (discipline P).Triple 0 (reserveLoop A fuel) fun _ => 0 := by
  induction fuel with
  | zero => exact Discipline.Triple.fault _
  | succ fuel ih =>
      refine (reservePass_triple hA).bind fun again => ?_
      exact Discipline.Triple.ite (fun _ => ih) fun _ => Discipline.Triple.pure rfl

/-! ## Committing the used chunks -/

/-- Taking the first used chunk of a kind away. -/
theorem State.items_used_cons (s : State) {k : ChunkKind} {u : UsedChunk} {rest : List UsedChunk}
    (hused : s.used k = u :: rest) :
    s.items = {.cutting k u} + (s.setUsed rest k).items := by
  have hitems := s.items_setUsed rest k
  rw [hused, usedItems_cons] at hitems
  refine add_right_cancel (b := usedItems k rest) ?_
  rw [← hitems]
  abel

/-- One used chunk of the head is committed. -/
theorem step_commitUsedChunk {w w' : World P} {toks : Multiset (Token P)} {m : Nat} {k : ChunkKind}
    {u : UsedChunk} {us : List UsedChunk} {s : State} {chain : List State}
    {rest : List (List State)} {r : Unit} (hs : Sound w toks)
    (hm : w.inner.nonLocalPtrManager = some m) (hbox : chunkTableBox k w ≠ none)
    (hstates : w.states = (s :: chain) :: rest) (hused : s.used k = u :: us)
    (h : (commitUsedChunk m k u).Returns w r w') :
    Step w 0 w' 0 ∧ w'.states = (s.setUsed us k :: chain) :: rest := by
  obtain ⟨slot, hslot, hkind⟩ := hs.slot_of_used hstates (hused ▸ List.mem_cons_self)
  obtain ⟨r₁, w₁, hupdate, h₁⟩ := Machine.returns_bind.mp h
  obtain ⟨s', chain', rest', hstates', hw₂⟩ := returns_updateState hupdate
  rw [hstates] at hstates'
  obtain ⟨heads, rfl⟩ := List.cons.inj hstates'
  obtain ⟨rfl, rfl⟩ := List.cons.inj heads
  rw [hused, List.tail_cons] at hw₂
  obtain ⟨slot', w₂, hfound, h₂⟩ := Machine.returns_bind.mp h₁
  obtain ⟨hslot', rfl⟩ := Machine.returns_orFault.mp hfound
  obtain rfl : slot' = slot := Option.some.inj (hslot'.symm.trans hslot)
  obtain ⟨r₃, w₃, hobjects, h₃⟩ := Machine.returns_bind.mp h₂
  obtain ⟨objects, hextend, hw₃⟩ := returns_extendUnchecked.mp hobjects
  obtain ⟨r₄, w₄, hmetadata, htable⟩ := Machine.returns_bind.mp h₃
  have hw₄ := Machine.returns_modify.mp hmetadata
  obtain ⟨table, hextend', hw'⟩ := returns_extendUnchecked.mp htable
  obtain ⟨s₀, chain₀, heads, hstorage⟩ := hs.formed.heads _ (hstates ▸ List.mem_cons_self)
  obtain ⟨rfl, rfl⟩ := List.cons.inj heads
  -- the chunk leaves its State
  have hitems : w.holdings = w₂.holdings + {.cutting k u} := by
    rw [hw₂]
    simp only [World.holdings, hstates, List.map_cons, List.sum_cons, chainItems_cons,
      s.items_used_cons hused]
    abel
  have hformed₂ : w₂.WellFormed := by
    rw [hw₂]
    refine ⟨hs.formed.boxes, hs.formed.idle, fun c hc => ?_, hs.formed.incoming⟩
    rcases List.mem_cons.mp hc with rfl | hc
    · refine ⟨_, _, rfl, ?_⟩
      cases k <;> exact hstorage
    · exact hs.formed.heads c (hstates ▸ List.mem_cons_of_mem _ hc)
  have hcalm₂ : w₂.Calm := by
    rw [hw₂]
    intro c hc t ht
    rcases List.mem_cons.mp hc with rfl | hc
    · have hold := hs.calm (s :: chain) (hstates ▸ List.mem_cons_self)
      rcases List.mem_cons.mp ht with rfl | ht
      · have hflag := hold s List.mem_cons_self
        cases k <;> exact hflag
      · exact hold t (List.mem_cons_of_mem _ ht)
    · exact hs.calm c (hstates ▸ List.mem_cons_of_mem _ hc) t ht
  -- its slots and its address enter the vectors of its class
  have hbox₂ : ∀ j, chunkTableBox j w₂ = chunkTableBox j w := fun j => by
    rw [hw₂]
    cases j <;> rfl
  have hobjects' : w₃.holdings = w₂.holdings +
      Item.all (.object slot') (firstSlots u.ptr u.size u.numberOfFreeSlots) := by
    have hexchange := World.holdings_exchange (w := w₂) (v := .object slot') (x := objects)
      (a := contents (.object slot') (firstSlots u.ptr u.size u.numberOfFreeSlots)) (b := 0)
      (by rw [add_zero]; exact vecItems_tryExtend hextend)
    rw [add_zero] at hexchange
    exact hw₃ ▸ hexchange
  have htable' : w'.holdings = w₃.holdings + {.recorded slot' u.ptr} := by
    have hexchange := World.holdings_exchange (w := w₄) (v := .chunk slot') (x := table)
      (a := contents (.chunk slot') [u.ptr]) (b := 0)
      (by rw [add_zero]; exact vecItems_tryExtend hextend')
    rw [add_zero] at hexchange
    rw [hw', hexchange, hw₄]
    rfl
  have hformed₃ : w₃.WellFormed := hw₃ ▸ hformed₂.setVec (by simp) (by simp)
  have hformed₄ : w₄.WellFormed := by
    rw [hw₄]
    exact ⟨hformed₃.boxes, hformed₃.idle, hformed₃.heads, hformed₃.incoming⟩
  have hkeeps₂ : w.Keeps w₂ := by
    refine ⟨fun m hm => ?_, fun j hj => (hbox₂ j).trans_ne hj, fun hbusy => ?_⟩ <;> rw [hw₂]
    · exact hm
    · exact ⟨hbusy, rfl⟩
  have hkeeps₃ : w₂.Keeps w₃ := hw₃ ▸ w₂.keeps_setVec _ _
  have hkeeps₄ : w₃.Keeps w₄ := by
    rw [hw₄]
    exact ⟨fun _ h => h, fun _ h => h, fun h => ⟨h, rfl⟩⟩
  have hkeeps₄' := (hkeeps₂.trans hkeeps₃).trans hkeeps₄
  have hstates₄ : w₄.states = (s.setUsed us k :: chain) :: rest := by
    rw [hw₄, World.setOs, hw₃, World.states_setVec, hw₂]
  refine ⟨⟨?_, ?_, ?_, by simp, le_rfl, ?_, ?_⟩, ?_⟩
  · rw [hw']
    refine hformed₄.setVec (fun t ht => ?_) (by simp)
    obtain rfl := VecId.chunk.inj ht
    exact hkeeps₄'.box _ (hkind ▸ hbox)
  · intro c hc
    have hc : c ∈ w₂.states := by
      rw [hw', World.states_setVec, hstates₄] at hc
      rw [hw₂]
      exact hc
    exact hcalm₂ c hc
  · exact hkeeps₄'.trans (hw' ▸ w₄.keeps_setVec _ _)
  · rw [hw', World.states_setVec, hstates₄, hstates]
    rfl
  · have hos : w'.os = w.os.initMetadata slot' m u.ptr := by
      rw [hw', World.os_setVec, hw₄, World.setOs, hw₃, World.os_setVec, hw₂]
    have hm' : w'.inner.nonLocalPtrManager = some m :=
      (hkeeps₄'.trans (hw' ▸ w₄.keeps_setVec _ _)).manager m hm
    rw [World.estate, World.estate, itemsOf_zero, hm, hm', hos, htable', hobjects', hitems]
    have hcommit : Exchange w.os (some m) _ _ (w.os.initMetadata slot' m u.ptr) (some m) :=
      .commit slot' u hslot'
    rw [hkind] at hcommit
    refine Moves.single hcommit w₂.holdings ?_ ?_ <;> abel
  · rw [hw', World.states_setVec, hstates₄]

theorem setUsed_setUsed (s : State) (us us' : List UsedChunk) (k : ChunkKind) :
    (s.setUsed us k).setUsed us' k = s.setUsed us' k := by
  cases k <;> rfl

theorem used_setUsed (s : State) (us : List UsedChunk) (k : ChunkKind) :
    (s.setUsed us k).used k = us := by
  cases k <;> rfl

theorem setUsed_used (s : State) (k : ChunkKind) : s.setUsed (s.used k) k = s := by
  cases k <;> rfl

/-- All used chunks of a kind are committed, one after another. -/
theorem step_commitAll {m : Nat} {k : ChunkKind} {us : List UsedChunk} {w w' : World P}
    {toks : Multiset (Token P)} {s : State} {chain : List State} {rest : List (List State)}
    {r : Unit} (hs : Sound w toks) (hm : w.inner.nonLocalPtrManager = some m)
    (hbox : chunkTableBox k w ≠ none) (hstates : w.states = (s :: chain) :: rest)
    (hused : s.used k = us) (h : (Machine.forEach us (commitUsedChunk m k)).Returns w r w') :
    Step w 0 w' 0 ∧ w'.states = (s.setUsed [] k :: chain) :: rest := by
  induction us generalizing w s with
  | nil =>
      obtain ⟨-, rfl⟩ := Machine.returns_pure.mp h
      refine ⟨.stay hs.formed hs.calm (by simp) le_rfl rfl rfl, ?_⟩
      rw [hstates, ← hused, setUsed_used]
  | cons u us ih =>
      obtain ⟨r₁, w₁, hfirst, hrest⟩ := Machine.returns_bind.mp h
      obtain ⟨hstep, hstates₁⟩ := step_commitUsedChunk hs hm hbox hstates hused hfirst
      obtain ⟨hstep', hstates'⟩ := ih (hstep.beside hs).1 (hstep.keeps.manager m hm) (hstep.keeps.box k hbox)
        hstates₁ (used_setUsed s us k) hrest
      refine ⟨hstep.trans hstep', ?_⟩
      rw [hstates', setUsed_setUsed]

/-- The box of a chunk table comes from the large chunks of the State. -/
theorem usedCommonChunks_ensureChunkTable (hA : ServesAlways A) {w w' : World P} {k : ChunkKind}
    {s : State} {chain : List State} {rest : List (List State)} {r : Unit} (hformed : w.WellFormed)
    (hstates : w.states = (s :: chain) :: rest) (h : (ensureChunkTable A k true).Returns w r w') :
    ∃ s' chain', w'.states = (s' :: chain') :: rest ∧ s'.usedCommonChunks = s.usedCommonChunks := by
  by_cases hbox : chunkTableBox k w = none
  · have hready : ¬ w.Ready := fun hready => hready.2 k hbox
    obtain ⟨found, w₁, hfound, h₁⟩ := Machine.returns_bind.mp h
    obtain ⟨rfl, rfl⟩ := Machine.returns_gets.mp hfound
    rw [hbox] at h₁
    obtain ⟨ptr, w₂, halloc, h₂⟩ := Machine.returns_bind.mp h₁
    obtain ⟨slot, hslot, hreal, hkind⟩ := slotForSize_chunkTableSize k
    obtain ⟨flag, chain', hstates₂, hgrows⟩ :=
      (hA.boots hformed hready hslot hreal halloc).states s chain rest hstates
    have hhead := hgrows (hkind ▸ lasting_usedCommonChunks)
    obtain ⟨s', tail, rfl, hused⟩ := hhead.head
    cases ptr with
    | none => exact absurd h₂ Machine.not_returns_fault
    | some ptr =>
        obtain rfl := Machine.returns_modify.mp h₂
        refine ⟨s', tail, ?_, hused⟩
        cases k <;> exact hstates₂
  · obtain rfl := returns_ensureChunkTable_boxed hbox h
    exact ⟨s, chain, hstates, rfl⟩

/-- The manager and both boxes make the allocator ready. -/
theorem Sound.ready {w : World P} {m : Nat} {toks : Multiset (Token P)}
    (hs : Sound w ({.boxed .large} + ({.boxed .common} + ({.manager m} + toks)))) :
    Sound w ({.ready} + toks) ∧ (discipline P).Goes
      (w, {.boxed .large} + ({.boxed .common} + ({.manager m} + toks))) (w, {.ready} + toks) := by
  have hknown : Knowledge ({.boxed .large} + ({.boxed .common} + {.manager m}) :
      Multiset (Token P)) := (Knowledge.boxed .large).add ((Knowledge.boxed .common).add (.manager m))
  have hsum : ({.boxed .large} + ({.boxed .common} + ({.manager m} + toks)) :
      Multiset (Token P)) = {.boxed .large} + ({.boxed .common} + {.manager m}) + toks := by
    simp only [add_assoc]
  have hready : w.Ready := by
    have hm : w.inner.nonLocalPtrManager = some m := hs.holds (.manager m) (by simp)
    refine ⟨by simp [hm], fun k => ?_⟩
    cases k with
    | common => exact hs.holds (.boxed .common) (by simp)
    | large => exact hs.holds (.boxed .large) (by simp)
  rw [hsum] at hs ⊢
  exact ⟨hs.reknow hknown .ready (by simpa [Token.Holds] using hready),
    goes_reknow w hknown .ready⟩

/-- The commit of the used chunks: afterwards the head of the chain has none. -/
theorem commitUsedChunks_spec (hA : ServesAlways A) {w w' : World P} {toks : Multiset (Token P)}
    {r : Unit} (hs : Sound w toks) (h : (commitUsedChunks A).Returns w r w') :
    (Sound w' ({.ready} + toks) ∧ (discipline P).Goes (w, toks) (w', {.ready} + toks)) ∧
      ∃ s chain rest, w'.states = (s :: chain) :: rest ∧
        s.usedCommonChunks = [] ∧ s.usedLargeChunks = [] := by
  obtain ⟨m, w₁, hmanager, h₁⟩ := Machine.returns_bind.mp h
  obtain ⟨hs₁, hgoes₁⟩ := getOrInitManagerWithState_triple hA w toks (by rwa [zero_add]) m w₁ hmanager
  rw [zero_add] at hgoes₁
  obtain ⟨r₂, w₂, hcommon, h₂⟩ := Machine.returns_bind.mp h₁
  obtain ⟨hs₂, hgoes₂⟩ := ensureChunkTable_triple hA .common w₁ ({.manager m} + toks)
    (by rwa [zero_add]) r₂ w₂ hcommon
  rw [zero_add] at hgoes₂
  obtain ⟨s₂, w₂', hhead, h₃⟩ := Machine.returns_bind.mp h₂
  obtain ⟨rfl, chain, rest, hstates₂⟩ := returns_currentState hhead
  obtain ⟨r₃, w₃, hloop, h₄⟩ := Machine.returns_bind.mp h₃
  obtain ⟨hstep₃, hstates₃⟩ := step_commitAll hs₂ (hs₂.holds (.manager m) (by simp))
    (hs₂.holds (.boxed .common) (by simp)) hstates₂ rfl hloop
  obtain ⟨hs₃, hgoes₃⟩ := hstep₃.beside hs₂
  obtain ⟨r₄, w₄, hlarge, h₅⟩ := Machine.returns_bind.mp h₄
  obtain ⟨hs₄, hgoes₄⟩ := ensureChunkTable_triple hA .large w₃ _ (by rwa [zero_add]) r₄ w₄ hlarge
  rw [zero_add] at hgoes₄
  obtain ⟨s₄, chain₄, hstates₄, hused₄⟩ :=
    usedCommonChunks_ensureChunkTable hA hs₃.formed hstates₃ hlarge
  obtain ⟨s₅, w₅, hhead₅, h₆⟩ := Machine.returns_bind.mp h₅
  obtain ⟨rfl, chain₅, rest₅, hstates₅⟩ := returns_currentState hhead₅
  rw [hstates₄] at hstates₅
  obtain ⟨heads, rfl⟩ := List.cons.inj hstates₅
  obtain ⟨rfl, rfl⟩ := List.cons.inj heads
  obtain ⟨hstep₆, hstates₆⟩ := step_commitAll hs₄ (hs₄.holds (.manager m) (by simp))
    (hs₄.holds (.boxed .large) (by simp)) hstates₄ rfl h₆
  obtain ⟨hs₆, hgoes₆⟩ := hstep₆.beside hs₄
  obtain ⟨hs', hgoes'⟩ := hs₆.ready
  refine ⟨⟨hs', ?_⟩, _, _, _, hstates₆, hused₄, rfl⟩
  have hgoes₃' := (discipline P).trans ((discipline P).trans hgoes₁ hgoes₂) hgoes₃
  exact (discipline P).trans ((discipline P).trans ((discipline P).trans hgoes₃' hgoes₄) hgoes₆) hgoes'

/-! ## Finishing a State -/

/-- What is in hand after a State has been finished: the slot of the next one. -/
def finished : Option (Option Nat) → Multiset (Token P)
  | none => {.ready}
  | some storage => {.ready} + {.chain} + tokens (blockOf sizeOfState storage)

/-- Elements that are entered add their items to the allocator's. -/
theorem inner_items_tryExtend {w : World P} {v : VecId} {x : SelfAllocatedVec v.Elem}
    {xs : List v.Elem} (h : (w.vec v).tryExtend xs = some x) :
    (w.setVec v x).inner.items = w.inner.items + contents v xs := by
  have hexchange := World.holdings_exchange (w := w) (v := v) (x := x) (a := contents v xs)
    (b := 0) (by rw [add_zero]; exact vecItems_tryExtend h)
  rw [World.holdings, World.holdings, World.states_setVec] at hexchange
  refine add_right_cancel (b := (w.states.map chainItems).sum) ?_
  rw [add_zero] at hexchange
  rw [hexchange]
  abel

/-- A State that is read out of its slot. -/
theorem State.items_readOut (s : State) :
    s.items = ({ s with storage := none } : State).items + blockOf sizeOfState s.storage := by
  simp only [items, blockOf_none, add_zero]

/-- The region and the free chunks of the head are committed. -/
theorem step_finishState {w w' : World P} {toks : Multiset (Token P)} {s : State}
    {chain : List State} {rest : List (List State)} {r : Option (Option Nat)}
    (hs : Sound w ({.ready} + {.chain} + toks)) (hstates : w.states = (s :: chain) :: rest)
    (hcommon : s.usedCommonChunks = []) (hlarge : s.usedLargeChunks = [])
    (h : finishState.Returns w r w') : Step w ({.ready} + {.chain}) w' (finished r) := by
  have hready : w.Ready := hs.holds .ready (by simp)
  obtain ⟨s₀, w₀, hhead, h₀⟩ := Machine.returns_bind.mp h
  obtain ⟨rfl, chain₀, rest₀, hstates₀⟩ := returns_currentState hhead
  rw [hstates] at hstates₀
  obtain ⟨heads, rfl⟩ := List.cons.inj hstates₀
  obtain ⟨rfl, rfl⟩ := List.cons.inj heads
  obtain ⟨r₁, w₁, hregions, h₁⟩ := Machine.returns_bind.mp h₀
  obtain ⟨regions, hextend₁, hw₁⟩ := returns_extendUnchecked.mp hregions
  obtain ⟨r₂, w₂, hcommons, h₂⟩ := Machine.returns_bind.mp h₁
  obtain ⟨commons, hextend₂, hw₂⟩ := returns_extendUnchecked.mp hcommons
  obtain ⟨r₃, w₃, hlarges, h₃⟩ := Machine.returns_bind.mp h₂
  obtain ⟨larges, hextend₃, hw₃⟩ := returns_extendUnchecked.mp hlarges
  obtain ⟨s₁, chain₁, heads, hstorage⟩ := hs.formed.heads _ (hstates ▸ List.mem_cons_self)
  obtain ⟨rfl, rfl⟩ := List.cons.inj heads
  -- the vectors
  have hready₁ : w₁.Ready := by rw [hw₁]; exact ready_setVec.mpr hready
  have hready₂ : w₂.Ready := by rw [hw₂]; exact ready_setVec.mpr hready₁
  have hformed₁ : w₁.WellFormed := hw₁ ▸ hs.formed.setVec (by simp) (by simp)
  have hformed₂ : w₂.WellFormed := hw₂ ▸ hformed₁.setVec (by simp) fun _ => .inl hready₁
  have hformed₃ : w₃.WellFormed := hw₃ ▸ hformed₂.setVec (by simp) fun _ => .inl hready₂
  have hkeeps : w₀.Keeps w₃ := ((hw₁ ▸ w₀.keeps_setVec _ _ : w₀.Keeps w₁).trans
    (hw₂ ▸ w₁.keeps_setVec _ _)).trans (hw₃ ▸ w₂.keeps_setVec _ _)
  have hstates₃ : w₃.states = (s :: chain) :: rest := by
    rw [hw₃, World.states_setVec, hw₂, World.states_setVec, hw₁, World.states_setVec, hstates]
  have hos₃ : w₃.os = w₀.os := by
    rw [hw₃, World.os_setVec, hw₂, World.os_setVec, hw₁, World.os_setVec]
  have hmanager₃ : w₃.inner.nonLocalPtrManager = w₀.inner.nonLocalPtrManager := by
    obtain ⟨ptr, hptr⟩ := Option.ne_none_iff_exists'.mp hready.1
    rw [hptr, hkeeps.manager ptr hptr]
  have hitems₃ : w₃.inner.items = w₀.inner.items + {.view s.regionPtr maxCommonChunksInRegion} +
      Item.all (.chunk .common) s.freeCommonChunks + Item.all (.chunk .large) s.freeLargeChunks := by
    rw [hw₃, inner_items_tryExtend hextend₃, hw₂, inner_items_tryExtend hextend₂, hw₁,
      inner_items_tryExtend hextend₁, contents_reverse, contents_reverse]
    rfl
  have hhead : s.items = {.parsed s.regionPtr} + (Item.all (.chunk .common) s.freeCommonChunks +
      Item.all (.chunk .large) s.freeLargeChunks) := by
    simp only [State.items, hcommon, hlarge, hstorage, usedItems_nil, blockOf_none, add_zero,
      add_assoc]
  have hrest : ∀ c ∈ rest, c ∈ w₀.states := fun c hc => hstates ▸ List.mem_cons_of_mem _ hc
  let others := w₀.inner.items + Item.all (.chunk .common) s.freeCommonChunks +
    Item.all (.chunk .large) s.freeLargeChunks + (rest.map chainItems).sum
  obtain ⟨manager, hmanager⟩ := Option.ne_none_iff_exists'.mp hready.1
  cases chain with
  | nil =>
      simp only [Machine.Returns, hstates₃, List.tail_cons, Except.ok.injEq, Prod.mk.injEq] at h₃
      obtain ⟨rfl, rfl⟩ := h₃
      refine ⟨⟨hformed₃.boxes, hformed₃.idle, fun c hc => hs.formed.heads c (hrest c hc),
        hformed₃.incoming⟩, fun c hc => hs.calm c (hrest c hc), ⟨hkeeps.manager, hkeeps.box,
        hkeeps.busy⟩, ?_, by simp [finished, Token.busyness], ?_, ?_⟩
      · intro t ht
        obtain rfl := Multiset.mem_singleton.mp ht
        exact hkeeps.ready hready
      · simp [hstates, finished, Token.depth]
      · rw [World.estate, World.estate]
        show Moves _ ⟨w₃.os, w₃.inner.nonLocalPtrManager, _⟩
        rw [hos₃, hmanager₃, hmanager]
        refine Moves.single (.enter s.regionPtr) others ?_ ?_
        · simp only [World.holdings, hstates, List.map_cons, List.sum_cons, chainItems_cons,
            chainItems_nil, hhead, itemsOf_add, itemsOf_singleton, Token.items, others]
          abel
        · simp only [World.holdings, hitems₃, finished, itemsOf_singleton, Token.items, others]
          abel
  | cons next chain =>
      simp only [Machine.Returns, hstates₃, Except.ok.injEq, Prod.mk.injEq] at h₃
      obtain ⟨rfl, rfl⟩ := h₃
      refine ⟨⟨hformed₃.boxes, hformed₃.idle, fun c hc => ?_, hformed₃.incoming⟩, fun c hc => ?_,
        ⟨hkeeps.manager, hkeeps.box, hkeeps.busy⟩, ?_, by simp [finished, Token.busyness], ?_, ?_⟩
      · rcases List.mem_cons.mp hc with rfl | hc
        · exact ⟨_, _, rfl, rfl⟩
        · exact hs.formed.heads c (hrest c hc)
      · rcases List.mem_cons.mp hc with rfl | hc
        · intro t ht
          have hold := hs.calm _ (hstates ▸ List.mem_cons_self)
          rcases List.mem_cons.mp ht with rfl | ht
          · exact hold next (by simp)
          · exact hold t (by simp [ht])
        · exact hs.calm c (hrest c hc)
      · intro t ht
        rcases Multiset.mem_add.mp ht with ht | ht
        · rcases Multiset.mem_add.mp ht with ht | ht
          · obtain rfl := Multiset.mem_singleton.mp ht
            exact hkeeps.ready hready
          · obtain rfl := Multiset.mem_singleton.mp ht
            trivial
        · exact holds_tokens ht
      · simp [hstates, finished, Token.depth]
      · rw [World.estate, World.estate]
        show Moves _ ⟨w₃.os, w₃.inner.nonLocalPtrManager, _⟩
        rw [hos₃, hmanager₃, hmanager]
        refine Moves.single (.enter s.regionPtr) (others + next.items + chainItems chain) ?_ ?_
        · simp only [World.holdings, hstates, List.map_cons, List.sum_cons, chainItems_cons,
            hhead, itemsOf_add, itemsOf_singleton, Token.items, others]
          abel
        · simp only [World.holdings, hitems₃, finished, itemsOf_add, itemsOf_singleton,
            itemsOf_tokens, Token.items, others, List.map_cons, List.sum_cons, chainItems_cons,
            next.items_readOut]
          abel

/-! ## The whole chain -/

/-- The slots that finished States were stored in. -/
def stored (ptrs : List Nat) : Multiset (Token P) :=
  tokens (Item.all (blockItem sizeOfState) ptrs)

theorem stored_append (ptrs : List Nat) (ptr : Nat) :
    (stored (ptrs ++ [ptr]) : Multiset (Token P)) =
      stored ptrs + tokens (blockOf sizeOfState (some ptr)) := by
  rw [stored, Item.all_append, tokens_add]
  rfl

theorem sum_stored (ptrs : List Nat) :
    (ptrs.map fun ptr => (tokens {blockItem sizeOfState ptr} : Multiset (Token P))).sum =
      stored ptrs := by
  induction ptrs with
  | nil => rfl
  | cons ptr ptrs ih =>
      rw [List.map_cons, List.sum_cons, ih, stored, stored, Item.all_cons, tokens_add]

/-- State after State is committed, until the chain has ended. -/
theorem handleStates_triple (hA : ServesAlways A) (fuel : Nat) (toDealloc : List Nat) :
    (discipline P).Triple (stored toDealloc + {.chain}) (handleStates A fuel toDealloc)
      fun ptrs => stored ptrs + {.ready} := by
  induction fuel generalizing toDealloc with
  | zero => exact Discipline.Triple.fault _
  | succ fuel ih =>
      have hreserve := (reserveLoop_triple hA A.rounds).frame (stored toDealloc + {.chain})
      rw [zero_add] at hreserve
      refine hreserve.bind fun _ => ?_
      intro w rest hs
      refine Discipline.At.bind (fun r w' h => (commitUsedChunks_spec hA hs h).1) ?_
      intro r w₁ hcommit hs₁
      obtain ⟨-, s, chain, others, hstates, hcommon, hlarge⟩ := commitUsedChunks_spec hA hs hcommit
      have htoks : ({.ready} + (stored toDealloc + {.chain} + rest) : Multiset (Token P)) =
          {.ready} + {.chain} + (stored toDealloc + rest) := by abel
      rw [htoks] at hs₁ ⊢
      refine Discipline.At.bind (at_of_step hs₁ fun r w' h =>
        step_finishState hs₁ hstates hcommon hlarge h) ?_
      intro next w₂ _ hs₂
      cases next with
      | none =>
          refine Discipline.At.pure hs₂ ?_
          rw [finished, ← add_assoc]
          exact congrArg (· + rest) (add_comm _ _)
      | some storage =>
          refine Discipline.At.read (fun ptr w' h => (Machine.returns_orFault.mp h).2) ?_
          intro ptr hptr
          obtain rfl := (Machine.returns_orFault.mp hptr).1
          have htoks : (finished (some (some ptr)) + (stored toDealloc + rest) :
              Multiset (Token P)) =
              {.ready} + (stored (toDealloc ++ [ptr]) + {.chain}) + rest := by
            rw [finished, stored_append]
            abel
          rw [htoks] at hs₂ ⊢
          refine Discipline.Triple.ite (fun _ => ?_) (fun _ => ?_) w₂ rest hs₂
          · exact Triple.forget .ready (ih (toDealloc ++ [ptr]))
          · exact Discipline.Triple.fault _

/-- A chain is committed, and the allocator is ready. -/
theorem handleState_triple (hA : ServesAlways A) :
    (discipline P).Triple {.chain} (handleState A) fun _ => {.ready} := by
  have hmove := (moveState_triple (P := P)).frame {.chain}
  rw [zero_add] at hmove
  refine hmove.bind fun _ => Discipline.Triple.gets fun registered => ?_
  have hcommit : (discipline P).Triple {.chain} (do
      let toDealloc ← handleStates A A.rounds []
      Machine.forEach toDealloc fun ptr => A.selfDealloc ptr sizeOfState false)
      fun _ => {.ready} := by
    have hstates := handleStates_triple hA A.rounds []
    rw [stored, Item.all_nil, tokens_zero, zero_add] at hstates
    refine hstates.bind fun ptrs => ?_
    have hloop := Discipline.Triple.forEachGive ptrs fun ptr _ =>
      hA.selfDealloc ptr sizeOfState false
    rw [sum_stored] at hloop
    exact (hloop.frame {.ready}).conv rfl fun _ => (zero_add _).symm
  refine Discipline.Triple.ite (fun _ => hcommit) fun _ => ?_
  have hmanager := (getOrInitManagerWithState_triple hA).frame {.chain}
  rw [zero_add] at hmanager
  exact hmanager.bind fun m => Triple.forget (.manager m) hcommit

end Memalart
