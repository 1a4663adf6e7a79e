/-
# States and the operating system as steps

What a call does with the chain that it works with, with a region that it maps, and
with a chunk whose metadata it writes or that it gives back.
-/

import Memalart.SingleSteps

namespace Memalart

open Memalart.Lib ThreadLocalAllocator

variable {P : Params}

/-! ## How chains grow -/

/-- A part of a State that getting and cutting chunks of a kind leaves alone, and what
it is in a new State. -/
structure Lasting {γ : Type} (k : ChunkKind) (g : State → γ) (fresh : γ → Prop) : Prop where
  free : ∀ s chunks j, g (State.setFree s chunks j) = g s
  used : ∀ s chunks, g (State.setUsed s chunks k) = g s
  large : ∀ s chunks, g (State.setUsed s chunks .large) = g s
  new : ∀ s : State, s.isAllocatingNonLocalPtrManagerNow = false → fresh (g s)

/-- The States of a chain keep a part of them, and new ones come after them. -/
def Grows {γ : Type} (g : State → γ) (fresh : γ → Prop) (chain chain' : List State) : Prop :=
  ∃ extra, chain'.map g = chain.map g ++ extra ∧ ∀ e ∈ extra, fresh e

section Grows

variable {γ : Type} {g : State → γ} {fresh : γ → Prop} {k : ChunkKind} {os os' : Os}

theorem Grows.of_map {chain chain' : List State} (h : chain'.map g = chain.map g) :
    Grows g fresh chain chain' :=
  ⟨[], by rw [h, List.append_nil], by simp⟩

theorem Grows.of_map_eq {chain chain' chain'' : List State} (h : Grows g fresh chain chain')
    (heq : chain''.map g = chain'.map g) : Grows g fresh chain chain'' := by
  unfold Grows
  rwa [heq]

theorem map_tryAllocSize {size ptr : Nat} {j : ChunkKind}
    (hused : ∀ s chunks, g (State.setUsed s chunks j) = g s) {chain chain' : List State}
    (h : tryAllocSize j size chain = some (ptr, chain')) : chain'.map g = chain.map g := by
  induction chain generalizing ptr chain' with
  | nil => simp [tryAllocSize] at h
  | cons s rest ih =>
      simp only [tryAllocSize] at h
      split at h
      · cases h
        rw [List.map_cons, List.map_cons, hused]
      · simp only [Option.map_eq_some_iff, Prod.mk.injEq, Prod.exists] at h
        obtain ⟨ptr', rest', hrest, rfl, rfl⟩ := h
        rw [List.map_cons, List.map_cons, ih hrest]

theorem map_popFree (hfree : ∀ s chunks j, g (State.setFree s chunks j) = g s) {j : ChunkKind}
    {chain : List State} {t : Taken} (h : popFree j chain = some t) :
    t.chain.map g = chain.map g := by
  obtain ⟨owner, chunks, rfl, -, howner⟩ := popFree_eq_some h
  simp [Taken.chain, howner, hfree]

/-- The State that a chain is extended by. -/
theorem map_allocNewStateIn (hg : Lasting k g fresh) {limit : Bool} {chain chain' : List State}
    {next : State} (h : (allocNewStateIn limit chain).Returns os (some (chain', next)) os') :
    chain'.map g = chain.map g ∧ fresh (g next) := by
  simp only [Machine.Returns, allocNewStateIn] at h
  split at h
  · cases h
  · split at h
    · next ptr chain₁ htry =>
        cases h
        exact ⟨map_tryAllocSize hg.large htry, hg.new _ rfl⟩
    · split at h
      · next t ht =>
          cases h
          refine ⟨rfl, hg.new _ ?_⟩
          obtain ⟨owner, chunks, hchain, -, howner⟩ := popFree_eq_some ht
          have hmem : owner ∈ t.before ++ owner :: t.after := by simp
          rw [← hchain, List.mem_singleton] at hmem
          rw [howner, hmem]
          rfl
      · cases h

theorem grows_getFreeLargeChunk (hg : Lasting k g fresh) {limit : Bool}
    {before after : List State} {t : Taken}
    (h : (getFreeLargeChunk_ limit before after).Returns os (some t) os') :
    Grows g fresh (before ++ after) t.chain := by
  unfold getFreeLargeChunk_ at h
  split at h
  · next t' hpop =>
      obtain ⟨heq, -⟩ := by simpa using h
      refine .of_map ?_
      have hmap := map_popFree hg.free hpop
      rw [heq]
      simp only [Taken.chain, List.append_assoc, List.map_append] at hmap ⊢
      rw [← hmap]
  · split at h
    · simp at h
    · obtain ⟨r', os₁, halloc, hrest⟩ := Machine.returns_bind.mp h
      cases r' with
      | none => simp at hrest
      | some pair =>
          obtain ⟨chain, next⟩ := pair
          obtain ⟨hmap, hfresh⟩ := map_allocNewStateIn hg halloc
          simp only at hrest
          split at hrest
          · next t' hpop =>
              obtain ⟨heq, -⟩ := by simpa using hrest
              have hpopped := map_popFree hg.free hpop
              refine ⟨[g next], ?_, by simpa using hfresh⟩
              rw [heq, ← hmap]
              simp only [Taken.chain, List.append_assoc, List.map_append] at hpopped ⊢
              rw [hpopped]
              rfl
          · simp at hrest

theorem grows_getFreeCommonChunk (hg : Lasting k g fresh) {limit : Bool} {chain : List State}
    {t : Taken} (h : (getFreeCommonChunk limit chain).Returns os (some t) os') :
    Grows g fresh chain t.chain := by
  unfold getFreeCommonChunk at h
  split at h
  · next t' hpop =>
      obtain ⟨heq, -⟩ := by simpa using h
      rw [heq]
      exact .of_map (map_popFree hg.free hpop)
  · obtain ⟨r', os₁, hlarge, hrest⟩ := Machine.returns_bind.mp h
    have hchain : chain.dropLast ++ chain.drop (chain.length - 1) = chain := by
      rw [List.dropLast_eq_take, List.take_append_drop]
    cases r' with
    | none => simp at hrest
    | some t' =>
        have hgrows := grows_getFreeLargeChunk hg hlarge
        rw [hchain] at hgrows
        simp only at hrest
        split at hrest
        · split at hrest
          · obtain ⟨heq, -⟩ := by simpa using hrest
            rw [heq]
            exact hgrows.of_map_eq (by simp [Taken.chain, hg.free])
          · simp at hrest
        · obtain ⟨u, os₂, hrecord, hret⟩ := Machine.returns_bind.mp hrest
          obtain ⟨heq, -⟩ := by simpa using hret
          rw [heq]
          exact hgrows.of_map_eq (by simp [Taken.chain, hg.free])

theorem grows_allocSize (hg : Lasting k g fresh) {limit : Bool} {size : Nat}
    {chain chain' : List State} {r : Option Nat}
    (h : (allocSize limit k size chain).Returns os (r, chain') os') :
    Grows g fresh chain chain' := by
  unfold allocSize at h
  split at h
  · next ptr chain₁ htry =>
      obtain ⟨⟨-, rfl⟩, -⟩ := by simpa using h
      exact .of_map (map_tryAllocSize hg.used htry)
  · obtain ⟨r', os₁, hget, hrest⟩ := Machine.returns_bind.mp h
    cases r' with
    | none =>
        obtain ⟨⟨-, rfl⟩, -⟩ := by simpa using hrest
        exact .of_map rfl
    | some t =>
        obtain ⟨⟨-, rfl⟩, -⟩ := by simpa using hrest
        have hgrows : Grows g fresh chain t.chain := by
          cases k with
          | common => exact grows_getFreeCommonChunk hg hget
          | large => simpa using grows_getFreeLargeChunk hg hget
        refine hgrows.of_map_eq ?_
        simp [Taken.chain, State.cut, hg.used]

theorem Grows.mem {chain chain' : List State} (h : Grows g fresh chain chain') {s : State}
    (hs : s ∈ chain') : (∃ s₀ ∈ chain, g s = g s₀) ∨ fresh (g s) := by
  obtain ⟨extra, hmap, hfresh⟩ := h
  have hmem : g s ∈ chain.map g ++ extra := hmap ▸ List.mem_map_of_mem hs
  rcases List.mem_append.mp hmem with hmem | hmem
  · obtain ⟨s₀, hs₀, heq⟩ := List.mem_map.mp hmem
    exact .inl ⟨s₀, hs₀, heq.symm⟩
  · exact .inr (hfresh _ hmem)

theorem Grows.head {s : State} {rest chain' : List State} (h : Grows g fresh (s :: rest) chain') :
    ∃ s' rest', chain' = s' :: rest' ∧ g s' = g s := by
  obtain ⟨extra, hmap, -⟩ := h
  cases chain' with
  | nil => simp at hmap
  | cons s' rest' =>
      simp only [List.map_cons, List.cons_append, List.cons.injEq] at hmap
      exact ⟨s', rest', rfl, hmap.1⟩

theorem Grows.tail {s s' : State} {rest rest' : List State}
    (h : Grows g fresh (s :: rest) (s' :: rest')) : Grows g fresh rest rest' := by
  obtain ⟨extra, hmap, hfresh⟩ := h
  simp only [List.map_cons, List.cons_append, List.cons.injEq] at hmap
  exact ⟨extra, hmap.2, hfresh⟩

end Grows

theorem lasting_flag (k : ChunkKind) :
    Lasting k State.isAllocatingNonLocalPtrManagerNow (· = false) where
  free s chunks j := by cases j <;> rfl
  used s chunks := by cases k <;> rfl
  large _ _ := rfl
  new _ h := h

theorem lasting_storage (k : ChunkKind) : Lasting k State.storage fun _ => True where
  free s chunks j := by cases j <;> rfl
  used s chunks := by cases k <;> rfl
  large _ _ := rfl
  new _ _ := trivial

theorem lasting_usedCommonChunks : Lasting .large State.usedCommonChunks fun _ => True where
  free s chunks j := by cases j <;> rfl
  used _ _ := rfl
  large _ _ := rfl
  new _ _ := trivial

/-! ## Steps of chains -/

section SetStates

variable {w : World P} {states : List (List State)} {o : Os}

/-- The States and the operating system change, and the allocator does not. -/
theorem Step.setStates {give take : Multiset (Token P)} (hformed : w.WellFormed)
    (hheads : ∀ chain ∈ states, ∃ s rest, chain = s :: rest ∧ s.storage = none)
    (hcalm : ∀ chain ∈ states, ∀ s ∈ chain, s.isAllocatingNonLocalPtrManagerNow = false)
    (htake : ∀ t ∈ take, t.Holds w) (hbusy : busyness take ≤ busyness give)
    (hdepth : states.length + depth give = w.states.length + depth take)
    (hmoves : Moves ⟨w.os, w.inner.nonLocalPtrManager, (w.states.map chainItems).sum + itemsOf give⟩
      ⟨o, w.inner.nonLocalPtrManager, (states.map chainItems).sum + itemsOf take⟩) :
    Step w give { w with states := states, os := o } take where
  formed := ⟨hformed.boxes, hformed.idle, hheads, hformed.incoming⟩
  calm := hcalm
  keeps := ⟨fun _ h => h, fun _ h => h, fun h => ⟨h, rfl⟩⟩
  holds t ht := by
    have hholds := htake t ht
    cases t <;> exact hholds
  busy := hbusy
  chains := hdepth
  moves := by
    refine hmoves.framed w.inner.items ?_ ?_
    · rw [World.holdings]
      abel
    · rw [World.holdings]
      abel

/-- Only the operating system changes. -/
theorem Step.setOs {give take : Multiset (Token P)} (hformed : w.WellFormed) (hcalm : w.Calm)
    (htake : ∀ t ∈ take, t.Holds w) (hbusy : busyness take ≤ busyness give)
    (hdepth : depth give = depth take)
    (hmoves : Moves ⟨w.os, w.inner.nonLocalPtrManager, itemsOf give⟩
      ⟨os, w.inner.nonLocalPtrManager, itemsOf take⟩) : Step w give (w.setOs os) take :=
  .setStates hformed hformed.heads hcalm htake hbusy (congrArg _ hdepth)
    (hmoves.framed (w.states.map chainItems).sum (add_comm _ _) (add_comm _ _))

end SetStates

theorem allocRegion_triple (limit : Bool) :
    (discipline P).Triple 0 (onOs (Os.allocRegion limit)) (found .region) := by
  refine triple_of_step fun w rest r w' hs hret => ?_
  simp only [Machine.Returns, onOs, Except.ok.injEq, Prod.mk.injEq] at hret
  obtain ⟨rfl, rfl⟩ := hret
  cases hr : (w.os.allocRegion limit).1 with
  | none =>
      refine .setOs hs.formed hs.calm (by simp [found]) le_rfl rfl ?_
      exact Moves.quiet (Os.quiet_of_allocRegion_none (Prod.ext hr rfl)) _
  | some r =>
      refine .setOs hs.formed hs.calm (by simp [found, Token.Holds]) le_rfl
        (by simp [found, Token.depth]) ?_
      simpa [found, Token.items] using Moves.allocRegion (m := w.inner.nonLocalPtrManager)
        (Prod.ext hr rfl : w.os.allocRegion limit = (some r, (w.os.allocRegion limit).2))

theorem enterState_triple (r : Nat) :
    (discipline P).Triple {.item (.region r)} (enterState r) fun _ => {.chain} := by
  refine triple_of_step fun w rest u w' hs hret => ?_
  obtain rfl := Machine.returns_modify.mp hret
  refine Step.setStates hs.formed ?_ ?_ (by simp [Token.Holds]) (by simp [Token.busyness])
    (by simp [Token.depth]) ?_
  · intro chain hchain
    rcases List.mem_cons.mp hchain with rfl | hchain
    · exact ⟨_, [], rfl, rfl⟩
    · exact hs.formed.heads chain hchain
  · intro chain hchain
    rcases List.mem_cons.mp hchain with rfl | hchain
    · intro s hs
      rw [List.mem_singleton.mp hs]
      rfl
    · exact hs.calm chain hchain
  · have hparse : Moves ⟨w.os, w.inner.nonLocalPtrManager, {.region r}⟩
        ⟨w.os, w.inner.nonLocalPtrManager, (State.fromRegion r .none).items⟩ := Moves.parse r .none
    refine hparse.framed (w.states.map chainItems).sum ?_ ?_
    · rw [itemsOf_singleton, Token.items, add_comm]
    · simp only [List.map_cons, List.sum_cons, chainItems_cons, chainItems_nil, itemsOf_singleton,
        Token.items, add_zero]

/-- What an operation on the innermost chain leaves of the other invariants. -/
theorem heads_of_grows {w : World P} (hformed : w.WellFormed) {chain chain' : List State}
    {rest : List (List State)} (hstates : w.states = chain :: rest) {k : ChunkKind}
    (hgrows : ∀ {γ : Type} {g : State → γ} {fresh : γ → Prop}, Lasting k g fresh →
      Grows g fresh chain chain') :
    ∀ c ∈ chain' :: rest, ∃ s tail, c = s :: tail ∧ s.storage = none := by
  intro c hc
  rcases List.mem_cons.mp hc with rfl | hc
  · obtain ⟨s, tail, hs, hnone⟩ := hformed.heads chain (hstates ▸ List.mem_cons_self)
    have hg := hgrows (lasting_storage k)
    rw [hs] at hg
    obtain ⟨s', tail', heq, hstorage⟩ := hg.head
    exact ⟨s', tail', heq, hstorage.trans hnone⟩
  · exact hformed.heads c (hstates ▸ List.mem_cons_of_mem _ hc)

theorem calm_of_grows {w : World P} (hcalm : w.Calm) {chain chain' : List State}
    {rest : List (List State)} (hstates : w.states = chain :: rest) {k : ChunkKind}
    (hgrows : ∀ {γ : Type} {g : State → γ} {fresh : γ → Prop}, Lasting k g fresh →
      Grows g fresh chain chain') :
    ∀ c ∈ chain' :: rest, ∀ s ∈ c, s.isAllocatingNonLocalPtrManagerNow = false := by
  intro c hc s hs
  rcases List.mem_cons.mp hc with rfl | hc
  · rcases (hgrows (lasting_flag k)).mem hs with ⟨s₀, hs₀, heq⟩ | hfalse
    · exact heq.trans (hcalm chain (hstates ▸ List.mem_cons_self) s₀ hs₀)
    · exact hfalse
  · exact hcalm c (hstates ▸ List.mem_cons_of_mem _ hc) s hs

theorem returns_stateAllocSize {limit : Bool} {k : ChunkKind} {size : Nat} {w w' : World P}
    {r : Option Nat} : (stateAllocSize limit k size).Returns w r w' ↔
      ∃ chain rest chain' os', w.states = chain :: rest ∧
        (allocSize limit k size chain).Returns w.os (r, chain') os' ∧
        w' = { w with states := chain' :: rest, os := os' } := by
  simp only [Machine.Returns, stateAllocSize]
  cases hstates : w.states with
  | nil => simp
  | cons chain rest =>
      cases halloc : allocSize limit k size chain w.os with
      | error e => simp [halloc]
      | ok out =>
          obtain ⟨⟨ptr, chain'⟩, os'⟩ := out
          simp only [halloc, List.cons.injEq, Except.ok.injEq, Prod.mk.injEq]
          constructor
          · rintro ⟨rfl, rfl⟩
            exact ⟨chain, rest, chain', os', ⟨rfl, rfl⟩, halloc, rfl⟩
          · rintro ⟨chain₁, rest₁, chain₂, os₂, ⟨rfl, rfl⟩, hret, rfl⟩
            rw [halloc] at hret
            cases hret
            exact ⟨rfl, rfl⟩

theorem stateAllocSize_triple (limit : Bool) {s : Slot} {size : Nat} (hreal : s.realSize = size)
    (hslot : slotForSize size = some s) :
    (discipline P).Triple 0 (stateAllocSize limit s.kind size)
      fun r => tokens (blockOf size r) := by
  refine triple_of_step fun w rest r w' hs hret => ?_
  obtain ⟨chain, others, chain', os', hstates, halloc, rfl⟩ := returns_stateAllocSize.mp hret
  refine .setStates hs.formed (heads_of_grows hs.formed hstates fun hg => grows_allocSize hg halloc)
    (calm_of_grows hs.calm hstates fun hg => grows_allocSize hg halloc) (fun t => holds_tokens)
    (by simp) (by simp [hstates]) ?_
  refine (allocSize_moves hreal hslot halloc).framed (others.map chainItems).sum ?_ ?_
  · rw [hstates, itemsOf_zero, add_zero, List.map_cons, List.sum_cons]
  · rw [itemsOf_tokens, List.map_cons, List.sum_cons]
    abel

theorem stateGetFreeLargeChunk_triple (limit : Bool) :
    (discipline P).Triple 0 (stateGetFreeLargeChunk limit) (found (.chunk .large)) := by
  refine triple_of_step fun w rest r w' hs hret => ?_
  simp only [Machine.Returns, stateGetFreeLargeChunk] at hret
  split at hret
  · cases hret
  · next chain others hstates =>
      split at hret
      · next t os' hget =>
          cases hret
          have hgrows : ∀ {γ : Type} {g : State → γ} {fresh : γ → Prop}, Lasting .large g fresh →
              Grows g fresh chain t.chain := fun hg => by
            simpa using grows_getFreeLargeChunk hg hget
          have hmoves := getFreeLargeChunk_moves (m := w.inner.nonLocalPtrManager) hget
          refine .setStates hs.formed (heads_of_grows hs.formed hstates hgrows)
            (calm_of_grows hs.calm hstates hgrows) (by simp [found, Token.Holds])
            (by simp [found, Token.busyness]) (by simp [found, Token.depth, hstates]) ?_
          refine Moves.framed hmoves (others.map chainItems).sum ?_ ?_
          · rw [hstates, itemsOf_zero, add_zero, List.nil_append, List.map_cons, List.sum_cons]
          · rw [found, itemsOf_singleton, Token.items, List.map_cons, List.sum_cons]
            abel
      · next os' hget =>
          cases hret
          have hmoves := getFreeLargeChunk_moves (m := w.inner.nonLocalPtrManager) hget
          refine .setStates hs.formed hs.formed.heads hs.calm (by simp [found]) le_rfl rfl ?_
          refine Moves.framed hmoves (others.map chainItems).sum ?_ ?_
          · rw [hstates, itemsOf_zero, add_zero, List.nil_append, List.map_cons, List.sum_cons]
          · rw [hstates, found, itemsOf_zero, add_zero, List.nil_append, List.map_cons,
              List.sum_cons]
      · cases hret

/-! ## Chunks that are lost or given back -/

theorem abandon_triple (k : ChunkKind) (c : Nat) :
    (discipline P).Triple {.item (.chunk k c)} (record (.chunkAbandoned c)) fun _ => 0 := by
  refine triple_of_step fun w rest u w' hs hret => ?_
  obtain rfl := Machine.returns_modify.mp hret
  refine .setOs hs.formed hs.calm (by simp) (by simp) (by simp [Token.depth]) ?_
  rw [itemsOf_singleton, itemsOf_zero]
  exact (Moves.quiet (w.os.quiet_record _) _).trans
    (Moves.single (.abandon k c List.mem_cons_self) 0 (add_zero _).symm (add_zero _).symm)

theorem leaveUncut_triple (s : Slot) (c : Nat) :
    (discipline P).Triple (tokens ({.unwritten s c} + s.objects c)) (record (.chunkLeftUncut c))
      fun _ => 0 := by
  refine triple_of_step fun w rest u w' hs hret => ?_
  obtain rfl := Machine.returns_modify.mp hret
  refine .setOs hs.formed hs.calm (by simp) (by simp) (by simp) ?_
  rw [itemsOf_tokens, itemsOf_zero]
  exact (Moves.quiet (w.os.quiet_record _) _).trans
    (Moves.single (.leaveUncut s c List.mem_cons_self) 0 (add_zero _).symm (add_zero _).symm)

/-- The last element takes the place of a removed one. -/
theorem coe_swapRemove {α : Type} (xs ys : List α) (x y : α) :
    ((((xs ++ x :: ys).set xs.length ((xs ++ x :: ys).getLastD y)).dropLast : List α) :
      Multiset α) = ((xs ++ ys : List α) : Multiset α) := by
  rcases List.eq_nil_or_concat ys with rfl | ⟨zs, z, rfl⟩
  · simp
  · have hlast : (xs ++ x :: (zs.concat z)).getLastD y = z := by
      rw [List.concat_eq_append, ← List.cons_append, ← List.append_assoc, List.getLastD_concat]
    have hset : (xs ++ x :: (zs.concat z)).set xs.length z = (xs ++ z :: zs) ++ [z] := by simp
    rw [hlast, hset, List.dropLast_concat]
    refine Multiset.coe_eq_coe.mpr ?_
    simpa using (List.perm_append_left_iff xs).mpr (List.perm_append_singleton z zs).symm

/-- What `free_common` and `free_large` do to the views of the regions. -/
theorem releaseUnits_spec {units region : Nat} {views views' : List RegionView} {empty : Bool}
    (h : releaseUnits units region views = some (views', empty)) :
    ∃ (n : Nat) (others : Multiset RegionView),
      (views : Multiset RegionView) = {⟨region, n⟩} + others ∧
      ((empty = true ∧ (n + (usizeRange - units)) % usizeRange = 0 ∧
          (views' : Multiset RegionView) = others) ∨
        (empty = false ∧ (n + (usizeRange - units)) % usizeRange ≠ 0 ∧
          (views' : Multiset RegionView) =
            {⟨region, (n + (usizeRange - units)) % usizeRange⟩} + others)) := by
  unfold releaseUnits at h
  split at h
  · cases h
  · next idx hfind =>
      obtain ⟨hlt, hptr, -⟩ := List.findIdx?_eq_some_iff_getElem.mp hfind
      obtain ⟨xs, view, ys, rfl, rfl⟩ : ∃ xs view ys, views = xs ++ view :: ys ∧ xs.length = idx :=
        ⟨views.take idx, views[idx], views.drop (idx + 1), by simp, by simp; omega⟩
      have hview : view.ptr = region := by simpa using hptr
      have hget : (xs ++ view :: ys).getD xs.length ⟨0, 0⟩ = view := by simp
      have hmul : ∀ v, ((xs ++ v :: ys : List RegionView) : Multiset RegionView) =
          {v} + ((xs ++ ys : List RegionView) : Multiset RegionView) := fun v =>
        Multiset.coe_eq_coe.mpr List.perm_middle
      simp only [hget] at h
      refine ⟨view.numberOfCommonChunksOccupied, ((xs ++ ys : List RegionView) : Multiset _), ?_, ?_⟩
      · rw [hmul, ← hview]
      · split at h
        · next hzero =>
            cases h
            exact .inl ⟨rfl, hzero, coe_swapRemove xs ys view _⟩
        · next hne =>
            cases h
            refine .inr ⟨rfl, hne, ?_⟩
            rw [List.set_append_right _ _ le_rfl, Nat.sub_self, List.set_cons_zero, hmul, ← hview]

/-- The items of a list of views. -/
theorem contents_regions (views : Multiset RegionView) (xs : List RegionView)
    (h : (xs.reverse : Multiset RegionView) = views) :
    contents .regions xs =
      views.map fun view => .view view.ptr view.numberOfCommonChunksOccupied := by
  rw [← h, contents, Multiset.coe_reverse, Multiset.map_coe]

theorem returns_freeChunk {k : ChunkKind} {c : Nat} {w w' : World P} {u : Unit}
    (h : (freeChunk k c).Returns w u w') :
    ∃ views empty, ∃ (hle : views.reverse.length ≤ w.inner.regions.elems.length),
      releaseUnits k.numberOfUnits (regionPtrFromChunkPtr c) w.inner.regions.elems.reverse =
        some (views, empty) ∧
      w' = (w.setVec .regions (w.inner.regions.replaceElems views.reverse hle)).setOs
        (if empty then (w.os.record (.chunkGivenBack c)).deallocRegion (regionPtrFromChunkPtr c)
          else w.os.record (.chunkGivenBack c)) := by
  simp only [Machine.Returns, freeChunk] at h
  split at h
  · cases h
  · next views empty hrelease =>
      split at h
      · next hle =>
          cases h
          exact ⟨views, empty, hle, hrelease, rfl⟩
      · cases h

theorem World.vecItems_le_holdings (w : World P) (v : VecId) :
    vecItems v (w.vec v) ≤ w.holdings := by
  have hsum : vecItems v (w.vec v) ≤ ∑ u, vecItems u (w.inner.vec u) := by
    rw [← Finset.add_sum_erase Finset.univ (fun u => vecItems u (w.inner.vec u)) (Finset.mem_univ v)]
    exact Multiset.le_add_right _ _
  rw [World.holdings, ThreadLocalAllocatorInner.items, add_assoc]
  exact hsum.trans (Multiset.le_add_right _ _)

/-- A chunk goes back to its region, with the permission to do so. -/
theorem freeChunk_triple (k : ChunkKind) (c : Nat) :
    (discipline P).Triple (tokens ({.chunk k c} + {.permit})) (freeChunk k c) fun _ => 0 := by
  refine triple_of_step fun w rest u w' hs hret => ?_
  obtain ⟨views, empty, hle, hrelease, rfl⟩ := returns_freeChunk hret
  obtain ⟨n, others, hviews, hcase⟩ := releaseUnits_spec hrelease
  let itemOf : RegionView → Item := fun view => .view view.ptr view.numberOfCommonChunksOccupied
  have hold : contents .regions w.inner.regions.elems =
      {.view (regionPtrFromChunkPtr c) n} + others.map itemOf := by
    rw [contents_regions _ w.inner.regions.elems hviews, Multiset.map_add, Multiset.map_singleton]
  have hmem : .view (regionPtrFromChunkPtr c) n ∈ w.holdings := by
    refine Multiset.mem_of_le (w.vecItems_le_holdings .regions) ?_
    refine Multiset.mem_add.mpr (.inl ?_)
    rw [World.vec, ThreadLocalAllocatorInner.vec, hold]
    exact Multiset.mem_add.mpr (.inl (Multiset.mem_singleton_self _))
  obtain ⟨kept, hkept⟩ := Multiset.exists_cons_of_mem hmem
  rw [← Multiset.singleton_add] at hkept
  let x := w.inner.regions.replaceElems views.reverse hle
  -- the other views stay, and so does everything else
  have hnew : ∀ new : Multiset Item, contents .regions views.reverse = new + others.map itemOf →
      (w.setVec .regions x).holdings = new + kept := by
    intro new hcontents
    have hexchange := World.holdings_exchange (w := w) (v := .regions) (x := x)
      (a := new) (b := {.view (regionPtrFromChunkPtr c) n}) (by
        rw [vecItems, vecItems, World.vec, ThreadLocalAllocatorInner.vec, hold]
        rw [show x.elems = views.reverse from rfl, hcontents]
        rw [show x.ptr = w.inner.regions.ptr from rfl, show x.cap = w.inner.regions.cap from rfl]
        abel)
    refine add_right_cancel (b := ({.view (regionPtrFromChunkPtr c) n} : Multiset Item)) ?_
    rw [hexchange, hkept]
    abel
  have hformed : (w.setVec .regions x).WellFormed := hs.formed.setVec (by simp) (by simp)
  refine ⟨⟨hformed.boxes, hformed.idle, hformed.heads, hformed.incoming⟩, hs.calm,
    ⟨(w.keeps_setVec _ _).manager, (w.keeps_setVec _ _).box, (w.keeps_setVec _ _).busy⟩, by simp,
    by simp, congrArg (w.states.length + ·) (by simp), ?_⟩
  have hgiven : .chunkGivenBack c ∈ (w.os.record (.chunkGivenBack c)).log := List.mem_cons_self
  rw [World.estate, itemsOf_tokens]
  refine (Moves.quiet (w.os.quiet_record (.chunkGivenBack c)) _).trans ?_
  rcases hcase with ⟨rfl, hzero, hviews'⟩ | ⟨rfl, hne, hviews'⟩
  · have hcontents : contents .regions views.reverse = 0 + others.map itemOf := by
      rw [zero_add]
      exact contents_regions _ _ (by simpa using hviews')
    refine Moves.single (.releaseLast k c n hzero hgiven) kept ?_ ?_
    · rw [hkept]
      abel
    · rw [itemsOf_zero, add_zero, World.holdings_setOs]
      exact hnew 0 hcontents
  · have hcontents : contents .regions views.reverse =
        {.view (regionPtrFromChunkPtr c) ((n + (usizeRange - k.numberOfUnits)) % usizeRange)} +
          others.map itemOf := by
      rw [contents_regions _ views.reverse (views.reverse_reverse.symm ▸ hviews'),
        Multiset.map_add, Multiset.map_singleton]
    refine Moves.single (.release k c n hne hgiven) kept ?_ ?_
    · rw [hkept]
      abel
    · rw [itemsOf_zero, add_zero, World.holdings_setOs]
      exact hnew _ hcontents

/-! ## Metadata and flags -/

/-- The metadata of a chunk that a slow path has cut. -/
theorem initCutMetadata_triple (s : Slot) (m c curr : Nat) (hle : c ≤ curr)
    (hlt : curr < c + s.kind.chunkSize) :
    (discipline P).Triple ({.item (.unwritten s c)} + {.manager m}) (initCutMetadata s m c curr)
      fun _ => 0 := by
  refine triple_of_step fun w rest u w' hs hret => ?_
  obtain rfl := Machine.returns_modify.mp hret
  have hmanager : w.inner.nonLocalPtrManager = some m := hs.holds (.manager m) (by simp)
  refine .setOs hs.formed hs.calm (by simp) (by simp) (by simp [Token.depth]) ?_
  rw [hmanager, itemsOf_add, itemsOf_singleton, itemsOf_singleton, itemsOf_zero]
  suffices hwrite : Exchange w.os (some m) {.unwritten s c} 0 _ (some m) from
    Moves.single hwrite 0 (by simp [Token.items]) (add_zero _).symm
  cases hkind : s.kind with
  | common =>
      rw [hkind] at hlt
      rw [if_neg (by simp)]
      exact .write s c curr hkind hle hlt
  | large =>
      rw [if_pos rfl]
      exact .writeLarge s c curr hkind List.mem_cons_self (Os.quiet_record _ _)

/-- Changing what is not an item of the States of a chain. -/
theorem chainItems_map {f : State → State} (hf : ∀ s, (f s).items = s.items)
    (chain : List State) : chainItems (chain.map f) = chainItems chain := by
  simp only [chainItems, List.map_map, Function.comp_def, hf]

theorem moveState_triple : (discipline P).Triple 0 moveState fun _ => 0 := by
  refine triple_of_step fun w rest u w' hs hret => ?_
  obtain rfl := Machine.returns_modify.mp hret
  cases hstates : w.states with
  | nil => exact .stay hs.formed hs.calm (by simp) le_rfl rfl rfl
  | cons chain others =>
      obtain ⟨s, tail, rfl, hnone⟩ := hs.formed.heads chain (hstates ▸ List.mem_cons_self)
      refine .setStates (o := w.os) hs.formed ?_ ?_ (by simp) le_rfl (by simp [hstates]) ?_
      · intro c hc
        rcases List.mem_cons.mp hc with rfl | hc
        · exact ⟨_, _, rfl, hnone⟩
        · exact hs.formed.heads c (hstates ▸ List.mem_cons_of_mem _ hc)
      · intro c hc t ht
        rcases List.mem_cons.mp hc with rfl | hc
        · obtain ⟨t₀, ht₀, rfl⟩ := List.mem_map.mp ht
          exact hs.calm _ (hstates ▸ List.mem_cons_self) t₀ ht₀
        · exact hs.calm c (hstates ▸ List.mem_cons_of_mem _ hc) t ht
      · rw [hstates, List.map_cons, List.map_cons, List.sum_cons, List.sum_cons,
          chainItems_map]
        · exact Moves.refl _
        · exact fun _ => rfl

end Memalart
