/-
# Single accesses as steps

Each access of a vector, the chain of States or the operating system exchanges
tokens: what a vector gives up, the caller has in hand.
-/

import Memalart.Discipline

namespace Memalart

open Memalart.Lib ThreadLocalAllocator

variable {P : Params}

/-! ## Vectors -/

/-- The token of an optional address. -/
def found (item : Nat → Item) : Option Nat → Multiset (Token P)
  | some ptr => {.item (item ptr)}
  | none => 0

/-- A chunk that has been taken from the free ones: the first State has been committed. -/
def foundChunk (k : ChunkKind) : Option Nat → Multiset (Token P)
  | some chunk => {.item (.chunk k chunk)} + {.ready}
  | none => 0

/-- What has to be known to give a vector a buffer: that its box exists. -/
def boxOf : VecId → Multiset (Token P)
  | .chunk s => {.boxed s.kind}
  | _ => 0

/-- What has to be known to enter elements. -/
def needs : VecId → Multiset (Token P)
  | .chunk s => {.boxed s.kind}
  | .freeCommonChunks | .freeLargeChunks => {.ready}
  | _ => 0

theorem knowledge_needs (v : VecId) : Knowledge (needs v : Multiset (Token P)) := by
  cases v with
  | chunk s => exact .boxed s.kind
  | freeCommonChunks => exact .ready
  | freeLargeChunks => exact .ready
  | _ => exact .zero

theorem contents_append (v : VecId) (xs ys : List v.Elem) :
    contents v (xs ++ ys) = contents v xs + contents v ys := by
  cases v with
  | regions => simp [contents]
  | _ => exact Item.all_append _ _ _

theorem contents_reverse (v : VecId) (xs : List v.Elem) :
    contents v xs.reverse = contents v xs := by
  cases v with
  | regions => simp [contents]
  | _ => exact Item.all_reverse _ _

section SetVec

variable {w : World P} {v : VecId} {x : SelfAllocatedVec v.Elem}

@[simp] theorem chunkTableBox_setVec (k : ChunkKind) :
    chunkTableBox k (w.setVec v x) = chunkTableBox k w := by
  cases k <;> simp [chunkTableBox]

@[simp] theorem ready_setVec : (w.setVec v x).Ready ↔ w.Ready := by
  simp [World.Ready]

theorem chunkTable_setVec (hbox : ∀ s, v = .chunk s → chunkTableBox s.kind w ≠ none) {k : ChunkKind}
    (hk : chunkTableBox k w = none) {t : Slot} (ht : t.kind = k) :
    (w.setVec v x).inner.chunkTable t = w.inner.chunkTable t := by
  cases v with
  | chunk s =>
      refine if_neg ?_
      rintro rfl
      exact hbox t rfl (ht ▸ hk)
  | _ => rfl

/-- A vector may be replaced, if its box exists, and if free chunks are entered only
once the first State has been committed. -/
theorem World.WellFormed.setVec (h : w.WellFormed)
    (hbox : ∀ s, v = .chunk s → chunkTableBox s.kind w ≠ none)
    (hfree : v = .freeCommonChunks ∨ v = .freeLargeChunks →
      w.Ready ∨ x.elems = []) : (w.setVec v x).WellFormed where
  boxes k hk t ht := by
    rw [chunkTableBox_setVec] at hk
    rw [chunkTable_setVec hbox hk ht]
    exact h.boxes k hk t ht
  idle hready := by
    rw [ready_setVec] at hready
    obtain ⟨hcommon, hlarge⟩ := h.idle hready
    cases v with
    | freeCommonChunks => exact ⟨(hfree (.inl rfl)).resolve_left hready, hlarge⟩
    | freeLargeChunks => exact ⟨hcommon, (hfree (.inr rfl)).resolve_left hready⟩
    | _ => exact ⟨hcommon, hlarge⟩
  heads := h.heads
  incoming := h.incoming

theorem World.keeps_setVec (w : World P) (v : VecId) (x : SelfAllocatedVec v.Elem) :
    w.Keeps (w.setVec v x) where
  manager ptr hptr := by simpa using hptr
  box k hk := by simpa using hk
  busy hbusy := ⟨hbusy, by simp⟩

/-- The items of a vector against the items in hand. -/
theorem World.holdings_exchange {a b : Multiset Item}
    (h : vecItems v x + b = vecItems v (w.vec v) + a) :
    (w.setVec v x).holdings + b = w.holdings + a := by
  have hsum := w.holdings_setVec v x
  refine add_right_cancel (b := vecItems v (w.vec v)) ?_
  calc (w.setVec v x).holdings + b + vecItems v (w.vec v)
      = ((w.setVec v x).holdings + vecItems v (w.vec v)) + b := by abel
    _ = w.holdings + (vecItems v x + b) := by rw [hsum, add_assoc]
    _ = w.holdings + a + vecItems v (w.vec v) := by rw [h]; abel

theorem Step.setVec {give take : Multiset (Token P)} (hformed : w.WellFormed) (hcalm : w.Calm)
    (hbox : ∀ s, v = .chunk s → chunkTableBox s.kind w ≠ none)
    (hfree : v = .freeCommonChunks ∨ v = .freeLargeChunks → w.Ready ∨ x.elems = [])
    (htake : ∀ t ∈ take, t.Holds w) (hbusy : busyness take ≤ busyness give)
    (hdepth : depth give = depth take)
    (hitems : vecItems v x + itemsOf take = vecItems v (w.vec v) + itemsOf give) :
    Step w give (w.setVec v x) take where
  formed := hformed.setVec hbox hfree
  calm := hcalm
  keeps := w.keeps_setVec v x
  holds t ht := (w.keeps_setVec v x).holds (htake t ht)
  busy := hbusy
  chains := congrArg _ hdepth
  moves := by
    have hitems := World.holdings_exchange (w := w) hitems
    have hmanager : (w.setVec v x).inner.nonLocalPtrManager = w.inner.nonLocalPtrManager := by simp
    rw [World.estate, World.estate, hmanager, hitems]
    exact Moves.refl _

end SetVec

/-- Nothing changes but what is known. -/
theorem Step.stay {w : World P} {give take : Multiset (Token P)} (hformed : w.WellFormed)
    (hcalm : w.Calm) (htake : ∀ t ∈ take, t.Holds w) (hbusy : busyness take ≤ busyness give)
    (hdepth : depth give = depth take) (hitems : itemsOf take = itemsOf give) : Step w give w take where
  formed := hformed
  calm := hcalm
  keeps := ⟨fun _ h => h, fun _ h => h, fun h => ⟨h, rfl⟩⟩
  holds := htake
  busy := hbusy
  chains := congrArg _ hdepth
  moves := by
    rw [hitems]
    exact Moves.refl _

theorem popObject_triple (s : Slot) :
    (discipline P).Triple 0 (popObject s) (found (.object s)) := by
  refine triple_of_step fun w rest r w' hs hret => ?_
  simp only [Machine.Returns, popObject] at hret
  split at hret
  · next ptr vec hpop =>
      cases hret
      obtain ⟨helems, hcap, hptr⟩ := SelfAllocatedVec.pop_eq_some hpop
      refine Step.setVec hs.formed hs.calm (by simp) (by simp) (by simp [found, Token.Holds])
        (by simp [found, Token.busyness]) (by simp [found, Token.depth]) ?_
      simp only [found, itemsOf_singleton, Token.items, itemsOf_zero, add_zero, vecItems, contents,
        World.vec, ThreadLocalAllocatorInner.vec, helems, hcap, hptr, Item.all_cons]
      abel
  · cases hret
    exact .stay hs.formed hs.calm (by simp [found]) le_rfl rfl rfl

/-- Where a chunk is free, the first State has been committed. -/
theorem World.WellFormed.ready_of_chunk {w : World P} (h : w.WellFormed)
    (hfree : w.inner.freeCommonChunks.elems ≠ [] ∨ w.inner.freeLargeChunks.elems ≠ []) :
    w.Ready := by
  by_contra hready
  obtain ⟨hcommon, hlarge⟩ := h.idle hready
  exact hfree.elim (· hcommon) (· hlarge)

theorem tryGetChunk_triple (k : ChunkKind) :
    (discipline P).Triple 0 (tryGetChunk k) (foundChunk k) := by
  refine triple_of_step fun w rest r w' hs hret => ?_
  simp only [Machine.Returns, tryGetChunk, Except.ok.injEq, popChunk] at hret
  cases k with
  | common =>
      simp only at hret
      split at hret
      · next chunk vec hpop =>
          cases hret
          obtain ⟨helems, hcap, hptr⟩ := SelfAllocatedVec.pop_eq_some hpop
          have hready : w.Ready := hs.formed.ready_of_chunk (.inl (by simp [helems]))
          refine Step.setVec hs.formed hs.calm (by simp) (fun _ => .inl hready)
            (by simp [foundChunk, Token.Holds, hready]) (by simp [foundChunk, Token.busyness])
            (by simp [foundChunk, Token.depth]) ?_
          simp only [foundChunk, itemsOf_add, itemsOf_singleton, Token.items, itemsOf_zero,
            add_zero, vecItems, contents, World.vec, ThreadLocalAllocatorInner.vec, helems, hcap,
            hptr, Item.all_cons]
          abel
      · cases hret
        exact .stay hs.formed hs.calm (by simp [foundChunk]) le_rfl rfl rfl
  | large =>
      simp only at hret
      split at hret
      · next chunk vec hpop =>
          cases hret
          obtain ⟨helems, hcap, hptr⟩ := SelfAllocatedVec.pop_eq_some hpop
          have hready : w.Ready := hs.formed.ready_of_chunk (.inr (by simp [helems]))
          refine Step.setVec hs.formed hs.calm (by simp) (fun _ => .inl hready)
            (by simp [foundChunk, Token.Holds, hready]) (by simp [foundChunk, Token.busyness])
            (by simp [foundChunk, Token.depth]) ?_
          simp only [foundChunk, itemsOf_add, itemsOf_singleton, Token.items, itemsOf_zero,
            add_zero, vecItems, contents, World.vec, ThreadLocalAllocatorInner.vec, helems, hcap,
            hptr, Item.all_cons]
          abel
      · cases hret
        exact .stay hs.formed hs.calm (by simp [foundChunk]) le_rfl rfl rfl

theorem returns_tryExtend {v : VecId} {xs : List v.Elem} {w w' : World P} {ok : Bool} :
    (tryExtend v xs).Returns w ok w' ↔
      (∃ vec, (w.vec v).tryExtend xs = some vec ∧ ok = true ∧ w' = w.setVec v vec) ∨
        ((w.vec v).tryExtend xs = none ∧ ok = false ∧ w' = w) := by
  simp only [Machine.Returns, tryExtend]
  cases (w.vec v).tryExtend xs with
  | none => simp [eq_comm]
  | some vec => simp [eq_comm]

theorem returns_extendUnchecked {v : VecId} {xs : List v.Elem} {w w' : World P} {u : Unit} :
    (extendUnchecked v xs).Returns w u w' ↔
      ∃ vec, (w.vec v).tryExtend xs = some vec ∧ w' = w.setVec v vec := by
  simp only [extendUnchecked, Machine.returns_bind, returns_tryExtend]
  constructor
  · rintro ⟨ok, w₁, ⟨vec, hvec, rfl, rfl⟩ | ⟨-, rfl, rfl⟩, hrest⟩
    · exact ⟨vec, hvec, by simpa using hrest⟩
    · simp at hrest
  · rintro ⟨vec, hvec, rfl⟩
    exact ⟨true, _, .inl ⟨vec, hvec, rfl, rfl⟩, by simp⟩

/-- What a vector holds after elements have been entered. -/
theorem vecItems_tryExtend {v : VecId} {x x' : SelfAllocatedVec v.Elem} {xs : List v.Elem}
    (h : x.tryExtend xs = some x') : vecItems v x' = vecItems v x + contents v xs := by
  obtain ⟨helems, hcap, hptr⟩ := SelfAllocatedVec.tryExtend_eq_some h
  rw [vecItems, vecItems, helems, hcap, hptr, contents_append, contents_reverse]
  abel

theorem box_of_needs {w : World P} {v : VecId} (h : ∀ t ∈ (needs v : Multiset (Token P)), t.Holds w)
    (s : Slot) (hv : v = .chunk s) : chunkTableBox s.kind w ≠ none := by
  subst hv
  exact h _ (Multiset.mem_singleton_self _)

theorem ready_of_needs {w : World P} {v : VecId} (h : ∀ t ∈ (needs v : Multiset (Token P)), t.Holds w)
    (hv : v = .freeCommonChunks ∨ v = .freeLargeChunks) : w.Ready := by
  rcases hv with rfl | rfl <;> exact h _ (Multiset.mem_singleton_self _)

theorem extendUnchecked_triple (v : VecId) (xs : List v.Elem) :
    (discipline P).Triple (tokens (contents v xs) + needs v) (extendUnchecked v xs)
      fun _ => needs v := by
  refine triple_of_step fun w rest u w' hs hret => ?_
  obtain ⟨vec, hvec, rfl⟩ := returns_extendUnchecked.mp hret
  have hneeds : ∀ t ∈ (needs v : Multiset (Token P)), t.Holds w := fun t ht =>
    hs.holds t (Multiset.mem_add.mpr (.inl (Multiset.mem_add.mpr (.inr ht))))
  refine Step.setVec hs.formed hs.calm (box_of_needs hneeds) (fun hv => .inl (ready_of_needs hneeds hv))
    hneeds ?_ ?_ ?_
  · simp
  · simp
  · rw [vecItems_tryExtend hvec, itemsOf_add, itemsOf_tokens, (knowledge_needs v).items]
    abel

theorem returns_install {v : VecId} {ptr cap : Nat} {w w' : World P} {old : Nat × Nat} :
    (install v ptr cap).Returns w old w' ↔
      ∃ vec, (w.vec v).moveTo ptr cap = some vec ∧ old = ((w.vec v).ptr, (w.vec v).cap) ∧
        w' = w.setVec v vec := by
  simp only [Machine.Returns, install]
  cases (w.vec v).moveTo ptr cap with
  | none => simp
  | some vec => simp [eq_comm]

/-- A vector gets another buffer, and the old one is in hand. -/
theorem install_triple (v : VecId) (ptr cap : Nat) :
    (discipline P).Triple (tokens (bufferItems v ptr cap) + boxOf v) (install v ptr cap)
      fun old => tokens (bufferItems v old.1 old.2) + boxOf v := by
  refine triple_of_step fun w rest old w' hs hret => ?_
  obtain ⟨vec, hvec, rfl, rfl⟩ := returns_install.mp hret
  obtain ⟨helems, hcap, hptr⟩ := SelfAllocatedVec.moveTo_eq_some hvec
  have hbox : ∀ t ∈ (boxOf v : Multiset (Token P)), t.Holds w := fun t ht =>
    hs.holds t (Multiset.mem_add.mpr (.inl (Multiset.mem_add.mpr (.inr ht))))
  refine Step.setVec hs.formed hs.calm ?_ ?_ ?_ ?_ ?_ ?_
  · rintro s rfl
    exact hbox _ (Multiset.mem_singleton_self _)
  · intro hv
    by_cases hready : w.Ready
    · exact .inl hready
    · right
      obtain ⟨hcommon, hlarge⟩ := hs.formed.idle hready
      rw [helems]
      rcases hv with rfl | rfl
      · exact hcommon
      · exact hlarge
  · intro t ht
    rcases Multiset.mem_add.mp ht with ht | ht
    · exact holds_tokens ht
    · exact hbox t ht
  · simp
  · simp
  · simp only [vecItems, helems, hcap, hptr, itemsOf_add, itemsOf_tokens]
    abel

end Memalart
