/-
# The slow paths

A slow path gets a chunk, enters it in its table and cuts it into the free vector of
its class.  What it holds at each point is in hand: the chunk until it is entered, then
its objects and the metadata that is still to be written.
-/

import Memalart.CommitSteps

namespace Memalart

open Memalart.Lib ThreadLocalAllocator

variable {P : Params} {A : AllocatorForSelfAllocations P}

/-! ## Cutting a chunk -/

/-- The objects of a chunk are those that go to the free vector and the last one. -/
theorem Slot.objects_eq (s : Slot) (c : Nat) :
    s.objects c = Item.all (.object s) (firstSlots c s.realSize (s.slotsPerChunk - 1)) +
      {.object s (c + (s.slotsPerChunk - 1) * s.realSize)} := by
  have hfive := s.five_le_slotsPerChunk
  have hcount : s.slotsPerChunk = s.slotsPerChunk - 1 + 1 := by omega
  rw [Slot.objects, hcount, firstSlots, List.range_succ, List.map_append, Item.all_append]
  rfl

theorem turns_record (s : Slot) (c : Nat) :
    Turns {.chunk s.kind c}
      (contents (.chunk s) [c] + ({.unwritten s c} + s.objects c)) := fun os m =>
  Moves.single (.record s c) 0 (add_zero _).symm (by
    rw [add_zero, contents, Item.all_cons, Item.all_nil, add_zero, add_assoc])

theorem lastSlot_lt (s : Slot) (c : Nat) :
    c + (s.slotsPerChunk - 1) * s.realSize < c + s.kind.chunkSize := by
  have hfive := s.five_le_slotsPerChunk
  have hlt : (s.slotsPerChunk - 1) * s.realSize < s.chunkSize :=
    lt_chunkSize_of_lt_div (show s.slotsPerChunk - 1 < s.chunkSize / s.realSize by
      have hcount : s.slotsPerChunk = s.chunkSize / s.realSize := rfl
      omega)
  rw [s.chunkSize_kind]
  omega

/-- Knowing that the allocator is ready is knowing that a box exists. -/
theorem Triple.boxed_of_ready {α : Type} {x : M P α} {give : Multiset (Token P)}
    {take : α → Multiset (Token P)} (k : ChunkKind)
    (hx : (discipline P).Triple ({.boxed k} + ({.ready} + give)) x take) :
    (discipline P).Triple ({.ready} + give) x take := by
  refine Triple.exchange hx fun w rest hs => ?_
  have hready : w.Ready := hs.holds .ready (by simp)
  refine .exchange hs.formed hs.calm ?_ (by simp [Token.busyness]) (by simp [Token.depth]) ?_
  · intro t ht
    rcases Multiset.mem_add.mp ht with ht | ht
    · obtain rfl := Multiset.mem_singleton.mp ht
      exact hready.2 k
    · exact hs.holds t (Multiset.mem_add.mpr (.inl ht))
  · simp only [itemsOf_add, (Knowledge.boxed k).items, zero_add]
    exact Moves.refl _

/-- A chunk is entered in its table, or stays in hand. -/
theorem pushChunk_triple (hA : Serves A) (s : Slot) (hasState : Bool) (c : Nat) :
    (discipline P).Triple ({.boxed s.kind} + tokens {.chunk s.kind c})
      (push A true (.chunk s) c hasState) fun ok => {.boxed s.kind} +
        tokens (if ok then {.unwritten s c} + s.objects c else {.chunk s.kind c}) := by
  have hpush := extendFromSlice_triple hA true (.chunk s) [c] hasState (turns_record s c)
  exact hpush.conv (add_comm _ _) fun ok => add_comm _ _

/-- A chunk that nobody enters anywhere. -/
theorem abandonChunk_triple (k : ChunkKind) (c : Nat) :
    (discipline P).Triple (tokens {.chunk k c}) (record (.chunkAbandoned c)) fun _ => 0 :=
  abandon_triple k c

/-- Cut a chunk whose last object the caller keeps. -/
def cutObjects (A : AllocatorForSelfAllocations P) (s : Slot) (realSize : Nat) (hasState : Bool)
    (chunk additional : Nat) : M P (Option Nat) := do
  extendUnchecked (.object s) (firstSlots chunk realSize additional)
  let curr := chunk + additional * realSize
  let manager ← getOrInitManager A hasState
  initCutMetadata s manager chunk curr
  pure (some curr)

theorem cutObjects_triple (s : Slot) (hasState : Bool) (c : Nat) :
    (discipline P).Triple ({.ready} + tokens ({.unwritten s c} + s.objects c))
      (cutObjects A s s.realSize hasState c (s.slotsPerChunk - 1)) (found (.object s)) := by
  have hobjects : (tokens (contents (.object s) (firstSlots c s.realSize (s.slotsPerChunk - 1))) +
      needs (.object s) + ({.ready} + tokens ({.unwritten s c} +
        {.object s (c + (s.slotsPerChunk - 1) * s.realSize)})) : Multiset (Token P)) =
      {.ready} + tokens ({.unwritten s c} + s.objects c) := by
    have hneeds : (needs (.object s) : Multiset (Token P)) = 0 := rfl
    rw [hneeds, s.objects_eq, contents]
    simp only [tokens_add]
    abel
  have hextend := (extendUnchecked_triple (P := P) (.object s)
    (firstSlots c s.realSize (s.slotsPerChunk - 1))).frame ({.ready} + tokens ({.unwritten s c} +
      {.object s (c + (s.slotsPerChunk - 1) * s.realSize)}))
  rw [hobjects] at hextend
  refine hextend.bind fun _ => Triple.forget (knowledge_needs (.object s)) ?_
  refine ((getOrInitManager_triple hasState).frame _).bind fun m => ?_
  have hwrite := (initCutMetadata_triple (P := P) s m c _ (Nat.le_add_right c _)
    (lastSlot_lt s c)).frame ({.ready} +
      tokens {.object s (c + (s.slotsPerChunk - 1) * s.realSize)})
  have hgive : ({.manager m} + {.ready} + tokens ({.unwritten s c} +
      {.object s (c + (s.slotsPerChunk - 1) * s.realSize)}) : Multiset (Token P)) =
      {.item (.unwritten s c)} + {.manager m} + ({.ready} +
        tokens {.object s (c + (s.slotsPerChunk - 1) * s.realSize)}) := by
    rw [tokens_add, tokens_singleton]
    abel
  rw [hgive]
  refine hwrite.bind fun _ => ?_
  rw [zero_add]
  exact Triple.forget .ready (Discipline.Triple.pure rfl)

theorem cutChunk_triple (hA : ServesAlways A) (s : Slot) (hasState : Bool) (c : Nat) :
    (discipline P).Triple ({.ready} + tokens {.chunk s.kind c})
      (cutChunk A false s s.realSize hasState c) (found (.object s)) := by
  refine Triple.boxed_of_ready s.kind ?_
  refine ((ensureChunkTable_boxed s.kind hasState).frame _).bind fun _ => ?_
  have hpush := (pushChunk_triple hA.toServes s hasState c).frame {.ready}
  have hgive : ({.boxed s.kind} + ({.ready} + tokens {.chunk s.kind c}) : Multiset (Token P)) =
      {.boxed s.kind} + tokens {.chunk s.kind c} + {.ready} := by
    abel
  rw [hgive]
  refine hpush.bind fun ok => ?_
  have hknown : Knowledge ({.boxed s.kind} + {.ready} : Multiset (Token P)) :=
    (Knowledge.boxed _).add .ready
  cases ok with
  | false =>
      have habandon := (abandonChunk_triple (P := P) s.kind c).frame ({.boxed s.kind} + {.ready})
      have hgive : ({.boxed s.kind} + tokens {.chunk s.kind c} + {.ready} : Multiset (Token P)) =
          tokens {.chunk s.kind c} + ({.boxed s.kind} + {.ready}) := by
        abel
      show (discipline P).Triple ({.boxed s.kind} + tokens {.chunk s.kind c} + {.ready}) _ _
      rw [hgive]
      refine habandon.bind fun _ => ?_
      rw [zero_add]
      exact Triple.forgetAll hknown (Discipline.Triple.pure rfl)
  | true =>
      -- room for all objects but the last one
      have hreserve := (reserve_triple hA.toServes true (.object s)
        (s.kind.chunkSize / s.realSize - 1) hasState).frame
          ({.boxed s.kind} + tokens ({.unwritten s c} + s.objects c) + {.ready})
      show (discipline P).Triple
        ({.boxed s.kind} + tokens ({.unwritten s c} + s.objects c) + {.ready}) _ _
      have hbox : (boxOf (.object s) : Multiset (Token P)) = 0 := rfl
      have hgive : ({.boxed s.kind} + tokens ({.unwritten s c} + s.objects c) + {.ready} :
          Multiset (Token P)) = boxOf (.object s) +
            ({.boxed s.kind} + tokens ({.unwritten s c} + s.objects c) + {.ready}) := by
        rw [hbox, zero_add]
      rw [hgive]
      refine hreserve.bind fun room => ?_
      have htoks : (boxOf (.object s) + ({.boxed s.kind} + tokens ({.unwritten s c} + s.objects c) +
          {.ready}) : Multiset (Token P)) =
          {.boxed s.kind} + ({.ready} + tokens ({.unwritten s c} + s.objects c)) := by
        rw [hbox, zero_add]
        abel
      rw [htoks]
      cases room with
      | none =>
          have hleave := (leaveUncut_triple (P := P) s c).frame ({.boxed s.kind} + {.ready})
          have hgive : ({.boxed s.kind} + ({.ready} + tokens ({.unwritten s c} + s.objects c)) :
              Multiset (Token P)) =
              tokens ({.unwritten s c} + s.objects c) + ({.boxed s.kind} + {.ready}) := by
            abel
          rw [hgive]
          refine hleave.bind fun _ => ?_
          rw [zero_add]
          exact Triple.forgetAll hknown (Discipline.Triple.pure rfl)
      | some allocated =>
          refine Triple.forget (.boxed s.kind) ?_
          have hcut := cutObjects_triple (P := P) (A := A) s hasState c
          rw [← s.chunkSize_div] at hcut
          exact hcut

/-! ## Getting a chunk -/

theorem allocLargeChunk_triple (hA : ServesAlways A) :
    (discipline P).Triple 0 (allocLargeChunk A) (foundChunk .large) := by
  refine (allocRegion_triple true).bind fun region => ?_
  cases region with
  | none => exact Discipline.Triple.pure rfl
  | some region =>
      refine (enterState_triple region).bind fun _ => ?_
      have hget := (stateGetFreeLargeChunk_triple (P := P) false).frame {.chain}
      rw [zero_add] at hget
      refine hget.bind fun chunk => ?_
      cases chunk with
      | none => exact Discipline.Triple.fault _
      | some chunk =>
          have hhandle := (handleState_triple hA).frame (found (.chunk .large) (some chunk))
          rw [add_comm]
          refine hhandle.bind fun _ => ?_
          exact Discipline.Triple.pure (add_comm _ _)

theorem getLargeChunk_triple (hA : ServesAlways A) :
    (discipline P).Triple 0 (getLargeChunk A) (foundChunk .large) := by
  refine (tryGetChunk_triple .large).bind fun chunk => ?_
  cases chunk with
  | none => exact allocLargeChunk_triple hA
  | some chunk => exact Discipline.Triple.pure rfl

theorem turns_split (c : Nat) {commons : List Nat} {last : Nat}
    (hsplit : splitLargeChunkToCommon c = commons ++ [last]) :
    Turns {.chunk .large c} (contents .freeCommonChunks commons + {.chunk .common last}) :=
  fun os m => Moves.single (.split c) 0 (add_zero _).symm (by
    rw [hsplit, Item.all_append, add_zero]
    rfl)

theorem getCommonChunkSlow_triple (hA : ServesAlways A) :
    (discipline P).Triple 0 (getCommonChunkSlow A) (foundChunk .common) := by
  refine (getLargeChunk_triple hA).bind fun large => ?_
  cases large with
  | none => exact Discipline.Triple.pure rfl
  | some chunk =>
      have hget := (tryGetChunk_triple (P := P) .common).frame (foundChunk .large (some chunk))
      rw [zero_add] at hget
      refine hget.bind fun common => ?_
      cases common with
      | some common =>
          -- the large chunk goes back to the free ones
          have hturns : Turns {.chunk .large chunk} (contents .freeLargeChunks [chunk] + 0) := by
            rw [add_zero]
            exact Turns.refl _
          have hpush := (extendFromSlice_triple hA.toServes true .freeLargeChunks [chunk] false
            hturns).frame (foundChunk .common (some common))
          rw [add_comm (foundChunk .common (some common))]
          refine Discipline.Triple.bind hpush fun ok => ?_
          cases ok with
          | true =>
              refine Triple.forget (knowledge_needs .freeLargeChunks) ?_
              exact Discipline.Triple.pure rfl
          | false =>
              have habandon := (abandonChunk_triple (P := P) .large chunk).frame
                ({.ready} + foundChunk .common (some common))
              rw [← add_assoc, zero_add] at habandon
              refine Discipline.Triple.bind habandon fun _ => ?_
              exact Triple.forget .ready (Discipline.Triple.pure rfl)
      | none =>
          obtain ⟨commons, last, hsplit⟩ : ∃ commons last,
              splitLargeChunkToCommon chunk = commons ++ [last] :=
            ⟨_, _, (List.dropLast_append_getLast (by simp [splitLargeChunkToCommon,
              commonChunksInLargeChunk, largeChunkSize, commonChunkSize])).symm⟩
          have hextend := extendFromSlice_triple hA.toServes true .freeCommonChunks commons false
            (turns_split chunk hsplit)
          simp only [hsplit, List.dropLast_concat, List.getLast?_concat, Option.map_some]
          refine Discipline.Triple.bind hextend fun ok => ?_
          cases ok with
          | true => exact Discipline.Triple.pure rfl
          | false =>
              have habandon := (abandonChunk_triple (P := P) .large chunk).frame {.ready}
              refine Discipline.Triple.bind habandon fun _ => ?_
              rw [zero_add]
              exact Triple.forgetAll .ready (Discipline.Triple.pure rfl)

theorem getCommonChunk_triple (hA : ServesAlways A) :
    (discipline P).Triple 0 (getCommonChunk A) (foundChunk .common) := by
  refine (tryGetChunk_triple .common).bind fun chunk => ?_
  cases chunk with
  | none => exact getCommonChunkSlow_triple hA
  | some chunk => exact Discipline.Triple.pure rfl

theorem getChunk_triple (hA : ServesAlways A) (k : ChunkKind) :
    (discipline P).Triple 0 (getChunk A k) (foundChunk k) := by
  cases k with
  | common => exact getCommonChunk_triple hA
  | large => exact getLargeChunk_triple hA

/-! ## Allocation of an object -/

/-- A chunk that has been found, as `cutChunk` takes it. -/
theorem foundChunk_some (k : ChunkKind) (c : Nat) :
    (foundChunk k (some c) : Multiset (Token P)) = {.ready} + tokens {.chunk k c} :=
  add_comm _ _

theorem objectTable_popChunk (k : ChunkKind) (w : World P) :
    (popChunk k w).2.inner.objectTable = w.inner.objectTable := by
  cases k with
  | common =>
      simp only [popChunk]
      split <;> rfl
  | large =>
      simp only [popChunk]
      split <;> rfl

/-- With an empty vector, the cache is filled from a free chunk. -/
theorem allocFresh_cache (hA : ServesAlways A) (s : Slot) (hasState : Bool) {w : World P}
    {rest : Multiset (Token P)} (hs : Sound w (0 + rest))
    (hempty : (w.inner.objectTable s).elems = []) :
    (discipline P).At w (0 + rest) (allocFresh A false s s.realSize (tryGetChunk s.kind) hasState)
      fun r => found (.object s) r + rest := by
  refine Discipline.At.bind (tryGetChunk_triple s.kind w rest hs) fun chunk w₁ hget hs₁ => ?_
  cases chunk with
  | none => exact Discipline.At.pure hs₁ rfl
  | some c =>
      have hempty₁ : (w₁.inner.objectTable s).elems = [] := by
        have hw₁ : (popChunk s.kind w).2 = w₁ := congrArg Prod.snd (Except.ok.inj hget)
        rw [← hw₁, objectTable_popChunk, hempty]
      refine Discipline.At.read (fun r w' h => (returns_popObject_none hempty₁ h).2) fun r h => ?_
      obtain rfl := (returns_popObject_none hempty₁ h).1
      rw [foundChunk_some] at hs₁ ⊢
      exact cutChunk_triple hA s hasState c w₁ rest hs₁

/-- `try_alloc_common_from_cache` and `try_alloc_large_from_cache`. -/
theorem tryAllocFromCache_triple (hA : ServesAlways A) (s : Slot) (hasState : Bool) :
    (discipline P).Triple 0 (tryAllocFromCache A s s.realSize hasState) (found (.object s)) := by
  intro w rest hs
  refine Discipline.At.bind (popObject_triple s w rest hs) fun r w₁ hpop hs₁ => ?_
  rcases returns_popObject hpop with ⟨ptr, vec, -, rfl, -⟩ | ⟨hempty, rfl, rfl⟩
  · exact Discipline.At.pure hs₁ rfl
  · intro r w' hret
    refine allocFresh_cache hA s hasState hs hempty r w' (returns_allocSlow hs.formed.incoming hempty ?_)
    cases hasState with
    | false =>
        simp only [Bool.false_eq_true, if_false] at hret
        obtain ⟨flag, w₂, hflag, hslow⟩ := Machine.returns_bind.mp hret
        obtain ⟨rfl, rfl⟩ := Machine.returns_pure.mp hflag
        exact hslow
    | true =>
        simp only [if_true] at hret
        obtain ⟨t, w₂, hhead, hflag⟩ := Machine.returns_bind.mp hret
        obtain ⟨rfl, chain, others, hstates⟩ := returns_currentState hhead
        have hcalm := hs.calm _ (hstates ▸ List.mem_cons_self) t List.mem_cons_self
        obtain ⟨flag, w₃, hread, hslow⟩ := Machine.returns_bind.mp hflag
        obtain ⟨rfl, rfl⟩ := Machine.returns_pure.mp hread
        rw [hcalm, if_neg Bool.false_ne_true] at hslow
        exact hslow

/-- What a caller with the permission to give a chunk back gets. -/
def served (item : Nat → Item) : Option Nat → Multiset Item
  | some ptr => {item ptr}
  | none => {.permit}

/-- The permission is of no use to a caller that has been served. -/
theorem Triple.served {x : M P (Option Nat)} {give : Multiset (Token P)} {i : Nat → Item}
    (hx : (discipline P).Triple give x fun r => found i r + tokens {.permit}) :
    (discipline P).Triple give x fun r => tokens (Memalart.served i r) := by
  refine Discipline.Triple.after hx fun w r rest hs => ?_
  cases r with
  | none =>
      have htoks : (found i none + tokens {.permit} : Multiset (Token P)) =
          tokens (Memalart.served i none) := zero_add _
      rw [htoks] at hs ⊢
      exact ⟨hs, (discipline P).refl _⟩
  | some ptr =>
      have hstep : Step w (found i (some ptr) + tokens {.permit}) w
          (tokens (Memalart.served i (some ptr))) := by
        refine .exchange hs.formed hs.calm (fun t => holds_tokens) (by simp) ?_ ?_
        · simp [found, Token.depth]
        · refine Moves.single .dropPermit {i ptr} ?_ ?_
          · simp only [found, itemsOf_add, itemsOf_singleton, itemsOf_tokens, Token.items]
            exact add_comm _ _
          · rw [itemsOf_tokens, zero_add]
            rfl
      exact ⟨hstep.sound hs, hstep.framed rest⟩

/-- `alloc_common` and `alloc_large` for a class, with the permission to give one chunk
back. -/
theorem allocFresh_triple (hA : ServesAlways A) (s : Slot) {getChunk : M P (Option Nat)}
    (hget : (discipline P).Triple 0 getChunk (foundChunk s.kind)) :
    (discipline P).Triple (tokens {.permit}) (allocFresh A false s s.realSize getChunk false)
      fun r => tokens (served (.object s) r) := by
  have hget := hget.frame (tokens {.permit})
  rw [zero_add] at hget
  refine hget.bind fun chunk => ?_
  cases chunk with
  | none => exact Discipline.Triple.pure (zero_add _)
  | some c =>
      rw [foundChunk_some]
      have hpop := (popObject_triple (P := P) s).frame
        ({.ready} + tokens {.chunk s.kind c} + tokens {.permit})
      rw [zero_add] at hpop
      refine hpop.bind fun r => ?_
      cases r with
      | some ptr =>
          have hfree := (freeChunk_triple (P := P) s.kind c).frame
            ({.ready} + found (.object s) (some ptr))
          have hgive : (found (.object s) (some ptr) + ({.ready} + tokens {.chunk s.kind c} +
              tokens {.permit}) : Multiset (Token P)) =
              tokens ({.chunk s.kind c} + {.permit}) +
                ({.ready} + found (.object s) (some ptr)) := by
            rw [tokens_add]
            abel
          rw [hgive]
          refine hfree.bind fun _ => ?_
          rw [zero_add]
          exact Triple.forget .ready (Discipline.Triple.pure rfl)
      | none =>
          have hgive : (found (.object s) none + ({.ready} + tokens {.chunk s.kind c} +
              tokens {.permit}) : Multiset (Token P)) =
              {.ready} + tokens {.chunk s.kind c} + tokens {.permit} := zero_add _
          rw [hgive]
          exact Triple.served ((cutChunk_triple hA s false c).frame (tokens {.permit}))

/-- From an empty vector of the class on. -/
theorem allocSlow_triple (hA : ServesAlways A) (s : Slot) {getChunk : M P (Option Nat)}
    (hget : (discipline P).Triple 0 getChunk (foundChunk s.kind)) :
    (discipline P).Triple (tokens {.permit}) (do
        match ← popObject s with
        | some ptr => pure (some ptr)
        | none => allocSlow A false s s.realSize getChunk false)
      fun r => tokens (served (.object s) r) := by
  intro w rest hs
  have hpop := (popObject_triple (P := P) s).frame (tokens {.permit})
  rw [zero_add] at hpop
  refine Discipline.At.bind (hpop w rest hs) fun r w₁ hret hs₁ => ?_
  rcases returns_popObject hret with ⟨ptr, vec, -, rfl, -⟩ | ⟨hempty, rfl, rfl⟩
  · exact Triple.served (i := .object s) (Discipline.Triple.pure rfl) w₁ rest hs₁
  · have hgive : (found (.object s) none + tokens {.permit} : Multiset (Token P)) =
        tokens {.permit} := zero_add _
    show (discipline P).At w₁ (found (.object s) none + tokens {.permit} + rest) _ _
    rw [hgive]
    intro r w' hslow
    exact allocFresh_triple hA s hget w₁ rest hs r w'
      (returns_allocSlow hs.formed.incoming hempty hslow)

theorem slotForSize_ofCommonIdx {size : Nat} {s : Slot} (hclass : SizeClass.define size = .common)
    (h : Slot.ofCommonIdx (commonSizeToIndex size) = some s) :
    slotForSize size = some s ∧ s.kind = .common ∧ s.realSize = (size + 7) / 8 * 8 := by
  have hslot : slotForSize size = some s := by rw [slotForSize, hclass, h]
  have hle : size ≤ commonSizeMax := by
    by_contra hgt
    unfold SizeClass.define at hclass
    rw [if_neg hgt] at hclass
    split at hclass <;> cases hclass
  refine ⟨hslot, ?_, ?_⟩
  · unfold Slot.ofCommonIdx at h
    split at h
    · cases h
      rfl
    · cases h
  · rw [(slotForSize_eq_some hslot).2.2, recommendedSize, if_pos hle]

theorem slotForSize_ofLargeId {size : Nat} {s : Slot} (hclass : SizeClass.define size = .large)
    (h : Slot.ofLargeId (largeSizeToIdAndRealSize size).1 = some s) :
    slotForSize size = some s ∧ s.kind = .large ∧
      s.realSize = (largeSizeToIdAndRealSize size).2 := by
  have hslot : slotForSize size = some s := by rw [slotForSize, hclass, h]
  have hbounds : ¬ size ≤ commonSizeMax ∧ size ≤ largeSizeMax := by
    unfold SizeClass.define at hclass
    split at hclass
    · cases hclass
    · next hlow =>
        split at hclass
        · next hhigh => exact ⟨hlow, hhigh⟩
        · cases hclass
  refine ⟨hslot, ?_, ?_⟩
  · unfold Slot.ofLargeId Slot.ofLargeIdx at h
    split at h
    · cases h
      rfl
    · cases h
  · rw [(slotForSize_eq_some hslot).2.2, recommendedSize, if_neg hbounds.1, if_pos hbounds.2]

theorem allocCommon_triple (hA : ServesAlways A) {size : Nat}
    (hclass : SizeClass.define size = .common) :
    (discipline P).Triple (tokens {.permit}) (allocCommon A size)
      fun r => tokens (served (blockItem size) r) := by
  refine Discipline.Triple.orFault fun s hs => ?_
  obtain ⟨hslot, hkind, hreal⟩ := slotForSize_ofCommonIdx hclass hs
  have hserve := allocSlow_triple hA s (hkind ▸ getCommonChunk_triple hA)
  rw [hreal] at hserve
  refine hserve.conv rfl fun r => ?_
  cases r with
  | none => rfl
  | some ptr => rw [served, served, blockItem_of_slot hslot]

theorem allocLarge_triple (hA : ServesAlways A) {size : Nat}
    (hclass : SizeClass.define size = .large) :
    (discipline P).Triple (tokens {.permit}) (allocLarge A size)
      fun r => tokens (served (blockItem size) r) := by
  refine Discipline.Triple.orFault fun s hs => ?_
  obtain ⟨hslot, hkind, hreal⟩ := slotForSize_ofLargeId hclass hs
  have hserve := allocSlow_triple hA s (hkind ▸ getLargeChunk_triple hA)
  rw [hreal] at hserve
  refine hserve.conv rfl fun r => ?_
  cases r with
  | none => rfl
  | some ptr => rw [served, served, blockItem_of_slot hslot]

end Memalart
