/-
# The iterator behind the statistics

`InfoForSizeIter` walks through the common classes, the large classes and the entries of
the size tree.  Where it starts and which phases it passes through depends on which chunk
tables exist, while its size hint adds up the phases that are still ahead.  The snapshot
trusts the hint with memory that has not been initialised.
-/

import Memalart.Lib.Cursor
import Memalart.Stats
import Memalart.TableSteps

namespace Memalart

open Memalart.Lib ThreadLocalAllocator

variable {P : Params}

inductive CurrIter
  | commonSize (idx : Nat)
  | largeSize (idx : Nat)
  /-- The entries of the tree that are still ahead. -/
  | extraLargeSize (rest : List (Nat × Nat))
deriving DecidableEq

structure InfoForSizeIter where
  allocatedForSelf : UsedObjects
  currIter : CurrIter

namespace InfoForSizeIter

variable (w : World P)

/-- `InfoForSizeIter::new`, without the flag that it sets. -/
def start (allocatedForSelf : UsedObjects) : InfoForSizeIter where
  allocatedForSelf := allocatedForSelf
  currIter :=
    if w.inner.commonChunkTable ≠ none then .commonSize 0
    else if w.inner.largeChunkTable ≠ none then .largeSize 0
    else .extraLargeSize (P.tree.entries w.inner.allocatedLargeSizes)

/-- `CurrIter::ExtraLargeSize` of `next`. -/
def nextExtraLarge (arr : UsedObjects) : List (Nat × Nat) →
    Option (SizeClass × InfoForSize) × InfoForSizeIter
  | [] => (none, ⟨arr, .extraLargeSize []⟩)
  | e :: rest => (some (.extraLarge, World.infoForExtraLarge arr e), ⟨arr, .extraLargeSize rest⟩)

/-- The item of a class, from a chunk table that has to exist. -/
def itemOf (arr : UsedObjects) (k : ChunkKind) (idx : Nat) : Except Fault InfoForSize :=
  match chunkTableBox k w, k.slots[idx]? with
  | some _, some s => .ok (w.infoForSize arr s)
  | _, _ => .error (.bugHint "the chunk table of the phase is missing")

/-- `CurrIter::LargeSize` of `next`. -/
def nextLarge (arr : UsedObjects) (idx : Nat) :
    Except Fault (Option (SizeClass × InfoForSize) × InfoForSizeIter) :=
  if idx = realNumberOfLargeObjectVectors then
    .ok (nextExtraLarge arr (P.tree.entries w.inner.allocatedLargeSizes))
  else
    match itemOf w arr .large idx with
    | .ok info => .ok (some (.large, info), ⟨arr, .largeSize (idx + 1)⟩)
    | .error e => .error e

/-- `InfoForSizeIter::next`. -/
def next (it : InfoForSizeIter) :
    Except Fault (Option (SizeClass × InfoForSize) × InfoForSizeIter) :=
  match it.currIter with
  | .commonSize idx =>
      if idx = commonSizeTableLen then
        if w.inner.largeChunkTable ≠ none then nextLarge w it.allocatedForSelf 0
        else .ok (nextExtraLarge it.allocatedForSelf
          (P.tree.entries w.inner.allocatedLargeSizes))
      else
        match itemOf w it.allocatedForSelf .common idx with
        | .ok info => .ok (some (.common, info), ⟨it.allocatedForSelf, .commonSize (idx + 1)⟩)
        | .error e => .error e
  | .largeSize idx => nextLarge w it.allocatedForSelf idx
  | .extraLargeSize rest => .ok (nextExtraLarge it.allocatedForSelf rest)

/-- The lower bound of `size_hint`; there is no upper bound. -/
def sizeHint (it : InfoForSizeIter) : Nat :=
  match it.currIter with
  | .commonSize idx => commonSizeTableLen - idx + realNumberOfLargeObjectVectors +
      (P.tree.entries w.inner.allocatedLargeSizes).length
  | .largeSize idx => realNumberOfLargeObjectVectors - idx +
      (P.tree.entries w.inner.allocatedLargeSizes).length
  | .extraLargeSize rest => rest.length

end InfoForSizeIter

/-- Set or clear the flag that an iterator borrows the allocator. -/
def World.setBorrowed (borrowed : Bool) (w : World P) : World P :=
  { w with inner := { w.inner with isBorrowedForUnknownTime := borrowed } }

namespace ThreadLocalAllocator

def setBorrowed (borrowed : Bool) : M P Unit := Machine.modify (World.setBorrowed borrowed)

/-- `InfoForSizeIter::new`: the allocator is borrowed from then on. -/
def newInfoForSizeIter : M P InfoForSizeIter := do
  let arr ← Machine.orFault (.bugHint "Array too small") (← Machine.gets World.allocatedForSelf)
  setBorrowed true
  Machine.gets fun w => InfoForSizeIter.start w arr

/-- `drop` of an iterator. -/
def dropInfoForSizeIter : M P Unit := setBorrowed false

/-- `snapshot_detailed_stats`: an uninitialised slice as long as the hint says, and one
write for each item.  An empty slot at the end would be read uninitialised. -/
def snapshotDetailedStats (fuel : Nat) : M P (List (List InfoForSize)) := do
  let it ← newInfoForSizeIter
  let w ← Machine.get
  match fill (InfoForSizeIter.next w) (.bugHint "the lower bound of size_hint is incorrect")
      .outOfFuel fuel it 0 (List.replicate (it.sizeHint w) []) with
  | .error e => Machine.fault e
  | .ok (slots, _) => do
    dropInfoForSizeIter
    pure (slots.map fun slot => slot.map Prod.snd)

end ThreadLocalAllocator

/-- A new iterator is created with the flag. -/
theorem returns_newInfoForSizeIter {w w' : World P} {it : InfoForSizeIter} :
    newInfoForSizeIter.Returns w it w' ↔ ∃ arr, w.allocatedForSelf = some arr ∧
      it = InfoForSizeIter.start w arr ∧ w' = w.setBorrowed true := by
  simp only [newInfoForSizeIter, setBorrowed, Machine.returns_bind, Machine.returns_gets,
    Machine.returns_orFault, Machine.returns_modify]
  constructor
  · rintro ⟨_, _, ⟨rfl, rfl⟩, arr, _, ⟨harr, rfl⟩, _, _, rfl, rfl, rfl⟩
    exact ⟨arr, harr, rfl, rfl⟩
  · rintro ⟨arr, harr, rfl, rfl⟩
    exact ⟨_, w, ⟨rfl, rfl⟩, arr, w, ⟨harr, rfl⟩, (), w.setBorrowed true, rfl, rfl, rfl⟩

/-! ## What the iterator yields -/

namespace World

variable (w : World P)

/-- What is ahead in each phase. -/
def itemsAhead (arr : UsedObjects) : CurrIter → List (SizeClass × InfoForSize)
  | .commonSize idx =>
      (ChunkKind.common.slots.drop idx).map (fun s => (.common, w.infoForSize arr s)) ++
        (ChunkKind.large.slots.map fun s => (.large, w.infoForSize arr s)) ++
        (P.tree.entries w.inner.allocatedLargeSizes).map
          fun e => (.extraLarge, infoForExtraLarge arr e)
  | .largeSize idx =>
      ((ChunkKind.large.slots.drop idx).map fun s => (.large, w.infoForSize arr s)) ++
        (P.tree.entries w.inner.allocatedLargeSizes).map
          fun e => (.extraLarge, infoForExtraLarge arr e)
  | .extraLargeSize rest => rest.map fun e => (.extraLarge, infoForExtraLarge arr e)

variable {w} {arr : UsedObjects}

theorem length_slots_common : ChunkKind.common.slots.length = commonSizeTableLen := by
  simp [ChunkKind.slots, commonSizeTableLen]

theorem length_slots_large : ChunkKind.large.slots.length = realNumberOfLargeObjectVectors := by
  simp [ChunkKind.slots, realNumberOfLargeObjectVectors]

theorem yields_extraLarge (rest : List (Nat × Nat)) :
    Yields (InfoForSizeIter.next w) ⟨arr, .extraLargeSize rest⟩
      (w.itemsAhead arr (.extraLargeSize rest)) := by
  induction rest with
  | nil => exact .done rfl rfl
  | cons e rest ih => exact .next rfl ih

/-- Entering the last phase. -/
theorem yields_of_nextExtraLarge {it : InfoForSizeIter} {entries : List (Nat × Nat)}
    (h : InfoForSizeIter.next w it = .ok (InfoForSizeIter.nextExtraLarge arr entries)) :
    Yields (InfoForSizeIter.next w) it (w.itemsAhead arr (.extraLargeSize entries)) := by
  cases entries with
  | nil => exact .done h rfl
  | cons e rest => exact .next h (yields_extraLarge rest)

theorem itemOf_eq_ok (arr : UsedObjects) {k : ChunkKind} {idx : Nat} {s : Slot}
    (hbox : chunkTableBox k w ≠ none) (hs : k.slots[idx]? = some s) :
    InfoForSizeIter.itemOf w arr k idx = .ok (w.infoForSize arr s) := by
  obtain ⟨ptr, hptr⟩ := Option.ne_none_iff_exists'.mp hbox
  simp only [InfoForSizeIter.itemOf, hptr, hs]

/-- The phase of the large classes, from any index. -/
theorem yields_large (hbox : w.inner.largeChunkTable ≠ none) {n idx : Nat}
    (hn : idx + n = realNumberOfLargeObjectVectors) {it : InfoForSizeIter}
    (hnext : InfoForSizeIter.next w it = InfoForSizeIter.nextLarge w arr idx) :
    Yields (InfoForSizeIter.next w) it (w.itemsAhead arr (.largeSize idx)) := by
  induction n generalizing idx it with
  | zero =>
      rw [InfoForSizeIter.nextLarge, if_pos (by omega)] at hnext
      have hdrop : ChunkKind.large.slots.drop idx = [] :=
        List.drop_eq_nil_iff.mpr (by rw [length_slots_large]; omega)
      have hyields := yields_of_nextExtraLarge hnext
      simpa only [itemsAhead, hdrop, List.map_nil, List.nil_append] using hyields
  | succ n ih =>
      have hlt : idx < ChunkKind.large.slots.length := by rw [length_slots_large]; omega
      have hitem := itemOf_eq_ok arr (k := .large) hbox (List.getElem?_eq_getElem hlt)
      rw [InfoForSizeIter.nextLarge, if_neg (by omega), hitem] at hnext
      rw [itemsAhead, List.drop_eq_getElem_cons hlt]
      exact .next hnext (ih (by omega) rfl)

/-- The phase of the common classes, when both tables exist. -/
theorem yields_common (htabled : w.Tabled) {n idx : Nat} (hn : idx + n = commonSizeTableLen) :
    Yields (InfoForSizeIter.next w) ⟨arr, .commonSize idx⟩
      (w.itemsAhead arr (.commonSize idx)) := by
  have hlarge : w.inner.largeChunkTable ≠ none := htabled .large
  induction n generalizing idx with
  | zero =>
      have hnext : InfoForSizeIter.next w ⟨arr, .commonSize idx⟩ =
          InfoForSizeIter.nextLarge w arr 0 := by
        simp only [InfoForSizeIter.next]
        rw [if_pos (by omega), if_pos hlarge]
      have hdrop : ChunkKind.common.slots.drop idx = [] :=
        List.drop_eq_nil_iff.mpr (by rw [length_slots_common]; omega)
      have hyields := yields_large hlarge (Nat.zero_add _) hnext
      simpa only [itemsAhead, hdrop, List.map_nil, List.nil_append, List.drop_zero] using hyields
  | succ n ih =>
      have hlt : idx < ChunkKind.common.slots.length := by rw [length_slots_common]; omega
      have hitem := itemOf_eq_ok arr (k := .common) (htabled .common)
        (List.getElem?_eq_getElem hlt)
      have hnext : InfoForSizeIter.next w ⟨arr, .commonSize idx⟩ =
          .ok (some (.common, w.infoForSize arr (ChunkKind.common.slots[idx])),
            ⟨arr, .commonSize (idx + 1)⟩) := by
        simp only [InfoForSizeIter.next]
        rw [if_neg (by omega), hitem]
      rw [itemsAhead, List.drop_eq_getElem_cons hlt]
      exact .next hnext (ih (by omega))

/-- An index is within its phase, and the tables of the phases ahead exist. -/
def ValidIter (w : World P) (it : InfoForSizeIter) : Prop :=
  match it.currIter with
  | .commonSize idx => idx ≤ commonSizeTableLen ∧ w.Tabled
  | .largeSize idx => idx ≤ realNumberOfLargeObjectVectors ∧ w.inner.largeChunkTable ≠ none
  | .extraLargeSize _ => True

theorem ValidIter.yields {it : InfoForSizeIter} (h : w.ValidIter it) :
    Yields (InfoForSizeIter.next w) it (w.itemsAhead it.allocatedForSelf it.currIter) := by
  obtain ⟨arr, curr⟩ := it
  cases curr with
  | commonSize idx => exact yields_common h.2 (Nat.add_sub_of_le h.1)
  | largeSize idx => exact yields_large h.2 (Nat.add_sub_of_le h.1) rfl
  | extraLargeSize rest => exact yields_extraLarge rest

theorem ValidIter.sizeHint {it : InfoForSizeIter} (h : w.ValidIter it) :
    it.sizeHint w = (w.itemsAhead it.allocatedForSelf it.currIter).length := by
  obtain ⟨arr, curr⟩ := it
  cases curr with
  | commonSize idx =>
      simp [InfoForSizeIter.sizeHint, itemsAhead, length_slots_common, length_slots_large,
        Nat.add_assoc]
  | largeSize idx => simp [InfoForSizeIter.sizeHint, itemsAhead, length_slots_large]
  | extraLargeSize rest => simp [InfoForSizeIter.sizeHint, itemsAhead]

theorem validIter_nextExtraLarge (w : World P) (arr : UsedObjects) (entries : List (Nat × Nat)) :
    w.ValidIter (InfoForSizeIter.nextExtraLarge arr entries).2 := by
  cases entries <;> exact trivial

theorem validIter_nextLarge (hbox : w.inner.largeChunkTable ≠ none) {idx : Nat}
    (hidx : idx ≤ realNumberOfLargeObjectVectors) {r : Option (SizeClass × InfoForSize)}
    {it : InfoForSizeIter} (hnext : InfoForSizeIter.nextLarge w arr idx = .ok (r, it)) :
    w.ValidIter it := by
  unfold InfoForSizeIter.nextLarge at hnext
  split at hnext
  · have hvalid := validIter_nextExtraLarge w arr
      (P.tree.entries w.inner.allocatedLargeSizes)
    rwa [Except.ok.inj hnext] at hvalid
  · split at hnext
    · cases hnext
      exact ⟨by omega, hbox⟩
    · cases hnext

/-- A call stays within the phases. -/
theorem ValidIter.next {it it' : InfoForSizeIter} {r : Option (SizeClass × InfoForSize)}
    (h : w.ValidIter it) (hnext : it.next w = .ok (r, it')) : w.ValidIter it' := by
  obtain ⟨arr, curr⟩ := it
  cases curr with
  | commonSize idx =>
      obtain ⟨hidx, htabled⟩ := h
      have hlarge : w.inner.largeChunkTable ≠ none := htabled .large
      simp only [InfoForSizeIter.next, if_pos hlarge] at hnext
      split at hnext
      · exact validIter_nextLarge hlarge (Nat.zero_le _) hnext
      · split at hnext
        · cases hnext
          exact ⟨by omega, htabled⟩
        · cases hnext
  | largeSize idx => exact validIter_nextLarge h.2 h.1 hnext
  | extraLargeSize rest =>
      have hvalid := validIter_nextExtraLarge w arr rest
      rwa [Except.ok.inj hnext] at hvalid

theorem ValidIter.calls {it it' : InfoForSizeIter} {n : Nat} {items : List (SizeClass × InfoForSize)}
    (h : w.ValidIter it) (hcalls : calls (InfoForSizeIter.next w) n it = .ok (items, it')) :
    w.ValidIter it' := by
  induction n generalizing it items with
  | zero =>
      cases hcalls
      exact h
  | succ n ih =>
      unfold Lib.calls at hcalls
      split at hcalls
      · cases hcalls
      · next r it₁ hnext =>
          split at hcalls
          · cases hcalls
          · next rest it₂ hrest =>
              cases hcalls
              exact ih (h.next hnext) hrest

/-! ## Between two calls of the allocator -/

/-- Between two calls either both chunk tables exist or none. -/
structure AtRest (w : World P) : Prop where
  orderly : w.Orderly
  tables : w.Tabled ∨ ∀ k, chunkTableBox k w = none

theorem AtRest.validIter (h : w.AtRest) (arr : UsedObjects) :
    w.ValidIter (InfoForSizeIter.start w arr) := by
  rcases h.tables with htabled | hnone
  · have hcommon : w.inner.commonChunkTable ≠ none := htabled .common
    simp only [InfoForSizeIter.start, if_pos hcommon]
    exact ⟨Nat.zero_le _, htabled⟩
  · have hcommon : ¬ w.inner.commonChunkTable ≠ none := not_not.mpr (hnone .common)
    have hlarge : ¬ w.inner.largeChunkTable ≠ none := not_not.mpr (hnone .large)
    simp only [InfoForSizeIter.start, if_neg hcommon, if_neg hlarge]
    trivial

/-- The machine yields what `iterAllocatedSize` lists. -/
theorem AtRest.itemsAhead_start (h : w.AtRest) (harr : w.allocatedForSelf = some arr) :
    w.iterAllocatedSize = some (w.itemsAhead arr (InfoForSizeIter.start w arr).currIter) := by
  rw [iterAllocatedSize, harr, Option.map_some]
  rcases h.tables with htabled | hnone
  · obtain ⟨common, hcommon⟩ := Option.ne_none_iff_exists'.mp (htabled .common)
    obtain ⟨large, hlarge⟩ := Option.ne_none_iff_exists'.mp (htabled .large)
    have hbox : w.inner.commonChunkTable ≠ none := htabled .common
    simp only [infoForKind, hcommon, hlarge, InfoForSizeIter.start, if_pos hbox, itemsAhead,
      List.map_map, List.drop_zero]
    rfl
  · have hcommon : ¬ w.inner.commonChunkTable ≠ none := not_not.mpr (hnone .common)
    have hlarge : ¬ w.inner.largeChunkTable ≠ none := not_not.mpr (hnone .large)
    simp only [infoForKind, hnone, InfoForSizeIter.start, if_neg hcommon, if_neg hlarge, itemsAhead,
      List.map_nil, List.nil_append]

theorem nodup_slots (k : ChunkKind) : k.slots.Nodup := by
  cases k with
  | common => exact (List.nodup_finRange 128).map fun i j h => Slot.common.inj h
  | large => exact (List.nodup_finRange 88).map fun i j h => Slot.large.inj h

theorem kind_of_mem_slots {k : ChunkKind} {s : Slot} (h : s ∈ k.slots) : s.kind = k := by
  cases k <;> obtain ⟨i, -, rfl⟩ := List.mem_map.mp h <;> rfl

/-- No size is yielded twice. -/
theorem AtRest.nodup_sizes (h : w.AtRest) (arr : UsedObjects) (it : CurrIter)
    (hit : it = .commonSize 0 ∨ it = .largeSize 0 ∨
      it = .extraLargeSize (P.tree.entries w.inner.allocatedLargeSizes)) :
    ((w.itemsAhead arr it).map fun e => e.2.sizeOfElem).Nodup := by
  have hall : ((w.itemsAhead arr (.commonSize 0)).map fun e => e.2.sizeOfElem).Nodup := by
    have hsizes : (w.itemsAhead arr (.commonSize 0)).map (fun e => e.2.sizeOfElem) =
        ((ChunkKind.common.slots ++ ChunkKind.large.slots).map Slot.realSize) ++
          (P.tree.entries w.inner.allocatedLargeSizes).map Prod.fst := by
      simp [itemsAhead, infoForSize, infoForExtraLarge, Function.comp_def]
    have hslots : (ChunkKind.common.slots ++ ChunkKind.large.slots).Nodup := by
      refine List.Nodup.append (nodup_slots .common) (nodup_slots .large) fun s hs hs' => ?_
      exact ChunkKind.noConfusion ((kind_of_mem_slots hs).symm.trans (kind_of_mem_slots hs'))
    rw [hsizes]
    refine List.Nodup.append (hslots.map Slot.realSize_injective) h.orderly.nodup ?_
    intro size hsize hkey
    obtain ⟨s, -, rfl⟩ := List.mem_map.mp hsize
    obtain ⟨e, he, heq⟩ := List.mem_map.mp hkey
    have hlt := h.orderly.large e he
    have hle := s.bounds.2.2.1
    omega
  rcases hit with rfl | rfl | rfl
  · exact hall
  · refine hall.sublist (List.Sublist.map _ ?_)
    simp only [itemsAhead, List.append_assoc]
    exact List.sublist_append_right _ _
  · exact hall.sublist (List.Sublist.map _ (List.sublist_append_right _ _))

theorem currIter_start (w : World P) (arr : UsedObjects) :
    (InfoForSizeIter.start w arr).currIter = .commonSize 0 ∨
      (InfoForSizeIter.start w arr).currIter = .largeSize 0 ∨
      (InfoForSizeIter.start w arr).currIter =
        .extraLargeSize (P.tree.entries w.inner.allocatedLargeSizes) := by
  unfold InfoForSizeIter.start
  split
  · exact .inl rfl
  · split
    · exact .inr (.inl rfl)
    · exact .inr (.inr rfl)

/-- After any number of calls the hint is the number of items that are still to come, and
no size comes twice. -/
theorem AtRest.sizeHint_exact (h : w.AtRest) (arr : UsedObjects) (n : Nat) :
    ∃ items it ahead, Lib.calls (InfoForSizeIter.next w) n (InfoForSizeIter.start w arr) =
        .ok (items, it) ∧ Yields (InfoForSizeIter.next w) it ahead ∧
      it.sizeHint w = ahead.length ∧ ((items ++ ahead).map fun e => e.2.sizeOfElem).Nodup := by
  have hvalid := h.validIter arr
  obtain ⟨it, hcalls, hyields⟩ := hvalid.yields.calls n
  have hvalid' := hvalid.calls hcalls
  refine ⟨_, it, _, hcalls, hyields, ?_, ?_⟩
  · rw [hvalid'.sizeHint, hvalid'.yields.unique hyields]
  · rw [List.take_append_drop]
    exact h.nodup_sizes arr _ (currIter_start w arr)

theorem AtRest.setBorrowed (h : w.AtRest) (borrowed : Bool) : (w.setBorrowed borrowed).AtRest where
  orderly := ⟨fun k hk => h.orderly.chunks k (by cases k <;> exact hk), h.orderly.nodup,
    h.orderly.large, fun v => by cases v <;> exact h.orderly.caps _⟩
  tables := h.tables

theorem itemsAhead_setBorrowed (borrowed : Bool) (curr : CurrIter) :
    (w.setBorrowed borrowed).itemsAhead arr curr = w.itemsAhead arr curr := by
  cases curr <;> rfl

/-- The snapshot writes every slot once, and leaves the allocator as it was. -/
theorem AtRest.snapshot (h : w.AtRest) (harr : w.allocatedForSelf = some arr) :
    ∃ infos, w.iterAllocatedSize = some infos ∧ ∀ fuel, infos.length < fuel →
      (snapshotDetailedStats fuel).Returns w (infos.map fun e => [e.2]) (w.setBorrowed false) := by
  refine ⟨_, h.itemsAhead_start harr, fun fuel hfuel => ?_⟩
  have hvalid := (h.setBorrowed true).validIter arr
  have hyields := hvalid.yields
  have hhint := hvalid.sizeHint
  rw [itemsAhead_setBorrowed] at hyields hhint
  obtain ⟨it, hfill⟩ := hyields.fill (.bugHint "the lower bound of size_hint is incorrect")
    .outOfFuel [] hfuel
  simp only [List.length_nil, List.nil_append] at hfill
  simp only [snapshotDetailedStats, Machine.returns_bind]
  refine ⟨InfoForSizeIter.start w arr, w.setBorrowed true, ?_, w.setBorrowed true,
    w.setBorrowed true, Machine.returns_get.mpr ⟨rfl, rfl⟩, ?_⟩
  · exact returns_newInfoForSizeIter.mpr ⟨arr, harr, rfl, rfl⟩
  · change (InfoForSizeIter.start w arr).sizeHint (w.setBorrowed true) = _ at hhint
    rw [hhint]
    change fill _ _ _ _ (InfoForSizeIter.start w arr) 0 _ = _ at hfill
    rw [hfill]
    refine Machine.returns_bind.mpr ⟨(), w.setBorrowed false, Machine.returns_modify.mpr rfl, ?_⟩
    refine Machine.returns_pure.mpr ⟨?_, rfl⟩
    rw [List.map_map]
    rfl

end World

/-! ## All classes and all vectors -/

/-- All classes, in the order in which `allocated_for_self` visits them. -/
def Slot.inOrder : List Slot := ChunkKind.common.slots ++ ChunkKind.large.slots

theorem ChunkKind.mem_slots (s : Slot) : s ∈ s.kind.slots := by
  cases s with
  | common idx => exact List.mem_map_of_mem (List.mem_finRange idx)
  | large idx => exact List.mem_map_of_mem (List.mem_finRange idx)

theorem Slot.mem_inOrder (s : Slot) : s ∈ inOrder := by
  have hs := ChunkKind.mem_slots s
  cases s with
  | common idx => exact List.mem_append_left _ hs
  | large idx => exact List.mem_append_right _ hs

theorem Slot.nodup_inOrder : inOrder.Nodup := by
  refine (World.nodup_slots .common).append (World.nodup_slots .large) fun s hcommon hlarge => ?_
  have hkind := World.kind_of_mem_slots hcommon
  rw [World.kind_of_mem_slots hlarge] at hkind
  cases hkind

/-- All vectors. -/
def VecId.inOrder : List VecId :=
  [.freeLargeChunks, .freeCommonChunks, .regions] ++
    (Slot.inOrder.map .object ++ Slot.inOrder.map .chunk)

theorem VecId.mem_inOrder (v : VecId) : v ∈ inOrder := by
  cases v with
  | object s =>
      exact List.mem_append_right _ (List.mem_append_left _ (List.mem_map_of_mem s.mem_inOrder))
  | chunk s =>
      exact List.mem_append_right _ (List.mem_append_right _ (List.mem_map_of_mem s.mem_inOrder))
  | _ => exact List.mem_append_left _ (by decide)

theorem VecId.nodup_inOrder : inOrder.Nodup := by
  have hobjects := Slot.nodup_inOrder.map fun _ _ => VecId.object.inj
  have hchunks := Slot.nodup_inOrder.map fun _ _ => VecId.chunk.inj
  refine List.Nodup.append (by decide) (hobjects.append hchunks fun v hobject hchunk => ?_)
    fun v hfew hmany => ?_
  · obtain ⟨s, -, rfl⟩ := List.mem_map.mp hobject
    obtain ⟨t, -, heq⟩ := List.mem_map.mp hchunk
    cases heq
  · rcases List.mem_append.mp hmany with hmany | hmany
    · obtain ⟨s, -, rfl⟩ := List.mem_map.mp hmany
      simp at hfew
    · obtain ⟨s, -, rfl⟩ := List.mem_map.mp hmany
      simp at hfew

end Memalart
