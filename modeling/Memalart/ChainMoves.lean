/-
# Allocation from a chain as moves

Mapping a region, and every operation on a chain of bootstrap States, is a sequence
of moves: the chain's items before the call become its items after the call and the
object or chunk that the call gives.
-/

import Memalart.Holdings
import Memalart.StateUnits

namespace Memalart

open Memalart.Lib

variable {os os' : Os} {m : Option Nat}

/-! ## The operating system -/

namespace Os

theorem Quiet.trans {os₁ os₂ os₃ : Os} (h : os₁.Quiet os₂) (h' : os₂.Quiet os₃) :
    os₁.Quiet os₃ :=
  ⟨h'.metadata.trans h.metadata, h'.mappings.trans h.mappings, h.log.trans h'.log⟩

theorem quiet_record (os : Os) (e : Event) : os.Quiet (os.record e) :=
  ⟨rfl, rfl, List.suffix_cons _ _⟩

theorem quiet_takeReply (os : Os) : os.Quiet os.takeReply.2 := by
  unfold takeReply
  split <;> exact ⟨rfl, rfl, List.suffix_rfl⟩

theorem quiet_mayAllocate (os : Os) (size : Nat) : os.Quiet (os.mayAllocate size).2 := by
  unfold mayAllocate
  simp only
  split <;> exact ⟨rfl, rfl, List.suffix_rfl⟩

theorem quiet_allocateAnyWay (os : Os) (size : Nat) : os.Quiet (os.allocateAnyWay size) := by
  unfold allocateAnyWay
  exact ⟨rfl, rfl, List.suffix_rfl⟩

theorem quiet_markDeallocated (os : Os) (size : Nat) : os.Quiet (os.markDeallocated size) := by
  unfold markDeallocated
  exact ⟨rfl, rfl, List.suffix_rfl⟩

/-- What a granted mapping has done. -/
structure Maps (os : Os) (ptr size alignment : Nat) (os' : Os) : Prop where
  fresh : os.Fresh ptr size alignment
  mappings : os'.mappings = (ptr, size) :: os.mappings
  metadata : os'.metadata = os.metadata
  log : os.log <:+ os'.log

theorem mmap_some {answer size alignment ptr : Nat}
    (h : os.mmap answer size alignment = (some ptr, os')) : os.Maps ptr size alignment os' := by
  unfold mmap at h
  split at h
  · next hfresh =>
      cases h
      exact ⟨hfresh, rfl, rfl, List.suffix_cons _ _⟩
  · cases h

theorem mmap_none {answer size alignment : Nat}
    (h : os.mmap answer size alignment = (none, os')) : os.Quiet os' := by
  unfold mmap at h
  split at h
  · cases h
  · cases h
    exact os.quiet_record _

/-- A granted region is fresh, mapped, and reads as zeros; until then only the counter
and the log have changed. -/
theorem allocRegionMapped_some {answer r : Nat} (h : os.allocRegion_ answer = (some r, os')) :
    os.Fresh r regionSize regionSize ∧ os'.mappings = (r, regionSize) :: os.mappings ∧
      os'.metadata = (os.zeroMetadata r).metadata ∧ os.log <:+ os'.log := by
  unfold allocRegion_ at h
  split at h
  · next region os₁ hmmap =>
      cases h
      have hmaps := mmap_some hmmap
      refine ⟨hmaps.fresh, hmaps.mappings, ?_, hmaps.log⟩
      simp only [zeroMetadata, hmaps.metadata]
  · cases h

theorem allocRegionMapped_none {answer : Nat} (h : os.allocRegion_ answer = (none, os')) :
    os.Quiet os' := by
  unfold allocRegion_ at h
  split at h
  · cases h
  · next os₁ hmmap =>
      cases h
      exact (mmap_none hmmap).trans (os₁.quiet_markDeallocated regionSize)

/-- Asking for a region: the answer is for some quiet successor of the memory. -/
theorem allocRegion_eq {limit : Bool} {r : Option Nat} (h : os.allocRegion limit = (r, os')) :
    ∃ os₁ answer, os.Quiet os₁ ∧
      ((r = none ∧ os₁.Quiet os') ∨ os₁.allocRegion_ answer = (r, os')) := by
  have hreply := os.quiet_takeReply
  unfold allocRegion at h
  generalize os.takeReply = reply at h hreply
  obtain ⟨answer, os₁⟩ := reply
  cases limit with
  | false =>
      simp only [Bool.false_eq_true, if_false] at h
      exact ⟨_, answer, hreply.trans (os₁.quiet_allocateAnyWay _), .inr h⟩
  | true =>
      simp only [if_true] at h
      have hmay := os₁.quiet_mayAllocate regionSize
      generalize os₁.mayAllocate regionSize = may at h hmay
      obtain ⟨_ | _, os₂⟩ := may
      · cases h
        exact ⟨os₂, answer, hreply.trans hmay, .inl ⟨rfl, os₂.quiet_record _⟩⟩
      · exact ⟨os₂, answer, hreply.trans hmay, .inr h⟩

theorem quiet_of_allocRegion_none {limit : Bool} (h : os.allocRegion limit = (none, os')) :
    os.Quiet os' := by
  obtain ⟨os₁, answer, hquiet, ⟨-, h⟩ | h⟩ := allocRegion_eq h
  · exact hquiet.trans h
  · exact hquiet.trans (allocRegionMapped_none h)

end Os

namespace Moves

/-- A change of the counter or the log. -/
theorem quiet (h : os.Quiet os') (items : Multiset Item) :
    Moves ⟨os, m, items⟩ ⟨os', m, items⟩ :=
  single (.quiet h) items (zero_add _).symm (zero_add _).symm

theorem allocRegion {limit : Bool} {r : Nat} (h : os.allocRegion limit = (some r, os')) :
    Moves ⟨os, m, 0⟩ ⟨os', m, {.region r}⟩ := by
  obtain ⟨os₁, answer, hquiet, ⟨hnone, -⟩ | h⟩ := Os.allocRegion_eq h
  · cases hnone
  · obtain ⟨hfresh, hmappings, hmetadata, hlog⟩ := Os.allocRegionMapped_some h
    exact (quiet hquiet 0).trans
      (single (.map r hfresh hmappings hmetadata hlog) 0 rfl (add_zero _).symm)

/-- A region becomes a State. -/
theorem parse (r : Nat) (first : FirstState) :
    Moves ⟨os, m, {.region r}⟩ ⟨os, m, (State.fromRegion r first).items⟩ :=
  single (.parse r) 0 (add_zero _).symm (by rw [State.items_fromRegion, add_zero])

end Moves

/-! ## Chains -/

/-- The used chunks of a State and the rest of its items. -/
theorem State.items_used (s : State) (k : ChunkKind) :
    ∃ others, s.items = usedItems k (s.used k) + others ∧
      ∀ chunks, (s.setUsed chunks k).items = usedItems k chunks + others := by
  cases k with
  | common =>
      refine ⟨{.parsed s.regionPtr} + Item.all (.chunk .common) s.freeCommonChunks +
        Item.all (.chunk .large) s.freeLargeChunks + usedItems .large s.usedLargeChunks +
        blockOf sizeOfState s.storage, ?_, fun chunks => ?_⟩
      · simp only [items, used]
        abel
      · simp only [items, setUsed]
        abel
  | large =>
      refine ⟨{.parsed s.regionPtr} + Item.all (.chunk .common) s.freeCommonChunks +
        Item.all (.chunk .large) s.freeLargeChunks + usedItems .common s.usedCommonChunks +
        blockOf sizeOfState s.storage, ?_, fun chunks => ?_⟩
      · simp only [items, used]
        abel
      · simp only [items, setUsed]
        abel

/-- The free chunks of a State and the rest of its items. -/
theorem State.items_free (s : State) (k : ChunkKind) :
    ∃ others, s.items = Item.all (.chunk k) (s.free k) + others ∧
      ∀ chunks, (s.setFree chunks k).items = Item.all (.chunk k) chunks + others := by
  cases k with
  | common =>
      refine ⟨{.parsed s.regionPtr} + Item.all (.chunk .large) s.freeLargeChunks +
        usedItems .common s.usedCommonChunks + usedItems .large s.usedLargeChunks +
        blockOf sizeOfState s.storage, ?_, fun chunks => ?_⟩
      · simp only [items, free]
        abel
      · simp only [items, setFree]
        abel
  | large =>
      refine ⟨{.parsed s.regionPtr} + Item.all (.chunk .common) s.freeCommonChunks +
        usedItems .common s.usedCommonChunks + usedItems .large s.usedLargeChunks +
        blockOf sizeOfState s.storage, ?_, fun chunks => ?_⟩
      · simp only [items, free]
        abel
      · simp only [items, setFree]
        abel

section Chain

variable {k : ChunkKind} {size ptr : Nat} {s : Slot}

theorem takeSlot_moves (hslot : slotForSize size = some s) {used used' : List UsedChunk}
    (h : takeSlot size used = some (ptr, used')) :
    Moves ⟨os, m, usedItems s.kind used⟩ ⟨os, m, usedItems s.kind used' + {.object s ptr}⟩ := by
  induction used generalizing ptr used' with
  | nil => simp [takeSlot] at h
  | cons u rest ih =>
      simp only [takeSlot] at h
      split at h
      · simp only [Option.map_eq_some_iff, Prod.mk.injEq, Prod.exists] at h
        obtain ⟨ptr', rest', hrest, rfl, rfl⟩ := h
        refine (ih hrest).framed {.cutting s.kind u} ?_ ?_ <;> simp only [usedItems_cons] <;> abel
      · next hcond =>
          cases h
          obtain ⟨hsize, hfree⟩ : u.size = size ∧ u.numberOfFreeSlots ≠ 0 := by
            simpa [not_or] using hcond
          subst hsize
          refine Moves.single (.cut s u hslot hfree) (usedItems s.kind rest) rfl ?_
          simp only [usedItems_cons]
          abel

theorem tryAllocSize_moves (hslot : slotForSize size = some s) {chain chain' : List State}
    (h : tryAllocSize s.kind size chain = some (ptr, chain')) :
    Moves ⟨os, m, chainItems chain⟩ ⟨os, m, chainItems chain' + {.object s ptr}⟩ := by
  induction chain generalizing ptr chain' with
  | nil => simp [tryAllocSize] at h
  | cons t rest ih =>
      simp only [tryAllocSize] at h
      split at h
      · next taken ptr' used hslot' =>
          cases h
          obtain ⟨others, hitems, hset⟩ := t.items_used s.kind
          refine (takeSlot_moves hslot hslot').framed (others + chainItems rest) ?_ ?_
          · rw [chainItems_cons, hitems]
            abel
          · rw [chainItems_cons, hset]
            abel
      · simp only [Option.map_eq_some_iff, Prod.mk.injEq, Prod.exists] at h
        obtain ⟨ptr', rest', hrest, rfl, rfl⟩ := h
        refine (ih hrest).framed t.items ?_ ?_ <;> simp only [chainItems_cons] <;> abel

/-- A popped chunk has been an item of the chain. -/
theorem chainItems_popFree {chain : List State} {t : Taken} (h : popFree k chain = some t) :
    chainItems chain = chainItems t.chain + {.chunk k t.chunk} := by
  obtain ⟨owner, chunks, rfl, hfree, howner⟩ := popFree_eq_some h
  obtain ⟨others, hitems, hset⟩ := owner.items_free k
  simp only [Taken.chain, chainItems_append, chainItems_cons, howner, hset, hitems, hfree,
    Item.all_cons]
  abel

/-- A State starts to cut a chunk. -/
theorem cut_moves (hslot : slotForSize size = some s)
    (hsize : s.realSize = size ∨ ∃ p, .stateStored p ∈ os.log) (owner : State) (c : Nat) :
    Moves ⟨os, m, owner.items + {.chunk s.kind c}⟩
      ⟨os, m, (owner.cut s.kind size c).2.items + {.object s (owner.cut s.kind size c).1}⟩ := by
  obtain ⟨others, hitems, hset⟩ := owner.items_used s.kind
  refine Moves.single (.start s size c hslot hsize) (usedItems s.kind (owner.used s.kind) + others)
    ?_ ?_
  · rw [hitems]
    abel
  · simp only [State.cut, hset, usedItems_append, usedItems_cons, usedItems_nil]
    abel

/-- The class of the slot that a State is stored in. -/
theorem slotForSize_sizeOfState :
    ∃ s, slotForSize sizeOfState = some s ∧ s.kind = .large := by
  refine ⟨.large 60, ?_, rfl⟩
  decide +kernel

/-- Extending a chain: the new State comes with its region, and holds the object that it
is stored in. -/
theorem allocNewStateIn_moves {limit : Bool} {chain chain' : List State} {next : State}
    (h : (allocNewStateIn limit chain).Returns os (some (chain', next)) os') :
    Moves ⟨os, m, chainItems chain⟩ ⟨os', m, chainItems chain' + next.items⟩ := by
  obtain ⟨s, hslot, hkind⟩ := slotForSize_sizeOfState
  simp only [Machine.Returns, allocNewStateIn] at h
  split at h
  · cases h
  · next region os₁ hregion =>
      have hstate : Moves ⟨os, m, chainItems chain⟩
          ⟨os₁, m, (State.fromRegion region .live).items + chainItems chain⟩ :=
        ((Moves.allocRegion hregion).trans (Moves.parse region .live)).framed (chainItems chain)
          (zero_add _).symm rfl
      have hlogged : ∀ ptr, Moves ⟨os₁, m, (State.fromRegion region .live).items + chainItems chain⟩
          ⟨os₁.record (.stateStored ptr), m,
            (State.fromRegion region .live).items + chainItems chain⟩ := fun ptr =>
        Moves.quiet (os₁.quiet_record _) _
      split at h
      · next ptr chain₁ htry =>
          cases h
          rw [← hkind] at htry
          refine (hstate.trans (hlogged ptr)).trans ((tryAllocSize_moves hslot htry).framed
            (State.fromRegion region .live).items (add_comm _ _) ?_)
          rw [State.items_storage _ _ rfl, blockItem_of_slot hslot]
          abel
      · split at h
        · next t ht =>
            cases h
            have hpop := chainItems_popFree ht
            obtain ⟨owner, chunks, hchain, -, howner⟩ := popFree_eq_some ht
            obtain ⟨hbefore, rfl, hafter⟩ : t.before = [] ∧ owner = State.fromRegion region .live ∧
                t.after = [] := by
              cases hb : t.before <;> simp_all
            have hstorage : (t.owner.cut .large sizeOfState t.chunk).2.storage = none := by
              rw [howner]
              rfl
            simp only [Taken.chain, hbefore, hafter, List.nil_append, chainItems_cons,
              chainItems_nil, add_zero] at hpop
            refine (hstate.trans (hlogged _)).trans ((cut_moves hslot (.inr ⟨_, List.mem_cons_self⟩)
              t.owner t.chunk).framed (chainItems chain) ?_ ?_)
            · rw [hpop, hkind]
            · rw [State.items_storage _ _ hstorage, blockItem_of_slot hslot, hkind]
              abel
        · cases h

/-- What getting a chunk from a chain does to the items of the chain. -/
def TakesChunk (k : ChunkKind) (m : Option Nat) (chain : List State) (os os' : Os) :
    Option Taken → Prop
  | some t => Moves ⟨os, m, chainItems chain⟩ ⟨os', m, chainItems t.chain + {.chunk k t.chunk}⟩
  | none => Moves ⟨os, m, chainItems chain⟩ ⟨os', m, chainItems chain⟩

theorem allocNewStateIn_none_moves {limit : Bool} {chain : List State}
    (h : (allocNewStateIn limit chain).Returns os none os') (items : Multiset Item) :
    Moves ⟨os, m, items⟩ ⟨os', m, items⟩ := by
  simp only [Machine.Returns, allocNewStateIn] at h
  split at h
  · next os₁ hregion =>
      cases h
      exact Moves.quiet (Os.quiet_of_allocRegion_none hregion) items
  · split at h
    · cases h
    · split at h <;> cases h

theorem getFreeLargeChunk_moves {limit : Bool} {before after : List State} {r : Option Taken}
    (h : (getFreeLargeChunk_ limit before after).Returns os r os') :
    TakesChunk .large m (before ++ after) os os' r := by
  unfold getFreeLargeChunk_ at h
  split at h
  · next t hpop =>
      obtain ⟨rfl, rfl⟩ := by simpa using h
      have hitems := chainItems_popFree hpop
      refine Moves.of_eq ?_
      rw [chainItems_append, hitems]
      simp only [Taken.chain, chainItems_append, chainItems_cons]
      abel
  · split at h
    · simp at h
    · obtain ⟨r', os₁, halloc, hrest⟩ := Machine.returns_bind.mp h
      cases r' with
      | none =>
          obtain ⟨rfl, rfl⟩ := by simpa using hrest
          exact allocNewStateIn_none_moves halloc _
      | some pair =>
          obtain ⟨chain, next⟩ := pair
          have hmoves := allocNewStateIn_moves (m := m) halloc
          simp only at hrest
          split at hrest
          · next t hpop =>
              obtain ⟨rfl, rfl⟩ := by simpa using hrest
              have hitems := chainItems_popFree hpop
              refine hmoves.trans (Moves.of_eq ?_)
              rw [chainItems_cons, chainItems_nil, add_zero] at hitems
              rw [hitems]
              simp only [Taken.chain, chainItems_append, chainItems_cons]
              abel
          · simp at hrest

theorem getFreeCommonChunk_moves {limit : Bool} {chain : List State} {r : Option Taken}
    (h : (getFreeCommonChunk limit chain).Returns os r os') :
    TakesChunk .common m chain os os' r := by
  unfold getFreeCommonChunk at h
  split at h
  · next t hpop =>
      obtain ⟨rfl, rfl⟩ := by simpa using h
      rw [TakesChunk, chainItems_popFree hpop]
      exact Moves.refl _
  · obtain ⟨r', os₁, hlarge, hrest⟩ := Machine.returns_bind.mp h
    have hmoves := getFreeLargeChunk_moves (m := m) hlarge
    have hchain : chain.dropLast ++ chain.drop (chain.length - 1) = chain := by
      rw [List.dropLast_eq_take, List.take_append_drop]
    rw [hchain] at hmoves
    cases r' with
    | none =>
        obtain ⟨rfl, rfl⟩ := by simpa using hrest
        exact hmoves
    | some t =>
        obtain ⟨others, hitems, hset⟩ := t.owner.items_free .common
        simp only at hrest
        split at hrest
        · next hempty =>
            split at hrest
            · next c chunks hsplit =>
                -- the large chunk is split, and seven of its units go to the State
                obtain ⟨rfl, rfl⟩ := by simpa using hrest
                refine hmoves.trans (Moves.single (.split t.chunk)
                  (chainItems t.before + others + chainItems t.after) ?_ ?_)
                · simp only [Taken.chain, chainItems_append, chainItems_cons, hitems, State.free,
                    hempty, Item.all_nil]
                  abel
                · rw [← Item.all_reverse, hsplit]
                  simp only [Taken.chain, chainItems_append, chainItems_cons, hset, Item.all_cons]
                  abel
            · simp at hrest
        · next c chunks hfree =>
            -- the large chunk is in no list any more
            obtain ⟨u, os₂, hrecord, hret⟩ := Machine.returns_bind.mp hrest
            obtain rfl := Machine.returns_modify.mp hrecord
            obtain ⟨rfl, rfl⟩ := by simpa using hret
            refine (hmoves.trans (Moves.quiet (os₁.quiet_record (.chunkAbandoned t.chunk)) _)).trans
              (Moves.single (.abandon .large t.chunk List.mem_cons_self)
                (chainItems t.chain) (add_comm _ _) ?_)
            simp only [Taken.chain, chainItems_append, chainItems_cons, hset, hitems, State.free,
              hfree, Item.all_cons]
            abel

/-- `alloc_size` for the real size of a class: an object of the class. -/
theorem allocSize_moves (hreal : s.realSize = size) (hslot : slotForSize size = some s)
    {limit : Bool} {chain chain' : List State} {r : Option Nat}
    (h : (allocSize limit s.kind size chain).Returns os (r, chain') os') :
    Moves ⟨os, m, chainItems chain⟩ ⟨os', m, chainItems chain' + blockOf size r⟩ := by
  unfold allocSize at h
  split at h
  · next ptr chain₁ htry =>
      obtain ⟨⟨rfl, rfl⟩, rfl⟩ := by simpa using h
      rw [blockOf_some, blockItem_of_slot hslot]
      exact tryAllocSize_moves hslot htry
  · obtain ⟨r', os₁, hget, hrest⟩ := Machine.returns_bind.mp h
    have htakes : TakesChunk s.kind m chain os os₁ r' := by
      cases hkind : s.kind with
      | common =>
          rw [hkind] at hget
          exact getFreeCommonChunk_moves hget
      | large =>
          rw [hkind] at hget
          exact (getFreeLargeChunk_moves hget : TakesChunk .large m ([] ++ chain) os os₁ r')
    cases r' with
    | none =>
        obtain ⟨⟨rfl, rfl⟩, rfl⟩ := by simpa using hrest
        rw [blockOf_none, add_zero]
        exact htakes
    | some t =>
        obtain ⟨⟨rfl, rfl⟩, rfl⟩ := by simpa using hrest
        refine htakes.trans ((cut_moves hslot (.inl hreal) t.owner t.chunk).framed
          (chainItems t.before + chainItems t.after) ?_ ?_)
        · simp only [Taken.chain, chainItems_append, chainItems_cons]
          abel
        · rw [blockOf_some, blockItem_of_slot hslot]
          simp only [chainItems_append, chainItems_cons]
          abel

end Chain

end Memalart
