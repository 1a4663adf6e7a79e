/-
# The counters of the regions

A region is unmapped when its counter of occupied units comes to zero.  Two places give
chunks back: the slow path that finds an object after all, and the loops of
`free_unused_memory`.  At both of them the region of the chunk is in the list, its
counter covers the chunk and everything else that is listed of the region, and the region
is mapped.
-/

import Memalart.Conservation

namespace Memalart

open Memalart.Lib ThreadLocalAllocator

variable {P : Params}

/-! ## What a call is about to give back -/

/-- The units of a region that are in the containers. -/
@[irreducible] def World.unitsListed (w : World P) (region : Nat) : Nat :=
  ((w.entries.bind entryUnits).filter fun u => regionPtrFromChunkPtr u = region).card

/-- From a session, a call has taken a chunk that it is about to give back.  The slow paths
that serve the allocator itself look for an object again too, but with nothing in between
that could have brought one. -/
inductive InHand (s : Session P) : ChunkKind → Nat → World P → Prop
  /-- The slow path of a class has got a chunk, and then an object. -/
  | slow {slot : Slot} {c ptr : Nat} {w₁ w₂ : World P} (depth : Nat)
      (hchunk : (getChunk (threadLocalAllocator depth) slot.kind).Returns s.world (some c) w₁)
      (hobject : (popObject slot).Returns w₁ (some ptr) w₂) : InHand s slot.kind c w₂
  /-- A loop of `free_unused_memory` has popped a chunk. -/
  | unused {k : ChunkKind} {c : Nat} {w₁ : World P}
      (hchunk : (tryGetChunk k).Returns s.world (some c) w₁) : InHand s k c w₁

/-- The region of the chunk is found, its counter does not underflow, and the region is
unmapped, once, exactly when nothing else of it is counted. -/
def GivesBack (w : World P) (k : ChunkKind) (c : Nat) : Prop :=
  ∃ view ∈ w.inner.regions.elems, view.ptr = regionPtrFromChunkPtr c ∧
    w.unitsListed view.ptr + k.numberOfUnits ≤ view.numberOfCommonChunksOccupied ∧
    (view.ptr, regionSize) ∈ w.os.mappings ∧
    ∃ w', (freeChunk k c).Returns w () w' ∧
      if view.numberOfCommonChunksOccupied = k.numberOfUnits then
        w'.os.mappings = w.os.mappings.erase (view.ptr, regionSize) ∧
          w.unitsListed view.ptr = 0 ∧ ∀ view' ∈ w'.inner.regions.elems, view'.ptr ≠ view.ptr
      else
        w'.os.mappings = w.os.mappings ∧
          ⟨view.ptr, view.numberOfCommonChunksOccupied - k.numberOfUnits⟩ ∈ w'.inner.regions.elems

/-! ## The views of the regions -/

theorem regions_blockItem (size ptr : Nat) : (blockItem size ptr).regions = 0 := by
  unfold blockItem
  cases slotForSize size <;> rfl

/-- The item of a view. -/
def viewItem (view : RegionView) : Item := .view view.ptr view.numberOfCommonChunksOccupied

/-- Without bootstrap States, the items with regions are the views. -/
theorem view_of_regions {w : World P} (hstates : w.states = []) {i : Item} (hi : i ∈ w.holdings)
    (hregions : i.regions ≠ 0) : ∃ view ∈ w.inner.regions.elems, i = viewItem view := by
  rcases mem_holdings hstates hi with ⟨v, hi⟩ | ⟨size, ptr, rfl⟩
  · cases v with
    | regions =>
        obtain ⟨view, hview, rfl⟩ := List.mem_map.mp (Multiset.mem_coe.mp hi)
        exact ⟨view, hview, rfl⟩
    | _ =>
        obtain ⟨p, -, rfl⟩ := mem_itemAll.mp hi
        exact absurd rfl hregions
  · exact absurd (regions_blockItem size ptr) hregions

theorem mem_holdings_viewItem {w : World P} {view : RegionView}
    (hview : view ∈ w.inner.regions.elems) : viewItem view ∈ w.holdings := by
  refine mem_holdings_of_contents (v := .regions) (Multiset.mem_coe.mpr ?_)
  exact List.mem_map.mpr ⟨view, hview, rfl⟩

/-! ## Worlds with items in hand -/

/-- A world between two calls, or in a call that has some items in hand; none of these
is a region. -/
structure AtHand (w : World P) (hand : Multiset Item) : Prop where
  states : w.states = []
  tidy : Tidy w.os (w.holdings + hand)
  regions : ∀ i ∈ hand, i.regions = 0

namespace AtHand

variable {w : World P} {hand : Multiset Item}

theorem unitsIn_eq (h : AtHand w hand) (region : Nat) :
    (unitsIn region (w.holdings + hand)).card =
      w.unitsListed region + (unitsIn region hand).card := by
  rw [unitsIn_add, Multiset.card_add, unitsIn, unitsOf_holdings h.states, World.unitsListed]

/-- The counter of a region covers all its units. -/
theorem occupied (h : AtHand w hand) {view : RegionView} (hview : view ∈ w.inner.regions.elems) :
    view.numberOfCommonChunksOccupied ≤ maxCommonChunksInRegion ∧
      w.unitsListed view.ptr + (unitsIn view.ptr hand).card ≤
        view.numberOfCommonChunksOccupied := by
  obtain ⟨hmax, hcard⟩ := h.tidy.occupied view.ptr view.numberOfCommonChunksOccupied
    (Multiset.mem_add.mpr (.inl (mem_holdings_viewItem hview)))
  rw [h.unitsIn_eq] at hcard
  exact ⟨hmax, hcard⟩

/-- The region of a chunk in hand is in the list. -/
theorem exists_view (h : AtHand w hand) {k : ChunkKind} {c : Nat} (hc : .chunk k c ∈ hand) :
    ∃ view ∈ w.inner.regions.elems, view.ptr = regionPtrFromChunkPtr c := by
  have hunit : c ∈ unitsOf (w.holdings + hand) :=
    mem_unitsOf.mpr ⟨_, Multiset.mem_add.mpr (.inr hc), Multiset.mem_coe.mpr (k.self_mem_units c)⟩
  have hregion : ∀ i, i ∈ w.holdings + hand → i.regions = {regionPtrFromChunkPtr c} →
      ∃ view ∈ w.inner.regions.elems, i = viewItem view := fun i hi hregions => by
    have hne : i.regions ≠ 0 := by simp [hregions]
    rcases Multiset.mem_add.mp hi with hi | hi
    · exact view_of_regions h.states hi hne
    · exact absurd (h.regions i hi) hne
  rcases (h.tidy.parsed_of_unit hunit).1 with hparsed | ⟨n, hparsed⟩
  · obtain ⟨view, -, heq⟩ := hregion _ hparsed rfl
    cases heq
  · obtain ⟨view, hview, heq⟩ := hregion _ hparsed rfl
    exact ⟨view, hview, (Item.view.inj heq).1.symm⟩

/-- The units of a chunk in hand are among those in hand. -/
theorem numberOfUnits_le (h : AtHand w hand) {k : ChunkKind} {c : Nat} (hc : .chunk k c ∈ hand) :
    k.numberOfUnits ≤ (unitsIn (regionPtrFromChunkPtr c) hand).card := by
  obtain ⟨others, rfl⟩ := Multiset.exists_cons_of_mem hc
  have htidy : Tidy w.os ({.chunk k c} + (w.holdings + others)) := by
    have hperm : w.holdings + .chunk k c ::ₘ others = {.chunk k c} + (w.holdings + others) := by
      rw [← Multiset.singleton_add]
      abel
    exact hperm ▸ h.tidy
  rw [← Multiset.singleton_add, unitsIn_add, htidy.units_chunk, Multiset.card_add,
    Multiset.coe_card, k.length_units]
  exact Nat.le_add_right _ _

theorem mapped (h : AtHand w hand) {view : RegionView} (hview : view ∈ w.inner.regions.elems) :
    (view.ptr, regionSize) ∈ w.os.mappings := by
  refine Multiset.mem_coe.mp (Multiset.mem_of_le h.tidy.mapped ?_)
  exact mem_mappingsOf.mpr ⟨viewItem view,
    Multiset.mem_add.mpr (.inl (mem_holdings_viewItem hview)), Multiset.mem_singleton_self _⟩

/-- No region is in the list twice. -/
theorem nodup_ptrs (h : AtHand w hand) : (w.inner.regions.elems.map RegionView.ptr).Nodup := by
  have hcontents : regionsOf (contents .regions w.inner.regions.elems) =
      (w.inner.regions.elems.map RegionView.ptr : Multiset Nat) := by
    induction w.inner.regions.elems with
    | nil => exact regionsOf_zero
    | cons view views ih =>
        have hcons : contents .regions (view :: views) =
            {viewItem view} + contents .regions views := rfl
        rw [hcons, regionsOf_add, ih, regionsOf_singleton]
        rfl
  have hle : contents .regions w.inner.regions.elems ≤ w.holdings + hand :=
    ((Multiset.le_add_right _ _).trans (w.vecItems_le_holdings .regions)).trans
      (Multiset.le_add_right _ _)
  have hnodup := h.tidy.regions_nodup
  obtain ⟨others, hothers⟩ := Multiset.le_iff_exists_add.mp hle
  rw [hothers, regionsOf_add, hcontents] at hnodup
  exact Multiset.coe_nodup.mp (Multiset.nodup_add.mp hnodup).1

end AtHand

/-! ## Giving a chunk back -/

theorem releaseUnits_of_mem (units : Nat) {views : List RegionView} {view : RegionView}
    (hview : view ∈ views) : ∃ views' empty,
      releaseUnits units view.ptr views = some (views', empty) ∧ views'.length ≤ views.length := by
  unfold releaseUnits
  split
  · next hnone =>
      have hfalse := List.findIdx?_eq_none_iff.mp hnone view hview
      simp at hfalse
  · next idx hsome =>
      simp only
      split
      · exact ⟨_, _, rfl, by simp⟩
      · exact ⟨_, _, rfl, by simp⟩

/-- A chunk in hand can be given back. -/
theorem AtHand.givesBack {w : World P} {hand : Multiset Item} (h : AtHand w hand) {k : ChunkKind}
    {c : Nat} (hc : .chunk k c ∈ hand) : GivesBack w k c := by
  obtain ⟨view, hview, hptr⟩ := h.exists_view hc
  obtain ⟨views, empty, hrelease, hlength⟩ :=
    releaseUnits_of_mem k.numberOfUnits (List.mem_reverse.mpr hview)
  obtain ⟨n, others, hviews, hcase⟩ := releaseUnits_spec hrelease
  rw [Multiset.coe_reverse] at hviews
  have hmem : (⟨view.ptr, n⟩ : RegionView) ∈ w.inner.regions.elems := by
    refine Multiset.mem_coe.mp ?_
    rw [hviews]
    exact Multiset.mem_add.mpr (.inl (Multiset.mem_singleton_self _))
  obtain ⟨hmax, hcard⟩ := h.occupied hmem
  have hunits := h.numberOfUnits_le hc
  rw [← hptr] at hunits
  have hcovers : w.unitsListed view.ptr + k.numberOfUnits ≤ n :=
    (Nat.add_le_add_left hunits _).trans hcard
  have hcount : (n + (usizeRange - k.numberOfUnits)) % usizeRange = n - k.numberOfUnits := by
    have hmax' : n ≤ 511 := hmax
    simp only [usizeRange]
    omega
  -- the rest of the list does not hold the region
  have hothers : ∀ view' ∈ others, view'.ptr ≠ view.ptr := fun view' hview' heq => by
    have hnodup := Multiset.coe_nodup.mpr h.nodup_ptrs
    rw [← Multiset.map_coe, hviews, Multiset.map_add, Multiset.map_singleton,
      Multiset.singleton_add, Multiset.nodup_cons] at hnodup
    exact hnodup.1 (Multiset.mem_map.mpr ⟨view', hview', heq⟩)
  have hle : views.reverse.length ≤ w.inner.regions.elems.length := by
    simpa using hlength
  have hreturns : (freeChunk k c).Returns w ()
      ((w.setVec .regions (w.inner.regions.replaceElems views.reverse hle)).setOs
        (if empty then (w.os.record (.chunkGivenBack c)).deallocRegion (regionPtrFromChunkPtr c)
          else w.os.record (.chunkGivenBack c))) := by
    rw [hptr] at hrelease
    simp only [Machine.Returns, freeChunk, hrelease]
    rw [dif_pos hle]
  refine ⟨_, hmem, hptr, hcovers, h.mapped hmem, _, hreturns, ?_⟩
  rw [hcount] at hcase
  rcases hcase with ⟨rfl, hzero, hviews'⟩ | ⟨rfl, hne, hviews'⟩
  · have heq : n = k.numberOfUnits := by omega
    have hlisted : w.unitsListed view.ptr = 0 := by omega
    rw [if_pos heq]
    refine ⟨?_, hlisted, fun view' hview' => hothers view' ?_⟩
    · rw [hptr]
      rfl
    · rw [← hviews']
      exact Multiset.mem_coe.mpr (List.mem_reverse.mp hview')
  · have hne' : n ≠ k.numberOfUnits := by omega
    rw [if_neg hne']
    refine ⟨rfl, List.mem_reverse.mpr (Multiset.mem_coe.mp ?_)⟩
    rw [hviews']
    exact Multiset.mem_add.mpr (.inl (Multiset.mem_singleton_self _))

/-! ## Every state of a session -/

theorem regions_held {live : List Block} {i : Item} (hi : i ∈ Session.held live) :
    i.regions = 0 := by
  obtain ⟨b, -, rfl⟩ := List.mem_map.mp (Multiset.mem_coe.mp hi)
  exact regions_blockItem _ _

theorem atHand_of_reached {calls : List Call} {s : Session P} (h : Session.Reached calls s) :
    AtHand s.world (Session.held s.live) :=
  ⟨h.books.1.states, h.books.2.tidy, fun _ hi => regions_held hi⟩

/-- A call that has got as far as these tokens. -/
theorem atHand_of_goes {calls : List Call} {s : Session P} (h : Session.Reached calls s)
    {w : World P} {hand : Multiset Item} {toks : Multiset (Token P)} (hs : Sound w toks)
    (hgoes : (discipline P).Goes (s.world, tokens (Session.held s.live)) (w, toks))
    (hdepth : depth toks = 0) (hitems : itemsOf toks = hand)
    (hregions : ∀ i ∈ hand, i.regions = 0) : AtHand w hand where
  states := List.length_eq_zero_iff.mp (hs.depth.trans hdepth)
  tidy := by
    have hmoves : Moves (s.world.estate (itemsOf (tokens (Session.held s.live) : Multiset (Token P))))
        (w.estate (itemsOf toks)) := hgoes
    rw [itemsOf_tokens, hitems] at hmoves
    exact hmoves.tidy h.books.2.tidy
  regions := hregions

/-- What a call is about to give back is at hand. -/
theorem InHand.atHand {calls : List Call} {s : Session P} (h : Session.Reached calls s)
    {k : ChunkKind} {c : Nat} {w : World P} (hin : InHand s k c w) :
    ∃ hand, AtHand w hand ∧ .chunk k c ∈ hand := by
  have hrests : Sound s.world (0 + tokens (Session.held s.live)) := by
    rw [zero_add]
    exact h.books.1
  have hfound : ∀ k : ChunkKind, itemsOf (foundChunk k (some c) : Multiset (Token P)) =
      {.chunk k c} := fun k => by
    simp [foundChunk, Token.items]
  cases hin with
  | unused hchunk =>
      obtain ⟨hs, hgoes⟩ := tryGetChunk_triple k s.world _ hrests _ _ hchunk
      rw [zero_add] at hgoes
      refine ⟨{.chunk k c} + Session.held s.live, atHand_of_goes h hs hgoes ?_ ?_ ?_, by simp⟩
      · simp [foundChunk, Token.depth]
      · rw [itemsOf_add, hfound, itemsOf_tokens]
      · intro i hi
        rcases Multiset.mem_add.mp hi with hi | hi
        · exact Multiset.mem_singleton.mp hi ▸ rfl
        · exact regions_held hi
  | @slow slot c ptr w₁ w depth hchunk hobject =>
      obtain ⟨hs₁, hgoes₁⟩ := getChunk_triple (servesAlways_threadLocalAllocator depth) slot.kind
        s.world _ hrests _ _ hchunk
      rw [zero_add] at hgoes₁
      have hs₁' : Sound w₁ (0 + (foundChunk slot.kind (some c) +
          tokens (Session.held s.live))) := by
        rw [zero_add]
        exact hs₁
      obtain ⟨hs₂, hgoes₂⟩ := popObject_triple slot w₁ _ hs₁' _ _ hobject
      rw [zero_add] at hgoes₂
      refine ⟨{.object slot ptr} + ({.chunk slot.kind c} + Session.held s.live),
        atHand_of_goes h hs₂ ((discipline P).trans hgoes₁ hgoes₂) ?_ ?_ ?_, by simp⟩
      · simp [foundChunk, found, Token.depth]
      · rw [itemsOf_add, itemsOf_add, hfound, itemsOf_tokens, found, itemsOf_singleton]
        rfl
      · intro i hi
        rcases Multiset.mem_add.mp hi with hi | hi
        · exact Multiset.mem_singleton.mp hi ▸ rfl
        · rcases Multiset.mem_add.mp hi with hi | hi
          · exact Multiset.mem_singleton.mp hi ▸ rfl
          · exact regions_held hi

/-- In every state of a session, and wherever a call is about to give a chunk back, the
counter of each region covers its units in the containers, and the chunk, if it is one
of its own; and the chunk can be given back. -/
theorem occupied_covers {calls : List Call} {s : Session P} (h : Session.Reached calls s) :
    (∀ view ∈ s.world.inner.regions.elems,
      view.numberOfCommonChunksOccupied ≤ maxCommonChunksInRegion ∧
        s.world.unitsListed view.ptr ≤ view.numberOfCommonChunksOccupied) ∧
    ∀ k c w, InHand s k c w →
      (∀ view ∈ w.inner.regions.elems,
        view.numberOfCommonChunksOccupied ≤ maxCommonChunksInRegion ∧
          w.unitsListed view.ptr +
              (if view.ptr = regionPtrFromChunkPtr c then k.numberOfUnits else 0) ≤
            view.numberOfCommonChunksOccupied) ∧
      GivesBack w k c := by
  constructor
  · intro view hview
    obtain ⟨hmax, hcard⟩ := (atHand_of_reached h).occupied hview
    exact ⟨hmax, (Nat.le_add_right _ _).trans hcard⟩
  · intro k c w hin
    obtain ⟨hand, hat, hc⟩ := hin.atHand h
    refine ⟨fun view hview => ?_, hat.givesBack hc⟩
    obtain ⟨hmax, hcard⟩ := hat.occupied hview
    refine ⟨hmax, ?_⟩
    split
    · next heq =>
        have hunits := hat.numberOfUnits_le hc
        rw [← heq] at hunits
        exact (Nat.add_le_add_left hunits _).trans hcard
    · exact (Nat.le_add_right _ _).trans hcard

theorem eq_ok_of_toOption {ε α : Type} {x : Except ε α} {a : α} (h : x.toOption = some a) :
    x = .ok a := by
  cases x with
  | error e => cases h
  | ok b => exact congrArg Except.ok (Option.some.inj h)

/-- The first call for 16 bytes is about to give a chunk back, and may do so. -/
theorem occupied_covers_first :
    ∃ c w, InHand freshAllocator .common c w ∧ GivesBack w .common c := by
  have hrun : ((getChunk (threadLocalAllocator 4) .common freshAllocator.world).toOption.bind fun r =>
      r.1.bind fun _ => (popObject (.common 1) r.2).toOption.bind Prod.fst).isSome = true := by
    decide +kernel
  obtain ⟨ptr, hptr⟩ := Option.isSome_iff_exists.mp hrun
  obtain ⟨⟨found, w₁⟩, hchunk, hptr⟩ := Option.bind_eq_some_iff.mp hptr
  obtain ⟨c, rfl, hptr⟩ := Option.bind_eq_some_iff.mp hptr
  obtain ⟨⟨object, w₂⟩, hobject, rfl⟩ := Option.bind_eq_some_iff.mp hptr
  have hin : InHand freshAllocator .common c w₂ :=
    @InHand.slow _ freshAllocator (.common 1) c ptr w₁ w₂ 4
      (eq_ok_of_toOption hchunk) (eq_ok_of_toOption hobject)
  exact ⟨c, w₂, hin, ((occupied_covers (Session.reached_initial [⟨0, 134217728⟩])).2 _ _ _ hin).2⟩

end Memalart
