/-
# The alignment of blocks

The generated `GlobalAlloc` passes the size of a layout on and never looks at its
alignment.  Chunks begin at common-chunk boundaries and are cut at multiples of the real
size of their class, so a block is aligned whenever the real size is a multiple of the
alignment.  For common sizes that is always so; some of the large classes have real sizes
with too few factors of two.
-/

import Memalart.Routing

namespace Memalart

open Memalart.Lib ThreadLocalAllocator

variable {P : Params}

/-- `core::alloc::Layout`. -/
structure Layout where
  size : Nat
  align : Nat
  align_isPow : ∃ k, align = 2 ^ k

/-- `GlobalAlloc::alloc`, with the null pointer for a failure. -/
def globalAlloc (A : AllocatorForSelfAllocations P) (layout : Layout) : M P Nat := do
  let ptr ← tryAlloc A layout.size
  pure (ptr.getD 0)

/-! ## Where the objects of a class begin -/

/-- Without a stored State, objects begin at multiples of the real size from the start
of their chunk. -/
theorem Exact.object_eq {os : Os} {items : Multiset Item} (h : Exact os items) {slot : Slot}
    {p : Nat} (hp : .object slot p ∈ items) :
    ∃ i ∈ items, ∃ c, i.units = (slot.kind.units c : Multiset Nat) ∧
      ∃ n, p = c + n * slot.realSize := by
  obtain ⟨lost, hbalance, -⟩ := h.objects
  have hobject : (slot, p) ∈ items.bind Item.objectsOf :=
    Multiset.mem_bind.mpr ⟨_, hp, Multiset.mem_singleton_self _⟩
  have hslot : (slot, p) ∈ items.bind Item.slotsOf :=
    hbalance ▸ Multiset.mem_add.mpr (.inl hobject)
  obtain ⟨i, hi, hcut⟩ := Multiset.mem_bind.mp hslot
  have hfrom : ∀ (t : Slot) (c first : Nat), (slot, p) ∈ t.cutFrom c first →
      t = slot ∧ ∃ n, p = c + n * slot.realSize := by
    intro t c first hmem
    obtain ⟨n, -, heq⟩ := List.mem_map.mp (Multiset.mem_coe.mp hmem)
    obtain ⟨rfl, rfl⟩ := Prod.mk.inj heq
    exact ⟨rfl, n, rfl⟩
  cases i with
  | recorded t c =>
      obtain ⟨rfl, hn⟩ := hfrom t c 0 hcut
      exact ⟨_, hi, c, rfl, hn⟩
  | cutting k u =>
      obtain ⟨t, ht, rfl, -, -⟩ := h.cutting k u hi
      simp only [Item.slotsOf, ht] at hcut
      obtain ⟨rfl, hn⟩ := hfrom t u.ptr u.numberOfFreeSlots hcut
      exact ⟨_, hi, u.ptr, rfl, hn⟩
  | _ => exact absurd hcut (Multiset.notMem_zero _)

/-- A chunk begins at a multiple of the size of common chunks. -/
theorem Tidy.chunk_aligned {os : Os} {items : Multiset Item} (h : Tidy os items) {i : Item}
    (hi : i ∈ items) {k : ChunkKind} {c : Nat} (hunits : i.units = (k.units c : Multiset Nat)) :
    commonChunkSize ∣ c := by
  have hself : c ∈ i.units := hunits ▸ Multiset.mem_coe.mpr (k.self_mem_units c)
  obtain ⟨r, hr, hregion⟩ := h.inRegion i hi fun hzero => by simp [hzero] at hself
  have hunit := (unit_of_region (h.aligned r hr.mem_regionsOf) (hregion c hself)).1
  exact ⟨c / commonChunkSize, by rw [← hunit, unitOf, Nat.mul_comm]; simp [commonChunkSize]⟩

/-- A power of two up to the page size divides the common chunk size and the page size. -/
theorem Layout.align_dvd (layout : Layout) (hpage : layout.align ≤ pageSize) :
    layout.align ∣ pageSize := by
  obtain ⟨k, hk⟩ := layout.align_isPow
  have hpow : pageSize = 2 ^ 12 := rfl
  rw [hk, hpow] at hpage ⊢
  exact pow_dvd_pow 2 ((Nat.pow_le_pow_iff_right (by decide)).mp hpage)

theorem Os.mmap_aligned {os os' : Os} {answer size alignment ptr : Nat}
    (h : os.mmap answer size alignment = (some ptr, os')) : alignment ∣ ptr := by
  unfold Os.mmap at h
  split at h
  · next hfresh =>
      cases h
      exact Nat.dvd_of_mod_eq_zero hfresh.2.1
  · cases h

/-- The kernel aligns extra-large blocks to pages. -/
theorem mapExtraLarge_aligned {os os' : Os} {size ptr : Nat} {counted : Bool}
    (h : mapExtraLarge size os = (counted, some ptr, os')) : pageSize ∣ ptr := by
  simp only [mapExtraLarge] at h
  split at h
  · cases h
  · split at h
    · next hmapped =>
        cases h
        exact Os.mmap_aligned hmapped
    · cases h

theorem allocExtraLarge_aligned {A : AllocatorForSelfAllocations P} {w w' : World P}
    {size ptr : Nat} (h : (allocExtraLarge A size).Returns w (some ptr) w') : pageSize ∣ ptr := by
  obtain ⟨⟨counted, mapped⟩, w₁, hmap, hrest⟩ := Machine.returns_bind.mp h
  cases counted with
  | false =>
      obtain ⟨hnone, -⟩ := Machine.returns_pure.mp hrest
      cases hnone
  | true =>
      obtain ⟨-, w₂, -, hpure⟩ := Machine.returns_bind.mp hrest
      obtain ⟨rfl, -⟩ := Machine.returns_pure.mp hpure
      have hanswer := congrArg (fun r => r.toOption.map fun r => r.1.2) hmap
      exact mapExtraLarge_aligned (Prod.ext rfl (Prod.ext (Option.some.inj hanswer) rfl))

/-! ## Blocks -/

/-- A block of a class whose real size is a multiple of the alignment is aligned. -/
theorem Session.Reached.aligned {calls : List Call} {s : Session P} (h : Reached calls s)
    (hstored : s.world.os.NoStateStored) {slot : Slot} {p a : Nat}
    (hp : .object slot p ∈ s.items) (hchunk : a ∣ commonChunkSize) (hclass : a ∣ slot.realSize) :
    a ∣ p := by
  obtain ⟨-, hbooks⟩ := h.books
  obtain ⟨i, hi, c, hunits, n, rfl⟩ := (hbooks.exact hstored).object_eq hp
  have hc := hchunk.trans (hbooks.tidy.chunk_aligned hi hunits)
  exact Nat.dvd_add hc (hclass.mul_left n)

/-- In a run that has stored no State, a block of a layout is aligned if its real size is a
multiple of the alignment. -/
theorem globalAlloc_aligned {calls : List Call} {s : Session P} (h : Session.Reached calls s)
    (layout : Layout) (hpos : 0 < layout.size) (hpage : layout.align ≤ pageSize)
    (hclass : layout.align ∣ recommendedSize layout.size) {depth ptr : Nat} {w' : World P}
    (hret : (globalAlloc (threadLocalAllocator depth) layout).Returns s.world ptr w')
    (hstored : w'.os.NoStateStored) : layout.align ∣ ptr := by
  obtain ⟨block, w₁, hserved, hptr⟩ := Machine.returns_bind.mp hret
  obtain ⟨rfl, rfl⟩ := Machine.returns_pure.mp hptr
  cases block with
  | none => exact Nat.dvd_zero _
  | some p =>
      rw [Option.getD_some]
      by_cases hlarge : largeSizeMax < layout.size
      · have hextra : (allocExtraLarge (threadLocalAllocator depth) layout.size).Returns s.world
            (some p) w' := by
          simpa only [tryAlloc, SizeClass.define_eq_extraLarge hlarge] using hserved
        exact (layout.align_dvd hpage).trans (allocExtraLarge_aligned hextra)
      · obtain ⟨slot, hslot, hreal, -⟩ := slotForSize_spec hpos (Nat.not_lt.mp hlarge)
        have hreached : Session.Reached (calls ++ [.served ⟨p, layout.size⟩])
            ⟨w', ⟨p, layout.size⟩ :: s.live⟩ :=
          h.step (.served depth hserved)
        have hlive : .object slot p ∈ (⟨w', ⟨p, layout.size⟩ :: s.live⟩ : Session P).items := by
          refine Multiset.mem_add.mpr (.inr ?_)
          rw [Session.held_cons, blockItem_of_slot hslot]
          exact Multiset.mem_add.mpr (.inl (Multiset.mem_singleton_self _))
        exact hreached.aligned hstored hlive ((layout.align_dvd hpage).trans ⟨16, rfl⟩)
          (hreal ▸ hclass)

/-- A first page is aligned to pages. -/
theorem globalAlloc_aligned_page : ∃ w' : World lockFreeParams,
    (globalAlloc (threadLocalAllocator 4) ⟨4096, 4096, 12, rfl⟩).Returns freshAllocator.world
      164614144 w' ∧ 4096 ∣ 164614144 := by
  have hrun : (match globalAlloc (threadLocalAllocator 4) ⟨4096, 4096, 12, rfl⟩
        freshAllocator.world with
      | .ok (ptr, w) => ptr = 164614144 &&
          w.os.log = [.chunkGivenBack 167247872, .mapped 134217728 33554432]
      | .error _ => false) = true := by
    decide +kernel
  split at hrun
  · next ptr w' hret =>
      simp only [Bool.and_eq_true, decide_eq_true_eq] at hrun
      obtain ⟨rfl, hlog⟩ := hrun
      refine ⟨w', hret, globalAlloc_aligned (Session.reached_initial [⟨0, 134217728⟩])
        ⟨4096, 4096, 12, rfl⟩ (by decide) (by decide) (by decide) hret fun c hc => ?_⟩
      simp [hlog] at hc
  · cases hrun

/-- A block of ten pages is not: its class has objects of ten pages and a half. -/
theorem globalAlloc_misaligned : ¬ ∀ (calls : List Call) (s : Session lockFreeParams),
    Session.Reached calls s → ∀ layout : Layout, 0 < layout.size → layout.align ∣ layout.size →
      layout.align ≤ pageSize → ∀ depth ptr w',
        (globalAlloc (threadLocalAllocator depth) layout).Returns s.world ptr w' →
          layout.align ∣ ptr := by
  intro hclaim
  have hrun : (match globalAlloc (threadLocalAllocator 4) ⟨40960, 4096, 12, rfl⟩
        freshAllocator.world with
      | .ok (ptr, _) => ptr = 167720960
      | .error _ => false) = true := by
    decide +kernel
  split at hrun
  · next ptr w' hret =>
      obtain rfl := of_decide_eq_true hrun
      have haligned := hclaim [] freshAllocator (Session.reached_initial [⟨0, 134217728⟩])
        ⟨40960, 4096, 12, rfl⟩ (by decide) (by decide) (by decide) 4 _ w' hret
      exact absurd haligned (by decide)
  · cases hrun

/-- For common sizes the real size is always a multiple of the alignment. -/
theorem align_dvd_recommendedSize_of_common (layout : Layout) (hsize : layout.align ∣ layout.size)
    (hcommon : layout.size ≤ commonSizeMax) : layout.align ∣ recommendedSize layout.size := by
  rw [recommendedSize, if_pos hcommon]
  obtain ⟨k, hk⟩ := layout.align_isPow
  have height : (8 : Nat) = 2 ^ 3 := rfl
  rcases Nat.le_total k 3 with hle | hle
  · have hdvd : layout.align ∣ 8 := hk ▸ height ▸ pow_dvd_pow 2 hle
    exact hdvd.mul_left _
  · have hdvd : 8 ∣ layout.size := (hk ▸ height ▸ pow_dvd_pow 2 hle : 8 ∣ layout.align).trans hsize
    obtain ⟨n, hn⟩ := hdvd
    have hsame : (layout.size + 7) / 8 * 8 = layout.size := by omega
    rwa [hsame]

end Memalart
