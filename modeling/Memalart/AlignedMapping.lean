/-
# Memory at an aligned address

`alloc_aligned_from_os` reserves more than it needs, rounds the start up to the alignment,
makes the part that it keeps usable with a second mapping at a fixed address, and unmaps the
rest.  Every region of the allocator comes from here.  The module translates the path down to
`mmap` and says when a caller gets what it relies on.
-/

import Mathlib.Data.Nat.Prime.Basic
import Memalart.Lib.AddressSpace
import Memalart.Lib.Mask
import Memalart.Os

namespace Memalart.AlignedMapping

open Memalart.Lib

inductive MmapHugePageResult
  | hugePage
  | notHugePage
deriving DecidableEq, Repr

/-- The values of `SHOULD_TRY_OPTION`. -/
inductive ShouldTry
  | hugePage1gb
  | hugePage2mb
  | notHugePage
deriving DecidableEq, Repr

def bytesOf1gb : Nat := 1024 * 1024 * 1024
def bytesOf2mb : Nat := 2 * 1024 * 1024

/-- The pages of the process, the answers of the kernel to the next calls of `mmap`, and the
static that says which huge pages are worth a try. -/
structure Kernel where
  space : AddressSpace usizeRange
  answers : List Answer
  shouldTry : ShouldTry

namespace Kernel

def takeAnswer (k : Kernel) : Answer × Kernel :=
  match k.answers with
  | [] => (.refused fun _ => false, k)
  | answer :: rest => (answer, { k with answers := rest })

/-- `mmap` without a fixed address; the hint leaves the kernel free to choose. -/
def mmap (size : Nat) (protection : Protection) (k : Kernel) : Option Nat × Kernel :=
  let (answer, k) := k.takeAnswer
  let (ptr, space) := k.space.mapAnywhere answer size protection
  (ptr, { k with space := space })

/-- `mmap` with `MAP_HUGETLB`: a whole number of huge pages, at the address of one. -/
def mmapHuge (hugePage size : Nat) (protection : Protection) (k : Kernel) : Option Nat × Kernel :=
  match k.takeAnswer with
  | (.refused _, k) => (none, k)
  | (.granted ptr, k) =>
      if ptr % hugePage = 0 then
        let (ptr, space) := k.space.mapAnywhere (.granted ptr)
          ((size + hugePage - 1) / hugePage * hugePage) protection
        (ptr, { k with space := space })
      else (none, k)

/-- `mmap` with `MAP_FIXED`. -/
def mmapFixed (ptr size : Nat) (protection : Protection) (k : Kernel) : Option Nat × Kernel :=
  let (answer, k) := k.takeAnswer
  let (ptr, space) := k.space.mapFixed answer ptr size protection
  (ptr, { k with space := space })

/-- `munmap_raw`: the result of `munmap` is not looked at. -/
def munmapRaw (ptr size : Nat) (k : Kernel) : Kernel :=
  { k with space := k.space.munmap ptr size }

/-- `mmap_not_huge`, with `0` for the null pointer. -/
def mmapNotHuge (size : Nat) (protection : Protection) (k : Kernel) : Nat × Kernel :=
  match k.mmap size protection with
  | (some ptr, k) => (ptr, k)
  | (none, k) => (0, k)

/-- The attempts of `custom_mmap` at huge pages.  The test for the 1 GB flag after a refusal
meets the bits of the 2 MB flag as well, so there is always a second attempt. -/
def mmapHugeRetried (hugePage size : Nat) (protection : Protection) (k : Kernel) :
    Option Nat × Kernel :=
  match k.mmapHuge hugePage size protection with
  | (some ptr, k) => (some ptr, k)
  | (none, k) => { k with shouldTry := .hugePage2mb }.mmapHuge bytesOf2mb size protection

/-- `custom_mmap`; no caller asks for huge pages only.  Whether the memory is committed decides
`MAP_NORESERVE`, which changes nothing here. -/
def customMmap (size : Nat) (protection : Protection) (k : Kernel) :
    (Nat × MmapHugePageResult) × Kernel :=
  let mayBe2mbHugePage := size % bytesOf2mb = 0 ∧ k.shouldTry = .hugePage2mb
  let mayBe1gbHugePage := size % bytesOf1gb = 0 ∧ k.shouldTry = .hugePage1gb
  if mayBe2mbHugePage ∨ mayBe1gbHugePage then
    let hugePage := if mayBe1gbHugePage then bytesOf1gb else bytesOf2mb
    match k.mmapHugeRetried hugePage size protection with
    | (some ptr, k) => ((ptr, .hugePage), k)
    | (none, k) =>
        let (ptr, k) := { k with shouldTry := .notHugePage }.mmapNotHuge size protection
        ((ptr, .notHugePage), k)
  else
    let (ptr, k) := k.mmapNotHuge size protection
    ((ptr, .notHugePage), k)

/-- `alloc_from_os_`. -/
def allocFromOs_ (size : Nat) (commit : Bool) (k : Kernel) : (Nat × MmapHugePageResult) × Kernel :=
  k.customMmap size (if commit then .readWrite else .noAccess)

/-- What is reserved, so that any start leaves room: a sum of `usize`s. -/
def allocSize (size align : Nat) : Nat := (align - 1 + size) % usizeRange

/-- `alloc_aligned_from_os`.  Only a test build looks at the result of the second `mmap`. -/
def allocAlignedFromOs (size : Nat) (commit : Bool) (align : Nat) (k : Kernel) :
    (Nat × MmapHugePageResult) × Kernel :=
  let ((base, mmapHugePageResult), k) := k.allocFromOs_ (allocSize size align) false
  if base = 0 then ((base, mmapHugePageResult), k)
  else
    let aligned := maskUp 64 align base
    let k := if commit then (k.mmapFixed aligned size .readWrite).2 else k
    let k := if base < aligned then k.munmapRaw base (aligned - base) else k
    let alignedEnd := (aligned + size) % usizeRange
    let allocEnd := (base + allocSize size align) % usizeRange
    let k := if alignedEnd < allocEnd then k.munmapRaw alignedEnd (allocEnd - alignedEnd) else k
    ((aligned, mmapHugePageResult), k)

/-! ## The reservation -/

/-- The kernel answers the first `mmap` with this address, and can. -/
def Reserves (k : Kernel) (size base : Nat) : Prop :=
  k.answers.head? = some (.granted base) ∧ k.space.Vacant base size

/-- The kernel grants the second `mmap`. -/
def Commits (k : Kernel) : Prop := ∃ ptr, k.answers[1]? = some (.granted ptr)

variable {k k' : Kernel} {size align base : Nat}

/-- What is reserved is not a multiple of a huge page: with even pages it is odd. -/
theorem allocSize_odd {e : Nat} (hpage : 1 < k.space.pageSize) (halign : align = 2 ^ e)
    (hdvd : k.space.pageSize ∣ align) (hsize : k.space.pageSize ∣ size) :
    allocSize size align % 2 = 1 := by
  obtain ⟨j, -, hj⟩ := (Nat.dvd_prime_pow Nat.prime_two).mp (halign ▸ hdvd)
  have heven : 2 ∣ k.space.pageSize := by
    rw [hj] at hpage ⊢
    exact dvd_pow_self 2 fun hzero => absurd hpage (by simp [hzero])
  have halign₂ : align % 2 = 0 := Nat.mod_eq_zero_of_dvd (heven.trans hdvd)
  have hsize₂ : size % 2 = 0 := Nat.mod_eq_zero_of_dvd (heven.trans hsize)
  have hpos : 0 < align := halign ▸ Nat.two_pow_pos e
  unfold allocSize usizeRange
  omega

/-- The reservation is one plain `mmap`. -/
theorem customMmap_of_odd {protection : Protection} (hodd : size % 2 = 1) :
    k.customMmap size protection =
      (((k.mmapNotHuge size protection).1, .notHugePage), (k.mmapNotHuge size protection).2) := by
  have h2mb : size % bytesOf2mb ≠ 0 := by
    unfold bytesOf2mb
    omega
  have h1gb : size % bytesOf1gb ≠ 0 := by
    unfold bytesOf1gb
    omega
  simp [customMmap, h2mb, h1gb]

/-- The kernel has granted the first `mmap` at this address. -/
def granted (base size : Nat) (protection : Protection) (k : Kernel) : Kernel :=
  { k with space := k.space.setPages base size fun _ => some protection
           answers := k.answers.tail }

theorem mmapNotHuge_of_reserves {protection : Protection} (h : k.Reserves size base) :
    k.mmapNotHuge size protection = (base, k.granted base size protection) := by
  obtain ⟨hhead, hvacant⟩ := h
  obtain ⟨rest, hanswers⟩ := List.head?_eq_some_iff.mp hhead
  simp [mmapNotHuge, mmap, takeAnswer, hanswers, AddressSpace.mapAnywhere, hvacant, granted]

theorem mmapNotHuge_of_refused (protection : Protection) (h : ∀ base, ¬ k.Reserves size base) :
    (k.mmapNotHuge size protection).1 = 0 ∧
      (k.mmapNotHuge size protection).2.space = k.space := by
  rcases hanswers : k.answers with _ | ⟨answer, rest⟩
  · simp [mmapNotHuge, mmap, takeAnswer, hanswers, AddressSpace.mapAnywhere]
  · cases answer with
    | refused lost => simp [mmapNotHuge, mmap, takeAnswer, hanswers, AddressSpace.mapAnywhere]
    | granted ptr =>
        have hnot : ¬ k.space.Vacant ptr size := fun hvacant => h ptr ⟨by simp [hanswers], hvacant⟩
        simp [mmapNotHuge, mmap, takeAnswer, hanswers, AddressSpace.mapAnywhere, hnot]

/-! ## What is kept -/

/-- What a caller passes: an alignment that is a power of two, and whole pages. -/
structure Proper (k : Kernel) (size align : Nat) : Prop where
  powerOfTwo : ∃ e, align = 2 ^ e
  align_dvd : k.space.pageSize ∣ align
  size_dvd : k.space.pageSize ∣ size
  align_le : align ≤ size
  size_lt : size < usizeRange

variable {commit : Bool}

theorem Proper.exponent (h : Proper k size align) : ∃ e, align = 2 ^ e ∧ e ≤ 64 := by
  obtain ⟨e, he⟩ := h.powerOfTwo
  refine ⟨e, he, le_of_not_gt fun hlt => ?_⟩
  have hle : 2 ^ 64 ≤ 2 ^ e := Nat.pow_le_pow_right (by decide) hlt.le
  have hsize := h.align_le.trans_lt h.size_lt
  unfold usizeRange at hsize
  omega

theorem Proper.align_pos (h : Proper k size align) : 0 < align := by
  obtain ⟨e, rfl⟩ := h.powerOfTwo
  exact Nat.two_pow_pos e

theorem Proper.allocSize_eq (h : Proper k size align) (hfits : align - 1 + size < usizeRange) :
    allocSize size align = align + size - 1 := by
  have hpos := h.align_pos
  rw [allocSize, Nat.mod_eq_of_lt hfits]
  omega

/-- The page-rounded reservation is the size and the alignment together. -/
theorem Proper.pagesFor_allocSize (h : Proper k size align) (hfits : align - 1 + size < usizeRange) :
    k.space.pagesFor (allocSize size align) * k.space.pageSize = align + size := by
  have hpos := h.align_pos
  rw [h.allocSize_eq hfits]
  exact AddressSpace.pagesFor_mul_of_lt (Nat.dvd_add h.align_dvd h.size_dvd) (by omega)
    k.space.one_lt_pageSize

/-- What is kept starts with a page, at least a page before the alignment runs out. -/
theorem Proper.start (h : Proper k size align) (hbase : base % k.space.pageSize = 0)
    (hroom : base + align ≤ usizeRange) :
    maskUp 64 align base % align = 0 ∧ maskUp 64 align base % k.space.pageSize = 0 ∧
      base ≤ maskUp 64 align base ∧ maskUp 64 align base + k.space.pageSize ≤ base + align := by
  obtain ⟨e, rfl, he⟩ := h.exponent
  obtain ⟨haligned, hle, hlt⟩ := maskUp_two_pow he hroom
  have hpage : k.space.pageSize ∣ maskUp 64 (2 ^ e) base :=
    h.align_dvd.trans (Nat.dvd_of_mod_eq_zero haligned)
  have hgap : k.space.pageSize ≤ base + 2 ^ e - maskUp 64 (2 ^ e) base :=
    Nat.le_of_dvd (by omega)
      (Nat.dvd_sub (Nat.dvd_add (Nat.dvd_of_mod_eq_zero hbase) h.align_dvd) hpage)
  exact ⟨haligned, Nat.mod_eq_zero_of_dvd hpage, hle, by omega⟩

/-- Head and tail of a reservation are unmapped, and nothing else. -/
def trim (base start size align : Nat) (k : Kernel) : Kernel :=
  let k := if base < start then k.munmapRaw base (start - base) else k
  let startEnd := (start + size) % usizeRange
  let allocEnd := (base + allocSize size align) % usizeRange
  if startEnd < allocEnd then k.munmapRaw startEnd (allocEnd - startEnd) else k

/-- What the kept part looks like before the rest is unmapped. -/
def committed (start size : Nat) (commit : Bool) (k : Kernel) : Kernel :=
  if commit then (k.mmapFixed start size .readWrite).2 else k

theorem allocAlignedFromOs_of_reserves (h : Proper k size align)
    (hreserves : k.Reserves (allocSize size align) base) :
    allocAlignedFromOs size commit align k =
      ((maskUp 64 align base, .notHugePage),
        ((k.granted base (allocSize size align) .noAccess).committed (maskUp 64 align base) size
          commit).trim base (maskUp 64 align base) size align) := by
  obtain ⟨e, he⟩ := h.powerOfTwo
  have hodd := allocSize_odd k.space.one_lt_pageSize he h.align_dvd h.size_dvd
  have hne : base ≠ 0 := hreserves.2.1
  simp only [allocAlignedFromOs, allocFromOs_, Bool.false_eq_true, if_false,
    customMmap_of_odd hodd, mmapNotHuge_of_reserves hreserves, if_neg hne]
  rfl

theorem allocAlignedFromOs_of_refused (commit : Bool) (h : Proper k size align)
    (hrefused : ∀ base, ¬ k.Reserves (allocSize size align) base) :
    (allocAlignedFromOs size commit align k).1.1 = 0 ∧
      (allocAlignedFromOs size commit align k).2.space = k.space := by
  obtain ⟨e, he⟩ := h.powerOfTwo
  have hodd := allocSize_odd k.space.one_lt_pageSize he h.align_dvd h.size_dvd
  obtain ⟨hnull, hspace⟩ := mmapNotHuge_of_refused .noAccess hrefused
  simp only [allocAlignedFromOs, allocFromOs_, Bool.false_eq_true, if_false,
    customMmap_of_odd hodd, hnull, if_true, hspace, and_self]

@[simp] theorem space_takeAnswer : k.takeAnswer.2.space = k.space := by
  unfold takeAnswer
  split
  · rfl
  · rfl

theorem space_committed (k : Kernel) (start size : Nat) (commit : Bool) :
    (k.committed start size commit).space =
      if commit then (k.space.mapFixed k.takeAnswer.1 start size .readWrite).2 else k.space := by
  cases commit with
  | false => rfl
  | true => simp [committed, mmapFixed]

theorem pageSize_committed (k : Kernel) (start size : Nat) (commit : Bool) :
    (k.committed start size commit).space.pageSize = k.space.pageSize := by
  rw [space_committed]
  split
  · exact AddressSpace.pageSize_mapFixed _ _
  · rfl

theorem Proper.congr (h : Proper k size align) (hpage : k'.space.pageSize = k.space.pageSize) :
    Proper k' size align where
  powerOfTwo := h.powerOfTwo
  align_dvd := hpage ▸ h.align_dvd
  size_dvd := hpage ▸ h.size_dvd
  align_le := h.align_le
  size_lt := h.size_lt

/-- `munmap` of the head. -/
theorem access_unmapHead {start a : Nat} (hbase : base % k.space.pageSize = 0)
    (hstart : start % k.space.pageSize = 0) :
    (if base < start then k.munmapRaw base (start - base) else k).space.access a =
      if base ≤ a ∧ a < start then none else k.space.access a := by
  by_cases hlt : base < start
  · have hdvd : k.space.pageSize ∣ start - base :=
      Nat.dvd_sub (Nat.dvd_of_mod_eq_zero hstart) (Nat.dvd_of_mod_eq_zero hbase)
    rw [if_pos hlt]
    refine (AddressSpace.access_munmap hbase).trans ?_
    rw [AddressSpace.pagesFor_mul_of_dvd hdvd, Nat.add_sub_cancel' hlt.le]
  · rw [if_neg hlt, if_neg (by omega)]

theorem pageSize_unmapHead (k : Kernel) (base start : Nat) :
    (if base < start then k.munmapRaw base (start - base) else k).space.pageSize =
      k.space.pageSize := by
  split
  · exact AddressSpace.pageSize_munmap
  · rfl

/-- What is unmapped in the end, address by address. -/
theorem access_trim {start a : Nat} (h : Proper k size align) (hfits : align - 1 + size < usizeRange)
    (hbase : base % k.space.pageSize = 0) (hend : base + (align + size) ≤ usizeRange)
    (hstart : start % k.space.pageSize = 0) (hle : base ≤ start)
    (hlt : start + k.space.pageSize ≤ base + align) :
    (k.trim base start size align).space.access a =
      if base ≤ a ∧ a < base + (align + size) ∧ ¬ (start ≤ a ∧ a < start + size) then none
      else k.space.access a := by
  have hpage := k.space.one_lt_pageSize
  have hsizePos := h.align_pos.trans_le h.align_le
  have hstartEnd : (start + size) % usizeRange = start + size := Nat.mod_eq_of_lt (by omega)
  have hallocEnd : (base + allocSize size align) % usizeRange = base + align + size - 1 := by
    rw [h.allocSize_eq hfits, Nat.mod_eq_of_lt (by omega)]
    omega
  have hgap : k.space.pageSize ∣ base + align - start :=
    Nat.dvd_sub (Nat.dvd_add (Nat.dvd_of_mod_eq_zero hbase) h.align_dvd)
      (Nat.dvd_of_mod_eq_zero hstart)
  have hshort : base + align + size - 1 - (start + size) = base + align - start - 1 := by omega
  unfold trim
  simp only [hstartEnd, hallocEnd]
  rw [if_pos (by omega), hshort]
  have hhead := access_unmapHead (k := k) (a := a) hbase hstart
  have hheadPage := pageSize_unmapHead k base start
  generalize (if base < start then k.munmapRaw base (start - base) else k) = k₁ at hhead hheadPage
  rw [← hheadPage] at hgap hpage
  refine (AddressSpace.access_munmap ?_).trans ?_
  · rw [hheadPage]
    exact Nat.mod_eq_zero_of_dvd (Nat.dvd_add (Nat.dvd_of_mod_eq_zero hstart) h.size_dvd)
  · rw [AddressSpace.pagesFor_mul_of_lt hgap (by omega) hpage, hhead]
    by_cases hmem : base ≤ a ∧ a < base + (align + size) ∧ ¬ (start ≤ a ∧ a < start + size)
    · rw [if_pos hmem]
      split
      · rfl
      · rw [if_pos (by omega)]
    · rw [if_neg hmem, if_neg (by omega), if_neg (by omega)]

/-! ## What a caller gets -/

/-- Of the reserved range exactly `size` bytes at an aligned address are left mapped, usable if
they were to be committed. -/
structure Delivered (before after : AddressSpace usizeRange) (base reserved size align : Nat)
    (commit : Bool) (ptr : Nat) : Prop where
  ne_null : ptr ≠ 0
  aligned : ptr % align = 0
  inside : base ≤ ptr ∧ ptr + size ≤ base + reserved
  mapped : ∀ a, ptr ≤ a → a < ptr + size → after.access a ≠ none
  usable : commit = true → ∀ a, ptr ≤ a → a < ptr + size → after.access a = some .readWrite
  trimmed : ∀ a, base ≤ a → a < base + before.pagesFor reserved * before.pageSize →
    ¬ (ptr ≤ a ∧ a < ptr + size) → after.access a = none
  elsewhere : ∀ a, ¬ (base ≤ a ∧ a < base + before.pagesFor reserved * before.pageSize) →
    after.access a = before.access a

/-- Null with nothing left mapped, or a part of the reservation. -/
def KeepsPromise (size : Nat) (commit : Bool) (align : Nat) (k : Kernel) : Prop :=
  ((allocAlignedFromOs size commit align k).1.1 = 0 ∧
      ∀ a, (allocAlignedFromOs size commit align k).2.space.access a = k.space.access a) ∨
    ∃ base, k.Reserves (allocSize size align) base ∧
      Delivered k.space (allocAlignedFromOs size commit align k).2.space base (allocSize size align)
        size align commit (allocAlignedFromOs size commit align k).1.1

/-- The kernel refuses the reservation, or the reservation is not too large for a `usize` and
the kernel grants the second `mmap` where there is one. -/
def Unhindered (size : Nat) (commit : Bool) (align : Nat) (k : Kernel) : Prop :=
  (∀ base, ¬ k.Reserves (allocSize size align) base) ∨
    (align - 1 + size < usizeRange ∧ (commit = true → k.Commits))

theorem Reserves.unique {base' : Nat} (h : k.Reserves size base) (h' : k.Reserves size base') :
    base = base' := by
  have hsame := h.1.symm.trans h'.1
  cases hsame
  rfl

/-- The answer to the second `mmap`. -/
theorem takeAnswer_granted (k : Kernel) (base size : Nat) (protection : Protection) :
    (k.Commits ∧ ∃ ptr, (k.granted base size protection).takeAnswer.1 = .granted ptr) ∨
      (¬ k.Commits ∧ ∃ lost, (k.granted base size protection).takeAnswer.1 = .refused lost) := by
  rcases hanswers : k.answers with _ | ⟨first, _ | ⟨answer, rest⟩⟩
  · exact .inr ⟨by simp [Commits, hanswers], fun _ => false, by
      simp [granted, takeAnswer, hanswers]⟩
  · exact .inr ⟨by simp [Commits, hanswers], fun _ => false, by
      simp [granted, takeAnswer, hanswers]⟩
  · cases answer with
    | granted ptr =>
        exact .inl ⟨⟨ptr, by simp [hanswers]⟩, ptr, by simp [granted, takeAnswer, hanswers]⟩
    | refused lost =>
        exact .inr ⟨by simp [Commits, hanswers], lost, by simp [granted, takeAnswer, hanswers]⟩

/-- The reserved pages end where the size and the alignment together end. -/
theorem Reserves.end_le (hreserves : k.Reserves (allocSize size align) base)
    (h : Proper k size align) (hfits : align - 1 + size < usizeRange) :
    base + (align + size) ≤ usizeRange := by
  have htop := hreserves.2.2.2.1
  rwa [h.pagesFor_allocSize hfits] at htop

theorem access_granted {a : Nat} (hreserves : k.Reserves (allocSize size align) base)
    (h : Proper k size align) (hfits : align - 1 + size < usizeRange) :
    (k.granted base (allocSize size align) .noAccess).space.access a =
      if base ≤ a ∧ a < base + (align + size) then some .noAccess else k.space.access a := by
  have haccess : (k.granted base (allocSize size align) .noAccess).space.access a = _ :=
    AddressSpace.access_setPages hreserves.2.2.1 fun _ => some Protection.noAccess
  rwa [h.pagesFor_allocSize hfits] at haccess

/-- The memory in the end, address by address. -/
theorem access_allocAlignedFromOs {a : Nat} (hreserves : k.Reserves (allocSize size align) base)
    (h : Proper k size align) (hfits : align - 1 + size < usizeRange) :
    (allocAlignedFromOs size commit align k).2.space.access a =
      if maskUp 64 align base ≤ a ∧ a < maskUp 64 align base + size then
        ((k.granted base (allocSize size align) .noAccess).committed (maskUp 64 align base) size
          commit).space.access a
      else if base ≤ a ∧ a < base + (align + size) then none else k.space.access a := by
  have hend := hreserves.end_le h hfits
  have hbase : base % k.space.pageSize = 0 := hreserves.2.2.1
  obtain ⟨-, hstart, hle, hlt⟩ := h.start hbase (by omega)
  rw [allocAlignedFromOs_of_reserves h hreserves]
  generalize maskUp 64 align base = start at hstart hle hlt ⊢
  have hpage := pageSize_committed (k.granted base (allocSize size align) .noAccess) start size
    commit
  have hpage' : (k.granted base (allocSize size align) .noAccess).space.pageSize =
    k.space.pageSize := rfl
  rw [hpage'] at hpage
  refine (access_trim (h.congr hpage) hfits (by rwa [hpage]) hend (by rwa [hpage]) hle
    (by rwa [hpage])).trans ?_
  by_cases hkept : start ≤ a ∧ a < start + size
  · rw [if_neg fun hmem => hmem.2.2 hkept, if_pos hkept]
  · rw [if_neg hkept]
    by_cases hmem : base ≤ a ∧ a < base + (align + size)
    · rw [if_pos ⟨hmem.1, hmem.2, hkept⟩, if_pos hmem]
    · rw [if_neg fun hall => hmem ⟨hall.1, hall.2.1⟩, if_neg hmem, space_committed]
      have hwhole : (k.granted base (allocSize size align) .noAccess).space.pagesFor size *
          (k.granted base (allocSize size align) .noAccess).space.pageSize = size :=
        AddressSpace.pagesFor_mul_of_dvd h.size_dvd
      have hgranted := access_granted (a := a) hreserves h hfits
      rw [if_neg hmem] at hgranted
      split
      · rw [AddressSpace.access_mapFixed_of_not_mem _ _ (by rwa [hwhole]), hgranted]
      · exact hgranted

/-- With the second `mmap` granted, what is kept is usable. -/
theorem access_kept {a : Nat} (hreserves : k.Reserves (allocSize size align) base)
    (h : Proper k size align) (hfits : align - 1 + size < usizeRange)
    (hcommits : commit = true → k.Commits) (hle : maskUp 64 align base ≤ a)
    (hlt : a < maskUp 64 align base + size) :
    (allocAlignedFromOs size commit align k).2.space.access a =
      some (if commit then .readWrite else .noAccess) := by
  have hend := hreserves.end_le h hfits
  obtain ⟨-, hstart, hbase, hgap⟩ := h.start hreserves.2.2.1 (by omega)
  rw [access_allocAlignedFromOs hreserves h hfits, if_pos ⟨hle, hlt⟩, space_committed]
  cases commit with
  | false =>
      have hmem : base ≤ a ∧ a < base + (align + size) := by omega
      exact (access_granted hreserves h hfits).trans (if_pos hmem)
  | true =>
      have hwhole : (k.granted base (allocSize size align) .noAccess).space.pagesFor size *
          (k.granted base (allocSize size align) .noAccess).space.pageSize = size :=
        AddressSpace.pagesFor_mul_of_dvd h.size_dvd
      rcases takeAnswer_granted k base (allocSize size align) .noAccess with
        ⟨-, ptr, hanswer⟩ | ⟨hnot, -⟩
      · rw [hanswer]
        exact AddressSpace.access_mapFixed_granted _ hstart (by rw [hwhole]; omega) hle (by rwa [hwhole])
      · exact absurd (hcommits rfl) hnot

/-- With the second `mmap` refused, nothing of what is kept is usable. -/
theorem access_kept_of_refused {a : Nat} (hreserves : k.Reserves (allocSize size align) base)
    (h : Proper k size align) (hfits : align - 1 + size < usizeRange) (hrefused : ¬ k.Commits)
    (hle : maskUp 64 align base ≤ a) (hlt : a < maskUp 64 align base + size) :
    (allocAlignedFromOs size true align k).2.space.access a ≠ some .readWrite := by
  have hend := hreserves.end_le h hfits
  obtain ⟨-, -, hbase, hgap⟩ := h.start hreserves.2.2.1 (by omega)
  rw [access_allocAlignedFromOs hreserves h hfits, if_pos ⟨hle, hlt⟩, space_committed, if_pos rfl]
  rcases takeAnswer_granted k base (allocSize size align) .noAccess with
    ⟨hcommits, -⟩ | ⟨-, lost, hanswer⟩
  · exact absurd hcommits hrefused
  · rw [hanswer]
    rcases AddressSpace.access_mapFixed_refused (a := a)
      (k.granted base (allocSize size align) .noAccess).space lost (maskUp 64 align base) size
      .readWrite with hlost | hkept
    · rw [hlost]
      exact (Option.some_ne_none _).symm
    · rw [hkept, access_granted hreserves h hfits, if_pos (by omega)]
      intro hsame
      cases hsame

/-- What a caller gets when nothing goes wrong after the reservation. -/
theorem delivered (hreserves : k.Reserves (allocSize size align) base) (h : Proper k size align)
    (hfits : align - 1 + size < usizeRange) (hcommits : commit = true → k.Commits) :
    Delivered k.space (allocAlignedFromOs size commit align k).2.space base (allocSize size align)
      size align commit (maskUp 64 align base) := by
  have hend := hreserves.end_le h hfits
  have hpages := h.pagesFor_allocSize hfits
  have hpage := k.space.one_lt_pageSize
  obtain ⟨haligned, -, hbase, hgap⟩ := h.start hreserves.2.2.1 (by omega)
  have hne : base ≠ 0 := hreserves.2.1
  constructor
  · omega
  · exact haligned
  · rw [h.allocSize_eq hfits]
    omega
  · intro a hle hlt
    rw [access_kept hreserves h hfits hcommits hle hlt]
    exact Option.some_ne_none _
  · intro hcommit a hle hlt
    rw [access_kept hreserves h hfits hcommits hle hlt, if_pos hcommit]
  · intro a hle hlt hout
    rw [hpages] at hlt
    rw [access_allocAlignedFromOs hreserves h hfits, if_neg hout, if_pos ⟨hle, hlt⟩]
  · intro a hout
    rw [hpages] at hout
    rw [access_allocAlignedFromOs hreserves h hfits, if_neg (by omega), if_neg hout]

theorem fst_allocAlignedFromOs (commit : Bool) (hreserves : k.Reserves (allocSize size align) base)
    (h : Proper k size align) :
    (allocAlignedFromOs size commit align k).1.1 = maskUp 64 align base := by
  rw [allocAlignedFromOs_of_reserves h hreserves]

theorem maskUp_ne_zero (hreserves : k.Reserves (allocSize size align) base)
    (h : Proper k size align) (hroom : base + align ≤ usizeRange) : maskUp 64 align base ≠ 0 := by
  obtain ⟨-, -, hle, -⟩ := h.start hreserves.2.2.1 hroom
  have hne : base ≠ 0 := hreserves.2.1
  omega

/-- A refusal of the second `mmap` goes unnoticed. -/
theorem not_keepsPromise_of_refused (hreserves : k.Reserves (allocSize size align) base)
    (h : Proper k size align) (hfits : align - 1 + size < usizeRange) (hrefused : ¬ k.Commits) :
    ¬ KeepsPromise size true align k := by
  have hend := hreserves.end_le h hfits
  have hpos := h.align_pos.trans_le h.align_le
  have hptr := fst_allocAlignedFromOs true hreserves h
  rintro (⟨hnull, -⟩ | ⟨base', hreserves', hdelivered⟩)
  · exact maskUp_ne_zero hreserves h (by omega) (hptr.symm.trans hnull)
  · have husable := hdelivered.usable rfl _ le_rfl (Nat.lt_add_of_pos_right hpos)
    rw [hptr] at husable
    exact access_kept_of_refused hreserves h hfits hrefused le_rfl (by omega) husable

/-- What does not fit in a `usize` is not reserved in full. -/
theorem not_keepsPromise_of_overflow (hreserves : k.Reserves (allocSize size align) base)
    (h : Proper k size align) (hroom : base + align ≤ usizeRange)
    (hover : ¬ align - 1 + size < usizeRange) : ¬ KeepsPromise size commit align k := by
  have hptr := fst_allocAlignedFromOs commit hreserves h
  obtain ⟨-, -, hle, -⟩ := h.start hreserves.2.2.1 hroom
  have hsum : allocSize size align = align - 1 + size - usizeRange := by
    have hlt := h.size_lt
    have halign := h.align_le
    rw [allocSize, Nat.mod_eq_sub_mod (by omega), Nat.mod_eq_of_lt (by omega)]
  rintro (⟨hnull, -⟩ | ⟨base', hreserves', hdelivered⟩)
  · exact maskUp_ne_zero hreserves h hroom (hptr.symm.trans hnull)
  · obtain rfl := hreserves.unique hreserves'
    have hinside := hdelivered.inside.2
    rw [hptr, hsum] at hinside
    have hlt := h.size_lt
    have halign := h.align_le
    have hpos := h.align_pos
    omega

theorem keepsPromise_of_unhindered (h : Proper k size align)
    (hunhindered : Unhindered size commit align k) : KeepsPromise size commit align k := by
  by_cases hrefused : ∀ base, ¬ k.Reserves (allocSize size align) base
  · obtain ⟨hnull, hspace⟩ := allocAlignedFromOs_of_refused commit h hrefused
    exact .inl ⟨hnull, fun a => by rw [hspace]⟩
  · obtain ⟨base, hreserves⟩ := not_forall_not.mp hrefused
    obtain ⟨hfits, hcommits⟩ := hunhindered.resolve_left hrefused
    refine .inr ⟨base, hreserves, ?_⟩
    have hdelivered := delivered hreserves h hfits hcommits
    rwa [← fst_allocAlignedFromOs commit hreserves h] at hdelivered

/-- The caller gets what it relies on exactly when nothing but the reservation can fail.  (A
reservation at the very end of the address space has no room for rounding up; it is possible
only if the sizes do not fit in a `usize`.) -/
theorem keepsPromise_iff (h : Proper k size align) :
    (Unhindered size commit align k → KeepsPromise size commit align k) ∧
      ((∀ base, k.Reserves (allocSize size align) base → base + align ≤ usizeRange) →
        KeepsPromise size commit align k → Unhindered size commit align k) := by
  refine ⟨keepsPromise_of_unhindered h, fun hroom hkeeps => ?_⟩
  by_cases hrefused : ∀ base, ¬ k.Reserves (allocSize size align) base
  · exact .inl hrefused
  · obtain ⟨base, hreserves⟩ := not_forall_not.mp hrefused
    have hfits : align - 1 + size < usizeRange := by
      by_contra hover
      exact not_keepsPromise_of_overflow hreserves h (hroom base hreserves) hover hkeeps
    refine .inr ⟨hfits, fun hcommit => ?_⟩
    by_contra hnot
    subst hcommit
    exact not_keepsPromise_of_refused hreserves h hfits hnot hkeeps

/-- A process with pages of 4 KB and nothing mapped. -/
def fresh (answers : List Answer) : Kernel where
  space := { pageSize := 4096, one_lt_pageSize := by decide, pages := fun _ => none }
  answers := answers
  shouldTry := .hugePage1gb

theorem proper_region (answers : List Answer) : Proper (fresh answers) regionSize regionSize where
  powerOfTwo := ⟨25, rfl⟩
  align_dvd := show (4096 : Nat) ∣ regionSize by decide
  size_dvd := show (4096 : Nat) ∣ regionSize by decide
  align_le := le_rfl
  size_lt := by decide

theorem reserves_region (answer : Answer) :
    (fresh [.granted 1052672, answer]).Reserves (allocSize regionSize regionSize) 1052672 :=
  ⟨rfl, by decide, show 1052672 % 4096 = 0 by decide,
    show 1052672 + (allocSize regionSize regionSize + 4096 - 1) / 4096 * 4096 ≤ usizeRange by
      decide,
    fun _ _ => rfl⟩

/-- A region is delivered out of a reservation that is not aligned. -/
theorem keepsPromise_iff_region :
    (fresh [.granted 1052672, .granted 0]).Reserves (allocSize regionSize regionSize) 1052672 ∧
      KeepsPromise regionSize true regionSize (fresh [.granted 1052672, .granted 0]) :=
  ⟨reserves_region _, (keepsPromise_iff (proper_region _)).1 (.inr ⟨by decide, fun _ => ⟨0, rfl⟩⟩)⟩

/-- The reservation of a region is granted, and to commit it is refused: the caller gets an
address all the same. -/
theorem not_keepsPromise_region :
    Proper (fresh [.granted 1052672, .refused fun _ => false]) regionSize regionSize ∧
      (fresh [.granted 1052672, .refused fun _ => false]).Reserves
        (allocSize regionSize regionSize) 1052672 ∧
      ¬ KeepsPromise regionSize true regionSize (fresh [.granted 1052672, .refused fun _ => false]) :=
  ⟨proper_region _, reserves_region _,
    not_keepsPromise_of_refused (reserves_region _) (proper_region _) (by decide) fun h => by
      obtain ⟨ptr, hptr⟩ := h
      cases hptr⟩

end Kernel

/-! ## What the allocator sees of it -/

/-- The list of mappings that the allocator's model of the kernel keeps is what is mapped. -/
structure Shows (space : AddressSpace usizeRange) (mappings : List (Nat × Nat)) : Prop where
  pos : ∀ m ∈ mappings, 0 < m.2
  access_iff : ∀ a, space.access a ≠ none ↔ ∃ m ∈ mappings, m.1 ≤ a ∧ a < m.1 + m.2

variable {k : Kernel} {size align : Nat} {commit : Bool} {os : Os}

/-- Unless the second `mmap` is refused, the path behaves as one aligned `mmap`, whose answer is
null exactly if the reservation is refused. -/
theorem Shows.allocAlignedFromOs (hshows : Shows k.space os.mappings) (h : k.Proper size align)
    (hunhindered : Kernel.Unhindered size commit align k) :
    ∃ os', os.mmap (k.allocAlignedFromOs size commit align).1.1 size align =
        (if (k.allocAlignedFromOs size commit align).1.1 = 0 then none
          else some (k.allocAlignedFromOs size commit align).1.1, os') ∧
      Shows (k.allocAlignedFromOs size commit align).2.space os'.mappings := by
  rcases Kernel.keepsPromise_of_unhindered h hunhindered with
    ⟨hnull, hsame⟩ | ⟨base, hreserves, hdelivered⟩
  · refine ⟨os.record (.refused size), ?_, hshows.pos, fun a => ?_⟩
    · rw [if_pos hnull, Os.mmap, if_neg fun hfresh => hfresh.1 hnull]
    · rw [hsame]
      exact hshows.access_iff a
  · have hvacant := hreserves.2
    have htop := hvacant.2.2.1
    generalize (k.allocAlignedFromOs size commit align).1.1 = ptr at hdelivered ⊢
    obtain ⟨hle, hinside⟩ := hdelivered.inside
    have hrounded := k.space.le_pagesFor_mul (Kernel.allocSize size align)
    have hsize := h.align_pos.trans_le h.align_le
    have hmapped : ∀ m ∈ os.mappings, ∀ a, m.1 ≤ a → a < m.1 + m.2 → base ≤ a →
        ¬ a < base + k.space.pagesFor (Kernel.allocSize size align) * k.space.pageSize :=
      fun m hm a hfrom hto hbase hlt =>
        (hshows.access_iff a).mpr ⟨m, hm, hfrom, hto⟩ (hvacant.access_eq_none hbase hlt)
    have hfresh : os.Fresh ptr size align := by
      refine ⟨hdelivered.ne_null, hdelivered.aligned, by omega, fun m hm => ?_⟩
      by_contra hmeet
      have hpos := hshows.pos m hm
      exact hmapped m hm (max ptr m.1) (by omega) (by omega) (by omega) (by omega)
    refine ⟨_, by rw [if_neg hdelivered.ne_null, Os.mmap, if_pos hfresh], ?_, fun a => ?_⟩
    · intro m hm
      rcases List.mem_cons.mp hm with rfl | hm
      · exact hsize
      · exact hshows.pos m hm
    · simp only [List.mem_cons, exists_eq_or_imp]
      by_cases hkept : ptr ≤ a ∧ a < ptr + size
      · exact iff_of_true (hdelivered.mapped a hkept.1 hkept.2) (.inl hkept)
      · rw [or_iff_right hkept]
        by_cases hin : base ≤ a ∧
            a < base + k.space.pagesFor (Kernel.allocSize size align) * k.space.pageSize
        · refine iff_of_false (not_not.mpr (hdelivered.trimmed a hin.1 hin.2 hkept)) ?_
          rintro ⟨m, hm, hfrom, hto⟩
          exact hmapped m hm a hfrom hto hin.1 hin.2
        · rw [hdelivered.elsewhere a hin]
          exact hshows.access_iff a

end Memalart.AlignedMapping
