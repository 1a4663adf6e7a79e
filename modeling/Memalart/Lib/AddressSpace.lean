/-
# The address space of a process

What `mmap` and `munmap` do to the pages of a process.  Lengths are rounded up to whole
pages, a mapping that the kernel places by itself lies where nothing was mapped, and one at a
fixed address replaces what was there.  What the kernel decides is an input: an answer for
each call.  When it refuses a fixed mapping, pages of the range may be lost all the same.
-/

import Mathlib.Algebra.Order.Ring.Nat
import Mathlib.Data.Nat.ModEq

namespace Memalart.Lib

/-- `PROT_NONE`, and `PROT_READ | PROT_WRITE`. -/
inductive Protection
  | noAccess
  | readWrite
deriving DecidableEq, Repr

/-- The answer to one `mmap`: an address, or a refusal with the pages that it costs. -/
inductive Answer
  | granted (ptr : Nat)
  | refused (lost : Nat → Bool)

/-- The pages of a process whose addresses lie below `top`. -/
structure AddressSpace (top : Nat) where
  pageSize : Nat
  one_lt_pageSize : 1 < pageSize
  pages : Nat → Option Protection

namespace AddressSpace

variable {top : Nat}

/-- How many pages cover this many bytes. -/
def pagesFor (s : AddressSpace top) (size : Nat) : Nat := (size + s.pageSize - 1) / s.pageSize

/-- How an address is mapped. -/
def access (s : AddressSpace top) (a : Nat) : Option Protection := s.pages (a / s.pageSize)

/-- Change the pages that hold these bytes. -/
def setPages (ptr size : Nat) (f : Nat → Option Protection) (s : AddressSpace top) :
    AddressSpace top :=
  { s with pages := fun n =>
      if ptr / s.pageSize ≤ n ∧ n < ptr / s.pageSize + s.pagesFor size then f n else s.pages n }

/-- Nothing is mapped where these bytes would go, and they stay below `top`. -/
def Vacant (s : AddressSpace top) (ptr size : Nat) : Prop :=
  ptr ≠ 0 ∧ ptr % s.pageSize = 0 ∧ ptr + s.pagesFor size * s.pageSize ≤ top ∧
    ∀ i < s.pagesFor size, s.pages (ptr / s.pageSize + i) = none

instance (s : AddressSpace top) (ptr size : Nat) : Decidable (s.Vacant ptr size) :=
  inferInstanceAs (Decidable (_ ∧ _ ∧ _ ∧ _))

/-- `mmap` at an address of the kernel's choice.  An answer that the kernel cannot give
counts as a refusal. -/
def mapAnywhere (answer : Answer) (size : Nat) (protection : Protection) (s : AddressSpace top) :
    Option Nat × AddressSpace top :=
  match answer with
  | .granted ptr =>
      if s.Vacant ptr size then (some ptr, s.setPages ptr size fun _ => some protection)
      else (none, s)
  | .refused _ => (none, s)

/-- `mmap` with `MAP_FIXED`.  The address has to be one of a page. -/
def mapFixed (answer : Answer) (ptr size : Nat) (protection : Protection)
    (s : AddressSpace top) : Option Nat × AddressSpace top :=
  if ptr % s.pageSize = 0 ∧ ptr + s.pagesFor size * s.pageSize ≤ top then
    match answer with
    | .granted _ => (some ptr, s.setPages ptr size fun _ => some protection)
    | .refused lost => (none, s.setPages ptr size fun n => if lost n then none else s.pages n)
  else (none, s)

/-- `munmap`.  The address has to be one of a page. -/
def munmap (ptr size : Nat) (s : AddressSpace top) : AddressSpace top :=
  if ptr % s.pageSize = 0 then s.setPages ptr size fun _ => none else s

/-! ## Pages and addresses -/

variable {s : AddressSpace top} {ptr size a : Nat}

theorem pageSize_pos (s : AddressSpace top) : 0 < s.pageSize :=
  Nat.lt_of_succ_lt s.one_lt_pageSize

@[simp] theorem pageSize_setPages (f : Nat → Option Protection) :
    (s.setPages ptr size f).pageSize = s.pageSize := rfl

@[simp] theorem pagesFor_setPages (f : Nat → Option Protection) (n : Nat) :
    (s.setPages ptr size f).pagesFor n = s.pagesFor n := rfl

@[simp] theorem pageSize_munmap : (s.munmap ptr size).pageSize = s.pageSize := by
  unfold munmap
  split
  · rfl
  · rfl

@[simp] theorem pageSize_mapFixed (answer : Answer) (protection : Protection) :
    (s.mapFixed answer ptr size protection).2.pageSize = s.pageSize := by
  unfold mapFixed
  split
  · cases answer with
    | granted _ => rfl
    | refused _ => rfl
  · rfl

theorem le_pagesFor_mul (s : AddressSpace top) (size : Nat) :
    size ≤ s.pagesFor size * s.pageSize := by
  have hpos := s.pageSize_pos
  have hsplit := Nat.div_add_mod' (size + s.pageSize - 1) s.pageSize
  have hmod := Nat.mod_lt (size + s.pageSize - 1) hpos
  unfold pagesFor
  omega

/-- What is short of whole pages by less than a page is rounded up to them. -/
theorem pagesFor_mul_of_lt (h : s.pageSize ∣ size) {short : Nat} (hle : short ≤ size)
    (hshort : short < s.pageSize) : s.pagesFor (size - short) * s.pageSize = size := by
  have hpos := s.pageSize_pos
  obtain ⟨n, rfl⟩ := h
  have hpages : s.pagesFor (s.pageSize * n - short) = n := by
    have hsplit : s.pageSize * n - short + s.pageSize - 1 =
        s.pageSize * n + (s.pageSize - 1 - short) := by omega
    rw [pagesFor, hsplit, Nat.mul_add_div hpos, Nat.div_eq_of_lt (by omega), Nat.add_zero]
  rw [hpages, Nat.mul_comm]

/-- A whole number of pages is covered exactly. -/
theorem pagesFor_mul_of_dvd (h : s.pageSize ∣ size) : s.pagesFor size * s.pageSize = size :=
  pagesFor_mul_of_lt h size.zero_le s.pageSize_pos

/-- The pages of a range that starts with a page hold the addresses of the range. -/
theorem mem_pages_iff (hptr : ptr % s.pageSize = 0) :
    (ptr / s.pageSize ≤ a / s.pageSize ∧ a / s.pageSize < ptr / s.pageSize + s.pagesFor size) ↔
      ptr ≤ a ∧ a < ptr + s.pagesFor size * s.pageSize := by
  have hpos := s.pageSize_pos
  have hmul : ptr / s.pageSize * s.pageSize = ptr := Nat.div_mul_cancel (Nat.dvd_of_mod_eq_zero hptr)
  rw [Nat.le_div_iff_mul_le hpos, hmul, Nat.div_lt_iff_lt_mul hpos, Nat.add_mul, hmul]

theorem access_setPages (hptr : ptr % s.pageSize = 0) (f : Nat → Option Protection) :
    (s.setPages ptr size f).access a =
      if ptr ≤ a ∧ a < ptr + s.pagesFor size * s.pageSize then f (a / s.pageSize)
      else s.access a := by
  unfold access setPages
  dsimp only
  by_cases hmem : ptr ≤ a ∧ a < ptr + s.pagesFor size * s.pageSize
  · rw [if_pos hmem, if_pos ((mem_pages_iff hptr).mpr hmem)]
  · rw [if_neg hmem, if_neg fun h => hmem ((mem_pages_iff hptr).mp h)]

theorem access_munmap (hptr : ptr % s.pageSize = 0) :
    (s.munmap ptr size).access a =
      if ptr ≤ a ∧ a < ptr + s.pagesFor size * s.pageSize then none else s.access a := by
  rw [munmap, if_pos hptr, access_setPages hptr]

/-- A fixed mapping touches its own range only. -/
theorem access_mapFixed_of_not_mem (answer : Answer) (protection : Protection)
    (hout : ¬ (ptr ≤ a ∧ a < ptr + s.pagesFor size * s.pageSize)) :
    (s.mapFixed answer ptr size protection).2.access a = s.access a := by
  unfold mapFixed
  split
  · next h =>
      cases answer with
      | granted _ => exact (access_setPages h.1 _).trans (if_neg hout)
      | refused _ => exact (access_setPages h.1 _).trans (if_neg hout)
  · rfl

theorem access_mapFixed_granted {answer : Nat} (protection : Protection)
    (hptr : ptr % s.pageSize = 0) (htop : ptr + s.pagesFor size * s.pageSize ≤ top)
    (hle : ptr ≤ a) (hlt : a < ptr + s.pagesFor size * s.pageSize) :
    (s.mapFixed (.granted answer) ptr size protection).2.access a = some protection := by
  rw [mapFixed, if_pos ⟨hptr, htop⟩]
  exact (access_setPages hptr _).trans (if_pos ⟨hle, hlt⟩)

/-- A refused fixed mapping leaves each address as it was, or unmapped. -/
theorem access_mapFixed_refused (s : AddressSpace top) (lost : Nat → Bool) (ptr size : Nat)
    (protection : Protection) :
    (s.mapFixed (.refused lost) ptr size protection).2.access a = none ∨
      (s.mapFixed (.refused lost) ptr size protection).2.access a = s.access a := by
  unfold mapFixed
  split
  · next h =>
      rw [access_setPages h.1]
      split
      · split
        · exact .inl rfl
        · exact .inr rfl
      · exact .inr rfl
  · exact .inr rfl

/-- No address of a vacant range is mapped. -/
theorem Vacant.access_eq_none (h : s.Vacant ptr size) (hle : ptr ≤ a)
    (hlt : a < ptr + s.pagesFor size * s.pageSize) : s.access a = none := by
  obtain ⟨-, hptr, -, hpages⟩ := h
  obtain ⟨hle', hlt'⟩ := (mem_pages_iff hptr).mpr ⟨hle, hlt⟩
  have hpage := hpages (a / s.pageSize - ptr / s.pageSize) (by omega)
  rwa [Nat.add_sub_cancel' hle'] at hpage

end AddressSpace

end Memalart.Lib
