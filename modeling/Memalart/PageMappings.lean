/-
# The pages behind the mappings

The allocator's model of the operating system keeps a list of mappings.  Underneath, the crate
maps regions at an aligned address, maps other memory wherever the kernel likes, with huge
pages where that is worth a try, and unmaps with the size it has asked for.  Over any run of
these calls the list is what is mapped: every call gets what the list gives, every byte of it
can be written to, and nothing is left mapped that the list does not have.
-/

import Memalart.AlignedMapping
import Memalart.Lib.Load

namespace Memalart.AlignedMapping

open Memalart.Lib

/-- How many bytes are mapped when so many are asked for. -/
def wholePages (pageSize size : Nat) : Nat := (size + pageSize - 1) / pageSize * pageSize

/-! ## One call -/

/-- The memory that a call has given, and what else it has changed: nothing. -/
structure Given (before after : AddressSpace usizeRange) (ptr size align : Nat) : Prop where
  ne_null : ptr ≠ 0
  aligned : ptr % align = 0
  page : ptr % before.pageSize = 0
  top : ptr + size ≤ usizeRange
  vacant : ∀ a, ptr ≤ a → a < ptr + size → before.access a = none
  usable : ∀ a, ptr ≤ a → a < ptr + size → after.access a = some .readWrite
  elsewhere : ∀ a, ¬ (ptr ≤ a ∧ a < ptr + size) → after.access a = before.access a

/-- Null and nothing changed, or memory. -/
def Asked (before after : AddressSpace usizeRange) (ptr size align : Nat) : Prop :=
  after.pageSize = before.pageSize ∧
    ((ptr = 0 ∧ ∀ a, after.access a = before.access a) ∨ Given before after ptr size align)

namespace Kernel

variable {k k' : Kernel} {size ptr hugePage : Nat} {protection : Protection}

/-- The kernel has placed a mapping. -/
def Places (k k' : Kernel) (ptr size : Nat) (protection : Protection) : Prop :=
  k.space.Vacant ptr size ∧ k'.space = k.space.setPages ptr size fun _ => some protection

/-- An attempt has failed and left the pages alone, or it has placed a mapping. -/
def Tries (k : Kernel) (size : Nat) (protection : Protection) (result : Option Nat × Kernel) :
    Prop :=
  (result.1 = none ∧ result.2.space = k.space) ∨
    ∃ ptr, result.1 = some ptr ∧ k.Places result.2 ptr size protection

theorem Tries.congr {result : Option Nat × Kernel} (h : k'.Tries size protection result)
    (hspace : k'.space = k.space) : k.Tries size protection result := by
  simpa only [Tries, Places, hspace] using h

theorem mapAnywhere_tries (hspace : k'.space = k.space) (answer : Answer) :
    k.Tries size protection ((k'.space.mapAnywhere answer size protection).1,
      { k' with space := (k'.space.mapAnywhere answer size protection).2 }) := by
  cases answer with
  | refused lost => exact .inl ⟨rfl, hspace⟩
  | granted ptr =>
      rw [AddressSpace.mapAnywhere, hspace]
      by_cases hvacant : k.space.Vacant ptr size
      · rw [if_pos hvacant]
        exact .inr ⟨ptr, rfl, hvacant, rfl⟩
      · rw [if_neg hvacant]
        exact .inl ⟨rfl, rfl⟩

theorem mmap_tries (k : Kernel) (size : Nat) (protection : Protection) :
    k.Tries size protection (k.mmap size protection) :=
  mapAnywhere_tries k.space_takeAnswer k.takeAnswer.1

/-- A whole number of huge pages is mapped as it is. -/
theorem mmapHuge_tries (k : Kernel) (hpos : 0 < hugePage) (hdvd : hugePage ∣ size)
    (protection : Protection) : k.Tries size protection (k.mmapHuge hugePage size protection) := by
  have hexact : (size + hugePage - 1) / hugePage * hugePage = size := by
    obtain ⟨n, rfl⟩ := hdvd
    rw [Nat.add_sub_assoc hpos, Nat.mul_add_div hpos, Nat.div_eq_of_lt (by omega), Nat.add_zero,
      Nat.mul_comm]
  have hspace := k.space_takeAnswer
  unfold mmapHuge
  rw [hexact]
  generalize k.takeAnswer = taken at hspace
  obtain ⟨answer, k₁⟩ := taken
  cases answer with
  | refused lost => exact .inl ⟨rfl, hspace⟩
  | granted ptr =>
      simp only
      split
      · exact mapAnywhere_tries hspace (.granted ptr)
      · exact .inl ⟨rfl, hspace⟩

/-- The second attempt finds the pages as they were. -/
theorem mmapHugeRetried_tries (k : Kernel) (hpos : 0 < hugePage) (hdvd : hugePage ∣ size)
    (hdvd₂ : bytesOf2mb ∣ size) (protection : Protection) :
    k.Tries size protection (k.mmapHugeRetried hugePage size protection) := by
  have hfirst := k.mmapHuge_tries hpos hdvd protection
  unfold mmapHugeRetried
  generalize k.mmapHuge hugePage size protection = first at hfirst
  obtain ⟨_ | ptr, k₁⟩ := first
  · have hspace : k₁.space = k.space := by simpa [Tries] using hfirst
    exact (mmapHuge_tries { k₁ with shouldTry := .hugePage2mb } (by decide) hdvd₂ protection).congr
      hspace
  · exact hfirst

theorem mmapNotHuge_places (h : k'.Tries size protection (k'.mmap size protection))
    (hspace : k'.space = k.space) :
    ((k'.mmapNotHuge size protection).1 = 0 ∧
        (k'.mmapNotHuge size protection).2.space = k.space) ∨
      k.Places (k'.mmapNotHuge size protection).2 (k'.mmapNotHuge size protection).1 size
        protection := by
  have hcases := h.congr hspace
  unfold mmapNotHuge
  generalize k'.mmap size protection = result at hcases
  obtain ⟨_ | ptr, k₁⟩ := result
  · exact .inl ⟨rfl, by simpa [Tries] using hcases⟩
  · exact .inr (by simpa [Tries] using hcases)

/-- `custom_mmap` fails and leaves the pages alone, or it places what it was asked for. -/
theorem customMmap_places (k : Kernel) (size : Nat) (protection : Protection) :
    ((k.customMmap size protection).1.1 = 0 ∧ (k.customMmap size protection).2.space = k.space) ∨
      k.Places (k.customMmap size protection).2 (k.customMmap size protection).1.1 size
        protection := by
  unfold customMmap
  simp only
  split
  · next hhuge =>
      have h1gb : bytesOf2mb ∣ bytesOf1gb := by decide
      have hdvd₂ : bytesOf2mb ∣ size := by
        rcases hhuge with h | h
        · exact Nat.dvd_of_mod_eq_zero h.1
        · exact h1gb.trans (Nat.dvd_of_mod_eq_zero h.1)
      generalize hpage : (if size % bytesOf1gb = 0 ∧ k.shouldTry = .hugePage1gb then bytesOf1gb
        else bytesOf2mb) = hugePage
      have hfits : 0 < hugePage ∧ hugePage ∣ size := by
        rw [← hpage]
        split
        · next h => exact ⟨by decide, Nat.dvd_of_mod_eq_zero h.1⟩
        · exact ⟨by decide, hdvd₂⟩
      have hretried := k.mmapHugeRetried_tries hfits.1 hfits.2 hdvd₂ protection
      generalize k.mmapHugeRetried hugePage size protection = result at hretried
      obtain ⟨_ | ptr, k₁⟩ := result
      · have hspace : k₁.space = k.space := by simpa [Tries] using hretried
        exact mmapNotHuge_places
          (mmap_tries { k₁ with shouldTry := .notHugePage } size protection) hspace
      · exact .inr (by simpa [Tries] using hretried)
  · exact mmapNotHuge_places (k.mmap_tries size protection) rfl

theorem allocFromOs_asked (k : Kernel) (size : Nat) :
    Asked k.space (k.allocFromOs_ size true).2.space (k.allocFromOs_ size true).1.1
      (wholePages k.space.pageSize size) k.space.pageSize := by
  have hplaces := k.customMmap_places size .readWrite
  rw [allocFromOs_, if_pos rfl]
  generalize k.customMmap size .readWrite = result at hplaces ⊢
  rcases hplaces with ⟨hnull, hspace⟩ | ⟨hvacant, hspace⟩
  · rw [hspace]
    exact ⟨rfl, .inl ⟨hnull, fun a => rfl⟩⟩
  · have hpage := hvacant.2.1
    rw [hspace]
    refine ⟨rfl, .inr ?_⟩
    constructor
    · exact hvacant.1
    · exact hpage
    · exact hpage
    · exact hvacant.2.2.1
    · exact fun a => hvacant.access_eq_none
    · exact fun a hle hlt => (AddressSpace.access_setPages hpage _).trans (if_pos ⟨hle, hlt⟩)
    · exact fun a hout => (AddressSpace.access_setPages hpage _).trans (if_neg hout)

theorem pageSize_trim (k : Kernel) (base start size align : Nat) :
    (k.trim base start size align).space.pageSize = k.space.pageSize := by
  unfold trim
  dsimp only
  split
  · exact AddressSpace.pageSize_munmap.trans (pageSize_unmapHead k base start)
  · exact pageSize_unmapHead k base start

variable {align : Nat}

theorem pageSize_allocAlignedFromOs (commit : Bool) (h : Proper k size align) :
    (k.allocAlignedFromOs size commit align).2.space.pageSize = k.space.pageSize := by
  by_cases hrefused : ∀ base, ¬ k.Reserves (allocSize size align) base
  · rw [(allocAlignedFromOs_of_refused commit h hrefused).2]
  · obtain ⟨base, hreserves⟩ := not_forall_not.mp hrefused
    rw [allocAlignedFromOs_of_reserves h hreserves, pageSize_trim, pageSize_committed]
    rfl

theorem allocAlignedFromOs_asked (h : Proper k size align)
    (hunhindered : Unhindered size true align k) :
    Asked k.space (k.allocAlignedFromOs size true align).2.space
      (k.allocAlignedFromOs size true align).1.1 (wholePages k.space.pageSize size) align := by
  have hwhole : wholePages k.space.pageSize size = size :=
    AddressSpace.pagesFor_mul_of_dvd h.size_dvd
  rw [hwhole]
  refine ⟨pageSize_allocAlignedFromOs true h, (keepsPromise_of_unhindered h hunhindered).imp id ?_⟩
  rintro ⟨base, hreserves, hdelivered⟩
  obtain ⟨hle, hinside⟩ := hdelivered.inside
  have hvacant := hreserves.2
  have htop := hvacant.2.2.1
  have hrounded := k.space.le_pagesFor_mul (allocSize size align)
  constructor
  · exact hdelivered.ne_null
  · exact hdelivered.aligned
  · exact Nat.mod_eq_zero_of_dvd (h.align_dvd.trans (Nat.dvd_of_mod_eq_zero hdelivered.aligned))
  · omega
  · exact fun a hfrom hto => hvacant.access_eq_none (by omega) (by omega)
  · exact hdelivered.usable rfl
  · intro a hout
    by_cases hin : base ≤ a ∧
        a < base + k.space.pagesFor (allocSize size align) * k.space.pageSize
    · rw [hdelivered.trimmed a hin.1 hin.2 hout, hvacant.access_eq_none hin.1 hin.2]
    · exact hdelivered.elsewhere a hin

end Kernel

/-! ## The calls of the crate -/

/-- The kernel, and the addresses and sizes that the crate has got and not yet given back. -/
structure Process where
  kernel : Kernel
  mapped : List (Nat × Nat)

inductive Call
  /-- A call for memory, with the address that it returns, `0` for null. -/
  | asked (ptr size align : Nat)
  | freed (ptr size : Nat)
deriving DecidableEq, Repr

namespace Process

/-- The caller takes note of what it has got. -/
def answered (p : Process) (ptr size : Nat) (k : Kernel) : Process where
  kernel := k
  mapped := if ptr = 0 then p.mapped else (ptr, size) :: p.mapped

/-- A call of the crate.  What is freed has been got from here, with the same size; a caller of
`alloc_aligned_from_os` passes proper arguments, and the kernel does not refuse to commit what
it has reserved. -/
inductive Step : Process → Call → Process → Prop
  | allocFromOs (p : Process) {size : Nat} (hpos : 0 < size) :
      Step p
        (.asked (p.kernel.allocFromOs_ size true).1.1 size p.kernel.space.pageSize)
        (p.answered (p.kernel.allocFromOs_ size true).1.1 size
          (p.kernel.allocFromOs_ size true).2)
  | allocAlignedFromOs (p : Process) {size align : Nat} (h : p.kernel.Proper size align)
      (hunhindered : Kernel.Unhindered size true align p.kernel) :
      Step p
        (.asked (p.kernel.allocAlignedFromOs size true align).1.1 size align)
        (p.answered (p.kernel.allocAlignedFromOs size true align).1.1 size
          (p.kernel.allocAlignedFromOs size true align).2)
  | free (p : Process) {ptr size : Nat} (hmem : (ptr, size) ∈ p.mapped) :
      Step p (.freed ptr size) ⟨p.kernel.munmapRaw ptr size, p.mapped.erase (ptr, size)⟩

/-- The pages of what the crate has got. -/
def extents (p : Process) : List Extent :=
  p.mapped.map fun m => ⟨m.1, wholePages p.kernel.space.pageSize m.2⟩

end Process

/-- The same call on the list of mappings. -/
inductive Serves : Os → Call → Os → Prop
  | asked {os os' : Os} {ptr size align : Nat}
      (h : os.mmap ptr size align = (if ptr = 0 then none else some ptr, os')) :
      Serves os (.asked ptr size align) os'
  | freed (os : Os) (ptr size : Nat) : Serves os (.freed ptr size) (os.munmap ptr size)

/-! ## The list of mappings is what is mapped -/

/-- Every address of a mapping is mapped. -/
def Covers (space : AddressSpace usizeRange) (m : Nat × Nat) : Prop :=
  0 < m.2 ∧ ∀ a, m.1 ≤ a → a < m.1 + m.2 → space.access a ≠ none

/-- The list of mappings has what the crate has got and what was there before it.  No address
lies in two extents of the crate; those that lie in one can be read and written, and the others
are as they were. -/
structure Mirrors (before : AddressSpace usizeRange) (others : List (Nat × Nat)) (p : Process)
    (os : Os) : Prop where
  pageSize : p.kernel.space.pageSize = before.pageSize
  perm : os.mappings.Perm (p.mapped ++ others)
  page : ∀ m ∈ p.mapped, 0 < m.2 ∧ m.1 % p.kernel.space.pageSize = 0
  access : ∀ a, (load p.extents a = 0 ∧ p.kernel.space.access a = before.access a) ∨
    (load p.extents a = 1 ∧ p.kernel.space.access a = some .readWrite ∧ before.access a = none)

namespace Mirrors

variable {before : AddressSpace usizeRange} {others : List (Nat × Nat)} {p : Process} {os : Os}

theorem load_pos {m : Nat × Nat} {a : Nat} (hm : m ∈ p.mapped) (hle : m.1 ≤ a)
    (hlt : a < m.1 + wholePages p.kernel.space.pageSize m.2) : 0 < load p.extents a :=
  load_pos_iff.mpr ⟨_, List.mem_map_of_mem hm, hle, hlt⟩

theorem covers (h : Mirrors before others p os) (hothers : ∀ m ∈ others, Covers before m)
    {m : Nat × Nat} (hm : m ∈ os.mappings) : Covers p.kernel.space m := by
  rcases List.mem_append.mp (h.perm.mem_iff.mp hm) with hm | hm
  · refine ⟨(h.page m hm).1, fun a hle hlt => ?_⟩
    have hpos : 0 < load p.extents a :=
      load_pos hm hle (hlt.trans_le (Nat.add_le_add_left (p.kernel.space.le_pagesFor_mul m.2) _))
    rcases h.access a with ⟨hzero, -⟩ | ⟨-, haccess, -⟩
    · exact absurd hzero hpos.ne'
    · rw [haccess]
      exact Option.some_ne_none _
  · refine ⟨(hothers m hm).1, fun a hle hlt => ?_⟩
    have hbefore := (hothers m hm).2 a hle hlt
    rcases h.access a with ⟨-, hsame⟩ | ⟨-, -, hnone⟩
    · rwa [hsame]
    · exact absurd hnone hbefore

/-- Memory that the kernel has given is fresh for the list. -/
theorem fresh (h : Mirrors before others p os) (hothers : ∀ m ∈ others, Covers before m)
    {after : AddressSpace usizeRange} {ptr size align : Nat} (hpos : 0 < size)
    (hgiven : Given p.kernel.space after ptr (wholePages p.kernel.space.pageSize size) align) :
    os.Fresh ptr size align := by
  have hle : size ≤ wholePages p.kernel.space.pageSize size := p.kernel.space.le_pagesFor_mul size
  refine ⟨hgiven.ne_null, hgiven.aligned, (Nat.add_le_add_left hle _).trans hgiven.top,
    fun m hm => ?_⟩
  by_contra hmeet
  obtain ⟨hpos', hmapped⟩ := h.covers hothers hm
  exact hmapped (max ptr m.1) (by omega) (by omega) (hgiven.vacant _ (by omega) (by omega))

theorem refused (h : Mirrors before others p os) {k : Kernel} {os' : Os}
    (hpage : k.space.pageSize = p.kernel.space.pageSize)
    (hsame : ∀ a, k.space.access a = p.kernel.space.access a)
    (hos : os'.mappings = os.mappings) : Mirrors before others ⟨k, p.mapped⟩ os' where
  pageSize := hpage.trans h.pageSize
  perm := hos ▸ h.perm
  page := fun m hm => ⟨(h.page m hm).1, show m.1 % k.space.pageSize = 0 from
    hpage ▸ (h.page m hm).2⟩
  access := fun a => by
    simpa only [Process.extents, hpage, hsame] using h.access a

theorem granted (h : Mirrors before others p os) {k : Kernel} {os' : Os} {ptr size align : Nat}
    (hpos : 0 < size) (hpage : k.space.pageSize = p.kernel.space.pageSize)
    (hgiven : Given p.kernel.space k.space ptr (wholePages p.kernel.space.pageSize size) align)
    (hos : os'.mappings = (ptr, size) :: os.mappings) :
    Mirrors before others ⟨k, (ptr, size) :: p.mapped⟩ os' := by
  constructor
  · exact hpage.trans h.pageSize
  · rw [hos]
    exact h.perm.cons _
  · intro m hm
    show 0 < m.2 ∧ m.1 % k.space.pageSize = 0
    rw [hpage]
    rcases List.mem_cons.mp hm with rfl | hm
    · exact ⟨hpos, hgiven.page⟩
    · exact h.page m hm
  · intro a
    have hextents : Process.extents ⟨k, (ptr, size) :: p.mapped⟩ =
        ⟨ptr, wholePages p.kernel.space.pageSize size⟩ :: p.extents := by
      simp only [Process.extents, hpage, List.map_cons]
    rw [hextents, load_cons]
    by_cases hin : Extent.Holds ⟨ptr, wholePages p.kernel.space.pageSize size⟩ a
    · have hnone := hgiven.vacant a hin.1 hin.2
      rw [if_pos hin]
      rcases h.access a with ⟨hzero, hsame⟩ | ⟨-, hmapped, -⟩
      · exact .inr ⟨by rw [hzero], hgiven.usable a hin.1 hin.2, hsame.symm.trans hnone⟩
      · exact absurd (hmapped.symm.trans hnone) (Option.some_ne_none _)
    · rw [if_neg hin, Nat.zero_add]
      show _ ∧ k.space.access a = _ ∨ _ ∧ k.space.access a = _ ∧ _
      rw [hgiven.elsewhere a hin]
      exact h.access a

/-- Memory that is freed is mapped once, and no longer. -/
theorem freed (h : Mirrors before others p os) {ptr size : Nat} (hmem : (ptr, size) ∈ p.mapped) :
    Mirrors before others ⟨p.kernel.munmapRaw ptr size, p.mapped.erase (ptr, size)⟩
      (os.munmap ptr size) := by
  have hpage : (p.kernel.munmapRaw ptr size).space.pageSize = p.kernel.space.pageSize :=
    AddressSpace.pageSize_munmap
  constructor
  · exact hpage.trans h.pageSize
  · show (os.mappings.erase (ptr, size)).Perm _
    rw [← List.erase_append_left _ hmem]
    exact h.perm.erase _
  · intro m hm
    show 0 < m.2 ∧ m.1 % (p.kernel.munmapRaw ptr size).space.pageSize = 0
    rw [hpage]
    exact h.page m (List.mem_of_mem_erase hm)
  · intro a
    have haccess : (p.kernel.munmapRaw ptr size).space.access a =
        if Extent.Holds ⟨ptr, wholePages p.kernel.space.pageSize size⟩ a then none
        else p.kernel.space.access a := AddressSpace.access_munmap (h.page _ hmem).2
    have hload : load p.extents a =
        (if Extent.Holds ⟨ptr, wholePages p.kernel.space.pageSize size⟩ a then 1 else 0) +
          load (Process.extents ⟨p.kernel.munmapRaw ptr size, p.mapped.erase (ptr, size)⟩) a := by
      refine (load_perm ?_).trans load_cons
      simpa only [Process.extents, hpage, List.map_cons] using
        (List.perm_cons_erase hmem).map _
    show _ ∧ (p.kernel.munmapRaw ptr size).space.access a = _ ∨
      _ ∧ (p.kernel.munmapRaw ptr size).space.access a = _ ∧ _
    rw [haccess]
    by_cases hin : Extent.Holds ⟨ptr, wholePages p.kernel.space.pageSize size⟩ a
    · rw [if_pos hin] at hload ⊢
      rcases h.access a with ⟨hzero, -⟩ | ⟨hone, -, hnone⟩
      · omega
      · exact .inl ⟨by omega, hnone.symm⟩
    · rw [if_neg hin, Nat.zero_add] at hload
      rw [if_neg hin, ← hload]
      exact h.access a

theorem asked (h : Mirrors before others p os) (hothers : ∀ m ∈ others, Covers before m)
    {k : Kernel} {ptr size align : Nat} (hpos : 0 < size)
    (hasked : Asked p.kernel.space k.space ptr (wholePages p.kernel.space.pageSize size) align) :
    ∃ os', Serves os (.asked ptr size align) os' ∧
      Mirrors before others (p.answered ptr size k) os' := by
  obtain ⟨hpage, ⟨hnull, hsame⟩ | hgiven⟩ := hasked
  · refine ⟨os.record (.refused size), .asked ?_, ?_⟩
    · rw [if_pos hnull, Os.mmap, if_neg fun hfresh => hfresh.1 hnull]
    · rw [Process.answered, if_pos hnull]
      exact h.refused hpage hsame rfl
  · have hfresh := h.fresh hothers hpos hgiven
    refine ⟨_, .asked (by rw [if_neg hgiven.ne_null, Os.mmap, if_pos hfresh]), ?_⟩
    rw [Process.answered, if_neg hgiven.ne_null]
    exact h.granted hpos hpage hgiven rfl

theorem step (h : Mirrors before others p os) (hothers : ∀ m ∈ others, Covers before m)
    {call : Call} {p' : Process} (hstep : Process.Step p call p') :
    ∃ os', Serves os call os' ∧ Mirrors before others p' os' := by
  cases hstep with
  | allocFromOs hpos => exact h.asked hothers hpos (p.kernel.allocFromOs_asked _)
  | allocAlignedFromOs hproper hunhindered =>
      exact h.asked hothers (hproper.align_pos.trans_le hproper.align_le)
        (Kernel.allocAlignedFromOs_asked hproper hunhindered)
  | free hmem => exact ⟨_, .freed os _ _, h.freed hmem⟩

end Mirrors

/-- The list of mappings serves every run of the crate's calls with the same answers.  What the
crate has got and not given back is mapped once and can be read and written, and every other
address is as it was. -/
theorem refines_of_run {p p' : Process} {os : Os} {calls : List Call}
    (hshows : Shows p.kernel.space os.mappings) (hnone : p.mapped = [])
    (hrun : Run Process.Step p calls p') :
    ∃ os', Run Serves os calls os' ∧ Mirrors p.kernel.space os.mappings p' os' := by
  have hothers : ∀ m ∈ os.mappings, Covers p.kernel.space m := fun m hm =>
    ⟨hshows.pos m hm, fun a hle hlt => (hshows.access_iff a).mpr ⟨m, hm, hle, hlt⟩⟩
  refine hrun.simulate (fun p call p' os h hstep => h.step hothers hstep) ⟨rfl, ?_, ?_, ?_⟩
  · rw [hnone]
    exact .refl _
  · rw [hnone]
    exact fun m hm => absurd hm List.not_mem_nil
  · intro a
    rw [Process.extents, hnone]
    exact .inl ⟨rfl, rfl⟩

namespace Kernel

/-- Memory lies below a region that is reserved after it. -/
def started : Kernel := fresh [.granted 4096, .granted 1052672, .granted 0]

theorem started_reserves : started.Reserves 5001 4096 :=
  ⟨rfl, by decide, by decide, by decide, fun _ _ => rfl⟩

theorem started_allocFromOs_ :
    started.allocFromOs_ 5001 true =
      ((4096, .notHugePage), started.granted 4096 5001 .readWrite) := by
  rw [allocFromOs_, if_pos rfl, customMmap_of_odd (by decide),
    mmapNotHuge_of_reserves started_reserves]

theorem started_reserves_region :
    (started.granted 4096 5001 .readWrite).Reserves (allocSize regionSize regionSize) 1052672 := by
  refine ⟨rfl, by decide, rfl, show 1052672 + (allocSize regionSize regionSize + 4096 - 1) /
    4096 * 4096 ≤ usizeRange by decide, fun i _ => ?_⟩
  show (if 4096 / 4096 ≤ 1052672 / 4096 + i ∧
    1052672 / 4096 + i < 4096 / 4096 + (5001 + 4096 - 1) / 4096 then _ else none) = none
  exact if_neg (by omega)

end Kernel

/-- A process that nothing has been mapped in gets memory and a region, and frees the memory. -/
theorem refines_of_run_region :
    ∃ p' os', Run Process.Step ⟨Kernel.started, []⟩
        [.asked 4096 5001 4096, .asked regionSize regionSize regionSize, .freed 4096 5001] p' ∧
      Run Serves (Os.initial [])
        [.asked 4096 5001 4096, .asked regionSize regionSize regionSize, .freed 4096 5001] os' ∧
      Mirrors Kernel.started.space [] p' os' ∧ p'.mapped = [(regionSize, regionSize)] := by
  have hproper : (Kernel.started.granted 4096 5001 .readWrite).Proper regionSize regionSize :=
    (Kernel.proper_region []).congr rfl
  have hfirst : Process.Step ⟨Kernel.started, []⟩ (.asked 4096 5001 4096)
      ⟨Kernel.started.granted 4096 5001 .readWrite, [(4096, 5001)]⟩ := by
    have hstep := @Process.Step.allocFromOs ⟨Kernel.started, []⟩ 5001 (by decide)
    rwa [Kernel.started_allocFromOs_] at hstep
  have hsecond := Process.Step.allocAlignedFromOs
    ⟨Kernel.started.granted 4096 5001 .readWrite, [(4096, 5001)]⟩ hproper
    (.inr ⟨by decide, fun _ => ⟨0, rfl⟩⟩)
  have hptr := Kernel.fst_allocAlignedFromOs true Kernel.started_reserves_region hproper
  rw [show maskUp 64 regionSize 1052672 = regionSize by decide +kernel] at hptr
  simp only [hptr, Process.answered, if_neg (show regionSize ≠ 0 by decide)] at hsecond
  have hthird := Process.Step.free
    ⟨((Kernel.started.granted 4096 5001 .readWrite).allocAlignedFromOs regionSize true
      regionSize).2, [(regionSize, regionSize), (4096, 5001)]⟩
    (show (4096, 5001) ∈ [(regionSize, regionSize), (4096, 5001)] by decide)
  have hrun := Run.cons hfirst (.cons hsecond (.cons hthird (.nil _)))
  have hshows : Shows Kernel.started.space (Os.initial []).mappings :=
    ⟨fun m hm => absurd hm List.not_mem_nil, fun a => by
      simp [Os.initial, Kernel.started, Kernel.fresh, AddressSpace.access]⟩
  obtain ⟨os', hserves, hmirrors⟩ := refines_of_run hshows rfl hrun
  exact ⟨_, os', hrun, hserves, hmirrors, by decide⟩

end Memalart.AlignedMapping
