/-
# What a memory manager is for

A heap is the multiset of the extents of addresses that are handed out.  An extent that is
granted meets none of those that are out already; one that is given back was granted before.
This is all that a caller of a memory manager relies on.
-/

import Mathlib.Data.Multiset.AddSub
import Memalart.Lib.Run

namespace Memalart.Lib

/-- A range of addresses. -/
structure Extent where
  start : Nat
  length : Nat
deriving DecidableEq, Repr

/-- No address lies in both. -/
def Extent.Apart (e e' : Extent) : Prop :=
  e.start + e.length ≤ e'.start ∨ e'.start + e'.length ≤ e.start

theorem Extent.Apart.symm {e e' : Extent} (h : e.Apart e') : e'.Apart e := Or.symm h

/-- Extents are apart when they have no address in common. -/
theorem Extent.apart_of_forall {e e' : Extent} (hpos : 0 < e.length) (hpos' : 0 < e'.length)
    (h : ∀ a, e.start ≤ a → a < e.start + e.length → e'.start ≤ a → ¬a < e'.start + e'.length) :
    e.Apart e' := by
  have hmax := h (max e.start e'.start) (le_max_left _ _)
  unfold Apart
  omega

/-- The extents that are out. -/
abbrev Heap := Multiset Extent

namespace Heap

inductive Action
  | grant (e : Extent)
  | giveBack (e : Extent)
  /-- Something that callers do not see. -/
  | silent
deriving DecidableEq, Repr

inductive Step : Heap → Action → Heap → Prop
  | grant {h : Heap} (e : Extent) (hapart : ∀ x ∈ h, e.Apart x) : Step h (.grant e) (e ::ₘ h)
  | giveBack {h : Heap} (e : Extent) (hmem : e ∈ h) : Step h (.giveBack e) (h.erase e)
  | silent (h : Heap) : Step h .silent h

/-- Any two extents that are out are apart. -/
def AllApart (h : Heap) : Prop := ∀ e ∈ h, ∀ x ∈ h.erase e, e.Apart x

/-- In every run from the empty heap they stay so. -/
theorem allApart_of_run {h : Heap} {actions : List Action} (hrun : Run Step 0 actions h) :
    AllApart h := by
  refine hrun.invariant (I := AllApart) (fun h action h' hold hstep => ?_) fun e he => by simp at he
  cases hstep with
  | silent => exact hold
  | giveBack e hmem =>
      intro x hx y hy
      rw [Multiset.erase_comm] at hy
      exact hold x (Multiset.mem_of_mem_erase hx) y (Multiset.mem_of_mem_erase hy)
  | grant e hapart =>
      intro x hx y hy
      by_cases hxe : x = e
      · subst hxe
        rw [Multiset.erase_cons_head] at hy
        exact hapart y hy
      · rw [Multiset.erase_cons_tail _ (Ne.symm hxe)] at hy
        have hmem : x ∈ h := (Multiset.mem_cons.mp hx).resolve_left hxe
        rcases Multiset.mem_cons.mp hy with rfl | hy
        · exact (hapart x hmem).symm
        · exact hold x hmem y hy

end Heap

end Memalart.Lib
