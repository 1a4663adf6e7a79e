/-
# Vectors that grow

What the rest of the allocator relies on when it allocates from itself, and the
vectors on top of it: a buffer is allocated and given back once, and the elements
that a caller enters leave its hands only if there is room.
-/

import Memalart.StateSteps

namespace Memalart

open Memalart.Lib ThreadLocalAllocator

variable {P : Params}

/-! ## The size of a buffer -/

/-- The size is the real size of its class, if it has one. -/
def IsReal (size : Nat) : Prop := ∀ s, slotForSize size = some s → s.realSize = size

theorem isReal_realSize (s : Slot) : IsReal s.realSize := by
  intro t ht
  rw [slotForSize_realSize] at ht
  rw [Option.some.inj ht]

theorem isReal_recommendedSize (size : Nat) : IsReal (recommendedSize size) := by
  by_cases hzero : size = 0
  · subst hzero
    intro s hs
    exact absurd (slotForSize_eq_some hs).1 (by decide)
  by_cases hhigh : size ≤ largeSizeMax
  · obtain ⟨s, -, hreal, -⟩ := slotForSize_spec (Nat.one_le_iff_ne_zero.mpr hzero) hhigh
    rw [← hreal]
    exact isReal_realSize s
  · intro s hs
    have hle := (slotForSize_eq_some hs).2.1
    exact absurd ((le_recommendedSize size).trans hle) hhigh

/-- A block of a recommended size is a block of the size that was asked for. -/
theorem blockItem_recommendedSize {size : Nat} (hpos : 1 ≤ size) (hhigh : size ≤ largeSizeMax)
    (ptr : Nat) : blockItem (recommendedSize size) ptr = blockItem size ptr := by
  obtain ⟨s, hs, hreal, -⟩ := slotForSize_spec hpos hhigh
  rw [← hreal, blockItem_of_slot (slotForSize_realSize s), blockItem_of_slot hs]

theorem nextPowerOfTwo_eq {n : Nat} (h : 8 ≤ n) : ∃ k, 3 ≤ k ∧ nextPowerOfTwo n = 2 ^ k := by
  refine ⟨Nat.log2 (n - 1) + 1, ?_, if_neg (by omega)⟩
  have hlog : 2 ≤ Nat.log2 (n - 1) := (Nat.le_log2 (by omega)).mpr (by omega)
  omega

/-- From eight bytes on, every power of two is a recommended size. -/
theorem recommendedSize_two_pow {k : Nat} (h : 3 ≤ k) : recommendedSize (2 ^ k) = 2 ^ k := by
  obtain ⟨j, rfl⟩ : ∃ j, k = j + 3 := ⟨k - 3, by omega⟩
  unfold recommendedSize
  split
  · rw [pow_add]
    omega
  · split
    · simp [largeSizeToIdAndRealSize, isPowerOfTwo, Nat.log2_two_pow]
    · rfl

/-- What `alloc_with` makes of a capacity: the size is a multiple of the element, and
the capacity either counts the elements of the buffer or has become zero. -/
theorem bufferSize_spec (v : VecId) {minCap : Nat} (h : minCap ≠ 0) :
    let size := recommendedSize (nextPowerOfTwo (minCap * v.elemSize))
    size / v.elemSize % u32Range * v.elemSize = size ∨
      (size / v.elemSize % u32Range = 0 ∧ largeSizeMax < size) := by
  have hbytes : v.elemSize ≤ minCap * v.elemSize :=
    Nat.le_mul_of_pos_left _ (Nat.pos_of_ne_zero h)
  obtain ⟨e, he, hsize⟩ : ∃ e, 3 ≤ e ∧ v.elemSize = 2 ^ e := by
    rcases v.elemSize_eq with h | h
    · exact ⟨3, le_rfl, h⟩
    · exact ⟨4, by omega, h⟩
  have hpow : 2 ^ 3 ≤ 2 ^ e := Nat.pow_le_pow_right (by omega) he
  obtain ⟨k, hk, hnext⟩ := nextPowerOfTwo_eq (n := minCap * v.elemSize) (by omega)
  have hle := le_nextPowerOfTwo (minCap * v.elemSize)
  rw [hnext, recommendedSize_two_pow hk]
  rw [hnext] at hle
  have hek : e ≤ k := (Nat.pow_le_pow_iff_right (by omega)).mp (hsize ▸ hbytes.trans hle)
  obtain ⟨j, rfl⟩ : ∃ j, k = j + e := ⟨k - e, by omega⟩
  have hdiv : 2 ^ (j + e) / v.elemSize = 2 ^ j := by
    rw [hsize, pow_add]
    exact Nat.mul_div_cancel _ (Nat.two_pow_pos e)
  simp only [hdiv]
  by_cases hj : j < 32
  · left
    have hlt : 2 ^ j < 2 ^ 32 := Nat.pow_lt_pow_right (by omega) hj
    rw [u32Range, Nat.mod_eq_of_lt hlt, hsize, pow_add]
  · right
    have hdvd : 2 ^ 32 ∣ 2 ^ j := pow_dvd_pow 2 (by omega)
    refine ⟨Nat.mod_eq_zero_of_dvd hdvd, ?_⟩
    have hbig : 2 ^ 32 ≤ 2 ^ (j + e) := Nat.pow_le_pow_right (by omega) (by omega)
    simp only [largeSizeMax]
    omega

/-! ## Exchanges in hand -/

/-- Items in hand may be exchanged for others. -/
theorem Step.exchange {w : World P} {give take : Multiset (Token P)} (hformed : w.WellFormed)
    (hcalm : w.Calm) (htake : ∀ t ∈ take, t.Holds w) (hbusy : busyness take ≤ busyness give)
    (hdepth : depth give = depth take)
    (hmoves : Moves ⟨w.os, w.inner.nonLocalPtrManager, itemsOf give⟩
      ⟨w.os, w.inner.nonLocalPtrManager, itemsOf take⟩) : Step w give w take where
  formed := hformed
  calm := hcalm
  keeps := ⟨fun _ h => h, fun _ h => h, fun h => ⟨h, rfl⟩⟩
  holds := htake
  busy := hbusy
  chains := congrArg _ hdepth
  moves := hmoves.framed w.holdings (add_comm _ _) (add_comm _ _)

/-- Items that turn into others in every memory. -/
def Turns (items items' : Multiset Item) : Prop :=
  ∀ os m, Moves ⟨os, m, items⟩ ⟨os, m, items'⟩

theorem Turns.refl (items : Multiset Item) : Turns items items := fun _ _ => Moves.refl _

namespace Triple

variable {α : Type} {x : M P α} {give give' kept : Multiset (Token P)}
  {take : α → Multiset (Token P)}

/-- Exchange tokens at the start of a computation. -/
theorem exchange (hx : (discipline P).Triple give' x take)
    (h : ∀ w rest, Sound w (give + rest) → Step w give w give') :
    (discipline P).Triple give x take :=
  Discipline.Triple.before hx fun w rest hs =>
    ⟨(h w rest hs).sound hs, (h w rest hs).framed rest⟩

/-- Turn items at the start of a computation. -/
theorem turn {items items' : Multiset Item} (hturns : Turns items items')
    (hx : (discipline P).Triple (tokens items' + kept) x take) :
    (discipline P).Triple (tokens items + kept) x take := by
  refine exchange hx fun w rest hs => .exchange hs.formed hs.calm ?_ (by simp) (by simp) ?_
  · intro t ht
    rcases Multiset.mem_add.mp ht with ht | ht
    · exact holds_tokens ht
    · exact hs.holds t (by simp [ht])
  · simp only [itemsOf_add, itemsOf_tokens]
    exact (hturns _ _).framed _ rfl rfl

theorem turnAll {items items' : Multiset Item} (hturns : Turns items items')
    (hx : (discipline P).Triple (tokens items') x take) :
    (discipline P).Triple (tokens items) x take := by
  rw [← add_zero (tokens items)]
  exact turn hturns (by rwa [add_zero])

end Triple

/-! ## The allocator that a vector allocates from -/

/-- What a part of the allocator may rely on when it allocates from the whole. -/
structure Serves (A : AllocatorForSelfAllocations P) : Prop where
  selfAlloc : ∀ limit size hasState, IsReal size →
    (discipline P).Triple 0 (A.selfAlloc limit size hasState) fun r => tokens (blockOf size r)
  selfDealloc : ∀ ptr size hasState,
    (discipline P).Triple (tokens {blockItem size ptr}) (A.selfDealloc ptr size hasState)
      fun _ => 0

section Vectors

variable {A : AllocatorForSelfAllocations P} (hA : Serves A)
include hA

/-- The buffer that `alloc_with` gives. -/
def newBuffer (v : VecId) : Option Nat × Nat → Multiset Item
  | (some ptr, cap) => bufferItems v ptr cap
  | (none, _) => 0

theorem allocWith_triple (limit : Bool) (v : VecId) {minCap : Nat} (h : minCap ≠ 0)
    (hasState : Bool) :
    (discipline P).Triple 0 (allocWith A limit v minCap hasState) fun r =>
      tokens (newBuffer v r) := by
  refine (hA.selfAlloc limit _ hasState (isReal_recommendedSize _)).bind fun r => ?_
  cases r with
  | none => exact Discipline.Triple.pure rfl
  | some ptr =>
      rcases bufferSize_spec v h with hsize | ⟨hcap, hbig⟩
      · refine Discipline.Triple.pure ?_
        have hne : recommendedSize (nextPowerOfTwo (minCap * v.elemSize)) / v.elemSize %
            u32Range ≠ 0 := fun hzero => ?_
        · simp only [newBuffer, bufferItems, hsize, if_neg hne, blockOf_some]
        rw [hzero, zero_mul] at hsize
        have hle := (Nat.mul_le_mul_right v.elemSize (Nat.one_le_iff_ne_zero.mpr h)).trans
          ((le_nextPowerOfTwo _).trans (le_recommendedSize _))
        rcases v.elemSize_eq with he | he <;> omega
      · -- the buffer is too large for its capacity, and nobody remembers it
        have hslot : slotForSize (recommendedSize (nextPowerOfTwo (minCap * v.elemSize))) = none := by
          rw [slotForSize, SizeClass.define_eq_extraLarge hbig]
        have hturns : Turns (blockOf (recommendedSize (nextPowerOfTwo (minCap * v.elemSize)))
            (some ptr)) 0 := fun os m => by
          rw [blockOf_some, blockItem, hslot]
          exact Moves.single (.leak _ ptr) 0 (add_zero _).symm (add_zero _).symm
        refine Triple.turnAll hturns (Discipline.Triple.pure ?_)
        simp [newBuffer, bufferItems, hcap]

theorem maybeDealloc_triple (v : VecId) (ptr cap : Nat) (hasState : Bool) :
    (discipline P).Triple (tokens (bufferItems v ptr cap)) (maybeDealloc A v ptr cap hasState)
      fun _ => 0 := by
  by_cases hzero : cap = 0
  · rw [maybeDealloc, bufferItems, if_pos hzero, if_neg (not_not.mpr hzero)]
    exact Discipline.Triple.pure rfl
  · rw [maybeDealloc, bufferItems, if_neg hzero, if_pos hzero]
    exact hA.selfDealloc ptr _ hasState

theorem reserveSlow_triple (limit : Bool) (v : VecId) (additional : Nat) (hasState : Bool)
    (fuel : Nat) {minCap : Nat} (h : minCap ≠ 0) :
    (discipline P).Triple (boxOf v) (reserveSlow A limit v additional hasState fuel minCap)
      fun _ => boxOf v := by
  induction fuel generalizing minCap with
  | zero => exact Discipline.Triple.fault _
  | succ fuel ih =>
      rw [reserveSlow]
      have hbind := (allocWith_triple hA limit v h hasState).frame (boxOf v)
      rw [zero_add] at hbind
      refine hbind.bind fun r => ?_
      obtain ⟨newPtr, newCap⟩ := r
      refine Discipline.Triple.gets fun minCap => ?_
      refine Discipline.Triple.ite (fun hlt => ?_) fun _ => ?_
      · have hne : minCap ≠ 0 := Nat.ne_zero_of_lt hlt
        cases newPtr with
        | none =>
            rw [newBuffer, tokens_zero, zero_add]
            exact ih hne
        | some ptr =>
            refine ((maybeDealloc_triple hA v ptr newCap hasState).frame (boxOf v)).bind fun _ => ?_
            rw [zero_add]
            exact ih hne
      · cases newPtr with
        | none =>
            rw [newBuffer, tokens_zero, zero_add]
            exact Discipline.Triple.pure rfl
        | some ptr =>
            refine (install_triple v ptr newCap).bind fun old => ?_
            refine ((maybeDealloc_triple hA v old.1 old.2 hasState).frame (boxOf v)).bind fun _ => ?_
            rw [zero_add]
            refine Discipline.Triple.gets fun minCap => ?_
            refine Discipline.Triple.ite (fun hlt => ih (Nat.ne_zero_of_lt hlt)) fun _ => ?_
            exact Discipline.Triple.pure rfl

/-- Room in a vector, which keeps its elements. -/
theorem reserve_triple (limit : Bool) (v : VecId) (additional : Nat) (hasState : Bool) :
    (discipline P).Triple (boxOf v) (reserve A limit v additional hasState) fun _ => boxOf v := by
  refine Discipline.Triple.gets fun minCap => Discipline.Triple.gets fun cap => ?_
  refine Discipline.Triple.ite (fun _ => Discipline.Triple.pure rfl) fun hlt => ?_
  refine (reserveSlow_triple hA limit v additional hasState A.rounds (by omega)).bind fun _ => ?_
  exact Discipline.Triple.pure rfl

omit hA in
/-- What has to be known to enter elements is what gives a vector a buffer, and more. -/
theorem needs_eq (v : VecId) :
    ∃ more : Multiset (Token P), (needs v : Multiset (Token P)) = boxOf v + more := by
  cases v with
  | chunk s => exact ⟨0, (add_zero _).symm⟩
  | _ => exact ⟨needs _, (zero_add _).symm⟩

theorem reserve_needs (limit : Bool) (v : VecId) (additional : Nat) (hasState : Bool) :
    (discipline P).Triple (needs v) (reserve A limit v additional hasState) fun _ => needs v := by
  obtain ⟨more, hmore⟩ := needs_eq (P := P) v
  rw [hmore]
  exact (reserve_triple hA limit v additional hasState).frame more

/-- Enter elements.  The caller gives up what becomes the elements only if it succeeds. -/
theorem extendFromSlice_triple (limit : Bool) (v : VecId) (xs : List v.Elem) (hasState : Bool)
    {give left : Multiset Item} (hturns : Turns give (contents v xs + left)) :
    (discipline P).Triple (tokens give + needs v) (extendFromSlice A limit v xs hasState)
      fun ok => tokens (if ok then left else give) + needs v := by
  have hreserve := (reserve_needs hA limit v xs.length hasState).frame (tokens give)
  rw [add_comm (tokens give)]
  refine hreserve.bind fun r => ?_
  rw [add_comm (needs v)]
  cases r with
  | none => exact Discipline.Triple.pure rfl
  | some _ =>
      refine Triple.turn hturns ?_
      have hextend := (extendUnchecked_triple (P := P) v xs).frame (tokens left)
      have hgive : (tokens (contents v xs + left) : Multiset (Token P)) + needs v =
          tokens (contents v xs) + needs v + tokens left := by
        rw [tokens_add]
        abel
      rw [hgive]
      refine hextend.bind fun _ => ?_
      exact Discipline.Triple.pure (add_comm _ _)

theorem pushObjectOrPanic_triple (s : Slot) (ptr : Nat) (hasState : Bool) :
    (discipline P).Triple (tokens {.object s ptr}) (pushObjectOrPanic A s ptr hasState)
      fun _ => 0 := by
  have hturns : Turns {.object s ptr} (contents (.object s) [ptr] + 0) := by
    rw [add_zero]
    exact Turns.refl _
  have hpush := extendFromSlice_triple hA false (.object s) [ptr] hasState hturns
  refine (hpush.conv (add_zero _).symm fun ok => rfl).bind fun ok => ?_
  cases ok with
  | true => exact Discipline.Triple.pure (add_zero _)
  | false => exact Discipline.Triple.fault _

end Vectors

end Memalart
