/-
# Vectors that live in the allocator they belong to

A `SelfAllocatedVec` is a buffer and the elements in it.  That the elements fit
into the buffer is part of the type: the operations that do not allocate check
for room as the source does, and a write without room is not a value of the type.
Elements are listed with the last one first, so that `pop` takes the head.
-/

import Memalart.Sizes

namespace Memalart

structure SelfAllocatedVec (α : Type) where
  ptr : Nat
  cap : Nat
  elems : List α
  len_le_cap : elems.length ≤ cap

namespace SelfAllocatedVec

variable {α : Type}

def new : SelfAllocatedVec α := ⟨0, 0, [], le_rfl⟩

instance : Inhabited (SelfAllocatedVec α) := ⟨new⟩

def len (v : SelfAllocatedVec α) : Nat := v.elems.length

def vacant (v : SelfAllocatedVec α) : Nat := v.cap - v.len

/-- `bytes_allocated`, for elements of this size. -/
def bytesAllocated (elemSize : Nat) (v : SelfAllocatedVec α) : Nat :=
  recommendedSize (v.cap * elemSize)

/-- `try_extend_from_slice`: enter the elements in their order, if there is room for
all of them.  `try_push` is the case of one element. -/
def tryExtend (v : SelfAllocatedVec α) (xs : List α) : Option (SelfAllocatedVec α) :=
  if h : v.len + xs.length ≤ v.cap then
    some ⟨v.ptr, v.cap, xs.reverse ++ v.elems, by simpa [len, Nat.add_comm] using h⟩
  else none

/-- `pop`. -/
def pop (v : SelfAllocatedVec α) : Option (α × SelfAllocatedVec α) :=
  match h : v.elems with
  | [] => none
  | x :: rest => some (x, ⟨v.ptr, v.cap, rest, by
      have := v.len_le_cap
      rw [h, List.length_cons] at this
      omega⟩)

/-- Move the elements to another buffer, if they fit. -/
def moveTo (v : SelfAllocatedVec α) (ptr cap : Nat) : Option (SelfAllocatedVec α) :=
  if h : v.len ≤ cap then some ⟨ptr, cap, v.elems, h⟩ else none

/-- Replace the elements by as many others or fewer. -/
def replaceElems (v : SelfAllocatedVec α) (xs : List α) (h : xs.length ≤ v.elems.length) :
    SelfAllocatedVec α :=
  ⟨v.ptr, v.cap, xs, h.trans v.len_le_cap⟩

/-! ## What the operations do -/

variable {v v' : SelfAllocatedVec α} {xs : List α}

@[simp] theorem elems_new : (new : SelfAllocatedVec α).elems = [] := rfl
@[simp] theorem cap_new : (new : SelfAllocatedVec α).cap = 0 := rfl
@[simp] theorem ptr_new : (new : SelfAllocatedVec α).ptr = 0 := rfl

theorem tryExtend_eq_some (h : v.tryExtend xs = some v') :
    v'.elems = xs.reverse ++ v.elems ∧ v'.cap = v.cap ∧ v'.ptr = v.ptr := by
  unfold tryExtend at h
  split at h
  · cases h
    exact ⟨rfl, rfl, rfl⟩
  · cases h

theorem pop_eq_some {x : α} (h : v.pop = some (x, v')) :
    v.elems = x :: v'.elems ∧ v'.cap = v.cap ∧ v'.ptr = v.ptr := by
  unfold pop at h
  split at h
  · cases h
  · next y rest hrest =>
      cases h
      exact ⟨hrest, rfl, rfl⟩

theorem pop_eq_none : v.pop = none ↔ v.elems = [] := by
  unfold pop
  split
  · next h => simp [h]
  · next h => simp [h]

theorem moveTo_eq_some {ptr cap : Nat} (h : v.moveTo ptr cap = some v') :
    v'.elems = v.elems ∧ v'.cap = cap ∧ v'.ptr = ptr := by
  unfold moveTo at h
  split at h
  · cases h
    exact ⟨rfl, rfl, rfl⟩
  · cases h

end SelfAllocatedVec

/-! ## The sizes of buffers -/

theorem le_nextPowerOfTwo (n : Nat) : n ≤ nextPowerOfTwo n := by
  unfold nextPowerOfTwo
  split
  · assumption
  · have hlt : n - 1 < 2 ^ (Nat.log2 (n - 1) + 1) := Nat.lt_log2_self
    omega

/-- `usize::next_power_of_two` of a release build, which wraps. -/
def nextPowerOfTwoUsize (n : Nat) : Nat := nextPowerOfTwo n % usizeRange

/-- The size that `alloc_with` asks for. -/
def bufferSize (elemSize minCap : Nat) : Nat :=
  recommendedSize (nextPowerOfTwoUsize (minCap * elemSize % usizeRange))

/-- The capacity that `alloc_with` answers, a `u32`. -/
def bufferCap (elemSize minCap : Nat) : Nat := bufferSize elemSize minCap / elemSize % u32Range

end Memalart
