/-
# Growing a vector whose allocator enters it again

`reserve` asks the allocator for a buffer and gives buffers back to it, and either
call may push to, pop from or reserve on the very vector that is growing.  Here
the vector is a pointer, a length and a capacity over a memory of buffers, and the
allocator is anything: a run is a derivation, and a call of the allocator is any
sequence of operations on the vector, each with a derivation of its own.
-/

import Mathlib.Algebra.Order.Group.Multiset
import Mathlib.Tactic.Abel
import Memalart.SelfAllocatedVec

namespace Memalart.Reentrant

variable {α : Type}

/-- The elements in the first slots of a buffer, the last one first. -/
def elemsOf (buffer : Nat → α) : Nat → List α
  | 0 => []
  | n + 1 => buffer n :: elemsOf buffer n

/-- A change of the elements that an operation of the allocator makes. -/
inductive Edit (α : Type)
  | push (x : α)
  | pop
deriving DecidableEq, Repr

/-- What a change does to the elements. -/
def Edit.apply : Edit α → List α → List α
  | .push x, xs => x :: xs
  | .pop, xs => xs.tail

/-- Make changes one after the other, the latest at the head of the list. -/
def replay (edits : List (Edit α)) (xs : List α) : List α := edits.foldr Edit.apply xs

/-- The vector, the memory of all buffers, and what has happened.  No branch reads
the fields after `memory`. -/
structure RawVec (α : Type) where
  ptr : Nat
  len : Nat
  cap : Nat
  /-- The slots of the buffer at an address. -/
  memory : Nat → Nat → α
  edits : List (Edit α)
  /-- Buffers that `self_alloc` has returned to the vector. -/
  received : List Nat
  /-- Buffers that the vector has held. -/
  held : List Nat
  /-- Buffers that have been passed to `self_dealloc`. -/
  released : List Nat
  /-- Pointer, capacity and elements as the allocator's last call left them. -/
  left : Option (Nat × Nat × List α)

/-- A capacity of zero means that there is no buffer. -/
def bufferOf (ptr cap : Nat) : List Nat := if cap = 0 then [] else [ptr]

namespace RawVec

def elems (v : RawVec α) : List α := elemsOf (v.memory v.ptr) v.len

/-- The buffer of the vector, if it has one. -/
def current (v : RawVec α) : List Nat := bufferOf v.ptr v.cap

/-- The write of `push`. -/
def write (x : α) (v : RawVec α) : RawVec α :=
  { v with
    len := v.len + 1
    memory := Function.update v.memory v.ptr (Function.update (v.memory v.ptr) v.len x)
    edits := .push x :: v.edits }

/-- `pop`. -/
def pop (v : RawVec α) : RawVec α :=
  if v.len = 0 then v else { v with len := v.len - 1, edits := .pop :: v.edits }

/-- `copy_nonoverlapping` into a new buffer, which then replaces the old one. -/
def install (ptr cap : Nat) (v : RawVec α) : RawVec α :=
  { v with
    ptr := ptr
    cap := cap
    memory := Function.update v.memory ptr
      fun i => if i < v.len then v.memory v.ptr i else v.memory ptr i
    held := ptr :: v.held }

/-- A call of the allocator returns. -/
def returned (v : RawVec α) : RawVec α := { v with left := some (v.ptr, v.cap, v.elems) }

/-- `self_alloc` returns a buffer or none. -/
def answered (answer : Option Nat) (v : RawVec α) : RawVec α :=
  { v.returned with received := answer.toList ++ v.received }

/-- `self_dealloc` is called. -/
def release (ptr : Nat) (v : RawVec α) : RawVec α := { v with released := ptr :: v.released }

end RawVec

/-- What is being evaluated: an operation, one of its parts, or what the allocator
does to the vector during a call. -/
inductive Job (α : Type)
  | calls
  | push (x : α) (ok : Bool)
  | reserve (additional : Nat) (ok : Bool)
  | reserveSlow (additional minCap : Nat) (ok : Bool)
  | maybeDealloc (ptr cap : Nat)

/-- The runs.  `asked` holds of every capacity that `alloc_with` is called with.
Sums of a length and an additional capacity fit into a `u32`. -/
inductive Eval (elemSize : Nat) (asked : Nat → Prop) : Job α → RawVec α → RawVec α → Prop
  /-- The allocator is done with the vector. -/
  | done (v) : Eval elemSize asked .calls v v
  | callPush {v w u x ok} : Eval elemSize asked (.push x ok) v w →
      Eval elemSize asked .calls w u → Eval elemSize asked .calls v u
  | callPop {v u} : Eval elemSize asked .calls v.pop u → Eval elemSize asked .calls v u
  | callReserve {v w u n ok} : Eval elemSize asked (.reserve n ok) v w →
      Eval elemSize asked .calls w u → Eval elemSize asked .calls v u
  /-- Memory outside the vector's elements is written by anyone. -/
  | scribble {v u} (memory : Nat → Nat → α)
      (hown : ∀ i, i < v.len → memory v.ptr i = v.memory v.ptr i) :
      Eval elemSize asked .calls { v with memory := memory } u → Eval elemSize asked .calls v u
  | pushErr {v u} (x) : Eval elemSize asked (.reserve 1 false) v u →
      Eval elemSize asked (.push x false) v u
  | pushOk {v u} (x) : Eval elemSize asked (.reserve 1 true) v u →
      Eval elemSize asked (.push x true) v (u.write x)
  | enough {v n} (hsum : v.len + n < u32Range) (hcap : v.len + n ≤ v.cap) :
      Eval elemSize asked (.reserve n true) v v
  | slow {v u n ok} (hsum : v.len + n < u32Range) (hcap : v.cap < v.len + n) :
      Eval elemSize asked (.reserveSlow n (v.len + n) ok) v u →
      Eval elemSize asked (.reserve n ok) v u
  /-- The new buffer has become too small; it is given back. -/
  | retryRejected {v b c u n minCap ok} (ptr : Nat) (hasked : asked minCap)
      (halloc : Eval elemSize asked .calls v b) (hsum : b.len + n < u32Range)
      (hsmall : bufferCap elemSize minCap < b.len + n) :
      Eval elemSize asked (.maybeDealloc ptr (bufferCap elemSize minCap))
        (b.answered (some ptr)) c →
      Eval elemSize asked (.reserveSlow n (b.len + n) ok) c u →
      Eval elemSize asked (.reserveSlow n minCap ok) v u
  | retryRefused {v b u n minCap ok} (hasked : asked minCap)
      (halloc : Eval elemSize asked .calls v b) (hsum : b.len + n < u32Range)
      (hsmall : bufferCap elemSize minCap < b.len + n) :
      Eval elemSize asked (.reserveSlow n (b.len + n) ok) (b.answered none) u →
      Eval elemSize asked (.reserveSlow n minCap ok) v u
  | refused {v b n minCap} (hasked : asked minCap)
      (halloc : Eval elemSize asked .calls v b) (hsum : b.len + n < u32Range)
      (hfits : b.len + n ≤ bufferCap elemSize minCap) :
      Eval elemSize asked (.reserveSlow n minCap false) v (b.answered none)
  /-- The new buffer is another one than the vector's, which is still in use. -/
  | installed {v b c n minCap} (ptr : Nat) (hasked : asked minCap)
      (halloc : Eval elemSize asked .calls v b) (hsum : b.len + n < u32Range)
      (hfits : b.len + n ≤ bufferCap elemSize minCap) (hfresh : b.cap = 0 ∨ ptr ≠ b.ptr) :
      Eval elemSize asked (.maybeDealloc b.ptr b.cap)
        ((b.answered (some ptr)).install ptr (bufferCap elemSize minCap)) c →
      c.len + n < u32Range → c.len + n ≤ bufferCap elemSize minCap →
      Eval elemSize asked (.reserveSlow n minCap true) v c
  | retryInstalled {v b c u n minCap ok} (ptr : Nat) (hasked : asked minCap)
      (halloc : Eval elemSize asked .calls v b) (hsum : b.len + n < u32Range)
      (hfits : b.len + n ≤ bufferCap elemSize minCap) (hfresh : b.cap = 0 ∨ ptr ≠ b.ptr) :
      Eval elemSize asked (.maybeDealloc b.ptr b.cap)
        ((b.answered (some ptr)).install ptr (bufferCap elemSize minCap)) c →
      c.len + n < u32Range → bufferCap elemSize minCap < c.len + n →
      Eval elemSize asked (.reserveSlow n (c.len + n) ok) c u →
      Eval elemSize asked (.reserveSlow n minCap ok) v u
  | kept (v ptr) : Eval elemSize asked (.maybeDealloc ptr 0) v v
  | dealloc {v u ptr cap} (hcap : cap ≠ 0) : Eval elemSize asked .calls (v.release ptr) u →
      Eval elemSize asked (.maybeDealloc ptr cap) v u.returned

/-! ## Elements and buffers -/

theorem elemsOf_congr {f g : Nat → α} {n : Nat} (h : ∀ i, i < n → f i = g i) :
    elemsOf f n = elemsOf g n := by
  induction n with
  | zero => rfl
  | succ n ih =>
      rw [elemsOf, elemsOf, h n (Nat.lt_succ_self n), ih fun i hi => h i (Nat.lt_succ_of_lt hi)]

theorem length_elemsOf (f : Nat → α) (n : Nat) : (elemsOf f n).length = n := by
  induction n with
  | zero => rfl
  | succ n ih => rw [elemsOf, List.length_cons, ih]

theorem bufferOf_of_pos {ptr cap : Nat} (h : cap ≠ 0) : bufferOf ptr cap = [ptr] := if_neg h

namespace RawVec

theorem elems_write (x : α) (v : RawVec α) : (v.write x).elems = x :: v.elems := by
  have hcongr : elemsOf (Function.update (v.memory v.ptr) v.len x) v.len =
      elemsOf (v.memory v.ptr) v.len :=
    elemsOf_congr fun i hi => Function.update_of_ne (Nat.ne_of_lt hi) _ _
  simp [elems, write, elemsOf, hcongr]

theorem elems_pop (v : RawVec α) : v.pop.elems = v.elems.tail := by
  unfold pop
  split
  · next h => simp [elems, h, elemsOf]
  · next h =>
      obtain ⟨n, hn⟩ := Nat.exists_eq_succ_of_ne_zero h
      simp [elems, hn, elemsOf]

/-- The copy moves all elements. -/
theorem elems_install (ptr cap : Nat) (v : RawVec α) : (v.install ptr cap).elems = v.elems := by
  have hmem : (v.install ptr cap).memory ptr = fun i =>
      if i < v.len then v.memory v.ptr i else v.memory ptr i := Function.update_self _ _ _
  calc elemsOf ((v.install ptr cap).memory ptr) v.len
      = elemsOf (fun i => if i < v.len then v.memory v.ptr i else v.memory ptr i) v.len := by
        rw [hmem]
    _ = v.elems := elemsOf_congr fun i hi => if_pos hi

theorem length_elems (v : RawVec α) : v.elems.length = v.len := length_elemsOf _ _

/-- The vector as the allocator's model has it. -/
def toVec (v : RawVec α) (h : v.len ≤ v.cap) : SelfAllocatedVec α :=
  ⟨v.ptr, v.cap, v.elems, v.length_elems.trans_le h⟩

/-- Installing a buffer is the model's `moveTo`. -/
theorem moveTo_toVec {v : RawVec α} (h : v.len ≤ v.cap) {ptr cap : Nat} (hfits : v.len ≤ cap) :
    (v.toVec h).moveTo ptr cap = some ((v.install ptr cap).toVec hfits) := by
  have hlen : (v.toVec h).len ≤ cap := v.length_elems.trans_le hfits
  rw [SelfAllocatedVec.moveTo, dif_pos hlen]
  simp only [toVec, elems_install]
  rfl

/-- The write of an element is the model's `tryExtend`. -/
theorem tryExtend_toVec {v : RawVec α} (h : v.len ≤ v.cap) (x : α) (hfits : v.len + 1 ≤ v.cap) :
    (v.toVec h).tryExtend [x] = some ((v.write x).toVec hfits) := by
  have hlen : (v.toVec h).len + [x].length ≤ (v.toVec h).cap := by
    rw [SelfAllocatedVec.len, toVec, length_elems]
    exact hfits
  rw [SelfAllocatedVec.tryExtend, dif_pos hlen]
  simp only [toVec, elems_write]
  rfl

end RawVec

/-! ## What a run keeps -/

/-- The elements have changed by the recorded edits and by nothing else. -/
def Follows (v u : RawVec α) : Prop :=
  ∃ edits, u.edits = edits ++ v.edits ∧ u.elems = replay edits v.elems

namespace Follows

variable {v w u : RawVec α}

theorem of_eq (hedits : u.edits = v.edits) (helems : u.elems = v.elems) : Follows v u :=
  ⟨[], by simpa using hedits, by simpa [replay] using helems⟩

theorem refl (v : RawVec α) : Follows v v := of_eq rfl rfl

theorem trans (hvw : Follows v w) (hwu : Follows w u) : Follows v u := by
  obtain ⟨first, hfirst, hw⟩ := hvw
  obtain ⟨second, hsecond, hu⟩ := hwu
  refine ⟨second ++ first, ?_, ?_⟩
  · rw [hsecond, hfirst, List.append_assoc]
  · rw [hu, hw, replay, replay, replay, List.foldr_append]

theorem write (x : α) (v : RawVec α) : Follows v (v.write x) :=
  ⟨[.push x], rfl, RawVec.elems_write x v⟩

theorem pop (v : RawVec α) : Follows v v.pop := by
  by_cases h : v.len = 0
  · simpa [RawVec.pop, h] using refl v
  · refine ⟨[.pop], ?_, RawVec.elems_pop v⟩
    simp [RawVec.pop, h]

theorem install (ptr cap : Nat) (v : RawVec α) : Follows v (v.install ptr cap) :=
  of_eq rfl (RawVec.elems_install ptr cap v)

end Follows

/-- Every buffer that was received is released, except the vector's own and those
that are owed. -/
structure Balanced (owed : List Nat) (v : RawVec α) : Prop where
  fits : v.len ≤ v.cap
  balance : (v.received : Multiset Nat) = ↑v.released + ↑v.current + ↑owed
  held_le : (v.held : Multiset Nat) ≤ v.received

namespace Balanced

variable {owed : List Nat} {v u : RawVec α}

/-- Only the fields that the buffers are counted by matter. -/
theorem congr (h : Balanced owed v) (hlen : u.len ≤ u.cap) (hptr : u.ptr = v.ptr)
    (hcap : u.cap = v.cap) (hreceived : u.received = v.received)
    (hreleased : u.released = v.released) (hheld : u.held = v.held) : Balanced owed u where
  fits := hlen
  balance := by
    rw [hreceived, hreleased, RawVec.current, hptr, hcap]
    exact h.balance
  held_le := by
    rw [hheld, hreceived]
    exact h.held_le

theorem write (h : Balanced owed v) (x : α) (hroom : v.len + 1 ≤ v.cap) :
    Balanced owed (v.write x) :=
  h.congr hroom rfl rfl rfl rfl rfl

theorem pop (h : Balanced owed v) : Balanced owed v.pop := by
  by_cases hlen : v.len = 0
  · simpa [RawVec.pop, hlen] using h
  · have hfits := h.fits
    simp only [RawVec.pop, hlen, if_false]
    exact h.congr (by simp only; omega) rfl rfl rfl rfl rfl

theorem returned (h : Balanced owed v) : Balanced owed v.returned :=
  h.congr h.fits rfl rfl rfl rfl rfl

theorem refused (h : Balanced owed v) : Balanced owed (v.answered none) :=
  h.congr h.fits rfl rfl rfl rfl rfl

/-- A buffer that is given back is owed no more. -/
theorem release {ptr : Nat} (h : Balanced (ptr :: owed) v) : Balanced owed (v.release ptr) where
  fits := h.fits
  balance := by
    change (v.received : Multiset Nat) = ↑(ptr :: v.released) + ↑v.current + ↑owed
    rw [h.balance, ← Multiset.cons_coe, ← Multiset.cons_coe, Multiset.cons_add, Multiset.cons_add,
      Multiset.add_cons]
  held_le := h.held_le

/-- A buffer that does not become the vector's is owed. -/
theorem rejected (h : Balanced owed v) (ptr : Nat) :
    Balanced (ptr :: owed) (v.answered (some ptr)) where
  fits := h.fits
  balance := by
    change ((ptr :: v.received : List Nat) : Multiset Nat) = ↑v.released + ↑v.current + ↑(ptr :: owed)
    rw [← Multiset.cons_coe, ← Multiset.cons_coe, h.balance, Multiset.add_cons]
  held_le := by
    change (v.held : Multiset Nat) ≤ ↑(ptr :: v.received)
    rw [← Multiset.cons_coe]
    exact h.held_le.trans (Multiset.le_cons_self _ _)

/-- When a new buffer takes the place of the old one, the old one is owed. -/
theorem install (h : Balanced owed v) {ptr cap : Nat} (hcap : cap ≠ 0) (hfits : v.len ≤ cap) :
    Balanced (bufferOf v.ptr v.cap ++ owed) ((v.answered (some ptr)).install ptr cap) where
  fits := hfits
  balance := by
    change ((ptr :: v.received : List Nat) : Multiset Nat) =
      ↑v.released + ↑(bufferOf ptr cap) + ↑(bufferOf v.ptr v.cap ++ owed)
    rw [bufferOf_of_pos hcap, ← Multiset.cons_coe, h.balance, RawVec.current, ← Multiset.coe_add,
      Multiset.coe_singleton, ← Multiset.singleton_add]
    abel
  held_le := by
    change ((ptr :: v.held : List Nat) : Multiset Nat) ≤ ↑(ptr :: v.received)
    rw [← Multiset.cons_coe, ← Multiset.cons_coe]
    exact Multiset.cons_le_cons ptr h.held_le

end Balanced

/-! ## Capacities -/

/-- The size that a request is rounded up to, if nothing wraps. -/
def roundedSize (elemSize minCap : Nat) : Nat := recommendedSize (nextPowerOfTwo (minCap * elemSize))

theorem mul_le_roundedSize (elemSize minCap : Nat) : minCap * elemSize ≤ roundedSize elemSize minCap :=
  (le_nextPowerOfTwo _).trans (le_recommendedSize _)

/-- The capacity that is asked for rounds up to one that fits into a `u32`, of a size that fits
into a `usize`. -/
def RoundsInRange (elemSize minCap : Nat) : Prop :=
  roundedSize elemSize minCap / elemSize < u32Range ∧ roundedSize elemSize minCap < usizeRange

/-- For elements of up to 4 GB the second part follows from the first. -/
theorem roundsInRange_iff {elemSize : Nat} (hpos : 0 < elemSize) (hsmall : elemSize ≤ u32Range)
    (minCap : Nat) :
    RoundsInRange elemSize minCap ↔ roundedSize elemSize minCap / elemSize < u32Range := by
  refine ⟨And.left, fun h => ⟨h, ?_⟩⟩
  calc roundedSize elemSize minCap < u32Range * elemSize := (Nat.div_lt_iff_lt_mul hpos).1 h
    _ ≤ u32Range * u32Range := Nat.mul_le_mul_left _ hsmall
    _ = usizeRange := rfl

/-- Then nothing wraps. -/
theorem RoundsInRange.bufferCap_eq {elemSize minCap : Nat} (h : RoundsInRange elemSize minCap) :
    bufferCap elemSize minCap = roundedSize elemSize minCap / elemSize := by
  have hnext : nextPowerOfTwo (minCap * elemSize) < usizeRange := (le_recommendedSize _).trans_lt h.2
  have hmul : minCap * elemSize < usizeRange := (le_nextPowerOfTwo _).trans_lt hnext
  have hsize : bufferSize elemSize minCap = roundedSize elemSize minCap := by
    rw [bufferSize, Nat.mod_eq_of_lt hmul, nextPowerOfTwoUsize, Nat.mod_eq_of_lt hnext, roundedSize]
  rw [bufferCap, hsize, Nat.mod_eq_of_lt h.1]

/-- The new buffer has the capacity that was asked for. -/
theorem RoundsInRange.le_bufferCap {elemSize minCap : Nat} (helem : 0 < elemSize)
    (h : RoundsInRange elemSize minCap) : minCap ≤ bufferCap elemSize minCap := by
  rw [h.bufferCap_eq, Nat.le_div_iff_mul_le helem]
  exact mul_le_roundedSize elemSize minCap

/-! ## The specification of every job -/

/-- What holds after a run, on the elements, the buffers and the capacity.  The
capacity never ends below the one an operation started with: that is why a
`reserve` may test its own new capacity after the old buffer is given back,
although the vector's may be another one by then. -/
structure Kept (owed : List Nat) (base : Nat) (v u : RawVec α) : Prop where
  balanced : Balanced owed u
  follows : Follows v u
  base_le : base ≤ u.cap

/-- An answer of a reservation. -/
structure Answered (additional : Nat) (ok : Bool) (u : RawVec α) : Prop where
  room : ok = true → u.len + additional ≤ u.cap
  untouched : ok = false → u.left = some (u.ptr, u.cap, u.elems)

/-- What a run of a job does. -/
def Job.Spec : Job α → RawVec α → RawVec α → Prop
  | .calls, v, u | .push _ _, v, u => ∀ owed, Balanced owed v → Kept owed v.cap v u
  | .reserve n ok, v, u => ∀ owed, Balanced owed v → Kept owed v.cap v u ∧ Answered n ok u
  | .reserveSlow n minCap ok, v, u => ∀ owed base, Balanced owed v → 1 ≤ n → base < minCap →
      base ≤ v.cap → Kept owed base v u ∧ Answered n ok u
  | .maybeDealloc ptr cap, v, u => ∀ owed, Balanced (bufferOf ptr cap ++ owed) v →
      Kept owed v.cap v u

theorem Eval.spec {elemSize : Nat} (helem : 0 < elemSize) {job : Job α} {v u : RawVec α}
    (h : Eval elemSize (RoundsInRange elemSize) job v u) : job.Spec v u := by
  induction h with
  | done v => exact fun owed hv => ⟨hv, .refl v, le_rfl⟩
  | callPush _ _ ihPush ihCalls =>
      intro owed hv
      obtain ⟨hw, hfollows, hcap⟩ := ihPush owed hv
      obtain ⟨hu, hfollows', hcap'⟩ := ihCalls owed hw
      exact ⟨hu, hfollows.trans hfollows', hcap.trans hcap'⟩
  | @callPop v u _ ih =>
      intro owed hv
      obtain ⟨hu, hfollows, hcap⟩ := ih owed hv.pop
      refine ⟨hu, (Follows.pop v).trans hfollows, le_trans (le_of_eq ?_) hcap⟩
      unfold RawVec.pop
      split <;> rfl
  | callReserve _ _ ihReserve ihCalls =>
      intro owed hv
      obtain ⟨⟨hw, hfollows, hcap⟩, -⟩ := ihReserve owed hv
      obtain ⟨hu, hfollows', hcap'⟩ := ihCalls owed hw
      exact ⟨hu, hfollows.trans hfollows', hcap.trans hcap'⟩
  | @scribble v u memory hown _ ih =>
      intro owed hv
      obtain ⟨hu, hfollows, hcap⟩ := ih owed (hv.congr hv.fits rfl rfl rfl rfl rfl)
      have hsame : Follows v { v with memory := memory } := .of_eq rfl (elemsOf_congr hown)
      exact ⟨hu, hsame.trans hfollows, hcap⟩
  | pushErr x _ ih => exact fun owed hv => (ih owed hv).1
  | @pushOk v u x _ ih =>
      intro owed hv
      obtain ⟨⟨hu, hfollows, hcap⟩, hanswer⟩ := ih owed hv
      exact ⟨hu.write x (hanswer.room rfl), hfollows.trans (.write x u), hcap⟩
  | @enough v n hsum hcap =>
      intro owed hv
      exact ⟨⟨hv, .refl v, le_rfl⟩, ⟨fun _ => hcap, nofun⟩⟩
  | @slow v u n ok hsum hcap _ ih =>
      intro owed hv
      have hpos : 1 ≤ n := by
        have := hv.fits
        omega
      exact ih owed v.cap hv hpos hcap le_rfl
  | @retryRejected v b c u n minCap ok ptr hasked _ hsum hsmall _ _ ihCalls ihDealloc ihSlow =>
      intro owed base hv hn hbase hcap
      have hround := hasked.le_bufferCap helem
      obtain ⟨hb, hfollows, hbcap⟩ := ihCalls owed hv
      have hnonzero : bufferCap elemSize minCap ≠ 0 := by omega
      obtain ⟨hc, hfollows', hccap⟩ := ihDealloc owed
        (by rw [bufferOf_of_pos hnonzero]; exact hb.rejected ptr)
      obtain ⟨hu, hanswer⟩ := ihSlow owed base hc hn (by omega) (hcap.trans (hbcap.trans hccap))
      refine ⟨⟨hu.balanced, ?_, hu.base_le⟩, hanswer⟩
      exact hfollows.trans ((Follows.of_eq rfl rfl).trans (hfollows'.trans hu.follows))
  | @retryRefused v b u n minCap ok hasked _ hsum hsmall _ ihCalls ihSlow =>
      intro owed base hv hn hbase hcap
      have hround := hasked.le_bufferCap helem
      obtain ⟨hb, hfollows, hbcap⟩ := ihCalls owed hv
      obtain ⟨hu, hanswer⟩ := ihSlow owed base hb.refused hn (by omega) (hcap.trans hbcap)
      refine ⟨⟨hu.balanced, ?_, hu.base_le⟩, hanswer⟩
      exact hfollows.trans ((Follows.of_eq rfl rfl).trans hu.follows)
  | @refused v b n minCap _ _ _ _ ihCalls =>
      intro owed base hv hn hbase hcap
      obtain ⟨hb, hfollows, hbcap⟩ := ihCalls owed hv
      refine ⟨⟨hb.refused, ?_, hcap.trans hbcap⟩, ⟨nofun, fun _ => rfl⟩⟩
      exact hfollows.trans (.of_eq rfl rfl)
  | @installed v b c n minCap ptr hasked _ hsum hfits _ _ hsum' hroom ihCalls ihDealloc =>
      intro owed base hv hn hbase hcap
      have hround := hasked.le_bufferCap helem
      obtain ⟨hb, hfollows, -⟩ := ihCalls owed hv
      obtain ⟨hc, hfollows', hccap⟩ := ihDealloc owed (hb.install (by omega) (by omega))
      have hcap' : bufferCap elemSize minCap ≤ c.cap := hccap
      refine ⟨⟨hc, ?_, by omega⟩, ⟨fun _ => hroom.trans hcap', nofun⟩⟩
      exact hfollows.trans ((Follows.install ptr _ (b.answered (some ptr))).trans hfollows')
  | @retryInstalled v b c u n minCap ok ptr hasked _ hsum hfits _ _ hsum' hsmall _ ihCalls
      ihDealloc ihSlow =>
      intro owed base hv hn hbase hcap
      have hround := hasked.le_bufferCap helem
      obtain ⟨hb, hfollows, -⟩ := ihCalls owed hv
      obtain ⟨hc, hfollows', hccap⟩ := ihDealloc owed (hb.install (by omega) (by omega))
      have hcap' : bufferCap elemSize minCap ≤ c.cap := hccap
      obtain ⟨hu, hanswer⟩ := ihSlow owed base hc hn (by omega) (by omega)
      refine ⟨⟨hu.balanced, ?_, hu.base_le⟩, hanswer⟩
      exact hfollows.trans ((Follows.install ptr _ (b.answered (some ptr))).trans
        (hfollows'.trans hu.follows))
  | kept v ptr => exact fun owed hv => ⟨hv, .refl v, le_rfl⟩
  | @dealloc v u ptr cap hcap _ ih =>
      intro owed hv
      rw [bufferOf_of_pos hcap] at hv
      obtain ⟨hu, hfollows, hucap⟩ := ih owed hv.release
      refine ⟨hu.returned, ?_, hucap⟩
      exact (Follows.of_eq rfl rfl).trans (hfollows.trans (.of_eq rfl rfl))

/-- `reserve`, while every capacity that is asked for rounds up to one that fits into
a `u32`: there is room if it answers `Ok`, the elements are those that the nested
operations left, every buffer but the current one is given back once, and after
`Err` the vector is as the last call of the allocator left it. -/
theorem reserve_exact {elemSize additional : Nat} {ok : Bool} {v u : RawVec α}
    (helem : 0 < elemSize) (hv : Balanced [] v)
    (hrun : Eval elemSize (RoundsInRange elemSize) (.reserve additional ok) v u) :
    (ok = true → u.len + additional ≤ u.cap) ∧
      (∃ edits, u.edits = edits ++ v.edits ∧ u.elems = replay edits v.elems) ∧
      ((u.received : Multiset Nat) = ↑u.released + ↑u.current ∧
        (u.held : Multiset Nat) ≤ u.received) ∧
      (ok = false → u.left = some (u.ptr, u.cap, u.elems)) := by
  obtain ⟨⟨hbalanced, hfollows, -⟩, hroom, huntouched⟩ := hrun.spec helem [] hv
  refine ⟨hroom, hfollows, ⟨?_, hbalanced.held_le⟩, huntouched⟩
  simpa using hbalanced.balance

/-- A vector of one element in a buffer for one. -/
def single : RawVec Nat where
  ptr := 1
  len := 1
  cap := 1
  memory := fun _ _ => 7
  edits := []
  received := [1]
  held := [1]
  released := []
  left := none

/-- While the first buffer is given back it is pushed into the vector, and the
vector grows once more. -/
theorem reserve_exact_single :
    ∃ u, Eval 8 (RoundsInRange 8) (.reserve 1 true) single u ∧ u.elems = [1, 7] ∧
      u.len + 1 ≤ u.cap ∧ u.released = [2, 1] := by
  let grown := ((single.answered (some 2)).install 2 2).release 1
  have hpush : Eval 8 (RoundsInRange 8) (.push 1 true) grown (grown.write 1) :=
    .pushOk 1 (.enough (by decide) (by decide))
  have hfirst : Eval 8 (RoundsInRange 8) (.maybeDealloc 1 1)
      ((single.answered (some 2)).install 2 2) (grown.write 1).returned :=
    .dealloc (by decide) (.callPush hpush (.done _))
  have hsecond : Eval 8 (RoundsInRange 8) (.reserveSlow 1 3 true) (grown.write 1).returned _ :=
    .installed 3 (by unfold RoundsInRange; decide) (.done _) (by decide) (by decide)
      (Or.inr (by decide)) (.dealloc (by decide) (.done _)) (by decide) (by decide)
  have hrun : Eval 8 (RoundsInRange 8) (.reserve 1 true) single _ :=
    .slow (by decide) (by decide) (.retryInstalled 2 (by unfold RoundsInRange; decide)
      (.done _) (by decide) (by decide) (Or.inr (by decide)) hfirst (by decide) (by decide) hsecond)
  have hbalanced : Balanced [] single := ⟨by decide, by decide, le_rfl⟩
  have h := reserve_exact (by decide) hbalanced hrun
  exact ⟨_, hrun, by decide, h.1 rfl, by decide⟩

/-! ## A capacity that does not fit -/

section Overflow

variable (elemSize : Nat) (asked : Nat → Prop)

/-- The allocator may push as often as there is room. -/
theorem exists_pushes (x : α) (k : Nat) {v : RawVec α} (hroom : v.len + k ≤ v.cap)
    (hcap : v.cap < u32Range) :
    ∃ w, w.len = v.len + k ∧ w.cap = v.cap ∧ w.ptr = v.ptr ∧
      ∀ u, Eval elemSize asked .calls w u → Eval elemSize asked .calls v u := by
  induction k generalizing v with
  | zero => exact ⟨v, rfl, rfl, rfl, fun _ h => h⟩
  | succ k ih =>
      obtain ⟨w, hlen, hwcap, hptr, hw⟩ := ih (v := v.write x)
        (by simp only [RawVec.write]; omega) hcap
      refine ⟨w, ?_, hwcap, hptr, fun u h => ?_⟩
      · calc w.len = v.len + 1 + k := hlen
          _ = v.len + (k + 1) := by omega
      · have henough : Eval elemSize asked (.reserve 1 true) v v :=
          .enough (by omega) (by omega)
        exact .callPush (.pushOk x henough) (hw u h)

/-- The allocator may pop until the vector is empty. -/
theorem exists_pops (v : RawVec α) :
    ∃ w, w.len = 0 ∧ w.cap = v.cap ∧ w.ptr = v.ptr ∧
      ∀ u, Eval elemSize asked .calls w u → Eval elemSize asked .calls v u := by
  induction hn : v.len generalizing v with
  | zero => exact ⟨v, hn, rfl, rfl, fun _ h => h⟩
  | succ n ih =>
      have hpop : v.pop = { v with len := n, edits := .pop :: v.edits } := by
        simp [RawVec.pop, hn]
      obtain ⟨w, hlen, hcap, hptr, hw⟩ := ih v.pop (by rw [hpop])
      refine ⟨w, hlen, ?_, ?_, fun u h => .callPop (hw u h)⟩
      · rw [hcap, hpop]
      · rw [hptr, hpop]

/-- A full vector of `2 ^ 31` elements that is emptied while it asks for room for one
more ends with room for a single element. -/
theorem exists_shrinking_reserve {v : RawVec α} (hlen : v.len = 2 ^ 31) (hcap : v.cap = 2 ^ 31) :
    ∃ w, w.len = 0 ∧ w.cap = 1 ∧ Eval 8 (fun _ => True) (.reserve 1 true) v w := by
  have hoverflow : bufferCap 8 (2 ^ 31 + 1) = 0 := by decide +kernel
  have hone : bufferCap 8 1 = 1 := by decide
  have hrange : 2 ^ 31 + 1 < u32Range := by decide
  obtain ⟨e, helen, hecap, -, hpops⟩ := exists_pops 8 (fun _ => True) v
  let shrunk := ((e.answered (some (v.ptr + 1))).answered (some (e.ptr + 1))).install (e.ptr + 1)
    (bufferCap 8 1)
  have hold : Eval 8 (fun _ => True) (.maybeDealloc e.ptr e.cap) shrunk
      (shrunk.release e.ptr).returned :=
    .dealloc (by omega) (.done _)
  have hretry : Eval 8 (fun _ => True) (.reserveSlow 1 (e.len + 1) true)
      (e.answered (some (v.ptr + 1))) (shrunk.release e.ptr).returned := by
    rw [helen]
    refine .installed (e.ptr + 1) trivial (.done _) ?_ ?_ (Or.inr (Nat.succ_ne_self _)) hold ?_ ?_
    · change e.len + 1 < u32Range
      omega
    · change e.len + 1 ≤ bufferCap 8 1
      omega
    · change e.len + 1 < u32Range
      omega
    · change e.len + 1 ≤ bufferCap 8 1
      omega
  refine ⟨(shrunk.release e.ptr).returned, helen, hone, .slow (by omega) (by omega) ?_⟩
  rw [hlen]
  refine .retryRejected (v.ptr + 1) trivial (hpops e (.done e)) (by omega) (by omega) ?_ hretry
  rw [hoverflow]
  exact .kept _ _

end Overflow

/-- A full vector of `2 ^ 30` pointers. -/
def huge : RawVec Nat where
  ptr := 1
  len := 2 ^ 30
  cap := 2 ^ 30
  memory := fun _ _ => 0
  edits := []
  received := [1]
  held := [1]
  released := []
  left := none

/-- Room for one more element is asked for.  While the first buffer is given back,
the vector is filled up to `2 ^ 31` elements and one more is asked for: that rounds
up to `2 ^ 32`, which is zero as a `u32`.  The vector is emptied meanwhile and gets
a buffer for one element, but the outer call trusts its own capacity. -/
theorem reserve_ok_without_room :
    Balanced [] huge ∧
      ∃ u, Eval 8 (fun _ => True) (.reserve 1 true) huge u ∧ u.cap < u.len + 1 := by
  have hcapacity : bufferCap 8 (2 ^ 30 + 1) = 2 ^ 31 := by decide +kernel
  have hrange : 2 ^ 31 + 1 < u32Range := by decide
  let grown := ((huge.answered (some 2)).install 2 (bufferCap 8 (2 ^ 30 + 1))).release 1
  have hgrown : grown.len = 2 ^ 30 ∧ grown.cap = 2 ^ 31 := ⟨rfl, hcapacity⟩
  obtain ⟨full, hfull, hfullCap, -, hpushes⟩ := exists_pushes 8 (fun _ => True) 0 (2 ^ 30)
    (v := grown) (by omega) (by omega)
  obtain ⟨shrunk, hshrunk, hshrunkCap, hreserve⟩ :=
    exists_shrinking_reserve (v := full) (by omega) (by omega)
  have hpush : Eval 8 (fun _ => True) (.push 0 true) shrunk (shrunk.write 0) :=
    .pushOk 0 (.enough (by omega) (by omega))
  have hcalls : Eval 8 (fun _ => True) .calls grown (shrunk.write 0) :=
    hpushes _ (.callReserve hreserve (.callPush hpush (.done _)))
  have hlen : (shrunk.write 0).len = 1 := congrArg (· + 1) hshrunk
  refine ⟨⟨le_rfl, by decide, le_rfl⟩, (shrunk.write 0).returned, .slow (by decide) (by decide) ?_, ?_⟩
  · refine .installed 2 trivial (.done huge) (by decide) ?_ (Or.inr (by decide))
      (.dealloc (by decide) hcalls) ?_ ?_
    · exact hcapacity ▸ by decide
    · change (shrunk.write 0).len + 1 < u32Range
      omega
    · change (shrunk.write 0).len + 1 ≤ bufferCap 8 (2 ^ 30 + 1)
      omega
  · change shrunk.cap < (shrunk.write 0).len + 1
    omega

end Memalart.Reentrant
