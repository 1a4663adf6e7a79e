/-
# A vector in memory of the operating system

`VecInOs` holds the addresses of the regions while the allocator that they belong to is being
taken apart, so it maps its buffer itself.  It grows while the rest of the crate maps, writes
and frees memory of its own; none of that reaches the values in it.
-/

import Memalart.Lib.ByteMemory
import Memalart.PageMappings

namespace Memalart

open Memalart.Lib Memalart.AlignedMapping

universe u

structure VecInOs where
  ptr : Nat
  len : Nat
  cap : Nat

namespace VecInOs

/-- What so many values take: a product of `usize`s. -/
def bytes (n size : Nat) : Nat := n * size % usizeRange

/-- The pointer of a new vector is dangling. -/
def new (dangling : Nat) : VecInOs := ⟨dangling, 0, 0⟩

/-- What the vector has mapped. -/
def buffer (size : Nat) (vec : VecInOs) : List (Nat × Nat) :=
  if 0 < vec.cap then [(vec.ptr, bytes vec.cap size)] else []

/-- A vector in a process, with what the rest of the crate has mapped.  How many values have
been copied is a history variable: no branch reads it. -/
structure State (α : Type u) where
  kernel : Kernel
  memory : ByteMemory α
  others : List (Nat × Nat)
  vec : VecInOs
  copied : Nat

variable {α : Type u}

namespace State

/-- The buffer is replaced by a larger one, whose pages are fresh. -/
def moveTo (size newPtr newCap : Nat) (kernel : Kernel) (s : State α) : State α :=
  let memory := s.memory.clear newPtr (wholePages kernel.space.pageSize (bytes newCap size))
  if 0 < s.vec.cap then
    { s with
      kernel := kernel.munmapRaw s.vec.ptr (bytes s.vec.cap size)
      memory := memory.copyNonoverlapping s.vec.ptr newPtr (bytes s.vec.len size)
      vec := ⟨newPtr, s.vec.len, newCap⟩
      copied := s.copied + s.vec.len }
  else { s with kernel := kernel, memory := memory, vec := ⟨newPtr, s.vec.len, newCap⟩ }

section MoveTo

variable (size newPtr newCap : Nat) (kernel : Kernel) (s : State α)

@[simp] theorem vec_moveTo :
    (s.moveTo size newPtr newCap kernel).vec = ⟨newPtr, s.vec.len, newCap⟩ := by
  unfold moveTo
  dsimp only
  split
  · rfl
  · rfl

@[simp] theorem others_moveTo : (s.moveTo size newPtr newCap kernel).others = s.others := by
  unfold moveTo
  dsimp only
  split
  · rfl
  · rfl

theorem copied_moveTo_le :
    (s.moveTo size newPtr newCap kernel).copied ≤ s.copied + s.vec.len := by
  unfold moveTo
  dsimp only
  split
  · exact le_rfl
  · exact Nat.le_add_right _ _

end MoveTo

/-- `reserve`, with the message of the panic if there is one. -/
def reserve (size additional : Nat) (s : State α) : Option String × State α :=
  let required := s.vec.len + additional
  if usizeRange ≤ required then (some "capacity overflow", s)
  else if required ≤ s.vec.cap then (none, s)
  else
    let newCap := max (max required (s.vec.cap * 2 % usizeRange)) 4
    let ((newPtr, _), kernel) := s.kernel.allocFromOs_ (bytes newCap size) true
    if newPtr = 0 then (some "allocation failed", { s with kernel := kernel })
    else (none, s.moveTo size newPtr newCap kernel)

/-- The value is written behind the last one. -/
def append (size : Nat) (value : α) (s : State α) : State α :=
  { s with
    memory := s.memory.write size (s.vec.ptr + s.vec.len * size) value
    vec := { s.vec with len := s.vec.len + 1 } }

/-- `push`. -/
def push (size : Nat) (value : α) (s : State α) : Option String × State α :=
  match if s.vec.len = s.vec.cap then s.reserve size 1 else (none, s) with
  | (some message, s) => (some message, s)
  | (none, s) => (none, s.append size value)

/-- What `drop` leaves. -/
def drop (size : Nat) (s : State α) : Kernel :=
  if 0 < s.vec.cap then s.kernel.munmapRaw s.vec.ptr (bytes s.vec.cap size) else s.kernel

end State

/-- The iterator: where it stands, and where it ends. -/
structure Iter where
  ptr : Nat
  stop : Nat

def iter (size : Nat) (vec : VecInOs) : Iter := ⟨vec.ptr, vec.ptr + vec.len * size⟩

/-- `next`, with the address of the item. -/
def Iter.next (size : Nat) (it : Iter) : Option Nat × Iter :=
  if it.ptr = it.stop then (none, it) else (some it.ptr, { it with ptr := it.ptr + size })

/-! ## Runs -/

/-- The rest of the crate maps, frees and writes memory of its own. -/
inductive Others : State α → State α → Prop
  | call {s : State α} {call : Call} {p : Process} {memory : ByteMemory α}
      (h : Process.Step ⟨s.kernel, s.others⟩ call p)
      (hmemory : ∀ a, load p.extents a = 0 → memory a = s.memory a) :
      Others s { s with kernel := p.kernel, memory := memory, others := p.mapped }
  | write {s : State α} {memory : ByteMemory α}
      (hmemory : ∀ a, load (Process.extents ⟨s.kernel, s.others⟩) a = 0 → memory a = s.memory a) :
      Others s { s with memory := memory }

inductive Event (α : Type u)
  | pushed (value : α)
  | reserved (additional : Nat)
  | panicked (message : String)
  | other

inductive Step (size : Nat) : State α → Event α → State α → Prop
  | pushed {s s' : State α} {value : α} (h : s.push size value = (none, s')) :
      Step size s (.pushed value) s'
  | reserved {s s' : State α} {additional : Nat} (h : s.reserve size additional = (none, s')) :
      Step size s (.reserved additional) s'
  | pushPanicked {s s' : State α} {value : α} {message : String}
      (h : s.push size value = (some message, s')) : Step size s (.panicked message) s'
  | reservePanicked {s s' : State α} {additional : Nat} {message : String}
      (h : s.reserve size additional = (some message, s')) : Step size s (.panicked message) s'
  | other {s s' : State α} (h : Others s s') : Step size s .other s'

namespace Event

def value? : Event α → Option α
  | .pushed value => some value
  | _ => none

/-- For how many more values a call asks room. -/
def room : Event α → Nat
  | .pushed _ => 1
  | .reserved additional => additional
  | _ => 0

end Event

/-- The values that have been pushed. -/
def pushes (events : List (Event α)) : List α := events.filterMap Event.value?

/-- For how many values room has been asked, all calls together. -/
def demand (events : List (Event α)) : Nat := (events.map Event.room).sum

theorem pushes_cons (event : Event α) (events : List (Event α)) :
    pushes (event :: events) = event.value?.toList ++ pushes events := by
  cases event with
  | pushed value => rfl
  | reserved additional => rfl
  | panicked message => rfl
  | other => rfl

theorem demand_cons (event : Event α) (events : List (Event α)) :
    demand (event :: events) = event.room + demand events := List.sum_cons

/-- A call of the iterator, with the value that it gives or `none` at the end.  The inner option
is `none` where the bytes are not those of a value. -/
inductive Look (α : Type u)
  | yielded (item : Option (Option α))
  | other

def Look.item? : Look α → Option (Option (Option α))
  | .yielded item => some item
  | .other => none

/-- While an iterator borrows the vector, only the rest of the crate goes on. -/
inductive Reading [DecidableEq α] (size : Nat) :
    State α × Iter → Look α → State α × Iter → Prop
  | next (s : State α) (it : Iter) :
      Reading size (s, it) (.yielded ((it.next size).1.map fun ptr => s.memory.read size ptr))
        (s, (it.next size).2)
  | other {s s' : State α} (it : Iter) (h : Others s s') : Reading size (s, it) .other (s', it)

def yields (looks : List (Look α)) : List (Option (Option α)) := looks.filterMap Look.item?

/-- The calls of an iterator give these values from the first one on, and then `none`. -/
def YieldsInOrder (values : List α) (looks : List (Look α)) : Prop :=
  ∀ (n : Nat) (item : Option (Option α)), (yields looks)[n]? = some item →
    item = (values[n]?).map some

/-! ## What the vector is -/

/-- The pages of the vector are its own, and the values lie in them in order. -/
structure Holds (size : Nat) (before : AddressSpace usizeRange) (base : List (Nat × Nat))
    (values : List α) (room : Nat) (s : State α) : Prop where
  mirrors : ∃ os, Mirrors before base ⟨s.kernel, s.others ++ s.vec.buffer size⟩ os
  len : s.vec.len = values.length
  len_le : values.length ≤ room
  le_cap : s.vec.len ≤ s.vec.cap
  cap_le : s.vec.cap ≤ 4 + 2 * room
  copied_le : s.copied ≤ s.vec.cap
  stores : ∀ i value, values[i]? = some value →
    s.memory.Stores size (s.vec.ptr + i * size) value

section Frame

/-- A call is the same in the presence of other mappings. -/
theorem step_append {p p' : Process} {call : Call} (h : Process.Step p call p')
    (rest : List (Nat × Nat)) :
    Process.Step ⟨p.kernel, p.mapped ++ rest⟩ call ⟨p'.kernel, p'.mapped ++ rest⟩ := by
  cases h with
  | @allocFromOs size hpos =>
      have hstep := Process.Step.allocFromOs ⟨p.kernel, p.mapped ++ rest⟩ hpos
      simp only [Process.answered] at hstep ⊢
      split at hstep
      · next hnull => rwa [if_pos hnull]
      · next hnull => rwa [if_neg hnull]
  | @allocAlignedFromOs size align hproper hunhindered =>
      have hstep := Process.Step.allocAlignedFromOs ⟨p.kernel, p.mapped ++ rest⟩ hproper hunhindered
      simp only [Process.answered] at hstep ⊢
      split at hstep
      · next hnull => rwa [if_pos hnull]
      · next hnull => rwa [if_neg hnull]
  | @free ptr size hmem =>
      have hstep := Process.Step.free ⟨p.kernel, p.mapped ++ rest⟩
        (List.mem_append_left rest hmem)
      rwa [List.erase_append_left _ hmem] at hstep

variable {before : AddressSpace usizeRange} {base l l' : List (Nat × Nat)} {k : Kernel} {os : Os}

/-- The order of what is mapped does not matter. -/
theorem mirrors_perm (h : Mirrors before base ⟨k, l⟩ os) (hperm : l.Perm l') :
    Mirrors before base ⟨k, l'⟩ os where
  pageSize := h.pageSize
  perm := h.perm.trans (hperm.append_right _)
  page := fun m hm => h.page m (hperm.mem_iff.mpr hm)
  access := fun a => by
    have hload : load (Process.extents ⟨k, l'⟩) a = load (Process.extents ⟨k, l⟩) a :=
      load_perm (hperm.symm.map _)
    rw [hload]
    exact h.access a

end Frame

theorem bytes_eq {n size : Nat} (h : n * size < usizeRange) : bytes n size = n * size :=
  Nat.mod_eq_of_lt h

theorem slot_le {i n : Nat} (size : Nat) (h : i < n) : i * size + size ≤ n * size := by
  rw [← Nat.succ_mul]
  exact Nat.mul_le_mul_right size h

theorem buffer_of_pos {size : Nat} (vec : VecInOs) (h : 0 < vec.cap)
    (hfits : vec.cap * size < usizeRange) : vec.buffer size = [(vec.ptr, vec.cap * size)] := by
  rw [buffer, if_pos h, bytes_eq hfits]

variable {size room : Nat} {before : AddressSpace usizeRange} {base : List (Nat × Nat)}
  {values : List α} {s s' : State α}

/-- A call has failed: whatever the kernel has been asked, no page has changed. -/
def Fails (s s' : State α) : Prop :=
  ∃ kernel : Kernel, kernel.space.pageSize = s.kernel.space.pageSize ∧
    (∀ a, kernel.space.access a = s.kernel.space.access a) ∧ s' = { s with kernel := kernel }

/-- The buffer is large enough, or a larger one is mapped. -/
def Grows (size additional : Nat) (s s' : State α) : Prop :=
  (s.vec.len + additional ≤ s.vec.cap ∧ s' = s) ∨
    (s.vec.cap < s.vec.len + additional ∧ ∃ newPtr newCap kernel,
      newCap = max (max (s.vec.len + additional) (s.vec.cap * 2 % usizeRange)) 4 ∧
      kernel.space.pageSize = s.kernel.space.pageSize ∧
      Given s.kernel.space kernel.space newPtr
        (wholePages s.kernel.space.pageSize (bytes newCap size)) s.kernel.space.pageSize ∧
      s' = s.moveTo size newPtr newCap kernel)

/-- All that `reserve` does. -/
theorem reserve_cases {additional : Nat} {message : Option String}
    (h : s.reserve size additional = (message, s')) :
    (message ≠ none ∧ Fails s s') ∨ (message = none ∧ Grows size additional s s') := by
  unfold State.reserve at h
  simp only at h
  split at h
  · cases h
    exact .inl ⟨Option.some_ne_none _, s.kernel, rfl, fun _ => rfl, rfl⟩
  · split at h
    · next hle =>
        cases h
        exact .inr ⟨rfl, .inl ⟨hle, rfl⟩⟩
    · next hlt =>
        have hasked := s.kernel.allocFromOs_asked
          (bytes (max (max (s.vec.len + additional) (s.vec.cap * 2 % usizeRange)) 4) size)
        generalize s.kernel.allocFromOs_
          (bytes (max (max (s.vec.len + additional) (s.vec.cap * 2 % usizeRange)) 4) size) true =
            result at h hasked
        obtain ⟨⟨newPtr, huge⟩, kernel⟩ := result
        obtain ⟨hpage, ⟨hnull, hsame⟩ | hgiven⟩ := hasked
        · rw [if_pos hnull] at h
          cases h
          exact .inl ⟨Option.some_ne_none _, kernel, hpage, hsame, rfl⟩
        · rw [if_neg hgiven.ne_null] at h
          cases h
          exact .inr ⟨rfl, .inr ⟨by omega, newPtr, _, kernel, rfl, hpage, hgiven, rfl⟩⟩

/-- All that `push` does. -/
theorem push_cases {value : α} {message : Option String} (hle : s.vec.len ≤ s.vec.cap)
    (h : s.push size value = (message, s')) :
    (message ≠ none ∧ Fails s s') ∨
      (message = none ∧ ∃ s₁, Grows size 1 s s₁ ∧ s' = s₁.append size value) := by
  unfold State.push at h
  by_cases hfull : s.vec.len = s.vec.cap
  · rw [if_pos hfull] at h
    rcases hreserve : s.reserve size 1 with ⟨_ | message', s₁⟩
    · rw [hreserve] at h
      cases h
      obtain ⟨hne, -⟩ | ⟨-, hgrows⟩ := reserve_cases hreserve
      · exact absurd rfl hne
      · exact .inr ⟨rfl, s₁, hgrows, rfl⟩
    · rw [hreserve] at h
      cases h
      obtain ⟨hne, hfails⟩ | ⟨hnone, -⟩ := reserve_cases hreserve
      · exact .inl ⟨hne, hfails⟩
      · cases hnone
  · rw [if_neg hfull] at h
    cases h
    exact .inr ⟨rfl, s, .inl ⟨by omega, rfl⟩, rfl⟩

/-- The buffer can be read and written, and nobody else has it. -/
theorem own {k : Kernel} {others : List (Nat × Nat)} {vec : VecInOs} {os : Os}
    (h : Mirrors before base ⟨k, others ++ vec.buffer size⟩ os)
    (hfits : vec.cap * size < usizeRange) {a : Nat} (hle : vec.ptr ≤ a)
    (hlt : a < vec.ptr + vec.cap * size) :
    load (Process.extents ⟨k, others⟩) a = 0 ∧ k.space.access a = some .readWrite := by
  have hcap : 0 < vec.cap := Nat.pos_of_ne_zero fun hzero => by
    rw [hzero, Nat.zero_mul] at hlt
    omega
  have hpages : vec.cap * size ≤ wholePages k.space.pageSize (vec.cap * size) :=
    k.space.le_pagesFor_mul (vec.cap * size)
  have hbuffer : 0 < load (Process.extents ⟨k, vec.buffer size⟩) a := by
    rw [buffer_of_pos vec hcap hfits]
    exact load_pos_iff.mpr ⟨_, List.mem_singleton_self _, hle,
      hlt.trans_le (Nat.add_le_add_left hpages _)⟩
  have hsum : load (Process.extents ⟨k, others ++ vec.buffer size⟩) a =
      load (Process.extents ⟨k, others⟩) a + load (Process.extents ⟨k, vec.buffer size⟩) a := by
    rw [← load_append, Process.extents, List.map_append]
    rfl
  rcases h.access a with ⟨hzero, -⟩ | ⟨hone, haccess, -⟩
  · omega
  · exact ⟨by omega, haccess⟩

/-- The old buffer is unmapped once the new one is mapped. -/
theorem mirrors_moveTo {newPtr newCap : Nat} {kernel : Kernel} {os : Os}
    (hmirrors : Mirrors before base ⟨s.kernel, s.others ++ s.vec.buffer size⟩ os)
    (hpage : kernel.space.pageSize = s.kernel.space.pageSize)
    (hgiven : Given s.kernel.space kernel.space newPtr
      (wholePages s.kernel.space.pageSize (newCap * size)) s.kernel.space.pageSize)
    (hpos : 0 < newCap * size) (hfits : newCap * size < usizeRange)
    (hold : s.vec.cap * size < usizeRange) :
    ∃ os', Mirrors before base ⟨(s.moveTo size newPtr newCap kernel).kernel,
      s.others ++ buffer size ⟨newPtr, s.vec.len, newCap⟩⟩ os' := by
  have hgranted := hmirrors.granted hpos hpage hgiven
    (show { os with mappings := (newPtr, newCap * size) :: os.mappings }.mappings = _ from rfl)
  rw [buffer_of_pos ⟨newPtr, s.vec.len, newCap⟩ (Nat.pos_of_mul_pos_right hpos) hfits]
  unfold State.moveTo
  by_cases hcap : 0 < s.vec.cap
  · have hmem : (s.vec.ptr, s.vec.cap * size) ∈
        (newPtr, newCap * size) :: (s.others ++ [(s.vec.ptr, s.vec.cap * size)]) := by simp
    rw [buffer_of_pos s.vec hcap hold] at hgranted
    simp only [if_pos hcap, bytes_eq hold]
    refine ⟨_, mirrors_perm (hgranted.freed hmem) ?_⟩
    refine List.Perm.cons_inv ((List.perm_cons_erase hmem).symm.trans ?_)
    exact (List.perm_append_singleton _ (_ :: s.others)).trans
      ((List.perm_append_singleton _ s.others).symm.cons _)
  · rw [buffer, if_neg hcap, List.append_nil] at hgranted
    simp only [if_neg hcap]
    exact ⟨_, mirrors_perm hgranted (List.perm_append_singleton _ _).symm⟩

namespace Holds

theorem fits (h : Holds size before base values room s)
    (hroom : (4 + 2 * room) * size < usizeRange) : s.vec.cap * size < usizeRange :=
  (Nat.mul_le_mul_right size h.cap_le).trans_lt hroom

/-- A value lies within the buffer. -/
theorem inside (h : Holds size before base values room s) {i : Nat} {value : α}
    (hi : values[i]? = some value) : i * size + size ≤ s.vec.cap * size := by
  obtain ⟨hlt, -⟩ := List.getElem?_eq_some_iff.mp hi
  exact slot_le size (hlt.trans_le (h.len ▸ h.le_cap))

theorem mono (h : Holds size before base values room s) {room' : Nat} (hle : room ≤ room') :
    Holds size before base values room' s :=
  { h with
    len_le := h.len_le.trans hle
    cap_le := h.cap_le.trans (by omega) }

/-- The values stay where they are while only what the others have changes. -/
theorem stores_of_same (h : Holds size before base values room s) {k : Kernel}
    {others : List (Nat × Nat)} {os : Os} {memory : ByteMemory α}
    (hmirrors : Mirrors before base ⟨k, others ++ s.vec.buffer size⟩ os)
    (hfits : s.vec.cap * size < usizeRange)
    (hmemory : ∀ a, load (Process.extents ⟨k, others⟩) a = 0 → memory a = s.memory a) (i : Nat)
    (value : α) (hi : values[i]? = some value) :
    memory.Stores size (s.vec.ptr + i * size) value := by
  have hinside := h.inside hi
  refine (h.stores i value hi).congr fun a hle hlt => hmemory a ?_
  exact (own hmirrors hfits (by omega) (by omega)).1

/-- What the others do does not reach the vector. -/
theorem other (h : Holds size before base values room s)
    (hroom : (4 + 2 * room) * size < usizeRange) (hbase : ∀ m ∈ base, Covers before m)
    (hothers : Others s s') : Holds size before base values room s' := by
  have hfits := h.fits hroom
  obtain ⟨os, hmirrors⟩ := h.mirrors
  cases hothers with
  | @call call p memory hstep hmemory =>
      obtain ⟨os', -, hmirrors'⟩ := hmirrors.step hbase (step_append hstep (s.vec.buffer size))
      exact { h with
        mirrors := ⟨os', hmirrors'⟩
        stores := h.stores_of_same hmirrors' hfits hmemory }
  | @write memory hmemory =>
      exact { h with
        mirrors := ⟨os, hmirrors⟩
        stores := h.stores_of_same hmirrors hfits hmemory }

/-- The values are copied to the new buffer, which is apart from the old one. -/
theorem stores_moveTo (h : Holds size before base values room s) {newPtr newCap : Nat}
    {kernel : Kernel} {after : AddressSpace usizeRange}
    (hpage : kernel.space.pageSize = s.kernel.space.pageSize)
    (hgiven : Given s.kernel.space after newPtr
      (wholePages s.kernel.space.pageSize (newCap * size)) s.kernel.space.pageSize)
    (hfits : newCap * size < usizeRange) (hold : s.vec.cap * size < usizeRange) (i : Nat)
    (value : α) (hi : values[i]? = some value) :
    (s.moveTo size newPtr newCap kernel).memory.Stores size (newPtr + i * size) value := by
  obtain ⟨os, hmirrors⟩ := h.mirrors
  obtain ⟨hlt, -⟩ := List.getElem?_eq_some_iff.mp hi
  have hlen := h.le_cap
  have hinside := h.inside hi
  have hlenBytes : bytes s.vec.len size = s.vec.len * size :=
    bytes_eq ((Nat.mul_le_mul_right size hlen).trans_lt hold)
  rw [← h.len] at hlt
  rw [State.moveTo, if_pos (by omega)]
  simp only [bytes_eq hfits, hlenBytes, hpage]
  refine ByteMemory.Stores.copyNonoverlapping ?_ (slot_le size hlt)
  refine (h.stores i value hi).congr fun a hle hlt' => ByteMemory.clear_of_not_mem fun hin => ?_
  have hmapped := (own hmirrors hold (a := a) (by omega) (by omega)).2
  have hvacant := hgiven.vacant a hin.1 hin.2
  exact absurd (hmapped.symm.trans hvacant) (Option.some_ne_none _)

/-- The values move with the buffer, and what has been copied has been paid for by the room
that the last buffer was filled up to. -/
theorem moveTo (h : Holds size before base values room s) {newPtr newCap : Nat} {kernel : Kernel}
    (hpage : kernel.space.pageSize = s.kernel.space.pageSize)
    (hgiven : Given s.kernel.space kernel.space newPtr
      (wholePages s.kernel.space.pageSize (newCap * size)) s.kernel.space.pageSize)
    (hpos : 0 < newCap * size) (hfits : newCap * size < usizeRange)
    (hdouble : 2 * s.vec.cap ≤ newCap) (hcap : newCap ≤ 4 + 2 * room) :
    Holds size before base values room (s.moveTo size newPtr newCap kernel) := by
  have hold : s.vec.cap * size < usizeRange :=
    (Nat.mul_le_mul_right size (by omega : s.vec.cap ≤ newCap)).trans_lt hfits
  have hlen := h.le_cap
  have hcopied := (s.copied_moveTo_le size newPtr newCap kernel).trans
    (Nat.add_le_add h.copied_le hlen)
  obtain ⟨os, hmirrors⟩ := h.mirrors
  constructor
  · rw [State.others_moveTo, State.vec_moveTo]
    exact mirrors_moveTo hmirrors hpage hgiven hpos hfits hold
  · rw [State.vec_moveTo]
    exact h.len
  · exact h.len_le
  · rw [State.vec_moveTo]
    show s.vec.len ≤ newCap
    omega
  · rw [State.vec_moveTo]
    exact hcap
  · rw [State.vec_moveTo]
    show (s.moveTo size newPtr newCap kernel).copied ≤ newCap
    omega
  · rw [State.vec_moveTo]
    exact h.stores_moveTo hpage hgiven hfits hold

/-- A call that fails leaves the vector as it was. -/
theorem fails (h : Holds size before base values room s) (hfails : Fails s s') :
    Holds size before base values room s' := by
  obtain ⟨kernel, hpage, hsame, rfl⟩ := hfails
  obtain ⟨os, hmirrors⟩ := h.mirrors
  exact { h with mirrors := ⟨os, hmirrors.refused hpage hsame rfl⟩ }

/-- Room is made for what has been asked, and no product or sum overflows. -/
theorem grows (h : Holds size before base values room s) (hpos : 0 < size)
    (hroom : (4 + 2 * room) * size < usizeRange) {additional : Nat}
    (hadditional : values.length + additional ≤ room) (hgrows : Grows size additional s s') :
    Holds size before base values room s' ∧ values.length + additional ≤ s'.vec.cap := by
  obtain ⟨hle, rfl⟩ | ⟨hlt, newPtr, newCap, kernel, hnew, hpage, hgiven, rfl⟩ := hgrows
  · exact ⟨h, h.len ▸ hle⟩
  · have hlen := h.len
    have hcapLe : s.vec.cap ≤ s.vec.cap * size := Nat.le_mul_of_pos_right _ hpos
    have hcapFits := h.fits hroom
    have hroomLe : 4 + 2 * room ≤ (4 + 2 * room) * size := Nat.le_mul_of_pos_right _ hpos
    have hdouble : s.vec.cap * 2 % usizeRange = s.vec.cap * 2 := Nat.mod_eq_of_lt (by omega)
    rw [hdouble] at hnew
    have hcap : newCap ≤ 4 + 2 * room := by omega
    have hfits : newCap * size < usizeRange := (Nat.mul_le_mul_right size hcap).trans_lt hroom
    have hsizePos : 0 < newCap * size := Nat.mul_pos (by omega) hpos
    rw [bytes_eq hfits] at hgiven
    refine ⟨h.moveTo hpage hgiven hsizePos hfits (by omega) hcap, ?_⟩
    rw [State.vec_moveTo, ← hlen]
    show s.vec.len + additional ≤ newCap
    omega

/-- A value is written behind the others, into the buffer. -/
theorem append (h : Holds size before base values room s) (value : α)
    (hcap : values.length + 1 ≤ s.vec.cap) (hroom : values.length + 1 ≤ room) :
    Holds size before base (values ++ [value]) room (s.append size value) := by
  have hlen := h.len
  constructor
  · exact h.mirrors
  · rw [List.length_append, List.length_singleton, ← hlen]
    rfl
  · rw [List.length_append]
    exact hroom
  · show s.vec.len + 1 ≤ s.vec.cap
    omega
  · exact h.cap_le
  · exact h.copied_le
  · intro i value' hi
    show (s.memory.write size (s.vec.ptr + s.vec.len * size) value).Stores size
      (s.vec.ptr + i * size) value'
    rw [List.getElem?_append] at hi
    split at hi
    · next hlt =>
        have hslot := slot_le size (hlen ▸ hlt)
        exact (h.stores i value' hi).congr fun a hle hlt' =>
          ByteMemory.write_of_not_mem (by omega)
    · next hge =>
        obtain ⟨hlast, hvalue⟩ := List.getElem?_eq_some_iff.mp hi
        rw [List.length_singleton] at hlast
        have hindex : i = s.vec.len := by omega
        have hvalue' : value = value' := by simpa [hindex, hlen] using hvalue
        rw [hindex, hvalue']
        exact ByteMemory.stores_write _ _ _ _

/-- What one event preserves. -/
theorem step (h : Holds size before base values room s) (hpos : 0 < size)
    (hbase : ∀ m ∈ base, Covers before m) {event : Event α}
    (hroom : (4 + 2 * (room + event.room)) * size < usizeRange) (hstep : Step size s event s') :
    Holds size before base (values ++ event.value?.toList) (room + event.room) s' := by
  have hmono := h.mono (Nat.le_add_right room event.room)
  have hlen := h.len_le
  cases hstep with
  | @pushed _ value hpush =>
      obtain ⟨hne, -⟩ | ⟨-, s₁, hgrows, rfl⟩ := push_cases h.le_cap hpush
      · exact absurd rfl hne
      · obtain ⟨hgrown, hcap⟩ := hmono.grows hpos hroom
          (Nat.add_le_add_right hlen 1 : values.length + 1 ≤ room + 1) hgrows
        exact hgrown.append value hcap (Nat.add_le_add_right hlen 1)
  | @reserved _ additional hreserve =>
      obtain ⟨hne, -⟩ | ⟨-, hgrows⟩ := reserve_cases hreserve
      · exact absurd rfl hne
      · have hgrown := hmono.grows hpos hroom (Nat.add_le_add_right hlen additional) hgrows
        simpa [Event.value?] using hgrown.1
  | pushPanicked hpush =>
      obtain ⟨-, hfails⟩ | ⟨hnone, -⟩ := push_cases h.le_cap hpush
      · simpa [Event.value?] using hmono.fails hfails
      · cases hnone
  | reservePanicked hreserve =>
      obtain ⟨-, hfails⟩ | ⟨hnone, -⟩ := reserve_cases hreserve
      · simpa [Event.value?] using hmono.fails hfails
      · cases hnone
  | other hothers => simpa [Event.value?] using hmono.other hroom hbase hothers

/-- What any number of them preserve. -/
theorem run (h : Holds size before base values room s) (hpos : 0 < size)
    (hbase : ∀ m ∈ base, Covers before m) {events : List (Event α)}
    (hrun : Run (Step size) s events s')
    (hroom : (4 + 2 * (room + demand events)) * size < usizeRange) :
    Holds size before base (values ++ pushes events) (room + demand events) s' := by
  induction hrun generalizing values room with
  | nil s => simpa [pushes, demand] using h
  | @cons s m t event events hstep _ ih =>
      rw [demand_cons, ← Nat.add_assoc] at hroom ⊢
      have hfirst : (4 + 2 * (room + event.room)) * size < usizeRange :=
        (Nat.mul_le_mul_right size (by omega)).trans_lt hroom
      have hrest := ih (h.step hpos hbase hfirst hstep) hroom
      rwa [List.append_assoc, ← pushes_cons] at hrest

/-- The items of an iterator that has come to this index. -/
theorem reading [DecidableEq α] {x x' : State α × Iter} {looks : List (Look α)} {i : Nat}
    (h : Holds size before base values room x.1) (hpos : 0 < size)
    (hbase : ∀ m ∈ base, Covers before m) (hroom : (4 + 2 * room) * size < usizeRange)
    (hi : i ≤ values.length)
    (hx : x.2 = ⟨x.1.vec.ptr + i * size, x.1.vec.ptr + x.1.vec.len * size⟩)
    (hrun : Run (Reading size) x looks x') :
    ∀ n item, (yields looks)[n]? = some item → item = (values[i + n]?).map some := by
  induction hrun generalizing i with
  | nil x => exact fun n item hitem => by simp [yields] at hitem
  | @cons x y t look looks hstep _ ih =>
      cases hstep with
      | next s it =>
          have hlen : s.vec.len = values.length := h.len
          have hit : it = ⟨s.vec.ptr + i * size, s.vec.ptr + s.vec.len * size⟩ := hx
          intro n item hitem
          by_cases hend : i = values.length
          · -- The iterator stays at the end.
            have hnext : it.next size = (none, it) := by
              rw [Iter.next, hit, if_pos (by rw [hend, hlen])]
            rw [hnext] at hitem ih
            have hnone : ∀ n, (values[i + n]?).map some = none := fun n => by
              rw [List.getElem?_eq_none (by omega), Option.map_none]
            rw [hnone n]
            cases n with
            | zero => exact (Option.some.inj hitem).symm
            | succ n => exact (ih h hi hx n item hitem).trans (hnone n)
          · have hlt : i < values.length := by omega
            have hslot := slot_le size hlt
            have hnext : it.next size = (some (s.vec.ptr + i * size),
                ⟨s.vec.ptr + (i + 1) * size, s.vec.ptr + s.vec.len * size⟩) := by
              rw [Iter.next, hit, if_neg (by rw [hlen]; dsimp only; omega), Nat.succ_mul,
                ← Nat.add_assoc]
            rw [hnext] at hitem ih
            cases n with
            | zero =>
                have hstored := h.stores i values[i] (List.getElem?_eq_getElem hlt)
                rw [Nat.add_zero, List.getElem?_eq_getElem hlt, Option.map_some,
                  ← hstored.read hpos]
                exact (Option.some.inj hitem).symm
            | succ n =>
                have hrest := ih h (by omega : i + 1 ≤ values.length) rfl n item hitem
                rwa [Nat.add_assoc, Nat.add_comm 1] at hrest
      | @other s s' it hothers =>
          have hvec : s'.vec = s.vec := by
            cases hothers with
            | call => rfl
            | write => rfl
          refine ih (h.other hroom hbase hothers) hi ?_
          show it = ⟨s'.vec.ptr + i * size, s'.vec.ptr + s'.vec.len * size⟩
          rw [hvec]
          exact hx

/-- A vector that is dropped leaves what the others have mapped. -/
theorem drop (h : Holds size before base values room s)
    (hroom : (4 + 2 * room) * size < usizeRange) :
    ∃ os, Mirrors before base ⟨s.drop size, s.others⟩ os := by
  have hfits := h.fits hroom
  obtain ⟨os, hmirrors⟩ := h.mirrors
  unfold State.drop
  by_cases hcap : 0 < s.vec.cap
  · rw [buffer_of_pos s.vec hcap hfits] at hmirrors
    rw [if_pos hcap, bytes_eq hfits]
    have hmem : (s.vec.ptr, s.vec.cap * size) ∈ s.others ++ [(s.vec.ptr, s.vec.cap * size)] :=
      List.mem_append_right _ (List.mem_singleton_self _)
    refine ⟨_, mirrors_perm (hmirrors.freed hmem) ?_⟩
    exact List.Perm.cons_inv ((List.perm_cons_erase hmem).symm.trans
      (List.perm_append_singleton _ _))
  · rw [buffer, if_neg hcap, List.append_nil] at hmirrors
    rw [if_neg hcap]
    exact ⟨os, hmirrors⟩

end Holds

/-- A new vector in a process in which the crate has nothing mapped. -/
def State.start (dangling : Nat) (kernel : Kernel) (memory : ByteMemory α) : State α :=
  ⟨kernel, memory, [], new dangling, 0⟩

/-- While the rest of the crate goes on, a vector that is pushed to and reserved holds what has
been pushed, in a buffer of its own that can be read and written; an iterator gives the values
in order, however the others go on between two items; the values that growing has copied are at
most four more than twice those that room was asked for; and dropping the vector unmaps its
buffer and nothing else. -/
theorem values_of_run [DecidableEq α] {dangling : Nat} {kernel : Kernel} {memory : ByteMemory α}
    {os : Os} {events : List (Event α)} (hpos : 0 < size)
    (hshows : Shows kernel.space os.mappings)
    (hrun : Run (Step size) (.start dangling kernel memory) events s)
    (hfits : (4 + 2 * demand events) * size < usizeRange) :
    (s.vec.len = (pushes events).length ∧ s.vec.len ≤ s.vec.cap ∧
        s.copied ≤ 4 + 2 * demand events) ∧
      (∀ a, s.vec.ptr ≤ a → a < s.vec.ptr + s.vec.cap * size →
        load (Process.extents ⟨s.kernel, s.others⟩) a = 0 ∧
          s.kernel.space.access a = some .readWrite) ∧
      (∀ looks x, Run (Reading size) (s, s.vec.iter size) looks x →
        YieldsInOrder (pushes events) looks) ∧
      ∃ os', Mirrors kernel.space os.mappings ⟨s.drop size, s.others⟩ os' := by
  have hbase : ∀ m ∈ os.mappings, Covers kernel.space m := fun m hm =>
    ⟨hshows.pos m hm, fun a hle hlt => (hshows.access_iff a).mpr ⟨m, hm, hle, hlt⟩⟩
  have hstart : Holds size kernel.space os.mappings [] 0 (.start dangling kernel memory) := by
    constructor
    · exact ⟨os, rfl, .refl _, fun m hm => absurd hm List.not_mem_nil, fun a => .inl ⟨rfl, rfl⟩⟩
    · rfl
    · exact le_rfl
    · exact le_rfl
    · exact Nat.zero_le _
    · exact le_rfl
    · exact fun i value hi => by simp at hi
  have hroom : (4 + 2 * (0 + demand events)) * size < usizeRange := by rwa [Nat.zero_add]
  have hholds := hstart.run hpos hbase hrun hroom
  rw [List.nil_append, Nat.zero_add] at hholds
  refine ⟨⟨hholds.len, hholds.le_cap, hholds.copied_le.trans hholds.cap_le⟩, fun a hle hlt => ?_,
    fun looks x hreading n item hitem => ?_, hholds.drop hfits⟩
  · obtain ⟨os', hmirrors⟩ := hholds.mirrors
    exact own hmirrors (hholds.fits hfits) hle hlt
  · have hitems := hholds.reading (x := (s, s.vec.iter size)) hpos hbase hfits (Nat.zero_le _)
      (by rw [iter, Nat.zero_mul]; rfl) hreading n item hitem
    rwa [Nat.zero_add] at hitems

/-- Pages for a buffer of four addresses, and for one of ten. -/
def twoBuffers : State Nat := .start 8 (Kernel.fresh [.granted 4096, .granted 8192]) fun _ => none

/-- A value is moved to a larger buffer, and another one is pushed. -/
theorem values_of_run_two :
    ∃ s, Run (Step 8) twoBuffers [.pushed 7, .reserved 9, .pushed 11] s ∧ s.copied = 1 ∧
      ∀ looks x, Run (Reading 8) (s, s.vec.iter 8) looks x → YieldsInOrder [7, 11] looks := by
  have hrun : Run (Step 8) twoBuffers [.pushed 7, .reserved 9, .pushed 11] _ :=
    .cons (.pushed (Prod.ext (by decide) rfl)) (.cons (.reserved (Prod.ext (by decide) rfl))
      (.cons (.pushed (Prod.ext (by decide) rfl)) (.nil _)))
  have hshows : Shows (Kernel.fresh [.granted 4096, .granted 8192]).space
      (Os.initial []).mappings :=
    ⟨fun m hm => absurd hm List.not_mem_nil, fun a => by
      simp [Os.initial, Kernel.fresh, AddressSpace.access]⟩
  exact ⟨_, hrun, by decide, (values_of_run (by decide) hshows hrun (by decide)).2.2.1⟩

end VecInOs

end Memalart
