/-
# Bytes that hold values

A memory says of each byte which value it is a part of, and which part.  Values of any type
can be written to it, copied in it as bytes, and read back where all their bytes lie in order.
-/

import Mathlib.Order.Basic

namespace Memalart.Lib

universe u

/-- For each address the value that its byte belongs to, and which byte of it that is. -/
abbrev ByteMemory (α : Type u) := Nat → Option (α × Nat)

namespace ByteMemory

variable {α : Type u}

def write (size ptr : Nat) (value : α) (memory : ByteMemory α) : ByteMemory α := fun a =>
  if ptr ≤ a ∧ a < ptr + size then some (value, a - ptr) else memory a

/-- Copy so many bytes; source and destination do not overlap. -/
def copyNonoverlapping (src dst bytes : Nat) (memory : ByteMemory α) : ByteMemory α := fun a =>
  if dst ≤ a ∧ a < dst + bytes then memory (src + (a - dst)) else memory a

/-- The bytes hold no value. -/
def clear (ptr bytes : Nat) (memory : ByteMemory α) : ByteMemory α := fun a =>
  if ptr ≤ a ∧ a < ptr + bytes then none else memory a

def read [DecidableEq α] (size ptr : Nat) (memory : ByteMemory α) : Option α :=
  (memory ptr).bind fun part =>
    if ∀ i < size, memory (ptr + i) = some (part.1, i) then some part.1 else none

/-- The bytes of the value lie here, in order. -/
def Stores (size ptr : Nat) (value : α) (memory : ByteMemory α) : Prop :=
  ∀ i < size, memory (ptr + i) = some (value, i)

variable {memory memory' : ByteMemory α} {size ptr bytes : Nat} {value : α}

theorem Stores.read [DecidableEq α] (h : memory.Stores size ptr value) (hpos : 0 < size) :
    memory.read size ptr = some value := by
  have hfirst : memory ptr = some (value, 0) := h 0 hpos
  simp only [ByteMemory.read, hfirst, Option.bind_some]
  exact if_pos h

theorem stores_write (memory : ByteMemory α) (size ptr : Nat) (value : α) :
    (memory.write size ptr value).Stores size ptr value := fun i hi => by
  rw [write, if_pos ⟨by omega, by omega⟩, Nat.add_sub_cancel_left]

/-- A value stays where no byte of it changes. -/
theorem Stores.congr (h : memory.Stores size ptr value)
    (hsame : ∀ a, ptr ≤ a → a < ptr + size → memory' a = memory a) :
    memory'.Stores size ptr value := fun i hi => by
  rw [hsame (ptr + i) (by omega) (by omega), h i hi]

theorem write_of_not_mem {a : Nat} (hout : ¬(ptr ≤ a ∧ a < ptr + size)) :
    memory.write size ptr value a = memory a := if_neg hout

theorem clear_of_not_mem {a : Nat} (hout : ¬(ptr ≤ a ∧ a < ptr + bytes)) :
    memory.clear ptr bytes a = memory a := if_neg hout

/-- A value is copied with the bytes around it. -/
theorem Stores.copyNonoverlapping {src dst offset : Nat}
    (h : memory.Stores size (src + offset) value) (hle : offset + size ≤ bytes) :
    (memory.copyNonoverlapping src dst bytes).Stores size (dst + offset) value := fun i hi => by
  have hbyte := h i hi
  rw [Nat.add_assoc] at hbyte
  rw [ByteMemory.copyNonoverlapping, if_pos ⟨by omega, by omega⟩, Nat.add_assoc,
    Nat.add_sub_cancel_left, hbyte]

end ByteMemory

end Memalart.Lib
