/-
# Cursors with two ends

A list can be taken apart from both ends in any order.  A cursor with two ends follows the
list when each call at an end answers with the element there, or with the end when none is
left, and leaves a cursor that follows the rest.
-/

import Mathlib.Data.List.Basic

namespace Memalart.Lib

universe u v w

variable {σ : Type u} {α : Type v} {ε : Type w}

/-- The two ends of a list. -/
inductive End
  | front
  | back
deriving DecidableEq, Repr

namespace End

/-- The element at an end. -/
def peek : End → List α → Option α
  | front, items => items.head?
  | back, items => items.getLast?

/-- The list without the element at an end. -/
def rest : End → List α → List α
  | front, items => items.tail
  | back, items => items.dropLast

@[simp] theorem length_rest (e : End) (items : List α) : (e.rest items).length = items.length - 1 := by
  cases e with
  | front => exact List.length_tail
  | back => exact List.length_dropLast

/-- What is taken from a list, one element after the other, and what is left of it. -/
def takes : List End → List α → List (Option α) × List α
  | [], items => ([], items)
  | e :: ends, items => ((e.peek items :: (takes ends (e.rest items)).1), (takes ends (e.rest items)).2)

/-- Each call takes one element as long as there are any. -/
theorem length_takes (ends : List End) (items : List α) :
    (takes ends items).2.length = items.length - ends.length := by
  induction ends generalizing items with
  | nil => rfl
  | cons e ends ih =>
      rw [takes, ih, length_rest, List.length_cons]
      omega

/-- Calls at the ends of a cursor, and what they answer. -/
def calls (call : End → σ → Except ε (Option α × σ)) : List End → σ → Except ε (List (Option α) × σ)
  | [], s => .ok ([], s)
  | e :: ends, s => do
      let (answer, s) ← call e s
      let (answers, s) ← calls call ends s
      .ok (answer :: answers, s)

end End

/-- Related cursors and lists stay related, and each call answers as the list does. -/
def Follows (call : End → σ → Except ε (Option α × σ)) (R : σ → List α → Prop) : Prop :=
  ∀ s items, R s items → ∀ e : End, ∃ s', call e s = .ok (e.peek items, s') ∧ R s' (e.rest items)

/-- Any sequence of calls answers as the list does. -/
theorem Follows.calls {call : End → σ → Except ε (Option α × σ)} {R : σ → List α → Prop}
    (h : Follows call R) {s : σ} {items : List α} (hs : R s items) (ends : List End) :
    ∃ s', End.calls call ends s = .ok ((End.takes ends items).1, s') ∧
      R s' (End.takes ends items).2 := by
  induction ends generalizing s items with
  | nil => exact ⟨s, rfl, hs⟩
  | cons e ends ih =>
      obtain ⟨m, hcall, hm⟩ := h s items hs e
      obtain ⟨s', hcalls, hs'⟩ := ih hm
      refine ⟨s', ?_, hs'⟩
      rw [End.calls, hcall]
      show (End.calls call ends m >>= _) = _
      rw [hcalls]
      rfl

end Memalart.Lib
