/-
# Cursors

A cursor answers each call with the next element or with the end, and may fail.  The
module says what it means that a cursor yields a list, what any number of calls leaves of
that list, that a buffer of its length is filled exactly once, and what a search that stops
early finds.
-/

import Mathlib.Data.List.Basic

namespace Memalart.Lib

universe u v w

variable {σ : Type u} {α : Type v} {ε : Type w} {next : σ → Except ε (Option α × σ)}
  {s s' : σ} {items : List α}

/-- The cursor yields these elements and then the end, however often it is asked again. -/
inductive Yields (next : σ → Except ε (Option α × σ)) : σ → List α → Prop
  | done {s s' : σ} : next s = .ok (none, s') → next s' = .ok (none, s') → Yields next s []
  | next {s s' : σ} {a : α} {items : List α} :
      next s = .ok (some a, s') → Yields next s' items → Yields next s (a :: items)

/-- A number of calls, and what they have yielded. -/
def calls (next : σ → Except ε (Option α × σ)) : Nat → σ → Except ε (List α × σ)
  | 0, s => .ok ([], s)
  | n + 1, s =>
      match next s with
      | .error e => .error e
      | .ok (a, s') =>
          match calls next n s' with
          | .error e => .error e
          | .ok (rest, s'') => .ok (a.toList ++ rest, s'')

/-- Calls take elements from the front, and what is left is still to be yielded. -/
theorem Yields.calls (h : Yields next s items) (n : Nat) :
    ∃ s', calls next n s = .ok (items.take n, s') ∧ Yields next s' (items.drop n) := by
  induction n generalizing s items with
  | zero => exact ⟨s, rfl, h⟩
  | succ n ih =>
      cases h with
      | done hend hagain =>
          obtain ⟨s', hcalls, hyields⟩ := ih (.done hagain hagain)
          refine ⟨s', ?_, by simpa using hyields⟩
          simp only [Lib.calls, hend, hcalls, List.take_nil, Option.toList_none, List.append_nil]
      | next hnext hrest =>
          obtain ⟨s', hcalls, hyields⟩ := ih hrest
          refine ⟨s', ?_, hyields⟩
          simp only [Lib.calls, hnext, hcalls, Option.toList_some, List.take_succ_cons,
            List.singleton_append]

/-- A cursor yields one list. -/
theorem Yields.unique {items' : List α} (h : Yields next s items) (h' : Yields next s items') :
    items = items' := by
  induction h generalizing items' with
  | done hend _ =>
      cases h' with
      | done => rfl
      | next hnext _ => cases hend.symm.trans hnext
  | next hnext _ ih =>
      cases h' with
      | done hend _ => cases hend.symm.trans hnext
      | next hnext' hrest =>
          cases hnext.symm.trans hnext'
          rw [ih hrest]

/-- A cursor that reads only a part of the state of another one yields the same. -/
theorem Yields.view {τ : Type u} {next' : τ → Except ε (Option α × τ)} {part : σ → τ}
    (hpart : ∀ s, next' (part s) = (next s).map (Prod.map id part)) (h : Yields next s items) :
    Yields next' (part s) items := by
  induction h with
  | done hend hagain => exact .done (by rw [hpart, hend]; rfl) (by rw [hpart, hagain]; rfl)
  | next hnext _ ih => exact .next (by rw [hpart, hnext]; rfl) ih

/-- Write what the cursor yields into slots, one after the other.  A slot keeps
everything that is written to it. -/
def fill (next : σ → Except ε (Option α × σ)) (outside outOfFuel : ε) :
    Nat → σ → Nat → List (List α) → Except ε (List (List α) × σ)
  | 0, _, _, _ => .error outOfFuel
  | fuel + 1, s, idx, slots =>
      match next s with
      | .error e => .error e
      | .ok (none, s') => .ok (slots, s')
      | .ok (some a, s') =>
          if idx < slots.length then
            fill next outside outOfFuel fuel s' (idx + 1) (slots.modify idx (· ++ [a]))
          else .error outside

/-- Empty slots behind written ones, as many as the cursor yields, are each written once. -/
theorem Yields.fill (h : Yields next s items) (outside outOfFuel : ε) (written : List (List α))
    {fuel : Nat} (hfuel : items.length < fuel) :
    ∃ s', fill next outside outOfFuel fuel s written.length
      (written ++ List.replicate items.length []) = .ok (written ++ items.map ([·]), s') := by
  induction h generalizing written fuel with
  | @done s s' hend _ =>
      obtain ⟨fuel, rfl⟩ := Nat.exists_eq_add_one_of_ne_zero (Nat.ne_of_gt hfuel)
      exact ⟨s', by simp only [Lib.fill, hend, List.length_nil, List.replicate_zero, List.map_nil]⟩
  | @next s s' a items hnext _ ih =>
      obtain ⟨fuel, rfl⟩ := Nat.exists_eq_add_one_of_ne_zero (Nat.ne_of_gt (Nat.zero_lt_of_lt hfuel))
      obtain ⟨s'', hfill⟩ := ih (written ++ [[a]]) (Nat.lt_of_succ_lt_succ hfuel)
      have hslots : (written ++ List.replicate (items.length + 1) []).modify written.length
          (· ++ [a]) = written ++ [[a]] ++ List.replicate items.length [] := by
        have hmodify := List.modifyTailIdx_add (List.modifyHead (· ++ [a])) 0 written
          (List.replicate (items.length + 1) [])
        rw [List.modify, ← Nat.add_zero written.length, hmodify, List.replicate_succ]
        simp
      refine ⟨s'', ?_⟩
      simp only [Lib.fill, hnext, List.length_cons, hslots]
      rw [if_pos (by simp)]
      simpa using hfill

/-- Call the cursor until an element decides, or the elements end. -/
def scan {β : Type v} (next : σ → Except ε (Option α × σ)) (outOfFuel : ε) (decides : α → Option β) :
    Nat → σ → Except ε (Option β)
  | 0, _ => .error outOfFuel
  | fuel + 1, s =>
      match next s with
      | .error e => .error e
      | .ok (none, _) => .ok none
      | .ok (some a, s') =>
          match decides a with
          | some b => .ok (some b)
          | none => scan next outOfFuel decides fuel s'

/-- The first element that decides, if the fuel is enough to reach the end. -/
theorem Yields.scan {β : Type v} (h : Yields next s items) (outOfFuel : ε) (decides : α → Option β)
    {fuel : Nat} (hfuel : items.length < fuel) :
    scan next outOfFuel decides fuel s = .ok (items.findSome? decides) := by
  induction h generalizing fuel with
  | done hend _ =>
      obtain ⟨fuel, rfl⟩ := Nat.exists_eq_add_one_of_ne_zero (Nat.ne_of_gt hfuel)
      simp only [Lib.scan, hend, List.findSome?_nil]
  | @next s s' a items hnext _ ih =>
      obtain ⟨fuel, rfl⟩ := Nat.exists_eq_add_one_of_ne_zero (Nat.ne_of_gt (Nat.zero_lt_of_lt hfuel))
      simp only [Lib.scan, hnext, List.findSome?_cons]
      cases decides a with
      | some b => rfl
      | none => exact ih (Nat.lt_of_succ_lt_succ hfuel)

/-- The answer does not depend on the fuel. -/
theorem Yields.scan_eq {β : Type v} (h : Yields next s items) {outOfFuel : ε}
    {decides : α → Option β} {fuel : Nat} {r : Option β}
    (hscan : Lib.scan next outOfFuel decides fuel s = .ok r) : r = items.findSome? decides := by
  induction h generalizing fuel with
  | done hend _ =>
      cases fuel with
      | zero => cases hscan
      | succ fuel =>
          simp only [Lib.scan, hend] at hscan
          cases hscan
          rfl
  | @next s s' a items hnext _ ih =>
      cases fuel with
      | zero => cases hscan
      | succ fuel =>
          simp only [Lib.scan, hnext] at hscan
          rw [List.findSome?_cons]
          cases hdecides : decides a with
          | some b =>
              rw [hdecides] at hscan
              cases hscan
              rfl
          | none =>
              rw [hdecides] at hscan
              exact ih hscan

end Memalart.Lib
