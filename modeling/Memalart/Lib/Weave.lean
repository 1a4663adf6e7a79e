/-
# Blocks with separators between them

A search tree lists the blocks of its children in order and puts one separator between
two neighbours.  The module gives that listing, for blocks and separators of any kind, and
how it comes apart at a block, at a separator, and where two listings are joined by one.
-/

import Mathlib.Data.List.Nodup

namespace Memalart.Lib

universe u v

variable {α : Type u}

/-- The blocks in order, with a separator behind each block as long as there are any. -/
def weave : List (List α) → List α → List α
  | [], _ => []
  | block :: blocks, [] => block ++ weave blocks []
  | block :: blocks, s :: seps => block ++ s :: weave blocks seps

variable {blocks blocks' : List (List α)} {seps seps' : List α}

@[simp] theorem weave_nil : weave [] seps = [] := by
  unfold weave
  rfl

@[simp] theorem weave_singleton (block : List α) : weave [block] [] = block := by
  simp [weave]

@[simp] theorem weave_cons_cons (block : List α) (s : α) :
    weave (block :: blocks) (s :: seps) = block ++ s :: weave blocks seps := by
  rw [weave]

/-- Behind as many separators as blocks, the listing starts anew. -/
theorem weave_append (h : blocks.length = seps.length) :
    weave (blocks ++ blocks') (seps ++ seps') = weave blocks seps ++ weave blocks' seps' := by
  induction blocks generalizing seps with
  | nil =>
      rw [List.length_nil, eq_comm, List.length_eq_zero_iff] at h
      subst h
      simp
  | cons block blocks ih =>
      cases seps with
      | nil => simp at h
      | cons s seps =>
          have hrest := ih (Nat.succ.inj h)
          rw [List.cons_append, List.cons_append, weave_cons_cons, weave_cons_cons, hrest,
            List.append_assoc, List.cons_append]

/-- The first block can be split off. -/
theorem weave_cons (block : List α) :
    weave (block :: blocks) seps = block ++ weave ([] :: blocks) seps := by
  cases seps with
  | nil => simp [weave]
  | cons s seps => simp

/-- Two listings that are joined by a separator. -/
theorem weave_join (s : α) (h : blocks.length = seps.length + 1) :
    weave (blocks ++ blocks') (seps ++ s :: seps') =
      weave blocks seps ++ s :: weave blocks' seps' := by
  induction blocks generalizing seps with
  | nil => simp at h
  | cons block blocks ih =>
      cases seps with
      | nil =>
          rw [List.length_cons, List.length_nil, Nat.zero_add, Nat.succ.injEq,
            List.length_eq_zero_iff] at h
          subst h
          simp
      | cons t seps =>
          have hrest := ih (Nat.succ.inj h)
          rw [List.cons_append, List.cons_append, weave_cons_cons, weave_cons_cons, hrest,
            List.append_assoc, List.cons_append]

/-- What is listed stands in a block or is a separator. -/
theorem mem_weave {x : α} (h : x ∈ weave blocks seps) : (∃ block ∈ blocks, x ∈ block) ∨ x ∈ seps := by
  induction blocks generalizing seps with
  | nil => simp at h
  | cons block blocks ih =>
      cases seps with
      | nil =>
          rw [weave, List.mem_append] at h
          rcases h with hblock | hrest
          · exact .inl ⟨block, List.mem_cons_self, hblock⟩
          · obtain ⟨b, hb, hx⟩ := (ih hrest).resolve_right List.not_mem_nil
            exact .inl ⟨b, List.mem_cons_of_mem _ hb, hx⟩
      | cons s seps =>
          rw [weave_cons_cons, List.mem_append, List.mem_cons] at h
          rcases h with hblock | rfl | hrest
          · exact .inl ⟨block, List.mem_cons_self, hblock⟩
          · exact .inr List.mem_cons_self
          · rcases ih hrest with ⟨b, hb, hx⟩ | hx
            · exact .inl ⟨b, List.mem_cons_of_mem _ hb, hx⟩
            · exact .inr (List.mem_cons_of_mem _ hx)

/-- A selection that drops the separators sees only the blocks. -/
theorem filterMap_weave {β : Type v} (f : α → Option β) (hseps : ∀ s ∈ seps, f s = none) :
    (weave blocks seps).filterMap f = (blocks.map (List.filterMap f)).flatten := by
  induction blocks generalizing seps with
  | nil => simp
  | cons block blocks ih =>
      cases seps with
      | nil =>
          rw [weave, List.filterMap_append, ih (by simp), List.map_cons, List.flatten_cons]
      | cons s seps =>
          have hrest := ih fun t ht => hseps t (List.mem_cons_of_mem _ ht)
          rw [weave_cons_cons, List.filterMap_append, List.filterMap_cons_none (hseps s List.mem_cons_self),
            hrest, List.map_cons, List.flatten_cons]

/-- An element that a selection without repetitions selects stands at one place. -/
theorem append_cons_unique {β : Type v} {f : α → Option β} {b : β} {xs xs' ys ys' : List α} {x x' : α}
    (hnodup : ((xs ++ x :: ys).filterMap f).Nodup) (h : xs ++ x :: ys = xs' ++ x' :: ys')
    (hx : f x = some b) (hx' : f x' = some b) : xs = xs' ∧ x = x' ∧ ys = ys' := by
  induction xs generalizing xs' with
  | nil =>
      rw [List.nil_append, List.filterMap_cons_some hx, List.nodup_cons] at hnodup
      cases xs' with
      | nil =>
          rw [List.nil_append, List.nil_append, List.cons.injEq] at h
          exact ⟨rfl, h⟩
      | cons z zs =>
          rw [List.nil_append, List.cons_append, List.cons.injEq] at h
          refine absurd (List.mem_filterMap.2 ⟨x', ?_, hx'⟩) hnodup.1
          rw [h.2]
          simp
  | cons z zs ih =>
      cases xs' with
      | nil =>
          rw [List.nil_append, List.cons_append, List.cons.injEq] at h
          rw [List.cons_append, h.1, List.filterMap_cons_some hx', List.nodup_cons] at hnodup
          exact absurd (List.mem_filterMap.2 ⟨x, by simp, hx⟩) hnodup.1
      | cons z' zs' =>
          rw [List.cons_append, List.cons_append, List.cons.injEq] at h
          have hrest : ((zs ++ x :: ys).filterMap f).Nodup :=
            hnodup.sublist (List.Sublist.filterMap f (List.sublist_cons_self _ _))
          obtain ⟨rfl, hx, hys⟩ := ih hrest h.2
          exact ⟨by rw [h.1], hx, hys⟩

end Memalart.Lib
