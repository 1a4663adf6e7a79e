/-
# Association lists without repeated keys

How `List.lookup` follows the operations of a map that is kept as a list of
bindings.
-/

import Mathlib.Data.List.Nodup
import Mathlib.Data.List.Perm.Basic

namespace Memalart.Lib

universe u v

variable {κ : Type u} {β : Type v} [DecidableEq κ] {entries entries' : List (κ × β)}

theorem lookup_cons_of_ne {key k : κ} {value : β} (h : key ≠ k) :
    ((k, value) :: entries).lookup key = entries.lookup key := by
  rw [List.lookup_cons, beq_false_of_ne h]

theorem lookup_cons_same (k : κ) (value : β) : ((k, value) :: entries).lookup k = some value := by
  simp

/-- Without repeated keys the bindings are what `lookup` finds. -/
theorem lookup_eq_some_iff {k : κ} {value : β} (hnodup : (entries.map Prod.fst).Nodup) :
    entries.lookup k = some value ↔ (k, value) ∈ entries := by
  induction entries with
  | nil => simp
  | cons e rest ih =>
      obtain ⟨key, first⟩ := e
      rw [List.map_cons, List.nodup_cons] at hnodup
      by_cases hkey : k = key
      · subst hkey
        have hnot : (k, value) ∉ rest := fun hm => hnodup.1 (List.mem_map.2 ⟨_, hm, rfl⟩)
        simp [hnot, eq_comm]
      · rw [lookup_cons_of_ne hkey, ih hnodup.2]
        simp [hkey]

theorem lookup_congr_of_perm (h : entries.Perm entries') (hnodup : (entries.map Prod.fst).Nodup)
    (k : κ) : entries.lookup k = entries'.lookup k := by
  have hnodup' : (entries'.map Prod.fst).Nodup := (h.map Prod.fst).nodup_iff.1 hnodup
  apply Option.ext
  intro value
  rw [lookup_eq_some_iff hnodup, lookup_eq_some_iff hnodup', h.mem_iff]

/-- A change of the value at one key. -/
theorem lookup_map_update (k : κ) (f : β → β) (key : κ) :
    (entries.map fun e => if e.1 = k then (e.1, f e.2) else e).lookup key =
      if key = k then (entries.lookup key).map f else entries.lookup key := by
  induction entries with
  | nil => simp
  | cons e rest ih =>
      obtain ⟨first, value⟩ := e
      rw [List.map_cons]
      by_cases hkey : key = first
      · subst hkey
        by_cases hk : key = k
        · simp [hk]
        · simp [hk]
      · have hupdate : (if first = k then (first, f value) else (first, value)) =
            (first, if first = k then f value else value) := by
          split <;> rfl
        rw [hupdate, lookup_cons_of_ne hkey, lookup_cons_of_ne hkey, ih]

theorem map_fst_update (k : κ) (f : β → β) :
    (entries.map fun e => if e.1 = k then (e.1, f e.2) else e).map Prod.fst =
      entries.map Prod.fst := by
  rw [List.map_map]
  apply List.map_congr_left
  intro e _
  rw [Function.comp_apply]
  split <;> rfl

/-- The removal of a key. -/
theorem lookup_filter_ne (k key : κ) :
    (entries.filter fun e => e.1 ≠ k).lookup key =
      if key = k then none else entries.lookup key := by
  induction entries with
  | nil => simp
  | cons e rest ih =>
      obtain ⟨first, value⟩ := e
      by_cases hk : first = k
      · subst hk
        rw [List.filter_cons_of_neg (by simp), ih]
        by_cases hkey : key = first
        · rw [if_pos hkey, if_pos hkey]
        · rw [if_neg hkey, if_neg hkey, lookup_cons_of_ne hkey]
      · rw [List.filter_cons_of_pos (by simpa using hk)]
        by_cases hkey : key = first
        · subst hkey
          rw [lookup_cons_same, lookup_cons_same, if_neg hk]
        · rw [lookup_cons_of_ne hkey, lookup_cons_of_ne hkey, ih]

/-! ## Keys and values side by side -/

theorem lookup_zip_of_notMem {keys : List κ} {k : κ} (h : k ∉ keys) (values : List β) :
    (keys.zip values).lookup k = none := by
  induction keys generalizing values with
  | nil => rfl
  | cons key keys ih =>
      rw [List.mem_cons, not_or] at h
      cases values with
      | nil => rfl
      | cons value values => exact (lookup_cons_of_ne h.1).trans (ih h.2 values)

/-- Different keys find all values in their order. -/
theorem map_lookup_zip {keys : List κ} {values : List β} (hnodup : keys.Nodup)
    (hlen : values.length = keys.length) (default : κ → β) :
    keys.map (fun k => ((keys.zip values).lookup k).getD (default k)) = values := by
  induction keys generalizing values with
  | nil => exact (List.length_eq_zero_iff.1 hlen).symm
  | cons key keys ih =>
      obtain ⟨hnot, hnodup⟩ := List.nodup_cons.1 hnodup
      cases values with
      | nil => cases hlen
      | cons value values =>
          have hrest := ih hnodup (Nat.succ.inj hlen)
          rw [List.zip_cons_cons, List.map_cons, lookup_cons_same, Option.getD_some]
          congr 1
          refine Eq.trans (List.map_congr_left fun k hk => ?_) hrest
          rw [lookup_cons_of_ne (ne_of_mem_of_not_mem hk hnot)]

omit [DecidableEq κ] in
theorem nodup_keys_filter (hnodup : (entries.map Prod.fst).Nodup) (p : κ × β → Bool) :
    ((entries.filter p).map Prod.fst).Nodup :=
  hnodup.sublist (List.filter_sublist.map Prod.fst)

end Memalart.Lib
