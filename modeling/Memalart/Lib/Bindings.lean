/-
# Ascending lists of bindings

A finite map over ordered keys is listed by its bindings in ascending order.  The module says
when a list is the listing of a map, and what a change of the map at one key does to it.
-/

import Mathlib.Data.List.Pairwise
import Mathlib.Data.List.Perm.Subperm
import Mathlib.Data.List.Sort
import Mathlib.Logic.Function.Basic
import Mathlib.Order.Lattice

namespace Memalart.Lib

universe u v

variable {K : Type u} {V : Type v} [LinearOrder K] {key : K} {val : V}
  {left right items : List (K × V)} {item : K × V} {m : K → Option V}

/-- The keys ascend. -/
def Ascending (items : List (K × V)) : Prop := items.Pairwise fun a b => a.1 < b.1

/-- All keys are smaller. -/
def Below (key : K) (items : List (K × V)) : Prop := ∀ x ∈ items, x.1 < key

/-- All keys are larger. -/
def Above (key : K) (items : List (K × V)) : Prop := ∀ x ∈ items, key < x.1

theorem Below.append (hleft : Below key left) (hright : Below key right) :
    Below key (left ++ right) := by
  intro x hx
  exact (List.mem_append.1 hx).elim (hleft x) (hright x)

/-- Keys ascend around one of them. -/
theorem ascending_append_cons :
    Ascending (left ++ item :: right) ↔
      Ascending (left ++ right) ∧ Below item.1 left ∧ Above item.1 right := by
  simp only [Ascending, Below, Above, List.pairwise_append, List.pairwise_cons, List.mem_cons,
    forall_eq_or_imp]
  constructor
  · rintro ⟨hleft, ⟨habove, hright⟩, hcross⟩
    exact ⟨⟨hleft, hright, fun a ha => (hcross a ha).2⟩, fun a ha => (hcross a ha).1, habove⟩
  · rintro ⟨⟨hleft, hright, hcross⟩, hbelow, habove⟩
    exact ⟨hleft, ⟨habove, hright⟩, fun a ha => ⟨hbelow a ha, hcross a ha⟩⟩

/-- Everything up to a smaller key is smaller. -/
theorem Ascending.below (hasc : Ascending (left ++ item :: right)) (hlt : item.1 < key) :
    Below key (left ++ [item]) := by
  obtain ⟨-, hbelow, -⟩ := ascending_append_cons.1 hasc
  refine Below.append (fun x hx => (hbelow x hx).trans hlt) ?_
  intro x hx
  rw [List.mem_singleton.1 hx]
  exact hlt

/-- Everything from a larger key on is larger. -/
theorem Ascending.above (hasc : Ascending (left ++ item :: right)) (hlt : key < item.1) :
    Above key (item :: right) := by
  obtain ⟨-, -, habove⟩ := ascending_append_cons.1 hasc
  intro x hx
  rcases List.mem_cons.1 hx with rfl | hx
  · exact hlt
  · exact hlt.trans (habove x hx)

/-! ## Maps at one key -/

/-- The map with a function applied to the value of a key. -/
def modifyAt (m : K → Option V) (key : K) (f : V → V) : K → Option V :=
  Function.update m key ((m key).map f)

/-- The map with a value for a key that has none. -/
def insertDefault (m : K → Option V) (key : K) (default : V) : K → Option V :=
  Function.update m key (some ((m key).getD default))

theorem modifyAt_of_some {f : V → V} (h : m key = some val) :
    modifyAt m key f = Function.update m key (some (f val)) := by
  rw [modifyAt, h, Option.map_some]

theorem modifyAt_of_none {f : V → V} (h : m key = none) : modifyAt m key f = m := by
  rw [modifyAt, h, Option.map_none]
  exact Function.update_eq_self_iff.2 h.symm

theorem insertDefault_of_some {default : V} (h : m key = some val) : insertDefault m key default = m := by
  rw [insertDefault, h, Option.getD_some]
  exact Function.update_eq_self_iff.2 h.symm

theorem insertDefault_of_none {default : V} (h : m key = none) :
    insertDefault m key default = Function.update m key (some default) := by
  rw [insertDefault, h, Option.getD_none]

/-! ## Listings -/

/-- The list has the bindings of a map, in ascending order. -/
structure Lists (items : List (K × V)) (m : K → Option V) : Prop where
  ascending : Ascending items
  mem_iff (key : K) (val : V) : (key, val) ∈ items ↔ m key = some val

/-- The map without bindings. -/
theorem Lists.nil : Lists ([] : List (K × V)) fun _ => none :=
  ⟨.nil, by simp⟩

namespace Lists

/-- A binding that is listed. -/
theorem apply_eq (h : Lists (left ++ (key, val) :: right) m) : m key = some val :=
  (h.mem_iff key val).1 (by simp)

/-- A key between two neighbours is not bound. -/
theorem apply_eq_none (h : Lists (left ++ right) m) (hleft : Below key left)
    (hright : Above key right) : m key = none := by
  rw [Option.eq_none_iff_forall_ne_some]
  intro val hval
  rcases List.mem_append.1 ((h.mem_iff key val).2 hval) with hmem | hmem
  · exact (hleft _ hmem).ne rfl
  · exact (hright _ hmem).ne rfl

/-- A new binding. -/
theorem insert (h : Lists (left ++ right) m) (hleft : Below key left) (hright : Above key right)
    (val : V) : Lists (left ++ (key, val) :: right) (Function.update m key (some val)) := by
  refine ⟨ascending_append_cons.2 ⟨h.ascending, hleft, hright⟩, ?_⟩
  intro k v
  by_cases hk : k = key
  · subst hk
    rw [Function.update_self, Option.some.injEq, List.mem_append, List.mem_cons]
    constructor
    · rintro (hmem | heq | hmem)
      · exact absurd (hleft _ hmem) (lt_irrefl k)
      · exact (congrArg Prod.snd heq).symm
      · exact absurd (hright _ hmem) (lt_irrefl k)
    · rintro rfl
      exact .inr (.inl rfl)
  · have hne : (k, v) ≠ (key, val) := fun heq => hk (congrArg Prod.fst heq)
    rw [Function.update_of_ne hk, ← h.mem_iff, List.mem_append, List.mem_append, List.mem_cons,
      or_iff_right hne]

/-- A binding that is taken out. -/
theorem erase (h : Lists (left ++ (key, val) :: right) m) :
    Lists (left ++ right) (Function.update m key none) := by
  obtain ⟨hasc, hleft, hright⟩ := ascending_append_cons.1 h.ascending
  refine ⟨hasc, ?_⟩
  intro k v
  by_cases hk : k = key
  · subst hk
    rw [Function.update_self, List.mem_append]
    constructor
    · rintro (hmem | hmem)
      · exact absurd (hleft _ hmem) (lt_irrefl k)
      · exact absurd (hright _ hmem) (lt_irrefl k)
    · intro hnone
      cases hnone
  · have hne : (k, v) ≠ (key, val) := fun heq => hk (congrArg Prod.fst heq)
    rw [Function.update_of_ne hk, ← h.mem_iff, List.mem_append, List.mem_append, List.mem_cons,
      or_iff_right hne]

/-- Another value for a key. -/
theorem replace (h : Lists (left ++ (key, val) :: right) m) (val' : V) :
    Lists (left ++ (key, val') :: right) (Function.update m key (some val')) := by
  obtain ⟨-, hleft, hright⟩ := ascending_append_cons.1 h.ascending
  have hinsert := h.erase.insert hleft hright val'
  rwa [Function.update_idem] at hinsert

/-- A listing is at least as long as any list of different keys that are bound. -/
theorem length_le {items : List (K × V)} (h : Lists items m) {keys : List K}
    (hkeys : keys.Nodup) (hbound : ∀ key ∈ keys, m key ≠ none) : keys.length ≤ items.length := by
  have hsub : keys ⊆ items.map Prod.fst := by
    intro key hkey
    obtain ⟨val, hval⟩ := Option.ne_none_iff_exists'.1 (hbound key hkey)
    exact List.mem_map.2 ⟨(key, val), (h.mem_iff key val).2 hval, rfl⟩
  have hlength := (List.subperm_of_subset hkeys hsub).length_le
  rwa [List.length_map] at hlength

/-- A map has one listing. -/
theorem unique {items items' : List (K × V)} (h : Lists items m) (h' : Lists items' m) :
    items = items' := by
  have hirrefl : Std.Irrefl fun a b : K × V => a.1 < b.1 := ⟨fun a => lt_irrefl a.1⟩
  refine List.Pairwise.eq_of_mem_iff h.ascending h'.ascending ?_
  rintro ⟨key, val⟩
  rw [h.mem_iff, h'.mem_iff]

/-- No key is listed twice. -/
theorem nodup_keys (h : Lists items m) : (items.map Prod.fst).Nodup :=
  List.pairwise_map.2 (h.ascending.imp fun hlt => hlt.ne)

theorem nodup (h : Lists items m) : items.Nodup := .of_map Prod.fst h.nodup_keys

/-- The values of one key are changed in place. -/
theorem modify (h : Lists items m) (key : K) (f : V → V) :
    Lists (items.map fun e => if e.1 = key then (e.1, f e.2) else e) (modifyAt m key f) := by
  have hfst : ∀ e : K × V, (if e.1 = key then (e.1, f e.2) else e).1 = e.1 := by
    intro e
    split <;> rfl
  refine ⟨List.pairwise_map.2 (h.ascending.imp fun hlt => ?_), fun k val => ?_⟩
  · rw [hfst, hfst]
    exact hlt
  · rw [List.mem_map, modifyAt]
    constructor
    · rintro ⟨⟨k', val'⟩, hmem, heq⟩
      rw [h.mem_iff] at hmem
      by_cases hkey : k' = key
      · subst hkey
        rw [if_pos rfl] at heq
        cases heq
        rw [Function.update_self, hmem, Option.map_some]
      · rw [if_neg hkey] at heq
        cases heq
        rw [Function.update_of_ne hkey, hmem]
    · intro hval
      by_cases hkey : k = key
      · subst hkey
        rw [Function.update_self] at hval
        obtain ⟨val', hval', rfl⟩ := Option.map_eq_some_iff.1 hval
        exact ⟨(k, val'), (h.mem_iff k val').2 hval', if_pos rfl⟩
      · rw [Function.update_of_ne hkey] at hval
        exact ⟨(k, val), (h.mem_iff k val).2 hval, if_neg hkey⟩

/-- One key is left out. -/
theorem remove (h : Lists items m) (key : K) :
    Lists (items.filter fun e => e.1 ≠ key) (Function.update m key none) := by
  refine ⟨h.ascending.filter _, fun k val => ?_⟩
  rw [List.mem_filter, h.mem_iff, decide_eq_true_eq]
  by_cases hkey : k = key
  · subst hkey
    simp
  · simp [hkey]

/-- The listing with one more key, in any order. -/
theorem perm_cons {items' : List (K × V)} (h : Lists items m) (hnone : m key = none)
    (h' : Lists items' (Function.update m key (some val))) : items'.Perm ((key, val) :: items) := by
  have hnot : (key, val) ∉ items := by
    rw [h.mem_iff, hnone]
    exact Option.some_ne_none val ∘ Eq.symm
  refine (List.perm_ext_iff_of_nodup h'.nodup (List.nodup_cons.2 ⟨hnot, h.nodup⟩)).2 ?_
  rintro ⟨k, v⟩
  rw [List.mem_cons, h.mem_iff, h'.mem_iff, Prod.mk.injEq]
  by_cases hkey : k = key
  · subst hkey
    rw [Function.update_self, hnone, Option.some.injEq]
    simp [eq_comm]
  · rw [Function.update_of_ne hkey]
    simp [hkey]

end Lists

end Memalart.Lib
