/-
# Counting objects by size without a heap

`UsedObjectsFixed` is an array of `(count, size)` entries kept in ascending order
of the sizes, with a fixed capacity.  The allocator counts with it what it has
allocated for itself, and `handle_state` the used chunks of a State.  The module
translates the binary search and the insertion and shows that the array is a
finite map from sizes to sums.
-/

import Mathlib.Data.List.GetD
import Mathlib.Data.List.InsertIdx
import Mathlib.Data.List.Perm.Subperm
import Memalart.Sizes

namespace Memalart

/-- The entries in use, each a count and a real size. -/
abbrev UsedObjects := List (Nat × Nat)

namespace UsedObjects

/-- One round of the search between `low` and `high`; `fuel` bounds the rounds. -/
def binarySearchFrom (arr : UsedObjects) (realSize : Nat) : Nat → Nat → Nat → Except Nat Nat
  | 0, low, _ => .error low
  | fuel + 1, low, high =>
      if low < high then
        let mid := (low + high) / 2
        let midVal := (arr.getD mid (0, 0)).2
        if midVal < realSize then binarySearchFrom arr realSize fuel (mid + 1) high
        else if midVal > realSize then binarySearchFrom arr realSize fuel low mid
        else .ok mid
      else .error low

/-- `binary_search`: the index of the size, or where it has to be inserted. -/
def binarySearch (arr : UsedObjects) (realSize : Nat) : Except Nat Nat :=
  binarySearchFrom arr realSize arr.length 0 arr.length

/-- `write_used_number_and_size` on an array with this capacity.  Without room for
a new size the source runs into an assertion hint. -/
def write (capacity : Nat) (arr : UsedObjects) (size n : Nat) : Option UsedObjects :=
  if size = 0 ∨ n = 0 then some arr
  else
    match arr.binarySearch size with
    | .ok idx => some (arr.modify idx fun e => (e.1 + n, e.2))
    | .error idx => if arr.length < capacity then some (arr.insertIdx idx (n, size)) else none

/-- Write a count of one for each of the sizes. -/
def writeAll (capacity : Nat) : List (Nat × Nat) → UsedObjects → Option UsedObjects
  | [], arr => some arr
  | (n, size) :: rest, arr =>
      match arr.write capacity size n with
      | some arr => writeAll capacity rest arr
      | none => none

/-- `find_size`, with an absent size read as a count of zero. -/
def find (arr : UsedObjects) (size : Nat) : Nat :=
  match arr.binarySearch size with
  | .ok idx => (arr.getD idx (0, 0)).1
  | .error _ => 0

/-! ## The array as a map -/

/-- The sizes ascend strictly. -/
def Ascending (arr : UsedObjects) : Prop := arr.Pairwise fun e e' => e.2 < e'.2

/-- What a list of counts and sizes says about one size. -/
def total (size : Nat) : List (Nat × Nat) → Nat
  | [] => 0
  | e :: rest => (if e.2 = size then e.1 else 0) + total size rest

theorem total_append (size : Nat) (xs ys : List (Nat × Nat)) :
    total size (xs ++ ys) = total size xs + total size ys := by
  induction xs with
  | nil => simp [total]
  | cons e rest ih => simp only [List.cons_append, total, ih]; omega

theorem total_eq_zero {size : Nat} {arr : List (Nat × Nat)} (h : ∀ e ∈ arr, e.2 ≠ size) :
    total size arr = 0 := by
  induction arr with
  | nil => rfl
  | cons e rest ih =>
      obtain ⟨he, hrest⟩ := List.forall_mem_cons.mp h
      simp [total, he, ih hrest]

/-- What the answer of the search means on an ascending array. -/
def SearchAnswer (arr : UsedObjects) (realSize : Nat) : Except Nat Nat → Prop
  | .ok idx => ∃ pre n post, arr = pre ++ (n, realSize) :: post ∧ pre.length = idx
  | .error idx => ∃ pre post, arr = pre ++ post ∧ pre.length = idx ∧
      (∀ e ∈ pre, e.2 < realSize) ∧ ∀ e ∈ post, realSize < e.2

theorem Ascending.lt_of_lt {arr : UsedObjects} (h : arr.Ascending) {i j : Nat} (hij : i < j)
    (hj : j < arr.length) : (arr.getD i (0, 0)).2 < (arr.getD j (0, 0)).2 := by
  rw [List.getD_eq_getElem _ _ (by omega), List.getD_eq_getElem _ _ hj]
  exact List.pairwise_iff_getElem.mp h i j (by omega) hj hij

/-- A search that has narrowed to one place has found where the size belongs. -/
theorem searchAnswer_error {arr : UsedObjects} {realSize low : Nat} (hlow : low ≤ arr.length)
    (hbelow : ∀ i < low, (arr.getD i (0, 0)).2 < realSize)
    (habove : ∀ i, low ≤ i → i < arr.length → realSize < (arr.getD i (0, 0)).2) :
    SearchAnswer arr realSize (.error low) := by
  refine ⟨arr.take low, arr.drop low, (List.take_append_drop low arr).symm, by simp; omega,
    fun e he => ?_, fun e he => ?_⟩
  · obtain ⟨i, hi, rfl⟩ := List.mem_iff_getElem.mp he
    simp only [List.length_take, lt_min_iff] at hi
    have hlt := hbelow i hi.1
    rw [List.getD_eq_getElem _ _ hi.2] at hlt
    simpa using hlt
  · obtain ⟨i, hi, rfl⟩ := List.mem_iff_getElem.mp he
    simp only [List.length_drop] at hi
    have hi' : low + i < arr.length := by omega
    have hlt := habove (low + i) (by omega) hi'
    rw [List.getD_eq_getElem _ _ hi'] at hlt
    simpa using hlt

/-- The entries before `low` are too small and those from `high` on too large. -/
theorem searchAnswer_binarySearchFrom {arr : UsedObjects} (h : arr.Ascending) {realSize : Nat}
    (fuel low high : Nat) (hfuel : high - low ≤ fuel) (hle : low ≤ high)
    (hhigh : high ≤ arr.length)
    (hbelow : ∀ i < low, (arr.getD i (0, 0)).2 < realSize)
    (habove : ∀ i, high ≤ i → i < arr.length → realSize < (arr.getD i (0, 0)).2) :
    SearchAnswer arr realSize (binarySearchFrom arr realSize fuel low high) := by
  induction fuel generalizing low high with
  | zero =>
      obtain rfl : low = high := by omega
      exact searchAnswer_error hhigh hbelow habove
  | succ fuel ih =>
      simp only [binarySearchFrom]
      split
      · next hlt =>
          have hmid : (low + high) / 2 < arr.length := by omega
          split
          · next hsmall =>
              refine ih _ _ (by omega) (by omega) hhigh (fun i hi => ?_) habove
              rcases Nat.lt_succ_iff_lt_or_eq.mp hi with hi | rfl
              · exact (h.lt_of_lt hi hmid).trans hsmall
              · exact hsmall
          · split
            · next hlarge =>
                refine ih _ _ (by omega) (by omega) (by omega) hbelow fun i hi hi' => ?_
                rcases Nat.lt_or_eq_of_le hi with hi | rfl
                · exact hlarge.trans (h.lt_of_lt hi hi')
                · exact hlarge
            · next hsmall hlarge =>
                have hval : (arr.getD ((low + high) / 2) (0, 0)).2 = realSize := by omega
                rw [List.getD_eq_getElem _ _ hmid] at hval
                refine ⟨arr.take _, (arr[(low + high) / 2]).1, arr.drop ((low + high) / 2 + 1), ?_,
                  List.length_take_of_le hmid.le⟩
                conv_lhs => rw [← List.take_append_drop ((low + high) / 2) arr,
                  List.drop_eq_getElem_cons hmid]
                rw [← hval]
      · obtain rfl : low = high := by omega
        exact searchAnswer_error hhigh hbelow habove

/-- The search finds the size or the place where it keeps the array ascending. -/
theorem searchAnswer_binarySearch {arr : UsedObjects} (h : arr.Ascending) (realSize : Nat) :
    SearchAnswer arr realSize (arr.binarySearch realSize) :=
  searchAnswer_binarySearchFrom h _ _ _ (by omega) (by omega) le_rfl (by omega)
    fun i hi hi' => absurd hi' (by omega)

/-- On an ascending array `find_size` gives the count of the size. -/
theorem find_eq_total {arr : UsedObjects} (h : arr.Ascending) (size : Nat) :
    arr.find size = total size arr := by
  have hanswer := searchAnswer_binarySearch h size
  unfold find
  split
  · next idx hidx =>
      rw [hidx] at hanswer
      obtain ⟨pre, n, post, rfl, rfl⟩ := hanswer
      obtain ⟨-, hpost, hcross⟩ := List.pairwise_append.mp h
      have hpre : total size pre = 0 := total_eq_zero fun e he =>
        (hcross e he _ List.mem_cons_self).ne
      have hpost' : total size post = 0 := total_eq_zero fun e he =>
        ((List.pairwise_cons.mp hpost).1 e he).ne'
      simp [total_append, total, hpre, hpost']
  · next idx hidx =>
      rw [hidx] at hanswer
      obtain ⟨pre, post, rfl, -, hpre, hpost⟩ := hanswer
      rw [total_append, total_eq_zero fun e he => (hpre e he).ne,
        total_eq_zero fun e he => (hpost e he).ne']

theorem modify_length (f : Nat × Nat → Nat × Nat) (pre post : UsedObjects) (e : Nat × Nat) :
    (pre ++ e :: post).modify pre.length f = pre ++ f e :: post := by
  induction pre with
  | nil => rfl
  | cons e' rest ih => simpa using ih

theorem insertIdx_length (pre post : UsedObjects) (e : Nat × Nat) :
    (pre ++ post).insertIdx pre.length e = pre ++ e :: post := by
  induction pre with
  | nil => rfl
  | cons e' rest ih => simpa using ih

/-- Writing keeps the array ascending and adds to the count of the size. -/
theorem write_spec {capacity size n : Nat} {arr arr' : UsedObjects} (h : arr.Ascending)
    (hwrite : arr.write capacity size n = some arr') :
    arr'.Ascending ∧ ∀ s, s ≠ 0 → total s arr' = total s arr + total s [(n, size)] := by
  have hanswer := searchAnswer_binarySearch h size
  unfold write at hwrite
  split at hwrite
  · next hzero =>
      cases hwrite
      refine ⟨h, fun s hs => ?_⟩
      rcases hzero with rfl | rfl
      · simp [total, hs.symm]
      · simp [total]
  · split at hwrite
    · next idx hidx =>
        cases hwrite
        rw [hidx] at hanswer
        obtain ⟨pre, m, post, rfl, rfl⟩ := hanswer
        rw [modify_length]
        refine ⟨?_, fun s hs => ?_⟩
        · simpa [Ascending, List.pairwise_append] using h
        · simp only [total_append, total]
          split <;> omega
    · next idx hidx =>
        split at hwrite
        · cases hwrite
          rw [hidx] at hanswer
          obtain ⟨pre, post, rfl, rfl, hpre, hpost⟩ := hanswer
          rw [insertIdx_length]
          obtain ⟨hsorted, hsorted', hcross⟩ := List.pairwise_append.mp h
          refine ⟨List.pairwise_append.mpr ⟨hsorted, List.pairwise_cons.mpr ⟨hpost, hsorted'⟩, ?_⟩,
            fun s hs => ?_⟩
          · intro e he e' he'
            rcases List.mem_cons.mp he' with rfl | he'
            · exact hpre e he
            · exact hcross e he e' he'
          · simp only [total_append, total]
            omega
        · cases hwrite

/-- A sequence of writes adds up. -/
theorem writeAll_spec {capacity : Nat} {entries : List (Nat × Nat)} {arr arr' : UsedObjects}
    (h : arr.Ascending) (hwrite : writeAll capacity entries arr = some arr') :
    arr'.Ascending ∧ ∀ s, s ≠ 0 → total s arr' = total s arr + total s entries := by
  induction entries generalizing arr with
  | nil =>
      cases hwrite
      exact ⟨h, fun s _ => by simp [total]⟩
  | cons e rest ih =>
      obtain ⟨n, size⟩ := e
      simp only [writeAll] at hwrite
      split at hwrite
      · next arr₁ hfirst =>
          obtain ⟨h₁, htotal₁⟩ := write_spec h hfirst
          obtain ⟨h', htotal⟩ := ih h₁ hwrite
          refine ⟨h', fun s hs => ?_⟩
          rw [htotal s hs, htotal₁ s hs]
          simp only [total]
          omega
      · cases hwrite

/-- What holds of the sizes in the array and of the sizes that are written holds of the
sizes afterwards. -/
theorem forall_size_write {Q : Nat → Prop} {capacity size n : Nat} {arr arr' : UsedObjects}
    (h : ∀ e ∈ arr, Q e.2) (hsize : Q size) (hwrite : arr.write capacity size n = some arr') :
    ∀ e ∈ arr', Q e.2 := by
  unfold write at hwrite
  split at hwrite
  · cases hwrite
    exact h
  · split at hwrite
    · cases hwrite
      intro e he
      obtain ⟨i, hi, rfl⟩ := List.mem_iff_getElem.mp he
      have hi' : i < arr.length := by simpa using hi
      rw [List.getElem_modify]
      split
      · exact h arr[i] (List.getElem_mem hi')
      · exact h arr[i] (List.getElem_mem hi')
    · split at hwrite
      · cases hwrite
        intro e he
        rcases List.eq_or_mem_of_mem_insertIdx he with rfl | he
        · exact hsize
        · exact h e he
      · cases hwrite

theorem forall_size_writeAll {Q : Nat → Prop} {capacity : Nat} {entries : List (Nat × Nat)}
    {arr arr' : UsedObjects} (h : ∀ e ∈ arr, Q e.2) (hentries : ∀ e ∈ entries, Q e.2)
    (hwrite : writeAll capacity entries arr = some arr') : ∀ e ∈ arr', Q e.2 := by
  induction entries generalizing arr with
  | nil =>
      cases hwrite
      exact h
  | cons e rest ih =>
      obtain ⟨n, size⟩ := e
      obtain ⟨hsize, hrest⟩ := List.forall_mem_cons.mp hentries
      simp only [writeAll] at hwrite
      split at hwrite
      · next arr₁ hfirst => exact ih (forall_size_write h hsize hfirst) hrest hwrite
      · cases hwrite

/-- Neither a count nor a size of zero is ever stored. -/
theorem forall_ne_zero_write {capacity size n : Nat} {arr arr' : UsedObjects}
    (h : ∀ e ∈ arr, e.1 ≠ 0 ∧ e.2 ≠ 0) (hwrite : arr.write capacity size n = some arr') :
    ∀ e ∈ arr', e.1 ≠ 0 ∧ e.2 ≠ 0 := by
  unfold write at hwrite
  split at hwrite
  · cases hwrite
    exact h
  · next hzero =>
      split at hwrite
      · cases hwrite
        intro e he
        obtain ⟨i, hi, rfl⟩ := List.mem_iff_getElem.mp he
        obtain ⟨hcount, hsize⟩ := h _ (List.getElem_mem (by simpa using hi : i < arr.length))
        rw [List.getElem_modify]
        split
        · exact ⟨fun hsum => hcount (Nat.add_eq_zero_iff.mp hsum).1, hsize⟩
        · exact ⟨hcount, hsize⟩
      · split at hwrite
        · cases hwrite
          intro e he
          rcases List.eq_or_mem_of_mem_insertIdx he with rfl | he
          · exact ⟨fun hn => hzero (.inr hn), fun hsize => hzero (.inl hsize)⟩
          · exact h e he
        · cases hwrite

theorem forall_ne_zero_writeAll {capacity : Nat} {entries : List (Nat × Nat)}
    {arr arr' : UsedObjects} (h : ∀ e ∈ arr, e.1 ≠ 0 ∧ e.2 ≠ 0)
    (hwrite : writeAll capacity entries arr = some arr') : ∀ e ∈ arr', e.1 ≠ 0 ∧ e.2 ≠ 0 := by
  induction entries generalizing arr with
  | nil =>
      cases hwrite
      exact h
  | cons e rest ih =>
      obtain ⟨n, size⟩ := e
      simp only [writeAll] at hwrite
      split at hwrite
      · next arr₁ hfirst => exact ih (forall_ne_zero_write h hfirst) hwrite
      · cases hwrite

/-- On an ascending array an entry holds what the array says about its size. -/
theorem Ascending.total_eq {arr : UsedObjects} (h : arr.Ascending) {e : Nat × Nat} (he : e ∈ arr) :
    total e.2 arr = e.1 := by
  obtain ⟨pre, post, rfl⟩ := List.append_of_mem he
  obtain ⟨-, hpost, hcross⟩ := List.pairwise_append.mp h
  have hpre : total e.2 pre = 0 := total_eq_zero fun e' he' =>
    (hcross e' he' _ List.mem_cons_self).ne
  have hpost' : total e.2 post = 0 := total_eq_zero fun e' he' =>
    ((List.pairwise_cons.mp hpost).1 e' he').ne'
  simp [total_append, total, hpre, hpost']

theorem total_ne_zero_iff {size : Nat} {entries : List (Nat × Nat)} :
    total size entries ≠ 0 ↔ ∃ n, n ≠ 0 ∧ (n, size) ∈ entries := by
  induction entries with
  | nil => simp [total]
  | cons e rest ih =>
      obtain ⟨m, s⟩ := e
      by_cases hs : s = size
      · subst hs
        by_cases hm : m = 0
        · simp only [total, hm, if_true, Nat.zero_add, ih, List.mem_cons, Prod.mk.injEq, and_true]
          exact exists_congr fun n => and_congr_right fun hn => (or_iff_right hn).symm
        · simp only [total, if_true]
          exact iff_of_true (by omega) ⟨m, hm, List.mem_cons_self⟩
      · simp [total, hs, ih, Ne.symm hs]

/-! ## Room for new sizes -/

variable {capacity size n : Nat} {arr : UsedObjects} {sizes : List Nat}

/-- An array whose sizes are from a short list has room for any size of the list. -/
theorem write_ne_none (h : arr.Ascending) (hsizes : ∀ e ∈ arr, e.2 ∈ sizes) (hsize : size ∈ sizes)
    (hlen : sizes.length ≤ capacity) : arr.write capacity size n ≠ none := by
  have hanswer := searchAnswer_binarySearch h size
  unfold write
  split
  · exact Option.some_ne_none _
  · split
    · exact Option.some_ne_none _
    · next idx hidx =>
        rw [hidx] at hanswer
        obtain ⟨pre, post, harr, -, hpre, hpost⟩ := hanswer
        have hnew : size ∉ arr.map Prod.snd := by
          intro hmem
          obtain ⟨e, he, rfl⟩ := List.mem_map.mp hmem
          rw [harr] at he
          rcases List.mem_append.mp he with he | he
          · exact Nat.lt_irrefl _ (hpre e he)
          · exact Nat.lt_irrefl _ (hpost e he)
        have hnodup : (arr.map Prod.snd).Nodup := List.Pairwise.map _ (fun _ _ => Nat.ne_of_lt) h
        have hsub : size :: arr.map Prod.snd ⊆ sizes := by
          intro s hs
          rcases List.mem_cons.mp hs with rfl | hs
          · exact hsize
          · obtain ⟨e, he, rfl⟩ := List.mem_map.mp hs
            exact hsizes e he
        have hle := ((List.nodup_cons.mpr ⟨hnew, hnodup⟩).subperm hsub).length_le
        rw [List.length_cons, List.length_map] at hle
        rw [if_pos (by omega)]
        exact Option.some_ne_none _

/-- Entries of these sizes, or without a size or a count, can all be written. -/
theorem writeAll_ne_none {entries : List (Nat × Nat)} (h : arr.Ascending)
    (hsizes : ∀ e ∈ arr, e.2 ∈ sizes)
    (hentries : ∀ e ∈ entries, e.2 = 0 ∨ e.1 = 0 ∨ e.2 ∈ sizes) (hlen : sizes.length ≤ capacity) :
    writeAll capacity entries arr ≠ none := by
  induction entries generalizing arr with
  | nil => exact Option.some_ne_none _
  | cons e rest ih =>
      obtain ⟨he, hrest⟩ := List.forall_mem_cons.mp hentries
      obtain ⟨n, size⟩ := e
      by_cases hzero : size = 0 ∨ n = 0
      · have hwrite : arr.write capacity size n = some arr := if_pos hzero
        simp only [writeAll, hwrite]
        exact ih h hsizes hrest
      · have hsize : size ∈ sizes := by
          rcases he with he | he | he
          · exact absurd (.inl he) hzero
          · exact absurd (.inr he) hzero
          · exact he
        obtain ⟨arr', hwrite⟩ := Option.ne_none_iff_exists'.mp
          (write_ne_none (n := n) h hsizes hsize hlen)
        simp only [writeAll, hwrite]
        exact ih (write_spec h hwrite).1 (forall_size_write hsizes hsize hwrite) hrest

end UsedObjects

end Memalart
