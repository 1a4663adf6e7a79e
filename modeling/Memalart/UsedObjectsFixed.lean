/-
# The array behind the counts

`UsedObjectsFixed` keeps its entries in an array of fixed length, of which the first `len` are
in use.  A new size is put in its place by moving the entries behind it with one copy.  The
module translates the array as the source has it, with the counts as `u32`s, and shows that
it behaves as the list of `UsedObjects` does, whatever is written in whatever order.
-/

import Mathlib.Data.Finset.Card
import Memalart.Os
import Memalart.UsedObjects

namespace Memalart

/-- A count, which is not zero where there is one, and a real size. -/
abbrev UsedObjEntry := Option Nat × Nat

/-- An array of this many entries, and how many of them are in use. -/
structure UsedObjectsFixed (N : Nat) where
  arr : Vector UsedObjEntry N
  len : Nat

namespace UsedObjectsFixed

variable {N : Nat}

/-- `new`. -/
def new : UsedObjectsFixed N := ⟨Vector.replicate N (none, 0), 0⟩

/-- `arr[i]`, which panics outside the array. -/
def index (arr : Vector UsedObjEntry N) (i : Nat) : Except Fault UsedObjEntry :=
  match arr[i]? with
  | some e => .ok e
  | none => .error (.panic "index out of bounds")

/-- One round of `binary_search`; `fuel` bounds the rounds. -/
def binarySearchFrom (arr : Vector UsedObjEntry N) (realSize : Nat) :
    Nat → Nat → Nat → Except Fault (Except Nat Nat)
  | 0, low, _ => .ok (.error low)
  | fuel + 1, low, high =>
      if low < high then do
        let mid := (low + high) / 2
        let e ← index arr mid
        if e.2 < realSize then binarySearchFrom arr realSize fuel (mid + 1) high
        else if e.2 > realSize then binarySearchFrom arr realSize fuel low mid
        else .ok (.ok mid)
      else .ok (.error low)

/-- `binary_search`. -/
def binarySearch (arr : Vector UsedObjEntry N) (realSize len : Nat) :
    Except Fault (Except Nat Nat) :=
  binarySearchFrom arr realSize len 0 len

/-- `find_size`: the entry of the size, or where it would be inserted. -/
def findSize (f : UsedObjectsFixed N) (size : Nat) : Except Fault (Except Nat UsedObjEntry) := do
  match ← binarySearch f.arr size f.len with
  | .error idx => .ok (.error idx)
  | .ok idx =>
      let e ← index f.arr idx
      .ok (.ok e)

/-- `ptr::copy` of `count` entries from `first` on to the place behind it. -/
def copyRight (arr : Vector UsedObjEntry N) (first count : Nat) : Vector UsedObjEntry N :=
  Vector.ofFn fun i =>
    if first < i.val ∧ i.val ≤ first + count then (arr[i.val - 1]?).getD (none, 0) else arr[i]

/-- `write_used_number_and_size`. -/
def write (f : UsedObjectsFixed N) (size n : Nat) : Except Fault (UsedObjectsFixed N) := do
  if size = 0 ∨ n = 0 then .ok f
  else
    match ← binarySearch f.arr size f.len with
    | .ok idx =>
        let e ← index f.arr idx
        match e.1 with
        | none => .error (.panic "called `Option::unwrap()` on a `None` value")
        | some number =>
            .ok { f with arr := f.arr.setIfInBounds idx (some ((number + n) % u32Range), e.2) }
    | .error idx =>
        if f.len < N then
          .ok ⟨(copyRight f.arr idx (f.len - idx)).setIfInBounds idx (some n, size), f.len + 1⟩
        else .error (.bugHint "Array too small")

/-- A sequence of calls, each a count and a size. -/
def writeAll : List (Nat × Nat) → UsedObjectsFixed N → Except Fault (UsedObjectsFixed N)
  | [], f => .ok f
  | (n, size) :: rest, f => do
      let f ← f.write size n
      writeAll rest f

/-- `as_slice`: the entries in use. -/
def asSlice (f : UsedObjectsFixed N) : List UsedObjEntry := f.arr.toList.take f.len

/-! ## The entries in use -/

/-- The array shows this list of entries. -/
structure Shows (f : UsedObjectsFixed N) (entries : UsedObjects) : Prop where
  len_eq : f.len = entries.length
  len_le : f.len ≤ N
  entry : ∀ i < entries.length, f.arr[i]? = entries[i]?.map fun e => (some e.1, e.2)

variable {f : UsedObjectsFixed N} {entries entries' : UsedObjects} {size n : Nat}

namespace Shows

theorem new : Shows (UsedObjectsFixed.new (N := N)) [] where
  len_eq := rfl
  len_le := Nat.zero_le N
  entry := fun i hi => absurd hi (Nat.not_lt_zero i)

theorem index (h : Shows f entries) {i : Nat} (hi : i < entries.length) :
    UsedObjectsFixed.index f.arr i =
      .ok (some (entries.getD i (0, 0)).1, (entries.getD i (0, 0)).2) := by
  rw [UsedObjectsFixed.index, h.entry i hi, List.getElem?_eq_getElem hi,
    List.getD_eq_getElem _ _ hi]
  rfl

/-- The search never leaves the entries in use. -/
theorem binarySearchFrom (h : Shows f entries) (fuel low high : Nat) (hhigh : high ≤ entries.length) :
    UsedObjectsFixed.binarySearchFrom f.arr size fuel low high =
      .ok (UsedObjects.binarySearchFrom entries size fuel low high) := by
  induction fuel generalizing low high with
  | zero => rfl
  | succ fuel ih =>
      simp only [UsedObjectsFixed.binarySearchFrom, UsedObjects.binarySearchFrom]
      by_cases hlt : low < high
      · have hmid : (low + high) / 2 < entries.length := by omega
        rw [if_pos hlt, if_pos hlt, h.index hmid]
        simp only [bind, Except.bind]
        split
        · exact ih _ _ hhigh
        · split
          · exact ih _ _ hmid.le
          · rfl
      · rw [if_neg hlt, if_neg hlt]

theorem binarySearch (h : Shows f entries) :
    UsedObjectsFixed.binarySearch f.arr size f.len = .ok (entries.binarySearch size) := by
  rw [UsedObjectsFixed.binarySearch, h.len_eq]
  exact h.binarySearchFrom _ _ _ le_rfl

/-- The copy makes room for an entry at `idx`. -/
theorem getElem?_copyRight (arr : Vector UsedObjEntry N) {first count i : Nat}
    (hroom : first + count < N) :
    (copyRight arr first count)[i]? =
      if first < i ∧ i ≤ first + count then arr[i - 1]? else arr[i]? := by
  by_cases hi : i < N
  · rw [Vector.getElem?_eq_getElem hi, copyRight, Vector.getElem_ofFn]
    split
    · rw [Vector.getElem?_eq_getElem (by omega)]
      rfl
    · rw [Vector.getElem?_eq_getElem hi]
      rfl
  · rw [Vector.getElem?_eq_none (by omega), if_neg (by omega), Vector.getElem?_eq_none (by omega)]

/-- Writing to the array is writing to the list. -/
theorem write (h : Shows f entries) (hasc : entries.Ascending)
    (hsum : size ≠ 0 → UsedObjects.total size entries + n < u32Range)
    (hwrite : entries.write N size n = some entries') :
    ∃ f', f.write size n = .ok f' ∧ Shows f' entries' := by
  have hanswer := UsedObjects.searchAnswer_binarySearch hasc size
  unfold UsedObjects.write at hwrite
  unfold UsedObjectsFixed.write
  split at hwrite
  · next hzero =>
      cases hwrite
      exact ⟨f, if_pos hzero, h⟩
  · next hzero =>
      rw [if_neg hzero, h.binarySearch]
      cases hsearch : entries.binarySearch size with
      | ok idx =>
          rw [hsearch] at hanswer hwrite
          cases hwrite
          obtain ⟨pre, m, post, hentries, hidx⟩ := hanswer
          have hlt : idx < entries.length := by simp [hentries, ← hidx]
          have hget : entries.getD idx (0, 0) = (m, size) := by simp [hentries, ← hidx]
          -- The sum of the two counts fits in a `u32`.
          have hfits : (m + n) % u32Range = m + n := by
            have hbound := hsum fun hsize => hzero (.inl hsize)
            rw [hentries, UsedObjects.total_append, UsedObjects.total, if_pos rfl] at hbound
            exact Nat.mod_eq_of_lt (by omega)
          refine ⟨{ f with arr := f.arr.setIfInBounds idx (some ((m + n) % u32Range), size) }, ?_,
            ?_, h.len_le, fun i hi => ?_⟩
          · simp only [bind, Except.bind, h.index hlt, hget]
          · rw [List.length_modify]
            exact h.len_eq
          · rw [List.length_modify] at hi
            rw [Vector.getElem?_setIfInBounds, List.getElem?_modify, h.entry i hi, hfits]
            by_cases hsame : idx = i
            · subst hsame
              have hsome : entries[idx]? = some (m, size) := by simp [hentries, ← hidx]
              have hN : idx < N := hlt.trans_le (h.len_eq ▸ h.len_le)
              simp [hsome, hN]
            · simp [hsame]
      | error idx =>
          rw [hsearch] at hanswer hwrite
          obtain ⟨pre, post, hentries, hidx, -, -⟩ := hanswer
          have hle : idx ≤ entries.length := by simp [hentries, ← hidx]
          simp only at hwrite
          split at hwrite
          · next hroom =>
              cases hwrite
              have hlen := h.len_eq
              refine ⟨⟨(copyRight f.arr idx (f.len - idx)).setIfInBounds idx (some n, size),
                f.len + 1⟩, ?_, ?_, ?_, fun i hi => ?_⟩
              · simp only [bind, Except.bind, hlen, if_pos hroom]
              · rw [List.length_insertIdx_of_le_length hle, hlen]
              · show f.len + 1 ≤ N
                omega
              · rw [List.length_insertIdx_of_le_length hle] at hi
                rw [Vector.getElem?_setIfInBounds, getElem?_copyRight _ (by omega),
                  List.getElem?_insertIdx]
                rcases Nat.lt_trichotomy i idx with hbefore | rfl | hbehind
                · rw [if_neg hbefore.ne', if_neg (by omega), if_pos hbefore, h.entry i (by omega)]
                · rw [if_pos rfl, if_pos (by omega), if_neg (Nat.lt_irrefl i), if_pos rfl,
                    if_pos hle]
                  rfl
                · rw [if_neg hbehind.ne, if_pos ⟨hbehind, by omega⟩, if_neg hbehind.not_gt,
                    if_neg hbehind.ne', h.entry (i - 1) (by omega)]
          · cases hwrite

theorem writeAll {calls : List (Nat × Nat)} (h : Shows f entries) (hasc : entries.Ascending)
    (hsum : ∀ s, s ≠ 0 →
      UsedObjects.total s entries + UsedObjects.total s calls < u32Range)
    (hwrite : UsedObjects.writeAll N calls entries = some entries') :
    ∃ f', UsedObjectsFixed.writeAll calls f = .ok f' ∧ Shows f' entries' := by
  induction calls generalizing f entries with
  | nil =>
      cases hwrite
      exact ⟨f, rfl, h⟩
  | cons call rest ih =>
      obtain ⟨n, size⟩ := call
      simp only [UsedObjects.writeAll] at hwrite
      split at hwrite
      · next entries₁ hfirst =>
          have hsum₁ : size ≠ 0 → UsedObjects.total size entries + n < u32Range := by
            intro hsize
            have hbound := hsum size hsize
            rw [UsedObjects.total, if_pos rfl] at hbound
            omega
          obtain ⟨f₁, hf₁, hshows₁⟩ := h.write hasc hsum₁ hfirst
          obtain ⟨hasc₁, htotal₁⟩ := UsedObjects.write_spec hasc hfirst
          have hsum' : ∀ s, s ≠ 0 →
              UsedObjects.total s entries₁ + UsedObjects.total s rest < u32Range := by
            intro s hs
            have hbound := hsum s hs
            rw [htotal₁ s hs]
            simp only [UsedObjects.total] at hbound ⊢
            omega
          obtain ⟨f', hf', hshows'⟩ := ih hshows₁ hasc₁ hsum' hwrite
          refine ⟨f', ?_, hshows'⟩
          simp only [UsedObjectsFixed.writeAll, bind, Except.bind, hf₁, hf']
      · cases hwrite

/-- `find_size` reads the list. -/
theorem findSize (h : Shows f entries) (hasc : entries.Ascending) (s : Nat) :
    (∃ idx, f.findSize s = .ok (.error idx) ∧ UsedObjects.total s entries = 0) ∨
      (f.findSize s = .ok (.ok (some (UsedObjects.total s entries), s)) ∧
        (UsedObjects.total s entries, s) ∈ entries) := by
  have hanswer := UsedObjects.searchAnswer_binarySearch hasc s
  unfold UsedObjectsFixed.findSize
  rw [h.binarySearch]
  cases hsearch : entries.binarySearch s with
  | error idx =>
      rw [hsearch] at hanswer
      obtain ⟨pre, post, hentries, -, hpre, hpost⟩ := hanswer
      refine .inl ⟨idx, rfl, ?_⟩
      rw [hentries, UsedObjects.total_append, UsedObjects.total_eq_zero fun e he => (hpre e he).ne,
        UsedObjects.total_eq_zero fun e he => (hpost e he).ne']
  | ok idx =>
      rw [hsearch] at hanswer
      obtain ⟨pre, n, post, hentries, hidx⟩ := hanswer
      have hlt : idx < entries.length := by simp [hentries, ← hidx]
      have hget : entries.getD idx (0, 0) = (n, s) := by simp [hentries, ← hidx]
      have hmem : (n, s) ∈ entries := by simp [hentries]
      have htotal : UsedObjects.total s entries = n := hasc.total_eq hmem
      rw [htotal]
      refine .inr ⟨?_, hmem⟩
      simp only [bind, Except.bind, h.index hlt, hget]

end Shows

theorem Shows.asSlice_eq {list : UsedObjects} (h : Shows f list) :
    f.asSlice = list.map fun e => (some e.1, e.2) := by
  apply List.ext_getElem?
  intro i
  rw [asSlice, List.getElem?_take, List.getElem?_map, h.len_eq]
  by_cases hi : i < list.length
  · rw [if_pos hi, ← h.entry i hi, Vector.getElem?_toList]
  · rw [if_neg hi, List.getElem?_eq_none (by omega)]
    rfl

/-- The size is written with a count that is not zero. -/
def Written (size : Nat) (calls : List (Nat × Nat)) : Prop := ∃ n, n ≠ 0 ∧ (n, size) ∈ calls

/-- Whatever is written in whatever order, the entries in use ascend strictly, each size that is
written stands among them with the sum of its counts, and the search finds these and no
others.  The size zero is never stored. -/
theorem writeAll_exact (calls : List (Nat × Nat))
    (hsizes : ((calls.map Prod.snd).toFinset.erase 0).card ≤ N)
    (hsum : ∀ s, s ≠ 0 → UsedObjects.total s calls < u32Range) :
    ∃ f : UsedObjectsFixed N, writeAll calls new = .ok f ∧
      f.asSlice.Pairwise (fun e e' => e.2 < e'.2) ∧
      (∀ e, e ∈ f.asSlice ↔
        e.2 ≠ 0 ∧ Written e.2 calls ∧ e.1 = some (UsedObjects.total e.2 calls)) ∧
      (∀ s, s ≠ 0 → Written s calls →
        f.findSize s = .ok (.ok (some (UsedObjects.total s calls), s))) ∧
      ∀ s, s = 0 ∨ ¬ Written s calls → ∃ idx, f.findSize s = .ok (.error idx) := by
  let sizes := ((calls.map Prod.snd).toFinset.erase 0).toList
  have hroom : sizes.length ≤ N := (Finset.length_toList _).trans_le hsizes
  have hcalls : ∀ c ∈ calls, c.2 = 0 ∨ c.1 = 0 ∨ c.2 ∈ sizes := by
    intro c hc
    by_cases hzero : c.2 = 0
    · exact .inl hzero
    · refine .inr (.inr (Finset.mem_toList.mpr (Finset.mem_erase.mpr ⟨hzero, ?_⟩)))
      exact List.mem_toFinset.mpr (List.mem_map_of_mem hc)
  have hempty : UsedObjects.Ascending [] := List.Pairwise.nil
  obtain ⟨list, hlist⟩ := Option.ne_none_iff_exists'.mp (UsedObjects.writeAll_ne_none hempty
    (fun _ he => absurd he List.not_mem_nil) hcalls hroom)
  obtain ⟨hasc, htotal⟩ := UsedObjects.writeAll_spec hempty hlist
  have hfilled := UsedObjects.forall_ne_zero_writeAll (fun _ he => absurd he List.not_mem_nil) hlist
  obtain ⟨f, hf, hshows⟩ := Shows.new.writeAll hempty
    (fun s hs => (Nat.zero_add _).trans_lt (hsum s hs)) hlist
  have hsame : ∀ s, s ≠ 0 → UsedObjects.total s list = UsedObjects.total s calls := fun s hs =>
    (htotal s hs).trans (Nat.zero_add _)
  -- What stands in the list is what has been written.
  have hmem : ∀ s n, (n, s) ∈ list ↔
      s ≠ 0 ∧ Written s calls ∧ n = UsedObjects.total s calls := by
    intro s n
    constructor
    · intro he
      obtain ⟨hn, hs⟩ := hfilled _ he
      have heq : UsedObjects.total s calls = n := (hsame s hs).symm.trans (hasc.total_eq he)
      exact ⟨hs, UsedObjects.total_ne_zero_iff.mp (heq ▸ hn), heq.symm⟩
    · rintro ⟨hs, hwritten, rfl⟩
      have hne := UsedObjects.total_ne_zero_iff.mpr hwritten
      rw [← hsame s hs] at hne ⊢
      obtain ⟨n, -, he⟩ := UsedObjects.total_ne_zero_iff.mp hne
      rwa [hasc.total_eq he]
  refine ⟨f, hf, ?_, ?_, ?_, ?_⟩
  · rw [hshows.asSlice_eq]
    exact hasc.map _ fun _ _ hlt => hlt
  · intro e
    rw [hshows.asSlice_eq, List.mem_map]
    constructor
    · rintro ⟨⟨n, s⟩, he, rfl⟩
      obtain ⟨hs, hwritten, hn⟩ := (hmem s n).mp he
      exact ⟨hs, hwritten, congrArg some hn⟩
    · obtain ⟨number, s⟩ := e
      intro h
      obtain ⟨hs, hwritten, hnumber⟩ := h
      refine ⟨_, (hmem s _).mpr ⟨hs, hwritten, rfl⟩, ?_⟩
      exact Prod.ext hnumber.symm rfl
  · intro s hs hwritten
    rcases hshows.findSize hasc s with ⟨idx, -, hzero⟩ | ⟨hfound, -⟩
    · exact absurd ((hsame s hs).symm.trans hzero) (UsedObjects.total_ne_zero_iff.mpr hwritten)
    · rwa [hsame s hs] at hfound
  · intro s hnot
    rcases hshows.findSize hasc s with ⟨idx, hmissing, -⟩ | ⟨-, he⟩
    · exact ⟨idx, hmissing⟩
    · obtain ⟨hs, hwritten, -⟩ := (hmem s _).mp he
      exact absurd hnot (not_or.mpr ⟨hs, not_not.mpr hwritten⟩)

/-- Three calls, out of order and with one size twice. -/
theorem writeAll_exact_three :
    ∃ f : UsedObjectsFixed 2, writeAll [(1, 64), (2, 16), (3, 64)] new = .ok f ∧
      f.findSize 64 = .ok (.ok (some 4, 64)) := by
  obtain ⟨f, hf, -, -, hfound, -⟩ := writeAll_exact (N := 2) [(1, 64), (2, 16), (3, 64)]
    (by decide) (fun s _ => by
      simp only [UsedObjects.total, u32Range]
      split <;> split <;> omega)
  refine ⟨f, hf, ?_⟩
  have h64 := hfound 64 (by decide) ⟨1, by decide, by decide⟩
  rwa [show UsedObjects.total 64 [(1, 64), (2, 16), (3, 64)] = 4 by decide] at h64

end UsedObjectsFixed

end Memalart
