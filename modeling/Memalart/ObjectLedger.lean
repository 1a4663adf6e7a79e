/-
# The ledger of objects

Every object that exists has been cut from a chunk of its class, and every slot of
a chunk that has been cut is one object.  Both are invariants of moves.  The second
one needs that no State has been stored: the chunk that a State is stored in is cut
at the size of a State, and is later taken for a chunk of the next larger class.
-/

import Mathlib.Tactic.Abel
import Memalart.Estate

namespace Memalart

/-! ## Moves and the log -/

namespace Os

@[simp] theorem log_foldl_writeMetadata (f : Nat → Nat) (m : ChunkMetadata) (is : List Nat)
    (os : Os) : (is.foldl (fun os i => os.writeMetadata (f i) m) os).log = os.log := by
  induction is generalizing os with
  | nil => rfl
  | cons i is ih => exact ih _

@[simp] theorem mappings_foldl_writeMetadata (f : Nat → Nat) (m : ChunkMetadata) (is : List Nat)
    (os : Os) : (is.foldl (fun os i => os.writeMetadata (f i) m) os).mappings = os.mappings := by
  induction is generalizing os with
  | nil => rfl
  | cons i is ih => exact ih _

@[simp] theorem log_initMetadata (s : Slot) (m p : Nat) (os : Os) :
    (os.initMetadata s m p).log = os.log := by
  cases s with
  | common idx => rfl
  | large idx => simp [initMetadata, initMetadataForLargeChunk]

@[simp] theorem mappings_initMetadata (s : Slot) (m p : Nat) (os : Os) :
    (os.initMetadata s m p).mappings = os.mappings := by
  cases s with
  | common idx => rfl
  | large idx => simp [initMetadata, initMetadataForLargeChunk]

end Os

/-- The log only grows. -/
theorem Exchange.log_suffix {os os' : Os} {m m' : Option Nat} {gone new : Multiset Item}
    (h : Exchange os m gone new os' m') : os.log <:+ os'.log := by
  cases h with
  | quiet h => exact h.log
  | map r _ _ _ hlog => exact hlog
  | writeLarge s c p _ _ hquiet => simpa using hquiet.log
  | mapExtra size p _ _ hlog => exact hlog
  | unmapExtra size p _ _ hlog => exact hlog
  | releaseLast k c n _ => exact List.suffix_cons _ _
  | write s c p _ _ _ => simp
  | commit s u _ => simp
  | _ => exact List.suffix_rfl

theorem Moves.log_suffix {e e' : Estate} (h : Moves e e') : e.os.log <:+ e'.os.log := by
  induction h with
  | refl => exact List.suffix_rfl
  | tail _ hlast ih =>
      obtain ⟨rest, hexchange⟩ := hlast
      exact ih.trans hexchange.log_suffix

/-- No State has been stored inside a chain. -/
def Os.NoStateStored (os : Os) : Prop := ∀ p, .stateStored p ∉ os.log

/-- Every recorded chunk has been cut. -/
def Os.NoChunkLeftUncut (os : Os) : Prop := ∀ c, .chunkLeftUncut c ∉ os.log

theorem Os.NoStateStored.mono {os os' : Os} (h : os'.NoStateStored) (hlog : os.log <:+ os'.log) :
    os.NoStateStored :=
  fun p hp => h p (hlog.subset hp)

theorem Os.NoChunkLeftUncut.mono {os os' : Os} (h : os'.NoChunkLeftUncut)
    (hlog : os.log <:+ os'.log) : os.NoChunkLeftUncut :=
  fun p hp => h p (hlog.subset hp)

/-! ## Where objects lie -/

/-- The chunk is recorded for the class, or a State cuts it into objects of the
class. -/
def Cut (items : Multiset Item) (s : Slot) (c : Nat) : Prop :=
  .recorded s c ∈ items ∨
    ∃ u : UsedChunk, .cutting s.kind u ∈ items ∧ u.ptr = c ∧ slotForSize u.size = some s

/-- Every object lies in a chunk of its class, and the chunks that States cut have
the shape that cutting gives them. -/
structure Placed (items : Multiset Item) : Prop where
  object : ∀ s p, .object s p ∈ items → ∃ c, Cut items s c ∧ c ≤ p ∧ p < c + s.chunkSize
  cutting : ∀ k u, .cutting k u ∈ items → ∃ s, slotForSize u.size = some s ∧ s.kind = k ∧
    u.numberOfFreeSlots < k.chunkSize / u.size

theorem Cut.mono {items items' : Multiset Item} {s : Slot} {c : Nat} (h : Cut items s c)
    (hsub : items ≤ items') : Cut items' s c := by
  rcases h with h | ⟨u, hu, hptr, hslot⟩
  · exact .inl (Multiset.mem_of_le hsub h)
  · exact .inr ⟨u, Multiset.mem_of_le hsub hu, hptr, hslot⟩

theorem lt_chunkSize_of_lt_div {size i n : Nat} (h : i < n / size) : i * size < n := by
  have hpos : 0 < size := Nat.pos_of_ne_zero fun hzero => by simp [hzero] at h
  calc i * size < n / size * size := Nat.mul_lt_mul_of_pos_right h hpos
    _ ≤ n := Nat.div_mul_le_self n size

/-- A class whose chunk is cut at a size that names the class. -/
theorem one_le_chunkSize_div {size : Nat} {s : Slot} (hslot : slotForSize size = some s) :
    5 ≤ s.kind.chunkSize / size := by
  obtain ⟨hpos, -, hreal⟩ := slotForSize_eq_some hslot
  refine (Nat.le_div_iff_mul_le hpos).mpr ?_
  calc 5 * size ≤ 5 * s.realSize := Nat.mul_le_mul_left 5 (hreal ▸ le_recommendedSize size)
    _ ≤ s.kind.chunkSize := s.chunkSize_kind ▸ s.bounds.2.2.2

theorem mem_itemAll {item : Nat → Item} {ptrs : List Nat} {i : Item} :
    i ∈ Item.all item ptrs ↔ ∃ p ∈ ptrs, item p = i := by
  simp [Item.all]

theorem mem_firstSlots {chunk size count p : Nat} :
    p ∈ firstSlots chunk size count ↔ ∃ i < count, p = chunk + i * size := by
  simp [firstSlots, eq_comm]

/-- A chunk that has been cut, in a State or in a table. -/
def Item.isCut : Item → Bool
  | .cutting .. => true
  | .recorded .. => true
  | _ => false

def Item.isObject : Item → Bool
  | .object .. => true
  | _ => false

/-- Chunks that have been cut stay, apart from those of the exchange itself. -/
theorem Cut.exchange {gone new rest : Multiset Item} {s : Slot} {c : Nat}
    (h : Cut (gone + rest) s c) (hgone : Cut gone s c → Cut new s c) : Cut (new + rest) s c := by
  have hrest : Cut gone s c ∨ Cut rest s c := by
    rcases h with h | ⟨u, hu, hptr, hslot⟩
    · exact (Multiset.mem_add.mp h).imp .inl .inl
    · exact (Multiset.mem_add.mp hu).imp (fun hu => .inr ⟨u, hu, hptr, hslot⟩)
        fun hu => .inr ⟨u, hu, hptr, hslot⟩
  rcases hrest with h | h
  · exact (hgone h).mono (Multiset.le_add_right _ _)
  · exact h.mono (Multiset.le_add_left _ _)

/-- What an exchange has to show: its cut chunks stay, its new objects lie in chunks,
and its new chunks of States have the right shape. -/
theorem Placed.exchange {gone new rest : Multiset Item} (h : Placed (gone + rest))
    (hcut : ∀ s c, Cut gone s c → Cut new s c)
    (hobject : ∀ s p, .object s p ∈ new → .object s p ∈ gone ∨
      ∃ c, Cut new s c ∧ c ≤ p ∧ p < c + s.chunkSize)
    (hcutting : ∀ k u, .cutting k u ∈ new → ∃ s, slotForSize u.size = some s ∧ s.kind = k ∧
      u.numberOfFreeSlots < k.chunkSize / u.size) : Placed (new + rest) := by
  have hkeep : ∀ s p, .object s p ∈ gone + rest →
      ∃ c, Cut (new + rest) s c ∧ c ≤ p ∧ p < c + s.chunkSize := by
    intro s p hp
    obtain ⟨c, hc, hbounds⟩ := h.object s p hp
    exact ⟨c, hc.exchange (hcut s c), hbounds⟩
  constructor
  · intro s p hp
    rcases Multiset.mem_add.mp hp with hnew | hrest
    · rcases hobject s p hnew with hold | ⟨c, hc, hbounds⟩
      · exact hkeep s p (Multiset.mem_add.mpr (.inl hold))
      · exact ⟨c, hc.mono (Multiset.le_add_right _ _), hbounds⟩
    · exact hkeep s p (Multiset.mem_add.mpr (.inr hrest))
  · intro k u hu
    rcases Multiset.mem_add.mp hu with hnew | hrest
    · exact hcutting k u hnew
    · exact h.cutting k u (Multiset.mem_add.mpr (.inr hrest))

/-- An exchange without cut chunks that makes no objects. -/
theorem Placed.inert {gone new rest : Multiset Item} (h : Placed (gone + rest))
    (hgone : ∀ i ∈ gone, i.isCut = false)
    (hnew : ∀ i ∈ new, i.isCut = false ∧ i.isObject = false) : Placed (new + rest) := by
  refine h.exchange ?_ ?_ ?_
  · rintro s c (hc | ⟨u, hu, -⟩)
    · exact absurd (hgone _ hc) (by simp [Item.isCut])
    · exact absurd (hgone _ hu) (by simp [Item.isCut])
  · intro s p hp
    exact absurd (hnew _ hp).2 (by simp [Item.isObject])
  · intro k u hu
    exact absurd (hnew _ hu).1 (by simp [Item.isCut])

/-- The objects of a chunk lie in it. -/
theorem object_mem_objects {s t : Slot} {c p : Nat} (h : .object t p ∈ s.objects c) :
    t = s ∧ c ≤ p ∧ p < c + s.chunkSize := by
  obtain ⟨q, hq, heq⟩ := mem_itemAll.mp h
  obtain ⟨rfl, rfl⟩ := Item.object.inj heq
  obtain ⟨i, hi, rfl⟩ := mem_firstSlots.mp hq
  have := lt_chunkSize_of_lt_div hi
  exact ⟨rfl, Nat.le_add_right _ _, by omega⟩

theorem placed_exchange {os os' : Os} {m m' : Option Nat} {gone new : Multiset Item}
    (rest : Multiset Item) (h : Exchange os m gone new os' m') (hplaced : Placed (gone + rest)) :
    Placed (new + rest) := by
  cases h with
  | record s c =>
      refine hplaced.exchange ?_ ?_ ?_
      · rintro t c' (hc | ⟨u, hu, -⟩)
        · simp at hc
        · simp at hu
      · intro t p hp
        have hp : .object t p ∈ s.objects c := by simpa using hp
        obtain ⟨rfl, hbounds⟩ := object_mem_objects hp
        exact .inr ⟨c, .inl (by simp), hbounds⟩
      · intro k u hu
        have hu : .cutting k u ∈ s.objects c := by simpa using hu
        obtain ⟨q, -, heq⟩ := mem_itemAll.mp hu
        cases heq
  | start s size c hslot _ =>
      have hcount := one_le_chunkSize_div hslot
      refine hplaced.exchange ?_ ?_ ?_
      · rintro t c' (hc | ⟨u, hu, -⟩)
        · simp at hc
        · simp at hu
      · intro t p hp
        obtain ⟨rfl, rfl⟩ : t = s ∧ p = c + size * (s.kind.chunkSize / size - 1) := by
          simpa using hp
        refine .inr ⟨c, .inr ⟨⟨size, c, t.kind.chunkSize / size - 1⟩, by simp, rfl, hslot⟩,
          Nat.le_add_right _ _, ?_⟩
        have hlt := lt_chunkSize_of_lt_div
          (show t.kind.chunkSize / size - 1 < t.kind.chunkSize / size by omega)
        rw [← t.chunkSize_kind, mul_comm]
        omega
      · intro k u hu
        obtain ⟨rfl, rfl⟩ : k = s.kind ∧ u = ⟨size, c, s.kind.chunkSize / size - 1⟩ := by
          simpa using hu
        exact ⟨s, hslot, rfl, by dsimp only; omega⟩
  | cut s u hslot hfree =>
      obtain ⟨t, ht, hkind, hcount⟩ := hplaced.cutting s.kind u (by simp)
      obtain rfl : t = s := Option.some.inj (ht.symm.trans hslot)
      refine hplaced.exchange ?_ ?_ ?_
      · rintro t' c' (hc | ⟨v, hv, hptr, hslot'⟩)
        · simp at hc
        · obtain ⟨hkind', rfl⟩ : t'.kind = t.kind ∧ v = u := by simpa using hv
          exact .inr ⟨{ v with numberOfFreeSlots := v.numberOfFreeSlots - 1 },
            by simp [hkind'], hptr, hslot'⟩
      · intro t' p hp
        obtain ⟨rfl, rfl⟩ : t' = t ∧ p = u.ptr + u.size * (u.numberOfFreeSlots - 1) := by
          simpa using hp
        refine .inr ⟨u.ptr, .inr ⟨{ u with numberOfFreeSlots := u.numberOfFreeSlots - 1 },
          by simp, rfl, hslot⟩, Nat.le_add_right _ _, ?_⟩
        have hlt := lt_chunkSize_of_lt_div
          (show u.numberOfFreeSlots - 1 < t'.kind.chunkSize / u.size by omega)
        rw [← t'.chunkSize_kind, mul_comm]
        omega
      · intro k v hv
        obtain ⟨rfl, rfl⟩ : k = t.kind ∧ v = { u with numberOfFreeSlots := u.numberOfFreeSlots - 1 } := by
          simpa using hv
        exact ⟨t, hslot, rfl, by dsimp only; omega⟩
  | commit s u hslot =>
      obtain ⟨t, ht, hkind, hcount⟩ := hplaced.cutting s.kind u (by simp)
      refine hplaced.exchange ?_ ?_ ?_
      · rintro t' c' (hc | ⟨v, hv, rfl, hslot'⟩)
        · simp at hc
        · obtain ⟨-, rfl⟩ : t'.kind = s.kind ∧ v = u := by simpa using hv
          obtain rfl : t' = s := Option.some.inj (hslot'.symm.trans hslot)
          exact .inl (by simp)
      · intro t' p hp
        have hp : .object t' p ∈ Item.all (.object s) (firstSlots u.ptr u.size u.numberOfFreeSlots) := by
          simpa using hp
        obtain ⟨q, hq, heq⟩ := mem_itemAll.mp hp
        obtain ⟨rfl, rfl⟩ := Item.object.inj heq
        obtain ⟨i, hi, rfl⟩ := mem_firstSlots.mp hq
        refine .inr ⟨u.ptr, .inl (by simp), Nat.le_add_right _ _, ?_⟩
        have hlt := lt_chunkSize_of_lt_div (hi.trans hcount)
        rw [← s.chunkSize_kind]
        omega
      · intro k v hv
        have hv : .cutting k v ∈ Item.all (.object s) (firstSlots u.ptr u.size u.numberOfFreeSlots) := by
          simpa using hv
        obtain ⟨q, -, heq⟩ := mem_itemAll.mp hv
        cases heq
  | leaveUncut s c _ =>
      refine hplaced.inert ?_ (by simp)
      intro i hi
      rcases Multiset.mem_add.mp hi with hi | hi
      · obtain rfl := Multiset.mem_singleton.mp hi
        rfl
      · obtain ⟨q, -, rfl⟩ := mem_itemAll.mp hi
        rfl
  | parse r =>
      refine hplaced.inert (by simp [Item.isCut]) ?_
      simp only [Multiset.mem_add, Multiset.mem_singleton, regionChunks, mem_itemAll]
      rintro i (rfl | ⟨q, -, rfl⟩ | ⟨q, -, rfl⟩) <;> exact ⟨rfl, rfl⟩
  | split c =>
      refine hplaced.inert (by simp [Item.isCut]) ?_
      simp only [mem_itemAll]
      rintro i ⟨q, -, rfl⟩
      exact ⟨rfl, rfl⟩
  | _ => exact hplaced.inert (by simp [Item.isCut]) (by simp [Item.isCut, Item.isObject])

/-! ## One object for each slot -/

/-- The objects among the items. -/
def Item.objectsOf : Item → Multiset (Slot × Nat)
  | .object s p => {(s, p)}
  | _ => 0

/-- The slots that have been cut off a chunk of a class from index `first` on. -/
def Slot.cutFrom (s : Slot) (chunk first : Nat) : Multiset (Slot × Nat) :=
  (((List.range s.slotsPerChunk).drop first).map fun i => (s, chunk + i * s.realSize) : List _)

/-- The slots that have been cut off the chunks among the items. -/
def Item.slotsOf : Item → Multiset (Slot × Nat)
  | .recorded s c => s.cutFrom c 0
  | .cutting _ u =>
      match slotForSize u.size with
      | some s => s.cutFrom u.ptr u.numberOfFreeSlots
      | none => 0
  | _ => 0

/-- Without a stored State, every slot that has been cut is one object, apart from the
slots of a chunk that was left uncut. -/
structure Exact (os : Os) (items : Multiset Item) : Prop where
  objects : ∃ lost, items.bind Item.objectsOf + lost = items.bind Item.slotsOf ∧
    (os.NoChunkLeftUncut → lost = 0)
  cutting : ∀ k u, .cutting k u ∈ items → ∃ s, slotForSize u.size = some s ∧ s.kind = k ∧
    u.size = s.realSize ∧ u.numberOfFreeSlots < s.slotsPerChunk

theorem bind_objectsOf_all (s : Slot) (ptrs : List Nat) :
    (Item.all (.object s) ptrs).bind Item.objectsOf = (ptrs.map fun p => (s, p) : List _) := by
  induction ptrs with
  | nil => rfl
  | cons p ptrs ih => simp [ih, Item.objectsOf, ← Multiset.cons_coe]

theorem bind_eq_zero {f : Item → Multiset (Slot × Nat)} {items : Multiset Item}
    (h : ∀ i ∈ items, f i = 0) : items.bind f = 0 :=
  (Multiset.bind_congr h).trans (Multiset.bind_zero items)

theorem Slot.objectsOf_objects (s : Slot) (c : Nat) :
    (s.objects c).bind Item.objectsOf = s.cutFrom c 0 := by
  rw [Slot.objects, bind_objectsOf_all]
  simp [firstSlots, Slot.cutFrom, Function.comp_def]

/-- The slots from an index on are the slot at the index and those after it. -/
theorem Slot.cutFrom_pred (s : Slot) (chunk : Nat) {first : Nat} (hpos : first ≠ 0)
    (hlt : first - 1 < s.slotsPerChunk) :
    s.cutFrom chunk (first - 1) =
      {(s, chunk + (first - 1) * s.realSize)} + s.cutFrom chunk first := by
  have hdrop : (List.range s.slotsPerChunk).drop (first - 1) =
      (first - 1) :: (List.range s.slotsPerChunk).drop first := by
    rw [List.drop_eq_getElem_cons (by simpa using hlt), List.getElem_range,
      Nat.sub_add_cancel (Nat.one_le_iff_ne_zero.mpr hpos)]
  rw [Slot.cutFrom, hdrop]
  rfl

/-- The slots below an index and those from it on are all the slots. -/
theorem Slot.cutFrom_zero (s : Slot) (chunk : Nat) {first : Nat} (hle : first ≤ s.slotsPerChunk) :
    s.cutFrom chunk 0 =
      ((firstSlots chunk s.realSize first).map fun p => (s, p) : List _) +
        s.cutFrom chunk first := by
  have hsplit : (List.range s.slotsPerChunk) =
      List.range first ++ (List.range s.slotsPerChunk).drop first := by
    rw [← List.take_append_drop first (List.range s.slotsPerChunk), List.take_range,
      Nat.min_eq_left hle]
    simp
  rw [Slot.cutFrom, List.drop_zero, hsplit]
  simp [Slot.cutFrom, firstSlots, List.map_drop, Function.comp_def]

/-- What an exchange has to show: the objects and the slots that it makes balance,
up to objects that it loses, and its new chunks of States are cut at the real size. -/
theorem Exact.exchange {os os' : Os} {gone new rest : Multiset Item}
    (h : Exact os (gone + rest)) (lost : Multiset Item) (hlog : os.log <:+ os'.log)
    (hbalance : new.bind Item.objectsOf + gone.bind Item.slotsOf + lost.bind Item.objectsOf =
      gone.bind Item.objectsOf + new.bind Item.slotsOf)
    (hlost : os'.NoChunkLeftUncut → lost = 0)
    (hcutting : ∀ k u, .cutting k u ∈ new → ∃ s, slotForSize u.size = some s ∧ s.kind = k ∧
      u.size = s.realSize ∧ u.numberOfFreeSlots < s.slotsPerChunk) : Exact os' (new + rest) := by
  obtain ⟨⟨lost', hobjects, hlost'⟩, hcut⟩ := h
  simp only [Multiset.add_bind] at hobjects
  refine ⟨⟨lost' + lost.bind Item.objectsOf, ?_, ?_⟩, ?_⟩
  · simp only [Multiset.add_bind]
    refine add_left_cancel (a := gone.bind Item.slotsOf) ?_
    calc gone.bind Item.slotsOf + (new.bind Item.objectsOf + rest.bind Item.objectsOf +
          (lost' + lost.bind Item.objectsOf))
        = (new.bind Item.objectsOf + gone.bind Item.slotsOf + lost.bind Item.objectsOf) +
            (rest.bind Item.objectsOf + lost') := by abel
      _ = (gone.bind Item.objectsOf + rest.bind Item.objectsOf + lost') +
            new.bind Item.slotsOf := by rw [hbalance]; abel
      _ = gone.bind Item.slotsOf + (new.bind Item.slotsOf + rest.bind Item.slotsOf) := by
            rw [hobjects]; abel
  · intro hnone
    rw [hlost hnone, hlost' fun c hc => hnone c (hlog.subset hc)]
    rfl
  · intro k u hu
    rcases Multiset.mem_add.mp hu with hnew | hrest
    · exact hcutting k u hnew
    · exact hcut k u (Multiset.mem_add.mpr (.inr hrest))

/-- An exchange without objects and cut chunks. -/
theorem Exact.inert {os os' : Os} {gone new rest : Multiset Item} (h : Exact os (gone + rest))
    (hlog : os.log <:+ os'.log) (hgone : ∀ i ∈ gone, i.isCut = false ∧ i.isObject = false)
    (hnew : ∀ i ∈ new, i.isCut = false ∧ i.isObject = false) : Exact os' (new + rest) := by
  have hobjects : ∀ i : Item, i.isCut = false ∧ i.isObject = false →
      i.objectsOf = 0 ∧ i.slotsOf = 0 := by
    rintro i ⟨hcut, hobject⟩
    cases i <;> simp_all [Item.isCut, Item.isObject, Item.objectsOf, Item.slotsOf]
  have hzero : ∀ items : Multiset Item, (∀ i ∈ items, i.isCut = false ∧ i.isObject = false) →
      items.bind Item.objectsOf = 0 ∧ items.bind Item.slotsOf = 0 := fun items hitems =>
    ⟨bind_eq_zero fun i hi => (hobjects i (hitems i hi)).1,
      bind_eq_zero fun i hi => (hobjects i (hitems i hi)).2⟩
  refine h.exchange 0 hlog ?_ (fun _ => rfl) ?_
  · rw [(hzero gone hgone).1, (hzero gone hgone).2, (hzero new hnew).1, (hzero new hnew).2]
    rfl
  · intro k u hu
    exact absurd (hnew _ hu).1 (by simp [Item.isCut])

theorem bind_slotsOf_all (s : Slot) (ptrs : List Nat) :
    (Item.all (.object s) ptrs).bind Item.slotsOf = 0 :=
  bind_eq_zero fun i hi => by
    obtain ⟨p, -, rfl⟩ := mem_itemAll.mp hi
    rfl

/-- The chunk size over the size of a class is the number of slots. -/
theorem Slot.chunkSize_div (s : Slot) : s.kind.chunkSize / s.realSize = s.slotsPerChunk := by
  rw [s.chunkSize_kind]
  rfl

theorem exact_exchange {os os' : Os} {m m' : Option Nat} {gone new : Multiset Item}
    (rest : Multiset Item) (h : Exchange os m gone new os' m') (hstored : os'.NoStateStored)
    (hexact : Exact os (gone + rest)) : Exact os' (new + rest) := by
  have hlog := h.log_suffix
  cases h with
  | record s c =>
      refine hexact.exchange 0 hlog ?_ (fun _ => rfl) ?_
      · have hslots : (s.objects c).bind Item.slotsOf = 0 := bind_slotsOf_all s _
        simp [Item.objectsOf, Item.slotsOf, hslots, s.objectsOf_objects]
      · intro k u hu
        have hu : .cutting k u ∈ s.objects c := by simpa using hu
        obtain ⟨q, -, heq⟩ := mem_itemAll.mp hu
        cases heq
  | start s size c hslot hsize =>
      have hreal : s.realSize = size := by
        rcases hsize with hreal | ⟨p, hp⟩
        · exact hreal
        · exact absurd hp (hstored p)
      subst hreal
      have hfive := s.five_le_slotsPerChunk
      rw [s.chunkSize_div]
      refine hexact.exchange 0 hlog ?_ (fun _ => rfl) ?_
      · have hlast : s.cutFrom c (s.slotsPerChunk - 1) = _ :=
          s.cutFrom_pred c (by omega) (by omega)
        have hnone : s.cutFrom c s.slotsPerChunk = 0 := by
          simp [Slot.cutFrom]
        simp [Item.objectsOf, Item.slotsOf, hslot, hlast, hnone, mul_comm]
      · intro k u hu
        obtain ⟨rfl, rfl⟩ : k = s.kind ∧ u = ⟨s.realSize, c, s.slotsPerChunk - 1⟩ := by
          simpa using hu
        exact ⟨s, hslot, rfl, rfl, by dsimp only; omega⟩
  | cut s u hslot hfree =>
      obtain ⟨t, ht, hkind, hreal, hcount⟩ := hexact.cutting s.kind u (by simp)
      obtain rfl : t = s := Option.some.inj (ht.symm.trans hslot)
      refine hexact.exchange 0 hlog ?_ (fun _ => rfl) ?_
      · have hpred := t.cutFrom_pred u.ptr hfree (by omega)
        simp [Item.objectsOf, Item.slotsOf, slotForSize_realSize, hpred, hreal, mul_comm]
      · intro k v hv
        obtain ⟨rfl, rfl⟩ : k = t.kind ∧
            v = { u with numberOfFreeSlots := u.numberOfFreeSlots - 1 } := by simpa using hv
        exact ⟨t, hslot, rfl, hreal, by dsimp only; omega⟩
  | commit s u hslot =>
      obtain ⟨t, ht, hkind, hreal, hcount⟩ := hexact.cutting s.kind u (by simp)
      obtain rfl : t = s := Option.some.inj (ht.symm.trans hslot)
      refine hexact.exchange 0 hlog ?_ (fun _ => rfl) ?_
      · have hall := t.cutFrom_zero u.ptr hcount.le
        simp [Item.objectsOf, Item.slotsOf, slotForSize_realSize, hall, hreal,
          bind_objectsOf_all, bind_slotsOf_all]
      · intro k v hv
        have hv : .cutting k v ∈ Item.all (.object t)
            (firstSlots u.ptr u.size u.numberOfFreeSlots) := by simpa using hv
        obtain ⟨q, -, heq⟩ := mem_itemAll.mp hv
        cases heq
  | leaveUncut s c hleft =>
      refine hexact.exchange (s.objects c) hlog ?_ (fun hnone => absurd hleft (hnone c)) (by simp)
      have hslots : (s.objects c).bind Item.slotsOf = 0 := bind_slotsOf_all s _
      simp [Item.objectsOf, Item.slotsOf, hslots]
  | parse r =>
      refine hexact.inert hlog (by simp [Item.isCut, Item.isObject]) ?_
      simp only [Multiset.mem_add, Multiset.mem_singleton, regionChunks, mem_itemAll]
      rintro i (rfl | ⟨q, -, rfl⟩ | ⟨q, -, rfl⟩) <;> exact ⟨rfl, rfl⟩
  | split c =>
      refine hexact.inert hlog (by simp [Item.isCut, Item.isObject]) ?_
      simp only [mem_itemAll]
      rintro i ⟨q, -, rfl⟩
      exact ⟨rfl, rfl⟩
  | _ =>
      exact hexact.inert hlog (by simp [Item.isCut, Item.isObject])
        (by simp [Item.isCut, Item.isObject])

end Memalart
