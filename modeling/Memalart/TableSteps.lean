/-
# The chunk tables come into existence together

The two chunk tables are boxes that the allocator allocates for itself while it
commits its first State, one after the other, and it does not give them back before
it is destructured.  Whatever else a call does, it returns with both of them or
with what it found, and free chunks are only kept once both exist.  The keys of the
size tree are distinct and extra large, and the capacity of a vector is one that
`alloc_with` gives.  All this holds with messages arriving and
with any answers of the operating system, so it is stated apart from the ledger.
-/

import Memalart.AllocatorSteps
import Memalart.ExtraLargeSizes

namespace Memalart

open Memalart.Lib ThreadLocalAllocator

variable {P : Params}

/-- A capacity that `alloc_with` gives, or that of a vector without a buffer. -/
def VecId.HasCapacity (v : VecId) (cap : Nat) : Prop :=
  cap = 0 ∨ ∃ n, cap = recommendedSize (nextPowerOfTwo n) / v.elemSize % u32Range

namespace World

/-- Both chunk tables exist. -/
def Tabled (w : World P) : Prop := ∀ k, chunkTableBox k w ≠ none

/-- What holds in the middle of a call as well. -/
structure Orderly (w : World P) : Prop where
  /-- Free chunks are only kept once both chunk tables exist. -/
  chunks : ∀ k : ChunkKind, (w.vec k.freeVec).elems ≠ [] → w.Tabled
  nodup : ((P.tree.entries w.inner.allocatedLargeSizes).map Prod.fst).Nodup
  large : ∀ e ∈ P.tree.entries w.inner.allocatedLargeSizes, largeSizeMax < e.1
  caps : ∀ v : VecId, v.HasCapacity (w.vec v).cap

/-- Both tables, or those that were there. -/
def Settles (w w' : World P) : Prop := w'.Tabled ∨ ∀ k, chunkTableBox k w' = chunkTableBox k w

/-- How the state changes under a call.  A call without a State leaves the chunk
tables settled. -/
structure Advances (hasState : Bool) (w w' : World P) : Prop where
  box : ∀ k, chunkTableBox k w ≠ none → chunkTableBox k w' ≠ none
  /-- A tree that is being changed is left alone. -/
  busy : w.treeBusy = true →
    w'.treeBusy = true ∧ w'.inner.allocatedLargeSizes = w.inner.allocatedLargeSizes
  borrowed : w'.inner.isBorrowedForUnknownTime = w.inner.isBorrowedForUnknownTime
  alive : w.inner.isAlreadyDestructured = false → w'.inner.isAlreadyDestructured = false
  settles : hasState = false → w.Settles w'

variable {w w' w'' : World P} {hasState : Bool}

theorem Advances.refl (hasState : Bool) (w : World P) : w.Advances hasState w where
  box _ h := h
  busy h := ⟨h, rfl⟩
  borrowed := rfl
  alive h := h
  settles _ := .inr fun _ => rfl

theorem Settles.trans (h : w.Settles w') (h' : w'.Settles w'')
    (hbox : ∀ k, chunkTableBox k w' ≠ none → chunkTableBox k w'' ≠ none) : w.Settles w'' := by
  rcases h' with h' | h'
  · exact .inl h'
  · rcases h with h | h
    · exact .inl fun k => hbox k (h k)
    · exact .inr fun k => (h' k).trans (h k)

theorem Advances.trans (h : w.Advances hasState w') (h' : w'.Advances hasState w'') :
    w.Advances hasState w'' where
  box k hk := h'.box k (h.box k hk)
  busy hbusy := by
    obtain ⟨hbusy', htree⟩ := h.busy hbusy
    obtain ⟨hbusy'', htree'⟩ := h'.busy hbusy'
    exact ⟨hbusy'', htree'.trans htree⟩
  borrowed := h'.borrowed.trans h.borrowed
  alive halive := h'.alive (h.alive halive)
  settles hs := (h.settles hs).trans (h'.settles hs) h'.box

end World

/-- The discipline of the chunk tables.  Its tokens are the tables that a call knows to
exist. -/
def tableDiscipline (P : Params) (hasState : Bool) : Discipline (World P) ChunkKind where
  Inv w known := w.Orderly ∧ ∀ k ∈ known, chunkTableBox k w ≠ none
  Goes c c' := c.1.Advances hasState c'.1
  refl c := .refl hasState c.1
  trans := World.Advances.trans

/-- Both chunk tables are known to exist. -/
def tabled : Multiset ChunkKind := {.common} + {.large}

theorem tabled_iff {w : World P} : (∀ k ∈ tabled, chunkTableBox k w ≠ none) ↔ w.Tabled := by
  constructor
  · intro h k
    cases k with
    | common => exact h .common (Multiset.mem_add.mpr (.inl (Multiset.mem_singleton_self _)))
    | large => exact h .large (Multiset.mem_add.mpr (.inr (Multiset.mem_singleton_self _)))
  · intro h k _
    exact h k

section Triples

variable {α : Type} {hasState : Bool} {x : M P α} {give known : Multiset ChunkKind}
  {take : α → Multiset ChunkKind}

/-- A computation whose returning runs are steps. -/
theorem orderly_of_step
    (h : ∀ w a w', w.Orderly → (∀ k ∈ give, chunkTableBox k w ≠ none) → x.Returns w a w' →
      w'.Orderly ∧ w.Advances hasState w' ∧ ∀ k ∈ take a, chunkTableBox k w' ≠ none) :
    (tableDiscipline P hasState).Triple give x take := by
  rintro w rest ⟨horderly, hholds⟩ a w' hret
  obtain ⟨horderly', hadvances, htake⟩ := h w a w' horderly
    (fun t ht => hholds t (Multiset.mem_add.mpr (.inl ht))) hret
  refine ⟨⟨horderly', fun t ht => ?_⟩, hadvances⟩
  rcases Multiset.mem_add.mp ht with ht | ht
  · exact htake t ht
  · exact hadvances.box t (hholds t (Multiset.mem_add.mpr (.inr ht)))

/-- What a triple says of one run. -/
theorem step_of_orderly {w w' : World P} {a : α}
    (h : (tableDiscipline P hasState).Triple give x take) (horderly : w.Orderly)
    (hgive : ∀ k ∈ give, chunkTableBox k w ≠ none) (hret : x.Returns w a w') :
    w'.Orderly ∧ w.Advances hasState w' ∧ ∀ k ∈ take a, chunkTableBox k w' ≠ none := by
  have hinv : (tableDiscipline P hasState).Inv w (give + 0) := by
    rw [add_zero]
    exact ⟨horderly, hgive⟩
  obtain ⟨⟨horderly', htake⟩, hadvances⟩ := h w 0 hinv a w' hret
  exact ⟨horderly', hadvances, fun t ht => htake t (Multiset.mem_add.mpr (.inl ht))⟩

/-- A call with a State asks for less. -/
theorem orderly_weaken (h : (tableDiscipline P false).Triple give x take) (hasState : Bool) :
    (tableDiscipline P hasState).Triple give x take :=
  orderly_of_step fun w a w' horderly hgive hret => by
    obtain ⟨horderly', hadvances, htake⟩ := step_of_orderly h horderly hgive hret
    exact ⟨horderly', { hadvances with settles := fun _ => hadvances.settles rfl }, htake⟩

/-- A call that ends with both tables has settled them. -/
theorem orderly_settle (h : (tableDiscipline P true).Triple give x fun a => tabled + take a) :
    (tableDiscipline P hasState).Triple give x fun a => tabled + take a :=
  orderly_of_step fun w a w' horderly hgive hret => by
    obtain ⟨horderly', hadvances, htake⟩ := step_of_orderly h horderly hgive hret
    have htabled : w'.Tabled :=
      tabled_iff.mp fun t ht => htake t (Multiset.mem_add.mpr (.inl ht))
    exact ⟨horderly', { hadvances with settles := fun _ => .inl htabled }, htake⟩

/-- Forget what is known. -/
theorem orderly_forget (known : α → Multiset ChunkKind)
    (h : (tableDiscipline P hasState).Triple give x fun a => known a + take a) :
    (tableDiscipline P hasState).Triple give x take :=
  orderly_of_step fun w a w' horderly hgive hret => by
    obtain ⟨horderly', hadvances, htake⟩ := step_of_orderly h horderly hgive hret
    exact ⟨horderly', hadvances, fun t ht => htake t (Multiset.mem_add.mpr (.inr ht))⟩

/-- Ask for more. -/
theorem orderly_knowing (known : Multiset ChunkKind)
    (h : (tableDiscipline P hasState).Triple give x take) :
    (tableDiscipline P hasState).Triple (known + give) x take :=
  orderly_of_step fun _ _ _ horderly hgive hret =>
    step_of_orderly h horderly (fun t ht => hgive t (Multiset.mem_add.mpr (.inr ht))) hret

/-- A computation that needs to know nothing, where something is known. -/
theorem orderly_beside (known : Multiset ChunkKind)
    (h : (tableDiscipline P hasState).Triple 0 x fun _ => 0) :
    (tableDiscipline P hasState).Triple known x fun _ => known := by
  have hframe := h.frame known
  simpa only [zero_add] using hframe

end Triples

/-! ## Steps that leave the tables and the size tree alone -/

/-- What most steps leave as it is. -/
structure World.Steady (w w' : World P) : Prop where
  box : ∀ k, chunkTableBox k w' = chunkTableBox k w
  busy : w'.treeBusy = w.treeBusy
  tree : w'.inner.allocatedLargeSizes = w.inner.allocatedLargeSizes
  borrowed : w'.inner.isBorrowedForUnknownTime = w.inner.isBorrowedForUnknownTime
  alive : w.inner.isAlreadyDestructured = false → w'.inner.isAlreadyDestructured = false
  caps : ∀ v : VecId, (w'.vec v).cap = (w.vec v).cap

namespace World

variable {w w' : World P}

theorem Steady.advances (h : w.Steady w') (hasState : Bool) : w.Advances hasState w' where
  box k hk := by rwa [h.box]
  busy hbusy := ⟨h.busy.trans hbusy, h.tree⟩
  borrowed := h.borrowed
  alive := h.alive
  settles _ := .inr h.box

theorem Steady.orderly (h : w.Steady w') (horderly : w.Orderly)
    (hchunks : ∀ k : ChunkKind, (w'.vec k.freeVec).elems ≠ [] → w.Tabled) : w'.Orderly where
  chunks k hk := fun k' => by
    rw [h.box]
    exact hchunks k hk k'
  nodup := by
    rw [h.tree]
    exact horderly.nodup
  large := by
    rw [h.tree]
    exact horderly.large
  caps v := by
    rw [h.caps]
    exact horderly.caps v

theorem caps_setVec {v : VecId} {x : SelfAllocatedVec v.Elem} {Q : VecId → Nat → Prop}
    (hx : Q v x.cap) (h : ∀ u, Q u (w.vec u).cap) (u : VecId) : Q u ((w.setVec v x).vec u).cap := by
  by_cases hne : u = v
  · subst hne
    rwa [vec_setVec_self]
  · rw [vec_setVec_of_ne _ _ _ hne]
    exact h u

theorem steady_setVec (w : World P) {v : VecId} {x : SelfAllocatedVec v.Elem}
    (hcap : x.cap = (w.vec v).cap) : w.Steady (w.setVec v x) where
  box k := chunkTableBox_setVec ..
  busy := rfl
  tree := by simp
  borrowed := by cases v <;> rfl
  alive h := by cases v <;> exact h
  caps u := caps_setVec (w := w) (Q := fun u cap => cap = (w.vec u).cap) hcap (fun _ => rfl) u

/-- A free list grows only where it is known that both tables exist. -/
theorem chunks_setVec (horderly : w.Orderly) {v : VecId} {x : SelfAllocatedVec v.Elem}
    (hv : ∀ k : ChunkKind, v = k.freeVec → (w.vec v).elems = [] → x.elems ≠ [] → w.Tabled)
    (k : ChunkKind) (hk : ((w.setVec v x).vec k.freeVec).elems ≠ []) : w.Tabled := by
  by_cases hne : k.freeVec = v
  · subst hne
    rw [vec_setVec_self] at hk
    by_cases hempty : (w.vec k.freeVec).elems = []
    · exact hv k rfl hempty hk
    · exact horderly.chunks k hempty
  · rw [vec_setVec_of_ne _ _ _ hne] at hk
    exact horderly.chunks k hk

end World

section Triples

variable {α : Type} {hasState : Bool} {x : M P α} {known : Multiset ChunkKind}

/-- A computation that leaves the tables, the size tree and the free chunks alone. -/
theorem orderly_of_steady
    (h : ∀ w a w', x.Returns w a w' → w.Steady w' ∧
      ∀ k : ChunkKind, (w'.vec k.freeVec).elems ≠ [] → (w.vec k.freeVec).elems ≠ []) :
    (tableDiscipline P hasState).Triple known x fun _ => known :=
  orderly_beside known <| orderly_of_step fun w a w' horderly _ hret => by
    obtain ⟨hsteady, hchunks⟩ := h w a w' hret
    refine ⟨hsteady.orderly horderly fun k hk => horderly.chunks k (hchunks k hk),
      hsteady.advances hasState, ?_⟩
    simp

/-- A computation that leaves the allocator itself alone. -/
theorem orderly_of_inner
    (h : ∀ w a w', x.Returns w a w' → w'.inner = w.inner ∧ w'.treeBusy = w.treeBusy) :
    (tableDiscipline P hasState).Triple known x fun _ => known :=
  orderly_of_steady fun w a w' hret => by
    obtain ⟨hinner, hbusy⟩ := h w a w' hret
    have hbox : ∀ k, chunkTableBox k w' = chunkTableBox k w := by
      intro k
      cases k <;> simp only [chunkTableBox, hinner]
    have hcaps : ∀ v, (w'.vec v).cap = (w.vec v).cap := fun v => by rw [World.vec, hinner, World.vec]
    refine ⟨⟨hbox, hbusy, by rw [hinner], by rw [hinner], by rw [hinner]; exact id, hcaps⟩, fun k hk => ?_⟩
    rwa [World.vec, hinner] at hk

/-- Reading. -/
theorem orderly_of_read (h : ∀ w a w', x.Returns w a w' → w' = w) :
    (tableDiscipline P hasState).Triple known x fun _ => known :=
  orderly_of_inner fun w a w' hret => by
    rw [h w a w' hret]
    exact ⟨rfl, rfl⟩

theorem popObject_orderly (s : Slot) :
    (tableDiscipline P hasState).Triple known (popObject s) fun _ => known :=
  orderly_of_steady fun w r w' hret => by
    rcases returns_popObject hret with ⟨ptr, vec, hpop, -, rfl⟩ | ⟨-, -, rfl⟩
    · have hcap := (SelfAllocatedVec.pop_eq_some hpop).2.1
      exact ⟨World.steady_setVec (v := .object s) w hcap, fun k hk => by cases k <;> exact hk⟩
    · exact ⟨⟨fun _ => rfl, rfl, rfl, rfl, id, fun _ => rfl⟩, fun _ hk => hk⟩

/-- A step that changes only the operating system. -/
theorem onOs_orderly (f : Os → α × Os) :
    (tableDiscipline P hasState).Triple known (onOs f) fun _ => known :=
  orderly_of_inner fun w r w' hret => by
    cases hret
    exact ⟨rfl, rfl⟩

theorem record_orderly (e : Event) :
    (tableDiscipline P hasState).Triple known (record e) fun _ => known :=
  orderly_of_inner fun w r w' hret => by
    obtain rfl := Machine.returns_modify.mp hret
    exact ⟨rfl, rfl⟩

theorem enterState_orderly (region : Nat) :
    (tableDiscipline P hasState).Triple known (enterState region) fun _ => known :=
  orderly_of_inner fun w r w' hret => by
    obtain rfl := Machine.returns_modify.mp hret
    exact ⟨rfl, rfl⟩

theorem currentState_orderly :
    (tableDiscipline P hasState).Triple known currentState fun _ => known :=
  orderly_of_read fun _ _ _ hret => (returns_currentState hret).1

theorem updateState_orderly (f : State → State) :
    (tableDiscipline P hasState).Triple known (updateState f) fun _ => known :=
  orderly_of_inner fun w r w' hret => by
    obtain ⟨s, chain, rest, -, rfl⟩ := returns_updateState hret
    exact ⟨rfl, rfl⟩

theorem stateAllocSize_orderly (limit : Bool) (k : ChunkKind) (size : Nat) :
    (tableDiscipline P hasState).Triple known (stateAllocSize limit k size) fun _ => known :=
  orderly_of_inner fun w r w' hret => by
    obtain ⟨chain, rest, chain', os', -, -, rfl⟩ := returns_stateAllocSize.mp hret
    exact ⟨rfl, rfl⟩

theorem stateGetFreeLargeChunk_orderly (limit : Bool) :
    (tableDiscipline P hasState).Triple known (stateGetFreeLargeChunk limit) fun _ => known :=
  orderly_of_inner fun w r w' hret => by
    simp only [Machine.Returns, stateGetFreeLargeChunk] at hret
    split at hret
    · cases hret
    · split at hret <;> cases hret <;> exact ⟨rfl, rfl⟩

/-- A buffer with a capacity that `alloc_with` gives. -/
theorem install_orderly (v : VecId) (ptr n : Nat) :
    (tableDiscipline P hasState).Triple known
      (install v ptr (recommendedSize (nextPowerOfTwo n) / v.elemSize % u32Range))
      fun _ => known :=
  orderly_beside known <| orderly_of_step fun w old w' horderly _ hret => by
    obtain ⟨vec, hvec, -, rfl⟩ := returns_install.mp hret
    obtain ⟨helems, hcap, -⟩ := SelfAllocatedVec.moveTo_eq_some hvec
    have hbox : ∀ k, chunkTableBox k (w.setVec v vec) = chunkTableBox k w :=
      fun k => chunkTableBox_setVec ..
    refine ⟨⟨fun k hk => ?_, by simpa using horderly.nodup, by simpa using horderly.large, ?_⟩,
      ⟨fun k hk => by rwa [hbox], fun hbusy => ⟨hbusy, by simp⟩, by cases v <;> rfl,
        fun halive => by cases v <;> exact halive, fun _ => .inr hbox⟩, by simp⟩
    · have hfree : (w.vec k.freeVec).elems ≠ [] := by
        by_cases hne : k.freeVec = v
        · subst hne
          rwa [World.vec_setVec_self, helems] at hk
        · rwa [World.vec_setVec_of_ne _ _ _ hne] at hk
      intro j
      rw [hbox]
      exact horderly.chunks k hfree j
    · exact World.caps_setVec (Q := VecId.HasCapacity) (.inr ⟨n, hcap⟩) horderly.caps

theorem freeChunk_orderly (k : ChunkKind) (chunk : Nat) :
    (tableDiscipline P hasState).Triple known (freeChunk k chunk) fun _ => known :=
  orderly_of_steady fun w u w' hret => by
    obtain ⟨views, empty, hle, -, rfl⟩ := returns_freeChunk hret
    refine ⟨⟨fun k => by cases k <;> rfl, rfl, rfl, rfl, id, fun v => ?_⟩,
      fun k hk => by cases k <;> exact hk⟩
    cases v <;> rfl

/-- Entering elements; into a free list only where both tables exist. -/
theorem extendUnchecked_orderly (v : VecId) (xs : List v.Elem)
    (hv : (∃ k : ChunkKind, v = k.freeVec) → known = tabled) :
    (tableDiscipline P hasState).Triple known (extendUnchecked v xs) fun _ => known :=
  orderly_of_step fun w u w' horderly hknown hret => by
    obtain ⟨vec, hvec, rfl⟩ := returns_extendUnchecked.mp hret
    have hsteady := World.steady_setVec w (SelfAllocatedVec.tryExtend_eq_some hvec).2.1
    refine ⟨hsteady.orderly horderly (World.chunks_setVec horderly fun k hk _ _ => ?_),
      hsteady.advances hasState, fun t ht => (hsteady.advances hasState).box t (hknown t ht)⟩
    obtain rfl := hv ⟨k, hk⟩
    exact tabled_iff.mp hknown

/-- A free chunk is only found where both tables exist. -/
theorem tryGetChunk_orderly (k : ChunkKind) :
    (tableDiscipline P hasState).Triple 0 (tryGetChunk k : M P (Option Nat)) fun r =>
      if r.isSome then tabled else 0 :=
  orderly_of_step fun w r w' horderly _ hret => by
    have hpop : popChunk k w = (r, w') := Except.ok.inj hret
    cases hvec : (w.vec k.freeVec).elems with
    | nil =>
        have hnone : popChunk k w = (none, w) := by
          cases k with
          | common =>
              have hempty : w.inner.freeCommonChunks.elems = [] := hvec
              simp only [popChunk, SelfAllocatedVec.pop_eq_none.mpr hempty]
          | large =>
              have hempty : w.inner.freeLargeChunks.elems = [] := hvec
              simp only [popChunk, SelfAllocatedVec.pop_eq_none.mpr hempty]
        obtain ⟨rfl, rfl⟩ := Prod.mk.inj (hnone.symm.trans hpop)
        exact ⟨horderly, .refl hasState w, by simp⟩
    | cons c rest =>
        have htabled : w.Tabled := horderly.chunks k (by rw [hvec]; exact List.cons_ne_nil _ _)
        have hsteady : w.Steady w' := by
          cases k with
          | common =>
              simp only [popChunk] at hpop
              split at hpop <;> obtain ⟨rfl, rfl⟩ := Prod.mk.inj hpop
              · next hvec =>
                  exact World.steady_setVec (v := .freeCommonChunks) w
                    (SelfAllocatedVec.pop_eq_some hvec).2.1
              · exact ⟨fun _ => rfl, rfl, rfl, rfl, id, fun _ => rfl⟩
          | large =>
              simp only [popChunk] at hpop
              split at hpop <;> obtain ⟨rfl, rfl⟩ := Prod.mk.inj hpop
              · next hvec =>
                  exact World.steady_setVec (v := .freeLargeChunks) w
                    (SelfAllocatedVec.pop_eq_some hvec).2.1
              · exact ⟨fun _ => rfl, rfl, rfl, rfl, id, fun _ => rfl⟩
        have hadvances := hsteady.advances hasState
        refine ⟨hsteady.orderly horderly fun _ _ => htabled, hadvances, fun t ht => ?_⟩
        exact hadvances.box t (htabled t)

end Triples

/-! ## Vectors -/

/-- What a part of the allocator may rely on when it calls the whole. -/
structure KeepsOrder (A : AllocatorForSelfAllocations P) : Prop where
  selfAlloc : ∀ limit size hasState,
    (tableDiscipline P hasState).Triple 0 (A.selfAlloc limit size hasState) fun _ => 0
  selfDealloc : ∀ ptr size hasState,
    (tableDiscipline P hasState).Triple 0 (A.selfDealloc ptr size hasState) fun _ => 0
  tryAlloc : ∀ size, (tableDiscipline P false).Triple 0 (A.tryAlloc size) fun _ => 0

section Calls

variable {A : AllocatorForSelfAllocations P} (hA : KeepsOrder A) {hasState : Bool}
  {known : Multiset ChunkKind}
include hA

omit hA in
/-- The capacity that goes on is known where it is computed. -/
theorem allocWith_bind {α : Type} (limit : Bool) (v : VecId) (minCap : Nat)
    (f : Option Nat × Nat → M P α) :
    allocWith A limit v minCap hasState >>= f =
      A.selfAlloc limit (recommendedSize (nextPowerOfTwo (minCap * v.elemSize))) hasState >>=
        fun ptr => f (ptr,
          recommendedSize (nextPowerOfTwo (minCap * v.elemSize)) / v.elemSize % u32Range) := by
  funext w
  simp only [allocWith, bind, pure]
  cases A.selfAlloc limit (recommendedSize (nextPowerOfTwo (minCap * v.elemSize))) hasState w with
  | ok r => rfl
  | error e => rfl

theorem maybeDealloc_orderly (v : VecId) (ptr cap : Nat) :
    (tableDiscipline P hasState).Triple known (maybeDealloc A v ptr cap hasState)
      fun _ => known :=
  Discipline.Triple.ite (fun _ => orderly_beside known (hA.selfDealloc ptr _ hasState))
    fun _ => Discipline.Triple.pure rfl

theorem reserveSlow_orderly (limit : Bool) (v : VecId) (additional fuel minCap : Nat) :
    (tableDiscipline P hasState).Triple known
      (reserveSlow A limit v additional hasState fuel minCap) fun _ => known := by
  induction fuel generalizing minCap with
  | zero => exact Discipline.Triple.fault _
  | succ fuel ih =>
      rw [reserveSlow]
      rw [allocWith_bind]
      refine (orderly_beside known (hA.selfAlloc limit _ hasState)).bind fun newPtr => ?_
      refine Discipline.Triple.gets fun minCap => Discipline.Triple.ite (fun _ => ?_) fun _ => ?_
      · cases newPtr with
        | none => exact ih minCap
        | some ptr => exact (maybeDealloc_orderly hA v ptr _).bind fun _ => ih minCap
      · cases newPtr with
        | none => exact Discipline.Triple.pure rfl
        | some ptr =>
            refine (install_orderly v ptr _).bind fun old => ?_
            refine (maybeDealloc_orderly hA v old.1 old.2).bind fun _ => ?_
            refine Discipline.Triple.gets fun minCap => ?_
            exact Discipline.Triple.ite (fun _ => ih minCap) fun _ => Discipline.Triple.pure rfl

theorem reserve_orderly (limit : Bool) (v : VecId) (additional : Nat) :
    (tableDiscipline P hasState).Triple known (reserve A limit v additional hasState)
      fun _ => known := by
  refine Discipline.Triple.gets fun minCap => Discipline.Triple.gets fun cap => ?_
  refine Discipline.Triple.ite (fun _ => Discipline.Triple.pure rfl) fun _ => ?_
  refine (reserveSlow_orderly hA limit v additional A.rounds minCap).bind fun _ => ?_
  exact Discipline.Triple.pure rfl

theorem extendFromSlice_orderly (limit : Bool) (v : VecId) (xs : List v.Elem)
    (hv : (∃ k : ChunkKind, v = k.freeVec) → known = tabled) :
    (tableDiscipline P hasState).Triple known (extendFromSlice A limit v xs hasState)
      fun _ => known := by
  refine (reserve_orderly hA limit v xs.length).bind fun r => ?_
  cases r with
  | none => exact Discipline.Triple.pure rfl
  | some _ => exact (extendUnchecked_orderly v xs hv).bind fun _ => Discipline.Triple.pure rfl

omit hA in
/-- The vectors of objects and the chunk tables hold no free chunks. -/
theorem known_of_object {s : Slot} (h : ∃ k : ChunkKind, VecId.object s = k.freeVec) :
    known = tabled := by
  obtain ⟨k, hk⟩ := h
  cases k <;> cases hk

omit hA in
theorem known_of_chunk {s : Slot} (h : ∃ k : ChunkKind, VecId.chunk s = k.freeVec) :
    known = tabled := by
  obtain ⟨k, hk⟩ := h
  cases k <;> cases hk

theorem pushObjectOrPanic_orderly (s : Slot) (ptr : Nat) :
    (tableDiscipline P hasState).Triple known (pushObjectOrPanic A s ptr hasState)
      fun _ => known := by
  refine (extendFromSlice_orderly hA false (.object s) [ptr] known_of_object).bind fun ok => ?_
  exact Discipline.Triple.ite (fun _ => Discipline.Triple.pure rfl) fun _ => Discipline.Triple.fault _

/-! ## Committing a State -/

/-- With a State, the box may be the first one. -/
theorem ensureChunkTable_orderly (k : ChunkKind) :
    (tableDiscipline P true).Triple known (ensureChunkTable A k true)
      fun _ => {k} + known := by
  have hbeside : (tableDiscipline P true).Triple 0 (ensureChunkTable A k true)
      fun _ => ({k} : Multiset ChunkKind) := by
    intro w rest hinv
    refine Discipline.At.gets ?_
    cases hbox : chunkTableBox k w with
    | some ptr =>
        rintro u w' hret
        obtain ⟨-, rfl⟩ := Machine.returns_pure.mp hret
        refine ⟨⟨hinv.1, fun t ht => ?_⟩, .refl true w'⟩
        rcases Multiset.mem_add.mp ht with ht | ht
        · rw [Multiset.mem_singleton.mp ht]
          exact fun hnone => by simp [hbox] at hnone
        · exact hinv.2 t (Multiset.mem_add.mpr (.inr ht))
    | none =>
        refine ((hA.selfAlloc true _ true).bind fun r => ?_ : (tableDiscipline P true).Triple 0 _
          fun _ => ({k} : Multiset ChunkKind)) w rest hinv
        cases r with
        | none => exact Discipline.Triple.fault _
        | some ptr =>
            refine orderly_of_step fun w u w' horderly _ hret => ?_
            obtain rfl := Machine.returns_modify.mp hret
            have hbox' : ∀ j, chunkTableBox j (setChunkTableBox k ptr w) =
                if j = k then some ptr else chunkTableBox j w := chunkTableBox_setChunkTableBox
            have hmono : ∀ j, chunkTableBox j w ≠ none →
                chunkTableBox j (setChunkTableBox k ptr w) ≠ none := by
              intro j hj
              rw [hbox' j]
              split
              · exact Option.some_ne_none ptr
              · exact hj
            refine ⟨⟨fun j hj => ?_, ?_, ?_, fun v => ?_⟩, ⟨hmono, ?_, ?_, ?_, by simp⟩,
              fun t ht => ?_⟩
            · have hfree : (w.vec j.freeVec).elems ≠ [] := by
                cases k <;> cases j <;> exact hj
              exact fun i => hmono i (horderly.chunks j hfree i)
            · cases k <;> exact horderly.nodup
            · cases k <;> exact horderly.large
            · have hcap : ((setChunkTableBox k ptr w).vec v).cap = (w.vec v).cap ∨
                  ((setChunkTableBox k ptr w).vec v).cap = 0 := by
                cases v with
                | chunk s =>
                    by_cases hs : s.kind = k
                    · right
                      cases k <;> simp [setChunkTableBox, World.vec, ThreadLocalAllocatorInner.vec, hs]
                    · left
                      cases k <;> simp [setChunkTableBox, World.vec, ThreadLocalAllocatorInner.vec, hs]
                | object s => cases k <;> exact .inl rfl
                | freeLargeChunks => cases k <;> exact .inl rfl
                | freeCommonChunks => cases k <;> exact .inl rfl
                | regions => cases k <;> exact .inl rfl
              rcases hcap with hcap | hcap
              · rw [hcap]
                exact horderly.caps v
              · exact .inl hcap
            · intro hbusy
              cases k <;> exact ⟨hbusy, rfl⟩
            · cases k <;> rfl
            · intro halive
              cases k <;> exact halive
            · rw [Multiset.mem_singleton.mp ht, hbox' k, if_pos rfl]
              exact Option.some_ne_none ptr
  have hframe := hbeside.frame known
  rwa [zero_add] at hframe

theorem reserveOrPanic_orderly (message : String) (limit : Bool) (v : VecId) (additional : Nat) :
    (tableDiscipline P true).Triple known (reserveOrPanic A message limit v additional)
      fun _ => known := by
  refine (reserve_orderly hA limit v additional).bind fun r => ?_
  cases r with
  | none => exact Discipline.Triple.fault _
  | some _ => exact Discipline.Triple.pure rfl

theorem reserveObjects_orderly (k : ChunkKind) :
    (tableDiscipline P true).Triple known (reserveObjects A k) fun _ => known := by
  refine currentState_orderly.bind fun s => Discipline.Triple.anyOf fun i _ => ?_
  refine currentState_orderly.bind fun s => Discipline.Triple.orFault fun chunk _ => ?_
  exact Discipline.Triple.orFault fun slot _ => reserveOrPanic_orderly hA _ false _ _

theorem reserveTables_orderly (k : ChunkKind) :
    (tableDiscipline P true).Triple known (reserveTables A k) fun _ => known := by
  refine currentState_orderly.bind fun s => Discipline.Triple.orFault fun counts _ => ?_
  refine Discipline.Triple.anyOf fun entry _ => Discipline.Triple.orFault fun slot _ => ?_
  refine (ensureChunkTable_orderly hA k).bind fun _ => ?_
  exact orderly_knowing _ (reserveOrPanic_orderly hA _ true _ _)

theorem prepareToHandleState_orderly :
    (tableDiscipline P true).Triple known (prepareToHandleState A) fun _ => known := by
  refine (reserveOrPanic_orderly hA _ false _ _).bind fun _ => ?_
  refine currentState_orderly.bind fun s => (reserveOrPanic_orderly hA _ false _ _).bind fun _ => ?_
  refine currentState_orderly.bind fun s => (reserveOrPanic_orderly hA _ false _ _).bind fun _ => ?_
  exact Discipline.Triple.pure rfl

theorem reservePass_orderly :
    (tableDiscipline P true).Triple known (reservePass A) fun _ => known := by
  refine (reserveObjects_orderly hA .common).bind fun _ => ?_
  refine (reserveObjects_orderly hA .large).bind fun _ => ?_
  refine (reserveTables_orderly hA .large).bind fun _ => ?_
  refine (reserveTables_orderly hA .common).bind fun _ => ?_
  exact (prepareToHandleState_orderly hA).bind fun _ => Discipline.Triple.pure rfl

theorem reserveLoop_orderly (fuel : Nat) :
    (tableDiscipline P true).Triple known (reserveLoop A fuel) fun _ => known := by
  induction fuel with
  | zero => exact Discipline.Triple.fault _
  | succ fuel ih =>
      refine (reservePass_orderly hA).bind fun again => ?_
      exact Discipline.Triple.ite (fun _ => ih) fun _ => Discipline.Triple.pure rfl

omit hA in
theorem registerDestructor_orderly :
    (tableDiscipline P hasState).Triple known registerDestructor fun _ => known := by
  refine Discipline.Triple.gets fun registered => ?_
  refine Discipline.Triple.ite (fun _ => Discipline.Triple.fault _) fun _ => ?_
  refine orderly_of_steady fun w u w' hret => ?_
  obtain rfl := Machine.returns_modify.mp hret
  exact ⟨⟨fun k => by cases k <;> rfl, rfl, rfl, rfl, fun _ => rfl, fun v => by cases v <;> rfl⟩,
    fun k hk => by cases k <;> exact hk⟩

omit hA in
theorem managerPtr_orderly :
    (tableDiscipline P hasState).Triple known managerPtr fun _ => known :=
  orderly_of_read fun _ _ _ hret => (Machine.returns_gets.mp hret).2

omit hA in
theorem setManager_orderly (ptr : Nat) :
    (tableDiscipline P hasState).Triple known (setManager ptr) fun _ => known := by
  refine orderly_of_steady fun w u w' hret => ?_
  obtain rfl := Machine.returns_modify.mp hret
  exact ⟨⟨fun k => by cases k <;> rfl, rfl, rfl, rfl, id, fun v => by cases v <;> rfl⟩,
    fun k hk => by cases k <;> exact hk⟩

theorem allocManager_orderly :
    (tableDiscipline P true).Triple known (allocManager A) fun _ => known := by
  refine (updateState_orderly _).bind fun _ => ?_
  refine (orderly_beside known (hA.selfAlloc true _ true)).bind fun r => ?_
  cases r with
  | none => exact Discipline.Triple.fault _
  | some ptr => exact (setManager_orderly ptr).bind fun _ => updateState_orderly _

theorem getOrInitManagerWithState_orderly :
    (tableDiscipline P true).Triple known (getOrInitManagerWithState A) fun _ => known := by
  refine managerPtr_orderly.bind fun manager => ?_
  cases manager with
  | some ptr => exact Discipline.Triple.pure rfl
  | none =>
      have hstored : (tableDiscipline P true).Triple known (do
          let manager ← managerPtr
          Machine.orFault (.bugHint "the manager has been stored") manager : M P Nat)
          fun _ => known :=
        managerPtr_orderly.bind fun manager =>
          orderly_of_read fun _ _ _ hret => (Machine.returns_orFault.mp hret).2
      have hmanager : (tableDiscipline P true).Triple known
          (if P.managerSize = 0 then do
            setManager danglingManager
            let manager ← managerPtr
            Machine.orFault (.bugHint "the manager has been stored") manager
          else do
            allocManager A
            let manager ← managerPtr
            Machine.orFault (.bugHint "the manager has been stored") manager) fun _ => known :=
        Discipline.Triple.ite (fun _ => (setManager_orderly _).bind fun _ => hstored)
          fun _ => (allocManager_orderly hA).bind fun _ => hstored
      refine Discipline.Triple.gets fun registered => ?_
      cases registered with
      | true => exact hmanager
      | false => exact registerDestructor_orderly.bind fun _ => hmanager

/-- The commit of the used chunks ends with both chunk tables. -/
theorem commitUsedChunks_orderly :
    (tableDiscipline P true).Triple known (commitUsedChunks A) fun _ => tabled + known := by
  have hcommit : ∀ (known : Multiset ChunkKind) (manager : Nat) (k : ChunkKind)
      (chunk : UsedChunk), (tableDiscipline P true).Triple known
        (commitUsedChunk manager k chunk : M P Unit) fun _ => known := by
    intro known manager k chunk
    refine (updateState_orderly _).bind fun _ => Discipline.Triple.orFault fun s _ => ?_
    refine (extendUnchecked_orderly (.object s) _ known_of_object).bind fun _ => ?_
    have hmetadata : (tableDiscipline P true).Triple known
        (initMetadata s manager chunk.ptr : M P Unit) fun _ => known := by
      refine orderly_of_inner fun w u w' hret => ?_
      obtain rfl := Machine.returns_modify.mp hret
      exact ⟨rfl, rfl⟩
    exact hmetadata.bind fun _ => extendUnchecked_orderly (.chunk s) _ known_of_chunk
  refine (getOrInitManagerWithState_orderly hA).bind fun manager => ?_
  refine (ensureChunkTable_orderly hA .common).bind fun _ => currentState_orderly.bind fun s => ?_
  refine (Discipline.Triple.forEach fun chunk _ => hcommit _ manager .common chunk).bind fun _ => ?_
  refine (ensureChunkTable_orderly hA .large).bind fun _ => currentState_orderly.bind fun s => ?_
  refine (Discipline.Triple.forEach fun chunk _ => hcommit _ manager .large chunk).conv rfl fun _ => ?_
  rw [tabled, add_assoc, add_left_comm]

omit hA in
theorem finishState_orderly :
    (tableDiscipline P hasState).Triple tabled finishState fun _ => tabled := by
  refine currentState_orderly.bind fun s => ?_
  refine (extendUnchecked_orderly .regions _ fun _ => rfl).bind fun _ => ?_
  refine (extendUnchecked_orderly .freeCommonChunks _ fun _ => rfl).bind fun _ => ?_
  refine (extendUnchecked_orderly .freeLargeChunks _ fun _ => rfl).bind fun _ => ?_
  refine orderly_of_inner fun w r w' hret => ?_
  simp only [Machine.Returns] at hret
  split at hret <;> cases hret <;> exact ⟨rfl, rfl⟩

theorem handleStates_orderly (fuel : Nat) (toDealloc : List Nat) :
    (tableDiscipline P true).Triple 0 (handleStates A fuel toDealloc) fun _ => tabled := by
  induction fuel generalizing toDealloc with
  | zero => exact Discipline.Triple.fault _
  | succ fuel ih =>
      rw [handleStates]
      refine (reserveLoop_orderly hA A.rounds).bind fun _ => ?_
      refine (commitUsedChunks_orderly hA).bind fun _ => ?_
      rw [add_zero]
      refine finishState_orderly.bind fun r => ?_
      cases r with
      | none => exact Discipline.Triple.pure rfl
      | some storage =>
          refine Discipline.Triple.orFault fun ptr _ => ?_
          refine Discipline.Triple.ite (fun _ => ?_) fun _ => Discipline.Triple.fault _
          have hrest := orderly_knowing tabled (ih (toDealloc ++ [ptr]))
          rwa [add_zero] at hrest

/-- Every commit of a State settles the chunk tables. -/
theorem handleState_orderly :
    (tableDiscipline P true).Triple 0 (handleState A) fun _ => tabled := by
  have hmove : (tableDiscipline P true).Triple 0 (moveState : M P Unit) fun _ => 0 := by
    refine orderly_of_inner fun w u w' hret => ?_
    obtain rfl := Machine.returns_modify.mp hret
    split <;> exact ⟨rfl, rfl⟩
  have hrest : (tableDiscipline P true).Triple 0 (do
      let toDealloc ← handleStates A A.rounds []
      Machine.forEach toDealloc fun ptr => A.selfDealloc ptr sizeOfState false) fun _ => tabled := by
    refine (handleStates_orderly hA A.rounds []).bind fun toDealloc => ?_
    refine Discipline.Triple.forEach fun ptr _ => orderly_beside tabled ?_
    exact orderly_weaken (hA.selfDealloc ptr sizeOfState false) true
  refine hmove.bind fun _ => Discipline.Triple.gets fun registered => ?_
  cases registered with
  | true => exact hrest
  | false =>
      refine (getOrInitManagerWithState_orderly hA).bind fun _ => ?_
      exact hrest

omit hA in
/-- A computation on a State of its own: both tables exist when it returns. -/
theorem ownState_orderly {α : Type} {x : M P α} (region : Nat)
    (hx : (tableDiscipline P true).Triple 0 x fun _ => tabled) :
    (tableDiscipline P hasState).Triple 0 (do
      enterState region
      x) fun _ => tabled := by
  have hstate : (tableDiscipline P true).Triple 0 (do
      enterState region
      x) fun _ => tabled + 0 :=
    (enterState_orderly region).bind fun _ => hx.conv rfl fun _ => add_zero _
  exact (orderly_settle hstate).conv rfl fun _ => (add_zero _).symm

/-! ## Slow paths -/

theorem getOrInitManager_orderly :
    (tableDiscipline P hasState).Triple known (getOrInitManager A hasState) fun _ => known := by
  have hstored : ∀ known : Multiset ChunkKind, (tableDiscipline P false).Triple known (do
      let manager ← managerPtr
      Machine.orFault (.bugHint "the manager has been stored") manager : M P Nat)
      fun _ => known := fun known =>
    managerPtr_orderly.bind fun manager =>
      orderly_of_read fun _ _ _ hret => (Machine.returns_orFault.mp hret).2
  have hstate : ∀ region : Nat, (tableDiscipline P false).Triple 0 (do
      enterState region
      allocManager A
      handleState A
      let manager ← managerPtr
      Machine.orFault (.bugHint "the manager has been stored") manager : M P Nat)
      fun _ => tabled := by
    intro region
    refine ownState_orderly region ((allocManager_orderly hA).bind fun _ => ?_)
    exact (handleState_orderly hA).bind fun _ => orderly_weaken (hstored tabled) true
  cases hasState with
  | true => exact getOrInitManagerWithState_orderly hA
  | false =>
      refine orderly_beside known (managerPtr_orderly.bind fun manager => ?_)
      cases manager with
      | some ptr => exact Discipline.Triple.pure rfl
      | none =>
          refine Discipline.Triple.gets fun _ => Discipline.Triple.ite (fun _ => ?_)
            fun _ => registerDestructor_orderly.bind fun _ => ?_
          -- The destructor is registered by now; what is left is to store the manager.
          all_goals
            dsimp only
            refine Discipline.Triple.ite
              (fun _ => (setManager_orderly _).bind fun _ => hstored 0) fun _ => ?_
            refine (onOs_orderly _).bind fun region => ?_
            cases region with
            | none => exact Discipline.Triple.fault _
            | some region =>
                exact orderly_forget (fun _ => tabled) ((hstate region).conv rfl fun _ => add_zero _)

theorem handleNode_orderly (node : Node) :
    (tableDiscipline P false).Triple known (handleNode A node) fun _ => known := by
  refine Discipline.Triple.ite (fun _ => ?_) fun _ => ?_
  · refine Discipline.Triple.orFault fun s _ => ?_
    refine (extendFromSlice_orderly hA true (.object s) _ known_of_object).bind fun ok => ?_
    exact Discipline.Triple.ite (fun _ => Discipline.Triple.pure rfl) fun _ =>
      Discipline.Triple.fault _
  · refine Discipline.Triple.orFault fun s _ => ?_
    refine (pushObjectOrPanic_orderly hA s _).bind fun _ => Discipline.Triple.gets fun metadata => ?_
    refine orderly_of_inner fun w u w' hret => ?_
    simp only [Machine.Returns, addNewNode] at hret
    split at hret
    · cases hret
    · split at hret <;> cases hret <;> exact ⟨rfl, rfl⟩

theorem checkNonLocalPtrs_orderly :
    (tableDiscipline P false).Triple known (checkNonLocalPtrs A) fun _ => known := by
  refine managerPtr_orderly.bind fun manager => ?_
  cases manager with
  | none => exact Discipline.Triple.pure rfl
  | some ptr =>
      have htake : (tableDiscipline P false).Triple known (takeIncoming : M P (List Node))
          fun _ => known := by
        refine orderly_of_inner fun w nodes w' hret => ?_
        cases hret
        exact ⟨rfl, rfl⟩
      refine htake.bind fun nodes => ?_
      exact Discipline.Triple.forEach fun node _ => handleNode_orderly hA node

omit hA in
/-- A box that exists stays. -/
theorem ensureChunkTable_tabled (k : ChunkKind) :
    (tableDiscipline P hasState).Triple tabled (ensureChunkTable A k hasState) fun _ => tabled := by
  rintro w rest ⟨horderly, hknown⟩
  refine Discipline.At.gets ?_
  have htabled : w.Tabled := tabled_iff.mp fun t ht => hknown t (Multiset.mem_add.mpr (.inl ht))
  obtain ⟨ptr, hbox⟩ := Option.ne_none_iff_exists'.mp (htabled k)
  rw [hbox]
  exact Discipline.At.pure ⟨horderly, hknown⟩ rfl

/-- What a way to get a chunk has to give. -/
def FindsTabled (hasState : Bool) (getChunk : M P (Option Nat)) : Prop :=
  (tableDiscipline P hasState).Triple 0 getChunk fun r => if r.isSome then tabled else 0

theorem cutChunk_orderly (isAllocatingManager : Bool) (s : Slot) (realSize chunk : Nat) :
    (tableDiscipline P hasState).Triple tabled
      (cutChunk A isAllocatingManager s realSize hasState chunk) fun _ => 0 := by
  have hmetadata : ∀ manager curr : Nat, (tableDiscipline P hasState).Triple tabled
      (initCutMetadata s manager chunk curr : M P Unit) fun _ => tabled := by
    intro manager curr
    refine orderly_of_inner fun w u w' hret => ?_
    obtain rfl := Machine.returns_modify.mp hret
    exact ⟨rfl, rfl⟩
  have hinit : ∀ manager curr : Nat, (tableDiscipline P hasState).Triple tabled (do
      initCutMetadata s manager chunk curr
      pure (some curr) : M P (Option Nat)) fun _ => tabled := fun manager curr =>
    (hmetadata manager curr).bind fun _ => Discipline.Triple.pure rfl
  refine orderly_forget (fun _ => tabled) (Discipline.Triple.conv ?_ rfl fun _ => add_zero _)
  refine (ensureChunkTable_tabled s.kind).bind fun _ => ?_
  refine (extendFromSlice_orderly hA true (.chunk s) _ fun _ => rfl).bind fun ok => ?_
  refine Discipline.Triple.ite (fun _ => ?_) fun _ =>
    (record_orderly _).bind fun _ => Discipline.Triple.pure rfl
  refine (reserve_orderly hA true (.object s) _).bind fun r => ?_
  cases r with
  | none => exact (record_orderly _).bind fun _ => Discipline.Triple.pure rfl
  | some _ =>
      refine (extendUnchecked_orderly (.object s) _ fun _ => rfl).bind fun _ => ?_
      exact Discipline.Triple.ite (fun _ => hinit _ _) fun _ =>
        (getOrInitManager_orderly hA).bind fun manager => hinit manager _

theorem allocFresh_orderly (isAllocatingManager : Bool) (s : Slot) (realSize : Nat)
    {getChunk : M P (Option Nat)} (hget : FindsTabled hasState getChunk) :
    (tableDiscipline P hasState).Triple 0
      (allocFresh A isAllocatingManager s realSize getChunk hasState) fun _ => 0 := by
  refine hget.bind fun r => ?_
  cases r with
  | none => exact Discipline.Triple.pure rfl
  | some chunk =>
      refine (popObject_orderly s).bind fun r => ?_
      cases r with
      | some ptr =>
          refine orderly_forget (fun _ => tabled) (Discipline.Triple.conv ?_ rfl fun _ => add_zero _)
          exact (freeChunk_orderly s.kind chunk).bind fun _ => Discipline.Triple.pure rfl
      | none => exact cutChunk_orderly hA isAllocatingManager s realSize chunk

theorem allocSlow_orderly (isAllocatingManager : Bool) (s : Slot) (realSize : Nat)
    {getChunk : M P (Option Nat)} (hget : FindsTabled hasState getChunk) :
    (tableDiscipline P hasState).Triple 0
      (allocSlow A isAllocatingManager s realSize getChunk hasState) fun _ => 0 := by
  simp only [allocSlow]
  refine Discipline.Triple.ite (fun _ => ?_) fun _ =>
    allocFresh_orderly hA isAllocatingManager s realSize hget
  refine (orderly_weaken (checkNonLocalPtrs_orderly hA) hasState).bind fun _ => ?_
  refine (popObject_orderly s).bind fun incoming => ?_
  cases incoming with
  | some ptr => exact Discipline.Triple.pure rfl
  | none => exact allocFresh_orderly hA isAllocatingManager s realSize hget

theorem allocLargeChunk_orderly : FindsTabled hasState (allocLargeChunk A) := by
  refine (onOs_orderly _).bind fun region => ?_
  cases region with
  | none => exact Discipline.Triple.pure rfl
  | some region =>
      refine orderly_of_step fun w r w' horderly hgive hret => ?_
      obtain ⟨horderly', hadvances, htabled⟩ := step_of_orderly
        (ownState_orderly region ((stateGetFreeLargeChunk_orderly false).bind fun r => by
          cases r with
          | none => exact Discipline.Triple.fault _
          | some chunk => exact (handleState_orderly hA).bind fun _ => Discipline.Triple.pure rfl))
        horderly hgive hret
      refine ⟨horderly', hadvances, fun k hk => htabled k ?_⟩
      split at hk
      · exact hk
      · exact absurd hk (Multiset.notMem_zero k)

theorem getLargeChunk_orderly : FindsTabled hasState (getLargeChunk A) := by
  refine (tryGetChunk_orderly .large).bind fun r => ?_
  cases r with
  | some chunk => exact Discipline.Triple.pure rfl
  | none => exact allocLargeChunk_orderly hA

theorem getCommonChunkSlow_orderly : FindsTabled false (getCommonChunkSlow A) := by
  have hkeep : ∀ {x : M P (Option Nat)}, (tableDiscipline P false).Triple tabled x
      (fun _ => tabled) → (tableDiscipline P false).Triple tabled x
        fun r => if r.isSome then tabled else 0 := by
    intro x hx
    refine orderly_of_step fun w r w' horderly hgive hret => ?_
    obtain ⟨horderly', hadvances, htabled⟩ := step_of_orderly hx horderly hgive hret
    exact ⟨horderly', hadvances, fun k _ => tabled_iff.mp htabled k⟩
  refine (getLargeChunk_orderly hA).bind fun r => ?_
  cases r with
  | none => exact Discipline.Triple.pure rfl
  | some chunk =>
      refine hkeep ?_
      have htry : (tableDiscipline P false).Triple 0 (tryGetChunk .common : M P (Option Nat))
          fun _ => 0 := by
        refine orderly_of_step fun w r w' horderly hgive hret => ?_
        obtain ⟨horderly', hadvances, -⟩ :=
          step_of_orderly (tryGetChunk_orderly .common) horderly hgive hret
        exact ⟨horderly', hadvances, by simp⟩
      refine (orderly_beside tabled htry).bind fun r => ?_
      cases r with
      | some common =>
          refine (extendFromSlice_orderly hA true .freeLargeChunks _ fun _ => rfl).bind fun ok => ?_
          refine Discipline.Triple.ite (fun _ => Discipline.Triple.pure rfl) fun _ => ?_
          exact (record_orderly _).bind fun _ => Discipline.Triple.pure rfl
      | none =>
          refine (extendFromSlice_orderly hA true .freeCommonChunks _ fun _ => rfl).bind fun ok => ?_
          refine Discipline.Triple.ite (fun _ => ?_) fun _ =>
            (record_orderly _).bind fun _ => Discipline.Triple.pure rfl
          exact orderly_of_read fun _ _ _ hret => (Machine.returns_orFault.mp hret).2

theorem getCommonChunk_orderly : FindsTabled false (getCommonChunk A) := by
  refine (tryGetChunk_orderly .common).bind fun r => ?_
  cases r with
  | some chunk => exact Discipline.Triple.pure rfl
  | none => exact getCommonChunkSlow_orderly hA

theorem allocCommon_orderly (size : Nat) :
    (tableDiscipline P false).Triple 0 (allocCommon A size) fun _ => 0 := by
  refine Discipline.Triple.orFault fun s _ => (popObject_orderly s).bind fun r => ?_
  cases r with
  | some ptr => exact Discipline.Triple.pure rfl
  | none => exact allocSlow_orderly hA false s _ (getCommonChunk_orderly hA)

theorem allocLarge_orderly (size : Nat) :
    (tableDiscipline P false).Triple 0 (allocLarge A size) fun _ => 0 := by
  refine Discipline.Triple.orFault fun s _ => (popObject_orderly s).bind fun r => ?_
  cases r with
  | some ptr => exact Discipline.Triple.pure rfl
  | none => exact allocSlow_orderly hA false s _ (getLargeChunk_orderly hA)

end Calls

/-! ## The size tree -/

section Tree

variable {A : AllocatorForSelfAllocations P} {hasState : Bool} {w : World P}

/-- The keys of a size tree are distinct, and all of them are extra large. -/
def ProperKeys (tree : P.tree.Tree) : Prop :=
  ((P.tree.entries tree).map Prod.fst).Nodup ∧ ∀ e ∈ P.tree.entries tree, largeSizeMax < e.1

theorem ProperKeys.modify {tree : P.tree.Tree} (h : ProperKeys tree) (size : Nat) (f : Nat → Nat) :
    ProperKeys (P.tree.modify size f tree) := by
  have hkeys := ExtraLarge.keys_modify size f tree
  refine ⟨hkeys ▸ h.1, fun e he => ?_⟩
  have hmem : e.1 ∈ (P.tree.entries tree).map Prod.fst := hkeys ▸ List.mem_map_of_mem he
  obtain ⟨e', he', heq⟩ := List.mem_map.mp hmem
  exact heq ▸ h.2 e' he'

theorem ProperKeys.insert {tree : P.tree.Tree} (h : ProperKeys tree) {size : Nat}
    (hlarge : largeSizeMax < size) (hnew : (P.tree.entries tree).lookup size = none) (n : Nat)
    (nodes : List Nat) : ProperKeys (P.tree.insert size n nodes tree) := by
  have hperm := P.tree.entries_insert size n nodes tree hnew
  refine ⟨(hperm.map Prod.fst).nodup_iff.mpr (List.nodup_cons.mpr ⟨fun hmem => ?_, h.1⟩),
    fun e he => ?_⟩
  · obtain ⟨⟨key, count⟩, he, rfl⟩ := List.mem_map.mp hmem
    rw [(lookup_eq_some_iff h.1).mpr he] at hnew
    cases hnew
  · rcases List.mem_cons.mp (hperm.mem_iff.mp he) with rfl | he
    · exact hlarge
    · exact h.2 e he

theorem ProperKeys.remove {tree : P.tree.Tree} (h : ProperKeys tree) (size : Nat) :
    ProperKeys (P.tree.remove size tree).1 := by
  have hentries := P.tree.entries_remove size tree
  refine ⟨?_, fun e he => ?_⟩
  · rw [hentries]
    exact nodup_keys_filter h.1 _
  · rw [hentries] at he
    exact h.2 e (List.mem_filter.mp he).1

/-- Putting another tree in place, with keys that are as they should be. -/
theorem World.Orderly.setTree (h : w.Orderly) (busy : Bool) {tree : P.tree.Tree}
    (hkeys : ProperKeys tree) : (setTree busy tree w).Orderly where
  chunks k hk := by
    have htabled : w.Tabled := h.chunks k (by cases k <;> exact hk)
    intro j
    cases j with
    | common => exact htabled .common
    | large => exact htabled .large
  nodup := hkeys.1
  large := hkeys.2
  caps v := by
    have hcap := h.caps v
    cases v <;> exact hcap

/-- The tree is changed while the nodes of the change come and go. -/
theorem orderly_window {β : Type} {y : M P β} {b : β} {w w' : World P}
    (hy : (tableDiscipline P false).Triple 0 y fun _ => 0) (horderly : w.Orderly)
    (hidle : w.treeBusy = false) {tree : P.tree.Tree} (hkeys : ProperKeys tree)
    (hret : y.Returns (setTree true tree w) b w') :
    w'.inner.allocatedLargeSizes = tree ∧ ∀ tree', ProperKeys tree' → ∀ hasState,
      (setTree false tree' w').Orderly ∧ w.Advances hasState (setTree false tree' w') := by
  obtain ⟨horderly', hadvances, -⟩ :=
    step_of_orderly hy (horderly.setTree true hkeys) (by simp) hret
  have hbox : ∀ k (v : World P) busy tree, chunkTableBox k (setTree busy tree v) =
      chunkTableBox k v := fun k _ _ _ => by cases k <;> rfl
  refine ⟨(hadvances.busy rfl).2, fun tree' hkeys' hasState =>
    ⟨horderly'.setTree false hkeys', ?_⟩⟩
  refine ⟨fun k hk => ?_, fun hbusy => ?_, hadvances.borrowed,
    hadvances.alive, fun _ => ?_⟩
  · rw [hbox]
    exact hadvances.box k (by rwa [hbox])
  · rw [hidle] at hbusy
    cases hbusy
  · rcases hadvances.settles rfl with hsettled | hsame
    · refine .inl fun k => ?_
      rw [hbox]
      exact hsettled k
    · exact .inr fun k => by rw [hbox, hsame, hbox]

/-- The tree is changed at once. -/
theorem orderly_update {w : World P} (horderly : w.Orderly) (hidle : w.treeBusy = false)
    {tree : P.tree.Tree} (hkeys : ProperKeys tree) (hasState : Bool) :
    (setTree w.treeBusy tree w).Orderly ∧ w.Advances hasState (setTree w.treeBusy tree w) := by
  have hnothing : (tableDiscipline P false).Triple 0 (pure () : M P Unit) fun _ => 0 :=
    Discipline.Triple.pure rfl
  have hret : (pure () : M P Unit).Returns (setTree true tree w) () (setTree true tree w) :=
    Machine.returns_pure.mpr ⟨rfl, rfl⟩
  rw [hidle]
  exact (orderly_window hnothing horderly hidle hkeys hret).2 tree hkeys hasState

variable (hA : KeepsOrder A)
include hA

theorem allocNodes_orderly (sizes : List Nat) :
    (tableDiscipline P false).Triple 0 (allocNodes A sizes) fun _ => 0 := by
  induction sizes with
  | nil => exact Discipline.Triple.pure rfl
  | cons size sizes ih =>
      refine (hA.selfAlloc true (recommendedSize size) false).bind fun r => ?_
      cases r with
      | none => exact Discipline.Triple.fault _
      | some ptr => exact ih.bind fun _ => Discipline.Triple.pure rfl

theorem countExtraLarge_orderly {size : Nat} (hlarge : largeSizeMax < size) :
    (tableDiscipline P hasState).Triple 0 (countExtraLarge A size) fun _ => 0 := by
  refine orderly_of_step fun w u w' horderly _ hret => ?_
  obtain ⟨tree, w₁, htree, hrest⟩ := Machine.returns_bind.mp hret
  obtain ⟨rfl, rfl, hidle⟩ := returns_sizeTree htree
  have hkeys : ProperKeys w₁.inner.allocatedLargeSizes := ⟨horderly.nodup, horderly.large⟩
  cases hlookup : (P.tree.entries w₁.inner.allocatedLargeSizes).lookup size with
  | some count =>
      rw [hlookup] at hrest
      obtain rfl := Machine.returns_modify.mp hrest
      obtain ⟨horderly', hadvances⟩ :=
        orderly_update horderly hidle (hkeys.modify size (· + 1)) hasState
      exact ⟨horderly', hadvances, by simp⟩
  | none =>
      rw [hlookup] at hrest
      obtain ⟨_, w₂, hbusy, hrest⟩ := Machine.returns_bind.mp hrest
      obtain ⟨nodes, w₃, hnodes, hrest⟩ := Machine.returns_bind.mp hrest
      obtain ⟨_, w₄, hinsert, hfree⟩ := Machine.returns_bind.mp hrest
      obtain rfl := Machine.returns_modify.mp hbusy
      obtain rfl := Machine.returns_modify.mp hinsert
      obtain rfl := Machine.returns_modify.mp hfree
      obtain ⟨hsame, hstep⟩ :=
        orderly_window (allocNodes_orderly hA _) horderly hidle hkeys hnodes
      obtain ⟨horderly', hadvances⟩ := hstep _ (hkeys.insert hlarge hlookup 1 nodes) hasState
      rw [← hsame] at horderly' hadvances
      exact ⟨horderly', hadvances, by simp⟩

theorem deallocExtraLarge_orderly (ptr size : Nat) :
    (tableDiscipline P hasState).Triple 0 (deallocExtraLarge A ptr size) fun _ => 0 := by
  refine (onOs_orderly _).bind fun _ => orderly_of_step fun w u w' horderly _ hret => ?_
  obtain ⟨tree, w₁, htree, hrest⟩ := Machine.returns_bind.mp hret
  obtain ⟨rfl, rfl, hidle⟩ := returns_sizeTree htree
  have hkeys : ProperKeys w₁.inner.allocatedLargeSizes := ⟨horderly.nodup, horderly.large⟩
  cases hlookup : (P.tree.entries w₁.inner.allocatedLargeSizes).lookup size with
  | none =>
      rw [hlookup] at hrest
      obtain ⟨-, rfl⟩ := Machine.returns_pure.mp hrest
      exact ⟨horderly, .refl hasState w', by simp⟩
  | some count =>
      rw [hlookup] at hrest
      obtain ⟨_, w₂, hmodify, hrest⟩ := Machine.returns_bind.mp hrest
      obtain rfl := Machine.returns_modify.mp hmodify
      have hkeys₂ := hkeys.modify size (· - 1)
      obtain ⟨horderly₂, hadvances₂⟩ := orderly_update horderly hidle hkeys₂ hasState
      by_cases hone : count = 1
      · rw [if_pos hone] at hrest
        obtain ⟨tree, w₃, htree, hrest⟩ := Machine.returns_bind.mp hrest
        obtain ⟨rfl, rfl, -⟩ := returns_sizeTree htree
        obtain ⟨_, w₄, hbusy, hrest⟩ := Machine.returns_bind.mp hrest
        obtain ⟨_, w₅, hremove, hrest⟩ := Machine.returns_bind.mp hrest
        obtain ⟨_, w₆, hnodes, hfree⟩ := Machine.returns_bind.mp hrest
        obtain rfl := Machine.returns_modify.mp hbusy
        obtain rfl := Machine.returns_modify.mp hremove
        obtain rfl := Machine.returns_modify.mp hfree
        have hdealloc : ∀ nodes : List (Nat × Nat), (tableDiscipline P false).Triple 0
            (Machine.forEach nodes fun node => A.selfDealloc node.1 node.2 false) fun _ => 0 :=
          fun nodes => Discipline.Triple.forEach fun node _ => hA.selfDealloc node.1 node.2 false
        obtain ⟨hsame, hstep⟩ :=
          orderly_window (hdealloc _) horderly₂ hidle (hkeys₂.remove size) hnodes
        obtain ⟨horderly', hadvances⟩ := hstep _ (hkeys₂.remove size) hasState
        rw [← hsame] at horderly' hadvances
        exact ⟨horderly', hadvances₂.trans hadvances, by simp⟩
      · rw [if_neg hone] at hrest
        obtain ⟨-, rfl⟩ := Machine.returns_pure.mp hrest
        exact ⟨horderly₂, hadvances₂, by simp⟩

theorem allocExtraLarge_orderly {size : Nat} (hlarge : largeSizeMax < size) :
    (tableDiscipline P hasState).Triple 0 (allocExtraLarge A size) fun _ => 0 := by
  refine (onOs_orderly _).bind fun r => Discipline.Triple.ite (fun _ => ?_) fun _ =>
    Discipline.Triple.pure rfl
  exact (countExtraLarge_orderly hA hlarge).bind fun _ => Discipline.Triple.pure rfl

/-! ## The allocator -/

theorem tryAlloc_orderly (size : Nat) :
    (tableDiscipline P false).Triple 0 (tryAlloc A size) fun _ => 0 := by
  unfold tryAlloc
  cases hclass : SizeClass.define size with
  | common => exact allocCommon_orderly hA size
  | large => exact allocLarge_orderly hA size
  | extraLarge => exact allocExtraLarge_orderly hA (lt_of_define_eq_extraLarge hclass)

theorem deallocObject_orderly (s : Slot) (ptr : Nat) :
    (tableDiscipline P false).Triple 0 (deallocObject A s ptr) fun _ => 0 := by
  refine Discipline.Triple.gets fun metadata => managerPtr_orderly.bind fun manager => ?_
  refine Discipline.Triple.ite (fun _ => pushObjectOrPanic_orderly hA s ptr) fun _ => ?_
  refine (getOrInitManager_orderly hA).bind fun _ => (hA.tryAlloc sizeOfNode).bind fun r => ?_
  cases r with
  | none => exact Discipline.Triple.fault _
  | some node =>
      refine orderly_of_inner fun w u w' hret => ?_
      simp only [Machine.Returns, addNewNode] at hret
      split at hret
      · cases hret
      · split at hret <;> cases hret <;> exact ⟨rfl, rfl⟩

theorem dealloc_orderly (ptr size : Nat) :
    (tableDiscipline P false).Triple 0 (dealloc A ptr size) fun _ => 0 := by
  unfold dealloc
  cases SizeClass.define size with
  | extraLarge => exact deallocExtraLarge_orderly hA ptr size
  | common => exact Discipline.Triple.orFault fun s _ => deallocObject_orderly hA s ptr
  | large => exact Discipline.Triple.orFault fun s _ => deallocObject_orderly hA s ptr

theorem tryAllocFromCache_orderly (s : Slot) (size : Nat) :
    (tableDiscipline P hasState).Triple 0 (tryAllocFromCache A s size hasState) fun _ => 0 := by
  refine (popObject_orderly s).bind fun r => ?_
  cases r with
  | some ptr => exact Discipline.Triple.pure rfl
  | none =>
      have hslow : ∀ flag, (tableDiscipline P hasState).Triple 0
          (allocSlow A flag s size (tryGetChunk s.kind) hasState) fun _ => 0 :=
        fun flag => allocSlow_orderly hA flag s size (tryGetChunk_orderly s.kind)
      have hflag : ∀ flag : Bool, (tableDiscipline P hasState).Triple 0 (if flag then do
            updateState fun s => { s with isAllocatingNonLocalPtrManagerNow := false }
            allocSlow A flag s size (tryGetChunk s.kind) hasState
          else allocSlow A flag s size (tryGetChunk s.kind) hasState) fun _ => 0 := fun flag =>
        Discipline.Triple.ite (fun _ => (updateState_orderly _).bind fun _ => hslow flag)
          fun _ => hslow flag
      refine Discipline.Triple.ite (fun _ => ?_) fun _ => hflag false
      exact currentState_orderly.bind fun state => hflag state.isAllocatingNonLocalPtrManagerNow

theorem slowSelfAlloc_orderly (limit : Bool) (k : ChunkKind) (size : Nat) :
    (tableDiscipline P hasState).Triple 0 (slowSelfAlloc A limit k size hasState) fun _ => 0 := by
  refine Discipline.Triple.ite (fun _ => stateAllocSize_orderly limit k size) fun _ => ?_
  refine (onOs_orderly _).bind fun region => ?_
  cases region with
  | none => exact Discipline.Triple.pure rfl
  | some region =>
      refine orderly_forget (fun _ => tabled) (Discipline.Triple.conv ?_ rfl fun _ => add_zero _)
      refine ownState_orderly region ((stateAllocSize_orderly limit k size).bind fun ptr => ?_)
      exact (handleState_orderly hA).bind fun _ => Discipline.Triple.pure rfl

theorem selfAlloc_orderly (limit : Bool) (size : Nat) (hasState : Bool) :
    (tableDiscipline P hasState).Triple 0 (selfAlloc A limit size hasState) fun _ => 0 := by
  unfold selfAlloc
  cases hclass : SizeClass.define size with
  | extraLarge => exact allocExtraLarge_orderly hA (lt_of_define_eq_extraLarge hclass)
  | common | large =>
      refine Discipline.Triple.orFault fun s _ => (tryAllocFromCache_orderly hA s size).bind fun r => ?_
      cases r with
      | some ptr => exact Discipline.Triple.pure rfl
      | none => exact slowSelfAlloc_orderly hA limit s.kind size

theorem selfDealloc_orderly (ptr size : Nat) (hasState : Bool) :
    (tableDiscipline P hasState).Triple 0 (selfDealloc A ptr size hasState) fun _ => 0 := by
  have hslot : ∀ s : Slot, (tableDiscipline P hasState).Triple 0
      (if hasState then pushObjectOrPanic A s ptr true else deallocObject A s ptr) fun _ => 0 := by
    intro s
    cases hasState with
    | true => exact pushObjectOrPanic_orderly hA s ptr
    | false => exact deallocObject_orderly hA s ptr
  unfold selfDealloc
  cases SizeClass.define size with
  | extraLarge => exact deallocExtraLarge_orderly hA ptr size
  | common => exact Discipline.Triple.orFault fun s _ => hslot s
  | large => exact Discipline.Triple.orFault fun s _ => hslot s

end Tree

/-- The allocator keeps the order of its tables, however deep its calls nest. -/
theorem keepsOrder_threadLocalAllocator (depth : Nat) :
    KeepsOrder (threadLocalAllocator depth : AllocatorForSelfAllocations P) := by
  induction depth with
  | zero =>
      exact ⟨fun _ _ _ => Discipline.Triple.fault _, fun _ _ _ => Discipline.Triple.fault _,
        fun _ => Discipline.Triple.fault _⟩
  | succ depth ih =>
      exact ⟨fun limit size hasState => selfAlloc_orderly ih limit size hasState,
        fun ptr size hasState => selfDealloc_orderly ih ptr size hasState,
        fun size => tryAlloc_orderly ih size⟩

end Memalart
