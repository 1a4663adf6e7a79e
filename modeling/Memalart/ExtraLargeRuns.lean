/-
# Runs of extra-large blocks on one allocator

An allocator counts its live extra-large blocks by size.  A request that the limit
refuses leaves everything as it was.  A request that the kernel refuses is given back to
the limit, but is counted in the tree all the same; and a vector that grows to an extra-large
buffer while a node of the tree is allocated or given back enters the tree that is being
changed.  As long as neither happens, the tree counts exactly the live blocks.
-/

import Memalart.Conservation
import Memalart.ExtraLargeSizes

namespace Memalart

open Memalart.Lib ThreadLocalAllocator

variable {P : Params} {A : AllocatorForSelfAllocations P} {w w' : World P}

/-- The limit allows a block that the kernel then refuses. -/
def Os.RefusedByKernel (size : Nat) (os : Os) : Prop :=
  (os.takeReply.2.mayAllocate size).1 = true ∧
    ¬ (os.takeReply.2.mayAllocate size).2.Fresh os.takeReply.1 size pageSize

/-! ## The tree in one call -/

/-- A call that the holder of the tree makes leaves the tree alone. -/
theorem tree_of_busy {α : Type} {x : M P α} {give : Multiset (Token P)}
    {take : α → Multiset (Token P)} {tree : P.tree.Tree} {toks : Multiset (Token P)}
    (hx : (discipline P).Triple give x take) (hs : Sound w (give + {.busy tree} + toks))
    {a : α} (hret : x.Returns w a w') : w'.inner.allocatedLargeSizes = tree := by
  rw [add_assoc] at hs
  obtain ⟨hs', -⟩ := hx w _ hs a w' hret
  exact (hs'.holds (.busy tree) (by simp)).2

/-- A block is counted. -/
theorem tree_of_countExtraLarge (hA : Serves A) {size : Nat} {toks : Multiset (Token P)}
    (hs : Sound w toks) {u : Unit} (hret : (countExtraLarge A size).Returns w u w') :
    ∃ nodes, w'.inner.allocatedLargeSizes =
      ExtraLarge.countBlock P.tree size nodes w.inner.allocatedLargeSizes := by
  obtain ⟨t, w₁, htree, hret⟩ := Machine.returns_bind.mp hret
  obtain ⟨rfl, rfl, hfree⟩ := returns_sizeTree htree
  unfold ExtraLarge.countBlock
  cases hlookup : (P.tree.entries w₁.inner.allocatedLargeSizes).lookup size with
  | some n =>
      rw [hlookup] at hret
      obtain rfl := Machine.returns_modify.mp hret
      exact ⟨[], rfl⟩
  | none =>
      rw [hlookup] at hret
      obtain ⟨_, w₂, hbusy, hret⟩ := Machine.returns_bind.mp hret
      obtain ⟨nodes, w₃, hnodes, hret⟩ := Machine.returns_bind.mp hret
      obtain ⟨_, w₄, hinsert, hidle⟩ := Machine.returns_bind.mp hret
      obtain rfl := Machine.returns_modify.mp hbusy
      have hs₂ := (hs.takeTree hfree).1
      rw [← zero_add ({.busy w₁.inner.allocatedLargeSizes} : Multiset (Token P))] at hs₂
      have hkeep := tree_of_busy (allocNodes_triple hA _ (P.tree.nodesToInsert_size size _)) hs₂
        hnodes
      obtain rfl := Machine.returns_modify.mp hinsert
      obtain rfl := Machine.returns_modify.mp hidle
      exact ⟨nodes, congrArg (P.tree.insert size 1 nodes) hkeep⟩

/-- The nodes that a removal gives back leave the tree as the removal has left it. -/
theorem tree_of_dropNodes (hA : Serves A) {size : Nat} {toks : Multiset (Token P)}
    (hs : Sound w toks) (hfree : w.treeBusy = false) {u : Unit}
    (hret : (do
      setTreeBusy (P := P) true
      updateTree fun tree => (P.tree.remove size tree).1
      Machine.forEach (P.tree.remove size w.inner.allocatedLargeSizes).2 fun node =>
        A.selfDealloc node.1 node.2 false
      setTreeBusy false).Returns w u w') :
    w'.inner.allocatedLargeSizes = (P.tree.remove size w.inner.allocatedLargeSizes).1 := by
  obtain ⟨_, w₁, hbusy, hret⟩ := Machine.returns_bind.mp hret
  obtain ⟨_, w₂, hremove, hret⟩ := Machine.returns_bind.mp hret
  obtain ⟨_, w₃, hnodes, hidle⟩ := Machine.returns_bind.mp hret
  obtain rfl := Machine.returns_modify.mp hbusy
  have hs₂ : Sound w₂ ({.busy (P.tree.remove size w.inner.allocatedLargeSizes).1} +
      tokens (nodeItems (P.tree.remove size w.inner.allocatedLargeSizes).2) + toks) :=
    (removeNodes_triple w.inner.allocatedLargeSizes size _ toks (hs.takeTree hfree).1 _ _
      hremove).1
  have hdealloc := Discipline.Triple.forEachGive (D := discipline P)
    (P.tree.remove size w.inner.allocatedLargeSizes).2 fun node _ =>
      hA.selfDealloc node.1 node.2 false
  rw [← tokens_nodeItems] at hdealloc
  rw [add_comm ({.busy (P.tree.remove size w.inner.allocatedLargeSizes).1} :
    Multiset (Token P))] at hs₂
  have hkeep := tree_of_busy hdealloc hs₂ hnodes
  obtain rfl := Machine.returns_modify.mp hidle
  exact hkeep

/-- A block is uncounted. -/
theorem tree_of_deallocExtraLarge (hA : Serves A) {ptr size : Nat} {toks : Multiset (Token P)}
    (hs : Sound w (tokens {.extra size ptr} + toks)) {u : Unit}
    (hret : (deallocExtraLarge A ptr size).Returns w u w') :
    w'.inner.allocatedLargeSizes =
      ExtraLarge.uncountBlock P.tree size w.inner.allocatedLargeSizes := by
  obtain ⟨_, w₁, hunmap, hret⟩ := Machine.returns_bind.mp hret
  have hs₁ := (munmap_triple size ptr w toks hs _ _ hunmap).1
  have hinner : w₁.inner = w.inner := by
    unfold onOs Machine.Returns at hunmap
    cases hunmap
    rfl
  obtain ⟨t, w₂, htree, hret⟩ := Machine.returns_bind.mp hret
  obtain ⟨rfl, rfl, hfree⟩ := returns_sizeTree htree
  rw [← hinner]
  unfold ExtraLarge.uncountBlock
  cases hlookup : (P.tree.entries w₂.inner.allocatedLargeSizes).lookup size with
  | none =>
      rw [hlookup] at hret
      obtain ⟨-, rfl⟩ := Machine.returns_pure.mp hret
      rfl
  | some n =>
      rw [hlookup] at hret
      obtain ⟨_, w₃, hdecrement, hret⟩ := Machine.returns_bind.mp hret
      obtain ⟨hstep, hfree₃⟩ := step_updateTree hs₁.formed hs₁.calm hfree
        (P.tree.nodes_modify _ _) hdecrement
      obtain rfl := Machine.returns_modify.mp hdecrement
      by_cases hone : n = 1
      · simp only [hone, if_true] at hret ⊢
        obtain ⟨t, w₄, htree, hret⟩ := Machine.returns_bind.mp hret
        obtain ⟨rfl, rfl, -⟩ := returns_sizeTree htree
        exact tree_of_dropNodes hA (hstep.sound hs₁) hfree₃ hret
      · simp only [hone, if_false] at hret ⊢
        obtain ⟨-, rfl⟩ := Machine.returns_pure.mp hret
        rfl

/-- What the limit and the kernel say to an extra-large block. -/
theorem mapExtraLarge_cases (size : Nat) (os : Os) :
    ((os.takeReply.2.mayAllocate size).1 = false ∧ (mapExtraLarge size os).1 = false ∧
        (mapExtraLarge size os).2.2.allocated = os.takeReply.2.allocated) ∨
      ((os.takeReply.2.mayAllocate size).1 = true ∧ (mapExtraLarge size os).1 = true ∧
        ((mapExtraLarge size os).2.1 = none ↔ os.RefusedByKernel size)) := by
  unfold mapExtraLarge Os.RefusedByKernel
  generalize os.takeReply = reply
  obtain ⟨answer, os₁⟩ := reply
  have hkept : (os₁.mayAllocate size).1 = false →
      (os₁.mayAllocate size).2.allocated = os₁.allocated := by
    unfold Os.mayAllocate
    dsimp only
    split
    · exact fun _ => rfl
    · exact fun h => absurd h (by simp)
  dsimp only
  generalize os₁.mayAllocate size = may at hkept
  obtain ⟨_ | _, os₂⟩ := may
  · exact .inl ⟨rfl, rfl, hkept rfl⟩
  · right
    dsimp only [Os.mmap]
    by_cases hfresh : os₂.Fresh answer size pageSize
    · rw [if_pos hfresh]
      exact ⟨rfl, rfl, by simp [hfresh]⟩
    · rw [if_neg hfresh]
      exact ⟨rfl, rfl, by simp [hfresh]⟩

/-- What a request for an extra-large block does: the limit refuses it and nothing has
changed, or the block is counted, whatever the kernel answers. -/
theorem allocExtraLarge_cases (hA : Serves A) {size : Nat} {toks : Multiset (Token P)}
    (hs : Sound w toks) {r : Option Nat} (hret : (allocExtraLarge A size).Returns w r w') :
    (r = none ∧ (w.os.takeReply.2.mayAllocate size).1 = false ∧ w'.inner = w.inner ∧
        w'.os.allocated = w.os.takeReply.2.allocated) ∨
      ((r = none ↔ w.os.RefusedByKernel size) ∧
        ∃ nodes, w'.inner.allocatedLargeSizes =
          ExtraLarge.countBlock P.tree size nodes w.inner.allocatedLargeSizes) := by
  rw [← zero_add toks] at hs
  obtain ⟨⟨counted, ptr⟩, w₁, hmap, hret⟩ := Machine.returns_bind.mp hret
  have hs₁ := (mapExtraLarge_triple size w toks hs _ _ hmap).1
  simp only [Machine.Returns, onOs, Except.ok.injEq, Prod.mk.injEq] at hmap
  obtain ⟨⟨rfl, rfl⟩, rfl⟩ := hmap
  rcases mapExtraLarge_cases size w.os with ⟨hmay, hno, hkept⟩ | ⟨-, hyes, hkernel⟩
  · rw [hno] at hret
    obtain ⟨rfl, rfl⟩ := Machine.returns_pure.mp hret
    exact .inl ⟨rfl, hmay, rfl, hkept⟩
  · rw [hyes] at hret
    obtain ⟨_, w₂, hcount, hpure⟩ := Machine.returns_bind.mp hret
    obtain ⟨rfl, rfl⟩ := Machine.returns_pure.mp hpure
    obtain ⟨nodes, htree⟩ := tree_of_countExtraLarge hA hs₁ hcount
    exact .inr ⟨hkernel, nodes, htree⟩

/-! ## Runs -/

/-- The call is about an extra-large block, or it is somebody else's. -/
def Call.ForExtraLarge : Call → Prop
  | .served b | .freed b => largeSizeMax < b.size
  | .refused size => largeSizeMax < size
  | .trimmed _ => False
  | .outside _ _ => True

namespace Session

def Outcome.ForExtraLarge : Outcome → Prop
  | .returned c => c.ForExtraLarge
  | .entered (.tryAlloc size) => largeSizeMax < size
  | .entered (.dealloc b) => largeSizeMax < b.size
  | .entered (.outside _ _) => True

/-- A step with an extra-large block that the kernel does not refuse, and that does not enter
the tree while it is being changed. -/
structure ExtraLargeStep (s : Session P) (o : Outcome) (s' : Session P) : Prop where
  happens : Happens s o s'
  large : o.ForExtraLarge
  granted : ∀ size, o = .returned (.refused size) → ¬ s.world.os.RefusedByKernel size
  calm : ∀ request, o ≠ .entered request

/-- How many blocks of a size are live. -/
def liveOf (s : Session P) (size : Nat) : Nat := s.live.countP fun b => b.size = size

/-- The tree counts the live blocks, and they are all extra large. -/
structure Counts (s : Session P) : Prop where
  rests : s.Rests
  wellFormed : ExtraLarge.WellFormed P.tree s.world.inner.allocatedLargeSizes
  exact : ∀ size,
    ExtraLarge.count P.tree size s.world.inner.allocatedLargeSizes = s.liveOf size
  sizes : ∀ b ∈ s.live, largeSizeMax < b.size

theorem tryAlloc_of_extraLarge (A : AllocatorForSelfAllocations P) {size : Nat}
    (h : largeSizeMax < size) : tryAlloc A size = allocExtraLarge A size := by
  rw [tryAlloc, SizeClass.define_eq_extraLarge h]

theorem dealloc_of_extraLarge (A : AllocatorForSelfAllocations P) {ptr size : Nat}
    (h : largeSizeMax < size) : dealloc A ptr size = deallocExtraLarge A ptr size := by
  rw [dealloc, SizeClass.define_eq_extraLarge h]

/-- One step keeps the counts. -/
theorem Counts.step {s s' : Session P} {o : Outcome} (h : s.Counts)
    (hstep : ExtraLargeStep s o s') : s'.Counts := by
  obtain ⟨hhappens, hlarge, hkernel, hcalm⟩ := hstep
  obtain ⟨c, rfl, hstep⟩ : ∃ c, o = .returned c ∧ Step s c s' := by
    cases hhappens with
    | returned h => exact ⟨_, rfl, h⟩
    | entered depth h => exact absurd rfl (hcalm _)
  have hrests := (hstep.moves h.rests).1
  cases hstep with
  | @served w w' live ptr size depth hret =>
      rw [tryAlloc_of_extraLarge _ hlarge] at hret
      rcases allocExtraLarge_cases (servesAlways_threadLocalAllocator depth).toServes h.rests hret
        with ⟨hnone, -⟩ | ⟨-, nodes, htree⟩
      · cases hnone
      · obtain ⟨hwell, hcount⟩ := h.wellFormed.countBlock size nodes
        refine ⟨hrests, htree.symm ▸ hwell, fun t => ?_, ?_⟩
        · have hbefore := h.exact t
          rw [htree, hcount t, hbefore]
          simp only [liveOf, List.countP_cons, decide_eq_true_eq]
          by_cases ht : t = size
          · rw [if_pos ht, if_pos ht.symm]
          · rw [if_neg ht, if_neg (Ne.symm ht), add_zero]
        · exact List.forall_mem_cons.mpr ⟨hlarge, h.sizes⟩
  | @refused w w' live size depth hret =>
      rw [tryAlloc_of_extraLarge _ hlarge] at hret
      rcases allocExtraLarge_cases (servesAlways_threadLocalAllocator depth).toServes h.rests hret
        with ⟨-, -, hinner, -⟩ | ⟨hrefused, -⟩
      · refine ⟨hrests, ?_, fun t => ?_, h.sizes⟩
        · rw [hinner]
          exact h.wellFormed
        · rw [hinner]
          exact h.exact t
      · exact absurd (hrefused.mp rfl) (hkernel size rfl)
  | @freed w w' live b depth hlive hret =>
      rw [dealloc_of_extraLarge _ hlarge] at hret
      have hitem : blockItem b.size b.ptr = .extra b.size b.ptr := by
        rw [blockItem, slotForSize, SizeClass.define_eq_extraLarge hlarge]
      have hsound : Sound w (tokens {.extra b.size b.ptr} + tokens (held (live.erase b))) := by
        rw [← hitem, ← tokens_add, ← held_erase hlive]
        exact h.rests
      have htree := tree_of_deallocExtraLarge (servesAlways_threadLocalAllocator depth).toServes
        hsound hret
      obtain ⟨hwell, hcount⟩ := h.wellFormed.uncountBlock b.size
      refine ⟨hrests, htree.symm ▸ hwell, fun t => ?_, fun b' hb' =>
        h.sizes b' (List.mem_of_mem_erase hb')⟩
      have hbefore := h.exact t
      have hperm := (List.perm_cons_erase hlive).countP_eq fun b' => b'.size = t
      rw [htree, hcount t, hbefore]
      simp only [liveOf, hperm, List.countP_cons, decide_eq_true_eq]
      by_cases ht : t = b.size
      · rw [if_pos ht, if_pos ht.symm, Nat.add_sub_cancel]
      · rw [if_neg ht, if_neg (Ne.symm ht), add_zero]
  | trimmed k hret => exact absurd hlarge not_false
  | outside limit allocated => exact ⟨hrests, h.wellFormed, h.exact, h.sizes⟩

theorem counts_initial (replies : List Reply) : (initial P replies).Counts where
  rests := rests_initial replies
  wellFormed := .empty
  exact size := by
    show ExtraLarge.count P.tree size P.tree.empty = 0
    rw [ExtraLarge.count, P.tree.entries_empty]
    rfl
  sizes := nofun

/-- In a run of extra-large blocks none of which the kernel refuses, and none of which enters
the tree while it is being changed, the tree counts for every size exactly the live blocks.
A refusal leaves the tree and the counter behind the limit as they were, and this it does
only if the kernel has not refused. -/
theorem extraLarge_counted {replies : List Reply} {outcomes : List Outcome} {s : Session P}
    (hrun : Run ExtraLargeStep (initial P replies) outcomes s) :
    (∀ size, ExtraLarge.count P.tree size s.world.inner.allocatedLargeSizes = s.liveOf size) ∧
      ∀ size s', largeSizeMax < size → Happens s (.returned (.refused size)) s' →
        ((s'.world.inner.allocatedLargeSizes = s.world.inner.allocatedLargeSizes ∧
          s'.world.os.allocated = s.world.os.takeReply.2.allocated) ↔
            ¬ s.world.os.RefusedByKernel size) := by
  have hcounts : s.Counts :=
    hrun.invariant (fun s o s' h hstep => h.step hstep) (counts_initial replies)
  refine ⟨hcounts.exact, fun size s' hlarge hhappens => ?_⟩
  obtain ⟨w, live⟩ := s
  obtain ⟨w', live'⟩ := s'
  obtain ⟨depth, hret⟩ : ∃ depth,
      (tryAlloc (threadLocalAllocator depth) size).Returns w none w' := by
    cases hhappens with
    | returned hstep =>
        cases hstep with
        | refused depth hret => exact ⟨depth, hret⟩
  rw [tryAlloc_of_extraLarge _ hlarge] at hret
  rcases allocExtraLarge_cases (servesAlways_threadLocalAllocator depth).toServes hcounts.rests hret
    with ⟨-, hmay, hinner, hallocated⟩ | ⟨hrefused, nodes, htree⟩
  · refine ⟨fun _ hkernel => ?_, fun _ => ⟨congrArg _ hinner, hallocated⟩⟩
    rw [hkernel.1] at hmay
    cases hmay
  · refine ⟨fun hsame => ?_, fun hkernel => absurd (hrefused.mp rfl) hkernel⟩
    have hcount := (hcounts.wellFormed.countBlock size nodes).2 size
    rw [← htree, if_pos rfl] at hcount
    have hkept := hsame.1
    simp only at hkept
    rw [hkept] at hcount
    exact absurd hcount (Nat.ne_of_lt (Nat.lt_succ_self _))

/-- A first block is counted. -/
theorem extraLarge_counted_first : ∃ s : Session lockFreeParams,
    Reached [.served ⟨20480, 200000⟩] s ∧
      ExtraLarge.count sizeMap 200000 s.world.inner.allocatedLargeSizes = 1 := by
  have hrun : trial 8 (fun calls s => calls = [.served ⟨20480, 200000⟩] &&
      s.live = [⟨20480, 200000⟩]) [.tryAlloc 200000] []
      (initial lockFreeParams [⟨0, 20480⟩, ⟨0, 134217728⟩]) = true := by
    decide +kernel
  obtain ⟨calls, s, hreached, hcheck⟩ :=
    reached_of_trial (reached_initial [⟨0, 20480⟩, ⟨0, 134217728⟩]) hrun
  simp only [Bool.and_eq_true, decide_eq_true_eq] at hcheck
  obtain ⟨rfl, hlive⟩ := hcheck
  refine ⟨s, hreached, ?_⟩
  obtain ⟨replies, hsteps⟩ := reached_iff.mp hreached
  cases hsteps with
  | cons hstep hrest =>
      cases hrest
      have hlarge : largeSizeMax < 200000 := by decide
      have hfirst : ExtraLargeStep (initial lockFreeParams replies)
          (.returned (.served ⟨20480, 200000⟩)) s :=
        ⟨.returned hstep, hlarge, by simp, by simp⟩
      have hcounted := (extraLarge_counted (.cons hfirst (.nil s))).1 200000
      rw [liveOf, hlive] at hcounted
      exact hcounted

/-- A refusal by the kernel is counted as a block. -/
theorem refused_counted : ¬ ∀ (replies : List Reply) (outcomes : List Outcome)
    (s : Session lockFreeParams), Run Happens (initial lockFreeParams replies) outcomes s →
      (∀ o ∈ outcomes, o.ForExtraLarge) → ∀ size,
        ExtraLarge.count sizeMap size s.world.inner.allocatedLargeSizes = s.liveOf size := by
  intro hclaim
  have hrun : trial 8 (fun calls s => calls = [.refused 200000] && s.live = [] &&
      ExtraLarge.count sizeMap 200000 s.world.inner.allocatedLargeSizes = 1)
      [.tryAlloc 200000] [] (initial lockFreeParams [⟨0, 0⟩, ⟨0, 134217728⟩]) = true := by
    decide +kernel
  obtain ⟨calls, s, hreached, hcheck⟩ :=
    reached_of_trial (reached_initial [⟨0, 0⟩, ⟨0, 134217728⟩]) hrun
  simp only [Bool.and_eq_true, decide_eq_true_eq] at hcheck
  obtain ⟨⟨rfl, hlive⟩, hcount⟩ := hcheck
  obtain ⟨replies, hsteps⟩ := reached_iff.mp hreached
  have hexact := hclaim replies _ s (happens_of_run hsteps)
    (by simp [Outcome.ForExtraLarge, Call.ForExtraLarge, largeSizeMax]) 200000
  rw [hcount, liveOf, hlive] at hexact
  cases hexact

end Session

end Memalart
