/-
# No block and no node is lost, and destruction waits for both

The invariant of the interleavings, put together: what an object's history says
agrees with where the object is, what a chunk was cut into stays until it is
released, and a message on its way to an allocator pins an object that the
allocator counts as used.
-/

import Memalart.RemoteFreeInvariant

set_option linter.unusedSectionVars false

namespace Memalart.RemoteFree

open Memalart.Lib

universe u v

variable {Id : Type u} {Obj : Type v} [DecidableEq Id] [DecidableEq Obj]

/-! ## History -/

/-- The places of a block that was freed on another allocator and has not arrived. -/
def Place.isSent : Place Id Obj → Bool
  | .hand _ .freeing | .carried _ | .hand _ .remote => true
  | _ => false

/-- The places of a node that was taken and has not come home. -/
def Place.isLent : Place Id Obj → Bool
  | .listed _ | .held _ | .spent _ | .hand _ .node => true
  | _ => false

/-- The places of a node that is on its way back; one on a list is if it has its own
address in it. -/
def Place.isReturned (p : Place Id Obj) (self : Bool) : Bool :=
  match p with
  | .listed _ | .held _ => self
  | .hand _ .node => true
  | _ => false

/-- The history agrees with the places. -/
structure Logged (st : State Id Obj) : Prop where
  sent : ∀ x, st.log.count (.sent x) = st.log.count (.delivered x) + (st.place x).isSent.toNat
  lent : ∀ n, st.log.count (.lent n) = st.log.count (.home n) + (st.place n).isLent.toNat
  returned : ∀ n, st.log.count (.returned n) = st.log.count (.home n) +
    ((st.place n).isReturned (decide ((st.value n).ptr = n))).toNat

namespace Logged

variable {L : Layout Id Obj} {st st' : State Id Obj}

theorem initial (next : Obj → Option Obj) (value : Obj → Data Obj) :
    Logged (State.initial next value : State Id Obj) where
  sent := fun _ => rfl
  lent := fun _ => rfl
  returned := fun _ => rfl

/-- What is left to show, with the parts of the state that count. -/
theorem of_parts (place : Obj → Place Id Obj) (value : Obj → Data Obj) (log : List (Event Obj))
    (hplace : st'.place = place) (hvalue : st'.value = value) (hlog : st'.log = log)
    (hsent : ∀ x, log.count (.sent x) = log.count (.delivered x) + (place x).isSent.toNat)
    (hlent : ∀ n, log.count (.lent n) = log.count (.home n) + (place n).isLent.toNat)
    (hreturned : ∀ n, log.count (.returned n) = log.count (.home n) +
      ((place n).isReturned (decide ((value n).ptr = n))).toNat) : Logged st' := by
  subst hplace hvalue hlog
  exact ⟨hsent, hlent, hreturned⟩

/-- An object goes from one place to another with nothing recorded. -/
theorem of_move (h : Logged st) {x : Obj} {p q : Place Id Obj} (hx : st.place x = p)
    (hplace : st'.place = Function.update st.place x q) (hvalue : st'.value = st.value)
    (hlog : st'.log = st.log) (hsent : q.isSent = p.isSent) (hlent : q.isLent = p.isLent)
    (hreturned : ∀ self, q.isReturned self = p.isReturned self) : Logged st' := by
  refine of_parts _ _ _ hplace hvalue hlog (fun y => ?_) (fun y => ?_) fun y => ?_
  · by_cases hy : y = x
    · rw [hy, Function.update_self, hsent, ← hx]
      exact h.sent x
    · rw [Function.update_of_ne hy]
      exact h.sent y
  · by_cases hy : y = x
    · rw [hy, Function.update_self, hlent, ← hx]
      exact h.lent x
    · rw [Function.update_of_ne hy]
      exact h.lent y
  · by_cases hy : y = x
    · rw [hy, Function.update_self, hreturned, ← hx]
      exact h.returned x
    · rw [Function.update_of_ne hy]
      exact h.returned y

theorem step {action : Action Id Obj} (h : Logged st) (hconsistent : Consistent L st)
    (hstep : st.Step L action st') : Logged st' := by
  obtain ⟨henabled, rfl⟩ := hstep
  cases action with
  | cut x => exact h.of_move henabled rfl rfl rfl rfl rfl fun _ => rfl
  | take a s x =>
      exact h.of_move (hconsistent.place_of_free henabled.2) rfl rfl rfl rfl rfl fun _ => rfl
  | takeOwn a s x =>
      exact h.of_move (hconsistent.place_of_free henabled.2) rfl rfl rfl rfl rfl fun _ => rfl
  | deallocLocal a x =>
      exact h.of_move (hconsistent.place_of_live henabled.2.1) rfl rfl rfl rfl rfl fun _ => rfl
  | deallocRemote a x =>
      have hx := hconsistent.place_of_live henabled.2.1
      have hsent := h.sent
      have hlent := h.lent
      have hreturned := h.returned
      refine of_parts (Function.update st.place x (.hand a .freeing)) st.value
        (.sent x :: st.log) rfl rfl rfl (fun y => ?_) (fun y => ?_) fun y => ?_
      · grind [Place.isSent]
      · grind [Place.isLent]
      · grind [Place.isReturned]
  | deallocOwn a x =>
      exact h.of_move (hconsistent.place_of_own henabled.2) rfl rfl rfl rfl rfl fun _ => rfl
  | write holder x d p =>
      have hx : (st.place x).isReturned = fun _ => false := by
        cases holder with
        | none => rw [hconsistent.place_of_live henabled]; rfl
        | some a => rw [hconsistent.place_of_own henabled]; rfl
      refine of_parts st.place (Function.update st.value x d) st.log rfl rfl rfl h.sent h.lent
        fun y => ?_
      by_cases hy : y = x
      · have hreturned := h.returned x
        rw [hy]
        rw [hx] at hreturned ⊢
        exact hreturned
      · rw [Function.update_of_ne hy]
        exact h.returned y
  | allocNode a x n =>
      obtain ⟨htop, hmem⟩ := henabled
      have hx := hconsistent.place_of_top htop (List.mem_singleton_self _)
      have hn := hconsistent.place_of_free hmem
      have hsent := h.sent
      have hlent := h.lent
      have hreturned := h.returned
      refine of_parts (Function.update (Function.update st.place n (.held a)) x (.carried n))
        (Function.update st.value n ⟨x, some (L.slot x)⟩) (.lent n :: st.log) rfl rfl rfl
        (fun y => ?_) (fun y => ?_) fun y => ?_
      · grind [Place.isSent]
      · grind [Place.isLent]
      · grind [Place.isReturned]
  | loadHead a n target => exact ⟨h.sent, h.lent, h.returned⟩
  | exchange a n target expected spurious =>
      have hn := hconsistent.place_of_top henabled (List.mem_singleton_self _)
      by_cases hsuccess : st.head target = expected ∧ spurious = false
      · rw [show st.step L (.exchange a n target expected spurious) = _ from if_pos hsuccess]
        exact h.of_move (q := .listed target) hn rfl rfl rfl rfl rfl fun _ => rfl
      · rw [show st.step L (.exchange a n target expected spurious) = _ from if_neg hsuccess]
        exact ⟨h.sent, h.lent, h.returned⟩
  | drain a =>
      have hsent := h.sent
      have hlent := h.lent
      have hreturned := h.returned
      refine of_parts (fun n => if st.place n = .listed a then .held a else st.place n) st.value
        st.log rfl rfl rfl (fun y => ?_) (fun y => ?_) fun y => ?_
      · grind [Place.isSent]
      · grind [Place.isLent]
      · grind [Place.isReturned]
  | takeReturned a n rest =>
      obtain ⟨htop, hself⟩ := henabled
      obtain ⟨hrest, -⟩ := (hconsistent.top_good htop).1.eq_cons
      have hmem : n ∈ rest := hrest ▸ List.mem_cons_self
      have hn := hconsistent.place_of_top htop (p := .held a) (x := n) (List.mem_map_of_mem hmem)
      have hsent := h.sent
      have hlent := h.lent
      have hreturned := h.returned
      refine of_parts (Function.update st.place n (.hand a .node)) st.value st.log rfl rfl rfl
        (fun y => ?_) (fun y => ?_) fun y => ?_
      · grind [Place.isSent]
      · grind [Place.isLent]
      · grind [Place.isReturned]
  | takeCarried a n s rest =>
      obtain ⟨htop, hself, -⟩ := henabled
      obtain ⟨hrest, -⟩ := (hconsistent.top_good htop).1.eq_cons
      have hmem : n ∈ rest := hrest ▸ List.mem_cons_self
      have hn := hconsistent.place_of_top htop (p := .held a) (x := n) (List.mem_map_of_mem hmem)
      have hx : st.place (st.value n).ptr = .carried n :=
        (hconsistent.carried _ n).2 ⟨by rw [hn]; rfl, rfl, hself⟩
      have hsent := h.sent
      have hlent := h.lent
      have hreturned := h.returned
      refine of_parts (Function.update (Function.update st.place n (.spent a)) (st.value n).ptr
        (.hand a .remote)) st.value st.log rfl rfl rfl (fun y => ?_) (fun y => ?_) fun y => ?_
      · grind [Place.isSent]
      · grind [Place.isLent]
      · grind [Place.isReturned]
  | put a s x origin =>
      have hx := hconsistent.place_of_top henabled (List.mem_singleton_self _)
      have hsent := h.sent
      have hlent := h.lent
      have hreturned := h.returned
      cases origin with
      | freeing => exact absurd rfl (hconsistent.top_good henabled).2
      | localFree => exact h.of_move (q := .free a s) hx rfl rfl rfl rfl rfl fun _ => rfl
      | remote =>
          refine of_parts (Function.update st.place x (.free a s)) st.value (.delivered x :: st.log)
            rfl rfl rfl (fun y => ?_) (fun y => ?_) fun y => ?_
          · grind [Place.isSent]
          · grind [Place.isLent]
          · grind [Place.isReturned]
      | node =>
          refine of_parts (Function.update st.place x (.free a s)) st.value (.home x :: st.log)
            rfl rfl rfl (fun y => ?_) (fun y => ?_) fun y => ?_
          · grind [Place.isSent]
          · grind [Place.isLent]
          · grind [Place.isReturned]
  | giveBack a n nextOfNode rest =>
      have hn := hconsistent.place_of_top henabled (p := .spent a) (x := n) List.mem_cons_self
      have hsent := h.sent
      have hlent := h.lent
      have hreturned := h.returned
      refine of_parts (Function.update st.place n (.held a)) (Function.update st.value n ⟨n, none⟩)
        (.returned n :: st.log) rfl rfl rfl (fun y => ?_) (fun y => ?_) fun y => ?_
      · grind [Place.isSent]
      · grind [Place.isLent]
      · grind [Place.isReturned]
  | finish a rest => exact ⟨h.sent, h.lent, h.returned⟩
  | destroy a used =>
      have hsent := h.sent
      have hlent := h.lent
      have hreturned := h.returned
      refine of_parts (fun x => if st.place x = .free a (L.slot x) ∨ st.place x = .own a then
        .released else st.place x) st.value st.log rfl rfl rfl (fun y => ?_) (fun y => ?_)
        fun y => ?_
      · grind [Place.isSent]
      · grind [Place.isLent]
      · grind [Place.isReturned]

end Logged

/-! ## What the chunks were cut into -/

/-- The places of an object whose region is mapped. -/
def Place.isMapped : Place Id Obj → Bool
  | .unborn | .released => false
  | _ => true

/-- An object that was cut is in the cut of its owner until it is released. -/
structure Kept (L : Layout Id Obj) (st : State Id Obj) : Prop where
  nodup : ∀ a s, (st.cut a s).Nodup
  mem : ∀ a s x, x ∈ st.cut a s ↔ (L.owner x = a ∧ L.slot x = s) ∧ (st.place x).isMapped

namespace Kept

variable {L : Layout Id Obj} {st st' : State Id Obj}

theorem initial (L : Layout Id Obj) (next : Obj → Option Obj) (value : Obj → Data Obj) :
    Kept L (State.initial next value : State Id Obj) where
  nodup := fun _ _ => List.nodup_nil
  mem := by simp [State.initial, Place.isMapped]

theorem of_quiet (h : Kept L st) (hcut : st'.cut = st.cut)
    (hmapped : ∀ x, (st'.place x).isMapped = (st.place x).isMapped) : Kept L st' where
  nodup := by
    rw [hcut]
    exact h.nodup
  mem a s x := by
    rw [hcut, hmapped]
    exact h.mem a s x

theorem of_move (h : Kept L st) {x : Obj} {p q : Place Id Obj} (hx : st.place x = p)
    (hp : p.isMapped) (hq : q.isMapped) (hcut : st'.cut = st.cut)
    (hplace : st'.place = Function.update st.place x q) : Kept L st' := by
  refine h.of_quiet hcut fun y => ?_
  rw [hplace]
  by_cases hy : y = x
  · rw [hy, Function.update_self, hx, hp, hq]
  · rw [Function.update_of_ne hy]

/-- Where an allocator finds nothing in use but what is its own, its objects are in its
vectors, or its own. -/
theorem home_of_used_eq (h : Kept L st) (hconsistent : Consistent L st) {a : Id}
    {used : Slot → Nat} (hout : ∀ s, st.out a s ≤ used s)
    (hused : ∀ s, used s = st.allocatedForSelf L a s) {x : Obj} (howner : L.owner x = a)
    (hmapped : (st.place x).isMapped) : st.place x = .free a (L.slot x) ∨ st.place x = .own a := by
  obtain ⟨own, hownEq⟩ : ∃ own, own = (st.own a).filter fun y => L.slot y = L.slot x := ⟨_, rfl⟩
  have hcount : (st.cut a (L.slot x)).length ≤ (st.free a (L.slot x) ++ own).length := by
    have h₁ := hout (L.slot x)
    rw [hused, State.allocatedForSelf, List.countP_eq_length_filter, State.out, ← hownEq] at h₁
    rw [List.length_append]
    omega
  have hnodup : (st.free a (L.slot x) ++ own).Nodup := by
    refine List.nodup_append.2 ⟨hconsistent.placed.nodup (p := .free a (L.slot x)) rfl,
      hownEq ▸ (hconsistent.placed.nodup (p := .own a) rfl).filter _, ?_⟩
    intro y hy z hz heq
    rw [hownEq] at hz
    have hfree := hconsistent.place_of_free hy
    rw [heq, hconsistent.place_of_own (List.mem_of_mem_filter hz)] at hfree
    cases hfree
  have hsub : st.free a (L.slot x) ++ own ⊆ st.cut a (L.slot x) := by
    intro y hy
    rw [h.mem]
    rcases List.mem_append.1 hy with hy | hy
    · have hplace := hconsistent.place_of_free hy
      exact ⟨hconsistent.free_home y a _ hplace, by rw [hplace]; rfl⟩
    · rw [hownEq] at hy
      obtain ⟨hmem, hslot⟩ := List.mem_filter.1 hy
      have hplace := hconsistent.place_of_own hmem
      exact ⟨⟨hconsistent.own_home y a hplace, of_decide_eq_true hslot⟩, by rw [hplace]; rfl⟩
  have hperm := (List.subperm_of_subset hnodup hsub).perm_of_length_le hcount
  have hx : x ∈ st.free a (L.slot x) ++ own :=
    hperm.mem_iff.2 ((h.mem a _ x).2 ⟨⟨howner, rfl⟩, hmapped⟩)
  rcases List.mem_append.1 hx with hx | hx
  · exact Or.inl (hconsistent.place_of_free hx)
  · rw [hownEq] at hx
    exact Or.inr (hconsistent.place_of_own (List.mem_of_mem_filter hx))

theorem cut_cut (x : Obj) (a : Id) (s : Slot) : (st.step L (.cut x)).cut a s =
    if L.owner x = a ∧ L.slot x = s then x :: st.cut a s else st.cut a s := by
  rw [show (st.step L (.cut x)).cut = Function.update st.cut (L.owner x)
    (Function.update (st.cut (L.owner x)) (L.slot x) (x :: st.cut (L.owner x) (L.slot x))) from rfl]
  by_cases ha : L.owner x = a
  · subst ha
    by_cases hs : L.slot x = s
    · subst hs
      simp
    · simp [hs, Ne.symm hs]
  · simp [ha, Ne.symm ha]

theorem destroy_cut (a b : Id) (used : Slot → Nat) (s : Slot) :
    (st.step L (.destroy a used)).cut b s = if b = a then [] else st.cut b s := by
  rw [show (st.step L (.destroy a used)).cut = Function.update st.cut a fun _ => [] from rfl]
  by_cases hb : b = a
  · simp [hb]
  · simp [hb]

theorem step {action : Action Id Obj} (h : Kept L st) (hconsistent : Consistent L st)
    (hstep : st.Step L action st') : Kept L st' := by
  obtain ⟨henabled, rfl⟩ := hstep
  cases action with
  | cut x =>
      have hx : st.place x = .unborn := henabled
      have hplace : (st.step L (.cut x)).place =
        Function.update st.place x (.free (L.owner x) (L.slot x)) := rfl
      refine ⟨fun a s => ?_, fun a s y => ?_⟩
      · have hnodup := h.nodup a s
        have hmem := h.mem a s x
        rw [cut_cut]
        grind [Place.isMapped]
      · have hmem := h.mem a s y
        rw [cut_cut, hplace]
        grind [Place.isMapped]
  | take a s x => exact h.of_move (hconsistent.place_of_free henabled.2) rfl rfl rfl rfl
  | takeOwn a s x => exact h.of_move (hconsistent.place_of_free henabled.2) rfl rfl rfl rfl
  | deallocLocal a x => exact h.of_move (hconsistent.place_of_live henabled.2.1) rfl rfl rfl rfl
  | deallocRemote a x => exact h.of_move (hconsistent.place_of_live henabled.2.1) rfl rfl rfl rfl
  | deallocOwn a x => exact h.of_move (hconsistent.place_of_own henabled.2) rfl rfl rfl rfl
  | write holder x d p => exact h.of_quiet rfl fun _ => rfl
  | allocNode a x n =>
      obtain ⟨htop, hmem⟩ := henabled
      have hx := hconsistent.place_of_top htop (List.mem_singleton_self _)
      have hn := hconsistent.place_of_free hmem
      refine h.of_quiet rfl fun y => ?_
      rw [show (st.step L (.allocNode a x n)).place = Function.update
        (Function.update st.place n (.held a)) x (.carried n) from rfl]
      grind [Place.isMapped]
  | loadHead a n target => exact h.of_quiet rfl fun _ => rfl
  | exchange a n target expected spurious =>
      have hn := hconsistent.place_of_top henabled (List.mem_singleton_self _)
      by_cases hsuccess : st.head target = expected ∧ spurious = false
      · rw [show st.step L (.exchange a n target expected spurious) = _ from if_pos hsuccess]
        exact h.of_move (q := .listed target) hn rfl rfl rfl rfl
      · rw [show st.step L (.exchange a n target expected spurious) = _ from if_neg hsuccess]
        exact h.of_quiet rfl fun _ => rfl
  | drain a =>
      refine h.of_quiet rfl fun y => ?_
      rw [show (st.step L (.drain a)).place y =
        if st.place y = .listed a then .held a else st.place y from rfl]
      grind [Place.isMapped]
  | takeReturned a n rest =>
      obtain ⟨htop, hself⟩ := henabled
      obtain ⟨hrest, -⟩ := (hconsistent.top_good htop).1.eq_cons
      have hmem : n ∈ rest := hrest ▸ List.mem_cons_self
      have hn := hconsistent.place_of_top htop (p := .held a) (x := n) (List.mem_map_of_mem hmem)
      exact h.of_move hn rfl rfl rfl rfl
  | takeCarried a n s rest =>
      obtain ⟨htop, hself, -⟩ := henabled
      obtain ⟨hrest, -⟩ := (hconsistent.top_good htop).1.eq_cons
      have hmem : n ∈ rest := hrest ▸ List.mem_cons_self
      have hn := hconsistent.place_of_top htop (p := .held a) (x := n) (List.mem_map_of_mem hmem)
      have hx : st.place (st.value n).ptr = .carried n :=
        (hconsistent.carried _ n).2 ⟨by rw [hn]; rfl, rfl, hself⟩
      refine h.of_quiet rfl fun y => ?_
      rw [show (st.step L (.takeCarried a n s rest)).place = Function.update
        (Function.update st.place n (.spent a)) (st.value n).ptr (.hand a .remote) from rfl]
      grind [Place.isMapped]
  | put a s x origin =>
      have hx := hconsistent.place_of_top henabled (List.mem_singleton_self _)
      cases origin <;> exact h.of_move (q := .free a s) hx rfl rfl rfl rfl
  | giveBack a n nextOfNode rest =>
      have hn := hconsistent.place_of_top henabled (p := .spent a) (x := n) List.mem_cons_self
      exact h.of_move hn rfl rfl rfl rfl
  | finish a rest => exact h.of_quiet rfl fun _ => rfl
  | destroy a used =>
      refine ⟨fun b s => ?_, fun b s y => ?_⟩
      · have hnodup := h.nodup b s
        rw [destroy_cut]
        grind
      · have hmem := h.mem b s y
        have hhome := fun howner hmapped =>
          h.home_of_used_eq hconsistent henabled.2.1 henabled.2.2 (x := y) howner hmapped
        have hfree := hconsistent.free_home y a (L.slot y)
        have hown := hconsistent.own_home y a
        rw [destroy_cut,
          show (st.step L (.destroy a used)).place y = if st.place y = .free a (L.slot y) ∨
            st.place y = .own a then .released else st.place y from rfl]
        grind [Place.isMapped]

end Kept

/-! ## Messages -/

/-- A node is on its way to an allocator: it is being pushed on that one's list, is on
it, or was drained from it and waits its turn. -/
def State.InFlight (st : State Id Obj) (n : Obj) (target : Id) : Prop :=
  (∃ a expected, .pushing n target expected ∈ st.frames a) ∨ n ∈ st.list target ∨
    ∃ f ∈ st.frames target, (∃ cur rest, f = .draining cur rest ∧ n ∈ rest) ∨
      ∃ m cur rest, f = .returning m cur rest ∧ n ∈ rest

/-- A message is on its way to an allocator, or will be as soon as the calls and loops
in progress go on. -/
def State.Expects (L : Layout Id Obj) (st : State Id Obj) (a : Id) : Prop :=
  (∃ n, st.InFlight n a) ∨ (∃ n b, st.InFlight n b ∧ L.owner n = a) ∨
    ∃ b, ∃ f ∈ st.frames b, (∃ x, f = .freeing x ∧ L.owner x = a) ∨
      ∃ n cur rest, f = .returning n cur rest ∧ L.owner n = a

namespace Consistent

variable {L : Layout Id Obj} {st : State Id Obj}

theorem inTransit_of_inFlight (h : Consistent L st) {n : Obj} {target : Id}
    (hn : st.InFlight n target) : (st.place n).inTransit ∧ Addressed L st.value n target := by
  rcases hn with ⟨a, expected, hf⟩ | hlist | ⟨f, hf, hrest⟩
  · rw [h.place_of_held hf (n := n) (List.mem_singleton_self n)]
    exact ⟨rfl, h.frames a _ hf⟩
  · rw [h.place_of_list hlist]
    exact ⟨rfl, h.addressed target n hlist⟩
  · rcases hrest with ⟨cur, rest, rfl, hmem⟩ | ⟨m, cur, rest, rfl, hmem⟩
    · rw [h.place_of_held hf (n := n) hmem]
      exact ⟨rfl, (h.frames target _ hf).2 n hmem⟩
    · rw [h.place_of_held hf (n := n) hmem]
      exact ⟨rfl, (h.frames target _ hf).2.2 n hmem⟩

theorem inFlight_of_inTransit (h : Consistent L st) {n : Obj} (hn : (st.place n).inTransit) :
    ∃ target, st.InFlight n target := by
  cases hplace : st.place n with
  | listed b => exact ⟨b, Or.inr (Or.inl ((h.placed.mem_iff (p := .listed b) rfl).2 hplace))⟩
  | held a =>
      have hmem := (h.placed.mem_iff (p := .held a) rfl).2 hplace
      obtain ⟨f, hf, hheld⟩ := List.mem_flatMap.1 hmem
      cases f with
      | freeing x => cases hheld
      | putting s x origin => cases hheld
      | pushing m target expected =>
          cases List.mem_singleton.1 hheld
          exact ⟨target, Or.inl ⟨a, expected, hf⟩⟩
      | draining cur rest => exact ⟨a, Or.inr (Or.inr ⟨_, hf, Or.inl ⟨cur, rest, rfl, hheld⟩⟩)⟩
      | returning m cur rest =>
          exact ⟨a, Or.inr (Or.inr ⟨_, hf, Or.inr ⟨m, cur, rest, rfl, hheld⟩⟩)⟩
  | _ =>
      rw [hplace] at hn
      cases hn

/-- An object in a node is on its way to its owner. -/
theorem inFlight_of_carried (h : Consistent L st) {x n : Obj} (hx : st.place x = .carried n) :
    st.InFlight n (L.owner x) ∧ st.value n = ⟨x, some (L.slot x)⟩ := by
  obtain ⟨htransit, hptr, hne⟩ := (h.carried x n).1 hx
  obtain ⟨target, hflight⟩ := h.inFlight_of_inTransit htransit
  have haddressed := (h.inTransit_of_inFlight hflight).2.2
  rw [hptr, if_neg hne] at haddressed
  refine ⟨haddressed.1 ▸ hflight, ?_⟩
  rw [← haddressed.2, ← hptr]

/-- A message pins an object of the allocator that it is for. -/
theorem pinned (h : Consistent L st) {a : Id} (hexpects : st.Expects L a) :
    ∃ x, L.owner x = a ∧ (st.place x).isMapped ∧ (∀ s, st.place x ≠ .free a s) ∧
      st.place x ≠ .own a := by
  have hof : ∀ n, (st.place n).inTransit → (st.place n).isMapped ∧
      (∀ s, st.place n ≠ .free a s) ∧ st.place n ≠ .own a := by
    intro n hn
    cases hplace : st.place n <;> simp_all [Place.inTransit, Place.isMapped]
  rcases hexpects with ⟨n, hflight⟩ | ⟨n, b, hflight, howner⟩ | ⟨b, f, hf, hcase⟩
  · obtain ⟨htransit, haddressed⟩ := h.inTransit_of_inFlight hflight
    by_cases hself : (st.value n).ptr = n
    · rw [Addressed, if_pos hself] at haddressed
      exact ⟨n, haddressed.2, hof n htransit⟩
    · rw [Addressed, if_neg hself] at haddressed
      have hx := (h.carried _ n).2 ⟨htransit, rfl, hself⟩
      exact ⟨(st.value n).ptr, haddressed.2.1, by rw [hx]; rfl, by rw [hx]; simp, by rw [hx]; simp⟩
  · exact ⟨n, howner, hof n (h.inTransit_of_inFlight hflight).1⟩
  · rcases hcase with ⟨x, rfl, howner⟩ | ⟨n, cur, rest, rfl, howner⟩
    · have hx : st.place x = .hand b .freeing :=
        (h.placed.mem_iff (p := .hand b .freeing) rfl).1
          (List.mem_flatMap.2 ⟨_, hf, List.mem_singleton_self x⟩)
      exact ⟨x, howner, by rw [hx]; rfl, by rw [hx]; simp, by rw [hx]; simp⟩
    · have hn : st.place n = .spent b :=
        (h.placed.mem_iff (p := .spent b) rfl).1
          (List.mem_flatMap.2 ⟨_, hf, List.mem_singleton_self n⟩)
      exact ⟨n, howner, by rw [hn]; rfl, by rw [hn]; simp, by rw [hn]; simp⟩

end Consistent

/-! ## Runs -/

/-- What all steps keep. -/
theorem invariants_of_run {L : Layout Id Obj} {next : Obj → Option Obj} {value : Obj → Data Obj}
    {actions : List (Action Id Obj)} {st : State Id Obj}
    (hrun : Run (State.Step L) (State.initial next value) actions st) :
    Consistent L st ∧ Logged st ∧ Kept L st := by
  refine hrun.invariant (I := fun st => Consistent L st ∧ Logged st ∧ Kept L st) ?_
    ⟨.initial L next value, .initial next value, .initial L next value⟩
  rintro st action st' ⟨hconsistent, hlogged, hkept⟩ hstep
  exact ⟨hconsistent.step hstep, hlogged.step hconsistent hstep, hkept.step hconsistent hstep⟩

/-- Every object is in one place, the right one, and its history says the same. -/
structure Conserved (L : Layout Id Obj) (st : State Id Obj) : Prop where
  /-- A container holds an object once if that is where it is, and otherwise not at all. -/
  once : Placed st
  /-- What was cut is in one of these places until its allocator is destroyed. -/
  kept : Kept L st
  /-- A vector holds objects of its allocator and its class only. -/
  home : ∀ a s, ∀ x ∈ st.free a s, L.owner x = a ∧ L.slot x = s
  /-- A block that was freed elsewhere is in the hand of the allocator that frees it, in
  one node that is on its way to its owner, or in its owner's hand. -/
  carried : ∀ x n, st.place x = .carried n →
    st.InFlight n (L.owner x) ∧ st.value n = ⟨x, some (L.slot x)⟩
  arriving : ∀ a x, st.place x = .hand a .remote → L.owner x = a
  /-- A node on its way carries an object to its owner, or is back at its own. -/
  addressed : ∀ n target, st.InFlight n target → Addressed L st.value n target ∧
    ((st.value n).ptr ≠ n → st.place (st.value n).ptr = .carried n)
  /-- The lists are what the heads and the nodes in memory say. -/
  lists : ∀ b, Chain st.next (st.head b) (st.list b)
  logged : Logged st
  /-- When all lists are empty and no call is in progress, every block and every node
  that was sent has arrived. -/
  settled : (∀ b, st.head b = none) → (∀ a, st.frames a = []) → ∀ x,
    ((st.place x).isMapped → x ∈ st.live ∨ x ∈ st.own (L.owner x) ∨
      x ∈ st.free (L.owner x) (L.slot x)) ∧
    st.log.count (.sent x) = st.log.count (.delivered x) ∧
    st.log.count (.lent x) = st.log.count (.home x) ∧
    st.log.count (.returned x) = st.log.count (.home x)

theorem Consistent.place_of_settled {L : Layout Id Obj} {st : State Id Obj} (h : Consistent L st)
    (hhead : ∀ b, st.head b = none) (hframes : ∀ a, st.frames a = []) {x : Obj}
    (hmapped : (st.place x).isMapped) : st.place x = .live ∨
      st.place x = .own (L.owner x) ∨ st.place x = .free (L.owner x) (L.slot x) := by
  have hno : ∀ n, (st.place n).inTransit = false := by
    intro n
    by_contra hn
    obtain ⟨target, hflight⟩ := h.inFlight_of_inTransit (Bool.eq_true_of_not_eq_false hn)
    rcases hflight with ⟨a, expected, hf⟩ | hlist | ⟨f, hf, -⟩
    · rw [hframes] at hf
      cases hf
    · have hchain := h.chains target
      rw [hhead] at hchain
      cases hl : st.list target with
      | nil =>
          rw [hl] at hlist
          cases hlist
      | cons m rest =>
          rw [hl] at hchain
          cases hchain.1
    · rw [hframes] at hf
      cases hf
  have hstack : ∀ a p, p.onStack = some a → p.isContainer → st.place x ≠ p := by
    intro a p hp hcontainer hx
    have hmem := (h.placed.mem_iff hcontainer).2 hx
    rw [holding_of_onStack st a p hp, hframes] at hmem
    cases p <;> cases hmem
  cases hplace : st.place x with
  | live => exact Or.inl rfl
  | own a =>
      rw [h.own_home x a hplace]
      exact Or.inr (Or.inl rfl)
  | free a s =>
      rw [(h.free_home x a s hplace).1, (h.free_home x a s hplace).2]
      exact Or.inr (Or.inr rfl)
  | hand a origin => exact absurd hplace (hstack a _ rfl rfl)
  | spent a => exact absurd hplace (hstack a _ rfl rfl)
  | carried n =>
      have htransit := ((h.carried x n).1 hplace).1
      rw [hno] at htransit
      cases htransit
  | listed b =>
      have hn := hno x
      rw [hplace] at hn
      cases hn
  | held a =>
      have hn := hno x
      rw [hplace] at hn
      cases hn
  | unborn =>
      rw [hplace] at hmapped
      cases hmapped
  | released =>
      rw [hplace] at hmapped
      cases hmapped

theorem settled_counts {L : Layout Id Obj} {st : State Id Obj} (h : Consistent L st)
    (hlogged : Logged st) (hhead : ∀ b, st.head b = none) (hframes : ∀ a, st.frames a = [])
    (x : Obj) : st.log.count (.sent x) = st.log.count (.delivered x) ∧
      st.log.count (.lent x) = st.log.count (.home x) ∧
      st.log.count (.returned x) = st.log.count (.home x) := by
  have hplace : (st.place x).isSent = false ∧ (st.place x).isLent = false ∧
      ∀ self, (st.place x).isReturned self = false := by
    cases hmapped : (st.place x).isMapped with
    | true =>
        rcases h.place_of_settled hhead hframes hmapped with hx | hx | hx <;> rw [hx] <;>
          exact ⟨rfl, rfl, fun _ => rfl⟩
    | false =>
        cases hx : st.place x <;> simp_all [Place.isMapped, Place.isSent, Place.isLent,
          Place.isReturned]
  have hsent := hlogged.sent x
  have hlent := hlogged.lent x
  have hreturned := hlogged.returned x
  rw [hplace.1] at hsent
  rw [hplace.2.1] at hlent
  rw [hplace.2.2] at hreturned
  exact ⟨hsent, hlent, hreturned⟩

/-- No block and no node is lost or duplicated, in any interleaving. -/
theorem conserved_of_run {L : Layout Id Obj} {next : Obj → Option Obj} {value : Obj → Data Obj}
    {actions : List (Action Id Obj)} {st : State Id Obj}
    (hrun : Run (State.Step L) (State.initial next value) actions st) : Conserved L st := by
  obtain ⟨h, hlogged, hkept⟩ := invariants_of_run hrun
  refine ⟨h.placed, hkept, ?_, ?_, ?_, ?_, h.chains, hlogged, ?_⟩
  · intro a s x hx
    exact h.free_home x a s (h.place_of_free hx)
  · intro x n hx
    exact h.inFlight_of_carried hx
  · intro a x hx
    have hmem := (h.placed.mem_iff (p := .hand a .remote) rfl).2 hx
    obtain ⟨f, hf, hhand⟩ := List.mem_flatMap.1 hmem
    have hgood := h.frames a f hf
    cases f with
    | putting s y origin =>
        rw [Frame.hand] at hhand
        split at hhand
        · cases List.mem_singleton.1 hhand
          exact hgood.1.1
        · cases hhand
    | freeing y => cases hhand
    | _ => cases hhand
  · intro n target hflight
    obtain ⟨htransit, haddressed⟩ := h.inTransit_of_inFlight hflight
    exact ⟨haddressed, fun hself => (h.carried _ n).2 ⟨htransit, rfl, hself⟩⟩
  · intro hhead hframes x
    refine ⟨fun hmapped => ?_, settled_counts h hlogged hhead hframes x⟩
    rcases h.place_of_settled hhead hframes hmapped with hx | hx | hx
    · exact Or.inl ((h.placed.mem_iff (p := .live) rfl).2 hx)
    · exact Or.inr (Or.inl ((h.placed.mem_iff (p := .own _) rfl).2 hx))
    · exact Or.inr (Or.inr ((h.placed.mem_iff (p := .free _ _) rfl).2 hx))

/-- Where an allocator finds nothing in use but what is its own, no message is on its
way to it and none can be sent any more: all its objects are in its vectors, or its own. -/
theorem no_message_of_run {L : Layout Id Obj} {next : Obj → Option Obj} {value : Obj → Data Obj}
    {actions : List (Action Id Obj)} {st : State Id Obj}
    (hrun : Run (State.Step L) (State.initial next value) actions st) (a : Id) (used : Slot → Nat)
    (hout : ∀ s, st.out a s ≤ used s) (hused : ∀ s, used s = st.allocatedForSelf L a s) :
    st.head a = none ∧ ¬ st.Expects L a ∧
      (∀ x ∈ st.live, L.owner x ≠ a) ∧
      (∀ x, L.owner x = a → (st.place x).isMapped →
        x ∈ st.free a (L.slot x) ∨ x ∈ st.own a) ∧
      ∀ b, st.Expects L b →
        ∃ x, x ∈ st.cut b (L.slot x) ∧ x ∉ st.free b (L.slot x) ∧ x ∉ st.own b := by
  obtain ⟨h, -, hkept⟩ := invariants_of_run hrun
  have hhome : ∀ x, L.owner x = a → (st.place x).isMapped →
      st.place x = .free a (L.slot x) ∨ st.place x = .own a := fun x howner hmapped =>
    hkept.home_of_used_eq h hout hused howner hmapped
  have hexpects : ¬ st.Expects L a := by
    intro hexpects
    obtain ⟨x, howner, hmapped, hfree, hown⟩ := h.pinned hexpects
    rcases hhome x howner hmapped with hx | hx
    · exact hfree _ hx
    · exact hown hx
  refine ⟨?_, hexpects, ?_, ?_, ?_⟩
  · have hchain := h.chains a
    cases hl : st.list a with
    | nil =>
        rw [hl] at hchain
        exact hchain
    | cons n rest =>
        refine absurd (Or.inl ⟨n, Or.inr (Or.inl ?_)⟩) hexpects
        rw [hl]
        exact List.mem_cons_self
  · intro x hx howner
    have hlive := h.place_of_live hx
    rcases hhome x howner (by rw [hlive]; rfl) with hx | hx <;> rw [hlive] at hx <;> cases hx
  · intro x howner hmapped
    rcases hhome x howner hmapped with hx | hx
    · exact Or.inl ((h.placed.mem_iff (p := .free a _) rfl).2 hx)
    · exact Or.inr ((h.placed.mem_iff (p := .own a) rfl).2 hx)
  · intro b hb
    obtain ⟨x, howner, hmapped, hfree, hown⟩ := h.pinned hb
    refine ⟨x, (hkept.mem b _ x).2 ⟨⟨howner, rfl⟩, hmapped⟩, fun hx => ?_, fun hx => ?_⟩
    · exact hfree _ (h.place_of_free hx)
    · exact hown (h.place_of_own hx)

/-! ## A run -/

instance State.decidableEnabled (L : Layout Id Obj) (st : State Id Obj) :
    ∀ action, Decidable (st.Enabled L action)
  | .cut x => inferInstanceAs (Decidable (st.place x = .unborn))
  | .take a s x | .takeOwn a s x =>
      inferInstanceAs (Decidable (mayEnter (st.frames a) ∧ x ∈ st.free a s))
  | .deallocLocal a x =>
      inferInstanceAs (Decidable (mayEnter (st.frames a) ∧ x ∈ st.live ∧ L.owner x = a))
  | .deallocRemote a x =>
      inferInstanceAs (Decidable (mayEnter (st.frames a) ∧ x ∈ st.live ∧ L.owner x ≠ a))
  | .deallocOwn a x => inferInstanceAs (Decidable (mayEnter (st.frames a) ∧ x ∈ st.own a))
  | .write none x _ _ => inferInstanceAs (Decidable (x ∈ st.live))
  | .write (some a) x _ _ => inferInstanceAs (Decidable (x ∈ st.own a))
  | .allocNode a x n => inferInstanceAs
      (Decidable ((st.frames a).head? = some (.freeing x) ∧ n ∈ st.free a nodeSlot))
  | .loadHead a n target =>
      inferInstanceAs (Decidable ((st.frames a).head? = some (.pushing n target none)))
  | .exchange a n target expected _ =>
      inferInstanceAs (Decidable ((st.frames a).head? = some (.pushing n target (some expected))))
  | .drain a => inferInstanceAs (Decidable (mayEnter (st.frames a) = true))
  | .takeReturned a n rest => inferInstanceAs (Decidable
      ((st.frames a).head? = some (.draining (some n) rest) ∧ (st.value n).ptr = n))
  | .takeCarried a n s rest => inferInstanceAs (Decidable
      ((st.frames a).head? = some (.draining (some n) rest) ∧ (st.value n).ptr ≠ n ∧
        (st.value n).slot = some s))
  | .put a s x origin =>
      inferInstanceAs (Decidable ((st.frames a).head? = some (.putting s x origin)))
  | .giveBack a n nextOfNode rest =>
      inferInstanceAs (Decidable ((st.frames a).head? = some (.returning n nextOfNode rest)))
  | .finish a rest =>
      inferInstanceAs (Decidable ((st.frames a).head? = some (.draining none rest)))
  | .destroy a used => inferInstanceAs (Decidable (st.frames a = [] ∧ (∀ s, st.out a s ≤ used s) ∧
      ∀ s, used s = st.allocatedForSelf L a s))

/-- Take an action where it may be taken. -/
def State.guarded (L : Layout Id Obj) (st : State Id Obj) (action : Action Id Obj) :
    Option (State Id Obj) :=
  if st.Enabled L action then some (st.step L action) else none

theorem State.step_of_guarded (L : Layout Id Obj) (st : State Id Obj) (action : Action Id Obj)
    (st' : State Id Obj) (h : st.guarded L action = some st') : st.Step L action st' := by
  unfold State.guarded at h
  split at h
  · next henabled => exact ⟨henabled, (Option.some.inj h).symm⟩
  · cases h

/-- The class of the smallest objects. -/
def smallestSlot : Slot := (Slot.ofCommonIdx 0).getD nodeSlot

/-- Two allocators: the first owns a block, the second a node. -/
def twoAllocators : Layout Bool Nat where
  owner := fun x => x = 1
  slot := fun x => if x = 1 then nodeSlot else smallestSlot

/-- The second allocator frees the block of the first, which sends the node back. -/
def remoteFreeActions : List (Action Bool Nat) :=
  [.cut 0, .cut 1, .take false smallestSlot 0, .deallocRemote true 0, .allocNode true 0 1,
    .loadHead true 1 false, .exchange true 1 false none true, .exchange true 1 false none false,
    .drain false, .takeCarried false 1 smallestSlot [1], .put false smallestSlot 0 .remote,
    .giveBack false 1 none [], .loadHead false 1 true, .exchange false 1 true none false,
    .finish false [], .drain true, .takeReturned true 1 [1], .put true nodeSlot 1 .node,
    .finish true []]

/-- The state before them. -/
def beforeRemoteFree : State Bool Nat := .initial (fun _ => none) fun _ => ⟨0, none⟩

theorem remoteFreeActions_isSome :
    (remoteFreeActions.foldlM (State.guarded twoAllocators) beforeRemoteFree).isSome = true := by
  decide

/-- The state after them. -/
def afterRemoteFree : State Bool Nat :=
  (remoteFreeActions.foldlM (State.guarded twoAllocators) beforeRemoteFree).get
    remoteFreeActions_isSome

theorem remoteFreeActions_run : Run (State.Step twoAllocators) beforeRemoteFree remoteFreeActions
    afterRemoteFree :=
  Run.of_foldlM (State.step_of_guarded twoAllocators) (Option.some_get remoteFreeActions_isSome).symm

theorem remoteFree_conserved : Conserved twoAllocators afterRemoteFree ∧
    afterRemoteFree.free false (.common 0) = [0] ∧ afterRemoteFree.free true nodeSlot = [1] :=
  ⟨conserved_of_run remoteFreeActions_run, by decide, by decide⟩

theorem remoteFree_no_message :
    afterRemoteFree.head false = none ∧ ¬ afterRemoteFree.Expects twoAllocators false := by
  have h := no_message_of_run remoteFreeActions_run false (fun _ => 0) (by decide +kernel)
    (by decide +kernel)
  exact ⟨h.1, h.2.1⟩

end Memalart.RemoteFree
