/-
# Remote frees come to an end

Each remote free is worth a fixed number of steps of the allocators, wherever they stand in
an interleaving: the node goes to the owner of the object, and back to its own owner, and not
on from there.  A compare-exchange fails only because somebody else has changed the head.  So
once no more frees come in, the calls and loops in progress end, and everything is home.
-/

import Memalart.RemoteFreeSafety
import Memalart.Lib.Potential
import Memalart.Lib.Sums

set_option linter.unusedSectionVars false

namespace Memalart.RemoteFree

open Memalart.Lib

universe u v

variable {Id : Type u} {Obj : Type v}

/-! ## What steps cost -/

/-- The prices of the steps that remote frees are made of. -/
structure Tariff where
  allocNode : Nat
  loadHead : Nat
  exchange : Nat
  drain : Nat
  take : Nat
  put : Nat
  giveBack : Nat
  finish : Nat

/-- Every step has the same price. -/
def Tariff.steps : Tariff := ⟨1, 1, 1, 1, 1, 1, 1, 1⟩

/-- Only the nodes that are pushed on a list have a price. -/
def Tariff.pushes : Tariff := ⟨0, 0, 1, 0, 0, 0, 0, 0⟩

namespace Tariff

variable (t : Tariff)

/-- A node is drained from the list that it is on. -/
def draining : Nat := t.drain + t.finish

/-- A node is pushed on a list and drained from it. -/
def crossing : Nat := t.loadHead + t.exchange + t.draining

/-- What a node that was drained at its own owner still costs. -/
def home : Nat := t.take + t.put

/-- What a node that was drained at the owner of its object still costs. -/
def delivery : Nat := t.take + t.put + t.giveBack + t.crossing + t.home

/-- What a remote free costs. -/
def remoteFree : Nat := t.allocNode + t.crossing + t.delivery

section Owed

variable [DecidableEq Obj]

/-- What is still to be paid for a node that was drained. -/
def node (value : Obj → Data Obj) (n : Obj) : Nat :=
  if (value n).ptr = n then t.home else t.delivery

/-- What is still to be paid for a node on a list. -/
def listed (value : Obj → Data Obj) (n : Obj) : Nat := t.draining + t.node value n

/-- What is still to be paid for a frame. -/
def frame (value : Obj → Data Obj) : Frame Id Obj → Nat
  | .freeing _ => t.remoteFree
  | .putting _ _ _ => t.put
  | .pushing n _ none => t.crossing + t.node value n
  | .pushing n _ (some _) => t.exchange + t.draining + t.node value n
  | .draining _ rest => t.finish + (rest.map (t.node value)).sum
  | .returning _ _ rest =>
      t.giveBack + t.crossing + t.home + t.finish + (rest.map (t.node value)).sum

/-- What is still to be paid at an allocator. -/
def owedAt (value : Obj → Data Obj) (frames : List (Frame Id Obj)) (list : List Obj) : Nat :=
  (frames.map (t.frame value)).sum + (list.map (t.listed value)).sum

/-- What is still to be paid. -/
def owed [Fintype Id] (st : State Id Obj) : Nat :=
  ∑ a, t.owedAt st.value (st.frames a) (st.list a)

end Owed

variable [DecidableEq Id] [DecidableEq Obj]

/-- The price of a step; a compare-exchange that fails is not paid for. -/
def cost (st : State Id Obj) : Action Id Obj → Nat
  | .allocNode _ _ _ => t.allocNode
  | .loadHead _ _ _ => t.loadHead
  | .exchange _ _ target expected spurious =>
      if st.head target = expected ∧ spurious = false then t.exchange else 0
  | .drain _ => t.drain
  | .takeReturned _ _ _ | .takeCarried _ _ _ _ => t.take
  | .put _ _ _ _ => t.put
  | .giveBack _ _ _ _ => t.giveBack
  | .finish _ _ => t.finish
  | _ => 0

/-- What is charged to those who free, and to those who look for messages where there are
none. -/
def charge (st : State Id Obj) : Action Id Obj → Nat
  | .deallocRemote _ _ => t.remoteFree
  | .deallocLocal _ _ | .deallocOwn _ _ => t.put
  | .drain a => if st.list a = [] then t.draining else 0
  | _ => 0

end Tariff

/-! ## What is owed under the updates -/

variable [DecidableEq Id] [DecidableEq Obj] {L : Layout Id Obj} {st st' : State Id Obj}

namespace Tariff

section Updates

variable [Fintype Id] (t : Tariff) (st) (a : Id)

@[simp] theorem owed_setPlace (x : Obj) (p : Place Id Obj) : t.owed (st.setPlace x p) = t.owed st :=
  rfl

@[simp] theorem owed_setFree (s : Slot) (xs : List Obj) : t.owed (st.setFree a s xs) = t.owed st :=
  rfl

@[simp] theorem owed_setCut (s : Slot) (xs : List Obj) : t.owed (st.setCut a s xs) = t.owed st :=
  rfl

@[simp] theorem owed_setOwn (xs : List Obj) : t.owed (st.setOwn a xs) = t.owed st := rfl

@[simp] theorem owed_setLive (xs : List Obj) : t.owed (st.setLive xs) = t.owed st := rfl

@[simp] theorem owed_setNext (n : Obj) (p : Option Obj) : t.owed (st.setNext n p) = t.owed st :=
  rfl

@[simp] theorem owed_record (e : Event Obj) : t.owed (st.record e) = t.owed st := rfl

@[simp] theorem owed_complete (x : Obj) (origin : Origin) :
    t.owed (st.complete x origin) = t.owed st := by
  cases origin <;> rfl

/-- Only what is owed at one allocator changes. -/
theorem owed_exchange (st') (hvalue : st'.value = st.value)
    (hframes : ∀ b, b ≠ a → st'.frames b = st.frames b) (hlist : ∀ b, b ≠ a → st'.list b = st.list b) :
    t.owed st' + t.owedAt st.value (st.frames a) (st.list a) =
      t.owed st + t.owedAt st.value (st'.frames a) (st'.list a) := by
  have hnew : t.owedAt st.value (st'.frames a) (st'.list a) =
      t.owedAt st'.value (st'.frames a) (st'.list a) := by rw [hvalue]
  rw [hnew]
  refine sum_exchange (f := fun b => t.owedAt st'.value (st'.frames b) (st'.list b))
    (g := fun b => t.owedAt st.value (st.frames b) (st.list b)) a fun b hb => ?_
  rw [hvalue, hframes b hb, hlist b hb]

theorem owed_enter (f : Frame Id Obj) : t.owed (st.enter a f) = t.owed st + t.frame st.value f := by
  have h := t.owed_exchange st a (st.enter a f) rfl
    (fun b hb => Function.update_of_ne hb _ _) fun _ _ => rfl
  have hframes : (st.enter a f).frames a = f :: st.frames a := Function.update_self _ _ _
  have hlist : (st.enter a f).list a = st.list a := rfl
  simp only [hframes, hlist, owedAt, List.map_cons, List.sum_cons] at h
  omega

theorem owed_setTop {f : Frame Id Obj} (htop : (st.frames a).head? = some f)
    (fs : List (Frame Id Obj)) :
    t.owed (st.setTop a fs) + t.frame st.value f =
      t.owed st + (fs.map (t.frame st.value)).sum := by
  have h := t.owed_exchange st a (st.setTop a fs) rfl
    (fun b hb => Function.update_of_ne hb _ _) fun _ _ => rfl
  have hframes : (st.setTop a fs).frames a = fs ++ (st.frames a).tail := Function.update_self _ _ _
  have hlist : (st.setTop a fs).list a = st.list a := rfl
  have hold : ((st.frames a).map (t.frame st.value)).sum =
      t.frame st.value f + ((st.frames a).tail.map (t.frame st.value)).sum := by
    rw [frames_eq_cons htop, List.map_cons, List.sum_cons, List.tail_cons]
  simp only [hframes, hlist, owedAt, List.map_append, List.sum_append, hold] at h
  omega

theorem owed_setList (head : Option Obj) (list : List Obj) :
    t.owed (st.setList a head list) + ((st.list a).map (t.listed st.value)).sum =
      t.owed st + (list.map (t.listed st.value)).sum := by
  have h := t.owed_exchange st a (st.setList a head list) rfl (fun _ _ => rfl)
    fun b hb => Function.update_of_ne hb _ _
  have hframes : (st.setList a head list).frames a = st.frames a := rfl
  have hlist : (st.setList a head list).list a = list := Function.update_self _ _ _
  simp only [hframes, hlist, owedAt] at h
  omega

end Updates

variable (t : Tariff)

theorem frame_congr {value value' : Obj → Data Obj} {f : Frame Id Obj}
    (h : ∀ n ∈ f.held, value' n = value n) : t.frame value' f = t.frame value f := by
  have hnode : ∀ n ∈ f.held, t.node value' n = t.node value n := fun n hn => by
    rw [node, node, h n hn]
  cases f with
  | freeing x => rfl
  | putting s x origin => rfl
  | pushing n target expected =>
      cases expected <;> simp only [frame, hnode n (List.mem_singleton_self n)]
  | draining cur rest | returning n cur rest =>
      have hrest : rest.map (t.node value') = rest.map (t.node value) := List.map_congr_left hnode
      rw [frame, frame, hrest]

/-- Writing to an object that is no node on its way. -/
theorem owed_setValue [Fintype Id] (h : Consistent L st) {n : Obj}
    (hn : (st.place n).inTransit = false) (d : Data Obj) :
    t.owed (st.setValue n d) = t.owed st := by
  have hvalue : ∀ m, (st.place m).inTransit → (st.setValue n d).value m = st.value m := by
    intro m hm
    refine Function.update_of_ne ?_ _ _
    rintro rfl
    rw [hn] at hm
    cases hm
  refine Finset.sum_congr rfl fun a _ => congrArg₂ (· + ·) ?_ ?_
  · refine congrArg List.sum (List.map_congr_left fun f hf => t.frame_congr fun m hm => hvalue m ?_)
    rw [h.place_of_held hf hm]
    rfl
  · refine congrArg List.sum (List.map_congr_left fun m hm => ?_)
    rw [listed, listed, node, node, hvalue m]
    rw [h.place_of_list hm]
    rfl

/-- What a list costs when it is drained. -/
theorem sum_listed (value : Obj → Data Obj) (list : List Obj) :
    (list.map (t.listed value)).sum = list.length * t.draining + (list.map (t.node value)).sum := by
  induction list with
  | nil => simp
  | cons n list ih =>
      rw [List.map_cons, List.map_cons, List.sum_cons, List.sum_cons, ih, List.length_cons, listed,
        Nat.succ_mul]
      omega

/-- Every step pays for itself out of what is owed and charged. -/
theorem pays [Fintype Id] (h : Consistent L st) {action : Action Id Obj}
    (henabled : st.Enabled L action) :
    t.cost st action + t.owed (st.step L action) ≤ t.owed st + t.charge st action := by
  cases action with
  | cut x | take a s x | takeOwn a s x =>
      simp only [cost, charge, State.step, owed_setPlace, owed_setCut, owed_setFree, owed_setLive,
        owed_setOwn]
      omega
  | destroy a used =>
      simp only [cost, charge, Nat.zero_add, Nat.add_zero]
      exact le_rfl
  | write holder x d p =>
      have hx : (st.place x).inTransit = false := by
        cases holder with
        | none => rw [h.place_of_live henabled]; rfl
        | some a => rw [h.place_of_own henabled]; rfl
      simp only [cost, charge, State.step, owed_setNext, t.owed_setValue h hx]
      omega
  | deallocLocal a x | deallocOwn a x =>
      have henter := t.owed_enter st a (.putting (L.slot x) x .localFree)
      simp only [State.step, cost, charge, owed_setPlace, owed_setLive, owed_setOwn, henter, frame]
      omega
  | deallocRemote a x =>
      have henter := t.owed_enter st a (.freeing x)
      simp only [State.step, cost, charge, owed_setPlace, owed_setLive, owed_record, henter, frame]
      omega
  | allocNode a x n =>
      obtain ⟨htop, hmem⟩ := henabled
      have hn := h.place_of_free hmem
      have hne : x ≠ n := by
        rintro rfl
        rw [h.place_of_top htop (List.mem_singleton_self _)] at hn
        cases hn
      have htransit : (st.place n).inTransit = false := by rw [hn]; rfl
      have hvalue := t.owed_setValue h htransit ⟨x, some (L.slot x)⟩
      have hset := t.owed_setTop (st.setValue n ⟨x, some (L.slot x)⟩) a htop
        [.pushing n (L.owner x) none]
      have hnode : t.node (st.setValue n ⟨x, some (L.slot x)⟩).value n = t.delivery := by
        simp [node, hne]
      have hstep : t.owed (st.step L (.allocNode a x n)) =
          t.owed ((st.setValue n ⟨x, some (L.slot x)⟩).setTop a [.pushing n (L.owner x) none]) :=
        rfl
      simp only [frame, hnode, remoteFree, List.map_cons, List.map_nil, List.sum_cons,
        List.sum_nil] at hset
      simp only [cost, charge, hstep]
      omega
  | loadHead a n target =>
      have hset := t.owed_setTop st a henabled [.pushing n target (some (st.head target))]
      simp only [frame, crossing, List.map_cons, List.map_nil, List.sum_cons, List.sum_nil] at hset
      simp only [cost, charge, State.step]
      omega
  | exchange a n target expected spurious =>
      simp only [cost, charge, State.step]
      split
      · have hset := t.owed_setTop (st.setNext n expected) a henabled []
        have hlist := t.owed_setList ((st.setNext n expected).setTop a []) target (some n)
          (n :: st.list target)
        have hold : ((st.setNext n expected).setTop a []).list target = st.list target := rfl
        have hvalue : ((st.setNext n expected).setTop a []).value = st.value := rfl
        have hvalue' : (st.setNext n expected).value = st.value := rfl
        simp only [owed_setNext, frame, hvalue', List.map_nil, List.sum_nil] at hset
        simp only [hold, hvalue, listed, List.map_cons, List.sum_cons] at hlist
        simp only [owed_setPlace]
        omega
      · have hset := t.owed_setTop (st.setNext n expected) a henabled
          [.pushing n target (some (st.head target))]
        simp only [frame, owed_setNext, List.map_cons, List.map_nil, List.sum_cons,
          List.sum_nil] at hset
        omega
  | drain a =>
      have henter := t.owed_enter st a (.draining (st.head a) (st.list a))
      have hlist := t.owed_setList (st.enter a (.draining (st.head a) (st.list a))) a none []
      have hold : (st.enter a (.draining (st.head a) (st.list a))).list a = st.list a := rfl
      have hvalue : (st.enter a (.draining (st.head a) (st.list a))).value = st.value := rfl
      have hstep : t.owed (st.step L (.drain a)) =
          t.owed ((st.enter a (.draining (st.head a) (st.list a))).setList a none []) := rfl
      simp only [hold, hvalue, sum_listed, List.map_nil, List.sum_nil] at hlist
      simp only [frame] at henter
      simp only [cost, charge, hstep]
      split
      · next hnil =>
          simp only [hnil, draining, List.length_nil, List.map_nil, List.sum_nil] at *
          omega
      · next hne =>
          have hone : t.draining ≤ (st.list a).length * t.draining :=
            Nat.le_mul_of_pos_left _ (List.length_pos_of_ne_nil hne)
          simp only [draining] at *
          omega
  | takeReturned a n rest =>
      obtain ⟨htop, hself⟩ := henabled
      obtain ⟨hrest, -⟩ := (h.top_good htop).1.eq_cons
      have hset := t.owed_setTop st a htop
        [.putting nodeSlot n .node, .draining (st.next n) rest.tail]
      have hnode : t.node st.value n = t.take + t.put := if_pos hself
      rw [hrest] at hset
      simp only [frame, hnode, List.map_cons, List.map_nil, List.sum_cons, List.sum_nil,
        List.tail_cons] at hset
      simp only [cost, charge, State.step, owed_setPlace]
      omega
  | takeCarried a n s rest =>
      obtain ⟨htop, hself, -⟩ := henabled
      obtain ⟨hrest, -⟩ := (h.top_good htop).1.eq_cons
      have hset := t.owed_setTop st a htop
        [.putting s (st.value n).ptr .remote, .returning n (st.next n) rest.tail]
      have hnode : t.node st.value n = t.delivery := if_neg hself
      rw [hrest] at hset
      simp only [frame, hnode, delivery, List.map_cons, List.map_nil, List.sum_cons, List.sum_nil,
        List.tail_cons] at hset
      simp only [cost, charge, State.step, owed_setPlace]
      omega
  | put a s x origin =>
      have hset := t.owed_setTop st a henabled []
      simp only [frame, List.map_nil, List.sum_nil] at hset
      simp only [cost, charge, State.step, owed_complete, owed_setPlace, owed_setFree]
      omega
  | giveBack a n nextOfNode rest =>
      have hn : (st.place n).inTransit = false := by
        rw [h.place_of_top henabled (x := n) List.mem_cons_self]
        rfl
      have hvalue := t.owed_setValue h hn ⟨n, none⟩
      have hset := t.owed_setTop (st.setValue n ⟨n, none⟩) a henabled
        [.pushing n (L.owner n) none, .draining nextOfNode rest]
      have hnode : t.node (st.setValue n ⟨n, none⟩).value n = t.home := by
        simp [node]
      have hstep : t.owed (st.step L (.giveBack a n nextOfNode rest)) =
          t.owed ((st.setValue n ⟨n, none⟩).setTop a
            [.pushing n (L.owner n) none, .draining nextOfNode rest]) := rfl
      simp only [frame, hnode, List.map_cons, List.map_nil, List.sum_cons, List.sum_nil] at hset
      simp only [cost, charge, hstep]
      omega
  | finish a rest =>
      have hset := t.owed_setTop st a henabled []
      obtain rfl : rest = [] := by
        cases rest with
        | nil => rfl
        | cons n rest => cases (h.top_good henabled).1.1
      simp only [frame, List.map_nil, List.sum_nil] at hset
      simp only [cost, charge, State.step]
      omega

end Tariff

/-! ## Retries -/

def Frame.isPushing : Frame Id Obj → Bool
  | .pushing _ _ _ => true
  | _ => false

/-- A frame whose next compare-exchange fails. -/
def Frame.isStale (head : Id → Option Obj) : Frame Id Obj → Bool
  | .pushing _ target (some expected) => decide (head target ≠ expected)
  | _ => false

theorem Frame.isStale_of_not_isPushing {f : Frame Id Obj} (h : f.isPushing = false)
    (head : Id → Option Obj) : f.isStale head = false := by
  cases f with
  | pushing n target expected => cases h
  | _ => rfl

namespace State

/-- The allocator is at a compare-exchange that is going to fail. -/
def isStale (st : State Id Obj) (a : Id) : Bool := (st.frames a).head?.any (Frame.isStale st.head)

/-- A compare-exchange that fails, and not for no reason. -/
def retries (st : State Id Obj) : Action Id Obj → Nat
  | .exchange _ _ target expected spurious =>
      if st.head target ≠ expected ∧ spurious = false then 1 else 0
  | _ => 0

/-- A head is changed. -/
def changes (st : State Id Obj) : Action Id Obj → Nat
  | .exchange _ _ target expected spurious =>
      if st.head target = expected ∧ spurious = false then 1 else 0
  | .drain a => if st.list a = [] then 0 else 1
  | _ => 0

end State

/-- A node is pushed by the innermost call only. -/
def Topmost (st : State Id Obj) : Prop := ∀ a, ∀ f ∈ (st.frames a).tail, f.isPushing = false

namespace Topmost

theorem initial (next : Obj → Option Obj) (value : Obj → Data Obj) :
    Topmost (State.initial next value : State Id Obj) := by
  simp [Topmost, State.initial]

theorem of_frames (h : Topmost st) (hframes : st'.frames = st.frames) : Topmost st' := by
  unfold Topmost
  rw [hframes]
  exact h

theorem enter (h : Topmost st) {a : Id} (hmay : mayEnter (st.frames a)) (f : Frame Id Obj) :
    Topmost (st.enter a f) := by
  intro b g hg
  by_cases hb : b = a
  · subst hb
    rw [State.enter, State.setFrames_frames, Function.update_self, List.tail_cons] at hg
    cases hfs : st.frames b with
    | nil =>
        rw [hfs] at hg
        cases hg
    | cons f' fs =>
        rw [hfs] at hmay hg
        rcases List.mem_cons.1 hg with rfl | hmem
        · cases g with
          | pushing n target expected => cases hmay
          | _ => rfl
        · exact h b g (by rw [hfs]; exact hmem)
  · rw [State.enter, State.setFrames_frames, Function.update_of_ne hb] at hg
    exact h b g hg

theorem setTop (h : Topmost st) {a : Id} {fs : List (Frame Id Obj)}
    (hfs : ∀ f ∈ fs.tail, f.isPushing = false) : Topmost (st.setTop a fs) := by
  intro b g hg
  by_cases hb : b = a
  · subst hb
    rw [State.setTop, State.setFrames_frames, Function.update_self] at hg
    cases fs with
    | nil => exact h b g (List.mem_of_mem_tail hg)
    | cons f fs =>
        rw [List.cons_append, List.tail_cons] at hg
        exact (List.mem_append.1 hg).elim (hfs g) (h b g)
  · rw [State.setTop, State.setFrames_frames, Function.update_of_ne hb] at hg
    exact h b g hg

theorem step (h : Topmost st) {action : Action Id Obj} (hstep : st.Step L action st') :
    Topmost st' := by
  obtain ⟨henabled, rfl⟩ := hstep
  cases action with
  | cut x | take a s x | takeOwn a s x | write holder x d p | destroy a used => exact h
  | deallocLocal a x | deallocRemote a x | deallocOwn a x => exact h.enter henabled.1 _
  | drain a => exact h.enter henabled _
  | allocNode a x n | loadHead a n target => exact h.setTop (by simp)
  | put a s x origin =>
      have hpop : Topmost (st.setTop a []) := h.setTop (by simp)
      refine hpop.of_frames ?_
      cases origin <;> rfl
  | finish a rest => exact h.setTop (by simp)
  | exchange a n target expected spurious =>
      rw [State.step]
      split
      · exact h.setTop (by simp)
      · exact h.setTop (by simp)
  | takeReturned a n rest | takeCarried a n s rest | giveBack a n nextOfNode rest =>
      exact h.setTop (by simp [Frame.isPushing])

end Topmost

namespace State

theorem isStale_enter {a : Id} {f : Frame Id Obj} (h : f.isPushing = false) :
    (st.enter a f).isStale a = false := by
  have hframes : (st.enter a f).frames a = f :: st.frames a := Function.update_self _ _ _
  rw [isStale, hframes]
  exact Frame.isStale_of_not_isPushing h _

/-- After a pop, the frame that was below pushes no node. -/
theorem isStale_setTop_nil (h : Topmost st) (a : Id) : (st.setTop a []).isStale a = false := by
  have hframes : (st.setTop a []).frames a = (st.frames a).tail := Function.update_self _ _ _
  rw [isStale, hframes]
  cases htail : (st.frames a).tail with
  | nil => rfl
  | cons f fs =>
      refine Frame.isStale_of_not_isPushing (h a f ?_) _
      rw [htail]
      exact List.mem_cons_self

theorem isStale_setTop_cons (st : State Id Obj) (a : Id) {f : Frame Id Obj} (fs : List (Frame Id Obj))
    (h : f.isStale st.head = false) : (st.setTop a (f :: fs)).isStale a = false := by
  have hframes : (st.setTop a (f :: fs)).frames a = f :: (fs ++ (st.frames a).tail) :=
    Function.update_self _ _ _
  rw [isStale, hframes]
  exact h

/-- With the heads unchanged, no other allocator comes to a stale compare-exchange. -/
theorem isStale_of_isStale (a : Id) (hhead : st'.head = st.head)
    (hframes : ∀ b, b ≠ a → st'.frames b = st.frames b) (ha : st'.isStale a = false) (b : Id)
    (hb : st'.isStale b) : st.isStale b := by
  by_cases hba : b = a
  · rw [hba, ha] at hb
    cases hb
  · rwa [isStale, hhead, hframes b hba] at hb

/-- A compare-exchange fails because of a change that was made to the head meanwhile. -/
theorem optimistic (L : Layout Id Obj) : Optimistic (State.Step L) (State.step L)
    (fun st => Consistent L st ∧ Topmost st) isStale retries changes where
  kept := by
    rintro st action ⟨h, htopmost⟩ ⟨henabled, -⟩ hzero
    cases action with
    | cut x | take a s x | takeOwn a s x | write holder x d p | destroy a used =>
        exact fun _ hb => hb
    | deallocLocal a x | deallocRemote a x | deallocOwn a x =>
        exact isStale_of_isStale a rfl (fun b hb => Function.update_of_ne hb _ _) (isStale_enter rfl)
    | allocNode a x n | loadHead a n target | takeReturned a n rest | takeCarried a n s rest
    | giveBack a n cur rest =>
        exact isStale_of_isStale a rfl (fun b hb => Function.update_of_ne hb _ _)
          (isStale_setTop_cons st a _ (by simp [Frame.isStale]))
    | put a s x origin =>
        have hpop : ∀ b, (st.setTop a []).isStale b → st.isStale b := isStale_of_isStale a rfl
          (fun b hb => Function.update_of_ne hb _ _) (isStale_setTop_nil htopmost a)
        cases origin <;> exact hpop
    | finish a rest =>
        exact isStale_of_isStale a rfl (fun b hb => Function.update_of_ne hb _ _)
          (isStale_setTop_nil htopmost a)
    | exchange a n target expected spurious =>
        rw [State.step, if_neg fun hsuccess => by simp [changes, hsuccess] at hzero]
        exact isStale_of_isStale a rfl (fun b hb => Function.update_of_ne hb _ _)
          (isStale_setTop_cons (st.setNext n expected) a [] (by simp [Frame.isStale]))
    | drain a =>
        have hnil : st.list a = [] := by
          by_contra hne
          rw [changes, if_neg hne] at hzero
          cases hzero
        have hhead : st.head a = none := by
          have hchain := h.chains a
          rw [hnil] at hchain
          exact hchain
        have htop : (st.step L (.drain a)).frames a =
            .draining (st.head a) (st.list a) :: st.frames a := Function.update_self _ _ _
        exact isStale_of_isStale a (Function.update_eq_self_iff.2 hhead.symm)
          (fun b hb => Function.update_of_ne hb _ _) (by rw [isStale, htop]; rfl)
  retry := by
    rintro st action - ⟨henabled, -⟩ hretry
    cases action with
    | exchange a n target expected spurious =>
        obtain ⟨hhead, rfl⟩ : st.head target ≠ expected ∧ spurious = false := by
          by_contra hnot
          exact hretry (if_neg hnot)
        refine ⟨if_neg fun h => hhead h.1, if_pos ⟨hhead, rfl⟩, a, ?_, ?_⟩
        · rw [isStale, henabled]
          exact decide_eq_true hhead
        · rw [State.step, if_neg fun h => hhead h.1]
          exact isStale_setTop_cons (st.setNext n expected) a [] (by simp [Frame.isStale])
    | _ => exact absurd rfl hretry

end State

/-! ## Going on -/

namespace State

/-- An action that goes on with a call or a loop in progress, or works off a list that has
nodes. -/
def GoesOn (st : State Id Obj) : Action Id Obj → Prop
  | .allocNode _ _ _ | .loadHead _ _ _ | .takeReturned _ _ _ | .takeCarried _ _ _ _
  | .put _ _ _ _ | .giveBack _ _ _ _ | .finish _ _ => True
  | .exchange _ _ _ _ spurious => spurious = false
  | .drain a => st.list a ≠ []
  | _ => False

/-- A step of an interleaving in which nobody frees or allocates any more. -/
def StepOn (L : Layout Id Obj) (st : State Id Obj) (a : Action Id Obj) (st' : State Id Obj) : Prop :=
  st.Step L a st' ∧ st.GoesOn a

theorem charge_of_goesOn (t : Tariff) {action : Action Id Obj} (h : st.GoesOn action) :
    t.charge st action = 0 := by
  cases action with
  | drain a => exact if_neg h
  | deallocRemote a x | deallocLocal a x | deallocOwn a x => exact h.elim
  | _ => rfl

/-- Each of these steps costs something, or is a retry. -/
theorem one_le_of_goesOn {action : Action Id Obj} (h : st.GoesOn action) :
    1 ≤ Tariff.steps.cost st action + st.retries action := by
  cases action with
  | exchange a n target expected spurious =>
      obtain rfl : spurious = false := h
      by_cases hhead : st.head target = expected
      · simp [Tariff.cost, retries, hhead, Tariff.steps]
      · simp [Tariff.cost, retries, hhead]
  | cut x | take a s x | takeOwn a s x | write holder x d p | destroy a used
  | deallocRemote a x | deallocLocal a x | deallocOwn a x => exact h.elim
  | _ => exact le_rfl

theorem changes_le_cost (st : State Id Obj) (action : Action Id Obj) :
    st.changes action ≤ Tariff.steps.cost st action := by
  cases action with
  | exchange a n target expected spurious => exact le_rfl
  | drain a =>
      rw [changes]
      split
      · exact Nat.zero_le _
      · exact le_rfl
  | _ => exact Nat.zero_le _

end State

/-- The frames that wait for a node. -/
def Frame.isFreeing : Frame Id Obj → Bool
  | .freeing _ => true
  | _ => false

/-- Each allocator has nodes for the frees that it is in the middle of. -/
def Provided (st : State Id Obj) : Prop :=
  ∀ a, (st.frames a).countP Frame.isFreeing ≤ (st.free a nodeSlot).length

namespace Provided

theorem countP_setTop {f : Frame Id Obj} {a : Id} (htop : (st.frames a).head? = some f)
    (fs : List (Frame Id Obj)) (hfs : fs.countP Frame.isFreeing = 0) (b : Id) :
    ((st.setTop a fs).frames b).countP Frame.isFreeing +
        (if b = a ∧ f.isFreeing then 1 else 0) = (st.frames b).countP Frame.isFreeing := by
  rw [State.setTop, State.setFrames_frames]
  by_cases hb : b = a
  · subst hb
    have hold := congrArg (List.countP Frame.isFreeing) (frames_eq_cons htop)
    rw [List.countP_cons] at hold
    rw [Function.update_self, List.countP_append, hfs, hold]
    simp
  · rw [Function.update_of_ne hb, if_neg fun h => hb h.1, Nat.add_zero]

theorem of_le (h : Provided st)
    (hframes : ∀ a, (st'.frames a).countP Frame.isFreeing ≤ (st.frames a).countP Frame.isFreeing)
    (hfree : ∀ a, (st.free a nodeSlot).length ≤ (st'.free a nodeSlot).length) : Provided st' :=
  fun a => (hframes a).trans ((h a).trans (hfree a))

theorem stepOn (h : Provided st) {action : Action Id Obj} (hstep : st.StepOn L action st') :
    Provided st' := by
  obtain ⟨⟨henabled, rfl⟩, hgoes⟩ := hstep
  cases action with
  | cut x | take a s x | takeOwn a s x | write holder x d p | destroy a used
  | deallocRemote a x | deallocLocal a x | deallocOwn a x => exact hgoes.elim
  | allocNode a x n =>
      obtain ⟨htop, hmem⟩ := henabled
      intro b
      have hcount := countP_setTop htop [.pushing n (L.owner x) none] rfl b
      have hframes : (st.step L (.allocNode a x n)).frames b =
          (st.setTop a [.pushing n (L.owner x) none]).frames b := rfl
      have hb := h b
      rw [hframes]
      by_cases hba : b = a
      · subst hba
        have hfree : (st.step L (.allocNode b x n)).free b nodeSlot = (st.free b nodeSlot).erase n := by
          simp [State.step]
        rw [if_pos ⟨rfl, rfl⟩] at hcount
        rw [hfree, List.length_erase_of_mem hmem]
        omega
      · have hfree : (st.step L (.allocNode a x n)).free b = st.free b :=
          Function.update_of_ne hba _ _
        rw [hfree]
        omega
  | put a s x origin =>
      refine h.of_le (fun b => ?_) fun b => ?_
      · have hframes : (st.step L (.put a s x origin)).frames b = (st.setTop a []).frames b := by
          cases origin <;> rfl
        rw [hframes]
        exact Nat.le.intro (countP_setTop henabled [] rfl b)
      · have hfree : (st.step L (.put a s x origin)).free =
            (st.setFree a s (x :: st.free a s)).free := by
          cases origin <;> rfl
        rw [hfree, State.setFree_free]
        by_cases hb : b = a
        · subst hb
          by_cases hs : nodeSlot = s
          · simp [hs]
          · simp [hs]
        · rw [Function.update_of_ne hb]
  | drain a =>
      refine h.of_le (fun b => ?_) fun _ => le_rfl
      have hframes : (st.step L (.drain a)).frames =
          (st.enter a (.draining (st.head a) (st.list a))).frames := rfl
      rw [hframes, State.enter, State.setFrames_frames]
      by_cases hb : b = a
      · subst hb
        rw [Function.update_self, List.countP_cons]
        exact le_rfl
      · rw [Function.update_of_ne hb]
  | exchange a n target expected spurious =>
      refine h.of_le (fun b => ?_) fun b => ?_
      · rw [State.step]
        split
        · exact Nat.le.intro (countP_setTop henabled [] rfl b)
        · exact Nat.le.intro (countP_setTop henabled
            [.pushing n target (some (st.head target))] rfl b)
      · rw [State.step]
        split <;> exact le_rfl
  | loadHead a n target =>
      exact h.of_le (fun b => Nat.le.intro (countP_setTop henabled
        [.pushing n target (some (st.head target))] rfl b)) fun _ => le_rfl
  | takeReturned a n rest =>
      exact h.of_le (fun b => Nat.le.intro (countP_setTop henabled.1
        [.putting nodeSlot n .node, .draining (st.next n) rest.tail] rfl b)) fun _ => le_rfl
  | takeCarried a n s rest =>
      exact h.of_le (fun b => Nat.le.intro (countP_setTop henabled.1
        [.putting s (st.value n).ptr .remote, .returning n (st.next n) rest.tail] rfl b))
        fun _ => le_rfl
  | giveBack a n cur rest =>
      exact h.of_le (fun b => Nat.le.intro (countP_setTop henabled
        [.pushing n (L.owner n) none, .draining cur rest] rfl b)) fun _ => le_rfl
  | finish a rest =>
      exact h.of_le (fun b => Nat.le.intro (countP_setTop henabled [] rfl b))
        fun _ => le_rfl

end Provided

/-- Where nothing can go on, no call is in progress and no list has nodes. -/
theorem Consistent.settled_of_stuck (h : Consistent L st) (hprovided : Provided st)
    (hstuck : ∀ action, st.Enabled L action → ¬ st.GoesOn action) (a : Id) :
    st.frames a = [] ∧ st.list a = [] := by
  have hframes : st.frames a = [] := by
    cases hfs : st.frames a with
    | nil => rfl
    | cons f fs =>
        exfalso
        have htop : (st.frames a).head? = some f := by rw [hfs, List.head?_cons]
        cases f with
        | freeing x =>
            have hcount := hprovided a
            rw [hfs, List.countP_cons_of_pos rfl] at hcount
            obtain ⟨n, hn⟩ := List.exists_mem_of_length_pos (Nat.zero_lt_of_lt hcount)
            exact hstuck (.allocNode a x n) ⟨htop, hn⟩ trivial
        | putting s x origin => exact hstuck (.put a s x origin) htop trivial
        | pushing n target expected =>
            cases expected with
            | none => exact hstuck (.loadHead a n target) htop trivial
            | some expected => exact hstuck (.exchange a n target expected false) htop rfl
        | draining cur rest =>
            obtain ⟨hchain, haddressed⟩ := h.top_good htop
            cases cur with
            | none => exact hstuck (.finish a rest) htop trivial
            | some n =>
                by_cases hself : (st.value n).ptr = n
                · exact hstuck (.takeReturned a n rest) ⟨htop, hself⟩ trivial
                · have hn := haddressed n (hchain.eq_cons.1 ▸ List.mem_cons_self)
                  rw [Addressed, if_neg hself] at hn
                  exact hstuck (.takeCarried a n _ rest) ⟨htop, hself, hn.2.2⟩ trivial
        | returning n cur rest => exact hstuck (.giveBack a n cur rest) htop trivial
  refine ⟨hframes, ?_⟩
  by_contra hlist
  exact hstuck (.drain a) (by rw [State.Enabled, hframes]; rfl) hlist

/-! ## Coming home -/

/-- The places on the way home. -/
def Place.isComing : Place Id Obj → Bool
  | .hand _ _ | .listed _ | .held _ | .spent _ | .carried _ => true
  | _ => false

/-- An object on its way, or in the vector that it belongs to. -/
def Coming (L : Layout Id Obj) (st : State Id Obj) (x : Obj) : Prop :=
  (st.place x).isComing ∨ st.place x = .free (L.owner x) (L.slot x)

namespace Coming

variable {x : Obj}

theorem of_place (h : Coming L st x) {y : Obj} {p : Place Id Obj}
    (hplace : st'.place = Function.update st.place y p)
    (hp : p.isComing ∨ p = .free (L.owner y) (L.slot y)) : Coming L st' x := by
  unfold Coming
  rw [hplace]
  by_cases hxy : x = y
  · subst hxy
    rw [Function.update_self]
    exact hp
  · rw [Function.update_of_ne hxy]
    exact h

theorem stepOn (hx : Coming L st x) (h : Consistent L st) {action : Action Id Obj}
    (hstep : st.StepOn L action st') : Coming L st' x := by
  obtain ⟨⟨henabled, rfl⟩, hgoes⟩ := hstep
  cases action with
  | cut y | take a s y | takeOwn a s y | write holder y d p | destroy a used
  | deallocRemote a y | deallocLocal a y | deallocOwn a y => exact hgoes.elim
  | allocNode a y n =>
      have hheld : Coming L (st.setPlace n (.held a)) x := hx.of_place rfl (.inl rfl)
      exact hheld.of_place rfl (.inl rfl)
  | loadHead a n target | finish a rest => exact hx
  | exchange a n target expected spurious =>
      rw [State.step]
      split
      · exact hx.of_place rfl (.inl rfl)
      · exact hx
  | drain a =>
      have hplace : (st.step L (.drain a)).place x =
          if st.place x = .listed a then .held a else st.place x := rfl
      unfold Coming
      rw [hplace]
      split
      · exact .inl rfl
      · exact hx
  | takeReturned a n rest => exact hx.of_place rfl (.inl rfl)
  | takeCarried a n s rest =>
      have hspent : Coming L (st.setPlace n (.spent a)) x := hx.of_place rfl (.inl rfl)
      exact hspent.of_place rfl (.inl rfl)
  | put a s y origin =>
      obtain ⟨⟨howner, hslot⟩, -⟩ := h.top_good henabled
      refine hx.of_place (y := y) (p := .free a s) ?_ (.inr ?_)
      · cases origin <;> rfl
      · rw [howner, hslot]
  | giveBack a n cur rest => exact hx.of_place rfl (.inl rfl)

/-- Where nothing is in progress, it has come home. -/
theorem mem_free (hx : Coming L st x) (h : Consistent L st) (hframes : ∀ a, st.frames a = [])
    (hhead : ∀ a, st.head a = none) : x ∈ st.free (L.owner x) (L.slot x) := by
  refine (h.placed.mem_iff (p := .free _ _) rfl).2 ?_
  rcases hx with hcoming | hfree
  · have hmapped : (st.place x).isMapped := by
      cases hplace : st.place x <;> simp_all [Place.isComing, Place.isMapped]
    rcases h.place_of_settled hhead hframes hmapped with hplace | hplace | hplace
    · rw [hplace] at hcoming
      cases hcoming
    · rw [hplace] at hcoming
      cases hcoming
    · exact hplace
  · exact hfree

end Coming

/-! ## Runs -/

section Runs

variable [Fintype Id] {next : Obj → Option Obj} {value : Obj → Data Obj}
  {actions more : List (Action Id Obj)}

theorem owed_initial (t : Tariff) (next : Obj → Option Obj) (value : Obj → Data Obj) :
    t.owed (State.initial next value : State Id Obj) = 0 := by
  simp [Tariff.owed, Tariff.owedAt, State.initial]

theorem stale_initial (next : Obj → Option Obj) (value : Obj → Data Obj) :
    Optimistic.stale State.isStale (State.initial next value : State Id Obj) = ∅ := by
  simp [Optimistic.stale, State.isStale, State.initial]

theorem topmost_of_run (hrun : Run (State.Step L) (State.initial next value) actions st) :
    Topmost st :=
  hrun.invariant (fun _ _ _ h hstep => h.step hstep) (Topmost.initial next value)

/-- Whatever the interleaving and whatever steps cost, what the allocators do is paid for by
the frees: a remote free by one allocation of a node, two crossings, two objects that are
taken and put, and one node that is given back.  No node goes round and round. -/
theorem cost_le_of_run (t : Tariff)
    (hrun : Run (State.Step L) (State.initial next value) actions st) :
    total (State.step L) t.cost (State.initial next value) actions + t.owed st ≤
      total (State.step L) t.charge (State.initial next value) actions := by
  have hle := hrun.total_le t.cost t.charge t.owed (I := Consistent L) (fun _ _ _ hstep => hstep.2)
    (fun _ _ _ h hstep => h.step hstep) (fun _ _ h hstep => t.pays h hstep.1)
    (Consistent.initial L next value)
  rwa [owed_initial, Nat.zero_add] at hle

/-- Each change of a head makes one compare-exchange of each allocator fail at most, besides
those that fail for no reason. -/
theorem retries_le_of_run (hrun : Run (State.Step L) (State.initial next value) actions st) :
    total (State.step L) State.retries (State.initial next value) actions ≤
      Fintype.card Id *
        total (State.step L) State.changes (State.initial next value) actions := by
  have hle := (State.optimistic L).retries_le (fun _ _ _ hstep => hstep.2)
    (fun _ _ _ h hstep => ⟨h.1.step hstep, h.2.step hstep⟩) hrun
    ⟨Consistent.initial L next value, Topmost.initial next value⟩
  rwa [stale_initial, Finset.card_empty, Nat.zero_add] at hle

/-- Once nobody frees any more, what is in progress goes on for a bounded number of steps
only, in any order, and where nothing can go on, everything that was on its way is home. -/
theorem settles_of_run (hrun : Run (State.Step L) (State.initial next value) actions st)
    (hprovided : Provided st) (hmore : Run (State.StepOn L) st more st') :
    more.length ≤ Tariff.steps.owed st + Fintype.card Id * (Tariff.steps.owed st + 1) ∧
      ((∀ action, st'.Enabled L action → ¬ st'.GoesOn action) →
        (∀ a, st'.frames a = [] ∧ st'.head a = none) ∧
          ∀ x, (st.place x).isComing → x ∈ st'.free (L.owner x) (L.slot x)) := by
  have hconsistent := (invariants_of_run hrun).1
  have htopmost := topmost_of_run hrun
  constructor
  · have hlength := hmore.length_le (fun s a => Tariff.steps.cost s a + s.retries a)
      (fun _ _ _ hstep => hstep.1.2) fun _ _ _ hstep => State.one_le_of_goesOn hstep.2
    have hcost := hmore.total_le Tariff.steps.cost (fun _ _ => 0) Tariff.steps.owed
      (I := Consistent L) (fun _ _ _ hstep => hstep.1.2)
      (fun _ _ _ h hstep => h.step hstep.1)
      (fun s a h hstep => (Tariff.steps.pays h hstep.1.1).trans_eq
        (by rw [State.charge_of_goesOn _ hstep.2])) hconsistent
    have hretries := (State.optimistic L).retries_le (fun _ _ _ hstep => hstep.2)
      (fun _ _ _ h hstep => ⟨h.1.step hstep, h.2.step hstep⟩)
      (hmore.mono fun _ _ _ hstep => hstep.1) ⟨hconsistent, htopmost⟩
    have hchanges : total (State.step L) State.changes st more ≤ Tariff.steps.owed st := by
      have hmono : total (State.step L) State.changes st more ≤
          total (State.step L) Tariff.steps.cost st more := total_mono State.changes_le_cost st more
      rw [total_zero] at hcost
      omega
    have hcard := Nat.mul_le_mul_left (Fintype.card Id) hchanges
    have hstale : (Optimistic.stale State.isStale st).card ≤ Fintype.card Id :=
      Finset.card_le_univ _
    rw [total_add] at hlength
    rw [total_zero] at hcost
    rw [Nat.mul_succ]
    omega
  · intro hstuck
    obtain ⟨hconsistent', hprovided'⟩ := hmore.invariant
      (I := fun st => Consistent L st ∧ Provided st)
      (fun _ _ _ h hstep => ⟨h.1.step hstep.1, h.2.stepOn hstep⟩) ⟨hconsistent, hprovided⟩
    have hsettled := hconsistent'.settled_of_stuck hprovided' hstuck
    have hhead : ∀ a, st'.head a = none := by
      intro a
      have hchain := hconsistent'.chains a
      rw [(hsettled a).2] at hchain
      exact hchain
    refine ⟨fun a => ⟨(hsettled a).1, hhead a⟩, fun x hx => ?_⟩
    have hcoming := hmore.invariant (I := fun st => Consistent L st ∧ Coming L st x)
      (fun _ _ _ h hstep => ⟨h.1.step hstep.1, h.2.stepOn h.1 hstep⟩) ⟨hconsistent, .inl hx⟩
    exact hcoming.2.mem_free hcoming.1 (fun a => (hsettled a).1) hhead

/-- Nobody takes or frees a block in such a step. -/
theorem State.StepOn.live_eq {action : Action Id Obj} (hstep : st.StepOn L action st') :
    st'.live = st.live := by
  obtain ⟨⟨-, rfl⟩, hgoes⟩ := hstep
  cases action with
  | cut x | take a s x | takeOwn a s x | write holder x d p | destroy a used
  | deallocRemote a x | deallocLocal a x | deallocOwn a x => exact hgoes.elim
  | put a s x origin => cases origin <;> rfl
  | exchange a n target expected spurious =>
      rw [State.step]
      split <;> rfl
  | _ => rfl

/-- Where all objects of an allocator are in its vectors or its own, those that are out are its
own. -/
theorem Kept.out_eq (h : Kept L st) (hconsistent : Consistent L st) {a : Id}
    (hhome : ∀ x, L.owner x = a → (st.place x).isMapped →
      st.place x = .free a (L.slot x) ∨ st.place x = .own a) (s : Slot) :
    st.out a s = st.allocatedForSelf L a s := by
  have hperm : (st.cut a s).Perm (st.free a s ++ (st.own a).filter fun y => L.slot y = s) := by
    refine (List.perm_ext_iff_of_nodup (h.nodup a s) ?_).2 fun x => ?_
    · refine List.nodup_append.2 ⟨hconsistent.placed.nodup (p := .free a s) rfl,
        (hconsistent.placed.nodup (p := .own a) rfl).filter _, fun y hy z hz heq => ?_⟩
      have hfree := hconsistent.place_of_free hy
      rw [heq, hconsistent.place_of_own (List.mem_of_mem_filter hz)] at hfree
      cases hfree
    · rw [h.mem, List.mem_append, List.mem_filter, decide_eq_true_eq]
      constructor
      · rintro ⟨⟨howner, hslot⟩, hmapped⟩
        rcases hhome x howner hmapped with hx | hx
        · exact .inl ((hconsistent.placed.mem_iff (p := .free a s) rfl).2 (hslot ▸ hx))
        · exact .inr ⟨(hconsistent.placed.mem_iff (p := .own a) rfl).2 hx, hslot⟩
      · rintro (hx | ⟨hx, hslot⟩)
        · have hplace := hconsistent.place_of_free hx
          exact ⟨hconsistent.free_home x a s hplace, by rw [hplace]; rfl⟩
        · have hplace := hconsistent.place_of_own hx
          exact ⟨⟨hconsistent.own_home x a hplace, hslot⟩, by rw [hplace]; rfl⟩
  have hlength := hperm.length_eq
  rw [List.length_append, ← List.countP_eq_length_filter] at hlength
  rw [State.out, State.allocatedForSelf, hlength, Nat.add_sub_cancel_left]

/-- Once the blocks of an allocator have all been freed, wherever, and what was in progress has
been gone on with, `try_free_all_memory` of the allocator succeeds, if it is told the number of
the objects that are out. -/
theorem destroyable_of_run (hrun : Run (State.Step L) (State.initial next value) actions st)
    (hprovided : Provided st) {a : Id} (hfreed : ∀ x ∈ st.live, L.owner x ≠ a)
    (hmore : Run (State.StepOn L) st more st')
    (hstuck : ∀ action, st'.Enabled L action → ¬ st'.GoesOn action) :
    st'.Enabled L (.destroy a (st'.out a)) := by
  obtain ⟨hconsistent, -, hkept⟩ := invariants_of_run (hrun.append (hmore.mono fun _ _ _ h => h.1))
  obtain ⟨hprovided', hlive⟩ := hmore.invariant (I := fun m => Provided m ∧ m.live = st.live)
    (fun _ _ _ h hstep => ⟨h.1.stepOn hstep, hstep.live_eq.trans h.2⟩) ⟨hprovided, rfl⟩
  have hsettled := hconsistent.settled_of_stuck hprovided' hstuck
  have hhead : ∀ b, st'.head b = none := fun b => by
    have hchain := hconsistent.chains b
    rw [(hsettled b).2] at hchain
    exact hchain
  refine ⟨(hsettled a).1, fun _ => le_rfl, hkept.out_eq hconsistent fun x howner hmapped => ?_⟩
  rcases hconsistent.place_of_settled hhead (fun b => (hsettled b).1) hmapped with hx | hx | hx
  · have hmem := (hconsistent.placed.mem_iff (p := .live) rfl).2 hx
    exact absurd howner (hfreed x (hlive ▸ hmem))
  · exact .inr (howner ▸ hx)
  · exact .inl (howner ▸ hx)

end Runs

/-! ## A remote free -/

theorem remoteFree_cost :
    total (State.step twoAllocators) Tariff.pushes.cost beforeRemoteFree remoteFreeActions ≤ 2 :=
  (Nat.le_add_right _ _).trans
    ((cost_le_of_run Tariff.pushes remoteFreeActions_run).trans (by decide))

theorem remoteFree_retries :
    total (State.step twoAllocators) State.retries beforeRemoteFree remoteFreeActions ≤ 8 :=
  (retries_le_of_run remoteFreeActions_run).trans (by decide)

/-- Nothing can go on where nothing is in progress. -/
theorem stuck_of_settled (hframes : ∀ a, st.frames a = []) (hlist : ∀ a, st.list a = [])
    (action : Action Id Obj) (henabled : st.Enabled L action) : ¬ st.GoesOn action := by
  intro hgoes
  have htop : ∀ a f, (st.frames a).head? ≠ some f := fun a f h => by
    rw [hframes] at h
    cases h
  cases action with
  | drain a => exact hgoes (hlist a)
  | allocNode a x n => exact htop a _ henabled.1
  | takeReturned a n rest => exact htop a _ henabled.1
  | takeCarried a n s rest => exact htop a _ henabled.1
  | loadHead a n target => exact htop a _ henabled
  | exchange a n target expected spurious => exact htop a _ henabled
  | put a s x origin => exact htop a _ henabled
  | giveBack a n cur rest => exact htop a _ henabled
  | finish a rest => exact htop a _ henabled
  | _ => exact hgoes

instance State.decidableGoesOn (st : State Id Obj) : ∀ action, Decidable (st.GoesOn action)
  | .exchange _ _ _ _ spurious => inferInstanceAs (Decidable (spurious = false))
  | .drain a => inferInstanceAs (Decidable (st.list a ≠ []))
  | .allocNode _ _ _ | .loadHead _ _ _ | .takeReturned _ _ _ | .takeCarried _ _ _ _
  | .put _ _ _ _ | .giveBack _ _ _ _ | .finish _ _ => .isTrue trivial
  | .cut _ | .take _ _ _ | .takeOwn _ _ _ | .write _ _ _ _ | .destroy _ _
  | .deallocRemote _ _ | .deallocLocal _ _ | .deallocOwn _ _ => .isFalse id

/-- Go on where it is possible. -/
def State.guardedOn (L : Layout Id Obj) (st : State Id Obj) (action : Action Id Obj) :
    Option (State Id Obj) :=
  if st.Enabled L action ∧ st.GoesOn action then some (st.step L action) else none

theorem State.stepOn_of_guardedOn (L : Layout Id Obj) (st : State Id Obj) (action : Action Id Obj)
    (st' : State Id Obj) (h : st.guardedOn L action = some st') : st.StepOn L action st' := by
  unfold State.guardedOn at h
  split at h
  · next hgoes => exact ⟨⟨hgoes.1, (Option.some.inj h).symm⟩, hgoes.2⟩
  · cases h

/-- The second allocator is about to send the block to the first. -/
def freeingActions : List (Action Bool Nat) :=
  [.cut 0, .cut 1, .take false smallestSlot 0, .deallocRemote true 0]

theorem freeingActions_isSome :
    (freeingActions.foldlM (State.guarded twoAllocators) beforeRemoteFree).isSome = true := by
  decide

def whileFreeing : State Bool Nat :=
  (freeingActions.foldlM (State.guarded twoAllocators) beforeRemoteFree).get freeingActions_isSome

/-- The rest of the way. -/
def homeward : List (Action Bool Nat) :=
  [.allocNode true 0 1, .loadHead true 1 false, .exchange true 1 false none false, .drain false,
    .takeCarried false 1 smallestSlot [1], .put false smallestSlot 0 .remote,
    .giveBack false 1 none [], .loadHead false 1 true, .exchange false 1 true none false,
    .finish false [], .drain true, .takeReturned true 1 [1], .put true nodeSlot 1 .node,
    .finish true []]

theorem homeward_isSome :
    (homeward.foldlM (State.guardedOn twoAllocators) whileFreeing).isSome = true := by
  decide

def afterHomeward : State Bool Nat :=
  (homeward.foldlM (State.guardedOn twoAllocators) whileFreeing).get homeward_isSome

theorem remoteFree_settles :
    homeward.length ≤ 44 ∧ 0 ∈ afterHomeward.free false smallestSlot := by
  have hrun : Run (State.Step twoAllocators) beforeRemoteFree freeingActions whileFreeing :=
    Run.of_foldlM (State.step_of_guarded twoAllocators) (Option.some_get freeingActions_isSome).symm
  have hmore : Run (State.StepOn twoAllocators) whileFreeing homeward afterHomeward :=
    Run.of_foldlM (State.stepOn_of_guardedOn twoAllocators) (Option.some_get homeward_isSome).symm
  obtain ⟨hlength, hhome⟩ := settles_of_run hrun (by unfold Provided; decide) hmore
  refine ⟨hlength.trans (by decide), ?_⟩
  exact (hhome (stuck_of_settled (by decide) (by decide))).2 0 (by decide)

theorem remoteFree_destroyable : afterHomeward.frames false = [] ∧
    ∀ s, afterHomeward.out false s = afterHomeward.allocatedForSelf twoAllocators false s := by
  have hrun : Run (State.Step twoAllocators) beforeRemoteFree freeingActions whileFreeing :=
    Run.of_foldlM (State.step_of_guarded twoAllocators) (Option.some_get freeingActions_isSome).symm
  have hmore : Run (State.StepOn twoAllocators) whileFreeing homeward afterHomeward :=
    Run.of_foldlM (State.stepOn_of_guardedOn twoAllocators) (Option.some_get homeward_isSome).symm
  have hlive : whileFreeing.live = [] := by decide
  obtain ⟨hframes, -, hown⟩ := destroyable_of_run (a := false) hrun (by unfold Provided; decide)
    (by simp [hlive]) hmore (stuck_of_settled (by decide) (by decide))
  exact ⟨hframes, hown⟩

end Memalart.RemoteFree
