/-
# The code of one allocator as steps between all of them

What the allocator runs when it serves an object, takes one back, sends one to the allocator
that owns it, or looks at what has come in, are the steps that the interleavings of remote
frees are made of.  The vectors have room here, so that the code does not enter the allocator
again half way; the steps of other threads come in between as they do in any interleaving.
-/

import Memalart.FastPath
import Memalart.RemoteFreeInvariant
import Memalart.Routing

namespace Memalart.RemoteFree

open Lib Machine ThreadLocalAllocator

variable {P : Params} {A : AllocatorForSelfAllocations P} {w w' w'' : World P}
  {L : Layout Nat Nat} {me : Nat} {st st' st'' : State Nat Nat} {fs : List (Frame Nat Nat)}

/-- What the other side reads in a node. -/
def dataOf (node : Node) : Data Nat :=
  ⟨node.value.ptr, node.value.offsetToSlotInTable.getVec⟩

/-- An allocator, and all allocators, of which it is one.  They are named by the addresses of
their managers. -/
structure Shows (L : Layout Nat Nat) (me : Nat) (w : World P) (st : State Nat Nat) : Prop where
  manager : w.inner.nonLocalPtrManager = some me
  owner (x : Nat) : (w.os.metadata (chunkPtrToChunkMetadataPtr x)).nonLocalPtrManager = L.owner x
  slot : ∀ x ∈ st.live, (w.os.metadata (chunkPtrToChunkMetadataPtr x)).offsetToSlotInTable.getVec =
    some (L.slot x)
  free (s : Slot) : (w.inner.objectTable s).elems = st.free me s
  list : st.list me = w.incoming.map Node.addr
  value : ∀ node ∈ w.incoming, st.value node.addr = dataOf node

/-- A node that stands elsewhere is none of those that have come in. -/
theorem Shows.addr_ne {n : Nat} (hs : Shows L me w st) (hc : Consistent L st)
    (hplace : st.place n ≠ .listed me) : ∀ other ∈ w.incoming, other.addr ≠ n := by
  rintro other hother rfl
  refine hplace (hc.place_of_list ?_)
  rw [hs.list]
  exact List.mem_map_of_mem hother

theorem top_of_frames {f : Frame Nat Nat} (h : st.frames me = f :: fs) :
    (st.frames me).head? = some f := by
  rw [h]
  rfl

/-- What has been sent to others, and nothing else, stands on their lists, and no node but
these has been written. -/
structure Posted (me : Nat) (nodes : List Nat) (w w' : World P) (st st' : State Nat Nat) :
    Prop where
  value : ∀ n ∉ nodes, st'.value n = st.value n
  sent : ∃ sent : List (Nat × Node), w'.outbox = sent ++ w.outbox ∧
    (∀ e ∈ sent, e.2.addr ∈ nodes ∧ st'.value e.2.addr = dataOf e.2) ∧
    ∀ b, b ≠ me → st'.list b = (sent.filter fun e => e.1 = b).map (fun e => e.2.addr) ++ st.list b

namespace Posted

variable {nodes nodes' : List Nat}

theorem of_eq (houtbox : w'.outbox = w.outbox) (hvalue : st'.value = st.value)
    (hlist : ∀ b, b ≠ me → st'.list b = st.list b) : Posted me nodes w w' st st' where
  value n _ := congrFun hvalue n
  sent := ⟨[], houtbox, nofun, hlist⟩

/-- What is sent first stays as it is. -/
theorem trans (h : Posted me nodes w w' st st') (h' : Posted me nodes' w' w'' st' st'')
    (hdisjoint : nodes.Disjoint nodes') : Posted me (nodes ++ nodes') w w'' st st'' where
  value n hn := by
    rw [List.mem_append, not_or] at hn
    exact (h'.value n hn.2).trans (h.value n hn.1)
  sent := by
    obtain ⟨sent, houtbox, hsent, hlist⟩ := h.sent
    obtain ⟨sent', houtbox', hsent', hlist'⟩ := h'.sent
    refine ⟨sent' ++ sent, by rw [houtbox', houtbox, List.append_assoc], fun e he => ?_, fun b hb => ?_⟩
    · rcases List.mem_append.1 he with he | he
      · exact ⟨List.mem_append_right _ (hsent' e he).1, (hsent' e he).2⟩
      · obtain ⟨hmem, hvalue⟩ := hsent e he
        exact ⟨List.mem_append_left _ hmem, (h'.value _ (hdisjoint hmem)).trans hvalue⟩
    · rw [hlist' b hb, hlist b hb, List.filter_append, List.map_append, List.append_assoc]

end Posted

/-! ## One node on its way to a list -/

/-- `add_new_node_ptr`, when no other thread comes in between: the head is loaded and
exchanged. -/
theorem exists_pushed (node : Node) {target : Nat} (hs : Shows L me w st)
    (hframes : st.frames me = .pushing node.addr target none :: fs)
    (hvalue : st.value node.addr = dataOf node)
    (hret : (addNewNode target node : M P Unit).Returns w () w') :
    ∃ actions st', Run (State.Step L) st actions st' ∧ Shows L me w' st' ∧ st'.frames me = fs ∧
      st'.value = st.value ∧ Posted me [node.addr] w w' st st' ∧
      w'.inner.objectTable = w.inner.objectTable := by
  let loaded := st.step L (.loadHead me node.addr target)
  let pushed := loaded.step L (.exchange me node.addr target (st.head target) false)
  have hloaded : loaded.frames me = .pushing node.addr target (some (st.head target)) :: fs := by
    simp [loaded, State.step, State.setTop, hframes]
  have hrun : Run (State.Step L) st [.loadHead me node.addr target,
      .exchange me node.addr target (st.head target) false] pushed := by
    exact .cons ⟨top_of_frames hframes, rfl⟩ (.cons ⟨top_of_frames hloaded, rfl⟩ (.nil _))
  have hpushed : pushed = (((loaded.setNext node.addr (st.head target)).setTop me []).setList target
      (some node.addr) (node.addr :: loaded.list target)).setPlace node.addr (.listed target) := by
    simp [pushed, State.step, loaded, State.setTop]
  have hlist : pushed.list = Function.update st.list target (node.addr :: st.list target) := by
    rw [hpushed]
    rfl
  have hpvalue : pushed.value = st.value := by
    rw [hpushed]
    rfl
  have hfree : pushed.free = st.free := by
    rw [hpushed]
    rfl
  have hlive : pushed.live = st.live := by
    rw [hpushed]
    rfl
  have hpframes : pushed.frames me = fs := by
    rw [hpushed]
    simp [State.setTop, hloaded]
  refine ⟨_, pushed, hrun, ?_⟩
  unfold Machine.Returns addNewNode at hret
  by_cases hnull : target = 0
  · rw [if_pos hnull] at hret
    cases hret
  · rw [if_neg hnull, hs.manager] at hret
    by_cases hmine : me = target
    · subst hmine
      rw [if_pos rfl] at hret
      cases hret
      refine ⟨⟨hs.manager, hs.owner, ?_, ?_, ?_, ?_⟩, hpframes, hpvalue, .of_eq rfl hpvalue ?_, rfl⟩
      · rw [hlive]
        exact hs.slot
      · rw [hfree]
        exact hs.free
      · rw [hlist, Function.update_self, hs.list]
        rfl
      · rw [hpvalue]
        exact List.forall_mem_cons.2 ⟨hvalue, hs.value⟩
      · intro b hb
        rw [hlist, Function.update_of_ne hb]
    · rw [if_neg fun heq => hmine (Option.some.inj heq)] at hret
      cases hret
      refine ⟨⟨hs.manager, hs.owner, ?_, ?_, ?_, ?_⟩, hpframes, hpvalue, ⟨?_, ?_⟩, rfl⟩
      · rw [hlive]
        exact hs.slot
      · rw [hfree]
        exact hs.free
      · rw [hlist, Function.update_of_ne hmine, hs.list]
      · rw [hpvalue]
        exact hs.value
      · intro n _
        rw [hpvalue]
      · refine ⟨[(target, node)], rfl, ?_, fun b hb => ?_⟩
        · rw [hpvalue]
          simpa using hvalue
        · rw [hlist]
          by_cases hb' : b = target
          · subst hb'
            simp
          · rw [Function.update_of_ne hb']
            simp [Ne.symm hb']

/-- Sending after something that sends nothing. -/
theorem Posted.after {nodes : List Nat} (h : Posted me nodes w' w'' st' st'')
    (houtbox : w'.outbox = w.outbox) (hvalue : ∀ n ∉ nodes, st'.value n = st.value n)
    (hlist : st'.list = st.list) : Posted me nodes w w'' st st'' where
  value n hn := (h.value n hn).trans (hvalue n hn)
  sent := by
    obtain ⟨sent, hsent⟩ := h.sent
    rw [houtbox, hlist] at hsent
    exact ⟨sent, hsent⟩

/-! ## The loop -/

/-- Every vector of free objects has room for so many more. -/
def Room (k : Nat) (w : World P) : Prop :=
  ∀ s, (w.inner.objectTable s).elems.length + k ≤ (w.inner.objectTable s).cap

/-- One object is put into its vector. -/
theorem Shows.put {x : Nat} {s : Slot} {origin : Origin} {vec : SelfAllocatedVec Nat}
    (hs : Shows L me w st) (hframes : st.frames me = .putting s x origin :: fs)
    (helems : vec.elems = x :: (w.inner.objectTable s).elems) :
    Shows L me (w.setVec (.object s) vec) (st.step L (.put me s x origin)) ∧
      (st.step L (.put me s x origin)).frames me = fs ∧
      (st.step L (.put me s x origin)).value = st.value ∧
      (st.step L (.put me s x origin)).list = st.list ∧
      (st.step L (.put me s x origin)).next = st.next := by
  have hkeeps : ∀ st₁ : State Nat Nat, (st₁.complete x origin).frames = st₁.frames ∧
      (st₁.complete x origin).value = st₁.value ∧ (st₁.complete x origin).list = st₁.list ∧
      (st₁.complete x origin).free = st₁.free ∧ (st₁.complete x origin).live = st₁.live ∧
      (st₁.complete x origin).next = st₁.next := by
    intro st₁
    cases origin <;> exact ⟨rfl, rfl, rfl, rfl, rfl, rfl⟩
  obtain ⟨hf, hv, hl, hfree, hlive, hn⟩ := hkeeps
    (((st.setTop me []).setFree me s (x :: st.free me s)).setPlace x (.free me s))
  refine ⟨⟨hs.manager, hs.owner, ?_, fun t => ?_, ?_, ?_⟩, ?_, hv, hl, hn⟩
  · show ∀ y ∈ (State.complete x origin _).live, _
    rw [hlive]
    exact hs.slot
  · show (if t = s then vec else w.inner.objectTable t).elems = (State.complete x origin _).free me t
    rw [hfree]
    by_cases ht : t = s
    · subst ht
      rw [if_pos rfl, helems, hs.free]
      simp [State.setTop]
    · rw [if_neg ht, hs.free]
      simp [State.setTop, Function.update_of_ne ht]
  · show (State.complete x origin _).list me = _
    rw [hl]
    exact hs.list
  · show ∀ node ∈ w.incoming, (State.complete x origin _).value node.addr = dataOf node
    rw [hv]
    exact hs.value
  · show (State.complete x origin _).frames me = fs
    rw [hf]
    simp [State.setTop, hframes]

theorem Room.lt {k : Nat} (hroom : Room (k + 1) w) (s : Slot) :
    (w.inner.objectTable s).elems.length < (w.inner.objectTable s).cap :=
  Nat.lt_of_lt_of_le (Nat.lt_add_of_pos_right (Nat.succ_pos k)) (hroom s)

theorem Room.setVec {k x : Nat} {s : Slot} {vec : SelfAllocatedVec Nat} (hroom : Room (k + 1) w)
    (helems : vec.elems = x :: (w.inner.objectTable s).elems)
    (hcap : vec.cap = (w.inner.objectTable s).cap) : Room k (w.setVec (.object s) vec) := by
  intro t
  show (if t = s then vec else w.inner.objectTable t).elems.length + k ≤
    (if t = s then vec else w.inner.objectTable t).cap
  have ht := hroom t
  by_cases heq : t = s
  · subst heq
    rw [if_pos rfl, helems, hcap, List.length_cons]
    omega
  · rw [if_neg heq]
    omega

/-- A node that has come back goes into the vector of the nodes. -/
theorem exists_takenReturned {node : Node} {rest : List Nat} {k : Nat} (hs : Shows L me w st)
    (hframes : st.frames me = .draining (some node.addr) (node.addr :: rest) :: fs)
    (hvalue : st.value node.addr = dataOf node) (hback : node.value.ptr = node.addr)
    (hroom : Room (k + 1) w) (hret : (handleNode A node).Returns w () w') :
    ∃ actions st' cur', Run (State.Step L) st actions st' ∧ Shows L me w' st' ∧
      st'.frames me = .draining cur' rest :: fs ∧ Posted me [node.addr] w w' st st' ∧ Room k w' := by
  unfold handleNode at hret
  rw [if_pos hback] at hret
  obtain ⟨s, w₁, hfound, hpush⟩ := returns_bind.1 hret
  obtain ⟨hslot, rfl⟩ := returns_orFault.1 hfound
  obtain rfl : nodeSlot = s := Option.some.inj (ofCommonIdx_sizeOfNode.symm.trans hslot)
  obtain ⟨ok, w₂, hpushed, hok⟩ := returns_bind.1 hpush
  obtain ⟨vec, helems, -, hcap, rfl, rfl⟩ := returns_push_fast (hroom.lt nodeSlot) hpushed
  obtain ⟨-, rfl⟩ := returns_pure.1 hok
  let taken := st.step L (.takeReturned me node.addr (node.addr :: rest))
  have htaken : taken.frames me =
      .putting nodeSlot node.addr .node :: .draining (st.next node.addr) rest :: fs := by
    simp [taken, State.step, State.setTop, hframes]
  have hshows : Shows L me w₁ taken := ⟨hs.manager, hs.owner, hs.slot, hs.free, hs.list, hs.value⟩
  obtain ⟨hput, hputFrames, hputValue, hputList, -⟩ := hshows.put htaken helems
  have htake : State.Step L st (.takeReturned me node.addr (node.addr :: rest)) taken :=
    ⟨⟨top_of_frames hframes, by rw [hvalue]; exact hback⟩, rfl⟩
  have hputStep : State.Step L taken (.put me nodeSlot node.addr .node)
      (taken.step L (.put me nodeSlot node.addr .node)) := ⟨top_of_frames htaken, rfl⟩
  exact ⟨_, _, _, .cons htake (.cons hputStep (.nil _)), hput, hputFrames,
    .of_eq rfl hputValue fun b _ => congrFun hputList b, hroom.setVec helems hcap⟩

/-- What a node carries goes into its vector, and the node back to its own allocator. -/
theorem exists_takenCarried {node : Node} {rest : List Nat} {k : Nat}
    (hc : Consistent L st) (hs : Shows L me w st)
    (hframes : st.frames me = .draining (some node.addr) (node.addr :: rest) :: fs)
    (hvalue : st.value node.addr = dataOf node) (hback : node.value.ptr ≠ node.addr)
    (hroom : Room (k + 1) w) (hret : (handleNode A node).Returns w () w') :
    ∃ actions st' cur', Run (State.Step L) st actions st' ∧ Shows L me w' st' ∧
      st'.frames me = .draining cur' rest :: fs ∧ Posted me [node.addr] w w' st st' ∧ Room k w' := by
  unfold handleNode at hret
  rw [if_neg hback] at hret
  obtain ⟨s, w₁, hfound, hrest⟩ := returns_bind.1 hret
  obtain ⟨hslot, rfl⟩ := returns_orFault.1 hfound
  obtain ⟨_, w₂, hpush, hret⟩ := returns_bind.1 hrest
  obtain ⟨vec, helems, -, hcap, rfl⟩ := returns_pushObjectOrPanic_fast (hroom.lt s) hpush
  obtain ⟨metadata, w₃, hmetadata, hret⟩ := returns_bind.1 hret
  obtain ⟨rfl, rfl⟩ := returns_gets.1 hmetadata
  have hptr : (st.value node.addr).ptr = node.value.ptr := by
    rw [hvalue]
    rfl
  let taken := st.step L (.takeCarried me node.addr s (node.addr :: rest))
  have htaken : taken.frames me = .putting s node.value.ptr .remote ::
      .returning node.addr (st.next node.addr) rest :: fs := by
    simp [taken, State.step, State.setTop, hframes, hptr]
  have hshows : Shows L me w₁ taken := ⟨hs.manager, hs.owner, hs.slot, hs.free, hs.list, hs.value⟩
  obtain ⟨hput, hputFrames, hputValue, hputList, -⟩ := hshows.put htaken helems
  let home := taken.step L (.put me s node.value.ptr .remote)
  let given := home.step L (.giveBack me node.addr (st.next node.addr) rest)
  have hgivenFrames : given.frames me = .pushing node.addr (L.owner node.addr) none ::
      .draining (st.next node.addr) rest :: fs := by
    simp [given, home, State.step, State.setTop] at hputFrames ⊢
    simp [hputFrames]
  have hgivenValue : given.value = Function.update st.value node.addr ⟨node.addr, none⟩ := by
    show Function.update home.value node.addr _ = _
    rw [show home.value = st.value from hputValue]
  have hplace : st.place node.addr = .held me :=
    hc.place_of_top (top_of_frames hframes) (List.mem_map_of_mem List.mem_cons_self)
  have hnot : ∀ other ∈ w₁.incoming, other.addr ≠ node.addr :=
    hs.addr_ne hc (by rw [hplace]; simp)
  have hgiven : Shows L me (w₁.setVec (.object s) vec) given := by
    refine ⟨hs.manager, hs.owner, hput.slot, hput.free, hput.list, fun other hother => ?_⟩
    rw [hgivenValue, Function.update_of_ne (hnot other hother)]
    exact hs.value other hother
  rw [show ((w₁.setVec (.object s) vec).os.metadata _).nonLocalPtrManager = L.owner node.addr from
    hs.owner node.addr] at hret
  obtain ⟨actions, st', hrun, hshows', hframes', -, hposted, htable⟩ := exists_pushed
    ⟨node.addr, node.addr, .random⟩ hgiven hgivenFrames
    (by rw [hgivenValue, Function.update_self]; rfl) hret
  have htake : State.Step L st (.takeCarried me node.addr s (node.addr :: rest)) taken :=
    ⟨⟨top_of_frames hframes, by rw [hptr]; exact hback, by rw [hvalue]; exact hslot⟩, rfl⟩
  have hputStep : State.Step L taken (.put me s node.value.ptr .remote) home :=
    ⟨top_of_frames htaken, rfl⟩
  have hgive : State.Step L home (.giveBack me node.addr (st.next node.addr) rest) given :=
    ⟨top_of_frames hputFrames, rfl⟩
  refine ⟨_, st', _, .cons htake (.cons hputStep (.cons hgive hrun)), hshows', hframes', ?_, ?_⟩
  · refine hposted.after rfl (fun n hn => ?_) hputList
    rw [hgivenValue, Function.update_of_ne fun heq => hn (List.mem_singleton.2 heq)]
  · intro t
    rw [htable]
    exact hroom.setVec helems hcap t

/-- One node is handled. -/
theorem exists_handled {node : Node} {cur : Option Nat} {rest : List Nat} {k : Nat}
    (hc : Consistent L st) (hs : Shows L me w st)
    (hframes : st.frames me = .draining cur (node.addr :: rest) :: fs)
    (hvalue : st.value node.addr = dataOf node) (hroom : Room (k + 1) w)
    (hret : (handleNode A node).Returns w () w') :
    ∃ actions st' cur', Run (State.Step L) st actions st' ∧ Shows L me w' st' ∧
      st'.frames me = .draining cur' rest :: fs ∧ Posted me [node.addr] w w' st st' ∧ Room k w' := by
  obtain ⟨rfl, -⟩ := (hc.top_good (top_of_frames hframes)).1
  by_cases hback : node.value.ptr = node.addr
  · exact exists_takenReturned hs hframes hvalue hback hroom hret
  · exact exists_takenCarried hc hs hframes hvalue hback hroom hret

/-- All nodes are handled, one after the other. -/
theorem exists_handledAll (nodes : List Node) :
    ∀ {w : World P} {st : State Nat Nat} {cur : Option Nat}, Consistent L st → Shows L me w st →
      st.frames me = .draining cur (nodes.map Node.addr) :: fs →
      (∀ node ∈ nodes, st.value node.addr = dataOf node) → (nodes.map Node.addr).Nodup →
      Room nodes.length w → (Machine.forEach nodes (handleNode A)).Returns w () w' →
      ∃ actions st' cur', Run (State.Step L) st actions st' ∧ Shows L me w' st' ∧
        st'.frames me = .draining cur' [] :: fs ∧
        Posted me (nodes.map Node.addr) w w' st st' := by
  induction nodes with
  | nil =>
      intro w st cur _ hs hframes _ _ _ hret
      obtain ⟨-, rfl⟩ := returns_pure.1 hret
      exact ⟨[], st, cur, .nil st, hs, hframes, .of_eq rfl rfl fun _ _ => rfl⟩
  | cons node nodes ih =>
      intro w st cur hc hs hframes hvalue hnodup hroom hret
      obtain ⟨_, w₁, hfirst, hrest⟩ := returns_bind.1 hret
      obtain ⟨hnot, hnodup'⟩ := List.nodup_cons.1 hnodup
      obtain ⟨first, st₁, cur₁, hrun₁, hs₁, hframes₁, hposted₁, hroom₁⟩ :=
        exists_handled hc hs hframes (hvalue node List.mem_cons_self) hroom hfirst
      have hc₁ : Consistent L st₁ := hrun₁.invariant (fun _ _ _ h hstep => h.step hstep) hc
      have hvalue₁ : ∀ other ∈ nodes, st₁.value other.addr = dataOf other := by
        intro other hother
        have hne : other.addr ∉ [node.addr] := fun hmem => hnot <| by
          rw [← List.mem_singleton.1 hmem]
          exact List.mem_map_of_mem hother
        rw [hposted₁.value _ hne]
        exact hvalue other (List.mem_cons_of_mem _ hother)
      obtain ⟨second, st₂, cur₂, hrun₂, hs₂, hframes₂, hposted₂⟩ :=
        ih hc₁ hs₁ hframes₁ hvalue₁ hnodup' hroom₁ hrest
      exact ⟨first ++ second, st₂, cur₂, hrun₁.append hrun₂, hs₂, hframes₂,
        hposted₁.trans hposted₂ (List.singleton_disjoint.2 hnot)⟩

/-- `check_non_local_ptrs` is a run of the steps: the list is drained, every node is handled,
and what goes back to other allocators stands on their lists. -/
theorem exists_checked (hc : Consistent L st) (hs : Shows L me w st)
    (hmay : mayEnter (st.frames me)) (hroom : Room w.incoming.length w)
    (hret : (checkNonLocalPtrs A).Returns w () w') :
    ∃ actions st', Run (State.Step L) st actions st' ∧ Shows L me w' st' ∧
      st'.frames me = st.frames me ∧ Posted me (w.incoming.map Node.addr) w w' st st' := by
  obtain ⟨manager, w₁, hmanager, hret⟩ := returns_bind.1 hret
  obtain ⟨rfl, rfl⟩ := returns_gets.1 hmanager
  rw [hs.manager] at hret
  obtain ⟨nodes, w₂, htaken, hret⟩ := returns_bind.1 hret
  obtain ⟨rfl, rfl⟩ : nodes = w₁.incoming ∧ w₂ = { w₁ with incoming := [] } := by
    cases htaken
    exact ⟨rfl, rfl⟩
  let drained := st.step L (.drain me)
  have hframes : drained.frames me =
      .draining (st.head me) (w₁.incoming.map Node.addr) :: st.frames me := by
    rw [← hs.list]
    exact Function.update_self _ _ _
  have hdrained : State.Step L st (.drain me) drained := ⟨hmay, rfl⟩
  have hshows : Shows L me { w₁ with incoming := [] } drained := by
    refine ⟨hs.manager, hs.owner, hs.slot, hs.free, Function.update_self _ _ _, nofun⟩
  have hnodup : (w₁.incoming.map Node.addr).Nodup := by
    rw [← hs.list]
    exact hc.placed.nodup (p := .listed me) rfl
  obtain ⟨actions, st₁, cur, hrun, hs₁, hframes₁, hposted⟩ := exists_handledAll w₁.incoming
    (hc.step hdrained) hshows hframes hs.value hnodup hroom hret
  have hc₁ : Consistent L st₁ := hrun.invariant (fun _ _ _ h hstep => h.step hstep) (hc.step hdrained)
  have htop₁ := top_of_frames hframes₁
  obtain rfl : cur = none := (hc₁.top_good htop₁).1
  have hfinish : State.Step L st₁ (.finish me []) (st₁.step L (.finish me [])) := ⟨htop₁, rfl⟩
  refine ⟨.drain me :: (actions ++ [.finish me []]), st₁.step L (.finish me []),
    .cons hdrained (hrun.append (.cons hfinish (.nil _))),
    ⟨hs₁.manager, hs₁.owner, hs₁.slot, hs₁.free, hs₁.list, hs₁.value⟩, ?_, ?_⟩
  · show Function.update st₁.frames me (([] : List _) ++ (st₁.frames me).tail) me = _
    rw [Function.update_self, hframes₁]
    rfl
  · exact ⟨hposted.value, by
      obtain ⟨sent, houtbox, hsent, hlist⟩ := hposted.sent
      refine ⟨sent, houtbox, hsent, fun b hb => (hlist b hb).trans ?_⟩
      show _ ++ Function.update st.list me [] b = _
      rw [Function.update_of_ne hb]⟩

/-! ## Objects of the allocator itself -/

/-- Before anything has been cut. -/
theorem shows_initial (next : Nat → Option Nat) (value : Nat → Data Nat)
    (hmanager : w.inner.nonLocalPtrManager = some me)
    (howner : ∀ x, (w.os.metadata (chunkPtrToChunkMetadataPtr x)).nonLocalPtrManager = L.owner x)
    (hfree : ∀ s, (w.inner.objectTable s).elems = []) (hincoming : w.incoming = []) :
    Shows L me w (State.initial next value) := by
  refine ⟨hmanager, howner, nofun, hfree, ?_, ?_⟩
  · rw [hincoming]
    rfl
  · rw [hincoming]
    exact nofun

/-- An object of a new chunk comes into its vector. -/
theorem Shows.cut {x : Nat} {vec : SelfAllocatedVec Nat} (hs : Shows L me w st)
    (hmine : L.owner x = me)
    (helems : vec.elems = x :: (w.inner.objectTable (L.slot x)).elems) :
    Shows L me (w.setVec (.object (L.slot x)) vec) (st.step L (.cut x)) := by
  refine ⟨hs.manager, hs.owner, hs.slot, fun t => ?_, hs.list, hs.value⟩
  show (if t = L.slot x then vec else w.inner.objectTable t).elems =
    Function.update st.free (L.owner x) _ me t
  rw [hmine, Function.update_self]
  by_cases ht : t = L.slot x
  · rw [if_pos ht, ht, Function.update_self, helems, hs.free]
  · rw [if_neg ht, Function.update_of_ne ht, hs.free]

/-- A block is the latest object of its vector. -/
theorem exists_taken {size x : Nat} {s : Slot} {vec : SelfAllocatedVec Nat} (hs : Shows L me w st)
    (hmay : mayEnter (st.frames me)) (hslot : slotForSize size = some s)
    (hpop : (w.inner.objectTable s).pop = some (x, vec))
    (hrouted : (w.os.metadata (chunkPtrToChunkMetadataPtr x)).offsetToSlotInTable.getVec =
      some (L.slot x)) :
    (tryAlloc A size).Returns w (some x) (w.setVec (.object s) vec) ∧
      ∃ st', State.Step L st (.take me s x) st' ∧ Shows L me (w.setVec (.object s) vec) st' := by
  obtain ⟨helems, -, -⟩ := SelfAllocatedVec.pop_eq_some hpop
  have hfree : st.free me s = x :: vec.elems := (hs.free s).symm.trans helems
  have hmem : x ∈ st.free me s := by
    rw [hfree]
    exact List.mem_cons_self
  refine ⟨returns_tryAlloc_fast hslot hpop, _, ⟨⟨hmay, hmem⟩, rfl⟩,
    hs.manager, hs.owner, List.forall_mem_cons.2 ⟨hrouted, hs.slot⟩, fun t => ?_, hs.list, hs.value⟩
  show (if t = s then vec else w.inner.objectTable t).elems =
    Function.update st.free me (Function.update (st.free me) s ((st.free me s).erase x)) me t
  rw [Function.update_self]
  by_cases ht : t = s
  · rw [if_pos ht, ht, Function.update_self, hfree, List.erase_cons_head]
  · rw [if_neg ht, Function.update_of_ne ht, hs.free]

/-- A block of the allocator itself goes back into its vector. -/
theorem exists_localFree {x : Nat} (hs : Shows L me w st) (hmay : mayEnter (st.frames me))
    (hlive : x ∈ st.live) (howner : L.owner x = me)
    (hroom : (w.inner.objectTable (L.slot x)).elems.length < (w.inner.objectTable (L.slot x)).cap)
    (hret : (deallocObject A (L.slot x) x).Returns w () w') :
    ∃ st', Run (State.Step L) st [.deallocLocal me x, .put me (L.slot x) x .localFree] st' ∧
      Shows L me w' st' ∧ st'.frames me = st.frames me := by
  obtain ⟨metadata, w₁, hmetadata, hret⟩ := returns_bind.1 hret
  obtain ⟨rfl, rfl⟩ := returns_gets.1 hmetadata
  obtain ⟨manager, w₂, hmanager, hret⟩ := returns_bind.1 hret
  obtain ⟨rfl, rfl⟩ := returns_gets.1 hmanager
  rw [hs.manager, hs.owner, Option.getD_some, if_pos howner] at hret
  obtain ⟨vec, helems, -, -, rfl⟩ := returns_pushObjectOrPanic_fast hroom hret
  let freed := st.step L (.deallocLocal me x)
  have hfreed : freed.frames me = .putting (L.slot x) x .localFree :: st.frames me :=
    Function.update_self _ _ _
  have hshows : Shows L me w₂ freed :=
    ⟨hs.manager, hs.owner, fun y hy => hs.slot y (List.mem_of_mem_erase hy), hs.free, hs.list, hs.value⟩
  obtain ⟨hput, hputFrames, -⟩ := hshows.put hfreed helems
  have hfirst : State.Step L st (.deallocLocal me x) freed := ⟨⟨hmay, hlive, howner⟩, rfl⟩
  exact ⟨_, .cons hfirst (.cons ⟨top_of_frames hfreed, rfl⟩ (.nil _)), hput, hputFrames⟩

/-! ## A block that another allocator owns -/

/-- A node is taken from the free list, and the object written to it. -/
theorem Shows.carry {x n : Nat} {vec : SelfAllocatedVec Nat} (hc : Consistent L st)
    (hs : Shows L me w st) (helems : (w.inner.objectTable nodeSlot).elems = n :: vec.elems)
    {carrying : State Nat Nat}
    (hcarrying : carrying = (st.step L (.deallocRemote me x)).step L (.allocNode me x n)) :
    Shows L me (w.setVec (.object nodeSlot) vec) carrying ∧
      carrying.frames me = .pushing n (L.owner x) none :: st.frames me ∧
      carrying.value = Function.update st.value n ⟨x, some (L.slot x)⟩ ∧
      carrying.list = st.list := by
  subst hcarrying
  have hfree : st.free me nodeSlot = n :: vec.elems := (hs.free nodeSlot).symm.trans helems
  have hmem : n ∈ st.free me nodeSlot := by
    rw [hfree]
    exact List.mem_cons_self
  have hplace : st.place n = .free me nodeSlot :=
    (hc.placed.mem_iff (p := .free me nodeSlot) rfl).1 hmem
  have hnot : ∀ other ∈ w.incoming, other.addr ≠ n := hs.addr_ne hc (by rw [hplace]; simp)
  refine ⟨⟨hs.manager, hs.owner, fun y hy => hs.slot y (List.mem_of_mem_erase hy), fun t => ?_,
    hs.list, fun other hother => ?_⟩, ?_, rfl, rfl⟩
  · show (if t = nodeSlot then vec else w.inner.objectTable t).elems =
      Function.update st.free me (Function.update (st.free me) nodeSlot
        ((st.free me nodeSlot).erase n)) me t
    rw [Function.update_self]
    by_cases ht : t = nodeSlot
    · rw [if_pos ht, ht, Function.update_self, hfree, List.erase_cons_head]
    · rw [if_neg ht, Function.update_of_ne ht, hs.free]
  · show Function.update st.value n _ other.addr = _
    rw [Function.update_of_ne (hnot other hother)]
    exact hs.value other hother
  · simp [State.step, State.setTop, State.enter]

/-- A block of another allocator goes into a node, and the node on the list of the owner. -/
theorem exists_remoteFree {depth x : Nat} {s : Slot} (hc : Consistent L st) (hs : Shows L me w st)
    (hmay : mayEnter (st.frames me)) (hlive : x ∈ st.live) (howner : L.owner x ≠ me)
    (hnode : (w.inner.objectTable nodeSlot).elems ≠ [])
    (hret : (deallocObject (threadLocalAllocator depth) s x).Returns w () w') :
    ∃ n actions st', Run (State.Step L) st (.deallocRemote me x :: .allocNode me x n :: actions) st' ∧
      Shows L me w' st' ∧ st'.frames me = st.frames me ∧ Posted me [n] w w' st st' := by
  obtain ⟨metadata, w₁, hmetadata, hret⟩ := returns_bind.1 hret
  obtain ⟨rfl, rfl⟩ := returns_gets.1 hmetadata
  obtain ⟨manager, w₂, hmanager, hret⟩ := returns_bind.1 hret
  obtain ⟨rfl, rfl⟩ := returns_gets.1 hmanager
  rw [hs.manager, hs.owner, Option.getD_some, if_neg howner] at hret
  obtain ⟨_, w₃, hmanager, hret⟩ := returns_bind.1 hret
  have hkept : w₃ = w₂ := by
    obtain ⟨found, w₄, hfound, hrest⟩ := returns_bind.1 hmanager
    obtain ⟨rfl, rfl⟩ := returns_gets.1 hfound
    rw [hs.manager] at hrest
    exact (returns_pure.1 hrest).2
  subst hkept
  obtain ⟨r, w₄, halloc, hret⟩ := returns_bind.1 hret
  cases depth with
  | zero => exact absurd halloc not_returns_fault
  | succ depth =>
      cases hpop : (w₃.inner.objectTable nodeSlot).pop with
      | none => exact absurd (SelfAllocatedVec.pop_eq_none.1 hpop) hnode
      | some popped =>
          obtain ⟨n, vec⟩ := popped
          obtain ⟨helems, -, -⟩ := SelfAllocatedVec.pop_eq_some hpop
          have hfast := returns_tryAlloc_fast (A := threadLocalAllocator depth)
            (by decide : slotForSize sizeOfNode = some nodeSlot) hpop
          obtain ⟨rfl, rfl⟩ := Prod.mk.inj (Except.ok.inj (halloc.symm.trans hfast))
          let freeing := st.step L (.deallocRemote me x)
          let carrying := freeing.step L (.allocNode me x n)
          obtain ⟨hshows, hframes, hvalue, hlist⟩ := hs.carry hc helems
            (show carrying = _ from rfl)
          let node : Node :=
            ⟨n, x, (w₃.os.metadata (chunkPtrToChunkMetadataPtr x)).offsetToSlotInTable⟩
          have hdata : carrying.value node.addr = dataOf node := by
            rw [hvalue, Function.update_self, dataOf, hs.slot x hlive]
          change (addNewNode (w₃.os.metadata (chunkPtrToChunkMetadataPtr x)).nonLocalPtrManager
            node : M P Unit).Returns (w₃.setVec (.object nodeSlot) vec) () w' at hret
          rw [hs.owner] at hret
          obtain ⟨actions, st', hrun, hs', hframes', -, hposted, -⟩ := exists_pushed
            node hshows hframes hdata hret
          have hfirst : State.Step L st (.deallocRemote me x) freeing := ⟨⟨hmay, hlive, howner⟩, rfl⟩
          have hsecond : State.Step L freeing (.allocNode me x n) carrying := by
            refine ⟨⟨top_of_frames (Function.update_self _ _ _), ?_⟩, rfl⟩
            show n ∈ st.free me nodeSlot
            rw [← hs.free, helems]
            exact List.mem_cons_self
          refine ⟨n, actions, st', .cons hfirst (.cons hsecond hrun), hs', hframes',
            hposted.after rfl (fun y hy => ?_) hlist⟩
          rw [hvalue, Function.update_of_ne fun heq => hy (List.mem_singleton.2 heq)]

end Memalart.RemoteFree
