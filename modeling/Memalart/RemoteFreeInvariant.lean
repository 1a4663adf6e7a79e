/-
# What every interleaving of remote frees keeps

The lists are chains through the memory of the nodes, every node on its way is
addressed to the owner of what it carries, or to its own owner once it has nothing
to carry, and an object in a node is nowhere else.
-/

import Memalart.RemoteFreeCounts

set_option linter.unusedSectionVars false

namespace Memalart.RemoteFree

universe u v

variable {Id : Type u} {Obj : Type v} [DecidableEq Id] [DecidableEq Obj]

/-- A list of nodes that starts at a pointer and ends with null. -/
def Chain (next : Obj → Option Obj) : Option Obj → List Obj → Prop
  | p, [] => p = none
  | p, n :: rest => p = some n ∧ Chain next (next n) rest

theorem Chain.congr {next next' : Obj → Option Obj} {p : Option Obj} {list : List Obj}
    (h : Chain next p list) (heq : ∀ n ∈ list, next' n = next n) : Chain next' p list := by
  induction list generalizing p with
  | nil => exact h
  | cons n rest ih =>
      refine ⟨h.1, ?_⟩
      rw [heq n List.mem_cons_self]
      exact ih h.2 fun m hm => heq m (List.mem_cons_of_mem n hm)

theorem Chain.eq_cons {next : Obj → Option Obj} {n : Obj} {list : List Obj}
    (h : Chain next (some n) list) : list = n :: list.tail ∧ Chain next (next n) list.tail := by
  cases list with
  | nil => cases h
  | cons m rest =>
      obtain ⟨heq, hrest⟩ := h
      cases heq
      exact ⟨rfl, hrest⟩

/-- A node on its way to an allocator: it carries an object to its owner, or it has
its own address in it and is back at its own owner. -/
def Addressed (L : Layout Id Obj) (value : Obj → Data Obj) (n : Obj) (target : Id) : Prop :=
  L.slot n = nodeSlot ∧
    if (value n).ptr = n then L.owner n = target
    else L.owner (value n).ptr = target ∧ (value n).slot = some (L.slot (value n).ptr)

theorem Addressed.congr {L : Layout Id Obj} {value value' : Obj → Data Obj} {n : Obj} {target : Id}
    (h : Addressed L value n target) (heq : value' n = value n) : Addressed L value' n target := by
  unfold Addressed
  rwa [heq]

/-- What a frame on the stack of `a` relies on. -/
def Frame.Good (L : Layout Id Obj) (next : Obj → Option Obj) (value : Obj → Data Obj) (a : Id) :
    Frame Id Obj → Prop
  | .freeing _ => True
  | .putting s x origin => (L.owner x = a ∧ L.slot x = s) ∧ origin ≠ .freeing
  | .pushing n target _ => Addressed L value n target
  | .draining cur rest => Chain next cur rest ∧ ∀ n ∈ rest, Addressed L value n a
  | .returning n nextOfNode rest =>
      L.slot n = nodeSlot ∧ Chain next nextOfNode rest ∧ ∀ m ∈ rest, Addressed L value m a

theorem Frame.Good.congr {L : Layout Id Obj} {next next' : Obj → Option Obj}
    {value value' : Obj → Data Obj} {a : Id} {f : Frame Id Obj} (h : f.Good L next value a)
    (hnext : ∀ n ∈ f.held, next' n = next n) (hvalue : ∀ n ∈ f.held, value' n = value n) :
    f.Good L next' value' a := by
  cases f with
  | freeing x => trivial
  | putting s x origin => exact h
  | pushing n target expected => exact Addressed.congr h (hvalue n (List.mem_singleton_self n))
  | draining cur rest =>
      exact ⟨h.1.congr hnext, fun n hn => (h.2 n hn).congr (hvalue n hn)⟩
  | returning n nextOfNode rest =>
      exact ⟨h.1, h.2.1.congr hnext, fun m hm => (h.2.2 m hm).congr (hvalue m hm)⟩

/-- The places of a node that is on its way. -/
def Place.inTransit : Place Id Obj → Bool
  | .listed _ | .held _ => true
  | _ => false

/-- The places of objects that have to do with no node on its way. -/
def Place.isPlain : Place Id Obj → Bool
  | .listed _ | .held _ | .carried _ => false
  | _ => true

theorem Place.inTransit_of_isPlain {p : Place Id Obj} (h : p.isPlain) : p.inTransit = false := by
  cases p <;> simp_all [Place.isPlain, Place.inTransit]

theorem Place.ne_carried_of_isPlain {p : Place Id Obj} (h : p.isPlain) (n : Obj) :
    p ≠ .carried n := by
  cases p <;> simp_all [Place.isPlain]

/-- The invariant of every interleaving. -/
structure Consistent (L : Layout Id Obj) (st : State Id Obj) : Prop where
  placed : Placed st
  chains : ∀ b, Chain st.next (st.head b) (st.list b)
  addressed : ∀ b, ∀ n ∈ st.list b, Addressed L st.value n b
  frames : ∀ a, ∀ f ∈ st.frames a, f.Good L st.next st.value a
  free_home : ∀ x a s, st.place x = .free a s → L.owner x = a ∧ L.slot x = s
  own_home : ∀ x a, st.place x = .own a → L.owner x = a
  carried : ∀ x n, st.place x = .carried n ↔
    (st.place n).inTransit ∧ (st.value n).ptr = x ∧ x ≠ n

namespace Consistent

variable {L : Layout Id Obj} {st : State Id Obj}

theorem initial (L : Layout Id Obj) (next : Obj → Option Obj) (value : Obj → Data Obj) :
    Consistent L (State.initial next value : State Id Obj) where
  placed := by
    intro p hp x
    cases p <;> simp_all [State.initial, State.holding, Place.isContainer]
  chains := fun _ => rfl
  addressed := by simp [State.initial]
  frames := by simp [State.initial]
  free_home := by simp [State.initial]
  own_home := by simp [State.initial]
  carried := by simp [State.initial, Place.inTransit]

/-- The top frame of an allocator keeps what a frame keeps. -/
theorem top_good (h : Consistent L st) {a : Id} {f : Frame Id Obj}
    (htop : (st.frames a).head? = some f) : f.Good L st.next st.value a :=
  h.frames a f (List.mem_of_mem_head? htop)

/-- Where the objects of the top frame are. -/
theorem place_of_top (h : Consistent L st) {a : Id} {f : Frame Id Obj}
    (htop : (st.frames a).head? = some f) {p : Place Id Obj} {x : Obj}
    (hmem : (p, x) ∈ f.contents a) : st.place x = p := by
  have hcount := count_setTop htop [] p x
  have hpos := List.count_pos_iff.2 hmem
  have hcontents := count_contents a f p x
  have hstack : p.onStack = some a := by
    by_contra hne
    rw [if_neg hne] at hcontents
    omega
  have hcontainer : p.isContainer := by
    cases p <;> simp_all [Place.onStack, Place.isContainer]
  rw [h.placed p hcontainer x] at hcount
  by_contra hne
  rw [if_neg hne] at hcount
  simp only [List.flatMap_nil, List.count_nil, Nat.add_zero] at hcount
  omega

/-- A node in the top frame is in no other frame. -/
theorem not_held_tail (h : Consistent L st) {a : Id} {f g : Frame Id Obj}
    (htop : (st.frames a).head? = some f) {n : Obj} (hn : (.held a, n) ∈ f.contents a)
    (hg : g ∈ (st.frames a).tail) : n ∉ g.held := by
  intro hmem
  have hnodup := h.placed.nodup (p := .held a) rfl
  rw [State.holding, frames_eq_cons htop, List.flatMap_cons] at hnodup
  have hdisjoint := (List.nodup_append.1 hnodup).2.2
  have hf : n ∈ f.held := by
    cases f <;> simp_all [Frame.contents, Frame.held]
  exact hdisjoint n hf n (List.mem_flatMap.2 ⟨g, hg, hmem⟩) rfl

/-- The nodes of a frame are placed there. -/
theorem place_of_held (h : Consistent L st) {a : Id} {f : Frame Id Obj} (hf : f ∈ st.frames a)
    {n : Obj} (hn : n ∈ f.held) : st.place n = .held a :=
  (h.placed.mem_iff (p := .held a) rfl).1 (List.mem_flatMap.2 ⟨f, hf, hn⟩)

theorem place_of_list (h : Consistent L st) {b : Id} {n : Obj} (hn : n ∈ st.list b) :
    st.place n = .listed b :=
  (h.placed.mem_iff (p := .listed b) rfl).1 hn

/-- What is left to show where the lists stay and no node on its way is written. -/
theorem of_quiet (h : Consistent L st) {st' : State Id Obj} (hplaced : Placed st')
    (hhead : st'.head = st.head) (hlist : st'.list = st.list)
    (hnext : ∀ n, (st.place n).inTransit → st'.next n = st.next n)
    (hvalue : ∀ n, (st.place n).inTransit → st'.value n = st.value n)
    (hframes : ∀ a, ∀ f ∈ st'.frames a, f ∈ st.frames a ∨ f.Good L st'.next st'.value a)
    (hfree : ∀ x a s, st'.place x = .free a s → L.owner x = a ∧ L.slot x = s)
    (hown : ∀ x a, st'.place x = .own a → L.owner x = a)
    (hcarried : ∀ x n, st'.place x = .carried n ↔
      (st'.place n).inTransit ∧ (st'.value n).ptr = x ∧ x ≠ n) : Consistent L st' where
  placed := hplaced
  chains b := by
    rw [hhead, hlist]
    refine (h.chains b).congr fun n hn => hnext n ?_
    rw [h.place_of_list hn]
    rfl
  addressed b n hn := by
    rw [hlist] at hn
    refine (h.addressed b n hn).congr (hvalue n ?_)
    rw [h.place_of_list hn]
    rfl
  frames a f hf := by
    rcases hframes a f hf with hold | hgood
    · have htransit : ∀ n ∈ f.held, (st.place n).inTransit := by
        intro n hn
        rw [h.place_of_held hold hn]
        rfl
      exact (h.frames a f hold).congr (fun n hn => hnext n (htransit n hn))
        fun n hn => hvalue n (htransit n hn)
    · exact hgood
  free_home := hfree
  own_home := hown
  carried := hcarried

theorem mem_setTop {st : State Id Obj} {a b : Id} {fs : List (Frame Id Obj)} {f : Frame Id Obj}
    (h : f ∈ (st.setTop a fs).frames b) : f ∈ st.frames b ∨ b = a ∧ f ∈ fs := by
  rw [State.setTop, State.setFrames_frames] at h
  by_cases hb : b = a
  · subst hb
    rw [Function.update_self, List.mem_append] at h
    rcases h with h | h
    · exact Or.inr ⟨rfl, h⟩
    · exact Or.inl (List.mem_of_mem_tail h)
  · rw [Function.update_of_ne hb] at h
    exact Or.inl h

/-- The other frames have nothing of the top frame. -/
theorem not_held_setTop (h : Consistent L st) {a b : Id} {f g : Frame Id Obj}
    (fs : List (Frame Id Obj)) (htop : (st.frames a).head? = some f) {n : Obj}
    (hn : (.held a, n) ∈ f.contents a) (hg : g ∈ (st.setTop a fs).frames b) :
    (g ∈ st.frames b ∧ n ∉ g.held) ∨ b = a ∧ g ∈ fs := by
  rw [State.setTop, State.setFrames_frames] at hg
  by_cases hb : b = a
  · subst hb
    rw [Function.update_self, List.mem_append] at hg
    rcases hg with hg | hg
    · exact Or.inr ⟨rfl, hg⟩
    · exact Or.inl ⟨List.mem_of_mem_tail hg, h.not_held_tail htop hn hg⟩
  · rw [Function.update_of_ne hb] at hg
    refine Or.inl ⟨hg, fun hmem => hb ?_⟩
    have hplace := h.place_of_held hg hmem
    rw [h.place_of_top htop hn] at hplace
    cases hplace
    rfl

theorem mem_enter {st : State Id Obj} {a b : Id} {f g : Frame Id Obj}
    (h : f ∈ (st.enter a g).frames b) : f ∈ st.frames b ∨ b = a ∧ f = g := by
  rw [State.enter, State.setFrames_frames] at h
  by_cases hb : b = a
  · subst hb
    rw [Function.update_self, List.mem_cons] at h
    exact h.elim (fun h => Or.inr ⟨rfl, h⟩) Or.inl
  · rw [Function.update_of_ne hb] at h
    exact Or.inl h

/-- An object goes from one place to another, and no node on its way has to do with it. -/
theorem of_move (h : Consistent L st) {st' : State Id Obj} {x : Obj} {p q : Place Id Obj}
    (hx : st.place x = p) (hp : p.isPlain) (hq : q.isPlain) (hplaced : Placed st')
    (hplace : st'.place = Function.update st.place x q)
    (hhead : st'.head = st.head) (hlist : st'.list = st.list) (hnext : st'.next = st.next)
    (hvalue : st'.value = st.value)
    (hframes : ∀ a, ∀ f ∈ st'.frames a, f ∈ st.frames a ∨ f.Good L st'.next st'.value a)
    (hfree : ∀ a s, q = .free a s → L.owner x = a ∧ L.slot x = s)
    (hown : ∀ a, q = .own a → L.owner x = a) : Consistent L st' := by
  refine h.of_quiet hplaced hhead hlist (fun n _ => by rw [hnext]) (fun n _ => by rw [hvalue])
    hframes ?_ ?_ ?_
  · intro y a s hy
    rw [hplace] at hy
    by_cases hyx : y = x
    · subst hyx
      rw [Function.update_self] at hy
      exact hfree a s hy
    · rw [Function.update_of_ne hyx] at hy
      exact h.free_home y a s hy
  · intro y a hy
    rw [hplace] at hy
    by_cases hyx : y = x
    · subst hyx
      rw [Function.update_self] at hy
      exact hown a hy
    · rw [Function.update_of_ne hyx] at hy
      exact h.own_home y a hy
  · intro y n
    have hcarried := h.carried y n
    have htransit : (Function.update st.place x q n).inTransit = (st.place n).inTransit := by
      by_cases hn : n = x
      · rw [hn, Function.update_self, hx, Place.inTransit_of_isPlain hp,
          Place.inTransit_of_isPlain hq]
      · rw [Function.update_of_ne hn]
    rw [hplace, hvalue, htransit]
    by_cases hyx : y = x
    · subst hyx
      rw [Function.update_self, ← hcarried, hx]
      exact iff_of_false (Place.ne_carried_of_isPlain hq n) (Place.ne_carried_of_isPlain hp n)
    · rw [Function.update_of_ne hyx]
      exact hcarried

theorem place_of_free (h : Consistent L st) {a : Id} {s : Slot} {x : Obj} (hx : x ∈ st.free a s) :
    st.place x = .free a s :=
  (h.placed.mem_iff (p := .free a s) rfl).1 hx

theorem place_of_own (h : Consistent L st) {a : Id} {x : Obj} (hx : x ∈ st.own a) :
    st.place x = .own a :=
  (h.placed.mem_iff (p := .own a) rfl).1 hx

theorem place_of_live (h : Consistent L st) {x : Obj} (hx : x ∈ st.live) : st.place x = .live :=
  (h.placed.mem_iff (p := .live) rfl).1 hx

/-! ## The actions -/

theorem cut (h : Consistent L st) {x : Obj} (henabled : st.Enabled L (.cut x)) :
    Consistent L (st.step L (.cut x)) := by
  have hx : st.place x = .unborn := henabled
  refine h.of_move hx rfl rfl ?_ rfl rfl rfl rfl rfl (fun _ _ hf => Or.inl hf) ?_ (by simp)
  · refine h.placed.move hx rfl fun r hr y => ?_
    simp only [State.step, holding_setPlace, holding_setCut, holding_setFree]
    grind [State.holding, Place.isContainer]
  · intro a s heq
    cases heq
    exact ⟨rfl, rfl⟩

theorem take (h : Consistent L st) {a : Id} {s : Slot} {x : Obj}
    (henabled : st.Enabled L (.take a s x)) : Consistent L (st.step L (.take a s x)) := by
  have hmem : x ∈ st.free a s := henabled.2
  have hpos := List.count_pos_iff.2 hmem
  have hx := h.place_of_free hmem
  refine h.of_move hx rfl rfl ?_ rfl rfl rfl rfl rfl (fun _ _ hf => Or.inl hf) (by simp) (by simp)
  refine h.placed.move hx rfl fun r hr y => ?_
  simp only [State.step, holding_setPlace, holding_setLive, holding_setFree]
  grind [State.holding]

theorem takeOwn (h : Consistent L st) {a : Id} {s : Slot} {x : Obj}
    (henabled : st.Enabled L (.takeOwn a s x)) : Consistent L (st.step L (.takeOwn a s x)) := by
  have hmem : x ∈ st.free a s := henabled.2
  have hpos := List.count_pos_iff.2 hmem
  have hx := h.place_of_free hmem
  refine h.of_move hx rfl rfl ?_ rfl rfl rfl rfl rfl (fun _ _ hf => Or.inl hf) (by simp) ?_
  · refine h.placed.move hx rfl fun r hr y => ?_
    simp only [State.step, holding_setPlace, holding_setOwn, holding_setFree]
    grind [State.holding]
  · intro b heq
    cases heq
    exact (h.free_home x a s hx).1

theorem deallocLocal (h : Consistent L st) {a : Id} {x : Obj}
    (henabled : st.Enabled L (.deallocLocal a x)) : Consistent L (st.step L (.deallocLocal a x)) := by
  obtain ⟨-, hmem, howner⟩ := henabled
  have hpos := List.count_pos_iff.2 hmem
  have hx := h.place_of_live hmem
  refine h.of_move hx rfl rfl ?_ rfl rfl rfl rfl rfl ?_ (by simp) (by simp)
  · refine h.placed.move hx rfl fun r hr y => ?_
    have henter := count_enter st a (.putting (L.slot x) x .localFree) r y
    simp only [State.step, holding_setPlace, holding_setLive]
    grind [State.holding, Frame.contents]
  · intro b f hf
    rcases mem_enter hf with hold | ⟨rfl, rfl⟩
    · exact Or.inl hold
    · exact Or.inr ⟨⟨howner, rfl⟩, by simp⟩

theorem deallocRemote (h : Consistent L st) {a : Id} {x : Obj}
    (henabled : st.Enabled L (.deallocRemote a x)) :
    Consistent L (st.step L (.deallocRemote a x)) := by
  obtain ⟨-, hmem, -⟩ := henabled
  have hpos := List.count_pos_iff.2 hmem
  have hx := h.place_of_live hmem
  refine h.of_move hx rfl rfl ?_ rfl rfl rfl rfl rfl ?_ (by simp) (by simp)
  · refine h.placed.move hx rfl fun r hr y => ?_
    have henter := count_enter st a (.freeing x) r y
    simp only [State.step, holding_setPlace, holding_setLive, holding_record]
    grind [State.holding, Frame.contents]
  · intro b f hf
    rcases mem_enter hf with hold | ⟨rfl, rfl⟩
    · exact Or.inl hold
    · exact Or.inr trivial

theorem deallocOwn (h : Consistent L st) {a : Id} {x : Obj}
    (henabled : st.Enabled L (.deallocOwn a x)) : Consistent L (st.step L (.deallocOwn a x)) := by
  have hmem : x ∈ st.own a := henabled.2
  have hpos := List.count_pos_iff.2 hmem
  have hx := h.place_of_own hmem
  refine h.of_move hx rfl rfl ?_ rfl rfl rfl rfl rfl ?_ (by simp) (by simp)
  · refine h.placed.move hx rfl fun r hr y => ?_
    have henter := count_enter st a (.putting (L.slot x) x .localFree) r y
    simp only [State.step, holding_setPlace, holding_setOwn]
    grind [State.holding, Frame.contents]
  · intro b f hf
    rcases mem_enter hf with hold | ⟨rfl, rfl⟩
    · exact Or.inl hold
    · exact Or.inr ⟨⟨h.own_home x b hx, rfl⟩, by simp⟩

@[simp] theorem holding_complete (st : State Id Obj) (x : Obj) (origin : Origin) (r : Place Id Obj) :
    (st.complete x origin).holding r = st.holding r := by
  cases origin <;> simp [State.complete]

theorem put (h : Consistent L st) {a : Id} {s : Slot} {x : Obj} {origin : Origin}
    (henabled : st.Enabled L (.put a s x origin)) :
    Consistent L (st.step L (.put a s x origin)) := by
  have htop : (st.frames a).head? = some (.putting s x origin) := henabled
  have hx := h.place_of_top htop (List.mem_singleton_self _)
  have hgood : L.owner x = a ∧ L.slot x = s := (h.top_good htop).1
  have hcomplete : st.step L (.put a s x origin) =
      (((st.setTop a []).setFree a s (x :: st.free a s)).setPlace x (.free a s)).complete x origin :=
    rfl
  refine h.of_move (q := .free a s) hx rfl rfl ?_ ?_ ?_ ?_ ?_ ?_ ?_ ?_ (by simp)
  · refine h.placed.move (q := .free a s) hx ?_ fun r hr y => ?_
    · cases origin <;> rfl
    · have hcount := count_setTop htop [] r y
      rw [hcomplete, holding_complete, holding_setPlace, holding_setFree]
      grind [State.holding, Frame.contents]
  all_goals try (cases origin <;> rfl)
  · intro b f hf
    have hf' : f ∈ (st.setTop a []).frames b := by
      cases origin <;> exact hf
    rcases mem_setTop hf' with hold | ⟨-, hnil⟩
    · exact Or.inl hold
    · cases hnil
  · intro b t heq
    cases heq
    exact hgood

theorem write (h : Consistent L st) {holder : Option Id} {x : Obj} {d : Data Obj} {p : Option Obj}
    (henabled : st.Enabled L (.write holder x d p)) :
    Consistent L (st.step L (.write holder x d p)) := by
  have hx : (st.place x).inTransit = false := by
    cases holder with
    | none => rw [h.place_of_live henabled]; rfl
    | some a => rw [h.place_of_own henabled]; rfl
  have hne : ∀ n, (st.place n).inTransit → n ≠ x := by
    intro n hn heq
    rw [heq, hx] at hn
    cases hn
  refine h.of_quiet ?_ rfl rfl (fun n hn => Function.update_of_ne (hne n hn) _ _)
    (fun n hn => Function.update_of_ne (hne n hn) _ _) (fun _ _ hf => Or.inl hf) h.free_home
    h.own_home ?_
  · intro r hr y
    rw [State.step, holding_setNext, holding_setValue]
    exact h.placed r hr y
  · intro y n
    refine (h.carried y n).trans (and_congr_right fun hn => ?_)
    have hvalue : (st.step L (.write holder x d p)).value n = st.value n :=
      Function.update_of_ne (hne n hn) _ _
    rw [hvalue]

theorem allocNode (h : Consistent L st) {a : Id} {x n : Obj}
    (henabled : st.Enabled L (.allocNode a x n)) : Consistent L (st.step L (.allocNode a x n)) := by
  obtain ⟨htop, hmem⟩ := henabled
  have hpos := List.count_pos_iff.2 hmem
  have hx := h.place_of_top htop (List.mem_singleton_self _)
  have hn := h.place_of_free hmem
  have hne : n ≠ x := by
    intro heq
    rw [heq, hx] at hn
    cases hn
  have hvalue : (st.step L (.allocNode a x n)).value =
      Function.update st.value n ⟨x, some (L.slot x)⟩ := rfl
  have hplace : (st.step L (.allocNode a x n)).place =
      Function.update (Function.update st.place n (.held a)) x (.carried n) := rfl
  refine h.of_quiet ?_ rfl rfl (fun _ _ => rfl) ?_ ?_ ?_ ?_ ?_
  · refine h.placed.move₂ hne hn hx hplace fun r hr y => ?_
    have hcount := count_setTop htop [.pushing n (L.owner x) none] r y
    simp only [State.step, holding_setPlace, holding_setValue, holding_record, holding_setFree]
    grind [State.holding, Frame.contents, Place.isContainer]
  · intro m hm
    rw [hvalue, Function.update_of_ne]
    intro heq
    rw [heq, hn] at hm
    cases hm
  · intro b f hf
    rcases mem_setTop hf with hold | ⟨rfl, hnew⟩
    · exact Or.inl hold
    · right
      rw [List.mem_singleton.1 hnew, Frame.Good, hvalue]
      exact ⟨(h.free_home n b nodeSlot hn).2, by simp [hne.symm]⟩
  · intro y b s hy
    have hfree := h.free_home y b s
    rw [hplace] at hy
    grind
  · intro y b hy
    have hown := h.own_home y b
    rw [hplace] at hy
    grind
  · intro y m
    have hcarried := h.carried y m
    rw [hplace, hvalue]
    grind [Place.inTransit]

theorem loadHead (h : Consistent L st) {a : Id} {n : Obj} {target : Id}
    (henabled : st.Enabled L (.loadHead a n target)) :
    Consistent L (st.step L (.loadHead a n target)) := by
  have htop : (st.frames a).head? = some (.pushing n target none) := henabled
  refine h.of_quiet ?_ rfl rfl (fun _ _ => rfl) (fun _ _ => rfl) ?_ h.free_home h.own_home h.carried
  · intro r hr y
    have hcount := count_setTop htop [.pushing n target (some (st.head target))] r y
    rw [← show st.place y = (st.step L (.loadHead a n target)).place y from rfl, ← h.placed r hr y]
    simp only [State.step]
    grind [Frame.contents]
  · intro b f hf
    rcases mem_setTop hf with hold | ⟨rfl, hnew⟩
    · exact Or.inl hold
    · have hgood : Addressed L st.value n target := h.top_good htop
      right
      rw [List.mem_singleton.1 hnew]
      exact hgood

theorem exchange (h : Consistent L st) {a : Id} {n : Obj} {target : Id} {expected : Option Obj}
    {spurious : Bool} (henabled : st.Enabled L (.exchange a n target expected spurious)) :
    Consistent L (st.step L (.exchange a n target expected spurious)) := by
  have htop : (st.frames a).head? = some (.pushing n target (some expected)) := henabled
  have hcontents : (.held a, n) ∈ (Frame.pushing n target (some expected)).contents a :=
    List.mem_singleton_self _
  have hn := h.place_of_top htop hcontents
  have hgood : Addressed L st.value n target := h.top_good htop
  have hlist : ∀ b, ∀ m ∈ st.list b, m ≠ n := by
    intro b m hm heq
    have hm' := h.place_of_list hm
    rw [heq, hn] at hm'
    cases hm'
  have hkeep : ∀ b, ∀ f ∈ st.frames b, n ∉ f.held →
      f.Good L (Function.update st.next n expected) st.value b := by
    intro b f hf hheld
    refine (h.frames b f hf).congr (fun m hm => Function.update_of_ne ?_ _ _) fun _ _ => rfl
    intro heq
    exact hheld (heq ▸ hm)
  have hchain : ∀ b, Chain (Function.update st.next n expected) (st.head b) (st.list b) :=
    fun b => (h.chains b).congr fun m hm => Function.update_of_ne (hlist b m hm) _ _
  by_cases hsuccess : st.head target = expected ∧ spurious = false
  · have hstep : st.step L (.exchange a n target expected spurious) =
        (((st.setNext n expected).setTop a []).setList target (some n)
          (n :: st.list target)).setPlace n (.listed target) := if_pos hsuccess
    have hplace : (st.step L (.exchange a n target expected spurious)).place =
        Function.update st.place n (.listed target) := by rw [hstep]; rfl
    have hnext : (st.step L (.exchange a n target expected spurious)).next =
        Function.update st.next n expected := by rw [hstep]; rfl
    have hvalue : (st.step L (.exchange a n target expected spurious)).value = st.value := by
      rw [hstep]; rfl
    have hlists : (st.step L (.exchange a n target expected spurious)).list =
        Function.update st.list target (n :: st.list target) := by rw [hstep]; rfl
    have hheads : (st.step L (.exchange a n target expected spurious)).head =
        Function.update st.head target (some n) := by rw [hstep]; rfl
    have hframes : (st.step L (.exchange a n target expected spurious)).frames =
        ((st.setNext n expected).setTop a []).frames := by rw [hstep]; rfl
    refine ⟨?_, ?_, ?_, ?_, ?_, ?_, ?_⟩
    · refine h.placed.move (q := .listed target) hn hplace fun r hr y => ?_
      have hcount := count_setTop (show ((st.setNext n expected).frames a).head? = _ from htop) [] r y
      rw [hstep]
      simp only [holding_setPlace, holding_setList]
      grind [State.holding, Frame.contents, holding_setNext]
    · intro b
      rw [hnext, hlists, hheads]
      by_cases hb : b = target
      · rw [hb, Function.update_self, Function.update_self]
        refine ⟨rfl, ?_⟩
        have hold := hchain target
        rw [hsuccess.1] at hold
        rw [Function.update_self]
        exact hold
      · rw [Function.update_of_ne hb, Function.update_of_ne hb]
        exact hchain b
    · intro b m hm
      rw [hlists] at hm
      rw [hvalue]
      by_cases hb : b = target
      · rw [hb, Function.update_self, List.mem_cons] at hm
        rw [hb]
        rcases hm with rfl | hm
        · exact hgood
        · exact h.addressed target m hm
      · rw [Function.update_of_ne hb] at hm
        exact h.addressed b m hm
    · intro b f hf
      rw [hframes] at hf
      rw [hnext, hvalue]
      rcases h.not_held_setTop [] htop hcontents hf with ⟨hold, hheld⟩ | ⟨-, hnil⟩
      · exact hkeep b f hold hheld
      · cases hnil
    · intro y b s hy
      have hfree := h.free_home y b s
      rw [hplace] at hy
      grind
    · intro y b hy
      have hown := h.own_home y b
      rw [hplace] at hy
      grind
    · intro y m
      have hcarried := h.carried y m
      rw [hplace, hvalue]
      grind [Place.inTransit]
  · have hstep : st.step L (.exchange a n target expected spurious) =
        (st.setNext n expected).setTop a [.pushing n target (some (st.head target))] :=
      if_neg hsuccess
    rw [hstep]
    refine ⟨?_, hchain, h.addressed, ?_, h.free_home, h.own_home, h.carried⟩
    · intro r hr y
      have hcount := count_setTop (show ((st.setNext n expected).frames a).head? = _ from htop)
        [.pushing n target (some (st.head target))] r y
      have hplaced := h.placed r hr y
      rw [holding_setNext] at hcount
      rw [show ((st.setNext n expected).setTop a
        [.pushing n target (some (st.head target))]).place y = st.place y from rfl, ← hplaced]
      grind [Frame.contents]
    · intro b f hf
      rcases h.not_held_setTop [.pushing n target (some (st.head target))] htop hcontents
        hf with ⟨hold, hheld⟩ | ⟨rfl, hnew⟩
      · exact hkeep b f hold hheld
      · rw [List.mem_singleton.1 hnew]
        exact hgood

theorem drain (h : Consistent L st) {a : Id} : Consistent L (st.step L (.drain a)) := by
  have hplace : ∀ n, (st.step L (.drain a)).place n =
      if st.place n = .listed a then .held a else st.place n := fun _ => rfl
  have hlists : (st.step L (.drain a)).list = Function.update st.list a [] := rfl
  have hheads : (st.step L (.drain a)).head = Function.update st.head a none := rfl
  have htransit : ∀ n, ((st.step L (.drain a)).place n).inTransit = (st.place n).inTransit := by
    intro n
    rw [hplace]
    by_cases hn : st.place n = .listed a
    · rw [if_pos hn, hn]
      rfl
    · rw [if_neg hn]
  refine ⟨?_, ?_, ?_, ?_, ?_, ?_, ?_⟩
  · refine h.placed.of_count fun r hr y => ?_
    have hcount := count_enter st a (.draining (st.head a) (st.list a)) r y
    have hlisted := h.placed (.listed a) rfl y
    have hholding : (st.step L (.drain a)).holding r =
        ((st.enter a (.draining (st.head a) (st.list a))).setList a none []).holding r := by
      cases r <;> rfl
    rw [hplace, hholding, holding_setList]
    rw [State.holding] at hlisted
    rw [Frame.contents, count_map_pair] at hcount
    grind [State.holding]
  · intro b
    rw [hlists, hheads]
    by_cases hb : b = a
    · rw [hb, Function.update_self, Function.update_self]
      rfl
    · rw [Function.update_of_ne hb, Function.update_of_ne hb]
      exact h.chains b
  · intro b m hm
    rw [hlists] at hm
    by_cases hb : b = a
    · rw [hb, Function.update_self] at hm
      cases hm
    · rw [Function.update_of_ne hb] at hm
      exact h.addressed b m hm
  · intro b f hf
    rcases mem_enter hf with hold | ⟨rfl, rfl⟩
    · exact h.frames b f hold
    · exact ⟨h.chains b, h.addressed b⟩
  · intro y b s hy
    have hfree := h.free_home y b s
    rw [hplace] at hy
    grind
  · intro y b hy
    have hown := h.own_home y b
    rw [hplace] at hy
    grind
  · intro y m
    rw [htransit, ← show st.value m = (st.step L (.drain a)).value m from rfl, ← h.carried y m, hplace]
    grind

theorem takeReturned (h : Consistent L st) {a : Id} {n : Obj} {rest : List Obj}
    (henabled : st.Enabled L (.takeReturned a n rest)) :
    Consistent L (st.step L (.takeReturned a n rest)) := by
  obtain ⟨htop, hself⟩ := henabled
  obtain ⟨hchain, haddressed⟩ := h.top_good htop
  obtain ⟨hrest, htail⟩ := hchain.eq_cons
  have hmem : n ∈ rest := hrest ▸ List.mem_cons_self
  have hn := h.place_of_top htop (p := .held a) (x := n) (List.mem_map_of_mem hmem)
  have hplace : (st.step L (.takeReturned a n rest)).place =
      Function.update st.place n (.hand a .node) := rfl
  refine h.of_quiet ?_ rfl rfl (fun _ _ => rfl) (fun _ _ => rfl) ?_ ?_ ?_ ?_
  · refine h.placed.move hn hplace fun r hr y => ?_
    have hcount := count_setTop htop
      [.putting nodeSlot n .node, .draining (st.next n) rest.tail] r y
    have hpairs : ((rest.map fun m => ((.held a, m) : Place Id Obj × Obj))).count (r, y) =
        ((n :: rest.tail).map fun m => ((.held a, m) : Place Id Obj × Obj)).count (r, y) := by
      rw [← hrest]
    simp only [State.step, holding_setPlace]
    simp only [List.flatMap_cons, List.flatMap_nil, List.append_nil, Frame.contents, hpairs,
      List.map_cons, List.count_append, List.count_cons, List.count_nil] at hcount
    grind
  · intro b f hf
    rcases mem_setTop hf with hold | ⟨rfl, hnew⟩
    · exact Or.inl hold
    · right
      have hto := haddressed n hmem
      rw [Addressed, if_pos hself] at hto
      rcases List.mem_cons.1 hnew with rfl | hnew
      · exact ⟨⟨hto.2, hto.1⟩, by simp⟩
      · rw [List.mem_singleton.1 hnew]
        exact ⟨htail, fun m hm => haddressed m (List.mem_of_mem_tail hm)⟩
  · intro y b s hy
    have hfree := h.free_home y b s
    rw [hplace] at hy
    grind
  · intro y b hy
    have hown := h.own_home y b
    rw [hplace] at hy
    grind
  · intro y m
    have hcarried := h.carried y m
    rw [hplace, ← show st.value m = (st.step L (.takeReturned a n rest)).value m from rfl]
    grind [Place.inTransit]

theorem takeCarried (h : Consistent L st) {a : Id} {n : Obj} {s : Slot} {rest : List Obj}
    (henabled : st.Enabled L (.takeCarried a n s rest)) :
    Consistent L (st.step L (.takeCarried a n s rest)) := by
  obtain ⟨htop, hself, hslot⟩ := henabled
  obtain ⟨hchain, haddressed⟩ := h.top_good htop
  obtain ⟨hrest, htail⟩ := hchain.eq_cons
  have hmem : n ∈ rest := hrest ▸ List.mem_cons_self
  have hn := h.place_of_top htop (p := .held a) (x := n) (List.mem_map_of_mem hmem)
  have hx : st.place (st.value n).ptr = .carried n :=
    (h.carried _ n).2 ⟨by rw [hn]; rfl, rfl, hself⟩
  have hplace : (st.step L (.takeCarried a n s rest)).place =
      Function.update (Function.update st.place n (.spent a)) (st.value n).ptr (.hand a .remote) :=
    rfl
  refine h.of_quiet ?_ rfl rfl (fun _ _ => rfl) (fun _ _ => rfl) ?_ ?_ ?_ ?_
  · refine h.placed.move₂ (Ne.symm hself) hn hx hplace fun r hr y => ?_
    have hcount := count_setTop htop
      [.putting s (st.value n).ptr .remote, .returning n (st.next n) rest.tail] r y
    have hpairs : ((rest.map fun m => ((.held a, m) : Place Id Obj × Obj))).count (r, y) =
        ((n :: rest.tail).map fun m => ((.held a, m) : Place Id Obj × Obj)).count (r, y) := by
      rw [← hrest]
    simp only [State.step, holding_setPlace]
    simp only [List.flatMap_cons, List.flatMap_nil, List.append_nil, Frame.contents, hpairs,
      List.map_cons, List.count_append, List.count_cons, List.count_nil] at hcount
    grind [Place.isContainer]
  · intro b f hf
    rcases mem_setTop hf with hold | ⟨rfl, hnew⟩
    · exact Or.inl hold
    · right
      have hto := haddressed n hmem
      rw [Addressed, if_neg hself, hslot, Option.some.injEq] at hto
      rcases List.mem_cons.1 hnew with rfl | hnew
      · exact ⟨⟨hto.2.1, hto.2.2.symm⟩, by simp⟩
      · rw [List.mem_singleton.1 hnew]
        exact ⟨hto.1, htail, fun m hm => haddressed m (List.mem_of_mem_tail hm)⟩
  · intro y b t hy
    have hfree := h.free_home y b t
    rw [hplace] at hy
    grind
  · intro y b hy
    have hown := h.own_home y b
    rw [hplace] at hy
    grind
  · intro y m
    have hcarried := h.carried y m
    rw [hplace, ← show st.value m = (st.step L (.takeCarried a n s rest)).value m from rfl]
    grind [Place.inTransit]

theorem giveBack (h : Consistent L st) {a : Id} {n : Obj} {nextOfNode : Option Obj}
    {rest : List Obj} (henabled : st.Enabled L (.giveBack a n nextOfNode rest)) :
    Consistent L (st.step L (.giveBack a n nextOfNode rest)) := by
  have htop : (st.frames a).head? = some (.returning n nextOfNode rest) := henabled
  obtain ⟨hnode, hchain, haddressed⟩ := h.top_good htop
  have hn := h.place_of_top htop (p := .spent a) (x := n) List.mem_cons_self
  have hplace : (st.step L (.giveBack a n nextOfNode rest)).place =
      Function.update st.place n (.held a) := rfl
  have hvalue : (st.step L (.giveBack a n nextOfNode rest)).value =
      Function.update st.value n ⟨n, none⟩ := rfl
  have hkeep : ∀ m, (st.place m).inTransit →
      (st.step L (.giveBack a n nextOfNode rest)).value m = st.value m := by
    intro m hm
    rw [hvalue, Function.update_of_ne]
    intro heq
    rw [heq, hn] at hm
    cases hm
  refine h.of_quiet ?_ rfl rfl (fun _ _ => rfl) hkeep ?_ ?_ ?_ ?_
  · refine h.placed.move hn hplace fun r hr y => ?_
    have hcount := count_setTop htop
      [.pushing n (L.owner n) none, .draining nextOfNode rest] r y
    simp only [State.step, holding_setPlace, holding_setValue, holding_record]
    simp only [List.flatMap_cons, List.flatMap_nil, List.append_nil, Frame.contents,
      List.count_append, List.count_cons, List.count_nil] at hcount
    grind
  · intro b f hf
    rcases mem_setTop hf with hold | ⟨rfl, hnew⟩
    · exact Or.inl hold
    · right
      rcases List.mem_cons.1 hnew with rfl | hnew
      · rw [Frame.Good, hvalue]
        exact ⟨hnode, by simp⟩
      · rw [List.mem_singleton.1 hnew]
        refine ⟨hchain, fun m hm => (haddressed m hm).congr (hkeep m ?_)⟩
        have hm' := h.place_of_top htop (p := .held b) (x := m)
          (List.mem_cons_of_mem _ (List.mem_map_of_mem hm))
        rw [hm']
        rfl
  · intro y b s hy
    have hfree := h.free_home y b s
    rw [hplace] at hy
    grind
  · intro y b hy
    have hown := h.own_home y b
    rw [hplace] at hy
    grind
  · intro y m
    have hcarried := h.carried y m
    rw [hplace, hvalue]
    grind [Place.inTransit]

theorem finish (h : Consistent L st) {a : Id} {rest : List Obj}
    (henabled : st.Enabled L (.finish a rest)) : Consistent L (st.step L (.finish a rest)) := by
  have htop : (st.frames a).head? = some (.draining none rest) := henabled
  have hrest : rest = [] := by
    have hchain := (h.top_good htop).1
    cases rest with
    | nil => rfl
    | cons n rest => cases hchain.1
  refine h.of_quiet ?_ rfl rfl (fun _ _ => rfl) (fun _ _ => rfl) ?_ h.free_home h.own_home h.carried
  · intro r hr y
    have hcount := count_setTop htop [] r y
    rw [← show st.place y = (st.step L (.finish a rest)).place y from rfl, ← h.placed r hr y]
    rw [hrest] at hcount
    simpa [State.step, Frame.contents] using hcount
  · intro b f hf
    rcases mem_setTop hf with hold | ⟨-, hnil⟩
    · exact Or.inl hold
    · cases hnil

theorem destroy (h : Consistent L st) {a : Id} {used : Slot → Nat} :
    Consistent L (st.step L (.destroy a used)) := by
  have hplace : ∀ x, (st.step L (.destroy a used)).place x =
      if st.place x = .free a (L.slot x) ∨ st.place x = .own a then .released else st.place x :=
    fun _ => rfl
  have htransit : ∀ n, ((st.step L (.destroy a used)).place n).inTransit =
      (st.place n).inTransit := by
    intro n
    rw [hplace]
    by_cases hn : st.place n = .free a (L.slot n) ∨ st.place n = .own a
    · rw [if_pos hn]
      rcases hn with hn | hn <;> rw [hn] <;> rfl
    · rw [if_neg hn]
  refine h.of_quiet ?_ rfl rfl (fun _ _ => rfl) (fun _ _ => rfl) (fun _ _ hf => Or.inl hf) ?_ ?_ ?_
  · refine h.placed.of_count fun r hr y => ?_
    have hy := h.placed r hr y
    have hfree := h.free_home y a
    rw [hplace]
    cases r with
    | free b s =>
        have hholding : (st.step L (.destroy a used)).holding (.free b s) =
            if b = a then [] else st.free b s := by
          simp only [State.step, State.holding, Function.update_apply]
          split <;> rfl
        rw [hholding]
        rw [State.holding] at hy ⊢
        grind
    | own b =>
        have hholding : (st.step L (.destroy a used)).holding (.own b) =
            if b = a then [] else st.own b := Function.update_apply _ _ _ _
        rw [hholding]
        rw [State.holding] at hy ⊢
        grind
    | _ =>
        simp only [State.step, State.holding]
        grind [Place.isContainer]
  · intro y b s hy
    have hfree := h.free_home y b s
    rw [hplace] at hy
    grind
  · intro y b hy
    have hown := h.own_home y b
    rw [hplace] at hy
    grind
  · intro y m
    rw [htransit, ← show st.value m = (st.step L (.destroy a used)).value m from rfl,
      ← h.carried y m, hplace]
    grind

theorem step {st' : State Id Obj} {action : Action Id Obj} (h : Consistent L st)
    (hstep : st.Step L action st') : Consistent L st' := by
  obtain ⟨henabled, rfl⟩ := hstep
  cases action with
  | cut x => exact h.cut henabled
  | take a s x => exact h.take henabled
  | takeOwn a s x => exact h.takeOwn henabled
  | deallocLocal a x => exact h.deallocLocal henabled
  | deallocRemote a x => exact h.deallocRemote henabled
  | deallocOwn a x => exact h.deallocOwn henabled
  | write holder x d p => exact h.write henabled
  | allocNode a x n => exact h.allocNode henabled
  | loadHead a n target => exact h.loadHead henabled
  | exchange a n target expected spurious => exact h.exchange henabled
  | drain a => exact h.drain
  | takeReturned a n rest => exact h.takeReturned henabled
  | takeCarried a n s rest => exact h.takeCarried henabled
  | put a s x origin => exact h.put henabled
  | giveBack a n nextOfNode rest => exact h.giveBack henabled
  | finish a rest => exact h.finish henabled
  | destroy a used => exact h.destroy

end Consistent

end Memalart.RemoteFree
