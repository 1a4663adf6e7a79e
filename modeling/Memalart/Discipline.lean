/-
# The discipline of the allocator

Beside the state of an allocator stand the tokens of the calls in progress: the
items that a call has in hand, and what it knows and nothing will undo, such as
that a chunk table exists.  A state and its tokens are sound if the invariants of
the allocator hold; they go from one to another by moves of the estate that they
make up.
-/

import Memalart.ChainMoves
import Memalart.Lib.Resource

namespace Memalart

open Memalart.Lib ThreadLocalAllocator

variable {P : Params}

/-- A chunk that a State cuts has a size of its own kind. -/
def Kinds (items : Multiset Item) : Prop :=
  ∀ k u, .cutting k u ∈ items → ∃ s, slotForSize u.size = some s ∧ s.kind = k

theorem Kinds.exchange {os os' : Os} {m m' : Option Nat} {gone new : Multiset Item}
    (rest : Multiset Item) (h : Exchange os m gone new os' m') (hkinds : Kinds (gone + rest)) :
    Kinds (new + rest) := by
  have hrest : ∀ k u, .cutting k u ∈ rest → ∃ s, slotForSize u.size = some s ∧ s.kind = k :=
    fun k u hu => hkinds k u (Multiset.mem_add.mpr (.inr hu))
  intro k u hu
  rcases Multiset.mem_add.mp hu with hu | hu
  · cases h with
    | start s size c hslot hsize =>
        rcases Multiset.mem_add.mp hu with hu | hu
        · cases Multiset.mem_singleton.mp hu
          exact ⟨s, hslot, rfl⟩
        · cases Multiset.mem_singleton.mp hu
    | cut s v hslot hfree =>
        rcases Multiset.mem_add.mp hu with hu | hu
        · cases Multiset.mem_singleton.mp hu
          exact ⟨s, hslot, rfl⟩
        · cases Multiset.mem_singleton.mp hu
    | parse r =>
        rcases Multiset.mem_add.mp hu with hu | hu
        · cases Multiset.mem_singleton.mp hu
        · obtain ⟨_, _, heq⟩ := mem_regionChunks hu
          cases heq
    | record s c =>
        rcases mem_cut_items hu with heq | heq | ⟨_, heq⟩ <;> cases heq
    | commit s v hslot =>
        rcases Multiset.mem_add.mp hu with hu | hu
        · cases Multiset.mem_singleton.mp hu
        · obtain ⟨_, _, heq⟩ := mem_itemAll.mp hu
          cases heq
    | split c =>
        obtain ⟨_, _, heq⟩ := mem_itemAll.mp hu
        cases heq
    | _ => first
        | exact absurd hu (Multiset.notMem_zero _)
        | cases Multiset.mem_singleton.mp hu
  · exact hrest k u hu

theorem Moves.kinds {e e' : Estate} (h : Moves e e') (hkinds : Kinds e.items) : Kinds e'.items :=
  h.invariant (J := fun _ _ items => Kinds items) (fun rest hx hk => hk.exchange rest hx) hkinds

/-! ## Tokens -/

/-- What a call in progress has in hand, and what it knows. -/
inductive Token (P : Params)
  | item (i : Item)
  /-- The first State has been committed. -/
  | ready
  | manager (ptr : Nat)
  | boxed (k : ChunkKind)
  /-- The size tree is being changed, and is still this tree. -/
  | busy (tree : P.tree.Tree)
  /-- A chain of States that a call has started. -/
  | chain

namespace World

/-- The manager and both chunk tables exist. -/
def Ready (w : World P) : Prop :=
  w.inner.nonLocalPtrManager ≠ none ∧ ∀ k, chunkTableBox k w ≠ none

end World

namespace Token

def items : Token P → Multiset Item
  | .item i => {i}
  | _ => 0

def busyness : Token P → Nat
  | .busy _ => 1
  | _ => 0

def depth : Token P → Nat
  | .chain => 1
  | _ => 0

/-- What a token says about the state. -/
def Holds (w : World P) : Token P → Prop
  | .item _ => True
  | .ready => w.Ready
  | .manager ptr => w.inner.nonLocalPtrManager = some ptr
  | .boxed k => chunkTableBox k w ≠ none
  | .busy tree => w.treeBusy = true ∧ w.inner.allocatedLargeSizes = tree
  | .chain => True

end Token

def itemsOf (toks : Multiset (Token P)) : Multiset Item := toks.bind Token.items

def busyness (toks : Multiset (Token P)) : Nat := (toks.map Token.busyness).sum

/-- How many chains the calls in progress have started. -/
def depth (toks : Multiset (Token P)) : Nat := (toks.map Token.depth).sum

/-- The tokens of items. -/
def tokens (items : Multiset Item) : Multiset (Token P) := items.map Token.item

section Sums

variable (toks toks' : Multiset (Token P)) (items items' : Multiset Item) (t : Token P)

@[simp] theorem itemsOf_zero : itemsOf (0 : Multiset (Token P)) = 0 := Multiset.zero_bind _

@[simp] theorem itemsOf_add : itemsOf (toks + toks') = itemsOf toks + itemsOf toks' :=
  Multiset.add_bind _ _ _

@[simp] theorem itemsOf_singleton : itemsOf {t} = t.items := Multiset.singleton_bind _ _

@[simp] theorem itemsOf_tokens : itemsOf (tokens items : Multiset (Token P)) = items := by
  rw [itemsOf, tokens, Multiset.bind_map]
  exact (Multiset.bind_singleton items id).trans (Multiset.map_id items)

@[simp] theorem busyness_zero : busyness (0 : Multiset (Token P)) = 0 := rfl

@[simp] theorem busyness_add : busyness (toks + toks') = busyness toks + busyness toks' := by
  simp [busyness]

@[simp] theorem busyness_singleton : busyness {t} = t.busyness := by simp [busyness]

@[simp] theorem depth_zero : depth (0 : Multiset (Token P)) = 0 := rfl

@[simp] theorem depth_add : depth (toks + toks') = depth toks + depth toks' := by simp [depth]

@[simp] theorem depth_singleton : depth {t} = t.depth := by simp [depth]

@[simp] theorem depth_cons : depth (t ::ₘ toks) = t.depth + depth toks := by simp [depth]

@[simp] theorem itemsOf_cons : itemsOf (t ::ₘ toks) = t.items + itemsOf toks :=
  Multiset.cons_bind _ _ _

@[simp] theorem busyness_cons : busyness (t ::ₘ toks) = t.busyness + busyness toks := by
  simp [busyness]

@[simp] theorem busyness_tokens : busyness (tokens items : Multiset (Token P)) = 0 := by
  rw [busyness, tokens, Multiset.map_map]
  exact Multiset.sum_eq_zero fun n hn => by
    obtain ⟨i, -, rfl⟩ := Multiset.mem_map.mp hn
    rfl

@[simp] theorem depth_tokens : depth (tokens items : Multiset (Token P)) = 0 := by
  rw [depth, tokens, Multiset.map_map]
  exact Multiset.sum_eq_zero fun n hn => by
    obtain ⟨i, -, rfl⟩ := Multiset.mem_map.mp hn
    rfl

@[simp] theorem tokens_zero : tokens 0 = (0 : Multiset (Token P)) := rfl

@[simp] theorem tokens_add :
    (tokens (items + items') : Multiset (Token P)) = tokens items + tokens items' :=
  Multiset.map_add _ _ _

@[simp] theorem tokens_singleton (i : Item) : (tokens {i} : Multiset (Token P)) = {.item i} := rfl

variable {items}

theorem holds_tokens {w : World P} {t : Token P} (h : t ∈ tokens items) : t.Holds w := by
  obtain ⟨i, -, rfl⟩ := Multiset.mem_map.mp h
  trivial

end Sums

/-! ## Sound states -/

namespace World

/-- No State is allocating the manager. -/
def Calm (w : World P) : Prop :=
  ∀ chain ∈ w.states, ∀ s ∈ chain, s.isAllocatingNonLocalPtrManagerNow = false

/-- What every call keeps, also while the manager is being allocated. -/
structure WellFormed (w : World P) : Prop where
  /-- A chunk table whose box does not exist has not been touched. -/
  boxes : ∀ k, chunkTableBox k w = none → ∀ s, s.kind = k → w.inner.chunkTable s = .new
  /-- There are no free chunks before the first State has been committed. -/
  idle : ¬ w.Ready → w.inner.freeCommonChunks.elems = [] ∧ w.inner.freeLargeChunks.elems = []
  /-- The State that a call works with has been read out of its slot. -/
  heads : ∀ chain ∈ w.states, ∃ s rest, chain = s :: rest ∧ s.storage = none
  /-- No other allocator sends anything. -/
  incoming : w.incoming = []

/-- The estate of an allocator, with what the calls in progress have in hand. -/
def estate (w : World P) (items : Multiset Item) : Estate :=
  ⟨w.os, w.inner.nonLocalPtrManager, w.holdings + items⟩

/-- What no step undoes. -/
structure Keeps (w w' : World P) : Prop where
  manager : ∀ ptr, w.inner.nonLocalPtrManager = some ptr → w'.inner.nonLocalPtrManager = some ptr
  box : ∀ k, chunkTableBox k w ≠ none → chunkTableBox k w' ≠ none
  busy : w.treeBusy = true →
    w'.treeBusy = true ∧ w'.inner.allocatedLargeSizes = w.inner.allocatedLargeSizes

variable {w w' : World P}

theorem Keeps.trans {w'' : World P} (h : w.Keeps w') (h' : w'.Keeps w'') : w.Keeps w'' where
  manager ptr hptr := h'.manager ptr (h.manager ptr hptr)
  box k hk := h'.box k (h.box k hk)
  busy hbusy := by
    obtain ⟨hbusy', htree⟩ := h.busy hbusy
    obtain ⟨hbusy'', htree'⟩ := h'.busy hbusy'
    exact ⟨hbusy'', htree'.trans htree⟩

theorem Keeps.ready (h : w.Keeps w') (hw : w.Ready) : w'.Ready := by
  obtain ⟨ptr, hptr⟩ := Option.ne_none_iff_exists'.mp hw.1
  exact ⟨by simp [h.manager ptr hptr], fun k => h.box k (hw.2 k)⟩

theorem Keeps.holds (h : w.Keeps w') {t : Token P} (ht : t.Holds w) : t.Holds w' := by
  cases t with
  | item i => trivial
  | ready => exact h.ready ht
  | manager ptr => exact h.manager ptr ht
  | boxed k => exact h.box k ht
  | busy tree =>
      obtain ⟨hbusy, htree⟩ := h.busy ht.1
      exact ⟨hbusy, htree.trans ht.2⟩
  | chain => trivial

end World

/-- The invariant of an allocator whose calls in progress hold these tokens. -/
structure Sound (w : World P) (toks : Multiset (Token P)) : Prop where
  formed : w.WellFormed
  calm : w.Calm
  kinds : Kinds (w.holdings + itemsOf toks)
  own : OwnManager w.os w.inner.nonLocalPtrManager
  holds : ∀ t ∈ toks, t.Holds w
  busy : busyness toks ≤ 1
  depth : w.states.length = depth toks

/-- The discipline that the allocator keeps. -/
def discipline (P : Params) : Discipline (World P) (Token P) where
  Inv := Sound
  Goes c c' := Moves (c.1.estate (itemsOf c.2)) (c'.1.estate (itemsOf c'.2))
  refl _ := Moves.refl _
  trans := Moves.trans

/-- One step that exchanges tokens. -/
structure Step (w : World P) (give : Multiset (Token P)) (w' : World P)
    (take : Multiset (Token P)) : Prop where
  formed : w'.WellFormed
  calm : w'.Calm
  keeps : w.Keeps w'
  holds : ∀ t ∈ take, t.Holds w'
  busy : busyness take ≤ busyness give
  chains : w'.states.length + depth give = w.states.length + depth take
  moves : Moves (w.estate (itemsOf give)) (w'.estate (itemsOf take))

namespace Step

variable {w w' : World P} {give take rest : Multiset (Token P)}

theorem framed (h : Step w give w' take) (rest : Multiset (Token P)) :
    Moves (w.estate (itemsOf (give + rest))) (w'.estate (itemsOf (take + rest))) := by
  refine h.moves.framed (itemsOf rest) ?_ ?_ <;> rw [itemsOf_add, add_assoc]

theorem trans {w'' : World P} {mid : Multiset (Token P)} (h : Step w give w' mid)
    (h' : Step w' mid w'' take) : Step w give w'' take where
  formed := h'.formed
  calm := h'.calm
  keeps := h.keeps.trans h'.keeps
  holds := h'.holds
  busy := h'.busy.trans h.busy
  chains := by
    have hchains := h.chains
    have hchains' := h'.chains
    omega
  moves := h.moves.trans h'.moves

theorem sound (h : Step w give w' take) (hs : Sound w (give + rest)) : Sound w' (take + rest) where
  formed := h.formed
  calm := h.calm
  kinds := (h.framed rest).kinds hs.kinds
  own := (h.framed rest).ownManager hs.own
  holds t ht := by
    rcases Multiset.mem_add.mp ht with ht | ht
    · exact h.holds t ht
    · exact h.keeps.holds (hs.holds t (Multiset.mem_add.mpr (.inr ht)))
  busy := by
    have hle := hs.busy
    have hstep := h.busy
    rw [busyness_add] at hle ⊢
    omega
  depth := by
    have hdepth := hs.depth
    have hstep := h.chains
    rw [depth_add] at hdepth ⊢
    omega

/-- A step without tokens, beside any others. -/
theorem beside {toks : Multiset (Token P)} (h : Step w 0 w' 0) (hs : Sound w toks) :
    Sound w' toks ∧ (discipline P).Goes (w, toks) (w', toks) := by
  have hsound : Sound w' (0 + toks) := h.sound (by rwa [zero_add])
  have hmoves := h.framed toks
  rw [zero_add] at hsound hmoves
  exact ⟨hsound, hmoves⟩

end Step

/-- A computation whose returning runs are steps. -/
theorem triple_of_step {α : Type} {x : M P α} {give : Multiset (Token P)}
    {take : α → Multiset (Token P)}
    (h : ∀ w rest a w', Sound w (give + rest) → x.Returns w a w' → Step w give w' (take a)) :
    (discipline P).Triple give x take := by
  intro w rest hs a w' hret
  have hstep := h w rest a w' hs hret
  exact ⟨hstep.sound hs, hstep.framed rest⟩

/-- A step at one state. -/
theorem at_of_step {α : Type} {x : M P α} {w : World P} {give rest : Multiset (Token P)}
    {take : α → Multiset (Token P)} (hs : Sound w (give + rest))
    (h : ∀ a w', x.Returns w a w' → Step w give w' (take a)) :
    (discipline P).At w (give + rest) x fun a => take a + rest := by
  intro a w' hret
  have hstep := h a w' hret
  exact ⟨hstep.sound hs, hstep.framed rest⟩

/-! ## Knowledge -/

/-- Tokens that stand for no items. -/
structure Knowledge (toks : Multiset (Token P)) : Prop where
  items : itemsOf toks = 0
  busyness : busyness toks = 0
  depth : depth toks = 0

theorem Knowledge.zero : Knowledge (0 : Multiset (Token P)) := ⟨rfl, rfl, rfl⟩

theorem Knowledge.ready : Knowledge ({.ready} : Multiset (Token P)) :=
  ⟨by simp [Token.items], rfl, rfl⟩

theorem Knowledge.manager (ptr : Nat) : Knowledge ({.manager ptr} : Multiset (Token P)) :=
  ⟨by simp [Token.items], rfl, rfl⟩

theorem Knowledge.boxed (k : ChunkKind) : Knowledge ({.boxed k} : Multiset (Token P)) :=
  ⟨by simp [Token.items], rfl, rfl⟩

theorem Knowledge.add {k k' : Multiset (Token P)} (h : Knowledge k) (h' : Knowledge k') :
    Knowledge (k + k') :=
  ⟨by rw [itemsOf_add, h.items, h'.items, add_zero],
    by rw [busyness_add, h.busyness, h'.busyness], by rw [depth_add, h.depth, h'.depth]⟩

/-- Replace what is known by something else that holds. -/
theorem Sound.reknow {w : World P} {known known' toks : Multiset (Token P)}
    (h : Sound w (known + toks)) (hknown : Knowledge known) (hknown' : Knowledge known')
    (hholds : ∀ t ∈ known', t.Holds w) : Sound w (known' + toks) where
  formed := h.formed
  calm := h.calm
  kinds := by
    have hkinds := h.kinds
    rw [itemsOf_add, hknown.items] at hkinds
    rwa [itemsOf_add, hknown'.items]
  own := h.own
  holds t ht := by
    rcases Multiset.mem_add.mp ht with ht | ht
    · exact hholds t ht
    · exact h.holds t (Multiset.mem_add.mpr (.inr ht))
  busy := by
    have hbusy := h.busy
    rw [busyness_add, hknown.busyness] at hbusy
    rwa [busyness_add, hknown'.busyness]
  depth := by
    have hdepth := h.depth
    rw [depth_add, hknown.depth] at hdepth
    rwa [depth_add, hknown'.depth]

theorem goes_reknow (w : World P) {known known' toks : Multiset (Token P)}
    (hknown : Knowledge known) (hknown' : Knowledge known') :
    (discipline P).Goes (w, known + toks) (w, known' + toks) := by
  refine Moves.of_eq ?_
  rw [itemsOf_add, itemsOf_add, hknown.items, hknown'.items]

theorem Sound.forget {w : World P} {known toks : Multiset (Token P)} (h : Sound w (known + toks))
    (hknown : Knowledge known) : Sound w toks := by
  have hzero := h.reknow hknown .zero (by simp)
  rwa [zero_add] at hzero

theorem goes_forget (w : World P) {known toks : Multiset (Token P)} (hknown : Knowledge known) :
    (discipline P).Goes (w, known + toks) (w, toks) := by
  have hzero : (discipline P).Goes (w, known + toks) (w, 0 + toks) :=
    goes_reknow w hknown .zero
  rwa [zero_add] at hzero

namespace Triple

variable {α : Type} {x : M P α} {give known : Multiset (Token P)} {take : α → Multiset (Token P)}

/-- Forget what is known, before a computation. -/
theorem forget (hknown : Knowledge known) (hx : (discipline P).Triple give x take) :
    (discipline P).Triple (known + give) x take :=
  Discipline.Triple.before hx fun w rest hs => by
    rw [add_assoc] at hs ⊢
    exact ⟨hs.forget hknown, goes_forget w hknown⟩

theorem forgetAll (hknown : Knowledge known) (hx : (discipline P).Triple 0 x take) :
    (discipline P).Triple known x take := by
  rw [← add_zero known]
  exact forget hknown hx

/-- Forget what is known, after a computation. -/
theorem forgetAfter {known : α → Multiset (Token P)} (hknown : ∀ a, Knowledge (known a))
    (hx : (discipline P).Triple give x fun a => known a + take a) :
    (discipline P).Triple give x take :=
  Discipline.Triple.after hx fun w a rest hs => by
    rw [add_assoc] at hs ⊢
    exact ⟨hs.forget (hknown a), goes_forget w (hknown a)⟩

end Triple

end Memalart
