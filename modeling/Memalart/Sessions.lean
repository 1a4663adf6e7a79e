/-
# Sessions with one allocator

A session is an allocator and the blocks that its callers hold.  Its steps are calls of
`try_alloc` and of `dealloc` with a block that is held, rounds of `free_unused_memory`,
and what the rest of the process does to the limit and its counter between two calls.

Every step makes moves of the estate, so what the moves preserve holds in every state
that a session reaches.
-/

import Memalart.AllocatorSteps
import Memalart.Books
import Memalart.Lib.Run

namespace Memalart

open Memalart.Lib ThreadLocalAllocator

variable {P : Params}

/-- A block in the hands of a caller, with the size it was asked for. -/
structure Block where
  ptr : Nat
  size : Nat
deriving DecidableEq, Repr

structure Session (P : Params) where
  world : World P
  live : List Block

/-- What may happen to an allocator. -/
inductive Call
  /-- `try_alloc` has returned a block. -/
  | served (block : Block)
  /-- `try_alloc` has returned `None`. -/
  | refused (size : Nat)
  | freed (block : Block)
  /-- A round of `free_unused_memory`. -/
  | trimmed (k : ChunkKind)
  /-- Somebody else has set the limit, or moved the counter behind it. -/
  | outside (limit allocated : Nat)
deriving DecidableEq, Repr

/-- The allocator has done what it was asked for. -/
def Call.Succeeds : Call → Prop
  | .served _ | .freed _ => True
  | _ => False

instance : DecidablePred Call.Succeeds := fun c =>
  match c with
  | .served _ | .freed _ => .isTrue trivial
  | .refused _ | .trimmed _ | .outside _ _ => .isFalse id

/-- What somebody else does to the limit. -/
def Os.outside (limit allocated : Nat) (os : Os) : Os :=
  { os.access (.moved allocated) allocated with limit := limit }

namespace Session

/-- A call that returns, however deep the calls nest that it makes. -/
inductive Step : Session P → Call → Session P → Prop
  | served {w w' : World P} {live : List Block} {ptr size : Nat} (depth : Nat)
      (h : (tryAlloc (threadLocalAllocator depth) size).Returns w (some ptr) w') :
      Step ⟨w, live⟩ (.served ⟨ptr, size⟩) ⟨w', ⟨ptr, size⟩ :: live⟩
  | refused {w w' : World P} {live : List Block} {size : Nat} (depth : Nat)
      (h : (tryAlloc (threadLocalAllocator depth) size).Returns w none w') :
      Step ⟨w, live⟩ (.refused size) ⟨w', live⟩
  | freed {w w' : World P} {live : List Block} {b : Block} (depth : Nat) (hlive : b ∈ live)
      (h : (dealloc (threadLocalAllocator depth) b.ptr b.size).Returns w () w') :
      Step ⟨w, live⟩ (.freed b) ⟨w', live.erase b⟩
  | trimmed {w w' : World P} {live : List Block} {again : Bool} (k : ChunkKind)
      (h : (freeNext k).Returns w again w') : Step ⟨w, live⟩ (.trimmed k) ⟨w', live⟩
  | outside {w : World P} {live : List Block} (limit allocated : Nat) :
      Step ⟨w, live⟩ (.outside limit allocated) ⟨w.setOs (w.os.outside limit allocated), live⟩

/-- What a caller asks for. -/
inductive Request
  | tryAlloc (size : Nat)
  | dealloc (b : Block)
  | outside (limit allocated : Nat)

/-- What comes of it. -/
inductive Outcome
  | returned (call : Call)
  /-- The size tree has been entered while it was being changed. -/
  | entered (request : Request)

def Outcome.call? : Outcome → Option Call
  | .returned c => some c
  | .entered _ => none

/-- No call has entered the size tree while the tree was being changed. -/
def Undisturbed (outcomes : List Outcome) : Prop := ∀ request, .entered request ∉ outcomes

/-- A fresh allocator in a process that has mapped nothing for it. -/
def initial (P : Params) (replies : List Reply) : Session P := ⟨.new (Os.initial replies), []⟩

/-- The call that a caller asks for enters the size tree while the tree is being changed. -/
def EntersTree (depth : Nat) (s : Session P) : Request → Prop
  | .tryAlloc size =>
      ∃ w', ThreadLocalAllocator.tryAlloc (threadLocalAllocator depth) size s.world =
        .error (.treeEntered, w')
  | .dealloc b => b ∈ s.live ∧
      ∃ w', ThreadLocalAllocator.dealloc (threadLocalAllocator depth) b.ptr b.size s.world =
        .error (.treeEntered, w')
  | .outside _ _ => False

/-- What may happen in a session: a call returns, or it enters the size tree while the tree is
being changed.  Nothing in the source prevents that, and nothing is known of what comes of
it: any session may follow. -/
inductive Happens : Session P → Outcome → Session P → Prop
  | returned {s s' : Session P} {c : Call} (h : Step s c s') : Happens s (.returned c) s'
  | entered {s s' : Session P} {request : Request} (depth : Nat)
      (h : s.EntersTree depth request) : Happens s (.entered request) s'

/-- The session has been reached by a run from a fresh allocator, in which no call has entered
the size tree while the tree was being changed. -/
def Reached (calls : List Call) (s : Session P) : Prop :=
  ∃ replies outcomes, Run Happens (initial P replies) outcomes s ∧ Undisturbed outcomes ∧
    calls = outcomes.filterMap Outcome.call?

theorem run_of_happens {s s' : Session P} {outcomes : List Outcome}
    (hrun : Run Happens s outcomes s') (hcalm : Undisturbed outcomes) :
    Run Step s (outcomes.filterMap Outcome.call?) s' := by
  induction hrun with
  | nil s => exact .nil s
  | cons h _ ih =>
      have hrest := ih fun request hmem => hcalm request (List.mem_cons_of_mem _ hmem)
      cases h with
      | returned h => exact .cons h hrest
      | entered depth h => exact absurd List.mem_cons_self (hcalm _)

theorem happens_of_run {s s' : Session P} {calls : List Call} (hrun : Run Step s calls s') :
    Run Happens s (calls.map .returned) s' := by
  induction hrun with
  | nil s => exact .nil s
  | cons h _ ih => exact .cons (.returned h) ih

/-- Such a run consists of the calls that return. -/
theorem reached_iff {calls : List Call} {s : Session P} :
    Reached calls s ↔ ∃ replies, Run Step (initial P replies) calls s := by
  constructor
  · rintro ⟨replies, outcomes, hrun, hcalm, rfl⟩
    exact ⟨replies, run_of_happens hrun hcalm⟩
  · rintro ⟨replies, hrun⟩
    refine ⟨replies, _, happens_of_run hrun, fun request hmem => ?_, ?_⟩
    · obtain ⟨c, -, hc⟩ := List.mem_map.mp hmem
      cases hc
    · rw [List.filterMap_map]
      exact (List.filterMap_some (l := calls)).symm

theorem Reached.append {calls more : List Call} {s s' : Session P} (h : Reached calls s)
    (hrun : Run Step s more s') : Reached (calls ++ more) s' := by
  obtain ⟨replies, hfirst⟩ := reached_iff.mp h
  exact reached_iff.mpr ⟨replies, hfirst.append hrun⟩

theorem Reached.step {calls : List Call} {call : Call} {s s' : Session P} (h : Reached calls s)
    (hstep : Step s call s') : Reached (calls ++ [call]) s' :=
  h.append (.cons hstep (.nil s'))

/-- The items of the blocks that callers hold. -/
def held (live : List Block) : Multiset Item :=
  (live.map fun b => blockItem b.size b.ptr : List Item)

/-- All that the allocator has or has given to callers. -/
def items (s : Session P) : Multiset Item := s.world.holdings + held s.live

@[simp] theorem held_nil : held [] = 0 := rfl

@[simp] theorem held_cons (b : Block) (live : List Block) :
    held (b :: live) = {blockItem b.size b.ptr} + held live := rfl

theorem held_erase {b : Block} {live : List Block} (h : b ∈ live) :
    held live = {blockItem b.size b.ptr} + held (live.erase b) := by
  rw [← held_cons]
  exact Multiset.coe_eq_coe.mpr ((List.perm_cons_erase h).map _)

/-! ## Steps are moves -/

/-- The estate of a session, with the permission to give a chunk back. -/
def granted (s : Session P) : Estate :=
  ⟨s.world.os, s.world.inner.nonLocalPtrManager, {.permit} + s.items⟩

def estate (s : Session P) : Estate :=
  ⟨s.world.os, s.world.inner.nonLocalPtrManager, s.items⟩

/-- The invariant of the allocator between two calls. -/
def Rests (s : Session P) : Prop := Sound s.world (tokens (held s.live))

/-- Additional permissions change nothing. -/
theorem grantPermit {w : World P} {toks : Multiset (Token P)} (hs : Sound w toks) :
    Sound w (tokens {.permit} + toks) where
  formed := hs.formed
  calm := hs.calm
  kinds := by
    intro k u hu
    rw [itemsOf_add, itemsOf_tokens] at hu
    refine hs.kinds k u ?_
    simpa using hu
  own := hs.own
  holds t ht := by
    rcases Multiset.mem_add.mp ht with ht | ht
    · exact holds_tokens ht
    · exact hs.holds t ht
  busy := by
    rw [busyness_add, busyness_tokens, zero_add]
    exact hs.busy
  depth := by
    rw [depth_add, depth_tokens, zero_add]
    exact hs.depth

/-- A computation that has used up the permission, seen from the session. -/
theorem rests_of_triple {α : Type} {x : M P α} {give : Multiset Item} {take : α → Multiset Item}
    {w w' : World P} {a : α} (left : List Block)
    (hx : (discipline P).Triple (tokens give) x fun a => tokens (take a))
    (hs : Sound w (tokens give + tokens (held left))) (hret : x.Returns w a w') :
    Sound w' (tokens (take a + held left)) ∧
      Moves ⟨w.os, w.inner.nonLocalPtrManager, w.holdings + (give + held left)⟩
        ⟨w'.os, w'.inner.nonLocalPtrManager, w'.holdings + (take a + held left)⟩ := by
  obtain ⟨hs', hgoes⟩ := hx w (tokens (held left)) hs a w' hret
  have hmoves : Moves (w.estate (itemsOf (tokens give + tokens (held left))))
      (w'.estate (itemsOf (tokens (take a) + tokens (held left)))) := hgoes
  rw [itemsOf_add, itemsOf_add, itemsOf_tokens, itemsOf_tokens, itemsOf_tokens] at hmoves
  rw [tokens_add]
  exact ⟨hs', hmoves⟩

/-- The permission that is left over. -/
theorem moves_dropPermit {os os' : Os} {m m' : Option Nat} {items items' : Multiset Item}
    (h : Moves ⟨os, m, items⟩ ⟨os', m', items'⟩) :
    Moves ⟨os, m, {.permit} + items⟩ ⟨os', m', items'⟩ :=
  (Moves.single .dropPermit items rfl (zero_add _).symm).trans h

/-- Forget a permission. -/
theorem dropPermit {w : World P} {toks : Multiset (Token P)}
    (hs : Sound w (tokens {.permit} + toks)) : Sound w toks := by
  have hstep : Memalart.Step w (tokens {.permit}) w 0 := by
    refine .exchange hs.formed hs.calm (by simp) (by simp) (depth_tokens _) ?_
    rw [itemsOf_tokens, itemsOf_zero]
    exact Moves.single .dropPermit 0 (add_zero _).symm (add_zero _).symm
  have hs' := hstep.sound hs
  rwa [zero_add] at hs'

theorem freeNext_triple (k : ChunkKind) :
    (discipline P).Triple (tokens {.permit}) (freeNext k) fun _ => tokens 0 := by
  have hget := (tryGetChunk_triple (P := P) k).frame (tokens {.permit})
  rw [zero_add] at hget
  refine hget.bind fun chunk => ?_
  cases chunk with
  | none =>
      have hgive : (foundChunk k none + tokens {.permit} : Multiset (Token P)) =
          tokens {.permit} := zero_add _
      rw [hgive]
      refine Triple.exchange (Discipline.Triple.pure rfl) fun w rest hs => ?_
      refine .exchange hs.formed hs.calm (by simp) (by simp) (depth_tokens _) ?_
      rw [itemsOf_tokens, itemsOf_tokens]
      exact Moves.single .dropPermit 0 (add_zero _).symm (add_zero _).symm
  | some chunk =>
      have hfree := (freeChunk_triple (P := P) k chunk).frame {.ready}
      have hgive : (foundChunk k (some chunk) + tokens {.permit} : Multiset (Token P)) =
          tokens ({.chunk k chunk} + {.permit}) + {.ready} := by
        rw [tokens_add, tokens_singleton, tokens_singleton, foundChunk]
        abel
      rw [hgive]
      refine hfree.bind fun _ => ?_
      rw [zero_add]
      exact Triple.forgetAll .ready (Discipline.Triple.pure rfl)

theorem quiet_outside (os : Os) (limit allocated : Nat) : os.Quiet (os.outside limit allocated) :=
  ⟨rfl, rfl, List.suffix_rfl⟩

/-- Every step of a session ends in a sound state and makes moves of its estate. -/
theorem Step.moves {s s' : Session P} {c : Call} (hstep : Step s c s') (hs : s.Rests) :
    s'.Rests ∧ Moves s.granted s'.estate := by
  cases hstep with
  | @served w w' live ptr size depth h =>
      obtain ⟨hs', hmoves⟩ := rests_of_triple live
        (tryAlloc_triple (servesAlways_threadLocalAllocator depth) size) (grantPermit hs) h
      refine ⟨hs', ?_⟩
      rw [add_left_comm] at hmoves
      exact hmoves
  | @refused w w' live size depth h =>
      obtain ⟨hs', hmoves⟩ := rests_of_triple live
        (tryAlloc_triple (servesAlways_threadLocalAllocator depth) size) (grantPermit hs) h
      rw [Memalart.served, tokens_add] at hs'
      rw [add_left_comm, add_left_comm w'.holdings] at hmoves
      exact ⟨dropPermit hs', hmoves.trans (moves_dropPermit (Moves.refl _))⟩
  | @freed w w' live b depth hlive h =>
      have hgive : tokens (held live) =
          (tokens {blockItem b.size b.ptr} + tokens (held (live.erase b)) : Multiset (Token P)) := by
        rw [held_erase hlive, tokens_add]
      have hdealloc : (discipline P).Triple (tokens {blockItem b.size b.ptr})
          (dealloc (threadLocalAllocator depth) b.ptr b.size) fun _ => tokens 0 :=
        dealloc_triple (servesAlways_threadLocalAllocator depth).toServes b.ptr b.size
      obtain ⟨hs', hmoves⟩ := rests_of_triple (live.erase b) hdealloc (hgive ▸ hs) h
      rw [zero_add] at hs' hmoves
      rw [← held_erase hlive] at hmoves
      exact ⟨hs', moves_dropPermit hmoves⟩
  | @trimmed w w' live again k h =>
      obtain ⟨hs', hmoves⟩ := rests_of_triple live (freeNext_triple k) (grantPermit hs) h
      rw [zero_add] at hs' hmoves
      rw [add_left_comm] at hmoves
      exact ⟨hs', hmoves⟩
  | @outside w live limit allocated =>
      have hquiet := quiet_outside w.os limit allocated
      have houtside : Memalart.Step w 0 (w.setOs (w.os.outside limit allocated)) 0 :=
        .setOs hs.formed hs.calm (by simp) le_rfl rfl (Moves.quiet hquiet 0)
      exact ⟨(houtside.beside hs).1, moves_dropPermit (Moves.quiet hquiet _)⟩

/-! ## Runs -/

theorem items_initial (replies : List Reply) : (initial P replies).items = 0 := by
  have hvecs : ∀ v, vecItems v ((ThreadLocalAllocatorInner.new : ThreadLocalAllocatorInner P).vec v)
      = 0 := fun v => by
    rw [ThreadLocalAllocatorInner.vec_new]
    cases v <;> rfl
  have hmanager : managerItems P none = 0 := by
    unfold managerItems
    split <;> rfl
  simp only [items, initial, World.holdings, World.new, ThreadLocalAllocatorInner.items, hvecs,
    Finset.sum_const_zero, held_nil]
  simp [ThreadLocalAllocatorInner.new, hmanager, P.tree.nodes_empty, nodeItems]

theorem rests_initial (replies : List Reply) : (initial P replies).Rests where
  formed := ⟨fun _ _ _ _ => rfl, fun _ => ⟨rfl, rfl⟩, by simp [initial, World.new], rfl⟩
  calm := by simp [World.Calm, initial, World.new]
  kinds := by
    rw [itemsOf_tokens]
    show Kinds (initial P replies).items
    rw [items_initial]
    exact fun k u hu => absurd hu (Multiset.notMem_zero _)
  own _ := .inl rfl
  holds := by simp [initial]
  busy := by simp [initial]
  depth := rfl

/-- What the ledgers say holds in every state that a session reaches. -/
theorem Reached.ledger {J : Os → Option Nat → Multiset Item → Prop} {calls : List Call}
    {s : Session P} (hJ : Ledger J) (hzero : ∀ replies, J (Os.initial replies) none 0)
    (h : Reached calls s) :
    s.Rests ∧ J s.world.os s.world.inner.nonLocalPtrManager s.items := by
  obtain ⟨replies, hrun⟩ := reached_iff.mp h
  refine hrun.invariant
    (I := fun s => s.Rests ∧ J s.world.os s.world.inner.nonLocalPtrManager s.items) ?_ ?_
  · rintro s c s' ⟨hrests, hold⟩ hstep
    obtain ⟨hrests', hmoves⟩ := hstep.moves hrests
    exact ⟨hrests', hJ.moves hmoves hold⟩
  · refine ⟨rests_initial replies, ?_⟩
    rw [items_initial]
    exact hzero replies

theorem Reached.books {calls : List Call} {s : Session P} (h : Reached calls s) :
    s.Rests ∧ Books s.world.os s.world.inner.nonLocalPtrManager s.items :=
  h.ledger ledger_books fun _ => books_zero

/-- Between two calls there are no bootstrap States. -/
theorem Rests.states {s : Session P} (hs : s.Rests) : s.world.states = [] := by
  have hdepth := hs.depth
  rw [depth_tokens] at hdepth
  exact List.length_eq_zero_iff.mp hdepth

/-! ## Runs that are computed -/

/-- Carry out one request, with calls that nest at most so deep. -/
def perform (depth : Nat) (request : Request) (s : Session P) : Option (Call × Session P) :=
  match request with
  | .tryAlloc size =>
      match ThreadLocalAllocator.tryAlloc (threadLocalAllocator depth) size s.world with
      | .ok (some ptr, w) => some (.served ⟨ptr, size⟩, ⟨w, ⟨ptr, size⟩ :: s.live⟩)
      | .ok (none, w) => some (.refused size, ⟨w, s.live⟩)
      | .error _ => none
  | .dealloc b =>
      if b ∈ s.live then
        match ThreadLocalAllocator.dealloc (threadLocalAllocator depth) b.ptr b.size s.world with
        | .ok (_, w) => some (.freed b, ⟨w, s.live.erase b⟩)
        | .error _ => none
      else none
  | .outside limit allocated =>
      some (.outside limit allocated,
        ⟨s.world.setOs (s.world.os.outside limit allocated), s.live⟩)

theorem step_of_perform {depth : Nat} {request : Request} {s s' : Session P} {c : Call}
    (h : perform depth request s = some (c, s')) : Step s c s' := by
  obtain ⟨w, live⟩ := s
  cases request with
  | tryAlloc size =>
      simp only [perform] at h
      split at h
      · next ptr w' hret =>
          cases h
          exact .served depth hret
      · next w' hret =>
          cases h
          exact .refused depth hret
      · cases h
  | dealloc b =>
      simp only [perform] at h
      split at h
      · next hlive =>
          split at h
          · next u w' hret =>
              cases h
              exact .freed depth hlive hret
          · cases h
      · cases h
  | outside limit allocated =>
      cases h
      exact .outside limit allocated

/-- Carry out requests one after the other, and ask whether the outcome satisfies `p`. -/
def trial (depth : Nat) (p : List Call → Session P → Bool) :
    List Request → List Call → Session P → Bool
  | [], calls, s => p calls s
  | request :: requests, calls, s =>
      match perform depth request s with
      | some (c, s') => trial depth p requests (calls ++ [c]) s'
      | none => false

/-- A computed run is a run. -/
theorem reached_of_trial {depth : Nat} {p : List Call → Session P → Bool}
    {requests : List Request} {calls : List Call} {s : Session P} (hs : Reached calls s)
    (h : trial depth p requests calls s = true) :
    ∃ calls' s', Reached calls' s' ∧ p calls' s' = true := by
  induction requests generalizing calls s with
  | nil => exact ⟨calls, s, hs, h⟩
  | cons request requests ih =>
      simp only [trial] at h
      split at h
      · next c s' hperform =>
          exact ih (hs.step (step_of_perform hperform)) h
      · cases h

/-- Nothing has been asked for yet. -/
theorem reached_initial (replies : List Reply) : Reached [] (initial P replies) :=
  reached_iff.mpr ⟨replies, .nil _⟩

end Session

end Memalart
