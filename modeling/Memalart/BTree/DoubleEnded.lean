/-
# Iterating from both ends

The iterator of the map holds two places of the tree, and goes on from either of them: `next`
takes the key after the front, `next_back` the key before the back.  The number of keys that
are left decides when it ends; the two places are never compared.  The walk to the left mirrors
the walk to the right, at edges that count what is below them to their right.
-/

import Memalart.BTree.Calls
import Memalart.Lib.TwoEnds

namespace Memalart.BTree

open Lib Machine

variable {K V : Type} {S : NodeSizes} {A : SelfAllocator} {rootLen h i : Nat} {n c : Node K V}
  {f : Frame K V} {path : List (Frame K V)} {e kv : NodeHandle K V} {root : Root K V}
  {left right items : List (K × V)} {item : K × V}

/-! ## The walk to the left -/

namespace NodeHandle

/-- The loop of `next_back_kv`. -/
def nextBackKvLoop : Nat → NodeHandle K V → Except Fault (Option (NodeHandle K V))
  | 0, _ => .error .outOfFuel
  | fuel + 1, edge =>
      match edge.leftKv with
      | some kv => .ok (some kv)
      | none => do
          match ← edge.node.ascend with
          | some parentEdge => nextBackKvLoop fuel parentEdge
          | none => .ok none

/-- `next_back_kv`, of a leaf edge; none at the beginning of the tree. -/
def nextBackKv (edge : NodeHandle K V) : Except Fault (Option (NodeHandle K V)) :=
  nextBackKvLoop (edge.node.path.length + 1) edge

/-- `next_back_leaf_edge`. -/
def nextBackLeafEdge (kv : NodeHandle K V) : Except Fault (NodeHandle K V) :=
  if kv.node.height = 0 then .ok kv.leftEdge
  else do
    let child ← kv.leftEdge.descend
    child.lastLeafEdge

end NodeHandle

/-! ## The iterator -/

/-- `last_leaf_edge` of a root that has not been descended. -/
def LazyLeafHandle.forceBack : LazyLeafHandle K V → Except Fault (NodeHandle K V)
  | .root r => r.lastLeafEdge
  | .edge e => .ok e

/-- `LazyLeafRange`. -/
structure LazyLeafRange (K V : Type) where
  front : Option (LazyLeafHandle K V)
  back : Option (LazyLeafHandle K V)

namespace LazyLeafRange

/-- `full_range`. -/
def fullRange (r : NodeRef K V) : LazyLeafRange K V := ⟨some (.root r), some (.root r)⟩

/-- `init_front`, unwrapped. -/
def initFront (range : LazyLeafRange K V) : Except Fault (NodeHandle K V) :=
  match range.front with
  | none => .error (.panic "called `Option::unwrap()` on a `None` value")
  | some front => front.force

/-- `init_back`, unwrapped. -/
def initBack (range : LazyLeafRange K V) : Except Fault (NodeHandle K V) :=
  match range.back with
  | none => .error (.panic "called `Option::unwrap()` on a `None` value")
  | some back => back.forceBack

/-- `next_unchecked`. -/
def nextUnchecked (range : LazyLeafRange K V) : Except Fault ((K × V) × LazyLeafRange K V) := do
  let edge ← range.initFront
  match ← edge.nextKv with
  | none => .error (.panic "called `Option::unwrap()` on a `None` value")
  | some kv => do
      let edge ← kv.nextLeafEdge
      let item ← kv.intoKv
      .ok (item, { range with front := some (.edge edge) })

/-- `next_back_unchecked`. -/
def nextBackUnchecked (range : LazyLeafRange K V) : Except Fault ((K × V) × LazyLeafRange K V) := do
  let edge ← range.initBack
  match ← edge.nextBackKv with
  | none => .error (.panic "called `Option::unwrap()` on a `None` value")
  | some kv => do
      let edge ← kv.nextBackLeafEdge
      let item ← kv.intoKv
      .ok (item, { range with back := some (.edge edge) })

end LazyLeafRange

/-- `Iter`, with both of its ends. -/
structure DoubleEndedIter (K V : Type) where
  range : LazyLeafRange K V
  length : Nat

/-- `iter`, with both ends. -/
def SelfAllocatedBTreeMap.doubleEndedIter (map : SelfAllocatedBTreeMap K V) : DoubleEndedIter K V :=
  match map.root with
  | some root => ⟨.fullRange root.borrow, map.length⟩
  | none => ⟨⟨none, none⟩, 0⟩

namespace DoubleEndedIter

/-- `next`. -/
def next (it : DoubleEndedIter K V) : Except Fault (Option (K × V) × DoubleEndedIter K V) :=
  if it.length = 0 then .ok (none, it)
  else do
    let (item, range) ← it.range.nextUnchecked
    .ok (some item, ⟨range, it.length - 1⟩)

/-- `next_back`. -/
def nextBack (it : DoubleEndedIter K V) : Except Fault (Option (K × V) × DoubleEndedIter K V) :=
  if it.length = 0 then .ok (none, it)
  else do
    let (item, range) ← it.range.nextBackUnchecked
    .ok (some item, ⟨range, it.length - 1⟩)

/-- A call at one of the ends. -/
def call : End → DoubleEndedIter K V → Except Fault (Option (K × V) × DoubleEndedIter K V)
  | .front, it => it.next
  | .back, it => it.nextBack

/-- `last`, and `max`. -/
def last (it : DoubleEndedIter K V) : Except Fault (Option (K × V)) := do
  let (item, _) ← it.nextBack
  .ok item

/-- `min`. -/
def min (it : DoubleEndedIter K V) : Except Fault (Option (K × V)) := do
  let (item, _) ← it.next
  .ok item

/-- The iterator without its back. -/
def fromFront (it : DoubleEndedIter K V) : Iter K V := ⟨it.range.front, it.length⟩

/-- `next` only uses the front. -/
theorem next_fromFront (it : DoubleEndedIter K V) :
    it.fromFront.next = it.next.map (Prod.map id fromFront) := by
  have hfront : it.fromFront.initFront = it.range.initFront := rfl
  rw [Iter.next, DoubleEndedIter.next, LazyLeafRange.nextUnchecked, hfront]
  change (if it.length = 0 then _ else _) = _
  by_cases hlength : it.length = 0
  · rw [if_pos hlength, if_pos hlength]
    rfl
  rw [if_neg hlength, if_neg hlength]
  simp only [bind, Except.bind]
  cases it.range.initFront with
  | error e => rfl
  | ok edge =>
      dsimp only
      cases edge.nextKv with
      | error e => rfl
      | ok kv =>
          cases kv with
          | none => rfl
          | some kv =>
              dsimp only
              cases kv.nextLeafEdge with
              | error e => rfl
              | ok edge =>
                  dsimp only
                  cases kv.intoKv with
                  | error e => rfl
                  | ok item => rfl

end DoubleEndedIter

/-- Both models of `iter` are one iterator, for a caller that only asks for the next key. -/
theorem SelfAllocatedBTreeMap.fromFront_doubleEndedIter (map : SelfAllocatedBTreeMap K V) :
    map.doubleEndedIter.fromFront = map.iter := by
  rw [doubleEndedIter, iter]
  cases map.root with
  | none => rfl
  | some root => rfl

theorem SelfAllocatedBTreeMap.yields_iter {map : SelfAllocatedBTreeMap K V} {items : List (K × V)}
    (h : Yields DoubleEndedIter.next map.doubleEndedIter items) : Yields Iter.next map.iter items := by
  rw [← map.fromFront_doubleEndedIter]
  exact h.view DoubleEndedIter.next_fromFront

/-! ## Places that count what is below them to the right -/

/-- The keys up to an edge of a node, without those below the edge. -/
def upToEdge : Nat → Node K V → Nat → List (K × V)
  | 0, n, i => n.kvs.take i
  | h + 1, n, i => bindings ((n.frameAt i).before h)

/-- The keys from an edge of a node on, with those below the edge. -/
def fromEdge : Nat → Node K V → Nat → List (K × V)
  | 0, n, i => n.kvs.drop i
  | h + 1, n, i => bindings (weave ((n.edges.drop i).map (layout h)) ((n.kvs.drop i).map .sep))

/-- An edge stands in a tree, with these keys on its left, and these below it and on its
right. -/
structure StandsBefore (rootLen : Nat) (root : Root K V) (e : NodeHandle K V)
    (left right : List (K × V)) : Prop where
  fits : Fits rootLen e.node
  toRoot : e.node.toRoot = root
  idx_le : e.idx ≤ e.node.len
  left_eq :
    bindings (before e.node.height e.node.path) ++ upToEdge e.node.height e.node.node e.idx = left
  right_eq :
    fromEdge e.node.height e.node.node e.idx ++ bindings (after e.node.height e.node.path) = right

/-- In a leaf there is nothing below an edge. -/
theorem Stands.standsBefore (hs : Stands rootLen root e left right) (hheight : e.node.height = 0) :
    StandsBefore rootLen root e left right := by
  obtain ⟨⟨h, n, path⟩, i⟩ := e
  obtain rfl : h = 0 := hheight
  exact ⟨hs.fits, hs.toRoot, hs.idx_le, hs.left_eq, hs.right_eq⟩

/-- Everything in a node is right of its first edge. -/
theorem fromEdge_zero (h : Nat) (n : Node K V) : fromEdge h n 0 = bindings (layout h n) := by
  cases h with
  | zero => simp [fromEdge, layout]
  | succ h => rfl

theorem upToEdge_zero (h : Nat) (n : Node K V) : upToEdge h n 0 = [] := by
  cases h with
  | zero => rfl
  | succ h => simp [upToEdge, Frame.before, Node.frameAt]

theorem fromEdge_succ (hc : n.edges[i]? = some c) :
    fromEdge (h + 1) n i = bindings (layout h c) ++ bindings ((n.frameAt i).after h) := by
  obtain ⟨hlt, rfl⟩ := List.getElem?_eq_some_iff.1 hc
  rw [fromEdge, List.drop_eq_getElem_cons hlt, List.map_cons, weave_cons, bindings_append]
  rfl

/-- From the beginning of a node, the walk goes on at the edge above. -/
theorem StandsBefore.up (hs : StandsBefore rootLen root ⟨⟨h, n, f :: path⟩, 0⟩ left right) :
    StandsBefore rootLen root ⟨⟨h + 1, f.plug n, path⟩, f.idx⟩ left right := by
  have hframe : FrameOk h f := hs.fits.path.1
  refine ⟨hs.fits.up, toRoot_up.trans hs.toRoot, ?_, ?_, ?_⟩
  · show f.idx ≤ (f.plug n).len
    rw [len_plug, Frame.len, Frame.idx, hframe.left_length]
    exact Nat.le_add_right _ _
  · rw [← hs.left_eq, upToEdge_zero, upToEdge, frameAt_plug hframe]
    simp [before]
  · rw [← hs.right_eq, fromEdge_zero, fromEdge_succ getElem?_plug, frameAt_plug hframe]
    simp [after]

/-- The keys up to an edge end with the key left of it. -/
theorem upToEdge_succ (hn : Sound h n) (hget : n.kvs[i]? = some item) :
    upToEdge h n (i + 1) = upTo h n i ++ [item] := by
  cases h with
  | zero =>
      simp only [upToEdge, upTo, List.take_add_one]
      rw [hget, Option.toList_some]
  | succ h => exact bindings_before_succ hn hget

/-- The keys from a key on are the key and those behind the edge after it. -/
theorem onFrom_eq (hget : n.kvs[i]? = some item) : onFrom h n i = item :: fromEdge h n (i + 1) := by
  cases h with
  | zero => exact onFrom_zero hget
  | succ h => exact onFrom_succ hget

/-- The key left of an edge. -/
theorem StandsBefore.leftKv {r : NodeRef K V} (hs : StandsBefore rootLen root ⟨r, i + 1⟩ left right) :
    ∃ left' item, left = left' ++ [item] ∧ i < r.len ∧
      Stands rootLen root ⟨r, i⟩ left' (item :: right) := by
  have hlt : i < r.len := hs.idx_le
  have hget : r.node.kvs[i]? = some r.node.kvs[i] := List.getElem?_eq_getElem hlt
  refine ⟨bindings (before r.height r.path) ++ upTo r.height r.node i, r.node.kvs[i], ?_, hlt,
    hs.fits, hs.toRoot, hlt.le, rfl, ?_⟩
  · rw [← hs.left_eq, upToEdge_succ hs.fits.sound hget, List.append_assoc]
  · rw [← hs.right_eq, onFrom_eq hget, List.cons_append]

theorem nextBackKvLoop_spec {fuel : Nat} (hs : StandsBefore rootLen root e left right)
    (hfuel : e.node.path.length < fuel) :
    (left = [] ∧ NodeHandle.nextBackKvLoop fuel e = .ok none) ∨
      ∃ kv left' item, left = left' ++ [item] ∧
        NodeHandle.nextBackKvLoop fuel e = .ok (some kv) ∧ kv.idx < kv.node.len ∧
        Stands rootLen root kv left' (item :: right) := by
  induction fuel generalizing e with
  | zero => exact absurd hfuel (Nat.not_lt_zero _)
  | succ fuel ih =>
      obtain ⟨⟨h, n, path⟩, i⟩ := e
      cases i with
      | succ i =>
          obtain ⟨left', item, hleft, hlt, hkv⟩ := hs.leftKv
          refine .inr ⟨⟨⟨h, n, path⟩, i⟩, left', item, hleft, ?_, hlt, hkv⟩
          rw [NodeHandle.nextBackKvLoop, NodeHandle.leftKv, if_pos (Nat.succ_pos i)]
          rfl
      | zero =>
          cases path with
          | nil =>
              refine .inl ⟨?_, ?_⟩
              · rw [← hs.left_eq, upToEdge_zero]
                rfl
              · rw [NodeHandle.nextBackKvLoop, NodeHandle.leftKv, if_neg (Nat.lt_irrefl 0)]
                show (NodeRef.ascend ⟨h, n, []⟩ >>= _) = _
                rw [ascend_nil hs.fits.link]
                rfl
          | cons f path =>
              have hrest := ih hs.up (Nat.lt_of_succ_lt_succ hfuel)
              have hstep : NodeHandle.nextBackKvLoop (fuel + 1) ⟨⟨h, n, f :: path⟩, 0⟩ =
                  NodeHandle.nextBackKvLoop fuel ⟨⟨h + 1, f.plug n, path⟩, f.idx⟩ := by
                rw [NodeHandle.nextBackKvLoop, NodeHandle.leftKv, if_neg (Nat.lt_irrefl 0)]
                show (NodeRef.ascend ⟨h, n, f :: path⟩ >>= _) = _
                rw [ascend_cons hs.fits.link]
                rfl
              rw [hstep]
              exact hrest

/-- The walk ends at the next key on the left. -/
theorem nextBackKv_next (hs : StandsBefore rootLen root e (left ++ [item]) right) :
    ∃ kv, e.nextBackKv = .ok (some kv) ∧ kv.idx < kv.node.len ∧
      Stands rootLen root kv left (item :: right) := by
  rcases nextBackKvLoop_spec hs (Nat.lt_succ_self _) with ⟨hleft, -⟩ | ⟨kv, left', item', heq, hkv⟩
  · simp at hleft
  · obtain ⟨rfl, hitem⟩ := List.append_inj' heq rfl
    cases hitem
    exact ⟨kv, hkv⟩

/-- The leaf edge before a key. -/
theorem nextBackLeafEdge_spec (hs : Stands rootLen root kv left right) (hlt : kv.idx < kv.node.len) :
    ∃ e, kv.nextBackLeafEdge = .ok e ∧ e.node.height = 0 ∧ Stands rootLen root e left right := by
  obtain ⟨⟨h, n, path⟩, i⟩ := kv
  cases h with
  | zero => exact ⟨_, rfl, rfl, hs⟩
  | succ h =>
      obtain ⟨c, hc, hdescend, hfits⟩ := descend_eq hs.fits hlt.le
      obtain ⟨e, he, hheight, -, hstands⟩ := lastLeafEdge_spec hfits
      refine ⟨e, ?_, hheight, ?_⟩
      · show (NodeHandle.descend ⟨⟨h + 1, n, path⟩, i⟩ >>= _) = _
        rw [hdescend]
        exact he
      · rw [toRoot_down hc, show NodeRef.toRoot ⟨h + 1, n, path⟩ = root from hs.toRoot] at hstands
        rw [← hs.left_eq, ← hs.right_eq]
        convert hstands using 1
        · rw [upTo_succ hs.fits.sound hc]
          simp [before]
        · simp [after, onFrom_frameAt]

/-! ## Between the two places -/

/-- The two places of an iterator stand around these keys, as long as there are any. -/
structure Between (it : DoubleEndedIter K V) (items : List (K × V)) : Prop where
  length_eq : it.length = items.length
  places : items ≠ [] → ∃ root front back ef eb left right,
    it.range = ⟨some front, some back⟩ ∧ front.force = .ok ef ∧ back.forceBack = .ok eb ∧
      eb.node.height = 0 ∧ Stands 1 root ef left (items ++ right) ∧
      Stands 1 root eb (left ++ items) right

variable {range : LazyLeafRange K V}

theorem Between.next (h : Between ⟨range, i⟩ (item :: items)) :
    ∃ it', DoubleEndedIter.next ⟨range, i⟩ = .ok (some item, it') ∧ Between it' items := by
  obtain ⟨root, front, back, ef, eb, left, right, rfl, hfront, hback, hheight, hef, heb⟩ :=
    h.places (List.cons_ne_nil _ _)
  rw [List.cons_append] at hef
  obtain ⟨kv, hnext, hlt, hkv⟩ := nextKv_next hef
  obtain ⟨e', hedge, -, he'⟩ := nextLeafEdge_spec hkv hlt
  have hpos : i ≠ 0 := fun hzero => by
    have hlength := h.length_eq
    rw [hzero] at hlength
    cases hlength
  refine ⟨⟨⟨some (.edge e'), some back⟩, i - 1⟩, ?_, ?_, fun _ => ?_⟩
  · rw [DoubleEndedIter.next, if_neg hpos, LazyLeafRange.nextUnchecked]
    show ((front.force >>= _) >>= _) = _
    rw [hfront]
    show ((ef.nextKv >>= _) >>= _) = _
    rw [hnext]
    show ((kv.nextLeafEdge >>= _) >>= _) = _
    rw [hedge]
    show ((kv.intoKv >>= _) >>= _) = _
    rw [hkv.intoKv hlt]
    rfl
  · exact congrArg (· - 1) h.length_eq
  · refine ⟨root, .edge e', back, e', eb, left ++ [item], right, rfl, rfl, hback, hheight, he', ?_⟩
    rw [List.append_assoc]
    exact heb

theorem Between.nextBack (h : Between ⟨range, i⟩ (items ++ [item])) :
    ∃ it', DoubleEndedIter.nextBack ⟨range, i⟩ = .ok (some item, it') ∧ Between it' items := by
  obtain ⟨root, front, back, ef, eb, left, right, rfl, hfront, hback, hheight, hef, heb⟩ :=
    h.places (List.concat_ne_nil _ _)
  rw [← List.append_assoc] at heb
  obtain ⟨kv, hnext, hlt, hkv⟩ := nextBackKv_next (heb.standsBefore hheight)
  obtain ⟨e', hedge, hheight', he'⟩ := nextBackLeafEdge_spec hkv hlt
  have hlength := h.length_eq
  rw [List.length_append, List.length_singleton] at hlength
  have hpos : i ≠ 0 := by
    rintro rfl
    cases hlength
  refine ⟨⟨⟨some front, some (.edge e')⟩, i - 1⟩, ?_, ?_, fun _ => ?_⟩
  · rw [DoubleEndedIter.nextBack, if_neg hpos, LazyLeafRange.nextBackUnchecked]
    show ((back.forceBack >>= _) >>= _) = _
    rw [hback]
    show ((eb.nextBackKv >>= _) >>= _) = _
    rw [hnext]
    show ((kv.nextBackLeafEdge >>= _) >>= _) = _
    rw [hedge]
    show ((kv.intoKv >>= _) >>= _) = _
    rw [hkv.intoKv hlt]
    rfl
  · exact congrArg (· - 1) hlength
  · refine ⟨root, front, .edge e', ef, e', left, item :: right, rfl, hfront, rfl, hheight', ?_, he'⟩
    rw [List.append_cons]
    exact hef

/-- A call at an end answers with the key there. -/
theorem follows_call : Follows (DoubleEndedIter.call (K := K) (V := V)) Between := by
  rintro ⟨range, i⟩ items h e
  cases e with
  | front =>
      cases items with
      | nil =>
          obtain rfl : i = 0 := h.length_eq
          exact ⟨_, rfl, h⟩
      | cons item items => exact h.next
  | back =>
      rcases List.eq_nil_or_concat' items with rfl | ⟨items, item, rfl⟩
      · obtain rfl : i = 0 := h.length_eq
        exact ⟨_, rfl, h⟩
      · obtain ⟨it', hcall, hit'⟩ := h.nextBack
        refine ⟨it', ?_, ?_⟩
        · rw [End.peek, List.getLast?_concat]
          exact hcall
        · rw [End.rest, List.dropLast_concat]
          exact hit'

/-- At first the places stand around all keys. -/
theorem Kept.between {mem : Memory} {map : SelfAllocatedBTreeMap K V} (hkept : Kept S mem map) :
    Between map.doubleEndedIter map.items := by
  obtain ⟨root, length⟩ := map
  cases root with
  | none => exact ⟨rfl, fun hne => absurd rfl hne⟩
  | some root =>
      refine ⟨hkept.length_eq, fun _ => ?_⟩
      obtain ⟨ef, hef, -, hsf⟩ := firstLeafEdge_spec (hkept.fits root rfl)
      obtain ⟨eb, heb, hheight, -, hsb⟩ := lastLeafEdge_spec (hkept.fits root rfl)
      have hitems : bindings (layout root.borrow.height root.borrow.node) =
          bindings root.borrow.tokens := by
        rw [tokens_borrow]
        rfl
      have hbefore : bindings (before root.borrow.height root.borrow.path) = [] := rfl
      have hafter : bindings (after root.borrow.height root.borrow.path) = [] := rfl
      rw [hitems, hbefore, hafter] at hsf hsb
      exact ⟨root.borrow.toRoot, .root root.borrow, .root root.borrow, ef, eb, [], [], rfl, hef, heb,
        hheight, hsf, hsb⟩

variable [LinearOrder K]

/-- After any calls on a new map, the keys can be taken from both ends in any order: each call
answers with the least or the greatest key that is left and its value, until all have been
taken.  `last` and `min` find the greatest and the least key. -/
theorem iter_takes (hA : A.Serves) (calls : List (Call K V)) :
    Ensures (runCalls A S calls .new) .new fun res _ =>
      ∃ items, Lists items (applyCalls calls fun _ => none).2 ∧
        (∀ ends, ∃ it, End.calls DoubleEndedIter.call ends res.2.doubleEndedIter =
          .ok ((End.takes ends items).1, it) ∧ it.length = items.length - ends.length) ∧
        res.2.doubleEndedIter.last = .ok items.getLast? ∧
        res.2.doubleEndedIter.min = .ok items.head? := by
  refine (ensures_runCalls hA .new calls).mono ?_
  rintro ⟨answers, map⟩ mem - ⟨-, hholds⟩
  have hbetween := hholds.toKept.between
  refine ⟨map.items, hholds.lists, fun ends => ?_, ?_, ?_⟩
  · obtain ⟨it, hcalls, hit⟩ := follows_call.calls hbetween ends
    exact ⟨it, hcalls, hit.length_eq.trans (End.length_takes ends _)⟩
  · obtain ⟨it, hback, -⟩ := follows_call _ _ hbetween .back
    show (map.doubleEndedIter.nextBack >>= _) = _
    rw [show map.doubleEndedIter.nextBack = _ from hback]
    rfl
  · obtain ⟨it, hnext, -⟩ := follows_call _ _ hbetween .front
    show (map.doubleEndedIter.next >>= _) = _
    rw [show map.doubleEndedIter.next = _ from hnext]
    rfl

theorem iter_takes_splitAndMerge :
    Ensures (runCalls (bumpAllocator 4096) ⟨192, 288⟩ splitAndMerge .new) .new fun res _ =>
      (∃ it, End.calls DoubleEndedIter.call [.back, .front, .back] res.2.doubleEndedIter =
        .ok ([some (19, 190), some (2, 20), some (18, 180)], it) ∧ it.length = 15) ∧
        res.2.doubleEndedIter.last = .ok (some (19, 190)) ∧
        res.2.doubleEndedIter.min = .ok (some (2, 20)) := by
  refine (iter_takes (bumpAllocator_serves 4096) _).mono ?_
  rintro res mem' - ⟨items, hlists, hends, hlast, hmin⟩
  obtain rfl := hlists.unique lists_splitAndMerge
  exact ⟨hends [.back, .front, .back], hlast, hmin⟩

end Memalart.BTree
