/-
# Every object is in one place

The containers of all allocators (vectors, lists, the frames that calls are in the
middle of) against the place of each object: a container holds an object once if
that is where the object is, and otherwise not at all.
-/

import Memalart.RemoteFree

set_option linter.unusedSectionVars false

namespace Memalart.RemoteFree

universe u v

variable {Id : Type u} {Obj : Type v}

namespace Frame

/-- The object that a frame has in hand. -/
def hand (origin : Origin) : Frame Id Obj → List Obj
  | .freeing x => if origin = .freeing then [x] else []
  | .putting _ x o => if origin = o then [x] else []
  | _ => []

/-- The nodes that a frame holds, an object or their own address in them. -/
def held : Frame Id Obj → List Obj
  | .pushing n _ _ => [n]
  | .draining _ rest | .returning _ _ rest => rest
  | _ => []

/-- The node whose object is being handled. -/
def spent : Frame Id Obj → List Obj
  | .returning n _ _ => [n]
  | _ => []

end Frame

/-- The places that are containers of the model. -/
def Place.isContainer : Place Id Obj → Bool
  | .live | .own _ | .free _ _ | .hand _ _ | .listed _ | .held _ | .spent _ => true
  | .unborn | .carried _ | .released => false

/-- The objects that a container holds. -/
def State.holding (st : State Id Obj) : Place Id Obj → List Obj
  | .live => st.live
  | .own a => st.own a
  | .free a s => st.free a s
  | .hand a origin => (st.frames a).flatMap (Frame.hand origin)
  | .listed b => st.list b
  | .held a => (st.frames a).flatMap Frame.held
  | .spent a => (st.frames a).flatMap Frame.spent
  | .unborn | .carried _ | .released => []

variable [DecidableEq Id] [DecidableEq Obj]

/-- Each container holds what is placed there, once. -/
def Placed (st : State Id Obj) : Prop :=
  ∀ p, p.isContainer → ∀ x, (st.holding p).count x = if st.place x = p then 1 else 0

namespace Placed

variable {st st' : State Id Obj}

theorem mem_iff (h : Placed st) {p : Place Id Obj} (hp : p.isContainer) {x : Obj} :
    x ∈ st.holding p ↔ st.place x = p := by
  rw [← List.count_pos_iff, h p hp x]
  split <;> simp_all

theorem nodup (h : Placed st) {p : Place Id Obj} (hp : p.isContainer) : (st.holding p).Nodup := by
  rw [List.nodup_iff_count_le_one]
  intro x
  rw [h p hp x]
  split <;> simp

/-- The containers change as the places do. -/
theorem of_count (h : Placed st)
    (hcount : ∀ r, r.isContainer → ∀ y,
      (st'.holding r).count y + (if st.place y = r then 1 else 0) =
        (st.holding r).count y + if st'.place y = r then 1 else 0) : Placed st' := by
  intro r hr y
  have hy := hcount r hr y
  rw [h r hr y] at hy
  omega

/-- One object goes from one place to another. -/
theorem move (h : Placed st) {x : Obj} {p q : Place Id Obj} (hx : st.place x = p)
    (hplace : st'.place = Function.update st.place x q)
    (hcount : ∀ r, r.isContainer → ∀ y,
      (st'.holding r).count y + (if p = r ∧ y = x then 1 else 0) =
        (st.holding r).count y + if q = r ∧ y = x then 1 else 0) : Placed st' := by
  refine h.of_count fun r hr y => ?_
  have hy := hcount r hr y
  rw [hplace]
  by_cases hyx : y = x
  · subst hyx
    simpa [hx] using hy
  · simpa [hyx] using hy

/-- Two objects do. -/
theorem move₂ (h : Placed st) {x y : Obj} {p q p' q' : Place Id Obj} (hxy : x ≠ y)
    (hx : st.place x = p) (hy : st.place y = p')
    (hplace : st'.place = Function.update (Function.update st.place x q) y q')
    (hcount : ∀ r, r.isContainer → ∀ z,
      (st'.holding r).count z + (if p = r ∧ z = x then 1 else 0) +
          (if p' = r ∧ z = y then 1 else 0) =
        (st.holding r).count z + (if q = r ∧ z = x then 1 else 0) +
          if q' = r ∧ z = y then 1 else 0) : Placed st' := by
  refine h.of_count fun r hr z => ?_
  have hz := hcount r hr z
  rw [hplace]
  by_cases hzy : z = y
  · subst hzy
    simpa [hy, Ne.symm hxy] using hz
  · by_cases hzx : z = x
    · subst hzx
      simpa [hx, hxy] using hz
    · simpa [hzx, hzy] using hz

end Placed

/-! ## Containers under the updates -/

section Holding

/-- The allocator on whose stack a place is. -/
def Place.onStack : Place Id Obj → Option Id
  | .hand a _ | .held a | .spent a => some a
  | _ => none

/-- What a stack holds at a place. -/
def stackHolding (fs : List (Frame Id Obj)) : Place Id Obj → List Obj
  | .hand _ origin => fs.flatMap (Frame.hand origin)
  | .held _ => fs.flatMap Frame.held
  | .spent _ => fs.flatMap Frame.spent
  | _ => []

variable (st : State Id Obj) (a : Id) (r : Place Id Obj)

@[simp] theorem stackHolding_append (fs gs : List (Frame Id Obj)) :
    stackHolding (fs ++ gs) r = stackHolding fs r ++ stackHolding gs r := by
  cases r <;> simp [stackHolding]

theorem holding_of_onStack (h : r.onStack = some a) : st.holding r = stackHolding (st.frames a) r := by
  cases r <;> simp_all [Place.onStack, State.holding, stackHolding]

@[simp] theorem holding_setFrames (fs : List (Frame Id Obj)) :
    (st.setFrames a fs).holding r =
      if r.onStack = some a then stackHolding fs r else st.holding r := by
  cases r <;> simp only [Place.onStack, State.holding, stackHolding,
    Function.update_apply, State.setFrames, Option.some.injEq, reduceCtorEq, if_false]
  all_goals split <;> rfl

@[simp] theorem holding_setFree (s : Slot) (xs : List Obj) :
    (st.setFree a s xs).holding r = if r = .free a s then xs else st.holding r := by
  cases r with
  | free b t =>
      by_cases hb : b = a
      · subst hb
        by_cases ht : t = s
        · simp [State.holding, ht]
        · simp [State.holding, ht]
      · simp [State.holding, hb]
  | _ => simp [State.holding]

@[simp] theorem holding_setOwn (xs : List Obj) :
    (st.setOwn a xs).holding r = if r = .own a then xs else st.holding r := by
  cases r with
  | own b =>
      by_cases hb : b = a
      · simp [State.holding, hb]
      · simp [State.holding, hb]
  | _ => simp [State.holding]

@[simp] theorem holding_setLive (xs : List Obj) :
    (st.setLive xs).holding r = if r = .live then xs else st.holding r := by
  cases r <;> simp [State.holding]

@[simp] theorem holding_setList (head : Option Obj) (list : List Obj) :
    (st.setList a head list).holding r = if r = .listed a then list else st.holding r := by
  cases r with
  | listed b =>
      by_cases hb : b = a
      · simp [State.holding, hb]
      · simp [State.holding, hb]
  | _ => simp [State.holding]

@[simp] theorem holding_setCut (s : Slot) (xs : List Obj) :
    (st.setCut a s xs).holding r = st.holding r := by
  cases r <;> rfl

@[simp] theorem holding_setPlace (x : Obj) (p : Place Id Obj) :
    (st.setPlace x p).holding r = st.holding r := by
  cases r <;> rfl

@[simp] theorem holding_setValue (n : Obj) (d : Data Obj) :
    (st.setValue n d).holding r = st.holding r := by
  cases r <;> rfl

@[simp] theorem holding_setNext (n : Obj) (p : Option Obj) :
    (st.setNext n p).holding r = st.holding r := by
  cases r <;> rfl

@[simp] theorem holding_record (e : Event Obj) : (st.record e).holding r = st.holding r := by
  cases r <;> rfl

end Holding

theorem frames_eq_cons {st : State Id Obj} {a : Id} {f : Frame Id Obj}
    (h : (st.frames a).head? = some f) : st.frames a = f :: (st.frames a).tail := by
  cases hfs : st.frames a with
  | nil => simp [hfs] at h
  | cons g fs =>
      rw [hfs, List.head?_cons, Option.some.injEq] at h
      rw [h, List.tail_cons]

/-- The objects of a frame on the stack of `a`, with their places. -/
def Frame.contents (a : Id) : Frame Id Obj → List (Place Id Obj × Obj)
  | .freeing x => [(.hand a .freeing, x)]
  | .putting _ x origin => [(.hand a origin, x)]
  | .pushing n _ _ => [(.held a, n)]
  | .draining _ rest => rest.map fun n => (.held a, n)
  | .returning n _ rest => (.spent a, n) :: rest.map fun n => (.held a, n)

theorem count_map_pair (p r : Place Id Obj) (y : Obj) (xs : List Obj) :
    (xs.map fun x => (p, x)).count (r, y) = if p = r then xs.count y else 0 := by
  induction xs with
  | nil => simp
  | cons x xs ih =>
      rw [List.map_cons, List.count_cons, List.count_cons, ih]
      by_cases hp : p = r
      · simp [hp]
      · simp [hp]

theorem count_contents (a : Id) (f : Frame Id Obj) (r : Place Id Obj) (y : Obj) :
    (f.contents a).count (r, y) =
      if r.onStack = some a then (stackHolding [f] r).count y else 0 := by
  cases f <;> cases r <;>
    grind [Frame.contents, stackHolding, Place.onStack, Frame.hand, Frame.held, Frame.spent,
      count_map_pair]

theorem count_flatMap_contents (a : Id) (fs : List (Frame Id Obj)) (r : Place Id Obj) (y : Obj) :
    (fs.flatMap (Frame.contents a)).count (r, y) =
      if r.onStack = some a then (stackHolding fs r).count y else 0 := by
  induction fs with
  | nil => cases r <;> simp [stackHolding]
  | cons f fs ih =>
      rw [List.flatMap_cons, List.count_append, ih, count_contents, ← List.singleton_append (l := fs),
        stackHolding_append, List.count_append]
      split <;> rfl

/-- What the containers hold after the top frame is replaced. -/
theorem count_setTop {st : State Id Obj} {a : Id} {f : Frame Id Obj}
    (h : (st.frames a).head? = some f) (fs : List (Frame Id Obj)) (r : Place Id Obj) (y : Obj) :
    ((st.setTop a fs).holding r).count y + (f.contents a).count (r, y) =
      (st.holding r).count y + (fs.flatMap (Frame.contents a)).count (r, y) := by
  rw [State.setTop, holding_setFrames, count_contents, count_flatMap_contents]
  by_cases hr : r.onStack = some a
  · have hsplit : stackHolding (st.frames a) r =
        stackHolding [f] r ++ stackHolding (st.frames a).tail r := by
      rw [← stackHolding_append, List.singleton_append, ← frames_eq_cons h]
    rw [if_pos hr, if_pos hr, if_pos hr, holding_of_onStack st a r hr, hsplit, stackHolding_append,
      List.count_append, List.count_append]
    omega
  · rw [if_neg hr, if_neg hr, if_neg hr]

/-- What they hold after the allocator is entered. -/
theorem count_enter (st : State Id Obj) (a : Id) (f : Frame Id Obj) (r : Place Id Obj) (y : Obj) :
    ((st.enter a f).holding r).count y = (st.holding r).count y + (f.contents a).count (r, y) := by
  rw [State.enter, holding_setFrames, count_contents]
  by_cases hr : r.onStack = some a
  · rw [if_pos hr, if_pos hr, holding_of_onStack st a r hr, ← List.singleton_append,
      stackHolding_append, List.count_append, Nat.add_comm]
  · rw [if_neg hr, if_neg hr, Nat.add_zero]

end Memalart.RemoteFree
