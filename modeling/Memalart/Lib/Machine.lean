/-
# Machines: stateful computations that may stop with a fault

A machine reads and writes a state and either returns a value or stops with a
fault.  The module gives the monad, the relation `Returns` that a development
reasons with, and the inversion lemmas that take a sequence of computations
apart; and, for what holds of every run whether it returns or stops, the relations that
a computation follows.  Nothing here knows what the state or the faults are.
-/

import Mathlib.Logic.Basic
import Mathlib.Order.Defs.Unbundled

namespace Memalart.Lib

/-- A computation on a state `σ` that returns an `α` or stops with a fault `ε`, in the state
that it has reached by then. -/
def Machine (σ ε α : Type) : Type := σ → Except (ε × σ) (α × σ)

namespace Machine

variable {σ τ ε α β : Type}

instance : Monad (Machine σ ε) where
  pure a := fun w => .ok (a, w)
  bind x f := fun w =>
    match x w with
    | .ok (a, w') => f a w'
    | .error e => .error e

/-- Read the whole state. -/
def get : Machine σ ε σ := fun w => .ok (w, w)

/-- Read one component of the state. -/
def gets (f : σ → α) : Machine σ ε α := fun w => .ok (f w, w)

/-- Replace the state by its image under `f`. -/
def modify (f : σ → σ) : Machine σ ε Unit := fun w => .ok ((), f w)

/-- Stop with a fault. -/
def fault (e : ε) : Machine σ ε α := fun w => .error (e, w)

/-- Go on with the value of an optional result, or stop with the fault `e`. -/
def orFault (e : ε) : Option α → Machine σ ε α
  | some a => pure a
  | none => fault e

/-- Go on with the result of a computation that reads no state, or stop with its fault. -/
def ofExcept (r : Except ε α) : Machine σ ε α := fun w =>
  match r with
  | .ok a => .ok (a, w)
  | .error e => .error (e, w)

/-- Run a computation on the component of the state that `read` and `write`
select. -/
def onPart (read : σ → τ) (write : τ → σ → σ) (x : Machine τ ε α) : Machine σ ε α := fun w =>
  match x (read w) with
  | .ok (a, t) => .ok (a, write t w)
  | .error (e, t) => .error (e, write t w)

/-- Run a computation once for every element of a list, in its order. -/
def forEach {ι : Type} (xs : List ι) (body : ι → Machine σ ε Unit) : Machine σ ε Unit :=
  match xs with
  | [] => pure ()
  | x :: rest => do
    body x
    forEach rest body

/-- Run a computation for every element of a list and report whether one of the
runs answered `true`. -/
def anyOf {ι : Type} (xs : List ι) (body : ι → Machine σ ε Bool) : Machine σ ε Bool :=
  match xs with
  | [] => pure false
  | x :: rest => do
    let here ← body x
    let later ← anyOf rest body
    pure (here || later)

/-! ## Returning runs -/

/-- Started in `w`, the computation ends in `w'` and returns `a`. -/
def Returns (x : Machine σ ε α) (w : σ) (a : α) (w' : σ) : Prop := x w = .ok (a, w')

variable {x : Machine σ ε α} {f : α → Machine σ ε β} {w w' : σ} {a : α} {b : β}

@[simp] theorem returns_pure : Returns (pure a : Machine σ ε α) w a' w' ↔ a' = a ∧ w' = w := by
  simp only [Returns, pure, Except.ok.injEq, Prod.mk.injEq]
  exact ⟨fun h => ⟨h.1.symm, h.2.symm⟩, fun h => ⟨h.1.symm, h.2.symm⟩⟩

/-- A sequence returns exactly when both parts do. -/
@[simp] theorem returns_bind :
    Returns (x >>= f) w b w' ↔ ∃ a w₁, Returns x w a w₁ ∧ Returns (f a) w₁ b w' := by
  simp only [Returns, bind]
  cases hx : x w with
  | error e => simp
  | ok r =>
      obtain ⟨a, w₁⟩ := r
      constructor
      · intro h
        exact ⟨a, w₁, rfl, h⟩
      · rintro ⟨a', w₁', h, h'⟩
        cases h
        exact h'

@[simp] theorem returns_get {v : σ} : Returns (get : Machine σ ε σ) w v w' ↔ v = w ∧ w' = w := by
  simp only [Returns, get, Except.ok.injEq, Prod.mk.injEq]
  exact ⟨fun h => ⟨h.1.symm, h.2.symm⟩, fun h => ⟨h.1.symm, h.2.symm⟩⟩

@[simp] theorem returns_gets {g : σ → α} :
    Returns (gets g : Machine σ ε α) w a w' ↔ a = g w ∧ w' = w := by
  simp only [Returns, gets, Except.ok.injEq, Prod.mk.injEq]
  exact ⟨fun h => ⟨h.1.symm, h.2.symm⟩, fun h => ⟨h.1.symm, h.2.symm⟩⟩

@[simp] theorem returns_modify {g : σ → σ} {u : Unit} :
    Returns (modify g : Machine σ ε Unit) w u w' ↔ w' = g w := by
  simp only [Returns, modify, Except.ok.injEq, Prod.mk.injEq, true_and]
  exact eq_comm

@[simp] theorem not_returns_fault {e : ε} : ¬ Returns (fault e : Machine σ ε α) w a w' := by
  simp [Returns, fault]

@[simp] theorem returns_orFault {e : ε} {o : Option α} :
    Returns (orFault e o : Machine σ ε α) w a w' ↔ o = some a ∧ w' = w := by
  cases o with
  | none => simp [orFault]
  | some v => simp [orFault, eq_comm]

/-! ## Total correctness -/

/-- The computation returns, and `post` holds of its result and final state. -/
def Ensures (x : Machine σ ε α) (w : σ) (post : α → σ → Prop) : Prop :=
  ∃ a w', Returns x w a w' ∧ post a w'

variable {post : α → σ → Prop} {post' : β → σ → Prop}

@[simp] theorem ensures_pure : Ensures (pure a : Machine σ ε α) w post ↔ post a w :=
  ⟨fun ⟨_, _, h, hpost⟩ => by obtain ⟨rfl, rfl⟩ := returns_pure.mp h; exact hpost,
    fun hpost => ⟨a, w, returns_pure.mpr ⟨rfl, rfl⟩, hpost⟩⟩

@[simp] theorem ensures_bind :
    Ensures (x >>= f) w post' ↔ Ensures x w fun a w₁ => Ensures (f a) w₁ post' := by
  simp only [Ensures, returns_bind]
  constructor
  · rintro ⟨b, w', ⟨a, w₁, hx, hf⟩, hpost⟩
    exact ⟨a, w₁, hx, b, w', hf, hpost⟩
  · rintro ⟨a, w₁, hx, b, w', hf, hpost⟩
    exact ⟨b, w', ⟨a, w₁, hx, hf⟩, hpost⟩

@[simp] theorem ensures_get {post : σ → σ → Prop} :
    Ensures (get : Machine σ ε σ) w post ↔ post w w :=
  ⟨fun ⟨_, _, h, hpost⟩ => by obtain ⟨rfl, rfl⟩ := returns_get.mp h; exact hpost,
    fun hpost => ⟨w, w, returns_get.mpr ⟨rfl, rfl⟩, hpost⟩⟩

@[simp] theorem ensures_gets {g : σ → α} :
    Ensures (gets g : Machine σ ε α) w post ↔ post (g w) w :=
  ⟨fun ⟨_, _, h, hpost⟩ => by obtain ⟨rfl, rfl⟩ := returns_gets.mp h; exact hpost,
    fun hpost => ⟨g w, w, returns_gets.mpr ⟨rfl, rfl⟩, hpost⟩⟩

@[simp] theorem ensures_modify {g : σ → σ} {post : Unit → σ → Prop} :
    Ensures (modify g : Machine σ ε Unit) w post ↔ post () (g w) :=
  ⟨fun ⟨_, _, h, hpost⟩ => by obtain rfl := returns_modify.mp h; exact hpost,
    fun hpost => ⟨(), g w, returns_modify.mpr rfl, hpost⟩⟩

theorem ensures_ofExcept {r : Except ε α} (h : r = .ok a) :
    Ensures (ofExcept r : Machine σ ε α) w post ↔ post a w := by
  subst h
  exact ensures_pure

/-- The rule of consequence. -/
theorem Ensures.mono {post₂ : α → σ → Prop} (h : Ensures x w post)
    (himp : ∀ a w', Returns x w a w' → post a w' → post₂ a w') : Ensures x w post₂ := by
  obtain ⟨a, w', hx, hpost⟩ := h
  exact ⟨a, w', hx, himp a w' hx hpost⟩

/-! ## Runs that return or stop -/

/-- The state that a run ends in, whether it returns or stops with a fault. -/
def after (x : Machine σ ε α) (w : σ) : σ :=
  match x w with
  | .ok (_, w') => w'
  | .error (_, w') => w'

theorem Returns.after_eq (h : Returns x w a w') : x.after w = w' := by
  unfold after
  rw [show x w = .ok (a, w') from h]

/-- Every run goes from a state to one that is related to it. -/
def Follows (R : σ → σ → Prop) (x : Machine σ ε α) : Prop := ∀ w, R w (x.after w)

section Follows

variable {R : σ → σ → Prop} [IsPreorder σ R]

theorem follows_pure : Follows R (pure a : Machine σ ε α) := fun w => refl_of R w

theorem follows_get : Follows R (get : Machine σ ε σ) := fun w => refl_of R w

theorem follows_gets {g : σ → α} : Follows R (gets g : Machine σ ε α) := fun w => refl_of R w

theorem follows_fault {e : ε} : Follows R (fault e : Machine σ ε α) := fun w => refl_of R w

omit [IsPreorder σ R] in
theorem follows_modify {g : σ → σ} (h : ∀ w, R w (g w)) :
    Follows R (modify g : Machine σ ε Unit) := h

theorem follows_orFault {e : ε} {o : Option α} : Follows R (orFault e o : Machine σ ε α) := by
  cases o with
  | none => exact follows_fault
  | some a => exact follows_pure

theorem follows_ofExcept {r : Except ε α} : Follows R (ofExcept r : Machine σ ε α) := by
  cases r with
  | error e => exact fun w => refl_of R w
  | ok a => exact fun w => refl_of R w

/-- A computation that ends where it has stopped, or goes on from there. -/
theorem follows_bind (hx : Follows R x) (hf : ∀ a, Follows R (f a)) : Follows R (x >>= f) := by
  intro w
  have hfirst := hx w
  simp only [after, bind] at hfirst ⊢
  cases hrun : x w with
  | error e =>
      rw [hrun] at hfirst
      exact hfirst
  | ok r =>
      rw [hrun] at hfirst
      exact trans_of R hfirst (hf r.1 r.2)

omit [IsPreorder σ R] in
theorem follows_ite {c : Prop} [Decidable c] {y : Machine σ ε α} (hx : Follows R x)
    (hy : Follows R y) : Follows R (if c then x else y) := by
  split
  · exact hx
  · exact hy

theorem follows_forEach {ι : Type} {body : ι → Machine σ ε Unit} (h : ∀ i, Follows R (body i))
    (xs : List ι) : Follows R (forEach xs body) := by
  induction xs with
  | nil => exact follows_pure
  | cons i rest ih => exact follows_bind (h i) fun _ => ih

theorem follows_anyOf {ι : Type} {body : ι → Machine σ ε Bool} (h : ∀ i, Follows R (body i))
    (xs : List ι) : Follows R (anyOf xs body) := by
  induction xs with
  | nil => exact follows_pure
  | cons i rest ih => exact follows_bind (h i) fun _ => follows_bind ih fun _ => follows_pure

end Follows

end Machine

end Memalart.Lib
