/-
# Machines that hold resources

The resources of a computation are a multiset of tokens beside the state.  A
discipline says which pairs of a state and tokens are sound, and how one sound
pair may become another; both are up to the development that uses it.

A computation satisfies `Triple give x take` when each of its returning runs leads
from the tokens `give` to the tokens `take` of its result, in the presence of any
tokens that it does not touch.  The rules below build triples along the structure
of a computation.  `At` is the judgement at one state, for computations whose
steps are related through the values they read.
-/

import Mathlib.Algebra.Order.Group.Multiset
import Memalart.Lib.Machine

namespace Memalart.Lib

variable {σ τ ε α β ι : Type}

/-- States and tokens, and how they may change. -/
structure Discipline (σ τ : Type) where
  Inv : σ → Multiset τ → Prop
  Goes : σ × Multiset τ → σ × Multiset τ → Prop
  refl : ∀ c, Goes c c
  trans : ∀ {c c' c''}, Goes c c' → Goes c' c'' → Goes c c''

namespace Discipline

/-! ## Judgements at a state -/

variable (D : Discipline σ τ)

/-- From this state and these tokens, every returning run of `x` leads to a sound
state with the tokens of its result. -/
def At (w : σ) (toks : Multiset τ) (x : Machine σ ε α) (take : α → Multiset τ) : Prop :=
  ∀ a w', x.Returns w a w' → D.Inv w' (take a) ∧ D.Goes (w, toks) (w', take a)

variable {D}

namespace At

variable {w : σ} {toks toks' : Multiset τ} {x : Machine σ ε α} {f : α → Machine σ ε β}
  {take : α → Multiset τ} {take' : β → Multiset τ}

theorem pure {a : α} (hI : D.Inv w toks) (h : toks = take a) :
    D.At w toks (pure a : Machine σ ε α) take := by
  intro b w' hret
  obtain ⟨rfl, rfl⟩ := Machine.returns_pure.mp hret
  rw [← h]
  exact ⟨hI, D.refl _⟩

theorem fault (e : ε) : D.At w toks (Machine.fault e : Machine σ ε α) take :=
  fun _ _ h => absurd h Machine.not_returns_fault

/-- Sequencing.  The continuation is judged where the first part returns. -/
theorem bind (hx : D.At w toks x take)
    (hf : ∀ a w', x.Returns w a w' → D.Inv w' (take a) → D.At w' (take a) (f a) take') :
    D.At w toks (x >>= f) take' := by
  intro b w' hret
  obtain ⟨a, w₁, hx', hf'⟩ := Machine.returns_bind.mp hret
  obtain ⟨hI, hgoes⟩ := hx a w₁ hx'
  obtain ⟨hI', hgoes'⟩ := hf a w₁ hx' hI b w' hf'
  exact ⟨hI', D.trans hgoes hgoes'⟩

theorem gets {g : σ → α} (h : D.At w toks (f (g w)) take') :
    D.At w toks (Machine.gets g >>= f) take' := by
  intro b w' hret
  obtain ⟨a, w₁, hx', hf'⟩ := Machine.returns_bind.mp hret
  obtain ⟨rfl, rfl⟩ := Machine.returns_gets.mp hx'
  exact h b w' hf'

/-- A computation that only reads. -/
theorem read (hread : ∀ a w', x.Returns w a w' → w' = w)
    (hf : ∀ a, x.Returns w a w → D.At w toks (f a) take') : D.At w toks (x >>= f) take' := by
  intro b w' hret
  obtain ⟨a, w₁, hx', hf'⟩ := Machine.returns_bind.mp hret
  obtain rfl := hread a w₁ hx'
  exact hf a hx' b w' hf'

/-- Start from other tokens. -/
theorem before (hgoes : D.Goes (w, toks) (w, toks')) (hx : D.At w toks' x take) :
    D.At w toks x take := by
  intro a w' hret
  obtain ⟨hI, hgoes'⟩ := hx a w' hret
  exact ⟨hI, D.trans hgoes hgoes'⟩

end At

/-! ## Triples -/

variable (D)

/-- From every sound state, every returning run leads from the tokens `give` to the
tokens `take` of its result; other tokens stay. -/
def Triple (give : Multiset τ) (x : Machine σ ε α) (take : α → Multiset τ) : Prop :=
  ∀ w rest, D.Inv w (give + rest) → D.At w (give + rest) x fun a => take a + rest

variable {D}

namespace Triple

variable {give give' : Multiset τ} {take : α → Multiset τ} {take' : β → Multiset τ}
  {x y : Machine σ ε α} {f : α → Machine σ ε β}

theorem pure {a : α} (h : give = take a) : D.Triple give (pure a : Machine σ ε α) take :=
  fun _ rest hI => At.pure hI (congrArg (· + rest) h)

theorem fault (e : ε) : D.Triple give (Machine.fault e : Machine σ ε α) take :=
  fun _ _ _ => At.fault e

theorem bind (hx : D.Triple give x take) (hf : ∀ a, D.Triple (take a) (f a) take') :
    D.Triple give (x >>= f) take' :=
  fun w rest hI => At.bind (hx w rest hI) fun a w' _ hI' => hf a w' rest hI'

/-- The frame rule. -/
theorem frame (kept : Multiset τ) (hx : D.Triple give x take) :
    D.Triple (give + kept) x fun a => take a + kept := by
  intro w rest hI
  rw [add_assoc] at hI ⊢
  simpa only [add_assoc] using hx w (kept + rest) hI

/-- A triple with other descriptions of its tokens. -/
theorem conv {takeEq : α → Multiset τ} (hx : D.Triple give x take) (hgive : give' = give)
    (htake : ∀ a, takeEq a = take a) : D.Triple give' x takeEq := by
  obtain rfl := hgive
  obtain rfl : takeEq = take := funext htake
  exact hx

theorem gets {g : σ → α} (hf : ∀ a, D.Triple give (f a) take') :
    D.Triple give (Machine.gets g >>= f) take' :=
  fun w rest hI => At.gets (hf (g w) w rest hI)

theorem orFault {e : ε} {o : Option α} (hf : ∀ a, o = some a → D.Triple give (f a) take') :
    D.Triple give (Machine.orFault e o >>= f) take' :=
  fun w rest hI => At.read (fun _ _ h => (Machine.returns_orFault.mp h).2)
    fun a h => hf a (Machine.returns_orFault.mp h).1 w rest hI

/-- A computation that only reads, before one that the value does not matter for. -/
theorem read (hread : ∀ w a w', x.Returns w a w' → w' = w)
    (hf : ∀ a, D.Triple give (f a) take') : D.Triple give (x >>= f) take' :=
  fun w rest hI => At.read (hread w) fun a _ => hf a w rest hI

/-- Exchange tokens before a computation. -/
theorem before (hx : D.Triple give' x take)
    (h : ∀ w rest, D.Inv w (give + rest) →
      D.Inv w (give' + rest) ∧ D.Goes (w, give + rest) (w, give' + rest)) :
    D.Triple give x take := by
  intro w rest hI
  obtain ⟨hI', hgoes⟩ := h w rest hI
  exact At.before hgoes (hx w rest hI')

/-- Exchange tokens after a computation. -/
theorem after {takeEnd : α → Multiset τ} (hx : D.Triple give x take)
    (h : ∀ w a rest, D.Inv w (take a + rest) →
      D.Inv w (takeEnd a + rest) ∧ D.Goes (w, take a + rest) (w, takeEnd a + rest)) :
    D.Triple give x takeEnd := by
  intro w rest hI a w' hret
  obtain ⟨hI', hgoes⟩ := hx w rest hI a w' hret
  obtain ⟨hI'', hgoes'⟩ := h w' a rest hI'
  exact ⟨hI'', D.trans hgoes hgoes'⟩

theorem ite {c : Prop} [Decidable c] (hx : c → D.Triple give x take)
    (hy : ¬ c → D.Triple give y take) : D.Triple give (if c then x else y) take := by
  split
  · next h => exact hx h
  · next h => exact hy h

/-- A loop whose body keeps the tokens. -/
theorem forEach {xs : List ι} {body : ι → Machine σ ε Unit}
    (h : ∀ i ∈ xs, D.Triple give (body i) fun _ => give) :
    D.Triple give (Machine.forEach xs body) fun _ => give := by
  induction xs with
  | nil => exact Triple.pure rfl
  | cons i rest ih =>
      obtain ⟨hi, hrest⟩ := List.forall_mem_cons.mp h
      exact hi.bind fun _ => ih hrest

/-- A loop that uses up the tokens of each element in turn. -/
theorem forEachGive (xs : List ι) {body : ι → Machine σ ε Unit} {cost : ι → Multiset τ}
    (h : ∀ i ∈ xs, D.Triple (cost i) (body i) fun _ => 0) :
    D.Triple (xs.map cost).sum (Machine.forEach xs body) fun _ => 0 := by
  induction xs with
  | nil => exact Triple.pure rfl
  | cons i rest ih =>
      obtain ⟨hi, hrest⟩ := List.forall_mem_cons.mp h
      rw [List.map_cons, List.sum_cons]
      exact (hi.frame _).bind fun _ => by simpa using ih hrest

theorem anyOf {xs : List ι} {body : ι → Machine σ ε Bool}
    (h : ∀ i ∈ xs, D.Triple give (body i) fun _ => give) :
    D.Triple give (Machine.anyOf xs body) fun _ => give := by
  induction xs with
  | nil => exact Triple.pure rfl
  | cons i rest ih =>
      obtain ⟨hi, hrest⟩ := List.forall_mem_cons.mp h
      exact hi.bind fun _ => (ih hrest).bind fun _ => Triple.pure rfl

end Triple

end Discipline

end Memalart.Lib
