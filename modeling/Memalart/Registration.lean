/-
# Who calls the destructor of a thread's allocator

The allocator of a thread is freed by a destructor that the C library calls when the thread
exits.  `register_thread_local_allocator_destructor` creates the key for it once in the
process, and stores the allocator's pointer under the key in every thread; freeing the
allocator, or the function that `tls.rs` generates, takes the pointer back.  These are programs
of atomic operations on `ONCE` and `KEY`, run by any number of threads, beside other code that
has keys of its own.
-/

import Mathlib.Logic.Function.Basic
import Memalart.Lib.Run

namespace Memalart.Registration

open Memalart.Lib

universe u v

/-- The values of `ONCE`. -/
inductive Once
  | firstCall
  | initializing
  | initialized
deriving DecidableEq, Repr

/-- Where a thread stands in `register_thread_local_allocator_destructor`. -/
inductive Stage
  | exchanging
  | creating
  | storing
  /-- In the loop that waits for another thread to create the key. -/
  | waiting
  | reading
  | setting
deriving DecidableEq, Repr

/-- What `try_free_all_memory` comes to, in a destructor. -/
inductive Outcome
  | freed
  /-- It has met an extra-large size, which ends it with `Ok` before anything is freed. -/
  | kept
  /-- It has answered `Err`, and what the allocator has moves to another thread. -/
  | moved
deriving DecidableEq, Repr

/-- Where a thread stands. -/
inductive Phase (Allocator : Type v)
  | idle
  /-- In `register_destructor`, which the first use of an allocator calls, or
  `try_free_all_memory` when nothing has been allocated yet. -/
  | registering (allocator : Allocator) (stage : Stage) (freeing : Bool)
  /-- `deregister_thread_local_allocator_destructor` is about to load `ONCE`; afterwards the
  function of `tls.rs` goes on with the destructor. -/
  | loading (next : Option Allocator)
  | clearing (next : Option Allocator)
  /-- At the entry of `destructor`. -/
  | destructing (allocator : Allocator)
  | panicked (message : String)
deriving DecidableEq, Repr

/-- The text of the assertion that no other allocator is registered. -/
def attempt : String := "Attempt to register more than one ThreadLocalAllocator!"

/-- What is stored for a thread under a key. -/
inductive Pointer (Allocator : Type v)
  | allocator (a : Allocator)
  /-- A value of somebody else. -/
  | other (p : Nat)
deriving DecidableEq, Repr

/-- The process: the two statics, the keys of the C library, of which `created` have the
destructor of the allocators, and the flags of the allocators.  A manager is there exactly
while `is_destructor_registered` is set. -/
structure Process (Thread : Type u) (Allocator : Type v) where
  once : Once
  key : Nat
  keys : List Nat
  created : List Nat
  value : Thread → Nat → Option (Pointer Allocator)
  phase : Thread → Phase Allocator
  isDestructorRegistered : Allocator → Bool
  isAlreadyDestructured : Allocator → Bool

inductive Action (Thread : Type u) (Allocator : Type v)
  /-- A call that needs the manager of the allocator. -/
  | use (t : Thread) (a : Allocator)
  | exchange (t : Thread)
  /-- `pthread_key_create`, with its answer. -/
  | createKey (t : Thread) (answer : Option Nat)
  | storeInitialized (t : Thread)
  | spin (t : Thread)
  | getspecific (t : Thread)
  | setspecific (t : Thread)
  /-- The function that takes the registration back: alone, or as `tls.rs` calls it for an
  allocator. -/
  | deregister (t : Thread) (next : Option Allocator)
  | loadOnce (t : Thread)
  | clear (t : Thread)
  /-- `destructor`, called by the program. -/
  | destructor (t : Thread) (a : Allocator)
  | decide (t : Thread) (outcome : Outcome)
  /-- The thread exits, and the C library calls the destructor of the key. -/
  | exit (t : Thread)
  /-- A panic has been caught. -/
  | recover (t : Thread)
  /-- Other code creates a key, or stores a value under a key of its own. -/
  | otherKey (k : Nat)
  | otherValue (t : Thread) (k : Nat) (p : Option Nat)
deriving DecidableEq

variable {Thread : Type u} {Allocator : Type v}

/-- Where the function that takes the registration back returns to. -/
def Phase.after : Option Allocator → Phase Allocator
  | none => .idle
  | some a => .destructing a

/-- The thread is between the compare-exchange and the store of `ONCE`. -/
def Phase.creates : Phase Allocator → Bool
  | .registering _ .creating _ | .registering _ .storing _ => true
  | _ => false

/-- The next operation of the thread reads `KEY`. -/
def Phase.usesKey : Phase Allocator → Bool
  | .registering _ .reading _ | .registering _ .setting _ | .clearing _ => true
  | _ => false

/-! ## The programs -/

namespace Process

/-- Nobody has registered anything; other code may have keys with values. -/
def initial (keys : List Nat) (value : Thread → Nat → Option Nat) : Process Thread Allocator where
  once := .firstCall
  key := 0
  keys := keys
  created := []
  value := fun t k => if k ∈ keys then (value t k).map .other else none
  phase := fun _ => .idle
  isDestructorRegistered := fun _ => false
  isAlreadyDestructured := fun _ => false

variable (p : Process Thread Allocator)

def setOnce (once : Once) : Process Thread Allocator := { p with once := once }

def setPhase [DecidableEq Thread] (t : Thread) (phase : Phase Allocator) : Process Thread Allocator :=
  { p with phase := Function.update p.phase t phase }

/-- `pthread_setspecific`. -/
def setValue [DecidableEq Thread] (t : Thread) (k : Nat) (x : Option (Pointer Allocator)) :
    Process Thread Allocator :=
  { p with value := Function.update p.value t (Function.update (p.value t) k x) }

def setFlags [DecidableEq Allocator] (a : Allocator) (registered destructured : Bool) :
    Process Thread Allocator :=
  { p with
    isDestructorRegistered := Function.update p.isDestructorRegistered a registered
    isAlreadyDestructured := Function.update p.isAlreadyDestructured a destructured }

/-- `pthread_key_create` has written a new key to `KEY`; it has no values yet. -/
def withKey (k : Nat) : Process Thread Allocator :=
  { p with key := k, keys := k :: p.keys, created := k :: p.created }

variable [DecidableEq Thread] [DecidableEq Allocator]

/-- `register_destructor`, up to the compare-exchange. -/
def registerDestructor (t : Thread) (a : Allocator) (freeing : Bool) : Process Thread Allocator :=
  (p.setFlags a true false).setPhase t (.registering a .exchanging freeing)

/-- Everything has been freed; what is left is to take the registration back. -/
def afterFree (t : Thread) (a : Allocator) : Process Thread Allocator :=
  (p.setFlags a false true).setPhase t (.loading none)

end Process

/-- One atomic operation, or a step that a thread makes on its own.  An allocator is used by
one thread, its owner. -/
inductive Step [DecidableEq Thread] [DecidableEq Allocator] (owner : Allocator → Thread) :
    Process Thread Allocator → Action Thread Allocator → Process Thread Allocator → Prop
  | used {p t a} (hidle : p.phase t = .idle) (howner : owner a = t)
      (hregistered : p.isDestructorRegistered a = true) : Step owner p (.use t a) p
  | registers {p t a} (hidle : p.phase t = .idle) (howner : owner a = t)
      (hnot : p.isDestructorRegistered a = false) :
      Step owner p (.use t a) (p.registerDestructor t a false)
  | first {p t a freeing} (hphase : p.phase t = .registering a .exchanging freeing)
      (honce : p.once = .firstCall) :
      Step owner p (.exchange t)
        ((p.setOnce .initializing).setPhase t (.registering a .creating freeing))
  | waits {p t a freeing} (hphase : p.phase t = .registering a .exchanging freeing)
      (honce : p.once = .initializing) :
      Step owner p (.exchange t) (p.setPhase t (.registering a .waiting freeing))
  | passes {p t a freeing} (hphase : p.phase t = .registering a .exchanging freeing)
      (honce : p.once = .initialized) :
      Step owner p (.exchange t) (p.setPhase t (.registering a .reading freeing))
  | creates {p t a freeing k} (hphase : p.phase t = .registering a .creating freeing)
      (hfresh : k ∉ p.keys) :
      Step owner p (.createKey t (some k))
        ((p.withKey k).setPhase t (.registering a .storing freeing))
  | fails {p t a freeing} (hphase : p.phase t = .registering a .creating freeing) :
      Step owner p (.createKey t none) (p.setPhase t (.panicked "Failed to create pthread key"))
  | stores {p t a freeing} (hphase : p.phase t = .registering a .storing freeing) :
      Step owner p (.storeInitialized t)
        ((p.setOnce .initialized).setPhase t (.registering a .reading freeing))
  | spins {p t a freeing} (hphase : p.phase t = .registering a .waiting freeing)
      (honce : p.once ≠ .initialized) : Step owner p (.spin t) p
  | leaves {p t a freeing} (hphase : p.phase t = .registering a .waiting freeing)
      (honce : p.once = .initialized) :
      Step owner p (.spin t) (p.setPhase t (.registering a .reading freeing))
  | finds {p t a freeing} (hphase : p.phase t = .registering a .reading freeing)
      (hnull : p.value t p.key = none) :
      Step owner p (.getspecific t) (p.setPhase t (.registering a .setting freeing))
  | asserts {p t a freeing x} (hphase : p.phase t = .registering a .reading freeing)
      (hvalue : p.value t p.key = some x) :
      Step owner p (.getspecific t) (p.setPhase t (.panicked attempt))
  | sets {p t a} (hphase : p.phase t = .registering a .setting false) :
      Step owner p (.setspecific t) ((p.setValue t p.key (some (.allocator a))).setPhase t .idle)
  /-- `try_free_all_memory` had to set up the manager, and goes on. -/
  | setsToFree {p t a} (hphase : p.phase t = .registering a .setting true) :
      Step owner p (.setspecific t) ((p.setValue t p.key (some (.allocator a))).afterFree t a)
  | deregisters {p t} {next : Option Allocator} (hidle : p.phase t = .idle)
      (howner : ∀ a ∈ next, owner a = t) :
      Step owner p (.deregister t next) (p.setPhase t (.loading next))
  | loads {p t next} (hphase : p.phase t = .loading next) (honce : p.once = .initialized) :
      Step owner p (.loadOnce t) (p.setPhase t (.clearing next))
  | skips {p t next} (hphase : p.phase t = .loading next) (honce : p.once ≠ .initialized) :
      Step owner p (.loadOnce t) (p.setPhase t (.after next))
  | clears {p t next} (hphase : p.phase t = .clearing next) :
      Step owner p (.clear t) ((p.setValue t p.key none).setPhase t (.after next))
  | calls {p t a} (hidle : p.phase t = .idle) (howner : owner a = t) :
      Step owner p (.destructor t a) (p.setPhase t (.destructing a))
  | returns {p t a outcome} (hphase : p.phase t = .destructing a)
      (hdestructured : p.isAlreadyDestructured a = true) :
      Step owner p (.decide t outcome) (p.setPhase t .idle)
  | frees {p t a} (hphase : p.phase t = .destructing a)
      (hnot : p.isAlreadyDestructured a = false) (hregistered : p.isDestructorRegistered a = true) :
      Step owner p (.decide t .freed) (p.afterFree t a)
  | freesUnused {p t a} (hphase : p.phase t = .destructing a)
      (hnot : p.isAlreadyDestructured a = false) (hunused : p.isDestructorRegistered a = false) :
      Step owner p (.decide t .freed) (p.registerDestructor t a true)
  | keeps {p t a} (hphase : p.phase t = .destructing a)
      (hnot : p.isAlreadyDestructured a = false) :
      Step owner p (.decide t .kept) (p.setPhase t .idle)
  | moves {p t a} (hphase : p.phase t = .destructing a)
      (hnot : p.isAlreadyDestructured a = false) :
      Step owner p (.decide t .moved) ((p.setFlags a false true).setPhase t .idle)
  | exits {p t k a} (hidle : p.phase t = .idle) (hcreated : k ∈ p.created)
      (hvalue : p.value t k = some (.allocator a)) :
      Step owner p (.exit t) ((p.setValue t k none).setPhase t (.destructing a))
  | recovers {p t message} (hphase : p.phase t = .panicked message) :
      Step owner p (.recover t) (p.setPhase t .idle)
  | otherKey {p k} (hfresh : k ∉ p.keys) :
      Step owner p (.otherKey k) { p with keys := k :: p.keys }
  | otherValue {p t k x} (hkey : k ∈ p.keys) (hother : k ∉ p.created) :
      Step owner p (.otherValue t k x) (p.setValue t k (x.map .other))

/-- The thread is taking a registration back. -/
def Phase.unregisters : Phase Allocator → Bool
  | .loading _ | .clearing _ => true
  | _ => false

/-! ## What the steps change -/

namespace Process

variable (p : Process Thread Allocator)

theorem phase_setPhase [DecidableEq Thread] (t u : Thread) (phase : Phase Allocator) :
    (p.setPhase t phase).phase u = if u = t then phase else p.phase u :=
  Function.update_apply _ _ _ _

theorem value_setValue [DecidableEq Thread] (t u : Thread) (k j : Nat)
    (x : Option (Pointer Allocator)) :
    (p.setValue t k x).value u j = if u = t ∧ j = k then x else p.value u j := by
  by_cases hu : u = t
  · subst hu
    by_cases hj : j = k
    · simp [setValue, hj]
    · simp [setValue, hj]
  · simp [setValue, hu]

theorem isDestructorRegistered_setFlags [DecidableEq Allocator] (a b : Allocator)
    (registered destructured : Bool) :
    (p.setFlags a registered destructured).isDestructorRegistered b =
      if b = a then registered else p.isDestructorRegistered b :=
  Function.update_apply _ _ _ _

theorem isAlreadyDestructured_setFlags [DecidableEq Allocator] (a b : Allocator)
    (registered destructured : Bool) :
    (p.setFlags a registered destructured).isAlreadyDestructured b =
      if b = a then destructured else p.isAlreadyDestructured b :=
  Function.update_apply _ _ _ _

/-- A program point that may be reached while `ONCE` has a value, by a step that leaves the
two statics alone. -/
def Allows (once : Once) : Phase Allocator → Prop
  | .registering _ .creating _ | .registering _ .storing _ => False
  | .registering _ .waiting _ => once ≠ .firstCall
  | .registering _ .reading _ | .registering _ .setting _ | .clearing _ => once = .initialized
  | _ => True

end Process

/-! ## One key, and nobody uses it too early -/

section

variable {owner : Allocator → Thread} {p q : Process Thread Allocator}
  {action : Action Thread Allocator}

/-- What holds of the key in every state. -/
structure Keyed (p : Process Thread Allocator) : Prop where
  firstCall : p.once = .firstCall → p.created = []
  initialized : p.once = .initialized → p.created = [p.key]
  created : p.created = [] ∨ p.created = [p.key]
  creating : ∀ t a freeing, p.phase t = .registering a .creating freeing → p.created = []
  storing : ∀ t a freeing, p.phase t = .registering a .storing freeing → p.created = [p.key]
  creates : ∀ t, (p.phase t).creates = true → p.once = .initializing
  alone : ∀ t u, (p.phase t).creates = true → (p.phase u).creates = true → t = u
  usesKey : ∀ t, (p.phase t).usesKey = true → p.once = .initialized
  waiting : ∀ t a freeing, p.phase t = .registering a .waiting freeing → p.once ≠ .firstCall
  keys : ∀ k ∈ p.created, k ∈ p.keys
  value : ∀ t k x, p.value t k = some x → k ∈ p.keys
  allocator : ∀ t k a, p.value t k = some (.allocator a) → k ∈ p.created ∧ p.once = .initialized
  other : ∀ t k x, p.value t k = some (.other x) → k ∉ p.created

namespace Keyed

theorem initial (keys : List Nat) (value : Thread → Nat → Option Nat) :
    Keyed (Process.initial keys value : Process Thread Allocator) where
  firstCall _ := rfl
  initialized h := by cases h
  created := .inl rfl
  creating := by simp [Process.initial]
  storing := by simp [Process.initial]
  creates := by simp [Process.initial, Phase.creates]
  alone := by simp [Process.initial, Phase.creates]
  usesKey := by simp [Process.initial, Phase.usesKey]
  waiting := by simp [Process.initial]
  keys := by simp [Process.initial]
  value t k x h := by
    simp only [Process.initial] at h
    split at h
    · assumption
    · cases h
  allocator t k a h := by
    simp only [Process.initial] at h
    split at h
    · obtain ⟨x, -, hx⟩ := Option.map_eq_some_iff.mp h
      cases hx
    · cases h
  other := by simp [Process.initial]

/-- A step that leaves the statics alone, and stores values under keys that fit. -/
theorem quiet (h : Keyed p) (honce : q.once = p.once) (hkey : q.key = p.key)
    (hcreated : q.created = p.created) (hkeys : ∀ k ∈ p.keys, k ∈ q.keys)
    (hphase : ∀ t, q.phase t = p.phase t ∨ Process.Allows p.once (q.phase t))
    (hvalue : ∀ t k x, q.value t k = some x → p.value t k = some x ∨
      (∃ a, x = .allocator a ∧ k ∈ p.created ∧ p.once = .initialized) ∨
      ∃ y, x = .other y ∧ k ∈ p.keys ∧ k ∉ p.created) : Keyed q where
  firstCall hq := hcreated.trans (h.firstCall (honce ▸ hq))
  initialized hq := by
    rw [hcreated, hkey]
    exact h.initialized (honce ▸ hq)
  created := by
    rw [hcreated, hkey]
    exact h.created
  creating t a freeing hq := by
    rcases hphase t with heq | hallows
    · exact hcreated.trans (h.creating t a freeing (heq ▸ hq))
    · rw [hq] at hallows
      exact hallows.elim
  storing t a freeing hq := by
    rw [hcreated, hkey]
    rcases hphase t with heq | hallows
    · exact h.storing t a freeing (heq ▸ hq)
    · rw [hq] at hallows
      exact hallows.elim
  creates t hq := by
    rw [honce]
    rcases hphase t with heq | hallows
    · exact h.creates t (heq ▸ hq)
    · unfold Process.Allows at hallows
      unfold Phase.creates at hq
      split at hq <;> simp_all
  alone t u ht hu := by
    have hsame : ∀ v, (q.phase v).creates = true → q.phase v = p.phase v := by
      intro v hv
      rcases hphase v with heq | hallows
      · exact heq
      · unfold Process.Allows at hallows
        unfold Phase.creates at hv
        split at hv <;> simp_all
    exact h.alone t u (hsame t ht ▸ ht) (hsame u hu ▸ hu)
  usesKey t hq := by
    rw [honce]
    rcases hphase t with heq | hallows
    · exact h.usesKey t (heq ▸ hq)
    · unfold Process.Allows at hallows
      unfold Phase.usesKey at hq
      split at hq <;> simp_all
  waiting t a freeing hq := by
    rw [honce]
    rcases hphase t with heq | hallows
    · exact h.waiting t a freeing (heq ▸ hq)
    · rw [hq] at hallows
      exact hallows
  keys k hk := hkeys k (h.keys k (hcreated ▸ hk))
  value t k x hx := by
    rcases hvalue t k x hx with hold | ⟨a, -, hk, -⟩ | ⟨y, -, hk, -⟩
    · exact hkeys k (h.value t k x hold)
    · exact hkeys k (h.keys k hk)
    · exact hkeys k hk
  allocator t k a hx := by
    rw [hcreated, honce]
    rcases hvalue t k _ hx with hold | ⟨b, -, hk⟩ | ⟨y, hy, -⟩
    · exact h.allocator t k a hold
    · exact hk
    · cases hy
  other t k x hx := by
    rw [hcreated]
    rcases hvalue t k _ hx with hold | ⟨b, hb, -⟩ | ⟨y, -, -, hk⟩
    · exact h.other t k x hold
    · cases hb
    · exact hk

/-- A step of one thread to another point of its program. -/
theorem setPhase [DecidableEq Thread] (h : Keyed p) (t : Thread) {phase : Phase Allocator}
    (hallows : Process.Allows p.once phase) : Keyed (p.setPhase t phase) := by
  refine h.quiet rfl rfl rfl (fun _ hk => hk) (fun u => ?_) fun _ _ _ hx => .inl hx
  rw [Process.phase_setPhase]
  split
  · exact .inr hallows
  · exact .inl rfl

theorem setFlags [DecidableEq Allocator] (h : Keyed p) (a : Allocator)
    (registered destructured : Bool) : Keyed (p.setFlags a registered destructured) :=
  h.quiet rfl rfl rfl (fun _ hk => hk) (fun _ => .inl rfl) fun _ _ _ hx => .inl hx

theorem setValue [DecidableEq Thread] (h : Keyed p) (t : Thread) (k : Nat) {x : Option (Pointer Allocator)}
    (hx : ∀ y, x = some y → (∃ a, y = .allocator a ∧ k ∈ p.created ∧ p.once = .initialized) ∨
      ∃ z, y = .other z ∧ k ∈ p.keys ∧ k ∉ p.created) : Keyed (p.setValue t k x) := by
  refine h.quiet rfl rfl rfl (fun _ hk => hk) (fun _ => .inl rfl) fun u j y hy => ?_
  rw [Process.value_setValue] at hy
  split at hy
  · next heq =>
      obtain ⟨-, rfl⟩ := heq
      exact .inr (hx y hy)
  · exact .inl hy

section Steps

variable [DecidableEq Thread]

/-- The thread whose compare-exchange succeeds is the first one to create the key. -/
theorem first (h : Keyed p) {t : Thread} {a : Allocator} {freeing : Bool}
    (honce : p.once = .firstCall) :
    Keyed ((p.setOnce .initializing).setPhase t (.registering a .creating freeing)) := by
  have hcreated : p.created = [] := h.firstCall honce
  have hnone : ∀ u, (p.phase u).creates = false := fun u => by
    by_contra hu
    exact Once.noConfusion (honce.symm.trans (h.creates u (eq_true_of_ne_false hu)))
  have hphases : ∀ u, ((p.setOnce .initializing).setPhase t (.registering a .creating freeing)).phase u =
      if u = t then .registering a .creating freeing else p.phase u :=
    fun u => Process.phase_setPhase _ t u _
  have hone : ∀ u, (((p.setOnce .initializing).setPhase t
      (.registering a .creating freeing)).phase u).creates = true → u = t := fun u hu => by
    by_contra hne
    rw [hphases, if_neg hne, hnone u] at hu
    cases hu
  refine ⟨fun _ => hcreated, Once.noConfusion, h.created, fun _ _ _ _ => hcreated, ?_, fun _ _ => rfl,
    fun u v hu hv => (hone u hu).trans (hone v hv).symm, fun u hu => ?_, fun _ _ _ _ => Once.noConfusion,
    h.keys, h.value, fun u k b hb => ?_, h.other⟩
  · intro u b f hu
    rw [hphases] at hu
    split at hu
    · cases hu
    · have hcreates := hnone u
      rw [hu] at hcreates
      cases hcreates
  · rw [hphases] at hu
    split at hu
    · cases hu
    · exact absurd (honce.symm.trans (h.usesKey u hu)) Once.noConfusion
  · exact absurd (honce.symm.trans (h.allocator u k b hb).2) Once.noConfusion

/-- The key is created, and no value is stored under it yet. -/
theorem withKey (h : Keyed p) {t : Thread} {a : Allocator} {freeing : Bool} {k : Nat}
    (hphase : p.phase t = .registering a .creating freeing) (hfresh : k ∉ p.keys) :
    Keyed ((p.withKey k).setPhase t (.registering a .storing freeing)) := by
  have hcreated : p.created = [] := h.creating t a freeing hphase
  have hcreates : (p.phase t).creates = true := by
    rw [hphase]
    rfl
  have honce : p.once = .initializing := h.creates t hcreates
  have hnew : (p.withKey k).created = [k] := congrArg (k :: ·) hcreated
  have hsame : ∀ u, u ≠ t → (p.phase u).creates = false := fun u hu => by
    by_contra hne
    exact hu (h.alone u t (eq_true_of_ne_false hne) hcreates)
  have hphases : ∀ u, (((p.withKey k).setPhase t (.registering a .storing freeing)).phase u) =
      if u = t then .registering a .storing freeing else p.phase u :=
    fun u => Process.phase_setPhase _ t u _
  refine ⟨fun hq => ?_, fun hq => ?_, .inr hnew, ?_, fun _ _ _ _ => hnew, fun _ _ => honce, ?_,
    fun u hu => ?_, fun u b f hu => ?_, ?_, ?_, fun u j b hb => ?_, fun u j x hx => ?_⟩
  · exact absurd (honce.symm.trans hq) Once.noConfusion
  · exact absurd (honce.symm.trans hq) Once.noConfusion
  · intro u b f hu
    rw [hphases] at hu
    split at hu
    · cases hu
    · next hne =>
        have hnone := hsame u hne
        rw [hu] at hnone
        cases hnone
  · have hone : ∀ u, (((p.withKey k).setPhase t (.registering a .storing freeing)).phase u).creates =
        true → u = t := fun u hu => by
      by_contra hne
      rw [hphases, if_neg hne, hsame u hne] at hu
      cases hu
    exact fun u v hu hv => (hone u hu).trans (hone v hv).symm
  · rw [hphases] at hu
    split at hu
    · cases hu
    · exact absurd (honce.symm.trans (h.usesKey u hu)) Once.noConfusion
  · exact fun hq => absurd (honce.symm.trans hq) Once.noConfusion
  · intro j hj
    rw [Process.setPhase, hnew, List.mem_singleton] at hj
    exact hj ▸ List.mem_cons_self
  · exact fun u j x hx => List.mem_cons_of_mem _ (h.value u j x hx)
  · have hj := (h.allocator u j b hb).1
    rw [hcreated] at hj
    exact absurd hj List.not_mem_nil
  · rw [Process.setPhase, hnew, List.mem_singleton]
    rintro rfl
    exact hfresh (h.value u j _ hx)

/-- The key is there before `ONCE` says so. -/
theorem stores (h : Keyed p) {t : Thread} {a : Allocator} {freeing : Bool}
    (hphase : p.phase t = .registering a .storing freeing) :
    Keyed ((p.setOnce .initialized).setPhase t (.registering a .reading freeing)) := by
  have hcreated : p.created = [p.key] := h.storing t a freeing hphase
  have hcreates : (p.phase t).creates = true := by
    rw [hphase]
    rfl
  have hnone : ∀ u, (((p.setOnce .initialized).setPhase t
      (.registering a .reading freeing)).phase u).creates = false := by
    intro u
    rw [Process.phase_setPhase]
    split
    · rfl
    · next hne =>
        by_contra hu
        exact hne (h.alone u t (eq_true_of_ne_false hu) hcreates)
  refine ⟨Once.noConfusion, fun _ => hcreated, h.created, fun u b f hu => ?_, fun _ _ _ _ => hcreated,
    fun u hu => ?_, fun u v hu => ?_, fun _ _ => rfl, fun _ _ _ _ => Once.noConfusion, h.keys, h.value,
    fun u k b hb => ⟨(h.allocator u k b hb).1, rfl⟩, h.other⟩
  · have hfalse := hnone u
    rw [hu] at hfalse
    cases hfalse
  · exact Bool.noConfusion ((hnone u).symm.trans hu)
  · exact Bool.noConfusion ((hnone u).symm.trans hu)

variable [DecidableEq Allocator]

/-- One step. -/
theorem step (h : Keyed p) (hstep : Step owner p action q) : Keyed q := by
  cases hstep with
  | used => exact h
  | registers => exact (h.setFlags _ _ _).setPhase _ trivial
  | first hphase honce => exact h.first honce
  | waits hphase honce =>
      refine h.setPhase _ ?_
      rw [honce]
      exact Once.noConfusion
  | passes hphase honce => exact h.setPhase _ honce
  | creates hphase hfresh => exact h.withKey hphase hfresh
  | fails => exact h.setPhase _ trivial
  | stores hphase => exact h.stores hphase
  | spins => exact h
  | leaves hphase honce => exact h.setPhase _ honce
  | @finds t a freeing hphase hnull =>
      refine h.setPhase _ (h.usesKey t ?_)
      rw [hphase]
      rfl
  | asserts => exact h.setPhase _ trivial
  | @sets t a hphase =>
      have honce : p.once = .initialized := h.usesKey t (by rw [hphase]; rfl)
      refine (h.setValue t p.key ?_).setPhase _ trivial
      rintro y ⟨⟩
      exact .inl ⟨a, rfl, h.initialized honce ▸ List.mem_singleton_self _, honce⟩
  | @setsToFree t a hphase =>
      have honce : p.once = .initialized := h.usesKey t (by rw [hphase]; rfl)
      refine ((h.setValue t p.key ?_).setFlags _ _ _).setPhase _ trivial
      rintro y ⟨⟩
      exact .inl ⟨a, rfl, h.initialized honce ▸ List.mem_singleton_self _, honce⟩
  | deregisters => exact h.setPhase _ trivial
  | loads hphase honce => exact h.setPhase _ honce
  | @skips t next =>
      refine h.setPhase _ ?_
      cases next <;> trivial
  | @clears t next =>
      refine (h.setValue t p.key (fun y hy => by cases hy)).setPhase _ ?_
      cases next <;> trivial
  | calls => exact h.setPhase _ trivial
  | returns => exact h.setPhase _ trivial
  | frees => exact (h.setFlags _ _ _).setPhase _ trivial
  | freesUnused => exact (h.setFlags _ _ _).setPhase _ trivial
  | keeps => exact h.setPhase _ trivial
  | moves => exact (h.setFlags _ _ _).setPhase _ trivial
  | exits => exact (h.setValue _ _ (fun y hy => by cases hy)).setPhase _ trivial
  | recovers => exact h.setPhase _ trivial
  | otherKey =>
      exact h.quiet rfl rfl rfl (fun _ hk => List.mem_cons_of_mem _ hk) (fun _ => .inl rfl)
        fun _ _ _ hx => .inl hx
  | @otherValue t k x hkey hother =>
      refine h.setValue t k fun y hy => .inr ?_
      obtain ⟨z, -, rfl⟩ := Option.map_eq_some_iff.mp hy
      exact ⟨z, rfl, hkey, hother⟩

end Steps

end Keyed

section Runs

variable [DecidableEq Thread] {keys : List Nat} {value f : Thread → Nat → Option Nat}
  {actions : List (Action Thread Allocator)}

/-- What other code has stored, after its own actions. -/
def stored (f : Thread → Nat → Option Nat) : List (Action Thread Allocator) → Thread → Nat → Option Nat
  | [] => f
  | .otherValue t k x :: actions =>
      stored (Function.update f t (Function.update (f t) k x)) actions
  | _ :: actions => stored f actions

theorem stored_append (f : Thread → Nat → Option Nat) (first second : List (Action Thread Allocator)) :
    stored f (first ++ second) = stored (stored f first) second := by
  induction first generalizing f with
  | nil => rfl
  | cons action first ih => cases action <;> exact ih _

variable [DecidableEq Allocator]

theorem Keyed.run (hrun : Run (Step owner) (Process.initial keys value) actions p) : Keyed p :=
  hrun.invariant (fun _ _ _ h hstep => h.step hstep) (Keyed.initial keys value)

/-- What other code has stored so far is where it has stored it. -/
def Undisturbed (f : Thread → Nat → Option Nat) (p : Process Thread Allocator) : Prop :=
  ∀ t k, k ∉ p.created → p.value t k = (f t k).map .other

/-- No step of the registration changes a value under a key of somebody else. -/
theorem Keyed.undisturbed_step (h : Keyed p) (hf : Undisturbed f p) (hstep : Step owner p action q) :
    Undisturbed (stored f [action]) q := by
  have hown : ∀ t x, (p.phase t).usesKey = true → Undisturbed f (p.setValue t p.key x) := by
    intro t x ht u k hk
    rw [Process.value_setValue, if_neg]
    · exact hf u k hk
    · rintro ⟨-, rfl⟩
      have hcreated := h.initialized (h.usesKey t ht)
      exact hk (show p.key ∈ p.created from hcreated ▸ List.mem_singleton_self _)
  cases hstep with
  | @creates t a freeing k =>
      intro u j hj
      exact hf u j fun hmem => hj (List.mem_cons_of_mem _ hmem)
  | @sets t a hphase => exact hown t _ (by rw [hphase]; rfl)
  | @setsToFree t a hphase => exact hown t _ (by rw [hphase]; rfl)
  | @clears t next hphase => exact hown t _ (by rw [hphase]; rfl)
  | @exits t k a hidle hcreated =>
      intro u j hj
      refine (Process.value_setValue p t u k j none).trans ?_
      rw [if_neg]
      · exact hf u j hj
      · rintro ⟨-, rfl⟩
        exact hj hcreated
  | @otherValue t k x =>
      intro u j hj
      rw [Process.value_setValue]
      by_cases hu : u = t
      · subst hu
        by_cases hk : j = k
        · subst hk
          simp [stored]
        · simpa [stored, hk] using hf u j hj
      · simpa [stored, hu] using hf u j hj
  | _ => exact hf

theorem Keyed.undisturbed_run (h : Keyed p) (hf : Undisturbed f p)
    (hrun : Run (Step owner) p actions q) : Undisturbed (stored f actions) q := by
  induction hrun generalizing f with
  | nil p => exact hf
  | @cons p m q action rest hstep _ ih =>
      rw [← List.singleton_append, stored_append]
      exact ih (h.step hstep) (h.undisturbed_step hf hstep)

/-- Whatever the threads do, one key is created at most, no thread passes `KEY` to the C
library before that key is in it, the pointers of the allocators are stored under that key
only, and what other code has stored under its own keys is left as it is. -/
theorem key_of_run (hrun : Run (Step owner) (Process.initial keys value) actions p) :
    p.created.length ≤ 1 ∧
      (∀ t, (p.phase t).usesKey = true → p.created = [p.key]) ∧
      (∀ t k a, p.value t k = some (.allocator a) → p.created = [k]) ∧
      ∀ t k, k ∉ p.created →
        p.value t k = (stored (fun t k => if k ∈ keys then value t k else none) actions t k).map
          .other := by
  have h := Keyed.run hrun
  refine ⟨?_, fun t ht => h.initialized (h.usesKey t ht), fun t k a hvalue => ?_, ?_⟩
  · rcases h.created with hcreated | hcreated
    · simp [hcreated]
    · simp [hcreated]
  · obtain ⟨hk, honce⟩ := h.allocator t k a hvalue
    have hcreated := h.initialized honce
    rw [hcreated, List.mem_singleton] at hk
    rw [hcreated, hk]
  · refine (Keyed.initial keys value).undisturbed_run ?_ hrun
    intro t k _
    simp only [Process.initial]
    split <;> rfl

/-- Two threads register their allocators at the same time, beside other code that has the key
zero. -/
theorem exists_two_registrations : ∃ p : Process Bool Bool,
    Run (Step id) (Process.initial [0] fun _ _ => some 42)
      [.use false false, .exchange false, .use true true, .exchange true, .spin true,
        .createKey false (some 7), .storeInitialized false, .spin true, .getspecific true,
        .setspecific true, .getspecific false, .setspecific false] p ∧
      p.value true 7 = some (.allocator true) ∧ p.value true 0 = some (.other 42) := by
  refine ⟨_, .cons (.registers rfl rfl rfl) <| .cons (.first rfl rfl) <|
    .cons (.registers rfl rfl rfl) <| .cons (.waits rfl rfl) <| .cons (.spins rfl Once.noConfusion) <|
    .cons (.creates rfl (by decide)) <| .cons (.stores rfl) <| .cons (.leaves rfl rfl) <|
    .cons (.finds rfl rfl) <| .cons (.sets rfl) <| .cons (.finds rfl rfl) <| .cons (.sets rfl) <|
    .nil _, rfl, rfl⟩

theorem key_of_two_registrations : ∃ p : Process Bool Bool,
    p.value true 7 = some (.allocator true) ∧ p.created = [7] ∧ p.created.length ≤ 1 := by
  obtain ⟨p, hrun, hvalue, -⟩ := exists_two_registrations
  obtain ⟨hlength, -, hcreated, -⟩ := key_of_run hrun
  exact ⟨p, hvalue, hcreated true 7 true hvalue, hlength⟩

end Runs

end

end Memalart.Registration
