/-
# Which allocator a thread has registered

What a thread does about its allocators changes nothing that belongs to another thread.  From
this follows what is stored for a thread: when each thread has one allocator, and no allocator
moves to another thread with its pointer still stored, the assertion of the registration never
fails; and as long as no extra-large size ends a destructor early, the pointer that is stored is
that of the allocator in use, so that the exit of the thread destroys it.
-/

import Mathlib.Data.Fintype.EquivFin
import Memalart.Registration

namespace Memalart.Registration

open Memalart.Lib

universe u v

variable {Thread : Type u} {Allocator : Type v} {owner : Allocator → Thread}
  {p q : Process Thread Allocator} {action : Action Thread Allocator}

/-! ## Threads keep to what is theirs -/

section Owners

/-- The allocator that a thread is at work on. -/
def Phase.allocator : Phase Allocator → Option Allocator
  | .registering a _ _ | .destructing a => some a
  | .loading next | .clearing next => next
  | .idle | .panicked _ => none

@[simp] theorem Phase.allocator_after (next : Option Allocator) :
    (Phase.after next).allocator = next := by
  cases next <;> rfl

/-- The thread that an action is one of. -/
def Action.thread : Action Thread Allocator → Option Thread
  | .use t _ | .exchange t | .createKey t _ | .storeInitialized t | .spin t | .getspecific t
  | .setspecific t | .deregister t _ | .loadOnce t | .clear t | .destructor t _ | .decide t _
  | .exit t | .recover t | .otherValue t _ _ => some t
  | .otherKey _ => none

/-- A thread works on allocators of its own, and stores their pointers only. -/
structure OwnersKept (owner : Allocator → Thread) (p : Process Thread Allocator) : Prop where
  phase : ∀ t, ∀ a ∈ (p.phase t).allocator, owner a = t
  value : ∀ t k a, p.value t k = some (.allocator a) → owner a = t

/-- What belongs to a thread is the same in both processes. -/
structure SameFor (owner : Allocator → Thread) (u : Thread) (p q : Process Thread Allocator) :
    Prop where
  phase : q.phase u = p.phase u
  value : ∀ k, q.value u k = p.value u k
  registered : ∀ a, owner a = u → q.isDestructorRegistered a = p.isDestructorRegistered a
  destructured : ∀ a, owner a = u → q.isAlreadyDestructured a = p.isAlreadyDestructured a

theorem OwnersKept.initial {keys : List Nat} {value : Thread → Nat → Option Nat} :
    OwnersKept owner (Process.initial keys value) where
  phase _ _ ha := by cases ha
  value t k a ha := absurd ((Keyed.initial keys value).allocator t k a ha).1 List.not_mem_nil

theorem SameFor.setOnce {u : Thread} (once : Once) (h : SameFor owner u p q) :
    SameFor owner u p (q.setOnce once) := ⟨h.phase, h.value, h.registered, h.destructured⟩

theorem SameFor.withKey {u : Thread} (k : Nat) (h : SameFor owner u p q) :
    SameFor owner u p (q.withKey k) := ⟨h.phase, h.value, h.registered, h.destructured⟩

theorem OwnersKept.setOnce (once : Once) (h : OwnersKept owner p) :
    OwnersKept owner (p.setOnce once) := ⟨h.phase, h.value⟩

theorem OwnersKept.withKey (k : Nat) (h : OwnersKept owner p) : OwnersKept owner (p.withKey k) :=
  ⟨h.phase, h.value⟩

theorem SameFor.setFlags [DecidableEq Allocator] {u : Thread} {a : Allocator} (hu : owner a ≠ u)
    (registered destructured : Bool) (h : SameFor owner u p q) :
    SameFor owner u p (q.setFlags a registered destructured) where
  phase := h.phase
  value := h.value
  registered b hb := by
    rw [Process.isDestructorRegistered_setFlags, if_neg]
    · exact h.registered b hb
    · rintro rfl
      exact hu hb
  destructured b hb := by
    rw [Process.isAlreadyDestructured_setFlags, if_neg]
    · exact h.destructured b hb
    · rintro rfl
      exact hu hb

theorem OwnersKept.setFlags [DecidableEq Allocator] (h : OwnersKept owner p) (a : Allocator)
    (registered destructured : Bool) : OwnersKept owner (p.setFlags a registered destructured) :=
  ⟨h.phase, h.value⟩

variable [DecidableEq Thread]

theorem SameFor.setPhase {t u : Thread} (hu : u ≠ t) (phase : Phase Allocator)
    (h : SameFor owner u p q) : SameFor owner u p (q.setPhase t phase) where
  phase := by
    rw [Process.phase_setPhase, if_neg hu]
    exact h.phase
  value := h.value
  registered := h.registered
  destructured := h.destructured

theorem SameFor.setValue {t u : Thread} (hu : u ≠ t) (k : Nat) (x : Option (Pointer Allocator))
    (h : SameFor owner u p q) : SameFor owner u p (q.setValue t k x) where
  phase := h.phase
  value j := by
    rw [Process.value_setValue, if_neg fun hand => hu hand.1]
    exact h.value j
  registered := h.registered
  destructured := h.destructured

theorem OwnersKept.setPhase (h : OwnersKept owner p) {t : Thread} {phase : Phase Allocator}
    (howner : ∀ a ∈ phase.allocator, owner a = t) : OwnersKept owner (p.setPhase t phase) where
  phase u a ha := by
    rw [Process.phase_setPhase] at ha
    split at ha
    · next heq => exact heq ▸ howner a ha
    · exact h.phase u a ha
  value := h.value

theorem OwnersKept.setValue (h : OwnersKept owner p) {t : Thread} {k : Nat}
    {x : Option (Pointer Allocator)} (howner : ∀ a, x = some (.allocator a) → owner a = t) :
    OwnersKept owner (p.setValue t k x) where
  phase := h.phase
  value u j a ha := by
    rw [Process.value_setValue] at ha
    split at ha
    · next heq => exact heq.1 ▸ howner a ha
    · exact h.value u j a ha

variable [DecidableEq Allocator]

/-- One step. -/
theorem OwnersKept.step (h : OwnersKept owner p) (hstep : Step owner p action q) :
    OwnersKept owner q := by
  have hkeep : ∀ {t : Thread} {phase phase' : Phase Allocator}, p.phase t = phase →
      (∀ a ∈ phase'.allocator, a ∈ phase.allocator) → ∀ a ∈ phase'.allocator, owner a = t :=
    fun hphase hsub a ha => h.phase _ a (hphase ▸ hsub a ha)
  have hnone : ∀ {t : Thread} {phase : Phase Allocator}, phase.allocator = none →
      ∀ a ∈ phase.allocator, owner a = t := fun hphase a ha => by
    rw [hphase] at ha
    cases ha
  cases hstep with
  | used => exact h
  | registers _ howner =>
      refine (h.setFlags _ _ _).setPhase ?_
      rintro b ⟨⟩
      exact howner
  | first hphase => exact (h.setOnce _).setPhase (hkeep hphase fun _ ha => ha)
  | waits hphase => exact h.setPhase (hkeep hphase fun _ ha => ha)
  | passes hphase => exact h.setPhase (hkeep hphase fun _ ha => ha)
  | creates hphase => exact (h.withKey _).setPhase (hkeep hphase fun _ ha => ha)
  | fails => exact h.setPhase (hnone rfl)
  | stores hphase => exact (h.setOnce _).setPhase (hkeep hphase fun _ ha => ha)
  | spins => exact h
  | leaves hphase => exact h.setPhase (hkeep hphase fun _ ha => ha)
  | finds hphase => exact h.setPhase (hkeep hphase fun _ ha => ha)
  | asserts => exact h.setPhase (hnone rfl)
  | sets hphase =>
      refine (h.setValue ?_).setPhase (hnone rfl)
      rintro b ⟨⟩
      exact hkeep hphase (fun _ ha => ha) _ rfl
  | setsToFree hphase =>
      refine ((h.setValue ?_).setFlags _ _ _).setPhase (hnone rfl)
      rintro b ⟨⟩
      exact hkeep hphase (fun _ ha => ha) _ rfl
  | deregisters _ howner => exact h.setPhase howner
  | loads hphase => exact h.setPhase (hkeep hphase fun _ ha => ha)
  | @skips t next hphase =>
      exact h.setPhase (hkeep hphase fun _ ha => Phase.allocator_after next ▸ ha)
  | @clears t next hphase =>
      refine (h.setValue fun _ ha => by cases ha).setPhase ?_
      exact hkeep hphase fun _ ha => Phase.allocator_after next ▸ ha
  | calls _ howner =>
      refine h.setPhase ?_
      rintro b ⟨⟩
      exact howner
  | returns => exact h.setPhase (hnone rfl)
  | frees => exact (h.setFlags _ _ _).setPhase (hnone rfl)
  | freesUnused hphase => exact (h.setFlags _ _ _).setPhase (hkeep hphase fun _ ha => ha)
  | keeps => exact h.setPhase (hnone rfl)
  | moves => exact (h.setFlags _ _ _).setPhase (hnone rfl)
  | exits _ _ hvalue =>
      refine (h.setValue fun _ ha => by cases ha).setPhase ?_
      rintro b ⟨⟩
      exact h.value _ _ _ hvalue
  | recovers => exact h.setPhase (hnone rfl)
  | otherKey => exact ⟨h.phase, h.value⟩
  | otherValue =>
      refine h.setValue fun a ha => ?_
      obtain ⟨_, -, hx⟩ := Option.map_eq_some_iff.mp ha
      cases hx

/-- A step of one thread changes nothing that belongs to another. -/
theorem OwnersKept.sameFor_step (h : OwnersKept owner p) (hstep : Step owner p action q)
    {u : Thread} (hu : action.thread ≠ some u) : SameFor owner u p q := by
  have hrefl : SameFor owner u p p := ⟨rfl, fun _ => rfl, fun _ _ => rfl, fun _ _ => rfl⟩
  have hne : ∀ {t : Thread}, some t ≠ some u → u ≠ t := fun hne heq => hne (congrArg some heq.symm)
  have hother : ∀ {t : Thread} {a : Allocator}, some t ≠ some u → p.phase t = .destructing a →
      owner a ≠ u := fun hne hphase heq =>
    hne (congrArg some ((h.phase _ _ (hphase ▸ rfl)).symm.trans heq))
  cases hstep with
  | used => exact hrefl
  | registers _ howner =>
      have howned := fun heq => hu (congrArg some (howner.symm.trans heq))
      exact (hrefl.setFlags howned _ _).setPhase (hne hu) _
  | first => exact (hrefl.setOnce _).setPhase (hne hu) _
  | creates => exact (hrefl.withKey _).setPhase (hne hu) _
  | stores => exact (hrefl.setOnce _).setPhase (hne hu) _
  | spins => exact hrefl
  | sets => exact (hrefl.setValue (hne hu) _ _).setPhase (hne hu) _
  | setsToFree hphase =>
      refine ((hrefl.setValue (hne hu) _ _).setFlags (fun heq => ?_) _ _).setPhase (hne hu) _
      exact hu (congrArg some ((h.phase _ _ (hphase ▸ rfl)).symm.trans heq))
  | clears => exact (hrefl.setValue (hne hu) _ _).setPhase (hne hu) _
  | frees hphase => exact (hrefl.setFlags (hother hu hphase) _ _).setPhase (hne hu) _
  | freesUnused hphase => exact (hrefl.setFlags (hother hu hphase) _ _).setPhase (hne hu) _
  | moves hphase => exact (hrefl.setFlags (hother hu hphase) _ _).setPhase (hne hu) _
  | exits => exact (hrefl.setValue (hne hu) _ _).setPhase (hne hu) _
  | otherKey => exact ⟨rfl, fun _ => rfl, fun _ _ => rfl, fun _ _ => rfl⟩
  | otherValue => exact hrefl.setValue (hne hu) _ _
  | _ => exact hrefl.setPhase (hne hu) _

end Owners

/-! ## Nobody is registered twice -/

/-- An allocator that moves to another thread has no pointer left in its own. -/
def Orderly (p : Process Thread Allocator) : Action Thread Allocator → Prop
  | .decide t .moved => ∀ a, p.value t p.key ≠ some (.allocator a)
  | _ => True

section Registered

variable {t : Thread} {k : Nat} {a : Allocator} {keys : List Nat}
  {value : Thread → Nat → Option Nat} {actions : List (Action Thread Allocator)}

/-- A pointer that is stored is one of a registered allocator, and the thread that registers
one has none stored. -/
structure OwnedAt (p : Process Thread Allocator) (t : Thread) : Prop where
  value : ∀ k a, p.value t k = some (.allocator a) →
    p.isDestructorRegistered a = true ∨ (p.phase t).unregisters = true
  registering : ∀ a stage freeing, p.phase t = .registering a stage freeing →
    p.isDestructorRegistered a = true ∧ ∀ k b, p.value t k ≠ some (.allocator b)
  calm : p.phase t ≠ .panicked attempt

/-- The thread has no pointer stored. -/
def Process.Unset (p : Process Thread Allocator) (t : Thread) : Prop :=
  ∀ k b, p.value t k ≠ some (.allocator b)

/-- The key under which a pointer is stored. -/
theorem Keyed.eq_key (h : Keyed p) (hvalue : p.value t k = some (.allocator a)) : k = p.key := by
  obtain ⟨hk, honce⟩ := h.allocator t k a hvalue
  rwa [h.initialized honce, List.mem_singleton] at hk

/-- Nothing is stored under the key, so nothing is stored. -/
theorem Keyed.unset (h : Keyed p) (hnull : ∀ b, p.value t p.key ≠ some (.allocator b)) :
    p.Unset t := by
  intro k b hb
  exact hnull b (h.eq_key hb ▸ hb)

theorem OwnedAt.same (h : OwnedAt p t) (hp : OwnersKept owner p) (hsame : SameFor owner t p q) :
    OwnedAt q t where
  value k a ha := by
    rw [hsame.value] at ha
    rw [hsame.phase, hsame.registered a (hp.value t k a ha)]
    exact h.value k a ha
  registering a stage freeing ha := by
    rw [hsame.phase] at ha
    rw [hsame.registered a (hp.phase t a (ha ▸ rfl))]
    refine ⟨(h.registering a stage freeing ha).1, fun k b => ?_⟩
    rw [hsame.value]
    exact (h.registering a stage freeing ha).2 k b
  calm := by
    rw [hsame.phase]
    exact h.calm

/-- A place where the thread neither registers nor has failed the assertion. -/
def Phase.Steady (phase : Phase Allocator) : Prop :=
  (∀ a stage freeing, phase ≠ .registering a stage freeing) ∧ phase ≠ .panicked attempt

section Steady

variable (a : Allocator) (next : Option Allocator)

theorem Phase.steady_idle : (Phase.idle : Phase Allocator).Steady := ⟨by simp, by simp⟩
theorem Phase.steady_loading : (Phase.loading next).Steady := ⟨by simp, by simp⟩
theorem Phase.steady_clearing : (Phase.clearing next).Steady := ⟨by simp, by simp⟩
theorem Phase.steady_destructing : (Phase.destructing a).Steady := ⟨by simp, by simp⟩

theorem Phase.steady_after : (Phase.after next).Steady := by
  cases next with
  | none => exact steady_idle
  | some a => exact steady_destructing a

theorem Phase.steady_failed :
    (Phase.panicked "Failed to create pthread key" : Phase Allocator).Steady :=
  ⟨by simp, by simp [attempt]⟩

end Steady

/-- While a registration is taken back, the pointer may still be stored. -/
theorem OwnedAt.of_unregisters (h : (q.phase t).unregisters = true) : OwnedAt q t where
  value _ _ _ := .inr h
  registering a stage freeing ha := by
    rw [ha] at h
    cases h
  calm hpanicked := by
    rw [hpanicked] at h
    cases h

section

variable [DecidableEq Thread] {phase : Phase Allocator}

/-- The thread goes on to a place where it does not register. -/
theorem OwnedAt.goOn (h : OwnedAt p t) (hsteady : phase.Steady)
    (hkeep : (p.phase t).unregisters = true → phase.unregisters = true) :
    OwnedAt (p.setPhase t phase) t where
  value k a ha := by
    rw [Process.phase_setPhase, if_pos rfl]
    exact (h.value k a ha).imp_right hkeep
  registering a stage freeing ha := by
    rw [Process.phase_setPhase, if_pos rfl] at ha
    exact absurd ha (hsteady.1 a stage freeing)
  calm := by
    rw [Process.phase_setPhase, if_pos rfl]
    exact hsteady.2

/-- So does a thread that has no pointer stored. -/
theorem Process.Unset.goOn (h : p.Unset t) (hsteady : phase.Steady) :
    OwnedAt (p.setPhase t phase) t where
  value k a ha := absurd ha (h k a)
  registering a stage freeing ha := by
    rw [Process.phase_setPhase, if_pos rfl] at ha
    exact absurd ha (hsteady.1 a stage freeing)
  calm := by
    rw [Process.phase_setPhase, if_pos rfl]
    exact hsteady.2

/-- A registered allocator whose pointer is not stored yet. -/
theorem Process.Unset.goOnRegistering (h : p.Unset t) (ha : p.isDestructorRegistered a = true)
    (stage : Stage) (freeing : Bool) : OwnedAt (p.setPhase t (.registering a stage freeing)) t where
  value k b hb := absurd hb (h k b)
  registering b stage' freeing' hb := by
    rw [Process.phase_setPhase, if_pos rfl] at hb
    cases hb
    exact ⟨ha, h⟩
  calm := by
    rw [Process.phase_setPhase, if_pos rfl]
    simp

/-- The thread goes on with its registration. -/
theorem OwnedAt.goOnRegistering (h : OwnedAt p t) {stage stage' : Stage} {freeing : Bool}
    (hphase : p.phase t = .registering a stage freeing) :
    OwnedAt (p.setPhase t (.registering a stage' freeing)) t := by
  obtain ⟨hregistered, hunset⟩ := h.registering a stage freeing hphase
  exact Process.Unset.goOnRegistering hunset hregistered stage' freeing

end

/-- An allocator that is not registered has no pointer stored in its thread. -/
theorem OwnedAt.unset (h : OwnedAt p t) (hp : OwnersKept owner p)
    (howner : Function.Injective owner) (ha : owner a = t)
    (hnot : p.isDestructorRegistered a = false) (hphase : (p.phase t).unregisters = false) :
    p.Unset t := by
  intro k b hb
  obtain rfl : b = a := howner ((hp.value t k b hb).trans ha.symm)
  rcases h.value k b hb with hregistered | hunregisters
  · exact Bool.noConfusion (hnot.symm.trans hregistered)
  · exact Bool.noConfusion (hphase.symm.trans hunregisters)

section

variable [DecidableEq Thread] [DecidableEq Allocator]

/-- The start of a registration. -/
theorem Process.Unset.registerDestructor (h : p.Unset t) (freeing : Bool) :
    OwnedAt (p.registerDestructor t a freeing) t := by
  have hflags : (p.setFlags a true false).Unset t := h
  refine hflags.goOnRegistering ?_ .exchanging freeing
  rw [Process.isDestructorRegistered_setFlags, if_pos rfl]

theorem OwnedAt.afterFree : OwnedAt (p.afterFree t a) t := by
  refine .of_unregisters ?_
  rw [Process.afterFree, Process.phase_setPhase, if_pos rfl]
  rfl

/-- One step of the thread. -/
theorem OwnedAt.step_self (h : OwnedAt p t) (hkeyed : Keyed p) (hp : OwnersKept owner p)
    (howner : Function.Injective owner) (hstep : Step owner p action q)
    (horderly : Orderly p action) (haction : action.thread = some t) : OwnedAt q t := by
  have hbusy : ∀ {phase phase' : Phase Allocator}, p.phase t = phase → phase.unregisters = false →
      (p.phase t).unregisters = true → phase'.unregisters = true := fun heq hfalse htrue =>
    Bool.noConfusion (hfalse.symm.trans (heq ▸ htrue))
  have hregister : ∀ {b freeing}, owner b = t → p.isDestructorRegistered b = false →
      (p.phase t).unregisters = false → OwnedAt (p.registerDestructor t b freeing) t :=
    fun hb hnot hphase => (h.unset hp howner hb hnot hphase).registerDestructor _
  cases hstep with
  | used => exact h
  | registers hphase hb hnot =>
      obtain rfl := Option.some.inj haction
      exact hregister hb hnot (by rw [hphase]; rfl)
  | first hphase =>
      obtain rfl := Option.some.inj haction
      have hq : OwnedAt (p.setOnce .initializing) _ := ⟨h.value, h.registering, h.calm⟩
      exact hq.goOnRegistering hphase
  | waits hphase =>
      obtain rfl := Option.some.inj haction
      exact h.goOnRegistering hphase
  | passes hphase =>
      obtain rfl := Option.some.inj haction
      exact h.goOnRegistering hphase
  | @creates _ b freeing k hphase =>
      obtain rfl := Option.some.inj haction
      have hq : OwnedAt (p.withKey k) _ := ⟨h.value, h.registering, h.calm⟩
      exact hq.goOnRegistering hphase
  | fails hphase =>
      obtain rfl := Option.some.inj haction
      exact h.goOn Phase.steady_failed (hbusy hphase rfl)
  | stores hphase =>
      obtain rfl := Option.some.inj haction
      have hq : OwnedAt (p.setOnce .initialized) _ := ⟨h.value, h.registering, h.calm⟩
      exact hq.goOnRegistering hphase
  | spins => exact h
  | leaves hphase =>
      obtain rfl := Option.some.inj haction
      exact h.goOnRegistering hphase
  | finds hphase =>
      obtain rfl := Option.some.inj haction
      exact h.goOnRegistering hphase
  | @asserts _ b freeing x hphase hvalue =>
      obtain rfl := Option.some.inj haction
      -- the key is the allocators' own, so the value is a pointer
      have hcreated := hkeyed.initialized (hkeyed.usesKey _ (by rw [hphase]; rfl))
      cases x with
      | allocator c => exact absurd hvalue ((h.registering b _ freeing hphase).2 _ c)
      | other y =>
          have hnot := hkeyed.other _ _ y hvalue
          rw [hcreated] at hnot
          exact absurd (List.mem_singleton_self _) hnot
  | @sets _ b hphase =>
      obtain rfl := Option.some.inj haction
      obtain ⟨hregistered, hunset⟩ := h.registering b _ _ hphase
      refine ⟨fun k c hc => .inl ?_, fun c stage freeing hc => ?_, ?_⟩
      · rw [Process.setPhase, Process.value_setValue] at hc
        split at hc
        · cases hc
          exact hregistered
        · exact absurd hc (hunset k c)
      · rw [Process.phase_setPhase, if_pos rfl] at hc
        cases hc
      · rw [Process.phase_setPhase, if_pos rfl]
        exact Phase.steady_idle.2
  | setsToFree =>
      obtain rfl := Option.some.inj haction
      exact .afterFree
  | deregisters =>
      obtain rfl := Option.some.inj haction
      exact h.goOn (Phase.steady_loading _) fun _ => rfl
  | loads =>
      obtain rfl := Option.some.inj haction
      exact h.goOn (Phase.steady_clearing _) fun _ => rfl
  | @skips u next hphase honce =>
      obtain rfl := Option.some.inj haction
      have hunset : p.Unset u := fun k b hb => honce (hkeyed.allocator u k b hb).2
      exact hunset.goOn (Phase.steady_after _)
  | @clears u next =>
      obtain rfl := Option.some.inj haction
      have hunset : (p.setValue u p.key none).Unset u := fun k b hb => by
        rw [Process.value_setValue] at hb
        split at hb
        · cases hb
        · next hne => exact hne ⟨rfl, hkeyed.eq_key hb⟩
      exact hunset.goOn (Phase.steady_after _)
  | calls hphase =>
      obtain rfl := Option.some.inj haction
      exact h.goOn (Phase.steady_destructing _) (hbusy hphase rfl)
  | returns hphase =>
      obtain rfl := Option.some.inj haction
      exact h.goOn Phase.steady_idle (hbusy hphase rfl)
  | frees =>
      obtain rfl := Option.some.inj haction
      exact .afterFree
  | @freesUnused _ b hphase hnot hunused =>
      obtain rfl := Option.some.inj haction
      exact hregister (hp.phase _ b (hphase ▸ rfl)) hunused (by rw [hphase]; rfl)
  | keeps hphase =>
      obtain rfl := Option.some.inj haction
      exact h.goOn Phase.steady_idle (hbusy hphase rfl)
  | @moves u b hphase =>
      obtain rfl := Option.some.inj haction
      have hunset : (p.setFlags b false true).Unset u := hkeyed.unset horderly
      exact hunset.goOn Phase.steady_idle
  | @exits u j b hphase hcreated hvalue =>
      obtain rfl := Option.some.inj haction
      have hunset : (p.setValue u j none).Unset u := fun k c hc => by
        rw [Process.value_setValue] at hc
        split at hc
        · cases hc
        · next hne => exact hne ⟨rfl, (hkeyed.eq_key hc).trans (hkeyed.eq_key hvalue).symm⟩
      exact hunset.goOn (Phase.steady_destructing b)
  | recovers hphase =>
      obtain rfl := Option.some.inj haction
      exact h.goOn Phase.steady_idle (hbusy hphase rfl)
  | otherKey => cases haction
  | @otherValue u j x hkey hother =>
      obtain rfl := Option.some.inj haction
      have hvalues : ∀ k c, (p.setValue u j (x.map .other)).value u k = some (.allocator c) →
          p.value u k = some (.allocator c) := fun k c hc => by
        rw [Process.value_setValue] at hc
        split at hc
        · obtain ⟨_, -, hx⟩ := Option.map_eq_some_iff.mp hc
          cases hx
        · exact hc
      refine ⟨fun k c hc => h.value k c (hvalues k c hc), fun c stage freeing hc => ?_, h.calm⟩
      obtain ⟨hregistered, hunset⟩ := h.registering c stage freeing hc
      exact ⟨hregistered, fun k b hb => hunset k b (hvalues k b hb)⟩

theorem OwnedAt.step (h : ∀ t, OwnedAt p t) (hkeyed : Keyed p) (hp : OwnersKept owner p)
    (howner : Function.Injective owner) (hstep : Step owner p action q)
    (horderly : Orderly p action) (t : Thread) : OwnedAt q t := by
  by_cases haction : action.thread = some t
  · exact (h t).step_self hkeyed hp howner hstep horderly haction
  · exact (h t).same hp (hp.sameFor_step hstep haction)

theorem OwnedAt.run (howner : Function.Injective owner)
    (hrun : Run (fun p action q => Step owner p action q ∧ Orderly p action)
      (Process.initial keys value) actions p) :
    Keyed p ∧ OwnersKept owner p ∧ ∀ t, OwnedAt p t := by
  refine hrun.invariant (I := fun p => Keyed p ∧ OwnersKept owner p ∧ ∀ t, OwnedAt p t)
    (fun p action q h hstep => ?_) ⟨Keyed.initial keys value, .initial, fun t => ?_⟩
  · exact ⟨h.1.step hstep.1, h.2.1.step hstep.1,
      OwnedAt.step h.2.2 h.1 h.2.1 howner hstep.1 hstep.2⟩
  · have hunset : (Process.initial keys value : Process Thread Allocator).Unset t := fun k b hb =>
      absurd ((Keyed.initial keys value).allocator t k b hb).1 List.not_mem_nil
    exact ⟨fun k a ha => absurd ha (hunset k a),
      fun a stage freeing ha => absurd ha (Phase.steady_idle.1 a stage freeing), Phase.steady_idle.2⟩

/-- When each thread has one allocator, and none moves to another thread with its pointer
still stored, the assertion that no other allocator is registered never fails. -/
theorem never_asserts_of_run (howner : Function.Injective owner)
    (hrun : Run (fun p action q => Step owner p action q ∧ Orderly p action)
      (Process.initial keys value) actions p) (t : Thread) : p.phase t ≠ .panicked attempt :=
  ((OwnedAt.run howner hrun).2.2 t).calm

end

/-! ## A registered allocator is destroyed with its thread -/

/-- The key can be created; a pointer that is still stored is not lost by a move, by the
function that takes the registration back alone, or by a destructor that an extra-large size
ends early. -/
def KeepsTrack (p : Process Thread Allocator) : Action Thread Allocator → Prop
  | .createKey _ none => False
  | .decide t .moved | .deregister t none => ∀ a, p.value t p.key ≠ some (.allocator a)
  | .decide t .kept => ∀ a, p.phase t = .destructing a → p.isDestructorRegistered a = true →
      p.value t p.key = some (.allocator a)
  | _ => True

theorem KeepsTrack.orderly (h : KeepsTrack p action) : Orderly p action := by
  cases action with
  | decide t outcome =>
      cases outcome with
      | moved => exact h
      | _ => trivial
  | _ => trivial

/-- A registered allocator is stored for its thread, or its thread is at work on it. -/
structure Traced (p : Process Thread Allocator) (t : Thread) (a : Allocator) : Prop where
  fresh : p.isDestructorRegistered a = true → p.isAlreadyDestructured a = false
  place : p.isDestructorRegistered a = true →
    (∃ k, p.value t k = some (.allocator a)) ∨ a ∈ (p.phase t).allocator
  alone : p.isDestructorRegistered a = true → p.phase t ≠ .loading none ∧ p.phase t ≠ .clearing none

theorem Traced.same (h : Traced p (owner a) a) (hsame : SameFor owner (owner a) p q) :
    Traced q (owner a) a where
  fresh hq := by
    rw [hsame.destructured a rfl]
    exact h.fresh (hsame.registered a rfl ▸ hq)
  place hq := by
    simp only [hsame.value, hsame.phase]
    exact h.place (hsame.registered a rfl ▸ hq)
  alone hq := by
    rw [hsame.phase]
    exact h.alone (hsame.registered a rfl ▸ hq)

/-- The thread goes on and still knows of the allocator. -/
theorem Traced.goOn [DecidableEq Thread] {t : Thread} (h : Traced p t a) {phase : Phase Allocator}
    (hplace : p.isDestructorRegistered a = true → a ∈ (p.phase t).allocator → a ∈ phase.allocator)
    (halone : p.isDestructorRegistered a = true → phase ≠ .loading none ∧ phase ≠ .clearing none) :
    Traced (p.setPhase t phase) t a where
  fresh := h.fresh
  place hq := by
    rw [Process.phase_setPhase, if_pos rfl]
    exact (h.place hq).imp_right (hplace hq)
  alone hq := by
    rw [Process.phase_setPhase, if_pos rfl]
    exact halone hq

/-- The thread is at work on the allocator. -/
theorem Traced.of_mem {t : Thread} (hphase : a ∈ (q.phase t).allocator)
    (hfresh : q.isDestructorRegistered a = true → q.isAlreadyDestructured a = false) :
    Traced q t a where
  fresh := hfresh
  place _ := .inr hphase
  alone _ := by
    constructor
    · intro hloading
      rw [hloading] at hphase
      cases hphase
    · intro hclearing
      rw [hclearing] at hphase
      cases hphase

theorem Traced.of_not {t : Thread} (h : q.isDestructorRegistered a = false) : Traced q t a where
  fresh hq := Bool.noConfusion (h.symm.trans hq)
  place hq := Bool.noConfusion (h.symm.trans hq)
  alone hq := Bool.noConfusion (h.symm.trans hq)

variable [DecidableEq Thread] [DecidableEq Allocator]

/-- One step of the thread of the allocator. -/
theorem Traced.step_self (h : Traced p (owner a) a) (hkeyed : Keyed p) (hp : OwnersKept owner p)
    (howner : Function.Injective owner) (hcalm : q.phase (owner a) ≠ .panicked attempt)
    (hstep : Step owner p action q) (htrack : KeepsTrack p action)
    (haction : action.thread = some (owner a)) : Traced q (owner a) a := by
  have hthe : ∀ {t b}, some t = some (owner a) → owner b = t → b = a :=
    fun ht hb => howner (hb.trans (Option.some.inj ht))
  have hmine : ∀ {t b phase}, some t = some (owner a) → p.phase t = phase → b ∈ phase.allocator →
      b = a := fun ht hphase hb => hthe ht (hp.phase _ _ (hphase ▸ hb))
  have hmem : ∀ {phase phase' : Phase Allocator}, p.phase (owner a) = phase →
      (∀ b ∈ phase.allocator, b ∈ phase'.allocator) → a ∈ (p.phase (owner a)).allocator →
      a ∈ phase'.allocator := fun hphase hsub ha => hsub a (hphase ▸ ha)
  have hon : ∀ {phase phase' : Phase Allocator}, p.phase (owner a) = phase →
      (∀ b ∈ phase.allocator, b ∈ phase'.allocator) → (p.isDestructorRegistered a = true →
        phase' ≠ .loading none ∧ phase' ≠ .clearing none) →
      Traced (p.setPhase (owner a) phase') (owner a) a :=
    fun hphase hsub halone => h.goOn (fun _ => hmem hphase hsub) halone
  cases hstep with
  | used => exact h
  | registers _ hb =>
      obtain rfl := hthe haction hb
      obtain rfl := Option.some.inj haction
      refine .of_mem ?_ fun _ => ?_
      · rw [Process.registerDestructor, Process.phase_setPhase, if_pos rfl]
        rfl
      · exact (Process.isAlreadyDestructured_setFlags p _ _ true false).trans (if_pos rfl)
  | first hphase =>
      obtain rfl := Option.some.inj haction
      have hq : Traced (p.setOnce .initializing) (owner a) a := ⟨h.fresh, h.place, h.alone⟩
      exact hq.goOn (fun _ => hmem hphase fun _ hb => hb) fun _ => ⟨by simp, by simp⟩
  | waits hphase =>
      obtain rfl := Option.some.inj haction
      exact hon hphase (fun _ hb => hb) fun _ => ⟨by simp, by simp⟩
  | passes hphase =>
      obtain rfl := Option.some.inj haction
      exact hon hphase (fun _ hb => hb) fun _ => ⟨by simp, by simp⟩
  | @creates _ b freeing k hphase =>
      obtain rfl := Option.some.inj haction
      have hq : Traced (p.withKey k) (owner a) a := ⟨h.fresh, h.place, h.alone⟩
      exact hq.goOn (fun _ => hmem hphase fun _ hb => hb) fun _ => ⟨by simp, by simp⟩
  | fails => exact htrack.elim
  | stores hphase =>
      obtain rfl := Option.some.inj haction
      have hq : Traced (p.setOnce .initialized) (owner a) a := ⟨h.fresh, h.place, h.alone⟩
      exact hq.goOn (fun _ => hmem hphase fun _ hb => hb) fun _ => ⟨by simp, by simp⟩
  | spins => exact h
  | leaves hphase =>
      obtain rfl := Option.some.inj haction
      exact hon hphase (fun _ hb => hb) fun _ => ⟨by simp, by simp⟩
  | finds hphase =>
      obtain rfl := Option.some.inj haction
      exact hon hphase (fun _ hb => hb) fun _ => ⟨by simp, by simp⟩
  | asserts =>
      obtain rfl := Option.some.inj haction
      refine absurd ?_ hcalm
      rw [Process.phase_setPhase, if_pos rfl]
  | sets hphase =>
      obtain rfl := hmine haction hphase rfl
      obtain rfl := Option.some.inj haction
      refine ⟨h.fresh, fun _ => .inl ⟨p.key, ?_⟩, fun _ => ?_⟩
      · rw [Process.setPhase, Process.value_setValue, if_pos ⟨rfl, rfl⟩]
      · rw [Process.phase_setPhase, if_pos rfl]
        exact ⟨by simp, by simp⟩
  | setsToFree hphase =>
      obtain rfl := hmine haction hphase rfl
      exact .of_not ((Process.isDestructorRegistered_setFlags _ _ _ false true).trans (if_pos rfl))
  | @deregisters t next hidle hnext =>
      obtain rfl := Option.some.inj haction
      cases next with
      | none =>
          -- nothing is stored and the thread is idle, so the allocator is not registered
          have hunset := hkeyed.unset htrack
          refine .of_not ?_
          by_contra hregistered
          rcases h.place (eq_true_of_ne_false hregistered) with ⟨k, hk⟩ | ha
          · exact hunset k a hk
          · rw [hidle] at ha
            cases ha
      | some b =>
          obtain rfl : b = a := howner (hnext b rfl)
          refine .of_mem ?_ h.fresh
          rw [Process.phase_setPhase, if_pos rfl]
          rfl
  | @loads t next hphase =>
      obtain rfl := Option.some.inj haction
      refine hon hphase (fun _ hb => hb) fun hregistered => ⟨by simp, fun heq => ?_⟩
      cases heq
      exact (h.alone hregistered).1 hphase
  | @skips t next hphase =>
      obtain rfl := Option.some.inj haction
      refine hon hphase (fun b hb => (Phase.allocator_after next).symm ▸ hb) fun _ => ?_
      cases next with
      | none => exact ⟨by simp [Phase.after], by simp [Phase.after]⟩
      | some b => exact ⟨by simp [Phase.after], by simp [Phase.after]⟩
  | @clears t next hphase =>
      obtain rfl := Option.some.inj haction
      cases next with
      | none =>
          refine .of_not ?_
          by_contra hregistered
          exact (h.alone (eq_true_of_ne_false hregistered)).2 hphase
      | some b =>
          obtain rfl : b = a := hmine haction hphase rfl
          refine .of_mem ?_ h.fresh
          rw [Process.phase_setPhase, if_pos rfl]
          rfl
  | calls _ hb =>
      obtain rfl := hthe haction hb
      obtain rfl := Option.some.inj haction
      refine .of_mem ?_ h.fresh
      rw [Process.phase_setPhase, if_pos rfl]
      rfl
  | returns hphase hdestructured =>
      obtain rfl := hmine haction hphase rfl
      refine .of_not ?_
      by_contra hregistered
      exact Bool.noConfusion (hdestructured.symm.trans (h.fresh (eq_true_of_ne_false hregistered)))
  | frees hphase =>
      obtain rfl := hmine haction hphase rfl
      exact .of_not ((Process.isDestructorRegistered_setFlags _ _ _ false true).trans (if_pos rfl))
  | freesUnused hphase =>
      obtain rfl := hmine haction hphase rfl
      obtain rfl := Option.some.inj haction
      refine .of_mem ?_ fun _ => ?_
      · rw [Process.registerDestructor, Process.phase_setPhase, if_pos rfl]
        rfl
      · exact (Process.isAlreadyDestructured_setFlags p _ _ true false).trans (if_pos rfl)
  | keeps hphase =>
      obtain rfl := hmine haction hphase rfl
      obtain rfl := Option.some.inj haction
      refine ⟨h.fresh, fun hregistered => .inl ⟨p.key, htrack _ hphase hregistered⟩, fun _ => ?_⟩
      rw [Process.phase_setPhase, if_pos rfl]
      exact ⟨by simp, by simp⟩
  | moves hphase =>
      obtain rfl := hmine haction hphase rfl
      exact .of_not ((Process.isDestructorRegistered_setFlags _ _ _ false true).trans (if_pos rfl))
  | exits _ _ hvalue =>
      obtain rfl := hthe haction (hp.value _ _ _ hvalue)
      obtain rfl := Option.some.inj haction
      refine .of_mem ?_ h.fresh
      rw [Process.phase_setPhase, if_pos rfl]
      rfl
  | recovers hphase =>
      obtain rfl := Option.some.inj haction
      exact hon hphase (fun _ hb => by cases hb) fun _ => ⟨by simp, by simp⟩
  | otherKey => cases haction
  | @otherValue t j x hkey hother =>
      obtain rfl := Option.some.inj haction
      refine ⟨h.fresh, fun hregistered => (h.place hregistered).imp_left ?_, h.alone⟩
      rintro ⟨k, hk⟩
      refine ⟨k, ?_⟩
      rw [Process.value_setValue, if_neg]
      · exact hk
      · rintro ⟨-, rfl⟩
        exact hother (hkeyed.allocator _ k a hk).1

theorem Traced.run (howner : Function.Injective owner)
    (hrun : Run (fun p action q => Step owner p action q ∧ KeepsTrack p action)
      (Process.initial keys value) actions p) :
    (Keyed p ∧ OwnersKept owner p ∧ ∀ t, OwnedAt p t) ∧ ∀ a, Traced p (owner a) a := by
  refine hrun.invariant
    (I := fun p => (Keyed p ∧ OwnersKept owner p ∧ ∀ t, OwnedAt p t) ∧ ∀ a, Traced p (owner a) a)
    (fun p action q h hstep => ?_) ⟨OwnedAt.run howner (.nil _), fun a => .of_not rfl⟩
  obtain ⟨⟨hkeyed, hp, howned⟩, htraced⟩ := h
  obtain ⟨hstep, htrack⟩ := hstep
  have hq := OwnedAt.step howned hkeyed hp howner hstep htrack.orderly
  refine ⟨⟨hkeyed.step hstep, hp.step hstep, hq⟩, fun a => ?_⟩
  by_cases haction : action.thread = some (owner a)
  · exact (htraced a).step_self hkeyed hp howner (hq _).calm hstep htrack haction
  · exact (htraced a).same (hp.sameFor_step hstep haction)

/-- While the thread of an allocator does not register or free it, the pointer of the allocator
is stored for the thread exactly when the allocator is in use; then the exit of the thread
destroys it. -/
theorem registered_iff_of_run (howner : Function.Injective owner)
    (hrun : Run (fun p action q => Step owner p action q ∧ KeepsTrack p action)
      (Process.initial keys value) actions p) (a : Allocator) (hidle : p.phase (owner a) = .idle) :
    (p.isDestructorRegistered a = true ↔ p.value (owner a) p.key = some (.allocator a)) ∧
      (p.isDestructorRegistered a = true → p.isAlreadyDestructured a = false ∧
        ∃ q, Step owner p (.exit (owner a)) q ∧ q.phase (owner a) = .destructing a) := by
  obtain ⟨⟨hkeyed, hp, howned⟩, htraced⟩ := Traced.run howner hrun
  have hstored : p.isDestructorRegistered a = true →
      p.value (owner a) p.key = some (.allocator a) := fun hregistered => by
    rcases (htraced a).place hregistered with ⟨k, hk⟩ | ha
    · exact hkeyed.eq_key hk ▸ hk
    · rw [hidle] at ha
      cases ha
  refine ⟨⟨hstored, fun hvalue => ?_⟩, fun hregistered => ⟨(htraced a).fresh hregistered, ?_⟩⟩
  · refine ((howned _).value _ _ hvalue).resolve_right ?_
    rw [hidle]
    exact Bool.noConfusion
  · have hvalue := hstored hregistered
    refine ⟨_, .exits hidle (hkeyed.allocator _ _ a hvalue).1 hvalue, ?_⟩
    rw [Process.phase_setPhase, if_pos rfl]

/-- Two threads use their allocators; one exits, and its allocator is freed. -/
theorem exists_exit : ∃ p : Process Bool Bool,
    Run (fun p action q => Step id p action q ∧ KeepsTrack p action)
      (Process.initial [0] fun _ _ => some 42)
      [.use false false, .use true true, .exchange true, .createKey true (some 7), .exchange false,
        .storeInitialized true, .getspecific true, .setspecific true, .spin false,
        .getspecific false, .setspecific false, .exit true, .decide true .freed, .loadOnce true,
        .clear true] p ∧
      p.phase false = .idle ∧ p.isDestructorRegistered false = true := by
  refine ⟨_, .cons ⟨.registers rfl rfl rfl, trivial⟩ <| .cons ⟨.registers rfl rfl rfl, trivial⟩ <|
    .cons ⟨.first rfl rfl, trivial⟩ <| .cons ⟨.creates rfl (by decide), trivial⟩ <|
    .cons ⟨.waits rfl rfl, trivial⟩ <| .cons ⟨.stores rfl, trivial⟩ <|
    .cons ⟨.finds rfl rfl, trivial⟩ <| .cons ⟨.sets rfl, trivial⟩ <|
    .cons ⟨.leaves rfl rfl, trivial⟩ <| .cons ⟨.finds rfl rfl, trivial⟩ <|
    .cons ⟨.sets rfl, trivial⟩ <| .cons ⟨.exits rfl (List.mem_singleton_self 7) rfl, trivial⟩ <|
    .cons ⟨.frees rfl rfl rfl, trivial⟩ <| .cons ⟨.loads rfl rfl, trivial⟩ <|
    .cons ⟨.clears rfl, trivial⟩ <| .nil _, rfl, rfl⟩

theorem never_asserts_of_exit : ∃ p : Process Bool Bool,
    p.isDestructorRegistered false = true ∧ p.phase true ≠ .panicked attempt := by
  obtain ⟨p, hrun, -, hregistered⟩ := exists_exit
  have horderly := hrun.mono fun _ _ _ h => And.intro h.1 h.2.orderly
  exact ⟨p, hregistered, never_asserts_of_run Function.injective_id horderly true⟩

theorem registered_iff_of_exit : ∃ p : Process Bool Bool,
    p.value false p.key = some (.allocator false) ∧ p.isAlreadyDestructured false = false := by
  obtain ⟨p, hrun, hidle, hregistered⟩ := exists_exit
  obtain ⟨hstored, hexits⟩ := registered_iff_of_run Function.injective_id hrun false hidle
  exact ⟨p, hstored.mp hregistered, (hexits hregistered).1⟩

end Registered

/-! ## An allocator whose destructor has ended early -/

section Forgotten

variable {a : Allocator}

/-- The allocator is in use, and its thread has no pointer to it. -/
structure Forgotten (p : Process Thread Allocator) (t : Thread) (a : Allocator) : Prop where
  registered : p.isDestructorRegistered a = true
  phase : a ∉ (p.phase t).allocator
  value : ∀ k, p.value t k ≠ some (.allocator a)

/-- The program itself asks for the allocator to be freed. -/
def Action.asksFor (a : Allocator) : Action Thread Allocator → Prop
  | .destructor _ b => b = a
  | .deregister _ next => next = some a
  | _ => False

theorem Forgotten.same (h : Forgotten p (owner a) a) (hsame : SameFor owner (owner a) p q) :
    Forgotten q (owner a) a where
  registered := (hsame.registered a rfl).trans h.registered
  phase := by
    rw [hsame.phase]
    exact h.phase
  value k := by
    rw [hsame.value]
    exact h.value k

theorem Forgotten.setFlags [DecidableEq Allocator] {t : Thread} (h : Forgotten p t a) {b : Allocator}
    (hb : b ≠ a) (registered destructured : Bool) : Forgotten (p.setFlags b registered destructured) t a where
  registered := by
    rw [Process.isDestructorRegistered_setFlags, if_neg hb.symm]
    exact h.registered
  phase := h.phase
  value := h.value

variable [DecidableEq Thread]

theorem Forgotten.goOn {t : Thread} (h : Forgotten p t a) {phase : Phase Allocator}
    (hphase : a ∉ phase.allocator) : Forgotten (p.setPhase t phase) t a where
  registered := h.registered
  phase := by
    rw [Process.phase_setPhase, if_pos rfl]
    exact hphase
  value := h.value

theorem Forgotten.setValue {t : Thread} (h : Forgotten p t a) (k : Nat)
    {x : Option (Pointer Allocator)} (hx : x ≠ some (.allocator a)) :
    Forgotten (p.setValue t k x) t a where
  registered := h.registered
  phase := h.phase
  value j hj := by
    rw [Process.value_setValue] at hj
    split at hj
    · exact hx hj
    · exact h.value j hj

variable [DecidableEq Allocator]

/-- One step of the thread of the allocator. -/
theorem Forgotten.step_self (h : Forgotten p (owner a) a) (hstep : Step owner p action q)
    (hasks : ¬action.asksFor a) (haction : action.thread = some (owner a)) :
    Forgotten q (owner a) a := by
  have hne : ∀ {phase : Phase Allocator} {b : Allocator}, p.phase (owner a) = phase →
      b ∈ phase.allocator → b ≠ a := by
    rintro _ b rfl hb rfl
    exact h.phase hb
  have hnone : a ∉ (none : Option Allocator) := Option.not_mem_none a
  have hon : ∀ {phase phase' : Phase Allocator}, p.phase (owner a) = phase →
      phase'.allocator = phase.allocator → a ∉ phase'.allocator := fun hphase heq => by
    rw [heq, ← hphase]
    exact h.phase
  have hsome : ∀ {b : Allocator}, b ≠ a → a ∉ some b := fun hb ha => hb (Option.some.inj ha)
  have hother : ∀ {b : Allocator}, b ≠ a →
      some (Pointer.allocator b) ≠ some (Pointer.allocator a) := fun hb heq => by
    cases heq
    exact hb rfl
  cases hstep with
  | used => exact h
  | @registers _ b _ _ hnot =>
      obtain rfl := Option.some.inj haction
      have hb : b ≠ a := by
        rintro rfl
        exact Bool.noConfusion (hnot.symm.trans h.registered)
      exact (h.setFlags hb _ _).goOn (hsome hb)
  | first hphase =>
      obtain rfl := Option.some.inj haction
      have hq : Forgotten (p.setOnce .initializing) (owner a) a := ⟨h.registered, h.phase, h.value⟩
      exact hq.goOn (hon hphase rfl)
  | waits hphase =>
      obtain rfl := Option.some.inj haction
      exact h.goOn (hon hphase rfl)
  | passes hphase =>
      obtain rfl := Option.some.inj haction
      exact h.goOn (hon hphase rfl)
  | @creates _ b freeing k hphase =>
      obtain rfl := Option.some.inj haction
      have hq : Forgotten (p.withKey k) (owner a) a := ⟨h.registered, h.phase, h.value⟩
      exact hq.goOn (hon hphase rfl)
  | fails =>
      obtain rfl := Option.some.inj haction
      exact h.goOn hnone
  | stores hphase =>
      obtain rfl := Option.some.inj haction
      have hq : Forgotten (p.setOnce .initialized) (owner a) a := ⟨h.registered, h.phase, h.value⟩
      exact hq.goOn (hon hphase rfl)
  | spins => exact h
  | leaves hphase =>
      obtain rfl := Option.some.inj haction
      exact h.goOn (hon hphase rfl)
  | finds hphase =>
      obtain rfl := Option.some.inj haction
      exact h.goOn (hon hphase rfl)
  | asserts =>
      obtain rfl := Option.some.inj haction
      exact h.goOn hnone
  | sets hphase =>
      obtain rfl := Option.some.inj haction
      exact (h.setValue _ (hother (hne hphase rfl))).goOn hnone
  | setsToFree hphase =>
      obtain rfl := Option.some.inj haction
      have hb := hne hphase rfl
      exact ((h.setValue _ (hother hb)).setFlags hb _ _).goOn hnone
  | deregisters =>
      obtain rfl := Option.some.inj haction
      exact h.goOn hasks
  | loads hphase =>
      obtain rfl := Option.some.inj haction
      exact h.goOn (hon hphase rfl)
  | skips hphase =>
      obtain rfl := Option.some.inj haction
      exact h.goOn (hon hphase (Phase.allocator_after _))
  | clears hphase =>
      obtain rfl := Option.some.inj haction
      exact (h.setValue _ (by simp)).goOn (hon hphase (Phase.allocator_after _))
  | calls =>
      obtain rfl := Option.some.inj haction
      exact h.goOn (hsome hasks)
  | returns =>
      obtain rfl := Option.some.inj haction
      exact h.goOn hnone
  | frees hphase =>
      obtain rfl := Option.some.inj haction
      exact (h.setFlags (hne hphase rfl) _ _).goOn hnone
  | freesUnused hphase =>
      obtain rfl := Option.some.inj haction
      have hb := hne hphase rfl
      exact (h.setFlags hb _ _).goOn (hsome hb)
  | keeps =>
      obtain rfl := Option.some.inj haction
      exact h.goOn hnone
  | moves hphase =>
      obtain rfl := Option.some.inj haction
      exact (h.setFlags (hne hphase rfl) _ _).goOn hnone
  | exits _ _ hvalue =>
      obtain rfl := Option.some.inj haction
      refine (h.setValue _ (by simp)).goOn (hsome ?_)
      rintro rfl
      exact h.value _ hvalue
  | recovers =>
      obtain rfl := Option.some.inj haction
      exact h.goOn hnone
  | otherKey => cases haction
  | otherValue =>
      obtain rfl := Option.some.inj haction
      refine h.setValue _ fun heq => ?_
      obtain ⟨_, -, hx⟩ := Option.map_eq_some_iff.mp heq
      cases hx

theorem Forgotten.step (h : Forgotten p (owner a) a) (hp : OwnersKept owner p)
    (hstep : Step owner p action q) (hasks : ¬action.asksFor a) : Forgotten q (owner a) a := by
  by_cases haction : action.thread = some (owner a)
  · exact h.step_self hstep hasks haction
  · exact h.same (hp.sameFor_step hstep haction)

/-- When an extra-large size ends the destructor that the exit of a thread has called, the
allocator stays in use for good: no destructor is called for it any more, unless the program
asks for it. -/
theorem forgotten_of_run {keys : List Nat} {value : Thread → Nat → Option Nat} {t : Thread}
    {before after : List (Action Thread Allocator)}
    (hbefore : Run (Step owner) (Process.initial keys value) before p)
    (hphase : p.phase t = .destructing a) (hregistered : p.isDestructorRegistered a = true)
    (hcleared : p.value t p.key = none)
    (hafter : Run (Step owner) p (.decide t .kept :: after) q)
    (hasks : ∀ action ∈ after, ¬action.asksFor a) :
    q.isDestructorRegistered a = true ∧ (∀ u, q.phase u ≠ .destructing a) ∧
      ∀ u k, q.value u k ≠ some (.allocator a) := by
  have hkeyed := Keyed.run hbefore
  have hp : OwnersKept owner p := hbefore.invariant (fun _ _ _ h hstep => h.step hstep) .initial
  obtain rfl : owner a = t := hp.phase t a (hphase ▸ rfl)
  have hnone : ∀ k b, p.value (owner a) k ≠ some (.allocator b) := hkeyed.unset fun b hb => by
    cases hcleared.symm.trans hb
  -- the destructor returns, and from there on the invariant holds
  cases hafter with
  | @cons _ m _ _ _ hkept hrest =>
      have hm : Forgotten m (owner a) a ∧ OwnersKept owner m := by
        refine ⟨?_, hp.step hkept⟩
        cases hkept with
        | returns =>
            exact ⟨hregistered, by simp [Process.phase_setPhase, Phase.allocator], fun k => hnone k a⟩
        | keeps =>
            exact ⟨hregistered, by simp [Process.phase_setPhase, Phase.allocator], fun k => hnone k a⟩
      obtain ⟨hq, hkeptq⟩ := hrest.invariant_of_mem
        (I := fun s => Forgotten s (owner a) a ∧ OwnersKept owner s)
        (fun s action s' haction h hstep =>
          ⟨h.1.step h.2 hstep (hasks action haction), h.2.step hstep⟩) hm
      refine ⟨hq.registered, fun u hu => ?_, fun u k hu => ?_⟩
      · obtain rfl := hkeptq.phase u a (hu ▸ rfl)
        exact hq.phase (hu ▸ rfl)
      · obtain rfl := hkeptq.value u k a hu
        exact hq.value k hu

/-- The thread goes on with its allocator after its keys have been destroyed. -/
theorem forgotten_of_kept : ∃ q : Process Bool Bool,
    q.isDestructorRegistered false = true ∧ ∀ k, q.value false k ≠ some (.allocator false) := by
  have hbefore : ∃ p : Process Bool Bool, Run (Step id) (Process.initial [] fun _ _ => none)
      [.use false false, .exchange false, .createKey false (some 7), .storeInitialized false,
        .getspecific false, .setspecific false, .exit false] p ∧
      p.phase false = .destructing false ∧ p.isDestructorRegistered false = true ∧
      p.isAlreadyDestructured false = false ∧ p.value false p.key = none :=
    ⟨_, .cons (.registers rfl rfl rfl) <| .cons (.first rfl rfl) <|
      .cons (.creates rfl (by decide)) <| .cons (.stores rfl) <| .cons (.finds rfl rfl) <|
      .cons (.sets rfl) <| .cons (.exits rfl (List.mem_singleton_self 7) rfl) <| .nil _,
      rfl, rfl, rfl, rfl⟩
  obtain ⟨p, hrun, hphase, hregistered, hdestructured, hcleared⟩ := hbefore
  have hafter : Run (Step id) p [.decide false .kept, .use false false] (p.setPhase false .idle) :=
    .cons (.keeps hphase hdestructured) <|
      .cons (.used ((Process.phase_setPhase p _ _ _).trans (if_pos rfl)) rfl hregistered) <| .nil _
  obtain ⟨hq, -, hvalue⟩ := forgotten_of_run hrun hphase hregistered hcleared hafter
    (by simp [Action.asksFor])
  exact ⟨_, hq, hvalue false⟩

end Forgotten

/-! ## Waiting for the key -/

section Waiting

variable {t : Thread} {a : Allocator} {freeing : Bool} {keys : List Nat}
  {value : Thread → Nat → Option Nat} {actions : List (Action Thread Allocator)}

/-- `ONCE` says that the key is being created, and nobody creates it. -/
structure Blocked (p : Process Thread Allocator) : Prop where
  once : p.once = .initializing
  nobody : ∀ t, (p.phase t).creates = false

theorem Phase.creates_after (next : Option Allocator) : (Phase.after next).creates = false := by
  cases next <;> rfl

variable [DecidableEq Thread]

theorem Blocked.goOn (h : Blocked p) (t : Thread) {phase : Phase Allocator}
    (hphase : phase.creates = false) : Blocked (p.setPhase t phase) where
  once := h.once
  nobody u := by
    rw [Process.phase_setPhase]
    split
    · exact hphase
    · exact h.nobody u

/-- The thread whose compare-exchange has succeeded is still at it. -/
def AtWork (p : Process Thread Allocator) : Prop :=
  p.once = .initializing → ∃ t, (p.phase t).creates = true

theorem AtWork.goOn (h : AtWork p) (hphase : (p.phase t).creates = false) (phase : Phase Allocator) :
    AtWork (p.setPhase t phase) := by
  intro honce
  obtain ⟨u, hu⟩ := h honce
  refine ⟨u, ?_⟩
  rw [Process.phase_setPhase, if_neg]
  · exact hu
  · rintro rfl
    exact Bool.noConfusion (hphase.symm.trans hu)

variable [DecidableEq Allocator]

/-- One step: only the thread that creates the key sets `ONCE` again. -/
theorem Blocked.step (h : Blocked p) (hstep : Step owner p action q) : Blocked q := by
  have hcreates : ∀ {t : Thread} {phase : Phase Allocator}, p.phase t = phase →
      phase.creates = false := fun hphase => hphase ▸ h.nobody _
  cases hstep with
  | used => exact h
  | registers => exact (⟨h.once, h.nobody⟩ : Blocked (p.setFlags _ _ _)).goOn _ rfl
  | first hphase honce => exact absurd (honce.symm.trans h.once) Once.noConfusion
  | creates hphase => cases hcreates hphase
  | fails hphase => cases hcreates hphase
  | stores hphase => cases hcreates hphase
  | spins => exact h
  | sets => exact (⟨h.once, h.nobody⟩ : Blocked (p.setValue _ _ _)).goOn _ rfl
  | setsToFree => exact (⟨h.once, h.nobody⟩ : Blocked ((p.setValue _ _ _).setFlags _ _ _)).goOn _ rfl
  | skips => exact h.goOn _ (Phase.creates_after _)
  | clears => exact (⟨h.once, h.nobody⟩ : Blocked (p.setValue _ _ _)).goOn _ (Phase.creates_after _)
  | frees => exact (⟨h.once, h.nobody⟩ : Blocked (p.setFlags _ _ _)).goOn _ rfl
  | freesUnused => exact (⟨h.once, h.nobody⟩ : Blocked (p.setFlags _ _ _)).goOn _ rfl
  | moves => exact (⟨h.once, h.nobody⟩ : Blocked (p.setFlags _ _ _)).goOn _ rfl
  | exits => exact (⟨h.once, h.nobody⟩ : Blocked (p.setValue _ _ _)).goOn _ rfl
  | otherKey => exact ⟨h.once, h.nobody⟩
  | otherValue => exact ⟨h.once, h.nobody⟩
  | _ => exact h.goOn _ rfl

/-- The C library has refused to create the key. -/
theorem Blocked.of_mem {u : Thread} (h : Keyed p) (hrun : Run (Step owner) p actions q)
    (hmem : .createKey u none ∈ actions) : Blocked q := by
  induction hrun with
  | nil p => cases hmem
  | @cons p m q action rest hstep hrest ih =>
      rcases List.mem_cons.mp hmem with rfl | hmem
      · have hblocked : Blocked m := by
          cases hstep with
          | fails hphase =>
              have hcreates : (p.phase u).creates = true := by
                rw [hphase]
                rfl
              refine ⟨h.creates u hcreates, fun t => ?_⟩
              rw [Process.phase_setPhase]
              split
              · rfl
              · next hne =>
                  by_contra ht
                  exact hne (h.alone t u (eq_true_of_ne_false ht) hcreates)
        exact hrest.invariant (fun _ _ _ h hstep => h.step hstep) hblocked
      · exact ih (h.step hstep) hmem

/-- Then a thread that waits goes on waiting. -/
theorem Blocked.waiting_step (h : Blocked p) (hp : OwnersKept owner p)
    (hstep : Step owner p action q) (hphase : p.phase t = .registering a .waiting freeing) :
    q.phase t = .registering a .waiting freeing := by
  by_cases haction : action.thread = some t
  · have hself : ∀ {u : Thread} {phase : Phase Allocator}, some u = some t → p.phase u = phase →
        phase = .registering a .waiting freeing := fun hu hother => by
      obtain rfl := Option.some.inj hu
      exact hother.symm.trans hphase
    cases hstep with
    | used => exact hphase
    | spins => exact hphase
    | otherKey => exact hphase
    | otherValue => exact hphase
    | leaves _ honce => exact absurd (h.once.symm.trans honce) Once.noConfusion
    | _ hother => cases hself haction hother
  · exact (hp.sameFor_step hstep haction).phase.trans hphase

/-- One step, when `pthread_key_create` does not fail. -/
theorem AtWork.step (h : AtWork p) (hstep : Step owner p action q)
    (hcreated : ∀ t, action ≠ .createKey t none) : AtWork q := by
  have hfree : ∀ {t : Thread} {phase : Phase Allocator}, p.phase t = phase →
      phase.creates = false → (p.phase t).creates = false := fun hphase hfalse => hphase ▸ hfalse
  cases hstep with
  | used => exact h
  | registers hidle =>
      exact AtWork.goOn (p := p.setFlags _ _ _) h (hfree hidle rfl) _
  | @first t =>
      refine fun _ => ⟨t, ?_⟩
      rw [Process.phase_setPhase, if_pos rfl]
      rfl
  | @creates t =>
      refine fun _ => ⟨t, ?_⟩
      rw [Process.phase_setPhase, if_pos rfl]
      rfl
  | @fails t => exact absurd rfl (hcreated t)
  | stores => exact fun honce => Once.noConfusion honce
  | spins => exact h
  | sets hphase =>
      exact AtWork.goOn (p := p.setValue _ _ _) h (hfree hphase rfl) _
  | setsToFree hphase =>
      exact AtWork.goOn (p := (p.setValue _ _ _).setFlags _ _ _) h (hfree hphase rfl) _
  | clears hphase =>
      exact AtWork.goOn (p := p.setValue _ _ _) h (hfree hphase rfl) _
  | frees hphase =>
      exact AtWork.goOn (p := p.setFlags _ _ _) h (hfree hphase rfl) _
  | freesUnused hphase =>
      exact AtWork.goOn (p := p.setFlags _ _ _) h (hfree hphase rfl) _
  | moves hphase =>
      exact AtWork.goOn (p := p.setFlags _ _ _) h (hfree hphase rfl) _
  | exits hidle =>
      exact AtWork.goOn (p := p.setValue _ _ _) h (hfree hidle rfl) _
  | otherKey => exact h
  | otherValue => exact h
  | _ hphase => exact h.goOn (hfree hphase rfl) _

variable (owner) in
/-- The thread that creates the key can finish, and `ONCE` is set. -/
theorem exists_initialized {u : Thread} (hphase : (p.phase u).creates = true) :
    ∃ rest q, Run (Step owner) p rest q ∧ q.once = .initialized ∧
      ∀ t, t ≠ u → q.phase t = p.phase t := by
  have hstores : ∀ {p : Process Thread Allocator} {a freeing},
      p.phase u = .registering a .storing freeing →
      ∃ q, Step owner p (.storeInitialized u) q ∧ q.once = .initialized ∧
        ∀ t, t ≠ u → q.phase t = p.phase t := fun hstoring => by
    refine ⟨_, .stores hstoring, rfl, fun t ht => ?_⟩
    exact (Process.phase_setPhase _ u t _).trans (if_neg ht)
  unfold Phase.creates at hphase
  split at hphase
  · next a freeing heq =>
      obtain ⟨k, hfresh⟩ := Infinite.exists_notMem_finset p.keys.toFinset
      have hstoring : ((p.withKey k).setPhase u (.registering a .storing freeing)).phase u =
          .registering a .storing freeing := (Process.phase_setPhase _ u u _).trans (if_pos rfl)
      obtain ⟨q, hstep, honce, hsame⟩ := hstores hstoring
      refine ⟨_, q, .cons (.creates heq fun hk => hfresh (List.mem_toFinset.mpr hk)) <|
        .cons hstep <| .nil q, honce, fun t ht => ?_⟩
      exact (hsame t ht).trans ((Process.phase_setPhase _ u t _).trans (if_neg ht))
  · next a freeing heq =>
      obtain ⟨q, hstep, honce, hsame⟩ := hstores heq
      exact ⟨_, q, .cons hstep (.nil q), honce, hsame⟩
  · cases hphase

/-- A thread that waits for another one to create the key waits for ever exactly when the C
library has refused to create a key, in whatever thread. -/
theorem waits_forever_iff (hrun : Run (Step owner) (Process.initial keys value) actions p)
    (hphase : p.phase t = .registering a .waiting freeing) :
    (∀ rest q, Run (Step owner) p rest q → q.phase t = .registering a .waiting freeing) ↔
      ∃ u, .createKey u none ∈ actions := by
  have hkeyed := Keyed.run hrun
  constructor
  · intro hforever
    by_contra hcreated
    have hatWork : AtWork p := hrun.invariant_of_mem (I := AtWork)
      (fun _ action _ haction h hstep => h.step hstep fun u heq => hcreated ⟨u, heq ▸ haction⟩)
      Once.noConfusion
    -- the key can be there, and then the thread leaves the loop
    obtain ⟨rest, q, hrest, honce, hsame⟩ : ∃ rest q, Run (Step owner) p rest q ∧
        q.once = .initialized ∧ q.phase t = p.phase t := by
      cases honce : p.once with
      | firstCall => exact absurd honce (hkeyed.waiting t a freeing hphase)
      | initialized => exact ⟨[], p, .nil p, honce, rfl⟩
      | initializing =>
          obtain ⟨u, hu⟩ := hatWork honce
          obtain ⟨rest, q, hrest, hq, hsame⟩ := exists_initialized owner hu
          refine ⟨rest, q, hrest, hq, hsame t ?_⟩
          rintro rfl
          rw [hphase] at hu
          cases hu
    have hq := hsame.trans hphase
    have hleft := hforever _ _ (hrest.append (.cons (.leaves hq honce) (.nil _)))
    rw [Process.phase_setPhase, if_pos rfl] at hleft
    cases hleft
  · rintro ⟨u, hu⟩ rest q hrest
    have hblocked := Blocked.of_mem (Keyed.initial keys value) hrun hu
    have hp : OwnersKept owner p := hrun.invariant (fun _ _ _ h hstep => h.step hstep) .initial
    have hq := hrest.invariant
      (I := fun s => Blocked s ∧ OwnersKept owner s ∧ s.phase t = .registering a .waiting freeing)
      (fun _ _ _ h hstep =>
        ⟨h.1.step hstep, h.2.1.step hstep, h.1.waiting_step h.2.1 hstep h.2.2⟩)
      ⟨hblocked, hp, hphase⟩
    exact hq.2.2

theorem waits_forever_of_failure : ∃ p : Process Bool Bool,
    p.phase true = .panicked "Failed to create pthread key" ∧
      ∀ rest q, Run (Step id) p rest q → q.phase false = .registering false .waiting false := by
  have hrun : ∃ p : Process Bool Bool, Run (Step id) (Process.initial [] fun _ _ => none)
      [.use false false, .use true true, .exchange true, .exchange false, .createKey true none] p ∧
      p.phase true = .panicked "Failed to create pthread key" ∧
      p.phase false = .registering false .waiting false :=
    ⟨_, .cons (.registers rfl rfl rfl) <| .cons (.registers rfl rfl rfl) <|
      .cons (.first rfl rfl) <| .cons (.waits rfl rfl) <| .cons (.fails rfl) <| .nil _, rfl, rfl⟩
  obtain ⟨p, hrun, htrue, hfalse⟩ := hrun
  exact ⟨p, htrue, (waits_forever_iff hrun hfalse).mpr ⟨true, by simp⟩⟩

end Waiting

end Memalart.Registration
