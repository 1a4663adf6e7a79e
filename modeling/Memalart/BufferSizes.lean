/-
# The sizes of a vector's buffers

A vector asks for a buffer of a rounded power of two, remembers how many elements fit
into it, and computes the size from that number again when it gives the buffer back and
when its bytes are counted.  The way back is exact where the bytes that the division
drops do not reach down to the next smaller class: for elements whose size is a power of
two, but not for elements of any size.

The allocator is anything: a call of it is any sequence of operations on the vector.
-/

import Memalart.ReentrantVec
import Memalart.SizeClosure

namespace Memalart.BufferSizes

/-! ## The vector -/

/-- The size of the elements in a buffer. -/
def bytesOf (elemSize cap : Nat) : Nat := cap * elemSize % usizeRange

/-- A `SelfAllocatedVec`, as far as sizes go. -/
structure SizedVec where
  len : Nat
  cap : Nat
  /-- The size that the buffer was allocated with, if there is a buffer. -/
  buffer : Option Nat
  /-- Of every buffer that was given back, the size it was allocated with and the size it
  was deallocated with. -/
  returned : List (Nat × Nat)
deriving DecidableEq

namespace SizedVec

def new : SizedVec := ⟨0, 0, none, []⟩

/-- `bytes_allocated`. -/
def bytesAllocated (elemSize : Nat) (v : SizedVec) : Nat := recommendedSize (bytesOf elemSize v.cap)

/-- `min_cap`, a `u32`. -/
def minCap (v : SizedVec) (additional : Nat) : Nat := (v.len + additional) % u32Range

def install (buffer cap : Nat) (v : SizedVec) : SizedVec :=
  { v with buffer := some buffer, cap := cap }

end SizedVec

/-- What is being evaluated: an operation, one of its parts, or what the allocator does
to the vector during a call. -/
inductive Job
  | calls
  | push (ok : Bool)
  | reserve (additional : Nat) (ok : Bool)
  | reserveSlow (additional minCap : Nat) (ok : Bool)
  | maybeDealloc (buffer : Option Nat) (cap : Nat)
  | clearWith

/-- The runs.  `asked` holds of every capacity that `alloc_with` is called with. -/
inductive Eval (elemSize : Nat) (asked : Nat → Prop) : Job → SizedVec → SizedVec → Prop
  | done (v) : Eval elemSize asked .calls v v
  | callPush {v w u ok} : Eval elemSize asked (.push ok) v w → Eval elemSize asked .calls w u →
      Eval elemSize asked .calls v u
  | callPop {v u} : Eval elemSize asked .calls { v with len := v.len - 1 } u →
      Eval elemSize asked .calls v u
  | callReserve {v w u n ok} : Eval elemSize asked (.reserve n ok) v w →
      Eval elemSize asked .calls w u → Eval elemSize asked .calls v u
  | callClear {v w u} : Eval elemSize asked .clearWith v w → Eval elemSize asked .calls w u →
      Eval elemSize asked .calls v u
  | pushErr {v u} : Eval elemSize asked (.reserve 1 false) v u →
      Eval elemSize asked (.push false) v u
  | pushOk {v u} : Eval elemSize asked (.reserve 1 true) v u →
      Eval elemSize asked (.push true) v { u with len := u.len + 1 }
  | enough {v n} (hcap : v.minCap n ≤ v.cap) : Eval elemSize asked (.reserve n true) v v
  | slow {v u n ok} (hcap : v.cap < v.minCap n) :
      Eval elemSize asked (.reserveSlow n (v.minCap n) ok) v u →
      Eval elemSize asked (.reserve n ok) v u
  /-- The new buffer has become too small; it is given back. -/
  | retryRejected {v b c u n minCap ok} (hasked : asked minCap)
      (halloc : Eval elemSize asked .calls v b) (hsmall : bufferCap elemSize minCap < b.minCap n) :
      Eval elemSize asked
        (.maybeDealloc (some (bufferSize elemSize minCap)) (bufferCap elemSize minCap)) b c →
      Eval elemSize asked (.reserveSlow n (b.minCap n) ok) c u →
      Eval elemSize asked (.reserveSlow n minCap ok) v u
  | retryRefused {v b u n minCap ok} (hasked : asked minCap)
      (halloc : Eval elemSize asked .calls v b) (hsmall : bufferCap elemSize minCap < b.minCap n) :
      Eval elemSize asked (.reserveSlow n (b.minCap n) ok) b u →
      Eval elemSize asked (.reserveSlow n minCap ok) v u
  | refused {v b n minCap} (hasked : asked minCap) (halloc : Eval elemSize asked .calls v b)
      (hfits : b.minCap n ≤ bufferCap elemSize minCap) :
      Eval elemSize asked (.reserveSlow n minCap false) v b
  | installed {v b c n minCap} (hasked : asked minCap) (halloc : Eval elemSize asked .calls v b)
      (hfits : b.minCap n ≤ bufferCap elemSize minCap) :
      Eval elemSize asked (.maybeDealloc b.buffer b.cap)
        (b.install (bufferSize elemSize minCap) (bufferCap elemSize minCap)) c →
      c.minCap n ≤ bufferCap elemSize minCap →
      Eval elemSize asked (.reserveSlow n minCap true) v c
  | retryInstalled {v b c u n minCap ok} (hasked : asked minCap)
      (halloc : Eval elemSize asked .calls v b)
      (hfits : b.minCap n ≤ bufferCap elemSize minCap) :
      Eval elemSize asked (.maybeDealloc b.buffer b.cap)
        (b.install (bufferSize elemSize minCap) (bufferCap elemSize minCap)) c →
      bufferCap elemSize minCap < c.minCap n →
      Eval elemSize asked (.reserveSlow n (c.minCap n) ok) c u →
      Eval elemSize asked (.reserveSlow n minCap ok) v u
  | kept (v buffer) : Eval elemSize asked (.maybeDealloc buffer 0) v v
  | dealloc {v u buffer cap} (hcap : cap ≠ 0) :
      Eval elemSize asked .calls
        { v with returned := (buffer, bytesOf elemSize cap) :: v.returned } u →
      Eval elemSize asked (.maybeDealloc (some buffer) cap) v u
  /-- The elements are passed on first, and then the buffer is given back. -/
  | clear {v w u} : Eval elemSize asked .calls v w →
      Eval elemSize asked (.maybeDealloc w.buffer w.cap) w u →
      Eval elemSize asked .clearWith v ⟨0, 0, none, u.returned⟩

/-! ## Sizes that come back -/

/-- The real size of the class that a buffer of this size is allocated from. -/
def classSize (size : Nat) : Nat :=
  match slotForSize size with
  | some s => s.realSize
  | none => size

/-- The two sizes name one class and one vector. -/
def SameClass (size size' : Nat) : Prop :=
  SizeClass.define size = SizeClass.define size' ∧ slotForSize size = slotForSize size'

/-- What is known of a capacity for a buffer of this size. -/
structure Tells (elemSize cap size : Nat) : Prop where
  sameClass : cap ≠ 0 → SameClass size (bytesOf elemSize cap)
  bytes : recommendedSize (bytesOf elemSize cap) = classSize size
  fits : cap * elemSize ≤ classSize size

/-- Every buffer has been given back with the class it was allocated with, and the bytes
of the current buffer are those of its class. -/
structure Consistent (elemSize : Nat) (v : SizedVec) : Prop where
  returned : ∀ e ∈ v.returned, SameClass e.1 e.2
  current : match v.buffer with
    | some size => v.bytesAllocated elemSize = classSize size ∧
        v.cap * elemSize ≤ v.bytesAllocated elemSize
    | none => v.cap = 0 ∧ v.bytesAllocated elemSize = 0

/-- No class lies between the elements of a buffer for this capacity and its size. -/
def Snug (elemSize minCap : Nat) : Prop :=
  ∀ real, sizeClosure.IsClosed real → real < bufferSize elemSize minCap →
    real < bufferCap elemSize minCap * elemSize

section Sizes

variable {elemSize minCap : Nat}

theorem isClosed_bufferSize (elemSize minCap : Nat) :
    sizeClosure.IsClosed (bufferSize elemSize minCap) :=
  sizeClosure.isClosed_closure _

theorem bufferCap_mul_le (elemSize minCap : Nat) :
    bufferCap elemSize minCap * elemSize ≤ bufferSize elemSize minCap :=
  (Nat.mul_le_mul_right _ (Nat.mod_le _ _)).trans (Nat.div_mul_le_self _ _)

theorem bufferSize_lt (elemSize minCap : Nat) : bufferSize elemSize minCap < usizeRange := by
  unfold bufferSize
  generalize minCap * elemSize % usizeRange = bytes
  have hlt : nextPowerOfTwoUsize bytes < usizeRange := Nat.mod_lt _ (by decide)
  by_cases hlarge : nextPowerOfTwoUsize bytes ≤ largeSizeMax
  · have hbound : sizeClosure.IsClosed (largeSizeMax + 1) := .inr (.inr (Nat.lt_succ_self _))
    refine (ClosureOperator.closure_min (hlarge.trans (Nat.le_succ _)) hbound).trans_lt ?_
    decide +kernel
  · have hround : recommendedSize (nextPowerOfTwoUsize bytes) = nextPowerOfTwoUsize bytes :=
      sizeClosure.isClosed_iff.mp (.inr (.inr (Nat.not_le.mp hlarge)))
    rw [hround]
    exact hlt

theorem bytesOf_bufferCap (elemSize minCap : Nat) :
    bytesOf elemSize (bufferCap elemSize minCap) = bufferCap elemSize minCap * elemSize :=
  Nat.mod_eq_of_lt ((bufferCap_mul_le _ _).trans_lt (bufferSize_lt _ _))

/-- The size comes back exactly where the buffer is snug. -/
theorem recommendedSize_bytesOf :
    recommendedSize (bytesOf elemSize (bufferCap elemSize minCap)) = bufferSize elemSize minCap ↔
      Snug elemSize minCap := by
  rw [bytesOf_bufferCap]
  refine (closure_eq_iff sizeClosure (isClosed_bufferSize elemSize minCap)).trans ?_
  exact ⟨fun h => h.2, fun h => ⟨bufferCap_mul_le _ _, h⟩⟩

/-- The sizes of a power of two leave nothing over. -/
theorem snug_of_dvd (hdvd : elemSize ∣ bufferSize elemSize minCap)
    (hcap : bufferSize elemSize minCap / elemSize < u32Range) : Snug elemSize minCap := by
  intro real _ hlt
  rwa [bufferCap, Nat.mod_eq_of_lt hcap, Nat.div_mul_cancel hdvd]

theorem classSize_of_isClosed {size : Nat} (h : sizeClosure.IsClosed size) :
    classSize size = size := by
  unfold classSize
  cases hslot : slotForSize size with
  | none => rfl
  | some s =>
      have hreal : s.realSize = recommendedSize size := (slotForSize_eq_some hslot).2.2
      exact hreal.trans (sizeClosure.isClosed_iff.mp h)

/-- A snug buffer is told by its capacity. -/
theorem Snug.tells (helem : elemSize ≠ 0) (h : Snug elemSize minCap) :
    Tells elemSize (bufferCap elemSize minCap) (bufferSize elemSize minCap) := by
  have hback := recommendedSize_bytesOf.mpr h
  have hclass := classSize_of_isClosed (isClosed_bufferSize elemSize minCap)
  refine ⟨fun hcap => ?_, hback.trans hclass.symm, ?_⟩
  · have hpos : 1 ≤ bytesOf elemSize (bufferCap elemSize minCap) := by
      rw [bytesOf_bufferCap]
      exact Nat.mul_pos (Nat.pos_of_ne_zero hcap) (Nat.pos_of_ne_zero helem)
    obtain ⟨hdefine, hslot⟩ := slotForSize_recommendedSize _ hpos
    rw [hback] at hdefine hslot
    exact ⟨hdefine, hslot⟩
  · rw [hclass]
    exact bufferCap_mul_le _ _

end Sizes

/-! ## Runs -/

/-- What a buffer and a capacity must be when they are given back. -/
def Job.Ready (elemSize : Nat) : Job → Prop
  | .maybeDealloc buffer cap => cap ≠ 0 → ∃ size, buffer = some size ∧ Tells elemSize cap size
  | _ => True

/-- What every operation keeps: the buffers given back are right, and the capacity tells
the size of the current one. -/
structure Kept (elemSize : Nat) (v : SizedVec) : Prop where
  returned : ∀ e ∈ v.returned, SameClass e.1 e.2
  none : v.buffer = none → v.cap = 0
  some : ∀ size, v.buffer = some size → Tells elemSize v.cap size

namespace Kept

variable {elemSize : Nat} {v : SizedVec}

theorem new : Kept elemSize .new := ⟨nofun, fun _ => rfl, nofun⟩

theorem install (h : Kept elemSize v) {buffer cap : Nat} (hnew : Tells elemSize cap buffer) :
    Kept elemSize (v.install buffer cap) := by
  refine ⟨h.returned, nofun, fun size hsize => ?_⟩
  obtain rfl := Option.some.inj hsize
  exact hnew

/-- The current buffer may be given back. -/
theorem ready (h : Kept elemSize v) : (Job.maybeDealloc v.buffer v.cap).Ready elemSize := by
  intro hcap
  cases hbuffer : v.buffer with
  | none => exact absurd (h.none hbuffer) hcap
  | some size => exact ⟨size, rfl, h.some size hbuffer⟩

theorem dealloc (h : Kept elemSize v) {buffer cap : Nat} (hcap : cap ≠ 0)
    (htells : Tells elemSize cap buffer) :
    Kept elemSize { v with returned := (buffer, bytesOf elemSize cap) :: v.returned } := by
  refine ⟨fun e he => ?_, h.none, h.some⟩
  rcases List.mem_cons.mp he with rfl | he
  · exact htells.sameClass hcap
  · exact h.returned e he

theorem consistent (h : Kept elemSize v) : Consistent elemSize v := by
  refine ⟨h.returned, ?_⟩
  cases hbuffer : v.buffer with
  | none =>
      have hcap := h.none hbuffer
      refine ⟨hcap, ?_⟩
      rw [SizedVec.bytesAllocated, hcap, bytesOf, zero_mul]
      rfl
  | some size =>
      have htells := h.some size hbuffer
      exact ⟨htells.bytes, htells.fits.trans_eq htells.bytes.symm⟩

end Kept

/-- Every operation whose buffers are snug keeps the sizes. -/
theorem Eval.keeps {elemSize : Nat} (helem : elemSize ≠ 0) {job : Job} {v u : SizedVec}
    (h : Eval elemSize (Snug elemSize) job v u) (hready : job.Ready elemSize)
    (hv : Kept elemSize v) : Kept elemSize u := by
  induction h with
  | done v => exact hv
  | callPush _ _ ihPush ihCalls => exact ihCalls trivial (ihPush trivial hv)
  | callPop _ ih => exact ih trivial ⟨hv.returned, hv.none, hv.some⟩
  | callReserve _ _ ihReserve ihCalls => exact ihCalls trivial (ihReserve trivial hv)
  | callClear _ _ ihClear ihCalls => exact ihCalls trivial (ihClear trivial hv)
  | pushErr _ ih => exact ih trivial hv
  | pushOk _ ih =>
      have hu := ih trivial hv
      exact ⟨hu.returned, hu.none, hu.some⟩
  | enough _ => exact hv
  | slow _ _ ih => exact ih trivial hv
  | retryRejected hasked _ _ _ _ ihCalls ihDealloc ihSlow =>
      have htells := hasked.tells helem
      exact ihSlow trivial (ihDealloc (fun _ => ⟨_, rfl, htells⟩) (ihCalls trivial hv))
  | retryRefused _ _ _ _ ihCalls ihSlow => exact ihSlow trivial (ihCalls trivial hv)
  | refused _ _ _ ihCalls => exact ihCalls trivial hv
  | installed hasked _ _ _ _ ihCalls ihDealloc =>
      have hb := ihCalls trivial hv
      exact ihDealloc hb.ready (hb.install (hasked.tells helem))
  | retryInstalled hasked _ _ _ _ _ ihCalls ihDealloc ihSlow =>
      have hb := ihCalls trivial hv
      exact ihSlow trivial (ihDealloc hb.ready (hb.install (hasked.tells helem)))
  | kept v buffer => exact hv
  | dealloc hcap _ ih =>
      obtain ⟨size, hsize, htells⟩ := hready hcap
      obtain rfl := Option.some.inj hsize
      exact ih trivial (hv.dealloc hcap htells)
  | clear _ _ ihCalls ihDealloc =>
      have hw := ihCalls trivial hv
      have hu := ihDealloc hw.ready hw
      exact ⟨hu.returned, fun _ => rfl, nofun⟩

/-- In every run whose buffers are all snug, each buffer goes back to the class that it
came from, and the bytes that are counted are those of the current buffer. -/
theorem consistent_of_run {elemSize : Nat} (helem : elemSize ≠ 0) {v : SizedVec}
    (h : Eval elemSize (Snug elemSize) .calls .new v) : Consistent elemSize v :=
  (h.keeps helem trivial .new).consistent

/-- A push on an empty vector, and `clear_with`. -/
theorem eval_pushClear {elemSize : Nat} {asked : Nat → Prop} (hasked : asked 1)
    (hcap : 1 ≤ bufferCap elemSize 1) :
    Eval elemSize asked .calls .new
      ⟨0, 0, none, [(bufferSize elemSize 1, bytesOf elemSize (bufferCap elemSize 1))]⟩ := by
  have hgrow : Eval elemSize asked (.reserveSlow 1 1 true) .new
      (SizedVec.new.install (bufferSize elemSize 1) (bufferCap elemSize 1)) :=
    .installed hasked (.done .new) hcap (.kept _ none) hcap
  let pushed : SizedVec :=
    { SizedVec.new.install (bufferSize elemSize 1) (bufferCap elemSize 1) with len := 1 }
  have hpush : Eval elemSize asked (.push true) .new pushed :=
    .pushOk (.slow (v := .new) (by decide) hgrow)
  have hdealloc : Eval elemSize asked (.maybeDealloc pushed.buffer pushed.cap) pushed
      { pushed with
        returned := [(bufferSize elemSize 1, bytesOf elemSize (bufferCap elemSize 1))] } :=
    .dealloc (Nat.ne_of_gt hcap) (.done _)
  exact .callPush hpush (.callClear (.clear (.done pushed) hdealloc) (.done _))

/-- A vector of pointers gives its buffer back as it was. -/
theorem consistent_pointers : Consistent 8 ⟨0, 0, none, [(8, 8)]⟩ :=
  consistent_of_run (by decide) (eval_pushClear (snug_of_dvd (by decide +kernel) (by decide +kernel))
    (by decide +kernel))

/-- A vector of elements of 24 bytes gives a buffer of 32 bytes back to the class of 24. -/
theorem inconsistent_triples : ¬ ∀ (elemSize : Nat) (v : SizedVec), elemSize ≠ 0 →
    Eval elemSize (fun _ => True) .calls .new v → Consistent elemSize v := by
  intro hclaim
  have hrun := hclaim 24 _ (by decide) (eval_pushClear trivial (by decide +kernel))
  have hsame := (hrun.returned _ (List.mem_singleton_self _)).2
  exact absurd hsame (by decide +kernel)

/-! ## The vector with its elements

A run of the vector with elements is a run of the vector of sizes, as long as no sum of a length
and an additional capacity wraps. -/

section Elements

open Reentrant

variable {α : Type} {elemSize : Nat} {asked : Nat → Prop} {v u : RawVec α} {s : SizedVec}

/-- Both have the same length and capacity, and the size of a buffer is known. -/
structure Tracks (v : RawVec α) (s : SizedVec) : Prop where
  len : s.len = v.len
  cap : s.cap = v.cap
  buffer : v.cap ≠ 0 → ∃ size, s.buffer = some size

theorem Tracks.minCap_eq (h : Tracks v s) {n : Nat} (hsum : v.len + n < u32Range) :
    s.minCap n = v.len + n := by
  rw [SizedVec.minCap, h.len, Nat.mod_eq_of_lt hsum]

/-- A new buffer is installed. -/
theorem Tracks.install (h : Tracks v s) (ptr size cap : Nat) :
    Tracks ((v.answered (some ptr)).install ptr cap) (s.install size cap) :=
  ⟨h.len, rfl, fun _ => ⟨size, rfl⟩⟩

/-- A job without the elements and addresses it is about. -/
inductive JobTracks : Reentrant.Job α → Job → Prop
  | calls : JobTracks .calls .calls
  | push (x : α) (ok : Bool) : JobTracks (.push x ok) (.push ok)
  | reserve (n : Nat) (ok : Bool) : JobTracks (.reserve n ok) (.reserve n ok)
  | reserveSlow (n minCap : Nat) (ok : Bool) :
      JobTracks (.reserveSlow n minCap ok) (.reserveSlow n minCap ok)
  | maybeDealloc {ptr cap : Nat} {buffer : Option Nat}
      (hbuffer : cap ≠ 0 → ∃ size, buffer = some size) :
      JobTracks (.maybeDealloc ptr cap) (.maybeDealloc buffer cap)

theorem exists_sized {job : Reentrant.Job α} (h : Reentrant.Eval elemSize asked job v u) :
    ∀ {s : SizedVec} {sized : Job}, Tracks v s → JobTracks job sized →
      ∃ t, Tracks u t ∧ Eval elemSize asked sized s t := by
  induction h with
  | done v =>
      rintro s _ hs ⟨⟩
      exact ⟨s, hs, .done s⟩
  | callPush _ _ ihPush ihCalls =>
      rintro s _ hs ⟨⟩
      obtain ⟨w, hw, hpush⟩ := ihPush hs (.push _ _)
      obtain ⟨t, ht, hcalls⟩ := ihCalls hw .calls
      exact ⟨t, ht, .callPush hpush hcalls⟩
  | @callPop v u _ ih =>
      rintro s _ hs ⟨⟩
      have hpop : Tracks v.pop { s with len := s.len - 1 } := by
        unfold RawVec.pop
        split
        · next hlen => exact ⟨by simp only [hs.len, hlen], hs.cap, hs.buffer⟩
        · exact ⟨congrArg (· - 1) hs.len, hs.cap, hs.buffer⟩
      obtain ⟨t, ht, hcalls⟩ := ih hpop .calls
      exact ⟨t, ht, .callPop hcalls⟩
  | callReserve _ _ ihReserve ihCalls =>
      rintro s _ hs ⟨⟩
      obtain ⟨w, hw, hreserve⟩ := ihReserve hs (.reserve _ _)
      obtain ⟨t, ht, hcalls⟩ := ihCalls hw .calls
      exact ⟨t, ht, .callReserve hreserve hcalls⟩
  | scribble memory _ _ ih =>
      rintro s _ hs ⟨⟩
      exact ih ⟨hs.len, hs.cap, hs.buffer⟩ .calls
  | pushErr x _ ih =>
      rintro s _ hs ⟨⟩
      obtain ⟨t, ht, hreserve⟩ := ih hs (.reserve _ _)
      exact ⟨t, ht, .pushErr hreserve⟩
  | pushOk x _ ih =>
      rintro s _ hs ⟨⟩
      obtain ⟨t, ht, hreserve⟩ := ih hs (.reserve _ _)
      exact ⟨{ t with len := t.len + 1 }, ⟨congrArg (· + 1) ht.len, ht.cap, ht.buffer⟩,
        .pushOk hreserve⟩
  | enough hsum hcap =>
      rintro s _ hs ⟨⟩
      exact ⟨s, hs, .enough (by rwa [hs.minCap_eq hsum, hs.cap])⟩
  | slow hsum hcap _ ih =>
      rintro s _ hs ⟨⟩
      obtain ⟨t, ht, hslow⟩ := ih hs (.reserveSlow _ _ _)
      refine ⟨t, ht, .slow (by rwa [hs.minCap_eq hsum, hs.cap]) ?_⟩
      rwa [hs.minCap_eq hsum]
  | retryRejected ptr hasked _ hsum hsmall _ _ ihCalls ihDealloc ihSlow =>
      rintro s _ hs ⟨⟩
      obtain ⟨b, hb, hcalls⟩ := ihCalls hs .calls
      obtain ⟨c, hc, hdealloc⟩ := ihDealloc ⟨hb.len, hb.cap, hb.buffer⟩ (.maybeDealloc fun _ => ⟨_, rfl⟩)
      obtain ⟨t, ht, hslow⟩ := ihSlow hc (.reserveSlow _ _ _)
      refine ⟨t, ht, .retryRejected hasked hcalls (by rwa [hb.minCap_eq hsum]) hdealloc ?_⟩
      rwa [hb.minCap_eq hsum]
  | retryRefused hasked _ hsum hsmall _ ihCalls ihSlow =>
      rintro s _ hs ⟨⟩
      obtain ⟨b, hb, hcalls⟩ := ihCalls hs .calls
      obtain ⟨t, ht, hslow⟩ := ihSlow ⟨hb.len, hb.cap, hb.buffer⟩ (.reserveSlow _ _ _)
      refine ⟨t, ht, .retryRefused hasked hcalls (by rwa [hb.minCap_eq hsum]) ?_⟩
      rwa [hb.minCap_eq hsum]
  | refused hasked _ hsum hfits ihCalls =>
      rintro s _ hs ⟨⟩
      obtain ⟨b, hb, hcalls⟩ := ihCalls hs .calls
      exact ⟨b, ⟨hb.len, hb.cap, hb.buffer⟩, .refused hasked hcalls (by rwa [hb.minCap_eq hsum])⟩
  | installed ptr hasked _ hsum hfits _ _ hsum' hroom ihCalls ihDealloc =>
      rintro s _ hs ⟨⟩
      obtain ⟨b, hb, hcalls⟩ := ihCalls hs .calls
      obtain ⟨c, hc, hdealloc⟩ := ihDealloc (hb.install ptr _ _) (.maybeDealloc hb.buffer)
      rw [← hb.cap] at hdealloc
      refine ⟨c, hc, .installed hasked hcalls (by rwa [hb.minCap_eq hsum]) hdealloc ?_⟩
      rwa [hc.minCap_eq hsum']
  | retryInstalled ptr hasked _ hsum hfits _ _ hsum' hsmall _ ihCalls ihDealloc ihSlow =>
      rintro s _ hs ⟨⟩
      obtain ⟨b, hb, hcalls⟩ := ihCalls hs .calls
      obtain ⟨c, hc, hdealloc⟩ := ihDealloc (hb.install ptr _ _) (.maybeDealloc hb.buffer)
      rw [← hb.cap] at hdealloc
      obtain ⟨t, ht, hslow⟩ := ihSlow hc (.reserveSlow _ _ _)
      refine ⟨t, ht, .retryInstalled hasked hcalls (by rwa [hb.minCap_eq hsum]) hdealloc
        (by rwa [hc.minCap_eq hsum']) ?_⟩
      rwa [hc.minCap_eq hsum']
  | kept v ptr =>
      rintro s _ hs (_ | _ | _ | _ | _)
      exact ⟨s, hs, .kept s _⟩
  | @dealloc _ _ _ cap hcap _ ih =>
      rintro s _ hs (_ | _ | _ | _ | hbuffer)
      obtain ⟨size, rfl⟩ := hbuffer hcap
      obtain ⟨t, ht, hcalls⟩ := ih
        (s := { s with returned := (size, bytesOf elemSize cap) :: s.returned })
        ⟨hs.len, hs.cap, hs.buffer⟩ .calls
      exact ⟨t, ⟨ht.len, ht.cap, ht.buffer⟩, .dealloc hcap hcalls⟩

/-- The capacity of a vector with elements always tells the size of its buffer. -/
theorem exists_consistent (helem : elemSize ≠ 0)
    (h : Reentrant.Eval elemSize (Snug elemSize) .calls v u) (hv : v.len = 0 ∧ v.cap = 0) :
    ∃ t, Tracks u t ∧ Consistent elemSize t := by
  obtain ⟨t, ht, hrun⟩ := exists_sized h (s := .new)
    ⟨hv.1.symm, hv.2.symm, fun hcap => absurd hv.2 hcap⟩ .calls
  exact ⟨t, ht, consistent_of_run helem hrun⟩

end Elements

end Memalart.BufferSizes
