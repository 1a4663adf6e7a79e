/-
# All ledgers together

What every exchange keeps, every number of moves keeps, and permissions to give a
chunk back do not matter for it.  The books of an allocator are its ledgers, each
under the events that it needs not to have happened.
-/

import Memalart.CoverLedger
import Memalart.MetadataLedger

namespace Memalart

/-- A property of estates that exchanges keep, and that more permissions do not
disturb. -/
structure Ledger (J : Os → Option Nat → Multiset Item → Prop) : Prop where
  exchange : ∀ {os m gone new os' m'} rest, Exchange os m gone new os' m' →
    J os m (gone + rest) → J os' m' (new + rest)
  grant : ∀ {os m items}, J os m items → J os m ({.permit} + items)

namespace Ledger

variable {J K : Os → Option Nat → Multiset Item → Prop}

/-- From a state to all that moves lead to, when a permission may be used up. -/
theorem moves {os os' : Os} {m m' : Option Nat} {items items' : Multiset Item} (hJ : Ledger J)
    (h : Moves ⟨os, m, {.permit} + items⟩ ⟨os', m', items'⟩) (hold : J os m items) :
    J os' m' items' :=
  h.invariant (J := J) hJ.exchange (hJ.grant hold)

end Ledger

/-- The books of an allocator. -/
structure Books (os : Os) (m : Option Nat) (items : Multiset Item) : Prop where
  tidy : Tidy os items
  placed : Placed items
  exact : os.NoStateStored → Exact os items
  written : os.NoLargeChunkCut → os.NoChunkLeftUncut → Written os m items
  covered : os.NoChunkGivenBack → os.NoChunkAbandoned → Covered items

theorem Tidy.grant {os : Os} {items : Multiset Item} (h : Tidy os items) :
    Tidy os ({.permit} + items) := by
  rw [← zero_add items] at h
  refine h.chunks (by simp [Item.units]) (fun i hi hne => ?_) (by simp) (by simp [Item.regions])
    (by simp [Item.mapping]) (by simp) (by simp)
  cases Multiset.mem_singleton.mp hi
  exact absurd rfl hne

/-- The books stay in order. -/
theorem ledger_books : Ledger Books where
  exchange rest hexchange hbooks :=
    have hlog := hexchange.log_suffix
    { tidy := tidy_exchange rest hexchange hbooks.tidy
      placed := placed_exchange rest hexchange hbooks.placed
      exact := fun hstored => exact_exchange rest hexchange hstored (hbooks.exact (hstored.mono hlog))
      written := fun hcut hleft => written_exchange rest hexchange hcut hleft hbooks.tidy
        (hbooks.written (hcut.mono hlog) (hleft.mono hlog))
      covered := fun hback habandoned => covered_exchange rest hexchange hback habandoned
        (hbooks.covered (hback.mono hlog) (habandoned.mono hlog)) }
  grant {os m items} hbooks := by
    have hzero : (0 + items : Multiset Item) = items := zero_add items
    refine ⟨hbooks.tidy.grant, ?_, fun hstored => ?_, fun hcut hleft => ?_, fun hback habandoned => ?_⟩
    · have hplaced := hbooks.placed
      rw [← hzero] at hplaced
      exact hplaced.inert (by simp) (by simp [Item.isCut, Item.isObject])
    · have hexact := hbooks.exact hstored
      rw [← hzero] at hexact
      exact hexact.inert List.suffix_rfl (by simp) (by simp [Item.isCut, Item.isObject])
    · have hwritten := hbooks.written hcut hleft
      rw [← hzero] at hwritten
      exact hwritten.keep rfl (by simp) (by simp)
    · have hcovered := hbooks.covered hback habandoned
      rw [← hzero] at hcovered
      exact hcovered.keep (by simp) fun r hr => absurd hr (by simp [Parsed])

/-- Nobody has anything yet. -/
theorem books_zero {os : Os} {m : Option Nat} : Books os m 0 where
  tidy := ⟨by simp, by simp, by simp, by simp, mappingsOf_zero ▸ Multiset.zero_le _, by simp, by simp⟩
  placed := ⟨by simp, by simp⟩
  exact _ := ⟨⟨0, by simp, by simp⟩, by simp⟩
  written _ _ := by simp [Written]
  covered _ _ := by simp [Covered, Parsed]

end Memalart
