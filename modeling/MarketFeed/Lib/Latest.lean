import Mathlib.Data.Nat.Notation
import MarketFeed.Lib.Run
/-!
# The latest request of a party

Parties come and go under ids that are given out once. What a request sets, a party keeps until its next
request: at the end of a run it is what the last of its requests set, or what it began with.
-/

namespace Lts

variable {σ α S β : Type}

/-- How a step may change a party: it is born under the next id, leaves, or has what it asked for, if it asked. -/
structure Parties (step : σ → α → Option σ) (subs : σ → ℕ → Option S) (next : σ → ℕ) (asked : ℕ → α → Option β)
    (val : S → β) (init : β) :
    Prop where
  next_le {g g' : σ} {l : α} : step g l = some g' → next g ≤ next g'
  born {g g' : σ} {l : α} {id : ℕ} {s : S} : step g l = some g' → subs g id = none → subs g' id = some s →
    id = next g ∧ id < next g' ∧ val s = init
  absent {g g' : σ} {l : α} {id : ℕ} : step g l = some g' → subs g id = none → asked id l = none
  kept {g g' : σ} {l : α} {id : ℕ} {s s' : S} : step g l = some g' → id < next g → subs g id = some s →
    subs g' id = some s' →
    val s' = (asked id l).getD (val s)

variable {step : σ → α → Option σ} {ok : σ → α → Prop} {subs : σ → ℕ → Option S} {next : σ → ℕ} {asked : ℕ → α →
  Option β} {val : S → β} {init : β}

/-- Who has left does not come back. -/
theorem Parties.gone (p : Parties step subs next asked val init)
    {g g' : σ} {labels : List α} {id : ℕ} (h : Run step ok g labels g')
    (hnone : subs g id = none) (hid : id < next g) : subs g' id = none := by
  refine (h.invariant (I := fun g => subs g id = none ∧ id < next g) ⟨hnone, hid⟩ ?_).1
  intro g l g' ⟨hnone, hid⟩ _ hst
  refine ⟨?_, Nat.lt_of_lt_of_le hid (p.next_le hst)⟩
  cases hs : subs g' id with
  | none => rfl
  | some s =>
    have := (p.born hst hnone hs).1
    omega

/-- From a state in which every id in use was given out. -/
theorem Parties.latest (p : Parties step subs next asked val init) {g g' : σ} {labels : List α} {id : ℕ} {s' : S}
    (h : Run step ok g labels g')
    (hfresh : ∀ s, subs g id = some s → id < next g) (hs' : subs g' id = some s') :
    val s' = (labels.filterMap (asked id)).getLast?.getD (((subs g id).map val).getD init) := by
  induction h with
  | nil g => rw [hs']; rfl
  | @cons g g1 t l labels _ hst hrun ih =>
    have hfresh1 : ∀ s, subs g1 id = some s → id < next g1 := by
      intro s hs
      cases hg : subs g id with
      | none => exact (p.born hst hg hs).2.1
      | some s0 => exact Nat.lt_of_lt_of_le (hfresh s0 hg) (p.next_le hst)
    have ih := ih hfresh1 hs'
    cases hg : subs g id with
    | none =>
      have hasked := p.absent hst hg
      rw [List.filterMap_cons_none hasked, ih]
      cases hg1 : subs g1 id with
      | none => rfl
      | some s1 =>
        rw [Option.map_some, Option.getD_some, (p.born hst hg hg1).2.2]
        rfl
    | some s =>
      cases hg1 : subs g1 id with
      | none =>
        -- gone, and it would have to come back
        have := p.gone hrun hg1 (Nat.lt_of_lt_of_le (hfresh s hg) (p.next_le hst))
        rw [hs'] at this
        cases this
      | some s1 =>
        have hkept := p.kept hst (hfresh s hg) hg hg1
        rw [hg1, Option.map_some, Option.getD_some, hkept] at ih
        cases hasked : asked id l with
        | none =>
          rw [hasked, Option.getD_none] at ih
          rw [List.filterMap_cons_none hasked, ih]
          rfl
        | some b =>
          rw [hasked, Option.getD_some] at ih
          rw [List.filterMap_cons_some hasked, List.getLast?_cons, ih]
          rfl

end Lts
