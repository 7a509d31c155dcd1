import Mathlib.Data.Sign.Defs
import Mathlib.Algebra.Order.Field.Basic
import MarketFeed.Strategy.Indicators
/-!
# Crossings (indicators.py:267-296)

`Crossover` keeps on which side the first value was when the two last differed. `side` is the sign of their
difference, 0 for a tie; of two values that cannot be compared it says what the code takes them for, the first below
the second.
-/

namespace Strategy

open PyFloat

section

variable {F : Type} [PyFloat F]

/-- The sign of `a - b`. -/
def side (a b : F) : SignType := if eq a b then 0 else if lt b a then 1 else -1

/-- The outputs of `update` on one pair after the other. -/
def outputs (prev : Option Bool) : List (F × F) → List Action
  | [] => []
  | p :: pairs => (crossover prev p.1 p.2).2 :: outputs (crossover prev p.1 p.2).1 pairs

def Action.sign : Action → SignType
  | .hold => 0
  | .buy => 1
  | .sell => -1

/-- The side that `_prev` stands for. -/
def kept : Option Bool → SignType
  | none => 0
  | some true => 1
  | some false => -1

/-- The side of the last pair that was no tie, 0 if there was none. -/
def lastSide (pairs : List (F × F)) : SignType := ((pairs.map fun p => side p.1 p.2).filter (· ≠ 0)).getLastD 0

theorem kept_crossover (prev : Option Bool) (a b : F) :
    kept (crossover prev a b).1 = if side a b = 0 then kept prev else side a b := by
  unfold crossover side
  cases eq a b
  · cases lt b a <;> rfl
  · rfl

theorem sign_crossover (prev : Option Bool) (a b : F) :
    (crossover prev a b).2.sign = if side a b ≠ 0 ∧ kept prev ≠ 0 ∧ side a b ≠ kept prev then side a b else 0 := by
  unfold crossover side
  cases eq a b
  · rcases prev with _ | _ | _ <;> cases lt b a <;> rfl
  · rfl

/-- A tie is passed over. -/
theorem lastSide_concat (pairs : List (F × F)) (p : F × F) :
    lastSide (pairs ++ [p]) = if side p.1 p.2 = 0 then lastSide pairs else side p.1 p.2 := by
  unfold lastSide
  rw [List.map_append, List.filter_append]
  split
  · rename_i hs
    simp [hs]
  · rename_i hs
    simp [hs]

/-- What `_prev` stands for is the side of the last pair that was no tie. -/
theorem kept_foldl (pairs : List (F × F)) :
    kept (pairs.foldl (fun prev p => (crossover prev p.1 p.2).1) none) = lastSide pairs := by
  induction pairs using List.reverseRecOn with
  | nil => rfl
  | append_singleton pairs p ih => rw [List.foldl_append, List.foldl_cons, List.foldl_nil, kept_crossover, ih,
      lastSide_concat]

theorem outputs_append (prev : Option Bool) (before : List (F × F)) (p : F × F) (after : List (F × F)) :
    (outputs prev (before ++ p :: after))[before.length]? =
      some (crossover (before.foldl (fun prev p => (crossover prev p.1 p.2).1) prev) p.1 p.2).2 := by
  induction before generalizing prev with
  | nil => rfl
  | cons q before ih =>
    rw [List.cons_append, outputs, List.length_cons, List.getElem?_cons_succ, ih, List.foldl_cons]

/-- The signals, by sign. -/
def signals (actions : List Action) : List SignType := (actions.map Action.sign).filter (· ≠ 0)

theorem signals_cons (action : Action) (actions : List Action) :
    signals (action :: actions) = if action.sign = 0 then signals actions else action.sign :: signals actions := by
  unfold signals
  rw [List.map_cons, List.filter_cons]
  simp only [ne_eq, decide_not, Bool.not_eq_true', decide_eq_false_iff_not, ite_not]

/-- From a side on, the next signal is the other one. -/
theorem signals_alternate_from (prev : Bool) (pairs : List (F × F)) :
    (kept (some prev) :: signals (outputs (some prev) pairs)).IsChain fun s t => t = -s := by
  induction pairs generalizing prev with
  | nil => exact .singleton _
  | cons p pairs ih =>
    rw [outputs, signals_cons]
    have hsame := ih prev
    have hother := ih !prev
    unfold crossover
    cases eq p.1 p.2 with
    | true => exact hsame
    | false =>
      by_cases hcur : prev = lt p.2 p.1
      · subst hcur
        simpa [Action.sign] using hsame
      · have hflip : lt p.2 p.1 = !prev := by
          revert hcur
          cases prev <;> cases lt p.2 p.1 <;> decide
        rw [hflip]
        cases prev with
        | true => exact .cons_cons rfl hother
        | false => exact .cons_cons rfl hother

theorem signals_alternate (pairs : List (F × F)) : (signals (outputs none pairs)).IsChain fun s t => t = -s := by
  induction pairs with
  | nil => exact .nil
  | cons p pairs ih =>
    rw [outputs, signals_cons]
    unfold crossover
    cases eq p.1 p.2 with
    | true => exact ih
    | false => exact List.isChain_of_isChain_cons (signals_alternate_from (lt p.2 p.1) pairs)

theorem ne_hold_iff (action : Action) : action ≠ .hold ↔ action.sign ≠ 0 := by
  cases action <;> decide

/-- The output at a pair, by the sides before it. -/
theorem sign_output (before : List (F × F)) (p : F × F) (after : List (F × F)) :
    ∃ output, (outputs none (before ++ p :: after))[before.length]? = some output ∧
      output.sign = if side p.1 p.2 ≠ 0 ∧ lastSide before ≠ 0 ∧ side p.1 p.2 ≠ lastSide before then side p.1 p.2
        else 0 := by
  refine ⟨_, outputs_append none before p after, ?_⟩
  rw [sign_crossover, kept_foldl]

end

theorem side_eq_sign {K : Type} [Ring K] [LinearOrder K] [IsStrictOrderedRing K] [PyFloat K]
    (heq : ∀ a b : K, eq a b = decide (a = b))
    (hlt : ∀ a b : K, lt a b = decide (a < b)) (a b : K) : side a b = SignType.sign (a - b) := by
  unfold side
  rw [heq, hlt]
  rcases lt_trichotomy a b with h | h | h
  · simp [h.ne, h.not_gt, sign_neg (sub_neg.2 h)]
  · simp [h]
  · simp [h.ne', h, sign_pos (sub_pos.2 h)]

/-- **Crossings.** The signals alternate; an output is the side of its pair where that is the other side than at the
last pair that was no tie, and no signal otherwise; and on numbers the side is the sign of the difference. -/
theorem crossings_detected :
    (∀ (F : Type) [PyFloat F] (pairs : List (F × F)),
      ((signals (outputs none pairs)).IsChain fun s t => t = -s) ∧
      ∀ before p after, pairs = before ++ p :: after → ∃ output, (outputs none pairs)[before.length]? = some output ∧
        (output ≠ .hold ↔ side p.1 p.2 ≠ 0 ∧ lastSide before ≠ 0 ∧ side p.1 p.2 ≠ lastSide before) ∧
        (output ≠ .hold → output.sign = side p.1 p.2) ∧
        (side p.1 p.2 = 0 → output = .hold ∧ lastSide (before ++ [p]) = lastSide before)) ∧
    ∀ (K : Type) [Ring K] [LinearOrder K] [IsStrictOrderedRing K] [PyFloat K], (∀ a b : K, eq a b = decide (a = b)) →
      (∀ a b : K, lt a b = decide (a < b)) → ∀ a b : K, side a b = SignType.sign (a - b) := by
  constructor
  · intro F _ pairs
    refine ⟨signals_alternate pairs, ?_⟩
    rintro before p after rfl
    obtain ⟨output, hat, hsign⟩ := sign_output before p after
    have hhold : output ≠ .hold ↔ side p.1 p.2 ≠ 0 ∧ lastSide before ≠ 0 ∧ side p.1 p.2 ≠ lastSide before := by
      rw [ne_hold_iff, hsign]
      split
      · rename_i hcross
        exact iff_of_true hcross.1 hcross
      · rename_i hcross
        exact iff_of_false (by simp) hcross
    refine ⟨output, hat, hhold, ?_, ?_⟩
    · intro hne
      rw [hsign, if_pos (hhold.1 hne)]
    · intro htie
      refine ⟨?_, by rw [lastSide_concat, if_pos htie]⟩
      by_contra hne
      exact (hhold.1 hne).1 htie
  · intro K _ _ _ _ heq hlt a b
    exact side_eq_sign heq hlt a b

end Strategy
