import MarketFeed.Lib.Series
import MarketFeed.Strategy.Parity
/-!
# Indicators over exact arithmetic: the windows (indicators.py:29-50, :130-177)

`Exact` gives `PyFloat` its laws: sums, products and quotients are those of an ordered field, as of the rationals, and
nothing rounds. Of a square root nothing is said, so a deviation is that of the exact variance, whatever the root
makes of it.
-/

namespace Strategy

open PyFloat Series

class Exact (K : Type) [Field K] [LinearOrder K] [PyFloat K] : Prop where
  add_eq : ∀ a b : K, add a b = a + b
  sub_eq : ∀ a b : K, sub a b = a - b
  mul_eq : ∀ a b : K, mul a b = a * b
  neg_eq : ∀ a : K, neg a = -a
  div_eq : ∀ a b : K, div a b = if b = 0 then none else some (a / b)
  divNat_eq : ∀ (a : K) (n : ℕ), 0 < n → divNat a n = a / n
  eq_eq : ∀ a b : K, eq a b = decide (a = b)
  lt_eq : ∀ a b : K, lt a b = decide (a < b)
  ofInt_eq : ∀ i : ℤ, (ofInt i : K) = i
  fsum_eq : ∀ l : List K, fsum l = some l.sum

instance : Exact ℚ where
  add_eq _ _ := rfl
  sub_eq _ _ := rfl
  mul_eq _ _ := rfl
  neg_eq _ := rfl
  div_eq _ _ := rfl
  divNat_eq _ _ _ := rfl
  eq_eq _ _ := rfl
  lt_eq _ _ := rfl
  ofInt_eq _ := rfl
  fsum_eq _ := rfl

attribute [simp] Exact.add_eq Exact.sub_eq Exact.mul_eq Exact.neg_eq Exact.eq_eq Exact.lt_eq Exact.ofInt_eq
  Exact.fsum_eq

section

variable {F : Type} [PyFloat F]

/-- The indicator after a series. -/
def SMA.over (n : ℕ) (xs : List F) : SMA F := xs.foldl SMA.update (.new n)

def RollingStd.over (n : ℕ) (xs : List F) : RollingStd F := xs.foldl (fun s x => (s.update x).1) (.new n)

theorem SMA.over_concat (n : ℕ) (xs : List F) (x : F) : SMA.over n (xs ++ [x]) = (SMA.over n xs).update x := by
  simp [SMA.over]

theorem RollingStd.over_concat (n : ℕ) (xs : List F) (x : F) :
    RollingStd.over n (xs ++ [x]) = ((RollingStd.over n xs).update x).1 := by
  simp [RollingStd.over]

end

theorem dequeAppend_of_lt {α : Type} {n : ℕ} {q : List α} (h : q.length < n) (x : α) :
    dequeAppend n q x = q ++ [x] := by
  rw [dequeAppend, Nat.sub_eq_zero_of_le h, List.drop_zero]

theorem dequeAppend_full {α : Type} {n : ℕ} {old : α} {rest : List α} (h : (old :: rest).length = n) (x : α) :
    dequeAppend n (old :: rest) x = rest ++ [x] := by
  rw [dequeAppend, h, Nat.add_sub_cancel_left]
  rfl

/-- The deque is the window. -/
theorem dequeAppend_rtake {α : Type} {n : ℕ} (hn : 0 < n) (xs : List α) (x : α) :
    dequeAppend n (xs.rtake n) x = (xs ++ [x]).rtake n := by
  have hlen := length_rtake n xs
  by_cases h : xs.length < n
  · rw [rtake_concat_of_lt h, dequeAppend_of_lt (by omega)]
  · obtain ⟨old, rest, hwin, hnext⟩ := rtake_concat_full hn (Nat.le_of_not_lt h) x
    rw [hnext, hwin, dequeAppend_full (by rw [← hwin]; omega)]

section

variable {K : Type} [Field K] [LinearOrder K] [PyFloat K] [Exact K] {n : ℕ}

@[simp] theorem pyMax_eq (a b : K) : pyMax a b = max a b := by
  rw [pyMax, Exact.lt_eq]
  rcases lt_or_ge a b with h | h
  · simp [h, max_eq_right h.le]
  · simp [h.not_gt, max_eq_left h]

/-- The mean of the last `n` values once there are so many. -/
def smaOf (n : ℕ) (xs : List K) : Option K := if xs.length < n then none else some (mean (xs.rtake n))

/-- The root of the variance of the last `n` values once there are so many; none where the root raises. -/
def stdOf (n : ℕ) (xs : List K) : Option (Option K) :=
  if xs.length < n then some none else (sqrt (variance (xs.rtake n))).map some

/-! ## The moving average -/

/-- What leaves a full deque is taken off the sum and what comes in is added. -/
theorem SMA.update_spec {s : SMA K} (hn : 0 < s.n) (hq : s.q.length ≤ s.n) (hsum : s.sum = s.q.sum) (x : K) :
    s.update x = ⟨s.n, dequeAppend s.n s.q x, (dequeAppend s.n s.q x).sum⟩ := by
  obtain ⟨n, q, sum⟩ := s
  dsimp only at hn hq hsum
  subst hsum
  rcases q with _ | ⟨old, rest⟩
  · simp [SMA.update, @dequeAppend_of_lt K n [] hn]
  · rcases hq.lt_or_eq with hlt | hfull
    · have hlen : rest.length + 1 ≠ n := hlt.ne
      simp [SMA.update, dequeAppend_of_lt hlt, hlen, add_assoc]
    · have hlen : rest.length + 1 = n := hfull
      simp [SMA.update, dequeAppend_full hfull, hlen]

theorem sma_window (hn : 0 < n) (xs : List K) : SMA.over n xs = ⟨n, xs.rtake n, (xs.rtake n).sum⟩ := by
  induction xs using List.reverseRecOn with
  | nil => simp [SMA.over, SMA.new]
  | append_singleton xs x ih =>
    have hlen := length_rtake n xs
    rw [SMA.over_concat, ih, SMA.update_spec hn (by dsimp only; omega) rfl, dequeAppend_rtake hn]

theorem sma_value (hn : 0 < n) (xs : List K) : (SMA.over n xs).value = smaOf n xs := by
  have hlen := length_rtake n xs
  rw [sma_window hn, SMA.value, SMA.ready, smaOf]
  by_cases h : xs.length < n
  · rw [if_pos h, if_neg (by simp only [beq_iff_eq]; omega)]
  · have hfull : (xs.rtake n).length = n := by omega
    rw [if_neg h, if_pos (by simp only [beq_iff_eq]; omega), Exact.divNat_eq _ _ hn, mean, hfull]

/-! ## The rolling deviation -/

/-- The sums are those of the deque. -/
structure RollingStd.Kept (s : RollingStd K) : Prop where
  sum : s.sum = s.q.sum
  sq : s.sq = (s.q.map fun v => v * v).sum

/-- The sums that are kept up and those that are taken anew are the same. -/
theorem RollingStd.update_spec {s : RollingStd K} (hn : 0 < s.n) (hq : s.q.length ≤ s.n) (hs : s.Kept) (x : K) :
    (s.update x).1.n = s.n ∧ (s.update x).1.q = dequeAppend s.n s.q x ∧ (s.update x).1.Kept ∧
      (s.update x).2 = (s.update x).1.value := by
  obtain ⟨n, q, sum, sq, sinceRecalc⟩ := s
  obtain ⟨hsum, hsq⟩ := hs
  dsimp only at hn hq hsum hsq
  subst hsum hsq
  by_cases hanew : 10000 ≤ sinceRecalc + 1
  · rw [RollingStd.update]
    simp only [hanew, if_true, Exact.fsum_eq, Exact.mul_eq, true_and, and_true]
    exact ⟨rfl, rfl⟩
  · rw [RollingStd.update]
    simp only [hanew, if_false, true_and, and_true]
    rcases q with _ | ⟨old, rest⟩
    · constructor <;> simp [@dequeAppend_of_lt K n [] hn]
    · rcases hq.lt_or_eq with hlt | hfull
      · have hlen : rest.length + 1 ≠ n := hlt.ne
        constructor <;> simp [dequeAppend_of_lt hlt, hlen, add_assoc]
      · have hlen : rest.length + 1 = n := hfull
        constructor <;> simp [dequeAppend_full hfull, hlen]

theorem std_window (hn : 0 < n) (xs : List K) :
    (RollingStd.over n xs).n = n ∧ (RollingStd.over n xs).q = xs.rtake n ∧ (RollingStd.over n xs).Kept := by
  induction xs using List.reverseRecOn with
  | nil => exact ⟨rfl, by simp [RollingStd.over, RollingStd.new], by constructor <;>
      simp [RollingStd.over, RollingStd.new]⟩
  | append_singleton xs x ih =>
    obtain ⟨hsize, hq, hkept⟩ := ih
    have hlen := length_rtake n xs
    obtain ⟨hsize', hq', hkept', -⟩ := RollingStd.update_spec (by omega) (by rw [hq]; omega) hkept x
    rw [RollingStd.over_concat]
    exact ⟨by rw [hsize', hsize], by rw [hq', hsize, hq, dequeAppend_rtake hn], hkept'⟩

end

section

variable {K : Type} [Field K] [LinearOrder K] [IsStrictOrderedRing K] [PyFloat K] [Exact K] {n : ℕ}

theorem std_value (hn : 0 < n) (xs : List K) : (RollingStd.over n xs).value = stdOf n xs := by
  obtain ⟨hsize, hq, hsum, hsq⟩ := std_window hn xs
  have hlen := length_rtake n xs
  rw [RollingStd.value, RollingStd.ready, stdOf]
  by_cases h : xs.length < n
  · rw [if_pos h, if_neg (by simp only [beq_iff_eq]; rw [hsize, hq]; omega)]
  · have hfull : (xs.rtake n).length = n := by omega
    have hvar := variance_eq (l := xs.rtake n) (List.length_pos_iff.1 (by omega))
    rw [hfull, mean, hfull] at hvar
    rw [if_neg h, if_pos (by simp only [beq_iff_eq]; rw [hsize, hq]; omega), ← hvar, hsum, hsq, hsize, hq]
    by_cases hone : 1 < n
    · simp [Exact.divNat_eq _ _ hn, Exact.divNat_eq _ _ (Nat.sub_pos_of_lt hone), hone]
    · simp [Exact.divNat_eq _ _ hn, hone]

theorem std_answer (hn : 0 < n) (xs : List K) (x : K) : ((RollingStd.over n xs).update x).2 = stdOf n (xs ++ [x]) := by
  obtain ⟨hsize, hq, hkept⟩ := std_window hn xs
  have hlen := length_rtake n xs
  obtain ⟨-, -, -, hanswer⟩ := RollingStd.update_spec (by omega) (by rw [hq]; omega) hkept x
  rw [hanswer, ← RollingStd.over_concat, std_value hn]

end

end Strategy
