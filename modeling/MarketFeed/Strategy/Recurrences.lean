import MarketFeed.Strategy.Exact
/-!
# Indicators over exact arithmetic: the recurrences (indicators.py:53-127, :230-264)

Each starts from a mean of its first `n` values: `EMA` of the series itself, `RSI` of the gains and of the losses,
`ATR` of the true ranges. An indicator's state is described by that series (`ema_series`, `rsi_series`, `atr_series`),
and what it answers by the state.
-/

namespace Strategy

open PyFloat Series

section

variable {F : Type} [PyFloat F]

def EMA.over (n : ℕ) (xs : List F) : EMA F := xs.foldl EMA.update (.new n)

def RSI.over (n : ℕ) (xs : List F) : RSI F := xs.foldl (fun r x => (r.update x).1) (.new n)

/-- Of bars with a high, a low and a close. -/
def ATR.over (n : ℕ) (bars : List (F × F × F)) : ATR F :=
  bars.foldl (fun a bar => a.update bar.1 bar.2.1 bar.2.2) (.new n)

theorem EMA.over_concat (n : ℕ) (xs : List F) (x : F) : EMA.over n (xs ++ [x]) = (EMA.over n xs).update x := by
  simp [EMA.over]

theorem RSI.over_concat (n : ℕ) (xs : List F) (x : F) : RSI.over n (xs ++ [x]) = ((RSI.over n xs).update x).1 := by
  simp [RSI.over]

theorem ATR.over_concat (n : ℕ) (bars : List (F × F × F)) (bar : F × F × F) :
    ATR.over n (bars ++ [bar]) = (ATR.over n bars).update bar.1 bar.2.1 bar.2.2 := by
  simp [ATR.over]

end

section

variable {K : Type} [Field K]

/-- `2 / (n + 1)` of the way to the new value. -/
def emaStep (n : ℕ) (e x : K) : K := e + (2 : ℕ) / (n + 1) * (x - e)

/-- Wilder's smoothing, `1 / n` of the way. -/
def wilder (n : ℕ) (avg x : K) : K := (avg * (n - 1) + x) / n

/-- From each value to the next. -/
def changes : List K → List K
  | a :: b :: xs => (b - a) :: changes (b :: xs)
  | _ => []

theorem changes_concat {xs : List K} {last : K} (h : xs.getLast? = some last) (x : K) :
    changes (xs ++ [x]) = changes xs ++ [x - last] := by
  induction xs with
  | nil => cases h
  | cons a xs ih =>
    cases xs with
    | nil =>
      cases h
      rfl
    | cons b xs =>
      rw [List.getLast?_cons_cons] at h
      have hrest := ih h
      simp only [List.cons_append, changes] at hrest ⊢
      rw [hrest]

theorem length_changes (xs : List K) : (changes xs).length = xs.length - 1 := by
  induction xs with
  | nil => rfl
  | cons a xs ih =>
    cases xs with
    | nil => rfl
    | cons b xs =>
      rw [changes, List.length_cons, ih]
      rfl

variable [LinearOrder K]

def gains (xs : List K) : List K := (changes xs).map fun change => max change 0

def losses (xs : List K) : List K := (changes xs).map fun change => max (-change) 0

/-- The average gain and the average loss. -/
def gainLoss (n : ℕ) (xs : List K) : Option (K × K) := do
  let gain ← seeded n (wilder n) (gains xs)
  let loss ← seeded n (wilder n) (losses xs)
  some (gain, loss)

def rsiOf (n : ℕ) (xs : List K) : Option K :=
  (gainLoss n xs).map fun (gain, loss) => if loss = 0 then 100 else 100 - 100 / (1 + gain / loss)

section

variable {n : ℕ} {xs : List K} {last : K}

/-- The gain and the loss of one value. -/
theorem gain_loss_concat (h : xs.getLast? = some last) (x : K) :
    gains (xs ++ [x]) = gains xs ++ [max (x - last) 0] ∧ losses (xs ++ [x]) = losses xs ++ [max (-(x - last)) 0] := by
  simp [gains, losses, changes_concat h]

theorem length_gain_loss (xs : List K) : (gains xs).length = (changes xs).length ∧
    (losses xs).length = (changes xs).length := by
  simp [gains, losses]

theorem gainLoss_eq_none_iff : gainLoss n xs = none ↔ (changes xs).length < n := by
  obtain ⟨hgain, hloss⟩ := length_gain_loss xs
  unfold gainLoss
  by_cases h : (changes xs).length < n
  · refine iff_of_true ?_ h
    rw [seeded_of_lt (hgain.trans_lt h)]
    rfl
  · refine iff_of_false ?_ h
    rw [seeded, if_neg (by rw [hgain]; exact h), seeded, if_neg (by rw [hloss]; exact h)]
    exact Option.some_ne_none _

theorem gainLoss_eq_some_iff {gain loss : K} : gainLoss n xs = some (gain, loss) ↔
    seeded n (wilder n) (gains xs) = some gain ∧ seeded n (wilder n) (losses xs) = some loss := by
  unfold gainLoss
  cases seeded n (wilder n) (gains xs) <;> cases seeded n (wilder n) (losses xs) <;> simp

theorem gainLoss_start (h : xs.getLast? = some last) (hlen : (changes xs).length + 1 = n) (x : K) :
    gainLoss n (xs ++ [x]) =
      some (((gains xs).sum + max (x - last) 0) / n, ((losses xs).sum + max (-(x - last)) 0) / n) := by
  obtain ⟨hgain, hloss⟩ := length_gain_loss xs
  obtain ⟨hgains, hlosses⟩ := gain_loss_concat h x
  rw [gainLoss_eq_some_iff, hgains, hlosses, seeded_start (by omega), seeded_start (by omega)]
  exact ⟨rfl, rfl⟩

theorem gainLoss_concat {gain loss : K} (h : xs.getLast? = some last) (hnow : gainLoss n xs = some (gain, loss))
    (x : K) :
    gainLoss n (xs ++ [x]) = some (wilder n gain (max (x - last) 0), wilder n loss (max (-(x - last)) 0)) := by
  obtain ⟨hgain, hloss⟩ := gainLoss_eq_some_iff.1 hnow
  obtain ⟨hgains, hlosses⟩ := gain_loss_concat h x
  rw [gainLoss_eq_some_iff, hgains, hlosses]
  exact ⟨seeded_concat hgain _, seeded_concat hloss _⟩

end

/-- The range of a bar, with the close before it where there is one. -/
def rangeOf (prevClose : Option K) (high low : K) : K :=
  match prevClose with
  | none => high - low
  | some prev => max (max (high - low) |high - prev|) |low - prev|

def trueRanges (prevClose : Option K) : List (K × K × K) → List K
  | [] => []
  | bar :: bars => rangeOf prevClose bar.1 bar.2.1 :: trueRanges (some bar.2.2) bars

theorem trueRanges_concat (prevClose : Option K) (bars : List (K × K × K)) (bar : K × K × K) :
    trueRanges prevClose (bars ++ [bar]) =
      trueRanges prevClose bars ++ [rangeOf ((bars.getLast?.map fun b => b.2.2).or prevClose) bar.1 bar.2.1] := by
  induction bars generalizing prevClose with
  | nil => rfl
  | cons b bars ih =>
    rw [List.cons_append, trueRanges, ih, trueRanges, List.cons_append]
    cases bars with
    | nil => rfl
    | cons c bars => rw [List.getLast?_cons_cons, List.getLast?_cons, Option.map_some, Option.some_or, Option.some_or]

theorem length_trueRanges (prevClose : Option K) (bars : List (K × K × K)) :
    (trueRanges prevClose bars).length = bars.length := by
  induction bars generalizing prevClose with
  | nil => rfl
  | cons bar bars ih => rw [trueRanges, List.length_cons, ih, List.length_cons]

end

section

variable {K : Type} [Field K] [LinearOrder K] [PyFloat K] [Exact K] {n : ℕ}

@[simp] theorem pyAbs_eq [IsStrictOrderedRing K] (a : K) : pyAbs a = |a| := by
  rw [pyAbs, Exact.lt_eq, Exact.eq_eq, Exact.ofInt_eq, Exact.neg_eq, Int.cast_zero]
  rcases lt_trichotomy a 0 with h | h | h
  · simp [h, abs_of_neg h]
  · simp [h]
  · simp [h.not_gt, h.ne', abs_of_pos h]

theorem trueRange_eq [IsStrictOrderedRing K] (prevClose : Option K) (high low : K) :
    trueRange prevClose high low = rangeOf prevClose high low := by
  cases prevClose <;> simp [trueRange, rangeOf]

/-! ## What the states are -/

theorem ema_series (hn : 0 < n) (xs : List K) : (EMA.over n xs).n = n ∧ (EMA.over n xs).k = 2 / (n + 1) ∧
    (EMA.over n xs).v = seeded n (emaStep n) xs ∧
    (xs.length < n → (EMA.over n xs).count = xs.length ∧ (EMA.over n xs).seed = xs.sum) := by
  induction xs using List.reverseRecOn with
  | nil => simp [EMA.over, EMA.new, seeded_of_lt, Exact.divNat_eq, hn]
  | append_singleton xs x ih =>
    obtain ⟨hsize, hk, hv, hseed⟩ := ih
    rw [EMA.over_concat, EMA.update]
    cases hseeded : seeded n (emaStep n) xs with
    | none =>
      have hlt := seeded_eq_none_iff.1 hseeded
      obtain ⟨hcount, hsum⟩ := hseed hlt
      rw [hv, hseeded]
      by_cases hlast : xs.length + 1 = n
      · simp [hcount, hsum, hsize, hk, hlast, seeded_start hlast, Exact.divNat_eq _ _ hn]
      · have hmore : (xs ++ [x]).length < n := by
          rw [List.length_append, List.length_singleton]
          omega
        simp [hcount, hsum, hsize, hk, hlast, seeded_of_lt hmore]
    | some e =>
      have hge := le_length_of_seeded hseeded
      rw [hv, hseeded]
      refine ⟨hsize, hk, ?_, fun hlt => absurd hlt (by rw [List.length_append]; omega)⟩
      rw [seeded_concat hseeded, emaStep]
      simp [hk]

theorem rsi_series (hn : 0 < n) (xs : List K) : (RSI.over n xs).n = n ∧ (RSI.over n xs).prev = xs.getLast? ∧
    (RSI.over n xs).avg = gainLoss n xs ∧
    ((changes xs).length < n → (RSI.over n xs).count = (changes xs).length ∧ (RSI.over n xs).gainSum = (gains xs).sum ∧
      (RSI.over n xs).lossSum = (losses xs).sum) := by
  induction xs using List.reverseRecOn with
  | nil => simp [RSI.over, RSI.new, gainLoss, gains, losses, changes, seeded_of_lt, hn]
  | append_singleton xs x ih =>
    obtain ⟨hsize, hprev, havg, hsums⟩ := ih
    rw [RSI.over_concat, RSI.update, hprev]
    cases hlast : xs.getLast? with
    | none =>
      rw [List.getLast?_eq_none_iff] at hlast
      subst hlast
      exact ⟨hsize, rfl, havg, hsums⟩
    | some last =>
      obtain ⟨hgains, hlosses⟩ := gain_loss_concat hlast x
      have hlen : (changes (xs ++ [x])).length = (changes xs).length + 1 := by simp [changes_concat hlast]
      rw [havg]
      cases hnow : gainLoss n xs with
      | none =>
        have hlt := gainLoss_eq_none_iff.1 hnow
        obtain ⟨hcount, hgain, hloss⟩ := hsums hlt
        by_cases hmore : (changes xs).length + 1 < n
        · have hnone : gainLoss n (xs ++ [x]) = none := gainLoss_eq_none_iff.2 (by omega)
          simp [hcount, hgain, hloss, hsize, hmore, hgains, hlosses, hlen, hnone]
        · have hend : (changes xs).length + 1 = n := by omega
          have hstart := gainLoss_start hlast hend x
          simp [hcount, hgain, hloss, hsize, hmore, hlen, hstart, Exact.divNat_eq _ _ hn]
      | some avg =>
        obtain ⟨gain, loss⟩ := avg
        have hge := le_length_of_seeded (gainLoss_eq_some_iff.1 hnow).1
        rw [(length_gain_loss xs).1] at hge
        refine ⟨hsize, (by simp), ?_, fun hlt => absurd hlt (by omega)⟩
        rw [gainLoss_concat hlast hnow]
        simp [hsize, wilder, Exact.divNat_eq _ _ hn]

theorem atr_series [IsStrictOrderedRing K] (hn : 0 < n) (bars : List (K × K × K)) : (ATR.over n bars).n = n ∧
    (ATR.over n bars).prevClose = bars.getLast?.map (fun b => b.2.2) ∧
    (ATR.over n bars).avg = seeded n (wilder n) (trueRanges none bars) ∧
    (bars.length < n → (ATR.over n bars).count = bars.length ∧ (ATR.over n bars).sum = (trueRanges none bars).sum) := by
  induction bars using List.reverseRecOn with
  | nil => simp [ATR.over, ATR.new, seeded_of_lt, trueRanges, hn]
  | append_singleton bars bar ih =>
    obtain ⟨hsize, hclose, havg, hsums⟩ := ih
    have hranges := trueRanges_concat none bars bar
    rw [Option.or_none, ← hclose] at hranges
    have hlen := length_trueRanges none bars
    rw [ATR.over_concat, ATR.update, havg, trueRange_eq, hranges]
    cases hnow : seeded n (wilder n) (trueRanges none bars) with
    | none =>
      have hlt := seeded_eq_none_iff.1 hnow
      obtain ⟨hcount, hsum⟩ := hsums (hlen ▸ hlt)
      by_cases hmore : bars.length + 1 < n
      · have hnone : seeded n (wilder n)
            (trueRanges none bars ++ [rangeOf (ATR.over n bars).prevClose bar.1 bar.2.1]) = none :=
          seeded_of_lt (by rw [List.length_append, List.length_singleton]; omega)
        simp [hcount, hsum, hsize, hmore, hnone]
      · have hend : (trueRanges none bars).length + 1 = n := by omega
        simp [hcount, hsum, hsize, hmore, seeded_start hend, Exact.divNat_eq _ _ hn]
    | some avg =>
      have hge := le_length_of_seeded hnow
      refine ⟨hsize, (by simp), ?_, fun hlt => absurd hlt (by rw [List.length_append]; omega)⟩
      rw [seeded_concat hnow]
      simp [hsize, wilder, Exact.divNat_eq _ _ hn]

end

section

variable {K : Type} [Field K] [LinearOrder K] [IsStrictOrderedRing K] {n : ℕ}

/-! ## What they answer -/

theorem gainLoss_nonneg {xs : List K} {gain loss : K} (hn : 0 < n) (h : gainLoss n xs = some (gain, loss)) :
    0 ≤ gain ∧ 0 ≤ loss := by
  have hpos : (0 : K) < n := Nat.cast_pos.2 hn
  have hkeep : ∀ avg x : K, 0 ≤ x → 0 ≤ avg → 0 ≤ wilder n avg x := by
    intro avg x hx havg
    have hone : (0 : K) ≤ n - 1 := by
      rw [sub_nonneg]
      exact_mod_cast hn
    exact div_nonneg (add_nonneg (mul_nonneg havg hone) hx) hpos.le
  have hmean : ∀ l : List K, (∀ x ∈ l, 0 ≤ x) → 0 ≤ mean (l.take n) := fun l hl =>
    div_nonneg (List.sum_nonneg fun x hx => hl x (List.mem_of_mem_take hx)) (Nat.cast_nonneg _)
  have hgains : ∀ x ∈ gains xs, 0 ≤ x := by
    intro x hx
    obtain ⟨change, -, rfl⟩ := List.mem_map.1 hx
    exact le_max_right _ _
  have hlosses : ∀ x ∈ losses xs, 0 ≤ x := by
    intro x hx
    obtain ⟨change, -, rfl⟩ := List.mem_map.1 hx
    exact le_max_right _ _
  obtain ⟨hgain, hloss⟩ := gainLoss_eq_some_iff.1 h
  exact ⟨seeded_induction hgain (hmean _ hgains) fun e x hx => hkeep e x (hgains x hx),
    seeded_induction hloss (hmean _ hlosses) fun e x hx => hkeep e x (hlosses x hx)⟩

theorem rsi_bounds {xs : List K} {v : K} (hn : 0 < n) (h : rsiOf n xs = some v) : 0 ≤ v ∧ v ≤ 100 := by
  obtain ⟨⟨gain, loss⟩, hnow, rfl⟩ := Option.map_eq_some_iff.1 h
  obtain ⟨hgain, hloss⟩ := gainLoss_nonneg hn hnow
  dsimp only
  split
  · exact ⟨by norm_num, le_rfl⟩
  · have hratio : 0 ≤ gain / loss := div_nonneg hgain hloss
    have hle : 100 / (1 + gain / loss) ≤ 100 := div_le_self (by norm_num) (by linarith)
    have hge : 0 ≤ 100 / (1 + gain / loss) := div_nonneg (by norm_num) (by linarith)
    exact ⟨by linarith, by linarith⟩

variable [PyFloat K] [Exact K]

theorem rsi_value_of {r : RSI K} {xs : List K} (hn : 0 < n) (h : r.avg = gainLoss n xs) :
    r.value = some (rsiOf n xs) := by
  rw [RSI.value, h, rsiOf]
  cases hnow : gainLoss n xs with
  | none => rfl
  | some avg =>
    obtain ⟨gain, loss⟩ := avg
    obtain ⟨hgain, hloss⟩ := gainLoss_nonneg hn hnow
    have hratio : 0 ≤ gain / loss := div_nonneg hgain hloss
    have hne : 1 + gain / loss ≠ 0 := by linarith
    by_cases hzero : loss = 0
    · simp [hzero]
    · simp [hzero, Exact.div_eq, hne]

theorem rsi_answer (hn : 0 < n) (xs : List K) (x : K) : ((RSI.over n xs).update x).2 = some (rsiOf n (xs ++ [x])) := by
  obtain ⟨-, hprev, havg, -⟩ := rsi_series hn xs
  obtain ⟨-, -, hnext, -⟩ := rsi_series hn (xs ++ [x])
  have hvalue := rsi_value_of hn hnext
  rw [← hvalue, RSI.over_concat]
  cases hlast : xs.getLast? with
  | none =>
    rw [List.getLast?_eq_none_iff] at hlast
    subst hlast
    rfl
  | some last =>
    unfold RSI.update
    rw [hprev, hlast]
    cases hnow : (RSI.over n xs).avg with
    | none =>
      dsimp only
      split
      · simp [RSI.value]
      · rfl
    | some avg => rfl

end

/-- What the indicators of a window of `n` are over an exact arithmetic. -/
structure Computed (K : Type) [Field K] [LinearOrder K] [PyFloat K] (n : ℕ) : Prop where
  sma : ∀ xs : List K, (SMA.over n xs).value = smaOf n xs
  std : ∀ xs : List K, (RollingStd.over n xs).value = stdOf n xs
  stdAnswer : ∀ (xs : List K) (x : K), ((RollingStd.over n xs).update x).2 = stdOf n (xs ++ [x])
  ema : ∀ xs : List K, (EMA.over n xs).value = seeded n (emaStep n) xs
  rsi : ∀ xs : List K, (RSI.over n xs).value = some (rsiOf n xs)
  rsiAnswer : ∀ (xs : List K) (x : K), ((RSI.over n xs).update x).2 = some (rsiOf n (xs ++ [x]))
  atr : ∀ bars : List (K × K × K), (ATR.over n bars).value = seeded n (wilder n) (trueRanges none bars)
  smaWarm : ∀ xs : List K, smaOf n xs = none ↔ xs.length < n
  stdWarm : ∀ xs : List K, stdOf n xs = some none ↔ xs.length < n
  emaWarm : ∀ xs : List K, seeded n (emaStep n) xs = none ↔ xs.length < n
  rsiWarm : ∀ xs : List K, rsiOf n xs = none ↔ xs.length ≤ n
  atrWarm : ∀ bars : List (K × K × K), seeded n (wilder n) (trueRanges none bars) = none ↔ bars.length < n
  rsiBounds : ∀ (xs : List K) (v : K), rsiOf n xs = some v → 0 ≤ v ∧ v ≤ 100

/-- **Over exact arithmetic every indicator has the value of its definition, absent in warm-up only.** -/
theorem indicators_exact {K : Type} [Field K] [LinearOrder K] [IsStrictOrderedRing K] [PyFloat K] [Exact K] {n : ℕ}
    (hn : 0 < n) :
    Computed K n where
  sma := sma_value hn
  std := std_value hn
  stdAnswer := std_answer hn
  ema xs := (ema_series hn xs).2.2.1
  rsi xs := rsi_value_of hn (rsi_series hn xs).2.2.1
  rsiAnswer := rsi_answer hn
  atr bars := (atr_series hn bars).2.2.1
  smaWarm xs := by
    unfold smaOf
    split <;> simp_all
  stdWarm xs := by
    unfold stdOf
    split
    · simp_all
    · cases sqrt (variance (xs.rtake n)) <;> simp_all
  emaWarm xs := seeded_eq_none_iff
  rsiWarm xs := by
    have hlen := length_changes xs
    rw [rsiOf, Option.map_eq_none_iff, gainLoss_eq_none_iff]
    omega
  atrWarm bars := by rw [seeded_eq_none_iff, length_trueRanges]
  rsiBounds _ _ := rsi_bounds hn

theorem indicators_exact_rsi : Computed ℚ 14 := indicators_exact (by decide)

end Strategy
