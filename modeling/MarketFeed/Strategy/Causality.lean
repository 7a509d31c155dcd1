import MarketFeed.Strategy.Backtest
/-!
# No bar before its time (quant/backtest.py:182-258)

A signal of a bar is filled at the open of the next. What the loop fills at the open of a bar is therefore settled by
the bars before it and that open, whatever comes later, and however many bars come: that the last bar leaves no signal
shows only after it (`executions_prefix`).

| here | there |
| --- | --- |
| `Cfg.runWith` | `run`, the strategy made of its parameters |
| `Cfg.liquidate` | what follows the loop: the sale of what is left, and the cash |
| `Bt.executions` | not in the source: the fills of the loop, each with the index of its bar |
-/

namespace Strategy

open PyFloat

variable {F : Type} [PyFloat F] (cfg : Cfg F)

def Cfg.liquidate (bars : List (BarRow F)) (st : Bt F) : List (Fill F) × F :=
  match bars.getLast? with
  | some bar =>
    if lt (ofInt 0) st.position then
      let px := mul bar.close (sub (ofInt 1) cfg.slip)
      let proceeds := mul st.position px
      let fee := mul proceeds cfg.fee
      let cash := add st.cash (sub proceeds fee)
      ([⟨bar.bucketNs, .sell, px, st.position, fee, cash⟩], cash)
    else ([], st.cash)
  | none => ([], st.cash)

def Cfg.runWith (strat : Strat F) (bars : List (BarRow F)) : Option (Result F) :=
  ((cfg.start strat).loop cfg bars).map fun st =>
    let (sold, cash) := cfg.liquidate bars st
    ⟨cfg.strategyName, cfg.symbol, bars.length, cfg.equity, cash, st.fills ++ sold, st.equityCurve, st.gate.suppressed⟩

/-- What an order adds to the fills, at the bar `i`. -/
def Bt.filled (i : ℕ) (st st' : Bt F) : List (ℕ × Fill F) := (st'.fills.drop st.fills.length).map fun f => (i, f)

/-- Up to where a turn raises, if one does. -/
def Bt.executions : ℕ → Bt F → List (BarRow F) → List (ℕ × Fill F)
  | _, _, [] => []
  | i, st, bar :: bars =>
    match st.order cfg bar with
    | none => []
    | some (st', _) =>
      st.filled i st' ++ ((st.turn cfg bars.isEmpty bar).map fun next => next.executions (i + 1) bars).getD []

/-- Side, price, quantity, fee and equity. -/
def Fill.terms (f : Fill F) : Action × F × F × F × F := (f.side, f.price, f.qty, f.fee, f.equity)

variable {cfg}

/-- `run` is `runWith` of the strategy with its defaults. -/
theorem run_eq (bars : List (BarRow F)) : cfg.run bars = (registered cfg.strategyName).bind fun strat =>
  cfg.runWith strat bars := by
  simp only [Cfg.run, Cfg.simulate, Cfg.runWith, Cfg.liquidate]
  cases registered (F := F) cfg.strategyName with
  | none => rfl
  | some strat =>
    simp only [Option.bind_some]
    cases (cfg.start strat).loop cfg bars with
    | none => rfl
    | some st =>
      cases hlast : bars.getLast? with
      | none => simp
      | some bar =>
        simp only [Option.map_some, Option.bind_eq_bind, Option.bind_some]
        split <;> simp

/-! ## The fills of the loop -/

/-- An order adds one fill at most. -/
theorem order_fills {st st' : Bt F} {bar : BarRow F} {skipped : Bool} (h : st.order cfg bar = some (st', skipped)) :
    ∃ new, st'.fills = st.fills ++ new := by
  unfold Bt.order at h
  split at h
  · obtain ⟨qty, -, heq⟩ := Option.map_eq_some_iff.1 h
    split at heq
    · cases heq
      exact ⟨[], (List.append_nil _).symm⟩
    · cases heq
      exact ⟨_, rfl⟩
  · split at h
    · cases h
      exact ⟨_, rfl⟩
    · cases h
      exact ⟨[], (List.append_nil _).symm⟩

/-- The rest of a turn trades nothing. -/
theorem signal_same {st st' : Bt F} {bar : BarRow F} {last : Bool} (h : st.signal cfg last bar = some st') :
    st'.cash = st.cash ∧ st'.position = st.position ∧ st'.fills = st.fills := by
  unfold Bt.signal at h
  split at h
  · cases h
  · cases h
    exact ⟨rfl, rfl, rfl⟩
  · simp only [Option.some.injEq] at h
    subst h
    split <;> exact ⟨rfl, rfl, rfl⟩

/-- A turn trades what its order does. -/
theorem turn_same {st st' next : Bt F} {bar : BarRow F} {last skipped : Bool}
    (ho : st.order cfg bar = some (st', skipped))
    (h : st.turn cfg last bar = some next) : next.cash = st'.cash ∧ next.position = st'.position ∧
      next.fills = st'.fills := by
  rw [Bt.turn, ho, Option.bind_some] at h
  cases skipped with
  | true =>
    cases h
    exact ⟨rfl, rfl, rfl⟩
  | false => exact signal_same h

theorem order_of_turn {st next : Bt F} {bar : BarRow F} {last : Bool} (h : st.turn cfg last bar = some next) :
    ∃ st' skipped, st.order cfg bar = some (st', skipped) := by
  cases ho : st.order cfg bar with
  | none => simp [Bt.turn, ho] at h
  | some r => exact ⟨r.1, r.2, rfl⟩

theorem loop_fills (i : ℕ) {bars : List (BarRow F)} {st st' : Bt F} (h : st.loop cfg bars = some st') :
    st'.fills = st.fills ++ (st.executions cfg i bars).map Prod.snd := by
  induction bars generalizing i st with
  | nil =>
    cases h
    simp [Bt.executions]
  | cons bar bars ih =>
    obtain ⟨next, hturn, hrest⟩ := Option.bind_eq_some_iff.1 h
    obtain ⟨mid, skipped, ho⟩ := order_of_turn hturn
    obtain ⟨new, hnew⟩ := order_fills ho
    have hfills := (turn_same ho hturn).2.2
    have hfilled : (st.filled i mid).map Prod.snd = new := by
      simp [Bt.filled, hnew, Function.comp_def]
    simp only [Bt.executions, ho, hturn, List.map_append, hfilled, Option.map_some, Option.getD_some]
    rw [ih (i + 1) hrest, hfills, hnew, List.append_assoc]

/-- The fills of a run: those of the loop, and the sale of what is left. -/
theorem runWith_fills (strat : Strat F) (bars : List (BarRow F)) :
    (cfg.runWith strat bars).map Result.fills =
      ((cfg.start strat).loop cfg bars).map fun st =>
        ((cfg.start strat).executions cfg 0 bars).map Prod.snd ++ (cfg.liquidate bars st).1 := by
  rw [Cfg.runWith, Option.map_map]
  cases hloop : (cfg.start strat).loop cfg bars with
  | none => rfl
  | some st =>
    have hfills := loop_fills 0 hloop
    simp only [Option.map_some, Function.comp_apply, hfills]
    rfl

/-! ## Two lists with the same beginning -/

theorem executions_index {i : ℕ} {bars : List (BarRow F)} {st : Bt F} {e : ℕ × Fill F}
    (h : e ∈ st.executions cfg i bars) : i ≤ e.1 := by
  induction bars generalizing i st with
  | nil => cases h
  | cons bar bars ih =>
    rw [Bt.executions] at h
    split at h
    · cases h
    · rcases List.mem_append.1 h with h | h
      · obtain ⟨f, -, rfl⟩ := List.mem_map.1 h
        exact Nat.le_refl i
      · cases hturn : st.turn cfg bars.isEmpty bar with
        | none => simp [hturn] at h
        | some next =>
          rw [hturn] at h
          exact Nat.le_of_succ_le (ih h)

theorem later_index {i : ℕ} {o : Option (Bt F)} {bars : List (BarRow F)} {e : ℕ × Fill F}
    (h : e ∈ (o.map fun next => next.executions cfg (i + 1) bars).getD []) : i + 1 ≤ e.1 := by
  cases o with
  | none => cases h
  | some next => exact executions_index h

theorem filter_executions_of_le (i : ℕ) (st : Bt F) (bars : List (BarRow F)) :
    (st.executions cfg i bars).filter (fun e => decide (e.1 < i)) = [] := by
  rw [List.filter_eq_nil_iff]
  intro e he
  have := executions_index he
  simp only [decide_eq_true_eq]
  omega

theorem executions_prefix (cfg : Cfg F) (i : ℕ) (st : Bt F) (p rest rest' : List (BarRow F)) :
    (st.executions cfg i (p ++ rest)).filter (fun e => decide (e.1 < i + p.length)) =
      (st.executions cfg i (p ++ rest')).filter (fun e => decide (e.1 < i + p.length)) := by
  induction p generalizing i st with
  | nil => exact (filter_executions_of_le i st rest).trans (filter_executions_of_le i st rest').symm
  | cons bar p ih =>
    simp only [List.cons_append, Bt.executions, List.length_cons]
    cases st.order cfg bar with
    | none => rfl
    | some r =>
      simp only [List.filter_append]
      congr 1
      cases p with
      | nil =>
        -- only here may one list end and the other not
        have hnone (last : Bool) (bars : List (BarRow F)) :
            (((st.turn cfg last bar).map fun next => next.executions cfg (i + 1) bars).getD []).filter
              (fun e => decide (e.1 < i + 1)) = [] := by
          cases st.turn cfg last bar with
          | none => rfl
          | some next => exact filter_executions_of_le (i + 1) next bars
        exact (hnone _ _).trans (hnone _ _).symm
      | cons bar' p =>
        simp only [List.cons_append, List.isEmpty_cons]
        cases st.turn cfg false bar with
        | none => rfl
        | some next =>
          have hnext := ih (i + 1) next
          rw [Nat.add_right_comm i 1] at hnext
          exact hnext

/-- An order sees of its bar the open. -/
theorem order_terms (st : Bt F) {b b' : BarRow F} (h : b'.openPrice = b.openPrice) :
    (st.order cfg b').map (fun r => (r.1.fills.drop st.fills.length).map Fill.terms) =
      (st.order cfg b).map (fun r => (r.1.fills.drop st.fills.length).map Fill.terms) := by
  have hprice : cfg.buyPrice b' = cfg.buyPrice b := by rw [Cfg.buyPrice, Cfg.buyPrice, h]
  have hqty : cfg.quantity st.cash b' = cfg.quantity st.cash b := by rw [Cfg.quantity, Cfg.quantity, hprice]
  simp only [Bt.order, hqty, hprice, h]
  split
  · cases cfg.quantity st.cash b with
    | none => rfl
    | some qty =>
      simp only [Option.map_some]
      split
      · rfl
      · simp [Fill.terms]
  · split
    · simp [Fill.terms]
    · rfl

/-- What is filled at the open of one bar. -/
def termsAt (k : ℕ) (executed : List (ℕ × Fill F)) : List (Action × F × F × F × F) :=
  (executed.filter fun e => decide (e.1 = k)).map fun e => e.2.terms

theorem executions_terms (cfg : Cfg F) (i : ℕ) (st : Bt F) (p rest rest' : List (BarRow F))
    {b b' : BarRow F} (h : b'.openPrice = b.openPrice) :
    termsAt (i + p.length) (st.executions cfg i (p ++ b' :: rest')) = termsAt (i + p.length)
      (st.executions cfg i (p ++ b :: rest)) := by
  induction p generalizing i st with
  | nil =>
    have hone (bar : BarRow F) (bars : List (BarRow F)) : termsAt i (st.executions cfg i (bar :: bars)) =
        ((st.order cfg bar).map fun r => (r.1.fills.drop st.fills.length).map Fill.terms).getD [] := by
      rw [Bt.executions]
      cases st.order cfg bar with
      | none => rfl
      | some r =>
        have hlater : (((st.turn cfg bars.isEmpty bar).map fun next => next.executions cfg (i + 1) bars).getD []).filter
            (fun e => decide (e.1 = i)) = [] := by
          rw [List.filter_eq_nil_iff]
          intro e he
          have := later_index he
          simp only [decide_eq_true_eq]
          omega
        have hhere : (st.filled i r.1).filter (fun e => decide (e.1 = i)) = st.filled i r.1 := by
          rw [List.filter_eq_self]
          intro e he
          obtain ⟨f, -, rfl⟩ := List.mem_map.1 he
          exact decide_eq_true rfl
        simp only [termsAt, List.filter_append, hlater, hhere, List.append_nil]
        simp [Bt.filled, Function.comp_def]
    exact (hone b' rest').trans ((congrArg (Option.getD · []) (order_terms st h)).trans (hone b rest).symm)
  | cons bar p ih =>
    have hempty (x : BarRow F) (l : List (BarRow F)) : (p ++ x :: l).isEmpty = false := by cases p <;> rfl
    simp only [List.cons_append, Bt.executions, List.length_cons, hempty]
    cases st.order cfg bar with
    | none => rfl
    | some r =>
      simp only [termsAt, List.filter_append, List.map_append]
      congr 1
      cases st.turn cfg false bar with
      | none => rfl
      | some next =>
        have hnext := ih (i + 1) next
        rw [Nat.add_right_comm i 1] at hnext
        exact hnext

/-- **The backtest does not look ahead**: with the same first bars it fills the same at their opens, and what it fills
at an open is settled by the bars before it and that open. -/
theorem no_lookahead (cfg : Cfg F) (strat : Strat F) (p rest rest' : List (BarRow F)) (b b' : BarRow F) :
    let executions := fun bars => (cfg.start strat).executions cfg 0 bars
    (∀ bars, (cfg.runWith strat bars).map Result.fills =
        ((cfg.start strat).loop cfg bars).map fun st => (executions bars).map Prod.snd ++ (cfg.liquidate bars st).1) ∧
      (executions (p ++ rest)).filter (fun e => decide (e.1 < p.length)) =
        (executions (p ++ rest')).filter (fun e => decide (e.1 < p.length)) ∧
      termsAt p.length (executions (p ++ { b' with openPrice := b.openPrice } :: rest')) = termsAt p.length
        (executions (p ++ b :: rest)) := by
  intro executions
  refine ⟨runWith_fills strat, ?_, ?_⟩
  · have h := executions_prefix cfg 0 (cfg.start strat) p rest rest'
    rwa [Nat.zero_add] at h
  · have h := executions_terms cfg 0 (cfg.start strat) p rest rest'
      (show ({ b' with openPrice := b.openPrice } : BarRow F).openPrice = b.openPrice from rfl)
    rwa [Nat.zero_add] at h

end Strategy
