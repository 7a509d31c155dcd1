import Mathlib.Tactic.FieldSimp
import Mathlib.Tactic.Linarith
import MarketFeed.Strategy.Causality
import MarketFeed.Strategy.Exact
/-!
# The books of a backtest (quant/backtest.py:182-258)

Over exact rationals. A buy costs no more than the cash, since the quantity is what the cash buys with the fee,
rounded down to whole lots; a sale brings in what it brings less the fee. So the cash only ever is below zero where
the run starts there (`in_debt`), the position is what the last fill bought or nothing, and the cash is what the run
started with and the fills have moved (`Books`, `order_books`).

| here | there |
| --- | --- |
| `Bt.states` | not in the source: the states before the turns of the loop, and after their orders |
| `Fill.flow` | not in the source: what a fill does to the cash |
-/

namespace Strategy

open PyFloat

section

variable {F : Type}

/-- Buys and sales in turn, each sale of what was bought. -/
def Paired : List (Fill F) → Prop
  | [] => True
  | [b] => b.side = .buy
  | b :: s :: rest => b.side = .buy ∧ s.side = .sell ∧ s.qty = b.qty ∧ Paired rest

/-- Nothing is left. -/
def Balanced (fills : List (Fill F)) : Prop := Paired fills ∧ fills.length % 2 = 0

variable [PyFloat F] (cfg : Cfg F)

def Bt.states : Bt F → List (BarRow F) → List (Bt F)
  | st, [] => [st]
  | st, bar :: bars =>
    st :: match st.order cfg bar with
      | none => []
      | some (st', _) => st' :: ((st.turn cfg bars.isEmpty bar).map fun next => next.states bars).getD []

end

def Fill.flow (f : Fill ℚ) : ℚ := (if f.side = .buy then -(f.qty * f.price) else f.qty * f.price) - f.fee

def flow (fills : List (Fill ℚ)) : ℚ := (fills.map Fill.flow).sum

structure Cfg.Fair (cfg : Cfg ℚ) : Prop where
  fee : 0 ≤ cfg.fee ∧ cfg.fee < 1
  slip : 0 ≤ cfg.slip ∧ cfg.slip < 1
  lot : 0 ≤ cfg.lot
  fraction : 0 ≤ cfg.cashFraction ∧ cfg.cashFraction ≤ 1

structure Books (cfg : Cfg ℚ) (st : Bt ℚ) : Prop where
  cash : 0 ≤ cfg.equity → 0 ≤ st.cash
  position : st.position = 0 ∧ Balanced st.fills ∨
    0 < st.position ∧ ∃ l b, st.fills = l ++ [b] ∧ Balanced l ∧ b.side = .buy ∧ b.qty = st.position
  account : st.cash = cfg.equity + flow st.fills

/-! ## Fills in pairs -/

section

variable {F : Type}

theorem Paired.append : ∀ {l m : List (Fill F)}, Paired l → l.length % 2 = 0 → Paired m → Paired (l ++ m)
  | [], _, _, _, hm => hm
  | [_], _, _, heven, _ => by simp at heven
  | _ :: _ :: _, _, ⟨hb, hs, hqty, hrest⟩, heven, hm =>
    ⟨hb, hs, hqty, Paired.append hrest (by simp only [List.length_cons] at heven; omega) hm⟩

theorem Balanced.buy {l : List (Fill F)} {b : Fill F} (h : Balanced l) (hb : b.side = .buy) : Paired (l ++ [b]) :=
  h.1.append h.2 hb

theorem Balanced.sell {l : List (Fill F)} {b s : Fill F} (h : Balanced l) (hb : b.side = .buy) (hs : s.side = .sell)
    (hqty : s.qty = b.qty) :
    Balanced (l ++ [b] ++ [s]) := by
  rw [List.append_assoc]
  refine ⟨h.1.append h.2 ⟨hb, hs, hqty, trivial⟩, ?_⟩
  have heven := h.2
  simp only [List.length_append, List.length_singleton]
  omega

end

theorem flow_concat (l : List (Fill ℚ)) (f : Fill ℚ) : flow (l ++ [f]) = flow l + f.flow := by simp [flow]

variable {cfg : Cfg ℚ}

namespace Books

variable {st : Bt ℚ}

theorem nonneg (h : Books cfg st) : 0 ≤ st.position := by
  rcases h.position with ⟨hzero, -⟩ | ⟨hpos, -⟩
  · exact hzero.ge
  · exact hpos.le

theorem paired (h : Books cfg st) : Paired st.fills := by
  rcases h.position with ⟨-, hbal⟩ | ⟨-, l, b, hfills, hbal, hb, -⟩
  · exact hbal.1
  · rw [hfills]
    exact hbal.buy hb

theorem balanced (h : Books cfg st) (hflat : st.position = 0) : Balanced st.fills := by
  rcases h.position with ⟨-, hbal⟩ | ⟨hpos, -⟩
  · exact hbal
  · exact absurd hflat hpos.ne'

theorem bought (h : Books cfg st) (hlong : 0 < st.position) :
    ∃ l b, st.fills = l ++ [b] ∧ Balanced l ∧ b.side = .buy ∧ b.qty = st.position := by
  rcases h.position with ⟨hzero, -⟩ | ⟨-, hbought⟩
  · exact absurd hzero hlong.ne'
  · exact hbought

theorem congr {st' : Bt ℚ} (h : Books cfg st) (hsame : st'.cash = st.cash ∧ st'.position = st.position ∧
    st'.fills = st.fills) :
    Books cfg st' := by
  obtain ⟨hcash, hpos, hfills⟩ := hsame
  exact ⟨by rw [hcash]; exact h.cash, by rw [hpos, hfills]; exact h.position, by rw [hcash, hfills]; exact h.account⟩

end Books

theorem books_start (strat : Strat ℚ) : Books cfg (cfg.start strat) :=
  ⟨fun h => h, .inl ⟨rfl, trivial, rfl⟩, by simp [Cfg.start, flow]⟩

/-! ## One order -/

@[simp] theorem le_rat (a b : ℚ) : le a b = decide (a ≤ b) := rfl

@[simp] theorem floor_rat (a : ℚ) : PyFloat.floor a = some ⌊a⌋ := rfl

theorem buyPrice_pos (hfair : cfg.Fair) {bar : BarRow ℚ} (hopen : 0 < bar.openPrice) : 0 < cfg.buyPrice bar := by
  have hslip := hfair.slip.1
  simp only [Cfg.buyPrice, Exact.mul_eq, Exact.add_eq, Exact.ofInt_eq, Int.cast_one]
  positivity

/-- What a buy costs with its fee. -/
theorem quantity_cost (hfair : cfg.Fair) {bar : BarRow ℚ} (hopen : 0 < bar.openPrice)
    {cash qty : ℚ} (h : cfg.quantity cash bar = some qty) :
    qty * cfg.buyPrice bar * (1 + cfg.fee) ≤ cash * cfg.cashFraction := by
  have hprice := buyPrice_pos hfair hopen
  have hfee := hfair.fee.1
  have hunit : 0 < cfg.buyPrice bar * (1 + cfg.fee) := by positivity
  have hdiv : div (mul cash cfg.cashFraction) (mul (cfg.buyPrice bar) (add (ofInt 1) cfg.fee)) =
      some (cash * cfg.cashFraction / (cfg.buyPrice bar * (1 + cfg.fee))) := by
    simp only [Exact.mul_eq, Exact.add_eq, Exact.ofInt_eq, Int.cast_one]
    rw [Exact.div_eq, if_neg hunit.ne']
  have hle : qty ≤ cash * cfg.cashFraction / (cfg.buyPrice bar * (1 + cfg.fee)) := by
    simp only [Cfg.quantity, hdiv, Option.bind_eq_bind, Option.bind_some] at h
    generalize cash * cfg.cashFraction / (cfg.buyPrice bar * (1 + cfg.fee)) = exact at h ⊢
    split at h
    · rename_i hlot
      have hlot : 0 < cfg.lot := by simpa using hlot
      rw [Exact.div_eq, if_neg hlot.ne'] at h
      simp only [Option.bind_some, floor_rat, Exact.mul_eq, Exact.ofInt_eq, Option.some.injEq] at h
      rw [← h, ← le_div_iff₀ hlot]
      exact Int.floor_le _
    · simp only [Option.some.injEq] at h
      exact h.ge
  rw [mul_assoc]
  exact (le_div_iff₀ hunit).1 hle

/-- A sale of all there is, at a price less the slippage. -/
theorem Books.sale {st : Bt ℚ} (hb : Books cfg st) (hfair : cfg.Fair) (hlong : 0 < st.position)
    {price : ℚ} (hprice : 0 < price) (ts : ℕ) :
    let px := mul price (sub (ofInt 1) cfg.slip)
    let proceeds := mul st.position px
    let fee := mul proceeds cfg.fee
    let cash := add st.cash (sub proceeds fee)
    let fill : Fill ℚ := ⟨ts, .sell, px, st.position, fee, cash⟩
    (0 ≤ cfg.equity → 0 ≤ cash) ∧ Balanced (st.fills ++ [fill]) ∧ cash = cfg.equity + flow (st.fills ++ [fill]) := by
  intro px proceeds fee cash fill
  obtain ⟨l, b, hfills, hbal, hside, hqty⟩ := hb.bought hlong
  have hpx : 0 < price * (1 - cfg.slip) := mul_pos hprice (by linarith [hfair.slip.2])
  have hcash : cash = st.cash + st.position * (price * (1 - cfg.slip)) * (1 - cfg.fee) := by
    simp only [cash, fee, proceeds, px, Exact.sub_eq, Exact.add_eq, Exact.mul_eq, Exact.ofInt_eq, Int.cast_one]
    ring
  refine ⟨fun heq => ?_, ?_, ?_⟩
  · have hgain : 0 ≤ st.position * (price * (1 - cfg.slip)) * (1 - cfg.fee) :=
      mul_nonneg (mul_nonneg hlong.le hpx.le) (by linarith [hfair.fee.2])
    rw [hcash]
    exact add_nonneg (hb.cash heq) hgain
  · rw [hfills]
    exact hbal.sell hside rfl hqty.symm
  · have hflow : fill.flow = proceeds - fee := rfl
    rw [flow_concat, ← add_assoc, ← hb.account, hflow]
    rfl

theorem order_books (hfair : cfg.Fair) {bar : BarRow ℚ} (hopen : 0 < bar.openPrice)
    {st st' : Bt ℚ} {skipped : Bool} (hb : Books cfg st)
    (h : st.order cfg bar = some (st', skipped)) : Books cfg st' := by
  unfold Bt.order at h
  split at h
  · -- a buy, of nothing or of something
    rename_i hbuying
    have hflat : st.position = 0 := by
      simp only [Bt.buying, Bool.and_eq_true, Exact.eq_eq, Exact.ofInt_eq, Int.cast_zero, decide_eq_true_eq] at hbuying
      exact hbuying.2
    obtain ⟨qty, hqty, heq⟩ := Option.map_eq_some_iff.1 h
    split at heq
    · cases heq
      exact hb.congr ⟨rfl, rfl, rfl⟩
    · rename_i hle
      cases heq
      have hpos : 0 < qty := by simpa using hle
      have hbal := hb.balanced hflat
      have hcost := quantity_cost hfair hopen hqty
      refine ⟨fun heq => ?_, .inr ⟨hpos, _, _, rfl, hbal, rfl, rfl⟩, ?_⟩
      · have hcash := hb.cash heq
        have hspend : st.cash * cfg.cashFraction ≤ st.cash := mul_le_of_le_one_right hcash hfair.fraction.2
        simp only [Exact.sub_eq, Exact.add_eq, Exact.mul_eq]
        linarith
      · rw [flow_concat, ← add_assoc, ← hb.account, Fill.flow]
        simp only [Exact.sub_eq, Exact.add_eq, Exact.mul_eq, if_true]
        ring
  · split at h
    · -- a sale of all there is
      rename_i hselling
      have hlong : 0 < st.position := by
        simp only [Bool.and_eq_true, Exact.lt_eq, Exact.ofInt_eq, Int.cast_zero, decide_eq_true_eq] at hselling
        exact hselling.2
      cases h
      obtain ⟨hcash, hbal, haccount⟩ := hb.sale hfair hlong hopen bar.bucketNs
      exact ⟨hcash, .inl ⟨by simp, hbal⟩, haccount⟩
    · cases h
      exact hb.congr ⟨rfl, rfl, rfl⟩

/-! ## Runs -/

theorem turn_books (hfair : cfg.Fair) {bar : BarRow ℚ} (hopen : 0 < bar.openPrice)
    {last : Bool} {st next : Bt ℚ} (hb : Books cfg st)
    (h : st.turn cfg last bar = some next) : Books cfg next := by
  obtain ⟨st', skipped, ho⟩ := order_of_turn h
  exact (order_books hfair hopen hb ho).congr (turn_same ho h)

theorem states_books (hfair : cfg.Fair) {bars : List (BarRow ℚ)} (hopen : ∀ bar ∈ bars, 0 < bar.openPrice)
    {st : Bt ℚ} (hb : Books cfg st) :
    ∀ st' ∈ st.states cfg bars, Books cfg st' := by
  induction bars generalizing st with
  | nil =>
    intro st' hmem
    rw [List.mem_singleton.1 hmem]
    exact hb
  | cons bar bars ih =>
    intro st' hmem
    have hhere := hopen bar List.mem_cons_self
    have hrest : ∀ bar' ∈ bars, 0 < bar'.openPrice := fun bar' h => hopen bar' (List.mem_cons_of_mem bar h)
    rw [Bt.states] at hmem
    rcases List.mem_cons.1 hmem with rfl | hmem
    · exact hb
    · cases ho : st.order cfg bar with
      | none =>
        rw [ho] at hmem
        cases hmem
      | some r =>
        rw [ho] at hmem
        rcases List.mem_cons.1 hmem with rfl | hmem
        · exact order_books hfair hhere hb ho
        · cases hturn : st.turn cfg bars.isEmpty bar with
          | none =>
            rw [hturn] at hmem
            cases hmem
          | some next =>
            rw [hturn] at hmem
            exact ih hrest (turn_books hfair hhere hb hturn) st' hmem

theorem loop_books (hfair : cfg.Fair) {bars : List (BarRow ℚ)} (hopen : ∀ bar ∈ bars, 0 < bar.openPrice)
    {st st' : Bt ℚ} (hb : Books cfg st)
    (h : st.loop cfg bars = some st') : Books cfg st' := by
  induction bars generalizing st with
  | nil =>
    cases h
    exact hb
  | cons bar bars ih =>
    obtain ⟨next, hturn, hrest⟩ := Option.bind_eq_some_iff.1 h
    exact ih (fun bar' hbar => hopen bar' (List.mem_cons_of_mem bar hbar))
      (turn_books hfair (hopen bar List.mem_cons_self) hb hturn) hrest

/-- The closing sale keeps the books: it is a fill like the others. -/
theorem liquidate_books (hfair : cfg.Fair) {bars : List (BarRow ℚ)} (hclose : ∀ bar ∈ bars, 0 < bar.close)
    {st : Bt ℚ} (hb : Books cfg st) :
    Paired (st.fills ++ (cfg.liquidate bars st).1) ∧ (0 ≤ cfg.equity → 0 ≤ (cfg.liquidate bars st).2) ∧
      (cfg.liquidate bars st).2 = cfg.equity + flow (st.fills ++ (cfg.liquidate bars st).1) := by
  have hnothing : Paired (st.fills ++ []) ∧ (0 ≤ cfg.equity → 0 ≤ st.cash) ∧
      st.cash = cfg.equity + flow (st.fills ++ []) := by
    rw [List.append_nil]
    exact ⟨hb.paired, hb.cash, hb.account⟩
  unfold Cfg.liquidate
  split
  · rename_i bar hlast
    split
    · rename_i hheld
      have hlong : 0 < st.position := by simpa using hheld
      obtain ⟨hcash, hbal, haccount⟩ := hb.sale hfair hlong (hclose bar (List.mem_of_getLast? hlast)) bar.bucketNs
      exact ⟨hbal.1, hcash, haccount⟩
    · exact hnothing
  · exact hnothing

/-- **The books of a run**: the position is never below zero, nor the cash unless the run starts there; the fills are
buys and sales in turn, each sale of what was bought; and the run ends with what it started with and the fills have
moved. -/
theorem backtest_books (cfg : Cfg ℚ) (strat : Strat ℚ) (bars : List (BarRow ℚ)) (hfair : cfg.Fair)
    (hprices : ∀ bar ∈ bars, 0 < bar.openPrice ∧ 0 < bar.close) :
    (∀ st ∈ (cfg.start strat).states cfg bars, (0 ≤ cfg.equity → 0 ≤ st.cash) ∧ 0 ≤ st.position ∧ Paired st.fills) ∧
      ∀ res ∈ cfg.runWith strat bars,
        Paired res.fills ∧ (0 ≤ cfg.equity → 0 ≤ res.endEquity) ∧ res.endEquity = cfg.equity + flow res.fills := by
  have hopen : ∀ bar ∈ bars, 0 < bar.openPrice := fun bar h => (hprices bar h).1
  constructor
  · intro st hst
    have hb := states_books hfair hopen (books_start strat) st hst
    exact ⟨hb.cash, hb.nonneg, hb.paired⟩
  · intro res hres
    obtain ⟨st, hloop, rfl⟩ := Option.map_eq_some_iff.1 hres
    exact liquidate_books hfair (fun bar h => (hprices bar h).2) (loop_books hfair hopen (books_start strat) hloop)

theorem jumpCfg_fair (equity : ℚ) : (jumpCfg equity).Fair := by
  have hslip : (jumpCfg equity).slip = 5 / (10000 : ℕ) := Exact.divNat_eq _ _ (by decide)
  refine ⟨?_, ?_, ?_, ?_⟩
  · norm_num [jumpCfg]
  · rw [hslip]
    norm_num
  · norm_num [jumpCfg]
  · norm_num [jumpCfg]

theorem backtest_books_million :
    let run := (jumpCfg 1000000).runWith (.smaCross ⟨.new 10, .new 30, none⟩) (jumpBars.map BarRow.ofBar)
    run.isSome = true ∧ run.map Result.endEquity = run.map fun res => 1000000 + flow res.fills := by
  intro run
  have h := (backtest_books (jumpCfg 1000000) (.smaCross ⟨.new 10, .new 30, none⟩) (jumpBars.map BarRow.ofBar)
    (jumpCfg_fair _)
    (by decide +kernel)).2
  refine ⟨by decide +kernel, ?_⟩
  cases hrun : run with
  | none => rfl
  | some res => exact congrArg some (h res hrun).2.2

/-- A run that starts in debt stays there: it buys nothing. -/
theorem in_debt :
    (jumpCfg (-1)).Fair ∧ (∀ bar ∈ jumpBars.map BarRow.ofBar, 0 < bar.openPrice ∧ 0 < bar.close) ∧
      ((jumpCfg (-1)).runWith (.smaCross ⟨.new 10, .new 30, none⟩) (jumpBars.map BarRow.ofBar)).map
        (fun res => (res.fills, res.endEquity)) =
        some ([], -1) :=
  ⟨jumpCfg_fair _, by decide +kernel, by decide +kernel⟩

end Strategy
