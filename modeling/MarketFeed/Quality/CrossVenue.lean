import Mathlib.Data.List.Induction
import Mathlib.Data.String.Basic
import Mathlib.Tactic.Linarith
import MarketFeed.Lib.Binary64
import MarketFeed.Lib.Ranks
import MarketFeed.Lib.Recent
import MarketFeed.Quality.StaleValue
/-!
# Which coin is wrong (src/mdfeed/quality.py:263-331, :358-367)

A coin that is traded for won and for dollars implies a rate between the two, and the rates of the coins should agree.
With every trade they are taken from the last prices, the median is held to be right, and the coin farthest from it is
reported, unless one was in the last minute of the trades' own time. While more than half of the rates are right, the
median is between two right ones (`Ranks.median_between`), so it is a wrong one that is named (`outlier_named`).

| here | there |
| --- | --- |
| `Tick` | the arguments of `on_trade` |
| `Text` | `f"{worst_dev:.2f}"`, `f"{v:,.0f}"` |
| `verdict` | the part of `check` before the cooldown |
| `minAssets_pos` | not checked there: with `min_assets=0` and no price `vals[0]` raises |
| `run` | not in the source: the check after some trades, and what it returned |

A float is the rational number it is, and every operation rounds: a deviation is within `slack` of the exact one
(`dev_rounded`). Overflow and underflow are left out. A dict is the list of its items.
-/

namespace Quality.CrossVenue

open Keyed Recent
open Double (binary64 Rounded rounded_self)
open StaleValue (QualityEvent)

structure Tick where
  venue : String
  symbol : String
  price : ℚ
  tsNs : ℤ

structure Text where
  percent : ℚ → String
  whole : ℚ → String

structure CrossVenueCheck where
  divergencePct : ℚ
  minAssets : ℕ
  prices : List (String × ℚ)
  implied : List (String × ℚ)
  lastFire : Option ℚ
  minAssets_pos : 0 < minAssets

/-- The asset, and where it is traded for won and for dollars. -/
def pairs : List (String × String × String) :=
  [("BTC", "UPBIT:KRW-BTC", "BINANCE:BTCUSDT"), ("ETH", "UPBIT:KRW-ETH", "BINANCE:ETHUSDT"),
    ("SOL", "UPBIT:KRW-SOL", "BINANCE:SOLUSDT"), ("XRP", "UPBIT:KRW-XRP", "BINANCE:XRPUSDT")]

def Tick.key (t : Tick) : String := t.venue ++ ":" ++ t.symbol

def fresh (divergencePct : ℚ) (minAssets : ℕ) (h : 0 < minAssets) : CrossVenueCheck :=
  ⟨divergencePct, minAssets, [], [], none, h⟩

def rate : Option ℚ → Option ℚ → Option ℚ
  | some k, some u => if k ≠ 0 ∧ u ≠ 0 ∧ 0 < u then some (binary64 (k / u)) else none
  | _, _ => none

def rates (price : String → Option ℚ) : List (String × ℚ) :=
  pairs.filterMap fun (asset, krwSym, usdSym) => (rate (price krwSym) (price usdSym)).map fun v => (asset, v)

def dev (mid v : ℚ) : ℚ := binary64 (binary64 (|binary64 (v - mid)| / mid) * 100)

/-- `worst_asset`, `worst_dev`. -/
def worst (mid : ℚ) (fx : List (String × ℚ)) : Option String × ℚ :=
  fx.foldl (fun w p => if w.2 < dev mid p.2 then (some p.1, dev mid p.2) else w) (none, 0)

def seconds (tsNs : ℤ) : ℚ := binary64 (binary64 tsNs / 10 ^ 9)

/-- `now - t`. -/
def since (tsNs : ℤ) (t : ℚ) : ℚ := binary64 (seconds tsNs - t)

namespace CrossVenueCheck

def observe (c : CrossVenueCheck) (t : Tick) : CrossVenueCheck :=
  { c with prices := upsert Prod.fst (fun _ r => r) c.prices (t.key, t.price) }

def price (c : CrossVenueCheck) (sym : String) : Option ℚ := (lookup Prod.fst sym c.prices).map Prod.snd

def impliedFx (c : CrossVenueCheck) : CrossVenueCheck := { c with implied := rates c.price }

/-- The median of the rates, if one is farther from it than it may be. -/
def verdict (c : CrossVenueCheck) : Option ℚ :=
  if c.implied.length < c.minAssets then none
  else
    -- `minAssets_pos`: there is a median
    match Ranks.median (c.implied.map Prod.snd) with
    | none => none
    | some mid => if mid ≤ 0 then none else if (worst mid c.implied).2 < c.divergencePct then none else some mid

def cooling (c : CrossVenueCheck) (tsNs : ℤ) : Bool := c.lastFire.any fun t => decide (since tsNs t < 60)

variable (text : Text)

def event (c : CrossVenueCheck) (mid : ℚ) (tsNs : ℤ) : QualityEvent ℚ :=
  ⟨tsNs, "cross_venue", "WARNING", "CROSS", (worst mid c.implied).1.getD "?",
    "암묵 환율이 자산마다 " ++ text.percent (worst mid c.implied).2 ++ "% 벌어짐 (중앙값 " ++ text.whole mid ++ " KRW/USD) — " ++
      " · ".intercalate ((c.implied.insertionSort fun a b => a.1 ≤ b.1).map fun p => p.1 ++ " " ++ text.whole p.2),
    (worst mid c.implied).2⟩

def check (c : CrossVenueCheck) (tsNs : ℤ) : Option (QualityEvent ℚ) × CrossVenueCheck :=
  let c := c.impliedFx
  match c.verdict with
  | none => (none, c)
  | some mid => if c.cooling tsNs then (none, c)
      else (some (c.event text mid tsNs), { c with lastFire := some (seconds tsNs) })

def onTrade (c : CrossVenueCheck) (t : Tick) : Option (QualityEvent ℚ) × CrossVenueCheck :=
  (c.observe t).check text t.tsNs

def run (c : CrossVenueCheck) (ticks : List Tick) : CrossVenueCheck × List (QualityEvent ℚ) :=
  ticks.foldl (fun w t => ((w.1.onTrade text t).2, w.2 ++ (w.1.onTrade text t).1.toList)) (c, [])

end CrossVenueCheck

open CrossVenueCheck

/-- The last price of a symbol. -/
def lastPrice (ticks : List Tick) (sym : String) : Option ℚ := (latest (fun t => some t.key) sym ticks).map Tick.price

/-- How far `v` is outside of what is right. -/
def off (lo hi v : ℚ) : ℚ := max (lo - v) (v - hi)

/-- The relative error of three roundings. -/
def slack : ℚ := (3 : ℕ) / 2 ^ 52

/-- The rates that are right. -/
def right (lo hi : ℚ) (fx : List (String × ℚ)) : ℕ := fx.countP fun p => decide (lo ≤ p.2) && decide (p.2 ≤ hi)

/-! ## The coin that is farthest from the median -/

theorem worst_concat (mid : ℚ) (fx : List (String × ℚ)) (p : String × ℚ) :
    worst mid (fx ++ [p]) = if (worst mid fx).2 < dev mid p.2 then (some p.1, dev mid p.2) else worst mid fx := by
  rw [worst, List.foldl_append]
  rfl

theorem dev_le_worst (mid : ℚ) {fx : List (String × ℚ)} {p : String × ℚ} (h : p ∈ fx) :
    dev mid p.2 ≤ (worst mid fx).2 := by
  induction fx using List.reverseRecOn with
  | nil => cases h
  | append_singleton fx q ih =>
    rw [worst_concat]
    rcases List.mem_append.1 h with h | h
    · split_ifs with hlt
      · exact (ih h).trans hlt.le
      · exact ih h
    · obtain rfl := List.mem_singleton.1 h
      split_ifs with hlt
      · exact le_rfl
      · exact not_lt.1 hlt

/-- It is one of them, unless all are the median. -/
theorem worst_mem (mid : ℚ) (fx : List (String × ℚ)) : worst mid fx = (none, 0) ∨
    ∃ p ∈ fx, worst mid fx = (some p.1, dev mid p.2) := by
  induction fx using List.reverseRecOn with
  | nil => exact .inl rfl
  | append_singleton fx q ih =>
    rw [worst_concat]
    split_ifs with hlt
    · exact .inr ⟨q, by simp, rfl⟩
    · rcases ih with h | ⟨p, hp, h⟩
      · exact .inl h
      · exact .inr ⟨p, List.mem_append_left [q] hp, h⟩

theorem worst_nonneg (mid : ℚ) (fx : List (String × ℚ)) : 0 ≤ (worst mid fx).2 := by
  induction fx using List.reverseRecOn with
  | nil => exact le_rfl
  | append_singleton fx q ih =>
    rw [worst_concat]
    split_ifs with hlt
    · exact ih.trans hlt.le
    · exact ih

/-! ## What is outside, and what the median makes of it -/

section Distance

variable {lo hi mid v : ℚ}

theorem off_le (hlo : lo ≤ mid) (hhi : mid ≤ hi) : off lo hi v ≤ |v - mid| := by
  refine max_le ?_ ?_
  · linarith [neg_le_abs (v - mid)]
  · linarith [le_abs_self (v - mid)]

theorem abs_le_of_right (hlo : lo ≤ mid) (hhi : mid ≤ hi) (hv : off lo hi v ≤ 0) : |v - mid| ≤ hi - lo := by
  obtain ⟨h1, h2⟩ := max_le_iff.1 hv
  rw [abs_le]
  constructor <;> linarith

/-- Three operations round. -/
theorem dev_rounded (mid v : ℚ) : Rounded 3 (dev mid v) (|v - mid| / mid * 100) := by
  have hsub : Rounded 1 (binary64 (v - mid)) (v - mid) := (rounded_self (v - mid)).round (by norm_num)
  have hdiv : Rounded 2 (binary64 (|binary64 (v - mid)| / mid)) (|v - mid| / mid) :=
    (hsub.abs.div mid).round (by norm_num)
  exact (hdiv.mul 100).round (by norm_num)

theorem dev_bounds (hmid : 0 < mid) :
    |v - mid| * 100 * (1 - slack) ≤ mid * dev mid v ∧ mid * dev mid v ≤ |v - mid| * 100 * (1 + slack) := by
  have hexact : (0 : ℚ) ≤ |v - mid| / mid * 100 := by positivity
  have hscale : mid * (|v - mid| / mid * 100) = |v - mid| * 100 := by
    field_simp
  obtain ⟨hlow, hhigh⟩ := (dev_rounded mid v).bounds hexact
  rw [slack, ← hscale, mul_assoc mid, mul_assoc mid]
  exact ⟨mul_le_mul_of_nonneg_left hlow hmid.le, mul_le_mul_of_nonneg_left hhigh hmid.le⟩

variable {fx : List (String × ℚ)} {d : ℚ}

/-- Where all are right and agree, none is far from the median. -/
theorem worst_lt (hlo : 0 < lo) (hlow : lo ≤ mid) (hhigh : mid ≤ hi) (hall : ∀ p ∈ fx, off lo hi p.2 ≤ 0)
    (hagree : (hi - lo) * 100 * (1 + slack) < lo * d) : (worst mid fx).2 < d := by
  have hslack : 0 ≤ slack := by norm_num [slack]
  have hdpos : 0 < d := by
    have : 0 ≤ (hi - lo) * 100 * (1 + slack) := mul_nonneg (by linarith) (by linarith)
    exact pos_of_mul_pos_right (this.trans_lt hagree) hlo.le
  have hmid : 0 < mid := hlo.trans_le hlow
  rcases worst_mem mid fx with h | ⟨p, hp, h⟩
  · rw [h]
    exact hdpos
  · rw [h]
    refine lt_of_mul_lt_mul_left ?_ hmid.le
    calc mid * dev mid p.2 ≤ |p.2 - mid| * 100 * (1 + slack) := (dev_bounds hmid).2
      _ ≤ (hi - lo) * 100 * (1 + slack) := by
        gcongr
        exact abs_le_of_right hlow hhigh (hall p hp)
      _ < lo * d := hagree
      _ ≤ mid * d := mul_le_mul_of_nonneg_right hlow hdpos.le

/-- One that is farther out than the right ones are wide takes the place of every right one. -/
theorem worst_is_off (hmid : 0 < mid) (hlow : lo ≤ mid) (hhigh : mid ≤ hi) {b : String × ℚ} (hb : b ∈ fx)
    (hfar : (hi - lo) * (1 + slack) < off lo hi b.2 * (1 - slack)) :
    ∃ p ∈ fx, worst mid fx = (some p.1, dev mid p.2) ∧ 0 < off lo hi p.2 := by
  have hslack : 0 ≤ slack ∧ slack ≤ 1 := by norm_num [slack]
  have hworst : (hi - lo) * (1 + slack) * 100 < mid * (worst mid fx).2 :=
    calc (hi - lo) * (1 + slack) * 100 < off lo hi b.2 * (1 - slack) * 100 := by linarith
      _ = off lo hi b.2 * (100 * (1 - slack)) := by ring
      _ ≤ |b.2 - mid| * (100 * (1 - slack)) := mul_le_mul_of_nonneg_right (off_le hlow hhigh) (by linarith)
      _ = |b.2 - mid| * 100 * (1 - slack) := by ring
      _ ≤ mid * dev mid b.2 := (dev_bounds hmid).1
      _ ≤ mid * (worst mid fx).2 := mul_le_mul_of_nonneg_left (dev_le_worst mid hb) hmid.le
  rcases worst_mem mid fx with h | ⟨p, hp, h⟩
  · exfalso
    have hwide : 0 ≤ (hi - lo) * (1 + slack) * 100 := mul_nonneg (mul_nonneg (by linarith) (by linarith)) (by norm_num)
    rw [h, mul_zero] at hworst
    exact absurd hworst (not_lt.2 hwide)
  · refine ⟨p, hp, h, ?_⟩
    by_contra hright
    have hnear : |p.2 - mid| ≤ hi - lo := abs_le_of_right hlow hhigh (not_lt.1 hright)
    have hle : mid * (worst mid fx).2 ≤ (hi - lo) * (1 + slack) * 100 := by
      rw [h]
      calc mid * dev mid p.2 ≤ |p.2 - mid| * 100 * (1 + slack) := (dev_bounds hmid).2
        _ ≤ (hi - lo) * 100 * (1 + slack) := by
          gcongr
          linarith
        _ = (hi - lo) * (1 + slack) * 100 := by ring
    exact absurd hworst (not_lt.2 hle)

theorem le_worst (hmid : 0 < mid) (hlow : lo ≤ mid) (hhigh : mid ≤ hi) {b : String × ℚ} (hb : b ∈ fx)
    (hfar : hi * d ≤ off lo hi b.2 * 100 * (1 - slack)) : d ≤ (worst mid fx).2 := by
  have hslack : 0 ≤ 1 - slack := by norm_num [slack]
  rcases le_total d 0 with hneg | hpos
  · exact hneg.trans (worst_nonneg mid fx)
  · refine le_trans (le_of_mul_le_mul_left ?_ hmid) (dev_le_worst mid hb)
    calc mid * d ≤ hi * d := mul_le_mul_of_nonneg_right hhigh hpos
      _ ≤ off lo hi b.2 * 100 * (1 - slack) := hfar
      _ ≤ |b.2 - mid| * 100 * (1 - slack) := by
        gcongr
        exact off_le hlow hhigh
      _ ≤ mid * dev mid b.2 := (dev_bounds hmid).1

end Distance

/-! ## What the verdict says -/

section Verdict

variable {c : CrossVenueCheck} {mid : ℚ}

theorem verdict_eq_some_iff :
    c.verdict = some mid ↔
      c.minAssets ≤ c.implied.length ∧ Ranks.median (c.implied.map Prod.snd) = some mid ∧ 0 < mid ∧
      c.divergencePct ≤ (worst mid c.implied).2 := by
  unfold verdict
  split_ifs with hfew
  · simp [hfew]
  · rw [not_lt] at hfew
    cases Ranks.median (c.implied.map Prod.snd) with
    | none => simp
    | some m =>
      simp only [Option.some.injEq]
      split_ifs with hm hw
      · have : ¬ (m = mid ∧ 0 < mid) := by
          rintro ⟨rfl, h⟩
          exact absurd h (not_lt.2 hm)
        simpa [hfew] using fun h1 h2 => absurd ⟨h1, h2⟩ this
      · simp only [false_iff]
        rintro ⟨-, rfl, -, h⟩
        exact absurd hw (not_lt.2 h)
      · simp only [Option.some.injEq]
        constructor
        · rintro rfl
          exact ⟨hfew, rfl, not_le.1 hm, not_lt.1 hw⟩
        · exact fun h => h.2.1

/-- A majority that is right has the median in it. -/
theorem median_right {fx : List (String × ℚ)} {lo hi : ℚ} (hmost : fx.length < 2 * right lo hi fx) :
    ∃ mid, Ranks.median (fx.map Prod.snd) = some mid ∧ lo ≤ mid ∧ mid ≤ hi := by
  have hne : fx.map Prod.snd ≠ [] := by
    rintro hnil
    rw [List.map_eq_nil_iff] at hnil
    subst hnil
    simp [right] at hmost
  obtain ⟨mid, hmid⟩ := Ranks.exists_median hne
  refine ⟨mid, hmid, Ranks.median_between hmid ?_⟩
  rw [List.length_map, List.countP_map]
  exact hmost

end Verdict

/-! ## A run -/

theorem run_concat (text : Text) (c : CrossVenueCheck) (ticks : List Tick) (t : Tick) :
    c.run text (ticks ++ [t]) =
      (((c.run text ticks).1.onTrade text t).2, (c.run text ticks).2 ++
        ((c.run text ticks).1.onTrade text t).1.toList) := by
  rw [run, List.foldl_append]
  rfl

/-- That `b` comes when `a` no longer holds it back. -/
def MinuteLater (a b : QualityEvent ℚ) : Prop := 60 ≤ since b.tsNs (seconds a.tsNs)

/-- What the trades and the events so far make of the check. -/
structure After (d : ℚ) (n : ℕ) (ticks : List Tick) (w : CrossVenueCheck × List (QualityEvent ℚ)) : Prop where
  divergencePct : w.1.divergencePct = d
  minAssets : w.1.minAssets = n
  price : w.1.price = lastPrice ticks
  lastFire : w.1.lastFire = w.2.getLast?.map fun e => seconds e.tsNs
  apart : w.2.IsChain MinuteLater

section Step

variable {d : ℚ} {n : ℕ} {ticks : List Tick} {w : CrossVenueCheck × List (QualityEvent ℚ)} {text : Text} {t : Tick}

theorem price_observe (h : After d n ticks w) (t : Tick) : (w.1.observe t).price = lastPrice (ticks ++ [t]) := by
  ext1 sym
  have hbefore := congrFun h.price sym
  rw [price] at hbefore
  rw [price, observe, lookup_replace, lastPrice, latest_concat]
  by_cases hk : t.key = sym
  · simp [hk]
  · rw [if_neg hk, if_neg (by simpa using hk), hbefore, lastPrice]

/-- The rates that the check takes are those of the last prices. -/
theorem implied_onTrade (h : After d n ticks w) (t : Tick) :
    (w.1.observe t).impliedFx.implied = rates (lastPrice (ticks ++ [t])) := by
  rw [impliedFx, price_observe h]

/-- An event comes of a verdict, unless the last one is too recent. -/
theorem onTrade_cases (c : CrossVenueCheck) (text : Text) (t : Tick) :
    (∃ mid, (c.observe t).impliedFx.verdict = some mid ∧ c.cooling t.tsNs = false ∧
      c.onTrade text t = (some ((c.observe t).impliedFx.event text mid t.tsNs),
        { (c.observe t).impliedFx with lastFire := some (seconds t.tsNs) })) ∨
    (((c.observe t).impliedFx.verdict = none ∨ c.cooling t.tsNs = true) ∧
    c.onTrade text t = (none, (c.observe t).impliedFx)) := by
  have hcool : (c.observe t).impliedFx.cooling t.tsNs = c.cooling t.tsNs := rfl
  rw [onTrade, check]
  cases hv : (c.observe t).impliedFx.verdict with
  | none => exact .inr ⟨.inl rfl, by simp⟩
  | some mid =>
    cases hc : c.cooling t.tsNs with
    | true => exact .inr ⟨.inr rfl, by simp [hcool, hc]⟩
    | false => exact .inl ⟨mid, rfl, rfl, by simp [hcool, hc]⟩

theorem cooling_iff (h : After d n ticks w) (tsNs : ℤ) : w.1.cooling tsNs = true ↔
    ∃ e ∈ w.2.getLast?, since tsNs (seconds e.tsNs) < 60 := by
  rw [cooling, h.lastFire]
  cases w.2.getLast? <;> simp

theorem After.onTrade (h : After d n ticks w) (text : Text) (t : Tick) :
    After d n (ticks ++ [t]) ((w.1.onTrade text t).2, w.2 ++ (w.1.onTrade text t).1.toList) := by
  obtain ⟨mid, -, hcool, heq⟩ | ⟨-, heq⟩ := onTrade_cases w.1 text t
  · rw [heq]
    refine ⟨h.divergencePct, h.minAssets, price_observe h t, by simp [event], ?_⟩
    refine List.isChain_append.2 ⟨h.apart, List.isChain_singleton _, fun a ha b hb => ?_⟩
    obtain rfl : _ = b := Option.some.inj hb
    -- else the last event would have held it back
    by_contra hsoon
    have := (cooling_iff h t.tsNs).2 ⟨a, ha, not_le.1 hsoon⟩
    rw [hcool] at this
    cases this
  · rw [heq]
    exact ⟨h.divergencePct, h.minAssets, price_observe h t, by simpa [impliedFx, observe]
      using h.lastFire, by simpa using h.apart⟩

end Step

theorem after_run (text : Text) (d : ℚ) {n : ℕ} (hn : 0 < n) (ticks : List Tick) :
    After d n ticks ((fresh d n hn).run text ticks) := by
  induction ticks using List.reverseRecOn with
  | nil => exact ⟨rfl, rfl, rfl, rfl, List.IsChain.nil⟩
  | append_singleton ticks t ih =>
    rw [run_concat]
    exact ih.onTrade text t

/-- **The reports are a minute apart, and while more than half of the rates are right:** nothing is reported if all
are and agree well enough, a coin is only named whose rate is wrong if one is far out, and one far out is reported
unless something was in the last minute. -/
theorem outlier_named (text : Text) (d : ℚ) {n : ℕ} (hn : 0 < n) (ticks : List Tick) (t : Tick) :
    let fx := rates (lastPrice (ticks ++ [t]))
    let w := (fresh d n hn).run text ticks
    let ev := (w.1.onTrade text t).1
    (w.2 ++ ev.toList).IsChain MinuteLater ∧
      ∀ lo hi : ℚ, 0 < lo → fx.length < 2 * right lo hi fx →
        ((∀ p ∈ fx, off lo hi p.2 ≤ 0) → (hi - lo) * 100 * (1 + slack) < lo * d → ev = none) ∧
          ((∃ p ∈ fx, 0 < off lo hi p.2) →
            (∀ p ∈ fx, 0 < off lo hi p.2 → (hi - lo) * (1 + slack) < off lo hi p.2 * (1 - slack)) →
              ∀ e ∈ ev, ∃ p ∈ fx, e.symbol = p.1 ∧ 0 < off lo hi p.2) ∧
          (n ≤ fx.length → (∃ p ∈ fx, hi * d ≤ off lo hi p.2 * 100 * (1 - slack)) →
            ev.isSome ∨ ∃ e ∈ w.2, since t.tsNs (seconds e.tsNs) < 60) := by
  intro fx w ev
  have hafter : After d n ticks w := after_run text d hn ticks
  refine ⟨(hafter.onTrade text t).apart, fun lo hi hlo hmost => ?_⟩
  have hfx : (w.1.observe t).impliedFx.implied = fx := implied_onTrade hafter t
  have hd : (w.1.observe t).impliedFx.divergencePct = d := hafter.divergencePct
  obtain ⟨mid, hmedian, hlow, hhigh⟩ := median_right hmost
  have hmid : 0 < mid := hlo.trans_le hlow
  have hverdict (m : ℚ) : (w.1.observe t).impliedFx.verdict = some m ↔ n ≤ fx.length ∧ mid = m ∧ 0 < m ∧
      d ≤ (worst m fx).2 := by
    rw [verdict_eq_some_iff, hfx, hd, hmedian, Option.some_inj, show (w.1.observe t).impliedFx.minAssets =
      n from hafter.minAssets]
  have hcases := onTrade_cases w.1 text t
  refine ⟨fun hall hagree => ?_, fun ⟨b, hb, hbad⟩ hfar e he => ?_, fun henough ⟨b, hb, hbad⟩ => ?_⟩
  · obtain ⟨m, hv, -, -⟩ | ⟨-, heq⟩ := hcases
    · obtain ⟨-, rfl, -, hworst⟩ := (hverdict m).1 hv
      exact absurd (worst_lt hlo hlow hhigh hall hagree) (not_lt.2 hworst)
    · exact congrArg Prod.fst heq
  · obtain ⟨m, hv, -, heq⟩ | ⟨-, heq⟩ := hcases
    · obtain ⟨-, rfl, -, -⟩ := (hverdict m).1 hv
      obtain ⟨p, hp, hworst, hoff⟩ := worst_is_off hmid hlow hhigh hb (hfar b hb hbad)
      refine ⟨p, hp, ?_, hoff⟩
      have hev : some e = some _ := (Option.mem_def.1 he).symm.trans (congrArg Prod.fst heq)
      rw [Option.some.inj hev, event, hfx, hworst]
      rfl
    · have hev : some e = none := (Option.mem_def.1 he).symm.trans (congrArg Prod.fst heq)
      cases hev
  · have hv := (hverdict mid).2 ⟨henough, rfl, hmid, le_worst hmid hlow hhigh hb hbad⟩
    obtain ⟨m, -, -, heq⟩ | ⟨hno, -⟩ := hcases
    · exact .inl (by rw [show ev = _ from congrArg Prod.fst heq]; rfl)
    · rw [hv] at hno
      obtain ⟨e, he, hlt⟩ := (cooling_iff hafter t.tsNs).1 (hno.resolve_left (by simp))
      exact .inr ⟨e, List.mem_of_getLast? he, hlt⟩

def plain : Text := ⟨toString, toString⟩

/-- At 1500 won for a dollar, but for the third coin. -/
def agreeing : List Tick :=
  [⟨"UPBIT", "KRW-BTC", 150000000, 0⟩, ⟨"BINANCE", "BTCUSDT", 100000, 0⟩, ⟨"UPBIT", "KRW-ETH", 6000000, 0⟩,
    ⟨"BINANCE", "ETHUSDT", 4000, 0⟩,
    ⟨"BINANCE", "SOLUSDT", 100, 0⟩]

theorem sol_named : ∃ e ∈ (((fresh 3 3 (by decide)).run plain agreeing).1.onTrade plain ⟨"UPBIT", "KRW-SOL", 210000,
    1⟩).1, e.symbol = "SOL" := by
  have hfx : rates (lastPrice (agreeing ++ [⟨"UPBIT", "KRW-SOL", 210000, 1⟩])) = [("BTC", 1500), ("ETH", 1500),
      ("SOL", 2100)] := by decide +kernel
  obtain ⟨-, hmost⟩ := outlier_named plain 3 (n := 3) (by decide) agreeing ⟨"UPBIT", "KRW-SOL", 210000, 1⟩
  rw [hfx] at hmost
  obtain ⟨-, hnamed, hheard⟩ := hmost 1500 1500 (by decide +kernel) (by decide +kernel)
  have hnone : ((fresh (3 : ℚ) 3 (by decide)).run plain agreeing).2.isEmpty = true := by decide +kernel
  rcases hheard (by decide) (by decide +kernel) with hev | ⟨e, he, -⟩
  · obtain ⟨e, he⟩ := Option.isSome_iff_exists.1 hev
    obtain ⟨p, hp, hsym, hoff⟩ := hnamed (by decide +kernel) (by decide +kernel) e he
    refine ⟨e, he, hsym.trans ?_⟩
    have hsol : ∀ q ∈ [("BTC", (1500 : ℚ)), ("ETH", 1500), ("SOL", 2100)], 0 < off 1500 1500 q.2 →
        q.1 = "SOL" := by decide +kernel
    exact hsol p hp hoff
  · rw [List.isEmpty_iff.1 hnone] at he
    cases he

end Quality.CrossVenue
