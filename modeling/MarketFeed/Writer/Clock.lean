import MarketFeed.Lib.Binary64
/-!
# The clock estimator (clock.py:34-84, models.py:172-175)

Latencies and clock readings are binary64 numbers, written as the rationals they are, and every
operation rounds its exact result (`binary64`). The magnitudes here are far from overflow and from the
subnormal range.

| here | there |
| --- | --- |
| `rawUs` | `Trade.latency_us` |
| `SkewEstimator.roll`, `.observe`, `.offsetUs` | `_roll`, `observe`, `offset_us` |
| `ClockMonitor` | `_est`, the estimator of each venue |
-/

namespace Clock

open Double

/-- `(ts_recv_ns - ts_event_ns) / 1_000.0`. -/
def rawUs (tsRecvNs tsEventNs : Nat) : ℚ := binary64 (binary64 ((tsRecvNs : ℚ) - tsEventNs) / 1000)

structure SkewEstimator where
  buckets : List (Option ℚ)
  bucketS : ℚ
  curIdx : Nat
  curStart : ℚ
  deriving DecidableEq

/-- `SkewEstimator(window_s)`, with `buckets=10`. -/
def SkewEstimator.new (windowS now : ℚ) : SkewEstimator := ⟨List.replicate 10 none, binary64 (windowS / 10), 0, now⟩

/-- One turn of the loop of `_roll`. -/
def SkewEstimator.advance (e : SkewEstimator) : SkewEstimator :=
  let i := (e.curIdx + 1) % e.buckets.length
  { e with curIdx := i, buckets := e.buckets.set i none }

def SkewEstimator.roll (e : SkewEstimator) (now : ℚ) : SkewEstimator :=
  let elapsed := binary64 (now - e.curStart)
  if elapsed < e.bucketS then e
  else
    let steps := min ⌊binary64 (elapsed / e.bucketS)⌋.toNat e.buckets.length
    let e' := (SkewEstimator.advance)^[steps] e
    { e' with curStart := binary64 (e.curStart + binary64 (steps * e.bucketS)) }

/-- `if b is None or raw_us < b: self._buckets[self._cur_idx] = raw_us`. -/
def SkewEstimator.record (e : SkewEstimator) (rawUs : ℚ) : SkewEstimator :=
  match (e.buckets[e.curIdx]?).join with
  | none => { e with buckets := e.buckets.set e.curIdx (some rawUs) }
  | some b => if rawUs < b then { e with buckets := e.buckets.set e.curIdx (some rawUs) } else e

def SkewEstimator.offsetUs (e : SkewEstimator) : ℚ :=
  match e.buckets.filterMap id with
  | [] => 0
  | v :: vs => vs.foldl min v

/-- The estimator after an observation, and the corrected latency. -/
def SkewEstimator.observe (e : SkewEstimator) (rawUs now : ℚ) : SkewEstimator × ℚ :=
  let e' := (e.roll now).record rawUs
  (e', max 0 (binary64 (rawUs - e'.offsetUs)))

abbrev ClockMonitor := List (String × SkewEstimator)

/-- `_est.get(venue)`, or a new estimator. -/
def ClockMonitor.estimator (m : ClockMonitor) (windowS : ℚ) (venue : String) (now : ℚ) : SkewEstimator :=
  match m.lookup venue with
  | some e => e
  | none => .new windowS now

def ClockMonitor.observe (m : ClockMonitor) (windowS : ℚ) (venue : String) (rawUs now : ℚ) : ClockMonitor × ℚ :=
  let r := (m.estimator windowS venue now).observe rawUs now
  ((venue, r.1) :: m.filter (·.1 ≠ venue), r.2)

/-! ## The window -/

/-- `_cur_idx` names a bucket. -/
def SkewEstimator.Ok (e : SkewEstimator) : Prop := e.curIdx < e.buckets.length

theorem new_ok (windowS now : ℚ) : (SkewEstimator.new windowS now).Ok := by
  show 0 < (List.replicate 10 (none : Option ℚ)).length
  decide

theorem advance_ok {e : SkewEstimator} (h : e.Ok) : e.advance.Ok := by
  show (e.curIdx + 1) % e.buckets.length < (e.buckets.set _ none).length
  rw [List.length_set]
  exact Nat.mod_lt _ (Nat.zero_lt_of_lt h)

theorem roll_ok {e : SkewEstimator} (h : e.Ok) (now : ℚ) : (e.roll now).Ok := by
  have hiter : ∀ (n : Nat) (e : SkewEstimator), e.Ok → (SkewEstimator.advance^[n] e).Ok := by
    intro n
    induction n with
    | zero => exact fun e he => he
    | succ n ih =>
      intro e he
      rw [Function.iterate_succ_apply]
      exact ih _ (advance_ok he)
  unfold SkewEstimator.roll
  simp only
  split
  · exact h
  · exact hiter _ e h

theorem record_ok {e : SkewEstimator} (h : e.Ok) (raw : ℚ) : (e.record raw).Ok := by
  unfold SkewEstimator.record
  split
  · show e.curIdx < (e.buckets.set _ _).length
    rw [List.length_set]
    exact h
  · split
    · show e.curIdx < (e.buckets.set _ _).length
      rw [List.length_set]
      exact h
    · exact h

theorem observe_ok {e : SkewEstimator} (h : e.Ok) (raw now : ℚ) : (e.observe raw now).1.Ok :=
  record_ok (roll_ok h now) raw

/-- After a `record` the window is not empty, and holds what it held and the observation. -/
theorem record_buckets {e : SkewEstimator} (h : e.Ok) (raw : ℚ) :
    (∃ v, some v ∈ (e.record raw).buckets) ∧ ∀ v, some v ∈ (e.record raw).buckets → v = raw ∨ some v ∈ e.buckets := by
  have hset : (∃ v, some v ∈ e.buckets.set e.curIdx (some raw)) ∧
      ∀ v, some v ∈ e.buckets.set e.curIdx (some raw) → v = raw ∨ some v ∈ e.buckets := by
    refine ⟨⟨raw, List.mem_set h (some raw)⟩, fun v hv => ?_⟩
    rcases List.mem_or_eq_of_mem_set hv with hv | hv
    · exact .inr hv
    · exact .inl (Option.some.inj hv)
  unfold SkewEstimator.record
  split
  · exact hset
  · rename_i b hb
    split
    · exact hset
    · refine ⟨⟨b, ?_⟩, fun v hv => .inr hv⟩
      rw [Option.join_eq_some_iff] at hb
      exact List.mem_of_getElem? hb

/-- The offset is one of the window. -/
theorem offset_mem {e : SkewEstimator} (h : ∃ v, some v ∈ e.buckets) : some e.offsetUs ∈ e.buckets := by
  have hfold : ∀ (vs : List ℚ) (v : ℚ), vs.foldl min v ∈ v :: vs := by
    intro vs
    induction vs with
    | nil => exact fun v => List.mem_cons_self
    | cons u us ih =>
      intro v
      rw [List.foldl_cons]
      rcases List.mem_cons.1 (ih (min v u)) with hm | hm
      · rw [hm]
        rcases min_choice v u with hc | hc
        · rw [hc]
          exact List.mem_cons_self
        · rw [hc]
          exact List.mem_cons_of_mem _ List.mem_cons_self
      · exact List.mem_cons_of_mem _ (List.mem_cons_of_mem _ hm)
  obtain ⟨v, hv⟩ := h
  have hmem : ∀ x, x ∈ e.buckets.filterMap id ↔ some x ∈ e.buckets := by simp
  unfold SkewEstimator.offsetUs
  split
  · rename_i hnil
    have := (hmem v).2 hv
    rw [hnil] at this
    cases this
  · rename_i u us hcons
    rw [← hmem, hcons]
    exact hfold us u

/-- The corrected latency is below a bound when the observation exceeds nothing left in the window by that much. -/
theorem observe_lt {e : SkewEstimator} (he : e.Ok) {raw now b : ℚ} (hb : 0 < b)
    (h : ∀ v, some v ∈ (e.roll now).buckets → binary64 (raw - v) < b) : (e.observe raw now).2 < b := by
  obtain ⟨hne, hsub⟩ := record_buckets (roll_ok he now) raw
  refine max_lt hb ?_
  rcases hsub _ (offset_mem hne) with hv | hv
  · rw [hv, sub_self]
    exact hb
  · exact h _ hv

end Clock
