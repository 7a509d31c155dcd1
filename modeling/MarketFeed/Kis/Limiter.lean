import MarketFeed.Lib.Run
import Mathlib.Algebra.Order.Field.Basic
import Mathlib.Algebra.Order.Field.Rat
import Mathlib.Data.List.Chain
import Mathlib.Tactic.Linarith
import Mathlib.Tactic.NormNum
/-!
# `AdaptiveRateLimiter` (adapters/kis_rest.py:84-146)

`acquire` holds its lock while it sleeps; `on_success` and `on_rate_limited` do not take the lock, so they
run while an `acquire` is asleep. Times are exact, and a sleep may last longer than it was asked to.

| here | there |
| --- | --- |
| `World.clock` | `time.monotonic()` |
| `World.sleeper` | the time up to which the `acquire` that holds the lock asked to sleep |
| `World.limits`, `World.grants` | the calls of `on_rate_limited` and the returns of `acquire`, newest first |
| `Act.wake`, `Act.cancel` | the sleep is over, or its task is cancelled; what has slept goes on without a look at `_next` |

An `acquire` that is asleep when `on_rate_limited` moves `_next` wakes at the time it read before, and where
`max_interval` is below the interval, `on_rate_limited` makes the interval smaller (`paced`, `unpaced`).
-/

namespace Kis.Limiter

structure AdaptiveRateLimiter where
  baseInterval : ℚ
  minInterval : ℚ
  interval : ℚ
  maxInterval : ℚ
  next : ℚ
  okStreak : ℕ
  backoffs : ℕ
  attempts : ℕ
  deriving DecidableEq

namespace AdaptiveRateLimiter

/-- `max_per_second or per_second`. -/
def ceiling (perSecond : ℚ) : Option ℚ → ℚ
  | none => perSecond
  | some m => if m = 0 then perSecond else m

def new (perSecond maxInterval : ℚ) (maxPerSecond : Option ℚ) : AdaptiveRateLimiter where
  baseInterval := 1 / perSecond
  minInterval := 1 / max (ceiling perSecond maxPerSecond) perSecond
  interval := 1 / perSecond
  maxInterval := maxInterval
  next := 0
  okStreak := 0
  backoffs := 0
  attempts := 0

/-- The last line of `acquire`. -/
def grant (l : AdaptiveRateLimiter) (now : ℚ) : AdaptiveRateLimiter := { l with next := max now l.next + l.interval }

def onSuccess (l : AdaptiveRateLimiter) : AdaptiveRateLimiter :=
  let l := { l with okStreak := l.okStreak + 1, attempts := l.attempts + 1 }
  if 8 ≤ l.okStreak ∧ l.minInterval < l.interval then
    { l with interval := max l.minInterval (l.interval * (9 / 10)), okStreak := 0 } else l

def onRateLimited (l : AdaptiveRateLimiter) (now : ℚ) : AdaptiveRateLimiter :=
  let l := { l with okStreak := 0, backoffs := l.backoffs + 1, attempts := l.attempts + 1, interval := min l.maxInterval (l.interval * (23 / 20)) }
  { l with next := max l.next (now + l.interval) }

end AdaptiveRateLimiter

/-- A call of `on_rate_limited`: when, and the interval before and after. -/
structure Limit where
  time : ℚ
  before : ℚ
  after : ℚ
  deriving DecidableEq

/-- The return of an `acquire`, with the latest call of `on_rate_limited` before it. -/
structure Grant where
  time : ℚ
  limit : Option Limit
  deriving DecidableEq

structure World where
  limiter : AdaptiveRateLimiter
  clock : ℚ
  sleeper : Option ℚ
  limits : List Limit
  grants : List Grant
  deriving DecidableEq

inductive Act
  | advance (dt : ℚ)
  | acquire
  | wake
  | cancel
  | onSuccess
  | onRateLimited
  deriving DecidableEq

namespace World

def start (perSecond maxInterval : ℚ) (maxPerSecond : Option ℚ) (clock : ℚ) : World :=
  ⟨.new perSecond maxInterval maxPerSecond, clock, none, [], []⟩

def grant (w : World) : World :=
  { w with limiter := w.limiter.grant w.clock, sleeper := none, grants := ⟨w.clock, w.limits.head?⟩ :: w.grants }

def onRateLimited (w : World) : World :=
  let l := w.limiter.onRateLimited w.clock
  { w with limiter := l, limits := ⟨w.clock, w.limiter.interval, l.interval⟩ :: w.limits }

def step (w : World) : Act → Option World
  | .advance dt => if 0 ≤ dt then some { w with clock := w.clock + dt } else none
  | .acquire =>
    match w.sleeper with
    | some _ => none
    | none => some (if 0 < w.limiter.next - w.clock then { w with sleeper := some w.limiter.next } else w.grant)
  | .wake => w.sleeper.bind fun t => if t ≤ w.clock then some w.grant else none
  | .cancel => w.sleeper.map fun _ => { w with sleeper := none }
  | .onSuccess => some { w with limiter := w.limiter.onSuccess }
  | .onRateLimited => some w.onRateLimited

end World

/-- What the limiter is for. -/
structure Paced (w : World) : Prop where
  lower : w.limiter.minInterval ≤ w.limiter.interval
  upper : w.limiter.interval ≤ max w.limiter.baseInterval w.limiter.maxInterval
  raised : ∀ l ∈ w.limits, l.before ≤ l.after
  backedOff : ∀ g ∈ w.grants, ∀ l, g.limit = some l → l.time + l.after ≤ g.time
  spaced : w.grants.IsChain fun g g' => g'.time + w.limiter.minInterval ≤ g.time

/-- `on_rate_limited` finds the interval below `max_interval`, and no `acquire` asleep up to a time before the one it
sets. -/
def Meets (w : World) : Act → Prop
  | .onRateLimited => w.limiter.interval ≤ w.limiter.maxInterval ∧
    ∀ t ∈ w.sleeper, w.clock + (w.limiter.onRateLimited w.clock).interval ≤ t
  | _ => True

instance (w : World) : ∀ a, Decidable (Meets w a)
  | .onRateLimited => inferInstanceAs (Decidable (_ ∧ ∀ t ∈ w.sleeper, _))
  | .advance _ | .acquire | .wake | .cancel | .onSuccess => .isTrue trivial

/-! ## The invariant -/

/-- From `t` on the latest call of `on_rate_limited` and the last grant are far enough behind. -/
structure Due (w : World) (t : ℚ) : Prop where
  limit : ∀ l, w.limits.head? = some l → l.time + l.after ≤ t
  grant : ∀ g, w.grants.head? = some g → g.time + w.limiter.minInterval ≤ t

structure Inv (w : World) : Prop extends Paced w where
  positive : 0 < w.limiter.minInterval
  next : Due w w.limiter.next
  sleeper : ∀ t, w.sleeper = some t → Due w t

theorem Due.mono {w : World} {t t' : ℚ} (h : Due w t) (ht : t ≤ t') : Due w t' :=
  ⟨fun l hl => (h.limit l hl).trans ht, fun g hg => (h.grant g hg).trans ht⟩

theorem inv_start {perSecond : ℚ} (hrate : 0 < perSecond) (maxInterval : ℚ) (maxPerSecond : Option ℚ) (clock : ℚ) :
    Inv (.start perSecond maxInterval maxPerSecond clock) := by
  have hmax : perSecond ≤ max (AdaptiveRateLimiter.ceiling perSecond maxPerSecond) perSecond := le_max_right _ _
  have hpos : 0 < max (AdaptiveRateLimiter.ceiling perSecond maxPerSecond) perSecond := lt_of_lt_of_le hrate hmax
  refine ⟨⟨?_, le_max_left _ _, fun _ hl => (by cases hl), fun _ hg => (by cases hg), .nil⟩, one_div_pos.2 hpos,
    ⟨fun _ hl => (by cases hl),
    fun _ hg => (by cases hg)⟩, fun _ ht => (by cases ht)⟩
  exact one_div_le_one_div_of_le hrate hmax

/-- Time passes, and an `acquire` goes to sleep up to a time from which a grant is due, or is cancelled. -/
theorem Inv.sleeps {w : World} (h : Inv w) (clock : ℚ) {sleeper : Option ℚ} (ht : ∀ t, sleeper = some t → Due w t) :
    Inv { w with clock := clock, sleeper := sleeper } :=
  ⟨⟨h.lower, h.upper, h.raised, h.backedOff, h.spaced⟩, h.positive, ⟨h.next.limit, h.next.grant⟩,
    fun t hs => ⟨(ht t hs).limit, (ht t hs).grant⟩⟩

/-- A grant at a time from which it is due. -/
theorem Inv.grant {w : World} (h : Inv w) (hdue : Due w w.clock) : Inv w.grant := by
  have hnext : w.clock + w.limiter.minInterval ≤ max w.clock w.limiter.next + w.limiter.interval := add_le_add (le_max_left _ _) h.lower
  have hpos : (0 : ℚ) ≤ w.limiter.interval := h.positive.le.trans h.lower
  refine ⟨⟨h.lower, h.upper, h.raised, ?_, ?_⟩, h.positive, ⟨fun l hl => ?_, fun g hg => ?_⟩, fun _ ht => (by cases ht)⟩
  · intro g hg l hl
    rcases List.mem_cons.1 hg with rfl | hg
    · exact hdue.limit l hl
    · exact h.backedOff g hg l hl
  · exact List.isChain_cons.2 ⟨fun g hg => hdue.grant g hg, h.spaced⟩
  · calc l.time + l.after ≤ w.limiter.next := h.next.limit l hl
      _ ≤ max w.clock w.limiter.next + w.limiter.interval := le_add_of_le_of_nonneg (le_max_right _ _) hpos
  · obtain rfl := Option.some.inj hg
    exact hnext

theorem Inv.onSuccess {w : World} (h : Inv w) : Inv { w with limiter := w.limiter.onSuccess } := by
  have hmin : w.limiter.onSuccess.minInterval = w.limiter.minInterval := by simp only [AdaptiveRateLimiter.onSuccess]; split <;> rfl
  have hnext : w.limiter.onSuccess.next = w.limiter.next := by simp only [AdaptiveRateLimiter.onSuccess]; split <;> rfl
  have hbounds : max w.limiter.onSuccess.baseInterval w.limiter.onSuccess.maxInterval = max w.limiter.baseInterval
      w.limiter.maxInterval := by
    simp only [AdaptiveRateLimiter.onSuccess]; split <;> rfl
  have hlower := h.lower
  have hpos := h.positive
  have hless : w.limiter.onSuccess.interval ≤ w.limiter.interval ∧
      w.limiter.minInterval ≤ w.limiter.onSuccess.interval := by
    simp only [AdaptiveRateLimiter.onSuccess]
    split
    · exact ⟨max_le hlower (by linarith), le_max_left _ _⟩
    · exact ⟨le_refl _, hlower⟩
  refine ⟨⟨?_, ?_, h.raised, h.backedOff, ?_⟩, ?_, ⟨?_, ?_⟩, fun t ht => ⟨?_, ?_⟩⟩ <;> simp only [hmin, hnext, hbounds]
  · exact hless.2
  · exact hless.1.trans h.upper
  · exact h.spaced
  · exact hpos
  · exact h.next.limit
  · exact h.next.grant
  · exact (h.sleeper t ht).limit
  · exact (h.sleeper t ht).grant

/-- A call that finds the interval within its bound raises it, and a sleeper that wakes later is not overtaken. -/
theorem Inv.onRateLimited {w : World} (h : Inv w) (hmeets : Meets w .onRateLimited) : Inv w.onRateLimited := by
  obtain ⟨hbound, hsleeper⟩ := hmeets
  have hpos : (0 : ℚ) ≤ w.limiter.interval := h.positive.le.trans h.lower
  have hraised : w.limiter.interval ≤ min w.limiter.maxInterval (w.limiter.interval * (23 / 20)) := le_min hbound (by linarith)
  have hnext : w.limiter.next ≤ (w.limiter.onRateLimited w.clock).next := le_max_left _ _
  have hlater : w.clock + (w.limiter.onRateLimited w.clock).interval ≤ (w.limiter.onRateLimited w.clock).next :=
    le_max_right _ _
  refine ⟨⟨h.lower.trans hraised, (min_le_left _ _).trans (le_max_right _ _), ?_, h.backedOff, h.spaced⟩, h.positive,
    ⟨?_, ?_⟩, fun t ht => ⟨?_, ?_⟩⟩
  · exact fun l hl => (List.mem_cons.1 hl).elim (fun he => by rw [he]; exact hraised) (h.raised l)
  · intro l hl
    obtain rfl := Option.some.inj hl
    exact hlater
  · exact (h.next.mono hnext).grant
  · intro l hl
    obtain rfl := Option.some.inj hl
    exact hsleeper t ht
  · exact (h.sleeper t ht).grant

theorem inv_step {w w' : World} {a : Act} (h : Inv w) (hmeets : Meets w a) (hst : w.step a = some w') : Inv w' := by
  cases a with
  | advance dt =>
    obtain ⟨-, he⟩ := Option.ite_none_right_eq_some.1 hst
    cases he
    exact h.sleeps (w.clock + dt) h.sleeper
  | acquire =>
    simp only [World.step] at hst
    split at hst
    · cases hst
    · cases hst
      split
      · exact h.sleeps w.clock fun t ht => Option.some.inj ht ▸ h.next
      · rename_i hdue
        exact h.grant (h.next.mono (by linarith))
  | wake =>
    obtain ⟨t, ht, hst⟩ := Option.bind_eq_some_iff.1 hst
    obtain ⟨hle, he⟩ := Option.ite_none_right_eq_some.1 hst
    cases he
    exact h.grant ((h.sleeper t ht).mono hle)
  | cancel =>
    obtain ⟨t, -, rfl⟩ := Option.map_eq_some_iff.1 hst
    exact h.sleeps w.clock fun _ ht => (by cases ht)
  | onSuccess =>
    cases hst
    exact h.onSuccess
  | onRateLimited =>
    cases hst
    exact h.onRateLimited hmeets

/-! ## Runs -/

/-- **The limiter keeps its pace** where `on_rate_limited` never finds an interval above `max_interval` or an
`acquire` about to wake. -/
theorem paced (perSecond maxInterval : ℚ) (maxPerSecond : Option ℚ) (clock : ℚ) (hrate : 0 < perSecond)
    (as : List Act) (w : World)
    (h : Lts.Run World.step Meets (.start perSecond maxInterval maxPerSecond clock) as w) : Paced w :=
  (h.invariant (inv_start hrate maxInterval maxPerSecond clock) fun _ _ _ hi hm hst => inv_step hi hm hst).toPaced

/-- A request refused before the next `acquire` goes to sleep. -/
theorem paced_refused : ∃ w, Lts.Run World.step Meets (.start 3 2 (some 5) 100)
    [.acquire, .onRateLimited, .acquire, .advance 1, .wake] w ∧ Paced w := by
  have hex : ∃ w, Lts.Run World.step Meets (.start 3 2 (some 5) 100) [.acquire, .onRateLimited, .acquire, .advance 1, .wake] w ∧
      w.grants.length = 2 := Lts.exists_run (by decide +kernel)
  obtain ⟨w, hrun, -⟩ := hex
  exact ⟨w, hrun, paced 3 2 (some 5) 100 (by norm_num) _ w hrun⟩

/-- **An `acquire` returns right after a refusal**: at 1 s, when `on_rate_limited` has asked for 1.15 s from 0.9 s on.
And **a refusal makes the interval smaller**, below `min_interval`, where the rate is one in four seconds. -/
theorem unpaced :
    (∃ w, Lts.Run World.step Lts.anyStep (.start 1 2 none 0) [.acquire, .acquire, .advance (9 / 10), .onRateLimited,
      .advance (1 / 10), .wake] w ∧
      ¬ Paced w) ∧
    ∃ w, Lts.Run World.step Lts.anyStep (.start (1 / 4) 2 none 0) [.onRateLimited] w ∧
    ¬ w.limiter.minInterval ≤ w.limiter.interval ∧ ¬ Paced w := by
  constructor
  · have hex : ∃ w g, Lts.Run World.step Lts.anyStep (.start 1 2 none 0)
        [.acquire, .acquire, .advance (9 / 10), .onRateLimited, .advance (1 / 10), .wake] w ∧ w.grants.head? = some g ∧
        g ∈ w.grants ∧ g.limit = some ⟨9 / 10, 1, 23 / 20⟩ ∧ g.time = 1 := Lts.exists_run_some (by decide +kernel)
    obtain ⟨w, g, hrun, -, hg, hlimit, htime⟩ := hex
    refine ⟨w, hrun, fun h => ?_⟩
    have hoff := h.backedOff g hg _ hlimit
    rw [htime] at hoff
    norm_num at hoff
  · have hex : ∃ w, Lts.Run World.step Lts.anyStep (.start (1 / 4) 2 none 0) [.onRateLimited] w ∧
        ¬ w.limiter.minInterval ≤ w.limiter.interval := Lts.exists_run (by decide +kernel)
    obtain ⟨w, hrun, hsmall⟩ := hex
    exact ⟨w, hrun, hsmall, fun h => hsmall h.lower⟩

end Kis.Limiter
