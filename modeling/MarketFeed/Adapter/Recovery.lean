import Mathlib.Algebra.Order.Field.Rat
import Mathlib.Tactic.Linarith
import MarketFeed.Lib.Run
/-!
# How long a feed stays down (adapters/base.py:140-259)

The supervising loop of an adapter: a session with its watchdog, the cancelling of the one that is left over, the pause,
the next session. A session may do what it likes with its cancellation, also go on for ever; what is asked is whether
the loop ever waits for it.

| here | there |
| --- | --- |
| `Phase.session` | the wait for the first of the two tasks; `deadline` and the time of the next look are the watchdog's |
| `Phase.abandoning`, `Phase.closing` | `_abandon` of the session, and of the watchdog of a session that has ended, in one of its two attempts |
| `Phase.waiting` | the wait for `_stop`, with the delay for its timeout |
| `Act.mark` | `_mark`: by the session, or by one that was given up and goes on |
| `Act.wait` | time passes, as long as nothing is due: the event loop is not held up |
| `Loop.aliveAt` | not in the source: the last time that a session started, ended by itself or sent a message, or that data was found not to be expected, or to be expected again |

The parameter of an act that ends a session is `random.random()`. Seconds are exact numbers, and the wall clock
and the timers of the event loop are one clock.
-/

namespace Adapter.Recovery

def CANCEL_TIMEOUT_S : ℚ := 5

/-- How a session ends; `cancelled` where it raises `CancelledError` itself, as a `finally` that awaits a task it has
cancelled does. -/
inductive Ending
  | returned
  | failed
  | cancelled
  deriving DecidableEq

/-- `raised`: `run` has gone on with the `CancelledError` of a session. -/
inductive Phase
  | session (deadline look : ℚ)
  | abandoning (attempt : ℕ) (due : ℚ)
  | closing (how : Ending) (attempt : ℕ) (due : ℚ)
  | waiting (due : ℚ)
  | stopped
  | raised
  deriving DecidableEq

/-- When the loop wakes of itself. -/
def Phase.due : Phase → Option ℚ
  | .session _ t | .abandoning _ t | .closing _ _ t | .waiting t => some t
  | .stopped | .raised => none

structure Loop where
  now : ℚ
  phase : Phase
  expects : Bool
  stop : Bool
  lastMsgAt : ℚ
  backoff : ℚ
  errors : ℕ
  reconnects : ℕ
  cancelTimeouts : ℕ
  aliveAt : ℚ
  deriving DecidableEq

inductive Act
  | wait (d : ℚ)
  | mark
  | expect
  | stop
  | finish (how : Ending) (random : ℚ)
  | closed (random : ℚ)
  | look
  | timeout (random : ℚ)
  | resume
  deriving DecidableEq

/-- `asyncio.sleep(min(self.stale_after_s / 2, 15.0))`. -/
def period (stale : ℚ) : ℚ := min (stale / 2) 15

/-- `_session_with_watchdog` up to its wait. -/
def Loop.begin (stale : ℚ) (w : Loop) : Loop :=
  { w with phase := .session (w.now + stale) (w.now + period stale), aliveAt := w.now }

def start (stale now : ℚ) (expects : Bool) : Loop :=
  Loop.begin stale ⟨now, .stopped, expects, false, 0, 1, 0, 0, 0, now⟩

/-- The rest of a turn of `run`. -/
def Loop.reconnect (w : Loop) (random : ℚ) : Loop :=
  if w.stop then { w with phase := .stopped }
  else
    let delay := min w.backoff 30 * (1 / 2 + random)
    { w with reconnects := w.reconnects + 1, phase := .waiting (w.now + delay), backoff := min (w.backoff * 2) 30 }

/-- Once `_session_with_watchdog` has returned, or raised. -/
def Loop.pause (w : Loop) (how : Ending) (random : ℚ) : Loop :=
  match how with
  | .returned => { w with backoff := 1 }.reconnect random
  | .failed => { w with errors := w.errors + 1 }.reconnect random
  | .cancelled => { w with phase := .raised }

/-- `last = self.last_msg_at or deadline`. -/
def Loop.last (w : Loop) (deadline : ℚ) : ℚ := if w.lastMsgAt ≠ 0 then w.lastMsgAt else deadline

/-- One turn of `_stale_watchdog` after its sleep. -/
def Loop.look (stale : ℚ) (w : Loop) (deadline : ℚ) : Loop :=
  if w.expects = false then { w with phase := .session (w.now + stale) (w.now + period stale), lastMsgAt := 0, aliveAt := w.now }
  else if stale < w.now - w.last deadline then { w with phase := .abandoning 1 (w.now + CANCEL_TIMEOUT_S) }
  else { w with phase := .session deadline (w.now + period stale) }

/-- `random.random()`. -/
def Draw (r : ℚ) : Prop := 0 ≤ r ∧ r < 1

instance (r : ℚ) : Decidable (Draw r) := inferInstanceAs (Decidable (_ ∧ _))

def step (stale : ℚ) (w : Loop) : Act → Option Loop
  | .wait d => if 0 < d ∧ (∀ t ∈ w.phase.due, w.now + d ≤ t) then some { w with now := w.now + d } else none
  | .mark => some { w with lastMsgAt := w.now, aliveAt := w.now }
  | .expect => some { w with expects := !w.expects, aliveAt := w.now }
  | .stop => some { w with stop := true }
  | .finish how r =>
    if Draw r then
      match w.phase with
      | .session _ _ => some { w with phase := .closing how 1 (w.now + CANCEL_TIMEOUT_S), aliveAt := w.now }
      | .abandoning _ _ => some (w.pause .failed r)
      | _ => none
    else none
  | .closed r =>
    if Draw r then
      match w.phase with
      | .closing how _ _ => some (w.pause how r)
      | _ => none
    else none
  | .look =>
    match w.phase with
    | .session deadline t => if w.now = t then some (w.look stale deadline) else none
    | _ => none
  | .timeout r =>
    if Draw r then
      match w.phase with
      | .abandoning attempt t =>
        if w.now ≠ t then none
        else if attempt = 1 then some { w with phase := .abandoning 2 (w.now + CANCEL_TIMEOUT_S) }
        else some ({ w with cancelTimeouts := w.cancelTimeouts + 1 }.pause .failed r)
      | .closing how attempt t =>
        if w.now ≠ t then none
        else if attempt = 1 then some { w with phase := .closing how 2 (w.now + CANCEL_TIMEOUT_S) }
        else some ({ w with cancelTimeouts := w.cancelTimeouts + 1 }.pause how r)
      | _ => none
    else none
  | .resume =>
    match w.phase with
    | .waiting t => if w.stop then some { w with phase := .stopped } else if w.now = t then
        some (w.begin stale) else none
    | _ => none

/-- What the loop does of itself, whatever the sessions do. -/
def Act.own : Act → Bool
  | .look | .timeout _ | .resume => true
  | _ => false

/-! ## Bounds -/

/-- From the last sign of life to the end of the session that is stale. -/
def patience (stale : ℚ) : ℚ := 2 * stale + period stale

/-- When a phase ends at the latest, the last sign of life given. -/
def Phase.Within (stale now aliveAt : ℚ) (expects : Bool) : Phase → Prop
  | .session deadline t => now ≤ t ∧ t ≤ now + period stale ∧ deadline ≤ aliveAt + stale ∧
      (expects = true → t ≤ aliveAt + patience stale)
  | .abandoning attempt t => now ≤ t ∧ (attempt = 1 ∨ attempt = 2) ∧
      t ≤ aliveAt + patience stale + CANCEL_TIMEOUT_S * attempt
  | .closing _ attempt t => now ≤ t ∧ (attempt = 1 ∨ attempt = 2) ∧ t ≤ aliveAt + CANCEL_TIMEOUT_S * attempt
  | .waiting t => now ≤ t ∧ t ≤ aliveAt + patience stale + 55
  | .stopped | .raised => True

structure Timely (stale : ℚ) (w : Loop) : Prop where
  alive : w.aliveAt ≤ w.now
  heard : w.lastMsgAt ≠ 0 → w.lastMsgAt ≤ w.aliveAt
  low : 1 ≤ w.backoff
  high : w.backoff ≤ 30
  phase : w.phase.Within stale w.now w.aliveAt w.expects

variable {stale : ℚ} {w w' : Loop}

theorem period_pos (hstale : 0 < stale) : 0 < period stale := lt_min (by linarith) (by norm_num)

theorem patience_eq (stale : ℚ) : patience stale = 2 * stale + period stale := rfl

theorem timeout_eq : CANCEL_TIMEOUT_S = 5 := rfl

theorem timely_begin (hstale : 0 < stale) (hlow : 1 ≤ w.backoff) (hhigh : w.backoff ≤ 30) (hheard : w.lastMsgAt ≠ 0 →
    w.lastMsgAt ≤ w.now) :
    Timely stale (w.begin stale) := by
  have hperiod := period_pos hstale
  have hpatience := patience_eq stale
  refine ⟨le_rfl, hheard, hlow, hhigh, ?_⟩
  simp only [Loop.begin, Phase.Within]
  exact ⟨by linarith, le_rfl, le_rfl, fun _ => by linarith⟩

/-- The pause is three quarters of a minute at most. -/
theorem timely_reconnect (h : Timely stale w) (hnow : w.now ≤ w.aliveAt + patience stale + 10) {r : ℚ} (hr : Draw r) :
    Timely stale (w.reconnect r) := by
  obtain ⟨hr0, hr1⟩ := hr
  have hlow := h.low
  have hhigh := h.high
  unfold Loop.reconnect
  split
  · exact ⟨h.alive, h.heard, hlow, hhigh, trivial⟩
  · rw [min_eq_left hhigh]
    have hdelay : 0 ≤ w.backoff * (1 / 2 + r) := mul_nonneg (by linarith) (by linarith)
    have hmax : w.backoff * (1 / 2 + r) ≤ 45 := by nlinarith
    exact ⟨h.alive, h.heard, le_min (by linarith) (by norm_num), min_le_right _ _,
      by dsimp only; linarith, by dsimp only; linarith⟩

theorem timely_pause (h : Timely stale w) (hnow : w.now ≤ w.aliveAt + patience stale + 10)
    {how : Ending} {r : ℚ} (hr : Draw r) :
    Timely stale (w.pause how r) := by
  cases how with
  | returned =>
    have hreset : Timely stale { w with backoff := 1 } := ⟨h.alive, h.heard, le_rfl, by norm_num, h.phase⟩
    exact timely_reconnect hreset hnow hr
  | failed =>
    have hcounted : Timely stale { w with errors := w.errors + 1 } := ⟨h.alive, h.heard, h.low, h.high, h.phase⟩
    exact timely_reconnect hcounted hnow hr
  | cancelled => exact ⟨h.alive, h.heard, h.low, h.high, trivial⟩

theorem timely_look (hstale : 0 < stale) (h : Timely stale w) {deadline : ℚ}
    (hphase : w.phase = .session deadline w.now) :
    Timely stale (w.look stale deadline) := by
  have hperiod := period_pos hstale
  have hpatience := patience_eq stale
  have hwithin := h.phase
  rw [hphase] at hwithin
  obtain ⟨-, -, hdeadline, hlook⟩ := hwithin
  unfold Loop.look
  split
  · refine ⟨le_rfl, fun hne => absurd rfl hne, h.low, h.high, ?_⟩
    exact ⟨by dsimp only; linarith, le_rfl, le_rfl, fun _ => by dsimp only; linarith⟩
  · rename_i hexpects
    have hlate := hlook (by simpa using hexpects)
    have hlast : w.last deadline ≤ w.aliveAt + stale := by
      unfold Loop.last
      split
      · have := h.heard ‹_›
        linarith
      · exact hdeadline
    split
    · refine ⟨h.alive, h.heard, h.low, h.high, ?_⟩
      refine ⟨?_, .inl rfl, ?_⟩ <;> dsimp only <;> rw [timeout_eq] <;> push_cast <;> linarith
    · refine ⟨h.alive, h.heard, h.low, h.high, ?_⟩
      exact ⟨by dsimp only; linarith, le_rfl, hdeadline, fun _ => by dsimp only; linarith⟩

/-- A sign of life only puts off what is due. -/
theorem Timely.renew (hstale : 0 < stale) (h : Timely stale w)
    {lastMsgAt : ℚ} {expects : Bool} (hheard : lastMsgAt ≠ 0 → lastMsgAt ≤ w.now) :
    Timely stale { w with lastMsgAt := lastMsgAt, expects := expects, aliveAt := w.now } := by
  have halive := h.alive
  have hpatience := patience_eq stale
  have hwithin := h.phase
  refine ⟨le_rfl, hheard, h.low, h.high, ?_⟩
  dsimp only
  cases hphase : w.phase with
  | session deadline t =>
    rw [hphase] at hwithin
    obtain ⟨hnow, hlook, hdeadline, -⟩ := hwithin
    exact ⟨hnow, hlook, by linarith, fun _ => by linarith⟩
  | abandoning attempt t =>
    rw [hphase] at hwithin
    exact ⟨hwithin.1, hwithin.2.1, by linarith [hwithin.2.2]⟩
  | closing how attempt t =>
    rw [hphase] at hwithin
    exact ⟨hwithin.1, hwithin.2.1, by linarith [hwithin.2.2]⟩
  | waiting t =>
    rw [hphase] at hwithin
    exact ⟨hwithin.1, by linarith [hwithin.2]⟩
  | stopped | raised => trivial

/-- Both attempts to cancel together take ten seconds. -/
theorem Timely.abandoned (h : Timely stale w) {attempt : ℕ} {t : ℚ} (hphase : w.phase = .abandoning attempt t) :
    w.now ≤ w.aliveAt + patience stale + 10 := by
  have hwithin := h.phase
  rw [hphase] at hwithin
  obtain ⟨hnow, hattempt, hdue⟩ := hwithin
  rw [timeout_eq] at hdue
  rcases hattempt with rfl | rfl <;> push_cast at hdue <;> linarith

theorem Timely.closed (hstale : 0 < stale) (h : Timely stale w)
    {how : Ending} {attempt : ℕ} {t : ℚ} (hphase : w.phase = .closing how attempt t) :
    w.now ≤ w.aliveAt + patience stale + 10 := by
  have hperiod := period_pos hstale
  have hpatience := patience_eq stale
  have hwithin := h.phase
  rw [hphase] at hwithin
  obtain ⟨hnow, hattempt, hdue⟩ := hwithin
  rw [timeout_eq] at hdue
  rcases hattempt with rfl | rfl <;> push_cast at hdue <;> linarith

/-- One more session is given up. -/
theorem Timely.give (h : Timely stale w) : Timely stale { w with cancelTimeouts := w.cancelTimeouts + 1 } :=
  ⟨h.alive, h.heard, h.low, h.high, h.phase⟩

/-- A first attempt to cancel is followed by the second one; after that the task is given up. -/
theorem timeout_cases {r : ℚ} (hst : step stale w (.timeout r) = some w') :
    Draw r ∧
      ((∃ attempt, w.phase = .abandoning attempt w.now ∧
          (attempt = 1 ∧ w' = { w with phase := .abandoning 2 (w.now + CANCEL_TIMEOUT_S) } ∨
            w' = { w with cancelTimeouts := w.cancelTimeouts + 1 }.pause .failed r)) ∨
        ∃ how attempt, w.phase = .closing how attempt w.now ∧
          (attempt = 1 ∧ w' = { w with phase := .closing how 2 (w.now + CANCEL_TIMEOUT_S) } ∨
            w' = { w with cancelTimeouts := w.cancelTimeouts + 1 }.pause how r)) := by
  simp only [step] at hst
  split at hst
  case isFalse => cases hst
  case isTrue hr =>
    refine ⟨hr, ?_⟩
    split at hst
    · rename_i attempt t hphase
      split at hst
      · cases hst
      · rename_i hnow
        obtain rfl : w.now = t := not_not.1 hnow
        split at hst <;> cases hst
        · exact .inl ⟨attempt, hphase, .inl ⟨‹_›, rfl⟩⟩
        · exact .inl ⟨attempt, hphase, .inr rfl⟩
    · rename_i how attempt t hphase
      split at hst
      · cases hst
      · rename_i hnow
        obtain rfl : w.now = t := not_not.1 hnow
        split at hst <;> cases hst
        · exact .inr ⟨how, attempt, hphase, .inl ⟨‹_›, rfl⟩⟩
        · exact .inr ⟨how, attempt, hphase, .inr rfl⟩
    · cases hst

/-- The second attempt ends one timeout after the first. -/
theorem second_attempt {now bound : ℚ} (h : now ≤ bound + CANCEL_TIMEOUT_S * (1 : ℕ)) :
    now ≤ now + CANCEL_TIMEOUT_S ∧ ((2 : ℕ) = 1 ∨ (2 : ℕ) = 2) ∧
      now + CANCEL_TIMEOUT_S ≤ bound + CANCEL_TIMEOUT_S * (2 : ℕ) := by
  have htimeout := timeout_eq
  push_cast at h
  refine ⟨by linarith, .inr rfl, ?_⟩
  push_cast
  linarith

theorem timely_timeout (hstale : 0 < stale) (h : Timely stale w) {r : ℚ} (hst : step stale w (.timeout r) = some w') :
    Timely stale w' := by
  have hwithin := h.phase
  obtain ⟨hr, ⟨attempt, hphase, ⟨rfl, rfl⟩ | rfl⟩ | ⟨how, attempt, hphase, ⟨rfl, rfl⟩ | rfl⟩⟩ := timeout_cases hst
  · rw [hphase] at hwithin
    exact ⟨h.alive, h.heard, h.low, h.high, second_attempt hwithin.2.2⟩
  · exact timely_pause h.give (h.abandoned hphase) hr
  · rw [hphase] at hwithin
    exact ⟨h.alive, h.heard, h.low, h.high, second_attempt hwithin.2.2⟩
  · have hlate := h.closed hstale hphase
    exact timely_pause h.give hlate hr

theorem timely_step (hstale : 0 < stale) (h : Timely stale w) {a : Act} (hst : step stale w a = some w') :
    Timely stale w' := by
  have hwithin := h.phase
  cases a with
  | wait d =>
    simp only [step] at hst
    split at hst <;> cases hst
    rename_i hd
    have halive := h.alive
    refine ⟨by dsimp only; linarith, h.heard, h.low, h.high, ?_⟩
    dsimp only
    cases hphase : w.phase with
    | session deadline t =>
      rw [hphase] at hwithin hd
      exact ⟨hd.2 t rfl, by linarith [hwithin.2.1], hwithin.2.2⟩
    | abandoning attempt t | closing how attempt t | waiting t =>
      rw [hphase] at hwithin hd
      exact ⟨hd.2 t rfl, hwithin.2⟩
    | stopped | raised => trivial
  | mark =>
    cases hst
    exact h.renew hstale fun _ => le_rfl
  | expect =>
    cases hst
    exact h.renew hstale fun hne => (h.heard hne).trans h.alive
  | stop =>
    cases hst
    exact ⟨h.alive, h.heard, h.low, h.high, h.phase⟩
  | finish how r =>
    simp only [step] at hst
    split at hst
    · rename_i hr
      split at hst <;> cases hst
      · refine ⟨le_rfl, fun hne => (h.heard hne).trans h.alive, h.low, h.high, ?_⟩
        refine ⟨?_, .inl rfl, ?_⟩ <;> dsimp only <;> rw [timeout_eq] <;> push_cast <;> linarith
      · rename_i attempt t hphase
        exact timely_pause h (h.abandoned hphase) hr
    · cases hst
  | closed r =>
    simp only [step] at hst
    split at hst
    · rename_i hr
      split at hst <;> cases hst
      rename_i how attempt t hphase
      exact timely_pause h (h.closed hstale hphase) hr
    · cases hst
  | look =>
    simp only [step] at hst
    split at hst
    · rename_i deadline t hphase
      split at hst <;> cases hst
      rename_i hnow
      subst hnow
      exact timely_look hstale h hphase
    · cases hst
  | timeout r => exact timely_timeout hstale h hst
  | resume =>
    simp only [step] at hst
    split at hst
    · split at hst
      · cases hst
        exact ⟨h.alive, h.heard, h.low, h.high, trivial⟩
      · split at hst <;> cases hst
        exact timely_begin hstale h.low h.high fun hne => (h.heard hne).trans h.alive
    · cases hst

/-! ## Time goes on -/

/-- There is time until something is due, or the loop has ended. -/
def Loop.Idle (w : Loop) : Prop := (w.phase = .stopped ∨ w.phase = .raised) ∨ ∃ t, w.phase.due = some t ∧ w.now < t

theorem idle_reconnect (hlow : 1 ≤ w.backoff) {r : ℚ} (hr : Draw r) : (w.reconnect r).Idle := by
  unfold Loop.reconnect
  split
  · exact .inl (.inl rfl)
  · have hpos : 0 < min w.backoff 30 * (1 / 2 + r) := mul_pos (lt_min (by linarith) (by norm_num)) (by linarith [hr.1])
    exact .inr ⟨_, rfl, by dsimp only; linarith⟩

theorem idle_pause (hlow : 1 ≤ w.backoff) {how : Ending} {r : ℚ} (hr : Draw r) : (w.pause how r).Idle := by
  cases how with
  | returned => exact @idle_reconnect { w with backoff := 1 } le_rfl r hr
  | failed => exact @idle_reconnect { w with errors := w.errors + 1 } hlow r hr
  | cancelled => exact .inl (.inr rfl)

theorem idle_look (hstale : 0 < stale) (deadline : ℚ) : (w.look stale deadline).Idle := by
  have hperiod := period_pos hstale
  have htimeout : 0 < CANCEL_TIMEOUT_S := by norm_num [timeout_eq]
  unfold Loop.look
  split
  · exact .inr ⟨_, rfl, by dsimp only; linarith⟩
  · split <;> exact .inr ⟨_, rfl, by dsimp only; linarith⟩

/-- What is due is done, whatever the sessions do, and then there is time again. -/
theorem exists_own (hstale : 0 < stale) (h : Timely stale w) (hdue : w.phase.due = some w.now) :
    ∃ a w', a.own = true ∧ step stale w a = some w' ∧ w'.Idle := by
  have hperiod := period_pos hstale
  have htimeout : 0 < CANCEL_TIMEOUT_S := by norm_num [timeout_eq]
  have hdraw : Draw 0 := ⟨le_rfl, by norm_num⟩
  cases hphase : w.phase with
  | session deadline t =>
    rw [hphase] at hdue
    cases hdue
    exact ⟨.look, w.look stale deadline, rfl, by simp [step, hphase], idle_look hstale deadline⟩
  | abandoning attempt t =>
    rw [hphase] at hdue
    cases hdue
    by_cases hone : attempt = 1
    · exact ⟨.timeout 0, { w with phase := .abandoning 2 (w.now + CANCEL_TIMEOUT_S) },
        rfl, by simp [step, hphase, hdraw, hone],
        .inr ⟨_, rfl, by dsimp only; linarith⟩⟩
    · exact ⟨.timeout 0, { w with cancelTimeouts := w.cancelTimeouts + 1 }.pause .failed 0,
        rfl, by simp [step, hphase, hdraw, hone],
        idle_pause h.give.low hdraw⟩
  | closing how attempt t =>
    rw [hphase] at hdue
    cases hdue
    by_cases hone : attempt = 1
    · exact ⟨.timeout 0, { w with phase := .closing how 2 (w.now + CANCEL_TIMEOUT_S) },
        rfl, by simp [step, hphase, hdraw, hone],
        .inr ⟨_, rfl, by dsimp only; linarith⟩⟩
    · exact ⟨.timeout 0, { w with cancelTimeouts := w.cancelTimeouts + 1 }.pause how 0,
        rfl, by simp [step, hphase, hdraw, hone],
        idle_pause h.give.low hdraw⟩
  | waiting t =>
    rw [hphase] at hdue
    cases hdue
    cases hstop : w.stop with
    | true => exact ⟨.resume, { w with phase := .stopped }, rfl, by simp [step, hphase, hstop], .inl (.inl rfl)⟩
    | false => exact ⟨.resume, w.begin stale, rfl, by simp [step, hphase, hstop],
        .inr ⟨_, rfl, by dsimp only [Loop.begin]; linarith⟩⟩
  | stopped | raised =>
    rw [hphase] at hdue
    cases hdue

/-! ## How the loop ends -/

/-- The loop ends when it is stopped, and by a session that ends itself with `CancelledError` where `cancelled`. -/
structure Loop.Ends (cancelled : Prop) (w : Loop) : Prop where
  stopped : w.phase = .stopped → w.stop = true
  raised : w.phase = .raised → cancelled
  closing : ∀ attempt t, w.phase = .closing .cancelled attempt t → cancelled

variable {cancelled : Prop}

theorem ends_reconnect (w : Loop) (r : ℚ) : (w.reconnect r).Ends cancelled := by
  unfold Loop.reconnect
  split
  · rename_i hstop
    exact ⟨fun _ => hstop, nofun, nofun⟩
  · exact ⟨nofun, nofun, nofun⟩

theorem ends_pause (w : Loop) {how : Ending} (hhow : how = .cancelled → cancelled) (r : ℚ) :
    (w.pause how r).Ends cancelled := by
  cases how with
  | returned => exact ends_reconnect _ r
  | failed => exact ends_reconnect _ r
  | cancelled => exact ⟨nofun, fun _ => hhow rfl, nofun⟩

theorem ends_timeout (h : w.Ends cancelled) {r : ℚ} (hst : step stale w (.timeout r) = some w') :
    w'.Ends cancelled := by
  obtain ⟨-, ⟨attempt, -, ⟨-, rfl⟩ | rfl⟩ | ⟨how, attempt, hphase, hafter⟩⟩ := timeout_cases hst
  · exact ⟨nofun, nofun, nofun⟩
  · exact ends_reconnect _ r
  · have hhow : how = .cancelled → cancelled := by
      rintro rfl
      exact h.closing attempt w.now hphase
    obtain ⟨-, rfl⟩ | rfl := hafter
    · exact ⟨nofun, nofun, fun _ _ heq => by cases heq; exact hhow rfl⟩
    · exact ends_pause _ hhow r

theorem ends_step (h : w.Ends cancelled) {a : Act} (ha : ∀ r, a = .finish .cancelled r → cancelled)
    (hst : step stale w a = some w') :
    w'.Ends cancelled := by
  cases a with
  | wait d =>
    simp only [step] at hst
    split at hst <;> cases hst
    exact ⟨h.stopped, h.raised, h.closing⟩
  | mark | expect =>
    cases hst
    exact ⟨h.stopped, h.raised, h.closing⟩
  | stop =>
    cases hst
    exact ⟨fun _ => rfl, h.raised, h.closing⟩
  | finish how r =>
    simp only [step] at hst
    split at hst
    · split at hst <;> cases hst
      · exact ⟨nofun, nofun, fun _ _ heq => by cases heq; exact ha r rfl⟩
      · exact ends_reconnect _ r
    · cases hst
  | closed r =>
    simp only [step] at hst
    split at hst
    · split at hst <;> cases hst
      rename_i how attempt t hphase
      refine ends_pause w ?_ r
      rintro rfl
      exact h.closing attempt t hphase
    · cases hst
  | look =>
    simp only [step] at hst
    split at hst
    · split at hst <;> cases hst
      unfold Loop.look
      split
      · exact ⟨nofun, nofun, nofun⟩
      · split <;> exact ⟨nofun, nofun, nofun⟩
    · cases hst
  | timeout r => exact ends_timeout h hst
  | resume =>
    simp only [step] at hst
    split at hst
    · split at hst
      · rename_i hstop
        cases hst
        exact ⟨fun _ => hstop, nofun, nofun⟩
      · split at hst <;> cases hst
        exact ⟨nofun, nofun, nofun⟩
    · cases hst

/-- **A feed comes back.** The loop ends only when it is stopped, or by a session that ends itself with
`CancelledError`. Until then it gives a session up within `patience` of the last sign of life while data is expected,
and in any case starts the next one within fifty-five seconds more, also where a session ignores that it is cancelled;
and it never hangs: time can pass, or what is due is done and then time can pass. -/
theorem recovers {stale now : ℚ} (hstale : 0 < stale) (expects : Bool) (acts : List Act) (w : Loop)
    (h : Lts.Run (step stale) Lts.anyStep (start stale now expects) acts w) :
    (w.phase = .stopped → w.stop = true) ∧ (w.phase = .raised → ∃ r, .finish .cancelled r ∈ acts) ∧
      (w.phase ≠ .stopped → w.phase ≠ .raised →
        (∀ deadline t, w.phase = .session deadline t → w.expects = true →
        w.now ≤ w.aliveAt + (2 * stale + min (stale / 2) 15)) ∧
          ((∀ deadline t, w.phase ≠ .session deadline t) → w.now ≤ w.aliveAt + (2 * stale + min (stale / 2) 15) + 55) ∧
          ((∃ d w', 0 < d ∧ step stale w (.wait d) = some w') ∨ ∃ a w', a.own = true ∧ step stale w a = some w' ∧
          w'.Idle)) := by
  have hstart : Timely stale (start stale now expects) := timely_begin hstale le_rfl (by norm_num) fun hne =>
    absurd rfl hne
  have ht : Timely stale w := h.invariant hstart fun _ _ _ hs _ hst => timely_step hstale hs hst
  have hperiod := period_pos hstale
  have hpatience := patience_eq stale
  have hbegun : (start stale now expects).Ends (∃ r, .finish .cancelled r ∈ acts) := ⟨nofun, nofun, nofun⟩
  have hends : w.Ends (∃ r, .finish .cancelled r ∈ acts) :=
    (h.restrict fun _ ha => ha).invariant hbegun fun _ _ _ hs ha hst => ends_step hs (fun r heq => ⟨r, heq ▸ ha.2⟩) hst
  have hwithin := ht.phase
  refine ⟨hends.stopped, hends.raised, fun hgo hcalm => ⟨fun deadline t hphase hexpects => ?_, fun hno => ?_, ?_⟩⟩
  · rw [hphase] at hwithin
    exact hwithin.1.trans (hwithin.2.2.2 hexpects)
  · change w.now ≤ w.aliveAt + patience stale + 55
    cases hphase : w.phase with
    | session deadline t => exact absurd hphase (hno deadline t)
    | abandoning attempt t => linarith [ht.abandoned hphase]
    | closing how attempt t => linarith [ht.closed hstale hphase]
    | waiting t =>
      rw [hphase] at hwithin
      exact hwithin.1.trans hwithin.2
    | stopped => exact absurd hphase hgo
    | raised => exact absurd hphase hcalm
  · obtain ⟨t, hdue, hle⟩ : ∃ t, w.phase.due = some t ∧ w.now ≤ t := by
      cases hphase : w.phase with
      | stopped => exact absurd hphase hgo
      | raised => exact absurd hphase hcalm
      | session deadline t | abandoning attempt t | closing how attempt t | waiting t =>
        rw [hphase] at hwithin
        exact ⟨t, rfl, hwithin.1⟩
    rcases hle.lt_or_eq with hlt | rfl
    · refine .inl ⟨t - w.now, { w with now := w.now + (t - w.now) }, by linarith, ?_⟩
      have hroom : ∀ t' ∈ w.phase.due, w.now + (t - w.now) ≤ t' := by
        intro t' ht'
        rw [hdue] at ht'
        cases ht'
        linarith
      simp only [step]
      rw [if_pos ⟨by linarith, hroom⟩]
    · exact .inr (exists_own hstale ht hdue)

/-- A session without messages that goes on when it is cancelled is given up after eighty-five seconds. -/
theorem recovers_hung : ∃ w, Lts.Run (step 60) Lts.anyStep (start 60 1000 true)
      [.mark, .wait 15, .look, .wait 15, .look, .wait 15, .look, .wait 15, .look, .wait 15, .look, .wait 5,
        .timeout 0, .wait 5, .timeout 0,
        .wait (1 / 2)] w ∧
    w.now ≤ w.aliveAt + (2 * 60 + min (60 / 2) 15) + 55 ∧ w.cancelTimeouts = 1 := by
  have hex : ∃ w, Lts.Run (step 60) Lts.anyStep (start 60 1000 true)
      [.mark, .wait 15, .look, .wait 15, .look, .wait 15, .look, .wait 15, .look, .wait 15, .look, .wait 5,
        .timeout 0, .wait 5, .timeout 0,
        .wait (1 / 2)] w ∧ w.phase = .waiting (2171 / 2) ∧ w.cancelTimeouts = 1 := Lts.exists_run (by decide +kernel)
  obtain ⟨w, hrun, hphase, hgiven⟩ := hex
  have hother : ∀ deadline t, w.phase ≠ .session deadline t := by
    rw [hphase]
    exact nofun
  have hgo : w.phase ≠ .stopped ∧ w.phase ≠ .raised := by
    rw [hphase]
    exact ⟨nofun, nofun⟩
  exact ⟨w, hrun, ((recovers (by norm_num) true _ w hrun).2.2 hgo.1 hgo.2).2.1 hother, hgiven⟩

end Adapter.Recovery
