import Mathlib.Algebra.Order.Field.Basic
import Mathlib.Algebra.Order.Field.Rat
import Mathlib.Tactic.Linarith
import MarketFeed.Lib.Run
/-!
# The watchdog of a session (adapters/base.py:115-170, :237-259)

A session runs beside a watchdog that looks, now and then, how long ago the last message came, and ends the session
when that is too long. The time of the last message outlives the session; a watchdog without one takes its own
deadline for it, which is a `stale_after_s` after the session's start or after its last look while no data was expected.

| here | there |
| --- | --- |
| `Watch.lastMsgAt` | `last_msg_at`, 0 for none |
| `Watch.deadline` | `deadline` of the watchdog that runs, if one does |
| `msgAt`, `openedAt`, `startedAt` | when the last message came, when data was last found to be expected after it had not been, when the last session started |
| `quietAt`, `polledAt` | the last look of this session while no data was expected, or its start; its last look at all, or its start |
| `Act.expect` | `expects_data()` changes its answer |
| `Act.finish` | the session ends of itself, or is cancelled |

Every act has its time.
-/

namespace Adapter

variable {K : Type} [Field K] [LinearOrder K]

structure Watch (K : Type) where
  now : K
  expects : Bool
  lastMsgAt : K
  deadline : Option K
  msgAt : Option K
  openedAt : Option K
  startedAt : K
  quietAt : K
  polledAt : K
  deriving DecidableEq

inductive Act (K : Type)
  | expect (t : K)
  | mark (t : K)
  | begin (t : K)
  | poll (t : K)
  | finish (t : K)
  deriving DecidableEq

def Act.time : Act K → K
  | .expect t | .mark t | .begin t | .poll t | .finish t => t

namespace Watch

/-- Before the first session. -/
def start (now : K) (expects : Bool) : Watch K := ⟨now, expects, 0, none, none, none, now, now, now⟩

/-- Whether the look at `t` ends the session: `last = self.last_msg_at or deadline`. -/
def ends (stale : K) (w : Watch K) (t deadline : K) : Bool :=
  w.expects && decide (stale < t - (if w.lastMsgAt ≠ 0 then w.lastMsgAt else deadline))

def step (stale : K) (w : Watch K) (a : Act K) : Option (Watch K) :=
  if a.time < w.now then none
  else
    match a with
    | .expect t => some { w with now := t, expects := !w.expects, openedAt := if w.expects then w.openedAt else some t }
    -- `_mark`
    | .mark t => some { w with now := t, lastMsgAt := t, msgAt := some t }
    -- `_session_with_watchdog`, up to its wait
    | .begin t =>
      match w.deadline with
      | none => some { w with now := t, deadline := some (t + stale), startedAt := t, quietAt := t, polledAt := t }
      | some _ => none
    -- one turn of `_stale_watchdog` after its sleep
    | .poll t =>
      w.deadline.map fun deadline =>
        if w.expects = false then { w with now := t, deadline := some (t + stale), lastMsgAt := 0, quietAt := t, polledAt := t }
        else if w.ends stale t deadline then { w with now := t, deadline := none, polledAt := t }
        else { w with now := t, polledAt := t }
    | .finish t => w.deadline.map fun _ => { w with now := t, deadline := none }

/-- The later of the session's start and the moment data became expected. -/
def since (w : Watch K) : K := max w.startedAt (w.openedAt.getD w.startedAt)

/-- The latest of these and the last message. -/
def latest (w : Watch K) : K := max w.since (w.msgAt.getD w.since)

end Watch

/-- A look ends the session just where data is expected and nothing has happened for more than `stale`. -/
def Accurate (stale : K) (w : Watch K) : Act K → Prop
  | .poll t => ∀ deadline, w.deadline = some deadline →
      (w.ends stale t deadline = true ↔ w.expects = true ∧ w.latest + stale < t)
  | _ => True

/-- At a look while data is expected: a message that is too old is older than the session's start and the opening are,
or these are too old as well; and without a message the look does not come between the time they are too old and twice
`stale` after `quietAt`. -/
def Meets (stale : K) (w : Watch K) : Act K → Prop
  | .poll t => w.deadline.isSome = true → w.expects = true →
    if w.lastMsgAt ≠ 0 then ¬ (w.lastMsgAt + stale < t ∧ t ≤ w.since + stale)
    else (w.quietAt + (stale + stale) < t ↔ w.since + stale < t)
  | _ => True

namespace Watch

/-- What the bookkeeping knows of the moments. -/
structure Sound (stale : K) (w : Watch K) : Prop where
  pos : 0 < w.now
  started : w.startedAt ≤ w.now
  polled : w.polledAt ≤ w.now
  past : ∀ m, w.msgAt = some m → m ≤ w.now
  known : w.lastMsgAt ≠ 0 → w.msgAt = some w.lastMsgAt
  reset : w.lastMsgAt = 0 → w.expects = true → ∀ m, w.msgAt = some m → m ≤ w.since
  grace : ∀ d, w.deadline = some d → d = w.quietAt + stale

theorem sound_start (stale : K) {now : K} (h : 0 < now) (expects : Bool) : Sound stale (start now expects) :=
  ⟨h, le_refl _, le_refl _, nofun, fun hne => absurd rfl hne, fun _ _ => nofun, nofun⟩

variable {stale : K} {w w' : Watch K}

theorem latest_of_reset (h : Sound stale w) (hreset : w.lastMsgAt = 0) (hexpects : w.expects = true) : w.latest = w.since := by
  unfold latest
  cases hm : w.msgAt with
  | none => exact max_self _
  | some m => exact max_eq_left (h.reset hreset hexpects m hm)

/-- What an act has in common with every other: time goes on. -/
theorem now_of_step {a : Act K} (hstep : w.step stale a = some w') : w.now ≤ a.time ∧ w'.now = a.time := by
  unfold step at hstep
  split at hstep
  · cases hstep
  · rename_i hlt
    refine ⟨le_of_not_gt hlt, ?_⟩
    cases a with
    | expect t | mark t =>
      cases hstep
      rfl
    | begin t =>
      dsimp only at hstep
      split at hstep <;> cases hstep
      rfl
    | poll t =>
      obtain ⟨deadline, -, rfl⟩ := Option.map_eq_some_iff.1 hstep
      split_ifs <;> rfl
    | finish t =>
      obtain ⟨deadline, -, rfl⟩ := Option.map_eq_some_iff.1 hstep
      rfl

theorem sound_step {a : Act K} (h : Sound stale w) (hstep : w.step stale a = some w') : Sound stale w' := by
  obtain ⟨hle, hnow⟩ := now_of_step hstep
  have hpos : 0 < a.time := h.pos.trans_le hle
  have hstarted := h.started.trans hle
  have hpolled := h.polled.trans hle
  have hpast := fun m hm => (h.past m hm).trans hle
  unfold step at hstep
  rw [if_neg (not_lt.2 hle)] at hstep
  cases a with
  | expect t =>
    cases hstep
    refine ⟨hpos, hstarted, hpolled, hpast, h.known, ?_, h.grace⟩
    intro _ hexpects m hm
    have hshut : w.expects = false := by simpa using hexpects
    have hin : m ≤ t := hpast m hm
    simpa [since, hshut] using .inr hin
  | mark t =>
    cases hstep
    refine ⟨hpos, hstarted, hpolled, ?_, fun _ => rfl, fun hzero => absurd hzero hpos.ne', h.grace⟩
    intro m hm
    cases hm
    exact le_refl t
  | begin t =>
    dsimp only at hstep
    split at hstep
    · cases hstep
      refine ⟨hpos, le_refl t, le_refl t, hpast, h.known, ?_, ?_⟩
      · intro _ _ m hm
        exact le_max_of_le_left (hpast m hm)
      · intro d hd
        cases hd
        rfl
    · cases hstep
  | poll t =>
    obtain ⟨deadline, hdeadline, rfl⟩ := Option.map_eq_some_iff.1 hstep
    have hgrace := h.grace deadline hdeadline
    split_ifs with hexpects hends
    · refine ⟨hpos, hstarted, le_refl t, hpast, fun hne => absurd rfl hne, ?_, ?_⟩
      · intro _ hexpects'
        exact absurd hexpects' (by simp [hexpects])
      · intro d hd
        cases hd
        rfl
    · exact ⟨hpos, hstarted, le_refl t, hpast, h.known, h.reset, nofun⟩
    · exact ⟨hpos, hstarted, le_refl t, hpast, h.known, h.reset, h.grace⟩
  | finish t =>
    obtain ⟨deadline, -, rfl⟩ := Option.map_eq_some_iff.1 hstep
    exact ⟨hpos, hstarted, hpolled, hpast, h.known, h.reset, nofun⟩

variable [IsStrictOrderedRing K]

/-- With sound bookkeeping a look is accurate just where it meets the condition. -/
theorem accurate_iff_meets (h : Sound stale w) (a : Act K) : Accurate stale w a ↔ Meets stale w a := by
  cases a with
  | poll t =>
    unfold Accurate Meets
    cases hdeadline : w.deadline with
    | none => simp
    | some deadline =>
      have hgrace := h.grace deadline hdeadline
      cases hexpects : w.expects with
      | false => simp [ends, hexpects]
      | true =>
        simp only [ends, hexpects, Option.some.injEq, forall_eq', Bool.true_and, decide_eq_true_eq, true_and, Option.isSome_some,
          forall_const]
        by_cases hmsg : w.lastMsgAt = 0
        · have hlate : stale < t - deadline ↔ w.quietAt + (stale + stale) < t := by
            rw [hgrace]
            constructor <;> intro <;> linarith
          simp only [hmsg, ne_eq, not_true, if_false]
          rw [latest_of_reset h hmsg hexpects, hlate]
        · have hlatest : w.latest = max w.since w.lastMsgAt := by
            rw [latest, h.known hmsg, Option.getD_some]
          have hold : stale < t - w.lastMsgAt ↔ w.lastMsgAt + stale < t := by
            constructor <;> intro <;> linarith
          have hboth : max w.since w.lastMsgAt + stale < t ↔ w.since + stale < t ∧ w.lastMsgAt + stale < t := by
            rw [← max_add_add_right, max_lt_iff]
          simp only [hmsg, ne_eq, not_false_eq_true, if_true]
          rw [hlatest, hold, hboth, ← not_lt]
          tauto
  | _ => exact Iff.rfl

/-- While accurate looks leave a session alone, its last look is not after the end of its time. -/
theorem bounded_step {a : Act K} (hstale : 0 ≤ stale) (h : Sound stale w) (ha : Accurate stale w a) (hstep : w.step stale a = some w') :
    w'.deadline.isSome = true → w'.expects = true → w'.polledAt ≤ w'.latest + stale := by
  obtain ⟨hle, hnow⟩ := now_of_step hstep
  unfold step at hstep
  rw [if_neg (not_lt.2 hle)] at hstep
  cases a with
  | expect t =>
    cases hstep
    intro _ hexpects
    have hshut : w.expects = false := by simpa using hexpects
    have hpolled : w.polledAt ≤ t := h.polled.trans hle
    have hopened : t ≤ latest { w with now := t, expects := !w.expects, openedAt := if w.expects then w.openedAt else some t } := by
      simp [latest, since, hshut]
    linarith
  | mark t =>
    cases hstep
    intro _ _
    have hpolled : w.polledAt ≤ t := h.polled.trans hle
    have hmarked : t ≤ latest { w with now := t, lastMsgAt := t, msgAt := some t } := le_max_right _ _
    linarith
  | begin t =>
    dsimp only at hstep
    split at hstep
    · cases hstep
      intro _ _
      have hstarted : t ≤ latest { w with now := t, deadline := some (t + stale), startedAt := t, quietAt := t, polledAt := t } :=
        le_max_of_le_left (le_max_left _ _)
      linarith
    · cases hstep
  | poll t =>
    obtain ⟨deadline, hdeadline, rfl⟩ := Option.map_eq_some_iff.1 hstep
    split_ifs with hexpects hends
    · intro _ hexpects'
      exact absurd hexpects' (by simp [hexpects])
    · exact nofun
    · intro _ hexpects'
      by_contra hlate
      exact hends ((ha deadline hdeadline).2 ⟨hexpects', not_le.1 hlate⟩)
  | finish t =>
    obtain ⟨deadline, -, rfl⟩ := Option.map_eq_some_iff.1 hstep
    exact nofun

end Watch

section

variable [IsStrictOrderedRing K]

/-- **Every look is accurate just where every look meets the condition**; and then a session that runs while data is
expected has at the latest a polling period after its last look, or its start, nothing older than `stale` and that
period. -/
theorem watchdog_accurate_iff {now stale : K} (hnow : 0 < now) (hstale : 0 ≤ stale) (expects : Bool)
    (acts : List (Act K)) (w : Watch K) :
    (Lts.Run (Watch.step stale) (Accurate stale) (.start now expects) acts w ↔
      Lts.Run (Watch.step stale) (Meets stale) (.start now expects) acts w) ∧
    (Lts.Run (Watch.step stale) (Meets stale) (.start now expects) acts w → w.deadline.isSome = true →
    w.expects = true →
      ∀ period t, t ≤ w.polledAt + period → t ≤ w.latest + stale + period) := by
  have hiff : Lts.Run (Watch.step stale) (Accurate stale) (.start now expects) acts w ↔
      Lts.Run (Watch.step stale) (Meets stale) (.start now expects) acts w :=
    Lts.Run.congr (fun _ _ _ => Watch.sound_step) (fun _ a hs => Watch.accurate_iff_meets hs a)
      (Watch.sound_start stale hnow expects)
  refine ⟨hiff, fun hrun hrunning hexpects period t ht => ?_⟩
  have hbound := (hiff.2 hrun).invariant
    (I := fun w => Watch.Sound stale w ∧ (w.deadline.isSome = true → w.expects = true → w.polledAt ≤ w.latest + stale))
    ⟨Watch.sound_start stale hnow expects, nofun⟩
    fun _ _ _ hs ha hstep => ⟨Watch.sound_step hs.1 hstep, Watch.bounded_step hstale hs.1 ha hstep⟩
  have := hbound.2 hrunning hexpects
  linarith

end

instance (stale : K) (w : Watch K) : ∀ a, Decidable (Meets stale w a)
  | .poll t => inferInstanceAs (Decidable (w.deadline.isSome = true → w.expects = true →
    if w.lastMsgAt ≠ 0 then ¬ (w.lastMsgAt + stale < t ∧ t ≤ w.since + stale)
    else (w.quietAt + (stale + stale) < t ↔ w.since + stale < t)))
  | .expect _ | .mark _ | .begin _ | .finish _ => .isTrue trivial

/-- A session with one message, of a source that is always expected to send. -/
def oneMessage : List (Act ℚ) := [.begin 1000, .mark 1001, .poll 1015, .poll 1030, .poll 1045, .poll 1060, .poll 1075]

/-- It is ended by the first look more than a minute after the message. -/
theorem watchdog_accurate_once : ∃ w, Lts.Run (Watch.step (60 : ℚ)) (Accurate 60) (.start 1000 true) oneMessage w ∧
    w.deadline = none := by
  obtain ⟨w, hrun, hend⟩ : ∃ w, Lts.Run (Watch.step (60 : ℚ)) (Meets 60) (.start 1000 true) oneMessage w ∧
      w.deadline = none :=
    Lts.exists_run (by decide +kernel)
  exact ⟨w, (watchdog_accurate_iff (by norm_num) (by norm_num) true oneMessage w).1.2 hrun, hend⟩

/-- The next session is ended by its first look, fifteen seconds after its start; and a session without a message is
not ended seventy-five seconds after it. -/
theorem watchdog_inaccurate :
    (∃ w, Lts.Run (Watch.step (60 : ℚ)) Lts.anyStep (.start 1000 true) (oneMessage ++ [.begin 1076]) w ∧
      ¬ Accurate 60 w (.poll 1091)) ∧
    ∃ w, Lts.Run (Watch.step (60 : ℚ)) Lts.anyStep (.start 1000 true)
      [.begin 1000, .poll 1015, .poll 1030, .poll 1045, .poll 1060] w ∧ ¬ Accurate 60 w (.poll 1075) := by
  obtain ⟨w, d, hrun, hd, hw⟩ : ∃ w d, Lts.Run (Watch.step (60 : ℚ)) Lts.anyStep (.start 1000 true)
      (oneMessage ++ [.begin 1076]) w ∧
      w.deadline = some d ∧ w.ends 60 1091 d = true ∧ ¬ w.latest + 60 < 1091 := Lts.exists_run_some (by decide +kernel)
  obtain ⟨v, b, hrun', hb, hv⟩ : ∃ v b, Lts.Run (Watch.step (60 : ℚ)) Lts.anyStep (.start 1000 true)
      [.begin 1000, .poll 1015, .poll 1030, .poll 1045, .poll 1060] v ∧
      v.deadline = some b ∧ v.ends 60 1075 b = false ∧ v.expects = true ∧
      v.latest + 60 < 1075 := Lts.exists_run_some (by decide +kernel)
  constructor
  · exact ⟨w, hrun, fun h => hw.2 ((h d hd).1 hw.1).2⟩
  · refine ⟨v, hrun', fun h => ?_⟩
    have hends := (h b hb).2 hv.2
    rw [hv.1] at hends
    cases hends

end Adapter
