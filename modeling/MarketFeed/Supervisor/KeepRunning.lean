import Mathlib.Data.List.Count
import Mathlib.Tactic.FieldSimp
import MarketFeed.Supervisor.Restarts
import MarketFeed.Lib.Binary64
/-!
# The loop that keeps an adapter running (services/feedd.py:168-222)

After every end of `adapter.run` without a stop request the loop waits `min(0.5 * 2 ** (deaths - 1), 30.0)` seconds.
The power is an int and has to become a float before it is clamped, which it cannot from `2 ** 1024` on: the 1025th
death ends the loop with an
`OverflowError`, outside its `try`.

| here | there |
| --- | --- |
| `Keeper` | `_keep_running` at one of its two awaits, or after its end; `starts` are the calls of `adapter.run` |
| `toDouble` | an int in an operation with a float, `none` for `OverflowError` |
| `taskDeaths`, `silentExits` | the calls of `registry.counter` |

Logging and counting raise nothing.
-/

namespace Supervision

open Double (binary64 binary64_two_zpow)

def toDouble (n : ℕ) : Option ℚ := if 2 ^ 1024 ≤ binary64 n then none else some (binary64 n)

/-- `min(0.5 * 2 ** (deaths - 1), 30.0)`. -/
def timeout (deaths : ℕ) : Option ℚ := (toDouble (2 ^ (deaths - 1))).map fun power => min (binary64 (1 / 2 * power)) 30

inductive KeeperPhase
  | running
  | waiting (timeout : ℚ)
  | done (exit : Exit)
  deriving DecidableEq

structure Keeper where
  deaths : ℕ
  taskDeaths : ℕ
  silentExits : ℕ
  starts : ℕ
  stop : Bool
  phase : KeeperPhase
  deriving DecidableEq

inductive KeeperAct
  | setStop
  | runEnds (outcome : Outcome)
  | wakes (wake : Wake)
  deriving DecidableEq

namespace Keeper

/-- `while not stop.is_set()`, up to the next `await`. -/
def loop (k : Keeper) : Keeper :=
  if k.stop then { k with phase := .done .returned } else { k with starts := k.starts + 1, phase := .running }

def start (stop : Bool) : Keeper := loop ⟨0, 0, 0, 0, stop, .running⟩

/-- After the `try`: the wait, or the exception of its timeout. -/
def backOff (k : Keeper) : Keeper :=
  { k with phase := match timeout k.deaths with
      | none => .done .raised
      | some t => .waiting t }

def runEnds (k : Keeper) : Outcome → Keeper
  | .returned =>
    if k.stop then { k with phase := .done .returned }
    else backOff { k with deaths := k.deaths + 1, taskDeaths := k.taskDeaths + 1, silentExits := k.silentExits + 1 }
  | .cancelled =>
    if k.stop then { k with phase := .done .cancelled }
    else backOff { k with deaths := k.deaths + 1, taskDeaths := k.taskDeaths + 1, silentExits := k.silentExits + 1 }
  | .raised _ _ => backOff { k with deaths := k.deaths + 1, taskDeaths := k.taskDeaths + 1 }

def step (k : Keeper) : KeeperAct → Option Keeper
  | .setStop => some { k with stop := true }
  | .runEnds outcome => if k.phase = .running then some (k.runEnds outcome) else none
  | .wakes wake =>
    match k.phase with
    | .waiting _ =>
      match wake with
      | .cancelled => some { k with phase := .done .cancelled }
      | .stopSet => if k.stop then some k.loop else none
      | .timeout => some k.loop
    | _ => none

end Keeper

/-- Nothing but ends of runs and the ends of the waits between them. -/
def Undisturbed (_ : Keeper) (a : KeeperAct) : Prop := a ≠ .setStop ∧ a ≠ .wakes .cancelled

def KeeperAct.endsRun : KeeperAct → Bool
  | .runEnds _ => true
  | _ => false

/-! ## The timeout -/

theorem toDouble_two_pow (k : ℕ) : toDouble (2 ^ k) = if k < 1024 then some (2 ^ (k : ℤ)) else none := by
  have hpower : binary64 ((2 ^ k : ℕ) : ℚ) = 2 ^ (k : ℤ) := by
    rw [← binary64_two_zpow, Nat.cast_pow, Nat.cast_ofNat, zpow_natCast]
  rw [toDouble, hpower, zpow_natCast]
  by_cases hk : k < 1024
  · rw [if_pos hk, if_neg (not_le.2 (pow_lt_pow_right₀ one_lt_two hk))]
  · rw [if_neg hk, if_pos (pow_le_pow_right₀ one_le_two (Nat.le_of_not_lt hk))]

theorem timeout_eq {deaths : ℕ} (h : 1 ≤ deaths) :
    timeout deaths = if deaths ≤ 1024 then some (min (2 ^ ((deaths : ℤ) - 2)) 30) else none := by
  have hk : deaths - 1 < 1024 ↔ deaths ≤ 1024 := by omega
  rw [timeout, toDouble_two_pow]
  by_cases hle : deaths ≤ 1024
  · have hhalf : (1 / 2 : ℚ) * 2 ^ ((deaths - 1 : ℕ) : ℤ) = 2 ^ ((deaths : ℤ) - 2) := by
      rw [one_div, ← zpow_neg_one, ← zpow_add₀ two_ne_zero]
      congr 1
      omega
    rw [if_pos (hk.2 hle), if_pos hle, Option.map_some, hhalf, binary64_two_zpow]
  · rw [if_neg (mt hk.1 hle), if_neg hle, Option.map_none]

/-! ## Runs -/

/-- After `n` ends of a run: the loop goes on up to the 1024th, and the 1025th is its own end. -/
structure Keeper.After (n : ℕ) (k : Keeper) : Prop where
  stop : k.stop = false
  deaths : k.deaths = n
  phase : (n ≤ 1024 ∧ (k.phase = .running ∨ 1 ≤ n ∧ k.phase = .waiting (min (2 ^ ((n : ℤ) - 2)) 30))) ∨ n = 1025 ∧
    k.phase = .done .raised

namespace Keeper

theorem after_start : After 0 (start false) := ⟨rfl, rfl, .inl ⟨by decide, .inl rfl⟩⟩

/-- A death. -/
theorem after_backOff {k : Keeper} {n : ℕ} (hstop : k.stop = false) (hdeaths : k.deaths = n + 1) (hn : n ≤ 1024) :
    After (n + 1) k.backOff := by
  refine ⟨hstop, hdeaths, ?_⟩
  have htimeout := @timeout_eq (n + 1) (by omega)
  unfold backOff
  dsimp only
  rw [hdeaths, htimeout]
  by_cases hlast : n + 1 ≤ 1024
  · rw [if_pos hlast]
    exact .inl ⟨hlast, .inr ⟨by omega, rfl⟩⟩
  · rw [if_neg hlast]
    exact .inr ⟨by omega, rfl⟩

theorem after_runEnds {k : Keeper} {n : ℕ} (h : After n k) (hn : n ≤ 1024) (outcome : Outcome) :
    After (n + 1) (k.runEnds outcome) := by
  have hstop := h.stop
  have hdeaths : k.deaths + 1 = n + 1 := by rw [h.deaths]
  cases outcome with
  | returned =>
    rw [runEnds, if_neg (by rw [hstop]; decide)]
    exact after_backOff hstop hdeaths hn
  | cancelled =>
    rw [runEnds, if_neg (by rw [hstop]; decide)]
    exact after_backOff hstop hdeaths hn
  | raised typeName text => exact after_backOff hstop hdeaths hn

theorem after_wakes {k : Keeper} {n : ℕ} (h : After n k) {t : ℚ} (hphase : k.phase = .waiting t) :
    After n k.loop ∧ k.loop.phase = .running ∧ k.loop.starts = k.starts + 1 ∧ t ≤ 30 := by
  have hloop : k.loop = { k with starts := k.starts + 1, phase := .running } := if_neg (by rw [h.stop]; decide)
  rw [hloop]
  rcases h.phase with ⟨hn, hrunning | ⟨-, hwaiting⟩⟩ | ⟨-, hdone⟩
  · rw [hphase] at hrunning
    cases hrunning
  · rw [hphase] at hwaiting
    cases hwaiting
    exact ⟨⟨h.stop, h.deaths, .inl ⟨hn, .inl rfl⟩⟩, rfl, rfl, min_le_right _ _⟩
  · rw [hphase] at hdone
    cases hdone

theorem after_step {k k' : Keeper} {n : ℕ} {a : KeeperAct} (h : After n k) (ha : Undisturbed k a)
    (hstep : k.step a = some k') :
    After (n + if a.endsRun then 1 else 0) k' := by
  cases a with
  | setStop => exact absurd rfl ha.1
  | runEnds outcome =>
    obtain ⟨hrunning, he⟩ := Option.ite_none_right_eq_some.1 hstep
    cases he
    refine after_runEnds h ?_ outcome
    rcases h.phase with ⟨hn, -⟩ | ⟨-, hdone⟩
    · exact hn
    · rw [hrunning] at hdone
      cases hdone
  | wakes wake =>
    simp only [step] at hstep
    split at hstep
    · rename_i t hphase
      cases wake with
      | cancelled => exact absurd rfl ha.2
      | stopSet =>
        rw [if_neg (by rw [h.stop]; decide)] at hstep
        cases hstep
      | timeout =>
        cases hstep
        exact (after_wakes h hphase).1
    · cases hstep

theorem after_run {k k' : Keeper} {n : ℕ} {acts : List KeeperAct} (h : After n k)
    (hrun : Lts.Run step Undisturbed k acts k') :
    After (n + acts.countP KeeperAct.endsRun) k' := by
  induction hrun generalizing n with
  | nil k => exact h
  | @cons k k' t a as hok hst _ ih =>
    have := ih (after_step h hok hst)
    rwa [Nat.add_assoc, Nat.add_comm (if a.endsRun then 1 else 0), ← List.countP_cons] at this

end Keeper

/-- **While nothing stops it the loop goes on just as long as no more than 1024 runs have ended**: it has not ended,
and when it waits it is for thirty seconds at most, after which the adapter runs again. -/
theorem keeps_running_iff (acts : List KeeperAct) (k : Keeper)
    (h : Lts.Run Keeper.step Undisturbed (.start false) acts k) :
    ((∀ exit, k.phase ≠ .done exit) ∧ ∀ t, k.phase = .waiting t →
      t ≤ 30 ∧ ∃ k', k.step (.wakes .timeout) = some k' ∧ k'.phase = .running ∧ k'.starts = k.starts + 1) ↔
    acts.countP KeeperAct.endsRun ≤ 1024 := by
  have hafter := Keeper.after_run Keeper.after_start h
  rw [Nat.zero_add] at hafter
  constructor
  · rintro ⟨hdone, -⟩
    rcases hafter.phase with ⟨hn, -⟩ | ⟨-, hphase⟩
    · exact hn
    · exact absurd hphase (hdone _)
  · intro hn
    constructor
    · intro exit hexit
      rcases hafter.phase with ⟨-, hphase | ⟨-, hphase⟩⟩ | ⟨hlast, -⟩
      · rw [hexit] at hphase
        cases hphase
      · rw [hexit] at hphase
        cases hphase
      · omega
    · intro t ht
      obtain ⟨-, hphase, hstarts, hle⟩ := Keeper.after_wakes hafter ht
      exact ⟨hle, _, by rw [Keeper.step, ht], hphase, hstarts⟩

/-- An adapter that returns `n` times. -/
def returns (n : ℕ) : List KeeperAct := (List.replicate n [.runEnds .returned, .wakes .timeout]).flatten

namespace Keeper

theorem backOff_phase (k : Keeper) : k.backOff.phase ≠ .running := by
  unfold backOff
  dsimp only
  split <;> exact KeeperPhase.noConfusion

theorem returned_phase {k : Keeper} (hstop : k.stop = false) : (k.runEnds .returned).phase ≠ .running := by
  rw [runEnds, if_neg (by rw [hstop]; decide)]
  exact backOff_phase _

/-- A return before the last one, and the wait after it. -/
theorem return_run {k : Keeper} {n : ℕ} (h : After n k) (hrunning : k.phase = .running) (hn : n < 1024) :
    ∃ k', Lts.Run step Undisturbed k [.runEnds .returned, .wakes .timeout] k' ∧ k'.phase = .running := by
  have hnext := after_runEnds h hn.le .returned
  have hends : k.step (.runEnds .returned) = some (k.runEnds .returned) := if_pos hrunning
  rcases hnext.phase with ⟨-, hphase | ⟨-, hphase⟩⟩ | ⟨hlast, -⟩
  · exact absurd hphase (returned_phase h.stop)
  · have hwakes : (k.runEnds .returned).step (.wakes .timeout) = some (k.runEnds .returned).loop := by rw [step, hphase]
    refine ⟨_, .cons ⟨nofun, nofun⟩ hends (.cons ⟨nofun, nofun⟩ hwakes (.nil _)), ?_⟩
    exact (after_wakes hnext hphase).2.1
  · omega

end Keeper

theorem returns_succ (n : ℕ) : returns (n + 1) = returns n ++ [.runEnds .returned, .wakes .timeout] := by
  rw [returns, List.replicate_succ', List.flatten_append]
  rfl

theorem countP_returns (n : ℕ) : (returns n).countP KeeperAct.endsRun = n := by
  induction n with
  | zero => rfl
  | succ n ih =>
    rw [returns_succ, List.countP_append, ih]
    rfl

theorem returns_run {n : ℕ} (hn : n ≤ 1024) :
    ∃ k, Lts.Run Keeper.step Undisturbed (.start false) (returns n) k ∧ k.After n ∧ k.phase = .running := by
  induction n with
  | zero => exact ⟨_, .nil _, Keeper.after_start, rfl⟩
  | succ n ih =>
    obtain ⟨k, hrun, hafter, hrunning⟩ := ih (by omega)
    obtain ⟨k', hnext, hrunning'⟩ := Keeper.return_run hafter hrunning hn
    have hall := hrun.append hnext
    rw [← returns_succ] at hall
    have hafter' := Keeper.after_run Keeper.after_start hall
    rw [Nat.zero_add, countP_returns] at hafter'
    exact ⟨k', hall, hafter', hrunning'⟩

/-- Three returns. -/
theorem keeps_running_thrice : ∃ k, Lts.Run Keeper.step Undisturbed (.start false) (returns 3) k ∧
    ((∀ exit, k.phase ≠ .done exit) ∧ ∀ t, k.phase = .waiting t →
      t ≤ 30 ∧ ∃ k', k.step (.wakes .timeout) = some k' ∧ k'.phase = .running ∧ k'.starts = k.starts + 1) := by
  obtain ⟨k, hrun, -, -⟩ := returns_run (by decide : 3 ≤ 1024)
  exact ⟨k, hrun, (keeps_running_iff _ k hrun).2 (by decide)⟩

/-- At the 1025th return the loop raises. -/
theorem overflow_ends_loop : ∃ k, Lts.Run Keeper.step Undisturbed (.start false)
    (returns 1024 ++ [.runEnds .returned]) k ∧
    k.phase = .done .raised := by
  obtain ⟨k, hrun, hafter, hrunning⟩ := returns_run (le_refl 1024)
  have hends : k.step (.runEnds .returned) = some (k.runEnds .returned) := if_pos hrunning
  refine ⟨_, hrun.append (.cons ⟨nofun, nofun⟩ hends (.nil _)), ?_⟩
  rcases (Keeper.after_runEnds hafter (le_refl 1024) .returned).phase with ⟨hn, -⟩ | ⟨-, hphase⟩
  · omega
  · exact hphase

end Supervision
