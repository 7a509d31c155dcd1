import Mathlib.Algebra.Order.Field.Rat
import Mathlib.Data.List.Forall2
import Mathlib.Tactic.Linarith
import MarketFeed.Lib.Lists
import MarketFeed.Lib.Run
/-!
# Logins and their throttle (auth.py:46-70, order_desk.py:171-190, contest.py:184-201, :276-290)

The three logins do the same: the lock is looked at, the password is verified on a worker thread, and back
on the event loop the answer is counted. Between the look and the count any other request may run.

| here | there |
| --- | --- |
| `Door` | whose throttle: `self.throttle`, `self.throttles[nick]`, `self.admin_throttle` |
| `Gate.waiting` | logins that got past `locked_for`, their password not verified yet |
| `Gate.verified` | logins whose `to_thread` is done and that have not gone on, with the time and the answer |
| `Gate.wrong` | when a password was found wrong |
| `Label.unknown` | a contest login under a nickname nobody has: wrong at once |

Times are seconds of the monotonic clock, as exact numbers. A request that fails before the lock or
before the password (no header, bad JSON) changes nothing and is left out.
-/

namespace Auth

def FAIL_WINDOW_S : ℚ := 300

def FAIL_LIMIT : ℕ := 5

def LOCK_S : ℚ := 60

structure Throttle where
  fails : List ℚ
  lockedUntil : ℚ
  deriving DecidableEq

def Throttle.lockedFor (t : Throttle) (now : ℚ) : ℚ := max 0 (t.lockedUntil - now)

def Throttle.fail (t : Throttle) (now : ℚ) : Throttle :=
  let fails := (t.fails.filter fun f => decide (now - f < FAIL_WINDOW_S)) ++ [now]
  if FAIL_LIMIT ≤ fails.length then ⟨[], now + LOCK_S⟩ else ⟨fails, t.lockedUntil⟩

def Throttle.success (t : Throttle) : Throttle := { t with fails := [] }

inductive Door
  | desk
  | contest (nickname : String)
  | admin
  deriving DecidableEq

structure Gate where
  throttle : Throttle
  waiting : ℕ
  verified : List (ℚ × Bool)
  wrong : List ℚ
  deriving DecidableEq

def Gate.fresh : Gate := ⟨⟨[], 0⟩, 0, [], []⟩

/-- Past the lock. -/
def Gate.pass (g : Gate) : Gate := { g with waiting := g.waiting + 1 }

/-- `verify_password` returns on its thread. -/
def Gate.verify (g : Gate) (now : ℚ) (correct : Bool) : Gate :=
  { g with
    waiting := g.waiting - 1
    verified := g.verified ++ [(now, correct)]
    wrong := if correct then g.wrong else g.wrong ++ [now] }

/-- The login of the `i`-th answer goes on. -/
def Gate.resume (g : Gate) (now : ℚ) (i : ℕ) : Option Gate :=
  g.verified[i]?.map fun answer =>
    { g with
      verified := g.verified.eraseIdx i
      throttle := if answer.2 then g.throttle.success else g.throttle.fail now }

/-- No participant has the nickname: `th.fail()` without a password to verify. -/
def Gate.unknown (g : Gate) (now : ℚ) : Gate := { g with throttle := g.throttle.fail now, wrong := g.wrong ++ [now] }

structure State where
  now : ℚ
  gate : Door → Gate

def State.start (now : ℚ) : State := ⟨now, fun _ => .fresh⟩

def State.set (s : State) (k : Door) (g : Gate) : State := { s with gate := Function.update s.gate k g }

/-- `locked_for() > 0`. -/
def State.locked (s : State) (k : Door) : Bool := decide (0 < (s.gate k).throttle.lockedFor s.now)

inductive Label
  | tick (seconds : ℚ)
  | login (k : Door)
  | unknown (nickname : String)
  | verify (k : Door) (correct : Bool)
  | resume (k : Door) (i : ℕ)
  deriving DecidableEq

def step (s : State) : Label → Option State
  | .tick seconds => if 0 ≤ seconds then some { s with now := s.now + seconds } else none
  | .login k => some (if s.locked k then s else s.set k (s.gate k).pass)
  | .unknown nickname =>
    let k : Door := .contest nickname
    some (if s.locked k then s else s.set k ((s.gate k).unknown s.now))
  | .verify k correct => if 0 < (s.gate k).waiting then some (s.set k ((s.gate k).verify s.now correct)) else none
  | .resume k i => ((s.gate k).resume s.now i).map (s.set k)

/-- Logins past the lock whose failure is not counted yet. -/
def Gate.inFlight (g : Gate) : ℕ := g.waiting + g.verified.length

/-- A login that gets past the lock of `k` finds fewer than five in flight and counted together. -/
def Spaced (k : Door) (s : State) : Label → Prop
  | .login k' => k' = k → s.locked k = false → (s.gate k).inFlight + (s.gate k).throttle.fails.length < FAIL_LIMIT
  | .unknown nickname => Door.contest nickname = k → s.locked k = false →
      (s.gate k).inFlight + (s.gate k).throttle.fails.length < FAIL_LIMIT
  | _ => True

instance (k : Door) (s : State) (l : Label) : Decidable (Spaced k s l) := by
  cases l <;> unfold Spaced <;> infer_instance

/-- The passwords found wrong in the half-open minute from `a` on. -/
def Gate.wrongIn (g : Gate) (a : ℚ) : ℕ := g.wrong.countP fun t => decide (a ≤ t ∧ t < a + 60)

end Auth
