import MarketFeed.Lib.Run
import Mathlib.Algebra.Order.Field.Rat
import Mathlib.Tactic.Common
/-!
# Supervised tasks (supervisor.py:44-100)

`spawn` starts a task whose coroutine is `_run`: it awaits a run of the factory, and after a run that ended
without a stop request it waits on the stop event, for `backoff` seconds, and runs the factory again. A task
is at one of the two awaits or has ended (`Phase`). A cancellation that arrives during the first goes into
the factory, which may go on or end with any `Outcome`; one that arrives during the second ends the wait.

| here | there |
| --- | --- |
| `Supervisor.tasks` | the states of `self.tasks`, in the order of `spawn`; the task of an entry that a later one of its name replaced is here too |
| `Task.stop` | which `asyncio.Event` the task was spawned with; `Supervisor.stops` are those that are set |
| `Outcome.raised name text` | an exception other than `CancelledError`; `text` is `str(e)`, `none` where that raises |
| `Supervisor.counted` | the calls of `registry.counter("task_restarts_total", task=name)`, by name |
| `Task.runs` | how many runs of the factory have ended; the source does not count them |

`restarts_eq_runs_iff` says when a supervised task stays and every end of a run is counted.
-/

namespace Supervision

/-- How a run of the factory ends. -/
inductive Outcome
  | returned
  | cancelled
  | raised (typeName : String) (text : Option String)
  deriving DecidableEq

/-- How `wait_for(stop.wait(), timeout=backoff)` ends. -/
inductive Wake | stopSet | timeout | cancelled
  deriving DecidableEq

/-- How the supervising task ends. -/
inductive Exit | returned | cancelled | raised
  deriving DecidableEq

inductive Phase
  | running
  | waiting
  | done (exit : Exit)
  deriving DecidableEq

structure Task where
  name : String
  restart : Bool
  stop : ℕ
  restarts : ℕ
  lastExit : Option String
  alive : Bool
  backoff : ℚ
  phase : Phase
  runs : ℕ
  deriving DecidableEq

structure Supervisor where
  hasRegistry : Bool
  backoffMaxS : ℚ
  tasks : List Task
  stops : List ℕ
  counted : List String
  deriving DecidableEq

def Supervisor.new (hasRegistry : Bool) (backoffMaxS : ℚ) : Supervisor := ⟨hasRegistry, backoffMaxS, [], [], []⟩

/-- `stop.is_set()`. -/
def Supervisor.isSet (s : Supervisor) (stop : ℕ) : Bool := s.stops.contains stop

namespace Task

def new (name : String) (restart : Bool) (stop : ℕ) : Task := ⟨name, restart, stop, 0, none, true, 1 / 2, .running, 0⟩

/-- `while not stop.is_set()`, up to the factory's `await`. -/
def loop (isSet : Bool) (t : Task) : Task :=
  if isSet then { t with phase := .done .returned } else { t with alive := true, phase := .running }

/-- After the `try`, up to the wait. -/
def afterTry (isSet : Bool) (t : Task) : Task :=
  let t := { t with alive := false }
  if !t.restart || isSet then { t with phase := .done .returned }
    else { t with restarts := t.restarts + 1, phase := .waiting }

def runEnds (isSet : Bool) (t : Task) : Outcome → Task
  | .returned =>
    if isSet then { t with runs := t.runs + 1, lastExit := some "stopped", phase := .done .returned }
    else afterTry isSet { t with runs := t.runs + 1, lastExit := some "returned" }
  | .cancelled =>
    if isSet then { t with runs := t.runs + 1, lastExit := some "cancelled(stop)", phase := .done .cancelled }
    else afterTry isSet { t with runs := t.runs + 1, lastExit := some "cancelled" }
  -- `f"{type(e).__name__}: {e}"` is evaluated inside the `except` clause
  | .raised _ none => { t with runs := t.runs + 1, phase := .done .raised }
  | .raised typeName (some text) =>
    afterTry isSet { t with runs := t.runs + 1, lastExit := some (typeName ++ ": " ++ text) }

/-- After the wait: `suppress` lets a `CancelledError` through. -/
def wakes (backoffMaxS : ℚ) (isSet : Bool) (t : Task) : Wake → Task
  | .cancelled => { t with phase := .done .cancelled }
  | .stopSet | .timeout => loop isSet { t with backoff := min (t.backoff * 2) backoffMaxS }

end Task

inductive Act
  | spawn (name : String) (restart : Bool) (stop : ℕ)
  | setStop (stop : ℕ)
  | runEnds (i : ℕ) (outcome : Outcome)
  | wakes (i : ℕ) (wake : Wake)
  deriving DecidableEq

namespace Supervisor

/-- The task at an await, after what it awaited. -/
def put (s : Supervisor) (i : ℕ) (t : Task) : Supervisor :=
  { s with
    tasks := s.tasks.set i t
    counted := if s.hasRegistry && t.phase == .waiting then s.counted ++ [t.name] else s.counted }

def step (s : Supervisor) : Act → Option Supervisor
  | .spawn name restart stop => some { s with tasks := s.tasks ++ [Task.loop (s.isSet stop) (.new name restart stop)] }
  | .setStop stop => some { s with stops := s.stops ++ [stop] }
  | .runEnds i outcome =>
    s.tasks[i]?.bind fun t => if t.phase = .running then some (s.put i (t.runEnds (s.isSet t.stop) outcome)) else none
  | .wakes i wake =>
    s.tasks[i]?.bind fun t =>
      if t.phase = .waiting ∧ (wake = .stopSet → s.isSet t.stop = true) then
        some (s.put i (t.wakes s.backoffMaxS (s.isSet t.stop) wake))
      else none

end Supervisor

/-! ## One task -/

/-- A task that is to be kept up has not ended, and its counter is the number of its runs that have. -/
def Task.Kept (isSet : Bool) (t : Task) : Prop := t.restart = true → isSet = false → (∀ e, t.phase ≠ .done e) ∧
    t.restarts = t.runs

/-- Every task of the supervisor, as long as its stop event is not set. -/
def Supervised (s : Supervisor) : Prop := ∀ t ∈ s.tasks, t.Kept (s.isSet t.stop)

/-- The two ends that `_run` does not survive. -/
def Act.leavesLoop : Act → Option ℕ
  | .runEnds i (.raised _ none) => some i
  | .wakes i .cancelled => some i
  | _ => none

/-- A task that is to be kept up is not cancelled while it waits, and its factory raises nothing without a text. -/
def Survives (s : Supervisor) (a : Act) : Prop :=
  ∀ i t, a.leavesLoop = some i → s.tasks[i]? = some t → t.restart = true → s.isSet t.stop = true

namespace Task

variable {t : Task} {isSet : Bool}

@[simp] theorem loop_stop : (t.loop isSet).stop = t.stop := by
  unfold loop; split <;> rfl

@[simp] theorem loop_restart : (t.loop isSet).restart = t.restart := by
  unfold loop; split <;> rfl

@[simp] theorem afterTry_stop : (t.afterTry isSet).stop = t.stop := by
  simp only [afterTry]; split <;> rfl

@[simp] theorem runEnds_stop (o : Outcome) : (t.runEnds isSet o).stop = t.stop := by
  unfold runEnds
  split <;> (try split) <;> simp

@[simp] theorem wakes_stop (m : ℚ) (w : Wake) : (t.wakes m isSet w).stop = t.stop := by
  cases w <;> simp [wakes]

theorem Kept.loop (h : t.restart = true → isSet = false → t.restarts = t.runs) : (t.loop isSet).Kept isSet := by
  intro hr hs
  rw [loop_restart] at hr
  simp [Task.loop, hs, h hr hs]

theorem Kept.afterTry (h : t.restart = true → isSet = false → t.restarts + 1 = t.runs) :
    (t.afterTry isSet).Kept isSet := by
  intro hr hs
  have hrestart : t.restart = true := by
    simp only [Task.afterTry] at hr
    split at hr <;> exact hr
  simp [Task.afterTry, hrestart, hs, h hrestart hs]

/-- A run that has ended is counted, unless the exception has no text. -/
theorem kept_runEnds (h : t.Kept isSet) (o : Outcome) :
    (t.runEnds isSet o).Kept isSet ↔ ((∃ typeName, o = .raised typeName none) → t.restart = true → isSet = true) := by
  have hcount (hr : t.restart = true) (hs : isSet = false) : t.restarts + 1 = t.runs + 1 := by rw [(h hr hs).2]
  cases o with
  | returned =>
    refine iff_of_true ?_ (by simp)
    cases isSet with
    | true => exact fun _ hs => by (cases hs)
    | false => exact Kept.afterTry hcount
  | cancelled =>
    refine iff_of_true ?_ (by simp)
    cases isSet with
    | true => exact fun _ hs => by (cases hs)
    | false => exact Kept.afterTry hcount
  | raised typeName text =>
    cases text with
    | some text => exact iff_of_true (Kept.afterTry hcount) (by simp)
    | none =>
      cases hs : isSet with
      | true => simp [Kept]
      | false => simp [Kept, runEnds]

/-- A task that waits goes on, unless it is cancelled. -/
theorem kept_wakes (h : t.Kept isSet) (m : ℚ) (w : Wake) :
    (t.wakes m isSet w).Kept isSet ↔ (w = .cancelled → t.restart = true → isSet = true) := by
  cases w with
  | cancelled =>
    cases hs : isSet with
    | true => simp [Kept]
    | false => simp [Kept, wakes]
  | stopSet | timeout => exact iff_of_true (Kept.loop fun hr hs => (h hr hs).2) (by simp)

end Task

/-! ## One step -/

theorem supervised_new (hasRegistry : Bool) (backoffMaxS : ℚ) : Supervised (.new hasRegistry backoffMaxS) :=
  fun _ ht => by (cases ht)

/-- One task changes: the others are as they were. -/
theorem supervised_put {s : Supervisor} {i : ℕ} {t t' : Task} (h : Supervised s) (hi : s.tasks[i]? = some t) :
    Supervised (s.put i t') ↔ t'.Kept (s.isSet t'.stop) := by
  have hlt : i < s.tasks.length := (List.getElem?_eq_some_iff.1 hi).1
  constructor
  · exact fun hput => hput t' (List.mem_set hlt t')
  · intro ht' u hu
    rcases List.mem_or_eq_of_mem_set hu with hu | rfl
    · exact h u hu
    · exact ht'

theorem supervised_step {s s' : Supervisor} {a : Act} (h : Supervised s) (hst : s.step a = some s') : Supervised s' ↔
    Survives s a := by
  cases a with
  | spawn name restart stop =>
    cases hst
    refine iff_of_true (fun t ht => ?_) (fun i t hi => by cases hi)
    rcases List.mem_append.1 ht with ht | ht
    · exact h t ht
    · obtain rfl := List.mem_singleton.1 ht
      rw [Task.loop_stop]
      exact Task.Kept.loop fun _ _ => rfl
  | setStop stop =>
    cases hst
    refine iff_of_true (fun t ht hr hs => ?_) (fun i t hi => by cases hi)
    refine h t ht hr ?_
    simp only [Supervisor.isSet, List.contains_eq_mem, decide_eq_false_iff_not, List.mem_append, not_or] at hs ⊢
    exact hs.1
  | runEnds i o =>
    obtain ⟨t, hi, hst⟩ := Option.bind_eq_some_iff.1 hst
    obtain ⟨-, he⟩ := Option.ite_none_right_eq_some.1 hst
    cases he
    rw [supervised_put h hi, Task.runEnds_stop, Task.kept_runEnds (h t (List.mem_of_getElem? hi))]
    constructor
    · intro hend j u hj hu
      rcases o with _ | _ | ⟨typeName, _ | text⟩ <;> cases hj
      cases hi.symm.trans hu
      exact hend ⟨typeName, rfl⟩
    · rintro hs ⟨typeName, rfl⟩
      exact hs i t rfl hi
  | wakes i w =>
    obtain ⟨t, hi, hst⟩ := Option.bind_eq_some_iff.1 hst
    obtain ⟨-, he⟩ := Option.ite_none_right_eq_some.1 hst
    cases he
    rw [supervised_put h hi, Task.wakes_stop, Task.kept_wakes (h t (List.mem_of_getElem? hi))]
    constructor
    · intro hend j u hj hu
      cases w <;> cases hj
      cases hi.symm.trans hu
      exact hend rfl
    · rintro hs rfl
      exact hs i t rfl hi

/-! ## Runs -/

/-- **A supervised task stays, and its counter is the number of runs that have ended, exactly as long as it is not
cancelled while it waits and its factory raises nothing without a text.** -/
theorem restarts_eq_runs_iff (hasRegistry : Bool) (backoffMaxS : ℚ) (as : List Act) (s : Supervisor)
    (h : Lts.Run Supervisor.step Lts.anyStep (.new hasRegistry backoffMaxS) as s) :
    (∀ bs cs m, as = bs ++ cs → Lts.Run Supervisor.step Lts.anyStep (.new hasRegistry backoffMaxS) bs m →
      Supervised m) ↔
      Lts.Run Supervisor.step Survives (.new hasRegistry backoffMaxS) as s :=
  h.invariant_iff (J := fun _ => True) (fun _ _ _ _ _ => trivial) (fun _ _ _ _ hs hst => supervised_step hs hst) trivial
    (supervised_new hasRegistry backoffMaxS)

/-- A factory that returns, raises, is cancelled while it runs and raises again. -/
theorem restarts_eq_runs_failing : ∃ s, Lts.Run Supervisor.step Lts.anyStep (.new true 30)
    [.spawn "consume" true 0, .runEnds 0 .returned, .wakes 0 .timeout, .runEnds 0 (.raised "RuntimeError" (some "x")),
      .wakes 0 .timeout,
      .runEnds 0 .cancelled, .wakes 0 .timeout, .runEnds 0 (.raised "KeyError" (some "'k'"))] s ∧ Supervised s := by
  have hex : ∃ s, Lts.Run Supervisor.step Survives (.new true 30)
      [.spawn "consume" true 0, .runEnds 0 .returned, .wakes 0 .timeout,
        .runEnds 0 (.raised "RuntimeError" (some "x")), .wakes 0 .timeout,
        .runEnds 0 .cancelled, .wakes 0 .timeout, .runEnds 0 (.raised "KeyError" (some "'k'"))] s := by
    refine ⟨_, .cons ?_ rfl (.cons ?_ rfl
      (.cons ?_ rfl (.cons ?_ rfl (.cons ?_ rfl (.cons ?_ rfl (.cons ?_ rfl (.cons ?_ rfl (.nil _))))))))⟩ <;>
      exact fun i t hi => by cases hi
  obtain ⟨s, hrun⟩ := hex
  have hany : Lts.Run Supervisor.step Lts.anyStep _ _ s := hrun.mono fun _ _ _ => trivial
  exact ⟨s, hany, (restarts_eq_runs_iff true 30 _ s hany).2 hrun _ [] s (List.append_nil _).symm hany⟩

/-- **A task cancelled while it waits for its next run is gone**: no stop was asked for. -/
theorem cancelled_while_waiting : ∃ s, Lts.Run Supervisor.step Lts.anyStep (.new true 30)
    [.spawn "consume" true 0, .runEnds 0 .returned, .wakes 0 .cancelled] s ∧ ¬ Supervised s := by
  refine ⟨_, .cons trivial rfl (.cons trivial rfl (.cons trivial rfl (.nil _))), fun h => ?_⟩
  exact (h _ List.mem_cons_self rfl rfl).1 .cancelled rfl

end Supervision
