import Mathlib.Data.Finset.Erase
import Mathlib.Data.Finset.Insert
import Mathlib.Data.String.Basic
import MarketFeed.Lib.Streak
import MarketFeed.Lib.Upsert
/-!
# The same record again (src/mdfeed/quality.py:179-236)

A check keeps for each key the last record, when the run of it began and how long it is; the keys that have been
reported are in a set of their own. An event comes with the first record of a run that makes both thresholds, and
never with the first of a run (`emits_iff`): one record repeats nothing.

| here | there |
| --- | --- |
| `Call` | the arguments of `check`, and what `now_fn()` returns in it |
| `Held` | a value of `_state` |
| `Text` | `f"{held:.0f}"`, `f"{price:,.4g}"` |
| `run` | not in the source: what `check` was called with for a key, and what it returned, as far back as the record is the same |

Prices are compared with `==`, of which nothing is assumed, and times only as in the source.
-/

namespace Quality.StaleValue

open Keyed

variable {P T : Type}

structure Call (P T : Type) where
  venue : String
  symbol : String
  price : P
  tsNs : ℤ
  now : T

structure Held (P T : Type) where
  ident : P × ℤ
  since : T
  count : ℕ

structure QualityEvent (T : Type) where
  tsNs : ℤ
  check : String
  severity : String
  venue : String
  symbol : String
  detail : String
  value : T

structure Text (P T : Type) where
  seconds : T → String
  price : P → String

structure StaleValueCheck (P T : Type) where
  afterS : T
  minUpdates : ℤ
  state : List (String × Held P T)
  fired : Finset String

def Call.key (x : Call P T) : String := x.venue ++ ":" ++ x.symbol

def Call.ident (x : Call P T) : P × ℤ := (x.price, x.tsNs)

def fresh (afterS : T) (minUpdates : ℤ) : StaleValueCheck P T := ⟨afterS, minUpdates, [], ∅⟩

namespace StaleValueCheck

def keep (c : StaleValueCheck P T) (key : String) (h : Held P T) : StaleValueCheck P T :=
  { c with state := upsert Prod.fst (fun _ r => r) c.state (key, h) }

/-- A record that is not the last one. -/
def begin (c : StaleValueCheck P T) (x : Call P T) : StaleValueCheck P T :=
  { c.keep x.key ⟨x.ident, x.now, 1⟩ with fired := c.fired.erase x.key }

variable [BEq P] [Sub T] [LE T] [DecidableLE T] (text : Text P T)

def check (c : StaleValueCheck P T) (x : Call P T) : Option (QualityEvent T) × StaleValueCheck P T :=
  match lookup Prod.fst x.key c.state with
  | none => (none, c.begin x)
  | some (_, prev) =>
    if prev.ident != x.ident then (none, c.begin x)
    else
      let c := c.keep x.key ⟨x.ident, prev.since, prev.count + 1⟩
      let held := x.now - prev.since
      if c.afterS ≤ held ∧ c.minUpdates ≤ (prev.count + 1 : ℕ) ∧ x.key ∉ c.fired then
        (some ⟨x.tsNs, "stale_value", "WARNING", x.venue, x.symbol,
            text.seconds held ++ "초 동안 " ++ toString (prev.count + 1) ++ "건이 모두 같은 기록 (가격 " ++ text.price x.price ++
              " · 체결시각 동일) — 업스트림이 같은 레코드를 반복하고 있다", held⟩,
          { c with fired := insert x.key c.fired })
      else (none, c)

def after (c : StaleValueCheck P T) (calls : List (Call P T)) : StaleValueCheck P T :=
  calls.foldl (fun c x => (c.check text x).2) c

/-- The calls, and what they returned. -/
def trace (c : StaleValueCheck P T) : List (Call P T) → List (Call P T × Option (QualityEvent T))
  | [] => []
  | x :: calls => (x, (c.check text x).1) :: trace (c.check text x).2 calls

/-- Those of one key. -/
def traceOf (c : StaleValueCheck P T) (key : String) (calls : List (Call P T)) :
    List (Call P T × Option (QualityEvent T)) :=
  (c.trace text calls).filter fun e => decide (e.1.key = key)

end StaleValueCheck

/-- Two calls with the same record. -/
def SameRecord [BEq P] (a b : Call P T × Option (QualityEvent T)) : Prop := (a.1.ident == b.1.ident) = true

instance [BEq P] : DecidableRel (@SameRecord P T _) := fun _ _ => inferInstanceAs (Decidable (_ = true))

open StaleValueCheck Streak

/-! ## What is kept of a run -/

def heldOf (run : List (Call P T × Option (QualityEvent T))) : Option (Held P T) :=
  match run.head?, run.getLast? with
  | some first, some last => some ⟨last.1.ident, first.1.now, run.length⟩
  | _, _ => none

@[simp] theorem heldOf_nil : heldOf ([] : List (Call P T × Option (QualityEvent T))) = none := rfl

@[simp] theorem heldOf_singleton (e : Call P T × Option (QualityEvent T)) :
    heldOf [e] = some ⟨e.1.ident, e.1.now, 1⟩ := rfl

theorem heldOf_eq_some {run : List (Call P T × Option (QualityEvent T))} {h : Held P T} : heldOf run = some h ↔
    ∃ first last, run.head? = some first ∧ run.getLast? = some last ∧ h = ⟨last.1.ident, first.1.now, run.length⟩ := by
  unfold heldOf
  cases run.head? <;> cases run.getLast? <;> simp [eq_comm]

theorem heldOf_eq_none {run : List (Call P T × Option (QualityEvent T))} : heldOf run = none ↔ run = [] := by
  cases run with
  | nil => simp
  | cons first rest => simp [heldOf, List.getLast?_cons]

theorem of_heldOf {run : List (Call P T × Option (QualityEvent T))} {h : Held P T} (hrun : heldOf run = some h) :
    run.length = h.count ∧ ∃ first, run.head? = some first ∧ first.1.now = h.since := by
  obtain ⟨first, last, hfirst, -, rfl⟩ := heldOf_eq_some.1 hrun
  exact ⟨rfl, first, hfirst, rfl⟩

theorem heldOf_concat {run : List (Call P T × Option (QualityEvent T))} {h : Held P T} (hrun : heldOf run = some h)
    (e : Call P T × Option (QualityEvent T)) : heldOf (run ++ [e]) = some ⟨e.1.ident, h.since, h.count + 1⟩ := by
  obtain ⟨first, last, hfirst, -, rfl⟩ := heldOf_eq_some.1 hrun
  apply heldOf_eq_some.2
  exact ⟨first, e, by simp [hfirst], by simp, by simp⟩

section

variable [BEq P]

/-- The last record of a run is the one it is known by. -/
theorem extend_of_heldOf {run : List (Call P T × Option (QualityEvent T))} {h : Held P T} (hrun : heldOf run = some h)
    (e : Call P T × Option (QualityEvent T)) :
    extend SameRecord run e = if (h.ident == e.1.ident) = true then run ++ [e] else [e] := by
  obtain ⟨first, last, -, hlast, rfl⟩ := heldOf_eq_some.1 hrun
  rw [extend, hlast]
  rfl

theorem extend_of_nil {run : List (Call P T × Option (QualityEvent T))} (hrun : heldOf run = none)
    (e : Call P T × Option (QualityEvent T)) :
    run = [] ∧ extend SameRecord run e = [e] := by
  obtain rfl := heldOf_eq_none.1 hrun
  exact ⟨rfl, rfl⟩

end

variable [BEq P] [Sub T] [LE T] [DecidableLE T] {text : Text P T}

/-! ## One more call -/

theorem after_concat (c : StaleValueCheck P T) (calls : List (Call P T)) (x : Call P T) :
    c.after text (calls ++ [x]) = ((c.after text calls).check text x).2 := by
  simp [after]

theorem trace_concat (c : StaleValueCheck P T) (calls : List (Call P T)) (x : Call P T) :
    c.trace text (calls ++ [x]) = c.trace text calls ++ [(x, ((c.after text calls).check text x).1)] := by
  induction calls generalizing c with
  | nil => rfl
  | cons y calls ih => simp only [List.cons_append, trace, ih, after, List.foldl_cons]

theorem traceOf_concat (c : StaleValueCheck P T) (key : String) (calls : List (Call P T)) (x : Call P T) :
    c.traceOf text key (calls ++ [x]) =
      if x.key = key then c.traceOf text key calls ++ [(x, ((c.after text calls).check text x).1)]
          else c.traceOf text key calls := by
  simp only [traceOf, trace_concat, List.filter_append]
  by_cases h : x.key = key <;> simp [h]

/-- The run of a key, as the check has it. -/
def runOf (text : Text P T) (c : StaleValueCheck P T) (key : String) (calls : List (Call P T)) :
    List (Call P T × Option (QualityEvent T)) :=
  streak SameRecord (c.traceOf text key calls)

theorem runOf_concat (c : StaleValueCheck P T) (calls : List (Call P T)) (x : Call P T) :
    runOf text c x.key (calls ++ [x]) = extend SameRecord (runOf text c x.key calls)
      (x, ((c.after text calls).check text x).1) := by
  rw [runOf, traceOf_concat, if_pos rfl, streak_concat, runOf]

theorem runOf_concat_of_ne (c : StaleValueCheck P T) {key : String} (calls : List (Call P T))
    {x : Call P T} (h : x.key ≠ key) :
    runOf text c key (calls ++ [x]) = runOf text c key calls := by
  rw [runOf, traceOf_concat, if_neg h, runOf]

/-! ## What a check keeps -/

structure Kept (text : Text P T) (c : StaleValueCheck P T) (key : String)
    (run : List (Call P T × Option (QualityEvent T))) : Prop where
  state : lookup Prod.fst key c.state = (heldOf run).map fun h => (key, h)
  fired : key ∈ c.fired ↔ ∃ e ∈ run, e.2.isSome

/-! ## One call -/

theorem check_begin {c : StaleValueCheck P T} {x : Call P T}
    (h : ∀ prev, lookup Prod.fst x.key c.state = some (x.key, prev) → (prev.ident == x.ident) = false) :
    c.check text x = (none, c.begin x) := by
  rw [check]
  split
  · rfl
  · rename_i k prev hlook
    have hk : k = x.key := key_of_lookup hlook
    rw [bne, h prev (by rw [hlook, hk]), Bool.not_false, if_pos rfl]

theorem check_again (text : Text P T) {c : StaleValueCheck P T} {x : Call P T} {prev : Held P T}
    (hlook : lookup Prod.fst x.key c.state = some (x.key, prev))
    (hsame : (prev.ident == x.ident) = true) :
    ((c.check text x).1.isSome ↔ c.afterS ≤ x.now - prev.since ∧ c.minUpdates ≤ (prev.count + 1 : ℕ) ∧
      x.key ∉ c.fired) ∧
      (c.check text x).2.state = (c.keep x.key ⟨x.ident, prev.since, prev.count + 1⟩).state ∧
      (c.check text x).2.fired = if (c.check text x).1.isSome then insert x.key c.fired else c.fired := by
  simp only [check, hlook, bne, hsame, Bool.not_true, Bool.false_eq_true, if_false]
  by_cases hfire : c.afterS ≤ x.now - prev.since ∧ c.minUpdates ≤ (prev.count + 1 : ℕ) ∧ x.key ∉ c.fired
  · have hkeep : (c.keep x.key ⟨x.ident, prev.since, prev.count + 1⟩).afterS ≤ x.now - prev.since ∧
        (c.keep x.key ⟨x.ident, prev.since, prev.count + 1⟩).minUpdates ≤ (prev.count + 1 : ℕ) ∧
        x.key ∉ (c.keep x.key ⟨x.ident, prev.since, prev.count + 1⟩).fired := hfire
    rw [if_pos hkeep]
    exact ⟨iff_of_true rfl hfire, rfl, rfl⟩
  · have hkeep : ¬ ((c.keep x.key ⟨x.ident, prev.since, prev.count + 1⟩).afterS ≤ x.now - prev.since ∧
        (c.keep x.key ⟨x.ident, prev.since, prev.count + 1⟩).minUpdates ≤ (prev.count + 1 : ℕ) ∧
        x.key ∉ (c.keep x.key ⟨x.ident, prev.since, prev.count + 1⟩).fired) := hfire
    rw [if_neg hkeep]
    exact ⟨iff_of_false Bool.false_ne_true hfire, rfl, rfl⟩

/-- Other keys are left alone. -/
theorem check_of_ne (text : Text P T) {c : StaleValueCheck P T} {x : Call P T} {key : String} (h : x.key ≠ key) :
    lookup Prod.fst key (c.check text x).2.state = lookup Prod.fst key c.state ∧
      (key ∈ (c.check text x).2.fired ↔ key ∈ c.fired) := by
  have hkeep (held : Held P T) : lookup Prod.fst key (c.keep x.key held).state = lookup Prod.fst key c.state := by
    rw [keep, lookup_replace, if_neg h]
  have hbegin : key ∈ (c.begin x).fired ↔ key ∈ c.fired := by simp [begin, h.symm]
  rw [check]
  split
  · exact ⟨hkeep _, hbegin⟩
  · split
    · exact ⟨hkeep _, hbegin⟩
    · dsimp only
      split
      · exact ⟨hkeep _, by simp [keep, h.symm]⟩
      · exact ⟨hkeep _, Iff.rfl⟩

theorem check_thresholds (c : StaleValueCheck P T) (x : Call P T) :
    (c.check text x).2.afterS = c.afterS ∧ (c.check text x).2.minUpdates = c.minUpdates := by
  rw [check]
  split
  · exact ⟨rfl, rfl⟩
  · split
    · exact ⟨rfl, rfl⟩
    · dsimp only
      split <;> exact ⟨rfl, rfl⟩

theorem after_thresholds (text : Text P T) (c : StaleValueCheck P T) (calls : List (Call P T)) :
    (c.after text calls).afterS = c.afterS ∧ (c.after text calls).minUpdates = c.minUpdates := by
  induction calls using List.reverseRecOn with
  | nil => exact ⟨rfl, rfl⟩
  | append_singleton calls x ih =>
    rw [after_concat, (check_thresholds _ x).1, (check_thresholds _ x).2]
    exact ih

/-! ## Runs of calls -/

/-- A call of the key begins a run or goes on with the one that is kept. -/
theorem Kept.cases {c : StaleValueCheck P T} {x : Call P T} {run : List (Call P T × Option (QualityEvent T))}
    (hkept : Kept text c x.key run) :
    (c.check text x = (none, c.begin x) ∧ ∀ event, extend SameRecord run (x, event) = [(x, event)]) ∨
      ∃ held, heldOf run = some held ∧ lookup Prod.fst x.key c.state = some (x.key, held) ∧
      (held.ident == x.ident) = true ∧
        ∀ event, extend SameRecord run (x, event) = run ++ [(x, event)] := by
  have hstate := hkept.state
  cases hheld : heldOf run with
  | none =>
    rw [hheld, Option.map_none] at hstate
    refine .inl ⟨check_begin fun prev h => ?_, fun event => (extend_of_nil hheld _).2⟩
    rw [hstate] at h
    cases h
  | some held =>
    rw [hheld, Option.map_some] at hstate
    by_cases hsame : (held.ident == x.ident) = true
    · exact .inr ⟨held, rfl, hstate, hsame, fun event => by rw [extend_of_heldOf hheld, if_pos hsame]⟩
    · refine .inl ⟨check_begin fun prev h => ?_, fun event => by rw [extend_of_heldOf hheld, if_neg hsame]⟩
      rw [hstate, Option.some.injEq, Prod.mk.injEq] at h
      exact h.2 ▸ Bool.eq_false_iff.2 hsame

/-- What a call of the key itself does to what is kept. -/
theorem Kept.check {c : StaleValueCheck P T} {x : Call P T} {run : List (Call P T × Option (QualityEvent T))}
    (hkept : Kept text c x.key run) :
    Kept text (c.check text x).2 x.key (extend SameRecord run (x, (c.check text x).1)) := by
  rcases hkept.cases with ⟨hcheck, hextend⟩ | ⟨held, hheld, hstate, hsame, hextend⟩
  · rw [hcheck, hextend]
    constructor
    · simp [begin, keep, lookup_replace]
    · simp [begin]
  · obtain ⟨-, hnext, hfired⟩ := check_again text hstate hsame
    rw [hextend]
    constructor
    · rw [hnext, heldOf_concat hheld, keep, lookup_replace, if_pos rfl, Option.map_some]
    · rw [hfired]
      split
      · simp [*]
      · simp only [List.mem_append, List.mem_singleton, or_and_right, exists_or, exists_eq_left, hkept.fired]
        simp [*]

theorem kept_after (text : Text P T) (afterS : T) (minUpdates : ℤ) (key : String) (calls : List (Call P T)) :
    Kept text ((fresh afterS minUpdates).after text calls) key (runOf text (fresh afterS minUpdates) key calls) := by
  induction calls using List.reverseRecOn with
  | nil => exact ⟨rfl, by simp [after, fresh, runOf, traceOf, trace, streak]⟩
  | append_singleton calls x ih =>
    rw [after_concat]
    by_cases h : x.key = key
    · subst h
      rw [runOf_concat]
      exact ih.check
    · obtain ⟨hstate, hfired⟩ := check_of_ne text (c := (fresh afterS minUpdates).after text calls) h
      rw [runOf_concat_of_ne _ calls h]
      exact ⟨hstate.trans ih.state, hfired.trans ih.fired⟩

/-- **An event comes just where the run of the record makes both thresholds, is no first record, and has had none.** -/
theorem emits_iff (text : Text P T) (afterS : T) (minUpdates : ℤ) (calls : List (Call P T)) (x : Call P T) :
    let c := fresh afterS minUpdates
    ∃ run, Maximal SameRecord (c.traceOf text x.key (calls ++ [x])) run ∧
      (((c.after text calls).check text x).1.isSome ↔
        2 ≤ run.length ∧ minUpdates ≤ run.length ∧ (∃ first ∈ run.head?, afterS ≤ x.now - first.1.now) ∧
        ∀ e ∈ run.dropLast, e.2 = none) := by
  intro c
  refine ⟨runOf text c x.key (calls ++ [x]), maximal_streak _, ?_⟩
  have hkept := kept_after text afterS minUpdates x.key calls
  obtain ⟨hafter, hmin⟩ := after_thresholds text c calls
  rw [runOf_concat]
  rcases hkept.cases with ⟨hcheck, hextend⟩ | ⟨held, hheld, hstate, hsame, hextend⟩
  · rw [hcheck, hextend]
    simp
  · obtain ⟨hlen, first, hhead, hsince⟩ := of_heldOf hheld
    rw [(check_again text hstate hsame).1, hextend, hkept.fired, hafter, hmin]
    have hpos : 0 < held.count := by
      rw [← hlen, List.length_pos_iff]
      rintro hnil
      simp [hnil] at hhead
    have hheads : (runOf text c x.key calls ++ [(x, ((c.after text calls).check text x).1)]).head? = some first := by
      rw [List.head?_append, hhead, Option.some_or]
    rw [hheads, List.dropLast_concat, List.length_append, hlen, List.length_singleton]
    constructor
    · rintro ⟨hspan, hcount, hnone⟩
      refine ⟨by omega, hcount, ⟨first, rfl, hsince ▸ hspan⟩, fun e he => ?_⟩
      rw [← Option.not_isSome_iff_eq_none]
      exact fun hsome => hnone ⟨e, he, hsome⟩
    · rintro ⟨-, hcount, ⟨first', hfirst', hspan⟩, hnone⟩
      rw [Option.mem_some_iff] at hfirst'
      subst hfirst'
      refine ⟨hsince ▸ hspan, hcount, ?_⟩
      rintro ⟨e, he, hsome⟩
      simp [hnone e he] at hsome

/-- With thresholds that one record makes, the first record is a run of one that makes them, and nothing is said. -/
theorem first_record_silent :
    let text : Text ℤ ℤ := ⟨toString, toString⟩
    let x : Call ℤ ℤ := ⟨"UPBIT", "KRW-BTC", 100, 1, 0⟩
    let run := [(x, none)]
    Maximal SameRecord ((fresh 0 1).traceOf text x.key [x]) run ∧
      ¬ (((fresh 0 1).check text x).1.isSome ↔
          (1 : ℤ) ≤ run.length ∧ (∃ first ∈ run.head?, 0 ≤ x.now - first.1.now) ∧ ∀ e ∈ run.dropLast, e.2 = none) := by
  refine ⟨maximal_streak (R := SameRecord) _, fun hiff => ?_⟩
  have hfires := hiff.2 ⟨by decide, ⟨_, rfl, by decide⟩, fun e he => by cases he⟩
  cases hfires

end Quality.StaleValue
