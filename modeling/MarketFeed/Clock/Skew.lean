import Mathlib.Algebra.Order.Floor.Semiring
import Mathlib.Algebra.Order.Field.Basic
import Mathlib.Data.List.MinMax
import Mathlib.Data.Rat.Floor
import Mathlib.Tactic.Linarith
import Mathlib.Tactic.FieldSimp
import Mathlib.Tactic.Ring
import MarketFeed.Writer.Clock
/-!
# The skew of a clock (clock.py:35-78)

`SkewEstimator` keeps the least delay of each of `n` buckets in a ring. A turn of the ring goes to the next bucket and
empties it; `_roll` makes as many turns as whole buckets have passed, `n` at most, and moves `_cur_start` on by as many.
After a silence of more than that `_cur_start` stays behind the clock, so the next observation turns the ring again and
empties what was just observed.

The ring is looked at first where nothing rounds (`Clock.Exact`). The estimator of the code, whose numbers are binary64,
does the same in a run in which no operation rounds (`exactly_after`); with buckets of whole seconds none does until
2038 (`unrounded_of_ticks`). Overflow and underflow are left out.

| here | there |
| --- | --- |
| `turn` | the body of the loop of `_roll` (`clock.py:50-52`) |
| `age` | how many turns ago a bucket was the current one |
| `Call` | the arguments of `observe`, and what `time.time()` says |
| `Windowed` | an offset is the least delay of some samples: all of the last `n - 1` buckets' time, none older than the window |
-/

namespace Clock.Exact

structure SkewEstimator (K : Type) where
  n : ℕ
  bucketS : K
  buckets : List (Option K)
  curIdx : ℕ
  curStart : K
  samples : ℕ
  deriving DecidableEq

/-- The arguments of `observe`; `clock` is `time.time()`. -/
structure Call (K : Type) where
  rawUs : K
  now : Option K
  clock : K

section Code

variable {K : Type} [Field K] [LinearOrder K] [FloorSemiring K]

/-- `now or time.time()`. -/
def Call.time (c : Call K) : K :=
  match c.now with
  | some now => if now = 0 then c.clock else now
  | none => c.clock

namespace SkewEstimator

/-- `__init__` at a time. -/
def new (windowS : K) (buckets : ℕ) (clock : K) : SkewEstimator K :=
  ⟨buckets, windowS / buckets, List.replicate buckets none, 0, clock, 0⟩

def turn (e : SkewEstimator K) : SkewEstimator K :=
  { e with curIdx := (e.curIdx + 1) % e.n, buckets := e.buckets.set ((e.curIdx + 1) % e.n) none }

/-- The steps of `_roll`. -/
def steps (e : SkewEstimator K) (now : K) : ℕ :=
  if now - e.curStart < e.bucketS then 0 else min ⌊(now - e.curStart) / e.bucketS⌋₊ e.n

def roll (e : SkewEstimator K) (now : K) : SkewEstimator K :=
  { turn^[e.steps now] e with curStart := e.curStart + e.steps now * e.bucketS }

def offsetUs (e : SkewEstimator K) : K := (e.buckets.filterMap id).min?.getD 0

/-- The current bucket takes a delay that is less than its own. -/
def put (e : SkewEstimator K) (rawUs : K) : SkewEstimator K :=
  match e.buckets[e.curIdx]? with
  | some (some b) => if rawUs < b then { e with buckets := e.buckets.set e.curIdx (some rawUs) } else e
  | _ => { e with buckets := e.buckets.set e.curIdx (some rawUs) }

def observe (e : SkewEstimator K) (c : Call K) : SkewEstimator K × K :=
  let e' := { (e.roll c.time).put c.rawUs with samples := e.samples + 1 }
  (e', max 0 (c.rawUs - e'.offsetUs))

/-- After all the calls. -/
def after (e : SkewEstimator K) (calls : List (Call K)) : SkewEstimator K := calls.foldl (fun e c => (e.observe c).1) e

end SkewEstimator

end Code

namespace SkewEstimator

section Ring

variable {K : Type}

/-! ## The ring -/

/-- How many turns ago bucket `i` was the current one. -/
def age (e : SkewEstimator K) (i : ℕ) : ℕ := if i ≤ e.curIdx then e.curIdx - i else e.curIdx + e.n - i

structure Sized (e : SkewEstimator K) : Prop where
  pos : 0 < e.n
  idx : e.curIdx < e.n
  length : e.buckets.length = e.n

theorem succ_mod {i n : ℕ} (h : i < n) : (i + 1) % n = if i + 1 = n then 0 else i + 1 := by
  split
  · rename_i hn
    rw [hn, Nat.mod_self]
  · exact Nat.mod_eq_of_lt (by omega)

theorem sized_turn {e : SkewEstimator K} (h : e.Sized) : e.turn.Sized :=
  ⟨h.pos, Nat.mod_lt _ h.pos, by rw [turn, List.length_set]; exact h.length⟩

theorem turns_unchanged (e : SkewEstimator K) (k : ℕ) : (turn^[k] e).n = e.n ∧ (turn^[k] e).bucketS = e.bucketS := by
  induction k with
  | zero => exact ⟨rfl, rfl⟩
  | succ k ih =>
    rw [Function.iterate_succ_apply']
    exact ih

/-- A turn makes every bucket one turn older and the oldest the current one. -/
theorem age_turn {e : SkewEstimator K} (h : e.Sized) {i : ℕ} (hi : i < e.n) :
    e.turn.age i = if e.age i + 1 = e.n then 0 else e.age i + 1 := by
  have hidx := h.idx
  unfold age turn
  dsimp only
  rw [succ_mod h.idx]
  split_ifs <;> omega

theorem age_lt {e : SkewEstimator K} (h : e.Sized) {i : ℕ} (hi : i < e.n) : e.age i < e.n := by
  have hidx := h.idx
  unfold age
  split <;> omega

theorem age_curIdx (e : SkewEstimator K) : e.age e.curIdx = 0 := by
  rw [age, if_pos le_rfl, Nat.sub_self]

/-- A turn empties the oldest bucket. -/
theorem buckets_turn {e : SkewEstimator K} (h : e.Sized) {i : ℕ} (hi : i < e.n) :
    e.turn.buckets[i]? = if e.age i + 1 = e.n then some none else e.buckets[i]? := by
  have hidx := h.idx
  have hlen := h.length
  unfold age turn
  dsimp only
  rw [succ_mod h.idx, List.getElem?_set]
  split_ifs <;> first | rfl | omega

end Ring

/-! ## What the buckets hold -/

section Holds

variable {K : Type} [LinearOrder K] {e : SkewEstimator K} {held : ℕ → List (Call K)}

/-- Every bucket has the least delay of the calls it holds. -/
structure Holds (e : SkewEstimator K) (held : ℕ → List (Call K)) : Prop where
  sized : e.Sized
  least : ∀ i < e.n, e.buckets[i]? = some ((held i).map Call.rawUs).min?

/-- Of the other fields nothing depends. -/
theorem holds_mark (h : Holds e held) (curStart : K) (samples : ℕ) :
    Holds { e with curStart := curStart, samples := samples } held :=
  ⟨⟨h.sized.pos, h.sized.idx, h.sized.length⟩, h.least⟩

theorem holds_turn (h : Holds e held) : Holds e.turn fun i => if e.age i + 1 = e.n then [] else held i := by
  refine ⟨sized_turn h.sized, fun i hi => ?_⟩
  rw [buckets_turn h.sized hi]
  split
  · rfl
  · exact h.least i hi

/-- After `k` turns what was held less than `n - k` turns ago is still held. -/
theorem holds_turns (h : Holds e held) (k : ℕ) : Holds (turn^[k] e) fun i => if e.age i + k < e.n then held i
    else [] := by
  induction k generalizing e held with
  | zero =>
    refine ⟨h.sized, fun i hi => ?_⟩
    rw [Nat.add_zero, if_pos (age_lt h.sized hi)]
    exact h.least i hi
  | succ k ih =>
    obtain ⟨hsized, hleast⟩ := ih (holds_turn h)
    rw [Function.iterate_succ_apply]
    refine ⟨hsized, fun i hi => ?_⟩
    have hi' : i < e.n := (turns_unchanged e.turn k).1 ▸ hi
    have hsize : e.turn.n = e.n := rfl
    rw [hleast i hi, age_turn h.sized hi', hsize]
    split_ifs <;> first | rfl | omega

theorem min?_cons_eq (a : K) (as : List K) :
    (a :: as).min? = some (match as.min? with | none => a | some b => if a < b then a else b) := by
  rw [List.min?_cons]
  cases as.min? with
  | none => rfl
  | some b =>
    rcases lt_or_ge a b with h | h
    · simp [h, min_eq_left h.le]
    · simp [h.not_gt, min_eq_right h]

theorem put_eq (e : SkewEstimator K) (rawUs : K) : ∃ buckets, e.put rawUs = { e with buckets := buckets } := by
  unfold put
  split
  · split
    · exact ⟨_, rfl⟩
    · exact ⟨_, rfl⟩
  · exact ⟨_, rfl⟩

omit [LinearOrder K] in
/-- What a bucket holds with one call more. -/
theorem mem_update_cons {i j : ℕ} {c d : Call K} :
    d ∈ Function.update held i (c :: held i) j ↔ (d = c ∧ j = i) ∨ d ∈ held j := by
  by_cases hj : j = i
  · subst hj
    simp
  · simp [hj]

/-- The current bucket takes a call. -/
theorem holds_put (h : Holds e held) (c : Call K) :
    Holds (e.put c.rawUs) (Function.update held e.curIdx (c :: held e.curIdx)) := by
  have hidx := h.sized.idx
  have hcur := h.least e.curIdx hidx
  have hput : e.put c.rawUs = { e with
      buckets := e.buckets.set e.curIdx ((c :: held e.curIdx).map Call.rawUs).min? } := by
    rw [List.map_cons, min?_cons_eq, put, hcur]
    cases hleast : ((held e.curIdx).map Call.rawUs).min? with
    | none => rfl
    | some b =>
      dsimp only
      split
      · rfl
      · rw [hleast] at hcur
        rw [← (List.getElem?_eq_some_iff.1 hcur).2, List.set_getElem_self]
  rw [hput]
  refine ⟨⟨h.sized.pos, hidx, by rw [List.length_set]; exact h.sized.length⟩, fun i hi => ?_⟩
  by_cases hne : i = e.curIdx
  · subst hne
    rw [Function.update_self, List.getElem?_set_self (h.sized.length ▸ hidx)]
  · rw [Function.update_of_ne hne, List.getElem?_set_ne (Ne.symm hne)]
    exact h.least i hi

/-- The offset is the least delay of all that is held. -/
theorem offset_holds [Field K] (h : Holds e held) {i : ℕ} {c : Call K} (hi : i < e.n) (hc : c ∈ held i) :
    (∃ j < e.n, ∃ d ∈ held j, d.rawUs = e.offsetUs) ∧ ∀ j < e.n, ∀ d ∈ held j, e.offsetUs ≤ d.rawUs := by
  have hkept : ∀ {b : K}, b ∈ e.buckets.filterMap id ↔ ∃ j < e.n, ((held j).map Call.rawUs).min? = some b := by
    intro b
    rw [List.mem_filterMap]
    constructor
    · rintro ⟨_, hb, rfl⟩
      obtain ⟨j, hj, hget⟩ := List.getElem_of_mem hb
      have hn : j < e.n := h.sized.length ▸ hj
      have := h.least j hn
      rw [List.getElem?_eq_getElem hj, hget, Option.some_inj] at this
      exact ⟨j, hn, this.symm⟩
    · rintro ⟨j, hj, hb⟩
      exact ⟨some b, List.mem_of_getElem? (by rw [h.least j hj, hb]), rfl⟩
  have hleast : ∀ j < e.n, ∀ d ∈ held j, ∃ b ∈ e.buckets.filterMap id, b ≤ d.rawUs := by
    intro j hj d hd
    have hmem : d.rawUs ∈ (held j).map Call.rawUs := List.mem_map_of_mem hd
    obtain ⟨b, hb⟩ := Option.ne_none_iff_exists'.1 (mt List.min?_eq_none_iff.1 (List.ne_nil_of_mem hmem))
    exact ⟨b, hkept.2 ⟨j, hj, hb⟩, (List.min?_eq_some_iff.1 hb).2 _ hmem⟩
  obtain ⟨b, hb, -⟩ := hleast i hi c hc
  obtain ⟨least, hmin⟩ := Option.ne_none_iff_exists'.1 (mt List.min?_eq_none_iff.1 (List.ne_nil_of_mem hb))
  have hoffset : e.offsetUs = least := by rw [offsetUs, hmin, Option.getD_some]
  obtain ⟨hin, hle⟩ := List.min?_eq_some_iff.1 hmin
  rw [hoffset]
  constructor
  · obtain ⟨j, hj, hb⟩ := hkept.1 hin
    obtain ⟨d, hd, hraw⟩ := List.mem_map.1 (List.min?_mem hb)
    exact ⟨j, hj, d, hd, hraw⟩
  · intro j hj d hd
    obtain ⟨b, hb, hbd⟩ := hleast j hj d hd
    exact (hle b hb).trans hbd

end Holds

/-! ## Runs -/

section Fields

variable {K : Type} [Field K] [LinearOrder K] [FloorSemiring K]

theorem observe_unchanged (e : SkewEstimator K) (c : Call K) :
    (e.observe c).1.n = e.n ∧ (e.observe c).1.bucketS = e.bucketS := by
  obtain ⟨buckets, hbuckets⟩ := put_eq (e.roll c.time) c.rawUs
  rw [observe, hbuckets]
  exact turns_unchanged e _

theorem observe_curStart (e : SkewEstimator K) (c : Call K) : (e.observe c).1.curStart = e.curStart + e.steps c.time *
    e.bucketS := by
  obtain ⟨buckets, hbuckets⟩ := put_eq (e.roll c.time) c.rawUs
  rw [observe, hbuckets]
  rfl

theorem after_concat (e : SkewEstimator K) (calls : List (Call K)) (c : Call K) :
    e.after (calls ++ [c]) = ((e.after calls).observe c).1 := by
  simp [after]

theorem after_unchanged (e : SkewEstimator K) (calls : List (Call K)) :
    (e.after calls).n = e.n ∧ (e.after calls).bucketS = e.bucketS := by
  induction calls using List.reverseRecOn with
  | nil => exact ⟨rfl, rfl⟩
  | append_singleton calls c ih =>
    rw [after_concat, (observe_unchanged _ c).1, (observe_unchanged _ c).2]
    exact ih

end Fields

section Runs

variable {K : Type} [Field K] [LinearOrder K]

/-- When the calls came that are held: into a bucket `age` turns before `start`, and the others before all of these. -/
structure Dated (e : SkewEstimator K) (start : K) (held : ℕ → List (Call K)) (seen : List (Call K)) : Prop where
  pos : 0 < e.bucketS
  late : ∀ i < e.n, ∀ c ∈ held i, start - e.age i * e.bucketS ≤ c.time
  early : ∀ i < e.n, ∀ c ∈ held i, c.time < start - e.age i * e.bucketS + e.bucketS
  known : ∀ i < e.n, ∀ c ∈ held i, c ∈ seen
  gone : ∀ c ∈ seen, (∃ i < e.n, c ∈ held i) ∨ c.time < start - (e.n - 1) * e.bucketS

def Tracked (e : SkewEstimator K) (start : K) (seen : List (Call K)) : Prop := ∃ held, Holds e held ∧
    Dated e start held seen

/-- The observation is not before the current bucket, and not the whole ring after it. -/
def Timely (e : SkewEstimator K) (c : Call K) : Prop := e.curStart ≤ c.time ∧
    c.time < e.curStart + (e.n + 1) * e.bucketS

/-- The offset at a time is the least delay of some of the calls: of all that are no older than the window less a
bucket, and of none that is older than the window. -/
def Windowed (windowS : K) (n : ℕ) (calls : List (Call K)) (now offset : K) : Prop :=
  ∃ kept : List (Call K), (∀ c ∈ kept, c ∈ calls) ∧ (∀ c ∈ calls, now - c.time ≤ windowS - windowS / n → c ∈ kept) ∧
    (∀ c ∈ kept, now - c.time ≤ windowS) ∧ (∃ c ∈ kept, c.rawUs = offset) ∧ ∀ c ∈ kept, offset ≤ c.rawUs

variable [IsStrictOrderedRing K] {e : SkewEstimator K} {start : K} {seen : List (Call K)}

omit [IsStrictOrderedRing K] in
theorem tracked_mark (h : Tracked e start seen) (curStart : K) (samples : ℕ) :
    Tracked { e with curStart := curStart, samples := samples } start seen := by
  obtain ⟨held, hholds, hpos, hlate, hearly, hknown, hgone⟩ := h
  exact ⟨held, holds_mark hholds curStart samples, hpos, hlate, hearly, hknown, hgone⟩

theorem tracked_turn (h : Tracked e start seen) : Tracked e.turn (start + e.bucketS) seen := by
  obtain ⟨held, hholds, hpos, hlate, hearly, hknown, hgone⟩ := h
  have hsized := hholds.sized
  -- one bucket is emptied, every other one is a turn older
  have hold : ∀ i < e.n, ∀ c, c ∈ (if e.age i + 1 = e.n then [] else held i) →
      c ∈ held i ∧ (e.turn.age i : K) = e.age i + 1 := by
    intro i hi c hc
    split at hc
    · cases hc
    · rename_i hne
      rw [age_turn hsized hi, if_neg hne]
      exact ⟨hc, Nat.cast_succ _⟩
  refine ⟨_, holds_turn hholds, hpos, ?_, ?_, ?_, ?_⟩
  · intro i hi c hc
    obtain ⟨hc, hage⟩ := hold i hi c hc
    have := hlate i hi c hc
    change start + e.bucketS - e.turn.age i * e.bucketS ≤ c.time
    rw [hage]
    linarith
  · intro i hi c hc
    obtain ⟨hc, hage⟩ := hold i hi c hc
    have := hearly i hi c hc
    change c.time < start + e.bucketS - e.turn.age i * e.bucketS + e.bucketS
    rw [hage]
    linarith
  · intro i hi c hc
    exact hknown i hi c (hold i hi c hc).1
  · intro c hc
    change _ ∨ c.time < start + e.bucketS - (e.n - 1) * e.bucketS
    rcases hgone c hc with ⟨i, hi, hheld⟩ | hbefore
    · by_cases holdest : e.age i + 1 = e.n
      · right
        have hage : (e.age i : K) = e.n - 1 := by
          rw [← holdest, Nat.cast_succ, add_sub_cancel_right]
        have := hearly i hi c hheld
        rw [hage] at this
        linarith
      · exact .inl ⟨i, hi, by rwa [if_neg holdest]⟩
    · exact .inr (by linarith)

theorem tracked_turns (h : Tracked e start seen) (k : ℕ) : Tracked (turn^[k] e) (start + k * e.bucketS) seen := by
  induction k with
  | zero => simpa using h
  | succ k ih =>
    have hstep := tracked_turn ih
    rw [(turns_unchanged e k).2] at hstep
    rw [Function.iterate_succ_apply', Nat.cast_succ, add_mul, one_mul, ← add_assoc]
    exact hstep

/-- A call of the current bucket. -/
theorem tracked_put (h : Tracked e start seen) {c : Call K} (hge : start ≤ c.time) (hlt : c.time < start + e.bucketS) :
    Tracked (e.put c.rawUs) start (seen ++ [c]) := by
  obtain ⟨held, hholds, hpos, hlate, hearly, hknown, hgone⟩ := h
  have hput := holds_put hholds c
  have hidx := hholds.sized.idx
  have hcur : (e.age e.curIdx : K) = 0 := by rw [age_curIdx, Nat.cast_zero]
  obtain ⟨buckets, hbuckets⟩ := put_eq e c.rawUs
  rw [hbuckets] at hput ⊢
  refine ⟨_, hput, hpos, ?_, ?_, ?_, ?_⟩
  · intro i hi d hd
    change start - e.age i * e.bucketS ≤ d.time
    rcases mem_update_cons.1 hd with ⟨rfl, rfl⟩ | hd
    · rw [hcur]
      linarith
    · exact hlate i hi d hd
  · intro i hi d hd
    change d.time < start - e.age i * e.bucketS + e.bucketS
    rcases mem_update_cons.1 hd with ⟨rfl, rfl⟩ | hd
    · rw [hcur]
      linarith
    · exact hearly i hi d hd
  · intro i hi d hd
    rcases mem_update_cons.1 hd with ⟨rfl, rfl⟩ | hd
    · exact List.mem_concat_self
    · exact List.mem_append_left _ (hknown i hi d hd)
  · intro d hd
    rcases List.mem_append.1 hd with hd | hd
    · rcases hgone d hd with ⟨i, hi, hd⟩ | hbefore
      · exact .inl ⟨i, hi, mem_update_cons.2 (.inr hd)⟩
      · exact .inr hbefore
    · cases List.mem_singleton.1 hd
      exact .inl ⟨e.curIdx, hidx, mem_update_cons.2 (.inl ⟨rfl, rfl⟩)⟩

/-- What is tracked makes the offset that of a window. -/
theorem windowed_of_tracked (h : Tracked e start seen) {c : Call K} (hc : c ∈ seen) (hge : start ≤ c.time)
    (hlt : c.time < start + e.bucketS) : Windowed (e.n * e.bucketS) e.n seen c.time e.offsetUs := by
  obtain ⟨held, hholds, hpos, hlate, hearly, hknown, hgone⟩ := h
  have hn : (1 : K) ≤ e.n := by exact_mod_cast hholds.sized.pos
  have hslack : 0 ≤ ((e.n : K) - 1) * e.bucketS := mul_nonneg (by linarith) hpos.le
  have hbucket : (e.n : K) * e.bucketS / e.n = e.bucketS := mul_div_cancel_left₀ _ (by linarith)
  have hin : ∀ d ∈ seen, c.time - d.time ≤ e.n * e.bucketS - e.bucketS → ∃ i < e.n, d ∈ held i := by
    intro d hd hage
    rcases hgone d hd with hheld | hbefore
    · exact hheld
    · linarith
  obtain ⟨i, hi, hheld⟩ := hin c hc (by linarith)
  obtain ⟨⟨j, hj, d, hd, hraw⟩, hleast⟩ := offset_holds hholds hi hheld
  refine ⟨(List.range e.n).flatMap held, ?_, ?_, ?_, ⟨d, ?_, hraw⟩, ?_⟩
  · intro d hd
    obtain ⟨j, hj, hd⟩ := List.mem_flatMap.1 hd
    exact hknown j (List.mem_range.1 hj) d hd
  · intro d hd hage
    rw [hbucket] at hage
    obtain ⟨j, hj, hd⟩ := hin d hd hage
    exact List.mem_flatMap.2 ⟨j, List.mem_range.2 hj, hd⟩
  · intro d hd
    obtain ⟨j, hj, hd⟩ := List.mem_flatMap.1 hd
    have hj := List.mem_range.1 hj
    have hage : (e.age j : K) + 1 ≤ e.n := by exact_mod_cast age_lt hholds.sized hj
    have hold := mul_le_mul_of_nonneg_right hage hpos.le
    have := hlate j hj d hd
    linarith
  · exact List.mem_flatMap.2 ⟨j, List.mem_range.2 hj, hd⟩
  · intro d hd
    obtain ⟨j, hj, hd⟩ := List.mem_flatMap.1 hd
    exact hleast j (List.mem_range.1 hj) d hd

theorem tracked_new {windowS : K} (hw : 0 < windowS) {n : ℕ} (hn : 0 < n) (clock : K) :
    Tracked (new windowS n clock) (new windowS n clock).curStart [] := by
  refine ⟨fun _ => [], ⟨⟨hn, hn, List.length_replicate⟩, fun i hi => ?_⟩,
    ⟨div_pos hw (Nat.cast_pos.2 hn), ?_, ?_, ?_, ?_⟩⟩
  · exact List.getElem?_replicate_of_lt hi
  all_goals simp

variable [FloorSemiring K]

theorem steps_spec (hpos : 0 < e.bucketS) {c : Call K} (h : Timely e c) :
    e.curStart + e.steps c.time * e.bucketS ≤ c.time ∧ c.time < e.curStart + e.steps c.time * e.bucketS +
      e.bucketS := by
  obtain ⟨hge, hlt⟩ := h
  unfold steps
  split
  · rename_i hsame
    rw [Nat.cast_zero, zero_mul]
    exact ⟨by linarith, by linarith⟩
  · have hratio : 0 ≤ (c.time - e.curStart) / e.bucketS := div_nonneg (by linarith) hpos.le
    have hfloor : ⌊(c.time - e.curStart) / e.bucketS⌋₊ ≤ e.n := by
      refine Nat.lt_succ_iff.1 ((Nat.floor_lt hratio).2 ?_)
      rw [div_lt_iff₀ hpos, Nat.cast_succ]
      linarith
    have hle := (le_div_iff₀ hpos).1 (Nat.floor_le hratio)
    have hnext := (div_lt_iff₀ hpos).1 (Nat.lt_floor_add_one ((c.time - e.curStart) / e.bucketS))
    rw [min_eq_left hfloor]
    exact ⟨by linarith, by linarith⟩

/-- One observation in time. -/
theorem tracked_observe (h : Tracked e e.curStart seen) {c : Call K} (htimely : Timely e c) :
    Tracked (e.observe c).1 (e.observe c).1.curStart (seen ++ [c]) ∧ (e.observe c).1.curStart ≤ c.time ∧
      c.time < (e.observe c).1.curStart + e.bucketS := by
  obtain ⟨held, -, hdated⟩ := id h
  obtain ⟨hge, hlt⟩ := steps_spec hdated.pos htimely
  have hturned := tracked_turns h (e.steps c.time)
  obtain ⟨-, hbucket⟩ := turns_unchanged e (e.steps c.time)
  have hroll : Tracked (e.roll c.time) (e.curStart + e.steps c.time * e.bucketS) seen := tracked_mark hturned _ _
  have hput := tracked_put hroll hge (by change c.time < _ + (turn^[_] e).bucketS; rwa [hbucket])
  rw [observe_curStart]
  exact ⟨tracked_mark hput _ _, hge, hlt⟩

/-- A run all of whose observations are in time. -/
theorem tracked_after (h : Tracked e e.curStart []) (calls : List (Call K))
    (htimely : ∀ before c, before ++ [c] <+: calls → Timely (e.after before) c) :
    Tracked (e.after calls) (e.after calls).curStart calls := by
  induction calls using List.reverseRecOn with
  | nil => exact h
  | append_singleton calls c ih =>
    have hbefore := ih fun before d hd => htimely before d (hd.trans (List.prefix_append _ _))
    rw [after_concat]
    exact (tracked_observe hbefore (htimely calls c (List.prefix_refl _))).1

/-! ## After a silence -/

omit [IsStrictOrderedRing K] in
/-- The turns before an observation and the observation. -/
theorem holds_observe {held : ℕ → List (Call K)} (h : Holds e held) (c : Call K) :
    ∃ i < e.n, (e.observe c).1.age i = 0 ∧
      Holds (e.observe c).1 (Function.update (fun i => if e.age i + e.steps c.time < e.n then held i else []) i
        (c :: if e.age i + e.steps c.time < e.n then held i else [])) := by
  have hturns := holds_turns h (e.steps c.time)
  have hput := holds_put (holds_mark hturns (e.curStart + e.steps c.time * e.bucketS)
    (turn^[e.steps c.time] e).samples) c
  have hidx := hturns.sized.idx
  rw [(turns_unchanged e _).1] at hidx
  refine ⟨_, hidx, ?_, holds_mark hput _ _⟩
  obtain ⟨buckets, hbuckets⟩ := put_eq (e.roll c.time) c.rawUs
  rw [observe, hbuckets]
  exact age_curIdx (e.roll c.time)

/-- Whole turns of the ring leave an observation alone. -/
theorem offset_alone {held : ℕ → List (Call K)} (h : Holds e held) {c : Call K} (hpos : 0 < e.bucketS)
    (hlate : e.curStart + e.n * e.bucketS ≤ c.time) :
    (e.observe c).1.offsetUs = c.rawUs ∧ (e.observe c).1.curStart = e.curStart + e.n * e.bucketS := by
  have hn : (1 : K) ≤ e.n := by exact_mod_cast h.sized.pos
  have hsteps : e.steps c.time = e.n := by
    have hle : e.bucketS ≤ e.n * e.bucketS := le_mul_of_one_le_left hpos.le hn
    have hfloor : e.n ≤ ⌊(c.time - e.curStart) / e.bucketS⌋₊ := by
      refine Nat.le_floor ((le_div_iff₀ hpos).2 ?_)
      linarith
    rw [steps, if_neg (by linarith), min_eq_right hfloor]
  constructor
  · obtain ⟨i, hi, -, hobserved⟩ := holds_observe h c
    rw [hsteps] at hobserved
    have hsize := (observe_unchanged e c).1
    obtain ⟨⟨j, -, d, hd, hraw⟩, -⟩ := offset_holds hobserved (hsize ▸ hi) (mem_update_cons.2 (.inl ⟨rfl, rfl⟩))
    rcases mem_update_cons.1 hd with ⟨rfl, -⟩ | hd
    · exact hraw.symm
    · -- nothing is less than no turn old
      rw [if_neg (by omega)] at hd
      cases hd
  · rw [observe_curStart, hsteps]

omit [IsStrictOrderedRing K] in
/-- Less than a whole turn of the ring keeps the current bucket. -/
theorem offset_le {held : ℕ → List (Call K)} (h : Holds e held) {c d : Call K} {i : ℕ} (hi : i < e.n) (hc : c ∈ held i)
    (hkept : e.age i + e.steps d.time < e.n) : (e.observe d).1.offsetUs ≤ c.rawUs := by
  obtain ⟨j, hj, -, hobserved⟩ := holds_observe h d
  rw [← (observe_unchanged e d).1] at hi hj
  obtain ⟨-, hleast⟩ := offset_holds hobserved hj (mem_update_cons.2 (.inl ⟨rfl, rfl⟩))
  exact hleast i hi c (mem_update_cons.2 (.inr (by simpa [hkept] using hc)))

omit [IsStrictOrderedRing K] in
theorem holds_after {held : ℕ → List (Call K)} (h : Holds e held) (calls : List (Call K)) :
    ∃ held, Holds (e.after calls) held := by
  induction calls using List.reverseRecOn with
  | nil => exact ⟨held, h⟩
  | append_singleton calls c ih =>
    obtain ⟨held, h⟩ := ih
    obtain ⟨i, -, -, hobserved⟩ := holds_observe h c
    rw [after_concat]
    exact ⟨_, hobserved⟩

/-- After a silence of the whole ring and a bucket `c` is observed, and so is `d` before `c` is old, but after a turn
of the whole ring. -/
def Forgotten (e : SkewEstimator K) (c d : Call K) : Prop :=
  e.curStart + (e.n + 1) * e.bucketS ≤ c.time ∧ e.curStart + (e.n + e.n) * e.bucketS ≤ d.time ∧
    d.time - c.time ≤ e.n * e.bucketS - e.bucketS

/-- `c` is observed before the current bucket, and `d` when `c` is too old and the ring has not turned wholly. -/
def Outlived (e : SkewEstimator K) (c d : Call K) : Prop :=
  c.time < e.curStart ∧ c.time + e.n * e.bucketS < d.time ∧ d.time < e.curStart + e.n * e.bucketS

theorem not_windowed_late {held : ℕ → List (Call K)} (h : Holds e held) (hpos : 0 < e.bucketS) (calls : List (Call K))
    {c d : Call K}
    (hcd : Forgotten e c d) (hraw : c.rawUs < d.rawUs) :
    ¬ Windowed (e.n * e.bucketS) e.n (calls ++ [c] ++ [d]) d.time ((e.observe c).1.observe d).1.offsetUs := by
  obtain ⟨hlate, hturn, hnear⟩ := hcd
  have hn : (1 : K) ≤ e.n := by exact_mod_cast h.sized.pos
  have hbucket : (e.n : K) * e.bucketS / e.n = e.bucketS := mul_div_cancel_left₀ _ (by linarith)
  obtain ⟨-, hstart⟩ := offset_alone h hpos (c := c) (by linarith)
  obtain ⟨i, -, -, hobserved⟩ := holds_observe h c
  obtain ⟨hsize, hwidth⟩ := observe_unchanged e c
  rintro ⟨kept, -, hnew, -, -, hle⟩
  have hoffset := (offset_alone hobserved (c := d) (by rwa [hwidth]) (by rw [hstart, hsize, hwidth]; linarith)).1
  rw [hoffset] at hle
  have hkept := hnew c (List.mem_append_left _ List.mem_concat_self) (by rwa [hbucket])
  exact absurd hraw (not_lt.2 (hle c hkept))

theorem not_windowed_early {held : ℕ → List (Call K)} (h : Holds e held) (hpos : 0 < e.bucketS)
    {calls : List (Call K)} {c d : Call K}
    (hmono : ∀ f ∈ calls, f.time ≤ c.time) (hcd : Outlived e c d) (hraw : c.rawUs < d.rawUs) :
    ¬ Windowed (e.n * e.bucketS) e.n (calls ++ [c] ++ [d]) d.time ((e.observe c).1.observe d).1.offsetUs := by
  obtain ⟨hearly, hold, hturn⟩ := hcd
  have hsteps : e.steps c.time = 0 := if_pos (by linarith)
  obtain ⟨i, hi, hage, hobserved⟩ := holds_observe h c
  obtain ⟨hsize, hwidth⟩ := observe_unchanged e c
  have hstart : (e.observe c).1.curStart = e.curStart := by
    rw [observe_curStart, hsteps, Nat.cast_zero, zero_mul, add_zero]
  rintro ⟨kept, hknown, -, hyoung, ⟨f, hf, hfraw⟩, -⟩
  have hfew : (e.observe c).1.steps d.time < e.n := by
    rw [steps, hstart, hwidth, hsize]
    split
    · exact h.sized.pos
    · refine lt_of_le_of_lt (min_le_left _ _) ((Nat.floor_lt' h.sized.pos.ne').2 ?_)
      rw [div_lt_iff₀ hpos]
      linarith
  have hle := offset_le hobserved (hsize ▸ hi) (mem_update_cons.2 (.inl ⟨rfl, rfl⟩)) (d := d) (by
    rw [hage, Nat.zero_add, hsize]
    exact hfew)
  rcases List.mem_append.1 (hknown f hf) with hbefore | hnow
  · have hf' : f.time ≤ c.time := by
      rcases List.mem_append.1 hbefore with hf | hf
      · exact hmono f hf
      · rw [List.mem_singleton.1 hf]
    linarith [hyoung f hf]
  · rw [List.mem_singleton.1 hnow] at hfraw
    rw [← hfraw] at hle
    exact absurd hraw (not_lt.2 hle)

end Runs

section

variable {K : Type} [Field K] [LinearOrder K] [FloorSemiring K] [IsStrictOrderedRing K] {windowS : K} {n : ℕ}

/-- Nothing rounded, the offset is that of the window while every observation comes in time. -/
theorem windowed_after (hw : 0 < windowS) (hn : 0 < n) {clock : K} {calls : List (Call K)} {c : Call K}
    (htimely : ∀ before d, before ++ [d] <+: calls ++ [c] → Timely ((new windowS n clock).after before) d) :
    Windowed windowS n (calls ++ [c]) c.time ((new windowS n clock).after (calls ++ [c])).offsetUs := by
  have hwindow : ((new windowS n clock).n : K) * (new windowS n clock).bucketS = windowS :=
    mul_div_cancel₀ _ (Nat.cast_pos.2 hn).ne'
  have hbefore := tracked_after (tracked_new hw hn clock) calls fun before d hd =>
    htimely before d (hd.trans (List.prefix_append _ _))
  obtain ⟨htracked, hge, hlt⟩ := tracked_observe hbefore (htimely calls c (List.prefix_refl _))
  obtain ⟨hsize, hwidth⟩ := observe_unchanged ((new windowS n clock).after calls) c
  have hwindowed := windowed_of_tracked htracked List.mem_concat_self hge (by rwa [hwidth])
  rw [hsize, hwidth, (after_unchanged _ calls).1, (after_unchanged _ calls).2, ← after_concat, hwindow] at hwindowed
  exact hwindowed

theorem not_windowed_after (hw : 0 < windowS) (hn : 0 < n) {clock : K} {calls : List (Call K)} {c d : Call K}
    (hraw : c.rawUs < d.rawUs)
    (hcd : Forgotten ((new windowS n clock).after calls) c d ∨ (∀ f ∈ calls, f.time ≤ c.time) ∧
      Outlived ((new windowS n clock).after calls) c d) :
    ¬ Windowed windowS n (calls ++ [c] ++ [d]) d.time ((new windowS n clock).after (calls ++ [c] ++ [d])).offsetUs := by
  have hwindow : ((new windowS n clock).n : K) * (new windowS n clock).bucketS = windowS :=
    mul_div_cancel₀ _ (Nat.cast_pos.2 hn).ne'
  obtain ⟨held, hholds, hdated⟩ := tracked_new hw hn clock
  obtain ⟨held, hafter⟩ := holds_after hholds calls
  obtain ⟨hsize, hwidth⟩ := after_unchanged (new windowS n clock) calls
  have hpos : 0 < ((new windowS n clock).after calls).bucketS := hwidth ▸ hdated.pos
  have hnot : ¬ Windowed (((new windowS n clock).after calls).n * ((new windowS n clock).after calls).bucketS)
      ((new windowS n clock).after calls).n (calls ++ [c] ++ [d]) d.time
      ((((new windowS n clock).after calls).observe c).1.observe d).1.offsetUs := by
    rcases hcd with hforgotten | ⟨hmono, houtlived⟩
    · exact not_windowed_late hafter hpos calls hforgotten hraw
    · exact not_windowed_early hafter hpos hmono houtlived hraw
  rw [hsize, hwidth, hwindow] at hnot
  rw [after_concat, after_concat]
  exact hnot

end

end SkewEstimator

end Clock.Exact

/-! ## The estimator of binary64 -/

namespace Clock

open Double
open Exact (Call)
open Exact.SkewEstimator (Windowed Forgotten Outlived turn)

namespace SkewEstimator

/-- `__init__`, `time.time()` given. -/
def init (windowS : ℚ) (buckets : ℕ) (clock : ℚ) : SkewEstimator :=
  ⟨List.replicate buckets none, binary64 (windowS / buckets), 0, clock⟩

def after (e : SkewEstimator) (calls : List (Call ℚ)) : SkewEstimator :=
  calls.foldl (fun e c => (e.observe c.rawUs c.time).1) e

/-- Not before the current bucket, and not the whole ring after it. -/
def Timely (e : SkewEstimator) (c : Call ℚ) : Prop := e.curStart ≤ c.time ∧
    c.time < e.curStart + (e.buckets.length + 1) * e.bucketS

instance (e : SkewEstimator) (c : Call ℚ) : Decidable (e.Timely c) := inferInstanceAs (Decidable (_ ∧ _))

/-- The turns of the ring, if nothing rounds. -/
def turns (e : SkewEstimator) (c : Call ℚ) : ℕ := min ⌊(c.time - e.curStart) / e.bucketS⌋₊ e.buckets.length

/-- No operation of `_roll` rounds, as far as it matters. -/
def Unrounded (e : SkewEstimator) (c : Call ℚ) : Prop :=
  binary64 (c.time - e.curStart) = c.time - e.curStart ∧ (e.bucketS ≤ c.time - e.curStart →
    ⌊binary64 ((c.time - e.curStart) / e.bucketS)⌋ = ⌊(c.time - e.curStart) / e.bucketS⌋ ∧
      binary64 (e.curStart + binary64 (e.turns c * e.bucketS)) = e.curStart + e.turns c * e.bucketS)

instance (e : SkewEstimator) (c : Call ℚ) : Decidable (e.Unrounded c) := inferInstanceAs (Decidable (_ ∧ (_ → _)))

/-- As one that does not round. -/
def exactly (e : SkewEstimator) (samples : ℕ) : Exact.SkewEstimator ℚ :=
  ⟨e.buckets.length, e.bucketS, e.buckets, e.curIdx, e.curStart, samples⟩

variable {e : SkewEstimator} {c : Call ℚ}

theorem exactly_turns (e : SkewEstimator) (samples k : ℕ) :
    turn^[k] (e.exactly samples) = exactly (advance^[k] e) samples ∧
      (advance^[k] e).buckets.length = e.buckets.length := by
  induction k with
  | zero => exact ⟨rfl, rfl⟩
  | succ k ih =>
    obtain ⟨hturns, hlen⟩ := ih
    have hset : (advance^[k] e).advance.buckets.length = (advance^[k] e).buckets.length := List.length_set
    rw [Function.iterate_succ_apply', Function.iterate_succ_apply', hturns, hset]
    refine ⟨?_, hlen⟩
    rw [turn, exactly, exactly, hset]
    rfl

theorem exactly_record (e : SkewEstimator) (samples : ℕ) (rawUs : ℚ) :
    (e.exactly samples).put rawUs = (e.record rawUs).exactly samples := by
  obtain ⟨buckets, bucketS, curIdx, curStart⟩ := e
  simp only [exactly, Exact.SkewEstimator.put, record]
  rcases buckets[curIdx]? with _ | _ | b
  · simp
  · simp
  · by_cases hlt : rawUs < b
    · simp [hlt]
    · simp [hlt]

theorem exactly_offset (e : SkewEstimator) (samples : ℕ) : (e.exactly samples).offsetUs = e.offsetUs := by
  change (e.buckets.filterMap id).min?.getD 0 = e.offsetUs
  unfold offsetUs
  cases e.buckets.filterMap id with
  | nil => rfl
  | cons v vs => rw [List.min?_cons', Option.getD_some]

theorem exactly_observe (h : e.Unrounded c) (samples : ℕ) :
    ((e.exactly samples).observe c).1 = (e.observe c.rawUs c.time).1.exactly (samples + 1) := by
  obtain ⟨helapsed, hmoved⟩ := h
  have hroll : (e.exactly samples).roll c.time = (e.roll c.time).exactly samples := by
    by_cases hsame : c.time - e.curStart < e.bucketS
    · have hnone : (e.exactly samples).steps c.time = 0 := if_pos hsame
      have hstay : e.roll c.time = e := by
        rw [roll, helapsed]
        exact if_pos hsame
      rw [Exact.SkewEstimator.roll, hnone, hstay]
      simp [exactly]
    · have hsome : (e.exactly samples).steps c.time = e.turns c := if_neg hsame
      obtain ⟨hfloor, hstart⟩ := hmoved (not_lt.1 hsame)
      obtain ⟨hturns, -⟩ := exactly_turns e samples (e.turns c)
      have hsteps : min ⌊binary64 ((c.time - e.curStart) / e.bucketS)⌋.toNat e.buckets.length = e.turns c := by
        rw [hfloor]
        rfl
      rw [Exact.SkewEstimator.roll, hsome, hturns, roll, helapsed]
      simp only [if_neg hsame, hsteps, hstart]
      rfl
  rw [Exact.SkewEstimator.observe, hroll, exactly_record]
  rfl

theorem after_concat (e : SkewEstimator) (calls : List (Call ℚ)) (c : Call ℚ) :
    e.after (calls ++ [c]) = ((e.after calls).observe c.rawUs c.time).1 := by
  simp [after]

/-- A run in which nothing rounds. -/
theorem exactly_after (calls : List (Call ℚ)) (h : ∀ before d, before ++ [d] <+: calls → (e.after before).Unrounded d)
    (samples : ℕ) :
    (e.exactly samples).after calls = (e.after calls).exactly (samples + calls.length) := by
  induction calls using List.reverseRecOn with
  | nil => rfl
  | append_singleton calls c ih =>
    have hbefore := ih fun before d hd => h before d (hd.trans (List.prefix_append _ _))
    rw [Exact.SkewEstimator.after_concat, after_concat, hbefore, exactly_observe (h calls c (List.prefix_refl _)),
      List.length_append]
    rfl

/-! ## Where nothing rounds -/

/-- What `time.time()` says until 2038: a multiple of 2^-22 below 2^31. -/
def Tick (t : ℚ) : Prop := ∃ m : ℕ, m < 2 ^ 53 ∧ t = m / 2 ^ 22

/-- Whole seconds after a tick, as long as there is a later one. -/
theorem Tick.add {s t : ℚ} (hs : Tick s) (ht : Tick t) {k : ℕ} (hle : s + k ≤ t) : Tick (s + k) := by
  obtain ⟨a, -, rfl⟩ := hs
  obtain ⟨b, hb, rfl⟩ := ht
  refine ⟨a + k * 2 ^ 22, ?_, by push_cast; ring⟩
  have hab : ((a + k * 2 ^ 22 : ℕ) : ℚ) ≤ b := by
    push_cast
    linarith
  exact lt_of_le_of_lt (by exact_mod_cast hab) hb

theorem Tick.binary64_eq {t : ℚ} (h : Tick t) : binary64 t = t := by
  obtain ⟨m, hm, rfl⟩ := h
  have hm' : |(m : ℤ)| < 2 ^ 53 := by
    rw [abs_of_nonneg (Int.natCast_nonneg m)]
    exact_mod_cast hm
  have hdyadic : ((m : ℤ) : ℚ) * 2 ^ (-22 : ℤ) = m / 2 ^ 22 := by
    rw [zpow_neg, div_eq_mul_inv]
    norm_cast
  rw [← hdyadic, binary64_dyadic hm']

theorem Tick.sub {s t : ℚ} (hs : Tick s) (ht : Tick t) (hle : s ≤ t) : Tick (t - s) := by
  obtain ⟨a, -, rfl⟩ := hs
  obtain ⟨b, hb, rfl⟩ := ht
  have hab : a ≤ b := by exact_mod_cast (div_le_div_iff_of_pos_right (by norm_num)).1 hle
  exact ⟨b - a, by omega, by rw [Nat.cast_sub hab, sub_div]⟩

/-- The whole part of a tick divided by whole seconds: what is missing to the next one is more than the quotient is
rounded by. -/
theorem Tick.floor_div {t : ℚ} (h : Tick t) {B : ℕ} (hB : 0 < B) : ⌊binary64 (t / B)⌋ = ⌊t / B⌋ := by
  obtain ⟨m, hm, rfl⟩ := h
  have hB' : (0 : ℚ) < B := Nat.cast_pos.2 hB
  have hm' : (m : ℚ) < 2 ^ 53 := by exact_mod_cast hm
  obtain ⟨x, hx⟩ : ∃ x : ℚ, (m : ℚ) / 2 ^ 22 / B = x := ⟨_, rfl⟩
  have hmx : (m : ℚ) = x * B * 2 ^ 22 := by
    rw [← hx]
    field_simp
  have hnonneg : 0 ≤ x := by
    rw [← hx]
    positivity
  have hone : (1 : ℚ) ≤ B := Nat.one_le_cast.2 hB
  have hsmall : x * B < 2 ^ 31 := by
    rw [hmx] at hm'
    linarith
  have hx31 : x < 2 ^ 31 := lt_of_le_of_lt (le_mul_of_one_le_right hnonneg hone) hsmall
  have habs : |x| < 2 ^ 53 := by
    rw [abs_of_nonneg hnonneg]
    linarith
  rw [hx, Int.floor_eq_iff]
  refine ⟨le_binary64 habs (Int.floor_le x), ?_⟩
  -- in units of 2^-22 seconds both sides are whole
  have hnext : x * B * 2 ^ 22 + 1 ≤ ((⌊x⌋ : ℚ) + 1) * B * 2 ^ 22 := by
    have hlt : (m : ℚ) < ((⌊x⌋ : ℚ) + 1) * B * 2 ^ 22 := by
      rw [hmx]
      exact mul_lt_mul_of_pos_right (mul_lt_mul_of_pos_right (Int.lt_floor_add_one x) hB') (by norm_num)
    rw [← hmx]
    exact_mod_cast Int.add_one_le_of_lt (by exact_mod_cast hlt : (m : ℤ) < (⌊x⌋ + 1) * B * 2 ^ 22)
  have herror := (abs_le.1 (binary64_error x)).2
  rw [abs_of_nonneg hnonneg] at herror
  have hround : x / 2 ^ 53 * (B * 2 ^ 22) < 1 := by
    rw [div_mul_eq_mul_div, div_lt_one (by norm_num)]
    linarith
  have hscaled : binary64 x * (B * 2 ^ 22) < ((⌊x⌋ : ℚ) + 1) * (B * 2 ^ 22) := by
    have hle : binary64 x * (B * 2 ^ 22) ≤ (x + x / 2 ^ 53) * (B * 2 ^ 22) :=
      mul_le_mul_of_nonneg_right (by linarith) (by positivity)
    linarith
  exact lt_of_mul_lt_mul_right hscaled (by positivity)

/-- A bucket of whole seconds, and ticks. -/
theorem unrounded_of_ticks {B : ℕ} (hB : 0 < B) (hbucket : e.bucketS = B) (hs : Tick e.curStart) (ht : Tick c.time)
    (h : e.Timely c) :
    e.Unrounded c := by
  have hspan := hs.sub ht h.1
  refine ⟨hspan.binary64_eq, fun _ => ⟨?_, ?_⟩⟩
  · rw [hbucket]
    exact hspan.floor_div hB
  · have hB' : (0 : ℚ) < B := Nat.cast_pos.2 hB
    have hpos : 0 ≤ (c.time - e.curStart) / B := div_nonneg (by linarith [h.1]) hB'.le
    have hturns : (e.turns c : ℚ) * B ≤ c.time - e.curStart := by
      rw [← le_div_iff₀ hB', turns, hbucket]
      exact (Nat.cast_le.2 (min_le_left _ _)).trans (Nat.floor_le hpos)
    have hwhole : ((e.turns c * B : ℕ) : ℚ) = e.turns c * e.bucketS := by rw [hbucket, Nat.cast_mul]
    have hle : e.curStart + ((e.turns c * B : ℕ) : ℚ) ≤ c.time := by
      push_cast
      linarith
    have hzero : Tick 0 := ⟨0, by norm_num, by norm_num⟩
    have hmoved : Tick (0 + ((e.turns c * B : ℕ) : ℚ)) := hzero.add hspan (by push_cast; linarith)
    rw [zero_add] at hmoved
    rw [← hwhole, hmoved.binary64_eq, (hs.add ht hle).binary64_eq]

theorem observe_ticks {B : ℕ} (hB : 0 < B) (hbucket : e.bucketS = B) (hs : Tick e.curStart) (ht : Tick c.time)
    (h : e.Timely c) :
    (e.observe c.rawUs c.time).1.bucketS = B ∧ Tick (e.observe c.rawUs c.time).1.curStart := by
  have hsame := exactly_observe (unrounded_of_ticks hB hbucket hs ht h) 0
  have hpos : 0 < (e.exactly 0).bucketS := by
    change 0 < e.bucketS
    rw [hbucket]
    exact Nat.cast_pos.2 hB
  have hwidth := (Exact.SkewEstimator.observe_unchanged (e.exactly 0) c).2
  have hstart := Exact.SkewEstimator.observe_curStart (e.exactly 0) c
  have hle := (Exact.SkewEstimator.steps_spec hpos h).1
  rw [hsame] at hwidth hstart
  refine ⟨hwidth.trans hbucket, ?_⟩
  change (e.observe c.rawUs c.time).1.curStart = e.curStart + ((e.exactly 0).steps c.time : ℚ) * e.bucketS at hstart
  change e.curStart + ((e.exactly 0).steps c.time : ℚ) * e.bucketS ≤ c.time at hle
  rw [hstart, hbucket, ← Nat.cast_mul]
  rw [hbucket, ← Nat.cast_mul] at hle
  exact hs.add ht hle

theorem after_ticks {B : ℕ} (hB : 0 < B) (hbucket : e.bucketS = B) (hs : Tick e.curStart) (calls : List (Call ℚ))
    (ht : ∀ c ∈ calls, Tick c.time)
    (h : ∀ before d, before ++ [d] <+: calls → (e.after before).Timely d) : (e.after calls).bucketS = B ∧
      Tick (e.after calls).curStart := by
  induction calls using List.reverseRecOn with
  | nil => exact ⟨hbucket, hs⟩
  | append_singleton calls c ih =>
    obtain ⟨hwidth, hstart⟩ := ih (fun c hc => ht c (List.mem_append_left _ hc)) fun before d hd =>
      h before d (hd.trans (List.prefix_append _ _))
    rw [after_concat]
    exact observe_ticks hB hwidth hstart (ht c List.mem_concat_self) (h calls c (List.prefix_refl _))

/-! ## The offset -/

/-- **The offset is that of the window while every observation comes in time and nothing rounds**, and nothing does
with buckets of whole seconds and ticks. One that does not come in time can be forgotten, or outlive the window. No
corrected delay is negative. -/
theorem offset_windowed {windowS : ℚ} (hw : 0 < windowS) {n : ℕ} (hn : 0 < n)
    (hbucket : binary64 (windowS / n) = windowS / n) (clock : ℚ) :
    (∀ calls c, (∀ before d, before ++ [d] <+: calls ++ [c] →
        ((init windowS n clock).after before).Timely d ∧ ((init windowS n clock).after before).Unrounded d) →
      Windowed windowS n (calls ++ [c]) c.time ((init windowS n clock).after (calls ++ [c])).offsetUs) ∧
    (∀ calls B, 0 < B → windowS / n = (B : ℕ) → Tick clock → (∀ c ∈ calls, Tick c.time) →
      (∀ before d, before ++ [d] <+: calls → ((init windowS n clock).after before).Timely d) →
        ∀ before d, before ++ [d] <+: calls → ((init windowS n clock).after before).Unrounded d) ∧
    (∀ calls c d, (∀ before f, before ++ [f] <+: calls ++ [c] ++ [d] →
        ((init windowS n clock).after before).Unrounded f) → c.rawUs < d.rawUs →
      Forgotten (((init windowS n clock).after calls).exactly 0) c d ∨
        (∀ f ∈ calls, f.time ≤ c.time) ∧ Outlived (((init windowS n clock).after calls).exactly 0) c d →
      ¬ Windowed windowS n (calls ++ [c] ++ [d]) d.time ((init windowS n clock).after (calls ++ [c] ++ [d])).offsetUs) ∧
    ∀ (e : SkewEstimator) (c : Call ℚ), 0 ≤ (e.observe c.rawUs c.time).2 := by
  have hinit : (init windowS n clock).exactly 0 = .new windowS n clock := by
    rw [init, exactly, hbucket, List.length_replicate]
    rfl
  have hrun : ∀ calls, (∀ before d, before ++ [d] <+: calls → ((init windowS n clock).after before).Unrounded d) →
      (Exact.SkewEstimator.new windowS n clock).after calls = ((init windowS n clock).after calls).exactly
        (0 + calls.length) := by
    intro calls h
    rw [← hinit]
    exact exactly_after calls h 0
  refine ⟨fun calls c h => ?_, fun calls B hB hwhole hclock hticks htimely before d hd => ?_,
    fun calls c d h hraw hcd => ?_,
    fun e c => le_max_left _ _⟩
  · rw [← exactly_offset _ (0 + (calls ++ [c]).length), ← hrun _ fun before d hd => (h before d hd).2]
    refine Exact.SkewEstimator.windowed_after hw hn fun before d hd => ?_
    rw [hrun before fun before' d' hd' => (h before' d' (hd'.trans ((List.prefix_append _ _).trans hd))).2]
    exact (h before d hd).1
  · have hbefore : before <+: calls := (List.prefix_append _ _).trans hd
    obtain ⟨hwidth, hstart⟩ := after_ticks hB (hbucket.trans hwhole) hclock before
      (fun c hc => hticks c (hbefore.subset hc))
      fun before' d' hd' => htimely before' d' (hd'.trans hbefore)
    exact unrounded_of_ticks hB hwidth hstart (hticks d (hd.subset (by simp))) (htimely before d hd)
  · rw [← exactly_offset _ (0 + (calls ++ [c] ++ [d]).length), ← hrun _ h]
    refine Exact.SkewEstimator.not_windowed_after hw hn hraw ?_
    rw [hrun calls fun before f hf => h before f (hf.trans (by simp))]
    exact hcd

/-- Of the default estimator: two observations in time. -/
theorem offset_windowed_default : Windowed 300 10 [⟨5, none, 1010⟩, ⟨7, none, 1100⟩] 1100
    ((init 300 10 1000).after [⟨5, none, 1010⟩, ⟨7, none, 1100⟩]).offsetUs := by
  refine (offset_windowed (by norm_num) (by decide) (by decide +kernel) 1000).1 [⟨5, none, 1010⟩] ⟨7, none, 1100⟩
    fun before d h => ?_
  have hpair : before = [] ∧ d = ⟨5, none, 1010⟩ ∨ before = [⟨5, none, 1010⟩] ∧ d = ⟨7, none, 1100⟩ := by
    rcases before with _ | ⟨c, _ | ⟨c', before⟩⟩ <;> simp_all
  rcases hpair with ⟨rfl, rfl⟩ | ⟨rfl, rfl⟩ <;> exact of_decide_eq_true (by decide +kernel)

/-- After a silence of a thousand seconds the second observation takes the first one, a second old, away. -/
theorem silence_forgets : ¬ Windowed 300 10 [⟨5, none, 2000⟩, ⟨7, none, 2001⟩] 2001
    ((init 300 10 1000).after [⟨5, none, 2000⟩, ⟨7, none, 2001⟩]).offsetUs := by
  rintro ⟨kept, -, hnew, -, -, hle⟩
  have hoffset : ((init 300 10 1000).after [⟨5, none, 2000⟩, ⟨7, none, 2001⟩]).offsetUs = 7 := by decide +kernel
  have hkept := hle _ (hnew ⟨5, none, 2000⟩ (by simp) (by change (2001 : ℚ) - 2000 ≤ 300 - 300 / (10 : ℕ); norm_num))
  rw [hoffset] at hkept
  exact absurd hkept (by norm_num)

end SkewEstimator

end Clock
