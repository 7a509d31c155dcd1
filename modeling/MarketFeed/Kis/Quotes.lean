import MarketFeed.Lib.Run
import MarketFeed.Lib.Upsert
import MarketFeed.Writer.Messages
import Mathlib.Algebra.Order.Field.Rat
import Mathlib.Tactic.Linarith
import Mathlib.Tactic.NormNum
/-!
# Trades made of snapshots (adapters/kis_rest.py:26-32, :212-318)

The ranking loop and the sweep loop each have at most one request under way. The server answers with the
cumulative volume of the moment, and the answer may take its time, so that of two loops the older one can
arrive last. `_publish_quote` emits what the volume grew by since the entry of the symbol.

| here | there |
| --- | --- |
| `World.codes` | the codes of `self.universe` |
| `World.truth` | the exchange's cumulative volume of the day, which never falls (`Act.trade`) |
| `Field` | what a row has under a key: a number, nothing or an empty text, or a text that `float` refuses |
| `Row.code` | `mksc_shrn_iscd` or `stck_shrn_iscd`; the sweep has the code it asked for |
| `Snapshot.volume` | the true volume when the server answered |
| `World.seen` | those volumes of the snapshots that got past `if price <= 0`, by symbol |
| `Act.lose` | a call that raised, or returned `None` |

Prices and volumes are exact. An answer that lowers the entry of a symbol, late or without the field, has
the same volume counted once more (`sold_le_traded`, `sold_again`).
-/

namespace Kis.Quotes

open Keyed Total Writer

inductive Loop | rank | sweep
  deriving DecidableEq

inductive Field
  | absent
  | number (x : ℚ)
  | text
  deriving DecidableEq

/-- `float(r.get(key) or 0)`; `none` where it raises. -/
def Field.float : Field → Option ℚ
  | .absent => some 0
  | .number x => some x
  | .text => none

structure Row where
  code : Option String
  price : Field
  accVol : Field
  deriving DecidableEq

structure Snapshot extends Row where
  volume : ℚ
  deriving DecidableEq

inductive Flight
  | idle
  | asked (code : Option String)
  | answered (rows : List Snapshot)
  deriving DecidableEq

def Flight.rows : Flight → List Snapshot
  | .answered rows => rows
  | .idle | .asked _ => []

structure World where
  truth : String → ℚ
  codes : List String
  idx : ℕ
  flight : Loop → Flight
  lastVol : List (String × ℚ)
  trades : List (Trade ℚ)
  seen : List (String × ℚ)

def World.start (truth : String → ℚ) (codes : List String) : World := ⟨truth, codes, 0, fun _ => .idle, [], [], []⟩

/-- `self._last_vol.get(code)`. -/
def World.entry (w : World) (code : String) : Option ℚ := (lookup Prod.fst code w.lastVol).map Prod.snd

def World.publishQuote (w : World) (ts : UInt64) (code : String) (price accVol : ℚ) : World :=
  if price ≤ 0 then w
  else
    let prev := w.entry code
    let w := { w with lastVol := upsert Prod.fst (fun _ r => r) w.lastVol (code, accVol) }
    match prev with
    | none => w
    | some prev => if accVol ≤ prev then
        w else { w with trades := w.trades ++ [⟨"KRX", code, ts, ts, price, accVol - prev, 0⟩] }

/-- What a row hands to `_publish_quote`. -/
def Snapshot.quote (r : Snapshot) : Option (String × ℚ × ℚ) :=
  match r.price.float, r.accVol.float, r.code with
  | some px, some vol, some code => some (code, px, vol)
  | _, _, _ => none

/-- One row of an answer, in `World.seen` where its price is positive. -/
def World.observe (ts : UInt64) (w : World) (r : Snapshot) : World :=
  match r.quote with
  | none => w
  | some (code, px, vol) => { w.publishQuote ts code px vol with seen := if px ≤ 0 then
      w.seen else w.seen ++ [(code, r.volume)] }

/-- A row as the server answers it. -/
def World.shoot (w : World) (asked : Option String) (r : Row) : Snapshot :=
  let code := asked.or r.code
  { r with code, volume := code.elim 0 w.truth }

/-- A row that has a volume has the true one. -/
def Snapshot.honest (r : Snapshot) : Bool :=
  match r.accVol with
  | .number x => r.code.isNone || x == r.volume
  | .absent | .text => true

inductive Act
  | trade (code : String) (qty : ℚ)
  | request (loop : Loop)
  | serve (loop : Loop) (rows : List Row)
  | lose (loop : Loop)
  | arrive (loop : Loop) (ts : UInt64)
  deriving DecidableEq

def World.setFlight (w : World) (loop : Loop) (f : Flight) : World :=
  { w with flight := fun l => if l = loop then f else w.flight l }

def step (w : World) : Act → Option World
  | .trade code qty => if 0 ≤ qty then
      some { w with truth := fun c => if c = code then w.truth c + qty else w.truth c } else none
  | .request .rank => if w.flight .rank = .idle then some (w.setFlight .rank (.asked none)) else none
  | .request .sweep =>
    if w.flight .sweep = .idle then
      w.codes[w.idx % w.codes.length]?.map fun code => { w.setFlight .sweep (.asked (some code)) with idx := w.idx + 1 }
    else none
  | .serve loop rows =>
    match w.flight loop with
    | .asked code =>
      let answer := rows.map (w.shoot code)
      if (code.isSome → rows.length = 1) ∧ answer.all Snapshot.honest then some (w.setFlight loop (.answered answer))
        else none
    | .idle | .answered _ => none
  | .lose loop => if w.flight loop = .idle then none else some (w.setFlight loop .idle)
  | .arrive loop ts =>
    match w.flight loop with
    | .answered rows => some (rows.foldl (World.observe ts) (w.setFlight loop .idle))
    | .idle | .asked _ => none

/-! ## What was sold, and what was traded -/

/-- The quantities emitted for a symbol. -/
def World.sold (w : World) (code : String) : ℚ := total (fun t => t.symbol = code) Trade.qty w.trades

def World.seenOf (w : World) (code : String) : List ℚ := (w.seen.filter fun s => s.1 = code).map Prod.snd

/-- Between the earliest and the latest of some snapshots: the volume never falls, so they are the least and the
greatest. -/
def traded (volumes : List ℚ) : ℚ := volumes.max?.getD 0 - volumes.min?.getD 0

/-- The row carries its volume, and does not lower the entry. -/
def World.raises (w : World) (r : Snapshot) : Bool :=
  match r.quote with
  | none => true
  | some (code, px, vol) => px ≤ 0 || (r.accVol != .absent && (w.entry code).all fun prev => prev ≤ vol)

/-- The rows of an answer, each against the entries it finds. -/
def World.raisesAll (ts : UInt64) : World → List Snapshot → Bool
  | _, [] => true
  | w, r :: rows => w.raises r && raisesAll ts (w.observe ts r) rows

/-- No answer lowers an entry. -/
def Raises (w : World) : Act → Prop
  | .arrive loop ts => (w.setFlight loop .idle).raisesAll ts (w.flight loop).rows = true
  | _ => True

instance (w : World) : ∀ a, Decidable (Raises w a)
  | .arrive _ _ => inferInstanceAs (Decidable (_ = true))
  | .trade _ _ | .request _ | .serve _ _ | .lose _ => .isTrue trivial

/-! ## The invariant -/

/-- What was emitted is what lies between the first snapshot and the entry, which is one too. -/
def World.Counted (w : World) (code : String) : Prop :=
  match w.entry code with
  | none => w.sold code = 0
  | some v => v ∈ w.seenOf code ∧ ∃ first ∈ w.seenOf code, w.sold code = v - first

structure Inv (w : World) : Prop where
  counted : ∀ code, w.Counted code
  honest : ∀ loop rows, w.flight loop = .answered rows → ∀ r ∈ rows, r.honest = true

theorem le_traded {volumes : List ℚ} {lo hi : ℚ} (hlo : lo ∈ volumes) (hhi : hi ∈ volumes) :
    hi - lo ≤ traded volumes := by
  obtain ⟨a, ha⟩ := Option.isSome_iff_exists.1 (List.isSome_max?_of_mem hlo)
  obtain ⟨b, hb⟩ := Option.isSome_iff_exists.1 (List.isSome_min?_of_mem hlo)
  have hmax := (List.max?_eq_some_iff.1 ha).2 hi hhi
  have hmin := (List.min?_eq_some_iff.1 hb).2 lo hlo
  simp only [traded, ha, hb, Option.getD_some]
  linarith

theorem Inv.sold_le {w : World} (h : Inv w) (code : String) : w.sold code ≤ traded (w.seenOf code) := by
  have hc := h.counted code
  unfold World.Counted at hc
  cases he : w.entry code with
  | none =>
    rw [he] at hc
    cases hs : w.seenOf code with
    | nil => simp [hc, traded]
    | cons v vs => exact hc ▸ (sub_self v).symm.le.trans (le_traded List.mem_cons_self List.mem_cons_self)
  | some v =>
    rw [he] at hc
    obtain ⟨hv, first, hfirst, hsold⟩ := hc
    exact hsold ▸ le_traded hfirst hv

theorem entry_upsert (w : World) (code c : String) (v : ℚ) :
    ({ w with lastVol := upsert Prod.fst (fun _ r => r) w.lastVol (code, v) } : World).entry c = if code = c then
      some v else w.entry c := by
  unfold World.entry
  rw [lookup_upsert (fun _ _ _ => rfl)]
  by_cases h : code = c
  · simp only [if_pos h]
    split <;> rfl
  · simp [h]

/-- What a quote with a positive price does to the entries, and to what is sold. -/
theorem publishQuote_spec (w : World) (ts : UInt64) {code : String} {px : ℚ} (hpx : ¬ px ≤ 0) (vol : ℚ) :
    (∀ c, (w.publishQuote ts code px vol).entry c = if code = c then some vol else w.entry c) ∧
    (∀ c, (w.publishQuote ts code px vol).sold c = w.sold c + if code = c then (w.entry code).elim 0 fun prev =>
      max 0 (vol - prev) else 0) := by
  unfold World.publishQuote
  simp only [if_neg hpx]
  cases he : w.entry code with
  | none => exact ⟨fun c => entry_upsert w code c vol, fun c => by simp [World.sold]⟩
  | some prev =>
    dsimp only
    split
    · rename_i hle
      refine ⟨fun c => entry_upsert w code c vol, fun c => ?_⟩
      have hzero : max 0 (vol - prev) = 0 := max_eq_left (by linarith)
      simp [World.sold, hzero]
    · rename_i hgt
      refine ⟨fun c => entry_upsert w code c vol, fun c => ?_⟩
      have hpos : max 0 (vol - prev) = vol - prev := max_eq_right (by linarith)
      simp [World.sold, total_append, total_cons, hpos]

theorem publishQuote_frame (w : World) (ts : UInt64) (code : String) (px vol : ℚ) :
    (w.publishQuote ts code px vol).flight = w.flight ∧ (px ≤ 0 → w.publishQuote ts code px vol = w) := by
  unfold World.publishQuote
  split
  · exact ⟨rfl, fun _ => rfl⟩
  · rename_i hpx
    refine ⟨?_, fun h => absurd h hpx⟩
    dsimp only
    split
    · rfl
    · split <;> rfl

theorem observe_flight (ts : UInt64) (w : World) (r : Snapshot) : (w.observe ts r).flight = w.flight := by
  unfold World.observe
  split
  · rfl
  · exact (publishQuote_frame w ts _ _ _).1

theorem quote_eq_some {r : Snapshot} {code : String} {px vol : ℚ} (h : r.quote = some (code, px, vol)) :
    r.price.float = some px ∧ r.accVol.float = some vol ∧ r.code = some code := by
  unfold Snapshot.quote at h
  split at h
  · rename_i p v c hp hv hc
    simp only [Option.some.injEq, Prod.mk.injEq] at h
    obtain ⟨rfl, rfl, rfl⟩ := h
    exact ⟨hp, hv, hc⟩
  · cases h

theorem honest_volume {r : Snapshot} (hr : r.honest = true)
    {code : String} {px vol : ℚ} (hq : r.quote = some (code, px, vol))
    (habsent : r.accVol ≠ .absent) : vol = r.volume := by
  obtain ⟨-, hvol, hcode⟩ := quote_eq_some hq
  unfold Snapshot.honest at hr
  cases hacc : r.accVol with
  | absent => exact absurd hacc habsent
  | text => simp [hacc, Field.float] at hvol
  | number x =>
    simp only [hacc, hcode, Option.isNone_some, Bool.false_or, beq_iff_eq, Field.float, Option.some.injEq] at hr hvol
    exact hvol.symm.trans hr

/-- A row that raises its entry. -/
theorem counted_observe {w : World} (h : ∀ code, w.Counted code) (ts : UInt64) {r : Snapshot} (hr : r.honest = true)
    (hraises : w.raises r = true) : ∀ code, (w.observe ts r).Counted code := by
  cases hq : r.quote with
  | none => simpa [World.observe, hq] using h
  | some q =>
    obtain ⟨code, px, vol⟩ := q
    simp only [World.raises, hq, Bool.or_eq_true, decide_eq_true_eq, Bool.and_eq_true, bne_iff_ne] at hraises
    simp only [World.observe, hq]
    by_cases hpx : px ≤ 0
    · rw [if_pos hpx, (publishQuote_frame w ts code px vol).2 hpx]
      exact h
    · obtain ⟨habsent, hprev⟩ := hraises.resolve_left hpx
      -- the row has a volume, and it is the true one
      have hvol : vol = r.volume := honest_volume hr hq habsent
      obtain ⟨hentry, hsold⟩ := @publishQuote_spec w ts code _ hpx vol
      intro c
      have hc := h c
      unfold World.Counted at hc ⊢
      simp only [if_neg hpx]
      have hentry' : ({ w.publishQuote ts code px vol with seen := w.seen ++ [(code, r.volume)] } : World).entry c =
        if code = c then some vol else w.entry c := hentry c
      have hsold' : ({ w.publishQuote ts code px vol with seen := w.seen ++ [(code, r.volume)] } : World).sold c =
        _ := hsold c
      have hseen : ({ w.publishQuote ts code px vol with seen := w.seen ++ [(code, r.volume)] } : World).seenOf c =
          w.seenOf c ++ if code = c then [r.volume] else [] := by
        by_cases hcc : code = c <;> simp [World.seenOf, List.filter_append, hcc]
      rw [hentry', hsold', hseen]
      by_cases hcc : code = c
      · subst hcc
        simp only [if_true]
        refine ⟨by simp [hvol], ?_⟩
        cases he : w.entry code with
        | none =>
          rw [he] at hc
          exact ⟨vol, by simp [hvol], by simp [hc]⟩
        | some prev =>
          rw [he] at hc hprev
          obtain ⟨-, first, hfirst, hsum⟩ := hc
          have hle : prev ≤ vol := by simpa using hprev
          refine ⟨first, List.mem_append_left _ hfirst, ?_⟩
          simp only [Option.elim_some, max_eq_right (sub_nonneg.2 hle)]
          linarith
      · simp only [if_neg hcc, add_zero, List.append_nil]
        exact hc

theorem counted_rows (ts : UInt64) {rows : List Snapshot} {w : World} (h : ∀ code, w.Counted code)
    (hr : ∀ r ∈ rows, r.honest = true) (hraises : w.raisesAll ts rows = true) :
    (∀ code, (rows.foldl (World.observe ts) w).Counted code) ∧ (rows.foldl (World.observe ts) w).flight = w.flight := by
  induction rows generalizing w with
  | nil => exact ⟨h, rfl⟩
  | cons r rows ih =>
    simp only [World.raisesAll, Bool.and_eq_true] at hraises
    have hnext := counted_observe h ts (hr r List.mem_cons_self) hraises.1
    obtain ⟨hall, hflight⟩ := ih hnext (fun r' hr' => hr r' (List.mem_cons_of_mem r hr')) hraises.2
    exact ⟨hall, hflight.trans (observe_flight ts w r)⟩

/-- A loop turns to something else: the entries and the trades are as before. -/
theorem Inv.setFlight {w : World} (h : Inv w) (loop : Loop) {f : Flight} (hf : ∀ rows, f = .answered rows →
    ∀ r ∈ rows, r.honest = true) :
    Inv (w.setFlight loop f) := by
  refine ⟨h.counted, fun l rows hl => ?_⟩
  simp only [World.setFlight] at hl
  split at hl
  · exact hf rows hl
  · exact h.honest l rows hl

theorem inv_step {w w' : World} {a : Act} (h : Inv w) (hraises : Raises w a) (hst : step w a = some w') : Inv w' := by
  cases a with
  | trade code qty =>
    obtain ⟨-, he⟩ := Option.ite_none_right_eq_some.1 hst
    cases he
    exact ⟨h.counted, h.honest⟩
  | request loop =>
    cases loop with
    | rank =>
      obtain ⟨-, he⟩ := Option.ite_none_right_eq_some.1 hst
      cases he
      exact h.setFlight .rank fun rows hr => (by cases hr)
    | sweep =>
      obtain ⟨-, he⟩ := Option.ite_none_right_eq_some.1 hst
      obtain ⟨code, -, rfl⟩ := Option.map_eq_some_iff.1 he
      have hset := h.setFlight .sweep (f := .asked (some code)) fun rows hr => (by cases hr)
      exact ⟨hset.counted, hset.honest⟩
  | serve loop rows =>
    simp only [step] at hst
    split at hst
    · rename_i code _
      obtain ⟨hserve, he⟩ := Option.ite_none_right_eq_some.1 hst
      cases he
      refine h.setFlight loop fun rows' hr => ?_
      cases hr
      exact List.all_eq_true.1 hserve.2
    · cases hst
    · cases hst
  | lose loop =>
    obtain ⟨-, he⟩ := Option.ite_none_left_eq_some.1 hst
    cases he
    exact h.setFlight loop fun rows hr => (by cases hr)
  | arrive loop ts =>
    simp only [step] at hst
    split at hst
    · rename_i rows hflight
      cases hst
      have hraises : (w.setFlight loop .idle).raisesAll ts rows = true := by
        simpa [Raises, hflight, Flight.rows] using hraises
      have hset := h.setFlight loop (f := .idle) fun rows hr => (by cases hr)
      obtain ⟨hcounted, hsame⟩ := counted_rows ts hset.counted (h.honest loop rows hflight) hraises
      exact ⟨hcounted, fun l rows' hl => hset.honest l rows' (by rwa [hsame] at hl)⟩
    · cases hst
    · cases hst

theorem inv_start (truth : String → ℚ) (codes : List String) : Inv (.start truth codes) :=
  ⟨fun _ => rfl, fun _ _ h => (by cases h)⟩

/-! ## Runs -/

/-- **No volume is invented** where no answer lowers the entry of a symbol. -/
theorem sold_le_traded (truth : String → ℚ) (codes : List String) (as : List Act) (w : World)
    (h : Lts.Run step Raises (.start truth codes) as w) (code : String) : w.sold code ≤ traded (w.seenOf code) :=
  (h.invariant (inv_start truth codes) fun _ _ _ hi hr hst => inv_step hi hr hst).sold_le code

/-- A symbol as the server shows it. -/
def shown (volume : Field) : Row := ⟨some "005930", .number 70000, volume⟩

/-- 50 shares between two answers of the sweep, and the ranking asked for and answered between them. -/
theorem sold_le_traded_fifty : ∃ w, Lts.Run step Raises (.start (fun _ => 100) ["005930"])
    [.request .sweep, .serve .sweep [shown (.number 100)], .arrive .sweep 1, .trade "005930" 50, .request .rank,
      .serve .rank [shown (.number 150), ⟨none, .number 1, .absent⟩], .arrive .rank 2] w ∧ w.sold "005930" = 50 ∧
      w.sold "005930" ≤ traded (w.seenOf "005930") := by
  have hex : ∃ w, Lts.Run step Raises (.start (fun _ => 100) ["005930"])
      [.request .sweep, .serve .sweep [shown (.number 100)], .arrive .sweep 1, .trade "005930" 50, .request .rank,
        .serve .rank [shown (.number 150), ⟨none, .number 1, .absent⟩], .arrive .rank 2] w ∧ w.sold "005930" = 50 :=
    Lts.exists_run (by decide +kernel)
  obtain ⟨w, hrun, hsold⟩ := hex
  exact ⟨w, hrun, hsold, sold_le_traded _ _ _ w hrun "005930"⟩

/-- **The same 50 shares sold twice**, the ranking's answer arriving after a newer one of the sweep; and **100 shares
where none were traded**, an answer without `acml_vol` between two with it. -/
theorem sold_again :
    (∃ w, Lts.Run step Lts.anyStep (.start (fun _ => 100) ["005930"])
      [.request .sweep, .serve .sweep [shown (.number 100)], .request .rank, .serve .rank [shown (.number 100)],
        .arrive .sweep 1,
        .trade "005930" 50, .request .sweep, .serve .sweep [shown (.number 150)], .arrive .sweep 2, .arrive .rank 3,
        .request .sweep, .serve .sweep [shown (.number 150)], .arrive .sweep 4] w ∧
          ¬ w.sold "005930" ≤ traded (w.seenOf "005930")) ∧
    ∃ w, Lts.Run step Lts.anyStep (.start (fun _ => 100) ["005930"])
      [.request .sweep, .serve .sweep [shown (.number 100)], .arrive .sweep 1, .request .sweep,
        .serve .sweep [shown .absent], .arrive .sweep 2,
        .request .sweep, .serve .sweep [shown (.number 100)], .arrive .sweep 3] w ∧
          ¬ w.sold "005930" ≤ traded (w.seenOf "005930") :=
  ⟨Lts.exists_run (by decide +kernel), Lts.exists_run (by decide +kernel)⟩

end Kis.Quotes
