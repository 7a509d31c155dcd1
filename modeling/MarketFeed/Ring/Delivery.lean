import Mathlib.Data.List.Basic
import Mathlib.Data.Nat.ModEq
import MarketFeed.Ring.Whole
/-!
# What a reader is given (ringbuffer.py:77-142, ringbuffer.hpp:70-104)

`History` is the ring as its users think of it: all that was pushed, and a reader that has come so far. A
poll goes on from where the reader is, or from the oldest payload that has not been overwritten, with as
many payloads as it may take. `Py.run_eq` and `Cpp.run_eq`: both rings answer as it does, operation for
operation, as long as `write_seq` has room for the numbers. What is promised of the rings is then read off
it (`delivery`).
-/

namespace Ring

abbrev Payload := List UInt8

inductive Op
  | push (payload : Payload)
  | poll (maxItems : Int)
  deriving DecidableEq

inductive Result
  | pushed (seq : Except Raised Nat)
  | polled (items : List Payload)

def Result.items : Result → List Payload
  | .pushed _ => []
  | .polled items => items

/-- One after another: the results, and what is there in the end. -/
def runWith {σ : Type} (step : σ → Op → Result × σ) : σ → List Op → List Result × σ
  | s, [] => ([], s)
  | s, op :: ops => ((step s op).1 :: (runWith step (step s op).2 ops).1, (runWith step (step s op).2 ops).2)

structure World where
  shm : Shm
  rd : Reader

def Py.step (cfg : Cfg) (w : World) : Op → Result × World
  | .push payload => (.pushed (Py.push cfg w.shm payload).1, { w with shm := (Py.push cfg w.shm payload).2 })
  | .poll maxItems => (.polled (Py.poll cfg w.shm maxItems w.rd).1,
      { w with rd := (Py.poll cfg w.shm maxItems w.rd).2 })

def Cpp.step (cfg : Cfg) (w : World) : Op → Result × World
  | .push payload => (.pushed (Cpp.push cfg w.shm payload).1, { w with shm := (Cpp.push cfg w.shm payload).2 })
  | .poll maxItems =>
    (.polled (Cpp.poll cfg w.shm maxItems.toNat w.rd).1, { w with rd := (Cpp.poll cfg w.shm maxItems.toNat w.rd).2 })

/-! ## The ring as a history -/

structure History where
  pushed : List Payload
  rd : Reader

/-- Does a push raise before it has written anything? -/
def refusal (cfg : Cfg) (payload : Payload) : Option Raised :=
  if cfg.payloadMax < payload.length then some .tooLong else if cfg.capacity = 0 then some .divisionByZero else none

/-- The number a poll goes on from. -/
def History.first (cfg : Cfg) (h : History) : Nat := max h.rd.cursor (h.pushed.length - cfg.capacity)

def History.items (cfg : Cfg) (h : History) (maxItems : Int) : List Payload :=
  (h.pushed.drop (h.first cfg)).take maxItems.toNat

/-- The payload an operation pushes, if it pushes one. -/
def Op.payload? (cfg : Cfg) : Op → Option Payload
  | .push payload => if refusal cfg payload = none then some payload else none
  | .poll _ => none

/-- The payloads that a list of operations pushes. -/
def accepted (cfg : Cfg) (ops : List Op) : List Payload := ops.filterMap (Op.payload? cfg)

def History.pushResult (cfg : Cfg) (h : History) (payload : Payload) : Except Raised Nat :=
  match refusal cfg payload with
  | some e => .error e
  | none => .ok h.pushed.length

def History.step (cfg : Cfg) (h : History) : Op → Result × History
  | .push payload => (.pushed (h.pushResult cfg payload), { h with pushed := h.pushed ++ accepted cfg [.push payload] })
  | .poll maxItems =>
    (.polled (h.items cfg maxItems), { h with rd :=
      { h.rd with cursor := h.first cfg + (h.items cfg maxItems).length, skipped := h.rd.skipped +
        (h.first cfg - h.rd.cursor) } })

/-- The segment is what is left of the history. -/
structure Holds (cfg : Cfg) (shm : Shm) (pushed : List Payload) : Prop where
  seq : shm.writeSeq = pushed.length
  slot : ∀ s payload, pushed[s]? = some payload → pushed.length ≤ s + cfg.capacity →
    (shm.slots (s % cfg.capacity)).head = s ∧ (shm.slots (s % cfg.capacity)).length = payload.length ∧
    (shm.slots (s % cfg.capacity)).data payload.length = payload ∧ (shm.slots (s % cfg.capacity)).tail = s
  fits : ∀ payload ∈ pushed, payload.length ≤ cfg.payloadMax
  room : cfg.capacity = 0 → pushed = []

theorem Holds.create (cfg : Cfg) : Holds cfg Shm.create [] :=
  ⟨rfl, by simp, by simp, fun _ => rfl⟩

theorem Slot.store_data (slot : Slot) (seq length : Nat) (payload : Payload) :
    (slot.store seq length payload).data payload.length = payload := by
  refine List.ext_getElem (by simp [Slot.data]) fun i hi hi' => ?_
  simp [Slot.data, Slot.store, hi']

theorem Holds.push {cfg : Cfg} {shm : Shm} {pushed : List Payload} (h : Holds cfg shm pushed) {payload : Payload}
    (hfits : payload.length ≤ cfg.payloadMax) (hcap : 0 < cfg.capacity) :
    Holds cfg ⟨Function.update shm.slots (pushed.length % cfg.capacity)
      ((shm.slots (pushed.length % cfg.capacity)).store pushed.length payload.length payload), pushed.length + 1⟩
        (pushed ++ [payload]) := by
  refine ⟨by simp, fun s p hp hs => ?_, fun p hp => ?_, fun h0 => by omega⟩
  · rw [List.length_append, List.length_singleton] at hs
    rcases Nat.lt_trichotomy s pushed.length with hlt | rfl | hgt
    · -- an older one that is kept is less than a revolution away, in another slot
      rw [List.getElem?_append_left hlt] at hp
      have hne : s % cfg.capacity ≠ pushed.length % cfg.capacity := by
        intro heq
        have hdiv := (Nat.modEq_iff_dvd' (Nat.le_of_lt hlt)).1 heq
        have := Nat.le_of_dvd (by omega) hdiv
        omega
      simp only [Function.update_of_ne hne]
      exact h.slot s p hp (by omega)
    · rw [List.getElem?_concat_length] at hp
      cases hp
      simp only [Function.update_self]
      exact ⟨rfl, rfl, Slot.store_data _ _ _ _, rfl⟩
    · rw [List.getElem?_eq_none (by simp; omega)] at hp
      cases hp
  · rcases List.mem_append.1 hp with hp | hp
    · exact h.fits p hp
    · rw [List.mem_singleton.1 hp]
      exact hfits

/-! ## Both rings are the history -/

theorem refusal_none {cfg : Cfg} {payload : Payload} : refusal cfg payload = none ↔ payload.length ≤ cfg.payloadMax ∧
    0 < cfg.capacity := by
  unfold refusal
  split
  · simp
    omega
  · split <;> simp <;> omega

theorem accepted_refused {cfg : Cfg} {payload : Payload} {e : Raised} (h : refusal cfg payload = some e) :
    accepted cfg [.push payload] = [] := by
  simp [accepted, Op.payload?, h]

theorem accepted_pushed {cfg : Cfg} {payload : Payload} (h : refusal cfg payload = none) :
    accepted cfg [.push payload] = [payload] := by
  simp [accepted, Op.payload?, h]

@[simp] theorem accepted_poll (cfg : Cfg) (maxItems : Int) : accepted cfg [.poll maxItems] = [] := rfl

theorem accepted_cons (cfg : Cfg) (op : Op) (ops : List Op) :
    accepted cfg (op :: ops) = accepted cfg [op] ++ accepted cfg ops := by
  simp only [accepted, ← List.filterMap_append, List.singleton_append]

theorem Py.push_refused {cfg : Cfg} {shm : Shm} {payload : Payload} {e : Raised} (h : refusal cfg payload = some e) :
    Py.push cfg shm payload = (.error e, shm) := by
  unfold refusal at h
  unfold Py.push
  grind

theorem Cpp.push_refused {cfg : Cfg} {shm : Shm} {payload : Payload} {e : Raised} (h : refusal cfg payload = some e) :
    Cpp.push cfg shm payload = (.error e, shm) := by
  unfold refusal at h
  unfold Cpp.push
  grind

/-- A push that fits is the next one of the history. -/
theorem Py.push_pushed {cfg : Cfg} {shm : Shm} {pushed : List Payload} (h : Holds cfg shm pushed) {payload : Payload}
    (hp : refusal cfg payload = none) (hroom : pushed.length + 1 < 2 ^ 64) :
    (Py.push cfg shm payload).1 = .ok pushed.length ∧ Holds cfg (Py.push cfg shm payload).2 (pushed ++ [payload]) := by
  obtain ⟨hfits, hcap⟩ := refusal_none.1 hp
  have heq : Py.push cfg shm payload = (.ok pushed.length, ⟨Function.update shm.slots (pushed.length % cfg.capacity)
      ((shm.slots (pushed.length % cfg.capacity)).store pushed.length payload.length payload), pushed.length + 1⟩) := by
    simp only [Py.push, h.seq, if_neg (Nat.not_lt.2 hfits), if_neg (Nat.ne_of_gt hcap), if_pos hroom]
  rw [heq]
  exact ⟨rfl, h.push hfits hcap⟩

theorem Cpp.push_eq (geo : Geometry) {shm : Shm} {payload : Payload} (hp : refusal geo.toCfg payload = none)
    (hroom : shm.writeSeq + 1 < 2 ^ 64) : Cpp.push geo.toCfg shm payload = Py.push geo.toCfg shm payload := by
  obtain ⟨hfits, hcap⟩ := refusal_none.1 hp
  have hlen : payload.length % 2 ^ 32 = payload.length := by
    have := geo.slot32
    unfold Cfg.payloadMax at hfits
    exact Nat.mod_eq_of_lt (by omega)
  have hseq : Cpp.wrap (shm.writeSeq + 1) = shm.writeSeq + 1 := Nat.mod_eq_of_lt hroom
  simp only [Py.push, Cpp.push, if_neg (Nat.not_lt.2 hfits), if_neg (Nat.ne_of_gt hcap), if_pos hroom, hlen, hseq]

/-- The loop of `poll` takes what is there, in order, up to its limit. -/
theorem Py.pollLoop_eq {cfg : Cfg} {shm : Shm} {pushed : List Payload} (h : Holds cfg shm pushed)
    (maxItems : Int) (k : Nat)
    (out : List Payload) (rd : Reader) (hk : rd.cursor + k = pushed.length)
    (hold : pushed.length ≤ rd.cursor + cfg.capacity) :
    Py.pollLoop cfg shm pushed.length maxItems k out rd =
      (out ++ (pushed.drop rd.cursor).take (maxItems.toNat - out.length),
        { rd with cursor := rd.cursor + ((pushed.drop rd.cursor).take (maxItems.toNat - out.length)).length }) := by
  induction k generalizing out rd with
  | zero => simp [Py.pollLoop, List.drop_eq_nil_of_le (show pushed.length ≤ rd.cursor by omega)]
  | succ k ih =>
    rw [Py.pollLoop]
    split
    · rename_i hloop
      obtain ⟨payload, hpay⟩ : ∃ payload, pushed[rd.cursor]? = some payload := ⟨_, List.getElem?_eq_getElem hloop.1⟩
      obtain ⟨hhead, hlen, hdata, htail⟩ := h.slot rd.cursor payload hpay hold
      have hfit := h.fits payload (List.mem_of_getElem? hpay)
      have hdrop : pushed.drop rd.cursor = payload :: pushed.drop (rd.cursor + 1) := by
        rw [List.drop_eq_getElem_cons hloop.1]
        rw [List.getElem?_eq_getElem hloop.1] at hpay
        rw [Option.some.inj hpay]
      have htake : maxItems.toNat - out.length = (maxItems.toNat - (out.length + 1)) + 1 := by omega
      simp only [hhead, hlen, htail, hdata, ne_eq, not_true_eq_false, false_or, if_false, if_neg (Nat.not_lt.2 hfit)]
      rw [ih _ _ (by simp only; omega) (by simp only; omega), hdrop, htake]
      simp [Nat.add_assoc, Nat.add_comm 1]
    · rename_i hloop
      have hzero : maxItems.toNat - out.length = 0 := by omega
      simp [hzero]

/-- The loop of the other source takes the same turns. -/
theorem Cpp.pollLoop_eq (cfg : Cfg) (shm : Shm) {writeSeq : Nat} (maxItems : Int) (hseq : writeSeq < 2 ^ 64) (k : Nat)
    (out : List Payload) (rd : Reader) (htorn : rd.torn + k < 2 ^ 64) :
    Cpp.pollLoop cfg shm writeSeq maxItems.toNat k out.length out rd = Py.pollLoop cfg shm writeSeq maxItems k
      out rd := by
  induction k generalizing out rd with
  | zero => rfl
  | succ k ih =>
    rw [Py.pollLoop, Cpp.pollLoop]
    by_cases hloop : rd.cursor < writeSeq ∧ (out.length : Int) < maxItems
    · have hloop' : rd.cursor < writeSeq ∧ out.length < maxItems.toNat := ⟨hloop.1, by omega⟩
      have hcursor : Cpp.wrap (rd.cursor + 1) = rd.cursor + 1 := Nat.mod_eq_of_lt (by omega)
      have hwrap : Cpp.wrap (rd.torn + 1) = rd.torn + 1 := Nat.mod_eq_of_lt (by omega)
      have hgot (data : Payload) : out.length + 1 = (out ++ [data]).length := by simp
      simp only [if_pos hloop, if_pos hloop', hcursor, hwrap]
      split
      · exact ih _ _ (by simp only; omega)
      · split
        · exact ih _ _ (by simp only; omega)
        · rw [hgot]
          exact ih _ _ (by simp only; omega)
    · have hloop' : ¬(rd.cursor < writeSeq ∧ out.length < maxItems.toNat) := fun h => hloop ⟨h.1, by omega⟩
      rw [if_neg hloop, if_neg hloop']

/-- A poll, of a reader that is not past the end. -/
theorem Py.poll_eq {cfg : Cfg} {shm : Shm} {h : History} (hold : Holds cfg shm h.pushed) (hle : h.rd.cursor ≤ h.pushed.length) (maxItems : Int) :
    Py.poll cfg shm maxItems h.rd = (h.items cfg maxItems, (h.step cfg (.poll maxItems)).2.rd) := by
  have hfirst : h.first cfg ≤ h.pushed.length := by
    unfold History.first
    omega
  have hkept : h.pushed.length ≤ h.first cfg + cfg.capacity := by
    unfold History.first
    omega
  have hjump : (if (cfg.capacity : Int) < (h.pushed.length : Int) - h.rd.cursor then
      { h.rd with skipped := h.rd.skipped + ((h.pushed.length : Int) - h.rd.cursor - cfg.capacity).toNat, cursor := h.pushed.length - cfg.capacity }
      else h.rd) = { h.rd with cursor := h.first cfg, skipped := h.rd.skipped + (h.first cfg - h.rd.cursor) } := by
    unfold History.first
    split
    · rw [show max h.rd.cursor (h.pushed.length - cfg.capacity) = h.pushed.length - cfg.capacity by omega,
        show ((h.pushed.length : Int) - h.rd.cursor - cfg.capacity).toNat =
            h.pushed.length - cfg.capacity - h.rd.cursor by omega]
    · rw [show max h.rd.cursor (h.pushed.length - cfg.capacity) = h.rd.cursor by omega, Nat.sub_self, Nat.add_zero]
  simp only [Py.poll, hold.seq, hjump]
  rw [Py.pollLoop_eq hold maxItems _ [] _ (by simp only; omega) hkept]
  rfl

theorem Cpp.poll_eq (cfg : Cfg) {shm : Shm} (maxItems : Int) {rd : Reader} (hseq : shm.writeSeq < 2 ^ 64)
    (hle : rd.cursor ≤ shm.writeSeq)
    (hskip : rd.skipped ≤ rd.cursor) (htorn : rd.torn = 0) : Cpp.poll cfg shm maxItems.toNat rd = Py.poll cfg shm maxItems rd := by
  have hbehind : Cpp.sub shm.writeSeq rd.cursor = shm.writeSeq - rd.cursor := by
    unfold Cpp.sub Cpp.wrap
    omega
  have hjump : (if cfg.capacity < shm.writeSeq - rd.cursor then
      { rd with skipped := Cpp.wrap (rd.skipped + (shm.writeSeq - rd.cursor - cfg.capacity)), cursor := Cpp.sub shm.writeSeq cfg.capacity }
      else rd) = if (cfg.capacity : Int) < (shm.writeSeq : Int) - rd.cursor then
        { rd with skipped := rd.skipped + ((shm.writeSeq : Int) - rd.cursor - cfg.capacity).toNat, cursor := shm.writeSeq - cfg.capacity } else rd := by
    by_cases h : cfg.capacity < shm.writeSeq - rd.cursor
    · rw [if_pos h, if_pos (by omega)]
      unfold Cpp.sub Cpp.wrap
      congr 1 <;> omega
    · rw [if_neg h, if_neg (by omega)]
  simp only [Cpp.poll, Py.poll, hbehind, hjump]
  refine Cpp.pollLoop_eq cfg shm maxItems hseq _ [] _ ?_
  split <;> simp only [htorn] <;> omega

/-! ## Runs -/

/-- A ring and its reader are a history. -/
structure Mirrors (cfg : Cfg) (w : World) (h : History) : Prop where
  holds : Holds cfg w.shm h.pushed
  rd : w.rd = h.rd
  behind : h.rd.cursor ≤ h.pushed.length
  skipped : h.rd.skipped ≤ h.rd.cursor
  torn : h.rd.torn = 0

theorem History.items_length (cfg : Cfg) (h : History) (maxItems : Int) :
    (h.items cfg maxItems).length = min maxItems.toNat (h.pushed.length - h.first cfg) := by
  rw [History.items, List.length_take, List.length_drop]

/-- One operation: both rings answer as the history does, and go on as one. -/
theorem Mirrors.step {geo : Geometry} {w : World} {h : History} (hm : Mirrors geo.toCfg w h) (op : Op)
    (hroom : (h.pushed ++ accepted geo.toCfg [op]).length < 2 ^ 64) :
    (Py.step geo.toCfg w op).1 = (h.step geo.toCfg op).1 ∧ Cpp.step geo.toCfg w op = Py.step geo.toCfg w op ∧
    Mirrors geo.toCfg (Py.step geo.toCfg w op).2 (h.step geo.toCfg op).2 := by
  cases op with
  | push payload =>
    cases hr : refusal geo.toCfg payload with
    | some e =>
      simp only [Py.step, Cpp.step, History.step, History.pushResult, Py.push_refused hr, Cpp.push_refused hr,
        accepted_refused hr, hr,
        List.append_nil]
      exact ⟨trivial, trivial, hm⟩
    | none =>
      rw [accepted_pushed hr, List.length_append, List.length_singleton] at hroom
      obtain ⟨hres, hholds⟩ := Py.push_pushed hm.holds hr hroom
      have hcpp := Cpp.push_eq geo hr (hm.holds.seq.symm ▸ hroom)
      simp only [Py.step, Cpp.step, History.step, History.pushResult, hcpp, hres, accepted_pushed hr, hr]
      refine ⟨trivial, trivial, hholds, hm.rd, ?_, hm.skipped, hm.torn⟩
      have := hm.behind
      simp only [List.length_append]
      omega
  | poll maxItems =>
    rw [accepted_poll, List.append_nil] at hroom
    have hpy := Py.poll_eq hm.holds hm.behind maxItems
    have hcpp : Cpp.poll geo.toCfg w.shm maxItems.toNat w.rd = Py.poll geo.toCfg w.shm maxItems w.rd := by
      rw [hm.rd]
      exact Cpp.poll_eq geo.toCfg maxItems (by rw [hm.holds.seq]; exact hroom)
        (by rw [hm.holds.seq]; exact hm.behind) hm.skipped hm.torn
    have hlen := h.items_length geo.toCfg maxItems
    have hb := hm.behind
    have hs := hm.skipped
    simp only [Py.step, Cpp.step, hcpp]
    rw [hm.rd, hpy]
    refine ⟨rfl, trivial, hm.holds, rfl, ?_, ?_, hm.torn⟩
    · simp only [History.step]
      unfold History.first at hlen ⊢
      omega
    · simp only [History.step]
      unfold History.first at hlen ⊢
      omega

theorem pushed_run (cfg : Cfg) (h : History) (ops : List Op) :
    (runWith (History.step cfg) h ops).2.pushed = h.pushed ++ accepted cfg ops := by
  induction ops generalizing h with
  | nil => simp [runWith, accepted]
  | cons op ops ih =>
    rw [runWith, ih, accepted_cons]
    cases op <;> simp [History.step]

/-- **Both rings answer as the history does.** -/
theorem Mirrors.run {geo : Geometry} {w : World} {h : History} (hm : Mirrors geo.toCfg w h) (ops : List Op)
    (hroom : (h.pushed ++ accepted geo.toCfg ops).length < 2 ^ 64) :
    (runWith (Py.step geo.toCfg) w ops).1 = (runWith (History.step geo.toCfg) h ops).1 ∧
    runWith (Cpp.step geo.toCfg) w ops = runWith (Py.step geo.toCfg) w ops ∧
    Mirrors geo.toCfg (runWith (Py.step geo.toCfg) w ops).2 (runWith (History.step geo.toCfg) h ops).2 := by
  induction ops generalizing w h with
  | nil => exact ⟨rfl, rfl, hm⟩
  | cons op ops ih =>
    rw [accepted_cons, ← List.append_assoc, List.length_append] at hroom
    obtain ⟨hres, hcpp, hm'⟩ := hm.step op (by omega)
    have hpushed : (h.step geo.toCfg op).2.pushed = h.pushed ++ accepted geo.toCfg [op] := by
      have := pushed_run geo.toCfg h [op]
      exact this
    obtain ⟨hres', hcpp', hm''⟩ := ih hm' (by rw [hpushed, List.length_append]; exact hroom)
    simp only [runWith]
    exact ⟨by rw [hres, hres'], by rw [hcpp, hcpp'], hm''⟩

/-! ## What a history gives its reader -/

/-- What all the polls returned. -/
def returned (results : List Result) : List Payload := results.flatMap Result.items

theorem take_numbers (l : List Payload) (first n : Nat) :
    ((l.drop first).take n).map some = (List.range' first ((l.drop first).take n).length).map fun s => l[s]? := by
  refine List.ext_getElem (by simp) fun i hi hi' => ?_
  simp only [List.length_map, List.length_take, List.length_drop] at hi
  simp only [List.getElem_map, List.getElem_take, List.getElem_drop, List.getElem_range', Nat.one_mul]
  rw [List.getElem?_eq_getElem (by omega)]

theorem History.poll_bounds (cfg : Cfg) {h : History} (hle : h.rd.cursor ≤ h.pushed.length) (maxItems : Int) :
    h.rd.cursor ≤ h.first cfg ∧ h.first cfg + (h.items cfg maxItems).length ≤ h.pushed.length := by
  have := h.items_length cfg maxItems
  unfold History.first at this ⊢
  omega

/-- What is returned has rising numbers, and with what is skipped it makes up the way of the reader. -/
theorem History.run_order (cfg : Cfg) {h : History} (hle : h.rd.cursor ≤ h.pushed.length) (ops : List Op) :
    h.rd.cursor ≤ (runWith (History.step cfg) h ops).2.rd.cursor ∧
    (∃ numbers : List Nat, numbers.Pairwise (· < ·) ∧
      (∀ s ∈ numbers, h.rd.cursor ≤ s ∧ s < (runWith (History.step cfg) h ops).2.rd.cursor) ∧
      (returned (runWith (History.step cfg) h ops).1).map some =
        numbers.map fun s => (runWith (History.step cfg) h ops).2.pushed[s]?) ∧
    (returned (runWith (History.step cfg) h ops).1).length + (runWith (History.step cfg) h ops).2.rd.skipped +
      h.rd.cursor =
      (runWith (History.step cfg) h ops).2.rd.cursor + h.rd.skipped := by
  induction ops generalizing h with
  | nil => exact ⟨Nat.le_refl _, ⟨[], .nil, by simp, rfl⟩, by simp [runWith, returned]; omega⟩
  | cons op ops ih =>
    rw [runWith]
    cases op with
    | push payload =>
      exact ih (h := (h.step cfg (.push payload)).2) (by simp only [History.step, List.length_append]; omega)
    | poll maxItems =>
      obtain ⟨hfirst, hend⟩ := History.poll_bounds cfg hle maxItems
      obtain ⟨hcursor, ⟨numbers, hsorted, hrange, hnumbers⟩, hbalance⟩ := ih (h := (h.step cfg (.poll maxItems)).2) hend
      simp only [History.step] at hcursor hrange hbalance
      have hpushed := pushed_run cfg (h.step cfg (.poll maxItems)).2 ops
      refine ⟨by simp only [History.step]; omega,
        ⟨List.range' (h.first cfg) (h.items cfg maxItems).length ++ numbers, ?_, fun s hs => ?_, ?_⟩, ?_⟩
      · refine List.pairwise_append.2 ⟨List.pairwise_lt_range' .., hsorted, fun s hs t ht => ?_⟩
        have := (List.mem_range'_1.1 hs).2
        have := (hrange t ht).1
        omega
      · rcases List.mem_append.1 hs with hs | hs
        · have := List.mem_range'_1.1 hs
          simp only [History.step]
          omega
        · have := hrange s hs
          simp only [History.step]
          omega
      · simp only [returned, List.flatMap_cons, List.map_append] at hnumbers ⊢
        rw [hnumbers]
        congr 1
        simp only [History.step, Result.items, History.items] at hpushed ⊢
        rw [take_numbers, hpushed]
        refine List.map_congr_left fun s hs => ?_
        have hs' := (List.mem_range'_1.1 hs).2
        have := h.items_length cfg maxItems
        simp only [History.items] at this hend
        rw [List.getElem?_append_left (by omega)]
      · simp only [returned, List.flatMap_cons, List.length_append, History.step, Result.items] at hbalance ⊢
        omega

/-- The reader is at no poll more than a revolution behind. -/
def History.KeepsUp (cfg : Cfg) (h : History) (ops : List Op) : Prop :=
  ∀ before maxItems after, ops = before ++ .poll maxItems :: after →
    (runWith (History.step cfg) h before).2.pushed.length ≤ (runWith (History.step cfg) h before).2.rd.cursor +
      cfg.capacity

theorem History.run_keepsUp (cfg : Cfg) {h : History} (hle : h.rd.cursor ≤ h.pushed.length) (ops : List Op)
    (hup : h.KeepsUp cfg ops) :
    (runWith (History.step cfg) h ops).2.rd.skipped = h.rd.skipped ∧
    returned (runWith (History.step cfg) h ops).1 =
      ((runWith (History.step cfg) h ops).2.pushed.drop h.rd.cursor).take
        ((runWith (History.step cfg) h ops).2.rd.cursor - h.rd.cursor) := by
  induction ops generalizing h with
  | nil => simp [runWith, returned]
  | cons op ops ih =>
    have hup' : (h.step cfg op).2.KeepsUp cfg ops := by
      rintro before maxItems after rfl
      exact hup (op :: before) maxItems after rfl
    rw [runWith]
    cases op with
    | push payload =>
      exact ih (h := (h.step cfg (.push payload)).2) (by simp only [History.step, List.length_append]; omega) hup'
    | poll maxItems =>
      have hclose : h.pushed.length ≤ h.rd.cursor + cfg.capacity := hup [] maxItems ops rfl
      have hfirst : h.first cfg = h.rd.cursor := by
        unfold History.first
        omega
      obtain ⟨-, hend⟩ := History.poll_bounds cfg hle maxItems
      obtain ⟨hskip, hret⟩ := ih (h := (h.step cfg (.poll maxItems)).2) hend hup'
      obtain ⟨hcursor, -, -⟩ := History.run_order cfg (h := (h.step cfg (.poll maxItems)).2) hend ops
      have hpushed := pushed_run cfg (h.step cfg (.poll maxItems)).2 ops
      simp only [History.step, hfirst] at hskip hret hcursor hpushed hend
      simp only [returned, List.flatMap_cons, History.step, Result.items] at hret ⊢
      simp only [hfirst] at hret ⊢
      refine ⟨by omega, ?_⟩
      rw [hret, hpushed]
      have hitems : h.items cfg maxItems = ((h.pushed ++ accepted cfg ops).drop h.rd.cursor).take
          (h.items cfg maxItems).length := by
        rw [List.drop_append_of_le_length hle, List.take_append_of_le_length (by rw [List.length_drop]; omega)]
        rw [h.items_length cfg maxItems, hfirst, History.items, hfirst, ← List.length_drop, List.take_eq_take_min]
      generalize (runWith (History.step cfg) _ ops).2.rd.cursor = last at hcursor ⊢
      rw [show last - h.rd.cursor = (h.items cfg maxItems).length +
        (last - (h.rd.cursor + (h.items cfg maxItems).length)) by omega,
        List.take_add, ← hitems, List.drop_drop]

/-! ## What a reader of the rings is given -/

/-- Payloads are pushed, and then a reader is attached. -/
def attach (step : World → Op → Result × World) (before : List Payload) (start : Option Nat) : World :=
  let w := (runWith step ⟨Shm.create, ⟨0, 0, 0⟩⟩ (before.map .push)).2
  { w with rd := Reader.attach w.shm start }

/-- A later payload went into the slot of the number `s`. -/
def Overwritten (cfg : Cfg) (pushed : List Payload) (s : Nat) : Prop :=
  ∃ t, s < t ∧ t < pushed.length ∧ t % cfg.capacity = s % cfg.capacity

theorem overwritten_iff {cfg : Cfg} (hcap : 0 < cfg.capacity) {pushed : List Payload} {s : Nat} :
    Overwritten cfg pushed s ↔ s + cfg.capacity < pushed.length := by
  constructor
  · rintro ⟨t, hst, ht, heq⟩
    have hdvd := (Nat.modEq_iff_dvd' (Nat.le_of_lt hst)).1 heq.symm
    have := Nat.le_of_dvd (by omega) hdvd
    omega
  · intro h
    exact ⟨s + cfg.capacity, by omega, h, Nat.add_mod_right s cfg.capacity⟩

/-- A poll takes what it may of what is left, in order, and counts exactly what it could not have any more. -/
structure PollSpec (cfg : Cfg) (pushed : List Payload) (maxItems : Int) (rd : Reader) (items : List Payload)
    (rd' : Reader) : Prop where
  limit : items.length ≤ maxItems.toNat
  skips : ∃ first, rd.cursor ≤ first ∧
    (∀ s, rd.cursor ≤ s → s < pushed.length → (s < first ↔ Overwritten cfg pushed s)) ∧
    items = (pushed.drop first).take maxItems.toNat ∧ rd'.skipped = rd.skipped + (first - rd.cursor) ∧
    rd'.cursor = first + items.length
  torn : rd'.torn = rd.torn

theorem History.poll_spec {cfg : Cfg} {shm : Shm} {h : History} (hold : Holds cfg shm h.pushed) (maxItems : Int) :
    PollSpec cfg h.pushed maxItems h.rd (h.items cfg maxItems) (h.step cfg (.poll maxItems)).2.rd := by
  refine ⟨?_, ⟨h.first cfg, Nat.le_max_left _ _, fun s hs hlt => ?_, rfl, rfl, rfl⟩, rfl⟩
  · rw [h.items_length]
    exact Nat.min_le_left _ _
  · have hcap : 0 < cfg.capacity := by
      refine Nat.pos_of_ne_zero fun h0 => ?_
      rw [hold.room h0] at hlt
      cases hlt
    rw [overwritten_iff hcap]
    unfold History.first
    omega

/-- What the operations `ops` give a reader attached after `before`. -/
structure Delivery (cfg : Cfg) (before : List Payload) (start : Option Nat) (ops : List Op) : Prop where
  /-- The C++ ring returns the same, and its reader counts the same. -/
  same : runWith (Cpp.step cfg) (attach (Cpp.step cfg) before start) ops = runWith (Py.step cfg)
    (attach (Py.step cfg) before start) ops
  polls : ∀ pre maxItems post, ops = pre ++ .poll maxItems :: post →
    PollSpec cfg (accepted cfg (before.map .push ++ pre)) maxItems
      (runWith (Py.step cfg) (attach (Py.step cfg) before start) pre).2.rd
      (Py.step cfg (runWith (Py.step cfg) (attach (Py.step cfg) before start) pre).2 (.poll maxItems)).1.items
      (Py.step cfg (runWith (Py.step cfg) (attach (Py.step cfg) before start) pre).2 (.poll maxItems)).2.rd
  order : ∃ numbers : List Nat, numbers.Pairwise (· < ·) ∧
    (∀ s ∈ numbers, (attach (Py.step cfg) before start).rd.cursor ≤ s ∧
      s < (runWith (Py.step cfg) (attach (Py.step cfg) before start) ops).2.rd.cursor) ∧
    (returned (runWith (Py.step cfg) (attach (Py.step cfg) before start) ops).1).map some =
      numbers.map fun s => (accepted cfg (before.map .push ++ ops))[s]?
  balance : (returned (runWith (Py.step cfg) (attach (Py.step cfg) before start) ops).1).length +
    (runWith (Py.step cfg) (attach (Py.step cfg) before start) ops).2.rd.skipped +
      (attach (Py.step cfg) before start).rd.cursor =
      (runWith (Py.step cfg) (attach (Py.step cfg) before start) ops).2.rd.cursor
  torn : (runWith (Py.step cfg) (attach (Py.step cfg) before start) ops).2.rd.torn = 0
  /-- A reader that no poll finds more than `capacity` behind has all that was pushed. -/
  keepsUp : (∀ pre maxItems post, ops = pre ++ .poll maxItems :: post →
    (accepted cfg (before.map .push ++ pre)).length ≤
      (runWith (Py.step cfg) (attach (Py.step cfg) before start) pre).2.rd.cursor + cfg.capacity) →
    (runWith (Py.step cfg) (attach (Py.step cfg) before start) ops).2.rd.skipped = 0 ∧
    returned (runWith (Py.step cfg) (attach (Py.step cfg) before start) ops).1 =
      ((accepted cfg (before.map .push ++ ops)).drop (attach (Py.step cfg) before start).rd.cursor).take
        ((runWith (Py.step cfg) (attach (Py.step cfg) before start) ops).2.rd.cursor - (attach (Py.step cfg) before
          start).rd.cursor)

theorem accepted_append (cfg : Cfg) (ops ops' : List Op) :
    accepted cfg (ops ++ ops') = accepted cfg ops ++ accepted cfg ops' :=
  List.filterMap_append

/-- The history that a reader attached to a ring sees. -/
theorem attach_mirrors (geo : Geometry) (before : List Payload) (start : Option Nat)
    (hstart : ∀ s, start = some s → s ≤ (accepted geo.toCfg (before.map .push)).length)
    (hroom : (accepted geo.toCfg (before.map .push)).length < 2 ^ 64) :
    attach (Cpp.step geo.toCfg) before start = attach (Py.step geo.toCfg) before start ∧
    (attach (Py.step geo.toCfg) before start).rd.skipped = 0 ∧
    Mirrors geo.toCfg (attach (Py.step geo.toCfg) before start)
      ⟨accepted geo.toCfg (before.map .push), (attach (Py.step geo.toCfg) before start).rd⟩ := by
  have hempty : Mirrors geo.toCfg ⟨Shm.create, ⟨0, 0, 0⟩⟩ ⟨[], ⟨0, 0, 0⟩⟩ :=
    ⟨Holds.create geo.toCfg, rfl, Nat.le_refl 0, Nat.le_refl 0, rfl⟩
  obtain ⟨-, hcpp, hm⟩ := hempty.run (before.map .push) (by simpa using hroom)
  have hpushed := pushed_run geo.toCfg ⟨[], ⟨0, 0, 0⟩⟩ (before.map .push)
  have hholds := hm.holds
  rw [hpushed, List.nil_append] at hholds
  refine ⟨by simp only [attach, hcpp], rfl, hholds, rfl, ?_, Nat.zero_le _, rfl⟩
  simp only [attach, Reader.attach]
  cases start with
  | none => exact Nat.le_of_eq hholds.seq
  | some s => exact hstart s rfl

/-- **A reader is given what was pushed, in order and once, but for what was overwritten before it came to it, by
either ring.** -/
theorem delivery (geo : Geometry) (before : List Payload) (start : Option Nat)
    (hstart : ∀ s, start = some s → s ≤ (accepted geo.toCfg (before.map .push)).length) (ops : List Op)
    (hroom : (accepted geo.toCfg (before.map .push ++ ops)).length < 2 ^ 64) : Delivery geo.toCfg before start ops := by
  rw [accepted_append, List.length_append] at hroom
  obtain ⟨hsame, hskip, hm⟩ := attach_mirrors geo before start hstart (by omega)
  have hat (pre post : List Op) (h : ops = pre ++ post) :
      (accepted geo.toCfg (before.map .push) ++ accepted geo.toCfg pre).length < 2 ^ 64 := by
    rw [h, accepted_append, List.length_append] at hroom
    rw [List.length_append]
    omega
  have hmirror (pre post : List Op) (h : ops = pre ++ post) := hm.run pre (hat pre post h)
  obtain ⟨hres, hcpp, hlast⟩ := hmirror ops [] (List.append_nil ops).symm
  obtain ⟨-, ⟨numbers, hsorted, hrange, hnumbers⟩, hbalance⟩ := History.run_order geo.toCfg hm.behind ops
  rw [pushed_run, ← accepted_append] at hnumbers
  rw [← hres, ← hlast.rd] at hbalance
  rw [← hlast.rd] at hrange
  rw [← hres] at hnumbers
  refine ⟨by rw [hsame, hcpp], fun pre maxItems post h => ?_, ⟨numbers, hsorted, hrange, hnumbers⟩, ?_,
    hlast.rd ▸ hlast.torn, fun hup => ?_⟩
  · obtain ⟨-, -, hpre⟩ := hmirror pre _ h
    obtain ⟨hitems, -, hnext⟩ := hpre.step (.poll maxItems) (by
      rw [accepted_poll, List.append_nil, pushed_run]
      exact hat pre _ h)
    have hspec := History.poll_spec hpre.holds maxItems
    rw [hitems, hnext.rd, hpre.rd, accepted_append]
    rw [pushed_run] at hspec
    exact hspec
  · rw [hskip, Nat.add_zero] at hbalance
    exact hbalance
  · obtain ⟨hs, hr⟩ := History.run_keepsUp geo.toCfg hm.behind ops (by
      intro pre maxItems post h
      obtain ⟨-, -, hpre⟩ := hmirror pre _ h
      have := hup pre maxItems post h
      rwa [pushed_run, ← accepted_append, ← hpre.rd])
    rw [pushed_run, ← accepted_append, ← hlast.rd, ← hres] at hr
    rw [← hlast.rd, hskip] at hs
    exact ⟨hs, hr⟩

/-- A ring of four, a push before the reader is there and six after it: three were overwritten. -/
theorem delivery_lapped : Delivery ⟨4, 64, by decide⟩ [[0]] (some 0)
    [.push [1], .push [2], .push [3], .push [4], .push [5], .push [6], .poll 2] :=
  delivery ⟨⟨4, 64, by decide⟩, by decide⟩ [[0]] (some 0) (by decide)
    [.push [1], .push [2], .push [3], .push [4], .push [5], .push [6], .poll 2] (by decide)

end Ring
