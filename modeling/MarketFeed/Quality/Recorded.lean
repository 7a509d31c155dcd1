import MarketFeed.Lib.Run
import MarketFeed.Quality.Service
/-!
# Each quality event once (services/quality.py:63-123, :174-181)

An event is pending, in a write on its way, or in the table: `World.Accounted`. The rows of a write that raises are
neither written again nor pending again, so each of them is lost that the transaction does not hold; those it holds wait
for the `commit()` of another write.

`recorded_once_iff` has the writes that keep the account. A stop breaks it without any failure when it meets a write
that is on its way (`lost_at_stop`).
-/

namespace Quality

open Txn Lts
open Storage (CommitState)

section

variable {μ : Type}

/-- The rows that are somewhere. -/
def World.kept (w : World μ) : List Row :=
  w.pending ++ (remaining (w.jobs .awaited) ++ (remaining (w.jobs .left) ++ w.conn.view))

/-- No write is on its way. -/
def World.Quiet (w : World μ) : Prop := ∀ k, w.jobs k = none

structure World.Accounted (old : List Row) (w : World μ) : Prop where
  once : (old ++ w.produced).Perm w.kept
  settled : w.Quiet → w.conn.view = w.conn.committed

/-- What holds whatever fails: the transaction adds to the table, and after the last flush nothing is pending. -/
structure World.Ok (w : World μ) : Prop where
  view : ∃ rows, w.conn.view = w.conn.committed ++ rows
  drained : w.phase = .last ∨ w.phase = .closed → w.pending = []
  left : w.phase = .running → w.jobs .left = none
  closed : w.phase = .closed → w.jobs .awaited = none

/-- The failures and the stops that lose nothing: every row of a write that raises has been executed, and is in the
table or will be committed by another write. -/
def World.keeps (w : World μ) : Act → Prop
  | .fail k .stillOpen => remaining (w.jobs k) = [] ∧ (w.jobs k.other ≠ none ∨ w.conn.view = w.conn.committed)
  | .fail k .rolledBack => remaining (w.jobs k) = [] ∧ w.conn.view = w.conn.committed
  | .close none => remaining (w.jobs .left) = []
  | .close (some .stillOpen) => w.jobs .left ≠ none ∨ w.conn.view = w.conn.committed
  | .close (some .rolledBack) => w.conn.view = w.conn.committed
  | _ => True

/-! ## The account at one write -/

@[simp] theorem remaining_none : remaining none = [] := rfl

@[simp] theorem remaining_some (j : Job) : remaining (some j) = j.rows := rfl

theorem kept_perm (w : World μ) (k : Worker) :
    w.kept.Perm (remaining (w.jobs k) ++ (w.conn.view ++ (w.pending ++ remaining (w.jobs k.other)))) := by
  rw [List.perm_iff_count]
  intro r
  cases k <;> simp only [World.kept, Worker.other, List.count_append] <;> omega

/-- The write `k` is now `j`, and the connection `c`. -/
def World.after (w : World μ) (k : Worker) (j : Option Job) (c : Conn (List Row)) : World μ :=
  { w with conn := c, jobs := Function.update w.jobs k j }

theorem after_other (w : World μ) (k : Worker) (j : Option Job) (c : Conn (List Row)) :
    (w.after k j c).jobs k.other = w.jobs k.other := by
  cases k <;> rfl

theorem after_self (w : World μ) (k : Worker) (j : Option Job) (c : Conn (List Row)) : (w.after k j c).jobs k = j := by
  simp [World.after]

theorem kept_after_iff {w : World μ} {k : Worker} {j : Option Job} {c : Conn (List Row)} {l : List Row}
    (h : l.Perm w.kept) :
    l.Perm (w.after k j c).kept ↔ (remaining (w.jobs k) ++ w.conn.view).Perm (remaining j ++ c.view) := by
  have hw := h.trans (kept_perm w k)
  have hafter := kept_perm (w.after k j c) k
  rw [after_other, after_self] at hafter
  have hc : (w.after k j c).conn.view = c.view := rfl
  have hp : (w.after k j c).pending = w.pending := rfl
  rw [hc, hp] at hafter
  rw [← List.append_assoc] at hw hafter
  constructor
  · intro h'
    exact (List.perm_append_right_iff _).1 ((hw.symm.trans h').trans hafter)
  · intro h'
    exact (hw.trans ((List.perm_append_right_iff _).2 h')).trans hafter.symm

/-- A write that goes on keeps the account. -/
theorem World.Accounted.goesOn {old : List Row} {w : World μ} (h : w.Accounted old)
    {k : Worker} {j : Job} {c : Conn (List Row)}
    (hrows : (remaining (w.jobs k) ++ w.conn.view).Perm (j.rows ++ c.view)) : (w.after k (some j) c).Accounted old where
  once := (kept_after_iff h.once).2 hrows
  settled hq := by
    have := hq k
    rw [after_self] at this
    cases this

/-- A write that ends keeps the account where its rows are in the table, or in a transaction that another write will
commit. -/
theorem accounted_ended_iff {old : List Row} {w : World μ} (h : w.Accounted old) {k : Worker} {c : Conn (List Row)} :
    (w.after k none c).Accounted old ↔ (remaining (w.jobs k) ++ w.conn.view).Perm c.view ∧
      (w.jobs k.other ≠ none ∨ c.view = c.committed) := by
  have hquiet : (w.after k none c).Quiet ↔ w.jobs k.other = none := by
    constructor
    · intro hq
      rw [← after_other w k none c]
      exact hq k.other
    · intro hk k'
      by_cases heq : k' = k
      · rw [heq, after_self]
      · have hother : k' = k.other := by cases k <;> cases k' <;> simp_all [Worker.other]
        rw [hother, after_other, hk]
  constructor
  · rintro ⟨honce, hsettled⟩
    refine ⟨(kept_after_iff h.once).1 honce, ?_⟩
    by_cases hk : w.jobs k.other = none
    · exact .inr (hsettled (hquiet.2 hk))
    · exact .inl hk
  · rintro ⟨hrows, hor⟩
    refine ⟨(kept_after_iff h.once).2 hrows, fun hq => ?_⟩
    rcases hor with hk | hc
    · exact absurd (hquiet.1 hq) hk
    · exact hc

/-- What a connection holds after a failure, of what it held before. -/
theorem perm_failOn_iff {rows : List Row} {c : Conn (List Row)} (hc : ∃ extra, c.view = c.committed ++ extra)
    (state : CommitState) :
    (rows ++ c.view).Perm (failOn c state).view ↔ rows = [] ∧ (state = .rolledBack → c.view = c.committed) := by
  have hsame : (rows ++ c.view).Perm c.view ↔ rows = [] := by
    constructor
    · intro h
      have := h.length_eq
      rw [List.length_append] at this
      exact List.length_eq_zero_iff.1 (by omega)
    · rintro rfl
      exact List.Perm.refl _
  cases state with
  | stillOpen => simp [failOn, hsame]
  | committed => simp [failOn, hsame]
  | rolledBack =>
    obtain ⟨extra, hextra⟩ := hc
    simp only [failOn, idle_view, forall_const]
    constructor
    · intro h
      have := h.length_eq
      rw [hextra, List.length_append, List.length_append] at this
      refine ⟨List.length_eq_zero_iff.1 (by omega), ?_⟩
      rw [hextra, List.length_eq_zero_iff.1 (by omega : extra.length = 0), List.append_nil]
    · rintro ⟨rfl, hv⟩
      rw [hv]
      exact List.Perm.refl _

/-- Nothing is left uncommitted by a failure that ends the transaction. -/
theorem failOn_settled {c : Conn (List Row)} {state : CommitState} :
    (failOn c state).view = (failOn c state).committed ↔ (state = .stillOpen → c.view = c.committed) := by
  cases state with
  | stillOpen => simp [failOn]
  | rolledBack => exact iff_of_true rfl nofun
  | committed => exact iff_of_true rfl nofun

/-! ## The steps -/

@[simp] theorem beginOn_view (c : Conn (List Row)) : (beginOn c).view = c.view := rfl

theorem insertOn_view (c : Conn (List Row)) (r : Row) : (insertOn c r).view = c.view ++ [r] := by
  obtain ⟨committed, work⟩ := c
  cases work <;> rfl

/-- A row comes after those that are there. -/
theorem insertOn_extra {c : Conn (List Row)} (hc : ∃ rows, c.view = c.committed ++ rows) (r : Row) :
    ∃ rows, (insertOn c r).view = (insertOn c r).committed ++ rows := by
  obtain ⟨committed, work⟩ := c
  cases work with
  | none => exact ⟨[], (List.append_nil _).symm⟩
  | some d =>
    obtain ⟨rows, hrows⟩ := hc
    refine ⟨rows ++ [r], ?_⟩
    rw [insertOn_view, hrows, List.append_assoc]
    rfl

theorem failOn_extra {c : Conn (List Row)} (hc : ∃ rows, c.view = c.committed ++ rows) (state : CommitState) :
    ∃ rows, (failOn c state).view = (failOn c state).committed ++ rows := by
  cases state with
  | stillOpen => exact hc
  | rolledBack => exact ⟨[], (List.append_nil _).symm⟩
  | committed => exact ⟨[], (List.append_nil _).symm⟩

/-- A write goes on, or ends. -/
theorem World.Ok.after {w : World μ} (h : w.Ok) {k : Worker} (hk : w.jobs k ≠ none) (j : Option Job)
    {c : Conn (List Row)}
    (hc : ∃ rows, c.view = c.committed ++ rows) : (w.after k j c).Ok where
  view := hc
  drained := h.drained
  left hp := by
    cases k with
    | awaited => exact h.left hp
    | left => exact absurd (h.left hp) hk
  closed hp := by
    cases k with
    | awaited => exact absurd (h.closed hp) hk
    | left => exact h.closed hp

theorem flush_pending (w : World μ) : w.flush.pending = [] := by
  unfold World.flush
  split
  · assumption
  · rfl

theorem flush_conn (w : World μ) : w.flush.conn = w.conn := by
  unfold World.flush
  split <;> rfl

theorem flush_left (w : World μ) : w.flush.jobs .left = w.jobs .left := by
  unfold World.flush
  split <;> rfl

theorem flush_phase (w : World μ) : w.flush.phase = w.phase := by
  unfold World.flush
  split <;> rfl

/-- What a step does. -/
inductive Moves (mon : Monitor μ) (w : World μ) : Act → World μ → Prop
  | ingest (f : Mdfp.Frame) : w.phase = .running → Moves mon w (.ingest f) (w.ingest mon f)
  | flush : w.phase = .running → w.jobs .awaited = none → Moves mon w .flush w.flush
  | lastFlush : w.phase = .stopping → w.jobs .awaited = none → Moves mon w .flush { w.flush with phase := .last }
  | begin (k : Worker) (rows : List Row) : w.jobs k = some ⟨rows, false⟩ →
      Moves mon w (.begin k) (w.after k (some ⟨rows, true⟩) (beginOn w.conn))
  | insert (k : Worker) (r : Row) (rows : List Row) : w.jobs k = some ⟨r :: rows, true⟩ →
      Moves mon w (.insert k) (w.after k (some ⟨rows, true⟩) (insertOn w.conn r))
  | commit (k : Worker) : w.jobs k = some ⟨[], true⟩ → Moves mon w (.commit k) (w.after k none (idle w.conn.view))
  | fail (k : Worker) (state : CommitState) (j : Job) : w.jobs k = some j → (state = .committed → j.rows = []) →
      Moves mon w (.fail k state) (w.after k none (failOn w.conn state))
  | stop : w.phase = .running → Moves mon w .stop
      { w with phase := .stopping, jobs := fun k => match k with | .awaited => none | .left => w.jobs .awaited }
  | close : w.phase = .last → w.jobs .awaited = none →
      Moves mon w (.close none) { w with phase := .closed, conn := idle w.conn.view, jobs := fun _ => none }
  | closeFails (state : CommitState) : w.phase = .last → w.jobs .awaited = none →
      Moves mon w (.close (some state)) { w with phase := .closed, conn := failOn w.conn state }

variable {mon : Monitor μ} {old : List Row} {w w' : World μ} {a : Act}

theorem moves_of_step (h : w.step mon a = some w') : Moves mon w a w' := by
  cases a with
  | ingest f =>
    simp only [World.step] at h
    split at h
    · cases h
      exact .ingest f ‹_›
    · cases h
  | flush =>
    simp only [World.step] at h
    split at h
    · cases h
      exact .flush ‹_› ‹_›
    · cases h
      exact .lastFlush ‹_› ‹_›
    · cases h
  | begin k =>
    simp only [World.step] at h
    split at h
    · cases h
      exact .begin k _ ‹_›
    · cases h
  | insert k =>
    simp only [World.step] at h
    split at h
    · cases h
      exact .insert k _ _ ‹_›
    · cases h
  | commit k =>
    simp only [World.step] at h
    split at h
    · cases h
      exact .commit k ‹_›
    · cases h
  | fail k state =>
    simp only [World.step] at h
    split at h
    · split at h
      · cases h
      · rename_i j hk hne
        cases h
        exact .fail k state j hk fun hs => by_contra fun hr => hne ⟨hs, hr⟩
    · cases h
  | stop =>
    simp only [World.step] at h
    split at h
    · cases h
      exact .stop ‹_›
    · cases h
  | close fault =>
    simp only [World.step] at h
    split at h
    · cases h
      exact .close ‹_› ‹_›
    · cases h
      exact .closeFails _ ‹_› ‹_›
    · cases h

theorem ok_step (h : w.Ok) (hst : w.step mon a = some w') : w'.Ok := by
  cases moves_of_step hst with
  | ingest f hp =>
    refine ⟨h.view, ?_, h.left, h.closed⟩
    rintro (hl | hl) <;> exact absurd (hp.symm.trans hl) nofun
  | flush hp hj =>
    refine ⟨?_, fun _ => flush_pending w, ?_, ?_⟩
    · rw [flush_conn]
      exact h.view
    · rw [flush_phase, flush_left]
      exact h.left
    · rw [flush_phase, hp]
      exact nofun
  | lastFlush hp hj =>
    refine ⟨?_, fun _ => flush_pending w, nofun, nofun⟩
    show ∃ rows, w.flush.conn.view = w.flush.conn.committed ++ rows
    rw [flush_conn]
    exact h.view
  | begin k rows hk => exact h.after (by rw [hk]; exact nofun) _ h.view
  | insert k r rows hk => exact h.after (by rw [hk]; exact nofun) _ (insertOn_extra h.view r)
  | commit k hk => exact h.after (by rw [hk]; exact nofun) _ ⟨[], (List.append_nil _).symm⟩
  | fail k state j hk _ => exact h.after (by rw [hk]; exact nofun) _ (failOn_extra h.view state)
  | stop hp => exact ⟨h.view, nofun, nofun, nofun⟩
  | close hp hj => exact ⟨⟨[], (List.append_nil _).symm⟩, fun _ => h.drained (.inl hp), nofun, fun _ => rfl⟩
  | closeFails state hp hj => exact ⟨failOn_extra h.view state, fun _ => h.drained (.inl hp), nofun, fun _ => hj⟩

/-- A flush moves the pending rows into a write. -/
theorem flush_accounted (h : w.Accounted old) (hj : w.jobs .awaited = none) : w.flush.Accounted old := by
  unfold World.flush
  split
  · exact h
  · constructor
    · refine h.once.trans ?_
      rw [List.perm_iff_count]
      intro r
      simp [World.kept, hj, Function.update]
    · intro hq
      cases hq .awaited

/-- `close` commits what a write that is still on its way has inserted, and drops the rest of its rows. -/
theorem accounted_close_iff (hw : w.Ok) (h : w.Accounted old) (hj : w.jobs .awaited = none) :
    World.Accounted old { w with phase := .closed, conn := idle w.conn.view, jobs := fun _ => none } ↔
      w.keeps (.close none) := by
  have hjobs : (fun _ => none) = Function.update w.jobs .left none := by
    funext k
    cases k with
    | awaited => exact hj.symm
    | left => rfl
  have hend : World.Accounted old { w with phase := .closed, conn := idle w.conn.view, jobs := fun _ => none } ↔
      (w.after .left none (idle w.conn.view)).Accounted old := by
    rw [hjobs]
    exact ⟨fun h => ⟨h.once, h.settled⟩, fun h => ⟨h.once, h.settled⟩⟩
  rw [hend, accounted_ended_iff h]
  have := @perm_failOn_iff (remaining (w.jobs .left)) _ hw.view .committed
  simp only [failOn] at this
  rw [this]
  simp [World.keeps, idle, Conn.view]

theorem accounted_closeFails_iff (hw : w.Ok) (h : w.Accounted old) (hj : w.jobs .awaited = none) (state : CommitState) :
    World.Accounted old { w with phase := .closed, conn := failOn w.conn state } ↔ w.keeps (.close (some state)) := by
  have hkept : (w.after .left (w.jobs .left) (failOn w.conn state)).kept =
      World.kept { w with phase := .closed, conn := failOn w.conn state } := by
    unfold World.after
    rw [Function.update_eq_self]
    rfl
  have honce := @kept_after_iff _ w .left (w.jobs .left) (failOn w.conn state) _ h.once
  rw [List.perm_append_left_iff, hkept] at honce
  have hview := @perm_failOn_iff [] _ hw.view state
  have hquiet : w.Quiet ↔ w.jobs .left = none := by
    constructor
    · intro hq
      exact hq .left
    · intro hl k
      cases k with
      | awaited => exact hj
      | left => exact hl
  have hend : World.Accounted old { w with phase := .closed, conn := failOn w.conn state } ↔
      (state = .rolledBack → w.conn.view = w.conn.committed) ∧
      (w.jobs .left = none → state = .stillOpen → w.conn.view = w.conn.committed) := by
    constructor
    · rintro ⟨ho, hs⟩
      exact ⟨(hview.1 (honce.1 ho)).2, fun hl => failOn_settled.1 (hs (hquiet.2 hl))⟩
    · rintro ⟨hrolled, hopen⟩
      exact ⟨honce.2 (hview.2 ⟨rfl, hrolled⟩), fun hq => failOn_settled.2 (hopen (hquiet.1 hq))⟩
  rw [hend]
  cases state with
  | stillOpen => simp [World.keeps, imp_iff_not_or]
  | rolledBack => simp [World.keeps]
  | committed => simp [World.keeps]

theorem accounted_step_iff (hw : w.Ok) (h : w.Accounted old) (hst : w.step mon a = some w') : w'.Accounted old ↔
    w.keeps a := by
  cases moves_of_step hst with
  | ingest f hp =>
    refine iff_of_true ⟨?_, h.settled⟩ trivial
    have honce := List.perm_iff_count.1 h.once
    rw [List.perm_iff_count]
    intro r
    have := honce r
    simp only [World.ingest, World.kept, List.count_append] at this ⊢
    omega
  | flush hp hj => exact iff_of_true (flush_accounted h hj) trivial
  | lastFlush hp hj =>
    have hf := flush_accounted h hj
    exact iff_of_true ⟨hf.once, hf.settled⟩ trivial
  | begin k rows hk =>
    refine iff_of_true (h.goesOn ?_) trivial
    rw [hk]
    exact List.Perm.refl _
  | insert k r rows hk =>
    refine iff_of_true (h.goesOn ?_) trivial
    rw [hk, insertOn_view, List.perm_iff_count]
    intro x
    simp only [remaining_some, List.count_append, List.count_cons, List.count_nil]
    omega
  | commit k hk =>
    refine iff_of_true ((accounted_ended_iff h).2 ⟨?_, .inr rfl⟩) trivial
    rw [hk]
    exact List.Perm.refl _
  | fail k state j hk hrows =>
    rw [accounted_ended_iff h, perm_failOn_iff hw.view, failOn_settled, hk]
    cases state with
    | stillOpen => simp [World.keeps, hk]
    | rolledBack => simp [World.keeps, hk]
    | committed => simp [World.keeps, hrows rfl]
  | stop hp =>
    refine iff_of_true ⟨?_, ?_⟩ trivial
    · refine h.once.trans ?_
      simp [World.kept, hw.left hp]
    · intro hq
      refine h.settled fun k => ?_
      cases k with
      | awaited => exact hq .left
      | left => exact hw.left hp
  | close hp hj => exact accounted_close_iff hw h hj
  | closeFails state hp hj => exact accounted_closeFails_iff hw h hj state

/-- Where no write is on its way every row is pending or in the table, once. -/
theorem World.Accounted.quiet (h : w.Accounted old) (hq : w.Quiet) :
    (old ++ w.produced).Perm (w.pending ++ w.conn.committed) := by
  refine h.once.trans ?_
  rw [World.kept, hq .awaited, hq .left, h.settled hq]
  exact List.Perm.refl _

end

theorem ok_start {μ : Type} (m : μ) (old : List Row) : (World.start m old).Ok where
  view := ⟨[], (List.append_nil _).symm⟩
  drained _ := rfl
  left _ := rfl
  closed _ := rfl

theorem accounted_start {μ : Type} (m : μ) (old : List Row) : (World.start m old).Accounted old where
  once := by
    rw [World.start, List.append_nil]
    exact List.Perm.refl _
  settled _ := rfl

/-- **Each event is recorded once along exactly the runs without a failure that loses rows.** Whatever the monitor
finds, the events it has returned are all along the run pending, on their way or in the table, each once, where no
write is on its way pending or in the table, and after a stop in the table, just when every step keeps the account. -/
theorem recorded_once_iff {μ : Type} (mon : Monitor μ) (m : μ) (old : List Row) (as : List Act) (w : World μ) :
    (Run (World.step mon) anyStep (.start m old) as w ∧ ∀ bs cs v, as = bs ++ cs →
      Run (World.step mon) anyStep (.start m old) bs v →
        v.Accounted old ∧ (v.Quiet → (old ++ v.produced).Perm (v.pending ++ v.conn.committed)) ∧
          (v.Quiet → v.phase = .closed → (old ++ v.produced).Perm v.conn.committed)) ↔
      Run (World.step mon) World.keeps (.start m old) as w := by
  have hiff : Run (World.step mon) anyStep (.start m old) as w → ((∀ bs cs v, as = bs ++ cs →
      Run (World.step mon) anyStep (.start m old) bs v → v.Accounted old) ↔
      Run (World.step mon) World.keeps (.start m old) as w) := fun h =>
    Run.invariant_iff (fun _ _ _ hv hs => ok_step hv hs) (fun _ _ _ hv hc hs => accounted_step_iff hv hc hs) h
      (ok_start m old)
      (accounted_start m old)
  constructor
  · rintro ⟨h, hall⟩
    exact (hiff h).1 fun bs cs v hbs hv => (hall bs cs v hbs hv).1
  · intro h
    have hany : Run (World.step mon) anyStep (.start m old) as w := h.mono fun _ _ _ => trivial
    refine ⟨hany, fun bs cs v hbs hv => ?_⟩
    have hacc := (hiff hany).2 h bs cs v hbs hv
    have hok : v.Ok := hv.invariant (ok_start m old) fun _ _ _ hv _ hs => ok_step hv hs
    refine ⟨hacc, hacc.quiet, fun hq hp => ?_⟩
    have := hacc.quiet hq
    rw [hok.drained (.inr hp)] at this
    exact this

/-! ## Runs -/

/-- A monitor that finds quotes crossed, as `QuoteSanityCheck` does a bid of 2 above an ask of 1. -/
def crossed : Monitor Unit where
  onTrade _ _ _ _ _ := (some [], ())
  onQuote _ venue symbol _ _ tsNs :=
    (some [⟨tsNs, "quote_sanity", "CRITICAL", venue, symbol, "크로스된 호가 — 매수 2 > 매도 1. 필드가 뒤바뀌었을 가능성",
      0x40C3880000000000⟩], ())

/-- A quote of a bid of 2 and an ask of 1, at a time in nanoseconds. -/
def crossedQuote (tsNs : UInt64) : Mdfp.Frame where
  msgType := MSG_BOOK
  seq := 0
  flags := 0
  payload := ((Mdfp.BookTop.pack ⟨"KRX", "005930", tsNs, tsNs, 0x4000000000000000, 0x3FF0000000000000,
    0x3FF0000000000000, 0x3FF0000000000000⟩).getD [])

/-- The storage fails once, before the first row, and works from then on. -/
def failedOnce : List Act :=
  [.ingest (crossedQuote 1000), .flush, .fail .awaited .stillOpen, .ingest (crossedQuote 2000), .flush,
    .begin .awaited, .insert .awaited,
    .commit .awaited, .stop, .flush, .close none]

/-- **An event of a write that fails is lost**: no later flush has it, and it is not in the table after a stop. -/
theorem failed_write_lost :
    ∃ w, Run (World.step crossed) anyStep (.start () []) failedOnce w ∧ w.phase = .closed ∧ w.pending = [] ∧
      w.produced.map Row.ts = [1, 2] ∧ w.conn = idle [⟨2, "quote_sanity", "CRITICAL", "KRX", "005930",
        "크로스된 호가 — 매수 2 > 매도 1. 필드가 뒤바뀌었을 가능성", 0x40C3880000000000⟩] :=
  exists_run (by decide +kernel)

/-- **A stop loses an event though nothing fails**: the write of the flush that it cancels has not come to its row
when the storage is closed. -/
theorem lost_at_stop :
    ∃ w, Run (World.step crossed) anyStep (.start () []) [.ingest (crossedQuote 1000), .flush, .begin .awaited, .stop,
      .flush, .close none] w ∧
      w.phase = .closed ∧ w.pending = [] ∧ w.produced.map Row.ts = [1] ∧ w.conn = idle [] :=
  exists_run (by decide +kernel)

end Quality
