import MarketFeed.Contest.Complete
import MarketFeed.Contest.Service
import MarketFeed.Contest.Spec
import MarketFeed.Lib.Run
/-!
# No order is filled while the contest is halted (services/contest.py:248-272)

`submit` looks at the trading state before it awaits the quote and not after. While the contest is halted no
submission passes that check (`waiting_of_halted`), and none is filled on a cached price; what fills is the
quote of a submission that passed it before the halt. `quietHalt` says that none arrives.
-/

namespace Contest

open Keyed Txn Lts

variable {H : Type}

/-- Orders filled by a step. -/
def newFills (t t' : Tables H) : List Order := t'.filled.filter fun o => !t.filled.contains o

def Event.isTampered : Event H → Bool
  | .tampered _ => true
  | _ => false

/-- The orders that the service fills in the halted states of a run. -/
def filledHalted [DecidableEq H] (hash : ChainHash H) (cfg : ServiceCfg) : Service H → List (Event H) → List Order
  | _, [] => []
  | s, e :: es =>
    match s.step hash cfg e with
    | none => []
    | some s' => (if s.tables.isHalted && !e.isTampered then newFills s.tables s'.tables else []) ++
        filledHalted hash cfg s' es

/-- No quote reaches a submission while the contest is halted. -/
def quietHalt (s : Service H) : Event H → Bool
  | .quoted .. => !s.tables.isHalted
  | _ => true

section

variable {hash : ChainHash H} {cfg : ServiceCfg} {s s' : Service H} {e : Event H}

/-- Only `place` touches the orders. -/
theorem orders_call {op : Op} (h : ∀ r now ts, op ≠ .place r now ts) :
    (s.call hash cfg op).tables.orders = s.tables.orders := by
  unfold Service.call
  cases ht : transact (op.body hash cfg.ledger) s.tables with
  | mk res t' =>
    cases res with
    | error e => rw [transact_error ht]
    | ok a =>
      rcases runs_body (transact_ok_iff.1 ht) with hsame | ⟨_, _, _, _, _, _, hr⟩ | ⟨r, now, ts, _, hop, _, _⟩
      · exact hsame.orders
      · obtain ⟨-, -, -, rfl⟩ := runs_signup hr
        rfl
      · exact absurd hop (h r now ts)

theorem submit_halted {pid : ℤ} {body : Option Submission} {now : Moment} (hh : s.tables.isHalted = true) :
    (s.submit hash cfg pid body now).1 = s := by
  unfold Service.submit
  split
  · rfl
  · rfl
  · have hclosed : (tradingState cfg s.tables now).1 = false := by
      unfold tradingState
      rw [if_pos hh]
    simp only [hclosed, if_true]

theorem waiting_fill {pid : ℤ} {b : Submission} {price : ℤ} {now : Moment} :
    (s.fill hash cfg pid b price now).1.waiting = s.waiting := by
  unfold Service.fill
  simp only
  split <;> rfl

theorem tables_integrityOnce_halted [DecidableEq H] (hh : s.tables.isHalted = true) :
    (s.integrityOnce hash cfg).tables = s.tables := by
  unfold Service.integrityOnce
  simp only
  split
  · rw [if_pos hh]
  · rfl

theorem orders_adminResume [DecidableEq H] : (s.adminResume hash cfg).1.tables.orders = s.tables.orders := by
  unfold Service.adminResume
  split
  · exact orders_call fun _ _ _ h => by cases h
  · rfl

/-- A step while the contest is halted records no order, a quote apart. -/
theorem orders_step_halted [DecidableEq H] (hh : s.tables.isHalted = true) (hq : quietHalt s e = true)
    (ht : e.isTampered = false)
    (hs : s.step hash cfg e = some s') : s'.tables.orders = s.tables.orders := by
  obtain ⟨⟨s₁, reply⟩, hact, rfl⟩ := Option.map_eq_some_iff.1 hs
  cases e with
  | submit pid body now =>
    have hsub := congrArg Prod.fst (Option.some.inj hact)
    rw [submit_halted hh] at hsub
    rw [← hsub]
  | quoted i price now => exact absurd hq (by simp [quietHalt, hh])
  | unquoted i text =>
    obtain ⟨_, _, he⟩ := Option.map_eq_some_iff.1 hact
    cases he
    rfl
  | priced symbol price mono =>
    cases hact
    rfl
  | integrityOnce =>
    cases hact
    rw [tables_integrityOnce_halted hh]
  | halt reason =>
    cases hact
    exact orders_call fun _ _ _ h => by cases h
  | resume =>
    cases hact
    exact orders_adminResume
  | signup code nickname pwHash now ts =>
    cases hact
    exact orders_call fun _ _ _ h => by cases h
  | createInvites codes =>
    cases hact
    exact orders_call fun _ _ _ h => by cases h
  | restart =>
    cases hact
    rfl
  | tampered edit => cases ht

/-- A halted contest lets no submission wait that did not wait before. -/
theorem waiting_of_halted [DecidableEq H] (hh : s.tables.isHalted = true) (hs : s.step hash cfg e = some s') :
    s'.waiting.Sublist s.waiting := by
  obtain ⟨⟨s₁, reply⟩, hact, rfl⟩ := Option.map_eq_some_iff.1 hs
  cases e with
  | submit pid body now =>
    have hsub := congrArg Prod.fst (Option.some.inj hact)
    rw [submit_halted hh] at hsub
    rw [← hsub]
  | quoted i price now =>
    obtain ⟨⟨pid, b⟩, _, he⟩ := Option.map_eq_some_iff.1 hact
    rw [← congrArg Prod.fst he, waiting_fill]
    exact List.eraseIdx_sublist _ _
  | unquoted i text =>
    obtain ⟨_, _, he⟩ := Option.map_eq_some_iff.1 hact
    cases he
    exact List.eraseIdx_sublist _ _
  | integrityOnce =>
    cases hact
    unfold Service.integrityOnce
    simp only
    split
    · rw [if_pos hh]
    · exact List.Sublist.refl _
  | resume =>
    cases hact
    unfold Service.adminResume
    split <;> exact List.Sublist.refl _
  | restart =>
    cases hact
    exact List.nil_sublist _
  | _ =>
    cases hact
    exact List.Sublist.refl _

end

/-- **Halted, nothing is filled**, in every run in which no quote reaches a submission while the contest is halted. -/
theorem halted_no_fill [DecidableEq H] (hash : ChainHash H) (cfg : ServiceCfg)
    {t₀ : Tables H} {es : List (Event H)} {s : Service H}
    (hrun : Run (Service.step hash cfg) (fun s e => quietHalt s e = true) (.start t₀) es s) :
    filledHalted hash cfg (.start t₀) es = [] := by
  generalize Service.start t₀ = s₀ at hrun
  induction hrun with
  | nil s => rfl
  | @cons s s₁ s₂ e es hq hs _ ih =>
    rw [filledHalted, hs]
    simp only [ih, List.append_nil]
    split
    · rename_i hc
      rw [Bool.and_eq_true, Bool.not_eq_true'] at hc
      have horders := orders_step_halted hc.1 hq hc.2 hs
      unfold newFills Tables.filled
      rw [horders]
      refine List.filter_eq_nil_iff.2 fun o ho => ?_
      rw [List.contains_iff_mem.2 ho]
      exact Bool.false_ne_true
    · rfl

def openCfg : ServiceCfg := ⟨defaultCfg, 10000, "", "", true, Char.isDigit⟩

def noon (n : ℕ) : Moment := ⟨"20260720", 0, 43200, (n, n), n⟩

/-- Someone adds to the cash of all. -/
def addCash (n : ℤ) (t : Tables H) : Tables H :=
  { t with accounts := t.accounts.map fun a => { a with cash := a.cash.add n } }

/-- A participant, whose first order waits for its quote when the books are found changed. -/
def brokenBooks : List (Event (List (ℚ × ℤ × Detail))) :=
  [.createInvites [("k3vP", 0)], .signup "k3vP" "mina" "" 1 1,
    .submit 1 (some ⟨"order-000001", "005930", "buy", 1⟩) (noon 2),
    .tampered (addCash 5000000), .integrityOnce]

/-- Its quote fails, the next order is refused, and one is filled after the books are repaired. -/
def repaired : List (Event (List (ℚ × ℤ × Detail))) :=
  brokenBooks ++ [.unquoted 0 "", .submit 1 (some ⟨"order-000002", "005930", "buy", 1⟩) (noon 3),
    .tampered (addCash (-5000000)),
    .resume, .submit 1 (some ⟨"order-000003", "005930", "buy", 1⟩) (noon 4), .quoted 0 70100 (noon 5)]

theorem halted_no_fill_repaired : ∃ s, Run (Service.step linkHash openCfg) anyStep (.start .empty) repaired s ∧
    s.tables.filled.length = 1 ∧ filledHalted linkHash openCfg (.start .empty) repaired = [] := by
  obtain ⟨s, hrun, hn⟩ : ∃ s, Run (Service.step linkHash openCfg) (fun s e => quietHalt s e = true)
      (.start .empty) repaired s ∧
    s.tables.filled.length = 1 := exists_run (by decide +kernel)
  exact ⟨s, hrun.mono fun _ _ _ => trivial, hn, halted_no_fill linkHash openCfg hrun⟩

/-- The quote arrives after the halt. -/
theorem filled_after_halt : ∃ s, Run (Service.step linkHash openCfg) anyStep (.start .empty)
      (brokenBooks ++ [.quoted 0 70100 (noon 3)]) s ∧
    filledHalted linkHash openCfg (.start .empty) (brokenBooks ++ [.quoted 0 70100 (noon 3)]) ≠ [] :=
  exists_run (by decide +kernel)

end Contest
