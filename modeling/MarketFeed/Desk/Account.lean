import MarketFeed.Lib.Total
import MarketFeed.Desk.Truth
import MarketFeed.Desk.Dates
/-!
# The account behind the desk (order_desk.py:326-345, kis_trading.py:180-201)

The broker's side of the holdings: an accepted order of the day executes in parts, nothing else trades, and
a request for the balance is answered with the holdings as some of the executions leave them. The answer may
lag behind within the day, never behind an earlier answer. `trade_date()` is the account's date, which goes
on to dates it never had.

| here | there |
| --- | --- |
| `Account.desk` | the desk and its ledger, as in Step.lean |
| `Exec` | one execution of an order, at the broker |
| `Account.reply`, `Account.shown` | the balance under way to the desk, and how many executions it shows |
| `AccountStep.answer` | `balance()`: the symbols held, in any order |
-/

namespace OrderDesk

open OrderLedger Lts Total

structure Exec where
  clientOrderId : String
  key : Key
  qty : Int
  deriving DecidableEq

/-- What the execution does to the holding of its symbol. -/
def Exec.signed (e : Exec) : Int := if e.key.side = .buy then e.qty else -e.qty

structure Reply where
  holdings : List (String × Int)
  shown : Nat
  deriving DecidableEq

structure Account where
  desk : Desk
  today : String
  past : List String
  execs : List Exec
  shown : Nat
  reply : Option Reply
  deriving DecidableEq

def Account.init (today : String) : Account := ⟨.init, today, [], [], 0, none⟩

/-- What was executed of an order. -/
def executed (es : List Exec) (cid : String) : Int := total (fun e => decide (e.clientOrderId = cid)) (·.qty) es

/-- What the executions did to a symbol. -/
def traded (es : List Exec) (sym : String) : Int := total (·.key.symbol == sym) Exec.signed es

/-- What those of one day's orders did to it. -/
def tradedOn (es : List Exec) (day sym : String) : Int :=
  total (fun e => e.key.tradeDate == day && e.key.symbol == sym) Exec.signed es

section
variable (opening : List (String × Nat))

def position (es : List Exec) (sym : String) : Int :=
  holdingOf (opening.map fun h => (h.1, (h.2 : Int))) sym + traded es sym

/-- The symbols held, with their quantities. -/
def held (es : List Exec) : List (String × Int) :=
  ((opening.map (·.1) ++ es.map (·.key.symbol)).dedup.map fun s => (s, position opening es s)).filter fun h =>
    decide (0 < h.2)

/-- The reconcile loop waits for a balance. -/
def Recon.wantsBalance : Recon → Bool
  | .holdings _ | .balance _ _ => true
  | _ => false

/-- The desk's step fits the account: it reads the date, and the balance it gets is the one under way. A crash
in the middle of `set_holdings_baseline` is left out. -/
def Account.admits (a : Account) : Label → Bool
  | .run (.enter _ day _) | .crash (.enter _ day _) _ => decide (day = a.today)
  | .run (.startReconcile day) | .crash (.startReconcile day) _ => decide (day = a.today)
  | .run (.gotHoldings hs _) => decide (a.reply.map (·.holdings) = some hs)
  | .run (.gotBalance hs _ _) | .crash (.gotBalance hs _ _) _ => decide (a.reply.map (·.holdings) = some hs)
  | .crash (.gotHoldings _ _) _ => false
  | _ => true

inductive AccountStep
  | desk (lbl : Label)
  | execute (cid : String) (qty : Int)
  /-- The balance request is answered, showing the first `n` executions. -/
  | answer (hs : List (String × Int)) (n : Nat)
  | midnight (date : String)

variable (lim : Limits) (db : Db)

def accountStep (a : Account) : AccountStep → Option Account
  | .desk lbl =>
    if a.admits lbl then
      (step lim db a.desk lbl).map fun d =>
        { a with desk := d, reply := if d.recon = a.desk.recon then a.reply else none }
    else none
  | .execute cid qty =>
    match a.desk.ledger.byClientId cid with
    | some r =>
      if a.desk.atBroker cid = true ∧ r.tradeDate = a.today ∧ 0 < qty ∧ executed a.execs cid + qty ≤ r.qty ∧
          (r.side = .sell → qty ≤ position opening a.execs r.symbol) then
        some { a with execs := a.execs ++ [⟨cid, r.key, qty⟩] }
      else none
    | none => none
  | .answer hs n =>
    if a.desk.recon.wantsBalance = true ∧ a.shown ≤ n ∧ n ≤ a.execs.length ∧
        (∀ e ∈ a.execs.drop n, e.key.tradeDate = a.today) ∧ hs.Perm (held opening (a.execs.take n)) then
      some { a with shown := n, reply := some ⟨hs, n⟩ }
    else none
  | .midnight date =>
    if date ∈ a.today :: a.past then none else some { a with today := date, past := a.today :: a.past }

end

/-! ## What the balance shows -/

section
variable {opening : List (String × Nat)}

theorem traded_append (es fs : List Exec) (sym : String) : traded (es ++ fs) sym = traded es sym + traded fs sym :=
  total_append _ _ _ _

/-- Every holding is 0 or more. -/
def Covered (opening : List (String × Nat)) (es : List Exec) : Prop := ∀ n sym, 0 ≤ position opening (es.take n) sym

theorem find_key {xs : List (String × Int)} {sym : String} : 
    (∃ h ∈ xs, h.1 = sym ∧ holdingOf xs sym = h.2) ∨ ((∀ h ∈ xs, h.1 ≠ sym) ∧ holdingOf xs sym = 0) := by
  unfold holdingOf
  cases hf : xs.find? (·.1 == sym) with
  | some h => exact .inl ⟨h, List.mem_of_find?_eq_some hf, by simpa using List.find?_some hf, rfl⟩
  | none =>
    refine .inr ⟨fun h hh => ?_, rfl⟩
    simpa using List.find?_eq_none.1 hf h hh

/-- The balance names the holding of every symbol. -/
theorem holdingOf_held {es : List Exec} (hc : ∀ sym, 0 ≤ position opening es sym) {hs : List (String × Int)}
    (hp : hs.Perm (held opening es)) (sym : String) : holdingOf hs sym = position opening es sym := by
  have hmem : ∀ h, h ∈ hs ↔ (h.1 ∈ opening.map (·.1) ++ es.map (·.key.symbol)) ∧ h.2 = position opening es h.1 ∧
      0 < h.2 := by
    rintro ⟨s, q⟩
    rw [hp.mem_iff]
    simp only [held, List.mem_filter, List.mem_map, List.mem_dedup, decide_eq_true_eq, Prod.mk.injEq]
    constructor
    · rintro ⟨⟨s, hs, rfl, rfl⟩, hq⟩
      exact ⟨hs, rfl, hq⟩
    · rintro ⟨hs, rfl, hq⟩
      exact ⟨⟨s, hs, rfl, rfl⟩, hq⟩
  obtain ⟨h, hh, rfl, heq⟩ | ⟨hno, heq⟩ := @find_key hs sym
  · rw [heq]
    exact ((hmem h).1 hh).2.1
  · rw [heq]
    by_cases hs : sym ∈ opening.map (·.1) ++ es.map (·.key.symbol)
    · have hle : ¬ 0 < position opening es sym :=
        fun hpos => hno ⟨sym, position opening es sym⟩ ((hmem _).2 ⟨hs, rfl, hpos⟩) rfl
      have := hc sym
      omega
    · -- neither held at first nor traded
      rw [List.mem_append, not_or] at hs
      have h1 : holdingOf (opening.map fun h => (h.1, (h.2 : Int))) sym = 0 := by
        obtain ⟨h, hh, hk, _⟩ | ⟨_, h0⟩ := @find_key (opening.map fun h => (h.1, (h.2 : Int))) sym
        · obtain ⟨o, ho, rfl⟩ := List.mem_map.1 hh
          exact absurd (List.mem_map.2 ⟨o, ho, hk⟩) hs.1
        · exact h0
      have h2 : traded es sym = 0 := total_eq_zero fun e he => by
        simpa using fun hk => hs.2 (List.mem_map.2 ⟨e, he, hk⟩)
      rw [position, h1, h2]
      rfl

/-- Its symbols are distinct. -/
theorem held_nodup {es : List Exec} {hs : List (String × Int)} (hp : hs.Perm (held opening es)) :
    (hs.map (·.1)).Nodup := by
  rw [(hp.map _).nodup_iff]
  refine List.Nodup.sublist (List.filter_sublist.map _) ?_
  rw [List.map_map]
  simpa [Function.comp_def] using List.nodup_dedup _

/-- The sum over the rows of a symbol of a dictionary is its value. -/
theorem sum_of_key {xs : List (String × Int)} (hn : (xs.map (·.1)).Nodup) (sym : String) :
    ((xs.filter (·.1 == sym)).map (·.2)).sum = holdingOf xs sym := by
  induction xs with
  | nil => rfl
  | cons x xs ih =>
    obtain ⟨hnew, hn⟩ := List.nodup_cons.1 hn
    by_cases hx : x.1 = sym
    · have hrest : xs.filter (·.1 == sym) = [] := List.filter_eq_nil_iff.2 fun y hy => by
        simpa using fun he => hnew (List.mem_map.2 ⟨y, hy, he.trans hx.symm⟩)
      simp [holdingOf, hx, hrest]
    · have ih := ih hn
      simpa [holdingOf, hx] using ih

end

end OrderDesk
