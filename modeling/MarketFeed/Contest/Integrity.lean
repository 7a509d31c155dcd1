import Mathlib.Data.List.Sort
import MarketFeed.Contest.Schema
/-!
# The integrity check of the contest ledger (contest.py:279-321)

`integrity` replays the journal into three dicts and compares them with the tables. `Checked` says what
has to agree for it to find nothing, `Unchecked` what it never looks at, and `Agrees` that the tables are
what a replay of the journal gives (contest.py:9-15).

| here | there |
| --- | --- |
| `brokenAt` | the chain test at the head of the loop over the journal |
| `Replay.add` | the rest of the loop: `cash`, `pos`, `fills` |
| `cashBreaks`, `positionBreaks`, `orderBreaks` | the three loops over the tables |
-/

namespace Contest

open Keyed Total

variable {H : Type} [DecidableEq H]

inductive Break
  | journalChainBroken (journalId : ℤ)
  | cashMismatch (participantId : ℤ) (table : Cash) (journal : ℤ)
  | positionMismatch (participantId : ℤ) (symbol : String) (table journal : ℤ)
  | orderJournalMismatch (orderId : ℤ)
  deriving DecidableEq

/-! ## The replay -/

structure Replay where
  cash : List (ℤ × ℤ)
  pos : List ((ℤ × String) × ℤ)
  fills : List (ℤ × Fill)

/-- `d[k] = d.get(k, 0) + x`. -/
def addTo {κ : Type} [DecidableEq κ] (d : List (κ × ℤ)) (k : κ) (x : ℤ) : List (κ × ℤ) :=
  upsert Prod.fst (fun o r => (o.1, o.2 + r.2)) d (k, x)

def Fill.signedQty (f : Fill) : ℤ := if f.side = "buy" then f.qty else -f.qty

def Replay.add (r : Replay) (j : Line H) : Replay :=
  match j.detail with
  | .deposit amount => { r with cash := addTo r.cash j.participantId amount }
  | .fill f =>
    { cash := addTo r.cash j.participantId f.cashDelta
      pos := addTo r.pos (j.participantId, f.symbol) f.signedQty
      fills := upsert Prod.fst (fun _ x => x) r.fills (f.orderId, f) }
  | .other _ => r

def replay (js : List (Line H)) : Replay := js.foldl Replay.add ⟨[], [], []⟩

/-- The id of the first line that does not follow from the one before it. -/
def brokenAt (hash : ChainHash H) : H → List (Line H) → Option ℤ
  | _, [] => none
  | prev, j :: js =>
    if j.prevHash ≠ prev ∨ j.hash ≠ hash.chain prev j.ts j.participantId j.detail then some j.id
    else brokenAt hash j.hash js

/-! ## The comparisons -/

def cashBreaks (t : Tables H) (cash : List (ℤ × ℤ)) : List Break :=
  t.accounts.filterMap fun a =>
    let n := amount Prod.fst Prod.snd a.participantId cash
    if (n : ℚ) ≠ a.cash.val then some (.cashMismatch a.participantId a.cash n) else none

/-- The order of the tuples `(participant_id, symbol)`. -/
def keyLe (a b : ℤ × String) : Prop := a.1 < b.1 ∨ (a.1 = b.1 ∧ a.2 ≤ b.2)

instance : DecidableRel keyLe := fun _ _ => inferInstanceAs (Decidable (_ ∨ _))

def positionBreaks (t : Tables H) (pos : List ((ℤ × String) × ℤ)) : List Break :=
  let tablePos := dictOf Position.key t.positions
  ((tablePos.map Position.key ++ pos.map Prod.fst).dedup.insertionSort keyLe).filterMap fun k =>
    let table := amount Position.key Position.qty k tablePos
    let journal := amount Prod.fst Prod.snd k pos
    if table ≠ journal then some (.positionMismatch k.1 k.2 table journal) else none

def Order.isFilled (o : Order) : Bool := decide (o.state = .filled)

def Tables.filled (t : Tables H) : List Order := t.orders.filter Order.isFilled

/-- The columns of an order that are compared. -/
def sameFill (o : Order) (f : Fill) : Bool :=
  decide (o.qty = f.qty ∧ o.price = f.price ∧ o.amount = f.amount ∧ o.fee = f.fee ∧ o.tax = f.tax)

def orderBreaks (t : Tables H) (fills : List (ℤ × Fill)) : List Break :=
  let filled := dictOf Order.id t.filled
  ((filled.map Order.id ++ fills.map Prod.fst).dedup.insertionSort (· ≤ ·)).filterMap fun oid =>
    match lookup Order.id oid filled, lookup Prod.fst oid fills with
    | some o, some f => if sameFill o f.2 then none else some (.orderJournalMismatch oid)
    | _, _ => some (.orderJournalMismatch oid)

def integrity (hash : ChainHash H) (t : Tables H) : List Break :=
  match brokenAt hash hash.genesis t.journal with
  | some id => [.journalChainBroken id]
  | none =>
    let r := replay t.journal
    cashBreaks t r.cash ++ positionBreaks t r.pos ++ orderBreaks t r.fills

/-! ## What the journal says -/

/-- Every line follows from the one before it. -/
def Chained (hash : ChainHash H) : H → List (Line H) → Prop
  | _, [] => True
  | prev, j :: js => j.prevHash = prev ∧ j.hash = hash.chain prev j.ts j.participantId j.detail ∧ Chained hash j.hash js

def Detail.cash : Detail → ℤ
  | .deposit amount => amount
  | .fill f => f.cashDelta
  | .other _ => 0

/-- The quantity a line adds to a holding. -/
def Line.qtyOf (k : ℤ × String) (j : Line H) : ℤ :=
  match j.detail with
  | .fill f => if (j.participantId, f.symbol) = k then f.signedQty else 0
  | _ => 0

def cashOf (pid : ℤ) (js : List (Line H)) : ℤ := total (fun j => decide (j.participantId = pid))
    (fun j => j.detail.cash) js

def qtyOf (k : ℤ × String) (js : List (Line H)) : ℤ := total (fun _ => true) (Line.qtyOf k) js

/-- The participant has a line that moves money. -/
def Line.moves (pid : ℤ) (j : Line H) : Bool :=
  decide (j.participantId = pid) && match j.detail with | .other _ => false | _ => true

/-- The cost of a holding, as `place` keeps it: what was paid, less a share of it for what is sold. -/
def Line.costStep (k : ℤ × String) (s : ℤ × ℤ) (j : Line H) : ℤ × ℤ :=
  match j.detail with
  | .fill f =>
    if (j.participantId, f.symbol) = k then
      if f.side = "buy" then (s.1 + f.qty, s.2 + f.amount + f.fee) else (s.1 - f.qty, s.2 - s.2 * f.qty / s.1)
    else s
  | _ => s

/-- Quantity and cost of a holding after the journal. -/
def holdingOf (k : ℤ × String) (js : List (Line H)) : ℤ × ℤ := js.foldl (Line.costStep k) (0, 0)

/-- The fill of an order, with its participant: the last line that names it. -/
def fillLine (oid : ℤ) (js : List (Line H)) : Option (ℤ × Fill) :=
  js.reverse.findSome? fun j =>
    match j.detail with
    | .fill f => if f.orderId = oid then some (j.participantId, f) else none
    | _ => none

/-! ## Agreement -/

/-- The primary keys of the three tables. -/
structure Tables.Unique (t : Tables H) : Prop where
  accounts : (t.accounts.map Account.participantId).Nodup
  positions : (t.positions.map Position.key).Nodup
  orders : (t.orders.map Order.id).Nodup

/-- A position row missing is a holding of nothing. -/
def Tables.holding (t : Tables H) (k : ℤ × String) : ℤ × ℤ :=
  match lookup Position.key k t.positions with
  | some p => (p.qty, p.cost)
  | none => (0, 0)

/-- The tables are the journal's: the accounts and their cash, quantity and cost of the positions, the filled orders. -/
structure Agrees (t : Tables H) : Prop where
  accounts : ∀ pid, (lookup Account.participantId pid t.accounts).isSome = t.journal.any (Line.moves pid)
  cash : ∀ a ∈ t.accounts, a.cash.val = cashOf a.participantId t.journal
  positions : ∀ k, t.holding k = holdingOf k t.journal
  filled : ∀ oid, (lookup Order.id oid t.filled).isSome = (fillLine oid t.journal).isSome
  orders : ∀ oid o x, lookup Order.id oid t.filled = some o → fillLine oid t.journal = some x →
    o.participantId = x.1 ∧ o.symbol = x.2.symbol ∧ o.side = x.2.side ∧ o.qty = x.2.qty ∧ o.price = x.2.price ∧
    o.fee = x.2.fee

/-- What `integrity` compares. -/
structure Checked (t : Tables H) : Prop where
  cash : ∀ a ∈ t.accounts, a.cash.val = cashOf a.participantId t.journal
  qty : ∀ k, (t.holding k).1 = (holdingOf k t.journal).1
  filled : ∀ oid, (lookup Order.id oid t.filled).isSome = (fillLine oid t.journal).isSome
  orders : ∀ oid o x, lookup Order.id oid t.filled = some o → fillLine oid t.journal = some x → sameFill o x.2 = true

/-- What it does not compare: which participants have an account, the cost of a position, whose order it was, of what
and on which side. -/
structure Unchecked (t : Tables H) : Prop where
  accounts : ∀ pid, (lookup Account.participantId pid t.accounts).isSome = t.journal.any (Line.moves pid)
  cost : ∀ k, (t.holding k).2 = (holdingOf k t.journal).2
  orders : ∀ oid o x, lookup Order.id oid t.filled = some o → fillLine oid t.journal = some x →
    o.participantId = x.1 ∧ o.symbol = x.2.symbol ∧ o.side = x.2.side

end Contest
