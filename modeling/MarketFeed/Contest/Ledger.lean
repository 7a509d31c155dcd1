import MarketFeed.Contest.Schema
import MarketFeed.Lib.Body
/-!
# The operations of the contest ledger (contest.py:112-164, :179-230, :324-335)

| here | there |
| --- | --- |
| `Op.body` | the code inside `with self._tx() as db`, statement by statement |
| `Label.attempt` | the method: the transaction (`Lib.Body`), then the row read back after it |
| `Label` | one call, with the errors SQLite raises in it |
| `orderReason`, `fillOf` | the rules of `place` |
| `insertOrder`, `updateCash`, `upsertPosition`, `insertLine` | the statements of a fill, with the table's checks |

The clock's readings and the codes drawn by `create_invites` are part of the call.
-/

namespace Contest

open Keyed Txn

variable {H : Type}

inductive Err
  | contest (text : String)
  | overflow
  | constraint
  | noRow
  | sqlite
  deriving DecidableEq

/-- A statement with integer parameters. -/
def checked (params : List ℤ) (act : Tables H → Except Err (Tables H)) (t : Tables H) : Except Err (Tables H) :=
  if params.all bindable then act t else .error .overflow

/-! ## The journal -/

/-- The hash of the last line. -/
def Tables.lastHash (hash : ChainHash H) (t : Tables H) : H := (t.journal.getLast?.map Line.hash).getD hash.genesis

def insertLine (hash : ChainHash H) (prev : H) (ts : ℚ) (pid : ℤ) (detail : Detail) (t : Tables H) : Tables H :=
  let id := nextId t.journalSeq (t.journal.map Line.id)
  { t with
    journal := t.journal ++ [⟨id, ts, pid, detail, prev, hash.chain prev ts pid detail⟩]
    journalSeq := id }

/-- `_journal` -/
def journal (hash : ChainHash H) (ts : ℚ) (pid : ℤ) (detail : Detail) : Body (Tables H) Err Unit :=
  .read fun t =>
    let prev := t.lastHash hash
    .stmt (checked [pid] fun t => .ok (insertLine hash prev ts pid detail t)) fun _ => .ret ()

/-! ## Invitations and participants -/

def createInvites : List (String × ℚ) → Body (Tables H) Err Unit
  | [] => .ret ()
  | (code, ts) :: rest =>
    .stmt (fun t =>
      if (lookup Invite.code code t.invites).isSome then .error .constraint
      else .ok { t with invites := t.invites ++ [⟨code, ts, none, none⟩] }) fun _ => createInvites rest

def insertParticipant (nickname pwHash : String) (now : ℚ) (t : Tables H) : Except Err (Tables H) :=
  let id := nextId t.participantSeq (t.participants.map Participant.id)
  if (lookup Participant.nickname nickname t.participants).isSome then .error .constraint
  else .ok { t with participants := t.participants ++ [⟨id, nickname, pwHash, now⟩], participantSeq := id }

def useInvite (code : String) (pid : ℤ) (now : ℚ) (t : Tables H) : Tables H :=
  { t with invites := t.invites.map fun i => if i.code = code then
    { i with usedBy := some pid, usedTs := some now } else i }

def insertAccount (pid cash : ℤ) (t : Tables H) : Except Err (Tables H) :=
  if (lookup Account.participantId pid t.accounts).isSome then .error .constraint
  else .ok { t with accounts := t.accounts ++ [⟨pid, .int cash⟩] }

def signup (hash : ChainHash H) (cfg : Cfg) (code nickname pwHash : String) (now ts : ℚ) : Body (Tables H) Err ℤ :=
  .read fun t =>
    if ((lookup Invite.code code t.invites).any fun i => i.usedBy.isNone) = false then
      .raise (.contest "초대 코드가 없거나 이미 쓰였습니다")
    else
      .read fun t =>
        if (lookup Participant.nickname nickname t.participants).isSome then .raise (.contest "이미 있는 닉네임입니다")
        else
          .stmt (insertParticipant nickname pwHash now) fun t =>
            let pid := t.participantSeq
            .stmt (fun t => .ok (useInvite code pid now t)) fun _ =>
              .stmt (checked [pid, cfg.initialCash] (insertAccount pid cfg.initialCash)) fun _ =>
                (journal hash ts pid (.deposit cfg.initialCash)).bind fun _ => .ret pid

/-! ## Orders -/

/-- Amount, fee and tax. -/
def Cfg.costs (cfg : Cfg) (side : String) (qty price : ℤ) : ℤ × ℤ × ℤ :=
  let amount := qty * price
  (amount, amount * cfg.feePpm / 1000000, if side = "sell" then amount * cfg.taxPpm / 1000000 else 0)

structure Request where
  pid : ℤ
  clientOrderId : String
  symbol : String
  side : String
  qty : ℤ
  price : ℤ
  deriving DecidableEq

def Request.amount (r : Request) : ℤ := r.qty * r.price
def Request.fee (cfg : Cfg) (r : Request) : ℤ := (cfg.costs r.side r.qty r.price).2.1
def Request.tax (cfg : Cfg) (r : Request) : ℤ := (cfg.costs r.side r.qty r.price).2.2

/-- Why an order is rejected. -/
def orderReason (cfg : Cfg) (r : Request) (cash : Cash) (held : ℤ) : Option Reason :=
  if r.price ≤ 0 then some .noPrice
  else if r.side = "buy" ∧ cash.val < (r.amount + r.fee cfg : ℤ) then some (.lowCash (r.amount + r.fee cfg) cash)
  else if r.side = "sell" ∧ held < r.qty then some (.lowHolding held)
  else none

/-- What a fill does to the cash and to the position: `cash_delta`, `new_qty`, `new_cost`. -/
def fillOf (cfg : Cfg) (r : Request) (held cost : ℤ) : ℤ × ℤ × ℤ :=
  if r.side = "buy" then (-(r.amount + r.fee cfg), held + r.qty, cost + r.amount + r.fee cfg)
  else (r.amount - r.fee cfg - r.tax cfg, held - r.qty, cost - cost * r.qty / held)

def insertOrder (cfg : Cfg) (r : Request) (reason : Option Reason) (ts : ℚ) (t : Tables H) : Except Err (Tables H) :=
  let id := nextId t.orderSeq (t.orders.map Order.id)
  if (r.side = "buy" ∨ r.side = "sell") ∧ 0 < r.qty ∧
      (lookup Order.clientKey (r.pid, r.clientOrderId) t.orders).isNone then
    .ok { t with
      orders := t.orders ++ [⟨id, r.pid, r.clientOrderId, r.symbol, r.side, r.qty, r.price, r.amount,
        r.fee cfg, r.tax cfg,
        if reason.isSome then .rejected else .filled, reason, ts⟩]
      orderSeq := id }
  else .error .constraint

def updateCash (pid delta : ℤ) (t : Tables H) : Tables H :=
  { t with accounts := t.accounts.map fun a => if a.participantId = pid then
    { a with cash := a.cash.add delta } else a }

def upsertPosition (pid : ℤ) (symbol : String) (qty cost : ℤ) (t : Tables H) : Except Err (Tables H) :=
  if 0 ≤ qty then
    .ok { t with positions := upsert Position.key (fun _ r => r) t.positions ⟨pid, symbol, qty, cost⟩ }
  else .error .constraint

inductive Placed
  | recorded (o : Order)
  | created (oid : ℤ)
  deriving DecidableEq

/-- The statements of a fill after the order is inserted. -/
def fillBody (hash : ChainHash H) (cfg : Cfg) (r : Request) (held cost : ℤ) (ts : ℚ) (oid : ℤ) :
    Body (Tables H) Err Placed :=
  let (delta, newQty, newCost) := fillOf cfg r held cost
  .stmt (checked [delta, r.pid] fun t => .ok (updateCash r.pid delta t)) fun _ =>
    .stmt (checked [r.pid, newQty, newCost] (upsertPosition r.pid r.symbol newQty newCost)) fun _ =>
      (journal hash ts r.pid (.fill ⟨oid, r.symbol, r.side, r.qty, r.price, r.amount, r.fee cfg, r.tax cfg,
        delta⟩)).bind
        fun _ => .ret (.created oid)

def place (hash : ChainHash H) (cfg : Cfg) (r : Request) (now ts : ℚ) : Body (Tables H) Err Placed :=
  .stmt (checked [r.pid] .ok) fun t =>
    match lookup Order.clientKey (r.pid, r.clientOrderId) t.orders with
    | some row => .ret (.recorded row)
    | none =>
      .stmt (checked [r.pid] .ok) fun t =>
        match lookup Account.participantId r.pid t.accounts with
        | none => .raise .noRow
        | some account =>
          .stmt (checked [r.pid] .ok) fun t =>
            let pos := lookup Position.key (r.pid, r.symbol) t.positions
            let held := pos.elim 0 Position.qty
            let cost := pos.elim 0 Position.cost
            let reason := orderReason cfg r account.cash held
            .stmt (checked [r.pid, r.qty, r.price, r.amount, r.fee cfg, r.tax cfg] (insertOrder cfg r reason now))
              fun t =>
              if reason.isSome then .ret (.created t.orderSeq) else fillBody hash cfg r held cost ts t.orderSeq

/-! ## The methods -/

inductive Op
  | createInvites (codes : List (String × ℚ))
  | signup (code nickname pwHash : String) (now ts : ℚ)
  | place (r : Request) (now ts : ℚ)
  | halt (reason : String)
  | resume

inductive Answer
  | done
  | participant (pid : ℤ)
  | placed (p : Placed)
  deriving DecidableEq

def Op.body (hash : ChainHash H) (cfg : Cfg) : Op → Body (Tables H) Err Answer
  | .createInvites codes => (Contest.createInvites codes).bind fun _ => .ret .done
  | .signup code nickname pwHash now ts => (Contest.signup hash cfg code nickname pwHash now ts).bind fun pid =>
    .ret (.participant pid)
  | .place r now ts => (Contest.place hash cfg r now ts).bind fun p => .ret (.placed p)
  | .halt reason => .stmt (fun t => .ok { t with halted := some reason }) fun _ => .ret .done
  | .resume => .stmt (fun t => .ok { t with halted := none }) fun _ => .ret .done

/-- The methods that read a row back after their transaction. -/
def Answer.readsBack : Answer → Bool
  | .participant _ | .placed (.created _) => true
  | .done | .placed (.recorded _) => false

structure Label where
  op : Op
  faults : Faults Err
  /-- The error of the row read back. -/
  after : Option Err

/-- A call that meets no error of SQLite. -/
def quiet (op : Op) : Label := ⟨op, .none, none⟩

/-- `none`: the call waits for the lock for ever. -/
def Label.attempt (hash : ChainHash H) (cfg : Cfg) (s : Guarded (Tables H)) (l : Label) :
    Option (Except Err Answer × Guarded (Tables H)) :=
  match Txn.attempt .sqlite l.faults (l.op.body hash cfg) s with
  | some (.ok a, s') =>
    match a.readsBack, l.after with
    | true, some e => some (.error e, s')
    | _, _ => some (.ok a, s')
  | r => r

def step (hash : ChainHash H) (cfg : Cfg) (s : Guarded (Tables H)) (l : Label) : Option (Guarded (Tables H)) :=
  (l.attempt hash cfg s).map Prod.snd

end Contest
