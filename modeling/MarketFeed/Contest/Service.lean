import MarketFeed.Contest.Integrity
import MarketFeed.Contest.Ledger
/-!
# The contest service as a transition system (services/contest.py:95-127, :248-272, :310-334)

One process on one event loop: between two `await`s a handler runs alone. `submit` checks the trading state,
awaits the quote unless it is cached, and places the order; so a submission is a step, or two with anything
between them.

| here | there |
| --- | --- |
| `Service.quotes` | `_quotes`, the cached prices with the monotonic clock's reading |
| `Service.waiting` | the submissions suspended in `await self.price(sym)` |
| `Event.quoted`, `Event.unquoted` | the quote arrives, or `Rejected` / `Uncertain` is raised |
| `Event.priced` | another caller's quote (`quote`, `valuate_once`) |
| `Event.halt` | `ledger.halt`, by the administrator |
| `Event.tampered` | someone writes into the database file |

An exception that a handler lets through is answered with 500 by the server.
-/

namespace Contest

open Keyed Txn

structure ServiceCfg where
  ledger : Cfg
  maxQty : ℤ
  start : String
  stop : String
  offHours : Bool
  /-- What `\d` of a pattern matches. -/
  digit : Char → Bool

/-- `_now()`, the ledger's clock read for the order and for the journal, and the monotonic clock. -/
structure Moment where
  day : String
  weekday : ℕ
  /-- Seconds since midnight. -/
  time : ℚ
  clock : ℚ × ℚ
  mono : ℚ

def QUOTE_TTL_S : ℚ := 1

/-- The fields of a request's body, converted. -/
structure Submission where
  clientOrderId : String
  symbol : String
  side : String
  qty : ℤ
  deriving DecidableEq

/-- `$` also matches before a newline at the end. -/
def patternText (s : String) : List Char :=
  match s.toList.reverse with
  | '\n' :: cs => cs.reverse
  | _ => s.toList

/-- `CLIENT_ID_RE`, `SYMBOL_RE` -/
def clientIdOk (s : String) : Bool :=
  let cs := patternText s
  decide (8 ≤ cs.length ∧ cs.length ≤ 64) && cs.all fun c => c.isAlphanum || c == '_' || c == '-'

def symbolOk (digit : Char → Bool) (s : String) : Bool :=
  let cs := patternText s
  decide (cs.length = 6) && cs.all digit

inductive Reply
  | ok
  | error (status : ℕ) (text : String)
  | duplicate (row : Order)
  | order (status : ℕ) (row : Option Order)

/-- A request that is refused before the trading state is looked at. -/
def formatError (cfg : ServiceCfg) : Option Submission → Option Reply
  | none => some (.error 400 "client_order_id·symbol·side·qty 가 필요합니다")
  | some b =>
    if (clientIdOk b.clientOrderId && symbolOk cfg.digit b.symbol && (b.side = "buy" || b.side = "sell")) = false then
      some (.error 400 "형식이 틀렸습니다")
    else if ¬(1 ≤ b.qty ∧ b.qty ≤ cfg.maxQty) then some (.error 400 ("수량은 1~" ++ toString cfg.maxQty))
    else none

def marketIsOpen (now : Moment) : Bool :=
  decide (now.weekday < 5 ∧ 9 * 3600 ≤ now.time ∧ now.time ≤ 15 * 3600 + 40 * 60)

variable {H : Type}

/-- `ledger.halted()`, as a condition: an empty reason does not halt. -/
def Tables.isHalted (t : Tables H) : Bool := t.halted.any fun reason => reason != ""

def tradingState (cfg : ServiceCfg) (t : Tables H) (now : Moment) : Bool × String :=
  if t.isHalted then (false, "장부 점검으로 주문이 멈춰 있습니다 (" ++ t.halted.getD "" ++ ")")
  else if cfg.start ≠ "" ∧ now.day < cfg.start then (false, "대회는 " ++ cfg.start ++ " 에 시작합니다")
  else if cfg.stop ≠ "" ∧ cfg.stop < now.day then (false, "대회가 끝났습니다")
  else if cfg.offHours = false ∧ marketIsOpen now = false then (false, "정규장(평일 09:00~15:30)에만 주문할 수 있습니다")
  else (true, if cfg.offHours then "장외 시험 모드" else "주문 가능")

structure Service (H : Type) where
  tables : Tables H
  waiting : List (ℤ × Submission)
  quotes : List (String × ℚ × ℤ)
  breaks : List Break

/-- The service as it starts. -/
def Service.start (t : Tables H) : Service H := ⟨t, [], [], []⟩

inductive Event (H : Type)
  | submit (pid : ℤ) (body : Option Submission) (now : Moment)
  | quoted (i : ℕ) (price : ℤ) (now : Moment)
  | unquoted (i : ℕ) (text : String)
  | priced (symbol : String) (price : ℤ) (mono : ℚ)
  | integrityOnce
  | halt (reason : String)
  | resume
  | signup (code nickname pwHash : String) (now ts : ℚ)
  | createInvites (codes : List (String × ℚ))
  | restart
  | tampered (edit : Tables H → Tables H)

def Break.kind : Break → String
  | .journalChainBroken _ => "journal_chain_broken"
  | .cashMismatch .. => "cash_mismatch"
  | .positionMismatch .. => "position_mismatch"
  | .orderJournalMismatch _ => "order_journal_mismatch"

/-- The cached price of a symbol. -/
def Service.cached (s : Service H) (symbol : String) (mono : ℚ) : Option ℤ :=
  match lookup Prod.fst symbol s.quotes with
  | some (_, at_, price) => if mono - at_ < QUOTE_TTL_S then some price else none
  | none => none

def Service.cache (s : Service H) (symbol : String) (price : ℤ) (mono : ℚ) : Service H :=
  { s with quotes := upsert Prod.fst (fun _ r => r) s.quotes (symbol, mono, price) }

section

variable (hash : ChainHash H) (cfg : ServiceCfg)

/-- A call of the ledger by a handler. -/
def Service.call (s : Service H) (op : Op) : Service H :=
  { s with tables := (transact (op.body hash cfg.ledger) s.tables).2 }

/-- The end of `submit`, from `ledger.place` on. -/
def Service.fill (s : Service H) (pid : ℤ) (b : Submission) (price : ℤ) (now : Moment) : Service H × Reply :=
  let r : Request := ⟨pid, b.clientOrderId, b.symbol, b.side, b.qty, price⟩
  match transact (place hash cfg.ledger r now.clock.1 now.clock.2) s.tables with
  | (.ok (.recorded row), t) => ({ s with tables := t }, .duplicate row)
  | (.ok (.created oid), t) =>
    let row := lookup Order.id oid t.orders
    ({ s with tables := t }, .order (if row.any Order.isFilled then 201 else 422) row)
  | (.error _, t) => ({ s with tables := t }, .error 500 "")

def Service.submit (s : Service H) (pid : ℤ) (body : Option Submission) (now : Moment) : Service H × Option Reply :=
  match formatError cfg body, body with
  | some e, _ => (s, some e)
  | none, none => (s, none)
  | none, some b =>
    let (isOpen, why) := tradingState cfg s.tables now
    if isOpen = false then (s, some (.error (if s.tables.isHalted then 423 else 409) why))
    else
      match s.cached b.symbol now.mono with
      | some price =>
        let x := s.fill hash cfg pid b price now
        (x.1, some x.2)
      | none => ({ s with waiting := s.waiting ++ [(pid, b)] }, none)

def Service.integrityOnce [DecidableEq H] (s : Service H) : Service H :=
  let breaks := integrity hash s.tables
  let s := { s with breaks }
  match breaks.head? with
  | some b => if s.tables.isHalted then s else s.call hash cfg (.halt b.kind)
  | none => s

def Service.adminResume [DecidableEq H] (s : Service H) : Service H × Reply :=
  match integrity hash s.tables with
  | [] => ({ s.call hash cfg .resume with breaks := [] }, .ok)
  | _ => (s, .error 409 "장부가 아직 어긋나 있습니다")

/-- One segment of a handler; `none` where no such submission waits. -/
def Service.act [DecidableEq H] (s : Service H) : Event H → Option (Service H × Option Reply)
  | .submit pid body now => some (s.submit hash cfg pid body now)
  | .quoted i price now =>
    s.waiting[i]?.map fun (pid, b) =>
      let s := { s with waiting := s.waiting.eraseIdx i }
      let x := (s.cache b.symbol price now.mono).fill hash cfg pid b price now
      (x.1, some x.2)
  | .unquoted i text =>
    s.waiting[i]?.map fun _ =>
      ({ s with waiting := s.waiting.eraseIdx i }, some (.error 503 ("현재가를 못 가져와 체결하지 않았습니다: " ++ text)))
  | .priced symbol price mono => some (s.cache symbol price mono, none)
  | .integrityOnce => some (s.integrityOnce hash cfg, none)
  | .halt reason => some (s.call hash cfg (.halt reason), none)
  | .resume => some ((s.adminResume hash cfg).1, some (s.adminResume hash cfg).2)
  | .signup code nickname pwHash now ts => some (s.call hash cfg (.signup code nickname pwHash now ts), none)
  | .createInvites codes => some (s.call hash cfg (.createInvites codes), none)
  | .restart => some (.start s.tables, none)
  | .tampered edit => some ({ s with tables := { edit s.tables with halted := s.tables.halted } }, none)

def Service.step [DecidableEq H] (s : Service H) (e : Event H) : Option (Service H) := (s.act hash cfg e).map Prod.fst

end

end Contest
