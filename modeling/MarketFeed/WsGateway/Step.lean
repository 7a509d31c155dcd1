import MarketFeed.Writer.Messages
import MarketFeed.Lib.Replica
import MarketFeed.Lib.Run
/-!
# The WebSocket gateway (services/ws_gateway.py:46-99, :121-308; docs/index.html:611-702)

One event loop: a frame of the bus, a turn of the coalesce loop over all clients, a command, a connect and a
turn of a send loop each run without interruption, in any order. A client is to have, of every key its
filter wants, the entry of `snapshot`; what it has is what its messages make of an empty table.

| here | there |
| --- | --- |
| `Entry` | a value of `snapshot`: a dict whose `venue` and `symbol` make its key, and that lacks the fields no frame has set |
| `round` | `round(x, ndigits)` |
| `Event` | a frame in `_ingest`, with the latency `clock.observe` returns; `other` is of another type, or too short |
| `Msg` | a JSON text, less its `ts`; `dropped` is there with the `reason` of a resync |
| `Command` | a text after `json.loads` and its two `get`s: ignored, one that raises and ends the connection, or one of the two |
| `symbols` | `none` for no filter; else the strings of a set that is not empty |
| `Conn.written` | what `writer.write` was called with, oldest first |
| `Conn.view` | `rows` of the dashboard once all that was written and all that waits has arrived |
| `keys` of a turn | `list(self._dirty)`, in the order of a set |
-/

namespace WsGateway

open Keyed Writer

variable {F : Type}

structure Entry (F : Type) where
  venue : String
  symbol : String
  last : Option F
  qty : Option F
  side : Option UInt8
  tsNs : Option UInt64
  latencyUs : Option F
  trades : Option ℕ
  volume : Option F
  tickDir : Option Int
  bid : Option F
  ask : Option F
  mid : Option F
  spreadBp : Option F
  deriving DecidableEq

/-- `f"{venue}:{symbol}"`. -/
def keyOf (venue symbol : String) : String := venue ++ ":" ++ symbol

def Entry.key (e : Entry F) : String := keyOf e.venue e.symbol

/-- `{"venue": venue, "symbol": symbol}`. -/
def Entry.new (venue symbol : String) : Entry F :=
  ⟨venue, symbol, none, none, none, none, none, none, none, none, none, none, none, none⟩

inductive Event (F : Type)
  | trade (t : Trade F) (observed : F)
  | book (b : BookTop F)
  | signal (s : Signal F)
  | heartbeat (seq : UInt64)
  | other

inductive Msg (F : Type)
  | snapshot (items : List (Entry F)) (dropped : Option ℕ)
  | tick (items : List (Entry F))
  | trade (t : Trade F)
  | signal (s : Signal F)
  | heartbeat (seq : UInt64)
  deriving DecidableEq

inductive Mode | coalesced | raw
  deriving DecidableEq

inductive Command
  | ignored
  | broken
  | subscribe (symbols : Option (List String))
  | mode (m : Mode)
  deriving DecidableEq

/-- `onmessage` of the dashboard. -/
def Msg.change : Msg F → Replica.Change (Entry F)
  | .snapshot items _ => .replace items
  | .tick items => .patch items
  | .trade _ | .signal _ | .heartbeat _ => .keep

structure Conn (F : Type) where
  queue : List (Msg F)
  mode : Mode
  symbols : Option (List String)
  dropped : ℕ
  needsResync : Bool
  written : List (Msg F)
  deriving DecidableEq

structure Gateway (F : Type) where
  snapshot : List (Entry F)
  dirty : List String
  clients : List (ℕ × Conn F)
  deriving DecidableEq

def start : Gateway F := ⟨[], [], []⟩

def Gateway.entry (g : Gateway F) (key : String) : Option (Entry F) := lookup Entry.key key g.snapshot

def Gateway.client (g : Gateway F) (id : ℕ) : Option (Conn F) := (lookup Prod.fst id g.clients).map Prod.snd

/-- `self._dirty.add(key)`. -/
def Gateway.markDirty (g : Gateway F) (key : String) : Gateway F :=
  { g with dirty := if key ∈ g.dirty then g.dirty else g.dirty ++ [key] }

/-! ## One client -/

/-- `not symbols or key in symbols`. -/
def wants (symbols : Option (List String)) (key : String) : Bool :=
  match symbols with
  | none => true
  | some syms => decide (key ∈ syms)

namespace Conn

def wants (c : Conn F) (key : String) : Bool := WsGateway.wants c.symbols key

def view (c : Conn F) : String → Option (Entry F) := Replica.view Entry.key ((c.written ++ c.queue).map Msg.change)

/-- `queue.full()`: a size of zero or less is none. -/
def full (size : ℤ) (c : Conn F) : Bool := decide (0 < size) && decide (size ≤ c.queue.length)

/-- `_enqueue`. -/
def enqueue (size : ℤ) (m : Msg F) (c : Conn F) : Conn F :=
  let c := if c.full size then { c with queue := c.queue.tail, dropped := c.dropped + 1, needsResync := true } else c
  { c with queue := c.queue ++ [m] }

/-- The branch of `_coalesce_loop` for a client that dropped something. -/
def resync (size : ℤ) (snapshot : List (Entry F)) (c : Conn F) : Conn F :=
  let items := snapshot.filter fun e => c.wants e.key
  if items.isEmpty then { c with needsResync := false }
  else { enqueue size (.snapshot items (some c.dropped)) { c with queue := [] } with needsResync := false }

/-- `_on_command`; `none` where it raises. -/
def onCommand (c : Conn F) : Command → Option (Conn F)
  | .ignored => some c
  | .broken => none
  | .subscribe symbols => some { c with symbols := symbols }
  | .mode m => some { c with mode := m }

end Conn

/-! ## Frames of the bus -/

section

variable [CommRing F] [Div F] [LinearOrder F] (round : ℕ → F → F)

/-- The trade branch of `_ingest` on one entry. -/
def Entry.trade (e : Entry F) (t : Trade F) (observed : F) : Entry F :=
  { e with
    last := some t.price
    qty := some t.qty
    side := some t.side
    tsNs := some t.tsEventNs
    latencyUs := some (round 1 observed)
    trades := some (e.trades.getD 0 + 1)
    volume := some (round 8 (e.volume.getD 0 + t.qty))
    tickDir :=
      match e.last with
      | some prev => if prev = 0 then e.tickDir
          else some (if prev < t.price then 1 else if t.price < prev then -1 else 0)
      | none => e.tickDir }

/-- The book branch on one entry. -/
def Entry.book (e : Entry F) (b : BookTop F) : Entry F :=
  { e with bid := some b.bid, ask := some b.ask, mid := some b.mid, spreadBp := some (round 3 b.spreadBp) }

end

namespace Gateway

/-- The entry of a key after `setdefault` and `update`. -/
def setEntry (g : Gateway F) (venue symbol : String) (update : Entry F → Entry F) : Gateway F :=
  { g with snapshot := upsert Entry.key (fun _ r => r) g.snapshot (update ((g.entry (keyOf venue symbol)).getD (.new venue symbol))) }

/-- `_push_raw`; `raw` is set for a trade. -/
def pushRaw (size : ℤ) (m : Msg F) (raw : Bool) (key : Option String) (g : Gateway F) : Gateway F :=
  { g with clients := g.clients.map fun p =>
      if raw && decide (p.2.mode ≠ .raw) then p
      else if key.all p.2.wants then (p.1, p.2.enqueue size m)
      else p }

def ingest [CommRing F] [Div F] [LinearOrder F] (round : ℕ → F → F) (size : ℤ) (g : Gateway F) : Event F → Gateway F
  | .trade t observed =>
    let g := (g.setEntry t.venue t.symbol fun e => e.trade round t observed).markDirty (keyOf t.venue t.symbol)
    if g.clients.any fun p => decide (p.2.mode = .raw) then
      g.pushRaw size (.trade t) true (some (keyOf t.venue t.symbol)) else g
  | .book b => (g.setEntry b.venue b.symbol fun e => e.book round b).markDirty (keyOf b.venue b.symbol)
  | .signal s => g.pushRaw size (.signal s) false (some (keyOf s.venue s.symbol))
  | .heartbeat seq => g.pushRaw size (.heartbeat seq) false none
  | .other => g

end Gateway

/-! ## The coalesce loop -/

/-- `[self.snapshot[k] for k in keys if k in self.snapshot and p(k)]`. -/
def tickItems (snapshot : List (Entry F)) (keys : List String) (p : String → Bool) : List (Entry F) :=
  (keys.filter p).filterMap fun k => lookup Entry.key k snapshot

/-- The loop over the clients; the tick of the clients without a filter is the same for all of them. -/
def coalesceLoop (size : ℤ) (snapshot : List (Entry F)) (keys : List String) : List (ℕ × Conn F) → List (ℕ × Conn F)
  | [] => []
  | (id, c) :: rest =>
    if c.mode = .raw then (id, c) :: coalesceLoop size snapshot keys rest
    else if c.needsResync then (id, c.resync size snapshot) :: coalesceLoop size snapshot keys rest
    else
      match c.symbols with
      | some syms =>
        let items := tickItems snapshot keys fun k => decide (k ∈ syms)
        if items.isEmpty then (id, c) :: coalesceLoop size snapshot keys rest
        else (id, c.enqueue size (.tick items)) :: coalesceLoop size snapshot keys rest
      | none =>
        let items := tickItems snapshot keys fun _ => true
        -- `break`
        if items.isEmpty then (id, c) :: rest
        else (id, c.enqueue size (.tick items)) :: coalesceLoop size snapshot keys rest

namespace Gateway

/-- One turn of `_coalesce_loop`. -/
def coalesce (size : ℤ) (keys : List String) (g : Gateway F) : Gateway F :=
  if g.dirty.isEmpty || g.clients.isEmpty then { g with dirty := [] }
  else { g with dirty := [], clients := coalesceLoop size g.snapshot keys g.clients }

/-- `_ws_handler`, up to its send loop. -/
def connect (size : ℤ) (id : ℕ) (mode : Mode) (symbols : Option (List String)) (g : Gateway F) : Gateway F :=
  let c : Conn F := ⟨[], mode, symbols, 0, false, []⟩
  { g with clients := g.clients ++ [(id, c.enqueue size (.snapshot g.snapshot none))] }

def setClient (id : ℕ) (c : Conn F) (g : Gateway F) : Gateway F :=
  { g with clients := upsert Prod.fst (fun _ r => r) g.clients (id, c) }

/-- `self.clients.pop(cid, None)`. -/
def popClient (id : ℕ) (g : Gateway F) : Gateway F := { g with clients := erase Prod.fst id g.clients }

end Gateway

/-! ## Steps -/

inductive Act (F : Type)
  | ingest (e : Event F)
  | coalesce (keys : List String)
  | connect (id : ℕ) (mode : Mode) (symbols : Option (List String))
  | command (id : ℕ) (cmd : Command)
  | send (id : ℕ)
  | close (id : ℕ)

/-- `_ws_send`: one message from the queue to the socket. -/
def Conn.send (c : Conn F) : Option (Conn F) :=
  match c.queue with
  | [] => none
  | m :: queue => some { c with queue := queue, written := c.written ++ [m] }

def step [CommRing F] [Div F] [LinearOrder F] (round : ℕ → F → F) (size : ℤ) (g : Gateway F) : Act F →
    Option (Gateway F)
  | .ingest e => some (g.ingest round size e)
  | .coalesce keys => if keys.isPerm g.dirty then some (g.coalesce size keys) else none
  | .connect id mode symbols => if (g.client id).isSome then none else some (g.connect size id mode symbols)
  | .command id cmd => (g.client id).map fun c => (c.onCommand cmd).elim (g.popClient id) fun c' => g.setClient id c'
  | .send id => (g.client id).bind fun c => c.send.map fun c' => g.setClient id c'
  | .close id => (g.client id).map fun _ => g.popClient id

end WsGateway
