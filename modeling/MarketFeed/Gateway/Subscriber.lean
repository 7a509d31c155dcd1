import Mathlib.Algebra.Order.Group.Int
import MarketFeed.Gateway.Entitlements
import MarketFeed.Lib.Run
/-!
# The Python TCP gateway (services/tcp_gateway.py:89-136, :192-361, :436-443)

One event loop: a publish, a request and a turn of a send loop each run without interruption, in any order.
A turn of a send loop takes an item off the queue and hands a frame to the socket; what `drain` waits for
is the time until the next one.

| here | there |
| --- | --- |
| `Frame` | a frame of the bus; `venueSymbol` is what `unpack` reads of a payload long enough |
| `Item` | an entry of `queue`: the bytes of a numbered frame, or a key of `pending` |
| `Sub.written` | what `writer.write` was called with, oldest first |
| `Request` | a payload after `json.loads`: no JSON, a request, or one that raises and ends the connection |
| `Sub.cut` | dropped too much: no longer in `subs`, its connection closing |
| `Sub.lost`, `Sub.discarded` | not in the source: numbered frames lost to overflow, and to a change of mode |
| `Sub.latest` | not in the source: the last frame queued of each key since the mode was set |
-/

namespace Gateway

def DROP_LIMIT : ℕ := 5000

def MSG_TRADE : ℕ := 2

def MSG_BOOK : ℕ := 3

structure Frame (P : Type) where
  msgType : ℕ
  payload : P
  flags : ℕ
  venueSymbol : Option (String × String)
  deriving DecidableEq

variable {P : Type}

/-- `_key_of`. -/
def keyOf (f : Frame P) : Option String :=
  if f.msgType = MSG_TRADE ∨ f.msgType = MSG_BOOK then f.venueSymbol.map fun vs => vs.1 ++ ":" ++ vs.2 else none

inductive Mode | stream | conflate
  deriving DecidableEq

inductive Item (P : Type)
  | raw (seq : ℕ) (f : Frame P)
  | key (k : String)
  deriving DecidableEq

inductive Written (P : Type)
  | frame (seq : ℕ) (f : Frame P)
  | snapshot (msgType : ℕ) (payload : P)
  | snapshotEnd (count nextSeq : ℕ)
  | ack (a : Answer Sym)
  deriving DecidableEq

structure Sub (P : Type) where
  symbols : Option (List String)
  queue : List (Item P)
  pending : List (String × Frame P)
  mode : Mode
  outSeq : ℕ
  dropped : ℕ
  conflated : ℕ
  token : String
  written : List (Written P)
  cut : Bool
  lost : ℕ
  discarded : ℕ
  latest : List (String × Frame P)
  deriving DecidableEq

inductive Request
  | ignored
  | broken
  | request (token : String) (symbols : Option (List Sym)) (mode : Option Mode)
  deriving DecidableEq

def Item.isRaw : Item P → Bool
  | .raw _ _ => true
  | .key _ => false

/-- The numbered frames of a queue. -/
def rawCount (queue : List (Item P)) : ℕ := queue.countP Item.isRaw

section

variable {V : Type}

/-- What is pending of a key. -/
def pendingOf (k : String) (pending : List (String × V)) : Option V := (Keyed.lookup Prod.fst k pending).map Prod.snd

/-- `pending[key] = …`. -/
def setPending (k : String) (v : V) (pending : List (String × V)) : List (String × V) :=
  Keyed.upsert Prod.fst (fun _ r => r) pending (k, v)

theorem pendingOf_set (k k' : String) (v : V) (pending : List (String × V)) :
    pendingOf k (setPending k' v pending) = if k' = k then some v else pendingOf k pending := by
  unfold pendingOf setPending
  rw [Keyed.lookup_replace]
  by_cases hk : k' = k <;> simp [hk]

theorem pendingOf_erase (k k' : String) (pending : List (String × V)) :
    pendingOf k (Keyed.erase Prod.fst k' pending) = if k = k' then none else pendingOf k pending := by
  unfold pendingOf
  rw [Keyed.lookup_erase]
  by_cases hk : k = k' <;> simp [hk]

theorem pendingOf_isSome (k : String) (pending : List (String × V)) :
    (pendingOf k pending).isSome = (Keyed.lookup Prod.fst k pending).isSome := Option.isSome_map ..

end

/-! ## One subscriber -/

namespace Sub

/-- `queue.full()`: a size of zero or less is none. -/
def full (size : ℤ) (s : Sub P) : Bool := decide (0 < size) && decide (size ≤ s.queue.length)

/-- `_drop_overflowed`. -/
def dropOverflowed (s : Sub P) : Sub P :=
  { s with
    queue := s.queue.tail
    dropped := s.dropped + 1
    cut := decide (DROP_LIMIT < s.dropped + 1)
    lost := s.lost + rawCount (s.queue.take 1) }

def room (size : ℤ) (s : Sub P) : Sub P := if s.full size then s.dropOverflowed else s

/-- Numbered at once: the stream, and frames without a key. -/
def offerRaw (size : ℤ) (f : Frame P) (s : Sub P) : Sub P :=
  let r := room size { s with outSeq := s.outSeq + 1 }
  if r.cut then { r with lost := r.lost + 1 }
  else { r with queue := r.queue ++ [.raw s.outSeq f] }

/-- Numbered when sent: a frame with a key while conflating. -/
def offerKey (size : ℤ) (k : String) (f : Frame P) (s : Sub P) : Sub P :=
  if (pendingOf k s.pending).isSome then
    { s with
      pending := setPending k f s.pending
      conflated := s.conflated + 1
      latest := setPending k f s.latest }
  else
    let r := s.room size
    if r.cut then r
    else { r with
      pending := setPending k f r.pending
      queue := r.queue ++ [.key k]
      latest := setPending k f r.latest }

/-- The body of the loop of `_fanout`. -/
def offer (size : ℤ) (f : Frame P) (s : Sub P) : Sub P :=
  if s.cut then s
  else match keyOf f with
    | none => s.offerRaw size f
    | some k =>
      if !wants s.symbols k then s
      else match s.mode with
        | .conflate => s.offerKey size k f
        | .stream => s.offerRaw size f

/-- A turn of `_send_loop`. -/
def sendOne (s : Sub P) : Option (Sub P) :=
  match s.queue with
  | [] => none
  | .raw seq f :: queue => some { s with queue := queue, written := s.written ++ [.frame seq f] }
  | .key k :: queue =>
    match pendingOf k s.pending with
    | none => some { s with queue := queue }
    | some f =>
      some { s with
        queue := queue
        pending := Keyed.erase Prod.fst k s.pending
        outSeq := s.outSeq + 1
        written := s.written ++ [.frame s.outSeq f] }

/-- A change of mode empties the queue. -/
def changeMode (mode : Option Mode) (s : Sub P) : Sub P :=
  match mode with
  | none => s
  | some m =>
    if m = s.mode then s
    else { s with
      queue := []
      pending := []
      mode := m
      discarded := s.discarded + rawCount s.queue
      latest := [] }

/-- The filter of the answer, and an ACK where something was denied. -/
def answered (token : String) (a : Answer Sym) (s : Sub P) : Sub P :=
  { s with
    token := token
    symbols := a.filter
    written := if a.why ≠ "" then s.written ++ [.ack a] else s.written }

/-- `_apply_subscribe`. -/
def subscribe (ent : Entitlements) (r : Request) (s : Sub P) : Option (Sub P) :=
  match r with
  | .ignored => some s
  | .broken => none
  | .request token symbols mode => (ent.resolve token symbols).map fun a => changeMode mode (s.answered token a)

/-- `_handle_client` up to the end of the snapshot. -/
def connected (ent : Entitlements) (last : List (String × Frame P)) : Sub P :=
  let symbols : Option (List String) := if ent.enabled then some [] else none
  let sent := last.filter fun r => wants symbols r.1
  { symbols := symbols
    queue := []
    pending := []
    mode := .stream
    outSeq := 0
    dropped := 0
    conflated := 0
    token := ""
    written := sent.map (fun r => .snapshot r.2.msgType r.2.payload) ++ [.snapshotEnd sent.length 0]
    cut := false
    lost := 0
    discarded := 0
    latest := [] }

theorem changeMode_symbols (mode : Option Mode) (s : Sub P) :
    (s.changeMode mode).symbols = s.symbols ∧ (s.changeMode mode).token = s.token ∧
      (s.changeMode mode).written = s.written := by
  unfold changeMode
  split
  · exact ⟨rfl, rfl, rfl⟩
  · split <;> exact ⟨rfl, rfl, rfl⟩

theorem changeMode_mode (mode : Option Mode) (s : Sub P) : (s.changeMode mode).mode = mode.getD s.mode := by
  unfold changeMode
  split
  · rfl
  · split
    · rename_i h
      exact h.symm
    · rfl

/-- What answering and a change of mode keep, a request keeps. -/
theorem subscribe_keeps {I : Sub P → Prop} {ent : Entitlements} {r : Request} (hanswer : ∀ s token a, I s →
    I (s.answered token a))
    (hmode : ∀ s mode, I s → I (s.changeMode mode)) {s s' : Sub P} (hi : I s) (hs : s.subscribe ent r = some s') :
    I s' := by
  cases r with
  | ignored =>
    cases hs
    exact hi
  | broken => cases hs
  | request token symbols mode =>
    obtain ⟨a, -, rfl⟩ := Option.map_eq_some_iff.1 hs
    exact hmode _ _ (hanswer s token a hi)

end Sub

/-- A frame without a key, for runs on given inputs. -/
def heartbeat : Frame ℕ := ⟨1, 0, 0, none⟩

/-- A frame with one. -/
def trade (symbol : String) (payload : ℕ) : Frame ℕ := ⟨MSG_TRADE, payload, 0, some ("UPBIT", symbol)⟩

/-! ## The gateway -/

structure State (P : Type) where
  last : List (String × Frame P)
  nextId : ℕ
  subs : ℕ → Option (Sub P)

def State.start : State P := ⟨[], 0, fun _ => none⟩

inductive Label (P : Type)
  | publish (f : Frame P)
  | connect
  | subscribe (id : ℕ) (r : Request)
  | send (id : ℕ)
  | hangup (id : ℕ)
  deriving DecidableEq

variable (ent : Entitlements) (size : ℤ)

def step (g : State P) : Label P → Option (State P)
  | .publish f =>
    let last := match keyOf f with
      | some k => setPending k f g.last
      | none => g.last
    some { g with last := last, subs := fun id => (g.subs id).map (Sub.offer size f) }
  | .connect =>
    some { g with nextId := g.nextId + 1, subs := Function.update g.subs g.nextId (some (Sub.connected ent g.last)) }
  | .subscribe id r =>
    match g.subs id with
    | none => none
    | some s => some { g with subs := Function.update g.subs id (s.subscribe ent r) }
  | .send id =>
    match g.subs id with
    | none => none
    | some s => s.sendOne.map fun s' => { g with subs := Function.update g.subs id (some s') }
  | .hangup id => some { g with subs := Function.update g.subs id none }

/-- What a label does to the subscriber `id`. -/
inductive Move (id : ℕ) (g : State P) (l : Label P) (s' : Sub P) : Prop
  | stays (h : g.subs id = some s') (hl : ∀ r, l ≠ .subscribe id r)
  | connected (h : s' = Sub.connected ent g.last) (hid : id = g.nextId) (hl : l = .connect)
  | offered (s : Sub P) (f : Frame P) (hs : g.subs id = some s) (hl : l = .publish f) (h : s' = s.offer size f)
  | subscribed (s : Sub P) (r : Request) (hs : g.subs id = some s) (hl : l = .subscribe id r)
      (h : s.subscribe ent r = some s')
  | sent (s : Sub P) (hs : g.subs id = some s) (hl : l = .send id) (h : s.sendOne = some s')

variable {ent size}

theorem step_move {g g' : State P} {l : Label P} {id : ℕ} {s' : Sub P} (h : step ent size g l = some g')
    (hs' : g'.subs id = some s') :
    Move ent size id g l s' := by
  cases l with
  | publish f =>
    cases h
    obtain ⟨s, hs, hoff⟩ := Option.map_eq_some_iff.1 hs'
    exact .offered s f hs rfl hoff.symm
  | connect =>
    cases h
    simp only [Function.update_apply] at hs'
    split at hs'
    · exact .connected (Option.some.inj hs').symm ‹_› rfl
    · exact .stays hs' fun r hr => by cases hr
  | subscribe id' r =>
    simp only [step] at h
    split at h
    · cases h
    · rename_i s hs
      cases h
      simp only [Function.update_apply] at hs'
      split at hs'
      · rename_i hid
        subst hid
        exact .subscribed s r hs rfl hs'
      · rename_i hid
        exact .stays hs' fun r' hr => by cases hr; exact hid rfl
  | send id' =>
    simp only [step] at h
    split at h
    · cases h
    · rename_i s hs
      obtain ⟨s'', hsend, rfl⟩ := Option.map_eq_some_iff.1 h
      simp only [Function.update_apply] at hs'
      split at hs'
      · rename_i hid
        subst hid
        exact .sent s hs rfl (Option.some.inj hs' ▸ hsend)
      · exact .stays hs' fun r hr => by cases hr
  | hangup id' =>
    cases h
    simp only [Function.update_apply] at hs'
    split at hs'
    · cases hs'
    · exact .stays hs' fun r hr => by cases hr

/-- What every subscriber has when it connects, and keeps in its permitted moves, it has in every run. -/
theorem run_subs {I : Sub P → Prop} {ok : State P → Label P → Prop} {id : ℕ}
    (hconnected : ∀ last, I (Sub.connected ent last))
    (hoffer : ∀ g s f, ok g (.publish f) → g.subs id = some s → I s → I (s.offer size f))
    (hsubscribe : ∀ g s r s', ok g (.subscribe id r) → I s → s.subscribe ent r = some s' → I s')
    (hsend : ∀ s s', I s → s.sendOne = some s' → I s')
    {labels : List (Label P)} {g : State P} (h : Lts.Run (step ent size) ok .start labels g)
    {s : Sub P} (hs : g.subs id = some s) : I s := by
  have hall : ∀ s, g.subs id = some s → I s := by
    refine h.invariant (I := fun g => ∀ s, g.subs id = some s → I s) (fun s hs => (by cases hs)) ?_
    intro g l g' hi hok hst s' hs'
    cases step_move hst hs' with
    | stays h _ => exact hi s' h
    | connected h _ _ => exact h ▸ hconnected g.last
    | offered s f hs hl h => exact h ▸ hoffer g s f (hl ▸ hok) hs (hi s hs)
    | subscribed s r hs hl h => exact hsubscribe g s r s' (hl ▸ hok) (hi s hs) h
    | sent s hs _ h => exact hsend s s' (hi s hs) h
  exact hall s hs

end Gateway
