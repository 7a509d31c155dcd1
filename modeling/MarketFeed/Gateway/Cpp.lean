import MarketFeed.Gateway.Scanner
import MarketFeed.Gateway.Wire
/-!
# The C++ TCP gateway (cpp/src/tcp_gateway.cpp:206-227, :424-620)

One thread: a frame of the bus, an accept, a request and a `flush` each run without interruption. A `flush` is
given what each of its calls of `send` came to. A request is a text: the scanner works on bytes, and of those that
are no UTF-8 nothing is said.

| here | there |
| --- | --- |
| `queue` | the frames of `queue` before they are encoded, with the number they were given |
| `Sub.closing` | its id is in `to_close_` |
| `Sub.put` | `encode_into(s.wbuf, …, s.out_seq++, …)` |
| `Label.accept order` | the order in which `last_` is walked through, any |
| `Sub.out`, `Sub.placed` | not in the source: the bytes `send` took, and the frames put into `wbuf` so far |
| `Sub.lost`, `Sub.refused`, `Sub.lostKeys`, `Sub.discarded` | not in the source: frames of the stream lost to overflow, the frame at hand when the subscriber was cut off, items lost while conflating, and frames a change of mode discarded |
| `Sub.modeAt`, `Sub.modeSeq` | not in the source: the numbers placed, and the number to come, at the last change of mode |
| `Sub.token` | not in the source: the token of the last request |
-/

namespace Gateway

namespace Cpp

/-- `COALESCE_BYTES`. -/
def COALESCE_BYTES : ℕ := 65536

structure Cfg where
  clientQueue : ℕ
  dropLimit : ℕ

/-- An entry of `key_queue`; without a key it holds its own payload. -/
structure CItem where
  key : String
  msg : Msg
  deriving DecidableEq

inductive Placed
  | numbered (seq : ℕ) (m : Msg)
  | plain (m : Msg)
  deriving DecidableEq

def Placed.bytes : Placed → Bytes
  | .numbered seq m => encode seq m
  | .plain m => encode 0 m

structure Sub where
  symbols : Option (List String)
  conflate : Bool
  queue : List (ℕ × Msg)
  keyQueue : List CItem
  pending : List (String × Msg)
  wbuf : Bytes
  woff : ℕ
  wframes : ℕ
  dropped : ℕ
  sent : ℕ
  outSeq : ℕ
  conflated : ℕ
  closing : Bool
  out : Bytes
  placed : List Placed
  lost : ℕ
  refused : Bool
  lostKeys : ℕ
  discarded : ℕ
  modeAt : ℕ
  modeSeq : ℕ
  token : String
  deriving DecidableEq

def Placed.seq : Placed → Option ℕ
  | .numbered seq _ => some seq
  | .plain _ => none

/-- The numbers put into `wbuf` so far. -/
def Sub.placedNumbers (s : Sub) : List ℕ := s.placed.filterMap Placed.seq

def msgOf (f : Frame Bytes) : Msg := ⟨f.msgType, f.payload, f.flags⟩

/-! ## Fanout -/

namespace Sub

def backlog (s : Sub) : ℕ := if s.conflate then s.keyQueue.length else s.queue.length

/-- The oldest item goes, and of a key its value too. -/
def dropOldest (s : Sub) : Sub :=
  match s.conflate, s.keyQueue with
  | true, [] => s
  | true, item :: rest =>
    { s with
      pending := if item.key ≠ "" then Keyed.erase Prod.fst item.key s.pending else s.pending
      keyQueue := rest
      lostKeys := s.lostKeys + 1 }
  | false, _ => { s with queue := s.queue.tail, lost := s.lost + (s.queue.take 1).length }

/-- `drop_overflowed`. -/
def dropOverflowed (cfg : Cfg) (s : Sub) : Sub :=
  { s.dropOldest with dropped := s.dropped + 1, closing := decide (cfg.dropLimit < s.dropped + 1) }

def room (cfg : Cfg) (s : Sub) : Sub := if cfg.clientQueue ≤ s.backlog then s.dropOverflowed cfg else s

/-- Into the queue, with the number it was given. -/
def pushFrame (seq : ℕ) (f : Frame Bytes) (s : Sub) : Sub := { s with queue := s.queue ++ [(seq, msgOf f)] }

/-- A new value for a key that waits. -/
def replaceKey (k : String) (f : Frame Bytes) (s : Sub) : Sub :=
  { s with pending := setPending k (msgOf f) s.pending, conflated := s.conflated + 1 }

def pushKey (k : String) (f : Frame Bytes) (s : Sub) : Sub :=
  { s with
    pending := setPending k (msgOf f) s.pending
    keyQueue := s.keyQueue ++ [⟨k, ⟨f.msgType, [], f.flags⟩⟩] }

/-- A frame without a key waits with its payload. -/
def pushPlain (f : Frame Bytes) (s : Sub) : Sub := { s with keyQueue := s.keyQueue ++ [⟨"", msgOf f⟩] }

def offerStream (cfg : Cfg) (f : Frame Bytes) (s : Sub) : Sub :=
  let r := room cfg { s with outSeq := s.outSeq + 1 }
  if r.closing then { r with refused := true } else r.pushFrame s.outSeq f

def offerConflate (cfg : Cfg) (f : Frame Bytes) (s : Sub) : Sub :=
  match keyOf f with
  | none =>
    let r := s.room cfg
    if r.closing then r else r.pushPlain f
  | some k =>
    if (pendingOf k s.pending).isSome then s.replaceKey k f
    else
      let r := s.room cfg
      if r.closing then r else r.pushKey k f

/-- The body of the loop of `fanout`. -/
def offer (cfg : Cfg) (f : Frame Bytes) (s : Sub) : Sub :=
  if s.closing then s
  else if (keyOf f).any (fun k => !wants s.symbols k) then s
  else if s.conflate then s.offerConflate cfg f else s.offerStream cfg f

/-! ## Flush -/

def put (m : Msg) (s : Sub) : Sub :=
  { s with
    wbuf := s.wbuf ++ encode s.outSeq m
    outSeq := s.outSeq + 1
    wframes := s.wframes + 1
    placed := s.placed ++ [.numbered s.outSeq m] }

/-- An item off the key queue. -/
def takeKey (item : CItem) (s : Sub) : Sub :=
  if item.key = "" then s.put item.msg
  else match pendingOf item.key s.pending with
    | none => s
    | some m => { s.put m with pending := Keyed.erase Prod.fst item.key s.pending }

/-- A frame off the queue. -/
def takeFrame (x : ℕ × Msg) (s : Sub) : Sub :=
  { s with
    wbuf := s.wbuf ++ encode x.1 x.2
    wframes := s.wframes + 1
    placed := s.placed ++ [.numbered x.1 x.2] }

def fillKeys : List CItem → Sub → Sub
  | [], s => s
  | item :: rest, s => if s.wbuf.length < COALESCE_BYTES then fillKeys rest (takeKey item { s with keyQueue := rest })
      else s

def fillFrames : List (ℕ × Msg) → Sub → Sub
  | [], s => s
  | x :: rest, s => if s.wbuf.length < COALESCE_BYTES then fillFrames rest (takeFrame x { s with queue := rest }) else s

/-- A buffer that has been sent is filled anew. -/
def refill (s : Sub) : Sub :=
  if s.woff < s.wbuf.length then s
  else
    let r : Sub := { s with wbuf := [], woff := 0, wframes := 0 }
    if r.conflate then fillKeys r.keyQueue r else fillFrames r.queue r

/-- `send` took `n` bytes. -/
def accept (n : ℕ) (s : Sub) : Sub :=
  { s with
    out := s.out ++ (s.wbuf.drop s.woff).take n
    woff := s.woff + n
    sent := if s.wbuf.length ≤ s.woff + n then s.sent + s.wframes else s.sent
    wframes := if s.wbuf.length ≤ s.woff + n then 0 else s.wframes }

end Sub

/-- What a call of `send` came to. -/
inductive Sending
  | accepted (n : ℕ)
  | again
  | interrupted
  | failed
  deriving DecidableEq

/-- `flush`, with what its calls of `send` come to, one after the other. -/
def Sub.flush : List Sending → Sub → Option Sub
  | [], s => if s.refill.wbuf = [] then some s.refill else none
  | o :: rest, s =>
    let r := s.refill
    if r.wbuf = [] then none
    else match o with
      | .accepted n => if 0 < n ∧ r.woff + n ≤ r.wbuf.length then Sub.flush rest (r.accept n) else none
      | .again => if rest = [] then some r else none
      | .interrupted => Sub.flush rest r
      | .failed => if rest = [] then some { r with closing := true } else none

/-! ## Requests -/

/-- `json_escape`. -/
def jsonEscape (s : String) : List Char :=
  s.toList.flatMap fun c => if c = '\"' ∨ c = '\\' then ['\\', c] else if c.toNat < 0x20 then [' '] else [c]

/-- Quoted and escaped, with commas between. -/
def quotedList (l : List String) : List Char :=
  List.intercalate ", ".toList (l.map fun s => '\"' :: jsonEscape s ++ ['\"'])

def bytesOf (l : List Char) : Bytes := (String.ofList l).toUTF8.toList

def ack (a : Answer String) : Msg :=
  let granted := ((a.filter.getD []).dedup).mergeSort
  ⟨MSG_ACK, bytesOf ("\x7b\"type\": \"entitlement\", \"error\": \"".toList ++ a.why.toList ++
    "\", \"denied\": [".toList ++ quotedList a.denied ++
    "], \"granted\": [".toList ++ quotedList granted ++ "]\x7d".toList), 0⟩

/-- What the request is answered with. -/
def answerTo (ent : Entitlements) (json : List Char) : Answer String :=
  ent.resolveCpp ((jsonString json "token").getD "") (jsonStringArray json "symbols")

namespace Sub

/-- The mode asked for. A change of it empties the queues. -/
def changeMode (mode : Option Mode) (s : Sub) : Sub :=
  match mode with
  | none => s
  | some m =>
    if decide (m = .conflate) = s.conflate then s
    else { s with
      queue := []
      keyQueue := []
      pending := []
      conflate := decide (m = .conflate)
      discarded := s.discarded + s.queue.length
      modeAt := s.placedNumbers.length
      modeSeq := s.outSeq }

/-- `apply_subscribe`. An answer that is too long to encode ends the connection. -/
def applySubscribe (ent : Entitlements) (json : List Char) (s : Sub) : Sub :=
  if !looksLikeJsonObject json then s
  else
    let a := answerTo ent json
    let mode := (jsonString json "mode").bind modeOf
    let s' : Sub := { s with token := (jsonString json "token").getD "", symbols := a.filter }
    if a.why = "" then changeMode mode s'
    else if MAX_PAYLOAD < (ack a).payload.length then { s' with closing := true }
    else changeMode mode { s' with wbuf := s'.wbuf ++ encode 0 (ack a), placed := s'.placed ++ [.plain (ack a)] }

/-- The text at the end of the snapshot. -/
def snapshotMeta (n ts nextSeq : ℕ) : Msg :=
  ⟨MSG_SNAPSHOT, bytesOf ("\x7b\"snapshot_count\": ".toList ++ (toString n).toList ++ ", \"ts_ns\": ".toList ++
    (toString ts).toList ++
    ", \"next_seq\": ".toList ++ (toString nextSeq).toList ++ "\x7d".toList), FLAG_SNAPSHOT⟩

/-- `accept_sub` up to the first `flush`. -/
def accepted (ent : Entitlements) (order : List (String × Msg)) (ts : ℕ) : Sub :=
  let symbols : Option (List String) := if ent.enabled then some [] else none
  let snapshot := order.filter fun r => wants symbols r.1
  let placed : List Placed := snapshot.map (fun r => .plain ⟨r.2.msgType, r.2.payload, FLAG_SNAPSHOT⟩) ++
    [.plain (snapshotMeta snapshot.length ts 0)]
  { symbols := symbols
    conflate := false
    queue := []
    keyQueue := []
    pending := []
    wbuf := (placed.map Placed.bytes).flatten
    woff := 0
    wframes := snapshot.length + 1
    dropped := 0
    sent := 0
    outSeq := 0
    conflated := 0
    closing := false
    out := []
    placed := placed
    lost := 0
    refused := false
    lostKeys := 0
    discarded := 0
    modeAt := 0
    modeSeq := 0
    token := "" }

end Sub

/-! ## The gateway -/

structure State where
  last : List (String × Msg)
  nextId : ℕ
  subs : ℕ → Option Sub

def State.start : State := ⟨[], 0, fun _ => none⟩

inductive Label
  | publish (f : Frame Bytes)
  | accept (order : List (String × Msg)) (ts : ℕ)
  | subscribe (id : ℕ) (json : List Char)
  | flush (id : ℕ) (sends : List Sending)
  | hangup (id : ℕ)
  | sweep
  deriving DecidableEq

variable (ent : Entitlements) (cfg : Cfg)

def step (g : State) : Label → Option State
  | .publish f =>
    let last := match keyOf f with
      | some k => setPending k (msgOf f) g.last
      | none => g.last
    some { g with last := last, subs := fun id => (g.subs id).map (Sub.offer cfg f) }
  | .accept order ts =>
    if order.isPerm g.last then
      some { g with nextId := g.nextId + 1, subs := Function.update g.subs g.nextId (some (Sub.accepted ent order ts)) }
    else none
  | .subscribe id json =>
    match g.subs id with
    | none => none
    | some s => some { g with subs := Function.update g.subs id (some (s.applySubscribe ent json)) }
  | .flush id sends =>
    match g.subs id with
    | none => none
    | some s => (s.flush sends).map fun s' => { g with subs := Function.update g.subs id (some s') }
  | .hangup id =>
    match g.subs id with
    | none => none
    | some s => some { g with subs := Function.update g.subs id (some { s with closing := true }) }
  | .sweep => some { g with subs := fun id => (g.subs id).filter fun s => !s.closing }

/-! ## Invariants of a subscriber -/

namespace Sub

theorem dropOldest_outSeq (s : Sub) (n : ℕ) :
    dropOldest { s with outSeq := n } = { s.dropOldest with outSeq := n } := by
  obtain ⟨_, _ | _, _, _ | _⟩ := s <;> rfl

theorem room_outSeq (cfg : Cfg) (s : Sub) (n : ℕ) :
    room cfg { s with outSeq := n } = { s.room cfg with outSeq := n } := by
  have hbacklog : backlog { s with outSeq := n } = s.backlog := rfl
  unfold room dropOverflowed
  rw [hbacklog, dropOldest_outSeq]
  split <;> rfl

/-- Dropping changes neither the mode nor the number to come. -/
theorem dropOldest_same (s : Sub) :
    s.dropOldest.conflate = s.conflate ∧ s.dropOldest.outSeq = s.outSeq ∧ s.dropOldest.refused = s.refused := by
  unfold dropOldest
  split <;> exact ⟨rfl, rfl, rfl⟩

theorem room_same (cfg : Cfg) (s : Sub) :
    (s.room cfg).conflate = s.conflate ∧ (s.room cfg).outSeq = s.outSeq ∧ (s.room cfg).refused = s.refused := by
  unfold room
  split
  · exact dropOldest_same s
  · exact ⟨rfl, rfl, rfl⟩

/-- … nor does it hold a value for a key that had none. -/
theorem room_pending {cfg : Cfg} {s : Sub} {k : String} (h : (pendingOf k s.pending).isSome = false) :
    (pendingOf k (s.room cfg).pending).isSome = false := by
  unfold room
  split
  · show (pendingOf k s.dropOldest.pending).isSome = false
    unfold dropOldest
    split
    · exact h
    · simp only
      split
      · rw [pendingOf_erase]
        split
        · rfl
        · exact h
      · exact h
    · exact h
  · exact h

theorem changeMode_symbols (mode : Option Mode) (s : Sub) :
    (s.changeMode mode).symbols = s.symbols ∧ (s.changeMode mode).token = s.token ∧
      (s.changeMode mode).placed = s.placed := by
  unfold changeMode
  split
  · exact ⟨rfl, rfl, rfl⟩
  · split <;> exact ⟨rfl, rfl, rfl⟩

theorem changeMode_conflate (mode : Option Mode) (s : Sub) :
    (s.changeMode mode).conflate = (mode.map fun m => decide (m = .conflate)).getD s.conflate := by
  unfold changeMode
  split
  · rfl
  · split
    · rename_i h
      exact h.symm
    · rfl

end Sub

section

variable {I : Sub → Prop}
  (hclear : ∀ s, I s → s.wbuf.length ≤ s.woff → I { s with wbuf := [], woff := 0, wframes := 0 })
  (hkey : ∀ s item rest, I s → s.conflate = true → s.keyQueue = item :: rest →
    I (Sub.takeKey item { s with keyQueue := rest }))
  (hframe : ∀ s x rest, I s → s.conflate = false → s.queue = x :: rest → I (Sub.takeFrame x { s with queue := rest }))

include hkey in
theorem fillKeys_keeps : ∀ {items : List CItem} {s : Sub}, I s → s.conflate = true → s.keyQueue = items →
    I (Sub.fillKeys items s)
  | [], _, hi, _, _ => hi
  | item :: rest, s, hi, hc, hq => by
    unfold Sub.fillKeys
    split
    · refine fillKeys_keeps (hkey s item rest hi hc hq) ?_ ?_
      · unfold Sub.takeKey
        split
        · exact hc
        · split <;> exact hc
      · unfold Sub.takeKey
        split
        · rfl
        · split <;> rfl
    · exact hi

include hframe in
theorem fillFrames_keeps : ∀ {items : List (ℕ × Msg)} {s : Sub}, I s → s.conflate = false → s.queue = items →
    I (Sub.fillFrames items s)
  | [], _, hi, _, _ => hi
  | x :: rest, s, hi, hc, hq => by
    unfold Sub.fillFrames
    split
    · exact fillFrames_keeps (hframe s x rest hi hc hq) hc rfl
    · exact hi

include hclear hkey hframe in
theorem refill_keeps {s : Sub} (hi : I s) : I s.refill := by
  unfold Sub.refill
  split
  · exact hi
  · rename_i hoff
    have hr := hclear s hi (Nat.not_lt.1 hoff)
    generalize ({ s with wbuf := [], woff := 0, wframes := 0 } : Sub) = r at hr
    simp only
    split
    · exact fillKeys_keeps hkey hr ‹_› rfl
    · exact fillFrames_keeps hframe hr (Bool.eq_false_iff.2 ‹_›) rfl

/-- What each move of a `flush` keeps, a `flush` keeps. -/
theorem flush_keeps
    (hclear : ∀ s, I s → s.wbuf.length ≤ s.woff → I { s with wbuf := [], woff := 0, wframes := 0 })
    (hkey : ∀ s item rest, I s → s.conflate = true → s.keyQueue = item :: rest →
      I (Sub.takeKey item { s with keyQueue := rest }))
    (hframe : ∀ s x rest, I s → s.conflate = false → s.queue = x :: rest → I (Sub.takeFrame x { s with queue := rest }))
    (haccept : ∀ s n, I s → s.woff + n ≤ s.wbuf.length → I (s.accept n))
    (hclosing : ∀ s, I s → I { s with closing := true }) :
    ∀ {sends : List Sending} {s s' : Sub}, I s → s.flush sends = some s' → I s'
  | [], s, s', hi, h => by
    unfold Sub.flush at h
    split at h
    · cases h
      exact refill_keeps hclear hkey hframe hi
    · cases h
  | o :: rest, s, s', hi, h => by
    have hr := refill_keeps hclear hkey hframe hi
    unfold Sub.flush at h
    simp only at h
    split at h
    · cases h
    · cases o with
      | accepted n =>
        simp only at h
        split at h
        · exact flush_keeps hclear hkey hframe haccept hclosing (haccept _ n hr (‹_ ∧ _›).2) h
        · cases h
      | again =>
        simp only at h
        split at h
        · cases h
          exact hr
        · cases h
      | interrupted => exact flush_keeps hclear hkey hframe haccept hclosing hr h
      | failed =>
        simp only at h
        split at h
        · cases h
          exact hclosing _ hr
        · cases h

/-- What making room and each way of queueing a frame keep, offering one keeps. -/
theorem offer_keeps {cfg : Cfg} {f : Frame Bytes}
    (hroom : ∀ s, I s → s.closing = false → I (s.room cfg))
    (hrefused : ∀ s, I s → s.closing = false → s.conflate = false → (s.room cfg).closing = true → I (s.room cfg) →
      I { s.room cfg with outSeq := s.outSeq + 1, refused := true })
    (hframe : ∀ s, I s → s.conflate = false → I (Sub.pushFrame s.outSeq f { s with outSeq := s.outSeq + 1 }))
    (hreplace : ∀ s k, I s → s.conflate = true → (pendingOf k s.pending).isSome = true → I (s.replaceKey k f))
    (hkey : ∀ s k, I s → s.conflate = true → keyOf f = some k → (pendingOf k s.pending).isSome = false →
      I (s.pushKey k f))
    (hplain : ∀ s, I s → s.conflate = true → I (s.pushPlain f)) {s : Sub} (hi : I s) : I (s.offer cfg f) := by
  obtain ⟨hconflate, hseq, -⟩ := Sub.room_same cfg s
  unfold Sub.offer
  split
  · exact hi
  · rename_i hc
    have hc := Bool.eq_false_iff.2 hc
    have hr := hroom s hi hc
    split
    · exact hi
    · split
      · rename_i hm
        unfold Sub.offerConflate
        split
        · simp only
          split
          · exact hr
          · exact hplain _ hr (hconflate.trans hm)
        · rename_i k hk
          split
          · exact hreplace s k hi hm ‹_›
          · rename_i hp
            simp only
            split
            · exact hr
            · exact hkey _ k hr (hconflate.trans hm) hk (Sub.room_pending (Bool.eq_false_iff.2 hp))
      · rename_i hm
        have hm := Bool.eq_false_iff.2 hm
        unfold Sub.offerStream
        rw [Sub.room_outSeq]
        simp only
        split
        · exact hrefused s hi hc hm ‹_› hr
        · have := hframe _ hr (hconflate.trans hm)
          rw [hseq] at this
          exact this

/-- What setting the filter, refusing, answering and a change of mode keep, a request keeps. -/
theorem applySubscribe_keeps {ent : Entitlements} {json : List Char}
    (hset : ∀ s token symbols, I s → I { s with token := token, symbols := symbols })
    (hrefuse : ∀ s, I s → I { s with closing := true })
    (hanswer : ∀ s m, I s → I { s with wbuf := s.wbuf ++ encode 0 m, placed := s.placed ++ [.plain m] })
    (hmode : ∀ s mode, I s → I (s.changeMode mode)) {s : Sub} (hi : I s) : I (s.applySubscribe ent json) := by
  have hs := hset s ((jsonString json "token").getD "") (answerTo ent json).filter hi
  unfold Sub.applySubscribe
  split
  · exact hi
  · simp only
    split
    · exact hmode _ _ hs
    · split
      · exact hrefuse _ hs
      · exact hmode _ _ (hanswer _ _ hs)

end

variable {ent cfg}

/-- What a label does to the subscriber `id`. -/
inductive Move (ent : Entitlements) (cfg : Cfg) (id : ℕ) (g : State) (l : Label) (s' : Sub) : Prop
  | stays (h : g.subs id = some s') (hl : ∀ json, l ≠ .subscribe id json)
  | accepted (order : List (String × Msg)) (ts : ℕ) (h : s' = Sub.accepted ent order ts) (hid : id = g.nextId)
      (hl : l = .accept order ts)
  | offered (s : Sub) (f : Frame Bytes) (hs : g.subs id = some s) (hl : l = .publish f) (h : s' = s.offer cfg f)
  | subscribed (s : Sub) (json : List Char) (hs : g.subs id = some s) (hl : l = .subscribe id json)
      (h : s' = s.applySubscribe ent json)
  | flushed (s : Sub) (sends : List Sending) (hs : g.subs id = some s) (hl : l = .flush id sends)
      (h : s.flush sends = some s')
  | closing (s : Sub) (hs : g.subs id = some s) (hl : l = .hangup id) (h : s' = { s with closing := true })

theorem step_move {g g' : State} {l : Label} {id : ℕ} {s' : Sub} (h : step ent cfg g l = some g')
    (hs' : g'.subs id = some s') :
    Move ent cfg id g l s' := by
  cases l with
  | publish f =>
    cases h
    obtain ⟨s, hs, hoff⟩ := Option.map_eq_some_iff.1 hs'
    exact .offered s f hs rfl hoff.symm
  | accept order ts =>
    simp only [step] at h
    split at h
    · cases h
      simp only [Function.update_apply] at hs'
      split at hs'
      · exact .accepted order ts (Option.some.inj hs').symm ‹_› rfl
      · exact .stays hs' fun json hr => by cases hr
    · cases h
  | subscribe id' json =>
    simp only [step] at h
    split at h
    · cases h
    · rename_i s hs
      cases h
      simp only [Function.update_apply] at hs'
      split at hs'
      · rename_i hid
        subst hid
        exact .subscribed s json hs rfl (Option.some.inj hs').symm
      · rename_i hid
        exact .stays hs' fun json' hr => by cases hr; exact hid rfl
  | flush id' sends =>
    simp only [step] at h
    split at h
    · cases h
    · rename_i s hs
      obtain ⟨s'', hflush, rfl⟩ := Option.map_eq_some_iff.1 h
      simp only [Function.update_apply] at hs'
      split at hs'
      · rename_i hid
        subst hid
        exact .flushed s sends hs rfl (Option.some.inj hs' ▸ hflush)
      · exact .stays hs' fun json hr => by cases hr
  | hangup id' =>
    simp only [step] at h
    split at h
    · cases h
    · rename_i s hs
      cases h
      simp only [Function.update_apply] at hs'
      split at hs'
      · rename_i hid
        subst hid
        exact .closing s hs rfl (Option.some.inj hs').symm
      · exact .stays hs' fun json hr => by cases hr
  | sweep =>
    cases h
    exact .stays (Option.eq_some_of_filter_eq_some hs') fun json hr => by cases hr

/-- What every subscriber has when it is accepted, and keeps in its moves, it has in every run. -/
theorem run_subs {I : Sub → Prop} {ok : State → Label → Prop} {id : ℕ}
    (haccepted : ∀ order ts, I (Sub.accepted ent order ts))
    (hoffer : ∀ s f, I s → I (s.offer cfg f))
    (hsubscribe : ∀ g s json, ok g (.subscribe id json) → I s → I (s.applySubscribe ent json))
    (hflush : ∀ s sends s', I s → s.flush sends = some s' → I s')
    (hclosing : ∀ s, I s → I { s with closing := true })
    {labels : List Label} {g : State} (h : Lts.Run (step ent cfg) ok .start labels g)
    {s : Sub} (hs : g.subs id = some s) : I s := by
  have hall : ∀ s, g.subs id = some s → I s := by
    refine h.invariant (I := fun g => ∀ s, g.subs id = some s → I s) (fun s hs => (by cases hs)) ?_
    intro g l g' hi hok hst s' hs'
    cases step_move hst hs' with
    | stays h _ => exact hi s' h
    | accepted order ts h _ _ => exact h ▸ haccepted order ts
    | offered s f hs _ h => exact h ▸ hoffer s f (hi s hs)
    | subscribed s json hs hl h => exact h ▸ hsubscribe g s json (hl ▸ hok) (hi s hs)
    | flushed s sends hs _ h => exact hflush s sends s' (hi s hs) h
    | closing s hs _ h => exact h ▸ hclosing s (hi s hs)
  exact hall s hs

end Cpp

end Gateway
