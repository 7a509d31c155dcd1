import MarketFeed.Gateway.Subscriber
import MarketFeed.Lib.Recent
/-!
# The snapshot of a late subscriber

tcp_gateway.py:186-190, :318-332, :437-444; cpp/src/tcp_gateway.cpp:443-453, :527-532;
cpp/src/mcast_publisher.cpp:184-187, :263-269

Each of the three servers keeps the last frame of every key, and sends what it keeps to who connects. The
key is the venue and the symbol, so trades and books of one symbol share an entry: the snapshot has the one
of the two kinds that came last. `lateView_iff` says when a late subscriber still ends up with the same
latest trades and books as one who was there from the start.

| here | there |
| --- | --- |
| `Message` | type and payload of a frame; a snapshot has both as they were published |
| the parameter `unpack` | the venue and symbol that `Trade.unpack` or `BookTop.unpack` reads, by type; none of a payload too short |
| `PyGateway` | `last` and `last_type` of the Python gateway |
| `CppGateway.last`, `Publisher.last` | `last_` of the C++ gateway and of the multicast publisher, hash maps that are read in any order |
| `symbols` | the subscriber's filter; none of a multicast subscriber, and none of a TCP subscriber by default |
-/

namespace Gateway

variable {P : Type}

abbrev Message (P : Type) := ℕ × P

/-- A kind of data of a symbol: its type, venue and symbol. -/
abbrev Place := ℕ × String × String

section

variable (unpack : ℕ → P → Option (String × String))

def place (m : Message P) : Option Place :=
  if m.1 = MSG_TRADE ∨ m.1 = MSG_BOOK then (unpack m.1 m.2).map fun vs => (m.1, vs) else none

/-- `venue:symbol`. -/
def placeKey (p : Place) : String := p.2.1 ++ ":" ++ p.2.2

def frameOf (m : Message P) : Frame P := ⟨m.1, m.2, 0, unpack m.1 m.2⟩

/-! ## The three caches -/

structure PyGateway (P : Type) where
  last : List (String × P)
  lastType : List (String × ℕ)

/-- `_consume_one`, up to `_fanout`. -/
def PyGateway.consumeOne (g : PyGateway P) (m : Message P) : PyGateway P :=
  match keyOf (frameOf unpack m) with
  | none => g
  | some key => { last := setPending key m.2 g.last, lastType := setPending key m.1 g.lastType }

/-- `_send_snapshot`, without its end. -/
def PyGateway.sendSnapshot (g : PyGateway P) (symbols : Option (List String)) : List (Message P) :=
  (g.last.filter fun e => wants symbols e.1).map fun e => ((pendingOf e.1 g.lastType).getD MSG_TRADE, e.2)

/-- `on_frame` of the C++ gateway, up to `fanout`. -/
def CppGateway.onFrame (last : List (String × Message P)) (m : Message P) : List (String × Message P) :=
  match keyOf (frameOf unpack m) with
  | none => last
  | some key => setPending key (m.1, m.2) last

/-- `send_snapshot`, without its end. -/
def CppGateway.sendSnapshot (last : List (String × Message P)) (symbols : Option (List String)) : List (Message P) :=
  (last.filter fun e => wants symbols e.1).map fun e => e.2

/-- The two branches at the start of `on_frame` of the publisher. -/
def Publisher.onFrame (last : List (String × Message P)) (m : Message P) : List (String × Message P) :=
  match unpack m.1 m.2 with
  | none => last
  | some vs =>
    if m.1 = MSG_TRADE then setPending (vs.1 ++ ":" ++ vs.2) (m.1, m.2) last
    else if m.1 = MSG_BOOK then setPending (vs.1 ++ ":" ++ vs.2) (m.1, m.2) last
    else last

/-- The loop of the answer to `MSG_SUBSCRIBE`. -/
def Publisher.snapshot (last : List (String × Message P)) : List (Message P) := last.map fun e => e.2

inductive Server
  | pyGateway
  | cppGateway
  | publisher
  deriving DecidableEq

/-- What a server that has seen `before` sends. -/
def snapshotOf (symbols : Option (List String)) (before : List (Message P)) : Server → List (Message P)
  | .pyGateway => (before.foldl (PyGateway.consumeOne unpack) ⟨[], []⟩).sendSnapshot symbols
  | .cppGateway => CppGateway.sendSnapshot (before.foldl (CppGateway.onFrame unpack) []) symbols
  | .publisher => Publisher.snapshot (before.foldl (Publisher.onFrame unpack) [])

/-- The frames a subscriber is sent: its symbols, and what has no key. -/
def delivered (symbols : Option (List String)) (server : Server) (ms : List (Message P)) : List (Message P) :=
  match server with
  | .pyGateway | .cppGateway => ms.filter fun m => (keyOf (frameOf unpack m)).all (wants symbols)
  | .publisher => ms

/-- The latest trade or book that a subscriber has. -/
def view (received : List (Message P)) (p : Place) : Option (Message P) := Recent.latest (place unpack) p received

/-! ## What they keep -/

variable {unpack}

theorem keyOf_frameOf (m : Message P) : keyOf (frameOf unpack m) = Recent.slot (place unpack) placeKey m := by
  unfold keyOf frameOf Recent.slot place
  split
  · rw [Option.map_map]
    rfl
  · rfl

variable (unpack) in
/-- A dict that is set at the key of every message has of each key what was set last. -/
theorem pendingOf_foldl {V : Type} (value : Message P → V) (dict : List (String × V) → Message P → List (String × V))
    (hdict : ∀ d m, dict d m = (Recent.slot (place unpack) placeKey m).elim d fun k => setPending k (value m) d)
    (before : List (Message P)) :
    (∀ k, pendingOf k (before.foldl dict []) = (Recent.latest (Recent.slot (place unpack) placeKey) k before).map
      value) ∧
    ((before.foldl dict []).map Prod.fst).Nodup := by
  induction before using List.reverseRecOn with
  | nil => exact ⟨fun k => rfl, List.nodup_nil⟩
  | append_singleton before m ih =>
    obtain ⟨hval, hnodup⟩ := ih
    rw [List.foldl_append, List.foldl_cons, List.foldl_nil, hdict]
    cases hm : Recent.slot (place unpack) placeKey m with
    | none =>
      refine ⟨fun k => ?_, hnodup⟩
      rw [Recent.latest_concat, hm, if_neg (by simp)]
      exact hval k
    | some k' =>
      refine ⟨fun k => ?_, Keyed.nodup_upsert hnodup _⟩
      rw [Option.elim_some, pendingOf_set, Recent.latest_concat, hm]
      by_cases hk : k' = k
      · simp [hk]
      · simp [hk, hval k]

theorem mem_iff_pendingOf {V : Type} {d : List (String × V)} (hn : (d.map Prod.fst).Nodup) {k : String} {v : V} :
    (k, v) ∈ d ↔ pendingOf k d = some v := by
  unfold pendingOf
  rw [Option.map_eq_some_iff]
  constructor
  · intro h
    exact ⟨(k, v), (Keyed.lookup_eq_some_iff hn).2 ⟨h, rfl⟩, rfl⟩
  · rintro ⟨⟨k', v'⟩, h, rfl⟩
    obtain ⟨hmem, rfl⟩ := (Keyed.lookup_eq_some_iff hn).1 h
    exact hmem

/-- What is kept of the key `k`, of the messages that go to the subscriber. -/
theorem latest_delivered (symbols : Option (List String)) (server : Server) (before : List (Message P)) (k : String)
    (m : Message P) :
    Recent.latest (Recent.slot (place unpack) placeKey) k (delivered unpack symbols server before) = some m ↔
      Recent.latest (Recent.slot (place unpack) placeKey) k before = some m ∧
      (server = .publisher ∨ wants symbols k = true) := by
  have hfilter : Recent.latest (Recent.slot (place unpack) placeKey) k
      (before.filter fun m => (keyOf (frameOf unpack m)).all (wants symbols)) =
      some m ↔ Recent.latest (Recent.slot (place unpack) placeKey) k before = some m ∧ wants symbols k = true := by
    by_cases hk : wants symbols k = true
    · rw [Recent.latest_filter (fun m hm => by rw [keyOf_frameOf, hm]; exact hk)]
      simp [hk]
    · rw [Recent.latest_filter_none (fun m hm => by rw [keyOf_frameOf, hm]; simpa using hk)]
      simp [hk]
  cases server <;> simp only [delivered, hfilter, reduceCtorEq, false_or, true_or, and_true]

variable (unpack) in
theorem foldl_pyGateway (before : List (Message P)) (g : PyGateway P) :
    (before.foldl (PyGateway.consumeOne unpack) g).last =
      before.foldl (fun d m => (Recent.slot (place unpack) placeKey m).elim d fun k => setPending k m.2 d) g.last ∧
    (before.foldl (PyGateway.consumeOne unpack) g).lastType =
      before.foldl (fun d m => (Recent.slot (place unpack) placeKey m).elim d fun k => setPending k m.1 d)
        g.lastType := by
  induction before generalizing g with
  | nil => exact ⟨rfl, rfl⟩
  | cons m before ih =>
    obtain ⟨hlast, htype⟩ := ih (PyGateway.consumeOne unpack g m)
    rw [List.foldl_cons, List.foldl_cons, List.foldl_cons, hlast, htype]
    unfold PyGateway.consumeOne
    rw [keyOf_frameOf]
    cases Recent.slot (place unpack) placeKey m <;> exact ⟨rfl, rfl⟩

/-- The snapshot of the Python gateway is its cache. -/
theorem pyGateway_cached (symbols : Option (List String)) (before : List (Message P)) (m : Message P) :
    m ∈ snapshotOf unpack symbols before .pyGateway ↔
      ∃ k, Recent.latest (Recent.slot (place unpack) placeKey) k before = some m ∧ wants symbols k = true := by
  obtain ⟨hlast, htype⟩ := foldl_pyGateway unpack before ⟨[], []⟩
  obtain ⟨hpay, hnodup⟩ := pendingOf_foldl unpack Prod.snd _ (fun d m => rfl) before
  obtain ⟨htyp, -⟩ := pendingOf_foldl unpack Prod.fst _ (fun d m => rfl) before
  simp only [snapshotOf, PyGateway.sendSnapshot, hlast, htype, List.mem_map, List.mem_filter]
  constructor
  · rintro ⟨⟨k, payload⟩, ⟨hmem, hk⟩, rfl⟩
    have hp := (mem_iff_pendingOf hnodup).1 hmem
    rw [hpay] at hp
    obtain ⟨m, hm, rfl⟩ := Option.map_eq_some_iff.1 hp
    refine ⟨k, ?_, hk⟩
    rw [htyp, hm]
    rfl
  · rintro ⟨k, hm, hk⟩
    refine ⟨(k, m.2), ⟨(mem_iff_pendingOf hnodup).2 ?_, hk⟩, ?_⟩
    · rw [hpay, hm]
      rfl
    · simp only [htyp, hm]
      rfl

/-- So is that of a map from keys to messages. -/
theorem map_cached (p : String → Bool) {d : List (String × Message P)} (dict : List (String × Message P) → Message P →
    List (String × Message P))
    (hdict : ∀ d m, dict d m = (Recent.slot (place unpack) placeKey m).elim d fun k => setPending k m d)
    (before : List (Message P))
    (hd : d = before.foldl dict []) (m : Message P) :
    m ∈ (d.filter fun e => p e.1).map (fun e => e.2) ↔
      ∃ k, Recent.latest (Recent.slot (place unpack) placeKey) k before = some m ∧ p k = true := by
  obtain ⟨hval, hnodup⟩ := pendingOf_foldl unpack id dict hdict before
  subst hd
  simp only [List.mem_map, List.mem_filter]
  constructor
  · rintro ⟨⟨k, m⟩, ⟨hmem, hk⟩, rfl⟩
    have hp := (mem_iff_pendingOf hnodup).1 hmem
    rw [hval] at hp
    exact ⟨k, by simpa using hp, hk⟩
  · rintro ⟨k, hm, hk⟩
    refine ⟨(k, m), ⟨(mem_iff_pendingOf hnodup).2 ?_, hk⟩, rfl⟩
    rw [hval, hm]
    rfl

theorem cppGateway_onFrame (d : List (String × Message P)) (m : Message P) :
    CppGateway.onFrame unpack d m = (Recent.slot (place unpack) placeKey m).elim d fun k => setPending k m d := by
  unfold CppGateway.onFrame
  rw [keyOf_frameOf]
  cases Recent.slot (place unpack) placeKey m <;> rfl

theorem publisher_onFrame (d : List (String × Message P)) (m : Message P) :
    Publisher.onFrame unpack d m = (Recent.slot (place unpack) placeKey m).elim d fun k => setPending k m d := by
  obtain ⟨t, payload⟩ := m
  unfold Publisher.onFrame Recent.slot place
  simp only
  by_cases htrade : t = MSG_TRADE
  · cases hu : unpack t payload <;> simp [htrade, placeKey]
  · by_cases hbook : t = MSG_BOOK
    · cases hu : unpack t payload <;> simp [hbook, placeKey]
    · cases hu : unpack t payload <;> simp [htrade, hbook]

/-- Every server sends what a cache under the keys has. -/
theorem snapshot_cached (symbols : Option (List String)) (before : List (Message P)) (server : Server) :
    Recent.Cached (place unpack) placeKey (delivered unpack symbols server before)
      (snapshotOf unpack symbols before server) := by
  intro m
  simp only [latest_delivered]
  cases server with
  | pyGateway =>
    rw [pyGateway_cached]
    simp
  | cppGateway =>
    have := map_cached (wants symbols) (CppGateway.onFrame unpack) cppGateway_onFrame before rfl m
    simpa [snapshotOf, CppGateway.sendSnapshot] using this
  | publisher =>
    have := map_cached (fun _ => true) (Publisher.onFrame unpack) publisher_onFrame before rfl m
    simpa [snapshotOf, Publisher.snapshot] using this

/-! ## Late subscribers -/

/-- Nothing of the place is lost: it comes again, it never was, or it is what its key had last. -/
def Kept (unpack : ℕ → P → Option (String × String)) (before after : List (Message P)) (p : Place) : Prop :=
  (∃ m ∈ after, place unpack m = some p) ∨ (∀ m ∈ before, place unpack m ≠ some p) ∨
    ∃ m, Recent.latest (Recent.slot (place unpack) placeKey) (placeKey p) before = some m ∧ place unpack m = some p

/-- The late subscriber has the same latest trades and books as one that was there from the start. -/
def SameView (unpack : ℕ → P → Option (String × String)) (server : Server) (symbols : Option (List String))
    (before after snapshot : List (Message P)) : Prop :=
  ∀ p, view unpack (snapshot ++ delivered unpack symbols server after) p = view unpack
    (delivered unpack symbols server (before ++ after)) p

theorem delivered_append (symbols : Option (List String)) (server : Server) (ms ms' : List (Message P)) :
    delivered unpack symbols server (ms ++ ms') = delivered unpack symbols server ms ++
      delivered unpack symbols server ms' := by
  cases server <;> simp [delivered]

/-- **A late subscriber has what an early one has exactly when of no symbol the later of the last trade and the last
book hides the other for good.** -/
theorem lateView_iff (unpack : ℕ → P → Option (String × String)) (server : Server) (symbols : Option (List String))
    (before after snapshot : List (Message P)) (h : snapshot.Perm (snapshotOf unpack symbols before server)) :
    SameView unpack server symbols before after snapshot ↔
      ∀ p, Kept unpack (delivered unpack symbols server before) (delivered unpack symbols server after) p := by
  have hcached : Recent.Cached (place unpack) placeKey (delivered unpack symbols server before) snapshot :=
    fun m => h.mem_iff.trans (snapshot_cached symbols before server m)
  refine forall_congr' fun p => ?_
  rw [delivered_append]
  exact Recent.join_late_iff hcached _ p

end

/-! ## Payloads as bytes -/

/-- `unfix`: a byte string up to the zeros at its end, every byte a character. -/
def unfix (b : List UInt8) : String :=
  String.ofList ((b.reverse.dropWhile (· = 0)).reverse.map fun x => Char.ofNat x.toNat)

/-- `Trade::unpack` and `BookTop::unpack`, as far as the key needs them. -/
def unpackBytes (msgType : ℕ) (payload : List UInt8) : Option (String × String) :=
  if (if msgType = MSG_TRADE then 64 else 72) ≤ payload.length then
    some (unfix ((payload.drop 16).take 8), unfix (payload.take 16))
  else none

/-- A payload of `KRX:A` with `n` bytes behind the venue. -/
def ofKrxA (n : ℕ) : List UInt8 := 65 :: .replicate 15 0 ++ [75, 82, 88, 0, 0, 0, 0, 0] ++ .replicate n 0

/-- A trade, and the book after the subscriber has joined. -/
theorem lateView_trade : SameView unpackBytes .pyGateway none [(MSG_TRADE, ofKrxA 40)] [(MSG_BOOK, ofKrxA 48)]
    (snapshotOf unpackBytes none [(MSG_TRADE, ofKrxA 40)] .pyGateway) := by
  refine (lateView_iff unpackBytes .pyGateway none [(MSG_TRADE, ofKrxA 40)] [(MSG_BOOK, ofKrxA 48)]
    _ (List.Perm.refl _)).2 fun p => ?_
  by_cases hp : place unpackBytes (MSG_TRADE, ofKrxA 40) = some p
  · have htrade : place unpackBytes (MSG_TRADE, ofKrxA 40) = some (MSG_TRADE, "KRX", "A") := by decide +kernel
    obtain rfl := Option.some.inj (htrade.symm.trans hp)
    exact .inr (.inr ⟨(MSG_TRADE, ofKrxA 40), by decide +kernel, hp⟩)
  · refine .inr (.inl fun m hm => ?_)
    simp only [delivered, List.mem_filter, List.mem_singleton] at hm
    rw [hm.1]
    exact hp

/-- A trade and then a book of one symbol, and the subscriber joins: it has no trade. -/
theorem trade_is_hidden : ¬ SameView unpackBytes .pyGateway none [(MSG_TRADE, ofKrxA 40), (MSG_BOOK, ofKrxA 48)] []
    (snapshotOf unpackBytes none [(MSG_TRADE, ofKrxA 40), (MSG_BOOK, ofKrxA 48)] .pyGateway) := by
  intro h
  exact absurd (h (MSG_TRADE, "KRX", "A")) (by decide +kernel)

end Gateway
