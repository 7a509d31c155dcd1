import MarketFeed.Ws.RoundTrip
/-!
# What a client gets before the connection is closed (src/mdfeed/wsproto.py:154-165, :240-261)

`recv` hands on one data message. It takes the next of `_pending`; when there is none it reads a chunk and
runs the decoder's generator over it, which answers a PING, puts a data message into `_pending` and raises
at a CLOSE. The raise leaves the loop in the middle: what the same chunk had put into `_pending` is not
handed on before the error, but by a later `recv`, and nothing calls it after an error.

So a data message comes out before the error exactly when it was complete before the last read
(`received_eq`), and two ways to cut one stream differ exactly when a message ends between the starts of
their last reads (`received_eq_iff`).

| here | there |
| --- | --- |
| `FrameDecoder.next` | the generator `feed`, resumed once: what it yields or raises, and the decoder then |
| `WSClient.each` | `for op, payload in self._dec.feed(chunk)`, with the exception that left the loop |
| `net` | what `reader.read` returns, call by call; after it `b""` |
| `urandom`, `draws` | `os.urandom(4)` of the PONG frames, by the number of the call |
| `WSClient.received` | a caller that calls `recv` until it raises |

A timeout of `recv` leaves the client as it was and is not in the model.
-/

namespace Ws

open Gateway (Bytes)

/-! ## The generator, one message at a time -/

def FrameDecoder.next (d : FrameDecoder) : Option (Except WSError Message) × FrameDecoder :=
  match _h : parse d.expectMasked d.buf with
  | .wait => (none, d)
  | .raise e => (some (.error e), d)
  | .item f n =>
    match handle d.frag f with
    | .error e => (some (.error e), { d with buf := d.buf.drop n })
    | .ok (some m, frag) => (some (.ok m), { d with buf := d.buf.drop n, frag := frag })
    | .ok (none, frag) => FrameDecoder.next { d with buf := d.buf.drop n, frag := frag }
termination_by d.buf.length
decreasing_by
  have := parse_item _h
  simp only [List.length_drop]
  omega

theorem next_eq (d : FrameDecoder) :
    d.next = match parse d.expectMasked d.buf with
      | .wait => (none, d)
      | .raise e => (some (.error e), d)
      | .item f n =>
        match handle d.frag f with
        | .error e => (some (.error e), { d with buf := d.buf.drop n })
        | .ok (some m, frag) => (some (.ok m), { d with buf := d.buf.drop n, frag := frag })
        | .ok (none, frag) => FrameDecoder.next { d with buf := d.buf.drop n, frag := frag } := by
  rw [FrameDecoder.next]
  split <;> simp [*]

theorem loop_eq (d : FrameDecoder) :
    d.loop = match parse d.expectMasked d.buf with
      | .wait => ⟨[], none, d⟩
      | .raise e => ⟨[], some e, d⟩
      | .item f n =>
        match handle d.frag f with
        | .error e => ⟨[], some e, { d with buf := d.buf.drop n }⟩
        | .ok (out, frag) =>
          let fed := FrameDecoder.loop { d with buf := d.buf.drop n, frag := frag }
          { fed with messages := out.toList ++ fed.messages } := by
  rw [FrameDecoder.loop]
  split
  · simp [*]
  · simp [*]
  · rename_i f n hp
    cases hh : handle d.frag f <;> simp only [hp, hh]

theorem drop_item_lt {expectMasked : Bool} {b : Bytes} {f : Frame} {n : ℕ} (h : parse expectMasked b = .item f n) :
    (b.drop n).length < b.length := by
  have hn := parse_item h
  rw [List.length_drop]
  omega

theorem next_lt {d d' : FrameDecoder} {m : Message} (h : d.next = (some (.ok m), d')) :
    d'.buf.length < d.buf.length := by
  induction hlen : d.buf.length using Nat.strongRecOn generalizing d with
  | ind k ih =>
    rw [next_eq] at h
    split at h
    · cases h
    · cases h
    · rename_i f n hp
      have hdrop := drop_item_lt hp
      rw [hlen] at hdrop
      split at h
      · cases h
      · cases h
        exact hdrop
      · exact Nat.lt_trans (ih _ hdrop h rfl) hdrop

/-- Run to its end the generator is `loop`. -/
theorem loop_next (d : FrameDecoder) :
    d.loop = match d.next with
      | (none, d') => ⟨[], none, d'⟩
      | (some (.error e), d') => ⟨[], some e, d'⟩
      | (some (.ok m), d') => { d'.loop with messages := m :: d'.loop.messages } := by
  induction hlen : d.buf.length using Nat.strongRecOn generalizing d with
  | ind k ih =>
    rw [loop_eq, next_eq]
    cases hp : parse d.expectMasked d.buf with
    | wait => rfl
    | raise e => rfl
    | item f n =>
      have hdrop := drop_item_lt hp
      rw [hlen] at hdrop
      cases hf : handle d.frag f with
      | error e => simp [hf]
      | ok v =>
        obtain ⟨out, frag⟩ := v
        cases out with
        | some m => simp [hf]
        | none => simpa [hf] using ih _ hdrop { d with buf := d.buf.drop n, frag := frag } rfl

/-! ## The client -/

structure WSClient where
  dec : FrameDecoder
  pending : List Message
  closed : Bool
  bytesIn : ℕ
  /-- What `writer.write` was given. -/
  written : Bytes
  draws : ℕ

/-- After `connect`. -/
def WSClient.init : WSClient := ⟨.init false, [], false, 0, [], 0⟩

def connectionClosed : WSError := ⟨"연결이 닫힘"⟩

def closeReceived : WSError := ⟨"상대가 close 프레임 전송"⟩

variable (urandom : ℕ → Key)

/-- The body of the loop over the decoded messages. -/
def WSClient.take (w : WSClient) (m : Message) : WSClient × Option WSError :=
  if m.opcode = OP_PING then
    match encodeFrame OP_PONG m.payload true (urandom w.draws) with
    | .error e => (w, some e)
    | .ok b => ({ w with written := w.written ++ b, draws := w.draws + 1 }, none)
  else if m.opcode = OP_PONG then (w, none)
  else if m.opcode = OP_CLOSE then ({ w with closed := true }, some closeReceived)
  else ({ w with pending := w.pending ++ [m] }, none)

theorem take_dec (w : WSClient) (m : Message) : (w.take urandom m).1.dec = w.dec := by
  unfold WSClient.take
  split
  · split <;> rfl
  · split
    · rfl
    · split <;> rfl

def WSClient.each (w : WSClient) : WSClient × Option WSError :=
  match _h : w.dec.next with
  | (none, d) => ({ w with dec := d }, none)
  | (some (.error e), d) => ({ w with dec := d }, some e)
  | (some (.ok m), d) =>
    match _ht : ({ w with dec := d } : WSClient).take urandom m with
    | (w', some e) => (w', some e)
    | (w', none) => w'.each
termination_by w.dec.buf.length
decreasing_by
  have hdec := take_dec urandom { w with dec := d } m
  rw [_ht] at hdec
  rw [hdec]
  exact next_lt _h

/-- With a chunk read, before the loop. -/
def WSClient.fed (w : WSClient) (chunk : Bytes) : WSClient :=
  { w with bytesIn := w.bytesIn + chunk.length, dec := { w.dec with buf := w.dec.buf ++ chunk } }

@[simp] theorem WSClient.fed_pending (w : WSClient) (chunk : Bytes) : (w.fed chunk).pending = w.pending := rfl

/-- `recv`: what it returns or raises, the client then, and what is left to read. -/
def WSClient.recv (w : WSClient) : List Bytes → Except WSError Message × WSClient × List Bytes
  | [] =>
    match w.pending with
    | m :: rest => (.ok m, { w with pending := rest }, [])
    | [] => (.error connectionClosed, { w with closed := true }, [])
  | chunk :: net =>
    match w.pending with
    | m :: rest => (.ok m, { w with pending := rest }, chunk :: net)
    | [] =>
      if chunk.isEmpty then (.error connectionClosed, { w with closed := true }, net)
      else
        match (w.fed chunk).each urandom with
        | (w', some e) => (.error e, w', net)
        | (w', none) => w'.recv net

theorem recv_lt {w w' : WSClient} {net net' : List Bytes} {m : Message} (h : w.recv urandom net = (.ok m, w', net')) :
    net'.length < net.length ∨ net'.length = net.length ∧ w'.pending.length < w.pending.length := by
  induction net generalizing w with
  | nil =>
    unfold WSClient.recv at h
    split at h
    · rename_i hp
      cases h
      exact .inr ⟨rfl, by simp [hp]⟩
    · cases h
  | cons chunk net ih =>
    unfold WSClient.recv at h
    split at h
    · rename_i hp
      cases h
      exact .inr ⟨rfl, by simp [hp]⟩
    · split at h
      · cases h
      · split at h
        · cases h
        · rcases ih h with hlt | ⟨heq, -⟩
          · exact .inl (Nat.lt_succ_of_lt hlt)
          · exact .inl (by simp [heq])

/-- What repeated calls of `recv` return before one raises. -/
def WSClient.received (w : WSClient) (net : List Bytes) : List Message × WSError :=
  match _h : w.recv urandom net with
  | (.error e, _, _) => ([], e)
  | (.ok m, w', net') => (m :: (w'.received net').1, (w'.received net').2)
termination_by (net.length, w.pending.length)
decreasing_by
  all_goals
    rcases recv_lt urandom _h with hlt | ⟨heq, hlt⟩
    · exact Prod.Lex.left _ _ hlt
    · rw [heq]
      exact Prod.Lex.right _ hlt

/-! ## One chunk -/

theorem next_messages {d : FrameDecoder} {m : Message} {ms : List Message} (h : d.loop.messages = m :: ms) :
    ∃ d', d.next = (some (.ok m), d') ∧ d'.loop = ⟨ms, d.loop.error, d.loop.decoder⟩ := by
  rw [loop_next] at h ⊢
  split at h
  · cases h
  · cases h
  · rename_i m' d' hn
    obtain ⟨rfl, rfl⟩ := List.cons.inj h
    exact ⟨d', hn, rfl⟩

theorem next_end {d : FrameDecoder} (h : d.loop.messages = []) (he : d.loop.error = none) :
    d.next = (none, d.loop.decoder) := by
  rw [loop_next] at h he ⊢
  split at h
  · rename_i d' hn
    rw [hn]
  · rename_i e d' hn
    rw [hn] at he
    cases he
  · cases h

theorem each_eq (w : WSClient) :
    w.each urandom = match w.dec.next with
      | (none, d) => ({ w with dec := d }, none)
      | (some (.error e), d) => ({ w with dec := d }, some e)
      | (some (.ok m), d) =>
        match ({ w with dec := d } : WSClient).take urandom m with
        | (w', some e) => (w', some e)
        | (w', none) => w'.each urandom := by
  rw [WSClient.each]
  split
  · simp [*]
  · simp [*]
  · rename_i m d hn
    simp only [hn]
    split <;> simp [*]

/-- Not a CLOSE, and no PING that is too long to be answered. -/
def Message.Quiet (m : Message) : Prop := m.opcode ≠ OP_CLOSE ∧ (m.opcode = OP_PING → m.payload.length ≤ 125)

def dataOf (ms : List Message) : List Message := ms.filter (·.opcode ∉ CONTROL_OPS)

theorem take_quiet (w : WSClient) {m : Message} (h : m.Quiet) :
    (w.take urandom m).2 = none ∧ (w.take urandom m).1.pending = w.pending ++ dataOf [m] := by
  unfold WSClient.take
  by_cases hping : m.opcode = OP_PING
  · have hlen : ¬ 125 < m.payload.length := Nat.not_lt.2 (h.2 hping)
    simp [hping, encodeFrame, hlen, dataOf, CONTROL_OPS]
  by_cases hpong : m.opcode = OP_PONG
  · simp [hpong, dataOf, CONTROL_OPS, OP_PONG, OP_PING]
  · simp [hping, hpong, h.1, dataOf, CONTROL_OPS]

/-- A chunk without a CLOSE: the data messages wait in `_pending`. -/
theorem each_quiet (w : WSClient) (he : w.dec.loop.error = none) (hq : ∀ m ∈ w.dec.loop.messages, m.Quiet) :
    ∃ w', w.each urandom = (w', none) ∧ w'.dec = w.dec.loop.decoder ∧
      w'.pending = w.pending ++ dataOf w.dec.loop.messages := by
  induction hms : w.dec.loop.messages generalizing w with
  | nil =>
    rw [each_eq, next_end hms he]
    exact ⟨_, rfl, rfl, by simp [dataOf]⟩
  | cons m ms ih =>
    obtain ⟨d', hn, hd'⟩ := next_messages hms
    rw [hms] at hq
    obtain ⟨hnone, hpend⟩ := take_quiet urandom { w with dec := d' } (hq m List.mem_cons_self)
    have hdec := take_dec urandom { w with dec := d' } m
    rw [each_eq, hn]
    dsimp only
    generalize ({ w with dec := d' } : WSClient).take urandom m = t at hnone hpend hdec
    obtain ⟨w', o⟩ := t
    cases hnone
    change w'.dec = d' at hdec
    have hloop : w'.dec.loop = ⟨ms, w.dec.loop.error, w.dec.loop.decoder⟩ := by rw [hdec, hd']
    obtain ⟨w'', heach, hdec'', hpend''⟩ := ih w' (by rw [hloop]; exact he) (by
      rw [hloop]
      exact fun x hx => hq x (List.mem_cons_of_mem m hx)) (by rw [hloop])
    refine ⟨w'', heach, by rw [hdec'', hloop], ?_⟩
    simp only at hpend
    rw [hpend'', hpend, List.append_assoc]
    simp only [dataOf, ← List.filter_append, List.singleton_append]

/-- A chunk with a CLOSE in it raises. -/
theorem each_close (w : WSClient) {ms later : List Message} {c : Message} (hms : w.dec.loop.messages = ms ++ c :: later)
    (hq : ∀ m ∈ ms, m.Quiet) (hc : c.opcode = OP_CLOSE) : (w.each urandom).2 = some closeReceived := by
  induction ms generalizing w with
  | nil =>
    obtain ⟨d', hn, -⟩ := next_messages hms
    rw [each_eq, hn]
    simp [WSClient.take, hc, OP_CLOSE, OP_PING, OP_PONG]
  | cons m ms ih =>
    obtain ⟨d', hn, hd'⟩ := next_messages hms
    obtain ⟨hnone, -⟩ := take_quiet urandom { w with dec := d' } (hq m List.mem_cons_self)
    have hdec := take_dec urandom { w with dec := d' } m
    rw [each_eq, hn]
    dsimp only
    generalize ({ w with dec := d' } : WSClient).take urandom m = t at hnone hdec
    obtain ⟨w', o⟩ := t
    cases hnone
    change w'.dec = d' at hdec
    have hloop : w'.dec.loop.messages = ms ++ c :: later := by
      rw [hdec, hd']
      rfl
    exact ih w' hloop fun x hx => hq x (List.mem_cons_of_mem m hx)

/-! ## Call by call -/

theorem received_eq_of_recv {w w' : WSClient} {net net' : List Bytes} (h : w.recv urandom net = w'.recv urandom net') :
    w.received urandom net = w'.received urandom net' := by
  rw [WSClient.received, WSClient.received]
  split <;> split <;> simp_all

theorem received_pop {w : WSClient} {m : Message} {rest : List Message} (h : w.pending = m :: rest) (net : List Bytes) :
    w.received urandom net =
      (m :: (({ w with pending := rest } : WSClient).received urandom net).1,
        (({ w with pending := rest } : WSClient).received urandom net).2) := by
  have hrecv : w.recv urandom net = (.ok m, { w with pending := rest }, net) := by
    cases net <;> simp [WSClient.recv, h]
  rw [WSClient.received]
  split
  · simp_all
  · simp_all

theorem received_pending (w : WSClient) (net : List Bytes) :
    w.received urandom net =
      (w.pending ++ (({ w with pending := [] } : WSClient).received urandom net).1,
        (({ w with pending := [] } : WSClient).received urandom net).2) := by
  induction hp : w.pending generalizing w with
  | nil =>
    have hw : ({ w with pending := [] } : WSClient) = w := by rw [← hp]
    rw [hw]
    rfl
  | cons m rest ih =>
    rw [received_pop urandom hp, ih { w with pending := rest } rfl]
    rfl

theorem feedAll_decoder {d : FrameDecoder} {data : Bytes} (h : (d.feed data).error = none) (chunks : List Bytes) :
    (d.feedAll (data :: chunks)).decoder = ((d.feed data).decoder.feedAll chunks).decoder := by
  simp [FrameDecoder.feedAll, h]

theorem feedAll_error {d : FrameDecoder} {data : Bytes} {chunks : List Bytes}
    (h : (d.feedAll (data :: chunks)).error = none) :
    (d.feed data).error = none := by
  cases hf : (d.feed data).error with
  | none => rfl
  | some e =>
    rw [feedAll_stop hf, hf] at h
    cases h

theorem feedAll_concat {d : FrameDecoder} {before : List Bytes} (h : (d.feedAll before).error = none) (last : Bytes) :
    (d.feedAll (before ++ [last])).messages = (d.feedAll before).messages ++
      ((d.feedAll before).decoder.feed last).messages := by
  induction before generalizing d with
  | nil => cases hf : (d.feed last).error <;> simp [FrameDecoder.feedAll, hf]
  | cons data before ih =>
    have hfeed := feedAll_error h
    obtain ⟨hm, he⟩ := feedAll_next hfeed before
    rw [List.cons_append, (feedAll_next hfeed _).1, hm, feedAll_decoder hfeed, ih (he ▸ h), List.append_assoc]

theorem dataOf_append (a b : List Message) : dataOf (a ++ b) = dataOf a ++ dataOf b := List.filter_append a b

/-- Chunks without a CLOSE: their data messages are returned, and then those of what comes after them. -/
theorem received_chunks (w : WSClient) (before after : List Bytes) (hne : ∀ c ∈ before, c ≠ [])
    (he : (w.dec.feedAll before).error = none) (hq : ∀ m ∈ (w.dec.feedAll before).messages, m.Quiet) :
    ∃ w' : WSClient, w'.pending = [] ∧ w'.dec = (w.dec.feedAll before).decoder ∧ w.received urandom (before ++ after) =
      (w.pending ++ dataOf (w.dec.feedAll before).messages ++ (w'.received urandom after).1,
        (w'.received urandom after).2) := by
  induction before generalizing w with
  | nil =>
    refine ⟨{ w with pending := [] }, rfl, rfl, ?_⟩
    rw [List.nil_append, received_pending]
    simp [FrameDecoder.feedAll, dataOf]
  | cons c before ih =>
    have hfeed := feedAll_error he
    obtain ⟨hm, herr⟩ := feedAll_next hfeed before
    rw [hm] at hq ⊢
    rw [herr] at he
    rw [feedAll_decoder hfeed]
    obtain ⟨w₁, heach, hdec, hpend⟩ := each_quiet urandom (({ w with pending := [] } : WSClient).fed c) hfeed
      fun m hmem => hq m (List.mem_append_left _ hmem)
    change w₁.dec = (w.dec.feed c).decoder at hdec
    change w₁.pending = dataOf (w.dec.feed c).messages at hpend
    have hrecv : ({ w with pending := [] } : WSClient).recv urandom (c :: (before ++ after)) = w₁.recv urandom
        (before ++ after) := by
      have hc : c.isEmpty = false := by simpa using hne c List.mem_cons_self
      simp [WSClient.recv, hc, heach]
    obtain ⟨w', hp', hd', hrec⟩ := ih w₁ (fun x hx => hne x (List.mem_cons_of_mem c hx)) (by rwa [hdec])
      fun m hmem => hq m (List.mem_append_right _ (by rwa [hdec] at hmem))
    refine ⟨w', hp', by rw [hd', hdec], ?_⟩
    rw [List.cons_append, received_pending, received_eq_of_recv urandom hrecv, hrec, hpend, hdec, dataOf_append]
    simp only [List.append_assoc]

/-- The chunk with the CLOSE: its own data messages are not returned. -/
theorem received_close (w : WSClient) (hp : w.pending = []) {last : Bytes} (hne : last ≠ [])
    {ms : List Message} {c : Message}
    (hms : (w.dec.feed last).messages = ms ++ [c]) (hq : ∀ m ∈ ms, m.Quiet) (hc : c.opcode = OP_CLOSE) :
    w.received urandom [last] = ([], closeReceived) := by
  have heach := each_close urandom (w.fed last) hms hq hc
  have hl : last.isEmpty = false := by simpa using hne
  obtain ⟨w', hrecv⟩ : ∃ w', w.recv urandom [last] = (.error closeReceived, w', []) := by
    cases ht : (w.fed last).each urandom with
    | mk w' o =>
      rw [ht] at heach
      cases heach
      exact ⟨w', by simp [WSClient.recv, hp, hl, ht]⟩
  rw [WSClient.received]
  split
  · simp_all
  · simp_all

/-! ## What has arrived of the stream -/

/-- The frames that are within the first `n` bytes. -/
def arrived (mask : Bool) : ℕ → List Sent → List Sent
  | _, [] => []
  | n, s :: sent => if (s.bytes mask).length ≤ n then s :: arrived mask (n - (s.bytes mask).length) sent else []

theorem frames_take (mask : Bool) (sent : List Sent) (n : ℕ) :
    frames mask ((sent.flatMap (Sent.bytes mask)).take n) = (arrived mask n sent).map Sent.event := by
  induction sent generalizing n with
  | nil =>
    rw [List.flatMap_nil, List.take_nil, frames, Scan.read_wait _ (by cases mask <;> rfl)]
    rfl
  | cons s sent ih =>
    rw [List.flatMap_cons, arrived]
    split
    · rename_i hle
      rw [List.take_append, List.take_of_length_le hle, frames, Scan.read_take _ (look_bytes mask s _), List.drop_left,
        List.map_cons, ← ih]
      rfl
    · rename_i hlt
      -- a frame that could be read off a part of its bytes would be read off all of them, and is longer
      have hlook : (reader mask).look ((s.bytes mask ++ sent.flatMap (Sent.bytes mask)).take n) = none := by
        by_contra hsome
        obtain ⟨v, hv⟩ := Option.ne_none_iff_exists'.1 hsome
        have hstable := (reader mask).stable hv ((s.bytes mask ++ sent.flatMap (Sent.bytes mask)).drop n)
        rw [List.take_append_drop, look_bytes] at hstable
        cases hstable
        have hpos := ((reader mask).pos hv).2
        rw [List.length_take] at hpos
        omega
      rw [frames, Scan.read_wait _ hlook]
      rfl

theorem arrived_append (mask : Bool) (n : ℕ) (a b : List Sent) :
    arrived mask n (a ++ b) = if (a.flatMap (Sent.bytes mask)).length ≤ n then
      a ++ arrived mask (n - (a.flatMap (Sent.bytes mask)).length) b
      else arrived mask n a := by
  induction a generalizing n with
  | nil => simp
  | cons s a ih =>
    rw [List.cons_append, arrived, arrived, List.flatMap_cons, List.length_append]
    by_cases h : (s.bytes mask).length ≤ n
    · rw [if_pos h, if_pos h, ih]
      by_cases h' : (a.flatMap (Sent.bytes mask)).length ≤ n - (s.bytes mask).length
      · rw [if_pos h', if_pos (by omega), Nat.sub_sub, List.cons_append]
      · rw [if_neg h', if_neg (by omega)]
    · rw [if_neg h, if_neg h, if_neg (by omega)]

theorem arrived_isPrefix (mask : Bool) (n : ℕ) (sent : List Sent) : arrived mask n sent <+: sent := by
  induction sent generalizing n with
  | nil => exact List.nil_prefix
  | cons s sent ih =>
    rw [arrived]
    split
    · exact (List.cons_prefix_cons).2 ⟨rfl, ih _⟩
    · exact List.nil_prefix

/-- Short of its end, the last frame has not arrived. -/
theorem arrived_dropLast {mask : Bool} {n : ℕ} {sent : List Sent} (h : n < (sent.flatMap (Sent.bytes mask)).length) :
    arrived mask n sent = arrived mask n sent.dropLast := by
  induction sent generalizing n with
  | nil => exact absurd h (Nat.not_lt_zero n)
  | cons s sent ih =>
    rw [List.flatMap_cons, List.length_append] at h
    by_cases hle : (s.bytes mask).length ≤ n
    · have hlt : n - (s.bytes mask).length < (sent.flatMap (Sent.bytes mask)).length := by omega
      have hne : sent ≠ [] := by
        rintro rfl
        exact absurd hlt (Nat.not_lt_zero _)
      rw [List.dropLast_cons_of_ne_nil hne, arrived, arrived, if_pos hle, if_pos hle, ih hlt]
    · cases sent <;> simp [arrived, hle]

/-- Not the frame that completes a data message. -/
def Unfinished : Event → Prop
  | .bad _ => True
  | .frame f => f.opcode ∈ CONTROL_OPS ∨ f.fin = false

theorem decode_unfinished (frag : Frag) {events : List Event} (h : ∀ e ∈ events, Unfinished e) :
    dataOf (decode frag events).messages = [] := by
  induction events generalizing frag with
  | nil => rfl
  | cons e events ih =>
    have hlater := fun frag' => ih frag' fun x hx => h x (List.mem_cons_of_mem e hx)
    cases e with
    | bad e => rfl
    | frame f =>
      have hf : Unfinished (.frame f) := h _ List.mem_cons_self
      cases hh : handle frag f with
      | error e => rw [decode_frame_error hh]; rfl
      | ok v =>
        obtain ⟨out, frag'⟩ := v
        rw [decode_frame_ok hh, Decoded.after, dataOf_append, hlater frag', List.append_nil]
        unfold handle at hh
        by_cases hc : f.opcode ∈ CONTROL_OPS
        · rw [if_pos hc] at hh
          cases hh
          simp [dataOf, hc]
        · have hfin : f.fin = false := hf.resolve_left hc
          simp only [hc, hfin, if_false, Bool.false_eq_true] at hh
          split at hh
          · split at hh
            · cases hh
            · cases hh
              rfl
          · cases hh
            rfl

theorem ControlFrame.unfinished (c : ControlFrame) : Unfinished c.sent.event := by
  have hop : Frame.opcode ⟨firstByte true c.opcode, c.payload⟩ = c.opcode := control_bits c.opcode c.control
  exact .inl (hop ▸ c.control)

theorem unfinished_fragment {op : UInt8} (hop : op ∈ [OP_CONT, OP_TEXT, OP_BINARY]) (f : Fragment) :
    Unfinished (Sent.event ⟨false, op, f.payload, f.key, f.fits⟩) :=
  .inr (data_bits false op hop).2

theorem unfinished_continuations (rest : List (List ControlFrame × Fragment)) :
    ∀ s ∈ (continuations rest).dropLast, Unfinished s.event := by
  induction rest with
  | nil => simp [continuations]
  | cons part rest ih =>
    obtain ⟨controls, f⟩ := part
    intro s hs
    rw [continuations, List.dropLast_append_of_ne_nil (List.cons_ne_nil _ _), List.mem_append] at hs
    rcases hs with hs | hs
    · obtain ⟨c, -, rfl⟩ := List.mem_map.1 hs
      exact c.unfinished
    · cases rest with
      | nil => simp [continuations] at hs
      | cons part' rest =>
        have hne : continuations (part' :: rest) ≠ [] := by simp [continuations]
        rw [List.dropLast_cons_of_ne_nil hne] at hs
        rcases List.mem_cons.1 hs with rfl | hs
        · exact unfinished_fragment (by decide) f
        · exact ih s hs

/-- Before its last frame nothing of an item is a data message. -/
theorem Item.unfinished (item : Item) : ∀ s ∈ item.sent.dropLast, Unfinished s.event := by
  intro s hs
  cases item with
  | control c => simp [Item.sent] at hs
  | data m =>
    rw [Item.sent, DataMessage.sent] at hs
    cases hrest : m.rest with
    | nil => simp [hrest, continuations] at hs
    | cons part rest =>
      have hne : continuations m.rest ≠ [] := by simp [hrest, continuations]
      rw [List.dropLast_cons_of_ne_nil hne] at hs
      rcases List.mem_cons.1 hs with rfl | hs
      · have hop : m.opcode ∈ [OP_CONT, OP_TEXT, OP_BINARY] := by
          rcases m.data with h | h <;> rw [h] <;> decide
        rw [hrest]
        exact unfinished_fragment hop m.first
      · exact unfinished_continuations m.rest s hs

/-! ## The data messages of a stream, and where each is complete -/

def Item.dataMessages : Item → List Message
  | .control _ => []
  | .data m => [⟨m.opcode, m.payload⟩]

/-- Every data message with the number of bytes up to its end; `start` bytes are before the items. -/
def complete (start : ℕ) : List Item → List (ℕ × Message)
  | [] => []
  | item :: items =>
    item.dataMessages.map (start + (bytes false [item]).length, ·) ++
      complete (start + (bytes false [item]).length) items

theorem dataOf_messages (item : Item) : dataOf item.messages = item.dataMessages := by
  cases item with
  | control c => simp [Item.messages, Item.dataMessages, dataOf, ControlFrame.message, c.control]
  | data m =>
    have hdata : m.opcode ∉ CONTROL_OPS := by
      rcases m.data with h | h <;> rw [h] <;> decide
    have hcontrols : dataOf (m.rest.flatMap fun part => part.1.map ControlFrame.message) = [] := by
      rw [dataOf, List.filter_eq_nil_iff]
      intro x hx
      obtain ⟨part, -, hx⟩ := List.mem_flatMap.1 hx
      obtain ⟨c, -, rfl⟩ := List.mem_map.1 hx
      simp [ControlFrame.message, c.control]
    rw [Item.messages, dataOf_append, hcontrols]
    simp [dataOf, hdata, Item.dataMessages]

theorem complete_ge {start : ℕ} {items : List Item} : ∀ e ∈ complete start items, start ≤ e.1 := by
  induction items generalizing start with
  | nil => simp [complete]
  | cons item items ih =>
    intro e he
    rcases List.mem_append.1 he with he | he
    · obtain ⟨m, -, rfl⟩ := List.mem_map.1 he
      exact Nat.le_add_right _ _
    · exact Nat.le_trans (Nat.le_add_right _ _) (ih e he)

/-- Of the first bytes of a stream the decoder makes the data messages that are complete in them. -/
theorem dataOf_arrived (items : List Item) (start n : ℕ) :
    dataOf (decode ⟨0, []⟩ ((arrived false n (items.flatMap Item.sent)).map Sent.event)).messages =
      ((complete start items).filter (·.1 ≤ start + n)).map Prod.snd := by
  induction items generalizing start n with
  | nil => rfl
  | cons item items ih =>
    have hbytes : (bytes false [item]) = item.sent.flatMap (Sent.bytes false) := by simp [bytes]
    rw [List.flatMap_cons, arrived_append, complete, hbytes, List.filter_append, List.map_append]
    have hpart (h : ¬ (item.sent.flatMap (Sent.bytes false)).length ≤ n) :
        dataOf (decode ⟨0, []⟩ ((arrived false n item.sent).map Sent.event)).messages = [] := by
      refine decode_unfinished _ fun e he => ?_
      rw [arrived_dropLast (Nat.lt_of_not_le h)] at he
      obtain ⟨s, hs, rfl⟩ := List.mem_map.1 he
      exact item.unfinished s ((arrived_isPrefix _ _ _).subset hs)
    generalize (item.sent.flatMap (Sent.bytes false)).length = len at hpart ⊢
    by_cases h : len ≤ n
    · have hpos : start + len + (n - len) = start + n := by omega
      rw [if_pos h, List.map_append, decode_item, Decoded.after, dataOf_append, dataOf_messages, ih (start + len),
        hpos, List.filter_map]
      simp [h, Function.comp_def]
    · have hlater : (complete (start + len) items).filter (·.1 ≤ start + n) = [] := by
        rw [List.filter_eq_nil_iff]
        intro e he
        have := complete_ge e he
        simp only [decide_eq_true_eq]
        omega
      rw [if_neg h, hpart h, hlater, List.filter_map]
      simp [h, Function.comp_def]

/-! ## A server that closes -/

/-- Complete messages, and then a CLOSE. -/
structure Closing where
  items : List Item
  close : ControlFrame
  closes : close.opcode = OP_CLOSE
  before : ∀ item ∈ items, ∀ m ∈ item.messages, m.opcode ≠ OP_CLOSE

def Closing.sent (s : Closing) : List Sent := s.items.flatMap Item.sent ++ [s.close.sent]

def Closing.stream (s : Closing) : Bytes := bytes false (s.items ++ [.control s.close])

/-- Where the data messages end in the stream. -/
def Closing.ends (s : Closing) : List ℕ := (complete 0 s.items).map Prod.fst

/-- A way to read a stream: `reader.read` returns at least a byte before the end. -/
structure Reads (stream : Bytes) where
  chunks : List Bytes
  whole : chunks.flatten = stream
  filled : ∀ c ∈ chunks, c ≠ []

/-- Where the last read starts. -/
def Reads.lastRead {stream : Bytes} (r : Reads stream) : ℕ := r.chunks.dropLast.flatten.length

theorem Closing.stream_eq (s : Closing) : s.stream = s.sent.flatMap (Sent.bytes false) := by
  simp [Closing.stream, Closing.sent, bytes, Item.sent]

theorem item_quiet (item : Item) (h : ∀ m ∈ item.messages, m.opcode ≠ OP_CLOSE) : ∀ m ∈ item.messages, m.Quiet := by
  refine fun m hm => ⟨h m hm, fun hping => ?_⟩
  cases item with
  | control c =>
    obtain rfl := List.mem_singleton.1 hm
    exact c.short
  | data d =>
    rcases List.mem_append.1 hm with hm | hm
    · obtain ⟨part, -, hm⟩ := List.mem_flatMap.1 hm
      obtain ⟨c, -, rfl⟩ := List.mem_map.1 hm
      exact c.short
    · obtain rfl := List.mem_singleton.1 hm
      rcases d.data with hd | hd <;> simp [hd, OP_TEXT, OP_BINARY, OP_PING] at hping

theorem Closing.quiet (s : Closing) : ∀ m ∈ s.items.flatMap Item.messages, m.Quiet := by
  intro m hm
  obtain ⟨item, hitem, hm⟩ := List.mem_flatMap.1 hm
  exact item_quiet item (s.before item hitem) m hm

/-- The frames before the cut make some of the messages, and nothing else. -/
theorem Closing.some_messages (s : Closing)
    {events : List Event} (h : events <+: (s.items.flatMap Item.sent).map Sent.event) :
    (decode ⟨0, []⟩ events).error = none ∧ (decode ⟨0, []⟩ events).messages <+: s.items.flatMap Item.messages := by
  obtain ⟨later, hlater⟩ := h
  have hall := decode_items s.items
  rw [← hlater, decode_append] at hall
  split at hall
  · rename_i herr
    rw [hall] at herr
    cases herr
  · rename_i herr
    have hmessages := congrArg Decoded.messages hall
    exact ⟨by simpa using herr, _, hmessages⟩

theorem Reads.split {stream : Bytes} (r : Reads stream) (h : stream ≠ []) :
    ∃ before last, r.chunks = before ++ [last] ∧ last ≠ [] ∧ before.flatten ++ last = stream ∧
      r.lastRead = before.flatten.length := by
  have hne : r.chunks ≠ [] := by
    intro hnil
    exact h (by rw [← r.whole, hnil]; rfl)
  have hlast := List.dropLast_append_getLast hne
  refine ⟨r.chunks.dropLast, r.chunks.getLast hne, hlast.symm, r.filled _ (List.getLast_mem hne), ?_, rfl⟩
  have hwhole := r.whole
  rw [← hlast] at hwhole
  simpa using hwhole

theorem Closing.stream_ne_nil (s : Closing) : s.stream ≠ [] := by
  have hpos : 0 < (s.close.sent.bytes false).length := ((reader false).pos (look_bytes false s.close.sent [])).1
  intro hnil
  have hlen := congrArg List.length (s.stream_eq.symm.trans hnil)
  rw [Closing.sent, List.flatMap_append, List.flatMap_singleton, List.length_append, List.length_nil] at hlen
  omega

/-- The bytes before the last read: their frames are among those before the CLOSE. -/
theorem Closing.frames_before (s : Closing) {before last : Bytes} (h : before ++ last = s.stream) (hne : last ≠ []) :
    frames false before = (arrived false before.length (s.items.flatMap Item.sent)).map Sent.event := by
  have htake : before = (s.sent.flatMap (Sent.bytes false)).take before.length := by
    rw [← s.stream_eq, ← h, List.take_left]
  have hlt : before.length < (s.sent.flatMap (Sent.bytes false)).length := by
    have hpos := List.length_pos_iff.2 hne
    rw [← s.stream_eq, ← h, List.length_append]
    omega
  have hframes := frames_take false s.sent before.length
  rw [← htake, arrived_dropLast hlt, Closing.sent, List.dropLast_concat] at hframes
  exact hframes

theorem Closing.decoded (s : Closing) (chunks : List Bytes) (h : chunks.flatten = s.stream) :
    ((FrameDecoder.init false).feedAll chunks).messages = s.items.flatMap Item.messages ++ [s.close.message] := by
  have hall := (messages_arrive false (s.items ++ [Item.control s.close]) chunks h).2.1
  rw [hall, List.flatMap_append, List.flatMap_singleton]
  rfl

/-- **What is returned before the error: the data messages that are complete before the last read.** -/
theorem received_eq (s : Closing) (r : Reads s.stream) :
    WSClient.init.received urandom r.chunks = (((complete 0 s.items).filter (·.1 ≤ r.lastRead)).map Prod.snd,
      closeReceived) := by
  obtain ⟨before, last, hchunks, hlast, hstream, hread⟩ := r.split s.stream_ne_nil
  have hevents := s.frames_before hstream hlast
  obtain ⟨herr, hpre⟩ := s.some_messages ((arrived_isPrefix false before.flatten.length _).map Sent.event)
  obtain ⟨hm, he⟩ := feedAll_eq (.init false) (init_idle false) before
  change _ = (decode ⟨0, []⟩ (frames false before.flatten)).messages at hm
  change _ = (decode ⟨0, []⟩ (frames false before.flatten)).error at he
  rw [hevents] at hm he
  rw [herr] at he
  have hdata := dataOf_arrived s.items 0 before.flatten.length
  rw [← hm] at hpre hdata
  have hquiet : ∀ m ∈ ((FrameDecoder.init false).feedAll before).messages, m.Quiet :=
    fun m hmem => s.quiet m (hpre.subset hmem)
  have hne : ∀ c ∈ before, c ≠ [] := fun c hc => r.filled c (by rw [hchunks]; exact List.mem_append_left _ hc)
  obtain ⟨w', hpend, hdec, hreceived⟩ := received_chunks urandom WSClient.init before [last] hne he hquiet
  -- the CLOSE is the last message, and not one of those before the last read
  obtain ⟨ms, hms, hitems⟩ : ∃ ms, (w'.dec.feed last).messages = ms ++ [s.close.message] ∧
      s.items.flatMap Item.messages = ((FrameDecoder.init false).feedAll before).messages ++ ms := by
    have hall := s.decoded (before ++ [last]) (by simpa using hstream)
    rw [feedAll_concat he last] at hall
    rw [hdec]
    rcases List.append_eq_append_iff.1 hall with ⟨ms, hitems, hms⟩ | ⟨ms, hitems, hms⟩
    · exact ⟨ms, hms, hitems⟩
    · have hclose : s.close.message ∉ ms := fun hmem =>
        (hquiet s.close.message (by rw [hitems]; exact List.mem_append_right _ hmem)).1 s.closes
      cases ms with
      | nil => exact ⟨[], hms.symm, by rw [hitems, List.append_nil, List.append_nil]⟩
      | cons m ms =>
        rw [List.cons_append] at hms
        exact absurd ((List.cons.inj hms).1 ▸ List.mem_cons_self) hclose
  have hlate : ∀ m ∈ ms, m.Quiet := fun m hmem => s.quiet m (by rw [hitems]; exact List.mem_append_right _ hmem)
  rw [hchunks, hreceived, received_close urandom w' hpend hlast hms hlate s.closes, hread]
  change (dataOf ((FrameDecoder.init false).feedAll before).messages ++ [], closeReceived) = _
  rw [List.append_nil, hdata, Nat.zero_add]

theorem countP_eq_of_imp {α : Type} {p q : α → Bool} {l : List α} (hpq : ∀ x ∈ l, p x → q x)
    (h : l.countP p = l.countP q) :
    ∀ x ∈ l, q x → p x := by
  induction l with
  | nil => simp
  | cons y l ih =>
    have hmono := List.countP_mono_left fun x hx => hpq x (List.mem_cons_of_mem y hx)
    have hy := hpq y List.mem_cons_self
    rw [List.countP_cons, List.countP_cons] at h
    intro x hx hqx
    rcases List.mem_cons.1 hx with rfl | hx
    · by_contra hpx
      simp only [hpx, hqx, if_true, if_false] at h
      omega
    · refine ih (fun z hz => hpq z (List.mem_cons_of_mem y hz)) ?_ x hx hqx
      have hle : (if p y then 1 else 0 : ℕ) ≤ if q y then 1 else 0 := by
        by_cases hp : p y
        · simp [hp, hy hp]
        · simp [hp]
      omega

/-- Up to two places there is the same exactly when nothing is between them. -/
theorem filter_le_eq_iff {α : Type} (l : List (ℕ × α)) (a b : ℕ) :
    (l.filter (·.1 ≤ a)).map Prod.snd = (l.filter (·.1 ≤ b)).map Prod.snd ↔ ∀ e ∈ l.map Prod.fst, e ≤ a ↔ e ≤ b := by
  constructor
  · intro h e he
    have hcount : l.countP (·.1 ≤ a) = l.countP (·.1 ≤ b) := by
      simpa [List.countP_eq_length_filter] using congrArg List.length h
    obtain ⟨x, hx, rfl⟩ := List.mem_map.1 he
    rcases Nat.le_total a b with hab | hba
    · have himp := countP_eq_of_imp (fun y _ hy => by simp only [decide_eq_true_eq] at hy ⊢; omega) hcount x hx
      simp only [decide_eq_true_eq] at himp
      exact ⟨fun hxa => Nat.le_trans hxa hab, himp⟩
    · have himp := countP_eq_of_imp (fun y _ hy => by simp only [decide_eq_true_eq] at hy ⊢; omega) hcount.symm x hx
      simp only [decide_eq_true_eq] at himp
      exact ⟨himp, fun hxb => Nat.le_trans hxb hba⟩
  · intro h
    rw [List.filter_congr fun x hx => decide_eq_decide.2 (h x.1 (List.mem_map_of_mem hx))]

/-- **Two ways to read a stream give the same messages exactly when no data message ends between the starts of their
last reads.** -/
theorem recv_segmentation (s : Closing) (r₁ r₂ : Reads s.stream) :
    (WSClient.init.received urandom r₁.chunks).1 = (WSClient.init.received urandom r₂.chunks).1 ↔
      ∀ e ∈ s.ends, e ≤ r₁.lastRead ↔ e ≤ r₂.lastRead := by
  rw [received_eq, received_eq]
  exact filter_le_eq_iff (complete 0 s.items) r₁.lastRead r₂.lastRead

def noKey : Key := ⟨[0, 0, 0, 0], rfl⟩

/-- `Hi` and a CLOSE. -/
def greeting : Closing where
  items := [.data ⟨OP_TEXT, ⟨[0x48, 0x69], noKey, by decide⟩, [], .inl rfl⟩]
  close := ⟨OP_CLOSE, [], noKey, by decide, by decide⟩
  closes := rfl
  before := by simp [Item.messages, OP_TEXT, OP_CLOSE]

/-- In one read with the CLOSE the text does not come out; read apart it does. -/
theorem lost_with_close : ∃ r₁ r₂ : Reads greeting.stream,
    r₁.chunks = [[0x81, 0x02, 0x48, 0x69, 0x88, 0x00]] ∧ r₂.chunks = [[0x81, 0x02, 0x48, 0x69], [0x88, 0x00]] ∧
    WSClient.init.received (fun _ => noKey) r₁.chunks = ([], closeReceived) ∧
    WSClient.init.received (fun _ => noKey) r₂.chunks = ([⟨OP_TEXT, [0x48, 0x69]⟩], closeReceived) := by
  refine ⟨⟨_, by decide, by decide⟩, ⟨_, by decide, by decide⟩, rfl, rfl, ?_, ?_⟩
  · rw [received_eq]
    decide
  · rw [received_eq]
    decide

end Ws
