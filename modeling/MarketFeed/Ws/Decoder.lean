import MarketFeed.Ws.Frame
/-!
# What a decoder makes of a stream (src/mdfeed/wsproto.py:1-18, :70-148)

`frames` cuts a stream into its frames: one that is over the length limit or masked the wrong way is known
by its header, any other one when all of it has arrived. `decode` is what the decoder does with them,
wherever the chunks were cut (`feedAll_eq`), and `accept` is what the rules say: no reserved bits or
opcodes, no control frame longer than 125 bytes or in fragments, no continuation without a message and no
new data frame inside one, no frame over the limit or masked the wrong way.

The decoder checks the last two and the continuation. The other rules are not checked, so a stream that
breaks only those is decoded as if it broke none (`rules_kept_iff`).
-/

namespace Ws

open Mdfp (getBe slice slice_append slice_length)
open Gateway (Bytes)

/-! ## Cutting the stream -/

inductive Event
  | frame (f : Frame)
  | bad (e : WSError)
  deriving DecidableEq

def look (expectMasked : Bool) (b : Bytes) : Option (Option Event × ℕ) :=
  match parse expectMasked b with
  | .wait => none
  | .raise e => some (some (.bad e), 2)
  | .item f n => some (some (.frame f), n)

theorem look_wait {expectMasked : Bool} {b : Bytes} (h : parse expectMasked b = .wait) :
    look expectMasked b = none := by
  rw [look, h]

theorem look_raise {expectMasked : Bool} {b : Bytes} {e : WSError} (h : parse expectMasked b = .raise e) :
    look expectMasked b = some (some (.bad e), 2) := by
  rw [look, h]

theorem look_item {expectMasked : Bool} {b : Bytes} {f : Frame} {n : ℕ} (h : parse expectMasked b = .item f n) :
    look expectMasked b = some (some (.frame f), n) := by
  rw [look, h]

theorem getD_append {b : Bytes} {i : ℕ} (h : i < b.length) (c : Bytes) : (b ++ c).getD i 0 = b.getD i 0 := by
  simp only [List.getD_eq_getElem?_getD, List.getElem?_append_left h]

/-- The length field is in the bytes up to `off`. -/
theorem lengthAt_spec {b : Bytes} {length off : ℕ} (h : lengthAt b = some (length, off)) :
    2 ≤ off ∧ off ≤ b.length ∧ ∀ c, lengthAt (b ++ c) = some (length, off) := by
  unfold lengthAt at h
  split at h
  · cases h
  · rename_i h2
    have hget (c : Bytes) : (b ++ c).getD 1 0 = b.getD 1 0 := getD_append (by omega) c
    have hlen (c : Bytes) : ¬(b ++ c).length < 2 := by
      rw [List.length_append]
      omega
    simp only at h
    split at h
    · rename_i h126
      split at h
      · cases h
      · rename_i h4
        cases h
        refine ⟨by omega, by omega, fun c => ?_⟩
        have h4' : ¬(b ++ c).length < 4 := by
          rw [List.length_append]
          omega
        simp only [lengthAt, if_neg (hlen c), hget, if_pos h126, if_neg h4', slice_append (Nat.not_lt.1 h4)]
    · rename_i h126
      split at h
      · rename_i h127
        split at h
        · cases h
        · rename_i h10
          cases h
          refine ⟨by omega, by omega, fun c => ?_⟩
          have h10' : ¬(b ++ c).length < 10 := by
            rw [List.length_append]
            omega
          simp only [lengthAt, if_neg (hlen c), hget, if_neg h126, if_pos h127, if_neg h10',
            slice_append (Nat.not_lt.1 h10)]
      · rename_i h127
        cases h
        refine ⟨by omega, by omega, fun c => ?_⟩
        simp only [lengthAt, if_neg (hlen c), hget, if_neg h126, if_neg h127]

theorem parse_stable {expectMasked : Bool} {b : Bytes} (h : parse expectMasked b ≠ .wait) (c : Bytes) :
    2 ≤ b.length ∧ parse expectMasked (b ++ c) = parse expectMasked b := by
  unfold parse at h ⊢
  cases hl : lengthAt b with
  | none => simp [hl] at h
  | some v =>
    obtain ⟨length, off⟩ := v
    obtain ⟨hoff, hle, happ⟩ := lengthAt_spec hl
    have hmask : maskedAt (b ++ c) = maskedAt b := by
      unfold maskedAt
      rw [getD_append (by omega)]
    have hb0 : (b ++ c).getD 0 0 = b.getD 0 0 := getD_append (by omega) c
    simp only [hl] at h
    simp only [happ c, hmask, hb0, List.length_append]
    refine ⟨by omega, ?_⟩
    by_cases hmax : MAX_FRAME < length
    · rw [if_pos hmax, if_pos hmax]
    rw [if_neg hmax] at h
    rw [if_neg hmax, if_neg hmax]
    by_cases hexp : maskedAt b ≠ expectMasked
    · rw [if_pos hexp, if_pos hexp]
    rw [if_neg hexp] at h
    rw [if_neg hexp, if_neg hexp]
    cases hm : maskedAt b with
    | false =>
      simp only [hm, Bool.false_eq_true, if_false] at h ⊢
      have hall : ¬b.length < off + length := fun hlt => h (if_pos hlt)
      rw [if_neg hall, if_neg (by omega), slice_append (Nat.not_lt.1 hall)]
    | true =>
      simp only [hm, if_true] at h ⊢
      have hkey : ¬b.length < off + 4 := fun hlt => h (if_pos hlt)
      rw [if_neg hkey] at h
      have hall : ¬b.length < off + 4 + length := fun hlt => h (if_pos hlt)
      rw [if_neg hkey, if_neg hall, if_neg (by omega), if_neg (by omega), slice_append (Nat.not_lt.1 hkey),
        slice_append (Nat.not_lt.1 hall)]

theorem look_pos {expectMasked : Bool} {b : Bytes} {o : Option Event} {n : ℕ} (h : look expectMasked b = some (o, n)) :
    0 < n ∧ n ≤ b.length := by
  have hstable := @parse_stable expectMasked b
  cases hp : parse expectMasked b with
  | wait =>
    rw [look_wait hp] at h
    cases h
  | raise e =>
    rw [look_raise hp] at h
    cases h
    exact ⟨Nat.two_pos, (hstable (by simp [hp]) []).1⟩
  | item f n' =>
    rw [look_item hp] at h
    cases h
    have := parse_item hp
    omega

theorem look_stable {expectMasked : Bool} {b : Bytes} {v : Option Event × ℕ} (h : look expectMasked b = some v)
    (c : Bytes) :
    look expectMasked (b ++ c) = some v := by
  have hstable := @parse_stable expectMasked b
  cases hp : parse expectMasked b with
  | wait =>
    rw [look_wait hp] at h
    cases h
  | raise e =>
    rw [look_raise hp] at h
    rw [look_raise ((hstable (by simp [hp]) c).2.trans hp), h]
  | item f n' =>
    rw [look_item hp] at h
    rw [look_item ((hstable (by simp [hp]) c).2.trans hp), h]

def reader (expectMasked : Bool) : Scan.Reader UInt8 Event := ⟨look expectMasked, look_pos, look_stable⟩

/-- The frames of a stream. -/
def frames (expectMasked : Bool) (stream : Bytes) : List Event := ((reader expectMasked).read stream).1

/-! ## What the decoder does with the frames -/

structure Decoded where
  messages : List Message
  error : Option WSError
  frag : Frag
  deriving DecidableEq

/-- `r`, with messages before it. -/
def Decoded.after (r : Decoded) (messages : List Message) : Decoded := { r with messages := messages ++ r.messages }

def decode (frag : Frag) : List Event → Decoded
  | [] => ⟨[], none, frag⟩
  | .bad e :: _ => ⟨[], some e, frag⟩
  | .frame f :: later =>
    match handle frag f with
    | .error e => ⟨[], some e, frag⟩
    | .ok (out, frag') => (decode frag' later).after out.toList

@[simp] theorem decode_nil (frag : Frag) : decode frag [] = ⟨[], none, frag⟩ := rfl

@[simp] theorem decode_bad (frag : Frag) (e : WSError) (later : List Event) :
    decode frag (.bad e :: later) = ⟨[], some e, frag⟩ :=
  rfl

theorem decode_frame_error {frag : Frag} {f : Frame} {e : WSError} (h : handle frag f = .error e) (later : List Event) :
    decode frag (.frame f :: later) = ⟨[], some e, frag⟩ := by
  simp only [decode, h]

theorem decode_frame_ok {frag frag' : Frag} {f : Frame} {out : Option Message} (h : handle frag f = .ok (out, frag'))
    (later : List Event) :
    decode frag (.frame f :: later) = (decode frag' later).after out.toList := by
  simp only [decode, h]

theorem decode_append (frag : Frag) (before later : List Event) :
    decode frag (before ++ later) = if (decode frag before).error.isSome then decode frag before
      else (decode (decode frag before).frag later).after (decode frag before).messages := by
  induction before generalizing frag with
  | nil => rfl
  | cons e before ih =>
    cases e with
    | bad e => rfl
    | frame f =>
      rw [List.cons_append]
      cases hf : handle frag f with
      | error e => simp [decode_frame_error hf]
      | ok v =>
        rw [decode_frame_ok hf, decode_frame_ok hf, ih v.2]
        cases herr : (decode v.2 before).error <;> simp [Decoded.after, herr]

theorem loop_spec (d : FrameDecoder) :
    d.loop.messages = (decode d.frag (frames d.expectMasked d.buf)).messages ∧
    d.loop.error = (decode d.frag (frames d.expectMasked d.buf)).error ∧
    (d.loop.error = none → d.loop.decoder =
      ⟨((reader d.expectMasked).read d.buf).2, d.expectMasked, (decode d.frag (frames d.expectMasked d.buf)).frag⟩)
        := by
  induction hlen : d.buf.length using Nat.strongRecOn generalizing d with
  | ind k ih =>
    rw [FrameDecoder.loop]
    split
    · rename_i hp
      have hlook : (reader d.expectMasked).look d.buf = none := look_wait hp
      simp [frames, Scan.read_wait _ hlook]
    · rename_i e hp
      have hlook : (reader d.expectMasked).look d.buf = some (some (.bad e), 2) := look_raise hp
      simp [frames, Scan.read_take _ hlook]
    · rename_i f n hp
      have hlook : (reader d.expectMasked).look d.buf = some (some (.frame f), n) := look_item hp
      have hn := parse_item hp
      simp only [frames, Scan.read_take _ hlook, Option.toList_some, List.singleton_append]
      cases hf : handle d.frag f with
      | error e => simp [decode_frame_error hf]
      | ok v =>
        rw [decode_frame_ok hf]
        obtain ⟨hm, he, hd⟩ := ih (d.buf.drop n).length (by rw [List.length_drop]; omega)
          { d with buf := d.buf.drop n, frag := v.2 } rfl
        simp only [frames] at hm he hd
        exact ⟨by simp [Decoded.after, hm], he, hd⟩

/-- A decoder that waits for more. -/
def Idle (d : FrameDecoder) : Prop := (reader d.expectMasked).look d.buf = none

theorem feedAll_nil (d : FrameDecoder) : d.feedAll [] = ⟨[], none, d⟩ := rfl

theorem feedAll_cons (d : FrameDecoder) (data : Bytes) (chunks : List Bytes) :
    d.feedAll (data :: chunks) = if (d.feed data).error.isSome then d.feed data
      else
        { (d.feed data).decoder.feedAll chunks with
          messages := (d.feed data).messages ++ ((d.feed data).decoder.feedAll chunks).messages } :=
  rfl

theorem feedAll_stop {d : FrameDecoder} {data : Bytes} {e : WSError} (h : (d.feed data).error = some e)
    (chunks : List Bytes) :
    d.feedAll (data :: chunks) = d.feed data := by
  simp [feedAll_cons, h]

theorem feedAll_next {d : FrameDecoder} {data : Bytes} (h : (d.feed data).error = none) (chunks : List Bytes) :
    (d.feedAll (data :: chunks)).messages = (d.feed data).messages ++ ((d.feed data).decoder.feedAll chunks).messages ∧
    (d.feedAll (data :: chunks)).error = ((d.feed data).decoder.feedAll chunks).error := by
  simp [feedAll_cons, h]

/-- **Where the stream is cut makes no difference.** -/
theorem feedAll_eq (d : FrameDecoder) (h : Idle d) (chunks : List Bytes) :
    (d.feedAll chunks).messages = (decode d.frag (frames d.expectMasked (d.buf ++ chunks.flatten))).messages ∧
    (d.feedAll chunks).error = (decode d.frag (frames d.expectMasked (d.buf ++ chunks.flatten))).error := by
  induction chunks generalizing d with
  | nil => simp [feedAll_nil, frames, Scan.read_wait _ h]
  | cons data chunks ih =>
    obtain ⟨hm, he, hd⟩ := loop_spec { d with buf := d.buf ++ data }
    have hread : frames d.expectMasked (d.buf ++ (data :: chunks).flatten) = frames d.expectMasked (d.buf ++ data) ++
        frames d.expectMasked (((reader d.expectMasked).read (d.buf ++ data)).2 ++ chunks.flatten) := by
      simp only [frames, List.flatten_cons, ← List.append_assoc,
        Scan.read_append (reader d.expectMasked) (d.buf ++ data)]
    rw [hread, decode_append]
    change (d.feed data).messages = _ at hm
    change (d.feed data).error = _ at he
    change (d.feed data).error = none → (d.feed data).decoder = _ at hd
    cases herr : (d.feed data).error with
    | some e =>
      rw [feedAll_stop herr, ← he, herr]
      exact ⟨hm, herr.symm.trans he⟩
    | none =>
      obtain ⟨hm', he'⟩ := feedAll_next herr chunks
      obtain ⟨hm'', he''⟩ := ih (d.feed data).decoder (by
        rw [hd herr]
        exact Scan.read_left _ _)
      rw [hm', he', hm'', he'', ← he, herr, hm, hd herr]
      exact ⟨rfl, rfl⟩

/-! ## The rules -/

/-- **The rules**: the messages of a sequence of frames that keeps them, `none` where one breaks them. -/
def accept (opened : Option Message) : List Event → Option (List Message)
  | [] => some []
  | .bad _ :: _ => none
  | .frame f :: later =>
    if f.rsv ≠ 0 then none
    else if f.opcode ∈ CONTROL_OPS then
      if 125 < f.payload.length ∨ f.fin = false then none
      else (accept opened later).map (⟨f.opcode, f.payload⟩ :: ·)
    else if f.opcode = OP_CONT then
      match opened with
      | none => none
      | some m =>
        if f.fin then (accept none later).map (⟨m.opcode, m.payload ++ f.payload⟩ :: ·)
        else accept (some ⟨m.opcode, m.payload ++ f.payload⟩) later
    else if f.opcode = OP_TEXT ∨ f.opcode = OP_BINARY then
      match opened with
      | some _ => none
      | none => if f.fin then (accept none later).map (⟨f.opcode, f.payload⟩ :: ·)
          else accept (some ⟨f.opcode, f.payload⟩) later
    else none

/-- Is a message open after this frame? -/
def opens (started : Bool) : Event → Bool
  | .bad _ => started
  | .frame f =>
    if f.opcode ∈ CONTROL_OPS then started
    else if f.opcode = OP_CONT then started && !f.fin
    else started || !f.fin

/-- A rule that the decoder checks is broken. -/
def Caught (started : Bool) : Event → Prop
  | .bad _ => True
  | .frame f => f.opcode = OP_CONT ∧ started = false

/-- A rule that the decoder does not check is broken. -/
def Missed (started : Bool) : Event → Prop
  | .bad _ => False
  | .frame f => f.rsv ≠ 0 ∨ f.opcode ∉ CONTROL_OPS ++ [OP_CONT, OP_TEXT, OP_BINARY] ∨
      (f.opcode ∈ CONTROL_OPS ∧ (125 < f.payload.length ∨ f.fin = false)) ∨
      (f.opcode ∈ [OP_TEXT, OP_BINARY] ∧ started = true)

/-- Some frame is one for which `p` holds, given whether a message is open before it. -/
def Occurs (p : Bool → Event → Prop) (started : Bool) (events : List Event) : Prop :=
  ∃ before e later, events = before ++ e :: later ∧ p (before.foldl opens started) e

theorem occurs_nil {p : Bool → Event → Prop} {started : Bool} : ¬ Occurs p started [] := by
  rintro ⟨before, e, later, h, -⟩
  simp at h

theorem occurs_cons {p : Bool → Event → Prop} {started : Bool} {e : Event} {events : List Event} :
    Occurs p started (e :: events) ↔ p started e ∨ Occurs p (opens started e) events := by
  constructor
  · rintro ⟨before, e', later, heq, hp⟩
    cases before with
    | nil =>
      obtain ⟨rfl, rfl⟩ := List.cons.inj heq
      exact .inl hp
    | cons x before =>
      obtain ⟨rfl, rfl⟩ := List.cons.inj heq
      exact .inr ⟨before, e', later, rfl, hp⟩
  · rintro (hp | ⟨before, e', later, rfl, hp⟩)
    · exact ⟨[], e, events, rfl, hp⟩
    · exact ⟨e :: before, e', later, rfl, hp⟩

@[simp] theorem cont_not_control : OP_CONT ∉ CONTROL_OPS := by decide

theorem control_ne_cont {op : UInt8} (h : op ∈ CONTROL_OPS) : op ≠ OP_CONT := by
  rintro rfl
  exact cont_not_control h

theorem handle_spec (frag : Frag) (f : Frame) :
    (handle frag f = .error ⟨"시작 프레임 없는 continuation"⟩ ∧ f.opcode = OP_CONT ∧ frag.op = 0) ∨
    ∃ out frag', handle frag f = .ok (out, frag') ∧ ¬(f.opcode = OP_CONT ∧ frag.op = 0) ∧
      (decide (frag'.op ≠ 0) = opens (decide (frag.op ≠ 0)) (.frame f)) := by
  unfold handle opens
  by_cases hc : f.opcode ∈ CONTROL_OPS
  · simp [hc, control_ne_cont hc]
  by_cases h0 : f.opcode = OP_CONT
  · by_cases hop : frag.op = 0
    · simp [h0, hop]
    · cases hfin : f.fin <;> simp [h0, hop, hfin]
  · have h0' : f.opcode ≠ 0 := h0
    cases hfin : f.fin <;> simp [hc, h0, h0', hfin]

/-- The decoder raises exactly at what it checks. -/
theorem decode_error (frag : Frag) (events : List Event) :
    (decode frag events).error.isSome = true ↔ Occurs Caught (decide (frag.op ≠ 0)) events := by
  induction events generalizing frag with
  | nil => simp [decode, occurs_nil]
  | cons e events ih =>
    rw [occurs_cons]
    cases e with
    | bad e => simp [decode, Caught]
    | frame f =>
      rcases handle_spec frag f with ⟨hf, hop, hnone⟩ | ⟨out, frag', hf, hnot, hnext⟩
      · simp [decode_frame_error hf, Caught, hop, hnone]
      · rw [decode_frame_ok hf, ← hnext, ← ih frag']
        have hcaught : ¬ Caught (decide (frag.op ≠ 0)) (.frame f) := by simpa [Caught] using hnot
        rw [or_iff_right hcaught]
        rfl

/-- What the rules make of a frame that breaks none of them is what `handle` makes of it. -/
theorem accept_frame {opened : Option Message} {f : Frame} (h : ¬ Caught opened.isSome (.frame f))
    (h' : ¬ Missed opened.isSome (.frame f))
    (hop : ∀ m, opened = some m → m.opcode ≠ 0) :
    ∃ out opened', handle ((opened.map fun m => ⟨m.opcode, m.payload⟩).getD ⟨0, []⟩) f =
        .ok (out, (opened'.map fun m => ⟨m.opcode, m.payload⟩).getD ⟨0, []⟩) ∧
      (∀ m, opened' = some m → m.opcode ≠ 0) ∧ opened'.isSome = opens opened.isSome (.frame f) ∧
      ∀ later, accept opened (.frame f :: later) = (accept opened' later).map (out.toList ++ ·) := by
  simp only [Caught, Missed, not_or, not_not, not_and, Bool.not_eq_false] at h h'
  obtain ⟨hrsv, hknown, hctl, hdata⟩ := h'
  by_cases hc : f.opcode ∈ CONTROL_OPS
  · obtain ⟨hlen, hfin⟩ := hctl hc
    refine ⟨some ⟨f.opcode, f.payload⟩, opened, by simp [handle, hc], hop, by simp [opens, hc], fun later => ?_⟩
    simp [accept, hrsv, hc, hlen, hfin]
  by_cases h0 : f.opcode = OP_CONT
  · obtain ⟨m, rfl⟩ := Option.isSome_iff_exists.1 (h h0)
    have hm := hop m rfl
    cases hfin : f.fin with
    | true =>
      refine ⟨some ⟨m.opcode, m.payload ++ f.payload⟩,
        none, by simp [handle, h0, hm, hfin], by simp, by simp [opens, h0, hfin], fun later => ?_⟩
      simp [accept, hrsv, h0, hfin]
    | false =>
      refine ⟨none, some ⟨m.opcode, m.payload ++ f.payload⟩, by simp [handle, h0, hm, hfin], by simpa using hm, by
        simp [opens, h0, hfin],
        fun later => ?_⟩
      simp [accept, hrsv, h0, hfin]
  · have hdat : f.opcode ∈ [OP_TEXT, OP_BINARY] := by
      simp only [List.mem_append, List.mem_cons] at hknown ⊢
      tauto
    have hnone : opened = none := by
      have := hdata hdat
      simpa using this
    subst hnone
    have hne : f.opcode ≠ 0 := h0
    have hor : f.opcode = OP_TEXT ∨ f.opcode = OP_BINARY := by simpa using hdat
    cases hfin : f.fin with
    | true =>
      refine ⟨some ⟨f.opcode, f.payload⟩, none, by simp [handle, hc, h0, hfin], by simp, by simp [opens, hc, h0,
        hfin], fun later => ?_⟩
      simp [accept, hrsv, hc, h0, hor, hfin]
    | false =>
      refine ⟨none, some ⟨f.opcode, f.payload⟩, by simp [handle, hc, h0, hfin], by simpa using hne, by simp [opens,
        hc, h0, hfin],
        fun later => ?_⟩
      simp [accept, hrsv, hc, h0, hor, hfin]

theorem accept_broken {opened : Option Message} {e : Event} (h : Caught opened.isSome e ∨ Missed opened.isSome e)
    (later : List Event) :
    accept opened (e :: later) = none := by
  cases e with
  | bad e => rfl
  | frame f =>
    simp only [Caught, Missed] at h
    unfold accept
    by_cases hrsv : f.rsv ≠ 0
    · rw [if_pos hrsv]
    rw [if_neg hrsv]
    by_cases hc : f.opcode ∈ CONTROL_OPS
    · have hne := control_ne_cont hc
      have hnt : f.opcode ∉ [OP_TEXT, OP_BINARY] := by
        intro hmem
        simp only [List.mem_cons, List.not_mem_nil, or_false] at hmem
        rcases hmem with h | h <;> rw [h] at hc <;> revert hc <;> decide
      rw [if_pos hc, if_pos (by simpa [hrsv, hne, hc, hnt] using h)]
    rw [if_neg hc]
    by_cases h0 : f.opcode = OP_CONT
    · have hcont : OP_CONT ∉ [OP_TEXT, OP_BINARY] := by decide
      have hnone : opened = none := by simpa [hrsv, h0, hcont] using h
      simp [h0, hnone]
    rw [if_neg h0]
    by_cases hdata : f.opcode = OP_TEXT ∨ f.opcode = OP_BINARY
    · have hmem : f.opcode ∈ [OP_TEXT, OP_BINARY] := by simpa using hdata
      have hsome : opened.isSome = true := by simpa [hrsv, hc, h0, hdata, hmem] using h
      obtain ⟨m, rfl⟩ := Option.isSome_iff_exists.1 hsome
      simp [hdata]
    · rw [if_neg hdata]

/-- The rules are broken where the decoder checks them or where it does not, and when they are kept the decoder hands
on their messages. -/
theorem accept_spec (opened : Option Message) (hop : ∀ m, opened = some m → m.opcode ≠ 0) (events : List Event) :
    (accept opened events = none ↔ Occurs Caught opened.isSome events ∨ Occurs Missed opened.isSome events) ∧
    ∀ messages, accept opened events = some messages →
      (decode ((opened.map fun m => ⟨m.opcode, m.payload⟩).getD ⟨0, []⟩) events).messages = messages := by
  induction events generalizing opened with
  | nil => simp [accept, occurs_nil, decode]
  | cons e events ih =>
    rw [occurs_cons, occurs_cons]
    by_cases hb : Caught opened.isSome e ∨ Missed opened.isSome e
    · rw [accept_broken hb]
      refine ⟨iff_of_true rfl (by tauto), by simp⟩
    · obtain ⟨hcaught, hmissed⟩ := not_or.1 hb
      cases e with
      | bad e => exact absurd trivial hcaught
      | frame f =>
        obtain ⟨out, opened', hhandle, hop', hopens, haccept⟩ := accept_frame hcaught hmissed hop
        obtain ⟨hnone, hsome⟩ := ih opened' hop'
        rw [haccept, decode_frame_ok hhandle, ← hopens, Option.map_eq_none_iff, hnone]
        refine ⟨by tauto, fun messages h => ?_⟩
        obtain ⟨later, hlater, rfl⟩ := Option.map_eq_some_iff.1 h
        simp [Decoded.after, hsome later hlater]

/-- The decoder raises at the streams that break a rule, and hands on the messages of the others. -/
structure RulesKept (expectMasked : Bool) (chunks : List Bytes) : Prop where
  raises : ((FrameDecoder.init expectMasked).feedAll chunks).error.isSome = true ↔
    accept none (frames expectMasked chunks.flatten) = none
  messages : ∀ messages, accept none (frames expectMasked chunks.flatten) = some messages →
    ((FrameDecoder.init expectMasked).feedAll chunks).messages = messages

theorem init_idle (expectMasked : Bool) : Idle (FrameDecoder.init expectMasked) := rfl

/-- **The decoder keeps the rules on a stream exactly when the stream breaks a rule that it checks, or none that it
does not.** -/
theorem rules_kept_iff (expectMasked : Bool) (chunks : List Bytes) :
    RulesKept expectMasked chunks ↔
      (Occurs Caught false (frames expectMasked chunks.flatten) ∨
      ¬ Occurs Missed false (frames expectMasked chunks.flatten)) := by
  obtain ⟨hm, he⟩ := feedAll_eq _ (init_idle expectMasked) chunks
  obtain ⟨hnone, hsome⟩ := accept_spec none (by simp) (frames expectMasked chunks.flatten)
  have herr := decode_error (FrameDecoder.init expectMasked).frag (frames expectMasked chunks.flatten)
  have hraises : ((FrameDecoder.init expectMasked).feedAll chunks).error.isSome = true ↔
      Occurs Caught false (frames expectMasked chunks.flatten) := by
    rw [he]
    exact herr
  constructor
  · rintro ⟨hr, -⟩
    rw [hraises, hnone] at hr
    simp only [Option.isSome_none] at hr
    tauto
  · intro h
    refine ⟨?_, fun messages ha => ?_⟩
    · rw [hraises, hnone]
      simp only [Option.isSome_none]
      tauto
    · rw [hm]
      exact hsome messages ha

/-- A ping in a fragment, from a server. -/
theorem fragmented_ping_passes : ¬ RulesKept false [[0x09, 0x00]] := by
  intro h
  have hlook : (reader false).look [0x09, 0x00] = some (some (.frame ⟨0x09, []⟩), 2) := by decide
  have hframes : frames false [[0x09, 0x00]].flatten = [.frame ⟨0x09, []⟩] := by
    change ((reader false).read [0x09, 0x00]).1 = _
    rw [Scan.read_take _ hlook, Scan.read_wait _ (by decide)]
    rfl
  have hraises := h.raises.2 (by rw [hframes]; decide)
  rw [(feedAll_eq _ (init_idle false) _).2] at hraises
  change (decode ⟨0, []⟩ (frames false [[0x09, 0x00]].flatten)).error.isSome = true at hraises
  rw [hframes] at hraises
  exact absurd hraises (by decide)

end Ws
