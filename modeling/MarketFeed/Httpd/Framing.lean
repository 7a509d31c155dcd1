import MarketFeed.Httpd.Request
/-!
# Where a body ends (src/mdfeed/httpd.py:174-221, :277-292)

A `Transfer-Encoding` is not read at all, of a longer body the first 4 MiB are taken, and of a length that is
negative, signed, empty or given twice something is taken; each time the connection is kept, so what is left
of the body is the next request. The stream is framed right when none of its requests is of that kind.

| here | there |
| --- | --- |
| `framing` | what a request's header says of its body, where the server can tell and take it |
| `staysOpen` | the connection is kept, or handed to the WebSocket handler |
| `Framed` | an open connection goes on right after the body |
| `Smuggles` | a request that the connection stays open after, though its header does not say where it ends |
-/

namespace Httpd

/-- Of a `Content-Length`: digits. -/
def plainLength (v : Bytes) : Option ℕ := if v ≠ [] ∧ v.all isDigit = true then some (number (v.map digit)) else none

/-- The body's length: none given, or one, given in digits and within the limit; no transfer coding. -/
def framing (fields : Fields) : Option ℕ :=
  if values fields "transfer-encoding" ≠ [] then none
  else
    match values fields "content-length" with
    | [] => some 0
    | v :: vs => (plainLength v).bind fun n => if (vs.all fun w => plainLength w == some n) ∧
        n ≤ MAX_BODY then some n else none

def staysOpen (srv : Server) (past : List Event) (req : Request) : Bool :=
  srv.upgrades req || srv.keeps (past.filterMap Event.request?) req

/-- Each request after which the connection stays open has the body that its header gives it. -/
def Framed (srv : Server) (chunks : List Bytes) : Prop :=
  ∀ past req later, serve srv chunks = past ++ .request req :: later → staysOpen srv past req = true →
    framing req.fields = some req.body.length

/-- A request that is read, with its header's bytes. -/
structure Round (srv : Server) (raw : Bytes) (req : Request) : Prop where
  ends : findSep raw = some (raw.length - 4)
  limit : raw.length ≤ MAX_HEADER_BYTES
  parses : parseRequest srv raw = some { req with body := [] }
  length : (contentLength req.fields).map bodyBytes = some req.body.length

/-- After the rounds `past`, on the rest of the stream: one request after the other, up to the one of unknown length. -/
inductive Smuggles (srv : Server) : List Event → Bytes → Prop
  | here {past raw req rest} : Round srv raw req → staysOpen srv past req = true → framing req.fields = none →
    Smuggles srv past (raw ++ req.body ++ rest)
  | later {past raw req rest} : Round srv raw req → closes srv past (.request req) = false →
    Smuggles srv (past ++ [.request req]) rest → Smuggles srv past (raw ++ req.body ++ rest)

/-! ## Lengths -/

theorem moreDigits_of_all {s : Bytes} (h : s.all isDigit = true) : moreDigits s = some (s.map digit) := by
  induction s with
  | nil => rfl
  | cons b s ih =>
    obtain ⟨hb, hs⟩ := (Bool.and_eq_true _ _).mp (List.all_cons.symm.trans h)
    cases s with
    | nil => simp [moreDigits, hb]
    | cons d rest =>
      rw [moreDigits, if_pos hb, ih hs]
      rfl

theorem pyInt_of_plain {v : Bytes} {n : ℕ} {c : ℤ} (h : plainLength v = some n) (hc : pyInt v = some c) : c = n := by
  cases v with
  | nil => simp [plainLength] at h
  | cons b rest =>
    unfold plainLength at h
    split at h
    · rename_i hall
      obtain ⟨hb, hrest⟩ := (Bool.and_eq_true _ _).mp (List.all_cons.symm.trans hall.2)
      have hminus : b ≠ 45 := fun he => by subst he; exact absurd hb (by decide)
      have hplus : b ≠ 43 := fun he => by subst he; exact absurd hb (by decide)
      simp only [pyInt, List.head?_cons, Option.some.injEq, hminus, hplus, if_false, pyNat, hb, if_true,
        moreDigits_of_all hrest, Option.bind_some] at hc
      split at hc
      · cases hc
      · cases h
        cases hc
        rfl
    · cases h

theorem get_of_values {fields : Fields} {name : String} {v : Bytes} {vs : List Bytes}
    (h : values fields name = v :: vs) :
    ∃ w ∈ v :: vs, get fields name = some w := by
  refine ⟨(v :: vs).getLast (List.cons_ne_nil v vs), List.getLast_mem _, ?_⟩
  rw [get, h, List.getLast?_eq_getLast_of_ne_nil (List.cons_ne_nil v vs)]

/-- Where the header says where the body ends, `int` says the same. -/
theorem bodyBytes_of_framing {fields : Fields} {n m : ℕ} (h : framing fields = some n)
    (hm : (contentLength fields).map bodyBytes = some m) : m = n := by
  obtain ⟨c, hc, rfl⟩ := Option.map_eq_some_iff.1 hm
  unfold framing at h
  split at h
  · cases h
  · split at h
    · rename_i hnone
      cases h
      have hget : get fields "content-length" = none := by rw [get, hnone, List.getLast?_nil]
      have h0 : (some c : Option ℤ) = some 0 := by
        rw [← hc, contentLength, hget]
        decide
      cases h0
      rfl
    · rename_i v vs hvs
      obtain ⟨k, hv, h⟩ := Option.bind_eq_some_iff.1 h
      split at h
      · rename_i hall
        cases h
        obtain ⟨w, hw, hget⟩ := get_of_values hvs
        have hplain : plainLength w = some n := by
          rcases List.mem_cons.1 hw with rfl | hw
          · exact hv
          · exact eq_of_beq (List.all_eq_true.1 hall.1 w hw)
        have hne : w ≠ [] := by
          rintro rfl
          simp [plainLength] at hplain
        rw [contentLength, hget, Option.getD_some, if_neg hne] at hc
        rw [pyInt_of_plain hplain hc, bodyBytes, Int.toNat_natCast]
        split <;> omega
      · cases h

/-! ## Rounds -/

theorem parseRequest_body {srv : Server} {raw : Bytes} {req : Request} (h : parseRequest srv raw = some req) :
    req.body = [] := by
  unfold parseRequest at h
  obtain ⟨i, -, h⟩ := Option.bind_eq_some_iff.1 h
  split at h
  · cases h
  · split at h
    · split at h
      · obtain ⟨p, -, rfl⟩ := Option.map_eq_some_iff.1 h
        rfl
      · cases h
    · cases h

/-- A request that is there is read. -/
theorem Round.look {srv : Server} {raw : Bytes} {req : Request} (h : Round srv raw req) (rest : Bytes) :
    Httpd.look srv (raw ++ req.body ++ rest) = some (some (.request req), raw.length + req.body.length) := by
  obtain ⟨c, hc, hlen⟩ := Option.map_eq_some_iff.1 h.length
  have hraw := findSep_length h.ends
  have hlimit := h.limit
  have hi : raw.length - 4 + 4 = raw.length := by omega
  have hsep : findSep (raw ++ req.body ++ rest) = some (raw.length - 4) := by
    rw [List.append_assoc]
    exact findSep_append h.ends _
  have htake : (raw ++ req.body ++ rest).take raw.length = raw := by rw [List.append_assoc, List.take_left]
  have hdrop : (raw ++ req.body ++ rest).drop raw.length = req.body ++ rest := by rw [List.append_assoc, List.drop_left]
  simp only [Httpd.look, hsep, hi, htake, hdrop, h.parses, hc, hlen, List.take_left]
  rw [if_neg (by simp only [STREAM_LIMIT, MAX_HEADER_BYTES] at *; omega), if_neg (by omega), if_neg (by simp)]

theorem Round.read {srv : Server} {raw : Bytes} {req : Request} (h : Round srv raw req) (rest : Bytes) :
    (reader srv).read (raw ++ req.body ++ rest) = (.request req :: ((reader srv).read rest).1,
      ((reader srv).read rest).2) := by
  have hdrop : (raw ++ req.body ++ rest).drop (raw.length + req.body.length) = rest := by
    rw [← List.length_append, List.drop_left]
  rw [Scan.read_take (reader srv) (h.look rest), hdrop]
  rfl

/-- What is read is a request, or ends the connection. -/
theorem look_cases {srv : Server} {b : Bytes} {o : Option Event} {n : ℕ} (h : Httpd.look srv b = some (o, n)) :
    (∃ raw req rest, Round srv raw req ∧ b = raw ++ req.body ++ rest) ∨ ∃ w, o = some w ∧ w.request? = none := by
  unfold Httpd.look at h
  cases hf : findSep b with
  | none =>
    simp only [hf] at h
    split at h
    · cases h
      exact .inr ⟨_, rfl, rfl⟩
    · cases h
  | some i =>
    have hlen := findSep_length hf
    simp only [hf] at h
    split at h
    · cases h
      exact .inr ⟨_, rfl, rfl⟩
    · split at h
      · cases h
        exact .inr ⟨_, rfl, rfl⟩
      · rename_i hmax
        split at h
        · cases h
          exact .inr ⟨_, rfl, rfl⟩
        · rename_i req hreq
          split at h
          · cases h
            exact .inr ⟨_, rfl, rfl⟩
          · rename_i c hc
            split at h
            · cases h
            · rename_i hall
              have htake : (b.take (i + 4)).length = i + 4 := by
                rw [List.length_take]
                omega
              have hround : Round srv (b.take (i + 4)) { req with body := (b.drop (i + 4)).take (bodyBytes c) } :=
                { ends := by rw [htake, Nat.add_sub_cancel, findSep_take hf]
                  limit := by omega
                  parses := by rw [hreq, ← parseRequest_body hreq]
                  length := by
                    rw [hc, Option.map_some, List.length_take, List.length_drop, min_eq_left (by omega)] }
              refine .inl ⟨_, _, (b.drop (i + 4)).drop (bodyBytes c), hround, ?_⟩
              rw [List.append_assoc, List.take_append_drop, List.take_append_drop]

/-- The first request of a stream is one. -/
theorem Round.unique {srv : Server} {raw raw' rest rest' : Bytes} {req req' : Request} (h : Round srv raw req)
    (h' : Round srv raw' req')
    (heq : raw ++ req.body ++ rest = raw' ++ req'.body ++ rest') : req = req' ∧ rest = rest' := by
  have hlook := h.look rest
  rw [heq, h'.look rest'] at hlook
  simp only [Option.some.injEq, Prod.mk.injEq, Event.request.injEq] at hlook
  refine ⟨hlook.1.symm, (List.append_inj heq ?_).2⟩
  rw [List.length_append, List.length_append]
  exact hlook.2.symm

theorem smuggles_iff {srv : Server} {past : List Event} {raw rest : Bytes} {req : Request} (h : Round srv raw req) :
    Smuggles srv past (raw ++ req.body ++ rest) ↔
      (staysOpen srv past req = true ∧ framing req.fields = none) ∨
        (closes srv past (.request req) = false ∧ Smuggles srv (past ++ [.request req]) rest) := by
  constructor
  · intro hs
    generalize heq : raw ++ req.body ++ rest = b at hs
    cases hs with
    | here h' hopen hnone =>
      obtain ⟨rfl, rfl⟩ := h.unique h' heq
      exact .inl ⟨hopen, hnone⟩
    | later h' hkeep hs =>
      obtain ⟨rfl, rfl⟩ := h.unique h' heq
      exact .inr ⟨hkeep, hs⟩
  · rintro (⟨hopen, hnone⟩ | ⟨hkeep, hs⟩)
    · exact .here h hopen hnone
    · exact .later h hkeep hs

theorem not_smuggles {srv : Server} {past : List Event} {b : Bytes} (h : ∀ raw req rest, Round srv raw req →
    b ≠ raw ++ req.body ++ rest) :
    ¬ Smuggles srv past b := by
  intro hs
  cases hs with
  | here h' _ _ => exact h _ _ _ h' rfl
  | later h' _ _ => exact h _ _ _ h' rfl

/-! ## Connections -/

/-- From the rounds `past` on. -/
def FramedFrom (srv : Server) (past events : List Event) : Prop :=
  ∀ mid req later, events = mid ++ .request req :: later → staysOpen srv (past ++ mid) req = true →
    framing req.fields = some req.body.length

theorem framedFrom_cons (srv : Server) (past : List Event) (w : Event) (events : List Event) :
    FramedFrom srv past (w :: events) ↔
      (∀ req, w = .request req → staysOpen srv past req = true → framing req.fields = some req.body.length) ∧
        FramedFrom srv (past ++ [w]) events := by
  constructor
  · refine fun h => ⟨fun req hw hopen => h [] req events (by rw [hw]; rfl) (by simpa using hopen),
      fun mid req later he hopen => ?_⟩
    exact h (w :: mid) req later (by rw [he]; rfl) (by simpa using hopen)
  · rintro ⟨hhead, htail⟩ mid req later he hopen
    cases mid with
    | nil =>
      cases he
      exact hhead req rfl (by simpa using hopen)
    | cons w' mid =>
      cases he
      exact htail mid req later rfl (by simpa using hopen)

theorem framedFrom_nil (srv : Server) (past : List Event) : FramedFrom srv past [] := by
  rintro mid req later he -
  cases mid <;> cases he

theorem framedFrom_iff (srv : Server) (b : Bytes) (past : List Event) :
    FramedFrom srv past (Scan.upTo (closes srv) past ((reader srv).read b).1) ↔ ¬ Smuggles srv past b := by
  induction b using Scan.read_induction (reader srv) generalizing past with
  | wait b h =>
    rw [Scan.read_wait _ h]
    refine iff_of_true (framedFrom_nil srv past) (not_smuggles ?_)
    rintro raw req rest hround rfl
    exact absurd ((hround.look rest).symm.trans h) (by simp)
  | take b o n h ih =>
    rcases look_cases h with ⟨raw, req, rest, hround, rfl⟩ | ⟨w, rfl, hw⟩
    · cases (hround.look rest).symm.trans h
      rw [← List.length_append, List.drop_left] at ih
      rw [hround.read, smuggles_iff hround, Scan.upTo, framedFrom_cons]
      have hhere : framing req.fields = some req.body.length ↔ ¬ framing req.fields = none := by
        cases hf : framing req.fields with
        | none => simp
        | some n => simp [bodyBytes_of_framing hf hround.length]
      rw [not_or]
      refine and_congr ?_ ?_
      · simp only [Event.request.injEq, forall_eq', not_and, hhere]
      · cases hkeep : closes srv past (.request req) with
        | true => simp [framedFrom_nil]
        | false => simp [ih]
    · have hcloses : closes srv past w = true := by
        cases w with
        | request req => cases hw
        | refused => rfl
        | broken => rfl
      rw [Scan.read_take _ h, Option.toList_some, List.singleton_append, Scan.upTo, if_pos hcloses, framedFrom_cons]
      refine iff_of_true ⟨?_, framedFrom_nil srv _⟩ (not_smuggles ?_)
      · rintro req rfl
        cases hw
      · rintro raw req rest hround rfl
        cases (hround.look rest).symm.trans h
        cases hw

/-- **A connection goes on right after each body unless a request on it smuggles.** -/
theorem framed_iff (srv : Server) (chunks : List Bytes) : Framed srv chunks ↔ ¬ Smuggles srv [] chunks.flatten := by
  have hwait : (reader srv).look [] = none := rfl
  rw [← framedFrom_iff, ← Scan.serve_eq (reader srv) (closes srv) hwait chunks]
  rfl

/-- A server that answers `200` to everything and takes no WebSocket. -/
def plain : Server := ⟨fun _ => some "/", none, fun _ => 200⟩

/-- A body of 4 MiB and 19 bytes more, which are the next request. -/
theorem rest_of_body_served :
    let header := ascii "POST / HTTP/1.1\r\nContent-Length: 4194323\r\n\r\n"
    let body := List.replicate 4194304 97 ++ ascii "GET /x HTTP/1.1\r\n\r\n"
    body.length = 4194323 ∧ ((serve plain [header ++ body]).filterMap Event.request?).map Request.target =
      [ascii "/", ascii "/x"] ∧
      ¬ Framed plain [header ++ body] := by
  intro header body
  have hfirst : Round plain header ⟨"POST", ascii "/", [(ascii "content-length", ascii "4194323")],
      List.replicate 4194304 97⟩ :=
    { ends := by decide +kernel
      limit := by decide +kernel
      parses := by decide +kernel
      length := by
        rw [List.length_replicate]
        decide +kernel }
  have hsecond : Round plain (ascii "GET /x HTTP/1.1\r\n\r\n") ⟨"GET", ascii "/x", [], []⟩ := by
    constructor <;> decide +kernel
  have hflat : [header ++ body].flatten = header ++ List.replicate 4194304 97 ++ ascii "GET /x HTTP/1.1\r\n\r\n" := by
    rw [List.flatten_singleton, List.append_assoc]
  have hnext := hsecond.read []
  rw [List.append_nil, List.append_nil] at hnext
  have hserve : serve plain [header ++ body] =
      [.request ⟨"POST", ascii "/", [(ascii "content-length", ascii "4194323")], List.replicate 4194304 97⟩,
        .request ⟨"GET", ascii "/x", [], []⟩] := by
    rw [serve, Scan.serve_eq _ _ rfl, hflat, hfirst.read, hnext, Scan.read_wait _ rfl]
    rfl
  refine ⟨?_, ?_, ?_⟩
  · rw [List.length_append, List.length_replicate]
    rfl
  · rw [hserve]
    rfl
  · intro h
    have := h [] _ _ hserve (by decide +kernel)
    exact absurd this (by decide +kernel)

end Httpd
