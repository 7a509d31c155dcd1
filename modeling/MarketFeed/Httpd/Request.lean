import Mathlib.Algebra.Order.Group.Int
import Mathlib.Data.List.Basic
import MarketFeed.Lib.Scan
/-!
# Requests of the HTTP server (src/mdfeed/httpd.py:36-65, :171-223, :277-292)

A connection is read in rounds: up to the empty line, then as many bytes as `Content-Length` asks for, and
after the answer, if it is kept alive, from there on again. A header is decoded as Latin-1, so a character
is a byte.

| here | there |
| --- | --- |
| `look` | a round of the loop in `_handle`, as far as what has arrived decides it |
| `STREAM_LIMIT` | the limit of a `StreamReader`, which `readuntil` checks |
| `.refused`, `.broken` | a `400` and the end of the connection; an exception of `int`, and the end |
| `pyInt` | `int` of a stripped text: a sign, digits with single underscores between them, at most 4300 of them |
| `Request.fields` | the header lines in order; a dict keeps the last of a name (`get`) |
| `Server.path` | `urlparse`, `parse_qs` and `unquote` of a target, `none` where they raise |
| `Server.status` | the status that the last of these requests is answered with |
| `Server.wsPath` | `_ws_path`, where there is a handler |

A timeout ends a connection early; what was read up to then is the same.
-/

namespace Httpd

abbrev Bytes := List UInt8

def ascii (s : String) : Bytes := s.toList.map fun c => UInt8.ofNat c.toNat

def MAX_HEADER_BYTES : ℕ := 16 * 1024

def STREAM_LIMIT : ℕ := 65536

/-- What `readexactly` asks for at most. -/
def MAX_BODY : ℕ := 4 * 1024 * 1024

/-! ## Texts -/

/-- `isspace` of Latin-1. -/
def isSpace (b : UInt8) : Bool := (9 ≤ b && b ≤ 13) || (28 ≤ b && b ≤ 32) || b == 0x85 || b == 0xA0

def strip (s : Bytes) : Bytes := ((s.dropWhile isSpace).reverse.dropWhile isSpace).reverse

def lower (s : Bytes) : Bytes := s.map fun b => if (65 ≤ b && b ≤ 90) || (0xC0 ≤ b && b ≤ 0xDE && b != 0xD7) then
    b + 32 else b

/-- `upper`, which leaves Latin-1 for three letters. -/
def upper (s : Bytes) : String :=
  String.ofList (s.flatMap fun b =>
    if (97 ≤ b && b ≤ 122) || (0xE0 ≤ b && b ≤ 0xFE && b != 0xF7) then [Char.ofNat (b.toNat - 32)]
    else if b = 0xDF then ['S', 'S']
    else if b = 0xFF then [Char.ofNat 0x178]
    else if b = 0xB5 then [Char.ofNat 0x39C]
    else [Char.ofNat b.toNat])

/-- `find(b"\r\n\r\n")`. -/
def findSep : Bytes → Option ℕ
  | [] => none
  | b :: rest => if [13, 10, 13, 10].isPrefixOf (b :: rest) then some 0 else (findSep rest).map (· + 1)

/-- `split("\r\n")`. -/
def splitCrlf : Bytes → List Bytes
  | [] => [[]]
  | [b] => [[b]]
  | b :: d :: rest => if b = 13 ∧ d = 10 then [] :: splitCrlf rest else (splitCrlf (d :: rest)).modifyHead (b :: ·)

def isDigit (b : UInt8) : Bool := 48 ≤ b && b ≤ 57

def digit (b : UInt8) : ℕ := b.toNat - 48

def number (ds : List ℕ) : ℕ := ds.foldl (fun n d => 10 * n + d) 0

/-- After the first digit. -/
def moreDigits : Bytes → Option (List ℕ)
  | [] => some []
  | [b] => if isDigit b then some [digit b] else none
  | b :: d :: rest =>
    if isDigit b then (moreDigits (d :: rest)).map (digit b :: ·)
    else if b = 95 ∧ isDigit d = true then (moreDigits rest).map (digit d :: ·)
    else none

def pyNat : Bytes → Option ℕ
  | [] => none
  | b :: rest =>
    if isDigit b then (moreDigits rest).bind fun ds => if 4300 < ds.length + 1 then
      none else some (number (digit b :: ds))
    else none

def pyInt (s : Bytes) : Option ℤ :=
  if s.head? = some 45 then (pyNat s.tail).map fun n => -(n : ℤ)
  else if s.head? = some 43 then (pyNat s.tail).map fun n => (n : ℤ)
  else (pyNat s).map fun n => (n : ℤ)

/-! ## A request -/

abbrev Fields := List (Bytes × Bytes)

structure Request where
  method : String
  target : Bytes
  fields : Fields
  body : Bytes
  deriving DecidableEq

def values (fields : Fields) (name : String) : List Bytes := (fields.filter fun f => f.1 == ascii name).map (·.2)

/-- `headers.get(name)`. -/
def get (fields : Fields) (name : String) : Option Bytes := (values fields name).getLast?

structure Server where
  path : Bytes → Option String
  wsPath : Option String
  status : List Request → ℕ

/-- `k.strip().lower()` and `v.strip()` of a line with a colon. -/
def field (line : Bytes) : Option (Bytes × Bytes) :=
  if 58 ∈ line then some (lower (strip (line.takeWhile (· != 58))), strip (line.dropWhile (· != 58)).tail) else none

/-- `_parse_request`. -/
def parseRequest (srv : Server) (raw : Bytes) : Option Request :=
  (findSep raw).bind fun i =>
    match splitCrlf (raw.take i) with
    | [] => none
    | first :: lines =>
      match first.splitOn 32 with
      | [method, target, version] =>
        if (ascii "HTTP/").isPrefixOf version then (srv.path target).map fun _ =>
          ⟨upper method, target, lines.filterMap field, []⟩
        else none
      | _ => none

/-- `int(req.headers.get("content-length", "0") or 0)`. -/
def contentLength (fields : Fields) : Option ℤ :=
  let v := (get fields "content-length").getD (ascii "0")
  if v = [] then some 0 else pyInt v

/-- The bytes that are read as the body. -/
def bodyBytes (clen : ℤ) : ℕ := if 0 < clen then min clen.toNat MAX_BODY else 0

def Server.upgrades (srv : Server) (req : Request) : Bool :=
  srv.wsPath.isSome && srv.path req.target == srv.wsPath && lower ((get req.fields "upgrade").getD []) ==
    ascii "websocket"

/-- `keep`, of the last of the requests. -/
def Server.keeps (srv : Server) (past : List Request) (req : Request) : Bool :=
  lower ((get req.fields "connection").getD (ascii "keep-alive")) != ascii "close" &&
    decide (srv.status (past ++ [req]) < 500)

/-! ## A connection -/

inductive Event
  | request (req : Request)
  | refused
  | broken
  deriving DecidableEq

def Event.request? : Event → Option Request
  | .request req => some req
  | _ => none

def look (srv : Server) (b : Bytes) : Option (Option Event × ℕ) :=
  match findSep b with
  | none => if STREAM_LIMIT + 3 < b.length then some (some .refused, 1) else none
  | some isep =>
    if STREAM_LIMIT < isep then some (some .refused, 1)
    else if MAX_HEADER_BYTES < isep + 4 then some (some .refused, isep + 4)
    else
      match parseRequest srv (b.take (isep + 4)) with
      | none => some (some .refused, isep + 4)
      | some req =>
        match contentLength req.fields with
        | none => some (some .broken, isep + 4)
        | some clen =>
          if b.length < isep + 4 + bodyBytes clen then none
          else some (some (.request { req with body := (b.drop (isep + 4)).take (bodyBytes clen) }), isep + 4 +
            bodyBytes clen)

/-- The last round: an answer without `keep`, a hand-over to the WebSocket handler, a `400`, an exception. -/
def closes (srv : Server) (past : List Event) : Event → Bool
  | .request req => srv.upgrades req || !srv.keeps (past.filterMap Event.request?) req
  | .refused | .broken => true

/-! ## Finding the empty line -/

theorem findSep_length {b : Bytes} {i : ℕ} (h : findSep b = some i) : i + 4 ≤ b.length := by
  induction b generalizing i with
  | nil => cases h
  | cons x rest ih =>
    rw [findSep] at h
    split at h
    · rename_i hp
      cases h
      exact (List.isPrefixOf_iff_prefix.1 hp).length_le
    · obtain ⟨j, hj, rfl⟩ := Option.map_eq_some_iff.1 h
      have := ih hj
      rw [List.length_cons]
      omega

theorem findSep_append {b : Bytes} {i : ℕ} (h : findSep b = some i) (c : Bytes) : findSep (b ++ c) = some i := by
  induction b generalizing i with
  | nil => cases h
  | cons x rest ih =>
    rw [findSep] at h
    rw [List.cons_append, findSep]
    split at h
    · rename_i hp
      have hp' : ([13, 10, 13, 10] : Bytes).isPrefixOf (x :: (rest ++ c)) = true :=
        List.isPrefixOf_iff_prefix.2 ((List.isPrefixOf_iff_prefix.1 hp).trans (List.prefix_append (x :: rest) c))
      rw [if_pos hp']
      exact h
    · rename_i hp
      obtain ⟨j, hj, rfl⟩ := Option.map_eq_some_iff.1 h
      have hlen := findSep_length hj
      have hp' : ¬ ([13, 10, 13, 10] : Bytes).isPrefixOf (x :: (rest ++ c)) = true := by
        intro hpre
        refine hp (List.isPrefixOf_iff_prefix.2 ?_)
        have hpre := List.isPrefixOf_iff_prefix.1 hpre
        exact List.prefix_of_prefix_length_le hpre (List.prefix_append (x :: rest) c)
          (by simp only [List.length_cons, List.length_nil]; omega)
      rw [if_neg hp', ih hj]
      rfl

/-- The empty line is found no earlier once more has arrived. -/
theorem findSep_later {b c : Bytes} {i : ℕ} (h : findSep b = none) (h' : findSep (b ++ c) = some i) :
    b.length ≤ i + 3 := by
  induction b generalizing i with
  | nil => exact Nat.zero_le _
  | cons x rest ih =>
    rw [findSep] at h
    rw [List.cons_append, findSep] at h'
    split at h
    · cases h
    · rename_i hp
      split at h'
      · rename_i hp'
        by_contra hlt
        refine hp (List.isPrefixOf_iff_prefix.2 ?_)
        exact List.prefix_of_prefix_length_le (List.isPrefixOf_iff_prefix.1 hp') (List.prefix_append (x :: rest) c)
          (by simp only [List.length_cons, List.length_nil] at hlt ⊢; omega)
      · obtain ⟨j, hj, rfl⟩ := Option.map_eq_some_iff.1 h'
        have := ih (Option.map_eq_none_iff.1 h) hj
        rw [List.length_cons]
        omega

theorem findSep_take {b : Bytes} {i : ℕ} (h : findSep b = some i) : findSep (b.take (i + 4)) = some i := by
  have hlen := findSep_length h
  cases ht : findSep (b.take (i + 4)) with
  | none =>
    have := findSep_later ht ((List.take_append_drop (i + 4) b).symm ▸ h)
    rw [List.length_take] at this
    omega
  | some j =>
    have hj := findSep_append ht (b.drop (i + 4))
    rw [List.take_append_drop, h] at hj
    exact hj.symm

theorem look_pos {srv : Server} {b : Bytes} {o : Option Event} {n : ℕ} (h : look srv b = some (o, n)) : 0 < n ∧
    n ≤ b.length := by
  unfold look at h
  cases hf : findSep b with
  | none =>
    simp only [hf] at h
    split at h
    · cases h
      omega
    · cases h
  | some i =>
    have hlen := findSep_length hf
    simp only [hf] at h
    split at h
    · cases h
      omega
    · split at h
      · cases h
        omega
      · split at h
        · cases h
          omega
        · split at h
          · cases h
            omega
          · split at h
            · cases h
            · cases h
              omega

theorem look_stable {srv : Server} {b : Bytes} {v : Option Event × ℕ} (h : look srv b = some v) (c : Bytes) :
    look srv (b ++ c) = some v := by
  unfold look at h ⊢
  cases hf : findSep b with
  | none =>
    simp only [hf] at h
    split at h
    · rename_i hlong
      cases h
      cases hf' : findSep (b ++ c) with
      | none =>
        simp only
        rw [if_pos (by rw [List.length_append]; omega)]
      | some i =>
        have := findSep_later hf hf'
        simp only
        rw [if_pos (by omega)]
    · cases h
  | some i =>
    have hlen := findSep_length hf
    have htake : (b ++ c).take (i + 4) = b.take (i + 4) := List.take_append_of_le_length hlen
    simp only [hf] at h
    simp only [findSep_append hf c, htake]
    split at h
    · rename_i hlim
      rw [if_pos hlim]
      exact h
    · rename_i hlim
      rw [if_neg hlim]
      split at h
      · rename_i hmax
        rw [if_pos hmax]
        exact h
      · rename_i hmax
        rw [if_neg hmax]
        split at h
        · exact h
        · rename_i req _
          split at h
          · exact h
          · rename_i clen _
            split at h
            · cases h
            · rename_i hall
              rw [if_neg (by rw [List.length_append]; omega)]
              have hbody : ((b ++ c).drop (i + 4)).take (bodyBytes clen) = (b.drop (i + 4)).take (bodyBytes clen) := by
                rw [List.drop_append_of_le_length hlen, List.take_append_of_le_length]
                rw [List.length_drop]
                omega
              rw [hbody]
              exact h

def reader (srv : Server) : Scan.Reader UInt8 Event := ⟨look srv, look_pos, look_stable⟩

/-- The rounds of a connection whose bytes come in chunks. -/
def serve (srv : Server) (chunks : List Bytes) : List Event := (reader srv).serve (closes srv) chunks

end Httpd
