import Mathlib.Data.List.Infix
import MarketFeed.Ledger.OneOpen
/-!
# The order request (kis_trading.py:107-160, :220-235, kis_token.py:125-138)

`KISTrading.order` turns everything that can happen to one request into a result or one of two
exceptions of its own, `Rejected` and `Uncertain`; every other exception passes through. The model
follows each value from the JSON document to the row: Python's `in`, `.get`, truth, hashing and
`.strip()` on whatever type the document has at that place, and the binding of the result in the
`UPDATE` of `mark`.

| here | there |
| --- | --- |
| `PyStr` | a `str`, as code points: `json.loads` lets lone surrogates through |
| `ExcClass` | the exception's class, a subclass counted under its base: `JSONDecodeError`, `UnicodeError` under `valueError`; `ConnectionError`, `RemoteDisconnected` under `osError`; `IncompleteRead`, `BadStatusLine` under `httpException`; `RecursionError` under `runtimeError` |
| `Attempt` | what `_call_once` meets: the token, then the HTTP exchange; a cancellation is an exception of the step it hits |
| `Db` | SQLite where it is not the code's to decide: how a `TEXT` column shows a float, and its limit on the size of a row |
-/

namespace OrderDesk

open OrderLedger

abbrev PyStr := List Nat

def py (s : String) : PyStr := s.toList.map Char.toNat

/-- `str.isspace` on one code point, what `.strip()` removes. -/
def isSpace (c : Nat) : Bool :=
  (9 ≤ c && c ≤ 13) || (28 ≤ c && c ≤ 32) || c == 0x85 || c == 0xA0 || c == 0x1680 || (0x2000 ≤ c && c ≤ 0x200A) ||
    c == 0x2028 || c == 0x2029 || c == 0x202F || c == 0x205F || c == 0x3000

def strip (s : PyStr) : PyStr := ((s.dropWhile isSpace).reverse.dropWhile isSpace).reverse

/-- UTF-8 has no lone surrogates. -/
def encodable (s : PyStr) : Bool := s.all fun c => !(0xD800 ≤ c && c ≤ 0xDFFF)

def decode (s : PyStr) : String := String.ofList (s.map Char.ofNat)

/-- A document of `json.loads`; a float by its `repr` and whether it is zero. -/
inductive Json
  | null
  | bool (b : Bool)
  | int (n : Int)
  | float (repr : PyStr) (zero : Bool)
  | str (s : PyStr)
  | array (xs : List Json)
  | object (fields : List (PyStr × Json))

abbrev Fields := List (PyStr × Json)

def get (d : Fields) (key : String) : Option Json := (d.find? (·.1 == py key)).map (·.2)

def Json.truthy : Json → Bool
  | .null => false
  | .bool b => b
  | .int n => n != 0
  | .float _ zero => !zero
  | .str s => !s.isEmpty
  | .array xs => !xs.isEmpty
  | .object fs => !fs.isEmpty

/-- `j == s`. -/
def Json.isStr (j : Json) (s : String) : Bool :=
  match j with
  | .str t => t == py s
  | _ => false

/-- `str(j)` of a hashable value; `none` for a list or a dict, whose hash raises `TypeError`. -/
def Json.scalar : Json → Option PyStr
  | .null => some (py "None")
  | .bool b => some (py (if b then "True" else "False"))
  | .int n => some (py (toString n))
  | .float repr _ => some repr
  | .str s => some s
  | .array _ | .object _ => none

/-- `(v or "").strip()`; `none` where the value is truthy and has no `strip`. -/
def orStrip (v : Option Json) : Option PyStr :=
  match v with
  | none => some []
  | some j =>
    if j.truthy then
      match j with
      | .str s => some (strip s)
      | _ => none
    else some []

/-- `v or {}`; `none` where the value is truthy and has no `get`. -/
def orDict (v : Option Json) : Option Fields :=
  match v with
  | none => some []
  | some j =>
    if j.truthy then
      match j with
      | .object fs => some fs
      | _ => none
    else some []

/-! ## Exceptions -/

inductive ExcClass
  | urlError | timeoutError | osError | valueError | httpException | typeError | attributeError | keyError
  | runtimeError | memoryError | cancelledError | other
  deriving DecidableEq

/-- A raised exception: its class and `type(e).__name__`. -/
structure Exc where
  cls : ExcClass
  name : String
  deriving DecidableEq

/-- `except (urllib.error.URLError, TimeoutError, OSError, ValueError)`. -/
def Exc.lost (e : Exc) : Bool := decide (e.cls ∈ [ExcClass.urlError, .timeoutError, .osError, .valueError])

inductive Failure
  | rejected (code : Json) (msg : PyStr)
  | uncertain (text : String)
  | raised (e : Exc)

abbrev Py := Except Failure

def raise {α : Type} (cls : ExcClass) (name : String) : Py α := .error (.raised ⟨cls, name⟩)

/-! ## `_call_once` -/

/-- `json.loads` of a body. -/
inductive Loaded
  | document (j : Json)
  | raised (e : Exc)

/-- One HTTP exchange of `_do`. -/
inductive Http
  /-- The body of a 2xx answer was read. -/
  | body (loaded : Loaded)
  /-- `urlopen` or `r.read()` raised. -/
  | raised (e : Exc)
  /-- `HTTPError`: its body, or what reading the body raised. -/
  | httpError (code : Nat) (read : Except Exc Loaded)

structure Attempt where
  /-- What `self._tokens.token()` raised, if it did. -/
  token : Option Exc
  http : Http

/-- `_do` (kis_trading.py:138-150). An exception inside the `except HTTPError` block is not caught by
the clause after it. -/
def doRequest (tr : String) : Http → Py Json
  | .body (.document j) => .ok j
  | .body (.raised e) => if e.lost then .error (.uncertain s!"{e.name} {tr}") else .error (.raised e)
  | .raised e => if e.lost then .error (.uncertain s!"{e.name} {tr}") else .error (.raised e)
  | .httpError _ (.error e) => .error (.raised e)
  | .httpError _ (.ok (.document j)) => .ok j
  | .httpError code (.ok (.raised e)) =>
    if e.cls = .valueError then .error (.uncertain s!"HTTP {code} {tr}") else .error (.raised e)

/-- `code in THROTTLED`. -/
def throttled (code : Json) : Bool := code.isStr "EGW00201" || code.isStr "EGW00215"

/-- `d.get("msg_cd", "")`. -/
def msgCd (d : Fields) : Json := (get d "msg_cd").getD (.str [])

/-- `raise Rejected(code, (d.get("msg1") or "").strip())` (kis_trading.py:155-159). -/
def refuse (d : Fields) : Py Fields :=
  match (msgCd d).scalar with
  | none => raise .typeError "TypeError"
  | some _ =>
    match orStrip (get d "msg1") with
    | none => raise .attributeError "AttributeError"
    | some msg => .error (.rejected (msgCd d) msg)

/-- `"rt_cd" in d`, and `d["rt_cd"]` on what contains it (kis_trading.py:153-160). -/
def classify (tr : String) : Json → Py Fields
  | .object d =>
    match get d "rt_cd" with
    | none => .error (.uncertain s!"rt_cd 없는 응답 {tr}")
    | some v => if v.isStr "0" then .ok d else refuse d
  | .array xs =>
    if xs.any (·.isStr "rt_cd") then raise .typeError "TypeError" else .error (.uncertain s!"rt_cd 없는 응답 {tr}")
  | .str s =>
    if py "rt_cd" <:+: s then raise .typeError "TypeError" else .error (.uncertain s!"rt_cd 없는 응답 {tr}")
  | _ => raise .typeError "TypeError"

def callOnce (tr : String) (a : Attempt) : Py Fields :=
  match a.token with
  | some e => .error (.raised e)
  | none => (doRequest tr a.http).bind (classify tr)

/-- Is the request repeated after this answer (kis_trading.py:111-116)? Only once, and only after a
throttling refusal. -/
def repeats (retried : Bool) : Py Fields → Bool
  | .error (.rejected code _) => !retried && throttled code
  | _ => false

/-- `_call` (kis_trading.py:107-116). -/
def call (tr : String) (first second : Attempt) : Py Fields :=
  if repeats false (callOnce tr first) then callOnce tr second else callOnce tr first

/-- What `order` returns: the number as the document has it, and the message. -/
structure Accepted where
  odno : Json
  msg : PyStr

/-- The tail of `order` (kis_trading.py:231-235). -/
def readOrder (d : Fields) : Py Accepted :=
  match orDict (get d "output") with
  | none => raise .attributeError "AttributeError"
  | some o =>
    match get o "ODNO" with
    | none => .error (.uncertain "주문번호 없는 성공 응답")
    | some odno =>
      if odno.truthy then
        match orStrip (get d "msg1") with
        | none => raise .attributeError "AttributeError"
        | some msg => .ok ⟨odno, msg⟩
      else .error (.uncertain "주문번호 없는 성공 응답")

def order (tr : String) (first second : Attempt) : Py Accepted := (call tr first second).bind readOrder

/-! ## Marking the outcome -/

structure Db where
  /-- A float in a `TEXT` column; a NaN is bound as `NULL`. -/
  floatText : PyStr → Option String
  /-- The row with this number and message is within SQLite's size limit. -/
  fits : Option String → Option String → Bool

/-- A database that refuses no size and shows no float. -/
def roomyDb : Db := ⟨fun _ => none, fun _ _ => true⟩

/-- A value bound to the `odno` column: its text, `none` where `sqlite3` refuses the value. -/
def Db.bind (db : Db) : Json → Option (Option String)
  | .null => some none
  | .bool b => some (some (if b then "1" else "0"))
  | .int n => if -(2 ^ 63) ≤ n ∧ n < 2 ^ 63 then some (some (toString n)) else none
  | .float repr _ => some (db.floatText repr)
  | .str s => if encodable s then some (some (decode s)) else none
  | .array _ | .object _ => none

/-- `self.ledger.mark(…, odno=…, message=…)`: a value that cannot be bound raises before the `UPDATE`. -/
def Db.markStmts (db : Db) (now : Time) (id : Nat) (state : OrderState) (odno : Json) (message : PyStr) : List Stmt :=
  match db.bind odno, encodable message with
  | some number, true =>
    if db.fits number (some (decode message)) then OrderLedger.markStmts now id state number (some (decode message))
    else []
  | _, _ => []

/-- `str(e)` of a `Rejected` (kis_trading.py:63). -/
def rejectedText (code : Json) (msg : PyStr) : PyStr := py "[" ++ code.scalar.getD [] ++ py "] " ++ msg

/-- What `submit` writes on the result of `order` (order_desk.py:308-320). -/
def finish (db : Db) (now : Time) (id : Nat) : Py Accepted → List Stmt
  | .ok r => db.markStmts now id .accepted r.odno r.msg
  | .error (.rejected code msg) => db.markStmts now id .rejected .null (rejectedText code msg)
  | .error (.uncertain text) => OrderLedger.markStmts now id .unknown none (some text)
  | .error (.raised _) => []

/-- `submit` from the recorded row to its return or exception. -/
def submitTail (db : Db) (tr : String) (l : Ledger) (now : Time) (id : Nat) (first second : Attempt) : Ledger :=
  l.execAll (finish db now id (order tr first second))

end OrderDesk
