import MarketFeed.Desk.Client
/-!
# When a submitted order leaves PENDING_SUBMIT

`submit` marks the row on `Rejected`, `Uncertain` and success only, and a mark whose values cannot
be bound changes nothing. `Settles` says of the two possible attempts what they must be like for
one of the three to happen: which steps may fail and how, and which type each field of the answer
must have. `submit_leaves_pending_iff` is the equivalence.
-/

namespace OrderDesk

open OrderLedger

/-- The recorded order is no longer PENDING_SUBMIT. -/
def Resolved (l : Ledger) (id : Nat) : Prop := ∀ r ∈ l.orders, r.id = id → r.state ≠ .pendingSubmit

instance (l : Ledger) (id : Nat) : Decidable (Resolved l id) := by unfold Resolved; infer_instance

/-! ## The condition on the answers -/

/-- The exchange ended in a failure of the transport or a body that is no JSON. -/
def Http.lost : Http → Bool
  | .body (.raised e) => e.lost
  | .raised e => e.lost
  | .httpError _ (.ok (.raised e)) => decide (e.cls = .valueError)
  | _ => false

/-- The document of the answer, under any status. -/
def Http.document : Http → Option Json
  | .body (.document j) => some j
  | .httpError _ (.ok (.document j)) => some j
  | _ => none

/-- A refusal that is final: SQLite takes its text. -/
def Final (db : Db) (code : Json) (msg : PyStr) : Prop :=
  encodable (rejectedText code msg) = true ∧ db.fits none (some (decode (rejectedText code msg))) = true

/-- An acceptance without a number, or with a number and a message SQLite takes. -/
def Acceptable (db : Db) (d : Fields) : Prop :=
  ∃ o, orDict (get d "output") = some o ∧
    ∀ odno, get o "ODNO" = some odno → odno.truthy = true →
      ∃ msg number, orStrip (get d "msg1") = some msg ∧ db.bind odno = some number ∧ encodable msg = true ∧
        db.fits number (some (decode msg)) = true

/-- What the document of an answer may be: one without `rt_cd`, an acceptance that is `accepted`, or a
refusal whose code can be hashed, whose message is a text or falsy, and that is `refused`. -/
def Answers (accepted : Fields → Prop) (refused : Json → PyStr → Prop) : Json → Prop
  | .object d => ∀ v, get d "rt_cd" = some v →
    if v.isStr "0" = true then accepted d
    else (msgCd d).scalar.isSome = true ∧ ∃ msg, orStrip (get d "msg1") = some msg ∧ refused (msgCd d) msg
  | .array xs => ∀ x ∈ xs, x.isStr "rt_cd" = false
  | .str s => ¬ py "rt_cd" <:+: s
  | _ => False

/-- The token was issued, and the exchange was lost or answered. -/
def Settles (accepted : Fields → Prop) (refused : Json → PyStr → Prop) (a : Attempt) : Prop :=
  a.token = none ∧ (a.http.lost = true ∨ ∃ j, a.http.document = some j ∧ Answers accepted refused j)

/-- The request settles, and so does its repetition where it was throttled. -/
def RequestSettles (db : Db) (first second : Attempt) : Prop :=
  Settles (Acceptable db)
    (fun code msg => if throttled code = true then Settles (Acceptable db) (Final db) second else Final db code msg) first

/-! ## From the result to the row -/

theorem resolved_mark {l : Ledger} {r : Order} (hw : Wf l) (hr : r ∈ l.orders) (now : Time) {state : OrderState}
    (hs : state ≠ .pendingSubmit) (odno message : Option String) :
    Resolved (l.execAll (OrderLedger.markStmts now r.id state odno message)) r.id := by
  intro x hx hid
  have hw' : ∀ s ∈ OrderLedger.markStmts now r.id state odno message, s.isInsertOrder = false := by
    simp [markStmts, Stmt.isInsertOrder]
  rw [execAll_orders hw'] at hx
  obtain ⟨y, hy, rfl⟩ := List.mem_map.1 hx
  rw [rowAfter_id] at hid
  obtain rfl := hw.eq_of_id hy hr hid
  simp only [markStmts, rowAfter_cons, rowAfter_nil, Stmt.onRow, if_true]
  exact hs

/-- The mark's values can be bound and fit. -/
def Db.takes (db : Db) (odno : Json) (message : PyStr) : Prop :=
  ∃ number, db.bind odno = some number ∧ encodable message = true ∧ db.fits number (some (decode message)) = true

theorem resolved_dbMark {db : Db} {l : Ledger} {r : Order} (hw : Wf l) (hr : r ∈ l.orders) (hp : r.state = .pendingSubmit)
    (now : Time) {state : OrderState} (hs : state ≠ .pendingSubmit) (odno : Json) (message : PyStr) :
    Resolved (l.execAll (db.markStmts now r.id state odno message)) r.id ↔ db.takes odno message := by
  have hsame : ¬ Resolved l r.id := fun h => h r hr rfl hp
  unfold Db.markStmts Db.takes
  cases hb : db.bind odno with
  | none => simpa [execAll_nil] using hsame
  | some number =>
    cases he : encodable message with
    | false => simpa [execAll_nil] using hsame
    | true =>
      simp only
      by_cases hf : db.fits number (some (decode message)) = true
      · rw [if_pos hf]
        exact iff_of_true (resolved_mark hw hr now hs _ _) ⟨number, rfl, trivial, hf⟩
      · rw [if_neg hf]
        refine iff_of_false hsame ?_
        rintro ⟨n, hn, _, hfn⟩
        cases hn
        exact hf hfn

/-- Which results of `order` get the row out of PENDING_SUBMIT. -/
def Marks (db : Db) : Py Accepted → Prop
  | .ok r => db.takes r.odno r.msg
  | .error (.rejected code msg) => db.takes .null (rejectedText code msg)
  | .error (.uncertain _) => True
  | .error (.raised _) => False

theorem resolved_submitTail {db : Db} {tr : String} {l : Ledger} {r : Order} (hw : Wf l) (hr : r ∈ l.orders)
    (hp : r.state = .pendingSubmit) (now : Time) (first second : Attempt) :
    Resolved (submitTail db tr l now r.id first second) r.id ↔ Marks db (order tr first second) := by
  unfold submitTail
  cases ho : order tr first second with
  | ok a => exact resolved_dbMark hw hr hp now (by decide) a.odno a.msg
  | error f =>
    cases f with
    | rejected code msg => exact resolved_dbMark hw hr hp now (by decide) .null (rejectedText code msg)
    | uncertain text => exact iff_of_true (resolved_mark hw hr now (by decide) _ _) trivial
    | raised e => exact iff_of_false (fun h => h r hr rfl hp) id

/-! ## From the answers to the result -/

/-- A result of `_call_once`, by what becomes of an acceptance and of a refusal. -/
def Reads (accepted : Fields → Prop) (refused : Json → PyStr → Prop) : Py Fields → Prop
  | .ok d => accepted d
  | .error (.rejected code msg) => refused code msg
  | .error (.uncertain _) => True
  | .error (.raised _) => False

theorem marks_readOrder (db : Db) (d : Fields) : Marks db (readOrder d) ↔ Acceptable db d := by
  unfold readOrder Acceptable
  cases ho : orDict (get d "output") with
  | none => simp [Marks, raise]
  | some o =>
    cases hn : get o "ODNO" with
    | none => simp [Marks, hn]
    | some odno =>
      cases ht : odno.truthy with
      | false => simp [Marks, hn, ht]
      | true =>
        cases hm : orStrip (get d "msg1") with
        | none => simp [Marks, raise, hn, ht]
        | some msg => simp [Marks, Db.takes, hn, ht]

theorem reads_refuse (accepted : Fields → Prop) (refused : Json → PyStr → Prop) (d : Fields) :
    Reads accepted refused (refuse d) ↔
      (msgCd d).scalar.isSome = true ∧ ∃ msg, orStrip (get d "msg1") = some msg ∧ refused (msgCd d) msg := by
  unfold refuse
  cases hs : (msgCd d).scalar with
  | none => simp [Reads, raise]
  | some code =>
    cases hm : orStrip (get d "msg1") with
    | none => simp [Reads, raise]
    | some msg => simp [Reads]

theorem reads_classify (accepted : Fields → Prop) (refused : Json → PyStr → Prop) (tr : String) (j : Json) :
    Reads accepted refused (classify tr j) ↔ Answers accepted refused j := by
  cases j with
  | object d =>
    cases hv : get d "rt_cd" with
    | none => simp [classify, Answers, hv, Reads]
    | some v =>
      simp only [classify, Answers, hv, Option.some.injEq, forall_eq']
      by_cases h0 : v.isStr "0" = true
      · rw [if_pos h0, if_pos h0]
        exact Iff.rfl
      · rw [if_neg h0, if_neg h0]
        exact reads_refuse accepted refused d
  | array xs =>
    simp only [classify, Answers]
    by_cases h : (xs.any fun x => x.isStr "rt_cd") = true
    · rw [if_pos h]
      obtain ⟨x, hx, hxs⟩ := List.any_eq_true.1 h
      refine iff_of_false id fun hall => ?_
      rw [hall x hx] at hxs
      cases hxs
    · rw [if_neg h]
      refine iff_of_true trivial fun x hx => ?_
      by_contra hxs
      exact h (List.any_eq_true.2 ⟨x, hx, by simpa using hxs⟩)
  | str s =>
    simp only [classify, Answers]
    by_cases h : py "rt_cd" <:+: s
    · rw [if_pos h]
      exact iff_of_false id fun hn => hn h
    · rw [if_neg h]
      exact iff_of_true trivial h
  | null | bool | int | float => exact Iff.rfl

theorem reads_callOnce (accepted : Fields → Prop) (refused : Json → PyStr → Prop) (tr : String) (a : Attempt) :
    Reads accepted refused (callOnce tr a) ↔ Settles accepted refused a := by
  obtain ⟨token, http⟩ := a
  unfold callOnce Settles
  cases token with
  | some e => simp [Reads]
  | none =>
    simp only [true_and]
    cases http with
    | body loaded =>
      cases loaded with
      | document j => simpa [Http.lost, Http.document, doRequest, Except.bind] using reads_classify accepted refused tr j
      | raised e => cases he : e.lost <;> simp [Http.lost, Http.document, doRequest, Except.bind, Reads, he]
    | raised e => cases he : e.lost <;> simp [Http.lost, Http.document, doRequest, Except.bind, Reads, he]
    | httpError code read =>
      cases read with
      | error e => simp [Http.lost, Http.document, doRequest, Except.bind, Reads]
      | ok loaded =>
        cases loaded with
        | document j => simpa [Http.lost, Http.document, doRequest, Except.bind] using reads_classify accepted refused tr j
        | raised e =>
          by_cases he : e.cls = .valueError <;> simp [Http.lost, Http.document, doRequest, Except.bind, Reads, he]

theorem takes_null (db : Db) (code : Json) (msg : PyStr) : db.takes .null (rejectedText code msg) ↔
    Final db code msg := by
  simp [Db.takes, Db.bind, Final]

theorem marks_bind (db : Db) (x : Py Fields) :
    Marks db (x.bind readOrder) ↔ Reads (Acceptable db) (Final db) x := by
  cases x with
  | ok d => exact marks_readOrder db d
  | error f =>
    cases f with
    | rejected code msg => exact takes_null db code msg
    | uncertain | raised => exact Iff.rfl

theorem marks_order (db : Db) (tr : String) (first second : Attempt) :
    Marks db (order tr first second) ↔ RequestSettles db first second := by
  unfold order RequestSettles
  rw [marks_bind, ← reads_callOnce, call]
  cases callOnce tr first with
  | ok d => exact Iff.rfl
  | error f =>
    cases f with
    | rejected code msg =>
      cases ht : throttled code with
      | true =>
        simp only [repeats, Reads, ht, Bool.not_false, Bool.and_self, if_true]
        exact reads_callOnce (Acceptable db) (Final db) tr second
      | false => simp [repeats, Reads, ht]
    | uncertain | raised => exact Iff.rfl

/-- **A recorded order leaves PENDING_SUBMIT exactly when the request settles.** -/
theorem submit_leaves_pending_iff (db : Db) (tr : String) (l : Ledger) (now : Time) (first second : Attempt) {r : Order}
    (hw : Wf l) (hr : r ∈ l.orders) (hp : r.state = .pendingSubmit) :
    Resolved (submitTail db tr l now r.id first second) r.id ↔ RequestSettles db first second :=
  (resolved_submitTail hw hr hp now first second).trans (marks_order db tr first second)

/-- An order just recorded. -/
def recordedOrder : Ledger := Ledger.empty.call (.newOrder 0 "c1" ⟨"20260720", "005930", .buy⟩ 1 0 70000)

/-- An attempt answered with a document. -/
def answered (j : Json) : Attempt := ⟨none, .body (.document j)⟩

/-- Throttled, then accepted with a number. -/
theorem submit_leaves_pending_iff_throttled :
    Resolved (submitTail roomyDb "VTTC0802U" recordedOrder 1 1
      (answered (.object [(py "rt_cd", .str (py "1")), (py "msg_cd", .str (py "EGW00201"))]))
      (answered (.object [(py "rt_cd", .str (py "0")),
        (py "output", .object [(py "ODNO", .str (py "0000000101"))])]))) 1 := by
  refine (submit_leaves_pending_iff roomyDb "VTTC0802U" recordedOrder 1 _ _ (wf_execAll wf_empty _)
    (r := ⟨1, "c1", "20260720", "005930", .buy, 1, 0, 70000, .pendingSubmit, none, none, 0, 0, 0, 0⟩)
    (by decide) rfl).2 ?_
  refine ⟨rfl, .inr ⟨_, rfl, fun v hv => ?_⟩⟩
  obtain rfl : Json.str (py "1") = v := Option.some.inj hv
  refine ⟨by decide, [], rfl, rfl, .inr ⟨_, rfl, fun v hv => ?_⟩⟩
  obtain rfl : Json.str (py "0") = v := Option.some.inj hv
  refine ⟨_, rfl, fun odno ho _ => ?_⟩
  obtain rfl : Json.str (py "0000000101") = odno := Option.some.inj ho
  exact ⟨_, _, rfl, rfl, rfl, rfl⟩

/-- The order just recorded leaves PENDING_SUBMIT when every attempt ends as `a`. -/
abbrev SettledBy (a : Attempt) : Prop := Resolved (submitTail roomyDb "VTTC0802U" recordedOrder 1 1 a a) 1

/-- Failures `submit` does not handle: the token cannot be issued, the body ends early, the answer is the
document `null`, its message is a number. -/
theorem unhandled_failures_leave_pending :
    ¬ SettledBy ⟨some ⟨.urlError, "HTTPError"⟩, .raised ⟨.urlError, "URLError"⟩⟩ ∧
    ¬ SettledBy ⟨none, .raised ⟨.httpException, "IncompleteRead"⟩⟩ ∧ ¬ SettledBy (answered .null) ∧
    ¬ SettledBy (answered (.object [(py "rt_cd", .str (py "1")), (py "msg1", .int 7)])) := by
  refine ⟨?_, ?_, ?_, ?_⟩ <;> decide

end OrderDesk
