import MarketFeed.Lib.Run
import MarketFeed.Storage.PendingReceipts
import MarketFeed.Storage.PendingRows
/-!
# A batch is stored once (storage/db.py:768-895)

Whatever the connections do, the committed tables are those of some batches stored one after the other, each once and
as a whole; a batch that `write_batch` has returned for is one of them (`stored_once`). Neither of the errors that call
for an operator comes from batches with ids of their own.
-/

namespace Storage.Postgres

open Rowlock Keyed Lts

variable {S F : Type}

/-! ## Runs -/

def Act.within (bs : Set (StorageBatch F)) : Act S F → Prop
  | .call _ b _ => b ∈ bs
  | _ => True

variable [Max F] [Min F] [Add F] [DecidableEq S]

structure Inv (bs : Set (StorageBatch F)) (t₀ : Tables F) (w : World S F) : Prop where
  stored : Stored t₀ w.db (logRows w.log) fun s => executed (w.phase s)
  receipted : Receipted bs t₀ w.db.receipts w.phase w.log
  returned : ∀ r ∈ w.returned, ∃ b ∈ bs, r = b.receipt ∧ Recorded w.db.receipts.committed b
  raised : w.raised = []

theorem exec_receipts {d d' : Server S F} {s : S} {x : Stmt F} (h : d.exec s x = some d') :
    d'.receipts = d.receipts := by
  cases x <;> simp only [Server.exec, reduceCtorEq, Option.ite_none_right_eq_some, Option.map_eq_some_iff,
    Option.some.injEq] at h
  case trade | book | signal =>
    obtain ⟨-, rfl⟩ := h
    rfl
  case latest | bar =>
    obtain ⟨-, t, -, rfl⟩ := h
    rfl

omit [Max F] [Min F] [Add F] in
theorem empty_receipt {b : StorageBatch F} (h : b.isEmpty = true) :
    (⟨b.batchId, b.digest, 0, 0⟩ : BatchWriteReceipt) = b.receipt := by
  obtain ⟨id, digest, trades, books, signals, bars⟩ := b
  simp only [StorageBatch.isEmpty, Bool.and_eq_true, List.isEmpty_iff] at h
  obtain ⟨⟨⟨rfl, rfl⟩, rfl⟩, rfl⟩ := h
  rfl

section Steps

variable {bs : Set (StorageBatch F)} {t₀ : Tables F} {w w' : World S F} {s : S} {p : Phase F} {b : StorageBatch F}
  {at_ : String}

omit [Max F] [Min F] [Add F] in
theorem executed_update (phase : S → Phase F) (s : S) (p : Phase F) :
    (fun s' => executed (Function.update phase s p s')) = Function.update (fun s' => executed (phase s')) s
      (executed p) := by
  funext s'
  by_cases hs : s' = s
  · subst hs
    simp
  · simp [hs]

omit [DecidableEq S] in
theorem inv_start (hbs : ∀ b ∈ bs, Recorded (receiptsOf t₀) b ∨ Unrecorded (receiptsOf t₀) b) :
    Inv (S := S) bs t₀ (.start t₀) where
  stored := stored_start t₀
  receipted := {
    committed := fun id => by simp [World.start, Server.start, Table.start]
    pending := nofun
    held := nofun
    settled := hbs
    logged := nofun
    nodup := List.nodup_nil
    proper := fun _ => trivial }
  returned := nofun
  raised := rfl

theorem Inv.goto (h : Inv bs t₀ w) (ht : taken p = taken (w.phase s)) (he : executed p = executed (w.phase s))
    (hp : Proper bs w.db.receipts.committed p) : Inv bs t₀ (w.goto s p) := by
  refine { h with stored := ?_, receipted := h.receipted.goto ht hp }
  have hsame : (fun s' => executed (Function.update w.phase s p s')) = fun s' => executed (w.phase s') := by
    rw [executed_update, he]
    exact Function.update_eq_self s _
  show Stored t₀ w.db (logRows w.log) fun s' => executed (Function.update w.phase s p s')
  rw [hsame]
  exact h.stored

theorem Inv.abort (h : Inv bs t₀ w) (s : S) (ht : taken p = []) (he : executed p = [])
    (hp : Proper bs w.db.receipts.committed p) :
    Inv bs t₀ ((w.abort s).goto s p) := by
  refine { h with stored := ?_, receipted := h.receipted.abort s ht hp }
  have hstored := h.stored.abort s
  rw [← he, ← executed_update] at hstored
  exact hstored

theorem Inv.answer (h : Inv bs t₀ (w.goto s .idle)) (hb : b ∈ bs) (hr : Recorded w.db.receipts.committed b) :
    Inv bs t₀ (w.answer s b.receipt) := by
  refine { h with returned := ?_ }
  intro r hr'
  rcases List.mem_append.1 hr' with hr' | hr'
  · exact h.returned r hr'
  · exact ⟨b, hb, List.mem_singleton.1 hr', hr⟩

theorem Inv.select (h : Inv bs t₀ w) (hp : w.phase s = .select b at_) (hw : w.step (.select s) = some w') :
    Inv bs t₀ w' := by
  have htaken : taken (w.phase s) = [] := by rw [hp]; rfl
  have hexec : executed (w.phase s) = [] := by rw [hp]; rfl
  have hproper := h.receipted.proper s
  rw [hp] at hproper
  obtain ⟨hb, hne⟩ := hproper
  have hview : w.db.receipts.view s = w.db.receipts.committed :=
    Table.view_eq_committed (h.receipted.none_pending htaken)
  simp only [World.step, hp, hview] at hw
  rcases h.receipted.settled b hb with hrec | hun
  · rw [already_of_recorded hne hrec] at hw
    cases hw
    exact (h.goto (p := .idle) htaken.symm hexec.symm trivial).answer hb hrec
  · rw [already_of_unrecorded hun] at hw
    cases hw
    exact h.goto htaken.symm hexec.symm ⟨hb, hne, .inl (List.nil_append _)⟩

theorem Inv.claim (h : Inv bs t₀ w) {done rest : List ReceiptRow} {r : ReceiptRow}
    (hp : w.phase s = .claim b at_ done (r :: rest))
    (hw : w.step (.claim s) = some w') : Inv bs t₀ w' := by
  simp only [World.step, hp, Option.ite_none_right_eq_some, Option.map_eq_some_iff] at hw
  obtain ⟨-, ⟨t, inserted⟩, hc, rfl⟩ := hw
  have hrec := h.receipted.claim hp hc
  have hcommitted : t.committed = w.db.receipts.committed := by
    obtain ⟨-, ⟨-, rfl, -⟩ | ⟨-, rfl, -⟩⟩ := Table.claim_eq_some hc <;> rfl
  refine ⟨?_, hrec, ?_, h.raised⟩
  · have hsame : Function.update (fun s' => executed (w.phase s')) s [] = fun s' => executed (w.phase s') := by
      have he : executed (w.phase s) = [] := by rw [hp]; rfl
      rw [← he]
      exact Function.update_eq_self s _
    have hstored := h.stored
    rw [← hsame] at hstored
    show Stored t₀ _ _ fun s' => executed (Function.update w.phase s _ s')
    rw [executed_update]
    exact ⟨hstored.trades, hstored.latest, hstored.books, hstored.signals, hstored.bars⟩
  · intro r hr
    obtain ⟨b, hb, he, hrec⟩ := h.returned r hr
    exact ⟨b, hb, he, by show Recorded t.committed b; rw [hcommitted]; exact hrec⟩

theorem Inv.settle (h : Inv bs t₀ w) {done : List ReceiptRow} (hp : w.phase s = .claim b at_ done []) :
    Inv bs t₀ (w.settle s b at_ done) := by
  have htaken : taken (w.phase s) = done := by rw [hp]; rfl
  have hexec : executed (w.phase s) = [] := by rw [hp]; rfl
  have hproper := h.receipted.proper s
  rw [hp] at hproper
  obtain ⟨hb, hne, hor⟩ := hproper
  rw [List.append_nil] at hor
  unfold World.settle
  rcases hor with rfl | ⟨rfl, -, hrec⟩
  · rw [if_pos rfl]
    exact h.goto htaken.symm hexec.symm ⟨hb, hne, List.nil_append _⟩
  · have hlen : ([] : List ReceiptRow).length ≠ (b.receipts at_).length := by
      intro hlen
      exact receipts_ne_nil hne at_ (List.eq_nil_of_length_eq_zero hlen.symm)
    have hnone := h.receipted.none_pending htaken
    rw [if_neg hlen, if_neg (by simp), Table.view_eq_committed hnone, reconcile_of_recorded hrec]
    have hgone := h.abort (p := .idle) s rfl rfl trivial
    refine Inv.answer (w := { w with db := w.db.commit s }) ?_ hb (by
      show Recorded (w.db.receipts.view s) b
      rw [Table.view_eq_committed hnone]
      exact hrec)
    refine ⟨?_, ?_, ?_, h.raised⟩
    · have hstored := h.stored.commit s
      have hidle : executed (.idle : Phase F) = [] := rfl
      rw [hexec, List.append_nil, ← hidle, ← executed_update] at hstored
      exact hstored
    · show Receipted bs t₀ (w.db.receipts.commit s) _ _
      rw [Table.commit_eq_abort hnone]
      exact hgone.receipted
    · intro r hr
      obtain ⟨b', hb', he, hr'⟩ := h.returned r hr
      refine ⟨b', hb', he, ?_⟩
      show Recorded (w.db.receipts.view s) b'
      rw [Table.view_eq_committed hnone]
      exact hr'

theorem Inv.write (h : Inv bs t₀ w) {done rest : List (Stmt F)} {x : Stmt F}
    (hp : w.phase s = .write b at_ done (x :: rest))
    (hw : w.step (.write s) = some w') : Inv bs t₀ w' := by
  simp only [World.step, hp, Option.map_eq_some_iff] at hw
  obtain ⟨d, hd, rfl⟩ := hw
  have hproper := h.receipted.proper s
  rw [hp] at hproper
  obtain ⟨hb, hne, happend⟩ := hproper
  have hreceipts : d.receipts = w.db.receipts := exec_receipts hd
  have hrec := h.receipted.goto (s := s) (p := .write b at_ (done ++ [x]) rest) (by rw [hp]; rfl)
    ⟨hb, hne, by rw [List.append_assoc]; exact happend⟩
  refine ⟨?_, ?_, ?_, h.raised⟩
  · have hstored := h.stored.exec hd
    have he : executed (w.phase s) = done := by rw [hp]; rfl
    rw [he] at hstored
    show Stored t₀ d _ fun s' => executed (Function.update w.phase s _ s')
    rw [executed_update]
    exact hstored
  · show Receipted bs t₀ d.receipts _ _
    rw [hreceipts]
    exact hrec
  · show ∀ r ∈ w.returned, ∃ b ∈ bs, r = b.receipt ∧ Recorded d.receipts.committed b
    rw [hreceipts]
    exact h.returned

theorem Inv.commit (hbs : Set.InjOn StorageBatch.batchId bs) (h : Inv bs t₀ w)
    {done : List (Stmt F)} (hp : w.phase s = .write b at_ done [])
    {acked : Bool} (hw : w.step (.commit s acked) = some w') : Inv bs t₀ w' := by
  have hproper := h.receipted.proper s
  rw [hp] at hproper
  obtain ⟨hb, hne, hdone⟩ := hproper
  rw [List.append_nil] at hdone
  have hexec : executed (w.phase s) = dataScript b := by rw [hp, ← hdone]; rfl
  have hbase : ∀ p : Phase F, taken p = [] → executed p = [] → (∀ c, Proper bs c p) →
      Inv bs t₀ ({ w with db := w.db.commit s, log := w.log ++ [(b, at_)] }.goto s p) := by
    intro p ht he hpr
    have hrec := h.receipted.commit hbs hp ht hpr
    refine ⟨?_, hrec, ?_, h.raised⟩
    · have hstored := h.stored.commit s
      rw [hexec, ← logRows_concat (p := (b, at_)), ← he, ← executed_update] at hstored
      exact hstored
    · intro r hr
      obtain ⟨b', hb', heq, hr'⟩ := h.returned r hr
      refine ⟨b', hb', heq, hr'.mono fun id r hid => ?_⟩
      have hown : ∀ v, w.db.receipts.pending id ≠ some (s, v) := by
        intro v hv
        rw [h.receipted.not_pending hid] at hv
        cases hv
      exact (Table.view_of_not_pending hown).trans hid
  simp only [World.step, hp, Option.some.injEq] at hw
  subst hw
  cases acked with
  | false => exact hbase .dead rfl rfl fun _ => trivial
  | true =>
    have hidle := hbase .idle rfl rfl fun _ => trivial
    refine hidle.answer hb ?_
    have hlogged := hidle.receipted.logged (b, at_) (List.mem_append_right w.log (List.mem_singleton_self (b, at_)))
    exact hlogged.2.2.1

/-- **One step of any session.** -/
theorem inv_step (hbs : Set.InjOn StorageBatch.batchId bs) {a : Act S F} (h : Inv bs t₀ w) (ha : a.within bs)
    (hw : w.step a = some w') :
    Inv bs t₀ w' := by
  cases a with
  | call s b at_ =>
    cases hp : w.phase s <;> simp only [World.step, hp, reduceCtorEq, Option.some.injEq] at hw
    have hidle : taken (w.phase s) = [] ∧ executed (w.phase s) = [] := by rw [hp]; exact ⟨rfl, rfl⟩
    subst hw
    split
    case isTrue hempty =>
      have hzero : (⟨b.batchId, b.digest, 0, 0⟩ : BatchWriteReceipt) = b.receipt := empty_receipt hempty
      rw [hzero]
      refine (h.goto (p := .idle) hidle.1.symm hidle.2.symm trivial).answer ha fun e he => ?_
      rw [expected_eq_nil hempty] at he
      cases he
    case isFalse hne => exact h.goto hidle.1.symm hidle.2.symm ⟨ha, by simpa using hne⟩
  | select s =>
    cases hp : w.phase s with
    | select b at_ => exact h.select hp hw
    | idle | dead | claim b at_ done rest | write b at_ done rest => simp [World.step, hp] at hw
  | claim s =>
    cases hp : w.phase s with
    | claim b at_ done rest =>
      cases rest with
      | cons r rest => exact h.claim hp hw
      | nil => simp [World.step, hp] at hw
    | idle | dead | select b at_ | write b at_ done rest => simp [World.step, hp] at hw
  | settle s =>
    cases hp : w.phase s with
    | claim b at_ done rest =>
      cases rest with
      | nil =>
        simp only [World.step, hp, Option.some.injEq] at hw
        exact hw ▸ h.settle hp
      | cons r rest => simp [World.step, hp] at hw
    | idle | dead | select b at_ | write b at_ done rest => simp [World.step, hp] at hw
  | write s =>
    cases hp : w.phase s with
    | write b at_ done rest =>
      cases rest with
      | cons x rest => exact h.write hp hw
      | nil => simp [World.step, hp] at hw
    | idle | dead | select b at_ | claim b at_ done rest => simp [World.step, hp] at hw
  | commit s acked =>
    cases hp : w.phase s with
    | write b at_ done rest =>
      cases rest with
      | nil => exact h.commit hbs hp hw
      | cons x rest => simp [World.step, hp] at hw
    | idle | dead | select b at_ | claim b at_ done rest => simp [World.step, hp] at hw
  | rollback s =>
    simp only [World.step, Option.ite_none_right_eq_some, Option.some.injEq] at hw
    obtain ⟨-, rfl⟩ := hw
    exact h.abort s rfl rfl trivial
  | crash s =>
    cases hw
    exact h.abort s rfl rfl trivial

end Steps

/-- **Once, and as a whole.** Some of the batches may have been recorded at the start. -/
theorem stored_once {bs : Set (StorageBatch F)} (hbs : Set.InjOn StorageBatch.batchId bs) {t₀ : Tables F}
    (h₀ : ∀ b ∈ bs, Recorded (receiptsOf t₀) b ∨ Unrecorded (receiptsOf t₀) b) {acts : List (Act S F)} {w : World S F}
    (h : Run World.step (fun _ a => a.within bs) (.start t₀) acts w) :
    Agrees w.db (storeAll t₀ w.log) ∧ (w.log.map (·.1.batchId)).Nodup ∧
      (∀ p ∈ w.log, p.1 ∈ bs ∧ Unrecorded (receiptsOf t₀) p.1) ∧
      (∀ r ∈ w.returned, ∃ b ∈ bs, r = b.receipt ∧
      (b.isEmpty = true ∨ Recorded (receiptsOf t₀) b ∨ ∃ at_, (b, at_) ∈ w.log)) ∧ w.raised = [] := by
  have hinv : Inv bs t₀ w := h.invariant (inv_start h₀) fun _ _ _ hi ha hw => inv_step hbs hi ha hw
  have hlogged := hinv.receipted.logged
  refine ⟨hinv.stored.agrees hinv.receipted.committed, hinv.receipted.nodup,
    fun p hp => ⟨(hlogged p hp).1, (hlogged p hp).2.2.2⟩, ?_, hinv.raised⟩
  intro r hr
  obtain ⟨b, hb, heq, hrec⟩ := hinv.returned r hr
  refine ⟨b, hb, heq, ?_⟩
  cases hne : b.isEmpty with
  | true => exact .inl rfl
  | false => exact .inr (hinv.receipted.origin hbs h₀ hb hne hrec)

section

/-- A trade and a bar. -/
def onceBatch : StorageBatch ℤ :=
  ⟨"batch:1", "d", [⟨1, "UPBIT", "BTC", 10, 1, 1, 2, 1, 1⟩], [], [],
    [⟨0, "UPBIT", "BTC", 10, 10, 10, 10, 1, 10, 10, 1⟩]⟩

/-- The second connection waits for the first, whose acknowledgement is lost, and finds the receipts. -/
def onceActs : List (Act ℕ ℤ) :=
  [.call 0 onceBatch "t0", .call 1 onceBatch "t1", .select 0, .select 1, .claim 0, .claim 0, .settle 0, .write 0,
    .write 0, .write 0,
    .commit 0 false, .claim 1, .claim 1, .settle 1]

instance (a : Act S ℤ) : Decidable (a.within {b | b = onceBatch}) :=
  match a with
  | .call _ b _ => inferInstanceAs (Decidable (b = onceBatch))
  | .select _ | .claim _ | .settle _ | .write _ | .commit _ _ | .rollback _ | .crash _ => .isTrue trivial

theorem stored_once_two : ∃ w : World ℕ ℤ, w.returned = [onceBatch.receipt] ∧ w.log = [(onceBatch, "t0")] ∧
    Agrees w.db (storeAll .empty w.log) ∧ w.raised = [] := by
  have hrun : ∃ w, Run World.step (fun _ a => a.within {b | b = onceBatch}) (.start .empty) onceActs w ∧
      (w.returned = [onceBatch.receipt] ∧ w.log = [(onceBatch, "t0")]) := exists_run (by decide +kernel)
  obtain ⟨w, hw, hret, hlog⟩ := hrun
  have hinj : Set.InjOn StorageBatch.batchId {b | b = onceBatch} := fun _ hb _ hb' _ => hb.trans hb'.symm
  have h := stored_once hinj (fun b _ => .inr (unrecorded_empty b)) hw
  exact ⟨w, hret, hlog, h.1, h.2.2.2.2⟩

end

end Storage.Postgres
