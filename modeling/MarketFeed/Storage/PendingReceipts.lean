import Mathlib.Data.Set.Function
import MarketFeed.Storage.Sessions
import MarketFeed.Storage.RetrySafe
/-!
# The receipts of concurrent batches (storage/db.py:815-895)

`Receipted` is kept by every step: the receipts of a batch are all committed or none is, a session that has claimed
one claims all, and one that finds the first of them there finds all of them.
-/

namespace Storage.Postgres

open Rowlock Keyed

variable {S F : Type}

/-! ## The receipts of a batch -/

def Recorded (receipts : String → Option ReceiptRow) (b : StorageBatch F) : Prop :=
  ∀ e ∈ b.expected, ∃ r, receipts (receiptId b e.1) = some r ∧ r.tableName = e.1 ∧ r.batchHash = b.digest ∧
    r.rowCount = e.2

def Unrecorded (receipts : String → Option ReceiptRow) (b : StorageBatch F) : Prop :=
  ∀ e ∈ b.expected, receipts (receiptId b e.1) = none

section Receipts

variable {b b' : StorageBatch F} {receipts receipts' : String → Option ReceiptRow} {at_ : String}

/-- The last colon ends the batch id. -/
theorem split_last {c : Char} {a a' n n' : List Char} (hn : c ∉ n) (hn' : c ∉ n') (h : a ++ c :: n = a' ++ c :: n') :
    a = a' ∧ n = n' := by
  induction a generalizing a' with
  | nil =>
    cases a' with
    | nil => simpa using h
    | cons x a' =>
      obtain ⟨-, rfl⟩ := List.cons.inj h
      exact absurd (List.mem_append_right a' List.mem_cons_self) hn
  | cons y a ih =>
    cases a' with
    | nil =>
      obtain ⟨-, rfl⟩ := List.cons.inj h
      exact absurd (List.mem_append_right a List.mem_cons_self) hn'
    | cons x a' =>
      obtain ⟨rfl, htail⟩ := List.cons.inj h
      obtain ⟨rfl, rfl⟩ := ih htail
      exact ⟨rfl, rfl⟩

theorem name_no_colon {e : String × ℕ} (h : e ∈ b.expected) : ':' ∉ e.1.toList := by
  have hname : e.1 ∈ ["trades", "book_top", "signals", "bars_1m"] := by
    have := List.mem_map_of_mem (f := (·.1)) (List.mem_of_mem_filter h)
    simpa [StorageBatch.tableCounts] using this
  have hall : ∀ n ∈ ["trades", "book_top", "signals", "bars_1m"], ':' ∉ n.toList := by decide
  exact hall e.1 hname

theorem receiptId_inj {e e' : String × ℕ} (he : e ∈ b.expected) (he' : e' ∈ b'.expected)
    (h : receiptId b e.1 = receiptId b' e'.1) :
    b.batchId = b'.batchId ∧ e.1 = e'.1 := by
  have hl := congrArg String.toList h
  simp only [receiptId, String.toList_append, List.append_assoc] at hl
  obtain ⟨hid, hname⟩ := split_last (name_no_colon he) (name_no_colon he') hl
  exact ⟨String.toList_inj.1 hid, String.toList_inj.1 hname⟩

theorem mem_receipts {r : ReceiptRow} (h : r ∈ b.receipts at_) :
    ∃ e ∈ b.expected, r = ⟨receiptId b e.1, "writer", e.1, b.digest, e.2, at_⟩ := by
  obtain ⟨e, he, rfl⟩ := List.mem_map.1 h
  exact ⟨e, he, rfl⟩

theorem receipts_ids_nodup (b : StorageBatch F) (at_ : String) : ((b.receipts at_).map ReceiptRow.receiptId).Nodup :=
  receiptIds_nodup b at_

theorem receipts_ne_nil (h : b.isEmpty = false) (at_ : String) : b.receipts at_ ≠ [] := by
  simpa [StorageBatch.receipts] using expected_ne_nil h

theorem mem_foundReceipts {r : ReceiptRow} : r ∈ foundReceipts receipts b ↔
    ∃ e ∈ b.expected, receipts (receiptId b e.1) = some r :=
  List.mem_filterMap

theorem reconcile_of_recorded (h : Recorded receipts b) : reconcile (foundReceipts receipts b) b = .ok () := by
  have hrows : (foundReceipts receipts b).all (fun r => b.expected.any (·.1 == r.tableName)) = true := by
    rw [List.all_eq_true]
    intro r hr
    obtain ⟨e, he, hre⟩ := mem_foundReceipts.1 hr
    obtain ⟨r', hr', hname, -⟩ := h e he
    cases hre.symm.trans hr'
    exact List.any_eq_true.2 ⟨e, he, by simp [hname]⟩
  have hnames : b.expected.all (fun e => (foundReceipts receipts b).any (·.tableName == e.1)) = true := by
    rw [List.all_eq_true]
    intro e he
    obtain ⟨r, hr, hname, -⟩ := h e he
    exact List.any_eq_true.2 ⟨r, mem_foundReceipts.2 ⟨e, he, hr⟩, by simp [hname]⟩
  have hmatch : (b.expected.all fun e => (foundRow (foundReceipts receipts b) e.1).any fun r =>
      r.batchHash == b.digest && r.rowCount == e.2) = true := by
    rw [List.all_eq_true]
    intro e he
    obtain ⟨r, hr, hname, -⟩ := h e he
    cases hf : foundRow (foundReceipts receipts b) e.1 with
    | none =>
      have hmem : r ∈ (foundReceipts receipts b).reverse := List.mem_reverse.2 (mem_foundReceipts.2 ⟨e, he, hr⟩)
      exact absurd (List.find?_eq_none.1 hf r hmem) (by simp [hname])
    | some x =>
      have hx : x.tableName = e.1 := by simpa using List.find?_some hf
      obtain ⟨e', he', hxe⟩ := mem_foundReceipts.1 (List.mem_reverse.1 (List.mem_of_find?_eq_some hf))
      obtain ⟨x', hx', hname', hhash, hcount⟩ := h e' he'
      cases hxe.symm.trans hx'
      have heq : e' = e := List.inj_on_of_nodup_map (expected_names_nodup b) he' he (hname'.symm.trans hx)
      simp [hhash, hcount, heq]
  simp [reconcile, hrows, hnames, hmatch]

theorem already_of_recorded (hne : b.isEmpty = false) (h : Recorded receipts b) :
    batchAlreadyCommitted receipts b = .ok true := by
  have hexp := expected_ne_nil hne
  obtain ⟨e, he⟩ := List.exists_mem_of_ne_nil _ hexp
  obtain ⟨r, hr, -⟩ := h e he
  have hrows : foundReceipts receipts b ≠ [] := List.ne_nil_of_mem (mem_foundReceipts.2 ⟨e, he, hr⟩)
  simp [batchAlreadyCommitted, hexp, hrows, reconcile_of_recorded h, Except.map]

theorem already_of_unrecorded (h : Unrecorded receipts b) : batchAlreadyCommitted receipts b = .ok false := by
  have hrows : foundReceipts receipts b = [] := by
    rw [List.eq_nil_iff_forall_not_mem]
    intro r hr
    obtain ⟨e, he, hre⟩ := mem_foundReceipts.1 hr
    rw [h e he] at hre
    cases hre
  simp [batchAlreadyCommitted, hrows]

theorem Recorded.mono (h : Recorded receipts b) (hle : ∀ id r, receipts id = some r → receipts' id = some r) :
    Recorded receipts' b := by
  intro e he
  obtain ⟨r, hr, hrow⟩ := h e he
  exact ⟨r, hle _ _ hr, hrow⟩

end Receipts

/-! ## The receipts of all connections -/

/-- The receipts a session holds uncommitted. -/
def taken : Phase F → List ReceiptRow
  | .claim _ _ taken _ => taken
  | .write b at_ _ _ => b.receipts at_
  | _ => []

/-- The rows its transaction has executed. -/
def executed : Phase F → List (Stmt F)
  | .write _ _ done _ => done
  | _ => []

/-- A session that claims has claimed every receipt so far, or none because the batch is recorded. -/
def Proper (bs : Set (StorageBatch F)) (receipts : String → Option ReceiptRow) : Phase F → Prop
  | .idle | .dead => True
  | .select b _ => b ∈ bs ∧ b.isEmpty = false
  | .claim b at_ taken rest =>
    b ∈ bs ∧ b.isEmpty = false ∧
      (taken ++ rest = b.receipts at_ ∨ (taken = [] ∧ rest <:+ b.receipts at_ ∧ Recorded receipts b))
  | .write b _ done rest => b ∈ bs ∧ b.isEmpty = false ∧ done ++ rest = dataScript b

/-- The receipts that the tables have. -/
def receiptsOf (t : Tables F) (id : String) : Option ReceiptRow := lookup ReceiptRow.receiptId id t.receipts

theorem unrecorded_empty (b : StorageBatch F) : Unrecorded (receiptsOf (.empty : Tables F)) b := fun _ _ => rfl

/-- Receipts, phases and log of a state that a run reaches; the batches are those of `bs`. -/
structure Receipted (bs : Set (StorageBatch F)) (t₀ : Tables F) (receipts : Table S String ReceiptRow)
    (phase : S → Phase F)
    (log : List (StorageBatch F × String)) : Prop where
  committed : ∀ id, receipts.committed id = lookup ReceiptRow.receiptId id
    (t₀.receipts ++ log.flatMap fun p => p.1.receipts p.2)
  pending : ∀ id s r, receipts.pending id = some (s, r) → r.receiptId = id ∧ r ∈ taken (phase s)
  held : ∀ s, ∀ r ∈ taken (phase s), receipts.pending r.receiptId = some (s, r) ∧ receipts.committed r.receiptId = none
  settled : ∀ b ∈ bs, Recorded receipts.committed b ∨ Unrecorded receipts.committed b
  logged : ∀ p ∈ log, p.1 ∈ bs ∧ p.1.isEmpty = false ∧ Recorded receipts.committed p.1 ∧ Unrecorded (receiptsOf t₀) p.1
  nodup : (log.map (·.1.batchId)).Nodup
  proper : ∀ s, Proper bs receipts.committed (phase s)

theorem Proper.mono {bs : Set (StorageBatch F)} {c c' : String → Option ReceiptRow} {p : Phase F} (h : Proper bs c p)
    (hle : ∀ id r, c id = some r → c' id = some r) : Proper bs c' p := by
  cases p with
  | claim b at_ taken rest =>
    obtain ⟨hb, hne, hor⟩ := h
    exact ⟨hb, hne, hor.imp_right fun ⟨ht, hs, hr⟩ => ⟨ht, hs, hr.mono hle⟩⟩
  | idle | dead | select b at_ | write b at_ done rest => exact h

namespace Receipted

variable {bs : Set (StorageBatch F)} {t₀ : Tables F} {receipts : Table S String ReceiptRow} {phase : S → Phase F}
  {log : List (StorageBatch F × String)} {s : S} {p : Phase F}

/-- Nobody has a receipt pending that is committed. -/
theorem not_pending (h : Receipted bs t₀ receipts phase log)
    {id : String} {r : ReceiptRow} (hc : receipts.committed id = some r) :
    receipts.pending id = none := by
  cases hp : receipts.pending id with
  | none => rfl
  | some q =>
    obtain ⟨s', r'⟩ := q
    obtain ⟨rfl, hr'⟩ := h.pending id s' r' hp
    rw [(h.held s' r' hr').2] at hc
    cases hc

/-- The receipts a session has taken are not recorded. -/
theorem not_recorded (h : Receipted bs t₀ receipts phase log) {b : StorageBatch F} {at_ : String} {r : ReceiptRow}
    (hr : r ∈ taken (phase s))
    (hb : r ∈ b.receipts at_) : ¬ Recorded receipts.committed b := by
  intro hrec
  obtain ⟨e, he, rfl⟩ := mem_receipts hb
  obtain ⟨x, hx, -⟩ := hrec e he
  rw [(h.held s _ hr).2] at hx
  cases hx

theorem none_pending (h : Receipted bs t₀ receipts phase log) (ht : taken (phase s) = []) (id : String)
    (v : ReceiptRow) :
    receipts.pending id ≠ some (s, v) := by
  intro hv
  have hin := (h.pending id s v hv).2
  rw [ht] at hin
  cases hin

variable [DecidableEq S]

/-- A session goes on without a change to the receipts. -/
theorem goto (h : Receipted bs t₀ receipts phase log) (ht : taken p = taken (phase s))
    (hp : Proper bs receipts.committed p) :
    Receipted bs t₀ receipts (Function.update phase s p) log := by
  have htaken : ∀ s', taken (Function.update phase s p s') = taken (phase s') := by
    intro s'
    by_cases hs : s' = s
    · rw [hs, Function.update_self, ht]
    · rw [Function.update_of_ne hs]
  refine { h with pending := ?_, held := ?_, proper := ?_ }
  · intro id s' r hr
    rw [htaken]
    exact h.pending id s' r hr
  · intro s' r hr
    rw [htaken] at hr
    exact h.held s' r hr
  · intro s'
    by_cases hs : s' = s
    · rw [hs, Function.update_self]
      exact hp
    · rw [Function.update_of_ne hs]
      exact h.proper s'

/-- A session that gives up its transaction. -/
theorem abort (h : Receipted bs t₀ receipts phase log) (s : S) (ht : taken p = [])
    (hp : Proper bs receipts.committed p) :
    Receipted bs t₀ (receipts.abort s) (Function.update phase s p) log := by
  refine { h with pending := ?_, held := ?_, proper := ?_ }
  · intro id s' r hr
    obtain ⟨hr, hs⟩ := Table.abort_pending.1 hr
    rw [Function.update_of_ne hs]
    exact h.pending id s' r hr
  · intro s' r hr
    by_cases hs : s' = s
    · rw [hs, Function.update_self, ht] at hr
      cases hr
    · rw [Function.update_of_ne hs] at hr
      obtain ⟨hpend, hnone⟩ := h.held s' r hr
      exact ⟨Table.abort_pending.2 ⟨hpend, hs⟩, hnone⟩
  · intro s'
    by_cases hs : s' = s
    · rw [hs, Function.update_self]
      exact hp
    · rw [Function.update_of_ne hs]
      exact h.proper s'

section Claim

variable {b : StorageBatch F} {at_ : String} {done rest : List ReceiptRow} {r : ReceiptRow}

omit [DecidableEq S] in
/-- The receipt that comes next is one of the batch, and not claimed by the session yet. -/
theorem next_receipt (h : Receipted bs t₀ receipts phase log) (hp : phase s = .claim b at_ done (r :: rest)) :
    r ∈ b.receipts at_ ∧ ∀ v, receipts.pending r.receiptId ≠ some (s, v) := by
  have hproper := h.proper s
  rw [hp] at hproper
  obtain ⟨hb, hne, hor⟩ := hproper
  have htaken : taken (phase s) = done := by rw [hp]; rfl
  rcases hor with hor | ⟨hnil, hsuffix, -⟩
  · refine ⟨hor ▸ List.mem_append_right done List.mem_cons_self, fun v hv => ?_⟩
    obtain ⟨hid, hin⟩ := h.pending _ s v hv
    have hn := receipts_ids_nodup b at_
    rw [← hor, List.map_append, List.map_cons, List.nodup_append] at hn
    exact hn.2.2 _ (List.mem_map.2 ⟨v, htaken ▸ hin, hid⟩) _ List.mem_cons_self rfl
  · refine ⟨hsuffix.subset List.mem_cons_self, fun v hv => ?_⟩
    obtain ⟨-, hin⟩ := h.pending _ s v hv
    rw [htaken, hnil] at hin
    cases hin

/-- The receipt is there: another transaction has committed it, with the others of the batch. -/
theorem claim_there (h : Receipted bs t₀ receipts phase log) (hp : phase s = .claim b at_ done (r :: rest))
    (hsome : (receipts.committed r.receiptId).isSome) :
    Receipted bs t₀ receipts (Function.update phase s (.claim b at_ done rest)) log := by
  obtain ⟨hmem, -⟩ := h.next_receipt hp
  have hproper := h.proper s
  rw [hp] at hproper
  obtain ⟨hb, hne, hor⟩ := hproper
  refine h.goto (by rw [hp]; rfl) ⟨hb, hne, .inr ?_⟩
  rcases hor with hor | ⟨hnil, hsuffix, hrec⟩
  · have hrec : Recorded receipts.committed b := by
      obtain ⟨e, he, rfl⟩ := mem_receipts hmem
      refine (h.settled b hb).resolve_right fun hun => ?_
      rw [hun e he] at hsome
      cases hsome
    have hnil : done = [] := by
      rw [List.eq_nil_iff_forall_not_mem]
      intro x hx
      exact h.not_recorded (s := s) (by rw [hp]; exact hx) (hor ▸ List.mem_append_left _ hx) hrec
    subst hnil
    exact ⟨rfl, hor ▸ List.suffix_cons r rest, hrec⟩
  · exact ⟨hnil, (List.suffix_cons r rest).trans hsuffix, hrec⟩

/-- The receipt is new: so were those before it. -/
theorem claim_new (h : Receipted bs t₀ receipts phase log) (hp : phase s = .claim b at_ done (r :: rest))
    (hfree : receipts.free s r.receiptId = true) (hnone : receipts.committed r.receiptId = none) :
    Receipted bs t₀ (receipts.set s r.receiptId r) (Function.update phase s (.claim b at_ (done ++ [r]) rest)) log := by
  obtain ⟨hmem, hown⟩ := h.next_receipt hp
  have htaken : taken (phase s) = done := by rw [hp]; rfl
  have hproper := h.proper s
  rw [hp] at hproper
  obtain ⟨hb, hne, hor⟩ := hproper
  have happend : done ++ r :: rest = b.receipts at_ := by
    refine hor.resolve_right ?_
    rintro ⟨-, -, hrec⟩
    obtain ⟨e, he, rfl⟩ := mem_receipts hmem
    obtain ⟨x, hx, -⟩ := hrec e he
    rw [hx] at hnone
    cases hnone
  have hother : ∀ {s' : S} {x : ReceiptRow}, x ∈ taken (phase s') → x.receiptId ≠ r.receiptId := by
    intro s' x hx heq
    have hpend := (h.held s' x hx).1
    rw [heq] at hpend
    obtain rfl : s' = s := Table.free_iff.1 hfree s' x hpend
    exact hown x hpend
  refine { h with pending := ?_, held := ?_, proper := ?_ }
  · intro id s' x hx
    by_cases hid : id = r.receiptId
    · subst hid
      rw [Table.set_pending_self] at hx
      cases hx
      exact ⟨rfl, by rw [Function.update_self]; exact List.mem_append_right done (List.mem_singleton_self r)⟩
    · rw [Table.set_pending_of_ne hid] at hx
      obtain ⟨hxid, hin⟩ := h.pending id s' x hx
      refine ⟨hxid, ?_⟩
      by_cases hs : s' = s
      · subst hs
        rw [Function.update_self]
        exact List.mem_append_left [r] (htaken ▸ hin)
      · rw [Function.update_of_ne hs]
        exact hin
  · intro s' x hx
    have hor : (s' = s ∧ x = r) ∨ x ∈ taken (phase s') := by
      by_cases hs : s' = s
      · subst hs
        rw [Function.update_self] at hx
        rcases List.mem_append.1 hx with hx | hx
        · exact .inr (htaken ▸ hx)
        · exact .inl ⟨rfl, List.mem_singleton.1 hx⟩
      · rw [Function.update_of_ne hs] at hx
        exact .inr hx
    rcases hor with ⟨rfl, rfl⟩ | hx
    · exact ⟨Table.set_pending_self, hnone⟩
    · obtain ⟨hpend, hnone⟩ := h.held s' x hx
      exact ⟨by rw [Table.set_pending_of_ne (hother hx)]; exact hpend, hnone⟩
  · intro s'
    by_cases hs : s' = s
    · rw [hs, Function.update_self]
      exact ⟨hb, hne, .inl (by rw [List.append_assoc]; exact happend)⟩
    · rw [Function.update_of_ne hs]
      exact h.proper s'

/-- **One receipt.** -/
theorem claim (h : Receipted bs t₀ receipts phase log) (hp : phase s = .claim b at_ done (r :: rest))
    {receipts' : Table S String ReceiptRow} {inserted : Bool}
    (hc : receipts.claim s ReceiptRow.receiptId r = some (receipts', inserted)) :
    Receipted bs t₀ receipts' (Function.update phase s (.claim b at_ (if inserted then done ++ [r] else done) rest))
      log := by
  have hview : receipts.view s r.receiptId = receipts.committed r.receiptId :=
    Table.view_of_not_pending (h.next_receipt hp).2
  obtain ⟨hfree, ⟨rfl, rfl, hsome⟩ | ⟨rfl, rfl, hnone⟩⟩ := Table.claim_eq_some hc
  · exact h.claim_there hp (hview ▸ hsome)
  · exact h.claim_new hp hfree (hview ▸ hnone)

end Claim

section Commit

variable {b : StorageBatch F} {at_ : String} {done rest : List (Stmt F)}

/-- What the commit of a batch does to the receipts. -/
theorem view_receipts (h : Receipted bs t₀ receipts phase log) (hp : phase s = .write b at_ done rest) :
    (∀ r ∈ b.receipts at_, receipts.view s r.receiptId = some r ∧ receipts.committed r.receiptId = none) ∧
      ∀ id, id ∉ (b.receipts at_).map ReceiptRow.receiptId → receipts.view s id = receipts.committed id := by
  have htaken : taken (phase s) = b.receipts at_ := by rw [hp]; rfl
  constructor
  · intro r hr
    obtain ⟨hpend, hnone⟩ := h.held s r (htaken ▸ hr)
    exact ⟨Table.view_of_pending hpend, hnone⟩
  · intro id hid
    apply Table.view_of_not_pending
    intro v hv
    obtain ⟨hvid, hin⟩ := h.pending id s v hv
    exact hid (List.mem_map.2 ⟨v, htaken ▸ hin, hvid⟩)

/-- **The commit of a batch.** -/
theorem commit (hbs : Set.InjOn StorageBatch.batchId bs) (h : Receipted bs t₀ receipts phase log)
    (hp : phase s = .write b at_ done rest)
    (ht : taken p = []) (hproper : ∀ c, Proper bs c p) :
    Receipted bs t₀ (receipts.commit s) (Function.update phase s p) (log ++ [(b, at_)]) := by
  obtain ⟨hown, hrest⟩ := h.view_receipts hp
  have hb := h.proper s
  rw [hp] at hb
  obtain ⟨hb, hne, -⟩ := hb
  have hmono : ∀ id r, receipts.committed id = some r → receipts.view s id = some r := by
    intro id r hid
    by_cases hin : id ∈ (b.receipts at_).map ReceiptRow.receiptId
    · obtain ⟨x, hx, rfl⟩ := List.mem_map.1 hin
      rw [(hown x hx).2] at hid
      cases hid
    · rw [hrest id hin, hid]
  have hrec : Recorded (receipts.view s) b := fun e he => ⟨_, (hown _ (List.mem_map_of_mem he)).1, rfl, rfl, rfl⟩
  have hun : Unrecorded (receiptsOf t₀) b := by
    intro e he
    have hnone := (hown _ (List.mem_map_of_mem he)).2
    rw [h.committed, lookup, List.find?_append, Option.or_eq_none_iff] at hnone
    exact hnone.1
  have hnew : b.batchId ∉ log.map (·.1.batchId) := by
    intro hin
    obtain ⟨q, hq, hid⟩ := List.mem_map.1 hin
    obtain ⟨hqb, -, hqrec, -⟩ := h.logged q hq
    rw [hbs hqb hb hid] at hqrec
    obtain ⟨r, hr⟩ := List.exists_mem_of_ne_nil _ (receipts_ne_nil hne at_)
    exact h.not_recorded (s := s) (by rw [hp]; exact hr) hr hqrec
  have hgone := h.abort s ht (hproper _)
  refine ⟨?_, hgone.pending, ?_, ?_, ?_, ?_, ?_⟩
  · intro id
    rw [List.flatMap_append, List.flatMap_singleton, ← List.append_assoc, lookup, List.find?_append, ← lookup,
      ← lookup, ← h.committed]
    by_cases hin : id ∈ (b.receipts at_).map ReceiptRow.receiptId
    · obtain ⟨x, hx, rfl⟩ := List.mem_map.1 hin
      rw [(hown x hx).2, Option.none_or, lookup_key_of_nodup (receipts_ids_nodup b at_) hx]
      exact (hown x hx).1
    · have hnone : lookup ReceiptRow.receiptId id (b.receipts at_) = none := by
        rw [← Option.not_isSome_iff_eq_none, ← mem_keys_iff]
        exact hin
      rw [hnone, Option.or_none]
      exact hrest id hin
  · intro s' r hr
    obtain ⟨hpend, hnone⟩ := hgone.held s' r hr
    obtain ⟨hpend', hs⟩ := Table.abort_pending.1 hpend
    exact ⟨hpend, by rw [Table.commit_committed_of_other hpend' hs]; exact hnone⟩
  · intro b' hb'
    rcases h.settled b' hb' with hr | hun
    · exact .inl (hr.mono hmono)
    · by_cases hid : b'.batchId = b.batchId
      · exact .inl (hbs hb' hb hid ▸ hrec)
      · refine .inr fun e he => (hrest _ fun hin => ?_).trans (hun e he)
        obtain ⟨x, hx, hxid⟩ := List.mem_map.1 hin
        obtain ⟨e', he', rfl⟩ := mem_receipts hx
        exact hid (receiptId_inj he' he hxid).1.symm
  · intro q hq
    rcases List.mem_append.1 hq with hq | hq
    · obtain ⟨hqb, hqne, hqrec, hqun⟩ := h.logged q hq
      exact ⟨hqb, hqne, hqrec.mono hmono, hqun⟩
    · rw [List.mem_singleton.1 hq]
      exact ⟨hb, hne, hrec, hun⟩
  · rw [List.map_append, List.map_singleton, List.nodup_append]
    exact ⟨h.nodup, List.nodup_singleton _,
      fun x hx y hy hxy => hnew (by rw [List.mem_singleton.1 hy] at hxy; exact hxy ▸ hx)⟩
  · exact fun s' => (hgone.proper s').mono hmono

end Commit

omit [DecidableEq S] in
/-- A batch whose receipts are there had them at the start, or a transaction has committed it. -/
theorem origin (hbs : Set.InjOn StorageBatch.batchId bs) (h : Receipted bs t₀ receipts phase log)
    (h₀ : ∀ b ∈ bs, Recorded (receiptsOf t₀) b ∨ Unrecorded (receiptsOf t₀) b) {b : StorageBatch F} (hb : b ∈ bs)
    (hne : b.isEmpty = false)
    (hrec : Recorded receipts.committed b) : Recorded (receiptsOf t₀) b ∨ ∃ at_, (b, at_) ∈ log := by
  refine (h₀ b hb).imp_right fun hun => ?_
  obtain ⟨e, he⟩ := List.exists_mem_of_ne_nil _ (expected_ne_nil hne)
  obtain ⟨r, hr, -⟩ := hrec e he
  have hstart := hun e he
  rw [receiptsOf, lookup] at hstart
  rw [h.committed, lookup, List.find?_append, hstart, Option.none_or] at hr
  obtain ⟨q, hq, hin⟩ := List.mem_flatMap.1 (List.mem_of_find?_eq_some hr)
  obtain ⟨e', he', hre⟩ := mem_receipts hin
  have hrid : r.receiptId = receiptId b e.1 := key_of_lookup hr
  have hid : receiptId q.1 e'.1 = receiptId b e.1 := by rw [← hrid, hre]
  obtain rfl := hbs (h.logged q hq).1 hb (receiptId_inj he' he hid).1
  exact ⟨q.2, hq⟩

end Receipted

end Storage.Postgres
