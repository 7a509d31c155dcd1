import MarketFeed.Desk.OneOrder
/-!
# At most one order at the broker per client order id

A request that is underway may still be accepted, so what must be unique per client order id is the
request that is underway or accepted (`Verdict.counts`). A submit about to send has none of its id:
its row did not exist when it entered, so no request of that id was ever sent, and a repetition follows
only on a throttling reply, which is given to a request that was not accepted. After a restart the row
exists, and nothing is sent for it again.
-/

namespace OrderDesk

open OrderLedger Lts

variable {lim : Limits} {db : Db}

/-- The broker has accepted the request, or may yet. -/
def Verdict.counts : Verdict → Bool
  | .underway => true
  | .accepted _ => true
  | _ => false

def Verdict.isAccepted : Verdict → Bool
  | .accepted _ => true
  | _ => false

theorem counts_of_isAccepted {v : Verdict} (h : v.isAccepted = true) : v.counts = true := by
  cases v <;> first | rfl | cases h

structure Once (d : Desk) : Prop where
  inv : Inv d
  row : ∀ s ∈ d.sent, ∃ r ∈ d.ledger.orders, r.clientOrderId = s.clientOrderId
  recorded : ∀ s ∈ d.sent, s.recorded = true
  once : ∀ (i j : Nat) (s t : Sent), d.sent[i]? = some s → d.sent[j]? = some t → s.clientOrderId = t.clientOrderId →
    s.verdict.counts = true → t.verdict.counts = true → i = j
  ready : ∀ q day id retried, d.holder = some ⟨q, .ordering day id retried⟩ →
    ∀ s ∈ d.sent, s.clientOrderId = q.clientOrderId → s.verdict.counts = false
  sending : ∀ q day id retried j, d.holder = some ⟨q, .sending day id retried j⟩ →
    ∀ (i : Nat) (s : Sent), d.sent[i]? = some s → s.clientOrderId = q.clientOrderId → s.verdict.counts = true → i = j

theorem once_init : Once .init := by
  refine ⟨inv_init, ?_, ?_, ?_, ?_, ?_⟩ <;> simp [Desk.init, Desk.holder]

/-- A move that sends nothing, and leaves the lock free, as it was, or with a submit that has not recorded yet. -/
theorem once_same {d : Desk} (ho : Once d) {ss : List Stmt} {p : Option Proc} (hi : Inv (d.after ss p d.sent))
    (hready : ∀ q day id retried, (d.after ss p d.sent).holder = some ⟨q, .ordering day id retried⟩ →
      ∀ s ∈ d.sent, s.clientOrderId = q.clientOrderId → s.verdict.counts = false)
    (hsending : ∀ q day id retried j, (d.after ss p d.sent).holder = some ⟨q, .sending day id retried j⟩ →
      d.holder = some ⟨q, .sending day id retried j⟩) : Once (d.after ss p d.sent) := by
  refine ⟨hi, fun s hs => ?_, ho.recorded, ho.once, hready, fun q day id retried j hh => ho.sending q day id retried j
    (hsending q day id retried j hh)⟩
  obtain ⟨r, hr, hc⟩ := ho.row s hs
  obtain ⟨r', hr', hc', _⟩ := execAll_keeps_row hr ss
  exact ⟨r', hr', hc'.trans hc⟩

theorem once_move {d : Desk} (ho : Once d) {lbl : Label} {ss : List Stmt} {p : Option Proc} {sent : List Sent}
    (hm : Move db d lbl ss (p.bind (·.holder)) sent) : Once (d.after ss p sent) := by
  have hi := inv_move ho.inv hm
  generalize hh : p.bind (·.holder) = h at hm
  have hholder : (d.after ss p sent).holder = h := hh
  have hkeep : h = none ∨ h = d.holder → sent = d.sent → Once (d.after ss p sent) := by
    rintro hk rfl
    refine once_same ho hi (fun q day id retried hq => ?_) fun q day id retried j hq => ?_ <;> rw [hholder] at hq
    · rcases hk with rfl | rfl
      · cases hq
      · exact ho.ready q day id retried hq
    · rcases hk with rfl | rfl
      · cases hq
      · exact hq
  cases hm with
  | quiet _ hk => exact hkeep hk rfl
  | close hk => exact hkeep (hk.imp id (·.1)) rfl
  | boot => exact hkeep (.inl rfl) rfl
  | placeCut => exact hkeep (.inl rfl) rfl
  | finish => exact hkeep (.inl rfl) rfl
  | suspend _ hs =>
    rename_i q day stage
    refine once_same ho hi (fun q' day' id retried hq => ?_) fun q' day' id retried j hq =>
      ?_ <;> rw [hholder] at hq <;>
      cases hq <;> cases hs
  | place hp hpre =>
    rename_i q day pre now unit
    obtain ⟨_, hnew⟩ := ho.inv.passed hp
    refine once_same ho hi (fun q' day' id retried hq s hs hc => ?_) fun q' day' id retried j hq => ?_ <;>
      rw [hholder] at hq
    · -- no row of this id existed, so no request of it was ever sent
      cases hq
      obtain ⟨r, hr, hrc⟩ := ho.row s hs
      exact absurd (hrc.trans hc) (byClientId_none.1 hnew r hr)
    · cases hq
  | repeated hs hj hv =>
    rename_i q day id j s
    refine once_same ho hi (fun q' day' id' retried hq t ht hc => ?_) fun q' day' id' retried j' hq => ?_ <;>
      rw [hholder] at hq
    · cases hq
      obtain ⟨i, hi⟩ := List.getElem?_of_mem ht
      by_contra hcount
      have hij := ho.sending q day id false j hs i t hi hc (by simpa using hcount)
      rw [hij, hj] at hi
      cases hi
      simp [hv, Verdict.counts] at hcount
    · cases hq
  | send hs =>
    rename_i q day id retried
    have hready := ho.ready q day id retried hs
    obtain ⟨r, hr⟩ := (ho.inv.holds _ hs).after day id rfl
    have hold : ∀ i (s : Sent), d.sent[i]? = some s → s ∈ d.sent := fun i s hi => List.mem_of_getElem? hi
    -- an index of the longer list is an old one or the new last one
    have hcases : ∀ i s, (d.sent ++ [⟨q.clientOrderId, .underway, (d.ledger.byClientId q.clientOrderId).isSome,
        (d.ledger.dayCloseOf day).isSome⟩])[i]? = some s →
        d.sent[i]? = some s ∨ (i = d.sent.length ∧ s.clientOrderId = q.clientOrderId) := by
      intro i s hi
      rw [List.getElem?_append] at hi
      split at hi
      · exact .inl hi
      · rename_i hlen
        have hz : i - d.sent.length = 0 := by
          by_contra hne
          obtain ⟨m, hm⟩ := Nat.exists_eq_succ_of_ne_zero hne
          rw [hm] at hi
          simp at hi
        rw [hz] at hi
        cases hi
        exact .inr ⟨by omega, rfl⟩
    refine ⟨hi, fun s hs' => ?_, fun s hs' => ?_, fun i j s t hi hj hc hsc htc => ?_, fun q' day' id' retried' hq => ?_,
      fun q' day' id' retried' j hq i s hi hc hsc => ?_⟩
    · rcases List.mem_append.1 hs' with hs' | hs'
      · exact ho.row s hs'
      · obtain rfl := List.mem_singleton.1 hs'
        exact ⟨r, hr.mem, hr.cid_eq⟩
    · rcases List.mem_append.1 hs' with hs' | hs'
      · exact ho.recorded s hs'
      · obtain rfl := List.mem_singleton.1 hs'
        have hsome : d.ledger.byClientId q.clientOrderId ≠ none := fun hno =>
          byClientId_none.1 hno r hr.mem hr.cid_eq
        exact Option.isSome_iff_ne_none.2 hsome
    · rcases hcases i s hi with hi | ⟨rfl, hsq⟩ <;> rcases hcases j t hj with hj | ⟨rfl, htq⟩
      · exact ho.once i j s t hi hj hc hsc htc
      · rw [hready s (hold i s hi) (hc.trans htq)] at hsc
        cases hsc
      · rw [hready t (hold j t hj) (hc.symm.trans hsq)] at htc
        cases htc
      · rfl
    · rw [hholder] at hq
      cases hq
    · rw [hholder] at hq
      cases hq
      rcases hcases i s hi with hi | ⟨rfl, _⟩
      · rw [hready s (hold i s hi) hc] at hsc
        cases hsc
      · rfl

/-- The broker's verdict on a request that was underway lets no other request count. -/
theorem once_verdict {d : Desk} (ho : Once d) {j : Nat} {s : Sent} (hj : d.sent[j]? = some s)
    (hu : s.verdict = .underway) (v : Verdict) : Once { d with sent := d.sent.set j { s with verdict := v } } := by
  have hback : ∀ (i : Nat) (t : Sent), (d.sent.set j { s with verdict := v })[i]? = some t →
      ∃ t', d.sent[i]? = some t' ∧ t.clientOrderId = t'.clientOrderId ∧ t.recorded = t'.recorded ∧
        (t.verdict.counts = true → t'.verdict.counts = true) := by
    intro i t hi
    rw [List.getElem?_set] at hi
    split at hi
    · rename_i hij
      split at hi
      · cases hi
        exact ⟨s, hij ▸ hj, rfl, rfl, fun _ => by rw [hu]; rfl⟩
      · cases hi
    · exact ⟨t, hi, rfl, rfl, id⟩
  have hmem : ∀ t ∈ d.sent.set j { s with verdict := v }, ∃ t' ∈ d.sent, t.clientOrderId = t'.clientOrderId ∧
      t.recorded = t'.recorded ∧ (t.verdict.counts = true → t'.verdict.counts = true) := by
    intro t ht
    obtain ⟨i, hi⟩ := List.getElem?_of_mem ht
    obtain ⟨t', hi', h1, h2, h3⟩ := hback i t hi
    exact ⟨t', List.mem_of_getElem? hi', h1, h2, h3⟩
  refine ⟨⟨ho.inv.wf, ho.inv.oneOpen, ho.inv.holds⟩, fun t ht => ?_, fun t ht => ?_,
    fun i i' t t' hi hi' hc htc htc' => ?_,
    fun q day id retried hq t ht hc => ?_, fun q day id retried j' hq i t hi hc htc => ?_⟩
  · obtain ⟨t', ht', h1, _⟩ := hmem t ht
    rw [h1]
    exact ho.row t' ht'
  · obtain ⟨t', ht', _, h2, _⟩ := hmem t ht
    rw [h2]
    exact ho.recorded t' ht'
  · obtain ⟨u, hu, h1, _, h3⟩ := hback i t hi
    obtain ⟨u', hu', h1', _, h3'⟩ := hback i' t' hi'
    exact ho.once i i' u u' hu hu' (by rw [← h1, ← h1', hc]) (h3 htc) (h3' htc')
  · obtain ⟨t', ht', h1, _, h3⟩ := hmem t ht
    by_contra hcount
    have := ho.ready q day id retried hq t' ht' (h1.symm.trans hc)
    rw [h3 (by simpa using hcount)] at this
    cases this
  · obtain ⟨t', ht', h1, _, h3⟩ := hback i t hi
    exact ho.sending q day id retried j' hq i t' ht' (h1.symm.trans hc) (h3 htc)

theorem once_step {d d' : Desk} (ho : Once d) {lbl : Label} (h : step lim db d lbl = some d') : Once d' := by
  obtain ⟨ss, p, sent, rfl, hm⟩ | ⟨j, s, v, hj, hu, rfl⟩ := step_moves h
  · exact once_move ho hm
  · exact once_verdict ho hj hu v

/-- A list no two of whose indices satisfy a test holds at most one element that does. -/
theorem filter_length_le_one {α : Type} {p : α → Bool} : ∀ {xs : List α},
    (∀ (i j : Nat) (a b : α), xs[i]? = some a → xs[j]? = some b → p a = true → p b = true → i = j) →
      (xs.filter p).length ≤ 1
  | [], _ => by simp
  | x :: xs, h => by
    have ih : (xs.filter p).length ≤ 1 := filter_length_le_one fun i j a b hi hj ha hb => by
      have := h (i + 1) (j + 1) a b (by simpa using hi) (by simpa using hj) ha hb
      omega
    by_cases hx : p x = true
    · have hnone : xs.filter p = [] := by
        refine List.filter_eq_nil_iff.2 fun y hy hpy => ?_
        obtain ⟨i, hi⟩ := List.getElem?_of_mem hy
        have := h 0 (i + 1) x y rfl (by simpa using hi) hx hpy
        omega
      simp [hx, hnone]
    · rw [List.filter_cons_of_neg hx]
      exact ih

/-- **At most once.** Whatever the interleaving, the crashes, the lost replies and the throttling: the broker
accepts at most one order per client order id, and an accepted one has exactly one row, recorded before the
request went out. -/
theorem broker_accepts_at_most_once {ls : List Label} {d : Desk} (h : Run (step lim db) anyStep .init ls d)
    (cid : String) :
    (d.sent.filter fun s => s.clientOrderId == cid && s.verdict.isAccepted).length ≤ 1 ∧
    ∀ s ∈ d.sent, s.clientOrderId = cid → s.verdict.isAccepted = true →
      s.recorded = true ∧ (d.ledger.orders.filter (·.clientOrderId == cid)).length = 1 := by
  have ho : Once d := h.invariant once_init fun s a s' hI _ hs => once_step hI hs
  constructor
  · refine filter_length_le_one fun i j s t hi hj hs ht => ?_
    simp only [Bool.and_eq_true, beq_iff_eq] at hs ht
    exact ho.once i j s t hi hj (hs.1.trans ht.1.symm) (counts_of_isAccepted hs.2) (counts_of_isAccepted ht.2)
  · rintro s hs rfl _
    refine ⟨ho.recorded s hs, ?_⟩
    obtain ⟨r, hr, hc⟩ := ho.row s hs
    have hone : d.ledger.orders.filter (·.clientOrderId == s.clientOrderId) = [r] := by
      have hn : d.ledger.orders.Nodup := ho.inv.wf.sorted.imp fun {a b} hab hne => by rw [hne] at hab; omega
      refine List.perm_singleton.1 ((List.perm_ext_iff_of_nodup (hn.filter _) (by simp)).2 fun x => ?_)
      simp only [List.mem_filter, beq_iff_eq, List.mem_singleton]
      constructor
      · rintro ⟨hx, hxc⟩
        exact ho.inv.wf.eq_of_clientOrderId hx hr (hxc.trans hc.symm)
      · rintro rfl
        exact ⟨hr, hc⟩
    rw [hone]
    rfl

/-- Throttled once, accepted with the reply lost in a crash, and the client asks again with another body. -/
def retriedOrder : List Label :=
  [.boot 0 none, .run (.arrive ⟨"c1", "005930", .buy, 1, 70000⟩), .run (.enter 0 "20260720" 1),
   .run (.totalled ⟨0, 0, 0⟩ 2), .run .send, .verdict 0 .throttled,
   .run (.answer (.error (.rejected (.str (py "EGW00201")) [])) 3), .run .send, .die,
     .verdict 1 (.accepted "0000000101"),
   .boot 4 none, .run (.arrive ⟨"c1", "005930", .buy, 2, 71000⟩), .run (.enter 0 "20260720" 5)]

theorem broker_accepts_at_most_once_retried :
    ∃ d, Run (step ⟨1000000, 10000000⟩ roomyDb) anyStep .init retriedOrder d ∧
      (d.sent.filter fun s => s.clientOrderId == "c1" && s.verdict.isAccepted).length ≤ 1 ∧
      ∀ s ∈ d.sent, s.clientOrderId = "c1" → s.verdict.isAccepted = true →
        s.recorded = true ∧ (d.ledger.orders.filter (·.clientOrderId == "c1")).length = 1 := by
  obtain ⟨d, h⟩ : ∃ d, exec (step ⟨1000000, 10000000⟩ roomyDb) anyStep .init retriedOrder = some d :=
    Option.isSome_iff_exists.1 (by decide)
  exact ⟨d, run_of_exec h, broker_accepts_at_most_once (run_of_exec h) "c1"⟩

end OrderDesk
