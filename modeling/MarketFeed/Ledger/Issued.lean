import MarketFeed.Ledger.Fills
/-!
# Calls in a row

What a caller writes between two `await`s is a list of calls, each on the ledger the ones before it left.
`Issued C l ss`: `ss` are the statements of such a list on `l`, and every call satisfied `C` in the ledger
it found. A crash cuts the list inside one call: what every cut call keeps is kept (`Issued.invariant`),
the books unless the cut separates a fill from its counter (`Issued.books`).
-/

namespace OrderLedger

open Script

inductive Issued (C : Ledger → Call → Prop) : Ledger → List Stmt → Prop
  | nothing {l : Ledger} : Issued C l []
  | call {l : Ledger} {c : Call} {ss : List Stmt} : C l c → Issued C (l.call c) ss → Issued C l (c.stmts l ++ ss)

variable {C : Ledger → Call → Prop} {l : Ledger} {ss : List Stmt}

theorem Issued.one {c : Call} (h : C l c) : Issued C l (c.stmts l) := by
  have := Issued.call h .nothing
  rwa [List.append_nil] at this

theorem take_all_call (l : Ledger) (c : Call) : l.execAll ((c.stmts l).take (c.stmts l).length) = l.call c := by
  rw [List.take_length]
  rfl

/-- **What every cut call keeps, the cut list keeps.** -/
theorem Issued.invariant {I : Ledger → Prop} (h : Issued C l ss) (h0 : I l)
    (hstep : ∀ l c k, I l → C l c → I (l.execAll ((c.stmts l).take k))) (k : Nat) : I (l.execAll (ss.take k)) := by
  induction h generalizing k with
  | nothing => simpa [execAll_nil] using h0
  | @call l c ss hc _ ih =>
    by_cases hk : k ≤ (c.stmts l).length
    · rw [List.take_append_of_le_length hk]
      exact hstep l c k h0 hc
    · rw [List.take_append, List.take_of_length_le (by omega), execAll_append]
      apply ih
      rw [← take_all_call]
      exact hstep l c _ h0 hc

/-- A list run to its end leaves no fill row waiting for its counter. -/
theorem Issued.endsPaired (h : Issued C l ss) : EndsPaired ss := by
  induction h with
  | nothing => simp [EndsPaired]
  | call _ _ ih => exact (call_endsPaired _ _).append ih

theorem Issued.books (h : Issued C l ss) (h0 : Books l) {k : Nat} (he : EndsPaired (ss.take k)) :
    Books (l.execAll (ss.take k)) := by
  induction h generalizing k with
  | nothing => simpa [execAll_nil] using h0
  | @call l c ss _ _ ih =>
    by_cases hk : k ≤ (c.stmts l).length
    · rw [List.take_append_of_le_length hk] at he ⊢
      exact books_cut h0 c he
    · rw [List.take_append, List.take_of_length_le (by omega)] at he ⊢
      rw [execAll_append]
      refine ih ?_ he.right
      rw [← take_all_call]
      exact books_cut h0 c (by rw [List.take_length]; exact call_endsPaired l c)

end OrderLedger
