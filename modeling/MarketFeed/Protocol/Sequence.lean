import Mathlib.Algebra.Group.Nat.Defs
import Mathlib.Algebra.GroupWithZero.Nat
import Mathlib.Data.List.GetD
import Mathlib.Data.List.Induction
import Mathlib.Tactic.Common
/-!
# Sequence numbers (src/mdfeed/protocol.py:152-181, cpp/include/mdfp/protocol.hpp:188-206)

| here | there |
|---|---|
| `SequenceTracker.observe` | `observe` (`protocol.py:166-181`); what it returns beside the tracker |
| `Cpp.SequenceTracker.observe` | `observe` (`protocol.hpp:196-205`), on 64 bits |
| `InOrder`, `inOrder` | an observation above every earlier one, and how many there are |

The next number expected is the first one, and one for every observation in order, and what was lost. The two
languages agree until the last number there is: behind 2 ^ 64 - 1 the C++ side expects 0, and counts as a gap what
Python counts as late.
-/

namespace Mdfp

structure SequenceTracker where
  expected : Option ℕ
  gapCount : ℕ
  lostMessages : ℕ
  duplicateCount : ℕ
  deriving DecidableEq

namespace SequenceTracker

def new : SequenceTracker := ⟨none, 0, 0, 0⟩

def observe (t : SequenceTracker) (seq : ℕ) : SequenceTracker × ℕ :=
  match t.expected with
  | none => ({ t with expected := some (seq + 1) }, 0)
  | some expected =>
    if seq = expected then ({ t with expected := some (expected + 1) }, 0)
    else if seq < expected then ({ t with duplicateCount := t.duplicateCount + 1 }, 0)
    else
      let lost := seq - expected
      ({ t with gapCount := t.gapCount + 1, lostMessages := t.lostMessages + lost, expected := some (seq + 1) }, lost)

/-- After all of `seqs`. -/
def track (seqs : List ℕ) : SequenceTracker := seqs.foldl (fun t seq => (t.observe seq).1) new

/-- What `observe` returns. -/
def reported (t : SequenceTracker) : List ℕ → List ℕ
  | [] => []
  | seq :: seqs => (t.observe seq).2 :: reported (t.observe seq).1 seqs

end SequenceTracker

namespace Cpp

structure SequenceTracker where
  expected : Option UInt64
  gapCount : UInt64
  lostMessages : UInt64
  duplicateCount : UInt64
  deriving DecidableEq

namespace SequenceTracker

def new : SequenceTracker := ⟨none, 0, 0, 0⟩

def observe (t : SequenceTracker) (seq : UInt64) : SequenceTracker × UInt64 :=
  match t.expected with
  | none => ({ t with expected := some (seq + 1) }, 0)
  | some expected =>
    if seq = expected then ({ t with expected := some (expected + 1) }, 0)
    else if seq < expected then ({ t with duplicateCount := t.duplicateCount + 1 }, 0)
    else
      let lost := seq - expected
      ({ t with gapCount := t.gapCount + 1, lostMessages := t.lostMessages + lost, expected := some (seq + 1) }, lost)

def track (seqs : List UInt64) : SequenceTracker := seqs.foldl (fun t seq => (t.observe seq).1) new

end SequenceTracker

end Cpp

/-! ## What is in order -/

/-- `seq` is above all that was observed before. -/
def InOrder (before : List ℕ) (seq : ℕ) : Prop := ∀ m ∈ before, m < seq

instance (before : List ℕ) (seq : ℕ) : Decidable (InOrder before seq) :=
  inferInstanceAs (Decidable (∀ m ∈ before, m < seq))

/-- How many of the observations are in order; the first is. -/
def inOrder (seqs : List ℕ) : ℕ := (List.range seqs.length).countP fun i =>
  decide (InOrder (seqs.take i) (seqs.getD i 0))

/-- How many are not: a duplicate, a late frame, a restart at a lower number. -/
def late (seqs : List ℕ) : ℕ := seqs.length - inOrder seqs

theorem inOrder_concat (seqs : List ℕ) (seq : ℕ) : inOrder (seqs ++ [seq]) = inOrder seqs + if InOrder seqs seq then
    1 else 0 := by
  unfold inOrder
  rw [List.length_append, List.length_singleton, List.range_succ, List.countP_append, List.countP_singleton]
  congr 1
  · refine List.countP_congr fun i hi => ?_
    have hlt := List.mem_range.1 hi
    rw [List.take_append_of_le_length (Nat.le_of_lt hlt), List.getD_append _ _ _ _ hlt]
  · simp

theorem inOrder_le (seqs : List ℕ) : inOrder seqs ≤ seqs.length := by
  unfold inOrder
  exact Nat.le_trans List.countP_le_length (Nat.le_of_eq List.length_range)

/-! ## The accounts -/

namespace SequenceTracker

theorem track_concat (seqs : List ℕ) (seq : ℕ) : track (seqs ++ [seq]) = ((track seqs).observe seq).1 := by
  simp [track]

/-- What the tracker says after `seqs`. -/
structure Accounts (seqs : List ℕ) (t : SequenceTracker) : Prop where
  start : seqs = [] → t = new
  first : ∀ x ∈ seqs.head?, t.expected = some (x + inOrder seqs + t.lostMessages)
  top : ∀ e, t.expected = some e → ∃ m ∈ seqs, e = m + 1 ∧ ∀ m' ∈ seqs, m' ≤ m
  late : t.duplicateCount + inOrder seqs = seqs.length
  gaps : t.gapCount ≤ t.lostMessages

theorem Accounts.inOrder_iff {seqs : List ℕ} {t : SequenceTracker} (h : Accounts seqs t)
    {e : ℕ} (he : t.expected = some e) (seq : ℕ) :
    InOrder seqs seq ↔ e ≤ seq := by
  obtain ⟨m, hm, rfl, htop⟩ := h.top e he
  constructor
  · exact fun hord => hord m hm
  · intro hle m' hm'
    have := htop m' hm'
    omega

theorem le_of_concat {seqs : List ℕ} {seq m : ℕ} (hm : ∀ m' ∈ seqs, m' ≤ m) (hle : seq ≤ m) :
    ∀ m' ∈ seqs ++ [seq], m' ≤ m := by
  intro m' hm'
  rcases List.mem_append.1 hm' with hm' | hm'
  · exact hm m' hm'
  · exact List.mem_singleton.1 hm' ▸ hle

/-- What is expected, from the first number of a tape that goes on. -/
theorem Accounts.expected_eq {seqs : List ℕ} {t : SequenceTracker} (h : Accounts seqs t)
    {e : ℕ} (he : t.expected = some e) (seq : ℕ) :
    ∀ x ∈ (seqs ++ [seq]).head?, e = x + inOrder seqs + t.lostMessages := by
  intro x hx
  cases seqs with
  | nil =>
    rw [h.start rfl] at he
    cases he
  | cons y seqs => exact Option.some.inj (he.symm.trans (h.first x hx))

/-- The number expected, or one behind a gap. -/
theorem Accounts.ahead {seqs : List ℕ} {t t' : SequenceTracker} (h : Accounts seqs t)
    {e seq : ℕ} (he : t.expected = some e) (hle : e ≤ seq)
    (hexpected : t'.expected = some (seq + 1)) (hlost : t'.lostMessages = t.lostMessages + (seq - e))
    (hdup : t'.duplicateCount = t.duplicateCount) (hgaps : t'.gapCount ≤ t'.lostMessages) :
    Accounts (seqs ++ [seq]) t' := by
  have hcount := inOrder_concat seqs seq
  rw [if_pos ((h.inOrder_iff he seq).2 hle)] at hcount
  refine ⟨by simp, fun x hx => ?_, fun e' he' => ?_, ?_, hgaps⟩
  · have := h.expected_eq he seq x hx
    rw [hexpected, Option.some.injEq]
    omega
  · obtain ⟨m, -, rfl, htop⟩ := h.top e he
    obtain rfl := Option.some.inj (hexpected.symm.trans he')
    refine ⟨seq, by simp, rfl, le_of_concat (fun m' hm' => ?_) (Nat.le_refl _)⟩
    have := htop m' hm'
    omega
  · have := h.late
    rw [List.length_append, List.length_singleton]
    omega

/-- A duplicate, or late. -/
theorem Accounts.behind {seqs : List ℕ} {t t' : SequenceTracker} (h : Accounts seqs t)
    {e seq : ℕ} (he : t.expected = some e) (hlt : seq < e)
    (hexpected : t'.expected = some e) (hlost : t'.lostMessages = t.lostMessages)
    (hdup : t'.duplicateCount = t.duplicateCount + 1)
    (hgaps : t'.gapCount ≤ t'.lostMessages) : Accounts (seqs ++ [seq]) t' := by
  have hcount := inOrder_concat seqs seq
  rw [if_neg (fun hord => Nat.not_le.2 hlt ((h.inOrder_iff he seq).1 hord))] at hcount
  refine ⟨by simp, fun x hx => ?_, fun e' he' => ?_, ?_, hgaps⟩
  · have := h.expected_eq he seq x hx
    rw [hexpected, Option.some.injEq]
    omega
  · obtain rfl := Option.some.inj (hexpected.symm.trans he')
    obtain ⟨m, hm, rfl, htop⟩ := h.top e he
    exact ⟨m, List.mem_append_left _ hm, rfl, le_of_concat htop (by omega)⟩
  · have := h.late
    rw [List.length_append, List.length_singleton]
    omega

theorem Accounts.observe {seqs : List ℕ} {t : SequenceTracker} (h : Accounts seqs t) (seq : ℕ) :
    Accounts (seqs ++ [seq]) (t.observe seq).1 := by
  cases he : t.expected with
  | none =>
    have hnil : seqs = [] := by
      cases seqs with
      | nil => rfl
      | cons x seqs =>
        have hfirst := h.first x rfl
        rw [he] at hfirst
        cases hfirst
    subst hnil
    obtain rfl := h.start rfl
    exact ⟨by simp, fun x hx => by cases hx; rfl, fun e he => by cases he; exact ⟨seq, by simp, rfl, by simp⟩, rfl,
      Nat.le_refl 0⟩
  | some e =>
    have hgaps := h.gaps
    unfold SequenceTracker.observe
    rw [he]
    dsimp only
    split
    · rename_i hseq
      subst hseq
      exact h.ahead he (Nat.le_refl _) rfl (by simp) rfl hgaps
    · split
      · rename_i hlt
        exact h.behind he hlt rfl rfl rfl hgaps
      · refine h.ahead he (by omega) rfl rfl rfl ?_
        dsimp only
        omega

theorem accounts_track (seqs : List ℕ) : Accounts seqs (track seqs) := by
  induction seqs using List.reverseRecOn with
  | nil => exact ⟨fun _ => rfl, (by intro x hx; cases hx), (by intro e he; cases he), rfl, Nat.le_refl 0⟩
  | append_singleton seqs seq ih =>
    rw [track_concat]
    exact ih.observe seq

theorem sum_reported (t : SequenceTracker) (seqs : List ℕ) :
    t.lostMessages + (t.reported seqs).sum = (seqs.foldl (fun t seq => (t.observe seq).1) t).lostMessages := by
  induction seqs generalizing t with
  | nil => rfl
  | cons seq seqs ih =>
    have hstep : (t.observe seq).1.lostMessages = t.lostMessages + (t.observe seq).2 := by
      unfold observe
      split
      · rfl
      · split
        · rfl
        · split <;> rfl
    rw [reported, List.sum_cons, List.foldl_cons, ← ih, hstep]
    omega

theorem late_track (seqs : List ℕ) : (track seqs).duplicateCount = late seqs := by
  have := (accounts_track seqs).late
  unfold late
  omega

/-- What is not in order changes neither what is expected nor what was lost. -/
theorem track_late {seqs : List ℕ} {seq : ℕ} (h : ¬ InOrder seqs seq) :
    (track (seqs ++ [seq])).expected = (track seqs).expected ∧
      (track (seqs ++ [seq])).lostMessages = (track seqs).lostMessages := by
  have hacc := accounts_track seqs
  rw [track_concat]
  cases he : (track seqs).expected with
  | none =>
    cases seqs with
    | nil => exact absurd (fun m hm => by cases hm) h
    | cons x seqs =>
      rw [hacc.first x rfl] at he
      cases he
  | some e =>
    have hlt : seq < e := Nat.lt_of_not_le fun hle => h ((hacc.inOrder_iff he seq).2 hle)
    simp only [observe, he]
    rw [if_neg (by omega), if_pos hlt]
    exact ⟨rfl, rfl⟩

end SequenceTracker

/-! ## The C++ side -/

namespace Cpp.SequenceTracker

open Mdfp.SequenceTracker (accounts_track late_track)

theorem track_concat (seqs : List UInt64) (seq : UInt64) : track (seqs ++ [seq]) = ((track seqs).observe seq).1 := by
  simp [track]

/-- The counts as numbers. -/
def counts (t : SequenceTracker) : Mdfp.SequenceTracker :=
  ⟨t.expected.map UInt64.toNat, t.gapCount.toNat, t.lostMessages.toNat, t.duplicateCount.toNat⟩

theorem toNat_add {a b : UInt64} (h : a.toNat + b.toNat < 2 ^ 64) : (a + b).toNat = a.toNat + b.toNat := by
  rw [UInt64.toNat_add, Nat.mod_eq_of_lt h]

/-- Where the counts fit 64 bits a step is the same. -/
theorem counts_observe {t : SequenceTracker} {seq : UInt64} {u : Mdfp.SequenceTracker}
    (hu : (t.counts.observe seq.toNat).1 = u)
    (hexpected : ∀ e, u.expected = some e → e < 2 ^ 64) (hgap : u.gapCount < 2 ^ 64) (hlost : u.lostMessages < 2 ^ 64)
    (hdup : u.duplicateCount < 2 ^ 64) : (t.observe seq).1.counts = u := by
  obtain ⟨expected, gapCount, lostMessages, duplicateCount⟩ := t
  subst hu
  have hone : (1 : UInt64).toNat = 1 := rfl
  cases expected with
  | none =>
    have hlt := hexpected _ rfl
    have hnext := @toNat_add seq 1 hlt
    simp [counts, observe, Mdfp.SequenceTracker.observe, hnext]
  | some e =>
    simp only [counts, observe, Mdfp.SequenceTracker.observe, Option.map_some, UInt64.toNat_inj,
      ← UInt64.lt_iff_toNat_lt] at *
    split
    · rename_i heq
      subst heq
      simp only [if_true] at hexpected
      have hnext := @toNat_add seq 1 (hexpected _ rfl)
      simp [hnext]
    · rename_i hne
      split
      · rename_i hlt
        simp only [if_neg hne, if_pos hlt] at hdup
        have hnext := @toNat_add duplicateCount 1 hdup
        simp [hnext]
      · rename_i hge
        simp only [if_neg hne, if_neg hge] at hexpected hgap hlost
        have hle : e ≤ seq := UInt64.not_lt.1 hge
        have hsub := UInt64.toNat_sub_of_le _ _ hle
        have hnext := @toNat_add seq 1 (hexpected _ rfl)
        have hgaps := @toNat_add gapCount 1 hgap
        have hsum := @toNat_add lostMessages (seq - e) (by rw [hsub]; exact hlost)
        simp [hnext, hgaps, hsum, hsub]

/-- What was counted fits 64 bits as long as the last number was not observed. -/
theorem lost_lt {seqs : List ℕ} (hlast : ∀ m ∈ seqs, m + 1 < 2 ^ 64) :
    (∀ e, (Mdfp.SequenceTracker.track seqs).expected = some e → e < 2 ^ 64) ∧
      (Mdfp.SequenceTracker.track seqs).lostMessages < 2 ^ 64 := by
  have hacc := accounts_track seqs
  have hexpected : ∀ e, (Mdfp.SequenceTracker.track seqs).expected = some e → e < 2 ^ 64 := by
    intro e he
    obtain ⟨m, hm, rfl, -⟩ := hacc.top e he
    exact hlast m hm
  refine ⟨hexpected, ?_⟩
  cases seqs with
  | nil => exact Nat.two_pow_pos 64
  | cons x seqs =>
    have := hexpected _ (hacc.first x rfl)
    omega

theorem counts_track {seqs : List UInt64} (hlast : 2 ^ 64 - 1 ∉ seqs.map UInt64.toNat)
    (hlate : late (seqs.map UInt64.toNat) < 2 ^ 64) :
    (track seqs).counts = Mdfp.SequenceTracker.track (seqs.map UInt64.toNat) := by
  have hbound : ∀ m ∈ seqs.map UInt64.toNat, m + 1 < 2 ^ 64 := by
    intro m hm
    obtain ⟨seq, -, hseq⟩ := List.mem_map.1 hm
    have hlt := seq.toNat_lt
    have hne : m ≠ 2 ^ 64 - 1 := fun heq => hlast (heq ▸ hm)
    omega
  clear hlast
  induction seqs using List.reverseRecOn with
  | nil => rfl
  | append_singleton seqs seq ih =>
    obtain ⟨hexpected, hlost⟩ := lost_lt hbound
    have hgap := (accounts_track ((seqs ++ [seq]).map UInt64.toNat)).gaps
    have hdup := late_track ((seqs ++ [seq]).map UInt64.toNat)
    rw [List.map_append, List.map_singleton] at *
    have hcount := inOrder_concat (seqs.map UInt64.toNat) seq.toNat
    have hle := inOrder_le (seqs.map UInt64.toNat)
    have hprefix : late (seqs.map UInt64.toNat) < 2 ^ 64 := by
      unfold late at hlate ⊢
      rw [List.length_append, List.length_singleton] at hlate
      split at hcount <;> omega
    rw [track_concat]
    refine counts_observe ?_ hexpected (by omega) hlost (by omega)
    rw [ih hprefix fun m hm => hbound m (List.mem_append_left _ hm), Mdfp.SequenceTracker.track_concat]

end Cpp.SequenceTracker

/-! ## Both sides -/

open SequenceTracker

/-- What Python counts of any numbers, and nothing that is not in order changes. -/
theorem accounted (seqs : List ℕ) :
    (∀ first ∈ seqs.head?, (track seqs).expected = some (first + (inOrder seqs + (track seqs).lostMessages)) ∧
      (reported new seqs).sum = (track seqs).lostMessages) ∧
    ∀ seq, ¬ InOrder seqs seq →
      (track (seqs ++ [seq])).expected = (track seqs).expected ∧
      (track (seqs ++ [seq])).lostMessages = (track seqs).lostMessages := by
  refine ⟨fun first hfirst => ?_, fun seq hseq => track_late hseq⟩
  have hsum := sum_reported new seqs
  rw [← track] at hsum
  refine ⟨?_, by simpa [new] using hsum⟩
  rw [← Nat.add_assoc]
  exact (accounts_track seqs).first first hfirst

/-- Behind the last number Python expects 2 ^ 64 or more, which no 64 bits hold. -/
theorem last_not_observed {wire : List UInt64}
    (hexpected : (Cpp.SequenceTracker.track wire).expected.map UInt64.toNat =
      (track (wire.map UInt64.toNat)).expected) :
    2 ^ 64 - 1 ∉ wire.map UInt64.toNat := by
  intro hlast
  cases he : (track (wire.map UInt64.toNat)).expected with
  | none =>
    cases wire with
    | nil => cases hlast
    | cons x wire =>
      rw [(accounts_track _).first x.toNat rfl] at he
      cases he
  | some e =>
    obtain ⟨m, -, rfl, htop⟩ := (accounts_track _).top e he
    have hle := htop _ hlast
    rw [he] at hexpected
    obtain ⟨v, -, hv⟩ := Option.map_eq_some_iff.1 hexpected
    have := v.toNat_lt
    omega

/-- **What is expected less the first number is the observations in order and what was lost, and the two languages
count alike exactly where the last number of 64 bits is not observed** (and the late observations fit their counter). -/
theorem sequence_accounts_iff (wire : List UInt64) :
    ((∀ first ∈ (wire.map UInt64.toNat).head?,
        (track (wire.map UInt64.toNat)).expected =
          some (first + (inOrder (wire.map UInt64.toNat) + (track (wire.map UInt64.toNat)).lostMessages)) ∧
        (reported new (wire.map UInt64.toNat)).sum = (track (wire.map UInt64.toNat)).lostMessages) ∧
      (∀ seq, ¬ InOrder (wire.map UInt64.toNat) seq →
        (track (wire.map UInt64.toNat ++ [seq])).expected = (track (wire.map UInt64.toNat)).expected ∧
        (track (wire.map UInt64.toNat ++ [seq])).lostMessages = (track (wire.map UInt64.toNat)).lostMessages) ∧
      (Cpp.SequenceTracker.track wire).expected.map UInt64.toNat = (track (wire.map UInt64.toNat)).expected ∧
      (Cpp.SequenceTracker.track wire).lostMessages.toNat = (track (wire.map UInt64.toNat)).lostMessages ∧
      (Cpp.SequenceTracker.track wire).duplicateCount.toNat = (track (wire.map UInt64.toNat)).duplicateCount) ↔
    2 ^ 64 - 1 ∉ wire.map UInt64.toNat ∧ late (wire.map UInt64.toNat) < 2 ^ 64 := by
  constructor
  · rintro ⟨-, -, hexpected, -, hdup⟩
    have hlt := (Cpp.SequenceTracker.track wire).duplicateCount.toNat_lt
    rw [hdup, late_track] at hlt
    exact ⟨last_not_observed hexpected, hlt⟩
  · rintro ⟨hlast, hlate⟩
    obtain ⟨hfirst, hlater⟩ := accounted (wire.map UInt64.toNat)
    have hcounts := Cpp.SequenceTracker.counts_track hlast hlate
    refine ⟨hfirst, hlater, ?_⟩
    rw [← hcounts]
    exact ⟨rfl, rfl, rfl⟩

/-- **Behind 2 ^ 64 - 1 the next number is 0 on one side**: frame 5 is late there, and here the end of a gap of 5. -/
theorem last_number_wraps :
    ∃ seqs : List UInt64, seqs = [0xFFFFFFFFFFFFFFFF, 5] ∧
      (Cpp.SequenceTracker.track seqs).counts = ⟨some 6, 1, 5, 0⟩ ∧
      SequenceTracker.track (seqs.map UInt64.toNat) = ⟨some (2 ^ 64), 0, 0, 1⟩ ∧
      (Cpp.SequenceTracker.track seqs).expected.map UInt64.toNat ≠
        (SequenceTracker.track (seqs.map UInt64.toNat)).expected :=
  ⟨_, rfl, by decide, by decide, by decide⟩

end Mdfp
