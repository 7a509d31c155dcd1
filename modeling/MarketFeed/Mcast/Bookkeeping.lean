import MarketFeed.Mcast.Recovery
/-!
# What the retransmission maps refer to (mcast_client.py:119-214)

`outstanding` holds the ranges asked for, `gap_seen_at` when each gap was first seen. `_drain_pending` and
the acknowledgement of an unavailable range drop the times of the numbers they pass. A frame that arrives
at the expected number drops neither, and a range leaves `outstanding` only with an acknowledgement of
exactly that range, which one cut to 10000 numbers is not.

| here | there |
| --- | --- |
| `Client.Refers` | a range of `outstanding` contains the number, or `gap_seen_at` has it as a key |
| `Client.Missing` | not below `expected`, not in `pending` |
| `Client.Tight` | both maps refer to missing numbers only |
| `State.spares` | the steps that keep it so |
-/

namespace Mcast

open Keyed Lts

def Client.Refers (c : Client) (n : Nat) : Prop :=
  (∃ r ∈ c.outstanding, r.1.1 ≤ n ∧ n ≤ r.1.2) ∨ ∃ g ∈ c.gapSeenAt, g.1 = n

instance (c : Client) (n : Nat) : Decidable (c.Refers n) := inferInstanceAs (Decidable (_ ∨ _))

def Client.Missing (c : Client) (n : Nat) : Prop :=
  ∃ e, c.expected = some e ∧ e ≤ n ∧ lookup Frame.seq n c.pending = none

def Client.Tight (c : Client) : Prop := ∀ n, c.Refers n → c.Missing n

/-- A frame of a later number has arrived. -/
def Client.Seen (c : Client) (n : Nat) : Prop := ∃ e, c.expected = some e ∧ (n < e ∨ ∃ f ∈ c.pending, n < f.seq)

/-- What holds whatever arrives: the expected frame is not held, no range is empty, and a number is noted after a later
frame only. -/
structure Client.Noted (c : Client) : Prop where
  waits : ∀ e, c.expected = some e → lookup Frame.seq e c.pending = none
  ranges : ∀ r ∈ c.outstanding, r.1.1 ≤ r.1.2
  seen : ∀ n, c.Refers n → c.Seen n

section

variable {c c' c'' : Client} {delay now : ℚ} {P Q : Nat → Prop}

/-! ## What a request adds -/

/-- Numbers of which `P` holds are noted, and no others. -/
structure Notes (P : Nat → Prop) (c c' : Client) : Prop where
  books : SameBooks c c'
  keeps : ∀ n, c.Refers n → c'.Refers n
  adds : ∀ n, c'.Refers n → c.Refers n ∨ P n
  ranges : (∀ r ∈ c.outstanding, r.1.1 ≤ r.1.2) → ∀ r ∈ c'.outstanding, r.1.1 ≤ r.1.2

theorem notes_refl (P : Nat → Prop) (c : Client) : Notes P c c := ⟨sameBooks_refl c, fun _ => id, fun _ => .inl, id⟩

theorem Notes.mono (h : Notes P c c') (hle : ∀ n, P n → Q n) : Notes Q c c' :=
  ⟨h.books, h.keeps, fun n hn => (h.adds n hn).imp_right (hle n), h.ranges⟩

theorem Notes.trans (h : Notes P c c') (h' : Notes P c' c'') : Notes P c c'' where
  books := h.books.trans h'.books
  keeps n hn := h'.keeps n (h.keeps n hn)
  adds n hn := by
    rcases h'.adds n hn with hn | hn
    · exact h.adds n hn
    · exact .inr hn
  ranges hr := h'.ranges (h.ranges hr)

theorem seeGap_notes (c : Client) (seq : Nat) (now : ℚ) : Notes (· = seq) c (c.seeGap seq now) := by
  refine ⟨seeGap_same c seq now, ?_, ?_, ?_⟩ <;> unfold Client.seeGap
  · rintro n (hn | ⟨g, hg, rfl⟩)
    · split <;> exact .inl hn
    · split
      · exact .inr ⟨g, hg, rfl⟩
      · exact .inr ⟨g, List.mem_append_left _ hg, rfl⟩
  · split
    · intro n hn
      exact .inl hn
    · rintro n (hn | ⟨g, hg, rfl⟩)
      · exact .inl (.inl hn)
      · rcases List.mem_append.1 hg with hg | hg
        · exact .inl (.inr ⟨g, hg, rfl⟩)
        · rw [List.mem_singleton.1 hg]
          exact .inr rfl
  · split <;> exact id

theorem requestGap_notes (c : Client) (now : ℚ) {lo hi : Nat} (hle : lo ≤ hi) :
    Notes (fun n => lo ≤ n ∧ n ≤ hi) c (c.requestGap delay now lo hi) := by
  refine ⟨requestGap_same c now lo hi, ?_, ?_, ?_⟩ <;> unfold Client.requestGap <;> simp only
  · intro n hn
    split
    · exact hn
    · split
      · rcases hn with ⟨r, hr, hle⟩ | hn
        · by_cases hk : r.1 = (lo, hi)
          · rw [hk] at hle
            exact .inl ⟨_, mem_replace_self c.outstanding ((lo, hi), now), hle⟩
          · exact .inl ⟨r, mem_replace_of_ne hr hk, hle⟩
        · exact .inr hn
      · exact hn
  · intro n hn
    split at hn
    · exact .inl hn
    · split at hn
      · rcases hn with ⟨r, hr, hle⟩ | hn
        · rcases mem_upsert hr with hr | rfl | ⟨_, _, rfl⟩
          · exact .inl (.inl ⟨r, hr, hle⟩)
          · exact .inr hle
          · exact .inr hle
        · exact .inl (.inr hn)
      · exact .inl hn
  · intro hr
    split
    · exact hr
    · split
      · intro r hm
        rcases mem_upsert hm with hm | rfl | ⟨_, _, rfl⟩
        · exact hr r hm
        · exact hle
        · exact hle
      · exact hr

/-- A gap ends below the frame after it, and nothing in it is held. -/
theorem gapEnd_missing (c : Client) (upto : Nat) (m : Nat) {hi n : Nat} (h : hi ≤ n) (hn : n ≤ c.gapEnd upto m hi)
    (hlt : hi < upto)
    (hp : lookup Frame.seq hi c.pending = none) : n < upto ∧ lookup Frame.seq n c.pending = none := by
  induction m generalizing hi with
  | zero =>
    have heq : n = hi := Nat.le_antisymm hn h
    exact heq ▸ ⟨hlt, hp⟩
  | succ m ih =>
    unfold Client.gapEnd at hn
    split at hn
    · rename_i hc
      by_cases heq : n = hi
      · exact heq ▸ ⟨hlt, hp⟩
      · exact ih (by omega) hn hc.1 (Option.isNone_iff_eq_none.1 hc.2)
    · have heq : n = hi := Nat.le_antisymm hn h
      exact heq ▸ ⟨hlt, hp⟩

/-- The loop of `_request_missing` notes missing numbers. -/
theorem requestFrom_notes (now : ℚ) (upto m : Nat) (c : Client) (lo : Nat) :
    Notes (fun n => lo ≤ n ∧ n < upto ∧ lookup Frame.seq n c.pending = none) c (c.requestFrom delay now upto m lo) := by
  induction m generalizing c lo with
  | zero => exact notes_refl _ c
  | succ m ih =>
    unfold Client.requestFrom
    split
    · rename_i hlt
      split
      · refine (ih c (lo + 1)).mono ?_
        rintro n ⟨hle, hn⟩
        exact ⟨by omega, hn⟩
      · rename_i hp
        have hp : lookup Frame.seq lo c.pending = none := by simpa using hp
        have hend := le_gapEnd c upto (upto - lo) lo
        have hsee := seeGap_notes c lo now
        have hgap := @requestGap_notes delay (c.seeGap lo now) now lo _ hend
        refine Notes.trans ((hsee.mono ?_).trans (hgap.mono ?_)) ((ih _ _).mono ?_)
        · rintro n rfl
          exact ⟨Nat.le_refl n, hlt, hp⟩
        · rintro n ⟨hle, hn⟩
          exact ⟨hle, gapEnd_missing c upto _ hle hn hlt hp⟩
        · rintro n ⟨hle, hn, hl⟩
          rw [(hsee.books.trans hgap.books).pending] at hl
          exact ⟨by omega, hn, hl⟩
    · exact notes_refl _ c

theorem requestMissing_notes (c : Client) (now : ℚ) (upto : Nat) :
    Notes (fun n => c.Missing n ∧ n < upto) c (c.requestMissing delay now upto) := by
  unfold Client.requestMissing
  split
  · exact notes_refl _ c
  · rename_i e he
    refine (requestFrom_notes now upto _ c e).mono ?_
    rintro n ⟨hle, hlt, hp⟩
    exact ⟨⟨e, he, hle, hp⟩, hlt⟩

theorem SameBooks.missing_iff (h : SameBooks c c') (n : Nat) : c'.Missing n ↔ c.Missing n := by
  unfold Client.Missing
  rw [h.expected, h.pending]

theorem SameBooks.seen_iff (h : SameBooks c c') (n : Nat) : c'.Seen n ↔ c.Seen n := by
  unfold Client.Seen
  rw [h.expected, h.pending]

theorem Notes.tight_iff (h : Notes P c c') (hP : ∀ n, P n → c.Missing n) : c'.Tight ↔ c.Tight := by
  constructor
  · intro ht n hn
    exact (h.books.missing_iff n).1 (ht n (h.keeps n hn))
  · intro ht n hn
    refine (h.books.missing_iff n).2 ?_
    rcases h.adds n hn with hn | hn
    · exact ht n hn
    · exact hP n hn

theorem Notes.noted (h : Notes P c c') (hP : ∀ n, P n → c.Seen n) (hc : c.Noted) : c'.Noted where
  waits := by
    rw [h.books.expected, h.books.pending]
    exact hc.waits
  ranges := h.ranges hc.ranges
  seen n hn := by
    refine (h.books.seen_iff n).2 ?_
    rcases h.adds n hn with hn | hn
    · exact hc.seen n hn
    · exact hP n hn

theorem requestMissing_tight_iff (c : Client) (now : ℚ) (upto : Nat) : (c.requestMissing delay now upto).Tight ↔
    c.Tight :=
  (requestMissing_notes c now upto).tight_iff fun _ hn => hn.1

/-- A request for what is missing below a frame held. -/
theorem Client.Noted.request (h : c.Noted) (now : ℚ) {f : Frame} (hf : f ∈ c.pending) :
    (c.requestMissing delay now f.seq).Noted := by
  refine (requestMissing_notes c now f.seq).noted ?_ h
  rintro n ⟨⟨e, he, _, _⟩, hlt⟩
  exact ⟨e, he, .inr ⟨f, hf, hlt⟩⟩

/-! ## What a delivery drops -/

/-- `expected` has moved on over frames that were held. -/
structure Drained (c c' : Client) : Prop where
  outstanding : c'.outstanding = c.outstanding
  gaps : ∀ g ∈ c'.gapSeenAt, g ∈ c.gapSeenAt
  below : ∀ e, c.expected = some e → ∀ g ∈ c.gapSeenAt, g.1 < e → g ∈ c'.gapSeenAt
  expected : ∀ e, c.expected = some e → ∃ e', c'.expected = some e' ∧ e ≤ e'
  missing : ∀ n, c.Missing n → c'.Missing n
  seen : ∀ n, c.Seen n → c'.Seen n

theorem drained_refl (c : Client) : Drained c c :=
  ⟨rfl, fun _ => id, fun _ _ _ hg _ => hg, fun e he => ⟨e, he, Nat.le_refl e⟩, fun _ => id, fun _ => id⟩

theorem Drained.take (h : Drained c c') {e : Nat} {f : Frame} (he : c'.expected = some e)
    (hf : lookup Frame.seq e c'.pending = some f) :
    Drained c (c'.take e f) := by
  refine ⟨h.outstanding, fun g hg => h.gaps g (List.mem_filter.1 hg).1, ?_, ?_, ?_, ?_⟩
  · intro e₀ he₀ g hg hlt
    obtain ⟨e', he', hle⟩ := h.expected e₀ he₀
    cases he.symm.trans he'
    exact List.mem_filter.2 ⟨h.below e₀ he₀ g hg hlt, by simp; omega⟩
  · intro e₀ he₀
    obtain ⟨e', he', hle⟩ := h.expected e₀ he₀
    cases he.symm.trans he'
    exact ⟨e + 1, rfl, by omega⟩
  · intro n hn
    obtain ⟨e', he', hle, hp⟩ := h.missing n hn
    cases he.symm.trans he'
    have hne : n ≠ e := by
      rintro rfl
      rw [hp] at hf
      cases hf
    refine ⟨e + 1, rfl, by omega, ?_⟩
    show lookup Frame.seq n (erase Frame.seq e c'.pending) = none
    rw [lookup_erase, if_neg hne]
    exact hp
  · intro n hn
    obtain ⟨e', he', hs⟩ := h.seen n hn
    cases he.symm.trans he'
    refine ⟨e + 1, rfl, ?_⟩
    rcases hs with hlt | ⟨g, hg, hlt⟩
    · exact .inl (by omega)
    · by_cases hge : g.seq = e
      · exact .inl (by omega)
      · exact .inr ⟨g, List.mem_filter.2 ⟨hg, by simpa using hge⟩, hlt⟩

theorem drain_drained (c : Client) : Drained c c.drain := by
  refine drainPending_keeps (P := Drained c) ?_ _ (drained_refl c)
  intro c' e f h he hf
  exact h.take he hf

theorem Drained.refers (h : Drained c c') {n : Nat} (hn : c'.Refers n) : c.Refers n := by
  rcases hn with hn | ⟨g, hg, rfl⟩
  · rw [h.outstanding] at hn
    exact .inl hn
  · exact .inr ⟨g, h.gaps g hg, rfl⟩

/-- A number below `expected` stays in the maps. -/
theorem Drained.refers_below (h : Drained c c') {e n : Nat} (he : c.expected = some e) (hlt : n < e)
    (hn : c.Refers n) : c'.Refers n := by
  rcases hn with hn | ⟨g, hg, rfl⟩
  · rw [← h.outstanding] at hn
    exact .inl hn
  · exact .inr ⟨g, h.below e he g hg hlt, rfl⟩

theorem Drained.tight (h : Drained c c') (hc : c.Tight) : c'.Tight := fun n hn => h.missing n (hc n (h.refers hn))

/-- From `e` on, `_drain_pending` keeps the maps tight just when nothing below `e` is referred to. -/
theorem drain_tight_iff {e : Nat} (he : c.expected = some e)
    (hp : ∀ n, c.Refers n → lookup Frame.seq n c.pending = none) :
    c.drain.Tight ↔ ∀ n, c.Refers n → e ≤ n := by
  have hd := drain_drained c
  constructor
  · intro ht n hn
    by_contra hlt
    -- the number stays, and `expected` is past it
    obtain ⟨e', he', hle, _⟩ := ht n (hd.refers_below he (by omega) hn)
    obtain ⟨e'', he'', hle'⟩ := hd.expected e he
    cases he'.symm.trans he''
    omega
  · intro hle
    apply hd.tight
    intro n hn
    exact ⟨e, he, hle n hn, hp n hn⟩

theorem drain_noted (hr : ∀ r ∈ c.outstanding, r.1.1 ≤ r.1.2) (hs : ∀ n, c.Refers n → c.Seen n) : c.drain.Noted where
  waits _ he := drainPending_done _ (Nat.le_refl _) he
  ranges := by
    rw [(drain_drained c).outstanding]
    exact hr
  seen n hn := (drain_drained c).seen n (hs n ((drain_drained c).refers hn))

/-- Before the snapshot both maps are empty. -/
theorem Client.Tight.not_refers (h : c.Tight) (hn : c.expected = none) (n : Nat) : ¬ c.Refers n := by
  intro hr
  obtain ⟨e, he, _⟩ := h n hr
  rw [hn] at he
  cases he

theorem Client.Noted.not_refers (h : c.Noted) (hn : c.expected = none) (n : Nat) : ¬ c.Refers n := by
  intro hr
  obtain ⟨e, he, _⟩ := h.seen n hr
  rw [hn] at he
  cases he

/-! ## The steps -/

/-- A frame held is no longer missing. -/
theorem upsert_missing_iff (c : Client) (f : Frame) (stats : Stats) (held : List Frame) (n : Nat) :
    Client.Missing { c with pending := upsert Frame.seq (fun _ r => r) c.pending f, stats, held } n ↔ c.Missing n ∧
      n ≠ f.seq := by
  have hup : lookup Frame.seq n (upsert Frame.seq (fun _ r => r) c.pending f) =
      if f.seq = n then some f else lookup Frame.seq n c.pending := by
    rw [lookup_upsert (fun _ _ _ => rfl)]
    split
    · split <;> rfl
    · rfl
  constructor
  · rintro ⟨e', he', hle, hp⟩
    have hp : lookup Frame.seq n (upsert Frame.seq (fun _ r => r) c.pending f) = none := hp
    rw [hup] at hp
    split at hp
    · cases hp
    · rename_i hne
      exact ⟨⟨e', he', hle, hp⟩, fun h => hne h.symm⟩
  · rintro ⟨⟨e', he', hle, hp⟩, hne⟩
    refine ⟨e', he', hle, ?_⟩
    show lookup Frame.seq n (upsert Frame.seq (fun _ r => r) c.pending f) = none
    rw [hup, if_neg fun h => hne h.symm]
    exact hp

/-- A frame after a gap keeps the maps tight when neither refers to it; the gap's first number is noted. -/
theorem hold_tight_iff (hc : c.Tight) {f : Frame} (viaRetrans : Bool) {e : Nat} (he : c.expected = some e)
    (hlt : e < f.seq) (t : ℚ)
    (hp : lookup Frame.seq e c.pending = none) : (c.hold f viaRetrans e t).Tight ↔ ¬ c.Refers f.seq := by
  unfold Client.hold
  split
  · rename_i g hg
    have hnot : ¬ c.Refers f.seq := by
      intro hr
      obtain ⟨_, _, _, hnone⟩ := hc _ hr
      rw [hnone] at hg
      cases hg
    exact iff_of_true hc hnot
  · rename_i hnew
    have hm := upsert_missing_iff c f
    refine ((seeGap_notes _ e t).tight_iff ?_).trans ?_
    · rintro n rfl
      exact (hm _ _ n).2 ⟨⟨n, he, Nat.le_refl n, hp⟩, by omega⟩
    · constructor
      · intro ht hr
        exact ((hm _ _ f.seq).1 (ht f.seq hr)).2 rfl
      · intro hnot n hn
        exact (hm _ _ n).2 ⟨hc n hn, fun h => hnot (h ▸ hn)⟩

/-- The expected frame is delivered; neither map is looked at. -/
theorem advance_tight_iff (hc : c.Tight) {f : Frame} {e : Nat} (he : c.expected = some e) (hs : f.seq = e) :
    (Client.deliver { c with expected := some (e + 1) } f).drain.Tight ↔ ¬ c.Refers f.seq := by
  refine (@drain_tight_iff _ (e + 1) rfl fun n hn => ?_).trans ?_
  · obtain ⟨_, _, _, hp⟩ := hc n hn
    exact hp
  constructor
  · intro hle hr
    have := hle f.seq hr
    omega
  · intro hnot n hn
    obtain ⟨e', he', hle, _⟩ := hc n hn
    cases he.symm.trans he'
    have hne : n ≠ f.seq := fun h => hnot (h ▸ hn)
    omega

/-- **A frame that arrives keeps the maps tight just when neither refers to it.** -/
theorem observe_tight_iff (hc : c.Tight) (hw : c.Noted) (f : Frame)
    (viaRetrans : Bool) (t : ℚ) : (c.observe delay f viaRetrans t now).Tight ↔ ¬ c.Refers f.seq := by
  unfold Client.observe
  split
  · rename_i hn
    have hnot := hc.not_refers hn
    have hsame : ∀ n, (c.buffer f).Refers n ↔ c.Refers n := by
      intro n
      unfold Client.buffer
      simp only
      split
      · split <;> exact Iff.rfl
      · exact Iff.rfl
    exact iff_of_true (fun n h => absurd ((hsame n).1 h) (hnot n)) (hnot f.seq)
  · rename_i e he
    split
    · rename_i hlt
      have hnot : ¬ c.Refers f.seq := by
        intro hr
        obtain ⟨e', he', hle, _⟩ := hc _ hr
        cases he.symm.trans he'
        omega
      exact iff_of_true hc hnot
    · split
      · rename_i hs
        exact advance_tight_iff hc he hs
      · rw [requestMissing_tight_iff]
        exact hold_tight_iff hc viaRetrans he (by omega) t (hw.waits e he)

theorem Client.Noted.hold (h : c.Noted) (f : Frame) (viaRetrans : Bool) {e : Nat} (he : c.expected = some e)
    (hlt : e < f.seq) (t : ℚ) :
    (c.hold f viaRetrans e t).Noted ∧ ∃ g ∈ (c.hold f viaRetrans e t).pending, g.seq = f.seq := by
  unfold Client.hold
  split
  · rename_i g hg
    exact ⟨⟨h.waits, h.ranges, h.seen⟩, g, mem_of_lookup hg, key_of_lookup hg⟩
  · rename_i hnew
    have hmem : f ∈ upsert Frame.seq (fun _ r => r) c.pending f := mem_replace_self c.pending f
    constructor
    · refine (seeGap_notes _ e t).noted ?_ ⟨?_, h.ranges, ?_⟩
      · rintro n rfl
        exact ⟨n, he, .inr ⟨f, hmem, hlt⟩⟩
      · intro e' he'
        cases he.symm.trans he'
        obtain ⟨_, he', _, hp⟩ := (upsert_missing_iff c f c.stats c.held e).2
          ⟨⟨e, he, Nat.le_refl e, h.waits e he⟩, by omega⟩
        exact hp
      · intro n hn
        obtain ⟨e', he', hs⟩ := h.seen n hn
        refine ⟨e', he', hs.imp_right ?_⟩
        rintro ⟨g, hg, hlt⟩
        by_cases hgf : g.seq = f.seq
        · exact ⟨f, hmem, by omega⟩
        · exact ⟨g, mem_replace_of_ne hg hgf, hlt⟩
    · exact ⟨f, by rw [(seeGap_same _ e t).pending]; exact hmem, rfl⟩

theorem Client.Noted.observe (h : c.Noted) (f : Frame) (viaRetrans : Bool) (t : ℚ) :
    (c.observe delay f viaRetrans t now).Noted := by
  unfold Client.observe
  split
  · rename_i hn
    have hexp : (c.buffer f).expected = none ∧ (c.buffer f).outstanding = c.outstanding ∧
        (c.buffer f).gapSeenAt = c.gapSeenAt := by
      unfold Client.buffer
      simp only
      split
      · split <;> exact ⟨hn, rfl, rfl⟩
      · exact ⟨hn, rfl, rfl⟩
    refine ⟨fun e he => ?_, by rw [hexp.2.1]; exact h.ranges, fun n hr => ?_⟩
    · rw [hexp.1] at he
      cases he
    · unfold Client.Refers at hr
      rw [hexp.2.1, hexp.2.2] at hr
      exact absurd hr (h.not_refers hn n)
  · rename_i e he
    split
    · exact ⟨h.waits, h.ranges, h.seen⟩
    · split
      · refine drain_noted h.ranges fun n hr => ?_
        obtain ⟨e', he', hs⟩ := h.seen n hr
        cases he.symm.trans he'
        refine ⟨e + 1, rfl, hs.imp_left fun hlt => ?_⟩
        omega
      · obtain ⟨hn, g, hg, hgs⟩ := h.hold f viaRetrans he (by omega) t
        rw [← hgs]
        exact hn.request now hg

/-- At the snapshot both maps are empty, and what is missing below the first frame held is asked for. -/
theorem Client.Noted.onSnapshot (h : c.Noted) (hn : c.expected = none) (m : SnapshotMeta) :
    (c.onSnapshot delay m now).Noted ∧ (c.onSnapshot delay m now).Tight := by
  have hnot := h.not_refers hn
  unfold Client.onSnapshot
  simp only
  have hdrain : Client.Noted (Client.drain { c with
      snapshotMeta := some m
      expected := some m.nextSeq
      pending := c.pending.filter fun f => m.nextSeq ≤ f.seq
      stats := { c.stats with
        discardedBeforeSnapshot :=
          c.stats.discardedBeforeSnapshot + (c.pending.length - (c.pending.filter fun f => m.nextSeq ≤ f.seq).length) }
      held := c.held ++ c.pending.filter fun f => m.nextSeq ≤ f.seq }) := drain_noted h.ranges fun n hr =>
        absurd hr (hnot n)
  have htight : Client.Tight (Client.drain { c with
      snapshotMeta := some m
      expected := some m.nextSeq
      pending := c.pending.filter fun f => m.nextSeq ≤ f.seq
      stats := { c.stats with
        discardedBeforeSnapshot :=
          c.stats.discardedBeforeSnapshot + (c.pending.length - (c.pending.filter fun f => m.nextSeq ≤ f.seq).length) }
      held := c.held ++ c.pending.filter fun f => m.nextSeq ≤ f.seq }) :=
    (drain_drained _).tight fun n hr => absurd hr (hnot n)
  split
  · rename_i s hs
    obtain ⟨f, hf, rfl⟩ := List.mem_map.1 (List.min?_mem hs)
    exact ⟨hdrain.request now hf, (requestMissing_tight_iff _ now _).2 htight⟩
  · exact ⟨hdrain, htight⟩

theorem Client.Noted.tick (h : c.Noted) : (c.tick delay now).Noted := by
  unfold Client.tick
  split
  · rename_i s hs
    obtain ⟨f, hf, rfl⟩ := List.mem_map.1 (List.max?_mem hs)
    exact h.request now hf
  · exact h

theorem tick_tight_iff (c : Client) : (c.tick delay now).Tight ↔ c.Tight := by
  unfold Client.tick
  split
  · exact requestMissing_tight_iff c now _
  · exact Iff.rfl

/-- An acknowledgement drops its own range, and the times below the publisher's oldest frame when it skips to it. -/
theorem Client.Noted.onAck (h : c.Noted) (a : Ack) : (c.onAck a).Noted := by
  have hr : ∀ r ∈ erase Prod.fst (a.fromSeq, a.toSeq) c.outstanding, r.1.1 ≤ r.1.2 :=
    fun r hr => h.ranges r (List.mem_filter.1 hr).1
  unfold Client.onAck
  simp only
  split
  · refine ⟨h.waits, hr, ?_⟩
    rintro n (⟨r, hr, hle⟩ | hn)
    · exact h.seen n (.inl ⟨r, (List.mem_filter.1 hr).1, hle⟩)
    · exact h.seen n (.inr hn)
  · rename_i e he
    split
    · rename_i hc
      refine drain_noted hr ?_
      have hseen : ∀ n, c.Seen n → ∃ e', some a.oldestAvailable = some e' ∧ (n < e' ∨ ∃ f ∈ c.pending, n < f.seq) := by
        rintro n ⟨e', he', hs⟩
        cases he.symm.trans he'
        exact ⟨_, rfl, hs.imp_left fun hlt => by omega⟩
      rintro n (⟨r, hr, hle⟩ | ⟨g, hg, rfl⟩)
      · exact hseen n (h.seen n (.inl ⟨r, (List.mem_filter.1 hr).1, hle⟩))
      · exact hseen g.1 (h.seen g.1 (.inr ⟨g, (List.mem_filter.1 hg).1, rfl⟩))
    · refine ⟨h.waits, hr, ?_⟩
      rintro n (⟨r, hr, hle⟩ | hn)
      · exact h.seen n (.inl ⟨r, (List.mem_filter.1 hr).1, hle⟩)
      · exact h.seen n (.inr hn)

/-- **An acknowledgement keeps the maps tight just when it skips no range but its own.** -/
theorem onAck_tight_iff (hc : c.Tight) (hw : c.Noted) (a : Ack) :
    (c.onAck a).Tight ↔ (a.unavailable ≠ 0 → ∀ r ∈ c.outstanding, r.1 ≠ (a.fromSeq, a.toSeq) →
      a.oldestAvailable ≤ r.1.1) := by
  have herase : ∀ n, Client.Refers { c with outstanding := erase Prod.fst (a.fromSeq, a.toSeq) c.outstanding } n →
      c.Refers n := by
    rintro n (⟨r, hr, hle⟩ | hn)
    · exact .inl ⟨r, (List.mem_filter.1 hr).1, hle⟩
    · exact .inr hn
  unfold Client.onAck
  simp only
  split
  · rename_i hn
    refine iff_of_true (fun n hr => absurd (herase n hr) (hc.not_refers hn n)) ?_
    intro _ r hr
    exact absurd (.inl ⟨r, hr, Nat.le_refl _, hw.ranges r hr⟩) (hc.not_refers hn r.1.1)
  · rename_i e he
    have hbelow : ∀ r ∈ c.outstanding, e ≤ r.1.1 := by
      intro r hr
      obtain ⟨e', he', hle, _⟩ := hc r.1.1 (.inl ⟨r, hr, Nat.le_refl _, hw.ranges r hr⟩)
      cases he.symm.trans he'
      exact hle
    split
    · rename_i hskip
      refine (drain_tight_iff rfl ?_).trans ?_
      · rintro n (⟨r, hr, hle⟩ | ⟨g, hg, rfl⟩)
        · obtain ⟨_, _, _, hp⟩ := hc n (.inl ⟨r, (List.mem_filter.1 hr).1, hle⟩)
          exact hp
        · obtain ⟨_, _, _, hp⟩ := hc g.1 (.inr ⟨g, (List.mem_filter.1 hg).1, rfl⟩)
          exact hp
      constructor
      · intro hold _ r hr hk
        have hmem : r ∈ erase Prod.fst (a.fromSeq, a.toSeq) c.outstanding := List.mem_filter.2 ⟨hr, by simpa using hk⟩
        exact hold r.1.1 (.inl ⟨r, hmem, Nat.le_refl _, hw.ranges r hr⟩)
      · rintro hok n (⟨r, hr, hle⟩ | ⟨g, hg, rfl⟩)
        · obtain ⟨hr, hk⟩ := List.mem_filter.1 hr
          have hold := hok hskip.1 r hr (by simpa using hk)
          omega
        · simpa using (List.mem_filter.1 hg).2
    · rename_i hskip
      refine iff_of_true (fun n hr => hc n (herase n hr)) ?_
      intro hu r hr _
      have := hbelow r hr
      have : ¬ e < a.oldestAvailable := fun h => hskip ⟨hu, h⟩
      omega

/-- Where nothing is held the maps of a tight client are empty. -/
theorem Client.Tight.empty (hc : c.Tight) (hw : c.Noted) (hp : c.pending = []) : c.outstanding = [] ∧
    c.gapSeenAt = [] := by
  have hnot : ∀ n, ¬ c.Refers n := by
    intro n hn
    obtain ⟨e, he, hle, _⟩ := hc n hn
    obtain ⟨e', he', hs⟩ := hw.seen n hn
    cases he.symm.trans he'
    rcases hs with hlt | ⟨f, hf, _⟩
    · omega
    · rw [hp] at hf
      cases hf
  constructor
  · rw [List.eq_nil_iff_forall_not_mem]
    intro r hr
    exact hnot r.1.1 (.inl ⟨r, hr, Nat.le_refl _, hw.ranges r hr⟩)
  · rw [List.eq_nil_iff_forall_not_mem]
    intro g hg
    exact hnot g.1 (.inr ⟨g, hg, rfl⟩)

end

/-! ## The system -/

/-- No frame arrives that a range or a time is kept for, and no acknowledgement skips a range other than its own. -/
def State.spares (w : State) : Label → Prop
  | .udp seq _ _ => ¬ w.client.Refers seq
  | .tcp _ _ => match w.stream with
    | .frame f :: _ => ¬ w.client.Refers f.seq
    | .ack a :: _ => a.unavailable ≠ 0 → ∀ r ∈ w.client.outstanding, r.1 ≠ (a.fromSeq, a.toSeq) →
        a.oldestAvailable ≤ r.1.1
    | _ => True
  | _ => True

section

variable {delay : ℚ} {w w' : State} {l : Label}

theorem noted_step (hI : Inv w) (hw : w.client.Noted) (h : step delay w l = some w') : w'.client.Noted := by
  have hsent : ∀ sent : List Request, Client.Noted { w.client with sent } := fun _ => ⟨hw.waits, hw.ranges, hw.seen⟩
  cases l with
  | publish msgType payload =>
    cases h
    exact hw
  | udp seq t now =>
    obtain ⟨f, _, rfl⟩ := Option.map_eq_some_iff.1 h
    exact hw.observe f false t
  | snapshot latest tsNs =>
    simp only [step] at h
    split at h
    · cases h
      exact hsent _
    · cases h
  | answer seqs a =>
    simp only [step] at h
    split at h
    · split at h
      · cases h
        exact hsent _
      · cases h
    · cases h
  | tcp t now =>
    simp only [step] at h
    split at h
    · rename_i x rest hs
      cases h
      cases x with
      | snapshotFrame msgType payload => exact ⟨hw.waits, hw.ranges, hw.seen⟩
      | snapshotMeta m => exact (hw.onSnapshot (hI.not_started hs) m).1
      | ack a => exact hw.onAck a
      | frame f => exact hw.observe f true t
    · cases h
  | tick now =>
    cases h
    exact hw.tick

theorem tight_step_iff (hI : Inv w) (hw : w.client.Noted) (hc : w.client.Tight) (h : step delay w l = some w') :
    w'.client.Tight ↔ w.spares l := by
  cases l with
  | publish msgType payload =>
    cases h
    exact iff_of_true hc trivial
  | udp seq t now =>
    obtain ⟨f, hf, rfl⟩ := Option.map_eq_some_iff.1 h
    rw [← hI.pub.numbered seq f hf]
    exact observe_tight_iff hc hw f false t
  | snapshot latest tsNs =>
    simp only [step] at h
    split at h
    · cases h
      exact iff_of_true hc trivial
    · cases h
  | answer seqs a =>
    simp only [step] at h
    split at h
    · split at h
      · cases h
        exact iff_of_true hc trivial
      · cases h
    · cases h
  | tcp t now =>
    simp only [step] at h
    split at h
    · rename_i x rest hs
      cases h
      simp only [State.spares, hs]
      cases x with
      | snapshotFrame msgType payload => exact iff_of_true hc trivial
      | snapshotMeta m => exact iff_of_true (hw.onSnapshot (hI.not_started hs) m).2 trivial
      | ack a => exact onAck_tight_iff hc hw a
      | frame f => exact observe_tight_iff hc hw f true t
    · cases h
  | tick now =>
    cases h
    exact iff_of_true ((tick_tight_iff w.client).2 hc) trivial

end

theorem noted_init (size : Nat) : (State.init size).client.Noted where
  waits _ he := by cases he
  ranges _ hr := by cases hr
  seen := by rintro n (⟨_, hr, _⟩ | ⟨_, hg, _⟩) <;> cases ‹_ ∈ []›

theorem tight_init (size : Nat) : (State.init size).client.Tight := by
  intro n hn
  exact absurd hn ((noted_init size).not_refers rfl n)

/-- **The maps refer to missing numbers, and are empty when nothing is held, all along exactly the runs** in which no
frame arrives that they refer to and no acknowledgement skips a range other than its own. -/
theorem bookkeeping_tight_iff (size : Nat) (delay : ℚ) (ls : List Label) (w : State) :
    (Run (step delay) anyStep (.init size) ls w ∧ ∀ bs cs m, ls = bs ++ cs →
      Run (step delay) anyStep (.init size) bs m →
        m.client.Tight ∧ (m.client.pending = [] → m.client.outstanding = [] ∧ m.client.gapSeenAt = [])) ↔
      Run (step delay) State.spares (.init size) ls w := by
  have hJ : ∀ v l v', Inv v ∧ v.client.Noted → step delay v l = some v' → Inv v' ∧ v'.client.Noted :=
    fun v l v' hv hs => ⟨inv_step hv.1 hs, noted_step hv.1 hv.2 hs⟩
  have h0 : Inv (State.init size) ∧ (State.init size).client.Noted := ⟨inv_init size, noted_init size⟩
  have hiff : Run (step delay) anyStep (.init size) ls w →
      ((∀ bs cs m, ls = bs ++ cs → Run (step delay) anyStep (.init size) bs m →
      m.client.Tight) ↔ Run (step delay) State.spares (.init size) ls w) := fun h =>
    Run.invariant_iff hJ (fun v l v' hv hc hs => tight_step_iff hv.1 hv.2 hc hs) h h0 (tight_init size)
  constructor
  · rintro ⟨h, hall⟩
    exact (hiff h).1 fun bs cs m hbs hm => (hall bs cs m hbs hm).1
  · intro h
    have hany : Run (step delay) anyStep (.init size) ls w := h.mono fun _ _ _ => trivial
    refine ⟨hany, fun bs cs m hbs hm => ?_⟩
    have ht := (hiff hany).2 h bs cs m hbs hm
    have hn : Inv m ∧ m.client.Noted := hm.invariant h0 fun v l v' hv _ hs => hJ v l v' hv hs
    exact ⟨ht, ht.empty hn.2⟩

/-- Two trades arrive in the other order; no number is missing then. -/
def reorderedRun : List Label := published 2 ++ [.udp 1 1000 1000, .udp 0 1001 1001]

/-- **The time of a gap that has closed stays for ever**: everything is delivered and nothing is held or asked for. -/
theorem gap_time_stays :
    ∃ w, Run (step GAP_FILL_DELAY_S) anyStep (.init 2) reorderedRun w ∧ w.client.delivered.map Frame.seq = [0, 1] ∧
      w.client.expected = some 2 ∧ w.pub.seq = 2 ∧ w.client.pending = [] ∧ w.client.sent = [] ∧
      w.client.gapSeenAt = [(0, 1000)] ∧
      ¬ w.client.Tight := by
  obtain ⟨w, h, hd, he, hp⟩ : ∃ w, Run (step GAP_FILL_DELAY_S) anyStep (.init 2) reorderedRun w ∧
    w.client.delivered.map Frame.seq = [0, 1] ∧ w.client.expected = some 2 ∧ w.pub.seq = 2 ∧ w.client.pending = [] ∧
    w.client.sent = [] ∧ w.client.gapSeenAt = [(0, 1000)] := exists_run (by decide +kernel)
  refine ⟨w, h, hd, he, hp.1, hp.2.1, hp.2.2.1, hp.2.2.2, fun ht => ?_⟩
  obtain ⟨e, he', hle, _⟩ := ht 0 (.inr ⟨(0, 1000), by rw [hp.2.2.2]; simp, rfl⟩)
  rw [he] at he'
  cases he'
  omega

/-- The acknowledgement of a range longer than an answer leaves it in `outstanding`: it names the part that was sent. -/
theorem truncated_range_stays (p : Publisher)
    {c : Client} {lo hi : Nat} {asked : ℚ} (hm : ((lo, hi), asked) ∈ c.outstanding)
    (hlong : lo + 10000 ≤ hi) (hhi : hi < p.seq) (hseq : p.seq < 2 ^ 64) :
    ((lo, hi), asked) ∈ (c.onAck (p.ack lo hi)).outstanding := by
  have hto : (p.ack lo hi).toSeq = lo + 9999 := by
    simp only [Publisher.ack, Publisher.clampTo, Nat.not_le.2 hhi, if_false]
    rw [if_pos (by omega)]
    omega
  have herase : ((lo, hi), asked) ∈ erase Prod.fst ((p.ack lo hi).fromSeq, (p.ack lo hi).toSeq) c.outstanding := by
    refine List.mem_filter.2 ⟨hm, ?_⟩
    rw [hto]
    simp only [ne_eq, Prod.mk.injEq, not_and, decide_eq_true_eq]
    omega
  unfold Client.onAck
  simp only
  split
  · exact herase
  · split
    · unfold Client.skipTo
      rw [(drain_drained _).outstanding]
      exact herase
    · exact herase

end Mcast
