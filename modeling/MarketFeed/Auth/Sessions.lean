import Mathlib.Algebra.Order.Field.Rat
import Mathlib.Data.List.Chain
import Mathlib.Data.List.Pairwise
import Mathlib.Tactic.Linarith
/-!
# Sessions (auth.py:73-117)

A session ends when it is not used for half an hour, and half a day after the login at the latest. The store keeps no
history: it keeps the last use, and forgets a session when a late check finds it. `valid_iff` says what that comes to
over a whole run, in terms of the requests alone.

| here | there |
| --- | --- |
| `SessionStore.create`, `check`, `subject`, `revoke` | the methods; the clock's reading is an argument, the token that `token_urlsafe` gives another |
| `σ` | the subjects: a participant's id at the contest, nothing at the desk |
| `story` | not in the source: the login that a token is from, and when it was used since |

Times are seconds of the monotonic clock, as exact numbers.
-/

namespace Auth

def IDLE_TTL_S : ℚ := 30 * 60

def ABSOLUTE_TTL_S : ℚ := 12 * 3600

structure Session (σ : Type) where
  created : ℚ
  last : ℚ
  subject : σ
  deriving DecidableEq

/-- `_sessions`. -/
structure SessionStore (σ : Type) where
  sessions : String → Option (Session σ)

namespace SessionStore

variable {σ : Type}

def empty : SessionStore σ := ⟨fun _ => none⟩

def create (s : SessionStore σ) (now : ℚ) (tok : String) (subject : σ) : SessionStore σ :=
  ⟨Function.update s.sessions tok (some ⟨now, now, subject⟩)⟩

def check (s : SessionStore σ) (now : ℚ) (token : Option String) : Bool × SessionStore σ :=
  let tok := token.getD ""
  if tok = "" then (false, s)
  else
    match s.sessions tok with
    | none => (false, s)
    | some got =>
      if IDLE_TTL_S < now - got.last ∨ ABSOLUTE_TTL_S < now - got.created then
        (false, ⟨Function.update s.sessions tok none⟩)
      else (true, ⟨Function.update s.sessions tok (some { got with last := now })⟩)

def subject (s : SessionStore σ) (now : ℚ) (token : Option String) : Option σ × SessionStore σ :=
  let r := s.check now token
  (if r.1 then (r.2.sessions (token.getD "")).map Session.subject else none, r.2)

def revoke (s : SessionStore σ) (token : Option String) : SessionStore σ :=
  ⟨Function.update s.sessions (token.getD "") none⟩

end SessionStore

/-- `use` is `check` or `subject`. -/
inductive Call (σ : Type)
  | create (tok : String) (subject : σ)
  | use (token : Option String)
  | revoke (token : Option String)

section

variable {σ : Type}

def SessionStore.call (s : SessionStore σ) (c : ℚ × Call σ) : SessionStore σ :=
  match c.2 with
  | .create tok subject => s.create c.1 tok subject
  | .use token => (s.check c.1 token).2
  | .revoke token => s.revoke token

/-- The calls of a process, each with the time. -/
def SessionStore.run (calls : List (ℚ × Call σ)) : SessionStore σ := calls.foldl SessionStore.call .empty

/-! ## What it comes to -/

/-- The login a token is from, and when it was used since. -/
structure Story (σ : Type) where
  created : ℚ
  subject : σ
  uses : List ℚ

def tell (tok : String) (st : Option (Story σ)) (c : ℚ × Call σ) : Option (Story σ) :=
  match c.2 with
  | .create t subject => if t = tok then some ⟨c.1, subject, []⟩ else st
  | .use token => if token.getD "" = tok then st.map fun st => { st with uses := st.uses ++ [c.1] } else st
  | .revoke token => if token.getD "" = tok then none else st

def story (tok : String) (calls : List (ℚ × Call σ)) : Option (Story σ) := calls.foldl (tell tok) none

/-- Never half an hour without a use from the login on, up to `now`, and not half a day since. -/
def Story.Alive (st : Story σ) (now : ℚ) : Prop :=
  (st.created :: st.uses ++ [now]).IsChain (fun a b => b - a ≤ IDLE_TTL_S) ∧ now - st.created ≤ ABSOLUTE_TTL_S

/-! ## The store keeps just that -/

theorem story_concat (tok : String) (calls : List (ℚ × Call σ)) (c : ℚ × Call σ) :
    story tok (calls ++ [c]) = tell tok (story tok calls) c := by
  simp [story]

theorem run_concat (calls : List (ℚ × Call σ)) (c : ℚ × Call σ) :
    SessionStore.run (calls ++ [c]) = (SessionStore.run calls).call c := by
  simp [SessionStore.run]

/-- When it was used last. -/
def Story.last (st : Story σ) : ℚ := st.uses.getLastD st.created

/-- Its last use was in time. -/
def Story.Kept (st : Story σ) : Prop :=
  (st.created :: st.uses).IsChain (fun a b => b - a ≤ IDLE_TTL_S) ∧ st.last - st.created ≤ ABSOLUTE_TTL_S

theorem Story.getLast?_eq (st : Story σ) : (st.created :: st.uses).getLast? = some st.last := by
  rw [List.getLast?_cons, Story.last, List.getLastD_eq_getLast?]

/-- One use more. -/
theorem Story.alive_iff {st : Story σ} {now : ℚ} (hlast : st.last ≤ now) :
    st.Alive now ↔ st.Kept ∧ now - st.last ≤ IDLE_TTL_S ∧ now - st.created ≤ ABSOLUTE_TTL_S := by
  unfold Story.Alive Story.Kept
  rw [List.isChain_append, st.getLast?_eq]
  constructor
  · rintro ⟨⟨hchain, -, hgap⟩, habs⟩
    exact ⟨⟨hchain, by linarith⟩, hgap _ rfl _ rfl, habs⟩
  · rintro ⟨⟨hchain, -⟩, hgap, habs⟩
    refine ⟨⟨hchain, List.isChain_singleton now, ?_⟩, habs⟩
    intro x hx y hy
    cases hx
    cases hy
    exact hgap

theorem Story.kept_use {st : Story σ} {now : ℚ} : Story.Kept { st with uses := st.uses ++ [now] } ↔ st.Alive now := by
  simp [Story.Kept, Story.Alive, Story.last]

/-- What the store has of a token: the story that was kept alive, without the uses. -/
structure Stored (tok : String) (got : Option (Session σ)) (told : Option (Story σ)) : Prop where
  found : ∀ s, got = some s → ∃ st, told = some st ∧ st.Kept ∧ s = ⟨st.created, st.last, st.subject⟩
  missing : got = none → ∀ st, told = some st → ¬ st.Kept

/-- Every time of the story is one of a call. -/
theorem last_mem {tok : String} {calls : List (ℚ × Call σ)} {st : Story σ} (h : story tok calls = some st) :
    st.last ∈ calls.map Prod.fst := by
  induction calls using List.reverseRecOn generalizing st with
  | nil => cases h
  | append_singleton calls c ih =>
    rw [story_concat] at h
    obtain ⟨t, c⟩ := c
    have hself : t ∈ (calls ++ [(t, c)]).map Prod.fst := by simp
    have hbefore : ∀ {x}, x ∈ calls.map Prod.fst → x ∈ (calls ++ [(t, c)]).map Prod.fst := by
      intro x hx
      rw [List.map_append]
      exact List.mem_append_left _ hx
    cases c with
    | create t' subject =>
      simp only [tell] at h
      split at h
      · cases h
        exact hself
      · exact hbefore (ih h)
    | use token =>
      simp only [tell] at h
      split at h
      · obtain ⟨st', -, rfl⟩ := Option.map_eq_some_iff.1 h
        simp [Story.last]
      · exact hbefore (ih h)
    | revoke token =>
      simp only [tell] at h
      split at h
      · cases h
      · exact hbefore (ih h)

/-- A use of the token. -/
theorem Stored.use {tok : String} {s : SessionStore σ} {told : Option (Story σ)}
    (h : Stored tok (s.sessions tok) told) (htok : tok ≠ "")
    {now : ℚ} (hlast : ∀ st, told = some st → st.last ≤ now) :
    ((s.check now (some tok)).1 = true ↔ ∃ st, told = some st ∧ st.Alive now) ∧
      ((s.check now (some tok)).1 = true →
      ((s.check now (some tok)).2.sessions tok).map Session.subject = told.map Story.subject) ∧
      Stored tok ((s.check now (some tok)).2.sessions tok)
        (told.map fun st => { st with uses := st.uses ++ [now] }) := by
  cases hgot : s.sessions tok with
  | none =>
    have hdead : ∀ st, told = some st → ¬ st.Alive now := fun st hst halive =>
      h.missing hgot st hst ((Story.alive_iff (hlast st hst)).1 halive).1
    have hcheck : s.check now (some tok) = (false, s) := by simp [SessionStore.check, htok, hgot]
    rw [hcheck]
    refine ⟨⟨nofun, fun ⟨st, hst, halive⟩ => absurd halive (hdead st hst)⟩, nofun, ?_, ?_⟩
    · rw [hgot]
      exact nofun
    · intro _ st hst
      obtain ⟨st', hst', rfl⟩ := Option.map_eq_some_iff.1 hst
      exact fun hkept => hdead st' hst' (Story.kept_use.1 hkept)
  | some got =>
    obtain ⟨st, rfl, hkept, rfl⟩ := h.found got hgot
    have halive := Story.alive_iff (hlast st rfl)
    by_cases hlate : IDLE_TTL_S < now - st.last ∨ ABSOLUTE_TTL_S < now - st.created
    · have hdead : ¬ st.Alive now := by
        intro ha
        obtain ⟨-, hgap, habs⟩ := halive.1 ha
        rcases hlate with hlate | hlate <;> linarith
      have hcheck : s.check now (some tok) = (false, ⟨Function.update s.sessions tok none⟩) := by
        simp [SessionStore.check, htok, hgot, hlate]
      rw [hcheck]
      refine ⟨⟨nofun, fun ⟨st', hst', ha⟩ => absurd (Option.some.inj hst' ▸ ha) hdead⟩, nofun, ?_, ?_⟩
      · simp
      · intro _ st' hst'
        cases hst'
        exact fun hkept => hdead (Story.kept_use.1 hkept)
    · have hcheck : s.check now (some tok) =
          (true, ⟨Function.update s.sessions tok (some ⟨st.created, now, st.subject⟩)⟩) := by
        simp [SessionStore.check, htok, hgot, hlate]
      have ha : st.Alive now := by
        simp only [not_or, not_lt] at hlate
        exact halive.2 ⟨hkept, hlate⟩
      rw [hcheck]
      refine ⟨⟨fun _ => ⟨st, rfl, ha⟩, fun _ => rfl⟩, fun _ => by simp, ?_, ?_⟩
      · intro s' hs'
        refine ⟨{ st with uses := st.uses ++ [now] }, rfl, Story.kept_use.2 ha, ?_⟩
        simp only [Function.update_self, Option.some.injEq] at hs'
        simp [← hs', Story.last]
      · simp

theorem check_other {s : SessionStore σ} {now : ℚ} {token : Option String} {tok : String} (h : token.getD "" ≠ tok) :
    (s.check now token).2.sessions tok = s.sessions tok := by
  unfold SessionStore.check
  dsimp only
  split
  · rfl
  · split
    · rfl
    · split <;> exact Function.update_of_ne (Ne.symm h) _ _

theorem stored_run {tok : String} (htok : tok ≠ "")
    {calls : List (ℚ × Call σ)} (hmono : (calls.map Prod.fst).Pairwise (· ≤ ·)) :
    Stored tok ((SessionStore.run calls).sessions tok) (story tok calls) := by
  induction calls using List.reverseRecOn with
  | nil => exact ⟨nofun, nofun⟩
  | append_singleton calls c ih =>
    rw [List.map_append, List.pairwise_append] at hmono
    obtain ⟨hmono, -, hle⟩ := hmono
    have ih := ih hmono
    rw [run_concat, story_concat]
    obtain ⟨t, c⟩ := c
    cases c with
    | create t' subject =>
      simp only [SessionStore.call, SessionStore.create, tell]
      by_cases heq : t' = tok
      · subst heq
        rw [if_pos rfl, Function.update_self]
        refine ⟨fun s hs => ⟨_, rfl, ⟨List.isChain_singleton _, by simp [Story.last, ABSOLUTE_TTL_S]⟩, ?_⟩, nofun⟩
        cases hs
        rfl
      · rw [if_neg heq, Function.update_of_ne (Ne.symm heq)]
        exact ih
    | use token =>
      simp only [SessionStore.call, tell]
      by_cases heq : token.getD "" = tok
      · rw [if_pos heq]
        obtain ⟨x, rfl⟩ : ∃ x, token = some x := by
          cases token with
          | none => exact absurd heq.symm htok
          | some x => exact ⟨x, rfl⟩
        obtain rfl : x = tok := heq
        exact (ih.use htok fun st hst => hle _ (last_mem hst) t (by simp)).2.2
      · rw [if_neg heq, check_other heq]
        exact ih
    | revoke token =>
      simp only [SessionStore.call, SessionStore.revoke, tell]
      by_cases heq : token.getD "" = tok
      · rw [if_pos heq, heq, Function.update_self]
        exact ⟨nofun, nofun⟩
      · rw [if_neg heq, Function.update_of_ne (Ne.symm heq)]
        exact ih

/-- **Whom a request with a token is from.** After any calls, `subject` answers `who` just when the token is from a
login of `who` that was not revoked since, no use after it (this one too) came more than half an hour behind the one
before, and it is not half a day old. -/
theorem valid_iff (calls : List (ℚ × Call σ)) (hmono : (calls.map Prod.fst).Pairwise (· ≤ ·)) (now : ℚ)
    (hnow : ∀ t ∈ calls.map Prod.fst, t ≤ now)
    (tok : String) (who : σ) :
    ((SessionStore.run calls).subject now (some tok)).1 = some who ↔
      tok ≠ "" ∧ ∃ st, story tok calls = some st ∧ st.subject = who ∧ st.Alive now := by
  by_cases htok : tok = ""
  · subst htok
    simp [SessionStore.subject, SessionStore.check]
  · have hlast : ∀ st, story tok calls = some st → st.last ≤ now := fun st hst => hnow _ (last_mem hst)
    obtain ⟨hcheck, hsubject, -⟩ := (stored_run htok hmono).use htok hlast
    simp only [SessionStore.subject, Option.getD_some]
    by_cases hr : ((SessionStore.run calls).check now (some tok)).1 = true
    · obtain ⟨st, hst, halive⟩ := hcheck.1 hr
      rw [if_pos hr, hsubject hr, hst]
      constructor
      · intro h
        exact ⟨htok, st, rfl, Option.some.inj h, halive⟩
      · rintro ⟨-, st', hst', rfl, -⟩
        cases hst'
        rfl
    · rw [if_neg hr]
      exact ⟨nofun, fun ⟨_, st, hst, _, halive⟩ => absurd (hcheck.2 ⟨st, hst, halive⟩) hr⟩

/-- Used after twenty minutes, asked for after forty. -/
theorem valid_iff_used : ((SessionStore.run [(0, .create "t" 7), (1200, .use (some "t"))]).subject 2400
    (some "t")).1 = some 7 ↔
    "t" ≠ "" ∧ ∃ st, story "t" [(0, .create "t" 7), (1200, .use (some "t"))] = some st ∧ st.subject = 7 ∧
    st.Alive 2400 :=
  valid_iff [(0, .create "t" 7), (1200, .use (some "t"))] (by norm_num) 2400 (by norm_num) "t" 7

end

end Auth
