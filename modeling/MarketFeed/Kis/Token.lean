import MarketFeed.Lib.Run
import Mathlib.Algebra.Order.Field.Rat
import Mathlib.Logic.Function.Basic
import Mathlib.Tactic.Linarith
/-!
# `TokenStore` (adapters/kis_token.py)

Stores of several processes that share one cache path. A call of `token` looks at its store's memory, then takes
the store's lock and looks again, then at the file, and last lets a thread issue a token under the file lock.
What is cancelled leaves its thread behind.

| here | there |
| --- | --- |
| `World.now` | `time.time()`; it does not go back |
| `Cred` | `app_key` and `rest_base` of a store |
| `World.memory`, `World.locked` | `_token` and `_exp`, `_lock` of each store |
| `World.cache`, `World.flock` | the files `path` and `path.lock` |
| `Act.call`, `Act.enter`, `Act.resume` | `token` up to its lock, from there to its `await` or its end, and what is left |
| `Act.lock`, `Act.request`, `Act.answer`, `Act.write` | `_issue_locked` |
| `Act.cancel` | the task is cancelled |

A token is valid up to the `expires_at` that is computed for it, two minutes before the end that its answer names.
A request that gets no answer has issued nothing, and no process ends while a thread of its own is at work. The count
of issues is left out. `World.issued`, `World.requests` and `World.returned` are logs.

The file does not say whose token it holds, and a token that cannot be written to it is lost (`issued_once`).
-/

namespace Kis.Token

structure Cred where
  appKey : String
  restBase : String
  deriving DecidableEq

/-- Nothing that can be loaded, something on which the reader raises, or an entry; a missing field is `""` or 0. -/
inductive CacheFile
  | unreadable
  | malformed
  | entry (accessToken : String) (expiresAt : ℚ)
  deriving DecidableEq

def MIN_REMAIN_S : ℚ := 600

inductive Read
  | miss
  | raises
  | hit (token : String) (exp : ℚ)
  deriving DecidableEq

def readCache (now : ℚ) : CacheFile → Read
  | .unreadable => .miss
  | .malformed => .raises
  | .entry token exp => if now + MIN_REMAIN_S < exp ∧ token ≠ "" then .hit token exp else .miss

/-- A call of `token` of a store: at the store's lock, or at the thread it has started. -/
inductive Caller
  | idle
  | waiting (store : ℕ)
  | awaiting (store thread : ℕ)
  deriving DecidableEq

/-- A call of `_issue_locked` of a store. -/
inductive Worker
  | idle
  | waiting (store : ℕ)
  | missed (store : ℕ)
  | requested (store : ℕ)
  | answered (store : ℕ) (token : String) (exp : ℚ)
  | done (result : Option (String × ℚ))
  deriving DecidableEq

structure Issued where
  token : String
  cred : Cred
  expiresAt : ℚ
  deriving DecidableEq

/-- A request, with what had been issued before it. -/
structure Request where
  cred : Cred
  time : ℚ
  before : List Issued
  deriving DecidableEq

structure Returned where
  token : String
  cred : Cred
  time : ℚ
  deriving DecidableEq

structure World where
  now : ℚ
  cache : CacheFile
  memory : ℕ → Option (String × ℚ)
  locked : ℕ → Bool
  callers : ℕ → Caller
  flock : Option ℕ
  workers : ℕ → Worker
  issued : List Issued
  requests : List Request
  returned : List Returned

inductive Act
  | tick (dt : ℚ)
  | call (c store : ℕ)
  | enter (c thread : ℕ)
  | cancel (c : ℕ)
  | resume (c : ℕ)
  | lock (thread : ℕ) (opened : Bool)
  | request (thread : ℕ)
  | answer (thread : ℕ) (reply : Option (String × ℤ))
  | write (thread : ℕ) (written : Bool)
  deriving DecidableEq

namespace World

variable (cred : ℕ → Cred) (w : World)

/-- `self._token and self._exp > time.time() + 60`. -/
def live (store : ℕ) : Option String :=
  match w.memory store with
  | none => none
  | some (token, exp) => if token ≠ "" ∧ w.now + 60 < exp then some token else none

def setCaller (c : ℕ) (p : Caller) : World := { w with callers := Function.update w.callers c p }

def setWorker (thread : ℕ) (p : Worker) : World := { w with workers := Function.update w.workers thread p }

def setLocked (store : ℕ) (b : Bool) : World := { w with locked := Function.update w.locked store b }

def remember (store : ℕ) (token : String) (exp : ℚ) : World :=
  { w with memory := Function.update w.memory store (some (token, exp)) }

def give (store : ℕ) (token : String) : World := { w with returned := ⟨token, cred store, w.now⟩ :: w.returned }

def call (c store : ℕ) : Option World :=
  match w.callers c with
  | .idle =>
    match w.live store with
    | some token => some (w.give cred store token)
    | none => some (w.setCaller c (.waiting store))
  | _ => none

def enter (c thread : ℕ) : Option World :=
  match w.callers c with
  | .waiting store =>
    if w.locked store then none
    else
      match w.live store with
      | some token => some ((w.setCaller c .idle).give cred store token)
      | none =>
        match readCache w.now w.cache with
        | .raises => some (w.setCaller c .idle)
        | .hit token exp => some (((w.setCaller c .idle).remember store token exp).give cred store token)
        | .miss =>
          if w.workers thread = .idle then
            some (((w.setCaller c (.awaiting store thread)).setLocked store true).setWorker thread (.waiting store))
          else none
  | _ => none

def cancel (c : ℕ) : Option World :=
  match w.callers c with
  | .idle => none
  | .waiting _ => some (w.setCaller c .idle)
  | .awaiting store _ => some ((w.setCaller c .idle).setLocked store false)

def resume (c : ℕ) : Option World :=
  match w.callers c with
  | .awaiting store thread =>
    match w.workers thread with
    | .done (some (token, exp)) =>
      some ((((w.setCaller c .idle).setLocked store false).remember store token exp).give cred store token)
    | .done none => some ((w.setCaller c .idle).setLocked store false)
    | _ => none
  | _ => none

/-- The file lock is taken and the file read; what is not a miss releases it. -/
def lock (thread : ℕ) (opened : Bool) : Option World :=
  match w.workers thread with
  | .waiting store =>
    if opened = false then some (w.setWorker thread (.done none))
    else if w.flock ≠ none then none
    else
      match readCache w.now w.cache with
      | .raises => some (w.setWorker thread (.done none))
      | .hit token exp => some (w.setWorker thread (.done (some (token, exp))))
      | .miss => some { w.setWorker thread (.missed store) with flock := some thread }
  | _ => none

def request (thread : ℕ) : Option World :=
  match w.workers thread with
  | .missed store => some { w.setWorker thread (.requested store) with
      requests := ⟨cred store, w.now, w.issued⟩ :: w.requests }
  | _ => none

/-- The answer is read: `access_token` and `expires_in`, or an exception. -/
def answer (thread : ℕ) (reply : Option (String × ℤ)) : Option World :=
  match w.workers thread with
  | .requested store =>
    match reply with
    | none => some { w.setWorker thread (.done none) with flock := none }
    | some (token, expiresIn) =>
      let exp := w.now + expiresIn - 120
      some { w.setWorker thread (.answered store token exp) with issued := ⟨token, cred store, exp⟩ :: w.issued }
  | _ => none

def write (thread : ℕ) (written : Bool) : Option World :=
  match w.workers thread with
  | .answered _ token exp =>
    if written then some { w.setWorker thread (.done (some (token, exp))) with cache := .entry token exp, flock := none }
    else some { w.setWorker thread (.done none) with flock := none }
  | _ => none

def step : Act → Option World
  | .tick dt => if 0 ≤ dt then some { w with now := w.now + dt } else none
  | .call c store => w.call cred c store
  | .enter c thread => w.enter cred c thread
  | .cancel c => w.cancel c
  | .resume c => w.resume cred c
  | .lock thread opened => w.lock thread opened
  | .request thread => w.request cred thread
  | .answer thread reply => w.answer cred thread reply
  | .write thread written => w.write thread written

end World

/-- What the store is for. -/
structure Sound (w : World) : Prop where
  once : ∀ r ∈ w.requests, ∀ t ∈ r.before, t.cred = r.cred → t.expiresAt ≤ r.time + MIN_REMAIN_S
  own : ∀ r ∈ w.returned, ∃ t ∈ w.issued, t.token = r.token ∧ t.cred = r.cred ∧ r.time < t.expiresAt

/-- What a thread has to write, and what it has come to. -/
def Worker.answer : Worker → Option (String × ℚ)
  | .answered _ token exp => some (token, exp)
  | _ => none

def Worker.result : Worker → Option (String × ℚ)
  | .done result => result
  | _ => none

def Caller.thread : Caller → Option ℕ
  | .awaiting _ thread => some thread
  | _ => none

/-- A token that is good for long is written, a caller is resumed while its token is valid, and no token is empty. -/
def Meets (w : World) : Act → Prop
  | .write thread written => written = true ∨ ∀ a ∈ (w.workers thread).answer, a.2 ≤ w.now + MIN_REMAIN_S
  | .resume c => ∀ thread ∈ (w.callers c).thread, ∀ r ∈ (w.workers thread).result, w.now < r.2
  | .answer _ reply => ∀ r ∈ reply, r.1 ≠ ""
  | _ => True

instance (w : World) : ∀ a, Decidable (Meets w a)
  | .write _ written => inferInstanceAs (Decidable (written = true ∨ ∀ a ∈ _, _))
  | .resume c => inferInstanceAs (Decidable (∀ thread ∈ (w.callers c).thread, ∀ r ∈ (w.workers thread).result, _))
  | .answer _ reply => inferInstanceAs (Decidable (∀ r ∈ reply, r.1 ≠ ""))
  | .tick _ | .call _ _ | .enter _ _ | .cancel _ | .lock _ _ | .request _ => .isTrue trivial

/-- Nobody has called yet. What the file holds was issued for `k`, and it is the token that is valid longest or makes
its readers raise. -/
structure Start (k : Cred) (w : World) : Prop where
  memory : ∀ i, w.memory i = none
  workers : ∀ v, w.workers v = .idle
  logs : w.requests = [] ∧ w.returned = []
  entry : ∀ token exp, readCache w.now w.cache = .hit token exp → ⟨token, k, exp⟩ ∈ w.issued
  kept : ∀ t ∈ w.issued, w.now + MIN_REMAIN_S < t.expiresAt → w.cache = .malformed ∨
    ∃ token exp, w.cache = .entry token exp ∧ token ≠ "" ∧ t.expiresAt ≤ exp

/-! ## The invariant -/

/-- The thread is past its look at the file and holds the file lock. -/
def Worker.Holds : Worker → Prop
  | .missed _ | .requested _ | .answered _ _ _ => True
  | .idle | .waiting _ | .done _ => False

/-- A token of this validity can be read from the file, or nobody gets past it. -/
def Kept (w : World) (exp : ℚ) : Prop := w.cache = .malformed ∨ ∃ token e, w.cache = .entry token e ∧
    token ≠ "" ∧ exp ≤ e

structure Inv (k : Cred) (w : World) : Prop extends Sound w where
  memory : ∀ i token exp, w.memory i = some (token, exp) → ⟨token, k, exp⟩ ∈ w.issued
  entry : ∀ token exp, readCache w.now w.cache = .hit token exp → ⟨token, k, exp⟩ ∈ w.issued
  result : ∀ v token exp, w.workers v = .done (some (token, exp)) → ⟨token, k, exp⟩ ∈ w.issued
  answer : ∀ v i token exp, w.workers v = .answered i token exp → ⟨token, k, exp⟩ ∈ w.issued ∧ token ≠ ""
  holder : ∀ v, (w.workers v).Holds → w.flock = some v
  stale : ∀ v, (w.workers v).Holds → readCache w.now w.cache = .miss
  covered : ∀ t ∈ w.issued, t.expiresAt ≤ w.now + MIN_REMAIN_S ∨ Kept w t.expiresAt ∨
    ∃ v i token exp, w.workers v = .answered i token exp ∧ t.expiresAt ≤ exp

theorem readCache_hit {now exp : ℚ} {cache : CacheFile} {token : String} (h : readCache now cache = .hit token exp) :
    cache = .entry token exp ∧ now + MIN_REMAIN_S < exp ∧ token ≠ "" := by
  cases cache with
  | unreadable => cases h
  | malformed => cases h
  | entry token' exp' =>
    simp only [readCache] at h
    split at h
    · rename_i hlive
      cases h
      exact ⟨rfl, hlive⟩
    · cases h

/-- What is no longer read is never read again. -/
theorem readCache_later {now now' : ℚ} (hle : now ≤ now') (cache : CacheFile) :
    (readCache now cache = .miss → readCache now' cache = .miss) ∧
      ∀ token exp, readCache now' cache = .hit token exp → readCache now cache = .hit token exp := by
  cases cache with
  | unreadable => exact ⟨id, fun _ _ h => h⟩
  | malformed => exact ⟨id, fun _ _ h => h⟩
  | entry token exp =>
    simp only [readCache]
    constructor
    · intro h
      split at h
      · cases h
      · rename_i hlive
        rw [if_neg]
        exact fun hl => hlive ⟨by linarith [hl.1], hl.2⟩
    · intro token' exp' h
      split at h
      · rename_i hlive
        cases h
        rw [if_pos]
        exact ⟨by linarith [hlive.1], hlive.2⟩
      · cases h

/-- The file is read, or what it keeps is not good for long. -/
theorem Kept.expires {w : World} {exp : ℚ} (h : Kept w exp) (hmiss : readCache w.now w.cache = .miss) :
    exp ≤ w.now + MIN_REMAIN_S := by
  rcases h with hcache | ⟨token, e, hcache, htoken, hle⟩
  · rw [hcache] at hmiss
    cases hmiss
  · rw [hcache, readCache] at hmiss
    split at hmiss
    · cases hmiss
    · rename_i hlive
      exact hle.trans (not_lt.1 fun hlt => hlive ⟨hlt, htoken⟩)

namespace Inv

variable {cred : ℕ → Cred} {k : Cred} {w : World}

theorem start (h : Start k w) : Inv k w := by
  have hidle : ∀ v, ¬(w.workers v).Holds := fun v hv => by
    rw [h.workers v] at hv
    exact hv
  refine ⟨⟨fun r hr => ?_, fun r hr => ?_⟩, fun i token exp hm => ?_, h.entry, fun v token exp hv => ?_,
    fun v i token exp hv => ?_,
    fun v hv => absurd hv (hidle v), fun v hv => absurd hv (hidle v), fun t ht => ?_⟩
  · rw [h.logs.1] at hr
    cases hr
  · rw [h.logs.2] at hr
    cases hr
  · rw [h.memory i] at hm
    cases hm
  · rw [h.workers v] at hv
    cases hv
  · rw [h.workers v] at hv
    cases hv
  · by_cases hexp : t.expiresAt ≤ w.now + MIN_REMAIN_S
    · exact .inl hexp
    · exact .inr (.inl (h.kept t ht (not_le.1 hexp)))

/-- No step is about the callers and the locks of their stores alone. -/
theorem callers (h : Inv k w) (callers : ℕ → Caller) (locked : ℕ → Bool) :
    Inv k { w with callers := callers, locked := locked } :=
  ⟨⟨h.once, h.own⟩, h.memory, h.entry, h.result, h.answer, h.holder, h.stale, h.covered⟩

theorem remember (h : Inv k w) {token : String} {exp : ℚ} (hissued : ⟨token, k, exp⟩ ∈ w.issued) (store : ℕ) :
    Inv k (w.remember store token exp) := by
  refine ⟨⟨h.once, h.own⟩, fun i token' exp' hm => ?_, h.entry, h.result, h.answer, h.holder, h.stale, h.covered⟩
  by_cases hi : i = store
  · subst hi
    simp only [World.remember, Function.update_self, Option.some.injEq, Prod.mk.injEq] at hm
    rw [← hm.1, ← hm.2]
    exact hissued
  · simp only [World.remember, Function.update_of_ne hi] at hm
    exact h.memory i token' exp' hm

theorem give (h : Inv k w) {token : String} {exp : ℚ} (hissued : ⟨token, k, exp⟩ ∈ w.issued) (hvalid : w.now < exp)
    {store : ℕ} (hcred : cred store = k) :
    Inv k (w.give cred store token) := by
  refine ⟨⟨h.once, fun r hr => ?_⟩, h.memory, h.entry, h.result, h.answer, h.holder, h.stale, h.covered⟩
  rcases List.mem_cons.1 hr with rfl | hr
  · exact ⟨_, hissued, rfl, hcred.symm, hvalid⟩
  · exact h.own r hr

/-- A thread that does not hold the lock comes to its end. -/
theorem finish (h : Inv k w) {v : ℕ} (hfree : ¬(w.workers v).Holds) {p : Worker} (hp : ¬p.Holds)
    (hresult : ∀ token exp, p = .done (some (token, exp)) → ⟨token, k, exp⟩ ∈ w.issued) : Inv k (w.setWorker v p) := by
  have hother : ∀ {u q}, (w.setWorker v p).workers u = q → q.Holds → u ≠ v ∧ w.workers u = q := by
    rintro u q hu hq
    by_cases huv : u = v
    · subst huv
      simp only [World.setWorker, Function.update_self] at hu
      subst hu
      exact absurd hq hp
    · simp only [World.setWorker, Function.update_of_ne huv] at hu
      exact ⟨huv, hu⟩
  refine ⟨⟨h.once, h.own⟩, h.memory, h.entry, fun u token exp hu => ?_, fun u i token exp hu => ?_, fun u hu => ?_,
    fun u hu => ?_, fun t ht => ?_⟩
  · by_cases huv : u = v
    · subst huv
      simp only [World.setWorker, Function.update_self] at hu
      exact hresult token exp hu
    · simp only [World.setWorker, Function.update_of_ne huv] at hu
      exact h.result u token exp hu
  · exact h.answer u i token exp (hother hu trivial).2
  · have := (hother rfl hu).2
    exact h.holder u (by rwa [this])
  · have := (hother rfl hu).2
    exact h.stale u (by rwa [this])
  · rcases h.covered t ht with hexp | hkept | ⟨u, i, token, exp, hu, hle⟩
    · exact .inl hexp
    · exact .inr (.inl hkept)
    · refine .inr (.inr ⟨u, i, token, exp, ?_, hle⟩)
      have huv : u ≠ v := by
        rintro rfl
        rw [hu] at hfree
        exact hfree trivial
      simp only [World.setWorker, Function.update_of_ne huv]
      exact hu

/-- A thread that holds the lock is alone. -/
theorem alone (h : Inv k w) {v : ℕ} {p : Worker} (hv : w.workers v = p) (hp : p.Holds) :
    (w.workers v).Holds ∧ ∀ u, u ≠ v → ¬(w.workers u).Holds := by
  have hold : (w.workers v).Holds := by rwa [hv]
  exact ⟨hold, fun u huv hu => huv (Option.some.inj ((h.holder u hu).symm.trans (h.holder v hold)))⟩

/-- While no other thread holds the lock, a thread takes it, goes on or releases it. -/
theorem move (h : Inv k w) {v : ℕ} (hothers : ∀ u, u ≠ v → ¬(w.workers u).Holds)
    {p : Worker} {cache : CacheFile} {flock : Option ℕ} {issued : List Issued}
    (hissued : w.issued ⊆ issued) (hp : p.Holds → flock = some v ∧ readCache w.now cache = .miss)
    (hentry : ∀ token exp, readCache w.now cache = .hit token exp → ⟨token, k, exp⟩ ∈ issued)
    (hresult : ∀ token exp, p = .done (some (token, exp)) → ⟨token, k, exp⟩ ∈ issued)
    (hanswer : ∀ i token exp, p = .answered i token exp → ⟨token, k, exp⟩ ∈ issued ∧ token ≠ "")
    (hcovered : ∀ t ∈ issued, t.expiresAt ≤ w.now + MIN_REMAIN_S ∨ Kept { w with cache := cache } t.expiresAt ∨
      ∃ i token exp, p = .answered i token exp ∧ t.expiresAt ≤ exp) :
    Inv k { w.setWorker v p with cache := cache, flock := flock, issued := issued } := by
  have hself : (w.setWorker v p).workers v = p := Function.update_self ..
  have hne : ∀ u, u ≠ v → (w.setWorker v p).workers u = w.workers u := fun u huv => Function.update_of_ne huv ..
  have hholds : ∀ u, ((w.setWorker v p).workers u).Holds → u = v ∧ p.Holds := by
    intro u hu
    by_cases huv : u = v
    · subst huv
      exact ⟨rfl, by rwa [hself] at hu⟩
    · rw [hne u huv] at hu
      exact absurd hu (hothers u huv)
  refine ⟨⟨h.once, fun r hr => ?_⟩, fun i token exp hm => hissued (h.memory i token exp hm), hentry,
    fun u token exp hu => ?_, fun u i token exp hu => ?_,
    fun u hu => ?_, fun u hu => ?_, fun t ht => ?_⟩
  · obtain ⟨t, ht, htoken⟩ := h.own r hr
    exact ⟨t, hissued ht, htoken⟩
  · by_cases huv : u = v
    · subst huv
      exact hresult token exp (hself.symm.trans hu)
    · exact hissued (h.result u token exp ((hne u huv).symm.trans hu))
  · have hu' : (w.setWorker v p).workers u = .answered i token exp := hu
    obtain ⟨rfl, -⟩ := hholds u (by rw [hu']; trivial)
    exact hanswer i token exp (hself.symm.trans hu)
  · obtain ⟨rfl, hold⟩ := hholds u hu
    exact (hp hold).1
  · exact (hp (hholds u hu).2).2
  · rcases hcovered t ht with hexp | hkept | ⟨i, token, exp, rfl, hle⟩
    · exact .inl hexp
    · exact .inr (.inl hkept)
    · exact .inr (.inr ⟨v, i, token, exp, hself, hle⟩)

/-- Where nothing is being written, what is good for long is kept. -/
theorem kept (h : Inv k w) {v : ℕ} (hothers : ∀ u, u ≠ v → ¬(w.workers u).Holds) (hv : (w.workers v).answer = none)
    {t : Issued} (ht : t ∈ w.issued) :
    t.expiresAt ≤ w.now + MIN_REMAIN_S ∨ Kept w t.expiresAt := by
  rcases h.covered t ht with hexp | hkept | ⟨u, i, token, exp, hu, -⟩
  · exact .inl hexp
  · exact .inr hkept
  · by_cases huv : u = v
    · subst huv
      rw [hu] at hv
      cases hv
    · refine absurd ?_ (hothers u huv)
      rw [hu]
      trivial

/-- What has missed finds nothing that is good for long. -/
theorem missed (h : Inv k w) {v : ℕ} (hv : (w.workers v).Holds) (hanswer : (w.workers v).answer = none)
    {t : Issued} (ht : t ∈ w.issued) :
    t.expiresAt ≤ w.now + MIN_REMAIN_S := by
  rcases h.kept (h.alone rfl hv).2 hanswer ht with hexp | hkept
  · exact hexp
  · exact hkept.expires (h.stale v hv)

theorem tick (h : Inv k w) {dt : ℚ} (hdt : 0 ≤ dt) : Inv k { w with now := w.now + dt } := by
  have hle : w.now ≤ w.now + dt := le_add_of_nonneg_right hdt
  refine ⟨⟨h.once, h.own⟩, h.memory, fun token exp hhit =>
    h.entry token exp ((readCache_later hle w.cache).2 token exp hhit), h.result, h.answer, h.holder,
    fun v hv => (readCache_later hle w.cache).1 (h.stale v hv), fun t ht => ?_⟩
  rcases h.covered t ht with hexp | hkept | hwriting
  · exact .inl (show t.expiresAt ≤ w.now + dt + MIN_REMAIN_S by linarith)
  · exact .inr (.inl hkept)
  · exact .inr (.inr hwriting)

theorem live (h : Inv k w) {store : ℕ} {token : String} (hlive : w.live store = some token) :
    ∃ exp, ⟨token, k, exp⟩ ∈ w.issued ∧ w.now < exp := by
  unfold World.live at hlive
  split at hlive
  · cases hlive
  · rename_i token' exp hm
    split at hlive
    · rename_i hvalid
      cases hlive
      exact ⟨exp, h.memory store token exp hm, by linarith [hvalid.2]⟩
    · cases hlive

theorem call (h : Inv k w) (hone : ∀ i, cred i = k) {c store : ℕ} {w' : World} (hst : w.call cred c store = some w') :
    Inv k w' := by
  unfold World.call at hst
  split at hst
  · split at hst
    · rename_i token hlive
      obtain ⟨exp, hissued, hvalid⟩ := h.live hlive
      cases hst
      exact h.give hissued hvalid (hone store)
    · cases hst
      exact h.callers _ _
  · cases hst

theorem enter (h : Inv k w) (hone : ∀ i, cred i = k) {c v : ℕ} {w' : World} (hst : w.enter cred c v = some w') :
    Inv k w' := by
  unfold World.enter at hst
  split at hst
  · rename_i store _
    obtain ⟨-, hst⟩ := Option.ite_none_left_eq_some.1 hst
    have hentered : Inv k (w.setCaller c .idle) := h.callers _ _
    split at hst
    · rename_i token hlive
      obtain ⟨exp, hissued, hvalid⟩ := h.live hlive
      cases hst
      exact hentered.give hissued hvalid (hone store)
    · split at hst
      · cases hst
        exact hentered
      · rename_i token exp hhit
        cases hst
        have hissued := h.entry token exp hhit
        have hvalid : w.now < exp := by
          have := (readCache_hit hhit).2.1
          have h600 : MIN_REMAIN_S = 600 := rfl
          linarith
        exact (hentered.remember hissued store).give hissued hvalid (hone store)
      · obtain ⟨hidle, hst⟩ := Option.ite_none_right_eq_some.1 hst
        cases hst
        have hstarted : Inv k ((w.setCaller c (.awaiting store v)).setLocked store true) := h.callers _ _
        refine hstarted.finish ?_ not_false fun _ _ heq => by cases heq
        show ¬(w.workers v).Holds
        rw [hidle]
        exact not_false
  · cases hst

theorem cancel (h : Inv k w) {c : ℕ} {w' : World} (hst : w.cancel c = some w') : Inv k w' := by
  unfold World.cancel at hst
  split at hst
  · cases hst
  · cases hst
    exact h.callers _ _
  · cases hst
    exact h.callers _ _

theorem resume (h : Inv k w) (hone : ∀ i, cred i = k) {c : ℕ} (hmeets : Meets w (.resume c))
    {w' : World} (hst : w.resume cred c = some w') : Inv k w' := by
  unfold World.resume at hst
  split at hst
  · rename_i store v hc
    have hended : Inv k ((w.setCaller c .idle).setLocked store false) := h.callers _ _
    split at hst
    · rename_i token exp hv
      cases hst
      have hissued := h.result v token exp hv
      have hvalid : w.now < exp := hmeets v (by rw [hc]; rfl) (token, exp) (by rw [hv]; rfl)
      exact (hended.remember hissued store).give hissued hvalid (hone store)
    · cases hst
      exact hended
    · cases hst
  · cases hst

theorem lock (h : Inv k w) {v : ℕ} {opened : Bool} {w' : World} (hst : w.lock v opened = some w') : Inv k w' := by
  unfold World.lock at hst
  split at hst
  · rename_i store hv
    have hfree : ¬(w.workers v).Holds := by
      rw [hv]
      exact not_false
    split at hst
    · cases hst
      exact h.finish hfree not_false fun _ _ heq => by cases heq
    · obtain ⟨hflock, hst⟩ := Option.ite_none_left_eq_some.1 hst
      rw [not_not] at hflock
      have hothers : ∀ u, u ≠ v → ¬(w.workers u).Holds := fun u _ hu => by
        rw [h.holder u hu] at hflock
        cases hflock
      split at hst
      · cases hst
        exact h.finish hfree not_false fun _ _ heq => by cases heq
      · rename_i token exp hhit
        cases hst
        refine h.finish hfree not_false fun token' exp' heq => ?_
        cases heq
        exact h.entry token exp hhit
      · rename_i hmiss
        cases hst
        refine h.move hothers (fun _ ht => ht) (fun _ => ⟨rfl, hmiss⟩) h.entry (fun _ _ heq => by cases heq)
          (fun _ _ _ heq => by cases heq) fun t ht => ?_
        exact (h.kept hothers (by rw [hv]; rfl) ht).imp_right .inl
  · cases hst

theorem request (h : Inv k w) {v : ℕ} {w' : World} (hst : w.request cred v = some w') : Inv k w' := by
  unfold World.request at hst
  split at hst
  · rename_i store hv
    cases hst
    obtain ⟨hold, hothers⟩ := h.alone hv trivial
    have hanswer : (w.workers v).answer = none := by
      rw [hv]
      rfl
    have hmoved : Inv k (w.setWorker v (.requested store)) :=
      h.move hothers (fun _ ht => ht) (fun _ => ⟨h.holder v hold, h.stale v hold⟩) h.entry (fun _ _ heq => by cases heq)
        (fun _ _ _ heq => by cases heq) fun t ht => .inl (h.missed hold hanswer ht)
    refine ⟨⟨fun r hr t ht _ => ?_, hmoved.own⟩, hmoved.memory, hmoved.entry, hmoved.result, hmoved.answer,
      hmoved.holder, hmoved.stale, hmoved.covered⟩
    rcases List.mem_cons.1 hr with rfl | hr
    · exact h.missed hold hanswer ht
    · exact h.once r hr t ht ‹_›
  · cases hst

theorem answered (h : Inv k w) (hone : ∀ i, cred i = k)
    {v : ℕ} {reply : Option (String × ℤ)} (hmeets : Meets w (.answer v reply)) {w' : World}
    (hst : w.answer cred v reply = some w') : Inv k w' := by
  unfold World.answer at hst
  split at hst
  · rename_i store hv
    obtain ⟨hold, hothers⟩ := h.alone hv trivial
    have hexpired : ∀ t ∈ w.issued, t.expiresAt ≤ w.now + MIN_REMAIN_S := fun t ht => h.missed hold (by rw [hv]; rfl) ht
    split at hst
    · cases hst
      exact h.move hothers (fun _ ht => ht) (fun hp => hp.elim) h.entry (fun _ _ heq => by cases heq)
        (fun _ _ _ heq => by cases heq)
        fun t ht => .inl (hexpired t ht)
    · rename_i token expiresIn
      cases hst
      have htoken : token ≠ "" := hmeets (token, expiresIn) rfl
      refine h.move hothers (fun _ ht => List.mem_cons_of_mem _ ht) (fun _ => ⟨h.holder v hold, h.stale v hold⟩)
        (fun token exp hhit => List.mem_cons_of_mem _ (h.entry token exp hhit)) (fun _ _ heq => by cases heq)
        (fun i token' exp heq => ?_) fun t ht => ?_
      · cases heq
        rw [hone store]
        exact ⟨List.mem_cons_self, htoken⟩
      · rcases List.mem_cons.1 ht with rfl | ht
        · exact .inr (.inr ⟨store, token, _, rfl, le_refl _⟩)
        · exact .inl (hexpired t ht)
  · cases hst

theorem write (h : Inv k w) {v : ℕ} {written : Bool} (hmeets : Meets w (.write v written))
    {w' : World} (hst : w.write v written = some w') : Inv k w' := by
  unfold World.write at hst
  split at hst
  · rename_i store token exp hv
    obtain ⟨hold, hothers⟩ := h.alone hv trivial
    obtain ⟨hissued, htoken⟩ := h.answer v store token exp hv
    -- the others are expired, or were written before, or are this one
    have hcovered : ∀ t ∈ w.issued, t.expiresAt ≤ w.now + MIN_REMAIN_S ∨ t.expiresAt ≤ exp := by
      intro t ht
      rcases h.covered t ht with hexp | hkept | ⟨u, i, token', exp', hu, hle⟩
      · exact .inl hexp
      · exact .inl (hkept.expires (h.stale v hold))
      · obtain rfl : u = v := by
          by_contra huv
          exact hothers u huv (by rw [hu]; trivial)
        cases hv.symm.trans hu
        exact .inr hle
    split at hst
    · cases hst
      refine h.move hothers (fun _ ht => ht) (fun hp => hp.elim) (fun token' exp' hhit => ?_)
        (fun token' exp' heq => ?_) (fun _ _ _ heq => by cases heq)
        fun t ht => ?_
      · obtain ⟨heq, -⟩ := readCache_hit hhit
        cases heq
        exact hissued
      · cases heq
        exact hissued
      · exact (hcovered t ht).imp_right fun hle => .inl (.inr ⟨token, exp, rfl, htoken, hle⟩)
    · rename_i hfailed
      cases hst
      have hexp : exp ≤ w.now + MIN_REMAIN_S := by
        rcases hmeets with hwritten | hexp
        · exact absurd hwritten hfailed
        · exact hexp (token, exp) (by rw [hv]; rfl)
      refine h.move hothers (fun _ ht => ht) (fun hp => hp.elim) h.entry (fun _ _ heq => by cases heq) (fun _ _ _ heq => by cases heq) fun t ht => ?_
      exact .inl ((hcovered t ht).elim id fun hle => hle.trans hexp)
  · cases hst

theorem step (h : Inv k w) (hone : ∀ i, cred i = k) {a : Act} (hmeets : Meets w a)
    {w' : World} (hst : w.step cred a = some w') : Inv k w' := by
  cases a with
  | tick dt =>
    obtain ⟨hdt, hst⟩ := Option.ite_none_right_eq_some.1 hst
    cases hst
    exact h.tick hdt
  | call => exact h.call hone hst
  | enter => exact h.enter hone hst
  | cancel => exact h.cancel hst
  | resume => exact h.resume hone hmeets hst
  | lock => exact h.lock hst
  | request => exact h.request hst
  | answer => exact h.answered hone hmeets hst
  | write => exact h.write hmeets hst

end Inv

/-- **One token at a time, and each caller's own.** The stores that share the path have one app key and one base URL,
the file starts with what was issued for them, and every step meets `Meets`: then nobody asks for a token while one that
was issued is good for more than ten minutes, and what is returned was issued for its caller and is valid. -/
theorem issued_once {cred : ℕ → Cred} {k : Cred} (hone : ∀ i, cred i = k)
    {w₀ w : World} {as : List Act} (hstart : Start k w₀)
    (hrun : Lts.Run (World.step cred) Meets w₀ as w) : Sound w :=
  (hrun.invariant (Inv.start hstart) fun _ _ _ h hmeets hst => h.step hone hmeets hst).toSound

/-- Processes that have just started, on a path where no file is. -/
def World.fresh : World := ⟨0, .unreadable, fun _ => none, fun _ => false, fun _ => .idle, none,
    fun _ => .idle, [], [], []⟩

theorem start_fresh (k : Cred) : Start k .fresh :=
  ⟨fun _ => rfl, fun _ => rfl, ⟨rfl, rfl⟩, fun _ _ hhit => by (cases hhit), fun _ ht => by (cases ht)⟩

/-- A caller is cancelled while its thread waits for the answer; the next one, and one of another process, get that
token. -/
theorem issued_once_for_three :
    ∃ w, Lts.Run (World.step fun _ => ⟨"key", "base"⟩) Meets .fresh
      [.call 0 0, .call 1 0, .enter 0 0, .lock 0 true, .request 0, .cancel 0, .enter 1 1,
        .answer 0 (some ("token", 86400)), .tick 1, .write 0 true,
        .lock 1 true, .resume 1, .call 2 1, .enter 2 2] w ∧ Sound w ∧ w.requests.length = 1 ∧
          w.returned.map (·.token) = ["token", "token"] := by
  have hex : ∃ w, Lts.Run (World.step fun _ => ⟨"key", "base"⟩) Meets .fresh
      [.call 0 0, .call 1 0, .enter 0 0, .lock 0 true, .request 0, .cancel 0, .enter 1 1,
        .answer 0 (some ("token", 86400)), .tick 1, .write 0 true,
        .lock 1 true, .resume 1, .call 2 1, .enter 2 2] w ∧ w.requests.length = 1 ∧ w.returned.map (·.token) = ["token", "token"] :=
    Lts.exists_run (by decide +kernel)
  obtain ⟨w, hrun, hrequests, hreturned⟩ := hex
  exact ⟨w, hrun, issued_once (fun _ => rfl) (start_fresh ⟨"key", "base"⟩) hrun, hrequests, hreturned⟩

/-- The disk is full when the token is written: the next caller asks for another one in the same second. -/
theorem issued_twice :
    ∃ w, Lts.Run (World.step fun _ => ⟨"key", "base"⟩) Lts.anyStep .fresh
      [.call 0 0, .enter 0 0, .lock 0 true, .request 0, .answer 0 (some ("token", 86400)), .write 0 false, .resume 0,
        .call 0 0, .enter 0 1, .lock 1 true,
        .request 1] w ∧ ¬Sound w := by
  have hex : ∃ w, Lts.Run (World.step fun _ => ⟨"key", "base"⟩) Lts.anyStep .fresh
      [.call 0 0, .enter 0 0, .lock 0 true, .request 0, .answer 0 (some ("token", 86400)), .write 0 false, .resume 0,
        .call 0 0, .enter 0 1, .lock 1 true,
        .request 1] w ∧ ∃ r ∈ w.requests, ∃ t ∈ r.before, t.cred = r.cred ∧ ¬t.expiresAt ≤ r.time + MIN_REMAIN_S := Lts.exists_run (by decide +kernel)
  obtain ⟨w, hrun, r, hr, t, ht, hcred, hlong⟩ := hex
  exact ⟨w, hrun, fun h => hlong (h.once r hr t ht hcred)⟩

/-- Two app keys with one path: the second reads the token of the first. -/
theorem anothers_token :
    ∃ w, Lts.Run (World.step fun i => ⟨if i = 0 then "key" else "other key", "base"⟩) Lts.anyStep .fresh
      [.call 0 0, .enter 0 0, .lock 0 true, .request 0, .answer 0 (some ("token", 86400)), .write 0 true, .resume 0,
        .call 1 1, .enter 1 1] w ∧ ¬Sound w := by
  have hex : ∃ w, Lts.Run (World.step fun i => ⟨if i = 0 then "key" else "other key", "base"⟩) Lts.anyStep .fresh
      [.call 0 0, .enter 0 0, .lock 0 true, .request 0, .answer 0 (some ("token", 86400)), .write 0 true, .resume 0,
        .call 1 1, .enter 1 1] w ∧
      ∃ r ∈ w.returned, ∀ t ∈ w.issued, t.cred ≠ r.cred := Lts.exists_run (by decide +kernel)
  obtain ⟨w, hrun, r, hr, hother⟩ := hex
  refine ⟨w, hrun, fun h => ?_⟩
  obtain ⟨t, ht, -, hcred, -⟩ := h.own r hr
  exact hother t ht hcred

end Kis.Token
