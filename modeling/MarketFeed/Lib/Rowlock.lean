import Mathlib.Logic.Function.Basic
import MarketFeed.Lib.Upsert
/-!
# A keyed table under concurrent transactions

Sessions write the rows of one table, each in a transaction of its own. A version that is not committed yet is
visible to the session that has written it only, and until that session commits or aborts nobody else writes the
row: `pending` has at most one version of a row, with its session. A statement reads what is committed at that
moment and what its own session has written (`view`).

`Serial` is what comes of it: the committed rows are those of the committed sessions' statements, one session
after the other in the order of their commits, whatever the order in which the statements were executed.
-/

namespace Rowlock

open Keyed

variable {S K V : Type}

structure Table (S K V : Type) where
  committed : K → Option V
  pending : K → Option (S × V)

def Table.start (c : K → Option V) : Table S K V := ⟨c, fun _ => none⟩

namespace Table

variable {t t' : Table S K V} {s : S} {k : K} {r v : V}

section

variable [DecidableEq S] (t : Table S K V) (s : S)

/-- The version the session itself has written, else the committed one. -/
def view (k : K) : Option V :=
  match t.pending k with
  | some (s', v) => if s' = s then some v else t.committed k
  | none => t.committed k

/-- No other session has written the row. -/
def free (k : K) : Bool := (t.pending k).all (·.1 = s)

/-- The session's versions are gone. -/
def abort : Table S K V := { t with pending := fun k => (t.pending k).filter (·.1 ≠ s) }

def commit : Table S K V := { t.abort s with committed := t.view s }

variable {t s}

theorem free_iff : t.free s k = true ↔ ∀ s' v, t.pending k = some (s', v) → s' = s := by
  cases h : t.pending k with
  | none => simp [free, h]
  | some p =>
    rw [free, h]
    constructor
    · rintro hs s' v ⟨⟩
      simpa using hs
    · exact fun hs => by simpa using hs p.1 p.2 rfl

theorem view_of_pending (h : t.pending k = some (s, v)) : t.view s k = some v := by simp [view, h]

theorem view_of_not_pending (h : ∀ v, t.pending k ≠ some (s, v)) : t.view s k = t.committed k := by
  unfold view
  cases hp : t.pending k with
  | none => rfl
  | some p =>
    have hs : p.1 ≠ s := by
      rintro rfl
      exact h p.2 hp
    simp [hs]

@[simp] theorem commit_committed : (t.commit s).committed = t.view s := rfl

@[simp] theorem commit_pending : (t.commit s).pending = (t.abort s).pending := rfl

@[simp] theorem abort_committed : (t.abort s).committed = t.committed := rfl

theorem abort_pending {s' : S} : (t.abort s).pending k = some (s', v) ↔ t.pending k = some (s', v) ∧ s' ≠ s := by
  simp [abort, Option.filter_eq_some_iff]

/-- A session that has written nothing reads what is committed, and its commit does nothing. -/
theorem view_eq_committed (h : ∀ k v, t.pending k ≠ some (s, v)) : t.view s = t.committed :=
  funext fun k => view_of_not_pending (h k)

theorem commit_eq_abort (h : ∀ k v, t.pending k ≠ some (s, v)) : t.commit s = t.abort s := by
  rw [commit, view_eq_committed h]
  rfl

/-- What a commit leaves as it was: every row another session has written. -/
theorem commit_committed_of_other {s' : S} (h : t.pending k = some (s', v)) (hs : s' ≠ s) :
    (t.commit s).committed k = t.committed k := by
  rw [commit_committed, view_of_not_pending]
  rw [h]
  simp [hs]

end

section

variable [DecidableEq K]

def set (t : Table S K V) (s : S) (k : K) (v : V) : Table S K V :=
  { t with pending := Function.update t.pending k (some (s, v)) }

@[simp] theorem set_committed : (t.set s k v).committed = t.committed := rfl

theorem set_pending_self : (t.set s k v).pending k = some (s, v) := by simp [set]

theorem set_pending_of_ne {k' : K} (h : k' ≠ k) : (t.set s k v).pending k' = t.pending k' := by simp [set, h]

end

section

variable [DecidableEq S] [DecidableEq K] (t : Table S K V) (s : S) (key : V → K)

/-- `INSERT … ON CONFLICT (key) DO UPDATE`; `none` while it waits for another session. -/
def upsert (merge : V → V → V) (r : V) : Option (Table S K V) :=
  if t.free s (key r) then (put merge (t.view s (key r)) r).map (t.set s (key r)) else none

/-- `INSERT … ON CONFLICT (key) DO NOTHING`, with whether the row has been inserted. -/
def claim (r : V) : Option (Table S K V × Bool) :=
  if t.free s (key r) then
    match t.view s (key r) with
    | some _ => some (t, false)
    | none => some (t.set s (key r) r, true)
  else none

variable {t s key}

theorem upsert_eq_some {merge : V → V → V} (h : t.upsert s key merge r = some t') :
    t.free s (key r) = true ∧ ∃ v, put merge (t.view s (key r)) r = some v ∧ t' = t.set s (key r) v := by
  unfold upsert at h
  split at h
  case isTrue hf =>
    obtain ⟨v, hv, rfl⟩ := Option.map_eq_some_iff.1 h
    exact ⟨hf, v, hv, rfl⟩
  case isFalse => cases h

theorem view_set : (t.set s k v).view s = Function.update (t.view s) k (some v) := by
  funext k'
  by_cases hk : k' = k
  · subst hk
    rw [Function.update_self, view_of_pending set_pending_self]
  · rw [Function.update_of_ne hk, view, set_pending_of_ne hk]
    rfl

/-- A statement on a row of its own session or of nobody goes through. -/
theorem upsert_of_free {merge : V → V → V} (h : t.free s (key r) = true)
    (hv : put merge (t.view s (key r)) r = some v) :
    t.upsert s key merge r = some (t.set s (key r) v) := by
  rw [upsert, if_pos h, hv, Option.map_some]

theorem claim_of_free (h : t.free s (key r) = true) (hv : t.view s (key r) = none) :
    t.claim s key r = some (t.set s (key r) r, true) := by
  rw [claim, if_pos h, hv]

theorem claim_eq_some {b : Bool} (h : t.claim s key r = some (t', b)) :
    t.free s (key r) = true ∧
      ((b = false ∧ t' = t ∧ (t.view s (key r)).isSome) ∨
      (b = true ∧ t' = t.set s (key r) r ∧ t.view s (key r) = none)) := by
  unfold claim at h
  split at h
  case isTrue hf =>
    refine ⟨hf, ?_⟩
    split at h
    case h_1 v hv =>
      cases h
      exact .inl ⟨rfl, rfl, by rw [hv]; rfl⟩
    case h_2 hv =>
      cases h
      exact .inr ⟨rfl, rfl, hv⟩
  case isFalse => cases h

end

end Table

/-- A table without a key: nobody waits for anybody. -/
structure Heap (S R : Type) where
  committed : List R
  pending : S → List R

def Heap.start {R : Type} (rows : List R) : Heap S R := ⟨rows, fun _ => []⟩

namespace Heap

variable {R : Type} [DecidableEq S] (h : Heap S R) (s : S)

def insert (r : R) : Heap S R := { h with pending := Function.update h.pending s (h.pending s ++ [r]) }

def abort : Heap S R := { h with pending := Function.update h.pending s [] }

def commit : Heap S R := { h.abort s with committed := h.committed ++ h.pending s }

end Heap

/-! ## Statements one after another -/

variable [DecidableEq K]

/-- The rows upserted one after another: each key has those of its own merged. -/
def serial (key : V → K) (merge : V → V → V) (c : K → Option V) (rs : List V) (k : K) : Option V :=
  (rs.filter fun r => decide (key r = k)).foldl (put merge) (c k)

section Serial

variable (key : V → K) (merge : V → V → V)

/-- `log` are the rows of the committed transactions, `done` those of the open ones so far. -/
structure Serial (t : Table S K V) (c : K → Option V) (log : List V) (done : S → List V) : Prop where
  committed : ∀ k, t.committed k = serial key merge c log k
  pending : ∀ k s v, t.pending k = some (s, v) → some v = serial key merge t.committed (done s) k
  held : ∀ s, ∀ r ∈ done s, ∃ v, t.pending (key r) = some (s, v)
  touched : ∀ k s v, t.pending k = some (s, v) → ∃ r ∈ done s, key r = k

variable {key merge}

theorem serial_append (c : K → Option V) (rs rs' : List V) (k : K) :
    serial key merge c (rs ++ rs') k = serial key merge (serial key merge c rs) rs' k := by
  simp [serial]

theorem serial_congr {c c' : K → Option V} {k : K} (h : c k = c' k) (rs : List V) :
    serial key merge c rs k = serial key merge c' rs k := by
  rw [serial, serial, h]

/-- A key without rows keeps what it has. -/
theorem serial_untouched {c : K → Option V} {rs : List V} {k : K} (h : ∀ r ∈ rs, key r ≠ k) :
    serial key merge c rs k = c k := by
  have hnil : rs.filter (fun r => decide (key r = k)) = [] := List.filter_eq_nil_iff.2 fun r hr => by simpa using h r hr
  rw [serial, hnil, List.foldl_nil]

theorem serial_foldl_upsert (hm : ∀ o r, key o = key r → key (merge o r) = key r) (rs rows : List V) (k : K) :
    lookup key k (rs.foldl (Keyed.upsert key merge) rows) = serial key merge (fun k => lookup key k rows) rs k :=
  lookup_foldl_upsert hm rs rows k

namespace Serial

theorem start (c : K → Option V) : Serial key merge (Table.start (S := S) c) c [] fun _ => [] where
  committed k := rfl
  pending k s v h := by cases h
  held s r h := by cases h
  touched k s v h := by cases h

variable [DecidableEq S] {t t' : Table S K V} {c : K → Option V} {log : List V} {done : S → List V}

/-- What a session reads is what its statements so far make of the committed rows. -/
theorem view (h : Serial key merge t c log done) (s : S) (k : K) :
    t.view s k = serial key merge t.committed (done s) k := by
  by_cases hp : ∃ v, t.pending k = some (s, v)
  · obtain ⟨v, hv⟩ := hp
    rw [Table.view_of_pending hv]
    exact h.pending k s v hv
  · rw [not_exists] at hp
    rw [Table.view_of_not_pending hp, serial_untouched]
    rintro r hr rfl
    obtain ⟨v, hv⟩ := h.held s r hr
    exact hp v hv

/-- **A statement.** -/
theorem upsert (h : Serial key merge t c log done) {s : S} {r : V} (hu : t.upsert s key merge r = some t') :
    Serial key merge t' c log (Function.update done s (done s ++ [r])) := by
  obtain ⟨hfree, v, hv, rfl⟩ := Table.upsert_eq_some hu
  rw [Table.free_iff] at hfree
  have hdone : some v = serial key merge t.committed (done s ++ [r]) (key r) := by
    rw [← hv, h.view, serial_append]
    simp [serial]
  have hmem : ∀ {s' : S} {x : V}, x ∈ done s' → x ∈ Function.update done s (done s ++ [r]) s' := by
    intro s' x hx
    by_cases hs : s' = s
    · subst hs
      rw [Function.update_self]
      exact List.mem_append_left [r] hx
    · rw [Function.update_of_ne hs]
      exact hx
  refine ⟨h.committed, ?_, ?_, ?_⟩
  · intro k s' v' hp
    by_cases hk : k = key r
    · subst hk
      rw [Table.set_pending_self] at hp
      cases hp
      rw [Function.update_self]
      exact hdone
    · rw [Table.set_pending_of_ne hk] at hp
      have hold := h.pending k s' v' hp
      by_cases hs : s' = s
      · subst hs
        rw [Function.update_self, Table.set_committed, serial_append, hold]
        exact (serial_untouched fun x hx => by rw [List.mem_singleton.1 hx]; exact Ne.symm hk).symm
      · rw [Function.update_of_ne hs]
        exact hold
  · intro s' x hx
    by_cases hk : key x = key r
    · rw [hk, Table.set_pending_self]
      by_cases hs : s' = s
      · exact ⟨v, by rw [hs]⟩
      · rw [Function.update_of_ne hs] at hx
        obtain ⟨w, hw⟩ := h.held s' x hx
        exact absurd (hfree s' w (hk ▸ hw)) hs
    · rw [Table.set_pending_of_ne hk]
      apply h.held s' x
      by_cases hs : s' = s
      · subst hs
        rw [Function.update_self] at hx
        rcases List.mem_append.1 hx with hx | hx
        · exact hx
        · exact absurd (by rw [List.mem_singleton.1 hx]) hk
      · rw [Function.update_of_ne hs] at hx
        exact hx
  · intro k s' v' hp
    by_cases hk : k = key r
    · subst hk
      rw [Table.set_pending_self] at hp
      cases hp
      exact ⟨r, by rw [Function.update_self]; exact List.mem_append_right _ (List.mem_singleton_self r), rfl⟩
    · rw [Table.set_pending_of_ne hk] at hp
      obtain ⟨x, hx, hkx⟩ := h.touched k s' v' hp
      exact ⟨x, hmem hx, hkx⟩

/-- What the other sessions have is theirs still. -/
theorem forget (h : Serial key merge t c log done) (s : S) :
    (∀ s', ∀ r ∈ Function.update done s [] s', ∃ v, (t.abort s).pending (key r) = some (s', v)) ∧
      ∀ k s' v, (t.abort s).pending k = some (s', v) → s' ≠ s ∧ ∃ r ∈ Function.update done s [] s', key r = k := by
  constructor
  · intro s' r hr
    by_cases hs : s' = s
    · subst hs
      rw [Function.update_self] at hr
      cases hr
    · rw [Function.update_of_ne hs] at hr
      obtain ⟨v, hv⟩ := h.held s' r hr
      exact ⟨v, Table.abort_pending.2 ⟨hv, hs⟩⟩
  · intro k s' v hp
    obtain ⟨hp, hs⟩ := Table.abort_pending.1 hp
    obtain ⟨r, hr, hk⟩ := h.touched k s' v hp
    exact ⟨hs, r, by rw [Function.update_of_ne hs]; exact hr, hk⟩

/-- **An abort.** -/
theorem abort (h : Serial key merge t c log done) (s : S) :
    Serial key merge (t.abort s) c log (Function.update done s []) := by
  obtain ⟨hheld, htouched⟩ := h.forget s
  refine ⟨h.committed, ?_, hheld, fun k s' v hp => (htouched k s' v hp).2⟩
  intro k s' v hp
  obtain ⟨hp, hs⟩ := Table.abort_pending.1 hp
  rw [Function.update_of_ne hs]
  exact h.pending k s' v hp

/-- **A commit.** What the others have written they have written on rows that the commit does not touch. -/
theorem commit (h : Serial key merge t c log done) (s : S) :
    Serial key merge (t.commit s) c (log ++ done s) (Function.update done s []) := by
  obtain ⟨hheld, htouched⟩ := h.forget s
  refine ⟨?_, ?_, hheld, fun k s' v hp => (htouched k s' v hp).2⟩
  · intro k
    rw [Table.commit_committed, h.view, serial_append]
    exact serial_congr (h.committed k) (done s)
  · intro k s' v hp
    obtain ⟨hp, hs⟩ := Table.abort_pending.1 hp
    rw [Function.update_of_ne hs, h.pending k s' v hp]
    exact serial_congr (Table.commit_committed_of_other hp hs).symm (done s')

end Serial

end Serial

/-! ## Tables without a key -/

/-- `Serial`, where every row is a row of its own. -/
structure Heap.Serial {R : Type} (h : Heap S R) (c log : List R) (done : S → List R) : Prop where
  committed : h.committed = c ++ log
  pending : h.pending = done

namespace Heap.Serial

variable {R : Type} {h : Heap S R} {c log : List R} {done : S → List R}

theorem start (c : List R) : (Heap.start (S := S) c).Serial c [] fun _ => [] := ⟨(List.append_nil c).symm, rfl⟩

variable [DecidableEq S]

theorem insert (hh : h.Serial c log done) (s : S) (r : R) :
    (h.insert s r).Serial c log (Function.update done s (done s ++ [r])) :=
      ⟨hh.committed, by rw [Heap.insert, hh.pending]⟩

theorem abort (hh : h.Serial c log done) (s : S) : (h.abort s).Serial c log (Function.update done s []) :=
  ⟨hh.committed, by rw [Heap.abort, hh.pending]⟩

theorem commit (hh : h.Serial c log done) (s : S) : (h.commit s).Serial c (log ++ done s) (Function.update done s []) :=
  ⟨by rw [Heap.commit, hh.committed, hh.pending, List.append_assoc], (hh.abort s).pending⟩

end Heap.Serial

end Rowlock
