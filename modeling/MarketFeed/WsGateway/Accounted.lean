import Mathlib.Data.List.Perm.Basic
import MarketFeed.WsGateway.Converges
/-!
# What becomes of a client's messages (services/ws_gateway.py:138-154, :170-211, :289-297)

A message leaves the queue to be written or because a newer one finds the queue full, and the latter is counted. A
resync empties the queue too, for the snapshot that follows makes the ticks in it pointless; what it takes out is not
counted, and a signal among it is in no snapshot. So a client's messages are accounted for just where every resync
that sends a snapshot finds the queue empty.

| here | there |
| --- | --- |
| `ClientAct` | a call of `_enqueue`, the resync of `_coalesce_loop`, a turn of `_ws_send`, a command |
| `Conn.history` | a client after some of these, and what `_enqueue` was called with on the way, a resync's snapshot included |
-/

namespace WsGateway

variable {F : Type}

inductive ClientAct (F : Type)
  | enqueue (m : Msg F)
  | resync (snapshot : List (Entry F))
  | send
  | command (cmd : Command)

namespace Conn

/-- The entries of a resync's snapshot. -/
def items (snapshot : List (Entry F)) (c : Conn F) : List (Entry F) := snapshot.filter fun e => c.wants e.key

/-- A resync is for a client that takes ticks and has dropped something. -/
def step (size : ℤ) (c : Conn F) : ClientAct F → Option (Conn F)
  | .enqueue m => some (c.enqueue size m)
  | .resync snapshot => if c.mode = .raw ∨ c.needsResync = false then none else some (c.resync size snapshot)
  | .send => c.send
  | .command cmd => c.onCommand cmd

/-- What an act calls `_enqueue` with. -/
def enqueued (c : Conn F) : ClientAct F → List (Msg F)
  | .enqueue m => [m]
  | .resync snapshot => if (c.items snapshot).isEmpty then [] else [.snapshot (c.items snapshot) (some c.dropped)]
  | .send | .command _ => []

/-- How many messages an act takes out of the queue for the sake of a snapshot. -/
def cleared (c : Conn F) : ClientAct F → ℕ
  | .resync snapshot => if (c.items snapshot).isEmpty then 0 else c.queue.length
  | _ => 0

def history (size : ℤ) : Conn F → List (ClientAct F) → Option (Conn F × List (Msg F))
  | c, [] => some (c, [])
  | c, a :: acts => do
    let c' ← c.step size a
    let (c'', more) ← c'.history size acts
    some (c'', c.enqueued a ++ more)

/-- A client as it connects. -/
def fresh (mode : Mode) (symbols : Option (List String)) : Conn F := ⟨[], mode, symbols, 0, false, []⟩

/-- Every message that was enqueued was written, waits, or is one of those counted as dropped. -/
def Accounted (c : Conn F) (enqueued : List (Msg F)) : Prop :=
  ∃ gone : List (Msg F), enqueued.Perm (c.written ++ c.queue ++ gone) ∧ gone.length = c.dropped

/-! ## One act -/

theorem enqueue_accounts (size : ℤ) (m : Msg F) (c : Conn F) : ∃ gone : List (Msg F),
    (c.written ++ c.queue ++ [m]).Perm ((c.enqueue size m).written ++ (c.enqueue size m).queue ++ gone) ∧
      (c.enqueue size m).dropped = c.dropped + gone.length := by
  unfold enqueue
  by_cases hfull : c.full size = true
  · rw [if_pos hfull]
    cases hq : c.queue with
    | nil =>
      rw [full, hq] at hfull
      have hsize : 0 < size ∧ size ≤ (0 : ℕ) := by simpa using hfull
      omega
    | cons oldest rest =>
      refine ⟨[oldest], ?_, rfl⟩
      rw [List.append_assoc, List.append_assoc]
      refine List.Perm.append_left _ ?_
      exact @List.perm_append_comm _ [oldest] (rest ++ [m])
  · rw [if_neg hfull]
    exact ⟨[], by simp, rfl⟩

/-- A resync that sends a snapshot leaves only that in the queue. -/
theorem resync_eq (size : ℤ) {snapshot : List (Entry F)} {c : Conn F} (h : ¬ (c.items snapshot).isEmpty = true) :
    c.resync size snapshot = { c with queue := [.snapshot (c.items snapshot) (some c.dropped)], needsResync := false } := by
  have hroom := full_nil size { c with queue := [] } rfl
  unfold resync enqueue
  dsimp only
  rw [hroom]
  exact if_neg h

theorem step_accounts {size : ℤ} {c c' : Conn F} {a : ClientAct F} (h : c.step size a = some c') : ∃ gone :
    List (Msg F),
    (c.written ++ c.queue ++ c.enqueued a).Perm (c'.written ++ c'.queue ++ gone) ∧
      c'.dropped + c.cleared a = c.dropped + gone.length := by
  cases a with
  | enqueue m =>
    cases h
    exact enqueue_accounts size m c
  | resync snapshot =>
    simp only [step] at h
    split at h
    · cases h
    · cases h
      by_cases hitems : (c.items snapshot).isEmpty = true
      · have hresync : c.resync size snapshot = { c with needsResync := false } := if_pos hitems
        refine ⟨[], ?_, ?_⟩
        · rw [hresync, enqueued, if_pos hitems]
        · rw [hresync, cleared, if_pos hitems]
          rfl
      · refine ⟨c.queue, ?_, ?_⟩
        · rw [resync_eq size hitems, enqueued, if_neg hitems, List.append_assoc, List.append_assoc]
          exact List.Perm.append_left _ List.perm_append_comm
        · rw [resync_eq size hitems, cleared, if_neg hitems]
  | send =>
    simp only [step, send] at h
    split at h
    · cases h
    · rename_i m queue hq
      cases h
      exact ⟨[], by simp [hq, enqueued], rfl⟩
  | command cmd =>
    have hkept : c'.written = c.written ∧ c'.queue = c.queue ∧ c'.dropped = c.dropped := by
      cases cmd <;> cases h <;> exact ⟨rfl, rfl, rfl⟩
    obtain ⟨hwritten, hqueue, hdropped⟩ := hkept
    exact ⟨[], by rw [hwritten, hqueue, enqueued], hdropped⟩

/-! ## Histories -/

theorem history_cons {size : ℤ} {c d : Conn F} {a : ClientAct F} {acts : List (ClientAct F)} {all : List (Msg F)} :
    c.history size (a :: acts) = some (d, all) ↔
      ∃ c' more, c.step size a = some c' ∧ c'.history size acts = some (d, more) ∧ all = c.enqueued a ++ more := by
  simp only [history, Option.bind_eq_bind, Option.bind_eq_some_iff, Option.some.injEq, Prod.mk.injEq, Prod.exists]
  constructor
  · rintro ⟨c', hstep, d', more, hrest, rfl, rfl⟩
    exact ⟨c', more, hstep, hrest, rfl⟩
  · rintro ⟨c', more, hstep, hrest, rfl⟩
    exact ⟨c', hstep, d, more, hrest, rfl, rfl⟩

/-- No resync of the acts that sends a snapshot finds something in the queue. -/
def Spared (size : ℤ) (c : Conn F) (acts : List (ClientAct F)) : Prop :=
  ∀ before snapshot after, acts = before ++ .resync snapshot :: after →
    ∀ c' all, c.history size before = some (c', all) → c'.queue = [] ∨ c'.items snapshot = []

theorem cleared_resync (c : Conn F) (snapshot : List (Entry F)) :
    c.cleared (.resync snapshot) = 0 ↔ c.queue = [] ∨ c.items snapshot = [] := by
  unfold cleared
  by_cases h : c.items snapshot = [] <;> simp [h]

theorem spared_cons {size : ℤ} {c c' : Conn F} {a : ClientAct F} (hstep : c.step size a = some c')
    (acts : List (ClientAct F)) :
    c.Spared size (a :: acts) ↔ c.cleared a = 0 ∧ c'.Spared size acts := by
  constructor
  · intro h
    constructor
    · cases a with
      | resync snapshot => exact (cleared_resync c snapshot).2 (h [] snapshot acts rfl c [] rfl)
      | _ => rfl
    · rintro before snapshot after rfl d all hbefore
      exact h (a :: before) snapshot after rfl d (c.enqueued a ++ all) (history_cons.2 ⟨c', all, hstep, hbefore, rfl⟩)
  · rintro ⟨hcleared, hrest⟩ before snapshot after heq d all hbefore
    cases before with
    | nil =>
      rw [List.nil_append, List.cons.injEq] at heq
      obtain ⟨rfl, -⟩ := heq
      cases hbefore
      exact (cleared_resync c snapshot).1 hcleared
    | cons b before =>
      rw [List.cons_append, List.cons.injEq] at heq
      obtain ⟨rfl, heq⟩ := heq
      obtain ⟨d', more, hfirst, hmore, -⟩ := history_cons.1 hbefore
      rw [hstep] at hfirst
      cases hfirst
      exact hrest before snapshot after heq d more hmore

/-- What is gone was dropped or cleared. -/
theorem history_accounts {size : ℤ} {c d : Conn F} {acts : List (ClientAct F)} {all : List (Msg F)}
    (h : c.history size acts = some (d, all)) : ∃ (gone : List (Msg F)) (taken : ℕ),
      (c.written ++ c.queue ++ all).Perm (d.written ++ d.queue ++ gone) ∧ d.dropped + taken = c.dropped + gone.length ∧
        (taken = 0 ↔ c.Spared size acts) := by
  induction acts generalizing c all with
  | nil =>
    cases h
    refine ⟨[], 0, List.Perm.refl _, rfl, iff_of_true rfl ?_⟩
    intro before snapshot after heq
    simp at heq
  | cons a acts ih =>
    obtain ⟨c', more, hstep, hrest, rfl⟩ := history_cons.1 h
    obtain ⟨gone, hperm, hcount⟩ := step_accounts hstep
    obtain ⟨later, taken, hperm', hcount', hspared⟩ := ih hrest
    refine ⟨later ++ gone, c.cleared a + taken, ?_, ?_, ?_⟩
    · calc (c.written ++ c.queue ++ (c.enqueued a ++ more)).Perm (c'.written ++ c'.queue ++ gone ++ more) := by
            rw [← List.append_assoc]
            exact hperm.append_right more
        _ |>.Perm (c'.written ++ c'.queue ++ more ++ gone) := by
            rw [List.append_assoc _ gone, List.append_assoc _ more]
            exact List.Perm.append_left _ List.perm_append_comm
        _ |>.Perm (d.written ++ d.queue ++ (later ++ gone)) := by
            rw [← List.append_assoc _ later]
            exact hperm'.append_right gone
    · rw [List.length_append]
      omega
    · rw [spared_cons hstep, ← hspared]
      omega

end Conn

open Conn

/-- **A client's messages are accounted for just where no resync that sends a snapshot finds something in the queue.**
-/
theorem enqueued_accounted_iff (size : ℤ) (mode : Mode) (symbols : Option (List String)) (acts : List (ClientAct F))
    (c : Conn F)
    (all : List (Msg F)) (h : (fresh mode symbols).history size acts = some (c, all)) :
    c.Accounted all ↔ (fresh mode symbols).Spared size acts := by
  obtain ⟨gone, taken, hperm, hcount, hspared⟩ := history_accounts h
  have hall : all.Perm (c.written ++ c.queue ++ gone) := hperm
  rw [← hspared]
  constructor
  · rintro ⟨other, hother, hdropped⟩
    have hlen := (hall.symm.trans hother).length_eq
    simp only [List.length_append] at hlen
    change c.dropped + taken = 0 + gone.length at hcount
    omega
  · intro hnone
    change c.dropped + taken = 0 + gone.length at hcount
    exact ⟨gone, hall, by omega⟩

def buy : Writer.Signal ℤ := ⟨"KRX", "A", 1, "sma_cross", 1, 1, 100⟩

/-- Two heartbeats and a signal for a queue of two. -/
def crowded : List (ClientAct ℤ) := [.enqueue (.heartbeat 1), .enqueue (.heartbeat 2), .enqueue (.signal buy)]

theorem enqueued_accounted_sent :
    ∃ c all, (fresh .coalesced none).history 2 (crowded ++ [.send, .send, .resync [.new "KRX" "A"]]) =
    some (c, all) ∧ (c.Accounted all ↔
      (fresh .coalesced none).Spared 2 (crowded ++ [.send, .send, .resync [.new "KRX" "A"]])) :=
  ⟨_, _, rfl, enqueued_accounted_iff 2 .coalesced none _ _ _ rfl⟩

/-- A resync takes the signal out of the queue, and one message is counted for the three that are gone. -/
theorem signal_uncounted : ∃ c all, (fresh .coalesced none).history 2 (crowded ++ [.resync [.new "KRX" "A"]]) =
    some (c, all) ∧
    .signal buy ∈ all ∧ .signal buy ∉ c.written ++ c.queue ∧ c.dropped = 1 ∧ ¬ c.Accounted all := by
  refine ⟨_, _, rfl, by decide, by decide, rfl, ?_⟩
  rintro ⟨gone, hperm, hdropped⟩
  have hlen := hperm.length_eq.trans List.length_append
  rw [hdropped] at hlen
  exact absurd hlen (by decide)

end WsGateway
