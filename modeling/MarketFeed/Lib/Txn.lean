import Mathlib.Data.List.Basic
/-!
# Scripts of statements, and one connection with its transaction

An operation that issues several statements, each committing alone, leaves after a crash the
effect of the first `k` of them: `runScript exec s (ss.take k)`. `k` past the end is the
completed operation, so one statement about every `k` covers both.

`Conn δ`: the committed database and, while a transaction is open, the working copy its statements
see. `runTo exec ss d` executes statements up to the first that fails; what ran before it stays done.
-/

namespace Script

variable {σ τ : Type} (exec : σ → τ → σ)

def runScript (s : σ) (ss : List τ) : σ := ss.foldl exec s

@[simp] theorem runScript_cons (s : σ) (t : τ) (ss : List τ) :
    runScript exec s (t :: ss) = runScript exec (exec s t) ss := rfl

theorem runScript_append (s : σ) (ss ts : List τ) :
    runScript exec s (ss ++ ts) = runScript exec (runScript exec s ss) ts :=
  List.foldl_append

variable {exec}

/-- An invariant kept by each statement of the script holds after it. -/
theorem runScript_invariant {I : σ → Prop} :
    ∀ {ss : List τ} {s : σ}, I s → (∀ s, ∀ t ∈ ss, I s → I (exec s t)) → I (runScript exec s ss)
  | [], _, h, _ => h
  | t :: _, s, h, hs => by
    rw [runScript_cons]
    exact runScript_invariant (hs s t (by simp) h) fun s' t' ht' => hs s' t' (by simp [ht'])

/-- An invariant kept by each statement of the script holds at every cut. -/
theorem cut_invariant {I : σ → Prop} {ss : List τ} {s : σ} (h : I s)
    (hs : ∀ s, ∀ t ∈ ss, I s → I (exec s t)) (k : Nat) : I (runScript exec s (ss.take k)) :=
  runScript_invariant h fun s' t' ht' => hs s' t' (List.mem_of_mem_take ht')

/-- A projection no statement of the script changes is unchanged by it. -/
theorem runScript_frame {β : Type} (f : σ → β) :
    ∀ {ss : List τ} {s : σ}, (∀ s, ∀ t ∈ ss, f (exec s t) = f s) → f (runScript exec s ss) = f s
  | [], _, _ => rfl
  | t :: ss, s, hs => by
    have ih : f (runScript exec (exec s t) ss) = f (exec s t) :=
      runScript_frame f fun s' t' ht' => hs s' t' (by simp [ht'])
    rw [runScript_cons, ih, hs s t (by simp)]

end Script

namespace Txn

variable {δ σ ε ρ : Type}

structure Conn (δ : Type) where
  committed : δ
  work : Option δ
  deriving DecidableEq

/-- What a statement on the connection reads. -/
def Conn.view (c : Conn δ) : δ := c.work.getD c.committed

/-- `BEGIN`; `none` where a transaction is open. -/
def Conn.begin (c : Conn δ) : Option (Conn δ) :=
  match c.work with
  | some _ => none
  | none => some ⟨c.committed, some c.committed⟩

/-- `ROLLBACK`, nothing where no transaction is open. -/
def Conn.rollback (c : Conn δ) : Conn δ := ⟨c.committed, none⟩

/-- No transaction open. -/
def idle (d : δ) : Conn δ := ⟨d, none⟩

@[simp] theorem idle_view (d : δ) : (idle d).view = d := rfl

@[simp] theorem idle_begin (d : δ) : (idle d).begin = some ⟨d, some d⟩ := rfl

@[simp] theorem rollback_eq (c : Conn δ) : c.rollback = idle c.committed := rfl

variable (exec : δ → σ → Except ε δ)

def runTo : List σ → δ → δ × Option ε
  | [], d => (d, none)
  | s :: ss, d =>
    match exec d s with
    | .ok d' => runTo ss d'
    | .error e => (d, some e)

variable {exec}

theorem runTo_append (ss ts : List σ) (d : δ) :
    runTo exec (ss ++ ts) d = match runTo exec ss d with
      | (d', none) => runTo exec ts d'
      | (d', some e) => (d', some e) := by
  induction ss generalizing d with
  | nil => rfl
  | cons s ss ih =>
    simp only [List.cons_append, runTo]
    cases exec d s with
    | ok d' => exact ih d'
    | error e => rfl

/-- Two scripts that both run through. -/
theorem runTo_append_none {ss ts : List σ} {d d' : δ} (h : runTo exec ss d = (d', none)) :
    runTo exec (ss ++ ts) d = runTo exec ts d' := by
  rw [runTo_append, h]

/-- A statement per row, each of which succeeds whatever ran before it. -/
theorem runTo_map {f : ρ → σ} {g : δ → ρ → δ} {rows : List ρ} (h : ∀ r ∈ rows, ∀ d, exec d (f r) = .ok (g d r))
    (d : δ) :
    runTo exec (rows.map f) d = (rows.foldl g d, none) := by
  induction rows generalizing d with
  | nil => rfl
  | cons r rows ih =>
    simp only [List.map_cons, runTo, h r (by simp), List.foldl_cons]
    exact ih (fun x hx => h x (by simp [hx])) (g d r)

end Txn
