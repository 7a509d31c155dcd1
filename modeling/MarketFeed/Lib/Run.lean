import Mathlib.Data.List.Basic
/-!
# Runs of a labelled step function

`step s a = some t`: in state `s` the action `a` is enabled and leads to `t`. `Run step ok s as t`:
the actions `as`, each taken in a state where `ok` holds of it, lead from `s` to `t`. With
`ok = anyStep` these are all runs. Nondeterminism (an interleaving, a lost message, a crash) is
carried by the label, so a step function is enough and a run can be evaluated (`exec`).
-/

namespace Lts

variable {σ α : Type}

/-- `as` leads from `s` to `t`, every step meeting `ok`. -/
inductive Run (step : σ → α → Option σ) (ok : σ → α → Prop) : σ → List α → σ → Prop
  | nil (s : σ) : Run step ok s [] s
  | cons {s s' t : σ} {a : α} {as : List α} :
    ok s a → step s a = some s' → Run step ok s' as t → Run step ok s (a :: as) t

/-- No restriction on the steps of a run. -/
def anyStep (_ : σ) (_ : α) : Prop := True

variable {step : σ → α → Option σ} {ok : σ → α → Prop} {s t : σ} {as : List α}

/-- What holds at the start and is kept by every permitted step holds wherever a run leads. -/
theorem Run.invariant {I : σ → Prop} (h : Run step ok s as t) (h0 : I s)
    (hstep : ∀ s a s', I s → ok s a → step s a = some s' → I s') : I t := by
  induction h with
  | nil s => exact h0
  | cons hok hst _ ih => exact ih (hstep _ _ _ h0 hok hst)

/-- A run of restricted steps is one of less restricted ones. -/
theorem Run.mono {ok' : σ → α → Prop} (h : Run step ok s as t) (hle : ∀ s a, ok s a → ok' s a) :
    Run step ok' s as t := by
  induction h with
  | nil s => exact .nil s
  | cons hok hst _ ih => exact .cons (hle _ _ hok) hst ih

/-- A run through `as ++ bs` passes a state between them. -/
theorem Run.split : ∀ {as bs : List α} {s t : σ}, Run step ok s (as ++ bs) t → ∃ m, Run step ok s as m ∧
    Run step ok m bs t
  | [], _, s, _, h => ⟨s, .nil s, h⟩
  | _ :: _, _, _, _, .cons hok hst h =>
    have ⟨m, h1, h2⟩ := h.split
    ⟨m, .cons hok hst h1, h2⟩

theorem Run.append : ∀ {as bs : List α} {s m t : σ}, Run step ok s as m → Run step ok m bs t →
    Run step ok s (as ++ bs) t
  | [], _, _, _, _, .nil _, h => h
  | _ :: _, _, _, _, _, .cons hok hst h', h => .cons hok hst (h'.append h)

/-- What `f` is at the end it was at the start, or a step has made it so and no later one has changed it. -/
theorem Run.origin {β : Type} [DecidableEq β] (f : σ → β) (h : Run step ok s as t) :
    f t = f s ∨ ∃ bs b cs m m', as = bs ++ b :: cs ∧ Run step ok s bs m ∧ ok m b ∧ step m b = some m' ∧
      Run step ok m' cs t ∧
      f m ≠ f m' ∧ f m' = f t := by
  induction h with
  | nil s => exact .inl rfl
  | @cons s s' t a as hok hst hrun ih =>
    rcases ih with heq | ⟨bs, b, cs, m, m', rfl, hbs, hb, hm, hcs, hne, hend⟩
    · by_cases hs : f s = f s'
      · exact .inl (heq.trans hs.symm)
      · exact .inr ⟨[], a, as, s, s', rfl, .nil s, hok, hst, hrun, hs, heq.symm⟩
    · exact .inr ⟨a :: bs, b, cs, m, m', rfl, .cons hok hst hbs, hb, hm, hcs, hne, hend⟩

/-- What is known of the actions of a run restricts its steps. -/
theorem Run.restrict {p : α → Prop} : ∀ {as : List α} {s t : σ}, Run step ok s as t → (∀ a ∈ as, p a) →
    Run step (fun s a => ok s a ∧ p a) s as t
  | [], _, _, .nil s, _ => .nil s
  | a :: _, _, _, .cons hok hst h, hp =>
    .cons ⟨hok, hp a List.mem_cons_self⟩ hst (h.restrict fun b hb => hp b (List.mem_cons_of_mem a hb))

/-- What comes to the same in every state that a step leads to restricts runs in the same way. -/
theorem Run.congr {ok' : σ → α → Prop} {J : σ → Prop} (hJ : ∀ s a s', J s → step s a = some s' → J s')
    (hok : ∀ s a, J s → (ok s a ↔ ok' s a)) (hs : J s) : Run step ok s as t ↔ Run step ok' s as t := by
  constructor
  · intro h
    induction h with
    | nil s => exact .nil s
    | @cons s s' t a as ha hst _ ih => exact .cons ((hok s a hs).1 ha) hst (ih (hJ s a s' hs hst))
  · intro h
    induction h with
    | nil s => exact .nil s
    | @cons s s' t a as ha hst _ ih => exact .cons ((hok s a hs).2 ha) hst (ih (hJ s a s' hs hst))

/-- Where a step that meets `ok`, and no other, keeps `I`, it holds all along a run just when every step of the run
meets `ok`. -/
theorem Run.invariant_iff {J I : σ → Prop} (hJ : ∀ s a s', J s → step s a = some s' → J s')
    (hI : ∀ s a s', J s → I s → step s a = some s' → (I s' ↔ ok s a)) (h : Run step anyStep s as t) (hjs : J s)
    (his : I s) :
    (∀ bs cs m, as = bs ++ cs → Run step anyStep s bs m → I m) ↔ Run step ok s as t := by
  induction h with
  | nil s =>
    refine ⟨fun _ => .nil s, fun _ bs cs m hbs hm => ?_⟩
    obtain ⟨rfl, -⟩ := List.append_eq_nil_iff.1 hbs.symm
    cases hm
    exact his
  | @cons s s' t a as hok hst hrun ih =>
    have hstep : I s' ↔ ok s a := hI s a s' hjs his hst
    constructor
    · intro hall
      have his' : I s' := hall [a] as s' rfl (.cons trivial hst (.nil s'))
      refine .cons (hstep.1 his') hst ((ih (hJ s a s' hjs hst) his').1 fun bs cs m hbs hm => ?_)
      exact hall (a :: bs) cs m (by rw [hbs]; rfl) (.cons trivial hst hm)
    · intro hmeets bs cs m hbs hm
      cases hmeets with
      | cons hoka hst' hrest =>
        cases hst.symm.trans hst'
        cases hm with
        | nil => exact his
        | cons _ hst'' hm =>
          rw [List.cons_append, List.cons.injEq] at hbs
          obtain ⟨rfl, hbs⟩ := hbs
          cases hst.symm.trans hst''
          exact (ih (hJ s a s' hjs hst) (hstep.2 hoka)).2 hrest _ cs m hbs hm

instance (s : σ) (a : α) : Decidable (anyStep s a) := .isTrue trivial

section Exec

variable (step ok)

/-- Evaluate a list of actions; `none` as soon as one is not permitted or not enabled. -/
def exec [∀ s a, Decidable (ok s a)] : σ → List α → Option σ
  | s, [] => some s
  | s, a :: as => if ok s a then (step s a).bind fun s' => exec s' as else none

end Exec

theorem run_of_exec [∀ s a, Decidable (ok s a)] :
    ∀ {as : List α} {s t : σ}, exec step ok s as = some t → Run step ok s as t
  | [], s, t, h => by cases h; exact .nil s
  | a :: as, s, t, h => by
    simp only [exec] at h
    split at h
    · rename_i hok
      cases hs : step s a with
      | none => simp [hs] at h
      | some s' =>
        rw [hs] at h
        exact .cons hok hs (run_of_exec h)
    · cases h

/-- An evaluated list of actions is a run, and what is decided of its last state holds there. -/
theorem exists_run [∀ s a, Decidable (ok s a)] {P : σ → Prop} [DecidablePred P]
    (h : ((exec step ok s as).any fun t => decide (P t)) = true) : ∃ t, Run step ok s as t ∧ P t := by
  obtain ⟨t, ht, hP⟩ := (Option.any_eq_true _ _).1 h
  exact ⟨t, run_of_exec ht, of_decide_eq_true hP⟩

/-- … and what is decided of a value its last state has. -/
theorem exists_run_some [∀ s a, Decidable (ok s a)] {β : Type} {f : σ → Option β} {P : σ → β →
    Prop} [∀ t b, Decidable (P t b)]
    (h : ((exec step ok s as).any fun t => (f t).any fun b => decide (P t b)) = true) :
    ∃ t b, Run step ok s as t ∧ f t = some b ∧ P t b := by
  obtain ⟨t, ht, hb⟩ := (Option.any_eq_true _ _).1 h
  obtain ⟨b, hb, hP⟩ := (Option.any_eq_true _ _).1 hb
  exact ⟨t, b, run_of_exec ht, hb, of_decide_eq_true hP⟩

end Lts
