import MarketFeed.Auth.Throttle
/-!
# Five wrong passwords a minute (auth.py:14-16, :53-70)

The lock comes with the fifth counted failure, and the list is cleared then. So a minute holds at most five
if nothing is in flight when the lock comes: what was wrong before it is a minute old when the next login
passes, and what is wrong since is in flight or still in the list, which keeps failures for five minutes.
-/

namespace Auth

/-- What a gate has of the past at `now`. -/
structure Sound (now : ℚ) (g : Gate) : Prop where
  past : ∀ t ∈ g.wrong, t ≤ now
  allWrong : ∀ v ∈ g.verified, v.2 = false
  few : g.inFlight + g.throttle.fails.length ≤ FAIL_LIMIT
  short : g.throttle.fails.length < FAIL_LIMIT
  open' : 0 < g.inFlight → g.throttle.lockedUntil ≤ now
  /-- Every wrong password is old, or verified, or counted. -/
  kept : ∃ old counted, g.wrong.Perm (old ++ (g.verified.map Prod.fst ++ counted)) ∧
    List.Forall₂ (· ≤ ·) counted g.throttle.fails ∧ ∀ t ∈ old, t + 60 ≤ g.throttle.lockedUntil ∨ t + 300 ≤ now
  bound : ∀ a, g.wrongIn a ≤ 5

theorem sound_fresh (now : ℚ) : Sound now .fresh where
  past := fun _ h => (by cases h)
  allWrong := fun _ h => (by cases h)
  few := Nat.zero_le _
  short := by decide
  open' := fun h => absurd h (lt_irrefl 0)
  kept := ⟨[], [], .nil, .nil, fun _ h => (by cases h)⟩
  bound := fun _ => Nat.zero_le _

variable {now : ℚ} {g : Gate}

theorem Sound.tick (h : Sound now g) {seconds : ℚ} (hs : 0 ≤ seconds) : Sound (now + seconds) g := by
  obtain ⟨old, counted, hperm, hcounted, hold⟩ := h.kept
  refine ⟨fun t ht => ?_, h.allWrong, h.few, h.short, fun hf => ?_, ⟨old, counted, hperm, hcounted, fun t ht => ?_⟩,
    h.bound⟩
  · have := h.past t ht
    linarith
  · have := h.open' hf
    linarith
  · rcases hold t ht with ho | ho
    · exact .inl ho
    · right
      linarith

theorem Sound.pass (h : Sound now g) (hopen : g.throttle.lockedUntil ≤ now)
    (hfew : g.inFlight + g.throttle.fails.length < FAIL_LIMIT) : Sound now g.pass := by
  refine ⟨h.past, h.allWrong, ?_, h.short, fun _ => hopen, h.kept, h.bound⟩
  show g.waiting + 1 + g.verified.length + g.throttle.fails.length ≤ FAIL_LIMIT
  unfold Gate.inFlight at hfew
  omega

/-- A minute that reaches to `now` holds no more than what is verified or counted. -/
theorem Sound.wrongIn_le (h : Sound now g) (hflight : 0 < g.inFlight) {a : ℚ} (ha : now < a + 60) :
    g.wrongIn a ≤ g.verified.length + g.throttle.fails.length := by
  obtain ⟨old, counted, hperm, hcounted, hold⟩ := h.kept
  have hopen := h.open' hflight
  have hnone : old.countP (fun t => decide (a ≤ t ∧ t < a + 60)) = 0 := by
    rw [List.countP_eq_zero]
    intro t ht hin
    obtain ⟨hat, -⟩ := of_decide_eq_true hin
    rcases hold t ht with ho | ho <;> linarith
  rw [Gate.wrongIn, hperm.countP_eq, List.countP_append, hnone, Nat.zero_add]
  refine List.countP_le_length.trans (le_of_eq ?_)
  rw [List.length_append, List.length_map, hcounted.length_eq]

theorem Sound.verify (h : Sound now g) (hwaiting : 0 < g.waiting) : Sound now (g.verify now false) := by
  obtain ⟨old, counted, hperm, hcounted, hold⟩ := h.kept
  have hflight : 0 < g.inFlight := by
    unfold Gate.inFlight
    omega
  have hsame : (g.verify now false).inFlight = g.inFlight := by
    show g.waiting - 1 + (g.verified ++ [(now, false)]).length = g.waiting + g.verified.length
    rw [List.length_append, List.length_singleton]
    omega
  refine ⟨?_, ?_, ?_, h.short, fun _ => h.open' hflight, ⟨old, counted, ?_, hcounted, hold⟩, fun a => ?_⟩
  · intro t ht
    rcases List.mem_append.1 ht with ht | ht
    · exact h.past t ht
    · rw [List.mem_singleton.1 ht]
  · intro v hv
    rcases List.mem_append.1 hv with hv | hv
    · exact h.allWrong v hv
    · rw [List.mem_singleton.1 hv]
  · rw [hsame]
    exact h.few
  · show (g.wrong ++ [now]).Perm (old ++ ((g.verified ++ [(now, false)]).map Prod.fst ++ counted))
    rw [List.map_append, List.append_assoc]
    refine (List.perm_append_singleton now g.wrong).trans ?_
    refine (hperm.cons now).trans ?_
    rw [← List.append_assoc, ← List.append_assoc]
    exact List.perm_middle.symm
  · have hcount : (g.verify now false).wrongIn a = g.wrongIn a + if a ≤ now ∧ now < a + 60 then 1 else 0 := by
      show (g.wrong ++ [now]).countP _ = _
      rw [List.countP_append, List.countP_singleton]
      simp only [decide_eq_true_eq]
      rfl
    rw [hcount]
    split
    · rename_i hin
      have hle := h.wrongIn_le hflight hin.2
      have hfew := h.few
      unfold Gate.inFlight FAIL_LIMIT at hfew
      omega
    · exact h.bound a

theorem Sound.fail (h : Sound now g) {t : ℚ} {i : ℕ} (hi : g.verified[i]? = some (t, false)) :
    Sound now { g with verified := g.verified.eraseIdx i, throttle := g.throttle.fail now } := by
  obtain ⟨old, counted, hperm, hcounted, hold⟩ := h.kept
  have hlt : i < g.verified.length := (List.getElem?_eq_some_iff.1 hi).1
  have hverified : g.verified.Perm ((t, false) :: g.verified.eraseIdx i) := by
    have hget : g.verified[i] = (t, false) := (List.getElem?_eq_some_iff.1 hi).2
    rw [← hget]
    exact (List.getElem_cons_eraseIdx_perm hlt).symm
  have hlen : (g.verified.eraseIdx i).length + 1 = g.verified.length := by
    have := hverified.length_eq
    simpa using this.symm
  have hmem : ∀ u, u ∈ g.wrong ↔ u ∈ old ∨ u ∈ g.verified.map Prod.fst ∨ u ∈ counted := by
    intro u
    rw [hperm.mem_iff, List.mem_append, List.mem_append]
  have htime : t ≤ now := h.past t
    ((hmem t).2 (.inr (.inl (List.mem_map.2 ⟨(t, false), List.mem_of_getElem? hi, rfl⟩))))
  have hwrong : ∀ v ∈ g.verified.eraseIdx i, v.2 = false := fun v hv => h.allWrong v (List.mem_of_mem_eraseIdx hv)
  have hfilter := List.length_filter_le (fun f => decide (now - f < FAIL_WINDOW_S)) g.throttle.fails
  have hfew := h.few
  have hshort := h.short
  unfold Gate.inFlight at hfew
  by_cases hlock : FAIL_LIMIT ≤ ((g.throttle.fails.filter fun f => decide (now - f < FAIL_WINDOW_S)) ++ [now]).length
  · -- the fifth failure: nothing else is in flight, and all that was wrong is in the past
    have hthrottle : g.throttle.fail now = ⟨[], now + LOCK_S⟩ := if_pos hlock
    rw [List.length_append, List.length_singleton] at hlock
    have hnil : g.verified.eraseIdx i = [] := List.length_eq_zero_iff.1 (by omega)
    have hidle : g.waiting = 0 := by omega
    rw [hthrottle, hnil]
    refine ⟨h.past, fun _ hv => (by cases hv), ?_, Nat.zero_lt_succ 4, ?_,
      ⟨g.wrong, [], ?_, .nil, fun u hu => .inl ?_⟩, h.bound⟩
    · show g.waiting + 0 + 0 ≤ FAIL_LIMIT
      omega
    · show 0 < g.waiting + 0 → _
      omega
    · rw [List.map_nil, List.nil_append, List.append_nil]
    · have := h.past u hu
      show u + 60 ≤ now + 60
      linarith
  · have hthrottle : g.throttle.fail now =
        ⟨(g.throttle.fails.filter fun f => decide (now - f < FAIL_WINDOW_S)) ++ [now], g.throttle.lockedUntil⟩ :=
          if_neg hlock
    rw [List.length_append, List.length_singleton] at hlock
    obtain ⟨kept, dropped, hsplit, hkept, hdropped⟩ :=
      @Lists.forall₂_filter _ _ _ (fun f => decide (now - f < FAIL_WINDOW_S)) _ _ hcounted
    rw [hthrottle]
    refine ⟨h.past, hwrong, ?_, ?_, fun _ => h.open' ?_, ⟨old ++ dropped, kept ++ [t], ?_, ?_, fun u hu => ?_⟩, h.bound⟩
    · show g.waiting + (g.verified.eraseIdx i).length + (_ ++ [now]).length ≤ FAIL_LIMIT
      rw [List.length_append, List.length_singleton]
      omega
    · show (_ ++ [now]).length < FAIL_LIMIT
      rw [List.length_append, List.length_singleton]
      omega
    · unfold Gate.inFlight
      omega
    · refine hperm.trans (List.perm_iff_count.2 fun u => ?_)
      have h1 := (hverified.map Prod.fst).count_eq u
      have h2 := hsplit.count_eq u
      simp only [List.map_cons, List.count_append, List.count_cons, List.count_nil] at h1 h2 ⊢
      omega
    · exact List.rel_append hkept (.cons htime .nil)
    · rcases List.mem_append.1 hu with hu | hu
      · exact hold u hu
      · obtain ⟨f, huf, hf⟩ := hdropped u hu
        rw [decide_eq_false_iff_not] at hf
        unfold FAIL_WINDOW_S at hf
        right
        linarith

/-- A nickname nobody has: past the lock, wrong and counted at once. -/
theorem resume_unknown (g : Gate) (now : ℚ) :
    ((g.pass.verify now false).resume now g.verified.length) = some (g.unknown now) := by
  have hget : (g.pass.verify now false).verified[g.verified.length]? = some (now, false) := List.getElem?_concat_length
  have herase : (g.pass.verify now false).verified.eraseIdx g.verified.length = g.verified := by
    show (g.verified ++ [(now, false)]).eraseIdx g.verified.length = g.verified
    rw [List.eraseIdx_append_of_length_le (le_refl _)]
    simp
  rw [Gate.resume, hget, Option.map_some, herase]
  rfl

theorem Sound.resume {g' : Gate} {i : ℕ} (h : Sound now g) (hg : g.resume now i = some g') : Sound now g' := by
  obtain ⟨⟨t, correct⟩, hi, rfl⟩ := Option.map_eq_some_iff.1 hg
  obtain rfl : correct = false := h.allWrong _ (List.mem_of_getElem? hi)
  exact h.fail hi

theorem Sound.unknown (h : Sound now g) (hopen : g.throttle.lockedUntil ≤ now)
    (hfew : g.inFlight + g.throttle.fails.length < FAIL_LIMIT) : Sound now (g.unknown now) :=
  ((h.pass hopen hfew).verify (Nat.succ_pos _)).resume (resume_unknown g now)

/-! ## Runs -/

section Runs

variable {k : Door} {s s' : State}

theorem not_locked (h : s.locked k = false) : (s.gate k).throttle.lockedUntil ≤ s.now := by
  have hle : ¬ 0 < max 0 ((s.gate k).throttle.lockedUntil - s.now) := of_decide_eq_false h
  have := le_max_right 0 ((s.gate k).throttle.lockedUntil - s.now)
  linarith

theorem sound_set {k' : Door} {g : Gate} (h : Sound s.now (s.gate k)) (hg : k' = k → Sound s.now g) :
    Sound (s.set k' g).now ((s.set k' g).gate k) := by
  show Sound s.now (Function.update s.gate k' g k)
  by_cases hk : k = k'
  · subst hk
    rw [Function.update_self]
    exact hg rfl
  · rw [Function.update_of_ne hk]
    exact h

theorem step_sound {l : Label} (h : Sound s.now (s.gate k)) (hok : Spaced k s l) (hwrong : l ≠ .verify k true)
    (hst : step s l = some s') : Sound s'.now (s'.gate k) := by
  cases l with
  | tick seconds =>
    simp only [step] at hst
    split at hst
    · cases hst
      exact h.tick ‹_›
    · cases hst
  | login k' =>
    simp only [step] at hst
    split at hst
    · cases hst
      exact h
    · rename_i hlocked
      cases hst
      refine sound_set h fun hk => ?_
      subst hk
      have hopen := Bool.eq_false_iff.2 hlocked
      exact h.pass (not_locked hopen) (hok rfl hopen)
  | unknown nickname =>
    simp only [step] at hst
    split at hst
    · cases hst
      exact h
    · rename_i hlocked
      cases hst
      refine sound_set h fun hk => ?_
      subst hk
      have hopen := Bool.eq_false_iff.2 hlocked
      exact h.unknown (not_locked hopen) (hok rfl hopen)
  | verify k' correct =>
    simp only [step] at hst
    split at hst
    · rename_i hwaiting
      cases hst
      refine sound_set h fun hk => ?_
      subst hk
      obtain rfl : correct = false := by
        cases correct with
        | false => rfl
        | true => exact absurd rfl hwrong
      exact h.verify hwaiting
    · cases hst
  | resume k' i =>
    obtain ⟨g, hg, rfl⟩ := Option.map_eq_some_iff.1 hst
    refine sound_set h fun hk => ?_
    subst hk
    exact h.resume hg

variable {t : ℚ} {labels : List Label}

theorem run_sound (hrun : Lts.Run step (Spaced k) (.start t) labels s) (hwrong : ∀ l ∈ labels, l ≠ .verify k true) :
    Sound s.now (s.gate k) :=
  (hrun.restrict hwrong).invariant (sound_fresh t) fun _ _ _ hi hok hst => step_sound hi hok.1 hok.2 hst

/-- **While no login gets past the lock with five in flight and counted together, a half-open minute holds at most
five wrong passwords.** -/
theorem five_wrong_a_minute (hrun : Lts.Run step (Spaced k) (.start t) labels s)
    (hwrong : ∀ l ∈ labels, l ≠ .verify k true) (a : ℚ) :
    (s.gate k).wrongIn a ≤ 5 := (run_sound hrun hwrong).bound a

/-- Five logins one after the other and a sixth that is locked out. -/
theorem five_wrong_a_minute_desk : ∃ s, Lts.Run step (Spaced .desk) (.start 0)
    ((List.replicate 5 [Label.login .desk, .tick 1, .verify .desk false, .resume .desk 0]).flatten ++ [.login .desk])
      s ∧
    (s.gate .desk).wrongIn 0 ≤ 5 := by
  obtain ⟨s, hrun, -⟩ : ∃ s, Lts.Run step (Spaced .desk) (.start 0)
    ((List.replicate 5 [Label.login .desk, .tick 1, .verify .desk false, .resume .desk 0]).flatten ++ [.login .desk])
      s ∧ True :=
    Lts.exists_run (by decide +kernel)
  exact ⟨s, hrun, five_wrong_a_minute hrun (by decide +kernel) 0⟩

/-- Six logins that all look at the lock before one is counted: six wrong passwords in one minute. -/
theorem six_wrong_together : ∃ s, Lts.Run step Lts.anyStep (.start 0)
    (List.replicate 6 (Label.login .desk) ++ List.replicate 6 (Label.verify .desk false)) s ∧
      (s.gate .desk).wrongIn 0 = 6 :=
  Lts.exists_run (by decide +kernel)

/-- A login that finds nothing in flight is spaced: one after the other, the bound holds. -/
theorem spaced_of_idle (hrun : Lts.Run step (Spaced k) (.start t) labels s) (hwrong : ∀ l ∈ labels, l ≠ .verify k true)
    (hidle : (s.gate k).inFlight = 0) (l : Label) : Spaced k s l := by
  have hshort := (run_sound hrun hwrong).short
  have hlt : (s.gate k).inFlight + (s.gate k).throttle.fails.length < FAIL_LIMIT := by
    rw [hidle, Nat.zero_add]
    exact hshort
  cases l with
  | login _ => exact fun _ _ => hlt
  | unknown _ => exact fun _ _ => hlt
  | _ => trivial

end Runs

end Auth
