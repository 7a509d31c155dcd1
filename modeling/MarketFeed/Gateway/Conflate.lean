import MarketFeed.Lib.Coalesce
import MarketFeed.Gateway.Subscriber
/-!
# Conflation starves nobody, unless overflow takes a key (services/tcp_gateway.py:179-238, :298-316)

`_drop_overflowed` takes the oldest item off the queue and never looks at `pending`. Where that item is a key,
its value stays behind: later frames of the symbol replace it there, and nothing sends it any more.
-/

namespace Gateway

open Coalesce

variable {P : Type}

def Item.key? : Item P → Option String
  | .raw _ _ => none
  | .key k => some k

def Item.isKey (k : String) : Item P → Bool
  | .raw _ _ => false
  | .key k' => decide (k' = k)

/-- The keys that wait. -/
def Sub.keys (s : Sub P) : List String := s.queue.filterMap Item.key?

def Written.frameOf (k : String) : Written P → Option (Frame P)
  | .frame _ f => if keyOf f = some k then some f else none
  | _ => none

/-- The last frame sent of a key. -/
def Sub.lastSent (k : String) (s : Sub P) : Option (Frame P) := (s.written.filterMap (Written.frameOf k)).getLast?

theorem countP_isKey (k : String) (queue : List (Item P)) :
    queue.countP (Item.isKey k) = (queue.filterMap Item.key?).count k := by
  induction queue with
  | nil => rfl
  | cons i queue ih =>
    cases i with
    | raw seq f =>
      show List.countP _ (_ :: _) = (queue.filterMap Item.key?).count k
      rw [List.countP_cons_of_neg Bool.false_ne_true, ih]
    | key k' =>
      show List.countP _ (_ :: _) = (k' :: queue.filterMap Item.key?).count k
      rw [List.countP_cons, List.count_cons, ih]
      simp [Item.isKey]

/-! ## The queue and the values held for it -/

structure Conflating (s : Sub P) : Prop where
  lockstep : Lockstep s.keys s.pending
  keyed : ∀ k f, pendingOf k s.pending = some f → keyOf f = some k
  plain : s.mode = .conflate → ∀ seq f, .raw seq f ∈ s.queue → keyOf f = none
  stream : s.mode = .stream → s.latest = []
  latest : ∀ k f, pendingOf k s.latest = some f → pendingOf k s.pending = some f ∨ pendingOf k s.pending = none ∧
    s.lastSent k = some f

theorem conflating_connected (ent : Entitlements) (last : List (String × Frame P)) :
    Conflating (Sub.connected ent last) :=
  ⟨.nil, fun _ _ h => (by cases h), fun _ _ _ h => (by cases h), fun _ => rfl, fun _ _ h => (by cases h)⟩

/-- A numbered frame at the head of the queue is the only loss the invariant survives. -/
theorem Conflating.room {size : ℤ} {s : Sub P} (h : Conflating s) (hraw : s.full size = true →
    s.queue.head?.all Item.isRaw = true) :
    Conflating (s.room size) := by
  unfold Sub.room
  split
  · rename_i hfull
    obtain ⟨symbols, queue, pending, mode, outSeq, dropped, conflated, token, written, cut, lost, discarded,
        latest⟩ := s
    cases queue with
    | nil => exact ⟨h.lockstep, h.keyed, h.plain, h.stream, h.latest⟩
    | cons i queue =>
      cases i with
      | key k => cases hraw hfull
      | raw seq f => exact ⟨h.lockstep, h.keyed, fun hm seq f hin => h.plain hm seq f (List.mem_cons_of_mem _ hin),
          h.stream, h.latest⟩
  · exact h

theorem Conflating.offerRaw {size : ℤ} {f : Frame P} {s : Sub P} (h : Conflating s) (hkey : s.mode = .conflate →
    keyOf f = none)
    (hraw : s.full size = true → s.queue.head?.all Item.isRaw = true) : Conflating (s.offerRaw size f) := by
  have hr : Conflating (Sub.room size { s with outSeq := s.outSeq + 1 }) :=
    Conflating.room ⟨h.lockstep, h.keyed, h.plain, h.stream, h.latest⟩ hraw
  have hmode : (Sub.room size { s with outSeq := s.outSeq + 1 }).mode = s.mode := by
    unfold Sub.room
    split <;> rfl
  unfold Sub.offerRaw
  generalize Sub.room size { s with outSeq := s.outSeq + 1 } = r at hr hmode
  simp only
  split
  · exact ⟨hr.lockstep, hr.keyed, hr.plain, hr.stream, hr.latest⟩
  · have hkeys : (r.queue ++ [Item.raw s.outSeq f]).filterMap Item.key? = r.keys := by
      rw [List.filterMap_append]
      exact List.append_nil _
    refine ⟨?_, hr.keyed, fun hm seq f' hin => ?_, hr.stream, hr.latest⟩
    · show Lockstep ((r.queue ++ [Item.raw s.outSeq f]).filterMap Item.key?) r.pending
      rw [hkeys]
      exact hr.lockstep
    · rcases List.mem_append.1 hin with hin | hin
      · exact hr.plain hm seq f' hin
      · cases List.mem_singleton.1 hin
        exact hkey (hmode.symm.trans hm)

theorem Conflating.offerKey {size : ℤ} {k : String} {f : Frame P} {s : Sub P} (h : Conflating s)
    (hm : s.mode = .conflate)
    (hkey : keyOf f = some k) (hraw : (pendingOf k s.pending).isSome = false → s.full size = true →
      s.queue.head?.all Item.isRaw = true) :
    Conflating (s.offerKey size k f) := by
  have hset (pending : List (String × Frame P)) (hkeyed : ∀ k f, pendingOf k pending = some f → keyOf f = some k) :
      ∀ k' f', pendingOf k' (setPending k f pending) = some f' → keyOf f' = some k' := by
    intro k' f' h'
    rw [pendingOf_set] at h'
    split at h'
    · cases h'
      exact ‹k = k'› ▸ hkey
    · exact hkeyed k' f' h'
  have hlatest (r : Sub P) (hr : Conflating r) : ∀ k' f', pendingOf k' (setPending k f r.latest) = some f' →
      pendingOf k' (setPending k f r.pending) = some f' ∨ pendingOf k' (setPending k f r.pending) = none ∧
      r.lastSent k' = some f' := by
    intro k' f' h'
    rw [pendingOf_set] at h' ⊢
    by_cases hk : k = k'
    · rw [if_pos hk] at h' ⊢
      exact .inl h'
    · rw [if_neg hk] at h' ⊢
      exact hr.latest k' f' h'
  have hstream (r : Sub P) (hr : r.mode = .conflate) (latest : List (String × Frame P)) : r.mode = .stream →
      latest = [] := by
    intro hs
    rw [hr] at hs
    cases hs
  unfold Sub.offerKey
  split
  · rename_i hpend
    refine ⟨h.lockstep.replace f ?_, hset s.pending h.keyed, h.plain, hstream s hm _, hlatest s h⟩
    rw [← pendingOf_isSome]
    exact hpend
  · rename_i hpend
    have hpend := Bool.eq_false_iff.2 hpend
    have hr := h.room (hraw hpend)
    have hsame : (s.room size).mode = s.mode ∧ (s.room size).pending = s.pending := by
      unfold Sub.room
      split <;> exact ⟨rfl, rfl⟩
    generalize s.room size = r at hr hsame
    obtain ⟨hmode, hpending⟩ := hsame
    simp only
    split
    · exact hr
    · refine ⟨?_, hset r.pending hr.keyed, fun hm seq f' hin => ?_, hstream r (hmode.trans hm) _, hlatest r hr⟩
      · have hkeys : (r.queue ++ [Item.key k]).filterMap Item.key? = r.keys ++ [k] := List.filterMap_append ..
        show Lockstep ((r.queue ++ [Item.key k]).filterMap Item.key?) _
        rw [hkeys]
        apply hr.lockstep.put f
        rw [hpending, ← pendingOf_isSome]
        exact hpend
      · rcases List.mem_append.1 hin with hin | hin
        · exact hr.plain hm seq f' hin
        · cases List.mem_singleton.1 hin

theorem lastSent_snoc (k : String) (written : List (Written P)) (seq : ℕ) (f : Frame P) :
    ((written ++ [Written.frame seq f]).filterMap (Written.frameOf k)).getLast? =
      if keyOf f = some k then some f else (written.filterMap (Written.frameOf k)).getLast? := by
  rw [List.filterMap_append]
  by_cases hk : keyOf f = some k
  · have hlast : [Written.frame seq f].filterMap (Written.frameOf k) = [f] := by simp [Written.frameOf, hk]
    rw [hlast, if_pos hk, List.getLast?_concat]
  · have hlast : [Written.frame seq f].filterMap (Written.frameOf k) = [] := by simp [Written.frameOf, hk]
    rw [hlast, if_neg hk, List.append_nil]

theorem Conflating.sendOne {s s' : Sub P} (h : Conflating s) (hs : s.sendOne = some s') : Conflating s' := by
  obtain ⟨symbols, queue, pending, mode, outSeq, dropped, conflated, token, written, cut, lost, discarded, latest⟩ := s
  cases queue with
  | nil => cases hs
  | cons i queue =>
    have hplain : mode = .conflate → ∀ seq f, .raw seq f ∈ queue → keyOf f = none :=
      fun hm seq f hin => h.plain hm seq f (List.mem_cons_of_mem i hin)
    cases i with
    | raw seq f =>
      cases hs
      refine ⟨h.lockstep, h.keyed, hplain, h.stream, fun k f' hk => ?_⟩
      -- in stream mode nothing is conflated; while conflating, a numbered frame has no key
      cases mode with
      | stream =>
        have hnil : latest = [] := h.stream rfl
        rw [hnil] at hk
        cases hk
      | conflate =>
        have hkey : keyOf f = none := h.plain rfl seq f List.mem_cons_self
        have hsent : ((written ++ [Written.frame seq f]).filterMap (Written.frameOf k)).getLast? =
            (written.filterMap (Written.frameOf k)).getLast? := by
          rw [lastSent_snoc, hkey, if_neg (by simp)]
        rcases h.latest k f' hk with h1 | ⟨h1, h2⟩
        · exact .inl h1
        · exact .inr ⟨h1, hsent.trans h2⟩
    | key k =>
      have hpop : Lockstep (queue.filterMap Item.key?) (Keyed.erase Prod.fst k pending) := by
        have hall : Lockstep (k :: queue.filterMap Item.key?) pending := h.lockstep
        exact hall.take
      have hsome : (pendingOf k pending).isSome := by
        have hall : Lockstep (k :: queue.filterMap Item.key?) pending := h.lockstep
        rw [pendingOf_isSome]
        exact (hall.same k).1 List.mem_cons_self
      simp only [Sub.sendOne] at hs
      split at hs
      · rename_i hnone
        rw [hnone] at hsome
        cases hsome
      · rename_i f hf
        cases hs
        refine ⟨hpop, fun k' f' hk' => ?_, hplain, h.stream, fun k' f' hk' => ?_⟩
        · rw [pendingOf_erase] at hk'
          split at hk'
          · cases hk'
          · exact h.keyed k' f' hk'
        · have hkey : keyOf f = some k := h.keyed k f hf
          show pendingOf k' (Keyed.erase Prod.fst k pending) = some f' ∨
              pendingOf k' (Keyed.erase Prod.fst k pending) = none ∧
            ((written ++ [Written.frame outSeq f]).filterMap (Written.frameOf k')).getLast? = some f'
          rw [pendingOf_erase, lastSent_snoc, hkey]
          by_cases hkk : k' = k
          · subst hkk
            rw [if_pos rfl, if_pos rfl]
            have hlast := h.latest k' f' hk'
            simp only [hf, reduceCtorEq, false_and, or_false] at hlast
            exact .inr ⟨rfl, hlast⟩
          · rw [if_neg hkk, if_neg (fun he => hkk (Option.some.inj he).symm)]
            exact h.latest k' f' hk'

theorem Conflating.answered {s : Sub P} (h : Conflating s) (token : String) (a : Answer Sym) :
    Conflating (s.answered token a) := by
  have hsent (k : String) : (s.answered token a).lastSent k = s.lastSent k := by
    unfold Sub.lastSent Sub.answered
    simp only
    split
    · rw [List.filterMap_append]
      exact congrArg List.getLast? (List.append_nil _)
    · rfl
  exact ⟨h.lockstep, h.keyed, h.plain, h.stream, fun k f hk => by rw [hsent k]; exact h.latest k f hk⟩

/-- Nothing waits after a change of mode. -/
theorem Conflating.changeMode {s : Sub P} (h : Conflating s) (mode : Option Mode) : Conflating (s.changeMode mode) := by
  unfold Sub.changeMode
  split
  · exact h
  · split
    · exact h
    · exact ⟨.nil, fun _ _ h => (by cases h), fun _ _ _ h => (by cases h), fun _ => rfl, fun _ _ h => (by cases h)⟩

theorem Conflating.subscribe {ent : Entitlements} {r : Request} {s s' : Sub P} (h : Conflating s)
    (hs : s.subscribe ent r = some s') : Conflating s' :=
  Sub.subscribe_keeps (I := Conflating) (fun _ token a h => h.answered token a) (fun _ mode h => h.changeMode mode) h hs

/-! ## Where overflow takes a key -/

/-- Does offering the frame come to `queue.full()`? -/
def Sub.asksRoom (f : Frame P) (s : Sub P) : Bool :=
  !s.cut && match keyOf f with
    | none => true
    | some k => wants s.symbols k && !(decide (s.mode = .conflate) && (pendingOf k s.pending).isSome)

/-- The oldest item of the full queue is a key. -/
def Sub.losesKey (size : ℤ) (f : Frame P) (s : Sub P) : Bool :=
  s.asksRoom f && s.full size && !s.queue.head?.all Item.isRaw

theorem Conflating.offer {size : ℤ} {f : Frame P} {s : Sub P} (h : Conflating s) (hlose : s.losesKey size f = false) :
    Conflating (s.offer size f) := by
  have hraw : s.asksRoom f = true → s.full size = true → s.queue.head?.all Item.isRaw = true := by
    intro hask hfull
    unfold Sub.losesKey at hlose
    rw [hask, hfull] at hlose
    simpa using hlose
  unfold Sub.offer
  split
  · exact h
  · rename_i hcut
    split
    · rename_i hkey
      exact h.offerRaw (fun _ => hkey) (hraw (by simp [Sub.asksRoom, hcut, hkey]))
    · rename_i k hkey
      split
      · exact h
      · rename_i hwants
        split
        · rename_i hm
          exact h.offerKey hm hkey fun hpend => hraw (by simp_all [Sub.asksRoom])
        · rename_i hm
          refine h.offerRaw (fun hc => ?_) (hraw (by simp_all [Sub.asksRoom]))
          rw [hm] at hc
          cases hc

/-- A key that overflow takes leaves its value behind. -/
theorem losesKey_tears {size : ℤ} {f : Frame P} {s : Sub P} (h : Lockstep s.keys s.pending)
    (hlose : s.losesKey size f = true) :
    ¬ Lockstep (s.room size).keys (s.room size).pending := by
  obtain ⟨symbols, queue, pending, mode, outSeq, dropped, conflated, token, written, cut, lost, discarded, latest⟩ := s
  simp only [Sub.losesKey, Bool.and_eq_true, Bool.not_eq_true'] at hlose
  unfold Sub.room
  rw [if_pos hlose.1.2]
  cases queue with
  | nil => cases hlose.2
  | cons i queue =>
    cases i with
    | raw seq f => cases hlose.2
    | key k =>
      have hall : Lockstep (k :: queue.filterMap Item.key?) pending := h
      exact hall.tear

/-! ## Nothing starves -/

/-- No publish makes room for `id` by taking a key. -/
def keepsKeys (size : ℤ) (id : ℕ) (g : State P) : Label P → Prop
  | .publish f => (g.subs id).all (fun s => !s.losesKey size f) = true
  | _ => True

instance (size : ℤ) (id : ℕ) (g : State P) : (l : Label P) → Decidable (keepsKeys size id g l)
  | .publish _ => inferInstanceAs (Decidable (_ = true))
  | .connect => .isTrue trivial
  | .subscribe _ _ => .isTrue trivial
  | .send _ => .isTrue trivial
  | .hangup _ => .isTrue trivial

/-- **Conflation starves nobody while overflow takes no key.** A key has a value held for it exactly when it
waits in the queue, once. When the queue has drained, the last frame queued of each key has been sent, and a
later one is queued again. -/
theorem conflation_starves_nobody (ent : Entitlements) (size : ℤ) (id : ℕ)
    {labels : List (Label P)} {g : State P} {s : Sub P}
    (h : Lts.Run (step ent size) (keepsKeys size id) .start labels g) (hs : g.subs id = some s) :
    (∀ k, (pendingOf k s.pending).isSome ↔ s.queue.countP (Item.isKey k) = 1) ∧
      (s.queue = [] →
        (∀ k f, pendingOf k s.latest = some f → s.lastSent k = some f) ∧
        (s.mode = .conflate → s.cut = false → ∀ f k, keyOf f = some k → wants s.symbols k = true →
          (s.offer size f).queue = [.key k] ∧ pendingOf k (s.offer size f).pending = some f)) := by
  have hc : Conflating s := by
    refine run_subs (conflating_connected ent) (fun g s f hok hs hi => hi.offer ?_)
      (fun _ _ _ _ _ hi h => hi.subscribe h)
      (fun _ _ hi h => hi.sendOne h) h hs
    have hok : (g.subs id).all (fun s => !s.losesKey size f) = true := hok
    rw [hs] at hok
    simpa using hok
  have hcount (k : String) : (pendingOf k s.pending).isSome ↔ s.queue.countP (Item.isKey k) = 1 := by
    rw [countP_isKey, pendingOf_isSome]
    exact hc.lockstep.count k
  refine ⟨hcount, fun hq => ?_⟩
  have hnone (k : String) : pendingOf k s.pending = none := by
    cases hp : pendingOf k s.pending with
    | none => rfl
    | some f =>
      have := (hcount k).1 (by rw [hp]; rfl)
      rw [hq] at this
      cases this
  refine ⟨fun k f hk => ?_, fun hm hcut f k hkey hwants => ?_⟩
  · rcases hc.latest k f hk with h1 | ⟨-, h2⟩
    · rw [hnone k] at h1
      cases h1
    · exact h2
  · have hfull : s.full size = false := by
      unfold Sub.full
      rw [hq, Bool.and_eq_false_iff]
      by_cases hsize : 0 < size
      · exact .inr (by simp; omega)
      · exact .inl (by simp [hsize])
    have hroom : s.room size = s := by
      unfold Sub.room
      rw [hfull]
      rfl
    unfold Sub.offer
    rw [hcut, hkey]
    simp only [hwants, hm, Sub.offerKey, hnone k, hroom, hcut, Bool.not_true, Bool.false_eq_true, if_false,
      Option.isSome_none]
    refine ⟨by rw [hq]; rfl, ?_⟩
    rw [pendingOf_set, if_pos rfl]

/-- Two symbols through a queue of two, one of them coalesced. -/
def drained : List (Label ℕ) :=
  [.connect, .subscribe 0 (.request "" none (some .conflate)), .publish (trade "A" 1), .publish (trade "B" 2),
    .publish (trade "A" 3), .send 0, .send 0]

theorem conflation_starves_nobody_drained : ∃ (g : State ℕ) (s : Sub ℕ), Lts.Run (step ⟨[], false⟩ 2)
    (keepsKeys 2 0) .start drained g ∧
    g.subs 0 = some s ∧ s.lastSent "UPBIT:A" = some (trade "A" 3) ∧ s.lastSent "UPBIT:B" = some (trade "B" 2) ∧
    (s.offer 2 (trade "A" 4)).queue = [.key "UPBIT:A"] := by
  obtain ⟨g, s, hg, hs, hq, hm, hcut, hwants, ha, hb⟩ : ∃ g s, Lts.Run (step ⟨[], false⟩ 2)
      (keepsKeys 2 0) .start drained g ∧
    g.subs 0 = some s ∧ s.queue = [] ∧ s.mode = .conflate ∧ s.cut = false ∧ wants s.symbols "UPBIT:A" = true ∧
      pendingOf "UPBIT:A" s.latest = some (trade "A" 3) ∧ pendingOf "UPBIT:B" s.latest = some (trade "B" 2) :=
    Lts.exists_run_some (by decide +kernel)
  obtain ⟨hsent, hagain⟩ := (conflation_starves_nobody ⟨[], false⟩ 2 0 hg hs).2 hq
  exact ⟨g, s, hg, hs, hsent _ _ ha, hsent _ _ hb, (hagain hm hcut (trade "A" 4) "UPBIT:A" (by decide) hwants).1⟩

/-- A queue of one: the second symbol pushes the key of the first out. -/
def starved : List (Label ℕ) :=
  [.connect, .subscribe 0 (.request "" none (some .conflate)), .publish (trade "A" 1), .publish (trade "B" 2), .send 0]

/-- The queue has drained, the first symbol is still held, and its next frame is not queued. -/
theorem overflow_starves : ∃ (g : State ℕ) (s : Sub ℕ), Lts.Run (step ⟨[], false⟩ 1) Lts.anyStep .start starved g ∧
    g.subs 0 = some s ∧
    s.queue = [] ∧ (pendingOf "UPBIT:A" s.pending).isSome ∧ s.queue.countP (Item.isKey "UPBIT:A") = 0 ∧
    wants s.symbols "UPBIT:A" = true ∧
    s.lastSent "UPBIT:A" = none ∧ (s.offer 1 (trade "A" 3)).queue = [] :=
  Lts.exists_run_some (by decide +kernel)

end Gateway
