import MarketFeed.Gateway.Cpp
import MarketFeed.Lib.Latest
/-!
# Only what is granted is queued (entitlements.py:46-67, tcp_gateway.py:207-251, :318-361, tcp_gateway.cpp:457-493,
:576-611)

With entitlements on, a subscriber begins with an empty filter, so its snapshot is empty, and a filter that a
request sets lets through no more than the token of the request is granted.
-/

namespace Gateway

/-- The token is known and granted everything, or the symbol. -/
def Entitlements.Granted (e : Entitlements) (token key : String) : Prop :=
  token ≠ "" ∧ e.known token = true ∧ (ALL ∈ e.allowed token ∨ key ∈ e.allowed token)

theorem granted_of_grants {e : Entitlements} (he : e.enabled = true)
    {token key : String} (h : e.grants token key = true) : e.Granted token key := by
  unfold Entitlements.grants Entitlements.allowsAll at h
  simp only [he, Bool.not_true, Bool.false_or, Bool.and_eq_true, Bool.or_eq_true, decide_eq_true_eq] at h
  obtain ⟨htoken, hall⟩ := h
  refine ⟨htoken, ?_, hall⟩
  unfold Entitlements.known
  cases hl : e.lookup token with
  | some l => rfl
  | none =>
    unfold Entitlements.allowed at hall
    rw [hl] at hall
    rcases hall with h | h <;> cases h

/-! ## The Python gateway -/

section

variable {P : Type} {ent : Entitlements} {size : ℤ}

/-- The token of a request of `id`. -/
def askedToken (id : ℕ) : Label P → Option String
  | .subscribe id' (.request token _ _) => if id' = id then some token else none
  | _ => none

/-- The token of the latest request, empty before the first. -/
def latestToken (id : ℕ) (labels : List (Label P)) : String := (labels.filterMap (askedToken id)).getLast?.getD ""

/-- Nothing but the snapshot comes from the table of the last values, and the filter grants no more than the token. -/
structure Narrow (ent : Entitlements) (s : Sub P) : Prop where
  filter : ∀ k, wants s.symbols k = true → ent.grants s.token k = true
  snapshot : ∀ t p, .snapshot t p ∉ s.written

theorem narrow_connected (he : ent.enabled = true) (last : List (String × Frame P)) :
    Narrow ent (Sub.connected ent last) := by
  have hnone : (last.filter fun r => wants (some []) r.1) = [] := List.filter_eq_nil_iff.2 fun r _ h => by cases h
  unfold Sub.connected
  rw [he, if_pos rfl]
  simp only [hnone]
  exact ⟨fun k hk => (by cases hk), fun t p hin => (by cases List.mem_singleton.1 hin)⟩

theorem offer_symbols (f : Frame P) (s : Sub P) :
    (s.offer size f).symbols = s.symbols ∧ (s.offer size f).token = s.token ∧ (s.offer size f).written = s.written := by
  have hroom (s : Sub P) : (s.room size).symbols = s.symbols ∧ (s.room size).token = s.token ∧
      (s.room size).written = s.written := by
    unfold Sub.room
    split <;> exact ⟨rfl, rfl, rfl⟩
  have hraw : (s.offerRaw size f).symbols = s.symbols ∧ (s.offerRaw size f).token = s.token ∧
      (s.offerRaw size f).written = s.written := by
    unfold Sub.offerRaw
    simp only
    split <;> exact hroom _
  unfold Sub.offer
  split
  · exact ⟨rfl, rfl, rfl⟩
  · split
    · exact hraw
    · split
      · exact ⟨rfl, rfl, rfl⟩
      · split
        · unfold Sub.offerKey
          split
          · exact ⟨rfl, rfl, rfl⟩
          · simp only
            split <;> exact hroom _
        · exact hraw

theorem Narrow.subscribe {r : Request} {s s' : Sub P} (h : Narrow ent s) (hs : s.subscribe ent r = some s') :
    Narrow ent s' := by
  cases r with
  | ignored =>
    cases hs
    exact h
  | broken => cases hs
  | request token symbols mode =>
    obtain ⟨a, ha, rfl⟩ := Option.map_eq_some_iff.1 hs
    obtain ⟨hsymbols, htoken, hwritten⟩ := Sub.changeMode_symbols mode (s.answered token a)
    refine ⟨fun k hk => ?_, fun t p hin => ?_⟩
    · rw [hsymbols] at hk
      rw [htoken]
      exact resolve_grants ha hk
    · rw [hwritten] at hin
      unfold Sub.answered at hin
      simp only at hin
      split at hin
      · rcases List.mem_append.1 hin with hin | hin
        · exact h.snapshot t p hin
        · cases List.mem_singleton.1 hin
      · exact h.snapshot t p hin

theorem Narrow.sendOne {s s' : Sub P} (h : Narrow ent s) (hs : s.sendOne = some s') : Narrow ent s' := by
  have hsnoc (seq : ℕ) (f : Frame P) : ∀ t p, .snapshot t p ∉ s.written ++ [.frame seq f] := by
    intro t p hin
    rcases List.mem_append.1 hin with hin | hin
    · exact h.snapshot t p hin
    · cases List.mem_singleton.1 hin
  unfold Sub.sendOne at hs
  split at hs
  · cases hs
  · cases hs
    exact ⟨h.filter, hsnoc _ _⟩
  · split at hs
    · cases hs
      exact ⟨h.filter, h.snapshot⟩
    · cases hs
      exact ⟨h.filter, hsnoc _ _⟩

/-- A frame that the filter does not want leaves the subscriber as it is. -/
theorem offer_unwanted {f : Frame P} {k : String} {s : Sub P} (hkey : keyOf f = some k)
    (hw : wants s.symbols k = false) : s.offer size f = s := by
  unfold Sub.offer
  rw [hkey]
  simp only [hw, Bool.not_false, if_true]
  split <;> rfl

theorem askedToken_none {id : ℕ} {l : Label P} (h : ∀ r, l ≠ .subscribe id r) : askedToken id l = none := by
  unfold askedToken
  split
  · rename_i id' token symbols mode
    apply if_neg
    rintro rfl
    exact h _ rfl
  · rfl

theorem sendOne_token {s s' : Sub P} (hs : s.sendOne = some s') : s'.token = s.token := by
  unfold Sub.sendOne at hs
  split at hs
  · cases hs
  · cases hs
    rfl
  · split at hs <;> (cases hs; rfl)

theorem nextId_le {g g' : State P} {l : Label P} (h : step ent size g l = some g') : g.nextId ≤ g'.nextId := by
  cases l with
  | publish f =>
    cases h
    exact Nat.le_refl _
  | connect =>
    cases h
    exact Nat.le_succ _
  | subscribe id r =>
    simp only [step] at h
    split at h
    · cases h
    · cases h
      exact Nat.le_refl _
  | send id =>
    simp only [step] at h
    split at h
    · cases h
    · obtain ⟨_, _, rfl⟩ := Option.map_eq_some_iff.1 h
      exact Nat.le_refl _
  | hangup id =>
    cases h
    exact Nat.le_refl _

/-- Only a request of its own changes the token of a subscriber. -/
theorem token_kept {g g' : State P} {l : Label P} {id : ℕ} {s s' : Sub P} (h : step ent size g l = some g')
    (hid : id < g.nextId)
    (hs : g.subs id = some s) (hs' : g'.subs id = some s') : s'.token = (askedToken id l).getD s.token := by
  cases step_move h hs' with
  | stays hstay hl =>
    rw [askedToken_none hl, Option.getD_none, Option.some.inj (hs.symm.trans hstay)]
  | connected _ hnext _ => omega
  | offered s0 f hs0 hl hoff =>
    subst hl
    rw [hoff, ← Option.some.inj (hs.symm.trans hs0)]
    exact (offer_symbols f s).2.1
  | subscribed s0 r hs0 hl hsub =>
    subst hl
    rw [← Option.some.inj (hs.symm.trans hs0)] at hsub
    cases r with
    | ignored =>
      cases hsub
      rfl
    | broken => cases hsub
    | request token symbols mode =>
      obtain ⟨a, -, rfl⟩ := Option.map_eq_some_iff.1 hsub
      rw [(Sub.changeMode_symbols mode (s.answered token a)).2.1]
      simp [askedToken, Sub.answered]
  | sent s0 hs0 hl hsend =>
    subst hl
    rw [← Option.some.inj (hs.symm.trans hs0)] at hsend
    exact sendOne_token hsend

/-- Ids are given out once, and a request sets the token. -/
theorem parties : Lts.Parties (step (P := P) ent size) State.subs State.nextId askedToken Sub.token "" where
  next_le := nextId_le
  born := by
    intro g g' l id s h hnone hs
    cases step_move h hs with
    | stays hs' _ =>
      rw [hnone] at hs'
      cases hs'
    | connected hc hid hl =>
      subst hl
      cases h
      refine ⟨hid, ?_, hc ▸ rfl⟩
      rw [hid]
      exact Nat.lt_succ_self _
    | offered s0 f hs0 _ _ =>
      rw [hnone] at hs0
      cases hs0
    | subscribed s0 r hs0 _ _ =>
      rw [hnone] at hs0
      cases hs0
    | sent s0 hs0 _ _ =>
      rw [hnone] at hs0
      cases hs0
  absent := by
    intro g g' l id h hnone
    apply askedToken_none
    rintro r rfl
    simp only [step, hnone] at h
    cases h
  kept := token_kept

end

/-! ## The C++ gateway -/

namespace Cpp

variable {ent : Entitlements} {cfg : Cfg}

def askedToken (id : ℕ) : Label → Option String
  | .subscribe id' json => if id' = id ∧ looksLikeJsonObject json = true then some ((jsonString json "token").getD "")
      else none
  | _ => none

def latestToken (id : ℕ) (labels : List Label) : String := (labels.filterMap (askedToken id)).getLast?.getD ""

/-- The only frames out of the numbering are the end of the snapshot and answers. -/
structure Narrow (ent : Entitlements) (s : Sub) : Prop where
  filter : ∀ k, wants s.symbols k = true → ent.grants s.token k = true
  snapshot : ∀ m, .plain m ∈ s.placed → m.msgType = MSG_SNAPSHOT ∨ m.msgType = MSG_ACK

/-- The filter and the token are the same, and out of the numbering nothing new is placed. -/
structure SameRights (s r : Sub) : Prop where
  symbols : r.symbols = s.symbols
  token : r.token = s.token
  placed : ∀ m : Msg, .plain m ∈ r.placed → .plain m ∈ s.placed

theorem Narrow.of_same {s s' : Sub} (h : Narrow ent s) (hsame : SameRights s s') : Narrow ent s' :=
  ⟨by rw [hsame.symbols, hsame.token]; exact h.filter, fun m hm => h.snapshot m (hsame.placed m hm)⟩

theorem narrow_accepted (he : ent.enabled = true) (order : List (String × Msg)) (ts : ℕ) :
    Narrow ent (Sub.accepted ent order ts) := by
  have hnone : (order.filter fun r => wants (some []) r.1) = [] := List.filter_eq_nil_iff.2 fun r _ h => by cases h
  unfold Sub.accepted
  rw [he, if_pos rfl]
  simp only [hnone]
  refine ⟨fun k hk => (by cases hk), fun m hm => ?_⟩
  cases List.mem_singleton.1 hm
  exact .inl rfl

theorem room_symbols (cfg : Cfg) (s : Sub) : (s.room cfg).symbols = s.symbols ∧ (s.room cfg).token = s.token ∧
    (s.room cfg).placed = s.placed := by
  unfold Sub.room
  split
  · show s.dropOldest.symbols = _ ∧ s.dropOldest.token = _ ∧ s.dropOldest.placed = _
    unfold Sub.dropOldest
    split <;> exact ⟨rfl, rfl, rfl⟩
  · exact ⟨rfl, rfl, rfl⟩

theorem SameRights.offer (f : Frame Bytes) (s : Sub) : SameRights s (s.offer cfg f) := by
  refine offer_keeps (I := SameRights s) ?_ ?_ ?_ ?_ ?_ ?_ ⟨rfl, rfl, fun _ hm => hm⟩
  · intro r h _
    obtain ⟨h1, h2, h3⟩ := room_symbols cfg r
    exact ⟨h1.trans h.symbols, h2.trans h.token, fun m hm => h.placed m (h3 ▸ hm)⟩
  · intro r _ _ _ _ h
    exact ⟨h.symbols, h.token, h.placed⟩
  · intro r h _
    exact ⟨h.symbols, h.token, h.placed⟩
  · intro r k h _ _
    exact ⟨h.symbols, h.token, h.placed⟩
  · intro r k h _ _ _
    exact ⟨h.symbols, h.token, h.placed⟩
  · intro r h _
    exact ⟨h.symbols, h.token, h.placed⟩

/-- A request sets its token and a filter no wider. -/
theorem applySubscribe_token (ent : Entitlements) {json : List Char} (hj : looksLikeJsonObject json = true) (s : Sub) :
    (s.applySubscribe ent json).token = (jsonString json "token").getD "" ∧
      (s.applySubscribe ent json).symbols = (answerTo ent json).filter ∧
      ∀ m, .plain m ∈ (s.applySubscribe ent json).placed → .plain m ∈ s.placed ∨ m.msgType = MSG_ACK := by
  unfold Sub.applySubscribe
  rw [hj]
  simp only [Bool.not_true, Bool.false_eq_true, if_false]
  split
  · obtain ⟨h1, h2, h3⟩ := Sub.changeMode_symbols ((jsonString json "mode").bind modeOf)
      { s with token := (jsonString json "token").getD "", symbols := (answerTo ent json).filter }
    exact ⟨h2, h1, fun m hm => .inl (h3 ▸ hm)⟩
  · split
    · exact ⟨rfl, rfl, fun m hm => .inl hm⟩
    · refine ⟨(Sub.changeMode_symbols _ _).2.1, (Sub.changeMode_symbols _ _).1, fun m hm => ?_⟩
      rw [(Sub.changeMode_symbols _ _).2.2] at hm
      rcases List.mem_append.1 hm with hm | hm
      · exact .inl hm
      · cases List.mem_singleton.1 hm
        exact .inr rfl

theorem applySubscribe_ignored (ent : Entitlements) {json : List Char} (hj : looksLikeJsonObject json = false)
    (s : Sub) :
    s.applySubscribe ent json = s := by
  unfold Sub.applySubscribe
  rw [hj]
  rfl

theorem Narrow.applySubscribe {json : List Char} {s : Sub} (h : Narrow ent s) :
    Narrow ent (s.applySubscribe ent json) := by
  cases hj : looksLikeJsonObject json with
  | false =>
    rw [applySubscribe_ignored ent hj]
    exact h
  | true =>
    obtain ⟨htoken, hsymbols, hplaced⟩ := applySubscribe_token ent hj s
    refine ⟨fun k hk => ?_, fun m hm => ?_⟩
    · rw [hsymbols] at hk
      rw [htoken]
      exact resolveCpp_grants hk
    · rcases hplaced m hm with hm | hm
      · exact h.snapshot m hm
      · exact .inr hm

/-- A numbered frame goes to the end of the buffer. -/
theorem SameRights.append {s r r' : Sub} (h : SameRights s r) {seq : ℕ} {m : Msg} (hsymbols : r'.symbols = r.symbols)
    (htoken : r'.token = r.token)
    (hplaced : r'.placed = r.placed ++ [.numbered seq m]) : SameRights s r' := by
  refine ⟨hsymbols.trans h.symbols, htoken.trans h.token, fun m' hm => ?_⟩
  rw [hplaced] at hm
  rcases List.mem_append.1 hm with hm | hm
  · exact h.placed m' hm
  · cases List.mem_singleton.1 hm

theorem SameRights.flush {sends : List Sending} {s s' : Sub} (hf : s.flush sends = some s') : SameRights s s' := by
  refine flush_keeps (I := SameRights s) ?_ ?_ ?_ ?_ ?_ ⟨rfl, rfl, fun _ hm => hm⟩ hf
  · intro r h _
    exact ⟨h.symbols, h.token, h.placed⟩
  · intro r item rest h _ _
    unfold Sub.takeKey
    split
    · exact h.append rfl rfl rfl
    · split
      · exact ⟨h.symbols, h.token, h.placed⟩
      · exact h.append rfl rfl rfl
  · intro r x rest h _ _
    exact h.append rfl rfl rfl
  · intro r n h _
    exact ⟨h.symbols, h.token, h.placed⟩
  · intro r h
    exact ⟨h.symbols, h.token, h.placed⟩

theorem offer_unwanted {f : Frame Bytes} {k : String} {s : Sub} (hkey : keyOf f = some k)
    (hw : wants s.symbols k = false) : s.offer cfg f = s := by
  unfold Sub.offer
  rw [hkey, Option.any_some, hw]
  split <;> rfl

theorem askedToken_none {id : ℕ} {l : Label} (h : ∀ json, l ≠ .subscribe id json) : askedToken id l = none := by
  unfold askedToken
  split
  · apply if_neg
    rintro ⟨rfl, -⟩
    exact h _ rfl
  · rfl

theorem nextId_le {g g' : State} {l : Label} (h : step ent cfg g l = some g') : g.nextId ≤ g'.nextId := by
  cases l with
  | publish f =>
    cases h
    exact Nat.le_refl _
  | accept order ts =>
    simp only [step] at h
    split at h
    · cases h
      exact Nat.le_succ _
    · cases h
  | subscribe id json =>
    simp only [step] at h
    split at h
    · cases h
    · cases h
      exact Nat.le_refl _
  | flush id sends =>
    simp only [step] at h
    split at h
    · cases h
    · obtain ⟨_, _, rfl⟩ := Option.map_eq_some_iff.1 h
      exact Nat.le_refl _
  | hangup id =>
    simp only [step] at h
    split at h
    · cases h
    · cases h
      exact Nat.le_refl _
  | sweep =>
    cases h
    exact Nat.le_refl _

/-- Only a request of its own changes the token of a subscriber. -/
theorem token_kept {g g' : State} {l : Label} {id : ℕ} {s s' : Sub} (h : step ent cfg g l = some g') (hid : id < g.nextId)
    (hs : g.subs id = some s) (hs' : g'.subs id = some s') : s'.token = (askedToken id l).getD s.token := by
  cases step_move h hs' with
  | stays hstay hl => rw [askedToken_none hl, Option.getD_none, Option.some.inj (hs.symm.trans hstay)]
  | accepted _ _ _ hnext _ => omega
  | offered s0 f hs0 hl hoff =>
    subst hl
    rw [hoff, ← Option.some.inj (hs.symm.trans hs0)]
    exact (SameRights.offer f s).token
  | subscribed s0 json hs0 hl hsub =>
    subst hl
    rw [hsub, ← Option.some.inj (hs.symm.trans hs0)]
    cases hj : looksLikeJsonObject json with
    | false =>
      rw [applySubscribe_ignored ent hj]
      simp [askedToken, hj]
    | true =>
      rw [(applySubscribe_token ent hj s).1]
      simp [askedToken, hj]
  | flushed s0 sends hs0 hl hflush =>
    subst hl
    rw [← Option.some.inj (hs.symm.trans hs0)] at hflush
    exact (SameRights.flush hflush).token
  | closing s0 hs0 hl hclose =>
    subst hl
    rw [hclose, ← Option.some.inj (hs.symm.trans hs0)]
    rfl

/-- Ids are given out once, and a request sets the token. -/
theorem parties : Lts.Parties (step ent cfg) State.subs State.nextId askedToken Sub.token "" where
  next_le := nextId_le
  born := by
    intro g g' l id s h hnone hs
    cases step_move h hs with
    | stays hs' _ =>
      rw [hnone] at hs'
      cases hs'
    | accepted order ts hc hid hl =>
      subst hl
      simp only [step] at h
      split at h
      · cases h
        refine ⟨hid, ?_, hc ▸ rfl⟩
        rw [hid]
        exact Nat.lt_succ_self _
      · cases h
    | offered s0 f hs0 _ _ =>
      rw [hnone] at hs0
      cases hs0
    | subscribed s0 json hs0 _ _ =>
      rw [hnone] at hs0
      cases hs0
    | flushed s0 sends hs0 _ _ =>
      rw [hnone] at hs0
      cases hs0
    | closing s0 hs0 _ _ =>
      rw [hnone] at hs0
      cases hs0
  absent := by
    intro g g' l id h hnone
    apply askedToken_none
    rintro json rfl
    simp only [step, hnone] at h
    cases h
  kept := token_kept

end Cpp

/-! ## Both gateways -/

/-- **Only what is granted is queued.** With entitlements on, in every state of every run of either gateway: no
frame of a symbol came from the snapshot, and a frame of a symbol that changes anything for a subscriber is
granted to the token of its latest request. -/
theorem only_granted_queued (ent : Entitlements) (he : ent.enabled = true) (id : ℕ) :
    (∀ (P : Type) (size : ℤ) (labels : List (Label P)) (g : State P) (s : Sub P),
      Lts.Run (step ent size) Lts.anyStep .start labels g → g.subs id = some s →
        (∀ t p, .snapshot t p ∉ s.written) ∧
          ∀ f k, keyOf f = some k → s.offer size f ≠ s → ent.Granted (latestToken id labels) k) ∧
      ∀ (cfg : Cpp.Cfg) (labels : List Cpp.Label) (g : Cpp.State) (s : Cpp.Sub),
        Lts.Run (Cpp.step ent cfg) Lts.anyStep .start labels g → g.subs id = some s →
          (∀ m, .plain m ∈ s.placed → m.msgType ≠ MSG_TRADE ∧ m.msgType ≠ MSG_BOOK) ∧
            ∀ f k, keyOf f = some k → s.offer cfg f ≠ s → ent.Granted (Cpp.latestToken id labels) k := by
  constructor
  · intro P size labels g s h hs
    have hn : Narrow ent s := run_subs (narrow_connected he)
      (fun _ s f _ _ hi => ⟨by rw [(offer_symbols f s).1, (offer_symbols f s).2.1]; exact hi.filter, by rw [(offer_symbols f s).2.2]; exact hi.snapshot⟩)
      (fun _ _ _ _ _ hi h => hi.subscribe h) (fun _ _ hi h => hi.sendOne h) h hs
    have htoken : s.token = latestToken id labels := parties.latest h (fun s hs => by cases hs) hs
    refine ⟨hn.snapshot, fun f k hkey hoff => ?_⟩
    cases hw : wants s.symbols k with
    | false => exact absurd (offer_unwanted hkey hw) hoff
    | true => exact htoken ▸ granted_of_grants he (hn.filter k hw)
  · intro cfg labels g s h hs
    have hn : Cpp.Narrow ent s := Cpp.run_subs (Cpp.narrow_accepted he) (fun s f hi => hi.of_same (.offer f s))
      (fun _ _ _ _ hi => hi.applySubscribe)
      (fun _ _ _ hi hf => hi.of_same (.flush hf)) (fun _ hi => ⟨hi.filter, hi.snapshot⟩) h hs
    have htoken : s.token = Cpp.latestToken id labels := Cpp.parties.latest h (fun s hs => by cases hs) hs
    refine ⟨fun m hm => ?_, fun f k hkey hoff => ?_⟩
    · rcases hn.snapshot m hm with h | h <;> (rw [h]; decide)
    · cases hw : wants s.symbols k with
      | false => exact absurd (Cpp.offer_unwanted hkey hw) hoff
      | true => exact htoken ▸ granted_of_grants he (hn.filter k hw)

def demo : Entitlements := ⟨[("demo", ["UPBIT:A"])], true⟩

/-- Asks for more than it is granted. -/
def asksForTwo : List (Label ℕ) :=
  [.connect, .subscribe 0 (.request "demo" (some [.text "UPBIT:A", .text "UPBIT:B"]) none)]

def asksForTwoCpp : List Cpp.Label :=
  [.accept [] 0, .subscribe 0 "\x7b\"token\": \"demo\", \"symbols\": [\"UPBIT:A\", \"UPBIT:B\"]\x7d".toList]

theorem only_granted_queued_demo : demo.Granted (latestToken 0 asksForTwo) "UPBIT:A" ∧
    demo.Granted (Cpp.latestToken 0 asksForTwoCpp) "UPBIT:A" := by
  obtain ⟨hpy, hcpp⟩ := only_granted_queued demo rfl 0
  constructor
  · obtain ⟨g, s, hg, hs, hoff⟩ : ∃ g s, Lts.Run (step demo 10) Lts.anyStep .start asksForTwo g ∧ g.subs 0 = some s ∧
      s.offer 10 (trade "A" 1) ≠ s := Lts.exists_run_some (by decide +kernel)
    exact (hpy ℕ 10 asksForTwo g s hg hs).2 (trade "A" 1) "UPBIT:A" (by decide) hoff
  · obtain ⟨g, s, hg, hs, hoff⟩ : ∃ g s, Lts.Run (Cpp.step demo ⟨10, 10⟩) Lts.anyStep .start asksForTwoCpp g ∧
        g.subs 0 = some s ∧
      s.offer ⟨10, 10⟩ ⟨MSG_TRADE, [1], 0, some ("UPBIT", "A")⟩ ≠ s := Lts.exists_run_some (by decide +kernel)
    exact (hcpp ⟨10, 10⟩ asksForTwoCpp g s hg hs).2 _ "UPBIT:A" (by decide) hoff

end Gateway
