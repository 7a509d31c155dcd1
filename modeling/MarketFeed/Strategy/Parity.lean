import Mathlib.Data.Rat.Floor
import MarketFeed.Strategy.Backtest
/-!
# Live decisions and backtest decisions (services/strategy.py:94-110, quant/backtest.py:182-258)

Both sides are one machine, a strategy behind the gate (`Gated`): the engine feeds it every bar, the
backtest every bar at which it does not `continue` after a buy of nothing. On those bars the decisions are
the same whatever the account does (`decided_fed`), so they are the same on all bars when no buy fails.
-/

namespace Strategy

open Writer PyFloat

variable {F : Type} [PyFloat F]

/-! ## A strategy behind the gate -/

structure Gated (F : Type) where
  strat : Strat F
  last : Option ℕ

/-- One closed bar: what is let through. -/
def Gated.bar (cooldownS : F) (g : Gated F) (bucketNs : ℕ) (close : F) : Gated F × Option Action :=
  match g.strat.onBar close with
  | (strat, none) | (strat, some .hold) => (⟨strat, g.last⟩, none)
  | (strat, some action) =>
    if le cooldownS (ofInt 0) then (⟨strat, g.last⟩, some action)
    else if cooled cooldownS g.last bucketNs then (⟨strat, some bucketNs⟩, some action)
    else (⟨strat, g.last⟩, none)

/-- The signals let through over some bars. -/
def Gated.over (cooldownS : F) : Gated F → List (ℕ × F) → List (ℕ × Action)
  | _, [] => []
  | g, (bucketNs, close) :: bars =>
    let (g', sig) := g.bar cooldownS bucketNs close
    (sig.toList.map fun a => (bucketNs, a)) ++ g'.over cooldownS bars

/-! ## The engine -/

/-- The entry of one (key, strategy) in the gate. -/
theorem allow_spec (gate : SignalGate F) (key name : String) (ts : ℕ) :
    (gate.allow key name ts).1.cooldownS = gate.cooldownS ∧
      (∀ k, k ≠ (key, name) → (gate.allow key name ts).1.last k = gate.last k) ∧
      (gate.allow key name ts).2 = (le gate.cooldownS (ofInt 0) || cooled gate.cooldownS (gate.last (key, name)) ts) ∧
      (gate.allow key name ts).1.last (key, name) =
        if !le gate.cooldownS (ofInt 0) && cooled gate.cooldownS (gate.last (key, name)) ts then some ts
            else gate.last (key, name) := by
  unfold SignalGate.allow
  split
  · rename_i hle
    simp [hle]
  · rename_i hle
    split
    · rename_i hcooled
      refine ⟨rfl, fun k hk => Function.update_of_ne hk _ _, ?_, ?_⟩
      · simp [hcooled]
      · simp [hle, hcooled]
    · rename_i hcooled
      simp [hle, hcooled]

/-- No signal, or an exception. -/
theorem bar_of_quiet {cooldownS : F} {g : Gated F} {bucketNs : ℕ} {close : F} {strat : Strat F}
    (h : g.strat.onBar close = (strat, none) ∨ g.strat.onBar close = (strat, some .hold)) :
    g.bar cooldownS bucketNs close = (⟨strat, g.last⟩, none) := by
  rcases h with h | h <;> simp [Gated.bar, h]

/-- A signal goes through the gate. -/
theorem bar_of_signal {gate : SignalGate F} {key name : String} {strat strat' : Strat F} {action : Action}
    {bucketNs : ℕ} {close : F}
    (h : strat.onBar close = (strat', some action)) (hne : action ≠ .hold) :
    Gated.bar gate.cooldownS ⟨strat, gate.last (key, name)⟩ bucketNs close =
      (⟨strat', (gate.allow key name bucketNs).1.last (key, name)⟩, if (gate.allow key name bucketNs).2 then
        some action else none) := by
  obtain ⟨-, -, hallow, hself⟩ := allow_spec gate key name bucketNs
  rw [hself, hallow]
  by_cases hle : le gate.cooldownS (ofInt 0) = true
  · cases action <;> simp_all [Gated.bar]
  · by_cases hc : cooled gate.cooldownS (gate.last (key, name)) bucketNs = true <;>
      cases action <;> simp_all [Gated.bar]

theorem onBar_cases (strat : Strat F) (close : F) :
    (∃ strat', strat.onBar close = (strat', none) ∨ strat.onBar close = (strat', some .hold)) ∨
      ∃ strat' action, strat.onBar close = (strat', some action) ∧ action ≠ .hold := by
  rcases hans : strat.onBar close with ⟨strat', answer⟩
  cases answer with
  | none => exact .inl ⟨strat', .inl rfl⟩
  | some action =>
    by_cases hne : action = .hold
    · exact .inl ⟨strat', .inr (by rw [hne])⟩
    · exact .inr ⟨strat', action, rfl, hne⟩

/-- One strategy at a bar is one step of the machine; the rest of the gate stays. -/
structure OneStep (key : String) (bar : Bar F) (name : String) (strat : Strat F) (gate : SignalGate F) : Prop where
  state : (closeOne key bar name strat gate).1 =
    (Gated.bar gate.cooldownS ⟨strat, gate.last (key, name)⟩ bar.bucketNs bar.close).1.strat
  cooldown : (closeOne key bar name strat gate).2.1.cooldownS = gate.cooldownS
  last : (closeOne key bar name strat gate).2.1.last (key, name) =
    (Gated.bar gate.cooldownS ⟨strat, gate.last (key, name)⟩ bar.bucketNs bar.close).1.last
  others : ∀ k, k ≠ (key, name) → (closeOne key bar name strat gate).2.1.last k = gate.last k
  own : ∀ s ∈ (closeOne key bar name strat gate).2.2, s.strategy = name
  sent : (closeOne key bar name strat gate).2.2.map (fun s => (s.bucketNs, s.action)) =
    (Gated.bar gate.cooldownS ⟨strat, gate.last (key, name)⟩ bar.bucketNs bar.close).2.toList.map fun a =>
      (bar.bucketNs, a)

theorem closeOne_spec (key : String) (bar : Bar F) (name : String) (strat : Strat F) (gate : SignalGate F) :
    OneStep key bar name strat gate := by
  rcases onBar_cases strat bar.close with ⟨strat', hans⟩ | ⟨strat', action, hans, hne⟩
  · have hone : closeOne key bar name strat gate = (strat', gate, []) := by
      rcases hans with hans | hans <;> simp [closeOne, hans]
    have hbar : Gated.bar gate.cooldownS ⟨strat, gate.last (key, name)⟩ bar.bucketNs bar.close =
        (⟨strat', gate.last (key, name)⟩, none) := bar_of_quiet hans
    constructor <;> simp [hone, hbar]
  · obtain ⟨hcool, hother, -, -⟩ := allow_spec gate key name bar.bucketNs
    have hone : closeOne key bar name strat gate = (strat', (gate.allow key name bar.bucketNs).1,
        if (gate.allow key name bar.bucketNs).2 then [⟨bar.venue, bar.symbol, bar.bucketNs, name, action, bar.close⟩]
            else []) := by
      cases action <;> simp_all [closeOne]
    have hbar := @bar_of_signal F _ gate key name strat strat' action bar.bucketNs bar.close hans hne
    refine ⟨by rw [hone, hbar], by rw [hone]; exact hcool, by rw [hone, hbar], by rw [hone]; exact hother, ?_, ?_⟩
    · rw [hone]
      split <;> simp
    · rw [hone, hbar]
      split <;> simp

/-- A strategy that is not in the dict: its entry stays and it sends nothing. -/
theorem closeStrats_absent (key : String) (bar : Bar F) {name : String} :
    ∀ (strats : List (String × Strat F)) (gate : SignalGate F),
    name ∉ strats.map Prod.fst →
      (closeStrats key bar strats gate).2.1.cooldownS = gate.cooldownS ∧
      (closeStrats key bar strats gate).2.1.last (key, name) = gate.last (key, name) ∧
      (closeStrats key bar strats gate).2.2.filter (fun s => s.strategy == name) = []
  | [], gate, _ => ⟨rfl, rfl, rfl⟩
  | (n, strat) :: rest, gate, h => by
    rw [List.map_cons, List.mem_cons, not_or] at h
    have hone := closeOne_spec key bar n strat gate
    obtain ⟨hcool, hlast, hsent⟩ := closeStrats_absent key bar rest (closeOne key bar n strat gate).2.1 h.2
    refine ⟨hcool.trans hone.cooldown, hlast.trans (hone.others _ fun he => h.1 (Prod.mk.inj he).2), ?_⟩
    have hown : (closeOne key bar n strat gate).2.2.filter (fun s => s.strategy == name) = [] := by
      refine List.filter_eq_nil_iff.2 fun s hs => ?_
      rw [hone.own s hs, beq_iff_eq]
      exact fun he => h.1 he.symm
    show ((closeOne key bar n strat gate).2.2 ++
        (closeStrats key bar rest (closeOne key bar n strat gate).2.1).2.2).filter _ = []
    rw [List.filter_append, hown, hsent, List.nil_append]

/-- A strategy of the dict takes one step, and the dict keeps its names. -/
theorem closeStrats_present (key : String) (bar : Bar F) {name : String} {strat : Strat F} :
    ∀ (strats : List (String × Strat F)) (gate : SignalGate F), (strats.map Prod.fst).Nodup → (name, strat) ∈ strats →
      let g : Gated F := ⟨strat, gate.last (key, name)⟩
      (closeStrats key bar strats gate).2.1.cooldownS = gate.cooldownS ∧
      (name, (g.bar gate.cooldownS bar.bucketNs bar.close).1.strat) ∈ (closeStrats key bar strats gate).1 ∧
      (closeStrats key bar strats gate).2.1.last (key, name) = (g.bar gate.cooldownS bar.bucketNs bar.close).1.last ∧
      ((closeStrats key bar strats gate).2.2.filter fun s => s.strategy == name).map (fun s => (s.bucketNs, s.action)) =
        (g.bar gate.cooldownS bar.bucketNs bar.close).2.toList.map fun a => (bar.bucketNs, a)
  | (n, st) :: rest, gate, hn, h => by
    intro g
    rw [List.map_cons, List.nodup_cons] at hn
    have hone := closeOne_spec key bar n st gate
    show (closeStrats key bar rest (closeOne key bar n st gate).2.1).2.1.cooldownS = gate.cooldownS ∧
      (name, _) ∈ (n, (closeOne key bar n st gate).1) :: (closeStrats key bar rest (closeOne key bar n st gate).2.1).1 ∧
      (closeStrats key bar rest (closeOne key bar n st gate).2.1).2.1.last (key, name) = _ ∧
      (((closeOne key bar n st gate).2.2 ++ (closeStrats key bar rest (closeOne key bar n st gate).2.1).2.2).filter
        _).map _ = _
    rw [List.filter_append, List.map_append]
    rcases List.mem_cons.1 h with heq | hrest
    · obtain ⟨rfl, rfl⟩ := Prod.mk.inj heq
      obtain ⟨hcool, hlast, hsent⟩ := closeStrats_absent key bar rest (closeOne key bar name strat gate).2.1 hn.1
      have hall : (closeOne key bar name strat gate).2.2.filter (fun s => s.strategy == name) =
          (closeOne key bar name strat gate).2.2 :=
        List.filter_eq_self.2 fun s hs => beq_iff_eq.2 (hone.own s hs)
      rw [hsent, List.map_nil, List.append_nil, hall]
      refine ⟨hcool.trans hone.cooldown, ?_, hlast.trans hone.last, hone.sent⟩
      rw [hone.state]
      exact List.mem_cons_self
    · have hne : n ≠ name := fun he => hn.1 (List.mem_map.2 ⟨(name, strat), hrest, he.symm⟩)
      have hentry : (closeOne key bar n st gate).2.1.last (key, name) = gate.last (key, name) :=
        hone.others _ fun he => hne (Prod.mk.inj he).2.symm
      have hnone : (closeOne key bar n st gate).2.2.filter (fun s => s.strategy == name) = [] := by
        refine List.filter_eq_nil_iff.2 fun s hs => ?_
        rw [hone.own s hs, beq_iff_eq]
        exact hne
      have ih := closeStrats_present key bar rest (closeOne key bar n st gate).2.1 hn.2 hrest
      rw [hentry, hone.cooldown] at ih
      rw [hnone, List.map_nil, List.nil_append]
      exact ⟨ih.1, List.mem_cons_of_mem _ ih.2.1, ih.2.2⟩

theorem closeStrats_names (key : String) (bar : Bar F) : ∀ (strats : List (String × Strat F)) (gate : SignalGate F),
    (closeStrats key bar strats gate).1.map Prod.fst = strats.map Prod.fst
  | [], _ => rfl
  | (n, st) :: rest, gate => congrArg (n :: ·) (closeStrats_names key bar rest (closeOne key bar n st gate).2.1)

/-- The engine has the strategy `name` of `key` in the state `g`. -/
structure Holds (names : List String) (cooldownS : F) (key name : String) (e : Live F) (g : Gated F) : Prop where
  nodup : (((e.strats key).getD (freshStrategies names)).map Prod.fst).Nodup
  mem : (name, g.strat) ∈ (e.strats key).getD (freshStrategies names)
  cooldown : e.gate.cooldownS = cooldownS
  last : e.gate.last (key, name) = g.last

theorem freshStrategies_spec {names : List String} {name : String} {strat : Strat F} (hn : name ∈ names)
    (hr : registered name = some strat) :
    ((freshStrategies names : List (String × Strat F)).map Prod.fst).Nodup ∧
      (name, strat) ∈ (freshStrategies names : List (String × Strat F)) := by
  let rows : List (String × Strat F) := names.filterMap fun n => (registered n).map fun s => (n, s)
  refine ⟨Keyed.nodup_dictOf rows, ?_⟩
  -- whatever row of the name came last, it is the registered strategy
  have hrow : ∀ r ∈ rows, r.1 = name → r = (name, strat) := by
    intro r hmem hname
    obtain ⟨n, -, hmap⟩ := List.mem_filterMap.1 hmem
    obtain ⟨s, hs, rfl⟩ := Option.map_eq_some_iff.1 hmap
    obtain rfl : n = name := hname
    rw [hr] at hs
    rw [Option.some.inj hs]
  have hin : (name, strat) ∈ rows := List.mem_filterMap.2 ⟨name, hn, by rw [hr]; rfl⟩
  obtain ⟨r, hlook⟩ := Option.isSome_iff_exists.1
    (@Keyed.lookup_isSome_of_mem _ _ _ Prod.fst _ _ (List.mem_reverse.2 hin))
  have hr' := hrow r (List.mem_reverse.1 (Keyed.mem_of_lookup hlook)) (Keyed.key_of_lookup hlook)
  rw [← Keyed.lookup_dictOf, hr'] at hlook
  exact Keyed.mem_of_lookup hlook

theorem Holds.closeBar {names : List String} {cooldownS : F} {key name : String} {e : Live F} {g : Gated F}
    (h : Holds names cooldownS key name e g) (bar : Bar F) :
    Holds names cooldownS key name (e.closeBar names key bar) (g.bar cooldownS bar.bucketNs bar.close).1 ∧
      (e.closeBar names key bar).signals name =
        e.signals name ++ (g.bar cooldownS bar.bucketNs bar.close).2.toList.map fun a => (bar.bucketNs, a) := by
  have hstep := closeStrats_present key bar _ e.gate h.nodup h.mem
  rw [h.last, h.cooldown] at hstep
  obtain ⟨hcool, hmem, hlast, hsent⟩ := hstep
  have hself : (e.closeBar names key bar).strats key =
      some (closeStrats key bar ((e.strats key).getD (freshStrategies names)) e.gate).1 :=
    Function.update_self _ _ _
  refine ⟨⟨?_, ?_, hcool, hlast⟩, ?_⟩
  · rw [hself, Option.getD_some, closeStrats_names]
    exact h.nodup
  · rw [hself]
    exact hmem
  · rw [Live.signals, Live.closeBar, List.filter_append, List.map_append, hsent]
    rfl

/-- **The engine's signals of a strategy are those of the machine over every bar.** -/
theorem liveOver_signals {names : List String} {cooldownS : F} {key name : String} {strat : Strat F} (hn : name ∈ names)
    (hr : registered name = some strat) (bars : List (Bar F)) :
    (liveOver names cooldownS key bars).signals name =
      Gated.over cooldownS ⟨strat, none⟩ (bars.map fun b => (b.bucketNs, b.close)) := by
  have hfold : ∀ (bars : List (Bar F)) (e : Live F) (g : Gated F), Holds names cooldownS key name e g →
      (bars.foldl (Live.closeBar names key) e).signals name =
        e.signals name ++ g.over cooldownS (bars.map fun b => (b.bucketNs, b.close)) := by
    intro bars
    induction bars with
    | nil => exact fun e g _ => (List.append_nil _).symm
    | cons bar bars ih =>
      intro e g h
      obtain ⟨h', hsig⟩ := h.closeBar bar
      rw [List.foldl_cons, ih _ _ h', hsig, List.append_assoc]
      rfl
  obtain ⟨hnodup, hmem⟩ := freshStrategies_spec hn hr
  exact hfold bars (Live.start cooldownS) ⟨strat, none⟩ ⟨hnodup, hmem, rfl, rfl⟩

/-! ## The backtest -/

section Backtest

variable (cfg : Cfg F)

/-- The machine in the state of a backtest. -/
def Bt.machine (st : Bt F) : Gated F := ⟨st.strat, st.gate.last (cfg.key, cfg.strategyName)⟩

/-- The bars, but for the last, at which the loop comes as far as the indicators. -/
def Bt.fed : Bt F → List (BarRow F) → List (BarRow F)
  | _, [] => []
  | _, [_] => []
  | st, bar :: bars => match st.order cfg bar, st.turn cfg false bar with
    | some (_, skipped), some st' => (if skipped then [] else [bar]) ++ st'.fed bars
    | _, _ => []

/-- Does a turn go on to the indicators and come back? A buy that is due must be worth more than nothing, except at
the last bar, where the signal is not used, and nothing may raise. -/
def Bt.proceeds (last : Bool) (st : Bt F) (bar : BarRow F) : Bool :=
  let answers := (st.strat.onBar bar.close).2.isSome
  if st.buying then
    match cfg.quantity st.cash bar with
    | none => false
    | some qty => if le qty (ofInt 0) then last else answers
  else answers

/-- Every turn of the loop proceeds. -/
def Bt.proceedsOver : Bt F → List (BarRow F) → Bool
  | _, [] => true
  | st, bar :: bars => st.proceeds cfg bars.isEmpty bar && match st.turn cfg bars.isEmpty bar with
    | none => false
    | some st' => st'.proceedsOver bars

end Backtest

section BacktestLemmas

variable {cfg : Cfg F}

/-- An order changes the account, not the machine. -/
theorem order_machine {st st' : Bt F} {bar : BarRow F} {skipped : Bool} (h : st.order cfg bar = some (st', skipped)) :
    st'.strat = st.strat ∧ st'.gate = st.gate ∧ st'.decided = st.decided := by
  unfold Bt.order at h
  split at h
  · obtain ⟨qty, -, hq⟩ := Option.map_eq_some_iff.1 h
    split at hq <;> (cases hq; exact ⟨rfl, rfl, rfl⟩)
  · split at h <;> (cases h; exact ⟨rfl, rfl, rfl⟩)

/-- The rest of a turn is one step of the machine. -/
theorem signal_machine {st st' : Bt F} {bar : BarRow F} {last : Bool} (h : st.signal cfg last bar = some st') :
    st'.machine cfg = ((st.machine cfg).bar st.gate.cooldownS bar.bucketNs bar.close).1 ∧
      st'.gate.cooldownS = st.gate.cooldownS ∧
      (last = false → st'.decided = st.decided ++
        ((st.machine cfg).bar st.gate.cooldownS bar.bucketNs bar.close).2.toList.map fun a => (bar.bucketNs, a)) := by
  rcases onBar_cases st.strat bar.close with ⟨strat', hans⟩ | ⟨strat', action, hans, hne⟩
  · have hbar : (st.machine cfg).bar st.gate.cooldownS bar.bucketNs bar.close =
        (⟨strat', (st.machine cfg).last⟩, none) :=
      bar_of_quiet hans
    rcases hans with hans | hans
    · simp [Bt.signal, hans] at h
    · simp only [Bt.signal, hans, Option.some.injEq] at h
      subst h
      rw [hbar]
      exact ⟨rfl, rfl, fun _ => (List.append_nil _).symm⟩
  · obtain ⟨hcool, -, -, -⟩ := allow_spec st.gate cfg.key cfg.strategyName bar.bucketNs
    have hbar : (st.machine cfg).bar st.gate.cooldownS bar.bucketNs bar.close =
        (⟨strat', (st.gate.allow cfg.key cfg.strategyName bar.bucketNs).1.last (cfg.key, cfg.strategyName)⟩,
          if (st.gate.allow cfg.key cfg.strategyName bar.bucketNs).2 then some action else none) := bar_of_signal hans
            hne
    have hst : st' = if (st.gate.allow cfg.key cfg.strategyName bar.bucketNs).2 && !last then
        { st with strat := strat', gate := (st.gate.allow cfg.key cfg.strategyName bar.bucketNs).1, pending := action,
                  equityCurve := st.equityCurve ++ [(bar.bucketNs, st.equity bar)], decided := st.decided ++
                    [(bar.bucketNs, action)] }
        else { st with strat := strat', gate := (st.gate.allow cfg.key cfg.strategyName bar.bucketNs).1,
                       equityCurve := st.equityCurve ++ [(bar.bucketNs, st.equity bar)] } := by
      cases action <;> simp_all [Bt.signal]
    rw [hbar, hst]
    refine ⟨?_, ?_, ?_⟩
    · split <;> rfl
    · split <;> exact hcool
    · rintro rfl
      by_cases hall : (st.gate.allow cfg.key cfg.strategyName bar.bucketNs).2 = true <;> simp [hall]

/-- A turn either leaves the machine where it was, or is one step of it. -/
theorem turn_machine {st st' st1 : Bt F} {bar : BarRow F} {last skipped : Bool}
    (ho : st.order cfg bar = some (st1, skipped))
    (h : st.turn cfg last bar = some st') :
    (skipped = true → st'.machine cfg = st.machine cfg ∧ st'.gate.cooldownS = st.gate.cooldownS ∧
      st'.decided = st.decided) ∧
    (skipped = false → st'.machine cfg = ((st.machine cfg).bar st.gate.cooldownS bar.bucketNs bar.close).1 ∧
      st'.gate.cooldownS = st.gate.cooldownS ∧ (last = false → st'.decided = st.decided ++
        ((st.machine cfg).bar st.gate.cooldownS bar.bucketNs bar.close).2.toList.map fun a => (bar.bucketNs, a))) := by
  obtain ⟨hstrat, hgate, hdec⟩ := order_machine ho
  have hmachine : st1.machine cfg = st.machine cfg := by rw [Bt.machine, Bt.machine, hstrat, hgate]
  rw [Bt.turn, ho, Option.bind_some] at h
  constructor
  · rintro rfl
    cases h
    exact ⟨hmachine, by rw [hgate], hdec⟩
  · rintro rfl
    have hsig := signal_machine h
    rw [hmachine, hgate, hdec] at hsig
    exact hsig

/-- The last bar's signal is not used. -/
theorem turn_last {st st' : Bt F} {bar : BarRow F} (h : st.turn cfg true bar = some st') :
    st'.decided = st.decided := by
  obtain ⟨⟨st1, skipped⟩, ho, h⟩ := Option.bind_eq_some_iff.1 h
  have hdec := (order_machine ho).2.2
  cases skipped with
  | true =>
    cases h
    exact hdec
  | false =>
    simp only [Bool.false_eq_true, if_false, Bt.signal] at h
    split at h
    · cases h
    · cases h
      exact hdec
    · simp only [Bool.not_true, Bool.and_false, Bool.false_eq_true, if_false] at h
      cases h
      exact hdec

/-- **Whatever the account does, the backtest decides as the machine does on the bars it is fed.** -/
theorem decided_fed : ∀ {bars : List (BarRow F)} {st st' : Bt F}, st.loop cfg bars = some st' →
    st'.decided = st.decided ++ (st.machine cfg).over st.gate.cooldownS
      ((st.fed cfg bars).map fun b => (b.bucketNs, b.close))
  | [], st, st', h => by
    cases h
    exact (List.append_nil _).symm
  | [bar], st, st', h => by
    obtain ⟨mid, hturn, h⟩ := Option.bind_eq_some_iff.1 h
    cases h
    rw [turn_last hturn]
    exact (List.append_nil _).symm
  | bar :: next :: bars, st, st', h => by
    obtain ⟨mid, hturn, h⟩ := Option.bind_eq_some_iff.1 h
    have hturn' : st.turn cfg false bar = some mid := hturn
    obtain ⟨⟨st1, skipped⟩, ho, -⟩ := Option.bind_eq_some_iff.1 hturn
    obtain ⟨hskip, hfed⟩ := turn_machine ho hturn'
    have hdecided := decided_fed h
    have hlist : st.fed cfg (bar :: next :: bars) = (if skipped then [] else [bar]) ++ mid.fed cfg (next :: bars) := by
      simp only [Bt.fed, ho, hturn']
    rw [hdecided, hlist]
    cases skipped with
    | true =>
      obtain ⟨hm, hc, hd⟩ := hskip rfl
      rw [hm, hc, hd]
      rfl
    | false =>
      obtain ⟨hm, hc, hd⟩ := hfed rfl
      rw [hm, hc, hd rfl, List.append_assoc]
      rfl

theorem signal_isSome {st : Bt F} {bar : BarRow F} {last : Bool} (h : (st.strat.onBar bar.close).2.isSome = true) :
    ∃ st', st.signal cfg last bar = some st' := by
  obtain ⟨action, ha⟩ := Option.isSome_iff_exists.1 h
  rcases hans : st.strat.onBar bar.close with ⟨strat', answer⟩
  rw [hans] at ha
  obtain rfl : answer = some action := ha
  cases action <;> exact ⟨_, by simp only [Bt.signal, hans]; rfl⟩

/-- A turn that proceeds returns, and skips the indicators at the last bar only. -/
theorem turn_of_proceeds {st : Bt F} {bar : BarRow F} {last : Bool} (h : st.proceeds cfg last bar = true) :
    ∃ st1 skipped st', st.order cfg bar = some (st1, skipped) ∧ st.turn cfg last bar = some st' ∧
      (skipped = true → last = true) := by
  have hgo : ∀ st1, st.order cfg bar = some (st1, false) → (st.strat.onBar bar.close).2.isSome = true →
      ∃ st1 skipped st', st.order cfg bar = some (st1, skipped) ∧ st.turn cfg last bar = some st' ∧
      (skipped = true → last = true) := by
    intro st1 ho hans
    rw [← (order_machine ho).1] at hans
    obtain ⟨st', hst'⟩ := @signal_isSome F _ cfg st1 bar last hans
    exact ⟨st1, false, st', ho, by simp [Bt.turn, ho, hst'], fun hf => (by cases hf)⟩
  unfold Bt.proceeds at h
  by_cases hbuy : st.buying = true
  · simp only [hbuy, if_true] at h
    cases hq : cfg.quantity st.cash bar with
    | none =>
      rw [hq] at h
      cases h
    | some qty =>
      simp only [hq] at h
      by_cases hle : le qty (ofInt 0) = true
      · simp only [hle, if_true] at h
        have ho : ∃ st1, st.order cfg bar = some (st1, true) :=
          ⟨_, by simp only [Bt.order, hbuy, hq, hle, if_true, Option.map_some]; rfl⟩
        obtain ⟨st1, ho⟩ := ho
        exact ⟨st1, true, st1, ho, by simp [Bt.turn, ho], fun _ => h⟩
      · simp only [hle, Bool.false_eq_true, if_false] at h
        have ho : ∃ st1, st.order cfg bar = some (st1, false) := by
          simp only [Bt.order, hbuy, hq, hle, Bool.false_eq_true, if_true, if_false, Option.map_some]
          exact ⟨_, rfl⟩
        obtain ⟨st1, ho⟩ := ho
        exact hgo st1 ho h
  · simp only [hbuy, Bool.false_eq_true, if_false] at h
    have ho : ∃ st1, st.order cfg bar = some (st1, false) := by
      simp only [Bt.order, hbuy, Bool.false_eq_true, if_false]
      split <;> exact ⟨_, rfl⟩
    obtain ⟨st1, ho⟩ := ho
    exact hgo st1 ho h

/-- Where every turn proceeds, the loop ends and every bar but the last is fed. -/
theorem loop_of_proceeds : ∀ {bars : List (BarRow F)} {st : Bt F}, st.proceedsOver cfg bars = true →
    (∃ st', st.loop cfg bars = some st') ∧ st.fed cfg bars = bars.dropLast
  | [], st, _ => ⟨⟨st, rfl⟩, rfl⟩
  | [bar], st, h => by
    obtain ⟨hp, -⟩ := Bool.and_eq_true_iff.1 h
    obtain ⟨st1, skipped, st', -, hturn, -⟩ := turn_of_proceeds hp
    exact ⟨⟨st', by rw [Bt.loop]; exact congrArg (Option.bind · _) hturn⟩, rfl⟩
  | bar :: next :: bars, st, h => by
    obtain ⟨hp, hrest⟩ := Bool.and_eq_true_iff.1 h
    obtain ⟨st1, skipped, mid, ho, hturn, hskip⟩ := turn_of_proceeds hp
    have hturn' : st.turn cfg false bar = some mid := hturn
    rw [hturn] at hrest
    obtain ⟨⟨st', hst'⟩, hfed⟩ := loop_of_proceeds hrest
    have hno : skipped = false := by
      cases skipped with
      | false => rfl
      | true => cases hskip rfl
    refine ⟨⟨st', by rw [Bt.loop, hturn]; exact hst'⟩, ?_⟩
    simp only [Bt.fed, ho, hturn', hno, hfed]
    rfl

end BacktestLemmas

/-! ## Both -/

theorem over_buckets {cooldownS : F} : ∀ {bars : List (ℕ × F)} {g : Gated F} {s : ℕ × Action},
    s ∈ g.over cooldownS bars →
    s.1 ∈ bars.map Prod.fst
  | [], _, _, h => (by cases h)
  | (bucketNs, close) :: bars, g, s, h => by
    rcases List.mem_append.1 h with h | h
    · obtain ⟨a, -, rfl⟩ := List.mem_map.1 h
      exact List.mem_cons_self
    · exact List.mem_cons_of_mem _ (over_buckets h)

/-- A signal the engine emits at a bar the backtest leaves out is missing from the backtest. -/
theorem decided_misses {cfg : Cfg F} {strat : Strat F} {bars : List (BarRow F)} {st : Bt F}
    (h : (cfg.start strat).loop cfg bars = some st)
    {s : ℕ × Action} (hs : s.1 ∉ ((cfg.start strat).fed cfg bars).map (·.bucketNs)) : s ∉ st.decided := by
  intro hmem
  rw [decided_fed h] at hmem
  have hin := over_buckets hmem
  rw [List.map_map] at hin
  exact hs hin

/-- **Where no buy that is due, but at the last bar, is worth less than a lot, and nothing raises, the backtest comes
to its end and acts on the signals the engine emits before the last bar.** -/
theorem backtest_decides_live {cfg : Cfg F} {names : List String} {key : String} {strat : Strat F} {bars : List (Bar F)}
    (hn : cfg.strategyName ∈ names) (hr : registered cfg.strategyName = some strat)
    (h : (cfg.start strat).proceedsOver cfg (bars.map BarRow.ofBar) = true) :
    ∃ st, cfg.simulate (bars.map BarRow.ofBar) = some st ∧ (cfg.run (bars.map BarRow.ofBar)).isSome = true ∧
      st.decided = (liveOver names cfg.cooldownS key bars.dropLast).signals cfg.strategyName := by
  obtain ⟨⟨st, hst⟩, hfed⟩ := loop_of_proceeds h
  have hsim : cfg.simulate (bars.map BarRow.ofBar) = some st := by
    rw [Cfg.simulate, hr]
    exact hst
  refine ⟨st, hsim, ?_, ?_⟩
  · rw [Cfg.run, hsim]
    simp only [Option.bind_eq_bind, Option.bind_some]
    split
    · split <;> rfl
    · rfl
  · rw [decided_fed hst, hfed, liveOver_signals hn hr, ← List.map_dropLast, List.map_map]
    rfl

/-! ## One buy that fails -/

/-- Rational arithmetic; roots to six places. -/
instance : PyFloat ℚ where
  add := (· + ·)
  sub := (· - ·)
  mul := (· * ·)
  neg := (- ·)
  div a b := if b = 0 then none else some (a / b)
  divNat a n := a / n
  eq a b := decide (a = b)
  lt a b := decide (a < b)
  le a b := decide (a ≤ b)
  ofInt n := n
  intLt n a := decide ((n : ℚ) < a)
  sqrt a := if a < 0 then none else some (Nat.sqrt ⌊a * 1000000000000⌋.toNat / 1000000)
  fsum l := some l.sum
  floor a := some ⌊a⌋

/-- A quiet half hour, then a fall, a jump and a fall. -/
def jumpBars : List (Bar ℚ) :=
  (List.replicate 29 (100 : ℚ) ++ [90, 200, 5, 100]).zipIdx.map fun (price, i) =>
    ⟨"KRX", "005930", i * 60000000000, price, price, price, price, 1, price, 1⟩

def jumpCfg (equity : ℚ) : Cfg ℚ := ⟨"sma_cross", "KRX:005930", equity, 1 / 2000, 5, 1, 1, 30⟩

/-- A million buys some shares: both sides decide to buy and, a bar later, to sell. -/
theorem backtest_decides_live_million : ∃ st, (jumpCfg 1000000).simulate (jumpBars.map BarRow.ofBar) = some st ∧
    ((jumpCfg 1000000).run (jumpBars.map BarRow.ofBar)).isSome = true ∧
    st.decided = (liveOver ["sma_cross", "rsi_revert"] 30 "KRX:005930" jumpBars.dropLast).signals "sma_cross" :=
  backtest_decides_live (by decide) rfl (by decide +kernel)

/-- Four buys none: the backtest leaves the bar of the sell out. -/
theorem backtest_misses_sell :
    (liveOver ["sma_cross", "rsi_revert"] 30 "KRX:005930" jumpBars.dropLast).signals "sma_cross" =
      [(1800000000000, .buy), (1860000000000, .sell)] ∧
    ((jumpCfg 4).simulate (jumpBars.map BarRow.ofBar)).map (·.decided) = some [(1800000000000, .buy)] := by
  decide +kernel

end Strategy
