import MarketFeed.Writer.Waiting
import MarketFeed.Writer.Bars
/-!
# The shutdown (writer.py:18-19, :200-259, :531-558)

`Watch` runs the writer and remembers what it did: the bar rows that went to storage, in order, and how
many of them there were when a bar last changed. A bar is in storage once a row of what it is now went
there since. From the stop request on storage accepts every write.

The last flush takes the buffers only if no batch waits for a retry, and nothing flushes again; and a trade
that comes to a bar whose row a flush has taken is popped with the bar. `shutdown_keeps` says that these are
the two ways to lose something.

| here | there |
| --- | --- |
| `bufferedAtStop` | the three buffers, what a flush has taken and not written, and `_retry_batch` |
| `upserted` | the rows `upsert_bars` and `_upsert_bars` get (`storage/db.py:365-373`) |
| `late` | the bars that changed after the flush under way took their row |
-/

namespace Writer

open Storage Keyed Clock Lts

variable {F : Type}

structure Watch (F : Type) where
  w : State F
  log : List (BarRow F)
  since : BarKey → ℕ
  late : List BarKey
  atStop : Option (List (Row F) × List (Bar F))

def Watch.init : Watch F := ⟨.init, [], fun _ => 0, [], none⟩

def State.bufferedAtStop (w : State F) : List (Row F) := w.buffered ++ (w.held ++ w.retryRows)

/-- The bar rows a step writes to storage. -/
def upserted (w : State F) : Label F → List (BarRow F)
  | .write _ =>
    match w.flush with
    | some (.write b _) => if w.db.receipts.any b.matches then [] else b.bars
    | _ => []
  | .save =>
    match w.phase with
    | .saving rows => rows
    | _ => []
  | _ => []

/-- The bar of the dict that a step creates or changes. -/
def touched (cfg : Cfg) (w : State F) : Label F → Option BarKey
  | .lookup =>
    match w.ingest with
    | some (.lookup t) => if (lookup Bar.key (t.barKey cfg.barIntervalS) w.bars).isSome then
        none else some (t.barKey cfg.barIntervalS)
    | _ => none
  | .update =>
    match w.ingest with
    | some (.update t true) => some (t.barKey cfg.barIntervalS)
    | _ => none
  | _ => none

def Watch.next (cfg : Cfg) (s : Watch F) (l : Label F) (w' : State F) : Watch F where
  w := w'
  log := s.log ++ upserted s.w l
  since := (touched cfg s.w l).elim s.since fun k => Function.update s.since k s.log.length
  late :=
    match l with
    | .scan _ => []
    | _ => s.late ++ (touched cfg s.w l).toList.filter fun k => s.w.takenKeys.contains k
  atStop :=
    match l with
    | .stop => some (s.w.bufferedAtStop, s.w.bars)
    | _ => s.atStop

/-- From the stop request on storage accepts writes. -/
def accepts (s : Watch F) : Label F → Bool
  | .fail | .saveFails => s.atStop.isNone
  | _ => true

/-- The last flush finds no batch to retry, or nothing in the buffers; the stop finds no bar that changed after its
row was taken. -/
def drains (s : Watch F) : Label F → Bool
  | .lockLast => s.w.retry.isNone || kinds.all fun k => (s.w.list (s.w.refs k)).isEmpty
  | .stop => s.w.takenKeys.all fun k => !s.late.contains k
  | _ => true

/-- What is in a log stays there. -/
theorem mem_drop_append {α : Type} {xs ys : List α} {n : ℕ} {x : α} (h : x ∈ xs.drop n) : x ∈ (xs ++ ys).drop n := by
  rw [List.drop_append]
  exact List.mem_append_left _ h

theorem mem_drop_new {α : Type} {xs ys : List α} {n : ℕ} (hn : n ≤ xs.length) {x : α} (h : x ∈ ys) :
    x ∈ (xs ++ ys).drop n := by
  rw [List.drop_append_of_le_length hn]
  exact List.mem_append_right _ h

theorem touched_idle {cfg : Cfg} {w : State F} (hi : w.ingest = none) (l : Label F) : touched cfg w l = none := by
  cases l <;> simp [touched, hi]

/-- The steps that remember nothing. -/
theorem next_quiet (cfg : Cfg) (s : Watch F) {l : Label F} (w' : State F) (hu : upserted s.w l = [])
    (ht : touched cfg s.w l = none)
    (hl : ∀ nowNs, l ≠ .scan nowNs) :
    (s.next cfg l w').log = s.log ∧ (s.next cfg l w').since = s.since ∧ (s.next cfg l w').late = s.late := by
  refine ⟨?_, ?_, ?_⟩
  · show s.log ++ upserted s.w l = s.log
    rw [hu, List.append_nil]
  · show (touched cfg s.w l).elim s.since _ = s.since
    rw [ht]
    rfl
  · cases l with
    | scan nowNs => exact absurd rfl (hl nowNs)
    | _ =>
      show s.late ++ (touched cfg s.w _).toList.filter _ = s.late
      rw [ht]
      exact List.append_nil _

/-- The bars, storage and what is remembered of them are as before. -/
structure Unchanged (s s' : Watch F) : Prop where
  bars : s'.w.bars = s.w.bars
  db : s'.w.db = s.w.db
  log : s'.log = s.log
  since : s'.since = s.since
  late : s'.late = s.late

theorem next_unchanged (cfg : Cfg) (s : Watch F) {l : Label F} {w' : State F} (hbars : w'.bars = s.w.bars)
    (hdb : w'.db = s.w.db)
    (hu : upserted s.w l = []) (ht : touched cfg s.w l = none) (hl : ∀ nowNs, l ≠ .scan nowNs) :
    Unchanged s (s.next cfg l w') :=
  have ⟨hlog, hsince, hlate⟩ := next_quiet cfg s w' hu ht hl
  ⟨hbars, hdb, hlog, hsince, hlate⟩

section

variable [CommRing F] [Div F] [LinearOrder F]

def watch (cfg : Cfg) (s : Watch F) (l : Label F) : Option (Watch F) := (step cfg s.w l).map (s.next cfg l)

/-- A row of what the bar is went to storage since it last changed. -/
def Watch.InStorage (s : Watch F) (b : Bar F) : Prop := b.row ∈ s.log.drop (s.since b.key)

instance (s : Watch F) (b : Bar F) : Decidable (s.InStorage b) :=
  inferInstanceAs (Decidable (b.row ∈ s.log.drop (s.since b.key)))

/-- Every run of the writer can be watched. -/
theorem watched {cfg : Cfg} {ls : List (Label F)} {w w' : State F} (h : Run (step cfg) anyStep w ls w')
    {s : Watch F} (hs : s.w = w) :
    ∃ s', Run (watch cfg) anyStep s ls s' ∧ s'.w = w' := by
  induction h generalizing s with
  | nil w => exact ⟨s, .nil s, hs⟩
  | @cons w w₁ w' l ls _ hst _ ih =>
    subst hs
    obtain ⟨s', hrun, he⟩ := ih (s := s.next cfg l w₁) rfl
    exact ⟨s', .cons trivial (by rw [watch, hst]; rfl) hrun, he⟩

/-! ## The bars, in any run -/

/-- Where the rows of the taken bars are: in the locals, or written since. -/
def Watch.rowsFor (s : Watch F) (k : BarKey) : Flush F → List (BarRow F)
  | .swap _ => []
  | .read _ _ _ rows => rows
  | .copy _ _ _ rows => rows
  | .made b _ => b.bars
  | .write b _ => b.bars
  | .stored .. | .pop _ => s.log.drop (s.since k)

structure Tracked (s : Watch F) : Prop where
  nodup : (s.w.bars.map Bar.key).Nodup
  since : ∀ k, s.since k ≤ s.log.length
  table : s.w.db.bars = s.log.foldl (upsert BarRow.key BarRow.merge) []
  fresh : ∀ b done, s.w.flush = some (.write b done) → Fresh s.w.db b ∨ done = []
  taken : ∀ f, s.w.flush = some f → ∀ k ∈ f.taken, k ∉ s.late → ∀ b, lookup Bar.key k s.w.bars = some b →
    b.row ∈ s.rowsFor k f
  todo : ∀ held done todo rows, s.w.flush = some (.read held done todo rows) → ∀ k ∈ todo, k ∉ s.late

theorem tracked_init : Tracked (Watch.init : Watch F) where
  nodup := List.nodup_nil
  since := fun _ => Nat.le_refl _
  table := rfl
  fresh := by simp [Watch.init, State.init]
  taken := by simp [Watch.init, State.init]
  todo := by simp [Watch.init, State.init]

/-- A step that leaves the bars, storage and what is remembered: the rows of the taken bars stay where they are, or
move on. -/
theorem Tracked.setFlush {s s' : Watch F} (ht : Tracked s) (hsame : Unchanged s s')
    (hfresh : ∀ b done, s'.w.flush = some (.write b done) → Fresh s.w.db b ∨ done = [])
    (htaken : ∀ f, s'.w.flush = some f → ∀ k ∈ f.taken, k ∉ s.late → ∀ b, lookup Bar.key k s.w.bars = some b →
      b.row ∈ s.rowsFor k f)
    (htodo : ∀ held done todo rows, s'.w.flush = some (.read held done todo rows) → ∀ k ∈ todo, k ∉ s.late) :
    Tracked s' := by
  obtain ⟨hbars, hdb, hlog, hsince, hlate⟩ := hsame
  have hrows : ∀ k f, s'.rowsFor k f = s.rowsFor k f := by
    intro k f
    cases f <;> simp only [Watch.rowsFor, hlog, hsince]
  refine ⟨hbars ▸ ht.nodup, ?_, ?_, ?_, ?_, ?_⟩
  · rw [hsince, hlog]
    exact ht.since
  · rw [hdb, hlog]
    exact ht.table
  · rw [hdb]
    exact hfresh
  · rw [hbars, hlate]
    intro f hf k hk hl b hb
    rw [hrows]
    exact htaken f hf k hk hl b hb
  · rw [hlate]
    exact htodo

theorem Tracked.sameFlush {s s' : Watch F} (ht : Tracked s) (hsame : Unchanged s s')
    (hflush : s'.w.flush = s.w.flush) : Tracked s' := by
  refine ht.setFlush hsame ?_ ?_ ?_ <;> rw [hflush]
  · exact ht.fresh
  · exact ht.taken
  · exact ht.todo

/-- The flush goes on: what it has taken it had, and the rows are where they were. -/
theorem Tracked.goOn {s s' : Watch F} (ht : Tracked s) {f f' : Flush F} (hf : s.w.flush = some f)
    (hf' : s'.w.flush = some f')
    (hsame : Unchanged s s') (htaken : f'.taken ⊆ f.taken) (hrows : ∀ k, s.rowsFor k f ⊆ s.rowsFor k f')
    (hfresh : ∀ b done, f' = .write b done → Fresh s.w.db b ∨ done = [])
    (hread : ∀ held done todo rows, f' ≠ .read held done todo rows) :
    Tracked s' := by
  refine ht.setFlush hsame ?_ ?_ ?_ <;> rw [hf']
  · exact fun b done h => hfresh b done (Option.some.inj h)
  · rintro f'' h k hk hl b hb
    cases h
    exact hrows k (ht.taken f hf k (htaken hk) hl b hb)
  · exact fun held done todo rows h => absurd (Option.some.inj h) (hread held done todo rows)

/-- A flush that has taken nothing, or no flush. -/
theorem Tracked.none_taken {s s' : Watch F} (ht : Tracked s) (hsame : Unchanged s s') (htaken : s'.w.takenKeys = [])
    (hfresh : ∀ b done, s'.w.flush = some (.write b done) → done = [])
    (hread : ∀ held done todo rows, s'.w.flush ≠ some (.read held done todo rows)) :
    Tracked s' := by
  refine ht.setFlush hsame (fun b done h => .inr (hfresh b done h)) ?_ fun held done todo rows h =>
    absurd h (hread held done todo rows)
  intro f hf k hk
  have hnil : f.taken = [] := by
    rw [State.takenKeys, hf] at htaken
    exact htaken
  rw [hnil] at hk
  cases hk

/-- A bar that is new, or that a trade changes: if its row is taken, it is late from now on. -/
theorem Tracked.touch {s s' : Watch F} (ht : Tracked s) (kt : BarKey) (hnodup : (s'.w.bars.map Bar.key).Nodup)
    (hbars : ∀ k, k ≠ kt → lookup Bar.key k s'.w.bars = lookup Bar.key k s.w.bars) (hdb : s'.w.db = s.w.db)
    (hflush : s'.w.flush = s.w.flush) (hlog : s'.log = s.log)
    (hsince : s'.since = Function.update s.since kt s.log.length)
    (hlate : s'.late = s.late ++ [kt].filter fun k => s.w.takenKeys.contains k) : Tracked s' := by
  have hold : ∀ k, k ∈ s.w.takenKeys → k ∉ s'.late → k ≠ kt ∧ k ∉ s.late := by
    intro k hk hl
    rw [hlate, List.mem_append, not_or] at hl
    refine ⟨?_, hl.1⟩
    rintro rfl
    exact hl.2 (List.mem_filter.2 ⟨List.mem_singleton_self k, List.contains_iff_mem.2 hk⟩)
  refine ⟨hnodup, ?_, ?_, ?_, ?_, ?_⟩
  · intro k
    rw [hsince, hlog]
    by_cases hk : k = kt
    · rw [hk, Function.update_self]
    · rw [Function.update_of_ne hk]
      exact ht.since k
  · rw [hdb, hlog]
    exact ht.table
  · rw [hflush, hdb]
    exact ht.fresh
  · rw [hflush]
    intro f hf k hk hl b hb
    obtain ⟨hne, hl⟩ := hold k (by rw [State.takenKeys, hf]; exact hk) hl
    rw [hbars k hne] at hb
    have hrows : s'.rowsFor k f = s.rowsFor k f := by
      cases f <;> simp only [Watch.rowsFor, hlog, hsince, Function.update_of_ne hne]
    rw [hrows]
    exact ht.taken f hf k hk hl b hb
  · rw [hflush, hlate]
    intro held done todo rows hf k hk hl
    rcases List.mem_append.1 hl with hl | hl
    · exact ht.todo held done todo rows hf k hk hl
    · obtain ⟨hkt, htaken⟩ := List.mem_filter.1 hl
      have htaken : k ∈ s.w.takenKeys := List.contains_iff_mem.1 htaken
      rw [State.takenKeys, hf] at htaken
      have hnot := (List.mem_filter.1 htaken).2
      exact (of_decide_eq_true hnot) hk

/-- The batch goes to storage, or is there: the taken bars are written since. -/
theorem Tracked.write {s : Watch F} (ht : Tracked s) (cfg : Cfg) {b : StorageBatch F} {done : List BarKey}
    {committedAt : String}
    (hf : s.w.flush = some (.write b done)) :
    Tracked (s.next cfg (.write committedAt) { s.w with db := s.w.db.write b committedAt, flush := some (.stored b done) }) := by
  have hlog : upserted s.w (.write committedAt) = if s.w.db.receipts.any b.matches then [] else b.bars := by
    simp only [upserted, hf]
  refine ⟨ht.nodup, ?_, ?_, ?_, ?_, ?_⟩
  · intro k
    show s.since k ≤ (s.log ++ upserted s.w (.write committedAt)).length
    rw [List.length_append]
    exact Nat.le_add_right_of_le (ht.since k)
  · show (s.w.db.write b committedAt).bars = (s.log ++ upserted s.w (.write committedAt)).foldl _ []
    rw [hlog, List.foldl_append, ← ht.table, Tables.write]
    by_cases hany : s.w.db.receipts.any b.matches = true
    · rw [if_pos hany, if_pos hany]
      rfl
    · rw [if_neg hany, if_neg hany]
      rfl
  · rintro b' done' h
    cases h
  · rintro f h k hk hl bar hbar
    cases h
    show bar.row ∈ (s.log ++ upserted s.w (.write committedAt)).drop (s.since k)
    have hl : k ∉ s.late := by
      intro hin
      exact hl (List.mem_append_left _ hin)
    have hrow : bar.row ∈ b.bars := ht.taken _ hf k hk hl bar hbar
    rcases ht.fresh b done hf with hfresh | rfl
    · rw [hlog, any_matches_of_fresh hfresh]
      exact mem_drop_new (ht.since k) hrow
    · cases hk
  · rintro held done' todo rows h
    cases h

theorem Tracked.save {s : Watch F} (ht : Tracked s) (cfg : Cfg) {rows : List (BarRow F)} (hp : s.w.phase = .saving rows)
    (hf : s.w.flush = none) :
    Tracked (s.next cfg .save
      { s.w with
        db := { s.w.db with bars := rows.foldl (upsert BarRow.key BarRow.merge) s.w.db.bars }
        phase := .stopped true }) := by
  have hlog : upserted s.w .save = rows := by simp only [upserted, hp]
  refine ⟨ht.nodup, ?_, ?_, ?_, ?_, ?_⟩
  · intro k
    show s.since k ≤ (s.log ++ upserted s.w .save).length
    rw [List.length_append]
    exact Nat.le_add_right_of_le (ht.since k)
  · show rows.foldl _ s.w.db.bars = (s.log ++ upserted s.w .save).foldl _ []
    rw [hlog, List.foldl_append, ← ht.table]
  · intro b done h
    exact absurd (hf.symm.trans h) (by simp)
  · intro f h
    exact absurd (hf.symm.trans h) (by simp)
  · intro held done todo rows' h
    exact absurd (hf.symm.trans h) (by simp)

theorem Tracked.scan {s : Watch F} (ht : Tracked s) (cfg : Cfg) (nowNs : ℕ) {held : List Nat} {done : List BarKey} :
    Tracked (s.next cfg (.scan nowNs) { s.w with flush := some (.read held done done []) }) := by
  refine ⟨ht.nodup, ?_, ?_, ?_, ?_, ?_⟩
  · intro k
    exact (ht.since k).trans (by simp [Watch.next, upserted])
  · simpa [Watch.next, upserted] using ht.table
  · rintro b done' h
    cases h
  · rintro f h k hk
    cases h
    obtain ⟨hdone, hnot⟩ := List.mem_filter.1 hk
    exact absurd hdone (of_decide_eq_true hnot)
  · rintro held' done' todo rows h k hk hl
    cases hl

theorem tracked_step {cfg : Cfg} {s s' : Watch F} (hs : Sound s.w) (ht : Tracked s)
    {l : Label F} (h : watch cfg s l = some s') :
    Tracked s' := by
  obtain ⟨w', hw, rfl⟩ := Option.map_eq_some_iff.1 h
  cases step_moves hw with
  | arrive =>
    rename_i f now _ _
    obtain ⟨_, _, _, he, _⟩ := arrive_frame cfg s.w f now
    rw [he]
    exact ht.sameFlush (next_unchanged cfg s rfl rfl rfl rfl (by simp)) rfl
  | append hi =>
    exact ht.sameFlush (next_unchanged cfg s rfl rfl rfl rfl (by simp)) rfl
  | found hi hb =>
    exact ht.sameFlush (next_unchanged cfg s rfl rfl rfl (by simp [touched, hi, hb]) (by simp)) rfl
  | create hi hb =>
    rename_i t
    have htouch : touched cfg s.w .lookup = some (t.barKey cfg.barIntervalS) := by simp [touched, hi, hb]
    refine ht.touch (t.barKey cfg.barIntervalS) ?_ ?_ rfl rfl (List.append_nil _) ?_ ?_
    · show ((s.w.bars ++ [Bar.new _]).map Bar.key).Nodup
      rw [List.map_append, List.map_singleton, new_key, List.nodup_append]
      refine ⟨ht.nodup, List.nodup_singleton _, ?_⟩
      rintro k hk k' hk' rfl
      rw [List.mem_singleton.1 hk'] at hk
      exact not_mem_of_lookup hb hk
    · intro k hk
      show lookup Bar.key k (s.w.bars ++ [Bar.new _]) = _
      rw [lookup_append_single, new_key, if_neg (Ne.symm hk), Option.or_none]
    · show (touched cfg s.w .lookup).elim _ _ = _
      rw [htouch]
      rfl
    · show s.late ++ (touched cfg s.w .lookup).toList.filter _ = _
      rw [htouch]
      rfl
  | update hi =>
    rename_i t
    have htouch : touched cfg s.w .update = some (t.barKey cfg.barIntervalS) := by simp [touched, hi]
    refine ht.touch (t.barKey cfg.barIntervalS) ?_ ?_ rfl rfl (List.append_nil _) ?_ ?_
    · show ((s.w.bars.map fun b => if b.key = t.barKey cfg.barIntervalS then b.update t else b).map Bar.key).Nodup
      rw [map_key_update]
      exact ht.nodup
    · intro k hk
      show lookup Bar.key k (s.w.bars.map _) = _
      rw [lookup_update, if_neg hk]
    · show (touched cfg s.w .update).elim _ _ = _
      rw [htouch]
      rfl
    · show s.late ++ (touched cfg s.w .update).toList.filter _ = _
      rw [htouch]
      rfl
  | detached hi =>
    exact ht.sameFlush (next_unchanged cfg s rfl rfl rfl (by simp [touched, hi]) (by simp)) rfl
  | lockRetry hf hr =>
    exact ht.none_taken (next_unchanged cfg s rfl rfl rfl rfl (by simp)) rfl (by simp [Watch.next])
      (by simp [Watch.next])
  | lock hf hr =>
    exact ht.none_taken (next_unchanged cfg s rfl rfl rfl rfl (by simp)) rfl (by simp [Watch.next])
      (by simp [Watch.next])
  | swap hf =>
    exact ht.none_taken (next_unchanged cfg s rfl rfl rfl rfl (by simp)) rfl (by simp [Watch.next])
      (by simp [Watch.next])
  | scan hf => exact ht.scan cfg _
  | readAll hf =>
    refine ht.goOn hf rfl (next_unchanged cfg s rfl rfl rfl rfl (by simp)) ?_ (fun k => List.Subset.refl _)
      (by simp) (by simp)
    intro k hk
    exact List.mem_filter.2 ⟨hk, by simp⟩
  | read hf hb =>
    rename_i held k done todo rows b
    refine ht.setFlush (next_unchanged cfg s rfl rfl rfl rfl (by simp)) (by simp [Watch.next]) ?_ ?_
    · rintro f h k' hk' hl b' hb'
      cases h
      show b'.row ∈ rows ++ [b.row]
      by_cases hkk : k' = k
      · subst hkk
        obtain rfl := Option.some.inj (hb.symm.trans hb')
        exact List.mem_append_right _ (List.mem_singleton_self _)
      · obtain ⟨hdone, hnot⟩ := List.mem_filter.1 hk'
        have hmem : k' ∈ (Flush.read held done (k :: todo) rows).taken := by
          refine List.mem_filter.2 ⟨hdone, ?_⟩
          simpa [hkk] using hnot
        exact List.mem_append_left _ (ht.taken _ hf k' hmem hl b' hb')
    · rintro held' done' todo' rows' h k' hk'
      cases h
      exact ht.todo _ _ _ _ hf k' (List.mem_cons_of_mem k hk')
  | copy hf =>
    exact ht.goOn hf rfl (next_unchanged cfg s rfl rfl rfl rfl (by simp)) (List.Subset.refl _)
      (fun k => List.Subset.refl _) (by simp) (by simp)
  | make hf hb =>
    subst hb
    rename_i uuid digest copied done rows _
    exact ht.goOn hf rfl (next_unchanged cfg s rfl rfl rfl rfl (by simp)) (List.Subset.refl _)
      (fun k => List.Subset.refl _) (by simp) (by simp)
  | park hf =>
    rename_i b done
    refine ht.goOn hf rfl (next_unchanged cfg s rfl rfl rfl rfl (by simp)) (List.Subset.refl _) (fun k => List.Subset.refl _) ?_ (by simp)
    rintro b' done' h
    cases h
    exact .inl (hs.made b done hf)
  | write hf => exact ht.write cfg hf
  | clear hf =>
    exact ht.goOn hf rfl (next_unchanged cfg s rfl rfl rfl rfl (by simp)) (List.Subset.refl _) (fun k => List.Subset.refl _) (by simp) (by simp)
  | pop hf =>
    rename_i k todo
    obtain ⟨hlog, hsince, hlate⟩ := next_quiet cfg s (l := .pop) _ rfl rfl (by simp)
    refine ⟨?_, ?_, ?_, by simp [Watch.next], ?_, by simp [Watch.next]⟩
    · exact ht.nodup.sublist (List.filter_sublist.map _)
    · rw [hlog, hsince]
      exact ht.since
    · rw [hlog]
      exact ht.table
    · rintro f h k' hk' hl b hb
      cases h
      have hb : lookup Bar.key k' (erase Bar.key k s.w.bars) = some b := hb
      rw [lookup_erase] at hb
      obtain ⟨-, hb⟩ := Option.ite_none_left_eq_some.1 hb
      rw [hlate] at hl
      show b.row ∈ (s.next cfg .pop _).log.drop ((s.next cfg .pop _).since k')
      rw [hlog, hsince]
      exact ht.taken _ hf k' (List.mem_cons_of_mem k hk') hl b hb
  | unlock hf =>
    exact ht.none_taken (next_unchanged cfg s rfl rfl rfl rfl (by simp)) rfl (by simp [Watch.next, State.endFlush])
      (by simp [Watch.next, State.endFlush])
  | fail hf =>
    exact ht.none_taken (next_unchanged cfg s rfl rfl rfl rfl (by simp)) rfl (by simp [Watch.next, State.endFlush])
      (by simp [Watch.next, State.endFlush])
  | stop =>
    exact ht.sameFlush (next_unchanged cfg s rfl rfl rfl rfl (by simp)) rfl
  | lastRetry _ hf hr =>
    exact ht.none_taken (next_unchanged cfg s rfl rfl rfl rfl (by simp)) rfl (by simp [Watch.next])
      (by simp [Watch.next])
  | last _ hf hr =>
    exact ht.none_taken (next_unchanged cfg s rfl rfl rfl rfl (by simp)) rfl (by simp [Watch.next])
      (by simp [Watch.next])
  | skipLast =>
    exact ht.sameFlush (next_unchanged cfg s rfl rfl rfl rfl (by simp)) rfl
  | snapshot =>
    exact ht.sameFlush (next_unchanged cfg s rfl rfl rfl rfl (by simp)) rfl
  | save hp hf => exact ht.save cfg hp hf
  | saveFails =>
    exact ht.sameFlush (next_unchanged cfg s rfl rfl rfl rfl (by simp)) rfl

/-! ## From the stop request on -/

/-- The bar is in the dict, or in the rows of the final upsert. -/
def Phase.has (p : Phase F) (bars : List (Bar F)) (b : Bar F) : Prop :=
  match p with
  | .saving rows => b.row ∈ rows
  | .stopped _ => False
  | _ => lookup Bar.key b.key bars = some b

/-- The last flush has begun, or was not needed. -/
structure Stopping (s : Watch F) (rows : List (Row F)) (bars : List (Bar F)) : Prop where
  idle : s.w.ingest = none
  stopped : s.w.phase ≠ .running
  saved : s.w.phase ≠ .stopped false
  rows : rows.Subperm s.w.allRows
  fine : ∀ k ∈ s.w.takenKeys, k ∉ s.late
  bars : ∀ b ∈ bars, s.InStorage b ∨ s.w.phase.has s.w.bars b
  quiet : s.w.phase.past → Quiet s.w

/-- No frame comes any more, and the final upsert does not fail. -/
theorem stays_stopped {cfg : Cfg} {w w' : State F} {l : Label F} (hi : w.ingest = none) (hp : w.phase ≠ .running)
    (hsaved : w.phase ≠ .stopped false) (hl : l ≠ .saveFails) (h : step cfg w l = some w') :
    w'.ingest = none ∧ w'.phase ≠ .running ∧ w'.phase ≠ .stopped false := by
  have hend : w.phase.afterFlush ≠ .running ∧ w.phase.afterFlush ≠ .stopped false := by
    cases hph : w.phase <;> simp_all [Phase.afterFlush]
  cases step_moves h with
  | arrive _ hr => exact absurd hr hp
  | append hi' => exact absurd (hi.symm.trans hi') (by simp)
  | found hi' => exact absurd (hi.symm.trans hi') (by simp)
  | create hi' => exact absurd (hi.symm.trans hi') (by simp)
  | update hi' => exact absurd (hi.symm.trans hi') (by simp)
  | detached hi' => exact absurd (hi.symm.trans hi') (by simp)
  | pop hf => exact ⟨by simp [hi], hp, hsaved⟩
  | unlock hf => exact ⟨hi, hend⟩
  | fail hf => exact ⟨hi, hend⟩
  | stop hr => exact absurd hr hp
  | lastRetry => exact ⟨hi, by simp, by simp⟩
  | last => exact ⟨hi, by simp, by simp⟩
  | skipLast => exact ⟨hi, by simp, by simp⟩
  | snapshot => exact ⟨hi, by simp, by simp⟩
  | save => exact ⟨hi, by simp, by simp⟩
  | saveFails => exact absurd rfl hl
  | _ => exact ⟨hi, hp, hsaved⟩

/-- A bar that a flush takes now is as it is. -/
theorem fine_step {cfg : Cfg} {s : Watch F} {w' : State F} {l : Label F} (ht : Tracked s) (hi : s.w.ingest = none)
    (hfine : ∀ k ∈ s.w.takenKeys, k ∉ s.late) (h : step cfg s.w l = some w') :
    ∀ k ∈ w'.takenKeys, k ∉ (s.next cfg l w').late := by
  have hlate : ∀ k, k ∈ (s.next cfg l w').late → k ∈ s.late := by
    intro k hk
    cases l with
    | scan nowNs => cases hk
    | _ => simpa [Watch.next, touched_idle hi] using hk
  have hsub : ∀ {f f' : Flush F} {w : State F}, s.w.flush = some f → w.flush = some f' → f'.taken ⊆ f.taken →
      ∀ k ∈ w.takenKeys, k ∉ (s.next cfg l w').late := by
    intro f f' w hf hf' hsub k hk hl
    refine hfine k ?_ (hlate k hl)
    rw [State.takenKeys, hf'] at hk
    rw [State.takenKeys, hf]
    exact hsub hk
  have hnil : ∀ {ks : List BarKey}, ks = [] → ∀ k ∈ ks, k ∉ (s.next cfg l w').late := by
    rintro ks rfl k hk
    cases hk
  have hsame : ∀ {w : State F}, w.flush = s.w.flush → ∀ k ∈ w.takenKeys, k ∉ (s.next cfg l w').late := by
    intro w hw k hk hl
    refine hfine k ?_ (hlate k hl)
    rw [State.takenKeys, ← hw]
    exact hk
  cases step_moves h with
  | arrive =>
    rename_i f now _ _
    obtain ⟨_, _, _, he, _⟩ := arrive_frame cfg s.w f now
    rw [he] at hsame ⊢
    exact hsame rfl
  | append => exact hsame rfl
  | found => exact hsame rfl
  | create => exact hsame rfl
  | update => exact hsame rfl
  | detached => exact hsame rfl
  | lockRetry => exact hnil rfl
  | lock => exact hnil rfl
  | swap => exact hnil rfl
  | scan => exact fun k _ hk => by cases hk
  | readAll hf =>
    refine hsub hf rfl fun k hk => ?_
    exact List.mem_filter.2 ⟨hk, by simp⟩
  | read hf =>
    rename_i held k done todo rows b hb
    intro k' hk' hl
    obtain ⟨hdone, hnot⟩ := List.mem_filter.1 hk'
    by_cases hkk : k' = k
    · exact ht.todo _ _ _ _ hf k' (hkk ▸ List.mem_cons_self) (hlate k' hl)
    · refine hfine k' ?_ (hlate k' hl)
      rw [State.takenKeys, hf]
      refine List.mem_filter.2 ⟨hdone, ?_⟩
      simpa [hkk] using hnot
  | copy hf => exact hsub hf rfl (List.Subset.refl _)
  | make hf => exact hsub hf rfl (List.Subset.refl _)
  | park hf => exact hsub hf rfl (List.Subset.refl _)
  | write hf => exact hsub hf rfl (List.Subset.refl _)
  | clear hf => exact hsub hf rfl (List.Subset.refl _)
  | pop hf => exact hsub hf rfl (List.subset_cons_self _ _)
  | unlock => exact hnil rfl
  | fail => exact hnil rfl
  | stop => exact hsame rfl
  | lastRetry => exact hnil rfl
  | last => exact hnil rfl
  | skipLast => exact hsame rfl
  | snapshot => exact hsame rfl
  | save => exact hsame rfl
  | saveFails => exact hsame rfl

/-- A bar leaves the dict only when it is in storage. -/
theorem bars_step {cfg : Cfg} {s : Watch F} {w' : State F} {l : Label F} (ht : Tracked s) (hi : s.w.ingest = none)
    (hp : s.w.phase ≠ .running) (hfine : ∀ k ∈ s.w.takenKeys, k ∉ s.late) (hl : l ≠ .saveFails)
    (h : step cfg s.w l = some w') {b : Bar F}
    (hb : s.InStorage b ∨ s.w.phase.has s.w.bars b) :
    (s.next cfg l w').InStorage b ∨ w'.phase.has w'.bars b := by
  have hsince : (s.next cfg l w').since = s.since := by simp [Watch.next, touched_idle hi]
  have hkept : s.InStorage b → (s.next cfg l w').InStorage b := by
    intro h
    show b.row ∈ (s.log ++ upserted s.w l).drop ((s.next cfg l w').since b.key)
    rw [hsince]
    exact mem_drop_append h
  rcases hb with hb | hb
  · exact .inl (hkept hb)
  have hend : s.w.phase.afterFlush.has s.w.bars b := by
    cases hph : s.w.phase <;> rw [hph] at hb <;> exact hb
  cases step_moves h with
  | arrive _ hr => exact absurd hr hp
  | append hi' => exact absurd (hi.symm.trans hi') (by simp)
  | found hi' => exact absurd (hi.symm.trans hi') (by simp)
  | create hi' => exact absurd (hi.symm.trans hi') (by simp)
  | update hi' => exact absurd (hi.symm.trans hi') (by simp)
  | detached hi' => exact absurd (hi.symm.trans hi') (by simp)
  | pop hf =>
    rename_i k todo
    by_cases hk : b.key = k ∧ lookup Bar.key b.key s.w.bars = some b
    · refine .inl (hkept ?_)
      have hmem : b.key ∈ s.w.takenKeys := by
        rw [State.takenKeys, hf]
        exact hk.1 ▸ List.mem_cons_self
      exact ht.taken _ hf b.key (hk.1 ▸ List.mem_cons_self) (hfine _ hmem) b hk.2
    · refine .inr ?_
      have herase : lookup Bar.key b.key s.w.bars = some b →
          lookup Bar.key b.key (erase Bar.key k s.w.bars) = some b := by
        intro hlk
        rw [lookup_erase, if_neg fun he => hk ⟨he, hlk⟩]
        exact hlk
      show s.w.phase.has (erase Bar.key k s.w.bars) b
      cases hph : s.w.phase <;> rw [hph] at hb <;> first | exact herase hb | exact hb
  | unlock hf => exact .inr hend
  | fail hf => exact .inr hend
  | stop hr => exact absurd hr hp
  | lastRetry hph => exact .inr (by rw [hph] at hb; exact hb)
  | last hph => exact .inr (by rw [hph] at hb; exact hb)
  | skipLast hph => exact .inr (by rw [hph] at hb; exact hb)
  | snapshot hph =>
    rw [hph] at hb
    exact .inr (List.mem_map_of_mem (mem_of_lookup hb))
  | save hph hf =>
    rename_i rows
    rw [hph] at hb
    refine .inl ?_
    have hlog : upserted s.w .save = rows := by simp only [upserted, hph]
    show b.row ∈ (s.log ++ upserted s.w .save).drop (s.since b.key)
    rw [hlog]
    exact mem_drop_new (ht.since b.key) hb
  | saveFails => exact absurd rfl hl
  | _ => exact .inr hb

/-- The last flush begins on empty buffers, or takes them. -/
theorem quiet_begin {cfg : Cfg} {w w' : State F} {l : Label F} (hph : w.phase = .stopping)
    (hd : l = .lockLast → w.retry.isNone = true ∨ ∀ k ∈ kinds, w.list (w.refs k) = []) (h : step cfg w l = some w')
    (hp : w'.phase.past) :
    Quiet w' := by
  cases step_moves h with
  | arrive _ hr => exact absurd (hr.symm.trans hph) (by simp)
  | pop => exact absurd hph hp.2
  | unlock =>
    refine absurd ?_ hp.2
    show w.phase.afterFlush = _
    rw [hph]
    rfl
  | fail =>
    refine absurd ?_ hp.2
    show w.phase.afterFlush = _
    rw [hph]
    rfl
  | stop hr => exact absurd (hr.symm.trans hph) (by simp)
  | lastRetry _ hf hr =>
    refine ⟨fun k hk => ?_, fun b' hb' => ?_⟩
    · rcases hd rfl with hnone | hempty
      · rw [hr] at hnone
        cases hnone
      · exact hempty k (emptied_subset _ hk)
    · obtain rfl := Option.some.inj (hr.symm.trans hb')
      exact ⟨[], .inl rfl⟩
  | last _ hf hr => exact ⟨fun k hk => (by cases hk), fun b hb => absurd (hr.symm.trans hb) (by simp)⟩
  | skipLast _ hpend =>
    simp only [State.hasPending, Bool.or_eq_false_iff, List.any_eq_false] at hpend
    refine ⟨fun k hk => ?_, fun b hb => ?_⟩
    · show w.list (w.refs k) = []
      simpa using hpend.1.2 k (emptied_subset _ hk)
    · have hnone := hpend.1.1
      have hb : w.retry = some b := hb
      rw [hb] at hnone
      cases hnone
  | snapshot hr => exact absurd (hr.symm.trans hph) (by simp)
  | save hr => exact absurd (hr.symm.trans hph) (by simp)
  | saveFails hr => exact absurd (hr.symm.trans hph) (by simp)
  | _ => exact absurd hph hp.2

theorem stopping_step {cfg : Cfg} {s s' : Watch F} {l : Label F} {rows : List (Row F)} {bars : List (Bar F)}
    (hs : Sound s.w)
    (ht : Tracked s) (h : Stopping s rows bars) (hfail : l ≠ .fail) (hsave : l ≠ .saveFails) (hd : drains s l = true)
    (hw : watch cfg s l = some s') : Stopping s' rows bars := by
  obtain ⟨w', hstep, rfl⟩ := Option.map_eq_some_iff.1 hw
  obtain ⟨hidle, hstopped, hsaved⟩ := stays_stopped h.idle h.stopped h.saved hsave hstep
  refine ⟨hidle, hstopped, hsaved, ?_, fine_step ht h.idle h.fine hstep, ?_, ?_⟩
  · exact h.rows.trans (allRows_step hs h.idle hfail hstep).symm.subperm
  · exact fun b hb => bars_step ht h.idle h.stopped h.fine hsave hstep (h.bars b hb)
  · intro hp
    by_cases hph : s.w.phase = .stopping
    · refine quiet_begin hph ?_ hstep hp
      rintro rfl
      simpa [drains] using hd
    · exact quiet_step hs (h.quiet ⟨h.stopped, hph⟩) ⟨h.stopped, hph⟩ h.idle hfail hstep

/-- The stop request. -/
theorem stopping_begin {cfg : Cfg} {s s' : Watch F} (hs : Sound s.w) (ht : Tracked s) (hd : drains s .stop = true)
    (hw : watch cfg s .stop = some s') : Stopping s' s.w.bufferedAtStop s.w.bars := by
  obtain ⟨w', hstep, rfl⟩ := Option.map_eq_some_iff.1 hw
  have hlate : (s.next cfg .stop w').late = s.late := List.append_nil _
  cases step_moves hstep with
  | stop hr hi =>
    refine ⟨hi, by simp [Watch.next], by simp [Watch.next], ?_, ?_, ?_, ?_⟩
    · exact hs.buffered_subperm
    · rw [hlate]
      show ∀ k ∈ s.w.takenKeys, k ∉ s.late
      simpa [drains] using hd
    · exact fun b hb => .inr (lookup_key_of_nodup ht.nodup hb)
    · exact fun hp => absurd rfl hp.2

end

/-! ## Runs -/

/-- A write fails, another row comes, and then the stop. -/
def retryAtStop : List (Label ℤ) :=
  ([.arrive (signalFrame 1) 0, .append] : List (Label ℤ)) ++ collect ++
    ([.make "u1" "d1", .park, .fail, .arrive (signalFrame 2) 1, .append, .stop, .lockLast, .write "t1", .clear, .unlock,
      .snapshot, .save] : List (Label ℤ))

/-- A trade comes after the flush took the row of its bar, and then the stop. -/
def lateAtStop : List (Label ℤ) :=
  ingestTrade 1 2 ++ parkBars "u1" ++ ingestTrade 2 3 ++ ([.stop] : List (Label ℤ)) ++ storeBars ++
    ([.lockLast, .swap, .swap, .swap, .scan 60000000000, .read, .copy, .copy, .copy, .make "u2" "d", .park,
      .write "t", .clear,
      .unlock, .snapshot, .save] : List (Label ℤ))

end Writer
