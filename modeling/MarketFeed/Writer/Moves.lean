import MarketFeed.Writer.Step
/-!
# What a step of the writer can do

`Move cfg w lbl w'` has one constructor for each step, with what the step found and what it leaves.
`step_moves` reads every step as a move; the invariants of the next modules go by the moves and never
unfold `step`.
-/

namespace Writer

open Storage Keyed Clock

variable {F : Type} [CommRing F] [Div F] [LinearOrder F]

inductive Move (cfg : Cfg) (w : State F) : Label F → State F → Prop
  | arrive {f : Frame F} {now : ℚ} : w.ingest = none → w.phase = .running →
      Move cfg w (.arrive f now) (w.arrive cfg f now)
  | append {row : Row F} {ref : Nat} {t : Option (Trade F)} : w.ingest = some (.append row ref t) →
    Move cfg w .append
      { w with lists := w.lists.modify ref (· ++ [row]), accepted := w.accepted ++ [row], ingest := t.map .lookup }
  | found {t : Trade F} : w.ingest = some (.lookup t) → (lookup Bar.key (t.barKey cfg.barIntervalS) w.bars).isSome →
    Move cfg w .lookup { w with ingest := some (.update t true) }
  | create {t : Trade F} : w.ingest = some (.lookup t) → lookup Bar.key (t.barKey cfg.barIntervalS) w.bars = none →
    Move cfg w .lookup
      { w with bars := w.bars ++ [Bar.new (t.barKey cfg.barIntervalS)], ingest := some (.update t true) }
  | update {t : Trade F} : w.ingest = some (.update t true) →
    Move cfg w .update
      { w with
        bars := w.bars.map fun b => if b.key = t.barKey cfg.barIntervalS then b.update t else b
        ingested := w.ingested ++ [t]
        ingest := none }
  | detached {t : Trade F} : w.ingest = some (.update t false) →
    Move cfg w .update { w with ingested := w.ingested ++ [t], ingest := none }
  | lockRetry {b : StorageBatch F} : w.flush = none → w.retry = some b →
    Move cfg w .lock { w with flush := some (.write b []) }
  | lock : w.flush = none → w.retry = none → Move cfg w .lock { w with flush := some (.swap []) }
  | swap {held : List Nat} {k : Kind} : w.flush = some (.swap held) → kinds[held.length]? = some k →
    Move cfg w .swap
      { w with
        flush := some (.swap (held ++ [w.refs k]))
        refs := Function.update w.refs k w.lists.length
        lists := w.lists ++ [[]] }
  | scan {held : List Nat} {nowNs : Nat} {done : List BarKey} : w.flush = some (.swap held) →
      held.length = kinds.length →
    done = (w.bars.map (·.key)).filter (fun k => k.2.2 < bucketOf cfg.barIntervalS nowNs) →
    Move cfg w (.scan nowNs) { w with flush := some (.read held done done []) }
  | readAll {held : List Nat} {done : List BarKey} {rows : List (BarRow F)} : w.flush = some (.read held done [] rows) →
    Move cfg w .read { w with flush := some (.copy held [] done rows) }
  | read {held : List Nat} {k : BarKey} {done todo : List BarKey} {rows : List (BarRow F)} {b : Bar F} :
    w.flush = some (.read held done (k :: todo) rows) → lookup Bar.key k w.bars = some b →
    Move cfg w .read { w with flush := some (.read held done todo (rows ++ [b.row])) }
  | copy {ref : Nat} {refs : List Nat} {copied : List (Row F)} {done : List BarKey} {rows : List (BarRow F)} :
    w.flush = some (.copy (ref :: refs) copied done rows) →
    Move cfg w .copy { w with flush := some (.copy refs (copied ++ w.list ref) done rows) }
  | make {uuid digest : String} {copied : List (Row F)} {done : List BarKey} {rows : List (BarRow F)}
      {b : StorageBatch F} :
    w.flush = some (.copy [] copied done rows) → b = makeStorageBatch uuid digest copied rows →
    (∀ r ∈ w.db.receipts, b.matches r = false) → Move cfg w (.make uuid digest) { w with flush := some (.made b done) }
  | park {b : StorageBatch F} {done : List BarKey} : w.flush = some (.made b done) →
    Move cfg w .park { w with retry := some b, flush := some (.write b done) }
  | write {b : StorageBatch F} {done : List BarKey} {committedAt : String} : w.flush = some (.write b done) →
    Move cfg w (.write committedAt) { w with db := w.db.write b committedAt, flush := some (.stored b done) }
  | clear {b : StorageBatch F} {done : List BarKey} : w.flush = some (.stored b done) →
    Move cfg w .clear { w with retry := none, flush := some (.pop done) }
  | pop {k : BarKey} {todo : List BarKey} : w.flush = some (.pop (k :: todo)) →
    Move cfg w .pop { w with bars := erase Bar.key k w.bars, ingest := w.ingest.map (·.detach cfg k), flush := some (.pop todo) }
  | unlock : w.flush = some (.pop []) → Move cfg w .unlock w.endFlush
  | fail {fl : Flush F} : w.flush = some fl → Move cfg w .fail w.endFlush
  | stop : w.phase = .running → w.ingest = none → Move cfg w .stop { w with phase := .stopping }
  | lastRetry {b : StorageBatch F} : w.phase = .stopping → w.flush = none → w.retry = some b →
    Move cfg w .lockLast { w with flush := some (.write b []), phase := .lastFlush }
  | last : w.phase = .stopping → w.flush = none → w.retry = none →
    Move cfg w .lockLast { w with flush := some (.swap []), phase := .lastFlush }
  | skipLast : w.phase = .stopping → w.hasPending = false → Move cfg w .skipLast { w with phase := .flushed }
  | snapshot : w.phase = .flushed → Move cfg w .snapshot { w with phase := .saving (w.bars.map (·.row)) }
  | save {rows : List (BarRow F)} : w.phase = .saving rows → w.flush = none →
    Move cfg w .save
      { w with
        db := { w.db with bars := rows.foldl (upsert BarRow.key BarRow.merge) w.db.bars }
        phase := .stopped true }
  | saveFails {rows : List (BarRow F)} : w.phase = .saving rows → Move cfg w .saveFails { w with phase := .stopped false }

/-- **Every step is a move.** -/
theorem step_moves {cfg : Cfg} {w w' : State F} {lbl : Label F} (h : step cfg w lbl = some w') : Move cfg w lbl w' := by
  cases lbl with
  | arrive f now =>
    simp only [step] at h
    split at h
    · rename_i hc
      cases h
      exact .arrive hc.1 hc.2
    · cases h
  | append =>
    simp only [step] at h
    split at h
    · rename_i hi
      cases h
      exact .append hi
    · cases h
  | lookup =>
    simp only [step] at h
    split at h
    · rename_i t hi
      by_cases hb : (lookup Bar.key (t.barKey cfg.barIntervalS) w.bars).isSome
      · rw [if_pos hb] at h
        cases h
        exact .found hi hb
      · rw [if_neg hb] at h
        cases h
        exact .create hi (by simpa using hb)
    · cases h
  | update =>
    simp only [step] at h
    split at h
    · rename_i t attached hi
      cases attached with
      | true => cases h; exact .update hi
      | false => cases h; exact .detached hi
    · cases h
  | lock =>
    simp only [step] at h
    split at h
    · rename_i hf
      cases h
      cases hr : w.retry with
      | none => simpa only [State.lockFlush, hr] using Move.lock hf hr
      | some b => simpa only [State.lockFlush, hr] using Move.lockRetry hf hr
    · cases h
  | swap =>
    simp only [step] at h
    split at h
    · rename_i held hf
      split at h
      · rename_i k hk
        cases h
        exact .swap hf hk
      · cases h
    · cases h
  | scan nowNs =>
    simp only [step] at h
    split at h
    · rename_i held hf
      split at h
      · rename_i hl
        cases h
        exact .scan hf hl rfl
      · cases h
    · cases h
  | read =>
    simp only [step] at h
    split at h
    · rename_i held done rows hf
      cases h
      exact .readAll hf
    · rename_i held done k todo rows hf
      rw [Option.map_eq_some_iff] at h
      obtain ⟨b, hb, rfl⟩ := h
      exact .read hf hb
    · cases h
  | copy =>
    simp only [step] at h
    split at h
    · rename_i hf
      cases h
      exact .copy hf
    · cases h
  | make uuid digest =>
    simp only [step] at h
    split at h
    · rename_i copied done rows hf
      split at h
      · cases h
      · rename_i hno
        cases h
        exact .make hf rfl fun r hr => by simpa using fun hm => hno (List.any_eq_true.2 ⟨r, hr, hm⟩)
    · cases h
  | park =>
    simp only [step] at h
    split at h
    · rename_i hf
      cases h
      exact .park hf
    · cases h
  | write committedAt =>
    simp only [step] at h
    split at h
    · rename_i hf
      cases h
      exact .write hf
    · cases h
  | clear =>
    simp only [step] at h
    split at h
    · rename_i hf
      cases h
      exact .clear hf
    · cases h
  | pop =>
    simp only [step] at h
    split at h
    · rename_i k todo hf
      cases h
      exact .pop hf
    · cases h
  | unlock =>
    simp only [step] at h
    split at h
    · rename_i hf
      cases h
      exact .unlock hf
    · cases h
  | fail =>
    simp only [step] at h
    split at h
    · cases h
    · rename_i hf
      obtain ⟨fl, hfl⟩ := Option.ne_none_iff_exists'.1 hf
      cases h
      exact .fail hfl
  | stop =>
    simp only [step] at h
    split at h
    · rename_i hc
      cases h
      exact .stop hc.1 hc.2
    · cases h
  | lockLast =>
    simp only [step] at h
    split at h
    · rename_i hc
      cases h
      cases hr : w.retry with
      | none => simpa only [State.lockFlush, hr] using Move.last hc.1 hc.2 hr
      | some b => simpa only [State.lockFlush, hr] using Move.lastRetry hc.1 hc.2 hr
    · cases h
  | skipLast =>
    simp only [step] at h
    split at h
    · rename_i hc
      cases h
      exact .skipLast hc.1 hc.2
    · cases h
  | snapshot =>
    simp only [step] at h
    split at h
    · rename_i hp
      cases h
      exact .snapshot hp
    · cases h
  | save =>
    simp only [step] at h
    split at h
    · rename_i rows hp
      split at h
      · rename_i hf
        cases h
        exact .save hp hf
      · cases h
    · cases h
  | saveFails =>
    simp only [step] at h
    split at h
    · rename_i rows hp
      cases h
      exact .saveFails hp
    · cases h

/-- An arrival changes the clock and the sampling of books, and may leave a row to append. -/
theorem arrive_frame (cfg : Cfg) (w : State F) (f : Frame F) (now : ℚ) :
    ∃ clock lastBookAt i, w.arrive cfg f now = { w with clock := clock, lastBookAt := lastBookAt, ingest := i } ∧
      (i = w.ingest ∨ ∃ row ref t, i = some (.append row ref t)) := by
  unfold State.arrive
  split
  · exact ⟨_, _, _, rfl, .inl rfl⟩
  · split
    · exact ⟨_, _, _, rfl, .inr ⟨_, _, _, rfl⟩⟩
    · simp only
      split
      · exact ⟨_, _, _, rfl, .inl rfl⟩
      · exact ⟨_, _, _, rfl, .inr ⟨_, _, _, rfl⟩⟩
    · exact ⟨_, _, _, rfl, .inr ⟨_, _, _, rfl⟩⟩

end Writer
