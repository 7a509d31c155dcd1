import MarketFeed.Lib.Lists
import MarketFeed.Migration.Fingerprint
import MarketFeed.Migration.Copy
/-!
# Crashes and restarts (engine.py:26-63, :102-226)

Data and progress are committed together, so the committed target is always a prefix of the source by
rowid: of each table the rows up to the checkpoint, no more and no less (`Good`). An attempt may stop at
any statement; the next one, with its own chunk size, reads on from the checkpoint, and finds nothing
that its checks would turn away.
-/

namespace Migration

open Lists

variable {R H F : Type}

/-! ## What has been copied -/

section Copied

variable (env : Env R H F) (src : Source R) (t : TableCatalog)

/-- A source row as the target stores it. -/
def Env.stored (r : ℤ × SqlRow R) : Option (PgRow R) := (env.normalizeSqliteRow t r.2).bind (postgresRow t)

/-- `rows` are the source rows with a rowid of at most `p`, each once. -/
def Env.CopiedTo (p : ℤ) (rows : List (PgRow R)) : Prop :=
  rows.map some = (Keyset.upTo p (src.table t.name)).map (env.stored t)

/-- `rows` are the source rows, each once. -/
def Env.Complete (rows : List (PgRow R)) : Prop := rows.map some = (src.table t.name).map (env.stored t)

end Copied

section Chunk

variable {env : Env R H F} {src : Source R} {t : TableCatalog} {p limit : ℤ} {raw chunk : List (ℤ × SqlRow R)}

theorem normalizeRows_fst (h : env.normalizeRows t raw = some chunk) : chunk.map Prod.fst = raw.map Prod.fst := by
  have hopt : (chunk.map Prod.fst).map some = (raw.map Prod.fst).map some := by
    have h' := congrArg (List.map (Option.map Prod.fst)) (mapM_eq_some.1 h)
    rw [List.map_map, List.map_map] at h'
    rw [List.map_map, List.map_map]
    have hchunk : chunk.map (Option.map Prod.fst ∘ some) = chunk.map (some ∘ Prod.fst) := rfl
    rw [← hchunk, ← h']
    refine List.map_congr_left fun r hr => ?_
    obtain ⟨n, -, hn⟩ := mapM_mem h hr
    obtain ⟨m, hm, -⟩ := Option.map_eq_some_iff.1 hn
    simp [hm]
  exact List.map_injective_iff.2 (Option.some_injective ℤ) hopt

/-- The rows of a chunk, as they are inserted. -/
theorem normalizeRows_stored {converted : List (PgRow R)} (h : env.normalizeRows t raw = some chunk)
    (hc : (chunk.map Prod.snd).mapM (postgresRow t) = some converted) :
    converted.map some = raw.map (env.stored t) := by
  rw [← mapM_eq_some.1 hc]
  have hsnd : raw.map (fun r => env.normalizeSqliteRow t r.2) = (chunk.map Prod.snd).map some := by
    have h' := congrArg (List.map (Option.map Prod.snd)) (mapM_eq_some.1 h)
    rw [List.map_map, List.map_map] at h'
    rw [List.map_map]
    refine Eq.trans (List.map_congr_left fun r _ => ?_) h'
    simp [Function.comp_def]
  calc (chunk.map Prod.snd).map (postgresRow t)
      = ((chunk.map Prod.snd).map some).map (fun o => o.bind (postgresRow t)) := by
        simp [Function.comp_def]
    _ = raw.map (env.stored t) := by
        rw [← hsnd, List.map_map]
        rfl

/-- A chunk that was read takes the copy from the old checkpoint to its own, and reads again as itself. -/
theorem readSqliteChunk_spec (h : env.readSqliteChunk src t p limit = some chunk) (hne : chunk ≠ []) (rowCount : ℕ) :
    Keyset.upTo (env.chunkCheckpoint chunk rowCount).lastRowid (src.table t.name) =
        Keyset.upTo p (src.table t.name) ++ Keyset.chunk p limit (src.table t.name) ∧
      env.readSqliteRowidRange src t (env.chunkCheckpoint chunk rowCount).firstRowid
        (env.chunkCheckpoint chunk rowCount).lastRowid = some chunk := by
  have hfst := normalizeRows_fst h
  have hrawne : Keyset.chunk p limit (src.table t.name) ≠ [] := by
    intro hnil
    rw [hnil] at hfst
    exact hne (List.map_eq_nil_iff.1 hfst)
  obtain ⟨mid, l, hsplit⟩ := (List.eq_nil_or_concat' _).resolve_left hrawne
  obtain ⟨f, hf⟩ : ∃ f, (mid ++ [l]).head? = some f := Option.isSome_iff_exists.1 (by cases mid <;> rfl)
  have hlast : (env.chunkCheckpoint chunk rowCount).lastRowid = l.1 := by
    have := congrArg List.getLast? hfst
    rw [hsplit, List.getLast?_map, List.getLast?_map, List.getLast?_concat] at this
    rw [Env.chunkCheckpoint, this]
    rfl
  have hfirst : (env.chunkCheckpoint chunk rowCount).firstRowid = f.1 := by
    have := congrArg List.head? hfst
    rw [hsplit, List.head?_map, List.head?_map, hf] at this
    rw [Env.chunkCheckpoint, this]
    rfl
  have hasc := src.ascending t.name
  rw [hlast, hfirst, Env.readSqliteRowidRange, Keyset.upTo_chunk hasc hsplit, Keyset.between_chunk hasc hsplit hf,
    ← hsplit]
  exact ⟨rfl, h⟩

/-- An empty chunk: the table is read, or the chunk size is zero. -/
theorem readSqliteChunk_nil (h : env.readSqliteChunk src t p limit = some []) (hlimit : limit ≠ 0) :
    Keyset.upTo p (src.table t.name) = src.table t.name := by
  have hraw : Keyset.chunk p limit (src.table t.name) = [] := by
    have hfst := normalizeRows_fst h
    exact List.map_eq_nil_iff.1 hfst.symm
  exact Keyset.upTo_of_after_nil ((Keyset.limited_eq_nil hraw).resolve_left hlimit)

end Chunk

/-! ## The invariant -/

section Invariant

variable (env : Env R H F) (src : Source R) (run : String) (d : StorageDigest H F)

/-- A committed target: a prefix of every table, behind a checkpoint that a restart accepts. -/
structure Good (g : Target R H F) : Prop where
  copied : ∀ t ∈ CATALOG, env.CopiedTo src t (g.position run t) (g.rows t.name)
  counted : ∀ t ∈ CATALOG, g.count run t = (Keyset.upTo (g.position run t) (src.table t.name)).length
  readable : ∀ t ∈ CATALOG, ∀ cp, g.checkpoint (run, t.name) = some cp →
    ∃ chunk, env.readSqliteRowidRange src t cp.firstRowid cp.lastRowid = some chunk ∧
      chunk.length = cp.chunkRowCount ∧ cp.chunkHash = env.chunkContentHash chunk
  sameSource : ∀ r, g.run run = some r → r.sourceFingerprint = d.fingerprint
  registered : g.run run = none → ∀ t ∈ CATALOG, g.checkpoint (run, t.name) = none

/-- The tables before `todo` are read to their end, unless the chunk size is zero. -/
def Progress (chunkSize : ℤ) (g : Target R H F) (todo : List TableCatalog) : Prop :=
  ∃ before, CATALOG = before ++ todo ∧ (chunkSize ≠ 0 → ∀ t ∈ before, env.Complete src t (g.rows t.name))

/-- The target is a complete copy; a chunk size of zero copies nothing, and only the fingerprints tell. -/
def Finished (chunkSize : ℤ) (g : Target R H F) : Prop :=
  chunkSize ≠ 0 ∨ Function.Injective env.fingerprint → ∀ t ∈ CATALOG, env.Complete src t (g.rows t.name)

/-- In the middle of a chunk of `t`: the rows of `table` are inserted, those of `todo` are not. -/
structure Inserting (chunkSize : ℤ) (g work : Target R H F) (t : TableCatalog) (rest : List TableCatalog)
    (chunk : List (ℤ × SqlRow R)) (rowCount : ℕ) (todo : List (PgRow R)) : Prop where
  progress : Progress env src chunkSize g (t :: rest)
  registered : g.run run ≠ none
  read : env.readSqliteChunk src t (g.position run t) chunkSize = some chunk
  nonempty : chunk ≠ []
  rowCount_eq : rowCount = g.count run t + chunk.length
  work_eq : ∃ table, work = { g with rows := Function.update g.rows t.name table } ∧
    env.CopiedTo src t (env.chunkCheckpoint chunk rowCount).lastRowid (table ++ todo)

/-- What an attempt knows of the committed target `g` at each statement. -/
def Attempt.Fits (g : Target R H F) (a : Attempt R H F) : Prop :=
  match a.pc with
  | .initSchema | .lock | .assertEmpty | .readCheckpoints | .ensureRun => a.work = g
  | .validate todo => a.work = g ∧ ∀ x ∈ todo, x.1 ∈ CATALOG ∧ g.checkpoint (run, x.1.name) = some x.2
  | .commitRun => Good env src run d a.work ∧ a.work.run run ≠ none
  | .tables todo => a.work = g ∧ g.run run ≠ none ∧ Progress env src a.chunkSize g todo
  | .readChunk t rest p => a.work = g ∧ g.run run ≠ none ∧ Progress env src a.chunkSize g (t :: rest) ∧
      p = g.position run t
  | .readCount t rest chunk => a.work = g ∧ g.run run ≠ none ∧ Progress env src a.chunkSize g (t :: rest) ∧
      env.readSqliteChunk src t (g.position run t) a.chunkSize = some chunk ∧ chunk ≠ []
  | .insert t rest chunk rowCount todo => Inserting env src run a.chunkSize g a.work t rest chunk rowCount todo
  | .upsert t rest chunk rowCount => Inserting env src run a.chunkSize g a.work t rest chunk rowCount []
  | .commitChunk t rest _ => Good env src run d a.work ∧ a.work.run run ≠ none ∧
      Progress env src a.chunkSize a.work (t :: rest)
  | .verify => a.work = g ∧ g.run run ≠ none ∧ Progress env src a.chunkSize g []
  | .complete => a.work = g ∧ g.run run ≠ none ∧ Finished env src a.chunkSize g
  | .commitComplete => Good env src run d a.work ∧ Finished env src a.chunkSize a.work
  | .done => Finished env src a.chunkSize g

def Inv (s : State R H F) : Prop :=
  Good env src run d s.target ∧ ∀ a, s.attempt = some a → Attempt.Fits env src run d s.target a

end Invariant

/-! ## One statement -/

section Statement

variable {env : Env R H F} {src : Source R} {run : String} {d : StorageDigest H F} {g work : Target R H F}
variable {chunkSize : ℤ} {t : TableCatalog} {rest : List TableCatalog} {chunk : List (ℤ × SqlRow R)} {rowCount : ℕ}

theorem good_empty (hpos : ∀ t ∈ CATALOG, ∀ r ∈ src.table t.name, 0 < r.1) (ready : Bool) :
    Good env src run d (Target.empty ready) where
  copied := fun t ht => by
    have hnil : Keyset.upTo 0 (src.table t.name) = [] := Keyset.upTo_eq_nil (hpos t ht)
    show env.CopiedTo src t 0 []
    rw [Env.CopiedTo, hnil]
    rfl
  counted := fun t ht => by
    have hnil : Keyset.upTo 0 (src.table t.name) = [] := Keyset.upTo_eq_nil (hpos t ht)
    show 0 = (Keyset.upTo 0 (src.table t.name)).length
    rw [hnil]
    rfl
  readable := fun _ _ _ h => (by cases h)
  sameSource := fun _ h => (by cases h)
  registered := fun _ _ _ => rfl

/-- The catalogue has one table of each name. -/
theorem eq_of_name {u : TableCatalog} (ht : t ∈ CATALOG) (hu : u ∈ CATALOG) (h : u.name = t.name) : u = t :=
  List.inj_on_of_nodup_map catalog_names_nodup hu ht h

/-- Nothing a checkpoint or a row depends on has changed. -/
theorem Good.of_same {g' : Target R H F} (h : Good env src run d g) (hrows : g'.rows = g.rows)
    (hcp : g'.checkpoint = g.checkpoint) (hsame : ∀ r, g'.run run = some r → r.sourceFingerprint = d.fingerprint)
    (hreg : g'.run run = none → g.run run = none) : Good env src run d g' where
  copied := by
    unfold Target.position
    rw [hrows, hcp]
    exact h.copied
  counted := by
    unfold Target.count Target.position
    rw [hcp]
    exact h.counted
  readable := by
    rw [hcp]
    exact h.readable
  sameSource := hsame
  registered := fun hnone => by
    rw [hcp]
    exact h.registered (hreg hnone)

/-- The run is registered with the fingerprint of the source. -/
theorem Good.setRun {row : RunRow F} (h : Good env src run d g) (hrow : row.sourceFingerprint = d.fingerprint) :
    Good env src run d { g with run := Function.update g.run run (some row) } := by
  have hself : Function.update g.run run (some row) run = some row := Function.update_self _ _ _
  refine h.of_same rfl rfl (fun r hr => ?_) fun hnone => ?_
  · cases hself.symm.trans hr
    exact hrow
  · cases hself.symm.trans hnone

theorem Progress.mem {todo : List TableCatalog} (h : Progress env src chunkSize g (t :: todo)) : t ∈ CATALOG := by
  obtain ⟨before, heq, -⟩ := h
  rw [heq]
  simp

/-- A table read to its end is behind us. -/
theorem Progress.next {todo : List TableCatalog} (h : Progress env src chunkSize g (t :: todo))
    (hc : chunkSize ≠ 0 → env.Complete src t (g.rows t.name)) : Progress env src chunkSize g todo := by
  obtain ⟨before, heq, hdone⟩ := h
  refine ⟨before ++ [t], by rw [heq, List.append_assoc, List.singleton_append], fun hcs u hu => ?_⟩
  rcases List.mem_append.1 hu with hu | hu
  · exact hdone hcs u hu
  · rw [List.mem_singleton.1 hu]
    exact hc hcs

/-- An empty chunk ends its table. -/
theorem Progress.readNil {todo : List TableCatalog} (hg : Good env src run d g)
    (h : Progress env src chunkSize g (t :: todo))
    (hread : env.readSqliteChunk src t (g.position run t) chunkSize = some []) : Progress env src chunkSize g todo := by
  refine h.next fun hcs => ?_
  have hcopied := hg.copied t h.mem
  rw [Env.CopiedTo, readSqliteChunk_nil hread hcs] at hcopied
  exact hcopied

theorem progress_all : Progress env src chunkSize g CATALOG := ⟨[], rfl, fun _ _ h => (by cases h)⟩

/-- The checkpoint of a chunk goes with the rows of the chunk. -/
theorem Inserting.good (hg : Good env src run d g)
    (h : Inserting env src run chunkSize g work t rest chunk rowCount []) :
    Good env src run d
      { work with checkpoint := Function.update work.checkpoint (run, t.name) (some (env.chunkCheckpoint chunk rowCount)) } := by
  obtain ⟨table, rfl, hcopied⟩ := h.work_eq
  rw [List.append_nil] at hcopied
  have ht := h.progress.mem
  obtain ⟨hup, hrange⟩ := readSqliteChunk_spec h.read h.nonempty rowCount
  have hpos : ∀ u ∈ CATALOG, u ≠ t → ∀ cp : Option (Checkpoint H),
      Function.update g.checkpoint (run, t.name) cp (run, u.name) = g.checkpoint (run, u.name) := by
    intro u hu hne cp
    refine Function.update_of_ne (fun heq => hne ?_) _ _
    exact eq_of_name ht hu (Prod.mk.inj heq).2
  have hself : ∀ cp : Option (Checkpoint H), Function.update g.checkpoint (run, t.name) cp (run, t.name) = cp :=
      fun cp =>
    Function.update_self _ _ _
  refine ⟨fun u hu => ?_, fun u hu => ?_, fun u hu cp hcp => ?_, hg.sameSource, fun hnone => absurd hnone h.registered⟩
  · by_cases hut : u = t
    · subst hut
      simp only [Target.position, hself, Option.map_some, Option.getD_some, Function.update_self]
      exact hcopied
    · have hname : u.name ≠ t.name := fun heq => hut (eq_of_name ht hu heq)
      simp only [Target.position, hpos u hu hut, Function.update_of_ne hname]
      exact hg.copied u hu
  · by_cases hut : u = t
    · subst hut
      simp only [Target.position, Target.count, hself, Option.map_some, Option.getD_some]
      have hlen : (Keyset.chunk (g.position run u) chunkSize (src.table u.name)).length = chunk.length :=
        (mapM_length h.read).symm
      rw [hup, List.length_append, hlen, ← hg.counted u hu]
      exact h.rowCount_eq
    · simp only [Target.position, Target.count, hpos u hu hut]
      exact hg.counted u hu
  · by_cases hut : u = t
    · subst hut
      cases (hself _).symm.trans hcp
      exact ⟨chunk, hrange, rfl, rfl⟩
    · exact hg.readable u hu cp ((hpos u hu hut _).symm.trans hcp)

/-- The tables before `t` keep their rows. -/
theorem Inserting.progress_work {todo : List (PgRow R)}
    (h : Inserting env src run chunkSize g work t rest chunk rowCount todo) :
    Progress env src chunkSize work (t :: rest) := by
  obtain ⟨table, rfl, -⟩ := h.work_eq
  obtain ⟨before, heq, hdone⟩ := h.progress
  refine ⟨before, heq, fun hcs u hu => ?_⟩
  have hne : u.name ≠ t.name := by
    intro hname
    have hn := catalog_names_nodup
    rw [heq, List.map_append, List.map_cons, List.nodup_append] at hn
    exact hn.2.2 u.name (List.mem_map_of_mem hu) t.name (by simp) hname
  show env.Complete src u (Function.update g.rows t.name table u.name)
  rw [Function.update_of_ne hne]
  exact hdone hcs u hu

/-- One more row of the chunk. -/
theorem Inserting.insert [DecidableEq R] {q : PgRow R} {todo table' : List (PgRow R)}
    (h : Inserting env src run chunkSize g work t rest chunk rowCount (q :: todo))
    (hins : insertRow t (work.rows t.name) q = some table') :
    Inserting env src run chunkSize g { work with rows := Function.update work.rows t.name table' } t rest chunk
      rowCount todo := by
  refine ⟨h.progress, h.registered, h.read, h.nonempty, h.rowCount_eq, table', ?_⟩
  obtain ⟨table, rfl, hcopied⟩ := h.work_eq
  unfold insertRow at hins
  split at hins
  · cases hins
  · cases hins
    have hself : Function.update g.rows t.name table t.name = table := Function.update_self _ _ _
    refine ⟨by simp only [Function.update_idem], ?_⟩
    simp only [hself, List.append_assoc, List.singleton_append]
    exact hcopied

/-- The whole chunk is still to be inserted. -/
theorem Inserting.begin {converted : List (PgRow R)} (hg : Good env src run d g)
    (hp : Progress env src chunkSize g (t :: rest))
    (hreg : g.run run ≠ none) (hread : env.readSqliteChunk src t (g.position run t) chunkSize = some chunk)
    (hne : chunk ≠ [])
    (hc : (chunk.map Prod.snd).mapM (postgresRow t) = some converted) :
    Inserting env src run chunkSize g g t rest chunk (g.count run t + chunk.length) converted := by
  refine ⟨hp, hreg, hread, hne, rfl, g.rows t.name, by rw [Function.update_eq_self], ?_⟩
  have hup := (readSqliteChunk_spec hread hne (g.count run t + chunk.length)).1
  rw [Env.CopiedTo, hup, List.map_append, List.map_append, normalizeRows_stored hread hc]
  exact congrArg (· ++ _) (hg.copied t hp.mem)

end Statement

/-! ## The verification -/

section Verification

variable [LinearOrder R] {env : Env R H F} {src : Source R} {run : String} {d p : StorageDigest H F} {g : Target R H F}

theorem sqliteTableDigest_rowCount {t : TableCatalog} {rows : List (ℤ × SqlRow R)} {td : TableDigest H}
    (h : env.sqliteTableDigest t rows = some td) : td.rowCount = rows.length := by
  obtain ⟨l, hl, rfl⟩ := Option.map_eq_some_iff.1 h
  exact (mapM_length hl).trans (List.length_insertionSort _ _)

theorem postgresTableDigest_rowCount {t : TableCatalog} {rows : List (PgRow R)} {td : TableDigest H}
    (h : env.postgresTableDigest t rows = some td) : td.rowCount = rows.length := by
  obtain ⟨l, hl, rfl⟩ := Option.map_eq_some_iff.1 h
  exact (mapM_length hl).trans (List.length_insertionSort _ _)

/-- The preflight leaves positive rowids. -/
theorem rowid_pos (hd : env.canonicalSqliteDigest src = some d) : ∀ t ∈ CATALOG, ∀ r ∈ src.table t.name, 0 < r.1 := by
  unfold Env.canonicalSqliteDigest at hd
  split at hd
  · rename_i hpre
    intro t ht r hr
    have hrow := List.all_eq_true.1 (List.all_eq_true.1 hpre t ht) r hr
    exact of_decide_eq_true (Bool.and_eq_true_iff.1 hrow).1
  · cases hd

/-- Equal fingerprints are equal row counts, and a prefix as long as the source is the source. -/
theorem complete_of_fingerprint (hfinger : Function.Injective env.fingerprint)
    (hd : env.canonicalSqliteDigest src = some d)
    (hp : env.canonicalPostgresDigest g.rows = some p) (heq : d.fingerprint = p.fingerprint)
    (hg : Good env src run d g) :
    ∀ t ∈ CATALOG, env.Complete src t (g.rows t.name) := by
  unfold Env.canonicalSqliteDigest at hd
  split at hd
  · obtain ⟨ts, hts, rfl⟩ := Option.map_eq_some_iff.1 hd
    obtain ⟨ts', hts', rfl⟩ := Option.map_eq_some_iff.1 hp
    have hsame : ts = ts' := hfinger heq
    intro t ht
    have hdigest : env.sqliteTableDigest t (src.table t.name) = env.postgresTableDigest t (g.rows t.name) :=
      List.map_inj_left.1 ((mapM_eq_some.1 hts).trans ((hsame ▸ mapM_eq_some.1 hts').symm)) t ht
    obtain ⟨td, -, htd⟩ := mapM_mem hts ht
    have hcount : (src.table t.name).length = (g.rows t.name).length :=
      (sqliteTableDigest_rowCount htd).symm.trans (postgresTableDigest_rowCount (hdigest ▸ htd))
    have hcopied := hg.copied t ht
    have hlen : (Keyset.upTo (g.position run t) (src.table t.name)).length = (src.table t.name).length := by
      have := congrArg List.length hcopied
      simp only [List.length_map] at this
      omega
    rw [Env.CopiedTo, Keyset.upTo_eq_of_length hlen] at hcopied
    exact hcopied
  · cases hd

/-- Without a checkpoint there are no rows. -/
theorem Good.rows_of_none (hd : env.canonicalSqliteDigest src = some d) (hg : Good env src run d g) {t : TableCatalog}
    (ht : t ∈ CATALOG) (hcp : g.checkpoint (run, t.name) = none) : g.rows t.name = [] := by
  have hcopied := hg.copied t ht
  have hpos : g.position run t = 0 := by
    rw [Target.position, hcp]
    rfl
  have hnil : Keyset.upTo 0 (src.table t.name) = [] := Keyset.upTo_eq_nil (rowid_pos hd t ht)
  rw [Env.CopiedTo, hpos, hnil] at hcopied
  exact List.map_eq_nil_iff.1 hcopied

end Verification

/-! ## Runs -/

section Runs

variable [LinearOrder R] [DecidableEq H] [DecidableEq F]
variable {env : Env R H F} {src : Source R} {run : String} {d : StorageDigest H F} {g : Target R H F}

/-- Every statement leaves a committed target that a restart can go on from. -/
theorem next_inv (hd : env.canonicalSqliteDigest src = some d) {a : Attempt R H F} (hg : Good env src run d g)
    (ha : Attempt.Fits env src run d g a) :
    Inv env src run d ⟨(a.next env src run d g).1, (a.next env src run d g).2⟩ := by
  obtain ⟨chunkSize, initTarget, work, pc⟩ := a
  cases pc with
  | initSchema =>
    have hgood : Good env src run d (if initTarget then { g with ready := true } else g) := by
      split
      · exact hg.of_same rfl rfl hg.sameSource id
      · exact hg
    exact ⟨hgood, fun b hb => by cases hb; rfl⟩
  | lock => exact ⟨hg, fun b hb => by cases hb; exact ha⟩
  | assertEmpty =>
    have hnext : Attempt.next env src run d g ⟨chunkSize, initTarget, work, .assertEmpty⟩ = (g, none) ∨
        Attempt.next env src run d g ⟨chunkSize, initTarget, work, .assertEmpty⟩ =
          (g, some ⟨chunkSize, initTarget, work, .readCheckpoints⟩) := by
      simp only [Attempt.next]
      split
      · split <;> split <;> simp
      · simp
    rcases hnext with h | h <;> rw [h]
    · exact ⟨hg, fun b hb => by cases hb⟩
    · exact ⟨hg, fun b hb => by cases hb; exact ha⟩
  | readCheckpoints =>
    refine ⟨hg, fun b hb => ?_⟩
    cases hb
    obtain rfl : work = g := ha
    refine ⟨rfl, fun x hx => ?_⟩
    obtain ⟨t, ht, hx⟩ := List.mem_filterMap.1 hx
    obtain ⟨cp, hcp, rfl⟩ := Option.map_eq_some_iff.1 hx
    exact ⟨ht, hcp⟩
  | validate todo =>
    cases todo with
    | nil => exact ⟨hg, fun b hb => by cases hb; exact ha.1⟩
    | cons x todo =>
      refine ⟨hg, fun b hb => ?_⟩
      simp only [Attempt.next] at hb
      split at hb
      · cases hb
        exact ⟨ha.1, fun y hy => ha.2 y (List.mem_cons_of_mem x hy)⟩
      · cases hb
  | ensureRun =>
    refine ⟨hg, fun b hb => ?_⟩
    cases hb
    obtain rfl : work = g := ha
    have hrow : ((work.run run).getD ⟨d.fingerprint, false⟩).sourceFingerprint = d.fingerprint := by
      cases hreg : work.run run with
      | none => rfl
      | some r => exact hg.sameSource r hreg
    refine ⟨hg.setRun hrow, ?_⟩
    show Function.update work.run run (some _) run ≠ none
    rw [Function.update_self]
    exact Option.some_ne_none _
  | commitRun => exact ⟨ha.1, fun b hb => by cases hb; exact ⟨rfl, ha.2, progress_all⟩⟩
  | tables todo =>
    cases todo with
    | nil => exact ⟨hg, fun b hb => by cases hb; exact ha⟩
    | cons t rest =>
      refine ⟨hg, fun b hb => ?_⟩
      cases hb
      obtain ⟨hwork, hreg, hprog⟩ := ha
      obtain rfl : work = g := hwork
      exact ⟨rfl, hreg, hprog, rfl⟩
  | readChunk t rest p =>
    refine ⟨hg, fun b hb => ?_⟩
    obtain ⟨hwork, hreg, hprog, rfl⟩ := ha
    obtain rfl : work = g := hwork
    simp only [Attempt.next] at hb
    split at hb
    · cases hb
    · rename_i hread
      cases hb
      exact ⟨rfl, hreg, hprog.readNil hg hread⟩
    · rename_i r chunk hread
      cases hb
      exact ⟨rfl, hreg, hprog, hread, List.cons_ne_nil r chunk⟩
  | readCount t rest chunk =>
    refine ⟨hg, fun b hb => ?_⟩
    obtain ⟨hwork, hreg, hprog, hread, hne⟩ := ha
    obtain rfl : work = g := hwork
    obtain ⟨converted, hc, rfl⟩ := Option.map_eq_some_iff.1 hb
    exact Inserting.begin hg hprog hreg hread hne hc
  | insert t rest chunk rowCount todo =>
    cases todo with
    | nil => exact ⟨hg, fun b hb => by cases hb; exact ha⟩
    | cons q todo =>
      refine ⟨hg, fun b hb => ?_⟩
      obtain ⟨table, hins, rfl⟩ := Option.map_eq_some_iff.1 hb
      exact Inserting.insert ha hins
  | upsert t rest chunk rowCount =>
    refine ⟨hg, fun b hb => ?_⟩
    cases hb
    have hins : Inserting env src run chunkSize g work t rest chunk rowCount [] := ha
    have hreg : work.run run ≠ none := by
      obtain ⟨table, rfl, -⟩ := hins.work_eq
      exact hins.registered
    have hprog : Progress env src chunkSize work (t :: rest) := hins.progress_work
    exact ⟨hins.good hg, hreg, hprog⟩
  | commitChunk t rest rowCount =>
    refine ⟨ha.1, fun b hb => ?_⟩
    simp only [Attempt.next] at hb
    split at hb
    · cases hb
    · cases hb
      exact ⟨rfl, ha.2⟩
  | verify =>
    refine ⟨hg, fun b hb => ?_⟩
    obtain ⟨hwork, hreg, before, heq, hall⟩ := ha
    simp only [Attempt.next, hd] at hb
    split at hb
    · rename_i d' p hd' hp
      cases hd'
      split at hb
      · rename_i hsame
        cases hb
        refine ⟨hwork, hreg, fun hcase => ?_⟩
        rcases hcase with hcs | hfinger
        · rw [heq, List.append_nil]
          exact hall hcs
        · exact complete_of_fingerprint hfinger hd hp hsame.2 hg
      · cases hb
    · cases hb
  | complete =>
    refine ⟨hg, fun b hb => ?_⟩
    cases hb
    obtain ⟨hwork, hreg, hfin⟩ := ha
    obtain rfl : work = g := hwork
    obtain ⟨r, hr⟩ := Option.ne_none_iff_exists'.1 hreg
    refine ⟨?_, hfin⟩
    show Good env src run d { work with
        run := Function.update work.run run ((work.run run).map fun r => { r with completed := true }) }
    rw [hr]
    apply hg.setRun
    exact hg.sameSource r hr
  | commitComplete => exact ⟨ha.1, fun b hb => by cases hb; exact ha.2⟩
  | done => exact ⟨hg, fun b hb => by cases hb; exact ha⟩

theorem step_inv (hd : env.canonicalSqliteDigest src = some d)
    {s s' : State R H F} {l : Label} (hi : Inv env src run d s)
    (h : step env src run d s l = some s') : Inv env src run d s' := by
  obtain ⟨g, o⟩ := s
  cases l with
  | start chunkSize initTarget =>
    cases o with
    | some a => cases h
    | none =>
      cases h
      exact ⟨hi.1, fun b hb => by cases hb; rfl⟩
  | sql =>
    cases o with
    | none => cases h
    | some a =>
      cases h
      exact next_inv hd hi.1 (hi.2 a rfl)
  | crash =>
    cases h
    exact ⟨hi.1, fun b hb => by cases hb⟩

variable {ready : Bool} {labels : List Label} {s : State R H F}

theorem run_inv (hd : env.canonicalSqliteDigest src = some d)
    (h : Lts.Run (step env src run d) Lts.anyStep ⟨Target.empty ready, none⟩ labels s) : Inv env src run d s :=
  h.invariant ⟨good_empty (rowid_pos hd) ready, fun _ hb => (by cases hb)⟩ fun _ _ _ hi _ hst => step_inv hd hi hst

/-- No restart is turned away: the target is empty or of the same source, and every checkpoint passes. -/
theorem restart_accepted (hd : env.canonicalSqliteDigest src = some d)
    (h : Lts.Run (step env src run d) Lts.anyStep ⟨Target.empty ready, none⟩ labels s)
    {a : Attempt R H F} (ha : s.attempt = some a) :
    (a.pc = .assertEmpty → a.work.ready = true → ∃ b, (a.next env src run d s.target).2 = some b) ∧
      ∀ todo, a.pc = .validate todo → ∃ b, (a.next env src run d s.target).2 = some b := by
  obtain ⟨hg, hfits⟩ := run_inv hd h
  have hfit := hfits a ha
  unfold Attempt.Fits at hfit
  refine ⟨fun hpc hready => ?_, fun todo hpc => ?_⟩
  · rw [hpc] at hfit
    simp only [Attempt.next, hpc, hready, if_true]
    split
    · rename_i r hr
      have hsame := hg.sameSource r (hfit ▸ hr)
      rw [if_pos hsame]
      exact ⟨_, rfl⟩
    · rename_i hnone
      have hempty : CATALOG.any (fun t => !(a.work.rows t.name).isEmpty) = false := by
        rw [List.any_eq_false]
        intro t ht
        have hcp := hg.registered (hfit ▸ hnone) t ht
        rw [hfit, hg.rows_of_none hd ht hcp]
        simp
      rw [hempty]
      exact ⟨_, rfl⟩
  · rw [hpc] at hfit
    cases todo with
    | nil => exact ⟨{ a with pc := .ensureRun }, by simp only [Attempt.next, hpc]⟩
    | cons x todo =>
      obtain ⟨ht, hcp⟩ := hfit.2 x (by simp)
      obtain ⟨chunk, hread, hlen, hhash⟩ := hg.readable x.1 ht x.2 hcp
      have hcount : (s.target.rows x.1.name).length = x.2.rowCount := by
        have hcopied := congrArg List.length (hg.copied x.1 ht)
        have hcounted := hg.counted x.1 ht
        simp only [List.length_map] at hcopied
        rw [hcopied, ← hcounted, Target.count, hcp]
        rfl
      have hvalid : env.checkpointValid src a.work x.1 x.2 = true := by
        simp [Env.checkpointValid, hread, hlen, hhash, hfit.1, hcount]
      obtain ⟨t, cp⟩ := x
      simp only [Attempt.next, hpc, hvalid, if_true]
      exact ⟨_, rfl⟩

end Runs

end Migration
