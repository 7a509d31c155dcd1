import MarketFeed.Migration.Agree
/-!
# When the fingerprints are the same (engine.py:38, :46-52)

`run_migration` completes only where the digest of the target has the fingerprint of the source's. Here
the target holds every row of the source, inserted in chunks of any size and in any order.
-/

namespace Migration

open OrderBy Lists

variable {R H F : Type}

/-! ## Inserting -/

section Inserting

variable [DecidableEq R]

theorem foldlM_insertRow {t : TableCatalog} :
    ∀ {rows table table' : List (PgRow R)}, rows.foldlM (insertRow t) table = some table' →
    table' = table ++ rows ∧ (t.primaryKey ≠ [] → (table.map t.pk).Nodup → (table'.map t.pk).Nodup)
  | [], table, _, h => by
    cases h
    exact ⟨(List.append_nil table).symm, fun _ => id⟩
  | row :: rows, table, table', h => by
    rw [List.foldlM_cons] at h
    obtain ⟨mid, hmid, h⟩ := Option.bind_eq_some_iff.1 h
    obtain ⟨heq, hpk⟩ := foldlM_insertRow h
    unfold insertRow at hmid
    split at hmid
    · cases hmid
    · rename_i hfree
      cases hmid
      refine ⟨by rw [heq, List.append_assoc, List.singleton_append], fun hkey hn => hpk hkey ?_⟩
      rw [List.map_append, List.map_singleton]
      refine hn.append (List.nodup_singleton _) fun k hk hk' => ?_
      rw [List.mem_singleton.1 hk'] at hk
      exact hfree ⟨hkey, List.mem_map.1 hk⟩

theorem insertChunks_eq {t : TableCatalog} : ∀ {chunks : List (List (SqlRow R))} {table table' : List (PgRow R)},
    chunks.foldlM (insertChunk t) table = some table' → ∃ ps, chunks.flatten.mapM (postgresRow t) = some ps ∧
      table' = table ++ ps ∧ (t.primaryKey ≠ [] → (table.map t.pk).Nodup → (table'.map t.pk).Nodup)
  | [], table, _, h => by
    cases h
    exact ⟨[], rfl, (List.append_nil table).symm, fun _ => id⟩
  | rows :: chunks, table, table', h => by
    rw [List.foldlM_cons] at h
    obtain ⟨mid, hmid, h⟩ := Option.bind_eq_some_iff.1 h
    obtain ⟨qs, hqs, heq, hpk⟩ := insertChunks_eq h
    unfold insertChunk at hmid
    obtain ⟨ps, hps, hins⟩ := Option.bind_eq_some_iff.1 hmid
    obtain ⟨hmideq, hmidpk⟩ := foldlM_insertRow hins
    refine ⟨ps ++ qs, ?_, by rw [heq, hmideq, List.append_assoc], fun hkey hn => hpk hkey (hmidpk hkey hn)⟩
    rw [mapM_eq_some, List.flatten_cons, List.map_append, mapM_eq_some.1 hps, mapM_eq_some.1 hqs, List.map_append]

end Inserting

/-! ## One table -/

/-- A table of the source, and the same rows in the target. -/
structure Inserted (env : Env R H F) (t : TableCatalog) (raws : List (ℤ × SqlRow R)) (rows : List (SqlRow R))
    (ps : List (PgRow R)) : Prop where
  cataloged : t ∈ CATALOG
  typed : ∀ r ∈ raws, t.Typed r.2
  normal : ∀ r ∈ raws, ∃ n, env.normalizeSqliteRow t r.2 = some n
  perm : rows.Perm (raws.filterMap fun r => env.normalizeSqliteRow t r.2)
  written : rows.mapM (postgresRow t) = some ps
  keys : t.primaryKey ≠ [] → (ps.map t.pk).Nodup

/-- The normal form of a row, where it has one. -/
def Env.norm (env : Env R H F) (t : TableCatalog) (row : SqlRow R) : SqlRow R := (env.normalizeSqliteRow t row).getD []

def pgRow (t : TableCatalog) (row : SqlRow R) : PgRow R := (postgresRow t row).getD []

/-- The order key of a primary key of two texts. -/
def textKey (v s : String) : List (Option (Key R)) := [SqlValue.key (.text v), SqlValue.key (.text s)]

theorem textKey_length (v s v' s' : String) :
    (textKey v s : List (Option (Key R))).length = (textKey v' s' : List (Option (Key R))).length := rfl

theorem no_null (v s : String) : none ∉ (textKey v s : List (Option (Key R))) := by simp [textKey, SqlValue.key]

theorem keys_ne {v s v' s' : String} (h : ([some (.text v), some (.text s)] : List (Option (PgValue R))) ≠
    [some (.text v'), some (.text s')]) :
    (textKey v s : List (Option (Key R))) ≠ textKey v' s' := by
  intro heq
  obtain ⟨hv, hs⟩ := List.cons.inj heq
  cases SqlValue.key_injective hv
  cases SqlValue.key_injective (List.cons.inj hs).1
  exact h rfl

namespace Inserted

variable {env : Env R H F} {t : TableCatalog} {raws : List (ℤ × SqlRow R)} {rows : List (SqlRow R)}
  {ps : List (PgRow R)}
  (h : Inserted env t raws rows ps)

include h

theorem length {r : ℤ × SqlRow R} (hr : r ∈ raws) : t.columns.length = r.2.length := (h.typed r hr).length_eq

theorem norm_eq {r : ℤ × SqlRow R} (hr : r ∈ raws) : env.normalizeSqliteRow t r.2 = some (env.norm t r.2) := by
  obtain ⟨n, hn⟩ := h.normal r hr
  rw [Env.norm, hn]
  rfl

theorem norm_length {r : ℤ × SqlRow R} (hr : r ∈ raws) : (env.norm t r.2).length = t.columns.length :=
  (normalizeSqliteRow_get (h.length hr) (h.norm_eq hr)).1

theorem perm_map : rows.Perm (raws.map fun r => env.norm t r.2) := by
  refine h.perm.trans (List.Perm.of_eq ?_)
  rw [List.filterMap_congr fun r hr => h.norm_eq hr, ← List.filterMap_eq_map]
  rfl

theorem exists_raw {n : SqlRow R} (hn : n ∈ rows) : ∃ r ∈ raws, env.norm t r.2 = n :=
  List.mem_map.1 (h.perm_map.mem_iff.1 hn)

theorem norm_mem {r : ℤ × SqlRow R} (hr : r ∈ raws) : env.norm t r.2 ∈ rows :=
  h.perm_map.mem_iff.2 (List.mem_map_of_mem hr)

theorem pgRow_eq {n : SqlRow R} (hn : n ∈ rows) : postgresRow t n = some (pgRow t n) := by
  obtain ⟨p, -, hp⟩ := mapM_mem h.written hn
  rw [pgRow, hp]
  rfl

theorem ps_eq : ps = rows.map (pgRow t) :=
  Option.some.inj (h.written.symm.trans (mapM_eq_some_map fun _ hn => h.pgRow_eq hn))

theorem row_facts {n : SqlRow R} (hn : n ∈ rows) :
    normalizePostgresRow t (pgRow t n) = some (t.echoRow n) ∧ t.pgOrderKey (pgRow t n) = t.orderKey n ∧
      n.length = t.columns.length ∧ ∀ (i : ℕ) (c : ColumnMapping) (k : ℤ), t.columns[i]? = some c →
      n[i]? = some (.int k) →
        c.timeEncoding = true → |(k : ℚ) / 1000000| < 2 ^ 53 := by
  obtain ⟨r, hr, rfl⟩ := h.exists_raw hn
  obtain ⟨h1, h2, h3⟩ := row_echo h.cataloged (h.length hr) (h.norm_eq hr) (h.pgRow_eq hn)
  exact ⟨h1, h2, h.norm_length hr, h3⟩

/-- `instruments` is ordered by its primary key, in both databases. -/
theorem instruments_key (hname : t = instruments) {r : ℤ × SqlRow R} (hr : r ∈ raws) :
    ∃ (v s : String) (u u' : List (Option (Key R))),
      t.orderKey r.2 = textKey v s ++ u ∧
        t.orderKey (env.norm t r.2) = textKey v s ++ u' ∧
        t.pk (pgRow t (env.norm t r.2)) = [some (.text v), some (.text s)] := by
  subst hname
  have hn := normalizeSqliteRow_get (h.length hr) (h.norm_eq hr)
  have hp := (zip_mapM (f := postgresValue instruments) hn.1.symm).1 (h.pgRow_eq (h.norm_mem hr))
  generalize env.norm instruments r.2 = n at hn hp ⊢
  have htyped := h.typed r hr
  generalize r.2 = raw at hn htyped ⊢
  cases htyped with
  | @cons _ v _ raw hv htyped =>
    cases htyped with
    | @cons _ s _ raw hs htyped =>
      cases v with
      | text v =>
        cases s with
        | text s =>
          have hn0 : n[0]? = some (.text v) := (hn.2 0 _ _ rfl rfl).symm
          have hn1 : n[1]? = some (.text s) := (hn.2 1 _ _ rfl rfl).symm
          have hp0 : (pgRow instruments n)[0]? = some (.text v) := (hp.2 0 _ _ rfl hn0).symm
          have hp1 : (pgRow instruments n)[1]? = some (.text s) := (hp.2 1 _ _ rfl hn1).symm
          have horder : instruments.orderColumns = "venue" :: "symbol" :: ["base", "quote", "active", "first_seen",
              "last_seen"] := by
            decide
          have hvenue : instruments.columnNames.idxOf "venue" = 0 := by decide
          have hsymbol : instruments.columnNames.idxOf "symbol" = 1 := by decide
          refine ⟨v, s, ["base", "quote", "active", "first_seen", "last_seen"].map fun c =>
            (instruments.at c (.text v :: .text s :: raw)).bind SqlValue.key,
            ["base", "quote", "active", "first_seen", "last_seen"].map fun c =>
              (instruments.at c n).bind SqlValue.key, ?_, ?_, ?_⟩
          · rw [TableCatalog.orderKey, horder, List.map_cons, List.map_cons]
            simp only [TableCatalog.at, hvenue, hsymbol]
            rfl
          · rw [TableCatalog.orderKey, horder, List.map_cons, List.map_cons]
            simp only [TableCatalog.at, hvenue, hsymbol, hn0, hn1]
            rfl
          · show [instruments.at "venue" (pgRow instruments n), instruments.at "symbol" (pgRow instruments n)] = _
            simp only [TableCatalog.at, hvenue, hsymbol, hp0, hp1]
        | null => cases hs
        | int k => cases hs
        | real x => cases hs
      | null => cases hv
      | int k => cases hv
      | real x => cases hv

/-- Two instruments differ in their primary key. -/
theorem instruments_ne (hname : t = instruments) {a b : ℤ × SqlRow R} (ha : a ∈ raws) (hb : b ∈ raws) (hab : a ≠ b) :
    t.pk (pgRow t (env.norm t a.2)) ≠ t.pk (pgRow t (env.norm t b.2)) := by
  intro heq
  have hkeys := h.keys (by rw [hname]; decide)
  have hperm : (ps.map t.pk).Perm (raws.map fun r => t.pk (pgRow t (env.norm t r.2))) := by
    have := (h.perm_map.map (pgRow t)).map t.pk
    rw [← h.ps_eq, List.map_map, List.map_map] at this
    exact this
  exact hab (List.inj_on_of_nodup_map (hperm.nodup_iff.1 hkeys) ha hb heq)

variable [LinearOrder R]

/-- The two databases order two rows alike, unless a NULL decides. -/
theorem order_iff {a b : ℤ × SqlRow R} (ha : a ∈ raws) (hb : b ∈ raws)
    (hno : ¬ NullDecides (t.orderKey a.2) (t.orderKey b.2)) :
    nullsFirst (t.orderKey a.2) < nullsFirst (t.orderKey b.2) ↔
      nullsLast (t.orderKey (env.norm t a.2)) < nullsLast (t.orderKey (env.norm t b.2)) := by
  by_cases hname : t.name = "instruments"
  · have ht : t = instruments := by
      have hall : ∀ t ∈ CATALOG, t.name = "instruments" → t = instruments := by decide
      exact hall t h.cataloged hname
    by_cases hab : a = b
    · rw [hab]
      exact ⟨fun hlt => absurd hlt (lt_irrefl _), fun hlt => absurd hlt (lt_irrefl _)⟩
    · obtain ⟨v, s, u, u', h1, h2, h3⟩ := h.instruments_key ht ha
      obtain ⟨v', s', w, w', h1', h2', h3'⟩ := h.instruments_key ht hb
      have hne := h.instruments_ne ht ha hb hab
      rw [h3, h3'] at hne
      rw [h1, h1', h2, h2']
      refine nullsFirst_append_lt_iff (textKey_length v s v' s') (keys_ne hne) (no_null v s) (no_null v' s') u w u' w'
  · have hid : ∀ r ∈ raws, env.norm t r.2 = r.2 := fun r hr => by
      rw [Env.norm, normalizeSqliteRow_eq hname (h.length hr)]
      rfl
    rw [hid a ha, hid b hb]
    exact nullsFirst_lt_iff hno

/-- Where a NULL decides they order them the other way round. -/
theorem order_opposite {a b : ℤ × SqlRow R} (ha : a ∈ raws) (hb : b ∈ raws)
    (hd : NullDecides (t.orderKey a.2) (t.orderKey b.2)) :
    (nullsFirst (t.orderKey a.2) < nullsFirst (t.orderKey b.2) ∧
        nullsLast (t.orderKey (env.norm t b.2)) < nullsLast (t.orderKey (env.norm t a.2))) ∨
      (nullsFirst (t.orderKey b.2) < nullsFirst (t.orderKey a.2) ∧
        nullsLast (t.orderKey (env.norm t a.2)) < nullsLast (t.orderKey (env.norm t b.2))) := by
  by_cases hname : t.name = "instruments"
  · have ht : t = instruments := by
      have hall : ∀ t ∈ CATALOG, t.name = "instruments" → t = instruments := by decide
      exact hall t h.cataloged hname
    -- the primary key decides first, and it has no NULLs
    exfalso
    by_cases hab : a = b
    · rw [hab] at hd
      exact not_nullDecides_self _ hd
    · obtain ⟨v, s, u, -, h1, -, h3⟩ := h.instruments_key ht ha
      obtain ⟨v', s', w, -, h1', -, h3'⟩ := h.instruments_key ht hb
      have hne := h.instruments_ne ht ha hb hab
      rw [h3, h3'] at hne
      rw [h1, h1'] at hd
      exact not_nullDecides_append (textKey_length v s v' s') (keys_ne hne) (no_null v s) (no_null v' s') u w hd
  · have hid : ∀ r ∈ raws, env.norm t r.2 = r.2 := fun r hr => by
      rw [Env.norm, normalizeSqliteRow_eq hname (h.length hr)]
      rfl
    rw [hid a ha, hid b hb]
    exact opposite_of_nullDecides hd

/-! ### The two lists -/

/-- What the SQLite digest hashes: the normal forms in SQLite's order. -/
theorem sqlite_rows : (sqliteOrder t raws).mapM (fun r => env.normalizeSqliteRow t r.2) =
    some ((sqliteOrder t raws).map fun r => env.norm t r.2) := by
  refine mapM_eq_some_map fun r hr => h.norm_eq ?_
  exact (List.perm_insertionSort _ raws).mem_iff.1 hr

/-- What the PostgreSQL digest hashes: the echoes of the rows in PostgreSQL's order. -/
theorem postgres_rows : (pgOrder t ps).mapM (normalizePostgresRow t) =
    some ((rows.insertionSort fun a b => nullsLast (t.orderKey a) ≤ nullsLast (t.orderKey b)).map t.echoRow) := by
  have hsort : pgOrder t ps = (rows.insertionSort fun a b => nullsLast (t.orderKey a) ≤ nullsLast (t.orderKey b)).map
      (pgRow t) := by
    rw [h.ps_eq]
    refine (List.map_insertionSort _ _ (pgRow t) rows fun a ha b hb => ?_).symm
    rw [(h.row_facts ha).2.1, (h.row_facts hb).2.1]
  rw [hsort, mapM_eq_some, List.map_map, List.map_map]
  refine List.map_congr_left fun n hn => ?_
  exact (h.row_facts ((List.perm_insertionSort _ rows).mem_iff.1 hn)).1

/-- **Both databases hash the same list exactly when no NULL decides and every instant comes back.** -/
theorem lists_eq_iff : (sqliteOrder t raws).map (fun r => env.norm t r.2) =
      (rows.insertionSort fun a b => nullsLast (t.orderKey a) ≤ nullsLast (t.orderKey b)).map t.echoRow ↔
    (∀ a ∈ raws, ∀ b ∈ raws, ¬ NullDecides (t.orderKey a.2) (t.orderKey b.2)) ∧ ∀ n ∈ rows, TimesReturn t n := by
  let A := sqliteOrder t raws
  let B := rows.insertionSort fun a b => nullsLast (t.orderKey a) ≤ nullsLast (t.orderKey b)
  show A.map (fun r => env.norm t r.2) = B.map t.echoRow ↔ _
  have hA : A.Perm raws := List.perm_insertionSort _ raws
  have hB : B.Perm rows := List.perm_insertionSort _ rows
  have hAB : (A.map fun r => env.norm t r.2).Perm B := (hA.map _).trans (h.perm_map.symm.trans hB.symm)
  have hsortA : A.Pairwise fun a b => nullsFirst (t.orderKey a.2) ≤ nullsFirst (t.orderKey b.2) :=
    (pairwise_insertionSort_key (fun r : ℤ × SqlRow R => toLex (nullsFirst (t.orderKey r.2), r.1)) raws).imp
      fun hab => by
      rcases Prod.Lex.toLex_le_toLex.1 hab with hlt | ⟨heq, -⟩
      · exact le_of_lt hlt
      · exact le_of_eq heq
  have hsortB : B.Pairwise fun a b => nullsLast (t.orderKey a) ≤ nullsLast (t.orderKey b) :=
    pairwise_insertionSort_key (fun n => nullsLast (t.orderKey n)) rows
  have hecho : (∀ n ∈ rows, TimesReturn t n) → B.map t.echoRow = B := by
    intro htimes
    have hid : B.map t.echoRow = B.map id := List.map_congr_left fun n hn => by
      have hmem := hB.mem_iff.1 hn
      exact echoRow_of_timesReturn (h.row_facts hmem).2.2.1.symm (htimes n hmem)
    rw [hid, List.map_id]
  constructor
  · intro heq
    -- the instants only grow, and their sum over all rows is the same
    have hsum : (B.map (rowTime t)).sum = (B.map fun n => rowTime t (t.echoRow n)).sum := by
      have h1 := (hAB.map (rowTime t)).sum_eq
      rw [heq, List.map_map] at h1
      exact h1.symm
    have hrow := eq_of_sum_eq (fun n hn => rowTime_le (h.row_facts (hB.mem_iff.1 hn)).2.2.2) hsum
    have htimes : ∀ n ∈ rows, TimesReturn t n := fun n hn =>
      timesReturn_of_rowTime_eq (h.row_facts hn).2.2.2 (hrow n (hB.mem_iff.2 hn))
    rw [hecho htimes] at heq
    refine ⟨fun a ha b hb hd => ?_, htimes⟩
    have hsortA' : A.Pairwise fun a b =>
        nullsLast (t.orderKey (env.norm t a.2)) ≤ nullsLast (t.orderKey (env.norm t b.2)) := by
      rw [← heq, List.pairwise_map] at hsortB
      exact hsortB
    rcases h.order_opposite ha hb hd with ⟨h1, h2⟩ | ⟨h1, h2⟩
    · exact not_sorted_of_opposite hsortA hsortA' (hA.mem_iff.2 ha) (hA.mem_iff.2 hb) h1 h2
    · exact not_sorted_of_opposite hsortA hsortA' (hA.mem_iff.2 hb) (hA.mem_iff.2 ha) h1 h2
  · rintro ⟨hnull, htimes⟩
    rw [hecho htimes]
    have hsortA' : (A.map fun r => env.norm t r.2).Pairwise fun a b =>
        nullsLast (t.orderKey a) ≤ nullsLast (t.orderKey b) := by
      rw [List.pairwise_map]
      refine sorted_of_agree hsortA fun a ha b hb => ?_
      have ha' := hA.mem_iff.1 ha
      have hb' := hA.mem_iff.1 hb
      exact h.order_iff hb' ha' (hnull b hb' a ha')
    refine sorted_unique hAB hsortA' hsortB fun a ha b hb hkey => ?_
    have ha' := (h.row_facts (hB.mem_iff.1 (hAB.mem_iff.1 ha))).2.2.1
    have hb' := (h.row_facts (hB.mem_iff.1 (hAB.mem_iff.1 hb))).2.2.1
    exact orderKey_injective h.cataloged ha' hb' (List.map_injective_iff.2 nullLast_injective hkey)

end Inserted

/-! ## The whole target -/

section Whole

variable [LinearOrder R]

/-- The target holds the rows of the source: each table inserted through `insert_chunk`, in chunks of any size
and in any order. -/
def Loaded (env : Env R H F) (src : Source R) (target : String → List (PgRow R)) : Prop :=
  ∀ t ∈ CATALOG, ∃ chunks : List (List (SqlRow R)),
    chunks.flatten.Perm ((src.table t.name).filterMap fun r => env.normalizeSqliteRow t r.2) ∧
      chunks.foldlM (insertChunk t) [] = some (target t.name)

/-- No NULL decides the order of two rows of a table. -/
def NoNullDecides (t : TableCatalog) (raws : List (ℤ × SqlRow R)) : Prop :=
  ∀ a ∈ raws, ∀ b ∈ raws, ¬ NullDecides (t.orderKey a.2) (t.orderKey b.2)

variable {env : Env R H F} {src : Source R} {d : StorageDigest H F} {target : String → List (PgRow R)}

theorem normal_of_digest {t : TableCatalog} {raws : List (ℤ × SqlRow R)} {td : TableDigest H}
    (h : env.sqliteTableDigest t raws = some td) : ∀ r ∈ raws, ∃ n, env.normalizeSqliteRow t r.2 = some n := by
  intro r hr
  obtain ⟨l, hl, -⟩ := Option.map_eq_some_iff.1 h
  obtain ⟨n, -, hn⟩ := mapM_mem hl ((List.perm_insertionSort _ raws).mem_iff.2 hr)
  exact ⟨n, hn⟩

/-- A source with a digest, loaded: every table with its rows. -/
theorem inserted_of_loaded (hd : env.canonicalSqliteDigest src = some d) (hl : Loaded env src target) :
    ∀ t ∈ CATALOG, ∃ rows, Inserted env t (src.table t.name) rows (target t.name) := by
  intro t ht
  unfold Env.canonicalSqliteDigest at hd
  split at hd
  · obtain ⟨ts, hts, -⟩ := Option.map_eq_some_iff.1 hd
    obtain ⟨td, -, htd⟩ := mapM_mem hts ht
    obtain ⟨chunks, hperm, hins⟩ := hl t ht
    obtain ⟨ps, hps, heq, hpk⟩ := insertChunks_eq hins
    rw [List.nil_append] at heq
    refine ⟨chunks.flatten, ht, src.typed t ht, normal_of_digest htd, hperm, heq ▸ hps, fun hkey => hpk hkey ?_⟩
    exact List.nodup_nil
  · cases hd

/-- The rows of a table as each digest hashes them. -/
def Env.sqliteListed (env : Env R H F) (src : Source R) (t : TableCatalog) : List (SqlRow R) :=
  (sqliteOrder t (src.table t.name)).map fun r => env.norm t r.2

def postgresListed (target : String → List (PgRow R)) (t : TableCatalog) : List (SqlRow R) :=
  ((pgOrder t (target t.name)).mapM (normalizePostgresRow t)).getD []

theorem digests_eq (hd : env.canonicalSqliteDigest src = some d) (hl : Loaded env src target) :
    d.fingerprint = env.fingerprint (CATALOG.map fun t => env.digestRows t (env.sqliteListed src t)) ∧
      ∃ p, env.canonicalPostgresDigest target = some p ∧
        p.fingerprint = env.fingerprint (CATALOG.map fun t => env.digestRows t (postgresListed target t)) := by
  have hins := inserted_of_loaded hd hl
  constructor
  · unfold Env.canonicalSqliteDigest at hd
    split at hd
    · have hts : (CATALOG.mapM fun t => env.sqliteTableDigest t (src.table t.name)) =
          some (CATALOG.map fun t => env.digestRows t (env.sqliteListed src t)) := by
        refine mapM_eq_some_map fun t ht => ?_
        obtain ⟨rows, h⟩ := hins t ht
        rw [Env.sqliteTableDigest, h.sqlite_rows]
        rfl
      rw [hts] at hd
      exact congrArg StorageDigest.fingerprint (Option.some.inj hd).symm
    · cases hd
  · have hts : (CATALOG.mapM fun t => env.postgresTableDigest t (target t.name)) =
        some (CATALOG.map fun t => env.digestRows t (postgresListed target t)) := by
      refine mapM_eq_some_map fun t ht => ?_
      obtain ⟨rows, h⟩ := hins t ht
      rw [Env.postgresTableDigest, postgresListed, h.postgres_rows]
      rfl
    exact ⟨⟨_, _⟩, by rw [Env.canonicalPostgresDigest, hts]; rfl, rfl⟩

/-- **The two fingerprints agree exactly when, in every table, no NULL decides the order of two rows and every
instant comes back from `datetime` as it was.** Two different lists are taken to have different hashes. -/
theorem fingerprints_agree_iff (hcontent : Function.Injective env.contentHash)
    (hfinger : Function.Injective env.fingerprint)
    (hd : env.canonicalSqliteDigest src = some d) (hl : Loaded env src target) :
    (∃ p, env.canonicalPostgresDigest target = some p ∧ p.fingerprint = d.fingerprint) ↔
      ∀ t ∈ CATALOG, NoNullDecides t (src.table t.name) ∧
        ∀ r ∈ src.table t.name, ∀ n, env.normalizeSqliteRow t r.2 = some n → TimesReturn t n := by
  obtain ⟨hsqlite, p, hp, hpostgres⟩ := digests_eq hd hl
  have hlists : (∃ p, env.canonicalPostgresDigest target = some p ∧ p.fingerprint = d.fingerprint) ↔
      ∀ t ∈ CATALOG, env.sqliteListed src t = postgresListed target t := by
    have hfp : (∃ p, env.canonicalPostgresDigest target = some p ∧ p.fingerprint = d.fingerprint) ↔
        (CATALOG.map fun t => env.digestRows t (postgresListed target t)) =
          CATALOG.map fun t => env.digestRows t (env.sqliteListed src t) := by
      rw [hp, hsqlite]
      simp only [Option.some.injEq, exists_eq_left', hpostgres]
      exact hfinger.eq_iff
    rw [hfp, List.map_inj_left]
    constructor
    · intro h t ht
      exact (hcontent (congrArg TableDigest.contentHash (h t ht))).symm
    · intro h t ht
      rw [h t ht]
  rw [hlists]
  refine forall₂_congr fun t ht => ?_
  obtain ⟨rows, h⟩ := inserted_of_loaded hd hl t ht
  rw [Env.sqliteListed, postgresListed, h.postgres_rows, Option.getD_some, h.lists_eq_iff]
  refine and_congr_right fun _ => ?_
  constructor
  · intro htimes r hr n hn
    have hnorm := h.norm_eq hr
    rw [hn] at hnorm
    rw [Option.some.inj hnorm]
    exact htimes _ (h.norm_mem hr)
  · intro htimes n hn
    obtain ⟨r, hr, rfl⟩ := h.exists_raw hn
    exact htimes r hr _ (h.norm_eq hr)

end Whole

/-! ## Two trades of one instant -/

/-- Hashes that keep what they hash. -/
def keepEnv : Env ℤ (List (SqlRow ℤ)) (List (TableDigest (List (SqlRow ℤ)))) where
  isoInstant := fun _ => none
  contentHash := id
  chunkContentHash := fun rows => rows.map Prod.snd
  fingerprint := id

/-- A trade of `UPBIT:KRW-BTC` at one instant. -/
def trade (seq : SqlValue ℤ) : SqlRow ℤ :=
  [.int 1700000000000000, .text "UPBIT", .text "KRW-BTC", .real 1, .real 1, .int 1, .int 1700000000000010, .int 10, seq]

theorem trade_typed {seq : SqlValue ℤ} (h : (col "seq" .integer).orNull.fits seq = true) : trades.Typed (trade seq) :=
  .cons rfl (.cons rfl (.cons rfl (.cons rfl (.cons rfl (.cons rfl (.cons rfl (.cons rfl (.cons h .nil))))))))

/-- A source with two trades. -/
def tradesSource (a b : SqlValue ℤ) (ha : (col "seq" .integer).orNull.fits a = true)
    (hb : (col "seq" .integer).orNull.fits b = true) : Source ℤ where
  table := fun name => if name = "trades" then [(1, trade a), (2, trade b)] else []
  ascending := fun name => by
    by_cases h : name = "trades"
    · rw [if_pos h]
      exact List.pairwise_pair.2 (show (1 : ℤ) < 2 by norm_num)
    · rw [if_neg h]
      exact .nil
  typed := by
    intro t ht r hr
    have hname : t.name = "trades" ∨ t.name ≠ "trades" := em _
    rcases hname with hname | hname
    · have hall : ∀ t ∈ CATALOG, t.name = "trades" → t = trades := by decide
      rw [hall t ht hname] at hr ⊢
      simp only [trades, if_true, List.mem_cons, List.not_mem_nil, or_false] at hr
      rcases hr with rfl | rfl
      · exact trade_typed ha
      · exact trade_typed hb
    · rw [if_neg hname] at hr
      cases hr

/-- The target after each table was inserted as one chunk. -/
def loadedTarget (src : Source ℤ) (name : String) : List (PgRow ℤ) :=
  ((CATALOG.find? fun t => t.name == name).bind fun t =>
    insertChunk t [] ((src.table name).filterMap fun r => keepEnv.normalizeSqliteRow t r.2)).getD []

theorem loaded_of_chunk {src : Source ℤ} (h : ∀ t ∈ CATALOG,
    insertChunk t [] ((src.table t.name).filterMap fun r => keepEnv.normalizeSqliteRow t r.2) =
      some (loadedTarget src t.name)) :
    Loaded keepEnv src (loadedTarget src) := fun t ht =>
  ⟨[(src.table t.name).filterMap fun r => keepEnv.normalizeSqliteRow t r.2], by simp, by
    rw [List.foldlM_cons, h t ht]
    rfl⟩

def numberedSource : Source ℤ := tradesSource (.int 1) (.int 2) rfl rfl

/-- Two numbered trades: the condition holds and the digests agree. -/
theorem fingerprints_agree_numbered : ∃ d p, keepEnv.canonicalSqliteDigest numberedSource = some d ∧
    keepEnv.canonicalPostgresDigest (loadedTarget numberedSource) = some p ∧ p.fingerprint = d.fingerprint := by
  obtain ⟨d, hd⟩ := Option.isSome_iff_exists.1 (show (keepEnv.canonicalSqliteDigest numberedSource).isSome =
    true by decide +kernel)
  have hl : Loaded keepEnv numberedSource (loadedTarget numberedSource) := loaded_of_chunk (by decide +kernel)
  obtain ⟨p, hp, heq⟩ := (fingerprints_agree_iff Function.injective_id Function.injective_id hd hl).2 (by
    intro t ht
    refine ⟨?_, fun r hr n hn => ?_⟩
    · have hall : ∀ t ∈ CATALOG, ∀ a ∈ numberedSource.table t.name, ∀ b ∈ numberedSource.table t.name,
          ¬ NullDecides (t.orderKey a.2) (t.orderKey b.2) := by decide +kernel
      exact hall t ht
    · have hall : ∀ t ∈ CATALOG, ∀ r ∈ numberedSource.table t.name,
          keepEnv.normalizeSqliteRow t r.2 = some (trade (.int 1)) ∨
          keepEnv.normalizeSqliteRow t r.2 = some (trade (.int 2)) := by decide +kernel
      rcases hall t ht r hr with h | h <;>
      · rw [hn] at h
        rw [Option.some.inj h]
        refine timesReturn_recent fun k hk => ?_
        simp only [trade, List.mem_cons, SqlValue.int.injEq, reduceCtorEq, List.not_mem_nil, false_or, or_false] at hk
        omega)
  exact ⟨d, p, hd, hp, heq⟩

def halfNumberedSource : Source ℤ := tradesSource (.int 1) .null rfl rfl

/-- One of the two has no number: SQLite lists it first, PostgreSQL last, and the fingerprints differ. -/
theorem fingerprints_differ_null_seq : ∃ d p, keepEnv.canonicalSqliteDigest halfNumberedSource = some d ∧
    Loaded keepEnv halfNumberedSource (loadedTarget halfNumberedSource) ∧
    keepEnv.canonicalPostgresDigest (loadedTarget halfNumberedSource) = some p ∧ p.fingerprint ≠ d.fingerprint := by
  have hl : Loaded keepEnv halfNumberedSource (loadedTarget halfNumberedSource) := loaded_of_chunk (by decide +kernel)
  obtain ⟨d, hd⟩ := Option.isSome_iff_exists.1 (show (keepEnv.canonicalSqliteDigest halfNumberedSource).isSome =
    true by decide +kernel)
  obtain ⟨p, hp⟩ := Option.isSome_iff_exists.1
    (show (keepEnv.canonicalPostgresDigest (loadedTarget halfNumberedSource)).isSome = true by decide +kernel)
  have hne : (keepEnv.canonicalPostgresDigest (loadedTarget halfNumberedSource)).map (·.fingerprint) ≠
      (keepEnv.canonicalSqliteDigest halfNumberedSource).map (·.fingerprint) := by decide +kernel
  refine ⟨d, p, hd, hl, hp, fun heq => hne ?_⟩
  rw [hp, hd]
  exact congrArg some heq

end Migration
