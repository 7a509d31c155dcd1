import MarketFeed.Backup.Digest
import MarketFeed.Migration.Agree
import MarketFeed.Retention.SameProof
/-!
# What a backup digest tells apart (backup.py:312-382, :566-583, time.py:15-22)

The statement orders by every column, so equal rows are all that can change places, and the hashed text gives
the normalised rows back. What is lost is lost in `datetime_to_epoch_us`: the last second before 1970 comes out
as the first second after it. Contents that differ by this alone are `Alike`, and a drill that restores the one
for the other succeeds.
-/

namespace Backup

open Migration (TableCatalog ColumnMapping PgValue PgRow TableDigest StorageDigest CATALOG datetimeToEpochUs pgOrder
  AcrossEpoch)
open FlatJson (Value RealText)
open Retention.Canonical (fetchAll)
open OrderBy

variable {R H F : Type}

/-- The same, or instants a second apart across the start of 1970. -/
def alike : PgValue R → PgValue R → Prop
  | .time u, .time v => u = v ∨ AcrossEpoch u v ∨ AcrossEpoch v u
  | v, w => v = w

/-- Row by row in the order of the digest, the two contents are the same but for seconds across the start of 1970. -/
def Alike [LinearOrder R] {t : TableCatalog} (a b : Contents R t) : Prop :=
  List.Forall₂ (List.Forall₂ alike) (pgOrder t a.rows) (pgOrder t b.rows)

/-! ## Values -/

theorem alike_refl (v : PgValue R) : alike v v := by
  cases v <;> simp [alike]

/-- What is hashed of a value of its column's type. -/
def normal : PgValue R → Value R
  | .null => .null
  | .time us => .int (datetimeToEpochUs us)
  | .bool b => .int (if b then 1 else 0)
  | .int n => .int n
  | .real x => .real x
  | .text s => .text s

theorem normalizePostgres_typed (env : Env R H F) {c : ColumnMapping} {v : PgValue R} (h : stores c v = true) :
    env.normalizePostgres c v = .ok (normal v) := by
  cases v <;> simp_all [stores, Env.normalizePostgres, normalizeScalar, normal]

theorem normal_eq_iff {c : ColumnMapping} {v w : PgValue R} (hv : stores c v = true) (hw : stores c w = true) :
    normal v = normal w ↔ alike v w := by
  have hsmall : ∀ us : ℤ, -62135596800000000 ≤ us ∧ us < 253402300800000000 → |(us : ℚ) / 1000000| < 2 ^ 50 := by
    intro us hus
    have := @Migration.abs_seconds_lt us (2 ^ 50) (by omega)
    exact_mod_cast this
  cases v with
  | time u =>
    cases w with
    | time v =>
      simp only [stores, Bool.and_eq_true, decide_eq_true_eq] at hv hw
      simp only [normal, Value.int.injEq, alike]
      exact Migration.datetimeToEpochUs_eq_iff (hsmall u hv.2) (hsmall v hw.2)
    | _ => simp_all [stores, normal, alike]
  | bool b =>
    cases w with
    | bool b' => cases b <;> cases b' <;> simp [normal, alike]
    | _ => simp_all [stores, normal, alike]
  | _ => cases w <;> simp_all [stores, normal, alike]

/-- Values of one column that sort alike are the same. -/
theorem key_injective {c : ColumnMapping} {v w : PgValue R} (hv : stores c v = true) (hw : stores c w = true)
    (h : v.key = w.key) :
    v = w := by
  cases v with
  | bool b =>
    cases w with
    | bool b' => cases b <;> cases b' <;> simp_all [PgValue.key]
    | _ => simp_all [stores, PgValue.key, Sum.inlₗ]
  | _ => cases w <;> simp_all [stores, PgValue.key, Sum.inlₗ, Sum.inrₗ]

/-! ## Rows -/

abbrev Typed (cs : List ColumnMapping) (row : PgRow R) : Prop := List.Forall₂ (fun c v => stores c v = true) cs row

theorem normalizePostgresRow_typed (env : Env R H F) {t : TableCatalog} {row : PgRow R} (h : Typed t.columns row) :
    env.normalizePostgresRow t row = .ok (row.map normal) := by
  unfold Env.normalizePostgresRow
  generalize t.columns = cs at h ⊢
  induction h with
  | nil => rfl
  | cons hv _ ih =>
    rw [List.zip_cons_cons, List.mapM_cons, ih, normalizePostgres_typed env hv]
    rfl

theorem row_eq_iff {cs : List ColumnMapping} {a b : PgRow R} (ha : Typed cs a) (hb : Typed cs b) :
    a.map normal = b.map normal ↔ List.Forall₂ alike a b := by
  induction ha generalizing b with
  | nil =>
    cases hb
    simp
  | cons hv _ ih =>
    cases hb with
    | cons hw hb =>
      rw [List.map_cons, List.map_cons, List.cons.injEq, List.forall₂_cons, normal_eq_iff hv hw, ih hb]

theorem rows_eq_iff {cs : List ColumnMapping} : ∀ {l m : List (PgRow R)}, (∀ a ∈ l, Typed cs a) →
    (∀ b ∈ m, Typed cs b) →
    (l.map (List.map normal) = m.map (List.map normal) ↔ List.Forall₂ (List.Forall₂ alike) l m)
  | [], [], _, _ => by simp
  | [], _ :: _, _, _ => by simp
  | _ :: _, [], _, _ => by simp
  | a :: l, b :: m, ha, hb => by
    have ih := rows_eq_iff (fun x hx => ha x (List.mem_cons_of_mem a hx)) fun x hx => hb x (List.mem_cons_of_mem b hx)
    rw [List.map_cons, List.map_cons, List.cons.injEq, List.forall₂_cons, ih,
      row_eq_iff (ha a List.mem_cons_self) (hb b List.mem_cons_self)]

/-! ## The order -/

variable {t : TableCatalog}

theorem pgOrderKey_injective (ht : t ∈ CATALOG) {a b : PgRow R} (ha : Typed t.columns a) (hb : Typed t.columns b)
    (h : t.pgOrderKey a = t.pgOrderKey b) : a = b := by
  have hla := ha.length_eq
  have hlb := hb.length_eq
  refine List.ext_getElem (by omega) fun i hia hib => ?_
  have hi : i < t.columns.length := by omega
  have hmem : t.columns[i].name ∈ t.columnNames := List.mem_map_of_mem (List.getElem_mem hi)
  have hcol := List.map_inj_left.1 h _ (Migration.mem_orderColumns hmem)
  rw [Migration.at_columnName ht a hi, Migration.at_columnName ht b hi, List.getElem?_eq_getElem hia,
    List.getElem?_eq_getElem hib] at hcol
  exact key_injective (ha.get hi hia) (hb.get hi hib) hcol

section Order

variable [LinearOrder R]

theorem pgOrder_perm (rows : List (PgRow R)) : (pgOrder t rows).Perm rows := List.perm_insertionSort _ _

/-- Every column is in the order, so the same rows are listed alike. -/
theorem perm_iff (ht : t ∈ CATALOG) (a b : Contents R t) : a.rows.Perm b.rows ↔
    pgOrder t a.rows = pgOrder t b.rows := by
  constructor
  · intro h
    have hperm : (pgOrder t a.rows).Perm (pgOrder t b.rows) :=
      (pgOrder_perm a.rows).trans (h.trans (pgOrder_perm b.rows).symm)
    refine sorted_unique (f := fun row => nullsLast (t.pgOrderKey row)) hperm (pairwise_insertionSort_key _ _)
      (pairwise_insertionSort_key _ _) fun x hx y hy hxy => ?_
    have hkey : t.pgOrderKey x = t.pgOrderKey y := List.map_injective_iff.2 nullLast_injective hxy
    exact pgOrderKey_injective ht (a.typed x ((pgOrder_perm a.rows).mem_iff.1 hx))
      (a.typed y ((pgOrder_perm a.rows).mem_iff.1 hy)) hkey
  · intro h
    exact (pgOrder_perm a.rows).symm.trans (h ▸ pgOrder_perm b.rows)

theorem alike_of_perm (ht : t ∈ CATALOG) {a b : Contents R t} (h : a.rows.Perm b.rows) : Alike a b := by
  rw [Alike, (perm_iff ht a b).1 h]
  exact List.forall₂_same.2 fun row _ => List.forall₂_same.2 fun v _ => alike_refl v

theorem rowCount_of_alike {a b : Contents R t} (h : Alike a b) : a.rows.length = b.rows.length := by
  have := h.length_eq
  rwa [(pgOrder_perm a.rows).length_eq, (pgOrder_perm b.rows).length_eq] at this

end Order

/-! ## The loop -/

theorem column_given (s : Hashing) (c : ColumnMapping) (v : Value R) :
    (s.column c v).hashed = s.hashed ∧ (s.column c v).rowCount = s.rowCount := by
  cases v with
  | null => by_cases hn : c.nullable = true <;> simp [Hashing.column, hn]
  | _ => exact ⟨rfl, rfl⟩

theorem columns_given : ∀ (xs : List (ColumnMapping × Value R)) (s : Hashing),
    (xs.foldl (fun s x => s.column x.1 x.2) s).hashed = s.hashed ∧
      (xs.foldl (fun s x => s.column x.1 x.2) s).rowCount = s.rowCount
  | [], _ => ⟨rfl, rfl⟩
  | x :: xs, s => by
    obtain ⟨h1, h2⟩ := columns_given xs (s.column x.1 x.2)
    obtain ⟨h3, h4⟩ := column_given s x.1 x.2
    exact ⟨h1.trans h3, h2.trans h4⟩

/-- One row: its line is hashed, it is counted. -/
theorem hashRow_typed (env : Env R H F) {row : PgRow R} (h : Typed t.columns row) (s : Hashing) :
    ∃ s', env.hashRow t s row = .ok s' ∧ s'.hashed = s.hashed ++ Utf8.encode (env.reals.lines [row.map normal]) ∧
      s'.rowCount = s.rowCount + 1 := by
  unfold Env.hashRow
  rw [normalizePostgresRow_typed env h]
  refine ⟨_, rfl, ?_⟩
  obtain ⟨h1, h2⟩ := columns_given (t.columns.zip (row.map normal)) { s with
    hashed := s.hashed ++ Utf8.encode (env.reals.array (row.map normal)) ++ Utf8.encode ['\n']
    rowCount := s.rowCount + 1 }
  refine ⟨h1.trans ?_, h2⟩
  simp [RealText.lines]

/-- **The rows of a run of the loop**, in one chunk. -/
theorem hashRows_typed (env : Env R H F) : ∀ {rows : List (PgRow R)}, (∀ row ∈ rows, Typed t.columns row) →
    ∀ s : Hashing, ∃ s', rows.foldlM (env.hashRow t) s = .ok s' ∧
      s'.hashed = s.hashed ++ Utf8.encode (env.reals.lines (rows.map (List.map normal))) ∧
      s'.rowCount = s.rowCount + rows.length
  | [], _, s => ⟨s, rfl, by simp [RealText.lines], rfl⟩
  | row :: rows, h, s => by
    obtain ⟨mid, hmid, hhash, hcount⟩ := hashRow_typed env (h row List.mem_cons_self) s
    obtain ⟨s', hs', hhash', hcount'⟩ := hashRows_typed env (fun x hx => h x (List.mem_cons_of_mem row hx)) mid
    refine ⟨s', ?_, ?_, ?_⟩
    · rw [List.foldlM_cons, hmid]
      exact hs'
    · rw [hhash', hhash, List.append_assoc, ← Utf8.encode_append]
      simp [RealText.lines]
    · rw [hcount', hcount, List.length_cons]
      omega

theorem foldlM_chunks {α σ ε : Type} (f : σ → α → Except ε σ) : ∀ (chunks : List (List α)) (s : σ),
    chunks.foldlM (fun s chunk => chunk.foldlM f s) s = chunks.flatten.foldlM f s
  | [], _ => rfl
  | chunk :: chunks, s => by
    rw [List.foldlM_cons, List.flatten_cons, List.foldlM_append]
    exact bind_congr fun s' => foldlM_chunks f chunks s'

/-- Tables that are there, all at once. -/
theorem exists_contents {db : Database R} (hall : ∀ t ∈ CATALOG, ∃ c, db t = some c) :
    ∃ got : (t : TableCatalog) → Contents R t, ∀ t ∈ CATALOG, db t = some (got t) := by
  refine ⟨fun t => (db t).getD ⟨[], by simp⟩, fun t ht => ?_⟩
  obtain ⟨c, hc⟩ := hall t ht
  simp [hc]

variable [LinearOrder R]

/-- The digest of a table: the hash of its normalised rows in order, and how many there are. -/
theorem streamTableDigest_eq (env : Env R H F) (a : Contents R t) : ∃ td, env.streamTableDigest t (some a) = .ok td ∧
    td.name = t.name ∧ td.rowCount = a.rows.length ∧
      td.contentHash = env.sha256 (Utf8.encode (env.reals.lines ((pgOrder t a.rows).map (List.map normal)))) := by
  have htyped : ∀ row ∈ pgOrder t a.rows, Typed t.columns row :=
    fun row hrow => a.typed row ((pgOrder_perm a.rows).mem_iff.1 hrow)
  obtain ⟨s, hs, hhash, hcount⟩ := hashRows_typed env htyped (Hashing.start t)
  refine ⟨⟨t.name, s.rowCount, s.nullCounts, s.minTimes, s.maxTimes, env.sha256 s.hashed⟩, ?_, rfl, ?_, ?_⟩
  · unfold Env.streamTableDigest
    simp only
    rw [foldlM_chunks, Retention.Canonical.fetchAll_flatten (by decide), hs]
    rfl
  · show s.rowCount = _
    rw [hcount, (pgOrder_perm a.rows).length_eq]
    exact Nat.zero_add _
  · show env.sha256 s.hashed = _
    rw [hhash]
    rfl

/-- **What the hash tells apart.** -/
theorem contentHash_eq_iff (env : Env R H F) (a b : Contents R t) :
    env.sha256 (Utf8.encode (env.reals.lines ((pgOrder t a.rows).map (List.map normal)))) =
      env.sha256 (Utf8.encode (env.reals.lines ((pgOrder t b.rows).map (List.map normal)))) ↔ Alike a b := by
  have hencode : Function.Injective Utf8.encode := Function.LeftInverse.injective Utf8.decode_encode
  rw [env.collisionFree.eq_iff, hencode.eq_iff, (FlatJson.lines_injective env.reals).eq_iff]
  exact rows_eq_iff (fun row hrow => a.typed row ((pgOrder_perm a.rows).mem_iff.1 hrow))
    fun row hrow => b.typed row ((pgOrder_perm b.rows).mem_iff.1 hrow)

/-! ## The drill -/

/-- The digests of all tables, where there are all tables. -/
theorem mapM_ok {α β ε : Type} {f : α → Except ε β} {g : α → β} : ∀ {l : List α}, (∀ a ∈ l, f a = .ok (g a)) →
    l.mapM f = .ok (l.map g)
  | [], _ => rfl
  | a :: l, h => by
    rw [List.mapM_cons, h a List.mem_cons_self, mapM_ok fun b hb => h b (List.mem_cons_of_mem a hb)]
    rfl

/-- … and a run of it that is not refused has refused nothing. -/
theorem of_mapM_ok {α β ε : Type} {f : α → Except ε β} : ∀ {l : List α} {m : List β}, l.mapM f = .ok m →
    ∀ a ∈ l, ∃ b, f a = .ok b
  | [], _, _ => by simp
  | a :: l, m, h => by
    rw [List.mapM_cons] at h
    cases hf : f a with
    | error e =>
      rw [hf] at h
      cases h
    | ok b =>
      rw [hf] at h
      cases hl : l.mapM f with
      | error e =>
        rw [hl] at h
        cases h
      | ok m' =>
        intro x hx
        rcases List.mem_cons.1 hx with rfl | hx
        · exact ⟨b, hf⟩
        · exact of_mapM_ok hl x hx

theorem lookup_map {α β : Type} {key : α → String} {f : α → β} : ∀ {l : List α}, (l.map key).Nodup → ∀ a ∈ l,
    (l.map fun a => (key a, f a)).lookup (key a) = some (f a)
  | b :: l, hn, a, ha => by
    obtain ⟨hnew, hn⟩ := List.nodup_cons.1 hn
    rw [List.map_cons, List.lookup_cons]
    rcases List.mem_cons.1 ha with rfl | ha
    · simp
    · have hne : key a ≠ key b := fun he => hnew (he ▸ List.mem_map_of_mem ha)
      rw [beq_false_of_ne hne]
      exact lookup_map hn a ha

theorem checkTables_ok_iff [DecidableEq H] {cs : List (String × ℕ)} {ds : List (String × H)} {manifest : Manifest H}
    {names : List String} :
    checkTables cs ds manifest names = .ok () ↔
      ∀ name ∈ names, cs.lookup name = manifest.tableCounts.lookup name ∧
      ds.lookup name = manifest.tableDigests.lookup name := by
  induction names with
  | nil => simp [checkTables]
  | cons name names ih =>
    unfold checkTables
    split
    · rename_i hne
      exact iff_of_false (by simp) fun h => hne (h name List.mem_cons_self).1
    · split
      · rename_i hne
        exact iff_of_false (by simp) fun h => hne (h name List.mem_cons_self).2
      · rename_i hc hd
        rw [ih, List.forall_mem_cons]
        exact ⟨fun h => ⟨⟨not_not.1 hc, not_not.1 hd⟩, h⟩, fun h => h.2⟩

/-- The counts and the hashes are those of the tables `src`. -/
def Env.Tells (env : Env R H F) (cs : List (String × ℕ)) (ds : List (String × H)) (src : (t : TableCatalog) →
    Contents R t) : Prop :=
  ∀ t ∈ CATALOG, cs.lookup t.name = some (src t).rows.length ∧
    ds.lookup t.name = some (env.sha256
      (Utf8.encode (env.reals.lines ((pgOrder t (src t).rows).map (List.map normal)))))

/-- The digest of a whole database. -/
theorem snapshotDigest_eq (env : Env R H F) {db : Database R} {src : (t : TableCatalog) → Contents R t}
    (hdb : ∀ t ∈ CATALOG, db t = some (src t)) :
    ∃ digest, env.snapshotDigest db = .ok digest ∧ env.Tells (counts digest) (digests digest) src := by
  choose td hok hname hcount hhash using fun t => streamTableDigest_eq env (src t)
  have hmap : CATALOG.mapM (fun t => env.streamTableDigest t (db t)) = .ok (CATALOG.map td) := mapM_ok fun t ht => by
    rw [hdb t ht]
    exact hok t
  refine ⟨⟨env.fingerprint (CATALOG.map td), CATALOG.map td⟩, ?_, fun t ht => ?_⟩
  · unfold Env.snapshotDigest
    rw [hmap]
    rfl
  · have hc := lookup_map (f := fun t => (src t).rows.length) Migration.catalog_names_nodup t ht
    have hd := lookup_map (f := fun t =>
      env.sha256 (Utf8.encode (env.reals.lines ((pgOrder t (src t).rows).map (List.map normal)))))
      Migration.catalog_names_nodup t ht
    simp only [counts, digests, List.map_map, Function.comp_def, hname, hcount, hhash]
    exact ⟨hc, hd⟩

/-- A database with a digest has every table. -/
theorem tables_of_snapshotDigest (env : Env R H F) {db : Database R} {digest : StorageDigest H F}
    (h : env.snapshotDigest db = .ok digest) :
    ∀ t ∈ CATALOG, ∃ c, db t = some c := by
  intro t ht
  unfold Env.snapshotDigest at h
  cases hrun : CATALOG.mapM fun t => env.streamTableDigest t (db t) with
  | error e =>
    rw [hrun] at h
    cases h
  | ok tds =>
    obtain ⟨td, htd⟩ := of_mapM_ok hrun t ht
    cases hdb : db t with
    | none =>
      rw [hdb] at htd
      cases htd
    | some c => exact ⟨c, rfl⟩

/-- Every table is there, and what the digest tells of it is the snapshot's. -/
def Restored (src : (t : TableCatalog) → Contents R t) (db : Database R) : Prop := ∀ t ∈ CATALOG, ∃ c, db t = some c ∧
    Alike (src t) c

theorem createBackup_eq (env : Env R H F) {src : (t : TableCatalog) → Contents R t} {dump : List UInt8} :
    ∃ manifest, env.createBackup (fun t => some (src t)) dump = .ok manifest ∧
      manifest.artifactSha256 = env.sha256 dump ∧
      env.Tells manifest.tableCounts manifest.tableDigests src := by
  obtain ⟨d, hd, hlook⟩ := @snapshotDigest_eq _ _ _ _ env (fun t => some (src t)) src fun t _ => rfl
  refine ⟨⟨env.sha256 dump, counts d, digests d⟩, ?_, rfl, hlook⟩
  unfold Env.createBackup
  rw [hd]
  rfl

variable [DecidableEq H]

/-- The comparison passes on tables that are alike. -/
theorem checkTables_iff_alike (env : Env R H F) {src got : (t : TableCatalog) → Contents R t} {cs : List (String × ℕ)}
    {ds : List (String × H)}
    {manifest : Manifest H} (hgot : env.Tells cs ds got)
    (hm : env.Tells manifest.tableCounts manifest.tableDigests src) :
    checkTables cs ds manifest APP_TABLES = .ok () ↔ ∀ t ∈ CATALOG, Alike (src t) (got t) := by
  rw [checkTables_ok_iff, appTables_eq, List.forall_mem_map]
  refine forall₂_congr fun t ht => ?_
  rw [(hgot t ht).1, (hgot t ht).2, (hm t ht).1, (hm t ht).2]
  constructor
  · rintro ⟨-, hhash⟩
    exact (contentHash_eq_iff env _ _).1 (Option.some.inj hhash).symm
  · intro halike
    rw [rowCount_of_alike halike, (contentHash_eq_iff env _ _).2 halike]
    exact ⟨rfl, rfl⟩

/-- **When the reconciliation passes.** -/
theorem reconcileRestored_ok_iff (env : Env R H F) {src : (t : TableCatalog) → Contents R t} {manifest : Manifest H}
    (hm : env.Tells manifest.tableCounts manifest.tableDigests src) (db : Database R) :
    (∃ tables, env.reconcileRestored db manifest = .ok tables) ↔ Restored src db := by
  unfold Env.reconcileRestored
  constructor
  · rintro ⟨tables, h⟩
    cases hd : env.snapshotDigest db with
    | error e =>
      rw [hd] at h
      cases h
    | ok d =>
      rw [hd] at h
      obtain ⟨got, hgot⟩ := exists_contents (tables_of_snapshotDigest env hd)
      obtain ⟨d', hd', hlook⟩ := snapshotDigest_eq env hgot
      obtain rfl : d = d' := Except.ok.inj (hd.symm.trans hd')
      cases hcheck : checkTables (counts d) (digests d) manifest APP_TABLES with
      | error e =>
        simp only [bind, Except.bind, hcheck] at h
        cases h
      | ok u =>
        intro t ht
        exact ⟨got t, hgot t ht, (checkTables_iff_alike env hlook hm).1 hcheck t ht⟩
  · intro h
    obtain ⟨got, hgot⟩ := exists_contents fun t ht => (h t ht).imp fun _ hc => hc.1
    obtain ⟨d, hd, hlook⟩ := snapshotDigest_eq env hgot
    have hcheck : checkTables (counts d) (digests d) manifest APP_TABLES = .ok () := by
      refine (checkTables_iff_alike env hlook hm).2 fun t ht => ?_
      obtain ⟨c, hc, halike⟩ := h t ht
      obtain rfl : got t = c := Option.some.inj ((hgot t ht).symm.trans hc)
      exact halike
    rw [hd]
    exact ⟨counts d, by simp only [bind, Except.bind, hcheck]; rfl⟩

/-- A drill that reports success has reconciled. -/
theorem reconciled_of_restoreDrill (env : Env R H F) {artifact : List UInt8} {manifest : Manifest H}
    {database : String} {db : Database R}
    {cleanupError : Option String} {result : RestoreDrillResult}
    (h : env.restoreDrill artifact manifest database (.ok db) cleanupError = .ok result) :
    env.reconcileRestored db manifest = .ok result.tables := by
  unfold Env.restoreDrill at h
  split at h
  · cases h
  · cases hr : env.reconcileRestored db manifest with
    | error e =>
      simp only [bind, Except.bind, hr] at h
      cases h
    | ok tables =>
      simp only [bind, Except.bind, hr] at h
      cases cleanupError with
      | none =>
        cases h
        rfl
      | some e => cases h

theorem restoreDrill_of_reconciled (env : Env R H F) {artifact : List UInt8} {manifest : Manifest H}
    (hsha : env.sha256 artifact = manifest.artifactSha256) {db : Database R} {tables : List (String × ℕ)}
    (h : env.reconcileRestored db manifest = .ok tables) (database : String) :
    env.restoreDrill artifact manifest database (.ok db) none = .ok ⟨"restored", database, tables, "dropped"⟩ := by
  unfold Env.restoreDrill
  rw [if_neg (not_not.2 hsha)]
  simp only [bind, Except.bind, h]
  rfl

/-- **When the digest identifies the data.** Two contents of a table have one hash just when they are the same rows,
unless they are different rows that differ, in the order of the digest, by seconds across the start of 1970 alone; and
a drill succeeds on the snapshot's rows only, unless every table is restored with rows that differ so, and not all are
the same. -/
theorem digest_identifies_iff (env : Env R H F) :
    (∀ t ∈ CATALOG, ∀ a b : Contents R t, ∃ da db, env.streamTableDigest t (some a) = .ok da ∧
      env.streamTableDigest t (some b) = .ok db ∧
      ((da.contentHash = db.contentHash ↔ a.rows.Perm b.rows) ↔ (a.rows.Perm b.rows ∨ ¬ Alike a b))) ∧
    ∀ (src : (t : TableCatalog) → Contents R t) (dump : List UInt8) (db : Database R), ∃ manifest,
      env.createBackup (fun t => some (src t)) dump = .ok manifest ∧
      ((∀ artifact database cleanupError result, env.restoreDrill artifact manifest database (.ok db) cleanupError =
        .ok result →
          ∀ t ∈ CATALOG, ∃ c, db t = some c ∧ (src t).rows.Perm c.rows) ↔
        ((∀ t ∈ CATALOG, ∃ c, db t = some c ∧ (src t).rows.Perm c.rows) ∨ ∃ t ∈ CATALOG, ∀ c, db t = some c →
        ¬ Alike (src t) c)) := by
  constructor
  · intro t ht a b
    obtain ⟨da, hda, -, -, hha⟩ := streamTableDigest_eq env a
    obtain ⟨db, hdb, -, -, hhb⟩ := streamTableDigest_eq env b
    refine ⟨da, db, hda, hdb, ?_⟩
    rw [hha, hhb, contentHash_eq_iff]
    have hsame : a.rows.Perm b.rows → Alike a b := alike_of_perm ht
    tauto
  · intro src dump db
    obtain ⟨manifest, hmanifest, hsha, hlook⟩ := @createBackup_eq _ _ _ _ env src dump
    refine ⟨manifest, hmanifest, ?_⟩
    have hpass := reconcileRestored_ok_iff env hlook db
    constructor
    · intro honly
      by_cases hrestored : Restored src db
      · obtain ⟨tables, htables⟩ := hpass.2 hrestored
        exact .inl (honly _ _ _ _ (restoreDrill_of_reconciled env hsha.symm htables ""))
      · simp only [Restored, not_forall, not_exists, not_and] at hrestored
        obtain ⟨t, ht, hno⟩ := hrestored
        exact .inr ⟨t, ht, hno⟩
    · rintro (hsame | ⟨t, ht, hno⟩) artifact database cleanupError result hdrill
      · exact hsame
      · obtain ⟨c, hc, halike⟩ := hpass.1 ⟨_, reconciled_of_restoreDrill env hdrill⟩ t ht
        exact absurd halike (hno c hc)

/-! ## A second before 1970 -/

theorem digit_mem {c : Char} (h : c.isDigit = true) : c ∈ "0123456789".toList := by
  obtain ⟨h1, h2⟩ : 48 ≤ c.toNat ∧ c.toNat ≤ 57 := by
    simp only [Char.isDigit, Bool.and_eq_true, decide_eq_true_eq, UInt32.le_iff_toNat_le] at h
    exact h
  have hc : c = Char.ofNat c.toNat := (Char.ofNat_toNat c).symm
  rw [hc]
  generalize c.toNat = n at h1 h2
  interval_cases n <;> simp

/-- Floats that are whole, below those that are written with an exponent. -/
def wholes : RealText ℤ where
  text x := x.repr.toList ++ ".0".toList
  injective x y h := Int.repr_injective (String.toList_inj.1 (List.append_cancel_right h))
  chars x c h := by
    have hdigits : ∀ d ∈ "0123456789".toList, d ∈ "+-.0123456789eINafinty".toList := by simp
    rcases List.mem_append.1 h with h | h
    · rcases FlatJson.int_chars h with rfl | hd
      · simp
      · exact hdigits c (digit_mem hd)
    · have hend : c = '.' ∨ c = '0' := by simpa using h
      rcases hend with rfl | rfl <;> simp
  ne_nil x := by simp
  ne_int x n h := by
    have hdot : '.' ∈ n.repr.toList := by
      rw [← h]
      simp
    rcases FlatJson.int_chars hdot with hd | hd <;> cases hd

/-- A hash that forgets nothing. -/
def keepEnv : Env ℤ (List UInt8) Unit := ⟨wholes, fun x => x != 0, id, Function.injective_id, fun _ => ()⟩

def tradeAt (us : ℤ) : PgRow ℤ :=
  [.time us, .text "KIS", .text "005930", .real 70000, .real 1, .int 1, .time 1000000, .null, .int 1]

/-- One trade, half a second before 1970. -/
def before : Contents ℤ Migration.trades := ⟨[tradeAt (-500000)], by decide⟩

/-- The same trade, half a second after the start of 1970. -/
def after : Contents ℤ Migration.trades := ⟨[tradeAt 500000], by decide⟩

def withTrades (trades : Contents ℤ Migration.trades) (t : TableCatalog) : Contents ℤ t :=
  if h : t = Migration.trades then h ▸ trades else ⟨[], by simp⟩

theorem before_alike_after : Alike before after := by
  show List.Forall₂ (List.Forall₂ alike) [tradeAt (-500000)] [tradeAt 500000]
  simp [tradeAt, alike, AcrossEpoch]

theorem before_not_after : ¬ before.rows.Perm after.rows := by
  show ¬ [tradeAt (-500000)].Perm [tradeAt 500000]
  simp [tradeAt]

theorem restored_after : Restored (withTrades before) fun t => some (withTrades after t) := by
  intro t ht
  refine ⟨_, rfl, ?_⟩
  by_cases h : t = Migration.trades
  · subst h
    exact before_alike_after
  · have hsame : withTrades before t = withTrades after t := by simp [withTrades, h]
    rw [hsame]
    exact alike_of_perm ht (List.Perm.refl _)

/-- **A trade restored a second late is not noticed.** -/
theorem second_before_1970_lost :
    (∃ da db, keepEnv.streamTableDigest Migration.trades (some before) = .ok da ∧
      keepEnv.streamTableDigest Migration.trades (some after) = .ok db ∧
      da.contentHash = db.contentHash ∧ ¬ before.rows.Perm after.rows) ∧
    ∃ manifest result, keepEnv.createBackup (fun t => some (withTrades before t)) [] = .ok manifest ∧
      keepEnv.restoreDrill [] manifest "mdfeed_restore_test_0" (.ok fun t => some (withTrades after t)) none =
        .ok result ∧
      ¬ (withTrades before Migration.trades).rows.Perm (withTrades after Migration.trades).rows := by
  constructor
  · obtain ⟨da, hda, -, -, hha⟩ := streamTableDigest_eq keepEnv before
    obtain ⟨db, hdb, -, -, hhb⟩ := streamTableDigest_eq keepEnv after
    refine ⟨da, db, hda, hdb, ?_, before_not_after⟩
    rw [hha, hhb]
    exact (contentHash_eq_iff keepEnv before after).2 before_alike_after
  · obtain ⟨manifest, hmanifest, hsha, hlook⟩ := @createBackup_eq _ _ _ _ keepEnv (withTrades before) []
    obtain ⟨tables, htables⟩ := (reconcileRestored_ok_iff keepEnv hlook _).2 restored_after
    exact ⟨manifest, _, hmanifest, restoreDrill_of_reconciled keepEnv hsha.symm htables _, before_not_after⟩

end Backup
