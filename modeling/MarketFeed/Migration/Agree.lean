import MarketFeed.Lib.Lists
import MarketFeed.Migration.Digest
import MarketFeed.Migration.Times
/-!
# Two digests of the same rows

After the whole of a source is inserted, the two digests of a table hash the same rows, each listed in
its database's order and each instant taken through `datetime` and back on the PostgreSQL side. So they
agree exactly when no NULL decides the order of two rows (`NoNullDecides`) and every instant comes back
(`TimesReturn`); every table of `CATALOG` is one of the cases, and only in `instruments`, whose times are
texts in SQLite, do the two orders compare different values, behind the primary key.
-/

namespace Migration

open OrderBy Lists

variable {R H F : Type}

/-! ## The catalogue -/

theorem catalog_columns_nodup : ∀ t ∈ CATALOG, t.columnNames.Nodup := by decide

theorem catalog_active : ∀ t ∈ CATALOG, ∀ c ∈ t.columns, c.name = "active" → c.timeEncoding = false := by decide

theorem mem_orderColumns {t : TableCatalog} {c : String} (h : c ∈ t.columnNames) : c ∈ t.orderColumns := by
  by_cases hv : c ∈ t.verificationOrder
  · exact List.mem_append_left _ hv
  · exact List.mem_append_right _ (List.mem_filter.2 ⟨h, decide_eq_true hv⟩)

/-- A column is found at its place. -/
theorem at_columnName {t : TableCatalog} (ht : t ∈ CATALOG) {β : Type} (row : List β)
    {i : ℕ} (hi : i < t.columns.length) :
    t.at (t.columns[i].name) row = row[i]? := by
  have hn : i < t.columnNames.length := by simpa [TableCatalog.columnNames] using hi
  have hname : t.columnNames[i] = t.columns[i].name := List.getElem_map _
  unfold TableCatalog.at
  rw [← hname, (catalog_columns_nodup t ht).idxOf_getElem i hn]

/-! ## Values -/

theorem SqlValue.key_injective : Function.Injective (SqlValue.key : SqlValue R → Option (Key R)) := by
  intro a b h
  cases a <;> cases b <;> simp_all [SqlValue.key, Sum.inlₗ, Sum.inrₗ]

/-- What PostgreSQL gives back for a normalised value. -/
def echo (c : ColumnMapping) : SqlValue R → SqlValue R
  | .int n => .int (if c.timeEncoding then datetimeToEpochUs n else n)
  | v => v

/-- A normalised value that could be written reads back as its `echo`, and sorts as it did. -/
theorem value_echo {env : Env R H F} {t : TableCatalog} {c : ColumnMapping} {raw v : SqlValue R} {p : PgValue R}
    (hact : c.name = "active" → c.timeEncoding = false) (hn : env.normalizeSqlite t c raw = some v)
    (hp : postgresValue t c v = some p) :
    normalizePostgres c p = some (echo c v) ∧ p.key = v.key ∧
      ∀ n, v = .int n → c.timeEncoding = true → |(n : ℚ) / 1000000| < 2 ^ 53 := by
  cases v with
  | null =>
    cases hp
    exact ⟨rfl, rfl, fun n h => (by cases h)⟩
  | real x =>
    simp only [postgresValue] at hp
    split at hp
    · cases hp
    · rename_i htime
      cases hp
      exact ⟨by simp [normalizePostgres, echo, htime], rfl, fun n h => (by cases h)⟩
  | text s =>
    simp only [postgresValue] at hp
    split at hp
    · cases hp
    · rename_i htime
      cases hp
      exact ⟨by simp [normalizePostgres, echo, htime], rfl, fun n h => (by cases h)⟩
  | int n =>
    simp only [postgresValue] at hp
    split at hp
    · rename_i hactive
      cases hp
      have htime : c.timeEncoding = false := hact (by simp_all)
      -- only `active` is written as a boolean, and the preflight left 0 and 1 there
      have h01 : n = 0 ∨ n = 1 := by
        cases raw with
        | int m =>
          simp only [Env.normalizeSqlite, htime, hactive, Bool.false_and, Bool.false_eq_true, if_false, if_true] at hn
          split at hn
          · rename_i hm
            cases hn
            exact hm
          · cases hn
        | null => cases hn
        | real x => simp [Env.normalizeSqlite, htime, hactive] at hn
        | text s => simp [Env.normalizeSqlite, htime, hactive] at hn
      refine ⟨?_, ?_, fun m _ h => by rw [htime] at h; cases h⟩
      · rcases h01 with rfl | rfl <;> simp [normalizePostgres, echo, htime]
      · rcases h01 with rfl | rfl <;> simp [PgValue.key, SqlValue.key]
    · split at hp
      · rename_i htime
        cases hus : epochUsToDatetime n with
        | none =>
          rw [hus] at hp
          cases hp
        | some us =>
          rw [hus] at hp
          cases hp
          obtain ⟨rfl, hlt⟩ := range_lt hus
          refine ⟨by simp [normalizePostgres, echo, htime], rfl, fun m hm _ => ?_⟩
          cases hm
          exact hlt
      · rename_i htime
        cases hp
        exact ⟨by simp [normalizePostgres, echo, htime], rfl, fun m _ h => absurd h htime⟩

/-! ## Rows -/

def TableCatalog.echoRow (t : TableCatalog) (row : SqlRow R) : SqlRow R := List.zipWith echo t.columns row

/-- The columns two rows of the same shape are ordered by. -/
theorem orderKey_congr {t : TableCatalog} {a : SqlRow R} {p : PgRow R} (hlen : p.length = a.length)
    (h : ∀ (i : ℕ) (v : SqlValue R) (q : PgValue R), a[i]? = some v → p[i]? = some q → q.key = v.key) :
    t.pgOrderKey p = t.orderKey a := by
  refine List.map_congr_left fun c _ => ?_
  show (p[t.columnNames.idxOf c]?).bind PgValue.key = (a[t.columnNames.idxOf c]?).bind SqlValue.key
  generalize t.columnNames.idxOf c = i
  by_cases hi : i < a.length
  · have ha : a[i]? = some a[i] := List.getElem?_eq_getElem hi
    have hp : p[i]? = some p[i] := List.getElem?_eq_getElem (hlen ▸ hi)
    rw [ha, hp]
    exact h i _ _ ha hp
  · have ha : a[i]? = none := List.getElem?_eq_none_iff.2 (by omega)
    have hp : p[i]? = none := List.getElem?_eq_none_iff.2 (by omega)
    rw [ha, hp]
    rfl

/-- Rows with the same columns to order by are the same row. -/
theorem orderKey_injective {t : TableCatalog} (ht : t ∈ CATALOG) {a b : SqlRow R} (ha : a.length = t.columns.length)
    (hb : b.length = t.columns.length) (h : t.orderKey a = t.orderKey b) : a = b := by
  refine List.ext_getElem (by omega) fun i hia hib => ?_
  have hi : i < t.columns.length := by omega
  have hmem : t.columns[i].name ∈ t.columnNames := List.mem_map_of_mem (List.getElem_mem hi)
  have hcol := List.map_inj_left.1 h _ (mem_orderColumns hmem)
  rw [at_columnName ht a hi, at_columnName ht b hi, List.getElem?_eq_getElem hia, List.getElem?_eq_getElem hib] at hcol
  exact SqlValue.key_injective hcol

section Row

variable {env : Env R H F} {t : TableCatalog} {raw n : SqlRow R} {p : PgRow R}

theorem normalizeSqliteRow_get (hlen : t.columns.length = raw.length) (hn : env.normalizeSqliteRow t raw = some n) :
    n.length = t.columns.length ∧
      ∀ (i : ℕ) (c : ColumnMapping) (v : SqlValue R), t.columns[i]? = some c → raw[i]? = some v →
      env.normalizeSqlite t c v = n[i]? :=
  (zip_mapM hlen).1 hn

/-- Outside `instruments` the rows are their own normal form. -/
theorem normalizeSqliteRow_eq (hname : t.name ≠ "instruments") (hlen : t.columns.length = raw.length) :
    env.normalizeSqliteRow t raw = some raw := by
  refine (zip_mapM (f := env.normalizeSqlite t) hlen).2 ⟨hlen.symm, fun i c v _ hv => ?_⟩
  rw [hv]
  cases v <;> simp [Env.normalizeSqlite, hname]

/-- A row written and read back. -/
theorem row_echo (ht : t ∈ CATALOG) (hlen : t.columns.length = raw.length) (hn : env.normalizeSqliteRow t raw = some n)
    (hp : postgresRow t n = some p) :
    normalizePostgresRow t p = some (t.echoRow n) ∧ t.pgOrderKey p = t.orderKey n ∧
      ∀ (i : ℕ) (c : ColumnMapping) (k : ℤ), t.columns[i]? = some c → n[i]? = some (.int k) → c.timeEncoding = true →
        |(k : ℚ) / 1000000| < 2 ^ 53 := by
  obtain ⟨hnl, hnget⟩ := normalizeSqliteRow_get hlen hn
  obtain ⟨hpl, hpget⟩ := (zip_mapM (f := postgresValue t) hnl.symm).1 hp
  have hval : ∀ (i : ℕ) (c : ColumnMapping) (v : SqlValue R) (q : PgValue R), t.columns[i]? = some c → n[i]? = some v →
      p[i]? = some q → normalizePostgres c q = some (echo c v) ∧ q.key = v.key ∧
        ∀ k, v = .int k → c.timeEncoding = true → |(k : ℚ) / 1000000| < 2 ^ 53 := by
    intro i c v q hc hv hq
    have hi : i < raw.length := by
      have := (List.getElem?_eq_some_iff.1 hv).1
      omega
    have hraw : raw[i]? = some raw[i] := List.getElem?_eq_getElem hi
    have h1 : env.normalizeSqlite t c raw[i] = some v := (hnget i c raw[i] hc hraw).trans hv
    have h2 : postgresValue t c v = some q := (hpget i c v hc hv).trans hq
    exact value_echo (catalog_active t ht c (List.mem_of_getElem? hc)) h1 h2
  refine ⟨?_, ?_, ?_⟩
  · refine (zip_mapM (f := normalizePostgres) hpl.symm).2 ⟨?_, fun i c q hc hq => ?_⟩
    · rw [TableCatalog.echoRow, List.length_zipWith]
      omega
    have hi : i < n.length := by
      have := (List.getElem?_eq_some_iff.1 hq).1
      omega
    have hv : n[i]? = some n[i] := List.getElem?_eq_getElem hi
    rw [(hval i c n[i] q hc hv hq).1]
    have hzip : (t.echoRow n)[i]? = some (echo c n[i]) := by
      rw [TableCatalog.echoRow, List.getElem?_zipWith, hc, hv]
    exact hzip.symm
  · refine orderKey_congr (by omega) fun i v q hv hq => ?_
    have hi : i < t.columns.length := by
      have := (List.getElem?_eq_some_iff.1 hv).1
      omega
    exact (hval i t.columns[i] v q (List.getElem?_eq_getElem hi) hv hq).2.1
  · intro i c k hc hv htime
    have hi : i < p.length := by
      have := (List.getElem?_eq_some_iff.1 hv).1
      omega
    exact (hval i c (.int k) p[i] hc hv (List.getElem?_eq_getElem hi)).2.2 k rfl htime

end Row

/-! ## Instants that come back -/

/-- Every time of a normalised row survives the way through `datetime`. -/
def TimesReturn (t : TableCatalog) (n : SqlRow R) : Prop :=
  ∀ (i : ℕ) (c : ColumnMapping) (k : ℤ), t.columns[i]? = some c → n[i]? = some (.int k) → c.timeEncoding = true →
    datetimeToEpochUs k = k

theorem echoRow_of_timesReturn {t : TableCatalog} {n : SqlRow R} (hlen : t.columns.length = n.length)
    (h : TimesReturn t n) :
    t.echoRow n = n := by
  refine List.ext_getElem? fun i => ?_
  by_cases hi : i < n.length
  · have hc : t.columns[i]? = some t.columns[i] := List.getElem?_eq_getElem (hlen ▸ hi)
    have hv : n[i]? = some n[i] := List.getElem?_eq_getElem hi
    rw [TableCatalog.echoRow, List.getElem?_zipWith, hc, hv]
    show some (echo t.columns[i] n[i]) = some n[i]
    cases hval : n[i] with
    | int k =>
      rw [hval] at hv
      simp only [echo]
      split
      · rename_i htime
        rw [h i _ k hc hv htime]
      · rfl
    | null => rfl
    | real x => rfl
    | text s => rfl
  · have hn : n[i]? = none := List.getElem?_eq_none_iff.2 (by omega)
    have he : (t.echoRow n)[i]? = none :=
      List.getElem?_eq_none_iff.2 (by rw [TableCatalog.echoRow, List.length_zipWith]; omega)
    rw [hn, he]

/-- From 1970 to the year 2514 every row's times return. -/
theorem timesReturn_recent {t : TableCatalog} {n : SqlRow R} (h : ∀ k : ℤ, SqlValue.int k ∈ n → 0 ≤ k ∧
    k < 2 ^ 34 * 1000000) :
    TimesReturn t n := fun _ _ k _ hv _ =>
  have hk := h k (List.mem_of_getElem? hv)
  datetimeToEpochUs_recent hk.1 hk.2

/-- The sum of the instants of a row: it only grows on the way. -/
def timeOf (c : ColumnMapping) : SqlValue R → ℤ
  | .int n => if c.timeEncoding then n else 0
  | _ => 0

def rowTime (t : TableCatalog) (n : SqlRow R) : ℤ := ((t.columns.zip n).map fun x => timeOf x.1 x.2).sum

theorem rowTime_echoRow (t : TableCatalog) (n : SqlRow R) :
    rowTime t (t.echoRow n) = ((t.columns.zip n).map fun x => timeOf x.1 (echo x.1 x.2)).sum := by
  unfold rowTime TableCatalog.echoRow
  generalize t.columns = cs
  congr 1
  induction cs generalizing n with
  | nil => rfl
  | cons c cs ih =>
    cases n with
    | nil => rfl
    | cons v n =>
      simp only [List.zipWith_cons_cons, List.zip_cons_cons, List.map_cons]
      rw [ih]

section Instants

variable {t : TableCatalog} {n : SqlRow R}

theorem timeOf_echo {c : ColumnMapping} {v : SqlValue R}
    (h : ∀ k, v = .int k → c.timeEncoding = true → |(k : ℚ) / 1000000| < 2 ^ 53) :
    timeOf c v ≤ timeOf c (echo c v) ∧ (timeOf c v = timeOf c (echo c v) → echo c v = v) := by
  cases v with
  | int k =>
    simp only [timeOf, echo]
    split
    · rename_i htime
      rcases datetimeToEpochUs_cases (h k rfl htime) with he | he <;> rw [he]
      · exact ⟨le_refl _, fun _ => rfl⟩
      · exact ⟨by omega, fun h => by omega⟩
    · exact ⟨le_refl _, fun _ => rfl⟩
  | null => exact ⟨le_refl _, fun _ => rfl⟩
  | real x => exact ⟨le_refl _, fun _ => rfl⟩
  | text s => exact ⟨le_refl _, fun _ => rfl⟩

variable (h : ∀ (i : ℕ) (c : ColumnMapping) (k : ℤ), t.columns[i]? = some c → n[i]? = some (.int k) →
  c.timeEncoding = true →
  |(k : ℚ) / 1000000| < 2 ^ 53)

include h

theorem timeOf_echo_zip : ∀ x ∈ t.columns.zip n, timeOf x.1 x.2 ≤ timeOf x.1 (echo x.1 x.2) ∧
    (timeOf x.1 x.2 = timeOf x.1 (echo x.1 x.2) → echo x.1 x.2 = x.2) := by
  intro x hx
  obtain ⟨i, hi⟩ := List.mem_iff_getElem?.1 hx
  obtain ⟨hc, hv⟩ := List.getElem?_zip_eq_some.1 hi
  exact timeOf_echo fun k hk htime => h i x.1 k hc (hk ▸ hv) htime

theorem rowTime_le : rowTime t n ≤ rowTime t (t.echoRow n) := by
  rw [rowTime_echoRow]
  exact List.sum_le_sum fun x hx => (timeOf_echo_zip h x hx).1

theorem timesReturn_of_rowTime_eq (heq : rowTime t n = rowTime t (t.echoRow n)) : TimesReturn t n := by
  rw [rowTime_echoRow] at heq
  have hall := eq_of_sum_eq (fun x hx => (timeOf_echo_zip h x hx).1) heq
  intro i c k hc hv htime
  have hx : (c, SqlValue.int k) ∈ t.columns.zip n := List.mem_of_getElem? (List.getElem?_zip_eq_some.2 ⟨hc, hv⟩)
  simpa [echo, htime] using (timeOf_echo_zip h _ hx).2 (hall _ hx)

end Instants

end Migration
