import Mathlib
import MarketFeed.Lib.Lists
import MarketFeed.Migration.Agree
import MarketFeed.Retention.Canonical
/-!
# One proof of a day (archive.py:273-313, retention.py:288-320)

The two loops hash the same text: the header and then the rows of the day in the order of their values,
however the rows lie and wherever the chunks end. Where every value is of its column's declared type the text
gives the rows back; a database that takes other values can hold an empty text where another row has NULL,
and the CSV shows both as nothing.
-/

namespace Retention.Canonical

open Migration (SqlValue SqlRow TableCatalog ColumnMapping)

variable {R : Type}

/-! ## Chunks -/

theorem fetchAll_flatten {α : Type} {chunk : ℕ} (h : 0 < chunk) (rows : List α) :
    (fetchAll chunk rows).flatten = rows := by
  induction hlen : rows.length using Nat.strongRecOn generalizing rows with
  | ind n ih =>
    rw [fetchAll]
    split
    · rename_i hempty
      rcases List.take_eq_nil_iff.1 hempty with h0 | h0
      · omega
      · exact h0.symm
    · rename_i hne
      have hpos : rows ≠ [] := fun he => hne (by rw [he, List.take_nil])
      have hlt : (rows.drop chunk).length < n := by
        have := List.length_pos_iff.2 hpos
        rw [List.length_drop]
        omega
      rw [List.flatten_cons, ih _ hlt _ rfl, List.take_append_drop]

theorem slices_flatten {α : Type} {chunk : ℕ} (h : 0 < chunk) (rows : List α) : (slices chunk rows).flatten = rows := by
  have hprefix : ∀ n, ((List.range n).map fun k => (rows.drop (k * chunk)).take chunk).flatten =
      rows.take (n * chunk) := by
    intro n
    induction n with
    | zero => simp
    | succ n ih =>
      rw [List.range_succ, List.map_append, List.flatten_append, ih, List.map_singleton, List.flatten_singleton,
        Nat.succ_mul, List.take_add]
  rw [slices, hprefix, List.take_of_length_le]
  have := Nat.div_add_mod (rows.length + chunk - 1) chunk
  have := Nat.mod_lt (rows.length + chunk - 1) h
  rw [Nat.mul_comm]
  omega

/-! ## Rows of dicts -/

theorem dict_values : ∀ {cols : List String} (_ : cols.Nodup) {cells : SqlRow R} (_ : cells.length = cols.length),
    Fetched.values cols (.dict (cols.zip cells)) = cells
  | [], _, [], _ => rfl
  | col :: cols, hn, v :: cells, hlen => by
    obtain ⟨hcol, hn⟩ := List.nodup_cons.1 hn
    have ih := dict_values hn (Nat.succ.inj hlen)
    have hrest : ∀ c ∈ cols, ((col :: cols).zip (v :: cells)).lookup c = (cols.zip cells).lookup c := by
      intro c hc
      have hne : (c == col) = false := beq_eq_false_iff_ne.2 fun he => hcol (he ▸ hc)
      rw [List.zip_cons_cons, List.lookup_cons, hne]
    rw [Fetched.values] at ih ⊢
    rw [List.map_cons, List.zip_cons_cons, List.lookup_cons_self, Option.getD_some]
    refine congrArg _ ((List.map_congr_left fun c hc => ?_).trans ih)
    rw [← List.zip_cons_cons, hrest c hc]

section Loops

variable [LinearOrder (SqlValue R)] (st : Storage R) (t : Table) (d : ℤ)

theorem select_width {row : SqlRow R} (h : row ∈ st.select t d) : row.length = (ARCHIVE_TABLES t).length := by
  have hrow := (List.perm_insertionSort _ _).mem_iff.1 h
  obtain ⟨r, hr, rfl⟩ := List.mem_map.1 hrow
  exact st.width t r (List.mem_filter.1 hr).1

/-- The export goes through the rows in order. -/
theorem iterRows_flatten : (st.iterRows t d).flatten = st.select t d := by
  unfold Storage.iterRows
  split
  · exact fetchAll_flatten (by decide) _
  · rw [← List.map_flatten, slices_flatten (by decide), Storage.query, List.map_map]
    refine (List.map_congr_left fun row hrow => ?_).trans (List.map_id _)
    cases st.asDict with
    | false => rfl
    | true => exact List.map_snd_zip (le_of_eq (select_width st t d hrow))

/-- So does the check. -/
theorem iterator_flatten : (st.iterator t d).flatten.map (Fetched.values (ARCHIVE_TABLES t)) = st.select t d := by
  unfold Storage.iterator
  split
  · rw [← List.map_flatten, fetchAll_flatten (by decide), List.map_map]
    exact List.map_id _
  · rw [slices_flatten (by decide), Storage.query, List.map_map]
    refine (List.map_congr_left fun row hrow => ?_).trans (List.map_id _)
    cases st.asDict with
    | false => rfl
    | true => exact dict_values (archiveTables_nodup t) (select_width st t d hrow)

end Loops

/-! ## What is hashed -/

variable (fr : FloatRepr R)

theorem encode_append (s s' : List Char) : encode (s ++ s') = encode s ++ encode s' := by
  simp [encode, String.ofList_append, String.toByteArray_append]

theorem encode_injective : Function.Injective encode := by
  intro s s' h
  have h := String.toByteArray_inj.1 h
  simpa using congrArg String.toList h

theorem writerows_append (rows rows' : List (SqlRow R)) :
    fr.writerows (rows ++ rows') = fr.writerows rows ++ fr.writerows rows' := by
  simp [FloatRepr.writerows, Csv.rows_append]

/-- Everything that has been hashed or waits in `buf`. -/
def Sink.text (s : Sink) : ByteArray := s.hashed ++ encode s.buf

theorem exportChunk_text (s : Sink) (chunk : List (SqlRow R)) :
    (fr.exportChunk s chunk).text = s.text ++ encode (fr.writerows chunk) := by
  simp only [Sink.text, FloatRepr.exportChunk, encode_append, ByteArray.append_assoc]
  rw [← encode_append (fr.writerows chunk) [], List.append_nil]

theorem proofChunk_text (t : Table) (s : Sink) (chunk : List (Fetched R)) :
    (fr.proofChunk t s chunk).text = s.text ++ encode (fr.writerows (chunk.map (Fetched.values (ARCHIVE_TABLES t)))) :=
  exportChunk_text fr s _

/-- A loop that takes a chunk at a time has taken the rows of all chunks. -/
theorem foldl_chunks {β : Type} (turn : Sink → β → Sink) (rowsOf : β → List (SqlRow R))
    (hrows : ∀ s chunk, (turn s chunk).rows = s.rows + (rowsOf chunk).length)
    (htext : ∀ s chunk, (turn s chunk).text = s.text ++ encode (fr.writerows (rowsOf chunk))) (chunks : List β)
    (s : Sink) :
    (chunks.foldl turn s).rows = s.rows + (chunks.map rowsOf).flatten.length ∧
      (chunks.foldl turn s).text = s.text ++ encode (fr.writerows (chunks.map rowsOf).flatten) := by
  induction chunks generalizing s with
  | nil =>
    refine ⟨rfl, ?_⟩
    have hnil : encode (fr.writerows []) = ByteArray.empty := rfl
    rw [List.map_nil, List.flatten_nil, hnil, ByteArray.append_empty, List.foldl_nil]
  | cons chunk chunks ih =>
    obtain ⟨hr, ht⟩ := ih (turn s chunk)
    rw [List.foldl_cons, List.map_cons, List.flatten_cons, List.length_append, writerows_append, encode_append]
    refine ⟨by rw [hr, hrows, Nat.add_assoc], ?_⟩
    rw [ht, htext, ByteArray.append_assoc]

/-- The text of a day. -/
def FloatRepr.stream (t : Table) (rows : List (SqlRow R)) : List Char := header t ++ fr.writerows rows

section Streams

variable [LinearOrder (SqlValue R)] (st : Storage R) (t : Table) (d : ℤ)

theorem select_length : (st.select t d).length = (st.day t d).length :=
  (List.perm_insertionSort _ _).length_eq.trans (List.length_map _)

theorem exportSink_eq : (fr.exportSink st t d).rows = (st.day t d).length ∧
    (fr.exportSink st t d).hashed = encode (fr.stream t (st.select t d)) := by
  obtain ⟨hrows, htext⟩ := foldl_chunks fr fr.exportChunk id (fun _ _ => rfl) (exportChunk_text fr)
    (st.iterRows t d) ⟨header t, 0, ByteArray.empty, ByteArray.empty⟩
  rw [List.map_id, iterRows_flatten] at hrows htext
  refine ⟨hrows.trans ?_, htext.trans ?_⟩
  · rw [Nat.zero_add, select_length]
  · rw [FloatRepr.stream, encode_append, Sink.text, ByteArray.empty_append]

theorem proofSink_eq : (fr.proofSink st t d).rows = (st.day t d).length ∧
    (fr.proofSink st t d).hashed = encode (fr.stream t (st.select t d)) := by
  obtain ⟨hrows, htext⟩ := foldl_chunks fr (fr.proofChunk t)
    (fun chunk => chunk.map (Fetched.values (ARCHIVE_TABLES t)))
    (fun _ _ => rfl) (proofChunk_text fr t) (st.iterator t d) ⟨header t, 0, ByteArray.empty, ByteArray.empty⟩
  rw [← List.map_flatten, iterator_flatten] at hrows htext
  refine ⟨hrows.trans ?_, htext.trans ?_⟩
  · rw [Nat.zero_add, select_length]
  · rw [FloatRepr.stream, encode_append, Sink.text, ByteArray.empty_append]

/-- The gzip file is given what is hashed. -/
theorem exportSink_written : (fr.exportSink st t d).written = (fr.exportSink st t d).hashed := by
  have hfold : ∀ (chunks : List (List (SqlRow R))) (s : Sink), s.written = s.hashed →
      (chunks.foldl fr.exportChunk s).written = (chunks.foldl fr.exportChunk s).hashed := by
    intro chunks
    induction chunks with
    | nil => exact fun _ h => h
    | cons chunk chunks ih => exact fun s h => ih _ (by simp only [FloatRepr.exportChunk, h])
  simp only [FloatRepr.exportSink, hfold _ ⟨header t, 0, ByteArray.empty, ByteArray.empty⟩ rfl]

theorem select_perm : (st.select t d).Perm ((st.day t d).map Stored.cells) := List.perm_insertionSort _ _

/-- The order of the values puts the rows of a day in one place each. -/
theorem select_congr {st st' : Storage R} {t : Table} {d : ℤ} (h : (st.day t d).Perm (st'.day t d)) :
    st.select t d = st'.select t d := by
  have hperm : (st.select t d).Perm (st'.select t d) :=
    (select_perm st t d).trans ((h.map Stored.cells).trans (select_perm st' t d).symm)
  exact OrderBy.sorted_unique (f := id) hperm (OrderBy.pairwise_insertionSort_key id _)
    (OrderBy.pairwise_insertionSort_key id _)
    fun _ _ _ _ he => he

theorem day_perm_of_select {st st' : Storage R} {t : Table} {d : ℤ} (h : st.select t d = st'.select t d) :
    (st.day t d).Perm (st'.day t d) := by
  have hperm := select_perm st t d
  rw [h] at hperm
  exact (List.map_perm_map_iff cells_injective).1 (hperm.symm.trans (select_perm st' t d))

end Streams

/-! ## Values of their type -/

theorem repr_ne_empty (n : ℤ) : n.repr ≠ "" := by
  cases n with
  | ofNat n => exact Nat.repr_ne_empty
  | negSucc n =>
    intro h
    have := congrArg String.length h
    simp [Int.repr] at this

theorem cell_eq_nil {c : ColumnMapping} (hc : c.nullable = true → c.sqliteType ≠ .text) {v : SqlValue R}
    (hn : c.nullable = true) (hv : c.fits v = true) (h : fr.cell v = []) : v = .null := by
  cases v with
  | null => rfl
  | int n => exact absurd (String.toList_eq_nil_iff.1 h) (repr_ne_empty n)
  | real x => exact absurd (String.toList_eq_nil_iff.1 h) (fr.ne_empty x)
  | text s => exact absurd (eq_of_beq hv) (hc hn)

/-- A value is told by what is written of it, where no column takes both NULL and texts. -/
theorem cell_injective {c : ColumnMapping} (hc : c.nullable = true → c.sqliteType ≠ .text) {v w : SqlValue R}
    (hv : c.fits v = true) (hw : c.fits w = true) (h : fr.cell v = fr.cell w) : v = w := by
  cases v with
  | null => exact (cell_eq_nil fr hc hv hw h.symm).symm
  | int n =>
    cases w with
    | null => exact cell_eq_nil fr hc hw hv h
    | int m => rw [Int.repr_injective (String.toList_inj.1 h)]
    | real y => cases (eq_of_beq hv).symm.trans (eq_of_beq hw)
    | text s => cases (eq_of_beq hv).symm.trans (eq_of_beq hw)
  | real x =>
    cases w with
    | null => exact cell_eq_nil fr hc hw hv h
    | int m => cases (eq_of_beq hv).symm.trans (eq_of_beq hw)
    | real y => rw [fr.injective (String.toList_inj.1 h)]
    | text s => cases (eq_of_beq hv).symm.trans (eq_of_beq hw)
  | text s =>
    cases w with
    | null => exact cell_eq_nil fr hc hw hv h
    | int m => cases (eq_of_beq hv).symm.trans (eq_of_beq hw)
    | real y => cases (eq_of_beq hv).symm.trans (eq_of_beq hw)
    | text s' => rw [String.toList_inj.1 h]

theorem row_injective : ∀ {cols : List ColumnMapping} (_ : ∀ c ∈ cols, c.nullable = true → c.sqliteType ≠ .text)
    {row row' : SqlRow R},
    List.Forall₂ (fun c v => c.fits v = true) cols row → List.Forall₂ (fun c v => c.fits v = true) cols row' →
    row.map fr.cell = row'.map fr.cell → row = row'
  | _, _, _, _, .nil, .nil, _ => rfl
  | _, hc, _, _, .cons hv hrow, .cons hw hrow', h => by
    obtain ⟨hcell, htail⟩ := List.cons.inj h
    rw [cell_injective fr (hc _ List.mem_cons_self) hv hw hcell,
      row_injective (fun c hmem => hc c (List.mem_cons_of_mem _ hmem)) hrow hrow' htail]

theorem schema_nullable (t : Table) : ∀ c ∈ (schema t).columns, c.nullable = true → c.sqliteType ≠ .text := by
  cases t <;> decide

/-- The text of a day gives back its rows, in their order. -/
theorem stream_injective {t : Table} {rows rows' : List (SqlRow R)} (hr : ∀ row ∈ rows, (schema t).Typed row)
    (hr' : ∀ row ∈ rows', (schema t).Typed row) (h : fr.stream t rows = fr.stream t rows') : rows = rows' := by
  have hcells := Csv.rows_injective excel (List.append_cancel_left h)
  exact Lists.map_inj_on (fun row hrow row' hrow' => row_injective fr (schema_nullable t) (hr row hrow)
    (hr' row' hrow')) hcells

/-! ## The proof of a day -/

/-- **Export and check prove a day alike, and rows of the declared types are told apart by what is hashed.** -/
theorem same_proof [LinearOrder (SqlValue R)] (sha : ByteArray → String) (t : Table) (d : ℤ) (st st' : Storage R) :
    ((st.day t d).Perm (st'.day t d) → fr.exportDay sha st t d = fr.sourceDayProof sha st' t d) ∧
      ((∀ r ∈ st.day t d, (schema t).Typed r.cells) → (∀ r ∈ st'.day t d, (schema t).Typed r.cells) →
        (fr.exportSink st t d).hashed = (fr.proofSink st' t d).hashed → (st.day t d).Perm (st'.day t d)) := by
  obtain ⟨hrows, hhashed⟩ := exportSink_eq fr st t d
  obtain ⟨hrows', hhashed'⟩ := proofSink_eq fr st' t d
  constructor
  · intro h
    rw [FloatRepr.exportDay, FloatRepr.sourceDayProof, hrows, hrows', hhashed, hhashed', h.length_eq, select_congr h]
  · intro htyped htyped' h
    rw [hhashed, hhashed'] at h
    have hselect : ∀ (s : Storage R), (∀ r ∈ s.day t d, (schema t).Typed r.cells) →
        ∀ row ∈ s.select t d, (schema t).Typed row := by
      intro s hs row hrow
      obtain ⟨r, hr, rfl⟩ := List.mem_map.1 ((select_perm s t d).mem_iff.1 hrow)
      exact hs r hr
    exact day_perm_of_select (stream_injective fr (hselect st htyped) (hselect st' htyped') (encode_injective h))

section Sqlite

/-- How SQLite compares values of one column, a number and a text apart. -/
abbrev sqliteOrder [LinearOrder R] : LinearOrder (SqlValue R) :=
  LinearOrder.lift' (fun v => OrderBy.nullFirst v.key)
    (OrderBy.nullFirst_injective.comp Migration.SqlValue.key_injective)

attribute [local instance] sqliteOrder

/-- Floats that are whole, below those that `repr` writes with an exponent. -/
def wholes : FloatRepr ℤ where
  repr x := x.repr ++ ".0"
  injective := fun x y h => Int.repr_injective (String.append_left_inj _ |>.1 h)
  ne_empty := fun x h => by
    have := congrArg String.length h
    simp at this

def trade (ts : ℤ) (seq : SqlValue ℤ) : Stored ℤ :=
  ⟨ts, [.text "UPBIT", .text "KRW-BTC", .real 5, .real 1, .int 1, .int ts, .null, seq]⟩

/-- Two trades of the first day. -/
def tape (streams : Bool) (swapped : Bool) : Storage ℤ where
  table
    | .trades => if swapped then [trade 2 .null, trade 1 (.int 7)] else [trade 1 (.int 7), trade 2 .null]
    | .bookTop => []
  streams := streams
  asDict := true
  width := by
    intro t
    cases t <;> cases swapped <;> decide

theorem same_proof_tape : wholes.exportDay (fun b => toString b.size) (tape true false) .trades 0 =
    wholes.sourceDayProof (fun b => toString b.size) (tape false true) .trades 0 ∧
      ((tape true false).day .trades 0).Perm ((tape false true).day .trades 0) := by
  have hperm : ((tape true false).day .trades 0).Perm ((tape false true).day .trades 0) := List.Perm.swap _ _ _
  have hfits : ∀ ts, ∀ seq ∈ [SqlValue.null, SqlValue.int 7], (schema .trades).Typed (trade ts seq).cells := by
    intro ts seq hseq
    have hlast : (Migration.col "seq" .integer).orNull.fits seq = true := by
      simp only [List.mem_cons, List.not_mem_nil, or_false] at hseq
      rcases hseq with rfl | rfl <;> rfl
    exact .cons rfl (.cons rfl (.cons rfl
      (.cons rfl (.cons rfl (.cons rfl (.cons rfl (.cons rfl (.cons hlast .nil))))))))
  have htyped : ∀ streams swapped, ∀ r ∈ (tape streams swapped).day .trades 0, (schema .trades).Typed r.cells := by
    intro streams swapped r hr
    have hmem : r = trade 1 (.int 7) ∨ r = trade 2 .null := by
      cases swapped <;> simpa [tape, or_comm] using (List.mem_filter.1 hr).1
    rcases hmem with rfl | rfl
    · exact hfits 1 _ (by simp)
    · exact hfits 2 _ (by simp)
  have hhashed : (wholes.exportSink (tape true false) .trades 0).hashed =
      (wholes.proofSink (tape false true) .trades 0).hashed := by
    rw [(exportSink_eq _ _ _ _).2, (proofSink_eq _ _ _ _).2, select_congr hperm]
  obtain ⟨hsame, htold⟩ := same_proof wholes (fun b => toString b.size) .trades 0 (tape true false) (tape false true)
  exact ⟨hsame hperm, htold (htyped true false) (htyped false true) hhashed⟩

/-- A book row with this bid. -/
def quote (bid : SqlValue ℤ) : Storage ℤ where
  table
    | .trades => []
    | .bookTop => [⟨0, [.text "UPBIT", .text "KRW-BTC", bid, .null, .null, .null, .null]⟩]
  streams := true
  asDict := true
  width := by
    intro t
    cases t <;> simp [ARCHIVE_TABLES, Stored.cells]

/-- A missing bid and an empty text are hashed alike. -/
theorem null_and_empty_alike : ¬ ∀ st st' : Storage ℤ,
    (wholes.exportSink st .bookTop 0).hashed = (wholes.proofSink st' .bookTop 0).hashed →
      (st.day .bookTop 0).Perm (st'.day .bookTop 0) := by
  intro h
  have hhashed : (wholes.exportSink (quote .null) .bookTop 0).hashed =
      (wholes.proofSink (quote (.text "")) .bookTop 0).hashed := by
    rw [(exportSink_eq _ _ _ _).2, (proofSink_eq _ _ _ _).2]
    rfl
  have hperm := h (quote .null) (quote (.text "")) hhashed
  exact absurd (List.perm_singleton.1 hperm.symm) (by decide)

end Sqlite

/-! ## The digest of the day's rows -/

section Digest

variable [LinearOrder (SqlValue R)]

/-- The digest of a bag of rows, whose other columns are in `rest`. -/
def FloatRepr.digest (fr : FloatRepr R) (sha : ByteArray → String) (rest : String → SqlRow R) (t : Table)
    (rows : Multiset Row) : String :=
  sha (encode (fr.stream t ((rows.map fun x => Stored.cells ⟨x.ts, rest x.rest⟩).sort (· ≤ ·))))

/-- **The check computes the proof that the pruning compares.** -/
theorem sourceDayProof_eq_dayProof (sha : ByteArray → String) (rest : String → SqlRow R) (env : Env)
    (henv : env.digest = fr.digest sha rest)
    (s : Store) (st : Storage R) (hst : ∀ t, st.table t = (s t).map fun x => ⟨x.ts, rest x.rest⟩) (t : Table) (d : ℤ) :
    fr.sourceDayProof sha st t d = env.dayProof s t d := by
  obtain ⟨hrows, hhashed⟩ := proofSink_eq fr st t d
  have hday : st.day t d = ((s t).filter fun x => decide (dayStartUs d ≤ x.ts ∧ x.ts < dayStartUs d + dayUs)).map
      fun x => ⟨x.ts, rest x.rest⟩ := by
    rw [Storage.day, hst, List.filter_map]
    rfl
  have hsort : ∀ rows : List (SqlRow R), (rows : Multiset (SqlRow R)).sort (· ≤ ·) = rows.insertionSort (· ≤ ·) := by
    intro rows
    have hperm : ((rows : Multiset (SqlRow R)).sort (· ≤ ·)).Perm (rows.insertionSort (· ≤ ·)) :=
      (Multiset.coe_eq_coe.1 (Multiset.sort_eq _ _)).trans (List.perm_insertionSort _ _).symm
    have hsorted := Multiset.pairwise_sort (rows : Multiset (SqlRow R)) (· ≤ ·)
    exact OrderBy.sorted_unique (f := id) hperm hsorted (OrderBy.pairwise_insertionSort_key id _) fun _ _ _ _ he => he
  rw [FloatRepr.sourceDayProof, hrows, hhashed, Env.dayProof, henv, FloatRepr.digest, Multiset.map_coe, hsort,
    Storage.select, hday,
    List.length_map, List.map_map]
  rfl

end Digest

end Retention.Canonical
