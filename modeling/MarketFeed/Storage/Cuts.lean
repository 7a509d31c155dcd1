import Mathlib.Data.Int.Order.Basic
import MarketFeed.Lib.Greatest
import MarketFeed.Storage.RetrySafe
/-!
# The latest row and the cuts of the stream (storage/db.py:228-241, :380-391)

A batch first takes the newest trade of each symbol and then merges it with the stored row. `_latest_rows` keeps
the earlier of two trades with one timestamp (`>`), the upsert takes the later one (`>=`), although its comment
says that only a newer one overwrites. So of the newest trades of a symbol the first in the last batch that has
one is stored, and it depends on the cuts which one that is (`latest_cut_iff`).

`Writes` is a run of `write_batch` calls that report success; every batch has an id of its own (`uuid4`). The
statement of PostgreSQL is the same.
-/

namespace Storage

open Txn Keyed Greatest

variable {F : Type} [Max F] [Min F] [Add F]

/-! ## Calls one after another -/

inductive Writes : Tables F → List (StorageBatch F) → Tables F → Prop
  | nil (t : Tables F) : Writes t [] t
  | cons {t t' t'' : Tables F} {b : StorageBatch F} {bs : List (StorageBatch F)} {a : Attempt}
      {receipt : BatchWriteReceipt} :
    Fresh t b → writeBatch (idle t) b a = (idle t', .ok receipt) → Writes t' bs t'' → Writes t (b :: bs) t''

/-- A call that reports success has stored the batch. -/
theorem written_store {t t' : Tables F} {b : StorageBatch F} {a : Attempt} {receipt : BatchWriteReceipt}
    (hfresh : Fresh t b)
    (h : writeBatch (idle t) b a = (idle t', .ok receipt)) : t' = t.store b a.committedAt := by
  have hwrite := writeBatch_write hfresh (congrArg Prod.snd h)
  rw [h, write_fresh hfresh] at hwrite
  exact congrArg Conn.committed hwrite

/-- A call without a fault, whose integers fit, reports success. -/
theorem Writes.store {t t' : Tables F} {b : StorageBatch F} {bs : List (StorageBatch F)} (hfresh : Fresh t b)
    (committedAt : String)
    (hfits : Attempt.failure ⟨committedAt, none, none⟩ b = none) (h : Writes (t.store b committedAt) bs t') :
    Writes t (b :: bs) t' := by
  have hleaves := writeBatch_leaves hfresh ⟨committedAt, none, none⟩
  rw [hfits] at hleaves
  obtain ⟨hstore, receipt, hok⟩ := hleaves
  exact .cons hfresh (Prod.ext hstore hok) h

theorem Writes.latest {t t' : Tables F} {bs : List (StorageBatch F)} (h : Writes t bs t') :
    t'.latest = bs.foldl (fun l b => (latestRows b.trades).foldl (upsert LatestRow.key LatestRow.merge) l)
      t.latest := by
  induction h with
  | nil t => rfl
  | cons hfresh hw _ ih =>
    rw [ih, written_store hfresh hw]
    rfl

theorem Writes.bars {t t' : Tables F} {bs : List (StorageBatch F)} (h : Writes t bs t') :
    t'.bars = (bs.flatMap (·.bars)).foldl (upsert BarRow.key BarRow.merge) t.bars := by
  induction h with
  | nil t => rfl
  | cons hfresh hw _ ih =>
    rw [ih, written_store hfresh hw, List.flatMap_cons, List.foldl_append]
    rfl

/-! ## One symbol -/

def tradesOf (k : String × String) (trades : List (TradeRow F)) : List (TradeRow F) :=
  trades.filter fun r => decide (r.key = k)

omit [Max F] [Min F] [Add F] in
theorem newer_key (o r : TradeRow F) (h : o.key = r.key) : (o.newer r).key = r.key := by
  unfold TradeRow.newer
  split
  · rfl
  · exact h

omit [Max F] [Min F] [Add F] in
theorem merge_key (o r : LatestRow F) (h : o.key = r.key) : (o.merge r).key = r.key := by
  unfold LatestRow.merge
  split
  · rfl
  · exact h

omit [Max F] [Min F] [Add F] in
/-- One row of each symbol goes to the upsert: of its newest trades the first. -/
theorem latestRows_of (trades : List (TradeRow F)) (k : String × String) :
    ((latestRows trades).filter fun r => decide (r.key = k)) =
      (((tradesOf k trades).foldl (put (first TradeRow.ts)) none).map TradeRow.latest).toList := by
  have hfold := lookup_foldl_upsert newer_key trades [] k
  have hnodup := @nodup_foldl_upsert _ _ _ TradeRow.key TradeRow.newer newer_key trades [] List.nodup_nil
  have hkeys := filter_key_of_nodup hnodup k
  rw [lookup_nil] at hfold
  rw [hfold] at hkeys
  have hmap : ((latestRows trades).filter fun r => decide (r.key = k)) =
      ((trades.foldl (upsert TradeRow.key TradeRow.newer) []).filter fun r => decide (r.key = k)).map
        TradeRow.latest := by
    rw [latestRows, List.filter_map]
    rfl
  rw [hmap, hkeys, Option.toList_map]
  rfl

omit [Max F] [Min F] [Add F] in
/-- A batch merges the first of its newest trades of a symbol into the stored row. -/
theorem lookup_batch (trades : List (TradeRow F)) (l : List (LatestRow F)) (k : String × String) :
    lookup LatestRow.key k ((latestRows trades).foldl (upsert LatestRow.key LatestRow.merge) l) =
      Greatest.merge TradeRow.latest LatestRow.ts (lookup LatestRow.key k l) (tradesOf k trades) := by
  rw [lookup_foldl_upsert merge_key, latestRows_of, Greatest.merge]
  cases h : (tradesOf k trades).foldl (put (first TradeRow.ts)) none with
  | none =>
    have h' : (tradesOf k trades).foldl (put (first fun x => LatestRow.ts (TradeRow.latest x))) none = none := h
    rw [h']
    rfl
  | some r =>
    have h' : (tradesOf k trades).foldl (put (first fun x => LatestRow.ts (TradeRow.latest x))) none = some r := h
    rw [h']
    rfl

/-! ## One stream, cut into batches -/

/-- A run that stores the trades, from the tables `t`. -/
structure Cut (t : Tables F) (trades : List (TradeRow F)) where
  batches : List (StorageBatch F)
  after : Tables F
  writes : Writes t batches after
  whole : batches.flatMap (·.trades) = trades

variable {t : Tables F} {trades : List (TradeRow F)}

/-- The trades of one symbol, batch by batch. -/
def Cut.parts (c : Cut t trades) (k : String × String) : List (List (TradeRow F)) :=
  c.batches.map fun b => tradesOf k b.trades

theorem Cut.flatten_parts (c : Cut t trades) (k : String × String) : (c.parts k).flatten = tradesOf k trades := by
  have hwhole := congrArg (tradesOf k) c.whole
  rwa [tradesOf, List.filter_flatMap, List.flatMap_def] at hwhole

theorem Cut.lookup_latest (c : Cut t trades) (k : String × String) :
    lookup LatestRow.key k c.after.latest = (c.parts k).foldl (Greatest.merge TradeRow.latest LatestRow.ts)
      (lookup LatestRow.key k t.latest) := by
  rw [c.writes.latest, Cut.parts, List.foldl_map]
  generalize t.latest = l
  induction c.batches generalizing l with
  | nil => rfl
  | cons b bs ih => rw [List.foldl_cons, ih, lookup_batch, List.foldl_cons]

theorem Cut.lookup_stays (c : Cut t trades)
    {k : String × String} {r : TradeRow F} (h : Stays TradeRow.ts (c.parts k) r) :
    lookup LatestRow.key k c.after.latest = put (last LatestRow.ts) (lookup LatestRow.key k t.latest) r.latest := by
  have h' : Stays (fun x => LatestRow.ts (TradeRow.latest x)) (c.parts k) r := h
  rw [c.lookup_latest, foldl_merge_stays h']

theorem Cut.key_of_stays (c : Cut t trades)
    {k : String × String} {r : TradeRow F} (h : Stays TradeRow.ts (c.parts k) r) : r.key = k := by
  have hmem := h.mem
  rw [c.flatten_parts] at hmem
  exact of_decide_eq_true (List.mem_filter.1 hmem).2

/-- Without a trade of the symbol the row is as it was. -/
theorem Cut.stays_or (c : Cut t trades) (k : String × String) :
    (tradesOf k trades = [] ∧ lookup LatestRow.key k c.after.latest = lookup LatestRow.key k t.latest) ∨
      ∃ r, Stays TradeRow.ts (c.parts k) r := by
  rw [c.lookup_latest, ← c.flatten_parts k]
  rcases @foldl_merge _ _ _ _ TradeRow.latest LatestRow.ts (lookup LatestRow.key k t.latest) (c.parts k) with
    h | ⟨r, h, -⟩
  · exact .inl h
  · exact .inr ⟨r, h⟩

/-- The stored row is newer. -/
def Newer (t : Tables F) (r : TradeRow F) : Prop := ∃ o, lookup LatestRow.key r.key t.latest = some o ∧ r.ts < o.ts

/-- **Two ways to cut a stream store the same latest rows exactly when, for every symbol, the first of the newest trades
in the last batch that has one gives the same row**, or one newer than both was there before. -/
theorem latest_cut_iff (c₁ c₂ : Cut t trades) :
    (∀ k, lookup LatestRow.key k c₁.after.latest = lookup LatestRow.key k c₂.after.latest) ↔
      ∀ k r₁ r₂, Stays TradeRow.ts (c₁.parts k) r₁ → Stays TradeRow.ts (c₂.parts k) r₂ → Newer t r₁ ∨
      r₁.latest = r₂.latest := by
  have hflat (k : String × String) : (c₁.parts k).flatten = (c₂.parts k).flatten := by
    rw [c₁.flatten_parts, c₂.flatten_parts]
  refine forall_congr' fun k => ?_
  constructor
  · intro h r₁ r₂ h₁ h₂
    rw [c₁.lookup_stays h₁, c₂.lookup_stays h₂] at h
    rw [Newer, c₁.key_of_stays h₁]
    have hts : LatestRow.ts r₁.latest = LatestRow.ts r₂.latest := h₁.congr h₂ (hflat k)
    exact (put_last_eq_iff hts).1 h
  · intro h
    rcases c₁.stays_or k with ⟨hnil, h₁⟩ | ⟨r₁, h₁⟩ <;> rcases c₂.stays_or k with ⟨hnil', h₂⟩ | ⟨r₂, h₂⟩
    · rw [h₁, h₂]
    · have hmem := h₂.mem
      rw [c₂.flatten_parts, hnil] at hmem
      cases hmem
    · have hmem := h₁.mem
      rw [c₁.flatten_parts, hnil'] at hmem
      cases hmem
    · have hrow := h r₁ r₂ h₁ h₂
      rw [Newer, c₁.key_of_stays h₁] at hrow
      rw [c₁.lookup_stays h₁, c₂.lookup_stays h₂]
      have hts : LatestRow.ts r₁.latest = LatestRow.ts r₂.latest := h₁.congr h₂ (hflat k)
      exact (put_last_eq_iff hts).2 hrow

/-- A trade of one microsecond. -/
def tied (price : Int) : TradeRow Int :=
  ⟨1753000000000000, "UPBIT", "KRW-BTC", price, 1, 1, 1753000000000500, 500, price⟩

def tradesBatch (id : String) (trades : List (TradeRow Int)) : StorageBatch Int := ⟨id, "d", trades, [], [], []⟩

/-- In one batch the first of two trades of a microsecond is stored, in two batches the second. -/
theorem latest_of_tie : ∃ c₁ c₂ : Cut Tables.empty [tied 100, tied 101],
    c₁.batches = [tradesBatch "a" [tied 100, tied 101]] ∧
      c₂.batches = [tradesBatch "a" [tied 100], tradesBatch "b" [tied 101]] ∧
    (lookup LatestRow.key ("UPBIT", "KRW-BTC") c₁.after.latest).map LatestRow.price = some 100 ∧
    (lookup LatestRow.key ("UPBIT", "KRW-BTC") c₂.after.latest).map LatestRow.price = some 101 := by
  have hfresh (b : StorageBatch Int) : Fresh Tables.empty b := fun _ h => absurd h (by simp [Tables.empty])
  have hfresh' : Fresh (Tables.empty.store (tradesBatch "a" [tied 100]) "t") (tradesBatch "b" [tied 101]) := by
    unfold Fresh
    decide
  refine ⟨⟨_, _, .store (hfresh _) "t" ?_ (.nil _), rfl⟩,
    ⟨_, _, .store (hfresh _) "t" ?_ (.store hfresh' "u" ?_ (.nil _)), rfl⟩, rfl, rfl, rfl, rfl⟩
  all_goals decide

end Storage
