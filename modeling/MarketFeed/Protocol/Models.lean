import MarketFeed.Lib.Utf8
import MarketFeed.Protocol.Struct
import MarketFeed.Protocol.Cpp
import MarketFeed.Writer.Messages
/-!
# The payloads (src/mdfeed/models.py:93-240, cpp/include/mdfp/protocol.hpp:209-276)

| here | there |
|---|---|
| `fix`, `unfix` | `_fix`, `_unfix` (`models.py:93-116`) |
| `Trade.pack`, `Trade.unpack`, and those of `BookTop` and `Signal` | `pack`, `unpack` (`models.py:119-240`) |
| `Cpp.fix`, `Cpp.unfix` | `fix`, `unfix` (`protocol.hpp:210-226`) |
| `Cpp.Trade`, `Cpp.BookTop` | `Trade`, `BookTop` (`protocol.hpp:228-276`) |

A `float` is its 64 bits. The C++ texts are bytes, the Python ones characters. C++ has no `Signal`, and packs no
`BookTop`. What `_fix` notes of the texts it cuts (`_TRUNCATED`, `_TRUNC_MAP`) is beside it: see `fixNoting`.

Both languages cut a text in the same place (`Cpp.fix_eq`). What comes back is `shown`: a text is cut between
characters, and NULs at its end are taken for padding.
-/

namespace Mdfp

open Gateway (Bytes putBe putBe_length)
open Struct (Code Value calcsize)

abbrev Trade := Writer.Trade UInt64

abbrev BookTop := Writer.BookTop UInt64

abbrev Signal := Writer.Signal UInt64

def fix (s : String) (n : ℕ) : Bytes :=
  let b := Utf8.encode s.toList
  let b := if n < b.length then Utf8.backOff (b.take n) else b
  b ++ List.replicate (n - b.length) 0

def unfix (b : Bytes) : String := String.ofList (Utf8.decode (b.rdropWhile (· == 0)))

/-- `"!16s8sQQddB7x"`. -/
def Trade.FMT : List Code := [.s 16, .s 8, .Q, .Q, .d, .d, .B, .x 7]

def Trade.SIZE : ℕ := calcsize Trade.FMT

def Trade.pack (t : Trade) : Option Bytes :=
  Struct.pack Trade.FMT
    [.bytes (fix t.symbol 16), .bytes (fix t.venue 8), .u64 t.tsEventNs, .u64 t.tsRecvNs, .f64 t.price,
      .f64 t.qty, .u8 t.side]

def Trade.unpack (buf : Bytes) : Option Trade :=
  match Struct.unpack Trade.FMT (buf.take Trade.SIZE) with
  | some [.bytes sym, .bytes ven, .u64 te, .u64 tr, .f64 px, .f64 qty, .u8 side] =>
    some ⟨unfix ven, unfix sym, te, tr, px, qty, side⟩
  | _ => none

/-- `"!16s8sQQdddd"`. -/
def BookTop.FMT : List Code := [.s 16, .s 8, .Q, .Q, .d, .d, .d, .d]

def BookTop.SIZE : ℕ := calcsize BookTop.FMT

def BookTop.pack (k : BookTop) : Option Bytes :=
  Struct.pack BookTop.FMT
    [.bytes (fix k.symbol 16), .bytes (fix k.venue 8), .u64 k.tsEventNs, .u64 k.tsRecvNs, .f64 k.bid, .f64 k.bidQty,
      .f64 k.ask, .f64 k.askQty]

def BookTop.unpack (buf : Bytes) : Option BookTop :=
  match Struct.unpack BookTop.FMT (buf.take BookTop.SIZE) with
  | some [.bytes sym, .bytes ven, .u64 te, .u64 tr, .f64 b, .f64 bq, .f64 a, .f64 aq] =>
    some ⟨unfix ven, unfix sym, te, tr, b, bq, a, aq⟩
  | _ => none

/-- `"!16s8s16sQbdd7x"`. -/
def Signal.FMT : List Code := [.s 16, .s 8, .s 16, .Q, .b, .d, .d, .x 7]

def Signal.SIZE : ℕ := calcsize Signal.FMT

def Signal.pack (s : Signal) : Option Bytes :=
  Struct.pack Signal.FMT
    [.bytes (fix s.symbol 16), .bytes (fix s.venue 8), .bytes (fix s.strategy 16), .u64 s.tsNs, .i8 s.action,
      .f64 s.strength, .f64 s.refPrice]

def Signal.unpack (buf : Bytes) : Option Signal :=
  match Struct.unpack Signal.FMT (buf.take Signal.SIZE) with
  | some [.bytes sym, .bytes ven, .bytes strat, .u64 ts, .i8 act, .f64 stg, .f64 px] =>
    some ⟨unfix ven, unfix sym, ts, unfix strat, act, stg, px⟩
  | _ => none

namespace Cpp

/-- `memcpy(p + i, b, |b|)`. -/
def store (p : Bytes) (i : ℕ) (b : Bytes) : Bytes := p.take i ++ b ++ p.drop (i + b.length)

/-- `while (len && P(s[len - 1])) --len`. -/
def back (P : UInt8 → Bool) (s : Bytes) : ℕ → ℕ
  | 0 => 0
  | len + 1 => if P (s.getD len 0) then back P s len else len + 1

def unfix (p : Bytes) (n : ℕ) : Bytes := p.take (back (· == 0) p n)

/-- How many bytes of `s` are copied. -/
def fixLen (n : ℕ) (s : Bytes) : ℕ :=
  let len := if s.length < n then s.length else n
  if len < s.length then
    let len := back Utf8.isCont s len
    if 0 < len ∧ Utf8.isLead (s.getD (len - 1) 0) then len - 1 else len
  else len

def fix (dst : Bytes) (i n : ℕ) (s : Bytes) : Bytes := store (store dst i (List.replicate n 0)) i (s.take (fixLen n s))

def putBe64 (p : Bytes) (i : ℕ) (v : UInt64) : Bytes :=
  (List.range 8).foldl (fun p k => store p (i + k) [(v >>> UInt64.ofNat (56 - 8 * k)).toUInt8]) p

structure Trade where
  venue : Bytes
  symbol : Bytes
  tsEventNs : UInt64
  tsRecvNs : UInt64
  price : UInt64
  qty : UInt64
  side : UInt8
  deriving DecidableEq

def Trade.unpack (p : Bytes) (n : ℕ) : Except ProtocolError Trade :=
  if n < 64 then .error ⟨"Trade payload too short"⟩
  else .ok {
    symbol := unfix p 16
    venue := unfix (p.drop 16) 8
    tsEventNs := getBe64 (p.drop 24)
    tsRecvNs := getBe64 (p.drop 32)
    price := getBe64 (p.drop 40)
    qty := getBe64 (p.drop 48)
    side := p.getD 56 0 }

def Trade.pack (t : Trade) (p : Bytes) : Bytes :=
  let p := fix p 0 16 t.symbol
  let p := fix p 16 8 t.venue
  let p := putBe64 p 24 t.tsEventNs
  let p := putBe64 p 32 t.tsRecvNs
  let p := putBe64 p 40 t.price
  let p := putBe64 p 48 t.qty
  let p := store p 56 [t.side]
  store p 57 (List.replicate 7 0)

structure BookTop where
  venue : Bytes
  symbol : Bytes
  tsEventNs : UInt64
  tsRecvNs : UInt64
  bid : UInt64
  bidQty : UInt64
  ask : UInt64
  askQty : UInt64
  deriving DecidableEq

def BookTop.unpack (p : Bytes) (n : ℕ) : Except ProtocolError BookTop :=
  if n < 72 then .error ⟨"BookTop payload too short"⟩
  else .ok {
    symbol := unfix p 16
    venue := unfix (p.drop 16) 8
    tsEventNs := getBe64 (p.drop 24)
    tsRecvNs := getBe64 (p.drop 32)
    bid := getBe64 (p.drop 40)
    bidQty := getBe64 (p.drop 48)
    ask := getBe64 (p.drop 56)
    askQty := getBe64 (p.drop 64) }

/-- The same record: a text is its UTF-8 bytes. -/
def Trade.of (t : Mdfp.Trade) : Trade :=
  ⟨Utf8.encode t.venue.toList, Utf8.encode t.symbol.toList, t.tsEventNs, t.tsRecvNs, t.price, t.qty, t.side⟩

def BookTop.of (k : Mdfp.BookTop) : BookTop :=
  ⟨Utf8.encode k.venue.toList, Utf8.encode k.symbol.toList, k.tsEventNs, k.tsRecvNs, k.bid, k.bidQty, k.ask, k.askQty⟩

end Cpp

/-! ## Texts -/

/-- The characters of a text that a field of `n` bytes takes. -/
def cut (n : ℕ) (l : List Char) : List Char := if n < (Utf8.encode l).length then Utf8.keep n l else l

/-- A text as it comes back from a field of `n` bytes. -/
def shown (n : ℕ) (s : String) : String := String.ofList ((cut n s.toList).rdropWhile (· == '\x00'))

theorem encode_cut (n : ℕ) (l : List Char) :
    Utf8.encode (cut n l) = if n < (Utf8.encode l).length then Utf8.backOff ((Utf8.encode l).take n)
      else Utf8.encode l := by
  rw [cut]
  split
  · rw [Utf8.backOff_take ‹_›]
  · rfl

theorem cut_length (n : ℕ) (l : List Char) : (Utf8.encode (cut n l)).length ≤ n := by
  rw [encode_cut]
  split
  · exact Nat.le_trans (Utf8.backOff_prefix _).length_le (List.length_take_le _ _)
  · omega

theorem fix_eq (s : String) (n : ℕ) :
    fix s n = Utf8.encode (cut n s.toList) ++ List.replicate (n - (Utf8.encode (cut n s.toList)).length) 0 := by
  rw [encode_cut]
  rfl

theorem fix_length (s : String) (n : ℕ) : (fix s n).length = n := by
  have := cut_length n s.toList
  rw [fix_eq, List.length_append, List.length_replicate]
  omega

theorem rdropWhile_fix (s : String) (n : ℕ) : (fix s n).rdropWhile (· == 0) = Utf8.encode (shown n s).toList := by
  have hpad (m : ℕ) (b : Bytes) : (b ++ List.replicate m 0).rdropWhile (· == 0) = b.rdropWhile (· == 0) := by
    induction m with
    | zero => rw [List.replicate_zero, List.append_nil]
    | succ m ih => rw [List.replicate_succ', ← List.append_assoc, List.rdropWhile_concat_pos _ _ _ rfl, ih]
  rw [fix_eq, hpad, Utf8.rdropWhile_zero_encode, shown, String.toList_ofList]

theorem unfix_fix (s : String) (n : ℕ) : unfix (fix s n) = shown n s := by
  rw [unfix, rdropWhile_fix, Utf8.decode_encode, String.ofList_toList]

/-- A text comes back where it fits and does not end in a NUL, and only there. -/
theorem shown_eq_iff (n : ℕ) (s : String) : shown n s = s ↔ (Utf8.encode s.toList).length ≤ n ∧
    s.toList.getLast? ≠ some '\x00' := by
  have hcut : cut n s.toList <+: s.toList := by
    rw [cut]
    split
    · exact Utf8.keep_prefix n s.toList
    · exact List.prefix_rfl
  have hlast (l : List Char) : l.rdropWhile (· == '\x00') = l ↔ l.getLast? ≠ some '\x00' := by
    rw [List.rdropWhile_eq_self_iff]
    cases l using List.reverseRecOn <;> simp
  rw [shown, ← String.toList_inj, String.toList_ofList, ← hlast]
  constructor
  · intro h
    have hle : s.toList.length ≤ (cut n s.toList).length := by
      rw [← congrArg List.length h]
      exact (List.rdropWhile_prefix _ _).length_le
    have hall := hcut.eq_of_length_le hle
    refine ⟨?_, by rwa [hall] at h⟩
    rw [← hall]
    exact cut_length n s.toList
  · rintro ⟨hlen, h⟩
    rw [cut, if_neg (Nat.not_lt.2 hlen), h]

/-! ## The C++ side -/

namespace Cpp

theorem store_at {a : Bytes} {i : ℕ} (h : a.length = i) (c b : Bytes) :
    store (a ++ c) i b = a ++ b ++ c.drop b.length := by
  subst h
  rw [store, List.take_left, ← List.drop_drop, List.drop_left]

theorem take_back (P : UInt8 → Bool) {s : Bytes} {n : ℕ} (h : n ≤ s.length) :
    s.take (back P s n) = (s.take n).rdropWhile P := by
  induction n with
  | zero => rfl
  | succ n ih =>
    have htake : s.take (n + 1) = s.take n ++ [s.getD n 0] := by
      rw [List.take_succ_eq_append_getElem h, List.getD_eq_getElem?_getD, List.getElem?_eq_getElem h, Option.getD_some]
    rw [back, htake]
    split
    case isTrue hP => rw [List.rdropWhile_concat_pos _ _ _ hP, ih (by omega)]
    case isFalse hP => rw [List.rdropWhile_concat_neg _ _ _ hP, htake]

theorem back_le (P : UInt8 → Bool) (s : Bytes) (n : ℕ) : back P s n ≤ n := by
  induction n with
  | zero => exact Nat.le_refl 0
  | succ n ih =>
    rw [back]
    split
    · omega
    · omega

/-- What is copied is what the other language leaves. -/
theorem take_fixLen (n : ℕ) (s : Bytes) : s.take (fixLen n s) = if n < s.length then Utf8.backOff (s.take n)
    else s := by
  by_cases h : n < s.length
  · have hlen : (if s.length < n then s.length else n) = n := if_neg (by omega)
    have hback := take_back Utf8.isCont (Nat.le_of_lt h)
    have hle := back_le Utf8.isCont s n
    rw [fixLen]
    dsimp only
    rw [hlen, if_pos h, if_pos h, Utf8.backOff, ← hback]
    generalize back Utf8.isCont s n = len at hle
    cases len with
    | zero => simp
    | succ m =>
      have hm : m < s.length := by omega
      have htake : s.take (m + 1) = s.take m ++ [s.getD m 0] := by
        rw [List.take_succ_eq_append_getElem hm, List.getD_eq_getElem?_getD, List.getElem?_eq_getElem hm,
          Option.getD_some]
      rw [htake, List.getLast?_concat, List.dropLast_concat, Option.any_some, Nat.add_sub_cancel]
      simp only [Nat.zero_lt_succ, true_and]
      split
      · rfl
      · exact htake
  · have hlen : (if s.length < n then s.length else n) = s.length := by
      split
      · rfl
      · omega
    rw [fixLen, hlen, if_neg (Nat.lt_irrefl _), if_neg h, List.take_length]

/-- **The two languages write the same field.** -/
theorem fix_eq {a : Bytes} {i : ℕ} (h : a.length = i) (c : Bytes) (n : ℕ) (s : String) :
    fix (a ++ c) i n (Utf8.encode s.toList) = a ++ Mdfp.fix s n ++ c.drop n := by
  have hfix := Mdfp.fix_eq s n
  have hlen := cut_length n s.toList
  rw [encode_cut] at hfix hlen
  have hset : a ++ List.replicate n 0 ++ c.drop (List.replicate n (0 : UInt8)).length = a ++
      (List.replicate n 0 ++ c.drop n) := by
    rw [List.length_replicate, List.append_assoc]
  rw [fix, take_fixLen, store_at h, hset, store_at h, hfix]
  generalize (if n < _ then _ else _) = b at hlen
  rw [List.drop_append_of_le_length (by rwa [List.length_replicate]), List.drop_replicate]
  simp only [List.append_assoc]

/-- A field of the other language, read. -/
theorem unfix_eq {p : Bytes} {n : ℕ} (h : n ≤ p.length) {s : String} (hs : p.take n = Mdfp.fix s n) :
    unfix p n = Utf8.encode (shown n s).toList := by
  rw [unfix, take_back _ h, hs, rdropWhile_fix]

theorem foldl_store {a c : Bytes} {i : ℕ} (h : a.length = i) (f : ℕ → UInt8) {n : ℕ} (hn : n ≤ c.length) :
    (List.range n).foldl (fun p k => store p (i + k) [f k]) (a ++ c) = a ++ (List.range n).map f ++ c.drop n := by
  induction n with
  | zero => simp
  | succ n ih =>
    rw [List.range_succ, List.foldl_append, ih (by omega), List.foldl_cons, List.foldl_nil, store_at (by simp [h]),
      List.map_append, List.drop_drop]
    simp

theorem shifted (v : UInt64) (k : ℕ) (hk : k < 64) :
    (v >>> UInt64.ofNat k).toUInt8 = UInt8.ofNat (v.toNat / 2 ^ k) := by
  apply UInt8.toNat_inj.1
  rw [UInt64.toNat_toUInt8, UInt64.toNat_shiftRight, UInt64.toNat_ofNat', UInt8.toNat_ofNat', Nat.shiftRight_eq_div_pow,
    Nat.mod_eq_of_lt (by omega : k < 2 ^ 64), Nat.mod_eq_of_lt hk]

theorem putBe64_eq {a c : Bytes} {i : ℕ} (h : a.length = i) (hc : 8 ≤ c.length) (v : UInt64) :
    putBe64 (a ++ c) i v = a ++ putBe 8 v.toNat ++ c.drop 8 := by
  have hmap : (List.range 8).map (fun k => (v >>> UInt64.ofNat (56 - 8 * k)).toUInt8) = putBe 8 v.toNat := by
    rw [List.map_congr_left fun k _ => shifted v (56 - 8 * k) (by omega)]
    simp [List.range_succ, putBe, Nat.div_div_eq_div_mul]
  rw [putBe64, foldl_store h _ hc, hmap]

/-- **The bytes of a trade.** -/
theorem Trade.pack_eq (t : Mdfp.Trade) {p : Bytes} (hp : 64 ≤ p.length) :
    (Trade.of t).pack p = Mdfp.fix t.symbol 16 ++ Mdfp.fix t.venue 8 ++ putBe 8 t.tsEventNs.toNat ++
      putBe 8 t.tsRecvNs.toNat ++
      putBe 8 t.price.toNat ++ putBe 8 t.qty.toNat ++ [t.side] ++ List.replicate 7 0 ++ p.drop 64 := by
  have hsym : Cpp.fix p 0 16 (Utf8.encode t.symbol.toList) = Mdfp.fix t.symbol 16 ++ p.drop 16 :=
    fix_eq (@rfl _ ([] : Bytes).length) p 16 t.symbol
  simp only [Trade.pack, Trade.of]
  rw [hsym, fix_eq (fix_length _ _), List.drop_drop]
  repeat rw [putBe64_eq (by simp [fix_length, putBe_length]) (by rw [List.length_drop]; omega), List.drop_drop]
  rw [store_at (by simp [fix_length, putBe_length]), store_at (by simp [fix_length, putBe_length]), List.drop_drop,
    List.drop_drop]
  rfl

end Cpp

/-! ## One record, two languages -/

/-- The texts as they come back. -/
def Trade.shown (t : Trade) : Trade := { t with venue := Mdfp.shown 8 t.venue, symbol := Mdfp.shown 16 t.symbol }

def BookTop.shown (k : BookTop) : BookTop := { k with venue := Mdfp.shown 8 k.venue, symbol := Mdfp.shown 16 k.symbol }

def Signal.shown (s : Signal) : Signal :=
  { s with venue := Mdfp.shown 8 s.venue, symbol := Mdfp.shown 16 s.symbol, strategy := Mdfp.shown 16 s.strategy }

theorem take_fix (s : String) (n : ℕ) : (fix s n).take n = fix s n :=
  List.take_of_length_le (Nat.le_of_eq (fix_length s n))

theorem Trade.pack_eq (t : Trade) :
    t.pack = some (fix t.symbol 16 ++ fix t.venue 8 ++ putBe 8 t.tsEventNs.toNat ++ putBe 8 t.tsRecvNs.toNat ++
      putBe 8 t.price.toNat ++ putBe 8 t.qty.toNat ++ [t.side] ++ List.replicate 7 0) := by
  simp [Trade.pack, Trade.FMT, Struct.pack, fix_length, take_fix]

theorem BookTop.pack_eq (k : BookTop) :
    k.pack = some (fix k.symbol 16 ++ fix k.venue 8 ++ putBe 8 k.tsEventNs.toNat ++ putBe 8 k.tsRecvNs.toNat ++
      putBe 8 k.bid.toNat ++ putBe 8 k.bidQty.toNat ++ putBe 8 k.ask.toNat ++ putBe 8 k.askQty.toNat) := by
  simp [BookTop.pack, BookTop.FMT, Struct.pack, fix_length, take_fix]

theorem Signal.pack_eq (s : Signal) :
    s.pack = some (fix s.symbol 16 ++ fix s.venue 8 ++ fix s.strategy 16 ++ putBe 8 s.tsNs.toNat ++
      [s.action.toUInt8] ++
      putBe 8 s.strength.toNat ++ putBe 8 s.refPrice.toNat ++ List.replicate 7 0) := by
  simp [Signal.pack, Signal.FMT, Struct.pack, fix_length, take_fix]

theorem Trade.unpack_pack {t : Trade} {b : Bytes} (h : t.pack = some b) : unpack b = some t.shown := by
  have hfits : Struct.Fits FMT [.bytes (fix t.symbol 16), .bytes (fix t.venue 8), .u64 t.tsEventNs, .u64 t.tsRecvNs,
      .f64 t.price, .f64 t.qty, .u8 t.side] :=
    ⟨fix_length _ _, fix_length _ _, trivial⟩
  rw [unpack, SIZE, Struct.unpack_pack h hfits]
  simp [unfix_fix, shown]

theorem BookTop.unpack_pack {k : BookTop} {b : Bytes} (h : k.pack = some b) : unpack b = some k.shown := by
  have hfits : Struct.Fits FMT [.bytes (fix k.symbol 16), .bytes (fix k.venue 8), .u64 k.tsEventNs, .u64 k.tsRecvNs,
      .f64 k.bid, .f64 k.bidQty, .f64 k.ask,
    .f64 k.askQty] := ⟨fix_length _ _, fix_length _ _, trivial⟩
  rw [unpack, SIZE, Struct.unpack_pack h hfits]
  simp [unfix_fix, shown]

theorem Signal.unpack_pack {s : Signal} {b : Bytes} (h : s.pack = some b) : unpack b = some s.shown := by
  have hfits : Struct.Fits FMT [.bytes (fix s.symbol 16), .bytes (fix s.venue 8), .bytes (fix s.strategy 16),
      .u64 s.tsNs, .i8 s.action, .f64 s.strength,
    .f64 s.refPrice] := ⟨fix_length _ _, fix_length _ _, fix_length _ _, trivial⟩
  rw [unpack, SIZE, Struct.unpack_pack h hfits]
  simp [unfix_fix, shown]

theorem Cpp.Trade.unpack_packed {t : Mdfp.Trade} {b : Bytes} (h : t.pack = some b) :
    Trade.unpack b b.length = .ok (.of t.shown) := by
  obtain ⟨hread, hlen⟩ := Struct.read_pack h ⟨fix_length _ _, fix_length _ _, trivial⟩
  replace hlen : b.length = 64 := hlen
  simp only [Mdfp.Trade.FMT, Struct.read, List.drop_drop, Nat.reduceAdd, List.cons.injEq, Value.bytes.injEq,
    Value.u64.injEq, Value.f64.injEq,
    Value.u8.injEq, ← getBe64_eq] at hread
  obtain ⟨hsym, hven, hte, htr, hpx, hqty, hside, -⟩ := hread
  have hside' : b.getD 56 0 = t.side := by simpa using hside
  rw [unpack, if_neg (by omega), unfix_eq (by omega) hsym, unfix_eq (by rw [List.length_drop]; omega) hven, hte, htr,
    hpx, hqty, hside']
  simp only [of, Mdfp.Trade.shown]

theorem Cpp.BookTop.unpack_packed {k : Mdfp.BookTop} {b : Bytes} (h : k.pack = some b) :
    BookTop.unpack b b.length = .ok (.of k.shown) := by
  obtain ⟨hread, hlen⟩ := Struct.read_pack h ⟨fix_length _ _, fix_length _ _, trivial⟩
  replace hlen : b.length = 72 := hlen
  simp only [Mdfp.BookTop.FMT, Struct.read, List.drop_drop, Nat.reduceAdd, List.cons.injEq, Value.bytes.injEq,
    Value.u64.injEq, Value.f64.injEq,
    ← getBe64_eq] at hread
  obtain ⟨hsym, hven, hte, htr, hbid, hbq, hask, haq, -⟩ := hread
  rw [unpack, if_neg (by omega), unfix_eq (by omega) hsym, unfix_eq (by rw [List.length_drop]; omega) hven, hte, htr,
    hbid, hbq, hask, haq]
  simp only [of, Mdfp.BookTop.shown]

/-- **The two languages agree.** They write the same bytes and read the same record, in which each text is cut to
its field between characters and has no NUL at its end. -/
theorem codecs_agree (t : Trade) (k : BookTop) (s : Signal) (p : Bytes) (hp : Trade.SIZE ≤ p.length) :
    (∃ b, t.pack = some b ∧ (Cpp.Trade.of t).pack p = b ++ p.drop Trade.SIZE ∧ Trade.unpack b = some t.shown ∧
      Cpp.Trade.unpack b b.length = .ok (.of t.shown)) ∧
    (∃ b, k.pack = some b ∧ BookTop.unpack b = some k.shown ∧ Cpp.BookTop.unpack b b.length = .ok (.of k.shown)) ∧
    ∃ b, s.pack = some b ∧ Signal.unpack b = some s.shown :=
  ⟨⟨_, t.pack_eq, Cpp.Trade.pack_eq t hp, Trade.unpack_pack t.pack_eq, Cpp.Trade.unpack_packed t.pack_eq⟩,
    ⟨_, k.pack_eq, BookTop.unpack_pack k.pack_eq, Cpp.BookTop.unpack_packed k.pack_eq⟩,
    ⟨_, s.pack_eq, Signal.unpack_pack s.pack_eq⟩⟩

/-- A trade, an order book and a signal of texts that fit, into a cleared buffer. -/
theorem codecs_agree_in_a_buffer :
    ∃ b, Trade.pack ⟨"KIS", "005930", 1, 2, 3, 4, 1⟩ = some b ∧
      Cpp.Trade.pack (.of ⟨"KIS", "005930", 1, 2, 3, 4, 1⟩) (List.replicate 64 0) = b ++ [] ∧
      Cpp.Trade.unpack b b.length = .ok (.of (Trade.shown ⟨"KIS", "005930", 1, 2, 3, 4, 1⟩)) := by
  obtain ⟨⟨b, hb, hcpp, -, hread⟩, -⟩ :=
    codecs_agree ⟨"KIS", "005930", 1, 2, 3, 4, 1⟩ ⟨"KIS", "005930", 1, 2, 3, 4, 5, 6⟩ ⟨"KIS", "005930", 1, "ma", 1, 3,
      4⟩ (List.replicate 64 0) (by decide)
  exact ⟨b, hb, hcpp, hread⟩

/-- A NUL at the end of a text is read as padding: the text fits its field and does not come back. -/
theorem trailing_nul_lost :
    ∃ t : Trade, (Utf8.encode t.symbol.toList).length ≤ 16 ∧ (Utf8.encode t.venue.toList).length ≤ 8 ∧
      (∃ b, t.pack = some b ∧ Trade.unpack b ≠ some t ∧ Cpp.Trade.unpack b b.length ≠ .ok (.of t)) := by
  refine ⟨⟨"KIS", "A\x00", 1, 2, 3, 4, 1⟩, by decide +kernel, by decide +kernel, _, Trade.pack_eq _, ?_, ?_⟩
  · rw [Trade.unpack_pack (Trade.pack_eq _)]
    decide +kernel
  · rw [Cpp.Trade.unpack_packed (Trade.pack_eq _)]
    simp only [ne_eq, Except.ok.injEq]
    decide +kernel

end Mdfp
