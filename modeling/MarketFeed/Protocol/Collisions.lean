import Mathlib.Data.Finset.Sort
import Mathlib.Data.String.Basic
import MarketFeed.Lib.Upsert
import MarketFeed.Protocol.Models
/-!
# Symbols cut alike (src/mdfeed/models.py:62-114)

`_fix` notes every text it cuts, and what it was cut to. Two texts that end up in the same 16 bytes are found there if
both were cut, and to the same. A text that fits is noted nowhere: it may be what another was cut to
(`collision_missed`). Nor is what a text was cut to padded, so that NULs at its end keep it apart from another.

| here | there |
| --- | --- |
| `Truncation` | `_TRUNCATED`, `_TRUNC_MAP` |
| `fixNoting` | `_fix`: the field, and what is noted |
| `noted` | what a sequence of symbols leaves, each packed into 16 bytes |
| `Truncation.symbolCollisions` | `symbol_collisions()` |
-/

namespace Mdfp

open Gateway (Bytes)
open Keyed

structure Truncation where
  truncated : List (String × ℕ)
  truncMap : List (Bytes × Finset String)

/-- `d[s] = d.get(s, 0) + 1`, merged into what is there. -/
def counted (o r : String × ℕ) : String × ℕ := (r.1, o.2 + r.2)

/-- `d.setdefault(b, set()).add(s)`. -/
def added (o r : Bytes × Finset String) : Bytes × Finset String := (r.1, o.2 ∪ r.2)

def ljust (b : Bytes) (n : ℕ) : Bytes := b ++ List.replicate (n - b.length) 0

def fixNoting (m : Truncation) (s : String) (n : ℕ) : Bytes × Truncation :=
  let b := Utf8.encode s.toList
  if n < b.length then
    let b := Utf8.backOff (b.take n)
    (ljust b n, {
      truncated := upsert Prod.fst counted m.truncated (s, 1)
      truncMap := upsert Prod.fst added m.truncMap (b, {s}) })
  else (ljust b n, m)

def noted (packed : List String) : Truncation := packed.foldl (fun m s => (fixNoting m s 16).2) ⟨[], []⟩

namespace Truncation

def truncatedSymbols (m : Truncation) : List (String × ℕ) := m.truncated

/-- What `symbol_collisions` puts into `out`. -/
def shared (m : Truncation) : List (String × List String) :=
  (m.truncMap.filter fun e => decide (1 < e.2.card)).map fun e => (unfix e.1, e.2.sort (· ≤ ·))

def symbolCollisions (m : Truncation) : List (String × List String) := dictOf Prod.fst m.shared

end Truncation

/-- The packed symbols with these bytes in the field. -/
def sharing (packed : List String) (wire : Bytes) : Finset String := (packed.filter fun s => fix s 16 = wire).toFinset

structure Exact (packed : List String) (report : List (String × List String)) : Prop where
  nonempty : report ≠ [] ↔ ∃ a ∈ packed, ∃ b ∈ packed, a ≠ b ∧ fix a 16 = fix b 16
  groups : ∀ e, e ∈ report ↔ ∃ wire, 1 < (sharing packed wire).card ∧
    e = (unfix wire, (sharing packed wire).sort (· ≤ ·))
  once : (report.map Prod.fst).Nodup

/-- Both were cut, and to the same characters. -/
def CutAlike (a b : String) : Prop :=
  16 < (Utf8.encode a.toList).length ∧ 16 < (Utf8.encode b.toList).length ∧ cut 16 a.toList = cut 16 b.toList

/-! ## The field -/

theorem fixNoting_fst (m : Truncation) (s : String) (n : ℕ) : (fixNoting m s n).1 = fix s n := by
  simp only [fixNoting, fix]
  split <;> rfl

theorem unfix_cut (n : ℕ) (s : String) : unfix (Utf8.encode (cut n s.toList)) = shown n s := by
  rw [unfix, Utf8.rdropWhile_zero_encode, Utf8.decode_encode, shown]

/-- A field is what it shows, filled up. -/
theorem fix_eq_ljust (s : String) (n : ℕ) : fix s n = ljust (Utf8.encode (shown n s).toList) n := by
  have hpad (b : Bytes) : b.rdropWhile (· == 0) ++ List.replicate (b.length - (b.rdropWhile (· == 0)).length) 0 =
      b := by
    induction b using List.reverseRecOn with
    | nil => rfl
    | append_singleton b x ih =>
      have hle := (List.rdropWhile_prefix (· == 0) b).length_le
      by_cases hx : x = 0
      · subst hx
        rw [List.rdropWhile_concat_pos _ _ _ rfl, List.length_append, List.length_singleton, Nat.sub_add_comm hle,
          List.replicate_succ',
          ← List.append_assoc, ih]
      · rw [List.rdropWhile_concat_neg _ _ _ (by simpa using hx), Nat.sub_self, List.replicate_zero, List.append_nil]
  have h := hpad (fix s n)
  rw [rdropWhile_fix, fix_length] at h
  exact h.symm

theorem fix_eq_iff (a b : String) (n : ℕ) : fix a n = fix b n ↔ shown n a = shown n b := by
  constructor
  · intro h
    rw [← unfix_fix, h, unfix_fix]
  · intro h
    rw [fix_eq_ljust, h, ← fix_eq_ljust]

theorem fix_of_cut {a b : String} (h : cut 16 a.toList = cut 16 b.toList) :
    fix a 16 = fix b 16 := by rw [fix_eq, h, ← fix_eq]

theorem mem_sharing {packed : List String} {wire : Bytes} {s : String} : s ∈ sharing packed wire ↔ s ∈ packed ∧
    fix s 16 = wire := by
  simp [sharing]

/-! ## What is noted -/

theorem counted_fst (o r : String × ℕ) (_ : o.1 = r.1) : (counted o r).1 = r.1 := rfl

theorem added_fst (o r : Bytes × Finset String) (_ : o.1 = r.1) : (added o r).1 = r.1 := rfl

/-- The packed symbols that were cut to these bytes. -/
def cutTo (packed : List String) (b : Bytes) : Finset String :=
  (packed.filter fun s => 16 < (Utf8.encode s.toList).length ∧ Utf8.encode (cut 16 s.toList) = b).toFinset

theorem mem_cutTo {packed : List String} {b : Bytes} {s : String} :
    s ∈ cutTo packed b ↔ s ∈ packed ∧ 16 < (Utf8.encode s.toList).length ∧ Utf8.encode (cut 16 s.toList) = b := by
  simp [cutTo]

theorem cutTo_append (packed : List String) (s : String) (b : Bytes) :
    cutTo (packed ++ [s]) b =
      if 16 < (Utf8.encode s.toList).length ∧ Utf8.encode (cut 16 s.toList) = b then cutTo packed b ∪ {s}
          else cutTo packed b := by
  simp only [cutTo, List.filter_append, List.toFinset_append]
  split <;> simp [*]

theorem noted_append (packed : List String) (s : String) :
    noted (packed ++ [s]) = (fixNoting (noted packed) s 16).2 := by
  simp [noted]

theorem noted_of_le {packed : List String} {s : String} (h : ¬ 16 < (Utf8.encode s.toList).length) :
    noted (packed ++ [s]) = noted packed := by
  simp [noted_append, fixNoting, h]

/-- What one more symbol that does not fit adds. -/
theorem truncMap_of_gt {packed : List String} {s : String} (h : 16 < (Utf8.encode s.toList).length) :
    (noted (packed ++ [s])).truncMap =
      upsert Prod.fst added (noted packed).truncMap (Utf8.encode (cut 16 s.toList), {s}) := by
  simp [noted_append, fixNoting, encode_cut, h]

theorem truncMap_nodup (packed : List String) : ((noted packed).truncMap.map Prod.fst).Nodup := by
  induction packed using List.reverseRecOn with
  | nil => exact List.nodup_nil
  | append_singleton packed s ih =>
    by_cases h : 16 < (Utf8.encode s.toList).length
    · rw [truncMap_of_gt h]
      exact nodup_upsert_merge added_fst ih _
    · rw [noted_of_le h]
      exact ih

theorem lookup_truncMap (packed : List String) (b : Bytes) :
    lookup Prod.fst b (noted packed).truncMap = if cutTo packed b = ∅ then none else some (b, cutTo packed b) := by
  induction packed using List.reverseRecOn with
  | nil => rfl
  | append_singleton packed s ih =>
    by_cases h : 16 < (Utf8.encode s.toList).length
    · rw [truncMap_of_gt h, lookup_upsert added_fst, ih, cutTo_append]
      by_cases hb : Utf8.encode (cut 16 s.toList) = b
      · by_cases hnone : cutTo packed b = ∅ <;> simp [h, hb, hnone, added]
      · simp [hb]
    · rw [noted_of_le h, ih, cutTo_append]
      simp [h]

/-- The entries of `_TRUNC_MAP`. -/
theorem mem_truncMap {packed : List String} {e : Bytes × Finset String} :
    e ∈ (noted packed).truncMap ↔ e.2 = cutTo packed e.1 ∧ e.2 ≠ ∅ := by
  have hlook := @lookup_eq_some_iff _ _ _ _ _ (truncMap_nodup packed) e.1 e
  rw [lookup_truncMap] at hlook
  rw [← and_iff_left (a := e ∈ (noted packed).truncMap) (@rfl _ e.1), ← hlook]
  by_cases hnone : cutTo packed e.1 = ∅
  · simp [hnone]
  · simp only [hnone, if_false, Option.some.injEq, Prod.ext_iff, true_and]
    constructor
    · intro h
      exact ⟨h.symm, h ▸ hnone⟩
    · exact fun h => h.1.symm

/-- `_TRUNCATED` counts how often each symbol that does not fit was packed. -/
theorem truncated_count (packed : List String) (s : String) :
    lookup Prod.fst s (noted packed).truncatedSymbols =
      if 16 < (Utf8.encode s.toList).length ∧ s ∈ packed then some (s, packed.count s) else none := by
  rw [Truncation.truncatedSymbols]
  induction packed using List.reverseRecOn with
  | nil => simp [noted]
  | append_singleton packed t ih =>
    by_cases h : 16 < (Utf8.encode t.toList).length
    · have hstep : (noted (packed ++ [t])).truncated = upsert Prod.fst counted (noted packed).truncated (t, 1) := by
        simp [noted_append, fixNoting, h]
      rw [hstep, lookup_upsert counted_fst, ih]
      by_cases ht : t = s
      · subst ht
        by_cases hmem : t ∈ packed <;> simp [h, hmem, counted, List.count_eq_zero_of_not_mem]
      · simp [ht, Ne.symm ht]
    · rw [noted_of_le h, ih]
      by_cases ht : t = s
      · subst ht
        simp [h]
      · simp [ht, Ne.symm ht]

/-! ## What is reported -/

theorem mem_shared {packed : List String} {e : String × List String} :
    e ∈ (noted packed).shared ↔ ∃ b, 1 < (cutTo packed b).card ∧ e = (unfix b, (cutTo packed b).sort (· ≤ ·)) := by
  simp only [Truncation.shared, List.mem_map, List.mem_filter, decide_eq_true_eq, mem_truncMap]
  constructor
  · rintro ⟨r, ⟨⟨hr, -⟩, hcard⟩, rfl⟩
    exact ⟨r.1, hr ▸ hcard, by rw [hr]⟩
  · rintro ⟨b, hcard, rfl⟩
    refine ⟨(b, cutTo packed b), ⟨⟨rfl, ?_⟩, hcard⟩, rfl⟩
    intro (hnone : cutTo packed b = ∅)
    rw [hnone, Finset.card_empty] at hcard
    omega

theorem mem_shared_of_mem {packed : List String} {e : String × List String}
    (h : e ∈ (noted packed).symbolCollisions) : e ∈ (noted packed).shared := by
  have hlook := lookup_key_of_nodup (nodup_dictOf _) h
  rw [lookup_dictOf] at hlook
  exact List.mem_reverse.1 (mem_of_lookup hlook)

theorem cutTo_subset {packed : List String} {a : String} :
    cutTo packed (Utf8.encode (cut 16 a.toList)) ⊆ sharing packed (fix a 16) := by
  intro b hb
  rw [mem_cutTo] at hb
  refine mem_sharing.2 ⟨hb.1, fix_of_cut ?_⟩
  rw [← Utf8.decode_encode (cut 16 b.toList), hb.2.2, Utf8.decode_encode]

/-- Where all that share their bytes were cut alike, what was cut to the same is all that shares its bytes. -/
theorem sharing_eq_cutTo {packed : List String} (h : ∀ a ∈ packed, ∀ b ∈ packed, a ≠ b → fix a 16 = fix b 16 →
    CutAlike a b)
    {a : String} (ha : a ∈ packed) (hcard : 1 < (sharing packed (fix a 16)).card) :
    sharing packed (fix a 16) = cutTo packed (Utf8.encode (cut 16 a.toList)) := by
  obtain ⟨c, hc, hca⟩ := Finset.exists_mem_ne hcard a
  rw [mem_sharing] at hc
  have hlong : 16 < (Utf8.encode a.toList).length := (h a ha c hc.1 hca.symm hc.2.symm).1
  apply Finset.Subset.antisymm _ cutTo_subset
  intro b hb
  obtain ⟨hb, hwire⟩ := mem_sharing.1 hb
  rw [mem_cutTo]
  by_cases hba : b = a
  · exact ⟨hb, hba ▸ hlong, by rw [hba]⟩
  · obtain ⟨hlen, -, hcut⟩ := h b hb a ha hba hwire
    exact ⟨hb, hlen, by rw [hcut]⟩

/-- Then the keys of `out` do not meet either. -/
theorem shared_nodup {packed : List String} (h : ∀ a ∈ packed, ∀ b ∈ packed, a ≠ b → fix a 16 = fix b 16 →
    CutAlike a b) :
    ((noted packed).shared.map Prod.fst).Nodup := by
  have hnodup : ((noted packed).truncMap.filter fun e => decide (1 < e.2.card)).Nodup :=
    (List.Nodup.of_map _ (truncMap_nodup packed)).filter _
  rw [Truncation.shared, List.map_map]
  refine hnodup.map_on fun e he e' he' hkey => ?_
  simp only [List.mem_filter, decide_eq_true_eq, mem_truncMap] at he he'
  obtain ⟨⟨heq, hne⟩, -⟩ := he
  obtain ⟨⟨heq', hne'⟩, -⟩ := he'
  obtain ⟨a, ha⟩ := Finset.nonempty_iff_ne_empty.2 hne
  obtain ⟨a', ha'⟩ := Finset.nonempty_iff_ne_empty.2 hne'
  rw [heq, mem_cutTo] at ha
  rw [heq', mem_cutTo] at ha'
  have hwire : fix a 16 = fix a' 16 := by
    rw [fix_eq_iff, ← unfix_cut, ← unfix_cut, ha.2.2, ha'.2.2]
    exact hkey
  have hcut : e.1 = e'.1 := by
    rw [← ha.2.2, ← ha'.2.2]
    by_cases haa : a = a'
    · rw [haa]
    · rw [(h a ha.1 a' ha'.1 haa hwire).2.2]
  exact Prod.ext hcut (by rw [heq, heq', hcut])

theorem exact_of_cutAlike {packed : List String} (h : ∀ a ∈ packed, ∀ b ∈ packed, a ≠ b → fix a 16 = fix b 16 →
    CutAlike a b) :
    Exact packed (noted packed).symbolCollisions := by
  have hgroups : ∀ e, e ∈ (noted packed).symbolCollisions ↔
      ∃ wire, 1 < (sharing packed wire).card ∧ e = (unfix wire, (sharing packed wire).sort (· ≤ ·)) := by
    intro e
    have hdict : e ∈ (noted packed).symbolCollisions ↔ e ∈ (noted packed).shared := by
      refine ⟨mem_shared_of_mem, fun he => ?_⟩
      have hlook := lookup_dictOf_of_nodup (shared_nodup h) e.1
      rw [lookup_key_of_nodup (shared_nodup h) he] at hlook
      exact mem_of_lookup hlook
    rw [hdict, mem_shared]
    constructor
    · rintro ⟨b, hcard, rfl⟩
      obtain ⟨a, ha⟩ := Finset.card_pos.1 (Nat.zero_lt_of_lt hcard)
      rw [mem_cutTo] at ha
      obtain ⟨ha, -, rfl⟩ := ha
      have hmany := lt_of_lt_of_le hcard (Finset.card_le_card cutTo_subset)
      refine ⟨fix a 16, hmany, ?_⟩
      rw [sharing_eq_cutTo h ha hmany, unfix_fix, unfix_cut]
    · rintro ⟨wire, hcard, rfl⟩
      obtain ⟨a, ha⟩ := Finset.card_pos.1 (Nat.zero_lt_of_lt hcard)
      rw [mem_sharing] at ha
      obtain ⟨ha, rfl⟩ := ha
      have heq := sharing_eq_cutTo h ha hcard
      exact ⟨_, heq ▸ hcard, by rw [heq, unfix_fix, unfix_cut]⟩
  refine ⟨?_, hgroups, nodup_dictOf _⟩
  rw [ne_eq, List.eq_nil_iff_forall_not_mem, not_forall_not]
  simp only [hgroups]
  constructor
  · rintro ⟨-, wire, hcard, -⟩
    obtain ⟨a, ha, b, hb, hne⟩ := Finset.one_lt_card.1 hcard
    rw [mem_sharing] at ha hb
    exact ⟨a, ha.1, b, hb.1, hne, ha.2.trans hb.2.symm⟩
  · rintro ⟨a, ha, b, hb, hne, hwire⟩
    exact ⟨_, fix a 16, Finset.one_lt_card.2 ⟨a, mem_sharing.2 ⟨ha, rfl⟩, b, mem_sharing.2 ⟨hb, hwire.symm⟩, hne⟩, rfl⟩

/-- **The report is exact just where any two different symbols that end up in the same bytes were both cut, and to the
same.** -/
theorem collisions_exact_iff (packed : List String) :
    Exact packed (noted packed).symbolCollisions ↔ ∀ a ∈ packed, ∀ b ∈ packed, a ≠ b → fix a 16 = fix b 16 →
      CutAlike a b := by
  constructor
  · intro hexact a ha b hb hne hwire
    have hcard : 1 < (sharing packed (fix a 16)).card :=
      Finset.one_lt_card.2 ⟨a, mem_sharing.2 ⟨ha, rfl⟩, b, mem_sharing.2 ⟨hb, hwire.symm⟩, hne⟩
    obtain ⟨c, -, hgroup⟩ := mem_shared.1 (mem_shared_of_mem ((hexact.groups _).2 ⟨_, hcard, rfl⟩))
    -- the group it is reported with is what was cut to the same
    have hsort : (sharing packed (fix a 16)).sort (· ≤ ·) = (cutTo packed c).sort (· ≤ ·) := congrArg Prod.snd hgroup
    have hmem (s : String) : s ∈ sharing packed (fix a 16) ↔ s ∈ cutTo packed c := by
      rw [← Finset.mem_sort (· ≤ ·), hsort, Finset.mem_sort]
    obtain ⟨-, hlong, hcut⟩ := mem_cutTo.1 ((hmem a).1 (mem_sharing.2 ⟨ha, rfl⟩))
    obtain ⟨-, hlong', hcut'⟩ := mem_cutTo.1 ((hmem b).1 (mem_sharing.2 ⟨hb, hwire.symm⟩))
    refine ⟨hlong, hlong', ?_⟩
    rw [← Utf8.decode_encode (cut 16 a.toList), hcut, ← hcut', Utf8.decode_encode]
  · exact exact_of_cutAlike

/-- A symbol of sixteen characters and one that begins with it: one field, and no report. -/
theorem collision_missed :
    let packed := ["AAAAAAAAAAAAAAAA", "AAAAAAAAAAAAAAAAB"]
    (noted packed).symbolCollisions = [] ∧ fix "AAAAAAAAAAAAAAAA" 16 = fix "AAAAAAAAAAAAAAAAB" 16 ∧
      ¬ Exact packed (noted packed).symbolCollisions := by
  have hreport : (noted ["AAAAAAAAAAAAAAAA", "AAAAAAAAAAAAAAAAB"]).symbolCollisions = [] := by decide +kernel
  have hwire : fix "AAAAAAAAAAAAAAAA" 16 = fix "AAAAAAAAAAAAAAAAB" 16 := by decide +kernel
  refine ⟨hreport, hwire, fun hexact => ?_⟩
  exact hexact.nonempty.2 ⟨_, List.mem_cons_self, _, List.mem_cons_of_mem _ List.mem_cons_self, by decide,
    hwire⟩ hreport

end Mdfp
