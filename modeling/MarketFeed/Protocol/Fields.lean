import MarketFeed.Protocol.Models
/-!
# What a text field keeps (src/mdfeed/models.py:93-116, cpp/include/mdfp/protocol.hpp:209-224)

A text that is longer than its field is to be cut between characters, as late as that can be. Both languages go back
from the cut over continuation bytes and over one lead byte, whether or not the cut was inside a character: a
character of several bytes that ends with the field goes too (`longest_read_iff`), and of `코스피 대형주` a field of 16
bytes keeps `코스피 대`.
-/

namespace Mdfp

open Gateway (Bytes)

/-- The text is too long, and what fits fills the field to the last byte and ends in a character of several bytes. -/
def CutsWhole (n : ℕ) (l : List Char) : Prop := n < (Utf8.encode l).length ∧ Utf8.EndsWide n l

theorem longest_cut_iff (n : ℕ) (l : List Char) : Utf8.Longest n l (cut n l) ↔ ¬ CutsWhole n l := by
  rw [Utf8.longest_iff, cut, CutsWhole]
  split
  · rename_i hlong
    rw [Utf8.keep_eq_fits_iff]
    simp [hlong]
  · rename_i hfits
    rw [Utf8.fits_of_length (Nat.le_of_not_lt hfits)]
    simp [hfits]

theorem cut_isPrefix (n : ℕ) (l : List Char) : cut n l <+: l := by
  rw [cut]
  split
  · exact Utf8.keep_prefix n l
  · exact List.prefix_rfl

/-- Without NULs nothing but the cut is lost. -/
theorem shown_toList (n : ℕ) {s : String} (hnul : '\x00' ∉ s.toList) : (shown n s).toList = cut n s.toList := by
  rw [shown, String.toList_ofList, List.rdropWhile_eq_self_iff]
  intro hne hlast
  have hmem : '\x00' ∈ cut n s.toList := by
    rw [← beq_iff_eq.1 hlast]
    exact List.getLast_mem hne
  exact hnul ((cut_isPrefix n s.toList).subset hmem)

/-- The field of the other language, written into a buffer and read. -/
theorem Cpp.unfix_fix {dst : Bytes} {i n : ℕ} (h : i + n ≤ dst.length) (s : String) :
    Cpp.unfix ((Cpp.fix dst i n (Utf8.encode s.toList)).drop i) n = Utf8.encode (shown n s).toList := by
  have hi : (dst.take i).length = i := List.length_take_of_le (by omega)
  have hfix := Cpp.fix_eq hi (dst.drop i) n s
  rw [List.take_append_drop, List.append_assoc] at hfix
  rw [hfix, List.drop_left' hi]
  have hlen := fix_length s n
  refine Cpp.unfix_eq ?_ (List.take_left' hlen)
  rw [List.length_append]
  omega

/-- **When a field keeps the longest prefix of whole characters that fits**: in both languages, unless the cut is
right behind a character of several bytes. -/
theorem longest_read_iff (s : String) (n : ℕ) (hnul : '\x00' ∉ s.toList) :
    (Utf8.Longest n s.toList (unfix (fix s n)).toList ↔ ¬ CutsWhole n s.toList) ∧
    ∀ (dst : Bytes) (i : ℕ), i + n ≤ dst.length →
      ((∃ p, Cpp.unfix ((Cpp.fix dst i n (Utf8.encode s.toList)).drop i) n = Utf8.encode p ∧
      Utf8.Longest n s.toList p) ↔
        ¬ CutsWhole n s.toList) := by
  constructor
  · rw [unfix_fix, shown_toList n hnul, longest_cut_iff]
  · intro dst i h
    rw [Cpp.unfix_fix h, shown_toList n hnul, ← longest_cut_iff]
    constructor
    · rintro ⟨p, hp, hlongest⟩
      have hcut : cut n s.toList = p := by rw [← Utf8.decode_encode (cut n s.toList), hp, Utf8.decode_encode]
      rwa [hcut]
    · exact fun hlongest => ⟨_, rfl, hlongest⟩

/-- The cut is inside `형`, in a field of 15 bytes. -/
theorem longest_read_inside :
    '\x00' ∉ "코스피 대형주".toList ∧ ¬ CutsWhole 15 "코스피 대형주".toList ∧
      Utf8.Longest 15 "코스피 대형주".toList (unfix (fix "코스피 대형주" 15)).toList ∧
      ∃ p, Cpp.unfix ((Cpp.fix (List.replicate 15 0) 0 15 (Utf8.encode "코스피 대형주".toList)).drop 0) 15 = Utf8.encode p ∧
        Utf8.Longest 15 "코스피 대형주".toList p := by
  have hnul : '\x00' ∉ "코스피 대형주".toList := by decide
  have hinside : ¬ CutsWhole 15 "코스피 대형주".toList := by
    rintro ⟨-, hwide⟩
    rw [show "코스피 대형주".toList = ['코', '스', '피', ' ', '대', '형', '주'] from rfl] at hwide
    simp [Utf8.endsWide_cons, Char.utf8Size] at hwide
  obtain ⟨hpy, hcpp⟩ := longest_read_iff "코스피 대형주" 15 hnul
  exact ⟨hnul, hinside, hpy.2 hinside, (hcpp _ 0 (by decide)).2 hinside⟩

/-- **A character that fits is dropped**: of the 16 bytes of `코스피 대형` the field keeps the first 13. -/
theorem whole_character_dropped :
    '\x00' ∉ "코스피 대형주".toList ∧ unfix (fix "코스피 대형주" 16) = "코스피 대" ∧
      Cpp.unfix (Cpp.fix (List.replicate 16 0) 0 16 (Utf8.encode "코스피 대형주".toList)) 16 = Utf8.encode "코스피 대".toList ∧
      "코스피 대형".toList <+: "코스피 대형주".toList ∧ (Utf8.encode "코스피 대형".toList).length ≤ 16 ∧
      ¬ Utf8.Longest 16 "코스피 대형주".toList "코스피 대".toList := by
  have hshown : shown 16 "코스피 대형주" = "코스피 대" := by decide +kernel
  refine ⟨by decide, by rw [unfix_fix, hshown], ?_, by decide, by decide +kernel, ?_⟩
  · have hread := @Cpp.unfix_fix (List.replicate 16 0) 0 16 (by decide) "코스피 대형주"
    rwa [List.drop_zero, hshown] at hread
  · intro hlongest
    have hpre := hlongest.2 "코스피 대형".toList (by decide) (by decide +kernel)
    exact absurd hpre (by decide)

end Mdfp
