import MarketFeed.Gateway.Entitlements
import MarketFeed.Lib.Lists
import MarketFeed.Lib.Text
/-!
# The entitlement file, read twice (entitlements.py:70-88, tcp_gateway.cpp:178-194)

| here | there |
| --- | --- |
| `universalNewlines` | `open(path, encoding="utf-8").read()` |
| `pyLines`, `cppLines` | `splitlines`, `getline`; what follows the last line break is blank like any other blank line |
| `pyLine`, `cppLine` | the body of the loop over the lines: a token with its symbols, or none |

Python strips a symbol and knows the white space of Unicode, C++ drops every blank of the C locale. On files whose
white space is plain and never inside a symbol they read the same.
-/

namespace Gateway

open Text

/-- `isspace` of the C locale. -/
def cSpace (c : Char) : Bool := c = ' ' || (9 ≤ c.toNat && c.toNat ≤ 13)

/-- `str.isspace`. -/
def pySpace (c : Char) : Bool :=
  cSpace c || (0x1c ≤ c.toNat && c.toNat ≤ 0x1f) || (0x2000 ≤ c.toNat && c.toNat ≤ 0x200a) ||
    [0x85, 0xa0, 0x1680, 0x2028, 0x2029, 0x202f, 0x205f, 0x3000].contains c.toNat

/-- Where `splitlines` ends a line; a carriage return is read as a newline before. -/
def isLineBreak (c : Char) : Bool :=
  (10 ≤ c.toNat && c.toNat ≤ 12) || (0x1c ≤ c.toNat && c.toNat ≤ 0x1e) || [0x85, 0x2028, 0x2029].contains c.toNat

def universalNewlines : List Char → List Char
  | '\r' :: '\n' :: l => '\n' :: universalNewlines l
  | '\r' :: l => '\n' :: universalNewlines l
  | c :: l => c :: universalNewlines l
  | [] => []

/-! ## Python -/

def pyLines (text : List Char) : List (List Char) := (universalNewlines text).splitOnP isLineBreak

/-- What `split(None, 1)` leaves behind the token. -/
def symsOf (space : Char → Bool) (line : List Char) : List Char := (line.dropWhile fun c => !space c).dropWhile space

def pyLine (space : Char → Bool) (raw : List Char) : Option (String × List String) :=
  let line := strip space (raw.takeWhile fun c => c ≠ '#')
  if line = [] then none
  else
    let fields := ((symsOf space line).splitOn ',').map (strip space)
    some (String.ofList (line.takeWhile fun c => !space c), (fields.filter fun f => f ≠ []).map String.ofList)

/-- `by[token] = …`, line by line. -/
def entitlementsOf (rows : List (String × List String)) : Entitlements :=
  let by_token := Keyed.dictOf Prod.fst rows
  ⟨by_token, decide (by_token ≠ [])⟩

/-- `parse`. -/
def parse (text : List Char) : Entitlements := entitlementsOf ((pyLines text).filterMap (pyLine pySpace))

/-! ## C++ -/

def cppLines (text : List Char) : List (List Char) := text.splitOn '\n'

/-- The loop over the characters behind the token. -/
def symbolLoop : List Char → List Char → List (List Char)
  | cur, [] => if cur = [] then [] else [cur]
  | cur, c :: l =>
    if c = ',' then (if cur = [] then [] else [cur]) ++ symbolLoop [] l
    else if cSpace c then symbolLoop cur l
    else symbolLoop (cur ++ [c]) l

def cppLine (raw : List Char) : Option (String × List String) :=
  let line := (raw.takeWhile fun c => c ≠ '#').dropWhile cSpace
  if line = [] then none
  else some (String.ofList (line.takeWhile fun c => !cSpace c),
    (symbolLoop [] (line.dropWhile fun c => !cSpace c)).map String.ofList)

/-- `Entitlements::load`, of a file that could be read. -/
def loadCpp (text : List Char) : Entitlements := entitlementsOf ((cppLines text).filterMap cppLine)

/-! ## Files that both read the same -/

/-- A carriage return stands before a newline only. -/
def returnsPaired : List Char → Bool
  | '\r' :: '\n' :: l => returnsPaired l
  | '\r' :: _ => false
  | _ :: l => returnsPaired l
  | [] => true

structure Plain (text : List Char) : Prop where
  spaces : ∀ c ∈ text, pySpace c = true → c = ' ' ∨ c = '\t' ∨ c = '\r' ∨ c = '\n'
  returns : returnsPaired text = true
  compact : ∀ raw ∈ pyLines text, ∀ field ∈ (symsOf pySpace (strip pySpace (raw.takeWhile fun c => c ≠ '#'))).splitOn
    ',',
    ∀ c ∈ strip pySpace field, pySpace c = false

/-- The three conditions in turn. -/
def isPlain (text : List Char) : Bool :=
  (text.all fun c => !pySpace c || [' ', '\t', '\r', '\n'].contains c) && returnsPaired text &&
    (pyLines text).all fun raw => ((symsOf pySpace (strip pySpace (raw.takeWhile fun c => c ≠ '#'))).splitOn ',').all
      fun field =>
      (strip pySpace field).all fun c => !pySpace c

theorem isPlain_iff {text : List Char} : isPlain text = true ↔ Plain text := by
  unfold isPlain
  simp only [Bool.and_eq_true, List.all_eq_true, Bool.or_eq_true, Bool.not_eq_true', List.contains_iff_mem,
    List.mem_cons, List.not_mem_nil, or_false]
  constructor
  · rintro ⟨⟨hspaces, hreturns⟩, hcompact⟩
    refine ⟨fun c hc hp => (hspaces c hc).resolve_left fun hn => ?_, hreturns, hcompact⟩
    rw [hp] at hn
    cases hn
  · rintro ⟨hspaces, hreturns, hcompact⟩
    refine ⟨⟨fun c hc => ?_, hreturns⟩, hcompact⟩
    cases hp : pySpace c with
    | true => exact .inr (hspaces c hc hp)
    | false => exact .inl rfl

instance (text : List Char) : Decidable (Plain text) := decidable_of_iff _ isPlain_iff

theorem cSpace_of_plain {text : List Char} (h : ∀ c ∈ text, pySpace c = true → c = ' ' ∨ c = '\t' ∨
    c = '\r' ∨ c = '\n') :
    ∀ c ∈ text, pySpace c = cSpace c := by
  intro c hc
  cases hp : pySpace c with
  | true => rcases h c hc hp with rfl | rfl | rfl | rfl <;> rfl
  | false =>
    unfold pySpace at hp
    simp only [Bool.or_eq_false_iff] at hp
    exact hp.1.1.1.symm

/-! ### One line -/

theorem modifyHead_append (cur : List Char) (c : Char) (l : List (List Char)) :
    (l.modifyHead (List.cons c)).modifyHead (cur ++ ·) = l.modifyHead ((cur ++ [c]) ++ ·) := by
  cases l with
  | nil => rfl
  | cons x xs =>
    show (cur ++ c :: x) :: xs = ((cur ++ [c]) ++ x) :: xs
    rw [List.append_assoc]
    rfl

/-- The loop collects the fields between commas, without their blanks. -/
theorem symbolLoop_eq (cur l : List Char) :
    symbolLoop cur l = (((l.filter fun c => !cSpace c).splitOn ',').modifyHead (cur ++ ·)).filter fun f => f ≠ [] := by
  induction l generalizing cur with
  | nil =>
    unfold symbolLoop
    simp only [List.filter_nil, List.splitOn, List.splitOnP_nil, List.modifyHead_cons, List.append_nil]
    by_cases hc : cur = [] <;> simp [hc]
  | cons c l ih =>
    have hid (m : List (List Char)) : m.modifyHead (([] : List Char) ++ ·) = m := by cases m <;> rfl
    unfold symbolLoop
    by_cases hcomma : c = ','
    · subst hcomma
      have hcomma : ((',' : Char) == ',') = true := rfl
      rw [if_pos rfl, List.filter_cons_of_pos rfl, List.splitOn, List.splitOnP_cons_eq_if_modifyHead, if_pos hcomma,
        ih [], hid, List.modifyHead_cons,
        List.append_nil, List.splitOn]
      by_cases hc : cur = [] <;> simp [hc]
    · rw [if_neg hcomma]
      by_cases hspace : cSpace c = true
      · rw [if_pos hspace, List.filter_cons_of_neg (by simp [hspace])]
        exact ih cur
      · rw [if_neg hspace, List.filter_cons_of_pos (by simp [hspace]), List.splitOn,
          List.splitOnP_cons_eq_if_modifyHead,
          if_neg (by simp [hcomma]), ih, modifyHead_append, List.splitOn]

/-- Fields that have no blank inside are the same stripped or without their blanks. -/
theorem fields_eq {l : List Char} (h : ∀ field ∈ l.splitOn ',', ∀ c ∈ strip cSpace field, cSpace c = false) :
    ((l.splitOn ',').map (strip cSpace)).filter (fun f => f ≠ []) = symbolLoop [] l := by
  have hid (m : List (List Char)) : m.modifyHead (([] : List Char) ++ ·) = m := by cases m <;> rfl
  have hkeep : ∀ c : Char, (c == ',') = true → (!cSpace c) = true := by
    intro c hc
    rw [beq_iff_eq.1 hc]
    rfl
  rw [symbolLoop_eq, hid, List.splitOn, List.splitOn, splitOnP_filter hkeep]
  congr 1
  exact List.map_congr_left fun f hf => strip_eq_filter (h f hf)

theorem symbolLoop_filter {l m : List Char} (h : (l.filter fun c => !cSpace c) = m.filter fun c => !cSpace c) :
    symbolLoop [] l = symbolLoop [] m := by
  rw [symbolLoop_eq, symbolLoop_eq, h]

theorem symsOf_congr {line : List Char} (h : ∀ c ∈ line, pySpace c = cSpace c) :
    symsOf pySpace line = symsOf cSpace line := by
  have hnot : ∀ c ∈ line, (!pySpace c) = !cSpace c := fun c hc => by rw [h c hc]
  have hrest : ∀ c ∈ line.dropWhile (fun c => !cSpace c), pySpace c = cSpace c :=
    fun c hc => h c ((List.dropWhile_suffix _).subset hc)
  unfold symsOf
  rw [dropWhile_congr hnot, dropWhile_congr hrest]

/-- A field is made of the line. -/
theorem mem_line_of_mem_field {space : Char → Bool} {line field : List Char}
    (hf : field ∈ (symsOf space line).splitOn ',') : ∀ c ∈ field, c ∈ line := by
  intro c hc
  have hmem := mem_of_mem_splitOnP hf c hc
  exact (List.dropWhile_suffix _).subset ((List.dropWhile_suffix _).subset hmem)

theorem pyLine_congr {raw : List Char} (h : ∀ c ∈ raw, pySpace c = cSpace c) :
    pyLine pySpace raw = pyLine cSpace raw := by
  have hline : ∀ c ∈ raw.takeWhile (fun c => c ≠ '#'), pySpace c = cSpace c :=
    fun c hc => h c ((List.takeWhile_prefix _).subset hc)
  have hin : ∀ c ∈ strip cSpace (raw.takeWhile fun c => c ≠ '#'), pySpace c = cSpace c :=
    fun c hc => hline c (mem_of_mem_strip hc)
  unfold pyLine
  rw [strip_congr hline]
  generalize strip cSpace (raw.takeWhile fun c => c ≠ '#') = line at hin
  have hnot : ∀ c ∈ line, (!pySpace c) = !cSpace c := fun c hc => by rw [hin c hc]
  have hfields : ∀ f ∈ (symsOf cSpace line).splitOn ',', strip pySpace f = strip cSpace f :=
    fun f hf => strip_congr fun c hc => hin c (mem_line_of_mem_field hf c hc)
  simp only
  rw [symsOf_congr hin, takeWhile_congr hnot, List.map_congr_left hfields]

theorem pyLine_eq_cppLine {raw : List Char}
    (h : ∀ field ∈ (symsOf cSpace (strip cSpace (raw.takeWhile fun c => c ≠ '#'))).splitOn ',',
      ∀ c ∈ strip cSpace field, cSpace c = false) :
    pyLine cSpace raw = cppLine raw := by
  unfold pyLine cppLine
  generalize raw.takeWhile (fun c => c ≠ '#') = line at h
  simp only
  -- the C++ line is the stripped one with the blanks at its end
  have hsplit : strip cSpace line ++ (line.dropWhile cSpace).rtakeWhile cSpace = line.dropWhile cSpace :=
    List.rdropWhile_append_rtakeWhile ..
  have htrail : ∀ c ∈ (line.dropWhile cSpace).rtakeWhile cSpace, cSpace c = true :=
    fun c hc => List.mem_rtakeWhile_imp hc
  have hempty : strip cSpace line = [] ↔ line.dropWhile cSpace = [] := by
    constructor
    · intro hs
      rw [hs, List.nil_append] at hsplit
      cases hd : line.dropWhile cSpace with
      | nil => rfl
      | cons c l =>
        have hhead := List.head_dropWhile_not cSpace (by rw [hd]; exact List.cons_ne_nil c l)
        have hc : cSpace c = true := htrail c (by rw [hsplit, hd]; exact List.mem_cons_self)
        simp only [hd, List.head_cons] at hhead
        rw [hc] at hhead
        cases hhead
    · intro hd
      unfold strip
      rw [hd]
      rfl
  generalize (line.dropWhile cSpace).rtakeWhile cSpace = trail at hsplit htrail
  rw [← hsplit] at hempty ⊢
  generalize strip cSpace line = s at h hempty
  by_cases hs : s = []
  · rw [if_pos hs, if_pos (hempty.1 hs)]
  · rw [if_neg hs, if_neg fun he => hs (hempty.2 he), takeWhile_append_space htrail, dropWhile_append_space htrail,
      fields_eq h]
    congr 3
    apply symbolLoop_filter
    have hlead : ∀ c ∈ (s.dropWhile fun c => !cSpace c).takeWhile cSpace, ¬(!cSpace c) = true :=
      fun c hc => by simp [List.mem_takeWhile_imp hc]
    have hrest : (symsOf cSpace s).filter (fun c => !cSpace c) = (s.dropWhile fun c => !cSpace c).filter fun c =>
        !cSpace c := by
      unfold symsOf
      conv => rhs; rw [← @List.takeWhile_append_dropWhile _ cSpace (s.dropWhile fun c => !cSpace c)]
      rw [List.filter_append, List.filter_eq_nil_iff.2 hlead, List.nil_append]
    have hnone : trail.filter (fun c => !cSpace c) = [] := List.filter_eq_nil_iff.2 fun c hc => by simp [htrail c hc]
    rw [List.filter_append, hnone, List.append_nil, hrest]

/-! ### All lines -/

theorem cppLine_return (raw : List Char) : cppLine (raw ++ ['\r']) = cppLine raw := by
  have hspace : ∀ c ∈ ['\r'], cSpace c = true := fun c hc => by rw [List.mem_singleton.1 hc]; rfl
  unfold cppLine
  -- behind a '#' the return is not read; elsewhere it is one more blank at the end
  have hline : (raw ++ ['\r']).takeWhile (fun c => c ≠ '#') = raw.takeWhile (fun c => c ≠ '#') ∨
      (raw ++ ['\r']).takeWhile (fun c => c ≠ '#') = raw.takeWhile (fun c => c ≠ '#') ++ ['\r'] := by
    rw [List.takeWhile_append]
    split
    · rename_i hlen
      have hall := (List.takeWhile_prefix (p := fun c => decide (c ≠ '#')) (l := raw)).eq_of_length hlen
      exact .inr (by rw [hall]; rfl)
    · exact .inl rfl
  rcases hline with h | h
  · rw [h]
  · rw [h]
    generalize raw.takeWhile (fun c => c ≠ '#') = line
    rw [List.dropWhile_append]
    cases hd : line.dropWhile cSpace with
    | nil => rfl
    | cons c l =>
      simp only [List.isEmpty_cons, Bool.false_eq_true, if_false]
      rw [if_neg (by simp), if_neg (by simp), takeWhile_append_space hspace, dropWhile_append_space hspace]
      congr 3
      apply symbolLoop_filter
      rw [List.filter_append]
      exact List.append_nil _

/-- Line by line, up to a carriage return at the end. -/
theorem lines_forall₂ {text : List Char} (h : returnsPaired text = true) :
    List.Forall₂ (fun p c => c = p ∨ c = p ++ ['\r']) ((universalNewlines text).splitOn '\n') (cppLines text) := by
  unfold cppLines List.splitOn
  induction text using universalNewlines.induct with
  | case1 l ih =>
    simp only [returnsPaired] at h
    simp only [universalNewlines]
    have hnl : (('\n' : Char) == '\n') = true := rfl
    rw [List.splitOnP_cons_eq_if_modifyHead, if_pos hnl, List.splitOnP_cons_eq_if_modifyHead, if_neg (by decide),
      List.splitOnP_cons_eq_if_modifyHead, if_pos hnl]
    exact .cons (.inr rfl) (ih h)
  | case2 l hne ih =>
    exfalso
    cases l with
    | nil => cases h
    | cons c l =>
      by_cases hc : c = '\n'
      · exact hne l (by rw [hc])
      · simp [returnsPaired] at h
  | case3 c l hne hr ih =>
    have hcr : c ≠ '\r' := fun he => hr he
    have hrest : returnsPaired l = true := by
      unfold returnsPaired at h
      split at h
      · rename_i heq
        exact absurd (List.cons.inj heq).1 hcr
      · cases h
      · rename_i heq
        rw [(List.cons.inj heq).2]
        exact h
      · rename_i heq
        cases heq
    have ih := ih hrest
    have huniv : universalNewlines (c :: l) = c :: universalNewlines l := by
      rw [universalNewlines]
      · exact hne
      · exact hr
    rw [huniv, List.splitOnP_cons_eq_if_modifyHead, List.splitOnP_cons_eq_if_modifyHead]
    by_cases hc : (c == '\n') = true
    · rw [if_pos hc, if_pos hc]
      exact .cons (.inl rfl) ih
    · rw [if_neg hc, if_neg hc]
      generalize (universalNewlines l).splitOnP (· == '\n') = ps at ih
      generalize l.splitOnP (· == '\n') = cs at ih
      cases ih with
      | nil => exact .nil
      | cons hhead htail =>
        refine .cons ?_ htail
        rcases hhead with rfl | rfl
        · exact .inl rfl
        · exact .inr rfl
  | case4 => exact .cons (.inl rfl) .nil

theorem mem_universalNewlines {text : List Char} : ∀ c ∈ universalNewlines text, c ∈ text ∨ c = '\n' := by
  induction text using universalNewlines.induct with
  | case1 l ih =>
    intro c hc
    simp only [universalNewlines] at hc
    rcases List.mem_cons.1 hc with rfl | hc
    · exact .inr rfl
    · exact (ih c hc).imp_left fun h => List.mem_cons_of_mem _ (List.mem_cons_of_mem _ h)
  | case2 l hne ih =>
    intro c hc
    rw [universalNewlines] at hc
    · rcases List.mem_cons.1 hc with rfl | hc
      · exact .inr rfl
      · exact (ih c hc).imp_left (List.mem_cons_of_mem _)
    · exact hne
  | case3 c0 l hne hr ih =>
    intro c hc
    rw [universalNewlines] at hc
    · rcases List.mem_cons.1 hc with rfl | hc
      · exact .inl List.mem_cons_self
      · exact (ih c hc).imp_left (List.mem_cons_of_mem _)
    · exact hne
    · exact hr
  | case4 => exact fun c hc => (by cases hc)

theorem pySpace_of_isLineBreak {c : Char} (h : isLineBreak c = true) : pySpace c = true := by
  unfold isLineBreak at h
  unfold pySpace cSpace
  simp only [Bool.or_eq_true, Bool.and_eq_true, decide_eq_true_eq, List.contains_iff_mem] at h ⊢
  simp only [List.mem_cons, List.not_mem_nil, or_false] at h ⊢
  omega

section Plain

variable {text : List Char}

theorem Plain.readSpaces (h : Plain text) : ∀ c ∈ universalNewlines text, pySpace c = true → c = ' ' ∨ c = '\t' ∨
    c = '\r' ∨ c = '\n' := by
  intro c hc hp
  rcases mem_universalNewlines c hc with hc | rfl
  · exact h.spaces c hc hp
  · exact .inr (.inr (.inr rfl))

/-- Only a newline ends a line. -/
theorem Plain.pyLines_eq (h : Plain text) : pyLines text = (universalNewlines text).splitOn '\n' := by
  refine splitOnP_congr fun c hc => ?_
  cases hb : isLineBreak c with
  | true =>
    rcases h.readSpaces c hc (pySpace_of_isLineBreak hb) with rfl | rfl | rfl | rfl
    · cases hb
    · cases hb
    · cases hb
    · rfl
  | false =>
    symm
    apply beq_eq_false_iff_ne.2
    rintro rfl
    cases hb

theorem Plain.line (h : Plain text) : ∀ raw ∈ pyLines text, pyLine pySpace raw = cppLine raw := by
  intro raw hraw
  have hc : ∀ c ∈ raw, pySpace c = cSpace c :=
    fun c hc => cSpace_of_plain h.readSpaces c (mem_of_mem_splitOnP hraw c hc)
  have hline : ∀ c ∈ raw.takeWhile (fun c => c ≠ '#'), pySpace c = cSpace c :=
    fun c hin => hc c ((List.takeWhile_prefix _).subset hin)
  have hin : ∀ c ∈ strip cSpace (raw.takeWhile fun c => c ≠ '#'), pySpace c = cSpace c :=
    fun c hin => hline c (mem_of_mem_strip hin)
  rw [pyLine_congr hc]
  apply pyLine_eq_cppLine
  intro f hf c hcf
  have hfield : ∀ c ∈ f, pySpace c = cSpace c := fun c hcf => hin c (mem_line_of_mem_field hf c hcf)
  have hcompact := h.compact raw hraw f
  rw [strip_congr hline, symsOf_congr hin, strip_congr hfield] at hcompact
  rw [← hfield c (mem_of_mem_strip hcf)]
  exact hcompact hf c hcf

/-- **The two loaders agree** on files whose white space is plain. -/
theorem parse_eq_loadCpp (h : Plain text) : parse text = loadCpp text := by
  have hlines := lines_forall₂ h.returns
  rw [← h.pyLines_eq] at hlines
  have hpairs : List.Forall₂ (fun p c => pyLine pySpace p = cppLine c) (pyLines text) (cppLines text) := by
    refine ((List.forall₂_and_left _ _).2 ⟨h.line, hlines⟩).imp ?_
    rintro p c ⟨hp, rfl | rfl⟩
    · exact hp
    · rw [cppLine_return]
      exact hp
  unfold parse loadCpp
  rw [Lists.filterMap_forall₂ hpairs]

end Plain

example : (parse "# desk\n demo\tUPBIT:A, UPBIT:B \n\nfull *".toList).byToken = [("demo", ["UPBIT:A", "UPBIT:B"]),
  ("full", ["*"])] := by decide +kernel

example : (loadCpp "# desk\n demo\tUPBIT:A, UPBIT:B \n\nfull *".toList).byToken = [("demo", ["UPBIT:A", "UPBIT:B"]),
  ("full", ["*"])] := by decide +kernel

end Gateway
