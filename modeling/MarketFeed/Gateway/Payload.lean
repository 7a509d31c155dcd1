import MarketFeed.Gateway.Scanner
/-!
# Requests as JSON texts (tcp_gateway.py:335-361, cpp/src/tcp_gateway.cpp:145-164, :575-584)

A request is an object of the members `symbols`, a list of texts, `token` and `mode`, each a text, and others
that are texts, numerals or words, in any order and with blanks anywhere. Python reads the members, the last of a
name; the C++ gateway scans the text. `ok`: no text needs an escape, has the name of a member that is looked for, or,
in the list, a closing bracket, and no name is repeated.
-/

namespace Gateway

/-- An element of the list, with the blanks behind it, and behind the comma that follows. -/
structure Quoted where
  text : List Char
  after : List Char
  next : List Char
  deriving DecidableEq

inductive Member
  | symbols (blank : List Char) (items : List Quoted)
  | token (s : List Char)
  | mode (s : List Char)
  | other (name s : List Char)
  | literal (name word : List Char)
  deriving DecidableEq

/-- A member with the blanks around its colon, behind it, and behind the comma that follows. -/
structure Entry where
  member : Member
  colon : List Char × List Char
  after : List Char
  next : List Char
  deriving DecidableEq

structure Payload where
  lead : List Char
  first : List Char
  entries : List Entry
  trail : List Char
  deriving DecidableEq

def Member.name : Member → List Char
  | .symbols _ _ => "symbols".toList
  | .token _ => "token".toList
  | .mode _ => "mode".toList
  | .other name _ => name
  | .literal name _ => name

/-! ## The text -/

def itemsText : List Quoted → List Char
  | [] => []
  | [i] => quote i.text ++ i.after
  | i :: j :: l => quote i.text ++ (i.after ++ ',' :: i.next) ++ itemsText (j :: l)

def Member.valueText : Member → List Char
  | .symbols blank items => '[' :: blank ++ itemsText items ++ [']']
  | .token s => quote s
  | .mode s => quote s
  | .other _ s => quote s
  | .literal _ word => word

def Entry.text (e : Entry) : List Char :=
  quote e.member.name ++ (e.colon.1 ++ ':' :: e.colon.2) ++ (e.member.valueText ++ e.after)

def entriesText : List Entry → List Char
  | [] => []
  | [e] => e.text
  | e :: e' :: l => e.text ++ ',' :: e.next ++ entriesText (e' :: l)

def Payload.text (p : Payload) : List Char := p.lead ++ '\x7b' :: p.first ++ entriesText p.entries ++ '\x7d' :: p.trail

/-! ## What Python reads -/

/-- `req.get(name)`. -/
def Payload.member (p : Payload) (name : String) : Option Member :=
  (Keyed.lookup (fun e : Entry => e.member.name) name.toList
    (Keyed.dictOf (fun e : Entry => e.member.name) p.entries)).map Entry.member

def Member.string : Member → Option String
  | .symbols _ _ => none
  | .token s => some (String.ofList s)
  | .mode s => some (String.ofList s)
  | .other _ s => some (String.ofList s)
  | .literal _ _ => none

def Member.strings : Member → Option (List String)
  | .symbols _ items => some (items.map fun i => String.ofList i.text)
  | _ => none

/-- `list(syms) if syms else None`. -/
def symsOrNone : Option (List String) → Option (List Sym)
  | some (s :: l) => some ((s :: l).map Sym.text)
  | _ => none

/-- `_apply_subscribe` up to `resolve`. -/
def Payload.request (p : Payload) : Request :=
  .request (((p.member "token").bind Member.string).getD "") (symsOrNone ((p.member "symbols").bind Member.strings))
    (((p.member "mode").bind Member.string).bind modeOf)

/-! ## Texts that are written plainly -/

def keyNames : List (List Char) := ["symbols".toList, "token".toList, "mode".toList]

/-- Needs no escape, and is not the name of a member that is looked for. -/
def okText (s : List Char) : Bool := (s.all fun c => c ≠ '\"' && c ≠ '\\' && decide (0x20 ≤ c.toNat)) &&
    !keyNames.contains s

/-- What of a numeral has been read. -/
inductive Numeral
  | start
  | minus
  | zero
  | whole
  | point
  | fraction
  | mark
  | sign
  | exponent
  deriving DecidableEq

def Numeral.next (c : Char) : Numeral → Option Numeral
  | .start => if c = '-' then some .minus else if c = '0' then some .zero else if c.isDigit then some .whole else none
  | .minus => if c = '0' then some .zero else if c.isDigit then some .whole else none
  | .zero => if c = '.' then some .point else if c = 'e' ∨ c = 'E' then some .mark else none
  | .whole => if c.isDigit then some .whole else if c = '.' then some .point else if c = 'e' ∨
      c = 'E' then some .mark else none
  | .point => if c.isDigit then some .fraction else none
  | .fraction => if c.isDigit then some .fraction else if c = 'e' ∨ c = 'E' then some .mark else none
  | .mark => if c = '+' ∨ c = '-' then some .sign else if c.isDigit then some .exponent else none
  | .sign => if c.isDigit then some .exponent else none
  | .exponent => if c.isDigit then some .exponent else none

/-- A numeral, which Python does not refuse for its length. -/
def isNumeral (word : List Char) : Bool :=
  (word.foldlM (fun n c => Numeral.next c n) .start).any [.zero, .whole, .fraction, .exponent].contains &&
    decide (word.length ≤ 4300)

def isLiteral (word : List Char) : Bool := ["true".toList, "false".toList, "null".toList].contains word ||
    isNumeral word

def Quoted.ok (i : Quoted) : Bool := okText i.text && !i.text.contains ']' && i.after.all isBlank && i.next.all isBlank

def Member.ok : Member → Bool
  | .symbols blank items => blank.all isBlank && items.all Quoted.ok
  | .token s => okText s
  | .mode s => okText s
  | .other name s => okText name && okText s
  | .literal name word => okText name && isLiteral word

def Entry.ok (e : Entry) : Bool := e.member.ok && e.colon.1.all isBlank && e.colon.2.all isBlank &&
    e.after.all isBlank && e.next.all isBlank

def Payload.ok (p : Payload) : Bool :=
  p.lead.all isBlank && p.first.all isBlank && p.trail.all isBlank && p.entries.all Entry.ok &&
    decide ((p.entries.map fun e => e.member.name).Nodup)

/-! ## Scanning -/

theorem findChar_append {c : Char} {a rest : List Char} (h : c ∉ a) :
    findChar c (a ++ c :: rest) = some (c :: rest) := by
  induction a with
  | nil => exact if_pos rfl
  | cons d a ih =>
    rw [List.mem_cons, not_or] at h
    rw [List.cons_append, findChar, if_neg (Ne.symm h.1), ih h.2]

theorem before_append {c : Char} {a rest : List Char} (h : c ∉ a) : before c (a ++ c :: rest) = some a := by
  induction a with
  | nil => exact if_pos rfl
  | cons d a ih =>
    rw [List.mem_cons, not_or] at h
    rw [List.cons_append, before, if_neg (Ne.symm h.1), ih h.2]
    rfl

/-- Searching for the quoted key finds nothing in `a`, nor across its end. -/
def Skips (key a : List Char) : Prop := ∀ rest, findText (quote key) (a ++ rest) = findText (quote key) rest

theorem Skips.append {key a b : List Char} (ha : Skips key a) (hb : Skips key b) : Skips key (a ++ b) := by
  intro rest
  rw [List.append_assoc, ha, hb]

theorem skips_quiet {key a : List Char} (h : '\"' ∉ a) : Skips key a := by
  intro rest
  induction a with
  | nil => rfl
  | cons c a ih =>
    rw [List.mem_cons, not_or] at h
    have hno : (quote key).isPrefixOf (c :: (a ++ rest)) = false := by
      show ((_ : Char) == c && _) = false
      rw [beq_eq_false_iff_ne.2 h.1, Bool.false_and]
    rw [List.cons_append, findText, if_neg (Bool.eq_false_iff.1 hno), ih h.2]

theorem quote_of_prefixOf {key s rest : List Char} (hkey : '\"' ∉ key) (hs : '\"' ∉ s)
    (h : (quote key).isPrefixOf (quote s ++ rest) = true) : key = s := by
  obtain ⟨t, ht⟩ := List.isPrefixOf_iff_prefix.1 h
  have hbefore : before '\"' (key ++ '\"' :: t) = before '\"' (s ++ '\"' :: rest) := by
    congr 1
    simpa [quote] using ht
  rw [before_append hkey, before_append hs] at hbefore
  exact Option.some.inj hbefore

/-- A quoted text that is not the key, with what stands between it and the next. -/
theorem skips_quote {key s gap : List Char} {k c : Char} (hkey : '\"' ∉ k :: key) (hs : '\"' ∉ s) (hne : s ≠ k :: key)
    (hgap : '\"' ∉ c :: gap)
    (hc : k ≠ c) : Skips (k :: key) (quote s ++ c :: gap) := by
  intro rest
  have hopen : (quote (k :: key)).isPrefixOf ('\"' :: (s ++ '\"' :: (c :: gap ++ rest))) = false := by
    apply Bool.eq_false_iff.2
    intro h
    have heq : '\"' :: (s ++ '\"' :: (c :: gap ++ rest)) = quote s ++ (c :: gap ++ rest) := by simp [quote]
    rw [heq] at h
    exact hne (quote_of_prefixOf hkey hs h).symm
  have hclose : (quote (k :: key)).isPrefixOf ('\"' :: (c :: gap ++ rest)) = false := by
    show (('\"' : Char) == '\"' && (k == c && _)) = false
    rw [beq_eq_false_iff_ne.2 hc, Bool.false_and, Bool.and_false]
  have htext : quote s ++ c :: gap ++ rest = '\"' :: (s ++ '\"' :: (c :: gap ++ rest)) := by simp [quote]
  rw [htext, findText, if_neg (Bool.eq_false_iff.1 hopen), skips_quiet hs, findText,
    if_neg (Bool.eq_false_iff.1 hclose), skips_quiet hgap]

theorem findText_self (key rest : List Char) : findText (quote key) (quote key ++ rest) = some (quote key ++ rest) := by
  show (if (quote key).isPrefixOf (quote key ++ rest) then some (quote key ++ rest) else _) = _
  rw [if_pos (List.isPrefixOf_iff_prefix.2 (List.prefix_append _ _))]

/-! ## A key in the text of a request -/

/-- A name that is looked for: its first letter is no punctuation. -/
structure IsKey (key : List Char) : Prop where
  mem : key ∈ keyNames
  quiet : '\"' ∉ key
  colon : ':' ∉ key
  bracket : '[' ∉ key

theorem isKey_of_mem {key : List Char} (h : key ∈ keyNames) : IsKey key := by
  unfold keyNames at h
  simp only [List.mem_cons, List.not_mem_nil, or_false] at h
  rcases h with rfl | rfl | rfl <;> exact ⟨by decide, by decide, by decide, by decide⟩

/-- Blanks and punctuation. -/
def isGap (c : Char) : Bool := isBlank c || [',', ':', '[', ']', '\x7d'].contains c

theorem quote_not_mem_gap {gap : List Char} (h : gap.all isGap = true) : '\"' ∉ gap := fun hin => by
  have := List.all_eq_true.1 h _ hin
  cases this

theorem isBlank_isGap {l : List Char} (h : l.all isBlank = true) : l.all isGap = true :=
  List.all_eq_true.2 fun c hc => by simp [isGap, List.all_eq_true.1 h c hc]

theorem okText_iff {s : List Char} : okText s = true ↔ (∀ c ∈ s, c ≠ '\"' ∧ c ≠ '\\' ∧ 0x20 ≤ c.toNat) ∧
    s ∉ keyNames := by
  simp [okText, and_assoc]

/-- A text before punctuation is skipped: it is not the key. -/
theorem skips_text {key s gap : List Char} (hkey : IsKey key) (hs : '\"' ∉ s) (hne : s ≠ key)
    (hgap : gap ≠ [] ∧ gap.all isGap = true) :
    Skips key (quote s ++ gap) := by
  obtain ⟨hnil, hall⟩ := hgap
  cases gap with
  | nil => exact absurd rfl hnil
  | cons c gap =>
    have hquiet := quote_not_mem_gap hall
    have hc : isGap c = true := List.all_eq_true.1 hall c List.mem_cons_self
    have hmem := hkey.mem
    have hq := hkey.quiet
    unfold keyNames at hmem
    simp only [List.mem_cons, List.not_mem_nil, or_false] at hmem
    rcases hmem with rfl | rfl | rfl
    · exact skips_quote hq hs hne hquiet (by rintro rfl; cases hc)
    · exact skips_quote hq hs hne hquiet (by rintro rfl; cases hc)
    · exact skips_quote hq hs hne hquiet (by rintro rfl; cases hc)

theorem skips_okText {key s gap : List Char} (hkey : IsKey key) (hs : okText s = true)
    (hgap : gap ≠ [] ∧ gap.all isGap = true) :
    Skips key (quote s ++ gap) := by
  obtain ⟨hchars, hnot⟩ := okText_iff.1 hs
  exact skips_text hkey (fun hin => (hchars _ hin).1 rfl) (fun he => hnot (he ▸ hkey.mem)) hgap

theorem next_quote (n : Numeral) : n.next '\"' = none := by
  cases n <;> rfl

theorem quote_not_mem_numeral : ∀ {word : List Char} {n n' : Numeral}, word.foldlM (fun n c => Numeral.next c n) n =
    some n' → '\"' ∉ word
  | [], _, _, _ => List.not_mem_nil
  | c :: word, n, n', h => by
    rw [List.foldlM_cons, Option.bind_eq_bind, Option.bind_eq_some_iff] at h
    obtain ⟨m, hm, hrest⟩ := h
    rw [List.mem_cons, not_or]
    refine ⟨?_, quote_not_mem_numeral hrest⟩
    rintro rfl
    rw [next_quote] at hm
    cases hm

theorem quote_not_mem_literal {word : List Char} (h : isLiteral word = true) : '\"' ∉ word := by
  unfold isLiteral at h
  rw [Bool.or_eq_true] at h
  rcases h with h | h
  · simp only [List.contains_eq_mem, List.mem_cons, List.not_mem_nil, or_false, decide_eq_true_eq] at h
    rcases h with rfl | rfl | rfl <;> decide
  · rw [isNumeral, Bool.and_eq_true, Option.any_eq_true] at h
    obtain ⟨⟨n, hn, -⟩, -⟩ := h
    exact quote_not_mem_numeral hn

theorem gap_cons {c : Char} {gap : List Char} (hc : isGap c = true) (hgap : gap.all isGap = true) : (c :: gap) ≠ [] ∧
    (c :: gap).all isGap = true :=
  ⟨List.cons_ne_nil c gap, by rw [List.all_cons, hc, hgap]; rfl⟩

theorem gap_append {blank gap : List Char} (hblank : blank.all isBlank = true)
    (hgap : gap ≠ [] ∧ gap.all isGap = true) :
    blank ++ gap ≠ [] ∧ (blank ++ gap).all isGap = true := by
  refine ⟨fun h => hgap.1 (List.append_eq_nil_iff.1 h).2, ?_⟩
  rw [List.all_append, isBlank_isGap hblank, hgap.2]
  rfl

theorem skips_items {key : List Char} (hkey : IsKey key) : ∀ {items : List Quoted} {gap : List Char},
    items.all Quoted.ok = true →
    gap ≠ [] ∧ gap.all isGap = true → Skips key (itemsText items ++ gap)
  | [], _, _, hgap => skips_quiet (quote_not_mem_gap hgap.2)
  | [i], gap, hok, hgap => by
    simp only [List.all_cons, List.all_nil, Bool.and_true, Quoted.ok, Bool.and_eq_true] at hok
    have heq : itemsText [i] ++ gap = quote i.text ++ (i.after ++ gap) := List.append_assoc ..
    rw [heq]
    exact skips_okText hkey hok.1.1.1 (gap_append hok.1.2 hgap)
  | i :: j :: l, gap, hok, hgap => by
    rw [List.all_cons, Bool.and_eq_true] at hok
    obtain ⟨hi, hrest⟩ := hok
    simp only [Quoted.ok, Bool.and_eq_true] at hi
    have heq : itemsText (i :: j :: l) ++ gap = (quote i.text ++ (i.after ++ ',' :: i.next)) ++
        (itemsText (j :: l) ++ gap) := List.append_assoc ..
    rw [heq]
    exact (skips_okText hkey hi.1.1.1 (gap_append hi.1.2 (gap_cons rfl (isBlank_isGap hi.2)))).append
      (skips_items hkey hrest hgap)

/-- A member of another name is skipped, with its value. -/
theorem skips_entry {key : List Char} (hkey : IsKey key) {e : Entry} (he : e.ok = true) (hne : e.member.name ≠ key)
    {gap : List Char}
    (hgap : gap ≠ [] ∧ gap.all isGap = true) : Skips key (e.text ++ gap) := by
  simp only [Entry.ok, Bool.and_eq_true] at he
  obtain ⟨⟨⟨⟨hmember, hc1⟩, hc2⟩, hafter⟩, hnext⟩ := he
  have hname : '\"' ∉ e.member.name := by
    cases hm : e.member with
    | symbols blank items => exact (show '\"' ∉ "symbols".toList by decide)
    | token s => exact (show '\"' ∉ "token".toList by decide)
    | mode s => exact (show '\"' ∉ "mode".toList by decide)
    | other name s =>
      rw [hm] at hmember
      simp only [Member.ok, Bool.and_eq_true] at hmember
      exact fun hin => ((okText_iff.1 hmember.1).1 _ hin).1 rfl
    | literal name word =>
      rw [hm] at hmember
      simp only [Member.ok, Bool.and_eq_true] at hmember
      exact fun hin => ((okText_iff.1 hmember.1).1 _ hin).1 rfl
  have hvalue : Skips key (e.member.valueText ++ (e.after ++ gap)) := by
    have hgap := gap_append hafter hgap
    cases hm : e.member with
    | symbols blank items =>
      rw [hm] at hmember
      simp only [Member.ok, Bool.and_eq_true] at hmember
      have hopen : '\"' ∉ '[' :: blank := quote_not_mem_gap (gap_cons rfl (isBlank_isGap hmember.1)).2
      have heq : (Member.symbols blank items).valueText ++ (e.after ++ gap) = ('[' :: blank) ++
          (itemsText items ++ (']' :: (e.after ++ gap))) := by
        simp [Member.valueText]
      rw [heq]
      exact (skips_quiet hopen).append (skips_items hkey hmember.2 (gap_cons rfl hgap.2))
    | token s =>
      rw [hm] at hmember
      exact skips_okText hkey hmember hgap
    | mode s =>
      rw [hm] at hmember
      exact skips_okText hkey hmember hgap
    | other name s =>
      rw [hm] at hmember
      simp only [Member.ok, Bool.and_eq_true] at hmember
      exact skips_okText hkey hmember.2 hgap
    | literal name word =>
      rw [hm] at hmember
      simp only [Member.ok, Bool.and_eq_true] at hmember
      exact (skips_quiet (quote_not_mem_literal hmember.2)).append (skips_quiet (quote_not_mem_gap hgap.2))
  have heq : e.text ++ gap = (quote e.member.name ++ (e.colon.1 ++ ':' :: e.colon.2)) ++
      (e.member.valueText ++ (e.after ++ gap)) := by
    simp [Entry.text]
  rw [heq]
  exact (skips_text hkey hname hne (gap_append hc1 (gap_cons rfl (isBlank_isGap hc2)))).append hvalue

/-- The key is found where a member has its name. -/
theorem find_entries {key : List Char} (hkey : IsKey key) {gap : List Char} (hgap : gap ≠ [] ∧ gap.all isGap = true) :
    ∀ {entries : List Entry}, entries.all Entry.ok = true →
      ((∀ e ∈ entries, e.member.name ≠ key) ∧ findText (quote key) (entriesText entries ++ gap) = none) ∨
        ∃ e ∈ entries, e.member.name = key ∧
        ∃ rest, findText (quote key) (entriesText entries ++ gap) = some (e.text ++ rest)
  | [], _ => .inl ⟨fun _ h => (by cases h), by
      have := @skips_quiet key gap (quote_not_mem_gap hgap.2) []
      rwa [List.append_nil] at this⟩
  | [e], hok => by
    rw [List.all_cons, Bool.and_eq_true] at hok
    by_cases hname : e.member.name = key
    · refine .inr ⟨e, List.mem_cons_self, hname, gap, ?_⟩
      show findText (quote key) (e.text ++ gap) = _
      unfold Entry.text
      rw [hname, List.append_assoc, List.append_assoc]
      exact findText_self key _
    · have := skips_entry hkey hok.1 hname hgap []
      rw [List.append_nil] at this
      exact .inl ⟨fun e' he' => by rw [List.mem_singleton.1 he']; exact hname, this⟩
  | e :: e' :: l, hok => by
    rw [List.all_cons, Bool.and_eq_true] at hok
    have hnext : e.next.all isGap = true := by
      have := hok.1
      simp only [Entry.ok, Bool.and_eq_true] at this
      exact isBlank_isGap this.2
    have heq : entriesText (e :: e' :: l) ++ gap = (e.text ++ ',' :: e.next) ++ (entriesText (e' :: l) ++ gap) :=
      List.append_assoc ..
    by_cases hname : e.member.name = key
    · refine .inr ⟨e, List.mem_cons_self, hname, ',' :: e.next ++ (entriesText (e' :: l) ++ gap), ?_⟩
      rw [heq, List.append_assoc]
      unfold Entry.text
      rw [hname, List.append_assoc, List.append_assoc]
      exact findText_self key _
    · have hskip := skips_entry hkey hok.1 hname (gap_cons (c := ',') rfl hnext)
      rw [heq, hskip]
      rcases find_entries hkey hgap hok.2 with ⟨hnone, hfind⟩ | ⟨e0, he0, hname0, rest, hfind⟩
      · refine .inl ⟨fun e0 he0 => ?_, hfind⟩
        rcases List.mem_cons.1 he0 with rfl | he0
        · exact hname
        · exact hnone e0 he0
      · exact .inr ⟨e0, List.mem_cons_of_mem e he0, hname0, rest, hfind⟩

/-! ## The scanner reads what Python reads -/

theorem Payload.lookup {p : Payload} (hok : p.ok = true) (name : String) :
    p.member name = (Keyed.lookup (fun e : Entry => e.member.name) name.toList p.entries).map Entry.member := by
  simp only [Payload.ok, Bool.and_eq_true, decide_eq_true_eq] at hok
  rw [Payload.member, Keyed.lookup_dictOf_of_nodup hok.2]

/-- The search comes to the members, and finds the one that Python reads. -/
theorem Payload.find {p : Payload} (hok : p.ok = true) {name : String} (hname : name.toList ∈ keyNames) :
    (p.member name = none ∧ findText (quote name.toList) p.text = none) ∨
      ∃ e ∈ p.entries, e.ok = true ∧ e.member.name = name.toList ∧ p.member name = some e.member ∧
        ∃ rest, findText (quote name.toList) p.text = some (e.text ++ rest) := by
  have hlookup := Payload.lookup hok name
  simp only [Payload.ok, Bool.and_eq_true, decide_eq_true_eq] at hok
  obtain ⟨⟨⟨⟨hlead, hfirst⟩, htrail⟩, hentries⟩, hnodup⟩ := hok
  have hopen : '\"' ∉ p.lead ++ '\x7b' :: p.first := by
    have h1 := quote_not_mem_gap (isBlank_isGap hlead)
    have h2 := quote_not_mem_gap (isBlank_isGap hfirst)
    simp [h1, h2]
  have htext : p.text = (p.lead ++ '\x7b' :: p.first) ++ (entriesText p.entries ++ '\x7d' :: p.trail) := by
    simp [Payload.text]
  have hfind : findText (quote name.toList) p.text = findText (quote name.toList)
      (entriesText p.entries ++ '\x7d' :: p.trail) := by
    rw [htext]
    exact skips_quiet hopen _
  rw [hfind, hlookup]
  rcases find_entries (isKey_of_mem hname) (gap_cons (c := '\x7d') rfl (isBlank_isGap htrail)) hentries with
    ⟨hnone, h⟩ | ⟨e, he, hen, rest, h⟩
  · refine .inl ⟨?_, h⟩
    have hno : Keyed.lookup (fun e : Entry => e.member.name) name.toList p.entries = none :=
      List.find?_eq_none.2 fun e he => by simpa using hnone e he
    rw [hno]
    rfl
  · refine .inr ⟨e, he, List.all_eq_true.1 hentries e he, hen, ?_, rest, h⟩
    rw [(Keyed.lookup_eq_some_iff hnodup).2 ⟨he, hen⟩]
    rfl

theorem not_mem_quote {c : Char} {s : List Char} (h : c ∉ s) (hc : c ≠ '\"') : c ∉ quote s := by
  simp [quote, h, hc]

theorem blank_not_mem {c : Char} {l : List Char} (h : l.all isBlank = true) (hc : isBlank c = false) : c ∉ l :=
  fun hin => by
  rw [List.all_eq_true.1 h c hin] at hc
  cases hc

/-- A text under `token` or `mode`. -/
theorem jsonString_eq {p : Payload} (hok : p.ok = true) {name : String} (hname : name.toList ∈ keyNames)
    (hne : name.toList ≠ "symbols".toList) :
    jsonString p.text name = (p.member name).bind Member.string := by
  unfold jsonString
  rcases Payload.find hok hname with ⟨hm, hf⟩ | ⟨e, -, he, hen, hm, rest, hf⟩
  · rw [hf, hm]
    rfl
  · have hkey := isKey_of_mem hname
    simp only [Entry.ok, Bool.and_eq_true] at he
    obtain ⟨⟨⟨⟨hmember, hc1⟩, hc2⟩, hafter⟩, hnext⟩ := he
    have hvalue : ∃ s, e.member.valueText = quote s ∧ e.member.string = some (String.ofList s) ∧ okText s = true := by
      cases hem : e.member with
      | symbols blank items =>
        rw [hem] at hen
        exact absurd hen.symm hne
      | token s => exact ⟨s, rfl, rfl, by rw [hem] at hmember; exact hmember⟩
      | mode s => exact ⟨s, rfl, rfl, by rw [hem] at hmember; exact hmember⟩
      | other n s =>
        rw [hem] at hmember hen
        simp only [Member.ok, Bool.and_eq_true] at hmember
        have hen : n = name.toList := hen
        exact absurd (hen ▸ hname) (okText_iff.1 hmember.1).2
      | literal n word =>
        rw [hem] at hmember hen
        simp only [Member.ok, Bool.and_eq_true] at hmember
        have hen : n = name.toList := hen
        exact absurd (hen ▸ hname) (okText_iff.1 hmember.1).2
    obtain ⟨s, htext, hstring, hs⟩ := hvalue
    have hquiet : '\"' ∉ s := fun hin => ((okText_iff.1 hs).1 _ hin).1 rfl
    have hcolon : ':' ∉ quote name.toList ++ e.colon.1 := by
      rw [List.mem_append, not_or]
      exact ⟨not_mem_quote hkey.colon (by decide), blank_not_mem hc1 rfl⟩
    have hopen : '\"' ∉ ':' :: e.colon.2 := by
      rw [List.mem_cons, not_or]
      exact ⟨by decide, blank_not_mem hc2 rfl⟩
    have heq : e.text ++ rest = (quote name.toList ++ e.colon.1) ++
        ':' :: (e.colon.2 ++ '\"' :: (s ++ '\"' :: (e.after ++ rest))) := by
      unfold Entry.text
      rw [hen, htext]
      simp only [quote, List.append_assoc, List.cons_append, List.nil_append]
    have heq' : ':' :: (e.colon.2 ++ '\"' :: (s ++ '\"' :: (e.after ++ rest))) = (':' :: e.colon.2) ++
        '\"' :: (s ++ '\"' :: (e.after ++ rest)) := rfl
    rw [hf, Option.bind_some, heq, findChar_append hcolon, Option.bind_some, heq', findChar_append hopen,
      Option.bind_some, List.tail_cons,
      before_append hquiet, hm, Option.bind_some, hstring]
    rfl

theorem strings_quiet {a l : List Char} (h : '\"' ∉ a) : strings none (a ++ l) = strings none l := by
  induction a with
  | nil => rfl
  | cons c a ih =>
    rw [List.mem_cons, not_or] at h
    rw [List.cons_append, strings, if_neg (Ne.symm h.1), ih h.2]

theorem strings_read {s : List Char} (read l : List Char) (h : '\"' ∉ s) :
    strings (some read) (s ++ '\"' :: l) = String.ofList (read ++ s) :: strings none l := by
  induction s generalizing read with
  | nil => rw [List.nil_append, strings, if_pos rfl, List.append_nil]
  | cons c s ih =>
    rw [List.mem_cons, not_or] at h
    rw [List.cons_append, strings, if_neg (Ne.symm h.1), ih _ h.2, List.append_assoc]
    rfl

theorem strings_quote {s : List Char} (l : List Char) (h : '\"' ∉ s) :
    strings none (quote s ++ l) = String.ofList s :: strings none l := by
  have heq : quote s ++ l = '\"' :: (s ++ '\"' :: l) := by simp [quote]
  rw [heq, strings, if_pos rfl]
  exact strings_read [] l h

theorem strings_items : ∀ {items : List Quoted}, items.all Quoted.ok = true →
    strings none (itemsText items) = items.map fun i => String.ofList i.text
  | [], _ => rfl
  | [i], hok => by
    simp only [List.all_cons, List.all_nil, Bool.and_true, Quoted.ok, Bool.and_eq_true] at hok
    have hquiet : '\"' ∉ i.text := fun hin => ((okText_iff.1 hok.1.1.1).1 _ hin).1 rfl
    have hafter := strings_quiet (l := []) (quote_not_mem_gap (isBlank_isGap hok.1.2))
    rw [List.append_nil] at hafter
    show strings none (quote i.text ++ i.after) = [String.ofList i.text]
    rw [strings_quote _ hquiet, hafter]
    rfl
  | i :: j :: l, hok => by
    rw [List.all_cons, Bool.and_eq_true] at hok
    obtain ⟨hi, hrest⟩ := hok
    simp only [Quoted.ok, Bool.and_eq_true] at hi
    have hquiet : '\"' ∉ i.text := fun hin => ((okText_iff.1 hi.1.1.1).1 _ hin).1 rfl
    have hgap : '\"' ∉ i.after ++ ',' :: i.next :=
      quote_not_mem_gap (gap_append hi.1.2 (gap_cons rfl (isBlank_isGap hi.2))).2
    have heq : itemsText (i :: j :: l) = quote i.text ++ ((i.after ++ ',' :: i.next) ++ itemsText (j :: l)) :=
      List.append_assoc ..
    rw [heq, strings_quote _ hquiet, strings_quiet hgap, strings_items hrest]
    rfl

theorem bracket_not_mem_items : ∀ {items : List Quoted}, items.all Quoted.ok = true → ']' ∉ itemsText items
  | [], _ => List.not_mem_nil
  | [i], hok => by
    simp only [List.all_cons, List.all_nil, Bool.and_true, Quoted.ok, Bool.and_eq_true, Bool.not_eq_true',
      List.contains_eq_mem, decide_eq_false_iff_not] at hok
    show ']' ∉ quote i.text ++ i.after
    rw [List.mem_append, not_or]
    exact ⟨not_mem_quote hok.1.1.2 (by decide), blank_not_mem hok.1.2 rfl⟩
  | i :: j :: l, hok => by
    rw [List.all_cons, Bool.and_eq_true] at hok
    obtain ⟨hi, hrest⟩ := hok
    simp only [Quoted.ok, Bool.and_eq_true, Bool.not_eq_true', List.contains_eq_mem, decide_eq_false_iff_not] at hi
    show ']' ∉ quote i.text ++ (i.after ++ ',' :: i.next) ++ itemsText (j :: l)
    simp only [List.mem_append, List.mem_cons, not_or]
    exact ⟨⟨not_mem_quote hi.1.1.2 (by decide), blank_not_mem hi.1.2 rfl, by decide, blank_not_mem hi.2 rfl⟩,
      bracket_not_mem_items hrest⟩

/-- The list under `symbols`. -/
theorem jsonStringArray_eq {p : Payload} (hok : p.ok = true) :
    jsonStringArray p.text "symbols" = (p.member "symbols").bind Member.strings := by
  have hname : "symbols".toList ∈ keyNames := by decide
  unfold jsonStringArray
  rcases Payload.find hok hname with ⟨hm, hf⟩ | ⟨e, -, he, hen, hm, rest, hf⟩
  · rw [hf, hm]
    rfl
  · have hkey := isKey_of_mem hname
    simp only [Entry.ok, Bool.and_eq_true] at he
    obtain ⟨⟨⟨⟨hmember, hc1⟩, hc2⟩, hafter⟩, hnext⟩ := he
    have hvalue : ∃ blank items, e.member = .symbols blank items := by
      cases hem : e.member with
      | symbols blank items => exact ⟨blank, items, rfl⟩
      | token s =>
        rw [hem] at hen
        have hen : "token".toList = "symbols".toList := hen
        exact absurd hen (by decide)
      | mode s =>
        rw [hem] at hen
        have hen : "mode".toList = "symbols".toList := hen
        exact absurd hen (by decide)
      | other n s =>
        rw [hem] at hmember hen
        simp only [Member.ok, Bool.and_eq_true] at hmember
        have hen : n = "symbols".toList := hen
        exact absurd (hen ▸ hname) (okText_iff.1 hmember.1).2
      | literal n word =>
        rw [hem] at hmember hen
        simp only [Member.ok, Bool.and_eq_true] at hmember
        have hen : n = "symbols".toList := hen
        exact absurd (hen ▸ hname) (okText_iff.1 hmember.1).2
    obtain ⟨blank, items, hem⟩ := hvalue
    rw [hem] at hmember
    simp only [Member.ok, Bool.and_eq_true] at hmember
    have hopen : '[' ∉ quote "symbols".toList ++ (e.colon.1 ++ ':' :: e.colon.2) := by
      simp only [List.mem_append, List.mem_cons, not_or]
      exact ⟨not_mem_quote hkey.bracket (by decide), blank_not_mem hc1 rfl, by decide, blank_not_mem hc2 rfl⟩
    have hclose : ']' ∉ '[' :: (blank ++ itemsText items) := by
      simp only [List.mem_append, List.mem_cons, not_or]
      exact ⟨by decide, blank_not_mem hmember.1 rfl, bracket_not_mem_items hmember.2⟩
    have heq : e.text ++ rest = (quote "symbols".toList ++ (e.colon.1 ++ ':' :: e.colon.2)) ++
        '[' :: (blank ++ (itemsText items ++ ']' :: (e.after ++ rest))) := by
      unfold Entry.text
      rw [hen, hem]
      simp only [Member.valueText, List.append_assoc, List.cons_append, List.nil_append]
    have heq' : '[' :: (blank ++ (itemsText items ++ ']' :: (e.after ++ rest))) =
        ('[' :: (blank ++ itemsText items)) ++ ']' :: (e.after ++ rest) := by
      simp
    rw [hf, Option.bind_some, heq, findChar_append hopen, Option.bind_some, heq', before_append hclose,
      Option.map_some, List.tail_cons,
      strings_quiet (quote_not_mem_gap (isBlank_isGap hmember.1)), strings_items hmember.2, hm, hem]
    rfl

theorem dropWhile_blank {a l : List Char} {c : Char} (h : a.all isBlank = true) (hc : isBlank c = false) :
    (a ++ c :: l).dropWhile isBlank = c :: l := by
  rw [List.dropWhile_append_of_pos fun d hd => List.all_eq_true.1 h d hd, List.dropWhile_cons_of_neg (by simp [hc])]

theorem looksLikeJsonObject_text {p : Payload} (hok : p.ok = true) : looksLikeJsonObject p.text = true := by
  simp only [Payload.ok, Bool.and_eq_true, decide_eq_true_eq] at hok
  obtain ⟨⟨⟨⟨hlead, -⟩, htrail⟩, -⟩, -⟩ := hok
  have hhead : p.text = p.lead ++ '\x7b' :: (p.first ++ (entriesText p.entries ++ '\x7d' :: p.trail)) := by
    simp [Payload.text]
  have hlast : p.text.reverse = p.trail.reverse ++
      '\x7d' :: (p.lead ++ '\x7b' :: (p.first ++ entriesText p.entries)).reverse := by simp [Payload.text]
  unfold looksLikeJsonObject
  rw [hlast, dropWhile_blank (by rw [List.all_reverse]; exact htrail) rfl, hhead, dropWhile_blank hlead rfl]
  rfl

end Gateway
