import Mathlib.Data.List.Basic
import Mathlib.Tactic.Common
/-!
# Paths (posixpath: `join`, `normpath`, `abspath`)

A path is the list of its characters. `normpath` splits at the slashes and drops what is empty or `.`, and with each
`..` what is before it; of an absolute path nothing but names is left (`normpath_normal`). A path that continues a
normal one behind a slash, and is normal itself, is reached from it by joining names: `Inside`.
-/

namespace Path

abbrev Text := List Char

/-- One component that leads from a directory to an entry of it. -/
structure IsName (n : Text) : Prop where
  ne_nil : n ≠ []
  ne_dot : n ≠ ['.']
  ne_dotdot : n ≠ ['.', '.']
  no_slash : '/' ∉ n

def isabs (p : Text) : Bool := p.head? == some '/'

def join (a b : Text) : Text :=
  if isabs b || a.isEmpty then b else if a.getLast? == some '/' then a ++ b else a ++ '/' :: b

/-- How many slashes of those at the beginning stay: three and more are one. -/
def slashes : Text → ℕ
  | '/' :: '/' :: '/' :: _ => 1
  | '/' :: '/' :: _ => 2
  | '/' :: _ => 1
  | _ => 0

/-- One component in the loop of `normpath`. -/
def normComp (rooted : Bool) (done : List Text) (comp : Text) : List Text :=
  if comp = [] ∨ comp = ['.'] then done
  else if comp ≠ ['.', '.'] ∨ (rooted = false ∧ done = []) ∨ done.getLast? = some ['.', '.'] then done ++ [comp]
  else done.dropLast

def normpath (p : Text) : Text :=
  let out := List.replicate (slashes p) '/' ++ ['/'].intercalate ((p.splitOn '/').foldl (normComp (isabs p)) [])
  if out = [] then ['.'] else out

def abspath (cwd p : Text) : Text := normpath (if isabs p then p else join cwd p)

/-- A path to a directory, and one from there by names. -/
def Inside (root p : Text) : Prop := ∃ names : List Text, (∀ n ∈ names, IsName n) ∧ p = names.foldl join root

/-! ## What is inside -/

theorem inside_self (root : Text) : Inside root root := ⟨[], fun _ h => (by cases h), rfl⟩

theorem inside_join {root p n : Text} (h : Inside root p) (hn : IsName n) : Inside root (join p n) := by
  obtain ⟨names, hnames, rfl⟩ := h
  refine ⟨names ++ [n], fun m hm => ?_, by rw [List.foldl_append]; rfl⟩
  rcases List.mem_append.1 hm with hm | hm
  · exact hnames m hm
  · rwa [List.mem_singleton.1 hm]

/-! ## Names -/

theorem isName_head {n : Text} (h : IsName n) : ∃ c rest, n = c :: rest ∧ c ≠ '/' := by
  rcases n with _ | ⟨c, rest⟩
  · exact absurd rfl h.ne_nil
  · exact ⟨c, rest, rfl, fun hc => h.no_slash (hc ▸ List.mem_cons_self)⟩

theorem isName_last {n : Text} (h : IsName n) (a : Text) : (a ++ n).getLast? ≠ some '/' ∧ a ++ n ≠ [] := by
  refine ⟨fun hlast => ?_, List.append_ne_nil_of_right_ne_nil a h.ne_nil⟩
  rw [List.getLast?_append_of_ne_nil _ h.ne_nil] at hlast
  exact h.no_slash (List.mem_of_getLast? hlast)

theorem join_name {a n : Text} (hne : a ≠ []) (hlast : a.getLast? ≠ some '/') (hn : IsName n) :
    join a n = a ++ '/' :: n := by
  obtain ⟨c, rest, rfl, hc⟩ := isName_head hn
  have hrel : isabs (c :: rest) = false := by simpa [isabs] using hc
  have hsome : a.isEmpty = false := by simpa using hne
  rw [join, hrel, hsome, if_neg (by decide), if_neg (by simpa using hlast)]

theorem foldl_join {a : Text} (hne : a ≠ []) (hlast : a.getLast? ≠ some '/')
    {names : List Text} (h : ∀ n ∈ names, IsName n) :
    names.foldl join a = a ++ names.flatMap ('/' :: ·) := by
  induction names generalizing a with
  | nil => simp
  | cons n names ih =>
    have hn := h n List.mem_cons_self
    obtain ⟨hlast', hne'⟩ := isName_last hn (a ++ ['/'])
    rw [List.append_assoc, List.singleton_append] at hlast' hne'
    rw [List.foldl_cons, join_name hne hlast hn, ih hne' hlast' fun m hm => h m (List.mem_cons_of_mem n hm)]
    simp

theorem intercalate_cons (n : Text) (names : List Text) :
    ['/'].intercalate (n :: names) = n ++ names.flatMap ('/' :: ·) := by
  induction names generalizing n with
  | nil => simp [List.intercalate]
  | cons m names ih =>
    have := ih m
    simp_all [List.intercalate, List.intersperse]

/-! ## Normal paths -/

/-- One or two slashes, and names between slashes. -/
structure Normal (k : ℕ) (names : List Text) (p : Text) : Prop where
  rooted : k = 1 ∨ k = 2
  isName : ∀ n ∈ names, IsName n
  eq : p = List.replicate k '/' ++ ['/'].intercalate names

theorem normComp_names {done : List Text} {comp : Text} (hdone : ∀ n ∈ done, IsName n) (hcomp : '/' ∉ comp) :
    ∀ n ∈ normComp true done comp, IsName n := by
  unfold normComp
  split
  · exact hdone
  · rename_i hkeep
    rw [not_or] at hkeep
    split
    · rename_i hname
      have hne : comp ≠ ['.', '.'] := by
        rcases hname with h | ⟨h, -⟩ | h
        · exact h
        · cases h
        · exact absurd rfl (hdone _ (List.mem_of_getLast? h)).ne_dotdot
      intro n hn
      rcases List.mem_append.1 hn with hn | hn
      · exact hdone n hn
      · rw [List.mem_singleton.1 hn]
        exact ⟨hkeep.1, hkeep.2, hne, hcomp⟩
    · exact fun n hn => hdone n (List.dropLast_subset done hn)

theorem slashes_of_isabs {p : Text} (h : isabs p = true) : slashes p = 1 ∨ slashes p = 2 := by
  obtain ⟨rest, rfl⟩ : ∃ rest, p = '/' :: rest := by
    rcases p with _ | ⟨c, rest⟩
    · cases h
    · exact ⟨rest, by simpa [isabs] using h⟩
  unfold slashes
  split <;> simp_all

theorem slashes_replicate {k : ℕ} (hk : k = 1 ∨ k = 2) {c : Char} (hc : c ≠ '/') (rest : Text) :
    slashes (List.replicate k '/' ++ c :: rest) = k := by
  rcases hk with rfl | rfl <;> simp [slashes, List.replicate, hc]

theorem notMem_of_mem_splitOn {l piece : Text} (h : piece ∈ l.splitOn '/') : '/' ∉ piece := by
  induction l generalizing piece with
  | nil =>
    rw [List.splitOn_nil, List.mem_singleton] at h
    rw [h]
    exact List.not_mem_nil
  | cons c l ih =>
    rw [List.splitOn_cons_eq_if_modifyHead] at h
    split at h
    · rcases List.mem_cons.1 h with rfl | h
      · exact List.not_mem_nil
      · exact ih h
    · rename_i hc
      cases hs : l.splitOn '/' with
      | nil => exact absurd hs (List.splitOn_ne_nil '/' l)
      | cons first rest =>
        rw [hs, List.modifyHead_cons] at h
        rcases List.mem_cons.1 h with rfl | h
        · rw [List.mem_cons, not_or]
          exact ⟨fun heq => hc (beq_iff_eq.2 heq.symm), ih (by rw [hs]; exact List.mem_cons_self)⟩
        · exact ih (by rw [hs]; exact List.mem_cons_of_mem first h)

/-- An absolute path has nothing but names after `normpath`. -/
theorem normpath_normal {p : Text} (h : isabs p = true) : ∃ names, Normal (slashes p) names (normpath p) := by
  have hk := slashes_of_isabs h
  have hnames : ∀ n ∈ (p.splitOn '/').foldl (normComp true) [], IsName n := by
    have hcomps : ∀ comp ∈ p.splitOn '/', '/' ∉ comp := fun comp => notMem_of_mem_splitOn
    generalize p.splitOn '/' = comps at hcomps
    have hdone : ∀ n ∈ ([] : List Text), IsName n := fun _ hn => (by cases hn)
    generalize ([] : List Text) = done at hdone
    induction comps generalizing done with
    | nil => exact hdone
    | cons comp comps ih =>
      exact ih (fun c hc => hcomps c (List.mem_cons_of_mem comp hc))
        _ (normComp_names hdone (hcomps comp List.mem_cons_self))
  refine ⟨_, hk, hnames, ?_⟩
  rw [normpath, h]
  refine if_neg ?_
  rcases hk with hk | hk <;> simp [hk]

theorem normal_last {k : ℕ} {n : Text} {names : List Text} {root : Text} (h : Normal k (n :: names) root) :
    root.getLast? ≠ some '/' ∧ root ≠ [] := by
  have heq := h.eq
  rw [intercalate_cons] at heq
  rcases List.eq_nil_or_concat names with hnone | ⟨init, m, hm⟩
  · rw [hnone, List.flatMap_nil, List.append_nil] at heq
    rw [heq]
    exact isName_last (h.isName n List.mem_cons_self) _
  · have hlast : root = (List.replicate k '/' ++ n ++ init.flatMap ('/' :: ·) ++ ['/']) ++ m := by
      rw [heq, hm]
      simp
    rw [hlast]
    exact isName_last (h.isName m (by simp [hm])) _

/-- What continues a normal path behind a slash, and is normal with as many slashes, is inside. -/
theorem inside_of_prefix {k : ℕ} {names names' : List Text} {root p : Text} (hroot : Normal k names root)
    (hp : Normal k names' p)
    (h : (root ++ ['/']) <+: p) : Inside root p := by
  obtain ⟨s, hs⟩ := h
  have hcut : ['/'].intercalate names' = ['/'].intercalate names ++ '/' :: s := by
    have heq := hp.eq
    rw [← hs, hroot.eq, List.append_assoc, List.append_assoc, List.singleton_append] at heq
    exact (List.append_cancel_left heq).symm
  have hne' : names' ≠ [] := by
    rintro rfl
    simp at hcut
  cases names with
  | nil =>
    -- behind the slashes of the root there is a name
    obtain ⟨n, rest, rfl⟩ := List.exists_cons_of_ne_nil hne'
    obtain ⟨c, tail, rfl, hc⟩ := isName_head (hp.isName n List.mem_cons_self)
    rw [intercalate_cons] at hcut
    simp only [List.intercalate_nil, List.nil_append, List.cons_append, List.cons.injEq] at hcut
    exact absurd hcut.1 hc
  | cons n names =>
    obtain ⟨hlast, hne⟩ := normal_last hroot
    have hsplit := congrArg (List.splitOn '/') hcut
    rw [List.splitOn_intercalate _ (fun m hm => (hp.isName m hm).no_slash) hne', List.splitOn_append_cons_self,
      List.splitOn_intercalate _ (fun m hm => (hroot.isName m hm).no_slash) (List.cons_ne_nil n names)] at hsplit
    have hmore : ∀ m ∈ s.splitOn '/', IsName m :=
      fun m hm => hp.isName m (by rw [hsplit]; exact List.mem_append_right _ hm)
    refine ⟨s.splitOn '/', hmore, ?_⟩
    rw [foldl_join hne hlast hmore, ← hs]
    obtain ⟨first, rest, hpieces⟩ := List.exists_cons_of_ne_nil (List.splitOn_ne_nil '/' s)
    have hs' : s = first ++ rest.flatMap ('/' :: ·) := by
      rw [← intercalate_cons, ← hpieces, List.intercalate_splitOn]
    rw [hpieces, hs']
    simp

/-- Joining what is relative to a normal path keeps its slashes. -/
theorem slashes_join {k : ℕ} {names : List Text} {root : Text} (hroot : Normal k names root)
    {rel : Text} (hne : rel ≠ [])
    (hrel : isabs rel = false) : slashes (join root rel) = k ∧ isabs (join root rel) = true := by
  have hform : ∃ c rest, join root rel = List.replicate k '/' ++ c :: rest ∧ c ≠ '/' := by
    cases names with
    | nil =>
      obtain ⟨c, rest, rfl⟩ := List.exists_cons_of_ne_nil hne
      have heq : root = List.replicate k '/' := by simpa using hroot.eq
      refine ⟨c, rest, ?_, by simpa [isabs] using hrel⟩
      rw [join, hrel, heq]
      rcases hroot.rooted with rfl | rfl <;> rfl
    | cons n names =>
      obtain ⟨hlast, hsome⟩ := normal_last hroot
      obtain ⟨c, tail, rfl, hc⟩ := isName_head (hroot.isName n List.mem_cons_self)
      have hjoin : join root rel = root ++ '/' :: rel := by
        have hempty : root.isEmpty = false := by simpa using hsome
        rw [join, hrel, hempty, if_neg (by decide), if_neg (by simpa using hlast)]
      refine ⟨c, tail ++ names.flatMap ('/' :: ·) ++ '/' :: rel, ?_, hc⟩
      rw [hjoin, hroot.eq, intercalate_cons]
      simp
  obtain ⟨c, rest, hjoin, hc⟩ := hform
  rw [hjoin]
  refine ⟨slashes_replicate hroot.rooted hc rest, ?_⟩
  rcases hroot.rooted with rfl | rfl <;> rfl

/-- What `abspath` makes of a relative path behind a normal one is inside that where it still begins with it. -/
theorem inside_of_checked {cwd root rel : Text} {k : ℕ} {names : List Text} (hroot : Normal k names root)
    (hne : rel ≠ [])
    (hrel : isabs rel = false) (h : (root ++ ['/']) <+: abspath cwd (join root rel) ∨
      abspath cwd (join root rel) = root) :
    Inside root (abspath cwd (join root rel)) := by
  obtain ⟨hslashes, habs⟩ := slashes_join hroot hne hrel
  rcases h with h | h
  · rw [abspath, if_pos habs] at h ⊢
    obtain ⟨names', hnormal⟩ := normpath_normal habs
    rw [hslashes] at hnormal
    exact inside_of_prefix hroot hnormal h
  · rw [h]
    exact inside_self root

/-- With an absolute directory to work in, every path has a normal one. -/
theorem abspath_normal {cwd : Text} (hcwd : isabs cwd = true) (p : Text) :
    ∃ k names, Normal k names (abspath cwd p) := by
  have habs : isabs (if isabs p then p else join cwd p) = true := by
    by_cases h : isabs p = true
    · rw [if_pos h]
      exact h
    · obtain ⟨rest, rfl⟩ : ∃ rest, cwd = '/' :: rest := by
        rcases cwd with _ | ⟨c, rest⟩
        · cases hcwd
        · exact ⟨rest, by simpa [isabs] using hcwd⟩
      rw [if_neg h, join, Bool.eq_false_iff.2 h, if_neg (by simp)]
      split <;> rfl
  obtain ⟨names, hnormal⟩ := normpath_normal habs
  exact ⟨_, names, hnormal⟩

end Path
