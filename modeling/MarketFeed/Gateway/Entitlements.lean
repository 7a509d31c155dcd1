import Mathlib.Data.List.Basic
import MarketFeed.Lib.Upsert
/-!
# Who may see what (entitlements.py:30-67, tcp_gateway.cpp:167-201, :580-600)

| here | there |
| --- | --- |
| `Entitlements` | the dataclass, and the struct of the same name |
| `Sym` | an element of the requested list: a string, another scalar, an array or object (which cannot be hashed) |
| a filter `some l` | the set of the strings of `l`; `none` is "all" |
| `resolve` | `Entitlements.resolve`; none where `set(...)` raises |
| `resolveCpp` | the branches of `apply_subscribe` of the C++ gateway |
-/

namespace Gateway

/-- `ALL`. -/
def ALL : String := "*"

structure Entitlements where
  byToken : List (String × List String)
  enabled : Bool
  deriving DecidableEq

namespace Entitlements

variable (e : Entitlements)

/-- `by_token.get(token)`. -/
def lookup (token : String) : Option (List String) := (Keyed.lookup Prod.fst token e.byToken).map Prod.snd

def allowed (token : String) : List String := (e.lookup token).getD []

def known (token : String) : Bool := (e.lookup token).isSome

def allowsAll (token : String) : Bool := decide (ALL ∈ e.allowed token)

end Entitlements

inductive Sym
  | text (s : String)
  | scalar
  | nested
  deriving DecidableEq

def Sym.hashable : Sym → Bool
  | .nested => false
  | _ => true

def Sym.string : Sym → Option String
  | .text s => some s
  | _ => none

/-- Is an element in a set of strings? -/
def Sym.isIn (allow : List String) : Sym → Bool
  | .text s => decide (s ∈ allow)
  | _ => false

/-- What a request is answered with: the filter, what was denied, and why. -/
structure Answer (α : Type) where
  filter : Option (List String)
  denied : List α
  why : String
  deriving DecidableEq

/-- `set(requested) if requested else None`. -/
def plainFilter : Option (List Sym) → Option (Option (List String))
  | none | some [] => some none
  | some syms => if syms.all Sym.hashable then some (some (syms.filterMap Sym.string)) else none

def Entitlements.resolve (e : Entitlements) (token : String) (requested : Option (List Sym)) : Option (Answer Sym) :=
  if !e.enabled then (plainFilter requested).map fun filter => ⟨filter, [], ""⟩
  else if token = "" then some ⟨some [], requested.getD [], "TOKEN_REQUIRED"⟩
  else if !e.known token then some ⟨some [], requested.getD [], "UNKNOWN_TOKEN"⟩
  else if e.allowsAll token then (plainFilter requested).map fun filter => ⟨filter, [], ""⟩
  else
    match requested with
    | none | some [] => some ⟨some (e.allowed token), [], ""⟩
    | some syms =>
      if syms.all Sym.hashable then
        let denied := syms.filter fun s => !s.isIn (e.allowed token)
        some ⟨some ((syms.filter (Sym.isIn (e.allowed token))).filterMap Sym.string), denied, if denied ≠ [] then
          "NOT_ENTITLED" else ""⟩
      else none

/-- `if (syms && !syms->empty()) s.symbols = ...; else s.symbols.reset();`. -/
def plainFilterCpp : Option (List String) → Option (List String)
  | none | some [] => none
  | some syms => some syms

def Entitlements.resolveCpp (e : Entitlements) (token : String) (syms : Option (List String)) : Answer String :=
  if !e.enabled then ⟨plainFilterCpp syms, [], ""⟩
  else if token = "" then ⟨some [], syms.getD [], "TOKEN_REQUIRED"⟩
  else if !e.known token then ⟨some [], syms.getD [], "UNKNOWN_TOKEN"⟩
  else if e.allowsAll token then ⟨plainFilterCpp syms, [], ""⟩
  else
    match syms with
    | none | some [] => ⟨some (e.allowed token), [], ""⟩
    | some syms =>
      let denied := syms.filter fun s => !decide (s ∈ e.allowed token)
      ⟨some (syms.filter fun s => decide (s ∈ e.allowed token)), denied, if denied ≠ [] then "NOT_ENTITLED" else ""⟩

/-! ## What a filter lets through -/

/-- `wants`. -/
def wants (filter : Option (List String)) (key : String) : Bool :=
  match filter with
  | none => true
  | some syms => decide (key ∈ syms)

/-- Is the symbol granted to the token? Without entitlements everything is. -/
def Entitlements.grants (e : Entitlements) (token key : String) : Bool :=
  !e.enabled || (decide (token ≠ "") && (e.allowsAll token || decide (key ∈ e.allowed token)))

theorem resolve_grants {e : Entitlements} {token key : String} {requested : Option (List Sym)} {a : Answer Sym}
    (h : e.resolve token requested = some a) (hw : wants a.filter key = true) : e.grants token key = true := by
  unfold Entitlements.resolve at h
  unfold Entitlements.grants
  split at h
  · simp_all
  · split at h
    · cases h
      simp [wants] at hw
    · split at h
      · cases h
        simp [wants] at hw
      · split at h
        · simp_all
        · split at h
          · cases h
            simp_all [wants]
          · cases h
            simp_all [wants]
          · split at h
            · cases h
              simp only [wants, List.mem_filterMap, List.mem_filter, decide_eq_true_eq] at hw
              obtain ⟨s, ⟨-, hin⟩, hs⟩ := hw
              cases s with
              | text s =>
                obtain rfl : s = key := Option.some.inj hs
                simp only [Sym.isIn, decide_eq_true_eq] at hin
                simp_all
              | scalar => cases hs
              | nested => cases hs
            · cases h

theorem resolveCpp_grants {e : Entitlements} {token key : String} {syms : Option (List String)}
    (hw : wants (e.resolveCpp token syms).filter key = true) : e.grants token key = true := by
  unfold Entitlements.resolveCpp at hw
  unfold Entitlements.grants
  split at hw
  · simp_all
  · split at hw
    · simp [wants] at hw
    · split at hw
      · simp [wants] at hw
      · split at hw
        · simp_all
        · split at hw <;> simp_all [wants]

/-! ## The two resolvers -/

theorem strings_texts (l : List String) : (l.map Sym.text).filterMap Sym.string = l := by
  rw [List.filterMap_map]
  exact List.filterMap_some

theorem hashable_texts (l : List String) : (l.map Sym.text).all Sym.hashable = true := by
  rw [List.all_map]
  exact List.all_eq_true.2 fun _ _ => rfl

theorem plainFilter_texts (syms : Option (List String)) :
    plainFilter (syms.map fun l => l.map Sym.text) = some (plainFilterCpp syms) := by
  match syms with
  | none => rfl
  | some [] => rfl
  | some (s :: l) =>
    show (if ((s :: l).map Sym.text).all Sym.hashable then some (some (((s :: l).map Sym.text).filterMap Sym.string))
        else none) = _
    rw [hashable_texts, strings_texts]
    rfl

/-- An answer to a list of strings, read as the C++ side writes it. -/
def Answer.strings (a : Answer Sym) : Answer String := ⟨a.filter, a.denied.filterMap Sym.string, a.why⟩

/-- On strings the two resolvers are one. -/
theorem resolve_texts (e : Entitlements) (token : String) (syms : Option (List String)) :
    (e.resolve token (syms.map fun l => l.map Sym.text)).map Answer.strings = some (e.resolveCpp token syms) := by
  have hdenied : ((syms.map fun l => l.map Sym.text).getD []).filterMap Sym.string = syms.getD [] := by
    cases syms with
    | none => rfl
    | some l => exact strings_texts l
  unfold Entitlements.resolve Entitlements.resolveCpp
  by_cases h1 : (!e.enabled) = true
  · rw [if_pos h1, if_pos h1, plainFilter_texts]
    rfl
  rw [if_neg h1, if_neg h1]
  by_cases h2 : token = ""
  · rw [if_pos h2, if_pos h2, Option.map_some, Answer.strings, hdenied]
  rw [if_neg h2, if_neg h2]
  by_cases h3 : (!e.known token) = true
  · rw [if_pos h3, if_pos h3, Option.map_some, Answer.strings, hdenied]
  rw [if_neg h3, if_neg h3]
  by_cases h4 : e.allowsAll token = true
  · rw [if_pos h4, if_pos h4, plainFilter_texts]
    rfl
  rw [if_neg h4, if_neg h4]
  match syms with
  | none => rfl
  | some [] => rfl
  | some (s :: l) =>
    simp only [Option.map_some, List.map_cons]
    rw [← List.map_cons, hashable_texts, if_pos rfl]
    have hin : (Sym.isIn (e.allowed token)) ∘ Sym.text = fun s => decide (s ∈ e.allowed token) := rfl
    have hout : (fun s => !Sym.isIn (e.allowed token) s) ∘ Sym.text = fun s => !decide (s ∈ e.allowed token) := rfl
    simp only [Option.map_some, Answer.strings, List.filter_map, hin, hout, strings_texts, ne_eq, List.map_eq_nil_iff]

end Gateway
