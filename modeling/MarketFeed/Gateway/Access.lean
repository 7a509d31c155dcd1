import MarketFeed.Gateway.Cpp
import MarketFeed.Gateway.EntitlementFile
import MarketFeed.Gateway.Payload
/-!
# The two gateways answer alike (entitlements.py:46-88, tcp_gateway.py:335-361, cpp/src/tcp_gateway.cpp:145-201,
:576-619)

The C++ scanner is made for requests that are written plainly. On these, and on files whose white space is plain,
the two gateways set one filter and one mode, and refuse the same.
-/

namespace Gateway

variable {P : Type}

/-- `load`, of no file or one that can be read. -/
def loadPy : Option (List Char) → Entitlements
  | none => ⟨[], false⟩
  | some text => parse text

def loadOfCpp : Option (List Char) → Entitlements
  | none => ⟨[], false⟩
  | some text => loadCpp text

/-- An empty list asks for what no list asks for. -/
theorem resolve_nil (e : Entitlements) (token : String) : e.resolve token (some []) = e.resolve token none := by
  unfold Entitlements.resolve
  rfl

/-- Both resolvers, given what the request names. -/
theorem resolve_request (e : Entitlements) (p : Payload) (hok : p.ok = true) :
    ∃ a mode, (∀ s : Sub P, s.subscribe e p.request =
      some (Sub.changeMode mode (s.answered (((p.member "token").bind Member.string).getD "") a))) ∧
      a.strings = Cpp.answerTo e p.text ∧ mode = (jsonString p.text "mode").bind modeOf := by
  have htoken := @jsonString_eq p hok "token" (by decide) (by decide)
  have hmode := @jsonString_eq p hok "mode" (by decide) (by decide)
  have hresolve := resolve_texts e (((p.member "token").bind Member.string).getD "")
    ((p.member "symbols").bind Member.strings)
  obtain ⟨a, ha, hstrings⟩ := Option.map_eq_some_iff.1 hresolve
  refine ⟨a, ((p.member "mode").bind Member.string).bind modeOf, fun s => ?_, ?_, by rw [hmode]⟩
  · have hpy : e.resolve (((p.member "token").bind Member.string).getD "")
        (symsOrNone ((p.member "symbols").bind Member.strings)) = some a := by
      rw [← ha]
      match (p.member "symbols").bind Member.strings with
      | none => rfl
      | some [] => exact (resolve_nil e _).symm
      | some (s :: l) => rfl
    unfold Payload.request Sub.subscribe
    simp only
    rw [hpy]
    rfl
  · rw [hstrings]
    unfold Cpp.answerTo
    rw [htoken, jsonStringArray_eq hok]

/-- A request that is an object and whose answer fits a frame. -/
theorem Cpp.applySubscribe_fits {ent : Entitlements} {json : List Char} (hj : looksLikeJsonObject json = true)
    (hfits : (Cpp.ack (Cpp.answerTo ent json)).payload.length ≤ MAX_PAYLOAD) (c : Cpp.Sub) :
    (c.applySubscribe ent json).symbols = (Cpp.answerTo ent json).filter ∧
      (c.applySubscribe ent json).conflate =
        (((jsonString json "mode").bind modeOf).map fun m => decide (m = .conflate)).getD c.conflate ∧
      (c.applySubscribe ent json).placed =
        if (Cpp.answerTo ent json).why ≠ "" then c.placed ++ [.plain (Cpp.ack (Cpp.answerTo ent json))]
            else c.placed := by
  unfold Cpp.Sub.applySubscribe
  rw [hj]
  simp only [Bool.not_true, Bool.false_eq_true, if_false]
  by_cases h : (Cpp.answerTo ent json).why = ""
  · rw [if_pos h, if_neg (fun hne => hne h)]
    exact ⟨(Cpp.Sub.changeMode_symbols _ _).1, Cpp.Sub.changeMode_conflate _ _, (Cpp.Sub.changeMode_symbols _ _).2.2⟩
  · rw [if_neg h, if_pos h, if_neg (Nat.not_lt.2 hfits)]
    exact ⟨(Cpp.Sub.changeMode_symbols _ _).1, Cpp.Sub.changeMode_conflate _ _, (Cpp.Sub.changeMode_symbols _ _).2.2⟩

theorem load_eq {file : Option (List Char)} (hfile : ∀ text, file = some text → Plain text) :
    loadPy file = loadOfCpp file := by
  cases file with
  | none => rfl
  | some text => exact parse_eq_loadCpp (hfile text rfl)

def demoFile : List Char := "demo UPBIT:A # one\n".toList

def demoPayload : Payload :=
  ⟨[], [' '], [⟨.token "demo".toList, ([], [' ']), [], [' ']⟩,
    ⟨.literal "depth".toList "5".toList, ([], []), [], [' ']⟩,
    ⟨.symbols [] [⟨"UPBIT:A".toList, [], [' ']⟩, ⟨"UPBIT:B".toList, [' '], []⟩], ([' '], [' ']), [' '], []⟩], ['\n']⟩

def demoPy (file : Option (List Char)) : Sub ℕ := Sub.connected (loadPy file) []

def demoCpp (file : Option (List Char)) : Cpp.Sub := Cpp.Sub.accepted (loadOfCpp file) [] 0

/-- `{"symbols":["A]"]}`: the scanner takes the bracket in the text for the end of the list. -/
def bracketPayload : Payload := ⟨[], [], [⟨.symbols [] [⟨"A]".toList, [], []⟩], ([], []), [], []⟩], []⟩

end Gateway
