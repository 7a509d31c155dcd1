import Mathlib.Data.Finset.Card
import Mathlib.Data.List.Infix
import MarketFeed.Gateway.EntitlementFile
/-!
# The learned subscription limit (adapters/kis.py:16-19, :141-155, :192-225, :299-340)

A session requests the configured codes one after the other and then reads the answers. At `MAX SUBSCRIBE` the limit
becomes the
*number* of codes registered so far; the next sessions request the *first* so many of the configured codes. Where one
of these is refused for a reason of its own, or stands twice in the list, the later sessions register less than the
server would, down to none at all: `locked_out`.

| here | there |
| --- | --- |
| `Message` | what `_on_control` reads of `header` and `body`; an object that is missing has no fields |
| `Inbound` | what `recv` returns: a body of prices, a text `json.loads` refuses, or a message |
| `Server` | the server during one session: how many codes it registers, and the codes it does not refuse for another reason |
| `Answer` | what a message says about the registration: `registered` is a success or `ALREADY IN SUBSCRIBE` |
| `History` | the sessions of an adapter, the latest first |

Pings, prices, other rejections and unreadable texts may stand anywhere between the answers. Texts are compared with
ASCII ones, for which `upper` has the letters that matter.
-/

namespace Kis.Subscriptions

open Gateway (pySpace)

def MAX_SUBSCRIPTIONS : ℕ := 41

structure Message where
  trId : Option String
  trKey : Option String
  rtCd : Option String
  msg1 : Option String
  outputTrKey : Option String
  deriving DecidableEq

inductive Inbound
  | prices
  | unreadable
  | control (msg : Message)
  deriving DecidableEq

structure Rejection where
  trKey : Option String
  rtCd : String
  msg : String
  deriving DecidableEq

structure Adapter where
  symbols : List String
  subscribed : List String
  rejected : List Rejection
  pingpongs : ℕ
  effectiveLimit : Option ℕ
  deriving DecidableEq

/-- `upper`: the dotless i and the long s are the two other letters with a capital in ASCII. -/
def upper (text : List Char) : List Char :=
  text.map fun c => if c.toNat = 0x131 then 'I' else if c.toNat = 0x17f then 'S' else c.toUpper

namespace Message

/-- `header.get("tr_key") or …`. -/
def key (m : Message) : Option String := if m.trKey = none ∨ m.trKey = some "" then m.outputTrKey else m.trKey

def text (m : Message) : List Char := Text.strip pySpace (m.msg1.getD "").toList

def isSuccess (m : Message) (rtCd : String) : Bool := rtCd = "0" || upper m.text = "ALREADY IN SUBSCRIBE".toList

def isLimit (m : Message) : Bool := "MAX SUBSCRIBE".toList.isPrefixOf (upper m.text)

end Message

namespace Adapter

def init (kisSymbols : List String) : Adapter := ⟨kisSymbols.take MAX_SUBSCRIPTIONS, [], [], 0, none⟩

/-- `if tr_key and tr_key not in self.subscribed`. -/
def register (a : Adapter) : Option String → Adapter
  | none => a
  | some key => if key ≠ "" ∧ key ∉ a.subscribed then { a with subscribed := a.subscribed ++ [key] } else a

def reject (a : Adapter) (info : Rejection) : Adapter := { a with rejected := a.rejected ++ [info] }

def learnLimit (a : Adapter) : Adapter :=
  match a.effectiveLimit with
  | none => { a with effectiveLimit := some a.subscribed.length }
  | some limit => if a.subscribed.length < limit then { a with effectiveLimit := some a.subscribed.length } else a

/-- `_on_control`. -/
def onControl (a : Adapter) (m : Message) : Adapter :=
  if m.trId = some "PINGPONG" then { a with pingpongs := a.pingpongs + 1 }
  else
    match m.rtCd with
    | none => a
    | some rtCd =>
      if m.isSuccess rtCd then a.register m.key
      else
        let a := a.reject ⟨m.key, rtCd, String.ofList m.text⟩
        if m.isLimit then a.learnLimit else a

/-- `_on_message`, as far as the registration goes. -/
def onMessage (a : Adapter) : Inbound → Adapter
  | .control m => a.onControl m
  | _ => a

/-- What `session` requests. -/
def want (a : Adapter) : List String :=
  match a.effectiveLimit with
  | none => a.symbols
  | some limit => if limit < a.symbols.length then a.symbols.take limit else a.symbols

/-- `session` with what it receives before it ends. -/
def session (a : Adapter) (inbox : List Inbound) : Adapter :=
  inbox.foldl onMessage { a with subscribed := [], rejected := [] }

end Adapter

/-! ## The server -/

inductive Answer
  | registered (code : String)
  | full
  deriving DecidableEq

structure Server where
  capacity : ℕ
  takes : String → Bool
  capacity_pos : 0 < capacity

namespace Server

/-- The answers to the requests, after those that led to `held`. What it does not take is refused otherwise, whenever
it likes. -/
def replies (srv : Server) (held : List String) : List String → List Answer
  | [] => []
  | code :: requests =>
    if srv.takes code = false then srv.replies held requests
    else if code ∈ held then .registered code :: srv.replies held requests
    else if held.length < srv.capacity then .registered code :: srv.replies (held ++ [code]) requests
    else .full :: srv.replies held requests

/-- How many of the codes the server would register if there was no limit. -/
def acceptable (srv : Server) (codes : List String) : ℕ := (codes.filter srv.takes).toFinset.card

end Server

/-- What a message says about the registration. -/
def Message.answer (m : Message) : Option Answer :=
  if m.trId = some "PINGPONG" then none
  else
    match m.rtCd with
    | none => none
    | some rtCd =>
      if m.isSuccess rtCd then (m.key.filter (· ≠ "")).map .registered
      else if m.isLimit then some .full else none

def Inbound.answer : Inbound → Option Answer
  | .control m => m.answer
  | _ => none

structure Played where
  server : Server
  subscribed : List String

/-- Sessions in which every request was answered. -/
inductive History (kisSymbols : List String) : List Played → Adapter → Prop
  | init : History kisSymbols [] (.init kisSymbols)
  | session {past : List Played} {a : Adapter} (server : Server) (inbox : List Inbound)
      (before : History kisSymbols past a)
      (answered : inbox.filterMap Inbound.answer = server.replies [] a.want) :
      History kisSymbols (⟨server, (a.session inbox).subscribed⟩ :: past) (a.session inbox)

/-! ## The law and its condition -/

/-- What a session is to reach after the earlier ones. -/
structure Meets (symbols : List String) (past : List Server) (p : Played) : Prop where
  full : (∀ earlier ∈ past, p.server.capacity ≤ earlier.capacity) →
    p.subscribed.length = min p.server.capacity (p.server.acceptable symbols)
  one : 0 < p.server.acceptable symbols → 0 < p.subscribed.length

/-- The codes within a limit. -/
def reach (symbols : List String) : Option ℕ → List String
  | none => symbols
  | some limit => symbols.take limit

def lower (n : ℕ) : Option ℕ → Option ℕ
  | none => some n
  | some limit => some (min n limit)

/-- The limit after a session: the server's, where it met more codes than it registers. -/
def learned (symbols : List String) : List Server → Option ℕ
  | [] => none
  | srv :: past =>
    let limit := learned symbols past
    if srv.capacity < srv.acceptable (reach symbols limit) then lower srv.capacity limit else limit

/-- The codes beyond the learned limit are not needed. -/
structure Within (symbols : List String) (past : List Server) (srv : Server) : Prop where
  full : (∀ earlier ∈ past, srv.capacity ≤ earlier.capacity) →
    srv.capacity ≤ srv.acceptable (reach symbols (learned symbols past)) ∨
      srv.acceptable (reach symbols (learned symbols past)) = srv.acceptable symbols
  one : 0 < srv.acceptable symbols → 0 < srv.acceptable (reach symbols (learned symbols past))

/-! ## The registration alone -/

/-- What a session is about. -/
@[ext] structure Book where
  subscribed : List String
  limit : Option ℕ

def Book.note (b : Book) : Answer → Book
  | .registered code => if code ∈ b.subscribed then b else { b with subscribed := b.subscribed ++ [code] }
  | .full => { b with limit := lower b.subscribed.length b.limit }

namespace Adapter

def book (a : Adapter) : Book := ⟨a.subscribed, a.effectiveLimit⟩

@[simp] theorem book_reject (a : Adapter) (info : Rejection) : (a.reject info).book = a.book := rfl

theorem book_register (a : Adapter) (key : Option String) :
    (a.register key).book = (((key.filter (· ≠ "")).map Answer.registered).elim a.book a.book.note) := by
  cases key with
  | none => rfl
  | some code =>
    by_cases hempty : code = ""
    · simp [register, hempty, Option.filter_some]
    · by_cases hmem : code ∈ a.subscribed <;> simp [register, book, Book.note, hempty, hmem, Option.filter_some]

theorem book_learnLimit (a : Adapter) : a.learnLimit.book = a.book.note .full := by
  unfold learnLimit Book.note book
  cases h : a.effectiveLimit with
  | none => simp [lower]
  | some limit =>
    by_cases hlt : a.subscribed.length < limit
    · simp [lower, hlt, hlt.le]
    · simp [lower, hlt, h, Nat.le_of_not_lt hlt]

@[simp] theorem reject_symbols (a : Adapter) (info : Rejection) : (a.reject info).symbols = a.symbols := rfl

@[simp] theorem register_symbols (a : Adapter) (key : Option String) : (a.register key).symbols = a.symbols := by
  cases key with
  | none => rfl
  | some code =>
    unfold register
    dsimp only
    split <;> rfl

@[simp] theorem learnLimit_symbols (a : Adapter) : a.learnLimit.symbols = a.symbols := by
  unfold learnLimit
  cases a.effectiveLimit with
  | none => rfl
  | some limit =>
    dsimp only
    split <;> rfl

/-- A message changes the registration by its answer. -/
theorem book_onMessage (a : Adapter) (i : Inbound) : (a.onMessage i).book = i.answer.elim a.book a.book.note := by
  cases i with
  | prices => rfl
  | unreadable => rfl
  | control m =>
    simp only [onMessage, onControl, Inbound.answer, Message.answer]
    by_cases hping : m.trId = some "PINGPONG"
    · simp [hping, book]
    · simp only [hping, if_false]
      cases m.rtCd with
      | none => rfl
      | some rtCd =>
        by_cases hsuccess : m.isSuccess rtCd = true
        · simpa [hsuccess] using a.book_register m.key
        · by_cases hlimit : m.isLimit = true
          · simp [hsuccess, hlimit, book_learnLimit]
          · simp [hsuccess, hlimit]

@[simp] theorem onMessage_symbols (a : Adapter) (i : Inbound) : (a.onMessage i).symbols = a.symbols := by
  cases i with
  | prices => rfl
  | unreadable => rfl
  | control m =>
    unfold onMessage onControl
    dsimp only
    split
    · rfl
    · cases m.rtCd with
      | none => rfl
      | some rtCd =>
        dsimp only
        split_ifs <;> simp

theorem book_messages (inbox : List Inbound) (a : Adapter) :
    (inbox.foldl onMessage a).book = (inbox.filterMap Inbound.answer).foldl Book.note a.book ∧
      (inbox.foldl onMessage a).symbols = a.symbols := by
  induction inbox generalizing a with
  | nil => exact ⟨rfl, rfl⟩
  | cons i inbox ih =>
    obtain ⟨hbook, hsymbols⟩ := ih (a.onMessage i)
    refine ⟨?_, by simpa using hsymbols⟩
    rw [List.foldl_cons, hbook, book_onMessage]
    cases h : i.answer <;> simp [h]

theorem want_eq (a : Adapter) : a.want = reach a.symbols a.effectiveLimit := by
  unfold want reach
  cases a.effectiveLimit with
  | none => rfl
  | some limit =>
    by_cases hlt : limit < a.symbols.length
    · simp [hlt]
    · simp [hlt, List.take_of_length_le (Nat.le_of_not_lt hlt)]

end Adapter

/-! ## One session -/

@[simp] theorem lower_lower (n : ℕ) (limit : Option ℕ) : lower n (lower n limit) = lower n limit := by
  cases limit <;> simp [lower]

/-- The codes a server comes to hold. -/
def Server.held (srv : Server) (b : Book) (requests : List String) : Finset String :=
  b.subscribed.toFinset ∪ (requests.filter srv.takes).toFinset

theorem Server.held_cons (srv : Server) (b : Book) {code : String} (requests : List String)
    (htakes : srv.takes code = true) :
    srv.held b (code :: requests) = insert code (srv.held b requests) := by
  simp [Server.held, htakes]

theorem Server.length_le_held (srv : Server) {b : Book} (hdistinct : b.subscribed.Nodup) (requests : List String) :
    b.subscribed.length ≤ (srv.held b requests).card := by
  rw [← List.toFinset_card_of_nodup hdistinct]
  apply Finset.card_le_card
  exact Finset.subset_union_left

/-- A code that is turned away is one too many. -/
theorem Server.length_lt_held (srv : Server) {b : Book} (hdistinct : b.subscribed.Nodup)
    {code : String} (htakes : srv.takes code = true)
    (hmem : code ∉ b.subscribed) (requests : List String) :
    b.subscribed.length < (srv.held b (code :: requests)).card := by
  have hsub : insert code b.subscribed.toFinset ⊆ srv.held b (code :: requests) := by
    rw [srv.held_cons b requests htakes]
    apply Finset.insert_subset_insert
    exact Finset.subset_union_left
  have hcard : (insert code b.subscribed.toFinset).card = b.subscribed.length + 1 := by
    rw [Finset.card_insert_of_notMem (by simpa using hmem), List.toFinset_card_of_nodup hdistinct]
  have := Finset.card_le_card hsub
  omega

/-- A code that is registered is held whether it still stands among the requests or not. -/
theorem Server.held_register (srv : Server) (b : Book) {code : String} (requests : List String)
    (htakes : srv.takes code = true) :
    srv.held { b with subscribed := b.subscribed ++ [code] } requests = srv.held b (code :: requests) := by
  rw [srv.held_cons b requests htakes]
  ext x
  simp only [Server.held, List.toFinset_append, Finset.mem_union, Finset.mem_insert, List.mem_toFinset,
    List.mem_singleton]
  tauto

/-- **As many codes are registered as there is room for, and the limit is lowered where one is left over.** -/
theorem note_replies (srv : Server) (requests : List String) (b : Book) (hdistinct : b.subscribed.Nodup)
    (hroom : b.subscribed.length ≤ srv.capacity) :
    ((srv.replies b.subscribed requests).foldl Book.note b).subscribed.length = min srv.capacity
      (srv.held b requests).card ∧
    ((srv.replies b.subscribed requests).foldl Book.note b).limit =
      if srv.capacity < (srv.held b requests).card then lower srv.capacity b.limit else b.limit := by
  induction requests generalizing b with
  | nil =>
    have hcard : (srv.held b []).card = b.subscribed.length := by
      simpa [Server.held] using List.toFinset_card_of_nodup hdistinct
    simp [Server.replies, hcard, hroom]
  | cons code requests ih =>
    by_cases htakes : srv.takes code = true
    · by_cases hmem : code ∈ b.subscribed
      · have hsame : srv.held b (code :: requests) = srv.held b requests := by
          rw [srv.held_cons b requests htakes]
          apply Finset.insert_eq_self.2
          simp [Server.held, hmem]
        have hnote : b.note (.registered code) = b := if_pos hmem
        simpa [Server.replies, htakes, hmem, hnote, hsame] using ih b hdistinct hroom
      · by_cases hlt : b.subscribed.length < srv.capacity
        · have hnote : b.note (.registered code) = { b with subscribed := b.subscribed ++ [code] } := if_neg hmem
          have hlen : (b.subscribed ++ [code]).length ≤ srv.capacity := by
            rw [List.length_append]
            exact hlt
          have hnodup : (b.subscribed ++ [code]).Nodup := by
            rw [← List.concat_eq_append]
            exact hdistinct.concat hmem
          have hnext := srv.held_register b requests htakes
          simpa [Server.replies, htakes, hmem, hlt, hnote, hnext] using ih
            { b with subscribed := b.subscribed ++ [code] } hnodup hlen
        · -- no room: every code that follows is held already or turned away as well
          have hfull : b.subscribed.length = srv.capacity := by omega
          have hmore := srv.length_lt_held hdistinct htakes hmem requests
          have hrest := srv.length_le_held hdistinct requests
          rw [hfull] at hmore hrest
          obtain ⟨hlength, hlimit⟩ := ih (b.note .full) hdistinct hroom
          have hreplies : srv.replies b.subscribed (code :: requests) = .full :: srv.replies b.subscribed requests := by
            simp [Server.replies, htakes, hmem, hlt]
          have hnote : b.note .full = { b with limit := lower srv.capacity b.limit } := by rw [Book.note, hfull]
          have hsame : srv.held (b.note .full) requests = srv.held b requests := rfl
          rw [hsame] at hlength hlimit
          rw [hreplies, List.foldl_cons, if_pos hmore, Nat.min_eq_left hmore.le]
          constructor
          · rwa [Nat.min_eq_left hrest] at hlength
          · rw [hnote, lower_lower, ite_self] at hlimit
            rw [hnote]
            exact hlimit
    · have hsame : srv.held b (code :: requests) = srv.held b requests := by simp [Server.held, htakes]
      simpa [Server.replies, htakes, hsame] using ih b hdistinct hroom

/-- An answered session that began with the limit of `a`. -/
theorem session_registers {srv : Server} {a : Adapter} {inbox : List Inbound}
    (answered : inbox.filterMap Inbound.answer = srv.replies [] a.want) :
    (a.session inbox).subscribed.length = min srv.capacity (srv.acceptable a.want) ∧
    (a.session inbox).effectiveLimit = (if srv.capacity < srv.acceptable a.want then
      lower srv.capacity a.effectiveLimit else a.effectiveLimit) ∧
    (a.session inbox).symbols = a.symbols := by
  obtain ⟨hbook, hsymbols⟩ := Adapter.book_messages inbox { a with subscribed := [], rejected := [] }
  rw [answered] at hbook
  obtain ⟨hlength, hlimit⟩ := note_replies srv a.want ⟨[], a.effectiveLimit⟩ List.nodup_nil (Nat.zero_le _)
  have hheld : srv.held ⟨[], a.effectiveLimit⟩ a.want = (a.want.filter srv.takes).toFinset := by simp [Server.held]
  rw [hheld] at hlength hlimit
  refine ⟨?_, ?_, hsymbols⟩
  · have hsubscribed := congrArg Book.subscribed hbook
    exact (congrArg List.length hsubscribed).trans hlength
  · have hafter := congrArg Book.limit hbook
    exact hafter.trans hlimit

/-! ## Histories -/

/-- **The limit in force is the learned one, and every session registered what it left within reach.** -/
theorem History.spec {kisSymbols : List String} {log : List Played} {a : Adapter} (h : History kisSymbols log a) :
    a.symbols = kisSymbols.take MAX_SUBSCRIPTIONS ∧ a.effectiveLimit = learned (kisSymbols.take MAX_SUBSCRIPTIONS)
      (log.map Played.server) ∧
    ∀ p past, p :: past <:+ log → p.subscribed.length = min p.server.capacity (p.server.acceptable
      (reach (kisSymbols.take MAX_SUBSCRIPTIONS)
      (learned (kisSymbols.take MAX_SUBSCRIPTIONS) (past.map Played.server)))) := by
  induction h with
  | init => exact ⟨rfl, rfl, fun p past hsuffix => by simp at hsuffix⟩
  | @session past a server inbox before answered ih =>
    obtain ⟨hsymbols, hlimit, hpast⟩ := ih
    obtain ⟨hlength, hafter, hsame⟩ := session_registers answered
    have hwant : a.want = reach (kisSymbols.take MAX_SUBSCRIPTIONS)
        (learned (kisSymbols.take MAX_SUBSCRIPTIONS) (past.map Played.server)) := by
      rw [Adapter.want_eq, hsymbols, hlimit]
    rw [hwant] at hlength hafter
    refine ⟨hsame.trans hsymbols, ?_, ?_⟩
    · rw [hafter, hlimit]
      rfl
    · intro p earlier hsuffix
      rcases List.suffix_cons_iff.1 hsuffix with heq | hsuffix
      · obtain ⟨rfl, rfl⟩ := List.cons.inj heq
        exact hlength
      · exact hpast p earlier hsuffix

theorem reach_subset (symbols : List String) (limit : Option ℕ) : reach symbols limit ⊆ symbols := by
  cases limit with
  | none => simp [reach]
  | some n => exact List.take_subset n symbols

/-- Nothing is gained by requesting less. -/
theorem acceptable_reach_le (srv : Server) (symbols : List String) (limit : Option ℕ) :
    srv.acceptable (reach symbols limit) ≤ srv.acceptable symbols := by
  apply Finset.card_le_card
  intro code hcode
  simp only [List.mem_toFinset, List.mem_filter] at hcode ⊢
  exact ⟨reach_subset symbols limit hcode.1, hcode.2⟩

/-- A session that registered what was within reach. -/
theorem meets_iff_within {symbols : List String} {past : List Server} {p : Played}
    (hlength : p.subscribed.length = min p.server.capacity
      (p.server.acceptable (reach symbols (learned symbols past)))) :
    Meets symbols past p ↔ Within symbols past p.server := by
  have hle := acceptable_reach_le p.server symbols (learned symbols past)
  have hpos := p.server.capacity_pos
  constructor
  · intro hmeets
    constructor
    · intro hearlier
      have := hmeets.full hearlier
      omega
    · intro hsome
      have := hmeets.one hsome
      omega
  · intro hwithin
    constructor
    · intro hearlier
      have := hwithin.full hearlier
      omega
    · intro hsome
      have := hwithin.one hsome
      omega

/-- A limit is the capacity of an earlier session. -/
theorem learned_eq_some {symbols : List String} {past : List Server} {limit : ℕ}
    (h : learned symbols past = some limit) :
    ∃ earlier ∈ past, earlier.capacity = limit := by
  induction past generalizing limit with
  | nil => cases h
  | cons srv past ih =>
    rw [learned] at h
    have hpast : learned symbols past = some limit → ∃ earlier ∈ srv :: past, earlier.capacity = limit := by
      intro hl
      obtain ⟨earlier, hmem, hcapacity⟩ := ih hl
      exact ⟨earlier, List.mem_cons_of_mem srv hmem, hcapacity⟩
    split at h
    · cases hl : learned symbols past with
      | none =>
        rw [hl] at h
        exact ⟨srv, List.mem_cons_self, Option.some.inj h⟩
      | some l =>
        rw [hl] at h
        rcases min_choice srv.capacity l with hmin | hmin
        · exact ⟨srv, List.mem_cons_self, hmin.symm.trans (Option.some.inj h)⟩
        · apply hpast
          rw [hl, ← hmin]
          exact h
    · exact hpast h

/-- **Where no code stands twice and none is refused otherwise, the first codes are as good as any.** -/
theorem within_of_takes {symbols : List String} {past : List Server} {srv : Server} (hdistinct : symbols.Nodup)
    (htakes : ∀ code ∈ symbols, srv.takes code = true) : Within symbols past srv := by
  have hcount : ∀ limit, srv.acceptable (reach symbols limit) = (reach symbols limit).length := by
    intro limit
    have hall : ∀ code ∈ reach symbols limit, srv.takes code = true :=
      fun code hcode => htakes code (reach_subset symbols limit hcode)
    have hnodup : (reach symbols limit).Nodup := by
      cases limit with
      | none => exact hdistinct
      | some n => exact hdistinct.sublist (List.take_sublist n symbols)
    rw [Server.acceptable, List.filter_eq_self.2 hall, List.toFinset_card_of_nodup hnodup]
  have hall := hcount none
  constructor
  · intro hearlier
    cases hl : learned symbols past with
    | none => exact .inr rfl
    | some limit =>
      obtain ⟨earlier, hmem, hcapacity⟩ := learned_eq_some hl
      have hle := hearlier earlier hmem
      rw [hcount, show srv.acceptable symbols = symbols.length from hall]
      simp only [reach, List.length_take]
      omega
  · intro hsome
    rw [show srv.acceptable symbols = symbols.length from hall] at hsome
    rw [hcount]
    cases hl : learned symbols past with
    | none => exact hsome
    | some limit =>
      obtain ⟨earlier, -, hcapacity⟩ := learned_eq_some hl
      have hpos := earlier.capacity_pos
      simp only [reach, List.length_take]
      omega

/-- **A history meets the law in each of its sessions just as long as the codes beyond the learned limit are never
needed.** -/
theorem sessions_meet_iff {kisSymbols : List String} {log : List Played} {a : Adapter} (h : History kisSymbols log a) :
    (∀ p past, p :: past <:+ log → Meets (kisSymbols.take MAX_SUBSCRIPTIONS) (past.map Played.server) p) ↔
    ∀ p past, p :: past <:+ log → Within (kisSymbols.take MAX_SUBSCRIPTIONS) (past.map Played.server) p.server := by
  obtain ⟨-, -, hlength⟩ := h.spec
  constructor
  · intro hmeets p past hsuffix
    exact (meets_iff_within (hlength p past hsuffix)).1 (hmeets p past hsuffix)
  · intro hwithin p past hsuffix
    exact (meets_iff_within (hlength p past hsuffix)).2 (hwithin p past hsuffix)

/-! ## Two histories -/

/-- A success, and a rejection with a text. -/
def success (code : String) : Inbound := .control ⟨some "H0STCNT0", some code, some "0", some "SUBSCRIBE SUCCESS", none⟩

def failure (code msg1 : String) : Inbound := .control ⟨some "H0STCNT0", some code, some "1", some msg1, none⟩

/-- A server that knows some codes. -/
def knows (capacity : ℕ) (h : 0 < capacity) (codes : List String) : Server := ⟨capacity, codes.contains, h⟩

def twoOfThree : Server := knows 2 (by decide) ["005930", "000660", "373220"]

def firstInbox : List Inbound := [success "005930", .prices, success "000660", failure "373220" "MAX SUBSCRIBE OVER"]

def secondInbox : List Inbound := [failure "005930" "ALREADY IN SUBSCRIBE", success "000660"]

theorem three_codes : ∃ a, History ["005930", "000660", "373220"] [⟨twoOfThree, ["005930", "000660"]⟩,
    ⟨twoOfThree, ["005930", "000660"]⟩] a := by
  have first := History.session twoOfThree firstInbox (@History.init ["005930", "000660", "373220"]) (by decide)
  have second := History.session twoOfThree secondInbox first (by decide)
  exact ⟨_, second⟩

/-- Room for two of three codes, found out in the first session and kept to in the second. -/
theorem sessions_meet_twice : ∃ a, History ["005930", "000660", "373220"]
    [⟨twoOfThree, ["005930", "000660"]⟩, ⟨twoOfThree, ["005930", "000660"]⟩] a ∧
    ∀ p past, p :: past <:+ [⟨twoOfThree, ["005930", "000660"]⟩, ⟨twoOfThree, ["005930", "000660"]⟩] →
      Meets (["005930", "000660", "373220"].take MAX_SUBSCRIPTIONS) (past.map Played.server) p := by
  obtain ⟨a, h⟩ := three_codes
  refine ⟨a, h, (sessions_meet_iff h).2 ?_⟩
  intro p past hsuffix
  have hserver : p.server = twoOfThree := by
    have hmem := hsuffix.subset List.mem_cons_self
    simp only [List.mem_cons, List.not_mem_nil, or_false, or_self] at hmem
    rw [hmem]
  rw [hserver]
  exact within_of_takes (by decide) (by decide)

def oneOfTwo : Server := knows 1 (by decide) ["005930", "000660"]

/-- The first configured code is wrong and there is room for one. The limit becomes 1, and from then on the wrong code
is all that is requested. -/
theorem locked_out : ∃ a, History ["5930", "005930", "000660"] [⟨oneOfTwo, []⟩, ⟨oneOfTwo, ["005930"]⟩] a ∧
    oneOfTwo.takes "005930" = true ∧
    ¬ ∀ p past, p :: past <:+ [⟨oneOfTwo, []⟩, ⟨oneOfTwo, ["005930"]⟩] →
      Meets (["5930", "005930", "000660"].take MAX_SUBSCRIPTIONS) (past.map Played.server) p := by
  have first := History.session oneOfTwo [failure "5930" "INVALID CODE", success "005930",
    failure "000660" "MAX SUBSCRIBE OVER"]
    (@History.init ["5930", "005930", "000660"]) (by decide)
  have second := History.session oneOfTwo [failure "5930" "INVALID CODE"] first (by decide)
  refine ⟨_, second, by decide, ?_⟩
  intro hmeets
  have hone := (hmeets _ _ (List.suffix_refl _)).one (by decide)
  exact absurd hone (by decide)

end Kis.Subscriptions
