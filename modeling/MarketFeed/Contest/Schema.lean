import MarketFeed.Lib.Upsert
import MarketFeed.Lib.Binary64
/-!
# The contest ledger's tables (contest.py:29-91)

| here | there |
| --- | --- |
| `Tables` | the tables of `SCHEMA`; the `*Seq` are the rows of `sqlite_sequence`, `halted` is the one setting |
| `Cash` | a value of `accounts.cash`: SQLite adds 64-bit integers, and doubles from an overflow on |
| `Detail` | `kind` and `detail` of a journal line; a kind that is neither counts for nothing in a replay |
| `ChainHash` | `GENESIS` and `_chain` |
| `Reason` | the text of a rejection, by what it says |

Amounts are integers; a parameter outside 64 bits is refused when it is bound (`bindable`).
-/

namespace Contest

open Keyed

def MAX_INT : ℤ := 9223372036854775807

/-- What `sqlite3` can bind as an integer. -/
def bindable (n : ℤ) : Bool := decide (-MAX_INT - 1 ≤ n ∧ n ≤ MAX_INT)

inductive Cash
  | int (n : ℤ)
  | real (x : ℚ)
  deriving DecidableEq

def Cash.val : Cash → ℚ
  | .int n => n
  | .real x => x

@[simp] theorem Cash.val_int (n : ℤ) : (Cash.int n).val = n := rfl

/-- A double stored in an INTEGER column becomes an integer where it is one. -/
def Cash.ofReal (x : ℚ) : Cash := if x.den = 1 ∧ -MAX_INT ≤ x.num ∧ x.num < MAX_INT then .int x.num else .real x

/-- `cash + ?` -/
def Cash.add (c : Cash) (n : ℤ) : Cash :=
  match c with
  | .int m => if bindable (m + n) then .int (m + n)
      else .ofReal (Double.binary64 (Double.binary64 m + Double.binary64 n))
  | .real x => .ofReal (Double.binary64 (x + Double.binary64 n))

theorem Cash.add_int {m n : ℤ} (h : bindable (m + n) = true) : (Cash.int m).add n = .int (m + n) := if_pos h

structure Cfg where
  initialCash : ℤ
  feePpm : ℤ
  taxPpm : ℤ

/-- The defaults. -/
def defaultCfg : Cfg := ⟨10000000, 150, 2000⟩

structure Participant where
  id : ℤ
  nickname : String
  pwHash : String
  createdTs : ℚ
  deriving DecidableEq

structure Invite where
  code : String
  createdTs : ℚ
  usedBy : Option ℤ
  usedTs : Option ℚ
  deriving DecidableEq

structure Account where
  participantId : ℤ
  cash : Cash
  deriving DecidableEq

structure Position where
  participantId : ℤ
  symbol : String
  qty : ℤ
  cost : ℤ
  deriving DecidableEq

def Position.key (p : Position) : ℤ × String := (p.participantId, p.symbol)

inductive OrderState
  | filled
  | rejected
  deriving DecidableEq

inductive Reason
  | noPrice
  | lowCash (need : ℤ) (cash : Cash)
  | lowHolding (held : ℤ)
  deriving DecidableEq

structure Order where
  id : ℤ
  participantId : ℤ
  clientOrderId : String
  symbol : String
  side : String
  qty : ℤ
  price : ℤ
  amount : ℤ
  fee : ℤ
  tax : ℤ
  state : OrderState
  reason : Option Reason
  ts : ℚ
  deriving DecidableEq

def Order.clientKey (o : Order) : ℤ × String := (o.participantId, o.clientOrderId)

/-- The detail of a `fill` line. -/
structure Fill where
  orderId : ℤ
  symbol : String
  side : String
  qty : ℤ
  price : ℤ
  amount : ℤ
  fee : ℤ
  tax : ℤ
  cashDelta : ℤ
  deriving DecidableEq

inductive Detail
  | deposit (amount : ℤ)
  | fill (f : Fill)
  | other (kind : String)
  deriving DecidableEq

structure Line (H : Type) where
  id : ℤ
  ts : ℚ
  participantId : ℤ
  detail : Detail
  prevHash : H
  hash : H
  deriving DecidableEq

structure ChainHash (H : Type) where
  genesis : H
  chain : H → ℚ → ℤ → Detail → H

structure Tables (H : Type) where
  participants : List Participant
  invites : List Invite
  accounts : List Account
  positions : List Position
  orders : List Order
  journal : List (Line H)
  halted : Option String
  participantSeq : ℤ
  orderSeq : ℤ
  journalSeq : ℤ
  deriving DecidableEq

def Tables.empty {H : Type} : Tables H := ⟨[], [], [], [], [], [], none, 0, 0, 0⟩

/-- The next id of an `AUTOINCREMENT` column. -/
def nextId (seq : ℤ) (ids : List ℤ) : ℤ := ids.foldl max seq + 1

theorem le_foldl_max (seq : ℤ) (ids : List ℤ) : seq ≤ ids.foldl max seq ∧ ∀ i ∈ ids, i ≤ ids.foldl max seq := by
  induction ids generalizing seq with
  | nil => exact ⟨le_refl seq, fun i hi => (by cases hi)⟩
  | cons x xs ih =>
    obtain ⟨hle, hmem⟩ := ih (max seq x)
    refine ⟨le_trans (le_max_left seq x) hle, ?_⟩
    intro i hi
    rcases List.mem_cons.1 hi with rfl | hi
    · exact le_trans (le_max_right seq i) hle
    · exact hmem i hi

/-- A new id is above every id there is or was. -/
theorem lt_nextId (seq : ℤ) (ids : List ℤ) : seq < nextId seq ids ∧ ∀ i ∈ ids, i < nextId seq ids := by
  obtain ⟨hle, hmem⟩ := le_foldl_max seq ids
  exact ⟨Int.lt_add_one_of_le hle, fun i hi => Int.lt_add_one_of_le (hmem i hi)⟩

end Contest
