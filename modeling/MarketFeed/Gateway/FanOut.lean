import Mathlib.Algebra.Group.Nat.Defs
import Mathlib.Data.List.Sort
import Mathlib.Data.Nat.Basic
import MarketFeed.Lib.Rotation
/-!
# The rotated fan-out of the C++ gateway (cpp/src/tcp_gateway.cpp:331-349, :516-521, :620-625)

A batch is written to the subscribers from a cursor on, and the cursor moves on by one. It is the id of a subscriber,
who may have gone since: then the batch starts behind the gap, the cursor moves to the very subscriber it started at,
and the next batch starts there as well (`first_twice`).

| here | there |
| --- | --- |
| `Hub.subs` | the keys of `subs_`, in its order |
| `around` | the `do` loop: `it` from `start` until it is there again |
| `visited` | the ids `fn` is called with, in order |
| `Hub.firsts` | the first of each call among the acts |

`fn` and what it calls leave `subs_` alone (a subscriber to be closed is put down in `to_close_`).
-/

namespace Gateway.FanOut

open Rotation

structure Hub where
  subs : List ℕ
  nextId : ℕ
  rotateCursor : ℕ
  deriving DecidableEq

inductive Act
  | accept
  | close (id : ℕ)
  | call
  deriving DecidableEq

/-- The `do` loop, for at most `fuel` turns. -/
def around (l : List ℕ) (start : ℕ) : ℕ → ℕ → List ℕ
  | 0, _ => []
  | fuel + 1, it => l[it]?.toList ++ if wrap l (it + 1) = start then [] else around l start fuel (wrap l (it + 1))

namespace Hub

def start : Hub := ⟨[], 0, 0⟩

/-- What `for_each_sub_rotated` visits. -/
def visited (h : Hub) : List ℕ :=
  if h.subs = [] then [] else around h.subs (startIndex h.subs h.rotateCursor) h.subs.length
    (startIndex h.subs h.rotateCursor)

/-- What it leaves. -/
def forEachSubRotated (h : Hub) : Hub :=
  if h.subs = [] then h else { h with rotateCursor := succ h.subs h.rotateCursor }

/-- `subs_.emplace(next_id_++, …)`. -/
def acceptSub (h : Hub) : Hub :=
  { h with nextId := (h.nextId + 1) % 2 ^ 64, subs := if h.nextId ∈ h.subs then
    h.subs else h.subs.orderedInsert (· ≤ ·) h.nextId }

def closeSub (h : Hub) (id : ℕ) : Hub := { h with subs := h.subs.erase id }

def step (h : Hub) : Act → Hub
  | .accept => h.acceptSub
  | .close id => h.closeSub id
  | .call => h.forEachSubRotated

def after (h : Hub) (acts : List Act) : Hub := acts.foldl step h

def firsts (h : Hub) : List Act → List ℕ
  | [] => []
  | a :: acts => (if a = .call then h.visited.head?.toList else []) ++ (h.step a).firsts acts

/-- None of the acts changes the subscribers. -/
def Steady (h : Hub) : List Act → Prop
  | [] => True
  | a :: acts => (h.step a).subs = h.subs ∧ (h.step a).Steady acts

instance : ∀ (acts : List Act) (h : Hub), Decidable (h.Steady acts)
  | [], _ => inferInstanceAs (Decidable True)
  | a :: acts, h =>
    have := instDecidableSteady acts (h.step a)
    inferInstanceAs (Decidable (_ ∧ _))

/-! ## Runs -/

/-- The keys stay in order. -/
theorem sorted_step {h : Hub} (hs : h.subs.Pairwise (· < ·)) (a : Act) : (h.step a).subs.Pairwise (· < ·) := by
  cases a with
  | accept =>
    simp only [step, acceptSub]
    split
    · exact hs
    · rename_i hnew
      have hsorted : (h.subs.orderedInsert (· ≤ ·) h.nextId).Pairwise (· ≤ ·) := (hs.imp le_of_lt).orderedInsert _ _
      have hnodup : (h.subs.orderedInsert (· ≤ ·) h.nextId).Nodup :=
        (List.perm_orderedInsert _ _ _).nodup_iff.2 (List.nodup_cons.2 ⟨hnew, hs.imp ne_of_lt⟩)
      exact (hsorted.and hnodup).imp fun hlt => lt_of_le_of_ne hlt.1 hlt.2
  | close id => exact hs.sublist List.erase_sublist
  | call =>
    simp only [step, forEachSubRotated]
    split <;> exact hs

theorem sorted_after {h : Hub} (hs : h.subs.Pairwise (· < ·)) (acts : List Act) :
    (h.after acts).subs.Pairwise (· < ·) := by
  induction acts generalizing h with
  | nil => exact hs
  | cons a acts ih => exact ih (sorted_step hs a)

end Hub

/-! ## One call -/

theorem getElem?_append_drop (l : List ℕ) (d : ℕ) : l[d]?.toList ++ l.drop (d + 1) = l.drop d := by
  by_cases hd : d < l.length
  · rw [List.getElem?_eq_getElem hd, List.drop_eq_getElem_cons hd]
    rfl
  · simp [List.getElem?_eq_none (Nat.le_of_not_lt hd), List.drop_eq_nil_of_le (Nat.le_of_not_lt hd),
      List.drop_eq_nil_of_le (by omega : l.length ≤ d + 1)]

/-- A turn of the loop, `d` keys after its start. -/
theorem around_succ {l : List ℕ} {start : ℕ} (hstart : start < l.length) (fuel : ℕ) {d : ℕ} (hd : d < l.length) :
    around l start (fuel + 1) ((start + d) % l.length) =
      (l.rotate start)[d]?.toList ++ if d + 1 = l.length then
        [] else around l start fuel ((start + (d + 1)) % l.length) := by
  have hnext : wrap l ((start + d) % l.length + 1) = (start + (d + 1)) % l.length := by
    rw [wrap_succ (Nat.mod_lt _ (Nat.zero_lt_of_lt hstart)), Nat.mod_add_mod, Nat.add_assoc]
  have hback : (start + (d + 1)) % l.length = start ↔ d + 1 = l.length := by
    rcases Nat.lt_or_ge (start + (d + 1)) l.length with hlt | hge
    · rw [Nat.mod_eq_of_lt hlt]
      omega
    · rw [Nat.mod_eq_sub_mod hge]
      by_cases hlast : d + 1 = l.length
      · rw [hlast, Nat.add_sub_cancel, Nat.mod_eq_of_lt hstart]
        exact iff_of_true rfl rfl
      · rw [Nat.mod_eq_of_lt (by omega)]
        omega
  rw [around, hnext, List.getElem?_rotate hd, Nat.add_comm d start]
  simp only [hback]

/-- The loop goes around to the key before its start. -/
theorem around_eq {l : List ℕ} {start : ℕ} (hstart : start < l.length) (left d : ℕ) (hd : d + (left + 1) = l.length) :
    around l start (left + 1) ((start + d) % l.length) = (l.rotate start).drop d := by
  induction left generalizing d with
  | zero => rw [around_succ hstart 0 (by omega), if_pos hd, ← getElem?_append_drop,
      List.drop_eq_nil_of_le (by rw [List.length_rotate]; omega)]
  | succ left ih => rw [around_succ hstart _ (by omega), if_neg (by omega), ih (d + 1) (by omega), getElem?_append_drop]

namespace Hub

/-- A call begins at the cursor and goes around. -/
theorem visited_eq (h : Hub) : h.visited = h.subs.rotate (startIndex h.subs h.rotateCursor) := by
  unfold visited
  by_cases hnil : h.subs = []
  · simp [hnil]
  · have hlt := startIndex_lt hnil h.rotateCursor
    have hpos := List.length_pos_of_ne_nil hnil
    have hloop := around_eq hlt (h.subs.length - 1) 0 (by omega)
    rw [Nat.sub_add_cancel hpos, Nat.add_zero, Nat.mod_eq_of_lt hlt, List.drop_zero] at hloop
    rw [if_neg hnil, hloop]

theorem head_visited (h : Hub) : h.visited.head? = h.subs[startIndex h.subs h.rotateCursor]? := by
  rw [visited_eq]
  by_cases hnil : h.subs = []
  · simp [hnil]
  · exact List.head?_rotate (startIndex_lt hnil h.rotateCursor)

/-! ## Calls among themselves -/

/-- The calls of a time without changes start one turn after the other. -/
theorem firsts_eq {h : Hub} {acts : List Act} (hsteady : h.Steady acts) :
    h.firsts acts = starts h.subs (acts.count .call) h.rotateCursor := by
  induction acts generalizing h with
  | nil => rfl
  | cons a acts ih =>
    obtain ⟨hsame, hrest⟩ := hsteady
    have hnext := ih hrest
    rw [hsame] at hnext
    rw [firsts, hnext]
    cases a with
    | accept => rfl
    | close id => rfl
    | call =>
      rw [List.count_cons_self, starts, if_pos rfl, head_visited]
      by_cases hnil : h.subs = []
      · simp [hnil, starts_nil]
      · simp [step, forEachSubRotated, hnil]

end Hub

/-- **Every call visits every subscriber once; and as many calls as there are subscribers, who stay, begin with each
of them once just where the cursor is one of them when the calls begin**, or there are fewer than two. -/
theorem rotation_fair_iff (acts calls : List Act) (hsteady : (Hub.start.after acts).Steady calls)
    (hcount : calls.count .call = (Hub.start.after acts).subs.length) :
    let h := Hub.start.after acts
    h.visited.Perm h.subs ∧ h.visited.Nodup ∧
      ((h.firsts calls).Perm h.subs ↔ h.subs.length ≤ 1 ∨ h.rotateCursor ∈ h.subs) := by
  intro h
  have hsorted : h.subs.Pairwise (· < ·) := Hub.sorted_after List.Pairwise.nil acts
  refine ⟨?_, ?_, ?_⟩
  · rw [h.visited_eq]
    exact List.rotate_perm _ _
  · rw [h.visited_eq]
    exact List.nodup_rotate.2 (hsorted.imp ne_of_lt)
  · rw [Hub.firsts_eq hsteady, hcount]
    exact starts_perm_iff hsorted h.rotateCursor

/-- Three subscribers and three calls, each begun with another. -/
theorem rotation_fair_three :
    let h := Hub.start.after [.accept, .accept, .accept]
    (h.firsts [.call, .call, .call]).Perm h.subs :=
  (rotation_fair_iff [.accept, .accept, .accept] [.call, .call, .call] (by decide) (by decide)).2.2.2 (by decide)

/-- The second of three subscribers, at whom the cursor is, leaves: the third is the first of both calls. -/
theorem first_twice :
    let h := Hub.start.after [.accept, .accept, .accept, .call, .close 1]
    h.subs = [0, 2] ∧ h.Steady [.call, .call] ∧ h.firsts [.call, .call] = [2, 2] ∧
      ¬ (h.firsts [.call, .call]).Perm h.subs := by
  decide

end Gateway.FanOut
