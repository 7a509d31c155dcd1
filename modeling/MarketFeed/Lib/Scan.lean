import Mathlib.Data.List.Basic
import Mathlib.Data.Nat.Notation
/-!
# A stream read as it arrives

A reader looks at the front of what has arrived: it waits, or takes some elements off, with an event or
without one. What it decides on a part it also decides on the whole (`stable`), so what it has read of a
stream does not depend on where the stream was cut (`read_append`). A reader may stop for good at an event;
it then has the events up to that one (`serve_eq`).
-/

namespace Scan

/-- `look` answers the event, if any, and how many elements it is about. -/
structure Reader (α ω : Type) where
  look : List α → Option (Option ω × ℕ)
  pos : ∀ {b o n}, look b = some (o, n) → 0 < n ∧ n ≤ b.length
  stable : ∀ {b v}, look b = some v → ∀ c, look (b ++ c) = some v

variable {α ω : Type}

theorem Reader.drop_lt (r : Reader α ω) {b : List α} {o : Option ω} {n : ℕ} (h : r.look b = some (o, n)) :
    (b.drop n).length < b.length := by
  have := r.pos h
  rw [List.length_drop]
  omega

/-- The events of what has arrived, and what is left of it. -/
def Reader.read (r : Reader α ω) (b : List α) : List ω × List α :=
  match _h : r.look b with
  | none => ([], b)
  | some (o, n) => (o.toList ++ (r.read (b.drop n)).1, (r.read (b.drop n)).2)
termination_by b.length
decreasing_by all_goals exact r.drop_lt ‹_›

variable (r : Reader α ω)

theorem read_wait {b : List α} (h : r.look b = none) : r.read b = ([], b) := by
  rw [Reader.read]
  split
  · rfl
  · rename_i o n hv
    rw [h] at hv
    cases hv

theorem read_take {b : List α} {o : Option ω} {n : ℕ} (h : r.look b = some (o, n)) :
    r.read b = (o.toList ++ (r.read (b.drop n)).1, (r.read (b.drop n)).2) := by
  rw [Reader.read]
  split
  · rename_i hv
    rw [h] at hv
    cases hv
  · rename_i o' n' hv
    rw [h] at hv
    cases hv
    rfl

/-- Reading takes the elements in order: by what is left. -/
@[elab_as_elim] theorem read_induction {motive : List α → Prop} (wait : ∀ b, r.look b = none → motive b)
    (take : ∀ b o n, r.look b = some (o, n) → motive (b.drop n) → motive b) (b : List α) : motive b := by
  induction hlen : b.length using Nat.strongRecOn generalizing b with
  | ind k ih =>
    cases h : r.look b with
    | none => exact wait b h
    | some v =>
      obtain ⟨o, n⟩ := v
      exact take b o n h (ih (b.drop n).length (hlen ▸ r.drop_lt h) _ rfl)

/-- **What arrives later is read as if it had been there from the start.** -/
theorem read_append (b c : List α) :
    r.read (b ++ c) = ((r.read b).1 ++ (r.read ((r.read b).2 ++ c)).1, (r.read ((r.read b).2 ++ c)).2) := by
  induction b using read_induction r with
  | wait b h => rw [read_wait r h, List.nil_append]
  | take b o n h ih =>
    rw [read_take r h, read_take r (r.stable h c), List.drop_append_of_le_length (r.pos h).2, ih, List.append_assoc]

/-- The first `k` places are left behind one at a time, with no event. -/
theorem read_skip {b : List α} {k : ℕ} (h : ∀ j < k, r.look (b.drop j) = some (none, 1)) :
    r.read b = r.read (b.drop k) := by
  induction k with
  | zero => rfl
  | succ k ih =>
    rw [ih fun j hj => h j (Nat.lt_succ_of_lt hj), read_take r (h k (Nat.lt_succ_self k)), List.drop_drop]
    rfl

theorem read_left (b : List α) : r.look (r.read b).2 = none := by
  induction b using read_induction r with
  | wait b h => rwa [read_wait r h]
  | take b o n h ih => rwa [read_take r h]

/-- With `c` behind it `b` is read through: every place that is looked at is decided, and takes nothing of `c`. -/
inductive Reader.Through (r : Reader α ω) (c : List α) : List α → Prop
  | done : r.Through c []
  | take {b : List α} {o : Option ω} {n : ℕ} : r.look (b ++ c) = some (o, n) → n ≤ b.length → r.Through c (b.drop n) →
      r.Through c b

/-- What stands behind is then read as if it stood alone. -/
theorem read_through {b c : List α} (h : r.Through c b) :
    ∃ es, r.read (b ++ c) = (es ++ (r.read c).1, (r.read c).2) := by
  induction h with
  | done => exact ⟨[], rfl⟩
  | @take b o n hlook hn _ ih =>
    obtain ⟨es, hread⟩ := ih
    refine ⟨o.toList ++ es, ?_⟩
    rw [read_take r hlook, List.drop_append_of_le_length hn, hread, List.append_assoc]

/-! ## A reader that stops -/

/-- Up to the first event at which it stops, given those before. -/
def upTo (stops : List ω → ω → Bool) : List ω → List ω → List ω
  | _, [] => []
  | past, w :: ws => w :: if stops past w then [] else upTo stops (past ++ [w]) ws

structure Session (α ω : Type) where
  left : List α
  events : List ω
  stopped : Bool

def Session.init : Session α ω := ⟨[], [], false⟩

/-- One event after the other, as far as what has arrived goes. -/
def Reader.run (r : Reader α ω) (stops : List ω → ω → Bool) (s : Session α ω) : Session α ω :=
  if s.stopped then s
  else
    match _h : r.look s.left with
    | none => s
    | some (o, n) => r.run stops { left := s.left.drop n, events := s.events ++ o.toList, stopped := o.any (stops s.events) }
termination_by s.left.length
decreasing_by exact r.drop_lt ‹_›

def Reader.feed (r : Reader α ω) (stops : List ω → ω → Bool) (s : Session α ω) (chunk : List α) : Session α ω :=
  r.run stops { s with left := s.left ++ chunk }

/-- The events of a stream that comes in chunks. -/
def Reader.serve (r : Reader α ω) (stops : List ω → ω → Bool) (chunks : List (List α)) : List ω := (chunks.foldl (r.feed stops) .init).events

/-- All events there will be, once `later` has come too. -/
def Session.total (r : Reader α ω) (stops : List ω → ω → Bool) (s : Session α ω) (later : List α) : List ω :=
  s.events ++ if s.stopped then [] else upTo stops s.events (r.read (s.left ++ later)).1

variable (stops : List ω → ω → Bool)

theorem run_stopped {s : Session α ω} (h : s.stopped = true) : r.run stops s = s := by
  rw [Reader.run, if_pos h]

theorem run_wait {s : Session α ω} (hs : s.stopped = false) (h : r.look s.left = none) : r.run stops s = s := by
  rw [Reader.run, if_neg (by simp [hs])]
  split
  · rfl
  · rename_i hv
    rw [h] at hv
    cases hv

theorem run_take {s : Session α ω} (hs : s.stopped = false) {o : Option ω} {n : ℕ} (h : r.look s.left = some (o, n)) :
    r.run stops s = r.run stops { left := s.left.drop n, events := s.events ++ o.toList, stopped := o.any (stops s.events) } := by
  rw [Reader.run, if_neg (by simp [hs])]
  split
  · rename_i hv
    rw [h] at hv
    cases hv
  · rename_i o' n' hv
    rw [h] at hv
    cases hv
    rfl

/-- A run changes nothing of what there will be, and leaves nothing to do. -/
theorem run_total (s : Session α ω) (later : List α) :
    (r.run stops s).total r stops later = s.total r stops later ∧
      ((r.run stops s).stopped = true ∨ r.look (r.run stops s).left = none) := by
  induction hlen : s.left.length using Nat.strongRecOn generalizing s with
  | ind k ih =>
    cases hs : s.stopped with
    | true =>
      rw [run_stopped r stops hs]
      exact ⟨rfl, .inl hs⟩
    | false =>
      cases h : r.look s.left with
      | none =>
        rw [run_wait r stops hs h]
        exact ⟨rfl, .inr h⟩
      | some v =>
        obtain ⟨o, n⟩ := v
        rw [run_take r stops hs h]
        obtain ⟨htotal, hend⟩ := ih (s.left.drop n).length (hlen ▸ r.drop_lt h) ⟨s.left.drop n, s.events ++ o.toList, o.any (stops s.events)⟩ rfl
        refine ⟨htotal.trans ?_, hend⟩
        simp only [Session.total, hs, Bool.false_eq_true, if_false]
        rw [read_take r (r.stable h later), List.drop_append_of_le_length (r.pos h).2]
        cases o with
        | none => simp
        | some w => cases hw : stops s.events w <;> simp [upTo, hw]

theorem foldl_feed_total (chunks : List (List α)) (s : Session α ω) (hs : s.stopped = true ∨ r.look s.left = none) :
    (chunks.foldl (r.feed stops) s).events = s.total r stops chunks.flatten := by
  induction chunks generalizing s with
  | nil =>
    rcases hs with hs | hs
    · simp [Session.total, hs]
    · cases hst : s.stopped <;> simp [Session.total, hst, read_wait r hs, upTo]
  | cons chunk chunks ih =>
    obtain ⟨htotal, hend⟩ := run_total r stops { s with left := s.left ++ chunk } chunks.flatten
    rw [List.foldl_cons]
    refine (ih (r.feed stops s chunk) hend).trans (htotal.trans ?_)
    simp only [Session.total, List.flatten_cons, List.append_assoc]

/-- **What is served does not depend on where the stream was cut.** -/
theorem serve_eq (hwait : r.look [] = none) (chunks : List (List α)) :
    r.serve stops chunks = upTo stops [] (r.read chunks.flatten).1 :=
  foldl_feed_total r stops chunks .init (.inr hwait)

end Scan
