import MarketFeed.Lib.Upsert
/-!
# A queue that coalesces

Keys wait in a queue and a dict holds the latest value of each. A value of a key that waits replaces the
one held; any other puts its key at the end. The two are in lockstep while whatever takes a key off the
queue takes its value too.
-/

namespace Coalesce

open Keyed

variable {κ V : Type} [DecidableEq κ]

/-- The queue holds a key at most once, and exactly the keys of the dict. -/
structure Lockstep (queue : List κ) (held : List (κ × V)) : Prop where
  once : queue.Nodup
  same : ∀ k, k ∈ queue ↔ (lookup Prod.fst k held).isSome

theorem Lockstep.nil : Lockstep ([] : List κ) ([] : List (κ × V)) :=
  ⟨.nil, fun _ => ⟨fun h => (by cases h), fun h => (by cases h)⟩⟩

theorem Lockstep.count {queue : List κ} {held : List (κ × V)} (h : Lockstep queue held) (k : κ) :
    (lookup Prod.fst k held).isSome ↔ queue.count k = 1 := by
  rw [← h.same k]
  constructor
  · exact fun hk => List.count_eq_one_of_mem h.once hk
  · intro hk
    apply List.count_pos_iff.1
    omega

/-- A value for a key that waits. -/
theorem Lockstep.replace {queue : List κ} {held : List (κ × V)} (h : Lockstep queue held) {k : κ} (v : V)
    (hk : (lookup Prod.fst k held).isSome) : Lockstep queue (upsert Prod.fst (fun _ r => r) held (k, v)) := by
  refine ⟨h.once, fun k' => ?_⟩
  rw [lookup_replace, h.same k']
  split
  · rename_i hkk
    have hkk : k = k' := hkk
    rw [← hkk]
    simp [hk]
  · rfl

/-- A value for a key that does not. -/
theorem Lockstep.put {queue : List κ} {held : List (κ × V)} (h : Lockstep queue held) {k : κ} (v : V)
    (hk : (lookup Prod.fst k held).isSome = false) : Lockstep (queue ++ [k])
    (upsert Prod.fst (fun _ r => r) held (k, v)) := by
  have hnot : k ∉ queue := fun hin => by
    rw [(h.same k).1 hin] at hk
    cases hk
  refine ⟨List.nodup_append.2 ⟨h.once, List.nodup_singleton k, fun a ha b hb => ?_⟩, fun k' => ?_⟩
  · rw [List.mem_singleton.1 hb]
    exact fun he => hnot (he ▸ ha)
  · rw [lookup_replace, List.mem_append, List.mem_singleton, h.same k']
    split
    · rename_i hkk
      have hkk : k = k' := hkk
      simp [hkk]
    · rename_i hkk
      have hkk : k ≠ k' := hkk
      simp [Ne.symm hkk]

/-- The first key leaves with its value. -/
theorem Lockstep.take {k : κ} {queue : List κ} {held : List (κ × V)} (h : Lockstep (k :: queue) held) :
    Lockstep queue (erase Prod.fst k held) := by
  obtain ⟨hnot, hnodup⟩ := List.nodup_cons.1 h.once
  refine ⟨hnodup, fun k' => ?_⟩
  have hsame := h.same k'
  rw [lookup_erase]
  by_cases hk : k' = k
  · subst hk
    simp [hnot]
  · rw [if_neg hk, ← hsame, List.mem_cons, or_iff_right hk]

/-- The first key leaves alone: its value stays behind, and the two are out of step. -/
theorem Lockstep.tear {k : κ} {queue : List κ} {held : List (κ × V)} (h : Lockstep (k :: queue) held) :
    ¬ Lockstep queue held :=
  fun h' => (List.nodup_cons.1 h.once).1 ((h'.same k).2 ((h.same k).1 List.mem_cons_self))

end Coalesce
