import Mathlib.Data.List.Chain
import Mathlib.Tactic.Common
/-!
# The run a list ends with

The longest suffix of a list in which each element is related to the one before it. One more element goes on with it
or begins another (`streak_concat`), so that a scan only needs the last element of the list.
-/

namespace Streak

variable {α : Type} (R : α → α → Prop) [DecidableRel R]

def extend (run : List α) (x : α) : List α :=
  match run.getLast? with
  | some y => if R y x then run ++ [x] else [x]
  | none => [x]

def streak (l : List α) : List α := l.foldl (extend R) []

/-- What a streak is. -/
structure Maximal (l run : List α) : Prop where
  suffix : run <:+ l
  chain : run.IsChain R
  longest : ∀ s, s <:+ l → s.IsChain R → s.length ≤ run.length

variable {R}

theorem streak_concat (l : List α) (x : α) : streak R (l ++ [x]) = extend R (streak R l) x := by simp [streak]

theorem getLast?_extend (run : List α) (x : α) : (extend R run x).getLast? = some x := by
  rw [extend]
  split
  · split <;> simp
  · simp

theorem getLast?_streak (l : List α) : (streak R l).getLast? = l.getLast? := by
  cases l using List.reverseRecOn with
  | nil => rfl
  | append_singleton l x => rw [streak_concat, getLast?_extend, List.getLast?_concat]

/-- **The scan finds it.** -/
theorem maximal_streak (l : List α) : Maximal R l (streak R l) := by
  induction l using List.reverseRecOn with
  | nil => exact ⟨List.suffix_refl _, List.isChain_nil, fun s hs _ => hs.length_le⟩
  | append_singleton l x ih =>
    rw [streak_concat]
    constructor
    · rw [extend]
      split
      · split
        · exact List.suffix_concat_iff.2 (.inr ⟨_, rfl, ih.suffix⟩)
        · exact List.suffix_append l [x]
      · exact List.suffix_append l [x]
    · rw [extend]
      split
      · rename_i y hy
        split
        · rename_i hr
          rw [List.isChain_append]
          refine ⟨ih.chain, List.isChain_singleton x, fun a ha b hb => ?_⟩
          rw [hy, Option.mem_some_iff] at ha
          rw [List.head?_cons, Option.mem_some_iff] at hb
          exact ha ▸ hb ▸ hr
        · exact List.isChain_singleton x
      · exact List.isChain_singleton x
    · intro s hs hchain
      rcases List.suffix_concat_iff.1 hs with rfl | ⟨t, rfl, ht⟩
      · exact Nat.zero_le _
      · rw [List.isChain_append] at hchain
        have hle := ih.longest t ht hchain.1
        cases t using List.reverseRecOn with
        | nil =>
          have hne : extend R (streak R l) x ≠ [] := List.getLast?_isSome.1 (by rw [getLast?_extend]; rfl)
          exact List.length_pos_of_ne_nil hne
        | append_singleton t y =>
          -- the suffix ends where the list does, and so does the run so far
          obtain ⟨u, rfl⟩ := ht
          have hlast : (streak R (u ++ (t ++ [y]))).getLast? = some y := by
            rw [getLast?_streak, ← List.append_assoc, List.getLast?_concat]
          have hr : R y x := hchain.2.2 y (by simp) x (by simp)
          rw [extend, hlast]
          simp only [hr, if_true, List.length_append, List.length_singleton] at hle ⊢
          omega

end Streak
