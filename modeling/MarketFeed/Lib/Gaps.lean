import Mathlib.Data.List.Basic
import Mathlib.Tactic.Common
/-!
# Gaps in increasing numbers

A sender numbers what it sends from zero and may lose some of it. Between a start and the number it will
give next, the gaps around the numbers that are left total the numbers that were lost.
-/

namespace Gaps

/-- The total of the gaps from `next` through the numbers up to `stop`. -/
def missing (next : Nat) : List Nat → Nat → Nat
  | [], stop => stop - next
  | n :: l, stop => (n - next) + missing (n + 1) l stop

/-- Increasing numbers in a range and the gaps around them fill the range. -/
theorem missing_add_length : ∀ {l : List Nat} {next stop : Nat}, l.Pairwise (· < ·) → (∀ n ∈ l, next ≤ n ∧ n < stop) →
    next ≤ stop →
    missing next l stop + l.length = stop - next
  | [], _, _, _, _, _ => rfl
  | n :: l, next, stop, hinc, hrange, _ => by
    obtain ⟨hn, hl⟩ := List.pairwise_cons.1 hinc
    obtain ⟨h1, h2⟩ := hrange n List.mem_cons_self
    have ih := @missing_add_length l (n + 1) stop hl (fun m hm => ⟨hn m hm, (hrange m (List.mem_cons_of_mem n hm)).2⟩)
      h2
    rw [missing, List.length_cons]
    omega

/-- What was numbered from zero and is neither left nor `lost` cannot be: the gaps total the lost. -/
theorem missing_eq {l : List Nat} {stop lost : Nat} (hinc : l.Pairwise (· < ·)) (hlt : ∀ n ∈ l, n < stop)
    (hcount : stop = l.length + lost) : missing 0 l stop = lost := by
  have h := missing_add_length hinc (fun n hn => ⟨Nat.zero_le n, hlt n hn⟩) (Nat.zero_le stop)
  omega

/-- The next number goes to the end. -/
theorem pairwise_snoc {l : List Nat} {stop : Nat} (hinc : l.Pairwise (· < ·)) (hlt : ∀ n ∈ l, n < stop) :
    (l ++ [stop]).Pairwise (· < ·) ∧ ∀ n ∈ l ++ [stop], n < stop + 1 := by
  refine ⟨List.pairwise_append.2 ⟨hinc, List.pairwise_singleton _ _, fun a ha b hb => ?_⟩, fun n hn => ?_⟩
  · rw [List.mem_singleton.1 hb]
    exact hlt a ha
  · rcases List.mem_append.1 hn with hn | hn
    · have := hlt n hn
      omega
    · rw [List.mem_singleton.1 hn]
      omega

end Gaps
