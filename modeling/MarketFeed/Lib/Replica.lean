import Mathlib.Data.List.Induction
/-!
# A view kept up by messages

A server has a table of entries, each under its key, and a reader that sees messages only: one that
replaces all the reader has, one that sets entries, or one that says nothing of them. What the reader
has after its messages is its `view`. A message whose entries are the table's brings the reader up to
date at their keys, and nowhere else (`foldl_render`).
-/

namespace Replica

variable {E κ : Type} [DecidableEq κ] (key : E → κ)

inductive Change (E : Type)
  | replace (items : List E)
  | patch (items : List E)
  | keep
  deriving DecidableEq

def Change.items : Change E → List E
  | .replace items => items
  | .patch items => items
  | .keep => []

def render (view : κ → Option E) (e : E) : κ → Option E := fun k => if key e = k then some e else view k

def apply (view : κ → Option E) : Change E → κ → Option E
  | .replace items => items.foldl (render key) fun _ => none
  | .patch items => items.foldl (render key) view
  | .keep => view

def view (changes : List (Change E)) : κ → Option E := changes.foldl (apply key) fun _ => none

variable {key}

theorem view_concat (changes : List (Change E)) (c : Change E) :
    view key (changes ++ [c]) = apply key (view key changes) c := by
  simp [view]

/-- Entries of a table make the view the table at their keys. -/
theorem foldl_render (table : κ → Option E) {items : List E} (h : ∀ e ∈ items, table (key e) = some e)
    (v : κ → Option E) (k : κ) :
    items.foldl (render key) v k = if k ∈ items.map key then table k else v k := by
  induction items generalizing v with
  | nil => rfl
  | cons e items ih =>
    have he : table (key e) = some e := h e List.mem_cons_self
    rw [List.foldl_cons, ih fun e' he' => h e' (List.mem_cons_of_mem e he'), List.map_cons]
    by_cases hk : k ∈ items.map key
    · rw [if_pos hk, if_pos (List.mem_cons_of_mem (key e) hk)]
    · rw [if_neg hk, render]
      by_cases hek : key e = k
      · subst hek
        rw [if_pos rfl, if_pos List.mem_cons_self, he]
      · rw [if_neg hek, if_neg (by simpa [Ne.symm hek] using hk)]

theorem render_isSome {items : List E} {v : κ → Option E} {k : κ} (h : (items.foldl (render key) v k).isSome) :
    (∃ e ∈ items, key e = k) ∨ (v k).isSome := by
  induction items generalizing v with
  | nil => exact .inr h
  | cons e items ih =>
    rw [List.foldl_cons] at h
    rcases ih h with ⟨e', he', hk⟩ | hv
    · exact .inl ⟨e', List.mem_cons_of_mem e he', hk⟩
    · rw [render] at hv
      by_cases hek : key e = k
      · exact .inl ⟨e, List.mem_cons_self, hek⟩
      · rw [if_neg hek] at hv
        exact .inr hv

/-- The reader has nothing that no message had. -/
theorem view_isSome {changes : List (Change E)} {k : κ} (h : (view key changes k).isSome) :
    ∃ c ∈ changes, ∃ e ∈ c.items, key e = k := by
  induction changes using List.reverseRecOn with
  | nil => cases h
  | append_singleton changes c ih =>
    rw [view_concat] at h
    have hor : (∃ e ∈ c.items, key e = k) ∨ (view key changes k).isSome := by
      cases c with
      | replace items => exact (render_isSome h).imp_right fun hv => (by cases hv)
      | patch items => exact render_isSome h
      | keep => exact .inr h
    rcases hor with hc | hv
    · exact ⟨c, List.mem_append_right changes (List.mem_singleton_self c), hc⟩
    · obtain ⟨c', hc', he⟩ := ih hv
      exact ⟨c', List.mem_append_left [c] hc', he⟩

end Replica
