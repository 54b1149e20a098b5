import Mathlib.Logic.Basic

/-!
# The fields of a list

What stands between the separators of a list, as far as anything does: separators in a row, at the front and at
the end make no fields.
-/

namespace Fields

variable {α : Type} [DecidableEq α] {sep : α}

def fields (sep : α) (s : List α) : List (List α) := (s.splitOn sep).filter fun w => decide (w ≠ [])

theorem fields_of_not_mem {s : List α} (h : sep ∉ s) : fields sep s = if s = [] then [] else [s] := by
  unfold fields
  rw [List.splitOn_eq_singleton h, List.filter_cons, List.filter_nil]
  by_cases hnil : s = [] <;> simp [hnil]

theorem fields_append_cons {s : List α} (h : sep ∉ s) (t : List α) :
    fields sep (s ++ sep :: t) = (if s = [] then [] else [s]) ++ fields sep t := by
  unfold fields
  rw [List.splitOn_append_cons_self_of_not_mem h, List.filter_cons]
  by_cases hnil : s = [] <;> simp [hnil]

theorem fields_cons_sep (t : List α) : fields sep (sep :: t) = fields sep t := by
  have h := @fields_append_cons α _ sep [] List.not_mem_nil t
  rwa [if_pos rfl, List.nil_append, List.nil_append] at h

theorem fields_replicate_append (n : Nat) (t : List α) :
    fields sep (List.replicate n sep ++ t) = fields sep t := by
  induction n with
  | zero => rfl
  | succ n ih => rw [List.replicate_succ, List.cons_append, fields_cons_sep, ih]

/-- A field, and what comes after it. -/
theorem fields_append {w t : List α} (hw : sep ∉ w) (hne : w ≠ []) (ht : ∀ c ∈ t.head?, c = sep) :
    fields sep (w ++ t) = w :: fields sep t := by
  cases t with
  | nil =>
    rw [List.append_nil, fields_of_not_mem hw, if_neg hne]
    rfl
  | cons c t =>
    rw [ht c rfl, fields_append_cons hw, if_neg hne, fields_cons_sep, List.singleton_append]

theorem fields_cons_ne_nil {c : α} (hc : c ≠ sep) (t : List α) : fields sep (c :: t) ≠ [] := by
  by_cases hin : sep ∈ c :: t
  · obtain ⟨w, rest, heq, hw⟩ := List.eq_append_cons_of_mem hin
    cases w with
    | nil => exact absurd (List.cons.inj heq).1 hc
    | cons a w =>
      rw [heq, fields_append_cons hw, if_neg (List.cons_ne_nil a w)]
      exact List.cons_ne_nil _ _
  · rw [fields_of_not_mem hin, if_neg (List.cons_ne_nil c t)]
    exact List.cons_ne_nil _ _

theorem fields_eq_nil_iff {s : List α} : fields sep s = [] ↔ ∀ c ∈ s, c = sep := by
  induction s with
  | nil => exact ⟨fun _ _ hc => absurd hc List.not_mem_nil, fun _ => rfl⟩
  | cons c t ih =>
    rw [List.forall_mem_cons]
    by_cases hc : c = sep
    · rw [hc, fields_cons_sep, ih]
      exact ⟨fun h => ⟨rfl, h⟩, fun h => h.2⟩
    · exact ⟨fun h => absurd h (fields_cons_ne_nil hc t), fun h => absurd h.1 hc⟩

theorem mem_of_mem_fields {s w : List α} {c : α} (hw : w ∈ fields sep s) (hc : c ∈ w) : c ∈ s := by
  induction hn : s.length using Nat.strongRecOn generalizing s with
  | ind n ih =>
    by_cases hin : sep ∈ s
    · obtain ⟨front, rest, rfl, hfront⟩ := List.eq_append_cons_of_mem hin
      rw [fields_append_cons hfront, List.mem_append] at hw
      rcases hw with hw | hw
      · split at hw
        · exact absurd hw List.not_mem_nil
        · rw [List.mem_singleton] at hw
          exact List.mem_append_left _ (hw ▸ hc)
      · have hrest : c ∈ rest := ih rest.length (by rw [← hn]; simp; omega) hw rfl
        exact List.mem_append_right _ (List.mem_cons_of_mem sep hrest)
    · rw [fields_of_not_mem hin] at hw
      split at hw
      · exact absurd hw List.not_mem_nil
      · rw [List.mem_singleton] at hw
        exact hw ▸ hc

end Fields
