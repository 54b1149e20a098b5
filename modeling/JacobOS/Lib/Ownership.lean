import Mathlib.Data.Fintype.Card
import Mathlib.Data.Finset.Image

/-!
# Ownership of resources by pointer cells

A finite family of cells, each empty or holding one resource, together with the set of resources
recorded as used.  `Owned` says that the record is exact and that no resource sits in two cells.
-/

namespace Ownership

variable {ι κ : Type} {cell : ι → Option κ} {used : κ → Prop}

structure Owned (cell : ι → Option κ) (used : κ → Prop) : Prop where
  inj : ∀ {i j k}, cell i = some k → cell j = some k → i = j
  used_iff : ∀ k, used k ↔ ∃ i, cell i = some k

namespace Owned

-- An unused resource goes into an empty cell.
theorem take [DecidableEq ι] (h : Owned cell used) {i : ι} {k : κ} (hi : cell i = none)
    (hk : ¬ used k) : Owned (Function.update cell i (some k)) (fun x => used x ∨ x = k) := by
  have hfree : ∀ j, cell j ≠ some k := fun j hj => hk ((h.used_iff k).mpr ⟨j, hj⟩)
  have hkeep : ∀ {j x}, cell j = some x → j ≠ i := by
    intro j x hj he
    rw [he, hi] at hj
    exact absurd hj (by simp)
  refine ⟨?_, ?_⟩
  · intro a b x ha hb
    by_cases hai : a = i <;> by_cases hbi : b = i
    · rw [hai, hbi]
    · rw [hai, Function.update_self] at ha
      rw [Function.update_of_ne hbi, ← ha] at hb
      exact absurd hb (hfree b)
    · rw [hbi, Function.update_self] at hb
      rw [Function.update_of_ne hai, ← hb] at ha
      exact absurd ha (hfree a)
    · rw [Function.update_of_ne hai] at ha
      rw [Function.update_of_ne hbi] at hb
      exact h.inj ha hb
  · intro x
    constructor
    · rintro (hx | rfl)
      · obtain ⟨j, hj⟩ := (h.used_iff x).mp hx
        exact ⟨j, by rw [Function.update_of_ne (hkeep hj), hj]⟩
      · exact ⟨i, Function.update_self ..⟩
    · rintro ⟨j, hj⟩
      by_cases hji : j = i
      · rw [hji, Function.update_self, Option.some.injEq] at hj
        exact Or.inr hj.symm
      · rw [Function.update_of_ne hji] at hj
        exact Or.inl ((h.used_iff x).mpr ⟨j, hj⟩)

-- A cell gives its resource back.
theorem drop [DecidableEq ι] (h : Owned cell used) {i : ι} {k : κ} (hi : cell i = some k) :
    Owned (Function.update cell i none) (fun x => used x ∧ x ≠ k) := by
  refine ⟨?_, ?_⟩
  · intro a b x ha hb
    have hai : a ≠ i := by
      rintro rfl
      rw [Function.update_self] at ha
      exact absurd ha (by simp)
    have hbi : b ≠ i := by
      rintro rfl
      rw [Function.update_self] at hb
      exact absurd hb (by simp)
    rw [Function.update_of_ne hai] at ha
    rw [Function.update_of_ne hbi] at hb
    exact h.inj ha hb
  · intro x
    constructor
    · rintro ⟨hx, hne⟩
      obtain ⟨j, hj⟩ := (h.used_iff x).mp hx
      have hji : j ≠ i := by
        rintro rfl
        exact hne (Option.some.inj (hj.symm.trans hi))
      exact ⟨j, by rw [Function.update_of_ne hji, hj]⟩
    · rintro ⟨j, hj⟩
      by_cases hji : j = i
      · rw [hji, Function.update_self] at hj
        exact absurd hj (by simp)
      · rw [Function.update_of_ne hji] at hj
        refine ⟨(h.used_iff x).mpr ⟨j, hj⟩, ?_⟩
        rintro rfl
        exact hji (h.inj hj hi)

-- Fewer cells than resources leave some resource unused.
theorem exists_unused [Fintype ι] (h : Owned cell used) (s : Finset κ)
    (hcard : Fintype.card ι < s.card) : ∃ k ∈ s, ¬ used k := by
  classical
  by_contra hall
  have hused : ∀ k ∈ s, ∃ i, cell i = some k := by
    intro k hk
    by_contra hno
    exact hall ⟨k, hk, fun hu => hno ((h.used_iff k).mp hu)⟩
  have hsub : s.map ⟨some, Option.some_injective κ⟩ ⊆ Finset.univ.image cell := by
    intro x hx
    obtain ⟨k, hk, rfl⟩ := Finset.mem_map.mp hx
    obtain ⟨i, hi⟩ := hused k hk
    exact Finset.mem_image.mpr ⟨i, Finset.mem_univ i, hi⟩
  have hle : s.card ≤ Fintype.card ι := by
    calc s.card = (s.map ⟨some, Option.some_injective κ⟩).card := (Finset.card_map _).symm
      _ ≤ (Finset.univ.image cell).card := Finset.card_le_card hsub
      _ ≤ Fintype.card ι := Finset.card_image_le
  omega

end Owned

end Ownership
