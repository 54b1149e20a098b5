import Mathlib.Data.Nat.Find

/-!
# The first index from a given one on

Where a loop stops that looks at one element of a sequence after the other.
-/

namespace FirstIndex

/-- `j` is the first number from `i` on with `p`. -/
def First (p : Nat → Prop) (i j : Nat) : Prop := i ≤ j ∧ p j ∧ ∀ k, i ≤ k → k < j → ¬ p k

variable {p : Nat → Prop} {i : Nat}

theorem First.unique {j j' : Nat} (h : First p i j) (h' : First p i j') : j = j' := by
  rcases Nat.lt_trichotomy j j' with hlt | heq | hlt
  · exact absurd h.2.1 (h'.2.2 j h.1 hlt)
  · exact heq
  · exact absurd h'.2.1 (h.2.2 j' h'.1 hlt)

theorem First.le {j n : Nat} (h : First p i j) (hle : i ≤ n) (hn : p n) : j ≤ n :=
  Nat.le_of_not_lt fun hlt => h.2.2 n hle hlt hn

theorem first_iff_of_pos (hi : p i) (j : Nat) : First p i j ↔ j = i := by
  have hself : First p i i := ⟨Nat.le_refl i, hi, fun k hk hlt => absurd hlt (Nat.not_lt.mpr hk)⟩
  constructor
  · exact fun h => h.unique hself
  · rintro rfl
    exact hself

theorem first_iff_of_neg (hi : ¬ p i) (j : Nat) : First p i j ↔ First p (i + 1) j := by
  constructor
  · rintro ⟨hle, hj, hbefore⟩
    have hne : i ≠ j := fun he => hi (he ▸ hj)
    exact ⟨by omega, hj, fun k hk hlt => hbefore k (by omega) hlt⟩
  · rintro ⟨hle, hj, hbefore⟩
    refine ⟨by omega, hj, fun k hk hlt => ?_⟩
    by_cases he : k = i
    · rw [he]
      exact hi
    · exact hbefore k (by omega) hlt

theorem exists_first {n : Nat} (hle : i ≤ n) (hn : p n) : ∃ j, First p i j := by
  classical
  have hex : ∃ j, i ≤ j ∧ p j := ⟨n, hle, hn⟩
  refine ⟨Nat.find hex, (Nat.find_spec hex).1, (Nat.find_spec hex).2, fun k hk hlt hp => ?_⟩
  exact Nat.find_min hex hlt ⟨hk, hp⟩

end FirstIndex
