import Mathlib.Algebra.Group.Nat.Defs
import Mathlib.Data.List.Range
import Mathlib.Logic.Function.Basic

/-!
# Ranges of 32-bit addresses

`span a n` is the `n` addresses from `a` on, wrapping around at the top of the address space.
-/

namespace AddressRange

def span (a : UInt32) (n : Nat) : List UInt32 := (List.range n).map fun k => a + UInt32.ofNat k

theorem mem_span {a x : UInt32} {n : Nat} : x ∈ span a n ↔ ∃ k, k < n ∧ x = a + UInt32.ofNat k := by
  unfold span
  rw [List.mem_map]
  constructor
  · rintro ⟨k, hk, rfl⟩
    exact ⟨k, List.mem_range.mp hk, rfl⟩
  · rintro ⟨k, hk, rfl⟩
    exact ⟨k, List.mem_range.mpr hk, rfl⟩

@[simp] theorem not_mem_span_zero (a x : UInt32) : x ∉ span a 0 := by
  simp [span]

theorem add_ofNat_succ (a : UInt32) (k : Nat) : a + 1 + UInt32.ofNat k = a + UInt32.ofNat (k + 1) := by
  rw [UInt32.add_assoc, show (1 : UInt32) = UInt32.ofNat 1 from rfl, ← UInt32.ofNat_add,
    Nat.add_comm 1 k]

theorem mem_span_succ {a x : UInt32} {n : Nat} :
    x ∈ span a (n + 1) ↔ x = a ∨ x ∈ span (a + 1) n := by
  rw [mem_span, mem_span]
  constructor
  · rintro ⟨k, hk, rfl⟩
    cases k with
    | zero => exact Or.inl (UInt32.add_zero a)
    | succ k => exact Or.inr ⟨k, by omega, (add_ofNat_succ a k).symm⟩
  · rintro (rfl | ⟨k, hk, rfl⟩)
    · exact ⟨0, by omega, (UInt32.add_zero x).symm⟩
    · exact ⟨k + 1, by omega, add_ofNat_succ a k⟩

theorem toNat_add_ofNat {a : UInt32} {k : Nat} (h : a.toNat + k < 2 ^ 32) :
    (a + UInt32.ofNat k).toNat = a.toNat + k := by
  rw [UInt32.toNat_add, UInt32.toNat_ofNat', Nat.mod_eq_of_lt (a := k) (by omega),
    Nat.mod_eq_of_lt h]

-- A range that does not wrap, by address.
theorem mem_span_ofNat {a n : Nat} (h : a + n ≤ 2 ^ 32) {x : UInt32} :
    x ∈ span (UInt32.ofNat a) n ↔ a ≤ x.toNat ∧ x.toNat < a + n := by
  rw [mem_span]
  constructor
  · rintro ⟨k, hk, rfl⟩
    rw [← UInt32.ofNat_add, UInt32.toNat_ofNat', Nat.mod_eq_of_lt (by omega)]
    omega
  · rintro ⟨hlo, hhi⟩
    refine ⟨x.toNat - a, by omega, ?_⟩
    rw [← UInt32.ofNat_add, Nat.add_sub_cancel' hlo, UInt32.ofNat_toNat]

-- A range stays below `hi` only if it ends there without wrapping.
theorem span_subset_iff {a lo hi : UInt32} {n : Nat} :
    (∀ x ∈ span a n, lo ≤ x ∧ x < hi) ↔ n = 0 ∨ (lo ≤ a ∧ a.toNat + n ≤ hi.toNat) := by
  have hhi := hi.toNat_lt
  constructor
  · intro h
    by_cases hn : n = 0
    · exact Or.inl hn
    · have hfirst := h a (mem_span.mpr ⟨0, by omega, (UInt32.add_zero a).symm⟩)
      have hlt := UInt32.lt_iff_toNat_lt.mp hfirst.2
      refine Or.inr ⟨hfirst.1, ?_⟩
      by_contra hover
      -- the address `hi` itself would be in the range
      have hmem : a + UInt32.ofNat (hi.toNat - a.toNat) ∈ span a n := mem_span.mpr ⟨_, by omega, rfl⟩
      have hval := toNat_add_ofNat (a := a) (k := hi.toNat - a.toNat) (by omega)
      have hbad := UInt32.lt_iff_toNat_lt.mp (h _ hmem).2
      omega
  · rintro (rfl | ⟨hlo, hend⟩) x hx
    · exact absurd hx (not_mem_span_zero a x)
    · obtain ⟨k, hk, rfl⟩ := mem_span.mp hx
      have hval := toNat_add_ofNat (a := a) (k := k) (by omega)
      have hlo' := UInt32.le_iff_toNat_le.mp hlo
      exact ⟨UInt32.le_iff_toNat_le.mpr (by omega), UInt32.lt_iff_toNat_lt.mpr (by omega)⟩

end AddressRange
