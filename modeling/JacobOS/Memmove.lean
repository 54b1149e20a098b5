import JacobOS.Machine

/-!
# `memmove` of `lib/string.c`

The regions may overlap.  Which of their ends the copy starts from is chosen so that a byte is read before it
is overwritten.
-/

namespace JacobOS

open AddressRange

namespace Machine

/-- `while (n--) *--d = *--s;` -/
def copyDown (d s : UInt32) : Nat → MachineM Unit
  | 0 => return ()
  | n + 1 => do
      let c ← load8 (s - 1)
      store8 (d - 1) c
      copyDown (d - 1) (s - 1) n

/-- `memmove`.  The loop for `d < s` is that of `memcpy`. -/
def memmove (dst src n : UInt32) : MachineM Unit :=
  if dst = src ∨ n = 0 then return ()
  else if dst < src then memcpy dst src n.toNat
  else copyDown (dst + n) (src + n) n.toNat

end Machine

namespace Mem

def copyDown (m : Mem) (d s : UInt32) : Nat → Mem
  | 0 => m
  | n + 1 => copyDown (Function.update m (d - 1) (m (s - 1))) (d - 1) (s - 1) n

-- An address outside the range that has been written.
theorem add_ofNat_ne {a b : UInt32} {i j : Nat} (hi : a.toNat + i < 2 ^ 32) (hj : b.toNat + j < 2 ^ 32)
    (hne : a.toNat + i ≠ b.toNat + j) : a + UInt32.ofNat i ≠ b + UInt32.ofNat j := by
  intro heq
  apply hne
  rw [← toNat_add_ofNat hi, ← toNat_add_ofNat hj, heq]

theorem add_ofNat_succ_sub (a : UInt32) (n : Nat) : a + UInt32.ofNat (n + 1) - 1 = a + UInt32.ofNat n := by
  rw [UInt32.ofNat_add, ← UInt32.add_assoc]
  exact UInt32.add_sub_cancel _ _

-- The induction is on the bytes still to be copied; what is read lies ahead of what has been written.
theorem copy_overlap (m : Mem) {d s : UInt32} {n : Nat} (hlt : d.toNat < s.toNat)
    (hs : s.toNat + n ≤ 2 ^ 32) {i : Nat} (hi : i < n) :
    copy m d s n (d + UInt32.ofNat i) = m (s + UInt32.ofNat i) := by
  induction n generalizing m d s i with
  | zero => exact absurd hi (by omega)
  | succ n ih =>
    have hs0 : s.toNat + 0 < 2 ^ 32 := by omega
    rw [copy]
    cases i with
    | zero =>
      have hout : d + UInt32.ofNat 0 ∉ span (d + 1) n := by
        intro hin
        obtain ⟨k, hk, heq⟩ := mem_span.mp hin
        rw [add_ofNat_succ] at heq
        exact add_ofNat_ne (by omega) (by omega) (by omega) heq
      rw [copy_of_not_mem _ _ _ _ hout, show d + UInt32.ofNat 0 = d from UInt32.add_zero d,
        show s + UInt32.ofNat 0 = s from UInt32.add_zero s, Function.update_self]
    | succ i =>
      have hin : i < n := by omega
      by_cases hn : n = 0
      · omega
      have hd1 : (d + 1).toNat = d.toNat + 1 := toNat_add_ofNat (k := 1) (by omega)
      have hs1 : (s + 1).toNat = s.toNat + 1 := toNat_add_ofNat (k := 1) (by omega)
      rw [← add_ofNat_succ, ih _ (by omega) (by omega) hin, add_ofNat_succ]
      have hne := @add_ofNat_ne s d (i + 1) 0 (by omega) (by omega) (by omega)
      rw [show d + UInt32.ofNat 0 = d from UInt32.add_zero d] at hne
      exact Function.update_of_ne hne ..

theorem copyDown_of_not_mem (m : Mem) (d s : UInt32) (n : Nat) {x : UInt32} (hx : x ∉ span d n) :
    copyDown m (d + UInt32.ofNat n) (s + UInt32.ofNat n) n x = m x := by
  induction n generalizing m with
  | zero => rfl
  | succ n ih =>
    have hlast : x ≠ d + UInt32.ofNat n := fun he => hx (mem_span.mpr ⟨n, by omega, he⟩)
    have hrest : x ∉ span d n := by
      intro hin
      obtain ⟨k, hk, he⟩ := mem_span.mp hin
      exact hx (mem_span.mpr ⟨k, by omega, he⟩)
    rw [copyDown, add_ofNat_succ_sub, add_ofNat_succ_sub, ih _ hrest, Function.update_of_ne hlast]

-- From the end on: what is read lies below what has been written.
theorem copyDown_overlap (m : Mem) {d s : UInt32} {n : Nat} (hle : s.toNat ≤ d.toNat)
    (hd : d.toNat + n ≤ 2 ^ 32) {i : Nat} (hi : i < n) :
    copyDown m (d + UInt32.ofNat n) (s + UInt32.ofNat n) n (d + UInt32.ofNat i) = m (s + UInt32.ofNat i) := by
  induction n generalizing m i with
  | zero => exact absurd hi (by omega)
  | succ n ih =>
    rw [copyDown, add_ofNat_succ_sub, add_ofNat_succ_sub]
    by_cases hlast : i = n
    · have hout : d + UInt32.ofNat i ∉ span d n := by
        intro hin
        obtain ⟨k, hk, heq⟩ := mem_span.mp hin
        exact add_ofNat_ne (by omega) (by omega) (by omega) heq
      rw [copyDown_of_not_mem _ _ _ _ hout, hlast, Function.update_self]
    · rw [ih _ (by omega) (by omega)]
      exact Function.update_of_ne (add_ofNat_ne (by omega) (by omega) (by omega)) ..

end Mem

namespace Machine

theorem copyDown_mem (d s : UInt32) (n : Nat) (t : Machine) :
    (copyDown d s n t).2.mem = t.mem.copyDown d s n := by
  induction n generalizing d s t with
  | zero => rfl
  | succ n ih => exact ih (d - 1) (s - 1) _

/-- After `memmove` the destination holds what the source held, however the two overlap, and nothing else has
changed. -/
theorem memmove_moves (m : Mem) (d s n : UInt32) (hd : d.toNat + n.toNat ≤ 2 ^ 32)
    (hs : s.toNat + n.toNat ≤ 2 ^ 32) :
    (∀ i, i < n.toNat → (memmove d s n (start m)).2.mem (d + UInt32.ofNat i) = m (s + UInt32.ofNat i)) ∧
      ∀ x : UInt32, ¬ (d.toNat ≤ x.toNat ∧ x.toNat < d.toNat + n.toNat) →
        (memmove d s n (start m)).2.mem x = m x := by
  have hspan : ∀ x : UInt32, ¬ (d.toNat ≤ x.toNat ∧ x.toNat < d.toNat + n.toNat) → x ∉ span d n.toNat := by
    intro x hx
    have hiff := @mem_span_ofNat d.toNat n.toNat hd x
    rw [UInt32.ofNat_toNat] at hiff
    exact fun hin => hx (hiff.mp hin)
  unfold memmove
  by_cases hnone : d = s ∨ n = 0
  · rw [if_pos hnone]
    refine ⟨fun i hi => ?_, fun x _ => rfl⟩
    rcases hnone with rfl | rfl
    · rfl
    · exact absurd hi (by simp)
  · rw [if_neg hnone]
    by_cases hlt : d < s
    · rw [if_pos hlt, memcpy_mem]
      refine ⟨fun i hi => ?_, fun x hx => Mem.copy_of_not_mem _ _ _ _ (hspan x hx)⟩
      exact Mem.copy_overlap m (UInt32.lt_iff_toNat_lt.mp hlt) hs hi
    · rw [if_neg hlt, copyDown_mem]
      have hle : s.toNat ≤ d.toNat := UInt32.le_iff_toNat_le.mp (UInt32.not_lt.mp hlt)
      have hn : n = UInt32.ofNat n.toNat := (UInt32.ofNat_toNat).symm
      refine ⟨fun i hi => ?_, fun x hx => ?_⟩
      · have hcopy := Mem.copyDown_overlap m hle hd hi
        rwa [← hn] at hcopy
      · have hkeep := Mem.copyDown_of_not_mem m d s n.toNat (hspan x hx)
        rwa [← hn] at hkeep

-- Four bytes are moved up by two; the last two of the source have been overwritten by then.
theorem memmove_moves_up :
    (memmove 0x1002 0x1000 4 (start fun a => a.toUInt8)).2.mem 0x1005 = 0x03 ∧
      (memmove 0x1002 0x1000 4 (start fun a => a.toUInt8)).2.mem 0x1006 = 0x06 := by
  have hmoves := memmove_moves (fun a => a.toUInt8) 0x1002 0x1000 4 (by decide) (by decide)
  exact ⟨hmoves.1 3 (by decide), hmoves.2 0x1006 (by decide)⟩

end Machine

end JacobOS
