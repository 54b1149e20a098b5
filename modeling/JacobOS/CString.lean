import Mathlib.Data.List.Basic
import Mathlib.Data.List.TakeWhile

/-!
# C strings

`lib/string.c` on the bytes behind a `char *`.  The bytes are a list, and the end of the list reads
as the terminating NUL, so a list and the string it stands for differ only in what comes after the
first zero byte.
-/

namespace JacobOS.CString

/-- The string that starts at a pointer: its bytes up to the first NUL. -/
def cstr (s : List UInt8) : List UInt8 := s.takeWhile (· ≠ 0)

/-- The bytes of a string literal. -/
def ascii (s : String) : List UInt8 := s.toList.map fun c => UInt8.ofNat c.toNat

def strlen : List UInt8 → Nat
  | [] => 0
  | c :: s => if c = 0 then 0 else strlen s + 1

def strcmp : List UInt8 → List UInt8 → Int
  | [], [] => 0
  | [], b :: _ => 0 - b.toNat
  | a :: _, [] => a.toNat - 0
  | a :: as, b :: bs => if a ≠ 0 ∧ a = b then strcmp as bs else a.toNat - b.toNat

/-- `strncpy`: the first `n` bytes of `dst` become `src` up to its NUL and zeros after that. -/
def strncpy : List UInt8 → List UInt8 → Nat → List UInt8
  | dst, _, 0 => dst
  | dst, [], n + 1 => 0 :: strncpy dst.tail [] n
  | dst, c :: src, n + 1 =>
      if c = 0 then 0 :: strncpy dst.tail [] n else c :: strncpy dst.tail src n

@[simp] theorem cstr_nil : cstr [] = [] := rfl

theorem cstr_cons (c : UInt8) (s : List UInt8) :
    cstr (c :: s) = if c = 0 then [] else c :: cstr s := by
  by_cases h : c = 0 <;> simp [cstr, h]

theorem cstr_ne_zero {s : List UInt8} {c : UInt8} (h : c ∈ cstr s) : c ≠ 0 := by
  have hc := List.mem_takeWhile_imp h
  simpa using hc

theorem cstr_append {t : List UInt8} (h : 0 ∉ t) (s : List UInt8) : cstr (t ++ s) = t ++ cstr s := by
  unfold cstr
  apply List.takeWhile_append_of_pos
  intro c hc
  rw [decide_eq_true_eq]
  rintro rfl
  exact h hc

theorem cstr_eq_self {s : List UInt8} (h : 0 ∉ s) : cstr s = s := by
  have happend := cstr_append h []
  rwa [List.append_nil, cstr_nil, List.append_nil] at happend

@[simp] theorem cstr_cstr (s : List UInt8) : cstr (cstr s) = cstr s :=
  cstr_eq_self fun h => cstr_ne_zero h rfl

/-- A string that is followed by a NUL ends there. -/
theorem cstr_append_zero {t : List UInt8} (h : 0 ∉ t) (s : List UInt8) : cstr (t ++ 0 :: s) = t := by
  rw [cstr_append h, cstr_cons, if_pos rfl, List.append_nil]

theorem strlen_eq (s : List UInt8) : strlen s = (cstr s).length := by
  induction s with
  | nil => rfl
  | cons c s ih =>
    rw [strlen, cstr_cons]
    split
    · rfl
    · rw [ih, List.length_cons]

/-- `strcmp` returns zero exactly on equal strings. -/
theorem strcmp_eq_zero_iff (a b : List UInt8) : strcmp a b = 0 ↔ cstr a = cstr b := by
  induction a generalizing b with
  | nil =>
    cases b with
    | nil => simp [strcmp]
    | cons y b =>
      rw [strcmp, cstr_cons]
      by_cases hy : y = 0
      · simp [hy]
      · have : y.toNat ≠ 0 := fun h => hy (UInt8.toNat_inj.mp h)
        rw [if_neg hy]
        simp only [cstr_nil, reduceCtorEq, iff_false]
        omega
  | cons x a ih =>
    cases b with
    | nil =>
      rw [strcmp, cstr_cons]
      by_cases hx : x = 0
      · simp [hx]
      · have : x.toNat ≠ 0 := fun h => hx (UInt8.toNat_inj.mp h)
        rw [if_neg hx]
        simp only [cstr_nil, reduceCtorEq, iff_false]
        omega
    | cons y b =>
      rw [strcmp, cstr_cons, cstr_cons]
      by_cases hxy : x = y
      · subst hxy
        by_cases hx : x = 0
        · simp [hx]
        · simp [hx, ih]
      · have hne : x.toNat ≠ y.toNat := fun h => hxy (UInt8.toNat_inj.mp h)
        rw [if_neg (fun h => hxy h.2)]
        constructor
        · intro h
          omega
        · intro h
          split_ifs at h with hx hy hy
          · exact absurd (hx.trans hy.symm) hxy
          · exact absurd (List.cons.inj h).1 hxy

theorem strncpy_nil (dst : List UInt8) (n : Nat) :
    strncpy dst [] n = List.replicate n 0 ++ dst.drop n := by
  induction n generalizing dst with
  | zero => simp [strncpy]
  | succ n ih => simp [strncpy, ih, List.replicate_succ]

/-- The bytes `strncpy` leaves behind: the truncated string, its padding, and the untouched rest. -/
theorem strncpy_eq (dst src : List UInt8) (n : Nat) :
    strncpy dst src n =
      (cstr src).take n ++ List.replicate (n - (cstr src).length) 0 ++ dst.drop n := by
  induction n generalizing dst src with
  | zero => simp [strncpy]
  | succ n ih =>
    cases src with
    | nil => simp [strncpy, strncpy_nil, List.replicate_succ]
    | cons c src =>
      rw [strncpy, cstr_cons]
      by_cases hc : c = 0
      · rw [if_pos hc, if_pos hc, strncpy_nil]
        simp [List.replicate_succ]
      · rw [if_neg hc, if_neg hc, ih]
        simp

end JacobOS.CString
