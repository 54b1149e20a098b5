import JacobOS.CString
import Mathlib.Algebra.Order.Ring.Nat

/-!
# Numbers as text

`utoa`, `itoa` and `atoi` of `lib/string.c`.  The strings they leave are lists of bytes without the
terminating NUL.  The arithmetic of `atoi` is that of 32-bit words.
-/

namespace JacobOS.Numerals

open CString

/-- The table `digits[]` of `utoa`. -/
def digits : List UInt8 := ascii "0123456789abcdef"

/-- The `while (value)` loop of `utoa`: what it appends to `tmp`.  A word has at most 32 digits. -/
def utoaLoop (base : UInt32) : Nat → UInt32 → List UInt8
  | 0, _ => []
  | passes + 1, value =>
      if value ≠ 0 then digits.getD (value % base).toNat 0 :: utoaLoop base passes (value / base) else []

/-- The string that `utoa` leaves in `buf`. -/
def utoa (value : UInt32) (base : Int) : List UInt8 :=
  if base < 2 ∨ base > 16 then [] else
    ((if value = 0 then ascii "0" else []) ++ utoaLoop (UInt32.ofNat base.toNat) 32 value).reverse

/-- `itoa`: the magnitude is taken in 64 bits, so the least number has one too. -/
def itoa (value : Int32) : List UInt8 :=
  if value < 0 then ascii "-" ++ utoa (UInt32.ofNat (-value.toInt).toNat) 10
  else utoa (UInt32.ofNat value.toInt.toNat) 10

/-- `while (*s >= '0' && *s <= '9') { v = v * 10 + (*s - '0'); s++; }`. -/
def atoiLoop : List UInt8 → Int32 → Int32
  | [], v => v
  | c :: s, v =>
      if 0x30 ≤ c ∧ c ≤ 0x39 then atoiLoop s (v * 10 + Int32.ofNat (c.toNat - 0x30)) else v

/-- `while (*s == ' ' || *s == '\t') s++`. -/
def skipBlanks (s : List UInt8) : List UInt8 := s.dropWhile fun c => c == 0x20 || c == 0x09

def atoi (s : List UInt8) : Int32 :=
  let s := skipBlanks s
  if s.headD 0 = 0x2D then -1 * atoiLoop s.tail 0
  else if s.headD 0 = 0x2B then atoiLoop s.tail 0
  else atoiLoop s 0

/-! ## Numerals -/

/-- The usual numeral of `n` in base `b`. -/
def numeral (b n : Nat) : List UInt8 := (Nat.toDigits b n).map fun c => UInt8.ofNat c.toNat

theorem digit_eq {k : Nat} (hk : k < 16) : digits.getD k 0 = UInt8.ofNat (Nat.digitChar k).toNat := by
  have hall : ∀ k, k < 16 → digits.getD k 0 = UInt8.ofNat (Nat.digitChar k).toNat := by decide
  exact hall k hk

theorem numeral_of_lt {b n : Nat} (h : n < b) (hb : b ≤ 16) : numeral b n = [digits.getD n 0] := by
  rw [numeral, Nat.toDigits_of_lt_base h, digit_eq (by omega)]
  rfl

-- The last digit, and the ones before it.
theorem numeral_of_le {b n : Nat} (hb : 1 < b) (hb16 : b ≤ 16) (h : b ≤ n) :
    numeral b n = numeral b (n / b) ++ [digits.getD (n % b) 0] := by
  have hmod := Nat.mod_lt n (show 0 < b by omega)
  rw [numeral, Nat.toDigits_of_base_le hb h, List.map_append, digit_eq (by omega)]
  rfl

theorem reverse_utoaLoop {b : Nat} (hb : 1 < b) (hb16 : b ≤ 16) (passes : Nat) {value : UInt32}
    (hpos : value ≠ 0) (hlt : value.toNat < b ^ passes) :
    (utoaLoop (UInt32.ofNat b) passes value).reverse = numeral b value.toNat := by
  have hbase : (UInt32.ofNat b).toNat = b := UInt32.toNat_ofNat_of_lt' (by rw [UInt32.size]; omega)
  induction passes generalizing value with
  | zero =>
    have hzero : value.toNat ≠ 0 := fun h0 => hpos (UInt32.toNat_inj.mp h0)
    rw [Nat.pow_zero] at hlt
    omega
  | succ passes ih =>
    rw [utoaLoop, if_pos hpos, List.reverse_cons, UInt32.toNat_mod, hbase]
    have hdiv : (value / UInt32.ofNat b).toNat = value.toNat / b := by rw [UInt32.toNat_div, hbase]
    by_cases hsmall : value.toNat < b
    · have hdone : value / UInt32.ofNat b = 0 := by
        apply UInt32.toNat_inj.mp
        rw [hdiv, Nat.div_eq_of_lt hsmall]
        rfl
      have hstop : utoaLoop (UInt32.ofNat b) passes 0 = [] := by cases passes <;> rfl
      rw [hdone, hstop, Nat.mod_eq_of_lt hsmall, numeral_of_lt hsmall hb16]
      rfl
    · have hle : b ≤ value.toNat := Nat.le_of_not_lt hsmall
      have hmore : value / UInt32.ofNat b ≠ 0 := by
        intro h0
        have hz := congrArg UInt32.toNat h0
        rw [hdiv] at hz
        have hge := Nat.div_pos hle (show 0 < b by omega)
        rw [hz] at hge
        exact absurd hge (by decide)
      have hlt' : (value / UInt32.ofNat b).toNat < b ^ passes := by
        rw [hdiv]
        exact Nat.div_lt_of_lt_mul (by rw [Nat.mul_comm, ← Nat.pow_succ]; exact hlt)
      rw [ih hmore hlt', hdiv, numeral_of_le hb hb16 hle]

theorem utoa_eq_numeral (value : UInt32) {b : Nat} (hb : 1 < b) (hb16 : b ≤ 16) :
    utoa value b = numeral b value.toNat := by
  have hlt : value.toNat < b ^ 32 :=
    Nat.lt_of_lt_of_le value.toNat_lt (Nat.pow_le_pow_left hb 32)
  unfold utoa
  rw [if_neg (by omega), Int.toNat_natCast]
  by_cases hzero : value = 0
  · rw [if_pos hzero, hzero, show (0 : UInt32).toNat = 0 from rfl, numeral_of_lt (by omega) hb16]
    rfl
  · rw [if_neg hzero, List.nil_append, reverse_utoaLoop hb hb16 32 hzero hlt]

/-! ## There and back -/

-- Along the digits, the last one first.
theorem numeral_induction {b : Nat} (hb : 1 < b) {P : Nat → Prop} (hsmall : ∀ n, n < b → P n)
    (hstep : ∀ n, b ≤ n → P (n / b) → P n) (n : Nat) : P n := by
  induction n using Nat.strong_induction_on with
  | _ n ih =>
    by_cases h : n < b
    · exact hsmall n h
    · have hle : b ≤ n := Nat.le_of_not_lt h
      exact hstep n hle (ih (n / b) (Nat.div_lt_self (by omega) hb))

-- Reading a digit.
theorem atoiLoop_digit {k : Nat} (hk : k < 10) (s : List UInt8) (v : Int32) :
    atoiLoop (digits.getD k 0 :: s) v = atoiLoop s (v * 10 + Int32.ofNat k) := by
  have hbyte : digits.getD k 0 = UInt8.ofNat (0x30 + k) := by
    have hall : ∀ k, k < 10 → digits.getD k 0 = UInt8.ofNat (0x30 + k) := by decide
    exact hall k hk
  have hnat : (UInt8.ofNat (0x30 + k)).toNat = 0x30 + k := UInt8.toNat_ofNat_of_lt' (by rw [UInt8.size]; omega)
  rw [atoiLoop, hbyte, if_pos, hnat, Nat.add_sub_cancel_left]
  rw [UInt8.le_iff_toNat_le, UInt8.le_iff_toNat_le, hnat]
  change 48 ≤ 48 + k ∧ 48 + k ≤ 57
  omega

theorem atoiLoop_numeral (n : Nat) (s : List UInt8) :
    atoiLoop (numeral 10 n ++ s) 0 = atoiLoop s (Int32.ofNat n) := by
  induction n using numeral_induction (show 1 < 10 by decide) generalizing s with
  | hsmall n h =>
    rw [numeral_of_lt h (by decide), List.singleton_append, atoiLoop_digit h]
    simp
  | hstep n h ih =>
    rw [numeral_of_le (by decide) (by decide) h, List.append_assoc, ih, List.singleton_append,
      atoiLoop_digit (Nat.mod_lt _ (by decide))]
    congr 1
    have heq : n = n / 10 * 10 + n % 10 := by omega
    rw [show Int32.ofNat n = Int32.ofNat (n / 10 * 10 + n % 10) from congrArg Int32.ofNat heq, Int32.ofNat_add,
      Int32.ofNat_mul]
    rfl

theorem length_numeral_le {b n k : Nat} (hb : 1 < b) (hk : 0 < k) (h : n < b ^ k) :
    (numeral b n).length ≤ k := by
  rw [numeral, List.length_map]
  exact (Nat.length_toDigits_le_iff hb hk).mpr h

-- A numeral begins with a digit.
theorem numeral_head (n : Nat) : ∃ k s, k < 10 ∧ numeral 10 n = digits.getD k 0 :: s := by
  induction n using numeral_induction (show 1 < 10 by decide) with
  | hsmall n h => exact ⟨n, [], h, numeral_of_lt h (by decide)⟩
  | hstep n h ih =>
    obtain ⟨k, s, hk, heq⟩ := ih
    exact ⟨k, s ++ [digits.getD (n % 10) 0], hk, by rw [numeral_of_le (by decide) (by decide) h, heq]; rfl⟩

-- Only the first character decides how `atoi` begins.
theorem atoi_digit {k : Nat} (hk : k < 10) (s : List UInt8) :
    atoi (digits.getD k 0 :: s) = atoiLoop (digits.getD k 0 :: s) 0 := by
  have hhead : ∀ k, k < 10 → digits.getD k 0 ≠ 0x20 ∧ digits.getD k 0 ≠ 0x09 ∧ digits.getD k 0 ≠ 0x2D ∧
      digits.getD k 0 ≠ 0x2B := by decide
  obtain ⟨h1, h2, h3, h4⟩ := hhead k hk
  have hskip : skipBlanks (digits.getD k 0 :: s) = digits.getD k 0 :: s := by
    rw [skipBlanks, List.dropWhile_cons_of_neg]
    rw [beq_eq_false_iff_ne.mpr h1, beq_eq_false_iff_ne.mpr h2]
    decide
  unfold atoi
  dsimp only
  rw [hskip, if_neg (show ¬ (digits.getD k 0 :: s).headD 0 = 0x2D from h3),
    if_neg (show ¬ (digits.getD k 0 :: s).headD 0 = 0x2B from h4)]

theorem atoi_numeral_append (n : Nat) (s : List UInt8) :
    atoi (numeral 10 n ++ s) = atoiLoop s (Int32.ofNat n) := by
  obtain ⟨k, t, hk, heq⟩ := numeral_head n
  rw [← atoiLoop_numeral n s, heq, List.cons_append, atoi_digit hk]

theorem atoi_numeral (n : Nat) : atoi (numeral 10 n) = Int32.ofNat n := by
  have hread := atoi_numeral_append n []
  rw [List.append_nil] at hread
  exact hread

theorem itoa_ofNat {n : Nat} (h : n < 2 ^ 31) : itoa (Int32.ofNat n) = numeral 10 n := by
  have hint : (Int32.ofNat n).toInt = n := Int32.toInt_ofNat_of_lt h
  have hnat : (UInt32.ofNat n).toNat = n := UInt32.toNat_ofNat_of_lt' (by rw [UInt32.size]; omega)
  have hpos : ¬ Int32.ofNat n < 0 := by
    rw [Int32.lt_iff_toInt_lt, hint]
    change ¬ (n : Int) < 0
    omega
  unfold itoa
  rw [if_neg hpos, hint, Int.toNat_natCast]
  exact (utoa_eq_numeral _ (by decide) (by decide)).trans (by rw [hnat])

-- The next number, as long as it is one of `int`.
example : itoa (atoi (ascii "41") + 1) = ascii "42" := by decide

/-! ## The digits of a numeral -/

/-- The place of `c` in `digits[]`. -/
def digitValue (c : UInt8) : Nat := digits.idxOf c

/-- `s` is the canonical numeral of `n` in base `b`. -/
structure IsNumeral (b n : Nat) (s : List UInt8) : Prop where
  digit : ∀ c ∈ s, digitValue c < b
  value : s.foldl (fun v c => v * b + digitValue c) 0 = n
  zero : n = 0 → s = ascii "0"
  leading : n ≠ 0 → ∃ c ∈ s.head?, c ≠ 0x30

theorem digitValue_digit {k : Nat} (hk : k < 16) : digitValue (digits.getD k 0) = k := by
  have hall : ∀ k, k < 16 → digitValue (digits.getD k 0) = k := by decide
  exact hall k hk

theorem isNumeral_numeral {b : Nat} (hb : 1 < b) (hb16 : b ≤ 16) (n : Nat) : IsNumeral b n (numeral b n) := by
  induction n using numeral_induction hb with
  | hsmall n h =>
    rw [numeral_of_lt h hb16]
    have hn : n < 16 := Nat.lt_of_lt_of_le h hb16
    constructor
    · intro c hc
      rw [List.mem_singleton.mp hc, digitValue_digit hn]
      exact h
    · rw [List.foldl_cons, List.foldl_nil, digitValue_digit hn, Nat.zero_mul, Nat.zero_add]
    · rintro rfl
      rfl
    · intro hpos
      have hall : ∀ k, k < 16 → k ≠ 0 → digits.getD k 0 ≠ 0x30 := by decide
      exact ⟨_, rfl, hall n hn hpos⟩
  | hstep n h ih =>
    rw [numeral_of_le hb hb16 h]
    have hmod : n % b < b := Nat.mod_lt n (by omega)
    have hlast : digitValue (digits.getD (n % b) 0) = n % b := digitValue_digit (by omega)
    constructor
    · intro c hc
      rcases List.mem_append.mp hc with hin | hin
      · exact ih.digit c hin
      · rw [List.mem_singleton.mp hin, hlast]
        exact hmod
    · rw [List.foldl_append, ih.value, List.foldl_cons, List.foldl_nil, hlast]
      exact Nat.div_add_mod' n b
    · omega
    · intro _
      have hdiv : n / b ≠ 0 := Nat.ne_of_gt (Nat.div_pos h (by omega))
      obtain ⟨c, hc, hne⟩ := ih.leading hdiv
      exact ⟨c, by rw [List.head?_append, Option.mem_def.mp hc]; rfl, hne⟩

/-! ## The whole range of `int` -/

/-- What is stored from `buf` on when a function leaves the string `s` in it. -/
def stored (s : List UInt8) : List UInt8 := s ++ [0]

-- A number of `int` that is not negative is its own magnitude.
theorem ofNat_toInt {v : Int32} (h : 0 ≤ v.toInt) : Int32.ofNat v.toInt.toNat = v := by
  rw [← Int32.ofInt_eq_ofNat, Int.toNat_of_nonneg h, Int32.ofInt_toInt]

theorem toInt_nonneg {v : Int32} (h : ¬ v < 0) : 0 ≤ v.toInt := by
  rw [Int32.lt_iff_toInt_lt] at h
  exact Int.not_lt.mp h

theorem itoa_of_neg {v : Int32} (h : v < 0) : itoa v = ascii "-" ++ numeral 10 (-v.toInt).toNat := by
  have hlow := Int32.le_toInt v
  have hnat : (UInt32.ofNat (-v.toInt).toNat).toNat = (-v.toInt).toNat :=
    UInt32.toNat_ofNat_of_lt' (by rw [UInt32.size]; omega)
  unfold itoa
  rw [if_pos h]
  congr 1
  exact (utoa_eq_numeral _ (by decide) (by decide)).trans (by rw [hnat])

theorem itoa_of_nonneg {v : Int32} (h : ¬ v < 0) : itoa v = numeral 10 v.toInt.toNat := by
  have hhigh := Int32.toInt_lt v
  have hlt : v.toInt.toNat < 2 ^ 31 := by omega
  rw [← itoa_ofNat hlt, ofNat_toInt (toInt_nonneg h)]

-- The magnitude of the least number is not one of `int`; negating twice modulo 2 ^ 32 brings it back.
theorem atoi_itoa (v : Int32) (s : List UInt8) : atoi (stored (itoa v) ++ s) = v := by
  have hstop : ∀ w, atoiLoop (0 :: s) w = w := by
    intro w
    rw [atoiLoop, if_neg (by decide)]
  rw [stored, List.append_assoc, List.singleton_append]
  by_cases h : v < 0
  · have hneg : v.toInt < 0 := Int32.lt_iff_toInt_lt.mp h
    have hmag : Int32.ofNat (-v.toInt).toNat = -v := by
      rw [← Int32.ofInt_eq_ofNat, Int.toNat_of_nonneg (by omega), Int32.ofInt_neg, Int32.ofInt_toInt]
    rw [itoa_of_neg h, List.append_assoc]
    show -1 * atoiLoop (numeral 10 (-v.toInt).toNat ++ 0 :: s) 0 = v
    rw [atoiLoop_numeral, hstop, hmag, Int32.neg_mul, Int32.one_mul, Int32.neg_neg]
  · rw [itoa_of_nonneg h, atoi_numeral_append, hstop, ofNat_toInt (toInt_nonneg h)]

theorem length_itoa_le (v : Int32) : (itoa v).length ≤ 11 := by
  have hlow := Int32.le_toInt v
  have hhigh := Int32.toInt_lt v
  by_cases h : v < 0
  · rw [itoa_of_neg h, List.length_append]
    have hle := @length_numeral_le 10 (-v.toInt).toNat 10 (by decide) (by decide) (by omega)
    show 1 + _ ≤ 11
    omega
  · rw [itoa_of_nonneg h]
    have hle := @length_numeral_le 10 v.toInt.toNat 10 (by decide) (by decide) (by omega)
    omega

/-- `utoa` leaves the canonical numeral of its value in the base asked for, in at most 33 bytes; `atoi` reads back
what `itoa` leaves, of which there are at most 12 bytes: the 16 of `kprint_dec` and of the boot counter are
enough. -/
theorem utoa_itoa_atoi {b : Nat} (hb : 2 ≤ b) (hb16 : b ≤ 16) (v : UInt32) (w : Int32) (s : List UInt8) :
    IsNumeral b v.toNat (utoa v b) ∧ (stored (utoa v b)).length ≤ 33 ∧
      atoi (stored (itoa w) ++ s) = w ∧ (stored (itoa w)).length ≤ 12 := by
  have hlt : v.toNat < b ^ 32 := Nat.lt_of_lt_of_le v.toNat_lt (Nat.pow_le_pow_left hb 32)
  have hlen := length_numeral_le hb (by decide) hlt
  have hitoa := length_itoa_le w
  rw [utoa_eq_numeral v hb hb16, stored, stored, List.length_append, List.length_append]
  exact ⟨isNumeral_numeral hb hb16 _, Nat.succ_le_succ hlen, atoi_itoa w s, Nat.succ_le_succ hitoa⟩

-- The least number of `int`, and the longest numeral.
theorem utoa_itoa_atoi_least : atoi (stored (itoa Int32.minValue)) = Int32.minValue ∧
    (stored (utoa 0xFFFFFFFF 2)).length ≤ 33 := by
  have h := utoa_itoa_atoi (show 2 ≤ 2 by decide) (by decide) 0xFFFFFFFF Int32.minValue []
  rw [List.append_nil] at h
  exact ⟨h.2.2.1, h.2.1⟩

end JacobOS.Numerals
