import JacobOS.Machine

/-!
# Words on a stack

A stack grows towards lower addresses, a word at a time.
-/

namespace JacobOS.Mem

open AddressRange

/-- The words are pushed in turn: the memory, and where the stack ends then. -/
def pushWords (m : Mem) (sp : UInt32) : List UInt32 → Mem × UInt32
  | [] => (m, sp)
  | w :: ws => pushWords (m.setWord (sp - 4) w) (sp - 4) ws

/-- The bytes from `a` up to `b` are the same in both memories. -/
def SameOn (m m' : Mem) (a b : Nat) : Prop := ∀ x : UInt32, a ≤ x.toNat → x.toNat < b → m' x = m x

/-- The words `ws` are in the memory from `a` on. -/
def Holds (m : Mem) : Nat → List UInt32 → Prop
  | _, [] => True
  | a, w :: ws => m.word (UInt32.ofNat a) = w ∧ Holds m (a + 4) ws

variable {m m' m'' : Mem} {a b : Nat} {ws : List UInt32}

namespace SameOn

theorem refl (m : Mem) (a b : Nat) : SameOn m m a b := fun _ _ _ => rfl

theorem trans (h : SameOn m m' a b) (h' : SameOn m' m'' a b) : SameOn m m'' a b :=
  fun x ha hb => (h' x ha hb).trans (h x ha hb)

theorem symm (h : SameOn m m' a b) : SameOn m' m a b := fun x ha hb => (h x ha hb).symm

theorem mono (h : SameOn m m' a b) {c d : Nat} (hc : a ≤ c) (hd : d ≤ b) : SameOn m m' c d :=
  fun x ha hb => h x (Nat.le_trans hc ha) (Nat.lt_of_lt_of_le hb hd)

theorem word (h : SameOn m m' a b) {k : Nat} (hk : a ≤ k) (hkb : k + 4 ≤ b) (hmax : k + 4 ≤ 2 ^ 32) :
    m'.word (UInt32.ofNat k) = m.word (UInt32.ofNat k) := by
  have hkeep : ∀ x ∈ span (UInt32.ofNat k) 4, m' x = m x := by
    intro x hx
    have hr := (mem_span_ofNat hmax).mp hx
    exact h x (by omega) (by omega)
  have hword := word_congr hkeep (k := 0) (by decide)
  rwa [show UInt32.ofNat k + UInt32.ofNat 0 = UInt32.ofNat k from UInt32.add_zero _] at hword

-- Outside the word that is written.
theorem setWord (m : Mem) (w : UInt32) {k : Nat} (hmax : k + 4 ≤ 2 ^ 32) (hd : b ≤ k ∨ k + 4 ≤ a) :
    SameOn m (m.setWord (UInt32.ofNat k) w) a b := by
  intro x ha hb
  apply setWord_of_not_mem
  intro hx
  have hr := (mem_span_ofNat hmax).mp hx
  omega

-- The two ranges together are all of memory but the bytes between them.
theorem outside (hlow : SameOn m m' 0 a) (hhigh : SameOn m m' b (2 ^ 32)) {x : UInt32}
    (hx : ¬ (a ≤ x.toNat ∧ x.toNat < b)) : m' x = m x := by
  by_cases hxl : x.toNat < a
  · exact hlow x (Nat.zero_le _) hxl
  · exact hhigh x (by omega) x.toNat_lt

end SameOn

theorem ofNat_sub4 (h : 4 ≤ a) : UInt32.ofNat a - 4 = UInt32.ofNat (a - 4) := by
  have hsplit : UInt32.ofNat a = UInt32.ofNat (a - 4) + 4 := by
    rw [show (4 : UInt32) = UInt32.ofNat 4 from rfl, ← UInt32.ofNat_add]
    congr 1
    omega
  rw [hsplit, UInt32.add_sub_cancel]

namespace Holds

theorem congr (h : Holds m a ws) (hs : SameOn m m' a (a + 4 * ws.length))
    (hmax : a + 4 * ws.length ≤ 2 ^ 32) : Holds m' a ws := by
  induction ws generalizing a with
  | nil => trivial
  | cons w ws ih =>
    rw [List.length_cons] at hs hmax
    refine ⟨?_, ih h.2 (hs.mono (by omega) (by omega)) (by omega)⟩
    rw [hs.word (Nat.le_refl a) (by omega) (by omega)]
    exact h.1

theorem append {vs : List UInt32} (h : Holds m a vs) (h' : Holds m (a + 4 * vs.length) ws) :
    Holds m a (vs ++ ws) := by
  induction vs generalizing a with
  | nil => exact h'
  | cons v vs ih =>
    refine ⟨h.1, ih h.2 ?_⟩
    rw [List.length_cons] at h'
    rwa [show a + 4 + 4 * vs.length = a + 4 * (vs.length + 1) by omega]

end Holds

/-- What pushing words does: the last word pushed is the lowest. -/
theorem pushWords_spec (m : Mem) (ws : List UInt32) {n : Nat} (hlen : 4 * ws.length ≤ n)
    (hsp : n ≤ 2 ^ 32) :
    (m.pushWords (UInt32.ofNat n) ws).2 = UInt32.ofNat (n - 4 * ws.length) ∧
      Holds (m.pushWords (UInt32.ofNat n) ws).1 (n - 4 * ws.length) ws.reverse ∧
      SameOn m (m.pushWords (UInt32.ofNat n) ws).1 0 (n - 4 * ws.length) ∧
      SameOn m (m.pushWords (UInt32.ofNat n) ws).1 n (2 ^ 32) := by
  induction ws generalizing m n with
  | nil => exact ⟨rfl, trivial, SameOn.refl m _ _, SameOn.refl m _ _⟩
  | cons w ws ih =>
    rw [List.length_cons] at hlen ⊢
    rw [pushWords, ofNat_sub4 (by omega)]
    obtain ⟨hsp', hold, hlow, hhigh⟩ := ih (m.setWord (UInt32.ofNat (n - 4)) w) (n := n - 4) (by omega)
      (by omega)
    have hend : n - 4 - 4 * ws.length = n - 4 * (ws.length + 1) := by omega
    rw [hend] at hsp' hold hlow
    refine ⟨hsp', ?_, ?_, ?_⟩
    · rw [List.reverse_cons]
      refine hold.append ?_
      rw [List.length_reverse, show n - 4 * (ws.length + 1) + 4 * ws.length = n - 4 by omega]
      refine ⟨?_, trivial⟩
      rw [hhigh.word (Nat.le_refl _) (by omega) (by omega)]
      exact word_setWord ..
    · exact (SameOn.setWord m w (by omega) (by omega)).trans hlow
    · exact (SameOn.setWord m w (by omega) (by omega)).trans (hhigh.mono (by omega) (Nat.le_refl _))

end JacobOS.Mem
