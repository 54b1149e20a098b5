import Mathlib.Data.Nat.Bitwise
import JacobOS.Lib.Gaps
import JacobOS.Mem.Callers

/-!
# What `kmalloc` hands out

A request is rounded up to a multiple of 8 in 32-bit arithmetic, which turns the last seven sizes into
0.  Below those, allocation is first fit on the gaps that the live pointers leave in the heap.
-/

namespace JacobOS.Kheap

open FirstFit

/-! ## Rounding -/

theorem and_not_seven (x : Nat) : x &&& (2 ^ 32 - 8) = x % 2 ^ 32 / 8 * 8 := by
  apply Nat.eq_of_testBit_eq
  intro i
  rw [show 2 ^ 32 - 8 = 2 ^ 32 - (7 + 1) from rfl, Nat.testBit_and,
    Nat.testBit_two_pow_sub_succ (by decide), show x % 2 ^ 32 / 8 * 8 = (x % 2 ^ 32 / 2 ^ 3) * 2 ^ 3 from rfl,
    Nat.testBit_mul_two_pow, Nat.testBit_div_two_pow, show (7 : Nat) = 2 ^ 3 - 1 from rfl,
    Nat.testBit_two_pow_sub_one]
  by_cases hi : 3 ≤ i
  · rw [Nat.sub_add_cancel hi, Nat.testBit_mod_two_pow, decide_eq_true hi,
      decide_eq_false (Nat.not_lt.mpr hi), Bool.not_false, Bool.and_true, Bool.true_and, Bool.and_comm]
  · rw [decide_eq_false hi, decide_eq_true (Nat.not_le.mp hi)]
    simp

theorem align8_toNat (n : UInt32) : (align8 n).toNat = (n.toNat + 7) % 2 ^ 32 / 8 * 8 := by
  unfold align8
  rw [UInt32.toNat_and, UInt32.toNat_add, show (~~~(7 : UInt32)).toNat = 2 ^ 32 - 8 by decide,
    and_not_seven, Nat.mod_mod]
  rfl

theorem align8_of_le {n : UInt32} (h : n.toNat ≤ 0xFFFFFFF8) :
    (align8 n).toNat = (n.toNat + 7) / 8 * 8 := by
  rw [align8_toNat, Nat.mod_eq_of_lt (by omega)]

theorem align8_wraps {n : UInt32} (h : 0xFFFFFFF8 < n.toNat) : (align8 n).toNat = 0 := by
  have hlt := n.toNat_lt
  rw [align8_toNat]
  omega

/-! ## The size of the block -/

/-- The header's size field of a block that `kmalloc` returned. -/
def payload (p : UInt32) (h : Heap) : Nat := (h.mem.word (p - 12)).toNat

/-- A call of `kmalloc` gives at least what was asked, or null. -/
def GivesEnough (n : UInt32) (h : Heap) : Prop :=
  ∀ p h', kmalloc n h = some (p, h') → p ≠ 0 → n.toNat ≤ payload p h'

/-- No header on the way from `heap_head` is marked free. -/
def NoneFree (h : Heap) : Prop := ∀ hs, Walk h.mem h.head hs → ∀ x ∈ hs, h.mem.word (x + 4) = 0

theorem Walk.unique {m : Mem} {cur : UInt32} {hs hs' : List UInt32} (h : Walk m cur hs)
    (h' : Walk m cur hs') : hs = hs' := by
  induction hs generalizing cur hs' with
  | nil =>
    cases hs' with
    | nil => rfl
    | cons x hs' =>
      obtain ⟨rfl, hx, -⟩ := h'
      exact absurd h hx
  | cons x hs ih =>
    obtain ⟨rfl, hx, hrest⟩ := h
    cases hs' with
    | nil => exact absurd h' hx
    | cons y hs' =>
      obtain ⟨rfl, -, hrest'⟩ := h'
      rw [ih hrest hrest']

section Reached

variable {m : Mem} {s : State} {bs : List Blk}

theorem Inv.noneFree_iff (h : Inv s bs) : NoneFree s.heap ↔ ∀ b ∈ bs, b.free = false := by
  have hwalk := h.blocks.walk
  constructor
  · intro hnone b hb
    obtain ⟨pre, post, rfl⟩ := List.append_of_mem hb
    have hflag := hnone _ hwalk _ (mem_headers.mpr ⟨pre, b, post, rfl, rfl⟩)
    rw [ofNat_add4, h.header_at.2.free] at hflag
    revert hflag
    cases b.free <;> simp
  · intro hused hs hs' x hx
    rw [← hwalk.unique hs'] at hx
    obtain ⟨pre, b, post, rfl, rfl⟩ := mem_headers.mp hx
    rw [ofNat_add4, h.header_at.2.free, hused b (by simp)]
    rfl

-- The size in the header of the block that was cut.
theorem MallocEffect.payload_eq {r : Nat} {pre post : List Blk} {b : Blk} {m m' : Mem} {head : UInt32}
    (h : MallocEffect r pre b post m m') (hr : r ≤ b.size)
    (hend : heapStart + total 12 pre + 12 + b.size ≤ heapEnd) :
    payload (UInt32.ofNat (heapStart + total 12 pre + 12)) ⟨m', head⟩ = cutSize 12 8 r b := by
  have hE : heapEnd = 0x800000 := rfl
  have hle : cutSize 12 8 r b ≤ b.size := by
    unfold cutSize
    split
    · exact hr
    · exact Nat.le_refl _
  unfold payload
  rw [← ofNat_add12, UInt32.add_sub_cancel]
  dsimp only
  rw [h.hdr, toNat_ofNat (by omega)]

-- A size that wraps to 0 fits every free block, and no block has that many bytes.
theorem Inv.not_givesEnough (h : Inv s bs) {n : UInt32} (hn : 0xFFFFFFF8 < n.toNat) {b : Blk}
    (hb : b ∈ bs) (hfree : b.free = true) : ¬ GivesEnough n s.heap := by
  have hE : heapEnd = 0x800000 := rfl
  have hzero := align8_wraps hn
  have hn0 : n ≠ 0 := by
    rintro rfl
    exact absurd hn (by decide)
  rcases kmalloc_firstBlock h.rep h.head hn0 with ⟨hnone, -⟩ | ⟨pre, c, post, m', rfl, -, hr, -, hrun, heff⟩
  · exact absurd ⟨hfree, by omega⟩ (hnone b hb)
  · intro hgives
    have hend := h.header_at.1
    have hlarge := hgives _ _ hrun (ofNat_ne_zero (by omega) (by omega))
    rw [heff.payload_eq hr hend] at hlarge
    unfold cutSize at hlarge
    split at hlarge <;> omega

/-- `kmalloc` gives at least what was asked unless the size is one of the last seven, for which
`ALIGN8` wraps to 0, and some block is free. -/
theorem givesEnough_iff (h : Reached m s) (n : UInt32) :
    GivesEnough n s.heap ↔ n.toNat ≤ 0xFFFFFFF8 ∨ NoneFree s.heap := by
  obtain ⟨bs, hinv⟩ := inv_reached h
  constructor
  · intro hgives
    by_cases hle : n.toNat ≤ 0xFFFFFFF8
    · exact Or.inl hle
    · refine Or.inr (hinv.noneFree_iff.mpr ?_)
      intro b hb
      by_contra hfree
      exact hinv.not_givesEnough (by omega) hb (by simpa using hfree) hgives
  · rintro (hle | hnone) p h' hrun hp
    · have hsize := kmalloc_size h hrun hp
      rw [align8_of_le hle] at hsize
      unfold payload
      omega
    · have hused := hinv.noneFree_iff.mp hnone
      rcases kmalloc_spec hinv.rep hinv.head n with hnull | ⟨pre, b, post, m', rfl, hb, -⟩
      · rw [hnull, Option.some.injEq, Prod.mk.injEq] at hrun
        exact absurd hrun.1.symm hp
      · rw [hused b (by simp)] at hb
        exact absurd hb Bool.false_ne_true

theorem givesEnough_iff_page :
    Reached (fun _ => 0) ⟨kheapInit fun _ => 0, []⟩ ∧ GivesEnough 4096 (kheapInit fun _ => 0) :=
  ⟨.init, (givesEnough_iff .init 4096).mpr (Or.inl (by decide))⟩

-- The largest size there is gets the first block of a fresh heap.
theorem kmalloc_max_too_small : ¬ GivesEnough 0xFFFFFFFF (kheapInit fun _ => 0) :=
  (inv_init fun _ => 0).not_givesEnough (by decide) List.mem_cons_self rfl

/-! ## First fit on the gaps -/

/-- A gap of the heap: a maximal range of its bytes that is not covered by the header and payload of
any live pointer. -/
def HeapGap (s : State) : Nat → Nat → Prop := Gap 12 heapStart heapEnd (s.live.map extent)

theorem Inv.heapGap_iff (h : Inv s bs) (a b : Nat) :
    HeapGap s a b ↔ ∃ pre c post, bs = pre ++ c :: post ∧ c.free = true ∧
      a = heapStart + total 12 pre ∧ b = a + 12 + c.size := by
  unfold HeapGap
  rw [gap_congr h.live, ← h.rep.end_eq, gap_iff (by decide) h.rep.apart]

/-- What first fit does with a request for `r` bytes. -/
structure FirstFits (s : State) (r : Nat) (p : UInt32) (h' : Heap) : Prop where
  null_iff : p = 0 ↔ ∀ a b, HeapGap s a b → b - a < r + 12
  lowest : p ≠ 0 → ∃ a b, HeapGap s a b ∧ r + 12 ≤ b - a ∧
    (∀ a' b', HeapGap s a' b' → r + 12 ≤ b' - a' → a ≤ a') ∧ p.toNat = a + 12 ∧
    payload p h' = if b - a - (r + 12) < 20 then b - a - 12 else r

-- A free block before which no free block is large enough is the lowest gap that is.
theorem total_le_of_prefix {pre post pre' post' : List Blk} {b c : Blk} {r : Nat}
    (heq : pre ++ b :: post = pre' ++ c :: post') (hc : c.free = true ∧ r ≤ c.size)
    (hpre : ∀ d ∈ pre, ¬ (d.free = true ∧ r ≤ d.size)) : total 12 pre ≤ total 12 pre' := by
  rcases List.append_eq_append_iff.mp heq with ⟨mid, rfl, -⟩ | ⟨mid, rfl, hmid⟩
  · rw [total_append]
    omega
  · cases mid with
    | nil =>
      rw [total_append, total]
      omega
    | cons d mid =>
      obtain ⟨rfl, -⟩ : c = d ∧ _ := by simpa using hmid
      exact absurd hc (hpre c (by simp))

/-- For every size that `ALIGN8` does not wrap, `kmalloc` returns, and it takes the lowest gap in which
header and rounded size fit. -/
theorem kmalloc_firstFits (h : Reached m s) (n : UInt32) (h1 : 1 ≤ n.toNat)
    (h2 : n.toNat ≤ 0xFFFFFFF8) :
    ∃ p h', kmalloc n s.heap = some (p, h') ∧ FirstFits s ((n.toNat + 7) / 8 * 8) p h' := by
  have hE : heapEnd = 0x800000 := rfl
  obtain ⟨bs, hinv⟩ := inv_reached h
  have hn0 : n ≠ 0 := by
    rintro rfl
    exact absurd h1 (by decide)
  have hround := align8_of_le h2
  rcases kmalloc_firstBlock hinv.rep hinv.head hn0 with
    ⟨hnone, hrun⟩ | ⟨pre, b, post, m', rfl, hb, hr, hpre, hrun, heff⟩
  · rw [hround] at hnone
    refine ⟨0, s.heap, hrun, ⟨fun _ => ?_, fun _ => rfl⟩, fun hp => absurd rfl hp⟩
    intro a b hgap
    obtain ⟨pre, c, post, rfl, hc, rfl, rfl⟩ := (hinv.heapGap_iff a b).mp hgap
    have hsmall := hnone c (by simp)
    rw [not_and] at hsmall
    have := hsmall hc
    omega
  · have hend := hinv.header_at.1
    have hpay : payload _ ⟨m', s.heap.head⟩ = _ := heff.payload_eq hr hend
    rw [hround] at hr hpre hpay
    have hgap := (hinv.heapGap_iff (heapStart + total 12 pre) _).mpr ⟨pre, b, post, rfl, hb, rfl, rfl⟩
    have hne : UInt32.ofNat (heapStart + total 12 pre + 12) ≠ 0 := ofNat_ne_zero (by omega) (by omega)
    refine ⟨_, _, hrun, ⟨fun hz => absurd hz hne, fun hall => ?_⟩, fun _ => ⟨_, _, hgap, by omega, ?_, ?_, ?_⟩⟩
    · have := hall _ _ hgap
      omega
    · intro a' b' hgap' hfit
      obtain ⟨pre', c, post', heq, hc, rfl, rfl⟩ := (hinv.heapGap_iff a' b').mp hgap'
      have := total_le_of_prefix heq ⟨hc, by omega⟩ hpre
      omega
    · rw [toNat_ofNat (by omega)]
    · rw [hpay, cutSize]
      split <;> split <;> omega

theorem kmalloc_firstFits_page :
    ∃ p h', kmalloc 4096 (kheapInit fun _ => 0) = some (p, h') ∧
      FirstFits ⟨kheapInit fun _ => 0, []⟩ 4096 p h' :=
  kmalloc_firstFits .init 4096 (by decide) (by decide)

end Reached

end JacobOS.Kheap
