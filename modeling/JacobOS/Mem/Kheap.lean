import JacobOS.Lib.FirstFit
import JacobOS.Machine

/-!
# The kernel heap of `mem/kheap.c`

Headers live in memory: at a header's address its `size`, 4 bytes on its `free` flag, 8 bytes on the
address of the next header.  The loops follow `next` and are given as many passes as the heap has
bytes; that they return is part of what is proved.

`Seg` reads a piece of the heap as a list of blocks, and each operation is shown to do to that list
what first-fit allocation does.
-/

namespace JacobOS.Kheap

open AddressRange FirstFit

def heapStart : Nat := 0x400000
def heapSize : Nat := 0x400000
def heapEnd : Nat := 0x800000

structure Heap where
  mem : Mem
  /-- `heap_head`. -/
  head : UInt32

def kheapInit (m : Mem) : Heap :=
  let head := UInt32.ofNat heapStart
  let m := m.setWord head (UInt32.ofNat heapSize - 12)
  let m := m.setWord (head + 4) 1
  let m := m.setWord (head + 8) 0
  ⟨m, head⟩

/-- `ALIGN8`, which wraps for the last seven sizes. -/
def align8 (n : UInt32) : UInt32 := (n + 7) &&& ~~~7

/-- The block at `cur` is taken into use for `size` bytes. -/
def take (size cur : UInt32) (m : Mem) : Mem :=
  let m :=
    -- split off the remainder if there is room for another block
    if m.word cur ≥ size + 12 + 8 then
      let nb := cur + 12 + size
      let m := m.setWord nb (m.word cur - size - 12)
      let m := m.setWord (nb + 4) 1
      let m := m.setWord (nb + 8) (m.word (cur + 8))
      let m := m.setWord (cur + 8) nb
      m.setWord cur size
    else m
  m.setWord (cur + 4) 0

def kmallocLoop (size : UInt32) (m : Mem) : Nat → UInt32 → Option (UInt32 × Mem)
  | 0, _ => none
  | passes + 1, cur =>
      if cur = 0 then some (0, m)
      else if m.word (cur + 4) = 0 ∨ m.word cur < size then
        kmallocLoop size m passes (m.word (cur + 8))
      else some (cur + 12, take size cur m)

/-- `kmalloc`: the pointer, 0 when there is no room. -/
def kmalloc (n : UInt32) (h : Heap) : Option (UInt32 × Heap) :=
  if n = 0 then some (0, h)
  else (kmallocLoop (align8 n) h.mem heapSize h.head).map fun (p, m) => (p, { h with mem := m })

/-- The merge loop of `kfree`.  A pass either merges the block after `cur` into it or moves on. -/
def kfreeLoop : Nat → UInt32 → Mem → Option Mem
  | 0, _, _ => none
  | passes + 1, cur, m =>
      if cur = 0 then some m
      else if m.word (cur + 4) ≠ 0 ∧ m.word (cur + 8) ≠ 0 ∧ m.word (m.word (cur + 8) + 4) ≠ 0 then
        let next := m.word (cur + 8)
        let m := m.setWord cur (m.word cur + (12 + m.word next))
        let m := m.setWord (cur + 8) (m.word (next + 8))
        kfreeLoop passes cur m
      else kfreeLoop passes (m.word (cur + 8)) m

def kfree (ptr : UInt32) (h : Heap) : Option Heap :=
  if ptr = 0 then some h
  else (kfreeLoop heapSize h.head (h.mem.setWord (ptr - 12 + 4) 1)).map fun m => { h with mem := m }

/-- The sum of the sizes of the free blocks, or of the others. -/
def sumLoop (free : Bool) (m : Mem) : Nat → UInt32 → UInt32 → Option UInt32
  | 0, _, _ => none
  | passes + 1, cur, sum =>
      if cur = 0 then some sum
      else sumLoop free m passes (m.word (cur + 8))
        (if decide (m.word (cur + 4) ≠ 0) = free then sum + m.word cur else sum)

def kheapUsed (h : Heap) : Option UInt32 := sumLoop false h.mem heapSize h.head 0

def kheapFree (h : Heap) : Option UInt32 := sumLoop true h.mem heapSize h.head 0

/-! ## Words at heap addresses -/

section Words

variable (m : Mem)

theorem word_same (a : Nat) (w : UInt32) :
    (m.setWord (UInt32.ofNat a) w).word (UInt32.ofNat a) = w := Mem.word_setWord ..

theorem word_other {a b : Nat} (w : UInt32) (hd : b + 4 ≤ a ∨ a + 4 ≤ b) (ha : a + 4 ≤ 2 ^ 32)
    (hb : b + 4 ≤ 2 ^ 32) :
    (m.setWord (UInt32.ofNat a) w).word (UInt32.ofNat b) = m.word (UInt32.ofNat b) := by
  apply Mem.word_setWord_other
  intro x hx hx'
  have h1 := (mem_span_ofNat hb).mp hx
  have h2 := (mem_span_ofNat ha).mp hx'
  omega

theorem byte_other {a x : Nat} (w : UInt32) (hd : x < a ∨ a + 4 ≤ x) (ha : a + 4 ≤ 2 ^ 32)
    (hx : x < 2 ^ 32) :
    (m.setWord (UInt32.ofNat a) w) (UInt32.ofNat x) = m (UInt32.ofNat x) := by
  apply Mem.setWord_of_not_mem
  intro hin
  have h := (mem_span_ofNat ha).mp hin
  rw [UInt32.toNat_ofNat', Nat.mod_eq_of_lt hx] at h
  omega

theorem word_keep {m' : Mem} {a : Nat} (ha : a + 4 ≤ 2 ^ 32)
    (h : ∀ x, a ≤ x → x < a + 4 → m' (UInt32.ofNat x) = m (UInt32.ofNat x)) :
    m'.word (UInt32.ofNat a) = m.word (UInt32.ofNat a) := by
  have hkeep : ∀ x ∈ span (UInt32.ofNat a) 4, m' x = m x := by
    intro x hx
    have hr := (mem_span_ofNat ha).mp hx
    have hb := h x.toNat hr.1 hr.2
    rwa [UInt32.ofNat_toNat] at hb
  have hword := Mem.word_congr hkeep (k := 0) (by decide)
  rwa [show UInt32.ofNat a + UInt32.ofNat 0 = UInt32.ofNat a from UInt32.add_zero _] at hword

end Words

theorem ofNat_add4 (a : Nat) : UInt32.ofNat a + 4 = UInt32.ofNat (a + 4) := (UInt32.ofNat_add ..).symm
theorem ofNat_add8 (a : Nat) : UInt32.ofNat a + 8 = UInt32.ofNat (a + 8) := (UInt32.ofNat_add ..).symm
theorem ofNat_add12 (a : Nat) : UInt32.ofNat a + 12 = UInt32.ofNat (a + 12) :=
  (UInt32.ofNat_add ..).symm

theorem toNat_ofNat {a : Nat} (h : a < 2 ^ 32) : (UInt32.ofNat a).toNat = a := by
  rw [UInt32.toNat_ofNat', Nat.mod_eq_of_lt h]

theorem ofNat_ne_zero {a : Nat} (h0 : 0 < a) (h : a < 2 ^ 32) : UInt32.ofNat a ≠ 0 := by
  intro he
  have hn := toNat_ofNat h
  rw [he] at hn
  exact absurd hn (by change 0 ≠ a; omega)

/-! ## Blocks in memory -/

/-- The pointer to the header at `a`; past the last block it is null. -/
def link (a : Nat) : UInt32 := if a = heapEnd then 0 else UInt32.ofNat a

structure HdrAt (m : Mem) (a : Nat) (b : Blk) : Prop where
  size : m.word (UInt32.ofNat a) = UInt32.ofNat b.size
  free : m.word (UInt32.ofNat (a + 4)) = if b.free then 1 else 0
  next : m.word (UInt32.ofNat (a + 8)) = link (a + 12 + b.size)

/-- The blocks whose headers are laid out in `m` from `a` on. -/
def Seg (m : Mem) : Nat → List Blk → Prop
  | _, [] => True
  | a, b :: bs => HdrAt m a b ∧ Seg m (a + 12 + b.size) bs

theorem seg_append {m : Mem} {a : Nat} {bs cs : List Blk} :
    Seg m a (bs ++ cs) ↔ Seg m a bs ∧ Seg m (a + total 12 bs) cs := by
  induction bs generalizing a with
  | nil => exact ⟨fun h => ⟨trivial, h⟩, fun h => h.2⟩
  | cons b bs ih =>
    rw [List.cons_append, Seg, Seg, ih, and_assoc, total,
      show a + 12 + b.size + total 12 bs = a + (12 + b.size + total 12 bs) by omega]

-- Only the headers matter.
theorem HdrAt.congr {m m' : Mem} {a : Nat} {b : Blk} (h : HdrAt m a b) (ha : a + 12 ≤ 2 ^ 32)
    (hkeep : ∀ x, a ≤ x → x < a + 12 → m' (UInt32.ofNat x) = m (UInt32.ofNat x)) : HdrAt m' a b := by
  refine ⟨?_, ?_, ?_⟩
  · rw [word_keep m (by omega) fun x h1 h2 => hkeep x (by omega) (by omega)]
    exact h.size
  · rw [word_keep m (by omega) fun x h1 h2 => hkeep x (by omega) (by omega)]
    exact h.free
  · rw [word_keep m (by omega) fun x h1 h2 => hkeep x (by omega) (by omega)]
    exact h.next

theorem Seg.congr {m m' : Mem} {a : Nat} {bs : List Blk} (h : Seg m a bs)
    (hend : a + total 12 bs ≤ heapEnd)
    (hkeep : ∀ x, a ≤ x → x < a + total 12 bs → m' (UInt32.ofNat x) = m (UInt32.ofNat x)) :
    Seg m' a bs := by
  induction bs generalizing a with
  | nil => trivial
  | cons b bs ih =>
    have hE : heapEnd = 0x800000 := rfl
    rw [total] at hend hkeep
    refine ⟨h.1.congr (by omega) fun x h1 h2 => hkeep x h1 (by omega), ?_⟩
    exact ih h.2 (by omega) fun x h1 h2 => hkeep x (by omega) (by omega)

/-! ## Allocation -/

theorem take_spec {m : Mem} {a r : Nat} {b : Blk} (h : HdrAt m a b) (hr : r ≤ b.size)
    (hend : a + 12 + b.size ≤ heapEnd) :
    Seg (take (UInt32.ofNat r) (UInt32.ofNat a) m) a (cut 12 8 r b) ∧
      ∀ x, x < 2 ^ 32 → x < a ∨ a + 12 + b.size ≤ x →
        take (UInt32.ofNat r) (UInt32.ofNat a) m (UInt32.ofNat x) = m (UInt32.ofNat x) := by
  have hE : heapEnd = 0x800000 := rfl
  have hcond : m.word (UInt32.ofNat a) ≥ UInt32.ofNat r + 12 + 8 ↔ r + 12 + 8 ≤ b.size := by
    rw [h.size, ofNat_add12, ofNat_add8, ge_iff_le, UInt32.le_iff_toNat_le, toNat_ofNat (by omega),
      toNat_ofNat (by omega)]
  unfold take cut
  by_cases hroom : r + 12 + 8 ≤ b.size
  · have hnb : UInt32.ofNat a + 12 + UInt32.ofNat r = UInt32.ofNat (a + 12 + r) := by
      rw [ofNat_add12, ← UInt32.ofNat_add]
    have hrest : UInt32.ofNat b.size - UInt32.ofNat r - 12 = UInt32.ofNat (b.size - r - 12) := by
      apply UInt32.toNat_inj.mp
      rw [UInt32.toNat_sub, UInt32.toNat_sub, toNat_ofNat (by omega), toNat_ofNat (by omega),
        toNat_ofNat (by omega)]
      show (2 ^ 32 - 12 + _) % 2 ^ 32 = _
      omega
    have hlink : link (a + 12 + r) = UInt32.ofNat (a + 12 + r) := if_neg (by omega)
    have hnext : a + 12 + r + 12 + (b.size - r - 12) = a + 12 + b.size := by omega
    rw [if_pos (hcond.mpr hroom), if_pos hroom]
    simp only [hnb, ofNat_add4, ofNat_add8]
    refine ⟨⟨⟨?_, ?_, ?_⟩, ⟨?_, ?_, ?_⟩, trivial⟩, ?_⟩
    · simp (disch := omega) only [word_same, word_other]
    · simp (disch := omega) only [word_same]
      rfl
    · simp (disch := omega) only [word_same, word_other, hlink]
    · simp (disch := omega) only [word_same, word_other, h.size, hrest]
    · simp (disch := omega) only [word_same, word_other]
      rfl
    · simp (disch := omega) only [word_same, word_other, h.next, hnext]
    · intro x hx hout
      simp (disch := omega) only [byte_other]
  · rw [if_neg (fun hc => hroom (hcond.mp hc)), if_neg hroom]
    simp only [ofNat_add4]
    refine ⟨⟨⟨?_, ?_, ?_⟩, trivial⟩, ?_⟩
    · simp (disch := omega) only [word_other, h.size]
    · simp (disch := omega) only [word_same]
      rfl
    · simp (disch := omega) only [word_other, h.next]
    · intro x hx hout
      simp (disch := omega) only [byte_other]

theorem link_of_lt {a : Nat} (h : a < heapEnd) : link a = UInt32.ofNat a := if_neg (by omega)

theorem link_heapEnd : link heapEnd = 0 := if_pos rfl

-- The first block that is free and large enough is taken.
theorem kmallocLoop_spec {m : Mem} {r : Nat} (hr : r < 2 ^ 32) (bs : List Blk) {a : Nat} (ha : 0 < a)
    (hseg : Seg m a bs) (hend : a + total 12 bs = heapEnd) (passes : Nat)
    (hpasses : bs.length < passes) :
    ((∀ b ∈ bs, ¬ (b.free = true ∧ r ≤ b.size)) ∧
        kmallocLoop (UInt32.ofNat r) m passes (link a) = some (0, m)) ∨
      ∃ pre b post, bs = pre ++ b :: post ∧ b.free = true ∧ r ≤ b.size ∧
        (∀ c ∈ pre, ¬ (c.free = true ∧ r ≤ c.size)) ∧
        kmallocLoop (UInt32.ofNat r) m passes (link a) =
          some (UInt32.ofNat (a + total 12 pre + 12),
            take (UInt32.ofNat r) (UInt32.ofNat (a + total 12 pre)) m) := by
  have hE : heapEnd = 0x800000 := rfl
  obtain ⟨passes, rfl⟩ : ∃ k, passes = k + 1 := ⟨passes - 1, by omega⟩
  induction bs generalizing a passes with
  | nil =>
    rw [show a = heapEnd from hend, link_heapEnd, kmallocLoop, if_pos rfl]
    exact Or.inl ⟨fun b hb => absurd hb (by simp), rfl⟩
  | cons b bs ih =>
    rw [total] at hend
    obtain ⟨hhdr, hrest⟩ := hseg
    rw [link_of_lt (by omega), kmallocLoop, if_neg (ofNat_ne_zero ha (by omega)), ofNat_add4,
      ofNat_add8, ofNat_add12, hhdr.free, hhdr.size, hhdr.next]
    have hcond : ((if b.free then (1 : UInt32) else 0) = 0 ∨
        UInt32.ofNat b.size < UInt32.ofNat r) ↔ ¬ (b.free = true ∧ r ≤ b.size) := by
      rw [UInt32.lt_iff_toNat_lt, toNat_ofNat (by omega), toNat_ofNat hr]
      cases b.free <;> simp
    by_cases hfit : b.free = true ∧ r ≤ b.size
    · rw [if_neg (fun hc => hcond.mp hc hfit)]
      exact Or.inr ⟨[], b, bs, rfl, hfit.1, hfit.2, fun c hc => absurd hc (by simp), rfl⟩
    · rw [if_pos (hcond.mpr hfit)]
      rw [List.length_cons] at hpasses
      obtain ⟨passes, rfl⟩ : ∃ k, passes = k + 1 := ⟨passes - 1, by omega⟩
      rcases ih (a := a + 12 + b.size) (by omega) hrest (by omega) passes (by omega) with
        ⟨hnone, hrun⟩ | ⟨pre, c, post, rfl, hc, hle, hpre, hrun⟩
      · refine Or.inl ⟨?_, hrun⟩
        intro c hc
        rcases List.mem_cons.mp hc with rfl | hc
        · exact hfit
        · exact hnone c hc
      · refine Or.inr ⟨b :: pre, c, post, rfl, hc, hle, ?_, ?_⟩
        · intro x hx
          rcases List.mem_cons.mp hx with rfl | hx
          · exact hfit
          · exact hpre x hx
        · rw [hrun, total, show a + 12 + b.size + total 12 pre = a + (12 + b.size + total 12 pre) by
            omega]

/-! ## Release -/

/-- Byte `x` is in the payload of a block in use. -/
def InUse (a : Nat) (bs : List Blk) (x : Nat) : Prop :=
  ∃ e ∈ owned 12 a bs, e.1 ≤ x ∧ x < e.1 + e.2

theorem InUse.not_header {a x : Nat} {bs : List Blk} (h : InUse a bs x) : a + 12 ≤ x := by
  obtain ⟨e, he, h1, -⟩ := h
  have hlo := (owned_range (p := e.1) (s := e.2) he).1
  omega

-- One merge: the header at `a` takes in the free block after it.
theorem merge_spec {m : Mem} {a : Nat} {b c : Blk} {bs : List Blk} (hb : b.free = true)
    (hseg : Seg m a (b :: c :: bs)) (hend : a + total 12 (b :: c :: bs) = heapEnd) :
    Seg ((m.setWord (UInt32.ofNat a) (UInt32.ofNat b.size + (12 + UInt32.ofNat c.size))).setWord
        (UInt32.ofNat (a + 8)) (link (a + 12 + b.size + 12 + c.size))) a
      (⟨b.size + (12 + c.size), true⟩ :: bs) := by
  have hE : heapEnd = 0x800000 := rfl
  simp only [total] at hend
  obtain ⟨hhdr, hnext, hrest⟩ := hseg
  refine ⟨⟨?_, ?_, ?_⟩, ?_⟩
  · rw [word_other _ _ (by omega) (by omega) (by omega), word_same,
      show (12 : UInt32) = UInt32.ofNat 12 from rfl, ← UInt32.ofNat_add, ← UInt32.ofNat_add]
  · rw [word_other _ _ (by omega) (by omega) (by omega), word_other _ _ (by omega) (by omega) (by omega),
      hhdr.free, hb]
  · rw [word_same, show a + 12 + (b.size + (12 + c.size)) = a + 12 + b.size + 12 + c.size by omega]
  · dsimp only
    rw [show a + 12 + (b.size + (12 + c.size)) = a + 12 + b.size + 12 + c.size by omega]
    refine hrest.congr (by omega) ?_
    intro x h1 h2
    rw [byte_other _ _ (by omega) (by omega) (by omega),
      byte_other _ _ (by omega) (by omega) (by omega)]

-- The test of the loop: the block at `a` and the one after it are both free.
theorem bothFree_iff {m : Mem} {a : Nat} {b c : Blk} (hb : HdrAt m a b)
    (hc : HdrAt m (a + 12 + b.size) c) (hend : a + 12 + b.size < 2 ^ 32) :
    (m.word (UInt32.ofNat (a + 4)) ≠ 0 ∧ UInt32.ofNat (a + 12 + b.size) ≠ 0 ∧
      m.word (UInt32.ofNat (a + 12 + b.size + 4)) ≠ 0) ↔ (b.free && c.free) = true := by
  have hne := ofNat_ne_zero (a := a + 12 + b.size) (by omega) hend
  rw [hb.free, hc.free]
  generalize UInt32.ofNat (a + 12 + b.size) = q at hne
  cases b.free <;> cases c.free <;> simp [hne]

-- A merge of free blocks changes no payload in use.
theorem inUse_merge {a : Nat} {b c : Blk} (hb : b.free = true) (hc : c.free = true) (bs : List Blk)
    (x : Nat) : InUse a (⟨b.size + (12 + c.size), true⟩ :: bs) x ↔ InUse a (b :: c :: bs) x := by
  have howned : owned 12 a (⟨b.size + (12 + c.size), true⟩ :: bs) = owned 12 a (b :: c :: bs) := by
    simp only [owned, hb, hc, if_true]
    rw [show a + 12 + (b.size + (12 + c.size)) = a + 12 + b.size + 12 + c.size by omega]
  unfold InUse
  rw [howned]

-- A byte in use is in the first block or in one of the others.
theorem InUse.cons {a x : Nat} {b : Blk} {bs : List Blk} (h : InUse a (b :: bs) x) :
    x < a + 12 + b.size ∨ InUse (a + 12 + b.size) bs x := by
  obtain ⟨e, he, h1, h2⟩ := h
  rw [owned] at he
  by_cases hb : b.free = true
  · rw [if_pos hb] at he
    exact Or.inr ⟨e, he, h1, h2⟩
  · rw [if_neg hb, List.mem_cons] at he
    rcases he with rfl | he
    · exact Or.inl h2
    · exact Or.inr ⟨e, he, h1, h2⟩

theorem kfreeLoop_spec (bs : List Blk) {m : Mem} {a : Nat} {b : Blk} (ha : 0 < a)
    (hseg : Seg m a (b :: bs)) (hend : a + total 12 (b :: bs) = heapEnd) (passes : Nat)
    (hpasses : bs.length + 1 < passes) :
    ∃ m', kfreeLoop passes (link a) m = some m' ∧ Seg m' a (absorb 12 b bs) ∧
      ∀ x, x < 2 ^ 32 → x < a ∨ heapEnd ≤ x ∨ InUse a (b :: bs) x →
        m' (UInt32.ofNat x) = m (UInt32.ofNat x) := by
  have hE : heapEnd = 0x800000 := rfl
  obtain ⟨passes, rfl⟩ : ∃ k, passes = k + 2 := ⟨passes - 2, by omega⟩
  induction bs generalizing m a b passes with
  | nil =>
    simp only [total] at hend
    obtain ⟨hhdr, -⟩ := hseg
    have hnext : m.word (UInt32.ofNat (a + 8)) = 0 := by
      rw [hhdr.next, show a + 12 + b.size = heapEnd by omega, link_heapEnd]
    refine ⟨m, ?_, ⟨hhdr, trivial⟩, fun _ _ _ => rfl⟩
    rw [link_of_lt (by omega), kfreeLoop, if_neg (ofNat_ne_zero ha (by omega)), ofNat_add8, hnext,
      if_neg (fun h => h.2.1 rfl), kfreeLoop, if_pos rfl]
  | cons c bs ih =>
    have hseg' := hseg
    obtain ⟨hhdr, hcseg⟩ := hseg
    have hend' := hend
    simp only [total] at hend
    rw [List.length_cons] at hpasses
    have hnext : m.word (UInt32.ofNat (a + 8)) = UInt32.ofNat (a + 12 + b.size) := by
      rw [hhdr.next, link_of_lt (by omega)]
    have hcond := bothFree_iff hhdr hcseg.1 (by omega)
    obtain ⟨passes, rfl⟩ : ∃ k, passes = k + 1 := ⟨passes - 1, by omega⟩
    rw [link_of_lt (by omega), kfreeLoop, if_neg (ofNat_ne_zero ha (by omega)), ofNat_add4, ofNat_add8,
      hnext, ofNat_add4, absorb]
    by_cases hfree : (b.free && c.free) = true
    · obtain ⟨hb, hc⟩ : b.free = true ∧ c.free = true := by simpa using hfree
      have hmerge := merge_spec hb hseg' hend'
      rw [if_pos (hcond.mpr hfree), if_pos hfree, hhdr.size]
      dsimp only
      rw [hcseg.1.size, ofNat_add8, word_other _ _ (by omega) (by omega) (by omega), hcseg.1.next]
      obtain ⟨m', hrun, hseg1, hkeep⟩ := ih (b := ⟨b.size + (12 + c.size), true⟩) ha hmerge
        (by simp only [total]; omega) passes (by omega)
      rw [link_of_lt (by omega)] at hrun
      refine ⟨m', hrun, hseg1, ?_⟩
      intro x hx hwhere
      have hout : x < a ∨ a + 12 ≤ x := by
        rcases hwhere with hlt | hge | huse
        · exact Or.inl hlt
        · exact Or.inr (by omega)
        · exact Or.inr huse.not_header
      rw [hkeep x hx (by rw [inUse_merge hb hc]; exact hwhere), byte_other _ _ (by omega) (by omega) hx,
        byte_other _ _ (by omega) (by omega) hx]
    · rw [if_neg (fun h => hfree (hcond.mp h)), if_neg hfree]
      obtain ⟨m', hrun, hseg1, hkeep⟩ := ih (b := c) (a := a + 12 + b.size) (by omega) hcseg
        (by simp only [total]; omega) passes (by omega)
      rw [link_of_lt (by omega)] at hrun
      refine ⟨m', hrun, ⟨hhdr.congr (by omega) ?_, hseg1⟩, ?_⟩
      · exact fun x _ hx => hkeep x (by omega) (Or.inl (by omega))
      · intro x hx hwhere
        apply hkeep x hx
        rcases hwhere with hlt | hge | huse
        · exact Or.inl (by omega)
        · exact Or.inr (Or.inl hge)
        · exact huse.cons.imp_right Or.inr

/-! ## Sums -/

/-- The bytes in blocks whose `free` flag is `f`. -/
def sumSizes (f : Bool) : List Blk → Nat
  | [] => 0
  | b :: bs => (if b.free = f then b.size else 0) + sumSizes f bs

theorem total_eq_sums (bs : List Blk) :
    total 12 bs = sumSizes false bs + sumSizes true bs + 12 * bs.length := by
  induction bs with
  | nil => rfl
  | cons b bs ih =>
    rw [total, ih, List.length_cons, sumSizes, sumSizes]
    cases b.free
    · simp only [Bool.false_eq_true, if_true, if_false]
      omega
    · simp only [Bool.true_eq_false, if_true, if_false]
      omega

theorem sumLoop_spec (f : Bool) {m : Mem} (bs : List Blk) {a : Nat} (ha : 0 < a) (hseg : Seg m a bs)
    (hend : a + total 12 bs = heapEnd) (passes : Nat) (hpasses : bs.length < passes) (sum : Nat) :
    sumLoop f m passes (link a) (UInt32.ofNat sum) = some (UInt32.ofNat (sum + sumSizes f bs)) := by
  have hE : heapEnd = 0x800000 := rfl
  obtain ⟨passes, rfl⟩ : ∃ k, passes = k + 1 := ⟨passes - 1, by omega⟩
  induction bs generalizing a passes sum with
  | nil =>
    rw [show a = heapEnd from hend, link_heapEnd, sumLoop, if_pos rfl]
    rfl
  | cons b bs ih =>
    rw [total] at hend
    obtain ⟨hhdr, hrest⟩ := hseg
    rw [List.length_cons] at hpasses
    obtain ⟨passes, rfl⟩ : ∃ k, passes = k + 1 := ⟨passes - 1, by omega⟩
    have hflag : decide ((if b.free = true then (1 : UInt32) else 0) ≠ 0) = b.free := by
      cases b.free <;> decide
    rw [link_of_lt (by omega), sumLoop, if_neg (ofNat_ne_zero ha (by omega)), ofNat_add4, ofNat_add8,
      hhdr.free, hhdr.next, hhdr.size, hflag, ← UInt32.ofNat_add]
    have hacc : (if b.free = f then UInt32.ofNat (sum + b.size) else UInt32.ofNat sum) =
        UInt32.ofNat (sum + if b.free = f then b.size else 0) := by
      split <;> rfl
    rw [hacc, ih (a := a + 12 + b.size) (by omega) hrest (by omega) _ passes (by omega), sumSizes,
      Nat.add_assoc]

end JacobOS.Kheap
