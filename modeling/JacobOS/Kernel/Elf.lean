import JacobOS.Machine

/-!
# The ELF loader of `kernel/elf.c`

`elf_load` reads the image and the program headers from memory field by field, every time the source
names a field, so a header that a segment overwrites is seen changed.  The first part is the loader;
the second says which segments it can load without leaving the user window.
-/

namespace JacobOS.Elf

open AddressRange Machine

def userBase : UInt32 := 0x800000
def userTop : UInt32 := 0xC00000

/-- The part of the loop body after the `PT_LOAD` test; `false` is the `return -1`. -/
def loadSegment (img size ph : UInt32) : MachineM Bool := do
  -- segment (incl. .bss) must fit entirely inside the user window
  let vaddr ← load32 (ph + 8)
  if vaddr < userBase then return false
  let memsz ← load32 (ph + 20)
  if vaddr + memsz > userTop then return false
  if vaddr + memsz < vaddr then return false
  let offset ← load32 (ph + 4)
  let filesz ← load32 (ph + 16)
  if offset + filesz > size then return false
  memcpy vaddr (img + offset) filesz.toNat
  -- the copy may have changed the header
  let vaddr ← load32 (ph + 8)
  let filesz ← load32 (ph + 16)
  let memsz ← load32 (ph + 20)
  memset (vaddr + filesz) 0 (memsz - filesz).toNat
  return true

/-- The loop over the program headers.  `e_phnum` is a `u16`, so `i` stops below 65536 and that many
passes are enough. -/
def loadSegments (img size : UInt32) : Nat → Nat → MachineM Bool
  | 0, _ => return true
  | passes + 1, i => do
      if i < (← load16 (img + 44)).toNat then
        let ph := img + (← load32 (img + 28)) + UInt32.ofNat i * (← load16 (img + 42))
        if (← load32 ph) ≠ 1 then loadSegments img size passes (i + 1)
        else if (← loadSegment img size ph) then loadSegments img size passes (i + 1)
        else return false
      else return true

/-- `elf_load`: `some` entry point for 0, `none` for -1. -/
def elfLoad (img size : UInt32) : MachineM (Option UInt32) := do
  if size < 52 then return none
  if (← load8 img) ≠ 0x7F then return none
  if (← load8 (img + 1)) ≠ 0x45 then return none
  if (← load8 (img + 2)) ≠ 0x4C then return none
  if (← load8 (img + 3)) ≠ 0x46 then return none
  if (← load8 (img + 4)) ≠ 1 then return none
  if (← load16 (img + 18)) ≠ 3 then return none
  if (← load16 (img + 16)) ≠ 2 then return none
  if (← load32 (img + 28)) + (← load16 (img + 44)) * 32 > size then return none
  if (← loadSegments img size 65536 0) then
    if (← load32 (img + 24)) < userBase then return none
    if (← load32 (img + 24)) ≥ userTop then return none
    return some (← load32 (img + 24))
  else return none

/-! ## Headers as they stand in memory -/

structure Phdr where
  type : UInt32
  offset : UInt32
  vaddr : UInt32
  filesz : UInt32
  memsz : UInt32

def phdrAt (m : Mem) (ph : UInt32) : Phdr :=
  ⟨m.word ph, m.word (ph + 4), m.word (ph + 8), m.word (ph + 16), m.word (ph + 20)⟩

def phnum (m : Mem) (img : UInt32) : Nat := (m.half (img + 44)).toNat

/-- The address of program header `i`. -/
def phAddr (m : Mem) (img : UInt32) (i : Nat) : UInt32 :=
  img + m.word (img + 28) + UInt32.ofNat i * m.half (img + 42)

/-- The checks on the ELF header. -/
def Accepted (m : Mem) (img size : UInt32) : Prop :=
  ¬ size < 52 ∧ m img = 0x7F ∧ m (img + 1) = 0x45 ∧ m (img + 2) = 0x4C ∧ m (img + 3) = 0x46 ∧
    m (img + 4) = 1 ∧ m.half (img + 18) = 3 ∧ m.half (img + 16) = 2 ∧
    ¬ m.word (img + 28) + m.half (img + 44) * 32 > size

namespace Phdr

/-- The four checks on a segment. -/
def Checked (h : Phdr) (size : UInt32) : Prop :=
  ¬ h.vaddr < userBase ∧ ¬ h.vaddr + h.memsz > userTop ∧ ¬ h.vaddr + h.memsz < h.vaddr ∧
    ¬ h.offset + h.filesz > size

/-- The bytes that `memcpy` writes for the segment. -/
def fileSpan (h : Phdr) : List UInt32 := span h.vaddr h.filesz.toNat

/-- The bytes that `memset` writes for the segment. -/
def bssSpan (h : Phdr) : List UInt32 := span (h.vaddr + h.filesz) (h.memsz - h.filesz).toNat

/-- `memcpy` ends inside the window. -/
def FileFits (h : Phdr) : Prop := h.filesz = 0 ∨ h.vaddr.toNat + h.filesz.toNat ≤ userTop.toNat

/-- `memset` starts and ends inside the window. -/
def BssFits (h : Phdr) : Prop :=
  h.memsz = h.filesz ∨ (userBase ≤ h.vaddr + h.filesz ∧
    (h.vaddr + h.filesz).toNat + (h.memsz - h.filesz).toNat ≤ userTop.toNat)

end Phdr

def InWindow (a : UInt32) : Prop := userBase ≤ a ∧ a < userTop

/-- The memory between the two writes of a segment. -/
def copiedMem (m : Mem) (img ph : UInt32) : Mem :=
  m.copy (phdrAt m ph).vaddr (img + (phdrAt m ph).offset) (phdrAt m ph).filesz.toNat

/-- The memory after a segment is loaded.  The header is read again after the copy. -/
def loadedMem (m : Mem) (img ph : UInt32) : Mem :=
  (copiedMem m img ph).fill
    ((phdrAt (copiedMem m img ph) ph).vaddr + (phdrAt (copiedMem m img ph) ph).filesz) 0
    ((phdrAt (copiedMem m img ph) ph).memsz - (phdrAt (copiedMem m img ph) ph).filesz).toNat

/-- Every segment that the loop loads from header `i` on fits: its file part as its header stands when
the file part is copied, its `.bss` as the header stands when that is cleared. -/
def SegmentsFit (img size : UInt32) : Nat → Nat → Mem → Prop
  | 0, _, _ => True
  | passes + 1, i, m =>
      i < phnum m img →
        ((phdrAt m (phAddr m img i)).type ≠ 1 → SegmentsFit img size passes (i + 1) m) ∧
        ((phdrAt m (phAddr m img i)).type = 1 → (phdrAt m (phAddr m img i)).Checked size →
          (phdrAt m (phAddr m img i)).FileFits ∧
          (phdrAt (copiedMem m img (phAddr m img i)) (phAddr m img i)).BssFits ∧
          SegmentsFit img size passes (i + 1) (loadedMem m img (phAddr m img i)))

/-! ## What one segment writes -/

-- The machine after the field reads: memory and written addresses are those of `s`.
theorem loadSegment_spec (img size ph : UInt32) (s : Machine) :
    (¬ (phdrAt s.mem ph).Checked size ∧ (loadSegment img size ph s).1 = false ∧
        (loadSegment img size ph s).2.mem = s.mem ∧
        (loadSegment img size ph s).2.stores = s.stores) ∨
      ((phdrAt s.mem ph).Checked size ∧ (loadSegment img size ph s).1 = true ∧
        (loadSegment img size ph s).2.mem = loadedMem s.mem img ph ∧
        ∀ x, x ∈ (loadSegment img size ph s).2.stores ↔
          (x ∈ (phdrAt s.mem ph).fileSpan ∨ x ∈ (phdrAt (copiedMem s.mem img ph) ph).bssSpan) ∨
            x ∈ s.stores) := by
  unfold loadSegment
  rw [run_load32]
  by_cases h1 : s.mem.word (ph + 8) < userBase
  · rw [if_pos h1]
    exact Or.inl ⟨fun hc => hc.1 h1, rfl, rfl, rfl⟩
  rw [if_neg h1, run_load32, load32_mem]
  by_cases h2 : s.mem.word (ph + 8) + s.mem.word (ph + 20) > userTop
  · rw [if_pos h2]
    exact Or.inl ⟨fun hc => hc.2.1 h2, rfl, rfl, rfl⟩
  rw [if_neg h2]
  by_cases h3 : s.mem.word (ph + 8) + s.mem.word (ph + 20) < s.mem.word (ph + 8)
  · rw [if_pos h3]
    exact Or.inl ⟨fun hc => hc.2.2.1 h3, rfl, rfl, rfl⟩
  rw [if_neg h3, run_load32, load32_mem, load32_mem, run_load32, load32_mem, load32_mem, load32_mem]
  by_cases h4 : s.mem.word (ph + 4) + s.mem.word (ph + 16) > size
  · rw [if_pos h4]
    exact Or.inl ⟨fun hc => hc.2.2.2 h4, rfl, rfl, rfl⟩
  rw [if_neg h4]
  simp only [run_bind, run_pure]
  refine Or.inr ⟨⟨h1, h2, h3, h4⟩, trivial, ?_, ?_⟩
  · simp only [memset_mem, memcpy_mem, load32_mem, load32_fst]
    rfl
  · intro x
    simp only [mem_memset_stores, mem_memcpy_stores, load32_mem, load32_stores, memcpy_mem,
      load32_fst]
    unfold Phdr.fileSpan Phdr.bssSpan copiedMem phdrAt
    tauto

namespace Phdr

variable {h : Phdr}

theorem fileFits_iff {size : UInt32} (hc : h.Checked size) :
    h.FileFits ↔ ∀ x ∈ h.fileSpan, InWindow x := by
  have hbase : userBase ≤ h.vaddr := UInt32.not_lt.mp hc.1
  unfold FileFits fileSpan InWindow
  rw [span_subset_iff]
  refine or_congr ?_ ⟨fun he => ⟨hbase, he⟩, fun he => he.2⟩
  exact ⟨fun h0 => by rw [h0]; rfl, fun h0 => UInt32.toNat_inj.mp h0⟩

theorem bssFits_iff : h.BssFits ↔ ∀ x ∈ h.bssSpan, InWindow x := by
  unfold BssFits bssSpan InWindow
  rw [span_subset_iff]
  refine or_congr ?_ Iff.rfl
  constructor
  · intro he
    rw [he, UInt32.sub_self]
    rfl
  · intro h0
    have hm := h.memsz.toNat_lt
    have hf := h.filesz.toNat_lt
    rw [UInt32.toNat_sub] at h0
    exact UInt32.toNat_inj.mp (by omega)

-- With one header for both writes: they fit exactly when the file part is not the larger one.
theorem fits_iff {size : UInt32} (hc : h.Checked size) :
    h.FileFits ∧ h.BssFits ↔ h.filesz ≤ h.memsz := by
  obtain ⟨h1, h2, h3, -⟩ := hc
  have hbase : userBase.toNat ≤ h.vaddr.toNat := UInt32.le_iff_toNat_le.mp (UInt32.not_lt.mp h1)
  have hsum : (h.vaddr + h.memsz).toNat ≤ userTop.toNat :=
    UInt32.le_iff_toNat_le.mp (UInt32.not_lt.mp h2)
  have hover : h.vaddr.toNat ≤ (h.vaddr + h.memsz).toNat :=
    UInt32.le_iff_toNat_le.mp (UInt32.not_lt.mp h3)
  have hm := h.memsz.toNat_lt
  have hf := h.filesz.toNat_lt
  have hv := h.vaddr.toNat_lt
  have htop : userTop.toNat = 0xC00000 := rfl
  have hbase' : userBase.toNat = 0x800000 := rfl
  have hexact : (h.vaddr + h.memsz).toNat = h.vaddr.toNat + h.memsz.toNat := by
    rw [UInt32.toNat_add] at hover ⊢
    omega
  unfold FileFits BssFits
  rw [UInt32.le_iff_toNat_le, UInt32.le_iff_toNat_le]
  constructor
  · rintro ⟨hfile, hbss⟩
    by_contra hlt
    rcases hbss with heq | ⟨hlo, hend⟩
    · rw [heq] at hlt
      omega
    · rw [UInt32.toNat_add] at hlo hend
      rw [UInt32.toNat_sub] at hend
      rcases hfile with h0 | hfile
      · rw [h0] at hlt
        exact hlt (Nat.zero_le _)
      · omega
  · intro hle
    refine ⟨Or.inr (by omega), Or.inr ?_⟩
    have hdst : (h.vaddr + h.filesz).toNat = h.vaddr.toNat + h.filesz.toNat := by
      rw [UInt32.toNat_add]
      omega
    have hlen : (h.memsz - h.filesz).toNat = h.memsz.toNat - h.filesz.toNat := by
      rw [UInt32.toNat_sub]
      omega
    rw [hdst, hlen]
    omega

end Phdr

/-! ## The loop -/

/-- The machine when the loop has the type of header `i`: the fields of the loop condition and of the
header's address are read. -/
def headRead (img : UInt32) (i : Nat) (s : Machine) : Machine :=
  (load32 (phAddr s.mem img i) (load16 (img + 42)
    (load32 (img + 28) (load16 (img + 44) s).2).2).2).2

@[simp] theorem headRead_mem (img : UInt32) (i : Nat) (s : Machine) : (headRead img i s).mem = s.mem :=
  rfl

@[simp] theorem headRead_stores (img : UInt32) (i : Nat) (s : Machine) :
    (headRead img i s).stores = s.stores := rfl

-- One pass over header `i`.
theorem loadSegments_succ (img size : UInt32) (passes : Nat) {i : Nat} {s : Machine}
    (hi : i < phnum s.mem img) : loadSegments img size (passes + 1) i s =
      (if s.mem.word (phAddr s.mem img i) ≠ 1 then loadSegments img size passes (i + 1) else do
        if (← loadSegment img size (phAddr s.mem img i)) then loadSegments img size passes (i + 1)
        else return false : MachineM Bool) (headRead img i s) := by
  rw [loadSegments, run_load16, if_pos (show i < (s.mem.half (img + 44)).toNat from hi),
    run_load32, load16_mem, run_load16, load32_mem, load16_mem, run_load32, load16_mem, load32_mem,
    load16_mem]
  rfl

theorem loadSegments_end (img size : UInt32) (passes : Nat) {i : Nat} {s : Machine}
    (hi : ¬ i < phnum s.mem img) :
    loadSegments img size (passes + 1) i s = (true, (load16 (img + 44) s).2) := by
  rw [loadSegments, run_load16, if_neg (show ¬ i < (s.mem.half (img + 44)).toNat from hi)]
  rfl

-- What one pass does, in terms of the header it looks at.
theorem loadSegments_step (img size : UInt32) (passes i : Nat) (s : Machine) :
    (¬ i < phnum s.mem img ∧ (loadSegments img size (passes + 1) i s).2.stores = s.stores) ∨
    (i < phnum s.mem img ∧ (phdrAt s.mem (phAddr s.mem img i)).type ≠ 1 ∧
      ∃ t : Machine, t.mem = s.mem ∧ t.stores = s.stores ∧
        loadSegments img size (passes + 1) i s = loadSegments img size passes (i + 1) t) ∨
    (i < phnum s.mem img ∧ (phdrAt s.mem (phAddr s.mem img i)).type = 1 ∧
      ¬ (phdrAt s.mem (phAddr s.mem img i)).Checked size ∧
      (loadSegments img size (passes + 1) i s).2.stores = s.stores) ∨
    (i < phnum s.mem img ∧ (phdrAt s.mem (phAddr s.mem img i)).type = 1 ∧
      (phdrAt s.mem (phAddr s.mem img i)).Checked size ∧
      ∃ t : Machine, t.mem = loadedMem s.mem img (phAddr s.mem img i) ∧
        (∀ x, x ∈ t.stores ↔ (x ∈ (phdrAt s.mem (phAddr s.mem img i)).fileSpan ∨
          x ∈ (phdrAt (copiedMem s.mem img (phAddr s.mem img i)) (phAddr s.mem img i)).bssSpan) ∨
            x ∈ s.stores) ∧
        loadSegments img size (passes + 1) i s = loadSegments img size passes (i + 1) t) := by
  by_cases hi : i < phnum s.mem img
  · have hstep := loadSegments_succ img size passes hi
    by_cases ht : s.mem.word (phAddr s.mem img i) = 1
    · rw [if_neg (not_not.mpr ht), run_bind] at hstep
      rcases loadSegment_spec img size (phAddr s.mem img i) (headRead img i s) with
        ⟨hc, hret, -, hst⟩ | ⟨hc, hret, hmem, hst⟩
      · rw [hret, if_neg Bool.false_ne_true] at hstep
        refine Or.inr (Or.inr (Or.inl ⟨hi, ht, hc, ?_⟩))
        rw [hstep, run_pure, hst, headRead_stores]
      · rw [hret, if_pos rfl] at hstep
        exact Or.inr (Or.inr (Or.inr ⟨hi, ht, hc, _, hmem, hst, hstep⟩))
    · rw [if_pos ht] at hstep
      exact Or.inr (Or.inl ⟨hi, ht, headRead img i s, rfl, rfl, hstep⟩)
  · refine Or.inl ⟨hi, ?_⟩
    rw [loadSegments_end img size passes hi]
    rfl

-- Written addresses are never forgotten.
theorem loadSegments_stores_mono (img size : UInt32) (passes i : Nat) {s : Machine} {x : UInt32}
    (hx : x ∈ s.stores) : x ∈ (loadSegments img size passes i s).2.stores := by
  induction passes generalizing i s with
  | zero => exact hx
  | succ passes ih =>
    rcases loadSegments_step img size passes i s with
      ⟨-, hst⟩ | ⟨-, -, t, -, hst, hrun⟩ | ⟨-, -, -, hst⟩ | ⟨-, -, -, t, -, hst, hrun⟩
    · rw [hst]
      exact hx
    · rw [hrun]
      exact ih (i + 1) (hst ▸ hx)
    · rw [hst]
      exact hx
    · rw [hrun]
      exact ih (i + 1) ((hst x).mpr (Or.inr hx))

-- The loop stays inside the window exactly when every segment it loads fits.
theorem loadSegments_inWindow_iff (img size : UInt32) (passes i : Nat) {s : Machine}
    (hs : ∀ x ∈ s.stores, InWindow x) :
    (∀ x ∈ (loadSegments img size passes i s).2.stores, InWindow x) ↔
      SegmentsFit img size passes i s.mem := by
  induction passes generalizing i s with
  | zero => exact ⟨fun _ => trivial, fun _ => hs⟩
  | succ passes ih =>
    rw [SegmentsFit]
    rcases loadSegments_step img size passes i s with
      ⟨hi, hst⟩ | ⟨hi, ht, t, hmem, hst, hrun⟩ | ⟨hi, ht, hc, hst⟩ | ⟨hi, ht, hc, t, hmem, hst, hrun⟩
    · rw [hst]
      exact ⟨fun _ hi' => absurd hi' hi, fun _ => hs⟩
    · rw [hrun, ih (i + 1) (hst ▸ hs), hmem]
      exact ⟨fun h _ => ⟨fun _ => h, fun ht' => absurd ht' ht⟩, fun h => (h hi).1 ht⟩
    · rw [hst]
      exact ⟨fun _ _ => ⟨fun ht' => absurd ht ht', fun _ hc' => absurd hc' hc⟩, fun _ => hs⟩
    · rw [hrun]
      constructor
      · intro hall _
        refine ⟨fun ht' => absurd ht ht', fun _ _ => ?_⟩
        -- what this segment wrote is still recorded at the end
        have hseg : ∀ x ∈ t.stores, InWindow x :=
          fun x hx => hall x (loadSegments_stores_mono img size passes (i + 1) hx)
        refine ⟨(Phdr.fileFits_iff hc).mpr fun x hx => hseg x ((hst x).mpr (Or.inl (Or.inl hx))),
          Phdr.bssFits_iff.mpr fun x hx => hseg x ((hst x).mpr (Or.inl (Or.inr hx))), ?_⟩
        rw [← hmem]
        exact (ih (i + 1) hseg).mp hall
      · intro hfit
        obtain ⟨hfile, hbss, hrest⟩ := (hfit hi).2 ht hc
        have hseg : ∀ x ∈ t.stores, InWindow x := by
          intro x hx
          rcases (hst x).mp hx with (hx | hx) | hx
          · exact (Phdr.fileFits_iff hc).mp hfile x hx
          · exact Phdr.bssFits_iff.mp hbss x hx
          · exact hs x hx
        exact (ih (i + 1) hseg).mpr (hmem ▸ hrest)

-- After the loop there are only reads.
theorem entry_stores (img : UInt32) (r : Bool × Machine) :
    ((if r.1 = true then do
        if (← load32 (img + 24)) < userBase then return none
        if (← load32 (img + 24)) ≥ userTop then return none
        return some (← load32 (img + 24))
      else return none : MachineM (Option UInt32)) r.2).2.stores = r.2.stores := by
  obtain ⟨ok, t⟩ := r
  cases ok with
  | false => rfl
  | true =>
    simp only [if_true, run_load32, run_ite, run_pure]
    split
    · rfl
    · split <;> rfl

-- `elf_load` writes only in its loop, which it reaches when the header is accepted.
theorem elfLoad_stores (img size : UInt32) (s : Machine) :
    WritesIf s (Accepted s.mem img size)
      (fun st => ∃ t, Reads s t ∧ st = (loadSegments img size 65536 0 t).2.stores)
      (elfLoad img size s).2.stores := by
  unfold elfLoad Accepted
  by_cases h0 : size < 52
  · rw [if_pos h0]
    exact Or.inl ⟨fun ha => ha.1 h0, rfl⟩
  rw [if_neg h0]
  refine WritesIf.and h0 ((Reads.refl s).check8 fun t1 r1 => ?_)
  refine r1.check8 fun t2 r2 => r2.check8 fun t3 r3 => r3.check8 fun t4 r4 => r4.check8 fun t5 r5 => ?_
  refine r5.check16 fun t6 r6 => r6.check16 fun t7 r7 => ?_
  rw [run_load32, r7.mem, run_load16, load32_mem, r7.mem]
  by_cases h8 : s.mem.word (img + 28) + s.mem.half (img + 44) * 32 > size
  · rw [if_pos h8]
    exact Or.inl ⟨fun ha => ha h8, r7.stores⟩
  · rw [if_neg h8, run_bind, entry_stores]
    have hread : Reads s (load16 (img + 44) (load32 (img + 28) t7).2).2 := ⟨r7.mem, r7.stores⟩
    exact Or.inr ⟨h8, _, hread, rfl⟩

/-- All that `elf_load` writes lies in the window exactly when an accepted image has only segments that
fit. -/
theorem elfLoad_inWindow_iff (m : Mem) (img size : UInt32) :
    (∀ x ∈ (elfLoad img size (.start m)).2.stores, InWindow x) ↔
      (Accepted m img size → SegmentsFit img size 65536 0 m) := by
  rcases elfLoad_stores img size (.start m) with ⟨hacc, hst⟩ | ⟨hacc, t, ⟨hmem, hst⟩, hrun⟩
  · rw [hst]
    exact ⟨fun _ ha => absurd ha hacc, fun _ x hx => absurd hx (by simp [start])⟩
  · have hs : ∀ x ∈ t.stores, InWindow x := by
      rw [hst]
      exact fun x hx => absurd hx (by simp [start])
    rw [hrun, loadSegments_inWindow_iff img size 65536 0 hs, hmem]
    exact ⟨fun h _ => h, fun h => h hacc⟩

/-! ## Headers outside the window -/

/-- No byte of the ELF header or of a program header lies in the window. -/
def HeadersApart (m : Mem) (img : UInt32) : Prop :=
  (∀ x ∈ span img 52, ¬ InWindow x) ∧
    ∀ i, i < phnum m img → ∀ x ∈ span (phAddr m img i) 32, ¬ InWindow x

/-- The loop gets to header `i` and loads its segment. -/
def Loads (m : Mem) (img size : UInt32) (i : Nat) : Prop :=
  i < phnum m img ∧ (phdrAt m (phAddr m img i)).type = 1 ∧
    (phdrAt m (phAddr m img i)).Checked size ∧
    ∀ j, j < i → (phdrAt m (phAddr m img j)).type = 1 → (phdrAt m (phAddr m img j)).Checked size

/-- The memories agree outside the window. -/
def AgreeOutside (m m' : Mem) : Prop := ∀ x, ¬ InWindow x → m' x = m x

namespace AgreeOutside

variable {m m' : Mem} {img : UInt32}

theorem phnum_eq (h : AgreeOutside m m') (ha : HeadersApart m img) : phnum m' img = phnum m img := by
  unfold phnum
  rw [show img + 44 = img + UInt32.ofNat 44 from rfl,
    Mem.half_congr (fun x hx => h x (ha.1 x hx)) (by decide)]

theorem phAddr_eq (h : AgreeOutside m m') (ha : HeadersApart m img) (i : Nat) :
    phAddr m' img i = phAddr m img i := by
  have hkeep : ∀ x ∈ span img 52, m' x = m x := fun x hx => h x (ha.1 x hx)
  unfold phAddr
  rw [show img + 28 = img + UInt32.ofNat 28 from rfl, show img + 42 = img + UInt32.ofNat 42 from rfl,
    Mem.word_congr hkeep (by decide), Mem.half_congr hkeep (by decide)]

theorem phdrAt_eq (h : AgreeOutside m m') (ha : HeadersApart m img) {i : Nat} (hi : i < phnum m img) :
    phdrAt m' (phAddr m img i) = phdrAt m (phAddr m img i) := by
  have hkeep : ∀ x ∈ span (phAddr m img i) 32, m' x = m x := fun x hx => h x (ha.2 i hi x hx)
  have hword : ∀ k, k + 4 ≤ 32 →
      m'.word (phAddr m img i + UInt32.ofNat k) = m.word (phAddr m img i + UInt32.ofNat k) :=
    fun k hk => Mem.word_congr hkeep hk
  have h0 := hword 0 (by decide)
  rw [show phAddr m img i + UInt32.ofNat 0 = phAddr m img i from UInt32.add_zero _] at h0
  unfold phdrAt
  rw [h0]
  congr 1
  · exact hword 4 (by decide)
  · exact hword 8 (by decide)
  · exact hword 16 (by decide)
  · exact hword 20 (by decide)

theorem copied (h : AgreeOutside m m') {ph : UInt32}
    (hfile : ∀ x ∈ (phdrAt m' ph).fileSpan, InWindow x) : AgreeOutside m (copiedMem m' img ph) := by
  intro x hx
  unfold copiedMem
  rw [Mem.copy_of_not_mem _ _ _ _ (fun hin => hx (hfile x hin)), h x hx]

theorem loaded (h : AgreeOutside m m') {ph : UInt32}
    (hfile : ∀ x ∈ (phdrAt m' ph).fileSpan, InWindow x)
    (hbss : ∀ x ∈ (phdrAt (copiedMem m' img ph) ph).bssSpan, InWindow x) :
    AgreeOutside m (loadedMem m' img ph) := by
  intro x hx
  unfold loadedMem
  rw [Mem.fill_of_not_mem _ _ _ _ (fun hin => hx (hbss x hin)), h.copied hfile x hx]

end AgreeOutside

/-- From header `i` on, no segment that the loop loads has a file part larger than its memory part. -/
def FitsFrom (m : Mem) (img size : UInt32) (i : Nat) : Prop :=
  ∀ j, i ≤ j → j < phnum m img → (phdrAt m (phAddr m img j)).type = 1 →
    (phdrAt m (phAddr m img j)).Checked size →
    (∀ k, i ≤ k → k < j → (phdrAt m (phAddr m img k)).type = 1 →
      (phdrAt m (phAddr m img k)).Checked size) →
    (phdrAt m (phAddr m img j)).filesz ≤ (phdrAt m (phAddr m img j)).memsz

theorem fitsFrom_skip {m : Mem} {img size : UInt32} {i : Nat}
    (ht : (phdrAt m (phAddr m img i)).type ≠ 1) :
    FitsFrom m img size i ↔ FitsFrom m img size (i + 1) := by
  constructor
  · intro h j hij hj htj hcj hbefore
    refine h j (by omega) hj htj hcj ?_
    intro k hik hkj htk
    have hne : k ≠ i := by
      rintro rfl
      exact ht htk
    exact hbefore k (by omega) hkj htk
  · intro h j hij hj htj hcj hbefore
    have hne : j ≠ i := by
      rintro rfl
      exact ht htj
    exact h j (by omega) hj htj hcj fun k hik => hbefore k (by omega)

theorem fitsFrom_load {m : Mem} {img size : UInt32} {i : Nat} (hi : i < phnum m img)
    (ht : (phdrAt m (phAddr m img i)).type = 1) (hc : (phdrAt m (phAddr m img i)).Checked size) :
    FitsFrom m img size i ↔
      (phdrAt m (phAddr m img i)).filesz ≤ (phdrAt m (phAddr m img i)).memsz ∧
        FitsFrom m img size (i + 1) := by
  constructor
  · intro h
    refine ⟨h i (Nat.le_refl i) hi ht hc fun k hik hki => absurd hki (by omega), ?_⟩
    intro j hij hj htj hcj hbefore
    refine h j (by omega) hj htj hcj ?_
    intro k hik hkj htk
    by_cases hki : k = i
    · rw [hki]
      exact hc
    · exact hbefore k (by omega) hkj htk
  · rintro ⟨hfit, h⟩ j hij hj htj hcj hbefore
    by_cases hji : j = i
    · rw [hji]
      exact hfit
    · exact h j (by omega) hj htj hcj fun k hik => hbefore k (by omega)

-- The segments before header `i` are already loaded into `m'`.
theorem segmentsFit_iff_fitsFrom {m : Mem} {img size : UInt32} (ha : HeadersApart m img)
    (passes i : Nat) (hpasses : passes + i = 65536) {m' : Mem} (h : AgreeOutside m m') :
    SegmentsFit img size passes i m' ↔ FitsFrom m img size i := by
  induction passes generalizing i m' with
  | zero =>
    have hlt : phnum m img < 65536 := Mem.half_lt m (img + 44)
    refine ⟨fun _ j hij hj => ?_, fun _ => trivial⟩
    omega
  | succ passes ih =>
    rw [SegmentsFit, h.phnum_eq ha, h.phAddr_eq ha]
    by_cases hi : i < phnum m img
    swap
    · exact ⟨fun _ j hij hj => absurd hj (by omega), fun _ hi' => absurd hi' hi⟩
    rw [h.phdrAt_eq ha hi]
    by_cases ht : (phdrAt m (phAddr m img i)).type = 1
    swap
    · rw [fitsFrom_skip ht, ← ih (i + 1) (by omega) h]
      exact ⟨fun hfit => (hfit hi).1 ht, fun hrest _ => ⟨fun _ => hrest, fun ht' => absurd ht' ht⟩⟩
    by_cases hc : (phdrAt m (phAddr m img i)).Checked size
    swap
    · -- the loop returns at header `i`
      constructor
      · intro _ j hij hj htj hcj hbefore
        rcases Nat.eq_or_lt_of_le hij with rfl | hlt
        · exact absurd hcj hc
        · exact absurd (hbefore i (Nat.le_refl i) hlt ht) hc
      · exact fun _ _ => ⟨fun ht' => absurd ht ht', fun _ hc' => absurd hc' hc⟩
    -- a copy inside the window leaves the header as it was
    have hfile : (phdrAt m (phAddr m img i)).FileFits →
        ∀ x ∈ (phdrAt m' (phAddr m img i)).fileSpan, InWindow x := by
      intro hfit
      rw [h.phdrAt_eq ha hi]
      exact (Phdr.fileFits_iff hc).mp hfit
    have hsame : (phdrAt m (phAddr m img i)).FileFits →
        phdrAt (copiedMem m' img (phAddr m img i)) (phAddr m img i) = phdrAt m (phAddr m img i) :=
      fun hfit => (h.copied (hfile hfit)).phdrAt_eq ha hi
    have hrest : (phdrAt m (phAddr m img i)).FileFits → (phdrAt m (phAddr m img i)).BssFits →
        (SegmentsFit img size passes (i + 1) (loadedMem m' img (phAddr m img i)) ↔
          FitsFrom m img size (i + 1)) := by
      intro hfit hbss
      apply ih (i + 1) (by omega)
      apply h.loaded (hfile hfit)
      rw [hsame hfit]
      exact Phdr.bssFits_iff.mp hbss
    rw [fitsFrom_load hi ht hc, ← Phdr.fits_iff hc]
    constructor
    · intro hfit
      obtain ⟨h1, h2, h3⟩ := (hfit hi).2 ht hc
      rw [hsame h1] at h2
      exact ⟨⟨h1, h2⟩, (hrest h1 h2).mp h3⟩
    · rintro ⟨⟨h1, h2⟩, h3⟩ _
      refine ⟨fun ht' => absurd ht ht', fun _ _ => ⟨h1, ?_, (hrest h1 h2).mpr h3⟩⟩
      rw [hsame h1]
      exact h2

/-- The loader writes outside the user window exactly when it loads a segment that does not fit; for
headers outside the window that is one with `p_filesz > p_memsz`. -/
theorem elfLoad_window (m : Mem) (img size : UInt32) :
    ((∀ x ∈ (elfLoad img size (.start m)).2.stores, InWindow x) ↔
      (Accepted m img size → SegmentsFit img size 65536 0 m)) ∧
    (HeadersApart m img → ((∀ x ∈ (elfLoad img size (.start m)).2.stores, InWindow x) ↔
      (Accepted m img size → ∀ i, Loads m img size i →
        (phdrAt m (phAddr m img i)).filesz ≤ (phdrAt m (phAddr m img i)).memsz))) := by
  refine ⟨elfLoad_inWindow_iff m img size, fun ha => ?_⟩
  rw [elfLoad_inWindow_iff, segmentsFit_iff_fitsFrom ha 65536 0 rfl fun _ _ => rfl]
  refine imp_congr_right fun _ => ?_
  constructor
  · rintro h i ⟨hi, ht, hc, hbefore⟩
    exact h i (Nat.zero_le i) hi ht hc fun k _ hk => hbefore k hk
  · intro h j _ hj htj hcj hbefore
    exact h j ⟨hj, htj, hcj, fun k hk => hbefore k (Nat.zero_le k) hk⟩

/-- An image with one `PT_LOAD` header: sixteen bytes of file for `memsz` bytes at `vaddr`. -/
def oneSegment (vaddr memsz : UInt32) : List UInt8 :=
  let w (v : UInt32) : List UInt8 := (List.range 4).map (LittleEndian.wordByte v)
  [0x7F, 0x45, 0x4C, 0x46, 1, 1, 1, 0, 0, 0, 0, 0, 0, 0, 0, 0, 2, 0, 3, 0] ++
    w 1 ++ w vaddr ++ w 52 ++ w 0 ++ w 0 ++ [52, 0, 32, 0, 1, 0, 0, 0, 0, 0, 0, 0] ++
    w 1 ++ w 0 ++ w vaddr ++ w vaddr ++ w 16 ++ w memsz ++ w 7 ++ w 4

/-- A memory with an image at the start of the kernel heap. -/
def withImage (bytes : List UInt8) : Mem := fun a => bytes.getD (a - 0x400000).toNat 0

-- Eight bytes below the top of the window, sixteen bytes of file and no memory: every check passes.
theorem elfLoad_leaves_window :
    ¬ ∀ x ∈ (elfLoad 0x400000 84 (.start (withImage (oneSegment 0xBFFFF8 0)))).2.stores,
      InWindow x := by
  rw [elfLoad_inWindow_iff]
  intro h
  have hacc : Accepted (withImage (oneSegment 0xBFFFF8 0)) 0x400000 84 := by
    unfold Accepted
    decide
  have hfit := h hacc
  rw [SegmentsFit] at hfit
  obtain ⟨hfile, -⟩ := (hfit (by decide)).2 (by decide) (by unfold Phdr.Checked; decide)
  unfold Phdr.FileFits at hfile
  exact absurd hfile (by decide)

theorem not_inWindow_of_below {a : UInt32} {n : Nat} (h : a.toNat + n ≤ userBase.toNat) :
    ∀ x ∈ span a n, ¬ InWindow x := by
  have hbase : userBase.toNat = 0x800000 := rfl
  rintro x hx ⟨hlo, -⟩
  obtain ⟨k, hk, rfl⟩ := mem_span.mp hx
  have hle := UInt32.le_iff_toNat_le.mp hlo
  rw [toNat_add_ofNat (by omega)] at hle
  omega

-- A small program at the bottom of the window is loaded inside it.
theorem elfLoad_window_small :
    ∀ x ∈ (elfLoad 0x400000 84 (.start (withImage (oneSegment 0x800000 32)))).2.stores,
      InWindow x := by
  have hnum : phnum (withImage (oneSegment 0x800000 32)) 0x400000 = 1 := by decide
  have hph : phAddr (withImage (oneSegment 0x800000 32)) 0x400000 0 = 0x400034 := by decide
  refine ((elfLoad_window _ _ _).2 ⟨not_inWindow_of_below (by decide), ?_⟩).mpr ?_
  · intro i hi
    obtain rfl : i = 0 := by omega
    rw [hph]
    exact not_inWindow_of_below (by decide)
  · rintro - i ⟨hi, -⟩
    obtain rfl : i = 0 := by omega
    decide

end JacobOS.Elf
