import JacobOS.Kernel.Elf

/-!
# The memory image that `elf_load` builds

For a well-formed executable in a buffer outside the user window the loader succeeds, and afterwards
every byte of memory is the one the program headers ask for.
-/

namespace JacobOS.Mem

open AddressRange

-- A range of at most all addresses does not come back to its start.
theorem start_not_mem_span {a : UInt32} {n : Nat} (hn : n < 2 ^ 32) : a ∉ span (a + 1) n := by
  intro hin
  obtain ⟨k, hk, heq⟩ := mem_span.mp hin
  have hn' := congrArg UInt32.toNat heq
  rw [add_ofNat_succ, UInt32.toNat_add, UInt32.toNat_ofNat'] at hn'
  have ha := a.toNat_lt
  omega

theorem fill_of_mem (m : Mem) (dst : UInt32) (c : UInt8) (n : Nat) {x : UInt32} (hx : x ∈ span dst n) :
    fill m dst c n x = c := by
  induction n generalizing m dst with
  | zero => exact absurd hx (not_mem_span_zero dst x)
  | succ n ih =>
    rw [fill]
    by_cases hrest : x ∈ span (dst + 1) n
    · exact ih _ _ hrest
    · have hfirst : x = dst := (mem_span_succ.mp hx).resolve_right hrest
      rw [fill_of_not_mem _ _ _ _ hrest, hfirst, Function.update_self]

-- The copy goes byte by byte, so the source must not be overwritten on the way.
theorem copy_of_disjoint (m : Mem) (dst src : UInt32) (n : Nat) (hn : n ≤ 2 ^ 32)
    (hd : ∀ x ∈ span dst n, x ∉ span src n) {k : Nat} (hk : k < n) :
    copy m dst src n (dst + UInt32.ofNat k) = m (src + UInt32.ofNat k) := by
  induction n generalizing m dst src k with
  | zero => omega
  | succ n ih =>
    rw [copy]
    cases k with
    | zero =>
      rw [show dst + UInt32.ofNat 0 = dst from UInt32.add_zero dst,
        show src + UInt32.ofNat 0 = src from UInt32.add_zero src,
        copy_of_not_mem _ _ _ _ (start_not_mem_span (by omega)), Function.update_self]
    | succ k =>
      have hd' : ∀ x ∈ span (dst + 1) n, x ∉ span (src + 1) n := fun x hx hx' =>
        hd x (mem_span_succ.mpr (Or.inr hx)) (mem_span_succ.mpr (Or.inr hx'))
      have hne : src + UInt32.ofNat (k + 1) ≠ dst := by
        intro heq
        exact hd dst (mem_span_succ.mpr (Or.inl rfl)) (mem_span.mpr ⟨k + 1, hk, heq.symm⟩)
      rw [← add_ofNat_succ, ih _ _ _ (by omega) hd' (by omega), add_ofNat_succ,
        Function.update_of_ne hne]

end JacobOS.Mem

namespace JacobOS.Elf

open AddressRange Machine

namespace Phdr

/-- The bytes of the segment that come from the file. -/
def InFile (h : Phdr) (a : UInt32) : Prop :=
  h.vaddr.toNat ≤ a.toNat ∧ a.toNat < h.vaddr.toNat + h.filesz.toNat

/-- The other bytes of the segment. -/
def InBss (h : Phdr) (a : UInt32) : Prop :=
  h.vaddr.toNat + h.filesz.toNat ≤ a.toNat ∧ a.toNat < h.vaddr.toNat + h.memsz.toNat

def InSegment (h : Phdr) (a : UInt32) : Prop :=
  h.vaddr.toNat ≤ a.toNat ∧ a.toNat < h.vaddr.toNat + h.memsz.toNat

/-- What the format asks of a `PT_LOAD` header, in exact arithmetic. -/
structure WellFormed (h : Phdr) (size : UInt32) : Prop where
  sizes : h.filesz.toNat ≤ h.memsz.toNat
  file : h.offset.toNat + h.filesz.toNat ≤ size.toNat
  base : userBase.toNat ≤ h.vaddr.toNat
  top : h.vaddr.toNat + h.memsz.toNat ≤ userTop.toNat

end Phdr

/-- The segment of header `i` is to be loaded. -/
def IsLoad (m : Mem) (img : UInt32) (i : Nat) : Prop :=
  i < phnum m img ∧ (phdrAt m (phAddr m img i)).type = 1

/-- A static 32-bit i386 executable of `size` bytes at `img`, outside the user window. -/
structure WellFormed (m : Mem) (img size : UInt32) : Prop where
  header : 52 ≤ size.toNat
  magic : m img = 0x7F ∧ m (img + 1) = 0x45 ∧ m (img + 2) = 0x4C ∧ m (img + 3) = 0x46
  class32 : m (img + 4) = 1
  machine : m.half (img + 18) = 3
  exec : m.half (img + 16) = 2
  phentsize : m.half (img + 42) = 32
  table : (m.word (img + 28)).toNat + phnum m img * 32 ≤ size.toNat
  segments : ∀ i, IsLoad m img i → (phdrAt m (phAddr m img i)).WellFormed size
  disjoint : ∀ i j, IsLoad m img i → IsLoad m img j → i ≠ j → ∀ a,
    ¬ ((phdrAt m (phAddr m img i)).InSegment a ∧ (phdrAt m (phAddr m img j)).InSegment a)
  entry : InWindow (m.word (img + 24))
  outside : ∀ x ∈ span img size.toNat, ¬ InWindow x

/-- The segments of the headers below `n` are in `m'`, and what lies outside them is as in `m`. -/
structure Built (m : Mem) (img : UInt32) (n : Nat) (m' : Mem) : Prop where
  file : ∀ i, i < n → IsLoad m img i → ∀ a, (phdrAt m (phAddr m img i)).InFile a →
    m' a = m (img + (phdrAt m (phAddr m img i)).offset + (a - (phdrAt m (phAddr m img i)).vaddr))
  bss : ∀ i, i < n → IsLoad m img i → ∀ a, (phdrAt m (phAddr m img i)).InBss a → m' a = 0
  rest : ∀ a, (∀ i, i < n → IsLoad m img i → ¬ (phdrAt m (phAddr m img i)).InSegment a) → m' a = m a

/-! ## One segment -/

namespace Phdr.WellFormed

variable {h : Phdr} {size : UInt32}

theorem checked (hw : h.WellFormed size) : h.Checked size := by
  have htop : userTop.toNat = 0xC00000 := rfl
  have hb := hw.base
  have ht := hw.top
  have hf := hw.file
  have hs := size.toNat_lt
  have hsum : (h.vaddr + h.memsz).toNat = h.vaddr.toNat + h.memsz.toNat := by
    rw [UInt32.toNat_add]
    omega
  have hfile : (h.offset + h.filesz).toNat = h.offset.toNat + h.filesz.toNat := by
    rw [UInt32.toNat_add]
    omega
  refine ⟨?_, ?_, ?_, ?_⟩
  · rw [UInt32.lt_iff_toNat_lt]
    omega
  · rw [gt_iff_lt, UInt32.lt_iff_toNat_lt, hsum]
    omega
  · rw [UInt32.lt_iff_toNat_lt, hsum]
    omega
  · rw [gt_iff_lt, UInt32.lt_iff_toNat_lt, hfile]
    omega

theorem mem_fileSpan (hw : h.WellFormed size) (a : UInt32) : a ∈ h.fileSpan ↔ h.InFile a := by
  have htop : userTop.toNat = 0xC00000 := rfl
  have ht := hw.top
  have hs := hw.sizes
  unfold fileSpan InFile
  rw [← UInt32.ofNat_toNat (x := h.vaddr), mem_span_ofNat (by omega), UInt32.ofNat_toNat]

theorem mem_bssSpan (hw : h.WellFormed size) (a : UInt32) : a ∈ h.bssSpan ↔ h.InBss a := by
  have htop : userTop.toNat = 0xC00000 := rfl
  have ht := hw.top
  have hs := hw.sizes
  have hdst : h.vaddr + h.filesz = UInt32.ofNat (h.vaddr.toNat + h.filesz.toNat) := by
    rw [UInt32.ofNat_add, UInt32.ofNat_toNat, UInt32.ofNat_toNat]
  have hlen : (h.memsz - h.filesz).toNat = h.memsz.toNat - h.filesz.toNat := by
    rw [UInt32.toNat_sub]
    have := h.memsz.toNat_lt
    omega
  unfold bssSpan InBss
  rw [hdst, hlen, mem_span_ofNat (by omega)]
  omega

theorem inWindow (hw : h.WellFormed size) {a : UInt32} (ha : h.InSegment a) : InWindow a := by
  have hb := hw.base
  have ht := hw.top
  obtain ⟨h1, h2⟩ := ha
  exact ⟨UInt32.le_iff_toNat_le.mpr (by omega), UInt32.lt_iff_toNat_lt.mpr (by omega)⟩

theorem inSegment_iff (hw : h.WellFormed size) (a : UInt32) : h.InSegment a ↔ h.InFile a ∨ h.InBss a := by
  have hs := hw.sizes
  unfold InSegment InFile InBss
  omega

end Phdr.WellFormed

section Loader

variable {m m' : Mem} {img size : UInt32} {i : Nat}

-- A byte of the image.
theorem WellFormed.image_byte (hw : WellFormed m img size) {k : Nat} (hk : k < size.toNat) :
    ¬ InWindow (img + UInt32.ofNat k) := hw.outside _ (mem_span.mpr ⟨k, hk, rfl⟩)

theorem WellFormed.headersApart (hw : WellFormed m img size) : HeadersApart m img := by
  have htable := hw.table
  refine ⟨?_, ?_⟩
  · intro x hx
    obtain ⟨k, hk, rfl⟩ := mem_span.mp hx
    exact hw.image_byte (Nat.lt_of_lt_of_le hk hw.header)
  · intro i hi x hx
    obtain ⟨k, hk, rfl⟩ := mem_span.mp hx
    have haddr : phAddr m img i + UInt32.ofNat k =
        img + UInt32.ofNat ((m.word (img + 28)).toNat + i * 32 + k) := by
      unfold phAddr
      rw [hw.phentsize, UInt32.ofNat_add, UInt32.ofNat_add, UInt32.ofNat_toNat, UInt32.ofNat_mul,
        UInt32.add_assoc img, UInt32.add_assoc img]
      rfl
    rw [haddr]
    exact hw.image_byte (by omega)

/-- What loading the segment of header `i` does to the memory. -/
structure SegmentLoaded (m m' : Mem) (img : UInt32) (h : Phdr) (m'' : Mem) : Prop where
  file : ∀ a, h.InFile a → m'' a = m (img + h.offset + (a - h.vaddr))
  bss : ∀ a, h.InBss a → m'' a = 0
  rest : ∀ a, ¬ h.InSegment a → m'' a = m' a

-- The file part is read from outside the window and written inside it.
theorem copy_file (hw : WellFormed m img size) (hagree : AgreeOutside m m') {h : Phdr}
    (hh : h.WellFormed size) {a : UInt32} (ha : h.InFile a) :
    m'.copy h.vaddr (img + h.offset) h.filesz.toNat a = m (img + h.offset + (a - h.vaddr)) := by
  have hsrc : ∀ k, k < h.filesz.toNat → ¬ InWindow (img + h.offset + UInt32.ofNat k) := by
    intro k hk
    have hfile := hh.file
    have hout := hw.image_byte (k := h.offset.toNat + k) (by omega)
    rwa [UInt32.ofNat_add, UInt32.ofNat_toNat, ← UInt32.add_assoc] at hout
  have hdisj : ∀ x ∈ span h.vaddr h.filesz.toNat, x ∉ span (img + h.offset) h.filesz.toNat := by
    intro x hx hx'
    obtain ⟨k, hk, rfl⟩ := mem_span.mp hx'
    exact hsrc k hk (hh.inWindow ((hh.inSegment_iff _).mpr (Or.inl ((hh.mem_fileSpan _).mp hx))))
  obtain ⟨k, hk, rfl⟩ := mem_span.mp ((hh.mem_fileSpan a).mpr ha)
  rw [Mem.copy_of_disjoint m' _ _ _ (Nat.le_of_lt h.filesz.toNat_lt) hdisj hk, hagree _ (hsrc k hk),
    UInt32.add_comm h.vaddr, UInt32.add_sub_cancel]

theorem loadedMem_spec (hw : WellFormed m img size) (hagree : AgreeOutside m m')
    (hl : IsLoad m img i) :
    SegmentLoaded m m' img (phdrAt m (phAddr m img i)) (loadedMem m' img (phAddr m img i)) ∧
      AgreeOutside m (loadedMem m' img (phAddr m img i)) := by
  have ha := hw.headersApart
  have hh := hw.segments i hl
  have hhdr := hagree.phdrAt_eq ha hl.1
  have hcopied : AgreeOutside m (copiedMem m' img (phAddr m img i)) := by
    apply hagree.copied
    rw [hhdr]
    exact fun x hx => hh.inWindow ((hh.inSegment_iff x).mpr (Or.inl ((hh.mem_fileSpan x).mp hx)))
  have hhdr' := hcopied.phdrAt_eq ha hl.1
  unfold loadedMem
  rw [hhdr']
  set h := phdrAt m (phAddr m img i) with hdef
  have hcopy : copiedMem m' img (phAddr m img i) = m'.copy h.vaddr (img + h.offset) h.filesz.toNat := by
    unfold copiedMem
    rw [hhdr]
  refine ⟨⟨?_, ?_, ?_⟩, ?_⟩
  · intro a hfile
    have hnot : a ∉ h.bssSpan := by
      rw [hh.mem_bssSpan]
      exact fun hbss => absurd hfile.2 (Nat.not_lt.mpr hbss.1)
    rw [Mem.fill_of_not_mem _ _ _ _ hnot, hcopy]
    exact copy_file hw hagree hh hfile
  · intro a hbss
    exact Mem.fill_of_mem _ _ _ _ ((hh.mem_bssSpan a).mpr hbss)
  · intro a hout
    rw [hh.inSegment_iff, not_or, ← hh.mem_fileSpan, ← hh.mem_bssSpan] at hout
    rw [Mem.fill_of_not_mem _ _ _ _ hout.2, hcopy, Mem.copy_of_not_mem _ _ _ _ hout.1]
  · intro x hx
    have hnot : x ∉ h.bssSpan := fun hin =>
      hx (hh.inWindow ((hh.inSegment_iff x).mpr (Or.inr ((hh.mem_bssSpan x).mp hin))))
    rw [Mem.fill_of_not_mem _ _ _ _ hnot, hcopied x hx]

/-! ## The loop -/

theorem built_zero (m : Mem) (img : UInt32) : Built m img 0 m :=
  ⟨fun _ hi => absurd hi (by omega), fun _ hi => absurd hi (by omega), fun _ _ => rfl⟩

-- A header of another type adds nothing.
theorem Built.skip (hb : Built m img i m') (ht : ¬ IsLoad m img i) : Built m img (i + 1) m' := by
  have hlt : ∀ j, j < i + 1 → IsLoad m img j → j < i := by
    intro j hj hl
    have hne : j ≠ i := by
      rintro rfl
      exact ht hl
    omega
  exact ⟨fun j hj hl => hb.file j (hlt j hj hl) hl, fun j hj hl => hb.bss j (hlt j hj hl) hl,
    fun a hout => hb.rest a fun j hj hl => hout j (by omega) hl⟩

-- The segments loaded before are not touched.
theorem Built.load (hw : WellFormed m img size) (hb : Built m img i m') (hl : IsLoad m img i)
    {m'' : Mem} (hs : SegmentLoaded m m' img (phdrAt m (phAddr m img i)) m'') : Built m img (i + 1) m'' := by
  have hother : ∀ j, j < i → IsLoad m img j → ∀ a, (phdrAt m (phAddr m img j)).InSegment a →
      m'' a = m' a := by
    intro j hj hlj a ha
    exact hs.rest a fun ha' => hw.disjoint j i hlj hl (by omega) a ⟨ha, ha'⟩
  refine ⟨?_, ?_, ?_⟩
  · intro j hj hlj a ha
    rcases Nat.lt_succ_iff_lt_or_eq.mp hj with hlt | rfl
    · rw [hother j hlt hlj a (((hw.segments j hlj).inSegment_iff a).mpr (Or.inl ha))]
      exact hb.file j hlt hlj a ha
    · exact hs.file a ha
  · intro j hj hlj a ha
    rcases Nat.lt_succ_iff_lt_or_eq.mp hj with hlt | rfl
    · rw [hother j hlt hlj a (((hw.segments j hlj).inSegment_iff a).mpr (Or.inr ha))]
      exact hb.bss j hlt hlj a ha
    · exact hs.bss a ha
  · intro a hout
    rw [hs.rest a (hout i (by omega) hl)]
    exact hb.rest a fun j hj hlj => hout j (by omega) hlj

theorem loadSegments_built (hw : WellFormed m img size) (passes : Nat) (hpasses : passes + i = 65536)
    (hi : i ≤ phnum m img) {s : Machine} (hagree : AgreeOutside m s.mem) (hb : Built m img i s.mem) :
    ∃ t, loadSegments img size passes i s = (true, t) ∧ AgreeOutside m t.mem ∧
      Built m img (phnum m img) t.mem := by
  have ha := hw.headersApart
  induction passes generalizing i s with
  | zero =>
    have hlt : phnum m img < 65536 := Mem.half_lt m (img + 44)
    omega
  | succ passes ih =>
    have hnum := hagree.phnum_eq ha
    by_cases hlt : i < phnum m img
    · have hstep := loadSegments_succ img size passes (hnum.symm ▸ hlt : i < phnum s.mem img)
      rw [hagree.phAddr_eq ha] at hstep
      have hhdr := hagree.phdrAt_eq ha hlt
      by_cases ht : (phdrAt m (phAddr m img i)).type = 1
      · have hl : IsLoad m img i := ⟨hlt, ht⟩
        have ht' : s.mem.word (phAddr m img i) = 1 := (congrArg Phdr.type hhdr).trans ht
        rw [if_neg (not_not.mpr ht'), run_bind] at hstep
        rcases loadSegment_spec img size (phAddr m img i) (headRead img i s) with
          ⟨hc, -⟩ | ⟨-, hret, hmem, -⟩
        · rw [headRead_mem, hhdr] at hc
          exact absurd (hw.segments i hl).checked hc
        · rw [hret, if_pos rfl] at hstep
          rw [headRead_mem] at hmem
          obtain ⟨hseg, hagree'⟩ := loadedMem_spec hw hagree hl
          rw [← hmem] at hseg hagree'
          rw [hstep]
          exact ih (by omega) hlt hagree' (hb.load hw hl hseg)
      · have ht' : s.mem.word (phAddr m img i) ≠ 1 := fun h1 => ht ((congrArg Phdr.type hhdr).symm.trans h1)
        rw [if_pos ht'] at hstep
        rw [hstep]
        exact ih (by omega) hlt hagree (hb.skip fun hl => ht hl.2)
    · obtain rfl : i = phnum m img := by omega
      rw [loadSegments_end img size passes (by rw [hnum]; exact hlt)]
      exact ⟨_, rfl, hagree, hb⟩

/-! ## The whole call -/

theorem WellFormed.table_ok (hw : WellFormed m img size) :
    ¬ m.word (img + 28) + m.half (img + 44) * 32 > size := by
  have htable := hw.table
  have hhalf := Mem.half_lt m (img + 44)
  have hs := size.toNat_lt
  unfold phnum at htable
  have hmul : (m.half (img + 44) * 32).toNat = (m.half (img + 44)).toNat * 32 := by
    rw [UInt32.toNat_mul]
    show (m.half (img + 44)).toNat * 32 % 2 ^ 32 = _
    omega
  rw [gt_iff_lt, UInt32.lt_iff_toNat_lt, UInt32.toNat_add, hmul]
  omega

-- The checks on the header pass, and the loop runs on the memory as it is.
theorem WellFormed.elfLoad_eq (hw : WellFormed m img size) : ∃ s : Machine, s.mem = m ∧
    elfLoad img size (.start m) = (do
      if (← loadSegments img size 65536 0) then
        if (← load32 (img + 24)) < userBase then return none
        if (← load32 (img + 24)) ≥ userTop then return none
        return some (← load32 (img + 24))
      else return none : MachineM (Option UInt32)) s := by
  obtain ⟨h0, h1, h2, h3⟩ := hw.magic
  have hsize : ¬ size < 52 := by
    rw [UInt32.lt_iff_toNat_lt]
    exact Nat.not_lt.mpr hw.header
  have hstart : (Machine.start m).mem = m := rfl
  unfold elfLoad
  rw [if_neg hsize]
  simp only [run_load8, run_load16, run_load32, load8_mem, load16_mem, load32_mem, hstart, h0, h1, h2, h3,
    hw.class32, hw.machine, hw.exec, ne_eq, not_true_eq_false, if_false, hw.table_ok]
  exact ⟨_, rfl, rfl⟩

/-- The loader builds the image that the program headers of a well-formed executable specify, and
returns its entry point. -/
theorem elfLoad_builds (m : Mem) (img size : UInt32) (hw : WellFormed m img size) :
    (elfLoad img size (.start m)).1 = some (m.word (img + 24)) ∧
      Built m img (phnum m img) (elfLoad img size (.start m)).2.mem := by
  obtain ⟨s, hmem, hrun⟩ := hw.elfLoad_eq
  obtain ⟨t, hloop, hagree, hbuilt⟩ := loadSegments_built (i := 0) (s := s) hw 65536 rfl (Nat.zero_le _)
    (by rw [hmem]; exact fun _ _ => rfl) (by rw [hmem]; exact built_zero m img)
  have hentry : t.mem.word (img + 24) = m.word (img + 24) :=
    Mem.word_congr (k := 24) (fun x hx => hagree x (hw.headersApart.1 x hx)) (by decide)
  rw [hrun, run_bind, hloop]
  simp only [if_true, run_load32, load32_mem, hentry, run_ite, run_pure,
    if_neg (UInt32.not_lt.mpr hw.entry.1), ge_iff_le, if_neg (UInt32.not_le.mpr hw.entry.2)]
  exact ⟨trivial, hbuilt⟩

theorem wellFormed_oneSegment : WellFormed (withImage (oneSegment 0x800000 32)) 0x400000 84 := by
  have hnum : phnum (withImage (oneSegment 0x800000 32)) 0x400000 = 1 := by decide
  have hzero : ∀ i, IsLoad (withImage (oneSegment 0x800000 32)) 0x400000 i → i = 0 := by
    rintro i ⟨hi, -⟩
    omega
  refine ⟨by decide, by decide, by decide, by decide, by decide, by decide, by decide, ?_, ?_, ?_, ?_⟩
  · intro i hl
    obtain rfl := hzero i hl
    exact ⟨by decide, by decide, by decide, by decide⟩
  · intro i j hi hj hne
    exact absurd ((hzero i hi).trans (hzero j hj).symm) hne
  · exact ⟨by decide, by decide⟩
  · exact not_inWindow_of_below (by decide)

-- Sixteen bytes of file, sixteen zero bytes after them.
theorem elfLoad_builds_oneSegment :
    WellFormed (withImage (oneSegment 0x800000 32)) 0x400000 84 ∧
      (elfLoad 0x400000 84 (.start (withImage (oneSegment 0x800000 32)))).1 = some 0x800000 ∧
      (elfLoad 0x400000 84 (.start (withImage (oneSegment 0x800000 32)))).2.mem 0x80001F = 0 := by
  have hentry : (withImage (oneSegment 0x800000 32)).word (0x400000 + 24) = 0x800000 := by decide
  obtain ⟨hret, hbuilt⟩ := elfLoad_builds _ _ _ wellFormed_oneSegment
  refine ⟨wellFormed_oneSegment, by rw [hret, hentry], hbuilt.bss 0 (by decide) ?_ _ ?_⟩
  · exact ⟨by decide, by decide⟩
  · exact ⟨by decide, by decide⟩

end Loader

end JacobOS.Elf
