import JacobOS.Kernel.Elf

/-!
# What the ELF loader reads

`elf_load` compares the end of the program header table with the size of the image, taking 32 bytes for
each header, and then walks the table with the stride that the image gives.  It compares the end of a
segment's bytes in the image with a sum that can wrap.  Both let it read outside the image.
-/

namespace JacobOS

open AddressRange

namespace Machine

/-! ## Recorded reads -/

theorem forall_load8 {Q : UInt32 → Prop} {a : UInt32} {s : Machine} :
    (∀ x ∈ (load8 a s).2.loads, Q x) ↔ Q a ∧ ∀ x ∈ s.loads, Q x := List.forall_mem_cons

theorem forall_load16 {Q : UInt32 → Prop} {a : UInt32} {s : Machine} :
    (∀ x ∈ (load16 a s).2.loads, Q x) ↔ (∀ x ∈ span a 2, Q x) ∧ ∀ x ∈ s.loads, Q x := by
  have hspan : span a 2 = [a, a + 1] := by simp [span, List.range_succ]
  have hloads : (load16 a s).2.loads = (a + 1) :: a :: s.loads := rfl
  rw [hloads, hspan]
  simp only [List.forall_mem_cons, List.not_mem_nil, false_imp_iff, implies_true, and_true]
  tauto

theorem forall_load32 {Q : UInt32 → Prop} {a : UInt32} {s : Machine} :
    (∀ x ∈ (load32 a s).2.loads, Q x) ↔ (∀ x ∈ span a 4, Q x) ∧ ∀ x ∈ s.loads, Q x := by
  have hspan : span a 4 = [a, a + 1, a + 2, a + 3] := by simp [span, List.range_succ]
  have hloads : (load32 a s).2.loads = (a + 3) :: (a + 2) :: (a + 1) :: a :: s.loads := rfl
  rw [hloads, hspan]
  simp only [List.forall_mem_cons, List.not_mem_nil, false_imp_iff, implies_true, and_true]
  tauto

theorem memset_loads (dst : UInt32) (c : UInt8) (n : Nat) (s : Machine) :
    (memset dst c n s).2.loads = s.loads := by
  induction n generalizing dst s with
  | zero => rfl
  | succ n ih => exact ih (dst + 1) _

theorem forall_memcpy {Q : UInt32 → Prop} {dst src : UInt32} {n : Nat} {s : Machine} :
    (∀ x ∈ (memcpy dst src n s).2.loads, Q x) ↔ (∀ x ∈ span src n, Q x) ∧ ∀ x ∈ s.loads, Q x := by
  induction n generalizing dst src s with
  | zero => simp [memcpy]
  | succ n ih =>
    have hrun : (memcpy dst src (n + 1) s).2 =
        (memcpy (dst + 1) (src + 1) n (store8 dst (s.mem src) (load8 src s).2).2).2 := rfl
    have hloads : (store8 dst (s.mem src) (load8 src s).2).2.loads = src :: s.loads := rfl
    rw [hrun, ih, hloads, List.forall_mem_cons]
    constructor
    · rintro ⟨hrest, hfirst, hold⟩
      refine ⟨fun x hx => ?_, hold⟩
      rcases mem_span_succ.mp hx with rfl | hx
      · exact hfirst
      · exact hrest x hx
    · rintro ⟨hall, hold⟩
      exact ⟨fun x hx => hall x (mem_span_succ.mpr (Or.inr hx)), hall src (mem_span_succ.mpr (Or.inl rfl)),
        hold⟩

end Machine

namespace Elf

open Machine

/-- The offset of address `x` from the start of the image is below its size. -/
def Inside (img size x : UInt32) : Prop := (x - img).toNat < size.toNat

-- The `n` bytes at `a` are inside exactly if they end there, counted from the start of the image.
theorem inside_span_iff {img size a : UInt32} {n : Nat} :
    (∀ x ∈ span a n, Inside img size x) ↔ n = 0 ∨ (a - img).toNat + n ≤ size.toNat := by
  have hshift : (∀ x ∈ span a n, Inside img size x) ↔ ∀ y ∈ span (a - img) n, 0 ≤ y ∧ y < size := by
    have hsub : ∀ k, a + UInt32.ofNat k - img = a - img + UInt32.ofNat k := by
      intro k
      rw [UInt32.sub_eq_add_neg, UInt32.sub_eq_add_neg, UInt32.add_assoc,
        UInt32.add_comm (UInt32.ofNat k), UInt32.add_assoc]
    constructor
    · intro h y hy
      obtain ⟨k, hk, rfl⟩ := mem_span.mp hy
      have hin := h _ (mem_span.mpr ⟨k, hk, rfl⟩)
      unfold Inside at hin
      rw [hsub] at hin
      exact ⟨UInt32.zero_le, UInt32.lt_iff_toNat_lt.mpr hin⟩
    · intro h x hx
      obtain ⟨k, hk, rfl⟩ := mem_span.mp hx
      unfold Inside
      rw [hsub]
      exact UInt32.lt_iff_toNat_lt.mp (h _ (mem_span.mpr ⟨k, hk, rfl⟩)).2
  rw [hshift, span_subset_iff, and_iff_right UInt32.zero_le]

def WordInside (img size a : UInt32) : Prop := (a - img).toNat + 4 ≤ size.toNat

theorem wordInside_iff {img size a : UInt32} :
    (∀ x ∈ span a 4, Inside img size x) ↔ WordInside img size a := by
  rw [inside_span_iff, or_iff_right (by decide)]
  rfl

/-- The bytes that `memcpy` reads for the segment. -/
def Phdr.sourceSpan (h : Phdr) (img : UInt32) : List UInt32 := span (img + h.offset) h.filesz.toNat

/-- The bytes of the segment end inside the image, without wrapping. -/
def Phdr.SourceInside (h : Phdr) (size : UInt32) : Prop :=
  h.filesz = 0 ∨ h.offset.toNat + h.filesz.toNat ≤ size.toNat

theorem Phdr.sourceInside_iff {h : Phdr} {img size : UInt32} :
    (∀ x ∈ h.sourceSpan img, Inside img size x) ↔ h.SourceInside size := by
  unfold Phdr.sourceSpan Phdr.SourceInside
  rw [inside_span_iff, UInt32.add_comm img, UInt32.add_sub_cancel]
  exact or_congr_left ⟨fun h0 => UInt32.toNat_inj.mp h0, fun h0 => by rw [h0]; rfl⟩

/-- What is read of a `PT_LOAD` header, as far as the checks let the loader come, and the bytes of the
segment if they pass. -/
def SegmentInside (m : Mem) (img size ph : UInt32) : Prop :=
  WordInside img size (ph + 8) ∧ (¬ (phdrAt m ph).vaddr < userBase →
    WordInside img size (ph + 20) ∧ (¬ (phdrAt m ph).vaddr + (phdrAt m ph).memsz > userTop →
      ¬ (phdrAt m ph).vaddr + (phdrAt m ph).memsz < (phdrAt m ph).vaddr →
      WordInside img size (ph + 4) ∧ WordInside img size (ph + 16) ∧
        (¬ (phdrAt m ph).offset + (phdrAt m ph).filesz > size → (phdrAt m ph).SourceInside size)))

/-- What is read of a header, and the bytes of its segment if it is loaded, lies inside the image. -/
def HeaderInside (m : Mem) (img size ph : UInt32) : Prop :=
  WordInside img size ph ∧ ((phdrAt m ph).type = 1 → SegmentInside m img size ph)

/-- Every header that the loop looks at from header `i` on, as it stands then. -/
def HeadersInside (img size : UInt32) : Nat → Nat → Mem → Prop
  | 0, _, _ => True
  | passes + 1, i, m =>
      i < phnum m img →
        HeaderInside m img size (phAddr m img i) ∧
        ((phdrAt m (phAddr m img i)).type ≠ 1 → HeadersInside img size passes (i + 1) m) ∧
        ((phdrAt m (phAddr m img i)).type = 1 → (phdrAt m (phAddr m img i)).Checked size →
          HeadersInside img size passes (i + 1) (loadedMem m img (phAddr m img i)))

/-! ## The loop -/

theorem loadSegment_inside_iff (img size ph : UInt32) (s : Machine) :
    (∀ x ∈ (loadSegment img size ph s).2.loads, Inside img size x) ↔
      SegmentInside s.mem img size ph ∧ ∀ x ∈ s.loads, Inside img size x := by
  unfold loadSegment SegmentInside
  simp only [phdrAt]
  rw [run_load32]
  by_cases h1 : s.mem.word (ph + 8) < userBase
  · rw [if_pos h1, run_pure, forall_load32, wordInside_iff]
    exact ⟨fun ⟨w8, hs⟩ => ⟨⟨w8, fun h => absurd h1 h⟩, hs⟩, fun ⟨⟨w8, _⟩, hs⟩ => ⟨w8, hs⟩⟩
  rw [if_neg h1, run_load32, load32_mem]
  by_cases h2 : s.mem.word (ph + 8) + s.mem.word (ph + 20) > userTop
  · rw [if_pos h2, run_pure, forall_load32, forall_load32, wordInside_iff, wordInside_iff]
    exact ⟨fun ⟨w20, w8, hs⟩ => ⟨⟨w8, fun _ => ⟨w20, fun h => absurd h2 h⟩⟩, hs⟩,
      fun ⟨⟨w8, h⟩, hs⟩ => ⟨(h h1).1, w8, hs⟩⟩
  rw [if_neg h2]
  by_cases h3 : s.mem.word (ph + 8) + s.mem.word (ph + 20) < s.mem.word (ph + 8)
  · rw [if_pos h3, run_pure, forall_load32, forall_load32, wordInside_iff, wordInside_iff]
    exact ⟨fun ⟨w20, w8, hs⟩ => ⟨⟨w8, fun _ => ⟨w20, fun _ h => absurd h3 h⟩⟩, hs⟩,
      fun ⟨⟨w8, h⟩, hs⟩ => ⟨(h h1).1, w8, hs⟩⟩
  rw [if_neg h3, run_load32, load32_mem, load32_mem, run_load32, load32_mem, load32_mem, load32_mem]
  by_cases h4 : s.mem.word (ph + 4) + s.mem.word (ph + 16) > size
  · rw [if_pos h4, run_pure]
    simp only [forall_load32, wordInside_iff]
    refine ⟨fun ⟨w16, w4, w20, w8, hs⟩ => ⟨⟨w8, fun _ => ⟨w20, fun _ _ => ⟨w4, w16, ?_⟩⟩⟩, hs⟩, ?_⟩
    · exact fun h => absurd h4 h
    · rintro ⟨⟨w8, h⟩, hs⟩
      obtain ⟨w20, h⟩ := h h1
      obtain ⟨w4, w16, -⟩ := h h2 h3
      exact ⟨w16, w4, w20, w8, hs⟩
  rw [if_neg h4]
  have hsource := @Phdr.sourceInside_iff (phdrAt s.mem ph) img size
  unfold Phdr.sourceSpan phdrAt at hsource
  -- the fields that are read again after the copy are the same bytes as before
  simp only [run_bind, run_pure, memset_loads, forall_load32, forall_memcpy, wordInside_iff]
  rw [hsource]
  constructor
  · rintro ⟨-, -, -, hsrc, w16, w4, w20, w8, hs⟩
    exact ⟨⟨w8, fun _ => ⟨w20, fun _ _ => ⟨w4, w16, fun _ => hsrc⟩⟩⟩, hs⟩
  · rintro ⟨⟨w8, h⟩, hs⟩
    obtain ⟨w20, h⟩ := h h1
    obtain ⟨w4, w16, h⟩ := h h2 h3
    exact ⟨w20, w16, w8, h h4, w16, w4, w20, w8, hs⟩

-- The ELF header is inside the image once `size` is large enough for it.
theorem headerField_inside {img size : UInt32} (hsize : ¬ size < 52) {k n : Nat} (hk : k + n ≤ 52) :
    ∀ x ∈ span (img + UInt32.ofNat k) n, Inside img size x := by
  have hle := UInt32.le_iff_toNat_le.mp (UInt32.not_lt.mp hsize)
  rw [show (52 : UInt32).toNat = 52 from rfl] at hle
  rw [inside_span_iff, UInt32.add_comm, UInt32.add_sub_cancel, UInt32.toNat_ofNat',
    Nat.mod_eq_of_lt (by omega)]
  exact Or.inr (by omega)

theorem forall_headRead (img : UInt32) {size : UInt32} (hsize : ¬ size < 52) (i : Nat) (s : Machine) :
    (∀ x ∈ (headRead img i s).loads, Inside img size x) ↔
      WordInside img size (phAddr s.mem img i) ∧ ∀ x ∈ s.loads, Inside img size x := by
  have h42 : ∀ x ∈ span (img + 42) 2, Inside img size x :=
    headerField_inside (k := 42) hsize (by decide)
  have h28 : ∀ x ∈ span (img + 28) 4, Inside img size x :=
    headerField_inside (k := 28) hsize (by decide)
  have h44 : ∀ x ∈ span (img + 44) 2, Inside img size x :=
    headerField_inside (k := 44) hsize (by decide)
  unfold headRead
  rw [forall_load32, forall_load16, forall_load32, forall_load16, wordInside_iff, and_iff_right h42,
    and_iff_right h28, and_iff_right h44]

-- The loop stays inside the image exactly when every header it looks at does.
theorem loadSegments_inside_iff {img size : UInt32} (hsize : ¬ size < 52) (passes i : Nat)
    (s : Machine) :
    (∀ x ∈ (loadSegments img size passes i s).2.loads, Inside img size x) ↔
      HeadersInside img size passes i s.mem ∧ ∀ x ∈ s.loads, Inside img size x := by
  induction passes generalizing i s with
  | zero => exact ⟨fun hs => ⟨trivial, hs⟩, fun h => h.2⟩
  | succ passes ih =>
    rw [HeadersInside]
    by_cases hi : i < phnum s.mem img
    swap
    · have h44 : ∀ x ∈ span (img + 44) 2, Inside img size x :=
        headerField_inside (k := 44) hsize (by decide)
      rw [loadSegments_end img size passes hi, forall_load16, and_iff_right h44,
        and_iff_right fun hi' => absurd hi' hi]
    have hhead := forall_headRead img hsize i s
    unfold HeaderInside
    rw [loadSegments_succ img size passes hi]
    by_cases ht : s.mem.word (phAddr s.mem img i) = 1
    · rw [if_neg (not_not.mpr ht), run_bind]
      have hseg := loadSegment_inside_iff img size (phAddr s.mem img i) (headRead img i s)
      rw [headRead_mem, hhead] at hseg
      rcases loadSegment_spec img size (phAddr s.mem img i) (headRead img i s) with
        ⟨hc, hret, -⟩ | ⟨hc, hret, hmem, -⟩
      · rw [hret, if_neg Bool.false_ne_true, run_pure, hseg]
        constructor
        · rintro ⟨hin, hword, hs⟩
          exact ⟨fun _ => ⟨⟨hword, fun _ => hin⟩, fun ht' => absurd ht ht', fun _ hc' => absurd hc' hc⟩, hs⟩
        · rintro ⟨h, hs⟩
          exact ⟨(h hi).1.2 ht, (h hi).1.1, hs⟩
      · rw [hret, if_pos rfl, ih, hmem, hseg]
        constructor
        · rintro ⟨hrest, hin, hword, hs⟩
          exact ⟨fun _ => ⟨⟨hword, fun _ => hin⟩, fun ht' => absurd ht ht', fun _ _ => hrest⟩, hs⟩
        · rintro ⟨h, hs⟩
          exact ⟨(h hi).2.2 ht hc, (h hi).1.2 ht, (h hi).1.1, hs⟩
    · rw [if_pos ht, ih, headRead_mem, hhead]
      constructor
      · rintro ⟨hrest, hword, hs⟩
        exact ⟨fun _ => ⟨⟨hword, fun ht' => absurd ht' ht⟩, fun _ => hrest, fun ht' => absurd ht' ht⟩, hs⟩
      · rintro ⟨h, hs⟩
        exact ⟨(h hi).2.1 ht, (h hi).1.1, hs⟩

/-! ## The whole loader -/

/-- `t` is `s` after some reads that satisfy `Q`. -/
structure ReadsIn (Q : UInt32 → Prop) (s t : Machine) : Prop where
  mem : t.mem = s.mem
  loads : ∀ x ∈ t.loads, Q x

-- A field that may be read is read and compared before the rest.
theorem ReadsIn.check8 {α : Type} {Q : UInt32 → Prop} {s t : Machine} (h : ReadsIn Q s t) {a : UInt32}
    (ha : Q a) {c : UInt8} {v : α} {p : MachineM α} {A B : Prop}
    (hp : ∀ u, ReadsIn Q s u → ((∀ x ∈ (p u).2.loads, Q x) ↔ (A → B))) :
    (∀ x ∈ ((load8 a >>= fun b => if b ≠ c then pure v else p) t).2.loads, Q x) ↔
      (s.mem a = c ∧ A → B) := by
  have hread : ReadsIn Q s (load8 a t).2 := ⟨h.mem, forall_load8.mpr ⟨ha, h.loads⟩⟩
  rw [run_load8, run_ite, h.mem, ite_not]
  by_cases hc : s.mem a = c
  · rw [if_pos hc, hp _ hread, and_iff_right hc]
  · rw [if_neg hc]
    exact iff_of_true hread.loads fun hA => absurd hA.1 hc

theorem ReadsIn.check16 {α : Type} {Q : UInt32 → Prop} {s t : Machine} (h : ReadsIn Q s t) {a : UInt32}
    (ha : ∀ x ∈ span a 2, Q x) {c : UInt32} {v : α} {p : MachineM α} {A B : Prop}
    (hp : ∀ u, ReadsIn Q s u → ((∀ x ∈ (p u).2.loads, Q x) ↔ (A → B))) :
    (∀ x ∈ ((load16 a >>= fun b => if b ≠ c then pure v else p) t).2.loads, Q x) ↔
      (s.mem.half a = c ∧ A → B) := by
  have hread : ReadsIn Q s (load16 a t).2 := ⟨h.mem, forall_load16.mpr ⟨ha, h.loads⟩⟩
  rw [run_load16, run_ite, h.mem, ite_not]
  by_cases hc : s.mem.half a = c
  · rw [if_pos hc, hp _ hread, and_iff_right hc]
  · rw [if_neg hc]
    exact iff_of_true hread.loads fun hA => absurd hA.1 hc

-- After the loop only the entry point is read.
theorem entry_loads {Q : UInt32 → Prop} {img : UInt32} (h24 : ∀ x ∈ span (img + 24) 4, Q x)
    (r : Bool × Machine) :
    (∀ x ∈ ((if r.1 = true then do
        if (← load32 (img + 24)) < userBase then return none
        if (← load32 (img + 24)) ≥ userTop then return none
        return some (← load32 (img + 24))
      else return none : MachineM (Option UInt32)) r.2).2.loads, Q x) ↔ ∀ x ∈ r.2.loads, Q x := by
  obtain ⟨ok, t⟩ := r
  cases ok with
  | false => rfl
  | true =>
    simp only [if_true, run_load32, run_ite, run_pure]
    split
    · rw [forall_load32, and_iff_right h24]
    · split
      · rw [forall_load32, forall_load32, and_iff_right h24, and_iff_right h24]
      · rw [forall_load32, forall_load32, forall_load32, and_iff_right h24, and_iff_right h24,
          and_iff_right h24]

/-- All that `elf_load` reads lies in the image exactly when an accepted image has only headers and
segments inside it. -/
theorem elfLoad_inside_iff (m : Mem) (img size : UInt32) :
    (∀ x ∈ (elfLoad img size (.start m)).2.loads, Inside img size x) ↔
      (Accepted m img size → HeadersInside img size 65536 0 m) := by
  unfold elfLoad Accepted
  by_cases h0 : size < 52
  · rw [if_pos h0]
    exact iff_of_true (fun x hx => absurd hx (by simp [start])) fun ha => absurd h0 ha.1
  have hbyte : ∀ k, k + 1 ≤ 52 → Inside img size (img + UInt32.ofNat k) := by
    intro k hk
    exact headerField_inside h0 hk _ (mem_span_succ.mpr (Or.inl rfl))
  have hfirst := hbyte 0 (by decide)
  rw [show img + UInt32.ofNat 0 = img from UInt32.add_zero img] at hfirst
  have hstart : ReadsIn (Inside img size) (.start m) (.start m) := ⟨rfl, by simp [start]⟩
  rw [if_neg h0, and_iff_right h0]
  refine hstart.check8 hfirst fun t1 r1 => r1.check8 (hbyte 1 (by decide)) fun t2 r2 => ?_
  refine r2.check8 (hbyte 2 (by decide)) fun t3 r3 => r3.check8 (hbyte 3 (by decide)) fun t4 r4 => ?_
  refine r4.check8 (hbyte 4 (by decide)) fun t5 r5 => ?_
  refine r5.check16 (headerField_inside (k := 18) h0 (by decide)) fun t6 r6 => ?_
  refine r6.check16 (headerField_inside (k := 16) h0 (by decide)) fun t7 r7 => ?_
  have h28 : ∀ x ∈ span (img + 28) 4, Inside img size x := headerField_inside (k := 28) h0 (by decide)
  have h44 : ∀ x ∈ span (img + 44) 2, Inside img size x := headerField_inside (k := 44) h0 (by decide)
  have hread : ∀ x ∈ (load16 (img + 44) (load32 (img + 28) t7).2).2.loads, Inside img size x := by
    rw [forall_load16, forall_load32]
    exact ⟨h44, h28, r7.loads⟩
  rw [run_load32, r7.mem, run_load16, load32_mem, r7.mem]
  show _ ↔ (¬ m.word (img + 28) + m.half (img + 44) * 32 > size → _)
  change (∀ x ∈ ((if m.word (img + 28) + m.half (img + 44) * 32 > size then _ else _ :
    MachineM (Option UInt32)) _).2.loads, _) ↔ _
  by_cases h8 : m.word (img + 28) + m.half (img + 44) * 32 > size
  · rw [if_pos h8]
    exact iff_of_true hread fun ha => absurd h8 ha
  · have hmem : (load16 (img + 44) (load32 (img + 28) t7).2).2.mem = m := r7.mem
    rw [if_neg h8, run_bind, entry_loads (headerField_inside (k := 24) h0 (by decide)),
      loadSegments_inside_iff h0, and_iff_left hread, hmem]
    exact ⟨fun h _ => h, fun h => h h8⟩

/-! ## Headers that stay as they are -/

/-- The loop gets to header `i`. -/
def Reached (m : Mem) (img size : UInt32) (i : Nat) : Prop :=
  i < phnum m img ∧
    ∀ j, j < i → (phdrAt m (phAddr m img j)).type = 1 → (phdrAt m (phAddr m img j)).Checked size

-- A segment that fits is loaded into the window.
theorem AgreeOutside.loaded_of_le {m m' : Mem} {img size : UInt32} (h : AgreeOutside m m')
    (ha : HeadersApart m img) {i : Nat} (hi : i < phnum m img)
    (hc : (phdrAt m (phAddr m img i)).Checked size)
    (hle : (phdrAt m (phAddr m img i)).filesz ≤ (phdrAt m (phAddr m img i)).memsz) :
    AgreeOutside m (loadedMem m' img (phAddr m img i)) := by
  obtain ⟨hfile, hbss⟩ := (Phdr.fits_iff hc).mpr hle
  have hspan : ∀ x ∈ (phdrAt m' (phAddr m img i)).fileSpan, InWindow x := by
    rw [h.phdrAt_eq ha hi]
    exact (Phdr.fileFits_iff hc).mp hfile
  apply h.loaded hspan
  rw [(h.copied hspan).phdrAt_eq ha hi]
  exact Phdr.bssFits_iff.mp hbss

/-- From header `i` on, every header that the loop gets to lies inside. -/
def InsideFrom (m : Mem) (img size : UInt32) (i : Nat) : Prop :=
  ∀ j, i ≤ j → j < phnum m img →
    (∀ k, i ≤ k → k < j → (phdrAt m (phAddr m img k)).type = 1 →
      (phdrAt m (phAddr m img k)).Checked size) →
    HeaderInside m img size (phAddr m img j)

-- The loop goes on behind header `i`.
theorem insideFrom_next {m : Mem} {img size : UInt32} {i : Nat} (hi : i < phnum m img)
    (hgo : (phdrAt m (phAddr m img i)).type = 1 → (phdrAt m (phAddr m img i)).Checked size) :
    InsideFrom m img size i ↔
      HeaderInside m img size (phAddr m img i) ∧ InsideFrom m img size (i + 1) := by
  constructor
  · intro h
    refine ⟨h i (Nat.le_refl i) hi fun k hik hki => absurd hki (by omega), ?_⟩
    intro j hij hj hbefore
    refine h j (by omega) hj fun k hik hkj htk => ?_
    by_cases hki : k = i
    · rw [hki] at htk ⊢
      exact hgo htk
    · exact hbefore k (by omega) hkj htk
  · rintro ⟨hfirst, h⟩ j hij hj hbefore
    by_cases hji : j = i
    · rw [hji]
      exact hfirst
    · exact h j (by omega) hj fun k hik => hbefore k (by omega)

-- The loop returns at header `i`.
theorem insideFrom_last {m : Mem} {img size : UInt32} {i : Nat} (hi : i < phnum m img)
    (ht : (phdrAt m (phAddr m img i)).type = 1) (hc : ¬ (phdrAt m (phAddr m img i)).Checked size) :
    InsideFrom m img size i ↔ HeaderInside m img size (phAddr m img i) := by
  constructor
  · exact fun h => h i (Nat.le_refl i) hi fun k hik hki => absurd hki (by omega)
  · intro hfirst j hij hj hbefore
    rcases Nat.eq_or_lt_of_le hij with rfl | hlt
    · exact hfirst
    · exact absurd (hbefore i (Nat.le_refl i) hlt ht) hc

theorem headersInside_iff_insideFrom {m : Mem} {img size : UInt32} (ha : HeadersApart m img)
    (passes i : Nat) (hpasses : passes + i = 65536) {m' : Mem} (h : AgreeOutside m m')
    (hfit : FitsFrom m img size i) :
    HeadersInside img size passes i m' ↔ InsideFrom m img size i := by
  induction passes generalizing i m' with
  | zero =>
    have hlt : phnum m img < 65536 := Mem.half_lt m (img + 44)
    refine ⟨fun _ j hij hj => ?_, fun _ => trivial⟩
    omega
  | succ passes ih =>
    rw [HeadersInside, h.phnum_eq ha, h.phAddr_eq ha]
    by_cases hi : i < phnum m img
    swap
    · exact ⟨fun _ j hij hj => absurd hj (by omega), fun _ hi' => absurd hi' hi⟩
    have hsame : HeaderInside m' img size (phAddr m img i) ↔
        HeaderInside m img size (phAddr m img i) := by
      unfold HeaderInside SegmentInside
      rw [h.phdrAt_eq ha hi]
    rw [h.phdrAt_eq ha hi, hsame]
    by_cases ht : (phdrAt m (phAddr m img i)).type = 1
    swap
    · rw [insideFrom_next hi fun ht' => absurd ht' ht,
        ← ih (i + 1) (by omega) h ((fitsFrom_skip ht).mp hfit)]
      exact ⟨fun hin => ⟨(hin hi).1, (hin hi).2.1 ht⟩,
        fun hin _ => ⟨hin.1, fun _ => hin.2, fun ht' => absurd ht' ht⟩⟩
    by_cases hc : (phdrAt m (phAddr m img i)).Checked size
    swap
    · rw [insideFrom_last hi ht hc]
      exact ⟨fun hin => (hin hi).1,
        fun hin _ => ⟨hin, fun ht' => absurd ht ht', fun _ hc' => absurd hc' hc⟩⟩
    obtain ⟨hle, hrest⟩ := (fitsFrom_load hi ht hc).mp hfit
    rw [insideFrom_next hi fun _ => hc,
      ← ih (i + 1) (by omega) (h.loaded_of_le ha hi hc hle) hrest]
    exact ⟨fun hin => ⟨(hin hi).1, (hin hi).2.2 ht hc⟩,
      fun hin _ => ⟨hin.1, fun ht' => absurd ht ht', fun _ _ => hin.2⟩⟩

/-- The loader reads outside the image exactly when it accepts an image and looks at a header, or loads
a segment, that is not inside.  For headers that no segment overwrites that is a matter of the headers
as they stand in the image. -/
theorem elfLoad_reads_image (m : Mem) (img size : UInt32) :
    ((∀ x ∈ (elfLoad img size (.start m)).2.loads, Inside img size x) ↔
      (Accepted m img size → HeadersInside img size 65536 0 m)) ∧
    (HeadersApart m img → (∀ i, Loads m img size i →
        (phdrAt m (phAddr m img i)).filesz ≤ (phdrAt m (phAddr m img i)).memsz) →
      ((∀ x ∈ (elfLoad img size (.start m)).2.loads, Inside img size x) ↔
        (Accepted m img size → ∀ i, Reached m img size i →
          HeaderInside m img size (phAddr m img i)))) := by
  refine ⟨elfLoad_inside_iff m img size, fun ha hfit => ?_⟩
  have hfits : FitsFrom m img size 0 := fun j _ hj htj hcj hbefore =>
    hfit j ⟨hj, htj, hcj, fun k hk => hbefore k (Nat.zero_le k) hk⟩
  rw [elfLoad_inside_iff, headersInside_iff_insideFrom ha 65536 0 rfl (fun _ _ => rfl) hfits]
  refine imp_congr_right fun _ => ?_
  constructor
  · rintro h i ⟨hi, hbefore⟩
    exact h i (Nat.zero_le i) hi fun k _ hk => hbefore k hk
  · intro h j _ hj hbefore
    exact h j ⟨hj, fun k hk => hbefore k (Nat.zero_le k) hk⟩

/-- An image with a table of two program headers, both all zero, whose stride is `phentsize`. -/
def twoHeaders (phentsize : UInt8) : List UInt8 :=
  [0x7F, 0x45, 0x4C, 0x46, 1, 1, 1, 0, 0, 0, 0, 0, 0, 0, 0, 0, 2, 0, 3, 0, 1, 0, 0, 0, 0, 0, 0x80, 0,
    52, 0, 0, 0, 0, 0, 0, 0, 0, 0, 0, 0, 52, 0, phentsize, 0, 2, 0, 0, 0, 0, 0, 0, 0] ++
    List.replicate 64 0

-- With a stride of 200 the second header of a 116-byte image is looked for at offset 252.
theorem elfLoad_leaves_image :
    ¬ ∀ x ∈ (elfLoad 0x400000 116 (.start (withImage (twoHeaders 200)))).2.loads,
      Inside 0x400000 116 x := by
  rw [elfLoad_inside_iff]
  intro h
  have hacc : Accepted (withImage (twoHeaders 200)) 0x400000 116 := by
    unfold Accepted
    decide
  have hin := h hacc
  rw [HeadersInside] at hin
  have hnext := (hin (by decide)).2.1 (by decide)
  rw [HeadersInside] at hnext
  obtain ⟨⟨hword, -⟩, -⟩ := hnext (by decide)
  unfold WordInside at hword
  exact absurd hword (by decide)

-- With the stride that `elf_load` has compared with the size, both headers are inside.
theorem elfLoad_reads_image_two :
    ∀ x ∈ (elfLoad 0x400000 116 (.start (withImage (twoHeaders 32)))).2.loads,
      Inside 0x400000 116 x := by
  have hnum : phnum (withImage (twoHeaders 32)) 0x400000 = 2 := by decide
  have hph : ∀ i, i < 2 → (phAddr (withImage (twoHeaders 32)) 0x400000 i).toNat + 32 ≤ 0x400074 ∧
      (phdrAt (withImage (twoHeaders 32)) (phAddr (withImage (twoHeaders 32)) 0x400000 i)).type ≠ 1 ∧
      (phAddr (withImage (twoHeaders 32)) 0x400000 i - 0x400000).toNat + 4 ≤ 116 := by decide
  refine ((elfLoad_reads_image _ _ _).2 ⟨not_inWindow_of_below (by decide), ?_⟩ ?_).mpr ?_
  · intro i hi
    have hle := (hph i (by omega)).1
    have hbase : userBase.toNat = 0x800000 := rfl
    exact not_inWindow_of_below (by omega)
  · rintro i ⟨hi, ht, -⟩
    exact absurd ht (hph i (by omega)).2.1
  · rintro - i ⟨hi, -⟩
    exact ⟨(hph i (by omega)).2.2, fun ht => absurd ht (hph i (by omega)).2.1⟩

end Elf

end JacobOS
