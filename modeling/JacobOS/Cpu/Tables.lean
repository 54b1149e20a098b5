import JacobOS.Lib.Protection32

/-!
# The descriptor tables: `cpu/gdt.c`, `cpu/idt.c` and `isr_install`

What the kernel stores in its two tables and in the TSS, and what the processor makes of it.  The stubs of
`cpu/interrupt.asm` appear by their addresses.
-/

namespace JacobOS.Cpu

open LittleEndian Protection32

/-- Lower byte first. -/
def lowByte (h : UInt16) : UInt8 := h.toUInt8
def highByte (h : UInt16) : UInt8 := (h >>> 8).toUInt8

/-! ## Segments -/

/-- `gdt_entry_t`. -/
structure GdtEntry where
  limitLow : UInt16
  baseLow : UInt16
  baseMid : UInt8
  access : UInt8
  gran : UInt8
  baseHigh : UInt8

/-- The packed structure in memory. -/
def GdtEntry.bytes (e : GdtEntry) : Bytes :=
  ⟨lowByte e.limitLow, highByte e.limitLow, lowByte e.baseLow, highByte e.baseLow, e.baseMid, e.access, e.gran,
    e.baseHigh⟩

/-- What `set_gate` stores. -/
def gdtEntry (base limit : UInt32) (access flags : UInt8) : GdtEntry where
  limitLow := (limit &&& 0xFFFF).toUInt16
  baseLow := (base &&& 0xFFFF).toUInt16
  baseMid := ((base >>> 16) &&& 0xFF).toUInt8
  access := access
  gran := (((limit >>> 16) &&& (0x0F : UInt32)) ||| (flags.toUInt32 <<< 4)).toUInt8
  baseHigh := ((base >>> 24) &&& 0xFF).toUInt8

abbrev Gdt := Nat → GdtEntry

def setGate (gdt : Gdt) (i : Nat) (base limit : UInt32) (access flags : UInt8) : Gdt :=
  Function.update gdt i (gdtEntry base limit access flags)

def gdtKernelData : UInt16 := 0x10
def gdtEntries : Nat := 6

/-- The fields of `tss_t` that are not always zero. -/
structure Tss where
  esp0 : UInt32
  ss0 : UInt32
  iomapBase : UInt16

/-- `sizeof(tss)`. -/
def tssSize : Nat := 104

def tssSetKernelStack (tss : Tss) (esp0 : UInt32) : Tss := { tss with esp0 := esp0 }

/-- `gdt_install` with the TSS at `tssAddr`: the table and the TSS. -/
def gdtInstall (tssAddr : UInt32) (gdt : Gdt) : Gdt × Tss :=
  let gdt := setGate gdt 0 0 0 0 0                                 -- null
  let gdt := setGate gdt 1 0 0xFFFFF 0x9A 0xC                      -- kernel code
  let gdt := setGate gdt 2 0 0xFFFFF 0x92 0xC                      -- kernel data
  let gdt := setGate gdt 3 0 0xFFFFF 0xFA 0xC                      -- user code   (DPL 3)
  let gdt := setGate gdt 4 0 0xFFFFF 0xF2 0xC                      -- user data   (DPL 3)
  let tss : Tss := ⟨0, gdtKernelData.toUInt32, UInt16.ofNat tssSize⟩ -- no I/O bitmap
  (setGate gdt 5 tssAddr (UInt32.ofNat (tssSize - 1)) 0x89 0x0, tss)

/-! ## Gates -/

/-- `idt_gate_t`. -/
structure IdtGate where
  lowOffset : UInt16
  selector : UInt16
  always0 : UInt8
  flags : UInt8
  highOffset : UInt16

def IdtGate.bytes (g : IdtGate) : Bytes :=
  ⟨lowByte g.lowOffset, highByte g.lowOffset, lowByte g.selector, highByte g.selector, g.always0, g.flags,
    lowByte g.highOffset, highByte g.highOffset⟩

def idtEntries : Nat := 256
def kernelCs : UInt16 := 0x08

abbrev Idt := Nat → IdtGate

/-- The static table before anything is stored in it. -/
def Idt.zero : Idt := fun _ => ⟨0, 0, 0, 0, 0⟩

def setIdtGate (idt : Idt) (n : Nat) (handler : UInt32) : Idt :=
  Function.update idt n
    ⟨(handler &&& 0xFFFF).toUInt16, kernelCs, 0, 0x8E, ((handler >>> 16) &&& 0xFFFF).toUInt16⟩

def setIdtGateDpl (idt : Idt) (n : Nat) (handler : UInt32) (dpl : UInt8) : Idt :=
  Function.update idt n
    ⟨(handler &&& 0xFFFF).toUInt16, kernelCs, 0, ((0x8E : UInt32) ||| (dpl.toUInt32 <<< 5)).toUInt8,
      ((handler >>> 16) &&& 0xFFFF).toUInt16⟩

/-- The addresses of the stubs. -/
structure Stubs where
  isr : Nat → UInt32
  irq : Nat → UInt32
  isr128 : UInt32

/-- `set_idt_gate` for `count` vectors in a row. -/
def setIdtGates (idt : Idt) (first count : Nat) (handler : Nat → UInt32) : Idt :=
  (List.range count).foldl (fun idt i => setIdtGate idt (first + i) (handler i)) idt

/-- `isr_install`, without `pic_remap`. -/
def isrInstall (stubs : Stubs) (idt : Idt) : Idt :=
  let idt := setIdtGates idt 0 32 stubs.isr
  let idt := setIdtGates idt 32 16 stubs.irq
  -- dpl 3 so ring-3 code may `int 0x80`
  setIdtGateDpl idt 0x80 stubs.isr128 3

/-- What the processor has been told by `gdt_flush`, `tss_flush` and `load_idt`, with the ring-0 stack that
`tss_set_kernel_stack` has set. -/
def tables (stubs : Stubs) (tssAddr esp0 : UInt32) (gdt : Gdt) : Tables :=
  let tss := tssSetKernelStack (gdtInstall tssAddr gdt).2 esp0
  { gdt := fun i => ((gdtInstall tssAddr gdt).1 i).bytes
    gdtLimit := gdtEntries * 8 - 1
    idt := fun n => (isrInstall stubs Idt.zero n).bytes
    idtLimit := idtEntries * 8 - 1
    ss0 := tss.ss0.toUInt16
    esp0 := tss.esp0 }

/-! ## What the processor reads back -/

theorem toNat_and_ffff (w : UInt32) : (w &&& 0xFFFF).toNat = w.toNat % 2 ^ 16 := by
  rw [UInt32.toNat_and]
  exact Nat.and_two_pow_sub_one_eq_mod w.toNat 16

theorem toNat_shiftRight16 (w : UInt32) : (w >>> 16).toNat = w.toNat / 2 ^ 16 := by
  rw [UInt32.toNat_shiftRight]
  exact Nat.shiftRight_eq_div_pow _ _

theorem lowByte_toUInt16 (w : UInt32) : lowByte (w &&& 0xFFFF).toUInt16 = wordByte w 0 := by
  apply UInt8.toNat_inj.mp
  rw [lowByte, UInt16.toNat_toUInt8, UInt32.toNat_toUInt16, toNat_and_ffff, wordByte_toNat]
  omega

theorem highByte_toUInt16 (w : UInt32) : highByte (w &&& 0xFFFF).toUInt16 = wordByte w 1 := by
  apply UInt8.toNat_inj.mp
  rw [highByte, UInt16.toNat_toUInt8, UInt16.toNat_shiftRight, UInt32.toNat_toUInt16, toNat_and_ffff, wordByte_toNat]
  show (w.toNat % 2 ^ 16 % 2 ^ 16) >>> 8 % 2 ^ 8 = _
  rw [Nat.shiftRight_eq_div_pow]
  omega

-- The upper half of a word.
theorem wordByte_shiftRight16 (w : UInt32) (r : Nat) : wordByte (w >>> 16) r = wordByte w (r + 2) := by
  apply UInt8.toNat_inj.mp
  rw [wordByte_toNat, wordByte_toNat, toNat_shiftRight16, Nat.div_div_eq_div_mul, Nat.mul_comm,
    show (2 ^ 16 : Nat) = 256 ^ 2 from rfl, ← Nat.pow_add]

theorem toUInt8_and_ff (w : UInt32) : (w &&& 0xFF).toUInt8 = wordByte w 0 := by
  have hand : (w &&& 0xFF).toNat = w.toNat % 2 ^ 8 := by
    rw [UInt32.toNat_and]
    exact Nat.and_two_pow_sub_one_eq_mod w.toNat 8
  apply UInt8.toNat_inj.mp
  rw [UInt32.toNat_toUInt8, hand, wordByte_toNat]
  omega

theorem wordByte_shiftRight24 (w : UInt32) : wordByte (w >>> 24) 0 = wordByte w 3 := by
  apply UInt8.toNat_inj.mp
  have hshift : (w >>> 24).toNat = w.toNat / 2 ^ 24 := by
    rw [UInt32.toNat_shiftRight]
    exact Nat.shiftRight_eq_div_pow _ _
  rw [wordByte_toNat, wordByte_toNat, hshift, Nat.pow_zero, Nat.div_one, show (2 ^ 24 : Nat) = 256 ^ 3 from rfl]

-- The upper nibble of the limit, and the flags above it.
theorem gran_toNat (limit : UInt32) (flags : UInt8) :
    (gdtEntry 0 limit 0 flags).gran.toNat = (16 * flags.toNat + limit.toNat / 2 ^ 16 % 16) % 256 := by
  have hflt := flags.toNat_lt
  have hlow : ((limit >>> 16) &&& (0x0F : UInt32)).toNat = limit.toNat / 2 ^ 16 % 2 ^ 4 := by
    rw [UInt32.toNat_and, toNat_shiftRight16]
    exact Nat.and_two_pow_sub_one_eq_mod _ 4
  have hhigh : (flags.toUInt32 <<< 4).toNat = flags.toNat <<< 4 := by
    rw [UInt32.toNat_shiftLeft, UInt8.toNat_toUInt32]
    show flags.toNat <<< 4 % 2 ^ 32 = _
    rw [Nat.shiftLeft_eq]
    omega
  show (((limit >>> 16) &&& (0x0F : UInt32)) ||| (flags.toUInt32 <<< 4)).toUInt8.toNat = _
  rw [UInt32.toNat_toUInt8, UInt32.toNat_or, hlow, hhigh, Nat.or_comm,
    ← Nat.shiftLeft_add_eq_or_of_lt (Nat.mod_lt _ (by decide)), Nat.shiftLeft_eq]
  omega

/-- The processor reads the base, the lower twenty bits of the limit, the access byte and the lower four bits
of the flags. -/
theorem segmentOf_gdtEntry (base limit : UInt32) (access flags : UInt8) :
    segmentOf (gdtEntry base limit access flags).bytes =
      ⟨base, UInt32.ofNat (limit.toNat % 2 ^ 20), access, UInt8.ofNat (flags.toNat % 16)⟩ := by
  have hgran : ((gdtEntry base limit access flags).bytes.b6).toNat =
      (16 * flags.toNat + limit.toNat / 2 ^ 16 % 16) % 256 := gran_toNat limit flags
  have hlow : ((gdtEntry base limit access flags).bytes.b6 &&& 0x0F).toNat = limit.toNat / 2 ^ 16 % 16 := by
    rw [UInt8.toNat_and, hgran]
    refine (Nat.and_two_pow_sub_one_eq_mod _ 4).trans ?_
    omega
  have hbase : ofBytes (lowByte (base &&& 0xFFFF).toUInt16) (highByte (base &&& 0xFFFF).toUInt16)
      ((base >>> 16) &&& 0xFF).toUInt8 ((base >>> 24) &&& 0xFF).toUInt8 = base := by
    rw [lowByte_toUInt16, highByte_toUInt16, toUInt8_and_ff, toUInt8_and_ff, wordByte_shiftRight16,
      wordByte_shiftRight24]
    exact ofBytes_wordByte base
  have hlimit : ofBytes (lowByte (limit &&& 0xFFFF).toUInt16) (highByte (limit &&& 0xFFFF).toUInt16)
      ((gdtEntry base limit access flags).bytes.b6 &&& 0x0F) 0 = UInt32.ofNat (limit.toNat % 2 ^ 20) := by
    apply UInt32.toNat_inj.mp
    rw [ofBytes_toNat, hlow, lowByte_toUInt16, highByte_toUInt16, wordByte_toNat, wordByte_toNat,
      UInt32.toNat_ofNat']
    show limit.toNat / 256 ^ 0 % 256 + 256 * (limit.toNat / 256 ^ 1 % 256) + 65536 * (limit.toNat / 2 ^ 16 % 16) +
      16777216 * 0 = _
    omega
  have hflags : (gdtEntry base limit access flags).bytes.b6 >>> 4 = UInt8.ofNat (flags.toNat % 16) := by
    apply UInt8.toNat_inj.mp
    rw [UInt8.toNat_shiftRight, hgran, UInt8.toNat_ofNat']
    show ((16 * flags.toNat + limit.toNat / 2 ^ 16 % 16) % 256) >>> 4 = _
    rw [Nat.shiftRight_eq_div_pow]
    omega
  rw [segmentOf, hflags]
  exact congrArg₂ (fun b l => Segment.mk b l access (UInt8.ofNat (flags.toNat % 16))) hbase hlimit

/-- The processor reads the address of the handler, the kernel's code segment, and the flags. -/
theorem gateOf_setIdtGateDpl (idt : Idt) (n : Nat) (handler : UInt32) (dpl : UInt8) :
    gateOf (setIdtGateDpl idt n handler dpl n).bytes =
      ⟨handler, kernelCs, ((0x8E : UInt32) ||| (dpl.toUInt32 <<< 5)).toUInt8⟩ := by
  have hoff : ofBytes (lowByte (handler &&& 0xFFFF).toUInt16) (highByte (handler &&& 0xFFFF).toUInt16)
      (lowByte ((handler >>> 16) &&& 0xFFFF).toUInt16) (highByte ((handler >>> 16) &&& 0xFFFF).toUInt16) = handler := by
    rw [lowByte_toUInt16, highByte_toUInt16, lowByte_toUInt16, highByte_toUInt16, wordByte_shiftRight16,
      wordByte_shiftRight16]
    exact ofBytes_wordByte handler
  have hsel : UInt16.ofNat ((lowByte kernelCs).toNat + 256 * (highByte kernelCs).toNat) = kernelCs := by decide
  rw [setIdtGateDpl, Function.update_self]
  exact congrArg₂ (fun o s => Gate.mk o s ((0x8E : UInt32) ||| (dpl.toUInt32 <<< 5)).toUInt8) hoff hsel

-- `set_idt_gate` is the same with level 0.
theorem setIdtGate_eq (idt : Idt) (n : Nat) (handler : UInt32) :
    setIdtGate idt n handler = setIdtGateDpl idt n handler 0 := rfl

-- The four privilege levels.
theorem flags_dpl {dpl : UInt8} (hdpl : dpl < 4) :
    ((((0x8E : UInt32) ||| (dpl.toUInt32 <<< 5)).toUInt8 >>> 5) &&& 3) = dpl ∧
      (((0x8E : UInt32) ||| (dpl.toUInt32 <<< 5)).toUInt8 &&& 0x80 != 0) = true ∧
      ((0x8E : UInt32) ||| (dpl.toUInt32 <<< 5)).toUInt8 &&& 0x1F = 0x0E := by
  have hall : ∀ k : Fin 4, ((((0x8E : UInt32) ||| ((UInt8.ofNat k).toUInt32 <<< 5)).toUInt8 >>> 5) &&& 3) = UInt8.ofNat k ∧
      (((0x8E : UInt32) ||| ((UInt8.ofNat k).toUInt32 <<< 5)).toUInt8 &&& 0x80 != 0) = true ∧
      ((0x8E : UInt32) ||| ((UInt8.ofNat k).toUInt32 <<< 5)).toUInt8 &&& 0x1F = 0x0E := by decide
  have hk := hall ⟨dpl.toNat, UInt8.lt_iff_toNat_lt.mp hdpl⟩
  rwa [UInt8.ofNat_toNat] at hk

/-- What is stored with `set_gate` and `set_idt_gate_dpl` is read back by the processor, part by part. -/
theorem descriptors_read_back (gdt : Gdt) (idt : Idt) (i n : Nat) (base limit handler : UInt32)
    (access flags dpl : UInt8) (hlimit : limit.toNat < 2 ^ 20) (hflags : flags.toNat < 16) (hdpl : dpl < 4) :
    segmentOf (setGate gdt i base limit access flags i).bytes = ⟨base, limit, access, flags⟩ ∧
      (gateOf (setIdtGateDpl idt n handler dpl n).bytes).offset = handler ∧
      (gateOf (setIdtGateDpl idt n handler dpl n).bytes).selector = kernelCs ∧
      (gateOf (setIdtGateDpl idt n handler dpl n).bytes).dpl = dpl ∧
      (gateOf (setIdtGateDpl idt n handler dpl n).bytes).present = true ∧
      (gateOf (setIdtGateDpl idt n handler dpl n).bytes).isInterrupt = true := by
  obtain ⟨hlevel, hpres, htype⟩ := flags_dpl hdpl
  rw [gateOf_setIdtGateDpl]
  refine ⟨?_, rfl, rfl, hlevel, hpres, beq_iff_eq.mpr htype⟩
  rw [setGate, Function.update_self, segmentOf_gdtEntry, Nat.mod_eq_of_lt hlimit, Nat.mod_eq_of_lt hflags,
    UInt32.ofNat_toNat, UInt8.ofNat_toNat]

theorem descriptors_read_back_user :
    segmentOf (setGate (fun _ => ⟨0, 0, 0, 0, 0, 0⟩) 3 0x12345678 0xABCDE 0xFA 0xC 3).bytes =
      ⟨0x12345678, 0xABCDE, 0xFA, 0xC⟩ :=
  (descriptors_read_back (fun _ => ⟨0, 0, 0, 0, 0, 0⟩) Idt.zero 3 0x80 0x12345678 0xABCDE 0x10FEDC 0xFA 0xC 3
    (by decide) (by decide) (by decide)).1

/-! ## The tables as installed -/

theorem setIdtGates_apply (idt : Idt) (first count : Nat) (handler : Nat → UInt32) (n : Nat) :
    setIdtGates idt first count handler n =
      if first ≤ n ∧ n < first + count then setIdtGate idt n (handler (n - first)) n else idt n := by
  unfold setIdtGates
  induction count with
  | zero => exact (if_neg (by omega)).symm
  | succ count ih =>
    rw [List.range_succ, List.foldl_append, List.foldl_cons, List.foldl_nil, setIdtGate]
    by_cases hn : n = first + count
    · rw [if_pos (by omega), hn, Nat.add_sub_cancel_left, Function.update_self, setIdtGate, Function.update_self]
    · rw [Function.update_of_ne hn, ih]
      split
      · rw [if_pos (by omega)]
      · rw [if_neg (by omega)]

/-- The stub of a vector, if it has one. -/
def Stubs.handler (stubs : Stubs) (n : Nat) : Option UInt32 :=
  if n < 32 then some (stubs.isr n)
  else if n < 48 then some (stubs.irq (n - 32))
  else if n = 0x80 then some stubs.isr128
  else none

/-- What the processor finds in the table: only the gate of system calls is open to ring 3. -/
theorem gateOf_isrInstall (stubs : Stubs) (n : Nat) :
    gateOf (isrInstall stubs Idt.zero n).bytes =
      match stubs.handler n with
      | some h => ⟨h, kernelCs, if n = 0x80 then 0xEE else 0x8E⟩
      | none => ⟨0, 0, 0⟩ := by
  have hring0 : ((0x8E : UInt32) ||| ((0 : UInt8).toUInt32 <<< 5)).toUInt8 = 0x8E := by decide
  have hzero : gateOf (IdtGate.mk 0 0 0 0 0).bytes = ⟨0, 0, 0⟩ := by decide
  unfold isrInstall Stubs.handler
  by_cases hsys : n = 0x80
  · rw [hsys, gateOf_setIdtGateDpl]
    rfl
  · rw [show setIdtGateDpl (setIdtGates (setIdtGates Idt.zero 0 32 stubs.isr) 32 16 stubs.irq) 0x80 stubs.isr128 3 n =
        setIdtGates (setIdtGates Idt.zero 0 32 stubs.isr) 32 16 stubs.irq n from Function.update_of_ne hsys ..,
      setIdtGates_apply, setIdtGates_apply]
    by_cases hisr : n < 32
    · rw [if_neg (by omega), if_pos (by omega), if_pos hisr, setIdtGate_eq, gateOf_setIdtGateDpl, hring0, Nat.sub_zero]
      dsimp only
      rw [if_neg hsys]
    · rw [if_neg hisr]
      by_cases hirq : n < 48
      · rw [if_pos (by omega), if_pos hirq, setIdtGate_eq, gateOf_setIdtGateDpl, hring0]
        dsimp only
        rw [if_neg hsys]
      · rw [if_neg (by omega), if_neg (by omega), if_neg hirq, if_neg hsys]
        exact hzero

theorem segmentOf_kernelCode (tssAddr : UInt32) (gdt : Gdt) :
    segmentOf ((gdtInstall tssAddr gdt).1 1).bytes = ⟨0, 0xFFFFF, 0x9A, 0xC⟩ := by
  have hentry : (gdtInstall tssAddr gdt).1 1 = gdtEntry 0 0xFFFFF 0x9A 0xC := rfl
  rw [hentry, segmentOf_gdtEntry]
  decide

-- A gate to the kernel's code segment.
theorem raise_kernel {t : Tables} {n : Nat} {h : UInt32} {flags : UInt8} (hlim : n * 8 + 7 ≤ t.idtLimit)
    (hgate : gateOf (t.idt n) = ⟨h, kernelCs, flags⟩) (htype : flags &&& 0x1F = 0x0E)
    (hpres : (flags &&& 0x80 != 0) = true) (hgdt : 15 ≤ t.gdtLimit)
    (hseg : segmentOf (t.gdt 1) = ⟨0, 0xFFFFF, 0x9A, 0xC⟩) (cpl : UInt8) (software : Bool)
    (hsoft : software = true → cpl ≤ (flags >>> 5) &&& 3) (code : Option UInt32) :
    raise t cpl software code n =
      .enter ⟨kernelCs, h, 0, if 0 < cpl then some (t.ss0, t.esp0) else none, true, code⟩ := by
  have hint : (Gate.mk h kernelCs flags).isInterrupt = true := beq_iff_eq.mpr htype
  have hdpl : (software && decide ((Gate.mk h kernelCs flags).dpl < cpl)) = false := by
    cases hs : software with
    | false => rfl
    | true => exact decide_eq_false (UInt8.not_lt.mpr (hsoft hs))
  have hidx : kernelCs.toNat / 8 = 1 := rfl
  have hcode : (Segment.mk 0 0xFFFFF 0x9A 0xC).isCode = true := by decide
  have hlevel : (Segment.mk 0 0xFFFFF 0x9A 0xC).dpl = 0 := by decide
  have hthere : (Segment.mk 0 0xFFFFF 0x9A 0xC).present = true := by decide
  have hconf : (Segment.mk 0 0xFFFFF 0x9A 0xC).conforming = false := by decide
  have hcs : UInt16.ofNat (kernelCs.toNat / 4 * 4 + (0 : UInt8).toNat) = kernelCs := by decide
  unfold raise
  dsimp only
  rw [if_neg (by omega), hgate, hint, if_neg (by simp), hdpl, if_neg (by simp),
    if_neg (by simpa [Gate.present] using hpres), hidx, if_neg (by decide), if_neg (by omega), hseg, hcode, hlevel,
    hthere, hconf, if_neg (by simp), if_neg (by simp)]
  dsimp only
  by_cases hcpl : 0 < cpl
  · rw [if_pos (by simpa using hcpl), if_pos hcpl, hcs]
  · obtain rfl : cpl = 0 := UInt8.le_antisymm (UInt8.not_lt.mp hcpl) UInt8.zero_le
    rw [if_neg (by decide), if_neg hcpl, hcs]

section Installed

variable (stubs : Stubs) (tssAddr esp0 : UInt32) (gdt : Gdt)

/-- The entry to a stub: at ring 0 with interrupts off, coming from ring 3 on the stack in the TSS. -/
def kernelEntry (stub : UInt32) (cpl : UInt8) (code : Option UInt32) : Outcome :=
  .enter ⟨kernelCs, stub, 0, if 0 < cpl then some (gdtKernelData, esp0) else none, true, code⟩

-- An interrupt or an exception; the privilege level of the gate does not matter.
theorem raise_tables {n : Nat} {stub : UInt32} (hstub : stubs.handler n = some stub) (cpl : UInt8)
    (software : Bool) (hsoft : software = true → cpl ≤ if n = 0x80 then 3 else 0) (code : Option UInt32) :
    raise (tables stubs tssAddr esp0 gdt) cpl software code n = kernelEntry esp0 stub cpl code := by
  have hn : n < 256 := by
    unfold Stubs.handler at hstub
    split at hstub
    · omega
    · split at hstub
      · omega
      · split at hstub
        · omega
        · cases hstub
  have hgate := gateOf_isrInstall stubs n
  rw [hstub] at hgate
  refine raise_kernel (t := tables stubs tssAddr esp0 gdt) (n := n) ?_ hgate ?_ ?_ ?_
    (segmentOf_kernelCode tssAddr gdt) cpl software ?_ code
  · show n * 8 + 7 ≤ 2047
    omega
  · split <;> rfl
  · split <;> rfl
  · show 15 ≤ 47
    decide
  · intro hs
    have hle := hsoft hs
    split at hle
    · rw [if_pos ‹_›]
      exact hle
    · rw [if_neg ‹_›]
      exact hle

-- The gates of ring 0, and the vectors without a gate.
theorem raise_refused {n : Nat} (hn : n < 256) (hsys : n ≠ 0x80) :
    raise (tables stubs tssAddr esp0 gdt) 3 true none n = .fault 13 (UInt32.ofNat (n * 8 + 2)) := by
  have hgate : gateOf ((tables stubs tssAddr esp0 gdt).idt n) = _ := gateOf_isrInstall stubs n
  have hlim : ¬ (tables stubs tssAddr esp0 gdt).idtLimit < n * 8 + 7 := by
    show ¬ 2047 < n * 8 + 7
    omega
  unfold raise
  dsimp only
  rw [if_neg hlim, hgate]
  cases stubs.handler n with
  | none =>
    dsimp only
    rw [if_pos (by decide)]
  | some h =>
    have hint : (Gate.mk h kernelCs 0x8E).isInterrupt = true :=
      beq_iff_eq.mpr (show (0x8E : UInt8) &&& 0x1F = 0x0E by decide)
    have hdpl : (Gate.mk h kernelCs 0x8E).dpl = 0 := show ((0x8E : UInt8) >>> 5) &&& 3 = 0 by decide
    dsimp only
    rw [if_neg hsys, hint, hdpl, if_neg (by simp), if_pos (by decide)]

theorem port_closed (iopl : UInt8) (hiopl : iopl < 3) (map : Nat → Bool) (port width : Nat) :
    portAllowed 3 iopl (gdtInstall tssAddr gdt).2.iomapBase.toNat
      (segmentOf ((gdtInstall tssAddr gdt).1 5).bytes).lastOffset map port width = false := by
  have hbase : (gdtInstall tssAddr gdt).2.iomapBase.toNat = 104 := rfl
  have hentry : (gdtInstall tssAddr gdt).1 5 = gdtEntry tssAddr 103 0x89 0 := rfl
  have hlast : (segmentOf ((gdtInstall tssAddr gdt).1 5).bytes).lastOffset = 103 := by
    rw [hentry, segmentOf_gdtEntry, Segment.lastOffset]
    dsimp only
    rw [if_neg (by decide)]
    decide
  unfold portAllowed
  rw [hbase, hlast, if_neg (UInt8.not_le.mpr hiopl), if_pos (by omega)]

theorem deliver_of_raise {t : Tables} {cpl : UInt8} {software : Bool} {code : Option UInt32} {n : Nat} {e : Entry}
    (h : raise t cpl software code n = .enter e) : deliver t cpl software code n = .enter e := by
  rw [deliver, h]

/-- Every interrupt and every exception with a stub gets to its stub in ring 0.  Of the `int n` of ring 3 only
`int 0x80` does; all others end in the stub of the general protection fault.  No port is open to ring 3. -/
theorem ring3_gates :
    (∀ n stub cpl code, stubs.handler n = some stub →
        deliver (tables stubs tssAddr esp0 gdt) cpl false code n = kernelEntry esp0 stub cpl code) ∧
      (∀ n, n < 256 → deliver (tables stubs tssAddr esp0 gdt) 3 true none n =
        if n = 0x80 then kernelEntry esp0 stubs.isr128 3 none
        else kernelEntry esp0 (stubs.isr 13) 3 (some (UInt32.ofNat (n * 8 + 2)))) ∧
      ∀ iopl map port width, iopl < 3 →
        portAllowed 3 iopl (gdtInstall tssAddr gdt).2.iomapBase.toNat
          (segmentOf ((gdtInstall tssAddr gdt).1 5).bytes).lastOffset map port width = false := by
  refine ⟨?_, ?_, ?_⟩
  · intro n stub cpl code hstub
    exact deliver_of_raise (raise_tables stubs tssAddr esp0 gdt hstub cpl false (fun h => absurd h (by simp)) code)
  · intro n hn
    by_cases hsys : n = 0x80
    · rw [if_pos hsys, hsys]
      exact deliver_of_raise (raise_tables stubs tssAddr esp0 gdt rfl 3 true (fun _ => by decide) none)
    · -- refused by the gate, and the fault goes to its own
      rw [if_neg hsys, deliver, raise_refused stubs tssAddr esp0 gdt hn hsys]
      exact raise_tables stubs tssAddr esp0 gdt rfl 3 false (fun h => absurd h (by simp)) _
  · intro iopl map port width hiopl
    exact port_closed tssAddr gdt iopl hiopl map port width

end Installed

end JacobOS.Cpu
