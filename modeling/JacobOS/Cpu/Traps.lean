import JacobOS.Cpu.Interrupt
import JacobOS.Cpu.Tables

/-!
# All stubs of `cpu/interrupt.asm`

An exception, a hardware interrupt or an `int 0x80`, from ring 0 or from ring 3, up to the first instruction of
the C function, and from its return on.  Every stub gives the C function a pointer to a `registers_t` of the same
layout, and what stands in it when the function returns is what the processor goes on with.
-/

namespace JacobOS.Cpu

open Mem Protection32

/-- The processor: the registers, `ss`, and the memory. -/
structure Context where
  regs : Regs
  ss : UInt16
  mem : Mem

namespace Context

variable (c : Context)

/-- The privilege level is in the lower two bits of `cs`. -/
def cpl : UInt16 := c.regs.cs &&& 3

def mach : Mach := ⟨c.regs, c.mem⟩

end Context

/-! ## Into the kernel -/

/-- The vectors whose stub is made with `ISR_ERR`. -/
def isrErr : List Nat := [8, 10, 11, 12, 13, 14, 17]

/-- What the processor pushes, on the stack of `e` if there is one, before it goes to the stub. -/
def enter (e : Entry) (c : Context) : Mach :=
  let s := match e.stack with
    | some (_, esp) => (c.mach.setEsp esp).push c.ss.toUInt32 |>.push c.regs.esp
    | none => c.mach
  let s := s.push c.regs.eflags |>.push c.regs.cs.toUInt32 |>.push c.regs.eip
  let s := match e.code with
    | some code => s.push code
    | none => s
  let s := s.setIf (!e.masked && c.regs.eflags &&& 0x200 != 0)
  { s with regs := { s.regs with cs := e.cs, eip := e.eip } }

/-- The macros `ISR_NOERR`, `ISR_ERR` and `IRQ`, and `isr128`. -/
def stub (v : Nat) (s : Mach) : Mach :=
  -- cli
  let s := s.setIf false
  let s := if v ∈ isrErr then s else s.push 0
  s.push (UInt32.ofNat v)

/-- `isr_common_stub`, `irq_common_stub` and `syscall_common_stub` up to the call of `handler`. -/
def commonStub (handler ret : UInt32) (s : Mach) : Mach :=
  let s := s.pusha
  let s := s.movAx s.regs.ds
  let s := s.push s.regs.eax
  let s := (s.movAx 0x10).loadSegments
  let s := s.push s.regs.esp
  let s := s.push ret
  { s with regs := { s.regs with eip := handler } }

def trap (handler ret : UInt32) (v : Nat) (e : Entry) (c : Context) : Mach :=
  commonStub handler ret (stub v (enter e c))

/-! ## And back -/

/-- The common stubs after the call. -/
def stubTail (s : Mach) : Mach :=
  let s := s.addEsp 4
  let s := (s.pop fun w r => { r with eax := w }).loadSegments
  let s := s.popa
  (s.addEsp 8).setIf true

/-- `iret`.  To an outer ring it also takes `esp` and `ss` from the stack. -/
def iretTo (ss : UInt16) (s : Mach) : Context :=
  let s := s.iret
  if s.regs.cs &&& 3 = 0 then ⟨s.regs, ss, s.mem⟩
  else ⟨(s.setEsp s.top).regs, (s.addEsp 4).top.toUInt16, s.mem⟩

def resume (ss : UInt16) (s : Mach) : Context := iretTo ss (stubTail s)

/-! ## The frame -/

/-- `n` words below the top of a stack. -/
def down (top : UInt32) : Nat → UInt32
  | 0 => top
  | n + 1 => down top n - 4

theorem down_ofNat {top : UInt32} {n : Nat} (h : 4 * n ≤ top.toNat) :
    down top n = UInt32.ofNat (top.toNat - 4 * n) := by
  induction n with
  | zero => exact UInt32.ofNat_toNat.symm
  | succ n ih =>
    rw [down, ih (by omega), ofNat_sub4 (by omega), Nat.sub_sub, Nat.mul_succ]

/-- The top of the stack that the frame is put on. -/
def frameTop (e : Entry) (c : Context) : UInt32 :=
  match e.stack with
  | some (_, esp) => esp
  | none => c.regs.esp

/-- What the processor pushes of an interrupted context, in order. -/
def processorFrame (e : Entry) (c : Context) : List UInt32 :=
  (if e.stack.isSome then [c.ss.toUInt32, c.regs.esp] else []) ++
    [c.regs.eflags, c.regs.cs.toUInt32, c.regs.eip]

/-- What stands on the stack below it when the pointer is passed: `err_code`, `int_no`, and the registers. -/
def stubFrame (v : Nat) (e : Entry) (c : Context) : List UInt32 :=
  let r := c.regs
  [e.code.getD 0, UInt32.ofNat v, r.eax, r.ecx, r.edx, r.ebx,
    down (frameTop e c) ((processorFrame e c).length + 2), r.ebp, r.esi, r.edi,
    (r.eax &&& 0xFFFF0000) ||| r.ds.toUInt32]

/-- The `registers_t`. -/
def registersT (v : Nat) (e : Entry) (c : Context) : List UInt32 :=
  (processorFrame e c ++ stubFrame v e c).reverse

/-- The processor pushes an error code for the vectors whose stub expects one. -/
def CodeFits (v : Nat) (e : Entry) : Prop := e.code.isSome = true ↔ v ∈ isrErr

/-- What `trap` pushes, in order: the pointer to the `registers_t` and the return address come last. -/
def trapFrame (ret : UInt32) (v : Nat) (e : Entry) (c : Context) : List UInt32 :=
  processorFrame e c ++ stubFrame v e c ++ [down (frameTop e c) ((processorFrame e c).length + 11), ret]

theorem trap_pushes (handler ret : UInt32) {v : Nat} {e : Entry} (hcode : CodeFits v e) (c : Context) :
    (trap handler ret v e c).mem = (c.mem.pushWords (frameTop e c) (trapFrame ret v e c)).1 ∧
      (trap handler ret v e c).regs.esp = (c.mem.pushWords (frameTop e c) (trapFrame ret v e c)).2 := by
  obtain ⟨cs, eip, cpl, stack, masked, code⟩ := e
  cases code with
  | none =>
    have hv : v ∉ isrErr := fun hin => absurd (hcode.mpr hin) (by simp)
    cases stack with
    | none =>
      constructor <;> simp [trap, commonStub, stub, enter, hv, Mach.setIf, Mach.pusha, Mach.movAx,
        Mach.loadSegments, trapFrame, processorFrame, stubFrame, frameTop, down, pushWords, Context.mach]
    | some st =>
      constructor <;> simp [trap, commonStub, stub, enter, hv, Mach.setIf, Mach.setEsp, Mach.pusha, Mach.movAx,
        Mach.loadSegments, trapFrame, processorFrame, stubFrame, frameTop, down, pushWords, Context.mach]
  | some code =>
    have hv : v ∈ isrErr := hcode.mp rfl
    cases stack with
    | none =>
      constructor <;> simp [trap, commonStub, stub, enter, hv, Mach.setIf, Mach.pusha, Mach.movAx,
        Mach.loadSegments, trapFrame, processorFrame, stubFrame, frameTop, down, pushWords, Context.mach]
    | some st =>
      constructor <;> simp [trap, commonStub, stub, enter, hv, Mach.setIf, Mach.setEsp, Mach.pusha, Mach.movAx,
        Mach.loadSegments, trapFrame, processorFrame, stubFrame, frameTop, down, pushWords, Context.mach]

/-- The address of the `registers_t`. -/
def framePtr (e : Entry) (c : Context) : Nat := (frameTop e c).toNat - 4 * ((processorFrame e c).length + 11)

theorem length_processorFrame (e : Entry) (c : Context) :
    (processorFrame e c).length = if e.stack.isSome then 5 else 3 := by
  unfold processorFrame
  cases e.stack with
  | none => rfl
  | some st => rfl

/-- The C function is called with a pointer to the `registers_t`, and the rest of the memory is as it was. -/
theorem trap_spec (handler ret : UInt32) {v : Nat} {e : Entry} (hcode : CodeFits v e) {c : Context}
    (hroom : 72 ≤ (frameTop e c).toNat) :
    (trap handler ret v e c).regs.esp = UInt32.ofNat (framePtr e c - 8) ∧
      Holds (trap handler ret v e c).mem (framePtr e c - 8)
        (ret :: UInt32.ofNat (framePtr e c) :: registersT v e c) ∧
      SameOn c.mem (trap handler ret v e c).mem 0 (framePtr e c - 8) ∧
      SameOn c.mem (trap handler ret v e c).mem (frameTop e c).toNat (2 ^ 32) := by
  obtain ⟨hmem, hesp⟩ := trap_pushes handler ret hcode c
  have hlt := (frameTop e c).toNat_lt
  have hproc := length_processorFrame e c
  have hproc5 : (processorFrame e c).length ≤ 5 := by
    rw [hproc]
    split <;> decide
  have hlen : (trapFrame ret v e c).length = (processorFrame e c).length + 13 := by
    simp [trapFrame, stubFrame]
  have hspec := pushWords_spec c.mem (trapFrame ret v e c) (n := (frameTop e c).toNat) (by omega) (by omega)
  have hptr : (frameTop e c).toNat - 4 * (trapFrame ret v e c).length = framePtr e c - 8 := by
    unfold framePtr
    omega
  have hrev : (trapFrame ret v e c).reverse = ret :: UInt32.ofNat (framePtr e c) :: registersT v e c := by
    rw [trapFrame, List.reverse_append, down_ofNat (by omega)]
    rfl
  rw [UInt32.ofNat_toNat, hptr, hrev] at hspec
  rw [hmem, hesp]
  exact hspec

/-! ## The way back -/

-- The words of the `registers_t` go where they came from.
theorem resume_ring0 {s : Mach} {a : Nat} {ds edi esi ebp esp ebx edx ecx eax n k eip cs eflags : UInt32}
    (ss : UInt16) (hesp : s.regs.esp = UInt32.ofNat a)
    (h : Holds s.mem (a + 4) [ds, edi, esi, ebp, esp, ebx, edx, ecx, eax, n, k, eip, cs, eflags])
    (hring : cs.toUInt16 &&& 3 = 0) :
    resume ss s = ⟨⟨eax, ebx, ecx, edx, esi, edi, ebp, UInt32.ofNat (a + 60), eip, eflags, cs.toUInt16,
      ds.toUInt16, ds.toUInt16, ds.toUInt16, ds.toUInt16⟩, ss, s.mem⟩ := by
  have htail : (stubTail s).iret = irqTail s := rfl
  rw [resume, iretTo, htail, irqTail_eq hesp h]
  dsimp only
  rw [if_pos hring]

theorem holds_split {m : Mem} {a : Nat} {u v : List UInt32} (h : Holds m a (u ++ v)) :
    Holds m a u ∧ Holds m (a + 4 * u.length) v := by
  induction u generalizing a with
  | nil => exact ⟨trivial, h⟩
  | cons w u ih =>
    obtain ⟨hw, hrest⟩ := h
    obtain ⟨hu, hv⟩ := ih hrest
    have hlen : a + 4 + 4 * u.length = a + 4 * (w :: u).length := by
      rw [List.length_cons]
      omega
    exact ⟨⟨hw, hu⟩, hlen ▸ hv⟩

theorem resume_ring3 {s : Mach} {a : Nat}
    {ds edi esi ebp esp ebx edx ecx eax n k eip cs eflags useresp ss' : UInt32}
    (ss : UInt16) (hesp : s.regs.esp = UInt32.ofNat a)
    (h : Holds s.mem (a + 4)
      [ds, edi, esi, ebp, esp, ebx, edx, ecx, eax, n, k, eip, cs, eflags, useresp, ss'])
    (hring : cs.toUInt16 &&& 3 ≠ 0) :
    resume ss s = ⟨⟨eax, ebx, ecx, edx, esi, edi, ebp, useresp, eip, eflags, cs.toUInt16, ds.toUInt16,
      ds.toUInt16, ds.toUInt16, ds.toUInt16⟩, ss'.toUInt16, s.mem⟩ := by
  obtain ⟨hregs, huser, hss, -⟩ :=
    holds_split (u := [ds, edi, esi, ebp, esp, ebx, edx, ecx, eax, n, k, eip, cs, eflags]) (v := [useresp, ss']) h
  simp only [List.length_cons, List.length_nil, Nat.add_assoc, Nat.reduceAdd, Nat.reduceMul] at huser hss
  have htail : (stubTail s).iret = irqTail s := rfl
  rw [resume, iretTo, htail, irqTail_eq hesp hregs]
  dsimp only
  rw [if_neg hring]
  simp only [Mach.setEsp, Mach.top, Mach.addEsp, Kheap.ofNat_add4, Nat.add_assoc, Nat.reduceAdd, huser, hss]

/-- The trap comes from ring 3 exactly if it changes the stack. -/
def RingFits (e : Entry) (c : Context) : Prop := e.stack.isSome = true ↔ c.cpl ≠ 0

/-- The interrupted context with another `eax`.  The four data segments come back as `ds`. -/
def Context.withEax (c : Context) (eax : UInt32) (m : Mem) : Context :=
  ⟨{ c.regs with eax := eax, es := c.regs.ds, fs := c.regs.ds, gs := c.regs.ds }, c.ss, m⟩

theorem framePtr_ge {e : Entry} {c : Context} (hroom : 72 ≤ (frameTop e c).toNat) : 8 ≤ framePtr e c := by
  have hproc := length_processorFrame e c
  unfold framePtr
  split at hproc <;> omega

theorem resume_trap (handler ret : UInt32) {v : Nat} {e : Entry} (hcode : CodeFits v e) {c : Context}
    (hring : RingFits e c) (hroom : 72 ≤ (frameTop e c).toNat) {t : Mach} {eax : UInt32} {ss : UInt16}
    (hss : e.stack = none → ss = c.ss) (hesp : t.regs.esp = (trap handler ret v e c).regs.esp + 4)
    (hframe : Holds t.mem (framePtr e c) ((registersT v e c).set 8 eax)) :
    resume ss t = c.withEax eax t.mem := by
  obtain ⟨hsp, -, -, -⟩ := trap_spec handler ret hcode hroom
  have hge := framePtr_ge hroom
  have hptr : framePtr e c = (frameTop e c).toNat - 4 * ((processorFrame e c).length + 11) := rfl
  rw [hsp, Kheap.ofNat_add4] at hesp
  rw [show framePtr e c = framePtr e c - 8 + 4 + 4 by omega] at hframe
  obtain ⟨ecs, eeip, ecpl, stack, masked, code⟩ := e
  cases stack with
  | none =>
    have hcpl : c.regs.cs.toUInt32.toUInt16 &&& 3 = 0 := by
      rw [UInt16.toUInt16_toUInt32]
      by_contra hne
      exact absurd (hring.mpr hne) (by simp)
    -- the frame ends where the interrupted stack ends
    have hend : framePtr ⟨ecs, eeip, ecpl, none, masked, code⟩ c - 8 + 4 + 60 = c.regs.esp.toNat := by
      change 72 ≤ c.regs.esp.toNat at hroom
      change framePtr ⟨ecs, eeip, ecpl, none, masked, code⟩ c = c.regs.esp.toNat - 4 * (3 + 11) at hptr
      omega
    rw [resume_ring0 ss hesp hframe hcpl, hss rfl, toUInt16_movAx, UInt16.toUInt16_toUInt32, hend,
      UInt32.ofNat_toNat]
    rfl
  | some st =>
    have hcpl : c.regs.cs.toUInt32.toUInt16 &&& 3 ≠ 0 := by
      rw [UInt16.toUInt16_toUInt32]
      exact hring.mp rfl
    rw [resume_ring3 ss hesp hframe hcpl, toUInt16_movAx, UInt16.toUInt16_toUInt32, UInt16.toUInt16_toUInt32]
    rfl

/-! ## From the gate to the handler and back -/

/-- What a trap is to the interrupted program and to the C function: it goes through the gate of its vector, the
function finds the whole context in its `registers_t`, with the number of the vector and the error code or 0, and
when it returns the context goes on as the `registers_t` says. -/
structure Transparent (handler ret : UInt32) (v : Nat) (stub : UInt32) (e : Entry) (c : Context) : Prop where
  entry : e.eip = stub
  ring0 : e.cpl = 0
  /-- The argument is the address of the `registers_t`. -/
  argument : (trap handler ret v e c).mem.word ((trap handler ret v e c).regs.esp + 4) =
    UInt32.ofNat (framePtr e c)
  frame : Holds (trap handler ret v e c).mem (framePtr e c) (registersT v e c)
  /-- Nothing is written but the frame, the argument and the return address. -/
  rest : ∀ x : UInt32, ¬ (framePtr e c - 8 ≤ x.toNat ∧ x.toNat < (frameTop e c).toNat) →
    (trap handler ret v e c).mem x = c.mem x
  back : ∀ (t : Mach) (eax : UInt32), t.regs.esp = (trap handler ret v e c).regs.esp + 4 →
    Holds t.mem (framePtr e c) ((registersT v e c).set 8 eax) →
    resume (e.stack.elim c.ss Prod.fst) t = c.withEax eax t.mem

theorem transparent_of_fits (handler ret : UInt32) {v : Nat} {stub : UInt32} {e : Entry} {c : Context}
    (hentry : e.eip = stub) (hcpl : e.cpl = 0) (hcode : CodeFits v e) (hring : RingFits e c)
    (hroom : 72 ≤ (frameTop e c).toNat) : Transparent handler ret v stub e c := by
  obtain ⟨hsp, hold, hlow, hhigh⟩ := trap_spec handler ret hcode hroom
  have hge := framePtr_ge hroom
  refine ⟨hentry, hcpl, ?_, ?_, fun x hx => hlow.outside hhigh hx, ?_⟩
  · rw [hsp, Kheap.ofNat_add4]
    exact hold.2.1
  · have hrest := hold.2.2
    rwa [show framePtr e c - 8 + 4 + 4 = framePtr e c by omega] at hrest
  · intro t eax hesp hframe
    refine resume_trap handler ret hcode hring hroom (fun hnone => ?_) hesp hframe
    rw [hnone]
    rfl

/-- The entry that the tables give for a stub, see `kernelEntry`. -/
theorem transparent_kernelEntry (esp0 handler ret : UInt32) {v : Nat} (stub : UInt32) {code : Option UInt32}
    (hcode : code.isSome = true ↔ v ∈ isrErr) {c : Context} (hcpl : c.cpl = 0 ∨ c.cpl = 3)
    (hroom : 72 ≤ (if c.cpl = 3 then esp0 else c.regs.esp).toNat) :
    Transparent handler ret v stub
      ⟨kernelCs, stub, 0, if 0 < c.cpl.toUInt8 then some (gdtKernelData, esp0) else none, true, code⟩ c := by
  refine transparent_of_fits handler ret rfl rfl hcode ?_ ?_
  · rcases hcpl with h | h
    · unfold RingFits
      dsimp only
      rw [h, if_neg (by decide)]
      exact iff_of_false (by simp) (by simp)
    · unfold RingFits
      dsimp only
      rw [h, if_pos (by decide)]
      exact iff_of_true rfl (by decide)
  · rcases hcpl with h | h
    · rw [h, if_neg (by decide)] at hroom
      rw [h]
      exact hroom
    · rw [h, if_pos rfl] at hroom
      rw [h]
      exact hroom

/-- Every interrupt, exception and system call is transparent, from ring 0 and from ring 3. -/
theorem traps_transparent (stubs : Stubs) (tssAddr esp0 handler ret : UInt32) (gdt : Gdt) {v : Nat} {stub : UInt32}
    (hstub : stubs.handler v = some stub) (software : Bool) (hsoft : software = true → v = 0x80)
    {code : Option UInt32} (hcode : code.isSome = true ↔ v ∈ isrErr) (c : Context)
    (hcpl : c.cpl = 0 ∨ c.cpl = 3) (hroom : 72 ≤ (if c.cpl = 3 then esp0 else c.regs.esp).toNat) :
    ∃ e, deliver (tables stubs tssAddr esp0 gdt) c.cpl.toUInt8 software code v = .enter e ∧
      Transparent handler ret v stub e c := by
  have hlevel : software = true → c.cpl.toUInt8 ≤ if v = 0x80 then 3 else 0 := by
    intro hs
    rw [if_pos (hsoft hs)]
    rcases hcpl with h | h <;> rw [h] <;> decide
  have hraise := raise_tables stubs tssAddr esp0 gdt hstub c.cpl.toUInt8 software hlevel code
  exact ⟨_, deliver_of_raise hraise, transparent_kernelEntry esp0 handler ret stub hcode hcpl hroom⟩

/-- A program in ring 3. -/
def userContext : Context :=
  ⟨⟨3, 1, 2, 4, 5, 6, 7, 0xBFFF00, 0x800010, 0x202, 0x1B, 0x23, 0x23, 0x23, 0x23⟩, 0x23, fun _ => 0⟩

-- Its `int 0x80`.
theorem traps_transparent_syscall :
    ∃ e, deliver (tables ⟨fun n => UInt32.ofNat (0x11000 + 16 * n), fun n => UInt32.ofNat (0x12000 + 16 * n), 0x13000⟩
        0x20000 0x402050 fun _ => ⟨0, 0, 0, 0, 0, 0⟩) userContext.cpl.toUInt8 true none 0x80 = .enter e ∧
      Transparent 0x14000 0x13020 0x80 0x13000 e userContext :=
  traps_transparent ⟨fun n => UInt32.ofNat (0x11000 + 16 * n), fun n => UInt32.ofNat (0x12000 + 16 * n), 0x13000⟩
    0x20000 0x402050 0x14000 0x13020 (fun _ => ⟨0, 0, 0, 0, 0, 0⟩) rfl true (fun _ => rfl)
    (iff_of_false (by simp) (by decide)) userContext (Or.inr (by decide)) (by decide)

end JacobOS.Cpu
