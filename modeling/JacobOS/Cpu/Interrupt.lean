import JacobOS.Cpu.Stack
import JacobOS.Mem.Kheap

/-!
# The interrupt stubs of `cpu/interrupt.asm`

The machine has the registers that the kernel's assembly touches and one memory.  `irq0` is a timer
interrupt that arrives in ring 0, from the processor's own pushes up to the call of `irq_handler`;
`irqTail` is the rest of `irq_common_stub`, from the return of that call to the `iret`.
-/

namespace JacobOS.Cpu

open Mem

structure Regs where
  eax : UInt32
  ebx : UInt32
  ecx : UInt32
  edx : UInt32
  esi : UInt32
  edi : UInt32
  ebp : UInt32
  esp : UInt32
  eip : UInt32
  eflags : UInt32
  cs : UInt16
  ds : UInt16
  es : UInt16
  fs : UInt16
  gs : UInt16

structure Mach where
  regs : Regs
  mem : Mem

namespace Mach

def setEsp (s : Mach) (a : UInt32) : Mach := { s with regs := { s.regs with esp := a } }

def push (w : UInt32) (s : Mach) : Mach :=
  ⟨{ s.regs with esp := s.regs.esp - 4 }, s.mem.setWord (s.regs.esp - 4) w⟩

/-- The word at the top of the stack. -/
def top (s : Mach) : UInt32 := s.mem.word s.regs.esp

/-- The top word goes where `f` puts it, and `esp` moves up. -/
def pop (f : UInt32 → Regs → Regs) (s : Mach) : Mach :=
  { s with regs := { f s.top s.regs with esp := s.regs.esp + 4 } }

def addEsp (n : UInt32) (s : Mach) : Mach := s.setEsp (s.regs.esp + n)

/-- `pusha` pushes the `esp` from before its own pushes. -/
def pusha (s : Mach) : Mach :=
  let r := s.regs
  s.push r.eax |>.push r.ecx |>.push r.edx |>.push r.ebx |>.push r.esp |>.push r.ebp |>.push r.esi
    |>.push r.edi

/-- `popa` drops the word for `esp`. -/
def popa (s : Mach) : Mach :=
  s.pop (fun w r => { r with edi := w })
    |>.pop (fun w r => { r with esi := w })
    |>.pop (fun w r => { r with ebp := w })
    |>.pop (fun _ r => r)
    |>.pop (fun w r => { r with ebx := w })
    |>.pop (fun w r => { r with edx := w })
    |>.pop (fun w r => { r with ecx := w })
    |>.pop (fun w r => { r with eax := w })

/-- `iret` without a change of privilege. -/
def iret (s : Mach) : Mach :=
  s.pop (fun w r => { r with eip := w })
    |>.pop (fun w r => { r with cs := w.toUInt16 })
    |>.pop (fun w r => { r with eflags := w })

/-- `mov ax, v`. -/
def movAx (v : UInt16) (s : Mach) : Mach :=
  { s with regs := { s.regs with eax := (s.regs.eax &&& 0xFFFF0000) ||| v.toUInt32 } }

/-- `mov ds, ax` and the same for the other three. -/
def loadSegments (s : Mach) : Mach :=
  let ax := s.regs.eax.toUInt16
  { s with regs := { s.regs with ds := ax, es := ax, fs := ax, gs := ax } }

/-- `eflags.IF`. -/
def setIf (on : Bool) (s : Mach) : Mach :=
  { s with regs := { s.regs with
    eflags := if on then s.regs.eflags ||| 0x200 else s.regs.eflags &&& ~~~0x200 } }

end Mach

/-- Addresses in the kernel's code. -/
structure Labels where
  irqHandler : UInt32
  /-- After the call of `irq_handler` in `irq_common_stub`. -/
  irqRet : UInt32

/-- A timer interrupt in ring 0: the processor, `irq0`, and `irq_common_stub` up to the first
instruction of `irq_handler`. -/
def irq0 (l : Labels) (s : Mach) : Mach :=
  let s := s.push s.regs.eflags |>.push s.regs.cs.toUInt32 |>.push s.regs.eip |>.setIf false
  -- cli
  let s := (s.push 0).push 32
  let s := s.pusha
  let s := s.movAx s.regs.ds
  let s := s.push s.regs.eax
  let s := (s.movAx 0x10).loadSegments
  let s := s.push s.regs.esp
  -- call irq_handler
  let s := s.push l.irqRet
  { s with regs := { s.regs with eip := l.irqHandler } }

/-- `irq_common_stub` after the call. -/
def irqTail (s : Mach) : Mach :=
  let s := s.addEsp 4
  let s := (s.pop fun w r => { r with eax := w }).loadSegments
  let s := s.popa
  let s := s.addEsp 8
  -- sti
  (s.setIf true).iret

/-! ## What the stub saves it restores -/

/-- The words that `irq0` pushes, in order. -/
def irqFrame (l : Labels) (r : Regs) : List UInt32 :=
  [r.eflags, r.cs.toUInt32, r.eip, 0, 32, r.eax, r.ecx, r.edx, r.ebx, r.esp - 4 - 4 - 4 - 4 - 4, r.ebp, r.esi,
    r.edi, (r.eax &&& 0xFFFF0000) ||| r.ds.toUInt32,
    r.esp - 4 - 4 - 4 - 4 - 4 - 4 - 4 - 4 - 4 - 4 - 4 - 4 - 4 - 4, l.irqRet]

@[simp] theorem Mach.push_regs (w : UInt32) (s : Mach) :
    (s.push w).regs = { s.regs with esp := s.regs.esp - 4 } := rfl

@[simp] theorem Mach.push_mem (w : UInt32) (s : Mach) :
    (s.push w).mem = s.mem.setWord (s.regs.esp - 4) w := rfl

theorem irq0_mem (l : Labels) (s : Mach) :
    (irq0 l s).mem = (s.mem.pushWords s.regs.esp (irqFrame l s.regs)).1 := by
  simp only [irq0, Mach.setIf, Mach.pusha, Mach.movAx, Mach.loadSegments, Mach.push_mem, Mach.push_regs, irqFrame,
    pushWords]

theorem irq0_esp (l : Labels) (s : Mach) :
    (irq0 l s).regs.esp = (s.mem.pushWords s.regs.esp (irqFrame l s.regs)).2 := by
  simp only [irq0, Mach.setIf, Mach.pusha, Mach.movAx, Mach.loadSegments, Mach.push_regs, irqFrame,
    pushWords]

/-- The registers that `irqTail` loads from the words above the argument of `irq_handler`. -/
theorem irqTail_eq {s : Mach} {e : Nat} {ds edi esi ebp esp ebx edx ecx eax n k eip cs eflags : UInt32}
    (hesp : s.regs.esp = UInt32.ofNat e)
    (h : Holds s.mem (e + 4) [ds, edi, esi, ebp, esp, ebx, edx, ecx, eax, n, k, eip, cs, eflags]) :
    irqTail s = ⟨⟨eax, ebx, ecx, edx, esi, edi, ebp, UInt32.ofNat (e + 60), eip, eflags, cs.toUInt16,
      ds.toUInt16, ds.toUInt16, ds.toUInt16, ds.toUInt16⟩, s.mem⟩ := by
  simp only [Holds, Nat.add_assoc, Nat.reduceAdd, and_true] at h
  obtain ⟨h1, h2, h3, h4, h5, h6, h7, h8, h9, h10, h11, h12, h13, h14⟩ := h
  simp only [irqTail, Mach.addEsp, Mach.setEsp, Mach.pop, Mach.top, Mach.loadSegments, Mach.popa, Mach.setIf,
    Mach.iret, hesp, Kheap.ofNat_add4, Kheap.ofNat_add8, Nat.add_assoc, Nat.reduceAdd, h1, h2, h3, h4, h6, h7,
    h8, h9, h12, h13, h14]

-- The low half of `eax` after `mov ax, ds`.
theorem toUInt16_movAx (a : UInt32) (v : UInt16) : ((a &&& 0xFFFF0000) ||| v.toUInt32).toUInt16 = v := by
  rw [UInt32.toUInt16_or, UInt32.toUInt16_and, UInt16.toUInt16_toUInt32]
  show a.toUInt16 &&& 0 ||| v = v
  rw [UInt16.and_zero, UInt16.zero_or]

/-- The interrupt frame, and the rest of the memory. -/
theorem irq0_spec (l : Labels) (s : Mach) (hroom : 64 ≤ s.regs.esp.toNat) :
    (irq0 l s).regs.esp = UInt32.ofNat (s.regs.esp.toNat - 64) ∧
      Holds (irq0 l s).mem (s.regs.esp.toNat - 64) (irqFrame l s.regs).reverse ∧
      SameOn s.mem (irq0 l s).mem 0 (s.regs.esp.toNat - 64) ∧
      SameOn s.mem (irq0 l s).mem s.regs.esp.toNat (2 ^ 32) := by
  have hlt := s.regs.esp.toNat_lt
  have hspec := pushWords_spec s.mem (irqFrame l s.regs) (n := s.regs.esp.toNat) hroom (by omega)
  rw [UInt32.ofNat_toNat] at hspec
  rw [irq0_esp, irq0_mem]
  exact hspec

/-- The tail of the stub undoes the interrupt if the frame is still there.  The four data segments come
back as `ds`. -/
theorem irqTail_irq0 (l : Labels) {s t : Mach} (hroom : 64 ≤ s.regs.esp.toNat)
    (hesp : t.regs.esp = (irq0 l s).regs.esp + 4)
    (hmem : SameOn (irq0 l s).mem t.mem (s.regs.esp.toNat - 56) s.regs.esp.toNat) :
    irqTail t = ⟨{ s.regs with es := s.regs.ds, fs := s.regs.ds, gs := s.regs.ds }, t.mem⟩ := by
  have hlt := s.regs.esp.toNat_lt
  obtain ⟨hsp, hold, -, -⟩ := irq0_spec l s hroom
  have hrest := hold.2.2
  rw [show s.regs.esp.toNat - 64 + 4 + 4 = s.regs.esp.toNat - 60 + 4 by omega] at hrest
  have hthere := hrest.congr (hmem.mono (by omega) (by simp; omega)) (by simp; omega)
  rw [hsp, Kheap.ofNat_add4, show s.regs.esp.toNat - 64 + 4 = s.regs.esp.toNat - 60 by omega] at hesp
  rw [irqTail_eq hesp hthere, toUInt16_movAx, UInt16.toUInt16_toUInt32,
    show s.regs.esp.toNat - 60 + 60 = s.regs.esp.toNat by omega, UInt32.ofNat_toNat]

end JacobOS.Cpu
