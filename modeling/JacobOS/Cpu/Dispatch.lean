import JacobOS.Cpu.Pic
import JacobOS.Cpu.Traps

/-!
# From a line to its handler

The controllers give a vector, the processor finds the stub of that vector in the table of gates, the stub pushes its
number, and `irq_handler` ends the interrupt and looks the number up among the registered handlers.
-/

namespace JacobOS.Cpu

open Mem Pic Protection32
open InterruptController (Clear Pair requested)

/-- `interrupt_handlers`, by number; null where there is none. -/
abbrev Handlers : Type := UInt32 → UInt32

def registerInterruptHandler (handlers : Handlers) (n : UInt8) (handler : UInt32) : Handlers :=
  Function.update handlers n.toUInt32 handler

/-- `irq_handler`: the bytes that it sends, and the function that it calls then. -/
def irqHandler (handlers : Handlers) (intNo : UInt32) : List (UInt16 × UInt8) × Option UInt32 :=
  ((if intNo ≥ 40 then [(0xA0, 0x20)] else []) ++ [(0x20, 0x20)],
    if handlers intNo ≠ 0 then some (handlers intNo) else none)

/-- Where `int_no` is in a `registers_t`. -/
def intNoOffset : Nat := 36

theorem word_intNo {m : Mem} {a v : Nat} {e : Entry} {c : Context} (h : Holds m a (registersT v e c)) :
    m.word (UInt32.ofNat (a + intNoOffset)) = UInt32.ofNat v := by
  unfold registersT at h
  rw [List.reverse_append] at h
  obtain ⟨hregs, -⟩ := holds_split h
  obtain ⟨-, -, -, -, -, -, -, -, -, hno, -⟩ := hregs
  exact hno

/-- What `init_keyboard` and `init_timer` have registered. -/
def kernelHandlers (timerCallback keyboardCallback : UInt32) : Handlers :=
  let handlers := registerInterruptHandler (fun _ => 0) 33 keyboardCallback
  registerInterruptHandler handlers 32 timerCallback

/-- The function for a line. -/
def lineHandler (timerCallback keyboardCallback : UInt32) (l : Fin 16) : Option UInt32 :=
  if l = 0 then some timerCallback else if l = 1 then some keyboardCallback else none

theorem irqHandler_writes (handlers : Handlers) (l : Fin 16) :
    (irqHandler handlers (UInt32.ofNat (32 + l.val))).1 = irqWrites (32 + UInt8.ofNat l.val) := by
  have hall : ∀ l : Fin 16, (if UInt32.ofNat (32 + l.val) ≥ 40 then [((0xA0 : UInt16), (0x20 : UInt8))] else []) ++
      [(0x20, 0x20)] = irqWrites (32 + UInt8.ofNat l.val) := by decide
  exact hall l

theorem irqHandler_calls {timerCallback keyboardCallback : UInt32} (htimer : timerCallback ≠ 0)
    (hkeyboard : keyboardCallback ≠ 0) (l : Fin 16) :
    (irqHandler (kernelHandlers timerCallback keyboardCallback) (UInt32.ofNat (32 + l.val))).2 =
      lineHandler timerCallback keyboardCallback l := by
  have hno : ∀ l : Fin 16, (UInt32.ofNat (32 + l.val) = 32 ↔ l = 0) ∧ (UInt32.ofNat (32 + l.val) = 33 ↔ l = 1) := by
    decide
  obtain ⟨h0, h1⟩ := hno l
  have hat : kernelHandlers timerCallback keyboardCallback (UInt32.ofNat (32 + l.val)) =
      if l = 0 then timerCallback else if l = 1 then keyboardCallback else 0 := by
    unfold kernelHandlers registerInterruptHandler
    rw [Function.update_apply, Function.update_apply]
    exact if_congr h0 rfl (if_congr h1 rfl rfl)
  unfold irqHandler lineHandler
  dsimp only
  rw [hat]
  by_cases hl : l = 0
  · rw [if_pos hl, if_pos hl, if_pos htimer]
  · rw [if_neg hl, if_neg hl]
    by_cases hl' : l = 1
    · rw [if_pos hl', if_pos hl', if_pos hkeyboard]
    · rw [if_neg hl', if_neg hl', if_neg (not_not.mpr rfl)]

section Lines

variable (stubs : Stubs) (tssAddr esp0 irqAddr ret timerCallback keyboardCallback : UInt32) (gdt : Gdt)

/-- An interrupt that the processor takes in the context `c`, on line `l`: from the controllers `p` to the call of the
registered function, when the controllers are `p'`. -/
structure Served (p : Pair) (c : Context) (l : Fin 16) (e : Entry) (p' : Pair) : Prop where
  taken : Taken p (32 + UInt8.ofNat l.val) p.acknowledge.2
  vector : p.acknowledge.1 = 32 + UInt8.ofNat l.val
  enters : deliver (tables stubs tssAddr esp0 gdt) c.cpl.toUInt8 false none p.acknowledge.1.toNat = .enter e
  /-- No other interrupt comes in between. -/
  masked : e.masked = true
  transparent : Transparent irqAddr ret (32 + l.val) (stubs.irq l.val) e c
  /-- What `irq_handler` finds in `int_no`. -/
  number : (trap irqAddr ret (32 + l.val) e c).mem.word (UInt32.ofNat (framePtr e c + intNoOffset)) =
    UInt32.ofNat (32 + l.val)
  sent : p' = (irqHandler (kernelHandlers timerCallback keyboardCallback) (UInt32.ofNat (32 + l.val))).1.foldl
    (fun p w => p.out w.1 w.2) p.acknowledge.2
  ended : Clear p'.master.regs.inService ∧ Clear p'.slave.regs.inService
  calls : (irqHandler (kernelHandlers timerCallback keyboardCallback) (UInt32.ofNat (32 + l.val))).2 =
    lineHandler timerCallback keyboardCallback l

/-- Nothing is in service when all has been sent. -/
theorem clear_reached {p₀ p : Pair} (h : Pic.Reached p₀ ⟨p, []⟩) :
    Ready p.master.regs 0x20 ∧ Ready p.slave.regs 0x28 ∧ Clear p.master.regs.inService ∧
      Clear p.slave.regs.inService := by
  rcases Pic.inv_reached h with ⟨done, -, hne, -⟩ | ⟨hm, hs, hphase⟩
  · exact absurd rfl hne
  · cases hphase with
    | idle hclear hclear' => exact ⟨hm, hs, hclear, hclear'⟩

theorem taken_line {p p' : Pair} {v : UInt8} (h : Taken p v p') :
    ∃ l : Fin 16, v = 32 + UInt8.ofNat l.val ∧ v.toNat = 32 + l.val := by
  have hall : ∀ l : Fin 16, (32 + UInt8.ofNat l.val).toNat = 32 + l.val := by decide
  cases h with
  | request l _ _ _ => exact ⟨l, rfl, hall l⟩
  | spurious l _ _ => exact ⟨l, rfl, hall l⟩

/-- Whatever state `pic_remap` found the controllers in and whatever the devices have asked for since: an interrupt
that the processor takes, in ring 0 or in ring 3, gets to the stub of its line; `irq_handler` ends it in the
controllers that have it and then calls the function that is registered for that line; and the interrupted code
goes on as if nothing had happened. -/
theorem lines_served {p₀ p : Pair} (h : Pic.Reached p₀ ⟨p, []⟩) (htimer : timerCallback ≠ 0)
    (hkeyboard : keyboardCallback ≠ 0) (c : Context) (hcpl : c.cpl = 0 ∨ c.cpl = 3)
    (hroom : 72 ≤ (if c.cpl = 3 then esp0 else c.regs.esp).toNat) :
    ∃ l e p', Served stubs tssAddr esp0 irqAddr ret timerCallback keyboardCallback gdt p c l e p' ∧
      Pic.Reached p₀ ⟨p', []⟩ := by
  obtain ⟨hm, hs, -, -⟩ := clear_reached h
  have htaken := taken_acknowledge hm.base hs.base
  obtain ⟨l, hv, hn⟩ := taken_line htaken
  have hsent := reached_sent (.step h (.interrupt rfl))
  rw [hv, ← irqHandler_writes (kernelHandlers timerCallback keyboardCallback) l] at hsent
  obtain ⟨-, -, hclear, hclear'⟩ := clear_reached hsent
  have hstub : stubs.handler (32 + l.val) = some (stubs.irq l.val) := by
    have hlt := l.isLt
    unfold Stubs.handler
    rw [if_neg (by omega), if_pos (by omega), Nat.add_sub_cancel_left]
  have hcode : (none : Option UInt32).isSome = true ↔ 32 + l.val ∈ isrErr := by
    have hall : ∀ l : Fin 16, 32 + l.val ∉ isrErr := by decide
    exact iff_of_false Bool.noConfusion (hall l)
  have hraise := raise_tables stubs tssAddr esp0 gdt hstub c.cpl.toUInt8 false Bool.noConfusion none
  have htrans := transparent_kernelEntry esp0 irqAddr ret (stubs.irq l.val) hcode hcpl hroom
  refine ⟨l, _, _, ⟨hv ▸ htaken, hv, ?_, rfl, htrans, word_intNo htrans.frame, rfl, ⟨hclear, hclear'⟩,
    irqHandler_calls htimer hkeyboard l⟩, hsent⟩
  rw [hn]
  exact deliver_of_raise hraise

end Lines

-- A key is pressed while a program is in ring 3.
theorem lines_served_key : ∃ e p', requested pending 1 = true ∧
    Served ⟨fun n => UInt32.ofNat (0x11000 + 16 * n), fun n => UInt32.ofNat (0x12000 + 16 * n), 0x13000⟩
      0x20000 0x402050 0x15000 0x13040 0x16000 0x17000 (fun _ => ⟨0, 0, 0, 0, 0, 0⟩) pending userContext 1 e p' ∧
    (irqHandler (kernelHandlers 0x16000 0x17000) 33).2 = some 0x17000 := by
  have hkeyboard : pending.acknowledge.1 = 33 := by decide +kernel
  obtain ⟨l, e, p', hserved, -⟩ :=
    lines_served ⟨fun n => UInt32.ofNat (0x11000 + 16 * n), fun n => UInt32.ofNat (0x12000 + 16 * n), 0x13000⟩
      0x20000 0x402050 0x15000 0x13040 0x16000 0x17000 (fun _ => ⟨0, 0, 0, 0, 0, 0⟩) reached_pending (by decide)
      (by decide) userContext (Or.inr (by decide)) (by decide)
  have hone : ∀ l : Fin 16, 33 = 32 + UInt8.ofNat l.val → l = 1 := by decide
  obtain rfl := hone l (hkeyboard.symm.trans hserved.vector)
  exact ⟨e, p', by decide +kernel, hserved, hserved.calls⟩

end JacobOS.Cpu
