import Mathlib.Data.List.FinRange
import Mathlib.Logic.Function.Basic

/-!
# The 8259A interrupt controller

One chip in its fully nested mode: the initialisation words, the mask, requests, the register of the interrupts in
service, and the end of an interrupt.  `Pair` is the two chips of a PC, the second on line 2 of the first.
Rotation, special masks and polling are left out.
-/

namespace InterruptController

/-- What the processor can program, and the interrupts in service. -/
structure Regs where
  /-- The vector of line 0. -/
  base : UInt8
  mask : Fin 8 → Bool
  inService : Fin 8 → Bool
  /-- The next initialisation word, or 0 after the last. -/
  next : Nat
  /-- Whether there is a fourth word. -/
  fourth : Bool
  /-- Interrupts are never in service. -/
  autoEnd : Bool

structure Chip where
  regs : Regs
  requests : Fin 8 → Bool

/-- The line of highest priority among those in `f`. -/
def first (f : Fin 8 → Bool) : Option (Fin 8) := (List.finRange 8).find? f

def testBit (v : UInt8) (i : Fin 8) : Bool := v.toNat.testBit i

namespace Regs

/-- The interrupt of highest priority is no longer in service. -/
def endFirst (r : Regs) : Regs :=
  match first r.inService with
  | some i => { r with inService := Function.update r.inService i false }
  | none => r

/-- A byte to the command port: the first initialisation word, or an end of interrupt. -/
def command (v : UInt8) (r : Regs) : Regs :=
  if testBit v 4 then
    { r with mask := fun _ => false, inService := fun _ => false, next := 2, fourth := testBit v 0, autoEnd := false }
  else if v = 0x20 then r.endFirst
  else if v &&& 0xF8 = 0x60 then
    { r with inService := Function.update r.inService (Fin.ofNat 8 v.toNat) false }
  else r

/-- A byte to the data port: the next initialisation word, or the mask. -/
def data (v : UInt8) (r : Regs) : Regs :=
  match r.next with
  | 2 => { r with base := v &&& 0xF8, next := 3 }
  | 3 => { r with next := if r.fourth then 4 else 0 }
  | 4 => { r with autoEnd := testBit v 1, next := 0 }
  | _ => { r with mask := testBit v }

end Regs

namespace Chip

variable (c : Chip)

def command (v : UInt8) : Chip :=
  ⟨c.regs.command v, if testBit v 4 then fun _ => false else c.requests⟩

def data (v : UInt8) : Chip := { c with regs := c.regs.data v }

def setRequest (i : Fin 8) (on : Bool) : Chip := { c with requests := Function.update c.requests i on }

/-- The line that the chip asks the processor to serve.  One in service holds back itself and those after it. -/
def asks : Option (Fin 8) :=
  match first fun i => c.requests i && !c.regs.mask i with
  | none => none
  | some i => if (List.finRange 8).any fun j => c.regs.inService j && j ≤ i then none else some i

/-- The processor acknowledges.  If the request is gone, the chip gives line 7 and nothing is in service. -/
def acknowledge : Fin 8 × Chip :=
  match c.asks with
  | none => (7, c)
  | some i =>
      (i, ⟨if c.regs.autoEnd then c.regs else
          { c.regs with inService := Function.update c.regs.inService i true },
        Function.update c.requests i false⟩)

end Chip

structure Pair where
  master : Chip
  slave : Chip

namespace Pair

variable (p : Pair)

/-- A request of the slave is one on line 2 of the master. -/
def cascade : Pair :=
  if p.slave.asks.isSome then { p with master := p.master.setRequest 2 true } else p

/-- A byte to one of the ports of the two chips. -/
def out (port : UInt16) (v : UInt8) : Pair :=
  cascade <|
    if port = 0x20 then { p with master := p.master.command v }
    else if port = 0x21 then { p with master := p.master.data v }
    else if port = 0xA0 then { p with slave := p.slave.command v }
    else if port = 0xA1 then { p with slave := p.slave.data v }
    else p

/-- Line 2 of the master, or a line of a device: 0 to 7 on the master, 8 to 15 on the slave. -/
def setRequest (line : Fin 16) (on : Bool) : Pair :=
  cascade <|
    if line.val < 8 then { p with master := p.master.setRequest (Fin.ofNat 8 line.val) on }
    else { p with slave := p.slave.setRequest (Fin.ofNat 8 line.val) on }

/-- The vector that the processor gets.  For line 2 the slave gives it. -/
def acknowledge : UInt8 × Pair :=
  match p.master.asks with
  | some i =>
      let m := p.master.acknowledge
      if i = 2 then
        let s := p.slave.acknowledge
        (p.slave.regs.base + UInt8.ofNat s.1.val, cascade ⟨m.2, s.2⟩)
      else (p.master.regs.base + UInt8.ofNat m.1.val, cascade ⟨m.2, p.slave⟩)
  | none => (p.master.regs.base + 7, cascade p)

end Pair

/-! ## In service -/

def Clear (f : Fin 8 → Bool) : Prop := ∀ i, f i = false

def AtMostOne (f : Fin 8 → Bool) : Prop := ∀ i j, f i = true → f j = true → i = j

theorem Clear.atMostOne {f : Fin 8 → Bool} (h : Clear f) : AtMostOne f :=
  fun i _ hi => absurd (hi.symm.trans (h i)) (by simp)

theorem first_some {f : Fin 8 → Bool} {i : Fin 8} (h : first f = some i) : f i = true := List.find?_some h

theorem first_none {f : Fin 8 → Bool} : first f = none ↔ Clear f := by
  unfold first Clear
  rw [List.find?_eq_none]
  simp

theorem AtMostOne.set {f : Fin 8 → Bool} (h : Clear f) (i : Fin 8) : AtMostOne (Function.update f i true) := by
  have hone : ∀ j, Function.update f i true j = true → j = i := by
    intro j hj
    by_contra hne
    rw [Function.update_of_ne hne, h j] at hj
    cases hj
  intro j k hj hk
  rw [hone j hj, hone k hk]

-- The end of the one interrupt in service.
theorem endFirst_clear {r : Regs} (h : AtMostOne r.inService) : Clear r.endFirst.inService := by
  unfold Regs.endFirst
  cases hf : first r.inService with
  | none => exact first_none.mp hf
  | some i =>
    intro j
    show Function.update r.inService i false j = false
    by_cases hj : j = i
    · rw [hj, Function.update_self]
    · rw [Function.update_of_ne hj]
      cases hjs : r.inService j with
      | false => rfl
      | true => exact absurd (h j i hjs (first_some hf)) hj

/-- With nothing in service the chip asks for every request that is not masked. -/
theorem asks_of_clear {c : Chip} (h : Clear c.regs.inService) :
    c.asks = first fun i => c.requests i && !c.regs.mask i := by
  unfold Chip.asks
  cases first fun i => c.requests i && !c.regs.mask i with
  | none => rfl
  | some i =>
    dsimp only
    rw [if_neg]
    simp [h _]

theorem asks_some {c : Chip} {i : Fin 8} (h : c.asks = some i) : c.requests i = true := by
  unfold Chip.asks at h
  cases hf : first fun i => c.requests i && !c.regs.mask i with
  | none =>
    rw [hf] at h
    cases h
  | some j =>
    rw [hf] at h
    dsimp only at h
    split at h
    · cases h
    · obtain rfl := Option.some.inj h
      exact (Bool.and_eq_true_iff.mp (first_some hf)).1

/-! ## Requests -/

theorem cascade_regs (p : Pair) : p.cascade.master.regs = p.master.regs ∧ p.cascade.slave = p.slave := by
  unfold Pair.cascade
  split
  · exact ⟨rfl, rfl⟩
  · exact ⟨rfl, rfl⟩

/-- A request of the second controller is on the wire to the first. -/
def Cascaded (p : Pair) : Prop := p.slave.asks.isSome = true → p.master.requests 2 = true

theorem cascaded_cascade (p : Pair) : Cascaded p.cascade := by
  intro hasks
  rw [(cascade_regs p).2] at hasks
  unfold Pair.cascade
  rw [if_pos hasks]
  show Function.update p.master.requests 2 true 2 = true
  rw [Function.update_self]

/-- A line has a request. -/
def requested (p : Pair) (l : Fin 16) : Bool :=
  if l.val < 8 then p.master.requests (Fin.ofNat 8 l.val) else p.slave.requests (Fin.ofNat 8 l.val)

-- The wire between the two is line 2.
theorem requested_cascade (p : Pair) {l : Fin 16} (hl : l ≠ 2) : requested p.cascade l = requested p l := by
  have hne : l.val < 8 → Fin.ofNat 8 l.val ≠ 2 := by
    intro hlt heq
    have hval := congrArg Fin.val heq
    change l.val % 8 = 2 at hval
    exact hl (Fin.ext (by show l.val = 2; omega))
  unfold Pair.cascade
  by_cases hasks : p.slave.asks.isSome = true
  · rw [if_pos hasks]
    unfold requested
    dsimp only [Chip.setRequest]
    by_cases hlt : l.val < 8
    · rw [if_pos hlt, if_pos hlt, Function.update_of_ne (hne hlt)]
    · rw [if_neg hlt, if_neg hlt]
  · rw [if_neg hasks]

def masterLine (i : Fin 8) : Fin 16 := ⟨i.val, by omega⟩
def slaveLine (i : Fin 8) : Fin 16 := ⟨i.val + 8, by omega⟩

theorem requested_master (p : Pair) (i : Fin 8) : requested p (masterLine i) = p.master.requests i := by
  have hval : Fin.ofNat 8 (masterLine i).val = i := Fin.ext (Nat.mod_eq_of_lt i.isLt)
  rw [requested, if_pos (show (masterLine i).val < 8 from i.isLt), hval]

theorem requested_slave (p : Pair) (i : Fin 8) : requested p (slaveLine i) = p.slave.requests i := by
  have hlt := i.isLt
  have hval : Fin.ofNat 8 (slaveLine i).val = i := Fin.ext (by show (i.val + 8) % 8 = i.val; omega)
  rw [requested, if_neg (by show ¬ i.val + 8 < 8; omega), hval]

-- The line that is acknowledged has no request any more.
theorem acknowledge_some {c : Chip} {i : Fin 8} (h : c.asks = some i) :
    c.acknowledge.1 = i ∧ c.acknowledge.2.requests i = false := by
  unfold Chip.acknowledge
  rw [h]
  refine ⟨rfl, ?_⟩
  show Function.update c.requests i false i = false
  rw [Function.update_self]

theorem acknowledge_none {c : Chip} (h : c.asks = none) : c.acknowledge = (7, c) := by
  unfold Chip.acknowledge
  rw [h]

theorem masterLine_ne {i : Fin 8} (hi : i ≠ 2) : masterLine i ≠ 2 :=
  fun h => hi (Fin.ext (congrArg Fin.val h : i.val = 2))

theorem slaveLine_ne (i : Fin 8) : slaveLine i ≠ 2 := by
  intro h
  have hval : i.val + 8 = 2 := congrArg Fin.val h
  omega

end InterruptController
