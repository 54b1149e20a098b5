import JacobOS.Lib.LittleEndian

/-!
# Descriptors and interrupts in protected mode

The eight bytes of a segment descriptor and of a gate, and what the processor does when a vector is raised:
the checks in their order, the entry point, and the stack.  Tables are functions from an index to bytes; there
is no local descriptor table.
-/

namespace Protection32

open LittleEndian

/-- The eight bytes of a descriptor. -/
structure Bytes where
  b0 : UInt8
  b1 : UInt8
  b2 : UInt8
  b3 : UInt8
  b4 : UInt8
  b5 : UInt8
  b6 : UInt8
  b7 : UInt8

/-! ## Segments -/

structure Segment where
  base : UInt32
  /-- The 20-bit limit. -/
  limit : UInt32
  /-- Present, privilege level, type. -/
  access : UInt8
  /-- Granularity and size. -/
  flags : UInt8
deriving DecidableEq

def segmentOf (b : Bytes) : Segment where
  base := ofBytes b.b2 b.b3 b.b4 b.b7
  limit := ofBytes b.b0 b.b1 (b.b6 &&& 0x0F) 0
  access := b.b5
  flags := b.b6 >>> 4

namespace Segment

variable (s : Segment)

def present : Bool := s.access &&& 0x80 != 0
def dpl : UInt8 := (s.access >>> 5) &&& 3
/-- A code or a data segment and not a system one. -/
def codeOrData : Bool := s.access &&& 0x10 != 0
def isCode : Bool := s.codeOrData && (s.access &&& 0x08 != 0)
/-- For code: runs with the privilege of its caller. -/
def conforming : Bool := s.access &&& 0x04 != 0
/-- The last offset in the segment. -/
def lastOffset : Nat := if s.flags &&& 0x8 != 0 then s.limit.toNat * 4096 + 4095 else s.limit.toNat

end Segment

/-! ## Gates -/

structure Gate where
  offset : UInt32
  selector : UInt16
  flags : UInt8
deriving DecidableEq

def gateOf (b : Bytes) : Gate where
  offset := ofBytes b.b0 b.b1 b.b6 b.b7
  selector := UInt16.ofNat (b.b2.toNat + 256 * b.b3.toNat)
  flags := b.b5

namespace Gate

variable (g : Gate)

def present : Bool := g.flags &&& 0x80 != 0
def dpl : UInt8 := (g.flags >>> 5) &&& 3
def type : UInt8 := g.flags &&& 0x1F
/-- A 32-bit interrupt gate or trap gate. -/
def isInterrupt : Bool := g.type == 0x0E
def isTrap : Bool := g.type == 0x0F

end Gate

/-! ## Interrupts -/

/-- The tables, and the ring-0 stack of the task state segment. -/
structure Tables where
  gdt : Nat → Bytes
  gdtLimit : Nat
  idt : Nat → Bytes
  idtLimit : Nat
  ss0 : UInt16
  esp0 : UInt32

/-- Where the processor goes on: the code, its privilege, the new stack if it changes, whether interrupts are
off there, and the error code if there is one. -/
structure Entry where
  cs : UInt16
  eip : UInt32
  cpl : UInt8
  stack : Option (UInt16 × UInt32)
  masked : Bool
  code : Option UInt32
deriving DecidableEq

inductive Outcome where
  | enter (e : Entry)
  | fault (vector : Nat) (code : UInt32)
deriving DecidableEq

/-- Vector `n` is raised at privilege `cpl`, by an `int n` if `software`.  A gate of any other type than the
two counts as invalid. -/
def raise (t : Tables) (cpl : UInt8) (software : Bool) (code : Option UInt32) (n : Nat) : Outcome :=
  let bad := UInt32.ofNat (n * 8 + 2)
  if t.idtLimit < n * 8 + 7 then .fault 13 bad else
    let g := gateOf (t.idt n)
    if !(g.isInterrupt || g.isTrap) then .fault 13 bad
    else if software && g.dpl < cpl then .fault 13 bad
    else if !g.present then .fault 11 bad
    else if g.selector.toNat / 8 = 0 then .fault 13 0
    else if t.gdtLimit < g.selector.toNat / 8 * 8 + 7 then .fault 13 (UInt32.ofNat (g.selector.toNat / 4 * 4))
    else
      let s := segmentOf (t.gdt (g.selector.toNat / 8))
      if !s.isCode || cpl < s.dpl then .fault 13 (UInt32.ofNat (g.selector.toNat / 4 * 4))
      else if !s.present then .fault 11 (UInt32.ofNat (g.selector.toNat / 4 * 4))
      -- an inner privilege level has a stack of its own
      else if !s.conforming && s.dpl < cpl then
        .enter ⟨UInt16.ofNat (g.selector.toNat / 4 * 4 + s.dpl.toNat), g.offset, s.dpl, some (t.ss0, t.esp0),
          g.isInterrupt, code⟩
      else .enter ⟨UInt16.ofNat (g.selector.toNat / 4 * 4 + cpl.toNat), g.offset, cpl, none, g.isInterrupt, code⟩

/-- A fault on the way is raised in turn, once. -/
def deliver (t : Tables) (cpl : UInt8) (software : Bool) (code : Option UInt32) (n : Nat) : Outcome :=
  match raise t cpl software code n with
  | .enter e => .enter e
  | .fault vector err => raise t cpl false (some err) vector

/-! ## Ports -/

/-- Whether an `in` or an `out` of `width` bytes is let through: by the privilege level, or by the bits in the
map at offset `base` of a task state segment with the given last offset. -/
def portAllowed (cpl iopl : UInt8) (base limit : Nat) (map : Nat → Bool) (port width : Nat) : Bool :=
  if cpl ≤ iopl then true
  else if limit < base + (port + width - 1) / 8 + 1 then false
  else (List.range width).all fun i => !map (port + i)

end Protection32
