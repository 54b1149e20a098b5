import JacobOS.Kernel.Switch

/-!
# `enter_user` and `leave_user` of `kernel/usermode.asm`

`enter_user` saves the context of its caller on the stack, stores where through its third argument, and
goes to ring 3 with an `iret`.  `leave_user` never returns to its own caller: it takes the stack that was
stored and returns from `enter_user` in its place.
-/

namespace JacobOS.Switch

open Cpu Mem

/-- `iret` to ring 3, which also loads `esp`. -/
def iretUser (s : Mach) : Mach :=
  let s := s.iret
  s.setEsp s.top

/-- `enter_user` from `push 0x23` on. -/
def toRing3 (s : Mach) : Mach :=
  let s := s.push 0x23 |>.push s.regs.edx |>.push s.regs.eflags
  -- pop ebx; or ebx, 0x200
  let s := s.pop fun w r => { r with ebx := w ||| 0x200 }
  let s := s.push s.regs.ebx |>.push 0x1B |>.push s.regs.ecx
  iretUser s

def enterUser (s : Mach) : Mach :=
  let s := s.push s.regs.ebx |>.push s.regs.esi |>.push s.regs.edi |>.push s.regs.ebp
  -- mov eax, [esp + 28]; mov [eax], esp
  let eax := s.mem.word (s.regs.esp + 28)
  let s : Mach := ⟨{ s.regs with eax := eax }, s.mem.setWord eax s.regs.esp⟩
  -- mov ecx, [esp + 20]; mov edx, [esp + 24]
  let s := { s with regs := { s.regs with
    ecx := s.mem.word (s.regs.esp + 20), edx := s.mem.word (s.regs.esp + 24) } }
  toRing3 (s.movAx 0x23).loadSegments

def leaveUser (s : Mach) : Mach := popContext (s.setEsp (s.mem.word (s.regs.esp + 4)))

/-! ## What they do -/

theorem push3_eq (s : Mach) (a b c : UInt32) : ((s.push a).push b).push c =
    ⟨{ s.regs with esp := (s.mem.pushWords s.regs.esp [a, b, c]).2 },
      (s.mem.pushWords s.regs.esp [a, b, c]).1⟩ := rfl

/-- The program starts at the address in `ecx`, on the stack in `edx`, with interrupts on. -/
theorem toRing3_spec {s : Mach} {n : Nat} (hesp : s.regs.esp = UInt32.ofNat n) (hn : 20 ≤ n)
    (hmax : n ≤ 2 ^ 32) :
    ∃ m, toRing3 s = ⟨{ s.regs with
        ebx := s.regs.eflags ||| 0x200, esp := s.regs.edx, eip := s.regs.ecx,
        eflags := s.regs.eflags ||| 0x200, cs := 0x1B }, m⟩ ∧
      SameOn s.mem m 0 (n - 20) ∧ SameOn s.mem m n (2 ^ 32) := by
  obtain ⟨hsp1, hold1, hlow1, hhigh1⟩ := pushWords_spec s.mem [0x23, s.regs.edx, s.regs.eflags] (n := n)
    (by simp; omega) hmax
  have hlen1 : 4 * [0x23, s.regs.edx, s.regs.eflags].length = 12 := rfl
  rw [hlen1] at hsp1 hold1 hlow1
  set m1 := (s.mem.pushWords (UInt32.ofNat n) [0x23, s.regs.edx, s.regs.eflags]).1 with hm1
  obtain ⟨hsp2, hold2, hlow2, hhigh2⟩ := pushWords_spec m1 [s.regs.eflags ||| 0x200, 0x1B, s.regs.ecx]
    (n := n - 8) (by simp; omega) (by omega)
  have hlen2 : 4 * [s.regs.eflags ||| 0x200, 0x1B, s.regs.ecx].length = 12 := rfl
  rw [hlen2] at hsp2 hold2 hlow2
  set m2 := (m1.pushWords (UInt32.ofNat (n - 8)) [s.regs.eflags ||| 0x200, 0x1B, s.regs.ecx]).1 with hm2
  refine ⟨m2, ?_, ?_, ?_⟩
  · obtain ⟨hfl1, hedx1, -⟩ := hold1
    obtain ⟨hecx, hcs, hfl2, -⟩ := hold2
    have hedx : m2.word (UInt32.ofNat (n - 20 + 12)) = s.regs.edx := by
      rw [hhigh2.word (by omega) (by omega) (by omega), show n - 20 + 12 = n - 12 + 4 by omega]
      exact hedx1
    have hpop : UInt32.ofNat (n - 12) + 4 = UInt32.ofNat (n - 8) := by
      rw [Kheap.ofNat_add4, show n - 12 + 4 = n - 8 by omega]
    rw [show n - 8 - 12 = n - 20 by omega] at hsp2 hecx hcs hfl2
    simp only [Nat.add_assoc, Nat.reduceAdd] at hcs hfl2
    unfold toRing3 iretUser
    simp only [push3_eq, Mach.pop, Mach.top, Mach.iret, Mach.setEsp, hesp, ← hm1, hsp1, hfl1, hpop, ← hm2, hsp2,
      hecx, Kheap.ofNat_add4, hcs, hfl2, hedx, Nat.add_assoc, Nat.reduceAdd]
    rfl
  · exact (hlow1.mono (Nat.le_refl _) (by omega)).trans (hlow2.mono (Nat.le_refl _) (by omega))
  · exact hhigh1.trans (hhigh2.mono (by omega) (Nat.le_refl _))

/-- `enter_user(entry, sp, a)` stores the stack pointer at `a` and leaves everything from there up as its
pushes made it. -/
theorem enterUser_spec {c : Mach} {entry sp a : UInt32} (he : 36 ≤ c.regs.esp.toNat)
    (hmax : c.regs.esp.toNat + 16 ≤ 2 ^ 32) (h1 : c.mem.word (c.regs.esp + 4) = entry)
    (h2 : c.mem.word (c.regs.esp + 8) = sp) (h3 : c.mem.word (c.regs.esp + 12) = a)
    (hamax : a.toNat + 4 ≤ 2 ^ 32)
    (ha : a.toNat + 4 ≤ c.regs.esp.toNat - 36 ∨ c.regs.esp.toNat + 16 ≤ a.toNat) :
    (enterUser c).regs.eip = entry ∧ (enterUser c).regs.esp = sp ∧ (enterUser c).regs.cs = 0x1B ∧
      (enterUser c).mem.word a = UInt32.ofNat (c.regs.esp.toNat - 16) ∧
      ∀ b, b ≤ a.toNat ∨ a.toNat + 4 ≤ c.regs.esp.toNat - 16 → b ≤ 2 ^ 32 →
        SameOn (saved c) (enterUser c).mem (c.regs.esp.toNat - 16) b := by
  have hw3 : (saved c).word (UInt32.ofNat (c.regs.esp.toNat - 16) + 28) = a :=
    (saved_arg (by omega) (j := 12) (by omega)).trans h3
  set m := (saved c).setWord a (UInt32.ofNat (c.regs.esp.toNat - 16)) with hm
  have hw1 : m.word (UInt32.ofNat (c.regs.esp.toNat - 16) + 20) = entry :=
    (saved_setWord_arg _ (by omega) (j := 4) (by omega) hamax (by omega)).trans h1
  have hw2 : m.word (UInt32.ofNat (c.regs.esp.toNat - 16) + 24) = sp :=
    (saved_setWord_arg _ (by omega) (j := 8) (by omega) hamax (by omega)).trans h2
  obtain ⟨r, hr, hesp, hecx, hedx⟩ : ∃ r : Regs, enterUser c = toRing3 ⟨r, m⟩ ∧
      r.esp = UInt32.ofNat (c.regs.esp.toNat - 16) ∧ r.ecx = entry ∧ r.edx = sp := by
    unfold enterUser
    simp only [push4_eq c (show 16 ≤ c.regs.esp.toNat by omega), hw3, ← hm, hw1, hw2, Mach.movAx,
      Mach.loadSegments]
    exact ⟨_, rfl, rfl, rfl, rfl⟩
  obtain ⟨m', hrun, hlow, hhigh⟩ := toRing3_spec (s := ⟨r, m⟩) hesp (by omega) (by omega)
  rw [hr, hrun]
  refine ⟨hecx, hedx, rfl, ?_, ?_⟩
  · have hself : m.word (UInt32.ofNat a.toNat) = UInt32.ofNat (c.regs.esp.toNat - 16) := by
      rw [UInt32.ofNat_toNat]
      exact word_setWord ..
    have hword : m'.word (UInt32.ofNat a.toNat) = m.word (UInt32.ofNat a.toNat) := by
      rcases ha with ha | ha
      · exact hlow.word (Nat.zero_le _) (by omega) hamax
      · exact hhigh.word (by omega) hamax hamax
    rw [UInt32.ofNat_toNat] at hword hself
    exact hword.trans hself
  · intro b hb hbmax
    have hstore := SameOn.setWord (saved c) (UInt32.ofNat (c.regs.esp.toNat - 16))
      (a := c.regs.esp.toNat - 16) (b := b) hamax (by omega)
    rw [UInt32.ofNat_toNat] at hstore
    exact hstore.trans (hhigh.mono (Nat.le_refl _) hbmax)

/-- `leave_user(n)` returns from the `enter_user` that stored `n`. -/
theorem leaveUser_eq {s : Mach} {n : Nat} {ebp edi esi ebx eip : UInt32}
    (harg : s.mem.word (s.regs.esp + 4) = UInt32.ofNat n) (hold : Holds s.mem n [ebp, edi, esi, ebx, eip]) :
    leaveUser s = ⟨{ s.regs with
      ebp := ebp, edi := edi, esi := esi, ebx := ebx, eip := eip, esp := UInt32.ofNat (n + 20) }, s.mem⟩ := by
  unfold leaveUser
  rw [harg]
  exact popContext_eq rfl hold

end JacobOS.Switch
