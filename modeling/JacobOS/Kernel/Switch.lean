import JacobOS.Cpu.Interrupt
import JacobOS.Kernel.Task

/-!
# Context switches

`context_switch` of `kernel/switch.asm`, and the paths on which the kernel comes to it: from the timer
through `irq_common_stub`, from `yield` and from `task_exit`.  The C code in between is compiled code
and is known by its calling convention only.
-/

namespace JacobOS.Switch

open Cpu Mem

/-- The end of `context_switch`: `pop ebp`, `pop edi`, `pop esi`, `pop ebx`, `ret`. -/
def popContext (s : Mach) : Mach :=
  s.pop (fun w r => { r with ebp := w })
    |>.pop (fun w r => { r with edi := w })
    |>.pop (fun w r => { r with esi := w })
    |>.pop (fun w r => { r with ebx := w })
    |>.pop (fun w r => { r with eip := w })

/-- `context_switch` from its first instruction to after its `ret`. -/
def contextSwitch (s : Mach) : Mach :=
  let s := s.push s.regs.ebx |>.push s.regs.esi |>.push s.regs.edi |>.push s.regs.ebp
  -- mov eax, [esp + 20]; mov [eax], esp
  let eax := s.mem.word (s.regs.esp + 20)
  let s : Mach := ⟨{ s.regs with eax := eax }, s.mem.setWord eax s.regs.esp⟩
  popContext (s.setEsp (s.mem.word (s.regs.esp + 24)))

/-! ## Compiled code -/

section Convention

variable (kdata : UInt32 → Prop) (frame args : Nat)

/-- What a function may write that is entered with `esp = sp`: the kernel's data, `frame` bytes below its
return address, and its arguments. -/
def Writes (sp : Nat) (x : UInt32) : Prop :=
  kdata x ∨ (sp - frame ≤ x.toNat ∧ x.toNat < sp) ∨ (sp + 4 ≤ x.toNat ∧ x.toNat < sp + 4 + args)

variable {kdata frame args} in
-- Above its arguments a function writes the kernel's data only.
theorem sameOn_above {sp hi : Nat} {m m' : Mem}
    (hkd : ∀ x : UInt32, sp + 4 + args ≤ x.toNat → x.toNat < hi → ¬ kdata x)
    (hmem : ∀ x, ¬ Writes kdata frame args sp x → m' x = m x) : SameOn m m' (sp + 4 + args) hi := by
  intro x h1 h2
  apply hmem
  rintro (h | ⟨-, hb⟩ | ⟨-, hb⟩)
  · exact hkd x h1 h2 h
  · omega
  · omega

/-- There is room on the stack for the function's frame. -/
def Fits (s : Mach) : Prop := frame ≤ s.regs.esp.toNat ∧ s.regs.esp.toNat + 4 + args ≤ 2 ^ 32

/-- A function entered in `s` calls `context_switch(a, b)` in `c`; the call returns to `ra`. -/
structure Calls (ra : UInt32) (s c : Mach) (a b : UInt32) : Prop where
  low : s.regs.esp.toNat - frame ≤ c.regs.esp.toNat
  high : c.regs.esp.toNat + 12 ≤ s.regs.esp.toNat
  ret : c.top = ra
  arg1 : c.mem.word (c.regs.esp + 4) = a
  arg2 : c.mem.word (c.regs.esp + 8) = b
  mem : ∀ x, ¬ Writes kdata frame args s.regs.esp.toNat x → c.mem x = s.mem x

/-- The call that a function entered in `s` made in `c` has returned in `t`. -/
structure Resumed (s c t : Mach) : Prop where
  eip : t.regs.eip = c.top
  esp : t.regs.esp = c.regs.esp + 4
  ebx : t.regs.ebx = c.regs.ebx
  esi : t.regs.esi = c.regs.esi
  edi : t.regs.edi = c.regs.edi
  ebp : t.regs.ebp = c.regs.ebp
  mem : SameOn c.mem t.mem (c.regs.esp.toNat + 4) (s.regs.esp.toNat + 4)

/-- A function entered in `s` goes on in `t` and returns in `r`.  The registers that it need not keep
may hold anything. -/
structure Returns (s t r : Mach) : Prop where
  eip : r.regs.eip = s.top
  esp : r.regs.esp = s.regs.esp + 4
  ebx : r.regs.ebx = s.regs.ebx
  esi : r.regs.esi = s.regs.esi
  edi : r.regs.edi = s.regs.edi
  ebp : r.regs.ebp = s.regs.ebp
  mem : ∀ x, ¬ Writes kdata frame args s.regs.esp.toNat x → r.mem x = t.mem x

/-- Compiled code from the entry of a function to the call of `context_switch` in `schedule`, and from
there back. -/
structure Compiled (ra : UInt32) (back : Mach → Mach) where
  /-- Up to the call `context_switch(a, b)`. -/
  call : Mach → UInt32 → UInt32 → Mach
  /-- From entry to return when `schedule` has nothing to switch to. -/
  skip : Mach → Mach
  calls : ∀ s a b, Fits frame args s → Calls kdata frame args ra s (call s a b) a b
  returns : ∀ s a b t, Fits frame args s → Resumed s (call s a b) t → Returns kdata frame args s t (back t)
  skips : ∀ s, Fits frame args s → Returns kdata frame args s s (skip s)

end Convention

/-! ### The smallest such code -/

section Plain

/-- The arguments and the return address are pushed, and nothing else. -/
def plainCall (ra : UInt32) (s : Mach) (a b : UInt32) : Mach :=
  ⟨{ s.regs with esp := (s.mem.pushWords s.regs.esp [b, a, ra]).2 }, (s.mem.pushWords s.regs.esp [b, a, ra]).1⟩

/-- `add esp, 8` and `ret`. -/
def plainBack (s : Mach) : Mach := (s.addEsp 8).pop fun w r => { r with eip := w }

def plainSkip (s : Mach) : Mach := s.pop fun w r => { r with eip := w }

theorem plainCall_calls (kdata : UInt32 → Prop) (args : Nat) (ra : UInt32) (s : Mach) (a b : UInt32)
    (h : Fits 12 args s) : Calls kdata 12 args ra s (plainCall ra s a b) a b := by
  obtain ⟨h1, h2⟩ := h
  obtain ⟨hend, hold, hlow, hhigh⟩ := pushWords_spec s.mem [b, a, ra] (n := s.regs.esp.toNat) h1 (by omega)
  have hlen : 4 * [b, a, ra].length = 12 := rfl
  rw [UInt32.ofNat_toNat, hlen] at hend hold hlow
  rw [UInt32.ofNat_toNat] at hhigh
  obtain ⟨hra, ha, hb, -⟩ := hold
  have hesp : (plainCall ra s a b).regs.esp = UInt32.ofNat (s.regs.esp.toNat - 12) := hend
  have hnat : (plainCall ra s a b).regs.esp.toNat = s.regs.esp.toNat - 12 := by
    rw [hesp, Kheap.toNat_ofNat (by omega)]
  refine ⟨by omega, by omega, ?_, ?_, ?_, ?_⟩
  · rw [Mach.top, hesp]
    exact hra
  · rw [hesp, Kheap.ofNat_add4]
    exact ha
  · rw [hesp, Kheap.ofNat_add8]
    exact hb
  · intro x hx
    exact hlow.outside hhigh fun hin => hx (Or.inr (Or.inl hin))

theorem plainBack_returns (kdata : UInt32 → Prop) (args : Nat) (ra : UInt32) (s : Mach) (a b : UInt32) (t : Mach)
    (h : Fits 12 args s) (hres : Resumed s (plainCall ra s a b) t) :
    Returns kdata 12 args s t (plainBack t) := by
  obtain ⟨h1, h2⟩ := h
  obtain ⟨hend, -, -, hhigh⟩ := pushWords_spec s.mem [b, a, ra] (n := s.regs.esp.toNat) h1 (by omega)
  have hlen : 4 * [b, a, ra].length = 12 := rfl
  rw [UInt32.ofNat_toNat, hlen] at hend
  rw [UInt32.ofNat_toNat] at hhigh
  have hcall : (plainCall ra s a b).regs.esp = UInt32.ofNat (s.regs.esp.toNat - 12) := hend
  have hnat : (plainCall ra s a b).regs.esp.toNat = s.regs.esp.toNat - 12 := by
    rw [hcall, Kheap.toNat_ofNat (by omega)]
  have hesp : t.regs.esp + 8 = s.regs.esp := by
    rw [hres.esp, hcall, Kheap.ofNat_add4, Kheap.ofNat_add8,
      show s.regs.esp.toNat - 12 + 4 + 8 = s.regs.esp.toNat by omega, UInt32.ofNat_toNat]
  refine ⟨?_, ?_, hres.ebx, hres.esi, hres.edi, hres.ebp, fun _ _ => rfl⟩
  · show t.mem.word (t.regs.esp + 8) = s.mem.word s.regs.esp
    rw [hesp]
    have hthere := hres.mem.word (k := s.regs.esp.toNat) (by omega) (by omega) (by omega)
    have habove := hhigh.word (k := s.regs.esp.toNat) (Nat.le_refl _) (by omega) (by omega)
    rw [UInt32.ofNat_toNat] at hthere habove
    exact hthere.trans habove
  · show t.regs.esp + 8 + 4 = s.regs.esp + 4
    rw [hesp]

def plain (kdata : UInt32 → Prop) (args : Nat) (ra : UInt32) : Compiled kdata 12 args ra plainBack where
  call := plainCall ra
  skip := plainSkip
  calls := plainCall_calls kdata args ra
  returns := plainBack_returns kdata args ra
  skips _ _ := ⟨rfl, rfl, rfl, rfl, rfl, rfl, fun _ _ => rfl⟩

end Plain

/-- The kernel's code, as far as the task switches go. -/
structure Kernel where
  labels : Labels
  fn : Tasking.Entries
  /-- After the call of `context_switch` in `schedule`. -/
  scheduleRet : UInt32
  /-- After the call of `schedule` in `yield`. -/
  yieldRet : UInt32
  kdata : UInt32 → Prop
  frame : Nat
  /-- From the return of `context_switch` until the compiled code is left. -/
  back : Mach → Mach
  /-- `irq_handler`, through `timer_callback`, to `schedule`. -/
  irqHandler : Compiled kdata frame 4 scheduleRet back
  schedule : Compiled kdata frame 0 scheduleRet back
  bootstrap_ne : scheduleRet ≠ fn.taskBootstrap
  yield_ne : yieldRet ≠ labels.irqRet

namespace Kernel

variable (k : Kernel)

/-- The compiled code returns to `irq_common_stub` or to `yield`. -/
def leave (s : Mach) : Mach := if s.regs.eip = k.labels.irqRet then irqTail s else s

/-- The `ret` of `context_switch` goes to a new task or back into `schedule`. -/
def resume (s : Mach) : Mach := if s.regs.eip = k.fn.taskBootstrap then s else k.leave (k.back s)

/-- A function is entered in `s`, and `schedule` decides for the call `c`. -/
def run {args : Nat} (f : Compiled k.kdata k.frame args k.scheduleRet k.back) (s : Mach) :
    Option (UInt32 × UInt32) → Mach
  | none => k.leave (f.skip s)
  | some (prev, next) => k.resume (contextSwitch (f.call s prev (s.mem.word next)))

end Kernel

/-! ## `context_switch` -/

theorem popContext_eq {s : Mach} {n : Nat} {ebp edi esi ebx eip : UInt32}
    (hesp : s.regs.esp = UInt32.ofNat n) (hold : Holds s.mem n [ebp, edi, esi, ebx, eip]) :
    popContext s = ⟨{ s.regs with
      ebp := ebp, edi := edi, esi := esi, ebx := ebx, eip := eip, esp := UInt32.ofNat (n + 20) }, s.mem⟩ := by
  simp only [Holds, Nat.add_assoc, Nat.reduceAdd, and_true] at hold
  obtain ⟨hebp, hedi, hesi, hebx, heip⟩ := hold
  simp only [popContext, Mach.pop, Mach.top, hesp, Kheap.ofNat_add4, Nat.add_assoc, Nat.reduceAdd, hebp, hedi,
    hesi, hebx, heip]

/-- The memory when `context_switch`, called in `c`, has made its pushes. -/
def saved (c : Mach) : Mem :=
  (c.mem.pushWords c.regs.esp [c.regs.ebx, c.regs.esi, c.regs.edi, c.regs.ebp]).1

theorem saved_spec (c : Mach) (h : 16 ≤ c.regs.esp.toNat) :
    Holds (saved c) (c.regs.esp.toNat - 16) [c.regs.ebp, c.regs.edi, c.regs.esi, c.regs.ebx] ∧
      SameOn c.mem (saved c) 0 (c.regs.esp.toNat - 16) ∧
      SameOn c.mem (saved c) c.regs.esp.toNat (2 ^ 32) := by
  have hlt := c.regs.esp.toNat_lt
  obtain ⟨-, hold, hlow, hhigh⟩ := pushWords_spec c.mem [c.regs.ebx, c.regs.esi, c.regs.edi, c.regs.ebp]
    (n := c.regs.esp.toNat) h (by omega)
  rw [UInt32.ofNat_toNat] at hold hlow hhigh
  exact ⟨hold, hlow, hhigh⟩

theorem push4_eq (c : Mach) (h : 16 ≤ c.regs.esp.toNat) :
    ((((c.push c.regs.ebx).push c.regs.esi).push c.regs.edi).push c.regs.ebp) =
      ⟨{ c.regs with esp := UInt32.ofNat (c.regs.esp.toNat - 16) }, saved c⟩ := by
  have hsp : c.regs.esp - 4 - 4 - 4 - 4 = UInt32.ofNat (c.regs.esp.toNat - 16) := by
    have h4 := ofNat_sub4 (a := c.regs.esp.toNat) (by omega)
    rw [UInt32.ofNat_toNat] at h4
    rw [h4, ofNat_sub4 (by omega), ofNat_sub4 (by omega), ofNat_sub4 (by omega)]
    congr 1
  simp only [Mach.push, saved, pushWords, hsp]

/-- As long as the stack above the pushes is kept, they lead back to the caller of `c`. -/
theorem saved_resumed {s c : Mach} {m : Mem} {hi : Nat} (he : 16 ≤ c.regs.esp.toNat)
    (hsp : c.regs.esp.toNat ≤ s.regs.esp.toNat) (hhi : s.regs.esp.toNat + 4 ≤ hi) (hmax : hi ≤ 2 ^ 32)
    (hsame : SameOn (saved c) m (c.regs.esp.toNat - 16) hi) :
    Holds m (c.regs.esp.toNat - 16) [c.regs.ebp, c.regs.edi, c.regs.esi, c.regs.ebx, c.top] ∧
      ∀ r : Mach, r.mem = m → r.regs.esp = UInt32.ofNat (c.regs.esp.toNat - 16 + 20) → r.regs.eip = c.top →
        r.regs.ebp = c.regs.ebp → r.regs.edi = c.regs.edi → r.regs.esi = c.regs.esi →
        r.regs.ebx = c.regs.ebx → Resumed s c r := by
  obtain ⟨hold, -, habove⟩ := saved_spec c he
  constructor
  · refine (hold.congr (hsame.mono (Nat.le_refl _) (by simp; omega)) (by simp; omega)).append ⟨?_, trivial⟩
    show m.word (UInt32.ofNat (c.regs.esp.toNat - 16 + 16)) = c.top
    rw [Nat.sub_add_cancel he, hsame.word (by omega) (by omega) (by omega),
      habove.word (Nat.le_refl _) (by omega) (by omega), UInt32.ofNat_toNat]
    rfl
  · intro r hmem hesp heip hebp hedi hesi hebx
    refine ⟨heip, ?_, hebx, hesi, hedi, hebp, ?_⟩
    · rw [hesp, show c.regs.esp.toNat - 16 + 20 = c.regs.esp.toNat + 4 by omega, ← Kheap.ofNat_add4,
        UInt32.ofNat_toNat]
    · rw [hmem]
      exact (habove.mono (by omega) (by omega)).trans (hsame.mono (by omega) hhi)

-- The words above the return address, seen after the pushes.
theorem saved_arg {c : Mach} (he : 16 ≤ c.regs.esp.toNat) {j : Nat} (hj : c.regs.esp.toNat + j + 4 ≤ 2 ^ 32) :
    (saved c).word (UInt32.ofNat (c.regs.esp.toNat - 16) + UInt32.ofNat (16 + j)) =
      c.mem.word (c.regs.esp + UInt32.ofNat j) := by
  obtain ⟨-, -, habove⟩ := saved_spec c he
  have hnew : UInt32.ofNat (c.regs.esp.toNat - 16) + UInt32.ofNat (16 + j) =
      UInt32.ofNat (c.regs.esp.toNat + j) := by
    rw [← UInt32.ofNat_add]
    congr 1
    omega
  have hold : c.regs.esp + UInt32.ofNat j = UInt32.ofNat (c.regs.esp.toNat + j) := by
    rw [UInt32.ofNat_add, UInt32.ofNat_toNat]
  rw [hnew, hold]
  exact habove.word (Nat.le_add_right _ _) hj hj

theorem saved_setWord_arg {c : Mach} {a : UInt32} (w : UInt32) (he : 16 ≤ c.regs.esp.toNat) {j : Nat}
    (hj : c.regs.esp.toNat + j + 4 ≤ 2 ^ 32) (hamax : a.toNat + 4 ≤ 2 ^ 32)
    (ha : a.toNat + 4 ≤ c.regs.esp.toNat + j ∨ c.regs.esp.toNat + j + 4 ≤ a.toNat) :
    ((saved c).setWord a w).word (UInt32.ofNat (c.regs.esp.toNat - 16) + UInt32.ofNat (16 + j)) =
      c.mem.word (c.regs.esp + UInt32.ofNat j) := by
  rw [← saved_arg he hj]
  have hnew : UInt32.ofNat (c.regs.esp.toNat - 16) + UInt32.ofNat (16 + j) =
      UInt32.ofNat (c.regs.esp.toNat + j) := by
    rw [← UInt32.ofNat_add]
    congr 1
    omega
  have hkeep := SameOn.setWord (saved c) w (a := c.regs.esp.toNat + j) (b := c.regs.esp.toNat + j + 4)
    (k := a.toNat) hamax (by omega)
  rw [UInt32.ofNat_toNat] at hkeep
  rw [hnew]
  exact hkeep.word (Nat.le_refl _) (Nat.le_refl _) hj

-- `a` is `&prev->esp` and `n` is `next->esp`, where five words lie.
theorem contextSwitch_eq {c : Mach} {n : Nat} {a ebp edi esi ebx eip : UInt32}
    (he : 16 ≤ c.regs.esp.toNat) (hmax : c.regs.esp.toNat + 12 ≤ 2 ^ 32)
    (h1 : c.mem.word (c.regs.esp + 4) = a) (h2 : c.mem.word (c.regs.esp + 8) = UInt32.ofNat n)
    (hamax : a.toNat + 4 ≤ 2 ^ 32)
    (ha : a.toNat + 4 ≤ c.regs.esp.toNat + 8 ∨ c.regs.esp.toNat + 12 ≤ a.toNat)
    (hold : Holds ((saved c).setWord a (UInt32.ofNat (c.regs.esp.toNat - 16))) n [ebp, edi, esi, ebx, eip]) :
    contextSwitch c = ⟨{ c.regs with
      eax := a, ebp := ebp, edi := edi, esi := esi, ebx := ebx, eip := eip, esp := UInt32.ofNat (n + 20) },
      (saved c).setWord a (UInt32.ofNat (c.regs.esp.toNat - 16))⟩ := by
  have hw1 : (saved c).word (UInt32.ofNat (c.regs.esp.toNat - 16) + 20) = a :=
    (saved_arg he (j := 4) (by omega)).trans h1
  have hw2 : ((saved c).setWord a (UInt32.ofNat (c.regs.esp.toNat - 16))).word
      (UInt32.ofNat (c.regs.esp.toNat - 16) + 24) = UInt32.ofNat n :=
    (saved_setWord_arg _ he (j := 8) (by omega) hamax (by omega)).trans h2
  unfold contextSwitch
  simp only [push4_eq c he, hw1, hw2, Mach.setEsp]
  exact popContext_eq rfl hold

end JacobOS.Switch
