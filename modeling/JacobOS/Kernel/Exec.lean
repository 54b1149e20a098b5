import JacobOS.Cpu.Syscall
import JacobOS.Fs.Sfs
import JacobOS.Kernel.Elf
import JacobOS.Kernel.TaskRuns
import JacobOS.Kernel.Usermode

/-!
# User programs: `kernel/exec.c`

`exec_user` loads a file into the user window and enters it in ring 3; `SYS_EXIT` makes it return the
exit code.  In between the task that called it may be preempted, and other tasks, or the keyboard
interrupting the program itself, may call it again.

A run interleaves the tasks.  `exec_user` up to `enter_user`, `SYS_EXIT` and a context switch are one
step each.  `g_kreturn_esp` is a word of memory, since `enter_user` gets its address; the other variables
of `exec.c` and those of `task.c` are state of their own.
-/

namespace JacobOS.Exec

open BlockProgram Cpu Fs Mem Switch Tasking

def userStackTop : UInt32 := 0xC00000
def maxUserFile : UInt32 := 14 * 512

/-- Bytes stored from `a` on. -/
def storeBytes (m : Mem) (a : UInt32) : List UInt8 → Mem
  | [] => m
  | c :: cs => storeBytes (Function.update m a c) (a + 1) cs

section Load

variable {σ : Type} (D : Device Nat Block σ) (heapHead : UInt32)

/-- `exec_user` from its first look at the file to the end of the load: the entry point, if all goes well,
and what became of the file system and the memory. -/
def loadUser (inode : Nat) (fs : σ) (m : Mem) : Option (Option UInt32 × σ × Mem) := do
  let (type, fs) := (sfsType inode).run D fs
  if type ≠ sfsFile then return (none, fs, m)
  let (sz, fs) := (sfsSize inode).run D fs
  if sz = 0 ∨ sz > maxUserFile then return (none, fs, m)
  let (buf, h) ← Kheap.kmalloc sz ⟨m, heapHead⟩
  if buf = 0 then return (none, fs, h.mem)
  let (data, fs) := (sfsRead inode sz.toNat).run D fs
  let m := storeBytes h.mem buf data
  let (entry, s) := Elf.elfLoad buf (UInt32.ofNat data.length) (.start m)
  let h ← Kheap.kfree buf ⟨s.mem, heapHead⟩
  return (entry, fs, h.mem)

/-- `exec_user` up to the call of `enter_user`: the entry point, or nothing where it returns -1. -/
def execUser (userRunning kstackTop : UInt32) (inode : Nat) (fs : σ) (m : Mem) :
    Option (Option UInt32 × σ × Mem) :=
  -- one program at a time
  if userRunning ≠ 0 then some (none, fs, m)
  -- no ring-0 stack for its traps to land on
  else if kstackTop = 0 then some (none, fs, m)
  else loadUser D heapHead inode fs m

end Load

/-! ## Compiled code -/

/-- The compiled `exec_user` and `exec_on_exit`. -/
structure Code where
  kdata : UInt32 → Prop
  /-- Stack below the return address of `exec_user`, and below the top of a ring-0 stack on the way from
  `int 0x80` to `leave_user`. -/
  frame : Nat
  exitFrame : Nat
  /-- After the call of `enter_user`. -/
  enterRet : UInt32
  /-- `&g_kreturn_esp`. -/
  kreturnEsp : UInt32
  /-- `exec_user` up to its call `enter_user(entry, USER_STACK_TOP, &g_kreturn_esp)`. -/
  call : Mach → UInt32 → Mach
  /-- The rest of `exec_user`, with `g_exit_code`. -/
  back : UInt32 → Mach → Mach
  /-- `exec_user` where it returns -1. -/
  fail : Mach → Mach
  /-- From `int 0x80` with the ring-0 stack `esp0` to the call `leave_user(esp)` in `exec_on_exit`. -/
  onExit : Mach → UInt32 → UInt32 → Mach
  calls : ∀ s entry, Fits frame 4 s →
    Calls kdata frame 4 enterRet s (call s entry) entry userStackTop ∧
      (call s entry).regs.esp.toNat + 16 ≤ s.regs.esp.toNat ∧
      (call s entry).mem.word ((call s entry).regs.esp + 12) = kreturnEsp
  returns : ∀ s entry t code, Fits frame 4 s → Resumed s (call s entry) t →
    Returns kdata frame 4 s t (back code t) ∧ (back code t).regs.eax = code
  fails : ∀ s, Fits frame 4 s → Returns kdata frame 4 s s (fail s) ∧ (fail s).regs.eax = 0xFFFFFFFF
  exits : ∀ s esp0 esp, exitFrame ≤ esp0.toNat →
    (onExit s esp0 esp).mem.word ((onExit s esp0 esp).regs.esp + 4) = esp ∧
      ∀ x, ¬ kdata x → ¬ (esp0.toNat - exitFrame ≤ x.toNat ∧ x.toNat < esp0.toNat) →
        (onExit s esp0 esp).mem x = s.mem x

/-! ## Runs -/

/-- A call of `exec_user` whose program has not exited: the machine when the program was loaded, with the
registers of the call, and the program's entry point. -/
structure Activation where
  caller : Mach
  entry : UInt32

structure Sys (σ : Type) where
  mach : Mach
  sched : Sched
  fs : σ
  /-- `g_exit_code`. -/
  exitCode : UInt32
  /-- `g_user_running`. -/
  userRunning : UInt32
  /-- The programs of each task that have not exited, the latest first. -/
  progs : UInt32 → List Activation
  /-- Whether the task is in ring 3. -/
  ring3 : UInt32 → Bool

/-- The stacks of the tasks, and what else they may write. -/
structure Layout where
  tasks : List UInt32
  stack : UInt32 → Nat × Nat
  /-- Where the ring-0 stack starts; `ktop` is its `kstack_top`. -/
  klo : UInt32 → Nat
  ktop : UInt32 → UInt32
  priv : UInt32 → UInt32 → Prop

def In (r : Nat × Nat) (x : UInt32) : Prop := r.1 ≤ x.toNat ∧ x.toNat < r.2

namespace Layout

variable (L : Layout)

def kstack (t : UInt32) : Nat × Nat := (L.klo t, (L.ktop t).toNat)

/-- The stack that the kernel's code runs on: a task that has entered a program is in a trap from it. -/
def inUse (progs : UInt32 → List Activation) (t : UInt32) : Nat × Nat :=
  if (progs t).isEmpty then L.stack t else L.kstack t

end Layout

/-- The bytes of `t->esp`. -/
def Record (t x : UInt32) : Prop := t.toNat ≤ x.toNat ∧ x.toNat < t.toNat + 4

section Runs

variable {σ : Type} (k : Code) (L : Layout)

/-- What the kernel's code may write while it runs in task `t`. -/
def Scratch (progs : UInt32 → List Activation) (t x : UInt32) : Prop :=
  k.kdata x ∨ L.priv t x ∨ Record t x ∨ In (L.inUse progs t) x

def KreturnEsp (x : UInt32) : Prop := k.kreturnEsp.toNat ≤ x.toNat ∧ x.toNat < k.kreturnEsp.toNat + 4

/-- The stacks, the user window and `g_kreturn_esp` are apart, and a ring-0 stack has room for a trap. -/
structure Apart : Prop where
  stack_lt : ∀ t ∈ L.tasks, (L.stack t).2 < 2 ^ 32
  kreturn_lt : k.kreturnEsp.toNat + 4 ≤ 2 ^ 32
  kroom : ∀ t ∈ L.tasks, L.ktop t ≠ 0 → L.klo t + k.exitFrame ≤ (L.ktop t).toNat
  trap : 20 ≤ k.exitFrame
  stack : ∀ t ∈ L.tasks, ∀ x, In (L.stack t) x → ¬ k.kdata x ∧ ¬ Syscall.InWindow x ∧ ¬ KreturnEsp k x ∧
    ∀ u ∈ L.tasks, ¬ L.priv u x ∧ ¬ Record u x ∧ ¬ In (L.kstack u) x ∧ (u ≠ t → ¬ In (L.stack u) x)
  kreturn : ∀ x, KreturnEsp k x → ¬ k.kdata x ∧ ¬ Syscall.InWindow x ∧
    ∀ u ∈ L.tasks, ¬ L.priv u x ∧ ¬ Record u x ∧ ¬ In (L.kstack u) x
  window : ∀ x, Syscall.InWindow x → ¬ k.kdata x ∧ ∀ u ∈ L.tasks, ¬ In (L.kstack u) x

/-- There is room for a call of `exec_user` on the stack in use. -/
def ExecFits (w : Sys σ) : Prop :=
  (L.inUse w.progs w.sched.current).1 + 36 + k.frame ≤ w.mach.regs.esp.toNat ∧
    w.mach.regs.esp.toNat + 8 ≤ (L.inUse w.progs w.sched.current).2

inductive Event where
  | exec (inode : Nat)
  | sysExit (code : UInt32)
  | other

variable (D : Device Nat Block σ) (heapHead : UInt32)

inductive Step : Sys σ → Event → Sys σ → Prop where
  -- the program runs in ring 3
  | user {w : Sys σ} {r : Mach} (hring : w.ring3 w.sched.current = true)
      (hmem : ∀ x, ¬ Syscall.InWindow x → r.mem x = w.mach.mem x) : Step w .other { w with mach := r }
  -- a system call or an interrupt takes it to ring 0, on the stack in the TSS
  | trap {w : Sys σ} {r : Mach} {ss esp eflags cs eip : UInt32} (hring : w.ring3 w.sched.current = true)
      (hmem : r.mem = (w.mach.mem.pushWords w.sched.esp0 [ss, esp, eflags, cs, eip]).1) :
      Step w .other { w with mach := r, ring3 := Function.update w.ring3 w.sched.current false }
  -- the kernel runs in the current task
  | kernel {w : Sys σ} {r : Mach} {fs : σ} (hring : w.ring3 w.sched.current = false)
      (hmem : ∀ x, ¬ Scratch k L w.progs w.sched.current x → r.mem x = w.mach.mem x) :
      Step w .other { w with mach := r, fs := fs }
  -- the trap returns to ring 3
  | iret {w : Sys σ} {r : Mach} (hring : w.ring3 w.sched.current = false)
      (hprog : w.progs w.sched.current ≠ []) (hmem : r.mem = w.mach.mem) :
      Step w .other { w with mach := r, ring3 := Function.update w.ring3 w.sched.current true }
  -- the timer or SYS_YIELD
  | switch {w : Sys σ} {r : Mach} {s : Sched} {c : Option (UInt32 × UInt32)}
      (hring : w.ring3 w.sched.current = false) (hrun : schedule w.sched = some (s, c))
      (hmem : ∀ x, ¬ Scratch k L w.progs w.sched.current x → ¬ Scratch k L w.progs s.current x →
        r.mem x = w.mach.mem x) : Step w .other { w with mach := r, sched := s }
  | execFail {w : Sys σ} {inode : Nat} {fs : σ} {m : Mem} (hring : w.ring3 w.sched.current = false)
      (hfits : ExecFits k L w)
      (hrun : execUser D heapHead w.userRunning (w.sched.tasks w.sched.current).kstackTop inode w.fs
        w.mach.mem = some (none, fs, m)) :
      Step w (.exec inode) { w with mach := k.fail ⟨w.mach.regs, m⟩, fs := fs }
  | execEnter {w : Sys σ} {inode : Nat} {entry : UInt32} {fs : σ} {m : Mem}
      (hring : w.ring3 w.sched.current = false) (hfits : ExecFits k L w)
      (hrun : execUser D heapHead w.userRunning (w.sched.tasks w.sched.current).kstackTop inode w.fs
        w.mach.mem = some (some entry, fs, m)) :
      Step w (.exec inode) { w with
        mach := enterUser (k.call ⟨w.mach.regs, m⟩ entry)
        sched := { w.sched with esp0 := (w.sched.tasks w.sched.current).kstackTop }
        fs := fs
        exitCode := 0xFFFFFFFF
        userRunning := 1
        progs := Function.update w.progs w.sched.current
          (⟨⟨w.mach.regs, m⟩, entry⟩ :: w.progs w.sched.current)
        ring3 := Function.update w.ring3 w.sched.current true }
  -- `exec_on_exit`, `leave_user`, and the rest of the `exec_user` it returns to
  | sysExit {w : Sys σ} {code : UInt32} (hring : w.ring3 w.sched.current = true)
      (hcall : (Syscall.shown ⟨w.mach.regs.eax, w.mach.regs.ebx, w.mach.regs.ecx⟩ w.mach.mem).2 =
        .exited code) :
      Step w (.sysExit code) { w with
        mach := k.back code
          (leaveUser (k.onExit w.mach w.sched.esp0 (w.mach.mem.word k.kreturnEsp)))
        exitCode := code
        userRunning := 0
        progs := Function.update w.progs w.sched.current (w.progs w.sched.current).tail
        ring3 := Function.update w.ring3 w.sched.current false }

/-- `w` is reached from a state of the scheduler in which no program has been started. -/
inductive Reached : Sys σ → Prop where
  | init {m : Mem} {fn : Entries} {w : World} (h : Tasking.Reached m fn w) (hall : L.tasks = w.all)
      (hktop : ∀ t, (w.sched.tasks t).kstackTop = L.ktop t) (r : Mach) (fs : σ) (code : UInt32) :
      Reached ⟨r, w.sched, fs, code, 0, fun _ => [], fun _ => false⟩
  | step {w w' : Sys σ} {e : Event} (h : Reached w) (hst : Step k L D heapHead w e w') : Reached w'

end Runs

end JacobOS.Exec
