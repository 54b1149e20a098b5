import JacobOS.Kernel.Exec
import JacobOS.Kernel.TaskRuns

/-!
# Runs of user programs

At most one user program is live at a time, and it returns to the call of `exec_user` that started it,
however the calls, the switches and the exits interleave.
-/

namespace JacobOS.Exec

open BlockProgram Cpu Fs Mem Switch Tasking

/-! ## The invariant -/

section Invariant

variable {σ : Type} (k : Code) (L : Layout)

/-- The program that `a` started in `t` can still return: `g_kreturn_esp` is where `enter_user` saved the
context, and the stack from there up is as it was. -/
structure ProgramOk (t : UInt32) (a : Activation) (m : Mem) : Prop where
  task : t ∈ L.tasks
  ktop : L.ktop t ≠ 0
  low : (L.stack t).1 + 36 + k.frame ≤ a.caller.regs.esp.toNat
  high : a.caller.regs.esp.toNat + 8 ≤ (L.stack t).2
  kreturn : m.word k.kreturnEsp = UInt32.ofNat ((k.call a.caller a.entry).regs.esp.toNat - 16)
  stack : SameOn (saved (k.call a.caller a.entry)) m ((k.call a.caller a.entry).regs.esp.toNat - 16)
    (L.stack t).2

structure Inv (w : Sys σ) : Prop where
  sched : ∃ exits, Tasking.Inv w.sched L.tasks exits
  ktop : ∀ t, (w.sched.tasks t).kstackTop = L.ktop t
  ring3 : ∀ t, w.ring3 t = true → w.progs t ≠ []
  live : (w.userRunning = 0 ∧ ∀ t, w.progs t = []) ∨
    (w.userRunning = 1 ∧ ∃ t a, w.progs = Function.update (fun _ => []) t [a] ∧ ProgramOk k L t a w.mach.mem)

variable {k L} {t : UInt32} {a : Activation} {m m' : Mem}

namespace ProgramOk

theorem fits (h : ProgramOk k L t a m) (hL : Apart k L) : Fits k.frame 4 a.caller := by
  have hlow := h.low
  have hhigh := h.high
  have hlt := hL.stack_lt t h.task
  exact ⟨by omega, by omega⟩

theorem congr (h : ProgramOk k L t a m) (hL : Apart k L)
    (hm : ∀ x, In (L.stack t) x ∨ KreturnEsp k x → m' x = m x) : ProgramOk k L t a m' := by
  have hlow := h.low
  have hcall := (k.calls a.caller a.entry (h.fits hL)).1.low
  refine ⟨h.task, h.ktop, h.low, h.high, ?_, ?_⟩
  · have hsame : SameOn m m' k.kreturnEsp.toNat (k.kreturnEsp.toNat + 4) := fun x h1 h2 => hm x (Or.inr ⟨h1, h2⟩)
    have hword := hsame.word (Nat.le_refl _) (Nat.le_refl _) hL.kreturn_lt
    rw [UInt32.ofNat_toNat] at hword
    exact hword.trans h.kreturn
  · intro x h1 h2
    rw [hm x (Or.inl ⟨by omega, h2⟩)]
    exact h.stack x h1 h2

end ProgramOk

-- A ring-0 stack, the kernel's data and the user window are apart from what the program returns through.
theorem Apart.kstack (hL : Apart k L) (ht : t ∈ L.tasks) {u : UInt32} (hu : u ∈ L.tasks) {x : UInt32}
    (hx : In (L.stack t) x ∨ KreturnEsp k x) : ¬ In (L.kstack u) x := by
  rcases hx with hx | hx
  · exact ((hL.stack t ht x hx).2.2.2 u hu).2.2.1
  · exact ((hL.kreturn x hx).2.2 u hu).2.2

theorem Apart.kdata (hL : Apart k L) (ht : t ∈ L.tasks) {x : UInt32}
    (hx : In (L.stack t) x ∨ KreturnEsp k x) : ¬ k.kdata x := by
  rcases hx with hx | hx
  · exact (hL.stack t ht x hx).1
  · exact (hL.kreturn x hx).1

theorem Apart.kreturn_stack (hL : Apart k L) (ht : t ∈ L.tasks) (hne : (L.stack t).1 < (L.stack t).2) :
    k.kreturnEsp.toNat + 4 ≤ (L.stack t).1 ∨ (L.stack t).2 ≤ k.kreturnEsp.toNat := by
  have hlt := hL.stack_lt t ht
  have hmax := hL.kreturn_lt
  by_contra hover
  -- the higher of the two starts lies in both
  have hx : (UInt32.ofNat (max k.kreturnEsp.toNat (L.stack t).1)).toNat = max k.kreturnEsp.toNat (L.stack t).1 :=
    Kheap.toNat_ofNat (by omega)
  refine (hL.stack t ht (UInt32.ofNat (max k.kreturnEsp.toNat (L.stack t).1)) ?_).2.2.1 ?_
  · unfold In
    omega
  · unfold KreturnEsp
    omega

theorem Apart.scratch (hL : Apart k L) (ht : t ∈ L.tasks) {u : UInt32} (hu : u ∈ L.tasks) {x : UInt32}
    (hx : In (L.stack t) x ∨ KreturnEsp k x) : ¬ Scratch k L (Function.update (fun _ => []) t [a]) u x := by
  rintro (hkd | hpriv | hrec | huse)
  · exact hL.kdata ht hx hkd
  · rcases hx with hx | hx
    · exact ((hL.stack t ht x hx).2.2.2 u hu).1 hpriv
    · exact ((hL.kreturn x hx).2.2 u hu).1 hpriv
  · rcases hx with hx | hx
    · exact ((hL.stack t ht x hx).2.2.2 u hu).2.1 hrec
    · exact ((hL.kreturn x hx).2.2 u hu).2.1 hrec
  · unfold Layout.inUse at huse
    by_cases hut : u = t
    · subst hut
      rw [Function.update_self] at huse
      exact hL.kstack ht hu hx huse
    · rw [Function.update_of_ne hut] at huse
      rcases hx with hx | hx
      · exact ((hL.stack t ht x hx).2.2.2 u hu).2.2.2 hut huse
      · exact (hL.stack u hu x huse).2.2.1 hx

end Invariant

/-! ## The steps -/

theorem eq_of_update_ne_nil {t u : UInt32} {a : Activation}
    (h : Function.update (fun _ => []) t [a] u ≠ []) : u = t := by
  by_contra hne
  exact h (Function.update_of_ne hne ..)

-- A change of ring is one of the current task.
theorem ring3_update {ring3 : UInt32 → Bool} {c : UInt32} {b : Bool} {P : UInt32 → Prop} (hc : b = true → P c)
    (hother : ∀ t, t ≠ c → ring3 t = true → P t) :
    ∀ t, Function.update ring3 c b t = true → P t := by
  intro t ht
  by_cases htc : t = c
  · rw [htc] at ht ⊢
    rw [Function.update_self] at ht
    exact hc ht
  · rw [Function.update_of_ne htc] at ht
    exact hother t htc ht

section Steps

variable {σ : Type} {k : Code} {L : Layout} {D : Device Nat Block σ} {heapHead : UInt32} {w w' : Sys σ}

namespace Inv

theorem current_mem (h : Inv k L w) : w.sched.current ∈ L.tasks := by
  obtain ⟨exits, hsched⟩ := h.sched
  exact hsched.mem

-- The stack in the TSS is that of the current task.
theorem esp0_eq (h : Inv k L w) : w.sched.esp0 = L.ktop w.sched.current := by
  obtain ⟨exits, hsched⟩ := h.sched
  rw [hsched.esp0, h.ktop]

/-- A task in ring 3 runs the one program there is. -/
theorem program (h : Inv k L w) (hprog : w.progs w.sched.current ≠ []) :
    ∃ a, w.userRunning = 1 ∧ w.progs = Function.update (fun _ => []) w.sched.current [a] ∧
      ProgramOk k L w.sched.current a w.mach.mem := by
  rcases h.live with ⟨-, hnone⟩ | ⟨hrun, t, a, hprogs, hok⟩
  · exact absurd (hnone _) hprog
  · rw [hprogs] at hprog
    have ht := eq_of_update_ne_nil hprog
    exact ⟨a, hrun, by rw [ht]; exact hprogs, by rw [ht]; exact hok⟩

/-- Nothing but memory apart from what the program returns through changes. -/
theorem live_of_mem (h : Inv k L w) (hL : Apart k L) {m : Mem}
    (hm : ∀ t a, w.progs = Function.update (fun _ => []) t [a] → t ∈ L.tasks →
      ∀ x, In (L.stack t) x ∨ KreturnEsp k x → m x = w.mach.mem x) :
    (w.userRunning = 0 ∧ ∀ t, w.progs t = []) ∨
      (w.userRunning = 1 ∧ ∃ t a, w.progs = Function.update (fun _ => []) t [a] ∧ ProgramOk k L t a m) := by
  rcases h.live with hnone | ⟨hrun, t, a, hprogs, hok⟩
  · exact Or.inl hnone
  · exact Or.inr ⟨hrun, t, a, hprogs, hok.congr hL (hm t a hprogs hok.task)⟩

theorem fits (h : Inv k L w) (hL : Apart k L) (hfits : ExecFits k L w) : Fits k.frame 4 w.mach := by
  obtain ⟨h1, h2⟩ := hfits
  have hmax : (L.inUse w.progs w.sched.current).2 ≤ 2 ^ 32 := by
    unfold Layout.inUse
    split
    · exact Nat.le_of_lt (hL.stack_lt _ h.current_mem)
    · exact Nat.le_of_lt (L.ktop w.sched.current).toNat_lt
  exact ⟨by omega, by omega⟩

-- A call that returns -1 writes no more than other code of the kernel.
theorem writes_inUse (hfits : ExecFits k L w) {x : UInt32}
    (hx : Writes k.kdata k.frame 4 w.mach.regs.esp.toNat x) :
    k.kdata x ∨ In (L.inUse w.progs w.sched.current) x := by
  obtain ⟨h1, h2⟩ := hfits
  rcases hx with hx | ⟨ha, hb⟩ | ⟨ha, hb⟩
  · exact Or.inl hx
  · exact Or.inr ⟨by omega, by omega⟩
  · exact Or.inr ⟨by omega, by omega⟩

-- Neither the user window nor `g_kreturn_esp` is among it.
theorem writes_apart (h : Inv k L w) (hL : Apart k L) (hfits : ExecFits k L w) {x : UInt32}
    (hx : Writes k.kdata k.frame 4 w.mach.regs.esp.toNat x) : ¬ (Syscall.InWindow x ∨ KreturnEsp k x) := by
  have hcur := h.current_mem
  intro hout
  rcases writes_inUse hfits hx with hkd | hin
  · rcases hout with hwin | hkret
    · exact (hL.window x hwin).1 hkd
    · exact (hL.kreturn x hkret).1 hkd
  · unfold Layout.inUse at hin
    split at hin
    · obtain ⟨-, hwin, hkret, -⟩ := hL.stack _ hcur x hin
      exact hout.elim hwin hkret
    · rcases hout with hwin | hkret
      · exact (hL.window x hwin).2 _ hcur hin
      · exact ((hL.kreturn x hkret).2.2 _ hcur).2.2 hin

/-- While a program is live, `exec_user` does nothing but return -1. -/
theorem execUser_refuses (hrun : w.userRunning = 1) (kstackTop : UInt32) (inode : Nat) :
    execUser D heapHead w.userRunning kstackTop inode w.fs w.mach.mem = some (none, w.fs, w.mach.mem) := by
  unfold execUser
  rw [hrun, if_pos (by decide)]

end Inv

/-- The task that is current resumes with the registers and the stack of the call `a`, which returns
`code`. -/
structure ExitsTo (k : Code) (L : Layout) (t : UInt32) (a : Activation) (code : UInt32) (r : Mach) : Prop where
  eax : r.regs.eax = code
  eip : r.regs.eip = a.caller.top
  esp : r.regs.esp = a.caller.regs.esp + 4
  ebx : r.regs.ebx = a.caller.regs.ebx
  esi : r.regs.esi = a.caller.regs.esi
  edi : r.regs.edi = a.caller.regs.edi
  ebp : r.regs.ebp = a.caller.regs.ebp
  stack : SameOn a.caller.mem r.mem (a.caller.regs.esp.toNat + 8) (L.stack t).2

/-- `leave_user` takes the kernel back to the call that started the program. -/
theorem ProgramOk.exits (hL : Apart k L) {t : UInt32} {a : Activation} {s : Mach}
    (h : ProgramOk k L t a s.mem) (code : UInt32) :
    ExitsTo k L t a code (k.back code (leaveUser (k.onExit s (L.ktop t) (s.mem.word k.kreturnEsp)))) := by
  have hroom := hL.kroom t h.task h.ktop
  obtain ⟨harg, hmem⟩ := k.exits s (L.ktop t) (s.mem.word k.kreturnEsp) (by omega)
  set e := k.onExit s (L.ktop t) (s.mem.word k.kreturnEsp) with he
  have hkeep : ∀ x, In (L.stack t) x ∨ KreturnEsp k x → e.mem x = s.mem x := by
    intro x hx
    refine hmem x (hL.kdata h.task hx) ?_
    rintro ⟨h1, h2⟩
    exact hL.kstack h.task h.task hx ⟨by show L.klo t ≤ x.toNat; omega, h2⟩
  have hok := h.congr hL hkeep
  obtain ⟨hcall, hsp, -⟩ := k.calls a.caller a.entry (h.fits hL)
  have hcl := hcall.low
  have hlow := h.low
  have hhigh := h.high
  have hlt := hL.stack_lt t h.task
  obtain ⟨hold, hres⟩ := saved_resumed (s := a.caller) (c := k.call a.caller a.entry) (by omega) (by omega)
    (by omega) (Nat.le_of_lt hlt) hok.stack
  have hleave := leaveUser_eq (harg.trans h.kreturn) hold
  have hresumed : Resumed a.caller (k.call a.caller a.entry) (leaveUser e) := by
    refine hres _ ?_ ?_ ?_ ?_ ?_ ?_ ?_ <;> rw [hleave]
  obtain ⟨hret, heax⟩ := k.returns a.caller a.entry (leaveUser e) code (h.fits hL) hresumed
  refine ⟨heax, hret.eip, hret.esp, hret.ebx, hret.esi, hret.edi, hret.ebp, ?_⟩
  -- down to `enter_user`, through the pushes, over the time of the program, and up again
  obtain ⟨-, -, habove⟩ := saved_spec (k.call a.caller a.entry) (by omega)
  have hkd : ∀ x : UInt32, a.caller.regs.esp.toNat + 4 + 4 ≤ x.toNat → x.toNat < (L.stack t).2 → ¬ k.kdata x :=
    fun x h1 h2 => hL.kdata h.task (Or.inl ⟨by omega, h2⟩)
  have hup := sameOn_above hkd hret.mem
  rw [show (leaveUser e).mem = e.mem by rw [hleave]] at hup
  exact (((sameOn_above hkd hcall.mem).trans (habove.mono (by omega) (Nat.le_of_lt hlt))).trans
    (hok.stack.mono (by omega) (Nat.le_refl _))).trans hup

namespace Inv

/-- The start of a program. -/
theorem enter (h : Inv k L w) (hL : Apart k L) {inode : Nat} {entry : UInt32} {fs : σ} {m : Mem}
    (hfits : ExecFits k L w)
    (hrun : execUser D heapHead w.userRunning (w.sched.tasks w.sched.current).kstackTop inode w.fs
      w.mach.mem = some (some entry, fs, m)) :
    (∀ t, w.progs t = []) ∧
      ProgramOk k L w.sched.current ⟨⟨w.mach.regs, m⟩, entry⟩ (enterUser (k.call ⟨w.mach.regs, m⟩ entry)).mem := by
  unfold execUser at hrun
  by_cases hr : w.userRunning ≠ 0
  · rw [if_pos hr] at hrun
    cases hrun
  · rw [if_neg hr] at hrun
    by_cases hk : (w.sched.tasks w.sched.current).kstackTop = 0
    · rw [if_pos hk] at hrun
      cases hrun
    · rw [h.ktop] at hk
      have hnone : ∀ t, w.progs t = [] := by
        rcases h.live with ⟨-, hnone⟩ | ⟨hone, -⟩
        · exact hnone
        · rw [hone] at hr
          exact absurd (by decide) hr
      have hcur := h.current_mem
      have hlt := hL.stack_lt _ hcur
      have hfit : Fits k.frame 4 ⟨w.mach.regs, m⟩ := h.fits hL hfits
      obtain ⟨h1, h2⟩ := hfits
      have huse : L.inUse w.progs w.sched.current = L.stack w.sched.current := by
        unfold Layout.inUse
        rw [hnone]
        rfl
      rw [huse] at h1 h2
      obtain ⟨hcall, hsp, harg3⟩ := k.calls ⟨w.mach.regs, m⟩ entry hfit
      have hcl := hcall.low
      dsimp only at hcl hsp
      have hapart := hL.kreturn_stack hcur (by omega)
      obtain ⟨-, -, -, hword, hsame⟩ := enterUser_spec (by omega) (by omega) hcall.arg1 hcall.arg2 harg3
        hL.kreturn_lt (by omega)
      exact ⟨hnone, hcur, hk, h1, h2, hword, hsame _ (by omega) (Nat.le_of_lt hlt)⟩

-- A trap from ring 3 lands on the ring-0 stack of the task.
theorem trap_mem (h : Inv k L w) (hL : Apart k L) (hring : w.ring3 w.sched.current = true)
    (ss esp eflags cs eip : UInt32) {x : UInt32} (hx : In (L.stack w.sched.current) x ∨ KreturnEsp k x) :
    (w.mach.mem.pushWords w.sched.esp0 [ss, esp, eflags, cs, eip]).1 x = w.mach.mem x := by
  have hcur := h.current_mem
  obtain ⟨a, -, -, hok⟩ := h.program (h.ring3 _ hring)
  have hroom := hL.kroom _ hcur hok.ktop
  have htrap := hL.trap
  have hlt := (L.ktop w.sched.current).toNat_lt
  rw [h.esp0_eq]
  obtain ⟨-, -, hlow, hhigh⟩ := pushWords_spec w.mach.mem [ss, esp, eflags, cs, eip]
    (n := (L.ktop w.sched.current).toNat) (by simp; omega) (by omega)
  have hlen : 4 * [ss, esp, eflags, cs, eip].length = 20 := rfl
  rw [UInt32.ofNat_toNat, hlen] at hlow
  rw [UInt32.ofNat_toNat] at hhigh
  apply hlow.outside hhigh
  rintro ⟨h1, h2⟩
  exact hL.kstack hcur hcur hx ⟨by show L.klo w.sched.current ≤ x.toNat; omega, h2⟩

theorem after_switch (h : Inv k L w) {s : Sched} {c : Option (UInt32 × UInt32)}
    (hrun : schedule w.sched = some (s, c)) : (∃ exits, Tasking.Inv s L.tasks exits) ∧
      (∀ t, (s.tasks t).kstackTop = L.ktop t) ∧ s.current ∈ L.tasks := by
  obtain ⟨exits, hsched⟩ := h.sched
  rcases hsched.schedule with hrun' | ⟨next, hnext, -, -, hrun', hinv⟩
  · obtain ⟨rfl, -⟩ := Prod.mk.inj (Option.some.inj (hrun'.symm.trans hrun))
    exact ⟨h.sched, h.ktop, h.current_mem⟩
  · obtain ⟨rfl, -⟩ := Prod.mk.inj (Option.some.inj (hrun'.symm.trans hrun))
    refine ⟨⟨exits, hinv⟩, fun t => ?_, hnext⟩
    rw [Sched.switchTo_kstackTop]
    exact h.ktop t

-- A call that is refused leaves alone what the program returns through.
theorem fail_live (h : Inv k L w) (hL : Apart k L) (hfits : ExecFits k L w) {inode : Nat} {fs : σ} {m : Mem}
    (hrun : execUser D heapHead w.userRunning (w.sched.tasks w.sched.current).kstackTop inode w.fs
      w.mach.mem = some (none, fs, m)) :
    (w.userRunning = 0 ∧ ∀ t, w.progs t = []) ∨ (w.userRunning = 1 ∧ ∃ t a,
      w.progs = Function.update (fun _ => []) t [a] ∧ ProgramOk k L t a (k.fail ⟨w.mach.regs, m⟩).mem) := by
  rcases h.live with hnone | ⟨hone, t, a, hprogs, hok⟩
  · exact Or.inl hnone
  · rw [execUser_refuses hone] at hrun
    obtain ⟨-, hrest⟩ := Prod.mk.inj (Option.some.inj hrun)
    obtain ⟨-, rfl⟩ := Prod.mk.inj hrest
    refine Or.inr ⟨hone, t, a, hprogs, hok.congr hL fun x hx => ?_⟩
    apply (k.fails w.mach (h.fits hL hfits)).1.mem
    intro hw
    have hscratch : Scratch k L w.progs w.sched.current x :=
      (writes_inUse hfits hw).imp_right fun hin => Or.inr (Or.inr hin)
    rw [hprogs] at hscratch
    exact hL.scratch hok.task h.current_mem hx hscratch

theorem step {e : Event} (h : Inv k L w) (hL : Apart k L) (hst : Step k L D heapHead w e w') : Inv k L w' := by
  have hcur := h.current_mem
  cases hst with
  | user hring hmem =>
    refine ⟨h.sched, h.ktop, h.ring3, h.live_of_mem hL fun t a _ ht x hx => hmem x ?_⟩
    rcases hx with hx | hx
    · exact (hL.stack t ht x hx).2.1
    · exact (hL.kreturn x hx).2.1
  | @trap _ ss esp eflags cs eip hring hmem =>
    obtain ⟨a, hrun, hprogs, hok⟩ := h.program (h.ring3 _ hring)
    refine ⟨h.sched, h.ktop, ring3_update (fun hb => ?_) fun t _ => h.ring3 t,
      Or.inr ⟨hrun, w.sched.current, a, hprogs, ?_⟩⟩
    · cases hb
    · dsimp only
      rw [hmem]
      exact hok.congr hL fun x hx => h.trap_mem hL hring ss esp eflags cs eip hx
  | kernel hring hmem =>
    refine ⟨h.sched, h.ktop, h.ring3, h.live_of_mem hL fun t a hprogs ht x hx => hmem x ?_⟩
    rw [hprogs]
    exact hL.scratch ht hcur hx
  | iret hring hprog hmem =>
    exact ⟨h.sched, h.ktop, ring3_update (fun _ => hprog) fun t _ => h.ring3 t,
      h.live_of_mem hL fun t a _ _ x _ => by rw [hmem]⟩
  | switch hring hrun hmem =>
    obtain ⟨hsched, hktop, hnext⟩ := h.after_switch hrun
    refine ⟨hsched, hktop, h.ring3, h.live_of_mem hL fun t a hprogs ht x hx => hmem x ?_ ?_⟩
    · rw [hprogs]
      exact hL.scratch ht hcur hx
    · rw [hprogs]
      exact hL.scratch ht hnext hx
  | execFail hring hfits hrun => exact ⟨h.sched, h.ktop, h.ring3, h.fail_live hL hfits hrun⟩
  | @execEnter inode entry fs m hring hfits hrun =>
    obtain ⟨hnone, hok⟩ := h.enter hL hfits hrun
    obtain ⟨exits, hsched⟩ := h.sched
    refine ⟨⟨exits, ⟨hsched.ring, hsched.mem, hsched.running, hsched.alive, rfl, hsched.on, hsched.dead⟩⟩, h.ktop,
      ring3_update ?_ ?_, Or.inr ⟨rfl, w.sched.current, _, ?_, hok⟩⟩
    · intro _
      dsimp only
      rw [Function.update_self]
      exact List.cons_ne_nil _ _
    · intro t htc ht
      dsimp only
      rw [Function.update_of_ne htc]
      exact h.ring3 t ht
    · dsimp only
      rw [hnone, show w.progs = fun _ => [] from funext hnone]
  | sysExit hring hcall =>
    obtain ⟨a, hrun, hprogs, hok⟩ := h.program (h.ring3 _ hring)
    have hnone : ∀ t, Function.update w.progs w.sched.current (w.progs w.sched.current).tail t = [] := by
      intro t
      by_cases htc : t = w.sched.current
      · rw [htc, Function.update_self, hprogs, Function.update_self]
        rfl
      · rw [Function.update_of_ne htc, hprogs, Function.update_of_ne htc]
    refine ⟨h.sched, h.ktop, ring3_update (fun hb => ?_) fun t htc ht => ?_, Or.inl ⟨rfl, hnone⟩⟩
    · cases hb
    · have hp := h.ring3 t ht
      rw [hprogs] at hp
      exact absurd (eq_of_update_ne_nil hp) htc

end Inv

theorem inv_reached (hL : Apart k L) (h : Reached k L D heapHead w) : Inv k L w := by
  induction h with
  | init h hall hktop r fs code =>
    have hinv := (worldInv_reached h).inv
    rw [← hall] at hinv
    refine ⟨⟨_, hinv⟩, hktop, ?_, Or.inl ⟨rfl, fun _ => rfl⟩⟩
    intro t ht
    cases ht
  | step _ hst ih => exact ih.step hL hst

/-! ## One program at a time -/

/-- A call of `exec_user` that returned -1 and left the user window and the variables of `exec.c` alone. -/
structure Refused (k : Code) (w w' : Sys σ) : Prop where
  ret : Returns k.kdata k.frame 4 w.mach w.mach w'.mach
  eax : w'.mach.regs.eax = 0xFFFFFFFF
  window : ∀ x, Syscall.InWindow x → w'.mach.mem x = w.mach.mem x
  kreturnEsp : w'.mach.mem.word k.kreturnEsp = w.mach.mem.word k.kreturnEsp
  exitCode : w'.exitCode = w.exitCode
  userRunning : w'.userRunning = w.userRunning
  progs : w'.progs = w.progs
  sched : w'.sched = w.sched
  fs : w'.fs = w.fs

structure OneProgram (k : Code) (L : Layout) (D : Device Nat Block σ) (heapHead : UInt32) (w : Sys σ) : Prop where
  /-- At most one task has a live program, and it has one. -/
  task : ∀ t u, w.progs t ≠ [] → w.progs u ≠ [] → t = u
  single : ∀ t, (w.progs t).length ≤ 1
  flag : w.userRunning = 0 ∨ w.userRunning = 1
  running : w.userRunning = 1 ↔ ∃ t, w.progs t ≠ []
  refused : w.userRunning = 1 → ∀ inode w', Step k L D heapHead w (.exec inode) w' → Refused k w w'
  refuses : w.userRunning = 1 → w.ring3 w.sched.current = false → ExecFits k L w →
    ∀ inode, ∃ w', Step k L D heapHead w (.exec inode) w'
  /-- In ring 3 the program exits by `SYS_EXIT` in `eax`, with the code in `ebx`, and in no other way. -/
  exits : w.ring3 w.sched.current = true → ∀ code, (∃ w', Step k L D heapHead w (.sysExit code) w') ↔
    w.mach.regs.eax = Syscall.sysExit ∧ code = w.mach.regs.ebx
  /-- `SYS_EXIT` returns the code from the call of `exec_user` that started the program. -/
  exit : ∀ code w', Step k L D heapHead w (.sysExit code) w' →
    ∃ a, w.progs w.sched.current = [a] ∧ w'.progs w.sched.current = [] ∧ w'.sched = w.sched ∧
      w'.userRunning = 0 ∧ w'.exitCode = code ∧ ExitsTo k L w.sched.current a code w'.mach

theorem Inv.refused (h : Inv k L w) (hL : Apart k L) (hone : w.userRunning = 1) {inode : Nat}
    (hst : Step k L D heapHead w (.exec inode) w') : Refused k w w' := by
  have hcur := h.current_mem
  cases hst with
  | execFail hring hfits hrun =>
    rw [Inv.execUser_refuses hone] at hrun
    obtain ⟨-, hrest⟩ := Prod.mk.inj (Option.some.inj hrun)
    obtain ⟨hfs, rfl⟩ := Prod.mk.inj hrest
    obtain ⟨hret, heax⟩ := k.fails w.mach (h.fits hL hfits)
    have hout := fun x hw => h.writes_apart hL hfits (x := x) hw
    refine ⟨hret, heax, ?_, ?_, rfl, rfl, rfl, rfl, hfs.symm⟩
    · intro x hx
      exact hret.mem x fun hw => hout x hw (Or.inl hx)
    · have hsame : SameOn w.mach.mem (k.fail w.mach).mem k.kreturnEsp.toNat (k.kreturnEsp.toNat + 4) :=
        fun x h1 h2 => hret.mem x fun hw => hout x hw (Or.inr ⟨h1, h2⟩)
      have hword := hsame.word (Nat.le_refl _) (Nat.le_refl _) hL.kreturn_lt
      rwa [UInt32.ofNat_toNat] at hword
  | execEnter hring hfits hrun =>
    rw [Inv.execUser_refuses hone] at hrun
    cases hrun

-- The handler decides on the registers alone.
theorem Inv.exits_iff (hring : w.ring3 w.sched.current = true) {code : UInt32} :
    (∃ w', Step k L D heapHead w (.sysExit code) w') ↔
      w.mach.regs.eax = Syscall.sysExit ∧ code = w.mach.regs.ebx := by
  constructor
  · rintro ⟨w', hst⟩
    cases hst with
    | sysExit _ hcall => exact Syscall.shown_exited_iff.mp hcall
  · intro hcall
    exact ⟨_, .sysExit hring (Syscall.shown_exited_iff.mpr hcall)⟩

theorem Inv.exit (h : Inv k L w) (hL : Apart k L) {code : UInt32}
    (hst : Step k L D heapHead w (.sysExit code) w') :
    ∃ a, w.progs w.sched.current = [a] ∧ w'.progs w.sched.current = [] ∧ w'.sched = w.sched ∧
      w'.userRunning = 0 ∧ w'.exitCode = code ∧ ExitsTo k L w.sched.current a code w'.mach := by
  cases hst with
  | sysExit hring hcall =>
    obtain ⟨a, -, hprogs, hok⟩ := h.program (h.ring3 _ hring)
    have hone : w.progs w.sched.current = [a] := by rw [hprogs, Function.update_self]
    refine ⟨a, hone, ?_, rfl, rfl, rfl, ?_⟩
    · dsimp only
      rw [Function.update_self, hone]
      rfl
    · dsimp only
      rw [h.esp0_eq]
      exact hok.exits hL code

/-- At most one user program, whatever the interleaving, and it returns to its own caller. -/
theorem one_program (hL : Apart k L) (h : Reached k L D heapHead w) : OneProgram k L D heapHead w := by
  have hinv := inv_reached hL h
  refine
    { task := ?_, single := ?_, flag := ?_, running := ?_
      refused := fun hone inode w' hst => hinv.refused hL hone hst
      refuses := fun hone hring hfits inode => ⟨_, .execFail hring hfits (Inv.execUser_refuses hone _ inode)⟩
      exits := fun hring code => Inv.exits_iff hring
      exit := fun code w' hst => hinv.exit hL hst }
  · intro t u ht hu
    rcases hinv.live with ⟨-, hnone⟩ | ⟨-, v, a, hprogs, -⟩
    · exact absurd (hnone t) ht
    · rw [hprogs] at ht hu
      rw [eq_of_update_ne_nil ht, eq_of_update_ne_nil hu]
  · intro t
    rcases hinv.live with ⟨-, hnone⟩ | ⟨-, v, a, hprogs, -⟩
    · rw [hnone]
      exact Nat.zero_le _
    · rw [hprogs]
      by_cases htv : t = v
      · rw [htv, Function.update_self]
        exact Nat.le_refl _
      · rw [Function.update_of_ne htv]
        exact Nat.zero_le _
  · rcases hinv.live with ⟨hrun, -⟩ | ⟨hrun, -⟩
    · exact Or.inl hrun
    · exact Or.inr hrun
  · rcases hinv.live with ⟨hrun, hnone⟩ | ⟨hrun, v, a, hprogs, -⟩
    · constructor
      · intro hone
        rw [hrun] at hone
        exact absurd hone (by decide)
      · rintro ⟨t, ht⟩
        exact absurd (hnone t) ht
    · refine ⟨fun _ => ⟨v, ?_⟩, fun _ => hrun⟩
      rw [hprogs, Function.update_self]
      exact List.cons_ne_nil _ _

end Steps

/-! ### A program that runs -/

section Plain

def plainFrame (s : Mach) (entry : UInt32) : Mem × UInt32 :=
  s.mem.pushWords s.regs.esp [0x20000, userStackTop, entry, 0x3000]

/-- `add esp, 12` and `ret`. -/
def plainReturn (code : UInt32) (s : Mach) : Mach :=
  (s.addEsp 12).pop fun w r => { r with eip := w, eax := code }

def plainExit (s : Mach) (esp0 esp : UInt32) : Mach :=
  ⟨{ s.regs with esp := (s.mem.pushWords esp0 [esp, 0]).2 }, (s.mem.pushWords esp0 [esp, 0]).1⟩

variable {s : Mach}

theorem plainFrame_spec (entry : UInt32) (h : Fits 16 4 s) :
    (plainFrame s entry).2 = UInt32.ofNat (s.regs.esp.toNat - 16) ∧
      (plainFrame s entry).2.toNat = s.regs.esp.toNat - 16 ∧
      Holds (plainFrame s entry).1 (s.regs.esp.toNat - 16) [0x3000, entry, userStackTop, 0x20000] ∧
      SameOn s.mem (plainFrame s entry).1 0 (s.regs.esp.toNat - 16) ∧
      SameOn s.mem (plainFrame s entry).1 s.regs.esp.toNat (2 ^ 32) := by
  obtain ⟨h1, h2⟩ := h
  obtain ⟨hend, hold, hlow, hhigh⟩ := pushWords_spec s.mem [0x20000, userStackTop, entry, 0x3000]
    (n := s.regs.esp.toNat) h1 (by omega)
  rw [UInt32.ofNat_toNat] at hend hold hlow hhigh
  refine ⟨hend, ?_, hold, hlow, hhigh⟩
  unfold plainFrame
  rw [hend]
  exact Kheap.toNat_ofNat (by omega)

/-- Code that pushes the arguments and the return address and nothing else. -/
def plainCode : Code where
  kdata _ := False
  frame := 16
  exitFrame := 20
  enterRet := 0x3000
  kreturnEsp := 0x20000
  call s entry := ⟨{ s.regs with esp := (plainFrame s entry).2 }, (plainFrame s entry).1⟩
  back := plainReturn
  fail s := s.pop fun w r => { r with eip := w, eax := 0xFFFFFFFF }
  onExit := plainExit
  calls s entry h := by
    obtain ⟨hend, hnat, ⟨hra, ha, hb, hc, -⟩, hlow, hhigh⟩ := plainFrame_spec entry h
    obtain ⟨h1, h2⟩ := h
    refine ⟨⟨?_, ?_, ?_, ?_, ?_, ?_⟩, ?_, ?_⟩
    · exact Nat.le_of_eq hnat.symm
    · show (plainFrame s entry).2.toNat + 12 ≤ s.regs.esp.toNat
      omega
    · show (plainFrame s entry).1.word (plainFrame s entry).2 = 0x3000
      rw [hend]
      exact hra
    · show (plainFrame s entry).1.word ((plainFrame s entry).2 + 4) = entry
      rw [hend, Kheap.ofNat_add4]
      exact ha
    · show (plainFrame s entry).1.word ((plainFrame s entry).2 + 8) = userStackTop
      rw [hend, Kheap.ofNat_add8]
      exact hb
    · intro x hx
      exact hlow.outside hhigh fun hin => hx (Or.inr (Or.inl hin))
    · show (plainFrame s entry).2.toNat + 16 ≤ s.regs.esp.toNat
      omega
    · show (plainFrame s entry).1.word ((plainFrame s entry).2 + 12) = 0x20000
      rw [hend, show (12 : UInt32) = 8 + 4 from rfl, ← UInt32.add_assoc, Kheap.ofNat_add8, Kheap.ofNat_add4]
      exact hc
  returns s entry t code h hres := by
    obtain ⟨hend, hnat, -, -, hhigh⟩ := plainFrame_spec entry h
    obtain ⟨h1, h2⟩ := h
    have hcall : t.regs.esp = (plainFrame s entry).2 + 4 := hres.esp
    have hesp : t.regs.esp + 12 = s.regs.esp := by
      rw [hcall, hend, show (12 : UInt32) = 8 + 4 from rfl, ← UInt32.add_assoc, Kheap.ofNat_add4,
        Kheap.ofNat_add8, Kheap.ofNat_add4, show s.regs.esp.toNat - 16 + 4 + 8 + 4 = s.regs.esp.toNat by omega,
        UInt32.ofNat_toNat]
    refine ⟨⟨?_, ?_, hres.ebx, hres.esi, hres.edi, hres.ebp, fun _ _ => rfl⟩, rfl⟩
    · show t.mem.word (t.regs.esp + 12) = s.mem.word s.regs.esp
      rw [hesp]
      have hkept : SameOn (plainFrame s entry).1 t.mem ((plainFrame s entry).2.toNat + 4) (s.regs.esp.toNat + 4) :=
        hres.mem
      have hthere := hkept.word (k := s.regs.esp.toNat) (by omega) (by omega) (by omega)
      have habove := hhigh.word (k := s.regs.esp.toNat) (Nat.le_refl _) (by omega) (by omega)
      rw [UInt32.ofNat_toNat] at hthere habove
      exact hthere.trans habove
    · show t.regs.esp + 12 + 4 = s.regs.esp + 4
      rw [hesp]
  fails s h := ⟨⟨rfl, rfl, rfl, rfl, rfl, rfl, fun _ _ => rfl⟩, rfl⟩
  exits s esp0 esp h := by
    have hlt := esp0.toNat_lt
    obtain ⟨hend, ⟨-, hold, -⟩, hlow, hhigh⟩ := pushWords_spec s.mem [esp, 0] (n := esp0.toNat)
      (by simp; omega) (by omega)
    rw [UInt32.ofNat_toNat] at hend hold hlow hhigh
    constructor
    · show (s.mem.pushWords esp0 [esp, 0]).1.word ((s.mem.pushWords esp0 [esp, 0]).2 + 4) = esp
      rw [hend, Kheap.ofNat_add4]
      exact hold
    · intro x _ hx
      apply hlow.outside hhigh
      rintro ⟨h1, h2⟩
      exact hx ⟨by simp at h1; omega, h2⟩

/-- A disk whose inode 1 is a file that holds a program. -/
def programDisk : Nat → Block
  | 1 => Block.zero.setInode 1 ⟨sfsFile, 84, #v[16, 0, 0, 0, 0, 0, 0, 0, 0, 0, 0, 0, 0, 0]⟩
  | 16 => Block.zero.blit 0 84 fun i => (Elf.oneSegment Elf.userBase 32).getD i 0
  | _ => Block.zero

/-- The initial task, its two stacks and no memory of its own. -/
def firstTask (s : Sched) : Layout :=
  ⟨[s.current], fun _ => (0x80000, 0x90000), fun _ => 0x400058, fun t => (s.tasks t).kstackTop, fun _ _ => False⟩

def inKernel : Mach :=
  ⟨⟨1, 2, 3, 4, 5, 6, 7, 0x8FF00, 0x100000, 2, 8, 16, 16, 16, 16⟩, (Kheap.kheapInit fun _ => 0).mem⟩

theorem firstTask_apart {s : Sched} (hcur : s.current = 0x40000C)
    (hktop : (s.tasks s.current).kstackTop = 0x402050) : Apart plainCode (firstTask s) := by
  have htop : ((s.tasks s.current).kstackTop).toNat = 0x402050 := by rw [hktop]; rfl
  have hrec : s.current.toNat = 0x40000C := by rw [hcur]; rfl
  have hbase : Syscall.userBase.toNat = 0x800000 := rfl
  have hkret : plainCode.kreturnEsp.toNat = 0x20000 := rfl
  have hwin : ∀ {x : UInt32}, x.toNat < 0x800000 → ¬ Syscall.InWindow x := by
    rintro x hx ⟨hlo, -⟩
    have hle := UInt32.le_iff_toNat_le.mp hlo
    omega
  have honly : ∀ {t : UInt32}, t ∈ (firstTask s).tasks → t = s.current := fun ht => List.mem_singleton.mp ht
  refine
    { stack_lt := fun _ _ => (by decide : 0x90000 < 2 ^ 32)
      kreturn_lt := by decide
      kroom := ?_
      trap := Nat.le_refl _
      stack := ?_
      kreturn := ?_
      window := ?_ }
  · intro t ht _
    obtain rfl := honly ht
    show 0x400058 + 20 ≤ ((s.tasks s.current).kstackTop).toNat
    omega
  · rintro t ht x ⟨h1, h2⟩
    change 0x80000 ≤ x.toNat at h1
    change x.toNat < 0x90000 at h2
    refine ⟨id, hwin (by omega), fun hk => ?_, fun u hu => ?_⟩
    · obtain ⟨ha, hb⟩ := hk
      omega
    · obtain rfl := honly hu
      obtain rfl := honly ht
      refine ⟨id, fun hr => ?_, fun hk => ?_, fun hne => absurd rfl hne⟩
      · obtain ⟨ha, hb⟩ := hr
        omega
      · obtain ⟨ha, hb⟩ := hk
        change 0x400058 ≤ x.toNat at ha
        omega
  · rintro x ⟨h1, h2⟩
    refine ⟨id, hwin (by omega), fun u hu => ?_⟩
    obtain rfl := honly hu
    refine ⟨id, fun hr => ?_, fun hk => ?_⟩
    · obtain ⟨ha, hb⟩ := hr
      omega
    · obtain ⟨ha, hb⟩ := hk
      change 0x400058 ≤ x.toNat at ha
      omega
  · intro x hx
    refine ⟨id, fun u hu hk => hwin ?_ hx⟩
    obtain rfl := honly hu
    obtain ⟨ha, hb⟩ := hk
    change x.toNat < ((s.tasks s.current).kstackTop).toNat at hb
    omega

end Plain

/-- The registers of the program at its `int 0x80`. -/
def exiting : Regs := ⟨Syscall.sysExit, 7, 0, 0, 0, 0, 0, userStackTop, 0x800008, 0x202, 0x1B, 0x23, 0x23, 0x23, 0x23⟩

-- A program is started, runs and exits with code 7.
theorem one_program_live : ∃ (L : Layout) (w w' : Sys (Nat → Block)) (a : Activation), Apart plainCode L ∧
    Reached plainCode L flat 0x400000 w ∧ w.userRunning = 1 ∧ OneProgram plainCode L flat 0x400000 w ∧
    Step plainCode L flat 0x400000 w (.sysExit 7) w' ∧ w.progs w.sched.current = [a] ∧
    ExitsTo plainCode L w.sched.current a 7 w'.mach := by
  have hboot : (taskingInit ⟨Kheap.kheapInit fun _ => 0, []⟩
      ⟨fun _ => ⟨0, 0, 0, 0, [], .dead, 0, 0⟩, 0, 0, 0, false, 0⟩).map
        (fun x => (x.2.current, (x.2.tasks x.2.current).kstackTop)) = some (0x40000C, 0x402050) := by
    decide +kernel
  obtain ⟨⟨h, s⟩, hinit, hs⟩ := Option.map_eq_some_iff.mp hboot
  obtain ⟨hcur, hktop⟩ := Prod.mk.inj hs
  have hload : (execUser flat 0x400000 0 0x402050 1 programDisk inKernel.mem).map (·.1) =
      some (some Elf.userBase) := by
    decide +kernel
  obtain ⟨⟨-, fs, m⟩, hrun, rfl⟩ := Option.map_eq_some_iff.mp hload
  have hL := firstTask_apart hcur hktop
  have hfirst : Reached plainCode (firstTask s) flat 0x400000
      ⟨inKernel, s, programDisk, 0, 0, fun _ => [], fun _ => false⟩ :=
    .init (.init .init hinit : Tasking.Reached _ ⟨0x1000, 0x2000⟩ _) rfl (fun _ => rfl) _ _ _
  have hfits : ExecFits plainCode (firstTask s)
      (⟨inKernel, s, programDisk, 0, 0, fun _ => [], fun _ => false⟩ : Sys (Nat → Block)) := by
    show 0x80000 + 36 + 16 ≤ 0x8FF00 ∧ 0x8FF00 + 8 ≤ 0x90000
    decide
  rw [← hktop] at hrun
  have henter := Reached.step hfirst (.execEnter rfl hfits hrun)
  -- the program moves SYS_EXIT to eax and 7 to ebx
  have hring := Function.update_self s.current true fun _ => false
  have hreach := Reached.step henter (.user (r := ⟨exiting, _⟩) hring fun _ _ => rfl)
  have hone := one_program hL hreach
  obtain ⟨w', hexit⟩ := (hone.exits hring 7).mpr ⟨rfl, rfl⟩
  obtain ⟨a, hprogs, -, -, -, -, hback⟩ := hone.exit 7 w' hexit
  exact ⟨_, _, w', a, hL, hreach, rfl, hone, hexit, hprogs, hback⟩

end JacobOS.Exec
