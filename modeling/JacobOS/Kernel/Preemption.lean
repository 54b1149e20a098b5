import JacobOS.Kernel.Switch
import JacobOS.Kernel.TaskRuns

/-!
# Preemption

Tasks with stacks of their own run until the timer interrupts them, they yield or they end; the
scheduler then picks a task, which goes on from where it stopped.  What it finds in the registers and on
its stack is what it left there, however many tasks ran in between.
-/

namespace JacobOS.Switch

open Cpu Mem Tasking

/-! ## Runs -/

/-- Where the tasks of a run have their stacks and their private data. -/
structure Layout (k : Kernel) where
  tasks : List UInt32
  lo : UInt32 → Nat
  hi : UInt32 → Nat
  priv : UInt32 → UInt32 → Prop

namespace Layout

variable {k : Kernel} (L : Layout k)

def OnStack (t x : UInt32) : Prop := L.lo t ≤ x.toNat ∧ x.toNat < L.hi t

/-- The stack of a task, and `t->esp`. -/
def Own (t x : UInt32) : Prop := L.OnStack t x ∨ (t.toNat ≤ x.toNat ∧ x.toNat < t.toNat + 4)

/-- The stacks are apart from each other, from the records, and from what the other tasks and the kernel
write. -/
structure Disjoint : Prop where
  hi_lt : ∀ t ∈ L.tasks, L.hi t < 2 ^ 32
  record_lt : ∀ t ∈ L.tasks, t.toNat + 4 ≤ 2 ^ 32
  record : ∀ t ∈ L.tasks, t.toNat + 4 ≤ L.lo t ∨ L.hi t ≤ t.toNat
  tasks : ∀ t ∈ L.tasks, ∀ u ∈ L.tasks, t ≠ u → ∀ x, L.Own t x → ¬ L.Own u x
  kdata : ∀ t ∈ L.tasks, ∀ x, k.kdata x → ¬ L.Own t x
  priv : ∀ t ∈ L.tasks, ∀ u ∈ L.tasks, t ≠ u → ∀ x, L.priv t x → ¬ L.Own u x

end Layout

/-- How a task that is not current stopped: not started yet, interrupted in a state of the machine, or at
the entry of the `schedule` that `yield` called. -/
inductive Parked where
  | fresh
  | interrupted (s : Mach)
  | yielded (s : Mach)

structure Sys where
  mach : Mach
  sched : Sched
  all : List UInt32
  exits : Nat
  /-- How each task stopped last. -/
  parked : UInt32 → Parked

section Runs

variable (k : Kernel) (L : Layout k)

/-- The interrupt frame and the kernel's own frames fit on the stack of `t`. -/
def TickFits (t : UInt32) (s : Mach) : Prop :=
  L.lo t + 80 + k.frame ≤ s.regs.esp.toNat ∧ s.regs.esp.toNat ≤ L.hi t

def YieldFits (t : UInt32) (s : Mach) : Prop :=
  L.lo t + 16 + k.frame ≤ s.regs.esp.toNat ∧ s.regs.esp.toNat + 4 ≤ L.hi t

/-- The current task is interrupted by the timer, yields or ends, and some task goes on. -/
inductive Switches : Sys → Sys → Prop where
  | tick {w : Sys} (hif : w.mach.regs.eflags &&& 0x200 ≠ 0) (hfits : TickFits k L w.sched.current w.mach)
      {s : Sched} {c : Option (UInt32 × UInt32)} (hrun : Tasking.schedule w.sched = some (s, c)) :
      Switches w { w with
        mach := k.run k.irqHandler (irq0 k.labels w.mach) c
        sched := s
        parked := Function.update w.parked w.sched.current (.interrupted w.mach) }
  -- `yield` has turned interrupts off and is at its call of `schedule`
  | yield {w : Sys} (hret : w.mach.top = k.yieldRet) (hfits : YieldFits k L w.sched.current w.mach)
      {s : Sched} {c : Option (UInt32 × UInt32)} (hrun : Tasking.schedule w.sched = some (s, c)) :
      Switches w { w with
        mach := k.run k.schedule w.mach c
        sched := s
        parked := Function.update w.parked w.sched.current (.yielded w.mach) }
  | exit {w : Sys} (hcur : w.sched.current ≠ w.sched.head) (hfits : YieldFits k L w.sched.current w.mach)
      {s : Sched} {c : Option (UInt32 × UInt32)} (hrun : taskExit w.sched = some (s, c)) :
      Switches w { w with mach := k.run k.schedule w.mach c, sched := s, exits := w.exits + 1 }

inductive Step : Sys → Sys → Prop where
  -- the current task's code runs for a while
  | code {w : Sys} {s : Mach} (hmem : ∀ x, ¬ L.OnStack w.sched.current x → ¬ L.priv w.sched.current x →
      ¬ k.kdata x → s.mem x = w.mach.mem x) : Step w { w with mach := s }
  -- and creates a task
  | create {w : Sys} {name : List UInt8} {entry t : UInt32} {h h' : Kheap.State} {s : Sched} {r : Mach}
      (hrun : taskCreate k.fn name entry h w.sched = some (t, h', s)) (ht : t ≠ 0) (hnew : t ∉ w.all)
      (htask : t ∈ L.tasks) (hlo : L.lo t = (s.tasks t).stackBase.toNat)
      (hhi : L.hi t = (s.tasks t).stackBase.toNat + stackSize.toNat)
      (hmem : ∀ x, ¬ L.OnStack w.sched.current x → ¬ L.priv w.sched.current x → ¬ k.kdata x →
        r.mem x = initStack k.fn t (s.tasks t).stackBase w.mach.mem x) :
      Step w ⟨r, s, t :: w.all, w.exits, Function.update w.parked t .fresh⟩
  | switch {w w' : Sys} (h : Switches k L w w') : Step w w'

/-- `w` is reached from the end of `tasking_init`. -/
inductive Reached : Sys → Prop where
  | init {h h' : Kheap.State} {s s' : Sched} (hrun : taskingInit h s = some (h', s'))
      (htask : s'.current ∈ L.tasks) (r : Mach) (parked : UInt32 → Parked) :
      Reached ⟨r, s', [s'.current], 0, parked⟩
  | step {w w' : Sys} (h : Reached w) (hst : Step k L w w') : Reached w'

/-- The machine is as the task `t` needs it to go on from where it stopped. -/
def Resumes (t : UInt32) : Parked → Mach → Prop
  | .fresh, r => r.regs.eip = k.fn.taskBootstrap ∧ r.regs.esp = UInt32.ofNat (L.hi t - 4) ∧
      r.top = k.fn.taskExit
  | .interrupted s, r => r.regs = { s.regs with es := s.regs.ds, fs := s.regs.ds, gs := s.regs.ds } ∧
      SameOn s.mem r.mem s.regs.esp.toNat (L.hi t)
  | .yielded s, r => r.regs.esp = s.regs.esp + 4 ∧ r.regs.eip = s.top ∧ r.regs.ebx = s.regs.ebx ∧
      r.regs.esi = s.regs.esi ∧ r.regs.edi = s.regs.edi ∧ r.regs.ebp = s.regs.ebp ∧
      SameOn s.mem r.mem (s.regs.esp.toNat + 4) (L.hi t)

end Runs

/-! ## Tasks that are not running -/

section Parked

variable (k : Kernel) (L : Layout k)

/-- `t` stopped in the call of `context_switch` that a function entered in `s` made. -/
def Suspended {args : Nat} (f : Compiled k.kdata k.frame args k.scheduleRet k.back) (s : Mach) (t : UInt32)
    (m : Mem) : Prop :=
  ∃ b, m.word t = UInt32.ofNat ((f.call s t b).regs.esp.toNat - 16) ∧
    SameOn (saved (f.call s t b)) m ((f.call s t b).regs.esp.toNat - 16) (L.hi t)

/-- What the memory holds of a task that is not running. -/
def ParkedOk (t : UInt32) : Parked → Mem → Prop
  | .fresh, m => L.lo t + 24 ≤ L.hi t ∧ m.word t = UInt32.ofNat (L.hi t - 24) ∧
      Holds m (L.hi t - 24) [0, 0, 0, 0, k.fn.taskBootstrap, k.fn.taskExit]
  | .interrupted s, m => TickFits k L t s ∧ Suspended k L k.irqHandler (irq0 k.labels s) t m
  | .yielded s, m => YieldFits k L t s ∧ s.top = k.yieldRet ∧ Suspended k L k.schedule s t m

variable {k L}

/-- The stack of `t` has room for a function with `args` bytes of arguments that is entered in `s`. -/
def EntryFits (L : Layout k) (args : Nat) (t : UInt32) (s : Mach) : Prop :=
  L.lo t + 16 + k.frame ≤ s.regs.esp.toNat ∧ s.regs.esp.toNat + 4 + args ≤ L.hi t

section Entry

variable {args : Nat} {f : Compiled k.kdata k.frame args k.scheduleRet k.back} {s : Mach} {t : UInt32}

theorem EntryFits.fits (h : EntryFits L args t s) (hL : L.Disjoint) (ht : t ∈ L.tasks) :
    Fits k.frame args s := by
  have hhi := hL.hi_lt t ht
  obtain ⟨h1, h2⟩ := h
  exact ⟨by omega, by omega⟩

-- The function writes the kernel's data and the stack of the task.
theorem EntryFits.writes (h : EntryFits L args t s) {x : UInt32}
    (hx : Writes k.kdata k.frame args s.regs.esp.toNat x) : k.kdata x ∨ L.OnStack t x := by
  obtain ⟨h1, h2⟩ := h
  rcases hx with hx | ⟨ha, hb⟩ | ⟨ha, hb⟩
  · exact Or.inl hx
  · exact Or.inr ⟨by omega, by omega⟩
  · exact Or.inr ⟨by omega, by omega⟩

-- The stack above the arguments is not written.
theorem EntryFits.above (h : EntryFits L args t s) (hL : L.Disjoint) (ht : t ∈ L.tasks) {m m' : Mem}
    (hmem : ∀ x, ¬ Writes k.kdata k.frame args s.regs.esp.toNat x → m' x = m x) :
    SameOn m m' (s.regs.esp.toNat + 4 + args) (L.hi t) := by
  obtain ⟨h1, h2⟩ := h
  refine sameOn_above ?_ hmem
  intro x hx1 hx2 hkd
  exact hL.kdata t ht x hkd (Or.inl ⟨by omega, hx2⟩)

/-- The frame of a suspended task leads back through the compiled code. -/
theorem Suspended.back (hL : L.Disjoint) (ht : t ∈ L.tasks) (hfits : EntryFits L args t s) {m : Mem}
    (h : Suspended k L f s t m) :
    ∃ n ebp edi esi ebx, m.word t = UInt32.ofNat n ∧ Holds m n [ebp, edi, esi, ebx, k.scheduleRet] ∧
      ∀ r : Mach, r.mem = m → r.regs.esp = UInt32.ofNat (n + 20) → r.regs.eip = k.scheduleRet →
        r.regs.ebp = ebp → r.regs.edi = edi → r.regs.esi = esi → r.regs.ebx = ebx →
        Returns k.kdata k.frame args s r (k.back r) ∧
          SameOn s.mem (k.back r).mem (s.regs.esp.toNat + 4 + args) (L.hi t) := by
  obtain ⟨b, hword, hsame⟩ := h
  have hcall := f.calls s t b (hfits.fits hL ht)
  set c := f.call s t b with hc
  have hhi := hL.hi_lt t ht
  have hlow := hcall.low
  have hhigh := hcall.high
  have hroom := hfits
  obtain ⟨h1, h2⟩ := hroom
  obtain ⟨-, -, habove⟩ := saved_spec c (by omega)
  obtain ⟨hold, hres⟩ := saved_resumed (s := s) (c := c) (by omega) (by omega) (by omega) (Nat.le_of_lt hhi) hsame
  rw [hcall.ret] at hold hres
  refine ⟨c.regs.esp.toNat - 16, c.regs.ebp, c.regs.edi, c.regs.esi, c.regs.ebx, hword, hold, ?_⟩
  intro r hmem hesp heip hebp hedi hesi hebx
  have hret := f.returns s t b r (hfits.fits hL ht) (hres r hmem hesp heip hebp hedi hesi hebx)
  refine ⟨hret, ?_⟩
  have hdown := hfits.above hL ht hcall.mem
  have hup := hfits.above hL ht hret.mem
  rw [hmem] at hup
  exact ((hdown.trans (habove.mono (by omega) (by omega))).trans
    (hsame.mono (by omega) (Nat.le_refl _))).trans hup

end Entry

section Leave

variable {s e r : Mach} {t : UInt32}

theorem TickFits.entry (h : TickFits k L t s) : EntryFits L 4 t (irq0 k.labels s) := by
  obtain ⟨h1, h2⟩ := h
  have hlt := s.regs.esp.toNat_lt
  obtain ⟨hesp, -⟩ := irq0_spec k.labels s (by omega)
  unfold EntryFits
  rw [hesp, Kheap.toNat_ofNat (by omega)]
  exact ⟨by omega, by omega⟩

theorem YieldFits.entry (h : YieldFits k L t s) : EntryFits L 0 t s := h

/-- An interrupt ends, and the registers are those of the interrupted code. -/
theorem leave_interrupted (hfits : TickFits k L t s) (hL : L.Disjoint) (ht : t ∈ L.tasks)
    (hret : Returns k.kdata k.frame 4 (irq0 k.labels s) e r)
    (hmem : SameOn (irq0 k.labels s).mem r.mem ((irq0 k.labels s).regs.esp.toNat + 8) (L.hi t)) :
    Resumes k L t (.interrupted s) (k.leave r) ∧ (k.leave r).mem = r.mem := by
  obtain ⟨h1, h2⟩ := hfits
  have hhi := hL.hi_lt t ht
  obtain ⟨hesp, hold, -, habove⟩ := irq0_spec k.labels s (by omega)
  have heip : r.regs.eip = k.labels.irqRet := by
    rw [hret.eip, Mach.top, hesp]
    exact hold.1
  rw [hesp, Kheap.toNat_ofNat (by omega), show s.regs.esp.toNat - 64 + 8 = s.regs.esp.toNat - 56 by omega] at hmem
  have htail := irqTail_irq0 k.labels (t := r) (by omega) hret.esp (hmem.mono (Nat.le_refl _) h2)
  unfold Kernel.leave
  rw [if_pos heip, htail]
  exact ⟨⟨rfl, (habove.mono (Nat.le_refl _) (by omega)).trans (hmem.mono (by omega) (Nat.le_refl _))⟩, rfl⟩

theorem leave_yielded (htop : s.top = k.yieldRet) (hret : Returns k.kdata k.frame 0 s e r)
    (hmem : SameOn s.mem r.mem (s.regs.esp.toNat + 4) (L.hi t)) :
    Resumes k L t (.yielded s) (k.leave r) ∧ (k.leave r).mem = r.mem := by
  have hne : r.regs.eip ≠ k.labels.irqRet := by
    rw [hret.eip, htop]
    exact k.yield_ne
  unfold Kernel.leave
  rw [if_neg hne]
  exact ⟨⟨hret.esp, hret.eip, hret.ebx, hret.esi, hret.edi, hret.ebp, hmem⟩, rfl⟩

end Leave

/-- `context_switch` finds five words at `t->esp`, and with these in the registers the machine goes on as
`p` says and writes the stack of `t` and the kernel's data only. -/
def Continues (k : Kernel) (L : Layout k) (t : UInt32) (p : Parked) (m : Mem) : Prop :=
  ∃ n ebp edi esi ebx eip, m.word t = UInt32.ofNat n ∧ Holds m n [ebp, edi, esi, ebx, eip] ∧
    ∀ r : Mach, r.mem = m → r.regs.esp = UInt32.ofNat (n + 20) → r.regs.eip = eip →
      r.regs.ebp = ebp → r.regs.edi = edi → r.regs.esi = esi → r.regs.ebx = ebx →
      Resumes k L t p (k.resume r) ∧ ∀ x, ¬ k.kdata x → ¬ L.OnStack t x → (k.resume r).mem x = m x

theorem Suspended.continues {args : Nat} {f : Compiled k.kdata k.frame args k.scheduleRet k.back} {s : Mach}
    {t : UInt32} {p : Parked} {m : Mem} (hL : L.Disjoint) (ht : t ∈ L.tasks) (hfits : EntryFits L args t s)
    (h : Suspended k L f s t m)
    (hleave : ∀ e r, Returns k.kdata k.frame args s e r →
      SameOn s.mem r.mem (s.regs.esp.toNat + 4 + args) (L.hi t) →
      Resumes k L t p (k.leave r) ∧ (k.leave r).mem = r.mem) : Continues k L t p m := by
  obtain ⟨n, ebp, edi, esi, ebx, hword, hold, hback⟩ := h.back hL ht hfits
  refine ⟨n, ebp, edi, esi, ebx, k.scheduleRet, hword, hold, ?_⟩
  intro r hmem hesp heip hebp hedi hesi hebx
  obtain ⟨hret, hsame⟩ := hback r hmem hesp heip hebp hedi hesi hebx
  obtain ⟨hres, hkeep⟩ := hleave r (k.back r) hret hsame
  unfold Kernel.resume
  rw [if_neg (by rw [heip]; exact k.bootstrap_ne)]
  refine ⟨hres, ?_⟩
  intro x hkd hon
  rw [hkeep, hret.mem x, hmem]
  intro hw
  rcases hfits.writes hw with h | h
  · exact hkd h
  · exact hon h

theorem ParkedOk.continues {t : UInt32} {p : Parked} {m : Mem} (hL : L.Disjoint) (ht : t ∈ L.tasks)
    (h : ParkedOk k L t p m) : Continues k L t p m := by
  cases p with
  | fresh =>
    obtain ⟨hle, hword, hebp, hedi, hesi, hebx, heip, hexit, -⟩ := h
    refine ⟨L.hi t - 24, 0, 0, 0, 0, k.fn.taskBootstrap, hword, ⟨hebp, hedi, hesi, hebx, heip, trivial⟩, ?_⟩
    intro r hmem hesp heip' _ _ _ _
    unfold Kernel.resume
    rw [if_pos heip']
    rw [show L.hi t - 24 + 20 = L.hi t - 4 by omega] at hesp
    rw [show L.hi t - 24 + 4 + 4 + 4 + 4 + 4 = L.hi t - 4 by omega] at hexit
    refine ⟨⟨heip', hesp, ?_⟩, fun x _ _ => by rw [hmem]⟩
    rw [Mach.top, hmem, hesp]
    exact hexit
  | interrupted s =>
    exact h.2.continues hL ht h.1.entry fun e r hret hsame => leave_interrupted h.1 hL ht hret hsame
  | yielded s =>
    exact h.2.2.continues hL ht h.1.entry fun e r hret hsame => leave_yielded h.2.1 hret hsame

/-! ### Nobody else writes there -/

-- The word `t->esp`.
theorem word_record {t : UInt32} {m m' : Mem} (hL : L.Disjoint) (ht : t ∈ L.tasks)
    (h : ∀ x, L.Own t x → m' x = m x) : m'.word t = m.word t := by
  have hsame : SameOn m m' t.toNat (t.toNat + 4) := fun x h1 h2 => h x (Or.inr ⟨h1, h2⟩)
  have hword := hsame.word (Nat.le_refl _) (Nat.le_refl _) (hL.record_lt t ht)
  rwa [UInt32.ofNat_toNat] at hword

theorem Suspended.congr {args : Nat} {f : Compiled k.kdata k.frame args k.scheduleRet k.back} {s : Mach}
    {t : UInt32} {m m' : Mem} (hL : L.Disjoint) (ht : t ∈ L.tasks) (hfits : EntryFits L args t s)
    (h : Suspended k L f s t m) (hm : ∀ x, L.Own t x → m' x = m x) : Suspended k L f s t m' := by
  obtain ⟨b, hword, hsame⟩ := h
  have hlow := (f.calls s t b (hfits.fits hL ht)).low
  have hroom := hfits.1
  refine ⟨b, (word_record hL ht hm).trans hword, ?_⟩
  intro x h1 h2
  rw [hm x (Or.inl ⟨by omega, h2⟩)]
  exact hsame x h1 h2

theorem ParkedOk.congr {t : UInt32} {p : Parked} {m m' : Mem} (hL : L.Disjoint) (ht : t ∈ L.tasks)
    (h : ParkedOk k L t p m) (hm : ∀ x, L.Own t x → m' x = m x) : ParkedOk k L t p m' := by
  cases p with
  | fresh =>
    obtain ⟨hle, hword, hold⟩ := h
    have hhi := hL.hi_lt t ht
    refine ⟨hle, (word_record hL ht hm).trans hword, hold.congr ?_ (by simp; omega)⟩
    intro x h1 h2
    have hlen : L.hi t - 24 + 24 = L.hi t := by omega
    exact hm x (Or.inl ⟨by omega, by simpa [hlen] using h2⟩)
  | interrupted s => exact ⟨h.1, h.2.congr hL ht h.1.entry hm⟩
  | yielded s => exact ⟨h.1, h.2.1, h.2.2.congr hL ht h.1.entry hm⟩

section Out

variable {args : Nat} {f : Compiled k.kdata k.frame args k.scheduleRet k.back} {s : Mach}
  {prev : UInt32} {b : UInt32}

/-- The memory when `context_switch` has stored `prev->esp`. -/
def switchedOut (f : Compiled k.kdata k.frame args k.scheduleRet k.back) (s : Mach) (prev b : UInt32) : Mem :=
  (saved (f.call s prev b)).setWord prev (UInt32.ofNat ((f.call s prev b).regs.esp.toNat - 16))

-- Up to there only the kernel's data and what belongs to `prev` are written.
theorem switchedOut_other (hL : L.Disjoint) (hp : prev ∈ L.tasks) (hfits : EntryFits L args prev s) {x : UInt32}
    (hkd : ¬ k.kdata x) (hown : ¬ L.Own prev x) : switchedOut f s prev b x = s.mem x := by
  have hcall := f.calls s prev b (hfits.fits hL hp)
  have hlow := hcall.low
  have hhigh := hcall.high
  have hrec := hL.record_lt prev hp
  obtain ⟨hout1, hout2⟩ := not_or.mp hown
  have hw : ¬ Writes k.kdata k.frame args s.regs.esp.toNat x := by
    intro hw
    rcases hfits.writes hw with h | h
    · exact hkd h
    · exact hout1 h
  obtain ⟨h1, h2⟩ := hfits
  obtain ⟨-, hbelow, habove⟩ := saved_spec (f.call s prev b) (by omega)
  have hstore := SameOn.setWord (saved (f.call s prev b))
    (UInt32.ofNat ((f.call s prev b).regs.esp.toNat - 16)) (a := x.toNat) (b := x.toNat + 1) hrec (by omega)
  rw [UInt32.ofNat_toNat] at hstore
  have hpush : saved (f.call s prev b) x = (f.call s prev b).mem x := by
    by_cases hx : x.toNat < (f.call s prev b).regs.esp.toNat - 16
    · exact hbelow x (Nat.zero_le _) hx
    · apply habove x _ x.toNat_lt
      by_contra hlt
      exact hout1 ⟨by omega, by omega⟩
  rw [switchedOut, hstore x (Nat.le_refl _) (Nat.lt_succ_self _), hpush, hcall.mem x hw]

theorem switchedOut_suspended (hL : L.Disjoint) (hp : prev ∈ L.tasks) (hfits : EntryFits L args prev s) :
    Suspended k L f s prev (switchedOut f s prev b) := by
  have hcall := f.calls s prev b (hfits.fits hL hp)
  have hlow := hcall.low
  have hrec := hL.record_lt prev hp
  have hapart := hL.record prev hp
  obtain ⟨h1, h2⟩ := hfits
  refine ⟨b, word_setWord .., ?_⟩
  have hstore := SameOn.setWord (saved (f.call s prev b))
    (UInt32.ofNat ((f.call s prev b).regs.esp.toNat - 16)) (a := (f.call s prev b).regs.esp.toNat - 16)
    (b := L.hi prev) hrec (by omega)
  rw [UInt32.ofNat_toNat] at hstore
  exact hstore

/-- One switch: `next` goes on from where it stopped, `prev` is suspended, and nothing of the other tasks
changes. -/
theorem run_some {next : UInt32} {p : Parked} (hL : L.Disjoint) (hp : prev ∈ L.tasks) (hn : next ∈ L.tasks)
    (hne : next ≠ prev) (hfits : EntryFits L args prev s) (hpark : ParkedOk k L next p s.mem) :
    Resumes k L next p (k.run f s (some (prev, next))) ∧
      Suspended k L f s prev (k.run f s (some (prev, next))).mem ∧
      ∀ u ∈ L.tasks, u ≠ prev → u ≠ next → ∀ x, L.Own u x →
        (k.run f s (some (prev, next))).mem x = s.mem x := by
  have hcall := f.calls s prev (s.mem.word next) (hfits.fits hL hp)
  have hlow := hcall.low
  have hhigh := hcall.high
  have hhi := hL.hi_lt prev hp
  have hrec := hL.record prev hp
  have hout : ∀ u ∈ L.tasks, u ≠ prev → ∀ x, L.Own u x →
      switchedOut f s prev (s.mem.word next) x = s.mem x := by
    intro u hu hup x hx
    exact switchedOut_other hL hp hfits (fun hkd => hL.kdata u hu x hkd hx) (hL.tasks u hu prev hp hup x hx)
  obtain ⟨n, ebp, edi, esi, ebx, eip, hword, hold, hcont⟩ :=
    (hpark.congr hL hn (hout next hn hne)).continues hL hn
  rw [word_record hL hn (hout next hn hne)] at hword
  have hroom := hfits
  obtain ⟨h1, h2⟩ := hroom
  have hswitch := contextSwitch_eq (c := f.call s prev (s.mem.word next)) (by omega) (by omega) hcall.arg1
    (hcall.arg2.trans hword) (hL.record_lt prev hp) (by omega) hold
  have hrun : k.run f s (some (prev, next)) =
      k.resume (contextSwitch (f.call s prev (s.mem.word next))) := rfl
  rw [hrun]
  obtain ⟨hres, hkeep⟩ := hcont (contextSwitch (f.call s prev (s.mem.word next))) (by rw [hswitch]; rfl)
    (by rw [hswitch]) (by rw [hswitch]) (by rw [hswitch]) (by rw [hswitch]) (by rw [hswitch]) (by rw [hswitch])
  refine ⟨hres, ?_, ?_⟩
  · refine (switchedOut_suspended (b := s.mem.word next) hL hp hfits).congr hL hp hfits fun x hx => ?_
    exact hkeep x (fun hkd => hL.kdata prev hp x hkd hx)
      fun hon => hL.tasks next hn prev hp hne x (Or.inl hon) hx
  · intro u hu hup hun x hx
    rw [hkeep x (fun hkd => hL.kdata u hu x hkd hx)
      fun hon => hL.tasks next hn u hu (Ne.symm hun) x (Or.inl hon) hx]
    exact hout u hu hup x hx

/-- Nothing to switch to: the function returns to the same task. -/
theorem run_none {p : Parked} (hL : L.Disjoint) (hp : prev ∈ L.tasks) (hfits : EntryFits L args prev s)
    (hleave : ∀ e r, Returns k.kdata k.frame args s e r →
      SameOn s.mem r.mem (s.regs.esp.toNat + 4 + args) (L.hi prev) →
      Resumes k L prev p (k.leave r) ∧ (k.leave r).mem = r.mem) :
    Resumes k L prev p (k.run f s none) ∧
      ∀ u ∈ L.tasks, u ≠ prev → ∀ x, L.Own u x → (k.run f s none).mem x = s.mem x := by
  have hret := f.skips s (hfits.fits hL hp)
  obtain ⟨hres, hmem⟩ := hleave s (f.skip s) hret (hfits.above hL hp hret.mem)
  have hrun : k.run f s none = k.leave (f.skip s) := rfl
  rw [hrun]
  refine ⟨hres, ?_⟩
  intro u hu hup x hx
  rw [hmem]
  apply hret.mem
  intro hw
  rcases hfits.writes hw with hkd | hon
  · exact hL.kdata u hu x hkd hx
  · exact hL.tasks prev hp u hu (Ne.symm hup) x (Or.inl hon) hx

end Out

end Parked

/-! ## The invariant of a run -/

structure SysInv (k : Kernel) (L : Layout k) (w : Sys) : Prop where
  inv : Inv w.sched w.all w.exits
  tasks : ∀ t ∈ w.all, t ∈ L.tasks
  parked : ∀ t ∈ w.all, t ≠ w.sched.current → w.sched.isDead t = false →
    ParkedOk k L t (w.parked t) w.mach.mem

section NewTask

variable {k : Kernel} {L : Layout k} {t stack : UInt32}

/-- The stack that `task_create` builds. -/
theorem initStack_spec (hL : L.Disjoint) (ht : t ∈ L.tasks) (hlo : L.lo t = stack.toNat)
    (hhi : L.hi t = stack.toNat + stackSize.toNat) (m : Mem) :
    ParkedOk k L t .fresh (initStack k.fn t stack m) ∧
      ∀ x, ¬ L.Own t x → initStack k.fn t stack m x = m x := by
  have hS : stackSize.toNat = 16384 := rfl
  have hmax := hL.hi_lt t ht
  have hrec := hL.record_lt t ht
  have hapart := hL.record t ht
  have hsp : stack + stackSize = UInt32.ofNat (L.hi t) := by
    rw [hhi, UInt32.ofNat_add, UInt32.ofNat_toNat, UInt32.ofNat_toNat]
  obtain ⟨hend, hold, hlow, hhigh⟩ := pushWords_spec m
    [k.fn.taskExit, k.fn.taskBootstrap, 0, 0, 0, 0] (n := L.hi t) (by simp; omega) (by omega)
  have hlen : 4 * [k.fn.taskExit, k.fn.taskBootstrap, 0, 0, 0, 0].length = 24 := rfl
  rw [hlen] at hend hold hlow
  have hinit : initStack k.fn t stack m = (m.pushWords (UInt32.ofNat (L.hi t))
      [k.fn.taskExit, k.fn.taskBootstrap, 0, 0, 0, 0]).1.setWord t (UInt32.ofNat (L.hi t - 24)) := by
    unfold initStack
    dsimp only
    rw [hsp, hend]
  set m1 := (m.pushWords (UInt32.ofNat (L.hi t)) [k.fn.taskExit, k.fn.taskBootstrap, 0, 0, 0, 0]).1 with hm1
  have hstore : ∀ a b, b ≤ t.toNat ∨ t.toNat + 4 ≤ a →
      SameOn m1 (m1.setWord t (UInt32.ofNat (L.hi t - 24))) a b := by
    intro a b hd
    have hs := SameOn.setWord m1 (UInt32.ofNat (L.hi t - 24)) (a := a) (b := b) hrec hd
    rwa [UInt32.ofNat_toNat] at hs
  rw [hinit]
  refine ⟨⟨by omega, word_setWord .., ?_⟩, ?_⟩
  · exact hold.congr (hstore _ _ (by simp; omega)) (by simp; omega)
  · intro x hx
    obtain ⟨hx1, hx2⟩ := not_or.mp hx
    rw [hstore x.toNat (x.toNat + 1) (by omega) x (Nat.le_refl _) (Nat.lt_succ_self _)]
    apply hlow.outside hhigh
    rintro ⟨h1, h2⟩
    exact hx1 ⟨by omega, by omega⟩

end NewTask

namespace SysInv

variable {k : Kernel} {L : Layout k} {w w' : Sys}

/-- The current task enters a function and stops in the call of `schedule` it makes, if it does, as `p`. -/
theorem schedule {args : Nat} {f : Compiled k.kdata k.frame args k.scheduleRet k.back} {s : Mach} {p : Parked}
    (hL : L.Disjoint) (h : SysInv k L w) (hfits : EntryFits L args w.sched.current s)
    (hs : ∀ x, ¬ L.OnStack w.sched.current x → s.mem x = w.mach.mem x)
    (hleave : ∀ e r, Returns k.kdata k.frame args s e r →
      SameOn s.mem r.mem (s.regs.esp.toNat + 4 + args) (L.hi w.sched.current) →
      Resumes k L w.sched.current p (k.leave r) ∧ (k.leave r).mem = r.mem)
    (hok : ∀ m, Suspended k L f s w.sched.current m → ParkedOk k L w.sched.current p m)
    {s' : Sched} {c : Option (UInt32 × UInt32)} (hrun : Tasking.schedule w.sched = some (s', c)) :
    SysInv k L ⟨k.run f s c, s', w.all, w.exits, Function.update w.parked w.sched.current p⟩ ∧
      Resumes k L s'.current (Function.update w.parked w.sched.current p s'.current) (k.run f s c) := by
  have hcur := h.tasks _ h.inv.mem
  have hentry : ∀ u ∈ L.tasks, u ≠ w.sched.current → ∀ x, L.Own u x → s.mem x = w.mach.mem x :=
    fun u hu huc x hx => hs x fun hon => hL.tasks _ hcur u hu (Ne.symm huc) x (Or.inl hon) hx
  rcases h.inv.schedule with hrun' | ⟨next, hnext, hne, hlive, hrun', hinv⟩
  · obtain ⟨rfl, rfl⟩ := Prod.mk.inj (Option.some.inj (hrun'.symm.trans hrun))
    obtain ⟨hres, hmem⟩ := run_none (f := f) hL hcur hfits hleave
    rw [Function.update_self]
    refine ⟨⟨h.inv, h.tasks, ?_⟩, hres⟩
    intro t ht htc hd
    dsimp only
    rw [Function.update_of_ne htc]
    refine (h.parked t ht htc hd).congr hL (h.tasks t ht) fun x hx => ?_
    rw [hmem t (h.tasks t ht) htc x hx, hentry t (h.tasks t ht) htc x hx]
  · obtain ⟨rfl, rfl⟩ := Prod.mk.inj (Option.some.inj (hrun'.symm.trans hrun))
    have hn := h.tasks next hnext
    have hpark := (h.parked next hnext hne hlive).congr hL hn (hentry next hn hne)
    obtain ⟨hres, hsus, hmem⟩ := run_some (f := f) hL hcur hn hne hfits hpark
    rw [Sched.switchTo_current, Function.update_of_ne hne]
    refine ⟨⟨hinv, h.tasks, ?_⟩, hres⟩
    intro t ht htn hd
    dsimp only at htn hd ⊢
    rw [switchTo_isDead hlive] at hd
    by_cases htc : t = w.sched.current
    · subst htc
      rw [Function.update_self]
      exact hok _ hsus
    · rw [Function.update_of_ne htc]
      refine (h.parked t ht htc hd).congr hL (h.tasks t ht) fun x hx => ?_
      rw [hmem t (h.tasks t ht) htc htn x hx, hentry t (h.tasks t ht) htc x hx]

/-- The current task ends, and the next one goes on. -/
theorem exit {s : Sched} {c : Option (UInt32 × UInt32)} (hL : L.Disjoint) (h : SysInv k L w)
    (hfits : YieldFits k L w.sched.current w.mach) (hcur : w.sched.current ≠ w.sched.head)
    (hrun : taskExit w.sched = some (s, c)) :
    SysInv k L { w with mach := k.run k.schedule w.mach c, sched := s, exits := w.exits + 1 } ∧
      Resumes k L s.current (w.parked s.current) (k.run k.schedule w.mach c) := by
  obtain ⟨s', next, hrun', hnext, hne, hlive, hcurrent, -, hdead, hinv⟩ := h.inv.taskExit hcur
  obtain ⟨rfl, rfl⟩ := Prod.mk.inj (Option.some.inj (hrun'.symm.trans hrun))
  have hn := h.tasks next hnext
  obtain ⟨hres, -, hmem⟩ := run_some (f := k.schedule) hL (h.tasks _ h.inv.mem) hn hne hfits.entry
    (h.parked next hnext hne hlive)
  rw [hcurrent]
  refine ⟨⟨hinv, h.tasks, ?_⟩, hres⟩
  intro t ht htn hd
  dsimp only at htn hd ⊢
  rw [hdead, Bool.or_eq_false_iff, beq_eq_false_iff_ne] at hd
  rw [hcurrent] at htn
  exact (h.parked t ht hd.1 hd.2).congr hL (h.tasks t ht) (hmem t (h.tasks t ht) hd.1 htn)

theorem switches (hL : L.Disjoint) (h : SysInv k L w) (hst : Switches k L w w') :
    SysInv k L w' ∧ Resumes k L w'.sched.current (w'.parked w'.sched.current) w'.mach := by
  have hcur := h.tasks _ h.inv.mem
  cases hst with
  | tick hif hfits hrun =>
    refine h.schedule hL hfits.entry ?_ ?_ ?_ hrun
    · intro x hx
      have hroom := hfits
      obtain ⟨h1, h2⟩ := hroom
      obtain ⟨-, -, hbelow, habove⟩ := irq0_spec k.labels w.mach (by omega)
      by_cases hxl : x.toNat < w.mach.regs.esp.toNat - 64
      · exact hbelow x (Nat.zero_le _) hxl
      · apply habove x _ x.toNat_lt
        by_contra hlt
        exact hx ⟨by omega, by omega⟩
    · exact fun e r hret hsame => leave_interrupted hfits hL hcur hret hsame
    · exact fun m hsus => ⟨hfits, hsus⟩
  | yield hret hfits hrun =>
    refine h.schedule hL hfits.entry (fun x _ => rfl) ?_ ?_ hrun
    · exact fun e r hr hsame => leave_yielded hret hr hsame
    · exact fun m hsus => ⟨hfits, hret, hsus⟩
  | exit hne hfits hrun => exact h.exit hL hfits hne hrun

theorem step (hL : L.Disjoint) (h : SysInv k L w) (hst : Step k L w w') : SysInv k L w' := by
  have hcur := h.tasks _ h.inv.mem
  -- what belongs to another task is neither on the current stack nor written by the current task
  have hother : ∀ u ∈ L.tasks, u ≠ w.sched.current → ∀ x, L.Own u x →
      ¬ L.OnStack w.sched.current x ∧ ¬ L.priv w.sched.current x ∧ ¬ k.kdata x := by
    intro u hu huc x hx
    exact ⟨fun hon => hL.tasks _ hcur u hu (Ne.symm huc) x (Or.inl hon) hx,
      fun hpriv => hL.priv _ hcur u hu (Ne.symm huc) x hpriv hx, fun hkd => hL.kdata u hu x hkd hx⟩
  cases hst with
  | code hmem =>
    refine ⟨h.inv, h.tasks, ?_⟩
    intro t ht htc hd
    refine (h.parked t ht htc hd).congr hL (h.tasks t ht) fun x hx => ?_
    obtain ⟨h1, h2, h3⟩ := hother t (h.tasks t ht) htc x hx
    exact hmem x h1 h2 h3
  | @create _ _ t _ _ _ _ hrun ht hnew htask hlo hhi hmem =>
    obtain ⟨s1, hsame, hready, rfl⟩ := taskCreate_some hrun ht hnew
    obtain ⟨hfresh, hkeep⟩ := initStack_spec hL htask hlo hhi w.mach.mem
    refine ⟨(h.inv.congr hsame).link hnew hready, ?_, ?_⟩
    · intro u hu
      rcases List.mem_cons.mp hu with rfl | hu
      · exact htask
      · exact h.tasks u hu
    · intro u hu huc hd
      dsimp only at huc hd ⊢
      replace huc : u ≠ w.sched.current := fun he => huc (he.trans hsame.current.symm)
      rcases List.mem_cons.mp hu with rfl | hu
      · rw [Function.update_self]
        refine hfresh.congr hL htask fun x hx => ?_
        obtain ⟨h1, h2, h3⟩ := hother u htask huc x hx
        exact hmem x h1 h2 h3
      · have hut : u ≠ t := fun he => hnew (he ▸ hu)
        rw [link_isDead, hsame.isDead hu] at hd
        rw [Function.update_of_ne hut]
        refine (h.parked u hu huc hd).congr hL (h.tasks u hu) fun x hx => ?_
        obtain ⟨h1, h2, h3⟩ := hother u (h.tasks u hu) huc x hx
        rw [hmem x h1 h2 h3]
        exact hkeep x fun hown => hL.tasks t htask u (h.tasks u hu) (Ne.symm hut) x hown hx
  | switch hsw => exact (h.switches hL hsw).1

end SysInv

theorem sysInv_reached {k : Kernel} {L : Layout k} {w : Sys} (hL : L.Disjoint) (h : Reached k L w) :
    SysInv k L w := by
  induction h with
  | init hrun htask r parked =>
    refine ⟨(taskingInit_some hrun).2, ?_, ?_⟩
    · intro t ht
      obtain rfl := List.mem_singleton.mp ht
      exact htask
    · intro t ht htc
      exact absurd (List.mem_singleton.mp ht) htc
  | step _ hst ih => exact ih.step hL hst

/-- Preemption is transparent: whenever the timer, a `yield` or the end of a task hands the processor on,
the task that gets it goes on exactly from where it stopped. -/
theorem preemption_transparent {k : Kernel} {L : Layout k} {w : Sys} (hL : L.Disjoint) (h : Reached k L w) :
    (∃ s c, schedule w.sched = some (s, c)) ∧
      ∀ w', Switches k L w w' → Resumes k L w'.sched.current (w'.parked w'.sched.current) w'.mach := by
  have hinv := sysInv_reached hL h
  refine ⟨?_, fun w' hst => (hinv.switches hL hst).2⟩
  rcases hinv.inv.schedule with hrun | ⟨next, -, -, -, hrun, -⟩
  · exact ⟨_, _, hrun⟩
  · exact ⟨_, _, hrun⟩

def plainKernel : Kernel where
  labels := ⟨0x1000, 0x1010⟩
  fn := ⟨0x2000, 0x2010⟩
  scheduleRet := 0x3000
  yieldRet := 0x3010
  kdata _ := False
  frame := 12
  back := plainBack
  irqHandler := plain _ 4 0x3000
  schedule := plain _ 0 0x3000
  bootstrap_ne := by decide
  yield_ne := by decide

/-- The initial task, with its stack below the heap, and a task with its stack on the heap. -/
def twoTasks : Layout plainKernel where
  tasks := [0x40000C, 0x402064]
  lo t := if t = 0x40000C then 0x80000 else 0x4020B0
  hi t := if t = 0x40000C then 0x90000 else 0x4060B0
  priv _ _ := False

theorem twoTasks_cases {t : UInt32} (ht : t ∈ twoTasks.tasks) :
    (t = 0x40000C ∧ t.toNat = 0x40000C ∧ twoTasks.lo t = 0x80000 ∧ twoTasks.hi t = 0x90000) ∨
      (t = 0x402064 ∧ t.toNat = 0x402064 ∧ twoTasks.lo t = 0x4020B0 ∧ twoTasks.hi t = 0x4060B0) := by
  rcases List.mem_pair.mp ht with rfl | rfl
  · exact Or.inl ⟨rfl, rfl, rfl, rfl⟩
  · exact Or.inr ⟨rfl, rfl, rfl, rfl⟩

theorem twoTasks_disjoint : twoTasks.Disjoint := by
  refine
    { hi_lt := ?_
      record_lt := ?_
      record := ?_
      tasks := ?_
      kdata := fun _ _ _ h => h.elim
      priv := fun _ _ _ _ _ _ h => h.elim }
  · intro t ht
    rcases twoTasks_cases ht with ⟨-, -, -, hhi⟩ | ⟨-, -, -, hhi⟩ <;> omega
  · intro t ht
    rcases twoTasks_cases ht with ⟨-, ht, -⟩ | ⟨-, ht, -⟩ <;> omega
  · intro t ht
    rcases twoTasks_cases ht with ⟨-, ht, hlo, hhi⟩ | ⟨-, ht, hlo, hhi⟩ <;> omega
  · intro t ht u hu hne x
    show ((twoTasks.lo t ≤ x.toNat ∧ x.toNat < twoTasks.hi t) ∨ (t.toNat ≤ x.toNat ∧ x.toNat < t.toNat + 4)) →
      ¬ ((twoTasks.lo u ≤ x.toNat ∧ x.toNat < twoTasks.hi u) ∨ (u.toNat ≤ x.toNat ∧ x.toNat < u.toNat + 4))
    rcases twoTasks_cases ht with ⟨rfl, ht, hlo, hhi⟩ | ⟨rfl, ht, hlo, hhi⟩ <;>
      rcases twoTasks_cases hu with ⟨rfl, hu, hlo', hhi'⟩ | ⟨rfl, hu, hlo', hhi'⟩
    · exact absurd rfl hne
    · omega
    · omega
    · exact absurd rfl hne

/-- A machine in ring 0 with interrupts on. -/
def idle : Mach := ⟨⟨1, 2, 3, 4, 5, 6, 7, 0x8FF00, 0x100000, 0x202, 8, 16, 16, 16, 16⟩, fun _ => 0⟩

/-- A worker at the call of `schedule` in `yield`, with the return address on its stack. -/
def yielding (m : Mem) : Mach :=
  ⟨⟨8, 9, 10, 11, 12, 13, 14, 0x406000, 0x2800, 2, 8, 16, 16, 16, 16⟩, m.setWord 0x406000 0x3010⟩

theorem yielding_top (m : Mem) : (yielding m).top = plainKernel.yieldRet := word_setWord m 0x406000 0x3010

-- The return address is on the stack of the worker.
theorem yielding_mem (m : Mem) {x : UInt32} (hx : ¬ twoTasks.OnStack 0x402064 x) : (yielding m).mem x = m x := by
  refine SameOn.setWord m 0x3010 (a := x.toNat) (b := x.toNat + 1) (k := 0x406000) (by decide) ?_ x
    (Nat.le_refl _) (Nat.lt_succ_self _)
  by_contra hnear
  refine hx ⟨?_, ?_⟩
  · show 0x4020B0 ≤ x.toNat
    omega
  · show x.toNat < 0x4060B0
    omega

-- A task is created, and three times the processor goes back and forth.
theorem worker_schedules : ∃ h s h' s₀ s₁ s₂ s₃ c₁ c₂ c₃,
    taskingInit ⟨Kheap.kheapInit fun _ => 0, []⟩ noTasks = some (h, s) ∧
    taskCreate plainKernel.fn (CString.ascii "worker") 0x5000 h s = some (0x402064, h', s₀) ∧
    schedule s₀ = some (s₁, c₁) ∧ schedule s₁ = some (s₂, c₂) ∧ schedule s₂ = some (s₃, c₃) ∧
    s.current = 0x40000C ∧ (s₀.tasks 0x402064).stackBase = 0x4020B0 ∧ s₀.current = 0x40000C ∧
    s₁.current = 0x402064 ∧ s₂.current = 0x40000C ∧ s₃.current = 0x402064 := by
  have hrun : ((taskingInit ⟨Kheap.kheapInit fun _ => 0, []⟩ noTasks).bind fun x =>
      (taskCreate plainKernel.fn (CString.ascii "worker") 0x5000 x.1 x.2).bind fun y =>
      (schedule y.2.2).bind fun z₁ => (schedule z₁.1).bind fun z₂ => (schedule z₂.1).map fun z₃ =>
        [x.2.current, y.1, (y.2.2.tasks 0x402064).stackBase, y.2.2.current, z₁.1.current, z₂.1.current,
          z₃.1.current]) =
      some [0x40000C, 0x402064, 0x4020B0, 0x40000C, 0x402064, 0x40000C, 0x402064] := by
    decide +kernel
  obtain ⟨⟨h, s⟩, hinit, hrun⟩ := Option.bind_eq_some_iff.mp hrun
  obtain ⟨⟨t, h', s₀⟩, hcreate, hrun⟩ := Option.bind_eq_some_iff.mp hrun
  obtain ⟨⟨s₁, c₁⟩, h1, hrun⟩ := Option.bind_eq_some_iff.mp hrun
  obtain ⟨⟨s₂, c₂⟩, h2, hrun⟩ := Option.bind_eq_some_iff.mp hrun
  obtain ⟨⟨s₃, c₃⟩, h3, hrun⟩ := Option.map_eq_some_iff.mp hrun
  simp only [List.cons.injEq, and_true] at hrun
  obtain ⟨hs, rfl, hrest⟩ := hrun
  exact ⟨h, s, h', s₀, s₁, s₂, s₃, c₁, c₂, c₃, hinit, hcreate, h1, h2, h3, hs, hrest⟩

-- The initial task is interrupted, a new task starts and yields, and both go on from where they stopped.
theorem preemption_transparent_worker : ∃ w w₁ w₁' w₂ w₃ : Sys, twoTasks.Disjoint ∧
    Reached plainKernel twoTasks w ∧ w.all = [0x402064, 0x40000C] ∧ w.sched.current = 0x40000C ∧
    Switches plainKernel twoTasks w w₁ ∧ w₁.sched.current = 0x402064 ∧
    Resumes plainKernel twoTasks 0x402064 .fresh w₁.mach ∧
    Step plainKernel twoTasks w₁ w₁' ∧
    Switches plainKernel twoTasks w₁' w₂ ∧ w₂.sched.current = 0x40000C ∧
    Resumes plainKernel twoTasks 0x40000C (.interrupted w.mach) w₂.mach ∧
    Switches plainKernel twoTasks w₂ w₃ ∧ w₃.sched.current = 0x402064 ∧
    Resumes plainKernel twoTasks 0x402064 (.yielded w₁'.mach) w₃.mach := by
  obtain ⟨h, s, h', s₀, s₁, s₂, s₃, c₁, c₂, c₃, hinit, hcreate, h1, h2, h3, hs, hbase, hs0, hs1, hs2, hs3⟩ :=
    worker_schedules
  have hL := twoTasks_disjoint
  have hboot : Reached plainKernel twoTasks ⟨idle, s, [s.current], 0, fun _ => .fresh⟩ :=
    .init hinit (by rw [hs]; decide) _ _
  rw [hs] at hboot
  obtain ⟨w, hw, rfl, hall, hregs, hparked⟩ : ∃ w, Reached plainKernel twoTasks w ∧ w.sched = s₀ ∧
      w.all = [0x402064, 0x40000C] ∧ w.mach.regs = idle.regs ∧ w.parked 0x402064 = .fresh :=
    ⟨_, hboot.step (.create
      (r := ⟨idle.regs, initStack plainKernel.fn 0x402064 (s₀.tasks 0x402064).stackBase idle.mem⟩) hcreate
      (by decide) (by simp) (by decide) (by rw [hbase]; rfl) (by rw [hbase]; rfl) fun _ _ _ _ => rfl), rfl, rfl, rfl,
      by simp⟩
  obtain ⟨w₁, hsw1, rfl, hp1⟩ : ∃ w₁, Switches plainKernel twoTasks w w₁ ∧ w₁.sched = s₁ ∧
      w₁.parked = Function.update w.parked w.sched.current (.interrupted w.mach) := by
    refine ⟨_, .tick ?_ ?_ h1, rfl, rfl⟩
    · rw [hregs]
      decide
    · rw [TickFits, hs0, hregs]
      decide
  have hres1 := (preemption_transparent hL hw).2 w₁ hsw1
  rw [hs1, hp1, hs0, Function.update_of_ne (by decide), hparked] at hres1
  -- the new task runs up to its `yield`
  obtain ⟨w₁', hcode, hmach, hsched, hp1'⟩ : ∃ w₁', Step plainKernel twoTasks w₁ w₁' ∧
      w₁'.mach = yielding w₁.mach.mem ∧ w₁'.sched = w₁.sched ∧ w₁'.parked = w₁.parked := by
    refine ⟨_, .code fun x hx _ _ => yielding_mem _ ?_, rfl, rfl, rfl⟩
    rwa [hs1] at hx
  have hw1 := (hw.step (.switch hsw1)).step hcode
  obtain ⟨w₂, hsw2, rfl, hp2⟩ : ∃ w₂, Switches plainKernel twoTasks w₁' w₂ ∧ w₂.sched = s₂ ∧
      w₂.parked = Function.update w₁'.parked w₁'.sched.current (.yielded w₁'.mach) := by
    refine ⟨_, .yield ?_ ?_ (hsched ▸ h2), rfl, rfl⟩
    · rw [hmach, yielding_top]
    · rw [YieldFits, hsched, hs1, hmach]
      show 0x4020B0 + 16 + 12 ≤ 0x406000 ∧ 0x406000 + 4 ≤ 0x4060B0
      decide
  have hres2 := (preemption_transparent hL hw1).2 w₂ hsw2
  rw [hs2, hp2, hsched, hs1, Function.update_of_ne (by decide), hp1', hp1, hs0, Function.update_self] at hres2
  have hesp : w₂.mach.regs.esp = 0x8FF00 := by rw [hres2.1, hregs]; rfl
  have hflags : w₂.mach.regs.eflags = 0x202 := by rw [hres2.1, hregs]; rfl
  obtain ⟨w₃, hsw3, rfl, hp3⟩ : ∃ w₃, Switches plainKernel twoTasks w₂ w₃ ∧ w₃.sched = s₃ ∧
      w₃.parked = Function.update w₂.parked w₂.sched.current (.interrupted w₂.mach) := by
    refine ⟨_, .tick ?_ ?_ h3, rfl, rfl⟩
    · rw [hflags]
      decide
    · rw [TickFits, hs2, hesp]
      decide
  have hres3 := (preemption_transparent hL (hw1.step (.switch hsw2))).2 w₃ hsw3
  rw [hs3, hp3, hs2, Function.update_of_ne (by decide), hp2, hsched, hs1, Function.update_self] at hres3
  exact ⟨w, w₁, w₁', w₂, w₃, hL, hw, hall, hs0, hsw1, hs1, hres1, hcode, hsw2, hs2, hres2, hsw3, hs3, hres3⟩

end JacobOS.Switch
