import JacobOS.Kernel.ExecRuns
import JacobOS.Mem.Paging

/-!
# A program in ring 3 and the user window

`exec_user` opens one page to ring 3, with `paging_set_user(USER_BASE)`, and nobody else opens another.  So
what a program does to the memory is what the model of `exec.c` allows it.
-/

namespace JacobOS.Exec

open AddressRange BlockProgram Fs Paging Paging32

/-- A program's access to memory: whether it is a write, the address, and the byte it writes. -/
structure UserAccess where
  write : Bool
  va : UInt32
  byte : UInt8

def UserAccess.event (u : UserAccess) : Paging.Event := .access ⟨true, u.write⟩ u.va u.byte

/-- The kernel has called `paging_set_user(USER_BASE)`, and no other address. -/
structure OpensWindow (es : List Paging.Event) : Prop where
  called : Syscall.userBase ∈ userAddrs es
  only : ∀ v ∈ userAddrs es, v = Syscall.userBase

-- The window is one page.
theorem pageOf_eq_base_iff (va : UInt32) : pageOf Syscall.userBase = pageOf va ↔ Syscall.InWindow va := by
  have hbase : Syscall.userBase.toNat = 0x800000 := rfl
  have htop : Syscall.userTop.toNat = 0xC00000 := rfl
  unfold Syscall.InWindow
  rw [← UInt32.toNat_inj, toNat_pageOf, toNat_pageOf, UInt32.le_iff_toNat_le, UInt32.lt_iff_toNat_lt]
  omega

theorem OpensWindow.opened_iff {es : List Paging.Event} (h : OpensWindow es) (va : UInt32) :
    (∃ v ∈ userAddrs es, pageOf v = pageOf va) ↔ Syscall.InWindow va := by
  rw [← pageOf_eq_base_iff]
  constructor
  · rintro ⟨v, hv, hpage⟩
    rw [← h.only v hv]
    exact hpage
  · intro hpage
    exact ⟨Syscall.userBase, h.called, hpage⟩

instance (va : UInt32) : Decidable (Syscall.InWindow va) := inferInstanceAs (Decidable (_ ∧ _))

section

variable {dir : UInt32} (hdir : Placed dir)

include hdir

-- One access of the program.
theorem user_access {es : List Paging.Event} (hes : OpensWindow es) {s : Mmu} (h : Maps dir (userAddrs es) s)
    (u : UserAccess) {x : UInt32} (hx : ¬ Syscall.InWindow x) : (u.event.apply dir s).mem x = s.mem x := by
  have hres := (access_coherent h.coherent ⟨true, u.write⟩ u.va).1
  unfold UserAccess.event Event.apply
  dsimp only
  rw [hres, h.walk_eq hdir]
  split
  · rename_i pa hpa
    split at hpa
    · rename_i hcond
      have hin := (hes.opened_iff u.va).mp (hcond.2 rfl)
      obtain rfl := Option.some.inj hpa
      split
      · apply Function.update_of_ne
        rintro rfl
        exact hx hin
      · rfl
    · cases hpa
  · rfl

theorem user_accesses {es : List Paging.Event} (hes : OpensWindow es)
    (hus : ∀ v ∈ userAddrs es, pageOf v ≠ pageOf dir) {s : Mmu} (h : Maps dir (userAddrs es) s)
    (us : List UserAccess) {x : UInt32} (hx : ¬ Syscall.InWindow x) :
    (Paging.run dir (us.map UserAccess.event) s).mem x = s.mem x := by
  induction us generalizing s with
  | nil => rfl
  | cons u us ih =>
    have hnext : Maps dir (userAddrs es) (u.event.apply dir s) :=
      h.access hdir hus fun hu => absurd hu (by simp)
    rw [List.map_cons, Paging.run, List.foldl_cons]
    exact (ih hnext).trans (user_access hdir hes h u hx)

/-- After the kernel has opened the user window, and whatever else it did since `paging_init`, a program in
ring 3 reaches exactly the window, and any sequence of its accesses is a step of the model of `exec.c`. -/
theorem ring3_confined (s : Mmu) {es : List Paging.Event} (hes : ∀ e ∈ es, e.Allowed dir) (hopen : OpensWindow es) :
    (∀ write va, (Paging32.access (Paging.run dir es (pagingInit dir s)).mem.word
        (Paging.run dir es (pagingInit dir s)).ctl (Paging.run dir es (pagingInit dir s)).tlb ⟨true, write⟩ va).1 =
      if Syscall.InWindow va then some va else none) ∧
    ∀ {σ : Type} (k : Code) (L : Layout) (D : Device Nat Block σ) (heapHead : UInt32) (w : Sys σ)
      (regs : Cpu.Regs) (us : List UserAccess), w.ring3 w.sched.current = true →
      w.mach.mem = (Paging.run dir es (pagingInit dir s)).mem →
      Step k L D heapHead w .other { w with mach :=
        ⟨regs, (Paging.run dir (us.map UserAccess.event) (Paging.run dir es (pagingInit dir s))).mem⟩ } := by
  obtain ⟨hmaps, hus⟩ := maps_run hdir s hes
  constructor
  · intro write va
    have hlow : Syscall.InWindow va → va.toNat < Pmm.physMemSize := by
      rintro ⟨-, htop⟩
      have hlt := UInt32.lt_iff_toNat_lt.mp htop
      have heq : Syscall.userTop.toNat = 0xC00000 := rfl
      unfold Pmm.physMemSize
      omega
    rw [(access_coherent hmaps.coherent _ va).1, hmaps.walk_eq hdir]
    simp only [hopen.opened_iff va, forall_const]
    by_cases hin : Syscall.InWindow va
    · rw [if_pos ⟨hlow hin, hin⟩, if_pos hin]
    · rw [if_neg (fun h => hin h.2), if_neg hin]
  · intro σ k L D heapHead w regs us hring hmem
    refine .user hring fun x hx => ?_
    rw [hmem]
    exact user_accesses hdir hopen hus hmaps us hx

end

/-- The window is opened on a machine with the directory at 1 MB. -/
def windowOpen : Mmu := Paging.run 0x100000 [.setUser Syscall.userBase] (pagingInit 0x100000 poweredOn)

/-- A task in ring 3 on that machine. -/
def inProgram : Sys (Nat → Block) :=
  ⟨⟨⟨0, 0, 0, 0, 0, 0, 0, 0xC00000, 0x800000, 0x202, 0x1B, 0x23, 0x23, 0x23, 0x23⟩, windowOpen.mem⟩,
    ⟨fun _ => ⟨0, 0, 0, 0, [], .dead, 0, 0⟩, 0, 0, 0, false, 0⟩, fun _ => Block.zero, 0, 1, fun _ => [],
    fun _ => true⟩

/-- It writes to the last byte of the window, and tries to write to the directory. -/
def inProgramAccesses : List UserAccess := [⟨true, 0xBFFFFF, 1⟩, ⟨true, 0x100000, 1⟩]

theorem ring3_confined_opened :
    (Paging32.access windowOpen.mem.word windowOpen.ctl windowOpen.tlb ⟨true, true⟩ 0x100000).1 = none ∧
      Step plainCode ⟨[], fun _ => (0, 0), fun _ => 0, fun _ => 0, fun _ _ => False⟩ flat 0 inProgram .other
        { inProgram with mach :=
          ⟨inProgram.mach.regs, (Paging.run 0x100000 (inProgramAccesses.map UserAccess.event) windowOpen).mem⟩ } := by
  have hdir : Placed 0x100000 := ⟨by decide, by decide⟩
  have hes : ∀ e ∈ [Paging.Event.setUser Syscall.userBase], e.Allowed 0x100000 := by
    intro e he
    rw [List.mem_singleton.mp he]
    show pageOf Syscall.userBase ≠ pageOf 0x100000
    decide
  have hopen : OpensWindow [.setUser Syscall.userBase] :=
    ⟨List.mem_singleton_self _, fun v hv => List.mem_singleton.mp hv⟩
  obtain ⟨hacc, hstep⟩ := ring3_confined hdir poweredOn hes hopen
  exact ⟨(hacc true 0x100000).trans (by decide), hstep plainCode _ flat 0 inProgram _ inProgramAccesses rfl rfl⟩

end JacobOS.Exec
