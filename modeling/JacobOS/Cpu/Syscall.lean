import JacobOS.Machine

/-!
# The system call gate of `cpu/syscall.c`

`syscall_handler` is run on the registers of ring-3 code.  What a user program can learn from it are
the bytes that reach `kputc` and the value left in `eax`; neither may depend on memory outside the
user window.
-/

namespace JacobOS.Syscall

open AddressRange Machine

def userBase : UInt32 := 0x800000
def userTop : UInt32 := 0xC00000

def sysWrite : UInt32 := 1
def sysExit : UInt32 := 2
def sysYield : UInt32 := 3

/-- The registers the handler looks at. -/
structure Registers where
  eax : UInt32
  ebx : UInt32
  ecx : UInt32

/-- How the handler ends: it returns with a value in `eax`, does so after giving up the processor, or
never returns because the program exits. -/
inductive Outcome : Type where
  | resume (eax : UInt32)
  | yielded (eax : UInt32)
  | exited (code : UInt32)

/-- `for (i = 0; i < len; i++) kputc(buf[i])`: the bytes handed to `kputc`, which stores to the VGA
buffer and its own cursor only. -/
def putLoop (buf : UInt32) : Nat → MachineM (List UInt8)
  | 0 => return []
  | n + 1 => do
      let c ← load8 buf
      let rest ← putLoop (buf + 1) n
      return c :: rest

/-- `sys_write`: the bytes printed and the returned `int`. -/
def writeCall (buf len : UInt32) : MachineM (List UInt8 × UInt32) := do
  -- reject stray pointers
  if buf < userBase ∨ buf + len > userTop then return ([], 0xFFFFFFFF)
  let out ← putLoop buf len.toNat
  return (out, len)

def syscallHandler (r : Registers) : MachineM (List UInt8 × Outcome) := do
  if r.eax = sysWrite then
    let (out, eax) ← writeCall r.ebx r.ecx
    return (out, .resume eax)
  else if r.eax = sysExit then return ([], .exited r.ebx)
  else if r.eax = sysYield then return ([], .yielded 0)
  else return ([], .resume 0xFFFFFFFF)

/-! ## What the handler reads and shows -/

def InWindow (a : UInt32) : Prop := userBase ≤ a ∧ a < userTop

/-- The addresses the handler reads. -/
def reads (r : Registers) (m : Mem) : List UInt32 := (syscallHandler r (.start m)).2.loads

/-- What the user program can see of the call. -/
def shown (r : Registers) (m : Mem) : List UInt8 × Outcome := (syscallHandler r (.start m)).1

/-- Memories that agree on the window show the same. -/
def Noninterfering (r : Registers) : Prop :=
  ∀ m m' : Mem, (∀ a, InWindow a → m a = m' a) → shown r m = shown r m'

def ReadsInWindow (r : Registers) : Prop := ∀ m, ∀ a ∈ reads r m, InWindow a

/-- The end of the buffer is past the top of the address space, and the check sees a small address. -/
def Wraps (r : Registers) : Prop :=
  r.eax = sysWrite ∧ ¬ r.ebx < userBase ∧ 2 ^ 32 ≤ r.ebx.toNat + r.ecx.toNat ∧
    ¬ r.ebx + r.ecx > userTop

theorem putLoop_fst (buf : UInt32) (n : Nat) (s : Machine) :
    (putLoop buf n s).1 = (span buf n).map s.mem := by
  induction n generalizing buf s with
  | zero => rfl
  | succ n ih =>
    have hspan : span buf (n + 1) = buf :: span (buf + 1) n := by
      unfold span
      rw [List.range_succ_eq_map, List.map_cons, List.map_map]
      congr 1
      · exact UInt32.add_zero buf
      · apply List.map_congr_left
        intro k _
        exact (add_ofNat_succ buf k).symm
    have hrest := ih (buf + 1) (load8 buf s).2
    rw [load8_mem] at hrest
    rw [hspan, List.map_cons, ← hrest]
    rfl

theorem mem_putLoop_loads (buf : UInt32) (n : Nat) (s : Machine) (x : UInt32) :
    x ∈ (putLoop buf n s).2.loads ↔ x ∈ span buf n ∨ x ∈ s.loads := by
  induction n generalizing buf s with
  | zero => simp [putLoop]
  | succ n ih =>
    rw [mem_span_succ]
    show x ∈ (putLoop (buf + 1) n (load8 buf s).2).2.loads ↔ _
    rw [ih]
    show x ∈ span (buf + 1) n ∨ x ∈ buf :: s.loads ↔ _
    rw [List.mem_cons]
    tauto

-- Either nothing is read and what is shown is fixed, or the buffer is printed byte by byte.
theorem handler_cases (r : Registers) :
    (¬ (r.eax = sysWrite ∧ ¬ r.ebx < userBase ∧ ¬ r.ebx + r.ecx > userTop) ∧
        (∀ m, reads r m = []) ∧ ∃ v, ∀ m, shown r m = v) ∨
      (r.eax = sysWrite ∧ ¬ r.ebx < userBase ∧ ¬ r.ebx + r.ecx > userTop ∧
        (∀ m x, x ∈ reads r m ↔ x ∈ span r.ebx r.ecx.toNat) ∧
        ∀ m, shown r m = ((span r.ebx r.ecx.toNat).map m, .resume r.ecx)) := by
  unfold reads shown syscallHandler
  by_cases hw : r.eax = sysWrite
  · rw [if_pos hw]
    unfold writeCall
    by_cases hbad : r.ebx < userBase ∨ r.ebx + r.ecx > userTop
    · rw [if_pos hbad]
      refine Or.inl ⟨?_, fun _ => rfl, _, fun _ => rfl⟩
      rintro ⟨-, h1, h2⟩
      exact hbad.elim h1 h2
    · rw [if_neg hbad]
      rw [not_or] at hbad
      refine Or.inr ⟨hw, hbad.1, hbad.2, ?_, ?_⟩
      · intro m x
        show x ∈ (putLoop r.ebx r.ecx.toNat (.start m)).2.loads ↔ _
        rw [mem_putLoop_loads]
        simp [start]
      · intro m
        show ((putLoop r.ebx r.ecx.toNat (.start m)).1, Outcome.resume r.ecx) = _
        rw [putLoop_fst]
        rfl
  · rw [if_neg hw]
    refine Or.inl ⟨fun h => hw h.1, ?_⟩
    by_cases he : r.eax = sysExit
    · rw [if_pos he]
      exact ⟨fun _ => rfl, _, fun _ => rfl⟩
    · rw [if_neg he]
      by_cases hy : r.eax = sysYield
      · rw [if_pos hy]
        exact ⟨fun _ => rfl, _, fun _ => rfl⟩
      · rw [if_neg hy]
        exact ⟨fun _ => rfl, _, fun _ => rfl⟩

-- Whether the program exits, and with what, is decided by two registers.
theorem shown_exited_iff {r : Registers} {m : Mem} {code : UInt32} :
    (shown r m).2 = .exited code ↔ r.eax = sysExit ∧ code = r.ebx := by
  unfold shown syscallHandler
  by_cases hw : r.eax = sysWrite
  · have hne : r.eax ≠ sysExit := by
      rw [hw]
      decide
    rw [if_pos hw]
    refine ⟨fun h => ?_, fun h => absurd h.1 hne⟩
    change Outcome.resume _ = .exited code at h
    cases h
  · rw [if_neg hw]
    by_cases he : r.eax = sysExit
    · rw [if_pos he]
      change Outcome.exited r.ebx = .exited code ↔ _
      rw [Outcome.exited.injEq]
      exact ⟨fun h => ⟨he, h.symm⟩, fun h => h.2.symm⟩
    · rw [if_neg he]
      refine ⟨fun h => ?_, fun h => absurd h.1 he⟩
      by_cases hy : r.eax = sysYield
      · rw [if_pos hy] at h
        cases h
      · rw [if_neg hy] at h
        cases h

-- The printed range leaves the window exactly when its end wraps.
theorem span_inWindow_iff {buf len : UInt32} (h1 : ¬ buf < userBase) (h2 : ¬ buf + len > userTop) :
    (∀ x ∈ span buf len.toNat, InWindow x) ↔ buf.toNat + len.toNat < 2 ^ 32 := by
  have hbase : userBase ≤ buf := UInt32.not_lt.mp h1
  have hsum := UInt32.le_iff_toNat_le.mp (UInt32.not_lt.mp h2)
  have htop : userTop.toNat = 0xC00000 := rfl
  have hb := buf.toNat_lt
  unfold InWindow
  rw [span_subset_iff]
  rw [UInt32.toNat_add] at hsum
  constructor
  · rintro (h0 | ⟨-, hend⟩)
    · omega
    · omega
  · intro hlt
    exact Or.inr ⟨hbase, by omega⟩

theorem not_wraps_iff {r : Registers} (hw : r.eax = sysWrite) (h1 : ¬ r.ebx < userBase)
    (h2 : ¬ r.ebx + r.ecx > userTop) :
    ¬ Wraps r ↔ ∀ x ∈ span r.ebx r.ecx.toNat, InWindow x := by
  rw [span_inWindow_iff h1 h2]
  unfold Wraps
  constructor
  · intro hno
    by_contra hge
    exact hno ⟨hw, h1, by omega, h2⟩
  · rintro hlt ⟨-, -, hge, -⟩
    omega

theorem noninterfering_iff (r : Registers) : Noninterfering r ↔ ¬ Wraps r := by
  rcases handler_cases r with ⟨hno, -, v, hshown⟩ | ⟨hw, h1, h2, -, hshown⟩
  · refine ⟨fun _ h => hno ⟨h.1, h.2.1, h.2.2.2⟩, fun _ m m' _ => ?_⟩
    rw [hshown, hshown]
  · rw [not_wraps_iff hw h1 h2]
    constructor
    · intro hni x hx
      by_contra hout
      -- two memories that differ at `x` alone print differently
      have hagree : ∀ a, InWindow a →
          (fun _ => 0 : Mem) a = (Function.update (fun _ => 0) x 1 : Mem) a := by
        intro a ha
        rw [Function.update_of_ne (fun he : a = x => hout (he ▸ ha))]
      have hsame := hni _ _ hagree
      rw [hshown, hshown] at hsame
      have hmap := List.map_inj_left.mp (congrArg Prod.fst hsame) x hx
      rw [Function.update_self] at hmap
      exact absurd hmap (by decide)
    · intro hwin m m' hagree
      rw [hshown, hshown, List.map_congr_left fun x hx => hagree x (hwin x hx)]

theorem readsInWindow_iff (r : Registers) : ReadsInWindow r ↔ ¬ Wraps r := by
  rcases handler_cases r with ⟨hno, hreads, -⟩ | ⟨hw, h1, h2, hreads, -⟩
  · refine ⟨fun _ h => hno ⟨h.1, h.2.1, h.2.2.2⟩, fun _ m a ha => ?_⟩
    rw [hreads] at ha
    exact absurd ha (by simp)
  · rw [not_wraps_iff hw h1 h2]
    exact ⟨fun h x hx => h (fun _ => 0) x ((hreads _ x).mpr hx),
      fun h m a ha => h a ((hreads m a).mp ha)⟩

/-- The gate shows nothing but the window, and reads nothing else, exactly when the check does not
wrap. -/
theorem gate_iff (r : Registers) :
    (Noninterfering r ↔ ¬ Wraps r) ∧ (ReadsInWindow r ↔ ¬ Wraps r) :=
  ⟨noninterfering_iff r, readsInWindow_iff r⟩

-- A buffer at the bottom of the window and the largest length: the check sees `0x7FFFFF`.
theorem write_leaks_kernel_memory :
    ¬ Noninterfering ⟨sysWrite, 0x800000, 0xFFFFFFFF⟩ ∧
      ¬ ReadsInWindow ⟨sysWrite, 0x800000, 0xFFFFFFFF⟩ := by
  have hwraps : Wraps ⟨sysWrite, 0x800000, 0xFFFFFFFF⟩ := by
    unfold Wraps
    decide
  rw [noninterfering_iff, readsInWindow_iff]
  exact ⟨fun h => h hwraps, fun h => h hwraps⟩

end JacobOS.Syscall
