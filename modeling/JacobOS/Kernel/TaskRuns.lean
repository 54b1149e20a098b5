import JacobOS.Kernel.Task
import JacobOS.Mem.HeapUndo

/-!
# Runs of the scheduler

After `tasking_init`, tasks are created, `schedule` is called by the timer and by `yield`, tasks other
than the initial one end, and the rest of the kernel uses the heap.  In every state of such a run the
ring holds the tasks created so far, once each, and exactly the current one is running.
-/

namespace JacobOS.Tasking

open CString Ring

/-! ## The invariant -/

/-- The tasks created so far are `all`, and `exits` of them have ended. -/
structure Inv (s : Sched) (all : List UInt32) (exits : Nat) : Prop where
  ring : ∃ l, Cycle s.next s.head l ∧ (s.head :: l).Perm all
  mem : s.current ∈ all
  running : ∀ p ∈ all, (s.tasks p).state = .running ↔ p = s.current
  alive : s.isDead s.head = false
  esp0 : s.esp0 = (s.tasks s.current).kstackTop
  on : s.schedulingOn = true
  dead : all.countP s.isDead = exits

/-- The two agree on the tasks in `all`. -/
structure Same (s s' : Sched) (all : List UInt32) : Prop where
  tasks : ∀ p ∈ all, s'.tasks p = s.tasks p
  current : s'.current = s.current
  head : s'.head = s.head
  on : s'.schedulingOn = s.schedulingOn
  esp0 : s'.esp0 = s.esp0

namespace Same

variable {s s' s'' : Sched} {all : List UInt32}

theorem refl (s : Sched) (all : List UInt32) : Same s s all := ⟨fun _ _ => rfl, rfl, rfl, rfl, rfl⟩

-- A record outside `all` is written.
theorem modify (h : Same s s' all) {t : UInt32} (ht : t ∉ all) (f : Task → Task) :
    Same s (s'.modify t f) all := by
  refine ⟨?_, h.current, h.head, h.on, h.esp0⟩
  intro p hp
  have hne : p ≠ t := fun he => ht (he ▸ hp)
  rw [Sched.modify_other s' f hne]
  exact h.tasks p hp

theorem fillIn (h : Same s s' all) {t : UInt32} (ht : t ∉ all) (kstack : UInt32) (name : List UInt8)
    (entry : UInt32) : Same s (s'.fillIn t kstack name entry) all := by
  refine ⟨?_, h.current, h.head, h.on, h.esp0⟩
  unfold Sched.fillIn
  dsimp only
  exact (h.modify ht _).tasks

theorem isDead (h : Same s s' all) {p : UInt32} (hp : p ∈ all) : s'.isDead p = s.isDead p := by
  unfold Sched.isDead
  rw [h.tasks p hp]

end Same

namespace Inv

variable {s s' : Sched} {all : List UInt32} {exits : Nat}

theorem nodup (h : Inv s all exits) : all.Nodup := by
  obtain ⟨l, hring, hperm⟩ := h.ring
  exact hperm.nodup_iff.mp hring.nodup

theorem head_mem (h : Inv s all exits) : s.head ∈ all := by
  obtain ⟨l, -, hperm⟩ := h.ring
  exact hperm.mem_iff.mp List.mem_cons_self

-- The ring, entered at the current task.
theorem ring_current (h : Inv s all exits) :
    ∃ l, Cycle s.next s.current l ∧ (s.current :: l).Perm all := by
  obtain ⟨l, hring, hperm⟩ := h.ring
  obtain ⟨l', hring', hperm'⟩ := hring.rotate (hperm.mem_iff.mpr h.mem)
  exact ⟨l', hring', hperm'.trans hperm⟩

theorem congr (h : Inv s all exits) (hs : Same s s' all) : Inv s' all exits := by
  obtain ⟨l, hring, hperm⟩ := h.ring
  refine ⟨⟨l, ?_, ?_⟩, ?_, ?_, ?_, ?_, hs.on.trans h.on, ?_⟩
  · rw [hs.head]
    refine hring.congr fun p hp => ?_
    unfold Sched.next
    rw [hs.tasks p (hperm.mem_iff.mp hp)]
  · rw [hs.head]
    exact hperm
  · rw [hs.current]
    exact h.mem
  · intro p hp
    rw [hs.tasks p hp, hs.current]
    exact h.running p hp
  · rw [hs.head, hs.isDead h.head_mem]
    exact h.alive
  · rw [hs.esp0, hs.current, hs.tasks _ h.mem]
    exact h.esp0
  · rw [← h.dead]
    apply List.countP_congr
    intro p hp
    rw [hs.isDead hp]

end Inv

/-! ### `task_create` -/

theorem link_isDead (s : Sched) (t : UInt32) : (s.link t).isDead = s.isDead := by
  funext p
  unfold Sched.isDead Sched.link
  dsimp only
  rw [Sched.setNext_state, Sched.setNext_state]

theorem Inv.link {s : Sched} {all : List UInt32} {exits : Nat} (h : Inv s all exits) {t : UInt32}
    (ht : t ∉ all) (hready : (s.tasks t).state = .ready) : Inv (s.link t) (t :: all) exits := by
  have hstate : ∀ p, ((s.link t).tasks p).state = (s.tasks p).state := by
    intro p
    unfold Sched.link
    dsimp only
    rw [Sched.setNext_state, Sched.setNext_state]
  have hhead : s.head ≠ t := fun he => ht (he ▸ h.head_mem)
  have hnext : ∀ p, (s.link t).next p = if p = s.head then t else if p = t then s.next s.head else s.next p := by
    intro p
    unfold Sched.link
    dsimp only
    rw [Sched.setNext_next, Sched.setNext_next]
    rfl
  obtain ⟨l, hring, hperm⟩ := h.ring
  have htl : t ∉ s.head :: l := fun hm => ht (hperm.mem_iff.mp hm)
  refine ⟨⟨t :: l, ?_, ?_⟩, List.mem_cons_of_mem t h.mem, ?_, ?_, ?_, h.on, ?_⟩
  · refine hring.insert htl ?_ ?_ ?_
    · rw [hnext]
      exact if_pos rfl
    · rw [hnext, if_neg (Ne.symm hhead), if_pos rfl]
    · intro p hp
      have hph : p ≠ s.head := fun he => (List.nodup_cons.mp hring.nodup).1 (he ▸ hp)
      have hpt : p ≠ t := fun he => htl (he ▸ List.mem_cons_of_mem s.head hp)
      rw [hnext, if_neg hph, if_neg hpt]
  · exact (List.Perm.swap t s.head l).trans (hperm.cons t)
  · intro p hp
    rw [hstate]
    rcases List.mem_cons.mp hp with rfl | hp
    · rw [hready]
      exact ⟨fun he => absurd he (by decide), fun he => absurd (he ▸ h.mem) ht⟩
    · exact h.running p hp
  · rw [link_isDead]
    exact h.alive
  · show s.esp0 = ((s.link t).tasks s.current).kstackTop
    unfold Sched.link
    dsimp only
    rw [Sched.setNext_kstackTop, Sched.setNext_kstackTop]
    exact h.esp0
  · rw [link_isDead, List.countP_cons, h.dead]
    unfold Sched.isDead
    rw [hready]
    rfl

/-- The initial task is a ring of one. -/
theorem taskingInit_some {h h' : Kheap.State} {s s' : Sched} (hrun : taskingInit h s = some (h', s')) :
    s'.head = s'.current ∧ Inv s' [s'.current] 0 := by
  unfold taskingInit at hrun
  simp only [Option.bind_eq_bind, Option.bind_eq_some_iff, Prod.exists] at hrun
  obtain ⟨p, h1, -, kstack, h2, -, hrun⟩ := hrun
  obtain ⟨-, rfl⟩ := Prod.mk.inj (Option.some.inj hrun)
  refine ⟨rfl, ⟨[], Cycle.self ?_, List.Perm.refl _⟩, List.mem_singleton_self p, ?_, ?_, ?_, rfl, ?_⟩
  · simp [Sched.next]
  · intro q hq
    obtain rfl := List.mem_singleton.mp hq
    simp
  · simp [Sched.isDead]
  · simp
  · simp [Sched.isDead]

/-- A call that returns a task has filled in its record and linked it in. -/
theorem taskCreate_some {fn : Entries} {name : List UInt8} {entry t : UInt32} {h h' : Kheap.State}
    {s s' : Sched} {all : List UInt32} (hrun : taskCreate fn name entry h s = some (t, h', s')) (ht : t ≠ 0)
    (hnew : t ∉ all) : ∃ s1, Same s s1 all ∧ (s1.tasks t).state = .ready ∧ s' = s1.link t := by
  unfold taskCreate at hrun
  simp only [Option.bind_eq_bind, Option.bind_eq_some_iff, Prod.exists] at hrun
  obtain ⟨p, h1, -, hrun⟩ := hrun
  -- a failed call returns 0
  have hfail : ∀ {h'' : Kheap.State} {s'' : Sched},
      (pure (0, h'', s'') : Option (UInt32 × Kheap.State × Sched)) ≠ some (t, h', s') := by
    intro h'' s'' he
    exact ht (Prod.mk.inj (Option.some.inj he)).1.symm
  by_cases hp : p = 0
  · rw [if_pos hp] at hrun
    exact absurd hrun hfail
  · rw [if_neg hp] at hrun
    simp only [Option.bind_eq_some_iff, Prod.exists] at hrun
    obtain ⟨stack, h2, -, hrun⟩ := hrun
    by_cases hstack : stack = 0
    · rw [if_pos hstack] at hrun
      obtain ⟨h3, -, hrun⟩ := Option.bind_eq_some_iff.mp hrun
      exact absurd hrun hfail
    · rw [if_neg hstack] at hrun
      simp only [Option.bind_eq_some_iff, Prod.exists] at hrun
      obtain ⟨kstack, h3, -, hrun⟩ := hrun
      by_cases hkstack : kstack = 0
      · rw [if_pos hkstack] at hrun
        obtain ⟨h4, -, hrun⟩ := Option.bind_eq_some_iff.mp hrun
        obtain ⟨h5, -, hrun⟩ := Option.bind_eq_some_iff.mp hrun
        exact absurd hrun hfail
      · rw [if_neg hkstack] at hrun
        obtain ⟨rfl, hrest⟩ := Prod.mk.inj (Option.some.inj hrun)
        obtain ⟨-, rfl⟩ := Prod.mk.inj hrest
        refine ⟨_, ?_, Sched.fillIn_state .., rfl⟩
        exact (((Same.refl s all).modify hnew _).modify hnew _).fillIn hnew ..

/-! ### `schedule` and `task_exit` -/

section Switch

variable {s : Sched} {all : List UInt32} {exits : Nat} {next : UInt32}

theorem switchTo_isDead (hlive : s.isDead next = false) : (s.switchTo next).isDead = s.isDead := by
  funext p
  unfold Sched.isDead
  rw [s.switchTo_state]
  by_cases hp : p = next
  · subst hp
    rw [if_pos rfl]
    exact hlive.symm
  · rw [if_neg hp]
    split
    · cases (s.tasks p).state <;> rfl
    · rfl

-- The current task may have died.
theorem inv_switchTo (hring : ∃ l, Cycle s.next s.head l ∧ (s.head :: l).Perm all)
    (hidle : ∀ p ∈ all, p ≠ s.current → (s.tasks p).state ≠ .running) (halive : s.isDead s.head = false)
    (hon : s.schedulingOn = true) (hdead : all.countP s.isDead = exits) (hmem : next ∈ all)
    (hlive : s.isDead next = false) : Inv (s.switchTo next) all exits := by
  refine ⟨?_, hmem, ?_, ?_, ?_, ?_, ?_⟩
  · rw [s.switchTo_next, s.switchTo_head]
    exact hring
  · intro p hp
    rw [s.switchTo_state]
    by_cases hpn : p = next
    · rw [if_pos hpn]
      exact ⟨fun _ => hpn, fun _ => rfl⟩
    · rw [if_neg hpn]
      refine ⟨fun hrun => ?_, fun he => absurd he hpn⟩
      by_cases hpc : p = s.current
      · rw [if_pos hpc] at hrun
        cases hst : (s.tasks p).state with
        | running => exact absurd (hst ▸ hrun) (by decide)
        | ready => exact absurd (hst ▸ hrun) (by decide)
        | dead => exact absurd (hst ▸ hrun) (by decide)
      · rw [if_neg hpc] at hrun
        exact absurd hrun (hidle p hp hpc)
  · rw [switchTo_isDead hlive, s.switchTo_head]
    exact halive
  · rw [s.switchTo_esp0, s.switchTo_kstackTop]
    rfl
  · rw [s.switchTo_on]
    exact hon
  · rw [switchTo_isDead hlive]
    exact hdead

/-- What a call of `schedule` can do. -/
theorem Inv.schedule (h : Inv s all exits) :
    schedule s = some (s, none) ∨
      ∃ next ∈ all, next ≠ s.current ∧ s.isDead next = false ∧
        schedule s = some (s.switchTo next, some (s.current, next)) ∧ Inv (s.switchTo next) all exits := by
  obtain ⟨l, hring, hperm⟩ := h.ring_current
  rw [schedule_eq h.on hring]
  cases hf : l.find? fun p => !s.isDead p with
  | none => exact Or.inl rfl
  | some next =>
    have hl := List.mem_of_find?_eq_some hf
    have hmem : next ∈ all := hperm.mem_iff.mp (List.mem_cons_of_mem _ hl)
    have hne : next ≠ s.current := fun he => (List.nodup_cons.mp hring.nodup).1 (he ▸ hl)
    have hlive : s.isDead next = false := by simpa using List.find?_some hf
    refine Or.inr ⟨next, hmem, hne, hlive, rfl, ?_⟩
    exact inv_switchTo h.ring (fun p hp hpc hr => hpc ((h.running p hp).mp hr)) h.alive h.on h.dead hmem
      hlive

-- One task more is dead.
theorem Inv.countP_setState (h : Inv s all exits) :
    all.countP (s.setState s.current .dead).isDead = exits + 1 := by
  have hperm := List.perm_cons_erase h.mem
  have hself : s.isDead s.current = false := by
    unfold Sched.isDead
    rw [(h.running s.current h.mem).mpr rfl]
    rfl
  have hrest : (all.erase s.current).countP (s.setState s.current .dead).isDead =
      (all.erase s.current).countP s.isDead := by
    apply List.countP_congr
    intro p hp
    have hne : p ≠ s.current := fun he => h.nodup.not_mem_erase (he ▸ hp)
    unfold Sched.isDead
    rw [s.setState_state, if_neg hne]
  have hold := h.dead
  rw [hperm.countP_eq, List.countP_cons, hself] at hold
  have hnew : (s.setState s.current .dead).isDead s.current = true := by
    unfold Sched.isDead
    rw [s.setState_state, if_pos rfl]
    rfl
  rw [hperm.countP_eq, List.countP_cons, hnew, if_pos rfl, hrest]
  simpa using hold

/-- The current task ends, and another one that is alive is switched to. -/
theorem Inv.taskExit (h : Inv s all exits) (hcur : s.current ≠ s.head) :
    ∃ s' next, taskExit s = some (s', some (s.current, next)) ∧ next ∈ all ∧ next ≠ s.current ∧
      s.isDead next = false ∧ s'.current = next ∧ s'.head = s.head ∧
      (∀ p, s'.isDead p = (p == s.current || s.isDead p)) ∧ Inv s' all (exits + 1) := by
  obtain ⟨l, hring, hperm⟩ := h.ring_current
  set s1 : Sched := { s.setState s.current .dead with schedulingOn := true } with hs1
  have hnext : s1.next = s.next := s.setState_next ..
  have hdead : ∀ p, s1.isDead p = (p == s.current || s.isDead p) := by
    intro p
    show decide (((s.setState s.current .dead).tasks p).state = .dead) = _
    rw [s.setState_state]
    by_cases hp : p = s.current
    · simp [hp]
    · simp [hp, Sched.isDead]
  have hhead : s1.isDead s.head = false := by
    rw [hdead, h.alive, Bool.or_false]
    exact beq_false_of_ne (Ne.symm hcur)
  have hheadl : s.head ∈ l := by
    rcases List.mem_cons.mp (hperm.mem_iff.mpr h.head_mem) with he | hl
    · exact absurd he.symm hcur
    · exact hl
  have hrun := schedule_eq (s := s1) (l := l) rfl (by rw [hnext]; exact hring)
  cases hf : l.find? fun p => !s1.isDead p with
  | none =>
    have hall := List.find?_eq_none.mp hf s.head hheadl
    rw [hhead] at hall
    exact absurd rfl hall
  | some next =>
    rw [hf] at hrun
    have hl := List.mem_of_find?_eq_some hf
    have hlive1 : s1.isDead next = false := by simpa using List.find?_some hf
    have hmem : next ∈ all := hperm.mem_iff.mp (List.mem_cons_of_mem _ hl)
    obtain ⟨hne, hlive⟩ : next ≠ s.current ∧ s.isDead next = false := by simpa [hdead] using hlive1
    refine ⟨s1.switchTo next, next, hrun, hmem, hne, hlive, rfl, s1.switchTo_head next, ?_, ?_⟩
    · rw [switchTo_isDead hlive1]
      exact hdead
    · refine inv_switchTo (by rw [hnext]; exact h.ring) ?_ hhead rfl h.countP_setState hmem hlive1
      intro p hp (hpc : p ≠ s.current) hr
      have hr' : ((s.setState s.current .dead).tasks p).state = .running := hr
      rw [s.setState_state, if_neg hpc] at hr'
      exact hpc ((h.running p hp).mp hr')

end Switch

/-! ### The heap -/

section Allocation

variable {m : Mem} {h : Kheap.State} {s : Sched} {all : List UInt32}

/-- The records of the tasks in `all` are live blocks; the initial one is at 0 if the heap had no room
for it. -/
def Allocated (h : Kheap.State) (all : List UInt32) : Prop := ∀ p ∈ all, p = 0 ∨ ∃ e ∈ h.live, e.1 = p

theorem Allocated.mono {h' : Kheap.State} (ha : Allocated h all) (hsub : ∀ e ∈ h.live, e ∈ h'.live) :
    Allocated h' all := by
  intro p hp
  rcases ha p hp with hp | ⟨e, he, hep⟩
  · exact Or.inl hp
  · exact Or.inr ⟨e, hsub e he, hep⟩

-- Words are pushed onto a block of the heap.
theorem reached_pushWords (hh : Kheap.Reached m h) {e : UInt32 × Nat} (he : e ∈ h.live) (ws : List UInt32)
    {k : Nat} (hk : k ≤ e.2) (hws : 4 * ws.length ≤ k) :
    Kheap.Reached m ⟨{ h.heap with mem := (h.heap.mem.pushWords (e.1 + UInt32.ofNat k) ws).1 }, h.live⟩ := by
  induction ws generalizing h k with
  | nil => exact hh
  | cons w ws ih =>
    rw [List.length_cons] at hws
    have hsub : e.1 + UInt32.ofNat k - 4 = e.1 + UInt32.ofNat (k - 4) := by
      have hsplit : UInt32.ofNat k = UInt32.ofNat (k - 4) + 4 := by
        rw [show (4 : UInt32) = UInt32.ofNat 4 from rfl, ← UInt32.ofNat_add]
        congr 1
        omega
      rw [hsplit, ← UInt32.add_assoc, UInt32.add_sub_cancel]
    have hstore := hh.setWord he (k := k - 4) (by omega) w
    rw [Mem.pushWords, hsub]
    exact ih hstore he (by omega) (by omega)

-- A new stack is filled, and where it ends is saved in the first word of the record.
theorem reached_newStack (ws : List UInt32) {t stack size : UInt32} {k n : Nat} (hh : Kheap.Reached m h)
    (ht : (t, k) ∈ h.live) (hk : 4 ≤ k) (hs : (stack, n) ∈ h.live) (hn : size.toNat ≤ n)
    (hws : 4 * ws.length ≤ size.toNat) :
    Kheap.Reached m { h with heap := { h.heap with mem :=
      (h.heap.mem.pushWords (stack + size) ws).1.setWord t (h.heap.mem.pushWords (stack + size) ws).2 } } := by
  have hpush := reached_pushWords hh hs ws hn hws
  rw [UInt32.ofNat_toNat] at hpush
  have hstore := hpush.setWord ht (k := 0) (by omega) (h.heap.mem.pushWords (stack + size) ws).2
  dsimp only at hstore
  rw [show t + UInt32.ofNat 0 = t from UInt32.add_zero t] at hstore
  exact hstore

theorem reached_initStack (fn : Entries) {t stack : UInt32} {k n : Nat} (hh : Kheap.Reached m h)
    (ht : (t, k) ∈ h.live) (hk : taskSize.toNat ≤ k) (hs : (stack, n) ∈ h.live) (hn : stackSize.toNat ≤ n) :
    Kheap.Reached m { h with heap := { h.heap with mem := initStack fn t stack h.heap.mem } } := by
  have hT : taskSize.toNat = 64 := rfl
  have hS : stackSize.toNat = 16384 := rfl
  exact reached_newStack [fn.taskExit, fn.taskBootstrap, 0, 0, 0, 0] hh ht (by omega) hs hn
    (by rw [hS]; simp)

/-- What a call of `task_create` can do. -/
theorem taskCreate_spec (fn : Entries) (name : List UInt8) (entry : UInt32) (hh : Kheap.Reached m h)
    (ha : Allocated h all) :
    ∃ t h' s', taskCreate fn name entry h s = some (t, h', s') ∧ Kheap.Reached m h' ∧
      (∀ e ∈ h.live, e ∈ h'.live) ∧
      ((t = 0 ∧ Same s s' all ∧ s'.nextId = s.nextId ∧ h'.live = h.live ∧ Kheap.Kept h.live h h') ∨
        (t ≠ 0 ∧ t ∉ all ∧ ∃ e ∈ h'.live, e.1 = t)) := by
  unfold taskCreate
  obtain ⟨t, h1, hrun1, hh1, hcase1⟩ := hh.kmalloc taskSize
  have hkept1 := hh.kmalloc_kept hrun1
  rcases hcase1 with ⟨ht, hl1⟩ | ⟨ht, hnew, k, hk, hl1⟩
  · rw [hrun1]
    refine ⟨0, h1, s, ?_, hh1, ?_, Or.inl ⟨rfl, Same.refl s all, rfl, hl1, hkept1⟩⟩
    · simp [ht]
    · rw [hl1]
      exact fun e he => he
  · have hfresh : t ∉ all := by
      intro hmem
      rcases ha t hmem with h0 | ⟨e, he, hep⟩
      · exact ht h0
      · exact hnew e he hep
    obtain ⟨stack, h2, hrun2, hh2, hcase2⟩ := hh1.kmalloc stackSize
    have hkept2 : Kheap.Kept h.live h h2 := by
      have hkept := hh1.kmalloc_kept hrun2
      rw [hl1] at hkept
      exact hkept1.trans fun e he => hkept e (List.mem_cons_of_mem _ he)
    simp only [hrun1, hrun2, Option.bind_eq_bind, Option.bind_some, if_neg ht]
    have hsame := (Same.refl s all).modify hfresh fun r => { r with stackBase := stack }
    rcases hcase2 with ⟨rfl, hl2⟩ | ⟨hstack, -, n, hn, hl2⟩
    · rw [hl1] at hl2
      obtain ⟨h3, hrun3, hh3, hl3, hkept3⟩ := hh2.kfree_newest hl2
      rw [if_pos rfl, hrun3]
      refine ⟨0, h3, _, rfl, hh3, ?_, Or.inl ⟨rfl, hsame, rfl, hl3, hkept2.trans hkept3⟩⟩
      rw [hl3]
      exact fun e he => he
    · obtain ⟨kstack, h3, hrun3, hh3, hcase3⟩ := hh2.kmalloc kstackSize
      simp only [if_neg hstack, hrun3, Option.bind_some]
      have hsame2 := hsame.modify hfresh fun r => { r with kstackBase := kstack }
      rcases hcase3 with ⟨rfl, hl3⟩ | ⟨hkstack, -, n3, -, hl3⟩
      · have hkept3 : Kheap.Kept h.live h h3 := by
          have hkept := hh2.kmalloc_kept hrun3
          rw [hl2, hl1] at hkept
          exact hkept2.trans fun e he => hkept e (List.mem_cons_of_mem _ (List.mem_cons_of_mem _ he))
        rw [hl2, hl1] at hl3
        obtain ⟨h4, hrun4, hh4, hl4, hkept4⟩ := hh3.kfree_newest hl3
        obtain ⟨h5, hrun5, hh5, hl5, hkept5⟩ := hh4.kfree_newest hl4
        have hkept : Kheap.Kept h.live h h4 :=
          hkept3.trans fun e he => hkept4 e (List.mem_cons_of_mem _ he)
        rw [if_pos rfl, hrun4, Option.bind_some, hrun5]
        refine ⟨0, h5, _, rfl, hh5, ?_, Or.inl ⟨rfl, hsame2, rfl, hl5, hkept.trans hkept5⟩⟩
        rw [hl5]
        exact fun e he => he
      · rw [if_neg hkstack]
        rw [hl2, hl1] at hl3
        refine ⟨t, _, _, rfl, ?_, ?_, Or.inr ⟨ht, hfresh, (t, k), ?_, rfl⟩⟩
        · exact reached_initStack fn hh3 (by rw [hl3]; simp) hk (by rw [hl3]; simp) hn
        · intro e he
          show e ∈ h3.live
          rw [hl3]
          simp [he]
        · show (t, k) ∈ h3.live
          rw [hl3]
          simp

end Allocation

/-! ## Runs -/

structure World where
  heap : Kheap.State
  sched : Sched
  /-- The initial task and those that `task_create` returned, the latest first. -/
  all : List UInt32
  /-- How often `task_exit` was called. -/
  exits : Nat

inductive Step (fn : Entries) : World → World → Prop where
  | create {w : World} (name : List UInt8) (entry : UInt32) {t : UInt32} {h : Kheap.State} {s : Sched}
      (hrun : taskCreate fn name entry w.heap w.sched = some (t, h, s)) :
      Step fn w ⟨h, s, if t = 0 then w.all else t :: w.all, w.exits⟩
  -- by the timer or by `yield`
  | schedule {w : World} {s : Sched} {c : Option (UInt32 × UInt32)}
      (hrun : schedule w.sched = some (s, c)) : Step fn w { w with sched := s }
  | exit {w : World} (hcur : w.sched.current ≠ w.sched.head) {s : Sched} {c : Option (UInt32 × UInt32)}
      (hrun : taskExit w.sched = some (s, c)) : Step fn w { w with sched := s, exits := w.exits + 1 }
  -- other code allocates, frees and writes blocks, but frees no record of a task
  | heap {w : World} {h : Kheap.State} (hst : Kheap.Step w.heap h)
      (hkeep : ∀ e ∈ w.heap.live, e.1 ∈ w.all → e ∈ h.live) : Step fn w { w with heap := h }

/-- `w` is reached from `tasking_init`, called in a state that the heap reached from the memory `m`. -/
inductive Reached (m : Mem) (fn : Entries) : World → Prop where
  | init {h h' : Kheap.State} {s s' : Sched} (hheap : Kheap.Reached m h)
      (hrun : taskingInit h s = some (h', s')) : Reached m fn ⟨h', s', [s'.current], 0⟩
  | step {w w' : World} (h : Reached m fn w) (hst : Step fn w w') : Reached m fn w'

structure WorldInv (m : Mem) (w : World) : Prop where
  heap : Kheap.Reached m w.heap
  alloc : Allocated w.heap w.all
  first : w.all.getLast? = some w.sched.head
  inv : Inv w.sched w.all w.exits

variable {m : Mem} {fn : Entries} {w w' : World}

theorem taskingInit_inv {h : Kheap.State} (hheap : Kheap.Reached m h) (s : Sched) :
    ∃ h' s', taskingInit h s = some (h', s') ∧ WorldInv m ⟨h', s', [s'.current], 0⟩ := by
  obtain ⟨p, h1, hrun1, hh1, hcase1⟩ := hheap.kmalloc taskSize
  obtain ⟨kstack, h2, hrun2, hh2, hcase2⟩ := hh1.kmalloc kstackSize
  have hsub : ∀ e ∈ h1.live, e ∈ h2.live := by
    intro e he
    rcases hcase2 with ⟨-, hl2⟩ | ⟨-, -, n, -, hl2⟩
    · rw [hl2]
      exact he
    · rw [hl2]
      exact List.mem_cons_of_mem _ he
  have hrun : ∃ s', taskingInit h s = some (h2, s') ∧ s'.current = p := by
    unfold taskingInit
    simp only [hrun1, hrun2, Option.bind_eq_bind, Option.bind_some]
    exact ⟨_, rfl, rfl⟩
  obtain ⟨s', hrun, hcur⟩ := hrun
  obtain ⟨hhead, hinv⟩ := taskingInit_some hrun
  refine ⟨h2, s', hrun, hh2, ?_, by rw [hhead]; rfl, hinv⟩
  intro q hq
  obtain rfl := List.mem_singleton.mp hq
  rcases hcase1 with ⟨h0, -⟩ | ⟨-, -, k, -, hl1⟩
  · exact Or.inl (hcur.trans h0)
  · refine Or.inr ⟨(p, k), hsub _ ?_, hcur.symm⟩
    rw [hl1]
    exact List.mem_cons_self

/-- A step keeps the invariant and the tasks there are, and no dead task comes back. -/
theorem WorldInv.step (h : WorldInv m w) (hst : Step fn w w') :
    WorldInv m w' ∧ (∀ p ∈ w.all, p ∈ w'.all) ∧
      ∀ p ∈ w.all, w.sched.isDead p = true → w'.sched.isDead p = true := by
  cases hst with
  | create name entry hrun =>
    obtain ⟨t, h', s', hrun', hheap, hsub, hcase⟩ :=
      taskCreate_spec (s := w.sched) fn name entry h.heap h.alloc
    rw [hrun', Option.some.injEq, Prod.mk.injEq, Prod.mk.injEq] at hrun
    obtain ⟨rfl, rfl, rfl⟩ := hrun
    rcases hcase with ⟨rfl, hsame, -⟩ | ⟨ht, hfresh, hlive⟩
    · rw [if_pos rfl]
      refine ⟨⟨hheap, h.alloc.mono hsub, ?_, h.inv.congr hsame⟩, fun p hp => hp, ?_⟩
      · rw [hsame.head]
        exact h.first
      · intro p hp hd
        rw [hsame.isDead hp]
        exact hd
    · obtain ⟨s1, hsame, hready, rfl⟩ := taskCreate_some hrun' ht hfresh
      rw [if_neg ht]
      have hinv := h.inv.congr hsame
      refine ⟨⟨hheap, ?_, ?_, hinv.link hfresh ?_⟩, fun p hp => List.mem_cons_of_mem t hp, ?_⟩
      · intro p hp
        rcases List.mem_cons.mp hp with rfl | hp
        · exact Or.inr hlive
        · exact h.alloc.mono hsub p hp
      · show (t :: w.all).getLast? = some s1.head
        rw [hsame.head, ← h.first, List.getLast?_cons]
        cases hl : w.all.getLast? with
        | none => rw [h.first] at hl; cases hl
        | some x => rfl
      · exact hready
      · intro p hp hd
        rw [link_isDead, hsame.isDead hp]
        exact hd
  | schedule hrun =>
    rcases h.inv.schedule with hrun' | ⟨next, -, -, hlive, hrun', hinv⟩
    · obtain ⟨rfl, -⟩ := Prod.mk.inj (Option.some.inj (hrun'.symm.trans hrun))
      exact ⟨h, fun p hp => hp, fun p _ hd => hd⟩
    · obtain ⟨rfl, -⟩ := Prod.mk.inj (Option.some.inj (hrun'.symm.trans hrun))
      refine ⟨⟨h.heap, h.alloc, ?_, hinv⟩, fun p hp => hp, ?_⟩
      · rw [h.first, Sched.switchTo_head]
      · intro p _ hd
        rw [switchTo_isDead hlive]
        exact hd
  | exit hcur hrun =>
    obtain ⟨s', next, hrun', -, -, -, -, hhead, hdead, hinv⟩ := h.inv.taskExit hcur
    obtain ⟨rfl, -⟩ := Prod.mk.inj (Option.some.inj (hrun'.symm.trans hrun))
    refine ⟨⟨h.heap, h.alloc, ?_, hinv⟩, fun p hp => hp, ?_⟩
    · rw [h.first, hhead]
    · intro p _ hd
      rw [hdead, hd, Bool.or_true]
  | heap hst hkeep =>
    refine ⟨⟨h.heap.step hst, ?_, h.first, h.inv⟩, fun p hp => hp, fun p _ hd => hd⟩
    intro p hp
    rcases h.alloc p hp with h0 | ⟨e, he, rfl⟩
    · exact Or.inl h0
    · exact Or.inr ⟨e, hkeep e he hp, rfl⟩

theorem worldInv_reached (h : Reached m fn w) : WorldInv m w := by
  induction h with
  | init hheap hrun =>
    obtain ⟨h', s', hrun', hinv⟩ := taskingInit_inv hheap _
    obtain ⟨rfl, rfl⟩ := Prod.mk.inj (Option.some.inj (hrun'.symm.trans hrun))
    exact hinv
  | step _ hst ih => exact (ih.step hst).1

-- Death is for ever.
theorem WorldInv.dead_run (h : WorldInv m w) {p : UInt32} (hp : p ∈ w.all) (hd : w.sched.isDead p = true)
    (hrun : Relation.ReflTransGen (Step fn) w w') :
    w'.sched.isDead p = true ∧ w'.sched.current ≠ p := by
  have hkeep : WorldInv m w' ∧ p ∈ w'.all ∧ w'.sched.isDead p = true := by
    induction hrun with
    | refl => exact ⟨h, hp, hd⟩
    | tail _ hst ih =>
      obtain ⟨hinv, hmem, hdead⟩ := ih
      obtain ⟨hinv', hall, hstay⟩ := hinv.step hst
      exact ⟨hinv', hall p hmem, hstay p hmem hdead⟩
  obtain ⟨hinv, hmem, hdead⟩ := hkeep
  refine ⟨hdead, ?_⟩
  rintro rfl
  unfold Sched.isDead at hdead
  rw [(hinv.inv.running _ hmem).mpr rfl] at hdead
  exact absurd hdead (by decide)

/-- What the scheduler guarantees in a state. -/
structure SchedInv (fn : Entries) (w : World) : Prop where
  /-- Following `next` from `head` is one cycle through all tasks. -/
  ring : ∃ l, Cycle w.sched.next w.sched.head l ∧ (w.sched.head :: l).Perm w.all
  /-- `head` is the initial task. -/
  first : w.all.getLast? = some w.sched.head
  mem : w.sched.current ∈ w.all
  running : ∀ p ∈ w.all, (w.sched.tasks p).state = .running ↔ p = w.sched.current
  esp0 : w.sched.esp0 = (w.sched.tasks w.sched.current).kstackTop
  count : w.exits ≤ w.all.length ∧ taskCount w.sched = some (w.all.length - w.exits)
  create : ∀ name entry, ∃ r, taskCreate fn name entry w.heap w.sched = some r
  schedule : ∃ r, schedule w.sched = some r
  /-- `task_exit` switches to another task, which is alive. -/
  exit : w.sched.current ≠ w.sched.head → ∃ s next, taskExit w.sched = some (s, some (w.sched.current, next)) ∧
    next ∈ w.all ∧ next ≠ w.sched.current ∧ w.sched.isDead next = false ∧ s.current = next ∧
    s.isDead w.sched.current = true
  /-- A dead task stays dead and is never current. -/
  dead : ∀ p ∈ w.all, w.sched.isDead p = true → ∀ w', Relation.ReflTransGen (Step fn) w w' →
    w'.sched.isDead p = true ∧ w'.sched.current ≠ p

theorem Inv.taskCount {s : Sched} {all : List UInt32} {exits : Nat} (h : Inv s all exits) :
    exits ≤ all.length ∧ taskCount s = some (all.length - exits) := by
  obtain ⟨l, hring, hperm⟩ := h.ring
  have hsplit := List.length_eq_countP_add_countP s.isDead (l := all)
  rw [h.dead] at hsplit
  have hlive : (all.countP fun p => decide ¬ s.isDead p = true) = all.countP fun p => !s.isDead p := by
    apply List.countP_congr
    intro p _
    simp
  rw [hlive] at hsplit
  rw [taskCount_eq hring, hperm.countP_eq]
  refine ⟨by omega, ?_⟩
  congr 1
  omega

/-- The scheduler's guarantees hold in every state of every run. -/
theorem schedInv_reached (h : Reached m fn w) : SchedInv fn w := by
  have hw := worldInv_reached h
  have hinv := hw.inv
  refine ⟨hinv.ring, hw.first, hinv.mem, hinv.running, hinv.esp0, hinv.taskCount, ?_, ?_, ?_, ?_⟩
  · intro name entry
    obtain ⟨t, h', s', hrun, -⟩ := taskCreate_spec (s := w.sched) fn name entry hw.heap hw.alloc
    exact ⟨_, hrun⟩
  · rcases hinv.schedule with hrun | ⟨next, -, -, -, hrun, -⟩
    · exact ⟨_, hrun⟩
    · exact ⟨_, hrun⟩
  · intro hcur
    obtain ⟨s, next, hrun, hmem, hne, hlive, hcurrent, -, hdead, -⟩ := hinv.taskExit hcur
    refine ⟨s, next, hrun, hmem, hne, hlive, hcurrent, ?_⟩
    rw [hdead, beq_self_eq_true, Bool.true_or]
  · intro p hp hd w' hrun
    exact hw.dead_run hp hd hrun

/-! ## Two workers on a fresh heap -/

-- The three blocks are cut from the end of the heap.
theorem taskCreate_room {h : Kheap.State} {pre : List FirstFit.Blk} {size : Nat} (hh : Kheap.Reached m h)
    (hinv : Kheap.Inv h (pre ++ [⟨size, true⟩])) (hpre : ∀ b ∈ pre, b.free = false) (hsize : 24684 ≤ size)
    (fn : Entries) (name : List UInt8) (entry : UInt32) (s : Sched) :
    ∃ t h' s', taskCreate fn name entry h s = some (t, h', s') ∧ t ≠ 0 ∧ Kheap.Reached m h' ∧
      Kheap.Inv h' (pre ++ [⟨64, false⟩] ++ [⟨16384, false⟩] ++ [⟨8192, false⟩] ++ [⟨size - 24676, true⟩]) := by
  have hround : (Kheap.align8 taskSize).toNat = 64 ∧ (Kheap.align8 stackSize).toNat = 16384 ∧
      (Kheap.align8 kstackSize).toNat = 8192 := by decide
  obtain ⟨h64, h16384, h8192⟩ := hround
  have hpre1 := Kheap.inUse_snoc 64 hpre
  obtain ⟨t, h1, hrun1, ht, hh1, hinv1, k, hk, hl1⟩ :=
    hh.kmalloc_last hinv hpre (n := taskSize) (by decide) (by omega)
  rw [h64] at hinv1
  obtain ⟨stack, h2, hrun2, hstack, hh2, hinv2, n, hn, hl2⟩ :=
    hh1.kmalloc_last hinv1 hpre1 (n := stackSize) (by decide) (by omega)
  rw [h16384] at hinv2
  obtain ⟨kstack, h3, hrun3, hkstack, hh3, hinv3, j, hj, hl3⟩ :=
    hh2.kmalloc_last hinv2 (Kheap.inUse_snoc 16384 hpre1) (n := kstackSize) (by decide) (by omega)
  rw [h8192, show size - 64 - 12 - 16384 - 12 - 8192 - 12 = size - 24676 by omega] at hinv3
  have htlive : (t, k) ∈ h3.live := by
    rw [hl3, hl2, hl1]
    exact List.mem_cons_of_mem _ (List.mem_cons_of_mem _ List.mem_cons_self)
  have hslive : (stack, n) ∈ h3.live := by
    rw [hl3, hl2]
    exact List.mem_cons_of_mem _ List.mem_cons_self
  have hh' := reached_initStack fn hh3 htlive (Nat.le_trans (by decide) hk) hslive (Nat.le_trans (by decide) hn)
  unfold taskCreate
  simp only [hrun1, hrun2, hrun3, Option.bind_eq_bind, Option.bind_some, if_neg ht, if_neg hstack, if_neg hkstack]
  refine ⟨t, _, _, rfl, ht, hh', ?_⟩
  -- what is stored on the stack is in no header
  obtain ⟨bs, hinv'⟩ := Kheap.inv_reached hh'
  rwa [← hinv3.blocks_eq hinv' (List.Perm.refl _)] at hinv'

/-- The variables of `task.c` before `tasking_init`. -/
def noTasks : Sched := ⟨fun _ => ⟨0, 0, 0, 0, [], .dead, 0, 0⟩, 0, 0, 0, false, 0⟩

theorem taskingInit_kheapInit : ∃ h s, taskingInit ⟨Kheap.kheapInit m, []⟩ noTasks = some (h, s) ∧
    Kheap.Reached m h ∧ Kheap.Inv h ([⟨64, false⟩, ⟨8192, false⟩] ++ [⟨4186012, true⟩]) := by
  have hround : (Kheap.align8 taskSize).toNat = 64 ∧ (Kheap.align8 kstackSize).toNat = 8192 := by decide
  obtain ⟨h64, h8192⟩ := hround
  have hS : Kheap.heapSize = 0x400000 := rfl
  have hinv0 : Kheap.Inv ⟨Kheap.kheapInit m, []⟩ ([] ++ [⟨Kheap.heapSize - 12, true⟩]) := Kheap.inv_init m
  obtain ⟨p, h1, hrun1, -, hh1, hinv1, -⟩ :=
    Kheap.Reached.init.kmalloc_last hinv0 (fun b hb => absurd hb List.not_mem_nil) (n := taskSize) (by decide)
      (by omega)
  rw [h64] at hinv1
  obtain ⟨kstack, h2, hrun2, -, hh2, hinv2, -⟩ :=
    hh1.kmalloc_last hinv1 (fun b hb => by rw [List.mem_singleton.mp hb]) (n := kstackSize) (by decide) (by omega)
  rw [h8192] at hinv2
  unfold taskingInit
  simp only [hrun1, hrun2, Option.bind_eq_bind, Option.bind_some]
  exact ⟨h2, _, rfl, hh2, hinv2⟩

-- A task that `task_create` returns is a new one.
theorem WorldInv.create_fresh (h : WorldInv m w) {name : List UInt8} {entry t : UInt32} {h' : Kheap.State} {s' : Sched}
    (hrun : taskCreate fn name entry w.heap w.sched = some (t, h', s')) (ht : t ≠ 0) : t ∉ w.all := by
  obtain ⟨u, h1, s1, hrun', -, -, hcase⟩ := taskCreate_spec (s := w.sched) fn name entry h.heap h.alloc
  obtain ⟨rfl, -⟩ := Prod.mk.inj (Option.some.inj (hrun'.symm.trans hrun))
  rcases hcase with ⟨h0, -⟩ | ⟨-, hfresh, -⟩
  · exact absurd h0 ht
  · exact hfresh

-- Nothing but the ring and the record of the new task changes.
theorem WorldInv.create_links (h : WorldInv m w) {name : List UInt8} {entry t : UInt32} {h' : Kheap.State} {s' : Sched}
    (hrun : taskCreate fn name entry w.heap w.sched = some (t, h', s')) (ht : t ≠ 0) :
    s'.current = w.sched.current ∧ s'.head = w.sched.head ∧ s'.next s'.head = t := by
  obtain ⟨s1, hsame, -, rfl⟩ := taskCreate_some hrun ht (h.create_fresh hrun ht)
  refine ⟨hsame.current, hsame.head, ?_⟩
  unfold Sched.link
  dsimp only
  rw [Sched.setNext_next]
  exact if_pos rfl

-- The later one comes first in the ring.
theorem workers_created (fn : Entries) : ∃ h s t h₁ s₁ u h₂ s₂,
    taskingInit ⟨Kheap.kheapInit m, []⟩ noTasks = some (h, s) ∧
    taskCreate fn (ascii "worker") 0x5000 h s = some (t, h₁, s₁) ∧ t ≠ 0 ∧
    taskCreate fn (ascii "clock") 0x6000 h₁ s₁ = some (u, h₂, s₂) ∧ u ≠ 0 ∧
    Reached m fn ⟨h₂, s₂, [u, t, s.current], 0⟩ ∧ s₂.current = s.current ∧ s₂.next s.current = u := by
  obtain ⟨h, s, hinit, hh, hinv⟩ := taskingInit_kheapInit (m := m)
  have hused : ∀ b ∈ ([⟨64, false⟩, ⟨8192, false⟩] : List FirstFit.Blk), b.free = false := by simp
  obtain ⟨t, h₁, s₁, hrun₁, ht, hh₁, hinv₁⟩ :=
    taskCreate_room hh hinv hused (by decide) fn (ascii "worker") 0x5000 s
  obtain ⟨u, h₂, s₂, hrun₂, hu, -⟩ :=
    taskCreate_room hh₁ hinv₁ (by simp) (by decide) fn (ascii "clock") 0x6000 s₁
  have hw : Reached m fn ⟨h, s, [s.current], 0⟩ := .init .init hinit
  have hw₁ := hw.step (.create (ascii "worker") 0x5000 hrun₁)
  rw [if_neg ht] at hw₁
  have hw₂ := hw₁.step (.create (ascii "clock") 0x6000 hrun₂)
  rw [if_neg hu] at hw₂
  obtain ⟨hcur₁, hhead₁, -⟩ := (worldInv_reached hw).create_links hrun₁ ht
  obtain ⟨hcur₂, hhead₂, hnext⟩ := (worldInv_reached hw₁).create_links hrun₂ hu
  have hhead : s.head = s.current := (Option.some.inj (worldInv_reached hw).first).symm
  dsimp only at hcur₁ hhead₁ hcur₂ hhead₂
  rw [hhead₂, hhead₁, hhead] at hnext
  exact ⟨h, s, t, h₁, s₁, u, h₂, s₂, hinit, hrun₁, ht, hrun₂, hu, hw₂, hcur₂.trans hcur₁, hnext⟩

-- Two tasks are created on a fresh heap.
theorem schedInv_reached_create : ∃ h s t h₁ s₁ u h₂ s₂,
    taskingInit ⟨Kheap.kheapInit fun _ => 0, []⟩ noTasks = some (h, s) ∧
    taskCreate ⟨0x1000, 0x2000⟩ (ascii "worker") 0x5000 h s = some (t, h₁, s₁) ∧ t ≠ 0 ∧
    taskCreate ⟨0x1000, 0x2000⟩ (ascii "clock") 0x6000 h₁ s₁ = some (u, h₂, s₂) ∧ u ≠ 0 ∧
    SchedInv ⟨0x1000, 0x2000⟩ ⟨h₂, s₂, [u, t, s.current], 0⟩ := by
  obtain ⟨h, s, t, h₁, s₁, u, h₂, s₂, hinit, hrun₁, ht, hrun₂, hu, hreach, -⟩ :=
    workers_created (m := fun _ => 0) ⟨0x1000, 0x2000⟩
  exact ⟨h, s, t, h₁, s₁, u, h₂, s₂, hinit, hrun₁, ht, hrun₂, hu, schedInv_reached hreach⟩

end JacobOS.Tasking
