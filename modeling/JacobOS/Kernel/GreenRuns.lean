import JacobOS.Kernel.Green
import JacobOS.Mem.HeapUndo

/-!
# Heap, tasks and fibers together

The runs of the scheduler, with the fibers of one kernel task beside it.  A `task_create` or `gt_spawn`
that fails gives back what it had allocated, so the heap, the tasks and the fibers are as before.
-/

namespace JacobOS.Green

open Ring
open Tasking (Entries taskCreate)

/-! ## Runs -/

structure World where
  tasking : Tasking.World
  fibers : Fibers
  /-- The scheduler of `gt_run` has switched to `g_current`. -/
  inFiber : Bool

def World.heap (w : World) : Kheap.State := w.tasking.heap

def World.sched (w : World) : Tasking.Sched := w.tasking.sched

/-- The blocks of the fibers in the ring are live in `h` too. -/
def KeepsFibers (w : World) (h : Kheap.State) : Prop :=
  ∀ l, RingOf w.fibers l → ∀ e ∈ w.heap.live, e.1 ∈ w.fibers.blocks l → e ∈ h.live

inductive Step (fn : Entries) (trampoline : UInt32) : World → World → Prop where
  -- the scheduler and the rest of the kernel, which free no block of a fiber
  | tasking {w : World} {t : Tasking.World} (hst : Tasking.Step fn w.tasking t)
      (hkeep : KeepsFibers w t.heap) : Step fn trampoline w { w with tasking := t }
  | init {w : World} (hout : w.inFiber = false) :
      Step fn trampoline w { w with fibers := gtInit w.fibers }
  | spawn {w : World} (entry : UInt32) {r : Int} {h : Kheap.State} {g : Fibers}
      (hrun : gtSpawn trampoline entry w.heap w.fibers = some (r, h, g)) :
      Step fn trampoline w { w with tasking := { w.tasking with heap := h }, fibers := g }
  -- `gt_run`, up to the switch to a fiber
  | enter {w : World} (hout : w.inFiber = false) {next : UInt32} {g : Fibers}
      (hrun : pickNext w.fibers = some (next, g)) (hnext : next ≠ 0) (esp : UInt32) :
      Step fn trampoline w { w with fibers := g.enter next esp, inFiber := true }
  -- the fiber calls `gt_yield`
  | yield {w : World} (hin : w.inFiber = true) :
      Step fn trampoline w { w with fibers := w.fibers.back, inFiber := false }
  -- its entry function returns
  | exit {w : World} (hin : w.inFiber = true) :
      Step fn trampoline w { w with fibers := w.fibers.finish.back, inFiber := false }
  -- `gt_run` finds no fiber that is ready
  | done {w : World} (hout : w.inFiber = false) {g g' : Fibers} {h : Kheap.State}
      (hrun : pickNext w.fibers = some (0, g)) (hfree : freeAll w.heap g = some (h, g')) :
      Step fn trampoline w { w with tasking := { w.tasking with heap := h }, fibers := g' }

/-- `w` is reached from a state of the scheduler in which there are no fibers yet. -/
inductive Reached (m : Mem) (fn : Entries) (trampoline : UInt32) : World → Prop where
  | init {t : Tasking.World} (ht : Tasking.Reached m fn t) {g : Fibers} (hring : g.ring = 0) :
      Reached m fn trampoline ⟨t, g, false⟩
  | step {w w' : World} (h : Reached m fn trampoline w) (hst : Step fn trampoline w w') :
      Reached m fn trampoline w'

/-! ## The invariant -/

/-- The ring of fibers is `l`; its blocks are live, each once, and none is a task. -/
structure FiberInv (h : Kheap.State) (tasks : List UInt32) (g : Fibers) (l : List UInt32) : Prop where
  ring : RingOf g l
  owned : Owned h (g.blocks l)
  apart : ∀ p ∈ g.blocks l, p ∉ tasks

namespace FiberInv

variable {h h' : Kheap.State} {tasks : List UInt32} {g g' : Fibers} {l : List UInt32}

theorem nil (hring : g.ring = 0) : FiberInv h tasks g [] :=
  ⟨.none hring, ⟨List.nodup_nil, fun _ hp => absurd hp (by simp [Fibers.blocks])⟩,
    fun _ hp => absurd hp (by simp [Fibers.blocks])⟩

theorem heap (hf : FiberInv h tasks g l)
    (hkeep : ∀ e ∈ h.live, e.1 ∈ g.blocks l → e ∈ h'.live) : FiberInv h' tasks g l := by
  refine ⟨hf.ring, ⟨hf.owned.nodup, ?_⟩, hf.apart⟩
  intro p hp
  obtain ⟨e, he, rfl⟩ := hf.owned.live p hp
  exact ⟨e, hkeep e he hp, rfl⟩

-- Links and stacks stay; states may change.
theorem congr (hf : FiberInv h tasks g l) (hring : g'.ring = g.ring) (hnext : g'.next = g.next)
    (hbase : g'.stackBase = g.stackBase) : FiberInv h tasks g' l := by
  have hblocks : g'.blocks l = g.blocks l := by
    unfold Fibers.blocks
    rw [hbase]
  refine ⟨hf.ring.congr hring fun p _ => by rw [hnext], ?_, ?_⟩
  · rw [hblocks]
    exact hf.owned
  · rw [hblocks]
    exact hf.apart

theorem setState (hf : FiberInv h tasks g l) (p : UInt32) (st : GtState) :
    FiberInv h tasks (g.setState p st) l :=
  hf.congr rfl (g.setState_next p st) (g.setState_stackBase p st)

theorem back (hf : FiberInv h tasks g l) : FiberInv h tasks g.back l := by
  unfold Fibers.back
  split
  · exact hf.setState g.current .ready
  · exact hf

theorem enter (hf : FiberInv h tasks g l) (next esp : UInt32) : FiberInv h tasks (g.enter next esp) l :=
  hf.congr rfl (g.setState_next next .running) (g.setState_stackBase next .running)

end FiberInv

structure WorldInv (m : Mem) (w : World) : Prop where
  tasking : Tasking.WorldInv m w.tasking
  fibers : ∃ l, FiberInv w.heap w.tasking.all w.fibers l

section Runs

variable {m : Mem} {fn : Entries} {trampoline : UInt32} {w w' : World}

-- A new task is no block of a fiber.
theorem create_apart {t : Tasking.World} {l : List UInt32} (hw : Tasking.WorldInv m w.tasking)
    (hf : FiberInv w.heap w.tasking.all w.fibers l) (hst : Tasking.Step fn w.tasking t) :
    ∀ p ∈ w.fibers.blocks l, p ∉ t.all := by
  intro p hp
  cases hst with
  | create name entry hrun =>
    have halloc : Tasking.Allocated w.heap (w.tasking.all ++ w.fibers.blocks l) := by
      intro q hq
      rcases List.mem_append.mp hq with hq | hq
      · exact hw.alloc q hq
      · exact Or.inr (hf.owned.live q hq)
    obtain ⟨t', h', s', hrun', -, -, hcase⟩ :=
      Tasking.taskCreate_spec (s := w.tasking.sched) fn name entry hw.heap halloc
    rw [hrun', Option.some.injEq, Prod.mk.injEq] at hrun
    obtain ⟨rfl, -⟩ := hrun
    dsimp only
    split
    · exact hf.apart p hp
    · rcases hcase with ⟨h0, -⟩ | ⟨-, hfresh, -⟩
      · exact absurd h0 ‹_›
      · rw [List.mem_cons, not_or]
        refine ⟨?_, hf.apart p hp⟩
        rintro rfl
        exact hfresh (List.mem_append_right _ hp)
  | schedule _ => exact hf.apart p hp
  | exit _ _ => exact hf.apart p hp
  | heap _ _ => exact hf.apart p hp

theorem WorldInv.spawn (h : WorldInv m w) {entry : UInt32} {r : Int} {h' : Kheap.State} {g : Fibers}
    (hrun : gtSpawn trampoline entry w.heap w.fibers = some (r, h', g)) :
    WorldInv m { w with tasking := { w.tasking with heap := h' }, fibers := g } := by
  obtain ⟨ht, l, hf⟩ := h
  obtain ⟨r', h'', g', hrun', hh, hsub, hcase⟩ := gtSpawn_spec trampoline entry ht.heap hf.ring hf.owned
  rw [World.heap] at hrun
  rw [hrun', Option.some.injEq, Prod.mk.injEq, Prod.mk.injEq] at hrun
  obtain ⟨rfl, rfl, rfl⟩ := hrun
  refine ⟨⟨hh, ht.alloc.mono hsub, ht.first, ht.inv⟩, ?_⟩
  rcases hcase with ⟨-, hsame, hlive, -⟩ | ⟨-, t, hring, howned, hblocks, -, hfresh, -⟩
  · refine ⟨l, hsame.ringOf hf.ring, ?_, ?_⟩
    · rw [hsame.blocks_eq]
      refine ⟨hf.owned.nodup, fun p hp => ?_⟩
      obtain ⟨e, he, hep⟩ := hf.owned.live p hp
      exact ⟨e, hsub e he, hep⟩
    · rw [hsame.blocks_eq]
      exact hf.apart
  · refine ⟨t :: l, hring, howned, ?_⟩
    -- a task is at 0 or in a block that was live before
    have hnew : ∀ p ∈ g'.blocks (t :: l), p = t ∨ p = g'.stackBase t → p ∉ w.tasking.all := by
      intro p hp hpt hall
      have hp0 := ne_zero_of_owned hh howned hp
      rcases ht.alloc p hall with h0 | ⟨e, he, rfl⟩
      · exact hp0 h0
      · rcases hpt with heq | heq
        · exact (hfresh e he).1 heq
        · exact (hfresh e he).2 heq
    intro p hp
    have hsplit : p = t ∨ p = g'.stackBase t ∨ p ∈ g'.blocks l := by
      simpa [Fibers.blocks] using hp
    rcases hsplit with heq | heq | hold
    · exact hnew p hp (Or.inl heq)
    · exact hnew p hp (Or.inr heq)
    · rw [hblocks] at hold
      exact hf.apart p hold

theorem WorldInv.done (h : WorldInv m w) {g g' : Fibers} {h' : Kheap.State}
    (hrun : pickNext w.fibers = some (0, g)) (hfree : freeAll w.heap g = some (h', g')) :
    WorldInv m { w with tasking := { w.tasking with heap := h' }, fibers := g' } := by
  obtain ⟨ht, l, hf⟩ := h
  have hsame : g = w.fibers := by
    rcases pickNext_some hf.ring hrun with ⟨-, heq⟩ | ⟨hin, -⟩
    · exact heq
    · exact absurd rfl (ne_zero_of_owned ht.heap hf.owned (mem_blocks_of_mem hin))
  subst hsame
  obtain ⟨h'', g'', hfree', hh, hring, hmem⟩ := freeAll_spec ht.heap hf.ring hf.owned
  rw [World.heap] at hfree
  rw [hfree', Option.some.injEq, Prod.mk.injEq] at hfree
  obtain ⟨rfl, rfl⟩ := hfree
  refine ⟨⟨hh, ?_, ht.first, ht.inv⟩, [], .nil hring.ring_eq_zero⟩
  intro p hp
  rcases ht.alloc p hp with h0 | ⟨e, he, rfl⟩
  · exact Or.inl h0
  · exact Or.inr ⟨e, (hmem e).mpr ⟨he, fun hin => hf.apart _ hin hp⟩, rfl⟩

theorem WorldInv.step (h : WorldInv m w) (hst : Step fn trampoline w w') : WorldInv m w' := by
  obtain ⟨ht, l, hf⟩ := h
  cases hst with
  | tasking hst hkeep =>
    refine ⟨(ht.step hst).1, l, ?_⟩
    have hkept := hf.heap (hkeep l hf.ring)
    exact ⟨hkept.ring, hkept.owned, create_apart (w := w) ht hf hst⟩
  | init hout => exact ⟨ht, [], .nil rfl⟩
  | spawn entry hrun => exact WorldInv.spawn ⟨ht, l, hf⟩ hrun
  | enter hout hrun hnext esp =>
    rcases pickNext_some hf.ring hrun with ⟨h0, -⟩ | ⟨hin, -, rfl⟩
    · exact absurd h0 hnext
    · have hmem := hf.ring.next_mem hin
      have hp0 := ne_zero_of_owned ht.heap hf.owned (mem_blocks_of_mem hmem)
      have hf' : FiberInv w.heap w.tasking.all { w.fibers with ring := w.fibers.next _ } l :=
        ⟨hf.ring.reenter hmem hp0, hf.owned, hf.apart⟩
      exact ⟨ht, l, hf'.enter _ esp⟩
  | yield hin => exact ⟨ht, l, hf.back⟩
  | exit hin => exact ⟨ht, l, (hf.setState _ .dead).back⟩
  | done hout hrun hfree => exact WorldInv.done ⟨ht, l, hf⟩ hrun hfree

theorem worldInv_reached (h : Reached m fn trampoline w) : WorldInv m w := by
  induction h with
  | init ht hring => exact ⟨Tasking.worldInv_reached ht, [], .nil hring⟩
  | step _ hst ih => exact ih.step hst

/-! ## Creation that fails -/

/-- The heap has the same blocks, and the same bytes in the payloads of all live pointers. -/
def SameHeap (h h' : Kheap.State) : Prop :=
  Kheap.SameBlocks h.heap h'.heap ∧ h'.live = h.live ∧ Kheap.Kept h.live h h'

/-- The ring of tasks, its records and the variables of `task.c` are the same. -/
structure SameTasks (s s' : Tasking.Sched) : Prop where
  ring : ∃ l, Cycle s.next s.head l ∧ Cycle s'.next s'.head l ∧
    ∀ p ∈ s.head :: l, s'.tasks p = s.tasks p
  head : s'.head = s.head
  current : s'.current = s.current
  nextId : s'.nextId = s.nextId
  esp0 : s'.esp0 = s.esp0

/-- The ring of fibers, its records and the variables of `green.c` are the same. -/
def SameFibers (g g' : Fibers) : Prop := ∃ l, RingOf g l ∧ RingOf g' l ∧ Same g g' l

/-- What the two calls that create a thread leave behind when they fail. -/
structure NoTrace (fn : Entries) (trampoline : UInt32) (w : World) : Prop where
  taskCreate : ∀ name entry, ∃ t h s, taskCreate fn name entry w.heap w.sched = some (t, h, s) ∧
    (t = 0 → SameHeap w.heap h ∧ SameTasks w.sched s)
  gtSpawn : ∀ entry, ∃ r h g, gtSpawn trampoline entry w.heap w.fibers = some (r, h, g) ∧
    (r = 0 ∨ r = -1) ∧ (r = -1 → SameHeap w.heap h ∧ SameFibers w.fibers g)

theorem sameHeap_of_live {h h' : Kheap.State} (hh : Kheap.Reached m h) (hh' : Kheap.Reached m h')
    (hlive : h'.live = h.live) (hkept : Kheap.Kept h.live h h') : SameHeap h h' :=
  ⟨Kheap.sameBlocks_of_live hh hh' (by rw [hlive]), hlive, hkept⟩

theorem sameTasks_of_same {s s' : Tasking.Sched} {all : List UInt32} {exits : Nat}
    (hinv : Tasking.Inv s all exits) (hsame : Tasking.Same s s' all) (hid : s'.nextId = s.nextId) :
    SameTasks s s' := by
  obtain ⟨l, hcycle, hperm⟩ := hinv.ring
  have htasks : ∀ p ∈ s.head :: l, s'.tasks p = s.tasks p :=
    fun p hp => hsame.tasks p (hperm.mem_iff.mp hp)
  refine ⟨⟨l, hcycle, ?_, htasks⟩, hsame.head, hsame.current, hid, hsame.esp0⟩
  rw [hsame.head]
  refine hcycle.congr fun p hp => ?_
  unfold Tasking.Sched.next
  rw [htasks p hp]

/-- A thread that could not be created leaves no trace, whichever allocation failed. -/
theorem noTrace_reached (h : Reached m fn trampoline w) : NoTrace fn trampoline w := by
  obtain ⟨ht, l, hf⟩ := worldInv_reached h
  refine ⟨?_, ?_⟩
  · intro name entry
    obtain ⟨t, h', s', hrun, hh, -, hcase⟩ :=
      Tasking.taskCreate_spec (s := w.sched) fn name entry ht.heap ht.alloc
    refine ⟨t, h', s', hrun, fun h0 => ?_⟩
    rcases hcase with ⟨-, hsame, hid, hlive, hkept⟩ | ⟨hne, -⟩
    · exact ⟨sameHeap_of_live ht.heap hh hlive hkept, sameTasks_of_same ht.inv hsame hid⟩
    · exact absurd h0 hne
  · intro entry
    obtain ⟨r, h', g', hrun, hh, -, hcase⟩ := gtSpawn_spec trampoline entry ht.heap hf.ring hf.owned
    rcases hcase with ⟨rfl, hsame, hlive, hkept⟩ | ⟨rfl, -⟩
    · exact ⟨-1, h', g', hrun, Or.inr rfl, fun _ =>
        ⟨sameHeap_of_live ht.heap hh hlive hkept, l, hf.ring, hsame.ringOf hf.ring, hsame⟩⟩
    · exact ⟨0, h', g', hrun, Or.inl rfl, fun hneg => absurd hneg (by decide)⟩

-- Room for a record and a stack, but not for a kernel stack as well.
theorem taskCreate_third_fails {h : Kheap.State} {a b c : Nat}
    (hinv : Kheap.Inv h [⟨a, false⟩, ⟨b, false⟩, ⟨c, false⟩, ⟨16464, true⟩]) (name : List UInt8)
    (entry : UInt32) {s s' : Tasking.Sched} {t : UInt32} {h' : Kheap.State}
    (hrun : taskCreate fn name entry h s = some (t, h', s')) : t = 0 := by
  have hround : (Kheap.align8 Tasking.taskSize).toNat = 64 ∧
      (Kheap.align8 Tasking.stackSize).toNat = 16384 ∧ (Kheap.align8 Tasking.kstackSize).toNat = 8192 := by
    decide
  obtain ⟨h64, h16384, h8192⟩ := hround
  obtain ⟨p, h1, hrun1, hp, hinv1⟩ := hinv.kmalloc_at [⟨a, false⟩, ⟨b, false⟩, ⟨c, false⟩] []
    (n := Tasking.taskSize) (by decide) rfl (by rw [h64]; decide) (by simp)
  rw [h64] at hinv1
  obtain ⟨stack, h2, hrun2, hstack, hinv2⟩ := hinv1.kmalloc_at
    [⟨a, false⟩, ⟨b, false⟩, ⟨c, false⟩, ⟨64, false⟩] [] (b := ⟨16388, true⟩)
    (n := Tasking.stackSize) (by decide) rfl (by rw [h16384]; decide) (by simp)
  rw [h16384] at hinv2
  have hrun3 := hinv2.kmalloc_none (n := Tasking.kstackSize) (by decide) (by simp [FirstFit.cut])
  unfold Tasking.taskCreate at hrun
  simp only [hrun1, hrun2, hrun3, Option.bind_eq_bind, Option.bind_some, if_neg hp, if_neg hstack,
    if_true] at hrun
  obtain ⟨h4, -, hrun⟩ := Option.bind_eq_some_iff.mp hrun
  obtain ⟨h5, -, hrun⟩ := Option.bind_eq_some_iff.mp hrun
  exact (Prod.mk.inj (Option.some.inj hrun)).1.symm

/-- The scheduler's variables and records before `tasking_init`. -/
def blankSched : Tasking.Sched := ⟨fun _ => ⟨0, 0, 0, 0, [], .dead, 0, 0⟩, 0, 0, 0, false, 0⟩

/-- No fibers yet. -/
def blankFibers : Fibers := ⟨fun _ => ⟨0, .dead, 0, 0⟩, 0, 0, 0⟩

-- After `tasking_init` other code takes all of the heap but 16464 bytes.
theorem nearlyFull_reached (fn : Entries) (trampoline : UInt32) :
    ∃ w a b c, Reached (fun _ => 0) fn trampoline w ∧
      Kheap.Inv w.heap [⟨a, false⟩, ⟨b, false⟩, ⟨c, false⟩, ⟨16464, true⟩] := by
  obtain ⟨p, h1, hrun1, -, hinv1⟩ := (Kheap.inv_init fun _ => 0).kmalloc_at [] []
    (n := Tasking.taskSize) (by decide) rfl (by decide) (by simp)
  obtain ⟨kstack, h2, hrun2, -, hinv2⟩ := hinv1.kmalloc_at [⟨64, false⟩] []
    (b := ⟨4194216, true⟩) (n := Tasking.kstackSize) (by decide) rfl (by decide) (by simp)
  obtain ⟨q, h3, hrun3, -, hinv3⟩ := hinv2.kmalloc_at [⟨64, false⟩, ⟨8192, false⟩] []
    (b := ⟨4186012, true⟩) (n := 4169536) (by decide) rfl (by decide) (by simp)
  have hinit : ∃ s, Tasking.taskingInit ⟨Kheap.kheapInit fun _ => 0, []⟩ blankSched = some (h2, s) := by
    unfold Tasking.taskingInit
    simp only [hrun1, hrun2, Option.bind_eq_bind, Option.bind_some]
    exact ⟨_, rfl⟩
  obtain ⟨s, hinit⟩ := hinit
  obtain ⟨⟨q', h'⟩, hmalloc, heq⟩ := Option.map_eq_some_iff.mp hrun3
  obtain ⟨-, rfl⟩ := Prod.mk.inj heq
  have ht0 : Tasking.Reached (fun _ => 0) fn ⟨h2, s, [s.current], 0⟩ := .init .init hinit
  have ht := ht0.step (.heap (.kmalloc 4169536 hmalloc) (by
    intro e he _
    dsimp only
    split
    · exact he
    · exact List.mem_cons_of_mem _ he))
  exact ⟨_, 64, 8192, 4169536, .init ht (g := blankFibers) rfl, hinv3⟩

theorem noTrace_reached_nearlyFull : ∃ w h s,
    Reached (fun _ => 0) ⟨0x1000, 0x2000⟩ 0x3000 w ∧
      taskCreate ⟨0x1000, 0x2000⟩ (CString.ascii "worker") 0x4000 w.heap w.sched = some (0, h, s) ∧
      SameHeap w.heap h ∧ SameTasks w.sched s := by
  obtain ⟨w, a, b, c, hw, hinv⟩ := nearlyFull_reached ⟨0x1000, 0x2000⟩ 0x3000
  obtain ⟨t, h, s, hrun, hsame⟩ := (noTrace_reached hw).taskCreate (CString.ascii "worker") 0x4000
  obtain rfl := taskCreate_third_fails hinv _ _ hrun
  exact ⟨w, h, s, hw, hrun, hsame rfl⟩

end Runs

end JacobOS.Green
