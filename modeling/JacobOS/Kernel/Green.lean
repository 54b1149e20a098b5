import JacobOS.Kernel.TaskRuns

/-!
# The fibers of `kernel/green.c`

Cooperative threads on one kernel task.  The fibers form a ring that is entered at `g_ring`, null when
there are none; `gt_run` switches to the next one that is ready until all are dead and then frees them.

As for tasks, a record is kept by its address, and its first word, `esp`, is in the memory.
-/

namespace JacobOS.Green

open Ring
open Tasking (passes length_le_passes)

def gtStackSize : UInt32 := 4096

/-- `sizeof(gthread_t)`. -/
def gthreadSize : UInt32 := 20

inductive GtState where
  | ready
  | running
  | dead
deriving DecidableEq

/-- `gthread_t` less `esp`. -/
structure Gthread where
  stackBase : UInt32
  state : GtState
  entry : UInt32
  next : UInt32

/-- The static variables of `green.c` and the records. -/
structure Fibers where
  threads : UInt32 → Gthread
  /-- `g_ring`. -/
  ring : UInt32
  /-- `g_current`. -/
  current : UInt32
  /-- `g_sched_esp`. -/
  schedEsp : UInt32

namespace Fibers

def modify (g : Fibers) (p : UInt32) (f : Gthread → Gthread) : Fibers :=
  { g with threads := Function.update g.threads p (f (g.threads p)) }

def setNext (g : Fibers) (p q : UInt32) : Fibers := g.modify p fun t => { t with next := q }

def setState (g : Fibers) (p : UInt32) (st : GtState) : Fibers := g.modify p fun t => { t with state := st }

def next (g : Fibers) (p : UInt32) : UInt32 := (g.threads p).next

def stackBase (g : Fibers) (p : UInt32) : UInt32 := (g.threads p).stackBase

/-- The new fiber goes right after `g_ring`, or is the whole ring. -/
def link (g : Fibers) (t : UInt32) : Fibers :=
  if g.ring = 0 then { g.setNext t t with ring := t }
  else
    let g := g.setNext t (g.next g.ring)
    g.setNext g.ring t

end Fibers

def gtInit (g : Fibers) : Fibers := { g with ring := 0, current := 0 }

/-- The stack that `context_switch` returns into, and `t->esp`. -/
def initStack (trampoline t stack : UInt32) (m : Mem) : Mem :=
  let r := m.pushWords (stack + gtStackSize) [trampoline, 0, 0, 0, 0]
  r.1.setWord t r.2

/-- `gt_spawn`: 0, or -1 when one of the two allocations fails. -/
def gtSpawn (trampoline fn : UInt32) (h : Kheap.State) (g : Fibers) :
    Option (Int × Kheap.State × Fibers) := do
  let (t, h) ← h.kmalloc gthreadSize
  if t = 0 then return (-1, h, g)
  let (stack, h) ← h.kmalloc gtStackSize
  let g := g.modify t fun r => { r with stackBase := stack }
  if stack = 0 then
    let h ← h.kfree t
    return (-1, h, g)
  let g := g.modify t fun r => { r with state := .ready, entry := fn }
  let h := { h with heap := { h.heap with mem := initStack trampoline t stack h.heap.mem } }
  return (0, h, g.link t)

/-- The loop of `pick_next` from `t` on. -/
def pickLoop (g : Fibers) : Nat → UInt32 → Option (UInt32 × Fibers)
  | 0, _ => none
  | n + 1, t =>
      if (g.threads t).state = .ready then some (t, { g with ring := g.next t })
      else if g.next t = g.ring then some (0, g)
      else pickLoop g n (g.next t)

/-- `pick_next`: the fiber to run, 0 when none is ready. -/
def pickNext (g : Fibers) : Option (UInt32 × Fibers) :=
  if g.ring = 0 then some (0, g) else pickLoop g passes g.ring

/-- The loop of `free_all` from `t` on. -/
def freeLoop (g : Fibers) : Nat → UInt32 → Kheap.State → Option Kheap.State
  | 0, _, _ => none
  | n + 1, t, h => do
      let nx := g.next t
      let h ← h.kfree (g.stackBase t)
      let h ← h.kfree t
      if nx = g.ring then return h else freeLoop g n nx h

def freeAll (h : Kheap.State) (g : Fibers) : Option (Kheap.State × Fibers) :=
  if g.ring = 0 then some (h, g)
  else (freeLoop g passes g.ring h).map fun h => (h, { g with ring := 0, current := 0 })

/-- `gt_run` from the choice of `next` up to the switch to it, which saves `esp`. -/
def Fibers.enter (g : Fibers) (next esp : UInt32) : Fibers :=
  let g := { g with current := next }
  { g.setState next .running with schedEsp := esp }

/-- `gt_trampoline` after the entry function has returned. -/
def Fibers.finish (g : Fibers) : Fibers := g.setState g.current .dead

/-- `gt_run` after the fiber has switched back. -/
def Fibers.back (g : Fibers) : Fibers :=
  if (g.threads g.current).state = .running then g.setState g.current .ready else g

/-! ## What the operations change -/

namespace Fibers

variable (g : Fibers)

@[simp] theorem modify_same (p : UInt32) (f : Gthread → Gthread) :
    (g.modify p f).threads p = f (g.threads p) := Function.update_self ..

theorem modify_other {p q : UInt32} (f : Gthread → Gthread) (h : q ≠ p) :
    (g.modify p f).threads q = g.threads q := Function.update_of_ne h ..

theorem setNext_next (p q n : UInt32) : (g.setNext p n).next q = if q = p then n else g.next q := by
  unfold setNext next
  by_cases hq : q = p
  · rw [hq, if_pos rfl, modify_same]
  · rw [if_neg hq, modify_other g _ hq]

@[simp] theorem setNext_stackBase (p n : UInt32) : (g.setNext p n).stackBase = g.stackBase := by
  funext q
  unfold setNext stackBase
  by_cases hq : q = p
  · rw [hq, modify_same]
  · rw [modify_other g _ hq]

@[simp] theorem setNext_state (p q n : UInt32) :
    ((g.setNext p n).threads q).state = (g.threads q).state := by
  unfold setNext
  by_cases hq : q = p
  · rw [hq, modify_same]
  · rw [modify_other g _ hq]

@[simp] theorem setState_next (p : UInt32) (st : GtState) : (g.setState p st).next = g.next := by
  funext q
  unfold setState next
  by_cases hq : q = p
  · rw [hq, modify_same]
  · rw [modify_other g _ hq]

@[simp] theorem setState_stackBase (p : UInt32) (st : GtState) :
    (g.setState p st).stackBase = g.stackBase := by
  funext q
  unfold setState stackBase
  by_cases hq : q = p
  · rw [hq, modify_same]
  · rw [modify_other g _ hq]

@[simp] theorem link_stackBase (t : UInt32) : (g.link t).stackBase = g.stackBase := by
  unfold link
  split
  · exact g.setNext_stackBase t t
  · dsimp only
    rw [setNext_stackBase, setNext_stackBase]

@[simp] theorem link_state (t p : UInt32) : ((g.link t).threads p).state = (g.threads p).state := by
  unfold link
  split
  · exact g.setNext_state t p t
  · dsimp only
    rw [setNext_state, setNext_state]

/-- The heap blocks of the fibers in `l`: each record and its stack. -/
def blocks (g : Fibers) (l : List UInt32) : List UInt32 := l.flatMap fun t => [t, g.stackBase t]

end Fibers

/-! ## The ring -/

/-- The fibers in the ring are `l`. -/
inductive RingOf (g : Fibers) : List UInt32 → Prop where
  | none (hring : g.ring = 0) : RingOf g []
  | some {l l' : List UInt32} (hring : g.ring ≠ 0) (hcycle : Cycle g.next g.ring l')
      (hperm : (g.ring :: l').Perm l) : RingOf g l

namespace RingOf

variable {g g' : Fibers} {l : List UInt32}

theorem congr (h : RingOf g l) (hring : g'.ring = g.ring) (hnext : ∀ p ∈ l, g'.next p = g.next p) :
    RingOf g' l := by
  cases h with
  | none h0 => exact .none (hring.trans h0)
  | some h0 hcycle hperm =>
    refine .some (by rw [hring]; exact h0) ?_ (by rw [hring]; exact hperm)
    rw [hring]
    exact hcycle.congr fun p hp => hnext p (hperm.mem_iff.mp hp)

theorem ring_eq_zero (h : RingOf g []) : g.ring = 0 := by
  cases h with
  | none h0 => exact h0
  | some _ _ hperm => exact absurd hperm.eq_nil (by simp)

-- The ring is entered at another fiber.
theorem reenter (h : RingOf g l) {p : UInt32} (hp : p ∈ l) (hp0 : p ≠ 0) :
    RingOf { g with ring := p } l := by
  cases h with
  | none _ => exact absurd hp (by simp)
  | some _ hcycle hperm =>
    obtain ⟨l'', hcycle', hperm'⟩ := hcycle.rotate (hperm.mem_iff.mpr hp)
    exact .some hp0 hcycle' (hperm'.trans hperm)

theorem next_mem (h : RingOf g l) {p : UInt32} (hp : p ∈ l) : g.next p ∈ l := by
  cases h with
  | none _ => exact absurd hp (by simp)
  | some _ hcycle hperm =>
    obtain ⟨l'', hcycle', hperm'⟩ := hcycle.rotate (hperm.mem_iff.mpr hp)
    have hmem : g.next p ∈ l'' ++ [p] := by
      have hpath := hcycle'.path
      cases hl : l'' ++ [p] with
      | nil => exact absurd hl (by simp)
      | cons q rest =>
        rw [hl] at hpath
        rw [(List.isChain_cons_cons.mp hpath).1]
        exact List.mem_cons_self
    have hall := hperm'.trans hperm
    rcases List.mem_append.mp hmem with hin | hin
    · exact hall.mem_iff.mp (List.mem_cons_of_mem p hin)
    · rw [List.mem_singleton.mp hin]
      exact hp

theorem link (h : RingOf g l) {t : UInt32} (ht : t ∉ l) (ht0 : t ≠ 0) : RingOf (g.link t) (t :: l) := by
  cases h with
  | none h0 =>
    unfold Fibers.link
    rw [if_pos h0]
    refine @RingOf.some _ _ [] ht0 (Cycle.self ?_) (List.Perm.refl _)
    show (g.setNext t t).next t = t
    rw [g.setNext_next, if_pos rfl]
  | @some _ l' h0 hcycle hperm =>
    have htl : t ∉ g.ring :: l' := fun hin => ht (hperm.mem_iff.mp hin)
    have hne : g.ring ≠ t := fun he => htl (he ▸ List.mem_cons_self)
    have hnext : ∀ p, (g.link t).next p =
        if p = g.ring then t else if p = t then g.next g.ring else g.next p := by
      intro p
      unfold Fibers.link
      rw [if_neg h0]
      dsimp only
      rw [Fibers.setNext_next, Fibers.setNext_next]
      rfl
    have hring : (g.link t).ring = g.ring := by
      unfold Fibers.link
      rw [if_neg h0]
      rfl
    refine @RingOf.some _ _ (t :: l') (by rw [hring]; exact h0) ?_ ?_
    · rw [hring]
      refine hcycle.insert htl ?_ ?_ ?_
      · rw [hnext, if_pos rfl]
      · rw [hnext, if_neg (Ne.symm hne), if_pos rfl]
      · intro p hp
        have hpr : p ≠ g.ring := fun he => (List.nodup_cons.mp hcycle.nodup).1 (he ▸ hp)
        have hpt : p ≠ t := fun he => htl (he ▸ List.mem_cons_of_mem g.ring hp)
        rw [hnext, if_neg hpr, if_neg hpt]
    · rw [hring]
      exact (List.Perm.swap t g.ring l').trans (hperm.cons t)

end RingOf

/-- `pick_next` changes nothing but where the ring is entered. -/
theorem pickLoop_some {g : Fibers} {l : List UInt32} (h : RingOf g l) {n : Nat} {t t' : UInt32}
    {g' : Fibers} (ht : t ∈ l) (hrun : pickLoop g n t = some (t', g')) :
    (t' = 0 ∧ g' = g) ∨ (t' ∈ l ∧ (g.threads t').state = .ready ∧ g' = { g with ring := g.next t' }) := by
  induction n generalizing t with
  | zero => cases hrun
  | succ n ih =>
    rw [pickLoop] at hrun
    by_cases hready : (g.threads t).state = .ready
    · rw [if_pos hready, Option.some.injEq, Prod.mk.injEq] at hrun
      obtain ⟨rfl, rfl⟩ := hrun
      exact Or.inr ⟨ht, hready, rfl⟩
    · rw [if_neg hready] at hrun
      by_cases hend : g.next t = g.ring
      · rw [if_pos hend, Option.some.injEq, Prod.mk.injEq] at hrun
        exact Or.inl ⟨hrun.1.symm, hrun.2.symm⟩
      · rw [if_neg hend] at hrun
        exact ih (h.next_mem ht) hrun

theorem pickNext_some {g g' : Fibers} {l : List UInt32} (h : RingOf g l) {t : UInt32}
    (hrun : pickNext g = some (t, g')) :
    (t = 0 ∧ g' = g) ∨ (t ∈ l ∧ (g.threads t).state = .ready ∧ g' = { g with ring := g.next t }) := by
  unfold pickNext at hrun
  cases h with
  | none h0 =>
    rw [if_pos h0, Option.some.injEq, Prod.mk.injEq] at hrun
    exact Or.inl ⟨hrun.1.symm, hrun.2.symm⟩
  | some h0 hcycle hperm =>
    rw [if_neg h0] at hrun
    exact pickLoop_some (.some h0 hcycle hperm) (hperm.mem_iff.mp List.mem_cons_self) hrun

/-! ## The heap -/

section Heap

variable {m : Mem} {h : Kheap.State} {g : Fibers} {l : List UInt32}

/-- The blocks at `ps` are live, and no two are the same. -/
structure Owned (h : Kheap.State) (ps : List UInt32) : Prop where
  nodup : ps.Nodup
  live : ∀ p ∈ ps, ∃ e ∈ h.live, e.1 = p

-- A live block is not at the null pointer.
theorem ne_zero_of_owned (hh : Kheap.Reached m h) {ps : List UInt32} (ho : Owned h ps) {p : UInt32} (hp : p ∈ ps) :
    p ≠ 0 := by
  obtain ⟨e, he, rfl⟩ := ho.live p hp
  exact hh.live_ne_zero he

-- Freeing one block leaves the others.
theorem mem_erase_address {e e' : UInt32 × Nat} (hh : Kheap.Reached m h) (he : e ∈ h.live) :
    e' ∈ h.live.erase e ↔ e' ∈ h.live ∧ e'.1 ≠ e.1 := by
  have hnodup : h.live.Nodup := hh.live_addresses.imp fun hne heq => hne (congrArg Prod.fst heq)
  have haddr : (h.live.map Prod.fst).Nodup := List.pairwise_map.mpr hh.live_addresses
  rw [hnodup.mem_erase_iff, and_comm]
  refine and_congr_right fun he' => not_congr ⟨congrArg Prod.fst, ?_⟩
  exact List.inj_on_of_nodup_map haddr he' he

theorem Owned.kfree (hh : Kheap.Reached m h) {p : UInt32} {ps : List UInt32} (ho : Owned h (p :: ps)) :
    ∃ h', h.kfree p = some h' ∧ Kheap.Reached m h' ∧ Owned h' ps ∧
      ∀ e, e ∈ h'.live ↔ e ∈ h.live ∧ e.1 ≠ p := by
  obtain ⟨e, he, rfl⟩ := ho.live p List.mem_cons_self
  obtain ⟨h', hrun, hh', hlive⟩ := hh.kfree_mem he
  have hmem : ∀ e', e' ∈ h'.live ↔ e' ∈ h.live ∧ e'.1 ≠ e.1 := by
    intro e'
    rw [hlive]
    exact mem_erase_address hh he
  obtain ⟨hnot, hnodup⟩ := List.nodup_cons.mp ho.nodup
  refine ⟨h', hrun, hh', ⟨hnodup, ?_⟩, hmem⟩
  intro q hq
  obtain ⟨e', he', rfl⟩ := ho.live q (List.mem_cons_of_mem _ hq)
  exact ⟨e', (hmem e').mpr ⟨he', fun heq => hnot (heq ▸ hq)⟩, rfl⟩

theorem Owned.perm {ps qs : List UInt32} (ho : Owned h ps) (hp : ps.Perm qs) : Owned h qs :=
  ⟨hp.nodup_iff.mp ho.nodup, fun p hin => ho.live p (hp.mem_iff.mpr hin)⟩

-- The stack goes first, then the record.
theorem Owned.kfree_fiber (hh : Kheap.Reached m h) {t : UInt32} {rest : List UInt32}
    (ho : Owned h (g.blocks (t :: rest))) :
    ∃ h1 h2, h.kfree (g.stackBase t) = some h1 ∧ h1.kfree t = some h2 ∧ Kheap.Reached m h2 ∧
      Owned h2 (g.blocks rest) ∧
      ∀ e, e ∈ h2.live ↔ e ∈ h.live ∧ e.1 ≠ t ∧ e.1 ≠ g.stackBase t := by
  have ho' : Owned h (g.stackBase t :: t :: g.blocks rest) := ho.perm (List.Perm.swap ..)
  obtain ⟨h1, hrun1, hh1, ho1, hmem1⟩ := ho'.kfree hh
  obtain ⟨h2, hrun2, hh2, ho2, hmem2⟩ := ho1.kfree hh1
  refine ⟨h1, h2, hrun1, hrun2, hh2, ho2, ?_⟩
  intro e
  rw [hmem2, hmem1, and_assoc, and_comm (a := e.1 ≠ g.stackBase t)]

-- The loop from `t` on frees `t`, the fibers after it and their stacks.
theorem freeLoop_spec {n : Nat} {t : UInt32} {rest : List UInt32} (hh : Kheap.Reached m h)
    (hpath : Path g.next (t :: (rest ++ [g.ring]))) (hring : g.ring ∉ rest) (hn : rest.length < n)
    (ho : Owned h (g.blocks (t :: rest))) :
    ∃ h', freeLoop g n t h = some h' ∧ Kheap.Reached m h' ∧
      ∀ e, e ∈ h'.live ↔ e ∈ h.live ∧ e.1 ∉ g.blocks (t :: rest) := by
  obtain ⟨n, rfl⟩ : ∃ k, n = k + 1 := ⟨n - 1, by omega⟩
  induction rest generalizing h t n with
  | nil =>
    obtain ⟨h1, h2, hrun1, hrun2, hh2, -, hmem⟩ := ho.kfree_fiber hh
    have hend : g.next t = g.ring := (List.isChain_cons_cons.mp hpath).1
    refine ⟨h2, ?_, hh2, ?_⟩
    · simp [freeLoop, hrun1, hrun2, hend]
    · intro e
      rw [hmem]
      simp [Fibers.blocks]
  | cons u rest ih =>
    obtain ⟨h1, h2, hrun1, hrun2, hh2, ho2, hmem⟩ := ho.kfree_fiber hh
    obtain ⟨hnext, hrest⟩ := List.isChain_cons_cons.mp hpath
    rw [List.mem_cons, not_or] at hring
    rw [List.length_cons] at hn
    obtain ⟨n, rfl⟩ : ∃ k, n = k + 1 := ⟨n - 1, by omega⟩
    obtain ⟨h', hrun, hh', hmem'⟩ := ih hh2 hrest hring.2 ho2 n (by omega)
    refine ⟨h', ?_, hh', ?_⟩
    · rw [freeLoop]
      simp only [hrun1, hrun2, hnext, Option.bind_eq_bind, Option.bind_some, if_neg (Ne.symm hring.1)]
      exact hrun
    · intro e
      rw [hmem', hmem]
      simp only [Fibers.blocks, List.flatMap_cons, List.mem_append, List.mem_cons, List.not_mem_nil]
      tauto

/-- `free_all` frees the blocks of all fibers, each once, and empties the ring. -/
theorem freeAll_spec (hh : Kheap.Reached m h) (hring : RingOf g l) (ho : Owned h (g.blocks l)) :
    ∃ h' g', freeAll h g = some (h', g') ∧ Kheap.Reached m h' ∧ RingOf g' [] ∧
      ∀ e, e ∈ h'.live ↔ e ∈ h.live ∧ e.1 ∉ g.blocks l := by
  unfold freeAll
  cases hring with
  | none h0 =>
    rw [if_pos h0]
    exact ⟨h, g, rfl, hh, .none h0, fun e => by simp [Fibers.blocks]⟩
  | @some _ l' h0 hcycle hperm =>
    have hblocks : (g.blocks (g.ring :: l')).Perm (g.blocks l) := hperm.flatMap_right _
    have hlen := length_le_passes hcycle.nodup
    rw [List.length_cons] at hlen
    obtain ⟨h', hrun, hh', hmem⟩ := freeLoop_spec (n := passes) hh hcycle.path
      (List.nodup_cons.mp hcycle.nodup).1 (by omega) (ho.perm hblocks.symm)
    rw [if_neg h0, hrun]
    refine ⟨h', _, rfl, hh', .none rfl, ?_⟩
    intro e
    rw [hmem, hblocks.mem_iff]

theorem reached_initStack (trampoline : UInt32) {t stack : UInt32} {k n : Nat} (hh : Kheap.Reached m h)
    (ht : (t, k) ∈ h.live) (hk : gthreadSize.toNat ≤ k) (hs : (stack, n) ∈ h.live)
    (hn : gtStackSize.toNat ≤ n) :
    Kheap.Reached m { h with heap := { h.heap with mem := initStack trampoline t stack h.heap.mem } } := by
  have hT : gthreadSize.toNat = 20 := rfl
  have hS : gtStackSize.toNat = 4096 := rfl
  exact Tasking.reached_newStack [trampoline, 0, 0, 0, 0] hh ht (by omega) hs hn (by rw [hS]; simp)

/-- The two agree on the fibers in `l` and on the static variables. -/
structure Same (g g' : Fibers) (l : List UInt32) : Prop where
  threads : ∀ p ∈ l, g'.threads p = g.threads p
  ring : g'.ring = g.ring
  current : g'.current = g.current
  schedEsp : g'.schedEsp = g.schedEsp

theorem Same.refl (g : Fibers) (l : List UInt32) : Same g g l := ⟨fun _ _ => rfl, rfl, rfl, rfl⟩

-- A record outside `l` is written.
theorem Same.modify {g' : Fibers} (hs : Same g g' l) {t : UInt32} (ht : t ∉ l) (f : Gthread → Gthread) :
    Same g (g'.modify t f) l := by
  refine ⟨?_, hs.ring, hs.current, hs.schedEsp⟩
  intro p hp
  have hne : p ≠ t := fun he => ht (he ▸ hp)
  rw [g'.modify_other f hne]
  exact hs.threads p hp

theorem Same.ringOf {g' : Fibers} (hs : Same g g' l) (h : RingOf g l) : RingOf g' l := by
  refine h.congr hs.ring fun p hp => ?_
  unfold Fibers.next
  rw [hs.threads p hp]

theorem Same.blocks_eq {g' : Fibers} (hs : Same g g' l) : g'.blocks l = g.blocks l := by
  unfold Fibers.blocks Fibers.stackBase
  apply List.flatMap_congr
  intro p hp
  rw [hs.threads p hp]

theorem mem_blocks_of_mem {p : UInt32} (hp : p ∈ l) : p ∈ g.blocks l :=
  List.mem_flatMap.mpr ⟨p, hp, List.mem_cons_self⟩

-- Two new blocks.
theorem Owned.cons2 {h' : Kheap.State} {ps : List UInt32} (ho : Owned h ps) {t stack : UInt32} {k n : Nat}
    (hlive : h'.live = (stack, n) :: (t, k) :: h.live) (hold : ∀ e ∈ h.live, e.1 ≠ t ∧ e.1 ≠ stack)
    (hne : t ≠ stack) : Owned h' (t :: stack :: ps) := by
  have hfresh : ∀ p ∈ ps, p ≠ t ∧ p ≠ stack := by
    intro p hp
    obtain ⟨e, he, rfl⟩ := ho.live p hp
    exact hold e he
  refine ⟨List.nodup_cons.mpr ⟨?_, List.nodup_cons.mpr ⟨?_, ho.nodup⟩⟩, ?_⟩
  · intro hin
    rcases List.mem_cons.mp hin with heq | hin
    · exact hne heq
    · exact (hfresh t hin).1 rfl
  · exact fun hin => (hfresh stack hin).2 rfl
  · intro p hp
    rw [hlive]
    rcases List.mem_cons.mp hp with rfl | hp
    · exact ⟨(p, k), by simp, rfl⟩
    · rcases List.mem_cons.mp hp with rfl | hp
      · exact ⟨(p, n), by simp, rfl⟩
      · obtain ⟨e, he, hep⟩ := ho.live p hp
        exact ⟨e, by simp [he], hep⟩

/-- `t` has been added to the fibers in `l`, with two new blocks. -/
structure Spawned (h : Kheap.State) (g : Fibers) (l : List UInt32) (h' : Kheap.State) (g' : Fibers)
    (t : UInt32) : Prop where
  ring : RingOf g' (t :: l)
  owned : Owned h' (g'.blocks (t :: l))
  blocks : g'.blocks l = g.blocks l
  state : ∀ p ∈ t :: l, (g'.threads p).state = if p = t then .ready else (g.threads p).state
  fresh : ∀ e ∈ h.live, e.1 ≠ t ∧ e.1 ≠ g'.stackBase t
  live : ∀ e ∈ h'.live, e ∈ h.live ∨ e.1 = t ∨ e.1 = g'.stackBase t

-- The record is filled in, and the two blocks are the newest.
theorem spawned_link {g2 : Fibers} {h' : Kheap.State} {t stack : UInt32} {k n : Nat} (hring : RingOf g l)
    (ho : Owned h (g.blocks l)) (hsame : Same g g2 l) (hfresh : t ∉ l) (ht : t ≠ 0)
    (hbase : g2.stackBase t = stack) (hready : (g2.threads t).state = .ready)
    (hlive : h'.live = (stack, n) :: (t, k) :: h.live) (hold : ∀ e ∈ h.live, e.1 ≠ t ∧ e.1 ≠ stack)
    (hne : t ≠ stack) : Spawned h g l h' (g2.link t) t := by
  have hblocks : (g2.link t).blocks l = g.blocks l := by
    rw [← hsame.blocks_eq]
    unfold Fibers.blocks
    rw [Fibers.link_stackBase]
  rw [← Fibers.link_stackBase g2 t] at hbase
  refine ⟨(hsame.ringOf hring).link hfresh ht, ?_, hblocks, ?_, ?_, ?_⟩
  · show Owned h' (t :: (g2.link t).stackBase t :: (g2.link t).blocks l)
    rw [hbase, hblocks]
    exact ho.cons2 hlive hold hne
  · intro p hp
    rw [Fibers.link_state]
    by_cases hpt : p = t
    · rw [if_pos hpt, hpt, hready]
    · have hpl : p ∈ l := (List.mem_cons.mp hp).resolve_left hpt
      rw [if_neg hpt, hsame.threads p hpl]
  · rw [hbase]
    exact hold
  · intro e he
    rw [hlive] at he
    rw [hbase]
    rcases List.mem_cons.mp he with rfl | he
    · exact Or.inr (Or.inr rfl)
    · rcases List.mem_cons.mp he with rfl | he
      · exact Or.inr (Or.inl rfl)
      · exact Or.inl he

/-- What a call of `gt_spawn` can do: it fails and leaves no trace, or it adds a fiber. -/
theorem gtSpawn_spec (trampoline fn : UInt32) (hh : Kheap.Reached m h) (hring : RingOf g l)
    (ho : Owned h (g.blocks l)) :
    ∃ r h' g', gtSpawn trampoline fn h g = some (r, h', g') ∧ Kheap.Reached m h' ∧
      (∀ e ∈ h.live, e ∈ h'.live) ∧
      ((r = -1 ∧ Same g g' l ∧ h'.live = h.live ∧ Kheap.Kept h.live h h') ∨
        (r = 0 ∧ ∃ t, Spawned h g l h' g' t)) := by
  unfold gtSpawn
  obtain ⟨t, h1, hrun1, hh1, hcase1⟩ := hh.kmalloc gthreadSize
  have hkept1 := hh.kmalloc_kept hrun1
  rcases hcase1 with ⟨ht, hl1⟩ | ⟨ht, hnew, k, hk, hl1⟩
  · rw [hrun1]
    refine ⟨-1, h1, g, ?_, hh1, ?_, Or.inl ⟨rfl, Same.refl g l, hl1, hkept1⟩⟩
    · simp [ht]
    · rw [hl1]
      exact fun e he => he
  · have hfresh : t ∉ l := by
      intro hmem
      obtain ⟨e, he, hep⟩ := ho.live t (mem_blocks_of_mem hmem)
      exact hnew e he hep
    obtain ⟨stack, h2, hrun2, hh2, hcase2⟩ := hh1.kmalloc gtStackSize
    simp only [hrun1, hrun2, Option.bind_eq_bind, Option.bind_some, if_neg ht]
    have hsame := (Same.refl g l).modify hfresh fun r => { r with stackBase := stack }
    rcases hcase2 with ⟨rfl, hl2⟩ | ⟨hstack, hnew2, n, hn, hl2⟩
    · have hkept2 : Kheap.Kept h.live h h2 := by
        have hkept := hh1.kmalloc_kept hrun2
        rw [hl1] at hkept
        exact hkept1.trans fun e he => hkept e (List.mem_cons_of_mem _ he)
      rw [hl1] at hl2
      obtain ⟨h3, hrun3, hh3, hl3, hkept3⟩ := hh2.kfree_newest hl2
      rw [if_pos rfl, hrun3]
      refine ⟨-1, h3, _, rfl, hh3, ?_, Or.inl ⟨rfl, hsame, hl3, hkept2.trans hkept3⟩⟩
      rw [hl3]
      exact fun e he => he
    · rw [if_neg hstack]
      rw [hl1] at hl2 hnew2
      have hsame2 := hsame.modify hfresh fun r => { r with state := .ready, entry := fn }
      have hk' : gthreadSize.toNat ≤ k := Nat.le_trans (by decide) hk
      refine ⟨0, _, _, rfl, ?_, ?_, Or.inr ⟨rfl, t, ?_⟩⟩
      · exact reached_initStack trampoline hh2 (k := k) (by rw [hl2]; simp) hk' (by rw [hl2]; simp) hn
      · intro e he
        show e ∈ h2.live
        rw [hl2]
        simp [he]
      · refine spawned_link hring ho hsame2 hfresh ht ?_ ?_ (by exact hl2) ?_ ?_
        · unfold Fibers.stackBase
          rw [Fibers.modify_same, Fibers.modify_same]
        · rw [Fibers.modify_same]
        · exact fun e he => ⟨hnew e he, hnew2 e (List.mem_cons_of_mem _ he)⟩
        · exact hnew2 (t, k) List.mem_cons_self

end Heap

end JacobOS.Green
