import JacobOS.Kernel.Green
import JacobOS.Lib.TurnQueue
import JacobOS.Mem.HeapUndo

/-!
# The turns of the fibers

`gt_run` as a whole.  A fiber is known by the number of times it will still call `gt_yield`; in its turn it
may store into live blocks but does not allocate.  The fibers that have not ended form a queue, whatever dead
ones are between them in the ring: the one that `pick_next` finds is in front, and the one that yields goes
to the end.
-/

namespace JacobOS.Green

open Ring TurnQueue
open Tasking (passes length_le_passes)

/-! ## `gt_run` -/

/-- A byte is stored into the payload of a live block. -/
def Store (h h' : Kheap.State) : Prop :=
  ∃ e ∈ h.live, ∃ k, k < e.2 ∧ ∃ v,
    h' = ⟨{ h.heap with mem := Function.update h.heap.mem (e.1 + UInt32.ofNat k) v }, h.live⟩

/-- What the fibers do to the heap: `turn t n` is a turn of `t` in which it has `n` calls of `gt_yield`
left. -/
structure Code where
  turn : UInt32 → Nat → Kheap.State → Kheap.State
  stores : ∀ t n h, Relation.ReflTransGen Store h (turn t n h)

/-- A switch from `gt_run` to a fiber, with the fibers as they are then. -/
structure Turn where
  fiber : UInt32
  fibers : Fibers

structure Run where
  heap : Kheap.State
  fibers : Fibers
  /-- How often each fiber will still call `gt_yield`. -/
  left : UInt32 → Nat
  /-- The turns so far. -/
  turns : List Turn

/-- `gt_run` from the choice of `next` to the end of the loop's body. -/
def Run.turn (code : Code) (esp : UInt32) (w : Run) (next : UInt32) (g : Fibers) : Run :=
  let g := g.enter next esp
  let h := code.turn next (w.left next) w.heap
  let turns := w.turns ++ [⟨next, g⟩]
  if w.left next = 0 then ⟨h, g.finish.back, w.left, turns⟩
  else ⟨h, g.back, Function.update w.left next (w.left next - 1), turns⟩

/-- The loop of `gt_run`. -/
def runLoop (code : Code) (esp : UInt32) : Nat → Run → Option Run
  | 0, _ => none
  | n + 1, w => do
      let (next, g) ← pickNext w.fibers
      if next = 0 then return { w with fibers := g }
      runLoop code esp n (w.turn code esp next g)

def gtRun (code : Code) (esp : UInt32) (n : Nat) (w : Run) : Option Run := do
  let w ← runLoop code esp n w
  let (h, g) ← freeAll w.heap w.fibers
  return { w with heap := h, fibers := g }

/-- Calls of `gt_spawn` and what they return. -/
def spawnAll (trampoline : UInt32) : List UInt32 → Kheap.State → Fibers →
    Option (List Int × Kheap.State × Fibers)
  | [], h, g => some ([], h, g)
  | fn :: fns, h, g => do
      let (r, h, g) ← gtSpawn trampoline fn h g
      let (rs, h, g) ← spawnAll trampoline fns h g
      return (r :: rs, h, g)

/-! ## The ring in its order -/

/-- The ring from `g_ring` on. -/
inductive Order (g : Fibers) : List UInt32 → Prop where
  | none (hring : g.ring = 0) : Order g []
  | some {l : List UInt32} (hring : g.ring ≠ 0) (hcycle : Cycle g.next g.ring l) : Order g (g.ring :: l)

def Fibers.isReady (g : Fibers) (p : UInt32) : Bool := (g.threads p).state = .ready

namespace Order

variable {g g' : Fibers} {l : List UInt32}

theorem nodup (h : Order g l) : l.Nodup := by
  cases h with
  | none _ => exact List.nodup_nil
  | some _ hcycle => exact hcycle.nodup

theorem congr (h : Order g l) (hring : g'.ring = g.ring) (hnext : g'.next = g.next) : Order g' l := by
  cases h with
  | none h0 => exact .none (hring.trans h0)
  | some h0 hcycle =>
    rw [← hring] at h0 hcycle ⊢
    rw [← hnext] at hcycle
    exact .some h0 hcycle

theorem ringOf (h : Order g l) {ts : List UInt32} (hperm : l.Perm ts) : RingOf g ts := by
  cases h with
  | none h0 =>
    rw [List.nil_perm.mp hperm]
    exact .none h0
  | some h0 hcycle => exact .some h0 hcycle hperm

-- The ring is entered right after `t`.
theorem after {skip rest : List UInt32} {t : UInt32} (h : Order g (skip ++ t :: rest))
    (hne : ∀ p ∈ skip ++ t :: rest, p ≠ 0) :
    Order { g with ring := g.next t } (rest ++ skip ++ [t]) := by
  have hcycle : Cycle g.next t (rest ++ skip) := by
    generalize hl : skip ++ t :: rest = l at h
    cases h with
    | none _ => exact absurd hl (by simp)
    | some _ hcycle =>
      cases skip with
      | nil =>
        obtain ⟨rfl, rfl⟩ := List.cons.inj hl
        rw [List.append_nil]
        exact hcycle
      | cons a skip =>
        obtain ⟨rfl, rfl⟩ := List.cons.inj hl
        exact hcycle.enter
  obtain ⟨m, heq, hnext⟩ := hcycle.advance
  have hmem : g.next t ∈ skip ++ t :: rest := by
    have hin : g.next t ∈ rest ++ skip ++ [t] := by simp [heq]
    simp only [List.mem_append, List.mem_cons, List.not_mem_nil, or_false] at hin ⊢
    tauto
  rw [heq]
  exact @Order.some { g with ring := g.next t } m (hne _ hmem) hnext

end Order

-- The loop of `pick_next` from `t` on.
theorem pickLoop_eq {g : Fibers} {n : Nat} {t : UInt32} {rest : List UInt32}
    (hpath : Path g.next (t :: (rest ++ [g.ring]))) (hring : g.ring ∉ rest) (hn : rest.length < n) :
    pickLoop g n t = match (t :: rest).find? g.isReady with
      | none => some (0, g)
      | some u => some (u, { g with ring := g.next u }) := by
  obtain ⟨n, rfl⟩ : ∃ k, n = k + 1 := ⟨n - 1, by omega⟩
  induction rest generalizing t n with
  | nil =>
    have hend : g.next t = g.ring := (List.isChain_cons_cons.mp hpath).1
    rw [pickLoop, List.find?_cons]
    by_cases hready : (g.threads t).state = .ready
    · rw [if_pos hready, Fibers.isReady, decide_eq_true hready]
    · rw [if_neg hready, if_pos hend, Fibers.isReady, decide_eq_false hready]
      rfl
  | cons u rest ih =>
    obtain ⟨hnext, hrest⟩ := List.isChain_cons_cons.mp hpath
    rw [List.mem_cons, not_or] at hring
    rw [List.length_cons] at hn
    rw [pickLoop, List.find?_cons]
    by_cases hready : (g.threads t).state = .ready
    · rw [if_pos hready, Fibers.isReady, decide_eq_true hready]
    · obtain ⟨n, rfl⟩ : ∃ k, n = k + 1 := ⟨n - 1, by omega⟩
      rw [if_neg hready, hnext, if_neg (Ne.symm hring.1), ih hrest hring.2 n (by omega), Fibers.isReady,
        decide_eq_false hready]

/-- `pick_next` takes the first fiber of the ring that is ready. -/
theorem pickNext_eq {g : Fibers} {l : List UInt32} (h : Order g l) :
    pickNext g = match l.find? g.isReady with
      | none => some (0, g)
      | some u => some (u, { g with ring := g.next u }) := by
  unfold pickNext
  cases h with
  | none h0 =>
    rw [if_pos h0]
    rfl
  | some h0 hcycle =>
    have hlen := length_le_passes hcycle.nodup
    rw [List.length_cons] at hlen
    rw [if_neg h0]
    exact pickLoop_eq hcycle.path (List.nodup_cons.mp hcycle.nodup).1 (by omega)

/-! ## A turn -/

namespace Fibers

variable (g : Fibers)

@[simp] theorem setState_state (p q : UInt32) (st : GtState) :
    ((g.setState p st).threads q).state = if q = p then st else (g.threads q).state := by
  unfold setState
  by_cases hq : q = p
  · rw [hq, if_pos rfl, modify_same]
  · rw [if_neg hq, modify_other g _ hq]

theorem enter_state (t esp p : UInt32) :
    ((g.enter t esp).threads p).state = if p = t then .running else (g.threads p).state :=
  setState_state { g with current := t } t p .running

/-- Only the state of `t` and `g_current` and `g_sched_esp` have changed. -/
structure Moved (g' : Fibers) (t : UInt32) (st : GtState) : Prop where
  ring : g'.ring = g.ring
  next : g'.next = g.next
  stackBase : g'.stackBase = g.stackBase
  state : ∀ p, (g'.threads p).state = if p = t then st else (g.threads p).state

theorem Moved.setState {g g' : Fibers} {t : UInt32} {st : GtState} (h : g.Moved g' t st) (st' : GtState) :
    g.Moved (g'.setState t st') t st' := by
  refine ⟨h.ring, (g'.setState_next t st').trans h.next, (g'.setState_stackBase t st').trans h.stackBase, ?_⟩
  intro p
  rw [setState_state, h.state]
  by_cases hp : p = t
  · rw [if_pos hp, if_pos hp]
  · rw [if_neg hp, if_neg hp, if_neg hp]

theorem moved_enter (t esp : UInt32) : g.Moved (g.enter t esp) t .running :=
  ⟨rfl, setState_next { g with current := t } t .running, setState_stackBase { g with current := t } t .running,
    g.enter_state t esp⟩

-- `gt_yield` and back.
theorem moved_back (t esp : UInt32) : g.Moved (g.enter t esp).back t .ready := by
  have hrun : ((g.enter t esp).threads t).state = .running := by rw [enter_state, if_pos rfl]
  have hback : (g.enter t esp).back = (g.enter t esp).setState t .ready := if_pos hrun
  rw [hback]
  exact (g.moved_enter t esp).setState .ready

-- The entry function returns.
theorem moved_finish (t esp : UInt32) : g.Moved (g.enter t esp).finish.back t .dead := by
  have hdead : ((g.enter t esp).finish.threads t).state ≠ .running := by
    rw [show (g.enter t esp).finish = (g.enter t esp).setState t .dead from rfl, setState_state, if_pos rfl]
    decide
  have hback : (g.enter t esp).finish.back = (g.enter t esp).setState t .dead := if_neg hdead
  rw [hback]
  exact (g.moved_enter t esp).setState .dead

end Fibers

section Turns

variable {code : Code} {esp t : UInt32} {w : Run} {ts : List UInt32} {q : List (UInt32 × Nat)}

theorem Run.turn_fibers (code : Code) (esp : UInt32) (w : Run) (t : UInt32) (g : Fibers) :
    g.Moved (w.turn code esp t g).fibers t (if w.left t = 0 then .dead else .ready) := by
  unfold Run.turn
  dsimp only
  split
  · exact g.moved_finish t esp
  · exact g.moved_back t esp

theorem Run.turn_left (code : Code) (esp : UInt32) (w : Run) (t : UInt32) (g : Fibers) (p : UInt32) :
    (w.turn code esp t g).left p = if p = t then w.left t - 1 else w.left p := by
  unfold Run.turn
  dsimp only
  by_cases h0 : w.left t = 0
  · rw [if_pos h0]
    split
    · next hp => rw [hp, h0]
    · rfl
  · rw [if_neg h0]
    exact Function.update_apply ..

theorem Run.turn_turns (code : Code) (esp : UInt32) (w : Run) (t : UInt32) (g : Fibers) :
    (w.turn code esp t g).turns = w.turns ++ [⟨t, g.enter t esp⟩] := by
  unfold Run.turn
  dsimp only
  split <;> rfl

theorem Run.turn_heap (code : Code) (esp : UInt32) (w : Run) (t : UInt32) (g : Fibers) :
    (w.turn code esp t g).heap = code.turn t (w.left t) w.heap := by
  unfold Run.turn
  dsimp only
  split <;> rfl

/-- `gt_run` is between two turns; those of the fibers `ts` that have not ended are in the queue `q`. -/
structure Paused (ts : List UInt32) (left : UInt32 → Nat) (g : Fibers) (q : List (UInt32 × Nat)) : Prop where
  queue : ∃ l, Order g l ∧ l.Perm ts ∧ q = (l.filter g.isReady).map fun t => (t, left t)
  ne_zero : ∀ p ∈ ts, p ≠ 0
  idle : ∀ p ∈ ts, (g.threads p).state = .ready ∨ (g.threads p).state = .dead

/-- The queue after a turn of `t`, which had `n` calls of `gt_yield` left. -/
def requeue (t : UInt32) (q : List (UInt32 × Nat)) : Nat → List (UInt32 × Nat)
  | 0 => q
  | n + 1 => q ++ [(t, n)]

-- The others stay as they are, in their order.
theorem filter_ready_after {g g' : Fibers} {st : GtState} {skip rest ready : List UInt32}
    (hmoved : g.Moved g' t st) (hnodup : (skip ++ t :: rest).Nodup)
    (hskip : ∀ p ∈ skip, ¬ g.isReady p = true) (hrest : rest.filter g.isReady = ready) :
    (rest ++ skip ++ [t]).filter g'.isReady = ready ++ if st = .ready then [t] else [] := by
  have hmid := List.nodup_middle.mp hnodup
  have hnot : t ∉ skip ++ rest := (List.nodup_cons.mp hmid).1
  rw [List.mem_append, not_or] at hnot
  have hother : ∀ p, p ≠ t → g'.isReady p = g.isReady p := by
    intro p hp
    unfold Fibers.isReady
    rw [hmoved.state, if_neg hp]
  have hrest' : rest.filter g'.isReady = ready := by
    rw [← hrest]
    apply List.filter_congr
    exact fun p hp => hother p fun he => hnot.2 (he ▸ hp)
  have hskip' : skip.filter g'.isReady = [] := by
    rw [List.filter_eq_nil_iff]
    intro p hp
    rw [hother p fun he => hnot.1 (he ▸ hp)]
    exact hskip p hp
  have ht : [t].filter g'.isReady = if st = .ready then [t] else [] := by
    have hstate : g'.isReady t = decide (st = .ready) := by
      unfold Fibers.isReady
      rw [hmoved.state, if_pos rfl]
    rw [List.filter_singleton, hstate]
    simp
  rw [List.filter_append, List.filter_append, hrest', hskip', List.append_nil, ht]

theorem Paused.mem_queue {left : UInt32 → Nat} {g : Fibers} (h : Paused ts left g q) (u : UInt32) :
    u ∈ q.map Prod.fst ↔ u ∈ ts ∧ (g.threads u).state = .ready := by
  obtain ⟨l, -, hperm, rfl⟩ := h.queue
  rw [List.map_map, show (Prod.fst ∘ fun t => (t, left t)) = id from rfl, List.map_id, List.mem_filter,
    hperm.mem_iff]
  exact and_congr_right fun _ => decide_eq_true_iff

-- When `t` has been switched to, it and those that are ready have not ended.
theorem Paused.alive_iff {left : UInt32 → Nat} {g : Fibers} {n : Nat} (h : Paused ts left g ((t, n) :: q))
    (esp u : UInt32) : u ∈ ts ∧ ((g.enter t esp).threads u).state ≠ .dead ↔ u ∈ t :: q.map Prod.fst := by
  have hmem := h.mem_queue u
  rw [List.map_cons] at hmem
  rw [hmem, Fibers.enter_state]
  refine and_congr_right fun hu => ?_
  by_cases hut : u = t
  · have hready := ((h.mem_queue t).mp List.mem_cons_self).2
    rw [if_pos hut, hut, hready]
    exact ⟨fun _ => rfl, fun _ => by decide⟩
  · rw [if_neg hut]
    rcases h.idle u hu with hst | hst <;> simp [hst]

/-- The fiber in front of the queue is chosen; it goes to the end if it yields. -/
theorem Paused.turn {n : Nat} (h : Paused ts w.left w.fibers ((t, n) :: q)) (code : Code) (esp : UInt32) :
    ∃ g, pickNext w.fibers = some (t, g) ∧ t ≠ 0 ∧ g.stackBase = w.fibers.stackBase ∧
      (∀ u, u ∈ ts ∧ ((g.enter t esp).threads u).state ≠ .dead ↔ u ∈ t :: q.map Prod.fst) ∧
      Paused ts (w.turn code esp t g).left (w.turn code esp t g).fibers (requeue t q n) := by
  have halive := h.alive_iff esp
  obtain ⟨⟨l, horder, hperm, hq⟩, hne, hidle⟩ := h
  obtain ⟨t, ready, hready, heq, rfl⟩ := List.map_eq_cons_iff.mp hq.symm
  obtain ⟨rfl, rfl⟩ := Prod.mk.inj heq
  obtain ⟨skip, rest, rfl, hskip, -, hrest⟩ := List.filter_eq_cons_iff.mp hready
  have hin : ∀ p, p ∈ skip ++ t :: rest ↔ p ∈ ts := fun p => hperm.mem_iff
  have hmoved := w.turn_fibers code esp t { w.fibers with ring := w.fibers.next t }
  refine ⟨{ w.fibers with ring := w.fibers.next t }, ?_, hne t ((hin t).mp (by simp)), rfl, halive, ?_⟩
  · rw [pickNext_eq horder, ← List.head?_filter, hready]
    rfl
  · refine ⟨⟨rest ++ skip ++ [t], ?_, ?_, ?_⟩, hne, ?_⟩
    · exact (horder.after fun p hp => hne p ((hin p).mp hp)).congr hmoved.ring hmoved.next
    · have hrot : (rest ++ (skip ++ [t])).Perm (skip ++ [t] ++ rest) := List.perm_append_comm
      refine List.Perm.trans ?_ hperm
      simpa using hrot
    · rw [filter_ready_after hmoved horder.nodup hskip hrest, List.map_append]
      -- the calls that the others have left are the same
      have hnodup := horder.nodup.filter w.fibers.isReady
      rw [hready] at hnodup
      have hsame : (ready.map fun p => (p, (w.turn code esp t { w.fibers with ring := w.fibers.next t }).left p)) =
          ready.map fun p => (p, w.left p) := by
        apply List.map_congr_left
        intro p hp
        have hpt : p ≠ t := fun he => (List.nodup_cons.mp hnodup).1 (he ▸ hp)
        rw [Run.turn_left, if_neg hpt]
      rw [hsame]
      cases hn : w.left t with
      | zero => simp [requeue]
      | succ n => simp [requeue, Run.turn_left, hn]
    · intro p hp
      rw [hmoved.state]
      split
      · split
        · exact Or.inr rfl
        · exact Or.inl rfl
      · exact hidle p hp

/-! ## All turns -/

/-- `u` has not ended when the turn is taken. -/
def Alive (ts : List UInt32) (b : Turn) (u : UInt32) : Prop := u ∈ ts ∧ (b.fibers.threads u).state ≠ .dead

/-- The loop of `gt_run` ends, after the turns of the queue. -/
theorem runLoop_spec (code : Code) (esp : UInt32) (h : Paused ts w.left w.fibers q) :
    ∃ w' log, runLoop code esp (work q + 1) w = some w' ∧ w'.turns = w.turns ++ log ∧
      Turns Turn.fiber (Alive ts) q log ∧ Paused ts w'.left w'.fibers [] ∧
      Relation.ReflTransGen Store w.heap w'.heap ∧ w'.fibers.stackBase = w.fibers.stackBase := by
  generalize hk : work q = k
  induction k generalizing w q with
  | zero =>
    obtain rfl : q = [] := by
      cases q with
      | nil => rfl
      | cons p q => exact absurd hk (by rw [work_cons]; omega)
    obtain ⟨l, horder, -, hq⟩ := h.queue
    have hnone : l.find? w.fibers.isReady = none := by
      rw [← List.head?_filter, List.map_eq_nil_iff.mp hq.symm]
      rfl
    refine ⟨w, [], ?_, (List.append_nil _).symm, .nil, h, .refl, rfl⟩
    simp [runLoop, pickNext_eq horder, hnone]
  | succ k ih =>
    obtain ⟨⟨t, n⟩, q, rfl⟩ : ∃ p q', q = p :: q' := by
      cases q with
      | nil => exact absurd hk (by simp [work])
      | cons p q => exact ⟨p, q, rfl⟩
    obtain ⟨g, hpick, ht0, hbase, halive, hpaused⟩ := h.turn code esp
    have hwork : work (requeue t q n) = k := by
      cases n with
      | zero =>
        rw [work_cons] at hk
        show work q = k
        omega
      | succ n =>
        rw [work_cons] at hk
        show work (q ++ [(t, n)]) = k
        rw [work_rotate]
        omega
    obtain ⟨w', log, hrun, hturns, hlog, hend, hstores, hbase'⟩ := ih hpaused hwork
    have hmoved := w.turn_fibers code esp t g
    refine ⟨w', ⟨t, g.enter t esp⟩ :: log, ?_, ?_, ?_, hend, ?_, ?_⟩
    · rw [runLoop]
      simp only [hpick, Option.bind_eq_bind, Option.bind_some, if_neg ht0]
      exact hrun
    · rw [hturns, Run.turn_turns, List.append_assoc]
      rfl
    · cases n with
      | zero => exact @Turns.last _ _ Turn.fiber (Alive ts) ⟨t, g.enter t esp⟩ _ _ halive hlog
      | succ n => exact @Turns.again _ _ Turn.fiber (Alive ts) ⟨t, g.enter t esp⟩ n _ _ halive hlog
    · rw [Run.turn_heap] at hstores
      exact (code.stores t (w.left t) w.heap).trans hstores
    · rw [hbase', hmoved.stackBase, hbase]

end Turns

/-! ## The heap -/

section Heap

variable {m : Mem} {h₀ h h' : Kheap.State} {g g' : Fibers} {ts : List UInt32}

theorem Store.live_eq (hst : Relation.ReflTransGen Store h h') : h'.live = h.live := by
  induction hst with
  | refl => rfl
  | tail _ hst ih =>
    obtain ⟨e, -, k, -, v, rfl⟩ := hst
    exact ih

theorem Store.reached (hst : Relation.ReflTransGen Store h h') (hh : Kheap.Reached m h) : Kheap.Reached m h' := by
  induction hst with
  | refl => exact hh
  | tail _ hst ih =>
    obtain ⟨e, he, k, hk, v, rfl⟩ := hst
    exact ih.step (.store he hk v)

/-- The blocks of the fibers `ts` are live in `h`, and those that were live in `h₀`, and no others. -/
structure Held (m : Mem) (h₀ h : Kheap.State) (g : Fibers) (ts : List UInt32) : Prop where
  reached : Kheap.Reached m h
  ring : RingOf g ts
  owned : Owned h (g.blocks ts)
  others : ∀ e, e ∈ h.live ∧ e.1 ∉ g.blocks ts ↔ e ∈ h₀.live

namespace Held

theorem init (hh : Kheap.Reached m h) (hring : g.ring = 0) : Held m h h g [] := by
  refine ⟨hh, .none hring, ⟨List.nodup_nil, ?_⟩, ?_⟩
  · exact fun p hp => absurd hp (by simp [Fibers.blocks])
  · exact fun e => ⟨And.left, fun he => ⟨he, by simp [Fibers.blocks]⟩⟩

-- The turns of the fibers keep the live blocks.
theorem stores (hheld : Held m h₀ h g ts) (hst : Relation.ReflTransGen Store h h') (hring : RingOf g' ts)
    (hbase : g'.stackBase = g.stackBase) : Held m h₀ h' g' ts := by
  have hlive := Store.live_eq hst
  have hblocks : g'.blocks ts = g.blocks ts := by
    unfold Fibers.blocks
    rw [hbase]
  refine ⟨Store.reached hst hheld.reached, hring, ⟨?_, ?_⟩, ?_⟩
  · rw [hblocks]
    exact hheld.owned.nodup
  · rw [hblocks, hlive]
    exact hheld.owned.live
  · rw [hblocks, hlive]
    exact hheld.others

theorem same (hheld : Held m h₀ h g ts) (hh : Kheap.Reached m h') (hsame : Same g g' ts)
    (hlive : h'.live = h.live) : Held m h₀ h' g' ts := by
  refine ⟨hh, hsame.ringOf hheld.ring, ⟨?_, ?_⟩, ?_⟩
  · rw [hsame.blocks_eq]
    exact hheld.owned.nodup
  · rw [hsame.blocks_eq, hlive]
    exact hheld.owned.live
  · rw [hsame.blocks_eq, hlive]
    exact hheld.others

theorem spawned {t : UInt32} (hheld : Held m h₀ h g ts) (hh : Kheap.Reached m h')
    (hsub : ∀ e ∈ h.live, e ∈ h'.live) (hsp : Spawned h g ts h' g' t) : Held m h₀ h' g' (t :: ts) := by
  refine ⟨hh, hsp.ring, hsp.owned, fun e => ?_⟩
  have hmem : e.1 ∈ g'.blocks (t :: ts) ↔ e.1 = t ∨ e.1 = g'.stackBase t ∨ e.1 ∈ g.blocks ts := by
    rw [← hsp.blocks]
    simp [Fibers.blocks]
  rw [hmem, not_or, not_or, ← hheld.others]
  constructor
  · rintro ⟨he, hne, hns, hnot⟩
    rcases hsp.live e he with hold | heq | heq
    · exact ⟨hold, hnot⟩
    · exact absurd heq hne
    · exact absurd heq hns
  · rintro ⟨he, hnot⟩
    exact ⟨hsub e he, (hsp.fresh e he).1, (hsp.fresh e he).2, hnot⟩

-- What is live once the blocks of the fibers are freed is what was live before.
theorem live_perm (hheld : Held m h₀ h g ts) (hh₀ : Kheap.Reached m h₀) (hh : Kheap.Reached m h')
    (hmem : ∀ e, e ∈ h'.live ↔ e ∈ h.live ∧ e.1 ∉ g.blocks ts) : h₀.live.Perm h'.live := by
  have hnodup : ∀ {s : Kheap.State}, Kheap.Reached m s → s.live.Nodup := fun hs =>
    hs.live_addresses.imp fun hne heq => hne (congrArg Prod.fst heq)
  rw [List.perm_ext_iff_of_nodup (hnodup hh₀) (hnodup hh)]
  intro e
  rw [hmem, hheld.others]

end Held

/-- All calls of `gt_spawn` return, and those that succeed add a fiber each, which is ready. -/
theorem spawnAll_spec (trampoline : UInt32) (fns : List UInt32) (hheld : Held m h₀ h g ts)
    (hready : ∀ p ∈ ts, (g.threads p).state = .ready) :
    ∃ rs h' g' ts', spawnAll trampoline fns h g = some (rs, h', g') ∧ ts'.length = ts.length + rs.count 0 ∧
      Held m h₀ h' g' ts' ∧ ∀ p ∈ ts', (g'.threads p).state = .ready := by
  induction fns generalizing h g ts with
  | nil => exact ⟨[], h, g, ts, rfl, rfl, hheld, hready⟩
  | cons fn fns ih =>
    obtain ⟨r, h1, g1, hrun, hh1, hsub, hcase⟩ := gtSpawn_spec trampoline fn hheld.reached hheld.ring hheld.owned
    rcases hcase with ⟨rfl, hsame, hlive, -⟩ | ⟨rfl, t, hsp⟩
    · obtain ⟨rs, h', g', ts', hrest, hlen, hheld', hready'⟩ := ih (hheld.same hh1 hsame hlive) (by
        intro p hp
        rw [hsame.threads p hp]
        exact hready p hp)
      refine ⟨-1 :: rs, h', g', ts', ?_, ?_, hheld', hready'⟩
      · simp [spawnAll, hrun, hrest]
      · rw [hlen, List.count_cons_of_ne (by decide)]
    · obtain ⟨rs, h', g', ts', hrest, hlen, hheld', hready'⟩ := ih (hheld.spawned hh1 hsub hsp) (by
        intro p hp
        rw [hsp.state p hp]
        split
        · rfl
        · next hne => exact hready p ((List.mem_cons.mp hp).resolve_left hne))
      refine ⟨0 :: rs, h', g', ts', ?_, ?_, hheld', hready'⟩
      · simp [spawnAll, hrun, hrest]
      · rw [hlen, List.count_cons_self, List.length_cons]
        omega

-- The loop of `free_all` from `t` on is these calls of `kfree`.
theorem freeLoop_calls {n : Nat} {t : UInt32} {rest : List UInt32}
    (hpath : Path g.next (t :: (rest ++ [g.ring]))) (hring : g.ring ∉ rest) (hn : rest.length < n)
    (h : Kheap.State) :
    freeLoop g n t h = ((t :: rest).flatMap fun t => [g.stackBase t, t]).foldlM (fun h p => h.kfree p) h := by
  obtain ⟨n, rfl⟩ : ∃ k, n = k + 1 := ⟨n - 1, by omega⟩
  induction rest generalizing h t n with
  | nil =>
    have hend : g.next t = g.ring := (List.isChain_cons_cons.mp hpath).1
    simp [freeLoop, hend]
  | cons u rest ih =>
    obtain ⟨hnext, hrest⟩ := List.isChain_cons_cons.mp hpath
    rw [List.mem_cons, not_or] at hring
    rw [List.length_cons] at hn
    obtain ⟨n, rfl⟩ : ∃ k, n = k + 1 := ⟨n - 1, by omega⟩
    have hgo := fun h => ih hrest hring.2 h n (by omega)
    rw [freeLoop, hnext, List.flatMap_cons]
    simp only [if_neg (Ne.symm hring.1), hgo, List.cons_append, List.nil_append, List.foldlM_cons]

/-- `free_all` is one call of `kfree` for each fiber and one for its stack. -/
theorem freeAll_calls (hring : RingOf g ts) :
    ∃ ps : List UInt32, (∀ h, (freeAll h g).map Prod.fst = ps.foldlM (fun h p => h.kfree p) h) ∧ ps.Perm (g.blocks ts) := by
  unfold freeAll
  cases hring with
  | none h0 =>
    refine ⟨[], fun h => ?_, List.Perm.refl _⟩
    rw [if_pos h0]
    rfl
  | @some _ l h0 hcycle hperm =>
    have hlen := length_le_passes hcycle.nodup
    rw [List.length_cons] at hlen
    refine ⟨(g.ring :: l).flatMap fun t => [g.stackBase t, t], fun h => ?_, ?_⟩
    · rw [if_neg h0, freeLoop_calls hcycle.path (List.nodup_cons.mp hcycle.nodup).1 (by omega) h, Option.map_map]
      exact congrFun Option.map_id _
    · refine List.Perm.trans ?_ (hperm.flatMap_right fun t => [t, g.stackBase t])
      exact List.Perm.flatMap_left _ fun t _ => List.Perm.swap ..

end Heap

/-! ## From `gt_init` on -/

/-- What has happened when `gt_run`, called in `start` with the fibers `ts`, has returned; `h₀` is the heap
before they were spawned. -/
structure Completed (code : Code) (esp : UInt32) (h₀ : Kheap.State) (ts : List UInt32) (start w : Run) : Prop where
  only : ∀ b ∈ w.turns, b.fiber ∈ ts
  /-- The number of switches to a fiber. -/
  count : ∀ t ∈ ts, (w.turns.map Turn.fiber).count t = start.left t + 1
  /-- Between two turns of a fiber every other one that had not ended at the first of them has one. -/
  between : ∀ before b mid b' after, w.turns = before ++ b :: (mid ++ b' :: after) → b'.fiber = b.fiber →
    b.fiber ∉ mid.map Turn.fiber → ∀ u ∈ ts, u ≠ b.fiber → (b.fibers.threads u).state ≠ .dead →
    (mid.map Turn.fiber).count u = 1
  /-- A dead fiber has no turn. -/
  dead : ∀ before b rest, w.turns = before ++ b :: rest → ∀ u ∈ ts, (b.fibers.threads u).state = .dead →
    ∀ b' ∈ b :: rest, b'.fiber ≠ u
  /-- `free_all` is these calls of `kfree`: the records and the stacks, each once. -/
  frees : ∃ n w₁, ∃ ps : List UInt32, runLoop code esp n start = some w₁ ∧
    (∀ h, (freeAll h w₁.fibers).map Prod.fst = ps.foldlM (fun h p => h.kfree p) h) ∧
    ps.foldlM (fun h p => h.kfree p) w₁.heap = some w.heap ∧ ps.Perm (start.fibers.blocks ts) ∧ ps.Nodup
  heap : Kheap.SameBlocks h₀.heap w.heap.heap

section Completion

variable {m : Mem} {h₀ h : Kheap.State} {g : Fibers} {ts : List UInt32}

-- All fibers are in the queue at first.
theorem Held.paused (hheld : Held m h₀ h g ts) (hready : ∀ p ∈ ts, (g.threads p).state = .ready)
    (left : UInt32 → Nat) :
    ∃ q, Paused ts left g q ∧ (q.map Prod.fst).Nodup ∧ (q.map Prod.fst).Perm ts ∧ ∀ t ∈ ts, (t, left t) ∈ q := by
  obtain ⟨l, horder, hperm⟩ : ∃ l, Order g l ∧ l.Perm ts := by
    cases hheld.ring with
    | none h0 => exact ⟨[], .none h0, List.Perm.refl _⟩
    | some h0 hcycle hperm => exact ⟨_, .some h0 hcycle, hperm⟩
  have hall : l.filter g.isReady = l := by
    rw [List.filter_eq_self]
    exact fun p hp => decide_eq_true (hready p (hperm.mem_iff.mp hp))
  have hnames : ((l.filter g.isReady).map fun t => (t, left t)).map Prod.fst = l := by
    rw [hall, List.map_map]
    exact List.map_id l
  refine ⟨(l.filter g.isReady).map fun t => (t, left t), ⟨⟨l, horder, hperm, rfl⟩, ?_, ?_⟩, ?_, ?_, ?_⟩
  · exact fun p hp => ne_zero_of_owned hheld.reached hheld.owned (mem_blocks_of_mem hp)
  · exact fun p hp => Or.inl (hready p hp)
  · rw [hnames]
    exact horder.nodup
  · rw [hnames]
    exact hperm
  · intro t ht
    rw [hall]
    exact List.mem_map.mpr ⟨t, hperm.mem_iff.mpr ht, rfl⟩

theorem Held.gtRun (hheld : Held m h₀ h g ts) (hh₀ : Kheap.Reached m h₀)
    (hready : ∀ p ∈ ts, (g.threads p).state = .ready) (left : UInt32 → Nat) (code : Code) (esp : UInt32) :
    ∃ n w, gtRun code esp n ⟨h, g, left, []⟩ = some w ∧ Completed code esp h₀ ts ⟨h, g, left, []⟩ w := by
  obtain ⟨q, hpaused, hnodup, hnames, hq⟩ := hheld.paused hready left
  obtain ⟨w, log, hrun, hturns, hlog, ⟨⟨l, horder, hperm, -⟩, -, -⟩, hstores, hbase⟩ :=
    runLoop_spec (w := ⟨h, g, left, []⟩) code esp hpaused
  have hring := horder.ringOf hperm
  have hheld' := hheld.stores hstores hring hbase
  obtain ⟨h', g', hfree, hh', -, hmem⟩ := freeAll_spec hheld'.reached hring hheld'.owned
  obtain ⟨ps, hcalls, hps⟩ := freeAll_calls hring
  have hblocks : w.fibers.blocks ts = g.blocks ts := by
    unfold Fibers.blocks
    rw [hbase]
  refine ⟨work q + 1, { w with heap := h', fibers := g' }, ?_, ?_⟩
  · simp [Green.gtRun, hrun, hfree]
  · obtain rfl : w.turns = log := hturns
    refine ⟨?_, ?_, ?_, ?_, ⟨_, w, ps, hrun, hcalls, ?_, hblocks ▸ hps, ?_⟩, ?_⟩
    · exact fun b hb => hnames.mem_iff.mp (hlog.name_mem hb)
    · exact fun t ht => hlog.count_name hnodup (hq t ht)
    · intro before b mid b' after heq hsame hmid u hu hne hst
      have hsplit : Turns Turn.fiber (Alive ts) q (before ++ b :: (mid ++ b' :: after)) := heq ▸ hlog
      exact hsplit.between hnodup hsame hmid ⟨hu, hst⟩ hne
    · intro before b rest heq u _ hst b' hb'
      have hsplit : Turns Turn.fiber (Alive ts) q (before ++ b :: rest) := heq ▸ hlog
      exact hsplit.not_alive hnodup (fun halive => halive.2 hst) hb'
    · rw [← hcalls, hfree]
      rfl
    · exact hps.nodup_iff.mpr hheld'.owned.nodup
    · exact Kheap.sameBlocks_of_live hh₀ hh' (hheld'.live_perm hh₀ hh' hmem)

/-- Any fibers spawned after `gt_init` run to their ends in turns, and then nothing of them is left. -/
theorem gtRun_completes (hh : Kheap.Reached m h) (g : Fibers) (trampoline : UInt32) (fns : List UInt32) :
    ∃ rs h' g' ts, spawnAll trampoline fns h (gtInit g) = some (rs, h', g') ∧ RingOf g' ts ∧ ts.Nodup ∧
      ts.length = rs.count 0 ∧ ∀ (left : UInt32 → Nat) (code : Code) (esp : UInt32), ∃ n w,
        gtRun code esp n ⟨h', g', left, []⟩ = some w ∧ Completed code esp h ts ⟨h', g', left, []⟩ w := by
  have hinit : Held m h h (gtInit g) [] := .init hh rfl
  obtain ⟨rs, h', g', ts, hrun, hlen, hheld, hready⟩ :=
    spawnAll_spec trampoline fns hinit fun p hp => absurd hp (by simp)
  rw [List.length_nil, Nat.zero_add] at hlen
  have hnodup : ts.Nodup := by
    cases hheld.ring with
    | none _ => exact List.nodup_nil
    | some _ hcycle hperm => exact hperm.nodup_iff.mp hcycle.nodup
  exact ⟨rs, h', g', ts, hrun, hheld.ring, hnodup, hlen, fun left code esp =>
    hheld.gtRun hh hready left code esp⟩

-- A record and a stack are cut from the end of the heap.
theorem gtSpawn_room {pre : List FirstFit.Blk} {size : Nat} (trampoline fn : UInt32) (hh : Kheap.Reached m h)
    (hinv : Kheap.Inv h (pre ++ [⟨size, true⟩])) (hpre : ∀ b ∈ pre, b.free = false) (hsize : 4152 ≤ size) (g : Fibers) :
    ∃ h' g', gtSpawn trampoline fn h g = some (0, h', g') ∧ Kheap.Reached m h' ∧
      Kheap.Inv h' ((pre ++ [⟨24, false⟩] ++ [⟨4096, false⟩]) ++ [⟨size - 4144, true⟩]) := by
  have hround : (Kheap.align8 gthreadSize).toNat = 24 ∧ (Kheap.align8 gtStackSize).toNat = 4096 := by decide
  obtain ⟨h24, h4096⟩ := hround
  obtain ⟨t, h1, hrun1, ht, hh1, hinv1, k, hk, hl1⟩ :=
    hh.kmalloc_last hinv hpre (n := gthreadSize) (by decide) (by omega)
  rw [h24] at hinv1
  obtain ⟨stack, h2, hrun2, hstack, hh2, hinv2, n, hn, hl2⟩ :=
    hh1.kmalloc_last hinv1 (Kheap.inUse_snoc 24 hpre) (n := gtStackSize) (by decide) (by omega)
  rw [h4096, show size - 24 - 12 - 4096 - 12 = size - 4144 by omega] at hinv2
  have htlive : (t, k) ∈ h2.live := by
    rw [hl2, hl1]
    exact List.mem_cons_of_mem _ List.mem_cons_self
  have hslive : (stack, n) ∈ h2.live := by
    rw [hl2]
    exact List.mem_cons_self
  have hh' := reached_initStack trampoline hh2 htlive (Nat.le_trans (by decide) hk) hslive (Nat.le_trans (by decide) hn)
  unfold gtSpawn
  simp only [hrun1, hrun2, Option.bind_eq_bind, Option.bind_some, if_neg ht, if_neg hstack]
  refine ⟨_, _, rfl, hh', ?_⟩
  -- what is stored on the stack is in no header
  obtain ⟨bs, hinv'⟩ := Kheap.inv_reached hh'
  rwa [← hinv2.blocks_eq hinv' (List.Perm.refl _)] at hinv'

/-- As long as there is room at the end of the heap, every `gt_spawn` succeeds. -/
theorem spawnAll_room (trampoline : UInt32) (fns : List UInt32) (pre : List FirstFit.Blk) {size : Nat}
    (hh : Kheap.Reached m h) (hinv : Kheap.Inv h (pre ++ [⟨size, true⟩])) (hpre : ∀ b ∈ pre, b.free = false)
    (hsize : 4144 * fns.length + 8 ≤ size) (g : Fibers) :
    ∃ h' g', spawnAll trampoline fns h g = some (List.replicate fns.length 0, h', g') := by
  induction fns generalizing h g pre size with
  | nil => exact ⟨h, g, rfl⟩
  | cons fn fns ih =>
    rw [List.length_cons] at hsize
    obtain ⟨h1, g1, hrun, hh1, hinv1⟩ := gtSpawn_room trampoline fn hh hinv hpre (by omega) g
    obtain ⟨h', g', hrest⟩ := ih _ hh1 hinv1 (Kheap.inUse_snoc 4096 (Kheap.inUse_snoc 24 hpre)) (by omega) g1
    refine ⟨h', g', ?_⟩
    simp only [spawnAll, hrun, hrest, Option.bind_eq_bind, Option.bind_some, List.length_cons, List.replicate_succ]
    rfl

-- A fresh heap has room for a thousand.
theorem spawnAll_kheapInit (trampoline : UInt32) (fns : List UInt32) (hfns : fns.length ≤ 1000) (g : Fibers) :
    ∃ h' g', spawnAll trampoline fns ⟨Kheap.kheapInit m, []⟩ g = some (List.replicate fns.length 0, h', g') := by
  have hS : Kheap.heapSize = 0x400000 := rfl
  exact spawnAll_room trampoline fns [] .init (Kheap.inv_init m) (fun b hb => absurd hb List.not_mem_nil) (by omega) g

-- Two fibers, of which one yields three times and the other once.
theorem gtRun_completes_two : ∃ h g t u n w,
    spawnAll 0x3000 [0x4000, 0x5000] ⟨Kheap.kheapInit fun _ => 0, []⟩ (gtInit ⟨fun _ => ⟨0, .dead, 0, 0⟩, 0, 0, 0⟩) =
      some ([0, 0], h, g) ∧ RingOf g [t, u] ∧ t ≠ u ∧
    gtRun ⟨fun _ _ h => h, fun _ _ _ => .refl⟩ 0x6000 n ⟨h, g, fun p => if p = t then 3 else 1, []⟩ = some w ∧
    (w.turns.map Turn.fiber).count t = 4 ∧ (w.turns.map Turn.fiber).count u = 2 ∧
    Completed ⟨fun _ _ h => h, fun _ _ _ => .refl⟩ 0x6000 ⟨Kheap.kheapInit fun _ => 0, []⟩ [t, u]
      ⟨h, g, fun p => if p = t then 3 else 1, []⟩ w := by
  obtain ⟨rs, h, g, ts, hrun, hring, hnodup, hlen, hall⟩ :=
    gtRun_completes (Kheap.Reached.init (m := fun _ => 0)) ⟨fun _ => ⟨0, .dead, 0, 0⟩, 0, 0, 0⟩ 0x3000 [0x4000, 0x5000]
  obtain ⟨h1, g1, hspawn⟩ := spawnAll_kheapInit (m := fun _ => 0) 0x3000 [0x4000, 0x5000] (by decide)
    (gtInit ⟨fun _ => ⟨0, .dead, 0, 0⟩, 0, 0, 0⟩)
  obtain rfl : rs = [0, 0] := congrArg Prod.fst (Option.some.inj (hrun.symm.trans hspawn))
  obtain ⟨t, u, rfl⟩ := List.length_eq_two.mp hlen
  have hne : t ≠ u := fun he => (List.nodup_cons.mp hnodup).1 (List.mem_singleton.mpr he)
  obtain ⟨n, w, hgt, hdone⟩ := hall (fun p => if p = t then 3 else 1) ⟨fun _ _ h => h, fun _ _ _ => .refl⟩ 0x6000
  have ht := hdone.count t List.mem_cons_self
  have hu := hdone.count u (List.mem_cons_of_mem _ List.mem_cons_self)
  dsimp only at ht hu
  rw [if_pos rfl] at ht
  rw [if_neg (Ne.symm hne)] at hu
  exact ⟨h, g, t, u, n, w, hrun, hring, hne, hgt, ht, hu, hdone⟩

end Completion

end JacobOS.Green
