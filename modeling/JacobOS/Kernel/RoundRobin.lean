import JacobOS.Kernel.TaskRuns

/-!
# The order in which the tasks run

As long as no task is created and none ends, each call of `schedule` hands the processor to the next task
of the ring that is not dead.  After as many calls as there are such tasks everything is as it was.
-/

namespace JacobOS.Tasking

open CString Ring

/-- The states after each of `n` calls of `schedule`. -/
def schedules : Nat → Sched → Option (List Sched)
  | 0, _ => some []
  | n + 1, s => do
    let (s, _) ← schedule s
    let ss ← schedules n s
    return s :: ss

theorem schedules_succ {n : Nat} {s s' : Sched} {c : Option (UInt32 × UInt32)} {ss : List Sched}
    (h : schedule s = some (s', c)) (hss : schedules n s' = some ss) :
    schedules (n + 1) s = some (s' :: ss) := by
  simp [schedules, h, hss]

/-! ## Only the current task has changed -/

namespace Sched

variable {s : Sched} {c d : UInt32}

/-- `s` when the processor has been handed on to `c`. -/
def handTo (s : Sched) (c : UInt32) : Sched :=
  { s with
    tasks := fun p => { s.tasks p with
      state := if p = c then .running else if p = s.current then .ready else (s.tasks p).state }
    current := c
    esp0 := (s.tasks c).kstackTop }

theorem handTo_state (s : Sched) (c p : UInt32) : ((s.handTo c).tasks p).state =
    if p = c then .running else if p = s.current then .ready else (s.tasks p).state := rfl

theorem switchTo_tasks (s : Sched) (n p : UInt32) :
    (s.switchTo n).tasks p = { s.tasks p with state := ((s.switchTo n).tasks p).state } := by
  have hset : ∀ (s : Sched) (q : UInt32) (st : TaskState),
      (s.setState q st).tasks p = { s.tasks p with state := ((s.setState q st).tasks p).state } := by
    intro s q st
    unfold setState
    by_cases hq : p = q
    · rw [hq, modify_same]
    · rw [modify_other s _ hq]
  unfold switchTo
  dsimp only
  rw [hset]
  split
  · rw [hset s]
  · rfl

theorem switchTo_eq (s : Sched) (n : UInt32) :
    s.switchTo n =
      { s with tasks := (s.switchTo n).tasks, current := n, esp0 := (s.tasks n).kstackTop } := by
  have hesp0 := s.switchTo_esp0 n
  unfold switchTo at hesp0 ⊢
  dsimp only at hesp0 ⊢
  rw [hesp0]
  split <;> rfl

theorem handTo_current (hrun : (s.tasks s.current).state = .running)
    (hesp0 : s.esp0 = (s.tasks s.current).kstackTop) : s.handTo s.current = s := by
  have htasks : (s.handTo s.current).tasks = s.tasks := by
    funext p
    unfold handTo
    dsimp only
    by_cases hp : p = s.current
    · rw [if_pos hp, hp, ← hrun]
    · rw [if_neg hp, if_neg hp]
  unfold handTo at htasks ⊢
  dsimp only at htasks
  rw [htasks, ← hesp0]

-- The task that has been running is ready again.
theorem switchTo_handTo (hc : c = s.current ∨ (s.tasks c).state = .ready) :
    (s.handTo c).switchTo d = s.handTo d := by
  have htasks : ((s.handTo c).switchTo d).tasks = (s.handTo d).tasks := by
    funext p
    rw [switchTo_tasks, switchTo_state]
    unfold handTo
    dsimp only
    by_cases hpd : p = d
    · rw [if_pos hpd, if_pos hpd]
    · rw [if_neg hpd, if_neg hpd]
      by_cases hpc : p = c
      · subst hpc
        rw [if_pos rfl, if_pos rfl]
        rcases hc with hc | hc
        · rw [if_pos hc]
          rfl
        · rw [hc, ite_self]
          rfl
      · rw [if_neg hpc, if_neg hpc]
  rw [switchTo_eq, htasks]
  rfl

theorem handTo_isDead (hcur : s.isDead s.current = false) (hc : s.isDead c = false) :
    (s.handTo c).isDead = s.isDead := by
  funext p
  unfold isDead
  rw [handTo_state]
  by_cases hpc : p = c
  · subst hpc
    rw [if_pos rfl]
    exact hc.symm
  · rw [if_neg hpc]
    by_cases hp : p = s.current
    · subst hp
      rw [if_pos rfl]
      exact hcur.symm
    · rw [if_neg hp]

end Sched

/-! ## Once around the ring -/

/-- The current task is in the ring with the tasks `l`, which are ready or dead. -/
structure Ordered (s : Sched) (l : List UInt32) : Prop where
  ring : Cycle s.next s.current l
  on : s.schedulingOn = true
  running : (s.tasks s.current).state = .running
  esp0 : s.esp0 = (s.tasks s.current).kstackTop
  ready : ∀ p ∈ l, s.isDead p = false → (s.tasks p).state = .ready

theorem Inv.ordered {s : Sched} {all : List UInt32} {exits : Nat} (h : Inv s all exits) :
    ∃ l, Ordered s l ∧ (s.current :: l).Perm all := by
  obtain ⟨l, hring, hperm⟩ := h.ring_current
  refine ⟨l, ⟨hring, h.on, (h.running _ h.mem).mpr rfl, h.esp0, ?_⟩, hperm⟩
  intro p hp hd
  have hne : p ≠ s.current := fun he => (List.nodup_cons.mp hring.nodup).1 (he ▸ hp)
  have hidle := (h.running p (hperm.mem_iff.mp (List.mem_cons_of_mem _ hp))).not.mpr hne
  unfold Sched.isDead at hd
  cases hst : (s.tasks p).state with
  | running => exact absurd hst hidle
  | ready => rfl
  | dead => rw [hst] at hd; exact absurd hd (by decide)

namespace Ordered

variable {s : Sched} {l pre post : List UInt32} {c : UInt32}

theorem live (h : Ordered s l) : s.isDead s.current = false := by
  unfold Sched.isDead
  rw [h.running]
  rfl

-- The ring as `c` sees it: the tasks after it come first, then the current one.
theorem enter (h : Ordered s l) (hl : s.current :: l = pre ++ c :: post) :
    ∃ back, Cycle s.next c (post ++ back) ∧
      (back.find? fun p => !s.isDead p) = if c = s.current then none else some s.current := by
  cases pre with
  | nil =>
    obtain ⟨rfl, rfl⟩ := List.cons.inj hl
    exact ⟨[], by rw [List.append_nil]; exact h.ring, by simp⟩
  | cons x pre =>
    obtain ⟨rfl, rfl⟩ := List.cons.inj hl
    have hne : c ≠ s.current := by
      rintro rfl
      exact (List.nodup_cons.mp h.ring.nodup).1 (by simp)
    refine ⟨s.current :: pre, h.ring.enter, ?_⟩
    rw [List.find?_cons, h.live, if_neg hne]
    rfl

-- `c` hands on to the first live task after it, or back to the current one.
theorem schedule (h : Ordered s l) (hl : s.current :: l = pre ++ c :: post) (hc : s.isDead c = false) :
    ∃ sw, schedule (s.handTo c) =
      some (s.handTo ((post.filter fun p => !s.isDead p).head?.getD s.current), sw) := by
  have hstate : c = s.current ∨ (s.tasks c).state = .ready := by
    have hmem : c ∈ s.current :: l := by simp [hl]
    exact (List.mem_cons.mp hmem).imp_right fun hcl => h.ready c hcl hc
  obtain ⟨back, hring, hback⟩ := h.enter hl
  have hrun := schedule_eq (s := s.handTo c) h.on hring
  rw [Sched.handTo_isDead h.live hc, List.find?_append, hback, ← List.head?_filter] at hrun
  cases hf : (post.filter fun p => !s.isDead p).head? with
  | none =>
    rw [hf, Option.none_or] at hrun
    by_cases hcc : c = s.current
    · rw [if_pos hcc] at hrun
      refine ⟨none, hrun.trans ?_⟩
      rw [hcc]
      rfl
    · rw [if_neg hcc] at hrun
      dsimp only at hrun
      rw [Sched.switchTo_handTo hstate] at hrun
      exact ⟨_, hrun⟩
  | some d =>
    rw [hf, Option.some_or] at hrun
    dsimp only at hrun
    rw [Sched.switchTo_handTo hstate] at hrun
    exact ⟨_, hrun⟩

-- From `c` on, the live tasks after it take their turns.
theorem schedules (h : Ordered s l) (hl : s.current :: l = pre ++ c :: post) (hc : s.isDead c = false) :
    ∃ ss, schedules ((post.filter fun p => !s.isDead p).length + 1) (s.handTo c) = some ss ∧
      ss.map Sched.current = (post.filter fun p => !s.isDead p) ++ [s.current] ∧
      ss.getLast? = some s := by
  generalize hturns : (post.filter fun p => !s.isDead p) = turns
  induction turns generalizing pre c post with
  | nil =>
    obtain ⟨sw, hrun⟩ := h.schedule hl hc
    rw [hturns] at hrun
    have hself : s.handTo (([] : List UInt32).head?.getD s.current) = s :=
      Sched.handTo_current h.running h.esp0
    rw [hself] at hrun
    exact ⟨[s], schedules_succ hrun rfl, rfl, rfl⟩
  | cons d turns ih =>
    obtain ⟨sw, hrun⟩ := h.schedule hl hc
    rw [hturns] at hrun
    obtain ⟨skip, rest, hpost, -, hd, hrest⟩ := List.filter_eq_cons_iff.mp hturns
    have hsplit : s.current :: l = (pre ++ c :: skip) ++ d :: rest := by
      rw [hl, hpost]
      simp
    obtain ⟨ss, hss, hcurrents, hlast⟩ := ih hsplit (by simpa using hd) hrest
    refine ⟨s.handTo d :: ss, schedules_succ hrun hss, ?_, ?_⟩
    · rw [List.map_cons, hcurrents]
      rfl
    · rw [List.getLast?_cons, hlast]
      rfl

end Ordered

/-- Over as many calls of `schedule` as there are live tasks each of them becomes the current one, in the
order of the ring, and then the state is that before the calls. -/
theorem schedule_round_robin {m : Mem} {fn : Entries} {w : World} (h : Reached m fn w) :
    ∃ l ss, Cycle w.sched.next w.sched.current l ∧ (w.sched.current :: l).Perm w.all ∧
      schedules (w.all.countP fun p => !w.sched.isDead p) w.sched = some ss ∧
      ss.map Sched.current = (l.filter fun p => !w.sched.isDead p) ++ [w.sched.current] ∧
      (ss.map Sched.current).Nodup ∧ ss.getLast? = some w.sched := by
  obtain ⟨l, hord, hperm⟩ := (worldInv_reached h).inv.ordered
  have hsplit : w.sched.current :: l = [] ++ w.sched.current :: l := rfl
  obtain ⟨ss, hss, hcurrents, hlast⟩ := hord.schedules hsplit hord.live
  rw [Sched.handTo_current hord.running hord.esp0] at hss
  refine ⟨l, ss, hord.ring, hperm, ?_, hcurrents, ?_, hlast⟩
  · rw [← hperm.countP_eq, List.countP_cons, List.countP_eq_length_filter, hord.live]
    exact hss
  · obtain ⟨hnotin, hnodup⟩ := List.nodup_cons.mp hord.ring.nodup
    rw [hcurrents]
    refine List.nodup_append.mpr ⟨hnodup.filter _, List.nodup_singleton _, ?_⟩
    intro a ha b hb he
    rw [List.mem_singleton.mp hb] at he
    exact hnotin (he ▸ (List.mem_filter.mp ha).1)

-- Two tasks are created on a fresh heap, and the three take turns.
theorem schedule_round_robin_create : ∃ h s t h₁ s₁ u h₂ s₂ ss,
    taskingInit ⟨Kheap.kheapInit fun _ => 0, []⟩ noTasks = some (h, s) ∧
    taskCreate ⟨0x1000, 0x2000⟩ (ascii "worker") 0x5000 h s = some (t, h₁, s₁) ∧ t ≠ 0 ∧
    taskCreate ⟨0x1000, 0x2000⟩ (ascii "clock") 0x6000 h₁ s₁ = some (u, h₂, s₂) ∧ u ≠ 0 ∧
    schedules 3 s₂ = some ss ∧ ss.map Sched.current = [u, t, s.current] ∧ ss.getLast? = some s₂ := by
  obtain ⟨h, s, t, h₁, s₁, u, h₂, s₂, hinit, hrun₁, ht, hrun₂, hu, hreach, hcur, hnext⟩ :=
    workers_created (m := fun _ => 0) ⟨0x1000, 0x2000⟩
  obtain ⟨l, ss, hring, hperm, hss, hcurrents, -, hlast⟩ := schedule_round_robin hreach
  have hinv := (worldInv_reached hreach).inv
  dsimp only at hring hperm hss hcurrents hlast
  rw [hcur] at hring hperm hcurrents
  -- nobody has ended
  have hlive : ∀ p ∈ [u, t, s.current], (!s₂.isDead p) = true := by
    intro p hp
    rw [Bool.not_eq_true', ← Bool.not_eq_true]
    exact List.countP_eq_zero.mp hinv.dead p hp
  have hcount : [u, t, s.current].countP (fun p => !s₂.isDead p) = 3 := List.countP_eq_length.mpr hlive
  -- the ring starts with the latest
  have hl : l = [u, t] := by
    have hrest : l.Perm [u, t] := by
      have hrot : ([u, t] ++ [s.current]).Perm ([s.current] ++ [u, t]) := List.perm_append_comm
      exact (hperm.trans hrot).cons_inv
    obtain ⟨m, hadv, -⟩ := hring.advance
    rw [hnext] at hadv
    obtain ⟨a, b, rfl⟩ := List.length_eq_two.mp hrest.length_eq
    obtain rfl : a = u := (List.cons.inj hadv).1
    rw [List.perm_singleton.mp hrest.cons_inv]
  rw [hcount] at hss
  rw [hl, List.filter_eq_self.mpr fun p hp => hlive p (List.mem_append_left [s.current] hp)] at hcurrents
  exact ⟨h, s, t, h₁, s₁, u, h₂, s₂, ss, hinit, hrun₁, ht, hrun₂, hu, hss, hcurrents, hlast⟩

end JacobOS.Tasking
