import JacobOS.Kernel.TaskRuns
import JacobOS.Numerals

/-!
# The commands `ps` and `spawn`

The tasks are numbered in the order in which they were created.  `task_foreach` starts at the initial task, and as a
new one is linked in right after it, `ps` goes on with the latest and ends with the oldest.
-/

namespace JacobOS.Tasking

open CString Numerals Ring

def stateText : TaskState → List UInt8
  | .running => ascii " (running)"
  | .dead => ascii " (dead)"
  | .ready => ascii " (ready)"

def psPrint (t : Task) : List UInt8 :=
  ascii "  #" ++ itoa t.id.toInt32 ++ ascii " " ++ cstr t.name ++ stateText t.state ++ ascii "\n"

def cmdPs (workerTicks : UInt32) (s : Sched) : Option (List UInt8) := do
  let n ← taskCount s
  let ts ← taskForeach s
  return ascii "tasks (" ++ itoa (Int32.ofNat n) ++ ascii "):\n" ++ ts.flatMap (fun p => psPrint (s.tasks p)) ++
    ascii "background work counter: " ++ itoa workerTicks.toInt32 ++ ascii "\n"

/-- The branch of `run_command` for `spawn`. -/
def spawn (fn : Entries) (shellWorker : UInt32) (h : Kheap.State) (s : Sched) :
    Option (List UInt8 × Kheap.State × Sched) := do
  let (t, h, s) ← taskCreate fn (ascii "worker") shellWorker h s
  if t ≠ 0 then return (ascii "spawned task #" ++ itoa (s.tasks t).id.toInt32 ++ ascii "\n", h, s)
  return (ascii "spawn: failed\n", h, s)

/-! ## What stays of a task -/

/-- The two have the same tasks in the same order, with the same numbers and names. -/
structure SameCards (s s' : Sched) : Prop where
  id : ∀ p, (s'.tasks p).id = (s.tasks p).id
  name : ∀ p, (s'.tasks p).name = (s.tasks p).name
  next : s'.next = s.next
  head : s'.head = s.head
  nextId : s'.nextId = s.nextId

namespace SameCards

variable {s s' s'' : Sched}

theorem refl (s : Sched) : SameCards s s := ⟨fun _ => rfl, fun _ => rfl, rfl, rfl, rfl⟩

theorem trans (h : SameCards s s') (h' : SameCards s' s'') : SameCards s s'' :=
  ⟨fun p => (h'.id p).trans (h.id p), fun p => (h'.name p).trans (h.name p), h'.next.trans h.next,
    h'.head.trans h.head, h'.nextId.trans h.nextId⟩

theorem modify (s : Sched) (p : UInt32) {f : Task → Task}
    (hf : ∀ t, (f t).id = t.id ∧ (f t).name = t.name ∧ (f t).next = t.next) : SameCards s (s.modify p f) := by
  have hat : ∀ q, ((s.modify p f).tasks q).id = (s.tasks q).id ∧ ((s.modify p f).tasks q).name = (s.tasks q).name ∧
      ((s.modify p f).tasks q).next = (s.tasks q).next := by
    intro q
    by_cases hq : q = p
    · rw [hq, s.modify_same]
      exact hf _
    · rw [s.modify_other f hq]
      exact ⟨rfl, rfl, rfl⟩
  exact ⟨fun q => (hat q).1, fun q => (hat q).2.1, funext fun q => (hat q).2.2, rfl, rfl⟩

theorem setState (s : Sched) (p : UInt32) (st : TaskState) : SameCards s (s.setState p st) :=
  modify s p fun _ => ⟨rfl, rfl, rfl⟩

theorem switchTo (s : Sched) (n : UInt32) : SameCards s (s.switchTo n) := by
  have hparked : SameCards s (if (s.tasks s.current).state = .running then s.setState s.current .ready else s) := by
    split
    · exact setState ..
    · exact refl s
  have hall := hparked.trans (setState _ n .running)
  exact ⟨hall.id, hall.name, hall.next, hall.head, hall.nextId⟩

theorem schedule {c : Option (UInt32 × UInt32)} (hrun : schedule s = some (s', c)) : SameCards s s' := by
  unfold Tasking.schedule at hrun
  split at hrun
  · obtain ⟨rfl, -⟩ := Prod.mk.inj (Option.some.inj hrun)
    exact refl s
  · obtain ⟨next, -, hrun⟩ := Option.bind_eq_some_iff.mp hrun
    split at hrun
    · obtain ⟨rfl, -⟩ := Prod.mk.inj (Option.some.inj hrun)
      exact refl s
    · obtain ⟨rfl, -⟩ := Prod.mk.inj (Option.some.inj hrun)
      exact switchTo s next

theorem taskExit {c : Option (UInt32 × UInt32)} (hrun : taskExit s = some (s', c)) : SameCards s s' := by
  have hdead := setState s s.current .dead
  have hon : SameCards s { s.setState s.current .dead with schedulingOn := true } :=
    ⟨hdead.id, hdead.name, hdead.next, hdead.head, hdead.nextId⟩
  exact hon.trans (schedule hrun)

end SameCards

/-- A call that fails leaves the tasks as they are, any other one fills in a record and links it in. -/
theorem taskCreate_cards {fn : Entries} {name : List UInt8} {entry t : UInt32} {h h' : Kheap.State} {s s' : Sched}
    (hrun : taskCreate fn name entry h s = some (t, h', s')) :
    ∃ r, SameCards s r ∧ (t = 0 ∧ s' = r ∨ t ≠ 0 ∧ ∃ kstack, s' = (r.fillIn t kstack name entry).link t) := by
  unfold taskCreate at hrun
  simp only [Option.bind_eq_bind, Option.bind_eq_some_iff, Prod.exists] at hrun
  obtain ⟨p, h1, -, hrun⟩ := hrun
  have hstack : ∀ stack, SameCards s (s.modify p fun r => { r with stackBase := stack }) :=
    fun stack => .modify s p fun _ => ⟨rfl, rfl, rfl⟩
  have hkstack : ∀ stack kstack, SameCards s
      ((s.modify p fun r => { r with stackBase := stack }).modify p fun r => { r with kstackBase := kstack }) :=
    fun stack kstack => (hstack stack).trans (.modify _ p fun _ => ⟨rfl, rfl, rfl⟩)
  split at hrun
  · obtain ⟨rfl, hrest⟩ := Prod.mk.inj (Option.some.inj hrun)
    exact ⟨s, .refl s, Or.inl ⟨rfl, (Prod.mk.inj hrest).2.symm⟩⟩
  · rename_i hp
    simp only [Option.bind_eq_some_iff, Prod.exists] at hrun
    obtain ⟨stack, h2, -, hrun⟩ := hrun
    split at hrun
    · obtain ⟨h3, -, hrun⟩ := Option.bind_eq_some_iff.mp hrun
      obtain ⟨rfl, hrest⟩ := Prod.mk.inj (Option.some.inj hrun)
      exact ⟨_, hstack stack, Or.inl ⟨rfl, (Prod.mk.inj hrest).2.symm⟩⟩
    · simp only [Option.bind_eq_some_iff, Prod.exists] at hrun
      obtain ⟨kstack, h3, -, hrun⟩ := hrun
      split at hrun
      · obtain ⟨h4, -, hrun⟩ := Option.bind_eq_some_iff.mp hrun
        obtain ⟨h5, -, hrun⟩ := Option.bind_eq_some_iff.mp hrun
        obtain ⟨rfl, hrest⟩ := Prod.mk.inj (Option.some.inj hrun)
        exact ⟨_, hkstack stack kstack, Or.inl ⟨rfl, (Prod.mk.inj hrest).2.symm⟩⟩
      · obtain ⟨rfl, hrest⟩ := Prod.mk.inj (Option.some.inj hrun)
        exact ⟨_, hkstack stack kstack, Or.inr ⟨hp, kstack, (Prod.mk.inj hrest).2.symm⟩⟩

/-! ## The tasks in their order -/

/-- The bytes of a name that a record keeps. -/
def cardName (name : List UInt8) : List UInt8 := (cstr name).take (taskNameMax - 1)

theorem cstr_copyName (field name : List UInt8) : cstr (copyName field name) = cardName name := by
  have h0 : 0 ∉ (cstr name).take 31 := fun hmem => cstr_ne_zero (List.mem_of_mem_take hmem) rfl
  unfold copyName cardName
  rw [strncpy_eq]
  show cstr (((cstr name).take 31 ++ List.replicate (31 - (cstr name).length) 0 ++ field.drop 31).set 31 0) =
    (cstr name).take 31
  by_cases hlen : (cstr name).length < 31
  · -- the padding ends the name
    have hpos : 31 - (cstr name).length = (31 - (cstr name).length - 1) + 1 := by omega
    rw [hpos, List.replicate_succ, List.append_assoc, List.cons_append, List.set_append_right]
    · rw [List.length_take]
      cases hk : 31 - min 31 (cstr name).length with
      | zero => exact cstr_append_zero h0 _
      | succ k => exact cstr_append_zero h0 _
    · rw [List.length_take]
      omega
  · -- the last byte of the field does
    have hzero : 31 - (cstr name).length = 0 := by omega
    have hfull : ((cstr name).take 31).length = 31 := by
      rw [List.length_take]
      omega
    rw [hzero, List.replicate_zero, List.append_nil, List.set_append_right _ _ (Nat.le_of_eq hfull), hfull]
    cases field.drop 31 with
    | nil => rw [List.set_nil, List.append_nil, cstr_eq_self h0]
    | cons c rest => exact cstr_append_zero h0 rest

/-- The tasks in `all` were given the names `names`, the first one first. -/
structure Listed (s : Sched) (all : List UInt32) (names : List (List UInt8)) : Prop where
  ring : ∃ l, Cycle s.next s.head l ∧ all = l ++ [s.head]
  ids : all.reverse.map (fun p => (s.tasks p).id) = (List.range names.length).map UInt32.ofNat
  cards : all.reverse.map (fun p => cstr (s.tasks p).name) = names.map cardName
  nextId : s.nextId = UInt32.ofNat names.length

namespace Listed

variable {s s' : Sched} {all : List UInt32} {names : List (List UInt8)}

theorem congr (h : Listed s all names) (hc : SameCards s s') : Listed s' all names := by
  refine ⟨?_, ?_, ?_, hc.nextId.trans h.nextId⟩
  · rw [hc.next, hc.head]
    exact h.ring
  · rw [← h.ids]
    exact List.map_congr_left fun p _ => hc.id p
  · rw [← h.cards]
    exact List.map_congr_left fun p _ => congrArg cstr (hc.name p)

theorem length_eq (h : Listed s all names) : all.length = names.length := by
  have hlen := congrArg List.length h.cards
  rwa [List.length_map, List.length_reverse, List.length_map] at hlen

-- The initial task is number 0.
theorem init {h h' : Kheap.State} (hid : s.nextId = 0) (hrun : taskingInit h s = some (h', s')) :
    Listed s' [s'.current] [ascii "kernel"] := by
  unfold taskingInit at hrun
  simp only [Option.bind_eq_bind, Option.bind_eq_some_iff, Prod.exists] at hrun
  obtain ⟨p, h1, -, kstack, h2, -, hrun⟩ := hrun
  obtain ⟨-, rfl⟩ := Prod.mk.inj (Option.some.inj hrun)
  refine ⟨⟨[], Cycle.self ?_, rfl⟩, ?_, ?_, ?_⟩
  · simp [Sched.next]
  · simp only [List.reverse_singleton, List.map_cons, List.map_nil, Sched.modify_same, hid]
    rfl
  · simp only [List.reverse_singleton, List.map_cons, List.map_nil, Sched.modify_same, cstr_copyName]
  · show s.nextId + 1 = 1
    rw [hid]
    rfl

-- The new task comes right after the initial one.
theorem link_cycle {l : List UInt32} {t : UInt32} (hring : Cycle s.next s.head l) (ht : t ∉ s.head :: l) :
    Cycle (s.link t).next s.head (t :: l) := by
  have hnext : ∀ p, (s.link t).next p = if p = s.head then t else if p = t then s.next s.head else s.next p := by
    intro p
    unfold Sched.link
    dsimp only
    rw [Sched.setNext_next, Sched.setNext_next]
    rfl
  have hhead : t ≠ s.head := fun he => ht (he ▸ List.mem_cons_self)
  refine hring.insert ht ?_ ?_ ?_
  · rw [hnext, if_pos rfl]
  · rw [hnext, if_neg hhead, if_pos rfl]
  · intro p hp
    have hph : p ≠ s.head := fun he => (List.nodup_cons.mp hring.nodup).1 (he ▸ hp)
    have hpt : p ≠ t := fun he => ht (he ▸ List.mem_cons_of_mem s.head hp)
    rw [hnext, if_neg hph, if_neg hpt]

theorem link_card (s : Sched) (t p : UInt32) :
    ((s.link t).tasks p).id = (s.tasks p).id ∧ ((s.link t).tasks p).name = (s.tasks p).name := by
  have hset : ∀ (s : Sched) (q n : UInt32), ((s.setNext q n).tasks p).id = (s.tasks p).id ∧
      ((s.setNext q n).tasks p).name = (s.tasks p).name := by
    intro s q n
    unfold Sched.setNext
    by_cases hp : p = q
    · rw [hp, s.modify_same]
      exact ⟨rfl, rfl⟩
    · rw [s.modify_other _ hp]
      exact ⟨rfl, rfl⟩
  unfold Sched.link
  dsimp only
  rw [(hset _ _ _).1, (hset _ _ _).1, (hset _ _ _).2, (hset _ _ _).2]
  exact ⟨rfl, rfl⟩

theorem create (h : Listed s all names) {t : UInt32} (ht : t ∉ all) (kstack entry : UInt32) (name : List UInt8) :
    Listed ((s.fillIn t kstack name entry).link t) (t :: all) (names ++ [name]) := by
  obtain ⟨l, hring, rfl⟩ := h.ring
  -- `link` changes the links only, and `fillIn` only the record of the new task
  have hlink : ∀ p, (((s.fillIn t kstack name entry).link t).tasks p).id = ((s.fillIn t kstack name entry).tasks p).id ∧
      (((s.fillIn t kstack name entry).link t).tasks p).name = ((s.fillIn t kstack name entry).tasks p).name :=
    fun p => link_card ..
  have hold : ∀ p ∈ l ++ [s.head], (s.fillIn t kstack name entry).tasks p = s.tasks p := by
    intro p hp
    have hpt : p ≠ t := fun he => ht (he ▸ hp)
    exact Function.update_of_ne hpt ..
  refine ⟨⟨t :: l, ?_, rfl⟩, ?_, ?_, ?_⟩
  · have hnext : (s.fillIn t kstack name entry).next = s.next := by
      funext p
      unfold Sched.next
      by_cases hp : p = t
      · rw [hp]
        simp [Sched.fillIn]
      · exact congrArg Task.next (Function.update_of_ne hp ..)
    have hmem : t ∉ s.head :: l := by
      rw [List.mem_cons]
      rw [List.mem_append, List.mem_singleton] at ht
      tauto
    exact link_cycle (s := s.fillIn t kstack name entry) (hnext ▸ hring) hmem
  · rw [List.reverse_cons, List.map_append, List.length_append, List.length_singleton, List.range_succ,
      List.map_append, ← h.ids]
    congr 1
    · apply List.map_congr_left
      intro p hp
      rw [(hlink p).1, hold p (List.mem_reverse.mp hp)]
    · rw [List.map_singleton, List.map_singleton, (hlink t).1, ← h.nextId]
      simp [Sched.fillIn]
  · rw [List.reverse_cons, List.map_append, List.map_append, ← h.cards]
    congr 1
    · apply List.map_congr_left
      intro p hp
      rw [(hlink p).2, hold p (List.mem_reverse.mp hp)]
    · rw [List.map_singleton, List.map_singleton, (hlink t).2]
      simp [Sched.fillIn, cstr_copyName]
  · show s.nextId + 1 = UInt32.ofNat (names ++ [name]).length
    rw [h.nextId, List.length_append, List.length_singleton, UInt32.ofNat_add]
    rfl

end Listed

/-! ## Runs -/

/-- A run from `tasking_init` with the names of the tasks created in it, the first one first. -/
inductive Roster (m : Mem) (fn : Entries) : World → List (List UInt8) → Prop where
  | init {h h' : Kheap.State} {s s' : Sched} (hheap : Kheap.Reached m h) (hid : s.nextId = 0)
      (hrun : taskingInit h s = some (h', s')) : Roster m fn ⟨h', s', [s'.current], 0⟩ [ascii "kernel"]
  | create {w : World} {names : List (List UInt8)} (h : Roster m fn w names) (name : List UInt8) (entry : UInt32)
      {t : UInt32} {h' : Kheap.State} {s' : Sched} (hrun : taskCreate fn name entry w.heap w.sched = some (t, h', s'))
      (ht : t ≠ 0) : Roster m fn ⟨h', s', t :: w.all, w.exits⟩ (names ++ [name])
  | other {w w' : World} {names : List (List UInt8)} (h : Roster m fn w names) (hst : Step fn w w')
      (hall : w'.all = w.all) : Roster m fn w' names

variable {m : Mem} {fn : Entries} {w w' : World} {names : List (List UInt8)}

theorem Roster.reached (h : Roster m fn w names) : Reached m fn w := by
  induction h with
  | init hheap _ hrun => exact .init hheap hrun
  | create _ name entry hrun ht ih =>
    have hst := Step.create name entry hrun
    rw [if_neg ht] at hst
    exact ih.step hst
  | other _ hst _ ih => exact ih.step hst

theorem Roster.worldInv (h : Roster m fn w names) : WorldInv m w := worldInv_reached h.reached

theorem Listed.step (h : Listed w.sched w.all names) (hst : Step fn w w') (hall : w'.all = w.all) :
    Listed w'.sched w'.all names := by
  rw [hall]
  cases hst with
  | create name entry hrun =>
    obtain ⟨r, hcards, ⟨-, rfl⟩ | ⟨ht, -⟩⟩ := taskCreate_cards hrun
    · exact h.congr hcards
    · rw [if_neg ht] at hall
      exact absurd (congrArg List.length hall) (Nat.succ_ne_self _)
  | schedule hrun => exact h.congr (.schedule hrun)
  | exit _ hrun => exact h.congr (.taskExit hrun)
  | heap _ _ => exact h

theorem Roster.listed (h : Roster m fn w names) : Listed w.sched w.all names := by
  induction h with
  | init _ hid hrun => exact .init hid hrun
  | create hw name entry hrun ht ih =>
    obtain ⟨r, hcards, ⟨h0, -⟩ | ⟨-, kstack, rfl⟩⟩ := taskCreate_cards hrun
    · exact absurd h0 ht
    · exact (ih.congr hcards).create (hw.worldInv.create_fresh hrun ht) kstack entry name
  | other _ hst hall ih => exact ih.step hst hall

-- Every task but perhaps the first one has a block of the heap.
theorem WorldInv.length_le (h : WorldInv m w) : w.all.length ≤ Kheap.heapSize := by
  obtain ⟨bs, hinv⟩ := Kheap.inv_reached h.heap
  have hsub : w.all ⊆ 0 :: w.heap.live.map Prod.fst := by
    intro p hp
    rcases h.alloc p hp with rfl | ⟨e, he, rfl⟩
    · exact List.mem_cons_self
    · exact List.mem_cons_of_mem 0 (List.mem_map_of_mem he)
  have hle := (h.inv.nodup.subperm hsub).length_le
  have hlive := hinv.live.length_eq
  have howned := FirstFit.length_owned_le 12 Kheap.heapStart bs
  have hlt := hinv.rep.length_lt
  rw [List.length_cons, List.length_map] at hle
  rw [List.length_map] at hlive
  omega

/-- The line of `ps` for the task number `k`. -/
def psLine (k : Nat) (name : List UInt8) (st : TaskState) : List UInt8 :=
  ascii "  #" ++ numeral 10 k ++ ascii " " ++ cardName name ++ stateText st ++ ascii "\n"

/-- The state of the task number `k`. -/
def World.stateOf (w : World) (k : Nat) : TaskState := (w.sched.tasks (w.all.reverse.getD k 0)).state

section Lines

variable (h : Roster m fn w names)

include h

theorem Roster.length_lt : names.length < 2 ^ 31 := by
  have hle := h.worldInv.length_le
  have hS : Kheap.heapSize = 0x400000 := rfl
  rw [h.listed.length_eq] at hle
  omega

-- The tasks print their lines in the order of their numbers.
theorem Roster.lines : w.all.reverse.map (fun p => psPrint (w.sched.tasks p)) =
    (List.range names.length).map fun k => psLine k (names.getD k []) (w.stateOf k) := by
  have hl := h.listed
  have hlen := h.length_lt
  apply List.ext_getElem
  · rw [List.length_map, List.length_map, List.length_reverse, List.length_range, hl.length_eq]
  · intro k hk hk'
    rw [List.length_map] at hk
    have hkn : k < names.length := by
      rwa [List.length_reverse, hl.length_eq] at hk
    have hid : (w.sched.tasks w.all.reverse[k]).id = UInt32.ofNat k := by
      have hat := List.getElem_of_eq hl.ids (i := k) (by rwa [List.length_map])
      rwa [List.getElem_map, List.getElem_map, List.getElem_range] at hat
    have hname : cstr (w.sched.tasks w.all.reverse[k]).name = cardName names[k] := by
      have hat := List.getElem_of_eq hl.cards (i := k) (by rwa [List.length_map])
      rwa [List.getElem_map, List.getElem_map] at hat
    have hstate : w.stateOf k = (w.sched.tasks w.all.reverse[k]).state := by
      unfold World.stateOf
      rw [List.getD_eq_getElem _ _ hk]
    have hnum : itoa (UInt32.ofNat k).toInt32 = numeral 10 k := itoa_ofNat (by omega)
    rw [List.getElem_map, List.getElem_map, List.getElem_range, psPrint, psLine, hid, hname, hnum, hstate,
      List.getD_eq_getElem _ _ hkn]

theorem Roster.range_eq : List.range names.length = 0 :: List.range' 1 (names.length - 1) := by
  obtain ⟨l, -, hall⟩ := h.listed.ring
  have hlen := h.listed.length_eq
  rw [hall, List.length_append, List.length_singleton] at hlen
  rw [← hlen, List.range_eq_range', List.range'_succ]
  rfl

-- The first of them is the initial task, where `task_foreach` starts.
theorem Roster.foreach : ∃ ts, taskForeach w.sched = some ts ∧ ts.map (fun p => psPrint (w.sched.tasks p)) =
    (0 :: (List.range' 1 (names.length - 1)).reverse).map fun k => psLine k (names.getD k []) (w.stateOf k) := by
  obtain ⟨l, hring, hall⟩ := h.listed.ring
  have hlines := h.lines
  rw [hall, List.reverse_append, List.reverse_singleton, List.singleton_append, h.range_eq, List.map_cons,
    List.map_cons] at hlines
  obtain ⟨hfirst, hrest⟩ := List.cons.inj hlines
  refine ⟨w.sched.head :: l, taskForeach_eq hring, ?_⟩
  rw [List.map_cons, List.map_cons, hfirst, List.map_reverse, ← hrest, List.map_reverse, List.reverse_reverse]

theorem Roster.running : ∃ cur < names.length, (w.sched.tasks w.sched.current).id = UInt32.ofNat cur ∧
    ∀ k < names.length, w.stateOf k = .running ↔ k = cur := by
  have hl := h.listed
  have hinv := h.worldInv.inv
  have hlen : w.all.reverse.length = names.length := by rw [List.length_reverse, hl.length_eq]
  obtain ⟨cur, hcur, hat⟩ := List.getElem_of_mem (List.mem_reverse.mpr hinv.mem)
  have hid := List.getElem_of_eq hl.ids (i := cur) (by rwa [List.length_map])
  rw [List.getElem_map, List.getElem_map, List.getElem_range, hat] at hid
  refine ⟨cur, hlen ▸ hcur, hid, ?_⟩
  intro k hk
  rw [← hlen] at hk
  have hmem := List.mem_reverse.mp (List.getElem_mem hk)
  unfold World.stateOf
  rw [List.getD_eq_getElem _ _ hk, hinv.running _ hmem, ← hat]
  exact (List.nodup_reverse.mpr hinv.nodup).getElem_inj_iff

theorem Roster.dead : (List.range names.length).countP (fun k => w.stateOf k = .dead) = w.exits := by
  have hlen : w.all.reverse.length = names.length := by rw [List.length_reverse, h.listed.length_eq]
  have hall : (List.range names.length).map (fun k => w.all.reverse.getD k 0) = w.all.reverse := by
    apply List.ext_getElem
    · rw [List.length_map, List.length_range, hlen]
    · intro k hk hk'
      rw [List.getElem_map, List.getElem_range, List.getD_eq_getElem _ _ hk']
  calc (List.range names.length).countP (fun k => w.stateOf k = .dead)
      = ((List.range names.length).map fun k => w.all.reverse.getD k 0).countP w.sched.isDead := by
        rw [List.countP_map]
        rfl
    _ = w.exits := by rw [hall, List.countP_reverse, h.worldInv.inv.dead]

/-- `spawn` tells the number of the new task. -/
theorem Roster.spawn (shellWorker : UInt32) :
    ∃ text h' s', spawn fn shellWorker w.heap w.sched = some (text, h', s') ∧
      (text = ascii "spawn: failed\n" ∧ Roster m fn ⟨h', s', w.all, w.exits⟩ names ∨
        text = ascii "spawned task #" ++ numeral 10 names.length ++ ascii "\n" ∧
          ∃ t, Roster m fn ⟨h', s', t :: w.all, w.exits⟩ (names ++ [ascii "worker"])) := by
  have hw := h.worldInv
  obtain ⟨t, h', s', hrun, -⟩ := taskCreate_spec (s := w.sched) fn (ascii "worker") shellWorker hw.heap hw.alloc
  unfold Tasking.spawn
  rw [hrun, Option.bind_eq_bind, Option.bind_some]
  dsimp only
  by_cases ht : t = 0
  · rw [if_neg (not_not.mpr ht)]
    refine ⟨_, h', s', rfl, Or.inl ⟨rfl, ?_⟩⟩
    have hst := Step.create (w := w) (ascii "worker") shellWorker hrun
    rw [if_pos ht] at hst
    exact h.other hst rfl
  · rw [if_pos ht]
    refine ⟨_, h', s', rfl, Or.inr ⟨?_, t, h.create _ _ hrun ht⟩⟩
    have hids := (h.create _ _ hrun ht).listed.ids
    dsimp only at hids
    rw [List.reverse_cons, List.map_append, List.length_append, List.length_singleton, List.range_succ,
      List.map_append] at hids
    obtain ⟨-, hlast⟩ := List.append_inj' hids rfl
    have hid : (s'.tasks t).id = UInt32.ofNat names.length := List.singleton_inj.mp hlast
    have hnum : itoa (UInt32.ofNat names.length).toInt32 = numeral 10 names.length := itoa_ofNat h.length_lt
    rw [hid, hnum]

end Lines

/-- In every state of every run `ps` lists each task once, the initial one first and then from the latest to the
oldest, with its number, its name and its state; one is running, and as many are dead as have ended.  The number
that `spawn` prints is the one under which `ps` lists the new task. -/
theorem ps_lists (h : Roster m fn w names) (workerTicks shellWorker : UInt32) :
    (∃ st : Nat → TaskState, (∃ cur < names.length, (w.sched.tasks w.sched.current).id = UInt32.ofNat cur ∧
        ∀ k < names.length, st k = .running ↔ k = cur) ∧
      (List.range names.length).countP (fun k => st k = .dead) = w.exits ∧
      cmdPs workerTicks w.sched = some (ascii "tasks (" ++ numeral 10 (names.length - w.exits) ++ ascii "):\n" ++
        (0 :: (List.range' 1 (names.length - 1)).reverse).flatMap (fun k => psLine k (names.getD k []) (st k)) ++
        ascii "background work counter: " ++ itoa workerTicks.toInt32 ++ ascii "\n")) ∧
    ∃ text h' s', spawn fn shellWorker w.heap w.sched = some (text, h', s') ∧
      (text = ascii "spawn: failed\n" ∧ Roster m fn ⟨h', s', w.all, w.exits⟩ names ∨
        text = ascii "spawned task #" ++ numeral 10 names.length ++ ascii "\n" ∧
          ∃ t, Roster m fn ⟨h', s', t :: w.all, w.exits⟩ (names ++ [ascii "worker"])) := by
  refine ⟨⟨w.stateOf, h.running, h.dead, ?_⟩, h.spawn shellWorker⟩
  obtain ⟨ts, hts, hlines⟩ := h.foreach
  have hcount := h.worldInv.inv.taskCount.2
  rw [h.listed.length_eq] at hcount
  have hlt := h.length_lt
  have hnum : itoa (Int32.ofNat (names.length - w.exits)) = numeral 10 (names.length - w.exits) := itoa_ofNat (by omega)
  unfold cmdPs
  rw [hcount, hts, Option.bind_eq_bind, Option.bind_some, Option.bind_eq_bind, Option.bind_some, hnum, List.flatMap_def,
    hlines, ← List.flatMap_def]
  rfl

-- After two calls of `task_create`: the latest comes right after the initial task.
theorem ps_lists_workers : ∃ h s t h₁ s₁ u h₂ s₂,
    taskingInit ⟨Kheap.kheapInit fun _ => 0, []⟩ noTasks = some (h, s) ∧
    taskCreate ⟨0x1000, 0x2000⟩ (ascii "worker") 0x5000 h s = some (t, h₁, s₁) ∧ t ≠ 0 ∧
    taskCreate ⟨0x1000, 0x2000⟩ (ascii "clock") 0x6000 h₁ s₁ = some (u, h₂, s₂) ∧ u ≠ 0 ∧
    cmdPs 7 s₂ = some (ascii
      "tasks (3):\n  #0 kernel (running)\n  #2 clock (ready)\n  #1 worker (ready)\nbackground work counter: 7\n") := by
  obtain ⟨h, s, t, h₁, s₁, u, h₂, s₂, hinit, hrun₁, ht, hrun₂, hu, hreach, hcur, -⟩ :=
    workers_created (m := fun _ => 0) ⟨0x1000, 0x2000⟩
  have hroster : Roster (fun _ => 0) ⟨0x1000, 0x2000⟩ ⟨h₂, s₂, [u, t, s.current], 0⟩
      [ascii "kernel", ascii "worker", ascii "clock"] :=
    ((Roster.init .init rfl hinit).create (ascii "worker") 0x5000 hrun₁ ht).create (ascii "clock") 0x6000 hrun₂ hu
  obtain ⟨⟨st, ⟨cur, hlt, hid, hrunning⟩, hdead, hps⟩, -⟩ := ps_lists hroster 7 0x3000
  -- the initial task is number 0, and it is the current one
  have hzero : cur = 0 := by
    have hfirst := (List.cons.inj hroster.listed.ids).1
    have hids : UInt32.ofNat cur = UInt32.ofNat 0 := by
      rw [← hid, ← hfirst]
      exact congrArg (fun p => (s₂.tasks p).id) hcur
    change cur < 3 at hlt
    have hnat := congrArg UInt32.toNat hids
    rw [Kheap.toNat_ofNat (by omega), Kheap.toNat_ofNat (by omega)] at hnat
    exact hnat
  subst hzero
  have hready : ∀ k, k < 3 → k ≠ 0 → st k = .ready := by
    intro k hk hne
    have hnot := mt (hrunning k hk).mp hne
    have halive := List.countP_eq_zero.mp hdead k (List.mem_range.mpr hk)
    cases hst : st k with
    | running => exact absurd hst hnot
    | ready => rfl
    | dead => exact absurd (decide_eq_true hst) halive
  refine ⟨h, s, t, h₁, s₁, u, h₂, s₂, hinit, hrun₁, ht, hrun₂, hu, hps.trans ?_⟩
  rw [show (List.range' 1 ([ascii "kernel", ascii "worker", ascii "clock"].length - 1)).reverse = [2, 1] from rfl,
    List.flatMap_cons, List.flatMap_cons, List.flatMap_singleton, (hrunning 0 hlt).mpr rfl,
    hready 2 (by decide) (by decide), hready 1 (by decide) (by decide)]
  dsimp only
  decide

end JacobOS.Tasking
