import JacobOS.CString
import JacobOS.Cpu.Stack
import JacobOS.Lib.Ring
import JacobOS.Mem.Callers
import Mathlib.Data.List.Find
import Mathlib.Data.List.Perm.Subperm

/-!
# The tasks of `kernel/task.c`

The tasks form a ring that is entered at `head`, the initial kernel task.  New tasks are linked in
after `head`; a task that has ended stays in the ring and is passed over by `schedule`.

A record is kept by its address.  Its first word, `esp`, is written by `context_switch` and is in the
memory, at the address of the record.
-/

namespace JacobOS.Tasking

open CString Ring

def stackSize : UInt32 := 16384
def kstackSize : UInt32 := 8192
def taskNameMax : Nat := 32

/-- `sizeof(task_t)`. -/
def taskSize : UInt32 := 64

inductive TaskState where
  | running
  | ready
  | dead
deriving DecidableEq

/-- `task_t` less `esp`. -/
structure Task where
  stackBase : UInt32
  kstackBase : UInt32
  kstackTop : UInt32
  id : UInt32
  name : List UInt8
  state : TaskState
  entry : UInt32
  next : UInt32

/-- The static variables of `task.c`, the records, and `tss.esp0`. -/
structure Sched where
  tasks : UInt32 → Task
  current : UInt32
  head : UInt32
  nextId : UInt32
  schedulingOn : Bool
  esp0 : UInt32

/-- The addresses of the two functions on a new task's stack. -/
structure Entries where
  taskExit : UInt32
  taskBootstrap : UInt32

/-- Fields of the record at `p` are assigned. -/
def Sched.modify (s : Sched) (p : UInt32) (f : Task → Task) : Sched :=
  { s with tasks := Function.update s.tasks p (f (s.tasks p)) }

def Sched.setState (s : Sched) (p : UInt32) (st : TaskState) : Sched :=
  s.modify p fun t => { t with state := st }

def Sched.setNext (s : Sched) (p q : UInt32) : Sched := s.modify p fun t => { t with next := q }

def Sched.next (s : Sched) (p : UInt32) : UInt32 := (s.tasks p).next

def Sched.isDead (s : Sched) (p : UInt32) : Bool := (s.tasks p).state = .dead

def kstackTopOf (base : UInt32) : UInt32 := if base ≠ 0 then (base + kstackSize) &&& ~~~15 else 0

/-- `name` copied into the field, with its last byte zero. -/
def copyName (field name : List UInt8) : List UInt8 :=
  (strncpy field name (taskNameMax - 1)).set (taskNameMax - 1) 0

def taskingInit (h : Kheap.State) (s : Sched) : Option (Kheap.State × Sched) := do
  let (p, h) ← h.kmalloc taskSize
  let (kstack, h) ← h.kmalloc kstackSize
  let s := s.modify p fun t =>
    { stackBase := 0
      kstackBase := kstack
      kstackTop := kstackTopOf kstack
      id := s.nextId
      name := copyName t.name (ascii "kernel")
      state := .running
      entry := 0
      next := p }
  return (h, { s with
    current := p, head := p, nextId := s.nextId + 1, schedulingOn := true, esp0 := kstackTopOf kstack })

/-- The fields of a new task. -/
def Sched.fillIn (s : Sched) (t kstack : UInt32) (name : List UInt8) (entry : UInt32) : Sched :=
  let r := s.modify t fun r =>
    { r with
      kstackTop := kstackTopOf kstack
      id := s.nextId
      name := copyName r.name name
      state := .ready
      entry := entry }
  { r with nextId := s.nextId + 1 }

/-- The new task goes right after `head`. -/
def Sched.link (s : Sched) (t : UInt32) : Sched :=
  let s := s.setNext t (s.next s.head)
  s.setNext s.head t

/-- The stack that `context_switch` returns into, and `t->esp`. -/
def initStack (fn : Entries) (t stack : UInt32) (m : Mem) : Mem :=
  let r := m.pushWords (stack + stackSize) [fn.taskExit, fn.taskBootstrap, 0, 0, 0, 0]
  r.1.setWord t r.2

/-- `task_create`: the new task, 0 when one of the three allocations fails. -/
def taskCreate (fn : Entries) (name : List UInt8) (entry : UInt32) (h : Kheap.State) (s : Sched) :
    Option (UInt32 × Kheap.State × Sched) := do
  let (t, h) ← h.kmalloc taskSize
  if t = 0 then return (0, h, s)
  let (stack, h) ← h.kmalloc stackSize
  let s := s.modify t fun r => { r with stackBase := stack }
  if stack = 0 then
    let h ← h.kfree t
    return (0, h, s)
  let (kstack, h) ← h.kmalloc kstackSize
  let s := s.modify t fun r => { r with kstackBase := kstack }
  if kstack = 0 then
    let h ← h.kfree stack
    let h ← h.kfree t
    return (0, h, s)
  let s := s.fillIn t kstack name entry
  let h := { h with heap := { h.heap with mem := initStack fn t stack h.heap.mem } }
  return (t, h, s.link t)

/-- More passes than a ring of distinct addresses takes. -/
def passes : Nat := 2 ^ 32

/-- `schedule` from the choice of `next` up to the call of `context_switch`. -/
def Sched.switchTo (s : Sched) (next : UInt32) : Sched :=
  let prev := s.current
  let s := if (s.tasks prev).state = .running then s.setState prev .ready else s
  let s := s.setState next .running
  { s with current := next, esp0 := (s.tasks next).kstackTop }

/-- `schedule`, with the records `prev` and `next` of its call
`context_switch(&prev->esp, next->esp)` if it makes it. -/
def schedule (s : Sched) : Option (Sched × Option (UInt32 × UInt32)) :=
  if s.schedulingOn = false then some (s, none)
  else do
    let next ← whileLoop (fun p => s.isDead p && p != s.current) s.next passes (s.next s.current)
    if next = s.current then return (s, none)
    return (s.switchTo next, some (s.current, next))

/-- `task_exit` up to the call of `context_switch`; after a `schedule` that makes no such call the
task would halt. -/
def taskExit (s : Sched) : Option (Sched × Option (UInt32 × UInt32)) :=
  schedule { s.setState s.current .dead with schedulingOn := true }

def taskCount (s : Sched) : Option Nat :=
  (doWhile (fun (_, t) => t != s.head)
    (fun (n, t) => (if s.isDead t then n else n + 1, s.next t)) passes (0, s.head)).map Prod.fst

/-- The tasks on which `task_foreach` calls back, in order. -/
def taskForeach (s : Sched) : Option (List UInt32) :=
  (doWhile (fun (_, t) => t != s.head) (fun (ts, t) => (ts ++ [t], s.next t)) passes ([], s.head)).map
    Prod.fst

/-! ## What the operations change -/

namespace Sched

variable (s : Sched)

@[simp] theorem modify_same (p : UInt32) (f : Task → Task) : (s.modify p f).tasks p = f (s.tasks p) :=
  Function.update_self ..

theorem modify_other {p q : UInt32} (f : Task → Task) (h : q ≠ p) : (s.modify p f).tasks q = s.tasks q :=
  Function.update_of_ne h ..

theorem fillIn_state (t kstack : UInt32) (name : List UInt8) (entry : UInt32) :
    ((s.fillIn t kstack name entry).tasks t).state = .ready := by
  unfold fillIn
  dsimp only
  rw [modify_same]

@[simp] theorem setState_state (p q : UInt32) (st : TaskState) :
    ((s.setState p st).tasks q).state = if q = p then st else (s.tasks q).state := by
  unfold setState
  by_cases hq : q = p
  · rw [hq, if_pos rfl, modify_same]
  · rw [if_neg hq, modify_other s _ hq]

@[simp] theorem setState_next (p : UInt32) (st : TaskState) : (s.setState p st).next = s.next := by
  funext q
  unfold setState next
  by_cases hq : q = p
  · rw [hq, modify_same]
  · rw [modify_other s _ hq]

@[simp] theorem setState_kstackTop (p q : UInt32) (st : TaskState) :
    ((s.setState p st).tasks q).kstackTop = (s.tasks q).kstackTop := by
  unfold setState
  by_cases hq : q = p
  · rw [hq, modify_same]
  · rw [modify_other s _ hq]

theorem setNext_next (p q n : UInt32) : (s.setNext p n).next q = if q = p then n else s.next q := by
  unfold setNext next
  by_cases hq : q = p
  · rw [hq, if_pos rfl, modify_same]
  · rw [if_neg hq, modify_other s _ hq]

@[simp] theorem setNext_state (p q n : UInt32) :
    ((s.setNext p n).tasks q).state = (s.tasks q).state := by
  unfold setNext
  by_cases hq : q = p
  · rw [hq, modify_same]
  · rw [modify_other s _ hq]

@[simp] theorem setNext_kstackTop (p q n : UInt32) :
    ((s.setNext p n).tasks q).kstackTop = (s.tasks q).kstackTop := by
  unfold setNext
  by_cases hq : q = p
  · rw [hq, modify_same]
  · rw [modify_other s _ hq]

/-- The state of `prev` after it has been switched away from. -/
def parkedState : TaskState → TaskState
  | .running => .ready
  | st => st

theorem switchTo_state (n q : UInt32) : ((s.switchTo n).tasks q).state =
    if q = n then .running else if q = s.current then parkedState (s.tasks q).state
    else (s.tasks q).state := by
  unfold switchTo
  dsimp only
  rw [setState_state]
  by_cases hq : q = n
  · rw [if_pos hq, if_pos hq]
  · rw [if_neg hq, if_neg hq]
    by_cases hr : (s.tasks s.current).state = .running
    · rw [if_pos hr, setState_state]
      by_cases hc : q = s.current
      · rw [if_pos hc, if_pos hc, hc, hr]
        rfl
      · rw [if_neg hc, if_neg hc]
    · rw [if_neg hr]
      by_cases hc : q = s.current
      · rw [if_pos hc, hc]
        cases hst : (s.tasks s.current).state with
        | running => exact absurd hst hr
        | ready => rfl
        | dead => rfl
      · rw [if_neg hc]

@[simp] theorem switchTo_next (n : UInt32) : (s.switchTo n).next = s.next := by
  show ((if (s.tasks s.current).state = .running then s.setState s.current .ready else s).setState n
    .running).next = s.next
  rw [setState_next]
  split
  · exact s.setState_next ..
  · rfl

@[simp] theorem switchTo_kstackTop (n q : UInt32) :
    ((s.switchTo n).tasks q).kstackTop = (s.tasks q).kstackTop := by
  show (((if (s.tasks s.current).state = .running then s.setState s.current .ready else s).setState n
    .running).tasks q).kstackTop = (s.tasks q).kstackTop
  rw [setState_kstackTop]
  split
  · exact s.setState_kstackTop ..
  · rfl

theorem switchTo_esp0 (n : UInt32) : (s.switchTo n).esp0 = (s.tasks n).kstackTop := s.switchTo_kstackTop n n

@[simp] theorem switchTo_current (n : UInt32) : (s.switchTo n).current = n := rfl

theorem switchTo_head (n : UInt32) : (s.switchTo n).head = s.head := by
  unfold switchTo
  dsimp only
  split <;> rfl

theorem switchTo_on (n : UInt32) : (s.switchTo n).schedulingOn = s.schedulingOn := by
  unfold switchTo
  dsimp only
  split <;> rfl

end Sched

/-! ## The loops -/

-- Distinct addresses.
theorem length_le_passes {l : List UInt32} (h : l.Nodup) : l.length ≤ passes := by
  have hmap : (l.map UInt32.toNat).Nodup := h.map fun _ _ => UInt32.toNat_inj.mp
  have hsub : l.map UInt32.toNat ⊆ List.range passes := by
    intro x hx
    obtain ⟨w, -, rfl⟩ := List.mem_map.mp hx
    exact List.mem_range.mpr w.toNat_lt
  have hle := (hmap.subperm hsub).length_le
  rwa [List.length_map, List.length_range] at hle

/-- The first task of the ring after `current` that is not dead is switched to. -/
theorem schedule_eq {s : Sched} {l : List UInt32} (hon : s.schedulingOn = true)
    (hring : Cycle s.next s.current l) :
    schedule s = match l.find? fun p => !s.isDead p with
      | none => some (s, none)
      | some next => some (s.switchTo next, some (s.current, next)) := by
  have hlen := length_le_passes hring.nodup
  rw [List.length_cons] at hlen
  have hloop := hring.whileLoop_eq (fun p => s.isDead p && p != s.current) (n := passes) (by omega) (by simp)
  -- on the other tasks the test of the loop is the one for `TASK_DEAD`
  have hne : ∀ p ∈ l, p ≠ s.current := fun p hp he => (List.nodup_cons.mp hring.nodup).1 (he ▸ hp)
  have htest : l.find? (fun p => !(s.isDead p && p != s.current)) = l.find? fun p => !s.isDead p := by
    apply List.find?_congr
    intro p hp
    rw [bne_iff_ne.mpr (hne p hp), Bool.and_true]
  rw [List.find?_append, htest] at hloop
  unfold schedule
  rw [hon, if_neg (by decide), hloop]
  cases hf : l.find? fun p => !s.isDead p with
  | none => simp
  | some next =>
    have hmem := List.mem_of_find?_eq_some hf
    simp [hne next hmem]

theorem taskCount_eq {s : Sched} {l : List UInt32} (hring : Cycle s.next s.head l) :
    taskCount s = some ((s.head :: l).countP fun p => !s.isDead p) := by
  have hlen := length_le_passes hring.nodup
  rw [List.length_cons] at hlen
  have hcount : ∀ (l : List UInt32) (n : Nat),
      l.foldl (fun n t => if s.isDead t then n else n + 1) n = n + l.countP fun p => !s.isDead p := by
    intro l
    induction l with
    | nil => intro n; rfl
    | cons t l ih =>
      intro n
      rw [List.foldl_cons, ih, List.countP_cons]
      cases s.isDead t with
      | false => simp only [Bool.false_eq_true, if_false, Bool.not_false, if_true]; omega
      | true => simp
  unfold taskCount
  have hloop := hring.doWhile_eq (fun n t => if s.isDead t then n else n + 1) (n := passes) 0 (by omega)
  rw [hcount, Nat.zero_add] at hloop
  rw [hloop]
  rfl

/-- `task_foreach` visits every task of the ring once. -/
theorem taskForeach_eq {s : Sched} {l : List UInt32} (hring : Cycle s.next s.head l) :
    taskForeach s = some (s.head :: l) := by
  have hlen := length_le_passes hring.nodup
  rw [List.length_cons] at hlen
  have hloop := hring.doWhile_eq (fun ts t => ts ++ [t]) (n := passes) [] (by omega)
  unfold taskForeach
  rw [hloop]
  simp [← List.flatMap_def]

end JacobOS.Tasking
