import JacobOS.Mem.Callers
import JacobOS.Mem.HeapUndo
import JacobOS.Numerals

/-!
# The command `stress`

`cmd_stress` of `kernel/shell.c` allocates 128 blocks, as far as there are any, and gives all of them back, the oldest
first.  The heap is left as it was found.
-/

namespace JacobOS.Kheap

open CString FirstFit Numerals

/-- The first loop: what `n` calls of `kmalloc(512)` return. -/
def stressAlloc : Nat → State → Option (List UInt32 × State)
  | 0, s => some ([], s)
  | n + 1, s => do
      let (p, s) ← s.kmalloc 512
      let (ps, s) ← stressAlloc n s
      return (p :: ps, s)

/-- The second loop: null pointers are freed as well. -/
def stressFree : List UInt32 → State → Option State
  | [], s => some s
  | p :: ps, s => do
      let s ← s.kfree p
      stressFree ps s

def cmdStress (s : State) : Option (List UInt8 × State) := do
  let (ps, s) ← stressAlloc 128 s
  let s ← stressFree ps s
  let used ← kheapUsed s.heap
  return (ascii "allocating 128 blocks... " ++ itoa (Int32.ofNat (ps.countP (· ≠ 0))) ++ ascii " ok, freeing... " ++
    ascii "heap used now " ++ itoa used.toInt32 ++ ascii "B\n", s)

variable {m : Mem} {s t : State}

/-! ## The loops -/

theorem Reached.kfree_null (h : Reached m s) : s.kfree 0 = some s := by
  have hnone : ∀ e ∈ s.live, ¬ decide (e.1 = 0) = true := by
    intro e he
    rw [decide_eq_true_iff]
    exact h.live_ne_zero he
  have hrun : Kheap.kfree 0 s.heap = some s.heap := rfl
  rw [State.kfree, hrun, Option.map_some, List.eraseP_of_forall_not hnone]

-- A live pointer is given back, and the payloads of the others stay.
theorem Reached.kfree_other (h : Reached m s) {e : UInt32 × Nat} (he : e ∈ s.live) :
    ∃ t, s.kfree e.1 = some t ∧ Reached m t ∧ t.live = s.live.erase e ∧ Kept (s.live.erase e) s t := by
  obtain ⟨t, hrun, ht, hlive⟩ := h.kfree_mem he
  refine ⟨t, hrun, ht, hlive, ?_⟩
  obtain ⟨bs, hinv⟩ := inv_reached h
  obtain ⟨h', hrun', hkeep, -⟩ := hinv.kfree_returns he
  rw [State.kfree, hrun', Option.map_some, Option.some.injEq] at hrun
  subst hrun
  exact hkeep

theorem Kept.mono {l l' : List (UInt32 × Nat)} (h : Kept l s t) (hl : l' ⊆ l) : Kept l' s t :=
  fun e he => h e (hl he)

theorem Reached.stressAlloc (h : Reached m s) (n : Nat) :
    ∃ ps t es, stressAlloc n s = some (ps, t) ∧ Reached m t ∧ t.live.Perm (es ++ s.live) ∧
      es.map Prod.fst = ps.filter (· ≠ 0) ∧ ps.length = n ∧ Kept s.live s t := by
  induction n generalizing s with
  | zero => exact ⟨[], s, [], rfl, h, .refl _, rfl, rfl, fun _ _ _ _ => rfl⟩
  | succ n ih =>
    obtain ⟨p, t, hrun, ht, hlive⟩ := h.kmalloc 512
    have hkept := h.kmalloc_kept hrun
    obtain ⟨ps, u, es, hrest, hu, hperm, hps, hlen, hkept'⟩ := ih ht
    have hall : Kheap.stressAlloc (n + 1) s = some (p :: ps, u) := by
      rw [Kheap.stressAlloc, hrun, Option.bind_eq_bind, Option.bind_some]
      dsimp only
      rw [hrest]
      rfl
    rcases hlive with ⟨rfl, hlive⟩ | ⟨hp, -, k, -, hlive⟩
    · rw [hlive] at hperm hkept'
      exact ⟨0 :: ps, u, es, hall, hu, hperm, hps, congrArg (· + 1) hlen, hkept.trans hkept'⟩
    · rw [hlive] at hperm hkept'
      refine ⟨p :: ps, u, (p, k) :: es, hall, hu, hperm.trans List.perm_middle, ?_, congrArg (· + 1) hlen,
        hkept.trans (hkept'.mono (List.subset_cons_self _ _))⟩
      rw [List.map_cons, hps, List.filter_cons_of_pos (by simpa using hp)]

theorem Reached.stressFree (h : Reached m t) {es l : List (UInt32 × Nat)} (hlive : t.live.Perm (es ++ l))
    {ps : List UInt32} (hps : es.map Prod.fst = ps.filter (· ≠ 0)) :
    ∃ u, stressFree ps t = some u ∧ Reached m u ∧ u.live.Perm l ∧ Kept l t u := by
  induction ps generalizing t es with
  | nil =>
    obtain rfl := List.map_eq_nil_iff.mp hps
    exact ⟨t, rfl, h, hlive, fun _ _ _ _ => rfl⟩
  | cons p ps ih =>
    by_cases hp : p = 0
    · rw [hp, List.filter_cons_of_neg (by simp)] at hps
      obtain ⟨u, hrest, hu, hlive', hkept⟩ := ih h hlive hps
      refine ⟨u, ?_, hu, hlive', hkept⟩
      rw [Kheap.stressFree, hp, h.kfree_null]
      exact hrest
    · rw [List.filter_cons_of_pos (by simpa using hp)] at hps
      obtain ⟨e, es', rfl, rfl, hes'⟩ := List.map_eq_cons_iff.mp hps
      have he : e ∈ t.live := hlive.mem_iff.mpr List.mem_cons_self
      obtain ⟨t', hrun, ht', hlive1, hkept1⟩ := h.kfree_other he
      have hperm : (t.live.erase e).Perm (es' ++ l) := by
        have herase := hlive.erase e
        rwa [List.cons_append, List.erase_cons_head] at herase
      obtain ⟨u, hrest, hu, hlive', hkept⟩ := ih ht' (hlive1 ▸ hperm) hes'
      refine ⟨u, ?_, hu, hlive', (hkept1.mono fun x hx => ?_).trans hkept⟩
      · rw [Kheap.stressFree, hrun]
        exact hrest
      · exact hperm.mem_iff.mpr (List.mem_append_right _ hx)

theorem Inv.kheapUsed_eq {bs : List Blk} (h : Inv s bs) : kheapUsed s.heap = some (UInt32.ofNat (sumSizes false bs)) := by
  have hloop := sumLoop_spec false bs (by decide) h.rep.seg h.rep.end_eq heapSize h.rep.length_lt 0
  rw [link_of_lt (by decide), ← h.head, Nat.zero_add] at hloop
  exact hloop

/-- Whatever the heap looks like, `stress` returns, prints how many bytes are in use before and after it, and leaves
the list of blocks and the contents of every block in use as they were. -/
theorem stress_restores (h : Reached m s) :
    ∃ ok used t, ok ≤ 128 ∧ kheapUsed s.heap = some used ∧ cmdStress s =
        some (ascii "allocating 128 blocks... " ++ itoa (Int32.ofNat ok) ++ ascii " ok, freeing... " ++
          ascii "heap used now " ++ itoa used.toInt32 ++ ascii "B\n", t) ∧
      Reached m t ∧ SameBlocks s.heap t.heap ∧ Kept s.live s t := by
  obtain ⟨ps, t, es, halloc, ht, hlive, hps, hlen, hkept⟩ := h.stressAlloc 128
  obtain ⟨u, hfree, hu, hlive', hkept'⟩ := ht.stressFree hlive hps
  obtain ⟨bs, hinv⟩ := inv_reached h
  obtain ⟨cs, hinv'⟩ := inv_reached hu
  obtain rfl := hinv.blocks_eq hinv' hlive'.symm
  refine ⟨ps.countP (· ≠ 0), _, u, hlen ▸ List.countP_le_length, hinv.kheapUsed_eq, ?_, hu, hinv.sameBlocks hinv',
    hkept.trans hkept'⟩
  unfold cmdStress
  rw [halloc, Option.bind_eq_bind, Option.bind_some]
  dsimp only
  rw [hfree, Option.bind_eq_bind, Option.bind_some, hinv'.kheapUsed_eq]
  rfl

-- On a fresh heap, which has nothing in use.
theorem stress_restores_init :
    ∃ ok t, cmdStress ⟨kheapInit fun _ => 0, []⟩ =
        some (ascii "allocating 128 blocks... " ++ itoa (Int32.ofNat ok) ++ ascii " ok, freeing... " ++
          ascii "heap used now " ++ itoa 0 ++ ascii "B\n", t) ∧
      SameBlocks (kheapInit fun _ => 0) t.heap := by
  obtain ⟨ok, used, t, -, hused, hrun, -, hsame, -⟩ := stress_restores (Reached.init (m := fun _ => 0))
  have hzero := (inv_init fun _ => 0).kheapUsed_eq
  obtain rfl : used = 0 := Option.some.inj (hused.symm.trans hzero)
  exact ⟨ok, t, hrun, hsame⟩

end JacobOS.Kheap
