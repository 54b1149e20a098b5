import JacobOS.Mem.HeapRuns

/-!
# The heap as its callers see it

The kernel's own allocations: a block comes from `kmalloc`, is written by the code that asked for it
and may be given back.  Each of these is a step of a run of the heap.
-/

namespace JacobOS.Kheap

open FirstFit

namespace State

/-- `kmalloc`, with the new pointer added to the live ones. -/
def kmalloc (n : UInt32) (s : State) : Option (UInt32 × State) :=
  (Kheap.kmalloc n s.heap).map fun (p, h) =>
    (p, ⟨h, if p = 0 then s.live else (p, (h.mem.word (p - 12)).toNat) :: s.live⟩)

/-- `kfree`, with the pointer taken from the live ones. -/
def kfree (p : UInt32) (s : State) : Option State :=
  (Kheap.kfree p s.heap).map fun h => ⟨h, s.live.eraseP fun e => e.1 = p⟩

/-- A word stored through a pointer. -/
def setWord (a w : UInt32) (s : State) : State :=
  ⟨{ s.heap with mem := s.heap.mem.setWord a w }, s.live⟩

end State

variable {m : Mem} {s : State}

-- The block is at least as large as the caller asked for.
theorem kmalloc_size (h : Reached m s) {n p : UInt32} {h' : Heap} (hrun : kmalloc n s.heap = some (p, h'))
    (hp : p ≠ 0) : (align8 n).toNat ≤ (h'.mem.word (p - 12)).toNat := by
  obtain ⟨bs, hinv⟩ := inv_reached h
  rcases kmalloc_spec hinv.rep hinv.head n with hnull | ⟨pre, b, post, m', rfl, hb, hr, hsome, heff⟩
  · rw [hnull] at hrun
    obtain ⟨rfl, -⟩ : 0 = p ∧ s.heap = h' := by simpa using hrun
    exact absurd rfl hp
  · rw [hsome] at hrun
    rw [Option.some.injEq, Prod.mk.injEq] at hrun
    obtain ⟨rfl, rfl⟩ := hrun
    have hE : heapEnd = 0x800000 := rfl
    have hend := hinv.rep.end_eq
    rw [total_append, total] at hend
    have hcut : cutSize 12 8 (align8 n).toNat b ≤ b.size ∧
        (align8 n).toNat ≤ cutSize 12 8 (align8 n).toNat b := by
      unfold cutSize
      split
      · exact ⟨hr, Nat.le_refl _⟩
      · exact ⟨Nat.le_refl _, hr⟩
    rw [← ofNat_add12, UInt32.add_sub_cancel]
    dsimp only
    rw [heff.hdr, toNat_ofNat (by omega)]
    exact hcut.2

/-- A call returns null, or a new pointer with room for what was asked. -/
theorem Reached.kmalloc (h : Reached m s) (n : UInt32) :
    ∃ p t, s.kmalloc n = some (p, t) ∧ Reached m t ∧
      ((p = 0 ∧ t.live = s.live) ∨
        (p ≠ 0 ∧ (∀ e ∈ s.live, e.1 ≠ p) ∧ ∃ k, (align8 n).toNat ≤ k ∧ t.live = (p, k) :: s.live)) := by
  obtain ⟨bs, hinv⟩ := inv_reached h
  obtain ⟨p, h', hrun, -, -⟩ := hinv.kmalloc_returns n
  have hstep := h.step (.kmalloc n hrun)
  refine ⟨p, _, by rw [State.kmalloc, hrun]; rfl, hstep, ?_⟩
  by_cases hp : p = 0
  · exact Or.inl ⟨hp, by rw [if_pos hp]⟩
  · rw [if_neg hp] at hstep ⊢
    refine Or.inr ⟨hp, ?_, _, kmalloc_size h hrun hp, rfl⟩
    obtain ⟨bs', hinv'⟩ := inv_reached hstep
    have hapart := (List.pairwise_cons.mp hinv'.live_apart).1
    rintro e he rfl
    have hd := hapart e he
    dsimp only at hd
    omega

-- No two live pointers have the same address.
theorem Reached.live_addresses (h : Reached m s) : s.live.Pairwise fun e e' => e.1 ≠ e'.1 := by
  obtain ⟨bs, hinv⟩ := inv_reached h
  apply hinv.live_apart.imp
  intro e e' hd heq
  rw [heq] at hd
  omega

theorem Reached.live_ne_zero (h : Reached m s) {e : UInt32 × Nat} (he : e ∈ s.live) : e.1 ≠ 0 := by
  obtain ⟨bs, hinv⟩ := inv_reached h
  have hlo := (owned_range (p := e.1.toNat) (s := e.2) (hinv.mem_owned he)).1
  rintro h0
  rw [h0] at hlo
  exact absurd hlo (by decide)

theorem eraseP_address {l : List (UInt32 × Nat)} (h : l.Pairwise fun e e' => e.1 ≠ e'.1)
    {e : UInt32 × Nat} (he : e ∈ l) : l.eraseP (fun x => decide (x.1 = e.1)) = l.erase e := by
  induction l with
  | nil => exact absurd he (by simp)
  | cons x l ih =>
    obtain ⟨hx, hl⟩ := List.pairwise_cons.mp h
    rcases List.mem_cons.mp he with rfl | he
    · rw [List.eraseP_cons_of_pos (by simp), List.erase_cons_head]
    · have hne := hx e he
      have hxe : x ≠ e := fun heq => hne (congrArg Prod.fst heq)
      rw [List.eraseP_cons_of_neg (by simpa using hne), List.erase_cons_tail (by simpa using hxe), ih hl he]

/-- A live pointer is given back; the others stay. -/
theorem Reached.kfree_mem (h : Reached m s) {e : UInt32 × Nat} (he : e ∈ s.live) :
    ∃ t, s.kfree e.1 = some t ∧ Reached m t ∧ t.live = s.live.erase e := by
  obtain ⟨bs, hinv⟩ := inv_reached h
  obtain ⟨h', hrun, -, -⟩ := hinv.kfree_returns he
  refine ⟨_, ?_, h.step (.kfree he hrun), rfl⟩
  rw [State.kfree, hrun, Option.map_some, eraseP_address h.live_addresses he]

/-- The payloads of the pointers in `l` are the same in both. -/
def Kept (l : List (UInt32 × Nat)) (s t : State) : Prop :=
  ∀ e ∈ l, ∀ k, k < e.2 → t.heap.mem (e.1 + UInt32.ofNat k) = s.heap.mem (e.1 + UInt32.ofNat k)

theorem Kept.trans {l : List (UInt32 × Nat)} {t u : State} (h : Kept l s t) (h' : Kept l t u) : Kept l s u :=
  fun e he k hk => (h' e he k hk).trans (h e he k hk)

theorem Reached.kmalloc_kept (h : Reached m s) {n p : UInt32} {t : State} (hrun : s.kmalloc n = some (p, t)) :
    Kept s.live s t := by
  obtain ⟨bs, hinv⟩ := inv_reached h
  obtain ⟨p', h', hrun', hkeep, -⟩ := hinv.kmalloc_returns n
  rw [State.kmalloc, hrun', Option.map_some, Option.some.injEq, Prod.mk.injEq] at hrun
  obtain ⟨-, rfl⟩ := hrun
  exact hkeep

/-- The pointer returned last is given back, and the payloads of the others stay. -/
theorem Reached.kfree_newest (h : Reached m s) {p : UInt32} {k : Nat} {l : List (UInt32 × Nat)}
    (hl : s.live = (p, k) :: l) :
    ∃ t, s.kfree p = some t ∧ Reached m t ∧ t.live = l ∧ Kept l s t := by
  have hmem : (p, k) ∈ s.live := by
    rw [hl]
    exact List.mem_cons_self
  obtain ⟨t, hrun, ht, hlive⟩ := h.kfree_mem hmem
  rw [hl, List.erase_cons_head] at hlive
  refine ⟨t, hrun, ht, hlive, ?_⟩
  obtain ⟨bs, hinv⟩ := inv_reached h
  obtain ⟨h', hrun', hkeep, -⟩ := hinv.kfree_returns hmem
  rw [hl, List.erase_cons_head] at hkeep
  dsimp only at hrun'
  rw [State.kfree, hrun', Option.map_some, Option.some.injEq] at hrun
  subst hrun
  exact hkeep

-- The owner of a block stores a word into it.
theorem Reached.setWord (h : Reached m s) {e : UInt32 × Nat} (he : e ∈ s.live) {k : Nat} (hk : k + 4 ≤ e.2)
    (w : UInt32) : Reached m (s.setWord (e.1 + UInt32.ofNat k) w) := by
  have hbyte : ∀ {t : State}, Reached m t → t.live = s.live → ∀ i, i < 4 → ∀ v,
      Reached m ⟨{ t.heap with mem := Function.update t.heap.mem (e.1 + UInt32.ofNat k + UInt32.ofNat i) v },
        t.live⟩ := by
    intro t ht hlive i hi v
    rw [UInt32.add_assoc, ← UInt32.ofNat_add]
    exact ht.step (.store (e := e) (by rw [hlive]; exact he) (by omega) v)
  have h0 := hbyte h rfl 0 (by decide) (LittleEndian.wordByte w 0)
  rw [show e.1 + UInt32.ofNat k + UInt32.ofNat 0 = e.1 + UInt32.ofNat k from UInt32.add_zero _] at h0
  have h1 := hbyte h0 rfl 1 (by decide) (LittleEndian.wordByte w 1)
  have h2 := hbyte h1 rfl 2 (by decide) (LittleEndian.wordByte w 2)
  exact hbyte h2 rfl 3 (by decide) (LittleEndian.wordByte w 3)

end JacobOS.Kheap
