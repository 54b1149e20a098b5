import JacobOS.Lib.FirstMatch
import JacobOS.Mem.HeapFit

/-!
# Freeing undoes allocating

Neighbouring free blocks are always merged, so the live pointers determine the block list.  Calls that
free all they allocated leave it as it was, whatever the order of the frees.
-/

namespace JacobOS.Kheap

open FirstFit FirstMatch

/-- The walks from the two heads visit the same headers, with the same size, free flag and link. -/
def SameBlocks (h h' : Heap) : Prop :=
  ∃ hs, Walk h.mem h.head hs ∧ Walk h'.mem h'.head hs ∧ ∀ x ∈ hs, h'.mem.word x = h.mem.word x ∧
    h'.mem.word (x + 4) = h.mem.word (x + 4) ∧ h'.mem.word (x + 8) = h.mem.word (x + 8)

variable {m m' : Mem} {s t : State}

theorem Inv.sameBlocks {bs : List Blk} (h : Inv s bs) (h' : Inv t bs) : SameBlocks s.heap t.heap := by
  refine ⟨headers heapStart bs, h.blocks.walk, h'.blocks.walk, ?_⟩
  intro x hx
  obtain ⟨pre, b, post, rfl, rfl⟩ := mem_headers.mp hx
  have hb := h.header_at.2
  have hb' := h'.header_at.2
  rw [ofNat_add4, ofNat_add8, hb.size, hb'.size, hb.free, hb'.free, hb.next, hb'.next]
  exact ⟨rfl, rfl, rfl⟩

-- The block list depends on the live pointers alone.
theorem Inv.blocks_eq {bs cs : List Blk} (h : Inv s bs) (h' : Inv t cs) (hlive : s.live.Perm t.live) :
    bs = cs := by
  have hperm := (h.live.symm.trans (hlive.map extent)).trans h'.live
  exact eq_of_owned_eq (by decide) h.rep.apart h'.rep.apart (h.rep.total.trans h'.rep.total.symm)
    (owned_eq_of_perm (by decide) hperm)

theorem sameBlocks_of_live (h : Reached m s) (h' : Reached m' t) (hlive : s.live.Perm t.live) :
    SameBlocks s.heap t.heap := by
  obtain ⟨bs, hinv⟩ := inv_reached h
  obtain ⟨cs, hinv'⟩ := inv_reached h'
  obtain rfl := hinv.blocks_eq hinv' hlive
  exact hinv.sameBlocks hinv'

/-! ## Calls on a given block list -/

-- The first free block that is large enough is `b`.
theorem Inv.kmalloc_at (pre post : List Blk) {b : Blk} (h : Inv s (pre ++ b :: post)) {n : UInt32}
    (hn : n ≠ 0) (hb : b.free = true) (hr : (align8 n).toNat ≤ b.size)
    (hpre : ∀ c ∈ pre, ¬ (c.free = true ∧ (align8 n).toNat ≤ c.size)) :
    ∃ p t, s.kmalloc n = some (p, t) ∧ p ≠ 0 ∧ Inv t (pre ++ (cut 12 8 (align8 n).toNat b ++ post)) := by
  have hE : heapEnd = 0x800000 := rfl
  rcases kmalloc_firstBlock h.rep h.head hn with
    ⟨hnone, -⟩ | ⟨pre', c, post', m', heq, hc, hrc, hpre', hrun, heff⟩
  · exact absurd ⟨hb, hr⟩ (hnone b (by simp))
  · obtain ⟨rfl, rfl, rfl⟩ := first_unique (P := fun x => x.free = true ∧ (align8 n).toNat ≤ x.size) heq
      ⟨hb, hr⟩ ⟨hc, hrc⟩ hpre hpre'
    have hend := h.header_at.1
    have hne : UInt32.ofNat (heapStart + total 12 pre + 12) ≠ 0 := ofNat_ne_zero (by omega) (by omega)
    refine ⟨_, _, by rw [State.kmalloc, hrun]; rfl, hne, ?_⟩
    rw [if_neg hne]
    exact heff.inv h hb hr

-- All blocks but the last are in use, and the last is large enough.
theorem Reached.kmalloc_last {pre : List Blk} {size : Nat} (h : Reached m s) (hinv : Inv s (pre ++ [⟨size, true⟩]))
    (hpre : ∀ b ∈ pre, b.free = false) {n : UInt32} (hn : n ≠ 0) (hsize : (align8 n).toNat + 20 ≤ size) :
    ∃ p t, s.kmalloc n = some (p, t) ∧ p ≠ 0 ∧ Reached m t ∧
      Inv t (pre ++ [⟨(align8 n).toNat, false⟩] ++ [⟨size - (align8 n).toNat - 12, true⟩]) ∧
      ∃ k, (align8 n).toNat ≤ k ∧ t.live = (p, k) :: s.live := by
  obtain ⟨p, t, hrun, hp, hinv'⟩ := hinv.kmalloc_at pre [] hn rfl (by dsimp only; omega) fun b hb hfree => by
    rw [hpre b hb] at hfree
    exact Bool.noConfusion hfree.1
  rw [cut, if_pos (by dsimp only; omega), List.append_nil, ← List.singleton_append, ← List.append_assoc] at hinv'
  obtain ⟨p', t', hrun', ht, hcase⟩ := h.kmalloc n
  obtain ⟨rfl, rfl⟩ := Prod.mk.inj (Option.some.inj (hrun.symm.trans hrun'))
  obtain ⟨-, -, k, hk, hlive⟩ := hcase.resolve_left fun hno => hp hno.1
  exact ⟨p, t, hrun, hp, ht, hinv', k, hk, hlive⟩

theorem inUse_snoc {l : List Blk} (size : Nat) (hl : ∀ b ∈ l, b.free = false) :
    ∀ b ∈ l ++ [⟨size, false⟩], b.free = false := by
  intro b hb
  rcases List.mem_append.mp hb with hb | hb
  · exact hl b hb
  · rw [List.mem_singleton.mp hb]

theorem Inv.kmalloc_none {bs : List Blk} (h : Inv s bs) {n : UInt32} (hn : n ≠ 0)
    (hnone : ∀ b ∈ bs, ¬ (b.free = true ∧ (align8 n).toNat ≤ b.size)) : s.kmalloc n = some (0, s) := by
  rcases kmalloc_firstBlock h.rep h.head hn with ⟨-, hrun⟩ | ⟨pre, b, post, m', rfl, hb, hr, -⟩
  · rw [State.kmalloc, hrun]
    rfl
  · exact absurd ⟨hb, hr⟩ (hnone b (by simp))

/-! ## Calls that free only what they allocated -/

/-- Calls made from `s` on lead to `t`; `own` are the pointers they allocated and have not freed.
Between the calls the owners of live pointers may store into the payloads. -/
inductive Since (s : State) : State → List (UInt32 × Nat) → Prop where
  | start : Since s s []
  | kmalloc {t : State} {own : List (UInt32 × Nat)} (h : Since s t own) (n : UInt32) {p : UInt32}
      {h' : Heap} (hrun : kmalloc n t.heap = some (p, h')) :
      Since s ⟨h', if p = 0 then t.live else (p, (h'.mem.word (p - 12)).toNat) :: t.live⟩
        (if p = 0 then own else (p, (h'.mem.word (p - 12)).toNat) :: own)
  | kfreeNull {t : State} {own : List (UInt32 × Nat)} (h : Since s t own) {h' : Heap}
      (hrun : kfree 0 t.heap = some h') : Since s ⟨h', t.live⟩ own
  | kfree {t : State} {own : List (UInt32 × Nat)} (h : Since s t own) {e : UInt32 × Nat} (he : e ∈ own)
      {h' : Heap} (hrun : kfree e.1 t.heap = some h') : Since s ⟨h', t.live.erase e⟩ (own.erase e)
  | store {t : State} {own : List (UInt32 × Nat)} (h : Since s t own) {e : UInt32 × Nat}
      (he : e ∈ t.live) {k : Nat} (hk : k < e.2) (v : UInt8) :
      Since s ⟨{ t.heap with mem := Function.update t.heap.mem (e.1 + UInt32.ofNat k) v }, t.live⟩ own

-- What is live is what was live before and what the calls own.
theorem Since.live_perm {own : List (UInt32 × Nat)} (h : Since s t own) :
    t.live.Perm (own ++ s.live) := by
  induction h with
  | start => exact List.Perm.refl _
  | kmalloc _ n _ ih =>
    dsimp only
    split
    · exact ih
    · exact ih.cons _
  | kfreeNull _ _ ih => exact ih
  | @kfree _ _ _ e he _ _ ih =>
    have herase := ih.erase e
    rwa [List.erase_append_left _ he] at herase
  | store _ _ _ _ ih => exact ih

theorem Since.reached (hs : Reached m s) {own : List (UInt32 × Nat)} (h : Since s t own) :
    Reached m t := by
  induction h with
  | start => exact hs
  | kmalloc _ n hrun ih => exact ih.step (.kmalloc n hrun)
  | kfreeNull _ hrun ih => exact ih.step (.kfreeNull hrun)
  | kfree hsince he hrun ih =>
    exact ih.step (.kfree (hsince.live_perm.mem_iff.mpr (List.mem_append_left _ he)) hrun)
  | store _ he hk v ih => exact ih.step (.store he hk v)

/-- In `t` every call that may come next returns, and if nothing is owed the block list is that
of `s`. -/
structure Undoes (s t : State) (own : List (UInt32 × Nat)) : Prop where
  kmalloc : ∀ n, ∃ p h, kmalloc n t.heap = some (p, h)
  kfree : ∀ e ∈ own, ∃ h, kfree e.1 t.heap = some h
  balanced : own = [] → SameBlocks s.heap t.heap

theorem Since.undoes (hs : Reached m s) {own : List (UInt32 × Nat)} (h : Since s t own) :
    Undoes s t own := by
  have ht := h.reached hs
  obtain ⟨bs, hinv⟩ := inv_reached ht
  refine ⟨?_, ?_, ?_⟩
  · intro n
    obtain ⟨p, h', hrun, -⟩ := hinv.kmalloc_returns n
    exact ⟨p, h', hrun⟩
  · intro e he
    obtain ⟨h', hrun, -⟩ := hinv.kfree_returns (h.live_perm.mem_iff.mpr (List.mem_append_left _ he))
    exact ⟨h', hrun⟩
  · rintro rfl
    exact sameBlocks_of_live hs ht h.live_perm.symm

/-- The heap as `kheap_init` leaves it: one free block. -/
def SingleFree (h : Heap) : Prop :=
  Walk h.mem h.head [UInt32.ofNat heapStart] ∧
    h.mem.word (UInt32.ofNat heapStart) = UInt32.ofNat heapSize - 12 ∧
    h.mem.word (UInt32.ofNat heapStart + 4) = 1 ∧ h.mem.word (UInt32.ofNat heapStart + 8) = 0

-- With nothing live the heap is one free block.
theorem Reached.inv_of_live_nil (h : Reached m t) (hlive : t.live = []) : Inv t [⟨heapSize - 12, true⟩] := by
  obtain ⟨bs, hinv⟩ := inv_reached h
  obtain rfl := (inv_init m).blocks_eq hinv (by rw [hlive])
  exact hinv

theorem singleFree_of_live (h : Reached m t) (hlive : t.live = []) : SingleFree t.heap := by
  have hinv := h.inv_of_live_nil hlive
  have hone : Inv t ([] ++ ⟨heapSize - 12, true⟩ :: []) := hinv
  have hhdr := hone.header_at.2
  refine ⟨hinv.blocks.walk, hhdr.size, ?_, ?_⟩
  · rw [ofNat_add4]
    exact hhdr.free
  · rw [ofNat_add8]
    exact hhdr.next

/-- Freeing undoes allocating: one `kmalloc` and its `kfree` restore the block list, and so does every
sequence of calls that frees what it allocated, in any order; from `kheap_init` on that is the single
free block. -/
theorem kfree_undoes_kmalloc (h : Reached m s) :
    (∀ n p h', kmalloc n s.heap = some (p, h') → p ≠ 0 →
        ∃ h'', kfree p h' = some h'' ∧ SameBlocks s.heap h'') ∧
      (∀ t own, Since s t own → Undoes s t own) ∧
      ∀ t, Since ⟨kheapInit m, []⟩ t [] → SingleFree t.heap := by
  refine ⟨?_, fun t own hsince => hsince.undoes h, ?_⟩
  · intro n p h' hrun hp
    have hmalloc := Since.start (s := s) |>.kmalloc n hrun
    rw [if_neg hp, if_neg hp] at hmalloc
    obtain ⟨h'', hfree⟩ := (hmalloc.undoes h).kfree _ List.mem_cons_self
    have hdone := hmalloc.kfree List.mem_cons_self hfree
    rw [List.erase_cons_head, List.erase_cons_head] at hdone
    exact ⟨h'', hfree, (hdone.undoes h).balanced rfl⟩
  · intro t hsince
    have hlive := hsince.live_perm
    rw [List.append_nil, List.perm_nil] at hlive
    exact singleFree_of_live (hsince.reached .init) hlive

theorem kfree_undoes_kmalloc_init :
    ∃ p h h', kmalloc 100 (kheapInit fun _ => 0) = some (p, h) ∧ p ≠ 0 ∧ kfree p h = some h' ∧
      SameBlocks (kheapInit fun _ => 0) h' := by
  obtain ⟨p, t, hrun, hp, -⟩ := (inv_init fun _ => 0).kmalloc_at [] [] (n := 100)
    (by decide) rfl (by decide) (by simp)
  obtain ⟨⟨p', h⟩, hrun', heq⟩ := Option.map_eq_some_iff.mp hrun
  obtain ⟨rfl, -⟩ := Prod.mk.inj heq
  obtain ⟨h', hfree, hsame⟩ := (kfree_undoes_kmalloc .init).1 100 p' h hrun' hp
  exact ⟨p', h, h', hrun', hp, hfree, hsame⟩

end JacobOS.Kheap
