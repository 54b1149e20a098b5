import JacobOS.Lib.FirstFit

/-!
# The gaps between the blocks in use

In a list of adjacent blocks no two of which are neighbours and free, the free blocks are exactly the
gaps left by the blocks in use.  So the blocks in use determine the whole list, whatever calls led to
it.
-/

namespace FirstFit

variable {hdr : Nat}

/-! ## The canonical form -/

-- After a free block the list ends or goes on with a block in use.
theorem NoAdjacentFree.after_free {b : Blk} {bs : List Blk} (hb : b.free = true)
    (h : NoAdjacentFree (b :: bs)) : bs = [] ∨ ∃ c cs, bs = c :: cs ∧ c.free = false := by
  cases bs with
  | nil => exact Or.inl rfl
  | cons c cs =>
    have hbc := (List.isChain_cons.mp h).1 c rfl
    refine Or.inr ⟨c, cs, rfl, ?_⟩
    by_contra hc
    exact hbc ⟨hb, by simpa using hc⟩

theorem NoAdjacentFree.tail {b : Blk} {bs : List Blk} (h : NoAdjacentFree (b :: bs)) :
    NoAdjacentFree bs := (List.isChain_cons.mp h).2

theorem eq_nil_of_total (hhdr : 0 < hdr) {bs : List Blk} (h : total hdr bs = 0) : bs = [] := by
  cases bs with
  | nil => rfl
  | cons b bs =>
    rw [total] at h
    omega

theorem owned_inUse {b : Blk} (hb : b.free = false) (a : Nat) (bs : List Blk) :
    owned hdr a (b :: bs) = (a + hdr, b.size) :: owned hdr (a + hdr + b.size) bs := by
  rw [owned, if_neg (by rw [hb]; exact Bool.false_ne_true)]

theorem owned_free {b : Blk} (hb : b.free = true) (a : Nat) (bs : List Blk) :
    owned hdr a (b :: bs) = owned hdr (a + hdr + b.size) bs := by
  rw [owned, if_pos hb]

-- A list that starts with a free block leaves the bytes of its header out.
theorem owned_free_ne_inUse (hhdr : 0 < hdr) {a : Nat} {b c : Blk} {bs cs : List Blk}
    (hb : b.free = true) (hc : c.free = false) : owned hdr a (b :: bs) ≠ owned hdr a (c :: cs) := by
  rw [owned_free hb, owned_inUse hc]
  intro heq
  have hin : (a + hdr, c.size) ∈ owned hdr (a + hdr + b.size) bs := by
    rw [heq]
    exact List.mem_cons_self
  have hlo := (owned_range hin).1
  omega

-- Two free blocks at one place end where the next block in use begins.
theorem size_eq_of_owned_eq {a : Nat} {b c : Blk} {bs cs : List Blk}
    (hb : b.free = true) (hc : c.free = true) (hbs : NoAdjacentFree (b :: bs))
    (hcs : NoAdjacentFree (c :: cs)) (htotal : total hdr (b :: bs) = total hdr (c :: cs))
    (howned : owned hdr a (b :: bs) = owned hdr a (c :: cs)) : b.size = c.size := by
  rw [owned_free hb, owned_free hc] at howned
  simp only [total] at htotal
  rcases hbs.after_free hb with rfl | ⟨d, ds, rfl, hd⟩
  · rcases hcs.after_free hc with rfl | ⟨e, es, rfl, he⟩
    · simp only [total] at htotal
      omega
    · rw [owned_inUse he] at howned
      exact absurd howned.symm (by simp [owned])
  · rcases hcs.after_free hc with rfl | ⟨e, es, rfl, he⟩
    · rw [owned_inUse hd] at howned
      exact absurd howned (by simp [owned])
    · rw [owned_inUse hd, owned_inUse he, List.cons.injEq, Prod.mk.injEq] at howned
      omega

/-- The blocks in use, and where the region ends, determine all blocks. -/
theorem eq_of_owned_eq (hhdr : 0 < hdr) {a : Nat} {bs cs : List Blk} (hbs : NoAdjacentFree bs)
    (hcs : NoAdjacentFree cs) (htotal : total hdr bs = total hdr cs)
    (howned : owned hdr a bs = owned hdr a cs) : bs = cs := by
  induction bs generalizing a cs with
  | nil => exact (eq_nil_of_total hhdr htotal.symm).symm
  | cons b bs ih =>
    cases cs with
    | nil => exact eq_nil_of_total hhdr htotal
    | cons c cs =>
      have hrest : b.size = c.size → owned hdr (a + hdr + b.size) bs = owned hdr (a + hdr + c.size) cs →
          bs = cs := by
        intro hsize hown
        rw [← hsize] at hown
        simp only [total, hsize] at htotal
        exact ih hbs.tail hcs.tail (by omega) hown
      cases hb : b.free with
      | false =>
        cases hc : c.free with
        | false =>
          rw [owned_inUse hb, owned_inUse hc, List.cons.injEq, Prod.mk.injEq] at howned
          obtain ⟨⟨-, hsize⟩, hown⟩ := howned
          have hbc : b = c := by
            cases b
            cases c
            simp_all
          rw [hbc, hrest hsize hown]
        | true => exact absurd howned.symm (owned_free_ne_inUse hhdr hc hb)
      | true =>
        cases hc : c.free with
        | false => exact absurd howned (owned_free_ne_inUse hhdr hb hc)
        | true =>
          have hsize := size_eq_of_owned_eq hb hc hbs hcs htotal howned
          rw [owned_free hb, owned_free hc] at howned
          have hbc : b = c := by
            cases b
            cases c
            simp_all
          rw [hbc, hrest hsize howned]

-- The payloads in use come in the order of their addresses.
theorem owned_eq_of_perm (hhdr : 0 < hdr) {a a' : Nat} {bs cs : List Blk}
    (h : (owned hdr a bs).Perm (owned hdr a' cs)) : owned hdr a bs = owned hdr a' cs := by
  have hlt : ∀ {x : Nat} {ds : List Blk},
      (owned hdr x ds).Pairwise fun p q : Nat × Nat => p.1 + p.2 + hdr ≤ q.1 := by
    intro x ds
    exact owned_pairwise hdr x ds
  refine h.eq_of_pairwise ?_ hlt hlt
  intro p q _ _ h1 h2
  omega

/-! ## Gaps -/

/-- Byte `x` belongs to the header or the payload of one of the blocks in use `l`. -/
def Covered (hdr : Nat) (l : List (Nat × Nat)) (x : Nat) : Prop :=
  ∃ e ∈ l, e.1 ≤ x + hdr ∧ x < e.1 + e.2

/-- From `a` up to `b` is a maximal range of bytes of `[lo, hi)` that no block in use covers. -/
structure Gap (hdr lo hi : Nat) (l : List (Nat × Nat)) (a b : Nat) : Prop where
  nonempty : a < b
  ge : lo ≤ a
  le : b ≤ hi
  clear : ∀ x, a ≤ x → x < b → ¬ Covered hdr l x
  left : a = lo ∨ Covered hdr l (a - 1)
  right : b = hi ∨ Covered hdr l b

theorem Covered.congr {l l' : List (Nat × Nat)} (h : l.Perm l') (x : Nat) :
    Covered hdr l x ↔ Covered hdr l' x := by
  unfold Covered
  simp only [h.mem_iff]

theorem gap_congr {lo hi : Nat} {l l' : List (Nat × Nat)} (h : l.Perm l') (a b : Nat) :
    Gap hdr lo hi l a b ↔ Gap hdr lo hi l' a b := by
  have hmp : ∀ {k k' : List (Nat × Nat)}, k.Perm k' → Gap hdr lo hi k a b → Gap hdr lo hi k' a b := by
    intro k k' hp hg
    refine ⟨hg.nonempty, hg.ge, hg.le, ?_, ?_, ?_⟩
    · exact fun x h1 h2 hc => hg.clear x h1 h2 ((Covered.congr hp x).mpr hc)
    · exact hg.left.imp_right (Covered.congr hp _).mp
    · exact hg.right.imp_right (Covered.congr hp _).mp
  exact ⟨hmp h, hmp h.symm⟩

-- Two gaps that share a byte are one.
theorem Gap.eq_of_mem {lo hi : Nat} {l : List (Nat × Nat)} {a b a' b' x : Nat}
    (h : Gap hdr lo hi l a b) (h' : Gap hdr lo hi l a' b') (h1 : a ≤ x) (h2 : x < b) (h1' : a' ≤ x)
    (h2' : x < b') : a = a' ∧ b = b' := by
  have hleft : ∀ {c d c' d' : Nat}, Gap hdr lo hi l c d → Gap hdr lo hi l c' d' → c' ≤ x → x < d →
      c' ≤ c := by
    intro c d c' d' hg hg' hx hd
    by_contra hlt
    rcases hg'.left with heq | hcov
    · have := hg.ge
      omega
    · exact hg.clear (c' - 1) (by omega) (by omega) hcov
  have hright : ∀ {c d c' d' : Nat}, Gap hdr lo hi l c d → Gap hdr lo hi l c' d' → c ≤ x → x < d' →
      d ≤ d' := by
    intro c d c' d' hg hg' hc hx
    by_contra hlt
    rcases hg'.right with heq | hcov
    · have := hg.le
      omega
    · exact hg.clear d' (by omega) (by omega) hcov
  have := hleft h h' h1' h2
  have := hleft h' h h1 h2'
  have := hright h h' h1 h2'
  have := hright h' h h1' h2
  omega

-- The block a byte is in.
theorem exists_block {a x : Nat} {bs : List Blk} (hlo : a ≤ x) (hhi : x < a + total hdr bs) :
    ∃ pre b post, bs = pre ++ b :: post ∧ a + total hdr pre ≤ x ∧
      x < a + total hdr pre + hdr + b.size := by
  induction bs generalizing a with
  | nil =>
    rw [total] at hhi
    omega
  | cons b bs ih =>
    rw [total] at hhi
    by_cases hx : x < a + hdr + b.size
    · exact ⟨[], b, bs, rfl, by rw [total]; omega, by rw [total]; omega⟩
    · obtain ⟨pre, c, post, rfl, h1, h2⟩ := ih (a := a + hdr + b.size) (by omega) (by omega)
      exact ⟨b :: pre, c, post, rfl, by rw [total]; omega, by rw [total]; omega⟩

theorem covered_inUse {a x : Nat} {pre post : List Blk} {b : Blk} (hb : b.free = false)
    (h1 : a + total hdr pre ≤ x) (h2 : x < a + total hdr pre + hdr + b.size) :
    Covered hdr (owned hdr a (pre ++ b :: post)) x := by
  refine ⟨(a + total hdr pre + hdr, b.size), ?_, by dsimp only; omega, by dsimp only; omega⟩
  rw [owned_append, owned_inUse hb]
  exact List.mem_append_right _ List.mem_cons_self

-- A free block is a gap: what is in use ends before it or begins after it, and its neighbours are in
-- use.
theorem gap_of_free (hhdr : 0 < hdr) {a : Nat} {pre post : List Blk} {b : Blk} (hb : b.free = true)
    (hbs : NoAdjacentFree (pre ++ b :: post)) :
    Gap hdr a (a + total hdr (pre ++ b :: post)) (owned hdr a (pre ++ b :: post)) (a + total hdr pre)
      (a + total hdr pre + hdr + b.size) := by
  have htotal : total hdr (pre ++ b :: post) = total hdr pre + (hdr + b.size + total hdr post) := by
    rw [total_append, total]
  refine ⟨by omega, by omega, by omega, ?_, ?_, ?_⟩
  · rintro x h1 h2 ⟨⟨p, s⟩, he, h3, h4⟩
    rw [owned_append, owned_free hb, List.mem_append] at he
    dsimp only at h3 h4
    rcases he with he | he
    · have hr := (owned_range he).2
      omega
    · have hr := (owned_range he).1
      omega
  · rcases List.eq_nil_or_concat pre with rfl | ⟨front, c, rfl⟩
    · exact Or.inl rfl
    · have hc : c.free = false := by
        rw [List.concat_eq_append, List.append_assoc, List.singleton_append] at hbs
        have hcb := (List.isChain_append.mp hbs).2.1
        by_contra hcf
        exact (List.isChain_cons.mp hcb).1 b rfl ⟨by simpa using hcf, hb⟩
      right
      have hend : total hdr (front.concat c) = total hdr front + (hdr + c.size) := by
        rw [List.concat_eq_append, total_append, total, total, Nat.add_zero]
      rw [List.concat_eq_append, List.append_assoc, List.singleton_append,
        ← List.concat_eq_append, hend]
      exact covered_inUse hc (by omega) (by omega)
  · rcases NoAdjacentFree.after_free hb (List.isChain_append.mp hbs).2.1 with rfl | ⟨c, cs, rfl, hc⟩
    · left
      rw [htotal, total]
      omega
    · right
      have hlist : pre ++ b :: c :: cs = (pre ++ [b]) ++ c :: cs := by simp
      have hpre : total hdr (pre ++ [b]) = total hdr pre + (hdr + b.size) := by
        rw [total_append, total, total, Nat.add_zero]
      rw [hlist]
      exact covered_inUse hc (by rw [hpre]; omega) (by rw [hpre]; omega)

/-- The gaps are the free blocks. -/
theorem gap_iff (hhdr : 0 < hdr) {a : Nat} {bs : List Blk} (hbs : NoAdjacentFree bs) (g g' : Nat) :
    Gap hdr a (a + total hdr bs) (owned hdr a bs) g g' ↔
      ∃ pre b post, bs = pre ++ b :: post ∧ b.free = true ∧ g = a + total hdr pre ∧
        g' = g + hdr + b.size := by
  constructor
  · intro hg
    have hgg := hg.nonempty
    have hge := hg.ge
    have hle := hg.le
    have hlt : g < a + total hdr bs := by omega
    obtain ⟨pre, b, post, rfl, h1, h2⟩ := exists_block hge hlt
    have hb : b.free = true := by
      by_contra hbf
      exact hg.clear g (Nat.le_refl _) hgg (covered_inUse (by simpa using hbf) h1 h2)
    obtain ⟨rfl, rfl⟩ := hg.eq_of_mem (gap_of_free hhdr hb hbs) (Nat.le_refl _) hgg h1 h2
    exact ⟨pre, b, post, rfl, hb, rfl, rfl⟩
  · rintro ⟨pre, b, post, rfl, hb, rfl, rfl⟩
    exact gap_of_free hhdr hb hbs

end FirstFit
