import Mathlib.Data.List.Chain
import Mathlib.Data.List.Perm.Basic

/-!
# First-fit allocation in a list of adjacent blocks

A region is tiled by blocks, each a header of `hdr` bytes and a payload.  Allocation cuts the first
free block that is large enough; release marks a block free and merges neighbouring free blocks.
-/

namespace FirstFit

structure Blk where
  size : Nat
  free : Bool
  deriving DecidableEq

variable (hdr : Nat)

/-- The bytes the blocks take, headers included. -/
def total : List Blk → Nat
  | [] => 0
  | b :: bs => hdr + b.size + total bs

/-- The payloads of the blocks in use, as pairs of an address and a size, when the first header is at
`a`. -/
def owned (a : Nat) : List Blk → List (Nat × Nat)
  | [] => []
  | b :: bs =>
      if b.free then owned (a + hdr + b.size) bs
      else (a + hdr, b.size) :: owned (a + hdr + b.size) bs

def NoAdjacentFree (bs : List Blk) : Prop := bs.IsChain fun b c => ¬ (b.free = true ∧ c.free = true)

/-- The first block of the list takes in the free blocks after it as long as it is free itself. -/
def absorb (b : Blk) : List Blk → List Blk
  | [] => [b]
  | c :: bs =>
      if b.free && c.free then absorb ⟨b.size + (hdr + c.size), true⟩ bs else b :: absorb c bs

/-- All neighbouring free blocks merged. -/
def coalesce : List Blk → List Blk
  | [] => []
  | b :: bs => absorb hdr b bs

/-- A free block after `r` of its bytes are taken into use: what is left becomes a block of its own if
that has room for `spare` bytes. -/
def cut (spare r : Nat) (b : Blk) : List Blk :=
  if r + hdr + spare ≤ b.size then [⟨r, false⟩, ⟨b.size - r - hdr, true⟩] else [⟨b.size, false⟩]

variable {hdr}

theorem total_append (bs cs : List Blk) : total hdr (bs ++ cs) = total hdr bs + total hdr cs := by
  induction bs with
  | nil => exact (Nat.zero_add _).symm
  | cons b bs ih =>
    rw [List.cons_append, total, ih, total]
    omega

theorem owned_append (a : Nat) (bs cs : List Blk) :
    owned hdr a (bs ++ cs) = owned hdr a bs ++ owned hdr (a + total hdr bs) cs := by
  induction bs generalizing a with
  | nil => rfl
  | cons b bs ih =>
    have hend : a + hdr + b.size + total hdr bs = a + total hdr (b :: bs) := by
      rw [total]
      omega
    rw [List.cons_append, owned, owned, ih, hend]
    split <;> rfl

theorem length_owned_le (hdr a : Nat) (bs : List Blk) : (owned hdr a bs).length ≤ bs.length := by
  induction bs generalizing a with
  | nil => exact Nat.le_refl 0
  | cons b bs ih =>
    have hrest := ih (a + hdr + b.size)
    rw [owned, List.length_cons]
    split
    · exact Nat.le_succ_of_le hrest
    · exact Nat.succ_le_succ hrest

theorem length_mul_le (hdr : Nat) (bs : List Blk) : hdr * bs.length ≤ total hdr bs := by
  induction bs with
  | nil => exact Nat.le_refl _
  | cons b bs ih =>
    rw [List.length_cons, Nat.mul_succ, total]
    omega

/-! ## Merging -/

theorem dvd_total {k : Nat} (hk : k ∣ hdr) {bs : List Blk} (h : ∀ b ∈ bs, k ∣ b.size) :
    k ∣ total hdr bs := by
  induction bs with
  | nil => exact Nat.dvd_zero k
  | cons b bs ih =>
    have hrest := ih fun c hc => h c (List.mem_cons_of_mem b hc)
    rw [total]
    exact Nat.dvd_add (Nat.dvd_add hk (h b List.mem_cons_self)) hrest

theorem total_absorb (b : Blk) (bs : List Blk) : total hdr (absorb hdr b bs) = total hdr (b :: bs) := by
  induction bs generalizing b with
  | nil => rfl
  | cons c bs ih =>
    rw [absorb]
    split
    · rw [ih]
      simp only [total]
      omega
    · rw [total, ih]
      rfl

theorem owned_absorb (a : Nat) (b : Blk) (bs : List Blk) :
    owned hdr a (absorb hdr b bs) = owned hdr a (b :: bs) := by
  induction bs generalizing a b with
  | nil => rfl
  | cons c bs ih =>
    rw [absorb]
    by_cases hfree : (b.free && c.free) = true
    · obtain ⟨hb, hc⟩ : b.free = true ∧ c.free = true := by simpa using hfree
      rw [if_pos hfree, ih]
      simp only [owned, hb, hc, if_true]
      rw [show a + hdr + (b.size + (hdr + c.size)) = a + hdr + b.size + hdr + c.size by omega]
    · rw [if_neg hfree, owned, ih]
      rfl

-- The first block of the result is free exactly when the first block was.
theorem head?_absorb (b : Blk) (bs : List Blk) :
    ∀ x ∈ (absorb hdr b bs).head?, x.free = b.free := by
  induction bs generalizing b with
  | nil =>
    intro x hx
    obtain rfl : b = x := by simpa [absorb] using hx
    rfl
  | cons c bs ih =>
    intro x hx
    rw [absorb] at hx
    by_cases hfree : (b.free && c.free) = true
    · rw [if_pos hfree] at hx
      have hb : b.free = true := by
        rw [Bool.and_eq_true] at hfree
        exact hfree.1
      rw [ih _ x hx, hb]
    · rw [if_neg hfree] at hx
      obtain rfl : b = x := by simpa using hx
      rfl

theorem noAdjacentFree_absorb (b : Blk) (bs : List Blk) : NoAdjacentFree (absorb hdr b bs) := by
  induction bs generalizing b with
  | nil => exact List.isChain_singleton b
  | cons c bs ih =>
    rw [absorb]
    by_cases hfree : (b.free && c.free) = true
    · rw [if_pos hfree]
      exact ih _
    · rw [if_neg hfree]
      refine List.isChain_cons.mpr ⟨?_, ih c⟩
      rintro x hx ⟨hb, hxf⟩
      rw [head?_absorb c bs x hx] at hxf
      exact hfree (by rw [hb, hxf]; rfl)

theorem mem_absorb_size {P : Nat → Prop} (hadd : ∀ {s t}, P s → P t → P (s + (hdr + t))) (b : Blk)
    (bs : List Blk) (h : ∀ c ∈ b :: bs, P c.size) : ∀ c ∈ absorb hdr b bs, P c.size := by
  induction bs generalizing b with
  | nil => exact h
  | cons c bs ih =>
    have hb := h b List.mem_cons_self
    have hc := h c (List.mem_cons_of_mem _ List.mem_cons_self)
    have hbs : ∀ x ∈ bs, P x.size :=
      fun x hx => h x (List.mem_cons_of_mem _ (List.mem_cons_of_mem _ hx))
    rw [absorb]
    split
    · apply ih
      intro x hx
      rcases List.mem_cons.mp hx with rfl | hx
      · exact hadd hb hc
      · exact hbs x hx
    · intro x hx
      rcases List.mem_cons.mp hx with rfl | hx
      · exact hb
      · exact ih c (fun y hy => h y (List.mem_cons_of_mem _ hy)) x hx

theorem mem_coalesce_size {P : Nat → Prop} (hadd : ∀ {s t}, P s → P t → P (s + (hdr + t)))
    {bs : List Blk} (h : ∀ c ∈ bs, P c.size) : ∀ c ∈ coalesce hdr bs, P c.size := by
  cases bs with
  | nil => exact fun c hc => absurd hc (by simp [coalesce])
  | cons b bs => exact mem_absorb_size hadd b bs h

theorem coalesce_spec (hdr : Nat) (bs : List Blk) :
    total hdr (coalesce hdr bs) = total hdr bs ∧
      (∀ a, owned hdr a (coalesce hdr bs) = owned hdr a bs) ∧ NoAdjacentFree (coalesce hdr bs) := by
  cases bs with
  | nil => exact ⟨rfl, fun _ => rfl, List.isChain_nil⟩
  | cons b bs =>
    exact ⟨total_absorb b bs, fun a => owned_absorb a b bs, noAdjacentFree_absorb b bs⟩

/-! ## Cutting -/

theorem total_cut (spare r : Nat) (b : Blk) :
    total hdr (cut hdr spare r b) = total hdr [b] := by
  unfold cut
  split
  · simp only [total]
    omega
  · rfl

/-- The size of the block taken into use. -/
def cutSize (hdr spare r : Nat) (b : Blk) : Nat := if r + hdr + spare ≤ b.size then r else b.size

theorem owned_cut (spare r a : Nat) (b : Blk) :
    owned hdr a (cut hdr spare r b) = [(a + hdr, cutSize hdr spare r b)] := by
  unfold cut cutSize
  split <;> simp [owned]

-- The block before a free block and the block after it are in use, so cutting keeps them apart.
theorem noAdjacentFree_cut {spare r : Nat} {b : Blk} {pre post : List Blk} (hb : b.free = true)
    (h : NoAdjacentFree (pre ++ b :: post)) : NoAdjacentFree (pre ++ (cut hdr spare r b ++ post)) := by
  unfold NoAdjacentFree at h ⊢
  rw [List.isChain_append] at h
  obtain ⟨hpre, hpost, -⟩ := h
  obtain ⟨hnext, hpost⟩ := List.isChain_cons.mp hpost
  have hafter : ∀ x ∈ post.head?, x.free = false := by
    intro x hx
    by_contra hx'
    exact hnext x hx ⟨hb, by simpa using hx'⟩
  rw [List.isChain_append]
  refine ⟨hpre, ?_, ?_⟩
  · unfold cut
    split
    · refine List.isChain_cons.mpr ⟨?_, List.isChain_cons.mpr ⟨?_, hpost⟩⟩
      · rintro x _ ⟨hfalse, -⟩
        exact absurd hfalse (by simp)
      · rintro x hx ⟨-, hxf⟩
        exact absurd hxf (by simp [hafter x hx])
    · refine List.isChain_cons.mpr ⟨?_, hpost⟩
      rintro x _ ⟨hfalse, -⟩
      exact absurd hfalse (by simp)
  · rintro x _ y hy ⟨-, hyf⟩
    have hyf' : y.free = false := by
      unfold cut at hy
      split at hy
      · obtain rfl : ⟨r, false⟩ = y := by simpa using hy
        rfl
      · obtain rfl : ⟨b.size, false⟩ = y := by simpa using hy
        rfl
    rw [hyf'] at hyf
    exact absurd hyf (by simp)

/-! ## Payloads in use -/

theorem mem_owned_split {a p s : Nat} {bs : List Blk} (h : (p, s) ∈ owned hdr a bs) :
    ∃ pre post, bs = pre ++ ⟨s, false⟩ :: post ∧ p = a + total hdr pre + hdr := by
  induction bs generalizing a with
  | nil => exact absurd h (by simp [owned])
  | cons b bs ih =>
    have hrest : (p, s) ∈ owned hdr (a + hdr + b.size) bs →
        ∃ pre post, b :: bs = pre ++ ⟨s, false⟩ :: post ∧ p = a + total hdr pre + hdr := by
      intro hin
      obtain ⟨pre, post, rfl, hp⟩ := ih hin
      refine ⟨b :: pre, post, rfl, ?_⟩
      rw [hp, total]
      omega
    rw [owned] at h
    by_cases hf : b.free = true
    · rw [if_pos hf] at h
      exact hrest h
    · rw [if_neg hf, List.mem_cons] at h
      rcases h with heq | hin
      · obtain ⟨rfl, rfl⟩ : p = a + hdr ∧ s = b.size := by simpa using heq
        have hb : b = ⟨b.size, false⟩ := by
          cases b
          simp_all
        exact ⟨[], bs, by rw [← hb]; rfl, rfl⟩
      · exact hrest hin

theorem owned_range {a p s : Nat} {bs : List Blk} (h : (p, s) ∈ owned hdr a bs) :
    a + hdr ≤ p ∧ p + s ≤ a + total hdr bs := by
  obtain ⟨pre, post, rfl, rfl⟩ := mem_owned_split h
  rw [total_append, total]
  dsimp only
  omega

theorem owned_pairwise (hdr a : Nat) (bs : List Blk) :
    (owned hdr a bs).Pairwise fun x y => x.1 + x.2 + hdr ≤ y.1 := by
  induction bs generalizing a with
  | nil => exact List.Pairwise.nil
  | cons b bs ih =>
    rw [owned]
    split
    · exact ih _
    · refine List.pairwise_cons.mpr ⟨?_, ih _⟩
      rintro ⟨p, s⟩ hp
      have hlo := (owned_range hp).1
      dsimp only
      omega

end FirstFit
