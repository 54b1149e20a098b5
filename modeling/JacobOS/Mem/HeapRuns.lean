import JacobOS.Mem.Kheap

/-!
# Runs of the kernel heap

A run starts with `kheap_init` on any memory and goes on with calls of `kmalloc`, calls of `kfree` on
null or a live pointer, and stores of a pointer's owner into its payload.  The live pointers are kept
beside the heap, each with the size its header had when `kmalloc` returned it.
-/

namespace JacobOS.Kheap

open AddressRange FirstFit

/-- The memory holds the blocks `bs`, which tile the heap. -/
structure Rep (m : Mem) (bs : List Blk) : Prop where
  seg : Seg m heapStart bs
  total : total 12 bs = heapSize
  aligned : ∀ b ∈ bs, 4 ∣ b.size
  apart : NoAdjacentFree bs

namespace Rep

variable {m m' : Mem} {bs : List Blk}

theorem end_eq (h : Rep m bs) : heapStart + FirstFit.total 12 bs = heapEnd := by
  rw [h.total]
  rfl

theorem length_lt (h : Rep m bs) : bs.length < heapSize := by
  have hle := length_mul_le 12 bs
  have hS : heapSize = 0x400000 := rfl
  rw [h.total] at hle
  omega

end Rep

theorem align8_dvd (n : UInt32) : 4 ∣ (align8 n).toNat := by
  have hmask : (align8 n).toNat % 2 ^ 2 = 0 := by
    unfold align8
    rw [UInt32.toNat_and, Nat.and_mod_two_pow]
    have h7 : (~~~(7 : UInt32)).toNat % 2 ^ 2 = 0 := by decide
    rw [h7, Nat.and_zero]
  exact Nat.dvd_of_mod_eq_zero hmask

-- A free block holds no byte in use.
theorem InUse.outside {a x : Nat} {pre post : List Blk} {b : Blk} (hb : b.free = true)
    (h : InUse a (pre ++ b :: post) x) :
    x < a + total 12 pre ∨ a + total 12 pre + 12 + b.size ≤ x := by
  obtain ⟨e, he, h1, h2⟩ := h
  rw [owned_append, owned, if_pos hb, List.mem_append] at he
  rcases he with he | he
  · have hr := (owned_range (p := e.1) (s := e.2) he).2
    omega
  · have hr := (owned_range (p := e.1) (s := e.2) he).1
    omega

/-! ## The operations -/

theorem kheapInit_rep (m : Mem) : Rep (kheapInit m).mem [⟨heapSize - 12, true⟩] := by
  have hS : heapStart = 0x400000 := rfl
  refine ⟨⟨⟨?_, ?_, ?_⟩, trivial⟩, rfl, ?_, List.isChain_singleton _⟩
  · unfold kheapInit
    dsimp only
    rw [ofNat_add4, ofNat_add8, word_other _ _ (by omega) (by omega) (by omega),
      word_other _ _ (by omega) (by omega) (by omega), word_same]
    rfl
  · unfold kheapInit
    dsimp only
    rw [ofNat_add4, ofNat_add8, word_other _ _ (by omega) (by omega) (by omega), word_same]
    rfl
  · unfold kheapInit
    dsimp only
    rw [ofNat_add8, word_same]
    rfl
  · intro b hb
    obtain rfl := List.mem_singleton.mp hb
    decide

/-- The effect of a `kmalloc` that finds block `b`. -/
structure MallocEffect (r : Nat) (pre : List Blk) (b : Blk) (post : List Blk) (m m' : Mem) : Prop where
  rep : Rep m' (pre ++ (cut 12 8 r b ++ post))
  kept : ∀ x, x < 2 ^ 32 → x < heapStart + total 12 pre ∨
    heapStart + total 12 pre + 12 + b.size ≤ x → m' (UInt32.ofNat x) = m (UInt32.ofNat x)

theorem take_effect {m : Mem} {r : Nat} {pre post : List Blk} {b : Blk} (h : Rep m (pre ++ b :: post))
    (hb : b.free = true) (hr : r ≤ b.size) (h4 : 4 ∣ r) :
    MallocEffect r pre b post m
      (take (UInt32.ofNat r) (UInt32.ofNat (heapStart + total 12 pre)) m) := by
  have hE : heapEnd = 0x800000 := rfl
  obtain ⟨hpre, hhdr, hpost⟩ := seg_append.mp h.seg
  have hend := h.end_eq
  rw [total_append, total] at hend
  obtain ⟨hcut, hkept⟩ := take_spec hhdr hr (by omega)
  have hcuttotal : total 12 (cut 12 8 r b) = 12 + b.size := by
    rw [total_cut, total]
    rfl
  refine ⟨⟨?_, ?_, ?_, noAdjacentFree_cut hb h.apart⟩, hkept⟩
  · rw [seg_append, seg_append]
    refine ⟨hpre.congr (by omega) fun x h1 h2 => hkept x (by omega) (Or.inl h2), hcut, ?_⟩
    rw [hcuttotal, ← Nat.add_assoc]
    exact hpost.congr (by omega) fun x h1 h2 => hkept x (by omega) (Or.inr h1)
  · have htotal := h.total
    rw [total_append, total] at htotal
    rw [total_append, total_append, hcuttotal]
    exact htotal
  · intro c hc
    have hb4 : 4 ∣ b.size := h.aligned b (by simp)
    rcases List.mem_append.mp hc with hc | hc
    · exact h.aligned c (List.mem_append_left _ hc)
    · rcases List.mem_append.mp hc with hc | hc
      · unfold cut at hc
        split at hc
        · rcases List.mem_cons.mp hc with rfl | hc
          · exact h4
          · obtain rfl := List.mem_singleton.mp hc
            dsimp only
            omega
        · obtain rfl := List.mem_singleton.mp hc
          exact hb4
      · exact h.aligned c (List.mem_append_right _ (List.mem_cons_of_mem b hc))

-- A request for at least one byte gets the first free block that is large enough.
theorem kmalloc_firstBlock {h : Heap} {bs : List Blk} (hrep : Rep h.mem bs)
    (hhead : h.head = UInt32.ofNat heapStart) {n : UInt32} (hn : n ≠ 0) :
    ((∀ b ∈ bs, ¬ (b.free = true ∧ (align8 n).toNat ≤ b.size)) ∧ kmalloc n h = some (0, h)) ∨
      ∃ pre b post m', bs = pre ++ b :: post ∧ b.free = true ∧ (align8 n).toNat ≤ b.size ∧
        (∀ c ∈ pre, ¬ (c.free = true ∧ (align8 n).toNat ≤ c.size)) ∧
        kmalloc n h = some (UInt32.ofNat (heapStart + total 12 pre + 12), { h with mem := m' }) ∧
        MallocEffect (align8 n).toNat pre b post h.mem m' := by
  unfold kmalloc
  rw [if_neg hn]
  have hloop := kmallocLoop_spec (align8 n).toNat_lt bs (a := heapStart) (by decide) hrep.seg
    hrep.end_eq heapSize hrep.length_lt
  rw [UInt32.ofNat_toNat, link_of_lt (by decide), ← hhead] at hloop
  rcases hloop with ⟨hnone, hrun⟩ | ⟨pre, b, post, rfl, hb, hr, hpre, hrun⟩
  · rw [hrun]
    exact Or.inl ⟨hnone, rfl⟩
  · rw [hrun]
    refine Or.inr ⟨pre, b, post, _, rfl, hb, hr, hpre, rfl, ?_⟩
    have heff := take_effect hrep hb hr (align8_dvd n)
    rwa [UInt32.ofNat_toNat] at heff

theorem kmalloc_spec {h : Heap} {bs : List Blk} (hrep : Rep h.mem bs)
    (hhead : h.head = UInt32.ofNat heapStart) (n : UInt32) :
    kmalloc n h = some (0, h) ∨
      ∃ pre b post m', bs = pre ++ b :: post ∧ b.free = true ∧ (align8 n).toNat ≤ b.size ∧
        kmalloc n h = some (UInt32.ofNat (heapStart + total 12 pre + 12), { h with mem := m' }) ∧
        MallocEffect (align8 n).toNat pre b post h.mem m' := by
  by_cases hn : n = 0
  · left
    unfold kmalloc
    rw [if_pos hn]
  · rcases kmalloc_firstBlock hrep hhead hn with ⟨-, hrun⟩ | ⟨pre, b, post, m', hbs, hb, hr, -, hrun⟩
    · exact Or.inl hrun
    · exact Or.inr ⟨pre, b, post, m', hbs, hb, hr, hrun⟩

-- The flag of the freed block is set; nothing else changes.
theorem seg_mark {m : Mem} {pre post : List Blk} {s : Nat} (h : Rep m (pre ++ ⟨s, false⟩ :: post)) :
    Seg (m.setWord (UInt32.ofNat (heapStart + total 12 pre + 4)) 1) heapStart
      (pre ++ ⟨s, true⟩ :: post) := by
  have hE : heapEnd = 0x800000 := rfl
  have hend := h.end_eq
  rw [total_append, total] at hend
  obtain ⟨hpre, hhdr, hpost⟩ := seg_append.mp h.seg
  dsimp only at hend hpost
  rw [seg_append]
  refine ⟨hpre.congr (by omega) ?_, ⟨?_, ?_, ?_⟩, hpost.congr (by omega) ?_⟩
  · exact fun x h1 h2 => byte_other _ _ (by omega) (by omega) (by omega)
  · rw [word_other _ _ (by omega) (by omega) (by omega)]
    exact hhdr.size
  · exact word_same ..
  · rw [word_other _ _ (by omega) (by omega) (by omega)]
    exact hhdr.next
  · exact fun x h1 h2 => byte_other _ _ (by omega) (by omega) (by omega)

theorem coalesce_aligned {m : Mem} {pre post : List Blk} {s : Nat}
    (h : Rep m (pre ++ ⟨s, false⟩ :: post)) :
    ∀ c ∈ coalesce 12 (pre ++ ⟨s, true⟩ :: post), 4 ∣ c.size := by
  apply mem_coalesce_size (P := fun k => 4 ∣ k) fun h1 h2 => by omega
  intro c hc
  rcases List.mem_append.mp hc with hc | hc
  · exact h.aligned c (List.mem_append_left _ hc)
  · rcases List.mem_cons.mp hc with rfl | hc
    · exact h.aligned ⟨s, false⟩ (by simp)
    · exact h.aligned c (List.mem_append_right _ (List.mem_cons_of_mem _ hc))

theorem kfree_spec {h : Heap} {pre post : List Blk} {s : Nat}
    (hrep : Rep h.mem (pre ++ ⟨s, false⟩ :: post)) (hhead : h.head = UInt32.ofNat heapStart) :
    ∃ m', kfree (UInt32.ofNat (heapStart + total 12 pre + 12)) h = some { h with mem := m' } ∧
      Rep m' (coalesce 12 (pre ++ ⟨s, true⟩ :: post)) ∧
      ∀ x, x < 2 ^ 32 → InUse heapStart (pre ++ ⟨s, true⟩ :: post) x →
        m' (UInt32.ofNat x) = h.mem (UInt32.ofNat x) := by
  have hE : heapEnd = 0x800000 := rfl
  have hS : heapStart = 0x400000 := rfl
  have hend := hrep.end_eq
  rw [total_append, total] at hend
  dsimp only at hend
  have hptr : UInt32.ofNat (heapStart + total 12 pre + 12) - 12 + 4 =
      UInt32.ofNat (heapStart + total 12 pre + 4) := by
    rw [← ofNat_add12, UInt32.add_sub_cancel, ofNat_add4]
  have htotal : total 12 (pre ++ ⟨s, true⟩ :: post) = total 12 (pre ++ ⟨s, false⟩ :: post) := by
    rw [total_append, total_append]
    rfl
  have hlen : (pre ++ ⟨s, true⟩ :: post).length = (pre ++ ⟨s, false⟩ :: post).length := by simp
  have hcoal := coalesce_spec 12 (pre ++ ⟨s, true⟩ :: post)
  have hmark := seg_mark hrep
  have haligned := coalesce_aligned hrep
  unfold kfree
  rw [if_neg (ofNat_ne_zero (by omega) (by omega)), hptr, hhead]
  cases hbs : pre ++ (⟨s, true⟩ : Blk) :: post with
  | nil => exact absurd hbs (by simp)
  | cons b bs =>
    rw [hbs] at hmark htotal hlen hcoal haligned
    have hlt := hrep.length_lt
    rw [List.length_cons] at hlen
    obtain ⟨m', hrun, hseg, hkeep⟩ := kfreeLoop_spec bs (by decide) hmark
      (by rw [htotal]; exact hrep.end_eq) heapSize (by omega)
    rw [link_of_lt (by decide)] at hrun
    rw [hrun]
    refine ⟨m', rfl, ⟨hseg, ?_, haligned, hcoal.2.2⟩, ?_⟩
    · rw [hcoal.1, htotal]
      exact hrep.total
    · intro x hx huse
      rw [hkeep x hx (Or.inr (Or.inr huse))]
      rw [← hbs] at huse
      have hout := huse.outside rfl
      dsimp only at hout
      exact byte_other _ _ (by omega) (by omega) hx

/-! ## Runs -/

structure State where
  heap : Heap
  /-- The pointers returned and not yet freed, with the payload size each had when it was returned. -/
  live : List (UInt32 × Nat)

inductive Step : State → State → Prop where
  | kmalloc {s : State} (n : UInt32) {p : UInt32} {h : Heap} (hrun : kmalloc n s.heap = some (p, h)) :
      Step s ⟨h, if p = 0 then s.live else (p, (h.mem.word (p - 12)).toNat) :: s.live⟩
  | kfreeNull {s : State} {h : Heap} (hrun : kfree 0 s.heap = some h) : Step s ⟨h, s.live⟩
  | kfree {s : State} {e : UInt32 × Nat} (he : e ∈ s.live) {h : Heap}
      (hrun : kfree e.1 s.heap = some h) : Step s ⟨h, s.live.erase e⟩
  -- the owner of a pointer stores into its payload
  | store {s : State} {e : UInt32 × Nat} (he : e ∈ s.live) {k : Nat} (hk : k < e.2) (v : UInt8) :
      Step s ⟨{ s.heap with mem := Function.update s.heap.mem (e.1 + UInt32.ofNat k) v }, s.live⟩

/-- `s` is reached from `kheap_init` on the memory `m`. -/
inductive Reached (m : Mem) : State → Prop where
  | init : Reached m ⟨kheapInit m, []⟩
  | step {s t : State} (h : Reached m s) (hst : Step s t) : Reached m t

def extent (e : UInt32 × Nat) : Nat × Nat := (e.1.toNat, e.2)

structure Inv (s : State) (bs : List Blk) : Prop where
  rep : Rep s.heap.mem bs
  head : s.heap.head = UInt32.ofNat heapStart
  live : (s.live.map extent).Perm (owned 12 heapStart bs)

namespace Inv

variable {s : State} {bs : List Blk}

theorem mem_owned (h : Inv s bs) {e : UInt32 × Nat} (he : e ∈ s.live) :
    extent e ∈ owned 12 heapStart bs := h.live.mem_iff.mp (List.mem_map_of_mem he)

-- A live pointer is the payload of a block in use.
theorem split (h : Inv s bs) {e : UInt32 × Nat} (he : e ∈ s.live) :
    ∃ pre post, bs = pre ++ ⟨e.2, false⟩ :: post ∧
      e.1 = UInt32.ofNat (heapStart + total 12 pre + 12) := by
  obtain ⟨pre, post, hbs, hp⟩ := mem_owned_split (h.mem_owned he)
  exact ⟨pre, post, hbs, by rw [← hp, UInt32.ofNat_toNat]⟩

theorem byte_inUse (h : Inv s bs) {e : UInt32 × Nat} (he : e ∈ s.live) {k : Nat} (hk : k < e.2) :
    e.1.toNat + k < 2 ^ 32 ∧ e.1 + UInt32.ofNat k = UInt32.ofNat (e.1.toNat + k) ∧
      InUse heapStart bs (e.1.toNat + k) := by
  have hin := h.mem_owned he
  have hr := (owned_range (p := e.1.toNat) (s := e.2) hin).2
  rw [h.rep.end_eq] at hr
  have hE : heapEnd = 0x800000 := rfl
  refine ⟨by omega, ?_, extent e, hin, ?_, ?_⟩
  · rw [UInt32.ofNat_add, UInt32.ofNat_toNat]
  · exact Nat.le_add_right _ _
  · exact Nat.add_lt_add_left hk _

end Inv

theorem inv_init (m : Mem) : Inv ⟨kheapInit m, []⟩ [⟨heapSize - 12, true⟩] :=
  ⟨kheapInit_rep m, rfl, List.Perm.refl _⟩

/-! ### `kmalloc` -/

theorem MallocEffect.hdr {r : Nat} {pre post : List Blk} {b : Blk} {m m' : Mem}
    (h : MallocEffect r pre b post m m') :
    m'.word (UInt32.ofNat (heapStart + total 12 pre)) = UInt32.ofNat (cutSize 12 8 r b) := by
  obtain ⟨-, hrest⟩ := seg_append.mp h.rep.seg
  have hcut := (seg_append.mp hrest).1
  unfold cut at hcut
  unfold cutSize
  split at hcut
  · rw [if_pos ‹_›]
    exact hcut.1.size
  · rw [if_neg ‹_›]
    exact hcut.1.size

theorem MallocEffect.inv {s : State} {r : Nat} {pre post : List Blk} {b : Blk} {m' : Mem}
    (h : Inv s (pre ++ b :: post)) (hb : b.free = true) (hr : r ≤ b.size)
    (heff : MallocEffect r pre b post s.heap.mem m') :
    Inv ⟨{ s.heap with mem := m' }, (UInt32.ofNat (heapStart + total 12 pre + 12),
        (m'.word (UInt32.ofNat (heapStart + total 12 pre + 12) - 12)).toNat) :: s.live⟩
      (pre ++ (cut 12 8 r b ++ post)) := by
  have hE : heapEnd = 0x800000 := rfl
  have hend := h.rep.end_eq
  rw [total_append, total] at hend
  have hle : cutSize 12 8 r b ≤ b.size := by
    unfold cutSize
    split
    · exact hr
    · exact Nat.le_refl _
  have hsize : (m'.word (UInt32.ofNat (heapStart + total 12 pre + 12) - 12)).toNat =
      cutSize 12 8 r b := by
    rw [← ofNat_add12, UInt32.add_sub_cancel, heff.hdr, toNat_ofNat (by omega)]
  refine ⟨heff.rep, h.head, ?_⟩
  have hold := h.live
  rw [owned_append, owned, if_pos hb] at hold
  have hcut : total 12 (cut 12 8 r b) = 12 + b.size := by
    rw [total_cut]
    rfl
  rw [List.map_cons, extent, hsize, toNat_ofNat (by omega), owned_append, owned_append, owned_cut, hcut,
    ← Nat.add_assoc, List.singleton_append]
  exact (List.Perm.cons _ hold).trans List.perm_middle.symm

-- A call returns, and leaves every live payload alone.
theorem Inv.kmalloc_returns {s : State} {bs : List Blk} (h : Inv s bs) (n : UInt32) :
    ∃ p h', kmalloc n s.heap = some (p, h') ∧
      (∀ e ∈ s.live, ∀ k, k < e.2 →
        h'.mem (e.1 + UInt32.ofNat k) = s.heap.mem (e.1 + UInt32.ofNat k)) ∧
      ∃ bs', Inv ⟨h', if p = 0 then s.live else (p, (h'.mem.word (p - 12)).toNat) :: s.live⟩ bs' := by
  have hE : heapEnd = 0x800000 := rfl
  rcases kmalloc_spec h.rep h.head n with hrun | ⟨pre, b, post, m', rfl, hb, hr, hrun, heff⟩
  · exact ⟨0, s.heap, hrun, fun _ _ _ _ => rfl, bs, by rw [if_pos rfl]; exact h⟩
  · have hend := h.rep.end_eq
    rw [total_append, total] at hend
    refine ⟨_, _, hrun, ?_, pre ++ (cut 12 8 (align8 n).toNat b ++ post), ?_⟩
    · intro e he k hk
      obtain ⟨hlt, heq, huse⟩ := h.byte_inUse he hk
      rw [heq]
      exact heff.kept _ hlt (huse.outside hb)
    · rw [if_neg (ofNat_ne_zero (by omega) (by omega))]
      exact heff.inv h hb hr

/-! ### `kfree` -/

theorem Inv.kfree_returns {s : State} {bs : List Blk} (h : Inv s bs) {e : UInt32 × Nat} (he : e ∈ s.live) :
    ∃ h', kfree e.1 s.heap = some h' ∧
      (∀ e' ∈ s.live.erase e, ∀ k, k < e'.2 →
        h'.mem (e'.1 + UInt32.ofNat k) = s.heap.mem (e'.1 + UInt32.ofNat k)) ∧
      ∃ bs', Inv ⟨h', s.live.erase e⟩ bs' := by
  obtain ⟨pre, post, rfl, hp⟩ := h.split he
  obtain ⟨m', hrun, hrep, hkeep⟩ := kfree_spec h.rep h.head
  have hE : heapEnd = 0x800000 := rfl
  have hend := h.rep.end_eq
  rw [total_append, total] at hend
  -- the other live pointers own the other blocks in use
  have hlive : ((s.live.erase e).map extent).Perm
      (owned 12 heapStart (pre ++ ⟨e.2, true⟩ :: post)) := by
    have hperm := ((List.perm_cons_erase he).map extent).symm.trans h.live
    have hext : extent e = (heapStart + total 12 pre + 12, e.2) := by
      unfold extent
      rw [hp, toNat_ofNat (by omega)]
    rw [owned_append, owned, if_neg Bool.false_ne_true, List.map_cons, hext] at hperm
    rw [owned_append, owned, if_pos rfl]
    exact (hperm.trans List.perm_middle).cons_inv
  rw [← hp] at hrun
  refine ⟨{ s.heap with mem := m' }, hrun, ?_, _, hrep, h.head, ?_⟩
  · intro e' he' k hk
    obtain ⟨hlt, heq, -⟩ := h.byte_inUse (List.mem_of_mem_erase he') hk
    rw [heq]
    apply hkeep _ hlt
    exact ⟨extent e', hlive.mem_iff.mp (List.mem_map_of_mem he'), Nat.le_add_right _ _,
      Nat.add_lt_add_left hk _⟩
  · rw [(coalesce_spec 12 (pre ++ ⟨e.2, true⟩ :: post)).2.1]
    exact hlive

/-! ### The owner's stores -/

-- A byte in use is no byte of a header.
theorem Seg.store {m : Mem} {a x : Nat} {bs : List Blk} (h : Seg m a bs) (hend : a + total 12 bs ≤ heapEnd)
    (huse : InUse a bs x) (v : UInt8) : Seg (Function.update m (UInt32.ofNat x) v) a bs := by
  have hE : heapEnd = 0x800000 := rfl
  obtain ⟨e, he, h1, h2⟩ := huse
  have hne : ∀ {y : Nat}, y ≠ x → y < 2 ^ 32 → x < 2 ^ 32 →
      Function.update m (UInt32.ofNat x) v (UInt32.ofNat y) = m (UInt32.ofNat y) := by
    intro y hyx hy hx
    apply Function.update_of_ne
    intro heq
    have hn := congrArg UInt32.toNat heq
    rw [toNat_ofNat hy, toNat_ofNat hx] at hn
    exact hyx hn
  induction bs generalizing a with
  | nil => exact absurd he (by simp [owned])
  | cons b bs ih =>
    have hr := owned_range (p := e.1) (s := e.2) he
    rw [total] at hend hr
    refine ⟨h.1.congr (by omega) fun y hy hy' => hne (by omega) (by omega) (by omega), ?_⟩
    rw [owned] at he
    by_cases hb : b.free = true
    · rw [if_pos hb] at he
      exact ih h.2 (by omega) he
    · rw [if_neg hb, List.mem_cons] at he
      rcases he with rfl | he
      · refine h.2.congr (by omega) fun y hy hy' => hne ?_ (by omega) (by omega)
        dsimp only at h2
        omega
      · exact ih h.2 (by omega) he

theorem Inv.step {s t : State} {bs : List Blk} (h : Inv s bs) (hst : Step s t) : ∃ bs', Inv t bs' := by
  cases hst with
  | kmalloc n hrun =>
    obtain ⟨p, h', hrun', -, bs', hinv⟩ := h.kmalloc_returns n
    obtain ⟨rfl, rfl⟩ : _ = p ∧ _ = h' := by simpa using hrun.symm.trans hrun'
    exact ⟨bs', hinv⟩
  | kfreeNull hrun =>
    have hsame : kfree 0 s.heap = some s.heap := by
      unfold kfree
      rw [if_pos rfl]
    rw [hsame, Option.some.injEq] at hrun
    exact ⟨bs, hrun ▸ h⟩
  | kfree he hrun =>
    obtain ⟨h', hrun', -, bs', hinv⟩ := h.kfree_returns he
    obtain rfl : _ = h' := by simpa using hrun.symm.trans hrun'
    exact ⟨bs', hinv⟩
  | store he hk v =>
    obtain ⟨-, heq, huse⟩ := h.byte_inUse he hk
    refine ⟨bs, ⟨?_, h.rep.total, h.rep.aligned, h.rep.apart⟩, h.head, h.live⟩
    rw [heq]
    exact h.rep.seg.store (Nat.le_of_eq h.rep.end_eq) huse v

theorem inv_reached {m : Mem} {s : State} (h : Reached m s) : ∃ bs, Inv s bs := by
  induction h with
  | init => exact ⟨_, inv_init m⟩
  | step _ hst ih =>
    obtain ⟨bs, hinv⟩ := ih
    exact hinv.step hst

/-! ## What a heap state looks like -/

/-- Following `next` from `cur` visits exactly the headers `hs` and ends at null. -/
def Walk (m : Mem) : UInt32 → List UInt32 → Prop
  | cur, [] => cur = 0
  | cur, h :: hs => cur = h ∧ h ≠ 0 ∧ Walk m (m.word (h + 8)) hs

/-- The extents of the headers, `12 + size` bytes each, tile the range from `a` to `e`. -/
def Tiles (m : Mem) (e : Nat) : Nat → List UInt32 → Prop
  | a, [] => a = e
  | a, h :: hs => h.toNat = a ∧ Tiles m e (a + 12 + (m.word h).toNat) hs

/-- The walk from `heap_head` visits the headers `hs`, and these are as they should be. -/
structure Blocks (s : State) (hs : List UInt32) : Prop where
  walk : Walk s.heap.mem s.heap.head hs
  tiles : Tiles s.heap.mem (heapStart + heapSize) heapStart hs
  increasing : hs.Pairwise fun h h' => h.toNat < h'.toNat
  aligned : ∀ h ∈ hs, 4 ∣ h.toNat ∧ 4 ∣ (s.heap.mem.word h).toNat
  apart : hs.IsChain fun h h' => ¬ (s.heap.mem.word (h + 4) ≠ 0 ∧ s.heap.mem.word (h' + 4) ≠ 0)
  /-- The blocks in use are the live pointers, each with its payload size. -/
  live : ∀ e, e ∈ s.live ↔ ∃ h ∈ hs, s.heap.mem.word (h + 4) = 0 ∧ e.1 = h + 12 ∧
    e.2 = (s.heap.mem.word h).toNat
  sums : ∃ used free, kheapUsed s.heap = some used ∧ kheapFree s.heap = some free ∧
    used.toNat + free.toNat + 12 * hs.length = heapSize

structure HeapInv (s : State) : Prop where
  blocks : ∃ hs, Blocks s hs
  /-- Payloads are inside the heap, and between two of them there is room for a header. -/
  inside : ∀ e ∈ s.live, heapStart + 12 ≤ e.1.toNat ∧ e.1.toNat + e.2 ≤ heapStart + heapSize
  disjoint : s.live.Pairwise fun e e' =>
    e.1.toNat + e.2 + 12 ≤ e'.1.toNat ∨ e'.1.toNat + e'.2 + 12 ≤ e.1.toNat
  /-- Every call returns and leaves the payloads of the pointers that stay live as they were. -/
  kmalloc : ∀ n, ∃ p h, kmalloc n s.heap = some (p, h) ∧ ∀ e ∈ s.live, ∀ k, k < e.2 →
    h.mem (e.1 + UInt32.ofNat k) = s.heap.mem (e.1 + UInt32.ofNat k)
  kfree : ∀ e ∈ s.live, ∃ h, kfree e.1 s.heap = some h ∧ ∀ e' ∈ s.live.erase e, ∀ k, k < e'.2 →
    h.mem (e'.1 + UInt32.ofNat k) = s.heap.mem (e'.1 + UInt32.ofNat k)

/-- The headers of the blocks `bs` laid out from `a` on. -/
def headers : Nat → List Blk → List UInt32
  | _, [] => []
  | a, b :: bs => UInt32.ofNat a :: headers (a + 12 + b.size) bs

theorem mem_headers {a : Nat} {bs : List Blk} {h : UInt32} :
    h ∈ headers a bs ↔ ∃ pre b post, bs = pre ++ b :: post ∧ h = UInt32.ofNat (a + total 12 pre) := by
  induction bs generalizing a with
  | nil => simp [headers]
  | cons c bs ih =>
    rw [headers, List.mem_cons, ih]
    constructor
    · rintro (rfl | ⟨pre, b, post, rfl, rfl⟩)
      · exact ⟨[], c, bs, rfl, rfl⟩
      · refine ⟨c :: pre, b, post, rfl, ?_⟩
        rw [total, show a + 12 + c.size + total 12 pre = a + (12 + c.size + total 12 pre) by omega]
    · rintro ⟨pre, b, post, hbs, rfl⟩
      cases pre with
      | nil => exact Or.inl rfl
      | cons d pre =>
        obtain ⟨rfl, rfl⟩ : c = d ∧ bs = pre ++ b :: post := by simpa using hbs
        refine Or.inr ⟨pre, b, post, rfl, ?_⟩
        rw [total, show a + 12 + c.size + total 12 pre = a + (12 + c.size + total 12 pre) by omega]

theorem length_headers (a : Nat) (bs : List Blk) : (headers a bs).length = bs.length := by
  induction bs generalizing a with
  | nil => rfl
  | cons b bs ih => rw [headers, List.length_cons, ih, List.length_cons]

section Layout

variable {m : Mem} {bs : List Blk} {a : Nat}

theorem Seg.walk (h : Seg m a bs) (ha : 0 < a) (hend : a + total 12 bs = heapEnd) :
    Walk m (link a) (headers a bs) := by
  have hE : heapEnd = 0x800000 := rfl
  induction bs generalizing a with
  | nil =>
    rw [show a = heapEnd from hend]
    exact link_heapEnd
  | cons b bs ih =>
    rw [total] at hend
    refine ⟨link_of_lt (by omega), ofNat_ne_zero ha (by omega), ?_⟩
    rw [ofNat_add8, h.1.next]
    exact ih h.2 (by omega) (by omega)

theorem Seg.tiles (h : Seg m a bs) (hend : a + total 12 bs = heapEnd) :
    Tiles m heapEnd a (headers a bs) := by
  have hE : heapEnd = 0x800000 := rfl
  induction bs generalizing a with
  | nil => exact hend
  | cons b bs ih =>
    rw [total] at hend
    refine ⟨toNat_ofNat (by omega), ?_⟩
    rw [h.1.size, toNat_ofNat (by omega)]
    exact ih h.2 (by omega)

theorem headers_increasing (hend : a + total 12 bs ≤ heapEnd) :
    (headers a bs).Pairwise fun h h' => h.toNat < h'.toNat := by
  have hE : heapEnd = 0x800000 := rfl
  induction bs generalizing a with
  | nil => exact List.Pairwise.nil
  | cons b bs ih =>
    rw [total] at hend
    refine List.pairwise_cons.mpr ⟨?_, ih (by omega)⟩
    intro h hh
    obtain ⟨pre, c, post, rfl, rfl⟩ := mem_headers.mp hh
    rw [total_append, total] at hend
    rw [toNat_ofNat (by omega), toNat_ofNat (by omega)]
    omega

theorem Seg.apart (h : Seg m a bs) (hfree : NoAdjacentFree bs) :
    (headers a bs).IsChain fun h h' => ¬ (m.word (h + 4) ≠ 0 ∧ m.word (h' + 4) ≠ 0) := by
  induction bs generalizing a with
  | nil => exact List.isChain_nil
  | cons b bs ih =>
    obtain ⟨hnext, hrest⟩ := List.isChain_cons.mp hfree
    refine List.isChain_cons.mpr ⟨?_, ih h.2 hrest⟩
    cases bs with
    | nil => exact fun y hy => absurd hy (by simp [headers])
    | cons c bs =>
      intro y hy
      obtain rfl : UInt32.ofNat (a + 12 + b.size) = y := by simpa [headers] using hy
      have hbc := hnext c rfl
      rw [ofNat_add4, ofNat_add4, h.1.free, h.2.1.free]
      revert hbc
      cases b.free <;> cases c.free <;> simp

-- The header at a given place among the blocks.
theorem Seg.hdrAt {pre post : List Blk} {b : Blk} (h : Seg m a (pre ++ b :: post)) :
    HdrAt m (a + total 12 pre) b := (seg_append.mp h).2.1

end Layout

namespace Inv

variable {s : State} {bs : List Blk}

-- Where a header stands, and what it says.
theorem header_at {pre post : List Blk} {b : Blk} (h : Inv s (pre ++ b :: post)) :
    heapStart + total 12 pre + 12 + b.size ≤ heapEnd ∧
      HdrAt s.heap.mem (heapStart + total 12 pre) b := by
  have hend := h.rep.end_eq
  rw [total_append, total] at hend
  exact ⟨by omega, h.rep.seg.hdrAt⟩

theorem aligned (h : Inv s bs) :
    ∀ x ∈ headers heapStart bs, 4 ∣ x.toNat ∧ 4 ∣ (s.heap.mem.word x).toNat := by
  have hE : heapEnd = 0x800000 := rfl
  have hS : heapStart = 0x400000 := rfl
  intro x hx
  obtain ⟨pre, b, post, rfl, rfl⟩ := mem_headers.mp hx
  obtain ⟨hend, hb⟩ := h.header_at
  have hpre : 4 ∣ total 12 pre := by
    apply dvd_total (by decide)
    exact fun c hc => h.rep.aligned c (List.mem_append_left _ hc)
  have hb4 := h.rep.aligned b (by simp)
  rw [hb.size, toNat_ofNat (by omega), toNat_ofNat (by omega)]
  exact ⟨by omega, hb4⟩

-- The blocks in use are those of the live pointers.
theorem mem_live_iff (h : Inv s bs) (e : UInt32 × Nat) :
    e ∈ s.live ↔ ∃ x ∈ headers heapStart bs, s.heap.mem.word (x + 4) = 0 ∧ e.1 = x + 12 ∧
      e.2 = (s.heap.mem.word x).toNat := by
  have hE : heapEnd = 0x800000 := rfl
  constructor
  · intro he
    obtain ⟨pre, post, rfl, hp⟩ := h.split he
    obtain ⟨hend, hb⟩ := h.header_at
    refine ⟨UInt32.ofNat (heapStart + total 12 pre), mem_headers.mpr ⟨pre, _, post, rfl, rfl⟩, ?_, ?_, ?_⟩
    · rw [ofNat_add4, hb.free]
      rfl
    · rw [ofNat_add12, hp]
    · rw [hb.size, toNat_ofNat (by dsimp only at hend ⊢; omega)]
  · rintro ⟨x, hx, hfree, h1, h2⟩
    obtain ⟨pre, b, post, rfl, rfl⟩ := mem_headers.mp hx
    obtain ⟨hend, hb⟩ := h.header_at
    rw [ofNat_add4, hb.free] at hfree
    have hused : b.free = false := by
      revert hfree
      cases b.free <;> simp
    rw [hb.size, toNat_ofNat (by omega)] at h2
    rw [ofNat_add12] at h1
    have hext : extent e = (heapStart + total 12 pre + 12, b.size) := by
      unfold extent
      rw [h1, h2, toNat_ofNat (by omega)]
    have hin : extent e ∈ s.live.map extent := by
      rw [h.live.mem_iff, hext, owned_append, owned, if_neg (by rw [hused]; exact Bool.false_ne_true)]
      exact List.mem_append_right _ List.mem_cons_self
    obtain ⟨e', he', heq⟩ := List.mem_map.mp hin
    obtain ⟨hp, hs⟩ : e'.1.toNat = e.1.toNat ∧ e'.2 = e.2 := by simpa [extent] using heq
    rwa [show e = e' from Prod.ext (UInt32.toNat_inj.mp hp.symm) hs.symm]

theorem sums (h : Inv s bs) : ∃ used free, kheapUsed s.heap = some used ∧
    kheapFree s.heap = some free ∧ used.toNat + free.toNat + 12 * bs.length = heapSize := by
  have hsum : ∀ f, sumLoop f s.heap.mem heapSize s.heap.head 0 =
      some (UInt32.ofNat (sumSizes f bs)) := by
    intro f
    have hloop := sumLoop_spec f bs (by decide) h.rep.seg h.rep.end_eq heapSize h.rep.length_lt 0
    rw [link_of_lt (by decide), ← h.head, Nat.zero_add] at hloop
    exact hloop
  have htotal := h.rep.total
  have hH : heapSize = 0x400000 := rfl
  rw [total_eq_sums] at htotal
  refine ⟨_, _, hsum false, hsum true, ?_⟩
  rw [toNat_ofNat (by omega), toNat_ofNat (by omega)]
  exact htotal

-- Between two payloads there is room for a header.
theorem live_apart (h : Inv s bs) : s.live.Pairwise fun e e' =>
    e.1.toNat + e.2 + 12 ≤ e'.1.toNat ∨ e'.1.toNat + e'.2 + 12 ≤ e.1.toNat := by
  have hpair := owned_pairwise 12 heapStart bs
  have hsym : (owned 12 heapStart bs).Pairwise fun x y => x.1 + x.2 + 12 ≤ y.1 ∨ y.1 + y.2 + 12 ≤ x.1 :=
    hpair.imp Or.inl
  have hlive := (h.live.pairwise_iff (fun hxy => Or.symm hxy)).mpr hsym
  exact List.pairwise_map.mp hlive

theorem blocks (h : Inv s bs) : Blocks s (headers heapStart bs) := by
  have hend := h.rep.end_eq
  refine ⟨?_, h.rep.seg.tiles hend, headers_increasing (Nat.le_of_eq hend), h.aligned,
    h.rep.seg.apart h.rep.apart, h.mem_live_iff, ?_⟩
  · rw [h.head, ← link_of_lt (a := heapStart) (by decide)]
    exact h.rep.seg.walk (by decide) hend
  · rw [length_headers]
    exact h.sums

end Inv

/-- The heap keeps its shape along every run. -/
theorem heapInv_reached {m : Mem} {s : State} (h : Reached m s) : HeapInv s := by
  obtain ⟨bs, hinv⟩ := inv_reached h
  refine ⟨⟨_, hinv.blocks⟩, ?_, ?_, ?_, ?_⟩
  · intro e he
    have hr := owned_range (p := e.1.toNat) (s := e.2) (hinv.mem_owned he)
    rw [hinv.rep.total] at hr
    exact hr
  · exact hinv.live_apart
  · intro n
    obtain ⟨p, h', hrun, hkeep, -⟩ := hinv.kmalloc_returns n
    exact ⟨p, h', hrun, hkeep⟩
  · intro e he
    obtain ⟨h', hrun, hkeep, -⟩ := hinv.kfree_returns he
    exact ⟨h', hrun, hkeep⟩

-- One allocation from a fresh heap.
theorem heapInv_reached_kmalloc :
    ∃ p h, kmalloc 16 (kheapInit fun _ => 0) = some (p, h) ∧
      HeapInv ⟨h, if p = 0 then [] else [(p, (h.mem.word (p - 12)).toNat)]⟩ := by
  obtain ⟨p, h, hrun, -⟩ := (inv_init fun _ => 0).kmalloc_returns 16
  exact ⟨p, h, hrun, heapInv_reached (.step .init (.kmalloc 16 hrun))⟩

end JacobOS.Kheap
