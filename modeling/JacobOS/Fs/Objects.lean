import JacobOS.Fs.FlatDisk

/-!
# What an inode holds, and what an operation leaves alone

`Inode.ptrs` are the blocks of an inode in order, `slotsAt` the dirents in them and `contentAt` the
file bytes.  `Frame S d e` says that going from `d` to `e` changed no inode outside `S`, nor any block
of such an inode, nor the superblock.
-/

namespace JacobOS.Fs

open BlockProgram Ownership

namespace Inode

/-- The non-zero pointers are exactly the first `m`. -/
def Filled (n : Inode) (m : Nat) : Prop := ∀ b, n.ptr b ≠ 0 ↔ b < m

/-- The blocks the loops `for (b = 0; b < DIRECT && blocks[b]; b++)` visit. -/
def ptrs (n : Inode) : List Nat := (n.blocks.toList.takeWhile (· ≠ 0)).map UInt32.toNat

theorem blocks_toList (n : Inode) : n.blocks.toList = (List.range 14).map n.ptr := by
  apply List.ext_getElem
  · simp
  · intro b h1 h2
    have hb : b < 14 := by simpa using h1
    rw [Vector.getElem_toList, List.getElem_map, List.getElem_range, ptr, dif_pos hb]

namespace Filled

variable {n : Inode} {m : Nat}

theorem le (h : n.Filled m) : m ≤ 14 := by
  by_contra hm
  exact (h 14).mpr (by omega) (ptr_of_le n (by omega))

theorem unique {m' : Nat} (h : n.Filled m) (h' : n.Filled m') : m = m' := by
  by_contra hne
  rcases Nat.lt_or_gt_of_ne hne with hlt | hgt
  · exact absurd ((h m).mp ((h' m).mpr hlt)) (by omega)
  · exact absurd ((h' m').mp ((h m').mpr hgt)) (by omega)

theorem ptr_eq_zero (h : n.Filled m) {b : Nat} (hb : m ≤ b) : n.ptr b = 0 := by
  by_contra hp
  have hlt := (h b).mp hp
  omega

theorem ptrs_eq (h : n.Filled m) : n.ptrs = (List.range m).map fun b => (n.ptr b).toNat := by
  have hsplit : List.range 14 = List.range m ++ (List.range (14 - m)).map (m + ·) := by
    rw [← List.range_add, Nat.add_sub_cancel' h.le]
  have hpre : ∀ p ∈ (List.range m).map n.ptr, (decide (p ≠ 0)) = true := by
    intro p hp
    obtain ⟨b, hb, rfl⟩ := List.mem_map.mp hp
    simpa using (h b).mpr (List.mem_range.mp hb)
  have hpost : (((List.range (14 - m)).map (m + ·)).map n.ptr).takeWhile (· ≠ 0) = [] := by
    cases hk : 14 - m with
    | zero => rfl
    | succ k =>
      rw [List.range_succ_eq_map, List.map_cons, List.map_cons, List.takeWhile_cons,
        h.ptr_eq_zero (by omega)]
      rfl
  unfold ptrs
  rw [blocks_toList, hsplit, List.map_append, List.takeWhile_append_of_pos hpre, hpost,
    List.append_nil, List.map_map]
  rfl

theorem length_ptrs (h : n.Filled m) : n.ptrs.length = m := by
  rw [h.ptrs_eq, List.length_map, List.length_range]

theorem mem_ptrs (h : n.Filled m) {p : Nat} :
    p ∈ n.ptrs ↔ ∃ b, b < m ∧ (n.ptr b).toNat = p := by
  rw [h.ptrs_eq, List.mem_map]
  simp only [List.mem_range]

-- Adding a pointer right after the filled ones.
theorem snoc (h : n.Filled m) {n' : Inode} {p : UInt32} (hp : p ≠ 0)
    (hn : ∀ c, n'.ptr c = if c = m then p else n.ptr c) : n'.Filled (m + 1) := by
  intro b
  rw [hn]
  by_cases hb : b = m
  · simp [hb, hp]
  · rw [if_neg hb, h b]
    omega

theorem ptrs_snoc (h : n.Filled m) {n' : Inode} {p : UInt32} (hp : p ≠ 0)
    (hn : ∀ c, n'.ptr c = if c = m then p else n.ptr c) : n'.ptrs = n.ptrs ++ [p.toNat] := by
  rw [(h.snoc hp hn).ptrs_eq, h.ptrs_eq, List.range_succ, List.map_append]
  congr 1
  · apply List.map_congr_left
    intro b hb
    rw [hn, if_neg (by have := List.mem_range.mp hb; omega)]
  · rw [List.map_singleton, hn, if_pos rfl]

end Filled

theorem filled_zero : zero.Filled 0 := by
  intro b
  simp

end Inode

/-! ## Contents -/

/-- The sixteen dirents of a block. -/
def Block.dirents (b : Block) : List Dirent := (List.range 16).map b.dirent

def slotsOf (d : Disk) (ps : List Nat) : List Dirent := ps.flatMap fun p => (d p).dirents

def slotsAt (d : Disk) (i : Nat) : List Dirent := slotsOf d (inodeAt d i).ptrs

def typeAt (d : Disk) (i : Nat) : UInt32 := (inodeAt d i).type

/-- The first `size` bytes of the inode's blocks. -/
def contentAt (d : Disk) (i : Nat) : List UInt8 :=
  ((inodeAt d i).ptrs.flatMap fun p => (d p).toList).take (inodeAt d i).size.toNat

theorem slotsOf_congr {d e : Disk} {ps : List Nat} (h : ∀ p ∈ ps, e p = d p) :
    slotsOf e ps = slotsOf d ps := by
  unfold slotsOf
  rw [List.flatMap_def, List.flatMap_def]
  congr 1
  apply List.map_congr_left
  intro p hp
  rw [h p hp]

@[simp] theorem length_dirents (b : Block) : b.dirents.length = 16 := by
  simp [Block.dirents]

theorem length_slotsOf (d : Disk) (ps : List Nat) : (slotsOf d ps).length = 16 * ps.length := by
  induction ps with
  | nil => rfl
  | cons p ps ih =>
    rw [slotsOf, List.flatMap_cons, List.length_append, length_dirents]
    show 16 + (slotsOf d ps).length = _
    rw [ih, List.length_cons]
    omega

/-! ## Frames -/

structure Frame (S : Nat → Prop) (d e : Disk) : Prop where
  super : e 0 = d 0
  inode : ∀ j, j < 64 → ¬ S j → inodeAt e j = inodeAt d j
  blocks : ∀ j, j < 64 → ¬ S j → ∀ p ∈ (inodeAt d j).ptrs, e p = d p

namespace Frame

variable {S T : Nat → Prop} {d e f : Disk}

theorem refl (S : Nat → Prop) (d : Disk) : Frame S d d := ⟨rfl, fun _ _ _ => rfl, fun _ _ _ _ _ => rfl⟩

theorem trans (h : Frame S d e) (h' : Frame T e f) : Frame (fun j => S j ∨ T j) d f := by
  refine ⟨h'.super.trans h.super, ?_, ?_⟩
  · intro j hj hST
    rw [h'.inode j hj fun ht => hST (Or.inr ht), h.inode j hj fun hs => hST (Or.inl hs)]
  · intro j hj hST p hp
    have hino := h.inode j hj fun hs => hST (Or.inl hs)
    rw [h'.blocks j hj (fun ht => hST (Or.inr ht)) p (hino ▸ hp),
      h.blocks j hj (fun hs => hST (Or.inl hs)) p hp]

theorem mono (h : Frame S d e) (hST : ∀ j, S j → T j) : Frame T d e :=
  ⟨h.super, fun j hj ht => h.inode j hj fun hs => ht (hST j hs),
    fun j hj ht => h.blocks j hj fun hs => ht (hST j hs)⟩

theorem swap (h : Frame (fun j => S j ∨ T j) d e) : Frame (fun j => T j ∨ S j) d e :=
  h.mono fun _ => Or.symm

theorem typeAt (h : Frame S d e) {j : Nat} (hj : j < 64) (hS : ¬ S j) :
    typeAt e j = typeAt d j := by
  unfold Fs.typeAt
  rw [h.inode j hj hS]

theorem slotsAt (h : Frame S d e) {j : Nat} (hj : j < 64) (hS : ¬ S j) :
    slotsAt e j = slotsAt d j := by
  unfold Fs.slotsAt
  rw [h.inode j hj hS, slotsOf_congr (h.blocks j hj hS)]

theorem contentAt (h : Frame S d e) {j : Nat} (hj : j < 64) (hS : ¬ S j) :
    contentAt e j = contentAt d j := by
  have hblocks : ((inodeAt d j).ptrs.flatMap fun p => (e p).toList) =
      (inodeAt d j).ptrs.flatMap fun p => (d p).toList := by
    rw [List.flatMap_def, List.flatMap_def]
    congr 1
    apply List.map_congr_left
    intro p hp
    rw [h.blocks j hj hS p hp]
  unfold Fs.contentAt
  rw [h.inode j hj hS, hblocks]

end Frame

/-! ## Ownership and the table on disk -/

namespace Mapped

variable {d : Disk}

theorem ptrs_range (h : Mapped d (table d)) {i p : Nat} (hi : i < 64) {m : Nat}
    (hf : (inodeAt d i).Filled m) (hp : p ∈ (inodeAt d i).ptrs) : 16 ≤ p ∧ p < 2064 := by
  obtain ⟨b, hb, rfl⟩ := hf.mem_ptrs.mp hp
  exact h.ptr_range (i := ⟨i, hi⟩) ((hf b).mpr hb)

theorem ptrs_nodup (h : Mapped d (table d)) {i : Nat} (hi : i < 64) {m : Nat}
    (hf : (inodeAt d i).Filled m) : (inodeAt d i).ptrs.Nodup := by
  rw [hf.ptrs_eq]
  apply List.Nodup.map_on _ List.nodup_range
  intro b hb c hc he
  have hb' := (hf b).mpr (List.mem_range.mp hb)
  exact (h.ptr_inj (i := ⟨i, hi⟩) (j := ⟨i, hi⟩) hb' (UInt32.toNat_inj.mp he)).2

theorem ptrs_disjoint (h : Mapped d (table d)) {i j p : Nat} (hi : i < 64) (hj : j < 64)
    (hij : i ≠ j) {m k : Nat} (hfi : (inodeAt d i).Filled m) (hfj : (inodeAt d j).Filled k)
    (hp : p ∈ (inodeAt d i).ptrs) : p ∉ (inodeAt d j).ptrs := by
  intro hq
  obtain ⟨b, hb, rfl⟩ := hfi.mem_ptrs.mp hp
  obtain ⟨c, hc, he⟩ := hfj.mem_ptrs.mp hq
  have hsame := h.ptr_inj (i := ⟨i, hi⟩) (j := ⟨j, hj⟩) ((hfi b).mpr hb) (UInt32.toNat_inj.mp he.symm)
  exact hij (congrArg Fin.val hsame.1)

theorem table_putInode {i : Nat} (hi : i < 64) (n : Inode) :
    table (putInode d i n) = Function.update (table d) ⟨i, hi⟩ n := by
  funext j
  unfold table
  by_cases hj : j = ⟨i, hi⟩
  · rw [hj, Function.update_self]
    exact inodeAt_putInode d i n
  · rw [Function.update_of_ne hj]
    exact inodeAt_putInode_other d (fun he => hj (Fin.ext he)) n

theorem update_table {i : Nat} (hi : i < 64) :
    Function.update (table d) ⟨i, hi⟩ (inodeAt d i) = table d :=
  Function.update_eq_self (⟨i, hi⟩ : Fin 64) (table d)

-- The pending inode is written: the table on disk is the one the bitmap was kept for.
theorem putInode_pending {e : Disk} {i : Nat} (hi : i < 64) {n : Inode}
    (h : Mapped e (Function.update (table d) ⟨i, hi⟩ n)) (htab : table e = table d) :
    Mapped (putInode e i n) (table (putInode e i n)) := by
  rw [table_putInode hi, htab]
  exact h.congr_disk (putInode_apply e hi n (Or.inr (Nat.le_refl 9)))

end Mapped

/-- Blocks that some inode of `tab` points to, and the metadata blocks other than the bitmap, are
the same in `e` as in `d`. -/
def KeepsOwned (tab : Fin 64 → Inode) (d e : Disk) : Prop :=
  ∀ p, p ≠ 9 → (p < 16 ∨ ∃ c, cell tab c = some p) → e p = d p

namespace KeepsOwned

variable {d e : Disk}

theorem table_eq {tab : Fin 64 → Inode} (h : KeepsOwned tab d e) : table e = table d := by
  funext i
  exact inodeAt_congr i.isLt fun p h1 h9 => h p (by omega) (Or.inl (by omega))

theorem refl (tab : Fin 64 → Inode) (d : Disk) : KeepsOwned tab d d := fun _ _ _ => rfl

-- Once inode `i` is written, nothing outside `i` has changed.
theorem frame {i : Nat} (hi : i < 64) {m n : Inode} (hmap : Mapped d (table d))
    (hfill : ∀ j, j < 64 → ∃ k, (inodeAt d j).Filled k)
    (h : KeepsOwned (Function.update (table d) ⟨i, hi⟩ m) d e) :
    Frame (· = i) d (putInode e i n) := by
  refine ⟨?_, ?_, ?_⟩
  · rw [putInode_apply e hi n (Or.inl rfl), h 0 (by decide) (Or.inl (by decide))]
  · intro j hj hji
    rw [inodeAt_putInode_other e hji n]
    exact congrFun h.table_eq ⟨j, hj⟩
  · intro j hj hji p hp
    obtain ⟨k, hk⟩ := hfill j hj
    have hlo := (hmap.ptrs_range hj hk hp).1
    obtain ⟨b, hb, rfl⟩ := hk.mem_ptrs.mp hp
    have hb14 : b < 14 := Nat.lt_of_lt_of_le hb hk.le
    rw [putInode_apply e hi n (Or.inr (by omega))]
    refine h _ (by omega) (Or.inr ⟨(⟨j, hj⟩, ⟨b, hb14⟩), cell_eq_some.mpr ?_⟩)
    rw [Function.update_of_ne (fun he => hji (congrArg Fin.val he))]
    exact ⟨(hk b).mpr hb, rfl⟩

end KeepsOwned

/-! ## Releasing the blocks of an inode -/

-- `freeBlocks` hands the blocks of the pointers `bs` back and zeroes the pointers; only the bitmap
-- block changes.
theorem run_freeBlocks {tab : Fin 64 → Inode} {i : Fin 64} (bs : List Nat) {d : Disk} {n : Inode}
    (h : Mapped d (Function.update tab i n)) :
    Mapped ((freeBlocks bs n).run flat d).2
        (Function.update tab i ((freeBlocks bs n).run flat d).1) ∧
      (∀ p, p ≠ 9 → ((freeBlocks bs n).run flat d).2 p = d p) ∧
      ((freeBlocks bs n).run flat d).1.type = n.type ∧
      ∀ c, ((freeBlocks bs n).run flat d).1.ptr c = if c ∈ bs then 0 else n.ptr c := by
  induction bs generalizing d n with
  | nil => exact ⟨h, fun _ _ => rfl, rfl, fun c => by simp [freeBlocks]⟩
  | cons b bs ih =>
    rw [freeBlocks]
    by_cases hp : n.ptr b ≠ 0
    · have hb : b < 14 := by
        by_contra hb
        exact hp (Inode.ptr_of_le n (by omega))
      have hself : (Function.update tab i n) i = n := Function.update_self ..
      have hrange := h.ptr_range (i := i) (b := b) (by rw [hself]; exact hp)
      have hdrop := h.drop (i := i) (b := b) (n := n.setPtr b 0) (by rw [hself]; exact hp)
        (fun c => by rw [hself, Inode.ptr_setPtr n 0 hb])
      rw [hself] at hrange hdrop
      rw [Function.update_idem] at hdrop
      rw [if_pos hp, Prog.run_bind, run_freeBlock hrange.1]
      obtain ⟨hmap, hkeep, htype, hptr⟩ := ih hdrop
      refine ⟨hmap, ?_, htype, ?_⟩
      · intro p h9
        rw [hkeep p h9, dropBlock_apply _ _ h9]
      · intro c
        rw [hptr c, Inode.ptr_setPtr n 0 hb]
        by_cases hc : c = b <;> simp [hc]
    · rw [if_neg hp]
      obtain ⟨hmap, hkeep, htype, hptr⟩ := ih h
      refine ⟨hmap, hkeep, htype, ?_⟩
      intro c
      rw [hptr c]
      by_cases hc : c = b
      · have h0 : n.ptr b = 0 := by simpa using hp
        simp [hc, h0]
      · simp [hc]

-- Every block of inode `i` goes back.
theorem run_freeInode {d : Disk} (h : Mapped d (table d)) {i : Nat} (hi : i < 64) :
    ∃ n e, (freeBlocks (List.range 14) (inodeAt d i)).run flat d = (n, e) ∧
      Mapped e (Function.update (table d) ⟨i, hi⟩ n) ∧ (∀ p, p ≠ 9 → e p = d p) ∧
      n.type = (inodeAt d i).type ∧ ∀ b, n.ptr b = 0 := by
  have hstart := h
  rw [← Mapped.update_table hi] at hstart
  obtain ⟨hmap, hkeep, htype, hptr⟩ := run_freeBlocks (List.range 14) hstart
  refine ⟨_, _, rfl, hmap, hkeep, htype, ?_⟩
  intro b
  rw [hptr]
  by_cases hb : b < 14
  · rw [if_pos (List.mem_range.mpr hb)]
  · rw [if_neg (fun hm => hb (List.mem_range.mp hm)), Inode.ptr_of_le _ (by omega)]

-- `sfs_unlink` walks the pointers of a copy it does not update, to the same effect on the disk.
theorem run_freeAll (bs : List Nat) (hbs : bs.Nodup) (hlt : ∀ b ∈ bs, b < 14) (n : Inode)
    (d : Disk) :
    (freeAll (bs.map n.ptr)).run flat d = ((), ((freeBlocks bs n).run flat d).2) := by
  induction bs generalizing d n with
  | nil => rfl
  | cons b bs ih =>
    obtain ⟨hnot, hnd⟩ := List.nodup_cons.mp hbs
    have hlt' : ∀ c ∈ bs, c < 14 := fun c hc => hlt c (List.mem_cons_of_mem b hc)
    rw [List.map_cons, freeAll, freeBlocks]
    by_cases hp : n.ptr b ≠ 0
    · have hrest : bs.map n.ptr = bs.map (n.setPtr b 0).ptr := by
        apply List.map_congr_left
        intro c hc
        rw [Inode.ptr_setPtr n 0 (hlt b List.mem_cons_self), if_neg (fun he : c = b => hnot (he ▸ hc))]
      rw [if_pos hp, if_pos hp, Prog.run_bind, Prog.run_bind, hrest]
      exact ih hnd hlt' _ _
    · rw [if_neg hp, if_neg hp]
      exact ih hnd hlt' _ _

/-! ## Filling fresh blocks -/

/-- Block `c` of a file of `len` bytes of `data`: its part of the data, padded with zeros. -/
def chunkBlock (data : Nat → UInt8) (len c : Nat) : Block :=
  Block.zero.blit 0 (min (len - 512 * c) 512) fun i => data (512 * c + i)

theorem cell_keep_of_empty {tab : Fin 64 → Inode} {i : Fin 64} {n n' : Inode} {b : Nat} {v : UInt32}
    (hempty : n.ptr b = 0) (hn : ∀ c, n'.ptr c = if c = b then v else n.ptr c)
    {c : Fin 64 × Fin 14} {p : Nat} (hc : cell (Function.update tab i n) c = some p) :
    cell (Function.update tab i n') c = some p := by
  rw [cell_eq_some] at hc ⊢
  by_cases hi : c.1 = i
  · rw [hi, Function.update_self] at hc ⊢
    have hcb : c.2.val ≠ b := by
      intro he
      rw [he] at hc
      exact hc.1 hempty
    rw [hn, if_neg hcb]
    exact hc
  · rw [Function.update_of_ne hi] at hc ⊢
    exact hc

/-- What the copy loop of `sfs_write` has done when it stops: inode `n'` holds the blocks of `n`
and then one fresh block for each remaining chunk. -/
structure WriteEffect (tab : Fin 64 → Inode) (i : Fin 64) (data : Nat → UInt8) (len b : Nat)
    (n n' : Inode) (d e : Disk) : Prop where
  mapped : Mapped e (Function.update tab i n')
  keeps : KeepsOwned (Function.update tab i n) d e
  type : n'.type = n.type
  filled : n'.Filled (max b ((len + 511) / 512))
  chunks : ∀ c, b ≤ c → c < (len + 511) / 512 → e (n'.ptr c).toNat = chunkBlock data len c
  old : ∀ c, c < b → n'.ptr c = n.ptr c

theorem run_writeLoop {tab : Fin 64 → Inode} {i : Fin 64} (data : Nat → UInt8) {len : Nat}
    (passes b : Nat) (hpasses : passes + b = 14) (hlen : len ≤ 14 * 512) {d : Disk} {n : Inode}
    (h : Mapped d (Function.update tab i n)) (hf : n.Filled b) (hb : 512 * b < len + 512) :
    ((writeLoop data len passes n (min len (512 * b)) b).run flat d).1.2 = len ∧
      WriteEffect tab i data len b n
        ((writeLoop data len passes n (min len (512 * b)) b).run flat d).1.1 d
        ((writeLoop data len passes n (min len (512 * b)) b).run flat d).2 := by
  induction passes generalizing b d n with
  | zero =>
    have hmin : min len (512 * b) = len := by omega
    refine ⟨hmin, h, KeepsOwned.refl _ _, rfl, ?_, ?_, fun _ _ => rfl⟩
    · rw [show max b ((len + 511) / 512) = b by omega]
      exact hf
    · intro c hc hc'
      omega
  | succ passes ih =>
    rw [writeLoop]
    by_cases hlt : min len (512 * b) < len
    · have hmin : min len (512 * b) = 512 * b := by omega
      obtain ⟨k, hk, halloc, hfree⟩ := h.alloc
      have hself : (Function.update tab i n) i = n := Function.update_self ..
      have hempty : n.ptr b = 0 := hf.ptr_eq_zero (Nat.le_refl b)
      have hne := Mapped.ofNat_block_ne_zero hk
      have hset : ∀ c, (n.setPtr b (UInt32.ofNat (16 + k))).ptr c =
          if c = b then UInt32.ofNat (16 + k) else n.ptr c :=
        fun c => Inode.ptr_setPtr n _ (by omega)
      have htake := h.take hk hfree (i := i) (b := b) (by omega) (by rw [hself]; exact hempty)
        (n := n.setPtr b (UInt32.ofNat (16 + k))) (fun c => by rw [hself]; exact hset c)
      rw [Function.update_idem] at htake
      -- the disk after this pass: the fresh block holds chunk `b`
      have hchunk : Block.zero.blit 0 (min (len - min len (512 * b)) 512)
          (fun j => data (min len (512 * b) + j)) = chunkBlock data len b := by
        rw [hmin]
        rfl
      have hmap := htake.congr_disk (e := Function.update (takeBlock d k) (16 + k)
        (chunkBlock data len b)) (Function.update_of_ne (by omega) ..)
      have hnext : min len (512 * b) + min (len - min len (512 * b)) 512 =
          min len (512 * (b + 1)) := by omega
      obtain ⟨hwritten, heff⟩ := ih (b + 1) (by omega) hmap (hf.snoc hne hset) (by omega)
      rw [if_pos hlt, Prog.run_bind, halloc]
      dsimp only
      rw [if_neg hne, Prog.run_bind, Mapped.ofNat_block hk, run_writeBlock, hchunk, hnext]
      refine ⟨hwritten, heff.mapped, ?_, heff.type, ?_, ?_, ?_⟩
      · intro p h9 hp
        have hpk : p ≠ 16 + k := by
          rcases hp with hlo | ⟨c, hc⟩
          · omega
          · intro he
            rw [he] at hc
            exact hfree _ _ (cell_eq_some.mp hc).2
        rw [heff.keeps p h9 (hp.imp_right fun ⟨c, hc⟩ => ⟨c, cell_keep_of_empty hempty hset hc⟩),
          Function.update_of_ne hpk, takeBlock_apply d k h9 hpk]
      · have hf' := heff.filled
        rwa [show max (b + 1) ((len + 511) / 512) = max b ((len + 511) / 512) by omega] at hf'
      · intro c hc hc'
        by_cases hcb : c = b
        · subst hcb
          rw [heff.old c (by omega), hset, if_pos rfl, Mapped.ofNat_block hk]
          have hcell : cell (Function.update tab i (n.setPtr c (UInt32.ofNat (16 + k))))
              (i, ⟨c, by omega⟩) = some (16 + k) := by
            rw [cell_eq_some, Function.update_self, hset, if_pos rfl]
            exact ⟨hne, Mapped.ofNat_block hk⟩
          rw [heff.keeps (16 + k) (by omega) (Or.inr ⟨_, hcell⟩), Function.update_self]
        · exact heff.chunks c (by omega) hc'
      · intro c hc
        rw [heff.old c (by omega), hset, if_neg (by omega)]
    · have hmin : min len (512 * b) = len := by omega
      rw [if_neg hlt]
      refine ⟨hmin, h, KeepsOwned.refl _ _, rfl, ?_, ?_, fun _ _ => rfl⟩
      · rw [show max b ((len + 511) / 512) = b by omega]
        exact hf
      · intro c hc hc'
        omega

end JacobOS.Fs
