import JacobOS.Fs.Sfs
import JacobOS.Lib.Ownership
import Mathlib.Data.Fintype.Prod
import Mathlib.Order.Interval.Finset.Nat

/-!
# SFS on the flat disk: inodes, the bitmap and block ownership

`Mapped d tab` says that the bitmap of `d` records exactly the blocks that the inodes `tab` point
to.  The table is a parameter: while an operation holds a modified inode in memory, the invariant is
kept for the table with that inode in place of the one still on disk.
-/

namespace JacobOS.Fs

open BlockProgram Ownership

abbrev Disk := Nat → Block

def inodeAt (d : Disk) (i : Nat) : Inode := (d (1 + i / 8)).inode (i % 8)

def putInode (d : Disk) (i : Nat) (n : Inode) : Disk :=
  Function.update d (1 + i / 8) ((d (1 + i / 8)).setInode (i % 8) n)

/-- The disk after the bitmap bit of data block `k` is set and the block zeroed. -/
def takeBlock (d : Disk) (k : Nat) : Disk :=
  Function.update (Function.update d 9 ((d 9).orBit k)) (16 + k) Block.zero

def dropBlock (d : Disk) (k : Nat) : Disk := Function.update d 9 ((d 9).clearBit k)

/-- The first inode `alloc_inode` finds free. -/
def firstFree (d : Disk) : Option Nat :=
  (List.range 64).find? fun i => (inodeAt d i).type = sfsFree

/-! ## Runs of the block-level helpers -/

@[simp] theorem run_readBlock (blk : Nat) (d : Disk) :
    (readBlock blk).run flat d = (d blk, d) := rfl

@[simp] theorem run_writeBlock (blk : Nat) (buf : Block) (d : Disk) :
    (writeBlock blk buf).run flat d = ((), Function.update d blk buf) := rfl

@[simp] theorem run_readInode (i : Nat) (d : Disk) :
    (readInode i).run flat d = (inodeAt d i, d) := rfl

@[simp] theorem run_writeInode (i : Nat) (n : Inode) (d : Disk) :
    (writeInode i n).run flat d = ((), putInode d i n) := rfl

theorem run_allocInodeLoop (is : List Nat) (d : Disk) :
    (allocInodeLoop is).run flat d = (is.find? (fun i => (inodeAt d i).type = sfsFree), d) := by
  induction is with
  | nil => rfl
  | cons i is ih =>
    rw [allocInodeLoop, Prog.run_bind, run_readInode, List.find?_cons]
    by_cases h : (inodeAt d i).type = sfsFree
    · simp [h]
    · simp [h, ih]

@[simp] theorem run_allocInode (d : Disk) : allocInode.run flat d = (firstFree d, d) :=
  run_allocInodeLoop _ d

theorem run_allocBlock_some {d : Disk} {k : Nat}
    (h : (List.range 2048).find? (fun i => !(d 9).bit i) = some k) :
    allocBlock.run flat d = (UInt32.ofNat (16 + k), takeBlock d k) := by
  rw [allocBlock, Prog.run_bind, run_readBlock]
  dsimp only
  rw [h]
  rfl

@[simp] theorem run_freeBlock {p : UInt32} (h : 16 ≤ p.toNat) (d : Disk) :
    (freeBlock p).run flat d = ((), dropBlock d (p.toNat - 16)) := by
  rw [freeBlock, if_neg (by omega)]
  rfl

/-! ## What an update changes -/

theorem inodeAt_putInode (d : Disk) (i : Nat) (n : Inode) : inodeAt (putInode d i n) i = n := by
  unfold inodeAt putInode
  rw [Function.update_self, Block.inode_setInode _ (Nat.mod_lt _ (by decide))]

theorem inodeAt_putInode_other (d : Disk) {i j : Nat} (h : j ≠ i) (n : Inode) :
    inodeAt (putInode d i n) j = inodeAt d j := by
  unfold inodeAt putInode
  by_cases hb : 1 + j / 8 = 1 + i / 8
  · rw [hb, Function.update_self, Block.inode_setInode_other _ (by omega)]
  · rw [Function.update_of_ne hb]

theorem putInode_apply (d : Disk) {i : Nat} (hi : i < 64) (n : Inode) {p : Nat}
    (hp : p = 0 ∨ 9 ≤ p) : putInode d i n p = d p := by
  unfold putInode
  rw [Function.update_of_ne (by omega)]

theorem inodeAt_congr {d e : Disk} {i : Nat} (hi : i < 64)
    (h : ∀ p, 1 ≤ p → p < 9 → e p = d p) : inodeAt e i = inodeAt d i := by
  unfold inodeAt
  rw [h _ (by omega) (by omega)]

theorem takeBlock_apply (d : Disk) (k : Nat) {p : Nat} (h9 : p ≠ 9) (hk : p ≠ 16 + k) :
    takeBlock d k p = d p := by
  unfold takeBlock
  rw [Function.update_of_ne hk, Function.update_of_ne h9]

theorem bit_takeBlock (d : Disk) {k : Nat} (hk : k < 2048) (j : Nat) :
    (takeBlock d k 9).bit j = ((d 9).bit j || decide (k = j)) := by
  unfold takeBlock
  rw [Function.update_of_ne (by omega), Function.update_self, Block.bit_orBit _ (by omega)]

theorem dropBlock_apply (d : Disk) (k : Nat) {p : Nat} (h9 : p ≠ 9) : dropBlock d k p = d p :=
  Function.update_of_ne h9 ..

theorem bit_dropBlock (d : Disk) {k : Nat} (hk : k < 2048) (j : Nat) :
    (dropBlock d k 9).bit j = ((d 9).bit j && !decide (k = j)) := by
  unfold dropBlock
  rw [Function.update_self, Block.bit_clearBit _ (by omega)]

/-! ## Block ownership -/

/-- The block that pointer `b` of inode `i` names. -/
def cell (tab : Fin 64 → Inode) (c : Fin 64 × Fin 14) : Option Nat :=
  if (tab c.1).ptr c.2 = 0 then none else some ((tab c.1).ptr c.2).toNat

/-- Block `p` is a data block whose bitmap bit is set. -/
def UsedBlock (d : Disk) (p : Nat) : Prop := 16 ≤ p ∧ (d 9).bit (p - 16) = true

structure Mapped (d : Disk) (tab : Fin 64 → Inode) : Prop where
  owned : Owned (cell tab) (UsedBlock d)
  bound : ∀ {c p}, cell tab c = some p → p < 2064

/-- The inode table as it stands on disk. -/
def table (d : Disk) (i : Fin 64) : Inode := inodeAt d i

theorem cell_eq_none {tab : Fin 64 → Inode} {c : Fin 64 × Fin 14} :
    cell tab c = none ↔ (tab c.1).ptr c.2 = 0 := by
  unfold cell
  split <;> simp_all

theorem cell_eq_some {tab : Fin 64 → Inode} {c : Fin 64 × Fin 14} {p : Nat} :
    cell tab c = some p ↔ (tab c.1).ptr c.2 ≠ 0 ∧ ((tab c.1).ptr c.2).toNat = p := by
  unfold cell
  split <;> simp_all

-- Changing one pointer of one inode changes one cell.
theorem cell_update (tab : Fin 64 → Inode) {i : Fin 64} {b : Fin 14} {n : Inode} {v : UInt32}
    (hn : ∀ c, n.ptr c = if c = b.val then v else (tab i).ptr c) :
    cell (Function.update tab i n) =
      Function.update (cell tab) (i, b) (if v = 0 then none else some v.toNat) := by
  funext c
  obtain ⟨j, e⟩ := c
  by_cases hc : (j, e) = (i, b)
  · obtain ⟨rfl, rfl⟩ := Prod.mk.injEq .. ▸ hc
    rw [Function.update_self, cell, Function.update_self, hn, if_pos rfl]
  · rw [Function.update_of_ne hc]
    unfold cell
    by_cases hj : j = i
    · subst hj
      have he : e.val ≠ b.val := fun h => hc (by rw [Fin.ext h])
      rw [Function.update_self, hn, if_neg he]
    · rw [Function.update_of_ne hj]

namespace Mapped

variable {d : Disk} {tab : Fin 64 → Inode}

theorem congr_disk {e : Disk} (h : Mapped d tab) (he : e 9 = d 9) : Mapped e tab := by
  have hused : UsedBlock e = UsedBlock d := by
    funext p
    unfold UsedBlock
    rw [he]
  exact ⟨hused ▸ h.owned, h.bound⟩

theorem congr_table {tab' : Fin 64 → Inode} (h : Mapped d tab)
    (ht : ∀ i b, (tab' i).ptr b = (tab i).ptr b) : Mapped d tab' := by
  have hcell : cell tab' = cell tab := by
    funext c
    unfold cell
    rw [ht]
  refine ⟨hcell ▸ h.owned, ?_⟩
  intro c p hc
  rw [hcell] at hc
  exact h.bound hc

theorem congr_inode {i : Fin 64} {n n' : Inode} (h : Mapped d (Function.update tab i n))
    (hn : ∀ b, n'.ptr b = n.ptr b) : Mapped d (Function.update tab i n') := by
  apply h.congr_table
  intro j b
  by_cases hj : j = i
  · rw [hj, Function.update_self, Function.update_self, hn]
  · rw [Function.update_of_ne hj, Function.update_of_ne hj]

theorem ptr_range (h : Mapped d tab) {i : Fin 64} {b : Nat} (hp : (tab i).ptr b ≠ 0) :
    16 ≤ ((tab i).ptr b).toNat ∧ ((tab i).ptr b).toNat < 2064 := by
  have hb : b < 14 := by
    by_contra hb
    exact hp (Inode.ptr_of_le _ (by omega))
  have hc : cell tab (i, ⟨b, hb⟩) = some ((tab i).ptr b).toNat := cell_eq_some.mpr ⟨hp, rfl⟩
  exact ⟨((h.owned.used_iff _).mpr ⟨_, hc⟩).1, h.bound hc⟩

theorem ptr_inj (h : Mapped d tab) {i j : Fin 64} {b c : Nat} (hp : (tab i).ptr b ≠ 0)
    (he : (tab i).ptr b = (tab j).ptr c) : i = j ∧ b = c := by
  have hb : b < 14 := by
    by_contra hb
    exact hp (Inode.ptr_of_le _ (by omega))
  have hc : c < 14 := by
    by_contra hc
    exact hp (he.trans (Inode.ptr_of_le _ (by omega)))
  have h1 : cell tab (i, ⟨b, hb⟩) = some ((tab i).ptr b).toNat := cell_eq_some.mpr ⟨hp, rfl⟩
  have h2 : cell tab (j, ⟨c, hc⟩) = some ((tab i).ptr b).toNat :=
    cell_eq_some.mpr ⟨he ▸ hp, by rw [he]⟩
  have hcell := h.owned.inj h1 h2
  exact ⟨congrArg Prod.fst hcell, congrArg (fun x => x.2.val) hcell⟩

-- `64 * 14` pointers cannot fill `2048` data blocks.
theorem exists_clear (h : Mapped d tab) :
    ∃ k, (List.range 2048).find? (fun i => !(d 9).bit i) = some k := by
  obtain ⟨p, hp, hfree⟩ := h.owned.exists_unused (Finset.Ico 16 2064) (by
    rw [Fintype.card_prod, Fintype.card_fin, Fintype.card_fin, Nat.card_Ico]
    decide)
  rw [Finset.mem_Ico] at hp
  have hbit : (d 9).bit (p - 16) = false := by
    by_contra hb
    exact hfree ⟨hp.1, by simpa using hb⟩
  rw [← Option.isSome_iff_exists, List.find?_isSome]
  exact ⟨p - 16, List.mem_range.mpr (by omega), by simp [hbit]⟩

-- `alloc_block` always finds a block, and it is one no inode points to.
theorem alloc (h : Mapped d tab) :
    ∃ k, k < 2048 ∧ allocBlock.run flat d = (UInt32.ofNat (16 + k), takeBlock d k) ∧
      ∀ i b, ((tab i).ptr b).toNat ≠ 16 + k := by
  obtain ⟨k, hk⟩ := h.exists_clear
  have hlt : k < 2048 := List.mem_range.mp (List.mem_of_find?_eq_some hk)
  have hbit : (d 9).bit k = false := by simpa using List.find?_some hk
  refine ⟨k, hlt, run_allocBlock_some hk, ?_⟩
  intro i b hp
  have hne : (tab i).ptr b ≠ 0 := by
    intro h0
    rw [h0] at hp
    exact absurd hp (by change 0 ≠ 16 + k; omega)
  have hb : b < 14 := by
    by_contra hb
    exact hne (Inode.ptr_of_le _ (by omega))
  have hused := (h.owned.used_iff (16 + k)).mpr ⟨(i, ⟨b, hb⟩), cell_eq_some.mpr ⟨hne, hp⟩⟩
  have hset := hused.2
  rw [show 16 + k - 16 = k by omega, hbit] at hset
  exact absurd hset (by simp)

theorem ofNat_block {k : Nat} (hk : k < 2048) : (UInt32.ofNat (16 + k)).toNat = 16 + k := by
  rw [UInt32.toNat_ofNat', Nat.mod_eq_of_lt (by omega)]

theorem ofNat_block_ne_zero {k : Nat} (hk : k < 2048) : UInt32.ofNat (16 + k) ≠ 0 := by
  intro h0
  have hn := ofNat_block hk
  rw [h0] at hn
  exact absurd hn (by change 0 ≠ 16 + k; omega)

-- The allocated block goes into an empty pointer of inode `i`.
theorem take (h : Mapped d tab) {k : Nat} (hk : k < 2048)
    (hfree : ∀ i b, ((tab i).ptr b).toNat ≠ 16 + k) {i : Fin 64} {b : Nat} (hb : b < 14)
    (hempty : (tab i).ptr b = 0) {n : Inode}
    (hn : ∀ c, n.ptr c = if c = b then UInt32.ofNat (16 + k) else (tab i).ptr c) :
    Mapped (takeBlock d k) (Function.update tab i n) := by
  have hcell := cell_update tab (i := i) (b := ⟨b, hb⟩) hn
  rw [if_neg (ofNat_block_ne_zero hk), ofNat_block hk] at hcell
  have hunused : ¬ UsedBlock d (16 + k) := by
    intro hu
    obtain ⟨c, hc⟩ := (h.owned.used_iff _).mp hu
    exact hfree _ _ (cell_eq_some.mp hc).2
  have hown := h.owned.take (i := (i, ⟨b, hb⟩)) (cell_eq_none.mpr hempty) hunused
  have hused : UsedBlock (takeBlock d k) = fun p => UsedBlock d p ∨ p = 16 + k := by
    funext p
    unfold UsedBlock
    rw [bit_takeBlock d hk]
    apply propext
    simp only [Bool.or_eq_true, decide_eq_true_eq]
    constructor
    · rintro ⟨hp, hbit | rfl⟩
      · exact Or.inl ⟨hp, hbit⟩
      · exact Or.inr (by omega)
    · rintro (⟨hp, hbit⟩ | rfl)
      · exact ⟨hp, Or.inl hbit⟩
      · exact ⟨by omega, Or.inr (by omega)⟩
  refine ⟨by rw [hcell, hused]; exact hown, ?_⟩
  intro c p hc
  rw [hcell] at hc
  by_cases he : c = (i, ⟨b, hb⟩)
  · rw [he, Function.update_self, Option.some.injEq] at hc
    omega
  · rw [Function.update_of_ne he] at hc
    exact h.bound hc

-- `free_block` gives back the block of pointer `b` of inode `i`.
theorem drop (h : Mapped d tab) {i : Fin 64} {b : Nat} (hp : (tab i).ptr b ≠ 0) {n : Inode}
    (hn : ∀ c, n.ptr c = if c = b then 0 else (tab i).ptr c) :
    Mapped (dropBlock d (((tab i).ptr b).toNat - 16)) (Function.update tab i n) := by
  have hb : b < 14 := by
    by_contra hb
    exact hp (Inode.ptr_of_le _ (by omega))
  obtain ⟨hlo, hhi⟩ := h.ptr_range hp
  have hcell := cell_update tab (i := i) (b := ⟨b, hb⟩) hn
  rw [if_pos rfl] at hcell
  have hown := h.owned.drop (i := (i, ⟨b, hb⟩)) (cell_eq_some.mpr ⟨hp, rfl⟩)
  have hused : UsedBlock (dropBlock d (((tab i).ptr b).toNat - 16)) =
      fun p => UsedBlock d p ∧ p ≠ ((tab i).ptr b).toNat := by
    funext p
    unfold UsedBlock
    rw [bit_dropBlock d (by omega)]
    apply propext
    simp only [Bool.and_eq_true, Bool.not_eq_true', decide_eq_false_iff_not]
    constructor
    · rintro ⟨h16, hbit, hne⟩
      exact ⟨⟨h16, hbit⟩, by omega⟩
    · rintro ⟨⟨h16, hbit⟩, hne⟩
      exact ⟨h16, hbit, by omega⟩
  refine ⟨by rw [hcell, hused]; exact hown, ?_⟩
  intro c p hc
  rw [hcell] at hc
  by_cases he : c = (i, ⟨b, hb⟩)
  · rw [he, Function.update_self] at hc
    exact absurd hc (by simp)
  · rw [Function.update_of_ne he] at hc
    exact h.bound hc

end Mapped

end JacobOS.Fs
