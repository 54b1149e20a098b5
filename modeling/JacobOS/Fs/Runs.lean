import JacobOS.Fs.Invariant

/-!
# Runs of the file system

A run starts with `sfs_init` on some disk and goes on with calls of `sfs_create`, `sfs_write` and
`sfs_unlink`.  The states it reaches are stated for any block device, so the same definition speaks
about the flat disk and about the disk behind the block cache.
-/

namespace JacobOS.Fs

open BlockProgram Ownership CString RootedTree Relation

inductive Call : Type where
  | create (dir : Nat) (name : List UInt8) (type : UInt32)
  | write (inode : Nat) (data : Nat → UInt8) (len : Nat)
  | unlink (dir : Nat) (name : List UInt8)

def Call.prog : Call → SfsM (Option Nat)
  | .create dir name type => sfsCreate dir name type
  | .write inode data len => sfsWrite inode data len
  | .unlink dir name => sfsUnlink dir name

section Runs

variable {σ : Type} (D : Device Nat Block σ)

/-- `i` is the number of a directory inode in state `s`. -/
def IsDir (s : σ) (i : Nat) : Prop := i < 64 ∧ ((sfsType i).run D s).1 = sfsDir

/-- What the callers promise: `dir` is a live directory, `inode` a number below 64, and `type` one of
`SFS_FILE` and `SFS_DIR`. -/
def Call.Allowed (s : σ) : Call → Prop
  | .create dir _ type => IsDir D s dir ∧ (type = sfsFile ∨ type = sfsDir)
  | .write inode _ _ => inode < 64
  | .unlink dir _ => IsDir D s dir

/-- `s` is reached from `s₀` by `sfs_init` and then calls that each satisfy `ok` when they are made. -/
inductive Reaches (ok : σ → Call → Prop) (s₀ : σ) : σ → Prop where
  | init : Reaches ok s₀ (sfsInit.run D s₀).2
  | step {s : σ} (c : Call) (h : Reaches ok s₀ s) (hok : ok s c) :
      Reaches ok s₀ (c.prog.run D s).2

def Reachable (s₀ s : σ) : Prop := Reaches D (Call.Allowed D) s₀ s

end Runs

-- One call: the invariant is kept, and a call that fails has done nothing.
theorem run_call {d : Disk} (h : Inv d) (c : Call) (hc : c.Allowed flat d) :
    Inv (c.prog.run flat d).2 ∧ ((c.prog.run flat d).1 = none → (c.prog.run flat d).2 = d) := by
  cases c with
  | create dir name type =>
    obtain ⟨⟨hdir, htd⟩, htype⟩ := hc
    show Inv ((sfsCreate dir name type).run flat d).2 ∧
      (((sfsCreate dir name type).run flat d).1 = none → ((sfsCreate dir name type).run flat d).2 = d)
    rcases run_sfsCreate h hdir htd name htype with ⟨-, hrun⟩ | ⟨ino, e, hlook, hfree, hrun, heff⟩
    · rw [hrun]
      exact ⟨h, fun _ => rfl⟩
    · rw [hrun]
      exact ⟨h.create hdir htd htype hlook hfree heff, fun hno => absurd hno (by simp)⟩
  | write inode data len =>
    show Inv ((sfsWrite inode data len).run flat d).2 ∧
      (((sfsWrite inode data len).run flat d).1 = none → ((sfsWrite inode data len).run flat d).2 = d)
    rcases run_sfsWrite h.sound hc data len with ⟨-, hrun⟩ | ⟨ht, e, hrun, heff⟩
    · rw [hrun]
      exact ⟨h, fun _ => rfl⟩
    · rw [hrun]
      exact ⟨h.store ht (Nat.min_le_right ..) heff, fun hno => absurd hno (by simp)⟩
  | unlink dir name =>
    obtain ⟨hdir, htd⟩ := hc
    show Inv ((sfsUnlink dir name).run flat d).2 ∧
      (((sfsUnlink dir name).run flat d).1 = none → ((sfsUnlink dir name).run flat d).2 = d)
    rcases run_sfsUnlink h hdir htd name with ⟨-, hrun⟩ | ⟨de, e, hlook, hreal, hleaf, hrun, heff⟩
    · rw [hrun]
      exact ⟨h, fun _ => rfl⟩
    · rw [hrun]
      exact ⟨h.unlink hdir htd hlook hreal hleaf heff, fun hno => absurd hno (by simp)⟩

theorem inv_init {d₀ : Disk} (h₀ : (d₀ 0).magic ≠ sfsMagic) : Inv (sfsInit.run flat d₀).2 := by
  obtain ⟨e, hrun, hinv, -⟩ := run_format d₀
  rw [run_sfsInit_blank h₀, hrun]
  exact hinv

theorem inv_reaches {ok : Disk → Call → Prop} (hok : ∀ d c, ok d c → c.Allowed flat d) {d₀ d : Disk}
    (h₀ : (d₀ 0).magic ≠ sfsMagic) (h : Reaches flat ok d₀ d) : Inv d := by
  induction h with
  | init => exact inv_init h₀
  | step c _ hc ih => exact (run_call ih c (hok _ c hc)).1

theorem inv_reachable {d₀ d : Disk} (h₀ : (d₀ 0).magic ≠ sfsMagic) (h : Reachable flat d₀ d) : Inv d :=
  inv_reaches (fun _ _ hc => hc) h₀ h

/-! ## Storage -/

/-- The number of non-zero block pointers. -/
def Inode.blockCount (n : Inode) : Nat := n.blocks.toList.countP (· ≠ 0)

theorem Inode.Filled.blockCount_eq {n : Inode} {m : Nat} (h : n.Filled m) : n.blockCount = m := by
  have hcount : ∀ m, m ≤ 14 → (List.range 14).countP (fun b => decide (b < m)) = m := by decide
  unfold Inode.blockCount
  rw [Inode.blocks_toList, List.countP_map]
  rw [show ((fun p : UInt32 => decide (p ≠ 0)) ∘ n.ptr) = fun b => decide (b < m) from
    funext fun b => decide_eq_decide.mpr (h b)]
  exact hcount m h.le

structure StorageInv (d : Disk) : Prop where
  /-- The non-zero pointers of an inode come first. -/
  packed : ∀ i, i < 64 → ∀ b c, b < c → (inodeAt d i).ptr c ≠ 0 → (inodeAt d i).ptr b ≠ 0
  range : ∀ i, i < 64 → ∀ b, (inodeAt d i).ptr b ≠ 0 →
    16 ≤ ((inodeAt d i).ptr b).toNat ∧ ((inodeAt d i).ptr b).toNat < 2064
  distinct : ∀ i j, i < 64 → j < 64 → ∀ b c, (inodeAt d i).ptr b ≠ 0 →
    (inodeAt d i).ptr b = (inodeAt d j).ptr c → i = j ∧ b = c
  /-- Bit `k` is set exactly when one live inode points to block `16 + k`. -/
  bitmap : ∀ k, (d 9).bit k = true ↔
    ∃! i, i < 64 ∧ typeAt d i ≠ sfsFree ∧ ∃ b, b < 14 ∧ ((inodeAt d i).ptr b).toNat = 16 + k
  file : ∀ i, i < 64 → typeAt d i = sfsFile → (inodeAt d i).size.toNat ≤ 7168 ∧
    (inodeAt d i).blockCount = ((inodeAt d i).size.toNat + 511) / 512
  dir : ∀ i, i < 64 → typeAt d i = sfsDir →
    (inodeAt d i).size.toNat = 512 * (inodeAt d i).blockCount ∧ 512 ≤ (inodeAt d i).size.toNat
  free : ∀ i, i < 64 → typeAt d i = sfsFree → inodeAt d i = Inode.zero
  types : ∀ i, i < 64 → typeAt d i = sfsFree ∨ typeAt d i = sfsFile ∨ typeAt d i = sfsDir

theorem Inv.storage {d : Disk} (h : Inv d) : StorageInv d := by
  have hrange : ∀ i, i < 64 → ∀ b, (inodeAt d i).ptr b ≠ 0 →
      16 ≤ ((inodeAt d i).ptr b).toNat ∧ ((inodeAt d i).ptr b).toNat < 2064 :=
    fun i hi b hp => h.sound.mapped.ptr_range (i := ⟨i, hi⟩) hp
  have hdistinct : ∀ i j, i < 64 → j < 64 → ∀ b c, (inodeAt d i).ptr b ≠ 0 →
      (inodeAt d i).ptr b = (inodeAt d j).ptr c → i = j ∧ b = c := by
    intro i j hi hj b c hp he
    obtain ⟨hij, hbc⟩ := h.sound.mapped.ptr_inj (i := ⟨i, hi⟩) (j := ⟨j, hj⟩) hp he
    exact ⟨congrArg Fin.val hij, hbc⟩
  refine ⟨?_, hrange, hdistinct, ?_, ?_, ?_, ?_, h.names.types⟩
  · intro i hi b c hbc hc
    obtain ⟨m, hm⟩ := h.sound.filled i hi
    have hlt := (hm c).mp hc
    exact (hm b).mpr (by omega)
  · intro k
    have hused : (d 9).bit k = true ↔ UsedBlock d (16 + k) := by
      unfold UsedBlock
      rw [show 16 + k - 16 = k by omega]
      exact ⟨fun hb => ⟨by omega, hb⟩, fun hu => hu.2⟩
    rw [hused, h.sound.mapped.owned.used_iff]
    constructor
    · rintro ⟨⟨i, b⟩, hc⟩
      obtain ⟨hp, heq⟩ := cell_eq_some.mp hc
      have hlive : typeAt d i ≠ sfsFree := by
        intro hfree
        obtain ⟨m, -, hzero, -⟩ := h.sized i i.isLt
        apply hp
        show (inodeAt d i).ptr b = 0
        rw [hzero hfree, Inode.ptr_zero]
      refine ⟨i, ⟨i.isLt, hlive, b, b.isLt, heq⟩, ?_⟩
      rintro j ⟨hj, -, c, -, heq'⟩
      have hsame : (inodeAt d i).ptr b = (inodeAt d j).ptr c :=
        UInt32.toNat_inj.mp (heq.trans heq'.symm)
      exact (hdistinct i j i.isLt hj b c hp hsame).1.symm
    · rintro ⟨i, ⟨hi, -, b, hb, heq⟩, -⟩
      refine ⟨(⟨i, hi⟩, ⟨b, hb⟩), cell_eq_some.mpr ⟨?_, heq⟩⟩
      intro h0
      change (inodeAt d i).ptr b = 0 at h0
      rw [h0] at heq
      exact absurd heq (by change 0 ≠ 16 + k; omega)
  · intro i hi ht
    obtain ⟨m, hm, -, hfile, -⟩ := h.sized i hi
    obtain ⟨hle, hcount⟩ := hfile ht
    exact ⟨hle, hm.blockCount_eq.trans hcount⟩
  · intro i hi ht
    obtain ⟨m, hm, -, -, hdir⟩ := h.sized i hi
    obtain ⟨hpos, hsize⟩ := hdir ht
    rw [hm.blockCount_eq]
    exact ⟨hsize, by omega⟩
  · intro i hi ht
    obtain ⟨m, -, hzero, -⟩ := h.sized i hi
    exact hzero ht

/-- Storage stays consistent along every run: bitmap, pointers and sizes agree. -/
theorem storage_reachable {d₀ d : Disk} (h₀ : (d₀ 0).magic ≠ sfsMagic)
    (h : Reachable flat d₀ d) : StorageInv d := (inv_reachable h₀ h).storage

def blankDisk : Disk := fun _ => Block.zero

theorem blankDisk_magic : (blankDisk 0).magic ≠ sfsMagic := by
  unfold blankDisk
  rw [Block.magic_zero]
  decide

theorem isDir_root {d : Disk} (h : Inv d) : IsDir flat d 0 := ⟨by decide, h.names.root⟩

-- A blank disk, formatted, with one file created in the root.
theorem storage_reachable_blank :
    StorageInv ((Call.create 0 [0x61] sfsFile).prog.run flat (sfsInit.run flat blankDisk).2).2 :=
  storage_reachable blankDisk_magic
    (.step (.create 0 [0x61] sfsFile) .init ⟨isDir_root (inv_init blankDisk_magic), Or.inl rfl⟩)

/-! ## The tree -/

/-- The inodes that the entries called `s` in directory `i` point to. -/
def targetsOf (d : Disk) (i : Nat) (s : List UInt8) : List Nat :=
  (named (entriesAt d i) s).map Dirent.target

structure TreeInv (d : Disk) : Prop where
  root : typeAt d 0 = sfsDir
  self : ∀ i, i < 64 → typeAt d i = sfsDir → targetsOf d i dot = [i]
  up : ∀ i, i < 64 → typeAt d i = sfsDir → ∃ p, targetsOf d i dotdot = [p]
  entry : ∀ i, i < 64 → typeAt d i = sfsDir → ∀ de ∈ entriesAt d i, de.str ≠ dot → de.str ≠ dotdot →
    0 ∈ de.name ∧ 1 ≤ de.target ∧ de.target < 64 ∧ typeAt d de.target ≠ sfsFree
  /-- A live inode other than the root has one entry, in one directory, and a directory's `..` leads
  there. -/
  parent : ∀ c, c ≠ 0 → c < 64 → typeAt d c ≠ sfsFree → ∃ p, p < 64 ∧ typeAt d p = sfsDir ∧
    (children (entriesAt d p)).count c = 1 ∧
    (∀ q, q < 64 → typeAt d q = sfsDir → c ∈ children (entriesAt d q) → q = p) ∧
    (typeAt d c = sfsDir → targetsOf d c dotdot = [p])
  tree : IsTree (Live (typeAt d)) (Edge (typeAt d) (entriesAt d)) 0

theorem Inv.tree {d : Disk} (h : Inv d) : TreeInv d := by
  refine ⟨h.names.root, ?_, ?_, ?_, ?_, h.names.tree⟩
  · intro i hi ht
    obtain ⟨de, hde, htgt⟩ := h.names.self i hi ht
    unfold targetsOf
    rw [hde, List.map_singleton, htgt]
  · intro i hi ht
    obtain ⟨de, hde, -⟩ := h.names.up i hi ht
    unfold targetsOf
    rw [hde]
    exact ⟨de.target, rfl⟩
  · intro i hi ht de hde h1 h2
    have hchild := mem_children hde (isReal_iff.mpr ⟨h1, h2⟩)
    exact ⟨(h.names.wf i hi ht de hde).1, h.names.edge_child ⟨hi, ht, hchild⟩⟩
  · intro c hc0 hc hlive
    obtain ⟨p, hp, htp, hmem⟩ := h.names.tree.exists_parent ⟨hc, hlive⟩ hc0
    refine ⟨p, hp, htp, List.count_eq_one_of_mem (h.names.nodup p hp htp) hmem, ?_, ?_⟩
    · intro q hq htq hmem'
      exact h.names.tree.parent ⟨hq, htq, hmem'⟩ ⟨hp, htp, hmem⟩
    · intro ht
      obtain ⟨de, hde, -, htgt⟩ := h.names.up c hc ht
      unfold targetsOf
      rw [hde, List.map_singleton, htgt p (Or.inl ⟨hp, htp, hmem⟩)]

/-- The live inodes are a tree along every run. -/
theorem tree_reachable {d₀ d : Disk} (h₀ : (d₀ 0).magic ≠ sfsMagic) (h : Reachable flat d₀ d) :
    TreeInv d := (inv_reachable h₀ h).tree

theorem tree_reachable_blank :
    TreeInv ((Call.create 0 [0x61] sfsDir).prog.run flat (sfsInit.run flat blankDisk).2).2 :=
  tree_reachable blankDisk_magic
    (.step (.create 0 [0x61] sfsDir) .init ⟨isDir_root (inv_init blankDisk_magic), Or.inr rfl⟩)

/-! ## The first object on a disk -/

theorem firstFree_eq {d : Disk} {ino : Nat} (hino : ino < 64) (hfree : typeAt d ino = sfsFree)
    (hused : ∀ i, i < ino → typeAt d i ≠ sfsFree) : firstFree d = some ino := by
  unfold firstFree
  rw [List.find?_range_eq_some]
  refine ⟨decide_eq_true hfree, List.mem_range.mpr hino, ?_⟩
  intro i hi
  rw [Bool.not_eq_true', decide_eq_false_iff_not]
  exact hused i hi

-- A fresh file system has no names but `.` and `..`, and its first free inode is 1.
theorem create_fresh (d₀ : Disk) {name : List UInt8} (hdot : dot ≠ cstr name)
    (hdotdot : dotdot ≠ cstr name) {type : UInt32} (htype : type = sfsFile ∨ type = sfsDir) :
    ∃ d e, format.run flat d₀ = ((), d) ∧ Inv d ∧ (∀ j, j < 64 → j ≠ 0 → typeAt d j = sfsFree) ∧
      (sfsCreate sfsRoot name type).run flat d = (some 1, e) ∧
      (∀ n, dot ≠ cstr n → dotdot ≠ cstr n → findNamed (slotsAt d sfsRoot) n = none) ∧
      firstFree d = some 1 ∧ CreateEffect sfsRoot name type 1 d e := by
  obtain ⟨d, hrun, hinv, hfree, a, b, hents, ha, hb⟩ := run_format d₀
  have hnone : ∀ n, dot ≠ cstr n → dotdot ≠ cstr n → findNamed (slotsAt d 0) n = none := by
    intro n h1 h2
    rw [findNamed_none]
    intro de hde
    change de ∈ entriesAt d 0 at hde
    have hastr : a.str = dot := ha.str
    have hbstr : b.str = dotdot := hb.str
    rw [hents] at hde
    rcases List.mem_cons.mp hde with rfl | hde
    · rw [hastr]
      exact h1
    · rw [List.mem_singleton.mp hde, hbstr]
      exact h2
  have hfirst : firstFree d = some 1 := by
    refine firstFree_eq (by decide) (hfree 1 (by decide) (by decide)) ?_
    intro i hi
    obtain rfl : i = 0 := by omega
    rw [hinv.names.root]
    decide
  rcases run_sfsCreate hinv (by decide) hinv.names.root name htype with
    ⟨hwhy, -⟩ | ⟨ino, e, -, hino, hcreate, heff⟩
  · rw [hnone name hdot hdotdot, hfirst] at hwhy
    exact absurd hwhy (by simp)
  · obtain rfl : 1 = ino := by simpa using hfirst.symm.trans hino
    exact ⟨d, e, hrun, hinv, hfree, hcreate, hnone, hfirst, heff⟩

-- The first object on a blank disk.
theorem create_blank {name : List UInt8} (hdot : dot ≠ cstr name) (hdotdot : dotdot ≠ cstr name)
    {type : UInt32} (htype : type = sfsFile ∨ type = sfsDir) :
    ∃ d e, Reachable flat blankDisk d ∧ Reachable flat blankDisk e ∧
      (sfsCreate sfsRoot name type).run flat d = (some 1, e) ∧
      (∀ n, dot ≠ cstr n → dotdot ≠ cstr n → findNamed (slotsAt d sfsRoot) n = none) ∧ firstFree d = some 1 ∧
      CreateEffect sfsRoot name type 1 d e ∧ ∀ j, 1 < j → j < 64 → typeAt e j = sfsFree := by
  obtain ⟨d, e, hrun, hinv, hfree, hcreate, hnone, hfirst, heff⟩ := create_fresh blankDisk hdot hdotdot htype
  have hinit : (sfsInit.run flat blankDisk).2 = d := by
    rw [run_sfsInit_blank blankDisk_magic, hrun]
  have hd : Reachable flat blankDisk d := hinit ▸ .init
  have he := Reaches.step (.create sfsRoot name type) hd ⟨isDir_root hinv, htype⟩
  have heq : ((Call.create sfsRoot name type).prog.run flat d).2 = e := congrArg Prod.snd hcreate
  refine ⟨d, e, hd, heq ▸ he, hcreate, hnone, hfirst, heff, ?_⟩
  intro j h1 hj
  rw [heff.frame.typeAt hj (by unfold sfsRoot; omega)]
  exact hfree j hj (by omega)

/-! ## Failing calls -/

/-- `sfs_create` and `sfs_write` run out of nothing but inodes, and a failed call changes nothing. -/
structure FailsExactly (d : Disk) : Prop where
  create : ∀ dir name type, IsDir flat d dir → (type = sfsFile ∨ type = sfsDir) →
    (((sfsCreate dir name type).run flat d).1 = none ↔
      ((sfsLookup dir name).run flat d).1 ≠ none ∨ ∀ i, i < 64 → typeAt d i ≠ sfsFree)
  write : ∀ i data len, i < 64 → typeAt d i = sfsFile →
    ((sfsWrite i data len).run flat d).1 = some (min len 7168)
  alloc : (allocBlock.run flat d).1 ≠ 0
  add : ∀ dir name child, IsDir flat d dir → ((dirAdd dir name child).run flat d).1 = some 0
  atomic : ∀ c : Call, c.Allowed flat d → (c.prog.run flat d).1 = none → (c.prog.run flat d).2 = d

theorem Inv.failsExactly {d : Disk} (h : Inv d) : FailsExactly d := by
  refine ⟨?_, ?_, ?_, ?_, fun c hc => (run_call h c hc).2⟩
  · intro dir name type hdir htype
    have hlookup : ((sfsLookup dir name).run flat d).1 ≠ none ↔
        findNamed (slotsAt d dir) name ≠ none := by
      unfold sfsLookup
      rw [run_sfsLookup h hdir.1 hdir.2]
      simp
    rw [hlookup, ← firstFree_none]
    rcases run_sfsCreate h hdir.1 hdir.2 name htype with ⟨hwhy, hrun⟩ | ⟨ino, e, hno, hfree, hrun, -⟩
    · rw [hrun]
      exact ⟨fun _ => hwhy, fun _ => rfl⟩
    · rw [hrun, hno, hfree]
      simp
  · intro i data len hi ht
    rcases run_sfsWrite h.sound hi data len with ⟨hno, -⟩ | ⟨-, e, hrun, -⟩
    · exact absurd ht hno
    · rw [hrun]
  · obtain ⟨k, hk, hrun, -⟩ := h.sound.mapped.alloc
    rw [hrun]
    exact Mapped.ofNat_block_ne_zero hk
  · intro dir name child hdir
    obtain ⟨m, hm⟩ := h.sound.filled dir hdir.1
    obtain ⟨e, hrun, -⟩ := run_dirAdd h.sound hdir.1 name child hm (h.room hdir.1 hdir.2 hm)
    rw [hrun]

/-- In every state of every run. -/
theorem failsExactly_reachable {d₀ d : Disk} (h₀ : (d₀ 0).magic ≠ sfsMagic)
    (h : Reachable flat d₀ d) : FailsExactly d := (inv_reachable h₀ h).failsExactly

-- With a file on the disk.
theorem failsExactly_reachable_file :
    ∃ e, Reachable flat blankDisk e ∧ typeAt e 1 = sfsFile ∧ FailsExactly e ∧
      ((sfsWrite 1 (fun _ => 0x61) 8000).run flat e).1 = some 7168 := by
  obtain ⟨d, e, -, he, -, -, -, heff, -⟩ := @create_blank [0x61] (by decide) (by decide) sfsFile (Or.inl rfl)
  have hfails := failsExactly_reachable blankDisk_magic he
  exact ⟨e, he, heff.typeIno, hfails, hfails.write 1 _ 8000 (by decide) heff.typeIno⟩

/-! ## Created names -/

/-- A created name is found right away, and cannot be created again. -/
def CreatedIsFound (d : Disk) (dir : Nat) (name : List UInt8) (type : UInt32) : Prop :=
  ∀ ino e, (sfsCreate dir name type).run flat d = (some ino, e) →
    ((sfsLookup dir name).run flat e).1 = some ino ∧
      ((sfsCreate dir name type).run flat e).1 = none

/-- No directory has two entries of the same name. -/
def NamesUnique (d : Disk) : Prop :=
  ∀ i, i < 64 → typeAt d i = sfsDir → ((entriesAt d i).map Dirent.str).Nodup

/-- The name is stored whole, or `sfs_create` stores nothing because it exists already or no inode is
free. -/
def NameFits (d : Disk) (dir : Nat) (name : List UInt8) : Prop :=
  strlen name ≤ 27 ∨ ((sfsLookup dir name).run flat d).1 ≠ none ∨ ∀ i, i < 64 → typeAt d i ≠ sfsFree

/-- The calls whose names fit. -/
def Call.Fits (d : Disk) : Call → Prop
  | .create dir name _ => NameFits d dir name
  | _ => True

theorem length_str_lt {de : Dirent} (h : 0 ∈ de.name) : de.str.length ≤ 27 := by
  have hcut : ∀ s : List UInt8, 0 ∈ s → (cstr s).length < s.length := by
    intro s hs
    induction s with
    | nil => exact absurd hs (by simp)
    | cons c s ih =>
      rw [cstr_cons, List.length_cons]
      by_cases hc : c = 0
      · rw [if_pos hc]
        simp
      · rw [if_neg hc, List.length_cons]
        have hrest := ih ((List.mem_cons.mp hs).resolve_left (Ne.symm hc))
        omega
  have hlt := hcut de.name.toList (Vector.mem_toList_iff.mpr h)
  rw [Vector.length_toList] at hlt
  unfold Dirent.str
  omega

-- A name that does not fit in a dirent is not found.
theorem Inv.findNamed_long {d : Disk} (h : Inv d) {dir : Nat} (hdir : IsDir flat d dir) {name : List UInt8}
    (hlong : 27 < strlen name) : findNamed (slotsAt d dir) name = none := by
  rw [findNamed_none]
  intro de hde heq
  have hle := length_str_lt (h.names.wf dir hdir.1 hdir.2 de hde).1
  rw [heq, ← strlen_eq] at hle
  omega

-- After a successful create the name that was stored is the name asked for, unless it was cut.
theorem lookup_created {d e : Disk} (h : Inv d) {dir ino : Nat} {name : List UInt8} {type : UInt32}
    (hdir : IsDir flat d dir) (htype : type = sfsFile ∨ type = sfsDir)
    (hlook : findNamed (slotsAt d dir) name = none) (hfree : firstFree d = some ino)
    (heff : CreateEffect dir name type ino d e) :
    (findNamed (slotsAt e dir) name).map Dirent.target =
      if strlen name ≤ 27 then some ino else none := by
  have hinv := h.create hdir.1 hdir.2 htype hlook hfree heff
  obtain ⟨new, hnew, hperm⟩ := heff.added
  by_cases hshort : strlen name ≤ 27
  · rw [if_pos hshort]
    have hstr : new.str = cstr name := by
      rw [strlen_eq] at hshort
      rw [hnew.str, List.take_of_length_le hshort]
    have hin : new ∈ entriesAt e dir := hperm.mem_iff.mpr List.mem_cons_self
    cases hfound : findNamed (slotsAt e dir) name with
    | none => exact absurd hstr (findNamed_none.mp hfound new hin)
    | some de =>
      obtain ⟨hmem, hde⟩ := findNamed_mem hfound
      rcases List.mem_cons.mp (hperm.mem_iff.mp hmem) with rfl | hold
      · rw [Option.map_some, hnew.target]
      · exact absurd hde (findNamed_none.mp hlook de hold)
  · rw [if_neg hshort, hinv.findNamed_long ⟨hdir.1, heff.typeDir⟩ (Nat.not_le.mp hshort)]
    rfl

theorem Inv.createdIsFound_iff {d : Disk} (h : Inv d) {dir : Nat} (name : List UInt8) {type : UInt32}
    (hdir : IsDir flat d dir) (htype : type = sfsFile ∨ type = sfsDir) :
    CreatedIsFound d dir name type ↔ NameFits d dir name := by
  have hlookup : ∀ {g}, Inv g → IsDir flat g dir →
      (sfsLookup dir name).run flat g = ((findNamed (slotsAt g dir) name).map Dirent.target, g) :=
    fun hg hgd => run_sfsLookup hg hgd.1 hgd.2 name
  unfold CreatedIsFound NameFits
  rw [hlookup h hdir, ← firstFree_none]
  rcases run_sfsCreate h hdir.1 hdir.2 name htype with ⟨hwhy, hrun⟩ | ⟨ino, e, hno, hfree, hrun, heff⟩
  · rw [hrun]
    constructor
    · intro _
      exact Or.inr (hwhy.imp_left (by simp))
    · intro _ ino e he
      exact absurd (congrArg Prod.fst he) (by simp)
  · have hinv := h.create hdir.1 hdir.2 htype hno hfree heff
    have hdire : IsDir flat e dir := ⟨hdir.1, heff.typeDir⟩
    have hfound := lookup_created h hdir htype hno hfree heff
    rw [hrun, hno, hfree]
    constructor
    · intro hclaim
      have hsome := (hclaim ino e rfl).1
      rw [hlookup hinv hdire, hfound] at hsome
      left
      by_contra hlong
      rw [if_neg hlong] at hsome
      exact absurd hsome (by simp)
    · rintro hfits ino' e' heq
      obtain ⟨rfl, rfl⟩ : ino = ino' ∧ e = e' := by simpa using heq
      have hshort : strlen name ≤ 27 := by simpa using hfits
      rw [if_pos hshort] at hfound
      refine ⟨by rw [hlookup hinv hdire, hfound], ?_⟩
      rcases run_sfsCreate hinv hdire.1 hdire.2 name htype with ⟨-, hrun'⟩ | ⟨_, _, hno', -⟩
      · rw [hrun']
      · rw [hno'] at hfound
        exact absurd hfound (by simp)

namespace NamesUnique

variable {d e : Disk}

-- The directories outside `S` are as they were.
theorem of_frame {S : Nat → Prop} (hu : NamesUnique d) (hframe : Frame S d e) {i : Nat} (hi : i < 64)
    (hS : ¬ S i) (ht : typeAt e i = sfsDir) : ((entriesAt e i).map Dirent.str).Nodup := by
  rw [hframe.entriesAt hi hS]
  exact hu i hi ((hframe.typeAt hi hS).symm.trans ht)

theorem create (hu : NamesUnique d) {dir ino : Nat} {name : List UInt8} {type : UInt32}
    (hdir : IsDir flat d dir) (hno : findNamed (slotsAt d dir) name = none)
    (hshort : (cstr name).length ≤ 27) (heff : CreateEffect dir name type ino d e) :
    NamesUnique e := by
  obtain ⟨new, hnew, hperm⟩ := heff.added
  intro i hi ht
  by_cases hid : i = dir
  · rw [hid, (hperm.map Dirent.str).nodup_iff, List.map_cons, List.nodup_cons]
    refine ⟨?_, hu dir hdir.1 hdir.2⟩
    intro hin
    obtain ⟨de, hde, hstr⟩ := List.mem_map.mp hin
    rw [hnew.str, List.take_of_length_le hshort] at hstr
    exact findNamed_none.mp hno de hde hstr
  · by_cases hii : i = ino
    · subst hii
      obtain ⟨a, b, heq, ha, hb⟩ := heff.made (heff.typeIno.symm.trans ht)
      have hastr : a.str = dot := ha.str
      have hbstr : b.str = dotdot := hb.str
      rw [heq, List.map_cons, List.map_cons, hastr, hbstr]
      decide
    · exact hu.of_frame heff.frame hi (not_or.mpr ⟨hid, hii⟩) ht

theorem store (hu : NamesUnique d) {i len : Nat} {data : Nat → UInt8}
    (heff : StoreEffect i data len d e) : NamesUnique e := by
  intro j hj ht
  have hji : j ≠ i := by
    rintro rfl
    exact absurd (ht.symm.trans heff.type) (by decide)
  exact hu.of_frame heff.frame hj hji ht

theorem unlink (hu : NamesUnique d) {dir : Nat} {name : List UInt8} {de : Dirent}
    (hdir : IsDir flat d dir) (hlook : findNamed (slotsAt d dir) name = some de)
    (heff : UnlinkEffect dir name de.target d e) : NamesUnique e := by
  intro i hi ht
  by_cases hii : i = de.target
  · unfold typeAt at ht
    rw [hii, heff.freed] at ht
    exact absurd ht (by decide)
  · by_cases hid : i = dir
    · have hnd := ((entries_removeSlot hlook).map Dirent.str).nodup_iff.mp (hu dir hdir.1 hdir.2)
      rw [List.map_cons, ← heff.slots] at hnd
      rw [hid]
      exact (List.nodup_cons.mp hnd).2
    · exact hu.of_frame heff.frame hi (not_or.mpr ⟨hid, hii⟩) ht

theorem call (hu : NamesUnique d) (h : Inv d) (c : Call) (hc : c.Allowed flat d) (hfit : c.Fits d) :
    NamesUnique (c.prog.run flat d).2 := by
  cases c with
  | create dir name type =>
    obtain ⟨hdir, htype⟩ := hc
    show NamesUnique ((sfsCreate dir name type).run flat d).2
    rcases run_sfsCreate h hdir.1 hdir.2 name htype with ⟨-, hrun⟩ | ⟨ino, e, hno, hfree, hrun, heff⟩
    · rw [hrun]
      exact hu
    · have hshort : (cstr name).length ≤ 27 := by
        change NameFits d dir name at hfit
        unfold NameFits sfsLookup at hfit
        rw [run_sfsLookup h hdir.1 hdir.2, hno, ← firstFree_none, hfree, strlen_eq] at hfit
        simpa using hfit
      rw [hrun]
      exact hu.create hdir hno hshort heff
  | write inode data len =>
    show NamesUnique ((sfsWrite inode data len).run flat d).2
    rcases run_sfsWrite h.sound hc data len with ⟨-, hrun⟩ | ⟨-, e, hrun, heff⟩
    · rw [hrun]
      exact hu
    · rw [hrun]
      exact hu.store heff
  | unlink dir name =>
    show NamesUnique ((sfsUnlink dir name).run flat d).2
    rcases run_sfsUnlink h hc.1 hc.2 name with ⟨-, hrun⟩ | ⟨de, e, hlook, -, -, hrun, heff⟩
    · rw [hrun]
      exact hu
    · rw [hrun]
      exact hu.unlink hc hlook heff

end NamesUnique

theorem namesUnique_init {d₀ : Disk} (h₀ : (d₀ 0).magic ≠ sfsMagic) :
    NamesUnique (sfsInit.run flat d₀).2 := by
  obtain ⟨e, hrun, hinv, hfree, a, b, heq, ha, hb⟩ := run_format d₀
  rw [run_sfsInit_blank h₀, hrun]
  intro i hi ht
  have hi0 : i = 0 := by
    by_contra hne
    exact absurd ((hfree i hi hne).symm.trans ht) (by decide)
  have hastr : a.str = dot := ha.str
  have hbstr : b.str = dotdot := hb.str
  rw [hi0, heq, List.map_cons, List.map_cons, hastr, hbstr]
  decide

/-- A created name is found again exactly when it fits in its dirent, and along the runs whose names
all fit no directory holds a name twice. -/
theorem createdIsFound_reachable_iff {d₀ : Disk} (h₀ : (d₀ 0).magic ≠ sfsMagic) :
    (∀ d, Reachable flat d₀ d → ∀ dir name type, IsDir flat d dir →
      (type = sfsFile ∨ type = sfsDir) →
      (CreatedIsFound d dir name type ↔ NameFits d dir name)) ∧
    ∀ d, Reaches flat (fun d c => c.Allowed flat d ∧ c.Fits d) d₀ d → NamesUnique d := by
  constructor
  · intro d hd dir name type hdir htype
    exact (inv_reachable h₀ hd).createdIsFound_iff name hdir htype
  · intro d hd
    induction hd with
    | init => exact namesUnique_init h₀
    | step c hs hc ih =>
      exact ih.call (inv_reaches (fun _ _ hok => hok.1) h₀ hs) c hc.1 hc.2

theorem createdIsFound_reachable_blank :
    CreatedIsFound (sfsInit.run flat blankDisk).2 0 [0x61] sfsFile :=
  ((createdIsFound_reachable_iff blankDisk_magic).1 _ .init 0 [0x61] sfsFile
    (isDir_root (inv_init blankDisk_magic)) (Or.inl rfl)).mpr (Or.inl (by decide))

/-- A name of 28 bytes, one more than a dirent stores. -/
def longName : List UInt8 := List.replicate 28 0x61

-- Created twice in the root of a fresh file system: both calls succeed, the name is not found in
-- between, and the root ends up with two entries of the same name.
theorem longName_created_twice :
    ∃ e₁ e₂, (sfsCreate 0 longName sfsFile).run flat (sfsInit.run flat blankDisk).2 = (some 1, e₁) ∧
      ((sfsLookup 0 longName).run flat e₁).1 = none ∧
      (sfsCreate 0 longName sfsFile).run flat e₁ = (some 2, e₂) ∧ ¬ NamesUnique e₂ := by
  obtain ⟨d, e₁, hrun, hinv, hfree, hrun1, -, hfree1, h1⟩ :=
    @create_fresh blankDisk longName (by decide) (by decide) sfsFile (Or.inl rfl)
  rw [run_sfsInit_blank blankDisk_magic, hrun]
  have hlong : ∀ {g : Disk}, Inv g → findNamed (slotsAt g 0) longName = none :=
    fun hg => hg.findNamed_long (isDir_root hg) (by decide)
  have hinv1 := hinv.create (by decide) hinv.names.root (Or.inl rfl) (hlong hinv) hfree1 h1
  have hfree2 : firstFree e₁ = some 2 := by
    refine firstFree_eq (by decide) ?_ ?_
    · rw [h1.frame.typeAt (by decide) (by decide)]
      exact hfree 2 (by decide) (by decide)
    · intro i hi
      rcases (by omega : i = 0 ∨ i = 1) with rfl | rfl
      · rw [hinv1.names.root]
        decide
      · rw [h1.typeIno]
        decide
  rcases run_sfsCreate hinv1 (by decide) hinv1.names.root longName (Or.inl rfl) with
    ⟨hwhy, -⟩ | ⟨ino, e₂, -, hino, hrun2, h2⟩
  · rw [hlong hinv1, hfree2] at hwhy
    exact absurd hwhy (by simp)
  obtain rfl : 2 = ino := by simpa using hfree2.symm.trans hino
  refine ⟨e₁, e₂, hrun1, ?_, hrun2, ?_⟩
  · unfold sfsLookup
    rw [run_sfsLookup hinv1 (by decide) hinv1.names.root, hlong hinv1]
    rfl
  · intro hu
    obtain ⟨new1, hnew1, hperm1⟩ := h1.added
    obtain ⟨new2, hnew2, hperm2⟩ := h2.added
    have hnd := ((hperm2.map Dirent.str).nodup_iff.mp (hu 0 (by decide) h2.typeDir))
    rw [List.map_cons, List.nodup_cons] at hnd
    apply hnd.1
    rw [hnew2.str, ← hnew1.str]
    exact List.mem_map_of_mem (hperm1.mem_iff.mpr List.mem_cons_self)

end JacobOS.Fs
