import JacobOS.Fs.Operations

/-!
# The invariant along every run

`format` establishes `Inv` on any disk, and each operation keeps it, so it holds in every state that
`sfs_init` and a sequence of operations can reach.
-/

namespace JacobOS.Fs

open BlockProgram Ownership CString RootedTree Relation

/-! ## Each operation keeps the invariant -/

namespace Namespace

variable {typ typ' : Nat → UInt32} {ents ents' : Nat → List Dirent}

-- Only the types and the entries of directories matter.
theorem congr (h : Namespace typ ents) (htyp : ∀ j, j < 64 → typ' j = typ j)
    (hents : ∀ j, j < 64 → typ j = sfsDir → ents' j = ents j) : Namespace typ' ents' := by
  have hdir : ∀ {j}, j < 64 → typ' j = sfsDir → typ j = sfsDir ∧ ents' j = ents j := by
    intro j hj ht
    rw [htyp j hj] at ht
    exact ⟨ht, hents j hj ht⟩
  have hedge : ∀ p c, Edge typ' ents' p c ↔ Edge typ ents p c := by
    intro p c
    unfold Edge
    constructor
    · rintro ⟨hp, ht, hc⟩
      obtain ⟨ht', he⟩ := hdir hp ht
      exact ⟨hp, ht', he ▸ hc⟩
    · rintro ⟨hp, ht, hc⟩
      exact ⟨hp, (htyp p hp).trans ht, (hents p hp ht).symm ▸ hc⟩
  refine ⟨?_, (htyp 0 (by decide)).trans h.root, ?_, ?_, ?_, ?_, ?_⟩
  · intro i hi
    rw [htyp i hi]
    exact h.types i hi
  · intro i hi ht
    obtain ⟨ht', he⟩ := hdir hi ht
    rw [he]
    exact h.self i hi ht'
  · intro i hi ht
    obtain ⟨ht', he⟩ := hdir hi ht
    obtain ⟨de, hde, hlt, htgt⟩ := h.up i hi ht'
    exact ⟨de, he.symm ▸ hde, hlt, fun p hp => htgt p (hp.imp_left (hedge p i).mp)⟩
  · intro i hi ht
    obtain ⟨ht', he⟩ := hdir hi ht
    rw [he]
    exact h.wf i hi ht'
  · intro i hi ht
    obtain ⟨ht', he⟩ := hdir hi ht
    rw [he]
    exact h.nodup i hi ht'
  · refine h.tree.congr ?_ hedge
    intro a
    unfold Live
    constructor
    · rintro ⟨ha, hta⟩
      exact ⟨ha, htyp a ha ▸ hta⟩
    · rintro ⟨ha, hta⟩
      exact ⟨ha, (htyp a ha).symm ▸ hta⟩

-- A root directory and nothing else.
theorem fresh {a b : Dirent} (hroot : typ 0 = sfsDir) (hfree : ∀ j, j < 64 → j ≠ 0 → typ j = sfsFree)
    (hents : ents 0 = [a, b]) (ha : a.Names 0 dot) (hb : b.Names 0 dotdot) :
    Namespace typ ents := by
  have hastr : a.str = dot := ha.str
  have hbstr : b.str = dotdot := hb.str
  have hchild : children (ents 0) = [] := by
    rw [hents]
    exact children_dots hastr hbstr
  have hzero : ∀ i, i < 64 → typ i = sfsDir → i = 0 := by
    intro i hi ht
    by_contra hne
    exact absurd ((hfree i hi hne).symm.trans ht) (by decide)
  have hedge : ∀ p c, ¬ Edge typ ents p c := by
    rintro p c ⟨hp, ht, hc⟩
    rw [hzero p hp ht, hchild] at hc
    exact absurd hc (by simp)
  refine ⟨?_, hroot, ?_, ?_, ?_, ?_, ?_⟩
  · intro i hi
    by_cases hne : i = 0
    · exact Or.inr (Or.inr (hne ▸ hroot))
    · exact Or.inl (hfree i hi hne)
  · intro i hi ht
    obtain rfl := hzero i hi ht
    exact ⟨a, by rw [hents]; exact (named_dots hastr hbstr).1, ha.target⟩
  · intro i hi ht
    obtain rfl := hzero i hi ht
    refine ⟨b, by rw [hents]; exact (named_dots hastr hbstr).2, by rw [hb.target]; decide, ?_⟩
    rintro p (hp | ⟨rfl, -⟩)
    · exact absurd hp (hedge p 0)
    · exact hb.target
  · intro i hi ht de hde
    obtain rfl := hzero i hi ht
    rw [hents] at hde
    rcases List.mem_cons.mp hde with rfl | hde
    · exact ⟨ha.nul, ha.inum1_ne_zero⟩
    · obtain rfl := List.mem_singleton.mp hde
      exact ⟨hb.nul, hb.inum1_ne_zero⟩
  · intro i hi ht
    obtain rfl := hzero i hi ht
    rw [hchild]
    exact List.nodup_nil
  · refine ⟨⟨by decide, by rw [hroot]; decide⟩, fun he => absurd he (hedge _ _), fun p => hedge p 0,
      fun he => absurd he (hedge _ _), ?_⟩
    rintro i ⟨hi, hlive⟩
    by_cases hne : i = 0
    · rw [hne]
    · exact absurd (hfree i hi hne) hlive

end Namespace

theorem take_eq_short {s t : List UInt8} {k : Nat} (h : s.take k = t) (hlt : t.length < k) : s = t := by
  have hlen := congrArg List.length h
  rw [List.length_take] at hlen
  rw [← h, List.take_of_length_le (by omega)]

-- A name that is not in the directory is neither `.` nor `..`, and neither is what is stored of it.
theorem Inv.fresh_isReal {d : Disk} (h : Inv d) {dir : Nat} (hdir : dir < 64)
    (htd : typeAt d dir = sfsDir) {name : List UInt8} (hlook : findNamed (slotsAt d dir) name = none)
    {new : Dirent} {ino : Nat} (hnew : new.Names ino name) : new.isReal = true := by
  have hno := findNamed_none.mp hlook
  rw [isReal_iff, hnew.str]
  constructor
  · intro heq
    obtain ⟨de, hde, -⟩ := h.names.self dir hdir htd
    have hmem : de ∈ named (entriesAt d dir) dot := by rw [hde]; exact List.mem_singleton_self de
    obtain ⟨hin, hstr⟩ := List.mem_filter.mp hmem
    exact hno de hin ((beq_iff_eq.mp hstr).trans (take_eq_short heq (by decide)).symm)
  · intro heq
    obtain ⟨de, hde, -⟩ := h.names.up dir hdir htd
    have hmem : de ∈ named (entriesAt d dir) dotdot := by
      rw [hde]
      exact List.mem_singleton_self de
    obtain ⟨hin, hstr⟩ := List.mem_filter.mp hmem
    exact hno de hin ((beq_iff_eq.mp hstr).trans (take_eq_short heq (by decide)).symm)

theorem Inv.create {d e : Disk} (h : Inv d) {dir ino : Nat} {name : List UInt8} {type : UInt32}
    (hdir : dir < 64) (htd : typeAt d dir = sfsDir) (htype : type = sfsFile ∨ type = sfsDir)
    (hlook : findNamed (slotsAt d dir) name = none) (hfree : firstFree d = some ino)
    (heff : CreateEffect dir name type ino d e) : Inv e := by
  obtain ⟨hino, hti⟩ := firstFree_some hfree
  obtain ⟨new, hnew, hperm⟩ := heff.added
  have hne : dir ≠ ino := by
    rintro rfl
    exact absurd (htd.symm.trans hti) (by decide)
  refine ⟨?_, heff.sound, ?_, ?_⟩
  · rw [heff.frame.super]
    exact h.magic
  · intro i hi
    by_cases hid : i = dir
    · rw [hid]
      exact heff.sizedDir
    · by_cases hii : i = ino
      · rw [hii]
        exact heff.sizedIno
      · rw [heff.frame.inode i hi (not_or.mpr ⟨hid, hii⟩)]
        exact h.sized i hi
  · refine Linked.names h.names ⟨hdir, htd, hino, hti, htype, ?_, h.fresh_isReal hdir htd hlook hnew,
      hnew.target, ⟨hnew.nul, hnew.inum1_ne_zero⟩, hperm, ?_, ?_⟩
    · intro j hj
      by_cases hji : j = ino
      · rw [if_pos hji, hji, heff.typeIno]
      · rw [if_neg hji]
        by_cases hjd : j = dir
        · rw [hjd, heff.typeDir, htd]
        · exact heff.frame.typeAt hj (not_or.mpr ⟨hjd, hji⟩)
    · intro j hj hjd hji
      exact heff.frame.entriesAt hj (not_or.mpr ⟨hjd, hji⟩)
    · intro ht
      obtain ⟨a, b, heq, ha, hb⟩ := heff.made ht
      refine ⟨a, b, heq, ha.str, ha.target, hb.str, hb.target, ?_⟩
      intro de hde
      rcases List.mem_cons.mp hde with rfl | hde
      · exact ⟨ha.nul, ha.inum1_ne_zero⟩
      · obtain rfl := List.mem_singleton.mp hde
        exact ⟨hb.nul, hb.inum1_ne_zero⟩

theorem Inv.store {d e : Disk} (h : Inv d) {i len : Nat} {data : Nat → UInt8}
    (ht : typeAt d i = sfsFile) (hlen : len ≤ 7168) (heff : StoreEffect i data len d e) : Inv e := by
  refine ⟨?_, heff.sound, ?_, ?_⟩
  · rw [heff.frame.super]
    exact h.magic
  · intro j hj
    by_cases hji : j = i
    · rw [hji]
      refine ⟨_, heff.filled, ?_, fun _ => ⟨by rw [heff.size]; exact hlen, by rw [heff.size]⟩, ?_⟩
      · intro hfree
        exact absurd (hfree.symm.trans heff.type) (by decide)
      · intro hdir
        exact absurd (hdir.symm.trans heff.type) (by decide)
    · rw [heff.frame.inode j hj hji]
      exact h.sized j hj
  · apply h.names.congr
    · intro j hj
      by_cases hji : j = i
      · rw [hji, heff.type, ht]
      · exact heff.frame.typeAt hj hji
    · intro j hj hdir
      have hji : j ≠ i := by
        rintro rfl
        exact absurd (hdir.symm.trans ht) (by decide)
      exact heff.frame.entriesAt hj hji

theorem Inv.unlink {d e : Disk} (h : Inv d) {dir : Nat} {name : List UInt8} {de : Dirent}
    (hdir : dir < 64) (htd : typeAt d dir = sfsDir)
    (hlook : findNamed (slotsAt d dir) name = some de) (hreal : de.isReal = true)
    (hleaf : typeAt d de.target = sfsDir → children (entriesAt d de.target) = [])
    (heff : UnlinkEffect dir name de.target d e) : Inv e := by
  have hedge : Edge (typeAt d) (entriesAt d) dir de.target :=
    ⟨hdir, htd, mem_children (findNamed_mem hlook).1 hreal⟩
  have hne : dir ≠ de.target := by
    intro heq
    exact h.names.tree.acyclic (TransGen.single (heq ▸ hedge))
  have hfreed : typeAt e de.target = sfsFree := by
    unfold typeAt
    rw [heff.freed]
    rfl
  refine ⟨?_, heff.sound, ?_, ?_⟩
  · rw [heff.frame.super]
    exact h.magic
  · intro i hi
    by_cases hii : i = de.target
    · rw [hii, heff.freed]
      exact ⟨0, Inode.filled_zero, fun _ => rfl, fun ht => absurd ht (by decide),
        fun ht => absurd ht (by decide)⟩
    · by_cases hid : i = dir
      · rw [hid, heff.inode]
        exact h.sized dir hdir
      · rw [heff.frame.inode i hi (not_or.mpr ⟨hid, hii⟩)]
        exact h.sized i hi
  · refine Unlinked.names h.names ⟨hdir, htd, hreal, rfl, ?_, ?_, ?_, ?_⟩
    · unfold entriesAt
      rw [heff.slots]
      exact entries_removeSlot hlook
    · intro j hj
      by_cases hji : j = de.target
      · rw [if_pos hji, hji, hfreed]
      · rw [if_neg hji]
        by_cases hjd : j = dir
        · unfold typeAt
          rw [hjd, heff.inode]
        · exact heff.frame.typeAt hj (not_or.mpr ⟨hjd, hji⟩)
    · intro j hj hjd hji
      exact heff.frame.entriesAt hj (not_or.mpr ⟨hjd, hji⟩)
    · rintro c ⟨-, ht, hc⟩
      rw [hleaf ht] at hc
      exact absurd hc (by simp)

/-! ## Format -/

theorem run_clearTable (bs : List Nat) (d : Disk) :
    ∃ e, (clearTable bs).run flat d = ((), e) ∧
      ∀ p, e p = if ∃ b ∈ bs, p = 1 + b then Block.zero else d p := by
  induction bs generalizing d with
  | nil => exact ⟨d, rfl, fun p => by simp⟩
  | cons b bs ih =>
    obtain ⟨e, hrun, he⟩ := ih (Function.update d (1 + b) Block.zero)
    refine ⟨e, ?_, ?_⟩
    · rw [clearTable, Prog.run_bind, run_writeBlock, hrun]
    · intro p
      rw [he p]
      by_cases hp : p = 1 + b
      · rw [hp, Function.update_self, ite_self, if_pos ⟨b, List.mem_cons_self, rfl⟩]
      · rw [Function.update_of_ne hp]
        simp [hp]

-- With the table and the bitmap cleared nothing is allocated.
theorem sound_blank {d : Disk} (h : ∀ p, 1 ≤ p → p < 10 → d p = Block.zero) : Sound d := by
  have hino : ∀ i, i < 64 → inodeAt d i = Inode.zero := by
    intro i hi
    unfold inodeAt
    rw [h _ (by omega) (by omega), Block.inode_zero]
  have hcell : ∀ c, cell (table d) c = none := by
    rintro ⟨i, b⟩
    rw [cell_eq_none]
    unfold table
    rw [hino i i.isLt, Inode.ptr_zero]
  refine ⟨⟨⟨?_, ?_⟩, ?_⟩, ?_⟩
  · intro c c' p hc
    exact absurd ((hcell c).symm.trans hc) (by simp)
  · intro p
    unfold UsedBlock
    rw [h 9 (by decide) (by decide), Block.bit_zero]
    constructor
    · rintro ⟨-, hbit⟩
      exact absurd hbit (by simp)
    · rintro ⟨c, hc⟩
      exact absurd ((hcell c).symm.trans hc) (by simp)
  · intro c p hc
    exact absurd ((hcell c).symm.trans hc) (by simp)
  · intro j hj
    rw [hino j hj]
    exact ⟨0, Inode.filled_zero⟩

-- `format` leaves a root directory with its two entries and nothing else.
theorem run_format (d : Disk) :
    ∃ e, format.run flat d = ((), e) ∧ Inv e ∧
      (∀ j, j < 64 → j ≠ 0 → typeAt e j = sfsFree) ∧
      ∃ a b, entriesAt e 0 = [a, b] ∧ a.Names 0 dot ∧ b.Names 0 dotdot := by
  obtain ⟨d1, hrun1, hd1⟩ := run_clearTable (List.range 8) (Function.update d 0 superblock)
  have hblank : ∀ p, 1 ≤ p → p < 10 → Function.update d1 9 Block.zero p = Block.zero := by
    intro p h1 h10
    by_cases hp : p = 9
    · rw [hp, Function.update_self]
    · rw [Function.update_of_ne hp, hd1, if_pos ⟨p - 1, List.mem_range.mpr (by omega), by omega⟩]
  have hsound := sound_blank hblank
  have hino : ∀ i, i < 64 → inodeAt (Function.update d1 9 Block.zero) i = Inode.zero := by
    intro i hi
    unfold inodeAt
    rw [hblank _ (by omega) (by omega), Block.inode_zero]
  have hempty : (inodeAt (Function.update d1 9 Block.zero) 0).Filled 0 := by
    rw [hino 0 (by decide)]
    exact Inode.filled_zero
  have hroot : 0 < 64 := by decide
  obtain ⟨d2, e, hrun2, hrun3, hmk⟩ := run_mkdir hsound hroot hroot hempty
  have hfree : ∀ j, j < 64 → j ≠ 0 → inodeAt e j = Inode.zero := by
    intro j hj hj0
    rw [hmk.frame.inode j hj hj0, hino j hj]
  have hfree' : ∀ j, j < 64 → j ≠ 0 → typeAt e j = sfsFree := by
    intro j hj hj0
    unfold typeAt
    rw [hfree j hj hj0]
    rfl
  obtain ⟨a, b, hents, ha, hb⟩ := hmk.entries
  refine ⟨e, ?_, ⟨?_, hmk.sound, ?_, Namespace.fresh hmk.type hfree' hents ha hb⟩, hfree', a, b,
    hents, ha, hb⟩
  · rw [format, Prog.run_bind, run_writeBlock, Prog.run_bind, hrun1, Prog.run_bind, run_writeBlock,
      Prog.run_bind, run_writeInode, Prog.run_bind]
    show ((dirAdd sfsRoot dotdot sfsRoot >>= fun _ => pure ()).run flat
      ((dirAdd sfsRoot dot sfsRoot).run flat _).2) = _
    rw [show sfsRoot = 0 from rfl, hrun2, Prog.run_bind, hrun3]
    rfl
  · have hnot : ¬ ∃ b ∈ List.range 8, 0 = 1 + b := by
      rintro ⟨b, -, hb⟩
      omega
    rw [hmk.frame.super, Function.update_of_ne (by decide), hd1, if_neg hnot, Function.update_self,
      superblock_magic]
  · intro i hi
    by_cases hi0 : i = 0
    · rw [hi0]
      exact hmk.sized
    · rw [hfree i hi hi0]
      exact ⟨0, Inode.filled_zero, fun _ => rfl, fun ht => absurd ht (by decide),
        fun ht => absurd ht (by decide)⟩

theorem run_sfsInit_blank {d : Disk} (h : (d 0).magic ≠ sfsMagic) :
    sfsInit.run flat d = format.run flat d := by
  rw [sfsInit, Prog.run_bind, run_readBlock]
  dsimp only
  rw [if_pos h]

end JacobOS.Fs
