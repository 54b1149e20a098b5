import JacobOS.Fs.Contents

/-!
# What `sfs_create` and `sfs_unlink` change, and what they ask of their argument

The effects are stated on the answers of `sfs_type`, `sfs_size`, `sfs_read` and `sfs_readdir`: one entry
comes or goes, one inode is taken or freed, and the rest of the file system answers as before.  Every
operation but `sfs_create` refuses an inode of the wrong kind.
-/

namespace JacobOS.Fs

open BlockProgram Ownership CString

/-! ## Listings -/

/-- `sfs_readdir` on inode `i` reports the entries `l`, one for each index, and `-1` after the last. -/
def Lists (d : Disk) (i : Nat) (l : List (Nat × List UInt8)) : Prop :=
  ∀ index, ((sfsReaddir i index).run flat d).1 = l[index]?

/-- The inode and the name that are reported for an entry. -/
def Dirent.pair (de : Dirent) : Nat × List UInt8 := (de.target, de.str)

theorem Inv.lists {d : Disk} (h : Inv d) {i : Nat} (hi : i < 64) (ht : typeAt d i = sfsDir) :
    Lists d i ((entriesAt d i).map Dirent.pair) := by
  intro index
  rw [run_sfsReaddir, if_pos ht, List.getElem?_map]
  cases hde : (entriesAt d i)[index]? with
  | none => rfl
  | some de =>
    rw [Option.bind_some, Option.map_some, report, h.names.inumOf_target hi ht (List.mem_of_getElem? hde)]
    rfl

theorem Dirent.Names.pair {de : Dirent} {child : Nat} {name : List UInt8} (h : de.Names child name) :
    de.pair = (child, (cstr name).take 27) := by
  unfold Dirent.pair
  rw [h.target, h.str]

/-! ## `sfs_create` -/

structure CreateExact (dir : Nat) (name : List UInt8) (type : UInt32) (ino : Nat) (d e : Disk) : Prop where
  free : ((sfsType ino).run flat d).1 = sfsFree
  made : ((sfsType ino).run flat e).1 = type
  file : type = sfsFile →
    ((sfsSize ino).run flat e).1 = 0 ∧ ∀ max, ((sfsRead ino max).run flat e).1 = []
  dots : type = sfsDir → Lists e ino [(ino, dot), (dir, dotdot)]
  entry : ∃ l l', Lists d dir l ∧ Lists e dir l' ∧ l'.Perm ((ino, (cstr name).take 27) :: l)
  others : ∀ j, j < 64 → j ≠ ino → j ≠ dir → SameInode d e j

theorem CreateEffect.exact {d e : Disk} (h : Inv d) {dir ino : Nat} {name : List UInt8} {type : UInt32}
    (hdir : IsDir flat d dir) (htype : type = sfsFile ∨ type = sfsDir)
    (hlook : findNamed (slotsAt d dir) name = none) (hfree : firstFree d = some ino)
    (heff : CreateEffect dir name type ino d e) : CreateExact dir name type ino d e := by
  obtain ⟨hino, hti⟩ := firstFree_some hfree
  have hinv := h.create hdir.1 hdir.2 htype hlook hfree heff
  refine ⟨hti, heff.typeIno, ?_, ?_, ?_, ?_⟩
  · rintro rfl
    have hempty := heff.empty (by decide)
    refine ⟨congrArg Inode.size hempty, fun max => ?_⟩
    rw [run_sfsRead, contentAt, hempty]
    exact List.take_nil
  · rintro rfl
    obtain ⟨a, b, hents, ha, hb⟩ := heff.made rfl
    have hlists := hinv.lists hino heff.typeIno
    rw [hents, List.map_cons, List.map_singleton, ha.pair, hb.pair] at hlists
    exact hlists
  · obtain ⟨new, hnew, hperm⟩ := heff.added
    refine ⟨_, _, h.lists hdir.1 hdir.2, hinv.lists hdir.1 heff.typeDir, ?_⟩
    rw [← hnew.pair]
    exact hperm.map Dirent.pair
  · intro j hj h1 h2
    exact heff.frame.sameInode hj (not_or.mpr ⟨h2, h1⟩)

/-! ## `sfs_unlink` -/

structure UnlinkExact (dir : Nat) (name : List UInt8) (ino : Nat) (d e : Disk) : Prop where
  real : cstr name ≠ dot ∧ cstr name ≠ dotdot
  empty : ((sfsType ino).run flat d).1 = sfsFile ∨ ((sfsType ino).run flat d).1 = sfsDir ∧
    ∃ l, Lists d ino l ∧ ∀ x ∈ l, x.2 = dot ∨ x.2 = dotdot
  /-- The first entry of that name is the one that goes. -/
  entry : ∃ pre post, Lists d dir (pre ++ (ino, cstr name) :: post) ∧ (∀ x ∈ pre, x.2 ≠ cstr name) ∧
    Lists e dir (pre ++ post)
  freed : ((sfsType ino).run flat e).1 = sfsFree
  blocks : ∀ b, (inodeAt d ino).ptr b ≠ 0 → (e 9).bit (((inodeAt d ino).ptr b).toNat - 16) = false
  others : ∀ j, j < 64 → j ≠ ino → j ≠ dir → SameInode d e j

/-! ### Blocks -/

-- The blocks in use are those that some inode points to.
theorem Sound.usedBlock_iff {d : Disk} (h : Sound d) (p : Nat) :
    UsedBlock d p ↔ ∃ j b, j < 64 ∧ (inodeAt d j).ptr b ≠ 0 ∧ ((inodeAt d j).ptr b).toNat = p := by
  rw [h.mapped.owned.used_iff]
  constructor
  · rintro ⟨⟨j, b⟩, hcell⟩
    exact ⟨j, b, j.isLt, cell_eq_some.mp hcell⟩
  · rintro ⟨j, b, hj, hp, heq⟩
    have hb : b < 14 := by
      by_contra hb
      exact hp (Inode.ptr_of_le _ (by omega))
    exact ⟨(⟨j, hj⟩, ⟨b, hb⟩), cell_eq_some.mpr ⟨hp, heq⟩⟩

-- The inodes in `gone` are cleared and the others keep their pointers: just the blocks of `gone` are freed.
theorem Inv.usedBlock_freed {d e : Disk} (h : Inv d) (hsound : Sound e) {gone : Nat → Prop}
    (hgone : ∀ j, j < 64 → gone j → inodeAt e j = Inode.zero)
    (hkept : ∀ j, j < 64 → ¬ gone j → inodeAt e j = inodeAt d j) (p : Nat) :
    UsedBlock e p ↔ UsedBlock d p ∧
      ∀ j b, j < 64 → gone j → (inodeAt d j).ptr b ≠ 0 → ((inodeAt d j).ptr b).toNat ≠ p := by
  rw [hsound.usedBlock_iff, h.sound.usedBlock_iff]
  constructor
  · rintro ⟨j, b, hj, hp, heq⟩
    have hstay : ¬ gone j := by
      intro hg
      rw [hgone j hj hg, Inode.ptr_zero] at hp
      exact hp rfl
    rw [hkept j hj hstay] at hp heq
    refine ⟨⟨j, b, hj, hp, heq⟩, ?_⟩
    intro i c hi hg hq hqp
    have hsame := UInt32.toNat_inj.mp (hqp.trans heq.symm)
    exact hstay ((h.storage.distinct i j hi hj c b hq hsame).1 ▸ hg)
  · rintro ⟨⟨j, b, hj, hp, heq⟩, hfreed⟩
    have hstay : ¬ gone j := fun hg => hfreed j b hj hg hp heq
    refine ⟨j, b, hj, ?_⟩
    rw [hkept j hj hstay]
    exact ⟨hp, heq⟩

theorem UnlinkEffect.blocks_free {d e : Disk} (h : Inv d) {dir ino : Nat} {name : List UInt8}
    (hino : ino < 64) (heff : UnlinkEffect dir name ino d e) {b : Nat}
    (hb : (inodeAt d ino).ptr b ≠ 0) : (e 9).bit (((inodeAt d ino).ptr b).toNat - 16) = false := by
  have hkept : ∀ j, j < 64 → j ≠ ino → inodeAt e j = inodeAt d j := by
    intro j hj hne
    by_cases hjd : j = dir
    · rw [hjd]
      exact heff.inode
    · exact heff.frame.inode j hj (not_or.mpr ⟨hjd, hne⟩)
  rw [Bool.eq_false_iff]
  intro hbit
  have hused : UsedBlock e ((inodeAt d ino).ptr b).toNat := ⟨(h.storage.range ino hino b hb).1, hbit⟩
  have hgone : ∀ j, j < 64 → j = ino → inodeAt e j = Inode.zero := fun j _ hj => hj ▸ heff.freed
  have hfreed := (h.usedBlock_freed heff.sound hgone hkept _).mp hused
  exact hfreed.2 ino b hino rfl hb rfl

-- A directory without children lists `.` and `..` only.
theorem childless_lists {l : List Dirent} (h : children l = []) :
    ∀ x ∈ l.map Dirent.pair, x.2 = dot ∨ x.2 = dotdot := by
  intro x hx
  obtain ⟨de, hde, rfl⟩ := List.mem_map.mp hx
  by_contra hno
  rw [not_or] at hno
  have hin := mem_children hde (isReal_iff.mpr hno)
  rw [h] at hin
  exact absurd hin (by simp)

theorem UnlinkEffect.first_goes {d e : Disk} {dir ino : Nat} {name : List UInt8} {de : Dirent}
    (hlook : findNamed (slotsAt d dir) name = some de) (heff : UnlinkEffect dir name ino d e) :
    ∃ pre post, entriesAt d dir = pre ++ de :: post ∧ (∀ x ∈ pre, x.str ≠ cstr name) ∧
      entriesAt e dir = pre ++ post := by
  obtain ⟨pre, post, heq, hpre, hrest⟩ := entries_removeSlot_split hlook
  refine ⟨pre, post, heq, hpre, ?_⟩
  rw [entriesAt, heff.slots, hrest]

theorem UnlinkEffect.exact {d e : Disk} (h : Inv d) {dir : Nat} {name : List UInt8} {de : Dirent}
    (hdir : IsDir flat d dir) (hlook : findNamed (slotsAt d dir) name = some de)
    (hreal : de.isReal = true)
    (hleaf : typeAt d de.target = sfsDir → children (entriesAt d de.target) = [])
    (heff : UnlinkEffect dir name de.target d e) : UnlinkExact dir name de.target d e := by
  obtain ⟨hmem, hstr⟩ := findNamed_mem hlook
  obtain ⟨-, hino, hlive⟩ := h.names.edge_child ⟨hdir.1, hdir.2, mem_children hmem hreal⟩
  have hinv := h.unlink hdir.1 hdir.2 hlook hreal hleaf heff
  refine ⟨?_, ?_, ?_, ?_, fun b hb => heff.blocks_free h hino hb, ?_⟩
  · rw [← hstr]
    exact isReal_iff.mp hreal
  · rcases h.names.types de.target hino with hfree | hfile | hd
    · exact absurd hfree hlive
    · exact Or.inl hfile
    · exact Or.inr ⟨hd, _, h.lists hino hd, childless_lists (hleaf hd)⟩
  · obtain ⟨pre, post, heq, hpre, hrest⟩ := heff.first_goes hlook
    have hbefore := h.lists hdir.1 hdir.2
    have hafter := hinv.lists hdir.1 ((congrArg Inode.type heff.inode).trans hdir.2)
    rw [heq, List.map_append, List.map_cons] at hbefore
    rw [hrest, List.map_append] at hafter
    refine ⟨pre.map Dirent.pair, post.map Dirent.pair, ?_, ?_, hafter⟩
    · rw [← hstr]
      exact hbefore
    · intro x hx
      obtain ⟨y, hy, rfl⟩ := List.mem_map.mp hx
      exact hpre y hy
  · exact congrArg Inode.type heff.freed
  · intro j hj h1 h2
    exact heff.frame.sameInode hj (not_or.mpr ⟨h2, h1⟩)

/-- A successful `sfs_create` makes one object and one entry, a successful `sfs_unlink` removes one of
each, and neither touches anything else. -/
theorem create_unlink_exact {d₀ d : Disk} (h₀ : (d₀ 0).magic ≠ sfsMagic) (h : Reachable flat d₀ d)
    {dir : Nat} (hdir : IsDir flat d dir) (name : List UInt8) :
    (∀ type ino e, type = sfsFile ∨ type = sfsDir →
        (sfsCreate dir name type).run flat d = (some ino, e) → CreateExact dir name type ino d e) ∧
      ∀ e, (sfsUnlink dir name).run flat d = (some 0, e) →
        ∃ ino, ((sfsLookup dir name).run flat d).1 = some ino ∧ UnlinkExact dir name ino d e := by
  have hinv := inv_reachable h₀ h
  constructor
  · intro type ino e htype hrun
    rcases run_sfsCreate hinv hdir.1 hdir.2 name htype with ⟨-, hno⟩ | ⟨ino', e', hlook, hfree, hrun', heff⟩
    · rw [hno] at hrun
      exact absurd (congrArg Prod.fst hrun) (by simp)
    · obtain ⟨rfl, rfl⟩ : ino' = ino ∧ e' = e := by simpa using hrun'.symm.trans hrun
      exact heff.exact hinv hdir htype hlook hfree
  · intro e hrun
    rcases run_sfsUnlink hinv hdir.1 hdir.2 name with ⟨-, hno⟩ | ⟨de, e', hlook, hreal, hleaf, hrun', heff⟩
    · rw [hno] at hrun
      exact absurd (congrArg Prod.fst hrun) (by simp)
    · obtain rfl : e' = e := congrArg Prod.snd (hrun'.symm.trans hrun)
      refine ⟨de.target, ?_, heff.exact hinv hdir hlook hreal hleaf⟩
      unfold sfsLookup
      rw [run_sfsLookup hinv hdir.1 hdir.2, hlook]
      rfl

-- The first file of a fresh disk comes and goes.
theorem create_unlink_exact_blank :
    ∃ d e g, (sfsCreate sfsRoot [0x61] sfsFile).run flat d = (some 1, e) ∧
      CreateExact sfsRoot [0x61] sfsFile 1 d e ∧
      (sfsUnlink sfsRoot [0x61]).run flat e = (some 0, g) ∧
      ∃ ino, ((sfsLookup sfsRoot [0x61]).run flat e).1 = some ino ∧ UnlinkExact sfsRoot [0x61] ino e g := by
  obtain ⟨d, e, hd, he, hcreate, hnone, hfirst, heff, -⟩ :=
    @create_blank [0x61] (by decide) (by decide) sfsFile (Or.inl rfl)
  have hinv := inv_reachable blankDisk_magic hd
  have hinv' := inv_reachable blankDisk_magic he
  have hroot := isDir_root hinv
  have hroot' := isDir_root hinv'
  have hfound := lookup_created hinv hroot (Or.inl rfl) (hnone _ (by decide) (by decide)) hfirst heff
  rw [if_pos (by decide)] at hfound
  obtain ⟨de, hde, htgt⟩ := Option.map_eq_some_iff.mp hfound
  rcases run_sfsUnlink hinv' hroot'.1 hroot'.2 [0x61] with ⟨hwhy, -⟩ | ⟨_, g, -, -, -, hunlink, -⟩
  · rcases hwhy with hdots | hno | ⟨de', hde', hdir, -⟩
    · exact absurd hdots (by decide)
    · exact absurd (hde.symm.trans hno) (by simp)
    · obtain rfl : de = de' := by simpa using hde.symm.trans hde'
      rw [htgt, heff.typeIno] at hdir
      exact absurd hdir (by decide)
  · exact ⟨d, e, g, hcreate, (create_unlink_exact blankDisk_magic hd hroot _).1 _ _ _ (Or.inl rfl) hcreate,
      hunlink, (create_unlink_exact blankDisk_magic he hroot' _).2 g hunlink⟩

/-! ## Enumeration, lookup and removal -/

/-- The three scans of directory `dir` go through the same list `l`, which has an element for each slot that
is in use, in the order of the slots. -/
structure ScansAgree (d : Disk) (dir : Nat) (l : List (Nat × List UInt8)) : Prop where
  occupied : l = ((slotsAt d dir).filter fun de => de.inum1 != 0).map Dirent.pair
  listed : ∀ i (hi : i < l.length), ((sfsReaddir dir i).run flat d).1 = some (l.get ⟨i, hi⟩)
  ended : ∀ i, l.length ≤ i → ((sfsReaddir dir i).run flat d).1 = none
  lookup : ∀ name, ((sfsLookup dir name).run flat d).1 =
    (l.find? fun x => decide (x.2 = cstr name)).map Prod.fst
  absent : ∀ name, ((sfsLookup dir name).run flat d).1 = none ↔ ∀ x ∈ l, x.2 ≠ cstr name
  /-- What is removed is what the lookup finds. -/
  unlink : ∀ name r e, (sfsUnlink dir name).run flat d = (some r, e) →
    ∃ pre ino post, l = pre ++ (ino, cstr name) :: post ∧ (∀ x ∈ pre, x.2 ≠ cstr name) ∧
      ((sfsLookup dir name).run flat d).1 = some ino ∧ Lists e dir (pre ++ post)

-- `dir_lookup` on the slots is a search in the listing.
theorem findNamed_pair (slots : List Dirent) (name : List UInt8) :
    (findNamed slots name).map Dirent.target =
      (((entries slots).map Dirent.pair).find? fun x => decide (x.2 = cstr name)).map Prod.fst := by
  unfold findNamed entries
  rw [List.find?_map, List.find?_filter, Option.map_map]
  congr 2
  funext de
  rw [Bool.eq_iff_iff, isNamed_iff, decide_eq_true_iff, bne_iff_ne]
  exact and_congr_right fun _ => decide_eq_true_iff.symm

theorem Inv.scansAgree {d : Disk} (h : Inv d) {dir : Nat} (hdir : IsDir flat d dir) :
    ScansAgree d dir ((entriesAt d dir).map Dirent.pair) := by
  have hlists := h.lists hdir.1 hdir.2
  have hlook : ∀ name, (sfsLookup dir name).run flat d = ((findNamed (slotsAt d dir) name).map Dirent.target, d) :=
    fun name => run_sfsLookup h hdir.1 hdir.2 name
  refine ⟨rfl, ?_, ?_, ?_, ?_, ?_⟩
  · intro i hi
    rw [hlists i, List.getElem?_eq_getElem hi]
    rfl
  · intro i hi
    rw [hlists i, List.getElem?_eq_none hi]
  · intro name
    rw [hlook, findNamed_pair]
    rfl
  · intro name
    rw [hlook, Option.map_eq_none_iff, findNamed_none, List.forall_mem_map]
    rfl
  · intro name r e hrun
    rcases run_sfsUnlink h hdir.1 hdir.2 name with ⟨-, hno⟩ | ⟨de, e', hfound, hreal, hleaf, hrun', heff⟩
    · rw [hno] at hrun
      exact absurd (congrArg Prod.fst hrun) (by simp)
    · obtain rfl : e' = e := congrArg Prod.snd (hrun'.symm.trans hrun)
      obtain ⟨pre, post, heq, hpre, hrest⟩ := heff.first_goes hfound
      have hinv := h.unlink hdir.1 hdir.2 hfound hreal hleaf heff
      have hafter := hinv.lists hdir.1 ((congrArg Inode.type heff.inode).trans hdir.2)
      rw [hrest, List.map_append] at hafter
      refine ⟨pre.map Dirent.pair, de.target, post.map Dirent.pair, ?_, ?_, ?_, hafter⟩
      · rw [heq, List.map_append, List.map_cons, ← (findNamed_mem hfound).2]
        rfl
      · rw [List.forall_mem_map]
        exact hpre
      · rw [hlook, hfound]
        rfl

/-- `sfs_readdir`, `sfs_lookup` and `sfs_unlink` see the same entries of a directory in the same order. -/
theorem readdir_lookup_unlink_agree {d₀ d : Disk} (h₀ : (d₀ 0).magic ≠ sfsMagic) (h : Reachable flat d₀ d)
    {dir : Nat} (hdir : IsDir flat d dir) : ∃ l, ScansAgree d dir l :=
  ⟨_, (inv_reachable h₀ h).scansAgree hdir⟩

-- The root with a file in it.
theorem readdir_lookup_unlink_agree_file : ∃ e l, Reachable flat blankDisk e ∧ ScansAgree e sfsRoot l ∧
    (l.find? fun x => decide (x.2 = [0x61])).map Prod.fst = some 1 := by
  obtain ⟨d, e, hd, he, -, hnone, hfirst, heff, -⟩ := @create_blank [0x61] (by decide) (by decide) sfsFile (Or.inl rfl)
  have hinv := inv_reachable blankDisk_magic hd
  have hroot' := isDir_root (inv_reachable blankDisk_magic he)
  have hfound := lookup_created hinv (isDir_root hinv) (Or.inl rfl) (hnone _ (by decide) (by decide)) hfirst heff
  obtain ⟨l, hagree⟩ := readdir_lookup_unlink_agree blankDisk_magic he hroot'
  refine ⟨e, l, he, hagree, ?_⟩
  have hlook := hagree.lookup [0x61]
  rw [sfsLookup, run_sfsLookup (inv_reachable blankDisk_magic he) hroot'.1 hroot'.2, hfound] at hlook
  exact hlook.symm

/-! ## Inodes of the wrong kind -/

/-- On inode `i` every operation for the other kind of inode answers `-1` and leaves the disk as it is. -/
def WrongKindFails (d : Disk) (i : Nat) (name : List UInt8) (type : UInt32) (data : Nat → UInt8)
    (len index : Nat) : Prop :=
  (((sfsType i).run flat d).1 ≠ sfsDir →
      (sfsLookup i name).run flat d = (none, d) ∧ (sfsReaddir i index).run flat d = (none, d) ∧
        (sfsUnlink i name).run flat d = (none, d) ∧ (sfsCreate i name type).run flat d = (none, d)) ∧
    (((sfsType i).run flat d).1 ≠ sfsFile → (sfsWrite i data len).run flat d = (none, d))

theorem run_sfsUnlink_wrongKind {d : Disk} {i : Nat} (ht : typeAt d i ≠ sfsDir) (name : List UInt8) :
    (sfsUnlink i name).run flat d = (none, d) := by
  rw [sfsUnlink]
  by_cases hdots : strcmp name dot = 0 ∨ strcmp name dotdot = 0
  · rw [if_pos hdots]
    rfl
  · rw [if_neg hdots, Prog.run_bind, run_dirLookup, if_neg ht]
    rfl

-- `dir_add` fails before it writes anything.
theorem dirAdd_fails {d : Disk} {dir child : Nat} {name : List UInt8}
    (h : ((dirAdd dir name child).run flat d).1 = none) :
    ((dirAdd dir name child).run flat d).2 = d := by
  rw [dirAdd, Prog.run_bind, run_readInode, Prog.run_bind, scanDirents_inode] at h ⊢
  dsimp only at h ⊢
  cases hs : scanBlocks (fun de => de.inum1 == 0) d (inodeAt d dir).ptrs with
  | some r =>
    rw [hs] at h
    exact absurd h (by simp)
  | none =>
    rw [hs] at h
    dsimp only at h ⊢
    cases hslot : (List.range 14).find? (fun b => decide ((inodeAt d dir).ptr b = 0)) with
    | none => rfl
    | some b =>
      rw [hslot] at h
      dsimp only at h ⊢
      cases hbit : (List.range 2048).find? (fun k => !(d 9).bit k) with
      | none =>
        have halloc : allocBlock.run flat d = (0, d) := by
          rw [allocBlock, Prog.run_bind, run_readBlock]
          dsimp only
          rw [hbit]
          rfl
        rw [Prog.run_bind, halloc]
        rfl
      | some k =>
        have hk : k < 2048 := List.mem_range.mp (List.mem_of_find?_eq_some hbit)
        rw [Prog.run_bind, run_allocBlock_some hbit] at h
        dsimp only at h
        rw [if_neg (Mapped.ofNat_block_ne_zero hk)] at h
        exact absurd h (by simp)

-- `sfs_create` has no check of its own: it takes an inode and then adds an entry to whatever `i` is.
-- Where that fails the inode stays taken.
theorem sfsCreate_wrongKind {d : Disk} (h : Inv d) {i : Nat} (hi : i < 64) (ht : typeAt d i ≠ sfsDir)
    (name : List UInt8) {type : UInt32} (htype : type ≠ sfsFree) :
    (sfsCreate i name type).run flat d = (none, d) ↔ firstFree d = none := by
  rw [sfsCreate, Prog.run_bind, run_dirLookup, if_neg ht]
  dsimp only [Option.isSome_none]
  rw [if_neg (by decide), Prog.run_bind, run_allocInode]
  dsimp only
  cases hfree : firstFree d with
  | none => exact ⟨fun _ => rfl, fun _ => rfl⟩
  | some ino =>
    refine iff_of_false ?_ (by simp)
    obtain ⟨hino, hti⟩ := firstFree_some hfree
    have hlast : ∀ e (next : Option Nat → SfsM (Option Nat)), typeAt e ino = type →
        (∀ r s, ((next (some r)).run flat s).1 ≠ none) → (∀ s, ((next none).run flat s).2 = s) →
        (dirAdd i name ino >>= next).run flat e ≠ (none, d) := by
      intro e next hte hsome hnone hrun
      rw [Prog.run_bind] at hrun
      cases hadd : ((dirAdd i name ino).run flat e).1 with
      | some r =>
        rw [hadd] at hrun
        exact hsome r _ (congrArg Prod.fst hrun)
      | none =>
        rw [hadd, dirAdd_fails hadd] at hrun
        obtain rfl : e = d := (hnone e).symm.trans (congrArg Prod.snd hrun)
        exact htype (hte.symm.trans hti)
    dsimp only
    rw [Prog.run_bind, run_writeInode]
    dsimp only
    by_cases hd : type = sfsDir
    · subst hd
      obtain ⟨d1, d2, hrun1, hrun2, hmk⟩ := run_mkdir h.sound hino hi (h.filled_free hino hti)
      rw [if_pos rfl, Prog.run_bind, hrun1, Prog.run_bind, hrun2]
      exact hlast d2 _ hmk.type (fun _ _ => by simp) (fun _ => rfl)
    · rw [if_neg hd]
      have hti' := congrArg Inode.type (inodeAt_putInode d ino (Inode.ofType type))
      exact hlast _ _ hti' (fun _ _ => by simp) (fun _ => rfl)

/-- Every operation checks the kind of its inode, except that `sfs_create` on anything but a directory
goes ahead as long as an inode is free. -/
theorem wrongKindFails_iff {d₀ d : Disk} (h₀ : (d₀ 0).magic ≠ sfsMagic) (h : Reachable flat d₀ d) {i : Nat}
    (hi : i < 64) (name : List UInt8) {type : UInt32} (htype : type ≠ sfsFree) (data : Nat → UInt8)
    (len index : Nat) :
    WrongKindFails d i name type data len index ↔
      ((sfsType i).run flat d).1 = sfsDir ∨ ∀ j, j < 64 → ((sfsType j).run flat d).1 ≠ sfsFree := by
  have hinv := inv_reachable h₀ h
  have hfull : (∀ j, j < 64 → ((sfsType j).run flat d).1 ≠ sfsFree) ↔ firstFree d = none :=
    firstFree_none.symm
  rw [hfull]
  constructor
  · intro hfails
    by_cases ht : typeAt d i = sfsDir
    · exact Or.inl ht
    · exact Or.inr ((sfsCreate_wrongKind hinv hi ht name htype).mp (hfails.1 ht).2.2.2)
  · intro hwhen
    refine ⟨fun (ht : typeAt d i ≠ sfsDir) => ⟨?_, ?_, run_sfsUnlink_wrongKind ht name, ?_⟩, fun ht => ?_⟩
    · unfold sfsLookup
      rw [run_dirLookup, if_neg ht]
    · rw [run_sfsReaddir, if_neg ht]
    · exact (sfsCreate_wrongKind hinv hi ht name htype).mpr (hwhen.resolve_left ht)
    · rcases run_sfsWrite hinv.sound hi data len with ⟨-, hrun⟩ | ⟨hfile, -⟩
      · exact hrun
      · exact absurd hfile ht

theorem wrongKindFails_iff_root :
    WrongKindFails (sfsInit.run flat blankDisk).2 0 [0x61] sfsFile (fun _ => 0) 1 0 :=
  (wrongKindFails_iff blankDisk_magic .init (by decide) _ (by decide) _ _ _).mpr
    (Or.inl (isDir_root (inv_init blankDisk_magic)).2)

-- A file is made in the first file of a fresh disk.
theorem create_in_file :
    ∃ d ino, Reachable flat blankDisk d ∧ ((sfsType 1).run flat d).1 = sfsFile ∧
      ((sfsCreate 1 [0x62] sfsFile).run flat d).1 = some ino ∧
      ¬ WrongKindFails d 1 [0x62] sfsFile (fun _ => 0) 1 0 := by
  obtain ⟨_, d, -, hreach, -, -, -, heff, hfree⟩ :=
    @create_blank [0x61] (by decide) (by decide) sfsFile (Or.inl rfl)
  have hinv := inv_reachable blankDisk_magic hreach
  have ht : typeAt d 1 ≠ sfsDir := by
    rw [heff.typeIno]
    decide
  obtain ⟨ino, hino⟩ : ∃ ino, firstFree d = some ino := by
    rw [← Option.ne_none_iff_exists']
    intro hnone
    exact firstFree_none.mp hnone 2 (by decide) (hfree 2 (by decide) (by decide))
  obtain ⟨hlt, hti⟩ := firstFree_some hino
  have hne : 1 ≠ ino := by
    rintro rfl
    exact absurd (hti.symm.trans heff.typeIno) (by decide)
  obtain ⟨hs, hframe⟩ := hinv.sound.put_empty hlt (hinv.filled_free hlt hti) (ofType_filled sfsFile)
  have hfill : (inodeAt (putInode d ino (Inode.ofType sfsFile)) 1).Filled 0 := by
    rw [hframe.inode 1 (by decide) hne, heff.empty (by decide)]
    exact ofType_filled sfsFile
  obtain ⟨e, hadd, -⟩ := run_dirAdd hs (by decide) [0x62] ino hfill (Or.inl (by decide))
  have hrun : ((sfsCreate 1 [0x62] sfsFile).run flat d).1 = some ino := by
    rw [sfsCreate, Prog.run_bind, run_dirLookup, if_neg ht]
    dsimp only [Option.isSome_none]
    rw [if_neg (by decide), Prog.run_bind, run_allocInode, hino]
    dsimp only
    rw [Prog.run_bind, run_writeInode, if_neg (by decide), Prog.run_bind, hadd]
    rfl
  refine ⟨d, ino, hreach, heff.typeIno, hrun, ?_⟩
  intro hfails
  rw [(hfails.1 ht).2.2.2] at hrun
  exact absurd hrun (by simp)

end JacobOS.Fs
