import JacobOS.Fs.Namespace

/-!
# What the public operations do

Each of `sfs_create`, `sfs_write` and `sfs_unlink` is run on a disk that satisfies the file system's
invariant `Inv`.  Either it answers `-1` and leaves the disk as it was, or its effect is stated on
the types, entries and contents of the inodes involved; everything else is framed.
-/

namespace JacobOS.Fs

open BlockProgram Ownership FirstMatch CString

/-! ## Entries and slots -/

/-- `de` is the entry that `dir_add` stores for `child` under `name`. -/
structure Dirent.Names (de : Dirent) (child : Nat) (name : List UInt8) : Prop where
  inum1 : de.inum1.toNat = child + 1
  str : de.str = (cstr name).take 27
  nul : 0 ∈ de.name

namespace Dirent.Names

variable {de : Dirent} {child : Nat} {name : List UInt8}

theorem put (de : Dirent) (hchild : child < 64) (name : List UInt8) :
    (de.put child name).Names child name := by
  refine ⟨?_, de.put_str child name, de.put_nul child name⟩
  rw [Dirent.put_inum1, UInt32.toNat_add, UInt32.toNat_ofNat']
  show (child % 2 ^ 32 + 1) % 2 ^ 32 = child + 1
  omega

theorem target (h : de.Names child name) : de.target = child := by
  unfold Dirent.target
  rw [h.inum1, Nat.add_sub_cancel]

theorem inum1_ne_zero (h : de.Names child name) : de.inum1 ≠ 0 := by
  intro h0
  have hn := h.inum1
  rw [h0] at hn
  exact absurd hn (by change 0 ≠ child + 1; omega)

end Dirent.Names

theorem entries_cons_pos {de : Dirent} (h : de.inum1 ≠ 0) (l : List Dirent) :
    entries (de :: l) = de :: entries l := List.filter_cons_of_pos (by simpa using h)

theorem entries_cons_neg {de : Dirent} (h : de.inum1 = 0) (l : List Dirent) :
    entries (de :: l) = entries l := List.filter_cons_of_neg (by simpa using h)

theorem entries_replicate_zero (k : Nat) : entries (List.replicate k Dirent.zero) = [] := by
  unfold entries
  rw [List.filter_eq_nil_iff]
  intro de hde
  rw [(List.mem_replicate.mp hde).2]
  simp [Dirent.zero]

theorem mem_entries {de : Dirent} {l : List Dirent} : de ∈ entries l ↔ de ∈ l ∧ de.inum1 ≠ 0 := by
  unfold entries
  rw [List.mem_filter]
  simp

/-- The entries before the first free slot. -/
def frontOf (slots : List Dirent) : List Dirent := slots.takeWhile fun de => de.inum1 != 0

theorem frontOf_append {pre : List Dirent} (hpre : ∀ de ∈ pre, de.inum1 ≠ 0) (post : List Dirent) :
    frontOf (pre ++ post) = pre ++ frontOf post :=
  List.takeWhile_append_of_pos fun de hde => by simpa using hpre de hde

theorem entries_eq_self {l : List Dirent} (h : ∀ de ∈ l, de.inum1 ≠ 0) : entries l = l := by
  unfold entries
  rw [List.filter_eq_self]
  intro de hde
  simpa using h de hde

-- One free slot becomes the new entry; every other entry stays where it is.
theorem entries_addSlot_split {child : Nat} (hchild : child < 64) (slots : List Dirent)
    (name : List UInt8) :
    ∃ new post, new.Names child name ∧ entries slots = frontOf slots ++ post ∧
      entries (addSlot slots name child) = frontOf slots ++ new :: post := by
  unfold addSlot
  by_cases hany : slots.any (fun de => de.inum1 == 0) = true
  · obtain ⟨de, hde⟩ : ∃ de, slots.find? (fun de => de.inum1 == 0) = some de := by
      rw [← Option.isSome_iff_exists, List.find?_isSome]
      simpa using hany
    obtain ⟨pre, post, rfl, hhit, hpre⟩ := find?_split hde
    have hnew := Dirent.Names.put de hchild name
    have hfree : de.inum1 = 0 := by simpa using hhit
    have hocc : ∀ x ∈ pre, x.inum1 ≠ 0 := fun x hx => by simpa using hpre x hx
    have hfront : frontOf (pre ++ de :: post) = pre := by
      rw [frontOf_append hocc, frontOf, List.takeWhile_cons_of_neg (by simp [hfree]), List.append_nil]
    refine ⟨de.put child name, entries post, hnew, ?_, ?_⟩
    · rw [hfront, entries_append, entries_cons_neg hfree, entries_eq_self hocc]
    · rw [if_pos hany, modifyFirst_split (p := fun de : Dirent => de.inum1 == 0) hhit hpre, hfront,
        entries_append, entries_cons_pos hnew.inum1_ne_zero, entries_eq_self hocc]
  · have hnew := Dirent.Names.put Dirent.zero hchild name
    have hocc : ∀ x ∈ slots, x.inum1 ≠ 0 := by simpa using hany
    have hfront : frontOf slots = slots := by
      have happ := frontOf_append hocc []
      rw [List.append_nil] at happ
      exact happ.trans (List.append_nil slots)
    refine ⟨Dirent.zero.put child name, [], hnew, ?_, ?_⟩
    · rw [hfront, List.append_nil, entries_eq_self hocc]
    · rw [if_neg hany, hfront, entries_append, entries_cons_pos hnew.inum1_ne_zero, entries_replicate_zero,
        entries_eq_self hocc]

theorem entries_addSlot {child : Nat} (hchild : child < 64) (slots : List Dirent)
    (name : List UInt8) :
    ∃ new, new.Names child name ∧ (entries (addSlot slots name child)).Perm (new :: entries slots) := by
  obtain ⟨new, post, hnew, heq, hadd⟩ := entries_addSlot_split hchild slots name
  rw [heq, hadd]
  exact ⟨new, hnew, List.perm_middle⟩

theorem addSlot_ne_nil (slots : List Dirent) (name : List UInt8) (child : Nat) :
    addSlot slots name child ≠ [] := by
  unfold addSlot
  by_cases hany : slots.any (fun de => de.inum1 == 0) = true
  · rw [if_pos hany, ← List.length_pos_iff, length_modifyFirst, List.length_pos_iff]
    rintro rfl
    exact absurd hany (by simp)
  · rw [if_neg hany]
    simp

-- The first entry of that name goes; every other entry stays where it is.
theorem entries_removeSlot_split {slots : List Dirent} {name : List UInt8} {de : Dirent}
    (h : findNamed slots name = some de) :
    ∃ pre post, entries slots = pre ++ de :: post ∧ (∀ x ∈ pre, x.str ≠ cstr name) ∧
      entries (removeSlot slots name) = pre ++ post := by
  obtain ⟨pre, post, rfl, hhit, hpre⟩ := find?_split h
  refine ⟨entries pre, entries post, ?_, ?_, ?_⟩
  · rw [entries_append, entries_cons_pos (isNamed_iff.mp hhit).1]
  · intro x hx hstr
    obtain ⟨hmem, hocc⟩ := mem_entries.mp hx
    have hno := hpre x hmem
    rw [isNamed_iff.mpr ⟨hocc, hstr⟩] at hno
    exact absurd hno (by simp)
  · unfold removeSlot
    rw [modifyFirst_split hhit hpre, entries_append, entries_cons_neg rfl]

theorem entries_removeSlot {slots : List Dirent} {name : List UInt8} {de : Dirent}
    (h : findNamed slots name = some de) :
    (entries slots).Perm (de :: entries (removeSlot slots name)) := by
  obtain ⟨pre, post, heq, -, hrest⟩ := entries_removeSlot_split h
  rw [heq, hrest]
  exact List.perm_middle

/-! ## Lookup -/

theorem findNamed_mem {slots : List Dirent} {name : List UInt8} {de : Dirent}
    (h : findNamed slots name = some de) : de ∈ entries slots ∧ de.str = cstr name := by
  obtain ⟨hocc, hstr⟩ := isNamed_iff.mp (List.find?_some h)
  exact ⟨mem_entries.mpr ⟨List.mem_of_find?_eq_some h, hocc⟩, hstr⟩

theorem findNamed_none {slots : List Dirent} {name : List UInt8} :
    findNamed slots name = none ↔ ∀ de ∈ entries slots, de.str ≠ cstr name := by
  unfold findNamed
  rw [List.find?_eq_none]
  constructor
  · intro h de hde hstr
    obtain ⟨hmem, hocc⟩ := mem_entries.mp hde
    exact h de hmem (isNamed_iff.mpr ⟨hocc, hstr⟩)
  · intro h de hde hnamed
    obtain ⟨hocc, hstr⟩ := isNamed_iff.mp hnamed
    exact h de (mem_entries.mpr ⟨hde, hocc⟩) hstr

namespace Namespace

variable {typ : Nat → UInt32} {ents : Nat → List Dirent}

-- Every entry of a directory points into the inode table.
theorem target_lt (h : Namespace typ ents) {i : Nat} (hi : i < 64) (ht : typ i = sfsDir)
    {de : Dirent} (hde : de ∈ ents i) : de.target < 64 ∧ de.inum1.toNat = de.target + 1 := by
  have hne : de.inum1.toNat ≠ 0 := by
    intro h0
    exact (h.wf i hi ht de hde).2 (UInt32.toNat_inj.mp h0)
  refine ⟨?_, by unfold Dirent.target; omega⟩
  by_cases h1 : de.str = dot
  · obtain ⟨x, hx, htgt⟩ := h.self i hi ht
    have hmem : de ∈ named (ents i) dot := List.mem_filter.mpr ⟨hde, by simp [h1]⟩
    rw [hx, List.mem_singleton] at hmem
    rw [hmem, htgt]
    exact hi
  · by_cases h2 : de.str = dotdot
    · obtain ⟨x, hx, hlt, -⟩ := h.up i hi ht
      have hmem : de ∈ named (ents i) dotdot := List.mem_filter.mpr ⟨hde, by simp [h2]⟩
      rw [hx, List.mem_singleton] at hmem
      rw [hmem]
      exact hlt
    · have hchild : de.target ∈ children (ents i) :=
        List.mem_map.mpr ⟨de, List.mem_filter.mpr ⟨hde, isReal_iff.mpr ⟨h1, h2⟩⟩, rfl⟩
      exact (h.edge_child ⟨hi, ht, hchild⟩).2.1

theorem inumOf_target (h : Namespace typ ents) {i : Nat} (hi : i < 64) (ht : typ i = sfsDir)
    {de : Dirent} (hde : de ∈ ents i) : inumOf de.inum1 = some de.target := by
  obtain ⟨hlt, heq⟩ := h.target_lt hi ht hde
  unfold inumOf
  rw [if_pos (by omega)]
  rfl

end Namespace

/-! ## The invariant -/

/-- The size of an inode fits its number of blocks. -/
def Sized (n : Inode) : Prop := ∃ m, n.Filled m ∧
  (n.type = sfsFree → n = Inode.zero) ∧
  (n.type = sfsFile → n.size.toNat ≤ 7168 ∧ m = (n.size.toNat + 511) / 512) ∧
  (n.type = sfsDir → 1 ≤ m ∧ n.size.toNat = 512 * m)

structure Inv (d : Disk) : Prop where
  magic : (d 0).magic = sfsMagic
  sound : Sound d
  sized : ∀ i, i < 64 → Sized (inodeAt d i)
  names : Namespace (typeAt d) (entriesAt d)

-- A free inode has no blocks.
theorem Inv.filled_free {d : Disk} (h : Inv d) {i : Nat} (hi : i < 64) (ht : typeAt d i = sfsFree) :
    (inodeAt d i).Filled 0 := by
  obtain ⟨m, -, hzero, -⟩ := h.sized i hi
  rw [hzero ht]
  exact Inode.filled_zero

theorem run_sfsLookup {d : Disk} (h : Inv d) {dir : Nat} (hdir : dir < 64)
    (ht : typeAt d dir = sfsDir) (name : List UInt8) :
    (dirLookup dir name).run flat d =
      ((findNamed (slotsAt d dir) name).map Dirent.target, d) := by
  rw [run_dirLookup, if_pos ht]
  cases hf : findNamed (slotsAt d dir) name with
  | none => rfl
  | some de => rw [Option.bind_some, h.names.inumOf_target hdir ht (findNamed_mem hf).1, Option.map_some]

/-! ## Making a directory -/

namespace Sound

variable {d : Disk}

-- An inode without blocks is replaced by another one without blocks.
theorem put_empty (h : Sound d) {i : Nat} (hi : i < 64) (hold : (inodeAt d i).Filled 0) {n : Inode}
    (hn : n.Filled 0) : Sound (putInode d i n) ∧ Frame (· = i) d (putInode d i n) := by
  have hframe : Frame (· = i) d (putInode d i n) :=
    (KeepsOwned.refl (Function.update (table d) ⟨i, hi⟩ n) d).frame hi h.mapped h.filled
  have hmap : Mapped d (Function.update (table d) ⟨i, hi⟩ n) := by
    have hstart := h.mapped
    rw [← Mapped.update_table hi] at hstart
    apply hstart.congr_inode
    intro b
    rw [hn.ptr_eq_zero (Nat.zero_le b), hold.ptr_eq_zero (Nat.zero_le b)]
  have hfill : (inodeAt (putInode d i n) i).Filled 0 := (inodeAt_putInode d i n).symm ▸ hn
  exact ⟨h.of_frame hframe (hmap.putInode_pending hi rfl) hfill, hframe⟩

end Sound

theorem ofType_filled (type : UInt32) : (Inode.ofType type).Filled 0 := by
  intro b
  simp

theorem length_slotsAt {d : Disk} {i m : Nat} (hm : (inodeAt d i).Filled m) :
    (slotsAt d i).length = 16 * m := by
  unfold slotsAt
  rw [length_slotsOf, hm.length_ptrs]

namespace AddEffect

variable {dir child : Nat} {name : List UInt8} {d e : Disk}

-- A directory stays as large as its blocks, and is not empty any more.
theorem size_eq (h : AddEffect dir name child d e) {m : Nat} (hm : (inodeAt d dir).Filled m)
    (hsize : (inodeAt d dir).size.toNat = 512 * m) :
    ∃ m', 1 ≤ m' ∧ (inodeAt e dir).Filled m' ∧ (inodeAt e dir).size.toNat = 512 * m' := by
  have hpos : ∀ m', (inodeAt e dir).Filled m' → 1 ≤ m' := by
    intro m' hm'
    have hlen := length_slotsAt hm'
    have hne := List.length_pos_iff.mpr (addSlot_ne_nil (slotsAt d dir) name child)
    rw [← h.slots] at hne
    omega
  have hm14 := hm.le
  rcases h.size m hm with ⟨hfill, heq⟩ | ⟨hfill, heq⟩
  · exact ⟨m, hpos m hfill, hfill, by rw [heq, hsize]⟩
  · refine ⟨m + 1, hpos _ hfill, hfill, ?_⟩
    rw [heq, UInt32.toNat_add, hsize]
    show (512 * m + 512) % 2 ^ 32 = 512 * (m + 1)
    omega

end AddEffect

theorem Sized.dir {n : Inode} (ht : n.type = sfsDir) {m : Nat} (hm : 1 ≤ m) (hfill : n.Filled m)
    (hsize : n.size.toNat = 512 * m) : Sized n := by
  refine ⟨m, hfill, ?_, ?_, fun _ => ⟨hm, hsize⟩⟩
  · intro hfree
    exact absurd (hfree.symm.trans ht) (by decide)
  · intro hfile
    exact absurd (hfile.symm.trans ht) (by decide)

/-- What `sfs_create` and `format` do to give inode `ino` the entries of a new directory. -/
structure MkdirEffect (ino parent : Nat) (d e : Disk) : Prop where
  sound : Sound e
  frame : Frame (· = ino) d e
  type : typeAt e ino = sfsDir
  sized : Sized (inodeAt e ino)
  entries : ∃ a b, entriesAt e ino = [a, b] ∧ a.Names ino dot ∧ b.Names parent dotdot

theorem run_mkdir {d : Disk} (h : Sound d) {ino parent : Nat} (hino : ino < 64)
    (hparent : parent < 64) (hempty : (inodeAt d ino).Filled 0) :
    ∃ d1 e, (dirAdd ino dot ino).run flat (putInode d ino (Inode.ofType sfsDir)) = (some 0, d1) ∧
      (dirAdd ino dotdot parent).run flat d1 = (some 0, e) ∧ MkdirEffect ino parent d e := by
  obtain ⟨hs0, hf0⟩ := h.put_empty hino hempty (ofType_filled sfsDir)
  have hino0 := inodeAt_putInode d ino (Inode.ofType sfsDir)
  have hfill0 : (inodeAt (putInode d ino (Inode.ofType sfsDir)) ino).Filled 0 := by
    rw [hino0]
    exact ofType_filled sfsDir
  have hslots0 : slotsAt (putInode d ino (Inode.ofType sfsDir)) ino = [] :=
    List.length_eq_zero_iff.mp (length_slotsAt hfill0)
  have hsize0 : (inodeAt (putInode d ino (Inode.ofType sfsDir)) ino).size.toNat = 512 * 0 := by
    rw [hino0]
    rfl
  have htype0 : typeAt (putInode d ino (Inode.ofType sfsDir)) ino = sfsDir := by
    unfold typeAt
    rw [hino0]
    rfl
  -- the first entry grows the directory to one block, the second goes into its next slot
  obtain ⟨d1, hrun1, h1⟩ := run_dirAdd hs0 hino dot ino hfill0 (Or.inl (by decide))
  obtain ⟨m1, -, hfill1, hsize1⟩ := h1.size_eq hfill0 hsize0
  have hslots1 : slotsAt d1 ino = Dirent.zero.put ino dot :: List.replicate 15 Dirent.zero := by
    rw [h1.slots, hslots0]
    rfl
  have hm1 : m1 = 1 := by
    have hlen := length_slotsAt hfill1
    rw [hslots1, List.length_cons, List.length_replicate] at hlen
    omega
  obtain ⟨e, hrun2, h2⟩ := run_dirAdd h1.sound hino dotdot parent hfill1 (Or.inl (by omega))
  obtain ⟨m2, hm2, hfill2, hsize2⟩ := h2.size_eq hfill1 hsize1
  have hdot := Dirent.Names.put Dirent.zero hino dot
  have hdotdot := Dirent.Names.put Dirent.zero hparent dotdot
  have hslots2 : slotsAt e ino = Dirent.zero.put ino dot :: Dirent.zero.put parent dotdot ::
      List.replicate 14 Dirent.zero := by
    have hocc : ((Dirent.zero.put ino dot).inum1 == 0) = false := by
      simpa using hdot.inum1_ne_zero
    rw [h2.slots, hslots1]
    unfold addSlot
    rw [if_pos (by simp [Dirent.zero, List.replicate_succ]), modifyFirst, if_neg (by simp [hocc])]
    rfl
  have htype : typeAt e ino = sfsDir := by
    rw [h2.type, h1.type, htype0]
  refine ⟨d1, e, hrun1, hrun2, h2.sound, ?_, htype, Sized.dir htype hm2 hfill2 hsize2, ?_⟩
  · exact ((hf0.trans h1.frame).trans h2.frame).mono (by rintro j ((hj | hj) | hj) <;> exact hj)
  · refine ⟨Dirent.zero.put ino dot, Dirent.zero.put parent dotdot, ?_, hdot, hdotdot⟩
    unfold entriesAt
    rw [hslots2, entries_cons_pos hdot.inum1_ne_zero, entries_cons_pos hdotdot.inum1_ne_zero,
      entries_replicate_zero]

/-! ## `sfs_create` -/

theorem firstFree_some {d : Disk} {ino : Nat} (h : firstFree d = some ino) :
    ino < 64 ∧ typeAt d ino = sfsFree := by
  refine ⟨List.mem_range.mp (List.mem_of_find?_eq_some h), ?_⟩
  have hfree := List.find?_some h
  exact of_decide_eq_true hfree

theorem firstFree_none {d : Disk} : firstFree d = none ↔ ∀ i, i < 64 → typeAt d i ≠ sfsFree := by
  unfold firstFree typeAt
  rw [List.find?_eq_none]
  simp

structure CreateEffect (dir : Nat) (name : List UInt8) (type : UInt32) (ino : Nat) (d e : Disk) :
    Prop where
  sound : Sound e
  frame : Frame (fun j => j = dir ∨ j = ino) d e
  typeIno : typeAt e ino = type
  typeDir : typeAt e dir = sfsDir
  sizedIno : Sized (inodeAt e ino)
  sizedDir : Sized (inodeAt e dir)
  added : ∃ new, new.Names ino name ∧ (entriesAt e dir).Perm (new :: entriesAt d dir)
  made : type = sfsDir → ∃ a b, entriesAt e ino = [a, b] ∧ a.Names ino dot ∧ b.Names dir dotdot
  empty : type ≠ sfsDir → inodeAt e ino = Inode.ofType type

-- A directory never runs out of slots: it has at most 65 entries and room for 224.
theorem Inv.room {d : Disk} (h : Inv d) {dir : Nat} (hdir : dir < 64) (ht : typeAt d dir = sfsDir)
    {m : Nat} (hm : (inodeAt d dir).Filled m) : m < 14 ∨ ∃ de ∈ slotsAt d dir, de.inum1 = 0 := by
  by_contra hfull
  simp only [not_or, not_lt, not_exists, not_and] at hfull
  obtain ⟨hm14, hocc⟩ := hfull
  have hall : entriesAt d dir = slotsAt d dir := entries_eq_self hocc
  have hle := h.names.length_le hdir ht
  rw [hall, length_slotsAt hm] at hle
  omega

-- The last step of `sfs_create`: the new inode is in place on `d1` and gets its name.
theorem run_addName {d d1 : Disk} (h : Inv d) {dir ino : Nat} (hdir : dir < 64)
    (htd : typeAt d dir = sfsDir) (hino : ino < 64) (hne : dir ≠ ino) (hs : Sound d1)
    (hframe : Frame (· = ino) d d1) (name : List UInt8) :
    ∃ e, (dirAdd dir name ino).run flat d1 = (some 0, e) ∧ AddEffect dir name ino d1 e ∧
      Sized (inodeAt e dir) ∧ slotsAt e dir = addSlot (slotsAt d dir) name ino ∧
      ∃ new, new.Names ino name ∧ (entriesAt e dir).Perm (new :: entriesAt d dir) := by
  obtain ⟨m, hm, -, -, hdirsize⟩ := h.sized dir hdir
  obtain ⟨hm1, hsize⟩ := hdirsize htd
  have hroom := h.room hdir htd hm
  rw [← hframe.slotsAt hdir hne] at hroom
  rw [← hframe.inode dir hdir hne] at hm hsize
  obtain ⟨e, hrun, heff⟩ := run_dirAdd hs hdir name ino hm hroom
  obtain ⟨m', hm', hfill', hsize'⟩ := heff.size_eq hm hsize
  have ht : (inodeAt e dir).type = sfsDir := by
    show typeAt e dir = sfsDir
    rw [heff.type, hframe.typeAt hdir hne, htd]
  have hslots : slotsAt e dir = addSlot (slotsAt d dir) name ino := by
    rw [heff.slots, hframe.slotsAt hdir hne]
  refine ⟨e, hrun, heff, Sized.dir ht hm' hfill' hsize', hslots, ?_⟩
  unfold entriesAt
  rw [hslots]
  exact entries_addSlot hino _ name

theorem createEffect_dir {d : Disk} (h : Inv d) {dir ino : Nat} (hdir : dir < 64)
    (htd : typeAt d dir = sfsDir) (hino : ino < 64) (hne : dir ≠ ino)
    (hempty : (inodeAt d ino).Filled 0) (name : List UInt8) :
    ∃ d1 d2 e, (dirAdd ino dot ino).run flat (putInode d ino (Inode.ofType sfsDir)) = (some 0, d1) ∧
      (dirAdd ino dotdot dir).run flat d1 = (some 0, d2) ∧
      (dirAdd dir name ino).run flat d2 = (some 0, e) ∧ slotsAt e dir = addSlot (slotsAt d dir) name ino ∧
      CreateEffect dir name sfsDir ino d e := by
  obtain ⟨d1, d2, hrun1, hrun2, hmk⟩ := run_mkdir h.sound hino hdir hempty
  obtain ⟨e, hrun3, hadd, hsized, hslots, hnew⟩ :=
    run_addName h hdir htd hino hne hmk.sound hmk.frame name
  have hkeep := hadd.frame
  refine ⟨d1, d2, e, hrun1, hrun2, hrun3, hslots, hadd.sound, ?_, ?_, ?_, ?_, hsized, hnew, ?_, ?_⟩
  · exact (hmk.frame.trans hkeep).swap
  · rw [hkeep.typeAt hino (Ne.symm hne), hmk.type]
  · rw [hadd.type, hmk.frame.typeAt hdir hne, htd]
  · rw [hkeep.inode ino hino (Ne.symm hne)]
    exact hmk.sized
  · intro _
    rw [hkeep.entriesAt hino (Ne.symm hne)]
    exact hmk.entries
  · intro hno
    exact absurd rfl hno

theorem createEffect_file {d : Disk} (h : Inv d) {dir ino : Nat} (hdir : dir < 64)
    (htd : typeAt d dir = sfsDir) (hino : ino < 64) (hne : dir ≠ ino)
    (hempty : (inodeAt d ino).Filled 0) (name : List UInt8) :
    ∃ e, (dirAdd dir name ino).run flat (putInode d ino (Inode.ofType sfsFile)) = (some 0, e) ∧
      slotsAt e dir = addSlot (slotsAt d dir) name ino ∧ CreateEffect dir name sfsFile ino d e := by
  obtain ⟨hs0, hf0⟩ := h.sound.put_empty hino hempty (ofType_filled sfsFile)
  have hself := inodeAt_putInode d ino (Inode.ofType sfsFile)
  obtain ⟨e, hrun, hadd, hsized, hslots, hnew⟩ := run_addName h hdir htd hino hne hs0 hf0 name
  have hinoe : inodeAt e ino = Inode.ofType sfsFile := by
    rw [hadd.frame.inode ino hino (Ne.symm hne), hself]
  refine ⟨e, hrun, hslots, hadd.sound, ?_, ?_, ?_, ?_, hsized, hnew, ?_, fun _ => hinoe⟩
  · exact (hf0.trans hadd.frame).swap
  · unfold typeAt
    rw [hinoe]
    rfl
  · rw [hadd.type, hf0.typeAt hdir hne, htd]
  · rw [hinoe]
    exact ⟨0, ofType_filled sfsFile, fun ht => absurd ht (by decide),
      fun _ => ⟨Nat.zero_le 7168, by show 0 = (0 + 511) / 512; decide⟩, fun ht => absurd ht (by decide)⟩
  · intro ht
    exact absurd ht (by decide)

-- Also where the new entry goes.
theorem run_sfsCreate_slots {d : Disk} (h : Inv d) {dir : Nat} (hdir : dir < 64)
    (htd : typeAt d dir = sfsDir) (name : List UInt8) {type : UInt32}
    (htype : type = sfsFile ∨ type = sfsDir) :
    ((findNamed (slotsAt d dir) name ≠ none ∨ firstFree d = none) ∧
        (sfsCreate dir name type).run flat d = (none, d)) ∨
      ∃ ino e, findNamed (slotsAt d dir) name = none ∧ firstFree d = some ino ∧
        (sfsCreate dir name type).run flat d = (some ino, e) ∧
        slotsAt e dir = addSlot (slotsAt d dir) name ino ∧ CreateEffect dir name type ino d e := by
  rw [sfsCreate, Prog.run_bind, run_sfsLookup h hdir htd]
  cases hlook : findNamed (slotsAt d dir) name with
  | some de => exact Or.inl ⟨Or.inl (by simp), rfl⟩
  | none =>
    simp only [Option.map_none, Option.isSome_none, Bool.false_eq_true, if_false]
    rw [Prog.run_bind, run_allocInode]
    dsimp only
    cases hfree : firstFree d with
    | none => exact Or.inl ⟨Or.inr rfl, rfl⟩
    | some ino =>
      right
      obtain ⟨hino, hti⟩ := firstFree_some hfree
      have hne : dir ≠ ino := by
        rintro rfl
        exact absurd (htd.symm.trans hti) (by decide)
      have hempty := h.filled_free hino hti
      rw [Prog.run_bind, run_writeInode]
      rcases htype with rfl | rfl
      · obtain ⟨e, hrun, hslots, heff⟩ := createEffect_file h hdir htd hino hne hempty name
        refine ⟨ino, e, trivial, rfl, ?_, hslots, heff⟩
        rw [if_neg (by decide)]
        simp only [Prog.run_bind, hrun, Prog.run_pure]
      · obtain ⟨d1, d2, e, hrun1, hrun2, hrun3, hslots, heff⟩ :=
          createEffect_dir h hdir htd hino hne hempty name
        refine ⟨ino, e, trivial, rfl, ?_, hslots, heff⟩
        rw [if_pos rfl]
        simp only [Prog.run_bind, hrun1, hrun2, hrun3, Prog.run_pure]

theorem run_sfsCreate {d : Disk} (h : Inv d) {dir : Nat} (hdir : dir < 64)
    (htd : typeAt d dir = sfsDir) (name : List UInt8) {type : UInt32}
    (htype : type = sfsFile ∨ type = sfsDir) :
    ((findNamed (slotsAt d dir) name ≠ none ∨ firstFree d = none) ∧
        (sfsCreate dir name type).run flat d = (none, d)) ∨
      ∃ ino e, findNamed (slotsAt d dir) name = none ∧ firstFree d = some ino ∧
        (sfsCreate dir name type).run flat d = (some ino, e) ∧
        CreateEffect dir name type ino d e := by
  rcases run_sfsCreate_slots h hdir htd name htype with hno | ⟨ino, e, hlook, hfree, hrun, -, heff⟩
  · exact Or.inl hno
  · exact Or.inr ⟨ino, e, hlook, hfree, hrun, heff⟩

/-! ## `sfs_write` -/

structure StoreEffect (i : Nat) (data : Nat → UInt8) (len : Nat) (d e : Disk) : Prop where
  sound : Sound e
  frame : Frame (· = i) d e
  type : typeAt e i = sfsFile
  size : (inodeAt e i).size.toNat = len
  filled : (inodeAt e i).Filled ((len + 511) / 512)
  chunks : ∀ c, c < (len + 511) / 512 → e ((inodeAt e i).ptr c).toNat = chunkBlock data len c

-- Whatever was written to the inode, the released blocks and the fresh ones leave the others alone.
theorem run_sfsWrite {d : Disk} (h : Sound d) {i : Nat} (hi : i < 64) (data : Nat → UInt8)
    (len : Nat) :
    (typeAt d i ≠ sfsFile ∧ (sfsWrite i data len).run flat d = (none, d)) ∨
      (typeAt d i = sfsFile ∧ ∃ e, (sfsWrite i data len).run flat d =
        (some (min len (14 * 512)), e) ∧ StoreEffect i data (min len (14 * 512)) d e) := by
  rw [sfsWrite, Prog.run_bind, run_readInode]
  dsimp only
  by_cases ht : (inodeAt d i).type = sfsFile
  · right
    refine ⟨ht, ?_⟩
    rw [if_neg (not_not.mpr ht), Prog.run_bind]
    obtain ⟨n1, d1, hrun1, hmap1, hkeep1, htype1, hptr1⟩ := run_freeInode h.mapped hi
    rw [hrun1]
    dsimp only
    have hfill1 : n1.Filled 0 := by
      intro b
      simp [hptr1 b]
    generalize hlen : min len (14 * 512) = n
    have hle : n ≤ 14 * 512 := by omega
    have hzero : min n (512 * 0) = 0 := by omega
    have hloop := run_writeLoop data 14 0 rfl hle hmap1 hfill1 (by omega)
    rw [hzero] at hloop
    rw [Prog.run_bind]
    generalize (writeLoop data n 14 n1 0 0).run flat d1 = r2 at *
    obtain ⟨⟨n2, written⟩, d2⟩ := r2
    obtain ⟨hwritten, heff⟩ := hloop
    dsimp only at hwritten heff ⊢
    subst hwritten
    have hkeeps : KeepsOwned (Function.update (table d) ⟨i, hi⟩ n1) d d2 := by
      intro p h9 hp
      rw [heff.keeps p h9 hp, hkeep1 p h9]
    have hself := inodeAt_putInode d2 i (n2.setSize (UInt32.ofNat written))
    have hfill : (n2.setSize (UInt32.ofNat written)).Filled ((written + 511) / 512) := by
      have hf := heff.filled
      rw [Nat.zero_max] at hf
      exact hf
    have hmap : Mapped d2 (Function.update (table d) ⟨i, hi⟩ (n2.setSize (UInt32.ofNat written))) :=
      heff.mapped.congr_inode fun b => Inode.ptr_setSize n2 _ b
    have hframe : Frame (· = i) d (putInode d2 i (n2.setSize (UInt32.ofNat written))) :=
      hkeeps.frame hi h.mapped h.filled
    refine ⟨putInode d2 i (n2.setSize (UInt32.ofNat written)), rfl, ?_, hframe, ?_, ?_, ?_, ?_⟩
    · exact h.of_frame hframe (hmap.putInode_pending hi hkeeps.table_eq) (hself.symm ▸ hfill)
    · unfold typeAt
      rw [hself, Inode.setSize_type, heff.type, htype1, ht]
    · rw [hself, Inode.setSize_size, UInt32.toNat_ofNat', Nat.mod_eq_of_lt (by omega)]
    · rw [hself]
      exact hfill
    · intro c hc
      have hp := (hfill c).mpr hc
      have hlo := (hmap.ptr_range (i := ⟨i, hi⟩) (b := c) (by rw [Function.update_self]; exact hp)).1
      rw [Function.update_self] at hlo
      rw [hself, putInode_apply _ hi _ (Or.inr (by omega)), Inode.ptr_setSize,
        heff.chunks c (Nat.zero_le c) hc]
  · left
    refine ⟨ht, ?_⟩
    rw [if_pos ht]
    rfl

/-! ## `sfs_unlink` -/

structure UnlinkEffect (dir : Nat) (name : List UInt8) (ino : Nat) (d e : Disk) : Prop where
  sound : Sound e
  frame : Frame (fun j => j = dir ∨ j = ino) d e
  freed : inodeAt e ino = Inode.zero
  inode : inodeAt e dir = inodeAt d dir
  slots : slotsAt e dir = removeSlot (slotsAt d dir) name

theorem mem_children {l : List Dirent} {de : Dirent} (hde : de ∈ l) (hreal : de.isReal = true) :
    de.target ∈ children l := List.mem_map.mpr ⟨de, List.mem_filter.mpr ⟨hde, hreal⟩, rfl⟩

-- The inode's blocks are released and the inode is zeroed.
theorem run_release {d : Disk} (h : Sound d) {ino : Nat} (hino : ino < 64) :
    ∃ d1, (freeAll (inodeAt d ino).blocks.toList).run flat d = ((), d1) ∧
      Sound (putInode d1 ino Inode.zero) ∧ Frame (· = ino) d (putInode d1 ino Inode.zero) := by
  obtain ⟨n1, d1, hrun1, hmap1, hkeep1, -, hptr1⟩ := run_freeInode h.mapped hino
  have hfree := run_freeAll (List.range 14) List.nodup_range (fun b hb => List.mem_range.mp hb)
    (inodeAt d ino) d
  rw [hrun1] at hfree
  refine ⟨d1, by rw [Inode.blocks_toList, hfree], ?_⟩
  have hmap : Mapped d1 (Function.update (table d) ⟨ino, hino⟩ Inode.zero) := by
    apply hmap1.congr_inode
    intro b
    rw [hptr1, Inode.ptr_zero]
  have hkeeps : KeepsOwned (Function.update (table d) ⟨ino, hino⟩ n1) d d1 :=
    fun p h9 _ => hkeep1 p h9
  have hframe : Frame (· = ino) d (putInode d1 ino Inode.zero) :=
    hkeeps.frame hino h.mapped h.filled
  have hfill : (inodeAt (putInode d1 ino Inode.zero) ino).Filled 0 :=
    (inodeAt_putInode d1 ino Inode.zero).symm ▸ Inode.filled_zero
  exact ⟨h.of_frame hframe (hmap.putInode_pending hino hkeeps.table_eq) hfill, hframe⟩

theorem strcmp_dot {name : List UInt8} : strcmp name dot = 0 ↔ cstr name = dot := by
  rw [strcmp_eq_zero_iff, cstr_eq_self (s := dot) (by decide)]

theorem strcmp_dotdot {name : List UInt8} : strcmp name dotdot = 0 ↔ cstr name = dotdot := by
  rw [strcmp_eq_zero_iff, cstr_eq_self (s := dotdot) (by decide)]

/-- When `sfs_unlink(dir, name)` refuses. -/
def UnlinkRefused (d : Disk) (dir : Nat) (name : List UInt8) : Prop :=
  (cstr name = dot ∨ cstr name = dotdot) ∨ findNamed (slotsAt d dir) name = none ∨
    ∃ de, findNamed (slotsAt d dir) name = some de ∧ typeAt d de.target = sfsDir ∧
      children (entriesAt d de.target) ≠ []

theorem run_unlinkCount {d : Disk} (h : Inv d) {ino : Nat} (hino : ino < 64) :
    (unlinkCount ino (inodeAt d ino)).run flat d =
      (if typeAt d ino = sfsDir then 2 + (children (entriesAt d ino)).length else 0, d) := by
  unfold unlinkCount
  by_cases ht : (inodeAt d ino).type = sfsDir
  · have hle := h.names.length_le hino ht
    rw [if_pos ht, if_pos (show typeAt d ino = sfsDir from ht), ← h.names.length_entries hino ht]
    refine run_countEntries ht ?_ 225 0 (Nat.zero_le _) (by omega)
    intro de hde
    have hlt := h.names.target_lt hino ht hde
    omega
  · rw [if_neg ht, if_neg (show ¬ typeAt d ino = sfsDir from ht)]
    rfl

theorem run_sfsUnlink {d : Disk} (h : Inv d) {dir : Nat} (hdir : dir < 64)
    (htd : typeAt d dir = sfsDir) (name : List UInt8) :
    (UnlinkRefused d dir name ∧ (sfsUnlink dir name).run flat d = (none, d)) ∨
      ∃ de e, findNamed (slotsAt d dir) name = some de ∧ de.isReal = true ∧
        (typeAt d de.target = sfsDir → children (entriesAt d de.target) = []) ∧
        (sfsUnlink dir name).run flat d = (some 0, e) ∧ UnlinkEffect dir name de.target d e := by
  rw [sfsUnlink]
  by_cases hdots : strcmp name dot = 0 ∨ strcmp name dotdot = 0
  · rw [if_pos hdots]
    rw [strcmp_dot, strcmp_dotdot] at hdots
    exact Or.inl ⟨Or.inl hdots, rfl⟩
  · rw [if_neg hdots, Prog.run_bind, run_sfsLookup h hdir htd]
    rw [strcmp_dot, strcmp_dotdot, not_or] at hdots
    cases hlook : findNamed (slotsAt d dir) name with
    | none => exact Or.inl ⟨Or.inr (Or.inl hlook), rfl⟩
    | some de =>
      obtain ⟨hmem, hstr⟩ := findNamed_mem hlook
      have hreal : de.isReal = true := isReal_iff.mpr (hstr ▸ hdots)
      have hedge : Edge (typeAt d) (entriesAt d) dir de.target :=
        ⟨hdir, htd, mem_children hmem hreal⟩
      have hino := (h.names.edge_child hedge).2.1
      simp only [Option.map_some]
      rw [Prog.run_bind, run_readInode, Prog.run_bind]
      rw [run_unlinkCount h hino]
      dsimp only
      by_cases hfull : typeAt d de.target = sfsDir ∧ children (entriesAt d de.target) ≠ []
      · have hpos := List.length_pos_iff.mpr hfull.2
        rw [if_pos (by rw [if_pos hfull.1]; omega)]
        exact Or.inl ⟨Or.inr (Or.inr ⟨de, hlook, hfull⟩), rfl⟩
      · right
        have hchildless : typeAt d de.target = sfsDir → children (entriesAt d de.target) = [] := by
          intro ht
          by_contra hc
          exact hfull ⟨ht, hc⟩
        have hne : dir ≠ de.target := by
          intro heq
          have hin := hedge.2.2
          rw [heq, hchildless (heq ▸ htd)] at hin
          exact absurd hin (by simp)
        obtain ⟨d1, hrun1, hs1, hf1⟩ := run_release h.sound hino
        have hslots := hf1.slotsAt hdir hne
        have hlook1 : findNamed (slotsAt (putInode d1 de.target Inode.zero) dir) name = some de := by
          rw [hslots]
          exact hlook
        obtain ⟨e, hrun2, hrem⟩ := run_dirRemove hs1 hdir hlook1
        refine ⟨de, e, rfl, hreal, hchildless, ?_, hrem.sound, ?_, ?_, ?_, ?_⟩
        · have hfew : ¬ (if typeAt d de.target = sfsDir then
              2 + (children (entriesAt d de.target)).length else 0) > 2 := by
            by_cases ht : typeAt d de.target = sfsDir
            · rw [if_pos ht, hchildless ht]
              decide
            · rw [if_neg ht]
              decide
          rw [if_neg hfew, Prog.run_bind, hrun1, Prog.run_bind, run_writeInode, hrun2]
        · exact (hf1.trans hrem.frame).swap
        · rw [hrem.frame.inode _ hino (Ne.symm hne), inodeAt_putInode]
        · rw [hrem.inode, hf1.inode dir hdir hne]
        · rw [hrem.slots, hslots]

end JacobOS.Fs
