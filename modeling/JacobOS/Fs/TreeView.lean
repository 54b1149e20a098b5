import JacobOS.Fs.Effects
import JacobOS.Lib.FileTree
import Mathlib.Data.List.Find

/-!
# The file system as a tree

`treeOf` forgets how a disk is laid out: blocks and their pointers, the map of free blocks, the bytes of inodes
and entries.  On a disk that satisfies the invariant each operation does to the tree what is stated here on the
tree alone, and answers what the tree says.
-/

namespace JacobOS.Fs

open BlockProgram CString FileTree FirstMatch

abbrev FsNode : Type := Node Nat (List UInt8) UInt8

abbrev FsTree : Type := Tree Nat (List UInt8) UInt8

/-! ## The view -/

def Dirent.slot (de : Dirent) : Option (Nat × List UInt8) := if de.inum1 = 0 then none else some de.pair

def nodeAt (d : Disk) (i : Nat) : Option FsNode :=
  if typeAt d i = sfsFile then some (.file (contentAt d i))
  else if typeAt d i = sfsDir then some (.dir ((slotsAt d i).map Dirent.slot))
  else none

def treeOf (d : Disk) : FsTree := fun i => if i < 64 then nodeAt d i else none

theorem treeOf_file {d : Disk} {i : Nat} (hi : i < 64) (ht : typeAt d i = sfsFile) :
    treeOf d i = some (.file (contentAt d i)) := by
  rw [treeOf, if_pos hi, nodeAt, if_pos ht]

theorem treeOf_dir {d : Disk} {i : Nat} (hi : i < 64) (ht : typeAt d i = sfsDir) :
    treeOf d i = some (.dir ((slotsAt d i).map Dirent.slot)) := by
  rw [treeOf, if_pos hi, nodeAt, if_neg (by rw [ht]; decide), if_pos ht]

theorem treeOf_free {d : Disk} {i : Nat} (ht : typeAt d i = sfsFree) : treeOf d i = none := by
  unfold treeOf nodeAt
  rw [if_neg (by rw [ht]; decide : ¬ typeAt d i = sfsFile), if_neg (by rw [ht]; decide : ¬ typeAt d i = sfsDir), ite_self]

theorem treeOf_out (d : Disk) {i : Nat} (hi : ¬ i < 64) : treeOf d i = none := by
  rw [treeOf, if_neg hi]

theorem Frame.treeOf {S : Nat → Prop} {d e : Disk} (h : Frame S d e) {j : Nat} (hS : ¬ S j) :
    treeOf e j = treeOf d j := by
  unfold Fs.treeOf
  by_cases hj : j < 64
  · rw [if_pos hj, if_pos hj, nodeAt, nodeAt, h.typeAt hj hS, h.contentAt hj hS, h.slotsAt hj hS]
  · rw [if_neg hj, if_neg hj]

-- Two nodes have changed.
theorem treeOf_updates {d e : Disk} {dir ino : Nat} {x y : Option FsNode} (h : Frame (fun j => j = dir ∨ j = ino) d e)
    (hdir : treeOf e dir = x) (hino : treeOf e ino = y) :
    treeOf e = Function.update (Function.update (treeOf d) ino y) dir x := by
  funext j
  by_cases hjd : j = dir
  · rw [hjd, Function.update_self, hdir]
  · rw [Function.update_of_ne hjd]
    by_cases hji : j = ino
    · rw [hji, Function.update_self, hino]
    · rw [Function.update_of_ne hji, h.treeOf (not_or.mpr ⟨hjd, hji⟩)]

/-- The type field of a node. -/
def kindOf : Option FsNode → UInt32
  | none => sfsFree
  | some (.file _) => sfsFile
  | some (.dir _) => sfsDir

theorem Inv.typeAt_eq {d : Disk} (h : Inv d) {i : Nat} (hi : i < 64) : typeAt d i = kindOf (treeOf d i) := by
  rcases h.names.types i hi with ht | ht | ht
  · rw [treeOf_free ht, ht, kindOf]
  · rw [treeOf_file hi ht, ht, kindOf]
  · rw [treeOf_dir hi ht, ht, kindOf]

/-! ## Names -/

theorem reduceOption_slots (l : List Dirent) :
    (l.map Dirent.slot).reduceOption = (Fs.entries l).map Dirent.pair := by
  induction l with
  | nil => rfl
  | cons de l ih =>
    by_cases h0 : de.inum1 = 0
    · rw [entries_cons_neg h0, List.map_cons, Dirent.slot, if_pos h0, List.reduceOption_cons_of_none, ih]
    · rw [entries_cons_pos h0, List.map_cons, Dirent.slot, if_neg h0, List.reduceOption_cons_of_some, ih,
        List.map_cons]

theorem entries_treeOf {d : Disk} {i : Nat} (hi : i < 64) (ht : typeAt d i = sfsDir) :
    FileTree.entries (treeOf d) i = (entriesAt d i).map Dirent.pair := by
  rw [FileTree.entries, slots_dir (treeOf_dir hi ht), reduceOption_slots]
  rfl

theorem slots_of_ne_dir {d : Disk} (h : Inv d) {i : Nat} (hi : i < 64) (ht : typeAt d i ≠ sfsDir) :
    slots (treeOf d) i = [] := by
  rcases h.names.types i hi with hfree | hfile | hdir
  · exact slots_none (treeOf_free hfree)
  · exact slots_file (treeOf_file hi hfile)
  · exact absurd hdir ht

theorem lookup_treeOf {d : Disk} {i : Nat} (hi : i < 64) (ht : typeAt d i = sfsDir) (name : List UInt8) :
    lookup (treeOf d) i (cstr name) = (findNamed (slotsAt d i) name).map Dirent.target := by
  rw [lookup, entries_treeOf hi ht, findNamed_pair]
  rfl

theorem run_lookup_tree {d : Disk} (h : Inv d) {i : Nat} (hi : i < 64) (name : List UInt8) :
    (sfsLookup i name).run flat d = (lookup (treeOf d) i (cstr name), d) := by
  unfold sfsLookup
  by_cases ht : typeAt d i = sfsDir
  · rw [run_sfsLookup h hi ht, lookup_treeOf hi ht]
  · rw [run_dirLookup, if_neg ht, lookup, FileTree.entries, slots_of_ne_dir h hi ht]
    rfl

/-! ## The operations on the tree -/

/-- The node of the lowest number that is free. -/
def fresh (t : FsTree) : Option Nat := (List.range 64).find? fun i => (t i).isNone

def newFile (_ino : Nat) : FsNode := .file []

def newDir (dir ino : Nat) : FsNode := .dir (some (ino, dot) :: some (dir, dotdot) :: List.replicate 14 none)

/-- `sfs_create`: the name is cut to 27 bytes. -/
def create (t : FsTree) (dir : Nat) (name : List UInt8) (node : Nat → FsNode) : Option Nat × FsTree :=
  match lookup t dir name, fresh t with
  | none, some ino =>
      (some ino, Function.update (Function.update t ino (some (node ino))) dir
        (some (.dir (link 15 (ino, name.take 27) (slots t dir)))))
  | _, _ => (none, t)

/-- `sfs_write`: a file keeps the first 7168 bytes. -/
def write (t : FsTree) (i : Nat) (data : List UInt8) : FsTree :=
  match t i with
  | some (.file _) => Function.update t i (some (.file (data.take 7168)))
  | _ => t

/-- A name other than `.` and `..`. -/
def realName (name : List UInt8) : Bool := name != dot && name != dotdot

def isEmpty (t : FsTree) (i : Nat) : Bool := (FileTree.entries t i).all fun e => !realName e.2

/-- `sfs_unlink`: not of `.`, of `..` or of a directory with something in it. -/
def remove (t : FsTree) (dir : Nat) (name : List UInt8) : Option Nat × FsTree :=
  match lookup t dir name with
  | none => (none, t)
  | some ino =>
      if realName name && isEmpty t ino then
        (some 0, Function.update (Function.update t ino none) dir (some (.dir (unlink name (slots t dir)))))
      else (none, t)

/-! ## Slots -/

theorem slot_of_names {de : Dirent} {child : Nat} {name : List UInt8} (h : de.Names child name) :
    de.slot = some (child, (cstr name).take 27) := by
  rw [Dirent.slot, if_neg h.inum1_ne_zero, h.pair]

theorem slot_isNone (de : Dirent) : de.slot.isNone = (de.inum1 == 0) := by
  unfold Dirent.slot
  by_cases h0 : de.inum1 = 0
  · rw [if_pos h0, h0]
    rfl
  · rw [if_neg h0, Option.isNone_some, beq_eq_false_iff_ne.mpr h0]

theorem slot_named (name : List UInt8) (de : Dirent) :
    de.slot.any (fun e => decide (e.2 = cstr name)) = de.isNamed name := by
  rw [Bool.eq_iff_iff, isNamed_iff]
  unfold Dirent.slot
  by_cases h0 : de.inum1 = 0
  · simp [h0]
  · simp [h0, Dirent.pair]

theorem map_addSlot {child : Nat} (hchild : child < 64) (l : List Dirent) (name : List UInt8) :
    (addSlot l name child).map Dirent.slot = link 15 (child, (cstr name).take 27) (l.map Dirent.slot) := by
  have hput : ∀ de : Dirent, (de.put child name).slot = some (child, (cstr name).take 27) :=
    fun de => slot_of_names (.put de hchild name)
  have hany : (l.map Dirent.slot).any Option.isNone = l.any fun de => de.inum1 == 0 := by
    rw [List.any_map]
    exact congrArg l.any (funext slot_isNone)
  unfold addSlot link
  rw [hany]
  by_cases hroom : l.any (fun de => de.inum1 == 0) = true
  · rw [if_pos hroom, if_pos hroom]
    exact map_modifyFirst slot_isNone (fun de _ => hput de) l
  · rw [if_neg hroom, if_neg hroom, List.map_append, List.map_cons, hput, List.map_replicate]
    rfl

theorem map_removeSlot (l : List Dirent) (name : List UInt8) :
    (removeSlot l name).map Dirent.slot = unlink (cstr name) (l.map Dirent.slot) :=
  map_modifyFirst (slot_named name) (fun _ _ => rfl) l

theorem fresh_treeOf {d : Disk} (h : Inv d) : fresh (treeOf d) = firstFree d := by
  unfold fresh firstFree
  apply List.find?_congr
  intro i hi
  have ht := h.typeAt_eq (List.mem_range.mp hi)
  unfold typeAt at ht
  rw [ht]
  cases hn : treeOf d i with
  | none => rfl
  | some n => cases n <;> rfl

/-! ## The operations on the disk -/

/-- On `d` the program answers `a.1`, and leaves a disk in order with the tree `a.2`. -/
def Follows {α : Type} (d : Disk) (p : SfsM α) (a : α × FsTree) : Prop :=
  ∃ e, p.run flat d = (a.1, e) ∧ treeOf e = a.2 ∧ Inv e

namespace Follows

variable {α β : Type} {d : Disk}

theorem bind {p : SfsM α} {f : α → SfsM β} {a : α × FsTree} {b : β × FsTree} (hp : Follows d p a)
    (hf : ∀ e, (p.run flat d).2 = e → Inv e → treeOf e = a.2 → Follows e (f a.1) b) :
    Follows d (p >>= f) b := by
  obtain ⟨e, hrun, htree, hinv⟩ := hp
  obtain ⟨g, hrun', htree', hinv'⟩ := hf e (congrArg Prod.snd hrun) hinv htree
  refine ⟨g, ?_, htree', hinv'⟩
  rw [Prog.run_bind, hrun]
  exact hrun'

theorem ret (h : Inv d) (a : α) : Follows d (pure a) (a, treeOf d) := ⟨d, rfl, rfl, h⟩

-- A program that only reads.
theorem of_run (h : Inv d) {p : SfsM α} {a : α} (hrun : p.run flat d = (a, d)) : Follows d p (a, treeOf d) :=
  ⟨d, hrun, rfl, h⟩

theorem read {p : SfsM α} {f : α → SfsM β} {a : α} {b : β × FsTree} (hrun : p.run flat d = (a, d))
    (hf : Follows d (f a) b) : Follows d (p >>= f) b := by
  obtain ⟨e, hrun', htree, hinv⟩ := hf
  refine ⟨e, ?_, htree, hinv⟩
  rw [Prog.run_bind, hrun]
  exact hrun'

end Follows

-- A new directory has one block, with its first two slots taken.
theorem slotsAt_mkdir {d d1 d2 : Disk} (h : Sound d) {ino parent : Nat} (hino : ino < 64) (hparent : parent < 64)
    (hempty : (inodeAt d ino).Filled 0)
    (hrun1 : (dirAdd ino dot ino).run flat (putInode d ino (Inode.ofType sfsDir)) = (some 0, d1))
    (hrun2 : (dirAdd ino dotdot parent).run flat d1 = (some 0, d2)) :
    (slotsAt d2 ino).map Dirent.slot = some (ino, dot) :: some (parent, dotdot) :: List.replicate 14 none := by
  obtain ⟨hs0, -⟩ := h.put_empty hino hempty (ofType_filled sfsDir)
  have hfill0 : (inodeAt (putInode d ino (Inode.ofType sfsDir)) ino).Filled 0 := by
    rw [inodeAt_putInode]
    exact ofType_filled sfsDir
  have hslots0 : slotsAt (putInode d ino (Inode.ofType sfsDir)) ino = [] :=
    List.length_eq_zero_iff.mp (length_slotsAt hfill0)
  obtain ⟨e1, hrun1', h1⟩ := run_dirAdd hs0 hino dot ino hfill0 (Or.inl (by decide))
  obtain rfl : e1 = d1 := congrArg Prod.snd (hrun1'.symm.trans hrun1)
  obtain ⟨m1, -, hfill1, -⟩ := h1.size_eq hfill0 (by rw [inodeAt_putInode]; rfl)
  have hmap1 : (slotsAt e1 ino).map Dirent.slot = some (ino, dot) :: List.replicate 15 none := by
    rw [h1.slots, map_addSlot hino, hslots0]
    rfl
  have hroom : ∃ de ∈ slotsAt e1 ino, de.inum1 = 0 := by
    have hin : none ∈ (slotsAt e1 ino).map Dirent.slot := by
      rw [hmap1]
      exact List.mem_cons_of_mem _ (List.mem_replicate.mpr ⟨by decide, rfl⟩)
    obtain ⟨de, hde, hslot⟩ := List.mem_map.mp hin
    refine ⟨de, hde, ?_⟩
    have hnone := slot_isNone de
    rw [hslot] at hnone
    exact beq_iff_eq.mp hnone.symm
  obtain ⟨e2, hrun2', h2⟩ := run_dirAdd h1.sound hino dotdot parent hfill1 (Or.inr hroom)
  obtain rfl : e2 = d2 := congrArg Prod.snd (hrun2'.symm.trans hrun2)
  rw [h2.slots, map_addSlot hparent, hmap1]
  rfl

/-- What `format` leaves. -/
def formatted : FsTree := Function.update (fun _ => none) sfsRoot (some (newDir sfsRoot sfsRoot))

theorem treeOf_format (d : Disk) : treeOf (format.run flat d).2 = formatted := by
  obtain ⟨d1, hrun1, hd1⟩ := run_clearTable (List.range 8) (Function.update d 0 superblock)
  have hblank : ∀ p, 1 ≤ p → p < 10 → Function.update d1 9 Block.zero p = Block.zero := by
    intro p h1 h10
    by_cases hp : p = 9
    · rw [hp, Function.update_self]
    · rw [Function.update_of_ne hp, hd1, if_pos ⟨p - 1, List.mem_range.mpr (by omega), by omega⟩]
  have hroot : 0 < 64 := by decide
  have hempty : (inodeAt (Function.update d1 9 Block.zero) 0).Filled 0 := by
    unfold inodeAt
    rw [hblank _ (by omega) (by omega), Block.inode_zero]
    exact Inode.filled_zero
  obtain ⟨d2, e, hrun2, hrun3, hmk⟩ := run_mkdir (sound_blank hblank) hroot hroot hempty
  have hrun : format.run flat d = ((), e) := by
    rw [format, Prog.run_bind, run_writeBlock, Prog.run_bind, hrun1, Prog.run_bind, run_writeBlock,
      Prog.run_bind, run_writeInode, Prog.run_bind]
    show ((dirAdd sfsRoot dotdot sfsRoot >>= fun _ => pure ()).run flat
      ((dirAdd sfsRoot dot sfsRoot).run flat _).2) = _
    rw [show sfsRoot = 0 from rfl, hrun2, Prog.run_bind, hrun3]
    rfl
  obtain ⟨e', hrun', -, hfree, -⟩ := run_format d
  obtain rfl : e' = e := congrArg Prod.snd (hrun'.symm.trans hrun)
  rw [hrun, formatted]
  funext j
  by_cases hj : j = 0
  · rw [hj, show sfsRoot = 0 from rfl, Function.update_self, treeOf_dir hroot hmk.type,
      slotsAt_mkdir (sound_blank hblank) hroot hroot hempty hrun2 hrun3]
    rfl
  · rw [Function.update_of_ne (show j ≠ sfsRoot from hj)]
    by_cases hlt : j < 64
    · exact treeOf_free (hfree j hlt hj)
    · exact treeOf_out _ hlt

-- The node that `sfs_create` makes.
theorem made_node {d e : Disk} (h : Inv d) {dir ino : Nat} (hdir : dir < 64) (htd : typeAt d dir = sfsDir)
    {name : List UInt8} {type : UInt32} (htype : type = sfsFile ∨ type = sfsDir)
    (hlook : findNamed (slotsAt d dir) name = none) (hfree : firstFree d = some ino)
    (hrun : (sfsCreate dir name type).run flat d = (some ino, e)) (heff : CreateEffect dir name type ino d e) :
    treeOf e ino = some (if type = sfsDir then newDir dir ino else newFile ino) := by
  obtain ⟨hino, hti⟩ := firstFree_some hfree
  have hne : dir ≠ ino := by
    rintro rfl
    exact absurd (htd.symm.trans hti) (by decide)
  have hempty := h.filled_free hino hti
  rcases htype with rfl | rfl
  · have hcontent : contentAt e ino = [] := by
      unfold contentAt
      rw [heff.empty (by decide)]
      rfl
    rw [treeOf_file hino heff.typeIno, hcontent, if_neg (by decide)]
    rfl
  · obtain ⟨d1, d2, hrun1, hrun2, hmk⟩ := run_mkdir h.sound hino hdir hempty
    obtain ⟨e', hrun3, hadd, -⟩ := run_addName h hdir htd hino hne hmk.sound hmk.frame name
    have hsame : (sfsCreate dir name sfsDir).run flat d = (some ino, e') := by
      rw [sfsCreate, Prog.run_bind, run_sfsLookup h hdir htd, hlook]
      simp only [Option.map_none, Option.isSome_none, Bool.false_eq_true, if_false]
      rw [Prog.run_bind, run_allocInode]
      dsimp only
      rw [hfree]
      dsimp only
      rw [Prog.run_bind, run_writeInode, if_pos trivial]
      simp only [Prog.run_bind, hrun1, hrun2, hrun3, Prog.run_pure]
    obtain rfl : e' = e := congrArg Prod.snd (hsame.symm.trans hrun)
    rw [treeOf_dir hino heff.typeIno, hadd.frame.slotsAt hino (Ne.symm hne),
      slotsAt_mkdir h.sound hino hdir hempty hrun1 hrun2, if_pos rfl]
    rfl

theorem follows_create {d : Disk} (h : Inv d) {dir : Nat} (hdir : dir < 64) (htd : typeAt d dir = sfsDir)
    (name : List UInt8) {type : UInt32} (htype : type = sfsFile ∨ type = sfsDir) :
    Follows d (sfsCreate dir name type)
      (create (treeOf d) dir (cstr name) fun ino => if type = sfsDir then newDir dir ino else newFile ino) := by
  have hlook := lookup_treeOf hdir htd name
  unfold create
  rw [hlook, fresh_treeOf h]
  rcases run_sfsCreate_slots h hdir htd name htype with ⟨hwhy, hrun⟩ | ⟨ino, e, hnone, hfree, hrun, hslots, heff⟩
  · refine ⟨d, ?_, ?_, h⟩
    · rw [hrun]
      cases hf : findNamed (slotsAt d dir) name with
      | some de => rfl
      | none =>
        rw [hwhy.resolve_left (not_not.mpr hf)]
        rfl
    · cases hf : findNamed (slotsAt d dir) name with
      | some de => rfl
      | none =>
        rw [hwhy.resolve_left (not_not.mpr hf)]
        rfl
  · rw [hnone, hfree]
    dsimp only [Option.map_none]
    refine ⟨e, hrun, ?_, h.create hdir htd htype hnone hfree heff⟩
    obtain ⟨hino, -⟩ := firstFree_some hfree
    apply treeOf_updates heff.frame
    · rw [treeOf_dir hdir heff.typeDir, hslots, map_addSlot hino, slots_dir (treeOf_dir hdir htd)]
    · exact made_node h hdir htd htype hnone hfree hrun heff

theorem follows_write {d : Disk} (h : Inv d) {i : Nat} (hi : i < 64) (data : Nat → UInt8) (len : Nat) :
    ∃ r, Follows d (sfsWrite i data len) (r, write (treeOf d) i ((List.range len).map data)) := by
  unfold write
  rcases run_sfsWrite h.sound hi data len with ⟨hno, hrun⟩ | ⟨ht, e, hrun, heff⟩
  · refine ⟨none, d, hrun, ?_, h⟩
    cases hnode : treeOf d i with
    | none => rfl
    | some n =>
      cases n with
      | dir s => rfl
      | file bytes =>
        rw [h.typeAt_eq hi, hnode] at hno
        exact absurd rfl hno
  · refine ⟨_, e, hrun, ?_, h.store ht (Nat.min_le_right _ _) heff⟩
    have hbytes : contentAt e i = ((List.range len).map data).take 7168 := by
      rw [heff.contentAt_eq, ← List.map_take, List.take_range, Nat.min_comm]
    rw [treeOf_file hi ht]
    dsimp only
    funext j
    by_cases hj : j = i
    · rw [hj, Function.update_self, treeOf_file hi heff.type, hbytes]
    · rw [Function.update_of_ne hj, heff.frame.treeOf hj]

theorem isEmpty_treeOf {d : Disk} (h : Inv d) {i : Nat} (hi : i < 64) :
    isEmpty (treeOf d) i = true ↔ (typeAt d i = sfsDir → children (entriesAt d i) = []) := by
  unfold isEmpty
  by_cases ht : typeAt d i = sfsDir
  · rw [entries_treeOf hi ht, List.all_map, List.all_eq_true]
    unfold children
    rw [List.map_eq_nil_iff, List.filter_eq_nil_iff]
    have hreal : ∀ de : Dirent, (!realName de.pair.2) = true ↔ ¬ de.isReal = true := by
      intro de
      rw [Bool.not_eq_true', ← Bool.not_eq_true]
      rfl
    exact ⟨fun hall _ de hde => (hreal de).mp (hall de hde), fun hall de hde => (hreal de).mpr (hall ht de hde)⟩
  · rw [FileTree.entries, slots_of_ne_dir h hi ht]
    exact iff_of_true rfl fun hdir => absurd hdir ht

theorem follows_unlink {d : Disk} (h : Inv d) {dir : Nat} (hdir : dir < 64) (htd : typeAt d dir = sfsDir)
    (name : List UInt8) : Follows d (sfsUnlink dir name) (remove (treeOf d) dir (cstr name)) := by
  have hlook := lookup_treeOf hdir htd name
  unfold remove
  rw [hlook]
  rcases run_sfsUnlink h hdir htd name with ⟨hwhy, hrun⟩ | ⟨de, e, hfound, hreal, hleaf, hrun, heff⟩
  · cases hf : findNamed (slotsAt d dir) name with
    | none => exact ⟨d, hrun, rfl, h⟩
    | some de =>
      dsimp only [Option.map_some]
      rw [if_neg]
      · exact ⟨d, hrun, rfl, h⟩
      · have hlt := (h.names.target_lt hdir htd (findNamed_mem hf).1).1
        rw [Bool.and_eq_true, isEmpty_treeOf h hlt]
        rintro ⟨hreal, hleaf⟩
        rcases hwhy with hdots | hnone | ⟨de', hf', htype, hfull⟩
        · rcases hdots with heq | heq
          · simp [realName, heq] at hreal
          · simp [realName, heq] at hreal
        · exact absurd (hf.symm.trans hnone) (by simp)
        · obtain rfl : de = de' := Option.some.inj (hf.symm.trans hf')
          exact hfull (hleaf htype)
  · have hlt := (h.names.target_lt hdir htd (findNamed_mem hfound).1).1
    have hname : realName (cstr name) = true := by
      rw [← (findNamed_mem hfound).2]
      exact hreal
    rw [hfound]
    dsimp only [Option.map_some]
    rw [if_pos (by rw [hname, (isEmpty_treeOf h hlt).mpr hleaf]; rfl)]
    refine ⟨e, hrun, ?_, h.unlink hdir htd hfound hreal hleaf heff⟩
    apply treeOf_updates heff.frame
    · rw [treeOf_dir hdir ((congrArg Inode.type heff.inode).trans htd), heff.slots, map_removeSlot,
        slots_dir (treeOf_dir hdir htd)]
    · exact treeOf_free (congrArg Inode.type heff.freed)

end JacobOS.Fs
