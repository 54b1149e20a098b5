import JacobOS.Kernel.TreeCommands

/-!
# Command lines on a tree

The last of the commands, `rm` with its recursion, and then `run_command`: on a disk in order a line prints what it
prints on the tree, and leaves the tree that it leaves there.
-/

namespace JacobOS.Shell

open BlockProgram CString Fs FileTree RootedTree Relation

/-! ## `rm_rec` -/

-- The children on the disk are those of the tree.
theorem edgeAt_eq {d : Disk} (h : Inv d) : EdgeAt d = Child realName (treeOf d) := by
  funext p c
  rw [eq_iff_iff]
  constructor
  · rintro ⟨hp, ht, hc⟩
    obtain ⟨de, hde, rfl⟩ := List.mem_map.mp hc
    obtain ⟨hmem, hreal⟩ := List.mem_filter.mp hde
    refine ⟨de.str, ?_, hreal⟩
    rw [entries_treeOf hp ht]
    exact List.mem_map_of_mem hmem
  · rintro ⟨name, hmem, hreal⟩
    by_cases hp : p < 64
    · by_cases ht : typeAt d p = sfsDir
      · rw [entries_treeOf hp ht] at hmem
        obtain ⟨de, hde, hpair⟩ := List.mem_map.mp hmem
        obtain ⟨rfl, rfl⟩ := Prod.mk.inj hpair
        exact ⟨hp, ht, mem_children hde hreal⟩
      · rw [FileTree.entries, slots_of_ne_dir h hp ht] at hmem
        exact absurd hmem List.not_mem_nil
    · rw [FileTree.entries, slots_none (treeOf_out d hp)] at hmem
      exact absurd hmem List.not_mem_nil

theorem below_eq {d : Disk} (h : Inv d) (t : Nat) : Below d t = FileTree.Below realName (treeOf d) t := by
  unfold Below FileTree.Below
  rw [edgeAt_eq h]

theorem treeOf_rm {d e : Disk} (h : Inv d) {parent t : Nat} {name : List UInt8} (hparent : parent < 64)
    (htd : typeAt d parent = sfsDir) (heff : RmEffect parent name t d e) :
    treeOf e = Function.update (prune (FileTree.Below realName (treeOf d) t) (treeOf d)) parent
      (some (.dir (unlink (cstr name) (slots (treeOf d) parent)))) := by
  funext j
  by_cases hj : j = parent
  · rw [hj, Function.update_self, treeOf_dir hparent ((congrArg Inode.type heff.inode).trans htd), heff.slots,
      map_removeSlot, slots_dir (treeOf_dir hparent htd)]
  · rw [Function.update_of_ne hj, prune, ← below_eq h]
    by_cases hbelow : Below d t j
    · rw [if_pos hbelow]
      exact treeOf_free (congrArg Inode.type (heff.freed j hbelow))
    · rw [if_neg hbelow]
      exact heff.frame.treeOf (not_or.mpr ⟨hj, hbelow⟩)

-- Nothing is left to be cleared.
theorem clear_childless {l : List Dirent} (h : children (Fs.entries l) = []) :
    clear realName (l.map Dirent.slot) = l.map Dirent.slot := by
  unfold clear
  rw [List.map_map]
  apply List.map_congr_left
  intro de hde
  rw [Function.comp_apply, Dirent.slot]
  split
  · rfl
  · rename_i h0
    have hnot : de.isReal ≠ true := List.filter_eq_nil_iff.mp (List.map_eq_nil_iff.mp h) de (mem_entries.mpr ⟨hde, h0⟩)
    rw [Option.filter_some, if_pos]
    rw [Bool.not_eq_true', ← Bool.not_eq_true]
    exact hnot

-- The loop empties the slots one by one.
theorem slotsAt_rmLoop {fuel : Nat} {rec : Nat → List UInt8 → SfsM (Option (Option Nat))} (hrec : RmSpec fuel rec)
    (passes : Nat) {d e : Disk} (h : Inv d) {t : Nat} (ht : t < 64) (htd : typeAt d t = sfsDir)
    (hrun : (rmLoop rec t passes).run flat d = (some (), e)) :
    (slotsAt e t).map Dirent.slot = clear realName ((slotsAt d t).map Dirent.slot) := by
  induction passes generalizing d with
  | zero => exact absurd (congrArg Prod.fst hrun) (by simp [rmLoop])
  | succ passes ih =>
    rw [rmLoop, Prog.run_bind] at hrun
    rcases firstChild_cases h ht htd with ⟨hfirst, hnone⟩ | ⟨nm, de, hfirst, hlook, hreal, hdot, hdotdot⟩
    · rw [hfirst] at hrun
      obtain rfl : d = e := congrArg Prod.snd hrun
      exact (clear_childless hnone).symm
    · rw [hfirst] at hrun
      dsimp only at hrun
      rw [Prog.run_bind] at hrun
      rcases hrec h ht htd hlook hreal with ⟨-, hno⟩ | ⟨d1, hrm, h1⟩
      · rw [hno] at hrun
        exact absurd (congrArg Prod.fst hrun) (by simp)
      · rw [hrm] at hrun
        have hname : realName (cstr nm) = true := by simp [realName, hdot, hdotdot]
        rw [ih h1.inv ((congrArg Inode.type h1.inode).trans htd) hrun, h1.slots, map_removeSlot,
          clear_unlink realName hname]

theorem treeOf_emptied {d e : Disk} (h : Inv d) {t : Nat} (ht : t < 64) (htd : typeAt d t = sfsDir)
    (heff : EmptyEffect t d e)
    (hslots : (slotsAt e t).map Dirent.slot = clear realName ((slotsAt d t).map Dirent.slot)) :
    treeOf e = Function.update (prune (TransGen (Child realName (treeOf d)) t) (treeOf d)) t
      (some (.dir (clear realName (slots (treeOf d) t)))) := by
  funext j
  by_cases hj : j = t
  · rw [hj, Function.update_self, treeOf_dir ht ((congrArg Inode.type heff.inode).trans htd), hslots,
      slots_dir (treeOf_dir ht htd)]
  · rw [Function.update_of_ne hj, prune, ← edgeAt_eq h]
    by_cases hbelow : TransGen (EdgeAt d) t j
    · rw [if_pos hbelow]
      exact treeOf_free (congrArg Inode.type (heff.freed j hbelow))
    · rw [if_neg hbelow]
      apply heff.frame.treeOf
      intro hreach
      rcases reflTransGen_iff_eq_or_transGen.mp hreach with heq | hlow
      · exact hj heq
      · exact hbelow hlow

/-- The command returns, with the working directory and the text that the tree says. -/
def Returns (d : Disk) (p : SfsM (Option (Nat × List UInt8))) (a : (Nat × List UInt8) × FsTree) : Prop :=
  Follows d p (some a.1, a.2)

namespace Returns

variable {d : Disk}

theorem ite {c : Prop} [Decidable c] {p q : SfsM (Option (Nat × List UInt8))} {a b : (Nat × List UInt8) × FsTree}
    (hp : Returns d p a) (hq : Returns d q b) : Returns d (if c then p else q) (if c then a else b) := by
  split
  · exact hp
  · exact hq

theorem prints {cwd : Nat} {p : SfsM (List UInt8)} {out : List UInt8} {t : FsTree} (hp : Follows d p (out, t)) :
    Returns d (prints cwd p) ((cwd, out), t) := by
  obtain ⟨e, hrun, htree, hinv⟩ := hp
  refine ⟨e, ?_, htree, hinv⟩
  rw [run_prints, hrun]

end Returns

section Lines

variable {d : Disk} {cwd : Nat} (h : Good cwd d)

include h

-- `.` and `..`: the loop has run to its end when `sfs_unlink` refuses.
theorem follows_rmRec_dots {fuel : Nat} (hfuel : 64 ≤ fuel) {name : List UInt8} {de : Dirent}
    (hlook : findNamed (slotsAt d cwd) name = some de) (hdots : ¬ de.isReal = true) :
    Follows d (rmRec fuel cwd name) (some none, Function.update
      (prune (TransGen (Child realName (treeOf d)) de.target) (treeOf d)) de.target
      (some (.dir (clear realName (slots (treeOf d) de.target))))) := by
  obtain ⟨ht, hdir⟩ := dots_isDir h hlook hdots
  have hname : strcmp name dot = 0 ∨ strcmp name dotdot = 0 := by
    rw [strcmp_dot, strcmp_dotdot]
    exact dots_name hlook hdots
  have hlookup : (sfsLookup cwd name).run flat d = (some de.target, d) := by
    rw [run_lookup_good h, hlook]
    rfl
  have htype : (sfsType de.target).run flat d = (typeAt d de.target, d) := rfl
  have hsmall := sizeBelow_le h.1 ht
  obtain ⟨fuel, rfl⟩ := Nat.exists_eq_succ_of_ne_zero (by omega : fuel ≠ 0)
  rcases run_rmLoop (run_rmRec fuel) (fuel + 1) h.1 ht hdir with ⟨hlt, -⟩ | ⟨e, hloop, heff⟩
  · omega
  · refine ⟨e, ?_, treeOf_emptied h.1 ht hdir heff (slotsAt_rmLoop (run_rmRec fuel) (fuel + 1) h.1 ht hdir hloop),
      heff.inv⟩
    rw [rmRec, Prog.run_bind, hlookup]
    dsimp only
    rw [Prog.run_bind, htype]
    dsimp only
    rw [if_pos hdir, Prog.run_bind, hloop]
    dsimp only
    rw [Prog.run_bind, sfsUnlink, if_pos hname]
    rfl

theorem follows_rmRec {fuel : Nat} (hfuel : 64 ≤ fuel) (name : List UInt8) :
    Follows d (rmRec fuel cwd name)
      (some (OnTree.rmRec (treeOf d) cwd (cstr name)).1, (OnTree.rmRec (treeOf d) cwd (cstr name)).2) := by
  unfold OnTree.rmRec
  rw [lookup_treeOf h.2.1 h.2.2]
  cases hlook : findNamed (slotsAt d cwd) name with
  | none =>
    obtain ⟨fuel, rfl⟩ := Nat.exists_eq_succ_of_ne_zero (by omega : fuel ≠ 0)
    rw [rmRec]
    apply Follows.read (run_lookup_good h name)
    rw [hlook]
    exact .ret h.1 _
  | some de =>
    have hstr := (findNamed_mem hlook).2
    dsimp only [Option.map_some]
    by_cases hreal : de.isReal = true
    · have ht := (h.1.names.target_lt h.2.1 h.2.2 (findNamed_mem hlook).1).1
      have hsmall := sizeBelow_le h.1 ht
      have hname : realName (cstr name) = true := hstr ▸ hreal
      rw [if_pos hname]
      rcases run_rmRec fuel h.1 h.2.1 h.2.2 hlook hreal with ⟨hlt, -⟩ | ⟨e, hrun, heff⟩
      · omega
      · exact ⟨e, hrun, treeOf_rm h.1 h.2.1 h.2.2 heff, heff.inv⟩
    · have hname : ¬ realName (cstr name) = true := hstr ▸ hreal
      rw [if_neg hname]
      exact follows_rmRec_dots h hfuel hlook hreal

theorem follows_rm {fuel : Nat} (hfuel : 64 ≤ fuel) (argv : List (List UInt8)) :
    Follows d (rm fuel cwd argv)
      (some (OnTree.rm (treeOf d) cwd (argv.map cstr)).1, (OnTree.rm (treeOf d) cwd (argv.map cstr)).2) := by
  unfold rm OnTree.rm
  rw [List.getElem?_map, List.getElem?_map]
  cases argv[1]? with
  | none => exact .ret h.1 _
  | some arg =>
    have hflag : strcmp arg (ascii "-r") = 0 ↔ cstr arg = ascii "-r" := by
      rw [strcmp_eq_zero_iff]
      exact Iff.rfl
    dsimp only [Option.map_some]
    by_cases hr : cstr arg = ascii "-r"
    · rw [if_pos (hflag.mpr hr), if_pos hr]
      cases argv[2]? with
      | none => exact .ret h.1 _
      | some name =>
        refine (follows_rmRec h hfuel name).bind fun e _ hinv htree => ?_
        dsimp only [Option.map_some] at htree ⊢
        rw [← htree]
        exact .ret hinv _
    · rw [if_neg (mt hflag.mp hr), if_neg hr]
      refine (follows_unlink h.1 h.2.1 h.2.2 arg).bind fun e _ hinv htree => ?_
      rw [← htree]
      exact .ret hinv _

/-! ## Lines -/

theorem follows_dispatch {fuel : Nat} (hfuel : 64 ≤ fuel) (kmalloc : UInt32 → Bool) (cmd : List UInt8)
    (argv : List (List UInt8)) :
    Returns d (dispatch fuel kmalloc cwd cmd argv)
      (OnTree.dispatch kmalloc (treeOf d) cwd (cstr cmd) (argv.map cstr)) := by
  unfold dispatch OnTree.dispatch
  rw [isCmd_cstr]
  simp only [List.getElem?_map]
  refine .ite (.prints ?_) <| .ite (.prints ?_) <| .ite ?_ <| .ite (.prints ?_) <| .ite (.prints ?_) <|
    .ite (.prints ?_) <| .ite (.prints ?_) <| .ite (.prints ?_) <| .ite (.prints ?_) <| .ite ?_ <| .ite ?_ ?_
  · apply Follows.read (run_printCwd_tree h.1 h.2)
    exact .ret h.1 _
  · exact .of_run h.1 (run_cmdLs h.1 h.2 argv[1]?)
  · apply Follows.read (run_cmdCd h.1 h.2 argv[1]?)
    exact .ret h.1 _
  · exact follows_mkdir h argv
  · exact follows_touch h argv
  · exact .of_run h.1 (run_cmdCat h.1 kmalloc h.2 argv[1]?)
  · exact follows_echo h kmalloc argv
  · exact follows_cmdCp h kmalloc argv[1]? argv[2]?
  · exact follows_cmdMv h kmalloc argv[1]? argv[2]?
  · refine (follows_rm h hfuel argv).bind fun e _ hinv htree => ?_
    change treeOf e = _ at htree
    rw [← htree]
    exact .ret hinv _
  · exact .ret h.1 _
  · exact .ret h.1 _

/-- A line typed at the shell prints what it prints on the tree, and leaves the disk with the tree that it leaves. -/
theorem follows_runCommand {fuel : Nat} (hfuel : 64 ≤ fuel) (kmalloc : UInt32 → Bool) (line : List UInt8) :
    Returns d (runCommand fuel kmalloc cwd line) (OnTree.runCommand kmalloc (treeOf d) cwd line) := by
  unfold runCommand OnTree.runCommand
  cases htok : tokenize line 16 with
  | nil => exact .ret h.1 _
  | cons cmd args =>
    refine (follows_dispatch h hfuel kmalloc cmd (cmd :: args)).bind fun e _ hinv htree => ?_
    exact ⟨e, run_finish _ e, htree, hinv⟩

end Lines

end JacobOS.Shell
