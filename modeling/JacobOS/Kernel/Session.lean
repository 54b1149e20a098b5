import JacobOS.Kernel.RmRec

/-!
# Sessions of the shell

A session starts on a freshly formatted disk in the root directory and runs one command line after
another.  The working directory stays a live directory of the tree, except through `rm -r ..`, which
removes it together with everything else in its parent.
-/

namespace JacobOS.Shell

open BlockProgram CString Fs RootedTree Relation

/-! ## Programs that only read -/

theorem readOnly_sfsLookup (dir : Nat) (name : List UInt8) : ReadOnly flat (sfsLookup dir name) := by
  intro d
  unfold sfsLookup
  rw [run_dirLookup]

theorem readOnly_sfsReaddir (dir index : Nat) : ReadOnly flat (sfsReaddir dir index) := by
  intro d
  rw [run_sfsReaddir]

theorem readOnly_sfsType (i : Nat) : ReadOnly flat (sfsType i) := fun _ => rfl

theorem readOnly_sfsSize (i : Nat) : ReadOnly flat (sfsSize i) := fun _ => rfl

theorem readOnly_readLoop (len : Nat) (ps : List UInt32) (done : Nat) :
    ReadOnly flat (readLoop len ps done) := by
  induction ps generalizing done with
  | nil => exact .ret _
  | cons p ps ih =>
    rw [readLoop]
    exact .ite (.bind (fun _ => rfl) fun _ => .bind (ih _) fun _ => .ret _) (.ret _)

theorem readOnly_sfsRead (i max : Nat) : ReadOnly flat (sfsRead i max) :=
  .bind (fun _ => rfl) fun _ => readOnly_readLoop _ _ _

theorem readOnly_resolveLoop (path : List UInt8) (cur : Nat) (comp : List UInt8) :
    ReadOnly flat (resolveLoop path cur comp) := by
  induction path generalizing cur comp with
  | nil => exact .ite (readOnly_sfsLookup _ _) (.ret _)
  | cons c path ih =>
    rw [resolveLoop]
    refine .ite (.ite (.bind (readOnly_sfsLookup _ _) ?_) (ih _ _))
      (.ite (.ite (readOnly_sfsLookup _ _) (.ret _)) (.ite (ih _ _) (ih _ _)))
    rintro (- | cur')
    · exact .ret _
    · exact ih _ _

theorem readOnly_resolve (cwd : Nat) (path : List UInt8) : ReadOnly flat (resolve cwd path) :=
  readOnly_resolveLoop _ _ _

theorem readOnly_nameOf (parent child : Nat) : ReadOnly flat (nameOf parent child) := by
  have hloop : ∀ calls i, ReadOnly flat (nameOfLoop parent child calls i) := by
    intro calls
    induction calls with
    | zero => exact fun _ => .ret _
    | succ calls ih =>
      intro i
      refine .bind (readOnly_sfsReaddir _ _) ?_
      rintro (- | ⟨ino, nm⟩)
      · exact .ret _
      · exact .ite (.ret _) (ih _)
  exact hloop _ _

theorem readOnly_printCwd (cwd : Nat) : ReadOnly flat (printCwd cwd) := by
  have hparts : ∀ n cur, ReadOnly flat (cwdParts n cur) := by
    intro n
    induction n with
    | zero => exact fun _ => .ret _
    | succ n ih =>
      intro cur
      refine .ite (.ret _) (.bind (readOnly_sfsLookup _ _) ?_)
      rintro (- | parent)
      · exact .ret _
      · refine .bind (readOnly_nameOf _ _) ?_
        rintro (- | nm)
        · exact .ret _
        · exact .bind (ih _) fun _ => .ret _
  exact .ite (.ret _) (.bind (hparts _ _) fun _ => .ret _)

theorem readOnly_cmdLs (cwd : Nat) (path : Option (List UInt8)) : ReadOnly flat (cmdLs cwd path) := by
  have hloop : ∀ dir calls i, ReadOnly flat (lsLoop dir calls i) := by
    intro dir calls
    induction calls with
    | zero => exact fun _ => .ret _
    | succ calls ih =>
      intro i
      refine .bind (readOnly_sfsReaddir _ _) ?_
      rintro (- | ⟨ino, nm⟩)
      · exact .ret _
      · exact .ite (ih _) (.bind (readOnly_sfsType _) fun _ => .bind (ih _) fun _ => .ret _)
  have hlist : ∀ dir, ReadOnly flat (lsDir dir) := by
    rintro (- | dir)
    · exact .ret _
    · exact .bind (readOnly_sfsType _) fun _ => .ite (.ret _) (hloop _ _ _)
  unfold cmdLs
  cases given path with
  | none => exact hlist (some cwd)
  | some path => exact .bind (readOnly_resolve _ _) hlist

theorem readOnly_cmdCat (kmalloc : UInt32 → Bool) (cwd : Nat) (name : Option (List UInt8)) :
    ReadOnly flat (cmdCat kmalloc cwd name) := by
  unfold cmdCat
  cases given name with
  | none => exact .ret _
  | some name =>
    refine .bind (readOnly_resolve _ _) ?_
    rintro (- | ino)
    · exact .ret _
    · exact .bind (readOnly_sfsType _) fun _ => .ite (.ret _) (.bind (readOnly_sfsSize _) fun _ =>
        .ite (.ret _) (.bind (readOnly_sfsRead _ _) fun _ => .ret _))

/-! ## Commands that keep the working directory -/

/-- The file system is in order and `cwd` is one of its directories. -/
def Good (cwd : Nat) (d : Disk) : Prop := Inv d ∧ IsDir flat d cwd

/-- An inode number that a lookup or a create returns is one of the table. -/
def InTable (r : Option Nat) : Prop := ∀ i, r = some i → i < 64

theorem good_sfsLookup {cwd dir : Nat} (hdir : dir < 64) (name : List UInt8) :
    Triple flat (Good cwd) (sfsLookup dir name) fun r d => Good cwd d ∧ InTable r := by
  intro d hd
  refine ⟨(readOnly_sfsLookup dir name).triple d hd, ?_⟩
  unfold sfsLookup
  by_cases ht : typeAt d dir = sfsDir
  · rw [run_sfsLookup hd.1 hdir ht]
    intro i hi
    obtain ⟨de, hde, rfl⟩ := Option.map_eq_some_iff.mp hi
    exact (hd.1.names.target_lt hdir ht (findNamed_mem hde).1).1
  · rw [run_dirLookup, if_neg ht]
    exact fun i hi => absurd hi (by simp)

theorem good_resolve {cwd : Nat} (hcwd : cwd < 64) (path : List UInt8) :
    Triple flat (Good cwd) (resolve cwd path) fun r d => Good cwd d ∧ InTable r := by
  have hsome : ∀ {cur : Nat}, cur < 64 → Triple flat (Good cwd) (pure (some cur))
      fun r d => Good cwd d ∧ InTable r :=
    fun hcur => .ret fun d hd => ⟨hd, fun i hi => Option.some.inj hi ▸ hcur⟩
  have hloop : ∀ path cur comp, cur < 64 →
      Triple flat (Good cwd) (resolveLoop path cur comp) fun r d => Good cwd d ∧ InTable r := by
    intro path
    induction path with
    | nil => exact fun cur comp hcur => .ite (good_sfsLookup hcur _) (hsome hcur)
    | cons c path ih =>
      intro cur comp hcur
      rw [resolveLoop]
      refine .ite (.ite (.bind (good_sfsLookup hcur _) ?_) (ih _ _ hcur))
        (.ite (.ite (good_sfsLookup hcur _) (hsome hcur)) (.ite (ih _ _ hcur) (ih _ _ hcur)))
      rintro (- | cur')
      · exact .pull fun _ => .ret fun d hd => ⟨hd, fun i hi => absurd hi (by simp)⟩
      · exact .pull fun hcur' => ih _ _ (hcur' cur' rfl)
  apply hloop
  split
  · decide
  · exact hcwd

theorem good_sfsCreate {cwd : Nat} (name : List UInt8) {type : UInt32}
    (htype : type = sfsFile ∨ type = sfsDir) :
    Triple flat (Good cwd) (sfsCreate cwd name type) fun r d => Good cwd d ∧ InTable r := by
  intro d hd
  rcases run_sfsCreate hd.1 hd.2.1 hd.2.2 name htype with ⟨-, hrun⟩ | ⟨ino, e, hlook, hfree, hrun, heff⟩
  · rw [hrun]
    exact ⟨hd, fun i hi => absurd hi (by simp)⟩
  · rw [hrun]
    refine ⟨⟨hd.1.create hd.2.1 hd.2.2 htype hlook hfree heff, hd.2.1, heff.typeDir⟩, ?_⟩
    exact fun i hi => Option.some.inj hi ▸ (firstFree_some hfree).1

theorem good_sfsWrite {cwd i : Nat} (hi : i < 64) (data : Nat → UInt8) (len : Nat) :
    Triple flat (Good cwd) (sfsWrite i data len) fun _ => Good cwd := by
  intro d hd
  rcases run_sfsWrite hd.1.sound hi data len with ⟨-, hrun⟩ | ⟨ht, e, hrun, heff⟩
  · rw [hrun]
    exact hd
  · rw [hrun]
    have hne : cwd ≠ i := by
      rintro rfl
      exact absurd (ht.symm.trans hd.2.2) (by decide)
    exact ⟨hd.1.store ht (Nat.min_le_right ..) heff, hd.2.1,
      (heff.frame.typeAt hd.2.1 hne).trans hd.2.2⟩

theorem good_sfsUnlink {cwd : Nat} (name : List UInt8) :
    Triple flat (Good cwd) (sfsUnlink cwd name) fun _ => Good cwd := by
  intro d hd
  rcases run_sfsUnlink hd.1 hd.2.1 hd.2.2 name with ⟨-, hrun⟩ | ⟨de, e, hlook, hreal, hleaf, hrun, heff⟩
  · rw [hrun]
    exact hd
  · rw [hrun]
    refine ⟨hd.1.unlink hd.2.1 hd.2.2 hlook hreal hleaf heff, hd.2.1, ?_⟩
    show (inodeAt e cwd).type = sfsDir
    rw [heff.inode]
    exact hd.2.2

theorem good_lookupOrCreate {cwd : Nat} (hcwd : cwd < 64) (name : List UInt8) :
    Triple flat (Good cwd) (lookupOrCreate cwd name) fun r d => Good cwd d ∧ InTable r := by
  refine .bind (good_sfsLookup hcwd name) ?_
  rintro (- | ino)
  · exact .pull fun _ => good_sfsCreate name (Or.inl rfl)
  · exact .pull fun hino => .ret fun d hd => ⟨hd, hino⟩

theorem good_kprint {cwd : Nat} (s : String) : Triple flat (Good cwd) (kprint s) fun _ => Good cwd :=
  .ret fun _ hd => hd

theorem good_cmdCp (kmalloc : UInt32 → Bool) {cwd : Nat} (hcwd : cwd < 64)
    (src dst : Option (List UInt8)) :
    Triple flat (Good cwd) (cmdCp kmalloc cwd src dst) fun _ => Good cwd := by
  unfold cmdCp
  split
  · rename_i src dst _ _
    refine .bind (good_resolve hcwd src) ?_
    rintro (- | s)
    · exact .pull fun _ => good_kprint _
    · refine .pull fun _ => .bind (readOnly_sfsType s).triple fun _ => .ite (good_kprint _) ?_
      refine .bind (readOnly_sfsSize s).triple fun _ => .ite (good_kprint _) ?_
      refine .bind (readOnly_sfsRead s _).triple fun buf => .bind (good_lookupOrCreate hcwd dst) ?_
      rintro (- | d)
      · exact .pull fun _ => good_kprint _
      · refine .pull fun hd => .bind (readOnly_sfsType d).triple fun _ => .ite (good_kprint _) ?_
        exact .bind (good_sfsWrite (hd d rfl) _ _) fun _ => .ret fun _ hg => hg
  · exact good_kprint _

theorem good_cmdMv (kmalloc : UInt32 → Bool) {cwd : Nat} (hcwd : cwd < 64)
    (src dst : Option (List UInt8)) :
    Triple flat (Good cwd) (cmdMv kmalloc cwd src dst) fun _ => Good cwd := by
  unfold cmdMv
  split
  · rename_i srcName dstName _ _
    refine .bind (readOnly_sfsLookup cwd srcName).triple ?_
    rintro (- | s)
    · exact good_kprint _
    · refine .bind (readOnly_sfsType s).triple fun _ => .ite (good_kprint _) ?_
      refine .bind (good_cmdCp kmalloc hcwd src dst) fun out => ?_
      refine .bind (readOnly_sfsLookup cwd dstName).triple fun found => .ite ?_ (.ret fun _ hg => hg)
      exact .bind (good_sfsUnlink srcName) fun _ => .ret fun _ hg => hg
  · exact good_kprint _

theorem good_echo (kmalloc : UInt32 → Bool) {cwd : Nat} (hcwd : cwd < 64)
    (argv : List (List UInt8)) :
    Triple flat (Good cwd) (echo kmalloc cwd argv) fun _ => Good cwd := by
  unfold echo
  split
  · exact .ret fun _ hd => hd
  · dsimp only
    split
    · exact good_kprint _
    · refine .bind (good_lookupOrCreate hcwd _) ?_
      rintro (- | ino)
      · exact .pull fun _ => good_kprint _
      · refine .pull fun hino => .ite ?_ ?_
        · refine .bind (readOnly_sfsSize ino).triple fun _ => .ite (good_kprint _) ?_
          refine .bind (readOnly_sfsRead ino _).triple fun buf => ?_
          exact .bind (good_sfsWrite (hino ino rfl) _ _) fun _ => .ret fun _ hg => hg
        · exact .bind (good_sfsWrite (hino ino rfl) _ _) fun _ => .ret fun _ hg => hg

theorem good_mkdir {cwd : Nat} (argv : List (List UInt8)) :
    Triple flat (Good cwd) (mkdir cwd argv) fun _ => Good cwd := by
  unfold mkdir
  split
  · exact good_kprint _
  · exact .bind (good_sfsCreate _ (Or.inr rfl)) fun _ => .ret fun _ hg => hg.1

theorem good_touch {cwd : Nat} (hcwd : cwd < 64) (argv : List (List UInt8)) :
    Triple flat (Good cwd) (touch cwd argv) fun _ => Good cwd := by
  unfold touch
  split
  · exact good_kprint _
  · exact .bind (good_lookupOrCreate hcwd _) fun _ => .ret fun _ hg => hg.1

-- `cd` moves to a directory or stays.
theorem good_cmdCd {cwd : Nat} (hcwd : cwd < 64) (path : Option (List UInt8)) :
    Triple flat (Good cwd) (cmdCd cwd path) fun r => Good r.1 := by
  unfold cmdCd
  split
  · exact .ret fun d hd => ⟨hd.1, isDir_root hd.1⟩
  · refine .bind (good_resolve hcwd _) ?_
    rintro (- | dir)
    · exact .pull fun _ => .ret fun _ hd => hd
    · have htype : Triple flat (Good cwd) (sfsType dir)
          fun type d => Good cwd d ∧ type = typeAt d dir := fun d hd => ⟨hd, rfl⟩
      refine .pull fun hdir => .bind htype fun type => .cond ?_ ?_
      · exact fun _ => .ret fun _ hd => hd.1
      · exact fun ht => .ret fun d hd => ⟨hd.1.1, hdir dir rfl, hd.2.symm.trans (not_not.mp ht)⟩

/-! ## `rm` -/

-- The entries that `.` and `..` lead to.
theorem dot_target {d : Disk} (h : Inv d) {cwd : Nat} (hcwd : IsDir flat d cwd) {name : List UInt8}
    {de : Dirent} (hlook : findNamed (slotsAt d cwd) name = some de) (hname : cstr name = dot) :
    de.target = cwd := by
  obtain ⟨hmem, hstr⟩ := findNamed_mem hlook
  obtain ⟨x, hx, htgt⟩ := h.names.self cwd hcwd.1 hcwd.2
  have hin : de ∈ named (entriesAt d cwd) dot :=
    List.mem_filter.mpr ⟨hmem, beq_iff_eq.mpr (hstr.trans hname)⟩
  rw [hx, List.mem_singleton] at hin
  rw [hin, htgt]

theorem dotdot_target {d : Disk} (h : Inv d) {cwd : Nat} (hcwd : IsDir flat d cwd) {name : List UInt8}
    {de : Dirent} (hlook : findNamed (slotsAt d cwd) name = some de) (hname : cstr name = dotdot)
    {p : Nat} (hp : EdgeAt d p cwd ∨ (p = 0 ∧ cwd = 0)) : de.target = p := by
  obtain ⟨hmem, hstr⟩ := findNamed_mem hlook
  obtain ⟨x, hx, -, htgt⟩ := h.names.up cwd hcwd.1 hcwd.2
  have hin : de ∈ named (entriesAt d cwd) dotdot :=
    List.mem_filter.mpr ⟨hmem, beq_iff_eq.mpr (hstr.trans hname)⟩
  rw [hx, List.mem_singleton] at hin
  rw [hin, htgt p hp]

theorem findNamed_of_named {d : Disk} {cwd : Nat} {n name : List UInt8} {x : Dirent}
    (hx : named (entriesAt d cwd) n = [x]) (hname : cstr name = n) :
    findNamed (slotsAt d cwd) name ≠ none := by
  intro hnone
  have hin : x ∈ named (entriesAt d cwd) n := by
    rw [hx]
    exact List.mem_singleton_self x
  obtain ⟨hmem, hstr⟩ := List.mem_filter.mp hin
  exact findNamed_none.mp hnone x hmem ((beq_iff_eq.mp hstr).trans hname.symm)

theorem findNamed_dot {d : Disk} (h : Inv d) {cwd : Nat} (hcwd : IsDir flat d cwd)
    {name : List UInt8} (hname : cstr name = dot) : findNamed (slotsAt d cwd) name ≠ none := by
  obtain ⟨x, hx, -⟩ := h.names.self cwd hcwd.1 hcwd.2
  exact findNamed_of_named hx hname

theorem findNamed_dotdot {d : Disk} (h : Inv d) {cwd : Nat} (hcwd : IsDir flat d cwd)
    {name : List UInt8} (hname : cstr name = dotdot) : findNamed (slotsAt d cwd) name ≠ none := by
  obtain ⟨x, hx, -⟩ := h.names.up cwd hcwd.1 hcwd.2
  exact findNamed_of_named hx hname

/-- What a command leaves: `cwd` is freed if the command is a bad one, and good if it is not. -/
def Outcome (bad : Prop) (cwd : Nat) (d : Disk) : Prop :=
  (bad ∧ typeAt d cwd = sfsFree) ∨ (¬ bad ∧ Good cwd d)

-- `rm -r ..` below the root: the parent is emptied, and `cwd` with it.
theorem rmRec_up (fuel : Nat) {d : Disk} (h : Inv d) {cwd : Nat} (hcwd : IsDir flat d cwd)
    {name : List UInt8} {de : Dirent} (hlook : findNamed (slotsAt d cwd) name = some de)
    (hname : cstr name = dotdot) (hroot : cwd ≠ sfsRoot) :
    (fuel < 64 ∧ ((rmRec fuel cwd name).run flat d).1 = none) ∨
      ∃ e, (rmRec fuel cwd name).run flat d = (some none, e) ∧ typeAt e cwd = sfsFree := by
  have hlive : Live (typeAt d) cwd := ⟨hcwd.1, fun hf => absurd (hf.symm.trans hcwd.2) (by decide)⟩
  obtain ⟨p, hp⟩ := h.names.tree.exists_parent hlive hroot
  have htgt := dotdot_target h hcwd hlook hname (Or.inl hp)
  have hdots : ¬ de.isReal = true := fun hreal =>
    (isReal_iff.mp hreal).2 ((findNamed_mem hlook).2.trans hname)
  have hlt : de.target < 64 := htgt ▸ hp.1
  have hsize := sizeBelow_le h hlt
  rcases run_rmRec_dots fuel h hcwd.1 hcwd.2 hlook hdots hlt (by rw [htgt]; exact hp.2.1) with
    ⟨hless, hno⟩ | ⟨e, hrun, heff⟩
  · exact Or.inl ⟨by omega, hno⟩
  · refine Or.inr ⟨e, hrun, ?_⟩
    show (inodeAt e cwd).type = sfsFree
    rw [heff.freed cwd (htgt ▸ TransGen.single hp)]
    rfl

-- `rm -r .`, and `rm -r ..` in the root: `cwd` itself is emptied.
theorem rmRec_here (fuel : Nat) {d : Disk} (h : Inv d) {cwd : Nat} (hcwd : IsDir flat d cwd)
    {name : List UInt8} {de : Dirent} (hlook : findNamed (slotsAt d cwd) name = some de)
    (hdots : ¬ de.isReal = true) (htgt : de.target = cwd) :
    (fuel < 64 ∧ ((rmRec fuel cwd name).run flat d).1 = none) ∨
      ∃ e, (rmRec fuel cwd name).run flat d = (some none, e) ∧ Good cwd e := by
  have hlt : de.target < 64 := htgt ▸ hcwd.1
  have hsize := sizeBelow_le h hlt
  rcases run_rmRec_dots fuel h hcwd.1 hcwd.2 hlook hdots hlt (by rw [htgt]; exact hcwd.2) with
    ⟨hless, hno⟩ | ⟨e, hrun, heff⟩
  · exact Or.inl ⟨by omega, hno⟩
  · have hino := heff.inode
    rw [htgt] at hino
    refine Or.inr ⟨e, hrun, heff.inv, hcwd.1, ?_⟩
    show (inodeAt e cwd).type = sfsDir
    rw [hino]
    exact hcwd.2

-- `rm -r` of a name of `cwd`.
theorem rmRec_child (fuel : Nat) {d : Disk} (h : Inv d) {cwd : Nat} (hcwd : IsDir flat d cwd)
    {name : List UInt8} {de : Dirent} (hlook : findNamed (slotsAt d cwd) name = some de)
    (hreal : de.isReal = true) :
    (fuel < 64 ∧ ((rmRec fuel cwd name).run flat d).1 = none) ∨
      ∃ e, (rmRec fuel cwd name).run flat d = (some (some 0), e) ∧ Good cwd e := by
  have hsize := sizeBelow_le h (h.names.target_lt hcwd.1 hcwd.2 (findNamed_mem hlook).1).1
  rcases run_rmRec fuel h hcwd.1 hcwd.2 hlook hreal with ⟨hless, hno⟩ | ⟨e, hrun, heff⟩
  · exact Or.inl ⟨by omega, hno⟩
  · refine Or.inr ⟨e, hrun, heff.inv, hcwd.1, ?_⟩
    show (inodeAt e cwd).type = sfsDir
    rw [heff.inode]
    exact hcwd.2

theorem rmRec_outcome (fuel cwd : Nat) (name : List UInt8) :
    Triple flat (Good cwd) (rmRec fuel cwd name) fun r d => (fuel < 64 ∧ r = none) ∨
      ∃ x, r = some x ∧ Outcome (cstr name = dotdot ∧ cwd ≠ sfsRoot) cwd d := by
  rintro d ⟨h, hcwd⟩
  cases hlook : findNamed (slotsAt d cwd) name with
  | none =>
    cases fuel with
    | zero => exact Or.inl ⟨by decide, rfl⟩
    | succ fuel =>
      have hlookup : (sfsLookup cwd name).run flat d = (none, d) := by
        unfold sfsLookup
        rw [run_sfsLookup h hcwd.1 hcwd.2, hlook, Option.map_none]
      rw [rmRec, Prog.run_bind, hlookup]
      exact Or.inr ⟨none, rfl, Or.inr ⟨fun hbad => findNamed_dotdot h hcwd hbad.1 hlook, h, hcwd⟩⟩
  | some de =>
    by_cases hbad : cstr name = dotdot ∧ cwd ≠ sfsRoot
    · rcases rmRec_up fuel h hcwd hlook hbad.1 hbad.2 with hno | ⟨e, hrun, hfree⟩
      · exact Or.inl hno
      · rw [hrun]
        exact Or.inr ⟨none, rfl, Or.inl ⟨hbad, hfree⟩⟩
    by_cases hreal : de.isReal = true
    · rcases rmRec_child fuel h hcwd hlook hreal with hno | ⟨e, hrun, hgood⟩
      · exact Or.inl hno
      · rw [hrun]
        exact Or.inr ⟨some 0, rfl, Or.inr ⟨hbad, hgood⟩⟩
    · have htgt : de.target = cwd := by
        rcases dots_name hlook hreal with hname | hname
        · exact dot_target h hcwd hlook hname
        · have hroot : cwd = 0 := by
            by_contra hne
            exact hbad ⟨hname, hne⟩
          rw [hroot]
          exact dotdot_target h hcwd hlook hname (Or.inr ⟨rfl, hroot⟩)
      rcases rmRec_here fuel h hcwd hlook hreal htgt with hno | ⟨e, hrun, hgood⟩
      · exact Or.inl hno
      · rw [hrun]
        exact Or.inr ⟨none, rfl, Or.inr ⟨hbad, hgood⟩⟩

/-- The arguments are those of `rm -r ..`, in a directory other than the root. -/
def RemovesUp (cwd : Nat) (argv : List (List UInt8)) : Prop :=
  ∃ arg name, argv[1]? = some arg ∧ argv[2]? = some name ∧ strcmp arg (ascii "-r") = 0 ∧
    cstr name = dotdot ∧ cwd ≠ sfsRoot

theorem rm_outcome (fuel cwd : Nat) (argv : List (List UInt8)) :
    Triple flat (Good cwd) (rm fuel cwd argv) fun r d => (fuel < 64 ∧ r = none) ∨
      ∃ out, r = some out ∧ Outcome (RemovesUp cwd argv) cwd d := by
  unfold rm
  split
  · rename_i harg
    refine .ret fun d hd => Or.inr ⟨_, rfl, Or.inr ⟨?_, hd⟩⟩
    rintro ⟨arg, -, hsome, -⟩
    exact absurd (harg.symm.trans hsome) (by simp)
  · rename_i arg harg
    refine .cond ?_ ?_
    · intro hr
      split
      · rename_i hname
        refine .ret fun d hd => Or.inr ⟨_, rfl, Or.inr ⟨?_, hd⟩⟩
        rintro ⟨-, name, -, hsome, -⟩
        exact absurd (hname.symm.trans hsome) (by simp)
      · rename_i name hname
        have hiff : RemovesUp cwd argv ↔ cstr name = dotdot ∧ cwd ≠ sfsRoot := by
          constructor
          · rintro ⟨-, name', -, hsome, -, hdots⟩
            obtain rfl : name = name' := by simpa using hname.symm.trans hsome
            exact hdots
          · exact fun hdots => ⟨arg, name, harg, hname, hr, hdots⟩
        refine .bind (rmRec_outcome fuel cwd name) fun r => .ret fun d hd => ?_
        rw [hiff]
        rcases hd with ⟨hless, rfl⟩ | ⟨x, rfl, hout⟩
        · exact Or.inl ⟨hless, rfl⟩
        · exact Or.inr ⟨_, rfl, hout⟩
    · intro hr
      refine .bind (good_sfsUnlink arg) fun r => .ret fun d hd => Or.inr ⟨_, rfl, Or.inr ⟨?_, hd⟩⟩
      rintro ⟨arg', -, hsome, -, hr', -⟩
      obtain rfl : arg = arg' := by simpa using harg.symm.trans hsome
      exact hr hr'

/-! ## Command lines -/

theorem isCmd_iff {cmd : List UInt8} {s : String} : isCmd cmd s = true ↔ cstr cmd = cstr (ascii s) := by
  unfold isCmd
  rw [beq_iff_eq, strcmp_eq_zero_iff]

-- A command word is one name only.
theorem isCmd_ne {cmd : List UInt8} {s : String} (h : isCmd cmd s = true) (t : String)
    (hne : cstr (ascii s) ≠ cstr (ascii t)) : ¬ isCmd cmd t = true :=
  fun ht => hne ((isCmd_iff.mp h).symm.trans (isCmd_iff.mp ht))

-- A line that does not remove the parent: the command returns with a good directory.
def Ends (r : Option (Nat × List UInt8)) (d : Disk) : Prop :=
  ∃ cwd out, r = some (cwd, out) ∧ Good cwd d

theorem ends_prints {cwd : Nat} {p : SfsM (List UInt8)} (hp : Triple flat (Good cwd) p fun _ => Good cwd) :
    Triple flat (Good cwd) (prints cwd p) Ends :=
  .bind hp fun _ => .ret fun _ hd => ⟨_, _, rfl, hd⟩

theorem dispatch_other (fuel : Nat) (kmalloc : UInt32 → Bool) {cwd : Nat} (hcwd : cwd < 64)
    {cmd : List UInt8} (hcmd : ¬ isCmd cmd "rm" = true) (argv : List (List UInt8)) :
    Triple flat (Good cwd) (dispatch fuel kmalloc cwd cmd argv) Ends := by
  have hsame : ∀ out, Triple flat (Good cwd) (pure (some (cwd, out))) Ends :=
    fun out => .ret fun _ hd => ⟨_, _, rfl, hd⟩
  refine .ite (ends_prints (.bind (readOnly_printCwd cwd).triple fun _ => .ret fun _ hd => hd)) ?_
  refine .ite (ends_prints (readOnly_cmdLs cwd _).triple) ?_
  refine .ite (.bind (good_cmdCd hcwd _) fun r => .ret fun _ hd => ⟨r.1, r.2, rfl, hd⟩) ?_
  refine .ite (ends_prints (good_mkdir argv)) (.ite (ends_prints (good_touch hcwd argv)) ?_)
  refine .ite (ends_prints (readOnly_cmdCat kmalloc cwd _).triple) ?_
  refine .ite (ends_prints (good_echo kmalloc hcwd argv)) ?_
  refine .ite (ends_prints (good_cmdCp kmalloc hcwd _ _)) ?_
  refine .ite (ends_prints (good_cmdMv kmalloc hcwd _ _)) ?_
  exact .cond (fun hrm => absurd hrm hcmd) fun _ => .ite (hsame _) (hsame _)

theorem dispatch_rm (fuel : Nat) (kmalloc : UInt32 → Bool) (cwd : Nat) {cmd : List UInt8}
    (hcmd : isCmd cmd "rm" = true) (argv : List (List UInt8)) :
    dispatch fuel kmalloc cwd cmd argv = do
      let r ← rm fuel cwd argv
      return r.map fun out => (cwd, out) := by
  simp (disch := decide) only [dispatch, isCmd_ne hcmd, hcmd, if_true, if_false, Bool.false_eq_true]

/-- The line is `rm -r ..`, in a directory other than the root. -/
def RemovesParent (cwd : Nat) (line : List UInt8) : Prop :=
  ∃ cmd, (tokenize line 16)[0]? = some cmd ∧ strcmp cmd (ascii "rm") = 0 ∧
    RemovesUp cwd (tokenize line 16)

-- The sync at the end leaves the blocks as they are.
theorem triple_finish {P : Option (Nat × List UInt8) → Disk → Prop} (r : Option (Nat × List UInt8)) :
    Triple flat (P r) (finish r) P := by
  cases r with
  | none => exact fun d hd => hd
  | some r => exact fun d hd => hd

theorem runCommand_outcome (fuel : Nat) (kmalloc : UInt32 → Bool) {cwd : Nat} (hcwd : cwd < 64)
    (line : List UInt8) :
    Triple flat (Good cwd) (runCommand fuel kmalloc cwd line) fun r d => (fuel < 64 ∧ r = none) ∨
      ∃ cwd' out, r = some (cwd', out) ∧ Outcome (RemovesParent cwd line) cwd' d := by
  unfold runCommand RemovesParent
  cases tokenize line 16 with
  | nil =>
    refine .ret fun d hd => Or.inr ⟨cwd, [], rfl, Or.inr ⟨?_, hd⟩⟩
    rintro ⟨cmd, hsome, -⟩
    exact absurd hsome (by simp)
  | cons cmd args =>
    dsimp only
    have hbad : (∃ c, (cmd :: args)[0]? = some c ∧ strcmp c (ascii "rm") = 0 ∧
        RemovesUp cwd (cmd :: args)) ↔ isCmd cmd "rm" = true ∧ RemovesUp cwd (cmd :: args) := by
      simp [isCmd]
    rw [hbad]
    refine .bind ?_ triple_finish
    by_cases hcmd : isCmd cmd "rm" = true
    · rw [dispatch_rm fuel kmalloc cwd hcmd]
      refine .bind (rm_outcome fuel cwd _) fun r => .ret fun d hd => ?_
      rcases hd with ⟨hless, rfl⟩ | ⟨out, rfl, hout⟩
      · exact Or.inl ⟨hless, rfl⟩
      · refine Or.inr ⟨cwd, out, rfl, ?_⟩
        rw [and_iff_right hcmd]
        exact hout
    · refine (dispatch_other fuel kmalloc hcwd hcmd _).weaken ?_
      rintro r d ⟨cwd', out, rfl, hgood⟩
      exact Or.inr ⟨cwd', out, rfl, Or.inr ⟨fun hb => hcmd hb.1, hgood⟩⟩

/-! ## Sessions -/

/-- `cwd` is a directory that is reachable from the root. -/
def CwdValid (d : Disk) (cwd : Nat) : Prop := IsDir flat d cwd ∧ Below d sfsRoot cwd

/-- The states of the sessions on the formatted disk `d₀` whose lines all satisfy `ok`, each in the
directory it is run in. -/
inductive Session (ok : Nat → List UInt8 → Prop) (d₀ : Disk) : Nat → Disk → Prop where
  | start : Session ok d₀ sfsRoot (format.run flat d₀).2
  | line {cwd cwd' fuel : Nat} {d d' : Disk} {kmalloc : UInt32 → Bool} {line out : List UInt8}
      (h : Session ok d₀ cwd d) (hok : ok cwd line)
      (hrun : (runCommand fuel kmalloc cwd line).run flat d = (some (cwd', out), d')) :
      Session ok d₀ cwd' d'

theorem good_start (d₀ : Disk) : Good sfsRoot (format.run flat d₀).2 := by
  obtain ⟨e, hrun, hinv, -⟩ := run_format d₀
  rw [hrun]
  exact ⟨hinv, isDir_root hinv⟩

theorem Good.cwdValid {cwd : Nat} {d : Disk} (h : Good cwd d) : CwdValid d cwd :=
  ⟨h.2, h.1.names.tree.reach ⟨h.2.1, fun hf => absurd (hf.symm.trans h.2.2) (by decide)⟩⟩

theorem Outcome.cwdValid_iff {bad : Prop} {cwd : Nat} {d : Disk} (h : Outcome bad cwd d) :
    CwdValid d cwd ↔ ¬ bad := by
  rcases h with ⟨hbad, hfree⟩ | ⟨hok, hgood⟩
  · refine iff_of_false ?_ (not_not.mpr hbad)
    rintro ⟨⟨-, hdir⟩, -⟩
    exact absurd (hfree.symm.trans hdir) (by decide)
  · exact iff_of_true hgood.cwdValid hok

-- One line of a session.
theorem Good.outcome {cwd cwd' fuel : Nat} {d d' : Disk} {kmalloc : UInt32 → Bool}
    {line out : List UInt8} (h : Good cwd d)
    (hrun : (runCommand fuel kmalloc cwd line).run flat d = (some (cwd', out), d')) :
    Outcome (RemovesParent cwd line) cwd' d' := by
  have hout := runCommand_outcome fuel kmalloc h.2.1 line d h
  rw [hrun] at hout
  rcases hout with ⟨-, hno⟩ | ⟨cwd'', out', heq, hout⟩
  · exact absurd hno (by simp)
  · obtain ⟨rfl, rfl⟩ : cwd' = cwd'' ∧ out = out' := by simpa using heq
    exact hout

theorem good_session {d₀ d : Disk} {cwd : Nat}
    (h : Session (fun cwd line => ¬ RemovesParent cwd line) d₀ cwd d) : Good cwd d := by
  induction h with
  | start => exact good_start d₀
  | line _ hok hrun ih =>
    rcases ih.outcome hrun with ⟨hbad, -⟩ | ⟨-, hgood⟩
    · exact absurd hbad hok
    · exact hgood

/-! ### `mkdir a`, `cd a` -/

theorem run_mkdirLine {cwd ino : Nat} {d e : Disk} (kmalloc : UInt32 → Bool)
    (h : (sfsCreate cwd (ascii "a") sfsDir).run flat d = (some ino, e)) :
    (runCommand 0 kmalloc cwd (ascii "mkdir a")).run flat d = (some (cwd, []), e) := by
  have htok : tokenize (ascii "mkdir a") 16 = [ascii "mkdir" ++ 0 :: ascii "a", ascii "a"] := by decide
  have hmk : mkdir cwd [ascii "mkdir" ++ 0 :: ascii "a", ascii "a"] = do
      let made ← sfsCreate cwd (ascii "a") sfsDir
      return if made = none then ascii "mkdir: failed\n" else [] := rfl
  unfold runCommand dispatch
  rw [htok]
  dsimp only
  rw [if_neg (by decide), if_neg (by decide), if_neg (by decide), if_pos (by decide), prints, hmk,
    Prog.run_bind, Prog.run_bind, Prog.run_bind, h]
  rfl

theorem run_cdLine {cwd ino : Nat} {d : Disk} (kmalloc : UInt32 → Bool)
    (h : (sfsLookup cwd (ascii "a")).run flat d = (some ino, d)) (ht : typeAt d ino = sfsDir) :
    (runCommand 0 kmalloc cwd (ascii "cd a")).run flat d = (some (ino, []), d) := by
  have htok : tokenize (ascii "cd a") 16 = [ascii "cd" ++ 0 :: ascii "a", ascii "a"] := by decide
  have hres : resolve cwd (ascii "a") = sfsLookup cwd (ascii "a") := rfl
  have htype : (sfsType ino).run flat d = (typeAt d ino, d) := rfl
  have hcd : cmdCd cwd [ascii "cd" ++ 0 :: ascii "a", ascii "a"][1]? =
      resolve cwd (ascii "a") >>= enterDir cwd := rfl
  unfold runCommand dispatch
  rw [htok]
  dsimp only
  rw [if_neg (by decide), if_neg (by decide), if_pos (by decide), hcd, hres, Prog.run_bind,
    Prog.run_bind, Prog.run_bind, h]
  dsimp only
  rw [enterDir, Prog.run_bind, htype]
  dsimp only
  rw [if_neg (not_not.mpr ht)]
  rfl

-- The first object made in the root of a fresh file system.
theorem run_create_fresh (d₀ : Disk) {name : List UInt8} (hdot : dot ≠ cstr name)
    (hdotdot : dotdot ≠ cstr name) (hlen : strlen name ≤ 27) {type : UInt32}
    (htype : type = sfsFile ∨ type = sfsDir) :
    ∃ ino e, (sfsCreate sfsRoot name type).run flat (format.run flat d₀).2 = (some ino, e) ∧
      Good sfsRoot e ∧ (findNamed (slotsAt e sfsRoot) name).map Dirent.target = some ino ∧
      typeAt e ino = type ∧ ino < 64 ∧ ino ≠ sfsRoot := by
  obtain ⟨d, e, hrun, hinv, -, hcreate, hnone, hino, heff⟩ := create_fresh d₀ hdot hdotdot htype
  have hroot := isDir_root hinv
  have hinv' := hinv.create hroot.1 hroot.2 htype (hnone name hdot hdotdot) hino heff
  have hfound := lookup_created hinv hroot htype (hnone name hdot hdotdot) hino heff
  rw [if_pos hlen] at hfound
  rw [hrun]
  exact ⟨1, e, hcreate, ⟨hinv', isDir_root hinv'⟩, hfound, heff.typeIno, by decide, by decide⟩

-- The directory `a` is made and entered.
theorem session_in_a (ok : Nat → List UInt8 → Prop) (hmk : ok sfsRoot (ascii "mkdir a"))
    (hcd : ok sfsRoot (ascii "cd a")) (d₀ : Disk) :
    ∃ cwd d, Session ok d₀ cwd d ∧ Good cwd d ∧ cwd ≠ sfsRoot := by
  obtain ⟨ino, e, hcreate, hgood, hfound, htype, hlt, hne⟩ :=
    @run_create_fresh d₀ (ascii "a") (by decide) (by decide) (by decide) sfsDir (Or.inr rfl)
  have hlookup : (sfsLookup sfsRoot (ascii "a")).run flat e = (some ino, e) := by
    unfold sfsLookup
    rw [run_sfsLookup hgood.1 hgood.2.1 hgood.2.2]
    exact Prod.ext hfound rfl
  refine ⟨ino, e, ?_, ⟨hgood.1, hlt, htype⟩, hne⟩
  exact .line (.line .start hmk (run_mkdirLine (fun _ => true) hcreate)) hcd
    (run_cdLine (fun _ => true) hlookup htype)

theorem not_removesParent_root (line : List UInt8) : ¬ RemovesParent sfsRoot line := by
  rintro ⟨-, -, -, -, -, -, -, -, -, hne⟩
  exact hne rfl

/-- In every state of a session without `rm -r ..` the working directory is valid, every further line
returns, and it leaves a valid working directory exactly if it is not `rm -r ..` below the root. -/
theorem cwdValid_session {d₀ d : Disk} {cwd : Nat}
    (h : Session (fun cwd line => ¬ RemovesParent cwd line) d₀ cwd d) :
    CwdValid d cwd ∧ ∀ kmalloc line,
      (∃ cwd' out d', (runCommand 64 kmalloc cwd line).run flat d = (some (cwd', out), d')) ∧
      ∀ fuel cwd' out d', (runCommand fuel kmalloc cwd line).run flat d = (some (cwd', out), d') →
        (CwdValid d' cwd' ↔ ¬ RemovesParent cwd line) := by
  have hgood := good_session h
  refine ⟨hgood.cwdValid, fun kmalloc line => ⟨?_, ?_⟩⟩
  · rcases runCommand_outcome 64 kmalloc hgood.2.1 line d hgood with ⟨hless, -⟩ | ⟨cwd', out, heq, -⟩
    · exact absurd hless (by decide)
    · exact ⟨cwd', out, _, Prod.ext heq rfl⟩
  · intro fuel cwd' out d' hrun
    exact (hgood.outcome hrun).cwdValid_iff

theorem cwdValid_session_in_a :
    ∃ cwd d, Session (fun cwd line => ¬ RemovesParent cwd line) blankDisk cwd d ∧ cwd ≠ sfsRoot ∧
      CwdValid d cwd := by
  obtain ⟨cwd, d, hs, -, hne⟩ := session_in_a (fun cwd line => ¬ RemovesParent cwd line)
    (not_removesParent_root _) (not_removesParent_root _) blankDisk
  exact ⟨cwd, d, hs, hne, (cwdValid_session hs).1⟩

-- `mkdir a`, `cd a`, `rm -r ..` on a blank disk: the inode of `a` is free afterwards.
theorem cwd_dangles :
    ∃ cwd d, Session (fun _ _ => True) blankDisk cwd d ∧ ¬ CwdValid d cwd := by
  obtain ⟨cwd, d, hs, hgood, hne⟩ := session_in_a (fun _ _ => True) trivial trivial blankDisk
  have htok : tokenize (ascii "rm -r ..") 16 =
      [ascii "rm" ++ 0 :: (ascii "-r" ++ 0 :: dotdot), ascii "-r" ++ 0 :: dotdot, dotdot] := by decide
  have hbad : RemovesParent cwd (ascii "rm -r ..") := by
    unfold RemovesParent RemovesUp
    rw [htok]
    exact ⟨_, rfl, by decide, _, _, rfl, rfl, by decide, by decide, hne⟩
  rcases runCommand_outcome 64 (fun _ => true) hgood.2.1 (ascii "rm -r ..") d hgood with
    ⟨hless, -⟩ | ⟨cwd', out, heq, hout⟩
  · exact absurd hless (by decide)
  · refine ⟨cwd', _, .line hs trivial (Prod.ext heq rfl), ?_⟩
    rw [hout.cwdValid_iff, not_not]
    exact hbad

end JacobOS.Shell
