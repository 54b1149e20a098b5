import JacobOS.Fs.Contents
import JacobOS.Kernel.Session

/-!
# Commands that report an error

A command of the shell that prints an error has changed nothing, with three exceptions.  `mv` ignores
that its copy has failed and removes the source if there is anything under the new name; `echo … >> f`
makes `f` before it asks for memory; and `rm -r` of `.` or `..` empties the directory and then fails.
-/

namespace JacobOS.Shell

open BlockProgram CString Fs RootedTree Relation

/-! ## What a command shows and changes -/

/-- What is printed is an error message.  The commands below print nothing else, except for the warning
of `echo` about a file that has become too long. -/
def Reports (out : List UInt8) : Prop := out ≠ [] ∧ out ≠ ascii "echo: file capped at 7KB\n"

instance (out : List UInt8) : Decidable (Reports out) := inferInstanceAs (Decidable (_ ∧ _))

theorem not_reports_nil : ¬ Reports [] := by decide

/-- Every inode has the same type, contents and listing on both disks. -/
def Unchanged (d e : Disk) : Prop :=
  ∀ i, i < 64 → ((sfsType i).run flat e).1 = ((sfsType i).run flat d).1 ∧
    (∀ max, ((sfsRead i max).run flat e).1 = ((sfsRead i max).run flat d).1) ∧
    ∀ index, ((sfsReaddir i index).run flat e).1 = ((sfsReaddir i index).run flat d).1

theorem Unchanged.refl (d : Disk) : Unchanged d d := fun _ _ => ⟨rfl, fun _ => rfl, fun _ => rfl⟩

theorem Unchanged.typeAt {d e : Disk} (h : Unchanged d e) {i : Nat} (hi : i < 64) :
    typeAt e i = typeAt d i := (h i hi).1

/-- From `d` the command has printed `out` and left `e`: an error leaves everything as it was, exactly
if the command is not a `bad` one. -/
def Reported (bad : Prop) (d : Disk) (out : List UInt8) (e : Disk) : Prop :=
  (Reports out → Unchanged d e) ↔ ¬ bad

namespace Reported

variable {bad : Prop} {d e : Disk} {out : List UInt8}

theorem kept (hbad : ¬ bad) : Reported bad d out d := iff_of_true (fun _ => .refl d) hbad

theorem silent (hout : ¬ Reports out) (hbad : ¬ bad) : Reported bad d out e :=
  iff_of_true (fun h => absurd h hout) hbad

theorem congr {bad' : Prop} (h : Reported bad d out e) (hiff : bad' ↔ bad) : Reported bad' d out e := by
  unfold Reported
  rw [hiff]
  exact h

-- An inode whose type has changed.
theorem broken {i : Nat} (hi : i < 64) (hne : Fs.typeAt e i ≠ Fs.typeAt d i) (hout : Reports out)
    (hbad : bad) : Reported bad d out e :=
  iff_of_false (fun h => hne ((h hout).typeAt hi)) (not_not.mpr hbad)

end Reported

/-! ## The damaging commands -/

/-- `cp` of `src` to `dst` prints an error. -/
def CpRefuses (kmalloc : UInt32 → Bool) (d : Disk) (cwd : Nat) (src dst : List UInt8) : Prop :=
  match ((resolve cwd src).run flat d).1 with
  | none => True
  | some s => typeAt d s ≠ sfsFile ∨
      kmalloc (if (inodeAt d s).size ≠ 0 then (inodeAt d s).size else 1) = false ∨
      match findNamed (slotsAt d cwd) dst with
      | none => firstFree d = none
      | some de => typeAt d de.target ≠ sfsFile

/-- `mv` of a file to a name that is taken, where the copy fails. -/
def MvDamages (kmalloc : UInt32 → Bool) (d : Disk) (cwd : Nat) (argv : List (List UInt8)) : Prop :=
  ∃ src dst de, given argv[1]? = some src ∧ given argv[2]? = some dst ∧
    findNamed (slotsAt d cwd) src = some de ∧ typeAt d de.target = sfsFile ∧
    findNamed (slotsAt d cwd) dst ≠ none ∧ CpRefuses kmalloc d cwd src dst

/-- `echo … >> f` with a new name `f` and an inode for it, but no memory for the text. -/
def EchoDamages (kmalloc : UInt32 → Bool) (d : Disk) (cwd : Nat) (argv : List (List UInt8)) : Prop :=
  ∃ redir fname, findRedir 1 argv.tail = some (redir, true) ∧ argv[redir + 1]? = some fname ∧
    findNamed (slotsAt d cwd) fname = none ∧ firstFree d ≠ none ∧
    kmalloc (UInt32.ofNat (echoText 1 (argv.tail.take (redir - 1)) []).length + 1) = false

/-- `rm_rec` of `.` or `..`, which leads to a directory that is not empty. -/
def RmRecDamages (d : Disk) (cwd : Nat) (name : List UInt8) : Prop :=
  ∃ de, (cstr name = dot ∨ cstr name = dotdot) ∧ findNamed (slotsAt d cwd) name = some de ∧
    children (entriesAt d de.target) ≠ []

def RmDamages (d : Disk) (cwd : Nat) (argv : List (List UInt8)) : Prop :=
  ∃ arg name, argv[1]? = some arg ∧ argv[2]? = some name ∧ strcmp arg (ascii "-r") = 0 ∧
    RmRecDamages d cwd name

/-- The command `cmd` with arguments `argv` reports an error after it has changed something. -/
def Damages (kmalloc : UInt32 → Bool) (d : Disk) (cwd : Nat) (cmd : List UInt8)
    (argv : List (List UInt8)) : Prop :=
  (isCmd cmd "echo" = true ∧ EchoDamages kmalloc d cwd argv) ∨
    (isCmd cmd "mv" = true ∧ MvDamages kmalloc d cwd argv) ∨
    (isCmd cmd "rm" = true ∧ RmDamages d cwd argv)

/-! ## The commands one by one -/

theorem run_lookup_good {cwd : Nat} {d : Disk} (h : Good cwd d) (name : List UInt8) :
    (sfsLookup cwd name).run flat d = ((findNamed (slotsAt d cwd) name).map Dirent.target, d) :=
  run_sfsLookup h.1 h.2.1 h.2.2 name

-- The three ways of `lookupOrCreate`.
theorem run_lookupOrCreate {cwd : Nat} {d : Disk} (h : Good cwd d) (name : List UInt8) :
    (∃ de, findNamed (slotsAt d cwd) name = some de ∧
        (lookupOrCreate cwd name).run flat d = (some de.target, d)) ∨
      (findNamed (slotsAt d cwd) name = none ∧ firstFree d = none ∧
        (lookupOrCreate cwd name).run flat d = (none, d)) ∨
      ∃ ino e, findNamed (slotsAt d cwd) name = none ∧ firstFree d = some ino ∧
        (lookupOrCreate cwd name).run flat d = (some ino, e) ∧
        slotsAt e cwd = addSlot (slotsAt d cwd) name ino ∧ CreateEffect cwd name sfsFile ino d e := by
  rw [lookupOrCreate, Prog.run_bind, run_lookup_good h]
  cases hlook : findNamed (slotsAt d cwd) name with
  | some de => exact Or.inl ⟨de, rfl, rfl⟩
  | none =>
    dsimp only [Option.map_none]
    rcases run_sfsCreate_slots h.1 h.2.1 h.2.2 name (Or.inl rfl) with
      ⟨hwhy, hrun⟩ | ⟨ino, e, -, hfree, hrun, heff⟩
    · exact Or.inr (Or.inl ⟨rfl, hwhy.resolve_left (not_not.mpr hlook), hrun⟩)
    · exact Or.inr (Or.inr ⟨ino, e, rfl, hfree, hrun, heff⟩)

theorem mkdir_reported {cwd : Nat} {d : Disk} (h : Good cwd d) (argv : List (List UInt8)) :
    Reported False d ((mkdir cwd argv).run flat d).1 ((mkdir cwd argv).run flat d).2 := by
  unfold mkdir
  split
  · exact .kept not_false
  · rename_i name _
    rw [Prog.run_bind]
    rcases run_sfsCreate h.1 h.2.1 h.2.2 name (Or.inr rfl) with ⟨-, hrun⟩ | ⟨ino, e, -, -, hrun, -⟩
    · rw [hrun]
      exact .kept not_false
    · rw [hrun]
      exact .silent (by simp [Reports]) not_false

theorem touch_reported {cwd : Nat} {d : Disk} (h : Good cwd d) (argv : List (List UInt8)) :
    Reported False d ((touch cwd argv).run flat d).1 ((touch cwd argv).run flat d).2 := by
  unfold touch
  split
  · exact .kept not_false
  · rename_i name _
    rw [Prog.run_bind]
    rcases run_lookupOrCreate h name with ⟨de, -, hrun⟩ | ⟨-, -, hrun⟩ | ⟨ino, e, -, -, hrun, -⟩
    · rw [hrun]
      exact .kept not_false
    · rw [hrun]
      exact .kept not_false
    · rw [hrun]
      exact .silent (by simp [Reports]) not_false

/-- What `cp` does when it goes through: `dst` is a file or becomes one, and gets the contents `bytes`. -/
inductive CpEffect (cwd : Nat) (dst bytes : List UInt8) (d e : Disk) : Prop where
  | replaced {de : Dirent} (found : findNamed (slotsAt d cwd) dst = some de)
      (file : typeAt d de.target = sfsFile) (store : StoreEffect de.target (bufferOf bytes) bytes.length d e)
  | made {ino : Nat} {d' : Disk} (absent : findNamed (slotsAt d cwd) dst = none)
      (free : firstFree d = some ino) (slots : slotsAt d' cwd = addSlot (slotsAt d cwd) dst ino)
      (create : CreateEffect cwd dst sfsFile ino d d')
      (store : StoreEffect ino (bufferOf bytes) bytes.length d' e)

-- The contents of a file are written whole.
theorem run_sfsWrite_bytes {d : Disk} (h : Sound d) {i : Nat} (hi : i < 64) (ht : typeAt d i = sfsFile)
    {bytes : List UInt8} (hlen : bytes.length ≤ 14 * 512) :
    ∃ e, ((sfsWrite i (bufferOf bytes) bytes.length).run flat d).2 = e ∧
      StoreEffect i (bufferOf bytes) bytes.length d e := by
  rcases run_sfsWrite h hi (bufferOf bytes) bytes.length with ⟨hno, -⟩ | ⟨-, e, hrun, heff⟩
  · exact absurd ht hno
  · rw [Nat.min_eq_left hlen] at heff
    exact ⟨e, congrArg Prod.snd hrun, heff⟩

-- The error of `cp` comes before its first change.
theorem run_cmdCp (kmalloc : UInt32 → Bool) {cwd : Nat} {d : Disk} (h : Good cwd d)
    {src dst : Option (List UInt8)} {srcName dstName : List UInt8} (hsrc : given src = some srcName)
    (hdst : given dst = some dstName) :
    (CpRefuses kmalloc d cwd srcName dstName ∧
        ∃ out, Reports out ∧ (cmdCp kmalloc cwd src dst).run flat d = (out, d)) ∨
      (¬ CpRefuses kmalloc d cwd srcName dstName ∧
        ∃ s e, ((resolve cwd srcName).run flat d).1 = some s ∧ typeAt d s = sfsFile ∧
          (cmdCp kmalloc cwd src dst).run flat d = ([], e) ∧ CpEffect cwd dstName (contentAt d s) d e) := by
  have hlt := (good_resolve h.2.1 srcName d h).2
  unfold cmdCp CpRefuses
  rw [hsrc, hdst]
  dsimp only
  rw [Prog.run_bind, readOnly_resolve cwd srcName d]
  cases hres : ((resolve cwd srcName).run flat d).1 with
  | none => exact Or.inl ⟨trivial, _, by decide, rfl⟩
  | some s =>
    have htype : (sfsType s).run flat d = (typeAt d s, d) := rfl
    have hsize : (sfsSize s).run flat d = ((inodeAt d s).size, d) := rfl
    dsimp only
    rw [Prog.run_bind, htype]
    dsimp only
    by_cases hfile : typeAt d s = sfsFile
    · have hlen := h.1.length_contentAt_le (hlt s hres) hfile
      rw [if_neg (not_not.mpr hfile), Prog.run_bind, hsize]
      dsimp only
      by_cases hmem : kmalloc (if (inodeAt d s).size ≠ 0 then (inodeAt d s).size else 1) = false
      · rw [if_pos hmem]
        exact Or.inl ⟨Or.inr (Or.inl hmem), _, by decide, rfl⟩
      · rw [if_neg hmem, Prog.run_bind, run_sfsRead_size]
        dsimp only
        rw [Prog.run_bind]
        rcases run_lookupOrCreate h dstName with
          ⟨de, hlook, hrun⟩ | ⟨hlook, hfree, hrun⟩ | ⟨ino, e, hlook, hfree, hrun, hslots, heff⟩
        · have hdtype : (sfsType de.target).run flat d = (typeAt d de.target, d) := rfl
          rw [hrun, hlook]
          dsimp only
          rw [Prog.run_bind, hdtype]
          dsimp only
          by_cases hdfile : typeAt d de.target = sfsFile
          · have hde := (h.1.names.target_lt h.2.1 h.2.2 (findNamed_mem hlook).1).1
            obtain ⟨e, hwrite, hstore⟩ := run_sfsWrite_bytes h.1.sound hde hdfile hlen
            rw [if_neg (not_not.mpr hdfile), Prog.run_bind, hwrite]
            exact Or.inr ⟨not_or.mpr ⟨not_not.mpr hfile, not_or.mpr ⟨hmem, not_not.mpr hdfile⟩⟩,
              s, e, rfl, hfile, rfl, .replaced hlook hdfile hstore⟩
          · rw [if_pos hdfile]
            exact Or.inl ⟨Or.inr (Or.inr hdfile), _, by decide, rfl⟩
        · rw [hrun, hlook]
          exact Or.inl ⟨Or.inr (Or.inr hfree), _, by decide, rfl⟩
        · have hdtype : (sfsType ino).run flat e = (typeAt e ino, e) := rfl
          obtain ⟨g, hwrite, hstore⟩ :=
            run_sfsWrite_bytes heff.sound (firstFree_some hfree).1 heff.typeIno hlen
          rw [hrun, hlook]
          dsimp only
          rw [Prog.run_bind, hdtype]
          dsimp only
          rw [if_neg (not_not.mpr heff.typeIno), Prog.run_bind, hwrite]
          exact Or.inr ⟨not_or.mpr ⟨not_not.mpr hfile, not_or.mpr ⟨hmem, by rw [hfree]; simp⟩⟩,
            s, g, rfl, hfile, rfl, .made hlook hfree hslots heff hstore⟩
    · rw [if_pos hfile]
      exact Or.inl ⟨Or.inl hfile, _, by decide, rfl⟩

theorem cmdCp_reported (kmalloc : UInt32 → Bool) {cwd : Nat} {d : Disk} (h : Good cwd d)
    (src dst : Option (List UInt8)) :
    Reported False d ((cmdCp kmalloc cwd src dst).run flat d).1
      ((cmdCp kmalloc cwd src dst).run flat d).2 := by
  cases hsrc : given src with
  | none =>
    unfold cmdCp
    rw [hsrc]
    exact .kept not_false
  | some srcName =>
    cases hdst : given dst with
    | none =>
      unfold cmdCp
      rw [hsrc, hdst]
      exact .kept not_false
    | some dstName =>
      rcases run_cmdCp kmalloc h hsrc hdst with ⟨-, out, -, hrun⟩ | ⟨-, -, e, -, -, hrun, -⟩
      · rw [hrun]
        exact .kept not_false
      · rw [hrun]
        exact .silent not_reports_nil not_false

-- `.` and `..` lead to directories.
theorem dots_isDir {cwd : Nat} {d : Disk} (h : Good cwd d) {name : List UInt8} {de : Dirent}
    (hlook : findNamed (slotsAt d cwd) name = some de) (hdots : ¬ de.isReal = true) :
    de.target < 64 ∧ typeAt d de.target = sfsDir := by
  rcases dots_name hlook hdots with hname | hname
  · rw [dot_target h.1 h.2 hlook hname]
    exact h.2
  · by_cases hroot : cwd = 0
    · rw [dotdot_target h.1 h.2 hlook hname (Or.inr ⟨rfl, hroot⟩)]
      exact isDir_root h.1
    · have hlive : Live (typeAt d) cwd :=
        ⟨h.2.1, fun hf => absurd (hf.symm.trans h.2.2) (by decide)⟩
      obtain ⟨p, hp⟩ := h.1.names.tree.exists_parent hlive hroot
      rw [dotdot_target h.1 h.2 hlook hname (Or.inl hp)]
      exact ⟨hp.1, hp.2.1⟩

-- A file is not one of the directories `.` and `..`, so its name can be unlinked.
theorem unlink_file {cwd : Nat} {d : Disk} (h : Good cwd d) {name : List UInt8} {de : Dirent}
    (hlook : findNamed (slotsAt d cwd) name = some de) (hfile : typeAt d de.target = sfsFile) :
    de.target < 64 ∧ typeAt ((sfsUnlink cwd name).run flat d).2 de.target ≠ typeAt d de.target := by
  have hreal : de.isReal = true := by
    by_contra hno
    exact absurd (hfile.symm.trans (dots_isDir h hlook hno).2) (by decide)
  obtain ⟨e, hrun, -, heff⟩ := run_unlinkLeaf h.1 h.2.1 h.2.2 hlook hreal
    fun hdir => absurd (hfile.symm.trans hdir) (by decide)
  refine ⟨(h.1.names.target_lt h.2.1 h.2.2 (findNamed_mem hlook).1).1, ?_⟩
  rw [hrun, hfile]
  show (inodeAt e de.target).type ≠ sfsFile
  rw [heff.freed]
  decide

theorem cmdMv_reported (kmalloc : UInt32 → Bool) {cwd : Nat} {d : Disk} (h : Good cwd d)
    (argv : List (List UInt8)) :
    Reported (MvDamages kmalloc d cwd argv) d ((cmdMv kmalloc cwd argv[1]? argv[2]?).run flat d).1
      ((cmdMv kmalloc cwd argv[1]? argv[2]?).run flat d).2 := by
  unfold cmdMv MvDamages
  cases hsrc : given argv[1]? with
  | none => exact .kept (by simp)
  | some src =>
    cases hdst : given argv[2]? with
    | none => exact .kept (by simp)
    | some dst =>
      dsimp only
      rw [Prog.run_bind, run_lookup_good h]
      cases hlook : findNamed (slotsAt d cwd) src with
      | none => exact .kept (by simp [hlook])
      | some de =>
        have htype : (sfsType de.target).run flat d = (typeAt d de.target, d) := rfl
        dsimp only [Option.map_some]
        rw [Prog.run_bind, htype]
        dsimp only
        by_cases hfile : typeAt d de.target = sfsFile
        · rw [if_neg (not_not.mpr hfile), Prog.run_bind]
          rcases run_cmdCp kmalloc h hsrc hdst with ⟨hrefuse, out, hout, hrun⟩ | ⟨hok, -, e, -, -, hrun, -⟩
          · -- the copy has failed, and `mv` goes on all the same
            rw [hrun]
            dsimp only
            rw [Prog.run_bind, run_lookup_good h]
            cases hto : findNamed (slotsAt d cwd) dst with
            | none => exact .kept (by simp [hto])
            | some de' =>
              dsimp only [Option.map_some, Option.isSome_some]
              rw [if_pos rfl, Prog.run_bind]
              obtain ⟨hlt, hgone⟩ := unlink_file h hlook hfile
              refine .broken hlt hgone hout ⟨src, dst, de, rfl, rfl, hlook, hfile, ?_, hrefuse⟩
              simp [hto]
          · rw [hrun]
            dsimp only
            rw [Prog.run_bind]
            refine .silent ?_ ?_
            · split
              · rw [Prog.run_bind]
                exact not_reports_nil
              · exact not_reports_nil
            · rintro ⟨src', dst', -, hsrc', hdst', -, -, -, hrefuse⟩
              cases hsrc'
              cases hdst'
              exact hok hrefuse
        · rw [if_pos hfile]
          refine .kept ?_
          rintro ⟨src', dst', de', hsrc', -, hlook', hfile', -⟩
          cases hsrc'
          obtain rfl : de = de' := by simpa using hlook.symm.trans hlook'
          exact hfile hfile'

-- Without memory `echo … >> f` only prints an error, else it prints at most the warning.
theorem run_echoAppend (kmalloc : UInt32 → Bool) (ino : Nat) (text : List UInt8) (d : Disk) :
    (kmalloc ((inodeAt d ino).size + UInt32.ofNat text.length + 1) = false ∧
        ∃ out, Reports out ∧ (echoAppend kmalloc ino text).run flat d = (out, d)) ∨
      (kmalloc ((inodeAt d ino).size + UInt32.ofNat text.length + 1) ≠ false ∧
        ¬ Reports ((echoAppend kmalloc ino text).run flat d).1) := by
  have hsize : (sfsSize ino).run flat d = ((inodeAt d ino).size, d) := rfl
  rw [echoAppend, Prog.run_bind, hsize]
  dsimp only
  by_cases hmem : kmalloc ((inodeAt d ino).size + UInt32.ofNat text.length + 1) = false
  · rw [if_pos hmem]
    exact Or.inl ⟨hmem, _, by decide, rfl⟩
  · rw [if_neg hmem, Prog.run_bind, Prog.run_bind]
    refine Or.inr ⟨hmem, ?_⟩
    rw [Prog.run_pure]
    dsimp only
    split
    · exact fun hout => hout.2 rfl
    · exact not_reports_nil

theorem echoDamages_iff {kmalloc : UInt32 → Bool} {cwd : Nat} {d : Disk} {argv : List (List UInt8)} {redir : Nat}
    {append : Bool} {fname : List UInt8} (hfind : findRedir 1 argv.tail = some (redir, append))
    (hname : argv[redir + 1]? = some fname) :
    EchoDamages kmalloc d cwd argv ↔ append = true ∧ findNamed (slotsAt d cwd) fname = none ∧
      firstFree d ≠ none ∧
      kmalloc (UInt32.ofNat (echoText 1 (argv.tail.take (redir - 1)) []).length + 1) = false := by
  unfold EchoDamages
  rw [hfind]
  constructor
  · rintro ⟨redir', fname', heq, hsome, hrest⟩
    cases heq
    obtain rfl : fname = fname' := by simpa using hname.symm.trans hsome
    exact ⟨rfl, hrest⟩
  · rintro ⟨rfl, hrest⟩
    exact ⟨redir, fname, rfl, hname, hrest⟩

theorem echo_reported (kmalloc : UInt32 → Bool) {cwd : Nat} {d : Disk} (h : Good cwd d)
    {argv : List (List UInt8)} (hredir : findRedir 1 argv.tail ≠ none) :
    Reported (EchoDamages kmalloc d cwd argv) d ((echo kmalloc cwd argv).run flat d).1
      ((echo kmalloc cwd argv).run flat d).2 := by
  unfold echo
  cases hfind : findRedir 1 argv.tail with
  | none => exact absurd hfind hredir
  | some r =>
    obtain ⟨redir, append⟩ := r
    dsimp only
    cases hname : argv[redir + 1]? with
    | none =>
      refine .kept ?_
      rintro ⟨redir', fname, heq, hsome, -⟩
      cases hfind.symm.trans heq
      exact absurd (hname.symm.trans hsome) (by simp)
    | some fname =>
      rw [echoDamages_iff hfind hname]
      generalize echoText 1 (argv.tail.take (redir - 1)) [] = text
      dsimp only
      rw [Prog.run_bind]
      rcases run_lookupOrCreate h fname with
        ⟨de, hlook, hrun⟩ | ⟨hlook, hfree, hrun⟩ | ⟨ino, e, hlook, hfree, hrun, -, heff⟩
      · rw [hrun]
        dsimp only
        have hok : ¬ (append = true ∧ findNamed (slotsAt d cwd) fname = none ∧ firstFree d ≠ none ∧
            kmalloc (UInt32.ofNat text.length + 1) = false) := by simp [hlook]
        split
        · rcases run_echoAppend kmalloc de.target text d with ⟨-, out, -, hrun'⟩ | ⟨-, hout⟩
          · rw [hrun']
            exact .kept hok
          · exact .silent hout hok
        · rw [Prog.run_bind]
          exact .silent not_reports_nil hok
      · rw [hrun]
        exact .kept (by simp [hfree])
      · have hsize : (inodeAt e ino).size = 0 := by
          rw [heff.empty (by decide)]
          rfl
        rw [hrun]
        dsimp only
        split
        · rename_i happ
          have hcases := run_echoAppend kmalloc ino text e
          rw [hsize, UInt32.zero_add] at hcases
          rcases hcases with ⟨hmem, out, hout, hrun'⟩ | ⟨hmem, hout⟩
          · obtain ⟨hino, hti⟩ := firstFree_some hfree
            rw [hrun']
            refine .broken hino ?_ hout ⟨happ, hlook, by simp [hfree], hmem⟩
            rw [heff.typeIno, hti]
            decide
          · exact .silent hout fun hbad => hmem hbad.2.2.2
        · rename_i happ
          rw [Prog.run_bind]
          exact .silent not_reports_nil fun hbad => happ hbad.1

-- `rm -r` of `.` or `..` that leads to an empty directory fails before it changes anything.
theorem run_rmRec_childless (fuel : Nat) {cwd : Nat} {d : Disk} (h : Good cwd d) {name : List UInt8}
    {de : Dirent} (hlook : findNamed (slotsAt d cwd) name = some de) (hdots : ¬ de.isReal = true)
    (hempty : children (entriesAt d de.target) = []) :
    (rmRec (fuel + 1) cwd name).run flat d = (some none, d) := by
  obtain ⟨ht, hdir⟩ := dots_isDir h hlook hdots
  have htype : (sfsType de.target).run flat d = (typeAt d de.target, d) := rfl
  have hname : strcmp name dot = 0 ∨ strcmp name dotdot = 0 := by
    rw [strcmp_dot, strcmp_dotdot]
    exact dots_name hlook hdots
  have hloop : (rmLoop (rmRec fuel) de.target (fuel + 1)).run flat d = (some (), d) := by
    rw [rmLoop, Prog.run_bind]
    rcases firstChild_cases h.1 ht hdir with ⟨hrun, -⟩ | ⟨nm, c, -, hfound, hreal, -⟩
    · rw [hrun]
      rfl
    · have hin := mem_children (findNamed_mem hfound).1 hreal
      change c.target ∈ children (entriesAt d de.target) at hin
      rw [hempty] at hin
      exact absurd hin (by simp)
  rw [rmRec, Prog.run_bind, run_lookup_good h, hlook]
  dsimp only [Option.map_some]
  rw [Prog.run_bind, htype]
  dsimp only
  rw [if_pos hdir, Prog.run_bind, hloop]
  dsimp only
  rw [Prog.run_bind, sfsUnlink, if_pos hname]
  rfl

theorem rmRec_reported {fuel cwd : Nat} {d e : Disk} (h : Good cwd d) {name : List UInt8}
    {r : Option Nat} (hrun : (rmRec fuel cwd name).run flat d = (some r, e)) :
    Reported (RmRecDamages d cwd name) d (if r = none then ascii "rm: failed\n" else []) e := by
  cases fuel with
  | zero => exact absurd (congrArg Prod.fst hrun) (by simp [rmRec])
  | succ fuel =>
    cases hlook : findNamed (slotsAt d cwd) name with
    | none =>
      have hrun' : (rmRec (fuel + 1) cwd name).run flat d = (some none, d) := by
        rw [rmRec, Prog.run_bind, run_lookup_good h, hlook]
        rfl
      cases hrun.symm.trans hrun'
      refine .kept ?_
      rintro ⟨de, -, hsome, -⟩
      exact absurd (hlook.symm.trans hsome) (by simp)
    | some de =>
      by_cases hreal : de.isReal = true
      · rcases run_rmRec (fuel + 1) h.1 h.2.1 h.2.2 hlook hreal with ⟨-, hno⟩ | ⟨e', hrun', -⟩
        · rw [hrun] at hno
          exact absurd hno (by simp)
        · cases hrun.symm.trans hrun'
          refine .silent (by simp [Reports]) ?_
          rintro ⟨-, hdots, -⟩
          obtain ⟨h1, h2⟩ := isReal_iff.mp hreal
          rw [(findNamed_mem hlook).2] at h1 h2
          exact hdots.elim h1 h2
      · by_cases hempty : children (entriesAt d de.target) = []
        · cases hrun.symm.trans (run_rmRec_childless fuel h hlook hreal hempty)
          refine .kept ?_
          rintro ⟨de', -, hsome, hne⟩
          obtain rfl : de = de' := by simpa using hlook.symm.trans hsome
          exact hne hempty
        · obtain ⟨ht, hdir⟩ := dots_isDir h hlook hreal
          rcases run_rmRec_dots (fuel + 1) h.1 h.2.1 h.2.2 hlook hreal ht hdir with
            ⟨-, hno⟩ | ⟨e', hrun', heff⟩
          · rw [hrun] at hno
            exact absurd hno (by simp)
          · cases hrun.symm.trans hrun'
            -- a child that was there is gone
            obtain ⟨c, hc⟩ := List.exists_mem_of_ne_nil _ hempty
            have hedge : EdgeAt d de.target c := ⟨ht, hdir, hc⟩
            obtain ⟨-, hlt, hlive⟩ := h.1.names.edge_child hedge
            refine .broken hlt ?_ (by simp [Reports]; decide) ⟨de, dots_name hlook hreal, hlook, hempty⟩
            show (inodeAt e c).type ≠ typeAt d c
            rw [heff.freed c (TransGen.single hedge)]
            exact fun hf => hlive hf.symm

theorem rm_reported {fuel cwd : Nat} {d e : Disk} (h : Good cwd d) {argv : List (List UInt8)}
    {out : List UInt8} (hrun : (rm fuel cwd argv).run flat d = (some out, e)) :
    Reported (RmDamages d cwd argv) d out e := by
  unfold rm at hrun
  unfold RmDamages
  cases harg : argv[1]? with
  | none =>
    rw [harg] at hrun
    cases hrun
    exact .kept (by simp)
  | some arg =>
    rw [harg] at hrun
    dsimp only at hrun
    by_cases hr : strcmp arg (ascii "-r") = 0
    · rw [if_pos hr] at hrun
      cases hname : argv[2]? with
      | none =>
        rw [hname] at hrun
        cases hrun
        exact .kept (by simp)
      | some name =>
        have hiff : (∃ arg' name', some arg = some arg' ∧ some name = some name' ∧
            strcmp arg' (ascii "-r") = 0 ∧ RmRecDamages d cwd name') ↔ RmRecDamages d cwd name := by
          constructor
          · rintro ⟨arg', name', -, hname', -, hbad⟩
            cases hname'
            exact hbad
          · exact fun hbad => ⟨arg, name, rfl, rfl, hr, hbad⟩
        rw [hname] at hrun
        dsimp only at hrun
        rw [Prog.run_bind] at hrun
        rw [hiff]
        cases hrec : (rmRec fuel cwd name).run flat d with
        | mk r e' =>
          rw [hrec] at hrun
          cases r with
          | none => exact absurd (congrArg Prod.fst hrun) (by simp)
          | some r =>
            cases hrun
            exact rmRec_reported h hrec
    · rw [if_neg hr, Prog.run_bind] at hrun
      have hok : ¬ ∃ arg' name', some arg = some arg' ∧ argv[2]? = some name' ∧
          strcmp arg' (ascii "-r") = 0 ∧ RmRecDamages d cwd name' := by
        rintro ⟨arg', name', harg', -, hr', -⟩
        cases harg'
        exact hr hr'
      rcases run_sfsUnlink h.1 h.2.1 h.2.2 arg with ⟨-, hrun'⟩ | ⟨de, e', -, -, -, hrun', -⟩
      · rw [hrun'] at hrun
        cases hrun
        exact .kept hok
      · rw [hrun'] at hrun
        cases hrun
        exact .silent not_reports_nil hok

/-! ## Command lines -/

/-- The commands that change files: `echo` only into a file. -/
def FileCommand (cmd : List UInt8) (argv : List (List UInt8)) : Prop :=
  isCmd cmd "mkdir" = true ∨ isCmd cmd "touch" = true ∨
    (isCmd cmd "echo" = true ∧ findRedir 1 argv.tail ≠ none) ∨ isCmd cmd "cp" = true ∨
    isCmd cmd "mv" = true ∨ isCmd cmd "rm" = true

theorem run_prints (cwd : Nat) (p : SfsM (List UInt8)) (d : Disk) :
    (prints cwd p).run flat d = (some (cwd, (p.run flat d).1), (p.run flat d).2) := by
  rw [prints, Prog.run_bind]
  rfl

theorem run_finish (r : Option (Nat × List UInt8)) (d : Disk) : (finish r).run flat d = (r, d) := by
  cases r with
  | none => rfl
  | some r => rfl

-- A command is damaging in its own way only.
section Kinds

variable {kmalloc : UInt32 → Bool} {d : Disk} {cwd : Nat} {cmd : List UInt8} {argv : List (List UInt8)}

theorem not_damages {s : String} (h : isCmd cmd s = true) (h1 : cstr (ascii s) ≠ cstr (ascii "echo"))
    (h2 : cstr (ascii s) ≠ cstr (ascii "mv")) (h3 : cstr (ascii s) ≠ cstr (ascii "rm")) :
    Damages kmalloc d cwd cmd argv ↔ False := by
  unfold Damages
  simp [isCmd_ne h _ h1, isCmd_ne h _ h2, isCmd_ne h _ h3]

theorem damages_echo (h : isCmd cmd "echo" = true) :
    Damages kmalloc d cwd cmd argv ↔ EchoDamages kmalloc d cwd argv := by
  unfold Damages
  simp [h, isCmd_ne h "mv" (by decide), isCmd_ne h "rm" (by decide)]

theorem damages_mv (h : isCmd cmd "mv" = true) :
    Damages kmalloc d cwd cmd argv ↔ MvDamages kmalloc d cwd argv := by
  unfold Damages
  simp [h, isCmd_ne h "echo" (by decide), isCmd_ne h "rm" (by decide)]

theorem damages_rm (h : isCmd cmd "rm" = true) :
    Damages kmalloc d cwd cmd argv ↔ RmDamages d cwd argv := by
  unfold Damages
  simp [h, isCmd_ne h "echo" (by decide), isCmd_ne h "mv" (by decide)]

end Kinds

theorem dispatch_reported {fuel cwd cwd' : Nat} {kmalloc : UInt32 → Bool} {d e : Disk} (h : Good cwd d)
    {cmd : List UInt8} {argv : List (List UInt8)} (hcmd : FileCommand cmd argv) {out : List UInt8}
    (hrun : (dispatch fuel kmalloc cwd cmd argv).run flat d = (some (cwd', out), e)) :
    Reported (Damages kmalloc d cwd cmd argv) d out e := by
  rcases hcmd with hc | hc | ⟨hc, hredir⟩ | hc | hc | hc
  · simp (disch := decide) only [dispatch, isCmd_ne hc, hc, if_true, if_false, Bool.false_eq_true, run_prints] at hrun
    cases hrun
    exact (mkdir_reported h argv).congr (not_damages hc (by decide) (by decide) (by decide))
  · simp (disch := decide) only [dispatch, isCmd_ne hc, hc, if_true, if_false, Bool.false_eq_true, run_prints] at hrun
    cases hrun
    exact (touch_reported h argv).congr (not_damages hc (by decide) (by decide) (by decide))
  · simp (disch := decide) only [dispatch, isCmd_ne hc, hc, if_true, if_false, Bool.false_eq_true, run_prints] at hrun
    cases hrun
    exact (echo_reported kmalloc h hredir).congr (damages_echo hc)
  · simp (disch := decide) only [dispatch, isCmd_ne hc, hc, if_true, if_false, Bool.false_eq_true, run_prints] at hrun
    cases hrun
    exact (cmdCp_reported kmalloc h _ _).congr (not_damages hc (by decide) (by decide) (by decide))
  · simp (disch := decide) only [dispatch, isCmd_ne hc, hc, if_true, if_false, Bool.false_eq_true, run_prints] at hrun
    cases hrun
    exact (cmdMv_reported kmalloc h argv).congr (damages_mv hc)
  · rw [dispatch_rm fuel kmalloc cwd hc, Prog.run_bind] at hrun
    cases hrm : (rm fuel cwd argv).run flat d with
    | mk r e' =>
      rw [hrm] at hrun
      cases r with
      | none => exact absurd (congrArg Prod.fst hrun) (by simp)
      | some out' =>
        cases hrun
        exact (rm_reported h hrm).congr (damages_rm hc)

/-- The line is one of the commands that change files. -/
def ChangesFiles (line : List UInt8) : Prop :=
  ∃ cmd, (tokenize line 16)[0]? = some cmd ∧ FileCommand cmd (tokenize line 16)

/-- The line is `mv` of a file to a name that is taken with a copy that fails, or `echo … >> f` with a
new `f` and no memory, or `rm -r` of `.` or `..` where that is not empty. -/
def DamagesFiles (kmalloc : UInt32 → Bool) (d : Disk) (cwd : Nat) (line : List UInt8) : Prop :=
  ∃ cmd, (tokenize line 16)[0]? = some cmd ∧ Damages kmalloc d cwd cmd (tokenize line 16)

theorem runCommand_reported {fuel cwd cwd' : Nat} {kmalloc : UInt32 → Bool} {d d' : Disk}
    (h : Good cwd d) {line out : List UInt8} (hline : ChangesFiles line)
    (hrun : (runCommand fuel kmalloc cwd line).run flat d = (some (cwd', out), d')) :
    Reported (DamagesFiles kmalloc d cwd line) d out d' := by
  obtain ⟨cmd, htok, hcmd⟩ := hline
  unfold runCommand at hrun
  unfold DamagesFiles
  cases hargv : tokenize line 16 with
  | nil =>
    rw [hargv] at htok
    exact absurd htok (by simp)
  | cons cmd' args =>
    rw [hargv] at htok hrun hcmd
    obtain rfl : cmd' = cmd := by simpa using htok
    dsimp only at hrun
    rw [Prog.run_bind, run_finish] at hrun
    have hdisp : (dispatch fuel kmalloc cwd cmd' (cmd' :: args)).run flat d = (some (cwd', out), d') :=
      hrun
    exact (dispatch_reported h hcmd hdisp).congr (by simp)

/-- A command line that changes files returns, and it leaves every inode as it was whenever it prints an
error, exactly if it is not one of the damaging ones. -/
theorem error_leaves_files {d₀ d : Disk} (h₀ : (d₀ 0).magic ≠ sfsMagic) (h : Reachable flat d₀ d)
    {cwd : Nat} (hcwd : IsDir flat d cwd) (kmalloc : UInt32 → Bool) {line : List UInt8}
    (hline : ChangesFiles line) :
    (∃ cwd' out d', (runCommand 64 kmalloc cwd line).run flat d = (some (cwd', out), d')) ∧
    ∀ fuel cwd' out d', (runCommand fuel kmalloc cwd line).run flat d = (some (cwd', out), d') →
      ((Reports out → Unchanged d d') ↔ ¬ DamagesFiles kmalloc d cwd line) := by
  have hgood : Good cwd d := ⟨inv_reachable h₀ h, hcwd⟩
  refine ⟨?_, fun fuel cwd' out d' hrun => runCommand_reported hgood hline hrun⟩
  rcases runCommand_outcome 64 kmalloc hcwd.1 line d hgood with ⟨hless, -⟩ | ⟨cwd', out, heq, -⟩
  · exact absurd hless (by decide)
  · exact ⟨cwd', out, _, Prod.ext heq rfl⟩

theorem error_leaves_files_rm :
    ChangesFiles (ascii "rm x") ∧ ∀ fuel cwd' out d',
      (runCommand fuel (fun _ => true) 0 (ascii "rm x")).run flat (sfsInit.run flat blankDisk).2 =
        (some (cwd', out), d') → Reports out → Unchanged (sfsInit.run flat blankDisk).2 d' := by
  have htok : tokenize (ascii "rm x") 16 = [ascii "rm" ++ 0 :: ascii "x", ascii "x"] := by decide
  have hline : ChangesFiles (ascii "rm x") := by
    unfold ChangesFiles
    rw [htok]
    exact ⟨_, rfl, .inr (.inr (.inr (.inr (.inr (by decide)))))⟩
  refine ⟨hline, fun fuel cwd' out d' hrun => ?_⟩
  refine ((error_leaves_files blankDisk_magic .init (isDir_root (inv_init blankDisk_magic))
    (fun _ => true) hline).2 fuel cwd' out d' hrun).mpr ?_
  unfold DamagesFiles
  rw [htok]
  rintro ⟨cmd, hcmd, hbad⟩
  obtain rfl : ascii "rm" ++ 0 :: ascii "x" = cmd := by simpa using hcmd
  obtain ⟨arg, name, -, hname, -⟩ := (damages_rm (by decide)).mp hbad
  exact absurd hname (by simp)

-- `touch f` and `mv f .` on a blank disk: `cp: dest is not a file`, and `f` is gone.
theorem error_changes_files :
    ∃ d fuel cwd' out d', Reachable flat blankDisk d ∧ IsDir flat d sfsRoot ∧
      ChangesFiles (ascii "mv f .") ∧
      (runCommand fuel (fun _ => true) sfsRoot (ascii "mv f .")).run flat d = (some (cwd', out), d') ∧
      Reports out ∧ ¬ Unchanged d d' := by
  obtain ⟨ino, e, hcreate, hgood, hfound, htype, -, -⟩ := @run_create_fresh blankDisk
    (ascii "f" ++ 0 :: dot) (by decide) (by decide) (by decide) sfsFile (Or.inl rfl)
  rw [← run_sfsInit_blank blankDisk_magic] at hcreate
  have hreach : Reachable flat blankDisk e := by
    have hs : Reachable flat blankDisk ((Call.create sfsRoot (ascii "f" ++ 0 :: dot) sfsFile).prog.run
        flat (sfsInit.run flat blankDisk).2).2 :=
      .step _ .init ⟨isDir_root (inv_init blankDisk_magic), Or.inl rfl⟩
    rw [Call.prog, hcreate] at hs
    exact hs
  have htok : tokenize (ascii "mv f .") 16 =
      [ascii "mv" ++ 0 :: (ascii "f" ++ 0 :: dot), ascii "f" ++ 0 :: dot, dot] := by decide
  have hline : ChangesFiles (ascii "mv f .") := by
    unfold ChangesFiles
    rw [htok]
    exact ⟨_, rfl, .inr (.inr (.inr (.inr (.inl (by decide)))))⟩
  have hbad : DamagesFiles (fun _ => true) e sfsRoot (ascii "mv f .") := by
    obtain ⟨de, hlook, rfl⟩ := Option.map_eq_some_iff.mp hfound
    obtain ⟨de', hlook'⟩ := Option.ne_none_iff_exists'.mp
      (@findNamed_dot e hgood.1 sfsRoot hgood.2 dot rfl)
    have hrefuse : CpRefuses (fun _ => true) e sfsRoot (ascii "f" ++ 0 :: dot) dot := by
      unfold CpRefuses
      rw [hlook']
      split
      · trivial
      · right
        right
        show typeAt e de'.target ≠ sfsFile
        rw [dot_target hgood.1 hgood.2 hlook' rfl]
        exact fun hfile => absurd (hfile.symm.trans hgood.2.2) (by decide)
    unfold DamagesFiles
    rw [htok]
    refine ⟨_, rfl, (damages_mv (by decide)).mpr ?_⟩
    exact ⟨_, dot, de, rfl, rfl, hlook, htype, by rw [hlook']; simp, hrefuse⟩
  rcases runCommand_outcome 64 (fun _ => true) hgood.2.1 (ascii "mv f .") e hgood with
    ⟨hless, -⟩ | ⟨cwd', out, heq, -⟩
  · exact absurd hless (by decide)
  · have hout := runCommand_reported hgood hline (Prod.ext heq rfl)
    exact ⟨e, 64, cwd', out, _, hreach, hgood.2, hline, Prod.ext heq rfl,
      Classical.not_imp.mp fun hall => hout.mp hall hbad⟩

end JacobOS.Shell
