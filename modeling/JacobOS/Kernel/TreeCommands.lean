import JacobOS.Fs.TreeView
import JacobOS.Kernel.Copy
import JacobOS.Kernel.Paths

/-!
# The commands on a tree

What the commands of the shell are for, in terms of the tree of files: no blocks, no inodes and no scans of
directories.  An argument is the string up to its end.  Each command on the disk does what is said here.
-/

namespace JacobOS.Shell

open BlockProgram CString Fs FileTree RootedTree Relation

/-! ## Commands -/

namespace OnTree

def resolve (t : FsTree) (cwd : Nat) (path : List UInt8) : Option Nat :=
  (pieces path).foldlM (lookup t) (startOf cwd path)

/-- The names from `cur` upwards, at most `n` of them. -/
def climb (t : FsTree) : Nat → Nat → List (List UInt8)
  | 0, _ => []
  | n + 1, cur =>
      if cur = sfsRoot then [] else
        match lookup t cur dotdot with
        | none => []
        | some parent =>
            match (FileTree.entries t parent).find? fun e => decide (e.1 = cur) && realName e.2 with
            | none => []
            | some e => e.2 :: climb t n parent

def pwd (t : FsTree) (cwd : Nat) : List UInt8 :=
  if cwd = sfsRoot then ascii "/" else (climb t 16 cwd).reverse.flatMap fun nm => ascii "/" ++ nm

/-- A line for each name, and a slash after those of directories. -/
def listing (t : FsTree) (dir : Nat) : List UInt8 :=
  ((FileTree.entries t dir).filter fun e => realName e.2).flatMap fun e =>
    e.2 ++ (if kindOf (t e.1) = sfsDir then ascii "/" else []) ++ ascii "\n"

def lsDir (t : FsTree) : Option Nat → List UInt8
  | none => ascii "ls: no such path\n"
  | some dir => if kindOf (t dir) ≠ sfsDir then ascii "ls: not a directory\n" else listing t dir

def ls (t : FsTree) (cwd : Nat) (path : Option (List UInt8)) : List UInt8 :=
  match given path with
  | none => lsDir t (some cwd)
  | some path => lsDir t (resolve t cwd path)

def cd (t : FsTree) (cwd : Nat) (path : Option (List UInt8)) : Nat × List UInt8 :=
  match given path with
  | none => (sfsRoot, [])
  | some path =>
      match resolve t cwd path with
      | none => (cwd, ascii "cd: no such directory\n")
      | some dir => if kindOf (t dir) ≠ sfsDir then (cwd, ascii "cd: not a directory\n") else (dir, [])

def cat (kmalloc : UInt32 → Bool) (t : FsTree) (cwd : Nat) (name : Option (List UInt8)) : List UInt8 :=
  match given name with
  | none => ascii "cat: need a file\n"
  | some name =>
      match resolve t cwd name with
      | none => ascii "cat: no such file\n"
      | some ino =>
          match t ino with
          | some (.file data) =>
              if kmalloc (UInt32.ofNat data.length + 1) = false then ascii "cat: out of memory\n" else
                cstr data ++ (if data ≠ [] ∧ data.getLast? ≠ some 0x0A then ascii "\n" else [])
          | _ => ascii "cat: not a file\n"

def mkdir (t : FsTree) (cwd : Nat) (argv : List (List UInt8)) : List UInt8 × FsTree :=
  match argv[1]? with
  | none => (ascii "mkdir: need a name\n", t)
  | some name =>
      let r := create t cwd name (newDir cwd)
      (if r.1 = none then ascii "mkdir: failed\n" else [], r.2)

def lookupOrCreate (t : FsTree) (cwd : Nat) (name : List UInt8) : Option Nat × FsTree :=
  match lookup t cwd name with
  | some ino => (some ino, t)
  | none => create t cwd name newFile

def touch (t : FsTree) (cwd : Nat) (argv : List (List UInt8)) : List UInt8 × FsTree :=
  match argv[1]? with
  | none => (ascii "touch: need a name\n", t)
  | some name =>
      let r := lookupOrCreate t cwd name
      (if r.1 = none then ascii "touch: failed\n" else [], r.2)

/-- The size field of a node.  An entry of a directory takes 32 bytes. -/
def sizeOf : Option FsNode → Nat
  | none => 0
  | some (.file data) => data.length
  | some (.dir s) => 32 * s.length

def dataOf : Option FsNode → List UInt8
  | some (.file data) => data
  | _ => []

def echoAppend (kmalloc : UInt32 → Bool) (t : FsTree) (ino : Nat) (text : List UInt8) : List UInt8 × FsTree :=
  if kmalloc (UInt32.ofNat (sizeOf (t ino)) + UInt32.ofNat text.length + 1) = false then
    (ascii "echo: out of memory\n", t)
  else
    (if sizeOf (t ino) + text.length > 14 * 512 then ascii "echo: file capped at 7KB\n" else [],
      write t ino (dataOf (t ino) ++ text))

def echo (kmalloc : UInt32 → Bool) (t : FsTree) (cwd : Nat) (argv : List (List UInt8)) : List UInt8 × FsTree :=
  match findRedir 1 argv.tail with
  | none => (echoText 1 argv.tail [] ++ ascii "\n", t)
  | some (redir, append) =>
      let text := echoText 1 (argv.tail.take (redir - 1)) []
      match argv[redir + 1]? with
      | none => (ascii "echo: need a filename after >\n", t)
      | some fname =>
          let r := lookupOrCreate t cwd fname
          match r.1 with
          | none => (ascii "echo: cannot create file\n", r.2)
          | some ino => if append then echoAppend kmalloc r.2 ino text else ([], write r.2 ino text)

/-- The second half of `cmd_cp`. -/
def cpTo (t : FsTree) (cwd : Nat) (dst data : List UInt8) : List UInt8 × FsTree :=
  let r := lookupOrCreate t cwd dst
  match r.1 with
  | none => (ascii "cp: cannot create dest\n", r.2)
  | some d => if kindOf (r.2 d) ≠ sfsFile then (ascii "cp: dest is not a file\n", r.2) else ([], write r.2 d data)

def cp (kmalloc : UInt32 → Bool) (t : FsTree) (cwd : Nat) (src dst : Option (List UInt8)) : List UInt8 × FsTree :=
  match given src, given dst with
  | some src, some dst =>
      match resolve t cwd src with
      | none => (ascii "cp: no such file\n", t)
      | some s =>
          match t s with
          | some (.file data) =>
              if kmalloc (if data ≠ [] then UInt32.ofNat data.length else 1) = false then
                (ascii "cp: out of memory\n", t)
              else cpTo t cwd dst data
          | _ => (ascii "cp: not a file\n", t)
  | _, _ => (ascii "cp: usage: cp <src> <dst>\n", t)

def mv (kmalloc : UInt32 → Bool) (t : FsTree) (cwd : Nat) (src dst : Option (List UInt8)) : List UInt8 × FsTree :=
  match given src, given dst with
  | some srcName, some dstName =>
      match lookup t cwd srcName with
      | none => (ascii "mv: no such file in current directory\n", t)
      | some s =>
          if kindOf (t s) ≠ sfsFile then (ascii "mv: only files are supported\n", t) else
            let r := cp kmalloc t cwd src dst
            (r.1, if (lookup r.2 cwd dstName).isSome then (remove r.2 cwd srcName).2 else r.2)
  | _, _ => (ascii "mv: usage: mv <src> <dst>\n", t)

/-- All that is below goes.  For `.` and `..` the directory stays, and the answer is `-1` all the same. -/
noncomputable def rmRec (t : FsTree) (dir : Nat) (name : List UInt8) : Option Nat × FsTree :=
  match lookup t dir name with
  | none => (none, t)
  | some ino =>
      if realName name then
        (some 0, Function.update (prune (FileTree.Below realName t ino) t) dir (some (.dir (unlink name (slots t dir)))))
      else
        (none, Function.update (prune (TransGen (Child realName t) ino) t) ino
          (some (.dir (clear realName (slots t ino)))))

noncomputable def rm (t : FsTree) (cwd : Nat) (argv : List (List UInt8)) : List UInt8 × FsTree :=
  match argv[1]? with
  | none => (ascii "rm: need a name\n", t)
  | some arg =>
      if arg = ascii "-r" then
        match argv[2]? with
        | none => (ascii "rm: -r needs a name\n", t)
        | some name =>
            let r := rmRec t cwd name
            (if r.1 = none then ascii "rm: failed\n" else [], r.2)
      else
        let r := remove t cwd arg
        (if r.1 = none then ascii "rm: failed (missing or non-empty dir)\n" else [], r.2)

/-- A command line that has been split: the new `cwd`, what is printed, and the tree afterwards. -/
noncomputable def dispatch (kmalloc : UInt32 → Bool) (t : FsTree) (cwd : Nat) (cmd : List UInt8)
    (argv : List (List UInt8)) : (Nat × List UInt8) × FsTree :=
  if isCmd cmd "pwd" then ((cwd, pwd t cwd ++ ascii "\n"), t)
  else if isCmd cmd "ls" then ((cwd, ls t cwd argv[1]?), t)
  else if isCmd cmd "cd" then (cd t cwd argv[1]?, t)
  else if isCmd cmd "mkdir" then let r := mkdir t cwd argv; ((cwd, r.1), r.2)
  else if isCmd cmd "touch" then let r := touch t cwd argv; ((cwd, r.1), r.2)
  else if isCmd cmd "cat" then ((cwd, cat kmalloc t cwd argv[1]?), t)
  else if isCmd cmd "echo" then let r := echo kmalloc t cwd argv; ((cwd, r.1), r.2)
  else if isCmd cmd "cp" then let r := cp kmalloc t cwd argv[1]? argv[2]?; ((cwd, r.1), r.2)
  else if isCmd cmd "mv" then let r := mv kmalloc t cwd argv[1]? argv[2]?; ((cwd, r.1), r.2)
  else if isCmd cmd "rm" then let r := rm t cwd argv; ((cwd, r.1), r.2)
  else if otherCommands.any (isCmd cmd) then ((cwd, []), t)
  else ((cwd, ascii "unknown command: " ++ cmd ++ ascii "  (try 'help')\n"), t)

noncomputable def runCommand (kmalloc : UInt32 → Bool) (t : FsTree) (cwd : Nat) (line : List UInt8) :
    (Nat × List UInt8) × FsTree :=
  match (tokenize line 16).map cstr with
  | [] => ((cwd, []), t)
  | cmd :: args => dispatch kmalloc t cwd cmd (cmd :: args)

end OnTree

/-! ## Arguments -/

theorem headD_cstr (s : List UInt8) : (cstr s).headD 0 = s.headD 0 := by
  cases s with
  | nil => rfl
  | cons c s =>
    rw [cstr_cons]
    by_cases hc : c = 0
    · rw [if_pos hc, hc]
      rfl
    · rw [if_neg hc]
      rfl

theorem given_cstr (arg : Option (List UInt8)) : given (arg.map cstr) = (given arg).map cstr := by
  cases arg with
  | none => rfl
  | some s =>
    unfold given
    rw [Option.map_some, Option.filter_some, Option.filter_some, headD_cstr]
    split
    · rfl
    · rfl

theorem startOf_cstr (cwd : Nat) (path : List UInt8) : startOf cwd (cstr path) = startOf cwd path := by
  unfold startOf
  rw [headD_cstr]

theorem findRedir_cstr (i : Nat) (args : List (List UInt8)) : findRedir i (args.map cstr) = findRedir i args := by
  have hcmp : ∀ (arg s : List UInt8), strcmp (cstr arg) s = 0 ↔ strcmp arg s = 0 := by
    intro arg s
    rw [strcmp_eq_zero_iff, strcmp_eq_zero_iff, cstr_cstr]
  induction args generalizing i with
  | nil => rfl
  | cons arg args ih =>
    rw [List.map_cons, findRedir, findRedir, ih]
    simp only [hcmp]

theorem echoText_cstr (i : Nat) (words : List (List UInt8)) (text : List UInt8) :
    echoText i (words.map cstr) text = echoText i words text := by
  induction words generalizing i text with
  | nil => rfl
  | cons word words ih =>
    rw [List.map_cons, echoText, echoText, cstr_cstr]
    exact ih _ _

theorem isCmd_cstr (cmd : List UInt8) : isCmd (cstr cmd) = isCmd cmd := by
  funext s
  rw [Bool.eq_iff_iff, isCmd_iff, isCmd_iff, cstr_cstr]

/-! ## Commands that read -/

section Reading

variable {d : Disk} (h : Inv d)

include h

theorem lookup_lt {i j : Nat} (hi : i < 64) {name : List UInt8} (h0 : 0 ∉ name)
    (hlook : lookup (treeOf d) i name = some j) : j < 64 := by
  have hat : lookupAt d i name = some j := by
    unfold lookupAt
    rw [run_lookup_tree h hi, cstr_eq_self h0]
    exact hlook
  exact lookupAt_lt h hi hat

theorem walk_tree {names : List (List UInt8)} (h0 : ∀ name ∈ names, 0 ∉ name) {cur : Nat} (hcur : cur < 64) :
    walk d cur names = names.foldlM (lookup (treeOf d)) cur := by
  induction names generalizing cur with
  | nil => rfl
  | cons name names ih =>
    have hname := h0 name List.mem_cons_self
    have hat : lookupAt d cur name = lookup (treeOf d) cur name := by
      unfold lookupAt
      rw [run_lookup_tree h hcur, cstr_eq_self hname]
    rw [walk_cons, List.foldlM_cons, hat]
    cases hlook : lookup (treeOf d) cur name with
    | none => rfl
    | some next => exact ih (fun nm hnm => h0 nm (List.mem_cons_of_mem name hnm)) (lookup_lt h hcur hname hlook)

theorem run_resolve_tree {cwd : Nat} (hcwd : cwd < 64) (path : List UInt8) :
    (resolve cwd path).run flat d = (OnTree.resolve (treeOf d) cwd (cstr path), d) := by
  have hstart : startOf cwd path < 64 := by
    unfold startOf
    split
    · decide
    · exact hcwd
  have h0 : ∀ name ∈ components path, 0 ∉ name := by
    intro name hname hzero
    exact cstr_ne_zero (Fields.mem_of_mem_fields hname hzero) rfl
  rw [run_resolve h hcwd, walk_tree h h0 hstart, OnTree.resolve, startOf_cstr]
  rfl

theorem run_sfsType_tree {i : Nat} (hi : i < 64) : (sfsType i).run flat d = (kindOf (treeOf d i), d) := by
  rw [← h.typeAt_eq hi]
  rfl

theorem resolve_lt {cwd : Nat} (hcwd : IsDir flat d cwd) {path : List UInt8} {i : Nat}
    (hres : OnTree.resolve (treeOf d) cwd (cstr path) = some i) : i < 64 := by
  apply (good_resolve hcwd.1 path d ⟨h, hcwd⟩).2 i
  rw [run_resolve_tree h hcwd.1]
  exact hres

-- The file that a node is.
theorem file_of_kind {i : Nat} (hi : i < 64) {data : List UInt8} (hnode : treeOf d i = some (.file data)) :
    typeAt d i = sfsFile ∧ contentAt d i = data ∧ (inodeAt d i).size = UInt32.ofNat data.length := by
  have ht : typeAt d i = sfsFile := by
    rw [h.typeAt_eq hi, hnode]
    rfl
  have hcontent : contentAt d i = data := by
    rw [treeOf_file hi ht] at hnode
    exact Node.file.inj (Option.some.inj hnode)
  refine ⟨ht, hcontent, ?_⟩
  rw [← hcontent, h.length_contentAt hi ht, UInt32.ofNat_toNat]

-- One name after the other, as far as there are names.
theorem run_lsLoop {dir : Nat} (hdir : dir < 64) (ht : typeAt d dir = sfsDir) (calls i : Nat)
    (hcalls : (entriesAt d dir).length < i + calls) :
    (lsLoop dir calls i).run flat d =
      (((((entriesAt d dir).map Dirent.pair).drop i).filter fun e => realName e.2).flatMap fun e =>
        e.2 ++ (if kindOf (treeOf d e.1) = sfsDir then ascii "/" else []) ++ ascii "\n", d) := by
  induction calls generalizing i with
  | zero =>
    rw [List.drop_eq_nil_of_le (by rw [List.length_map]; omega)]
    rfl
  | succ calls ih =>
    have hread : (sfsReaddir dir i).run flat d = (((entriesAt d dir).map Dirent.pair)[i]?, d) :=
      Prod.ext (h.lists hdir ht i) (readOnly_sfsReaddir dir i d)
    rw [lsLoop, Prog.run_bind, hread]
    by_cases hlt : i < ((entriesAt d dir).map Dirent.pair).length
    · have hin : i < (entriesAt d dir).length := by rwa [List.length_map] at hlt
      have htarget := (h.names.target_lt hdir ht (List.getElem_mem hin)).1
      rw [List.getElem?_eq_getElem hlt, List.drop_eq_getElem_cons hlt, List.getElem_map]
      generalize (entriesAt d dir)[i] = de at htarget
      by_cases hreal : de.isReal = true
      · rw [List.filter_cons_of_pos (a := de.pair) (p := fun e : Nat × List UInt8 => realName e.2) hreal, List.flatMap_cons]
        dsimp only [Dirent.pair]
        rw [if_neg (fun hdots => dots_iff.mp hdots hreal), Prog.run_bind, run_sfsType_tree h htarget,
          Prog.run_bind, ih (i + 1) (by omega)]
        rfl
      · rw [List.filter_cons_of_neg (a := de.pair) (p := fun e : Nat × List UInt8 => realName e.2) hreal]
        dsimp only [Dirent.pair]
        rw [if_pos (dots_iff.mpr hreal), ih (i + 1) (by omega)]
    · rw [List.getElem?_eq_none (by omega), List.drop_eq_nil_of_le (by omega)]
      rfl

theorem run_lsDir {dir : Nat} (hdir : dir < 64) : (lsDir (some dir)).run flat d = (OnTree.lsDir (treeOf d) (some dir), d) := by
  rw [lsDir, Prog.run_bind, run_sfsType_tree h hdir, OnTree.lsDir]
  dsimp only
  by_cases hkind : kindOf (treeOf d dir) = sfsDir
  · have ht : typeAt d dir = sfsDir := (h.typeAt_eq hdir).trans hkind
    have hlen := h.names.length_le hdir ht
    rw [if_neg (not_not.mpr hkind), if_neg (not_not.mpr hkind), run_lsLoop h hdir ht 225 0 (by omega), List.drop_zero,
      OnTree.listing, entries_treeOf hdir ht]
  · rw [if_pos hkind, if_pos hkind]
    rfl

theorem run_cmdLs {cwd : Nat} (hcwd : IsDir flat d cwd) (path : Option (List UInt8)) :
    (cmdLs cwd path).run flat d = (OnTree.ls (treeOf d) cwd (path.map cstr), d) := by
  unfold cmdLs OnTree.ls
  rw [given_cstr]
  cases given path with
  | none => exact run_lsDir h hcwd.1
  | some path =>
    dsimp only [Option.map_some]
    rw [Prog.run_bind, run_resolve_tree h hcwd.1]
    cases hres : OnTree.resolve (treeOf d) cwd (cstr path) with
    | none => rfl
    | some dir => exact run_lsDir h (resolve_lt h hcwd hres)

theorem run_cmdCd {cwd : Nat} (hcwd : IsDir flat d cwd) (path : Option (List UInt8)) :
    (cmdCd cwd path).run flat d = (OnTree.cd (treeOf d) cwd (path.map cstr), d) := by
  unfold cmdCd OnTree.cd
  rw [given_cstr]
  cases given path with
  | none => rfl
  | some path =>
    dsimp only [Option.map_some]
    rw [Prog.run_bind, run_resolve_tree h hcwd.1]
    cases hres : OnTree.resolve (treeOf d) cwd (cstr path) with
    | none => rfl
    | some dir =>
      dsimp only
      rw [enterDir, Prog.run_bind, run_sfsType_tree h (resolve_lt h hcwd hres)]
      dsimp only
      split
      · rfl
      · rfl

theorem run_cmdCat (kmalloc : UInt32 → Bool) {cwd : Nat} (hcwd : IsDir flat d cwd) (name : Option (List UInt8)) :
    (cmdCat kmalloc cwd name).run flat d = (OnTree.cat kmalloc (treeOf d) cwd (name.map cstr), d) := by
  unfold cmdCat OnTree.cat
  rw [given_cstr]
  cases given name with
  | none => rfl
  | some name =>
    dsimp only [Option.map_some]
    rw [Prog.run_bind, run_resolve_tree h hcwd.1]
    cases hres : OnTree.resolve (treeOf d) cwd (cstr name) with
    | none => rfl
    | some i =>
      have hi := resolve_lt h hcwd hres
      have hsize : (sfsSize i).run flat d = ((inodeAt d i).size, d) := rfl
      dsimp only
      rw [Prog.run_bind, run_sfsType_tree h hi]
      cases hnode : treeOf d i with
      | none => rfl
      | some n =>
        cases n with
        | dir s => rfl
        | file data =>
          obtain ⟨-, hcontent, hlen⟩ := file_of_kind h hi hnode
          have hkind : kindOf (some (Node.file data)) = sfsFile := rfl
          dsimp only
          rw [if_neg (not_not.mpr hkind), Prog.run_bind, hsize]
          dsimp only
          rw [hlen]
          split
          · rfl
          · rw [← hlen, Prog.run_bind, run_sfsRead_size, hcontent]
            rfl

-- The name of a directory in its parent.
theorem run_nameOf_tree {p : Nat} (hp : IsDir flat d p) (c : Nat) :
    (nameOf p c).run flat d =
      (((FileTree.entries (treeOf d) p).find? fun e => decide (e.1 = c) && realName e.2).map Prod.snd, d) := by
  have hlen := h.names.length_le hp.1 hp.2
  rw [nameOf, run_nameOfLoop h hp 225 0 (by omega), List.drop_zero, entries_treeOf hp.1 hp.2, List.find?_map,
    Option.map_map]
  rfl

theorem run_cwdParts_tree (n : Nat) {cur : Nat} (hcur : IsDir flat d cur) :
    (cwdParts n cur).run flat d = (OnTree.climb (treeOf d) n cur, d) := by
  induction n generalizing cur with
  | zero => rfl
  | succ n ih =>
    rw [cwdParts, OnTree.climb]
    by_cases hroot : cur = sfsRoot
    · rw [if_pos hroot, if_pos hroot]
      rfl
    · have hdotdot : cstr dotdot = dotdot := by decide
      have hlook := lookup_treeOf hcur.1 hcur.2 dotdot
      rw [if_neg hroot, if_neg hroot, Prog.run_bind, run_lookup_tree h hcur.1, hdotdot]
      rw [hdotdot] at hlook
      rw [hlook]
      cases hfound : findNamed (slotsAt d cur) dotdot with
      | none => rfl
      | some de =>
        have hup : IsDir flat d de.target := by
          apply dots_isDir ⟨h, hcur⟩ hfound
          rw [isReal_iff, (findNamed_mem hfound).2]
          exact fun hreal => hreal.2 hdotdot
        dsimp only [Option.map_some]
        rw [Prog.run_bind, run_nameOf_tree h hup]
        cases (FileTree.entries (treeOf d) de.target).find? fun e => decide (e.1 = cur) && realName e.2 with
        | none => rfl
        | some e =>
          dsimp only [Option.map_some]
          rw [Prog.run_bind, ih hup]
          rfl

theorem run_printCwd_tree {cwd : Nat} (hcwd : IsDir flat d cwd) :
    (printCwd cwd).run flat d = (OnTree.pwd (treeOf d) cwd, d) := by
  unfold printCwd OnTree.pwd
  split
  · rfl
  · rw [Prog.run_bind, run_cwdParts_tree h 16 hcwd]
    rfl

end Reading

/-! ## Commands that write -/

theorem length_content {d : Disk} {i m : Nat} (hm : (inodeAt d i).Filled m) :
    (contentAt d i).length = min (inodeAt d i).size.toNat (512 * m) := by
  have hblocks : ((inodeAt d i).ptrs.flatMap fun p => (d p).toList).length = 512 * m := by
    rw [hm.ptrs_eq, List.flatMap_map, List.length_flatMap]
    simp [Nat.mul_comm]
  unfold contentAt
  rw [List.length_take, hblocks]

-- A directory has 16 entries in a block of 512 bytes.
theorem size_tree {d : Disk} (h : Inv d) {i : Nat} (hi : i < 64) :
    (inodeAt d i).size.toNat = OnTree.sizeOf (treeOf d i) ∧
      (contentAt d i).length = OnTree.sizeOf (treeOf d i) := by
  obtain ⟨m, hm, hfree, -, hdir⟩ := h.sized i hi
  rcases h.names.types i hi with ht | ht | ht
  · rw [length_content hm, hfree ht, treeOf_free ht]
    exact ⟨rfl, Nat.min_eq_left (Nat.zero_le _)⟩
  · rw [treeOf_file hi ht, ← h.length_contentAt hi ht]
    exact ⟨rfl, rfl⟩
  · have hsize : (inodeAt d i).size.toNat = OnTree.sizeOf (treeOf d i) := by
      rw [treeOf_dir hi ht, OnTree.sizeOf, List.length_map, length_slotsAt hm, (hdir ht).2]
      omega
    refine ⟨hsize, ?_⟩
    rw [length_content hm, ← hsize, (hdir ht).2, Nat.min_self]

-- The bytes of a directory are not written back.
theorem write_content {d : Disk} (h : Inv d) {i : Nat} (hi : i < 64) (text : List UInt8) :
    write (treeOf d) i (contentAt d i ++ text) = write (treeOf d) i (OnTree.dataOf (treeOf d i) ++ text) := by
  unfold write
  cases hnode : treeOf d i with
  | none => rfl
  | some n =>
    cases n with
    | dir s => rfl
    | file data =>
      rw [(file_of_kind h hi hnode).2.1]
      rfl

section Writing

variable {d : Disk} {cwd : Nat} (h : Good cwd d)

include h

theorem follows_mkdir (argv : List (List UInt8)) :
    Follows d (mkdir cwd argv) (OnTree.mkdir (treeOf d) cwd (argv.map cstr)) := by
  unfold mkdir OnTree.mkdir
  rw [List.getElem?_map]
  cases argv[1]? with
  | none => exact .ret h.1 _
  | some name =>
    have hmake : Follows d (sfsCreate cwd name sfsDir) (create (treeOf d) cwd (cstr name) (newDir cwd)) :=
      follows_create h.1 h.2.1 h.2.2 name (Or.inr rfl)
    refine hmake.bind fun e _ hinv htree => ?_
    dsimp only [Option.map_some]
    rw [← htree]
    exact .ret hinv _

theorem follows_lookupOrCreate (name : List UInt8) :
    Follows d (lookupOrCreate cwd name) (OnTree.lookupOrCreate (treeOf d) cwd (cstr name)) := by
  unfold lookupOrCreate OnTree.lookupOrCreate
  apply Follows.read (run_lookup_tree h.1 h.2.1 name)
  cases lookup (treeOf d) cwd (cstr name) with
  | some ino => exact .ret h.1 _
  | none => exact follows_create h.1 h.2.1 h.2.2 name (Or.inl rfl)

theorem follows_touch (argv : List (List UInt8)) :
    Follows d (touch cwd argv) (OnTree.touch (treeOf d) cwd (argv.map cstr)) := by
  unfold touch OnTree.touch
  rw [List.getElem?_map]
  cases argv[1]? with
  | none => exact .ret h.1 _
  | some name =>
    refine (follows_lookupOrCreate h name).bind fun e _ hinv htree => ?_
    dsimp only [Option.map_some]
    rw [← htree]
    exact .ret hinv _

-- What is found or made is a node of the table.
theorem lookupOrCreate_lt (name : List UInt8) {ino : Nat}
    (hino : (OnTree.lookupOrCreate (treeOf d) cwd (cstr name)).1 = some ino) : ino < 64 := by
  obtain ⟨e, hrun, -⟩ := follows_lookupOrCreate h name
  apply (good_lookupOrCreate h.2.1 name d h).2 ino
  rw [hrun]
  exact hino

theorem follows_sfsWrite {i : Nat} (hi : i < 64) (bytes out : List UInt8) :
    Follows d (do
      let _ ← sfsWrite i (bufferOf bytes) bytes.length
      return out) (out, write (treeOf d) i bytes) := by
  obtain ⟨r, hwrite⟩ := follows_write h.1 hi (bufferOf bytes) bytes.length
  rw [map_bufferOf] at hwrite
  refine hwrite.bind fun e _ hinv htree => ?_
  change treeOf e = write (treeOf d) i bytes at htree
  rw [← htree]
  exact .ret hinv out

theorem follows_cpTo (dst data : List UInt8) :
    Follows d (do
      match ← lookupOrCreate cwd dst with
      | none => kprint "cp: cannot create dest\n"
      | some d =>
          let dtype ← sfsType d
          if dtype ≠ sfsFile then kprint "cp: dest is not a file\n" else
            let _ ← sfsWrite d (bufferOf data) data.length
            return []) (OnTree.cpTo (treeOf d) cwd (cstr dst) data) := by
  refine (follows_lookupOrCreate h dst).bind fun e hrun hinv htree => ?_
  have hgood : Good cwd e := hrun ▸ (good_lookupOrCreate h.2.1 dst d h).1
  unfold OnTree.cpTo
  dsimp only
  rw [← htree]
  cases hr : (OnTree.lookupOrCreate (treeOf d) cwd (cstr dst)).1 with
  | none => exact .ret hinv _
  | some ino =>
    have hino := lookupOrCreate_lt h dst hr
    apply Follows.read (run_sfsType_tree hinv hino)
    dsimp only
    split
    · exact .ret hinv _
    · exact follows_sfsWrite hgood hino data []

theorem follows_cmdCp (kmalloc : UInt32 → Bool) (src dst : Option (List UInt8)) :
    Follows d (cmdCp kmalloc cwd src dst) (OnTree.cp kmalloc (treeOf d) cwd (src.map cstr) (dst.map cstr)) := by
  unfold cmdCp OnTree.cp
  rw [given_cstr, given_cstr]
  cases given src with
  | none => exact .ret h.1 _
  | some srcName =>
    cases given dst with
    | none => exact .ret h.1 _
    | some dstName =>
      dsimp only [Option.map_some]
      apply Follows.read (run_resolve_tree h.1 h.2.1 srcName)
      cases hres : OnTree.resolve (treeOf d) cwd (cstr srcName) with
      | none => exact .ret h.1 _
      | some s =>
        have hs := resolve_lt h.1 h.2 hres
        have hsize : (sfsSize s).run flat d = ((inodeAt d s).size, d) := rfl
        apply Follows.read (run_sfsType_tree h.1 hs)
        dsimp only
        cases hnode : treeOf d s with
        | none => exact .ret h.1 _
        | some n =>
          cases n with
          | dir sl => exact .ret h.1 _
          | file data =>
            obtain ⟨ht, hcontent, hlen⟩ := file_of_kind h.1 hs hnode
            have hkind : kindOf (some (Node.file data)) = sfsFile := rfl
            have hask : (if (inodeAt d s).size ≠ 0 then (inodeAt d s).size else 1) =
                if data ≠ [] then UInt32.ofNat data.length else 1 := by
              by_cases hnil : data = []
              · rw [hlen, hnil]
                rfl
              · have hne : (inodeAt d s).size ≠ 0 := by
                  intro h0
                  have hlength := h.1.length_contentAt hs ht
                  rw [hcontent, h0] at hlength
                  exact hnil (List.length_eq_zero_iff.mp hlength)
                rw [if_pos hne, if_pos hnil, hlen]
            rw [if_neg (not_not.mpr hkind)]
            apply Follows.read hsize
            dsimp only
            rw [hask]
            by_cases hmem : kmalloc (if data ≠ [] then UInt32.ofNat data.length else 1) = false
            · rw [if_pos hmem, if_pos hmem]
              exact .ret h.1 _
            · rw [if_neg hmem, if_neg hmem]
              apply Follows.read (run_sfsRead_size s d)
              rw [hcontent]
              exact follows_cpTo h dstName data

theorem follows_cmdMv (kmalloc : UInt32 → Bool) (src dst : Option (List UInt8)) :
    Follows d (cmdMv kmalloc cwd src dst) (OnTree.mv kmalloc (treeOf d) cwd (src.map cstr) (dst.map cstr)) := by
  unfold cmdMv OnTree.mv
  rw [given_cstr, given_cstr]
  cases given src with
  | none => exact .ret h.1 _
  | some srcName =>
    cases given dst with
    | none => exact .ret h.1 _
    | some dstName =>
      dsimp only [Option.map_some]
      apply Follows.read (run_lookup_tree h.1 h.2.1 srcName)
      cases hlook : lookup (treeOf d) cwd (cstr srcName) with
      | none => exact .ret h.1 _
      | some s =>
        apply Follows.read (run_sfsType_tree h.1 (lookup_lt h.1 h.2.1 (fun h0 => cstr_ne_zero h0 rfl) hlook))
        dsimp only
        by_cases hkind : kindOf (treeOf d s) = sfsFile
        · rw [if_neg (not_not.mpr hkind), if_neg (not_not.mpr hkind)]
          refine (follows_cmdCp h kmalloc src dst).bind fun e hrun hinv htree => ?_
          have hgood : Good cwd e := hrun ▸ good_cmdCp kmalloc h.2.1 src dst d h
          rw [← htree]
          apply Follows.read (run_lookup_tree hinv h.2.1 dstName)
          by_cases hfound : (lookup (treeOf e) cwd (cstr dstName)).isSome = true
          · rw [if_pos hfound, if_pos hfound]
            refine (follows_unlink hinv h.2.1 hgood.2.2 srcName).bind fun g _ hinv' htree' => ?_
            rw [← htree']
            exact .ret hinv' _
          · rw [if_neg hfound, if_neg hfound]
            exact .ret hinv _
        · rw [if_pos hkind, if_pos hkind]
          exact .ret h.1 _

theorem follows_echoAppend (kmalloc : UInt32 → Bool) {ino : Nat} (hino : ino < 64) (text : List UInt8) :
    Follows d (echoAppend kmalloc ino text) (OnTree.echoAppend kmalloc (treeOf d) ino text) := by
  unfold echoAppend OnTree.echoAppend
  have hsize : (sfsSize ino).run flat d = ((inodeAt d ino).size, d) := rfl
  obtain ⟨hfield, hlength⟩ := size_tree h.1 hino
  have hold : (inodeAt d ino).size = UInt32.ofNat (OnTree.sizeOf (treeOf d ino)) := by
    rw [← hfield, UInt32.ofNat_toNat]
  apply Follows.read hsize
  rw [hold]
  by_cases hmem : kmalloc (UInt32.ofNat (OnTree.sizeOf (treeOf d ino)) + UInt32.ofNat text.length + 1) = false
  · rw [if_pos hmem, if_pos hmem]
    exact .ret h.1 _
  · rw [if_neg hmem, if_neg hmem, ← hold]
    apply Follows.read (run_sfsRead_size ino d)
    rw [← List.length_append, ← hlength, ← List.length_append, ← write_content h.1 hino text]
    exact follows_sfsWrite h hino _ _

theorem follows_echo (kmalloc : UInt32 → Bool) (argv : List (List UInt8)) :
    Follows d (echo kmalloc cwd argv) (OnTree.echo kmalloc (treeOf d) cwd (argv.map cstr)) := by
  unfold echo OnTree.echo
  rw [← List.map_tail, findRedir_cstr]
  cases findRedir 1 argv.tail with
  | none =>
    dsimp only
    rw [echoText_cstr]
    exact .ret h.1 _
  | some r =>
    obtain ⟨redir, append⟩ := r
    dsimp only
    rw [← List.map_take, echoText_cstr, List.getElem?_map]
    cases argv[redir + 1]? with
    | none => exact .ret h.1 _
    | some fname =>
      refine (follows_lookupOrCreate h fname).bind fun e hrun hinv htree => ?_
      have hgood : Good cwd e := hrun ▸ (good_lookupOrCreate h.2.1 fname d h).1
      dsimp only [Option.map_some]
      rw [← htree]
      cases hr : (OnTree.lookupOrCreate (treeOf d) cwd (cstr fname)).1 with
      | none => exact .ret hinv _
      | some ino =>
        have hino := lookupOrCreate_lt h fname hr
        cases append with
        | true => exact follows_echoAppend hgood kmalloc hino _
        | false => exact follows_sfsWrite hgood hino _ []

end Writing

end JacobOS.Shell
