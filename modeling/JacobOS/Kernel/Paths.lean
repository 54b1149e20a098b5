import JacobOS.Fs.Effects
import JacobOS.Kernel.Session
import JacobOS.Lib.Fields

/-!
# Paths and the working directory

`resolve` scans a path byte by byte and keeps at most 31 bytes of a component.  No name on the disk has more
than 27, so what it finds is what looking up the whole components finds.  `print_cwd` goes the other way, from
a directory up to the root by inode numbers.
-/

namespace JacobOS.Shell

open BlockProgram CString Fs RootedTree Relation

/-! ## The reference walk -/

/-- What stands between the slashes of a string, if anything. -/
def pieces (s : List UInt8) : List (List UInt8) := (s.splitOn 0x2F).filter fun c => decide (c ≠ [])

/-- The components of a path. -/
def components (path : List UInt8) : List (List UInt8) := pieces (cstr path)

def lookupAt (d : Disk) (dir : Nat) (name : List UInt8) : Option Nat := ((sfsLookup dir name).run flat d).1

/-- Looking up one name after the other, from inode `cur` on. -/
def walk (d : Disk) (cur : Nat) (names : List (List UInt8)) : Option Nat := names.foldlM (lookupAt d) cur

theorem run_lookupAt (d : Disk) (dir : Nat) (name : List UInt8) :
    (sfsLookup dir name).run flat d = (lookupAt d dir name, d) :=
  Prod.ext rfl (readOnly_sfsLookup dir name d)

theorem walk_cons (d : Disk) (cur : Nat) (name : List UInt8) (names : List (List UInt8)) :
    walk d cur (name :: names) = (lookupAt d cur name).bind fun next => walk d next names :=
  List.foldlM_cons ..

theorem walk_append (d : Disk) (cur : Nat) (names names' : List (List UInt8)) :
    walk d cur (names ++ names') = (walk d cur names).bind fun next => walk d next names' :=
  List.foldlM_append ..

theorem pieces_last {full : List UInt8} (hs : 0x2F ∉ full) :
    pieces full = if full = [] then [] else [full] :=
  Fields.fields_of_not_mem hs

theorem pieces_slash {full : List UInt8} (hs : 0x2F ∉ full) (rest : List UInt8) :
    pieces (full ++ 0x2F :: rest) = (if full = [] then [] else [full]) ++ pieces rest :=
  Fields.fields_append_cons hs rest

/-! ## `resolve` -/

-- A name of more than 27 bytes is found nowhere.
theorem lookupAt_long {d : Disk} (h : Inv d) {dir : Nat} (hdir : dir < 64) {name : List UInt8}
    (hlong : 27 < strlen name) : lookupAt d dir name = none := by
  unfold lookupAt sfsLookup
  by_cases ht : typeAt d dir = sfsDir
  · rw [run_sfsLookup h hdir ht, h.findNamed_long ⟨hdir, ht⟩ hlong]
    rfl
  · rw [run_dirLookup, if_neg ht]

theorem lookupAt_lt {d : Disk} (h : Inv d) {dir : Nat} (hdir : dir < 64) {name : List UInt8} {i : Nat}
    (hi : lookupAt d dir name = some i) : i < 64 :=
  (good_sfsLookup hdir name d ⟨h, isDir_root h⟩).2 i hi

-- The cut component is found where the whole one is.
theorem lookupAt_cut {d : Disk} (h : Inv d) {dir : Nat} (hdir : dir < 64) {full : List UInt8} (h0 : 0 ∉ full) :
    lookupAt d dir (full.take 31) = lookupAt d dir full := by
  by_cases hlen : full.length ≤ 31
  · rw [List.take_of_length_le hlen]
  · have hcut : 27 < strlen (full.take 31) := by
      rw [strlen_eq, cstr_eq_self fun hin => h0 (List.mem_of_mem_take hin), List.length_take]
      omega
    have hwhole : 27 < strlen full := by
      rw [strlen_eq, cstr_eq_self h0]
      omega
    rw [lookupAt_long h hdir hcut, lookupAt_long h hdir hwhole]

-- The end of the path: the last component, if there is one.
theorem run_lastComponent {d : Disk} (h : Inv d) {cur : Nat} (hcur : cur < 64) {full : List UInt8}
    (h0 : 0 ∉ full) (hs : 0x2F ∉ full) :
    (if (full.take 31).length > 0 then sfsLookup cur (full.take 31) else return some cur).run flat d =
      (walk d cur (pieces full), d) := by
  rw [pieces_last hs]
  by_cases hnil : full = []
  · rw [if_pos hnil, hnil]
    rfl
  · have hpos : (full.take 31).length > 0 := by
      have hlen := List.length_pos_iff.mpr hnil
      rw [List.length_take]
      omega
    rw [if_neg hnil, if_pos hpos, run_lookupAt, lookupAt_cut h hcur h0, walk_cons]
    cases lookupAt d cur full <;> rfl

-- Induction on the bytes still to come; `full` is the component so far, of which the loop has 31 bytes.
theorem run_resolveLoop {d : Disk} (h : Inv d) (path : List UInt8) {cur : Nat} (hcur : cur < 64)
    {full : List UInt8} (h0 : 0 ∉ full) (hs : 0x2F ∉ full) :
    (resolveLoop path cur (full.take 31)).run flat d = (walk d cur (pieces (full ++ cstr path)), d) := by
  induction path generalizing cur full with
  | nil =>
    rw [resolveLoop, cstr_nil, List.append_nil]
    exact run_lastComponent h hcur h0 hs
  | cons c path ih =>
    have hclean : 0 ∉ ([] : List UInt8) ∧ 0x2F ∉ ([] : List UInt8) := by decide
    rw [resolveLoop, cstr_cons]
    by_cases hslash : c = 0x2F
    · subst hslash
      rw [if_pos rfl, if_neg (show (0x2F : UInt8) ≠ 0 by decide), pieces_slash hs]
      by_cases hnil : full = []
      · rw [if_pos hnil, hnil]
        exact ih hcur hclean.1 hclean.2
      · have hpos : (full.take 31).length > 0 := by
          have hlen := List.length_pos_iff.mpr hnil
          rw [List.length_take]
          omega
        rw [if_neg hnil, if_pos hpos, List.singleton_append, walk_cons, Prog.run_bind, run_lookupAt,
          lookupAt_cut h hcur h0]
        cases hlook : lookupAt d cur full with
        | none => rfl
        | some next => exact ih (lookupAt_lt h hcur hlook) hclean.1 hclean.2
    · rw [if_neg hslash]
      by_cases hnul : c = 0
      · rw [if_pos hnul, if_pos hnul, List.append_nil]
        exact run_lastComponent h hcur h0 hs
      · have hnext := @ih cur hcur (full ++ [c]) (by simp [h0, Ne.symm hnul]) (by simp [hs, Ne.symm hslash])
        rw [List.append_assoc, List.singleton_append] at hnext
        rw [if_neg hnul, if_neg hnul, ← hnext]
        by_cases hroom : (full.take 31).length < 31
        · have hlen : full.length < 31 := by
            rw [List.length_take] at hroom
            omega
          rw [if_pos hroom, List.take_of_length_le (Nat.le_of_lt hlen), List.take_of_length_le (by simpa using hlen)]
        · have hlen : 31 ≤ full.length := by
            rw [List.length_take] at hroom
            omega
          rw [if_neg hroom, List.take_append_of_le_length hlen]

/-- `p`, after a pass of the loop with index `ci`. -/
def noting (ci : Nat) (p : SfsM (Option Nat × List Nat)) : SfsM (Option Nat × List Nat) := do
  let r ← p
  return (r.1, ci :: r.2)

/-- `resolveLoop` with the values that `ci` has in its passes.  They are the places in `comp[32]` where it
writes. -/
def resolveTrace : List UInt8 → Nat → List UInt8 → SfsM (Option Nat × List Nat)
  | [], cur, comp => noting comp.length <|
      if comp.length > 0 then do
        let r ← sfsLookup cur comp
        return (r, [])
      else return (some cur, [])
  | c :: path, cur, comp => noting comp.length <|
      if c = 0x2F then
        if comp.length > 0 then do
          match ← sfsLookup cur comp with
          | none => return (none, [])
          | some cur => resolveTrace path cur []
        else resolveTrace path cur []
      else if c = 0 then
        if comp.length > 0 then do
          let r ← sfsLookup cur comp
          return (r, [])
        else return (some cur, [])
      else if comp.length < 31 then resolveTrace path cur (comp ++ [c])
      else resolveTrace path cur comp

/-- From `d`, `p` answers as `q` does, and the indices it notes are in `comp[32]`. -/
def InComp (d : Disk) (p : SfsM (Option Nat × List Nat)) (q : SfsM (Option Nat)) : Prop :=
  ∃ cis, p.run flat d = (((q.run flat d).1, cis), d) ∧ ∀ ci ∈ cis, ci ≤ 31

theorem InComp.noting {d : Disk} {p : SfsM (Option Nat × List Nat)} {q : SfsM (Option Nat)} (h : InComp d p q)
    {ci : Nat} (hci : ci ≤ 31) : InComp d (noting ci p) q := by
  obtain ⟨cis, hrun, hall⟩ := h
  refine ⟨ci :: cis, ?_, ?_⟩
  · rw [Shell.noting, Prog.run_bind, hrun]
    rfl
  · intro x hx
    rcases List.mem_cons.mp hx with rfl | hx
    · exact hci
    · exact hall x hx

theorem inComp_last (d : Disk) (cur : Nat) (comp : List UInt8) :
    InComp d (if comp.length > 0 then do
        let r ← sfsLookup cur comp
        return (r, [])
      else return (some cur, []))
      (if comp.length > 0 then sfsLookup cur comp else return some cur) := by
  refine ⟨[], ?_, by simp⟩
  by_cases hpos : comp.length > 0
  · rw [if_pos hpos, if_pos hpos, Prog.run_bind, run_lookupAt]
    rfl
  · rw [if_neg hpos, if_neg hpos]
    rfl

theorem resolveTrace_inComp (d : Disk) (path : List UInt8) (cur : Nat) {comp : List UInt8}
    (hcomp : comp.length ≤ 31) : InComp d (resolveTrace path cur comp) (resolveLoop path cur comp) := by
  induction path generalizing cur comp with
  | nil => exact (inComp_last d cur comp).noting hcomp
  | cons c path ih =>
    rw [resolveTrace, resolveLoop]
    apply InComp.noting _ hcomp
    by_cases hslash : c = 0x2F
    · rw [if_pos hslash, if_pos hslash]
      by_cases hpos : comp.length > 0
      · rw [if_pos hpos, if_pos hpos]
        unfold InComp
        rw [Prog.run_bind, Prog.run_bind, run_lookupAt]
        cases lookupAt d cur comp with
        | none => exact ⟨[], rfl, by simp⟩
        | some next => exact ih next (Nat.zero_le _)
      · rw [if_neg hpos, if_neg hpos]
        exact ih cur (Nat.zero_le _)
    · rw [if_neg hslash, if_neg hslash]
      by_cases hnul : c = 0
      · rw [if_pos hnul, if_pos hnul]
        exact inComp_last d cur comp
      · rw [if_neg hnul, if_neg hnul]
        by_cases hroom : comp.length < 31
        · rw [if_pos hroom, if_pos hroom]
          exact ih cur (by simpa using hroom)
        · rw [if_neg hroom, if_neg hroom]
          exact ih cur hcomp

/-- The inode a path starts from. -/
def startOf (cwd : Nat) (path : List UInt8) : Nat := if path.headD 0 = 0x2F then sfsRoot else cwd

theorem run_resolve {d : Disk} (h : Inv d) {cwd : Nat} (hcwd : cwd < 64) (path : List UInt8) :
    (resolve cwd path).run flat d = (walk d (startOf cwd path) (components path), d) := by
  have hstart : startOf cwd path < 64 := by
    unfold startOf
    split
    · decide
    · exact hcwd
  exact @run_resolveLoop d h path _ hstart [] (by decide) (by decide)

/-- `resolve` looks up the whole components of the path one after the other, and stays inside its buffer. -/
theorem resolve_walks {d₀ d : Disk} (h₀ : (d₀ 0).magic ≠ sfsMagic) (h : Reachable flat d₀ d) {cwd : Nat}
    (hcwd : IsDir flat d cwd) (path : List UInt8) :
    (resolve cwd path).run flat d = (walk d (startOf cwd path) (components path), d) ∧
      ∃ cis, (resolveTrace path (startOf cwd path) []).run flat d =
        ((walk d (startOf cwd path) (components path), cis), d) ∧ ∀ ci ∈ cis, ci ≤ 31 := by
  have hrun := run_resolve (inv_reachable h₀ h) hcwd.1 path
  obtain ⟨cis, htrace, hall⟩ := @resolveTrace_inComp d path (startOf cwd path) [] (by decide)
  refine ⟨hrun, cis, ?_, hall⟩
  rw [htrace]
  exact congrArg (fun r => ((r.1, cis), d)) hrun

-- A path with two slashes, a component of 40 bytes and one more.
theorem resolve_walks_long :
    components (ascii "//" ++ List.replicate 40 0x61 ++ ascii "/b") = [List.replicate 40 0x61, ascii "b"] ∧
      (resolve sfsRoot (ascii "//" ++ List.replicate 40 0x61 ++ ascii "/b")).run flat
          (sfsInit.run flat blankDisk).2 =
        (walk (sfsInit.run flat blankDisk).2 sfsRoot [List.replicate 40 0x61, ascii "b"],
          (sfsInit.run flat blankDisk).2) := by
  have hpieces : components (ascii "//" ++ List.replicate 40 0x61 ++ ascii "/b") =
      [List.replicate 40 0x61, ascii "b"] := by decide
  have hrun := (resolve_walks blankDisk_magic .init (isDir_root (inv_init blankDisk_magic))
    (ascii "//" ++ List.replicate 40 0x61 ++ ascii "/b")).1
  rw [hpieces] at hrun
  exact ⟨hpieces, hrun⟩

/-! ## `print_cwd` -/

/-- Entry number `index` of directory `p` is the child `c`, under the name `nm`. -/
def EntryIs (d : Disk) (p index c : Nat) (nm : List UInt8) : Prop :=
  IsDir flat d p ∧ ((sfsReaddir p index).run flat d).1 = some (c, nm) ∧ nm ≠ dot ∧ nm ≠ dotdot

/-- `c` is in directory `p` under the name `nm`. -/
def TreeEdge (d : Disk) (p c : Nat) (nm : List UInt8) : Prop := ∃ index, EntryIs d p index c nm

/-- A name without a slash that no earlier entry of the directory has too. -/
def PlainEdge (d : Disk) (p c : Nat) (nm : List UInt8) : Prop :=
  0x2F ∉ nm ∧ ∃ index, EntryIs d p index c nm ∧
    ∀ i x, i < index → ((sfsReaddir p i).run flat d).1 = some x → x.2 ≠ nm

/-- `names` are on the edges from the root down to an inode. -/
inductive PathTo (edge : Nat → Nat → List UInt8 → Prop) : Nat → List (List UInt8) → Prop where
  | root : PathTo edge sfsRoot []
  | down {p c : Nat} {names : List (List UInt8)} {nm : List UInt8} (h : PathTo edge p names)
      (he : edge p c nm) : PathTo edge c (names ++ [nm])

/-- A slash before each of the last 16 names. -/
def pathText (names : List (List UInt8)) : List UInt8 :=
  if names = [] then ascii "/" else (names.drop (names.length - 16)).flatMap fun nm => ascii "/" ++ nm

theorem PathTo.mono {edge edge' : Nat → Nat → List UInt8 → Prop} (hsub : ∀ p c nm, edge p c nm → edge' p c nm)
    {i : Nat} {names : List (List UInt8)} (h : PathTo edge i names) : PathTo edge' i names := by
  induction h with
  | root => exact .root
  | down _ he ih => exact ih.down (hsub _ _ _ he)

theorem PlainEdge.treeEdge {d : Disk} {p c : Nat} {nm : List UInt8} (h : PlainEdge d p c nm) :
    TreeEdge d p c nm := by
  obtain ⟨-, index, hentry, -⟩ := h
  exact ⟨index, hentry⟩

-- The dirent behind an entry that is listed.
theorem EntryIs.dirent {d : Disk} (h : Inv d) {p index c : Nat} {nm : List UInt8}
    (he : EntryIs d p index c nm) :
    ∃ de, (entriesAt d p)[index]? = some de ∧ de.target = c ∧ de.str = nm ∧ de.isReal = true := by
  obtain ⟨hdir, hread, hdots⟩ := he
  rw [h.lists hdir.1 hdir.2, List.getElem?_map] at hread
  obtain ⟨de, hde, hpair⟩ := Option.map_eq_some_iff.mp hread
  obtain ⟨htgt, hstr⟩ := Prod.mk.inj hpair
  exact ⟨de, hde, htgt, hstr, isReal_iff.mpr (by rw [hstr]; exact hdots)⟩

theorem treeEdge_iff {d : Disk} (h : Inv d) {p c : Nat} {nm : List UInt8} :
    TreeEdge d p c nm ↔
      IsDir flat d p ∧ ∃ de ∈ entriesAt d p, de.target = c ∧ de.str = nm ∧ de.isReal = true := by
  constructor
  · rintro ⟨index, he⟩
    obtain ⟨de, hde, hrest⟩ := he.dirent h
    exact ⟨he.1, de, List.mem_of_getElem? hde, hrest⟩
  · rintro ⟨hdir, de, hmem, rfl, rfl, hreal⟩
    obtain ⟨index, hindex⟩ := List.mem_iff_getElem?.mp hmem
    refine ⟨index, hdir, ?_, isReal_iff.mp hreal⟩
    rw [h.lists hdir.1 hdir.2, List.getElem?_map, hindex]
    rfl

theorem TreeEdge.edgeAt {d : Disk} (h : Inv d) {p c : Nat} {nm : List UInt8} (he : TreeEdge d p c nm) :
    EdgeAt d p c := by
  obtain ⟨hdir, de, hmem, rfl, -, hreal⟩ := (treeEdge_iff h).mp he
  exact ⟨hdir.1, hdir.2, mem_children hmem hreal⟩

-- Every live inode has a path.
theorem exists_pathTo {d : Disk} (h : Inv d) {i : Nat} (hlive : Live (typeAt d) i) :
    ∃ names, PathTo (TreeEdge d) i names := by
  have hreach := h.names.tree.reach hlive
  clear hlive
  induction hreach with
  | refl => exact ⟨[], .root⟩
  | @tail p c _ hpc ih =>
    obtain ⟨names, hpath⟩ := ih
    obtain ⟨hp, ht, hc⟩ := hpc
    obtain ⟨de, hde, rfl⟩ := List.mem_map.mp hc
    obtain ⟨hmem, hreal⟩ := List.mem_filter.mp hde
    exact ⟨_, hpath.down ((treeEdge_iff h).mpr ⟨⟨hp, ht⟩, de, hmem, rfl, rfl, hreal⟩)⟩

-- The search of `name_of`, for the first entry that leads to `child`.
theorem run_nameOfLoop {d : Disk} (h : Inv d) {p child : Nat} (hp : IsDir flat d p) (calls i : Nat)
    (hcalls : (entriesAt d p).length < i + calls) :
    (nameOfLoop p child calls i).run flat d =
      ((((entriesAt d p).drop i).find? fun de => decide (de.target = child) && de.isReal).map Dirent.str, d) := by
  induction calls generalizing i with
  | zero =>
    rw [List.drop_eq_nil_of_le (by omega)]
    rfl
  | succ calls ih =>
    have ht : typeAt d p = sfsDir := hp.2
    rw [nameOfLoop, Prog.run_bind, run_sfsReaddir, if_pos ht]
    by_cases hlt : i < (entriesAt d p).length
    · have hinum := h.names.inumOf_target hp.1 hp.2 (List.getElem_mem hlt)
      rw [List.getElem?_eq_getElem hlt, Option.bind_some, report, hinum, Option.map_some,
        List.drop_eq_getElem_cons hlt, List.find?_cons]
      dsimp only
      generalize (entriesAt d p)[i] = de
      have hiff : (de.target = child ∧ strcmp de.str dot ≠ 0 ∧ strcmp de.str dotdot ≠ 0) ↔
          (decide (de.target = child) && de.isReal) = true := by
        rw [← not_or, dots_iff, not_not, Bool.and_eq_true, decide_eq_true_iff]
      by_cases hhit : (decide (de.target = child) && de.isReal) = true
      · rw [if_pos (hiff.mpr hhit), hhit]
        rfl
      · rw [if_neg (fun hc => hhit (hiff.mp hc)), ih (i + 1) (by omega)]
        rw [Bool.not_eq_true] at hhit
        rw [hhit]
    · rw [List.getElem?_eq_none (by omega), List.drop_eq_nil_of_le (by omega)]
      rfl

-- A child has one name.
theorem run_nameOf {d : Disk} (h : Inv d) {p c : Nat} {nm : List UInt8} (he : TreeEdge d p c nm) :
    (nameOf p c).run flat d = (some nm, d) := by
  obtain ⟨hp, de, hmem, htgt, hstr, hreal⟩ := (treeEdge_iff h).mp he
  have hlen := h.names.length_le hp.1 hp.2
  rw [nameOf, run_nameOfLoop h hp 225 0 (by omega), List.drop_zero]
  cases hfind : (entriesAt d p).find? fun de => decide (de.target = c) && de.isReal with
  | none =>
    have hno := List.find?_eq_none.mp hfind de hmem
    simp [htgt, hreal] at hno
  | some de' =>
    have hhit := List.find?_some hfind
    rw [Bool.and_eq_true, decide_eq_true_iff] at hhit
    have hinj := List.inj_on_of_nodup_map (h.names.nodup p hp.1 hp.2)
    have hsame : de' = de := hinj (List.mem_filter.mpr ⟨List.mem_of_find?_eq_some hfind, hhit.2⟩)
      (List.mem_filter.mpr ⟨hmem, hreal⟩) (hhit.1.trans htgt.symm)
    rw [hsame, Option.map_some, hstr]

-- One step up: `..` leads to the parent.
theorem lookupAt_up {d : Disk} (h : Inv d) {p c : Nat} {nm : List UInt8} (hc : IsDir flat d c)
    (he : TreeEdge d p c nm) : lookupAt d c dotdot = some p := by
  obtain ⟨de, hde⟩ := Option.ne_none_iff_exists'.mp (findNamed_dotdot h hc (show cstr dotdot = dotdot by decide))
  unfold lookupAt sfsLookup
  rw [run_sfsLookup h hc.1 hc.2, hde, Option.map_some,
    dotdot_target h hc hde (by decide) (Or.inl (he.edgeAt h))]

theorem run_cwdParts {d : Disk} (h : Inv d) {i : Nat} {names : List (List UInt8)} (hi : IsDir flat d i)
    (hpath : PathTo (TreeEdge d) i names) (n : Nat) :
    (cwdParts n i).run flat d = (names.reverse.take n, d) := by
  induction hpath generalizing n with
  | root => cases n <;> rfl
  | @down p c names nm _ he ih =>
    cases n with
    | zero => rfl
    | succ n =>
      have hroot : c ≠ sfsRoot := by
        rintro rfl
        exact h.names.tree.no_parent p (he.edgeAt h)
      have hp := ((treeEdge_iff h).mp he).1
      rw [cwdParts, if_neg hroot, Prog.run_bind, run_lookupAt, lookupAt_up h hi he]
      dsimp only
      rw [Prog.run_bind, run_nameOf h he]
      dsimp only
      rw [Prog.run_bind, ih hp n, List.reverse_append, List.reverse_singleton, List.singleton_append,
        List.take_succ_cons]
      rfl

theorem run_printCwd {d : Disk} (h : Inv d) {cwd : Nat} {names : List (List UInt8)} (hcwd : IsDir flat d cwd)
    (hpath : PathTo (TreeEdge d) cwd names) : (printCwd cwd).run flat d = (pathText names, d) := by
  have hnil : cwd = sfsRoot ↔ names = [] := by
    cases hpath with
    | root => exact iff_of_true rfl rfl
    | @down p _ _ _ _ he =>
      refine iff_of_false ?_ (by simp)
      rintro rfl
      exact h.names.tree.no_parent p (he.edgeAt h)
  unfold printCwd pathText
  by_cases hroot : cwd = sfsRoot
  · rw [if_pos hroot, if_pos (hnil.mp hroot)]
    rfl
  · rw [if_neg hroot, if_neg fun hno => hroot (hnil.mpr hno), Prog.run_bind, run_cwdParts h hcwd hpath]
    dsimp only
    rw [List.take_reverse, List.reverse_reverse]
    rfl

/-! ## There and back -/

-- The first entry of its name is what is found.
theorem PlainEdge.lookupAt_eq {d : Disk} (h : Inv d) {p c : Nat} {nm : List UInt8} (he : PlainEdge d p c nm) :
    lookupAt d p nm = some c := by
  obtain ⟨-, index, hentry, hfirst⟩ := he
  obtain ⟨de, hde, htgt, hstr, -⟩ := hentry.dirent h
  have hlists := h.lists hentry.1.1 hentry.1.2
  have hcut : cstr nm = nm := by rw [← hstr]; exact cstr_cstr _
  obtain ⟨hlt, hget⟩ := List.getElem?_eq_some_iff.mp hde
  have hfind : ((entriesAt d p).map Dirent.pair).find? (fun x => decide (x.2 = nm)) = some (c, nm) := by
    rw [List.find?_eq_some_iff_getElem]
    refine ⟨by simp, index, by simpa using hlt, ?_, ?_⟩
    · rw [List.getElem_map, hget, Dirent.pair, htgt, hstr]
    · intro j hj
      have hjlen : j < ((entriesAt d p).map Dirent.pair).length := by
        rw [List.length_map]
        exact Nat.lt_trans hj hlt
      have hno := hfirst j ((entriesAt d p).map Dirent.pair)[j] hj
        (by rw [hlists j]; exact List.getElem?_eq_getElem hjlen)
      simpa using hno
  have hagree := (h.scansAgree hentry.1).lookup nm
  rw [hcut, hfind] at hagree
  exact hagree

theorem walk_path {d : Disk} (h : Inv d) {i : Nat} {names : List (List UInt8)} (hpath : PathTo (PlainEdge d) i names) :
    walk d sfsRoot names = some i := by
  induction hpath with
  | root => rfl
  | down _ he ih =>
    rw [walk_append, ih, Option.bind_some, walk_cons, he.lookupAt_eq h]
    rfl

-- What `pathText` puts together is taken apart again.
theorem pieces_path {names : List (List UInt8)} (hslash : ∀ nm ∈ names, 0x2F ∉ nm) (hempty : [] ∉ names) :
    pieces (names.flatMap fun nm => ascii "/" ++ nm) = names := by
  induction names with
  | nil => rfl
  | cons nm names ih =>
    have hnm : 0x2F ∉ nm := hslash nm List.mem_cons_self
    have hne : nm ≠ [] := fun hnil => hempty (by rw [hnil]; exact List.mem_cons_self)
    have htail := ih (fun x hx => hslash x (List.mem_cons_of_mem _ hx)) fun hx => hempty (List.mem_cons_of_mem _ hx)
    have hopen : ∀ s, pieces (ascii "/" ++ s) = pieces s := fun s => Fields.fields_cons_sep s
    rw [List.flatMap_cons, List.append_assoc, hopen]
    cases names with
    | nil => rw [List.flatMap_nil, List.append_nil, pieces_last hnm, if_neg hne]
    | cons nm' names =>
      rw [List.flatMap_cons, List.append_assoc, hopen] at htail
      rw [List.flatMap_cons, List.append_assoc]
      change pieces (nm ++ 0x2F :: (nm' ++ _)) = _
      rw [pieces_slash hnm, if_neg hne, htail]
      rfl

theorem PathTo.forall_names {edge : Nat → Nat → List UInt8 → Prop} {P : List UInt8 → Prop}
    (hP : ∀ p c nm, edge p c nm → P nm) {i : Nat} {names : List (List UInt8)} (h : PathTo edge i names) :
    ∀ nm ∈ names, P nm := by
  induction h with
  | root => exact fun nm hnm => absurd hnm (by simp)
  | down _ he ih =>
    intro nm hnm
    rcases List.mem_append.mp hnm with hnm | hnm
    · exact ih nm hnm
    · rw [List.mem_singleton.mp hnm]
      exact hP _ _ _ he

-- No name has a NUL in it.
theorem TreeEdge.no_nul {d : Disk} (h : Inv d) {p c : Nat} {nm : List UInt8} (he : TreeEdge d p c nm) :
    0 ∉ nm := by
  obtain ⟨-, de, -, -, rfl, -⟩ := (treeEdge_iff h).mp he
  exact fun hin => cstr_ne_zero hin rfl

theorem resolve_pathText {d : Disk} (h : Inv d) {cwd i : Nat} (hcwd : cwd < 64) {names : List (List UInt8)}
    (hpath : PathTo (PlainEdge d) i names) (hlen : names.length ≤ 16) (hempty : [] ∉ names) :
    (resolve cwd (pathText names)).run flat d = (some i, d) := by
  have hslash := hpath.forall_names fun p c nm he => he.1
  have hnul := hpath.forall_names fun p c nm he => he.treeEdge.no_nul h
  rw [run_resolve h hcwd]
  by_cases hnil : names = []
  · subst hnil
    rw [← walk_path h hpath]
    rfl
  · have htext : pathText names = names.flatMap fun nm => ascii "/" ++ nm := by
      rw [pathText, if_neg hnil, Nat.sub_eq_zero_of_le hlen, List.drop_zero]
    have hcut : cstr (pathText names) = pathText names := by
      apply cstr_eq_self
      rw [htext, List.mem_flatMap]
      rintro ⟨nm, hnm, hin⟩
      rcases List.mem_append.mp hin with hin | hin
      · exact absurd hin (by decide)
      · exact hnul nm hnm hin
    have hstart : startOf cwd (pathText names) = sfsRoot := by
      obtain ⟨nm, rest, rfl⟩ := List.exists_cons_of_ne_nil hnil
      rw [htext]
      rfl
    rw [hstart, components, hcut, htext, pieces_path hslash hempty, walk_path h hpath]

/-- `pwd` prints the names on the path to the working directory, or the last 16 of them, and where that is the
whole path, without empty names, it leads back. -/
theorem pwd_prints_path {d₀ d : Disk} (h₀ : (d₀ 0).magic ≠ sfsMagic) (h : Reachable flat d₀ d) {cwd : Nat}
    (hcwd : IsDir flat d cwd) :
    (∃ names, PathTo (TreeEdge d) cwd names) ∧
      (∀ names, PathTo (TreeEdge d) cwd names → (printCwd cwd).run flat d = (pathText names, d)) ∧
      ∀ names, PathTo (PlainEdge d) cwd names → names.length ≤ 16 → [] ∉ names →
        ((resolve cwd ((printCwd cwd).run flat d).1).run flat d).1 = some cwd := by
  have hinv := inv_reachable h₀ h
  refine ⟨exists_pathTo hinv ⟨hcwd.1, ?_⟩, fun names hpath => run_printCwd hinv hcwd hpath, ?_⟩
  · intro hfree
    exact absurd (hfree.symm.trans hcwd.2) (by decide)
  · intro names hpath hlen hempty
    rw [run_printCwd hinv hcwd (hpath.mono fun p c nm he => he.treeEdge),
      resolve_pathText hinv hcwd.1 hpath hlen hempty]

-- What `sfs_create` has made is the only entry of its name.
theorem CreateEffect.plainEdge {d e : Disk} (h : Inv d) (he : Inv e) {dir ino : Nat} {name : List UInt8}
    {type : UInt32} (hdir : IsDir flat d dir) (hlook : findNamed (slotsAt d dir) name = none)
    (hshort : strlen name ≤ 27) (hslash : 0x2F ∉ cstr name) (heff : CreateEffect dir name type ino d e) :
    PlainEdge e dir ino (cstr name) := by
  obtain ⟨new, hnew, hperm⟩ := heff.added
  have hstr : new.str = cstr name := by
    rw [strlen_eq] at hshort
    rw [hnew.str, List.take_of_length_le hshort]
  have hreal := isReal_iff.mp (h.fresh_isReal hdir.1 hdir.2 hlook hnew)
  have hlists := he.lists hdir.1 heff.typeDir
  have honly : ∀ x ∈ entriesAt e dir, x.str = cstr name → x = new := by
    intro x hx hxs
    rcases List.mem_cons.mp (hperm.mem_iff.mp hx) with hx | hx
    · exact hx
    · exact absurd hxs (findNamed_none.mp hlook x hx)
  cases hfind : (entriesAt e dir).find? fun x => decide (x.str = cstr name) with
  | none =>
    have hno := List.find?_eq_none.mp hfind new (hperm.mem_iff.mpr List.mem_cons_self)
    simp [hstr] at hno
  | some x =>
    have hxs : x.str = cstr name := by simpa using List.find?_some hfind
    obtain rfl := honly x (List.mem_of_find?_eq_some hfind) hxs
    obtain ⟨-, index, hlt, hget, hbefore⟩ := List.find?_eq_some_iff_getElem.mp hfind
    refine ⟨hslash, index, ⟨⟨hdir.1, heff.typeDir⟩, ?_, ?_⟩, ?_⟩
    · rw [hlists index, List.getElem?_map, List.getElem?_eq_getElem hlt, hget, Option.map_some, Dirent.pair,
        hnew.target, hstr]
    · rw [← hstr]
      exact hreal
    · intro i y hi hy
      rw [hlists i, List.getElem?_map, List.getElem?_eq_getElem (Nat.lt_trans hi hlt), Option.map_some] at hy
      obtain rfl := Option.some.inj hy
      have hno := hbefore i hi
      simpa [Dirent.pair] using hno

-- A directory in the root of a fresh disk.
theorem pathTo_blank {name : List UInt8} (hdot : dot ≠ cstr name) (hdotdot : dotdot ≠ cstr name)
    (hshort : strlen name ≤ 27) (hslash : 0x2F ∉ cstr name) :
    ∃ d, Reachable flat blankDisk d ∧ IsDir flat d 1 ∧ PathTo (PlainEdge d) 1 [cstr name] := by
  obtain ⟨d, e, hd, he, -, hnone, -, heff, -⟩ := create_blank hdot hdotdot (Or.inr rfl)
  have hinv := inv_reachable blankDisk_magic hd
  have hinv' := inv_reachable blankDisk_magic he
  have hedge := CreateEffect.plainEdge hinv hinv' (isDir_root hinv) (hnone _ hdot hdotdot) hshort hslash heff
  exact ⟨e, he, ⟨by decide, heff.typeIno⟩, PathTo.down .root hedge⟩

theorem pwd_prints_path_a :
    ∃ d, (printCwd 1).run flat d = (ascii "/a", d) ∧ ((resolve 1 (ascii "/a")).run flat d).1 = some 1 := by
  obtain ⟨d, hreach, hdir, hpath⟩ := @pathTo_blank (ascii "a") (by decide) (by decide) (by decide) (by decide)
  obtain ⟨-, hprint, hback⟩ := pwd_prints_path blankDisk_magic hreach hdir
  have htext := hprint _ (hpath.mono fun p c nm he => he.treeEdge)
  have hres := hback _ hpath (by decide) (by decide)
  rw [htext] at hres
  exact ⟨d, htext, hres⟩

-- A directory with the empty name is printed as the root.
theorem pwd_empty_name :
    ∃ d, Reachable flat blankDisk d ∧ IsDir flat d 1 ∧ PathTo (PlainEdge d) 1 [[]] ∧
      ((resolve 1 ((printCwd 1).run flat d).1).run flat d).1 ≠ some 1 := by
  obtain ⟨d, hreach, hdir, hpath⟩ := @pathTo_blank [] (by decide) (by decide) (by decide) (by decide)
  have hinv := inv_reachable blankDisk_magic hreach
  refine ⟨d, hreach, hdir, hpath, ?_⟩
  rw [run_printCwd hinv hdir (hpath.mono fun p c nm he => he.treeEdge), run_resolve hinv hdir.1]
  show some sfsRoot ≠ some 1
  decide

end JacobOS.Shell
