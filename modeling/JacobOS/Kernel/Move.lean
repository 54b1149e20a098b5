import JacobOS.Kernel.Reports

/-!
# What `mv` does to the data

`mv` copies with `cp` and then unlinks the source if there is anything called `dst`, whether the copy went
through or not, whatever it was a copy of, and even if `dst` is the source itself.  The states after it are
compared with the state before by the entries of the working directory that are called `src` or `dst`.
-/

namespace JacobOS.Shell

open BlockProgram CString Fs

/-! ## Files by name -/

/-- Inode `i` is a file with contents `bytes`. -/
def FileIs (d : Disk) (i : Nat) (bytes : List UInt8) : Prop :=
  ((sfsType i).run flat d).1 = sfsFile ∧ ∀ max, ((sfsRead i max).run flat d).1 = bytes.take max

/-- `name` is a file in directory `cwd`, with contents `bytes`. -/
def HoldsFile (d : Disk) (cwd : Nat) (name bytes : List UInt8) : Prop :=
  ∃ ino, ((sfsLookup cwd name).run flat d).1 = some ino ∧ FileIs d ino bytes

theorem fileIs_iff {d : Disk} {i : Nat} {bytes : List UInt8} :
    FileIs d i bytes ↔ typeAt d i = sfsFile ∧ contentAt d i = bytes := by
  refine and_congr Iff.rfl ⟨fun hread => ?_, ?_⟩
  · have hall := hread ((contentAt d i).length + bytes.length)
    rw [run_sfsRead] at hall
    dsimp only at hall
    rwa [List.take_of_length_le (by omega), List.take_of_length_le (by omega)] at hall
  · rintro rfl max
    rw [run_sfsRead]

/-- The entries of `cwd` called `name`. -/
def called (d : Disk) (cwd : Nat) (name : List UInt8) : List Dirent :=
  named (entriesAt d cwd) (cstr name)

theorem findNamed_eq_head (slots : List Dirent) (name : List UInt8) :
    findNamed slots name = (named (entries slots) (cstr name)).head? := by
  unfold findNamed named entries
  rw [List.filter_filter, List.head?_filter]
  congr 1
  funext de
  rw [Bool.eq_iff_iff, isNamed_iff]
  simp [and_comm]

theorem holdsFile_iff {cwd : Nat} {d : Disk} (h : Good cwd d) {name bytes : List UInt8} :
    HoldsFile d cwd name bytes ↔ ∃ de, (called d cwd name).head? = some de ∧ FileIs d de.target bytes := by
  unfold HoldsFile called entriesAt
  rw [run_lookup_good h, ← findNamed_eq_head]
  constructor
  · rintro ⟨ino, hlook, hfile⟩
    obtain ⟨de, hde, rfl⟩ := Option.map_eq_some_iff.mp hlook
    exact ⟨de, hde, hfile⟩
  · rintro ⟨de, hde, hfile⟩
    exact ⟨de.target, by rw [hde]; rfl, hfile⟩

theorem mem_of_called {d : Disk} {cwd : Nat} {name : List UInt8} {de : Dirent} (h : de ∈ called d cwd name) :
    de ∈ entriesAt d cwd ∧ de.str = cstr name := by
  obtain ⟨hmem, hstr⟩ := List.mem_filter.mp h
  exact ⟨hmem, beq_iff_eq.mp hstr⟩

-- `.` and `..` are the only entries of their names.
theorem find_dots {cwd : Nat} {d : Disk} (h : Good cwd d) {x : Dirent} (hx : x ∈ entriesAt d cwd)
    (hdots : ¬ x.isReal = true) : findNamed (slotsAt d cwd) x.str = some x := by
  have hone : ∀ {s : List UInt8} {y : Dirent}, x.str = s → cstr s = s → named (entriesAt d cwd) s = [y] →
      findNamed (slotsAt d cwd) x.str = some x := by
    intro s y hs hcut hy
    have hin : x ∈ named (entriesAt d cwd) s := List.mem_filter.mpr ⟨hx, beq_iff_eq.mpr hs⟩
    rw [hy, List.mem_singleton] at hin
    rw [findNamed_eq_head, hs, hcut]
    show (named (entriesAt d cwd) s).head? = some x
    rw [hy, hin]
    rfl
  rw [isReal_iff, not_and_or, not_not, not_not] at hdots
  rcases hdots with hdot | hdotdot
  · obtain ⟨y, hy, -⟩ := h.1.names.self cwd h.2.1 h.2.2
    exact hone hdot (by decide) hy
  · obtain ⟨y, hy, -⟩ := h.1.names.up cwd h.2.1 h.2.2
    exact hone hdotdot (by decide) hy

-- No two entries lead to the same file.
theorem file_target_ne {cwd : Nat} {d : Disk} (h : Good cwd d) {pre post : List Dirent} {de x : Dirent}
    (heq : entriesAt d cwd = pre ++ de :: post) (hfile : typeAt d de.target = sfsFile)
    (hx : x ∈ pre ++ post) : x.target ≠ de.target := by
  have hperm : (entriesAt d cwd).Perm (de :: (pre ++ post)) := heq ▸ List.perm_middle
  have hreal : ∀ y ∈ entriesAt d cwd, y.target = de.target → y.isReal = true := by
    intro y hy htgt
    by_contra hno
    have hdir := (dots_isDir h (find_dots h hy hno) hno).2
    rw [htgt, hfile] at hdir
    exact absurd hdir (by decide)
  intro htgt
  have hnd := (children_perm hperm).nodup_iff.mp (h.1.names.nodup cwd h.2.1 h.2.2)
  rw [children_cons_real (hreal de (hperm.mem_iff.mpr List.mem_cons_self) rfl), List.nodup_cons] at hnd
  have hxreal := hreal x (hperm.mem_iff.mpr (List.mem_cons_of_mem _ hx)) htgt
  exact hnd.1 (htgt ▸ mem_children hx hxreal)

theorem named_split {pre post : List Dirent} {de : Dirent} {s : List UInt8} :
    named (pre ++ de :: post) s = named pre s ++ (if de.str = s then [de] else []) ++ named post s := by
  unfold named
  rw [List.filter_append, List.filter_cons]
  by_cases hs : de.str = s
  · rw [if_pos (by simp [hs]), if_pos hs, List.append_assoc]
    rfl
  · rw [if_neg (by simp [hs]), if_neg hs, List.append_nil]

theorem named_eq_nil {l : List Dirent} {s : List UInt8} : named l s = [] ↔ ∀ x ∈ l, x.str ≠ s := by
  unfold named
  rw [List.filter_eq_nil_iff]
  simp

-- The first entry called `name`, with none of them before it.
theorem called_head {d : Disk} {cwd : Nat} {name : List UInt8} {de : Dirent}
    (hde : (called d cwd name).head? = some de) :
    findNamed (slotsAt d cwd) name = some de ∧ de.str = cstr name ∧ ∃ pre post,
      entriesAt d cwd = pre ++ de :: post ∧ named pre (cstr name) = [] ∧
      entries (removeSlot (slotsAt d cwd) name) = pre ++ post := by
  have hlook : findNamed (slotsAt d cwd) name = some de := (findNamed_eq_head _ _).trans hde
  obtain ⟨pre, post, heq, hpre, hrest⟩ := entries_removeSlot_split hlook
  exact ⟨hlook, (findNamed_mem hlook).2, pre, post, heq, named_eq_nil.mpr hpre, hrest⟩

/-! ## The steps of `mv` -/

/-- The files other than inode `ino` are the same on both disks. -/
def SameFiles (d e : Disk) (ino : Nat) : Prop :=
  ∀ i, i < 64 → i ≠ ino → ∀ bytes, FileIs e i bytes ↔ FileIs d i bytes

-- A directory is no file on either disk.
theorem SameFiles.of_frame {cwd ino : Nat} {d e : Disk} (hframe : Frame (fun j => j = cwd ∨ j = ino) d e)
    (hd : typeAt d cwd = sfsDir) (he : typeAt e cwd = sfsDir) : SameFiles d e ino := by
  intro i hi hne bytes
  rw [fileIs_iff, fileIs_iff]
  by_cases hcwd : i = cwd
  · rw [hcwd, hd, he]
    exact iff_of_false (fun hf => absurd hf.1 (by decide)) (fun hf => absurd hf.1 (by decide))
  · have hout : ¬ (i = cwd ∨ i = ino) := not_or.mpr ⟨hcwd, hne⟩
    rw [hframe.typeAt hi hout, hframe.contentAt hi hout]

-- The first entry called `src` is gone, and the others lead where they led.
theorem unlink_file_called {cwd : Nat} {e : Disk} (h : Good cwd e) {src : List UInt8} {de : Dirent}
    (hde : (called e cwd src).head? = some de) (hfile : typeAt e de.target = sfsFile) :
    ∃ g, (sfsUnlink cwd src).run flat e = (some 0, g) ∧ Good cwd g ∧
      called g cwd src = (called e cwd src).tail ∧
      (∀ name, cstr name ≠ cstr src → called g cwd name = called e cwd name) ∧
      ∀ x ∈ entriesAt g cwd, ∀ bytes, FileIs g x.target bytes ↔ FileIs e x.target bytes := by
  obtain ⟨hlook, hstr, pre, post, heq, hnone, hrest⟩ := called_head hde
  have hreal : de.isReal = true := by
    by_contra hno
    exact absurd (hfile.symm.trans (dots_isDir h hlook hno).2) (by decide)
  obtain ⟨g, hrun, hinv, heff⟩ := run_unlinkLeaf h.1 h.2.1 h.2.2 hlook hreal
    fun hdir => absurd (hfile.symm.trans hdir) (by decide)
  have htype : typeAt g cwd = sfsDir := (congrArg Inode.type heff.inode).trans h.2.2
  have hafter : entriesAt g cwd = pre ++ post := by
    unfold entriesAt
    rw [heff.slots, hrest]
  refine ⟨g, hrun, ⟨hinv, h.2.1, htype⟩, ?_, ?_, ?_⟩
  · unfold called
    rw [heq, hafter, named_split, if_pos hstr, hnone]
    unfold named at hnone ⊢
    rw [List.filter_append, hnone]
    rfl
  · intro name hne
    unfold called
    rw [heq, hafter, named_split, if_neg (by rw [hstr]; exact Ne.symm hne), List.append_nil]
    exact List.filter_append ..
  · intro x hx bytes
    have hlt := (hinv.names.target_lt h.2.1 htype hx).1
    rw [hafter] at hx
    exact SameFiles.of_frame heff.frame h.2.2 htype _ hlt (file_target_ne h heq hfile hx) bytes

/-- `mv` after the copy: what is left under the names. -/
theorem holds_after_unlink {cwd : Nat} {e : Disk} (h : Good cwd e) {src : List UInt8} {de : Dirent}
    (hde : (called e cwd src).head? = some de) (hfile : typeAt e de.target = sfsFile) :
    ∃ g, (sfsUnlink cwd src).run flat e = (some 0, g) ∧ Good cwd g ∧ ∀ bytes,
      (HoldsFile g cwd src bytes ↔ ∃ x, (called e cwd src)[1]? = some x ∧ FileIs e x.target bytes) ∧
      ∀ name, cstr name ≠ cstr src → (HoldsFile g cwd name bytes ↔ HoldsFile e cwd name bytes) := by
  obtain ⟨g, hrun, hgood, hsrc, hother, hfiles⟩ := unlink_file_called h hde hfile
  have hmem : ∀ {name x}, (called g cwd name).head? = some x → x ∈ entriesAt g cwd :=
    fun hx => (mem_of_called (List.mem_of_mem_head? hx)).1
  refine ⟨g, hrun, hgood, fun bytes => ⟨?_, ?_⟩⟩
  · rw [holdsFile_iff hgood]
    have hsecond : (called g cwd src).head? = (called e cwd src)[1]? := by
      rw [hsrc, List.head?_tail]
    rw [← hsecond]
    exact exists_congr fun x => and_congr_right fun hx => hfiles x (hmem hx) bytes
  · intro name hne
    rw [holdsFile_iff hgood, holdsFile_iff h, ← hother name hne]
    exact exists_congr fun x => and_congr_right fun hx => hfiles x (hmem hx) bytes

theorem map_bufferOf (bytes : List UInt8) : (List.range bytes.length).map (bufferOf bytes) = bytes := by
  apply List.ext_getElem
  · simp
  · intro i h1 h2
    rw [List.getElem_map, List.getElem_range, bufferOf, List.getD_eq_getElem _ _ h2]

theorem store_fileIs {i : Nat} {bytes : List UInt8} {d e : Disk}
    (h : StoreEffect i (bufferOf bytes) bytes.length d e) : FileIs e i bytes := by
  rw [fileIs_iff, h.contentAt_eq, map_bufferOf]
  exact ⟨h.type, rfl⟩

theorem store_good {cwd i : Nat} {data : Nat → UInt8} {len : Nat} {d e : Disk} (hgood : Good cwd d)
    (ht : typeAt d i = sfsFile) (h : StoreEffect i data len d e) :
    Good cwd e ∧ entriesAt e cwd = entriesAt d cwd := by
  have hlen : len ≤ 7168 := by
    have hle := h.filled.le
    omega
  have hne : cwd ≠ i := by
    rintro rfl
    exact absurd (ht.symm.trans hgood.2.2) (by decide)
  have htype := (h.frame.typeAt hgood.2.1 hne).trans hgood.2.2
  exact ⟨⟨hgood.1.store ht hlen h, hgood.2.1, htype⟩, h.frame.entriesAt hgood.2.1 hne⟩

/-- The entries of `cwd` when `new` has been added for inode `ino`. -/
structure Added (d e : Disk) (cwd ino : Nat) (dst : List UInt8) (new : Dirent) : Prop where
  names : new.Names ino dst
  split : ∀ name, ∃ post, called d cwd name = named (frontOf (slotsAt d cwd)) (cstr name) ++ post ∧
    called e cwd name = named (frontOf (slotsAt d cwd)) (cstr name) ++
      (if new.str = cstr name then [new] else []) ++ post

theorem exists_added {d e : Disk} {cwd ino : Nat} (hino : ino < 64) {dst : List UInt8}
    (hents : entriesAt e cwd = entries (addSlot (slotsAt d cwd) dst ino)) : ∃ new, Added d e cwd ino dst new := by
  obtain ⟨new, post, hnew, heq, hadd⟩ := entries_addSlot_split hino (slotsAt d cwd) dst
  refine ⟨new, hnew, fun name => ⟨named post (cstr name), ?_, ?_⟩⟩
  · unfold called named entriesAt
    rw [heq, List.filter_append]
  · unfold called
    rw [hents, hadd, named_split]

-- After the copy inode `ino` is the file `dst`, and either it was before or it was free.
theorem CpEffect.spec {cwd : Nat} {dst bytes : List UInt8} {d e : Disk} (h : Good cwd d)
    (heff : CpEffect cwd dst bytes d e) :
    ∃ ino, Good cwd e ∧ FileIs e ino bytes ∧ Frame (fun j => j = cwd ∨ j = ino) d e ∧
      ((entriesAt e cwd = entriesAt d cwd ∧
          ∃ de, (called d cwd dst).head? = some de ∧ de.target = ino ∧ typeAt d ino = sfsFile) ∨
        ((called d cwd dst).head? = none ∧ typeAt d ino = sfsFree ∧ ∃ new, Added d e cwd ino dst new)) := by
  cases heff with
  | @replaced de hfound hfile hstore =>
    obtain ⟨hgood, hents⟩ := store_good h hfile hstore
    refine ⟨de.target, hgood, store_fileIs hstore, hstore.frame.mono fun j hj => Or.inr hj,
      Or.inl ⟨hents, de, ?_, rfl, hfile⟩⟩
    exact (findNamed_eq_head _ _).symm.trans hfound
  | @made ino d' habsent hfree hslots hcreate hstore =>
    obtain ⟨hino, hti⟩ := firstFree_some hfree
    have hgood' : Good cwd d' :=
      ⟨h.1.create h.2.1 h.2.2 (Or.inl rfl) habsent hfree hcreate, h.2.1, hcreate.typeDir⟩
    obtain ⟨hgood, hents⟩ := store_good hgood' hcreate.typeIno hstore
    refine ⟨ino, hgood, store_fileIs hstore, (hcreate.frame.trans hstore.frame).mono ?_, Or.inr ⟨?_, hti, ?_⟩⟩
    · rintro j (hj | hj)
      · exact hj
      · exact Or.inr hj
    · exact (findNamed_eq_head _ _).symm.trans habsent
    · exact exists_added hino (by rw [hents, entriesAt, hslots])

/-! ## Other entries -/

theorem entry_live {cwd : Nat} {d : Disk} (h : Good cwd d) {x : Dirent} (hx : x ∈ entriesAt d cwd) :
    x.target < 64 ∧ typeAt d x.target ≠ sfsFree := by
  refine ⟨(h.1.names.target_lt h.2.1 h.2.2 hx).1, ?_⟩
  by_cases hreal : x.isReal = true
  · exact (h.1.names.edge_child ⟨h.2.1, h.2.2, mem_children hx hreal⟩).2.2
  · rw [(dots_isDir h (find_dots h hx hreal) hreal).2]
    decide

-- The second entry called `src`, and any entry that is not called `src`, lead to another file.
theorem other_target_ne {cwd : Nat} {d : Disk} (h : Good cwd d) {src : List UInt8} {de x : Dirent}
    (hde : (called d cwd src).head? = some de) (hfile : typeAt d de.target = sfsFile)
    (hx : (called d cwd src)[1]? = some x ∨ x ∈ entriesAt d cwd ∧ x.str ≠ cstr src) :
    x.target ≠ de.target := by
  obtain ⟨-, hstr, pre, post, heq, hnone, -⟩ := called_head hde
  apply file_target_ne h heq hfile
  rcases hx with hx | ⟨hx, hne⟩
  · unfold called at hx
    rw [heq, named_split, hnone, if_pos hstr] at hx
    have hin : x ∈ named post (cstr src) := List.mem_of_getElem? (i := 0) hx
    exact List.mem_append_right _ (List.mem_filter.mp hin).1
  · rw [heq] at hx
    rcases List.mem_append.mp hx with hx | hx
    · exact List.mem_append_left _ hx
    · rcases List.mem_cons.mp hx with rfl | hx
      · exact absurd hstr hne
      · exact List.mem_append_right _ hx

/-! ## When the data stays -/

/-- `mv` gets to unlink `src`: after the copy there is something called `dst`. -/
def MvUnlinks (kmalloc : UInt32 → Bool) (d : Disk) (cwd : Nat) (src dst : List UInt8) : Prop :=
  src.headD 0 ≠ 0 ∧ dst.headD 0 ≠ 0 ∧ (((sfsLookup cwd dst).run flat d).1 ≠ none ∨
    ¬ CpRefuses kmalloc d cwd src dst ∧ strlen dst ≤ 27)

/-- The path `src` leads to a file with contents `bytes`: that is what `cp` reads. -/
def LeadsTo (d : Disk) (cwd : Nat) (src bytes : List UInt8) : Prop :=
  ∃ s, ((resolve cwd src).run flat d).1 = some s ∧ FileIs d s bytes

/-- The second entry called `src` is a file with contents `bytes`. -/
def HoldsSecond (d : Disk) (cwd : Nat) (src bytes : List UInt8) : Prop :=
  ∃ de, (called d cwd src)[1]? = some de ∧ FileIs d de.target bytes

/-- The contents `bytes` are left when the first entry called `src` is gone: `dst` is another name and has
them, from the copy or from before, or there is a second file called `src` with the same contents. -/
def MvLeaves (kmalloc : UInt32 → Bool) (d : Disk) (cwd : Nat) (src dst bytes : List UInt8) : Prop :=
  (cstr dst ≠ cstr src ∧ ((CpRefuses kmalloc d cwd src dst ∧ HoldsFile d cwd dst bytes) ∨
    (¬ CpRefuses kmalloc d cwd src dst ∧ LeadsTo d cwd src bytes))) ∨
  HoldsSecond d cwd src bytes

/-- `mv` makes an entry of which the 27 bytes that are stored are `src`, in a slot before those of the
entries called `src`. -/
def MvHides (kmalloc : UInt32 → Bool) (d : Disk) (cwd : Nat) (src dst : List UInt8) : Prop :=
  ¬ CpRefuses kmalloc d cwd src dst ∧ 27 < strlen dst ∧ (cstr dst).take 27 = cstr src ∧
    ∀ de ∈ frontOf (slotsAt d cwd), de.str ≠ cstr src

/-- After `mv` the contents are under one of the two names. -/
def MvKeeps (kmalloc : UInt32 → Bool) (d : Disk) (cwd : Nat) (src dst bytes : List UInt8) : Prop :=
  HoldsFile ((cmdMv kmalloc cwd (some src) (some dst)).run flat d).2 cwd src bytes ∨
    HoldsFile ((cmdMv kmalloc cwd (some src) (some dst)).run flat d).2 cwd dst bytes

theorem cstr_of_headD {s : List UInt8} (h : s.headD 0 = 0) : cstr s = [] := by
  cases s with
  | nil => rfl
  | cons c s => rw [cstr_cons, if_pos (show c = 0 from h)]

theorem given_some {s : List UInt8} (h : s.headD 0 ≠ 0) : given (some s) = some s := by
  unfold given
  rw [Option.filter_some, if_pos (by simpa using h)]

theorem given_empty {s : List UInt8} (h : ¬ s.headD 0 ≠ 0) : given (some s) = none := by
  unfold given
  rw [Option.filter_some, if_neg (by simpa using h)]

-- Without an argument `mv` prints its usage.
theorem run_cmdMv_usage (kmalloc : UInt32 → Bool) (cwd : Nat) {src dst : List UInt8}
    (h : ¬ (src.headD 0 ≠ 0 ∧ dst.headD 0 ≠ 0)) (d : Disk) :
    ((cmdMv kmalloc cwd (some src) (some dst)).run flat d).2 = d := by
  unfold cmdMv
  by_cases hsrc : src.headD 0 ≠ 0
  · rw [given_some hsrc, given_empty fun hdst => h ⟨hsrc, hdst⟩]
    rfl
  · rw [given_empty hsrc]
    rfl

-- The copy leaves `e`, and whether it has gone through or not the source is unlinked if `dst` is there.
theorem run_cmdMv (kmalloc : UInt32 → Bool) {cwd : Nat} {d e : Disk} (h : Good cwd d)
    {src dst out : List UInt8} {de : Dirent} (hsrc : src.headD 0 ≠ 0) (hdst : dst.headD 0 ≠ 0)
    (hde : (called d cwd src).head? = some de) (hfile : typeAt d de.target = sfsFile)
    (hcp : (cmdCp kmalloc cwd (some src) (some dst)).run flat d = (out, e)) (he : Good cwd e) :
    ((called e cwd dst).head? = none ∧ ((cmdMv kmalloc cwd (some src) (some dst)).run flat d).2 = e) ∨
      ((called e cwd dst).head? ≠ none ∧
        ((cmdMv kmalloc cwd (some src) (some dst)).run flat d).2 = ((sfsUnlink cwd src).run flat e).2) := by
  have hlook := (called_head hde).1
  have htype : (sfsType de.target).run flat d = (typeAt d de.target, d) := rfl
  have hhead : findNamed (slotsAt e cwd) dst = (called e cwd dst).head? := findNamed_eq_head _ _
  unfold cmdMv
  rw [given_some hsrc, given_some hdst]
  dsimp only
  rw [Prog.run_bind, run_lookup_good h, hlook]
  dsimp only [Option.map_some]
  rw [Prog.run_bind, htype]
  dsimp only
  rw [if_neg (not_not.mpr hfile), Prog.run_bind, hcp]
  dsimp only
  rw [Prog.run_bind, run_lookup_good he, hhead]
  cases (called e cwd dst).head? with
  | none => exact Or.inl ⟨rfl, rfl⟩
  | some x =>
    refine Or.inr ⟨by simp, ?_⟩
    dsimp only [Option.map_some, Option.isSome_some]
    rw [if_pos rfl, Prog.run_bind]
    rfl

theorem lookup_none_iff {cwd : Nat} {d : Disk} (h : Good cwd d) (name : List UInt8) :
    ((sfsLookup cwd name).run flat d).1 = none ↔ (called d cwd name).head? = none := by
  rw [run_lookup_good h, findNamed_eq_head]
  exact Option.map_eq_none_iff

theorem FileIs.unique {d : Disk} {i : Nat} {a b : List UInt8} (h : FileIs d i a) : FileIs d i b ↔ a = b := by
  obtain ⟨htype, hcontent⟩ := fileIs_iff.mp h
  rw [fileIs_iff, hcontent]
  exact and_iff_right htype

theorem leadsTo_iff {d : Disk} {cwd s : Nat} {src bytes : List UInt8}
    (hres : ((resolve cwd src).run flat d).1 = some s) (hfile : typeAt d s = sfsFile) :
    LeadsTo d cwd src bytes ↔ contentAt d s = bytes := by
  unfold LeadsTo
  rw [hres]
  constructor
  · rintro ⟨s', heq, hs⟩
    obtain rfl : s = s' := by simpa using heq
    exact (fileIs_iff.mp hs).2
  · exact fun hcontent => ⟨s, rfl, fileIs_iff.mpr ⟨hfile, hcontent⟩⟩

-- The source is unlinked on `e`.
theorem mvKeeps_unlinked {kmalloc : UInt32 → Bool} {cwd : Nat} {d e : Disk} (h : Good cwd e)
    {src dst bytes : List UInt8} {de : Dirent} (hde : (called e cwd src).head? = some de)
    (hfile : typeAt e de.target = sfsFile)
    (hrun : ((cmdMv kmalloc cwd (some src) (some dst)).run flat d).2 = ((sfsUnlink cwd src).run flat e).2) :
    MvKeeps kmalloc d cwd src dst bytes ↔
      (cstr dst ≠ cstr src ∧ HoldsFile e cwd dst bytes) ∨ HoldsSecond e cwd src bytes := by
  obtain ⟨g, hunlink, hgood, hafter⟩ := holds_after_unlink h hde hfile
  obtain ⟨hsrc, hother⟩ := hafter bytes
  unfold MvKeeps
  rw [hrun, hunlink]
  by_cases hname : cstr dst = cstr src
  · have hsame : HoldsFile g cwd dst bytes ↔ HoldsFile g cwd src bytes := by
      rw [holdsFile_iff hgood, holdsFile_iff hgood, called, called, hname]
    rw [hsame, or_self, hsrc]
    exact ⟨Or.inr, fun hor => hor.resolve_left fun hne => hne.1 hname⟩
  · rw [hsrc, hother dst hname, or_comm]
    exact or_congr_left (and_iff_right hname).symm

section Cases

variable {kmalloc : UInt32 → Bool} {cwd : Nat} {d : Disk} {src dst bytes : List UInt8} {de : Dirent}

/-- When `mv` keeps the contents. -/
def MvSafe (kmalloc : UInt32 → Bool) (d : Disk) (cwd : Nat) (src dst bytes : List UInt8) : Prop :=
  (MvUnlinks kmalloc d cwd src dst → MvLeaves kmalloc d cwd src dst bytes) ∧
    (MvHides kmalloc d cwd src dst → LeadsTo d cwd src bytes)

/-- Both arguments are given and `src` is the file that `de` leads to. -/
structure Asked (d : Disk) (cwd : Nat) (src dst bytes : List UInt8) (de : Dirent) : Prop where
  good : Good cwd d
  srcGiven : src.headD 0 ≠ 0
  dstGiven : dst.headD 0 ≠ 0
  head : (called d cwd src).head? = some de
  file : FileIs d de.target bytes

theorem mvKeeps_refused (a : Asked d cwd src dst bytes de) (hrefuse : CpRefuses kmalloc d cwd src dst)
    {out : List UInt8} (hcp : (cmdCp kmalloc cwd (some src) (some dst)).run flat d = (out, d)) :
    MvKeeps kmalloc d cwd src dst bytes ↔ MvSafe kmalloc d cwd src dst bytes := by
  have htype := (fileIs_iff.mp a.file).1
  have hhides : MvHides kmalloc d cwd src dst → LeadsTo d cwd src bytes := fun hh => absurd hrefuse hh.1
  rcases run_cmdMv kmalloc a.good a.srcGiven a.dstGiven a.head htype hcp a.good with ⟨hnone, hrun⟩ | ⟨hsome, hrun⟩
  · refine iff_of_true ?_ ⟨?_, hhides⟩
    · unfold MvKeeps
      rw [hrun]
      exact Or.inl ((holdsFile_iff a.good).mpr ⟨de, a.head, a.file⟩)
    · rintro ⟨-, -, hfound | ⟨hok, -⟩⟩
      · exact absurd ((lookup_none_iff a.good dst).mpr hnone) hfound
      · exact absurd hrefuse hok
  · have hunlinks : MvUnlinks kmalloc d cwd src dst :=
      ⟨a.srcGiven, a.dstGiven, Or.inl fun hno => hsome ((lookup_none_iff a.good dst).mp hno)⟩
    rw [mvKeeps_unlinked a.good a.head htype hrun]
    unfold MvSafe MvLeaves
    simp only [hunlinks, hrefuse, true_and, not_true_eq_false, false_and, or_false, true_imp_iff]
    exact (and_iff_left hhides).symm

-- A name that is found is stored whole.
theorem strlen_le_of_called (h : Good cwd d) {x : Dirent} (hx : (called d cwd dst).head? = some x) :
    strlen dst ≤ 27 := by
  by_contra hlong
  have hnone := h.1.findNamed_long h.2 (Nat.not_le.mp hlong)
  exact absurd ((called_head hx).1.symm.trans hnone) (by simp)

variable {e : Disk} {ino s : Nat} {new : Dirent}

theorem holdsSecond_congr (h : Good cwd d) (hsame : SameFiles d e ino)
    (hcalled : called e cwd src = called d cwd src)
    (hne : ∀ x, (called d cwd src)[1]? = some x → x.target ≠ ino) :
    HoldsSecond e cwd src bytes ↔ HoldsSecond d cwd src bytes := by
  unfold HoldsSecond
  rw [hcalled]
  refine exists_congr fun x => and_congr_right fun hx => ?_
  exact hsame _ (entry_live h (mem_of_called (List.mem_of_getElem? hx)).1).1 (hne x hx) bytes

/-- The copy has gone through: on `e` inode `ino` is a file with the contents of `s`, where the path `src`
leads. -/
structure Copied (kmalloc : UInt32 → Bool) (d e : Disk) (cwd : Nat) (src dst : List UInt8) (s ino : Nat) :
    Prop where
  ok : ¬ CpRefuses kmalloc d cwd src dst
  resolves : ((resolve cwd src).run flat d).1 = some s
  source : typeAt d s = sfsFile
  run : (cmdCp kmalloc cwd (some src) (some dst)).run flat d = ([], e)
  good : Good cwd e
  copy : FileIs e ino (contentAt d s)
  same : SameFiles d e ino

-- The copy is the file `dst`, so `src` is unlinked.
theorem mvKeeps_copied (a : Asked d cwd src dst bytes de) (c : Copied kmalloc d e cwd src dst s ino)
    (hcalled : called e cwd src = called d cwd src) {x : Dirent} (hx : (called e cwd dst).head? = some x)
    (htgt : x.target = ino) (hne : ∀ y, (called d cwd src)[1]? = some y → y.target ≠ ino) :
    MvKeeps kmalloc d cwd src dst bytes ↔ MvSafe kmalloc d cwd src dst bytes := by
  have hshort := strlen_le_of_called c.good hx
  have hlive := entry_live a.good (mem_of_called (List.mem_of_mem_head? a.head)).1
  have hdst : HoldsFile e cwd dst bytes ↔ LeadsTo d cwd src bytes := by
    rw [holdsFile_iff c.good, hx, leadsTo_iff c.resolves c.source, ← c.copy.unique, ← htgt]
    exact ⟨fun ⟨y, hy, hfy⟩ => Option.some.inj hy ▸ hfy, fun hfx => ⟨x, rfl, hfx⟩⟩
  have hsecond : HoldsSecond e cwd src bytes ↔ HoldsSecond d cwd src bytes :=
    holdsSecond_congr a.good c.same hcalled hne
  have htype : typeAt e de.target = sfsFile := by
    by_cases hself : de.target = ino
    · rw [hself]
      exact (fileIs_iff.mp c.copy).1
    · exact (fileIs_iff.mp ((c.same _ hlive.1 hself bytes).mpr a.file)).1
  have hhides : MvHides kmalloc d cwd src dst → LeadsTo d cwd src bytes :=
    fun hh => absurd hshort (Nat.not_le.mpr hh.2.1)
  have hunlinks : MvUnlinks kmalloc d cwd src dst := ⟨a.srcGiven, a.dstGiven, Or.inr ⟨c.ok, hshort⟩⟩
  rcases run_cmdMv kmalloc a.good a.srcGiven a.dstGiven a.head (fileIs_iff.mp a.file).1 c.run c.good with
    ⟨hnone, -⟩ | ⟨-, hrun⟩
  · exact absurd (hx.symm.trans hnone) (by simp)
  · rw [mvKeeps_unlinked c.good (by rw [hcalled]; exact a.head) htype hrun, hdst, hsecond]
    unfold MvSafe MvLeaves
    simp only [hunlinks, c.ok, not_false_eq_true, true_and, false_and, false_or, true_imp_iff]
    exact (and_iff_left hhides).symm

-- `dst` was a file, and has been overwritten; it may have been the source.
theorem mvKeeps_replaced (a : Asked d cwd src dst bytes de) {x : Dirent}
    (c : Copied kmalloc d e cwd src dst s x.target) (hx : (called d cwd dst).head? = some x)
    (hfile : typeAt d x.target = sfsFile) (hents : entriesAt e cwd = entriesAt d cwd) :
    MvKeeps kmalloc d cwd src dst bytes ↔ MvSafe kmalloc d cwd src dst bytes := by
  have hcalled : ∀ name, called e cwd name = called d cwd name := fun name => by rw [called, called, hents]
  refine mvKeeps_copied a c (hcalled src) (by rw [hcalled]; exact hx) rfl ?_
  intro y hy
  apply other_target_ne a.good hx hfile
  by_cases hname : cstr src = cstr dst
  · left
    rw [called, ← hname]
    exact hy
  · obtain ⟨hmem, hstr⟩ := mem_of_called (List.mem_of_getElem? hy)
    exact Or.inr ⟨hmem, by rw [hstr]; exact hname⟩

-- An entry of another name is not affected by the new one.
theorem Added.called_eq (hadd : Added d e cwd ino dst new) {name : List UInt8} (hne : new.str ≠ cstr name) :
    called e cwd name = called d cwd name := by
  obtain ⟨post, hbefore, hafter⟩ := hadd.split name
  rw [hbefore, hafter, if_neg hne, List.append_nil]

-- The new entry is the only one of its name.
theorem Added.called_new (hadd : Added d e cwd ino dst new) (habsent : (called d cwd dst).head? = none)
    (hstr : new.str = cstr dst) : called e cwd dst = [new] := by
  obtain ⟨post, hbefore, hafter⟩ := hadd.split dst
  rw [List.head?_eq_none_iff, hbefore, List.append_eq_nil_iff] at habsent
  rw [hafter, if_pos hstr, habsent.1, habsent.2]
  rfl

theorem Added.str_eq (hadd : Added d e cwd ino dst new) (hshort : strlen dst ≤ 27) : new.str = cstr dst := by
  rw [strlen_eq] at hshort
  rw [hadd.names.str, List.take_of_length_le hshort]

-- `dst` is new, and is stored whole.
theorem mvKeeps_made (a : Asked d cwd src dst bytes de) (c : Copied kmalloc d e cwd src dst s ino)
    (habsent : (called d cwd dst).head? = none) (hfree : typeAt d ino = sfsFree)
    (hadd : Added d e cwd ino dst new) (hshort : strlen dst ≤ 27) :
    MvKeeps kmalloc d cwd src dst bytes ↔ MvSafe kmalloc d cwd src dst bytes := by
  have hstr := hadd.str_eq hshort
  have hname : cstr dst ≠ cstr src := by
    intro heq
    rw [called, heq] at habsent
    exact absurd (habsent.symm.trans a.head) (by simp)
  have hnew := hadd.called_new habsent hstr
  have hcalled : called e cwd src = called d cwd src := hadd.called_eq (by rw [hstr]; exact hname)
  refine mvKeeps_copied a c hcalled (by rw [hnew]; rfl) hadd.names.target ?_
  intro y hy htgt
  have hlive := (entry_live a.good (mem_of_called (List.mem_of_getElem? hy)).1).2
  exact hlive (htgt ▸ hfree)

-- The name is cut, so `dst` is not found and the source stays; the new entry may stand before it.
theorem mvKeeps_cut (a : Asked d cwd src dst bytes de) (c : Copied kmalloc d e cwd src dst s ino)
    (hfree : typeAt d ino = sfsFree) (hadd : Added d e cwd ino dst new) (hlong : 27 < strlen dst) :
    MvKeeps kmalloc d cwd src dst bytes ↔ MvSafe kmalloc d cwd src dst bytes := by
  have hnot : ∀ {g : Disk}, Good cwd g → (called g cwd dst).head? = none := by
    intro g hg
    cases hx : (called g cwd dst).head? with
    | none => rfl
    | some x => exact absurd (strlen_le_of_called hg hx) (Nat.not_le.mpr hlong)
  have hunlinks : MvUnlinks kmalloc d cwd src dst → MvLeaves kmalloc d cwd src dst bytes := by
    rintro ⟨-, -, hfound | ⟨-, hle⟩⟩
    · exact absurd ((lookup_none_iff a.good dst).mpr (hnot a.good)) hfound
    · exact absurd hle (Nat.not_le.mpr hlong)
  have hkept : FileIs e de.target bytes := by
    obtain ⟨hlt, hlive⟩ := entry_live a.good (mem_of_called (List.mem_of_mem_head? a.head)).1
    exact (c.same _ hlt (fun heq => hlive (heq ▸ hfree)) bytes).mpr a.file
  have hkeeps : MvKeeps kmalloc d cwd src dst bytes ↔
      ∃ x, (called e cwd src).head? = some x ∧ FileIs e x.target bytes := by
    unfold MvKeeps
    rcases run_cmdMv kmalloc a.good a.srcGiven a.dstGiven a.head (fileIs_iff.mp a.file).1 c.run c.good with
      ⟨-, hrun⟩ | ⟨hsome, -⟩
    · rw [hrun, holdsFile_iff c.good, holdsFile_iff c.good, hnot c.good]
      exact or_iff_left fun ⟨x, hx, _⟩ => absurd hx (by simp)
    · exact absurd (hnot c.good) hsome
  obtain ⟨post, hbefore, hafter⟩ := hadd.split src
  rw [hkeeps, hafter]
  by_cases hhides : MvHides kmalloc d cwd src dst
  · -- the new entry is the first one called `src`
    obtain ⟨-, -, hcut, hfront⟩ := hhides
    have hsafe : MvSafe kmalloc d cwd src dst bytes ↔ LeadsTo d cwd src bytes :=
      ⟨fun hm => hm.2 ⟨c.ok, hlong, hcut, hfront⟩, fun hl => ⟨hunlinks, fun _ => hl⟩⟩
    rw [hsafe, named_eq_nil.mpr hfront, if_pos (by rw [hadd.names.str, hcut]),
      leadsTo_iff c.resolves c.source, ← c.copy.unique, ← hadd.names.target]
    exact ⟨fun ⟨y, hy, hfy⟩ => Option.some.inj hy ▸ hfy, fun hfx => ⟨new, rfl, hfx⟩⟩
  · refine iff_of_true ⟨de, ?_, hkept⟩ ⟨hunlinks, fun hh => absurd hh hhides⟩
    by_cases hcut : (cstr dst).take 27 = cstr src
    · cases hfront : named (frontOf (slotsAt d cwd)) (cstr src) with
      | nil => exact absurd ⟨c.ok, hlong, hcut, named_eq_nil.mp hfront⟩ hhides
      | cons y rest =>
        have hhead := a.head
        rw [hbefore, hfront] at hhead
        exact hhead
    · rw [if_neg (by rw [hadd.names.str]; exact hcut), List.append_nil, ← hbefore]
      exact a.head

-- The five ways of `mv`.
theorem mvKeeps_iff (kmalloc : UInt32 → Bool) (h : Good cwd d) (hsrcfile : HoldsFile d cwd src bytes)
    (dst : List UInt8) : MvKeeps kmalloc d cwd src dst bytes ↔ MvSafe kmalloc d cwd src dst bytes := by
  by_cases hgiven : src.headD 0 ≠ 0 ∧ dst.headD 0 ≠ 0
  · obtain ⟨hsrc, hdst⟩ := hgiven
    obtain ⟨de, hde, hfile⟩ := (holdsFile_iff h).mp hsrcfile
    have a : Asked d cwd src dst bytes de := ⟨h, hsrc, hdst, hde, hfile⟩
    rcases run_cmdCp kmalloc h (given_some hsrc) (given_some hdst) with
      ⟨hrefuse, out, -, hcp⟩ | ⟨hok, s, e, hres, hs, hcp, heff⟩
    · exact mvKeeps_refused a hrefuse hcp
    · obtain ⟨ino, he, hcopy, hframe, hcase⟩ := heff.spec h
      have hsame : SameFiles d e ino := .of_frame hframe h.2.2 he.2.2
      have c : Copied kmalloc d e cwd src dst s ino := ⟨hok, hres, hs, hcp, he, hcopy, hsame⟩
      rcases hcase with ⟨hents, x, hx, rfl, hxfile⟩ | ⟨habsent, hfree, new, hadd⟩
      · exact mvKeeps_replaced a c hx hxfile hents
      · rcases Nat.lt_or_ge 27 (strlen dst) with hlong | hshort
        · exact mvKeeps_cut a c hfree hadd hlong
        · exact mvKeeps_made a c habsent hfree hadd hshort
  · have hrun := run_cmdMv_usage kmalloc cwd hgiven d
    unfold MvKeeps
    rw [hrun]
    refine iff_of_true (Or.inl hsrcfile) ⟨fun hu => absurd ⟨hu.1, hu.2.1⟩ hgiven, ?_⟩
    -- a cut name has 27 bytes
    rintro ⟨-, hlong, hcut, -⟩
    rw [strlen_eq] at hlong
    have hlen := congrArg List.length hcut
    rw [List.length_take, Nat.min_eq_left (by omega)] at hlen
    refine absurd ⟨fun hsrc => ?_, fun hdst => ?_⟩ hgiven
    · rw [cstr_of_headD hsrc] at hlen
      exact absurd hlen (by decide)
    · rw [cstr_of_headD hdst] at hlong
      exact absurd hlong (by decide)

end Cases

/-- `mv` keeps the contents of the file `src`, under its name or as `dst`, exactly if it does not unlink the
only name of the only copy and does not put another file before it. -/
theorem mv_keeps_data {d₀ d : Disk} (h₀ : (d₀ 0).magic ≠ sfsMagic) (h : Reachable flat d₀ d) {cwd : Nat}
    (hcwd : IsDir flat d cwd) (kmalloc : UInt32 → Bool) {src bytes : List UInt8}
    (hsrc : HoldsFile d cwd src bytes) (dst : List UInt8) :
    MvKeeps kmalloc d cwd src dst bytes ↔ MvSafe kmalloc d cwd src dst bytes :=
  mvKeeps_iff kmalloc ⟨inv_reachable h₀ h, hcwd⟩ hsrc dst

-- A fresh disk with the file `f` in its root, which holds one byte.
theorem reachable_f :
    ∃ d de, Reachable flat blankDisk d ∧ Good sfsRoot d ∧ called d sfsRoot (ascii "f") = [de] ∧
      FileIs d de.target [0x78] ∧ called d sfsRoot (ascii "g") = [] ∧ firstFree d ≠ none := by
  obtain ⟨d, e, hd, he, -, hnone, -, heff, hfree⟩ :=
    @create_blank (ascii "f") (by decide) (by decide) sfsFile (Or.inl rfl)
  have hinv := inv_reachable blankDisk_magic he
  have hgood : Good sfsRoot e := ⟨hinv, isDir_root hinv⟩
  obtain ⟨g, hwrite, hstore⟩ := @run_sfsWrite_bytes e hinv.sound 1 (by decide) heff.typeIno [0x78] (by decide)
  obtain ⟨hgood', hents⟩ := store_good hgood heff.typeIno hstore
  obtain ⟨new, hnew, hperm⟩ := heff.added
  have hreach : Reachable flat blankDisk g := by
    have hstep := Reaches.step (.write 1 (bufferOf [0x78]) 1) he (show 1 < 64 by decide)
    exact hwrite ▸ hstep
  have hcalled : ∀ s, called g sfsRoot s = called e sfsRoot s := fun s => by rw [called, called, hents]
  have hnamed : ∀ s, dot ≠ cstr s → dotdot ≠ cstr s →
      (called e sfsRoot s).Perm (if cstr (ascii "f") = cstr s then [new] else []) := by
    intro s h1 h2
    have hold : named (entriesAt d sfsRoot) (cstr s) = [] := by
      rw [← List.head?_eq_none_iff]
      exact (findNamed_eq_head _ _).symm.trans (hnone s h1 h2)
    have hstr : new.str = cstr (ascii "f") := hnew.str
    have hsplit := @named_split [] (entriesAt d sfsRoot) new (cstr s)
    rw [hold, hstr, List.append_nil] at hsplit
    have hnow := named_perm hperm (cstr s)
    rw [show named (new :: entriesAt d sfsRoot) (cstr s) = _ from hsplit] at hnow
    exact hnow
  refine ⟨g, new, hreach, hgood', ?_, ?_, ?_, ?_⟩
  · rw [hcalled]
    exact List.perm_singleton.mp (hnamed _ (by decide) (by decide))
  · rw [hnew.target]
    exact store_fileIs hstore
  · rw [hcalled]
    exact List.perm_nil.mp (hnamed (ascii "g") (by decide) (by decide))
  · intro hfull
    refine firstFree_none.mp hfull 2 (by decide) ?_
    rw [hstore.frame.typeAt (by decide) (by decide)]
    exact hfree 2 (by decide) (by decide)

theorem resolve_f (cwd : Nat) : resolve cwd (ascii "f") = sfsLookup cwd (ascii "f") := rfl

theorem mv_keeps_data_f_g :
    ∃ d, HoldsFile d sfsRoot (ascii "f") [0x78] ∧
      MvKeeps (fun _ => true) d sfsRoot (ascii "f") (ascii "g") [0x78] := by
  obtain ⟨d, de, hreach, hgood, hf, hfile, hg, hfree⟩ := reachable_f
  have hholds : HoldsFile d sfsRoot (ascii "f") [0x78] := (holdsFile_iff hgood).mpr ⟨de, by rw [hf]; rfl, hfile⟩
  have hres : ((resolve sfsRoot (ascii "f")).run flat d).1 = some de.target := by
    rw [resolve_f, run_lookup_good hgood, findNamed_eq_head]
    exact congrArg (fun l => l.head?.map Dirent.target) hf
  have hok : ¬ CpRefuses (fun _ => true) d sfsRoot (ascii "f") (ascii "g") := by
    have hgnone : findNamed (slotsAt d sfsRoot) (ascii "g") = none :=
      (findNamed_eq_head _ _).trans (congrArg List.head? hg)
    unfold CpRefuses
    rw [hres]
    dsimp only
    rw [hgnone]
    exact not_or.mpr ⟨not_not.mpr (fileIs_iff.mp hfile).1, not_or.mpr ⟨by simp, hfree⟩⟩
  refine ⟨d, hholds, (mv_keeps_data blankDisk_magic hreach hgood.2 _ hholds _).mpr ⟨fun _ => ?_, ?_⟩⟩
  · exact Or.inl ⟨by decide, Or.inr ⟨hok, de.target, hres, hfile⟩⟩
  · rintro ⟨-, hlong, -⟩
    exact absurd hlong (by decide)

-- `mv f f` copies the file onto itself and unlinks it.
theorem mv_f_f_loses :
    ∃ d, Reachable flat blankDisk d ∧ IsDir flat d sfsRoot ∧ HoldsFile d sfsRoot (ascii "f") [0x78] ∧
      ¬ MvKeeps (fun _ => true) d sfsRoot (ascii "f") (ascii "f") [0x78] := by
  obtain ⟨d, de, hreach, hgood, hf, hfile, -, -⟩ := reachable_f
  have hhead : (called d sfsRoot (ascii "f")).head? = some de := by rw [hf]; rfl
  have hholds : HoldsFile d sfsRoot (ascii "f") [0x78] := (holdsFile_iff hgood).mpr ⟨de, hhead, hfile⟩
  refine ⟨d, hreach, hgood.2, hholds, ?_⟩
  rw [mvKeeps_iff _ hgood hholds]
  intro hsafe
  have hunlinks : MvUnlinks (fun _ => true) d sfsRoot (ascii "f") (ascii "f") := by
    refine ⟨by decide, by decide, Or.inl fun hno => ?_⟩
    exact absurd (hhead.symm.trans ((lookup_none_iff hgood _).mp hno)) (by simp)
  rcases hsafe.1 hunlinks with ⟨hne, -⟩ | ⟨x, hx, -⟩
  · exact hne rfl
  · rw [hf] at hx
    exact absurd hx (by simp)

end JacobOS.Shell
