import JacobOS.Fs.Effects
import JacobOS.Kernel.Move

/-!
# What `cp` and `echo … >> f` write

Both read all of a file into memory and then write all of one, so the blocks of the destination are freed
before the data goes back to the disk.  No byte is lost on the way, also where a file is copied onto itself,
and nothing but the destination and its entry changes.
-/

namespace JacobOS.Shell

open BlockProgram CString Fs

/-! ## `cp` -/

/-- `name` is in directory `cwd`, with type `type`. -/
def HoldsType (d : Disk) (cwd : Nat) (name : List UInt8) (type : UInt32) : Prop :=
  ∃ ino, ((sfsLookup cwd name).run flat d).1 = some ino ∧ ((sfsType ino).run flat d).1 = type

/-- `name` is not in directory `cwd`. -/
def IsAbsent (d : Disk) (cwd : Nat) (name : List UInt8) : Prop := ((sfsLookup cwd name).run flat d).1 = none

def HasFreeInode (d : Disk) : Prop := ∃ j, j < 64 ∧ ((sfsType j).run flat d).1 = sfsFree

/-- Only `cwd` and what is called `name` in it may answer differently on `e`. -/
def OthersSame (d e : Disk) (cwd : Nat) (name : List UInt8) : Prop :=
  ∀ j, j < 64 → j ≠ cwd → ((sfsLookup cwd name).run flat e).1 ≠ some j → SameInode d e j

structure CpExact (d e : Disk) (cwd : Nat) (dst : List UInt8) (s : Nat) (bytes : List UInt8) : Prop where
  copied : HoldsType d cwd dst sfsFile ∨ (IsAbsent d cwd dst ∧ HasFreeInode d) → HoldsFile e cwd dst bytes
  refused : HoldsType d cwd dst sfsDir ∨ (IsAbsent d cwd dst ∧ ¬ HasFreeInode d) → e = d
  source : FileIs e s bytes
  others : OthersSame d e cwd dst

theorem hasFreeInode_iff {d : Disk} : HasFreeInode d ↔ firstFree d ≠ none := by
  rw [Ne, firstFree_none]
  constructor
  · rintro ⟨j, hj, hfree⟩ hall
    exact hall j hj hfree
  · intro hsome
    by_contra hno
    exact hsome fun j hj hfree => hno ⟨j, hj, hfree⟩

theorem lookup_called {cwd : Nat} {d : Disk} (h : Good cwd d) (name : List UInt8) :
    ((sfsLookup cwd name).run flat d).1 = (called d cwd name).head?.map Dirent.target := by
  rw [run_lookup_good h, findNamed_eq_head]
  rfl

-- What `cp` has made or replaced is found under its name.
theorem CpEffect.found {cwd : Nat} {dst bytes : List UInt8} {d e : Disk} (h : Good cwd d)
    (hshort : strlen dst ≤ 27) (heff : CpEffect cwd dst bytes d e) :
    ∃ ino, ((sfsLookup cwd dst).run flat e).1 = some ino ∧ FileIs e ino bytes ∧
      Frame (fun j => j = cwd ∨ j = ino) d e := by
  obtain ⟨ino, hgood, hfile, hframe, hcase⟩ := heff.spec h
  refine ⟨ino, ?_, hfile, hframe⟩
  rw [lookup_called hgood]
  rcases hcase with ⟨hents, de, hde, rfl, -⟩ | ⟨habsent, -, new, hadd⟩
  · rw [called, hents]
    exact congrArg (Option.map Dirent.target) hde
  · rw [hadd.called_new habsent (hadd.str_eq hshort), ← hadd.names.target]
    rfl

-- A file is no directory, so the frame covers it.
theorem fileIs_frame {cwd s ino : Nat} {bytes : List UInt8} {d e : Disk} (h : Good cwd d) (hs : s < 64)
    (hfile : FileIs d s bytes) (hframe : Frame (fun j => j = cwd ∨ j = ino) d e) (hne : s ≠ ino) :
    FileIs e s bytes := by
  have hcwd : s ≠ cwd := by
    rintro rfl
    exact absurd (hfile.1.symm.trans h.2.2) (by decide)
  have hout : ¬ (s = cwd ∨ s = ino) := not_or.mpr ⟨hcwd, hne⟩
  rw [fileIs_iff, hframe.typeAt hs hout, hframe.contentAt hs hout]
  exact fileIs_iff.mp hfile

-- Once the source is a file and there is memory for it, only the destination can be refused.
theorem cpRefuses_iff {kmalloc : UInt32 → Bool} {cwd s : Nat} {d : Disk} (h : Good cwd d) {src dst : List UInt8}
    (hres : ((resolve cwd src).run flat d).1 = some s) (hfile : typeAt d s = sfsFile)
    (hmem : kmalloc (if (inodeAt d s).size ≠ 0 then (inodeAt d s).size else 1) = true) :
    CpRefuses kmalloc d cwd src dst ↔
      HoldsType d cwd dst sfsDir ∨ (IsAbsent d cwd dst ∧ ¬ HasFreeInode d) := by
  unfold CpRefuses HoldsType IsAbsent
  rw [hres, run_lookup_good h, hasFreeInode_iff, not_not]
  dsimp only
  rw [hmem]
  cases hlook : findNamed (slotsAt d cwd) dst with
  | none => simp [hfile]
  | some de =>
    have hlive := entry_live h (findNamed_mem hlook).1
    have htypes := (h.1.names.types de.target hlive.1).resolve_left hlive.2
    have hkind : typeAt d de.target ≠ sfsFile ↔ typeAt d de.target = sfsDir := by
      constructor
      · exact htypes.resolve_left
      · intro hd hf
        exact absurd (hd.symm.trans hf) (by decide)
    simp [hfile, hkind]
    rfl

/-- `cp` makes `dst` a file with the contents of the source, or changes nothing; the source keeps its
contents, and no other inode than that of `dst` and the working directory is touched. -/
theorem cp_copies_exactly {d₀ d : Disk} (h₀ : (d₀ 0).magic ≠ sfsMagic) (h : Reachable flat d₀ d) {cwd : Nat}
    (hcwd : IsDir flat d cwd) (kmalloc : UInt32 → Bool) {src dst bytes : List UInt8} {s : Nat}
    (hsrc : src.headD 0 ≠ 0) (hres : ((resolve cwd src).run flat d).1 = some s) (hfile : FileIs d s bytes)
    (hdst : 1 ≤ strlen dst ∧ strlen dst ≤ 27)
    (hmem : kmalloc (if ((sfsSize s).run flat d).1 ≠ 0 then ((sfsSize s).run flat d).1 else 1) = true) :
    CpExact d ((cmdCp kmalloc cwd (some src) (some dst)).run flat d).2 cwd dst s bytes := by
  have hgood : Good cwd d := ⟨inv_reachable h₀ h, hcwd⟩
  obtain ⟨htype, rfl⟩ := fileIs_iff.mp hfile
  have hs := (good_resolve hcwd.1 src d hgood).2 s hres
  have hgiven : dst.headD 0 ≠ 0 := by
    intro hnul
    rw [strlen_eq, cstr_of_headD hnul] at hdst
    exact absurd hdst.1 (by decide)
  have hiff := @cpRefuses_iff kmalloc cwd s d hgood src dst hres htype hmem
  rcases run_cmdCp kmalloc hgood (given_some hsrc) (given_some hgiven) with
    ⟨hrefuse, out, -, hrun⟩ | ⟨hok, s', e, hres', -, hrun, heff⟩
  · rw [hrun]
    refine ⟨fun hgo => ?_, fun _ => rfl, hfile, fun j _ _ _ => .refl d j⟩
    rcases hiff.mp hrefuse with ⟨ino, hlook, hdir⟩ | ⟨habsent, hfull⟩
    · rcases hgo with ⟨ino', hlook', hf⟩ | ⟨habsent, -⟩
      · obtain rfl : ino = ino' := by simpa using hlook.symm.trans hlook'
        exact absurd (hdir.symm.trans hf) (by decide)
      · exact absurd (hlook.symm.trans habsent) (by simp)
    · rcases hgo with ⟨ino', hlook', -⟩ | ⟨-, hfree⟩
      · exact absurd (habsent.symm.trans hlook') (by simp)
      · exact absurd hfree hfull
  · obtain rfl : s = s' := by simpa using hres.symm.trans hres'
    obtain ⟨ino, hfound, hcopy, hframe⟩ := heff.found hgood hdst.2
    rw [hrun]
    refine ⟨fun _ => ⟨ino, hfound, hcopy⟩, fun hno => absurd (hiff.mpr hno) hok, ?_, ?_⟩
    · by_cases hself : s = ino
      · -- the file is copied onto itself
        rw [hself] at hcopy ⊢
        exact hcopy
      · exact fileIs_frame hgood hs hfile hframe hself
    · intro j hj hjc hne
      refine hframe.sameInode hj (not_or.mpr ⟨hjc, ?_⟩)
      rintro rfl
      exact hne hfound

-- `cp f g` on the disk with the file `f`.
theorem cp_copies_exactly_f_g :
    ∃ d s, FileIs d s [0x78] ∧
      CpExact d ((cmdCp (fun _ => true) sfsRoot (some (ascii "f")) (some (ascii "g"))).run flat d).2 sfsRoot
        (ascii "g") s [0x78] := by
  obtain ⟨d, de, hreach, hgood, hf, hfile, -, -⟩ := reachable_f
  have hres : ((resolve sfsRoot (ascii "f")).run flat d).1 = some de.target := by
    rw [resolve_f, lookup_called hgood, hf]
    rfl
  exact ⟨d, de.target, hfile,
    cp_copies_exactly blankDisk_magic hreach hgood.2 _ (by decide) hres hfile (by decide) rfl⟩

/-! ## The text of `echo` -/

/-- The words with single spaces between them, as much as the buffer holds. -/
noncomputable def echoed (words : List (List UInt8)) : List UInt8 :=
  ((ascii " ").intercalate (words.map cstr)).take 255

theorem take_append_cut (a b : List UInt8) (n : Nat) : (a.take n ++ b).take n = (a ++ b).take n := by
  rw [List.take_append, List.take_append, List.take_take, Nat.min_self, List.length_take,
    show n - min n a.length = n - a.length by omega]

-- From the second word on a space comes first.
theorem echoText_next (words : List (List UInt8)) {i : Nat} (hi : 1 < i) (text : List UInt8)
    (hlen : text.length ≤ 255) :
    echoText i words text = (text ++ words.flatMap fun w => ascii " " ++ cstr w).take 255 := by
  induction words generalizing i text with
  | nil => rw [echoText, List.flatMap_nil, List.append_nil, List.take_of_length_le hlen]
  | cons word words ih =>
    have hstep : ∀ t : List UInt8, t.length ≤ 255 →
        t ++ (cstr word).take (255 - t.length) = (t ++ cstr word).take 255 := by
      intro t ht
      rw [List.take_append, List.take_of_length_le ht]
    have htext : (if i > 1 ∧ text.length < 255 then text ++ ascii " " else text) =
        (text ++ ascii " ").take 255 := by
      by_cases hroom : text.length < 255
      · rw [if_pos ⟨hi, hroom⟩, List.take_of_length_le]
        rw [List.length_append]
        exact hroom
      · rw [if_neg fun hc => hroom hc.2, List.take_append, show 255 - text.length = 0 by omega,
          List.take_zero, List.append_nil, List.take_of_length_le hlen]
    rw [echoText, htext, hstep _ (List.length_take_le ..), ih (by omega) _ (List.length_take_le ..),
      take_append_cut, List.append_assoc, take_append_cut, List.flatMap_cons, List.append_assoc,
      List.append_assoc]

theorem echoText_eq (words : List (List UInt8)) : echoText 1 words [] = echoed words := by
  cases words with
  | nil => rfl
  | cons word words =>
    have hjoin : (ascii " ").intercalate ((word :: words).map cstr) =
        cstr word ++ words.flatMap fun w => ascii " " ++ cstr w := by
      induction words generalizing word with
      | nil => simp
      | cons w words ih =>
        rw [List.map_cons, List.map_cons, List.intercalate_cons_cons, ← List.map_cons, ih w,
          List.flatMap_cons, List.append_assoc, List.append_assoc]
    unfold echoed
    rw [hjoin, echoText, if_neg (by decide), List.nil_append, List.length_nil, Nat.sub_zero,
      echoText_next words (show 1 < 1 + 1 by decide) _ (List.length_take_le ..), take_append_cut]

/-! ## `echo … >> f` -/

structure AppendExact (kmalloc : UInt32 → Bool) (d e : Disk) (cwd : Nat) (f text : List UInt8) : Prop where
  /-- A file that is made for it starts out empty. -/
  file : ∀ bytes, HoldsFile d cwd f bytes ∨ (IsAbsent d cwd f ∧ HasFreeInode d ∧ bytes = []) →
    HoldsFile e cwd f (if kmalloc (UInt32.ofNat (bytes.length + text.length + 1)) = true then
      (bytes ++ text).take 7168 else bytes)
  refused : HoldsType d cwd f sfsDir ∨ (IsAbsent d cwd f ∧ ¬ HasFreeInode d) → e = d
  others : OthersSame d e cwd f
  listing : ∃ l l', Lists d cwd l ∧ Lists e cwd l' ∧
    (l' = l ∨ (IsAbsent d cwd f ∧ ∃ ino, l'.Perm ((ino, cstr f) :: l)))

theorem map_bufferOf_cut (bytes : List UInt8) (cap : Nat) :
    (List.range (min bytes.length cap)).map (bufferOf bytes) = bytes.take cap := by
  rw [Nat.min_comm, ← List.take_range, List.map_take, map_bufferOf]

-- On a file, with memory for it or without.
theorem run_echoAppend_file (kmalloc : UInt32 → Bool) {cwd ino : Nat} {d : Disk} (h : Good cwd d)
    (hino : ino < 64) {bytes : List UInt8} (hfile : FileIs d ino bytes) (text : List UInt8) :
    ∃ out e, (echoAppend kmalloc ino text).run flat d = (out, e) ∧ Good cwd e ∧
      entriesAt e cwd = entriesAt d cwd ∧ Frame (· = ino) d e ∧
      FileIs e ino (if kmalloc (UInt32.ofNat (bytes.length + text.length + 1)) = true then
        (bytes ++ text).take 7168 else bytes) := by
  obtain ⟨htype, rfl⟩ := fileIs_iff.mp hfile
  have hsize : (sfsSize ino).run flat d = ((inodeAt d ino).size, d) := rfl
  have hreq : (inodeAt d ino).size + UInt32.ofNat text.length + 1 =
      UInt32.ofNat ((contentAt d ino).length + text.length + 1) := by
    rw [h.1.length_contentAt hino htype, UInt32.ofNat_add, UInt32.ofNat_add, UInt32.ofNat_toNat]
    rfl
  rw [echoAppend, Prog.run_bind, hsize]
  dsimp only
  rw [hreq]
  by_cases hmem : kmalloc (UInt32.ofNat ((contentAt d ino).length + text.length + 1)) = true
  · rw [if_neg (by rw [hmem]; decide), if_pos hmem, Prog.run_bind, run_sfsRead_size, Prog.run_bind]
    dsimp only
    rcases run_sfsWrite h.1.sound hino (bufferOf (contentAt d ino ++ text))
      ((contentAt d ino).length + text.length) with ⟨hno, -⟩ | ⟨-, e, hwrite, hstore⟩
    · exact absurd htype hno
    · obtain ⟨hgood, hents⟩ := store_good h htype hstore
      rw [hwrite]
      refine ⟨_, e, rfl, hgood, hents, hstore.frame, ?_⟩
      rw [fileIs_iff, hstore.contentAt_eq, ← List.length_append, map_bufferOf_cut]
      exact ⟨hstore.type, rfl⟩
  · rw [if_pos (by simpa using hmem), if_neg hmem]
    exact ⟨_, d, rfl, h, rfl, Frame.refl _ d, hfile⟩

-- `sfs_write` refuses a directory.
theorem run_echoAppend_dir (kmalloc : UInt32 → Bool) {ino : Nat} {d : Disk} (h : Inv d) (hino : ino < 64)
    (hdir : typeAt d ino = sfsDir) (text : List UInt8) :
    ∃ out, (echoAppend kmalloc ino text).run flat d = (out, d) := by
  have hsize : (sfsSize ino).run flat d = ((inodeAt d ino).size, d) := rfl
  rw [echoAppend, Prog.run_bind, hsize]
  dsimp only
  split
  · exact ⟨_, rfl⟩
  · rw [Prog.run_bind, run_sfsRead, Prog.run_bind]
    dsimp only
    rcases run_sfsWrite h.sound hino (bufferOf ((contentAt d ino).take (inodeAt d ino).size.toNat ++ text))
      (((contentAt d ino).take (inodeAt d ino).size.toNat).length + text.length) with ⟨-, hwrite⟩ | ⟨hfile, -⟩
    · rw [hwrite]
      exact ⟨_, rfl⟩
    · exact absurd (hdir.symm.trans hfile) (by decide)

-- `f` is there: its entry and the listing stay.
theorem appendExact_found {kmalloc : UInt32 → Bool} {cwd ino : Nat} {d e : Disk} (h : Good cwd d)
    {f text old new : List UInt8} (hlook : ((sfsLookup cwd f).run flat d).1 = some ino)
    (hold : FileIs d ino old) (he : Good cwd e) (hents : entriesAt e cwd = entriesAt d cwd)
    (hframe : Frame (· = ino) d e) (hnew : FileIs e ino new)
    (heq : new = if kmalloc (UInt32.ofNat (old.length + text.length + 1)) = true then
      (old ++ text).take 7168 else old) : AppendExact kmalloc d e cwd f text := by
  have hlook' : ((sfsLookup cwd f).run flat e).1 = some ino := by
    rw [lookup_called he, called, hents]
    exact (lookup_called h f).symm.trans hlook
  refine ⟨?_, ?_, ?_, ?_⟩
  · rintro bytes (⟨ino', hin, hbytes⟩ | ⟨habsent, -⟩)
    · obtain rfl : ino = ino' := by simpa using hlook.symm.trans hin
      obtain rfl : old = bytes := hold.unique.mp hbytes
      exact ⟨ino, hlook', heq ▸ hnew⟩
    · exact absurd (hlook.symm.trans habsent) (by simp)
  · rintro (⟨ino', hin, hdir⟩ | ⟨habsent, -⟩)
    · obtain rfl : ino = ino' := by simpa using hlook.symm.trans hin
      exact absurd (hdir.symm.trans hold.1) (by decide)
    · exact absurd (hlook.symm.trans habsent) (by simp)
  · intro j hj _ hne
    refine hframe.sameInode hj ?_
    rintro rfl
    exact hne hlook'
  · exact ⟨_, _, h.1.lists h.2.1 h.2.2, he.1.lists he.2.1 he.2.2, Or.inl (by rw [hents])⟩

-- Nothing happens to a directory, or where there is no inode for a new file.
theorem appendExact_refused {kmalloc : UInt32 → Bool} {cwd : Nat} {d : Disk} (h : Good cwd d)
    {f text : List UInt8} (hno : HoldsType d cwd f sfsDir ∨ (IsAbsent d cwd f ∧ ¬ HasFreeInode d)) :
    AppendExact kmalloc d d cwd f text := by
  refine ⟨?_, fun _ => rfl, fun j _ _ _ => .refl d j, ?_⟩
  · rintro bytes (⟨ino, hin, hfile⟩ | ⟨habsent, hfree, -⟩)
    · rcases hno with ⟨ino', hin', hdir⟩ | ⟨habsent, -⟩
      · obtain rfl : ino = ino' := by simpa using hin.symm.trans hin'
        exact absurd (hdir.symm.trans hfile.1) (by decide)
      · exact absurd (hin.symm.trans habsent) (by simp)
    · rcases hno with ⟨ino', hin', -⟩ | ⟨-, hfull⟩
      · exact absurd (habsent.symm.trans hin') (by simp)
      · exact absurd hfree hfull
  · exact ⟨_, _, h.1.lists h.2.1 h.2.2, h.1.lists h.2.1 h.2.2, Or.inl rfl⟩

-- `f` is made first, and is empty.
theorem appendExact_made {kmalloc : UInt32 → Bool} {cwd ino : Nat} {d d' e : Disk} (h : Good cwd d)
    {f text new : List UInt8} (hshort : strlen f ≤ 27) (habsent : findNamed (slotsAt d cwd) f = none)
    (hfree : firstFree d = some ino) (hcreate : CreateEffect cwd f sfsFile ino d d') (he : Good cwd e)
    (hents : entriesAt e cwd = entriesAt d' cwd) (hframe : Frame (· = ino) d' e) (hnew : FileIs e ino new)
    (heq : new = if kmalloc (UInt32.ofNat (([] : List UInt8).length + text.length + 1)) = true then
      ([] ++ text).take 7168 else []) : AppendExact kmalloc d e cwd f text := by
  have hnone : IsAbsent d cwd f := by
    unfold IsAbsent
    rw [run_lookup_good h, habsent]
    rfl
  obtain ⟨de, hde, hperm⟩ := hcreate.added
  have hlook : ((sfsLookup cwd f).run flat e).1 = some ino := by
    have hfound := lookup_created h.1 h.2 (Or.inl rfl) habsent hfree hcreate
    rw [if_pos hshort] at hfound
    rw [lookup_called he, called, hents]
    rw [findNamed_eq_head] at hfound
    exact hfound
  refine ⟨?_, ?_, ?_, ?_⟩
  · rintro bytes (⟨ino', hin, -⟩ | ⟨-, -, rfl⟩)
    · exact absurd (hnone.symm.trans hin) (by simp)
    · exact ⟨ino, hlook, heq ▸ hnew⟩
  · rintro (⟨ino', hin, -⟩ | ⟨-, hfull⟩)
    · exact absurd (hnone.symm.trans hin) (by simp)
    · exact absurd (hasFreeInode_iff.mpr (by simp [hfree])) hfull
  · intro j hj hjc hne
    have hji : j ≠ ino := by
      rintro rfl
      exact hne hlook
    refine (hcreate.frame.trans hframe).sameInode hj ?_
    rintro ((hj' | hj') | hj')
    · exact hjc hj'
    · exact hji hj'
    · exact hji hj'
  · refine ⟨_, _, h.1.lists h.2.1 h.2.2, he.1.lists he.2.1 he.2.2, Or.inr ⟨hnone, ino, ?_⟩⟩
    have hpair := hde.pair
    rw [strlen_eq] at hshort
    rw [List.take_of_length_le hshort] at hpair
    rw [hents, ← hpair]
    exact hperm.map Dirent.pair

theorem echo_appends (kmalloc : UInt32 → Bool) {cwd : Nat} {d : Disk} (h : Good cwd d)
    {argv : List (List UInt8)} {redir : Nat} {f : List UInt8}
    (hfind : findRedir 1 argv.tail = some (redir, true)) (hname : argv[redir + 1]? = some f)
    (hshort : strlen f ≤ 27) :
    ∃ out e, (echo kmalloc cwd argv).run flat d = (out, e) ∧
      AppendExact kmalloc d e cwd f (echoed (argv.tail.take (redir - 1))) := by
  unfold echo
  rw [hfind]
  dsimp only
  rw [hname, echoText_eq]
  dsimp only
  rw [Prog.run_bind]
  generalize echoed (argv.tail.take (redir - 1)) = text
  rcases run_lookupOrCreate h f with
    ⟨de, hlook, hrun⟩ | ⟨hlook, hfree, hrun⟩ | ⟨ino, d', hlook, hfree, hrun, -, heff⟩
  · have hfound : ((sfsLookup cwd f).run flat d).1 = some de.target := by
      rw [run_lookup_good h, hlook]
      rfl
    obtain ⟨hlt, hlive⟩ := entry_live h (findNamed_mem hlook).1
    rw [hrun]
    dsimp only
    rw [if_pos rfl]
    rcases (h.1.names.types de.target hlt).resolve_left hlive with hfile | hdir
    · have hold : FileIs d de.target (contentAt d de.target) := fileIs_iff.mpr ⟨hfile, rfl⟩
      obtain ⟨out, e, hrun', he, hents, hframe, hnew⟩ := run_echoAppend_file kmalloc h hlt hold text
      exact ⟨out, e, hrun', appendExact_found h hfound hold he hents hframe hnew rfl⟩
    · obtain ⟨out, hrun'⟩ := run_echoAppend_dir kmalloc h.1 hlt hdir text
      exact ⟨out, d, hrun', appendExact_refused h (Or.inl ⟨de.target, hfound, hdir⟩)⟩
  · rw [hrun]
    refine ⟨_, d, rfl, appendExact_refused h (Or.inr ⟨?_, ?_⟩)⟩
    · unfold IsAbsent
      rw [run_lookup_good h, hlook]
      rfl
    · rw [hasFreeInode_iff, not_not]
      exact hfree
  · have hgood' : Good cwd d' := ⟨h.1.create h.2.1 h.2.2 (Or.inl rfl) hlook hfree heff, h.2.1, heff.typeDir⟩
    have hold : FileIs d' ino [] := by
      rw [fileIs_iff, contentAt, heff.empty (by decide)]
      exact ⟨heff.typeIno, List.take_nil⟩
    obtain ⟨out, e, hrun', he, hents, hframe, hnew⟩ :=
      run_echoAppend_file kmalloc hgood' (firstFree_some hfree).1 hold text
    rw [hrun]
    exact ⟨out, e, hrun', appendExact_made h hshort hlook hfree heff he hents hframe hnew rfl⟩

/-- The line is `echo words… >> f`. -/
def IsAppend (line : List UInt8) (words : List (List UInt8)) (f : List UInt8) : Prop :=
  ∃ cmd args redir, tokenize line 16 = cmd :: args ∧ isCmd cmd "echo" = true ∧
    findRedir 1 args = some (redir, true) ∧ (cmd :: args)[redir + 1]? = some f ∧
    words = args.take (redir - 1)

/-- `echo words… >> f` puts the words after what is in the file, up to the limit of a file, or leaves the file
as it is if there is no memory; nothing else changes but the entry of a new file. -/
theorem echo_appends_exactly {d₀ d : Disk} (h₀ : (d₀ 0).magic ≠ sfsMagic) (h : Reachable flat d₀ d) {cwd : Nat}
    (hcwd : IsDir flat d cwd) (fuel : Nat) (kmalloc : UInt32 → Bool) {line f : List UInt8}
    {words : List (List UInt8)} (hline : IsAppend line words f) (hshort : strlen f ≤ 27) :
    ∃ out e, (runCommand fuel kmalloc cwd line).run flat d = (some (cwd, out), e) ∧
      AppendExact kmalloc d e cwd f (echoed words) := by
  obtain ⟨cmd, args, redir, htok, hcmd, hfind, hname, rfl⟩ := hline
  obtain ⟨out, e, hrun, hexact⟩ :=
    @echo_appends kmalloc cwd d ⟨inv_reachable h₀ h, hcwd⟩ (cmd :: args) redir f hfind hname hshort
  refine ⟨out, e, ?_, hexact⟩
  unfold runCommand
  rw [htok]
  dsimp only
  simp (disch := decide) only [dispatch, isCmd_ne hcmd, hcmd, if_true, if_false, Bool.false_eq_true]
  rw [Prog.run_bind, run_prints, hrun, run_finish]

-- `echo hi >> f` on the disk with the file `f`.
theorem echo_appends_exactly_hi :
    ∃ d out e, HoldsFile d sfsRoot (ascii "f") [0x78] ∧
      (runCommand 0 (fun _ => true) sfsRoot (ascii "echo hi >> f")).run flat d = (some (sfsRoot, out), e) ∧
      AppendExact (fun _ => true) d e sfsRoot (ascii "f")
        (echoed [ascii "hi" ++ 0 :: (ascii ">>" ++ 0 :: ascii "f")]) := by
  obtain ⟨d, de, hreach, hgood, hf, hfile, -, -⟩ := reachable_f
  have hline : IsAppend (ascii "echo hi >> f") [ascii "hi" ++ 0 :: (ascii ">>" ++ 0 :: ascii "f")]
      (ascii "f") := by
    refine ⟨ascii "echo" ++ 0 :: (ascii "hi" ++ 0 :: (ascii ">>" ++ 0 :: ascii "f")),
      [ascii "hi" ++ 0 :: (ascii ">>" ++ 0 :: ascii "f"), ascii ">>" ++ 0 :: ascii "f", ascii "f"], 2, ?_⟩
    decide
  obtain ⟨out, e, hrun, hexact⟩ :=
    echo_appends_exactly blankDisk_magic hreach hgood.2 0 (fun _ => true) hline (by decide)
  exact ⟨d, out, e, (holdsFile_iff hgood).mpr ⟨de, by rw [hf]; rfl, hfile⟩, hrun, hexact⟩

end JacobOS.Shell
