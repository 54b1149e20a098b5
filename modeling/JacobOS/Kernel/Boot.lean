import JacobOS.Kernel.Copy
import JacobOS.Numerals

/-!
# The boot block of `main`

After `sfs_init`, `main` counts the boots in `/bootcount` and installs the embedded program as `/hello`.  The
second part checks that there is an inode to write to, the first does not.
-/

namespace JacobOS.Boot

open BlockProgram CString Fs Shell Numerals

def bcacheSync : SfsM Unit := Prog.sync (.ret ())

/-- `sfs_write(f, data, len); bcache_sync();` with the inode number that `sfs_write` is given. -/
def writeSync (f : Nat) (data : Nat → UInt8) (len : Nat) : SfsM (List (Option Nat)) := do
  let _ ← sfsWrite f data len
  bcacheSync
  return [some f]

/-- `itoa(++count, b); sfs_write(f, b, strlen(b)); bcache_sync();` with the inode number that `sfs_write` is
given, `none` for `-1`.  With `-1` it works on the bytes in front of its buffer, and the model ends there. -/
def writeCount (f : Option Nat) (count : Int32) : SfsM (List (Option Nat)) :=
  match f with
  | none => return [none]
  | some f => writeSync f (bufferOf (itoa (count + 1))) (itoa (count + 1)).length

/-- The boot counter: the inode numbers that `sfs_read` and `sfs_write` are given. -/
def bootCounter : SfsM (List (Option Nat)) := do
  match ← sfsLookup sfsRoot (ascii "bootcount") with
  | none =>
      let f ← sfsCreate sfsRoot (ascii "bootcount") sfsFile
      writeCount f 0
  | some f =>
      let b ← sfsRead f 15
      let calls ← writeCount (some f) (atoi b)
      return some f :: calls

/-- The install of `/hello`, where `hello` are the bytes of the program. -/
def installHello (hello : List UInt8) : SfsM (List (Option Nat)) := do
  match ← lookupOrCreate sfsRoot (ascii "hello") with
  | none =>
      bcacheSync
      return []
  | some f => writeSync f (bufferOf hello) (UInt32.ofNat hello.length).toNat

def bootBlock (hello : List UInt8) : SfsM (List (Option Nat)) := do
  let calls ← bootCounter
  if none ∈ calls then return calls else
    let more ← installHello hello
    return calls ++ more

/-! ## The parts of it -/

theorem run_writeSync (f : Nat) (data : Nat → UInt8) (len : Nat) (d : Disk) :
    (writeSync f data len).run flat d = ([some f], ((sfsWrite f data len).run flat d).2) := by
  rw [writeSync, Prog.run_bind, Prog.run_bind]
  rfl

/-- On `e` the root is a directory with the same entries as on `d`, and at most inode `f` has changed. -/
structure Kept (d e : Disk) (f : Nat) : Prop where
  good : Good sfsRoot e
  entries : entriesAt e sfsRoot = entriesAt d sfsRoot
  frame : Frame (· = f) d e

-- `sfs_write` to any inode of the table.
theorem run_sfsWrite_kept {d : Disk} (h : Good sfsRoot d) {f : Nat} (hf : f < 64) (data : Nat → UInt8)
    (len : Nat) : Kept d ((sfsWrite f data len).run flat d).2 f := by
  rcases run_sfsWrite h.1.sound hf data len with ⟨-, hrun⟩ | ⟨hfile, e, hrun, hstore⟩
  · rw [hrun]
    exact ⟨h, rfl, Frame.refl _ d⟩
  · obtain ⟨hgood, hents⟩ := store_good h hfile hstore
    rw [hrun]
    exact ⟨hgood, hents, hstore.frame⟩

theorem run_writeCount {d : Disk} (h : Good sfsRoot d) {f : Nat} (hf : f < 64) (count : Int32) :
    ∃ e, (writeCount (some f) count).run flat d = ([some f], e) ∧ Kept d e f ∧
      (typeAt d f = sfsFile → (itoa (count + 1)).length ≤ 14 * 512 → FileIs e f (itoa (count + 1))) := by
  refine ⟨_, run_writeSync f _ _ d, run_sfsWrite_kept h hf _ _, ?_⟩
  intro hfile hlen
  obtain ⟨e, hwrite, hstore⟩ := run_sfsWrite_bytes h.1.sound hf hfile hlen
  rw [hwrite]
  exact store_fileIs hstore

/-- What is called `bootcount`, and the file of that name, stay. -/
def CounterStays (d e : Disk) : Prop :=
  ∀ bytes, HoldsFile d sfsRoot (ascii "bootcount") bytes → HoldsFile e sfsRoot (ascii "bootcount") bytes

-- A write to what is called `hello` is not one to `bootcount`.
theorem Kept.counterStays {d e : Disk} (h : Good sfsRoot d) {x : Dirent} (hx : x ∈ entriesAt d sfsRoot)
    (hname : x.str ≠ cstr (ascii "bootcount")) (hkept : Kept d e x.target) : CounterStays d e := by
  intro bytes hfile
  obtain ⟨de, hde, hbytes⟩ := (holdsFile_iff h).mp hfile
  have hlive := entry_live h (mem_of_called (List.mem_of_mem_head? hde)).1
  have hne := other_target_ne h hde (fileIs_iff.mp hbytes).1 (Or.inr ⟨hx, hname⟩)
  refine (holdsFile_iff hkept.good).mpr ⟨de, ?_, ?_⟩
  · rw [called, hkept.entries]
    exact hde
  · refine fileIs_frame h hlive.1 hbytes (hkept.frame.mono fun j hj => Or.inr hj) (Ne.symm hne)

-- A new file of another name does not hide it.
theorem create_counterStays {d e : Disk} (h : Good sfsRoot d) (he : Good sfsRoot e) {ino : Nat} {name : List UInt8}
    (hfree : firstFree d = some ino) (hshort : strlen name ≤ 27) (hname : cstr name ≠ cstr (ascii "bootcount"))
    (hslots : slotsAt e sfsRoot = addSlot (slotsAt d sfsRoot) name ino)
    (heff : CreateEffect sfsRoot name sfsFile ino d e) : CounterStays d e := by
  obtain ⟨hino, hti⟩ := firstFree_some hfree
  obtain ⟨new, hadd⟩ := @exists_added d e sfsRoot ino hino name (congrArg entries hslots)
  intro bytes hfile
  obtain ⟨de, hde, hbytes⟩ := (holdsFile_iff h).mp hfile
  have hlive := entry_live h (mem_of_called (List.mem_of_mem_head? hde)).1
  refine (holdsFile_iff he).mpr ⟨de, ?_, ?_⟩
  · rw [hadd.called_eq (by rw [hadd.str_eq hshort]; exact hname)]
    exact hde
  · refine fileIs_frame h hlive.1 hbytes heff.frame ?_
    rintro rfl
    exact hlive.2 hti

/-- Every inode number that is used is one of the table. -/
def InRange (calls : List (Option Nat)) : Prop := ∀ f ∈ calls, ∃ i, f = some i ∧ i < 64

theorem inRange_single {f : Nat} (hf : f < 64) : InRange [some f] := by
  intro g hg
  exact ⟨f, List.mem_singleton.mp hg, hf⟩

theorem run_installHello {d : Disk} (h : Good sfsRoot d) (hello : List UInt8) :
    ∃ calls e, (installHello hello).run flat d = (calls, e) ∧ InRange calls ∧ CounterStays d e := by
  have hother : cstr (ascii "hello") ≠ cstr (ascii "bootcount") := by decide
  rw [installHello, Prog.run_bind]
  rcases run_lookupOrCreate h (ascii "hello") with
    ⟨de, hlook, hrun⟩ | ⟨-, -, hrun⟩ | ⟨ino, d', hlook, hfree, hrun, hslots, heff⟩
  · obtain ⟨hmem, hstr⟩ := findNamed_mem hlook
    have hlt := (entry_live h hmem).1
    have hkept := run_sfsWrite_kept h hlt (bufferOf hello) (UInt32.ofNat hello.length).toNat
    rw [hrun]
    refine ⟨[some de.target], _, run_writeSync .., inRange_single hlt, hkept.counterStays h hmem ?_⟩
    rw [hstr]
    exact hother
  · rw [hrun]
    exact ⟨[], d, rfl, fun f hf => absurd hf (by simp), fun bytes hfile => hfile⟩
  · obtain ⟨hlt, -⟩ := firstFree_some hfree
    have hgood : Good sfsRoot d' :=
      ⟨h.1.create h.2.1 h.2.2 (Or.inl rfl) hlook hfree heff, h.2.1, heff.typeDir⟩
    have hkept := run_sfsWrite_kept hgood hlt (bufferOf hello) (UInt32.ofNat hello.length).toNat
    have hfirst := create_counterStays h hgood hfree (by decide) hother hslots heff
    obtain ⟨new, hnew, hperm⟩ := heff.added
    have hsecond := @Kept.counterStays d' _ hgood new (hperm.mem_iff.mpr List.mem_cons_self)
      (by rw [hnew.str]; decide) (by rw [hnew.target]; exact hkept)
    rw [hrun]
    exact ⟨[some ino], _, run_writeSync .., inRange_single hlt, fun bytes hfile => hsecond bytes (hfirst bytes hfile)⟩

/-! ## The counter -/

/-- Where `/bootcount` holds the numeral of `c`, it holds that of `c + 1` afterwards. -/
def Counts (d e : Disk) : Prop :=
  ∀ c, c < 2 ^ 31 - 1 → HoldsFile d sfsRoot (ascii "bootcount") (numeral 10 c) →
    HoldsFile e sfsRoot (ascii "bootcount") (numeral 10 (c + 1))

-- The numeral of an `int` fits in the buffer, so it is read whole, and so is the next one.
theorem next_numeral {c : Nat} (hc : c < 2 ^ 31 - 1) :
    itoa (atoi ((numeral 10 c).take 15) + 1) = numeral 10 (c + 1) ∧ (numeral 10 (c + 1)).length ≤ 14 * 512 := by
  have hlen : (numeral 10 c).length ≤ 15 := length_numeral_le (by decide) (by decide) (by omega)
  have hlen' : (numeral 10 (c + 1)).length ≤ 15 := length_numeral_le (by decide) (by decide) (by omega)
  refine ⟨?_, by omega⟩
  have hnext : Int32.ofNat c + 1 = Int32.ofNat (c + 1) := by
    rw [Int32.ofNat_add]
    rfl
  rw [List.take_of_length_le hlen, atoi_numeral, hnext, itoa_ofNat (by omega)]

theorem run_bootCounter_found {d : Disk} (h : Good sfsRoot d) {de : Dirent}
    (hde : (called d sfsRoot (ascii "bootcount")).head? = some de) :
    ∃ calls e, bootCounter.run flat d = (calls, e) ∧ InRange calls ∧ Good sfsRoot e ∧ Counts d e := by
  have hlt := (entry_live h (mem_of_called (List.mem_of_mem_head? hde)).1).1
  have hlook : (sfsLookup sfsRoot (ascii "bootcount")).run flat d = (some de.target, d) := by
    rw [run_lookup_good h, (called_head hde).1]
    rfl
  obtain ⟨e, hwrite, hkept, hstored⟩ := run_writeCount h hlt (atoi ((contentAt d de.target).take 15))
  refine ⟨[some de.target, some de.target], e, ?_, ?_, hkept.good, ?_⟩
  · rw [bootCounter, Prog.run_bind, hlook]
    dsimp only
    rw [Prog.run_bind, run_sfsRead, Prog.run_bind, hwrite]
    rfl
  · intro f hf
    exact ⟨de.target, by simpa using hf, hlt⟩
  · intro c hc hfile
    obtain ⟨de', hde', hbytes⟩ := (holdsFile_iff h).mp hfile
    obtain rfl : de = de' := by simpa using hde.symm.trans hde'
    obtain ⟨htype, hcontent⟩ := fileIs_iff.mp hbytes
    obtain ⟨hnext, hlen⟩ := next_numeral hc
    rw [hcontent, hnext] at hstored
    refine (holdsFile_iff hkept.good).mpr ⟨de, ?_, hstored htype hlen⟩
    rw [called, hkept.entries]
    exact hde

-- Without a counter there is one to be made, if an inode is free.
theorem run_bootCounter_absent {d : Disk} (h : Good sfsRoot d)
    (hnone : (called d sfsRoot (ascii "bootcount")).head? = none) :
    (firstFree d = none ∧ bootCounter.run flat d = ([none], d)) ∨
      (firstFree d ≠ none ∧ ∃ calls e, bootCounter.run flat d = (calls, e) ∧ InRange calls ∧ Good sfsRoot e) := by
  have habsent : findNamed (slotsAt d sfsRoot) (ascii "bootcount") = none := (findNamed_eq_head _ _).trans hnone
  have hlook : (sfsLookup sfsRoot (ascii "bootcount")).run flat d = (none, d) := by
    rw [run_lookup_good h, habsent]
    rfl
  rw [bootCounter, Prog.run_bind, hlook]
  dsimp only
  rw [Prog.run_bind]
  rcases run_sfsCreate h.1 h.2.1 h.2.2 (ascii "bootcount") (Or.inl rfl) with
    ⟨hwhy, hrun⟩ | ⟨ino, e, -, hfree, hrun, heff⟩
  · rw [hrun]
    exact Or.inl ⟨hwhy.resolve_left (not_not.mpr habsent), rfl⟩
  · have hgood : Good sfsRoot e :=
      ⟨h.1.create h.2.1 h.2.2 (Or.inl rfl) habsent hfree heff, h.2.1, heff.typeDir⟩
    obtain ⟨hlt, -⟩ := firstFree_some hfree
    obtain ⟨g, hwrite, hkept, -⟩ := run_writeCount hgood hlt 0
    rw [hrun]
    exact Or.inr ⟨by simp [hfree], [some ino], g, hwrite, inRange_single hlt, hkept.good⟩

/-! ## Every disk the system can leave -/

/-- The boot block uses only inode numbers of the table, and counts. -/
structure BootWorks (hello : List UInt8) (d : Disk) : Prop where
  inRange : InRange ((bootBlock hello).run flat d).1
  counts : Counts d ((bootBlock hello).run flat d).2

-- Both halves, where the first has an inode.
theorem run_bootBlock {d e : Disk} {calls : List (Option Nat)} (hello : List UInt8)
    (hrun : bootCounter.run flat d = (calls, e)) (hcalls : InRange calls) (he : Good sfsRoot e) :
    ∃ calls' g, (bootBlock hello).run flat d = (calls', g) ∧ InRange calls' ∧ CounterStays e g := by
  have hnone : none ∉ calls := by
    intro hin
    obtain ⟨i, hi, -⟩ := hcalls none hin
    exact absurd hi (by simp)
  obtain ⟨more, g, hhello, hmore, hstays⟩ := run_installHello he hello
  refine ⟨calls ++ more, g, ?_, ?_, hstays⟩
  · rw [bootBlock, Prog.run_bind, hrun]
    dsimp only
    rw [if_neg hnone, Prog.run_bind, hhello]
    rfl
  · intro f hf
    rcases List.mem_append.mp hf with hf | hf
    · exact hcalls f hf
    · exact hmore f hf

theorem bootWorks_iff_good {d : Disk} (h : Good sfsRoot d) (hello : List UInt8) :
    BootWorks hello d ↔ ¬ IsAbsent d sfsRoot (ascii "bootcount") ∨ HasFreeInode d := by
  have habsent : IsAbsent d sfsRoot (ascii "bootcount") ↔
      (called d sfsRoot (ascii "bootcount")).head? = none := lookup_none_iff h _
  rw [habsent, hasFreeInode_iff]
  cases hde : (called d sfsRoot (ascii "bootcount")).head? with
  | some de =>
    refine iff_of_true ?_ (Or.inl (by simp))
    obtain ⟨calls, e, hrun, hcalls, he, hcounts⟩ := run_bootCounter_found h hde
    obtain ⟨calls', g, hboot, hin, hstays⟩ := run_bootBlock hello hrun hcalls he
    refine ⟨by rw [hboot]; exact hin, ?_⟩
    rw [hboot]
    exact fun c hc hfile => hstays _ (hcounts c hc hfile)
  | none =>
    rcases run_bootCounter_absent h hde with ⟨hfull, hrun⟩ | ⟨hfree, calls, e, hrun, hcalls, he⟩
    · refine iff_of_false ?_ (by simp [hfull])
      intro hworks
      have hbad : ((bootBlock hello).run flat d).1 = [none] := by
        rw [bootBlock, Prog.run_bind, hrun]
        rfl
      obtain ⟨i, hi, -⟩ := hworks.inRange none (by rw [hbad]; exact List.mem_singleton_self none)
      exact absurd hi (by simp)
    · refine iff_of_true ?_ (Or.inr hfree)
      obtain ⟨calls', g, hboot, hin, -⟩ := run_bootBlock hello hrun hcalls he
      refine ⟨by rw [hboot]; exact hin, ?_⟩
      intro c _ hfile
      obtain ⟨de, hsome, -⟩ := (holdsFile_iff h).mp hfile
      exact absurd (hde.symm.trans hsome) (by simp)

/-- The boot block works exactly on the disks that have a `/bootcount` or a free inode to make one. -/
theorem bootWorks_iff {d₀ d : Disk} (h₀ : (d₀ 0).magic ≠ sfsMagic) (h : Reachable flat d₀ d)
    (hello : List UInt8) :
    BootWorks hello d ↔ ¬ IsAbsent d sfsRoot (ascii "bootcount") ∨ HasFreeInode d :=
  bootWorks_iff_good ⟨inv_reachable h₀ h, isDir_root (inv_reachable h₀ h)⟩ hello

theorem bootWorks_iff_blank : BootWorks (ascii "ELF") (sfsInit.run flat blankDisk).2 := by
  refine (bootWorks_iff blankDisk_magic .init _).mpr (Or.inr ?_)
  obtain ⟨e, hrun, -, hfree, -⟩ := run_format blankDisk
  refine ⟨1, by decide, ?_⟩
  rw [run_sfsInit_blank blankDisk_magic, hrun]
  exact hfree 1 (by decide) (by decide)

/-- A fresh disk after `n` files of the same long name have been made in the root. -/
def filledDisk : Nat → Disk
  | 0 => (sfsInit.run flat blankDisk).2
  | n + 1 => ((sfsCreate sfsRoot longName sfsFile).run flat (filledDisk n)).2

theorem filledDisk_zero : filledDisk 0 = (sfsInit.run flat blankDisk).2 := rfl

theorem filledDisk_succ (n : Nat) :
    filledDisk (n + 1) = ((sfsCreate sfsRoot longName sfsFile).run flat (filledDisk n)).2 := rfl

theorem reachable_filledDisk (n : Nat) : Reachable flat blankDisk (filledDisk n) := by
  induction n with
  | zero =>
    rw [filledDisk_zero]
    exact .init
  | succ n ih =>
    rw [filledDisk_succ]
    exact .step (.create sfsRoot longName sfsFile) ih ⟨isDir_root (inv_reachable blankDisk_magic ih), Or.inl rfl⟩

-- The inodes up to `n` are taken, and none of the names is `bootcount`.
theorem filledDisk_spec {n : Nat} (hn : n ≤ 63) :
    (∀ j, j < 64 → (typeAt (filledDisk n) j = sfsFree ↔ n < j)) ∧
      ∀ x ∈ entriesAt (filledDisk n) sfsRoot, x.str ≠ cstr (ascii "bootcount") := by
  induction n with
  | zero =>
    obtain ⟨e, hrun, hinv, hfree, a, b, hents, ha, hb⟩ := run_format blankDisk
    have heq : filledDisk 0 = e := by rw [filledDisk_zero, run_sfsInit_blank blankDisk_magic, hrun]
    rw [heq]
    constructor
    · intro j hj
      by_cases hj0 : j = 0
      · rw [hj0, hinv.names.root]
        decide
      · exact iff_of_true (hfree j hj hj0) (by omega)
    · intro x hx
      change x ∈ entriesAt e 0 at hx
      rw [hents] at hx
      rcases List.mem_cons.mp hx with rfl | hx
      · rw [ha.str]
        decide
      · rw [List.mem_singleton.mp hx, hb.str]
        decide
  | succ n ih =>
    obtain ⟨htypes, hnames⟩ := ih (by omega)
    have hinv := inv_reachable blankDisk_magic (reachable_filledDisk n)
    have hlong := hinv.findNamed_long (isDir_root hinv) (show 27 < strlen longName by decide)
    have hfirst : firstFree (filledDisk n) = some (n + 1) := by
      refine firstFree_eq (by omega) ((htypes _ (by omega)).mpr (by omega)) ?_
      intro i hi hfree
      have hlt := (htypes i (by omega)).mp hfree
      omega
    rcases run_sfsCreate hinv (show sfsRoot < 64 by decide) hinv.names.root longName (Or.inl rfl) with
      ⟨hwhy, -⟩ | ⟨ino, e, -, hfree, hrun, heff⟩
    · rw [hfirst] at hwhy
      exact absurd hlong (hwhy.resolve_right (by simp))
    · obtain rfl : n + 1 = ino := by simpa using hfirst.symm.trans hfree
      have heq : filledDisk (n + 1) = e := by rw [filledDisk_succ, hrun]
      rw [heq]
      constructor
      · intro j hj
        by_cases hjn : j = n + 1
        · rw [hjn, heff.typeIno]
          exact iff_of_false (by decide) (by omega)
        · by_cases hj0 : j = 0
          · rw [hj0]
            exact iff_of_false (by rw [show typeAt e 0 = sfsDir from heff.typeDir]; decide) (by omega)
          · rw [heff.frame.typeAt hj (not_or.mpr ⟨hj0, hjn⟩), htypes j hj]
            omega
      · obtain ⟨new, hnew, hperm⟩ := heff.added
        intro x hx
        rcases List.mem_cons.mp (hperm.mem_iff.mp hx) with rfl | hx
        · rw [hnew.str]
          decide
        · exact hnames x hx

-- Every inode is taken and there is no counter: `sfs_write` is called with `-1`.
theorem boot_full_table :
    Reachable flat blankDisk (filledDisk 63) ∧ none ∈ ((bootBlock []).run flat (filledDisk 63)).1 ∧
      ¬ BootWorks [] (filledDisk 63) := by
  have hreach := reachable_filledDisk 63
  have hinv := inv_reachable blankDisk_magic hreach
  have hgood : Good sfsRoot (filledDisk 63) := ⟨hinv, isDir_root hinv⟩
  obtain ⟨htypes, hnames⟩ := filledDisk_spec (Nat.le_refl 63)
  have hnone : (called (filledDisk 63) sfsRoot (ascii "bootcount")).head? = none := by
    rw [List.head?_eq_none_iff]
    exact named_eq_nil.mpr hnames
  have hfull : firstFree (filledDisk 63) = none := by
    rw [firstFree_none]
    intro j hj hfree
    have hlt := (htypes j hj).mp hfree
    omega
  rcases run_bootCounter_absent hgood hnone with ⟨-, hrun⟩ | ⟨hfree, -⟩
  · have hbad : none ∈ ((bootBlock []).run flat (filledDisk 63)).1 := by
      rw [bootBlock, Prog.run_bind, hrun]
      exact List.mem_singleton_self none
    refine ⟨hreach, hbad, fun hworks => ?_⟩
    obtain ⟨i, hi, -⟩ := hworks.inRange none hbad
    exact absurd hi (by simp)
  · exact absurd hfull hfree

end JacobOS.Boot
