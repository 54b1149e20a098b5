import JacobOS.Kernel.PowerCycles
import JacobOS.Kernel.TreeSession

/-!
# Histories on a tree

The boot block on a tree, and then whole histories of lines and power cycles: through the cache, the blocks and the
inodes the machine shows what a machine shows that keeps a tree in its head and forgets only the working directory.
-/

namespace JacobOS.Shell

open BlockProgram CString Fs FileTree Boot Numerals

namespace OnTree

/-- Another boot in `/bootcount`.  What is not a file is left alone. -/
def bootCounter (t : FsTree) : List (Option Nat) × FsTree :=
  match lookup t sfsRoot (ascii "bootcount") with
  | none =>
      let r := create t sfsRoot (ascii "bootcount") newFile
      match r.1 with
      | none => ([none], r.2)
      | some f => ([some f], write r.2 f (itoa (0 + 1)))
  | some f => ([some f, some f], write t f (itoa (atoi ((dataOf (t f)).take 15) + 1)))

def installHello (hello : List UInt8) (t : FsTree) : List (Option Nat) × FsTree :=
  let r := lookupOrCreate t sfsRoot (ascii "hello")
  match r.1 with
  | none => ([], r.2)
  | some f => ([some f], write r.2 f (hello.take (UInt32.ofNat hello.length).toNat))

/-- The boot block: the inodes that it uses, and the tree afterwards. -/
def boot (hello : List UInt8) (t : FsTree) : List (Option Nat) × FsTree :=
  let r := bootCounter t
  if r.1.contains none then r else
    let more := installHello hello r.2
    (r.1 ++ more.1, more.2)

noncomputable def event (hello : List UInt8) : Event → Nat × FsTree → Option (Seen × Nat × FsTree)
  | .line kmalloc line, (cwd, t) =>
      let r := runCommand kmalloc t cwd line
      some (.printed r.1.2, r.1.1, r.2)
  | .restart _, (_, t) =>
      let r := boot hello t
      if r.1.contains none then none else some (.mounted r.1, sfsRoot, r.2)

noncomputable def history (hello : List UInt8) : List Event → Nat × FsTree → List Seen × Option (Nat × FsTree)
  | [], s => ([], some s)
  | e :: es, s =>
      match event hello e s with
      | none => ([], none)
      | some (seen, s) => (seen :: (history hello es s).1, (history hello es s).2)

/-- No line is `rm -r ..` below the root. -/
def Guarded (hello : List UInt8) : List Event → Nat × FsTree → Prop
  | [], _ => True
  | e :: es, s =>
      (∀ kmalloc line, e = .line kmalloc line → ¬ RemovesParent s.1 line) ∧
        ∀ seen s', event hello e s = some (seen, s') → Guarded hello es s'

end OnTree

/-! ## The boot block -/

theorem follows_writeSync {d : Disk} (h : Inv d) {f : Nat} (hf : f < 64) (data : Nat → UInt8) (len : Nat) :
    Follows d (writeSync f data len) ([some f], write (treeOf d) f ((List.range len).map data)) := by
  obtain ⟨r, e, hrun, htree, hinv⟩ := follows_write h hf data len
  refine ⟨e, ?_, htree, hinv⟩
  rw [run_writeSync, hrun]

theorem follows_writeCount {d : Disk} (h : Inv d) {f : Nat} (hf : f < 64) (count : Int32) :
    Follows d (writeCount (some f) count) ([some f], write (treeOf d) f (itoa (count + 1))) := by
  have hwrite := follows_writeSync h hf (bufferOf (itoa (count + 1))) (itoa (count + 1)).length
  rwa [map_bufferOf] at hwrite

-- What a directory called `bootcount` holds does not matter.
theorem write_counter {d : Disk} (h : Inv d) {f : Nat} (hf : f < 64) :
    write (treeOf d) f (itoa (atoi ((contentAt d f).take 15) + 1)) =
      write (treeOf d) f (itoa (atoi ((OnTree.dataOf (treeOf d f)).take 15) + 1)) := by
  unfold write
  cases hnode : treeOf d f with
  | none => rfl
  | some n =>
    cases n with
    | dir s => rfl
    | file data =>
      rw [(file_of_kind h hf hnode).2.1]
      rfl

section Root

variable {d : Disk} (h : Good sfsRoot d)

include h

theorem follows_bootCounter : Follows d bootCounter (OnTree.bootCounter (treeOf d)) := by
  have hname : cstr (ascii "bootcount") = ascii "bootcount" := by decide
  unfold bootCounter OnTree.bootCounter
  apply Follows.read (run_lookup_tree h.1 h.2.1 _)
  rw [hname]
  cases hlook : lookup (treeOf d) sfsRoot (ascii "bootcount") with
  | none =>
    have hmake : Follows d (sfsCreate sfsRoot (ascii "bootcount") sfsFile)
        (create (treeOf d) sfsRoot (ascii "bootcount") newFile) := follows_create h.1 h.2.1 h.2.2 _ (Or.inl rfl)
    refine hmake.bind fun e hrun hinv htree => ?_
    dsimp only
    rw [← htree]
    cases hr : (create (treeOf d) sfsRoot (ascii "bootcount") newFile).1 with
    | none => exact .ret hinv _
    | some f =>
      apply follows_writeCount hinv
      apply (good_sfsCreate (ascii "bootcount") (Or.inl rfl) d h).2 f
      obtain ⟨e', hrun', -⟩ := hmake
      rw [hrun']
      exact hr
  | some f =>
    have hf := lookup_lt h.1 h.2.1 (by decide) hlook
    apply Follows.read (run_sfsRead f 15 d)
    refine (follows_writeCount h.1 hf _).bind fun e _ hinv htree => ?_
    rw [write_counter h.1 hf] at htree
    dsimp only at htree ⊢
    rw [← htree]
    exact .ret hinv _

theorem follows_installHello (hello : List UInt8) :
    Follows d (installHello hello) (OnTree.installHello hello (treeOf d)) := by
  have hname : cstr (ascii "hello") = ascii "hello" := by decide
  have hmake := follows_lookupOrCreate h (ascii "hello")
  unfold installHello OnTree.installHello
  rw [hname] at hmake
  refine hmake.bind fun e hrun hinv htree => ?_
  dsimp only
  rw [← htree]
  cases hr : (OnTree.lookupOrCreate (treeOf d) sfsRoot (ascii "hello")).1 with
  | none => exact ⟨e, rfl, rfl, hinv⟩
  | some f =>
    have hf : f < 64 := by
      apply lookupOrCreate_lt h (ascii "hello")
      rw [hname]
      exact hr
    have hle : (UInt32.ofNat hello.length).toNat ≤ hello.length := by
      rw [UInt32.toNat_ofNat']
      exact Nat.mod_le _ _
    have hwrite := follows_writeSync hinv hf (bufferOf hello) (UInt32.ofNat hello.length).toNat
    rw [← Nat.min_eq_right hle, map_bufferOf_cut] at hwrite
    rwa [Nat.min_eq_right hle] at hwrite

theorem follows_bootBlock (hello : List UInt8) : Follows d (bootBlock hello) (OnTree.boot hello (treeOf d)) := by
  unfold bootBlock OnTree.boot
  refine (follows_bootCounter h).bind fun e hrun hinv htree => ?_
  have hgood : Good sfsRoot e := hrun ▸ good_bootCounter d h
  dsimp only
  by_cases hnone : none ∈ (OnTree.bootCounter (treeOf d)).1
  · rw [if_pos hnone, if_pos (List.contains_iff_mem.mpr hnone)]
    exact ⟨e, rfl, htree, hinv⟩
  · rw [if_neg hnone, if_neg (mt List.contains_iff_mem.mp hnone), ← htree]
    refine (follows_installHello hgood hello).bind fun g _ hinv' htree' => ?_
    rw [← htree']
    exact .ret hinv' _

end Root

/-! ## Events -/

/-- An event on the disk shows what it shows on the tree, and leaves a disk in order with that tree. -/
inductive EventFollows : Option (Seen × Nat × Disk) → Option (Seen × Nat × FsTree) → Prop where
  | stuck : EventFollows none none
  | seen {d : Disk} (seen : Seen) (cwd : Nat) (h : Good cwd d) :
      EventFollows (some (seen, cwd, d)) (some (seen, cwd, treeOf d))

-- After `sfs_init` the boot block runs on `e`.
theorem eventFollows_restart (hello : List UInt8) (fuel : Nat) (mem : Bcache) (cwd : Nat) {d e : Disk}
    (hinit : sfsInit.run flat d = ((), e)) (he : Good sfsRoot e) (t : Nat × FsTree) (ht : t.2 = treeOf e) :
    EventFollows (event flat flatPower hello fuel (.restart mem) (cwd, d)) (OnTree.event hello (.restart mem) t) := by
  obtain ⟨g, hrun, htree, -⟩ := follows_bootBlock he hello
  have hmount : (mount hello).run flat d = ((OnTree.boot hello (treeOf e)).1, g) := by
    rw [mount, Prog.run_bind, hinit, hrun]
  obtain ⟨cwd', t⟩ := t
  unfold event OnTree.event flatPower
  dsimp only at ht ⊢
  rw [hmount, ht]
  dsimp only
  split
  · exact .stuck
  · have hgood := good_bootBlock hello e he
    rw [hrun] at hgood
    rw [← htree]
    exact .seen _ _ hgood

theorem eventFollows_good (hello : List UInt8) {fuel : Nat} (hfuel : 64 ≤ fuel) (e : Event) {cwd : Nat} {d : Disk}
    (h : Good cwd d) (hok : ∀ kmalloc line, e = .line kmalloc line → ¬ RemovesParent cwd line) :
    EventFollows (event flat flatPower hello fuel e (cwd, d)) (OnTree.event hello e (cwd, treeOf d)) := by
  cases e with
  | restart mem => exact eventFollows_restart hello fuel mem cwd (run_sfsInit_good h) h.root (cwd, treeOf d) rfl
  | line kmalloc line =>
    obtain ⟨g, hrun, htree, -⟩ := follows_runCommand h hfuel kmalloc line
    have hend := runCommand_outcome fuel kmalloc h.2.1 line d h
    rw [hrun] at hend
    unfold event OnTree.event
    dsimp only at htree ⊢
    rw [hrun, ← htree]
    rcases hend with ⟨hless, -⟩ | ⟨cwd', out, heq, hbad | hgood⟩
    · omega
    · exact absurd hbad.1 (hok kmalloc line rfl)
    · obtain rfl := congrArg Prod.fst (Option.some.inj heq)
      exact .seen _ _ hgood.2

/-! ## Histories -/

/-- What two histories show, and where they end. -/
def HistoryFollows (r : List Seen × Option (Nat × Disk)) (r' : List Seen × Option (Nat × FsTree)) : Prop :=
  r.1 = r'.1 ∧ r.2.map (fun s => (s.1, treeOf s.2)) = r'.2

theorem HistoryFollows.cons {hello : List UInt8} {fuel : Nat} {e : Event} {es : List Event} {s : Nat × Disk}
    {s' : Nat × FsTree} (hev : EventFollows (event flat flatPower hello fuel e s) (OnTree.event hello e s'))
    (h : ∀ seen cwd d, OnTree.event hello e s' = some (seen, cwd, treeOf d) → Good cwd d →
      HistoryFollows (history flat flatPower hello fuel es (cwd, d)) (OnTree.history hello es (cwd, treeOf d))) :
    HistoryFollows (history flat flatPower hello fuel (e :: es) s) (OnTree.history hello (e :: es) s') := by
  rw [history, OnTree.history]
  generalize event flat flatPower hello fuel e s = r at hev
  generalize OnTree.event hello e s' = r' at hev h
  cases hev with
  | stuck => exact ⟨rfl, rfl⟩
  | seen seen cwd hgood =>
    obtain ⟨hobs, hend⟩ := h seen cwd _ rfl hgood
    exact ⟨congrArg (seen :: ·) hobs, hend⟩

theorem historyFollows_good (hello : List UInt8) {fuel : Nat} (hfuel : 64 ≤ fuel) (es : List Event) {cwd : Nat}
    {d : Disk} (h : Good cwd d) (hes : OnTree.Guarded hello es (cwd, treeOf d)) :
    HistoryFollows (history flat flatPower hello fuel es (cwd, d)) (OnTree.history hello es (cwd, treeOf d)) := by
  induction es generalizing cwd d with
  | nil => exact ⟨rfl, rfl⟩
  | cons e es ih =>
    apply HistoryFollows.cons (eventFollows_good hello hfuel e h hes.1)
    intro seen cwd' d' hev hgood
    exact ih hgood (hes.2 _ _ hev)

/-- The tree that a disk stands for: its own, or the one that `sfs_init` makes. -/
def mountedTree (disk : Disk) : FsTree := if (disk 0).magic = sfsMagic then treeOf disk else formatted

/-- From the first boot on a disk in order, or on one that holds no file system, the machine with its cache shows
what the tree shows, line after line and boot after boot, and its disk holds that tree whenever the power goes off.
The nine commands whose output is left out are not among the lines. -/
theorem history_follows_tree (hello : List UInt8) {fuel : Nat} (hfuel : 64 ≤ fuel) (mem mem' : Bcache) {disk : Disk}
    (hdisk : Inv disk ∨ (disk 0).magic ≠ sfsMagic) (es : List Event) (_hlines : AllModelled es)
    (hes : OnTree.Guarded hello (.restart mem' :: es) (sfsRoot, mountedTree disk)) :
    (history Bcache.device cachedPower hello fuel (.restart mem' :: es) (sfsRoot, mem.boot disk)).1 =
        (OnTree.history hello (.restart mem' :: es) (sfsRoot, mountedTree disk)).1 ∧
      (history Bcache.device cachedPower hello fuel (.restart mem' :: es) (sfsRoot, mem.boot disk)).2.map
          (fun s => (s.1, treeOf s.2.ata.disk)) =
        (OnTree.history hello (.restart mem' :: es) (sfsRoot, mountedTree disk)).2 := by
  obtain ⟨e, hinit, hgood, htree⟩ : ∃ e, sfsInit.run flat disk = ((), e) ∧ Good sfsRoot e ∧
      mountedTree disk = treeOf e := by
    unfold mountedTree
    rcases hdisk with hinv | hblank
    · have hgood : Good sfsRoot disk := ⟨hinv, isDir_root hinv⟩
      exact ⟨disk, run_sfsInit_good hgood, hgood, if_pos hinv.magic⟩
    · obtain ⟨e, hrun, hinv, -⟩ := run_format disk
      refine ⟨e, (run_sfsInit_blank hblank).trans hrun, ⟨hinv, isDir_root hinv⟩, ?_⟩
      rw [if_neg hblank, ← treeOf_format disk, hrun]
  have hflat : HistoryFollows (history flat flatPower hello fuel (.restart mem' :: es) (sfsRoot, disk))
      (OnTree.history hello (.restart mem' :: es) (sfsRoot, mountedTree disk)) := by
    apply HistoryFollows.cons (eventFollows_restart hello fuel mem' sfsRoot hinit hgood _ htree)
    intro seen cwd d hev hd
    exact historyFollows_good hello hfuel es hd (hes.2 _ _ hev)
  obtain ⟨hobs, hend⟩ := history_settled hello fuel (.restart mem' :: es) sfsRoot (settled_boot mem disk)
  refine ⟨hobs.trans hflat.1, ?_⟩
  rw [← hflat.2]
  generalize (history Bcache.device cachedPower hello fuel (.restart mem' :: es) (sfsRoot, mem.boot disk)).2 = r at hend
  generalize (history flat flatPower hello fuel (.restart mem' :: es) (sfsRoot, disk)).2 = r' at hend
  cases hend with
  | stuck => rfl
  | here cwd h => rw [Option.map_some, Option.map_some, h.disk]

theorem event_restart_root {hello : List UInt8} {mem : Bcache} {s s' : Nat × FsTree} {seen : Seen}
    (h : OnTree.event hello (.restart mem) s = some (seen, s')) : s'.1 = sfsRoot := by
  unfold OnTree.event at h
  dsimp only at h
  split at h
  · cases h
  · cases h
    rfl

-- A blank disk, a directory, and another boot.
theorem history_follows_tree_blank :
    (history Bcache.device cachedPower (ascii "ELF") 64
        [.restart .empty, .line (fun _ => true) (ascii "mkdir a"), .restart .empty]
        (sfsRoot, Bcache.empty.boot blankDisk)).1 =
      (OnTree.history (ascii "ELF") [.restart .empty, .line (fun _ => true) (ascii "mkdir a"), .restart .empty]
        (sfsRoot, mountedTree blankDisk)).1 := by
  apply (history_follows_tree (ascii "ELF") (Nat.le_refl 64) .empty .empty (Or.inr blankDisk_magic) _
    mkdir_modelled ?_).1
  refine ⟨fun _ _ h => (Event.noConfusion h), fun seen s hev => ⟨?_, ?_⟩⟩
  · rw [event_restart_root hev]
    exact fun _ line _ => not_removesParent_root line
  · exact fun _ _ _ => ⟨fun _ _ h => (Event.noConfusion h), fun _ _ _ => trivial⟩

end JacobOS.Shell
