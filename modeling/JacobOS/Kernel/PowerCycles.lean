import JacobOS.Fs.Reboot
import JacobOS.Kernel.Boot

/-!
# The shell on a machine that is switched off and on

The commands run through the block cache, and `run_command` ends with `bcache_sync`.  A machine that has lost
its memory between two commands comes up with an empty cache, mounts the disk again and starts the shell in
the root directory.  But for the commands whose output is left out (`meminfo` is one of them), nobody at the
terminal can tell its history from one on a disk without a cache.
-/

namespace JacobOS.Shell

open BlockProgram CString Fs Boot Numerals

/-- `main` from `sfs_init` to the end of the boot block. -/
def mount (hello : List UInt8) : SfsM (List (Option Nat)) := do
  sfsInit
  bootBlock hello

inductive Event where
  /-- A line is entered.  `kmalloc` says which requests of its command are served. -/
  | line (kmalloc : UInt32 → Bool) (line : List UInt8)
  /-- The power goes off and on.  The memory of the cache is `mem` then. -/
  | restart (mem : Bcache)

/-- The command is one of those whose output is modelled. -/
def Modelled (line : List UInt8) : Prop := ∀ cmd ∈ (tokenize line 16).head?, otherCommands.any (isCmd cmd) = false

instance (line : List UInt8) : Decidable (Modelled line) :=
  inferInstanceAs (Decidable (∀ cmd ∈ (tokenize line 16).head?, otherCommands.any (isCmd cmd) = false))

/-- No line of the history has another command. -/
def AllModelled (es : List Event) : Prop := ∀ kmalloc line, .line kmalloc line ∈ es → Modelled line

/-- What an event shows: what the command printed, or the inodes that the boot block used. -/
inductive Seen where
  | printed (out : List UInt8)
  | mounted (calls : List (Option Nat))

section History

variable {σ : Type} (D : Device Nat Block σ) (power : Bcache → σ → σ) (hello : List UInt8) (fuel : Nat)

/-- One event, with the working directory.  `none` stands for a command that has not returned and for a boot
block that writes to inode `-1`. -/
def event : Event → Nat × σ → Option (Seen × Nat × σ)
  | .line kmalloc line, (cwd, s) =>
      match (runCommand fuel kmalloc cwd line).run D s with
      | (none, _) => none
      | (some (cwd, out), s) => some (.printed out, cwd, s)
  | .restart mem, (_, s) =>
      match (mount hello).run D (power mem s) with
      | (calls, s) => if calls.contains none then none else some (.mounted calls, sfsRoot, s)

/-- What the events show in turn, and the state after the last of them. -/
def history : List Event → Nat × σ → List Seen × Option (Nat × σ)
  | [], s => ([], some s)
  | e :: es, s =>
      match event D power hello fuel e s with
      | none => ([], none)
      | some (seen, s) => (seen :: (history es s).1, (history es s).2)

end History

/-- The machine with the cache: what is on the disk stays. -/
def cachedPower (mem c : Bcache) : Bcache := mem.boot c.ata.disk

/-- The machine without one. -/
def flatPower (_ : Bcache) (d : Disk) : Disk := d

/-! ## The disk between two commands -/

/-- The cache stands for `d`, and `d` is on the disk already. -/
structure Settled (c : Bcache) (d : Disk) : Prop where
  refines : c.Refines d
  disk : c.ata.disk = d

theorem settled_boot (mem : Bcache) (d : Disk) : Settled (mem.boot d) d :=
  ⟨Bcache.boot_refines mem d, rfl⟩

theorem settles_sync {α : Type} (a : α) :
    Settles Bcache.device Bcache.Refines (fun c => c.ata.disk) (.sync (.ret a) : SfsM α) :=
  .sync (fun _ _ h => Bcache.sync_disk h) a

theorem settles_bind {α β : Type} (p : SfsM α) {f : α → SfsM β}
    (hf : ∀ a, Settles Bcache.device Bcache.Refines (fun c => c.ata.disk) (f a)) :
    Settles Bcache.device Bcache.Refines (fun c => c.ata.disk) (p >>= f) :=
  .bind Bcache.simulates_flat p hf

theorem settles_finish (r : Nat × List UInt8) :
    Settles Bcache.device Bcache.Refines (fun c => c.ata.disk) (finish (some r)) :=
  (settles_sync ()).map fun _ => some r

-- Both ends of the second half of the boot block.
theorem settles_installHello (hello : List UInt8) :
    Settles Bcache.device Bcache.Refines (fun c => c.ata.disk) (installHello hello) := by
  apply settles_bind
  rintro (- | f)
  · exact (settles_sync ()).map fun _ => []
  · apply settles_bind
    intro _
    exact (settles_sync ()).map fun _ => [some f]

-- A line without words leaves everything as it is; any other command that returns ends with the sync.
theorem runCommand_settled (fuel : Nat) (kmalloc : UInt32 → Bool) (cwd : Nat) (line : List UInt8) {c : Bcache}
    {d : Disk} (h : Settled c d) :
    ((runCommand fuel kmalloc cwd line).run Bcache.device c).1 =
        ((runCommand fuel kmalloc cwd line).run flat d).1 ∧
      (((runCommand fuel kmalloc cwd line).run flat d).1 ≠ none →
        Settled ((runCommand fuel kmalloc cwd line).run Bcache.device c).2
          ((runCommand fuel kmalloc cwd line).run flat d).2) := by
  obtain ⟨hans, hrel⟩ := Bcache.simulates_flat.run (runCommand fuel kmalloc cwd line) h.refines
  refine ⟨hans, fun hret => ⟨hrel, ?_⟩⟩
  clear hans hrel
  unfold runCommand at hret ⊢
  cases htok : tokenize line 16 with
  | nil => exact h.disk
  | cons cmd args =>
    rw [htok] at hret
    dsimp only at hret ⊢
    obtain ⟨hans, hrel⟩ :=
      Bcache.simulates_flat.run (dispatch fuel kmalloc cwd cmd (cmd :: args)) h.refines
    rw [Prog.run_bind] at hret
    rw [Prog.run_bind, Prog.run_bind, hans]
    cases hr : ((dispatch fuel kmalloc cwd cmd (cmd :: args)).run flat d).1 with
    | none =>
      rw [hr] at hret
      exact absurd rfl hret
    | some r => exact settles_finish r _ _ hrel

theorem mount_settled (hello : List UInt8) {c : Bcache} {d : Disk} (h : c.Refines d) :
    ((mount hello).run Bcache.device c).1 = ((mount hello).run flat d).1 ∧
      (none ∉ ((mount hello).run flat d).1 →
        Settled ((mount hello).run Bcache.device c).2 ((mount hello).run flat d).2) := by
  obtain ⟨hans, hrel⟩ := Bcache.simulates_flat.run (mount hello) h
  refine ⟨hans, fun hin => ⟨hrel, ?_⟩⟩
  clear hans hrel
  unfold mount bootBlock at hin ⊢
  obtain ⟨-, hinit⟩ := Bcache.simulates_flat.run sfsInit h
  obtain ⟨hans, hrel⟩ := Bcache.simulates_flat.run bootCounter hinit
  rw [Prog.run_bind, Prog.run_bind] at hin
  rw [Prog.run_bind, Prog.run_bind, Prog.run_bind, Prog.run_bind, hans]
  -- with an inode to write to, the second half follows
  by_cases hnone : none ∈ (bootCounter.run flat (sfsInit.run flat d).2).1
  · rw [if_pos hnone] at hin
    exact absurd hnone hin
  · rw [if_neg hnone]
    exact (settles_installHello hello).map _ _ _ hrel

/-- What an event does on the two machines, from states that are alike. -/
inductive SameEvent : Option (Seen × Nat × Bcache) → Option (Seen × Nat × Disk) → Prop where
  | stuck : SameEvent none none
  | seen {c : Bcache} {d : Disk} (seen : Seen) (cwd : Nat) (h : Settled c d) :
      SameEvent (some (seen, cwd, c)) (some (seen, cwd, d))

theorem event_cached (hello : List UInt8) (fuel : Nat) (e : Event) (cwd : Nat) {c : Bcache} {d : Disk}
    (h : Settled c d) :
    SameEvent (event Bcache.device cachedPower hello fuel e (cwd, c))
      (event flat flatPower hello fuel e (cwd, d)) := by
  cases e with
  | line kmalloc line =>
    obtain ⟨hans, hset⟩ := runCommand_settled fuel kmalloc cwd line h
    unfold event
    dsimp only
    generalize (runCommand fuel kmalloc cwd line).run Bcache.device c = r at hans hset
    generalize (runCommand fuel kmalloc cwd line).run flat d = r' at hans hset
    obtain ⟨a, c'⟩ := r
    obtain ⟨a', d'⟩ := r'
    obtain rfl : a = a' := hans
    cases a with
    | none => exact .stuck
    | some a => exact .seen _ _ (hset (by simp))
  | restart mem =>
    have hboot : (cachedPower mem c).Refines d := by
      rw [cachedPower, h.disk]
      exact Bcache.boot_refines mem d
    obtain ⟨hans, hset⟩ := mount_settled hello hboot
    unfold event flatPower
    dsimp only
    rw [hans]
    by_cases hnone : none ∈ ((mount hello).run flat d).1
    · rw [if_pos (List.contains_iff_mem.mpr hnone), if_pos (List.contains_iff_mem.mpr hnone)]
      exact .stuck
    · rw [if_neg (mt List.contains_iff_mem.mp hnone), if_neg (mt List.contains_iff_mem.mp hnone)]
      exact .seen _ _ (hset hnone)

/-! ## Histories -/

/-- The states at the end of the two histories. -/
inductive SameEnd : Option (Nat × Bcache) → Option (Nat × Disk) → Prop where
  | stuck : SameEnd none none
  | here {c : Bcache} {d : Disk} (cwd : Nat) (h : Settled c d) : SameEnd (some (cwd, c)) (some (cwd, d))

theorem history_settled (hello : List UInt8) (fuel : Nat) (es : List Event) (cwd : Nat) {c : Bcache} {d : Disk}
    (h : Settled c d) :
    (history Bcache.device cachedPower hello fuel es (cwd, c)).1 =
        (history flat flatPower hello fuel es (cwd, d)).1 ∧
      SameEnd (history Bcache.device cachedPower hello fuel es (cwd, c)).2
        (history flat flatPower hello fuel es (cwd, d)).2 := by
  induction es generalizing cwd c d with
  | nil => exact ⟨rfl, .here cwd h⟩
  | cons e es ih =>
    have hev := event_cached hello fuel e cwd h
    rw [history, history]
    generalize event Bcache.device cachedPower hello fuel e (cwd, c) = r at hev
    generalize event flat flatPower hello fuel e (cwd, d) = r' at hev
    cases hev with
    | stuck => exact ⟨rfl, .stuck⟩
    | seen seen cwd' h' =>
      obtain ⟨hobs, hend⟩ := ih cwd' h'
      exact ⟨congrArg (seen :: ·) hobs, hend⟩

/-- Every history of command lines and power cycles shows through the cache what it shows on a disk without
one, where a power cycle loses nothing but the working directory; and between any two events all of the file
system is on the disk itself.  The nine commands whose output is left out are not among the lines: `meminfo`
prints how the cache is doing. -/
theorem history_cached (hello : List UInt8) (fuel : Nat) (mem : Bcache) (disk : Disk) (es : List Event)
    (_hes : AllModelled es) :
    (history Bcache.device cachedPower hello fuel es (sfsRoot, mem.boot disk)).1 =
        (history flat flatPower hello fuel es (sfsRoot, disk)).1 ∧
      (history Bcache.device cachedPower hello fuel es (sfsRoot, mem.boot disk)).2.map
          (fun s => (s.1, s.2.ata.disk)) =
        (history flat flatPower hello fuel es (sfsRoot, disk)).2 := by
  obtain ⟨hobs, hend⟩ := history_settled hello fuel es sfsRoot (settled_boot mem disk)
  refine ⟨hobs, ?_⟩
  generalize (history Bcache.device cachedPower hello fuel es (sfsRoot, mem.boot disk)).2 = r at hend
  generalize (history flat flatPower hello fuel es (sfsRoot, disk)).2 = r' at hend
  cases hend with
  | stuck => rfl
  | here cwd h =>
    rw [Option.map_some, h.disk]

theorem AllModelled.restart {es : List Event} (h : AllModelled es) (mem : Bcache) : AllModelled (.restart mem :: es) := by
  intro kmalloc line hin
  obtain hline | hin := List.mem_cons.mp hin
  · exact Event.noConfusion hline
  · exact h kmalloc line hin

theorem mkdir_modelled : AllModelled [.line (fun _ => true) (ascii "mkdir a"), .restart .empty] := by
  intro kmalloc line hin
  obtain hline | hin := List.mem_cons.mp hin
  · obtain rfl : line = ascii "mkdir a" := (Event.line.inj hline).2
    decide
  · exact Event.noConfusion (List.mem_singleton.mp hin)

-- A disk that was zero is formatted and gets a directory, and the power goes off and on.
theorem history_cached_mkdir :
    (history Bcache.device cachedPower (ascii "ELF") 64
        [.restart .empty, .line (fun _ => true) (ascii "mkdir a"), .restart .empty]
        (sfsRoot, Bcache.empty.boot fun _ => .zero)).1 =
      (history flat flatPower (ascii "ELF") 64
        [.restart .empty, .line (fun _ => true) (ascii "mkdir a"), .restart .empty] (sfsRoot, fun _ => .zero)).1 ∧
    (history Bcache.device cachedPower (ascii "ELF") 64
        [.restart .empty, .line (fun _ => true) (ascii "mkdir a"), .restart .empty]
        (sfsRoot, Bcache.empty.boot fun _ => .zero)).2.map (fun s => (s.1, s.2.ata.disk)) =
      (history flat flatPower (ascii "ELF") 64
        [.restart .empty, .line (fun _ => true) (ascii "mkdir a"), .restart .empty] (sfsRoot, fun _ => .zero)).2 :=
  history_cached (ascii "ELF") 64 .empty (fun _ => .zero) _ (mkdir_modelled.restart .empty)

/-! ## What is on the disk -/

/-- There is no `/bootcount`, and no inode is left to make one. -/
def NoCounter (d : Disk) : Prop := IsAbsent d sfsRoot (ascii "bootcount") ∧ ¬ HasFreeInode d

theorem good_bootCounter : Triple flat (Good sfsRoot) bootCounter fun _ => Good sfsRoot := by
  have hwrite : ∀ {f : Nat} (count : Int32), f < 64 →
      Triple flat (Good sfsRoot) (writeCount (some f) count) fun _ => Good sfsRoot :=
    fun _ hf => .bind (good_sfsWrite hf _ _) fun _ => .bind (fun _ hd => hd) fun _ => .ret fun _ hd => hd
  refine .bind (good_sfsLookup (by decide) _) ?_
  rintro (- | f)
  · refine .pull fun _ => .bind (good_sfsCreate _ (Or.inl rfl)) ?_
    rintro (- | f)
    · exact .pull fun _ => .ret fun _ hd => hd
    · exact .pull fun hf => hwrite 0 (hf f rfl)
  · refine .pull fun hf => .bind (readOnly_sfsRead f 15).triple fun b => ?_
    exact .bind (hwrite (atoi b) (hf f rfl)) fun _ => .ret fun _ hd => hd

theorem good_installHello (hello : List UInt8) :
    Triple flat (Good sfsRoot) (installHello hello) fun _ => Good sfsRoot := by
  refine .bind (good_lookupOrCreate (by decide) _) ?_
  rintro (- | f)
  · exact .pull fun _ => .bind (fun _ hd => hd) fun _ => .ret fun _ hd => hd
  · refine .pull fun hf => .bind (good_sfsWrite (hf f rfl) _ _) fun _ => ?_
    exact .bind (fun _ hd => hd) fun _ => .ret fun _ hd => hd

theorem good_bootBlock (hello : List UInt8) :
    Triple flat (Good sfsRoot) (bootBlock hello) fun _ => Good sfsRoot := by
  refine .bind good_bootCounter fun calls => .ite (.ret fun _ hd => hd) ?_
  exact .bind (good_installHello hello) fun _ => .ret fun _ hd => hd

theorem Good.root {cwd : Nat} {d : Disk} (h : Good cwd d) : Good sfsRoot d := ⟨h.1, isDir_root h.1⟩

-- A disk that holds a file system is mounted as it is.
theorem run_sfsInit_good {cwd : Nat} {d : Disk} (h : Good cwd d) : sfsInit.run flat d = ((), d) := by
  rw [sfsInit, Prog.run_bind, run_readBlock]
  dsimp only
  rw [if_neg (not_not.mpr h.1.magic)]
  rfl

/-- The boot block of a disk in order has an inode for the counter, or finds none. -/
theorem bootBlock_good (hello : List UInt8) {d : Disk} (h : Good sfsRoot d) :
    (NoCounter d ∧ none ∈ ((bootBlock hello).run flat d).1) ∨
      (none ∉ ((bootBlock hello).run flat d).1 ∧ Good sfsRoot ((bootBlock hello).run flat d).2) := by
  by_cases hno : NoCounter d
  · refine Or.inl ⟨hno, ?_⟩
    have hhead := (lookup_none_iff h _).mp hno.1
    rcases run_bootCounter_absent h hhead with ⟨-, hrun⟩ | ⟨hfree, -⟩
    · rw [bootBlock, Prog.run_bind, hrun]
      exact List.mem_singleton_self none
    · exact absurd (hasFreeInode_iff.mpr hfree) hno.2
  · have hworks := (bootWorks_iff_good h hello).mpr (by rwa [NoCounter, not_and_or, not_not] at hno)
    refine Or.inr ⟨fun hin => ?_, good_bootBlock hello d h⟩
    obtain ⟨i, hi, -⟩ := hworks.inRange none hin
    exact absurd hi (by simp)

/-- The lines of the history are not `rm -r ..` below the root. -/
def Guarded {σ : Type} (D : Device Nat Block σ) (power : Bcache → σ → σ) (hello : List UInt8) (fuel : Nat) :
    List Event → Nat × σ → Prop
  | [], _ => True
  | e :: es, s =>
      (∀ kmalloc line, e = .line kmalloc line → ¬ RemovesParent s.1 line) ∧
        ∀ seen s', event D power hello fuel e s = some (seen, s') → Guarded D power hello fuel es s'

-- One event on a disk in order.
theorem good_event (hello : List UInt8) {fuel : Nat} (hfuel : 64 ≤ fuel) (e : Event) {cwd : Nat} {d : Disk}
    (h : Good cwd d) (hok : ∀ kmalloc line, e = .line kmalloc line → ¬ RemovesParent cwd line) :
    (NoCounter d ∧ (∃ mem, e = .restart mem) ∧ event flat flatPower hello fuel e (cwd, d) = none) ∨
      ∃ seen cwd' d', event flat flatPower hello fuel e (cwd, d) = some (seen, cwd', d') ∧ Good cwd' d' := by
  cases e with
  | line kmalloc line =>
    rcases runCommand_outcome fuel kmalloc h.2.1 line d h with ⟨hless, -⟩ | ⟨cwd', out, heq, hout⟩
    · omega
    · rcases hout with ⟨hbad, -⟩ | ⟨-, hgood⟩
      · exact absurd hbad (hok kmalloc line rfl)
      · refine Or.inr ⟨.printed out, cwd', ((runCommand fuel kmalloc cwd line).run flat d).2, ?_, hgood⟩
        unfold event
        dsimp only
        rw [← Prod.mk.eta (p := (runCommand fuel kmalloc cwd line).run flat d), heq]
  | restart mem =>
    have hmount : (mount hello).run flat d = (bootBlock hello).run flat d := by
      rw [mount, Prog.run_bind, run_sfsInit_good h]
    rcases bootBlock_good hello h.root with ⟨hno, hin⟩ | ⟨hin, hgood⟩
    · refine Or.inl ⟨hno, ⟨mem, rfl⟩, ?_⟩
      unfold event flatPower
      dsimp only
      rw [hmount, if_pos (List.contains_iff_mem.mpr hin)]
    · refine Or.inr ⟨.mounted ((bootBlock hello).run flat d).1, sfsRoot, ((bootBlock hello).run flat d).2, ?_, hgood⟩
      unfold event flatPower
      dsimp only
      rw [hmount, if_neg (mt List.contains_iff_mem.mp hin)]

/-- What is on the disk is a file system in order, and the working directory is one of its directories. -/
def InOrder (s : Nat × Bcache) : Prop := Inv s.2.ata.disk ∧ CwdValid s.2.ata.disk s.1

/-- Every event leaves the machine in order, up to the end of the history or up to a boot, from a state in order,
that has no inode for the counter. -/
inductive Ordered (hello : List UInt8) (fuel : Nat) : List Event → Nat × Bcache → Prop where
  | nil (s : Nat × Bcache) : Ordered hello fuel [] s
  | cons {e : Event} {es : List Event} {s s' : Nat × Bcache} {seen : Seen}
      (hev : event Bcache.device cachedPower hello fuel e s = some (seen, s')) (hs : InOrder s')
      (h : Ordered hello fuel es s') : Ordered hello fuel (e :: es) s
  | fails {mem : Bcache} {es : List Event} {s : Nat × Bcache} (hs : InOrder s) (hno : NoCounter s.2.ata.disk)
      (hev : event Bcache.device cachedPower hello fuel (.restart mem) s = none) :
      Ordered hello fuel (.restart mem :: es) s

-- The event on the machine with the cache, from what it is on the flat disk.
theorem SameEvent.of_flat {r : Option (Seen × Nat × Bcache)} {seen : Seen} {cwd : Nat} {d : Disk}
    (h : SameEvent r (some (seen, cwd, d))) : ∃ c, r = some (seen, cwd, c) ∧ Settled c d := by
  cases h with
  | seen seen cwd h => exact ⟨_, rfl, h⟩

theorem SameEvent.of_stuck {r : Option (Seen × Nat × Bcache)} (h : SameEvent r none) : r = none := by
  cases h with
  | stuck => rfl

theorem Good.inOrder {cwd : Nat} {c : Bcache} {d : Disk} (h : Good cwd d) (hset : Settled c d) : InOrder (cwd, c) := by
  rw [InOrder, hset.disk]
  exact ⟨h.1, h.cwdValid⟩

theorem ordered_good (hello : List UInt8) {fuel : Nat} (hfuel : 64 ≤ fuel) (es : List Event) {cwd : Nat}
    {c : Bcache} {d : Disk} (h : Settled c d) (hgood : Good cwd d)
    (hes : Guarded Bcache.device cachedPower hello fuel es (cwd, c)) : Ordered hello fuel es (cwd, c) := by
  induction es generalizing cwd c d with
  | nil => exact .nil _
  | cons e es ih =>
    have hsame := event_cached hello fuel e cwd h
    rcases good_event hello hfuel e hgood hes.1 with ⟨hno, ⟨mem, rfl⟩, hev⟩ | ⟨seen, cwd', d', hev, hgood'⟩
    · rw [hev] at hsame
      refine .fails (hgood.inOrder h) ?_ hsame.of_stuck
      rw [h.disk]
      exact hno
    · rw [hev] at hsame
      obtain ⟨c', hev', h'⟩ := hsame.of_flat
      exact .cons hev' (hgood'.inOrder h') (ih h' hgood' (hes.2 _ _ hev'))

-- The first boot on a disk without a file system formats it.
theorem event_blank (hello : List UInt8) (fuel cwd : Nat) (mem : Bcache) {d : Disk}
    (h : (d 0).magic ≠ sfsMagic) :
    ∃ seen d', event flat flatPower hello fuel (.restart mem) (cwd, d) = some (seen, sfsRoot, d') ∧
      Good sfsRoot d' := by
  obtain ⟨e, hrun, hinv, hfree, -⟩ := run_format d
  have hmount : (mount hello).run flat d = (bootBlock hello).run flat e := by
    rw [mount, Prog.run_bind, run_sfsInit_blank h, hrun]
  rcases bootBlock_good hello ⟨hinv, isDir_root hinv⟩ with ⟨hno, -⟩ | ⟨hin, hgood⟩
  · exact absurd ⟨1, by decide, hfree 1 (by decide) (by decide)⟩ hno.2
  · refine ⟨.mounted ((bootBlock hello).run flat e).1, ((bootBlock hello).run flat e).2, ?_, hgood⟩
    unfold event flatPower
    dsimp only
    rw [hmount, if_neg (mt List.contains_iff_mem.mp hin)]

/-- Whenever the power may go off between two commands, what is on the disk is a file system in order, and the
working directory is one of its directories.  Nothing but a boot on a disk without `/bootcount` and without a
free inode stops the machine, as long as no line has one of the nine commands whose output is left out: a program
that `exec` runs may stop it. -/
theorem history_in_order (hello : List UInt8) {fuel : Nat} (hfuel : 64 ≤ fuel) (mem mem' : Bcache) {disk : Disk}
    (hdisk : Inv disk ∨ (disk 0).magic ≠ sfsMagic) (es : List Event) (_hlines : AllModelled es)
    (hes : Guarded Bcache.device cachedPower hello fuel (.restart mem' :: es) (sfsRoot, mem.boot disk)) :
    Ordered hello fuel (.restart mem' :: es) (sfsRoot, mem.boot disk) := by
  have hset := settled_boot mem disk
  rcases hdisk with hinv | hblank
  · exact ordered_good hello hfuel _ hset ⟨hinv, isDir_root hinv⟩ hes
  · obtain ⟨seen, d, hev, hgood⟩ := event_blank hello fuel sfsRoot mem' hblank
    have hsame := event_cached hello fuel (.restart mem') sfsRoot hset
    rw [hev] at hsame
    obtain ⟨c, hev', h'⟩ := hsame.of_flat
    exact .cons hev' (hgood.inOrder h') (ordered_good hello hfuel es h' hgood (hes.2 _ _ hev'))

theorem event_restart_cwd {hello : List UInt8} {fuel : Nat} {mem : Bcache} {s s' : Nat × Bcache} {seen : Seen}
    (h : event Bcache.device cachedPower hello fuel (.restart mem) s = some (seen, s')) : s'.1 = sfsRoot := by
  unfold event at h
  dsimp only at h
  split at h
  · cases h
  · cases h
    rfl

-- A blank disk is formatted, gets a directory, and is mounted again.
theorem history_in_order_blank :
    Ordered (ascii "ELF") 64 [.restart .empty, .line (fun _ => true) (ascii "mkdir a"), .restart .empty]
      (sfsRoot, Bcache.empty.boot blankDisk) := by
  apply history_in_order (ascii "ELF") (Nat.le_refl 64) .empty .empty (Or.inr blankDisk_magic) _ mkdir_modelled
  refine ⟨fun _ _ h => (Event.noConfusion h), fun seen s hev => ⟨?_, ?_⟩⟩
  · rw [event_restart_cwd hev]
    exact fun _ line _ => not_removesParent_root line
  · exact fun _ _ _ => ⟨fun _ _ h => (Event.noConfusion h), fun _ _ _ => trivial⟩

end JacobOS.Shell
