import JacobOS.Fs.Bcache
import JacobOS.Fs.Runs

/-!
# Persistence across a reboot

The file system runs through the block cache.  A reboot throws the cache away: `bcache_init` and
`sfs_init` start again on the disk alone, with anything in the cache's memory.
-/

namespace JacobOS.Fs

open BlockProgram

/-- The queries of the public interface answer alike in `s` and `t`. -/
structure SameAnswers {σ τ : Type} (D : Device Nat Block σ) (E : Device Nat Block τ) (s : σ) (t : τ) :
    Prop where
  type : ∀ inode, ((sfsType inode).run D s).1 = ((sfsType inode).run E t).1
  size : ∀ inode, ((sfsSize inode).run D s).1 = ((sfsSize inode).run E t).1
  read : ∀ inode max, ((sfsRead inode max).run D s).1 = ((sfsRead inode max).run E t).1
  lookup : ∀ dir name, ((sfsLookup dir name).run D s).1 = ((sfsLookup dir name).run E t).1
  readdir : ∀ dir index, ((sfsReaddir dir index).run D s).1 = ((sfsReaddir dir index).run E t).1

theorem SameAnswers.of_flat {σ τ : Type} {D : Device Nat Block σ} {E : Device Nat Block τ}
    {R : σ → Disk → Prop} {Q : τ → Disk → Prop} (hD : Simulates D flat R) (hE : Simulates E flat Q)
    {s : σ} {t : τ} {d : Disk} (hs : R s d) (ht : Q t d) : SameAnswers D E s t := by
  have hsame : ∀ {α : Type} (p : SfsM α), (p.run D s).1 = (p.run E t).1 :=
    fun p => (hD.run p hs).1.trans (hE.run p ht).1.symm
  exact ⟨fun _ => hsame _, fun _ => hsame _, fun _ _ => hsame _, fun _ _ => hsame _,
    fun _ _ => hsame _⟩

-- A state that a simulating device reaches stands for one the flat disk reaches.
theorem Reachable.simulate {σ : Type} {D : Device Nat Block σ} {R : σ → Disk → Prop}
    (sim : Simulates D flat R) {s₀ s : σ} {d₀ : Disk} (h₀ : R s₀ d₀) (h : Reachable D s₀ s) :
    ∃ d, Reachable flat d₀ d ∧ R s d := by
  induction h with
  | init => exact ⟨_, .init, (sim.run sfsInit h₀).2⟩
  | step c _ hc ih =>
    obtain ⟨d, hd, hR⟩ := ih
    have hdir : ∀ {i}, IsDir D _ i → IsDir flat d i :=
      fun hi => ⟨hi.1, (sim.run (sfsType _) hR).1.symm.trans hi.2⟩
    refine ⟨_, .step c hd ?_, (sim.run c.prog hR).2⟩
    cases c with
    | create dir name type => exact ⟨hdir hc.1, hc.2⟩
    | write inode data len => exact hc
    | unlink dir name => exact hdir hc

/-- What a reboot does: the disk stays, the cache's memory is whatever `mem` says. -/
def reboot (mem c : Bcache) : Bcache := (sfsInit.run Bcache.device (mem.boot c.ata.disk)).2

/-- After a sync a reboot finds the file system as it was and does not format the disk. -/
theorem reboot_sameAnswers (mem mem' : Bcache) {d₀ : Disk} (h₀ : (d₀ 0).magic ≠ sfsMagic)
    {c : Bcache} (h : Reachable Bcache.device (mem.boot d₀) c) :
    ((mem'.boot c.sync.ata.disk).read 0).1.magic = sfsMagic ∧
      (reboot mem' c.sync).ata.disk = c.sync.ata.disk ∧
      SameAnswers Bcache.device Bcache.device (reboot mem' c.sync) c.sync := by
  obtain ⟨d, hd, href⟩ := h.simulate Bcache.simulates_flat (Bcache.boot_refines mem d₀)
  have hinv := inv_reachable h₀ hd
  have hdisk := Bcache.sync_disk href
  have hboot := Bcache.boot_refines mem' d
  have hmagic : ((mem'.boot d).read 0).1.magic = sfsMagic := by
    rw [(Bcache.read_refines hboot 0).1]
    exact hinv.magic
  -- mounting is one read of the superblock
  have hmount : reboot mem' c.sync = ((mem'.boot d).read 0).2 := by
    unfold reboot
    rw [hdisk, sfsInit, Prog.run_bind]
    show ((if ((mem'.boot d).read 0).1.magic ≠ sfsMagic then format else pure ()).run
      Bcache.device ((mem'.boot d).read 0).2).2 = _
    rw [if_neg (not_not.mpr hmagic)]
    rfl
  have hafter : (reboot mem' c.sync).Refines d := by
    rw [hmount]
    exact (Bcache.read_refines hboot 0).2
  refine ⟨by rw [hdisk]; exact hmagic, ?_, ?_⟩
  · rw [hmount, hdisk]
    exact Bcache.boot_read_disk mem' d 0
  · exact SameAnswers.of_flat Bcache.simulates_flat Bcache.simulates_flat hafter
      (Bcache.sync_refines href).1

/-- An empty cache. -/
def Bcache.empty : Bcache :=
  ⟨fun _ => ⟨0, false, false, Block.zero⟩, ⟨0, by decide⟩, 0, 0, Ata.ideal blankDisk⟩

-- A file is created on a fresh disk and the machine restarts.
theorem reboot_sameAnswers_blank :
    SameAnswers Bcache.device Bcache.device
      (reboot .empty ((Call.create 0 [0x61] sfsFile).prog.run Bcache.device
        (sfsInit.run Bcache.device (Bcache.empty.boot blankDisk)).2).2.sync)
      ((Call.create 0 [0x61] sfsFile).prog.run Bcache.device
        (sfsInit.run Bcache.device (Bcache.empty.boot blankDisk)).2).2.sync := by
  have hinit := Bcache.simulates_flat.run sfsInit (Bcache.boot_refines .empty blankDisk)
  have hroot := (Bcache.simulates_flat.run (sfsType 0) hinit.2).1.trans
    (isDir_root (inv_init blankDisk_magic)).2
  exact (reboot_sameAnswers .empty .empty blankDisk_magic
    (.step (.create 0 [0x61] sfsFile) .init ⟨⟨by decide, hroot⟩, Or.inl rfl⟩)).2.2

end JacobOS.Fs
