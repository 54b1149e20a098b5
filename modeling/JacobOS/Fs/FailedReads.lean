import JacobOS.Fs.Faults

/-!
# Failed reads

`bcache_read` names the slot it takes after the new block whether or not `ata_read_sector` succeeded,
so a failed read leaves the bytes of another block under its name.  The reads that do not fail stay
right exactly if every such slot is overwritten or evicted before the block is read again.
-/

namespace JacobOS.Fs.Bcache

/-- Block `b` is in a valid slot that holds something else. -/
def Spoilt (c : Bcache) (d : Nat → Block) (b : Nat) : Prop :=
  ∃ i, (c.slots i).valid = true ∧ (c.slots i).blk = b ∧ (c.slots i).data ≠ d b

/-- The operation has to give a slot to another block. -/
def Misses (c : Bcache) : Op → Prop
  | .read blk => c.find blk = none
  | .write blk _ => c.find blk = none
  | .sync => False

/-- The operation reads block `b` and fails, and the slot it takes holds other bytes. -/
def Spoils (c : Bcache) (op : Op) (b : Nat) : Prop :=
  op = .read b ∧ c.find b = none ∧ c.ata.readOk c.ata.nreads = false ∧
    (c.slots c.hand).data ≠ c.ata.disk b

/-- The operation overwrites block `b`, or evicts it. -/
def Mends (c : Bcache) (op : Op) (b : Nat) : Prop :=
  op.Writes b ∨ (c.Misses op ∧ (c.slots c.hand).valid = true ∧ (c.slots c.hand).blk = b)

namespace Tracks

variable {c : Bcache} {d : Nat → Block}

-- The slot that a miss takes: what it held before is gone.
theorem spoilt_put (h : c.Tracks d) {e : Bcache} {s : Slot} (hs : s.valid = true)
    (hslots : e.slots = Function.update c.slots c.hand s) {d' : Nat → Block} {b : Nat}
    (hfresh : ∀ i, (c.slots i).valid = true → (c.slots i).blk ≠ s.blk)
    (hother : b ≠ s.blk → d' b = d b) :
    e.Spoilt d' b ↔ (s.blk = b ∧ s.data ≠ d' b) ∨
      (c.Spoilt d b ∧ ¬ ((c.slots c.hand).valid = true ∧ (c.slots c.hand).blk = b)) := by
  unfold Spoilt
  rw [hslots]
  constructor
  · rintro ⟨i, hv, hb, hne⟩
    by_cases hi : i = c.hand
    · rw [hi, Function.update_self] at hb hne
      exact Or.inl ⟨hb, hne⟩
    · rw [Function.update_of_ne hi] at hv hb hne
      rw [hother (hb ▸ hfresh i hv)] at hne
      exact Or.inr ⟨⟨i, hv, hb, hne⟩, fun ⟨hvh, hbh⟩ => hi (h.unique i c.hand hv hvh (hb.trans hbh.symm))⟩
  · rintro (⟨hb, hne⟩ | ⟨⟨i, hv, hb, hne⟩, hhand⟩)
    · exact ⟨c.hand, by rw [Function.update_self]; exact ⟨hs, hb, hne⟩⟩
    · have hi : i ≠ c.hand := by
        rintro rfl
        exact hhand ⟨hv, hb⟩
      refine ⟨i, ?_⟩
      rw [Function.update_of_ne hi, hother (hb ▸ hfresh i hv)]
      exact ⟨hv, hb, hne⟩

-- A block outside the cache that is safe is on disk, and stays there while another one is evicted.
theorem fetched_ok {b : Nat} (hsafe : c.Safe d b) (hf : c.find b = none) :
    c.ata.disk b = d b ∧ (c.ata.readOk c.ata.nreads = true → c.fetched b = d b) := by
  have hdisk : c.ata.disk b = d b := by
    refine hsafe.resolve_right ?_
    rintro ⟨i, hv, -, hb⟩
    exact find_none hf i hv hb
  refine ⟨hdisk, fun hok => ?_⟩
  have hmem : b ∉ (c.slots c.hand).pending.map Prod.fst := by
    intro hmem
    obtain ⟨w, hw, rfl⟩ := List.mem_map.mp hmem
    obtain ⟨⟨hv, -⟩, rfl⟩ := Slot.mem_pending.mp hw
    exact find_none hf c.hand hv rfl
  rw [fetched, if_pos hok, Ata.writeAll_other _ hmem, hdisk]

-- A read that misses leaves other bytes in its slot exactly if it fails on such a slot.
theorem spoils_read_iff {blk b : Nat} (hsafe : c.Safe d blk) (hf : c.find blk = none) :
    c.Spoils (.read blk) b ↔ blk = b ∧ c.fetched blk ≠ d b := by
  obtain ⟨hdisk, hok⟩ := fetched_ok hsafe hf
  constructor
  · rintro ⟨he, -, hfail, hne⟩
    obtain rfl := Op.read.inj he
    rw [fetched, if_neg (by simp [hfail]), ← hdisk]
    exact ⟨rfl, hne⟩
  · rintro ⟨rfl, hne⟩
    have hfail : c.ata.readOk c.ata.nreads = false := by
      by_contra hcon
      exact hne (hok (by simpa using hcon))
    rw [fetched, if_neg (by simp [hfail])] at hne
    exact ⟨rfl, hf, hfail, hdisk.symm ▸ hne⟩

theorem spoilt_read (h : c.Tracks d) (hsafe : ∀ b, c.Safe d b) (blk b : Nat) :
    (c.read blk).2.Spoilt d b ↔
      (c.Spoilt d b ∧ ¬ c.Mends (.read blk) b) ∨ c.Spoils (.read blk) b := by
  cases hf : c.find blk with
  | some i =>
    have hkeep : ¬ c.Spoils (.read blk) b := by
      rintro ⟨he, hnone, -⟩
      rw [← Op.read.inj he, hf] at hnone
      exact absurd hnone (by simp)
    have hstay : ¬ c.Mends (.read blk) b := by
      rintro (hw | ⟨hm, -⟩)
      · exact not_writes_read b blk hw
      · exact absurd (hf.symm.trans hm) (by simp)
    rw [read_hit hf, or_iff_left hkeep, and_iff_left hstay]
    rfl
  | none =>
    have hmend : c.Mends (.read blk) b ↔
        (c.slots c.hand).valid = true ∧ (c.slots c.hand).blk = b := by
      unfold Mends
      rw [or_iff_right (not_writes_read b blk)]
      exact and_iff_right hf
    rw [read_miss hf, spoils_read_iff (hsafe blk) hf, hmend, or_comm]
    exact h.spoilt_put (s := ⟨blk, true, false, c.fetched blk⟩) rfl rfl
      (fun i hv => find_none hf i hv) fun _ => rfl

-- The written block holds its data, in one slot only; the others are as they were.
theorem spoilt_write (h : c.Tracks d) (blk : Nat) (buf : Block) (b : Nat) :
    (c.write blk buf).Spoilt (Function.update d blk buf) b ↔
      c.Spoilt d b ∧ ¬ c.Mends (.write blk buf) b := by
  cases hf : c.find blk with
  | some i =>
    obtain ⟨hv, hb⟩ := find_some hf
    have hmend : c.Mends (.write blk buf) b ↔ blk = b := by
      unfold Mends
      rw [writes_write_iff, or_iff_left]
      rintro ⟨hm, -⟩
      exact absurd (hf.symm.trans hm) (by simp)
    rw [write_hit hf, hmend]
    unfold Spoilt setSlot
    dsimp only
    by_cases hbb : blk = b
    · refine iff_of_false ?_ fun hs => hs.2 hbb
      rintro ⟨j, hvj, hbj, hne⟩
      rw [hbb, Function.update_self] at hne
      by_cases hji : j = i
      · rw [hji, Function.update_self] at hne
        exact hne rfl
      · rw [Function.update_of_ne hji] at hvj hbj
        exact hji (h.unique j i hvj hv (hbj.trans (hbb.symm.trans hb.symm)))
    · rw [and_iff_left hbb]
      refine exists_congr fun j => ?_
      rw [Function.update_of_ne (Ne.symm hbb)]
      by_cases hji : j = i
      · have hne : (c.slots i).blk ≠ b := fun he => hbb (hb.symm.trans he)
        rw [hji, Function.update_self]
        simp [hne]
      · rw [Function.update_of_ne hji]
  | none =>
    have hmend : c.Mends (.write blk buf) b ↔
        blk = b ∨ ((c.slots c.hand).valid = true ∧ (c.slots c.hand).blk = b) := by
      unfold Mends
      rw [writes_write_iff]
      exact or_congr_right (and_iff_right hf)
    have hdata : ¬ (blk = b ∧ buf ≠ Function.update d blk buf b) := by
      rintro ⟨rfl, hne⟩
      exact hne (Function.update_self blk buf d).symm
    have hgone : c.Spoilt d b → blk ≠ b := by
      rintro ⟨i, hv, hb, -⟩ rfl
      exact find_none hf i hv hb
    have hput : (c.write blk buf).Spoilt (Function.update d blk buf) b ↔ _ :=
      h.spoilt_put (s := ⟨blk, true, true, buf⟩) rfl (by rw [write_miss hf])
        (fun i hv => find_none hf i hv) fun hne => Function.update_of_ne hne ..
    rw [hput, or_iff_right hdata, hmend, not_or]
    exact ⟨fun hs => ⟨hs.1, hgone hs.1, hs.2⟩, fun hs => ⟨hs.1, hs.2.2⟩⟩

theorem spoilt_apply (h : c.Tracks d) (hsafe : ∀ b, c.Safe d b) (op : Op) (b : Nat) :
    (op.apply c).Spoilt (op.logical d) b ↔ (c.Spoilt d b ∧ ¬ c.Mends op b) ∨ c.Spoils op b := by
  cases op with
  | read blk => exact h.spoilt_read hsafe blk b
  | write blk buf =>
    have hkeep : ¬ c.Spoils (.write blk buf) b := fun hs => Op.noConfusion hs.1
    rw [or_iff_left hkeep]
    exact h.spoilt_write blk buf b
  | sync =>
    have hkeep : ¬ c.Spoils .sync b := fun hs => Op.noConfusion hs.1
    have hstay : ¬ c.Mends .sync b := fun hm => hm.elim (not_writes_sync b) fun hm => hm.1
    rw [apply_sync, sync_eq, or_iff_left hkeep, and_iff_left hstay]
    unfold Spoilt
    simp only [cleaned_valid, cleaned_blk, cleaned_data]
    rfl

-- As long as the writes succeed no block is lost.
theorem safe_of_writeOk (h : c.Tracks d) (hok : ∀ k, c.ata.writeOk k = true) (hsafe : ∀ b, c.Safe d b)
    (op : Op) (b : Nat) : (op.apply c).Safe (op.logical d) b := by
  by_cases hop : op.Writes b
  · exact (h.safe_write hop).1
  · refine (h.safe_apply hop).mpr ⟨hsafe b, ?_⟩
    rintro ⟨k, v, -, hfail, -⟩
    rw [hok] at hfail
    exact Bool.noConfusion hfail

-- The reads that do not fail are right exactly if no slot is spoilt.
theorem reads_right_iff (h : c.Tracks d) (hsafe : ∀ b, c.Safe d b) :
    (∀ blk, c.find blk ≠ none ∨ c.ata.readOk c.ata.nreads = true → (c.read blk).1 = d blk) ↔
      ∀ b, ¬ c.Spoilt d b := by
  constructor
  · rintro hright b ⟨i, hv, hb, hne⟩
    cases hf : c.find b with
    | none => exact find_none hf i hv hb
    | some j =>
      obtain ⟨hvj, hbj⟩ := find_some hf
      obtain rfl := h.unique j i hvj hv (hbj.trans hb.symm)
      have hread := hright b (Or.inl (by simp [hf]))
      rw [read_hit hf] at hread
      exact hne hread
  · intro hno blk hread
    cases hf : c.find blk with
    | none =>
      rw [read_miss hf]
      exact (fetched_ok (hsafe blk) hf).2 (hread.resolve_left (by simp [hf]))
    | some i =>
      obtain ⟨hv, hb⟩ := find_some hf
      rw [read_hit hf]
      by_contra hne
      exact hno blk ⟨i, hv, hb, hne⟩

end Tracks

/-- Some operation of the run overwrites block `b`, or evicts it. -/
def Mended (b : Nat) : List Op → Bcache → Prop
  | [], _ => False
  | op :: ops, c => c.Mends op b ∨ Mended b ops (op.apply c)

/-- Every read of block `b` that fails and leaves other bytes under its name is followed by an operation
that overwrites the block, or evicts it. -/
def MadeGood (b : Nat) : List Op → Bcache → Prop
  | [], _ => True
  | op :: ops, c => (c.Spoils op b → Mended b ops (op.apply c)) ∧ MadeGood b ops (op.apply c)

theorem Tracks.spoilt_run {c : Bcache} {d : Nat → Block} (h : c.Tracks d)
    (hok : ∀ k, c.ata.writeOk k = true) (hsafe : ∀ b, c.Safe d b) (ops : List Op) (b : Nat) :
    (¬ (runOps ops c).Spoilt (written d ops) b ↔
      (¬ c.Spoilt d b ∨ Mended b ops c) ∧ MadeGood b ops c) ∧
    (runOps ops c).Safe (written d ops) b := by
  induction ops generalizing c d with
  | nil =>
    refine ⟨?_, hsafe b⟩
    show ¬ c.Spoilt d b ↔ _
    simp [Mended, MadeGood]
  | cons op ops ih =>
    have hok' : ∀ k, (op.apply c).ata.writeOk k = true := by
      rw [(apply_ata c op).2.2]
      exact hok
    obtain ⟨hiff, hend⟩ := ih (h.apply op) hok' (h.safe_of_writeOk hok hsafe op)
    rw [written_cons]
    refine ⟨?_, hend⟩
    show ¬ (runOps ops (op.apply c)).Spoilt _ b ↔ _
    rw [hiff, h.spoilt_apply hsafe, Mended, MadeGood]
    tauto

/-- With writes that succeed, after a run every read that does not fail returns the last data written
exactly if every failed read that left other bytes in its slot has been made good since. -/
theorem read_right_iff (c : Bcache) (hok : ∀ k, c.ata.writeOk k = true) (ops : List Op) :
    (∀ blk, (runOps ops c.init).find blk ≠ none ∨
        (runOps ops c.init).ata.readOk (runOps ops c.init).ata.nreads = true →
      ((runOps ops c.init).read blk).1 = (lastWrite blk ops).getD (c.ata.disk blk)) ↔
      ∀ b, MadeGood b ops c.init := by
  have hinit := Tracks.init c c.ata.disk
  have hsafe : ∀ b, c.init.Safe c.ata.disk b := fun b => Or.inl rfl
  have hclean : ∀ b, ¬ c.init.Spoilt c.ata.disk b := fun b ⟨_, hv, _⟩ => Bool.noConfusion hv
  have hrun := hinit.spoilt_run hok hsafe ops
  have hreads := (hinit.run ops).reads_right_iff fun b => (hrun b).2
  refine Iff.trans hreads (forall_congr' fun b => ?_)
  rw [(hrun b).1, and_iff_right (Or.inl (hclean b))]

/-- A disk with a superblock whose read number `k` fails. -/
def badRead (k : Nat) : Ata :=
  ⟨fun b => if b = 0 then superblock else Block.zero, fun j => j != k, fun _ => true, 0, 0⟩

-- The first read of block 0 fails: the second one hits and returns the bytes the slot held before.
theorem read_returns_other :
    (∀ k, (zeroed (badRead 0)).ata.writeOk k = true) ∧
    (runOps [.read 0] (zeroed (badRead 0)).init).find 0 ≠ none ∧
    ((runOps [.read 0] (zeroed (badRead 0)).init).read 0).1 ≠
      (lastWrite 0 [.read 0]).getD ((zeroed (badRead 0)).ata.disk 0) := by
  refine ⟨fun _ => rfl, by decide +kernel, ?_⟩
  intro h
  have hmagic := congrArg Block.magic h
  have hlast : ((lastWrite 0 [.read 0]).getD ((zeroed (badRead 0)).ata.disk 0)).magic = sfsMagic :=
    superblock_magic
  rw [hlast] at hmagic
  exact absurd hmagic (by decide +kernel)

-- The first read fails, but the block is written before it is read again.
theorem read_right_rewritten :
    ((runOps [.read 0, .write 0 superblock] (zeroed (badRead 0)).init).read 0).1 = superblock := by
  refine (read_right_iff (zeroed (badRead 0)) (fun _ => rfl) [.read 0, .write 0 superblock]).mpr ?_ 0
    (Or.inl (by decide +kernel))
  intro b
  refine ⟨?_, fun hs => Op.noConfusion hs.1, trivial⟩
  rintro ⟨he, -⟩
  obtain rfl := Op.read.inj he
  exact Or.inl (Or.inl ⟨superblock, rfl⟩)

end JacobOS.Fs.Bcache
