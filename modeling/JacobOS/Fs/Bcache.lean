import JacobOS.Fs.Sfs

/-!
# The write-back block cache of `fs/bcache.c`

Thirty-two slots with a clock hand, over an ATA disk whose sector reads and writes may fail.  The
second half shows that over a disk that never fails the cache is the flat disk: `Refines` relates a
cache state to the logical content of every block, and every operation keeps it.
-/

namespace JacobOS.Fs

open BlockProgram

/-- The disk behind `ata_read_sector` and `ata_write_sector`.  Call number `k` of either kind
succeeds exactly when `readOk k`, respectively `writeOk k`, holds. -/
structure Ata where
  disk : Nat → Block
  readOk : Nat → Bool
  writeOk : Nat → Bool
  nreads : Nat
  nwrites : Nat

namespace Ata

/-- A failing read returns -1 and leaves the buffer as it was.  `bcache_read`, the only caller,
drops the return code. -/
def readSector (a : Ata) (lba : Nat) (buf : Block) : Block × Ata :=
  (if a.readOk a.nreads then a.disk lba else buf, { a with nreads := a.nreads + 1 })

def writeSector (a : Ata) (lba : Nat) (buf : Block) : Ata :=
  { a with
    disk := if a.writeOk a.nwrites then Function.update a.disk lba buf else a.disk
    nwrites := a.nwrites + 1 }

def Reliable (a : Ata) : Prop := ∀ k, a.readOk k = true ∧ a.writeOk k = true

/-- A disk on which every sector operation succeeds. -/
def ideal (disk : Nat → Block) : Ata := ⟨disk, fun _ => true, fun _ => true, 0, 0⟩

theorem ideal_reliable (disk : Nat → Block) : (ideal disk).Reliable := fun _ => ⟨rfl, rfl⟩

end Ata

structure Slot where
  blk : Nat
  valid : Bool
  dirty : Bool
  data : Block

structure Bcache where
  slots : Fin 32 → Slot
  hand : Fin 32
  hits : UInt32
  misses : UInt32
  ata : Ata

namespace Bcache

def setSlot (c : Bcache) (i : Fin 32) (s : Slot) : Bcache :=
  { c with slots := Function.update c.slots i s }

/-- `bcache_init`: whatever the slots held is only marked invalid. -/
def init (c : Bcache) : Bcache :=
  { c with
    slots := fun i => { c.slots i with valid := false, dirty := false }
    hand := 0, hits := 0, misses := 0 }

def find (c : Bcache) (blk : Nat) : Option (Fin 32) :=
  (List.finRange 32).find? fun i => (c.slots i).valid && (c.slots i).blk == blk

def evict (c : Bcache) : Fin 32 × Bcache :=
  let s := c.slots c.hand
  let moved := { c with hand := c.hand + 1 }
  if s.valid && s.dirty then (c.hand, { moved with ata := c.ata.writeSector s.blk s.data })
  else (c.hand, moved)

def read (c : Bcache) (blk : Nat) : Block × Bcache :=
  match c.find blk with
  | some i => ((c.slots i).data, { c with hits := c.hits + 1 })
  | none =>
      let (i, c) := { c with misses := c.misses + 1 }.evict
      let (data, ata) := c.ata.readSector blk (c.slots i).data
      (data, { c with ata := ata }.setSlot i ⟨blk, true, false, data⟩)

def write (c : Bcache) (blk : Nat) (buf : Block) : Bcache :=
  match c.find blk with
  | some i => c.setSlot i { c.slots i with data := buf, dirty := true }
  | none =>
      let (i, c) := c.evict
      c.setSlot i ⟨blk, true, true, buf⟩

def syncSlot (c : Bcache) (i : Fin 32) : Bcache :=
  let s := c.slots i
  if s.valid && s.dirty then
    { c with ata := c.ata.writeSector s.blk s.data }.setSlot i { s with dirty := false }
  else c

def sync (c : Bcache) : Bcache := (List.finRange 32).foldl syncSlot c

/-- The cache as the device that `read_block` and `write_block` reach. -/
def device : Device Nat Block Bcache where
  read blk c := c.read blk
  write blk buf c := c.write blk buf
  sync c := c.sync

theorem device_sync (c : Bcache) : device.sync c = c.sync := by
  simp only [device]

/-! ## The cache holds the logical disk -/

/-- The logical content `d` of every block, in terms of the slots and the disk: at most one valid
slot for a block, valid slots hold the logical content, and so does the disk wherever no dirty slot
overrides it. -/
structure Refines (c : Bcache) (d : Nat → Block) : Prop where
  reliable : c.ata.Reliable
  unique : ∀ i j, (c.slots i).valid = true → (c.slots j).valid = true →
    (c.slots i).blk = (c.slots j).blk → i = j
  cached : ∀ i, (c.slots i).valid = true → (c.slots i).data = d (c.slots i).blk
  onDisk : ∀ b, (∀ i, (c.slots i).valid = true → (c.slots i).dirty = true → (c.slots i).blk ≠ b) →
    c.ata.disk b = d b

theorem find_some {c : Bcache} {blk : Nat} {i : Fin 32} (h : c.find blk = some i) :
    (c.slots i).valid = true ∧ (c.slots i).blk = blk := by
  have hp := List.find?_some h
  simpa using hp

theorem find_none {c : Bcache} {blk : Nat} (h : c.find blk = none) (i : Fin 32)
    (hv : (c.slots i).valid = true) : (c.slots i).blk ≠ blk := by
  have hp := List.find?_eq_none.mp h i (List.mem_finRange i)
  simpa [hv] using hp

theorem writeSector_reliable {a : Ata} (h : a.Reliable) (lba : Nat) (buf : Block) :
    (a.writeSector lba buf).Reliable ∧
      (a.writeSector lba buf).disk = Function.update a.disk lba buf := by
  refine ⟨h, ?_⟩
  unfold Ata.writeSector
  rw [if_pos (h _).2]

theorem readSector_reliable {a : Ata} (h : a.Reliable) (lba : Nat) (buf : Block) :
    (a.readSector lba buf).1 = a.disk lba ∧ (a.readSector lba buf).2.Reliable ∧
      (a.readSector lba buf).2.disk = a.disk := by
  refine ⟨?_, h, rfl⟩
  unfold Ata.readSector
  rw [if_pos (h _).1]

/-- What an eviction leaves for its caller: the slots are as they were, and the disk holds the
logical content of every block that no dirty slot other than the evicted one overrides. -/
theorem evict_spec {c : Bcache} {d : Nat → Block} (h : c.Refines d) :
    c.evict.2.slots = c.slots ∧ c.evict.2.ata.Reliable ∧
      ∀ b, (∀ i, i ≠ c.evict.1 → (c.slots i).valid = true → (c.slots i).dirty = true →
        (c.slots i).blk ≠ b) → c.evict.2.ata.disk b = d b := by
  unfold evict
  by_cases hd : ((c.slots c.hand).valid && (c.slots c.hand).dirty) = true
  · obtain ⟨hrel, hdisk⟩ := writeSector_reliable h.reliable (c.slots c.hand).blk
      (c.slots c.hand).data
    have hv := (Bool.and_eq_true _ _ ▸ hd : _ ∧ _).1
    rw [if_pos hd]
    refine ⟨rfl, hrel, fun b hb => ?_⟩
    dsimp only
    rw [hdisk]
    by_cases hblk : b = (c.slots c.hand).blk
    · rw [hblk, Function.update_self, h.cached _ hv]
    · rw [Function.update_of_ne hblk]
      apply h.onDisk
      intro i hi hdi
      by_cases he : i = c.hand
      · rw [he]
        exact Ne.symm hblk
      · exact hb i he hi hdi
  · rw [if_neg hd]
    refine ⟨rfl, h.reliable, fun b hb => h.onDisk b fun i hi hdi => ?_⟩
    by_cases he : i = c.hand
    · subst he
      exact absurd (by simp [hi, hdi]) hd
    · exact hb i he hi hdi

/-- Installing slot `s`, when no other slot holds its block: its content must be the logical one,
which only its own block may change, and be on disk unless `s` is dirty. -/
theorem setSlot_refines {c e : Bcache} {d d' : Nat → Block} {i : Fin 32} {s : Slot}
    (h : c.Refines d) (hslots : e.slots = c.slots) (hrel : e.ata.Reliable)
    (hvalid : s.valid = true)
    (hfresh : ∀ j, j ≠ i → (c.slots j).valid = true → (c.slots j).blk ≠ s.blk)
    (hother : ∀ b, b ≠ s.blk → d' b = d b) (hdata : s.data = d' s.blk)
    (hdisk : ∀ b, (∀ j, j ≠ i → (c.slots j).valid = true → (c.slots j).dirty = true →
        (c.slots j).blk ≠ b) → (s.dirty = true → b ≠ s.blk) → e.ata.disk b = d' b) :
    (e.setSlot i s).Refines d' := by
  have hself : (e.setSlot i s).slots i = s := Function.update_self ..
  have hne : ∀ j, j ≠ i → (e.setSlot i s).slots j = c.slots j := by
    intro j hj
    rw [setSlot, hslots]
    exact Function.update_of_ne hj ..
  refine ⟨hrel, ?_, ?_, ?_⟩
  · intro j k hj hk hjk
    by_cases hji : j = i <;> by_cases hki : k = i
    · rw [hji, hki]
    · subst hji
      rw [hself, hne k hki] at hjk
      rw [hne k hki] at hk
      exact absurd hjk.symm (hfresh k hki hk)
    · subst hki
      rw [hself, hne j hji] at hjk
      rw [hne j hji] at hj
      exact absurd hjk (hfresh j hji hj)
    · rw [hne j hji] at hj hjk
      rw [hne k hki] at hk hjk
      exact h.unique j k hj hk hjk
  · intro j hj
    by_cases hji : j = i
    · rw [hji, hself, hdata]
    · rw [hne j hji] at hj ⊢
      rw [h.cached j hj, hother _ (hfresh j hji hj)]
  · intro b hb
    apply hdisk b
    · intro j hji hv hdj
      have hbj := hb j
      rw [hne j hji] at hbj
      exact hbj hv hdj
    · intro hdirty
      have hbi := hb i
      rw [hself] at hbi
      exact Ne.symm (hbi hvalid hdirty)

theorem read_refines {c : Bcache} {d : Nat → Block} (h : c.Refines d) (blk : Nat) :
    (c.read blk).1 = d blk ∧ (c.read blk).2.Refines d := by
  unfold read
  cases hf : c.find blk with
  | some i =>
    obtain ⟨hv, hb⟩ := find_some hf
    refine ⟨?_, h.reliable, h.unique, h.cached, h.onDisk⟩
    show (c.slots i).data = d blk
    rw [h.cached i hv, hb]
  | none =>
    have hmiss : ({ c with misses := c.misses + 1 } : Bcache).Refines d :=
      ⟨h.reliable, h.unique, h.cached, h.onDisk⟩
    obtain ⟨hslots, hrel, hdisk⟩ := evict_spec hmiss
    generalize ({ c with misses := c.misses + 1 } : Bcache).evict = e at hslots hrel hdisk
    obtain ⟨i, e⟩ := e
    dsimp only at hslots hrel hdisk ⊢
    obtain ⟨hans, hrel', hdisk'⟩ := readSector_reliable hrel blk (e.slots i).data
    have hblk : e.ata.disk blk = d blk :=
      hdisk blk fun j _ hv _ => find_none hf j hv
    refine ⟨hans.trans hblk, ?_⟩
    apply setSlot_refines h
    · exact hslots
    · exact hrel'
    · rfl
    · exact fun j _ hv => find_none hf j hv
    · exact fun _ _ => rfl
    · exact hans.trans hblk
    · intro b hb _
      exact (congrFun hdisk' b).trans (hdisk b hb)

theorem write_refines {c : Bcache} {d : Nat → Block} (h : c.Refines d) (blk : Nat) (buf : Block) :
    (c.write blk buf).Refines (Function.update d blk buf) := by
  unfold write
  cases hf : c.find blk with
  | some i =>
    obtain ⟨hv, hb⟩ := find_some hf
    apply setSlot_refines h
    · rfl
    · exact h.reliable
    · exact hv
    · intro j hji hvj he
      exact hji (h.unique j i hvj hv he)
    · intro b hne
      exact Function.update_of_ne (fun he => hne (he.trans hb.symm)) ..
    · show buf = Function.update d blk buf (c.slots i).blk
      rw [hb, Function.update_self]
    · intro b hclean hblk
      have hne : b ≠ blk := fun he => hblk rfl (he.trans hb.symm)
      rw [Function.update_of_ne hne]
      apply h.onDisk
      intro j hvj hdj
      by_cases hji : j = i
      · rw [hji, hb]
        exact Ne.symm hne
      · exact hclean j hji hvj hdj
  | none =>
    obtain ⟨hslots, hrel, hdisk⟩ := evict_spec h
    generalize c.evict = e at hslots hrel hdisk
    obtain ⟨i, e⟩ := e
    dsimp only at hslots hrel hdisk ⊢
    apply setSlot_refines h hslots hrel
    · rfl
    · exact fun j _ hv => find_none hf j hv
    · exact fun b hb => Function.update_of_ne hb ..
    · exact (Function.update_self blk buf d).symm
    · intro b hb hblk
      rw [Function.update_of_ne (hblk rfl)]
      exact hdisk b hb

/-- Writing one slot back keeps the logical disk; the slot is clean afterwards and the others are
as they were. -/
theorem syncSlot_refines {c : Bcache} {d : Nat → Block} (h : c.Refines d) (i : Fin 32) :
    (c.syncSlot i).Refines d ∧
      ¬ (((c.syncSlot i).slots i).valid = true ∧ ((c.syncSlot i).slots i).dirty = true) ∧
      ∀ j, j ≠ i → (c.syncSlot i).slots j = c.slots j := by
  unfold syncSlot
  by_cases hd : ((c.slots i).valid && (c.slots i).dirty) = true
  · obtain ⟨hv, hdi⟩ := (Bool.and_eq_true _ _ ▸ hd : _ ∧ _)
    obtain ⟨hrel, hdisk⟩ := writeSector_reliable h.reliable (c.slots i).blk (c.slots i).data
    rw [if_pos hd]
    refine ⟨?_, ?_, fun j hj => Function.update_of_ne hj ..⟩
    · apply setSlot_refines h
      · rfl
      · exact hrel
      · exact hv
      · intro j hji hvj he
        exact hji (h.unique j i hvj hv he)
      · exact fun _ _ => rfl
      · exact h.cached i hv
      · intro b hb _
        rw [hdisk]
        by_cases hblk : b = (c.slots i).blk
        · rw [hblk, Function.update_self, h.cached i hv]
        · rw [Function.update_of_ne hblk]
          apply h.onDisk
          intro j hvj hdj
          by_cases hji : j = i
          · rw [hji]
            exact Ne.symm hblk
          · exact hb j hji hvj hdj
    · have hself : ∀ s, ((c.setSlot i s).slots i) = s := fun s => Function.update_self ..
      rintro ⟨-, hdirty⟩
      exact absurd (congrArg Slot.dirty (hself { c.slots i with dirty := false }) ▸ hdirty) (by simp)
  · rw [if_neg hd]
    refine ⟨h, ?_, fun _ _ => rfl⟩
    rintro ⟨hv, hdi⟩
    exact hd (by rw [hv, hdi]; rfl)

/-- A sync keeps the logical disk and leaves no valid slot dirty. -/
theorem sync_refines {c : Bcache} {d : Nat → Block} (h : c.Refines d) :
    c.sync.Refines d ∧
      ∀ i, ¬ ((c.sync.slots i).valid = true ∧ (c.sync.slots i).dirty = true) := by
  -- the slots already visited stay clean while the loop goes on
  have hloop : ∀ (is : List (Fin 32)) (c : Bcache), c.Refines d →
      (is.foldl syncSlot c).Refines d ∧
        ∀ i, i ∈ is ∨ ¬ ((c.slots i).valid = true ∧ (c.slots i).dirty = true) →
          ¬ (((is.foldl syncSlot c).slots i).valid = true ∧
            ((is.foldl syncSlot c).slots i).dirty = true) := by
    intro is
    induction is with
    | nil =>
      intro c hc
      exact ⟨hc, fun i hi => hi.resolve_left (by simp)⟩
    | cons k is ih =>
      intro c hc
      obtain ⟨href, hclean, hothers⟩ := syncSlot_refines hc k
      obtain ⟨hfin, hdone⟩ := ih (c.syncSlot k) href
      refine ⟨hfin, fun i hi => hdone i ?_⟩
      by_cases hik : i = k
      · subst hik
        exact Or.inr hclean
      · rcases hi with hi | hi
        · exact Or.inl ((List.mem_cons.mp hi).resolve_left hik)
        · rw [hothers i hik]
          exact Or.inr hi
  obtain ⟨href, hdone⟩ := hloop (List.finRange 32) c h
  exact ⟨href, fun i => hdone i (Or.inl (List.mem_finRange i))⟩

/-- After a sync the disk itself is the logical disk. -/
theorem sync_disk {c : Bcache} {d : Nat → Block} (h : c.Refines d) : c.sync.ata.disk = d := by
  obtain ⟨href, hclean⟩ := sync_refines h
  funext b
  exact href.onDisk b fun i hv hd => absurd ⟨hv, hd⟩ (hclean i)

theorem init_refines {c : Bcache} (h : c.ata.Reliable) : c.init.Refines c.ata.disk := by
  refine ⟨h, ?_, ?_, fun _ _ => rfl⟩
  · intro i j hi
    exact absurd hi (by simp [init])
  · intro i hi
    exact absurd hi (by simp [init])

/-- Through the cache every block program computes what it computes on the flat disk. -/
theorem simulates_flat : Simulates device flat Refines := by
  refine ⟨?_, ?_, ?_⟩
  · intro c d blk h
    exact read_refines h blk
  · intro c d blk buf h
    exact write_refines h blk buf
  · intro c d h
    rw [flat_sync, device_sync]
    exact (sync_refines h).1

/-! ## Runs of the cache -/

inductive Op : Type where
  | read (blk : Nat)
  | write (blk : Nat) (buf : Block)
  | sync

def Op.apply : Op → Bcache → Bcache
  | .read blk, c => (c.read blk).2
  | .write blk buf, c => c.write blk buf
  | .sync, c => c.sync

def runOps (ops : List Op) (c : Bcache) : Bcache := ops.foldl (fun c op => op.apply c) c

/-- The data of the most recent write to `blk` among `ops`. -/
def lastWrite (blk : Nat) : List Op → Option Block
  | [] => none
  | .write b buf :: ops => (lastWrite blk ops).or (if b = blk then some buf else none)
  | _ :: ops => lastWrite blk ops

/-- The logical disk after `ops`. -/
def written (d : Nat → Block) (ops : List Op) (blk : Nat) : Block := (lastWrite blk ops).getD (d blk)

theorem runOps_refines {c : Bcache} {d : Nat → Block} (h : c.Refines d) (ops : List Op) :
    (runOps ops c).Refines (written d ops) := by
  induction ops generalizing c d with
  | nil => exact h
  | cons op ops ih =>
    show (runOps ops (op.apply c)).Refines _
    cases op with
    | read blk => exact ih (read_refines h blk).2
    | sync => exact ih (sync_refines h).1
    | write blk buf =>
      have hstep := ih (write_refines h blk buf)
      have hlog : written (Function.update d blk buf) ops = written d (.write blk buf :: ops) := by
        funext b
        unfold written
        rw [lastWrite]
        cases lastWrite b ops with
        | some _ => rfl
        | none =>
          by_cases hb : blk = b
          · subst hb
            simp
          · simp [hb, Function.update_of_ne (Ne.symm hb)]
      rwa [hlog] at hstep

/-- The cache right after `bcache_init` on a disk whose operations succeed, whatever its slots hold. -/
def boot (c : Bcache) (disk : Nat → Block) : Bcache := { c with ata := Ata.ideal disk }.init

theorem boot_refines (c : Bcache) (disk : Nat → Block) : (c.boot disk).Refines disk :=
  init_refines (c := { c with ata := Ata.ideal disk }) (Ata.ideal_reliable disk)

-- The first read after `bcache_init` has nothing to write back.
theorem boot_read_disk (c : Bcache) (disk : Nat → Block) (blk : Nat) :
    ((c.boot disk).read blk).2.ata.disk = disk := by
  have hinvalid : ∀ i, ((c.boot disk).slots i).valid = false := fun _ => rfl
  have hmiss : (c.boot disk).find blk = none := by
    unfold find
    rw [List.find?_eq_none]
    intro i _
    simp [hinvalid i]
  unfold read
  rw [hmiss]
  rfl

/-- From `bcache_init` on, a read returns the last data written to its block, or what the disk held
at first, and no block is in two valid slots. -/
theorem read_lastWrite (mem : Bcache) (disk : Nat → Block) (ops : List Op) :
    (∀ blk, ((runOps ops (mem.boot disk)).read blk).1 = (lastWrite blk ops).getD (disk blk)) ∧
      ∀ i j, ((runOps ops (mem.boot disk)).slots i).valid = true →
        ((runOps ops (mem.boot disk)).slots j).valid = true →
        ((runOps ops (mem.boot disk)).slots i).blk = ((runOps ops (mem.boot disk)).slots j).blk →
        i = j := by
  have h := runOps_refines (boot_refines mem disk) ops
  exact ⟨fun blk => (read_refines h blk).1, h.unique⟩

end Bcache

end JacobOS.Fs
