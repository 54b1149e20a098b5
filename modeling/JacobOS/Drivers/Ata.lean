import JacobOS.Lib.FirstIndex

/-!
# The disk driver of `drivers/ata.c`

The drive is seen through its ports.  What the status port gives, read after read, is a sequence nothing is assumed
about, and so is what the data port gives.  Two of the loops that poll the status port count their passes, two do
not; these run on fuel here, and `none` says that the fuel was not enough for the loop to end.
-/

namespace JacobOS.Ata

open FirstIndex

def ataData : UInt16 := 0x1F0
def ataSeccount : UInt16 := 0x1F2
def ataLbaLo : UInt16 := 0x1F3
def ataLbaMid : UInt16 := 0x1F4
def ataLbaHi : UInt16 := 0x1F5
def ataDrive : UInt16 := 0x1F6

/-- `ATA_STATUS` when read, `ATA_COMMAND` when written. -/
def ataCommand : UInt16 := 0x1F7

def stBsy : UInt8 := 0x80
def stDrq : UInt8 := 0x08
def stErr : UInt8 := 0x01

def cmdRead : UInt8 := 0x20
def cmdWrite : UInt8 := 0x30
def cmdFlush : UInt8 := 0xE7

def driveSlave : UInt32 := 0x10

def ataSectorSize : Nat := 512

/-- What reads of the ports give. -/
structure Drive where
  status : Nat → UInt8
  data : Nat → UInt16

inductive PortWrite
  | outb (port : UInt16) (value : UInt8)
  | outsw (port : UInt16) (words : List UInt16)

structure Bus where
  /-- The reads of the status port so far. -/
  reads : Nat
  /-- What was written to the ports, the latest first. -/
  writes : List PortWrite

abbrev AtaM := StateT Bus Option

def outb (port : UInt16) (value : UInt8) : AtaM Unit := fun b =>
  some ((), { b with writes := .outb port value :: b.writes })

def outsw (port : UInt16) (words : List UInt16) : AtaM Unit := fun b =>
  some ((), { b with writes := .outsw port words :: b.writes })

variable (drive : Drive)

/-- `inb(ATA_STATUS)`. -/
def inb : AtaM UInt8 := fun b => some (drive.status b.reads, { b with reads := b.reads + 1 })

/-- `insw(ATA_DATA, buf, count)`: the words that end up in `buf`. -/
def insw (count : Nat) : AtaM (List UInt16) := fun b => some ((List.range count).map drive.data, b)

/-- `while (inb(ATA_STATUS) & ST_BSY) ;` -/
def whileBusy : Nat → AtaM Unit
  | 0 => fun _ => none
  | fuel + 1 => do
      let s ← inb drive
      if s &&& stBsy ≠ 0 then whileBusy fuel else return ()

/-- `while ((inb(ATA_STATUS) & ST_BSY) && spin-- > 0) ;` -/
def spinBusy (spin : Nat) : AtaM Unit := do
  let s ← inb drive
  if s &&& stBsy ≠ 0 then
    match spin with
    | 0 => return ()
    | spin + 1 => spinBusy spin
  else return ()

/-- The `for (;;)` of `wait_ready`. -/
def spinReady (spin : Nat) : AtaM Int := do
  let s ← inb drive
  if s &&& stErr ≠ 0 then return -1
  else if s &&& stDrq ≠ 0 then return 0
  else
    match spin with
    | 0 => return -1
    | spin + 1 => spinReady spin

/-- What `spin` starts with, for either loop of `wait_ready`. -/
def spins : Nat := 1000000

def waitReady : AtaM Int := do
  spinBusy drive spins
  spinReady drive spins

def selectAndSeek (fuel : Nat) (lba : UInt32) (count : UInt8) : AtaM Unit := do
  whileBusy drive fuel
  outb ataDrive ((0xE0 : UInt32) ||| driveSlave ||| (lba >>> 24 &&& 0x0F)).toUInt8
  outb ataSeccount count
  outb ataLbaLo (lba &&& 0xFF).toUInt8
  outb ataLbaMid (lba >>> 8 &&& 0xFF).toUInt8
  outb ataLbaHi (lba >>> 16 &&& 0xFF).toUInt8

/-- `ata_read_sector`: what it returns, and the 512 bytes at `buf` as 16-bit words. -/
def ataReadSector (fuel : Nat) (lba : UInt32) (buf : List UInt16) : AtaM (Int × List UInt16) := do
  selectAndSeek drive fuel lba 1
  outb ataCommand cmdRead
  if (← waitReady drive) ≠ 0 then return (-1, buf)
  let words ← insw drive (ataSectorSize / 2)
  return (0, words)

def ataWriteSector (fuel : Nat) (lba : UInt32) (buf : List UInt16) : AtaM Int := do
  selectAndSeek drive fuel lba 1
  outb ataCommand cmdWrite
  if (← waitReady drive) ≠ 0 then return -1
  outsw ataData buf
  -- flush the write cache so data actually reaches the disk image
  outb ataCommand cmdFlush
  whileBusy drive fuel
  return 0

/-- The call ends: some fuel is enough for its loops. -/
def Returns {α : Type} (call : Nat → AtaM α) : Prop := ∃ fuel r, call fuel ⟨0, []⟩ = some r

/-! ## The loops -/

section Loops

variable {drive}

/-- The bus when read `j` of the status port was the last. -/
def Bus.upTo (b : Bus) (j : Nat) : Bus := { b with reads := j + 1 }

/-- `BSY` is clear in read `k` of the status port. -/
def Idle (drive : Drive) (k : Nat) : Prop := drive.status k &&& stBsy = 0

/-- `wait_ready` stops at read `k`: it has `ERR` or `DRQ`. -/
def Ready (drive : Drive) (k : Nat) : Prop := drive.status k &&& stErr ≠ 0 ∨ drive.status k &&& stDrq ≠ 0

/-- Read `k` has `DRQ` and not `ERR`. -/
def Asks (drive : Drive) (k : Nat) : Prop := drive.status k &&& stErr = 0 ∧ drive.status k &&& stDrq ≠ 0

instance (k : Nat) : Decidable (Asks drive k) := inferInstanceAs (Decidable (_ ∧ _))

theorem whileBusy_succ (fuel : Nat) (b : Bus) :
    whileBusy drive (fuel + 1) b =
      if drive.status b.reads &&& stBsy ≠ 0 then whileBusy drive fuel (b.upTo b.reads)
      else some ((), b.upTo b.reads) := by
  rw [whileBusy]
  show (if drive.status b.reads &&& stBsy ≠ 0 then whileBusy drive fuel else pure ()) (b.upTo b.reads) = _
  split <;> rfl

theorem spinBusy_apply (spin : Nat) (b : Bus) :
    spinBusy drive spin b =
      if drive.status b.reads &&& stBsy ≠ 0 then
        match spin with
        | 0 => some ((), b.upTo b.reads)
        | spin + 1 => spinBusy drive spin (b.upTo b.reads)
      else some ((), b.upTo b.reads) := by
  cases spin with
  | zero =>
    rw [spinBusy]
    show (if drive.status b.reads &&& stBsy ≠ 0 then pure () else pure () : AtaM Unit) (b.upTo b.reads) = _
    split <;> rfl
  | succ spin =>
    rw [spinBusy]
    show (if drive.status b.reads &&& stBsy ≠ 0 then spinBusy drive spin else pure ()) (b.upTo b.reads) = _
    split <;> rfl

theorem spinReady_apply (spin : Nat) (b : Bus) :
    spinReady drive spin b =
      if drive.status b.reads &&& stErr ≠ 0 then some (-1, b.upTo b.reads)
      else if drive.status b.reads &&& stDrq ≠ 0 then some (0, b.upTo b.reads)
      else
        match spin with
        | 0 => some (-1, b.upTo b.reads)
        | spin + 1 => spinReady drive spin (b.upTo b.reads) := by
  cases spin with
  | zero =>
    rw [spinReady]
    show (if drive.status b.reads &&& stErr ≠ 0 then pure (-1)
      else if drive.status b.reads &&& stDrq ≠ 0 then pure 0 else pure (-1) : AtaM Int) (b.upTo b.reads) = _
    split
    · rfl
    · split <;> rfl
  | succ spin =>
    rw [spinReady]
    show (if drive.status b.reads &&& stErr ≠ 0 then pure (-1)
      else if drive.status b.reads &&& stDrq ≠ 0 then pure 0 else spinReady drive spin : AtaM Int)
        (b.upTo b.reads) = _
    split
    · rfl
    · split <;> rfl

/-- An unbounded loop ends at the first read without `BSY`. -/
theorem whileBusy_eq_some_iff (fuel : Nat) (b : Bus) (r : Unit × Bus) :
    whileBusy drive fuel b = some r ↔
      ∃ j, First (Idle drive) b.reads j ∧ j < b.reads + fuel ∧ r = ((), b.upTo j) := by
  induction fuel generalizing b with
  | zero =>
    constructor
    · exact fun h => absurd h (by simp [whileBusy])
    · rintro ⟨j, hfirst, hlt, -⟩
      exact absurd hfirst.1 (Nat.not_le.mpr hlt)
  | succ fuel ih =>
    rw [whileBusy_succ]
    by_cases hbusy : drive.status b.reads &&& stBsy ≠ 0
    · rw [if_pos hbusy, ih]
      apply exists_congr
      intro j
      rw [first_iff_of_neg (p := Idle drive) hbusy, show (b.upTo b.reads).reads = b.reads + 1 from rfl,
        Nat.add_assoc, Nat.add_comm 1 fuel]
      rfl
    · rw [if_neg hbusy]
      have hidle : Idle drive b.reads := not_not.mp hbusy
      constructor
      · intro heq
        exact ⟨b.reads, (first_iff_of_pos hidle _).mpr rfl, by omega, (Option.some.inj heq).symm⟩
      · rintro ⟨j, hfirst, -, rfl⟩
        rw [(first_iff_of_pos hidle j).mp hfirst]

-- The last read the counter allows ends a bounded loop, whatever it gives.
theorem spinBusy_eq {spin : Nat} {b : Bus} {j : Nat}
    (h : First (fun k => Idle drive k ∨ k = b.reads + spin) b.reads j) :
    spinBusy drive spin b = some ((), b.upTo j) := by
  induction spin generalizing b with
  | zero =>
    have hj : j = b.reads := (first_iff_of_pos (Or.inr rfl) j).mp h
    rw [spinBusy_apply, hj]
    split <;> rfl
  | succ spin ih =>
    rw [spinBusy_apply]
    by_cases hbusy : drive.status b.reads &&& stBsy ≠ 0
    · rw [if_pos hbusy]
      have hgo : ¬ (Idle drive b.reads ∨ b.reads = b.reads + (spin + 1)) := not_or.mpr ⟨hbusy, by omega⟩
      rw [first_iff_of_neg (p := fun k => Idle drive k ∨ k = b.reads + (spin + 1)) hgo] at h
      apply @ih (b.upTo b.reads)
      rwa [show (b.upTo b.reads).reads + spin = b.reads + (spin + 1) by simp only [Bus.upTo]; omega]
    · rw [if_neg hbusy, (first_iff_of_pos (Or.inl (not_not.mp hbusy)) j).mp h]

theorem spinReady_eq {spin : Nat} {b : Bus} {j : Nat}
    (h : First (fun k => Ready drive k ∨ k = b.reads + spin) b.reads j) :
    spinReady drive spin b = some (if Asks drive j then 0 else -1, b.upTo j) := by
  induction spin generalizing b with
  | zero =>
    have hj : j = b.reads := (first_iff_of_pos (Or.inr rfl) j).mp h
    rw [spinReady_apply, hj]
    by_cases herr : drive.status b.reads &&& stErr ≠ 0
    · rw [if_pos herr, if_neg fun ha => herr ha.1]
    · rw [if_neg herr]
      by_cases hdrq : drive.status b.reads &&& stDrq ≠ 0
      · rw [if_pos hdrq, if_pos ⟨not_not.mp herr, hdrq⟩]
      · rw [if_neg hdrq, if_neg fun ha => hdrq ha.2]
  | succ spin ih =>
    rw [spinReady_apply]
    by_cases herr : drive.status b.reads &&& stErr ≠ 0
    · rw [if_pos herr, (first_iff_of_pos (Or.inl (Or.inl herr)) j).mp h, if_neg fun ha => herr ha.1]
    · rw [if_neg herr]
      by_cases hdrq : drive.status b.reads &&& stDrq ≠ 0
      · rw [if_pos hdrq, (first_iff_of_pos (Or.inl (Or.inr hdrq)) j).mp h, if_pos ⟨not_not.mp herr, hdrq⟩]
      · rw [if_neg hdrq]
        have hgo : ¬ (Ready drive b.reads ∨ b.reads = b.reads + (spin + 1)) :=
          not_or.mpr ⟨not_or.mpr ⟨herr, hdrq⟩, by omega⟩
        rw [first_iff_of_neg (p := fun k => Ready drive k ∨ k = b.reads + (spin + 1)) hgo] at h
        apply @ih (b.upTo b.reads)
        rwa [show (b.upTo b.reads).reads + spin = b.reads + (spin + 1) by simp only [Bus.upTo]; omega]

/-- `wait_ready`, entered with read `i` the next one, ends with read `j`. -/
def WaitsUntil (drive : Drive) (i j : Nat) : Prop :=
  ∃ a, First (fun k => Idle drive k ∨ k = i + spins) i a ∧
    First (fun k => Ready drive k ∨ k = a + 1 + spins) (a + 1) j

/-- The bound that the comment in `wait_ready` speaks of. -/
theorem exists_waitsUntil (drive : Drive) (i : Nat) : ∃ j, WaitsUntil drive i j ∧ j < i + 2 * (spins + 1) := by
  obtain ⟨a, ha⟩ := exists_first (p := fun k => Idle drive k ∨ k = i + spins) (Nat.le_add_right i spins) (Or.inr rfl)
  obtain ⟨j, hj⟩ :=
    exists_first (p := fun k => Ready drive k ∨ k = a + 1 + spins) (Nat.le_add_right (a + 1) spins) (Or.inr rfl)
  have hale := ha.le (Nat.le_add_right i spins) (Or.inr rfl)
  have hjle := hj.le (Nat.le_add_right (a + 1) spins) (Or.inr rfl)
  exact ⟨j, ⟨a, ha, hj⟩, by omega⟩

theorem waitReady_eq {b : Bus} {j : Nat} (h : WaitsUntil drive b.reads j) :
    waitReady drive b = some (if Asks drive j then 0 else -1, b.upTo j) := by
  obtain ⟨a, hbusy, hready⟩ := h
  unfold waitReady
  show (spinBusy drive spins b).bind (fun r => spinReady drive spins r.2) = _
  rw [spinBusy_eq hbusy, Option.bind_some, spinReady_eq (b := b.upTo a) hready]
  rfl

/-! ## The commands -/

/-- The port writes of `select_and_seek(lba, 1)` and of the command after it. -/
def Bus.command (b : Bus) (lba : UInt32) (cmd : UInt8) : Bus :=
  { b with writes := .outb ataCommand cmd :: .outb ataLbaHi (lba >>> 16 &&& 0xFF).toUInt8 ::
      .outb ataLbaMid (lba >>> 8 &&& 0xFF).toUInt8 :: .outb ataLbaLo (lba &&& 0xFF).toUInt8 ::
      .outb ataSeccount 1 ::
      .outb ataDrive ((0xE0 : UInt32) ||| driveSlave ||| (lba >>> 24 &&& 0x0F)).toUInt8 :: b.writes }

theorem bind_selectAndSeek {α : Type} (fuel : Nat) (lba : UInt32) (cmd : UInt8) (next : AtaM α) (b : Bus) :
    (do selectAndSeek drive fuel lba 1; outb ataCommand cmd; next : AtaM α) b =
      (whileBusy drive fuel b).bind fun r => next (r.2.command lba cmd) := by
  unfold selectAndSeek
  show ((whileBusy drive fuel b).bind fun r => some ((), _)).bind _ = _
  cases whileBusy drive fuel b <;> rfl

/-- A command gets past `select_and_seek` only if the drive stops being busy. -/
theorem bind_selectAndSeek_eq_some_iff {α : Type} {fuel : Nat} {lba : UInt32} {cmd : UInt8} {next : AtaM α}
    {r : α × Bus} :
    (do selectAndSeek drive fuel lba 1; outb ataCommand cmd; next : AtaM α) ⟨0, []⟩ = some r ↔
      ∃ i, First (Idle drive) 0 i ∧ i < fuel ∧ next (((⟨0, []⟩ : Bus).upTo i).command lba cmd) = some r := by
  rw [bind_selectAndSeek, Option.bind_eq_some_iff]
  constructor
  · rintro ⟨r', hloop, hnext⟩
    obtain ⟨i, hfirst, hlt, rfl⟩ := (whileBusy_eq_some_iff _ _ _).mp hloop
    exact ⟨i, hfirst, by rwa [Nat.zero_add] at hlt, hnext⟩
  · rintro ⟨i, hfirst, hlt, hnext⟩
    exact ⟨_, (whileBusy_eq_some_iff _ _ _).mpr ⟨i, hfirst, by rwa [Nat.zero_add], rfl⟩, hnext⟩

theorem bind_waitReady {α : Type} {b : Bus} {j : Nat} (h : WaitsUntil drive b.reads j) (next : Int → AtaM α) :
    (waitReady drive >>= next) b = next (if Asks drive j then 0 else -1) (b.upTo j) := by
  show (waitReady drive b).bind (fun r => next r.1 r.2) = _
  rw [waitReady_eq h]
  rfl

theorem returns_ataReadSector_iff (lba : UInt32) (buf : List UInt16) :
    Returns (ataReadSector drive · lba buf) ↔ ∃ n, Idle drive n := by
  unfold Returns ataReadSector
  simp only [bind_selectAndSeek_eq_some_iff]
  constructor
  · rintro ⟨fuel, r, i, hfirst, -⟩
    exact ⟨i, hfirst.2.1⟩
  · rintro ⟨n, hn⟩
    obtain ⟨i, hfirst⟩ := exists_first (Nat.zero_le n) hn
    obtain ⟨j, hwait, -⟩ := exists_waitsUntil drive (i + 1)
    refine ⟨i + 1, ?_⟩
    by_cases hasks : Asks drive j
    · exact ⟨((0, _), _), i, hfirst, Nat.lt_succ_self i, by rw [bind_waitReady hwait, if_pos hasks]; rfl⟩
    · exact ⟨((-1, buf), _), i, hfirst, Nat.lt_succ_self i, by rw [bind_waitReady hwait, if_neg hasks]; rfl⟩

/-- The drive takes the sector that is written to it: `wait_ready` ends with read `j`, which has `DRQ` and not
`ERR`. -/
def TakesData (drive : Drive) (j : Nat) : Prop :=
  (∃ i, First (Idle drive) 0 i ∧ WaitsUntil drive (i + 1) j) ∧ Asks drive j

theorem returns_ataWriteSector_iff (lba : UInt32) (buf : List UInt16) :
    Returns (ataWriteSector drive · lba buf) ↔
      (∃ n, Idle drive n) ∧ ∀ j, TakesData drive j → ∃ n, j < n ∧ Idle drive n := by
  unfold Returns ataWriteSector
  simp only [bind_selectAndSeek_eq_some_iff]
  constructor
  · rintro ⟨fuel, r, i, hfirst, -, hrest⟩
    refine ⟨⟨i, hfirst.2.1⟩, fun j htakes => ?_⟩
    obtain ⟨⟨i', hfirst', hwait⟩, hasks⟩ := htakes
    rw [hfirst'.unique hfirst] at hwait
    rw [bind_waitReady hwait, if_pos hasks] at hrest
    obtain ⟨r', hloop, -⟩ := Option.bind_eq_some_iff.mp hrest
    obtain ⟨n, hflush, -⟩ := (whileBusy_eq_some_iff _ _ _).mp hloop
    exact ⟨n, hflush.1, hflush.2.1⟩
  · rintro ⟨⟨n, hn⟩, hflush⟩
    obtain ⟨i, hfirst⟩ := exists_first (Nat.zero_le n) hn
    obtain ⟨j, hwait, -⟩ := exists_waitsUntil drive (i + 1)
    by_cases hasks : Asks drive j
    · obtain ⟨n', hlt, hidle⟩ := hflush j ⟨⟨i, hfirst, hwait⟩, hasks⟩
      obtain ⟨k, hlast⟩ := exists_first (i := j + 1) hlt hidle
      have hfuel : k < j + 1 + (i + k + 1) := by omega
      exact ⟨i + k + 1, (0, _), i, hfirst, by omega, by
        rw [bind_waitReady hwait, if_pos hasks]
        exact Option.bind_eq_some_iff.mpr
          ⟨_, (whileBusy_eq_some_iff _ _ _).mpr ⟨k, hlast, hfuel, rfl⟩, rfl⟩⟩
    · exact ⟨i + 1, (-1, _), i, hfirst, Nat.lt_succ_self i, by rw [bind_waitReady hwait, if_neg hasks]; rfl⟩

end Loops

/-- Whatever the ports give, a read ends exactly if `BSY` is clear in some read of the status port; a write ends
exactly if besides, should the drive take the sector, `BSY` is clear in a later one. -/
theorem disk_commands_return_iff (lba : UInt32) (buf : List UInt16) :
    (Returns (ataReadSector drive · lba buf) ↔ ∃ n, Idle drive n) ∧
      (Returns (ataWriteSector drive · lba buf) ↔
        (∃ n, Idle drive n) ∧ ∀ j, TakesData drive j → ∃ n, j < n ∧ Idle drive n) :=
  ⟨returns_ataReadSector_iff lba buf, returns_ataWriteSector_iff lba buf⟩

/-- No drive at all: the bus floats. -/
def floating : Drive := ⟨fun _ => 0xFF, fun _ => 0xFFFF⟩

theorem floating_never_returns :
    ¬ Returns (ataReadSector floating · 0 []) ∧ ¬ Returns (ataWriteSector floating · 0 []) := by
  have hbusy : ¬ ∃ n, Idle floating n := by
    rintro ⟨n, hn⟩
    exact absurd hn (show ¬ (0xFF : UInt8) &&& stBsy = 0 by decide)
  exact ⟨fun h => hbusy ((returns_ataReadSector_iff 0 []).mp h),
    fun h => hbusy ((returns_ataWriteSector_iff 0 []).mp h).1⟩

end JacobOS.Ata
