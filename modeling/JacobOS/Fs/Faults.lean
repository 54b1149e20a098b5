import JacobOS.Fs.Bcache
import Mathlib.Data.List.Nodup

/-!
# The block cache over a disk that fails

`Bcache.Op.apply` drops the return codes of the ATA driver, so every operation goes on after a failed
sector read or write, and a failed write-back loses the data of a slot.  A final sync still leaves the
right content of every block on disk exactly if every block that was lost is written again.
-/

namespace JacobOS.Fs

namespace Ata

/-- Sector writes one after another, each of which may fail. -/
def writeAll (a : Ata) (ws : List (Nat × Block)) : Ata :=
  ws.foldl (fun a w => a.writeSector w.1 w.2) a

@[simp] theorem writeAll_nil (a : Ata) : a.writeAll [] = a := rfl

theorem writeAll_cons (a : Ata) (w : Nat × Block) (ws : List (Nat × Block)) :
    a.writeAll (w :: ws) = (a.writeSector w.1 w.2).writeAll ws := rfl

theorem writeAll_append (a : Ata) (ws vs : List (Nat × Block)) :
    a.writeAll (ws ++ vs) = (a.writeAll ws).writeAll vs := List.foldl_append

@[simp] theorem writeAll_writeOk (a : Ata) (ws : List (Nat × Block)) :
    (a.writeAll ws).writeOk = a.writeOk := by
  induction ws generalizing a with
  | nil => rfl
  | cons w ws ih => rw [writeAll_cons, ih, writeSector]

@[simp] theorem writeAll_readOk (a : Ata) (ws : List (Nat × Block)) :
    (a.writeAll ws).readOk = a.readOk := by
  induction ws generalizing a with
  | nil => rfl
  | cons w ws ih => rw [writeAll_cons, ih, writeSector]

@[simp] theorem writeAll_nreads (a : Ata) (ws : List (Nat × Block)) :
    (a.writeAll ws).nreads = a.nreads := by
  induction ws generalizing a with
  | nil => rfl
  | cons w ws ih => rw [writeAll_cons, ih, writeSector]

@[simp] theorem writeAll_nwrites (a : Ata) (ws : List (Nat × Block)) :
    (a.writeAll ws).nwrites = a.nwrites + ws.length := by
  induction ws generalizing a with
  | nil => rfl
  | cons w ws ih =>
    rw [writeAll_cons, ih, List.length_cons]
    show a.nwrites + 1 + ws.length = _
    omega

-- A block that none of the writes names keeps its content.
theorem writeAll_other (a : Ata) {ws : List (Nat × Block)} {b : Nat} (hb : b ∉ ws.map Prod.fst) :
    (a.writeAll ws).disk b = a.disk b := by
  induction ws generalizing a with
  | nil => rfl
  | cons w ws ih =>
    rw [List.map_cons, List.mem_cons, not_or] at hb
    rw [writeAll_cons, ih _ hb.2]
    unfold writeSector
    split
    · exact Function.update_of_ne hb.1 ..
    · rfl

-- Write number `k` decides about its block, if no other of the writes names it.
theorem writeAll_disk (a : Ata) {ws : List (Nat × Block)} (hnd : (ws.map Prod.fst).Nodup) {k b : Nat}
    {v : Block} (hk : ws[k]? = some (b, v)) :
    (a.writeAll ws).disk b = if a.writeOk (a.nwrites + k) = true then v else a.disk b := by
  induction ws generalizing a k with
  | nil => exact absurd hk (by simp)
  | cons w ws ih =>
    obtain ⟨hw, hnd'⟩ := List.nodup_cons.mp hnd
    rw [writeAll_cons]
    cases k with
    | zero =>
      obtain rfl : w = (b, v) := by simpa using hk
      rw [writeAll_other _ hw, Nat.add_zero]
      unfold writeSector
      split
      · exact Function.update_self ..
      · rfl
    | succ k =>
      have hmem : (b, v) ∈ ws := List.mem_of_getElem? (by simpa using hk)
      have hne : b ≠ w.1 := fun he => hw (List.mem_map.mpr ⟨(b, v), hmem, he⟩)
      rw [ih _ hnd' (by simpa using hk)]
      have hdisk : (a.writeSector w.1 w.2).disk b = a.disk b := by
        unfold writeSector
        split
        · exact Function.update_of_ne hne ..
        · rfl
      rw [hdisk, show (a.writeSector w.1 w.2).nwrites + k = a.nwrites + (k + 1) by
        show a.nwrites + 1 + k = _; omega]
      rfl

end Ata

/-- The write-back that a slot is due. -/
def Slot.pending (s : Slot) : List (Nat × Block) := if s.valid && s.dirty then [(s.blk, s.data)] else []

theorem Slot.mem_pending {s : Slot} {w : Nat × Block} :
    w ∈ s.pending ↔ (s.valid = true ∧ s.dirty = true) ∧ w = (s.blk, s.data) := by
  unfold pending
  rw [← Bool.and_eq_true]
  split
  · simp_all
  · simp_all

namespace Bcache

/-! ## What an operation does -/

theorem evict_eq (c : Bcache) :
    c.evict = (c.hand,
      { c with hand := c.hand + 1, ata := c.ata.writeAll (c.slots c.hand).pending }) := by
  unfold evict Slot.pending
  dsimp only
  split
  · rfl
  · rfl

/-- What a miss finds in the buffer after `ata_read_sector`. -/
def fetched (c : Bcache) (blk : Nat) : Block :=
  if c.ata.readOk c.ata.nreads = true then (c.ata.writeAll (c.slots c.hand).pending).disk blk
  else (c.slots c.hand).data

theorem read_hit {c : Bcache} {blk : Nat} {i : Fin 32} (h : c.find blk = some i) :
    c.read blk = ((c.slots i).data, { c with hits := c.hits + 1 }) := by
  unfold read
  rw [h]

theorem read_miss {c : Bcache} {blk : Nat} (h : c.find blk = none) :
    c.read blk = (c.fetched blk,
      { c with
        slots := Function.update c.slots c.hand ⟨blk, true, false, c.fetched blk⟩
        hand := c.hand + 1
        misses := c.misses + 1
        ata := { c.ata.writeAll (c.slots c.hand).pending with nreads := c.ata.nreads + 1 } }) := by
  unfold read
  rw [h]
  dsimp only
  rw [evict_eq]
  simp only [Ata.readSector, Ata.writeAll_readOk, Ata.writeAll_nreads]
  rfl

theorem write_hit {c : Bcache} {blk : Nat} {i : Fin 32} (h : c.find blk = some i) (buf : Block) :
    c.write blk buf = c.setSlot i { c.slots i with data := buf, dirty := true } := by
  unfold write
  rw [h]

theorem write_miss {c : Bcache} {blk : Nat} (h : c.find blk = none) (buf : Block) :
    c.write blk buf =
      { c with
        slots := Function.update c.slots c.hand ⟨blk, true, true, buf⟩
        hand := c.hand + 1
        ata := c.ata.writeAll (c.slots c.hand).pending } := by
  unfold write
  rw [h]
  dsimp only
  rw [evict_eq]
  rfl

/-- A slot after `bcache_sync` has passed it, whether or not its write succeeded. -/
def cleaned (s : Slot) : Slot := if s.valid && s.dirty then { s with dirty := false } else s

theorem cleaned_not_dirty (s : Slot) : ¬ ((cleaned s).valid = true ∧ (cleaned s).dirty = true) := by
  unfold cleaned
  split
  · simp
  · simp_all

@[simp] theorem cleaned_blk (s : Slot) : (cleaned s).blk = s.blk := by
  unfold cleaned
  split <;> rfl

@[simp] theorem cleaned_valid (s : Slot) : (cleaned s).valid = s.valid := by
  unfold cleaned
  split <;> rfl

@[simp] theorem cleaned_data (s : Slot) : (cleaned s).data = s.data := by
  unfold cleaned
  split <;> rfl

theorem syncSlot_eq (c : Bcache) (i : Fin 32) :
    c.syncSlot i = { c with
      slots := Function.update c.slots i (cleaned (c.slots i))
      ata := c.ata.writeAll (c.slots i).pending } := by
  unfold syncSlot cleaned Slot.pending
  dsimp only
  split
  · rfl
  · rw [Function.update_eq_self]
    rfl

theorem sync_eq (c : Bcache) :
    c.sync = { c with
      slots := fun i => cleaned (c.slots i)
      ata := c.ata.writeAll ((List.finRange 32).flatMap fun i => (c.slots i).pending) } := by
  -- the loop over any slots that are all different; those still to come are as they were
  have hloop : ∀ (is : List (Fin 32)), is.Nodup → ∀ c : Bcache, is.foldl syncSlot c = { c with
      slots := fun i => if i ∈ is then cleaned (c.slots i) else c.slots i
      ata := c.ata.writeAll (is.flatMap fun i => (c.slots i).pending) } := by
    intro is
    induction is with
    | nil =>
      intro _ c
      simp
    | cons k is ih =>
      intro hnd c
      obtain ⟨hk, hnd'⟩ := List.nodup_cons.mp hnd
      have hsame : ∀ i ∈ is, Function.update c.slots k (cleaned (c.slots k)) i = c.slots i :=
        fun i hi => Function.update_of_ne (fun he : i = k => hk (he ▸ hi)) ..
      have hpend : (is.flatMap fun i => (Function.update c.slots k (cleaned (c.slots k)) i).pending) =
          is.flatMap fun i => (c.slots i).pending := by
        rw [List.flatMap_def, List.flatMap_def]
        congr 1
        apply List.map_congr_left
        intro i hi
        rw [hsame i hi]
      rw [List.foldl_cons, syncSlot_eq, ih hnd']
      dsimp only
      rw [hpend, List.flatMap_cons, Ata.writeAll_append]
      congr 1
      funext i
      by_cases hik : i = k
      · subst hik
        rw [if_neg hk, Function.update_self, if_pos List.mem_cons_self]
      · rw [Function.update_of_ne hik]
        simp [hik]
  rw [sync, hloop _ (List.nodup_finRange 32)]
  simp

/-- The sector writes that an operation makes, in order. -/
def writeBacks (c : Bcache) : Op → List (Nat × Block)
  | .read blk => if c.find blk = none then (c.slots c.hand).pending else []
  | .write blk _ => if c.find blk = none then (c.slots c.hand).pending else []
  | .sync => (List.finRange 32).flatMap fun i => (c.slots i).pending

/-- The logical disk after an operation. -/
def Op.logical (d : Nat → Block) : Op → Nat → Block
  | .write blk buf => Function.update d blk buf
  | _ => d

/-- The operation is a `bcache_write` to block `b`. -/
def Op.Writes (b : Nat) (op : Op) : Prop := ∃ buf, op = .write b buf

@[simp] theorem not_writes_read (b blk : Nat) : ¬ (Op.read blk).Writes b :=
  fun ⟨_, he⟩ => Op.noConfusion he

@[simp] theorem not_writes_sync (b : Nat) : ¬ Op.sync.Writes b := fun ⟨_, he⟩ => Op.noConfusion he

@[simp] theorem writes_write_iff {b blk : Nat} {buf : Block} : (Op.write blk buf).Writes b ↔ blk = b := by
  constructor
  · rintro ⟨buf', he⟩
    exact (Op.write.inj he).1
  · rintro rfl
    exact ⟨buf, rfl⟩

theorem written_cons (d : Nat → Block) (op : Op) (ops : List Op) :
    written d (op :: ops) = written (op.logical d) ops := by
  funext b
  cases op with
  | read blk => rfl
  | sync => rfl
  | write blk buf =>
    unfold written
    rw [lastWrite, Op.logical]
    cases lastWrite b ops with
    | some _ => rfl
    | none =>
      by_cases hb : blk = b
      · subst hb
        simp
      · simp [hb, Function.update_of_ne (Ne.symm hb)]

theorem apply_read (c : Bcache) (blk : Nat) : (Op.read blk).apply c = (c.read blk).2 := rfl

theorem apply_write (c : Bcache) (blk : Nat) (buf : Block) :
    (Op.write blk buf).apply c = c.write blk buf := rfl

theorem apply_sync (c : Bcache) : Op.sync.apply c = c.sync := rfl

theorem writeBacks_hit {c : Bcache} {blk : Nat} (h : c.find blk ≠ none) (buf : Block) :
    c.writeBacks (.read blk) = [] ∧ c.writeBacks (.write blk buf) = [] := ⟨if_neg h, if_neg h⟩

theorem writeBacks_miss {c : Bcache} {blk : Nat} (h : c.find blk = none) (buf : Block) :
    c.writeBacks (.read blk) = (c.slots c.hand).pending ∧
      c.writeBacks (.write blk buf) = (c.slots c.hand).pending := ⟨if_pos h, if_pos h⟩

theorem writeBacks_cases (c : Bcache) (op : Op) :
    c.writeBacks op = [] ∨ c.writeBacks op = (c.slots c.hand).pending ∨
      c.writeBacks op = (List.finRange 32).flatMap fun i => (c.slots i).pending := by
  cases op with
  | read blk =>
    by_cases hf : c.find blk = none
    · exact Or.inr (Or.inl (writeBacks_miss hf Block.zero).1)
    · exact Or.inl (writeBacks_hit hf Block.zero).1
  | write blk buf =>
    by_cases hf : c.find blk = none
    · exact Or.inr (Or.inl (writeBacks_miss hf buf).2)
    · exact Or.inl (writeBacks_hit hf buf).2
  | sync => exact Or.inr (Or.inr rfl)

theorem exists_pending {c : Bcache} {op : Op} {w : Nat × Block} (hw : w ∈ c.writeBacks op) :
    ∃ i, w ∈ (c.slots i).pending := by
  rcases c.writeBacks_cases op with h | h | h
  · rw [h] at hw
    exact absurd hw (by simp)
  · exact ⟨c.hand, h ▸ hw⟩
  · rw [h] at hw
    obtain ⟨i, -, hi⟩ := List.mem_flatMap.mp hw
    exact ⟨i, hi⟩

theorem apply_ata (c : Bcache) (op : Op) :
    (op.apply c).ata.disk = (c.ata.writeAll (c.writeBacks op)).disk ∧
      (op.apply c).ata.nwrites = c.ata.nwrites + (c.writeBacks op).length ∧
      (op.apply c).ata.writeOk = c.ata.writeOk := by
  cases op with
  | read blk =>
    cases hf : c.find blk with
    | some i =>
      rw [apply_read, read_hit hf, (writeBacks_hit (by simp [hf]) Block.zero).1]
      exact ⟨rfl, rfl, rfl⟩
    | none =>
      rw [apply_read, read_miss hf, (writeBacks_miss hf Block.zero).1]
      exact ⟨rfl, Ata.writeAll_nwrites .., Ata.writeAll_writeOk ..⟩
  | write blk buf =>
    cases hf : c.find blk with
    | some i =>
      rw [apply_write, write_hit hf, (writeBacks_hit (by simp [hf]) buf).2]
      exact ⟨rfl, rfl, rfl⟩
    | none =>
      rw [apply_write, write_miss hf, (writeBacks_miss hf buf).2]
      exact ⟨rfl, Ata.writeAll_nwrites .., Ata.writeAll_writeOk ..⟩
  | sync =>
    rw [apply_sync, sync_eq]
    exact ⟨rfl, Ata.writeAll_nwrites .., Ata.writeAll_writeOk ..⟩

/-! ## What survives every fault -/

/-- Whatever failed, no block is in two valid slots and a dirty slot holds the last data written. -/
structure Tracks (c : Bcache) (d : Nat → Block) : Prop where
  unique : ∀ i j, (c.slots i).valid = true → (c.slots j).valid = true →
    (c.slots i).blk = (c.slots j).blk → i = j
  dirty : ∀ i, (c.slots i).valid = true → (c.slots i).dirty = true →
    (c.slots i).data = d (c.slots i).blk

/-- Block `b` is in a dirty slot. -/
def Dirty (c : Bcache) (b : Nat) : Prop :=
  ∃ i, (c.slots i).valid = true ∧ (c.slots i).dirty = true ∧ (c.slots i).blk = b

namespace Tracks

variable {c : Bcache} {d : Nat → Block}

theorem init (c : Bcache) (d : Nat → Block) : c.init.Tracks d := by
  refine ⟨fun i j hi => absurd hi (by simp [Bcache.init]), fun i hi => absurd hi (by simp [Bcache.init])⟩

-- One slot gets a valid content whose block no other slot holds.
theorem put (h : c.Tracks d) {e : Bcache} {d' : Nat → Block} {i : Fin 32} {s : Slot}
    (hslots : e.slots = Function.update c.slots i s)
    (hfresh : ∀ j, j ≠ i → (c.slots j).valid = true → (c.slots j).blk ≠ s.blk)
    (hother : ∀ b, b ≠ s.blk → d' b = d b) (hdata : s.dirty = true → s.data = d' s.blk) :
    e.Tracks d' := by
  have hself : e.slots i = s := by rw [hslots, Function.update_self]
  have hne : ∀ j, j ≠ i → e.slots j = c.slots j := fun j hj => by
    rw [hslots, Function.update_of_ne hj]
  refine ⟨?_, ?_⟩
  · intro j k hj hk hjk
    by_cases hji : j = i <;> by_cases hki : k = i
    · rw [hji, hki]
    · subst hji
      rw [hself, hne k hki] at hjk
      rw [hne k hki] at hk
      exact absurd hjk.symm (hfresh k hki hk)
    · subst hki
      rw [hself, hne j hji] at hjk
      rw [hne j hji] at hj
      exact absurd hjk (hfresh j hji hj)
    · rw [hne j hji] at hj hjk
      rw [hne k hki] at hk hjk
      exact h.unique j k hj hk hjk
  · intro j hj hdj
    by_cases hji : j = i
    · rw [hji, hself] at hdj ⊢
      exact hdata hdj
    · rw [hne j hji] at hj hdj ⊢
      rw [h.dirty j hj hdj, hother _ (hfresh j hji hj)]

theorem apply (h : c.Tracks d) (op : Op) : (op.apply c).Tracks (op.logical d) := by
  cases op with
  | read blk =>
    cases hf : c.find blk with
    | some i =>
      rw [apply_read, read_hit hf]
      exact ⟨h.unique, h.dirty⟩
    | none =>
      rw [apply_read, read_miss hf]
      apply h.put (s := ⟨blk, true, false, c.fetched blk⟩) rfl
      · exact fun j _ hv => find_none hf j hv
      · exact fun _ _ => rfl
      · exact fun hd => absurd hd (by simp)
  | write blk buf =>
    cases hf : c.find blk with
    | some i =>
      obtain ⟨hv, hb⟩ := find_some hf
      rw [apply_write, write_hit hf]
      apply h.put (s := { c.slots i with data := buf, dirty := true }) rfl
      · exact fun j hji hvj he => hji (h.unique j i hvj hv he)
      · exact fun b hne => Function.update_of_ne (fun he => hne (he.trans hb.symm)) ..
      · intro _
        show buf = Function.update d blk buf (c.slots i).blk
        rw [hb, Function.update_self]
    | none =>
      rw [apply_write, write_miss hf]
      apply h.put (s := ⟨blk, true, true, buf⟩) rfl
      · exact fun j _ hv => find_none hf j hv
      · exact fun b hb => Function.update_of_ne hb ..
      · exact fun _ => (Function.update_self blk buf d).symm
  | sync =>
    rw [apply_sync, sync_eq]
    refine ⟨?_, fun i hv hd => absurd ⟨hv, hd⟩ (cleaned_not_dirty _)⟩
    intro i j hi hj hij
    rw [cleaned_valid] at hi hj
    rw [cleaned_blk, cleaned_blk] at hij
    exact h.unique i j hi hj hij

-- Only dirty slots are written back, with the last data written.
theorem mem_writeBacks (h : c.Tracks d) {op : Op} {b : Nat} {v : Block}
    (hw : (b, v) ∈ c.writeBacks op) : c.Dirty b ∧ v = d b := by
  obtain ⟨i, hi⟩ := exists_pending hw
  obtain ⟨⟨hv, hd⟩, heq⟩ := Slot.mem_pending.mp hi
  obtain ⟨rfl, rfl⟩ := Prod.mk.inj heq
  exact ⟨⟨i, hv, hd, rfl⟩, h.dirty i hv hd⟩

theorem writeBacks_nodup (h : c.Tracks d) (op : Op) : ((c.writeBacks op).map Prod.fst).Nodup := by
  have hslot : ∀ i, ((c.slots i).pending.map Prod.fst).Nodup := by
    intro i
    unfold Slot.pending
    split <;> simp
  have hdisj : ∀ i j, i ≠ j → List.Disjoint ((c.slots i).pending.map Prod.fst)
      ((c.slots j).pending.map Prod.fst) := by
    intro i j hij b hi hj
    obtain ⟨w, hw, rfl⟩ := List.mem_map.mp hi
    obtain ⟨w', hw', he⟩ := List.mem_map.mp hj
    obtain ⟨⟨hvi, -⟩, rfl⟩ := Slot.mem_pending.mp hw
    obtain ⟨⟨hvj, -⟩, rfl⟩ := Slot.mem_pending.mp hw'
    exact hij (h.unique i j hvi hvj he.symm)
  rcases c.writeBacks_cases op with hwb | hwb | hwb
  · rw [hwb]
    exact List.nodup_nil
  · rw [hwb]
    exact hslot c.hand
  · rw [hwb, List.map_flatMap, List.nodup_flatMap]
    refine ⟨fun i _ => hslot i, (List.nodup_finRange 32).imp ?_⟩
    intro i j hij
    exact hdisj i j hij

-- A slot that is given up: its block is dirty afterwards only if it is the new one.
theorem dirty_put (h : c.Tracks d) {e : Bcache} {s : Slot} (hs : s.valid = true)
    (hslots : e.slots = Function.update c.slots c.hand s) (b : Nat) :
    e.Dirty b ↔ (s.dirty = true ∧ s.blk = b) ∨
      (c.Dirty b ∧ b ∉ (c.slots c.hand).pending.map Prod.fst) := by
  unfold Dirty
  rw [hslots]
  constructor
  · rintro ⟨i, hv, hd, hb⟩
    by_cases hi : i = c.hand
    · rw [hi, Function.update_self] at hd hb
      exact Or.inl ⟨hd, hb⟩
    · rw [Function.update_of_ne hi] at hv hd hb
      refine Or.inr ⟨⟨i, hv, hd, hb⟩, fun hmem => hi ?_⟩
      obtain ⟨w, hw, rfl⟩ := List.mem_map.mp hmem
      obtain ⟨⟨hvh, -⟩, rfl⟩ := Slot.mem_pending.mp hw
      exact h.unique i c.hand hv hvh hb
  · rintro (⟨hd, hb⟩ | ⟨⟨i, hv, hd, hb⟩, hmem⟩)
    · exact ⟨c.hand, by rw [Function.update_self]; exact ⟨hs, hd, hb⟩⟩
    · have hi : i ≠ c.hand := by
        rintro rfl
        exact hmem (List.mem_map.mpr ⟨_, Slot.mem_pending.mpr ⟨⟨hv, hd⟩, rfl⟩, hb⟩)
      exact ⟨i, by rw [Function.update_of_ne hi]; exact ⟨hv, hd, hb⟩⟩

-- A slot that is written to: its block is dirty, and the others are as they were.
theorem dirty_mark {e : Bcache} {i : Fin 32} {s : Slot} (hs : s.valid = true) (hd : s.dirty = true)
    (hblk : s.blk = (c.slots i).blk) (hslots : e.slots = Function.update c.slots i s) (b : Nat) :
    e.Dirty b ↔ (c.slots i).blk = b ∨ c.Dirty b := by
  unfold Dirty
  rw [hslots]
  constructor
  · rintro ⟨j, hvj, hdj, hbj⟩
    by_cases hj : j = i
    · rw [hj, Function.update_self, hblk] at hbj
      exact Or.inl hbj
    · rw [Function.update_of_ne hj] at hvj hdj hbj
      exact Or.inr ⟨j, hvj, hdj, hbj⟩
  · rintro (hb | ⟨j, hvj, hdj, hbj⟩)
    · exact ⟨i, by rw [Function.update_self]; exact ⟨hs, hd, hblk.trans hb⟩⟩
    · by_cases hj : j = i
      · rw [hj] at hbj
        exact ⟨i, by rw [Function.update_self]; exact ⟨hs, hd, hblk.trans hbj⟩⟩
      · exact ⟨j, by rw [Function.update_of_ne hj]; exact ⟨hvj, hdj, hbj⟩⟩

-- A block is dirty after an operation that writes it, or if it was dirty and is not written back.
theorem dirty_apply (h : c.Tracks d) (op : Op) (b : Nat) :
    (op.apply c).Dirty b ↔ op.Writes b ∨ (c.Dirty b ∧ b ∉ (c.writeBacks op).map Prod.fst) := by
  cases op with
  | read blk =>
    cases hf : c.find blk with
    | some i =>
      rw [apply_read, read_hit hf, (writeBacks_hit (by simp [hf]) Block.zero).1]
      simp only [not_writes_read, false_or, List.map_nil, List.not_mem_nil, not_false_eq_true, and_true]
      rfl
    | none =>
      rw [apply_read, read_miss hf, (writeBacks_miss hf Block.zero).1,
        h.dirty_put (s := ⟨blk, true, false, c.fetched blk⟩) rfl rfl]
      simp
  | write blk buf =>
    rw [writes_write_iff]
    cases hf : c.find blk with
    | some i =>
      obtain ⟨hv, hb⟩ := find_some hf
      rw [apply_write, write_hit hf, (writeBacks_hit (by simp [hf]) buf).2,
        dirty_mark (i := i) (s := { c.slots i with data := buf, dirty := true }) hv rfl rfl rfl, hb]
      simp
    | none =>
      rw [apply_write, write_miss hf, (writeBacks_miss hf buf).2,
        h.dirty_put (s := ⟨blk, true, true, buf⟩) rfl rfl]
      simp
  | sync =>
    rw [apply_sync, sync_eq]
    constructor
    · rintro ⟨i, hv, hd, -⟩
      exact absurd ⟨hv, hd⟩ (cleaned_not_dirty _)
    · rintro (hw | ⟨⟨i, hv, hd, hb⟩, hmem⟩)
      · exact absurd hw (not_writes_sync b)
      · have hw : (b, (c.slots i).data) ∈ c.writeBacks .sync :=
          List.mem_flatMap.mpr ⟨i, List.mem_finRange i, Slot.mem_pending.mpr ⟨⟨hv, hd⟩, by rw [hb]⟩⟩
        exact absurd (List.mem_map.mpr ⟨_, hw, rfl⟩) hmem

end Tracks

/-! ## Failed writes -/

/-- The logical content of block `b` is on disk, or still to be written back. -/
def Safe (c : Bcache) (d : Nat → Block) (b : Nat) : Prop := c.ata.disk b = d b ∨ c.Dirty b

/-- The operation writes block `b` back and fails, and the disk holds something else. -/
def Loses (c : Bcache) (op : Op) (b : Nat) : Prop :=
  ∃ k v, (c.writeBacks op)[k]? = some (b, v) ∧ c.ata.writeOk (c.ata.nwrites + k) = false ∧
    v ≠ c.ata.disk b

theorem logical_of_not_writes {d : Nat → Block} {op : Op} {b : Nat} (h : ¬ op.Writes b) :
    op.logical d b = d b := by
  cases op with
  | read blk => rfl
  | sync => rfl
  | write blk buf =>
    have hne : b ≠ blk := by
      rintro rfl
      exact h ⟨buf, rfl⟩
    exact Function.update_of_ne hne ..

namespace Tracks

variable {c : Bcache} {d : Nat → Block}

theorem disk_apply_other {op : Op} {b : Nat} (hb : b ∉ (c.writeBacks op).map Prod.fst) :
    (op.apply c).ata.disk b = c.ata.disk b := by
  rw [(apply_ata c op).1, Ata.writeAll_other _ hb]

-- The write-back of `b` is write number `k` and no other.
theorem loses_iff (h : c.Tracks d) {op : Op} {b k : Nat} {v : Block} (hk : (c.writeBacks op)[k]? = some (b, v)) :
    c.Loses op b ↔ c.ata.writeOk (c.ata.nwrites + k) = false ∧ v ≠ c.ata.disk b := by
  constructor
  · rintro ⟨k', v', hk', hfail, hne⟩
    have hkk : k' = k := by
      have hfst : ((c.writeBacks op).map Prod.fst)[k']? = ((c.writeBacks op).map Prod.fst)[k]? := by
        rw [List.getElem?_map, List.getElem?_map, hk', hk]
        rfl
      have hlt : k' < ((c.writeBacks op).map Prod.fst).length := by
        rw [List.length_map]
        exact (List.getElem?_eq_some_iff.mp hk').1
      exact (List.getElem?_inj hlt (h.writeBacks_nodup op)).mp hfst
    subst hkk
    obtain ⟨-, rfl⟩ := Prod.mk.inj (Option.some.inj (hk.symm.trans hk'))
    exact ⟨hfail, hne⟩
  · rintro ⟨hfail, hne⟩
    exact ⟨k, v, hk, hfail, hne⟩

theorem safe_apply (h : c.Tracks d) {op : Op} {b : Nat} (hop : ¬ op.Writes b) :
    (op.apply c).Safe (op.logical d) b ↔ c.Safe d b ∧ ¬ c.Loses op b := by
  unfold Safe
  rw [logical_of_not_writes hop, h.dirty_apply, or_iff_right hop]
  by_cases hmem : b ∈ (c.writeBacks op).map Prod.fst
  · obtain ⟨⟨b', v⟩, hw, rfl⟩ := List.mem_map.mp hmem
    obtain ⟨k, hk, hget⟩ := List.mem_iff_getElem.mp hw
    have hsome : (c.writeBacks op)[k]? = some (b', v) := by rw [List.getElem?_eq_getElem hk, hget]
    obtain ⟨hdirty, hv⟩ := h.mem_writeBacks hw
    have hdisk := c.ata.writeAll_disk (h.writeBacks_nodup op) hsome
    rw [(apply_ata c op).1, hdisk]
    rw [h.loses_iff hsome]
    cases hok : c.ata.writeOk (c.ata.nwrites + k) with
    | true => simp [hv, hdirty]
    | false =>
      rw [if_neg (by simp)]
      constructor
      · rintro (hd | ⟨-, hno⟩)
        · exact ⟨Or.inr hdirty, fun hl => hl.2 (hv.trans hd.symm)⟩
        · exact absurd hmem hno
      · rintro ⟨-, hkeep⟩
        left
        by_contra hne
        exact hkeep ⟨rfl, fun he => hne (he.symm.trans hv)⟩
  · have hno : ¬ c.Loses op b := by
      rintro ⟨k, v, hk, -⟩
      exact hmem (List.mem_map.mpr ⟨_, List.mem_of_getElem? hk, rfl⟩)
    rw [disk_apply_other hmem]
    simp [hno, hmem]

theorem safe_write (h : c.Tracks d) {op : Op} {b : Nat} (hop : op.Writes b) :
    (op.apply c).Safe (op.logical d) b ∧ ¬ c.Loses op b := by
  refine ⟨Or.inr ((h.dirty_apply op b).mpr (Or.inl hop)), ?_⟩
  rintro ⟨k, v, hk, -⟩
  obtain ⟨buf, rfl⟩ := hop
  have hmem := List.mem_of_getElem? hk
  by_cases hf : c.find b = none
  · -- the block is in no slot, so it is not the one evicted
    rw [(writeBacks_miss hf buf).2] at hmem
    obtain ⟨⟨hv, -⟩, heq⟩ := Slot.mem_pending.mp hmem
    exact find_none hf c.hand hv (Prod.mk.inj heq).1.symm
  · rw [(writeBacks_hit hf buf).2] at hmem
    exact absurd hmem (by simp)

end Tracks

/-- Every lost write-back of block `b` is followed by another `bcache_write` to it. -/
def WrittenAgain (b : Nat) : List Op → Bcache → Prop
  | [], _ => True
  | op :: ops, c => (c.Loses op b → ∃ w ∈ ops, w.Writes b) ∧ WrittenAgain b ops (op.apply c)

theorem Tracks.safe_run {c : Bcache} {d : Nat → Block} (h : c.Tracks d) (ops : List Op) (b : Nat) :
    (runOps ops c).Safe (written d ops) b ↔
      (c.Safe d b ∨ ∃ w ∈ ops, w.Writes b) ∧ WrittenAgain b ops c := by
  induction ops generalizing c d with
  | nil =>
    show c.Safe d b ↔ _
    simp [WrittenAgain]
  | cons op ops ih =>
    rw [written_cons, WrittenAgain, List.exists_mem_cons_iff]
    show (runOps ops (op.apply c)).Safe _ b ↔ _
    rw [ih (h.apply op)]
    by_cases hop : op.Writes b
    · obtain ⟨hsafe, hkeep⟩ := h.safe_write hop
      simp [hop, hsafe, hkeep]
    · rw [h.safe_apply hop]
      simp only [hop, false_or]
      tauto

theorem Tracks.run {c : Bcache} {d : Nat → Block} (h : c.Tracks d) (ops : List Op) :
    (runOps ops c).Tracks (written d ops) := by
  induction ops generalizing c d with
  | nil => exact h
  | cons op ops ih =>
    rw [written_cons]
    exact ih (h.apply op)

-- After a sync whose writes all succeed the disk holds exactly what was safe.
theorem Tracks.sync_disk_iff {c : Bcache} {d : Nat → Block} (h : c.Tracks d)
    (hok : ∀ k, c.ata.nwrites ≤ k → k < c.sync.ata.nwrites → c.ata.writeOk k = true) (b : Nat) :
    c.sync.ata.disk b = d b ↔ c.Safe d b := by
  have hclean : ¬ (Op.sync.apply c).Dirty b := by
    rw [apply_sync, sync_eq]
    rintro ⟨i, hv, hd, -⟩
    exact cleaned_not_dirty _ ⟨hv, hd⟩
  have hkeep : ¬ c.Loses .sync b := by
    rintro ⟨k, v, hk, hfail, -⟩
    have hlt := (List.getElem?_eq_some_iff.mp hk).1
    have hnum := (apply_ata c .sync).2.1
    rw [apply_sync] at hnum
    rw [hok _ (by omega) (by omega)] at hfail
    exact Bool.noConfusion hfail
  have hstep := h.safe_apply (not_writes_sync b)
  rw [and_iff_left hkeep] at hstep
  rw [← hstep]
  unfold Safe
  rw [or_iff_left hclean]
  rfl

/-- A final sync whose writes all succeed leaves the last data written of every block on disk exactly
if every write-back that was lost before was of a block that is written again later. -/
theorem sync_holds_lastWrite (c : Bcache) (ops : List Op)
    (hok : ∀ k, (runOps ops c.init).ata.nwrites ≤ k → k < (runOps ops c.init).sync.ata.nwrites →
      (runOps ops c.init).ata.writeOk k = true) :
    (∀ b, (runOps ops c.init).sync.ata.disk b = (lastWrite b ops).getD (c.ata.disk b)) ↔
      ∀ b, WrittenAgain b ops c.init := by
  have hinit := Tracks.init c c.ata.disk
  have hsafe : ∀ b, c.init.Safe c.ata.disk b := fun b => Or.inl rfl
  refine forall_congr' fun b => ?_
  have hsync := (hinit.run ops).sync_disk_iff hok b
  rw [hinit.safe_run ops b, and_iff_right (Or.inl (hsafe b))] at hsync
  exact hsync

theorem slots_pos : 0 < 32 := Nat.succ_pos 31

/-- The cache as the kernel's zeroed data starts it. -/
def zeroed (ata : Ata) : Bcache := ⟨fun _ => ⟨0, false, false, Block.zero⟩, ⟨0, slots_pos⟩, 0, 0, ata⟩

/-- A blank disk whose write number `k` fails. -/
def badWrite (k : Nat) : Ata := ⟨fun _ => Block.zero, fun _ => true, fun j => j != k, 0, 0⟩

-- One block is written and the first sync fails: the slot is marked clean, and the second sync has
-- nothing to write.
theorem sync_forgets :
    (∀ k, (zeroed (badWrite 0)).ata.readOk k = true) ∧
    (∀ k, (runOps [.write 0 superblock, .sync] (zeroed (badWrite 0)).init).ata.nwrites ≤ k →
      k < (runOps [.write 0 superblock, .sync] (zeroed (badWrite 0)).init).sync.ata.nwrites →
      (zeroed (badWrite 0)).ata.writeOk k = true) ∧
    (runOps [.write 0 superblock, .sync] (zeroed (badWrite 0)).init).sync.ata.disk 0 ≠
      (lastWrite 0 [.write 0 superblock, .sync]).getD ((zeroed (badWrite 0)).ata.disk 0) := by
  refine ⟨fun _ => rfl, ?_, ?_⟩
  · intro k hle hlt
    exact absurd (Nat.lt_of_le_of_lt hle hlt) (by decide +kernel)
  · intro h
    have hmagic := congrArg Block.magic h
    have hlast : ((lastWrite 0 [.write 0 superblock, .sync]).getD
        ((zeroed (badWrite 0)).ata.disk 0)).magic = sfsMagic := superblock_magic
    rw [hlast] at hmagic
    exact absurd hmagic (by decide +kernel)

-- The first sync fails, but the block is written once more before the second.
theorem sync_holds_rewritten :
    (runOps [.write 0 superblock, .sync, .write 0 superblock]
      (zeroed (badWrite 0)).init).sync.ata.disk 0 = superblock := by
  refine (sync_holds_lastWrite (zeroed (badWrite 0))
    [.write 0 superblock, .sync, .write 0 superblock] ?_).mpr ?_ 0
  · intro k hle hlt
    have hnum : (runOps [.write 0 superblock, .sync, .write 0 superblock]
        (zeroed (badWrite 0)).init).ata.nwrites = 1 := by decide +kernel
    have hnum' : (runOps [.write 0 superblock, .sync, .write 0 superblock]
        (zeroed (badWrite 0)).init).sync.ata.nwrites = 2 := by decide +kernel
    obtain rfl : k = 1 := by omega
    decide +kernel
  · intro b
    have hinit := Tracks.init (zeroed (badWrite 0)) (zeroed (badWrite 0)).ata.disk
    have hclean : ¬ (zeroed (badWrite 0)).init.Dirty b := fun ⟨_, hv, _⟩ => Bool.noConfusion hv
    refine ⟨?_, ?_, ?_, trivial⟩
    · rintro ⟨k, v, hk, -⟩
      exact absurd (hinit.mem_writeBacks (List.mem_of_getElem? hk)).1 hclean
    · rintro ⟨k, v, hk, -⟩
      have hdirty := ((hinit.apply _).mem_writeBacks (List.mem_of_getElem? hk)).1
      rw [hinit.dirty_apply, or_iff_left (fun hd => hclean hd.1)] at hdirty
      obtain ⟨buf, he⟩ := hdirty
      exact ⟨_, List.mem_singleton_self _, superblock, by rw [(Op.write.inj he).1]⟩
    · rintro ⟨k, v, hk, -⟩
      have hhit : (Op.sync.apply ((Op.write 0 superblock).apply (zeroed (badWrite 0)).init)).find 0 ≠
          none := by decide +kernel
      rw [(writeBacks_hit hhit superblock).2] at hk
      exact absurd hk (by simp)

end Bcache

end JacobOS.Fs
