import JacobOS.Fs.Objects
import JacobOS.Lib.FirstMatch

/-!
# Directories as lists of slots

Each directory helper scans the slots of a directory in order.  Here every one of them is described
by what it does to that list.
-/

namespace JacobOS.Fs

open BlockProgram Ownership FirstMatch CString

/-- The bitmap is exact and every inode's blocks are a prefix of its pointers. -/
structure Sound (d : Disk) : Prop where
  mapped : Mapped d (table d)
  filled : ∀ j, j < 64 → ∃ m, (inodeAt d j).Filled m

namespace Sound

variable {d e : Disk}

theorem of_frame {i : Nat} (h : Sound d) (hframe : Frame (· = i) d e) (hmap : Mapped e (table e))
    {m : Nat} (hm : (inodeAt e i).Filled m) : Sound e := by
  refine ⟨hmap, fun j hj => ?_⟩
  by_cases hji : j = i
  · exact ⟨m, hji ▸ hm⟩
  · rw [hframe.inode j hj hji]
    exact h.filled j hj

-- Rewriting a block of inode `i` in place.
theorem write_in_place (h : Sound d) {i p : Nat} (hi : i < 64) (hp : p ∈ (inodeAt d i).ptrs)
    (buf : Block) :
    Sound (Function.update d p buf) ∧ Frame (· = i) d (Function.update d p buf) ∧
      ∀ j, j < 64 → inodeAt (Function.update d p buf) j = inodeAt d j := by
  obtain ⟨m, hm⟩ := h.filled i hi
  have hlo := (h.mapped.ptrs_range hi hm hp).1
  have hino : ∀ j, j < 64 → inodeAt (Function.update d p buf) j = inodeAt d j :=
    fun j hj => inodeAt_congr hj fun q _ hq => Function.update_of_ne (by omega) ..
  have htab : table (Function.update d p buf) = table d := funext fun j => hino j j.isLt
  refine ⟨⟨?_, ?_⟩, ⟨?_, ?_, ?_⟩, hino⟩
  · rw [htab]
    exact h.mapped.congr_disk (Function.update_of_ne (by omega) ..)
  · intro j hj
    rw [hino j hj]
    exact h.filled j hj
  · exact Function.update_of_ne (by omega) ..
  · exact fun j hj _ => hino j hj
  · intro j hj hji q hq
    obtain ⟨k, hk⟩ := h.filled j hj
    have hnot := h.mapped.ptrs_disjoint hi hj (Ne.symm hji) hm hk hp
    exact Function.update_of_ne (fun he : q = p => hnot (he ▸ hq)) ..

end Sound

/-! ## The scan -/

def scanBlocks (hit : Dirent → Bool) (d : Disk) : List Nat → Option (Nat × Block × Nat)
  | [] => none
  | p :: ps =>
      match (List.range 16).find? (fun e => hit ((d p).dirent e)) with
      | some e => some (p, d p, e)
      | none => scanBlocks hit d ps

theorem run_scanDirents (hit : Dirent → Bool) (ps : List UInt32) (d : Disk) :
    (scanDirents hit ps).run flat d =
      (scanBlocks hit d ((ps.takeWhile (· ≠ 0)).map UInt32.toNat), d) := by
  induction ps with
  | nil => rfl
  | cons p ps ih =>
    rw [scanDirents]
    by_cases hp : p = 0
    · simp [hp, scanBlocks]
    · rw [if_neg hp, Prog.run_bind, run_readBlock, List.takeWhile_cons_of_pos (by simp [hp]),
        List.map_cons, scanBlocks]
      cases (List.range 16).find? (fun e => hit ((d p.toNat).dirent e)) with
      | some e => rfl
      | none => exact ih

theorem scanDirents_inode (hit : Dirent → Bool) (n : Inode) (d : Disk) :
    (scanDirents hit n.blocks.toList).run flat d = (scanBlocks hit d n.ptrs, d) :=
  run_scanDirents hit _ d

theorem find?_dirents (hit : Dirent → Bool) (b : Block) :
    b.dirents.find? hit = ((List.range 16).find? (fun e => hit (b.dirent e))).map b.dirent := by
  unfold Block.dirents
  rw [List.find?_map]
  rfl

theorem dirents_setDirent {hit : Dirent → Bool} {b : Block} {e : Nat}
    (h : (List.range 16).find? (fun e => hit (b.dirent e)) = some e) (f : Dirent → Dirent) :
    (b.setDirent e (f (b.dirent e))).dirents = modifyFirst hit f b.dirents := by
  have he : e < 16 := List.mem_range.mp (List.mem_of_find?_eq_some h)
  obtain ⟨pre, post, heq, hhit, hpre⟩ := find?_split h
  have hnd : (pre ++ e :: post).Nodup := heq ▸ List.nodup_range
  have hnot : e ∉ pre ∧ e ∉ post := by
    rw [List.nodup_append] at hnd
    exact ⟨fun hm => hnd.2.2 e hm e List.mem_cons_self rfl, (List.nodup_cons.mp hnd.2.1).1⟩
  have hother : ∀ l : List Nat, e ∉ l →
      l.map (b.setDirent e (f (b.dirent e))).dirent = l.map b.dirent := by
    intro l hl
    apply List.map_congr_left
    intro k hk
    exact Block.dirent_setDirent_other b (fun hke : k = e => hl (hke ▸ hk)) _
  have hmap : ∀ x ∈ pre.map b.dirent, hit x = false := by
    intro x hx
    obtain ⟨k, hk, rfl⟩ := List.mem_map.mp hx
    exact hpre k hk
  unfold Block.dirents
  rw [heq, List.map_append, List.map_cons, List.map_append, List.map_cons,
    modifyFirst_split hhit hmap, hother pre hnot.1, hother post hnot.2,
    Block.dirent_setDirent b he]

-- A scan without a hit.
theorem scanBlocks_none {hit : Dirent → Bool} {d : Disk} {ps : List Nat}
    (h : scanBlocks hit d ps = none) : ∀ de ∈ slotsOf d ps, hit de = false := by
  induction ps with
  | nil => exact fun de hde => absurd hde (by simp [slotsOf])
  | cons p ps ih =>
    rw [scanBlocks] at h
    cases hf : (List.range 16).find? (fun e => hit ((d p).dirent e)) with
    | some e => rw [hf] at h; exact absurd h (by simp)
    | none =>
      rw [hf] at h
      intro de hde
      rw [slotsOf, List.flatMap_cons, List.mem_append] at hde
      rcases hde with hde | hde
      · have hnone := find?_dirents hit (d p)
        rw [hf] at hnone
        simpa using List.find?_eq_none.mp hnone de hde
      · exact ih h de hde

-- A scan that stops finds the first hit, and rewriting that dirent in its block modifies exactly
-- that slot.
theorem scanBlocks_some {hit : Dirent → Bool} {d : Disk} {ps : List Nat} {p : Nat} {buf : Block}
    {e : Nat} (h : scanBlocks hit d ps = some (p, buf, e)) :
    p ∈ ps ∧ buf = d p ∧ (slotsOf d ps).find? hit = some (buf.dirent e) ∧
      (ps.Nodup → ∀ f : Dirent → Dirent,
        slotsOf (Function.update d p (buf.setDirent e (f (buf.dirent e)))) ps =
          modifyFirst hit f (slotsOf d ps)) := by
  induction ps with
  | nil => exact absurd h (by simp [scanBlocks])
  | cons q ps ih =>
    rw [scanBlocks] at h
    have hcons : ∀ g : Disk, slotsOf g (q :: ps) = (g q).dirents ++ slotsOf g ps :=
      fun g => List.flatMap_cons ..
    have hblock := find?_dirents hit (d q)
    cases hf : (List.range 16).find? (fun e => hit ((d q).dirent e)) with
    | some e' =>
      rw [hf] at h hblock
      obtain ⟨rfl, rfl, rfl⟩ : q = p ∧ d q = buf ∧ e' = e := by simpa using h
      refine ⟨List.mem_cons_self, rfl, ?_, ?_⟩
      · rw [hcons, List.find?_append, hblock]
        rfl
      · intro hnd f
        have hrest : slotsOf (Function.update d q ((d q).setDirent e' (f ((d q).dirent e')))) ps =
            slotsOf d ps :=
          slotsOf_congr fun r hr => Function.update_of_ne
            (fun he : r = q => (List.nodup_cons.mp hnd).1 (he ▸ hr)) ..
        have hmem := List.mem_of_find?_eq_some hblock
        have hhit := List.find?_some hblock
        rw [hcons, hrest, Function.update_self, dirents_setDirent hf, hcons,
          modifyFirst_append_of_some hmem hhit]
    | none =>
      rw [hf] at h hblock
      obtain ⟨hmem, hbuf, hfind, hmod⟩ := ih h
      refine ⟨List.mem_cons_of_mem q hmem, hbuf, ?_, ?_⟩
      · rw [hcons, List.find?_append, hblock, hfind]
        rfl
      · intro hnd f
        have hqp : q ≠ p := fun he => (List.nodup_cons.mp hnd).1 (he ▸ hmem)
        have hno : ∀ x ∈ (d q).dirents, hit x = false := by
          intro x hx
          simpa using List.find?_eq_none.mp hblock x hx
        rw [hcons, Function.update_of_ne hqp, hmod (List.nodup_cons.mp hnd).2, hcons,
          modifyFirst_append_of_none hno]

/-! ## Lookup -/

theorem isNamed_iff {name : List UInt8} {de : Dirent} :
    de.isNamed name = true ↔ de.inum1 ≠ 0 ∧ de.str = cstr name := by
  unfold Dirent.isNamed Dirent.str
  simp [strcmp_eq_zero_iff]

/-- The first entry named `name`. -/
def findNamed (slots : List Dirent) (name : List UInt8) : Option Dirent :=
  slots.find? (Dirent.isNamed name)

theorem run_dirLookup (dir : Nat) (name : List UInt8) (d : Disk) :
    (dirLookup dir name).run flat d =
      (if typeAt d dir = sfsDir then
        (findNamed (slotsAt d dir) name).bind fun de => inumOf de.inum1 else none, d) := by
  rw [dirLookup, Prog.run_bind, run_readInode]
  dsimp only
  by_cases ht : (inodeAt d dir).type = sfsDir
  · rw [if_neg (not_not.mpr ht), Prog.run_bind, scanDirents_inode,
      if_pos (show typeAt d dir = sfsDir from ht)]
    unfold findNamed slotsAt
    cases hs : scanBlocks (Dirent.isNamed name) d (inodeAt d dir).ptrs with
    | none =>
      have hnone : (slotsOf d (inodeAt d dir).ptrs).find? (Dirent.isNamed name) = none :=
        List.find?_eq_none.mpr fun de hde => by simp [scanBlocks_none hs de hde]
      rw [hnone]
      rfl
    | some r =>
      obtain ⟨p, buf, e⟩ := r
      rw [(scanBlocks_some hs).2.2.1]
      rfl
  · rw [if_pos ht, if_neg (show ¬ typeAt d dir = sfsDir from ht)]
    rfl

/-! ## Adding and removing entries -/

/-- `dir_add` on the slots: reuse the first free one, or start a new block of sixteen. -/
def addSlot (slots : List Dirent) (name : List UInt8) (child : Nat) : List Dirent :=
  if slots.any (fun de => de.inum1 == 0) then
    modifyFirst (fun de => de.inum1 == 0) (fun de => de.put child name) slots
  else slots ++ Dirent.zero.put child name :: List.replicate 15 Dirent.zero

def removeSlot (slots : List Dirent) (name : List UInt8) : List Dirent :=
  modifyFirst (Dirent.isNamed name) Dirent.clear slots

theorem dirents_fresh (de : Dirent) :
    (Block.zero.setDirent 0 de).dirents = de :: List.replicate 15 Dirent.zero := by
  unfold Block.dirents
  rw [List.range_succ_eq_map, List.map_cons, Block.dirent_setDirent _ (by decide), List.map_map]
  congr 1
  have hzero : ∀ e ∈ List.range 15, ((Block.zero.setDirent 0 de).dirent ∘ Nat.succ) e =
      Dirent.zero := by
    intro e _
    rw [Function.comp_apply, Block.dirent_setDirent_other _ (Nat.succ_ne_zero e), Block.dirent_zero]
  rw [List.map_congr_left hzero]
  simp

theorem putInode_update_comm (d : Disk) {i p : Nat} (hi : i < 64) (hp : 9 ≤ p) (n : Inode)
    (b : Block) :
    Function.update (putInode d i n) p b = putInode (Function.update d p b) i n := by
  unfold putInode
  rw [Function.update_of_ne (by omega : 1 + i / 8 ≠ p), Function.update_comm (by omega)]

/-- What adding an entry to directory `dir` does to the disk. -/
structure AddEffect (dir : Nat) (name : List UInt8) (child : Nat) (d e : Disk) : Prop where
  sound : Sound e
  frame : Frame (· = dir) d e
  type : typeAt e dir = typeAt d dir
  slots : slotsAt e dir = addSlot (slotsAt d dir) name child
  size : ∀ m, (inodeAt d dir).Filled m →
    ((inodeAt e dir).Filled m ∧ (inodeAt e dir).size = (inodeAt d dir).size) ∨
    ((inodeAt e dir).Filled (m + 1) ∧ (inodeAt e dir).size = (inodeAt d dir).size + 512)

-- A free slot of an existing block is reused.
theorem addEffect_reuse {d : Disk} (h : Sound d) {dir : Nat} (hdir : dir < 64) (name : List UInt8)
    (child : Nat) {p e : Nat} {buf : Block}
    (hs : scanBlocks (fun de => de.inum1 == 0) d (inodeAt d dir).ptrs = some (p, buf, e)) :
    AddEffect dir name child d
      (Function.update d p (buf.setDirent e ((buf.dirent e).put child name))) := by
  obtain ⟨hp, rfl, hfind, hmod⟩ := scanBlocks_some hs
  obtain ⟨m, hm⟩ := h.filled dir hdir
  obtain ⟨hsound, hframe, hino⟩ := h.write_in_place hdir hp
    ((d p).setDirent e (((d p).dirent e).put child name))
  refine ⟨hsound, hframe, ?_, ?_, ?_⟩
  · unfold typeAt
    rw [hino dir hdir]
  · have hzero : (((d p).dirent e).inum1 == 0) = true := by
      have hhit := List.find?_some hfind
      exact hhit
    have hany : (slotsAt d dir).any (fun de => de.inum1 == 0) = true :=
      List.any_eq_true.mpr ⟨_, List.mem_of_find?_eq_some hfind, hzero⟩
    unfold addSlot
    rw [if_pos hany, slotsAt, hino dir hdir]
    exact hmod (h.mapped.ptrs_nodup hdir hm) fun de => de.put child name
  · intro m' hm'
    rw [hino dir hdir]
    exact Or.inl ⟨hm', rfl⟩

/-- The inode of a directory that grows from `m` blocks by the block `16 + k`. -/
def grownInode (n : Inode) (m k : Nat) : Inode :=
  (n.setPtr m (UInt32.ofNat (16 + k))).setSize (n.size + 512)

/-- The disk when the block `16 + k` is taken and filled with `buf`, and then the inode written. -/
def grownDisk (d : Disk) (dir m k : Nat) (buf : Block) : Disk :=
  putInode (Function.update (takeBlock d k) (16 + k) buf) dir (grownInode (inodeAt d dir) m k)

theorem ptr_grownInode (n : Inode) {m : Nat} (hm : m < 14) (k c : Nat) :
    (grownInode n m k).ptr c = if c = m then UInt32.ofNat (16 + k) else n.ptr c := by
  unfold grownInode
  rw [Inode.ptr_setSize, Inode.ptr_setPtr _ _ hm]

-- The block that is taken belongs to no inode, so what the inodes own stays as it is.
theorem keepsOwned_take {d : Disk} {k : Nat} (hfree : ∀ i b, ((table d i).ptr b).toNat ≠ 16 + k)
    (buf : Block) : KeepsOwned (table d) d (Function.update (takeBlock d k) (16 + k) buf) := by
  intro p h9 hp
  have hpk : p ≠ 16 + k := by
    rcases hp with hlo | ⟨c, hc⟩
    · omega
    · intro he
      rw [he] at hc
      exact hfree _ _ (cell_eq_some.mp hc).2
  rw [Function.update_of_ne hpk, takeBlock_apply d k h9 hpk]

theorem slotsAt_grown {d : Disk} (h : Sound d) {dir m k : Nat} (hdir : dir < 64) (hk : k < 2048)
    (hm : (inodeAt d dir).Filled m) (hm14 : m < 14)
    (hfree : ∀ i b, ((table d i).ptr b).toNat ≠ 16 + k) (buf : Block) :
    slotsAt (grownDisk d dir m k buf) dir = slotsAt d dir ++ buf.dirents := by
  have hself : inodeAt (grownDisk d dir m k buf) dir = grownInode (inodeAt d dir) m k :=
    inodeAt_putInode ..
  have hold : slotsOf (grownDisk d dir m k buf) (inodeAt d dir).ptrs = slotsAt d dir := by
    apply slotsOf_congr
    intro p hp
    have hlo := (h.mapped.ptrs_range hdir hm hp).1
    obtain ⟨b, hb, rfl⟩ := hm.mem_ptrs.mp hp
    unfold grownDisk
    rw [putInode_apply _ hdir _ (Or.inr (by omega))]
    apply keepsOwned_take hfree buf _ (by omega)
    exact Or.inr ⟨(⟨dir, hdir⟩, ⟨b, by omega⟩), cell_eq_some.mpr ⟨(hm b).mpr hb, rfl⟩⟩
  have hnew : grownDisk d dir m k buf (16 + k) = buf := by
    unfold grownDisk
    rw [putInode_apply _ hdir _ (Or.inr (by omega)), Function.update_self]
  have happ : ∀ g : Disk, slotsOf g ((inodeAt d dir).ptrs ++ [16 + k]) =
      slotsOf g (inodeAt d dir).ptrs ++ (g (16 + k)).dirents := by
    intro g
    simp [slotsOf]
  rw [slotsAt, hself, hm.ptrs_snoc (Mapped.ofNat_block_ne_zero hk) (ptr_grownInode _ hm14 k),
    Mapped.ofNat_block hk, happ, hold, hnew]

-- Every slot is taken, so the directory grows by a block with the entry in its first slot.
theorem addEffect_grow {d : Disk} (h : Sound d) {dir : Nat} (hdir : dir < 64) (name : List UInt8)
    (child : Nat) {m k : Nat} (hm : (inodeAt d dir).Filled m) (hm14 : m < 14) (hk : k < 2048)
    (hfree : ∀ i b, ((table d i).ptr b).toNat ≠ 16 + k)
    (hfull : ∀ de ∈ slotsAt d dir, (de.inum1 == 0) = false) :
    AddEffect dir name child d
      (grownDisk d dir m k (Block.zero.setDirent 0 (Dirent.zero.put child name))) := by
  have hne := Mapped.ofNat_block_ne_zero hk
  have hset := ptr_grownInode (inodeAt d dir) hm14 k
  have hkeeps := keepsOwned_take hfree (Block.zero.setDirent 0 (Dirent.zero.put child name))
  have hmap := (h.mapped.take hk hfree (i := ⟨dir, hdir⟩) hm14 (hm.ptr_eq_zero (Nat.le_refl m))
    hset).congr_disk (e := Function.update (takeBlock d k) (16 + k)
      (Block.zero.setDirent 0 (Dirent.zero.put child name))) (Function.update_of_ne (by omega) ..)
  have hframe : Frame (· = dir) d
      (grownDisk d dir m k (Block.zero.setDirent 0 (Dirent.zero.put child name))) := by
    rw [← Mapped.update_table hdir] at hkeeps
    exact hkeeps.frame hdir h.mapped h.filled
  have hself : inodeAt (grownDisk d dir m k (Block.zero.setDirent 0 (Dirent.zero.put child name))) dir =
      grownInode (inodeAt d dir) m k := inodeAt_putInode ..
  refine ⟨?_, hframe, ?_, ?_, ?_⟩
  · exact h.of_frame hframe (hmap.putInode_pending hdir hkeeps.table_eq) (hself ▸ hm.snoc hne hset)
  · unfold typeAt
    rw [hself, grownInode, Inode.setSize_type, Inode.setPtr_type]
  · have hany : ¬ (slotsAt d dir).any (fun de => de.inum1 == 0) = true := by
      intro ha
      obtain ⟨de, hde, h0⟩ := List.any_eq_true.mp ha
      rw [hfull de hde] at h0
      exact absurd h0 (by simp)
    unfold addSlot
    rw [if_neg hany, slotsAt_grown h hdir hk hm hm14 hfree, dirents_fresh]
  · intro m' hm'
    obtain rfl := hm'.unique hm
    rw [hself]
    exact Or.inr ⟨hm.snoc hne hset, by rw [grownInode, Inode.setSize_size]⟩

theorem run_dirAdd {d : Disk} (h : Sound d) {dir : Nat} (hdir : dir < 64) (name : List UInt8)
    (child : Nat) {m : Nat} (hm : (inodeAt d dir).Filled m)
    (hroom : m < 14 ∨ ∃ de ∈ slotsAt d dir, de.inum1 = 0) :
    ∃ e, (dirAdd dir name child).run flat d = (some 0, e) ∧ AddEffect dir name child d e := by
  rw [dirAdd, Prog.run_bind, run_readInode, Prog.run_bind, scanDirents_inode]
  dsimp only
  cases hs : scanBlocks (fun de => de.inum1 == 0) d (inodeAt d dir).ptrs with
  | some r => exact ⟨_, rfl, addEffect_reuse h hdir name child hs⟩
  | none =>
    have hfull := scanBlocks_none hs
    have hm14 : m < 14 := by
      rcases hroom with hlt | ⟨de, hde, h0⟩
      · exact hlt
      · have hno := hfull de hde
        rw [h0] at hno
        exact absurd hno (by simp)
    have hslot : (List.range 14).find? (fun b => decide ((inodeAt d dir).ptr b = 0)) = some m := by
      rw [List.find?_range_eq_some]
      refine ⟨by simp [hm.ptr_eq_zero (Nat.le_refl m)], List.mem_range.mpr hm14, ?_⟩
      intro b hb
      simpa using (hm b).mpr hb
    obtain ⟨k, hk, halloc, hfree⟩ := h.mapped.alloc
    refine ⟨_, ?_, addEffect_grow h hdir name child hm hm14 hk hfree hfull⟩
    rw [hslot]
    simp only [Prog.run_bind, halloc, if_neg (Mapped.ofNat_block_ne_zero hk), run_writeInode,
      run_writeBlock, Prog.run_pure, Mapped.ofNat_block hk, Block.dirent_zero]
    -- the source writes the inode before it fills the new block, which gives the same disk
    rw [putInode_update_comm _ hdir (by omega)]
    rfl

/-- What removing the first entry named `name` from directory `dir` does to the disk. -/
structure RemoveEffect (dir : Nat) (name : List UInt8) (d e : Disk) : Prop where
  sound : Sound e
  frame : Frame (· = dir) d e
  inode : inodeAt e dir = inodeAt d dir
  slots : slotsAt e dir = removeSlot (slotsAt d dir) name

theorem run_dirRemove {d : Disk} (h : Sound d) {dir : Nat} (hdir : dir < 64) {name : List UInt8}
    {de : Dirent} (hfind : findNamed (slotsAt d dir) name = some de) :
    ∃ e, (dirRemove dir name).run flat d = (some 0, e) ∧ RemoveEffect dir name d e := by
  rw [dirRemove, Prog.run_bind, run_readInode, Prog.run_bind, scanDirents_inode]
  dsimp only
  cases hs : scanBlocks (Dirent.isNamed name) d (inodeAt d dir).ptrs with
  | none =>
    have hno := scanBlocks_none hs de (List.mem_of_find?_eq_some hfind)
    rw [List.find?_some hfind] at hno
    exact absurd hno (by simp)
  | some r =>
    obtain ⟨p, buf, e⟩ := r
    obtain ⟨hp, rfl, -, hmod⟩ := scanBlocks_some hs
    obtain ⟨m, hm⟩ := h.filled dir hdir
    obtain ⟨hsound, hframe, hino⟩ := h.write_in_place hdir hp
      ((d p).setDirent e ((d p).dirent e).clear)
    refine ⟨Function.update d p ((d p).setDirent e ((d p).dirent e).clear), rfl, hsound, hframe,
      hino dir hdir, ?_⟩
    rw [slotsAt, hino dir hdir]
    exact hmod (h.mapped.ptrs_nodup hdir hm) Dirent.clear

/-! ## Enumeration -/

/-- The occupied slots, in order. -/
def entries (slots : List Dirent) : List Dirent := slots.filter fun de => de.inum1 != 0

def entriesAt (d : Disk) (i : Nat) : List Dirent := entries (slotsAt d i)

theorem Frame.entriesAt {S : Nat → Prop} {d e : Disk} (h : Frame S d e) {j : Nat} (hj : j < 64)
    (hS : ¬ S j) : entriesAt e j = entriesAt d j := by
  unfold Fs.entriesAt
  rw [h.slotsAt hj hS]

theorem entries_append (l r : List Dirent) : entries (l ++ r) = entries l ++ entries r :=
  List.filter_append ..

theorem readdirBlock_eq (buf : Block) (index : Nat) (es : List Nat) (seen : Nat)
    (hseen : seen ≤ index) :
    readdirBlock buf index es seen =
      ((entries (es.map buf.dirent))[index - seen]?).elim
        (.inr (seen + (entries (es.map buf.dirent)).length)) .inl := by
  induction es generalizing seen with
  | nil => rfl
  | cons e es ih =>
    rw [readdirBlock, List.map_cons]
    by_cases hocc : (buf.dirent e).inum1 ≠ 0
    · have hcons : entries (buf.dirent e :: es.map buf.dirent) =
          buf.dirent e :: entries (es.map buf.dirent) :=
        List.filter_cons_of_pos (by simpa using hocc)
      rw [if_pos hocc, hcons]
      by_cases hi : seen = index
      · rw [if_pos hi, hi, Nat.sub_self]
        rfl
      · rw [if_neg hi, ih (seen + 1) (by omega), show index - seen = index - (seen + 1) + 1 by omega,
          List.getElem?_cons_succ, List.length_cons,
          show seen + 1 + (entries (es.map buf.dirent)).length =
            seen + ((entries (es.map buf.dirent)).length + 1) by omega]
    · have hcons : entries (buf.dirent e :: es.map buf.dirent) = entries (es.map buf.dirent) :=
        List.filter_cons_of_neg (by simpa using hocc)
      rw [if_neg hocc, hcons, ih seen hseen]

/-- The inode and name that `sfs_readdir` reports for an entry. -/
def report (de : Dirent) : Option (Nat × List UInt8) :=
  (inumOf de.inum1).map fun ino => (ino, de.str)

theorem run_readdirLoop (index : Nat) (ps : List UInt32) (seen : Nat) (hseen : seen ≤ index)
    (d : Disk) :
    (readdirLoop index ps seen).run flat d =
      (((entries (slotsOf d ((ps.takeWhile (· ≠ 0)).map UInt32.toNat)))[index - seen]?).bind report,
        d) := by
  induction ps generalizing seen with
  | nil => rfl
  | cons p ps ih =>
    rw [readdirLoop]
    by_cases hp : p = 0
    · simp [hp, slotsOf, entries]
    · rw [if_neg hp, Prog.run_bind, run_readBlock, List.takeWhile_cons_of_pos (by simp [hp]),
        List.map_cons]
      generalize (ps.takeWhile (· ≠ 0)).map UInt32.toNat = rest at ih ⊢
      dsimp only
      have hslots : entries (slotsOf d (p.toNat :: rest)) =
          entries (d p.toNat).dirents ++ entries (slotsOf d rest) := entries_append ..
      have hblock : (List.range 16).map (d p.toNat).dirent = (d p.toNat).dirents := rfl
      rw [readdirBlock_eq _ _ _ _ hseen, hblock, hslots]
      by_cases hlt : index - seen < (entries (d p.toNat).dirents).length
      · rw [List.getElem?_eq_getElem hlt, List.getElem?_append_left hlt,
          List.getElem?_eq_getElem hlt]
        rfl
      · rw [List.getElem?_eq_none (by omega), List.getElem?_append_right (by omega), Option.elim_none]
        dsimp only
        rw [ih _ (by omega), show index - (seen + (entries (d p.toNat).dirents).length) =
          index - seen - (entries (d p.toNat).dirents).length by omega]

theorem run_sfsReaddir (dir index : Nat) (d : Disk) :
    (sfsReaddir dir index).run flat d =
      (if typeAt d dir = sfsDir then (entriesAt d dir)[index]?.bind report else none, d) := by
  rw [sfsReaddir, Prog.run_bind, run_readInode]
  dsimp only
  by_cases ht : (inodeAt d dir).type = sfsDir
  · rw [if_neg (not_not.mpr ht), if_pos (show typeAt d dir = sfsDir from ht),
      run_readdirLoop _ _ _ (Nat.zero_le _)]
    rfl
  · rw [if_pos ht, if_neg (show ¬ typeAt d dir = sfsDir from ht)]
    rfl

-- The emptiness loop of `sfs_unlink` counts the entries.
theorem run_countEntries {d : Disk} {ino : Nat} (ht : typeAt d ino = sfsDir)
    (hinum : ∀ de ∈ entriesAt d ino, de.inum1.toNat < 2 ^ 31) (calls count : Nat)
    (hcount : count ≤ (entriesAt d ino).length) (hcalls : (entriesAt d ino).length < count + calls) :
    (countEntries ino calls count).run flat d = ((entriesAt d ino).length, d) := by
  induction calls generalizing count with
  | zero => omega
  | succ calls ih =>
    rw [countEntries, Prog.run_bind, run_sfsReaddir, if_pos ht]
    by_cases hlt : count < (entriesAt d ino).length
    · have hval : ∃ r, (entriesAt d ino)[count]?.bind report = some r := by
        rw [List.getElem?_eq_getElem hlt]
        rw [Option.bind_some, report, inumOf, if_pos (hinum _ (List.getElem_mem hlt))]
        exact ⟨_, rfl⟩
      obtain ⟨r, hr⟩ := hval
      rw [hr]
      exact ih (count + 1) (by omega) (by omega)
    · rw [List.getElem?_eq_none (by omega)]
      have heq : count = (entriesAt d ino).length := by omega
      rw [heq]
      rfl

end JacobOS.Fs
