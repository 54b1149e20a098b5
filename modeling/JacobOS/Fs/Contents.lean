import JacobOS.Fs.Runs

/-!
# Reading back what was written

`sfs_read` returns a prefix of the file's contents, on any disk.  After `sfs_write` the contents are
the data, however they were cut into blocks, and no other inode answers differently.
-/

namespace JacobOS.Fs

open BlockProgram CString

/-! ## `sfs_read` -/

-- What is still to be copied when `done` bytes are.
theorem run_readLoop (len : Nat) (ps : List UInt32) (done : Nat) (d : Disk) :
    (readLoop len ps done).run flat d =
      ((((ps.takeWhile (· ≠ 0)).map UInt32.toNat).flatMap fun p => (d p).toList).take (len - done), d) := by
  induction ps generalizing done with
  | nil =>
    rw [List.takeWhile_nil, List.map_nil, List.flatMap_nil, List.take_nil]
    rfl
  | cons p ps ih =>
    rw [readLoop]
    by_cases hgo : done < len ∧ p ≠ 0
    · obtain ⟨hlt, hp⟩ := hgo
      have hblock : (d p.toNat).toList.length = 512 := Vector.length_toList
      rw [if_pos ⟨hlt, hp⟩, Prog.run_bind, run_readBlock, Prog.run_bind, ih,
        List.takeWhile_cons_of_pos (by simp [hp]), List.map_cons, List.flatMap_cons, List.take_append, hblock]
      have hhead : (d p.toNat).toList.take (min (len - done) 512) = (d p.toNat).toList.take (len - done) := by
        rw [← List.take_take, List.take_of_length_le (Nat.le_of_eq hblock)]
      have hrest : len - (done + min (len - done) 512) = len - done - 512 := by omega
      rw [hrest]
      show ((d p.toNat).toList.take (min (len - done) 512) ++ _, d) = _
      rw [hhead]
    · rw [if_neg hgo]
      by_cases hp : p = 0
      · simp [hp]
      · have hdone : len - done = 0 := by
          have hle : ¬ done < len := fun hlt => hgo ⟨hlt, hp⟩
          omega
        rw [hdone, List.take_zero]
        rfl

theorem run_sfsRead (i max : Nat) (d : Disk) :
    (sfsRead i max).run flat d = ((contentAt d i).take max, d) := by
  rw [sfsRead, Prog.run_bind, run_readInode, run_readLoop, Nat.sub_zero, contentAt, List.take_take,
    Nat.min_comm]
  rfl

theorem run_sfsRead_size (i : Nat) (d : Disk) :
    (sfsRead i (inodeAt d i).size.toNat).run flat d = (contentAt d i, d) := by
  rw [run_sfsRead, contentAt, List.take_take, Nat.min_self]

-- The blocks of a file hold as many bytes as its size says.
theorem Inv.length_contentAt {d : Disk} (h : Inv d) {i : Nat} (hi : i < 64) (ht : typeAt d i = sfsFile) :
    (contentAt d i).length = (inodeAt d i).size.toNat := by
  obtain ⟨m, hm, -, hfile, -⟩ := h.sized i hi
  have hblocks : ((inodeAt d i).ptrs.flatMap fun p => (d p).toList).length = 512 * m := by
    rw [hm.ptrs_eq, List.flatMap_map, List.length_flatMap]
    simp [Nat.mul_comm]
  unfold contentAt
  rw [List.length_take, hblocks, Nat.min_eq_left (by have hsize := (hfile ht).2; omega)]

theorem Inv.length_contentAt_le {d : Disk} (h : Inv d) {i : Nat} (hi : i < 64) (ht : typeAt d i = sfsFile) :
    (contentAt d i).length ≤ 14 * 512 := by
  obtain ⟨m, -, -, hfile, -⟩ := h.sized i hi
  rw [h.length_contentAt hi ht]
  exact (hfile ht).1

/-! ## `sfs_write` -/

theorem toList_chunkBlock (data : Nat → UInt8) (len c : Nat) :
    (chunkBlock data len c).toList.take (len - 512 * c) =
      (List.range (min (len - 512 * c) 512)).map fun i => data (512 * c + i) := by
  apply List.ext_getElem
  · simp
  · intro i h1 h2
    have hi : i < min (len - 512 * c) 512 := by simpa using h2
    have hbyte := Block.byte_blit Block.zero 0 (min (len - 512 * c) 512) (fun j => data (512 * c + j))
      (i := i) (by omega)
    rw [if_pos ⟨Nat.zero_le i, by omega⟩, Block.byte, dif_pos (by omega)] at hbyte
    rw [List.getElem_take, Vector.getElem_toList, List.getElem_map, List.getElem_range]
    exact hbyte

-- The blocks one after the other are the data.
theorem take_chunkBlocks (data : Nat → UInt8) (len m : Nat) :
    ((List.range m).flatMap fun c => (chunkBlock data len c).toList).take len =
      (List.range (min len (512 * m))).map data := by
  induction m with
  | zero => simp
  | succ m ih =>
    have hlen : ((List.range m).flatMap fun c => (chunkBlock data len c).toList).length = 512 * m := by
      rw [List.length_flatMap]
      simp [Nat.mul_comm]
    rw [List.range_succ, List.flatMap_append, List.take_append, ih, hlen, List.flatMap_cons,
      List.flatMap_nil, List.append_nil, toList_chunkBlock]
    have hsum : min len (512 * (m + 1)) = min len (512 * m) + min (len - 512 * m) 512 := by omega
    rw [hsum, List.range_add, List.map_append, List.map_map]
    congr 1
    apply List.map_congr_left
    intro i hi
    have hlt := List.mem_range.mp hi
    have hfull : min len (512 * m) = 512 * m := by omega
    rw [Function.comp_apply, hfull]

theorem StoreEffect.contentAt_eq {i : Nat} {data : Nat → UInt8} {len : Nat} {d e : Disk}
    (h : StoreEffect i data len d e) : contentAt e i = (List.range len).map data := by
  have hblocks : ((inodeAt e i).ptrs.flatMap fun p => (e p).toList) =
      (List.range ((len + 511) / 512)).flatMap fun c => (chunkBlock data len c).toList := by
    have hchunk : ∀ c ∈ List.range ((len + 511) / 512),
        (e ((inodeAt e i).ptr c).toNat).toList = (chunkBlock data len c).toList :=
      fun c hc => congrArg Vector.toList (h.chunks c (List.mem_range.mp hc))
    rw [h.filled.ptrs_eq, List.flatMap_map, List.flatMap_def, List.flatMap_def, List.map_congr_left hchunk]
  unfold contentAt
  rw [hblocks, h.size, take_chunkBlocks, Nat.min_eq_left (by omega)]

/-! ## What stays -/

/-- Inode `i` answers every query about it alike on both disks. -/
structure SameInode (d e : Disk) (i : Nat) : Prop where
  type : ((sfsType i).run flat e).1 = ((sfsType i).run flat d).1
  size : ((sfsSize i).run flat e).1 = ((sfsSize i).run flat d).1
  read : ∀ max, ((sfsRead i max).run flat e).1 = ((sfsRead i max).run flat d).1
  readdir : ∀ index, ((sfsReaddir i index).run flat e).1 = ((sfsReaddir i index).run flat d).1

theorem SameInode.refl (d : Disk) (i : Nat) : SameInode d d i := ⟨rfl, rfl, fun _ => rfl, fun _ => rfl⟩

theorem Frame.sameInode {S : Nat → Prop} {d e : Disk} (h : Frame S d e) {i : Nat} (hi : i < 64)
    (hS : ¬ S i) : SameInode d e i := by
  refine ⟨h.typeAt hi hS, congrArg Inode.size (h.inode i hi hS), ?_, ?_⟩
  · intro max
    rw [run_sfsRead, run_sfsRead, h.contentAt hi hS]
  · intro index
    rw [run_sfsReaddir, run_sfsReaddir, h.typeAt hi hS, h.entriesAt hi hS]

/-- `e` holds `len` bytes of `data` in file `f`, up to the limit, and is otherwise as `d`. -/
structure Stored (f : Nat) (data : Nat → UInt8) (len : Nat) (d e : Disk) : Prop where
  size : ((sfsSize f).run flat e).1.toNat = min len 7168
  read : ∀ max, ((sfsRead f max).run flat e).1 = (List.range (min max (min len 7168))).map data
  others : ∀ g, g < 64 → g ≠ f → SameInode d e g
  listings : ∀ dir index, dir < 64 →
    ((sfsReaddir dir index).run flat e).1 = ((sfsReaddir dir index).run flat d).1

theorem StoreEffect.stored {f : Nat} {data : Nat → UInt8} {len : Nat} {d e : Disk}
    (ht : typeAt d f = sfsFile) (h : StoreEffect f data (min len 7168) d e) : Stored f data len d e := by
  refine ⟨h.size, ?_, fun g hg hne => h.frame.sameInode hg hne, ?_⟩
  · intro max
    rw [run_sfsRead, h.contentAt_eq, ← List.map_take, List.take_range]
  · intro dir index hdir
    by_cases hf : dir = f
    · rw [hf, run_sfsReaddir, run_sfsReaddir, h.type, ht]
      rfl
    · exact (h.frame.sameInode hdir hf).readdir index

/-- `sfs_write` stores the data in the file and touches no other inode. -/
theorem sfsWrite_stores {d₀ d : Disk} (h₀ : (d₀ 0).magic ≠ sfsMagic) (h : Reachable flat d₀ d) {f : Nat}
    (hf : f < 64) (ht : ((sfsType f).run flat d).1 = sfsFile) (data : Nat → UInt8) (len : Nat) :
    ∃ e, (sfsWrite f data len).run flat d = (some (min len 7168), e) ∧ Stored f data len d e := by
  rcases run_sfsWrite (inv_reachable h₀ h).sound hf data len with ⟨hno, -⟩ | ⟨hfile, e, hrun, heff⟩
  · exact absurd ht hno
  · exact ⟨e, hrun, heff.stored hfile⟩

-- A file of two blocks, in the root of a fresh disk.
theorem sfsWrite_stores_blank :
    ∃ d e, Reachable flat blankDisk d ∧ ((sfsType 1).run flat d).1 = sfsFile ∧
      (sfsWrite 1 UInt8.ofNat 600).run flat d = (some 600, e) ∧ Stored 1 UInt8.ofNat 600 d e := by
  obtain ⟨_, d, -, hreach, -, -, -, heff, -⟩ := @create_blank [0x61] (by decide) (by decide) sfsFile (Or.inl rfl)
  obtain ⟨e, hwrite, hstored⟩ :=
    sfsWrite_stores blankDisk_magic hreach (by decide) heff.typeIno UInt8.ofNat 600
  exact ⟨d, e, hreach, heff.typeIno, hwrite, hstored⟩

end JacobOS.Fs
