import JacobOS.CString
import JacobOS.Lib.LittleEndian

/-!
# On-disk layout of SFS

Blocks are `BLOCK_SIZE = 512` bytes.  The records the source lays over a block buffer are read and
written here at the same offsets: eight 64-byte inodes (`DIRECT = 14` block pointers each), sixteen
32-byte dirents, a bitmap, or the superblock.  Everything above this file uses only the laws that
relate the record readers to the record writers.
-/

namespace JacobOS.Fs

open LittleEndian CString

abbrev Block := Vector UInt8 512

namespace Block

def zero : Block := Vector.replicate 512 0

def byte (b : Block) (i : Nat) : UInt8 := if h : i < 512 then b[i] else 0

def u32 (b : Block) (off : Nat) : UInt32 :=
  ofBytes (b.byte off) (b.byte (off + 1)) (b.byte (off + 2)) (b.byte (off + 3))

/-- `memcpy(buf + off, src, len)`, or a struct assignment of `len` bytes, into a block buffer. -/
def blit (b : Block) (off len : Nat) (src : Nat → UInt8) : Block :=
  Vector.ofFn fun i => if off ≤ i.val ∧ i.val < off + len then src (i.val - off) else b[i]

@[simp] theorem byte_zero (i : Nat) : zero.byte i = 0 := by
  unfold byte zero
  split
  · exact Vector.getElem_replicate _
  · rfl

@[simp] theorem u32_zero (off : Nat) : zero.u32 off = 0 := by
  simp [u32]

theorem byte_blit (b : Block) (off len : Nat) (src : Nat → UInt8) {i : Nat} (hi : i < 512) :
    (b.blit off len src).byte i = if off ≤ i ∧ i < off + len then src (i - off) else b.byte i := by
  unfold byte blit
  rw [dif_pos hi, dif_pos hi, Vector.getElem_ofFn]
  rfl

/-- Bytes outside the copied range keep their value. -/
theorem byte_blit_other (b : Block) (off len : Nat) (src : Nat → UInt8) {i : Nat}
    (h : i < off ∨ off + len ≤ i) : (b.blit off len src).byte i = b.byte i := by
  by_cases hi : i < 512
  · rw [byte_blit _ _ _ _ hi, if_neg (by omega)]
  · unfold byte
    rw [dif_neg hi, dif_neg hi]

theorem u32_blit_other (b : Block) (off len : Nat) (src : Nat → UInt8) {i : Nat}
    (h : i + 4 ≤ off ∨ off + len ≤ i) : (b.blit off len src).u32 i = b.u32 i := by
  unfold u32
  rw [byte_blit_other _ _ _ _ (by omega), byte_blit_other _ _ _ _ (by omega),
    byte_blit_other _ _ _ _ (by omega), byte_blit_other _ _ _ _ (by omega)]

/-- A word copied as its four bytes is read back. -/
theorem u32_blit_word (b : Block) (off i : Nat) {len : Nat} {src : Nat → UInt8} {w : UInt32}
    (hlen : i + 4 ≤ len) (hoff : off + len ≤ 512)
    (hsrc : ∀ r, r < 4 → src (i + r) = wordByte w r) :
    (b.blit off len src).u32 (off + i) = w := by
  have hbyte : ∀ r, r < 4 → (b.blit off len src).byte (off + i + r) = wordByte w r := by
    intro r hr
    rw [byte_blit _ _ _ _ (by omega), if_pos (by omega), ← hsrc r hr]
    congr 1
    omega
  unfold u32
  have h0 := hbyte 0 (by decide)
  rw [Nat.add_zero] at h0
  rw [h0, hbyte 1 (by decide), hbyte 2 (by decide), hbyte 3 (by decide), ofBytes_wordByte]

end Block

/-! ## Inodes -/

structure Inode where
  type : UInt32
  size : UInt32
  blocks : Vector UInt32 14
  deriving DecidableEq

namespace Inode

/-- `memset(&n, 0, sizeof(n))`. -/
def zero : Inode := ⟨0, 0, Vector.replicate 14 0⟩

def ptr (n : Inode) (b : Nat) : UInt32 := if h : b < 14 then n.blocks[b] else 0

def setPtr (n : Inode) (b : Nat) (p : UInt32) : Inode :=
  { n with blocks := Vector.ofFn fun j => if j.val = b then p else n.blocks[j] }

/-- The inode as the sixteen words it occupies. -/
def word (n : Inode) (j : Nat) : UInt32 :=
  if j = 0 then n.type else if j = 1 then n.size else n.ptr (j - 2)

def bytes (n : Inode) (i : Nat) : UInt8 := wordByte (n.word (i / 4)) (i % 4)

theorem ext_ptr {n m : Inode} (ht : n.type = m.type) (hs : n.size = m.size)
    (hp : ∀ b, b < 14 → n.ptr b = m.ptr b) : n = m := by
  cases n with | mk nt ns nb =>
  cases m with | mk mt ms mb =>
  dsimp only at ht hs
  subst ht hs
  congr
  ext b hb
  have h := hp b hb
  unfold ptr at h
  rw [dif_pos hb, dif_pos hb] at h
  exact congrArg UInt32.toNat h

@[simp] theorem ptr_zero (b : Nat) : zero.ptr b = 0 := by
  unfold ptr zero
  split
  · exact Vector.getElem_replicate _
  · rfl

theorem ptr_of_le (n : Inode) {b : Nat} (h : 14 ≤ b) : n.ptr b = 0 := by
  unfold ptr
  rw [dif_neg (by omega)]

theorem ptr_setPtr (n : Inode) {b c : Nat} (p : UInt32) (hb : b < 14) :
    (n.setPtr b p).ptr c = if c = b then p else n.ptr c := by
  unfold ptr setPtr
  by_cases hc : c < 14
  · rw [dif_pos hc, dif_pos hc, Vector.getElem_ofFn]
    rfl
  · rw [dif_neg hc, dif_neg hc, if_neg (by omega)]

@[simp] theorem setPtr_type (n : Inode) (b : Nat) (p : UInt32) : (n.setPtr b p).type = n.type := rfl

/-- `n.size = size`. -/
def setSize (n : Inode) (size : UInt32) : Inode := ⟨n.type, size, n.blocks⟩

@[simp] theorem setSize_type (n : Inode) (s : UInt32) : (n.setSize s).type = n.type := rfl

@[simp] theorem setSize_size (n : Inode) (s : UInt32) : (n.setSize s).size = s := rfl

@[simp] theorem ptr_setSize (n : Inode) (s : UInt32) (b : Nat) : (n.setSize s).ptr b = n.ptr b := rfl

/-- A zeroed inode with its type set. -/
def ofType (type : UInt32) : Inode := ⟨type, 0, Vector.replicate 14 0⟩

@[simp] theorem ptr_ofType (type : UInt32) (b : Nat) : (ofType type).ptr b = 0 := ptr_zero b

end Inode

namespace Block

/-- `memcpy(out, buf + k * 64, sizeof(inode_t))`. -/
def inode (b : Block) (k : Nat) : Inode :=
  ⟨b.u32 (64 * k), b.u32 (64 * k + 4), Vector.ofFn fun j => b.u32 (64 * k + 8 + 4 * j.val)⟩

/-- `memcpy(buf + k * 64, in, sizeof(inode_t))`. -/
def setInode (b : Block) (k : Nat) (n : Inode) : Block := b.blit (64 * k) 64 n.bytes

theorem inode_ptr (b : Block) (k : Nat) {j : Nat} (hj : j < 14) :
    (b.inode k).ptr j = b.u32 (64 * k + 8 + 4 * j) := by
  unfold inode Inode.ptr
  rw [dif_pos hj, Vector.getElem_ofFn]

theorem u32_setInode (b : Block) {k : Nat} (hk : k < 8) (n : Inode) {j : Nat} (hj : j < 16) :
    (b.setInode k n).u32 (64 * k + 4 * j) = n.word j := by
  apply u32_blit_word _ _ _ (by omega) (by omega)
  intro r hr
  unfold Inode.bytes
  rw [show (4 * j + r) / 4 = j by omega, show (4 * j + r) % 4 = r by omega]

theorem inode_setInode (b : Block) {k : Nat} (hk : k < 8) (n : Inode) :
    (b.setInode k n).inode k = n := by
  apply Inode.ext_ptr
  · exact u32_setInode b hk n (j := 0) (by decide)
  · exact u32_setInode b hk n (j := 1) (by decide)
  · intro j hj
    rw [inode_ptr _ _ hj, show 64 * k + 8 + 4 * j = 64 * k + 4 * (j + 2) by omega,
      u32_setInode b hk n (by omega)]
    unfold Inode.word
    rw [if_neg (by omega), if_neg (by omega)]
    rfl

theorem inode_setInode_other (b : Block) {k l : Nat} (h : l ≠ k) (n : Inode) :
    (b.setInode k n).inode l = b.inode l := by
  unfold setInode
  apply Inode.ext_ptr
  · exact u32_blit_other _ _ _ _ (by omega)
  · exact u32_blit_other _ _ _ _ (by omega)
  · intro j hj
    rw [inode_ptr _ _ hj, inode_ptr _ _ hj]
    exact u32_blit_other _ _ _ _ (by omega)

@[simp] theorem inode_zero (k : Nat) : zero.inode k = Inode.zero := by
  apply Inode.ext_ptr
  · exact u32_zero _
  · exact u32_zero _
  · intro j hj
    rw [inode_ptr _ _ hj, Inode.ptr_zero]
    exact u32_zero _

end Block

/-! ## Dirents -/

structure Dirent where
  inum1 : UInt32
  name : Vector UInt8 28
  deriving DecidableEq

namespace Dirent

def zero : Dirent := ⟨0, Vector.replicate 28 0⟩

def nameByte (de : Dirent) (i : Nat) : UInt8 := if h : i < 28 then de.name[i] else 0

def bytes (de : Dirent) (i : Nat) : UInt8 :=
  if i < 4 then wordByte de.inum1 i else de.nameByte (i - 4)

/-- The entry for `child`: `inum1 = child + 1`, and the name copied by
`strncpy(name, src, 27); name[27] = 0` over the slot's old name. -/
def put (de : Dirent) (child : Nat) (src : List UInt8) : Dirent :=
  ⟨UInt32.ofNat child + 1,
    Vector.ofFn fun i => ((strncpy de.name.toList src 27).set 27 0).getD i.val 0⟩

/-- `de[e].inum1 = 0`, which frees the slot and leaves its name bytes. -/
def clear (de : Dirent) : Dirent := ⟨0, de.name⟩

/-- The entry's name as the C string in its field. -/
def str (de : Dirent) : List UInt8 := cstr de.name.toList

theorem ext_nameByte {de df : Dirent} (hi : de.inum1 = df.inum1)
    (hn : ∀ i, i < 28 → de.nameByte i = df.nameByte i) : de = df := by
  cases de with | mk di dn =>
  cases df with | mk fi fn =>
  dsimp only at hi
  subst hi
  congr
  apply Vector.ext
  intro i hi
  have h := hn i hi
  unfold nameByte at h
  rw [dif_pos hi, dif_pos hi] at h
  exact h

theorem put_nameByte (de : Dirent) (child : Nat) (src : List UInt8) {i : Nat} (hi : i < 28) :
    (de.put child src).nameByte i = ((strncpy de.name.toList src 27).set 27 0).getD i 0 := by
  unfold put nameByte
  rw [dif_pos hi, Vector.getElem_ofFn]

/-- The name field after `put`: the truncated string and zeros up to byte 27. -/
theorem put_name_toList (de : Dirent) (child : Nat) (src : List UInt8) :
    (de.put child src).name.toList =
      (cstr src).take 27 ++ 0 :: List.replicate (27 - (cstr src).length) 0 := by
  have hlen : ((strncpy de.name.toList src 27).set 27 0) =
      (cstr src).take 27 ++ 0 :: List.replicate (27 - (cstr src).length) 0 := by
    have hrest : de.name.toList.drop 27 = [de.name.toList.getD 27 0] := by
      rw [List.drop_eq_getElem_cons (by simp)]
      simp
    have hfill : ((cstr src).take 27 ++ List.replicate (27 - (cstr src).length) (0 : UInt8)).length
        = 27 := by
      simp only [List.length_append, List.length_take, List.length_replicate]
      omega
    rw [strncpy_eq, hrest, List.set_append_right _ _ (by omega), hfill, Nat.sub_self,
      List.set_cons_zero, List.append_assoc, ← List.replicate_succ', List.replicate_succ]
  have hsize : ((cstr src).take 27 ++
      (0 : UInt8) :: List.replicate (27 - (cstr src).length) 0).length = 28 := by
    simp only [List.length_append, List.length_take, List.length_cons, List.length_replicate]
    omega
  apply List.ext_getElem
  · rw [Vector.length_toList, hsize]
  · intro i h1 h2
    have hi : i < 28 := by omega
    have hbyte := put_nameByte de child src hi
    unfold nameByte at hbyte
    rw [dif_pos hi, hlen, List.getD_eq_getElem _ _ h2] at hbyte
    rw [Vector.getElem_toList]
    exact hbyte

theorem put_inum1 (de : Dirent) (child : Nat) (src : List UInt8) :
    (de.put child src).inum1 = UInt32.ofNat child + 1 := rfl

/-- A name is stored as its first 27 bytes. -/
theorem put_str (de : Dirent) (child : Nat) (src : List UInt8) :
    (de.put child src).str = (cstr src).take 27 := by
  unfold str
  rw [put_name_toList]
  exact cstr_append_zero (fun h => cstr_ne_zero (List.mem_of_mem_take h) rfl) _

/-- The entry has a NUL inside its name field. -/
theorem put_nul (de : Dirent) (child : Nat) (src : List UInt8) : 0 ∈ (de.put child src).name := by
  rw [← Vector.mem_toList_iff, put_name_toList]
  simp

end Dirent

namespace Block

/-- `((dirent_t *)buf)[e]`. -/
def dirent (b : Block) (e : Nat) : Dirent :=
  ⟨b.u32 (32 * e), Vector.ofFn fun i => b.byte (32 * e + 4 + i.val)⟩

def setDirent (b : Block) (e : Nat) (de : Dirent) : Block := b.blit (32 * e) 32 de.bytes

theorem dirent_nameByte (b : Block) (e : Nat) {i : Nat} (hi : i < 28) :
    (b.dirent e).nameByte i = b.byte (32 * e + 4 + i) := by
  unfold dirent Dirent.nameByte
  rw [dif_pos hi, Vector.getElem_ofFn]

theorem dirent_setDirent (b : Block) {e : Nat} (he : e < 16) (de : Dirent) :
    (b.setDirent e de).dirent e = de := by
  apply Dirent.ext_nameByte
  · apply u32_blit_word b (32 * e) 0 (by decide) (by omega)
    intro r hr
    rw [Nat.zero_add, Dirent.bytes, if_pos hr]
  · intro i hi
    rw [dirent_nameByte _ _ hi, setDirent, byte_blit _ _ _ _ (by omega), if_pos (by omega),
      Dirent.bytes, if_neg (by omega), show 32 * e + 4 + i - 32 * e - 4 = i by omega]

theorem dirent_setDirent_other (b : Block) {e f : Nat} (h : f ≠ e) (de : Dirent) :
    (b.setDirent e de).dirent f = b.dirent f := by
  apply Dirent.ext_nameByte
  · exact u32_blit_other _ _ _ _ (by omega)
  · intro i hi
    rw [dirent_nameByte _ _ hi, dirent_nameByte _ _ hi]
    exact byte_blit_other _ _ _ _ (by omega)

@[simp] theorem dirent_zero (e : Nat) : zero.dirent e = Dirent.zero := by
  apply Dirent.ext_nameByte
  · exact u32_zero _
  · intro i hi
    rw [dirent_nameByte _ _ hi, byte_zero, Dirent.zero, Dirent.nameByte, dif_pos hi,
      Vector.getElem_replicate]

end Block

/-! ## The bitmap block -/

namespace Block

/-- `bm[i / 8] & (1 << (i % 8))`. -/
def bit (b : Block) (i : Nat) : Bool := bitSet (b.byte (i / 8)) (i % 8)

/-- `bm[i / 8] |= (1 << (i % 8))`. -/
def orBit (b : Block) (i : Nat) : Block :=
  b.blit (i / 8) 1 fun _ => LittleEndian.orBit (b.byte (i / 8)) (i % 8)

/-- `bm[i / 8] &= ~(1 << (i % 8))`. -/
def clearBit (b : Block) (i : Nat) : Block :=
  b.blit (i / 8) 1 fun _ => LittleEndian.clearBit (b.byte (i / 8)) (i % 8)

theorem bit_orBit (b : Block) {i : Nat} (hi : i < 4096) (j : Nat) :
    (b.orBit i).bit j = (b.bit j || decide (i = j)) := by
  unfold bit orBit
  by_cases hbyte : j / 8 = i / 8
  · rw [hbyte, byte_blit _ _ _ _ (by omega), if_pos (by omega),
      bitSet_orBit _ (Nat.mod_lt _ (by decide)) (Nat.mod_lt _ (by decide))]
    congr 1
    exact decide_eq_decide.mpr (by omega)
  · rw [byte_blit_other _ _ _ _ (by omega), decide_eq_false (by omega : ¬ i = j), Bool.or_false]

theorem bit_clearBit (b : Block) {i : Nat} (hi : i < 4096) (j : Nat) :
    (b.clearBit i).bit j = (b.bit j && !decide (i = j)) := by
  unfold bit clearBit
  by_cases hbyte : j / 8 = i / 8
  · rw [hbyte, byte_blit _ _ _ _ (by omega), if_pos (by omega),
      bitSet_clearBit _ (Nat.mod_lt _ (by decide)) (Nat.mod_lt _ (by decide))]
    congr 2
    exact decide_eq_decide.mpr (by omega)
  · rw [byte_blit_other _ _ _ _ (by omega), decide_eq_false (by omega : ¬ i = j), Bool.not_false,
      Bool.and_true]

@[simp] theorem bit_zero (i : Nat) : zero.bit i = false := by
  simp [bit]

end Block

/-! ## The superblock -/

/-- `SFS_MAGIC`, the bytes `JSFS`. -/
def sfsMagic : UInt32 := 0x4A534653

/-- `((superblock_t *)buf)->magic`. -/
def Block.magic (b : Block) : UInt32 := b.u32 0

@[simp] theorem Block.magic_zero : zero.magic = 0 := u32_zero 0

/-- The block `format` writes first: magic, `num_inodes`, `data_start` and `max_data_blocks`. -/
def superblock : Block :=
  Block.zero.blit 0 16 fun i => wordByte ([sfsMagic, 64, 16, 2048].getD (i / 4) 0) (i % 4)

theorem superblock_magic : superblock.magic = sfsMagic := by
  apply Block.u32_blit_word _ 0 0 (by decide) (by decide)
  intro r hr
  rw [show (0 + r) / 4 = 0 by omega, show (0 + r) % 4 = r by omega]
  rfl

-- From here on the records are known by their laws only.
attribute [irreducible] Block.zero Block.inode Block.setInode Block.dirent Block.setDirent
  Block.bit Block.orBit Block.clearBit Block.magic Dirent.put superblock

end JacobOS.Fs
