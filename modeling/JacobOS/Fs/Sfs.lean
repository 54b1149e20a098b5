import JacobOS.Fs.Layout
import JacobOS.Lib.BlockProgram

/-!
# The SFS functions of `fs/sfs.c`

Every function is a block program: it reads and writes whole blocks through `readBlock` and
`writeBlock` and nothing else, so it runs unchanged on the flat disk and through the block cache.
A negative `int` result is `none`.  Inode numbers and block numbers are natural numbers; the inode
fields they come from are 32-bit words.
-/

namespace JacobOS.Fs

open BlockProgram CString

abbrev SfsM := Prog Nat Block

def sfsFree : UInt32 := 0
def sfsFile : UInt32 := 1
def sfsDir : UInt32 := 2
def sfsRoot : Nat := 0

/-- The string `"."`. -/
def dot : List UInt8 := [0x2E]

/-- The string `".."`. -/
def dotdot : List UInt8 := [0x2E, 0x2E]

def readBlock (blk : Nat) : SfsM Block := .read blk .ret

def writeBlock (blk : Nat) (buf : Block) : SfsM Unit := .write blk buf (.ret ())

/-! ## Inode access -/

def readInode (i : Nat) : SfsM Inode := do
  let buf ← readBlock (1 + i / 8)
  return buf.inode (i % 8)

def writeInode (i : Nat) (n : Inode) : SfsM Unit := do
  let buf ← readBlock (1 + i / 8)
  writeBlock (1 + i / 8) (buf.setInode (i % 8) n)

def allocInodeLoop : List Nat → SfsM (Option Nat)
  | [] => return none
  | i :: is => do
      let n ← readInode i
      if n.type = sfsFree then return some i else allocInodeLoop is

def allocInode : SfsM (Option Nat) := allocInodeLoop (List.range 64)

/-! ## Data block bitmap -/

def allocBlock : SfsM UInt32 := do
  let bm ← readBlock 9
  match (List.range 2048).find? (fun i => !bm.bit i) with
  | some i =>
      writeBlock 9 (bm.orBit i)
      -- the freshly allocated data block is zeroed
      writeBlock (16 + i) Block.zero
      return UInt32.ofNat (16 + i)
  | none => return 0

def freeBlock (absblk : UInt32) : SfsM Unit := do
  if absblk.toNat < 16 then return ()
  let bm ← readBlock 9
  writeBlock 9 (bm.clearBit (absblk.toNat - 16))

/-! ## Directory helpers -/

/-- The double loop shared by the directory helpers: over the direct blocks up to the first zero
pointer and over the sixteen dirents of each, stopping at the first dirent that `hit` accepts.
Returns the block's number, its buffer and the dirent's index. -/
def scanDirents (hit : Dirent → Bool) : List UInt32 → SfsM (Option (Nat × Block × Nat))
  | [] => return none
  | p :: ps =>
      if p = 0 then return none else do
        let buf ← readBlock p.toNat
        match (List.range 16).find? (fun e => hit (buf.dirent e)) with
        | some e => return some (p.toNat, buf, e)
        | none => scanDirents hit ps

/-- `de[e].inum1 && strcmp(de[e].name, name) == 0`. -/
def Dirent.isNamed (name : List UInt8) (de : Dirent) : Bool :=
  de.inum1 != 0 && strcmp de.name.toList name == 0

/-- `(int)inum1 - 1`, which is negative once the sign bit of `inum1` is set. -/
def inumOf (inum1 : UInt32) : Option Nat :=
  if inum1.toNat < 2 ^ 31 then some (inum1.toNat - 1) else none

def dirLookup (dir : Nat) (name : List UInt8) : SfsM (Option Nat) := do
  let d ← readInode dir
  if d.type ≠ sfsDir then return none
  match ← scanDirents (Dirent.isNamed name) d.blocks.toList with
  | some (_, buf, e) => return inumOf (buf.dirent e).inum1
  | none => return none

def dirAdd (dir : Nat) (name : List UInt8) (child : Nat) : SfsM (Option Nat) := do
  let d ← readInode dir
  match ← scanDirents (fun de => de.inum1 == 0) d.blocks.toList with
  | some (blk, buf, e) =>
      -- reuse a free slot in an existing block
      writeBlock blk (buf.setDirent e ((buf.dirent e).put child name))
      return some 0
  | none =>
      -- otherwise grow the directory by one block
      match (List.range 14).find? (fun b => d.ptr b = 0) with
      | some b =>
          let nb ← allocBlock
          if nb = 0 then return none
          writeInode dir ((d.setPtr b nb).setSize (d.size + 512))
          writeBlock nb.toNat (Block.zero.setDirent 0 ((Block.zero.dirent 0).put child name))
          return some 0
      | none => return none

def dirRemove (dir : Nat) (name : List UInt8) : SfsM (Option Nat) := do
  let d ← readInode dir
  match ← scanDirents (Dirent.isNamed name) d.blocks.toList with
  | some (blk, buf, e) =>
      writeBlock blk (buf.setDirent e (buf.dirent e).clear)
      return some 0
  | none => return none

/-! ## Format and mount -/

def clearTable : List Nat → SfsM Unit
  | [] => return ()
  | b :: bs => do
      writeBlock (1 + b) Block.zero
      clearTable bs

def format : SfsM Unit := do
  writeBlock 0 superblock
  clearTable (List.range 8)
  writeBlock 9 Block.zero
  writeInode sfsRoot (Inode.ofType sfsDir)
  let _ ← dirAdd sfsRoot dot sfsRoot
  let _ ← dirAdd sfsRoot dotdot sfsRoot

def sfsInit : SfsM Unit := do
  let buf ← readBlock 0
  if buf.magic ≠ sfsMagic then format

/-! ## Public operations -/

def sfsLookup (dir : Nat) (name : List UInt8) : SfsM (Option Nat) := dirLookup dir name

def sfsType (inode : Nat) : SfsM UInt32 := do
  let n ← readInode inode
  return n.type

def sfsSize (inode : Nat) : SfsM UInt32 := do
  let n ← readInode inode
  return n.size

def sfsCreate (dir : Nat) (name : List UInt8) (type : UInt32) : SfsM (Option Nat) := do
  if (← dirLookup dir name).isSome then return none
  match ← allocInode with
  | none => return none
  | some ino =>
      writeInode ino (Inode.ofType type)
      if type = sfsDir then
        let _ ← dirAdd ino dot ino
        let _ ← dirAdd ino dotdot dir
      match ← dirAdd dir name ino with
      | none => return none
      | some _ => return some ino

/-- The inner loop of `sfs_readdir`: either the dirent whose rank among the occupied ones is
`index`, or the count so far. -/
def readdirBlock (buf : Block) (index : Nat) : List Nat → Nat → Dirent ⊕ Nat
  | [], seen => .inr seen
  | e :: es, seen =>
      if (buf.dirent e).inum1 ≠ 0 then
        if seen = index then .inl (buf.dirent e) else readdirBlock buf index es (seen + 1)
      else readdirBlock buf index es seen

def readdirLoop (index : Nat) : List UInt32 → Nat → SfsM (Option (Nat × List UInt8))
  | [], _ => return none
  | p :: ps, seen =>
      if p = 0 then return none else do
        let buf ← readBlock p.toNat
        match readdirBlock buf index (List.range 16) seen with
        | .inl de => return (inumOf de.inum1).map fun ino => (ino, de.str)
        | .inr seen => readdirLoop index ps seen

/-- `sfs_readdir`: the inode of the `index`-th occupied entry and the name copied to `name_out`. -/
def sfsReaddir (dir index : Nat) : SfsM (Option (Nat × List UInt8)) := do
  let d ← readInode dir
  if d.type ≠ sfsDir then return none
  readdirLoop index d.blocks.toList 0

def freeBlocks : List Nat → Inode → SfsM Inode
  | [], n => return n
  | b :: bs, n =>
      if n.ptr b ≠ 0 then do
        freeBlock (n.ptr b)
        freeBlocks bs (n.setPtr b 0)
      else freeBlocks bs n

/-- The copy loop of `sfs_write`.  Each pass fills one more block, and `len` is at most fourteen
blocks, so fourteen passes are enough. -/
def writeLoop (data : Nat → UInt8) (len : Nat) : Nat → Inode → Nat → Nat → SfsM (Inode × Nat)
  | 0, n, written, _ => return (n, written)
  | passes + 1, n, written, b =>
      if written < len then do
        let chunk := min (len - written) 512
        let nb ← allocBlock
        if nb = 0 then return (n, written)
        writeBlock nb.toNat (Block.zero.blit 0 chunk fun i => data (written + i))
        writeLoop data len passes (n.setPtr b nb) (written + chunk) (b + 1)
      else return (n, written)

/-- `sfs_write`: `data` is the memory behind the source pointer. -/
def sfsWrite (inode : Nat) (data : Nat → UInt8) (len : Nat) : SfsM (Option Nat) := do
  let n ← readInode inode
  if n.type ≠ sfsFile then return none
  let n ← freeBlocks (List.range 14) n
  let len := min len (14 * 512)
  let (n, written) ← writeLoop data len 14 n 0 0
  writeInode inode (n.setSize (UInt32.ofNat written))
  return some written

def readLoop (len : Nat) : List UInt32 → Nat → SfsM (List UInt8)
  | [], _ => return []
  | p :: ps, done =>
      if done < len ∧ p ≠ 0 then do
        let chunk := min (len - done) 512
        let buf ← readBlock p.toNat
        let rest ← readLoop len ps (done + chunk)
        return buf.toList.take chunk ++ rest
      else return []

/-- `sfs_read`: the bytes copied to `out`; their number is the returned `int`. -/
def sfsRead (inode max : Nat) : SfsM (List UInt8) := do
  let n ← readInode inode
  readLoop (min n.size.toNat max) n.blocks.toList 0

/-- `for (i = 0; sfs_readdir(ino, i, tmp) >= 0; i++) count++`.  A directory has at most 224
entries, so 225 calls reach the failing one. -/
def countEntries (ino : Nat) : Nat → Nat → SfsM Nat
  | 0, count => return count
  | calls + 1, count => do
      match ← sfsReaddir ino count with
      | some _ => countEntries ino calls (count + 1)
      | none => return count

/-- The `count` that `sfs_unlink` compares with 2: only a directory has its entries counted. -/
def unlinkCount (ino : Nat) (n : Inode) : SfsM Nat :=
  if n.type = sfsDir then countEntries ino 225 0 else return 0

def freeAll : List UInt32 → SfsM Unit
  | [] => return ()
  | p :: ps => do
      if p ≠ 0 then freeBlock p
      freeAll ps

def sfsUnlink (dir : Nat) (name : List UInt8) : SfsM (Option Nat) := do
  if strcmp name dot = 0 ∨ strcmp name dotdot = 0 then return none
  match ← dirLookup dir name with
  | none => return none
  | some ino =>
      let n ← readInode ino
      -- refuse to remove a non-empty directory (more than "." and "..")
      let count ← unlinkCount ino n
      if count > 2 then return none
      freeAll n.blocks.toList
      writeInode ino Inode.zero
      dirRemove dir name

end JacobOS.Fs
