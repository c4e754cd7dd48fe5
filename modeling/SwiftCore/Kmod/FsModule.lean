/-
The file system module (`modules/fs/src/main.rs`): an ext2 reader over two ATA drives with a block cache, an inode cache
and a path cache.

The functions are written over what they ask of below (`Reader`): sectors, blocks, and the lookups and insertions of the
caches. There are two readers:
- `live`: the module, with its caches, on drives whose reads may fail;
- `ideal`: in `Option`, with caches that are always empty and reads that do not fail.

A sector read is a step of the environment: it delivers the sector or fails. A block is read by DMA if that succeeds, else
sector by sector; both deliver the same sectors. What earlier reads left in the buffer for inode blocks, behind the
block, is up to the environment (`stale`). The other buffers are only looked at inside the block last read. The module is
built without overflow checks: `u32` sums wrap.
-/
import SwiftCore.Lib.Bytes
import SwiftCore.Lib.Computes
import SwiftCore.Lib.SlotCache
import SwiftCore.Lib.Split

namespace SwiftCore.Kmod

open Bytes Fallible SlotCache

/-! ## Drives and what is asked of them -/

structure Disk where
  sector : Fin 2 → ℕ → List UInt8
  length_sector : ∀ drive lba, (sector drive lba).length = 512

structure FsMount where
  drive : Fin 2
  blockSize : ℕ
  sectorsPerBlock : ℕ
  inodeSize : ℕ
  inodesPerGroup : ℕ
  gdtBlock : ℕ
  deriving DecidableEq

structure Reader (m : Type → Type) where
  fail {α : Type} : m α
  attempt {α : Type} : m α → m (Option α)
  /-- `read_sector_ata` -/
  sector : Fin 2 → ℕ → m (List UInt8)
  /-- `read_fs_block` -/
  block : FsMount → ℕ → m (List UInt8)
  /-- `read_fs_block` into the buffer for inode blocks; the whole buffer -/
  inodeBlock : FsMount → ℕ → m (List UInt8)
  inodeLookup : FsMount → ℕ → m (Option (List UInt8))
  inodeInsert : FsMount → ℕ → List UInt8 → m Unit
  pathLookup : FsMount → List UInt8 → m (Option ℕ)
  pathInsert : FsMount → List UInt8 → ℕ → m Unit

def u32 (n : ℕ) : ℕ := n % 2 ^ 32

def readU16 (buf : List UInt8) (off : ℕ) : Option ℕ := if off + 2 ≤ buf.length then some (field buf off 2) else none

def readU32 (buf : List UInt8) (off : ℕ) : Option ℕ := if off + 4 ≤ buf.length then some (field buf off 4) else none

section Code

variable {m : Type → Type} [Monad m] (R : Reader m)

def Reader.ofOption {α : Type} : Option α → m α
  | some a => pure a
  | none => R.fail

/-! ## Mounting -/

def ext2Magic : ℕ := 0xEF53

def probeExt2Drive (drive : Fin 2) : m FsMount := do
  let s2 ← R.sector drive 2
  let s3 ← R.sector drive 3
  let sb := s2 ++ s3
  let magic ← R.ofOption (readU16 sb 56)
  if magic ≠ ext2Magic then R.fail
  else do
    let logBlockSize ← R.ofOption (readU32 sb 24)
    if 2 < logBlockSize then R.fail
    else do
      let blockSize := 1024 * 2 ^ logBlockSize
      if blockSize < 1024 ∨ blockSize % 512 ≠ 0 then R.fail
      else do
        let inodeSize := (readU16 sb 88).getD 128
        let inodesPerGroup ← R.ofOption (readU32 sb 40)
        if inodesPerGroup = 0 then R.fail
        else pure ⟨drive, blockSize, blockSize / 512, inodeSize, inodesPerGroup, if blockSize = 1024 then 2 else 1⟩

/-- the loop of `fs_mount`: the slave first, then the master -/
def mountLoop : ℕ → m (Option FsMount)
  | 0 => pure none
  | tries + 1 => do
    match ← R.attempt (probeExt2Drive R 1) with
    | some mt => pure (some mt)
    | none =>
      match ← R.attempt (probeExt2Drive R 0) with
      | some mt => pure (some mt)
      | none => mountLoop tries

/-! ## Inodes -/

/-- an inode in its buffer of 256 bytes -/
def padInode (raw : List UInt8) : List UInt8 := raw ++ List.replicate (256 - raw.length) 0

variable (mt : FsMount)

def readInode (inodeNum : ℕ) : m (List UInt8) :=
  if inodeNum = 0 ∨ mt.inodesPerGroup = 0 then R.fail
  else do
    match ← R.inodeLookup mt inodeNum with
    | some raw => pure (padInode raw)
    | none => do
      let group := (inodeNum - 1) / mt.inodesPerGroup
      let index := (inodeNum - 1) % mt.inodesPerGroup
      let gdtEntryOff := group * 32
      let gdt ← R.block mt (u32 (mt.gdtBlock + u32 (gdtEntryOff / mt.blockSize)))
      let inodeTable ← R.ofOption (readU32 gdt (gdtEntryOff % mt.blockSize + 8))
      let inodeOff := index * mt.inodeSize
      let iblk ← R.inodeBlock mt (u32 (inodeTable + u32 (inodeOff / mt.blockSize)))
      let off := inodeOff % mt.blockSize
      if iblk.length < off + mt.inodeSize ∨ 256 < mt.inodeSize then R.fail
      else do
        let raw := (iblk.drop off).take mt.inodeSize
        R.inodeInsert mt inodeNum raw
        pure (padInode raw)

variable (inode : List UInt8)

def inodeMode : ℕ := (readU16 inode 0).getD 0

def inodeSize : ℕ := (readU32 inode 4).getD 0

def inodeBlock (idx : ℕ) : ℕ := (readU32 inode (40 + idx * 4)).getD 0

def isDir (mode : ℕ) : Bool := mode &&& 0xF000 = 0x4000

def readDataBlockNum (blockIdx : ℕ) : m ℕ :=
  if blockIdx < 12 then
    if inodeBlock inode blockIdx = 0 then R.fail else pure (inodeBlock inode blockIdx)
  else if mt.blockSize / 4 ≤ blockIdx - 12 then R.fail
  else if inodeBlock inode 12 = 0 then R.fail
  else do
    let scratch ← R.block mt (inodeBlock inode 12)
    let n ← R.ofOption (readU32 scratch ((blockIdx - 12) * 4))
    if n = 0 then R.fail else pure n

/-! ## Directories and paths -/

/-- the record at `off` of a directory block: inode, record length, name -/
def recordAt (blk : List UInt8) (off : ℕ) : ℕ × ℕ × List UInt8 :=
  (field blk off 4, field blk (off + 4) 2, (blk.drop (off + 8)).take ((blk[off + 6]?).getD 0).toNat)

/-- the length of the name as the record at `off` says -/
def nameLenAt (blk : List UInt8) (off : ℕ) : ℕ := ((blk[off + 6]?).getD 0).toNat

/-- the inner loop of `lookup_child` -/
def scanBlock (blk : List UInt8) (blockSize : ℕ) (name : List UInt8) : (fuel off : ℕ) → Option ℕ
  | 0, _ => none
  | fuel + 1, off =>
    if off + 8 ≤ blockSize then
      let (ino, recLen, nm) := recordAt blk off
      if recLen = 0 ∨ blockSize < off + recLen then none
      else if ino ≠ 0 ∧ 0 < nameLenAt blk off ∧ off + 8 + nameLenAt blk off ≤ blockSize ∧ nm = name then some ino
      else scanBlock blk blockSize name fuel (off + recLen)
    else none

/-- the outer loop of `lookup_child`, `left` blocks to go -/
def lookupBlocks (mt : FsMount) (inode name : List UInt8) : (left bi : ℕ) → m ℕ
  | 0, _ => R.fail
  | left + 1, bi => do
    let bnum ← readDataBlockNum R mt inode bi
    let blk ← R.block mt bnum
    match scanBlock blk mt.blockSize name mt.blockSize 0 with
    | some ino => pure ino
    | none => lookupBlocks mt inode name left (bi + 1)

def divCeil (a b : ℕ) : ℕ := (a + b - 1) / b

def lookupChild (dirInodeNum : ℕ) (name : List UInt8) : m ℕ := do
  let inode ← readInode R mt dirInodeNum
  if ¬ isDir (inodeMode inode) then R.fail
  else lookupBlocks R mt inode name (divCeil (inodeSize inode) mt.blockSize) 0

def slash : UInt8 := 47
def dot : List UInt8 := [46]
def dotdot : List UInt8 := [46, 46]

variable (path : List UInt8)

/-- the segments that the loop of `resolve_path_inode` follows -/
def segments : List (List UInt8) :=
  (path.splitOn slash).filter fun seg => seg ≠ [] ∧ seg ≠ dot ∧ seg ≠ dotdot

def walk (mt : FsMount) (cur : ℕ) : List (List UInt8) → m ℕ
  | [] => pure cur
  | seg :: segs => do
    let next ← lookupChild R mt cur seg
    walk mt next segs

def resolvePathInode : m ℕ := do
  match ← R.pathLookup mt path with
  | some inode => pure inode
  | none => do
    let cur ← walk R mt 2 (segments path)
    R.pathInsert mt path cur
    pure cur

/-- `read_path_inode`: one leading slash is cut off -/
def readPathInode (raw : List UInt8) : m ℕ :=
  resolvePathInode R mt (if raw.head? = some slash then raw.tail else raw)

/-! ## Data -/

/-- the loop of `read_inode_range`; `done` holds the bytes copied so far -/
def rangeLoop (mt : FsMount) (inode : List UInt8) (offset toRead : ℕ) : ℕ → List UInt8 → m (List UInt8)
  | 0, done => pure done
  | fuel + 1, done =>
    if done.length < toRead then do
      let fileOff := offset + done.length
      let boff := fileOff % mt.blockSize
      let bnum ← readDataBlockNum R mt inode (fileOff / mt.blockSize)
      let blk ← R.block mt bnum
      let n := min (mt.blockSize - boff) (toRead - done.length)
      rangeLoop mt inode offset toRead fuel (done ++ (blk.drop boff).take n)
    else pure done

def readInodeRange (inodeNum offset len : ℕ) : m (List UInt8) := do
  let inode ← readInode R mt inodeNum
  let size := inodeSize inode
  if size ≤ offset then pure []
  else rangeLoop R mt inode offset (min len (size - offset)) (min len (size - offset)) []

/-- the inner loop of `fs_readdir`: the names written, and whether the buffer of `cap` bytes was too small -/
def listBlock (blk : List UInt8) (blockSize cap : ℕ) : (fuel off : ℕ) → List UInt8 → List UInt8 × Bool
  | 0, _, out => (out, false)
  | fuel + 1, off, out =>
    if off + 8 ≤ blockSize then
      let (ino, recLen, nm) := recordAt blk off
      if recLen = 0 ∨ blockSize < off + recLen then (out, false)
      else if ino ≠ 0 ∧ 0 < nameLenAt blk off ∧ off + 8 + nameLenAt blk off ≤ blockSize ∧ nm ≠ dot ∧ nm ≠ dotdot then
        if cap < out.length + (nm.length + if out.length = 0 then 0 else 1) then (out, true)
        else listBlock blk blockSize cap fuel (off + recLen) (if out.length = 0 then nm else out ++ 10 :: nm)
      else listBlock blk blockSize cap fuel (off + recLen) out
    else (out, false)

/-- the outer loop of `fs_readdir`, `left` blocks to go -/
def listBlocks (mt : FsMount) (inode : List UInt8) (cap : ℕ) : (left bi : ℕ) → List UInt8 → m (List UInt8)
  | 0, _, out => pure out
  | left + 1, bi, out => do
    let bnum ← readDataBlockNum R mt inode bi
    let blk ← R.block mt bnum
    match listBlock blk mt.blockSize cap mt.blockSize 0 out with
    | (out, true) => pure out
    | (out, false) => listBlocks mt inode cap left (bi + 1) out

/-! ## The calls -/

/-- a call; a null pointer is `none`, a null pointer to a result is `false` -/
inductive Call where
  | mount
  | stat (path : Option (List UInt8)) (outMode outSize : Bool)
  | read (path : Option (List UInt8)) (offset : ℕ) (buf : Option ℕ) (outRead : Bool)
  | readdir (path : Option (List UInt8)) (buf : Option ℕ) (outLen : Bool)

/-- what a call returns; all but `error` return 0 -/
inductive Reply where
  | error (code : ℤ)
  | mounted
  | stat (mode size : ℕ)
  | read (data : List UInt8)
  | names (out : List UInt8)
  deriving DecidableEq

def Reply.code : Reply → ℤ
  | .error code => code
  | _ => 0

/-- the inode of a path, then `use` of it; `-2` without an inode -/
def withInode (use : ℕ → m Reply) : m Reply := do
  match ← R.attempt (readPathInode R mt path) with
  | none => pure (.error (-2))
  | some inodeNum => use inodeNum

def fsStat : m Reply :=
  withInode R mt path fun inodeNum => do
    match ← R.attempt (readInode R mt inodeNum) with
    | none => pure (.error (-5))
    | some inode => pure (.stat (inodeMode inode) (inodeSize inode))

def fsRead (offset len : ℕ) : m Reply :=
  withInode R mt path fun inodeNum => do
    match ← R.attempt (readInodeRange R mt inodeNum offset len) with
    | none => pure (.error (-5))
    | some data => pure (.read data)

def fsReaddir (cap : ℕ) : m Reply :=
  withInode R mt path fun inodeNum => do
    match ← R.attempt (readInode R mt inodeNum) with
    | none => pure (.error (-5))
    | some inode =>
      if ¬ isDir (inodeMode inode) then pure (.error (-20))
      else do
        match ← R.attempt (listBlocks R mt inode cap (divCeil (inodeSize inode) mt.blockSize) 0 []) with
        | none => pure (.error (-5))
        | some out => pure (.names out)

/-- a call other than `fs_mount` -/
def answer (mount : Option FsMount) : Call → m Reply
  | .stat (some path) true true =>
    match mount with
    | none => pure (.error (-5))
    | some mt => fsStat R mt path
  | .read (some path) offset (some len) true =>
    match mount with
    | none => pure (.error (-5))
    | some mt => fsRead R mt path offset len
  | .readdir (some path) (some cap) true =>
    match mount with
    | none => pure (.error (-5))
    | some mt => fsReaddir R mt path cap
  | _ => pure (.error (-22))

end Code

/-! ## Empty caches and reads that do not fail -/

/-- the sector `i` of a block; the products and sums saturate -/
def lba (mt : FsMount) (block i : ℕ) : ℕ := min (min (block * mt.sectorsPerBlock) (2 ^ 32 - 1) + i) (2 ^ 32 - 1)

def blockContent (disk : Disk) (mt : FsMount) (block : ℕ) : List UInt8 :=
  (List.range mt.sectorsPerBlock).flatMap fun i => disk.sector mt.drive (lba mt block i)

/-- the size of the buffers -/
def bufSize : ℕ := 4096

def ideal (disk : Disk) : Reader Option where
  fail := none
  attempt x := some x
  sector drive lba := some (disk.sector drive lba)
  block mt b := some (blockContent disk mt b)
  inodeBlock mt b := some (blockContent disk mt b ++ List.replicate (bufSize - mt.blockSize) 0)
  inodeLookup _ _ := some none
  inodeInsert _ _ _ := some ()
  pathLookup _ _ := some none
  pathInsert _ _ _ := some ()

/-- the reply of a call without caches and failures -/
def idealReply (disk : Disk) (mount : Option FsMount) : Call → Reply
  | .mount =>
    match mountLoop (ideal disk) 16 with
    | some (some _) => .mounted
    | _ => .error (-5)
  | call => (answer (ideal disk) mount call).getD (.error (-5))

/-! ## The module -/

/-- what the outside decides: which DMA transfers and sector reads succeed, and left-over bytes of a buffer -/
structure Env where
  disk : Disk
  dma : ℕ → Bool
  ok : ℕ → Bool
  stale : ℕ → List UInt8

structure BlockEntry where
  drive : Fin 2
  blockNum : ℕ
  data : List UInt8

structure InodeEntry where
  drive : Fin 2
  inodeNum : ℕ
  inode : List UInt8

structure PathEntry where
  drive : Fin 2
  pathHash : UInt64
  inodeNum : ℕ
  path : List UInt8

/-- the statics of the module; `clock` counts the sector reads, `transfers` the DMA transfers -/
structure Fs where
  mount : Option FsMount
  blocks : Cache BlockEntry
  inodes : Cache InodeEntry
  paths : Cache PathEntry
  clock : ℕ
  transfers : ℕ

def Fs.init : Fs := ⟨none, Cache.empty 64, Cache.empty 128, Cache.empty 128, 0, 0⟩

def resetCaches (s : Fs) : Fs := { s with blocks := s.blocks.reset, inodes := s.inodes.reset, paths := s.paths.reset }

def pathHash (bytes : List UInt8) : UInt64 :=
  bytes.foldl (fun h b => (h ^^^ b.toUInt64) * 0x100000001b3) 0xcbf29ce484222325

def pathCacheMax : ℕ := 192

abbrev Fsm := M Fs Unit

def readSectorAta (e : Env) (drive : Fin 2) (lba : ℕ) : Fsm (List UInt8) := fun s =>
  (if e.ok s.clock then .ok (e.disk.sector drive lba) else .err (), { s with clock := s.clock + 1 })

def readFsBlockDma (e : Env) (mt : FsMount) (block : ℕ) : Fsm (Option (List UInt8)) := fun s =>
  (.ok (if e.dma s.transfers then some (blockContent e.disk mt block) else none),
    { s with transfers := s.transfers + 1 })

/-- the sectors `i`, `i + 1`, … of a block, `left` of them -/
def readSectors (e : Env) (mt : FsMount) (block : ℕ) : (left i : ℕ) → Fsm (List UInt8)
  | 0, _ => pure []
  | left + 1, i => do
    let sec ← readSectorAta e mt.drive (lba mt block i)
    let rest ← readSectors e mt block left (i + 1)
    pure (sec ++ rest)

def blockCacheInsert (mt : FsMount) (block : ℕ) (data : List UInt8) : Fsm Unit :=
  M.modify fun s => { s with blocks := s.blocks.insert ⟨mt.drive, block, data⟩ }

def readFsBlock (e : Env) (mt : FsMount) (block : ℕ) : Fsm (List UInt8) := do
  let hit ← M.gets fun s => s.blocks.lookup fun x => x.drive = mt.drive ∧ x.blockNum = block
  match hit with
  | some x => pure x.data
  | none => do
    match ← readFsBlockDma e mt block with
    | some data => do
      blockCacheInsert mt block data
      pure data
    | none => do
      let data ← readSectors e mt block mt.sectorsPerBlock 0
      blockCacheInsert mt block data
      pure data

/-- the buffer for inode blocks after a read: the block, then left-over bytes -/
def readInodeBlock (e : Env) (mt : FsMount) (block : ℕ) : Fsm (List UInt8) := do
  let data ← readFsBlock e mt block
  let left ← M.gets fun s => e.stale (s.clock + s.transfers)
  pure ((data ++ left).take bufSize ++ List.replicate (bufSize - (data ++ left).length) 0)

def live (e : Env) : Reader Fsm where
  fail := M.fail ()
  attempt x := fun s =>
    match x s with
    | (.ok a, t) => (.ok (some a), t)
    | (.err _, t) => (.ok none, t)
    | (.stuck, t) => (.stuck, t)
  sector := readSectorAta e
  block := readFsBlock e
  inodeBlock := readInodeBlock e
  inodeLookup mt inodeNum := M.gets fun s =>
    (s.inodes.lookup fun x => x.drive = mt.drive ∧ x.inodeNum = inodeNum).map InodeEntry.inode
  inodeInsert mt inodeNum raw := M.modify fun s => { s with inodes := s.inodes.insert ⟨mt.drive, inodeNum, raw⟩ }
  pathLookup mt path := M.gets fun s =>
    if pathCacheMax < path.length then none
    else (s.paths.lookup fun x => x.drive = mt.drive ∧ x.pathHash = pathHash path ∧ x.path = path).map PathEntry.inodeNum
  pathInsert mt path inodeNum := M.modify fun s =>
    if pathCacheMax < path.length then s
    else { s with paths := s.paths.insert ⟨mt.drive, pathHash path, inodeNum, path⟩ }

/-- the reply of a call, and the module after it -/
def respond (e : Env) (s : Fs) : Call → Reply × Fs
  | .mount =>
    match mountLoop (live e) 16 s with
    | (.ok (some mt), t) => (.mounted, { resetCaches t with mount := some mt })
    | (_, t) => (.error (-5), t)
  | call =>
    match answer (live e) s.mount call s with
    | (.ok reply, t) => (reply, t)
    | (_, t) => (.error (-5), t)

end SwiftCore.Kmod
