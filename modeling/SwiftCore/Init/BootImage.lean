/-
The reader of the boot images (`core/init/fs.rs`): two ext2 images in memory, the rootfs and the initfs, read without
writing.

An image is a list of bytes; a `str` is the list of its UTF-8 bytes. Every sum, product, quotient and index of the source
that the compiler guards is guarded here (`Exec`), with 32 bits for `u32` and 64 for `usize`. Loops have fuel; that it
suffices is part of `reader_total`.

The three loops over a directory (`FsEntries::next`, `find_inode_in_dir` and the one in `readdir_path_in`) share one turn,
`turn`, and differ in what they do with its outcome.
-/
import SwiftCore.Lib.Bytes
import SwiftCore.Lib.Checked
import SwiftCore.Lib.Split

namespace SwiftCore.Init

open Bytes Checked
open Exec (add sub mul div rem divCeil index getAt sliceTo getRange attempt loop)

/-! ## The structures on disk -/

abbrev Image := List UInt8

def ext2Magic : UInt16 := 0xEF53

structure Superblock where
  blockSize : UInt32
  inodeSize : UInt16
  inodesPerGroup : UInt32
  /-- a power of two, or 0 where the shift leaves nothing -/
  blockSize_le : blockSize.toNat ≤ 2 ^ 31
  deriving DecidableEq

structure GroupDesc where
  inodeTable : UInt32

structure Inode where
  mode : UInt16
  size : UInt32
  blocks : List UInt32
  length_blocks : blocks.length = 15
  deriving DecidableEq

variable (image : Image)

def readU16 (offset : ℕ) : Exec UInt16 := do
  let upto ← add 64 offset 2
  let bytes ← getRange image offset upto
  let b0 ← index bytes 0
  let b1 ← index bytes 1
  return UInt16.ofNat (ofLe [b0, b1])

def readU32 (offset : ℕ) : Exec UInt32 := do
  let upto ← add 64 offset 4
  let bytes ← getRange image offset upto
  let b0 ← index bytes 0
  let b1 ← index bytes 1
  let b2 ← index bytes 2
  let b3 ← index bytes 3
  return UInt32.ofNat (ofLe [b0, b1, b2, b3])

theorem shiftLeft_le {log : UInt32} (h : log < 32) : ((1024 : UInt32) <<< log).toNat ≤ 2 ^ 31 := by
  have hall : ∀ k < 32, ((1024 : UInt32) <<< UInt32.ofNat k).toNat ≤ 2 ^ 31 := by decide
  have hlog := hall log.toNat (UInt32.lt_iff_toNat_lt.1 h)
  rwa [UInt32.ofNat_toNat] at hlog

/-- `1024u32.checked_shl(log)`: bits shifted out are lost -/
def checkedShl (log : UInt32) : Exec { blockSize : UInt32 // blockSize.toNat ≤ 2 ^ 31 } :=
  if h : log < 32 then .ok ⟨1024 <<< log, shiftLeft_le h⟩ else .absent

def superblock : Exec Superblock :=
  if image.length < 2048 then .absent
  else do
    let magic ← readU16 image (1024 + 56)
    if magic ≠ ext2Magic then .absent
    else do
      let logBlockSize ← readU32 image (1024 + 24)
      let blockSize ← checkedShl logBlockSize
      let inodeSize ← readU16 image (1024 + 88)
      let inodesPerGroup ← readU32 image (1024 + 40)
      return ⟨blockSize.1, inodeSize, inodesPerGroup, blockSize.2⟩

variable (sb : Superblock)

/-- where the group descriptors start -/
def gdtOffset : Exec ℕ :=
  if sb.blockSize = 1024 then mul 32 sb.blockSize.toNat 2 else .ok sb.blockSize.toNat

def groupDesc (group : ℕ) : Exec GroupDesc := do
  let gdtOff ← gdtOffset sb
  let groupOff ← mul 64 group 32
  let descOff ← add 64 gdtOff groupOff
  let tableOff ← add 64 descOff 8
  let inodeTable ← readU32 image tableOff
  return ⟨inodeTable⟩

/-- the entries `i`, `i + 1`, … of the block array, `n` of them -/
def readBlocks (image : Image) (blocksOff : ℕ) : (i n : ℕ) → Exec { blocks : List UInt32 // blocks.length = n }
  | _, 0 => .ok ⟨[], rfl⟩
  | i, n + 1 => do
    let entryOff ← mul 64 i 4
    let blockOff ← add 64 blocksOff entryOff
    let block ← readU32 image blockOff
    let blocks ← readBlocks image blocksOff (i + 1) n
    return ⟨block :: blocks.1, by rw [List.length_cons, blocks.2]⟩

def inode (inodeNum : UInt32) : Exec Inode :=
  if inodeNum = 0 then .absent
  else if sb.inodesPerGroup = 0 then .absent
  else do
    let before ← sub inodeNum.toNat 1
    let group ← div before sb.inodesPerGroup.toNat
    let index ← rem before sb.inodesPerGroup.toNat
    let gd ← groupDesc image sb group
    let inodeTable ← mul 64 gd.inodeTable.toNat sb.blockSize.toNat
    let indexOff ← mul 64 index sb.inodeSize.toNat
    let inodeOff ← add 64 inodeTable indexOff
    let mode ← readU16 image inodeOff
    let sizeOff ← add 64 inodeOff 4
    let size ← readU32 image sizeOff
    let blocksOff ← add 64 inodeOff 40
    let blocks ← readBlocks image blocksOff 0 15
    return ⟨mode, size, blocks.1, blocks.2⟩

/-- one bit of the file type: set for directories, block devices and sockets -/
def isDir (mode : UInt16) : Bool := mode &&& 0x4000 ≠ 0

def blockSlice (blockSize block : UInt32) : Exec (List UInt8) :=
  if block = 0 then .absent
  else do
    let start ← mul 64 block.toNat blockSize.toNat
    let upto ← add 64 start blockSize.toNat
    getRange image start upto

def dataBlockNumber (inode : Inode) (blockIndex : ℕ) : Exec UInt32 :=
  if sb.blockSize = 0 then .absent
  else do
    let entriesPerBlock ← div sb.blockSize.toNat 4
    if blockIndex < 12 then index inode.blocks blockIndex
    else do
      let idx ← sub blockIndex 12
      if idx < entriesPerBlock then do
        let indirect ← index inode.blocks 12
        if indirect = 0 then .absent
        else do
          let block ← blockSlice image sb.blockSize indirect
          let entryOff ← mul 64 idx 4
          readU32 block entryOff
      else do
        let idx2 ← sub idx entriesPerBlock
        let square ← mul 64 entriesPerBlock entriesPerBlock
        if idx2 < square then do
          let dindirect ← index inode.blocks 13
          if dindirect = 0 then .absent
          else do
            let l1 ← blockSlice image sb.blockSize dindirect
            let l1Idx ← div idx2 entriesPerBlock
            let l1Off ← mul 64 l1Idx 4
            let l1Entry ← readU32 l1 l1Off
            if l1Entry = 0 then .absent
            else do
              let l2 ← blockSlice image sb.blockSize l1Entry
              let l2Idx ← rem idx2 entriesPerBlock
              let l2Off ← mul 64 l2Idx 4
              readU32 l2 l2Off
        else .absent

/-! ## The data of an inode -/

/-- what block `blockNum` adds to the `done` bytes of a file: its bytes, or zeros for a hole -/
def filePiece (size done : ℕ) (blockNum : UInt32) : Exec (List UInt8) :=
  if blockNum = 0 then do
    let rest ← sub size done
    return List.replicate (min sb.blockSize.toNat rest) 0
  else do
    let block ← blockSlice image sb.blockSize blockNum
    let rest ← sub size done
    sliceTo block (min block.length rest)

/-- the loop of `read_inode_data`: `left` blocks to go -/
def copyBlocks (image : Image) (sb : Superblock) (inode : Inode) (size : ℕ) :
    (left blockIdx : ℕ) → List UInt8 → Exec (List UInt8)
  | 0, _, buf => .ok buf
  | left + 1, blockIdx, buf => do
    let blockNum ← dataBlockNumber image sb inode blockIdx
    let piece ← filePiece image sb size buf.length blockNum
    if size ≤ (buf ++ piece).length then .ok (buf ++ piece)
    else copyBlocks image sb inode size left (blockIdx + 1) (buf ++ piece)

def readInodeData (inodeNum : UInt32) : Exec (List UInt8) := do
  let inode ← inode image sb inodeNum
  if isDir inode.mode then return []
  else if inode.size = 0 then return []
  else do
    let blocksNeeded ← divCeil inode.size.toNat sb.blockSize.toNat
    copyBlocks image sb inode inode.size.toNat blocksNeeded 0 []

/-! ## Directories -/

/-- `str::from_utf8(bytes).ok()` -/
def fromUtf8 (bytes : List UInt8) : Exec (List UInt8) :=
  if ByteArray.validateUTF8 ⟨bytes.toArray⟩ then .ok bytes else .absent

/-- where a loop over a directory is -/
structure Cursor where
  blockIdx : ℕ
  offset : ℕ
  remaining : ℕ
  deriving DecidableEq

variable (dir : Inode)

def Cursor.start : Cursor := ⟨0, 0, dir.size.toNat⟩

/-- what a turn meets: nothing of interest, the end of the directory, or an entry (its name may be unreadable) -/
inductive Turn where
  | skip (next : Cursor)
  | finish
  | entry (next : Cursor) (inode : UInt32) (name : Option (List UInt8))
  deriving DecidableEq

/-- the turn that the three loops share -/
def turn (c : Cursor) : Exec Turn := do
  let block ← dataBlockNumber image sb dir c.blockIdx
  if block = 0 then return .finish
  else do
    let data ← blockSlice image sb.blockSize block
    if data.length ≤ c.offset then do
      let blockIdx ← add 64 c.blockIdx 1
      return .skip { c with blockIdx := blockIdx, offset := 0 }
    else do
      let inode ← readU32 data c.offset
      let recOff ← add 64 c.offset 4
      let recLen ← readU16 data recOff
      let lenOff ← add 64 c.offset 6
      let nameLen ← getAt data lenOff
      if recLen = 0 then return .finish
      else do
        let offset ← add 64 c.offset recLen.toNat
        let next : Cursor := { c with offset := offset, remaining := c.remaining - recLen.toNat }
        if inode = 0 then return .skip next
        else do
          let start ← add 64 c.offset 8
          let upto ← add 64 start nameLen.toNat
          let name ← attempt (getRange data start upto >>= fromUtf8)
          return .entry next inode name

/-- turns that any loop over the directory makes at most -/
def Cursor.fuel (c : Cursor) : ℕ := 2 * c.remaining + 2

def findTurn (name : List UInt8) (c : Cursor) : Exec (Cursor ⊕ UInt32) :=
  if c.remaining = 0 then .absent
  else do
    match ← turn image sb dir c with
    | .skip next => return .inl next
    | .finish => .absent
    | .entry _ _ none => .absent
    | .entry next inode (some entryName) => if entryName = name then return .inr inode else return .inl next

def findInodeInDir (name : List UInt8) : Exec UInt32 :=
  if ¬ isDir dir.mode then .absent
  else loop (findTurn image sb dir name) (Cursor.start dir).fuel (Cursor.start dir)

def dot : List UInt8 := [46]
def dotdot : List UInt8 := [46, 46]

def readdirTurn (s : Cursor × List (List UInt8)) :
    Exec ((Cursor × List (List UInt8)) ⊕ List (List UInt8)) :=
  if s.1.remaining = 0 then .ok (.inr s.2)
  else do
    match ← turn image sb dir s.1 with
    | .skip next => return .inl (next, s.2)
    | .finish => return .inr s.2
    | .entry _ _ none => .absent
    | .entry next _ (some name) => return .inl (next, if name ≠ dot ∧ name ≠ dotdot then s.2 ++ [name] else s.2)

/-- the loop of `readdir_path_in` -/
def readdirLoop : Exec (List (List UInt8)) :=
  loop (readdirTurn image sb dir) (Cursor.start dir).fuel (Cursor.start dir, [])

/-! ## The iterator -/

structure FsEntry where
  name : List UInt8
  data : List UInt8

structure FsEntries where
  image : Image
  sb : Superblock
  inode : Inode
  cursor : Cursor

def entries (initfs : Image) : Exec FsEntries := do
  let sb ← attempt (superblock initfs)
  let sb := sb.getD ⟨1024, 128, 0, by decide⟩
  let root ← attempt (inode initfs sb 2)
  let root := root.getD ⟨0, 0, List.replicate 15 0, rfl⟩
  return ⟨initfs, sb, root, Cursor.start root⟩

/-- one turn of `FsEntries::next`; where the result is `None` the cursor stays where it was changed last -/
def FsEntries.nextTurn (e : FsEntries) (c : Cursor) : Exec (Cursor ⊕ (Option FsEntry × Cursor)) :=
  if c.remaining = 0 then .ok (.inr (none, c))
  else do
    match ← attempt (turn e.image e.sb e.inode c) with
    | none => return .inr (none, c)
    | some (.skip next) => return .inl next
    | some .finish => return .inr (none, c)
    | some (.entry next _ none) => return .inr (none, next)
    | some (.entry next inode (some name)) => do
      let data ← attempt (readInodeData e.image e.sb inode)
      return .inr (some ⟨name, data.getD []⟩, next)

def FsEntries.next (e : FsEntries) : Exec (Option FsEntry × FsEntries) := do
  let r ← loop e.nextTurn e.cursor.fuel e.cursor
  return (r.1, { e with cursor := r.2 })

/-- `for entry in entries`: up to the first `None` -/
def FsEntries.collect (e : FsEntries) : Exec (List FsEntry) :=
  loop (fun s : FsEntries × List FsEntry => do
    match ← s.1.next with
    | (none, _) => return .inr s.2
    | (some entry, e) => return .inl (e, s.2 ++ [entry])) (e.cursor.remaining + 1) (e, [])

/-- the iterator after `n` calls of `next`, whatever they return -/
def FsEntries.nextTimes : ℕ → FsEntries → Exec FsEntries
  | 0, e => .ok e
  | n + 1, e => do
    let r ← e.next
    nextTimes n r.2

/-! ## Paths -/

def slash : UInt8 := 47

variable (path : List UInt8)

/-- `path.split('/').filter(|p| !p.is_empty())` -/
def segments : List (List UInt8) := (path.splitOn slash).filter (· ≠ [])

/-- `path.trim_matches('/')` -/
def trimSlashes : List UInt8 := Split.trim slash path

def metadataWalk (image : Image) (sb : Superblock) (current : Inode) : List (List UInt8) → Exec (UInt16 × ℕ)
  | [] => .absent
  | part :: parts =>
    if part = dotdot ∨ part = dot then metadataWalk image sb current parts
    else do
      let inodeNum ← findInodeInDir image sb current part
      let next ← inode image sb inodeNum
      if parts = [] then return (next.mode, next.size.toNat)
      else metadataWalk image sb next parts

def fileMetadataIn : Exec (UInt16 × ℕ) := do
  let sb ← superblock image
  let normalized := trimSlashes path
  if normalized = [] ∨ normalized = dot then do
    let root ← inode image sb 2
    return (root.mode, 0)
  else do
    let current ← inode image sb 2
    metadataWalk image sb current (segments normalized)

def resolveWalk (image : Image) (sb : Superblock) (currentNum : UInt32) (current : Inode) :
    List (List UInt8) → Exec UInt32
  | [] => if isDir current.mode then .ok currentNum else .absent
  | part :: parts =>
    if part = dot then resolveWalk image sb currentNum current parts
    else if part = dotdot then resolveWalk image sb currentNum current parts
    else if ¬ isDir current.mode then .absent
    else do
      let nextNum ← findInodeInDir image sb current part
      let next ← inode image sb nextNum
      resolveWalk image sb nextNum next parts

def resolveDirInodeIn : Exec UInt32 := do
  let sb ← superblock image
  let normalized := trimSlashes path
  if normalized = [] ∨ normalized = dot then do
    let root ← inode image sb 2
    if isDir root.mode then return 2 else .absent
  else do
    let current ← inode image sb 2
    resolveWalk image sb 2 current (segments normalized)

def readdirPathIn : Exec (List (List UInt8)) := do
  let sb ← superblock image
  let dirInodeNum ← resolveDirInodeIn image path
  let dirInode ← inode image sb dirInodeNum
  readdirLoop image sb dirInode

def readWalk (image : Image) (sb : Superblock) (current : Inode) : List (List UInt8) → Exec (List UInt8)
  | [] => .absent
  | part :: parts =>
    if part = dotdot ∨ part = dot then .absent
    else do
      let inodeNum ← findInodeInDir image sb current part
      let next ← inode image sb inodeNum
      if parts = [] then (if isDir next.mode then .absent else readInodeData image sb inodeNum)
      else if ¬ isDir next.mode then .absent
      else readWalk image sb next parts

def readPathIn : Exec (List UInt8) := do
  let sb ← superblock image
  let current ← inode image sb 2
  readWalk image sb current (segments path)

/-! ## Both images -/

/-- the answer of the rootfs if there is one, else that of the initfs -/
def rootfsFirst {α : Type} (query : Image → Exec α) (rootfs initfs : Image) : Exec α :=
  if rootfs ≠ [] then (query rootfs).orElse (query initfs) else query initfs

variable (rootfs initfs : Image)

def read (name : List UInt8) : Exec (List UInt8) :=
  rootfsFirst (readPathIn · name) rootfs initfs

def fileMetadata (path : List UInt8) : Exec (UInt16 × ℕ) :=
  rootfsFirst (fileMetadataIn · path) rootfs initfs

def isDirectory (path : List UInt8) : Exec Bool := do
  let found ← attempt (rootfsFirst (resolveDirInodeIn · path) rootfs initfs)
  return found.isSome

def readdirPath (path : List UInt8) : Exec (List (List UInt8)) :=
  rootfsFirst (readdirPathIn · path) rootfs initfs

end SwiftCore.Init
