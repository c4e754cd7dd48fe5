/-
The reader of the boot images returns on every image (`core/init/fs.rs`).

One lemma for each function says that it is not stopped, and what its result is like where a caller needs it: a block has
the block size, a data block is found only if the block size is not 0 and its index is small, the data of a file has its
size. A loop over a directory makes progress in each turn (`measure`): a record takes bytes away from the directory, and
after a move to the next block the offset lies inside it.

- `returns_turn`: the turn of the loops over a directory.
- `reader_total`: `read`, `file_metadata`, `is_directory`, `readdir_path` and the iterator return, for every pair of images
  and every path.
-/
import SwiftCore.Init.BootImage

namespace SwiftCore.Init

open Checked
open Exec (add_eq div_eq index_eq mul_eq ok_bind rem_eq sub_eq)

variable (image : Image) (sb : Superblock) (dir : Inode) (path : List UInt8)

/-! ## Fields and inodes -/

theorem returns_readU16 {offset : ℕ} (h : offset + 2 < 2 ^ 64) : Returns (readU16 image offset) fun _ => True := by
  unfold readU16
  rw [add_eq h, ok_bind]
  refine (returns_getRange image offset (offset + 2)).bind fun bytes hbytes => ?_
  obtain ⟨hlen, -⟩ := hbytes
  rw [index_eq (by omega), ok_bind, index_eq (by omega), ok_bind]
  trivial

theorem returns_readU32 {offset : ℕ} (h : offset + 4 < 2 ^ 64) : Returns (readU32 image offset) fun _ => True := by
  unfold readU32
  rw [add_eq h, ok_bind]
  refine (returns_getRange image offset (offset + 4)).bind fun bytes hbytes => ?_
  obtain ⟨hlen, -⟩ := hbytes
  simp (disch := omega) only [index_eq, ok_bind]
  trivial

theorem returns_checkedShl (log : UInt32) : Returns (checkedShl log) fun _ => True := by
  unfold checkedShl
  split_ifs <;> trivial

theorem returns_superblock : Returns (superblock image) fun _ => True := by
  unfold superblock
  split_ifs
  · trivial
  · refine (returns_readU16 image (by omega)).bind fun magic _ => ?_
    split_ifs
    · trivial
    · refine (returns_readU32 image (by omega)).bind fun log _ => ?_
      refine (returns_checkedShl log).bind fun blockSize _ => ?_
      refine (returns_readU16 image (by omega)).bind fun inodeSize _ => ?_
      refine (returns_readU32 image (by omega)).bind fun inodesPerGroup _ => ?_
      trivial

theorem Superblock.blockSize_pos {sb : Superblock} (h : sb.blockSize ≠ 0) : 0 < sb.blockSize.toNat :=
  Nat.pos_of_ne_zero fun h0 => h (UInt32.toNat_inj.1 h0)

theorem Superblock.start_le (block : UInt32) : block.toNat * sb.blockSize.toNat ≤ 2 ^ 32 * 2 ^ 31 :=
  Nat.mul_le_mul block.toNat_lt.le sb.blockSize_le

theorem Superblock.entries_le : sb.blockSize.toNat / 4 ≤ 2 ^ 29 ∧
    sb.blockSize.toNat / 4 * (sb.blockSize.toNat / 4) ≤ 2 ^ 29 * 2 ^ 29 := by
  have hentries : sb.blockSize.toNat / 4 ≤ 2 ^ 29 := by have := sb.blockSize_le; omega
  exact ⟨hentries, Nat.mul_le_mul hentries hentries⟩

theorem returns_gdtOffset : Returns (gdtOffset sb) fun gdtOff => gdtOff ≤ 2 ^ 31 := by
  unfold gdtOffset
  split_ifs with h
  · rw [h, mul_eq (by decide), returns_ok]
    decide
  · exact sb.blockSize_le

theorem returns_groupDesc {group : ℕ} (h : group < 2 ^ 32) : Returns (groupDesc image sb group) fun _ => True := by
  unfold groupDesc
  refine (returns_gdtOffset sb).bind fun gdtOff hgdtOff => ?_
  rw [mul_eq (by omega), ok_bind, add_eq (by omega), ok_bind, add_eq (by omega), ok_bind]
  exact (returns_readU32 image (by omega)).bind fun _ _ => trivial

theorem returns_readBlocks {blocksOff i n : ℕ} (h : blocksOff + (i + n) * 4 + 4 < 2 ^ 64) :
    Returns (readBlocks image blocksOff i n) fun _ => True := by
  induction n generalizing i with
  | zero => trivial
  | succ n ih =>
    unfold readBlocks
    rw [mul_eq (by omega), ok_bind, add_eq (by omega), ok_bind]
    refine (returns_readU32 image (by omega)).bind fun block _ => ?_
    exact (ih (by omega)).bind fun _ _ => trivial

theorem returns_inode (inodeNum : UInt32) : Returns (inode image sb inodeNum) fun _ => True := by
  have hsize := sb.blockSize_le
  have hnum := inodeNum.toNat_lt
  have hinodeSize := sb.inodeSize.toNat_lt
  unfold inode
  split_ifs with hzero hgroup
  · trivial
  · trivial
  have hone : 1 ≤ inodeNum.toNat := by
    by_contra hlt
    exact hzero (UInt32.toNat_inj.1 (by simp; omega))
  have hper : sb.inodesPerGroup.toNat ≠ 0 := fun h0 => hgroup (UInt32.toNat_inj.1 h0)
  have hmod : (inodeNum.toNat - 1) % sb.inodesPerGroup.toNat < 2 ^ 32 := (Nat.mod_le _ _).trans_lt (by omega)
  have hdiv : (inodeNum.toNat - 1) / sb.inodesPerGroup.toNat < 2 ^ 32 := (Nat.div_le_self _ _).trans_lt (by omega)
  rw [sub_eq hone, ok_bind, div_eq hper, ok_bind, rem_eq hper, ok_bind]
  refine (returns_groupDesc image sb hdiv).bind fun gd _ => ?_
  have htable := sb.start_le gd.inodeTable
  have hindex : (inodeNum.toNat - 1) % sb.inodesPerGroup.toNat * sb.inodeSize.toNat ≤ 2 ^ 32 * 2 ^ 16 :=
    Nat.mul_le_mul hmod.le hinodeSize.le
  rw [mul_eq (by omega), ok_bind, mul_eq (by omega), ok_bind, add_eq (by omega), ok_bind]
  refine (returns_readU16 image (by omega)).bind fun mode _ => ?_
  rw [add_eq (by omega), ok_bind]
  refine (returns_readU32 image (by omega)).bind fun size _ => ?_
  rw [add_eq (by omega), ok_bind]
  exact (returns_readBlocks image (by omega)).bind fun _ _ => trivial

/-! ## Blocks -/

theorem returns_blockSlice (block : UInt32) :
    Returns (blockSlice image sb.blockSize block) fun data => data.length = sb.blockSize.toNat := by
  have hsize := sb.blockSize_le
  have hstart := sb.start_le block
  unfold blockSlice
  split_ifs
  · trivial
  · rw [mul_eq (by omega), ok_bind, add_eq (by omega), ok_bind]
    refine (returns_getRange image _ _).mono fun data hdata => ?_
    obtain ⟨hlen, -⟩ := hdata
    omega

/-- a data block is found only below the reach of the double indirect block -/
theorem returns_dataBlockNumber (inode : Inode) (blockIndex : ℕ) :
    Returns (dataBlockNumber image sb inode blockIndex) fun _ => sb.blockSize ≠ 0 ∧ blockIndex < 2 ^ 60 := by
  have hsize := sb.blockSize_le
  have hblocks := inode.length_blocks
  rcases eq_or_ne sb.blockSize 0 with hzero | hzero
  · rw [dataBlockNumber, if_pos hzero]
    trivial
  rw [dataBlockNumber, if_neg hzero, div_eq (by decide), ok_bind]
  obtain ⟨hentries, hsquare⟩ := sb.entries_le
  generalize sb.blockSize.toNat / 4 = entries at hentries hsquare ⊢
  split_ifs with hdirect
  · rw [index_eq (by omega)]
    exact ⟨hzero, by omega⟩
  rw [sub_eq (by omega), ok_bind]
  split_ifs with hsingle
  · rw [index_eq (by omega), ok_bind]
    split_ifs
    · trivial
    refine (returns_blockSlice image sb _).bind fun block _ => ?_
    rw [mul_eq (by omega), ok_bind]
    exact (returns_readU32 block (by omega)).mono fun _ _ => ⟨hzero, by omega⟩
  rw [sub_eq (by omega), ok_bind, mul_eq (by omega), ok_bind]
  split_ifs with hdouble
  · -- the reach is not empty, so the number of entries is not 0
    have hne : entries ≠ 0 := by
      intro h0
      subst h0
      omega
    have hdiv : (blockIndex - 12 - entries) / entries < 2 ^ 60 := (Nat.div_le_self _ _).trans_lt (by omega)
    have hmod : (blockIndex - 12 - entries) % entries < entries := Nat.mod_lt _ (by omega)
    rw [index_eq (by omega), ok_bind]
    split_ifs
    · trivial
    refine (returns_blockSlice image sb _).bind fun l1 _ => ?_
    rw [div_eq hne, ok_bind, mul_eq (by omega), ok_bind]
    refine (returns_readU32 l1 (by omega)).bind fun l1Entry _ => ?_
    split_ifs
    · trivial
    refine (returns_blockSlice image sb _).bind fun l2 _ => ?_
    rw [rem_eq hne, ok_bind, mul_eq (by omega), ok_bind]
    exact (returns_readU32 l2 (by omega)).mono fun _ _ => ⟨hzero, by omega⟩
  · trivial

theorem returns_filePiece {size done : ℕ} (h : done ≤ size) (blockNum : UInt32) :
    Returns (filePiece image sb size done blockNum) fun piece => piece.length = min sb.blockSize.toNat (size - done) := by
  unfold filePiece
  rw [sub_eq h]
  split_ifs
  · simp
  · refine (returns_blockSlice image sb blockNum).bind fun block hblock => ?_
    rw [ok_bind, Exec.sliceTo_eq (Nat.min_le_left _ _)]
    simp [hblock]

/-- what is copied so far never exceeds the size, and the blocks to go cover the rest -/
theorem returns_copyBlocks (inode : Inode) {size left blockIdx : ℕ} {buf : List UInt8}
    (hbuf : buf.length ≤ size) (hleft : size ≤ buf.length + left * sb.blockSize.toNat) :
    Returns (copyBlocks image sb inode size left blockIdx buf) fun data => data.length = size := by
  induction left generalizing blockIdx buf with
  | zero =>
    rw [Nat.zero_mul, Nat.add_zero] at hleft
    exact Nat.le_antisymm hbuf hleft
  | succ left ih =>
    unfold copyBlocks
    refine (returns_dataBlockNumber image sb inode blockIdx).bind fun blockNum _ => ?_
    refine (returns_filePiece image sb hbuf blockNum).bind fun piece hlen => ?_
    have happend : (buf ++ piece).length = buf.length + piece.length := List.length_append
    rw [Nat.add_mul, Nat.one_mul] at hleft
    split_ifs with hfull
    · rw [returns_ok]
      omega
    · exact ih (by omega) (by omega)

theorem returns_readInodeData {sb : Superblock} (h : sb.blockSize ≠ 0) (inodeNum : UInt32) :
    Returns (readInodeData image sb inodeNum) fun data =>
      ∃ ino, inode image sb inodeNum = .ok ino ∧ (isDir ino.mode = false → data.length = ino.size.toNat) := by
  have hsize : sb.blockSize.toNat ≠ 0 := fun h0 => h (UInt32.toNat_inj.1 h0)
  unfold readInodeData
  rcases returns_iff.1 (returns_inode image sb inodeNum) with hnone | ⟨ino, hino, -⟩
  · rw [hnone]
    trivial
  rw [hino, ok_bind]
  split_ifs with hdir hempty
  · exact ⟨ino, rfl, fun hfile => by simp [hdir] at hfile⟩
  · refine ⟨ino, rfl, fun _ => ?_⟩
    rw [hempty]
    rfl
  · rw [Exec.divCeil_eq hsize, ok_bind]
    have hcover : ino.size.toNat ≤ (ino.size.toNat + sb.blockSize.toNat - 1) / sb.blockSize.toNat * sb.blockSize.toNat := by
      have hdiv := Nat.div_add_mod (ino.size.toNat + sb.blockSize.toNat - 1) sb.blockSize.toNat
      have hmod := Nat.mod_lt (ino.size.toNat + sb.blockSize.toNat - 1) (Nat.pos_of_ne_zero hsize)
      rw [Nat.mul_comm] at hdiv
      omega
    exact (returns_copyBlocks image sb ino (Nat.zero_le _) (by simpa using hcover)).mono fun data hdata =>
      ⟨ino, rfl, fun _ => hdata⟩

/-! ## Loops over a directory -/

theorem returns_fromUtf8 (bytes : List UInt8) : Returns (fromUtf8 bytes) fun name => name = bytes := by
  unfold fromUtf8
  split_ifs <;> trivial

/-- what each turn makes smaller: the bytes of the directory to go, then the move to the next block -/
def Cursor.measure (c : Cursor) : ℕ := 2 * c.remaining + if sb.blockSize.toNat ≤ c.offset then 1 else 0

theorem Cursor.measure_lt_of_remaining {c next : Cursor} (h : next.remaining < c.remaining) :
    next.measure sb < c.measure sb := by
  unfold Cursor.measure
  split_ifs <;> omega

/-- a turn gets on; a record takes bytes away -/
def Turn.Progress (c : Cursor) : Turn → Prop
  | .skip next => next.measure sb < c.measure sb ∧ next.remaining ≤ c.remaining
  | .finish => True
  | .entry next _ _ => next.remaining < c.remaining

theorem returns_turn {c : Cursor} (h : c.remaining ≠ 0) :
    Returns (turn image sb dir c) fun t => sb.blockSize ≠ 0 ∧ t.Progress sb c := by
  have hle := sb.blockSize_le
  unfold turn
  refine (returns_dataBlockNumber image sb dir c.blockIdx).bind fun block hblock => ?_
  obtain ⟨hsize, hidx⟩ := hblock
  have hpos := Superblock.blockSize_pos hsize
  split_ifs
  · exact ⟨hsize, trivial⟩
  refine (returns_blockSlice image sb block).bind fun data hdata => ?_
  rw [hdata]
  split_ifs with hoff
  · rw [add_eq (by omega), ok_bind]
    refine ⟨hsize, ?_, le_rfl⟩
    simp only [Cursor.measure]
    rw [if_neg (by omega), if_pos hoff]
    omega
  refine (returns_readU32 data (by omega)).bind fun inode _ => ?_
  rw [add_eq (by omega), ok_bind]
  refine (returns_readU16 data (by omega)).bind fun recLen _ => ?_
  rw [add_eq (by omega), ok_bind]
  refine (returns_getAt data _).bind fun nameLen _ => ?_
  have hrec := recLen.toNat_lt
  have hname := nameLen.toNat_lt
  rcases eq_or_ne recLen 0 with hzero | hzero
  · rw [if_pos hzero]
    exact ⟨hsize, trivial⟩
  have hone : recLen.toNat ≠ 0 := fun h0 => hzero (UInt16.toNat_inj.1 h0)
  rw [if_neg hzero, add_eq (by omega), ok_bind]
  have hless : c.remaining - recLen.toNat < c.remaining := by omega
  split_ifs
  · exact ⟨hsize, Cursor.measure_lt_of_remaining sb hless, hless.le⟩
  rw [add_eq (by omega), ok_bind, add_eq (by omega), ok_bind]
  have hread : Returns (Exec.getRange data (c.offset + 8) (c.offset + 8 + nameLen.toNat) >>= fromUtf8) fun _ => True :=
    (returns_getRange data _ _).bind fun bytes _ => (returns_fromUtf8 bytes).mono fun _ _ => trivial
  exact hread.attempt.bind fun name _ => ⟨hsize, hless⟩

theorem Cursor.measure_lt_fuel (c : Cursor) : c.measure sb < c.fuel := by
  unfold Cursor.measure Cursor.fuel
  split_ifs <;> omega

/-- what holds of the entries met on the way holds of the inode found -/
theorem returns_findInodeInDir_of {image : Image} {sb : Superblock} {dir : Inode} (name : List UInt8)
    {I : Cursor → Prop} {R : UInt32 → Prop} (hstart : I (Cursor.start dir))
    (hturn : ∀ c, I c → c.remaining ≠ 0 → Returns (turn image sb dir c) fun t =>
      (∀ next, t = .skip next → I next) ∧ ∀ next inode entryName, t = .entry next inode entryName → I next ∧ R inode) :
    Returns (findInodeInDir image sb dir name) R := by
  unfold findInodeInDir
  split_ifs
  case neg => trivial
  refine Returns.loop I (Cursor.measure sb) (fun c hc => ?_) hstart (Cursor.measure_lt_fuel sb _)
  unfold findTurn
  split_ifs with h
  · trivial
  have hprogress := returns_turn image sb dir h
  have hkeeps := hturn c hc h
  cases hcase : turn image sb dir c with
  | absent => trivial
  | stop why => exact ((returns_turn image sb dir h).ne_stop why hcase).elim
  | ok t =>
    rw [hcase] at hprogress hkeeps
    obtain ⟨-, hless⟩ := hprogress
    cases t with
    | skip next => exact ⟨hkeeps.1 next rfl, hless.1⟩
    | finish => trivial
    | entry next inode entryName =>
      obtain ⟨hI, hR⟩ := hkeeps.2 next inode entryName rfl
      cases entryName with
      | none => trivial
      | some entryName =>
        rw [ok_bind]
        simp only
        split_ifs
        · exact hR
        · exact ⟨hI, Cursor.measure_lt_of_remaining sb hless⟩

theorem returns_findInodeInDir (name : List UInt8) :
    Returns (findInodeInDir image sb dir name) fun _ => sb.blockSize ≠ 0 :=
  returns_findInodeInDir_of name (I := fun _ => True) trivial fun _ _ h =>
    (returns_turn image sb dir h).mono fun _ ht => ⟨fun _ _ => trivial, fun _ _ _ _ => ⟨trivial, ht.1⟩⟩

theorem returns_readdirTurn (s : Cursor × List (List UInt8)) : Returns (readdirTurn image sb dir s)
      fun r => Sum.elim (fun s' => True ∧ s'.1.measure sb < s.1.measure sb) (fun _ => True) r := by
  unfold readdirTurn
  split_ifs with h
  · trivial
  refine (returns_turn image sb dir h).bind fun t ht => ?_
  obtain ⟨-, hprogress⟩ := ht
  cases t with
  | skip next => exact ⟨trivial, hprogress.1⟩
  | finish => trivial
  | entry next inode name =>
    cases name with
    | none => trivial
    | some name => exact ⟨trivial, Cursor.measure_lt_of_remaining sb hprogress⟩

theorem returns_readdirLoop : Returns (readdirLoop image sb dir) fun _ => True :=
  Returns.loop (fun _ => True) (fun s => s.1.measure sb) (fun s _ => returns_readdirTurn image sb dir s) trivial
    (Cursor.measure_lt_fuel sb _)

/-! ## The iterator -/

theorem returns_entries (initfs : Image) : Returns (entries initfs) fun _ => True := by
  unfold entries
  refine (returns_superblock initfs).attempt.bind fun sb _ => ?_
  exact (returns_inode initfs _ 2).attempt.bind fun root _ => trivial

/-- an entry takes bytes away from the directory -/
theorem returns_next (e : FsEntries) :
    Returns e.next fun r => r.1.isSome = true → r.2.cursor.remaining < e.cursor.remaining := by
  unfold FsEntries.next
  have hloop : Returns (Exec.loop e.nextTurn e.cursor.fuel e.cursor)
      fun r => r.1.isSome = true → r.2.remaining < e.cursor.remaining := by
    refine Returns.loop (fun c => c.remaining ≤ e.cursor.remaining) (Cursor.measure e.sb) (fun c hc => ?_) le_rfl
      (Cursor.measure_lt_fuel e.sb _)
    unfold FsEntries.nextTurn
    split_ifs with h
    · simp
    have hturn := returns_turn e.image e.sb e.inode h
    refine hturn.attempt.bind fun t ht => ?_
    cases t with
    | none => simp
    | some t =>
      obtain ⟨hsize, hprogress⟩ := ht t rfl
      cases t with
      | skip next => exact ⟨hprogress.2.trans hc, hprogress.1⟩
      | finish => simp
      | entry next inode name =>
        cases name with
        | none => simp
        | some name =>
          refine (returns_readInodeData e.image hsize inode).attempt.bind fun data _ => ?_
          exact fun _ => Nat.lt_of_lt_of_le hprogress hc
  exact hloop.bind fun r hr => hr

theorem returns_collect (e : FsEntries) : Returns e.collect fun _ => True := by
  unfold FsEntries.collect
  refine Returns.loop (fun _ => True) (fun s => s.1.cursor.remaining) (fun s _ => ?_) trivial (Nat.lt_succ_self _)
  refine (returns_next s.1).bind fun r hr => ?_
  obtain ⟨entry, e'⟩ := r
  cases entry with
  | none => trivial
  | some entry => exact ⟨trivial, hr rfl⟩

theorem returns_nextTimes (n : ℕ) (e : FsEntries) : Returns (e.nextTimes n) fun _ => True := by
  induction n generalizing e with
  | zero => trivial
  | succ n ih => exact (returns_next e).bind fun r _ => ih r.2

/-! ## Walks along a path -/

theorem returns_metadataWalk (current : Inode) (parts : List (List UInt8)) :
    Returns (metadataWalk image sb current parts) fun _ => True := by
  induction parts generalizing current with
  | nil => trivial
  | cons part parts ih =>
    unfold metadataWalk
    split_ifs
    · exact ih current
    all_goals
      refine (returns_findInodeInDir image sb current part).bind fun inodeNum _ => ?_
      refine (returns_inode image sb inodeNum).bind fun next _ => ?_
    · trivial
    · exact ih next

theorem returns_fileMetadataIn : Returns (fileMetadataIn image path) fun _ => True := by
  refine (returns_superblock image).bind fun sb _ => ?_
  simp only
  split_ifs
  · exact (returns_inode image sb 2).bind fun root _ => trivial
  · exact (returns_inode image sb 2).bind fun current _ => returns_metadataWalk image sb current _

theorem returns_resolveWalk (currentNum : UInt32) (current : Inode)
    (parts : List (List UInt8)) : Returns (resolveWalk image sb currentNum current parts) fun _ => True := by
  induction parts generalizing currentNum current with
  | nil =>
    unfold resolveWalk
    split_ifs <;> trivial
  | cons part parts ih =>
    unfold resolveWalk
    split_ifs
    · exact ih currentNum current
    · exact ih currentNum current
    · refine (returns_findInodeInDir image sb current part).bind fun nextNum _ => ?_
      exact (returns_inode image sb nextNum).bind fun next _ => ih nextNum next
    · trivial

theorem returns_resolveDirInodeIn : Returns (resolveDirInodeIn image path) fun _ => True := by
  refine (returns_superblock image).bind fun sb _ => ?_
  simp only
  split_ifs
  · refine (returns_inode image sb 2).bind fun root _ => ?_
    split_ifs <;> trivial
  · exact (returns_inode image sb 2).bind fun current _ => returns_resolveWalk image sb 2 current _

theorem returns_readdirPathIn : Returns (readdirPathIn image path) fun _ => True := by
  refine (returns_superblock image).bind fun sb _ => ?_
  refine (returns_resolveDirInodeIn image path).bind fun dirInodeNum _ => ?_
  exact (returns_inode image sb dirInodeNum).bind fun dirInode _ => returns_readdirLoop image sb dirInode

theorem returns_readWalk (current : Inode) (parts : List (List UInt8)) :
    Returns (readWalk image sb current parts) fun _ => True := by
  induction parts generalizing current with
  | nil => trivial
  | cons part parts ih =>
    rw [readWalk]
    split_ifs with hdots hlast
    · trivial
    all_goals
      refine (returns_findInodeInDir image sb current part).bind fun inodeNum hsize => ?_
      refine (returns_inode image sb inodeNum).bind fun next _ => ?_
      split_ifs
    · trivial
    · exact (returns_readInodeData image hsize inodeNum).mono fun _ _ => trivial
    · exact ih next
    · trivial

theorem returns_readPathIn : Returns (readPathIn image path) fun _ => True := by
  refine (returns_superblock image).bind fun sb _ => ?_
  exact (returns_inode image sb 2).bind fun current _ => returns_readWalk image sb current _

/-! ## The reader -/

theorem returns_rootfsFirst {α : Type} {query : Image → Exec α} (h : ∀ image, Returns (query image) fun _ => True)
    (rootfs initfs : Image) : Returns (rootfsFirst query rootfs initfs) fun _ => True := by
  unfold rootfsFirst
  split_ifs
  · exact (h rootfs).orElse (h initfs)
  · exact h initfs

/-- **The reader returns.** For every two images and every path no query is stopped: not by an overflow, a division by
zero or an index out of bounds, nor because a loop does not end. The same holds for going through the iterator, and for
any number of calls of `next`, also after it returned `None`. -/
theorem reader_total (rootfs initfs : Image) (path : List UInt8) (why : Stop) :
    read rootfs initfs path ≠ .stop why ∧ fileMetadata rootfs initfs path ≠ .stop why ∧
    isDirectory rootfs initfs path ≠ .stop why ∧ readdirPath rootfs initfs path ≠ .stop why ∧
    (entries initfs >>= FsEntries.collect) ≠ .stop why ∧ ∀ n, (entries initfs >>= FsEntries.nextTimes n) ≠ .stop why := by
  have hdirectory : Returns (isDirectory rootfs initfs path) fun _ => True :=
    (returns_rootfsFirst (fun image => returns_resolveDirInodeIn image path) rootfs initfs).attempt.bind fun _ _ => trivial
  refine ⟨?_, ?_, hdirectory.ne_stop why, ?_, ?_, fun n => ?_⟩
  · exact (returns_rootfsFirst (fun image => returns_readPathIn image path) rootfs initfs).ne_stop why
  · exact (returns_rootfsFirst (fun image => returns_fileMetadataIn image path) rootfs initfs).ne_stop why
  · exact (returns_rootfsFirst (fun image => returns_readdirPathIn image path) rootfs initfs).ne_stop why
  · exact ((returns_entries initfs).bind fun e _ => returns_collect e).ne_stop why
  · exact ((returns_entries initfs).bind fun e _ => returns_nextTimes n e).ne_stop why

end SwiftCore.Init
