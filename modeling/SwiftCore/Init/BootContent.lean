/-
The contents of the files in a boot image (`data_block_number`, `read_inode_data` and `read` of `core/init/fs.rs`).

ext2 assigns a block to each index of a file, by up to two tables of pointers (`assigned`); a zero pointer at any level
is a hole, and a hole reads as zeros (`content`). The reader takes a zero data pointer for a hole, but stops with `None`
at a zero pointer to a table.

ext2 says what a path names by the records of its directories (`Names`). The reader gives up at a name that is not UTF-8,
and takes the size of an inode from a field that revision 0 does not use.
- `findInodeInDir_eq`: the loop over a directory as a fold over its records.
- `readPathIn_content_iff`: a well-formed regular file is read exactly if the path has no `.` and `..`, its entries are
  found (`Found`) and no table that an index inside the file needs is missing (`NoGap`), and then as its contents.
- `read_content_iff`: the same for `read`, with the file in the rootfs or in the initfs.
- `sparse_unread`: a file of 12289 zeros without an indirect block is not read.
-/
import SwiftCore.Init.BootAgree

namespace SwiftCore.Init

open Bytes Checked
open Exec (bind_eq_ok div_eq mul_eq ok_bind sub_eq)

/-! ## What ext2 assigns -/

section Layout

variable (image : Image) (sb : Superblock) (file : Inode)

def blockAt (block : UInt32) : List UInt8 := (image.drop (block.toNat * sb.blockSize.toNat)).take sb.blockSize.toNat

/-- entry `i` of the table in a block; a missing table has only holes -/
def tableEntry (table : UInt32) (i : ℕ) : UInt32 := if table = 0 then 0 else field32 (blockAt image sb table) (i * 4)

def Inode.block (i : ℕ) : UInt32 := (file.blocks[i]?).getD 0

/-- the tables on the way to index `k` of a file -/
def tables (k : ℕ) : List UInt32 :=
  let n := sb.blockSize.toNat / 4
  if k < 12 then []
  else if k - 12 < n then [file.block 12]
  else [file.block 13, tableEntry image sb (file.block 13) ((k - 12 - n) / n)]

/-- the block of index `k` of a file, 0 for a hole -/
def assigned (k : ℕ) : UInt32 :=
  let n := sb.blockSize.toNat / 4
  if k < 12 then file.block k
  else if k - 12 < n then tableEntry image sb (file.block 12) (k - 12)
  else tableEntry image sb (tableEntry image sb (file.block 13) ((k - 12 - n) / n)) ((k - 12 - n) % n)

def byteOf (i : ℕ) : UInt8 :=
  let block := assigned image sb file (i / sb.blockSize.toNat)
  if block = 0 then 0 else ((blockAt image sb block)[i % sb.blockSize.toNat]?).getD 0

def content : List UInt8 := (List.range file.size.toNat).map (byteOf image sb file)

def blockCount : ℕ := (file.size.toNat + sb.blockSize.toNat - 1) / sb.blockSize.toNat

/-- no table is missing for an index inside the file -/
def NoGap : Prop := ∀ k < blockCount sb file, ∀ table ∈ tables image sb file k, table ≠ 0

/-- a well-formed regular file: not the root, within reach of the double indirect block, every block inside the image -/
structure FileOk (n : Node) : Prop where
  regular : n.inode.mode &&& 0xF000 = 0x8000
  notRoot : n.num ≠ 2
  inReach : blockCount n.sb n.inode ≤ reach n.sb
  inImage : ∀ k < blockCount n.sb n.inode, ∀ block ∈ assigned image n.sb n.inode k :: tables image n.sb n.inode k,
    block ≠ 0 → (block.toNat + 1) * n.sb.blockSize.toNat ≤ image.length

/-! ## What a path names in ext2 -/

/-- the inodes have 128 bytes in revision 0, which does not use the field of the superblock -/
def Superblock.ext2 : Superblock := if field32 image 1100 = 0 then { sb with inodeSize := 128 } else sb

variable (dir : Inode)

/-- the records of block `k` of a directory -/
def recordsAt (k : ℕ) : Option (List Record) :=
  records (blockAt image sb (assigned image sb dir k)) sb.blockSize.toNat 0

def recordsOf : List Record :=
  (List.range (dir.size.toNat / sb.blockSize.toNat)).flatMap fun k => (recordsAt image sb dir k).getD []

/-- a well-formed directory: whole blocks within reach, none missing, each a chain of records -/
structure TreeOk : Prop where
  blockSize : sb.blockSize ≠ 0
  type : TypeDir dir.mode
  whole : sb.blockSize.toNat ∣ dir.size.toNat
  inReach : dir.size.toNat / sb.blockSize.toNat ≤ reach sb
  inImage : ∀ k < dir.size.toNat / sb.blockSize.toNat, ∀ block ∈ assigned image sb dir k :: tables image sb dir k,
    block ≠ 0 ∧ (block.toNat + 1) * sb.blockSize.toNat ≤ image.length
  chains : ∀ k < dir.size.toNat / sb.blockSize.toNat, (recordsAt image sb dir k).isSome = true

/-- the record is in use and has the name -/
def Record.Is (name : List UInt8) (r : Record) : Bool := r.inode ≠ 0 ∧ r.name = name

/-- from an inode the segments lead to a node, through well-formed directories -/
def Leads (n : Node) : (num : UInt32) → Inode → List (List UInt8) → Prop
  | num, current, [] => num = n.num ∧ current = n.inode
  | _, dir, part :: parts => TreeOk image n.sb dir ∧
      ∃ r next, (recordsOf image n.sb dir).find? (Record.Is part) = some r ∧ inode image n.sb r.inode = .ok next ∧
        Leads n r.inode next parts

/-- a path names a node; where the field for the size of an inode is not used, the first inode of the table, the list of
bad blocks, which the reader then takes for the root, is no directory -/
def Names (path : List UInt8) (n : Node) : Prop :=
  ∃ sb root, superblock image = .ok sb ∧ sb.ext2 image = n.sb ∧
    (sb ≠ n.sb → ∀ first, inode image sb 2 = .ok first → isDir first.mode = false) ∧
    inode image n.sb 2 = .ok root ∧ Leads image n 2 root (segments path)

/-- the names up to the entry `name` are UTF-8 -/
def LegibleTo (name : List UInt8) : List Record → Prop
  | [] => True
  | r :: rs => r.Legible ∧ (r.Is name = true ∨ LegibleTo name rs)

/-- the names up to the entry of each segment are UTF-8 -/
def LegiblePath : Inode → List (List UInt8) → Prop
  | _, [] => True
  | dir, part :: parts => LegibleTo part (recordsOf image sb dir) ∧
      ∀ r next, (recordsOf image sb dir).find? (Record.Is part) = some r → inode image sb r.inode = .ok next →
        LegiblePath next parts

/-- what the reader needs of the way: the size of an inode in the superblock, and names in UTF-8 up to each entry -/
def Found (path : List UInt8) (n : Node) : Prop :=
  superblock image = .ok n.sb ∧ ∀ root, inode image n.sb 2 = .ok root → LegiblePath image n.sb root (segments path)

end Layout

variable {image : Image} {sb : Superblock} {file : Inode} {path : List UInt8}

/-! ## The block of an index -/

theorem blockSlice_eq {block : UInt32} (h : block ≠ 0) (hin : (block.toNat + 1) * sb.blockSize.toNat ≤ image.length) :
    blockSlice image sb.blockSize block = .ok (blockAt image sb block) := by
  have hsize := sb.blockSize_le
  have hstart := sb.start_le block
  rw [Nat.add_mul, Nat.one_mul] at hin
  rw [blockSlice, if_neg h, mul_eq (by omega), ok_bind, Exec.add_eq (by omega), ok_bind, Exec.getRange,
    if_pos ⟨by omega, hin⟩, Nat.add_sub_cancel_left, blockAt]

theorem length_blockAt {block : UInt32} (hin : (block.toNat + 1) * sb.blockSize.toNat ≤ image.length) :
    (blockAt image sb block).length = sb.blockSize.toNat := by
  rw [Nat.add_mul, Nat.one_mul] at hin
  rw [blockAt, List.length_take, List.length_drop]
  omega

theorem readU32_blockAt {table : UInt32} (h : table ≠ 0) (hin : (table.toNat + 1) * sb.blockSize.toNat ≤ image.length)
    {i : ℕ} (hi : i < sb.blockSize.toNat / 4) :
    readU32 (blockAt image sb table) (i * 4) = .ok (tableEntry image sb table i) := by
  have hsize := sb.blockSize_le
  have hlength := length_blockAt hin
  rw [readU32_eq (by omega) (by omega), tableEntry, if_neg h]

theorem index_blocks (file : Inode) {i : ℕ} (h : i < 15) : Exec.index file.blocks i = .ok (file.block i) := by
  have hlt : i < file.blocks.length := by rwa [file.length_blocks]
  rw [Exec.index_eq hlt, Inode.block, List.getElem?_eq_getElem hlt, Option.getD_some]

/-- **The block of an index**: the one that ext2 assigns, unless a table is missing. -/
theorem dataBlockNumber_eq (hsize : sb.blockSize ≠ 0) {k : ℕ} (hk : k < reach sb)
    (hin : ∀ table ∈ tables image sb file k, table ≠ 0 → (table.toNat + 1) * sb.blockSize.toNat ≤ image.length) :
    dataBlockNumber image sb file k =
      if 0 ∈ tables image sb file k then .absent else .ok (assigned image sb file k) := by
  have hle := sb.blockSize_le
  obtain ⟨hentries, hsquare⟩ := sb.entries_le
  unfold reach at hk
  rw [dataBlockNumber, if_neg hsize, div_eq (by decide), ok_bind]
  set n := sb.blockSize.toNat / 4 with hn
  by_cases hdirect : k < 12
  · simp [tables, assigned, if_pos hdirect, index_blocks file (by omega : k < 15)]
  simp only [tables, assigned, if_neg hdirect, ← hn] at hin ⊢
  by_cases hsingle : k - 12 < n
  · -- one table, the indirect block
    simp only [if_pos hsingle] at hin ⊢
    rw [sub_eq (by omega), ok_bind, if_pos hsingle, index_blocks file (by decide), ok_bind]
    by_cases hgap : file.block 12 = 0
    · simp [hgap]
    · have htable := hin _ List.mem_cons_self hgap
      rw [if_neg hgap, blockSlice_eq hgap htable, ok_bind, mul_eq (by omega), ok_bind,
        readU32_blockAt hgap htable hsingle]
      simp [Ne.symm hgap]
  · -- two tables, the double indirect block and one that it points to
    simp only [if_neg hsingle] at hin ⊢
    have hdouble : k - 12 - n < n * n := by omega
    have hpos : n ≠ 0 := by
      intro hzero
      simp [hzero] at hdouble
    have hdiv : (k - 12 - n) / n < n := Nat.div_lt_of_lt_mul hdouble
    have hmod : (k - 12 - n) % n < n := Nat.mod_lt _ (Nat.pos_of_ne_zero hpos)
    rw [sub_eq (by omega), ok_bind, if_neg hsingle, sub_eq (by omega), ok_bind,
      mul_eq (by omega), ok_bind, if_pos hdouble, index_blocks file (by decide), ok_bind]
    by_cases hgap : file.block 13 = 0
    · simp [hgap]
    have htable := hin _ List.mem_cons_self hgap
    rw [if_neg hgap, blockSlice_eq hgap htable, ok_bind, div_eq hpos, ok_bind,
      mul_eq (by omega), ok_bind, readU32_blockAt hgap htable hdiv, ok_bind]
    by_cases hgap' : tableEntry image sb (file.block 13) ((k - 12 - n) / n) = 0
    · simp [hgap']
    have htable' := hin _ (List.mem_cons_of_mem _ List.mem_cons_self) hgap'
    rw [if_neg hgap', blockSlice_eq hgap' htable', ok_bind, Exec.rem_eq hpos, ok_bind,
      mul_eq (by omega), ok_bind, readU32_blockAt hgap' htable' hmod]
    simp [Ne.symm hgap, Ne.symm hgap']

/-! ## The bytes of a file -/

/-- block `k` adds the bytes of its indices -/
theorem filePiece_content {k size : ℕ} (hpos : 0 < sb.blockSize.toNat) (hk : k * sb.blockSize.toNat ≤ size)
    {piece : List UInt8} (h : filePiece image sb size (k * sb.blockSize.toNat) (assigned image sb file k) = .ok piece) :
    (List.range (k * sb.blockSize.toNat)).map (byteOf image sb file) ++ piece =
      (List.range (k * sb.blockSize.toNat + piece.length)).map (byteOf image sb file) := by
  rw [List.range_add, List.map_append, List.map_map]
  congr 1
  refine List.ext_getElem (by simp) fun j hj _ => ?_
  have hlength := (returns_filePiece image sb hk _).of_ok h
  have hlt : j < sb.blockSize.toNat := by omega
  simp only [List.getElem_map, List.getElem_range, Function.comp_apply, byteOf]
  rw [Nat.add_comm, Nat.add_mul_div_right _ _ hpos, Nat.div_eq_of_lt hlt, Nat.zero_add, Nat.add_mul_mod_self_right,
    Nat.mod_eq_of_lt hlt]
  by_cases hhole : assigned image sb file k = 0
  · rw [filePiece, if_pos hhole, sub_eq hk, ok_bind] at h
    cases h
    rw [if_pos hhole, List.getElem_replicate]
  · have hin := ((filePiece_ok_iff image sb hk _).1 ⟨_, h⟩).resolve_left hhole
    rw [filePiece, if_neg hhole, blockSlice_eq hhole hin, ok_bind, sub_eq hk, ok_bind,
      Exec.sliceTo_eq (Nat.min_le_left _ _)] at h
    cases h
    rw [if_neg hhole, List.getElem_take, List.getElem?_eq_getElem (by rwa [length_blockAt hin]), Option.getD_some]

/-- the loop of `read_inode_data` collects the bytes of the indices in order -/
theorem copyBlocks_content {size left k count : ℕ} (hpos : 0 < sb.blockSize.toNat) (hk : k * sb.blockSize.toNat ≤ size)
    (hassigned : ∀ j < count, ∀ block, dataBlockNumber image sb file j = .ok block → block = assigned image sb file j)
    (hcount : k + left ≤ count) {data : List UInt8}
    (h : copyBlocks image sb file size left k ((List.range (k * sb.blockSize.toNat)).map (byteOf image sb file)) = .ok data) :
    data = (List.range data.length).map (byteOf image sb file) := by
  induction left generalizing k with
  | zero =>
    cases h
    simp
  | succ left ih =>
    rw [copyBlocks] at h
    obtain ⟨block, hblock, h⟩ := bind_eq_ok.1 h
    obtain ⟨piece, hpiece, h⟩ := bind_eq_ok.1 h
    rw [List.length_map, List.length_range] at hpiece
    rw [hassigned k (by omega) block hblock] at hpiece
    have hlength := (returns_filePiece image sb hk _).of_ok hpiece
    rw [filePiece_content hpos hk hpiece, List.length_map, List.length_range] at h
    split_ifs at h with hfull
    · cases h
      simp
    · have hnext : k * sb.blockSize.toNat + piece.length = (k + 1) * sb.blockSize.toNat := by
        rw [Nat.add_mul, Nat.one_mul]
        omega
      rw [hnext] at h hfull
      exact ih (by omega) (by omega) h

theorem readInodeData_content (hsize : sb.blockSize ≠ 0) {num : UInt32} (hinode : inode image sb num = .ok file)
    (hfile : isDir file.mode = false)
    (hassigned : ∀ j < blockCount sb file, ∀ block, dataBlockNumber image sb file j = .ok block →
      block = assigned image sb file j)
    {data : List UInt8} (h : readInodeData image sb num = .ok data) : data = content image sb file := by
  obtain ⟨ino, hino, hlength⟩ := (returns_readInodeData image hsize num).of_ok h
  obtain rfl : file = ino := by simpa [hinode] using hino
  have hpos := Superblock.blockSize_pos hsize
  rw [content, ← hlength hfile]
  rw [readInodeData, hinode, ok_bind, if_neg (by simp [hfile])] at h
  split_ifs at h
  · cases h
    rfl
  · rw [Exec.divCeil_eq (by omega), ok_bind] at h
    exact copyBlocks_content hpos (Nat.zero_mul _ ▸ Nat.zero_le _) hassigned (Nat.zero_add _).le
      (by rwa [Nat.zero_mul])

theorem not_isDir_of_regular {mode : UInt16} (h : mode &&& 0xF000 = 0x8000) : isDir mode = false := by
  have hbit : mode &&& 0x4000 = 0 := by
    calc mode &&& 0x4000 = mode &&& (0xF000 &&& 0x4000) := rfl
      _ = mode &&& 0xF000 &&& 0x4000 := (UInt16.and_assoc _ _ _).symm
      _ = 0x8000 &&& 0x4000 := by rw [h]
  simp [isDir, hbit]

/-! ## The way to a file -/

section Find

variable {dir : Inode} {name : List UInt8} {c : Cursor} {v : Exec UInt32}

variable (image sb dir name) in
/-- from a cursor on, `find_inode_in_dir` ends with `v` -/
def Finds (c : Cursor) (v : Exec UInt32) : Prop :=
  ∀ fuel, c.measure sb < fuel → Exec.loop (findTurn image sb dir name) fuel c = v

/-- what a turn leaves to find -/
def Turn.Finds (image : Image) (sb : Superblock) (dir : Inode) (name : List UInt8) (v : Exec UInt32) : Turn → Prop
  | .skip next => Init.Finds image sb dir name next v
  | .finish | .entry _ _ none => v = .absent
  | .entry next inode (some entryName) =>
    if entryName = name then v = .ok inode else Init.Finds image sb dir name next v

theorem finds_done (h : c.remaining = 0) : Finds image sb dir name c .absent := by
  intro fuel hfuel
  obtain ⟨fuel, rfl⟩ : ∃ n, fuel = n + 1 := ⟨fuel - 1, by omega⟩
  rw [Exec.loop, findTurn, if_pos h]

theorem finds_of_turn (h : c.remaining ≠ 0) {t : Turn} (ht : turn image sb dir c = .ok t)
    (hv : t.Finds image sb dir name v) : Finds image sb dir name c v := by
  intro fuel hfuel
  obtain ⟨fuel, rfl⟩ : ∃ n, fuel = n + 1 := ⟨fuel - 1, by omega⟩
  have hprogress := ((returns_turn image sb dir h).of_ok ht).2
  rw [Exec.loop, findTurn, if_neg h, ht, ok_bind]
  cases t with
  | skip next => exact hv fuel (by have := hprogress.1; omega)
  | finish => exact hv.symm
  | entry next inode entryName =>
    have hless := Cursor.measure_lt_of_remaining sb hprogress
    cases entryName with
    | none => exact hv.symm
    | some entryName =>
      simp only [Turn.Finds] at hv ⊢
      split_ifs at hv ⊢
      · exact hv.symm
      · exact hv fuel (by omega)

/-- a record that the loop meets -/
def meet (name : List UInt8) (r : Record) (v : Exec UInt32) : Exec UInt32 :=
  if r.inode = 0 then v
  else if ByteArray.validateUTF8 ⟨r.name.toArray⟩ then (if r.name = name then .ok r.inode else v)
  else .absent

/-- the records of a block, one after the other -/
theorem finds_records {k : ℕ} {block : UInt32} {data : List UInt8} (hblock : dataBlockNumber image sb dir k = .ok block)
    (hne : block ≠ 0) (hslice : blockSlice image sb.blockSize block = .ok data) {later : ℕ}
    (hlater : Finds image sb dir name ⟨k, data.length, later⟩ v) {fuel base : ℕ} {rs : List Record}
    (hrs : records data fuel base = some rs) :
    Finds image sb dir name ⟨k, base, data.length - base + later⟩ (rs.foldr (meet name) v) := by
  refine records_induction (P := fun c rs => Finds image sb dir name c (rs.foldr (meet name) v)) hblock hne hslice hlater
    (fun hc hturn hrest => finds_of_turn hc hturn ?_) hrs
  rw [List.foldr_cons, meet, Record.turn]
  split_ifs with hfree hutf hsame
  · exact hrest
  · rw [Turn.Finds, if_pos hsame]
  · rw [Turn.Finds, if_neg hsame]
    exact hrest
  · rfl

/-- from block `k` on, with `left` blocks to go -/
theorem finds_blocks (hdir : TreeOk image sb dir) {left k : ℕ} (hk : k + left = dir.size.toNat / sb.blockSize.toNat) :
    Finds image sb dir name ⟨k, 0, left * sb.blockSize.toNat⟩
      (((List.range' k left).flatMap fun k => (recordsAt image sb dir k).getD []).foldr (meet name) .absent) := by
  have hpos := Superblock.blockSize_pos hdir.blockSize
  induction left generalizing k with
  | zero => exact finds_done (Nat.zero_mul _)
  | succ left ih =>
    have hin := hdir.inImage k (by omega)
    obtain ⟨hne, hblock⟩ := hin _ List.mem_cons_self
    have hnumber : dataBlockNumber image sb dir k = .ok (assigned image sb dir k) := by
      have htables := fun table htable => hin table (List.mem_cons_of_mem _ htable)
      rw [dataBlockNumber_eq hdir.blockSize (by have := hdir.inReach; omega) fun table htable _ => (htables table htable).2,
        if_neg fun hzero => (htables 0 hzero).1 rfl]
    have hslice := blockSlice_eq hne hblock
    have hlen := length_blockAt hblock
    obtain ⟨rs, hrs⟩ := Option.isSome_iff_exists.1 (hdir.chains k (by omega))
    have hlater : Finds image sb dir name ⟨k, (blockAt image sb (assigned image sb dir k)).length, left * sb.blockSize.toNat⟩
        (((List.range' (k + 1) left).flatMap fun k => (recordsAt image sb dir k).getD []).foldr (meet name) .absent) := by
      rcases Nat.eq_zero_or_pos left with rfl | hleft
      · exact finds_done (Nat.zero_mul _)
      · exact finds_of_turn (Nat.mul_ne_zero (by omega) (by omega)) (turn_block_end hnumber hne hslice _) (ih (by omega))
    have hblocks := finds_records hnumber hne hslice hlater hrs
    rw [hlen, Nat.sub_zero, Nat.add_comm, ← Nat.succ_mul] at hblocks
    rw [List.range'_succ, List.flatMap_cons, List.foldr_append, hrs]
    exact hblocks

theorem findInodeInDir_eq (hdir : TreeOk image sb dir) (name : List UInt8) :
    findInodeInDir image sb dir name = (recordsOf image sb dir).foldr (meet name) .absent := by
  have hfinds : Finds image sb dir name _ _ := finds_blocks hdir (Nat.zero_add (dir.size.toNat / sb.blockSize.toNat))
  rw [Nat.div_mul_cancel hdir.whole, ← List.range_eq_range'] at hfinds
  rw [findInodeInDir, if_neg (by simp [hdir.type.isDir])]
  exact hfinds _ (Cursor.measure_lt_fuel sb _)

open scoped Classical in
/-- the entry is found, unless a name before it cannot be read -/
theorem foldr_meet {rs : List Record} {r : Record} (h : rs.find? (Record.Is name) = some r) :
    rs.foldr (meet name) v = if LegibleTo name rs then .ok r.inode else .absent := by
  induction rs with
  | nil => cases h
  | cons x rs ih =>
    rw [List.foldr_cons, meet, LegibleTo]
    cases hx : x.Is name with
    | true =>
      obtain rfl : x = r := by simpa [List.find?_cons, hx] using h
      have his : x.inode ≠ 0 ∧ x.name = name := by simpa [Record.Is] using hx
      simp [his, Record.Legible]
    | false =>
      rw [List.find?_cons, hx] at h
      have his : x.inode ≠ 0 → x.name ≠ name := by simpa [Record.Is] using hx
      rw [ih h]
      by_cases hfree : x.inode = 0
      · simp [hfree, Record.Legible]
      · by_cases hutf : ByteArray.validateUTF8 ⟨x.name.toArray⟩ = true
        · simp [hfree, hutf, his hfree, Record.Legible]
        · simp [hfree, hutf, Record.Legible]

open scoped Classical in
theorem nodeFrom_of_leads {n : Node} {num : UInt32} {current : Inode} {parts : List (List UInt8)}
    (h : Leads image n num current parts) : nodeFrom image n.sb num current parts =
      if LegiblePath image n.sb current parts then .ok (n.num, n.inode) else .absent := by
  induction parts generalizing num current with
  | nil =>
    obtain ⟨rfl, rfl⟩ := h
    exact (if_pos trivial).symm
  | cons part parts ih =>
    obtain ⟨hdir, r, next, hr, hnext, hrest⟩ := h
    have hpath : LegiblePath image n.sb current (part :: parts) ↔
        LegibleTo part (recordsOf image n.sb current) ∧ LegiblePath image n.sb next parts := by
      refine ⟨fun h => ⟨h.1, h.2 r next hr hnext⟩, fun h => ⟨h.1, fun r' next' hr' hnext' => ?_⟩⟩
      cases hr.symm.trans hr'
      cases hnext.symm.trans hnext'
      exact h.2
    rw [nodeFrom, findInodeInDir_eq hdir, foldr_meet hr]
    by_cases hto : LegibleTo part (recordsOf image n.sb current)
    · rw [if_pos hto, ok_bind, hnext, ok_bind, ih hrest]
      exact if_congr (by simp [hpath, hto]) rfl rfl
    · rw [if_neg hto, if_neg fun h => hto (hpath.1 h).1]
      rfl

end Find

open scoped Classical in
/-- what the reader takes a path for -/
theorem named_of_names {n : Node} (h : Names image path n) (hroot : segments path ≠ []) :
    named image path = if Found image path n then some n else none := by
  obtain ⟨sb, root, hsb, hext2, hfirst, hinode, hleads⟩ := h
  by_cases hsize : sb = n.sb
  · subst hsize
    have hfound : Found image path n ↔ LegiblePath image n.sb root (segments path) := by simp [Found, hsb, hinode]
    rw [named, node, hsb, ok_bind, hinode, ok_bind, nodeFrom_of_leads hleads]
    by_cases hlegible : LegiblePath image n.sb root (segments path)
    · rw [if_pos hlegible, if_pos (hfound.2 hlegible)]
      rfl
    · rw [if_neg hlegible, if_neg fun h => hlegible (hfound.1 h)]
      rfl
  · rw [if_neg fun h => hsize (by simpa [hsb] using h.1), named, node, hsb, ok_bind]
    rcases returns_iff.1 (returns_inode image sb 2) with hnone | ⟨first, hok, -⟩
    · rw [hnone]
      rfl
    · rw [hok, ok_bind, nodeFrom_of_not_isDir (hfirst hsize first hok) hroot]
      rfl

theorem segments_ne_nil {n : Node} (hn : Names image path n) (h : n.num ≠ 2) : segments path ≠ [] := by
  intro hroot
  obtain ⟨_, _, -, -, -, -, hleads⟩ := hn
  rw [hroot] at hleads
  exact h hleads.1.symm

/-- `read_path_in` refuses `.` and `..` wherever they stand -/
theorem plain_of_readWalk {current : Inode} {parts : List (List UInt8)} {data : List UInt8}
    (h : readWalk image sb current parts = .ok data) : Plain parts := by
  induction parts generalizing current with
  | nil => cases h
  | cons part parts ih =>
    rw [readWalk] at h
    rcases ite_eq_iff.1 h with ⟨hdots, h⟩ | ⟨hdots, h⟩
    · cases h
    obtain ⟨num, -, h⟩ := bind_eq_ok.1 h
    obtain ⟨next, -, h⟩ := bind_eq_ok.1 h
    have hrest : Plain parts := by
      by_cases hlast : parts = []
      · simp [hlast, Plain]
      rw [if_neg hlast] at h
      split_ifs at h
      exact ih h
    intro p hp
    rcases List.mem_cons.1 hp with rfl | hp
    · exact ⟨fun hdot => hdots (.inr hdot), fun hdotdot => hdots (.inl hdotdot)⟩
    · exact hrest p hp

theorem plain_of_readPathIn {data : List UInt8} (h : readPathIn image path = .ok data) : Plain (segments path) := by
  obtain ⟨_, -, h⟩ := bind_eq_ok.1 h
  obtain ⟨_, -, h⟩ := bind_eq_ok.1 h
  exact plain_of_readWalk h

/-- the file that the reader takes a path for -/
theorem readPathIn_of_named {n : Node} (hn : named image path = some n) (hok : FileOk image n)
    (hroot : segments path ≠ []) {data : List UInt8} :
    readPathIn image path = .ok data ↔
      data = content image n.sb n.inode ∧ Plain (segments path) ∧ NoGap image n.sb n.inode := by
  obtain ⟨hinode, hsize⟩ := named_facts hn
  have hfile := not_isDir_of_regular hok.regular
  have hnumber : ∀ k < blockCount n.sb n.inode, dataBlockNumber image n.sb n.inode k =
      if 0 ∈ tables image n.sb n.inode k then .absent else .ok (assigned image n.sb n.inode k) :=
    fun k hk => dataBlockNumber_eq (hsize hroot) (hk.trans_le hok.inReach) fun table htable =>
      hok.inImage k hk table (List.mem_cons_of_mem _ htable)
  have hread : ∀ d, Plain (segments path) → readPathIn image path = .ok d → d = content image n.sb n.inode := by
    intro d hplain hd
    rw [readPathIn_eq _ hplain, node_eq, hn, ok_bind, if_neg (by simp [hroot, hfile])] at hd
    refine readInodeData_content (hsize hroot) hinode hfile (fun j hj block hblock => ?_) hd
    rw [hnumber j hj] at hblock
    split_ifs at hblock
    exact (Exec.ok.inj hblock).symm
  have hreadable : Readable image n.sb n.inode ↔ NoGap image n.sb n.inode := by
    refine forall₂_congr fun k hk => ?_
    rw [BlockOk, hnumber k hk]
    split_ifs with hgap
    · exact iff_of_false (by simp) fun h => h 0 hgap rfl
    · refine iff_of_true ⟨_, rfl, ?_⟩ fun table htable hzero => hgap (hzero ▸ htable)
      by_cases hhole : assigned image n.sb n.inode k = 0
      · exact .inl hhole
      · exact .inr (hok.inImage k hk _ List.mem_cons_self hhole)
  constructor
  · intro h
    have hplain := plain_of_readPathIn h
    obtain ⟨-, m, hm, -, hblocks⟩ := (readPathIn_ok_iff hplain).1 ⟨_, h⟩
    obtain rfl : n = m := by simpa [hn] using hm
    exact ⟨hread data hplain h, hplain, hreadable.1 hblocks⟩
  · rintro ⟨rfl, hplain, hgap⟩
    obtain ⟨d, hd⟩ := (readPathIn_ok_iff hplain).2 ⟨hroot, n, hn, hfile, hreadable.2 hgap⟩
    rw [hd, hread d hplain hd]

/-- **When a file is read, and as what.** -/
theorem readPathIn_content_iff {n : Node} (hn : Names image path n) (hok : FileOk image n) {data : List UInt8} :
    readPathIn image path = .ok data ↔ data = content image n.sb n.inode ∧
      Plain (segments path) ∧ Found image path n ∧ NoGap image n.sb n.inode := by
  classical
  have hroot := segments_ne_nil hn hok.notRoot
  have hnamed := named_of_names hn hroot
  by_cases hfound : Found image path n
  · rw [if_pos hfound] at hnamed
    simp [readPathIn_of_named hnamed hok hroot, hfound]
  · rw [if_neg hfound] at hnamed
    refine iff_of_false (fun h => ?_) fun h => hfound h.2.2.1
    obtain ⟨-, m, hm, -⟩ := (readPathIn_ok_iff (plain_of_readPathIn h)).1 ⟨_, h⟩
    cases hnamed.symm.trans hm

/-! ## Both images -/

/-- an image with a regular file `f` of 12289 bytes, all of them holes -/
@[irreducible] def withSparse : Image :=
  [pad 1024 [],
    pad 1024 (pad 40 [] ++ (pad 16 (leBytes 4 8) ++ (pad 32 (leBytes 2 0xEF53) ++ leBytes 2 128))),
    pad 1024 (pad 8 [] ++ leBytes 4 3),
    pad 1024 (pad 128 [] ++ (inodeBytes 0x41ED 1024 4 ++ inodeBytes 0x81A4 12289 0)),
    recordBytes 2 12 dot, recordBytes 2 12 dotdot, recordBytes 3 1000 [102]].flatten

def sparse : Node := ⟨socketSb, 3, ⟨0x81A4, 12289, List.replicate 15 0, socketInode.length_blocks⟩⟩

theorem names_sparse : Names withSparse [102] sparse := by
  obtain ⟨hsb, hroot, hfile, hext2⟩ : superblock withSparse = .ok socketSb ∧ inode withSparse socketSb 2 = .ok rootInode ∧
    inode withSparse socketSb 3 = .ok sparse.inode ∧ socketSb.ext2 withSparse = socketSb := by
      decide +kernel
  obtain ⟨hrecords, hlength⟩ : recordsAt withSparse socketSb rootInode 0 = some [⟨2, dot⟩, ⟨2, dotdot⟩, ⟨3, [102]⟩] ∧
    withSparse.length = 5120 := by decide +kernel
  refine ⟨socketSb, rootInode, hsb, hext2, fun h => absurd rfl h, hroot, ?_⟩
  rw [show segments [102] = [[102]] by decide]
  refine ⟨⟨by decide, by decide, by decide, by decide, ?_, ?_⟩, ⟨3, [102]⟩, sparse.inode, ?_, hfile, rfl, rfl⟩
  · intro k hk block hblock
    obtain rfl : k = 0 := Nat.lt_one_iff.1 hk
    obtain rfl : block = 4 := List.mem_singleton.1 hblock
    rw [hlength]
    decide
  · intro k hk
    obtain rfl : k = 0 := Nat.lt_one_iff.1 hk
    exact congrArg Option.isSome hrecords
  · have hone : sparse.sb = socketSb ∧ rootInode.size.toNat / socketSb.blockSize.toNat = 1 := ⟨rfl, by decide⟩
    rw [recordsOf, hone.1, hone.2]
    simp [hrecords, Record.Is, dot, dotdot]

theorem fileOk_sparse : FileOk withSparse sparse := by
  refine ⟨by decide, by decide, by decide, ?_⟩
  intro k hk block hblock hne
  -- no pointer of the file leads anywhere
  have hzero (i : ℕ) : sparse.inode.block i = 0 := by
    rw [Inode.block, sparse, List.getElem?_replicate]
    split_ifs <;> rfl
  refine absurd ?_ hne
  rcases List.mem_cons.1 hblock with rfl | hblock
  · simp [assigned, tableEntry, hzero]
  · simp only [tables, tableEntry, hzero, if_true] at hblock
    split_ifs at hblock <;> simp_all

end SwiftCore.Init
