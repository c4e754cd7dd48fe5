/-
Paths and directories of a boot image.

`node` is what a path names: from the root, one entry after the other. On paths without `.` and `..` the three walkers of
`core/init/fs.rs` follow it and differ only in what they ask of the last node (`fileMetadataIn_eq`,
`resolveDirInodeIn_eq`, `readPathIn_eq`, `readdirPathIn_eq`).

A directory of an image is well formed if its blocks are chains of records (`DirOk`).
- `lists_iff_listable`: such a directory is listed exactly if its blocks are within reach of the double indirect block and
  the names of its entries are UTF-8.
- `copyBlocks_ok_iff`: a file is read exactly if each of its blocks is a hole or lies in the image.
-/
import SwiftCore.Init.BootTotal

namespace SwiftCore.Init

open Bytes Checked
open Exec (absent_bind add_eq bind_bind bind_eq_ok getRange loop mul_eq ok_bind sub_eq)

variable {image : Image} {sb : Superblock} {dir : Inode}

/-! ## What a path names -/

structure Node where
  sb : Superblock
  num : UInt32
  inode : Inode

def nodeFrom (image : Image) (sb : Superblock) (num : UInt32) (current : Inode) :
    List (List UInt8) → Exec (UInt32 × Inode)
  | [] => .ok (num, current)
  | part :: parts => do
    let nextNum ← findInodeInDir image sb current part
    let next ← inode image sb nextNum
    nodeFrom image sb nextNum next parts

def node (image : Image) (path : List UInt8) : Exec Node := do
  let sb ← superblock image
  let root ← inode image sb 2
  let last ← nodeFrom image sb 2 root (segments path)
  return ⟨sb, last.1, last.2⟩

/-- no `.` and no `..` -/
def Plain (parts : List (List UInt8)) : Prop := ∀ part ∈ parts, part ≠ dot ∧ part ≠ dotdot
  deriving Decidable

variable {num block : UInt32} {parts : List (List UInt8)} {path data : List UInt8} {k size : ℕ} {c : Cursor} {file : Inode}

theorem returns_nodeFrom (image : Image) (sb : Superblock) {current : Inode}
    (h : inode image sb num = .ok current) (parts : List (List UInt8)) :
    Returns (nodeFrom image sb num current parts) fun last =>
      inode image sb last.1 = .ok last.2 ∧ (parts ≠ [] → sb.blockSize ≠ 0) := by
  induction parts generalizing num current with
  | nil => exact ⟨h, fun hne => absurd rfl hne⟩
  | cons part parts ih =>
    unfold nodeFrom
    refine (returns_findInodeInDir image sb current part).bind fun nextNum hsize => ?_
    rcases returns_iff.1 (returns_inode image sb nextNum) with hnone | ⟨next, hnext, -⟩
    · rw [hnone]
      trivial
    · rw [hnext]
      exact (ih hnext).mono fun last hlast => ⟨hlast.1, fun _ => hsize⟩

theorem returns_node (image : Image) (path : List UInt8) :
    Returns (node image path) fun n =>
      superblock image = .ok n.sb ∧ inode image n.sb n.num = .ok n.inode ∧ (segments path ≠ [] → n.sb.blockSize ≠ 0) := by
  unfold node
  rcases returns_iff.1 (returns_superblock image) with hnone | ⟨sb, hsb, -⟩
  · rw [hnone]
    trivial
  rw [hsb, ok_bind]
  rcases returns_iff.1 (returns_inode image sb 2) with hnone | ⟨root, hroot, -⟩
  · rw [hnone]
    trivial
  rw [hroot, ok_bind]
  exact (returns_nodeFrom image sb hroot (segments path)).bind fun last hlast => ⟨rfl, hlast⟩

/-- nothing is found below a file -/
theorem nodeFrom_of_not_isDir {current : Inode} (h : isDir current.mode = false)
    (hparts : parts ≠ []) : nodeFrom image sb num current parts = .absent := by
  cases parts with
  | nil => exact absurd rfl hparts
  | cons part parts =>
    rw [nodeFrom, findInodeInDir, if_pos (by simp [h]), absent_bind]

/-! ## The walkers follow the node -/

theorem metadataWalk_eq (num : UInt32) (current : Inode) (hplain : Plain parts) (hparts : parts ≠ []) :
    metadataWalk image sb current parts =
      nodeFrom image sb num current parts >>= fun last => .ok (last.2.mode, last.2.size.toNat) := by
  induction parts generalizing num current with
  | nil => exact absurd rfl hparts
  | cons part parts ih =>
    obtain ⟨hdot, hdotdot⟩ := hplain part List.mem_cons_self
    rw [metadataWalk, nodeFrom, if_neg (by simp [hdot, hdotdot]), bind_bind]
    congr 1
    funext nextNum
    rw [bind_bind]
    congr 1
    funext next
    split_ifs with hlast
    · subst hlast
      rfl
    · exact ih nextNum next (fun p hp => hplain p (List.mem_cons_of_mem _ hp)) hlast

theorem resolveWalk_eq (num : UInt32) (current : Inode) (hplain : Plain parts) :
    resolveWalk image sb num current parts =
      nodeFrom image sb num current parts >>= fun last => if isDir last.2.mode then .ok last.1 else .absent := by
  induction parts generalizing num current with
  | nil => rfl
  | cons part parts ih =>
    obtain ⟨hdot, hdotdot⟩ := hplain part List.mem_cons_self
    rw [resolveWalk, if_neg hdot, if_neg hdotdot]
    by_cases hdir : isDir current.mode
    · rw [if_neg (by simp [hdir]), nodeFrom, bind_bind]
      congr 1
      funext nextNum
      rw [bind_bind]
      congr 1
      funext next
      exact ih nextNum next fun p hp => hplain p (List.mem_cons_of_mem _ hp)
    · rw [if_pos (by simp [hdir]), nodeFrom_of_not_isDir (by simpa using hdir) (by simp), absent_bind]

theorem readWalk_eq (num : UInt32) (current : Inode) (hplain : Plain parts) (hparts : parts ≠ []) :
    readWalk image sb current parts =
      nodeFrom image sb num current parts >>= fun last =>
        if isDir last.2.mode then .absent else readInodeData image sb last.1 := by
  induction parts generalizing num current with
  | nil => exact absurd rfl hparts
  | cons part parts ih =>
    obtain ⟨hdot, hdotdot⟩ := hplain part List.mem_cons_self
    rw [readWalk, nodeFrom, if_neg (by simp [hdot, hdotdot]), bind_bind]
    congr 1
    funext nextNum
    rw [bind_bind]
    congr 1
    funext next
    rcases eq_or_ne parts [] with hlast | hlast
    · subst hlast
      rfl
    · rw [if_neg hlast]
      by_cases hdir : isDir next.mode
      · rw [if_neg (by simp [hdir])]
        exact ih nextNum next (fun p hp => hplain p (List.mem_cons_of_mem _ hp)) hlast
      · rw [if_pos (by simp [hdir]), nodeFrom_of_not_isDir (by simpa using hdir) hlast, absent_bind]

theorem segments_trimSlashes (path : List UInt8) : segments (trimSlashes path) = segments path :=
  Split.filter_splitOn_trim slash path

/-- the test for the root of `file_metadata_in` and `resolve_dir_inode_in` -/
theorem root_iff (h : Plain (segments path)) :
    trimSlashes path = [] ∨ trimSlashes path = dot ↔ segments path = [] := by
  rw [trimSlashes, Split.trim_eq_nil_iff]
  refine ⟨fun hroot => hroot.elim id fun hdot => ?_, .inl⟩
  have hsegments : segments path = [dot] := by
    rw [← segments_trimSlashes, trimSlashes, hdot]
    decide
  exact absurd rfl (h dot (by simp [hsegments])).1

variable (image)

theorem fileMetadataIn_eq (h : Plain (segments path)) : fileMetadataIn image path =
      node image path >>= fun n => .ok (n.inode.mode, if segments path = [] then 0 else n.inode.size.toNat) := by
  rw [fileMetadataIn, node, bind_bind]
  congr 1
  funext sb
  simp only [root_iff h, segments_trimSlashes, bind_bind]
  split_ifs with hroot
  · rw [hroot]
    rfl
  · congr 1
    funext current
    exact metadataWalk_eq 2 current h hroot

theorem resolveDirInodeIn_eq (h : Plain (segments path)) : resolveDirInodeIn image path =
      node image path >>= fun n => if isDir n.inode.mode then .ok n.num else .absent := by
  rw [resolveDirInodeIn, node, bind_bind]
  congr 1
  funext sb
  simp only [root_iff h, segments_trimSlashes, bind_bind]
  split_ifs with hroot
  · rw [hroot]
    rfl
  · congr 1
    funext current
    exact resolveWalk_eq 2 current h

theorem readPathIn_eq (h : Plain (segments path)) : readPathIn image path = node image path >>= fun n =>
      if segments path = [] ∨ isDir n.inode.mode = true then .absent else readInodeData image n.sb n.num := by
  rw [readPathIn, node, bind_bind]
  congr 1
  funext sb
  rw [bind_bind]
  congr 1
  funext current
  rw [bind_bind]
  by_cases hroot : segments path = []
  · simp only [hroot, true_or, if_true]
    rfl
  · simp only [hroot, false_or]
    exact readWalk_eq 2 current h hroot

theorem readdirPathIn_eq (h : Plain (segments path)) : readdirPathIn image path = node image path >>= fun n =>
      if isDir n.inode.mode then readdirLoop image n.sb n.inode else .absent := by
  rw [readdirPathIn, resolveDirInodeIn_eq image h]
  rcases returns_iff.1 (returns_superblock image) with hnone | ⟨sb, hsb, -⟩
  · rw [node, hnone]
    rfl
  rcases returns_iff.1 (returns_node image path) with hnone | ⟨n, hn, hsb', hinode, -⟩
  · rw [hnone, hsb]
    rfl
  · obtain rfl : sb = n.sb := by simpa [hsb] using hsb'
    rw [hn, hsb, ok_bind, ok_bind, ok_bind]
    split_ifs
    · rw [ok_bind, hinode, ok_bind]
    · rfl

variable {image}

/-! ## Records of a directory -/

structure Record where
  inode : UInt32
  name : List UInt8
  deriving DecidableEq

def field16 (data : List UInt8) (offset : ℕ) : UInt16 := UInt16.ofNat (ofLe ((data.drop offset).take 2))

def field32 (data : List UInt8) (offset : ℕ) : UInt32 := UInt32.ofNat (ofLe ((data.drop offset).take 4))

/-- the length of the record at `base` -/
def recLen (data : List UInt8) (base : ℕ) : ℕ := (field16 data (base + 4)).toNat

/-- the length of the name of the record at `base` -/
def nameLen (data : List UInt8) (base : ℕ) : ℕ := ((data[base + 6]?).getD 0).toNat

/-- the records of a block from `base` on: each holds its name and the last ends with the block -/
def records (data : List UInt8) : (fuel base : ℕ) → Option (List Record)
  | 0, base => if base = data.length then some [] else none
  | fuel + 1, base =>
    if base = data.length then some []
    else if base + recLen data base ≤ data.length ∧ 8 + nameLen data base ≤ recLen data base then
      (records data fuel (base + recLen data base)).map
        (⟨field32 data base, (data.drop (base + 8)).take (nameLen data base)⟩ :: ·)
    else none

variable (image sb dir)

/-- the block with index `k` of a directory, as records -/
def blockRecords (k : ℕ) : Option (List Record) := do
  let block ← (dataBlockNumber image sb dir k).toOption
  let data ← (blockSlice image sb.blockSize block).toOption
  records data data.length 0

/-- blocks that the direct, the indirect and the double indirect entries reach -/
def reach : ℕ := 12 + sb.blockSize.toNat / 4 + sb.blockSize.toNat / 4 * (sb.blockSize.toNat / 4)

/-- a well-formed directory: whole blocks, each within reach a chain of records -/
structure DirOk : Prop where
  blockSize : sb.blockSize ≠ 0
  whole : sb.blockSize.toNat ∣ dir.size.toNat
  chains : ∀ k < dir.size.toNat / sb.blockSize.toNat, k < reach sb → (blockRecords image sb dir k).isSome = true

/-- a record in use has a name in UTF-8 -/
def Record.Legible (r : Record) : Prop := r.inode ≠ 0 → ByteArray.validateUTF8 ⟨r.name.toArray⟩ = true
  deriving Decidable

structure Listable : Prop where
  inReach : dir.size.toNat / sb.blockSize.toNat ≤ reach sb
  legible : ∀ k < dir.size.toNat / sb.blockSize.toNat, ∀ rs, blockRecords image sb dir k = some rs → ∀ r ∈ rs, r.Legible

variable {image sb dir}

theorem readU16_eq {offset : ℕ} (h : offset + 2 ≤ data.length) (hlen : data.length < 2 ^ 64) :
    readU16 data offset = .ok (field16 data offset) := by
  have htake : ((data.drop offset).take 2).length = 2 := by
    rw [List.length_take, List.length_drop]
    omega
  obtain ⟨b0, b1, hbytes⟩ := List.length_eq_two.1 htake
  rw [readU16, add_eq (by omega), ok_bind, getRange, if_pos ⟨by omega, h⟩, Nat.add_sub_cancel_left, field16,
    hbytes]
  rfl

theorem readU32_eq {offset : ℕ} (h : offset + 4 ≤ data.length) (hlen : data.length < 2 ^ 64) :
    readU32 data offset = .ok (field32 data offset) := by
  have htake : ((data.drop offset).take 4).length = 4 := by
    rw [List.length_take, List.length_drop]
    omega
  rw [readU32, add_eq (by omega), ok_bind, getRange, if_pos ⟨by omega, h⟩, Nat.add_sub_cancel_left, field32]
  generalize (data.drop offset).take 4 = bytes at htake
  match bytes, htake with
  | [b0, b1, b2, b3], _ => rfl

/-- the turn at a record -/
def Record.turn (r : Record) (next : Cursor) : Turn :=
  if r.inode = 0 then .skip next
  else .entry next r.inode (if ByteArray.validateUTF8 ⟨r.name.toArray⟩ then some r.name else none)

theorem turn_record {base remaining : ℕ} (hblock : dataBlockNumber image sb dir k = .ok block) (hne : block ≠ 0)
    (hslice : blockSlice image sb.blockSize block = .ok data) (hbase : base + recLen data base ≤ data.length)
    (hname : 8 + nameLen data base ≤ recLen data base) :
    turn image sb dir ⟨k, base, remaining⟩ =
      .ok (Record.turn ⟨field32 data base, (data.drop (base + 8)).take (nameLen data base)⟩
        ⟨k, base + recLen data base, remaining - recLen data base⟩) := by
  have hlen : data.length = sb.blockSize.toNat := (returns_blockSlice image sb block).of_ok hslice
  have hsize := sb.blockSize_le
  have hnameByte : data[base + 6]? = some data[base + 6] := List.getElem?_eq_getElem (by omega)
  have hnameLen : nameLen data base = (data[base + 6]).toNat := by rw [nameLen, hnameByte, Option.getD_some]
  have hrec : field16 data (base + 4) ≠ 0 := by
    intro h0
    have : recLen data base = 0 := by rw [recLen, h0]; rfl
    omega
  unfold turn
  simp only
  rw [hblock, ok_bind, if_neg hne, hslice, ok_bind, if_neg (by omega), readU32_eq (by omega) (by omega),
    ok_bind, add_eq (by omega), ok_bind, readU16_eq (by omega) (by omega), ok_bind,
    add_eq (by omega), ok_bind, Exec.getAt, hnameByte, ok_bind, if_neg hrec]
  rw [← hnameLen, ← recLen, add_eq (by omega), ok_bind, Record.turn]
  split_ifs with hzero hutf
  · rfl
  all_goals
    rw [add_eq (by omega), ok_bind, add_eq (by omega), ok_bind, getRange,
      if_pos ⟨by omega, by omega⟩, ok_bind, Nat.add_sub_cancel_left, fromUtf8]
  · rw [if_pos hutf]
    rfl
  · rw [if_neg hutf]
    rfl

/-- **Along the records of a block.** What holds at its end, and at a record if it holds after it, holds from the start. -/
theorem records_induction {P : Cursor → List Record → Prop} (hblock : dataBlockNumber image sb dir k = .ok block)
    (hne : block ≠ 0) (hslice : blockSlice image sb.blockSize block = .ok data) {later : ℕ}
    (hend : P ⟨k, data.length, later⟩ [])
    (hturn : ∀ {c next r rs}, c.remaining ≠ 0 → turn image sb dir c = .ok (Record.turn r next) → P next rs → P c (r :: rs))
    {fuel base : ℕ} {rs : List Record} (hrs : records data fuel base = some rs) :
    P ⟨k, base, data.length - base + later⟩ rs := by
  induction fuel generalizing base rs with
  | zero =>
    rw [records] at hrs
    split_ifs at hrs with hlast
    cases hrs
    simpa [hlast] using hend
  | succ fuel ih =>
    rw [records] at hrs
    split_ifs at hrs with hlast hfits
    · cases hrs
      simpa [hlast] using hend
    obtain ⟨hbase, hname⟩ := hfits
    obtain ⟨rest, hrest, rfl⟩ := Option.map_eq_some_iff.1 hrs
    have hnext : data.length - base + later - recLen data base = data.length - (base + recLen data base) + later := by omega
    refine hturn (by simp only; omega) (turn_record hblock hne hslice hbase hname) ?_
    rw [hnext]
    exact ih hrest

/-! ## Listing a directory -/

variable (image sb dir)

/-- from a cursor on, with any names collected, the loop of `readdir_path_in` lists the directory iff `p` -/
def Lists (c : Cursor) (p : Prop) : Prop :=
  ∀ names fuel, c.measure sb < fuel → ((∃ all, loop (readdirTurn image sb dir) fuel (c, names) = .ok all) ↔ p)

/-- what a turn leaves to list -/
def Turn.Lists (image : Image) (sb : Superblock) (dir : Inode) (p : Prop) : Turn → Prop
  | .skip next | .entry next _ (some _) => Init.Lists image sb dir next p
  | .finish => p
  | .entry _ _ none => ¬ p

variable {image sb dir} {p : Prop}

theorem Lists.congr {q : Prop} (h : Lists image sb dir c p) (hpq : p ↔ q) : Lists image sb dir c q :=
  fun names fuel hfuel => (h names fuel hfuel).trans hpq

theorem lists_done (h : c.remaining = 0) : Lists image sb dir c True := by
  intro names fuel hfuel
  obtain ⟨fuel, rfl⟩ : ∃ n, fuel = n + 1 := ⟨fuel - 1, by omega⟩
  simp [loop, readdirTurn, h]

theorem lists_of_turn (h : c.remaining ≠ 0) {t : Turn} (ht : turn image sb dir c = .ok t)
    (hp : t.Lists image sb dir p) : Lists image sb dir c p := by
  intro names fuel hfuel
  obtain ⟨fuel, rfl⟩ : ∃ n, fuel = n + 1 := ⟨fuel - 1, by omega⟩
  have hprogress := ((returns_turn image sb dir h).of_ok ht).2
  rw [loop, readdirTurn, if_neg h, ht, ok_bind]
  cases t with
  | skip next => exact hp names fuel (by have := hprogress.1; omega)
  | finish => exact iff_of_true ⟨names, rfl⟩ hp
  | entry next inode name =>
    have hless := Cursor.measure_lt_of_remaining sb hprogress
    cases name with
    | none => exact iff_of_false (by simp) hp
    | some name => exact hp _ fuel (by omega)

/-- the records of a block, one after the other -/
theorem lists_records (hblock : dataBlockNumber image sb dir k = .ok block)
    (hne : block ≠ 0) (hslice : blockSlice image sb.blockSize block = .ok data) {later : ℕ}
    (hlater : Lists image sb dir ⟨k, data.length, later⟩ p)
    {fuel base : ℕ} {rs : List Record} (hrs : records data fuel base = some rs) :
    Lists image sb dir ⟨k, base, data.length - base + later⟩ ((∀ r ∈ rs, r.Legible) ∧ p) := by
  refine records_induction (P := fun c rs => Lists image sb dir c ((∀ r ∈ rs, r.Legible) ∧ p)) hblock hne hslice
    (hlater.congr (by simp)) (fun hc hturn hrest => lists_of_turn hc hturn ?_) hrs
  rw [List.forall_mem_cons, Record.turn]
  split_ifs with hfree hutf
  · simpa [Turn.Lists, Record.Legible, hfree] using hrest
  · simpa [Turn.Lists, Record.Legible, hfree, hutf] using hrest
  · simp [Turn.Lists, Record.Legible, hfree, hutf]

/-- at the end of a block the next one follows -/
theorem turn_block_end (hblock : dataBlockNumber image sb dir k = .ok block)
    (hne : block ≠ 0) (hslice : blockSlice image sb.blockSize block = .ok data) (later : ℕ) :
    turn image sb dir ⟨k, data.length, later⟩ = .ok (.skip ⟨k + 1, 0, later⟩) := by
  have hk := ((returns_dataBlockNumber image sb dir k).of_ok hblock).2
  unfold turn
  simp only
  rw [hblock, ok_bind, if_neg hne, hslice, ok_bind, if_pos le_rfl, add_eq (by omega)]
  rfl

theorem dataBlockNumber_beyond (image : Image) (inode : Inode) (h : reach sb ≤ k) :
    dataBlockNumber image sb inode k = .absent := by
  unfold reach at h
  have hsize := sb.blockSize_le
  obtain ⟨hentries, hsquare⟩ := sb.entries_le
  rw [dataBlockNumber]
  split_ifs with hzero hdirect
  · rfl
  · omega
  · rw [Exec.div_eq (by decide), ok_bind, sub_eq (by omega), ok_bind, if_neg (by omega),
      sub_eq (by omega), ok_bind, mul_eq (by omega), ok_bind, if_neg (by omega)]

theorem blockRecords_eq_some {rs : List Record} (h : blockRecords image sb dir k = some rs) :
    ∃ block data, dataBlockNumber image sb dir k = .ok block ∧ block ≠ 0 ∧
      blockSlice image sb.blockSize block = .ok data ∧ records data data.length 0 = some rs := by
  obtain ⟨block, hblock, h⟩ := Option.bind_eq_some_iff.1 h
  obtain ⟨data, hdata, hrs⟩ := Option.bind_eq_some_iff.1 h
  rw [Exec.toOption_eq_some] at hblock hdata
  refine ⟨block, data, hblock, ?_, hdata, hrs⟩
  rintro rfl
  simp [blockSlice] at hdata

/-- from block `k` on, with `left` blocks to go -/
theorem lists_blocks (hdir : DirOk image sb dir) {left : ℕ} (hk : k + left = dir.size.toNat / sb.blockSize.toNat) :
    Lists image sb dir ⟨k, 0, left * sb.blockSize.toNat⟩ ((left = 0 ∨ k + left ≤ reach sb) ∧
      ∀ j, k ≤ j → j < k + left → ∀ rs, blockRecords image sb dir j = some rs → ∀ r ∈ rs, r.Legible) := by
  have hsize : sb.blockSize.toNat ≠ 0 := fun h0 => hdir.blockSize (UInt32.toNat_inj.1 h0)
  have hdone : ∀ k base, Lists image sb dir ⟨k, base, 0 * sb.blockSize.toNat⟩ True := fun k base =>
    lists_done (Nat.zero_mul _)
  induction left generalizing k with
  | zero => exact (hdone k 0).congr (iff_of_true trivial ⟨.inl rfl, fun j hlo hhi => by omega⟩)
  | succ left ih =>
    have hpos : (left + 1) * sb.blockSize.toNat ≠ 0 := Nat.mul_ne_zero (by omega) hsize
    by_cases hreach : k < reach sb
    · obtain ⟨rs, hrs⟩ := Option.isSome_iff_exists.1 (hdir.chains k (by omega) hreach)
      obtain ⟨block, data, hblock, hne, hslice, hrecords⟩ := blockRecords_eq_some hrs
      have hlen : data.length = sb.blockSize.toNat := (returns_blockSlice image sb block).of_ok hslice
      have hbytes : (left + 1) * sb.blockSize.toNat = data.length - 0 + left * sb.blockSize.toNat := by
        rw [hlen, Nat.add_mul, Nat.one_mul]
        omega
      have hlater : ∀ p, Lists image sb dir ⟨k + 1, 0, left * sb.blockSize.toNat⟩ p → (left = 0 → p) →
          Lists image sb dir ⟨k, data.length, left * sb.blockSize.toNat⟩ p := by
        intro p hp hzero
        rcases Nat.eq_zero_or_pos left with rfl | hleft
        · exact (hdone k data.length).congr (iff_of_true trivial (hzero rfl))
        · exact lists_of_turn (Nat.mul_ne_zero (by omega) hsize) (turn_block_end hblock hne hslice _) hp
      have hrest := hlater _ (ih (k := k + 1) (by omega)) fun hzero => ⟨.inl hzero, fun j hlo hhi => by omega⟩
      rw [hbytes]
      refine (lists_records hblock hne hslice hrest hrecords).congr ⟨?_, ?_⟩
      · rintro ⟨hfirst, hin, hlater⟩
        refine ⟨.inr (by omega), fun j hlo hhi rs' hrs' => ?_⟩
        rcases Nat.eq_or_lt_of_le hlo with rfl | hlt
        · obtain rfl : rs = rs' := by simpa [hrs] using hrs'
          exact hfirst
        · exact hlater j hlt (by omega) rs' hrs'
      · rintro ⟨hin, hall⟩
        exact ⟨hall k le_rfl (by omega) rs hrs, .inr (by omega), fun j hlo hhi => hall j (by omega) (by omega)⟩
    · intro names fuel hfuel
      obtain ⟨fuel, rfl⟩ : ∃ n, fuel = n + 1 := ⟨fuel - 1, by omega⟩
      refine iff_of_false ?_ fun h => by omega
      simp [loop, readdirTurn, hpos, turn, dataBlockNumber_beyond image dir (Nat.le_of_not_lt hreach)]

/-- **Which directories are listed.** -/
theorem lists_iff_listable (hdir : DirOk image sb dir) :
    (∃ names, readdirLoop image sb dir = .ok names) ↔ Listable image sb dir := by
  have hblocks := lists_blocks hdir (k := 0) (Nat.zero_add (dir.size.toNat / sb.blockSize.toNat))
  rw [Nat.div_mul_cancel hdir.whole] at hblocks
  refine (hblocks [] _ (Cursor.measure_lt_fuel sb _)).trans
    ⟨fun h => ⟨?_, fun k hk => ?_⟩, fun h => ⟨.inr ?_, fun k _ hk => ?_⟩⟩
  · rcases h.1 with hzero | hin
    · omega
    · simpa using hin
  · exact h.2 k (Nat.zero_le k) (by simpa using hk)
  · simpa using h.inReach
  · exact h.legible k (by simpa using hk)

/-! ## Reading a file -/

variable (image sb file)

/-- a hole, or a block in the image -/
def BlockOk (k : ℕ) : Prop :=
  ∃ block, dataBlockNumber image sb file k = .ok block ∧
    (block = 0 ∨ (block.toNat + 1) * sb.blockSize.toNat ≤ image.length)

def Readable : Prop :=
  ∀ k < (file.size.toNat + sb.blockSize.toNat - 1) / sb.blockSize.toNat, BlockOk image sb file k

theorem blockSlice_ok_iff (h : block ≠ 0) :
    (∃ data, blockSlice image sb.blockSize block = .ok data) ↔ (block.toNat + 1) * sb.blockSize.toNat ≤ image.length := by
  have hsize := sb.blockSize_le
  have hstart := sb.start_le block
  rw [blockSlice, if_neg h, mul_eq (by omega), ok_bind, add_eq (by omega), ok_bind, getRange,
    Nat.add_mul, Nat.one_mul]
  split_ifs with hin
  · exact iff_of_true ⟨_, rfl⟩ hin.2
  · refine iff_of_false (by simp) fun hle => hin ⟨by omega, hle⟩

theorem filePiece_ok_iff {done : ℕ} (h : done ≤ size) (block : UInt32) :
    (∃ piece, filePiece image sb size done block = .ok piece) ↔
      block = 0 ∨ (block.toNat + 1) * sb.blockSize.toNat ≤ image.length := by
  by_cases hhole : block = 0
  · refine iff_of_true ?_ (.inl hhole)
    rw [filePiece, if_pos hhole, sub_eq h]
    exact ⟨_, rfl⟩
  · rw [filePiece, if_neg hhole, sub_eq h, ← blockSlice_ok_iff image sb hhole]
    constructor
    · rintro ⟨piece, hpiece⟩
      obtain ⟨data, hdata, -⟩ := bind_eq_ok.1 hpiece
      exact .inr ⟨data, hdata⟩
    · rintro (hzero | ⟨data, hdata⟩)
      · exact absurd hzero hhole
      · rw [hdata, ok_bind, ok_bind, Exec.sliceTo_eq (Nat.min_le_left _ _)]
        exact ⟨_, rfl⟩

variable {image sb file}

theorem BlockOk.piece (h : BlockOk image sb file k) {done : ℕ} (hdone : done ≤ size) :
    ∃ block piece, dataBlockNumber image sb file k = .ok block ∧ filePiece image sb size done block = .ok piece ∧
      piece.length = min sb.blockSize.toNat (size - done) := by
  obtain ⟨block, hblock, hin⟩ := h
  obtain ⟨piece, hpiece⟩ := (filePiece_ok_iff image sb hdone block).2 hin
  exact ⟨block, piece, hblock, hpiece, (returns_filePiece image sb hdone block).of_ok hpiece⟩

theorem blockOk_of_copyBlocks {left blockIdx : ℕ} {buf : List UInt8} (hbuf : buf.length ≤ size)
    (h : copyBlocks image sb file size (left + 1) blockIdx buf = .ok data) : BlockOk image sb file blockIdx := by
  rw [copyBlocks] at h
  obtain ⟨block, hblock, h⟩ := bind_eq_ok.1 h
  obtain ⟨piece, hpiece, -⟩ := bind_eq_ok.1 h
  exact ⟨block, hblock, (filePiece_ok_iff image sb hbuf block).1 ⟨piece, hpiece⟩⟩

/-- the loop of `read_inode_data` needs the blocks to go, and no others -/
theorem copyBlocks_ok_iff (image : Image) (sb : Superblock) (file : Inode) (size left blockIdx : ℕ) (buf : List UInt8)
    (hlo : buf.length + left * sb.blockSize.toNat < size) (hhi : size ≤ buf.length + (left + 1) * sb.blockSize.toNat) :
    (∃ data, copyBlocks image sb file size (left + 1) blockIdx buf = .ok data) ↔
      ∀ k, blockIdx ≤ k → k < blockIdx + (left + 1) → BlockOk image sb file k := by
  induction left generalizing blockIdx buf with
  | zero =>
    rw [Nat.zero_mul] at hlo
    rw [Nat.zero_add, Nat.one_mul] at hhi
    by_cases hok : BlockOk image sb file blockIdx
    · refine iff_of_true ?_ fun k hk hk' => ?_
      · obtain ⟨block, piece, hblock, hpiece, hlen⟩ := hok.piece (by omega : buf.length ≤ size)
        have hfull : size ≤ (buf ++ piece).length := by
          rw [List.length_append, hlen]
          omega
        rw [copyBlocks, hblock, ok_bind, hpiece, ok_bind, if_pos hfull]
        exact ⟨_, rfl⟩
      · obtain rfl : k = blockIdx := by omega
        exact hok
    · refine iff_of_false ?_ fun hall => hok (hall blockIdx le_rfl (by omega))
      rintro ⟨data, hdata⟩
      exact hok (blockOk_of_copyBlocks (by omega) hdata)
  | succ left ih =>
    rw [Nat.add_mul, Nat.one_mul] at hlo
    by_cases hok : BlockOk image sb file blockIdx
    · obtain ⟨block, piece, hblock, hpiece, hlen⟩ := hok.piece (by omega : buf.length ≤ size)
      have happend : (buf ++ piece).length = buf.length + sb.blockSize.toNat := by
        rw [List.length_append, hlen]
        omega
      have hpart : ¬ size ≤ (buf ++ piece).length := by
        rw [happend]
        omega
      rw [copyBlocks, hblock, ok_bind, hpiece, ok_bind, if_neg hpart]
      rw [Nat.add_mul _ 1, Nat.one_mul] at hhi
      rw [ih _ _ (by omega) (by omega)]
      refine ⟨fun hall k hk hk' => ?_, fun hall k hk hk' => hall k (by omega) (by omega)⟩
      rcases Nat.eq_or_lt_of_le hk with rfl | hlt
      · exact hok
      · exact hall k hlt (by omega)
    · refine iff_of_false ?_ fun hall => hok (hall blockIdx le_rfl (by omega))
      rintro ⟨data, hdata⟩
      exact hok (blockOk_of_copyBlocks (by omega) hdata)

/-- **Which files are read.** -/
theorem readInodeData_ok_iff (hsize : sb.blockSize ≠ 0)
    (hinode : inode image sb num = .ok file) (hfile : isDir file.mode = false) :
    (∃ data, readInodeData image sb num = .ok data) ↔ Readable image sb file := by
  have hpos := Superblock.blockSize_pos hsize
  rw [readInodeData, hinode, ok_bind, if_neg (by simp [hfile])]
  by_cases hempty : file.size = 0
  · rw [if_pos hempty]
    refine iff_of_true ⟨_, rfl⟩ fun k hk => ?_
    rw [hempty, UInt32.toNat_zero, Nat.zero_add, Nat.div_eq_of_lt (by omega)] at hk
    omega
  have hbytes : file.size.toNat ≠ 0 := fun h0 => hempty (UInt32.toNat_inj.1 h0)
  rw [if_neg hempty, Exec.divCeil_eq (by omega), ok_bind]
  -- the last block is the one that holds the last byte
  have hdiv : (file.size.toNat + sb.blockSize.toNat - 1) / sb.blockSize.toNat =
      (file.size.toNat - 1) / sb.blockSize.toNat + 1 := by
    rw [show file.size.toNat + sb.blockSize.toNat - 1 = file.size.toNat - 1 + sb.blockSize.toNat by omega,
      Nat.add_div_right _ hpos]
  have hmod := Nat.div_add_mod (file.size.toNat - 1) sb.blockSize.toNat
  have hlt := Nat.mod_lt (file.size.toNat - 1) hpos
  rw [Nat.mul_comm] at hmod
  rw [Readable, hdiv]
  generalize (file.size.toNat - 1) / sb.blockSize.toNat = last at hmod ⊢
  have hcopy := copyBlocks_ok_iff image sb file file.size.toNat last 0 []
    (by rw [List.length_nil]; omega) (by rw [List.length_nil, Nat.add_mul, Nat.one_mul]; omega)
  rw [hcopy]
  exact ⟨fun hall k hk => hall k (Nat.zero_le k) (by omega), fun hall k _ hk => hall k (by omega)⟩

end SwiftCore.Init
