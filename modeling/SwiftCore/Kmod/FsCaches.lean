/-
The caches of the file system module are transparent (`modules/fs/src/main.rs`).

Every valid entry belongs to the drive that is mounted and holds what an uncached read would deliver (`Consistent`); a
mount empties the caches. Each function of the module, run with its caches on drives that may fail, finds what the same
function finds without them, or fails because a read failed (`Computes`, one lemma for each function).

- `readInode_spec`: an inode does not straddle blocks, so left-over bytes of the buffer are not read.
- `consistent_respond`: the invariant over every call.
- `caches_transparent`: in every run, a call that returns 0 returns what it returns with empty caches.
-/
import SwiftCore.Kmod.FsModule
import SwiftCore.Lib.Run

namespace SwiftCore.Kmod

open Bytes Fallible SlotCache Run

/-! ## The invariant -/

/-- a superblock that the module reads correctly: inodes do not straddle blocks -/
def SaneDisk (disk : Disk) : Prop :=
  ∀ drive mt, probeExt2Drive (ideal disk) drive = some mt → mt.inodeSize ≤ 256 ∧ mt.inodeSize ∣ mt.blockSize

/-- the inode sizes of ext2: powers of two, or the field is not used -/
def Ext2Disk (disk : Disk) : Prop :=
  ∀ drive mt, probeExt2Drive (ideal disk) drive = some mt → mt.inodeSize = 0 ∨ mt.inodeSize ∣ mt.blockSize

theorem SaneDisk.ext2 {disk : Disk} (h : SaneDisk disk) : Ext2Disk disk := fun drive mt hprobe => .inr (h drive mt hprobe).2

/-- every entry holds what is on the mounted drive -/
structure Consistent (disk : Disk) (s : Fs) : Prop where
  mount : ∀ mt, s.mount = some mt → ∃ drive, probeExt2Drive (ideal disk) drive = some mt
  blocks : ∀ x, s.blocks.Mem x → ∃ mt, s.mount = some mt ∧ x.data = blockContent disk mt x.blockNum
  inodes : ∀ x, s.inodes.Mem x → ∃ mt, s.mount = some mt ∧ readInode (ideal disk) mt x.inodeNum = some (padInode x.inode)
  paths : ∀ x, s.paths.Mem x → ∃ mt, s.mount = some mt ∧ resolvePathInode (ideal disk) mt x.path = some x.inodeNum

/-- no sector read fails between two states -/
def Quiet (e : Env) (s t : Fs) : Prop := ∀ i, s.clock ≤ i → i < t.clock → e.ok i = true

instance (e : Env) : IsPreorder Fs (Quiet e) where
  refl _ _ h1 h2 := absurd h2 (Nat.not_lt_of_le h1)
  trans _ t _ hst htu i h1 h2 := (Nat.lt_or_ge i t.clock).elim (hst i h1) fun h => htu i h h2

def Mounted (e : Env) (mt : FsMount) (s : Fs) : Prop := Consistent e.disk s ∧ s.mount = some mt

/-- what the code needs of the mount -/
structure MountOk (mt : FsMount) : Prop where
  blockSize : mt.blockSize = mt.sectorsPerBlock * 512
  pos : 0 < mt.blockSize
  gdt : 32 ∣ mt.blockSize
  inBuf : mt.blockSize ≤ bufSize
  straddle : mt.inodeSize = 0 ∨ mt.inodeSize ∣ mt.blockSize

variable {e : Env} {mt : FsMount} {disk : Disk}

theorem length_blockContent (disk : Disk) (mt : FsMount) (block : ℕ) :
    (blockContent disk mt block).length = mt.sectorsPerBlock * 512 := by
  simp [blockContent, List.length_flatMap, disk.length_sector]

variable {α : Type} {drive : Fin 2} {s : Fs}

theorem ofOption_ideal (disk : Disk) (o : Option α) : (ideal disk).ofOption o = o := by
  cases o <;> rfl

theorem probe_facts (h : probeExt2Drive (ideal disk) drive = some mt) :
    ∃ log ≤ 2, mt.blockSize = 1024 * 2 ^ log ∧ mt.sectorsPerBlock = mt.blockSize / 512 := by
  simp only [probeExt2Drive, ofOption_ideal] at h
  obtain ⟨s2, -, h⟩ := Option.bind_eq_some_iff.1 h
  obtain ⟨s3, -, h⟩ := Option.bind_eq_some_iff.1 h
  obtain ⟨magic, -, h⟩ := Option.bind_eq_some_iff.1 h
  split at h
  · cases h
  obtain ⟨log, -, h⟩ := Option.bind_eq_some_iff.1 h
  split at h
  · cases h
  split at h
  · cases h
  obtain ⟨inodesPerGroup, -, h⟩ := Option.bind_eq_some_iff.1 h
  split at h
  · cases h
  cases h
  exact ⟨log, by omega, rfl, rfl⟩

theorem mountOk_of_probe (hext2 : Ext2Disk disk) (h : probeExt2Drive (ideal disk) drive = some mt) : MountOk mt := by
  have hdvd := hext2 drive mt h
  obtain ⟨log, hlog, hblock, hsectors⟩ := probe_facts h
  have hcases : mt.blockSize = 1024 ∨ mt.blockSize = 2048 ∨ mt.blockSize = 4096 := by
    interval_cases log <;> simp [hblock]
  refine ⟨?_, ?_, ?_, ?_, hdvd⟩
  · rw [hsectors]
    omega
  · omega
  · omega
  · rw [bufSize]
    omega

/-! ## Blocks -/

theorem readSectors_spec (e : Env) (mt : FsMount) (block left i : ℕ) (s : Fs) :
    ∃ clock, (readSectors e mt block left i s).2 = { s with clock := clock } ∧ s.clock ≤ clock ∧
      match (readSectors e mt block left i s).1 with
      | .ok data => data = ((List.range' i left).flatMap fun j => e.disk.sector mt.drive (lba mt block j)) ∧
          ∀ t, s.clock ≤ t → t < clock → e.ok t = true
      | .err _ => ∃ t, s.clock ≤ t ∧ t < clock ∧ e.ok t = false
      | .stuck => False := by
  induction left generalizing i s with
  | zero => exact ⟨s.clock, rfl, le_rfl, rfl, fun t h1 h2 => by omega⟩
  | succ left ih =>
    rw [readSectors, bind_apply, M.bind, readSectorAta]
    cases hok : e.ok s.clock with
    | false => exact ⟨s.clock + 1, rfl, by omega, s.clock, le_rfl, by omega, hok⟩
    | true =>
      obtain ⟨clock, hstate, hle, hresult⟩ := ih (i + 1) { s with clock := s.clock + 1 }
      simp only [if_true]
      rw [bind_apply, M.bind]
      rcases hrest : readSectors e mt block left (i + 1) { s with clock := s.clock + 1 } with ⟨data | _ | _, t⟩
      · rw [hrest] at hstate hresult
        simp only at hresult hle
        refine ⟨clock, hstate, by omega, ?_, fun t h1 h2 => ?_⟩
        · rw [List.range'_succ, List.flatMap_cons, hresult.1]
        · obtain rfl | hlt := h1.eq_or_lt
          · exact hok
          · exact hresult.2 t hlt h2
      · rw [hrest] at hstate hresult
        simp only at hresult hle
        obtain ⟨t, h1, h2, hfail⟩ := hresult
        exact ⟨clock, hstate, by omega, t, by omega, h2, hfail⟩
      · rw [hrest] at hresult
        exact hresult.elim

theorem Mounted.clock (h : Mounted e mt s) (clock transfers : ℕ) :
    Mounted e mt { s with clock := clock, transfers := transfers } :=
  ⟨⟨h.1.mount, h.1.blocks, h.1.inodes, h.1.paths⟩, h.2⟩

theorem Mounted.insertBlock (h : Mounted e mt s) (block : ℕ) :
    Mounted e mt { s with blocks := s.blocks.insert ⟨mt.drive, block, blockContent e.disk mt block⟩ } := by
  refine ⟨⟨h.1.mount, fun x hx => ?_, h.1.inodes, h.1.paths⟩, h.2⟩
  rcases Cache.mem_insert hx with rfl | hx
  · exact ⟨mt, h.2, rfl⟩
  · exact h.1.blocks x hx

theorem yields_readFsBlock (e : Env) (mt : FsMount) (block : ℕ) :
    Yields (Mounted e mt) (Quiet e) (readFsBlock e mt block) (· = blockContent e.disk mt block) := by
  intro s hs
  unfold readFsBlock
  rw [gets_bind_apply]
  cases hlookup : s.blocks.lookup fun x => x.drive = mt.drive ∧ x.blockNum = block with
  | some x =>
    obtain ⟨hmem, hhit⟩ := Cache.mem_of_lookup hlookup
    obtain ⟨mt', hmount, hdata⟩ := hs.1.blocks x hmem
    cases hs.2.symm.trans hmount
    refine ⟨hs, fun _ hq => hq, ?_, refl_of (Quiet e) s⟩
    have hnum : x.blockNum = block := by simpa using (decide_eq_true_iff.1 hhit).2
    exact hdata.trans (by rw [hnum])
  | none =>
    simp only
    rw [bind_apply, M.bind, readFsBlockDma]
    cases hdma : e.dma s.transfers with
    | true =>
      exact ⟨(hs.clock s.clock (s.transfers + 1)).insertBlock block, fun _ hq => hq, rfl, refl_of (Quiet e) s⟩
    | false =>
      obtain ⟨clock, hstate, hle, hresult⟩ :=
        readSectors_spec e mt block mt.sectorsPerBlock 0 { s with transfers := s.transfers + 1 }
      have hlater : ∀ u, Quiet e s u → ∀ i, clock ≤ i → i < u.clock → e.ok i = true := fun u hq i hi =>
        hq i (hle.trans hi)
      simp only [Bool.false_eq_true, if_false]
      rw [bind_apply, M.bind]
      rcases hread : readSectors e mt block mt.sectorsPerBlock 0 { s with transfers := s.transfers + 1 } with
        ⟨data | _ | _, t⟩
      · rw [hread] at hstate hresult
        simp only at hstate hresult
        rw [← List.range_eq_range'] at hresult
        subst hstate
        rw [hresult.1]
        exact ⟨(hs.clock clock (s.transfers + 1)).insertBlock block, hlater, rfl, hresult.2⟩
      · rw [hread] at hstate hresult
        simp only at hstate hresult
        subst hstate
        obtain ⟨i, h1, h2, hfail⟩ := hresult
        exact ⟨hs.clock clock (s.transfers + 1), hlater, fun hq => by simp [hq i h1 h2] at hfail⟩
      · rw [hread] at hresult
        exact hresult.elim

/-! ## Inodes -/

/-- the buffer holds the block, whatever follows it -/
theorem yields_readInodeBlock (hmt : MountOk mt) (block : ℕ) :
    Yields (Mounted e mt) (Quiet e) (readInodeBlock e mt block) fun iblk =>
      iblk.length = bufSize ∧ iblk.take mt.blockSize = blockContent e.disk mt block := by
  intro s hs
  obtain ⟨hI, hquiet, hresult⟩ := yields_readFsBlock e mt block s hs
  unfold readInodeBlock
  rw [bind_apply, M.bind]
  rcases hread : readFsBlock e mt block s with ⟨data | _ | _, t⟩
  · rw [hread] at hI hquiet hresult
    obtain ⟨rfl, hbetween⟩ := hresult
    have hlen : (blockContent e.disk mt block).length = mt.blockSize := by rw [length_blockContent, hmt.blockSize]
    have hbuf := hmt.inBuf
    refine ⟨hI, hquiet, ⟨?_, ?_⟩, hbetween⟩
    · simp only [List.length_append, List.length_take, List.length_replicate]
      omega
    · rw [List.take_append_of_le_length (by rw [List.length_take, List.length_append]; omega), List.take_take,
        Nat.min_eq_left hbuf, ← hlen, List.take_left]
  · rw [hread] at hI hquiet hresult
    exact ⟨hI, hquiet, hresult⟩
  · rw [hread] at hresult
    exact hresult.elim

/-- the bytes of an inode lie inside its block -/
theorem inode_in_block (hmt : MountOk mt) (index : ℕ) :
    index * mt.inodeSize % mt.blockSize + mt.inodeSize ≤ mt.blockSize := by
  have hpos := hmt.pos
  rcases hmt.straddle with hzero | ⟨k, hk⟩
  · simp [hzero]
  have hmod : index * mt.inodeSize % mt.blockSize = mt.inodeSize * (index % k) := by
    rw [hk, Nat.mul_comm index, Nat.mul_mod_mul_left]
  have hk0 : 0 < k := Nat.pos_of_ne_zero fun h0 => by simp [h0] at hk; omega
  have hlt : index % k + 1 ≤ k := Nat.mod_lt _ hk0
  calc index * mt.inodeSize % mt.blockSize + mt.inodeSize = mt.inodeSize * (index % k + 1) := by rw [hmod, Nat.mul_succ]
    _ ≤ mt.inodeSize * k := Nat.mul_le_mul_left _ hlt
    _ = mt.blockSize := hk.symm

theorem slice_of_take {buf data : List UInt8} {n off len : ℕ} (h : buf.take n = data) (hle : off + len ≤ n) :
    (buf.drop off).take len = (data.drop off).take len := by
  rw [← h, List.drop_take, List.take_take, Nat.min_eq_left (by omega)]

/-- an inode without caches -/
theorem readInode_ideal (disk : Disk) (hmt : MountOk mt) (inodeNum : ℕ) :
    readInode (ideal disk) mt inodeNum =
      if inodeNum = 0 ∨ mt.inodesPerGroup = 0 then none
      else
        let group := (inodeNum - 1) / mt.inodesPerGroup
        let inodeOff := (inodeNum - 1) % mt.inodesPerGroup * mt.inodeSize
        (readU32 (blockContent disk mt (u32 (mt.gdtBlock + u32 (group * 32 / mt.blockSize))))
          (group * 32 % mt.blockSize + 8)).bind fun inodeTable =>
        if 256 < mt.inodeSize then none
        else some (padInode (((blockContent disk mt (u32 (inodeTable + u32 (inodeOff / mt.blockSize)))).drop
          (inodeOff % mt.blockSize)).take mt.inodeSize)) := by
  have hin := inode_in_block hmt ((inodeNum - 1) % mt.inodesPerGroup)
  have hbuf := hmt.inBuf
  unfold readInode
  by_cases hzero : inodeNum = 0 ∨ mt.inodesPerGroup = 0
  · rw [if_pos hzero, if_pos hzero]
    rfl
  rw [if_neg hzero, if_neg hzero]
  simp only [ofOption_ideal]
  simp only [ideal, Option.bind_eq_bind, Option.bind_some]
  congr 1
  funext inodeTable
  have hlen := length_blockContent disk mt
    (u32 (inodeTable + u32 ((inodeNum - 1) % mt.inodesPerGroup * mt.inodeSize / mt.blockSize)))
  rw [← hmt.blockSize] at hlen
  by_cases hsize : 256 < mt.inodeSize
  · rw [if_pos (.inr hsize), if_pos hsize]
  · rw [if_neg, if_neg hsize, slice_of_take (List.take_left' hlen) hin]
    · rfl
    · rw [List.length_append, hlen, List.length_replicate]
      omega

theorem Mounted.insertInode (h : Mounted e mt s) {inodeNum : ℕ} {raw : List UInt8}
    (hraw : readInode (ideal e.disk) mt inodeNum = some (padInode raw)) :
    Mounted e mt { s with inodes := s.inodes.insert ⟨mt.drive, inodeNum, raw⟩ } := by
  refine ⟨⟨h.1.mount, h.1.blocks, fun x hx => ?_, h.1.paths⟩, h.2⟩
  rcases Cache.mem_insert hx with rfl | hx
  · exact ⟨mt, h.2, hraw⟩
  · exact h.1.inodes x hx

theorem computes_ofOption {I : Fs → Prop} (o : Option α) : Computes I (Quiet e) ((live e).ofOption o) o := by
  cases o with
  | none => exact Computes.fail ()
  | some a => exact Computes.pure a

variable (e)

theorem readInode_spec (hmt : MountOk mt) (inodeNum : ℕ) :
    Computes (Mounted e mt) (Quiet e) (readInode (live e) mt inodeNum) (readInode (ideal e.disk) mt inodeNum) := by
  have hideal := readInode_ideal e.disk hmt inodeNum
  by_cases hzero : inodeNum = 0 ∨ mt.inodesPerGroup = 0
  · rw [readInode, if_pos hzero, readInode, if_pos hzero]
    exact Computes.fail ()
  rw [if_neg hzero] at hideal
  rw [readInode, if_neg hzero]
  have hlookup : Yields (Mounted e mt) (Quiet e) ((live e).inodeLookup mt inodeNum) fun hit =>
      ∀ raw, hit = some raw → readInode (ideal e.disk) mt inodeNum = some (padInode raw) := by
    refine Yields.gets fun s hs raw hraw => ?_
    obtain ⟨x, hx, rfl⟩ := Option.map_eq_some_iff.1 hraw
    obtain ⟨hmem, hhit⟩ := Cache.mem_of_lookup hx
    obtain ⟨mt', hmount, hinode⟩ := hs.1.inodes x hmem
    cases hs.2.symm.trans hmount
    have hnum : x.inodeNum = inodeNum := (decide_eq_true_iff.1 hhit).2
    rwa [hnum] at hinode
  refine hlookup.bind fun hit hhit => ?_
  cases hit with
  | some raw =>
    rw [hhit raw rfl]
    exact Computes.pure _
  | none =>
    refine (yields_readFsBlock e mt _).bind fun gdt hgdt => ?_
    subst hgdt
    rw [hideal]
    refine (computes_ofOption _).bind fun inodeTable htable => ?_
    simp only [htable, Option.bind_some] at hideal
    refine (yields_readInodeBlock hmt _).bind fun iblk hiblk => ?_
    obtain ⟨hlen, htake⟩ := hiblk
    have hin := inode_in_block hmt ((inodeNum - 1) % mt.inodesPerGroup)
    have hbuf := hmt.inBuf
    by_cases hsize : 256 < mt.inodeSize
    · rw [if_pos (.inr hsize), if_pos hsize]
      exact Computes.fail ()
    rw [if_neg hsize] at hideal ⊢
    rw [if_neg (by omega), slice_of_take htake hin]
    refine Yields.bind (Yields.modify (fun s hs => hs.insertInode hideal) (fun s u hq => hq)
      fun s => refl_of (Quiet e) s) fun _ _ => ?_
    exact Computes.pure _

theorem computes_block (mt : FsMount) (block : ℕ) :
    Computes (Mounted e mt) (Quiet e) ((live e).block mt block) ((ideal e.disk).block mt block) :=
  (yields_readFsBlock e mt block).computes

theorem readDataBlockNum_spec (mt : FsMount) (inode : List UInt8) (blockIdx : ℕ) :
    Computes (Mounted e mt) (Quiet e) (readDataBlockNum (live e) mt inode blockIdx)
      (readDataBlockNum (ideal e.disk) mt inode blockIdx) := by
  unfold readDataBlockNum
  refine Computes.ite (fun _ => Computes.ite (fun _ => Computes.fail ()) fun _ => Computes.pure _) fun _ => ?_
  refine Computes.ite (fun _ => Computes.fail ()) fun _ => Computes.ite (fun _ => Computes.fail ()) fun _ => ?_
  refine (computes_block e mt _).bind fun scratch _ => ?_
  rw [ofOption_ideal]
  refine (computes_ofOption _).bind fun n _ => ?_
  exact Computes.ite (fun _ => Computes.fail ()) fun _ => Computes.pure n

/-! ## Directories and paths -/

theorem lookupBlocks_spec (mt : FsMount) (inode name : List UInt8) (left bi : ℕ) :
    Computes (Mounted e mt) (Quiet e) (lookupBlocks (live e) mt inode name left bi)
      (lookupBlocks (ideal e.disk) mt inode name left bi) := by
  induction left generalizing bi with
  | zero => exact Computes.fail ()
  | succ left ih =>
    unfold lookupBlocks
    refine (readDataBlockNum_spec e mt inode bi).bind fun bnum _ => ?_
    refine (computes_block e mt bnum).bind fun blk _ => ?_
    cases scanBlock blk mt.blockSize name mt.blockSize 0 with
    | none => exact ih (bi + 1)
    | some ino => exact Computes.pure ino

theorem lookupChild_spec (hmt : MountOk mt) (dirInodeNum : ℕ) (name : List UInt8) :
    Computes (Mounted e mt) (Quiet e) (lookupChild (live e) mt dirInodeNum name)
      (lookupChild (ideal e.disk) mt dirInodeNum name) := by
  unfold lookupChild
  refine (readInode_spec e hmt dirInodeNum).bind fun inode _ => ?_
  exact Computes.ite (fun _ => Computes.fail ()) fun _ => lookupBlocks_spec e mt inode name _ 0

theorem walk_spec (hmt : MountOk mt) (cur : ℕ) (segs : List (List UInt8)) :
    Computes (Mounted e mt) (Quiet e) (walk (live e) mt cur segs) (walk (ideal e.disk) mt cur segs) := by
  induction segs generalizing cur with
  | nil => exact Computes.pure cur
  | cons seg segs ih =>
    unfold walk
    exact (lookupChild_spec e hmt cur seg).bind fun next _ => ih next

variable {e}

theorem Mounted.insertPath (h : Mounted e mt s) {path : List UInt8} {inodeNum : ℕ}
    (hpath : resolvePathInode (ideal e.disk) mt path = some inodeNum) :
    Mounted e mt { s with paths := s.paths.insert ⟨mt.drive, pathHash path, inodeNum, path⟩ } := by
  refine ⟨⟨h.1.mount, h.1.blocks, h.1.inodes, fun x hx => ?_⟩, h.2⟩
  rcases Cache.mem_insert hx with rfl | hx
  · exact ⟨mt, h.2, hpath⟩
  · exact h.1.paths x hx

theorem resolvePathInode_ideal (disk : Disk) (mt : FsMount) (path : List UInt8) :
    resolvePathInode (ideal disk) mt path = walk (ideal disk) mt 2 (segments path) := by
  unfold resolvePathInode
  cases hwalk : walk (ideal disk) mt 2 (segments path) <;> simp [ideal] at hwalk ⊢

variable (e)

theorem resolvePathInode_spec (hmt : MountOk mt) (path : List UInt8) :
    Computes (Mounted e mt) (Quiet e) (resolvePathInode (live e) mt path) (resolvePathInode (ideal e.disk) mt path) := by
  have hideal := resolvePathInode_ideal e.disk mt path
  rw [hideal, resolvePathInode]
  have hlookup : Yields (Mounted e mt) (Quiet e) ((live e).pathLookup mt path) fun hit =>
      ∀ inodeNum, hit = some inodeNum → walk (ideal e.disk) mt 2 (segments path) = some inodeNum := by
    refine Yields.gets fun s hs inodeNum hhit => ?_
    split_ifs at hhit with hlong
    obtain ⟨x, hx, rfl⟩ := Option.map_eq_some_iff.1 hhit
    obtain ⟨hmem, hkey⟩ := Cache.mem_of_lookup hx
    obtain ⟨mt', hmount, hpath⟩ := hs.1.paths x hmem
    cases hs.2.symm.trans hmount
    have hsame : x.path = path := (decide_eq_true_iff.1 hkey).2.2
    rw [← hideal, ← hsame, hpath]
  refine hlookup.bind fun hit hhit => ?_
  cases hit with
  | some inodeNum =>
    rw [hhit inodeNum rfl]
    exact Computes.pure inodeNum
  | none =>
    simp only
    rw [← Option.bind_fun_some (walk (ideal e.disk) mt 2 (segments path))]
    refine (walk_spec e hmt 2 (segments path)).bind fun cur hcur => ?_
    refine Yields.bind (Yields.modify (fun s hs => ?_) (fun s u hq => ?_) fun s => ?_) fun _ _ => Computes.pure cur
    · split_ifs
      · exact hs
      · exact hs.insertPath (hideal.trans hcur)
    · split_ifs <;> exact hq
    · split_ifs <;> exact refl_of (Quiet e) s

theorem readPathInode_spec (hmt : MountOk mt) (raw : List UInt8) :
    Computes (Mounted e mt) (Quiet e) (readPathInode (live e) mt raw) (readPathInode (ideal e.disk) mt raw) :=
  resolvePathInode_spec e hmt _

/-! ## Data -/

theorem rangeLoop_spec (mt : FsMount) (inode : List UInt8) (offset toRead fuel : ℕ) (done : List UInt8) :
    Computes (Mounted e mt) (Quiet e) (rangeLoop (live e) mt inode offset toRead fuel done)
      (rangeLoop (ideal e.disk) mt inode offset toRead fuel done) := by
  induction fuel generalizing done with
  | zero => exact Computes.pure done
  | succ fuel ih =>
    unfold rangeLoop
    refine Computes.ite (fun _ => ?_) fun _ => Computes.pure done
    refine (readDataBlockNum_spec e mt inode _).bind fun bnum _ => ?_
    exact (computes_block e mt bnum).bind fun blk _ => ih _

theorem readInodeRange_spec (hmt : MountOk mt) (inodeNum offset len : ℕ) :
    Computes (Mounted e mt) (Quiet e) (readInodeRange (live e) mt inodeNum offset len)
      (readInodeRange (ideal e.disk) mt inodeNum offset len) := by
  unfold readInodeRange
  refine (readInode_spec e hmt inodeNum).bind fun inode _ => ?_
  exact Computes.ite (fun _ => Computes.pure []) fun _ => rangeLoop_spec e mt inode offset _ _ []

theorem listBlocks_spec (mt : FsMount) (inode : List UInt8) (cap left bi : ℕ) (out : List UInt8) :
    Computes (Mounted e mt) (Quiet e) (listBlocks (live e) mt inode cap left bi out)
      (listBlocks (ideal e.disk) mt inode cap left bi out) := by
  induction left generalizing bi out with
  | zero => exact Computes.pure out
  | succ left ih =>
    unfold listBlocks
    refine (readDataBlockNum_spec e mt inode bi).bind fun bnum _ => ?_
    refine (computes_block e mt bnum).bind fun blk _ => ?_
    rcases listBlock blk mt.blockSize cap mt.blockSize 0 out with ⟨out', _ | _⟩
    · exact ih (bi + 1) out'
    · exact Computes.pure out'

/-! ## Calls -/

/-- ends with a reply that satisfies `P` -/
def Replies (mt : FsMount) (P : Reply → Prop) (x : Fsm Reply) : Prop :=
  ∀ s, Mounted e mt s → ∃ r t, x s = (.ok r, t) ∧ Mounted e mt t ∧ P r

/-- the reply is that of `y` if it is no error -/
def Transparent (mt : FsMount) (x : Fsm Reply) (y : Option Reply) : Prop :=
  ∃ reply, y = some reply ∧ Replies e mt (fun r => r.code = 0 → r = reply) x

variable {e}

theorem attempt_ok {x : Fsm α} {t : Fs} {a : α} (h : x s = (.ok a, t)) :
    (live e).attempt x s = (.ok (some a), t) := by
  simp only [live, h]

theorem attempt_err {x : Fsm α} {t : Fs} {err : Unit} (h : x s = (.err err, t)) :
    (live e).attempt x s = (.ok none, t) := by
  simp only [live, h]

variable {P : Reply → Prop}

theorem Replies.pure {r : Reply} (h : P r) : Replies e mt P (Pure.pure r) := fun s hs => ⟨r, s, rfl, hs, h⟩

/-- a step whose failure is answered with an error -/
theorem Replies.attempt {x : Fsm α} {v : Option α} {k : Option α → Fsm Reply} {code : ℤ}
    (hx : Computes (Mounted e mt) (Quiet e) x v) (hnone : k none = Pure.pure (.error code)) (hcode : P (.error code))
    (hsome : ∀ a, v = some a → Replies e mt P (k (some a))) : Replies e mt P ((live e).attempt x >>= k) := by
  intro s hs
  rw [bind_apply, M.bind]
  obtain ⟨a, t, hxs, hI, -, hv, -⟩ | ⟨err, t, hxs, hI, -, -⟩ := hx.cases hs
  · rw [attempt_ok hxs]
    exact hsome a hv t hI
  · rw [attempt_err hxs]
    simp only [hnone]
    exact Replies.pure hcode t hI

theorem Transparent.pure (r : Reply) : Transparent e mt (Pure.pure r) (some r) := ⟨r, rfl, Replies.pure fun _ => rfl⟩

theorem Transparent.attempt {x : Fsm α} {v : Option α} {k : Option α → Fsm Reply}
    {k' : Option α → Option Reply} (code : ℤ) (hcode : code ≠ 0) (hx : Computes (Mounted e mt) (Quiet e) x v)
    (hnone : k none = Pure.pure (.error code)) (hnone' : k' none = some (.error code))
    (hsome : ∀ a, Transparent e mt (k (some a)) (k' (some a))) :
    Transparent e mt ((live e).attempt x >>= k) ((ideal e.disk).attempt v >>= k') := by
  cases v with
  | none => exact ⟨_, hnone', Replies.attempt hx hnone (fun hzero => absurd hzero hcode) nofun⟩
  | some a =>
    obtain ⟨reply, hreply, hanswers⟩ := hsome a
    refine ⟨reply, hreply, Replies.attempt hx hnone (fun hzero => absurd hzero hcode) ?_⟩
    rintro _ ⟨⟩
    exact hanswers

variable (e)

theorem withInode_spec (hmt : MountOk mt) (path : List UInt8) {use : ℕ → Fsm Reply} {use' : ℕ → Option Reply}
    (huse : ∀ inodeNum, Transparent e mt (use inodeNum) (use' inodeNum)) :
    Transparent e mt (withInode (live e) mt path use) (withInode (ideal e.disk) mt path use') :=
  Transparent.attempt (-2) (by decide) (readPathInode_spec e hmt path) rfl rfl huse

theorem fsStat_spec (hmt : MountOk mt) (path : List UInt8) :
    Transparent e mt (fsStat (live e) mt path) (fsStat (ideal e.disk) mt path) :=
  withInode_spec e hmt path fun inodeNum =>
    Transparent.attempt (-5) (by decide) (readInode_spec e hmt inodeNum) rfl rfl fun _ => Transparent.pure _

theorem fsRead_spec (hmt : MountOk mt) (path : List UInt8) (offset len : ℕ) :
    Transparent e mt (fsRead (live e) mt path offset len) (fsRead (ideal e.disk) mt path offset len) :=
  withInode_spec e hmt path fun inodeNum =>
    Transparent.attempt (-5) (by decide) (readInodeRange_spec e hmt inodeNum offset len) rfl rfl fun _ =>
      Transparent.pure _

theorem fsReaddir_spec (hmt : MountOk mt) (path : List UInt8) (cap : ℕ) :
    Transparent e mt (fsReaddir (live e) mt path cap) (fsReaddir (ideal e.disk) mt path cap) := by
  refine withInode_spec e hmt path fun inodeNum => ?_
  refine Transparent.attempt (-5) (by decide) (readInode_spec e hmt inodeNum) rfl rfl fun inode => ?_
  by_cases hdir : ¬ isDir (inodeMode inode)
  · simp only [if_pos hdir]
    exact Transparent.pure _
  · simp only [if_neg hdir]
    exact Transparent.attempt (-5) (by decide) (listBlocks_spec e mt inode cap _ 0 []) rfl rfl fun _ => Transparent.pure _

/-- the reply of a call other than `fs_mount` -/
theorem answer_spec (hmt : MountOk mt) (call : Call) :
    Transparent e mt (answer (live e) (some mt) call) (answer (ideal e.disk) (some mt) call) := by
  rcases call with _ | ⟨_ | path, _ | _, _ | _⟩ | ⟨_ | path, offset, _ | len, _ | _⟩ | ⟨_ | path, _ | cap, _ | _⟩
  case stat.some.true.true => exact fsStat_spec e hmt path
  case read.some.some.true => exact fsRead_spec e hmt path offset len
  case readdir.some.some.true => exact fsReaddir_spec e hmt path cap
  all_goals exact Transparent.pure _

/-- without a mount every call returns an error -/
theorem answer_unmounted (call : Call) : ∃ code ≠ 0, answer (live e) none call = pure (.error code) := by
  rcases call with _ | ⟨_ | path, _ | _, _ | _⟩ | ⟨_ | path, offset, _ | len, _ | _⟩ | ⟨_ | path, _ | cap, _ | _⟩
  case stat.some.true.true | read.some.some.true | readdir.some.some.true => exact ⟨-5, by decide, rfl⟩
  all_goals exact ⟨-22, by decide, rfl⟩

/-! ## Mounting -/

theorem Consistent.clock (h : Consistent disk s) (clock : ℕ) : Consistent disk { s with clock := clock } :=
  ⟨h.mount, h.blocks, h.inodes, h.paths⟩

theorem readSectorAta_spec (drive : Fin 2) (lba : ℕ) :
    Computes (Consistent e.disk) (Quiet e) (readSectorAta e drive lba) (some (e.disk.sector drive lba)) := by
  intro s hs
  refine ⟨hs.clock _, fun u hq i hi => hq i (Nat.le_of_succ_le hi), ?_⟩
  rw [readSectorAta]
  by_cases hok : e.ok s.clock = true
  · simp only [if_pos hok]
    refine ⟨trivial, fun i h1 h2 => ?_⟩
    rwa [le_antisymm (Nat.le_of_lt_succ h2) h1]
  · simp only [if_neg hok]
    exact fun hq => absurd (hq s.clock le_rfl (Nat.lt_succ_self _)) hok

theorem probeExt2Drive_spec (drive : Fin 2) :
    Computes (Consistent e.disk) (Quiet e) (probeExt2Drive (live e) drive) (probeExt2Drive (ideal e.disk) drive) := by
  rw [probeExt2Drive, probeExt2Drive]
  simp only [ofOption_ideal]
  refine (readSectorAta_spec e drive 2).bind fun s2 _ => ?_
  refine (readSectorAta_spec e drive 3).bind fun s3 _ => ?_
  refine (computes_ofOption _).bind fun magic _ => ?_
  refine Computes.ite (fun _ => Computes.fail ()) fun _ => ?_
  refine (computes_ofOption _).bind fun log _ => ?_
  refine Computes.ite (fun _ => Computes.fail ()) fun _ => ?_
  refine Computes.ite (fun _ => Computes.fail ()) fun _ => ?_
  refine (computes_ofOption _).bind fun inodesPerGroup _ => ?_
  exact Computes.ite (fun _ => Computes.fail ()) fun _ => Computes.pure _

/-- what is probed, and then mounted, is on the drive -/
theorem attempt_probe (drive : Fin 2) (hs : Consistent e.disk s) :
    ∃ o t, (live e).attempt (probeExt2Drive (live e) drive) s = (.ok o, t) ∧ Consistent e.disk t ∧
      ∀ mt, o = some mt → probeExt2Drive (ideal e.disk) drive = some mt := by
  obtain ⟨mt, t, hx, hI, -, hprobe, -⟩ | ⟨err, t, hx, hI, -, -⟩ := (probeExt2Drive_spec e drive).cases hs
  · refine ⟨some mt, t, attempt_ok hx, hI, ?_⟩
    rintro mt' ⟨⟩
    exact hprobe
  · exact ⟨none, t, attempt_err hx, hI, nofun⟩

theorem mountLoop_spec (tries : ℕ) (hs : Consistent e.disk s) :
    ∃ o t, mountLoop (live e) tries s = (.ok o, t) ∧ Consistent e.disk t ∧
      ∀ mt, o = some mt → ∃ drive, probeExt2Drive (ideal e.disk) drive = some mt := by
  induction tries generalizing s with
  | zero => exact ⟨none, s, rfl, hs, nofun⟩
  | succ tries ih =>
    obtain ⟨o, t, hslave, ht, ho⟩ := attempt_probe e 1 hs
    rw [mountLoop, bind_apply, M.bind, hslave]
    cases o with
    | some mt =>
      refine ⟨some mt, t, rfl, ht, ?_⟩
      rintro _ ⟨⟩
      exact ⟨1, ho mt rfl⟩
    | none =>
      obtain ⟨o, t', hmaster, ht', ho⟩ := attempt_probe e 0 ht
      simp only
      rw [bind_apply, M.bind, hmaster]
      cases o with
      | some mt =>
        refine ⟨some mt, t', rfl, ht', ?_⟩
        rintro _ ⟨⟩
        exact ⟨0, ho mt rfl⟩
      | none => exact ih ht'

theorem ideal_attempt {α : Type} (disk : Disk) (x : Option α) : (ideal disk).attempt x = some x := rfl

/-- a drive that can be mounted is mounted at once if nothing fails -/
theorem mountLoop_ideal (tries : ℕ) (h : probeExt2Drive (ideal disk) drive = some mt) :
    ∃ mt', mountLoop (ideal disk) (tries + 1) = some (some mt') := by
  rw [mountLoop, ideal_attempt]
  cases hslave : probeExt2Drive (ideal disk) 1 with
  | some mt' => exact ⟨mt', rfl⟩
  | none =>
    rw [ideal_attempt]
    cases hmaster : probeExt2Drive (ideal disk) 0 with
    | some mt' => exact ⟨mt', rfl⟩
    | none =>
      fin_cases drive
      · cases hmaster.symm.trans h
      · cases hslave.symm.trans h

/-! ## Runs -/

theorem consistent_init (disk : Disk) : Consistent disk Fs.init where
  mount := nofun
  blocks x h := absurd h (Cache.not_mem_empty 64 x)
  inodes x h := absurd h (Cache.not_mem_empty 128 x)
  paths x h := absurd h (Cache.not_mem_empty 128 x)

/-- a mount empties the caches -/
theorem consistent_mount (s : Fs) (h : probeExt2Drive (ideal disk) drive = some mt) :
    Consistent disk { resetCaches s with mount := some mt } where
  mount mt' h' := by
    obtain rfl : mt = mt' := Option.some_inj.1 h'
    exact ⟨drive, h⟩
  blocks x hx := absurd hx (Cache.not_mem_reset s.blocks x)
  inodes x hx := absurd hx (Cache.not_mem_reset s.inodes x)
  paths x hx := absurd hx (Cache.not_mem_reset s.paths x)

theorem respond_eq (s : Fs) {call : Call} (hcall : call ≠ .mount) : respond e s call =
      match answer (live e) s.mount call s with
      | (.ok reply, t) => (reply, t)
      | (_, t) => (.error (-5), t) := by
  cases call <;> first | rfl | exact absurd rfl hcall

/-- a call in a consistent state: its reply is the ideal one if it is no error, and the state stays consistent -/
theorem respond_spec (hext2 : Ext2Disk e.disk) (s : Fs) (call : Call) (hs : Consistent e.disk s) :
    Consistent e.disk (respond e s call).2 ∧
      ((respond e s call).1.code = 0 → (respond e s call).1 = idealReply e.disk s.mount call) := by
  by_cases hcall : call = .mount
  · subst hcall
    obtain ⟨o, t, hloop, ht, ho⟩ := mountLoop_spec e 16 hs
    rw [respond, hloop]
    cases o with
    | none =>
      have hcode : (Reply.error (-5)).code ≠ 0 := by decide
      exact ⟨ht, fun hzero => absurd hzero hcode⟩
    | some mt =>
      obtain ⟨drive, hprobe⟩ := ho mt rfl
      obtain ⟨mt', hideal⟩ := mountLoop_ideal 15 hprobe
      refine ⟨consistent_mount t hprobe, fun _ => ?_⟩
      rw [idealReply, hideal]
  · have hideal : idealReply e.disk s.mount call = (answer (ideal e.disk) s.mount call).getD (.error (-5)) := by
      cases call <;> first | rfl | exact absurd rfl hcall
    rw [respond_eq e s hcall, hideal]
    cases hmount : s.mount with
    | none =>
      obtain ⟨code, hcode, hanswer⟩ := answer_unmounted e call
      rw [hanswer]
      exact ⟨hs, fun hzero => absurd hzero hcode⟩
    | some mt =>
      obtain ⟨drive, hprobe⟩ := hs.mount mt hmount
      obtain ⟨reply, hreply, hanswers⟩ := answer_spec e (mountOk_of_probe hext2 hprobe) call
      obtain ⟨r, t, hx, hI, hok⟩ := hanswers s ⟨hs, hmount⟩
      rw [hx, hreply]
      exact ⟨hI.1, hok⟩

theorem consistent_respond (hext2 : Ext2Disk e.disk) (s : Fs) (call : Call) (hs : Consistent e.disk s) :
    Consistent e.disk (respond e s call).2 :=
  (respond_spec e hext2 s call hs).1

/-- **The caches are transparent.** After any calls, on drives that fail in any pattern, a call that returns 0 returns what
it returns with empty caches. -/
theorem caches_transparent (hsane : SaneDisk e.disk) (calls : List Call) (call : Call) :
    let s := run (fun s call => (respond e s call).2) Fs.init calls
    (respond e s call).1.code = 0 → (respond e s call).1 = idealReply e.disk s.mount call := by
  intro s
  have hs : Consistent e.disk s :=
    inv_run (fun s call hs => consistent_respond e hsane.ext2 s call hs) Fs.init calls (consistent_init e.disk)
  exact (respond_spec e hsane.ext2 s call hs).2

variable {e}

/-- the nonzero bytes of a small image: 1 KiB blocks, the root directory, and the file `f` of 5 KiB without its last block -/
def sparseBytes : List (ℕ × UInt8) :=
  [(1064, 8), (1080, 0x53), (1081, 0xef), (1112, 128),      -- inodes per group, magic, inode size
    (2056, 3),                                              -- the inode table
    (3200, 0xed), (3201, 0x41), (3205, 4), (3240, 4),       -- inode 2: the root directory, in block 4
    (3328, 0xa4), (3329, 0x81), (3333, 20),                 -- inode 3: a file of 5120 bytes
    (3368, 5), (3372, 5), (3376, 5), (3380, 5),
    (4096, 3), (4101, 4), (4102, 1), (4104, 102)]

/-- the slave holds the image, the master nothing -/
@[irreducible] def sparseDisk : Disk where
  sector drive lba := (List.range 512).map fun i => if drive.val = 1 then (sparseBytes.lookup (lba * 512 + i)).getD 0 else 0
  length_sector drive lba := by simp

/-- one sector read in eight fails, and no DMA transfer succeeds -/
def sparseEnv : Env := ⟨sparseDisk, fun _ => false, fun t => decide (t % 8 ≠ 7), fun _ => [1, 2, 3]⟩

theorem probe_sparse :
    probeExt2Drive (ideal sparseDisk) 0 = none ∧
      probeExt2Drive (ideal sparseDisk) 1 = some ⟨1, 1024, 2, 128, 8, 2⟩ := by
  decide +kernel

theorem sane_sparse : SaneDisk sparseDisk := by
  intro drive mt hprobe
  fin_cases drive
  · cases hprobe.symm.trans probe_sparse.1
  · obtain rfl : mt = ⟨1, 1024, 2, 128, 8, 2⟩ := Option.some_inj.1 (hprobe.symm.trans probe_sparse.2)
    exact ⟨by decide, by decide⟩

theorem caches_transparent_sparse :
    let s := run (fun s call => (respond sparseEnv s call).2) Fs.init
      [.mount, .stat (some [47, 102]) true true, .stat (some [47, 102]) true true]
    (respond sparseEnv s (.stat (some [47, 102]) true true)).1 = .stat 0x81a4 5120 ∧
      (respond sparseEnv s (.stat (some [47, 102]) true true)).1 =
        idealReply sparseDisk s.mount (.stat (some [47, 102]) true true) :=
  ⟨by decide +kernel, caches_transparent sparseEnv sane_sparse _ _ (by decide +kernel)⟩

end SwiftCore.Kmod
