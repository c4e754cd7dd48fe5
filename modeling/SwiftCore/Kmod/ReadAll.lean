/-
Whole files through the file system module (`read_all` of `core/kmod/fs.rs`, over `modules/fs/src/main.rs`).

`read_all` asks for chunks of 4096 bytes until one is empty. An error of the first chunk sends it to the boot image; an
error of a later one ends the loop as if the file ended there. The module answers with an error at a hole and past the
single-indirect blocks, so these files come back short.

- `content`: what a file holds, with all levels of indirection and holes as zeros.
- `rangeLoop_ideal`: a range is read iff each byte of it lies in a block that is there and that the module can find.
- `respond_chunk`: a chunk is delivered, or the request fails in the lookup of the path (`-2`), or else (`-5`).
- `readAllLoop_chunks`: what the loop returns from a chunk on; only `-5` after the first chunk makes the file short.
- `complete_iff`: whatever fails, the bytes returned are the first ones of the file, and all of them iff each chunk after
  the first is delivered or refused by its lookup (`Steady`).
-/
import SwiftCore.Kmod.FsCaches

namespace SwiftCore.Kmod

open Bytes Fallible Run

/-! ## The loop of the kernel -/

def moduleMaxReadBytes : ℕ := 64 * 1024 * 1024

def chunkLen : ℕ := 4096

/-- what `read_all` returns: `None`, what the boot image holds, or the bytes that the module delivered -/
inductive ReadAll where
  | missing
  | initfs
  | data (d : List UInt8)
  | running

/-- the number of bytes that the module delivered -/
def ReadAll.delivered : ReadAll → Option ℕ
  | .data d => some d.length
  | _ => none

/-- the loop of `read_all` over the module's `fs_read`; `running` if the fuel runs out -/
def readAllLoop (e : Env) (path : List UInt8) : (fuel : ℕ) → Fs → (offset : ℕ) → List UInt8 → ReadAll × Fs
  | 0, s, _, _ => (.running, s)
  | fuel + 1, s, offset, out =>
    match respond e s (.read (some path) offset (some chunkLen) true) with
    | (.read data, t) =>
      if data.length = 0 then (.data out, t)
      else if chunkLen < data.length then (.missing, t)
      else if moduleMaxReadBytes < (out ++ data).length then (.missing, t)
      else readAllLoop e path fuel t (min (offset + data.length) (2 ^ 64 - 1)) (out ++ data)
    | (reply, t) =>
      if reply.code = -2 then (.missing, t)
      else if out = [] then (.initfs, t)
      else (.data out, t)

/-- each chunk adds a byte at least, and the loop ends past the largest file -/
def readAll (e : Env) (s : Fs) (path : List UInt8) : ReadAll × Fs := readAllLoop e path (moduleMaxReadBytes + 2) s 0 []

/-! ## What a file holds -/

/-- the block number at `idx` below `root`, through `level` levels of indirect blocks; 0 is a hole -/
def pointer (disk : Disk) (mt : FsMount) : (level root idx : ℕ) → ℕ
  | 0, root, _ => root
  | level + 1, root, idx =>
    if root = 0 then 0
    else
      let below := (mt.blockSize / 4) ^ level
      pointer disk mt level (field (blockContent disk mt root) (idx / below * 4) 4) (idx % below)

/-- the block of a file: twelve direct ones, then one, two and three levels of indirection -/
def blockMap (disk : Disk) (mt : FsMount) (inode : List UInt8) (bi : ℕ) : ℕ :=
  let per := mt.blockSize / 4
  if bi < 12 then inodeBlock inode bi
  else if bi - 12 < per then pointer disk mt 1 (inodeBlock inode 12) (bi - 12)
  else if bi - 12 - per < per ^ 2 then pointer disk mt 2 (inodeBlock inode 13) (bi - 12 - per)
  else pointer disk mt 3 (inodeBlock inode 14) (bi - 12 - per - per ^ 2)

def contentByte (disk : Disk) (mt : FsMount) (inode : List UInt8) (p : ℕ) : UInt8 :=
  let b := blockMap disk mt inode (p / mt.blockSize)
  if b = 0 then 0 else ((blockContent disk mt b)[p % mt.blockSize]?).getD 0

/-- the bytes of a file, holes as zeros -/
def content (disk : Disk) (mt : FsMount) (inode : List UInt8) : List UInt8 :=
  (List.range (inodeSize inode)).map (contentByte disk mt inode)

/-- the byte `p` lies in a block that is there, direct or single-indirect -/
def Supported (disk : Disk) (mt : FsMount) (inode : List UInt8) (p : ℕ) : Prop :=
  p / mt.blockSize < 12 + mt.blockSize / 4 ∧ blockMap disk mt inode (p / mt.blockSize) ≠ 0

/-- the inode that a path names -/
def fileAt (disk : Disk) (mt : FsMount) (path : List UInt8) : Option (List UInt8) :=
  (readPathInode (ideal disk) mt path).bind (readInode (ideal disk) mt)

variable {e : Env} {disk : Disk} {mt : FsMount} {inode path : List UInt8}

@[simp] theorem length_content : (content disk mt inode).length = inodeSize inode := by simp [content]

theorem readDataBlockNum_ideal (hmt : MountOk mt) (inode : List UInt8) (p : ℕ) [Decidable (Supported disk mt inode p)] :
    readDataBlockNum (ideal disk) mt inode (p / mt.blockSize) =
      if Supported disk mt inode p then some (blockMap disk mt inode (p / mt.blockSize)) else none := by
  set bi := p / mt.blockSize with hbi
  have hsupported : Supported disk mt inode p ↔ bi < 12 + mt.blockSize / 4 ∧ blockMap disk mt inode bi ≠ 0 := .rfl
  unfold readDataBlockNum
  by_cases hdirect : bi < 12
  · have hmap : blockMap disk mt inode bi = inodeBlock inode bi := by simp only [blockMap, if_pos hdirect]
    rw [if_pos hdirect]
    by_cases hhole : inodeBlock inode bi = 0
    · rw [if_pos hhole, if_neg fun h => (hsupported.1 h).2 (hmap.trans hhole)]
      rfl
    · rw [if_neg hhole, if_pos (hsupported.2 ⟨by omega, hmap.trans_ne hhole⟩), hmap]
      rfl
  rw [if_neg hdirect]
  by_cases hfar : mt.blockSize / 4 ≤ bi - 12
  · rw [if_pos hfar, if_neg fun h => by have := (hsupported.1 h).1; omega]
    rfl
  have hmap : blockMap disk mt inode bi = pointer disk mt 1 (inodeBlock inode 12) (bi - 12) := by
    simp only [blockMap, if_neg hdirect, if_pos (Nat.lt_of_not_le hfar)]
  rw [if_neg hfar]
  by_cases hindirect : inodeBlock inode 12 = 0
  · have hzero : blockMap disk mt inode bi = 0 := by rw [hmap, pointer, if_pos hindirect]
    rw [if_pos hindirect, if_neg fun h => (hsupported.1 h).2 hzero]
    rfl
  have hentry : blockMap disk mt inode bi = field (blockContent disk mt (inodeBlock inode 12)) ((bi - 12) * 4) 4 := by
    rw [hmap, pointer, if_neg hindirect]
    simp only [pow_zero, Nat.div_one, pointer]
  have hread : readU32 (blockContent disk mt (inodeBlock inode 12)) ((bi - 12) * 4) = some (blockMap disk mt inode bi) := by
    rw [readU32, if_pos, hentry]
    rw [length_blockContent, ← hmt.blockSize]
    omega
  rw [if_neg hindirect]
  simp only [ofOption_ideal]
  simp only [ideal, Option.bind_eq_bind, Option.bind_some, hread]
  by_cases hhole : blockMap disk mt inode bi = 0
  · rw [if_pos hhole, if_neg fun h => (hsupported.1 h).2 hhole]
  · rw [if_neg hhole, if_pos (hsupported.2 ⟨by omega, hhole⟩)]
    rfl

/-! ## Ranges -/

variable {p : ℕ} {s : Fs}

theorem div_same_block (hmt : MountOk mt) {k : ℕ} (h : k < mt.blockSize - p % mt.blockSize) :
    (p + k) / mt.blockSize = p / mt.blockSize := by
  have hk : k < mt.blockSize := by omega
  rw [Nat.add_div hmt.pos, Nat.div_eq_of_lt hk, Nat.mod_eq_of_lt hk, if_neg (by omega)]
  rfl

/-- the part of a block that a step copies is the part of the file at its place -/
theorem slice_content (hmt : MountOk mt) {n : ℕ} (hthere : blockMap disk mt inode (p / mt.blockSize) ≠ 0)
    (hblock : n ≤ mt.blockSize - p % mt.blockSize) (hsize : p + n ≤ inodeSize inode) :
    ((blockContent disk mt (blockMap disk mt inode (p / mt.blockSize))).drop (p % mt.blockSize)).take n =
      ((content disk mt inode).drop p).take n := by
  have hpos := hmt.pos
  have hlen : (blockContent disk mt (blockMap disk mt inode (p / mt.blockSize))).length = mt.blockSize := by
    rw [length_blockContent, hmt.blockSize]
  have hmod := Nat.mod_lt p hpos
  apply List.ext_getElem
  · simp only [List.length_take, List.length_drop, hlen, length_content]
    omega
  · intro k hk _
    simp only [List.length_take, List.length_drop, hlen] at hk
    have hdiv := div_same_block hmt (show k < mt.blockSize - p % mt.blockSize by omega)
    have hrem : (p + k) % mt.blockSize = p % mt.blockSize + k := by
      rw [Nat.add_mod, Nat.mod_eq_of_lt (show k < mt.blockSize by omega), Nat.mod_eq_of_lt (by omega)]
    simp only [List.getElem_take, List.getElem_drop, content, List.getElem_map, List.getElem_range, contentByte, hdiv, hrem,
      if_neg hthere]
    rw [List.getElem?_eq_getElem (by omega), Option.getD_some]

open scoped Classical in
/-- **Ranges.** The loop of `read_inode_range` delivers the bytes of the file if the module finds each block of them. -/
theorem rangeLoop_ideal (hmt : MountOk mt) (offset toRead fuel : ℕ) (done : List UInt8)
    (hdone : done = ((content disk mt inode).drop offset).take done.length) (hle : done.length ≤ toRead)
    (hsize : offset + toRead ≤ inodeSize inode) (hfuel : toRead - done.length ≤ fuel) :
    rangeLoop (ideal disk) mt inode offset toRead fuel done =
      if ∀ p, offset + done.length ≤ p → p < offset + toRead → Supported disk mt inode p then
        some (((content disk mt inode).drop offset).take toRead)
      else none := by
  induction fuel generalizing done with
  | zero =>
    have hfull : done.length = toRead := by omega
    rw [if_pos fun p h1 h2 => by omega, rangeLoop, ← hfull, ← hdone]
    rfl
  | succ fuel ih =>
    rw [rangeLoop]
    by_cases hmore : done.length < toRead
    · rw [if_pos hmore]
      simp only
      rw [readDataBlockNum_ideal hmt inode (offset + done.length)]
      set p := offset + done.length with hp
      set n := min (mt.blockSize - p % mt.blockSize) (toRead - done.length) with hn
      have hmod := Nat.mod_lt p hmt.pos
      by_cases hsupported : Supported disk mt inode p
      · have hslice := slice_content hmt hsupported.2 (Nat.min_le_left _ (toRead - done.length))
          (show p + n ≤ inodeSize inode by omega)
        have hnext : done ++ ((content disk mt inode).drop p).take n =
            ((content disk mt inode).drop offset).take (done.length + n) := by
          rw [List.take_add, ← hdone, List.drop_drop]
        have hlen : (done ++ ((content disk mt inode).drop p).take n).length = done.length + n := by
          rw [List.length_append, List.length_take, List.length_drop, length_content]
          omega
        have hih := ih (done ++ ((content disk mt inode).drop p).take n) (by rw [hlen, hnext]) (by omega) (by omega)
        rw [if_pos hsupported]
        simp only [ideal, Option.bind_eq_bind, Option.bind_some]
        rw [hslice]
        refine hih.trans (if_congr ⟨fun h q h1 h2 => ?_, fun h q h1 h2 => h q (by omega) h2⟩ rfl rfl)
        -- the bytes that this step copied lie in the block of the first of them
        by_cases hq : q < p + n
        · have hdiv := div_same_block hmt (show q - p < mt.blockSize - p % mt.blockSize by omega)
          rw [Nat.add_sub_cancel' (by omega)] at hdiv
          rw [Supported, hdiv]
          exact hsupported
        · exact h q (by omega) h2
      · rw [if_neg hsupported, if_neg fun h => hsupported (h p le_rfl (by omega))]
        rfl
    · have hfull : done.length = toRead := by omega
      rw [if_neg hmore, if_pos fun p h1 h2 => by omega, ← hfull, ← hdone]
      rfl

/-! ## Chunks -/

/-- the bytes of a chunk can all be found -/
def ChunkSupported (disk : Disk) (mt : FsMount) (inode : List UInt8) (offset : ℕ) : Prop :=
  ∀ p, offset ≤ p → p < offset + chunkLen → p < inodeSize inode → Supported disk mt inode p

open scoped Classical in
theorem readInodeRange_ideal (hmt : MountOk mt) {inodeNum : ℕ} (hinode : readInode (ideal disk) mt inodeNum = some inode)
    (offset : ℕ) :
    readInodeRange (ideal disk) mt inodeNum offset chunkLen =
      if ChunkSupported disk mt inode offset then some (((content disk mt inode).drop offset).take chunkLen)
      else none := by
  rw [readInodeRange, hinode]
  simp only [Option.bind_eq_bind, Option.bind_some]
  by_cases hend : inodeSize inode ≤ offset
  · have hall : ChunkSupported disk mt inode offset := fun p h1 _ h2 => by omega
    rw [if_pos hend, if_pos hall, List.drop_eq_nil_of_le (by rw [length_content]; exact hend)]
    rfl
  · have htake : ((content disk mt inode).drop offset).take (min chunkLen (inodeSize inode - offset)) =
        ((content disk mt inode).drop offset).take chunkLen := by
      rw [← List.take_take, List.take_of_length_le (i := inodeSize inode - offset)]
      rw [List.length_drop, length_content]
    rw [if_neg hend, rangeLoop_ideal hmt offset _ _ [] rfl (Nat.zero_le _) (by omega) (Nat.sub_le _ _), htake]
    exact if_congr ⟨fun h p h1 h2 h3 => h p h1 (by omega), fun h p h1 h2 => h p h1 (by omega) (by omega)⟩ rfl rfl

/-- the request of a chunk: delivered without a failing sector read, or an error of the lookup, or one of the range -/
theorem respond_read (e : Env) (hmt : MountOk mt) (hs : Mounted e mt s) (path : List UInt8) (offset : ℕ) :
    ∃ r t, respond e s (.read (some path) offset (some chunkLen) true) = (r, t) ∧ Mounted e mt t ∧
      ((∃ n data, readPathInode (ideal e.disk) mt path = some n ∧
          readInodeRange (ideal e.disk) mt n offset chunkLen = some data ∧ Quiet e s t ∧ r = .read data) ∨
        ((readPathInode (live e) mt path s).2 = t ∧ (Quiet e s t → readPathInode (ideal e.disk) mt path = none) ∧
          r = .error (-2)) ∨
        ∃ n, readPathInode (ideal e.disk) mt path = some n ∧ Quiet e s (readPathInode (live e) mt path s).2 ∧
          (Quiet e s t → readInodeRange (ideal e.disk) mt n offset chunkLen = none) ∧ r = .error (-5)) := by
  simp only [respond, hs.2, answer, fsRead, withInode, bind_apply, M.bind]
  obtain ⟨n, t, hlookup, ht, hlater, hnum, hquiet⟩ | ⟨err, t, hlookup, ht, -, hnone⟩ :=
    (readPathInode_spec e hmt path).cases hs
  · rw [attempt_ok hlookup, hlookup]
    obtain ⟨data, u, hrange, hu, -, hdata, hquiet'⟩ | ⟨err, u, hrange, hu, -, hnone⟩ :=
      (readInodeRange_spec e hmt n offset chunkLen).cases ht
    · simp only [bind_apply, M.bind, attempt_ok hrange]
      exact ⟨.read data, u, rfl, hu, .inl ⟨n, data, hnum, hdata, trans_of (Quiet e) hquiet hquiet', rfl⟩⟩
    · simp only [bind_apply, M.bind, attempt_err hrange]
      exact ⟨.error (-5), u, rfl, hu, .inr (.inr ⟨n, hnum, hquiet, fun hq => hnone (hlater u hq), rfl⟩)⟩
  · rw [attempt_err hlookup, hlookup]
    exact ⟨.error (-2), t, rfl, ht, .inr (.inl ⟨rfl, hnone, rfl⟩)⟩

/-- the module after the requests of `k` chunks -/
def after (e : Env) (path : List UInt8) (s : Fs) : (k : ℕ) → Fs
  | 0 => s
  | k + 1 => (respond e (after e path s k) (.read (some path) (k * chunkLen) (some chunkLen) true)).2

/-- no sector read of the request of chunk `k` fails, and each byte of it can be found -/
def Delivered (e : Env) (mt : FsMount) (inode path : List UInt8) (s : Fs) (k : ℕ) : Prop :=
  Quiet e (after e path s k) (after e path s (k + 1)) ∧ ChunkSupported e.disk mt inode (k * chunkLen)

/-- a sector read fails while the request of chunk `k` looks up the path -/
def Denied (e : Env) (mt : FsMount) (path : List UInt8) (s : Fs) (k : ℕ) : Prop :=
  ¬ Quiet e (after e path s k) (readPathInode (live e) mt path (after e path s k)).2

/-- from chunk `k` on: after chunks that are delivered comes one that is delivered, or whose lookup fails, up to the end of
the file; the first chunk of the file may fail in any way -/
def Steady (e : Env) (mt : FsMount) (inode path : List UInt8) (s : Fs) (k : ℕ) : Prop :=
  ∀ i, k ≤ i → 0 < i → i * chunkLen < inodeSize inode → (∀ j, k ≤ j → j < i → Delivered e mt inode path s j) →
    Delivered e mt inode path s i ∨ Denied e mt path s i

/-- a delivered chunk leaves the question to the next one -/
theorem steady_succ {k : ℕ} (h : Delivered e mt inode path s k) :
    Steady e mt inode path s (k + 1) ↔ Steady e mt inode path s k := by
  constructor
  · intro hsteady i hi hpos hsize hbefore
    obtain rfl | hlt := hi.eq_or_lt
    · exact .inl h
    · exact hsteady i hlt hpos hsize fun j hj => hbefore j (by omega)
  · intro hsteady i hi hpos hsize hbefore
    refine hsteady i (by omega) hpos hsize fun j hj hji => ?_
    obtain rfl | hlt := hj.eq_or_lt
    · exact h
    · exact hbefore j hlt hji

/-- at the first chunk that is not delivered: no later one comes after delivered ones only -/
theorem steady_iff_of_not_delivered {k : ℕ} (hk : k * chunkLen < inodeSize inode) (h : ¬ Delivered e mt inode path s k) :
    Steady e mt inode path s k ↔ k = 0 ∨ Denied e mt path s k := by
  constructor
  · intro hsteady
    rcases Nat.eq_zero_or_pos k with hzero | hpos
    · exact .inl hzero
    · exact .inr ((hsteady k le_rfl hpos hk fun j h1 h2 => by omega).resolve_left h)
  · intro hcase i hi hpos hsize hbefore
    obtain rfl | hlt := hi.eq_or_lt
    · exact .inr (hcase.resolve_left (by omega))
    · exact absurd (hbefore k le_rfl hlt) h

theorem steady_past {k : ℕ} (h : inodeSize inode ≤ k * chunkLen) : Steady e mt inode path s k := by
  intro i hi _ hsize
  have hpast : k * chunkLen ≤ i * chunkLen := Nat.mul_le_mul_right chunkLen hi
  omega

/-! ## The loop over the module -/

/-- the loop ends: each chunk adds a byte, up to the largest file -/
theorem readAllLoop_ends (e : Env) (path : List UInt8) (fuel : ℕ) (s : Fs) (offset : ℕ) (out : List UInt8)
    (hfuel : moduleMaxReadBytes + 2 ≤ fuel + out.length) (hout : out.length ≤ moduleMaxReadBytes) :
    (readAllLoop e path fuel s offset out).1 ≠ .running := by
  induction fuel generalizing s offset out with
  | zero => omega
  | succ fuel ih =>
    rw [readAllLoop]
    rcases respond e s (.read (some path) offset (some chunkLen) true) with ⟨reply, t⟩
    cases reply with
    | read data =>
      simp only
      split_ifs with h1 h2 h3
      · exact nofun
      · exact nofun
      · exact nofun
      · rw [List.length_append] at h3
        exact ih t _ (out ++ data) (by rw [List.length_append]; omega) (by rw [List.length_append]; omega)
    | error code =>
      simp only
      split_ifs <;> exact nofun
    | mounted | stat | names =>
      simp only
      split_ifs <;> exact nofun

theorem readAllLoop_error {t : Fs} {offset : ℕ} {code : ℤ}
    (h : respond e s (.read (some path) offset (some chunkLen) true) = (.error code, t)) (fuel : ℕ) (out : List UInt8) :
    (readAllLoop e path (fuel + 1) s offset out).1 =
      if code = -2 then .missing else if out = [] then .initfs else .data out := by
  rw [readAllLoop, h]
  change (if code = -2 then (ReadAll.missing, t) else if out = [] then (.initfs, t) else (.data out, t)).1 = _
  split_ifs <;> rfl

section

variable (hmt : MountOk mt)

include hmt

/-- what the module can find ends long before the largest file -/
theorem Supported.lt_max (h : Supported disk mt inode p) : p < moduleMaxReadBytes := by
  have hbuf : mt.blockSize ≤ 4096 := hmt.inBuf
  calc p < (12 + mt.blockSize / 4) * mt.blockSize := (Nat.div_lt_iff_lt_mul hmt.pos).1 h.1
    _ ≤ (12 + 4096 / 4) * 4096 := Nat.mul_le_mul (Nat.add_le_add_left (Nat.div_le_div_right hbuf) 12) hbuf
    _ ≤ moduleMaxReadBytes := by decide

theorem mounted_after (hs : Mounted e mt s) (path : List UInt8) (k : ℕ) : Mounted e mt (after e path s k) := by
  induction k with
  | zero => exact hs
  | succ k ih =>
    obtain ⟨r, t, hrespond, ht, -⟩ := respond_read e hmt ih path (k * chunkLen)
    rw [after, hrespond]
    exact ht

/-- the request of chunk `k` of a file -/
theorem respond_chunk (hs : Mounted e mt s) (hfile : fileAt e.disk mt path = some inode) (k : ℕ) :
    ∃ r, respond e (after e path s k) (.read (some path) (k * chunkLen) (some chunkLen) true) =
        (r, after e path s (k + 1)) ∧
      (Delivered e mt inode path s k ∧ r = .read (((content e.disk mt inode).drop (k * chunkLen)).take chunkLen) ∨
        ¬ Delivered e mt inode path s k ∧
          (Denied e mt path s k ∧ r = .error (-2) ∨ ¬ Denied e mt path s k ∧ r = .error (-5))) := by
  classical
  obtain ⟨n, hnum, hinode⟩ := Option.bind_eq_some_iff.1 hfile
  obtain ⟨r, t, hrespond, -, hcases⟩ := respond_read e hmt (mounted_after hmt hs path k) path (k * chunkLen)
  obtain rfl : after e path s (k + 1) = t := by rw [after, hrespond]
  have hrange := readInodeRange_ideal hmt hinode (k * chunkLen)
  refine ⟨r, hrespond, ?_⟩
  obtain ⟨n', data, hnum', hdata, hquiet, rfl⟩ | ⟨hend, hnone, rfl⟩ | ⟨n', hnum', hquiet, hnone, rfl⟩ := hcases
  · obtain rfl : n = n' := Option.some_inj.1 (hnum.symm.trans hnum')
    rw [hrange] at hdata
    split_ifs at hdata with hall
    exact .inl ⟨⟨hquiet, hall⟩, congrArg Reply.read (Option.some_inj.1 hdata).symm⟩
  · have hdenied : ¬ Quiet e (after e path s k) (after e path s (k + 1)) := fun hq => by
      cases hnum.symm.trans (hnone hq)
    exact .inr ⟨fun h => hdenied h.1, .inl ⟨by rwa [Denied, hend], rfl⟩⟩
  · obtain rfl : n = n' := Option.some_inj.1 (hnum.symm.trans hnum')
    refine .inr ⟨fun h => ?_, .inr ⟨not_not.2 hquiet, rfl⟩⟩
    rw [if_pos h.2] at hrange
    cases hrange.symm.trans (hnone h.1)

/-- past the last byte the loop ends with the whole file, or with nothing -/
theorem readAllLoop_last (hs : Mounted e mt s) (hfile : fileAt e.disk mt path = some inode) (fuel : ℕ) (d : List UInt8)
    (hd : (readAllLoop e path fuel s (inodeSize inode) (content e.disk mt inode)).1 = .data d) :
    d = content e.disk mt inode := by
  cases fuel with
  | zero => cases hd
  | succ fuel =>
    obtain ⟨n, hnum, hinode⟩ := Option.bind_eq_some_iff.1 hfile
    obtain ⟨r, t, hrespond, -, hcases⟩ := respond_read e hmt hs path (inodeSize inode)
    obtain ⟨n', data, hnum', hdata, -, rfl⟩ | ⟨-, -, rfl⟩ | ⟨-, -, -, -, rfl⟩ := hcases
    · obtain rfl : n = n' := Option.some_inj.1 (hnum.symm.trans hnum')
      obtain rfl : data = [] := by simpa [readInodeRange, hinode] using hdata.symm
      rw [readAllLoop, hrespond] at hd
      exact (ReadAll.data.inj hd).symm
    all_goals
      rw [readAllLoop_error hrespond] at hd
      split_ifs at hd
      try exact (ReadAll.data.inj hd).symm

/-- the turn of a chunk that is delivered: the loop goes on, at the next chunk or past the last byte -/
theorem readAllLoop_delivered {t : Fs} {k : ℕ} (hk : k * chunkLen < inodeSize inode)
    (hall : ChunkSupported e.disk mt inode (k * chunkLen))
    (h : respond e s (.read (some path) (k * chunkLen) (some chunkLen) true) =
      (.read (((content e.disk mt inode).drop (k * chunkLen)).take chunkLen), t)) (fuel : ℕ) :
    min ((k + 1) * chunkLen) (inodeSize inode) ≤ moduleMaxReadBytes ∧
      readAllLoop e path (fuel + 1) s (k * chunkLen) ((content e.disk mt inode).take (k * chunkLen)) =
        readAllLoop e path fuel t (min ((k + 1) * chunkLen) (inodeSize inode))
          ((content e.disk mt inode).take ((k + 1) * chunkLen)) := by
  have hchunk : chunkLen = 4096 := rfl
  have hmax : moduleMaxReadBytes = 67108864 := rfl
  have hsucc : (k + 1) * chunkLen = k * chunkLen + chunkLen := Nat.succ_mul k chunkLen
  have hlast := (hall (min ((k + 1) * chunkLen) (inodeSize inode) - 1) (by omega) (by omega) (by omega)).lt_max hmt
  have hdata : (((content e.disk mt inode).drop (k * chunkLen)).take chunkLen).length =
      min chunkLen (inodeSize inode - k * chunkLen) := by
    rw [List.length_take, List.length_drop, length_content]
  have hnext : (content e.disk mt inode).take (k * chunkLen) ++
      ((content e.disk mt inode).drop (k * chunkLen)).take chunkLen =
        (content e.disk mt inode).take ((k + 1) * chunkLen) := by
    rw [← List.take_add, hsucc]
  have hlen : ((content e.disk mt inode).take ((k + 1) * chunkLen)).length = min ((k + 1) * chunkLen) (inodeSize inode) := by
    rw [List.length_take, length_content]
  refine ⟨by omega, ?_⟩
  rw [readAllLoop, h]
  simp only
  rw [if_neg (by omega), if_neg (by omega), hnext, if_neg (by omega), hdata,
    show min (k * chunkLen + min chunkLen (inodeSize inode - k * chunkLen)) (2 ^ 64 - 1) =
      min ((k + 1) * chunkLen) (inodeSize inode) by omega]

/-- **The loop from chunk `k` on**, the bytes before it having been read. -/
theorem readAllLoop_chunks (hs : Mounted e mt s) (hfile : fileAt e.disk mt path = some inode) (fuel k : ℕ)
    (hk : k * chunkLen < inodeSize inode) (hfuel : moduleMaxReadBytes + 2 ≤ fuel + k * chunkLen)
    (hmax : k * chunkLen ≤ moduleMaxReadBytes) :
    let now := (readAllLoop e path fuel (after e path s k) (k * chunkLen)
      ((content e.disk mt inode).take (k * chunkLen))).1
    (∀ d, now = .data d → d <+: content e.disk mt inode) ∧
      ((∀ d, now = .data d → d = content e.disk mt inode) ↔ Steady e mt inode path s k) := by
  induction fuel generalizing k with
  | zero => omega
  | succ fuel ih =>
    intro now
    obtain ⟨r, hrespond, ⟨hdelivered, rfl⟩ | ⟨hnot, hcases⟩⟩ := respond_chunk hmt hs hfile k
    · obtain ⟨hnextMax, hturn⟩ := readAllLoop_delivered hmt hk hdelivered.2 hrespond fuel
      simp only [now]
      rw [hturn, ← steady_succ hdelivered]
      by_cases hmore : (k + 1) * chunkLen < inodeSize inode
      · rw [Nat.min_eq_left hmore.le] at hnextMax ⊢
        have hchunk : chunkLen = 4096 := rfl
        exact ih (k + 1) hmore (by rw [Nat.succ_mul]; omega) hnextMax
      · have hend : inodeSize inode ≤ (k + 1) * chunkLen := Nat.le_of_not_lt hmore
        rw [Nat.min_eq_right hend, List.take_of_length_le (by rwa [length_content])]
        have hall := readAllLoop_last hmt (mounted_after hmt hs path (k + 1)) hfile fuel
        exact ⟨fun d hd => hall d hd ▸ List.prefix_rfl, iff_of_true hall (steady_past hend)⟩
    · rw [steady_iff_of_not_delivered hk hnot]
      obtain ⟨hdenied, rfl⟩ | ⟨hnotDenied, rfl⟩ := hcases
      · have hnow : now = .missing := (readAllLoop_error hrespond fuel _).trans (if_pos rfl)
        rw [hnow]
        exact ⟨nofun, iff_of_true nofun (.inr hdenied)⟩
      · have hnow : now = _ := (readAllLoop_error hrespond fuel _).trans (if_neg (by decide))
        have hlen : ((content e.disk mt inode).take (k * chunkLen)).length = k * chunkLen := by
          rw [List.length_take, length_content, Nat.min_eq_left hk.le]
        rw [hnow]
        by_cases hzero : k = 0
        · subst hzero
          rw [if_pos (List.length_eq_zero_iff.1 (hlen.trans (Nat.zero_mul _)))]
          exact ⟨nofun, iff_of_true nofun (.inl rfl)⟩
        · rw [if_neg fun h => Nat.mul_ne_zero hzero (by decide) (hlen.symm.trans (congrArg List.length h))]
          refine ⟨fun d hd => ReadAll.data.inj hd ▸ List.take_prefix _ _, iff_of_false (fun h => ?_) fun h => ?_⟩
          · have hwhole := congrArg List.length (h _ rfl)
            rw [hlen, length_content] at hwhole
            omega
          · exact h.elim hzero hnotDenied

/-! ## Whole files -/

/-- `d` is the whole file: of the size that `fs_stat` reports, holes as zeros -/
def Complete (disk : Disk) (mount : Option FsMount) (path d : List UInt8) : Prop :=
  ∃ mt inode, mount = some mt ∧ fileAt disk mt path = some inode ∧ d = content disk mt inode

/-- what the module delivers is the whole file -/
def ReadsComplete (e : Env) (s : Fs) (path : List UInt8) : Prop :=
  ∀ d, (readAll e s path).1 = .data d → Complete e.disk s.mount path d

/-- a path without a file delivers nothing -/
theorem readAll_absent (hs : Mounted e mt s) (hfile : fileAt e.disk mt path = none)
    (d : List UInt8) : (readAll e s path).1 ≠ .data d := by
  obtain ⟨r, t, hrespond, -, ⟨n, data, hnum, hdata, -⟩ | ⟨-, -, rfl⟩ | ⟨-, -, -, -, rfl⟩⟩ := respond_read e hmt hs path 0
  · obtain ⟨inode, hinode, -⟩ := Option.bind_eq_some_iff.1 hdata
    cases hfile.symm.trans (Option.bind_eq_some_iff.2 ⟨n, hnum, hinode⟩)
  all_goals
    rw [readAll, readAllLoop_error hrespond]
    simp

omit hmt in
theorem readAll_unmounted (hs : s.mount = none) (d : List UInt8) : (readAll e s path).1 ≠ .data d := by
  rw [readAll, readAllLoop]
  simp only [respond, hs, answer, if_true]
  intro h
  cases h

theorem readAll_file (hs : Mounted e mt s) (hfile : fileAt e.disk mt path = some inode) :
    (∀ d, (readAll e s path).1 = .data d → d <+: content e.disk mt inode) ∧
      ((∀ d, (readAll e s path).1 = .data d → d = content e.disk mt inode) ↔ Steady e mt inode path s 0) := by
  by_cases hempty : inodeSize inode = 0
  · have hnil : content e.disk mt inode = [] := by rw [← List.length_eq_zero_iff, length_content, hempty]
    have hlast := readAllLoop_last hmt hs hfile (moduleMaxReadBytes + 2)
    rw [hempty, hnil] at hlast
    rw [hnil]
    exact ⟨fun d hd => hlast d hd ▸ List.prefix_rfl, iff_of_true hlast fun i _ _ hsize => by omega⟩
  · have hchunks := readAllLoop_chunks hmt hs hfile (moduleMaxReadBytes + 2) 0 (by omega) (by omega) (by omega)
    rwa [Nat.zero_mul] at hchunks

end

theorem complete_iff_content (hfile : fileAt disk mt path = some inode) (d : List UInt8) :
    Complete disk (some mt) path d ↔ d = content disk mt inode := by
  refine ⟨?_, fun h => ⟨mt, inode, rfl, hfile, h⟩⟩
  rintro ⟨mt', inode', hmt', hfile', rfl⟩
  obtain rfl : mt = mt' := Option.some_inj.1 hmt'
  obtain rfl : inode = inode' := Option.some_inj.1 (hfile.symm.trans hfile')
  rfl

/-- nothing fails -/
def quietEnv : Env := ⟨sparseDisk, fun _ => false, fun _ => true, fun _ => []⟩

def mounted : Fs := run (fun s call => (respond quietEnv s call).2) Fs.init [.mount]

end SwiftCore.Kmod
