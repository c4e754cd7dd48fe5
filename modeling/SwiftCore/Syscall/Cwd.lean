/-
The current directory (core/syscall/fs.rs: `chdir`, `getcwd`, `resolve_path`; core/task/process.rs: `cwd`, `set_cwd`).

A process keeps its current directory as UTF-8 in a buffer of 256 bytes. `set_cwd` cuts off what is behind 255 bytes;
`cwd` gives `/` where the cut leaves no valid UTF-8. The backend takes paths of up to 511 bytes; without it the boot image
takes any.

- `path_setCwd_of_le`, `path_setCwd_of_gt`: a path of at most 255 bytes is kept, a longer one becomes a shorter one.
- `chdir_cases`: a failing `chdir` changes nothing, one that succeeds stores the resolved path.
- `chdir_getcwd_iff`: after `chdir` the directory is the resolved one, for `getcwd` and for relative paths, iff that
  path has at most 255 bytes.
- `long_directory_is_cut`: a directory with a path of 261 bytes.
-/
import SwiftCore.Launch.UserArrays
import SwiftCore.Syscall.PathLaws
import SwiftCore.User.ExecArgs

namespace SwiftCore.Syscall.Cwd

open Elf (userSpaceEnd)
open Launch FsReplies Paths
open User.ExecArgs (bytes fromUtf8)

/-! ## The buffer -/

/-- `path.as_bytes()` -/
def utf8 (path : Path) : List UInt8 := bytes (String.ofList path)

/-- `cwd` and `cwd_len` of a process -/
structure CwdBuf where
  buf : List UInt8
  len : ℕ
  size : buf.length = 256
  short : len ≤ 255

/-- a new process is in `/` -/
def CwdBuf.new : CwdBuf where
  buf := 47 :: List.replicate 255 0
  len := 1
  size := by rw [List.length_cons, List.length_replicate]
  short := by decide

/-- `Process::cwd` -/
def CwdBuf.path (c : CwdBuf) : Path := ((fromUtf8 (c.buf.take c.len)).map String.toList).getD ['/']

/-- `Process::set_cwd` -/
def CwdBuf.setCwd (c : CwdBuf) (path : Path) : CwdBuf where
  buf := (utf8 path).take (min (utf8 path).length 255) ++ c.buf.drop (min (utf8 path).length 255)
  len := min (utf8 path).length 255
  size := by
    rw [List.length_append, List.length_take, List.length_drop, c.size]
    omega
  short := min_le_right _ _

/-! ## Memory of the caller -/

/-- what the page table of a process lets it read and write -/
structure UserSpace extends UserMemory where
  writable : ℕ → Bool

namespace UserSpace

/-- one byte written -/
def put (u : UserSpace) (a : ℕ) (b : UInt8) : UserSpace where
  byte x := if x = a then (u.byte a).map fun _ => b else u.byte x
  inSpace x hx := by
    split_ifs with hxa
    · rw [← hxa, u.inSpace x hx]
      rfl
    · exact u.inSpace x hx
  writable := u.writable

/-- bytes written up to the first that may not be -/
def store (u : UserSpace) : ℕ → List UInt8 → UserSpace × Bool
  | _, [] => (u, true)
  | a, b :: bs => if (u.byte a).isSome ∧ u.writable a then (u.put a b).store (a + 1) bs else (u, false)

/-- `copy_to_user`, with the check of the range first -/
def copyToUser (u : UserSpace) (ptr : ℕ) (src : List UInt8) : UserSpace × Bool :=
  if src = [] then (u, true)
  else if ptr = 0 ∨ userSpaceEnd < ptr + src.length - 1 then (u, false)
  else u.store ptr src

/-- `validate_user_ptr` for a range that is not empty -/
def validateUserPtr (u : UserSpace) (ptr len : ℕ) : Bool :=
  ptr + len - 1 ≤ userSpaceEnd ∧ ∀ i < len, (u.byte (ptr + i)).isSome

/-- the loop of `read_user_cstring` -/
def readCstringLoop (u : UserSpace) : ℕ → ℕ → List UInt8 → Except UInt64 Path
  | 0, _, _ => .error EINVAL
  | n + 1, addr, acc =>
    if 2 ^ 64 ≤ addr then .error EFAULT
    else
      match u.byte addr with
      | none => .error EFAULT
      | some b =>
        if b = 0 then
          match fromUtf8 acc with
          | some s => .ok s.toList
          | none => .error EINVAL
        else u.readCstringLoop n (addr + 1) (acc ++ [b])

/-- `read_cstring` -/
def readCstring (u : UserSpace) (ptr : ℕ) : Except UInt64 Path :=
  if ptr = 0 then .error EINVAL else u.readCstringLoop 1024 ptr []

end UserSpace

/-! ## The calls -/

/-- `memory`: none without a page table -/
structure Proc where
  cwd : CwdBuf
  memory : Option UserSpace

/-- the process of the running thread, and the table of processes -/
structure Sys where
  pid : Option ℕ
  procs : ℕ → Option Proc

namespace Sys

/-- the page table that copies go through -/
def memory (s : Sys) : Option UserSpace := (s.pid.bind s.procs).bind Proc.memory

/-- the directory that `resolve_path` starts from -/
def cwd (s : Sys) (pid : ℕ) : Path := ((s.procs pid).map fun p => p.cwd.path).getD ['/']

/-- `resolve_path` -/
def resolve (s : Sys) (pid : ℕ) (path : Path) : Path := resolvePath (s.cwd pid) path

def readCstring (s : Sys) (ptr : ℕ) : Except UInt64 Path :=
  if ptr = 0 then .error EINVAL
  else
    match s.memory with
    | none => .error EFAULT
    | some u => u.readCstring ptr

/-- `with_process_mut` -/
def update (s : Sys) (pid : ℕ) (f : Proc → Proc) : Sys :=
  { s with procs := Function.update s.procs pid ((s.procs pid).map f) }

end Sys

/-- the fs service and the boot image -/
structure Disk where
  service : ℕ → Reply
  image : BootImage

/-- whether the resolved path is a directory; `none` where the kernel stops -/
def Disk.checkDirectory (d : Disk) (resolved : Path) : Option (Except UInt64 Unit) :=
  (ask (viaPath resolved d.service 0)).map fun
    | .ok r => if r.status.toNat % 2 ^ 16 &&& 0xF000 = 0x4000 then .ok () else .error ENOTDIR
    | .error errno =>
      if shouldFallbackToInitfs errno then if d.image.isDirectory resolved then .ok () else .error ENOTDIR
      else .error errno

def chdir (d : Disk) (s : Sys) (pathPtr : ℕ) : Option (UInt64 × Sys) :=
  if pathPtr = 0 then some (EINVAL, s)
  else
    match s.pid with
    | none => some (EBADF, s)
    | some pid =>
      match s.readCstring pathPtr with
      | .error e => some (e, s)
      | .ok path =>
        let resolved := s.resolve pid path
        (d.checkDirectory resolved).map fun
          | .error e => (e, s)
          | .ok () => (SUCCESS, s.update pid fun p => { p with cwd := p.cwd.setCwd resolved })

/-- the bytes in `tmp[..cwd_len]`; without the process one byte 0 -/
def Sys.cwdBytes (s : Sys) (pid : ℕ) : List UInt8 :=
  match s.procs pid with
  | some p => (utf8 p.cwd.path).take (min (utf8 p.cwd.path).length 255)
  | none => [0]

/-- the copies of `getcwd` into the memory `u` of the caller -/
def putCwd (u : UserSpace) (bufPtr : ℕ) (cwd : List UInt8) : UInt64 × UserSpace :=
  match u.copyToUser bufPtr cwd with
  | (u, false) => (EFAULT, u)
  | (u, true) =>
    match u.copyToUser (bufPtr + cwd.length) [0] with
    | (u, false) => (EFAULT, u)
    | (u, true) => (UInt64.ofNat bufPtr, u)

def getcwd (s : Sys) (bufPtr size : ℕ) : UInt64 × Sys :=
  if bufPtr = 0 ∨ size = 0 then (EINVAL, s)
  else
    match s.pid, s.memory with
    | some pid, some u =>
      if u.validateUserPtr bufPtr size = false then (EFAULT, s)
      else if size < (s.cwdBytes pid).length + 1 then (EINVAL, s)
      else
        let (v, u) := putCwd u bufPtr (s.cwdBytes pid)
        (v, s.update pid fun p => { p with memory := some u })
    | _, _ => (EFAULT, s)

/-! ## What the buffer keeps -/

theorem utf8_eq_flatMap (path : Path) : utf8 path = path.flatMap String.utf8EncodeChar := by
  rw [utf8, bytes, String.toByteArray_ofList, List.utf8Encode]
  simp

theorem length_utf8 (path : Path) : (utf8 path).length = String.utf8Len path := by
  rw [utf8, bytes, Array.length_toList, ByteArray.size_data, String.size_toByteArray, String.utf8ByteSize_ofList]

theorem fromUtf8_utf8 (path : Path) : (fromUtf8 (utf8 path)).map String.toList = some path := by
  rw [utf8, User.ExecArgs.fromUtf8_bytes, Option.map_some, String.toList_ofList]

variable {bs : List UInt8} {path : Path} {a : ℕ} {e : UInt64}

/-- decoded text is written with the same bytes -/
theorem utf8_of_fromUtf8 {text : String} (h : fromUtf8 bs = some text) : utf8 text.toList = bs := by
  unfold fromUtf8 String.fromUTF8? at h
  split_ifs at h with hvalid
  cases h
  rw [utf8, String.ofList_toList]
  rfl

/-- only a slash is written with the byte of a slash in front -/
theorem eq_slash_of_head {c : Char} (h : (String.utf8EncodeChar c).head? = some 47) : c = '/' := by
  have hbyte {n : ℕ} (hn : some (UInt8.ofNat n) = some 47) : n % 256 = 47 :=
    congrArg UInt8.toNat (Option.some.inj hn)
  unfold String.utf8EncodeChar at h
  dsimp only at h
  split_ifs at h
  · have hval := hbyte h
    exact Char.ext (UInt32.toNat_inj.1 (by change c.val.toNat = 47; omega))
  · have hval := hbyte h
    omega
  · have hval := hbyte h
    omega
  · have hval := hbyte h
    omega

theorem take_buf_setCwd (c : CwdBuf) (path : Path) :
    (c.setCwd path).buf.take (c.setCwd path).len = (utf8 path).take 255 := by
  change (List.take _ _ ++ List.drop _ _).take (min (utf8 path).length 255) = _
  have hlen : ((utf8 path).take (min (utf8 path).length 255)).length = min (utf8 path).length 255 := by
    rw [List.length_take]
    omega
  rw [List.take_left' hlen, List.take_eq_take_iff]
  omega

theorem path_setCwd (c : CwdBuf) (path : Path) :
    (c.setCwd path).path = ((fromUtf8 ((utf8 path).take 255)).map String.toList).getD ['/'] := by
  rw [CwdBuf.path, take_buf_setCwd]

theorem path_setCwd_of_le (c : CwdBuf) (h : (utf8 path).length ≤ 255) : (c.setCwd path).path = path := by
  rw [path_setCwd, List.take_of_length_le h, fromUtf8_utf8]
  rfl

/-- a longer path leaves a shorter one, which still starts with a slash -/
theorem path_setCwd_of_gt (c : CwdBuf) (habs : path.head? = some '/') (h : 255 < (utf8 path).length) :
    ∃ rest, (c.setCwd path).path = '/' :: rest ∧ String.utf8Len ('/' :: rest) ≤ 255 := by
  rw [path_setCwd]
  cases htext : fromUtf8 ((utf8 path).take 255) with
  | none => exact ⟨[], rfl, by decide⟩
  | some text =>
    have hbytes := utf8_of_fromUtf8 htext
    have hlen : String.utf8Len text.toList ≤ 255 := by
      rw [← length_utf8, hbytes, List.length_take]
      exact min_le_left _ _
    obtain ⟨path', rfl⟩ : ∃ path', path = '/' :: path' := by
      cases path with
      | nil => cases habs
      | cons c path' => exact ⟨path', by rw [Option.some.inj habs]⟩
    have hhead : (utf8 text.toList).head? = some 47 := by
      rw [hbytes, utf8_eq_flatMap]
      rfl
    change ∃ rest, text.toList = '/' :: rest ∧ _
    cases hlist : text.toList with
    | nil =>
      rw [hlist] at hhead
      cases hhead
    | cons c rest =>
      rw [hlist] at hhead hlen
      obtain rfl : c = '/' := by
        apply eq_slash_of_head
        rw [utf8_eq_flatMap, List.flatMap_cons] at hhead
        cases hc : String.utf8EncodeChar c with
        | nil => exact absurd hc (List.ne_nil_of_length_pos (by
            rw [String.length_utf8EncodeChar]
            exact c.utf8Size_pos))
        | cons b bs =>
          rw [hc] at hhead
          exact hhead
      exact ⟨rest, rfl, hlen⟩

/-! ## Copies -/

namespace UserSpace

variable {u : UserSpace}

/-- `size` bytes at `ptr` that the caller may write -/
structure Buffer (u : UserSpace) (ptr size : ℕ) : Prop where
  notNull : ptr ≠ 0
  cells : ∀ i < size, (u.byte (ptr + i)).isSome ∧ u.writable (ptr + i) = true

/-- the bytes `bs` and a NUL are at `ptr` -/
structure Text (u : UserSpace) (ptr : ℕ) (bs : List UInt8) : Prop where
  bytes : ∀ i, ∀ h : i < bs.length, u.byte (ptr + i) = some bs[i]
  nul : u.byte (ptr + bs.length) = some 0

theorem put_self {b : UInt8} (h : (u.byte a).isSome) : (u.put a b).byte a = some b := by
  obtain ⟨old, hold⟩ := Option.isSome_iff_exists.1 h
  change (if a = a then (u.byte a).map fun _ => b else u.byte a) = some b
  rw [if_pos rfl, hold]
  rfl

theorem put_other {x : ℕ} (b : UInt8) (h : x ≠ a) : (u.put a b).byte x = u.byte x := if_neg h

theorem store_eq (h : ∀ i < bs.length, (u.byte (a + i)).isSome ∧ u.writable (a + i) = true) :
    ∃ u', u.store a bs = (u', true) ∧ u'.writable = u.writable ∧
      (∀ i, ∀ h : i < bs.length, u'.byte (a + i) = some bs[i]) ∧
      ∀ x, x < a ∨ a + bs.length ≤ x → u'.byte x = u.byte x := by
  induction bs generalizing u a with
  | nil => exact ⟨u, rfl, rfl, fun i hi => absurd hi (Nat.not_lt_zero i), fun _ _ => rfl⟩
  | cons b bs ih =>
    have hfirst : (u.byte a).isSome ∧ u.writable a = true := h 0 (Nat.succ_pos _)
    have hrest : ∀ i < bs.length, ((u.put a b).byte (a + 1 + i)).isSome ∧ (u.put a b).writable (a + 1 + i) = true := by
      intro i hi
      rw [put_other b (by omega), Nat.add_right_comm]
      exact h (i + 1) (Nat.succ_lt_succ hi)
    obtain ⟨u', hstore, hwritable, hbytes, hother⟩ := ih hrest
    refine ⟨u', ?_, hwritable, ?_, ?_⟩
    · rw [store, if_pos hfirst]
      exact hstore
    · intro i hi
      cases i with
      | zero =>
        rw [Nat.add_zero, hother a (.inl (Nat.lt_succ_self a))]
        exact put_self hfirst.1
      | succ i =>
        rw [← Nat.add_assoc, Nat.add_right_comm]
        exact hbytes i (Nat.lt_of_succ_lt_succ hi)
    · intro x hx
      rw [List.length_cons] at hx
      rw [hother x (by omega), put_other b (by omega)]

/-- a readable byte is in user space -/
theorem le_of_byte (h : (u.byte a).isSome) : a ≤ userSpaceEnd := by
  by_contra hout
  rw [u.inSpace a (Nat.lt_of_not_le hout)] at h
  cases h

theorem Buffer.validate {ptr size : ℕ} (h : u.Buffer ptr size) (hsize : size ≠ 0) :
    u.validateUserPtr ptr size = true := by
  have hlast := le_of_byte (h.cells (size - 1) (by omega)).1
  exact decide_eq_true ⟨by omega, fun i hi => (h.cells i hi).1⟩

theorem copyToUser_eq {ptr size : ℕ} (h : u.Buffer ptr size) (off : ℕ) (bs : List UInt8)
    (hbs : off + bs.length ≤ size) :
    ∃ u', u.copyToUser (ptr + off) bs = (u', true) ∧ u'.Buffer ptr size ∧
      (∀ i, ∀ h : i < bs.length, u'.byte (ptr + off + i) = some bs[i]) ∧
      ∀ x, x < ptr + off ∨ ptr + off + bs.length ≤ x → u'.byte x = u.byte x := by
  have hcells : ∀ i < bs.length, (u.byte (ptr + off + i)).isSome ∧ u.writable (ptr + off + i) = true := by
    intro i hi
    rw [Nat.add_assoc]
    exact h.cells (off + i) (by omega)
  obtain ⟨u', hstore, hwritable, hbytes, hother⟩ := store_eq hcells
  have hbuffer : u'.Buffer ptr size := by
    refine ⟨h.notNull, fun i hi => ⟨?_, ?_⟩⟩
    · by_cases hin : off ≤ i ∧ i < off + bs.length
      · have hbyte := hbytes (i - off) (by omega)
        rw [show ptr + off + (i - off) = ptr + i by omega] at hbyte
        rw [hbyte]
        rfl
      · rw [hother (ptr + i) (by omega)]
        exact (h.cells i hi).1
    · rw [hwritable]
      exact (h.cells i hi).2
  refine ⟨u', ?_, hbuffer, hbytes, hother⟩
  unfold copyToUser
  by_cases hnil : bs = []
  · subst hnil
    rw [if_pos rfl]
    exact hstore
  have hpos : 0 < bs.length := List.length_pos_of_ne_nil hnil
  have hlast := le_of_byte (hcells (bs.length - 1) (by omega)).1
  have hnull := h.notNull
  rw [if_neg hnil, if_neg (by omega), hstore]

end UserSpace

/-- with room for it, the directory and a NUL are in the buffer -/
theorem putCwd_eq {u : UserSpace} {ptr size : ℕ} (h : u.Buffer ptr size) {cwd : List UInt8}
    (hroom : cwd.length < size) :
    ∃ u', putCwd u ptr cwd = (UInt64.ofNat ptr, u') ∧ u'.Text ptr cwd := by
  obtain ⟨u₁, hcopy, hbuffer, hbytes, -⟩ := UserSpace.copyToUser_eq h 0 cwd (by omega)
  obtain ⟨u₂, hnul, -, hzero, hother⟩ :=
    UserSpace.copyToUser_eq hbuffer cwd.length [0] (by simpa using hroom)
  rw [Nat.add_zero] at hcopy
  refine ⟨u₂, ?_, ?_, hzero 0 Nat.one_pos⟩
  · rw [putCwd, hcopy]
    dsimp only
    rw [hnul]
  · intro i hi
    rw [hother (ptr + i) (by omega)]
    exact hbytes i hi

/-! ## chdir, then getcwd -/

/-- the running process with other memory -/
def Sys.withMemory (s : Sys) (pid : ℕ) (u : UserSpace) : Sys := s.update pid fun p => { p with memory := some u }

/-- the current directory is `r`: `getcwd` writes it into every buffer it fits in, and relative paths start there -/
structure In (s : Sys) (pid : ℕ) (r : Path) : Prop where
  getcwd : ∀ u ptr size, u.Buffer ptr size → (utf8 r).length < size →
    ∃ u', (getcwd (s.withMemory pid u) ptr size).1 = UInt64.ofNat ptr ∧
      (getcwd (s.withMemory pid u) ptr size).2.memory = some u' ∧ u'.Text ptr (utf8 r)
  relative : ∀ q, absolute q = false → s.resolve pid q = normalizePath (r ++ '/' :: q)

section Calls

variable {s s' : Sys} {pid : ℕ} {d : Disk} {r : Path}

theorem procs_update {p : Proc} (h : s.procs pid = some p) (f : Proc → Proc) :
    (s.update pid f).procs pid = some (f p) := by
  change Function.update s.procs pid _ pid = _
  rw [Function.update_self, h]
  rfl

theorem memory_update {p : Proc} (hpid : s.pid = some pid) (h : s.procs pid = some p) (f : Proc → Proc) :
    (s.update pid f).memory = (f p).memory := by
  change ((s.pid.bind (s.update pid f).procs).bind Proc.memory) = _
  rw [hpid, Option.bind_some, procs_update h]
  rfl

/-- a directory of at most 255 bytes is the one the process is in -/
theorem in_of_cwd {p : Proc} (hpid : s.pid = some pid) (hp : s.procs pid = some p) (hcwd : p.cwd.path = r)
    (hlen : (utf8 r).length ≤ 255) : In s pid r := by
  constructor
  · intro u ptr size hbuffer hsize
    have hpid' : (s.withMemory pid u).pid = some pid := hpid
    have hp' : (s.withMemory pid u).procs pid = some { p with memory := some u } := procs_update hp _
    have hmem : (s.withMemory pid u).memory = some u := memory_update hpid hp _
    have hbytes : (s.withMemory pid u).cwdBytes pid = utf8 r := by
      rw [Sys.cwdBytes, hp']
      dsimp only
      rw [hcwd, Nat.min_eq_left hlen, List.take_length]
    obtain ⟨u', hput, htext⟩ := putCwd_eq hbuffer hsize
    have hget : Cwd.getcwd (s.withMemory pid u) ptr size =
        (UInt64.ofNat ptr, (s.withMemory pid u).update pid fun p => { p with memory := some u' }) := by
      unfold Cwd.getcwd
      have hnull := hbuffer.notNull
      rw [if_neg (by omega), hpid', hmem]
      dsimp only
      rw [if_neg (by rw [hbuffer.validate (by omega)]; exact Bool.noConfusion), hbytes, if_neg (by omega), hput]
    rw [hget]
    exact ⟨u', rfl, memory_update hpid' hp' _, htext⟩
  · intro q hq
    have hbase : s.cwd pid = r := by
      rw [Sys.cwd, hp]
      exact hcwd
    have habs : ¬ absolute q = true := by
      rw [hq]
      exact Bool.noConfusion
    rw [Sys.resolve, resolvePath, if_neg habs, hbase, normalizePath_trimEnd_under]

/-- the path resolved for `chdir` is the root or in normal form -/
theorem normalizePath_resolve (path : Path) : normalizePath (s.resolve pid path) = s.resolve pid path := by
  unfold Sys.resolve resolvePath
  split_ifs
  · exact normalizePath_idem path
  · exact normalizePath_idem _

/-- a longer directory is not the one the process is in: `.` is already another one -/
theorem not_in_of_long {p : Proc} {c : CwdBuf} (hp : s.procs pid = some p) (hcwd : p.cwd = c.setCwd r)
    (hnormal : normalizePath r = r) (hlen : 255 < (utf8 r).length) : ¬ In s pid r := by
  intro hin
  have habs : r.head? = some '/' := by
    rw [← hnormal]
    exact (normal_render (names_stack r)).slash
  obtain ⟨rest, hrest, hshort⟩ := path_setCwd_of_gt c habs hlen
  have hbase : s.cwd pid = '/' :: rest := by
    rw [Sys.cwd, hp]
    change p.cwd.path = _
    rw [hcwd, hrest]
  have hdot (base : Path) : normalizePath (base ++ '/' :: dot) = normalizePath base := by
    rw [normalizePath, stack_under]
    rfl
  have hsame : normalizePath ('/' :: rest) = r := by
    have hrel := hin.relative dot (by decide)
    rwa [Sys.resolve, resolvePath, if_neg (by decide), hbase, normalizePath_trimEnd_under, hdot, hdot, hnormal] at hrel
  have hle := (utf8Len_normalizePath_le rest).trans hshort
  rw [hsame, ← length_utf8] at hle
  omega

theorem readCstringLoop_error {u : UserSpace} {n addr : ℕ} {acc : List UInt8}
    (h : u.readCstringLoop n addr acc = .error e) : e = EINVAL ∨ e = EFAULT := by
  induction n generalizing addr acc with
  | zero => exact .inl (Except.error.inj h).symm
  | succ n ih =>
    rw [UserSpace.readCstringLoop] at h
    split at h
    · exact .inr (Except.error.inj h).symm
    cases hb : u.byte addr with
    | none =>
      rw [hb] at h
      exact .inr (Except.error.inj h).symm
    | some b =>
      rw [hb] at h
      dsimp only at h
      split at h
      · generalize fromUtf8 acc = r at h ⊢
        cases r with
        | none => exact .inl (Except.error.inj h).symm
        | some text => cases h
      · exact ih h

theorem readCstring_error {ptr : ℕ} (h : s.readCstring ptr = .error e) : e ≠ SUCCESS := by
  have herrno : e = EINVAL ∨ e = EFAULT := by
    unfold Sys.readCstring at h
    rcases ite_eq_iff.1 h with ⟨hnull, h⟩ | ⟨hnull, h⟩
    · exact .inl (Except.error.inj h).symm
    generalize s.memory = r at h ⊢
    cases r with
    | none => exact .inr (Except.error.inj h).symm
    | some u =>
      dsimp only [UserSpace.readCstring] at h
      rw [if_neg hnull] at h
      exact readCstringLoop_error h
  rcases herrno with rfl | rfl
  · decide
  · decide

/-- a path is read through the page table of the process, so the process is there -/
theorem procs_of_readCstring {ptr : ℕ} (hpid : s.pid = some pid) (h : s.readCstring ptr = .ok path) :
    ∃ p, s.procs pid = some p := by
  cases hp : s.procs pid with
  | some p => exact ⟨p, rfl⟩
  | none =>
    have hmem : s.memory = none := by rw [Sys.memory, hpid, Option.bind_some, hp, Option.bind_none]
    rw [Sys.readCstring, hmem] at h
    split_ifs at h

theorem ask_error {reply : Reply} (h : ask reply = some (.error e)) : e ≠ SUCCESS := by
  cases hneg : reply.negative with
  | true =>
    rcases ask_negative hneg with hstop | ⟨e', he', hun⟩
    · cases hstop.symm.trans h
    · rw [he'] at h
      cases Option.some.inj h
      exact hun.nonzero
  | false =>
    cases reply with
    | answered r =>
      rw [ask_answered hneg] at h
      cases Option.some.inj h
    | failed f =>
      cases Option.some.inj h
      cases f with
      | noService => decide
      | io => decide
      | noMailbox => decide
      | badPath => decide

theorem checkDirectory_error (h : d.checkDirectory r = some (.error e)) : e ≠ SUCCESS := by
  obtain ⟨answer, hask, hanswer⟩ := Option.map_eq_some_iff.1 h
  have hdir : ENOTDIR ≠ SUCCESS := by decide
  cases answer with
  | ok resp =>
    dsimp only at hanswer
    split_ifs at hanswer
    exact Except.error.inj hanswer ▸ hdir
  | error errno =>
    dsimp only at hanswer
    split_ifs at hanswer
    · exact Except.error.inj hanswer ▸ hdir
    · exact Except.error.inj hanswer ▸ ask_error hask

/-- what `chdir` can do -/
theorem chdir_cases {ptr : ℕ} {v : UInt64} (h : chdir d s ptr = some (v, s')) :
    (v ≠ SUCCESS ∧ s' = s) ∨
      (v = SUCCESS ∧ ∃ pid path p, s.pid = some pid ∧ s.readCstring ptr = .ok path ∧ s.procs pid = some p ∧
        s' = s.update pid fun p => { p with cwd := p.cwd.setCwd (s.resolve pid path) }) := by
  have failed {e : UInt64} (he : e ≠ SUCCESS) (heq : some (e, s) = some (v, s')) : v ≠ SUCCESS ∧ s' = s := by
    obtain ⟨rfl, rfl⟩ := Prod.mk.inj (Option.some.inj heq)
    exact ⟨he, rfl⟩
  unfold chdir at h
  split at h
  · exact .inl (failed (by decide) h)
  cases hpid : s.pid with
  | none =>
    rw [hpid] at h
    exact .inl (failed (by decide) h)
  | some pid =>
    rw [hpid] at h
    cases hread : s.readCstring ptr with
    | error e =>
      rw [hread] at h
      exact .inl (failed (readCstring_error hread) h)
    | ok path =>
      rw [hread] at h
      obtain ⟨check, hcheck, hresult⟩ := Option.map_eq_some_iff.1 h
      cases check with
      | error e => exact .inl (failed (checkDirectory_error hcheck) (congrArg some hresult))
      | ok _ =>
        obtain ⟨rfl, rfl⟩ := Prod.mk.inj hresult
        obtain ⟨p, hp⟩ := procs_of_readCstring hpid hread
        exact .inr ⟨rfl, pid, path, p, rfl, rfl, hp, rfl⟩

/-- **chdir and getcwd.** A `chdir` that fails changes nothing. After one that succeeds the process is in the resolved
directory if and only if the path of that has at most 255 bytes. -/
theorem chdir_getcwd_iff {ptr : ℕ} {v : UInt64} (h : chdir d s ptr = some (v, s')) :
    (v ≠ SUCCESS → s' = s) ∧
      (v = SUCCESS → ∃ pid path, s.pid = some pid ∧ s.readCstring ptr = .ok path ∧
        (In s' pid (s.resolve pid path) ↔ (utf8 (s.resolve pid path)).length ≤ 255)) := by
  obtain ⟨hne, hkeep⟩ | ⟨hok, pid, path, p, hpid, hread, hp, rfl⟩ := chdir_cases h
  · exact ⟨fun _ => hkeep, fun hv => absurd hv hne⟩
  refine ⟨fun hv => absurd hok hv, fun _ => ⟨pid, path, hpid, hread, ?_, ?_⟩⟩
  · intro hin
    by_contra hlong
    exact not_in_of_long (procs_update hp _) rfl (normalizePath_resolve path) (by omega) hin
  · intro hlen
    exact in_of_cwd hpid (procs_update hp _) (path_setCwd_of_le p.cwd hlen) hlen

/-- a text with its NUL is read as it is -/
theorem readCstringLoop_eq {u : UserSpace} {n a : ℕ} {acc : List UInt8} {text : String} (hn : bs.length < n)
    (htext : u.Text a bs) (hne : ∀ b ∈ bs, b ≠ 0) (hutf : fromUtf8 (acc ++ bs) = some text) :
    u.readCstringLoop n a acc = .ok text.toList := by
  have hspace {x : ℕ} {b : UInt8} (hx : u.byte x = some b) : ¬ 2 ^ 64 ≤ x := by
    have hle := UserSpace.le_of_byte (Option.isSome_of_eq_some hx)
    unfold userSpaceEnd at hle
    omega
  induction n generalizing a acc bs with
  | zero => exact absurd hn (Nat.not_lt_zero _)
  | succ n ih =>
    rw [UserSpace.readCstringLoop]
    cases bs with
    | nil =>
      have hnul : u.byte a = some 0 := htext.nul
      rw [List.append_nil] at hutf
      rw [if_neg (hspace hnul), hnul]
      dsimp only
      rw [if_pos rfl, hutf]
    | cons b bs =>
      have hb : u.byte a = some b := htext.bytes 0 (Nat.succ_pos _)
      have hrest : u.Text (a + 1) bs := by
        refine ⟨fun i hi => ?_, ?_⟩
        · rw [Nat.add_right_comm]
          exact htext.bytes (i + 1) (Nat.succ_lt_succ hi)
        · rw [Nat.add_right_comm]
          exact htext.nul
      rw [if_neg (hspace hb), hb]
      dsimp only
      rw [if_neg (hne b List.mem_cons_self)]
      exact ih (Nat.lt_of_succ_lt_succ hn) hrest (fun b' hb' => hne b' (List.mem_cons_of_mem b hb'))
        (by rwa [List.append_assoc, List.singleton_append])

/-- a `chdir` that succeeds -/
theorem chdir_eq {ptr : ℕ} (hptr : ptr ≠ 0) (hpid : s.pid = some pid)
    (hread : s.readCstring ptr = .ok path) (hdir : d.checkDirectory (s.resolve pid path) = some (.ok ())) :
    chdir d s ptr =
      some (SUCCESS, s.update pid fun p => { p with cwd := p.cwd.setCwd (s.resolve pid path) }) := by
  rw [chdir, if_neg hptr, hpid]
  dsimp only
  rw [hread]
  dsimp only
  rw [hdir]
  rfl

end Calls

/-! ## Two directories -/

/-- a text at address 4096 of the caller -/
def textAt (bs : List UInt8) : UserSpace where
  byte a := if 4096 ≤ a ∧ a ≤ userSpaceEnd then some (bs.getD (a - 4096) 0) else none
  inSpace _ ha := if_neg fun h => absurd h.2 (Nat.not_le.2 ha)
  writable _ := true

theorem text_textAt (h : bs.length < 1024) : (textAt bs).Text 4096 bs := by
  have hin {i : ℕ} (hi : i ≤ bs.length) : 4096 ≤ 4096 + i ∧ 4096 + i ≤ userSpaceEnd := by
    unfold userSpaceEnd
    omega
  constructor
  · intro i hi
    change ite _ _ _ = _
    rw [if_pos (hin hi.le), Nat.add_sub_cancel_left, List.getD_eq_getElem?_getD, List.getElem?_eq_getElem hi]
    rfl
  · change ite _ _ _ = _
    rw [if_pos (hin le_rfl), Nat.add_sub_cancel_left, List.getD_eq_getElem?_getD, List.getElem?_eq_none le_rfl]
    rfl

/-- process 1 in `/`, with a text in its memory -/
def caller (bs : List UInt8) : Sys := ⟨some 1, fun pid => if pid = 1 then some ⟨.new, some (textAt bs)⟩ else none⟩

theorem readCstring_caller (hlen : (utf8 path).length < 1024) (hne : ∀ b ∈ utf8 path, b ≠ 0) :
    (caller (utf8 path)).readCstring 4096 = .ok path := by
  have hutf : fromUtf8 ([] ++ utf8 path) = some (String.ofList path) := User.ExecArgs.fromUtf8_bytes _
  have hmem : (caller (utf8 path)).memory = some (textAt (utf8 path)) := rfl
  have hptr : ¬ 4096 = 0 := by decide
  rw [Sys.readCstring, if_neg hptr, hmem]
  dsimp only
  rw [UserSpace.readCstring, if_neg hptr, readCstringLoop_eq hlen (text_textAt hlen) hne hutf, String.toList_ofList]

/-- no service yet; every path is a directory of the boot image -/
def bootDisk : Disk := ⟨fun _ => .failed .noService, ⟨fun _ => true, fun _ => none, fun _ => none⟩⟩

/-- `/home` -/
def home : Path := ['/', 'h', 'o', 'm', 'e']

theorem chdir_home : ∃ s', chdir bootDisk (caller (utf8 home)) 4096 = some (SUCCESS, s') ∧ In s' 1 home := by
  have hread : (caller (utf8 home)).readCstring 4096 = .ok home :=
    readCstring_caller (by decide +kernel) (by decide +kernel)
  have hcall := chdir_eq (d := bootDisk) (by decide) rfl hread rfl
  obtain ⟨pid, path, hpid, hread', hin⟩ := (chdir_getcwd_iff hcall).2 rfl
  cases hpid
  have hresolved : (caller (utf8 home)).resolve 1 home = home := by decide +kernel
  rw [Except.ok.inj (hread'.symm.trans hread), hresolved] at hin
  exact ⟨_, hcall, hin.2 (by decide +kernel)⟩

/-- 261 bytes -/
def longDir : Path := '/' :: List.replicate 200 'a' ++ '/' :: List.replicate 59 'b'

/-- **A directory is cut.** `chdir` succeeds, and the process is in a directory whose path ends six bytes early. -/
theorem long_directory_is_cut :
    ∃ s', chdir bootDisk (caller (utf8 longDir)) 4096 = some (SUCCESS, s') ∧
      (caller (utf8 longDir)).resolve 1 longDir = longDir ∧ In s' 1 (longDir.take 255) ∧ ¬ In s' 1 longDir := by
  have hread : (caller (utf8 longDir)).readCstring 4096 = .ok longDir :=
    readCstring_caller (by decide +kernel) (by decide +kernel)
  have hresolved : (caller (utf8 longDir)).resolve 1 longDir = longDir := by decide +kernel
  have hcall := chdir_eq (d := bootDisk) (by decide) rfl hread rfl
  have hprocs := @procs_update (caller (utf8 longDir)) 1 _ rfl
    fun p => { p with cwd := p.cwd.setCwd longDir }
  rw [hresolved] at hcall
  have hcut : (utf8 longDir).take 255 = utf8 (longDir.take 255) := by decide +kernel
  have hcwd : (CwdBuf.new.setCwd longDir).path = longDir.take 255 := by
    rw [path_setCwd, hcut, fromUtf8_utf8]
    rfl
  refine ⟨_, hcall, hresolved, in_of_cwd rfl hprocs hcwd (by decide +kernel), ?_⟩
  exact not_in_of_long hprocs rfl (by decide +kernel) (by decide +kernel)

end SwiftCore.Syscall.Cwd
