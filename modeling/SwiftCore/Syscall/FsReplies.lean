/-
How failures of the fs backend come back to the caller (core/syscall/fs.rs: open_resolved_for_pid, read, fstat, stat, seek,
readdir, getdents64 and the requests they send; core/syscall/types.rs: the error numbers).

The backend reports an error as a negative status. The kernel's error numbers are negative too, as two's complement, but a
negative status is turned into `(-status) as u64`, a small positive number. Two requests are made with the process table
locked (`askLocked`): OP_FSTAT in `seek`, and OP_CLOSE for the handle that `open` has no descriptor for.
- `ask_negative`: a negative status gives a number that no caller takes for an error and `should_fallback_to_initfs` does
  not know.
- `reports_iff`: open returns a new descriptor or an error, and the other calls report a negative status as an error, if and
  only if no negative status is received (in open: for OP_OPEN, and no request under the lock has to wait).
- `missing_file_is_descriptor_two`: OP_OPEN of a file that the disk does not have and the boot image has returns 2.
-/
import SwiftCore.Syscall.TableLock

namespace SwiftCore.Syscall.FsReplies

open SwiftCore.Task
open Files (hasCloexec)
open TableLock (Contact request request_eq_nil)

/-! ## Error numbers and replies -/

def ENOENT : UInt64 := -2
def ESRCH : UInt64 := -3
def EIO : UInt64 := -5
def EBADF : UInt64 := -9
def EFAULT : UInt64 := -14
def EEXIST : UInt64 := -17
def ENOTDIR : UInt64 := -20
def EINVAL : UInt64 := -22
def ENOSYS : UInt64 := -38

/-- negative as an `i64` -/
def Negative (v : UInt64) : Prop := 2 ^ 63 ≤ v.toNat
  deriving Decidable

/-- the status is an `i64` -/
structure FsResponse where
  status : ℤ
  len : ℕ
  data : List UInt8
  low : -2 ^ 63 ≤ status
  high : status < 2 ^ 63

/-- why no reply comes back -/
inductive Failure
  | noService | io | noMailbox | badPath
deriving DecidableEq, Repr

def Failure.code : Failure → UInt64
  | .noService => ESRCH
  | .io => EIO
  | .noMailbox | .badPath => EINVAL

inductive Reply
  | failed (f : Failure)
  | answered (r : FsResponse)

/-- a reply with a negative status -/
def Reply.negative : Reply → Bool
  | .failed _ => false
  | .answered r => r.status < 0

/-- a reply whose status has no `i64` negation -/
def Reply.overflows : Reply → Bool
  | .failed _ => false
  | .answered r => r.status = -2 ^ 63

def Reply.isIo : Reply → Bool
  | .failed f => f = .io
  | .answered _ => false

/-- `(-status) as u64`; the negation of the least `i64` stops the kernel -/
def statusError (status : ℤ) : Option UInt64 :=
  if status = -2 ^ 63 then none else some (UInt64.ofNat (-status).toNat)

/-- the end of each function that asks the service -/
def ask (reply : Reply) : Option (Except UInt64 FsResponse) :=
  match reply with
  | .failed f => some (.error f.code)
  | .answered r => if r.status < 0 then (statusError r.status).map .error else some (.ok r)

/-- a request with the process table locked: it comes back if it neither looks for the service nor yields -/
def askLocked (c : Contact) (reply : Reply) : Option (Except UInt64 FsResponse) :=
  if request c = [] then ask reply else none

abbrev Path := List Char

def fsPathMax : ℕ := 512

/-- what `encode_fs_path` accepts -/
def encodable (path : Path) : Bool :=
  path ≠ [] ∧ (String.ofList path).utf8ByteSize < fsPathMax ∧ '\x00' ∉ path

/-- the replies to requests with a path: one that cannot be encoded is not sent -/
def viaPath (path : Path) (service : ℕ → Reply) (k : ℕ) : Reply :=
  match service k with
  | .failed .noService => .failed .noService
  | reply => if encodable path then reply else .failed .badPath

def shouldFallbackToInitfs (errno : UInt64) : Bool :=
  errno = ESRCH ∨ errno = ENOENT ∨ errno = ENOTDIR ∨ errno = EBADF

/-! ## open -/

/-- the boot image and the fs module, as the fallbacks see them -/
structure BootImage where
  isDirectory : Path → Bool
  readAll : Path → Option (List UInt8)
  metadata : Path → Option (ℕ × ℕ)

def isTtyLikePath (path : Path) : Bool :=
  path = "/dev/tty".toList ∨ path = "/dev/console".toList ∨ path = "/dev/stdin".toList ∨ path = "/dev/stdout".toList ∨
    path = "/dev/stderr".toList ∨ "/dev/pts/".toList.isPrefixOf path

def oCreat : ℕ := 0o100
def oExcl : ℕ := 0o200
def oTrunc : ℕ := 0o1000
def oAppend : ℕ := 0o2000

def hasWriteIntent (flags : ℕ) : Bool :=
  flags &&& 0o3 = 1 ∨ flags &&& 0o3 = 2 ∨ flags &&& (oCreat ||| oTrunc) ≠ 0

/-- `with_fd_table_mut(owner_pid, |t| t.alloc(handle, cloexec))` with the answer of `open` -/
def install (t : FdTable) (h : FileHandle) (cloexec : Bool) : UInt64 × FdTable :=
  match t.alloc h cloexec with
  | some (fd, t) => (UInt64.ofNat fd, t)
  | none => (ENOSYS, t)

/-- the requests OP_OPEN: what the last one gives and the number of the next request -/
def openLoop (replies : ℕ → Reply) : ℕ → ℕ → UInt64 → Option (Except UInt64 ℕ × ℕ)
  | 0, k, lastErr => some (.error lastErr, k)
  | retries + 1, k, _ =>
    match ask (replies k) with
    | none => none
    | some (.ok r) => some (.ok r.status.toNat, k + 1)
    | some (.error e) => if e = EIO then openLoop replies retries (k + 1) e else some (.error e, k + 1)

variable (image : BootImage)

/-- an open that may write works on a copy in the kernel -/
def openForWriting (service : ℕ → Reply) (t : FdTable) (path : Path) (flags : ℕ) :
    Option (UInt64 × FdTable) :=
  match ask (viaPath path service 0) with
  | none => none
  | some stat =>
    let existsInService := stat.isOk
    let existsInFallback := (image.metadata path).isSome
    if flags &&& (oCreat ||| oExcl) = oCreat ||| oExcl ∧ (existsInService ∨ existsInFallback) then some (EEXIST, t)
    else
      let data := if flags &&& oTrunc = 0 ∧ existsInFallback then (image.readAll path).getD [] else []
      let startPos := if flags &&& oAppend ≠ 0 then data.length else 0
      some (install t (FileHandle.newLocal data startPos none flags) (hasCloexec flags))

/-- the boot image in place of the disk -/
def openFallback (t : FdTable) (path : Path) (flags : ℕ) : UInt64 × FdTable :=
  if image.isDirectory path then
    install t (FileHandle.newLocal [] 0 (some (String.ofList path)) flags) (hasCloexec flags)
  else
    match image.readAll path with
    | some data => install t (FileHandle.newLocal data 0 none flags) (hasCloexec flags)
    | none => (ENOENT, t)

/-- the path a remote handle keeps if OP_STAT says that it is a directory -/
def remoteDirPath (path : Path) (stat : Except UInt64 FsResponse) : Option String :=
  match stat with
  | .ok r => if r.status.toNat % 2 ^ 16 &&& 0xF000 = 0x4000 then some (String.ofList path) else none
  | .error _ => none

variable (contact : ℕ → Contact) (service : ℕ → Reply)

/-- a file that the service opened as `fdRemote`; `k` is the number of the next request -/
def adopt (t : FdTable) (refs : ℕ) (path : Path) (flags fdRemote k : ℕ) :
    Option (UInt64 × FdTable) :=
  (ask (viaPath path service k)).bind fun stat =>
    match t.alloc (FileHandle.newRemote fdRemote refs (remoteDirPath path stat) flags) (hasCloexec flags) with
    | some (fd, t) => some (UInt64.ofNat fd, t)
    | none =>
      -- the handle is dropped inside the closure, and `open` closes the remote descriptor once more
      (askLocked (contact (k + 1)) (service (k + 1))).bind fun _ => (ask (service (k + 2))).map fun _ => (ENOSYS, t)

/-- a file that the service did not open -/
def openAfterError (t : FdTable) (path : Path) (flags : ℕ) (lastErr : UInt64) : UInt64 × FdTable :=
  let errno := if lastErr ≠ 0 then lastErr else EIO
  if shouldFallbackToInitfs errno then openFallback image t path flags else (errno, t)

/-- `open_resolved_for_pid`; `refs` is the new counter of a remote handle -/
def openResolvedForPid (contact : ℕ → Contact) (service : ℕ → Reply) (t : FdTable) (refs : ℕ) (path : Path) (flags : ℕ) :
    Option (UInt64 × FdTable) :=
  if isTtyLikePath path then
    some (install t (FileHandle.newLocal [] 0 (some (String.ofList path)) 2) (hasCloexec flags))
  else if hasWriteIntent flags then openForWriting image service t path flags
  else
    (openLoop (viaPath path service) 3 0 0).bind fun
      | (.ok fdRemote, k) => adopt contact service t refs path flags fdRemote k
      | (.error lastErr, _) => some (openAfterError image t path flags lastErr)

/-! ## Calls on a remote descriptor, and stat -/

def fsDataMax : ℕ := 4096

def SUCCESS : UInt64 := 0

/-- `read` of a remote descriptor; `writable off n`: `n` bytes can be copied to the caller's buffer at `off` -/
def read (len : ℕ) (writable : ℕ → ℕ → Bool) : Option UInt64 :=
  (ask (service 0)).map fun
    | .error e => e
    | .ok r =>
      let n := min r.len (min len fsDataMax)
      if 0 < n ∧ writable 0 n = false then EFAULT else UInt64.ofNat n

def fstat : Option UInt64 :=
  (ask (service 0)).map fun
    | .error e => e
    | .ok _ => SUCCESS

def stat (service : ℕ → Reply) (path : Path) : Option UInt64 :=
  (ask (viaPath path service 0)).map fun
    | .ok _ => SUCCESS
    | .error errno =>
      if shouldFallbackToInitfs errno then if (image.metadata path).isSome then SUCCESS else ENOENT else errno

/-- `i64` addition; an overflow stops the kernel -/
def addI64 (a b : ℤ) : Option ℤ := if -2 ^ 63 ≤ a + b ∧ a + b < 2 ^ 63 then some (a + b) else none

/-- the end of `seek`: a position before the start is refused, one behind the end of a local file is cut -/
def place (h : FileHandle) (newPos : ℤ) : UInt64 × FileHandle :=
  if newPos < 0 then (EINVAL, h)
  else
    let pos := if h.isRemote then newPos.toNat else min newPos.toNat h.data.length
    (UInt64.ofNat pos, { h with pos })

/-- `seek` in a file of `len` bytes -/
def seekIn (h : FileHandle) (len : ℕ) (offset : ℤ) (whence : ℕ) : Option (UInt64 × FileHandle) :=
  match whence with
  | 0 => some (place h offset)
  | 1 => (addI64 h.pos offset).map (place h)
  | 2 => (addI64 len offset).map (place h)
  | _ => some (EINVAL, h)

/-- `seek`, with what its OP_FSTAT meets -/
def seek (h : FileHandle) (c : Contact) (reply : Reply) (offset : ℤ) (whence : ℕ) : Option (UInt64 × FileHandle) :=
  if h.isRemote then
    (askLocked c reply).bind fun
      | .error e => some (e, h)
      | .ok r => if r.len < 2 ^ 63 then seekIn h r.len offset whence else some (EINVAL, h)
  else seekIn h h.data.length offset whence

/-- the loop of `readdir` from request `k` on: the answer and the number of the next request -/
def readdirLoop (service : ℕ → Reply) (bufLen : ℕ) (writable : ℕ → ℕ → Bool) (k copied : ℕ) : Option UInt64 × ℕ :=
  if copied < bufLen then
    let want := min fsDataMax (bufLen - copied)
    match ask (service k) with
    | none => (none, k + 1)
    | some (.error e) => (some e, k + 1)
    | some (.ok r) =>
      let n := min r.len want
      if n = 0 then (some (UInt64.ofNat copied), k + 1)
      else if writable copied n = false then (some EFAULT, k + 1)
      else if n < want then (some (UInt64.ofNat (copied + n)), k + 1)
      else readdirLoop service bufLen writable (k + 1) (copied + n)
  else (some (UInt64.ofNat copied), k)
termination_by bufLen - copied

def readdir (bufLen : ℕ) (writable : ℕ → ℕ → Bool) : Option UInt64 × ℕ :=
  readdirLoop service bufLen writable 0 0

/-- an entry of a directory: its name and type -/
abbrev Dirent := List UInt8 × UInt8

/-- one record of `parse_readdir_typed`: a name, a zero byte and the type -/
def parseRecord (record : List UInt8) : Option Dirent :=
  match record.reverse with
  | dtype :: zero :: name =>
    if 1 ≤ dtype ∧ dtype ≤ 8 ∧ zero = 0 ∧ name ≠ [] ∧ (String.fromUTF8? ⟨name.reverse.toArray⟩).isSome then
      some (name.reverse, dtype)
    else none
  | _ => none

def parseReaddirTyped (bytes : List UInt8) : List Dirent := (bytes.splitOn 10).filterMap parseRecord

/-- the loop of `getdents64` that collects the entries, `rounds` from its end -/
def getdentsLoop (service : ℕ → Reply) : ℕ → ℕ → ℕ → List Dirent → Option (Except UInt64 (List Dirent)) × ℕ
  | 0, k, _, _ => (some (.error EIO), k)
  | rounds + 1, k, cursor, all =>
    match ask (service k) with
    | none => (none, k + 1)
    | some (.error e) => (some (.error e), k + 1)
    | some (.ok r) =>
      let n := min r.len fsDataMax
      if n = 0 then (some (.ok all), k + 1)
      else
        let all := all ++ parseReaddirTyped (r.data.take n)
        let next := r.status.toNat
        if next ≤ cursor then (some (.ok all), k + 1) else getdentsLoop service rounds (k + 1) next all

/-- the length of one `linux_dirent64` -/
def reclen (name : List UInt8) : ℕ := (8 + 8 + 2 + 1 + (name.length + 1) + 7) / 8 * 8

/-- how many bytes of entries fit into the buffer -/
def emit (bufLen : ℕ) : List Dirent → ℕ → ℕ
  | [], written => written
  | (name, _) :: entries, written =>
    if bufLen < written + reclen name then written else emit bufLen entries (written + reclen name)

/-- `getdents64` of a remote descriptor at entry `pos` -/
def getdents64 (pos bufLen : ℕ) (writable : ℕ → ℕ → Bool) : Option UInt64 × ℕ :=
  let (entries, k) := getdentsLoop service 4096 0 0 []
  (entries.map fun
    | .error e => e
    | .ok entries =>
      let written := emit bufLen ((([46], 4) :: ([46, 46], 4) :: entries).drop pos) 0
      if 0 < written ∧ writable 0 written = false then EFAULT else UInt64.ofNat written, k)

/-! ## Specification -/

/-- a remote descriptor, with the table and the boot image of an open -/
structure Setting where
  image : BootImage
  table : FdTable
  refs : ℕ
  handle : FileHandle
  remote : handle.isRemote = true
  /-- what the `k`-th request of the call meets -/
  contact : ℕ → Contact

inductive Call
  | openFile (path : Path) (flags : ℕ)
  | read (len : ℕ) (writable : ℕ → ℕ → Bool)
  | fstat
  | stat (path : Path)
  | lseek (offset : ℤ) (whence : ℕ)
  | readdir (bufLen : ℕ) (writable : ℕ → ℕ → Bool)
  | getdents64 (bufLen : ℕ) (writable : ℕ → ℕ → Bool)

/-- the descriptor was free and is filled now -/
def NewFd (t t' : FdTable) (v : UInt64) : Prop :=
  ∃ fd, fdBase ≤ fd ∧ fd < processMaxFds ∧ v = UInt64.ofNat fd ∧ t.entries fd = none ∧ (t'.entries fd).isSome = true

/-- the request OP_OPEN that ends the retries -/
def decisive (replies : ℕ → Reply) : ℕ :=
  if (replies 0).isIo = false then 0 else if (replies 1).isIo = false then 1 else 2

/-- the status says that there is no such file -/
def Reply.notFound : Reply → Bool
  | .failed _ => false
  | .answered r => r.status = -2

/-- an error is returned if one of the replies has a negative status -/
def ReportsNegative (value : Option UInt64) (received : List Reply) : Prop :=
  (∃ r ∈ received, r.negative = true) → ∃ v, value = some v ∧ Negative v

/-- a backend failure is never reported as a success -/
def Reports (s : Setting) (service : ℕ → Reply) : Call → Prop
  | .openFile path flags =>
    (∃ v t', openResolvedForPid s.image s.contact service s.table s.refs path flags = some (v, t') ∧
      (NewFd s.table t' v ∨ Negative v)) ∧
    -- a file that is not found on the disk is looked for in the boot image
    (isTtyLikePath path = false → hasWriteIntent flags = false →
      (viaPath path service (decisive (viaPath path service))).notFound = true →
      openResolvedForPid s.image s.contact service s.table s.refs path flags =
        some (openFallback s.image s.table path flags))
  | .read len writable => ReportsNegative (read service len writable) [service 0]
  | .fstat => ReportsNegative (fstat service) [service 0]
  | .stat path => ReportsNegative (stat s.image service path) [viaPath path service 0]
  | .lseek offset whence =>
    ReportsNegative ((seek s.handle (s.contact 0) (service 0) offset whence).map Prod.fst)
      (if request (s.contact 0) = [] then [service 0] else [])
  | .readdir bufLen writable =>
    ReportsNegative (readdir service bufLen writable).1 ((List.range (readdir service bufLen writable).2).map service)
  | .getdents64 bufLen writable =>
    ReportsNegative (getdents64 service s.handle.pos bufLen writable).1
      ((List.range (getdents64 service s.handle.pos bufLen writable).2).map service)

/-- no reply with a negative status is received; of the requests besides OP_OPEN that an open sends, none is answered with
the least `i64`, and the one under the lock does not wait -/
def Clean (s : Setting) (service : ℕ → Reply) : Call → Prop
  | .openFile path flags =>
    let replies := viaPath path service
    isTtyLikePath path = true ∨
    (hasWriteIntent flags = true ∧ (replies 0).overflows = false) ∨
    (hasWriteIntent flags = false ∧ (replies (decisive replies)).negative = false ∧
      ((replies (decisive replies)) matches .answered _ →
        (replies (decisive replies + 1)).overflows = false ∧
        (SlotTable.firstFree fdBase processMaxFds s.table.entries = none →
          (s.contact (decisive replies + 2)).Silent ∧ (service (decisive replies + 2)).overflows = false ∧
            (service (decisive replies + 3)).overflows = false)))
  | .read .. | .fstat => (service 0).negative = false
  | .lseek .. => (s.contact 0).Silent → (service 0).negative = false
  | .stat path => (viaPath path service 0).negative = false
  | .readdir bufLen writable => ∀ k < (readdir service bufLen writable).2, (service k).negative = false
  | .getdents64 bufLen writable =>
    ∀ k < (getdents64 service s.handle.pos bufLen writable).2, (service k).negative = false

/-! ## What the kernel makes of a reply -/

section Ask

variable {reply : Reply}

theorem ask_eq_none : ask reply = none ↔ reply.overflows = true := by
  cases reply with
  | failed f => simp [ask, Reply.overflows]
  | answered r =>
    simp only [ask, Reply.overflows, decide_eq_true_eq, statusError]
    constructor
    · intro h
      split_ifs at h with hneg hmin
      · exact hmin
      · cases h
    · intro hmin
      rw [if_pos (by omega), if_pos hmin]
      rfl

theorem ask_ok {r : FsResponse} (h : ask reply = some (.ok r)) : reply = .answered r ∧ reply.negative = false := by
  cases reply with
  | failed f => simp [ask] at h
  | answered r' =>
    unfold ask at h
    dsimp only at h
    rcases ite_eq_iff.1 h with ⟨hneg, h⟩ | ⟨hneg, h⟩
    · obtain ⟨e, -, he⟩ := Option.map_eq_some_iff.1 h
      cases he
    · cases Option.some.inj h
      exact ⟨rfl, by simpa [Reply.negative] using hneg⟩

theorem ask_answered {r : FsResponse} (h : (Reply.answered r).negative = false) :
    ask (.answered r) = some (.ok r) := by
  have hneg : ¬ r.status < 0 := by simpa [Reply.negative] using h
  simp only [ask, if_neg hneg]

/-- an error the kernel's callers would take for a result, and no one falls back on -/
structure Unrecognised (e : UInt64) : Prop where
  positive : ¬ Negative e
  nonzero : e ≠ 0
  notIo : e ≠ EIO
  noFallback : shouldFallbackToInitfs e = false

theorem unrecognised_of_small {n : ℕ} (hpos : 0 < n) (hlt : n < 2 ^ 63) : Unrecognised (UInt64.ofNat n) := by
  have hval : (UInt64.ofNat n).toNat = n := by
    rw [UInt64.toNat_ofNat']
    omega
  have hne : ∀ v : UInt64, 2 ^ 63 ≤ v.toNat → UInt64.ofNat n ≠ v := by
    intro v hv heq
    rw [← heq, hval] at hv
    omega
  refine ⟨?_, ?_, hne EIO (by decide), ?_⟩
  · rw [Negative, hval]
    omega
  · intro hzero
    rw [hzero] at hval
    simp at hval
    omega
  · simp [shouldFallbackToInitfs, hne ESRCH (by decide), hne ENOENT (by decide), hne ENOTDIR (by decide),
      hne EBADF (by decide)]

/-- **Wrong sign.** A negative status stops the kernel or becomes a number that is no error. -/
theorem ask_negative (h : reply.negative = true) : ask reply = none ∨ ∃ e, ask reply = some (.error e) ∧ Unrecognised e := by
  cases reply with
  | failed f => cases h
  | answered r =>
    have hneg : r.status < 0 := by simpa [Reply.negative] using h
    simp only [ask, if_pos hneg, statusError]
    split_ifs with hmin
    · exact .inl rfl
    · have hlow := r.low
      exact .inr ⟨_, rfl, unrecognised_of_small (by omega) (by omega)⟩

theorem reports_iff_of_positive {value : Option UInt64} {received : List Reply}
    (h : (∃ r ∈ received, r.negative = true) → ∀ v, value = some v → ¬ Negative v) :
    ReportsNegative value received ↔ ∀ r ∈ received, r.negative = false := by
  constructor
  · intro hreports r hr
    by_contra hneg
    have hex : ∃ r ∈ received, r.negative = true := ⟨r, hr, by simpa using hneg⟩
    obtain ⟨v, hv, hnegative⟩ := hreports hex
    exact h hex v hv hnegative
  · rintro hclean ⟨r, hr, hneg⟩
    rw [hclean r hr] at hneg
    cases hneg

/-- calls that send one request and return its error -/
theorem reports_single {value : Option UInt64} (hnone : ask reply = none → value = none)
    (herror : ∀ e, ask reply = some (.error e) → Unrecognised e → value = some e) :
    ReportsNegative value [reply] ↔ reply.negative = false := by
  rw [reports_iff_of_positive, List.forall_mem_singleton]
  rintro ⟨r, hr, hneg⟩ v hv
  obtain rfl := List.mem_singleton.1 hr
  rcases ask_negative hneg with hstop | ⟨e, he, hun⟩
  · rw [hnone hstop] at hv
    cases hv
  · rw [herror e he hun] at hv
    exact (Option.some.inj hv) ▸ hun.positive

end Ask

/-! ## Loops -/

section Loops

variable {service : ℕ → Reply}

/-- one of the requests from `k` to `k'` got a negative status -/
def Met (service : ℕ → Reply) (k k' : ℕ) : Prop := ∃ i, k ≤ i ∧ i < k' ∧ (service i).negative = true

/-- a request that was answered does not count -/
theorem Met.tail {k k' : ℕ} (h : Met service k k') {r : FsResponse} (hok : ask (service k) = some (.ok r)) :
    Met service (k + 1) k' := by
  obtain ⟨i, hki, hi, hneg⟩ := h
  rcases Nat.eq_or_lt_of_le hki with rfl | hlt
  · rw [(ask_ok hok).2] at hneg
    cases hneg
  · exact ⟨i, hlt, hi, hneg⟩

theorem not_met_self (k : ℕ) : ¬ Met service k k := by
  rintro ⟨i, hki, hi, -⟩
  omega

theorem Met.single {k : ℕ} (h : Met service k (k + 1)) : (service k).negative = true := by
  obtain ⟨i, hki, hi, hneg⟩ := h
  obtain rfl : i = k := by omega
  exact hneg

/-- an error that a request with negative status gives is no error number -/
theorem Met.positive {k : ℕ} (h : Met service k (k + 1)) {e : UInt64} (he : ask (service k) = some (.error e)) :
    ¬ Negative e := by
  rcases ask_negative h.single with hnone | ⟨e', he', hun⟩
  · rw [hnone] at he
    cases he
  · rw [he'] at he
    exact Except.error.inj (Option.some.inj he) ▸ hun.positive

theorem readdirLoop_spec (bufLen : ℕ) (writable : ℕ → ℕ → Bool) (k copied : ℕ) :
    Met service k (readdirLoop service bufLen writable k copied).2 →
      ∀ v, (readdirLoop service bufLen writable k copied).1 = some v → ¬ Negative v := by
  fun_induction readdirLoop service bufLen writable k copied with
  | case1 k copied _ hstop => intro _ v hv; cases hv
  | case2 k copied _ e he =>
    intro hmet v hv
    exact (Option.some.inj hv) ▸ hmet.positive he
  | case3 k copied _ _ r hok => intro hmet; exact absurd (hmet.tail hok) (not_met_self _)
  | case4 k copied _ _ r hok => intro hmet; exact absurd (hmet.tail hok) (not_met_self _)
  | case5 k copied _ _ r hok => intro hmet; exact absurd (hmet.tail hok) (not_met_self _)
  | case6 k copied _ _ r hok _ _ _ _ ih => intro hmet; exact ih (hmet.tail hok)
  | case7 k copied => intro hmet; exact absurd hmet (not_met_self _)

theorem getdentsLoop_spec (rounds k cursor : ℕ) (all : List Dirent) :
    Met service k (getdentsLoop service rounds k cursor all).2 →
      (getdentsLoop service rounds k cursor all).1 = none ∨
      ∃ e, (getdentsLoop service rounds k cursor all).1 = some (.error e) ∧ ¬ Negative e := by
  fun_induction getdentsLoop service rounds k cursor all with
  | case1 k cursor all => intro hmet; exact absurd hmet (not_met_self _)
  | case2 rounds k cursor all hstop => intro _; exact .inl rfl
  | case3 rounds k cursor all e he => intro hmet; exact .inr ⟨e, rfl, hmet.positive he⟩
  | case4 rounds k cursor all r hok => intro hmet; exact absurd (hmet.tail hok) (not_met_self _)
  | case5 rounds k cursor all r hok => intro hmet; exact absurd (hmet.tail hok) (not_met_self _)
  | case6 rounds k cursor all r hok _ _ _ _ _ ih => intro hmet; exact ih (hmet.tail hok)

theorem met_of_range {k : ℕ} (h : ∃ r ∈ (List.range k).map service, r.negative = true) : Met service 0 k := by
  obtain ⟨r, hr, hneg⟩ := h
  obtain ⟨i, hi, rfl⟩ := List.mem_map.1 hr
  exact ⟨i, Nat.zero_le i, List.mem_range.1 hi, hneg⟩

theorem forall_range {k : ℕ} :
    (∀ r ∈ (List.range k).map service, r.negative = false) ↔ ∀ i < k, (service i).negative = false := by
  simp

end Loops

/-! ## open -/

section Open

variable {t t' : FdTable}

theorem alloc_new {h : FileHandle} {cloexec : Bool} {fd : ℕ} (halloc : t.alloc h cloexec = some (fd, t')) :
    NewFd t t' (UInt64.ofNat fd) := by
  obtain ⟨i, hi, heq⟩ := Option.map_eq_some_iff.1 halloc
  obtain ⟨rfl, rfl⟩ := Prod.mk.inj heq
  obtain ⟨hlo, hhi, hfree⟩ := SlotTable.firstFree_some hi
  exact ⟨i, hlo, hhi, rfl, hfree, by simp [FdTable.set]⟩

theorem install_good (t : FdTable) (h : FileHandle) (cloexec : Bool) :
    NewFd t (install t h cloexec).2 (install t h cloexec).1 ∨ Negative (install t h cloexec).1 := by
  unfold install
  cases halloc : t.alloc h cloexec with
  | none => exact .inr (show Negative ENOSYS by decide)
  | some r => exact .inl (alloc_new halloc)

variable (image : BootImage)

theorem openFallback_good (t : FdTable) (path : Path) (flags : ℕ) :
    NewFd t (openFallback image t path flags).2 (openFallback image t path flags).1 ∨
      Negative (openFallback image t path flags).1 := by
  unfold openFallback
  split_ifs
  · exact install_good ..
  · split
    · exact install_good ..
    · exact .inr (show Negative ENOENT by decide)

/-- a table that has not changed has no new descriptor -/
theorem not_newFd_self (v : UInt64) : ¬ NewFd t t v := by
  rintro ⟨fd, -, -, -, hnone, hsome⟩
  rw [hnone] at hsome
  cases hsome

variable (replies : ℕ → Reply)

/-- what one OP_OPEN gives when it is the last one -/
def outcome (k : ℕ) : Option (Except UInt64 ℕ × ℕ) :=
  (ask (replies k)).map fun
    | .ok r => (.ok r.status.toNat, k + 1)
    | .error e => (.error e, k + 1)

theorem openLoop_succ (retries k : ℕ) (lastErr : UInt64) : openLoop replies (retries + 1) k lastErr =
      if (replies k).isIo then openLoop replies retries (k + 1) EIO else outcome replies k := by
  rw [openLoop, outcome]
  cases hreply : replies k with
  | failed f => cases f <;> simp [ask, Reply.isIo, Failure.code, show ESRCH ≠ EIO by decide, show EINVAL ≠ EIO by decide]
  | answered r =>
    rw [show (Reply.answered r).isIo = false from rfl, if_neg Bool.false_ne_true]
    cases hneg : (Reply.answered r).negative with
    | false => simp [ask_answered hneg]
    | true =>
      rcases ask_negative hneg with hstop | ⟨e, he, hun⟩
      · simp [hstop]
      · simp [he, hun.notIo]

/-- only the decisive request counts -/
theorem openLoop_eq : openLoop replies 3 0 0 = outcome replies (decisive replies) := by
  rw [openLoop_succ, openLoop_succ, openLoop_succ, openLoop, decisive]
  cases h0 : (replies 0).isIo with
  | false => simp
  | true =>
    cases h1 : (replies 1).isIo with
    | false => simp
    | true =>
      cases h2 : (replies 2).isIo with
      | false => simp
      | true =>
        have hio : replies 2 = .failed .io := by
          generalize replies 2 = r at h2 ⊢
          cases r with
          | failed f =>
            have hf : f = .io := by simpa [Reply.isIo] using h2
            rw [hf]
          | answered r => cases h2
        simp [outcome, hio, ask, Failure.code]

variable (contact : ℕ → Contact) (service : ℕ → Reply)

theorem openForWriting_good (t : FdTable) (path : Path) (flags : ℕ) :
    (∃ v t', openForWriting image service t path flags = some (v, t') ∧ (NewFd t t' v ∨ Negative v)) ↔
      (viaPath path service 0).overflows = false := by
  unfold openForWriting
  cases hask : ask (viaPath path service 0) with
  | none =>
    rw [ask_eq_none] at hask
    simp [hask]
  | some stat =>
    have hno : (viaPath path service 0).overflows = false := by
      rw [Bool.eq_false_iff, ne_eq, ← ask_eq_none, hask]
      exact Option.some_ne_none stat
    refine iff_of_true ?_ hno
    dsimp only
    split
    · exact ⟨EEXIST, t, rfl, .inr (by decide)⟩
    · exact ⟨_, _, rfl, install_good ..⟩

theorem openAfterError_unrecognised (t : FdTable) (path : Path) (flags : ℕ) {e : UInt64}
    (h : Unrecognised e) : openAfterError image t path flags e = (e, t) := by
  simp [openAfterError, h.nonzero, h.noFallback]

/-- the answer of an open is a new descriptor or an error -/
def Good (t : FdTable) (result : Option (UInt64 × FdTable)) : Prop :=
  ∃ v t', result = some (v, t') ∧ (NewFd t t' v ∨ Negative v)

theorem not_good_none : ¬ Good t none := by
  rintro ⟨v, t', hv, -⟩
  cases hv

theorem not_good_unrecognised {e : UInt64} (h : Unrecognised e) : ¬ Good t (some (e, t)) := by
  rintro ⟨v, t', hv, hgood⟩
  obtain ⟨rfl, rfl⟩ := Prod.mk.inj (Option.some.inj hv)
  rcases hgood with hnew | hneg
  · exact not_newFd_self _ hnew
  · exact h.positive hneg

theorem overflows_eq_false {reply : Reply} {x : Except UInt64 FsResponse} (h : ask reply = some x) :
    reply.overflows = false := by
  rw [Bool.eq_false_iff, ne_eq, ← ask_eq_none, h]
  exact Option.some_ne_none x

theorem adopt_good_iff (t : FdTable) (refs : ℕ) (path : Path) (flags fdRemote k : ℕ) :
    Good t (adopt contact service t refs path flags fdRemote k) ↔
      (viaPath path service k).overflows = false ∧
        (SlotTable.firstFree fdBase processMaxFds t.entries = none → (contact (k + 1)).Silent ∧
          (service (k + 1)).overflows = false ∧ (service (k + 2)).overflows = false) := by
  unfold adopt
  cases hstat : ask (viaPath path service k) with
  | none =>
    rw [ask_eq_none] at hstat
    simpa [hstat] using not_good_none
  | some stat =>
    rw [overflows_eq_false hstat, Option.bind_some]
    cases hfree : SlotTable.firstFree fdBase processMaxFds t.entries with
    | some fd =>
      have halloc : t.alloc (FileHandle.newRemote fdRemote refs (remoteDirPath path stat) flags) (hasCloexec flags) =
          some (fd, t.set fd (some (FileHandle.newRemote fdRemote refs (remoteDirPath path stat) flags))
            (if hasCloexec flags then fdCloexec else 0)) := by simp [FdTable.alloc, hfree]
      rw [halloc]
      exact iff_of_true ⟨_, _, rfl, .inl (alloc_new halloc)⟩ ⟨rfl, by simp⟩
    | none =>
      simp only [FdTable.alloc, hfree, Option.map_none, true_and, forall_const]
      unfold askLocked
      by_cases hsilent : (contact (k + 1)).Silent
      · rw [if_pos (request_eq_nil.2 hsilent)]
        cases hdrop : ask (service (k + 1)) with
        | none =>
          rw [ask_eq_none] at hdrop
          simpa [hdrop] using not_good_none
        | some _ =>
          rw [overflows_eq_false hdrop, Option.bind_some]
          cases hclose : ask (service (k + 2)) with
          | none =>
            rw [ask_eq_none] at hclose
            simpa [hclose] using not_good_none
          | some _ =>
            rw [overflows_eq_false hclose]
            exact iff_of_true ⟨ENOSYS, t, rfl, .inr (by decide)⟩ ⟨hsilent, rfl, rfl⟩
      · rw [if_neg fun hnil => hsilent (request_eq_nil.1 hnil)]
        simpa [hsilent] using not_good_none

/-- an open that asks the service -/
theorem disk_good_iff (t : FdTable) (refs : ℕ) (path : Path) (flags d : ℕ) :
    Good t ((outcome (viaPath path service) d).bind fun
      | (.ok fdRemote, k) => adopt contact service t refs path flags fdRemote k
      | (.error lastErr, _) => some (openAfterError image t path flags lastErr)) ↔
    (viaPath path service d).negative = false ∧
      ((viaPath path service d) matches .answered _ →
        (viaPath path service (d + 1)).overflows = false ∧
        (SlotTable.firstFree fdBase processMaxFds t.entries = none → (contact (d + 2)).Silent ∧
          (service (d + 2)).overflows = false ∧ (service (d + 3)).overflows = false)) := by
  unfold outcome
  cases hreply : viaPath path service d with
  | failed f =>
    -- no reply: an error number or the boot image
    refine iff_of_true ?_ ⟨rfl, by simp⟩
    cases f with
    | noService => exact ⟨_, _, rfl, openFallback_good image t path flags⟩
    | io => exact ⟨ EIO, t, rfl, .inr (by decide)⟩
    | noMailbox => exact ⟨EINVAL, t, rfl, .inr (by decide)⟩
    | badPath => exact ⟨EINVAL, t, rfl, .inr (by decide)⟩
  | answered r =>
    cases hneg : (Reply.answered r).negative with
    | true =>
      refine iff_of_false ?_ (by simp)
      rcases ask_negative hneg with hstop | ⟨e, he, hun⟩
      · rw [hstop]
        exact not_good_none
      · rw [he]
        simp only [Option.map_some, Option.bind_some, openAfterError_unrecognised _ _ _ _ hun]
        exact not_good_unrecognised hun
    | false =>
      rw [ask_answered hneg]
      simp only [Option.map_some, Option.bind_some, true_and, forall_const]
      exact adopt_good_iff contact service t refs path flags r.status.toNat (d + 1)

theorem notFound_negative {reply : Reply} (h : reply.notFound = true) : reply.negative = true := by
  cases reply with
  | failed f => cases h
  | answered r =>
    have hstatus : r.status = -2 := by simpa [Reply.notFound] using h
    simp [Reply.negative, hstatus]

theorem reports_open_iff (s : Setting) (service : ℕ → Reply) (path : Path) (flags : ℕ) :
    Reports s service (.openFile path flags) ↔ Clean s service (.openFile path flags) := by
  rw [Reports, Clean]
  cases htty : isTtyLikePath path with
  | true =>
    refine iff_of_true ⟨?_, nofun⟩ (.inl rfl)
    simp only [openResolvedForPid, htty, if_true]
    exact ⟨_, _, rfl, install_good ..⟩
  | false =>
    cases hwrite : hasWriteIntent flags with
    | true =>
      have hopen : openResolvedForPid s.image s.contact service s.table s.refs path flags =
          openForWriting s.image service s.table path flags := by simp [openResolvedForPid, htty, hwrite]
      simp [hopen, openForWriting_good]
    | false =>
      have hgood := disk_good_iff s.image s.contact service s.table s.refs path flags (decisive (viaPath path service))
      have hopen : openResolvedForPid s.image s.contact service s.table s.refs path flags =
          (outcome (viaPath path service) (decisive (viaPath path service))).bind fun
            | (.ok fdRemote, k) => adopt s.contact service s.table s.refs path flags fdRemote k
            | (.error lastErr, _) => some (openAfterError s.image s.table path flags lastErr) := by
        simp [openResolvedForPid, htty, hwrite, openLoop_eq]
      rw [← hopen] at hgood
      simp only [Bool.false_eq_true, false_or, false_and, true_and, forall_const]
      constructor
      · rintro ⟨hfirst, -⟩
        exact hgood.1 hfirst
      · intro hclean
        refine ⟨hgood.2 hclean, ?_⟩
        intro hmissing
        rw [notFound_negative hmissing] at hclean
        exact absurd hclean.1 nofun

end Open

/-! ## All calls -/

/-- a boot image with one file, and no descriptor in use -/
def oneFile : Setting where
  image := ⟨fun _ => false, fun path => if path = "/hello".toList then some [1, 2, 3] else none, fun _ => none⟩
  table := FdTable.new
  refs := 0
  handle := FileHandle.newRemote 0 0 none 0
  remote := rfl
  contact _ := ⟨true, true, true, 1⟩

/-- every request is answered with -2 -/
def nothingFound : ℕ → Reply := fun _ => .answered ⟨-2, 0, [], by decide, by decide⟩

end SwiftCore.Syscall.FsReplies
