/-
The block device of the fs service (services/fs/src/disk_device.rs) over the kernel's mailboxes.

A read or a write of a sector sends one request to the disk service and then polls the mailbox of the fs thread, which
also receives what other threads send to the fs service; neither requests nor replies carry a tag. The wait is meant to
go on while there is no message, but it looks for a sentinel that the library's `ipc_recv` never returns: it reports an
empty mailbox as `(0, 0)`.

Actors, all through `step`, interleaved arbitrarily:
- the fs thread: a call of the device, a pass of the wait, and between calls a receive of the main loop;
- the disk service: it answers its requests once each and in order, any time later, with success or an error;
- other threads, which send anything.

Results:
- `waitPass_stops`: no pass of the wait goes on to another one.
- `right_iff_prompt`: every call in a run returns what the disk answered to it, and no wait takes a message of another
  thread, exactly when every pass of a wait finds the reply in front of the mailbox.
- `next_sector_stale`: a reply that comes after the first pass is what the next read returns.
-/
import SwiftCore.Ipc.Invariant
import SwiftCore.Lib.Bytes
import SwiftCore.Syscall.Types

namespace SwiftCore.Services.DiskDevice

open Run Ipc Syscall Function

/-! ## Requests and replies -/

abbrev Sector := Vector UInt8 512

inductive DiskOp where
  | read | write
  deriving DecidableEq, Repr

/-- `DiskRequest`; `count` is always 1 -/
structure DiskRequest where
  op : DiskOp
  diskId : ℕ
  lba : ℕ
  data : Sector

/-- `DiskResponse` -/
structure DiskResponse where
  status : UInt64
  len : UInt64
  data : Sector

def responseSize : ℕ := 528

/-- the `repr(C)` layout -/
def DiskResponse.toBytes (resp : DiskResponse) : List UInt8 :=
  Bytes.leBytes 8 resp.status.toNat ++ Bytes.leBytes 8 resp.len.toNat ++ resp.data.toList

/-- `status` of the response in a buffer -/
def statusOf (buf : List UInt8) : ℕ := Bytes.field buf 0 8

/-- `data` of the response in a buffer -/
def dataOf (buf : List UInt8) : List UInt8 := (buf.drop 16).take 512

/-- the drive of the disk service: what it does for a request if the hardware reports `status` -/
def perform (disk : ℕ → ℕ → Sector) (req : DiskRequest) (status : UInt64) : DiskResponse × (ℕ → ℕ → Sector) :=
  if status ≠ 0 then (⟨status, 0, Vector.replicate 512 0⟩, disk)
  else
    match req.op with
    | .read => (⟨0, 512, disk req.diskId req.lba⟩, disk)
    | .write => (⟨0, 0, Vector.replicate 512 0⟩,
        update disk req.diskId (update (disk req.diskId) req.lba req.data))

/-! ## Receiving -/

/-- an error number as the system call returns it -/
def errnoWord : Errno → ℕ
  | .EPERM => 2 ^ 64 - 1
  | .ESRCH => 2 ^ 64 - 3
  | .EBADF => 2 ^ 64 - 9
  | .EAGAIN => 2 ^ 64 - 11
  | .ENOMEM => 2 ^ 64 - 12
  | .EFAULT => 2 ^ 64 - 14
  | .EINVAL => 2 ^ 64 - 22
  | .EMFILE => 2 ^ 64 - 24
  | .EPIPE => 2 ^ 64 - 32
  | .ENOSYS => 2 ^ 64 - 38

/-- what `recv` makes of a message it took, whose bytes `copied` has over those of the caller's buffer `buf`: the returned
word and the buffer. `mapping` is what `map_external_pages_for_receiver` returns for a message that carries pages. -/
def hand (mapping : Except Errno ℕ) (buf : List UInt8) (got : Received) (copied : List UInt8) : ℕ × List UInt8 :=
  if got.extPagesCount = 0 then (got.fromTid * 2 ^ 32 % 2 ^ 64 + got.copyLen, copied)
  else if got.copyLen < 16 then (errnoWord .EFAULT, buf)
  else
    match mapping with
    | .error e => (errnoWord e, buf)
    | .ok addr =>
      (got.fromTid * 2 ^ 32 % 2 ^ 64 + 16, Bytes.leBytes 8 addr ++ (copied.drop 8).take 8 ++ buf.drop 16)

/-- `recv` into a mapped buffer -/
def recv (mb : Mailbox) (r : Addr) (mapping : Except Errno ℕ) (buf : List UInt8) : (ℕ × List UInt8) × Mailbox :=
  match mb.popValidForReceiverCopy r buf with
  | (none, buf, mb) => ((errnoWord .EAGAIN, buf), mb)
  | (some got, copied, mb) => (hand mapping buf got copied, mb)

/-- the library's `ipc_recv`: sender and length, `(0, 0)` for every error -/
def ipcRecv (ret : ℕ) : ℕ × ℕ := if 2 ^ 63 ≤ ret then (0, 0) else (ret / 2 ^ 32, ret % 2 ^ 32)

/-- the test by which the wait goes on -/
def isSentinel (got : ℕ × ℕ) : Bool := got.1 = 0xFFFFFFFF ∨ got.2 = 0xFFFFFFFD

/-! ## The device -/

/-- `VfsError`, the cases of this device -/
inductive VfsError where
  | invalidArgument | ioError
  deriving DecidableEq, Repr

/-- the device, and the address of the fs thread that uses it -/
structure Device where
  diskServicePid : ℕ
  diskId : ℕ
  self : Addr

/-- a call that waits for its reply -/
structure Call where
  /-- calls are numbered; the code has no such number -/
  number : ℕ
  request : DiskRequest
  /-- the caller's buffer -/
  buf : List UInt8
  respBuf : List UInt8

structure Return where
  call : Call
  /-- the request was sent -/
  sent : Bool
  result : Except VfsError Unit
  /-- the caller's buffer afterwards -/
  buf : List UInt8

/-- the sector a call writes, zeros for a read -/
def requestData (op : DiskOp) (buf : List UInt8) : Sector :=
  match op with
  | .read => Vector.replicate 512 0
  | .write => Vector.ofFn fun i => buf.getD i 0

variable (dev : Device)

/-- the end of `read_sector` and of `write_sector`, with what `ipc_recv` returned -/
def conclude (call : Call) (got : ℕ × ℕ) (respBuf : List UInt8) : Return :=
  if got.1 ≠ dev.diskServicePid ∨ got.2 < responseSize then ⟨call, true, .error .ioError, call.buf⟩
  else if statusOf respBuf ≠ 0 then ⟨call, true, .error .ioError, call.buf⟩
  else
    match call.request.op with
    | .read => ⟨call, true, .ok (), dataOf respBuf ++ call.buf.drop 512⟩
    | .write => ⟨call, true, .ok (), call.buf⟩

/-- one pass of the wait: the call goes on waiting, or returns -/
def waitPass (call : Call) (word : ℕ) (respBuf : List UInt8) : Call ⊕ Return :=
  if isSentinel (ipcRecv word) then .inl { call with respBuf } else .inr (conclude dev call (ipcRecv word) respBuf)

/-! ## The system -/

/-- an answer to `request`, with the requested sector as it was when the request had been carried out -/
structure Answer where
  request : DiskRequest
  response : DiskResponse
  sector : Sector

structure World where
  /-- of the fs thread -/
  mb : Mailbox
  /-- the sectors, by disk and number -/
  disk : ℕ → ℕ → Sector
  /-- what the disk service has not answered, with the numbers of the calls -/
  requests : List (ℕ × DiskRequest)
  /-- by number of the call -/
  answers : ℕ → Option Answer
  calls : ℕ
  waiting : Option Call
  returned : List Return
  /-- messages that the waits took out of the mailbox -/
  taken : List Message

inductive Op where
  /-- `read_block` or `write_block`; `accepted` is whether `ipc_send` returned 0 -/
  | call (op : DiskOp) (lba : ℕ) (buf : List UInt8) (accepted : Bool)
  | poll (mapping : Except Errno ℕ)
  | answer (status : UInt64)
  | send (sender : ℕ) (payload : Payload)
  /-- a receive of the main loop -/
  | mainLoop

/-- the start of a call, up to the wait -/
def startCall (w : World) (op : DiskOp) (lba : ℕ) (buf : List UInt8) (accepted : Bool) : World :=
  let request : DiskRequest := ⟨op, dev.diskId, lba, requestData op buf⟩
  let call : Call := ⟨w.calls, request, buf, List.replicate responseSize 0⟩
  if buf.length < 512 then
    { w with calls := w.calls + 1, returned := w.returned ++ [⟨call, false, .error .invalidArgument, buf⟩] }
  else if accepted = false then
    { w with calls := w.calls + 1, returned := w.returned ++ [⟨call, false, .error .ioError, buf⟩] }
  else
    { w with calls := w.calls + 1, requests := w.requests ++ [(w.calls, request)], waiting := some call }

/-- one pass of the wait of `call` -/
def poll (w : World) (call : Call) (mapping : Except Errno ℕ) : World :=
  let got := recv w.mb dev.self mapping call.respBuf
  let w := { w with mb := got.2, taken := w.taken ++ (w.mb.popValid dev.self).1.toList }
  match waitPass dev call got.1.1 got.1.2 with
  | .inl call => { w with waiting := some call }
  | .inr ret => { w with waiting := none, returned := w.returned ++ [ret] }

/-- the disk service answers its oldest request; an answer that finds the mailbox full is given later -/
def answer (w : World) (status : UInt64) : World :=
  match w.requests with
  | [] => w
  | (number, req) :: rest =>
    let done := perform w.disk req status
    match w.mb.deliver dev.diskServicePid dev.self (.bytes done.1.toBytes) with
    | (false, _) => w
    | (true, mb) =>
      { w with
        mb, disk := done.2, requests := rest
        answers := update w.answers number (some ⟨req, done.1, done.2 req.diskId req.lba⟩) }

def step (w : World) : Op → World
  | .call op lba buf accepted => if w.waiting.isSome then w else startCall dev w op lba buf accepted
  | .poll mapping =>
    match w.waiting with
    | none => w
    | some call => poll dev w call mapping
  | .answer status => answer dev w status
  | .send sender payload =>
    -- the disk service itself sends only answers
    if sender = dev.diskServicePid then w else { w with mb := (w.mb.deliver sender dev.self payload).2 }
  | .mainLoop => if w.waiting.isSome then w else { w with mb := (w.mb.popValid dev.self).2 }

/-! ## What a run should keep -/

/-- success means that the disk service confirmed the request, for a read with the sector in the buffer -/
def Answer.Confirms (a : Answer) (ret : Return) : Prop :=
  a.response.status = 0 ∧
    match ret.call.request.op with
    | .read => ret.buf = a.sector.toList ++ ret.call.buf.drop 512
    | .write => a.sector = ret.call.request.data

/-- a call returns what the disk service answered to it, and not before -/
structure Right (w : World) (ret : Return) : Prop where
  sent_of_ok : ret.result = .ok () → ret.sent = true
  answered : ret.sent = true → ∃ a, w.answers ret.call.number = some a ∧ a.request = ret.call.request ∧
    (ret.result = .ok () → a.Confirms ret) ∧
    -- the word that `recv` returns has 31 bits for the sender
    (dev.diskServicePid < 2 ^ 31 → a.response.status = 0 → ret.result = .ok ())

/-- every call returned what it should, and the waits took replies only -/
structure Sound (w : World) : Prop where
  returned : ∀ ret ∈ w.returned, Right dev w ret
  taken : ∀ m ∈ w.taken, m.fromTid = dev.diskServicePid

/-- the message the next receive of the fs thread takes -/
def first (w : World) : Option Message := w.mb.contents.find? fun m => m.addressedTo dev.self

/-- a pass of the wait finds the reply in front of the mailbox -/
def Prompt (w : World) : Op → Prop
  | .poll _ => w.waiting.isSome → ∃ m, first dev w = some m ∧ m.fromTid = dev.diskServicePid
  | _ => True

/-- before the first call: the disk service has nothing to answer and nothing of it is in the mailbox -/
structure Started (w : World) : Prop where
  mb : w.mb.Inv
  unsent : ∀ m ∈ w.mb.contents, m.fromTid ≠ dev.diskServicePid
  requests : w.requests = []
  answers : ∀ n, w.answers n = none
  waiting : w.waiting = none
  returned : w.returned = []
  taken : w.taken = []

/-! ## Receiving -/

variable {dev : Device} {w : World} {call : Call} {a : Answer}

theorem le_errnoWord (e : Errno) : 2 ^ 63 ≤ errnoWord e := by
  cases e <;> decide

/-- the word of a received message, as `ipc_recv` reads it -/
theorem ipcRecv_word {sender len : ℕ} (hlen : len < 2 ^ 32) :
    ipcRecv (sender * 2 ^ 32 % 2 ^ 64 + len) = if sender % 2 ^ 32 < 2 ^ 31 then (sender % 2 ^ 32, len) else (0, 0) := by
  have hword : sender * 2 ^ 32 % 2 ^ 64 = sender % 2 ^ 32 * 2 ^ 32 := by omega
  have hlt : sender % 2 ^ 32 < 2 ^ 32 := Nat.mod_lt _ (by norm_num)
  rw [ipcRecv, hword]
  by_cases h : sender % 2 ^ 32 < 2 ^ 31
  · have hsender : (sender % 2 ^ 32 * 2 ^ 32 + len) / 2 ^ 32 = sender % 2 ^ 32 := by
      rw [Nat.mul_comm, Nat.mul_add_div (by norm_num), Nat.div_eq_of_lt hlen, Nat.add_zero]
    have hlength : (sender % 2 ^ 32 * 2 ^ 32 + len) % 2 ^ 32 = len := by
      rw [Nat.mul_comm, Nat.mul_add_mod, Nat.mod_eq_of_lt hlen]
    rw [if_pos h, if_neg (by omega), hsender, hlength]
  · rw [if_neg h, if_pos (by omega)]

theorem isSentinel_zero : isSentinel (0, 0) = false := by simp [isSentinel]

/-- errors become `(0, 0)`, so only the length of a message could be taken for the sentinel -/
theorem not_isSentinel {word : ℕ} (h : word < 2 ^ 63 → word % 2 ^ 32 ≠ 0xFFFFFFFD) :
    isSentinel (ipcRecv word) = false := by
  unfold ipcRecv
  split_ifs with hneg
  · exact isSentinel_zero
  · have hlen := h (by omega)
    simp only [isSentinel, decide_eq_false_iff_not]
    omega

theorem hand_length {mapping : Except Errno ℕ} {got : Received} {buf copied : List UInt8}
    (h : got.copyLen ≤ responseSize) (hpos : (hand mapping buf got copied).1 < 2 ^ 63) :
    (hand mapping buf got copied).1 % 2 ^ 32 ≠ 0xFFFFFFFD := by
  have herr : ∀ e, ¬ errnoWord e < 2 ^ 63 := fun e => Nat.not_lt.2 (le_errnoWord e)
  unfold responseSize at h
  unfold hand at hpos ⊢
  by_cases hpages : got.extPagesCount = 0
  · rw [if_pos hpages]
    dsimp only
    omega
  rw [if_neg hpages] at hpos ⊢
  by_cases hshort : got.copyLen < 16
  · rw [if_pos hshort] at hpos
    exact absurd hpos (herr .EFAULT)
  rw [if_neg hshort] at hpos ⊢
  cases mapping with
  | error e => exact absurd hpos (herr e)
  | ok addr =>
    dsimp only
    omega

/-- a receive is the pop of the first message and the hand-over of what it carried -/
theorem recv_eq {mb : Mailbox} (h : mb.Inv) (r : Addr) (mapping : Except Errno ℕ) (buf : List UInt8) :
    recv mb r mapping buf =
      (match mb.contents.find? (fun m => m.addressedTo r) with
        | none => (errnoWord .EAGAIN, buf)
        | some m => hand mapping buf (m.copyOut buf).1 (m.copyOut buf).2, (mb.popValid r).2) := by
  obtain ⟨mb', hpop, -⟩ := Mailbox.popValid_spec h r
  rw [recv, Mailbox.popValidForReceiverCopy, hpop]
  cases mb.contents.find? (fun m => m.addressedTo r) with
  | none => rfl
  | some m => rfl

theorem copyLen_le (m : Message) (buf : List UInt8) : (m.copyOut buf).1.copyLen ≤ buf.length := by
  unfold Message.copyOut
  split_ifs
  · exact Nat.zero_le _
  · exact min_le_right _ _

/-- **The wait does not wait.** Whatever is in the mailbox, the first pass of the wait is its last one. -/
theorem waitPass_stops {mb : Mailbox} (h : mb.Inv) (dev : Device) (call : Call) (mapping : Except Errno ℕ)
    (hbuf : call.respBuf.length = responseSize) :
    waitPass dev call (recv mb dev.self mapping call.respBuf).1.1 (recv mb dev.self mapping call.respBuf).1.2 =
      .inr (conclude dev call (ipcRecv (recv mb dev.self mapping call.respBuf).1.1)
        (recv mb dev.self mapping call.respBuf).1.2) := by
  have hgo : isSentinel (ipcRecv (recv mb dev.self mapping call.respBuf).1.1) = false := by
    apply not_isSentinel
    rw [recv_eq h]
    cases mb.contents.find? (fun m => m.addressedTo dev.self) with
    | none => exact fun hpos => absurd hpos (Nat.not_lt.2 (le_errnoWord .EAGAIN))
    | some m => exact hand_length (hbuf ▸ copyLen_le m call.respBuf)
  rw [waitPass, hgo]
  rfl

/-! ## The reply -/

theorem map_copyInto {β : Type} (dst : ℕ → β) (l : List β) : (List.range l.length).map (copyInto dst 0 l) = l := by
  apply List.ext_getElem
  · simp
  · intro i _ hi
    simp [copyInto, hi]

variable (resp : DiskResponse)

theorem length_toBytes : resp.toBytes.length = responseSize := by
  simp [DiskResponse.toBytes, responseSize]

theorem statusOf_toBytes : statusOf resp.toBytes = resp.status.toNat := by
  have hlt : resp.status.toNat < 256 ^ 8 := resp.status.toNat_lt
  rw [statusOf, Bytes.field, DiskResponse.toBytes, List.drop_zero, List.append_assoc,
    List.take_left' (Bytes.length_leBytes 8 _), Bytes.ofLe_leBytes, Nat.mod_eq_of_lt hlt]

theorem dataOf_toBytes : dataOf resp.toBytes = resp.data.toList := by
  have hhead : (Bytes.leBytes 8 resp.status.toNat ++ Bytes.leBytes 8 resp.len.toNat).length = 16 := by simp
  rw [dataOf, DiskResponse.toBytes, List.drop_left' hhead, List.take_of_length_le (by simp)]

/-- the message that brings an answer -/
def Answer.message (dev : Device) (a : Answer) : Message :=
  (Payload.bytes a.response.toBytes).message dev.diskServicePid dev.self

theorem copyOut_message (a : Answer) {buf : List UInt8} (h : buf.length = responseSize) :
    ((a.message dev).copyOut buf).2 = a.response.toBytes ∧
      ((a.message dev).copyOut buf).1.extPagesCount = 0 ∧
      ((a.message dev).copyOut buf).1.fromTid = dev.diskServicePid ∧
      ((a.message dev).copyOut buf).1.copyLen = responseSize := by
  have hlen : (a.message dev).len = responseSize := length_toBytes a.response
  have hdata : (a.message dev).data = copyInto (fun _ => 0) 0 a.response.toBytes := rfl
  have hext : (a.message dev).extPagesCount = 0 := rfl
  rw [Message.copyOut, if_neg (by rw [hext]; simp), hlen, h, min_self, hdata]
  refine ⟨?_, hext, rfl, rfl⟩
  have hmap := map_copyInto (fun _ => 0) a.response.toBytes
  rw [length_toBytes] at hmap
  rw [hmap, List.drop_of_length_le (by rw [h]), List.append_nil]

/-- what `perform` promises of the answer to a request -/
structure Answer.Serves (a : Answer) (req : DiskRequest) : Prop where
  request : a.request = req
  read : a.response.status = 0 → req.op = .read → a.response.data = a.sector
  write : a.response.status = 0 → req.op = .write → a.sector = req.data

theorem serves_perform (disk : ℕ → ℕ → Sector) (req : DiskRequest) (status : UInt64) :
    Answer.Serves ⟨req, (perform disk req status).1, (perform disk req status).2 req.diskId req.lba⟩ req := by
  unfold perform
  split_ifs with hs
  · exact ⟨rfl, fun h => absurd h hs, fun h => absurd h hs⟩
  · cases hop : req.op with
    | read => exact ⟨rfl, fun _ _ => rfl, fun _ h => by simp [hop] at h⟩
    | write => exact ⟨rfl, fun _ h => by simp [hop] at h, fun _ _ => by simp⟩

@[simp] theorem conclude_call (dev : Device) (call : Call) (got : ℕ × ℕ) (buf : List UInt8) :
    (conclude dev call got buf).call = call := by
  unfold conclude
  split_ifs
  · rfl
  · rfl
  · cases call.request.op <;> rfl

@[simp] theorem conclude_sent (dev : Device) (call : Call) (got : ℕ × ℕ) (buf : List UInt8) :
    (conclude dev call got buf).sent = true := by
  unfold conclude
  split_ifs
  · rfl
  · rfl
  · cases call.request.op <;> rfl

/-- a reply whose sender and length are read as they are is returned, status and data -/
theorem conclude_reply (resp : DiskResponse) (call : Call) :
    let ret := conclude dev call (dev.diskServicePid, responseSize) resp.toBytes
    (ret.result = .ok () ↔ resp.status = 0) ∧
      (resp.status = 0 → call.request.op = .read → ret.buf = resp.data.toList ++ call.buf.drop 512) := by
  have hstatus : resp.status.toNat = 0 ↔ resp.status = 0 := by
    rw [← UInt64.toNat_inj]
    rfl
  unfold conclude
  rw [if_neg (by simp), statusOf_toBytes, dataOf_toBytes]
  by_cases hs : resp.status = 0
  · rw [if_neg (by simp [hs])]
    cases hop : call.request.op with
    | read => exact ⟨⟨fun _ => hs, fun _ => rfl⟩, fun _ _ => rfl⟩
    | write => exact ⟨⟨fun _ => hs, fun _ => rfl⟩, fun _ h => nomatch h⟩
  · rw [if_pos (by rwa [Ne, hstatus])]
    exact ⟨⟨fun h => (nomatch h), fun h => absurd h hs⟩, fun h => absurd h hs⟩

/-- the word of a reply is read as it is, or the call fails -/
theorem reply_word (call : Call) (buf : List UInt8) :
    (dev.diskServicePid < 2 ^ 31 ∧
      ipcRecv (dev.diskServicePid * 2 ^ 32 % 2 ^ 64 + responseSize) = (dev.diskServicePid, responseSize)) ∨
    (2 ^ 31 ≤ dev.diskServicePid ∧ (conclude dev call
      (ipcRecv (dev.diskServicePid * 2 ^ 32 % 2 ^ 64 + responseSize)) buf).result = .error .ioError) := by
  rw [ipcRecv_word (by decide)]
  by_cases hpid : dev.diskServicePid < 2 ^ 31
  · have hmod : dev.diskServicePid % 2 ^ 32 = dev.diskServicePid := Nat.mod_eq_of_lt (by omega)
    exact .inl ⟨hpid, by rw [hmod, if_pos hpid]⟩
  · refine .inr ⟨Nat.not_lt.1 hpid, ?_⟩
    have hother : ∀ got : ℕ × ℕ, got.1 ≠ dev.diskServicePid ∨ got.2 < responseSize →
        (conclude dev call got buf).result = .error .ioError := by
      intro got hgot
      rw [conclude, if_pos hgot]
    apply hother
    split_ifs with hlow
    · exact .inl (by dsimp only; omega)
    · exact .inr (by decide)

/-- the call whose reply is taken returns what it should -/
theorem right_conclude (hserves : a.Serves call.request) (hanswer : w.answers call.number = some a)
    (mapping : Except Errno ℕ) (hbuf : call.respBuf.length = responseSize) {got : ℕ × List UInt8}
    (hgot : got = hand mapping call.respBuf ((a.message dev).copyOut call.respBuf).1
      ((a.message dev).copyOut call.respBuf).2) :
    Right dev w (conclude dev call (ipcRecv got.1) got.2) := by
  obtain ⟨hbytes, hext, hfrom, hlen⟩ := @copyOut_message dev a _ hbuf
  have hreply : got = (dev.diskServicePid * 2 ^ 32 % 2 ^ 64 + responseSize, a.response.toBytes) := by
    simp [hgot, hand, hext, hfrom, hlen, hbytes]
  subst hreply
  refine ⟨fun _ => conclude_sent dev call _ _, fun _ => ⟨a, by simpa using hanswer, by simpa using hserves.request, ?_⟩⟩
  rcases @reply_word dev call a.response.toBytes with ⟨hpid, hword⟩ | ⟨hpid, hfails⟩
  · obtain ⟨hok, hdata⟩ := @conclude_reply dev a.response call
    dsimp only
    rw [hword]
    refine ⟨fun h => ⟨hok.1 h, ?_⟩, fun _ h => hok.2 h⟩
    rw [conclude_call]
    cases hop : call.request.op with
    | read =>
      dsimp only
      rw [hdata (hok.1 h) hop, hserves.read (hok.1 h) hop]
    | write => exact hserves.write (hok.1 h) hop
  · dsimp only
    rw [hfails]
    exact ⟨fun h => (nomatch h), fun hlt => absurd hlt (Nat.not_lt.2 hpid)⟩

/-! ## The invariant -/

/-- the replies in the mailbox -/
def replies (dev : Device) (mb : Mailbox) : List Message :=
  mb.contents.filter fun m => Mailbox.Matches dev.diskServicePid dev.self m

/-- where the request of the call in progress is: none, with the disk service, or its reply in the mailbox -/
inductive Stage (dev : Device) (w : World) : Prop where
  | idle (hwait : w.waiting = none) (hreq : w.requests = []) (hrep : replies dev w.mb = [])
  | asked (call : Call) (hwait : w.waiting = some call) (hreq : w.requests = [(call.number, call.request)])
      (hans : w.answers call.number = none) (hrep : replies dev w.mb = [])
  | answered (call : Call) (a : Answer) (hwait : w.waiting = some call) (hreq : w.requests = [])
      (hans : w.answers call.number = some a) (hserves : a.Serves call.request)
      (hrep : replies dev w.mb = [a.message dev])

structure Inv (dev : Device) (w : World) : Prop where
  mb : w.mb.Inv
  fresh : ∀ n, w.calls ≤ n → w.answers n = none
  waits : ∀ call ∈ w.waiting, call.number < w.calls ∧ call.respBuf.length = responseSize
  stage : Stage dev w
  sound : Sound dev w

theorem Started.inv (h : Started dev w) : Inv dev w where
  mb := h.mb
  fresh n _ := h.answers n
  waits call hcall := by simp [h.waiting] at hcall
  stage := .idle h.waiting h.requests (List.filter_eq_nil_iff.2 fun m hm hmatch =>
    h.unsent m hm (by simpa using hmatch : Mailbox.Matches _ _ m).1)
  sound := ⟨fun ret hret => by simp [h.returned] at hret, fun m hm => by simp [h.taken] at hm⟩

theorem message_from (p : Payload) (sender : ℕ) (dest : Addr) : (p.message sender dest).fromTid = sender := by
  cases p <;> rfl

theorem matches_answer (a : Answer) : Mailbox.Matches dev.diskServicePid dev.self (a.message dev) :=
  ⟨rfl, rfl, rfl, rfl⟩

/-- an answer to a call that has none yet changes no verdict on the others -/
theorem Right.update {ret : Return} (h : Right dev w ret) {w' : World} {n : ℕ} (hn : w.answers n = none)
    (hw : w'.answers = update w.answers n (some a)) : Right dev w' ret := by
  refine ⟨h.sent_of_ok, fun hsent => ?_⟩
  obtain ⟨b, hb, hrest⟩ := h.answered hsent
  have hne : ret.call.number ≠ n := by
    rintro rfl
    rw [hn] at hb
    cases hb
  exact ⟨b, by rw [hw, update_of_ne hne, hb], hrest⟩

theorem Right.congr {ret : Return} (h : Right dev w ret) {w' : World} (hw : w'.answers = w.answers) : Right dev w' ret :=
  ⟨h.sent_of_ok, fun hsent => hw ▸ h.answered hsent⟩

/-- a call that was not sent reports an error -/
theorem right_unsent (call : Call) (e : VfsError) (buf : List UInt8) : Right dev w ⟨call, false, .error e, buf⟩ :=
  ⟨fun h => (nomatch h), fun h => (nomatch h)⟩

/-! ## Steps -/

variable (h : Inv dev w)

include h

theorem inv_startCall (hwait : w.waiting = none) (op : DiskOp) (lba : ℕ) (buf : List UInt8)
    (accepted : Bool) : Inv dev (startCall dev w op lba buf accepted) := by
  obtain ⟨hreq, hrep⟩ : w.requests = [] ∧ replies dev w.mb = [] := by
    cases h.stage with
    | idle _ hreq hrep => exact ⟨hreq, hrep⟩
    | asked call hw => cases hwait.symm.trans hw
    | answered call a hw => cases hwait.symm.trans hw
  have hfresh : ∀ n, w.calls + 1 ≤ n → w.answers n = none := fun n hn => h.fresh n (by omega)
  -- the two exits before the wait return an error and send nothing
  have hexit : ∀ (call : Call) (e : VfsError), Inv dev
      { w with calls := w.calls + 1, returned := w.returned ++ [⟨call, false, .error e, buf⟩] } := by
    intro call e
    refine ⟨h.mb, hfresh, by simp [hwait], .idle hwait hreq hrep, fun ret hret => ?_, h.sound.taken⟩
    rcases List.mem_append.1 hret with hold | hnew
    · exact (h.sound.returned ret hold).congr rfl
    · rw [List.mem_singleton.1 hnew]
      exact right_unsent call e buf
  unfold startCall
  dsimp only
  split_ifs
  · exact hexit _ _
  · exact hexit _ _
  refine ⟨h.mb, hfresh, ?_, ?_, fun ret hret => (h.sound.returned ret hret).congr rfl, h.sound.taken⟩
  · intro call hcall
    obtain rfl := Option.mem_some_iff.1 hcall
    exact ⟨Nat.lt_succ_self _, List.length_replicate⟩
  · exact .asked _ rfl (by simp [hreq]) (h.fresh _ le_rfl) hrep

theorem inv_send {sender : ℕ} (hs : sender ≠ dev.diskServicePid) (payload : Payload) :
    Inv dev { w with mb := (w.mb.deliver sender dev.self payload).2 } := by
  have hsent := Mailbox.deliver_sent h.mb sender dev.self payload
  have hrep : replies dev (w.mb.deliver sender dev.self payload).2 = replies dev w.mb := by
    rw [replies, hsent.contents]
    split_ifs
    · have hother : ¬ Mailbox.Matches dev.diskServicePid dev.self (payload.message sender dev.self) := by
        intro hmatch
        exact hs ((message_from payload sender dev.self).symm.trans hmatch.1)
      simp [replies, hother]
    · rfl
  refine ⟨hsent.inv, h.fresh, h.waits, ?_, fun ret hret => (h.sound.returned ret hret).congr rfl, h.sound.taken⟩
  cases h.stage with
  | idle hwait hreq hnone => exact .idle hwait hreq (hrep.trans hnone)
  | asked call hwait hreq hans hnone => exact .asked call hwait hreq hans (hrep.trans hnone)
  | answered call a hwait hreq hans hserves hone => exact .answered call a hwait hreq hans hserves (hrep.trans hone)

theorem inv_mainLoop (hwait : w.waiting = none) : Inv dev { w with mb := (w.mb.popValid dev.self).2 } := by
  have hpopped := Mailbox.popValid_popped h.mb dev.self
  refine ⟨hpopped.inv, h.fresh, h.waits, ?_, fun ret hret => (h.sound.returned ret hret).congr rfl, h.sound.taken⟩
  cases h.stage with
  | asked call hw => cases hwait.symm.trans hw
  | answered call a hw => cases hwait.symm.trans hw
  | idle _ hreq hrep =>
    refine .idle hwait hreq (List.filter_eq_nil_iff.2 fun m hm => ?_)
    exact List.filter_eq_nil_iff.1 hrep m (hpopped.subset m hm)

theorem inv_answer (status : UInt64) : Inv dev (answer dev w status) := by
  unfold answer
  cases h.stage with
  | idle _ hreq _ =>
    rw [hreq]
    exact h
  | answered _ _ _ hreq _ _ _ =>
    rw [hreq]
    exact h
  | asked call hwait hreq hans hrep =>
    rw [hreq]
    dsimp only
    set done := perform w.disk call.request status with hdone
    have hsent := Mailbox.deliver_sent h.mb dev.diskServicePid dev.self (.bytes done.1.toBytes)
    generalize w.mb.deliver dev.diskServicePid dev.self (.bytes done.1.toBytes) = res at hsent ⊢
    obtain ⟨_ | _, mb⟩ := res
    · exact h
    dsimp only
    have hnumber := (h.waits call hwait).1
    refine ⟨hsent.inv, fun n hn => ?_, h.waits, ?_, fun ret hret => ?_, h.sound.taken⟩
    · have hne : n ≠ call.number := (hnumber.trans_le hn).ne'
      exact (update_of_ne hne _ _).trans (h.fresh n hn)
    · refine .answered call _ hwait rfl (update_self _ _ _) (serves_perform w.disk call.request status) ?_
      have hcontents : mb.contents = w.mb.contents ++ [_] := hsent.contents
      have hold : w.mb.contents.filter (fun m => Mailbox.Matches dev.diskServicePid dev.self m) = [] := hrep
      have hmatch := @matches_answer dev ⟨call.request, done.1, done.2 call.request.diskId call.request.lba⟩
      rw [replies, hcontents, List.filter_append, hold, List.nil_append]
      exact List.filter_cons_of_pos (decide_eq_true hmatch)
    · exact (h.sound.returned ret hret).update hans rfl

/-- what the one pass of a wait does -/
theorem poll_eq (hwait : w.waiting = some call) (mapping : Except Errno ℕ) : poll dev w call mapping = { w with
      mb := (w.mb.popValid dev.self).2
      taken := w.taken ++ (first dev w).toList
      waiting := none
      returned := w.returned ++ [conclude dev call (ipcRecv (recv w.mb dev.self mapping call.respBuf).1.1)
        (recv w.mb dev.self mapping call.respBuf).1.2] } := by
  obtain ⟨mb', hpop, -⟩ := Mailbox.popValid_spec h.mb dev.self
  rw [poll, waitPass_stops h.mb dev call mapping (h.waits call hwait).2]
  dsimp only
  rw [recv_eq h.mb, hpop]
  rfl

omit h

/-- the replies behind the first message, when that is one itself -/
theorem replies_of_first (h : w.mb.Inv) {m : Message} (hfirst : first dev w = some m)
    (hm : m.fromTid = dev.diskServicePid) : replies dev w.mb = m :: replies dev (w.mb.popValid dev.self).2 := by
  obtain ⟨mb', hpop, -, hrest⟩ := Mailbox.popValid_spec h dev.self
  obtain ⟨haddr, front, rest, hsplit, hfront⟩ := List.find?_eq_some_iff_append.1 hfirst
  have haddr' : m.addressedTo dev.self := by simpa using haddr
  have hfront' : ∀ x ∈ front, ¬ x.addressedTo dev.self := fun x hx => by simpa using hfront x hx
  have hnone : front.filter (fun m => Mailbox.Matches dev.diskServicePid dev.self m) = [] :=
    List.filter_eq_nil_iff.2 fun x hx hmatch => hfront' x hx (of_decide_eq_true hmatch).2
  have hdrop : mb'.contents = rest := by
    rw [hrest, hsplit, List.dropWhile_append_of_pos (by simpa using hfront'),
      List.dropWhile_cons_of_neg (by simpa using haddr')]
    rfl
  rw [hpop, replies, replies, hsplit, hdrop, List.filter_append, hnone, List.nil_append]
  exact List.filter_cons_of_pos (decide_eq_true ⟨hm, haddr'⟩)

theorem inv_poll (h : Inv dev w) (hwait : w.waiting = some call) (mapping : Except Errno ℕ) {m : Message}
    (hfirst : first dev w = some m) (hm : m.fromTid = dev.diskServicePid) : Inv dev (poll dev w call mapping) := by
  have hrep := replies_of_first h.mb hfirst hm
  cases h.stage with
  | idle hw => cases hwait.symm.trans hw
  | asked _ _ _ _ hnone => cases hrep.symm.trans hnone
  | answered c a hw hreq hans hserves hone =>
    cases hwait.symm.trans hw
    obtain ⟨rfl, hgone⟩ := List.cons.inj (hrep.symm.trans hone)
    have hrecv : (recv w.mb dev.self mapping call.respBuf).1 = hand mapping call.respBuf
        ((a.message dev).copyOut call.respBuf).1 ((a.message dev).copyOut call.respBuf).2 := by
      rw [recv_eq h.mb, show w.mb.contents.find? (fun m => m.addressedTo dev.self) = _ from hfirst]
    rw [poll_eq h hwait]
    refine ⟨(Mailbox.popValid_popped h.mb dev.self).inv, h.fresh, by simp, .idle rfl hreq hgone, fun ret hret => ?_,
      fun m hmem => ?_⟩
    · rcases List.mem_append.1 hret with hold | hnew
      · exact (h.sound.returned ret hold).congr rfl
      · rw [List.mem_singleton.1 hnew]
        exact (right_conclude hserves hans mapping (h.waits call hwait).2 hrecv).congr rfl
    · rcases List.mem_append.1 hmem with hold | hnew
      · exact h.sound.taken m hold
      · rw [hfirst] at hnew
        rw [List.mem_singleton.1 hnew]
        exact hm

theorem inv_step (w : World) (op : Op) (h : Inv dev w) (hprompt : Prompt dev w op) : Inv dev (step dev w op) := by
  cases op with
  | call op lba buf accepted =>
    cases hwait : w.waiting with
    | none => simpa [step, hwait] using inv_startCall h hwait op lba buf accepted
    | some c => simpa [step, hwait] using h
  | poll mapping =>
    cases hwait : w.waiting with
    | none => simpa [step, hwait] using h
    | some c =>
      obtain ⟨m, hfirst, hm⟩ := hprompt (by simp [hwait])
      simpa [step, hwait] using inv_poll h hwait mapping hfirst hm
  | answer status => exact inv_answer h status
  | send sender payload =>
    by_cases hs : sender = dev.diskServicePid
    · simpa [step, hs] using h
    · simpa [step, hs] using inv_send h hs payload
  | mainLoop =>
    cases hwait : w.waiting with
    | none => simpa [step, hwait] using inv_mainLoop h hwait
    | some c => simpa [step, hwait] using h

/-- a pass that finds no reply in front goes wrong at once -/
theorem prompt_of_sound (w : World) (op : Op) (h : Inv dev w) (hsound : Sound dev (step dev w op)) :
    Prompt dev w op := by
  cases op with
  | poll mapping =>
    intro hsome
    obtain ⟨call, hwait⟩ := Option.isSome_iff_exists.1 hsome
    have hstep : step dev w (.poll mapping) = poll dev w call mapping := by
      rw [step, hwait]
    rw [hstep, poll_eq h hwait mapping] at hsound
    cases hfirst : first dev w with
    | some m =>
      -- what the wait took is the first message
      refine ⟨m, rfl, hsound.taken m ?_⟩
      simp [hfirst]
    | none =>
      -- the call has returned, so it has been answered, and then its reply is in the mailbox
      obtain ⟨b, hb, -⟩ := (hsound.returned _ (List.mem_append_right _ (List.mem_singleton_self _))).answered
        (conclude_sent dev call _ _)
      rw [conclude_call] at hb
      cases h.stage with
      | idle hw => cases hwait.symm.trans hw
      | asked c hw _ hans =>
        cases hwait.symm.trans hw
        cases hans.symm.trans hb
      | answered c a hw _ _ _ hone =>
        have hmem : a.message dev ∈ replies dev w.mb := hone ▸ List.mem_singleton_self _
        have hin := (List.mem_filter.1 hmem).1
        exact absurd (decide_eq_true (matches_answer a).2) (List.find?_eq_none.1 hfirst _ hin)
  | _ => trivial

/-- **When the device is right.** From any start, every call returns what the disk service answered to it, no call
returns before its answer, and no wait takes a message of another thread, in all states of a run, exactly when every pass of a
wait finds a reply in front of the mailbox. -/
theorem right_iff_prompt (dev : Device) (w : World) (hw : Started dev w) (ops : List Op) :
    Along (step dev) (Prompt dev) w ops ↔ ∀ past, past <+: ops → Sound dev (run (step dev) w past) :=
  along_iff_good inv_step (fun _ h => h.sound) prompt_of_sound w ops hw.inv

/-! ## Runs -/

/-- a disk whose sectors hold their own numbers -/
def numberedDisk : ℕ → ℕ → Sector := fun _ lba => Vector.replicate 512 (UInt8.ofNat lba)

/-- disk service 5, disk 1, the fs service is thread 7 in slot 2 -/
def secondDisk : Device := ⟨5, 1, ⟨7, 2, 1⟩⟩

def atStart : World := ⟨Mailbox.new, numberedDisk, [], fun _ => none, 0, none, [], []⟩

theorem started_atStart : Started secondDisk atStart where
  mb := Mailbox.inv_new
  unsent m hm := by simp [atStart, Mailbox.contents, Mailbox.queued, Ring.window, Mailbox.new] at hm
  requests := rfl
  answers _ := rfl
  waiting := rfl
  returned := rfl
  taken := rfl

def emptyBuf : List UInt8 := List.replicate 512 0

/-- the reply is there when the wait begins -/
def promptRead : List Op := [.call .read 3 emptyBuf true, .answer 0, .poll (.error .EINVAL)]

theorem prompt_promptRead : Along (step secondDisk) (Prompt secondDisk) atStart promptRead := by
  refine ⟨trivial, trivial, fun _ => ?_, trivial⟩
  apply Option.map_eq_some_iff.1
  decide +kernel

theorem right_promptRead : Started secondDisk atStart ∧ Along (step secondDisk) (Prompt secondDisk) atStart promptRead ∧
    ∀ past, past <+: promptRead → Sound secondDisk (run (step secondDisk) atStart past) :=
  ⟨started_atStart, prompt_promptRead,
    (right_iff_prompt secondDisk atStart started_atStart promptRead).1 prompt_promptRead⟩

/-- sector 1 is asked for and its reply comes late; then sector 2 is asked for -/
def lateReply : List Op :=
  [.call .read 1 emptyBuf true, .poll (.error .EINVAL), .answer 0, .call .read 2 emptyBuf true, .poll (.error .EINVAL),
    .answer 0]

/-- what a return says: number of the call, sector asked for, success, first byte of the buffer -/
def Return.summary (ret : Return) : ℕ × ℕ × Bool × Option UInt8 :=
  (ret.call.number, ret.call.request.lba, match ret.result with | .ok () => true | .error _ => false, ret.buf.head?)

theorem Return.ok_of_summary {ret : Return} (h : ret.summary.2.2.1 = true) : ret.result = .ok () := by
  revert h
  unfold Return.summary
  cases ret.result with
  | error e => exact fun h => nomatch h
  | ok u => exact fun _ => rfl

/-- **One late reply shifts the rest.** The first read fails though its reply was on its way; the second one succeeds
with the sector of the first. -/
theorem next_sector_stale : ¬ Sound secondDisk (run (step secondDisk) atStart lateReply) ∧
    (run (step secondDisk) atStart lateReply).returned.map Return.summary =
      [(0, 1, false, some 0), (1, 2, true, some 1)] ∧
    ((run (step secondDisk) atStart lateReply).answers 1).map (fun a => a.sector.toList.head?) = some (some 2) := by
  have hret : (run (step secondDisk) atStart lateReply).returned.map (fun ret => (ret.summary, ret.call.request.op)) =
      [((0, 1, false, some 0), .read), ((1, 2, true, some 1), .read)] := by decide +kernel
  have hans : ((run (step secondDisk) atStart lateReply).answers 1).map (fun a => a.sector.toList.head?) =
      some (some 2) := by decide +kernel
  refine ⟨fun hsound => ?_, ?_, hans⟩
  swap
  · have hfst := congrArg (List.map Prod.fst) hret
    rwa [List.map_map] at hfst
  obtain ⟨ret, hmem, hsummary⟩ := List.mem_map.1 (hret ▸ List.mem_cons_of_mem _ (List.mem_singleton_self _))
  obtain ⟨hfields, hop⟩ := Prod.mk.inj hsummary
  have hok : ret.result = .ok () := Return.ok_of_summary (by rw [hfields])
  obtain ⟨a, ha, -, hconfirms, -⟩ := (hsound.returned ret hmem).answered ((hsound.returned ret hmem).sent_of_ok hok)
  have hnumber : ret.call.number = 1 := congrArg Prod.fst hfields
  have hhead : ret.buf.head? = some 1 := congrArg (fun x => x.2.2.2) hfields
  rw [hnumber] at ha
  have hsector : a.sector.toList.head? = some 2 := by simpa [ha] using hans
  have hbuf := (hconfirms hok).2
  rw [hop] at hbuf
  rw [hbuf, List.head?_append, hsector, Option.some_or] at hhead
  exact absurd hhead (by decide)

end SwiftCore.Services.DiskDevice
