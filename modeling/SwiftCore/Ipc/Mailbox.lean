/-
Lean model of the kernel mailbox (`core/syscall/ipc.rs`, `Message` and `Mailbox`).

A mailbox holds at most `mailboxCap` messages in numbered slots. A slot number is at any time in one of two places:
- the stack `free[0 .. freeCount)` of unused slots;
- the ring `queue[head .. head + count)` of queued messages, in arrival order.
`alloc_slot` and `dequeue_slot` take a number out of its place, `free_slot` and `enqueue_slot` put one back; between the
two the number lives in a local variable of the operation. `free_slot` wipes the whole mailbox (`quarantine`) when it
finds the numbers inconsistent.

Arrays are functions of the index; the invariant of `Ipc.Invariant` shows that every index used is in range. `faults` is
the only field the source does not have: it records the branches that the source takes for corruption (the audit entry
of a quarantine, a failed `enqueue_slot`), so that "never taken" can be said of a run. A quarantine does not clear it.

The two pop loops return the message they took out of its slot; `copyOut` is what the caller's buffer and result then
are. (If `free_slot` quarantines, the source has filled the buffer already and returns `None`; no run gets there.)
-/
import SwiftCore.Lib.Ring

namespace SwiftCore.Ipc

open Function

def mailboxCap : ℕ := 64

def maxMsgSize : ℕ := 4128

def maxExtPages : ℕ := 128

/-! ## Messages -/

structure Message where
  fromTid : ℕ
  toTid : ℕ
  toSlot : ℕ
  toGeneration : ℕ
  len : ℕ
  data : ℕ → UInt8
  extPagesCount : ℕ
  /-- physical page frame addresses -/
  extPages : ℕ → ℕ

def Message.empty : Message := ⟨0, 0, 0, 0, 0, fun _ => 0, 0, fun _ => 0⟩

/-- `dst[off .. off + src.len()].copy_from_slice(src)` -/
def copyInto {β : Type} (dst : ℕ → β) (off : ℕ) (src : List β) : ℕ → β :=
  fun i => if i < off then dst i else src.getD (i - off) (dst i)

/-- `to_le_bytes` of an integer of `n` bytes -/
def leBytes (n v : ℕ) : List UInt8 := (List.range n).map fun i => UInt8.ofNat (v / 256 ^ i)

/-- the destination written into a message: thread, its slot and the slot's generation -/
structure Addr where
  tid : ℕ
  slot : ℕ
  generation : ℕ
deriving DecidableEq, Repr

variable (m : Message)

def Message.addressedTo (r : Addr) : Prop :=
  m.toTid = r.tid ∧ m.toSlot = r.slot ∧ m.toGeneration = r.generation
  deriving Decidable

variable (sender : ℕ)

/-- the header fields every send writes -/
def Message.setHeader (dest : Addr) : Message :=
  { m with fromTid := sender, toTid := dest.tid, toSlot := dest.slot, toGeneration := dest.generation }

/-- what `push_message` writes into the slot -/
def Message.fill (dest : Addr) (bytes : List UInt8) : Message :=
  { m.setHeader sender dest with
    len := bytes.length, extPagesCount := 0, data := copyInto m.data 0 bytes }

/-- what `send_pages_from_kernel` writes: the page list stays out of `data` -/
def Message.fillPages (dest : Addr) (mapStart total : ℕ) (pages : List ℕ) : Message :=
  { m.setHeader sender dest with
    data := copyInto (copyInto m.data 0 (leBytes 8 mapStart)) 8 (leBytes 8 total)
    len := 16
    extPagesCount := pages.length % 2 ^ 16
    extPages := copyInto m.extPages 0 pages }

def mapHeaderMagic : ℕ := 0xABCDDCBA

/-- what `send_map_header_from_kernel` writes -/
def Message.fillMapHeader (dest : Addr) (mapStart total : ℕ) : Message :=
  { m.setHeader sender dest with
    data := copyInto (copyInto (copyInto m.data 0 (leBytes 4 mapHeaderMagic)) 4 (leBytes 8 mapStart)) 12
      (leBytes 8 total)
    len := 20
    extPagesCount := 0 }

/-- what a send carries: bytes (`send`, `send_from_kernel`), pages, or the header of a mapping -/
inductive Payload where
  | bytes (data : List UInt8)
  | pages (mapStart total : ℕ) (frames : List ℕ)
  | mapHeader (mapStart total : ℕ)

/-- the message a send leaves in a wiped slot -/
def Payload.message (p : Payload) (sender : ℕ) (dest : Addr) : Message :=
  match p with
  | .bytes data => Message.empty.fill sender dest data
  | .pages mapStart total frames => Message.empty.fillPages sender dest mapStart total frames
  | .mapHeader mapStart total => Message.empty.fillMapHeader sender dest mapStart total

/-- the length checks of the sends -/
def Payload.fits : Payload → Bool
  | .bytes data => data.length ≤ maxMsgSize
  | .pages _ _ frames => frames.length ≤ maxExtPages
  | .mapHeader _ _ => true

/-- what a plain receive reports: sender, copied length, page list -/
structure Received where
  fromTid : ℕ
  copyLen : ℕ
  extPagesCount : ℕ
  extPages : ℕ → ℕ

/-- the copy of a message into the receiver's buffer -/
def Message.copyOut (out : List UInt8) : Received × List UInt8 :=
  let copyLen := min m.len out.length
  if 0 < m.extPagesCount ∧ m.len = 0 then (⟨m.fromTid, 0, m.extPagesCount, m.extPages⟩, out)
  else (⟨m.fromTid, copyLen, m.extPagesCount, m.extPages⟩, (List.range copyLen).map m.data ++ out.drop copyLen)

/-! ## The mailbox -/

/-- branches the source takes only on a corrupted mailbox -/
inductive Fault where
  | quarantine (reason : String)
  | enqueueFull
deriving DecidableEq, Repr

structure Mailbox where
  head : ℕ
  tail : ℕ
  count : ℕ
  queue : ℕ → ℕ
  slots : ℕ → Message
  free : ℕ → ℕ
  freeCount : ℕ
  /-- thread asleep for a message (0 = none) -/
  waiter : ℕ
  faults : List Fault

namespace Mailbox

def new : Mailbox := ⟨0, 0, 0, fun _ => 0, fun _ => Message.empty, fun i => i % 256, mailboxCap, 0, []⟩

variable (mb : Mailbox)

def allocSlot : Option ℕ × Mailbox :=
  if mb.freeCount = 0 then (none, mb)
  else (some (mb.free (mb.freeCount - 1)), { mb with freeCount := mb.freeCount - 1 })

/-- `*self = Self::new()` after the audit entry -/
def quarantine (reason : String) : Mailbox :=
  { new with faults := mb.faults ++ [.quarantine reason] }

def freeSlot (idx : ℕ) : Bool × Mailbox :=
  if mailboxCap ≤ idx then
    (false, mb.quarantine "ipc mailbox free list corrupted: slot index out of range")
  else if mailboxCap ≤ mb.freeCount then
    (false, mb.quarantine "ipc mailbox free list corrupted: free_count overflow")
  else if ∃ i < mb.freeCount, mb.free i = idx then
    (false, mb.quarantine "ipc mailbox free list corrupted: double free")
  else
    (true, { mb with
      slots := update mb.slots idx Message.empty
      free := update mb.free mb.freeCount (idx % 256)
      freeCount := mb.freeCount + 1 })

def enqueueSlot (idx : ℕ) : Bool × Mailbox :=
  if mailboxCap ≤ mb.count then (false, { mb with faults := mb.faults ++ [.enqueueFull] })
  else
    (true, { mb with
      queue := update mb.queue mb.tail (idx % 256)
      tail := (mb.tail + 1) % mailboxCap
      count := mb.count + 1 })

def dequeueSlot : Option ℕ × Mailbox :=
  if mb.count = 0 then (none, mb)
  else (some (mb.queue mb.head), { mb with head := (mb.head + 1) % mailboxCap, count := mb.count - 1 })

def setSlot (idx : ℕ) (m : Message) : Mailbox :=
  { mb with slots := update mb.slots idx m }

/-- allocate a slot, write the message into it, enqueue it: the common body of the three sends -/
def pushWith (write : Message → Message) : Bool × Mailbox :=
  match mb.allocSlot with
  | (none, mb) => (false, mb)
  | (some idx, mb) =>
    match (mb.setSlot idx (write (mb.slots idx))).enqueueSlot idx with
    | (false, mb) => (false, (mb.freeSlot idx).2)
    | (true, mb) => (true, mb)

variable (sender : ℕ)

def pushMessage (dest : Addr) (bytes : List UInt8) : Bool × Mailbox :=
  if maxMsgSize < bytes.length then (false, mb)
  else mb.pushWith fun m => m.fill sender dest bytes

def takeWaiter : ℕ × Mailbox := (mb.waiter, { mb with waiter := 0 })

/-- an accepted send also takes the waiter, to wake it -/
def thenTakeWaiter : Bool × Mailbox → Bool × Mailbox
  | (false, mb) => (false, mb)
  | (true, mb) => (true, mb.takeWaiter.2)

/-- `send_pages_from_kernel`, the length check and the locked part -/
def sendPages (dest : Addr) (mapStart total : ℕ) (pages : List ℕ) : Bool × Mailbox :=
  if maxExtPages < pages.length then (false, mb)
  else thenTakeWaiter (mb.pushWith fun m => m.fillPages sender dest mapStart total pages)

/-- `send_map_header_from_kernel`, the locked part -/
def sendMapHeader (dest : Addr) (mapStart total : ℕ) : Bool × Mailbox :=
  thenTakeWaiter (mb.pushWith fun m => m.fillMapHeader sender dest mapStart total)

/-- the locked part of any send, once the destination is known -/
def deliver (dest : Addr) : Payload → Bool × Mailbox
  | .bytes data => thenTakeWaiter (mb.pushMessage sender dest data)
  | .pages mapStart total frames => mb.sendPages sender dest mapStart total frames
  | .mapHeader mapStart total => mb.sendMapHeader sender dest mapStart total

/-- the loop of `pop_valid_for_receiver_copy`: every turn dequeues and frees one slot, so `count` turns are enough -/
def popValidGo (r : Addr) : ℕ → Mailbox → Option Message × Mailbox
  | 0, mb => (none, mb)
  | n + 1, mb =>
    match mb.dequeueSlot with
    | (none, mb) => (none, mb)
    | (some idx, mb) =>
      let m := mb.slots idx
      match mb.freeSlot idx with
      | (false, mb) => (none, mb)
      -- a message for an earlier occupant of the slot is dropped
      | (true, mb) => if m.addressedTo r then (some m, mb) else popValidGo r n mb

def popValid (r : Addr) : Option Message × Mailbox := popValidGo r mb.count mb

def popValidForReceiverCopy (r : Addr) (out : List UInt8) :
    Option Received × List UInt8 × Mailbox :=
  match mb.popValid r with
  | (none, mb) => (none, out, mb)
  | (some m, mb) => (some (m.copyOut out).1, (m.copyOut out).2, mb)

/-- the `for _ in 0..original` loop of `pop_from_sender_copy`: a message that does not match goes to the back -/
def popFromSenderGo (sender : ℕ) (r : Addr) : ℕ → Mailbox → Option Message × Mailbox
  | 0, mb => (none, mb)
  | n + 1, mb =>
    match mb.dequeueSlot with
    | (none, mb) => (none, mb)
    | (some idx, mb) =>
      let m := mb.slots idx
      if m.fromTid = sender ∧ m.addressedTo r then
        match mb.freeSlot idx with
        | (false, mb) => (none, mb)
        | (true, mb) => (some m, mb)
      else
        match mb.enqueueSlot idx with
        | (false, mb) => (none, (mb.freeSlot idx).2)
        | (true, mb) => popFromSenderGo sender r n mb

def popFromSender (r : Addr) : Option Message × Mailbox :=
  if mb.count = 0 then (none, mb) else popFromSenderGo sender r mb.count mb

def popFromSenderCopy (r : Addr) (out : List UInt8) :
    Option (ℕ × ℕ) × List UInt8 × Mailbox :=
  match mb.popFromSender sender r with
  | (none, mb) => (none, out, mb)
  | (some m, mb) =>
    let copyLen := min m.len out.length
    (some (m.fromTid, copyLen), (List.range copyLen).map m.data ++ out.drop copyLen, mb)

end Mailbox

end SwiftCore.Ipc
