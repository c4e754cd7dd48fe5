/-
Lean model of pipes (`core/syscall/pipe.rs`): a table of `maxPipes` ring buffers with two reference counts each.

`readRefs` and `writeRefs` are documented as the number of descriptors that hold the read and the write end. `allocPipe`
sets both to 1; `closeReadEnd` and `closeWriteEnd` count down and free the table slot when both are 0.
-/
import SwiftCore.Lib.SlotTable
import SwiftCore.Syscall.Types

namespace SwiftCore.Syscall

open Function

def pipeBufSize : ℕ := 65536

def maxPipes : ℕ := 64

structure PipeBuffer where
  buf : ℕ → UInt8
  writePos : ℕ
  readPos : ℕ
  len : ℕ
  readRefs : ℕ
  writeRefs : ℕ

namespace PipeBuffer

def new : PipeBuffer := ⟨fun _ => 0, 0, 0, 0, 0, 0⟩

variable (pb : PipeBuffer)

/-- the loop body of `write_bytes` -/
def writeByte (b : UInt8) : PipeBuffer :=
  { pb with buf := update pb.buf pb.writePos b, writePos := (pb.writePos + 1) % pipeBufSize }

def writeBytes (data : List UInt8) : ℕ × PipeBuffer :=
  let toWrite := min data.length (pipeBufSize - pb.len)
  (toWrite, { (data.take toWrite).foldl writeByte pb with len := pb.len + toWrite })

/-- the bytes `read_bytes` copies out, for a destination of `n` bytes -/
def readBytes (n : ℕ) : List UInt8 × PipeBuffer :=
  let toRead := min n pb.len
  ((List.range toRead).map fun i => pb.buf ((pb.readPos + i) % pipeBufSize),
    { pb with readPos := (pb.readPos + toRead) % pipeBufSize, len := pb.len - toRead })

def isFull : Bool := pb.len = pipeBufSize

/-- the count of one end -/
def refs (write : Bool) : ℕ := if write then pb.writeRefs else pb.readRefs

theorem foldl_writeByte_refs (data : List UInt8) : ∀ pb : PipeBuffer, ∀ e, (data.foldl writeByte pb).refs e = pb.refs e := by
  induction data with
  | nil => intro pb e; rfl
  | cons b data ih =>
    intro pb e
    rw [List.foldl_cons, ih]
    rfl

/-- transferring bytes keeps both counts -/
theorem writeBytes_refs (data : List UInt8) (e : Bool) : (pb.writeBytes data).2.refs e = pb.refs e :=
  foldl_writeByte_refs _ pb e

theorem readBytes_refs (n : ℕ) (e : Bool) : (pb.readBytes n).2.refs e = pb.refs e := rfl

end PipeBuffer

/-- `PIPE_TABLE` -/
def PipeTable := ℕ → Option PipeBuffer

namespace PipeTable

def new : PipeTable := fun _ => none

variable (t : PipeTable)

def set (id : ℕ) (pb : Option PipeBuffer) : PipeTable := update t id pb

/-- `table.get_mut(id)`: out of range is like free -/
def get (id : ℕ) : Option PipeBuffer := if id < maxPipes then t id else none

@[simp] theorem set_set (id : ℕ) (pb pb' : Option PipeBuffer) :
    (t.set id pb).set id pb' = t.set id pb' := update_idem (β := fun _ => Option PipeBuffer) pb pb' t

variable {t : PipeTable} {id : ℕ}

theorem get_set (hid : id < maxPipes) (pb : Option PipeBuffer) (j : ℕ) :
    (t.set id pb).get j = if j = id then pb else t.get j := by
  unfold get set
  rcases eq_or_ne j id with rfl | hj
  · rw [if_pos hid, if_pos rfl]
    exact update_self j pb t
  · rw [if_neg hj]
    congr 1
    exact update_of_ne hj pb t

theorem get_lt {pb : PipeBuffer} (h : t.get id = some pb) : id < maxPipes := by
  unfold get at h
  split_ifs at h with hlt
  exact hlt

def allocPipe (t : PipeTable) : Option (ℕ × PipeTable) :=
  (SlotTable.firstFree 0 maxPipes t).map fun id =>
    (id, t.set id (some { PipeBuffer.new with readRefs := 1, writeRefs := 1 }))

theorem allocPipe_some {t' : PipeTable} (h : t.allocPipe = some (id, t')) :
    id < maxPipes ∧ t.get id = none ∧ t' = t.set id (some { PipeBuffer.new with readRefs := 1, writeRefs := 1 }) := by
  obtain ⟨i, hi, heq⟩ := Option.map_eq_some_iff.1 h
  cases heq
  obtain ⟨-, hlt, hfree⟩ := SlotTable.firstFree_some hi
  exact ⟨hlt, by rw [get, if_pos hlt, hfree], rfl⟩

variable (t)

def closeWriteEnd (id : ℕ) : PipeTable :=
  match t.get id with
  | none => t
  | some pb =>
    let pb := { pb with writeRefs := pb.writeRefs - 1 }
    if pb.readRefs = 0 ∧ pb.writeRefs = 0 then t.set id none else t.set id (some pb)

def closeReadEnd (id : ℕ) : PipeTable :=
  match t.get id with
  | none => t
  | some pb =>
    let pb := { pb with readRefs := pb.readRefs - 1 }
    if pb.readRefs = 0 ∧ pb.writeRefs = 0 then t.set id none else t.set id (some pb)

def pipeWrite (id : ℕ) (data : List UInt8) : Except Errno ℕ × PipeTable :=
  match t.get id with
  | none => (.error .EPIPE, t)
  | some pb =>
    if pb.readRefs = 0 then (.error .EPIPE, t)
    else if pb.isFull then (.error .EAGAIN, t)
    else (.ok (pb.writeBytes data).1, t.set id (some (pb.writeBytes data).2))

/-- one turn of the loop of `pipe_read_blocking` -/
inductive ReadTurn where
  | bytes (data : List UInt8)
  | eof
  | wait
deriving DecidableEq

def pipeReadTurn (id n : ℕ) : ReadTurn × PipeTable :=
  match t.get id with
  | none => (.eof, t)
  | some pb =>
    if 0 < pb.len then (.bytes (pb.readBytes n).1, t.set id (some (pb.readBytes n).2))
    else if pb.writeRefs = 0 then (.eof, t)
    else (.wait, t)

variable {t}

/-- giving back both ends of a pipe just allocated frees its slot -/
theorem close_both (hid : id < maxPipes) (j : ℕ) :
    (((t.set id (some { PipeBuffer.new with readRefs := 1, writeRefs := 1 })).closeReadEnd id).closeWriteEnd id).get j =
      if j = id then none else t.get j := by
  have hread : (t.set id (some { PipeBuffer.new with readRefs := 1, writeRefs := 1 })).closeReadEnd id =
      t.set id (some { PipeBuffer.new with writeRefs := 1 }) := by
    simp [closeReadEnd, get_set hid, PipeBuffer.new]
  have hwrite : (t.set id (some { PipeBuffer.new with writeRefs := 1 })).closeWriteEnd id = t.set id none := by
    simp [closeWriteEnd, get_set hid, PipeBuffer.new]
  rw [hread, hwrite, get_set hid]

end PipeTable

end SwiftCore.Syscall
