/-
The bytes of a pipe (core/syscall/pipe.rs: write_bytes, read_bytes, pipe_write, the turns of pipe_read_blocking).

The loops are written out with every index and every subtraction checked; `none` is a panic. Threads write and read one
pipe in any order, with buffers of any size, and close its ends.
- `writeBytes_eq`, `readBytes_eq`: on a ring that is in order the loops do not panic and compute what the closed forms of
  `Syscall.Pipe` say.
- `Flow.write`, `Flow.take`: a write appends to the content of the ring, a read takes from its front.
- `pipe_stream`: in every run nothing panics, what was read is an initial part of what was written, and the ring holds the
  rest.
-/
import SwiftCore.Lib.Ring
import SwiftCore.Lib.Run
import SwiftCore.Syscall.Pipe

namespace SwiftCore.Syscall.PipeStream

open Run SwiftCore.Ring

/-! ## The loops -/

/-- the loop of `write_bytes`: `n` more bytes, from `data[i]` on -/
def writeLoop (data : List UInt8) : ℕ → ℕ → PipeBuffer → Option PipeBuffer
  | 0, _, pb => some pb
  | n + 1, i, pb =>
    match data[i]? with
    | none => none
    | some b => if pb.writePos < pipeBufSize then writeLoop data n (i + 1) (pb.writeByte b) else none

def writeBytes (pb : PipeBuffer) (data : List UInt8) : Option (ℕ × PipeBuffer) :=
  if pipeBufSize < pb.len then none
  else
    let toWrite := min data.length (pipeBufSize - pb.len)
    (writeLoop data toWrite 0 pb).map fun pb => (toWrite, { pb with len := pb.len + toWrite })

/-- the loop of `read_bytes`: `n` more bytes, to `dst[i]` on -/
def readLoop : ℕ → ℕ → List UInt8 → PipeBuffer → Option (List UInt8 × PipeBuffer)
  | 0, _, dst, pb => some (dst, pb)
  | n + 1, i, dst, pb =>
    if i < dst.length ∧ pb.readPos < pipeBufSize then
      readLoop n (i + 1) (dst.set i (pb.buf pb.readPos)) { pb with readPos := (pb.readPos + 1) % pipeBufSize }
    else none

/-- the number of bytes, the destination and the pipe after the read -/
def readBytes (pb : PipeBuffer) (dst : List UInt8) : Option (ℕ × List UInt8 × PipeBuffer) :=
  let toRead := min dst.length pb.len
  match readLoop toRead 0 dst pb with
  | none => none
  | some (dst, pb) => if pb.len < toRead then none else some (toRead, dst, { pb with len := pb.len - toRead })

def pipeWrite (t : PipeTable) (id : ℕ) (data : List UInt8) : Option (Except Errno ℕ × PipeTable) :=
  match t.get id with
  | none => some (.error .EPIPE, t)
  | some pb =>
    if pb.readRefs = 0 then some (.error .EPIPE, t)
    else if pb.isFull then some (.error .EAGAIN, t)
    else (writeBytes pb data).map fun r => (.ok r.1, t.set id (some r.2))

/-- a turn of `pipe_read_blocking`: the bytes it returns, or none when the pipe is empty -/
def readTurn (t : PipeTable) (id : ℕ) (dst : List UInt8) : Option (List UInt8 × PipeTable) :=
  match t.get id with
  | none => some ([], t)
  | some pb =>
    if 0 < pb.len then (readBytes pb dst).map fun r => (r.2.1.take r.1, t.set id (some r.2.2))
    else some ([], t)

/-! ## Runs -/

inductive Op
  | write (data : List UInt8)
  | read (dst : List UInt8)
  | closeReadEnd
  | closeWriteEnd

/-- the pipes, with what was reported written and what was read so far -/
structure World where
  table : PipeTable
  written : List UInt8
  read : List UInt8
  panicked : Bool

def step (id : ℕ) (w : World) : Op → World
  | .write data =>
    match pipeWrite w.table id data with
    | none => { w with panicked := true }
    | some (.ok n, t) => { w with table := t, written := w.written ++ data.take n }
    | some (.error _, t) => { w with table := t }
  | .read dst =>
    match readTurn w.table id dst with
    | none => { w with panicked := true }
    | some (bytes, t) => { w with table := t, read := w.read ++ bytes }
  | .closeReadEnd => { w with table := w.table.closeReadEnd id }
  | .closeWriteEnd => { w with table := w.table.closeWriteEnd id }

/-- the bytes in the ring -/
def content (pb : PipeBuffer) : List UInt8 := window pb.buf pipeBufSize pb.readPos pb.len

/-- the cursors are in the buffer and as far apart as the length says; what was written is what was read and the content -/
structure Flow (pb : PipeBuffer) (written read : List UInt8) : Prop where
  readPos : pb.readPos < pipeBufSize
  len : pb.len ≤ pipeBufSize
  writePos : pb.writePos = (pb.readPos + pb.len) % pipeBufSize
  stream : read ++ content pb = written

/-! ## One write -/

/-- the bytes of a loop go behind the `k` bytes of the window -/
theorem foldl_writeByte (data : List UInt8) (pb : PipeBuffer) (k : ℕ) (hk : k + data.length ≤ pipeBufSize)
    (hw : pb.writePos = (pb.readPos + k) % pipeBufSize) :
    window (data.foldl PipeBuffer.writeByte pb).buf pipeBufSize pb.readPos (k + data.length) =
        window pb.buf pipeBufSize pb.readPos k ++ data ∧
      (data.foldl PipeBuffer.writeByte pb).writePos = (pb.readPos + (k + data.length)) % pipeBufSize ∧
      (data.foldl PipeBuffer.writeByte pb).readPos = pb.readPos ∧
      (data.foldl PipeBuffer.writeByte pb).len = pb.len := by
  induction data generalizing pb k with
  | nil => exact ⟨(List.append_nil _).symm, hw, rfl, rfl⟩
  | cons b data ih =>
    rw [List.length_cons] at hk
    have hnext : (pb.writeByte b).writePos = (pb.readPos + (k + 1)) % pipeBufSize := by
      show (pb.writePos + 1) % pipeBufSize = _
      rw [hw, Nat.mod_add_mod, Nat.add_assoc]
    obtain ⟨hwin, hpos, hread, hlen⟩ := ih (pb.writeByte b) (k + 1) (by omega) hnext
    have hsum : k + 1 + data.length = k + (b :: data).length := by rw [List.length_cons]; omega
    have hcell : window (pb.writeByte b).buf pipeBufSize pb.readPos (k + 1) =
        window pb.buf pipeBufSize pb.readPos k ++ [b] := by
      show window (Function.update pb.buf pb.writePos b) _ _ _ = _
      rw [hw]
      exact window_snoc pb.buf pipeBufSize pb.readPos k b (by omega)
    rw [List.foldl_cons]
    refine ⟨?_, ?_, hread, hlen⟩
    · rw [← hsum]
      exact hwin.trans (by rw [show (pb.writeByte b).readPos = pb.readPos from rfl, hcell, List.append_assoc]; rfl)
    · rw [← hsum]
      exact hpos

theorem writePos_lt {pb : PipeBuffer} (b : UInt8) : (pb.writeByte b).writePos < pipeBufSize := Nat.mod_lt _ (by decide)

/-- the loop visits the bytes `i`, `i + 1`, ... and no cell outside of the buffer -/
theorem writeLoop_eq (data : List UInt8) (n i : ℕ) (hn : i + n ≤ data.length) (pb : PipeBuffer)
    (hw : pb.writePos < pipeBufSize) :
    writeLoop data n i pb = some (((data.drop i).take n).foldl PipeBuffer.writeByte pb) := by
  induction n generalizing i pb with
  | zero => simp [writeLoop]
  | succ n ih =>
    have hi : i < data.length := by omega
    rw [writeLoop, List.getElem?_eq_getElem hi]
    show (if pb.writePos < pipeBufSize then _ else _) = _
    rw [if_pos hw, ih (i + 1) (by omega) _ (writePos_lt _), List.drop_eq_getElem_cons hi, List.take_succ_cons,
      List.foldl_cons]

section

variable {pb : PipeBuffer} {written read : List UInt8}

variable (h : Flow pb written read)

include h

theorem Flow.writePos_lt : pb.writePos < pipeBufSize := by
  rw [h.writePos]
  exact Nat.mod_lt _ (by decide)

/-- **Write loop.** On a ring in order `write_bytes` does not panic and computes the closed form. -/
theorem writeBytes_eq (data : List UInt8) : writeBytes pb data = some (pb.writeBytes data) := by
  unfold writeBytes
  rw [if_neg (not_lt.2 h.len)]
  show Option.map _ (writeLoop data (min data.length (pipeBufSize - pb.len)) 0 pb) = _
  rw [writeLoop_eq data _ 0 (by rw [Nat.zero_add]; exact min_le_left _ _) pb h.writePos_lt, List.drop_zero]
  have hlen : ((data.take (min data.length (pipeBufSize - pb.len))).foldl PipeBuffer.writeByte pb).len = pb.len := by
    refine (foldl_writeByte _ pb pb.len ?_ h.writePos).2.2.2
    rw [List.length_take]
    have := h.len
    omega
  rw [Option.map_some, hlen]
  rfl

/-- the bytes that are reported written are behind the content -/
theorem Flow.write (data : List UInt8) :
    Flow (pb.writeBytes data).2 (written ++ data.take (pb.writeBytes data).1) read := by
  have hle := h.len
  have hlength : (data.take (min data.length (pipeBufSize - pb.len))).length = min data.length (pipeBufSize - pb.len) := by
    rw [List.length_take]
    omega
  obtain ⟨hwin, hpos, hread, -⟩ := foldl_writeByte (data.take (min data.length (pipeBufSize - pb.len))) pb pb.len
    (by rw [hlength]; omega) h.writePos
  rw [hlength] at hwin hpos
  dsimp only [PipeBuffer.writeBytes]
  generalize (data.take (min data.length (pipeBufSize - pb.len))).foldl PipeBuffer.writeByte pb = pb' at *
  refine ⟨?_, ?_, ?_, ?_⟩
  · show pb'.readPos < pipeBufSize
    rw [hread]
    exact h.readPos
  · show pb.len + _ ≤ pipeBufSize
    omega
  · show pb'.writePos = (pb'.readPos + _) % pipeBufSize
    rw [hread, hpos]
  · show read ++ window pb'.buf pipeBufSize pb'.readPos _ = _
    rw [hread, hwin, ← h.stream, List.append_assoc]
    rfl

omit h

/-! ## One read -/

/-- the loop copies the window to the destination, from `dst[i]` on -/
theorem readLoop_eq (n i : ℕ) (dst : List UInt8) (hn : i + n ≤ dst.length) (pb : PipeBuffer)
    (hr : pb.readPos < pipeBufSize) :
    readLoop n i dst pb = some (dst.take i ++ window pb.buf pipeBufSize pb.readPos n ++ dst.drop (i + n),
      { pb with readPos := (pb.readPos + n) % pipeBufSize }) := by
  induction n generalizing i dst pb with
  | zero => simp [readLoop, Nat.mod_eq_of_lt hr]
  | succ n ih =>
    have hi : i < dst.length := by omega
    rw [readLoop, if_pos ⟨hi, hr⟩, ih (i + 1) _ (by rw [List.length_set]; omega) _ (Nat.mod_lt _ (by decide))]
    have htake : (dst.set i (pb.buf pb.readPos)).take (i + 1) = dst.take i ++ [pb.buf pb.readPos] := by
      simp [List.take_add_one, List.take_set_of_le, hi]
    have hdrop : (dst.set i (pb.buf pb.readPos)).drop (i + 1 + n) = dst.drop (i + (n + 1)) := by
      rw [List.drop_set_of_lt (by omega)]
      congr 1
      omega
    have hpos : ((pb.readPos + 1) % pipeBufSize + n) % pipeBufSize = (pb.readPos + (n + 1)) % pipeBufSize := by
      rw [Nat.mod_add_mod]
      congr 1
      omega
    dsimp only
    rw [htake, hdrop, hpos, window_mod, window_succ, Nat.mod_eq_of_lt hr, List.append_assoc (dst.take i),
      List.singleton_append]

/-- **Read loop.** On a ring in order `read_bytes` does not panic; the closed form is what the destination starts with. -/
theorem readBytes_eq (h : Flow pb written read) (dst : List UInt8) :
    readBytes pb dst = some (min dst.length pb.len, (pb.readBytes dst.length).1 ++ dst.drop (min dst.length pb.len),
      (pb.readBytes dst.length).2) := by
  dsimp only [readBytes]
  rw [readLoop_eq _ 0 dst (by omega) pb h.readPos, List.take_zero, List.nil_append, Nat.zero_add]
  show (if pb.len < min dst.length pb.len then none else _) = _
  rw [if_neg (by omega)]
  rfl

theorem length_readBytes (pb : PipeBuffer) (n : ℕ) : (pb.readBytes n).1.length = min n pb.len := length_window ..

/-- the bytes that are read are the front of the content -/
theorem Flow.take (h : Flow pb written read) (n : ℕ) : Flow (pb.readBytes n).2 written (read ++ (pb.readBytes n).1) := by
  have hsplit : min n pb.len + (pb.len - min n pb.len) = pb.len := by omega
  refine ⟨Nat.mod_lt _ (by decide), le_trans (Nat.sub_le _ _) h.len, ?_, ?_⟩
  · show pb.writePos = ((pb.readPos + min n pb.len) % pipeBufSize + (pb.len - min n pb.len)) % pipeBufSize
    rw [Nat.mod_add_mod, Nat.add_assoc, hsplit]
    exact h.writePos
  · have hcontent : (pb.readBytes n).1 ++ content (pb.readBytes n).2 = content pb := by
      show window pb.buf pipeBufSize pb.readPos (min n pb.len) ++
        window pb.buf pipeBufSize ((pb.readPos + min n pb.len) % pipeBufSize) (pb.len - min n pb.len) = _
      rw [window_mod, ← window_add, hsplit]
      rfl
    rw [List.append_assoc, hcontent]
    exact h.stream

end

/-! ## Runs -/

/-- no panic so far, what was read is an initial part of what was written, and the pipe holds the rest while it exists -/
structure Inv (id : ℕ) (w : World) : Prop where
  quiet : w.panicked = false
  initial : w.read <+: w.written
  flow : ∀ pb, w.table.get id = some pb → Flow pb w.written w.read

variable {id : ℕ} {w : World} {t : PipeTable} {pb' : PipeBuffer}

theorem eq_of_get_set {q : PipeBuffer} (h : (t.set id (some q)).get id = some pb') : q = pb' := by
  rw [PipeTable.get_set (PipeTable.get_lt h), if_pos rfl] at h
  exact Option.some.inj h

/-- a pipe with other reference counts holds the same bytes -/
theorem Flow.refs {pb : PipeBuffer} {written read : List UInt8} (h : Flow pb written read) (r s : ℕ) :
    Flow { pb with readRefs := r, writeRefs := s } written read := ⟨h.readPos, h.len, h.writePos, h.stream⟩

theorem inv_write (h : Inv id w) (data : List UInt8) : Inv id (step id w (.write data)) := by
  cases hget : w.table.get id with
  | none =>
    have hstep : step id w (.write data) = w := by simp [step, pipeWrite, hget]
    rwa [hstep]
  | some pb =>
    have hflow := h.flow pb hget
    by_cases hrefs : pb.readRefs = 0
    · have hstep : step id w (.write data) = w := by simp [step, pipeWrite, hget, hrefs]
      rwa [hstep]
    by_cases hfull : pb.isFull = true
    · have hstep : step id w (.write data) = w := by simp [step, pipeWrite, hget, hrefs, hfull]
      rwa [hstep]
    have hstep : step id w (.write data) = { w with
        table := w.table.set id (some (pb.writeBytes data).2)
        written := w.written ++ data.take (pb.writeBytes data).1 } := by
      simp [step, pipeWrite, hget, hrefs, hfull, writeBytes_eq hflow]
    rw [hstep]
    refine ⟨h.quiet, h.initial.trans (List.prefix_append _ _), fun pb' hpb' => ?_⟩
    obtain rfl := eq_of_get_set hpb'
    exact hflow.write data

theorem inv_read (h : Inv id w) (dst : List UInt8) : Inv id (step id w (.read dst)) := by
  cases hget : w.table.get id with
  | none =>
    have hstep : step id w (.read dst) = w := by simp [step, readTurn, hget]
    rwa [hstep]
  | some pb =>
    have hflow := h.flow pb hget
    by_cases hlen : 0 < pb.len
    · have hbytes : ((pb.readBytes dst.length).1 ++ dst.drop (min dst.length pb.len)).take (min dst.length pb.len) =
          (pb.readBytes dst.length).1 := by
        rw [← length_readBytes, List.take_left]
      have hstep : step id w (.read dst) = { w with
          table := w.table.set id (some (pb.readBytes dst.length).2)
          read := w.read ++ (pb.readBytes dst.length).1 } := by
        simp [step, readTurn, hget, hlen, readBytes_eq hflow, hbytes]
      have hnext := hflow.take dst.length
      rw [hstep]
      refine ⟨h.quiet, ⟨_, hnext.stream⟩, fun pb' hpb' => ?_⟩
      obtain rfl := eq_of_get_set hpb'
      exact hnext
    · have hstep : step id w (.read dst) = w := by simp [step, readTurn, hget, hlen]
      rwa [hstep]

/-- closing an end changes a count, or ends the pipe -/
theorem inv_close (h : Inv id w) (t : PipeTable)
    (ht : ∀ pb', t.get id = some pb' → ∃ pb r s, w.table.get id = some pb ∧ pb' = { pb with readRefs := r, writeRefs := s }) :
    Inv id { w with table := t } := by
  refine ⟨h.quiet, h.initial, fun pb' hpb' => ?_⟩
  obtain ⟨pb, r, s, hget, rfl⟩ := ht pb' hpb'
  exact (h.flow pb hget).refs r s

/-- the slot after its pipe was put back or given up -/
theorem eq_of_get {pb q : PipeBuffer} (hget : t.get id = some pb) {c : Prop} [Decidable c]
    (h : (if c then t.set id none else t.set id (some q)).get id = some pb') : q = pb' := by
  split_ifs at h
  · rw [PipeTable.get_set (PipeTable.get_lt hget), if_pos rfl] at h
    cases h
  · exact eq_of_get_set h

theorem get_closeReadEnd (h : (t.closeReadEnd id).get id = some pb') :
    ∃ pb r s, t.get id = some pb ∧ pb' = { pb with readRefs := r, writeRefs := s } := by
  unfold PipeTable.closeReadEnd at h
  cases hget : t.get id with
  | none =>
    rw [hget] at h
    exact absurd (hget.symm.trans h) nofun
  | some pb =>
    rw [hget] at h
    exact ⟨pb, _, _, rfl, (eq_of_get hget h).symm⟩

theorem get_closeWriteEnd (h : (t.closeWriteEnd id).get id = some pb') :
    ∃ pb r s, t.get id = some pb ∧ pb' = { pb with readRefs := r, writeRefs := s } := by
  unfold PipeTable.closeWriteEnd at h
  cases hget : t.get id with
  | none =>
    rw [hget] at h
    exact absurd (hget.symm.trans h) nofun
  | some pb =>
    rw [hget] at h
    exact ⟨pb, _, _, rfl, (eq_of_get hget h).symm⟩

/-- **Step.** Whatever is done to the pipe, its bytes stay in order. -/
theorem inv_step (h : Inv id w) (op : Op) : Inv id (step id w op) := by
  cases op with
  | write data => exact inv_write h data
  | read dst => exact inv_read h dst
  | closeReadEnd => exact inv_close h _ fun _ => get_closeReadEnd
  | closeWriteEnd => exact inv_close h _ fun _ => get_closeWriteEnd

/-- a pipe just opened, with any number of descriptors for its ends -/
def opened (t : PipeTable) (id readRefs writeRefs : ℕ) : World :=
  ⟨t.set id (some { PipeBuffer.new with readRefs, writeRefs }), [], [], false⟩

theorem inv_opened (t : PipeTable) (id r s : ℕ) : Inv id (opened t id r s) := by
  refine ⟨rfl, List.prefix_rfl, fun pb hpb => ?_⟩
  obtain rfl := eq_of_get_set hpb
  have hnew : Flow PipeBuffer.new [] [] := ⟨by decide, by decide, rfl, rfl⟩
  exact hnew.refs r s

/-- **Byte stream.** Whatever threads write and read, in any order and with buffers of any size: nothing panics, the bytes
read are an initial part of the bytes reported written, and while the pipe exists its cursors are in order and it holds
exactly the rest. -/
theorem pipe_stream (t : PipeTable) (id readRefs writeRefs : ℕ) (ops : List Op) :
    (run (step id) (opened t id readRefs writeRefs) ops).panicked = false ∧
      (run (step id) (opened t id readRefs writeRefs) ops).read <+:
        (run (step id) (opened t id readRefs writeRefs) ops).written ∧
      ∀ pb, (run (step id) (opened t id readRefs writeRefs) ops).table.get id = some pb →
        Flow pb (run (step id) (opened t id readRefs writeRefs) ops).written
          (run (step id) (opened t id readRefs writeRefs) ops).read := by
  have h := inv_run (fun w op (hw : Inv id w) => inv_step hw op) _ ops (inv_opened t id readRefs writeRefs)
  exact ⟨h.quiet, h.initial, h.flow⟩

end SwiftCore.Syscall.PipeStream
