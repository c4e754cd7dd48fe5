/-
The image of an `exec` comes as a stream of messages (`fs_service_request_stream`, `core/syscall/fs.rs`): a header that
announces the length, then chunks of data, until that many bytes are in.

The receiver polls its mailbox for messages of the backend. Meanwhile every thread may send, and the mailbox may hold
older messages. The log has every message from the backend to the receiver, also those the mailbox refused (it was full,
or the message longer than `maxMsgSize`).

- `receive_consumed`: what has been copied is what the backend sent, in order, with parts left out at most.
- `stream_exact_iff`: if the call returns `Ok(v)`, then `v` has the announced length, and it is the concatenation of the
  chunks exactly when their lengths add up to the announced one.
- `stream_truncated`: a last chunk with more bytes than are missing is cut, and the call returns `Ok`.
-/
import SwiftCore.Ipc.Fifo
import SwiftCore.Lib.Bytes
import SwiftCore.Syscall.FsReplies

namespace SwiftCore.Ipc.Stream

open Run Bytes Mailbox Syscall.FsReplies
open scoped List

/-! ## Model -/

/-- `size_of::<FsResponse>()` -/
def responseSize : ℕ := 8 + 8 + fsDataMax

def ipcMaxMsgSize : ℕ := 65536

/-- where the call stands: before the header, with the bytes of `out` received, returned, or stopped by an overflow -/
inductive Phase where
  | header
  | body (total : ℕ) (out : List UInt8)
  | done (res : Except UInt64 (List UInt8))
  | panicked
deriving DecidableEq

/-- the length of the buffer that the next message is copied into -/
def Phase.bufLen : Phase → ℕ
  | .header => responseSize
  | .body total out => min (total - out.length) ipcMaxMsgSize
  | .done _ | .panicked => 0

/-- `header.len` -/
def announced (header : List UInt8) : ℕ := field header 8 8

/-- what the call does with the bytes it received -/
def Phase.receive (data : List UInt8) : Phase → Phase
  | .header =>
    let status := field data 0 8
    let total := announced data
    if data.length < responseSize then .done (.error EIO)
    -- a negative `i64`; the least one has no `-header.status`
    else if status = 2 ^ 63 then .panicked
    else if 2 ^ 63 ≤ status then .done (.error (UInt64.ofNat (2 ^ 64 - status)))
    else if total = 0 then .done (.ok [])
    else if 8 * 1024 * 1024 < total then .done (.error EINVAL)
    else .body total []
  | .body total out =>
    let out := out ++ data
    if data.length = 0 then .done (.error EIO)
    else if out.length < total then .body total out
    else if out.length ≠ total then .done (.error EIO)
    else .done (.ok out)
  | .done res => .done res
  | .panicked => .panicked

structure St where
  mb : Mailbox
  phase : Phase
  /-- the messages from the backend to the receiver, and whether the mailbox took them -/
  log : List (Message × Bool)

/-- the request has been sent; the mailbox may hold messages -/
def start (fs : ℕ) (r : Addr) (mb : Mailbox) : St :=
  ⟨mb, .header, (mb.contents.filter fun m => Matches fs r m).map fun m => (m, true)⟩

inductive Op where
  | send (sender : ℕ) (dest : Addr) (p : Payload)
  /-- `recv_from_sender_for_kernel_nonblocking` -/
  | poll
  /-- the backend is gone, the time is up, or the receiver has no slot -/
  | giveUp (e : UInt64)

def St.poll (fs : ℕ) (r : Addr) (st : St) : St :=
  match st.mb.popFromSenderCopy fs r (List.replicate st.phase.bufLen 0) with
  | (none, _, mb) => { st with mb := mb }
  | (some (_, n), buf, mb) => { st with mb := mb, phase := st.phase.receive (buf.take n) }

/-- the run ends when the call returns -/
def step (fs : ℕ) (r : Addr) (st : St) (o : Op) : St :=
  match st.phase, o with
  | .done _, _ | .panicked, _ => st
  | _, .send s d p =>
    let m := p.message s d
    let res := st.mb.deliver s d p
    { st with mb := res.2, log := if Matches fs r m then st.log ++ [(m, res.1)] else st.log }
  | _, .poll => st.poll fs r
  | _, .giveUp e => { st with phase := .done (.error e) }

/-! ## What has been copied -/

/-- the data of a message -/
def bytes (m : Message) : List UInt8 := (List.range m.len).map m.data

@[simp] theorem length_bytes (m : Message) : (bytes m).length = m.len := by simp [bytes]

/-- what the call has made of the messages it took: the header, then chunks whose bytes it kept in order -/
def Consumed : Phase → List Message → Prop
  | .header, taken => taken = []
  | .body total out, taken =>
    ∃ hdr chunks, taken = hdr :: chunks ∧ announced ((bytes hdr).take responseSize) = total ∧
      out <+ chunks.flatMap bytes
  | .done (.ok v), taken =>
    ∃ hdr chunks, taken = hdr :: chunks ∧ announced ((bytes hdr).take responseSize) = v.length ∧
      v <+ chunks.flatMap bytes
  | .done (.error _), _ | .panicked, _ => True

theorem Consumed.ite {c : Prop} [Decidable c] {a b : Phase} {taken : List Message} (ha : c → Consumed a taken)
    (hb : ¬ c → Consumed b taken) : Consumed (if c then a else b) taken := by
  split_ifs with hc
  exacts [ha hc, hb hc]

theorem receive_consumed {ph : Phase} {taken : List Message} (h : Consumed ph taken) (hph : ∀ res, ph ≠ .done res)
    (m : Message) : Consumed (ph.receive ((bytes m).take ph.bufLen)) (taken ++ [m]) := by
  cases ph with
  | header =>
    obtain rfl : taken = [] := h
    refine .ite (fun _ => trivial) fun _ => .ite (fun _ => trivial) fun _ => .ite (fun _ => trivial) fun _ =>
      .ite (fun hzero => ?_) fun _ => ?_
    · exact ⟨m, [], rfl, hzero, List.Sublist.refl _⟩
    · exact .ite (fun _ => trivial) fun _ => ⟨m, [], rfl, rfl, List.Sublist.refl _⟩
  | body total out =>
    obtain ⟨hdr, chunks, rfl, htotal, hout⟩ := h
    -- the copy is cut to the buffer
    have hkept : out ++ (bytes m).take (Phase.body total out).bufLen <+ (chunks ++ [m]).flatMap bytes := by
      rw [List.flatMap_append, List.flatMap_singleton]
      exact hout.append (List.take_sublist _ _)
    refine .ite (fun _ => trivial) fun _ => .ite (fun _ => ?_) fun _ => .ite (fun _ => trivial) fun hfull => ?_
    · exact ⟨hdr, chunks ++ [m], rfl, htotal, hkept⟩
    · exact ⟨hdr, chunks ++ [m], rfl, htotal.trans (not_not.1 hfull).symm, hkept⟩
  | done res => exact absurd rfl (hph res)
  | panicked => trivial

/-! ## The invariant -/

variable {fs : ℕ} {r : Addr} {st : St}

/-- the backend's messages that the mailbox took are those the call took, followed by those still queued -/
structure Inv (fs : ℕ) (r : Addr) (st : St) : Prop where
  mb : st.mb.Inv
  order : ∃ taken, Consumed st.phase taken ∧
    (st.log.filter fun m => m.2).map Prod.fst = taken ++ st.mb.contents.filter fun m => Matches fs r m

theorem inv_start {mb : Mailbox} (h : mb.Inv) : Inv fs r (start fs r mb) :=
  ⟨h, [], rfl, by simp [start, List.filter_map, Function.comp_def]⟩

/-- a selective receive takes the oldest message of the sender and leaves its others in order -/
theorem popFromSender_oldest {mb : Mailbox} (h : mb.Inv) (s : ℕ) (r : Addr) :
    ∃ mb', mb.popFromSender s r = ((mb.contents.filter fun m => Matches s r m).head?, mb') ∧ mb'.Inv ∧
      (mb'.contents.filter fun m => Matches s r m) = (mb.contents.filter fun m => Matches s r m).tail := by
  obtain ⟨mb', hpop, hmb, hq, hc⟩ := popFromSender_spec h s r
  refine ⟨mb', by rw [hpop, List.head?_filter], hmb, ?_⟩
  rw [hc, hq, contents, List.filter_map, List.filter_map, ← List.map_tail]
  exact congrArg _ (Rotate.filter_rotateTo _ _)

/-- what a copying receive reports of the message it took -/
theorem poll_of_pop {m : Message} {mb : Mailbox} (h : st.mb.popFromSender fs r = (some m, mb)) :
    st.poll fs r = { st with mb := mb, phase := st.phase.receive ((bytes m).take st.phase.bufLen) } := by
  have hcopy : (List.range (min m.len st.phase.bufLen)).map m.data = (bytes m).take st.phase.bufLen := by
    rw [bytes, ← List.map_take, List.take_range, min_comm]
  simp [St.poll, popFromSenderCopy, h, ← hcopy]

theorem poll_inv (h : Inv fs r st) (hph : ∀ res, st.phase ≠ .done res) : Inv fs r (st.poll fs r) := by
  obtain ⟨mb', hpop, hmb, htail⟩ := popFromSender_oldest h.mb fs r
  obtain ⟨taken, hph', horder⟩ := h.order
  cases hf : st.mb.contents.filter fun m => Matches fs r m with
  | nil =>
    have hpoll : st.poll fs r = { st with mb := mb' } := by simp [St.poll, popFromSenderCopy, hpop, hf]
    rw [hpoll]
    exact ⟨hmb, taken, hph', by rw [horder, htail, hf, List.tail_nil]⟩
  | cons m rest =>
    rw [hf, List.head?_cons] at hpop
    rw [poll_of_pop hpop]
    refine ⟨hmb, taken ++ [m], receive_consumed hph' hph m, ?_⟩
    rw [horder, htail, hf, List.tail_cons, List.append_assoc, List.singleton_append]

theorem step_inv (st : St) (o : Op) (h : Inv fs r st) : Inv fs r (step fs r st o) := by
  unfold step
  split
  · exact h
  · exact h
  · rename_i s d p hph _
    obtain ⟨taken, hph', horder⟩ := h.order
    have hsent := deliver_sent h.mb s d p
    refine ⟨hsent.inv, taken, hph', ?_⟩
    simp only [hsent.contents]
    cases (st.mb.deliver s d p).1 <;> by_cases hm : Matches fs r (p.message s d) <;>
      simp [List.filter_append, hm, horder]
  · exact poll_inv h (by assumption)
  · exact ⟨h.mb, _, trivial, h.order.choose_spec.2⟩

/-! ## The result -/

/-- **The image.** When the call has returned `Ok(v)`, the first message of the backend that reached the mailbox was the
header, `v` has the length it announced, and `v` is the concatenation of all that the backend sent after it exactly when
the lengths of those messages add up to that length. -/
theorem stream_exact_iff (fs : ℕ) (r : Addr) (before : List Mailbox.Op) (ops : List Op) (v : List UInt8)
    (h : (run (step fs r) (start fs r (run Mailbox.step new before)) ops).phase = .done (.ok v)) :
    ∃ early hdr chunks,
      (run (step fs r) (start fs r (run Mailbox.step new before)) ops).log = early ++ (hdr, true) :: chunks ∧
      (∀ m ∈ early, m.2 = false) ∧ v.length = announced ((bytes hdr).take responseSize) ∧
      (v = (chunks.flatMap fun m => bytes m.1) ↔
        (chunks.map fun m => m.1.len).sum = announced ((bytes hdr).take responseSize)) := by
  have hmb : (run Mailbox.step new before).Inv := inv_run Mailbox.step_inv _ before inv_new
  obtain ⟨-, taken, hph, horder⟩ := inv_run step_inv _ ops (inv_start hmb : Inv fs r _)
  rw [h] at hph
  obtain ⟨hdr, C, rfl, hlen, hv⟩ := hph
  rw [List.cons_append, List.map_eq_cons_iff] at horder
  obtain ⟨⟨hdr, ok⟩, rest, hfilter, rfl, hrest⟩ := horder
  obtain ⟨early, chunks, hlog, hearly, hok, hchunks⟩ := List.filter_eq_cons_iff.1 hfilter
  obtain rfl : ok = true := hok
  refine ⟨early, hdr, chunks, hlog, fun m hm => by simpa using hearly m hm, hlen.symm, ?_⟩
  -- what was kept is part of what was taken, which is part of what was accepted, which is part of what was sent
  have hsub : v <+ chunks.flatMap fun m => bytes m.1 :=
    calc v <+ C.flatMap bytes := hv
      _ <+ (C ++ _).flatMap bytes := (List.sublist_append_left C _).flatMap _
      _ = rest.flatMap fun m => bytes m.1 := by rw [← hrest, List.flatMap_map]
      _ <+ chunks.flatMap fun m => bytes m.1 := (hchunks ▸ List.filter_sublist).flatMap _
  have hcount : (chunks.flatMap fun m => bytes m.1).length = (chunks.map fun m => m.1.len).sum := by
    simp [List.length_flatMap]
  rw [← hcount, hlen]
  exact ⟨fun heq => heq ▸ rfl, fun heq => hsub.eq_of_length heq.symm⟩

/-- thread 7 announces two bytes and sends a chunk; a message of thread 1 comes in between -/
def twoBytes (chunk : List UInt8) : List Op :=
  [.send 7 Fifo.receiver (.bytes (leBytes 8 0 ++ leBytes 8 2 ++ List.replicate fsDataMax 0)), .poll,
    .send 1 Fifo.receiver (.bytes [9]), .send 7 Fifo.receiver (.bytes chunk), .poll]

theorem stream_exact_iff_two : (run (step 7 Fifo.receiver) (start 7 Fifo.receiver new) (twoBytes [1, 2])).phase =
      .done (.ok [1, 2]) ∧
    ∃ early hdr chunks, (run (step 7 Fifo.receiver) (start 7 Fifo.receiver new) (twoBytes [1, 2])).log =
      early ++ (hdr, true) :: chunks ∧ (∀ m ∈ early, m.2 = false) ∧
      [1, 2].length = announced ((bytes hdr).take responseSize) ∧
      ([1, 2] = (chunks.flatMap fun m => bytes m.1) ↔
        (chunks.map fun m => m.1.len).sum = announced ((bytes hdr).take responseSize)) :=
  ⟨by decide +kernel, stream_exact_iff 7 Fifo.receiver [] _ [1, 2] (by decide +kernel)⟩

/-- **A chunk is cut.** Two bytes are announced and three sent: the call returns the first two. -/
theorem stream_truncated :
    let st := run (step 7 Fifo.receiver) (start 7 Fifo.receiver new) (twoBytes [1, 2, 3])
    st.phase = .done (.ok [1, 2]) ∧ st.log.tail.map (fun m => bytes m.1) = [[1, 2, 3]] := by
  decide +kernel

end SwiftCore.Ipc.Stream
