/-
`pipe2` as a whole (core/syscall/pipe.rs: `pipe2_syscall`).

The pipe is allocated first, then a descriptor for the read end, then one for the write end, then the numbers are copied
to the caller. Where a descriptor is missing, both ends of the pipe are given back, but a descriptor that was found
stays; where the copy fails, nothing is given back.

- `pipe2_full`, `pipe2_one`, `pipe2_both`: what happens with no, one, and two free descriptors.
- `pipe2_atomic_iff`: a failing call changes nothing and one that succeeds adds the two ends, iff there is not exactly
  one free descriptor, and with two the numbers can be written.
- `one_free_descriptor`: a descriptor on a pipe that no longer exists.
-/
import SwiftCore.Syscall.PipeRefs

namespace SwiftCore.Syscall.PipeAtomic

open SwiftCore.Task Files PipeRefs Function

/-! ## Outcomes -/

/-- the pipe that `alloc_pipe` makes -/
def freshPipe : PipeBuffer := { PipeBuffer.new with readRefs := 1, writeRefs := 1 }

/-- the descriptors `rfd` and `wfd` of the process in slot `s` are the ends of the new pipe `id` -/
structure Adds (st st' : Sys) (s : ℕ) (p : Process) (id rfd wfd : ℕ) (cloexec : Bool) : Prop where
  distinct : rfd ≠ wfd
  rfd_range : fdBase ≤ rfd ∧ rfd < processMaxFds
  wfd_range : fdBase ≤ wfd ∧ wfd < processMaxFds
  rfd_free : p.fdTable.entries rfd = none
  wfd_free : p.fdTable.entries wfd = none
  id_free : id < maxPipes ∧ st.pipes.get id = none
  eq : st' = { st.setTable s p
    ((p.fdTable.set rfd (some (.newPipeRead id)) (if cloexec then fdCloexec else 0)).set wfd
      (some (.newPipeWrite id)) (if cloexec then fdCloexec else 0)) with pipes := st.pipes.set id (some freshPipe) }

/-- nothing is left of a call that fails; one that succeeds adds the two ends of one new pipe and nothing else -/
def Atomic (st : Sys) (pid flags : ℕ) : Except Errno ℕ × Sys → Prop
  | (.error _, st') => tableOf st' pid = tableOf st pid ∧ st'.pipes = st.pipes
  | (.ok v, st') => v = 0 ∧ ∃ s p id rfd wfd, st.find pid = some (s, p) ∧
      Adds st st' s p id rfd wfd (hasCloexec flags)

/-- `pipe2` fails early, finds no descriptor, or finds two and can write their numbers -/
def Clear (st : Sys) (pid : ℕ) (ptrValid ptrWritable : Bool) : Prop :=
  ptrValid = false ∨ st.pipes.allocPipe = none ∨ st.find pid = none ∨ (tableOf st pid).free = 0 ∨
    (2 ≤ (tableOf st pid).free ∧ ptrWritable = true)

variable {t t' : FdTable} {h : FileHandle} {cloexec : Bool} {fd rfd : ℕ}

theorem alloc_some (ha : t.alloc h cloexec = some (fd, t')) :
    (fdBase ≤ fd ∧ fd < processMaxFds) ∧ t.entries fd = none ∧
      t' = t.set fd (some h) (if cloexec then fdCloexec else 0) := by
  obtain ⟨i, hi, heq⟩ := Option.map_eq_some_iff.1 ha
  obtain ⟨rfl, rfl⟩ := Prod.mk.inj heq
  obtain ⟨hlo, hhi, hfree⟩ := SlotTable.firstFree_some hi
  exact ⟨⟨hlo, hhi⟩, hfree, rfl⟩

theorem entries_set_of_ne (t : FdTable) {fd' : ℕ} (h : fd' ≠ fd) (o : Option FileHandle) (flags : ℕ) :
    (t.set fd o flags).entries fd' = t.entries fd' := by
  change update t.entries fd o fd' = t.entries fd'
  rw [update_of_ne h]

theorem entries_set_self {flags : ℕ} : (t.set fd (some h) flags).entries fd ≠ none := by
  simp [FdTable.set]

section Pipe2

variable {st : Sys} {pid flags id s : ℕ} {pipes : PipeTable} {p : Process}

variable (ha : st.pipes.allocPipe = some (id, pipes))

include ha

/-- giving back both ends of a new pipe leaves the table of pipes as it was -/
theorem close_both_eq : (pipes.closeReadEnd id).closeWriteEnd id = st.pipes := by
  obtain ⟨hid, hfree, rfl⟩ := PipeTable.allocPipe_some ha
  have hnone : st.pipes id = none := by rwa [PipeTable.get, if_pos hid] at hfree
  have hread : (st.pipes.set id (some freshPipe)).closeReadEnd id =
      st.pipes.set id (some { PipeBuffer.new with writeRefs := 1 }) := by
    simp [PipeTable.closeReadEnd, PipeTable.get_set hid, freshPipe, PipeBuffer.new]
  have hwrite : (st.pipes.set id (some { PipeBuffer.new with writeRefs := 1 })).closeWriteEnd id =
      st.pipes.set id none := by
    simp [PipeTable.closeWriteEnd, PipeTable.get_set hid, PipeBuffer.new]
  change ((st.pipes.set id (some freshPipe)).closeReadEnd id).closeWriteEnd id = st.pipes
  rw [hread, hwrite, PipeTable.set, ← hnone]
  exact update_eq_self id st.pipes

/-- no descriptor for either end: everything is given back -/
theorem pipe2_none (hnone : ∀ h : FileHandle, h.isRemote = false → ∀ cloexec,
      ({ st with pipes := pipes } : Sys).allocHandle pid h cloexec = (none, { st with pipes := pipes }))
    (writable : Bool) : st.pipe2 pid flags true writable = (.error .EMFILE, st) := by
  rw [Sys.pipe2, if_neg (by simp), ha]
  dsimp only
  rw [hnone _ rfl]
  dsimp only
  rw [hnone _ rfl]
  simp [close_both_eq ha]

/-- without the process no descriptor is found -/
theorem pipe2_absent (hf : st.find pid = none) (writable : Bool) :
    st.pipe2 pid flags true writable = (.error .EMFILE, st) := by
  refine pipe2_none ha (fun h hlocal cloexec => ?_) writable
  have hf' : ({ st with pipes := pipes } : Sys).find pid = none := hf
  rw [Sys.allocHandle, hf']
  simp [Sys.dropHandle, hlocal]

theorem pipe2_full (hf : st.find pid = some (s, p))
    (hfull : p.fdTable.free = 0) (writable : Bool) : st.pipe2 pid flags true writable = (.error .EMFILE, st) := by
  refine pipe2_none ha (fun h hlocal cloexec => ?_) writable
  have hf' : ({ st with pipes := pipes } : Sys).find pid = some (s, p) := hf
  rw [Sys.allocHandle, hf']
  dsimp only
  rw [FdTable.alloc_eq_none.2 hfull]
  simp [Sys.dropHandle, hlocal]

omit ha

theorem allocHandle_some (hf : st.find pid = some (s, p)) (ha : p.fdTable.alloc h cloexec = some (fd, t)) :
    st.allocHandle pid h cloexec = (some fd, st.setTable s p t) := by
  rw [Sys.allocHandle, hf]
  dsimp only
  rw [ha]

/-- one free descriptor: the pipe is given back, the descriptor is not -/
theorem pipe2_one (ha : st.pipes.allocPipe = some (id, pipes))
    (hf : st.find pid = some (s, p)) (hr : p.fdTable.alloc (.newPipeRead id) (hasCloexec flags) = some (rfd, t))
    (hfull : t.free = 0) (writable : Bool) :
    st.pipe2 pid flags true writable = (.error .EMFILE, st.setTable s p t) := by
  have hf' : ({ st with pipes := pipes } : Sys).find pid = some (s, p) := hf
  have hread := allocHandle_some hf' hr
  have hwrite : ({ st with pipes := pipes }.setTable s p t).allocHandle pid (.newPipeWrite id) (hasCloexec flags) =
      (none, { st with pipes := pipes }.setTable s p t) := by
    rw [Sys.allocHandle, find_setTable hf']
    dsimp only
    rw [FdTable.alloc_eq_none.2 hfull]
    rfl
  rw [Sys.pipe2, if_neg (by simp), ha]
  dsimp only
  rw [hread]
  dsimp only
  rw [hwrite]
  have hpipes : ({ st with pipes := pipes }.setTable s p t).pipes = pipes := rfl
  simp only [hpipes, close_both_eq ha]
  rfl

/-- two free descriptors: the call keeps them, whether or not it can tell the caller -/
theorem pipe2_both {wfd : ℕ} (ha : st.pipes.allocPipe = some (id, pipes))
    (hf : st.find pid = some (s, p)) (hr : p.fdTable.alloc (.newPipeRead id) (hasCloexec flags) = some (rfd, t))
    (hw : t.alloc (.newPipeWrite id) (hasCloexec flags) = some (wfd, t')) (writable : Bool) :
    st.pipe2 pid flags true writable =
      (if writable then .ok 0 else .error .EFAULT, { st.setTable s p t' with pipes := pipes }) := by
  have hf' : ({ st with pipes := pipes } : Sys).find pid = some (s, p) := hf
  have hread := allocHandle_some hf' hr
  have hwrite : ({ st with pipes := pipes }.setTable s p t).allocHandle pid (.newPipeWrite id) (hasCloexec flags) =
      (some wfd, { st with pipes := pipes }.setTable s p t') := by
    rw [allocHandle_some (find_setTable hf' t) hw]
    simp [Sys.setTable]
  rw [Sys.pipe2, if_neg (by simp), ha]
  dsimp only
  rw [hread]
  dsimp only
  rw [hwrite]
  rfl

theorem tableOf_setTable (hf : st.find pid = some (s, p)) (t : FdTable) : tableOf (st.setTable s p t) pid = t :=
  tableOf_eq (find_setTable hf t)

/-- the ends of a new pipe, in two descriptors that were free -/
theorem adds_of_alloc {wfd : ℕ} (ha : st.pipes.allocPipe = some (id, pipes))
    (hr : p.fdTable.alloc (.newPipeRead id) cloexec = some (rfd, t))
    (hw : t.alloc (.newPipeWrite id) cloexec = some (wfd, t')) :
    Adds st { st.setTable s p t' with pipes := pipes } s p id rfd wfd cloexec ∧ t'.entries rfd ≠ none := by
  obtain ⟨hrange, hrfree, rfl⟩ := alloc_some hr
  obtain ⟨hwrange, hwfree, rfl⟩ := alloc_some hw
  obtain ⟨hid, hpipe, rfl⟩ := PipeTable.allocPipe_some ha
  have hdistinct : rfd ≠ wfd := by
    rintro rfl
    exact entries_set_self hwfree
  refine ⟨⟨hdistinct, hrange, hwrange, hrfree, ?_, ⟨hid, hpipe⟩, rfl⟩, ?_⟩
  · rwa [entries_set_of_ne _ hdistinct.symm] at hwfree
  · rw [entries_set_of_ne _ hdistinct]
    exact entries_set_self

/-- a call that fails with a descriptor left over has changed the table -/
theorem not_atomic_of_entry {errno : Errno} (hf : st.find pid = some (s, p))
    (hfree : p.fdTable.entries fd = none) (hleft : t.entries fd ≠ none) (pipes : PipeTable) :
    ¬ Atomic st pid flags (.error errno, { st.setTable s p t with pipes := pipes }) := by
  rintro ⟨hsame, -⟩
  have htable : tableOf (st.setTable s p t) pid = tableOf st pid := hsame
  rw [tableOf_setTable hf, tableOf_eq hf] at htable
  exact hleft (htable ▸ hfree)

/-- the call once there is a pipe and a process: nothing is left over iff no descriptor was free, or two -/
theorem pipe2_atomic_of_pipe (ha : st.pipes.allocPipe = some (id, pipes)) (hf : st.find pid = some (s, p))
    (writable : Bool) : Atomic st pid flags (st.pipe2 pid flags true writable) ↔
      p.fdTable.free = 0 ∨ (2 ≤ p.fdTable.free ∧ writable = true) := by
  cases hr : p.fdTable.alloc (.newPipeRead id) (hasCloexec flags) with
  | none =>
    have hfull := FdTable.alloc_eq_none.1 hr
    rw [pipe2_full ha hf hfull writable]
    exact iff_of_true ⟨rfl, rfl⟩ (.inl hfull)
  | some rt =>
    obtain ⟨rfd, t⟩ := rt
    have hcount := FdTable.free_alloc hr
    obtain ⟨-, hrfree, ht⟩ := alloc_some hr
    cases hw : t.alloc (.newPipeWrite id) (hasCloexec flags) with
    | none =>
      have hfull := FdTable.alloc_eq_none.1 hw
      rw [pipe2_one ha hf hr hfull writable]
      exact iff_of_false (not_atomic_of_entry hf hrfree (ht ▸ entries_set_self) st.pipes) (by omega)
    | some wt =>
      obtain ⟨wfd, t'⟩ := wt
      have hcount' := FdTable.free_alloc hw
      obtain ⟨hadds, hleft⟩ := adds_of_alloc (s := s) ha hr hw
      rw [pipe2_both ha hf hr hw writable]
      cases writable with
      | true => exact iff_of_true ⟨rfl, s, p, id, rfd, wfd, hf, hadds⟩ (.inr ⟨by omega, rfl⟩)
      | false => exact iff_of_false (not_atomic_of_entry hf hrfree hleft pipes) (by simp; omega)

/-- **All or nothing.** A `pipe2` that fails leaves the descriptors and the pipes as they were, and one that succeeds
adds exactly the two ends of one new pipe, if and only if the call is clear: it fails early, finds no free descriptor,
or finds two and can write their numbers to the caller. -/
theorem pipe2_atomic_iff (st : Sys) (pid flags : ℕ) (ptrValid ptrWritable : Bool) :
    Atomic st pid flags (st.pipe2 pid flags ptrValid ptrWritable) ↔ Clear st pid ptrValid ptrWritable := by
  cases ptrValid with
  | false => exact iff_of_true ⟨rfl, rfl⟩ (.inl rfl)
  | true =>
    cases ha : st.pipes.allocPipe with
    | none =>
      have hpipe : st.pipe2 pid flags true ptrWritable = (.error .EMFILE, st) := by simp [Sys.pipe2, ha]
      rw [hpipe]
      exact iff_of_true ⟨rfl, rfl⟩ (.inr (.inl ha))
    | some idp =>
      cases hf : st.find pid with
      | none =>
        rw [pipe2_absent ha hf ptrWritable]
        exact iff_of_true ⟨rfl, rfl⟩ (.inr (.inr (.inl hf)))
      | some sp =>
        rw [pipe2_atomic_of_pipe ha hf, Clear, ha, hf, tableOf_eq hf]
        simp

end Pipe2

/-- process 1 with one free descriptor, 255 -/
def almostFull : Sys :=
  { init fun _ => true with
    procs := fun s => if s = 0 then some ⟨1, fun fd => if fd < 255 then some .tty else none, fun _ => 0⟩ else none }

/-- **A descriptor on no pipe.** With one free descriptor `pipe2` fails, and descriptor 255 is the read end of pipe 0,
which is free. -/
theorem one_free_descriptor :
    (almostFull.pipe2 1 0 true true).1.toOption = none ∧
      endAt (almostFull.pipe2 1 0 true true).2 1 255 = some (0, false) ∧
      ((almostFull.pipe2 1 0 true true).2.pipes.get 0).isNone ∧ endAt almostFull 1 255 = none := by
  refine ⟨?_, ?_, ?_, ?_⟩
  · decide +kernel
  · decide +kernel
  · decide +kernel
  · decide +kernel

end SwiftCore.Syscall.PipeAtomic
