/-
Reference counts of pipe ends: `readRefs` and `writeRefs` against the number of descriptors that hold the end.

The counts are set by `allocPipe` and counted down only where `pipe2` fails. Copying a handle does not count up, and
dropping one does not count down: `Drop` returns at once for a handle that is not remote. So the counts are right as long
as no step changes which pipe ends are held (`Quiet`), apart from a `pipe2` that finds a free descriptor for both ends or
for none. A `pipe2` that finds exactly one frees the pipe and leaves a descriptor that names it.

- `pipe_refs_of_quiet_run`: in every run of quiet steps counts and holders agree, a slot is free iff nobody holds an end
  of it, and so end of file, `EPIPE` and reuse of a slot come exactly when they should.
- `closed_reader_still_counted`: one `pipe2` and one `close`, and the read end is counted though nobody holds it.
-/
import SwiftCore.Lib.Run
import SwiftCore.Syscall.Files

namespace SwiftCore.Syscall.PipeRefs

open Run SwiftCore.Task Files

/-! ## Who holds an end -/

/-- the pipe end a handle stands for: pipe and whether it is the write end -/
def pipeEnd (h : FileHandle) : Option (ℕ × Bool) := h.pipeId.map fun id => (id, h.pipeWrite)

def endWeight (id : ℕ) (e : Bool) (h : FileHandle) : ℕ := if pipeEnd h = some (id, e) then 1 else 0

variable (st : Sys)

/-- the number of handles, in all live tables, on one end of a pipe -/
def holders (id : ℕ) (e : Bool) : ℕ := live (endWeight id e) st

/-- the end that descriptor `fd` holds -/
def endAt (pid fd : ℕ) : Option (ℕ × Bool) := (st.handle pid fd).bind pipeEnd

/-! ## Quiet steps -/

def noEnds (hs : List FileHandle) : Prop := ∀ h ∈ hs, pipeEnd h = none
  deriving Decidable

/-- the table of process `pid`, empty when there is none -/
def tableOf (pid : ℕ) : FdTable := ((st.find pid).map fun sp => sp.2.fdTable).getD FdTable.new

/-- the step leaves every end with as many holders as before, or is a `pipe2` with room for both ends or for none -/
def Quiet : Op → Prop
  | .pipe2 pid _ ptrValid _ => ptrValid = false ∨ st.pipes.allocPipe = none ∨ (tableOf st pid).free ≠ 1
  | .dup pid fd => endAt st pid fd = none ∨ (tableOf st pid).free = 0
  | .dup2 pid oldFd newFd =>
    newFd < fdBase ∨ processMaxFds ≤ newFd ∨ (st.cloneForDup2 pid oldFd).isNone ∨
      endAt st pid oldFd = endAt st pid newFd
  | .fork pid ok => noEnds (tableOf st pid).handles ∨ ok = false ∨ SlotTable.firstFree 0 maxProcesses st.procs = none
  | .close pid fd => endAt st pid fd = none
  | .closeCloexec pid => noEnds (tableOf st pid).closeCloexecFds.1
  | .removeProcess pid => noEnds (tableOf st pid).handles
  | _ => True

instance (o : Op) : Decidable (Quiet st o) := by
  cases o <;> unfold Quiet <;> infer_instance

/-! ## The counts agree with the holders -/

/-- the pipe table is right for `n id e` holders of each end -/
def Agree (t : PipeTable) (n : ℕ → Bool → ℕ) : Prop :=
  ∀ id, match t.get id with
    | none => ∀ e, n id e = 0
    | some pb => (∀ e, pb.refs e = n id e) ∧ ∃ e, 0 < n id e

def Inv : Prop := Agree st.pipes (holders st)

theorem agree_of_refs {t t' : PipeTable} {n : ℕ → Bool → ℕ} (h : Agree t n)
    (hrefs : ∀ id, (t'.get id).map PipeBuffer.refs = (t.get id).map PipeBuffer.refs) : Agree t' n := by
  intro id
  have hid := h id
  have hr := hrefs id
  cases ht : t.get id with
  | none =>
    rw [ht, Option.map_none, Option.map_eq_none_iff] at hr
    simpa [ht, hr] using hid
  | some pb =>
    rw [ht, Option.map_some, Option.map_eq_some_iff] at hr
    obtain ⟨pb', hpb', hr⟩ := hr
    simpa [ht, hpb', hr] using hid

/-- neither the pipes nor the number of holders of any end change -/
structure Keeps (st st' : Sys) : Prop where
  pipes : st'.pipes = st.pipes
  holders : ∀ id e, holders st' id e = holders st id e

variable {st st' : Sys} {h : FileHandle} {pid s : ℕ} {p : Process}

theorem Keeps.inv (h : Keeps st st') (hinv : Inv st) : Inv st' := by
  have hholders : PipeRefs.holders st' = PipeRefs.holders st := by
    funext id e
    exact h.holders id e
  rw [Inv, h.pipes, hholders]
  exact hinv

theorem Keeps.of_tables (h : SameTables st st') : Keeps st st' :=
  ⟨h.pipes, fun id e => h.live (endWeight id e)⟩

theorem Keeps.trans {st'' : Sys} (h : Keeps st st') (h' : Keeps st' st'') : Keeps st st'' :=
  ⟨h'.pipes.trans h.pipes, fun id e => (h'.holders id e).trans (h.holders id e)⟩

theorem endWeight_of_none (hn : pipeEnd h = none) (id : ℕ) (e : Bool) : endWeight id e h = 0 := by
  simp [endWeight, hn]

theorem sum_noEnds {hs : List FileHandle} (hn : noEnds hs) (id : ℕ) (e : Bool) :
    (hs.map (endWeight id e)).sum = 0 := by
  rw [List.sum_eq_zero_iff]
  intro n hmem
  obtain ⟨h, hh, rfl⟩ := List.mem_map.1 hmem
  exact endWeight_of_none (hn h hh) id e

/-- another table of the same weights for a process keeps the holders -/
theorem keeps_setTable {t : FdTable} (hf : st.find pid = some (s, p))
    (hw : ∀ id e, t.weight (endWeight id e) = p.fdTable.weight (endWeight id e)) : Keeps st (st.setTable s p t) := by
  refine ⟨rfl, fun id e => ?_⟩
  have hset := live_setTable (endWeight id e) hf t
  have := hw id e
  unfold holders
  omega

theorem handle_eq (hf : st.find pid = some (s, p)) (fd : ℕ) : st.handle pid fd = p.fdTable.get fd := by
  rw [Sys.handle, hf, Option.bind_some]

theorem tableOf_eq (hf : st.find pid = some (s, p)) : tableOf st pid = p.fdTable := by
  rw [tableOf, hf, Option.map_some, Option.getD_some]

@[simp] theorem pipeEnd_clone (h : FileHandle) : pipeEnd h.clone = pipeEnd h := rfl

/-! ## Each quiet step keeps the holders -/

theorem keeps_close {fd : ℕ} (hq : endAt st pid fd = none) : Keeps st (st.close pid fd).2 := by
  unfold Sys.close
  split_ifs
  · exact Keeps.of_tables (SameTables.refl st)
  cases hf : st.find pid with
  | none => exact Keeps.of_tables (SameTables.refl st)
  | some sp =>
    obtain ⟨s, p⟩ := sp
    rcases ht : p.fdTable.take fd with ⟨_ | h, t⟩
    · simpa only [ht] using Keeps.of_tables (SameTables.refl st)
    · have hget := FdTable.take_some ht
      have hend : pipeEnd h = none := by
        rwa [endAt, handle_eq hf, hget, Option.bind_some] at hq
      have hkeep : Keeps st (st.setTable s p t) := by
        refine keeps_setTable hf fun id e => ?_
        have hw := FdTable.weight_take (endWeight id e) ht
        rwa [endWeight_of_none hend, Nat.add_zero] at hw
      simp only [ht]
      exact hkeep.trans (Keeps.of_tables (dropHandle_tables _ h))

/-- a handle that stands for no end, or that finds no free descriptor, keeps the holders -/
theorem keeps_allocHandle (cloexec : Bool)
    (hq : pipeEnd h = none ∨ (tableOf st pid).free = 0) : Keeps st (st.allocHandle pid h cloexec).2 := by
  refine ⟨allocHandle_pipes st pid h cloexec, fun id e => ?_⟩
  unfold holders
  rw [live_allocHandle]
  rcases hq with hend | hfull
  · rw [endWeight_of_none hend, ite_self, Nat.add_zero]
  · have hnone : (st.allocHandle pid h cloexec).1 = none := by
      unfold Sys.allocHandle
      cases hf : st.find pid with
      | none => rfl
      | some sp =>
        rw [tableOf_eq hf] at hfull
        simp [FdTable.alloc_eq_none.2 hfull]
    simp [hnone]

theorem allocOrENOSYS_snd (st : Sys) (pid : ℕ) (h : FileHandle) (cloexec : Bool) :
    (st.allocOrENOSYS pid h cloexec).2 = (st.allocHandle pid h cloexec).2 := by
  unfold Sys.allocOrENOSYS
  rcases st.allocHandle pid h cloexec with ⟨_ | fd, st'⟩ <;> rfl

theorem tableOf_congr (h : SameTables st st') (pid : ℕ) : tableOf st' pid = tableOf st pid := by
  rw [tableOf, tableOf, h.find]

theorem keeps_dup {fd : ℕ} (hq : endAt st pid fd = none ∨ (tableOf st pid).free = 0) :
    Keeps st (st.dup pid fd).2 := by
  unfold Sys.dup
  split_ifs
  · rw [allocOrENOSYS_snd]
    exact keeps_allocHandle false (.inl rfl)
  cases hh : st.handle pid fd with
  | none => exact Keeps.of_tables (SameTables.refl st)
  | some h =>
    have hbump := bump_tables st h
    simp only [allocOrENOSYS_snd]
    refine (Keeps.of_tables hbump).trans (keeps_allocHandle false ?_)
    rw [tableOf_congr hbump, pipeEnd_clone]
    rwa [endAt, hh, Option.bind_some] at hq

/-- what `dup2` copies: the same end, and no table changes -/
theorem cloneForDup2_some {oldFd : ℕ}
    (hc : st.cloneForDup2 pid oldFd = some (h, st')) : SameTables st st' ∧ pipeEnd h = endAt st pid oldFd := by
  unfold Sys.cloneForDup2 at hc
  split_ifs at hc with hlow
  · cases hc
    have hnone : endAt st pid oldFd = none := by
      rw [endAt, Sys.handle]
      cases st.find pid <;> simp [FdTable.get, hlow]
    exact ⟨SameTables.refl st, hnone.symm⟩
  · obtain ⟨h₀, hh, heq⟩ := Option.map_eq_some_iff.1 hc
    cases heq
    exact ⟨bump_tables st h₀, by rw [endAt, hh, Option.bind_some, pipeEnd_clone]⟩

theorem weigh_endWeight (id : ℕ) (e : Bool) (o : Option FileHandle) :
    SlotTable.weigh (endWeight id e) o = if o.bind pipeEnd = some (id, e) then 1 else 0 := by
  cases o <;> rfl

theorem keeps_dup2 {oldFd newFd : ℕ} (hq : newFd < fdBase ∨ processMaxFds ≤ newFd ∨
    (st.cloneForDup2 pid oldFd).isNone ∨ endAt st pid oldFd = endAt st pid newFd) :
    Keeps st (st.dup2 pid oldFd newFd).2 := by
  unfold Sys.dup2
  split_ifs with hrange heq
  · exact Keeps.of_tables (SameTables.refl st)
  · exact Keeps.of_tables (SameTables.refl st)
  · exact Keeps.of_tables (SameTables.refl st)
  cases hc : st.cloneForDup2 pid oldFd with
  | none => exact Keeps.of_tables (SameTables.refl st)
  | some hst =>
    obtain ⟨h, st'⟩ := hst
    obtain ⟨hsame, hend⟩ := cloneForDup2_some hc
    refine (Keeps.of_tables hsame).trans ?_
    dsimp only
    cases hf : st'.find pid with
    | none => exact Keeps.of_tables (dropHandle_tables st' h)
    | some sp =>
      obtain ⟨s, p⟩ := sp
      have hends : endAt st pid oldFd = endAt st pid newFd := by
        rcases hq with hq | hq | hq | hq
        · omega
        · omega
        · simp [hc] at hq
        · exact hq
      have hnew : endAt st pid newFd = (p.fdTable.get newFd).bind pipeEnd := by
        rw [hsame.find] at hf
        rw [endAt, handle_eq hf]
      refine Keeps.trans (keeps_setTable hf fun id e => ?_) (Keeps.of_tables (dropAll_tables _ _))
      -- the copy and the handle it replaces stand for the same end
      have hw := FdTable.weight_take_set (endWeight id e) p.fdTable newFd (by omega) (by omega) h 0
      have heq : endWeight id e h = SlotTable.weigh (endWeight id e) (p.fdTable.get newFd) := by
        rw [weigh_endWeight, endWeight, hend, hends, hnew]
      omega

theorem keeps_fork {ok : Bool} (hq : noEnds (tableOf st pid).handles ∨ ok = false ∨
    SlotTable.firstFree 0 maxProcesses st.procs = none) : Keeps st (st.fork pid ok).2 := by
  have hsame := cloneTable_tables st pid
  -- without a child only counters have changed
  have hundo : ∀ hs, Keeps st (({ (st.cloneTable pid).2 with nextPid := (st.cloneTable pid).2.nextPid + 1 } : Sys).dropAll
      hs) := by
    intro hs
    have hnext : SameTables st { (st.cloneTable pid).2 with nextPid := (st.cloneTable pid).2.nextPid + 1 } :=
      ⟨hsame.procs, hsame.pipes⟩
    exact Keeps.of_tables (hnext.trans (dropAll_tables _ hs))
  have hweight : ∀ id e, noEnds (tableOf st pid).handles → (st.cloneTable pid).1.weight (endWeight id e) = 0 := by
    intro id e hn
    unfold Sys.cloneTable
    cases hf : st.find pid with
    | none => exact FdTable.weight_new _
    | some sp =>
      rw [tableOf_eq hf] at hn
      dsimp only
      rw [FdTable.weight_cloneForFork, ← FdTable.sum_handles]
      exact sum_noEnds hn id e
  unfold Sys.fork
  dsimp only
  cases hs : SlotTable.firstFree 0 maxProcesses (st.cloneTable pid).2.procs with
  | none => exact hundo _
  | some s =>
    dsimp only
    split_ifs with hok
    · have hn : noEnds (tableOf st pid).handles := by
        rcases hq with hq | hq | hq
        · exact hq
        · simp [hok] at hq
        · rw [hsame.procs, hq] at hs
          cases hs
      refine ⟨hsame.pipes, fun id e => ?_⟩
      have hnew := live_newProcess (endWeight id e) hs ⟨(st.cloneTable pid).2.nextPid, (st.cloneTable pid).1⟩
      rw [hweight id e hn, Nat.add_zero] at hnew
      exact hnew.trans (hsame.live _)
    · exact hundo _

theorem keeps_spawn (st : Sys) : Keeps st st.spawn := by
  unfold Sys.spawn
  cases hs : SlotTable.firstFree 0 maxProcesses st.procs with
  | none => exact Keeps.of_tables ⟨rfl, rfl⟩
  | some s =>
    refine ⟨rfl, fun id e => ?_⟩
    have hnew := live_newProcess (endWeight id e) hs ⟨st.nextPid, FdTable.new⟩
    rwa [FdTable.weight_new, Nat.add_zero] at hnew

theorem keeps_closeCloexec (hq : noEnds (tableOf st pid).closeCloexecFds.1) : Keeps st (st.closeCloexec pid) := by
  unfold Sys.closeCloexec
  cases hf : st.find pid with
  | none => exact Keeps.of_tables (SameTables.refl st)
  | some sp =>
    obtain ⟨s, p⟩ := sp
    rw [tableOf_eq hf] at hq
    refine Keeps.trans (keeps_setTable hf fun id e => ?_) (Keeps.of_tables (dropAll_tables _ _))
    have hw := FdTable.weight_closeCloexecFds (endWeight id e) p.fdTable
    rwa [sum_noEnds hq, Nat.add_zero] at hw

theorem keeps_removeProcess (hq : noEnds (tableOf st pid).handles) : Keeps st (st.removeProcess pid) := by
  unfold Sys.removeProcess
  cases hf : st.find pid with
  | none => exact Keeps.of_tables (SameTables.refl st)
  | some sp =>
    obtain ⟨s, p⟩ := sp
    rw [tableOf_eq hf] at hq
    obtain ⟨hlt, hp⟩ := find_some hf
    suffices hrem : Keeps st { st with procs := Function.update st.procs s none } from
      hrem.trans (Keeps.of_tables (dropAll_tables _ _))
    refine ⟨rfl, fun id e => ?_⟩
    have hup := live_update (endWeight id e) st hlt none
    have hw := FdTable.sum_handles (endWeight id e) p.fdTable
    rw [sum_noEnds hq] at hw
    rw [hp, SlotTable.weigh_some, SlotTable.weigh_none] at hup
    unfold holders
    omega

theorem keeps_setFd (st : Sys) (pid fd : ℕ) (cloexec : Bool) : Keeps st (st.setFd pid fd cloexec) := by
  unfold Sys.setFd
  cases hf : st.find pid with
  | none => exact Keeps.of_tables (SameTables.refl st)
  | some sp =>
    refine keeps_setTable hf fun id e => ?_
    rw [FdTable.weight, FdTable.setFlags_entries]
    rfl

theorem keeps_openResolved (st : Sys) (pid : ℕ) (o : Opened) (flags : ℕ) : Keeps st (st.openResolved pid o flags).2 := by
  cases o with
  | failed e => exact Keeps.of_tables (SameTables.refl st)
  | loc data pos dirPath =>
    simp only [Sys.openResolved, allocOrENOSYS_snd]
    exact keeps_allocHandle _ (.inl rfl)
  | remote fdRemote dirPath =>
    simp only [Sys.openResolved]
    generalize hst : ({ st with
      opened := st.opened ++ [fdRemote], refs := Function.update st.refs st.opened.length 1 } : Sys) = st'
    have hsame : SameTables st st' := by
      subst hst
      exact ⟨rfl, rfl⟩
    have halloc : Keeps st' (st'.allocHandle pid (FileHandle.newRemote fdRemote st.opened.length dirPath flags)
        (hasCloexec flags)).2 := keeps_allocHandle _ (.inl rfl)
    have hkeep := (Keeps.of_tables hsame).trans halloc
    generalize st'.allocHandle pid _ _ = res at hkeep
    obtain ⟨_ | fd, st''⟩ := res
    · exact hkeep.trans (Keeps.of_tables ⟨rfl, rfl⟩)
    · exact hkeep

/-! ## Steps that touch the pipes -/

/-- moving bytes through a pipe keeps the counts -/
theorem refs_set {t : PipeTable} {id : ℕ} {pb pb' : PipeBuffer} (hget : t.get id = some pb)
    (hrefs : ∀ e, pb'.refs e = pb.refs e) (j : ℕ) :
    ((t.set id (some pb')).get j).map PipeBuffer.refs = (t.get j).map PipeBuffer.refs := by
  rw [PipeTable.get_set (PipeTable.get_lt hget)]
  split_ifs with hj
  · rw [hj, hget, Option.map_some, Option.map_some, funext hrefs]
  · rfl

theorem pipeWrite_refs (t : PipeTable) (id : ℕ) (data : List UInt8) (j : ℕ) :
    ((t.pipeWrite id data).2.get j).map PipeBuffer.refs = (t.get j).map PipeBuffer.refs := by
  unfold PipeTable.pipeWrite
  cases hget : t.get id with
  | none => rfl
  | some pb =>
    dsimp only
    split_ifs
    · rfl
    · rfl
    · exact refs_set hget (pb.writeBytes_refs data) j

theorem pipeReadTurn_refs (t : PipeTable) (id n : ℕ) (j : ℕ) :
    ((t.pipeReadTurn id n).2.get j).map PipeBuffer.refs = (t.get j).map PipeBuffer.refs := by
  unfold PipeTable.pipeReadTurn
  cases hget : t.get id with
  | none => rfl
  | some pb =>
    dsimp only
    split_ifs
    · exact refs_set hget (pb.readBytes_refs n) j
    · rfl
    · rfl

theorem inv_write (h : Inv st) (pid fd : ℕ) (data : List UInt8) : Inv (st.write pid fd data).2 := by
  unfold Sys.write
  split
  · exact h
  · split
    · exact h
    · split_ifs
      · exact agree_of_refs h (pipeWrite_refs st.pipes _ data)
      · exact h

theorem inv_readTurn (h : Inv st) (pid fd n : ℕ) : Inv (st.readTurn pid fd n) := by
  unfold Sys.readTurn
  split
  · exact h
  · split
    · exact h
    · split_ifs
      · exact h
      · exact agree_of_refs h (pipeReadTurn_refs st.pipes _ n)

/-- two allocations in a row both succeed or both fail, unless exactly one descriptor is free -/
theorem allocHandle_twice (h₁ h₂ : FileHandle) (cloexec : Bool) (hfree : (tableOf st pid).free ≠ 1) :
    ((st.allocHandle pid h₁ cloexec).2.allocHandle pid h₂ cloexec).1.isSome =
      (st.allocHandle pid h₁ cloexec).1.isSome := by
  cases hf : st.find pid with
  | none =>
    have hf' : (st.dropHandle h₁).find pid = none := ((dropHandle_tables st h₁).find pid).trans hf
    simp [Sys.allocHandle, hf, hf']
  | some sp =>
    obtain ⟨s, p⟩ := sp
    rw [tableOf_eq hf] at hfree
    cases ha : p.fdTable.alloc h₁ cloexec with
    | none =>
      have hf' : (st.dropHandle h₁).find pid = some (s, p) := ((dropHandle_tables st h₁).find pid).trans hf
      have ha' : p.fdTable.alloc h₂ cloexec = none := FdTable.alloc_eq_none.2 (FdTable.alloc_eq_none.1 ha)
      simp [Sys.allocHandle, hf, ha, hf', ha']
    | some ft =>
      obtain ⟨fd, t⟩ := ft
      have hcount := FdTable.free_alloc ha
      obtain ⟨ft', ha'⟩ : ∃ ft', t.alloc h₂ cloexec = some ft' := by
        rw [← Option.ne_none_iff_exists']
        intro hnone
        have := FdTable.alloc_eq_none.1 hnone
        omega
      simp [Sys.allocHandle, hf, ha, find_setTable hf t, ha']

/-- `pipe2` with a valid pointer and a free slot for the pipe -/
theorem inv_pipe2_alloc (h : Inv st) {id : ℕ} {pipes : PipeTable} (cloexec : Bool)
    (ha : st.pipes.allocPipe = some (id, pipes)) (hfree : (tableOf st pid).free ≠ 1) :
    let r := ({ st with pipes := pipes } : Sys).allocHandle pid (FileHandle.newPipeRead id) cloexec
    let w := r.2.allocHandle pid (FileHandle.newPipeWrite id) cloexec
    w.1.isSome = r.1.isSome ∧ if r.1.isSome then Inv w.2 else
      Inv { w.2 with pipes := (w.2.pipes.closeReadEnd id).closeWriteEnd id } := by
  obtain ⟨hid, hnone, rfl⟩ := PipeTable.allocPipe_some ha
  intro r w
  have hsome : w.1.isSome = r.1.isSome := allocHandle_twice _ _ _ hfree
  have hpipes : w.2.pipes = st.pipes.set id (some { PipeBuffer.new with readRefs := 1, writeRefs := 1 }) :=
    (allocHandle_pipes _ _ _ _).trans (allocHandle_pipes _ _ _ _)
  have hunheld : ∀ e, holders st id e = 0 := by simpa [hnone] using h id
  have hholders : ∀ j e, holders w.2 j e = holders st j e + if r.1.isSome ∧ j = id then 1 else 0 := by
    intro j e
    have hw : holders w.2 j e = holders r.2 j e + if w.1.isSome then endWeight j e (FileHandle.newPipeWrite id) else 0 :=
      live_allocHandle _ _ _ _ _
    have hr : holders r.2 j e = holders st j e + if r.1.isSome then endWeight j e (FileHandle.newPipeRead id) else 0 :=
      live_allocHandle _ _ _ _ _
    have hends : endWeight j e (FileHandle.newPipeWrite id) + endWeight j e (FileHandle.newPipeRead id) =
        if j = id then 1 else 0 := by
      rcases eq_or_ne j id with rfl | hj
      · cases e <;> simp [endWeight, pipeEnd, FileHandle.newPipeWrite, FileHandle.newPipeRead]
      · simp [endWeight, pipeEnd, FileHandle.newPipeWrite, FileHandle.newPipeRead, hj, hj.symm]
    rw [hw, hr, hsome]
    cases r.1.isSome with
    | false => simp
    | true =>
      simp only [if_true, true_and]
      omega
  refine ⟨hsome, ?_⟩
  split_ifs with hr
  · intro j
    simp only [hpipes, PipeTable.get_set hid, hholders, hr, true_and]
    rcases eq_or_ne j id with rfl | hj
    · simp only [if_true, hunheld]
      refine ⟨fun e => ?_, true, by omega⟩
      cases e <;> rfl
    · simpa [hj] using h j
  · intro j
    have hget := PipeTable.close_both (t := st.pipes) hid j
    rw [← hpipes] at hget
    have hsame : ∀ e, holders { w.2 with pipes := (w.2.pipes.closeReadEnd id).closeWriteEnd id } j e = holders st j e := by
      intro e
      have hj := hholders j e
      rw [if_neg fun hc => hr hc.1, Nat.add_zero] at hj
      exact hj
    simp only [hget, hsame]
    rcases eq_or_ne j id with rfl | hj
    · simpa using hunheld
    · simpa [hj] using h j

theorem inv_pipe2 (h : Inv st) (flags : ℕ) {ptrValid : Bool} (ptrWritable : Bool)
    (hq : ptrValid = false ∨ st.pipes.allocPipe = none ∨ (tableOf st pid).free ≠ 1) :
    Inv (st.pipe2 pid flags ptrValid ptrWritable).2 := by
  cases ptrValid with
  | false => exact h
  | true =>
    cases ha : st.pipes.allocPipe with
    | none => simpa [Sys.pipe2, ha] using h
    | some idp =>
      obtain ⟨id, pipes⟩ := idp
      have hfree : (tableOf st pid).free ≠ 1 := by
        rcases hq with hq | hq | hq
        · cases hq
        · simp [ha] at hq
        · exact hq
      obtain ⟨hsome, hinv⟩ := inv_pipe2_alloc h (hasCloexec flags) ha hfree
      simp only [Sys.pipe2, ha, not_true_eq_false, if_false, hsome, and_self]
      split_ifs at hinv ⊢ <;> exact hinv

theorem step_inv (st : Sys) (o : Op) (h : Inv st) (hq : Quiet st o) : Inv (step st o) := by
  cases o with
  | spawn => exact (keeps_spawn st).inv h
  | openFile pid o flags => exact (keeps_openResolved st pid o flags).inv h
  | pipe2 pid flags ptrValid ptrWritable => exact inv_pipe2 h flags ptrWritable hq
  | dup pid fd => exact (keeps_dup hq).inv h
  | dup2 pid oldFd newFd => exact (keeps_dup2 hq).inv h
  | fork pid ok => exact (keeps_fork hq).inv h
  | close pid fd => exact (keeps_close hq).inv h
  | setFd pid fd cloexec => exact (keeps_setFd st pid fd cloexec).inv h
  | closeCloexec pid => exact (keeps_closeCloexec hq).inv h
  | removeProcess pid => exact (keeps_removeProcess hq).inv h
  | write pid fd data => exact inv_write h pid fd data
  | readTurn pid fd n => exact inv_readTurn h pid fd n

theorem inv_init (service : ℕ → Bool) : Inv (init service) := by
  intro id
  have hnone : (init service).pipes.get id = none := by simp [init, PipeTable.new, PipeTable.get]
  rw [hnone]
  exact fun e => SlotTable.tally_empty _

/-! ## Results -/

/-- **Pipe ends are counted in quiet runs.** In every state that quiet steps reach, for every pipe: the counts are the
numbers of handles on its ends; its slot is free exactly when there is no such handle; a drained reader sees end of file
exactly when nobody holds the write end; a write fails with `EPIPE` exactly when nobody holds the read end; and a slot is
given to a new pipe only when no handle names it. -/
theorem pipe_refs_of_quiet_run (service : ℕ → Bool) (ops : List Op) (hq : Along step Quiet (init service) ops) :
    let st := run step (init service) ops
    ∀ id,
      (∀ e, ((st.pipes.get id).map fun pb => pb.refs e).getD 0 = holders st id e) ∧
      (st.pipes.get id = none ↔ ∀ e, holders st id e = 0) ∧
      (∀ n, (st.pipes.pipeReadTurn id n).1 = .eof ↔ (∀ pb ∈ st.pipes.get id, pb.len = 0) ∧ holders st id true = 0) ∧
      (∀ data, (st.pipes.pipeWrite id data).1 = .error .EPIPE ↔ holders st id false = 0) ∧
      ∀ pipes, st.pipes.allocPipe = some (id, pipes) → ∀ e, holders st id e = 0 := by
  intro st id
  have h : Inv st := inv_along step_inv (init service) ops (inv_init service) hq
  have hid := h id
  -- what the counts decide, once they agree with the holders
  cases hget : st.pipes.get id with
  | none =>
    rw [hget] at hid
    simp [PipeTable.pipeReadTurn, PipeTable.pipeWrite, hget, hid]
  | some pb =>
    rw [hget] at hid
    obtain ⟨hrefs, e, hpos⟩ := hid
    have hread : holders st id false = pb.readRefs := (hrefs false).symm
    have hwrite : holders st id true = pb.writeRefs := (hrefs true).symm
    refine ⟨fun e => by simpa using hrefs e, ⟨fun hc => by simp at hc, fun hc => absurd (hc e) hpos.ne'⟩, fun n => ?_,
      fun data => ?_, fun pipes ha => ?_⟩
    · simp only [PipeTable.pipeReadTurn, hget, hwrite, Option.mem_some_iff, forall_eq']
      split_ifs <;> simp <;> omega
    · simp only [PipeTable.pipeWrite, hget, hread]
      split_ifs <;> simp_all
    · cases hget.symm.trans (PipeTable.allocPipe_some ha).2.1

/-- one process, one pipe, a byte through it -/
theorem pipe_refs_one_pipe :
    let st := run step (init fun _ => true)
      [.spawn, .pipe2 1 0 true true, .write 1 4 [7], .readTurn 1 3 1, .dup 1 0, .closeCloexec 1]
    (st.pipes.get 0 = none ↔ ∀ e, holders st 0 e = 0) ∧
      ∀ data, (st.pipes.pipeWrite 0 data).1 = .error .EPIPE ↔ holders st 0 false = 0 := by
  intro st
  have h := pipe_refs_of_quiet_run (fun _ => true)
    [.spawn, .pipe2 1 0 true true, .write 1 4 [7], .readTurn 1 3 1, .dup 1 0, .closeCloexec 1] (by decide +kernel) 0
  exact ⟨h.2.1, h.2.2.2.1⟩

/-- **A closed reader is still counted.** After `pipe2` and the close of the read end nobody holds it, its count is 1,
and a write does not fail. -/
theorem closed_reader_still_counted :
    let st := run step (init fun _ => true) [.spawn, .pipe2 1 0 true true, .close 1 3]
    ((st.pipes.get 0).map fun pb => pb.refs false).getD 0 = 1 ∧ holders st 0 false = 0 ∧
      (st.pipes.pipeWrite 0 [7]).1 = .ok 1 := by
  decide +kernel

end SwiftCore.Syscall.PipeRefs
