/-
Lifetime of remote descriptors: one `OP_CLOSE` for each descriptor the fs backend has given out, when its last handle
goes.

Handles of one descriptor share a counter. `Ledger st held` is the account: every counter is the number of handles that
carry it, in the live tables and in the hands of the running call (`held`); and the close requests sent for the `k`-th
descriptor are none while its counter is positive, and exactly one afterwards. Handles only move (`Ledger.moved`), are
copied (`ledger_bump`) or are dropped (`ledger_drop`), and all calls are made of these.

`open` breaks the account when no descriptor is free for the new handle: the handle is dropped inside `FdTable::alloc`,
which sends `OP_CLOSE`, and `open` sends another one.

- `remote_fd_closed_once`: in every run in which each `open` that gets a remote descriptor finds a free descriptor, and
  the fs service takes every close request, each remote descriptor has been sent exactly one `OP_CLOSE` if it has no
  handle left, and none if it has.
- `full_table_closes_twice`: an `open` on a full table.
-/
import SwiftCore.Lib.Run
import SwiftCore.Syscall.Files

namespace SwiftCore.Syscall.RemoteRefs

open Run SwiftCore.Task Files Function

/-! ## The account -/

/-- 1 for a handle that shares counter `a` -/
def shares (a : ℕ) (h : FileHandle) : ℕ := if h.isRemote ∧ h.remoteRefs = some a then 1 else 0

/-- a remote handle carries the counter of the descriptor it names -/
def Valid (opened : List ℕ) (h : FileHandle) : Prop :=
  h.isRemote → ∃ a ∈ h.remoteRefs, opened[a]? = some h.fdRemote
  deriving Decidable

def invalid (opened : List ℕ) (h : FileHandle) : ℕ := if Valid opened h then 0 else 1

/-- the weights of all handles: in the live tables and held by the running call -/
def total (w : FileHandle → ℕ) (st : Sys) (held : List FileHandle) : ℕ := live w st + (held.map w).sum

/-- the close requests sent for descriptor `a` -/
def closesOf (st : Sys) (a : ℕ) : List ℕ := (st.closes.filter fun c => c.1 = some a).map Prod.snd

structure Ledger (st : Sys) (held : List FileHandle) : Prop where
  count : ∀ a, st.refs a = total (shares a) st held
  valid : total (invalid st.opened) st held = 0
  closed : ∀ a, closesOf st a = if st.refs a = 0 then st.opened[a]?.toList else []
  service : ∀ k, st.service k = true

variable {st : Sys} {held : List FileHandle} {opened : List ℕ} {h : FileHandle} {a pid : ℕ}

/-- moving handles between tables and the running call keeps the account -/
theorem Ledger.moved {st' : Sys} {held' : List FileHandle} (h : Ledger st held)
    (htotal : ∀ w, total w st' held' = total w st held) (hrefs : st'.refs = st.refs) (hopened : st'.opened = st.opened)
    (hcloses : st'.closes = st.closes) (hservice : st'.service = st.service) : Ledger st' held' := by
  refine ⟨fun a => ?_, ?_, fun a => ?_, ?_⟩
  · rw [hrefs, htotal, h.count]
  · rw [hopened, htotal, h.valid]
  · rw [closesOf, hcloses, hrefs, hopened]
    exact h.closed a
  · rw [hservice]
    exact h.service

variable (w : FileHandle → ℕ)

@[simp] theorem total_nil (st : Sys) : total w st [] = live w st := by
  rw [total, List.map_nil, List.sum_nil, Nat.add_zero]

theorem total_cons (st : Sys) (h : FileHandle) (held : List FileHandle) :
    total w st (h :: held) = total w st held + w h := by
  simp only [total, List.map_cons, List.sum_cons]
  omega

/-- an invalid handle would be counted -/
theorem valid_of_total (ht : total (invalid opened) st (h :: held) = 0) : Valid opened h := by
  rw [total_cons] at ht
  by_contra hbad
  simp [invalid, hbad] at ht

theorem closesOf_closeRemote (st : Sys) (hservice : ∀ k, st.service k = true) (a b fd : ℕ) :
    closesOf (st.closeRemote (some b) fd) a = closesOf st a ++ if a = b then [fd] else [] := by
  simp only [closesOf, Sys.closeRemote, hservice, if_true, List.filter_append, List.map_append]
  congr 1
  rcases eq_or_ne a b with rfl | hab
  · simp
  · simp [hab, hab.symm]

theorem shares_self (hrem : h.isRemote = true) (ha : h.remoteRefs = some a) : shares a h = 1 := by
  simp [shares, hrem, ha]

theorem shares_other {b : ℕ} (ha : h.remoteRefs = some a) (hab : b ≠ a) : shares b h = 0 := by
  simp [shares, ha, hab.symm]

theorem shares_local (hrem : ¬ h.isRemote = true) (a : ℕ) : shares a h = 0 := by
  simp [shares, hrem]

/-- dropping a handle: the counter goes down, and the last handle sends the close request -/
theorem ledger_drop (hl : Ledger st (h :: held)) : Ledger (st.dropHandle h) held := by
  have hvalid := valid_of_total hl.valid
  have hrest : total (invalid st.opened) st held = 0 := by
    have := hl.valid
    rw [total_cons] at this
    omega
  have hcount : ∀ a, st.refs a = total (shares a) st held + shares a h := by
    intro a
    rw [hl.count, total_cons]
  unfold Sys.dropHandle
  split_ifs with hrem
  · obtain ⟨a, ha, hopened⟩ := hvalid hrem
    rw [Option.mem_def] at ha
    have hself : st.refs a = total (shares a) st held + 1 := by rw [hcount, shares_self hrem ha]
    have hother : ∀ b, b ≠ a → st.refs b = total (shares b) st held := by
      intro b hb
      rw [hcount, shares_other ha hb, Nat.add_zero]
    have hrefs : ∀ b, update st.refs a (st.refs a - 1) b = total (shares b) st held := by
      intro b
      rcases eq_or_ne b a with rfl | hb
      · rw [update_self, hself, Nat.add_sub_cancel]
      · rw [update_of_ne hb, hother b hb]
    simp only [ha]
    split_ifs with hlast
    · -- the last handle
      refine ⟨hrefs, hrest, fun b => ?_, hl.service⟩
      rw [closesOf_closeRemote _ (by exact hl.service)]
      have hb' := hl.closed b
      rcases eq_or_ne b a with rfl | hb
      · simpa [Sys.closeRemote, closesOf, hlast, hopened] using hb'
      · simpa [Sys.closeRemote, closesOf, hb] using hb'
    · refine ⟨hrefs, hrest, fun b => ?_, hl.service⟩
      have hb' := hl.closed b
      rcases eq_or_ne b a with rfl | hb
      · have hpos : st.refs b - 1 ≠ 0 := by omega
        have hpos' : st.refs b ≠ 0 := by omega
        simpa [closesOf, hpos, hpos'] using hb'
      · simpa [closesOf, hb] using hb'
  · refine ⟨fun a => ?_, hrest, hl.closed, hl.service⟩
    rw [hcount, shares_local hrem, Nat.add_zero]

theorem ledger_dropAll {hs : List FileHandle} (hl : Ledger st (hs ++ held)) : Ledger (st.dropAll hs) held := by
  induction hs generalizing st with
  | nil => exact hl
  | cons h hs ih => exact ih (ledger_drop hl)

/-- copying a handle that is in a table -/
theorem ledger_bump (hl : Ledger st held) (hlive : ∀ w, w h ≤ live w st) : Ledger (st.bump h) (h.clone :: held) := by
  have hvalid : Valid st.opened h := by
    have hle := hlive (invalid st.opened)
    have hzero := hl.valid
    unfold total at hzero
    by_contra hbad
    have hone : invalid st.opened h = 1 := if_neg hbad
    omega
  have hcloneValid : Valid st.opened h.clone := by
    intro hrem
    have hrem' : h.isRemote = true := hrem
    simpa [FileHandle.clone, hrem'] using hvalid hrem'
  have hrest : total (invalid st.opened) st (h.clone :: held) = 0 := by
    rw [total_cons, hl.valid, invalid, if_pos hcloneValid]
  unfold Sys.bump
  cases hc : h.clone.remoteRefs with
  | none =>
    have hloc : ¬ h.clone.isRemote = true := by
      intro hrem
      obtain ⟨a, ha, -⟩ := hcloneValid hrem
      simp [hc] at ha
    refine ⟨fun a => ?_, hrest, hl.closed, hl.service⟩
    rw [total_cons, shares_local hloc, Nat.add_zero]
    exact hl.count a
  | some a =>
    have hrem : h.isRemote = true := by
      by_contra hrem
      simp [FileHandle.clone, hrem] at hc
    have hpos : st.refs a ≠ 0 := by
      have hle := hlive (shares a)
      have hself : shares a h = 1 := shares_self hrem (by simpa [FileHandle.clone, hrem] using hc)
      have := hl.count a
      unfold total at this
      omega
    refine ⟨fun b => ?_, hrest, fun b => ?_, hl.service⟩
    · rw [total_cons]
      rcases eq_or_ne b a with rfl | hb
      · have hself : shares b h.clone = 1 := shares_self hrem hc
        exact (update_self b _ _).trans (by rw [hl.count, hself]; rfl)
      · rw [shares_other hc hb, Nat.add_zero]
        exact (update_of_ne hb _ _).trans (hl.count b)
    · have hb' := hl.closed b
      rcases eq_or_ne b a with rfl | hb
      · simpa [closesOf, hpos] using hb'
      · simpa [closesOf, hb] using hb'

theorem ledger_bumpAll {hs : List FileHandle} (hl : Ledger st held)
    (hlive : ∀ h ∈ hs, ∀ w : FileHandle → ℕ, w h ≤ live w st) :
    Ledger (st.bumpAll hs) ((hs.map FileHandle.clone).reverse ++ held) := by
  induction hs generalizing st held with
  | nil => exact hl
  | cons h hs ih =>
    have hbump := ledger_bump hl (hlive h (List.mem_cons_self))
    have hrest : ∀ h' ∈ hs, ∀ w : FileHandle → ℕ, w h' ≤ live w (st.bump h) := by
      intro h' hh' w
      rw [(bump_tables st h).live]
      exact hlive h' (List.mem_cons_of_mem h hh') w
    simpa [Sys.bumpAll] using ih hbump hrest

/-! ## Handles in tables -/

theorem weight_le_live {s : ℕ} {p : Process} (hf : st.find pid = some (s, p)) (w : FileHandle → ℕ) :
    p.fdTable.weight w ≤ live w st := by
  have hset := live_setTable w hf FdTable.new
  rw [FdTable.weight_new] at hset
  omega

theorem handle_le_live {fd : ℕ} (hh : st.handle pid fd = some h) (w : FileHandle → ℕ) : w h ≤ live w st := by
  obtain ⟨⟨s, p⟩, hf, hget⟩ := Option.bind_eq_some_iff.1 hh
  have hle := weight_le_live hf w
  obtain ⟨hlo, hhi, hentry⟩ := FdTable.get_some hget
  have hset := FdTable.weight_set w p.fdTable hlo hhi none 0
  rw [hentry, SlotTable.weigh_some, SlotTable.weigh_none] at hset
  omega

/-- a table of other handles for a process; the difference is in the hands of the call -/
theorem ledger_setTable {s : ℕ} {p : Process} {t : FdTable} {held' : List FileHandle}
    (hl : Ledger st held) (hf : st.find pid = some (s, p))
    (hw : ∀ w, t.weight w + (held'.map w).sum = p.fdTable.weight w + (held.map w).sum) :
    Ledger (st.setTable s p t) held' := by
  refine hl.moved (fun w => ?_) rfl rfl rfl rfl
  have hset := live_setTable w hf t
  have := hw w
  unfold total
  omega

/-- a new handle goes into a table or is dropped -/
theorem ledger_allocHandle (hl : Ledger st (h :: held)) (pid : ℕ)
    (cloexec : Bool) : Ledger (st.allocHandle pid h cloexec).2 held := by
  unfold Sys.allocHandle
  cases hf : st.find pid with
  | none => exact ledger_drop hl
  | some sp =>
    obtain ⟨s, p⟩ := sp
    cases ha : p.fdTable.alloc h cloexec with
    | none => simpa [ha] using ledger_drop hl
    | some ft =>
      obtain ⟨fd, t⟩ := ft
      simp only [ha]
      refine ledger_setTable hl hf fun w => ?_
      have hw := FdTable.weight_alloc w ha
      rw [List.map_cons, List.sum_cons]
      omega

theorem invalid_local (opened : List ℕ) (hrem : ¬ h.isRemote = true) : invalid opened h = 0 :=
  if_pos fun hc => absurd hc hrem

/-- a handle without remote descriptor -/
theorem ledger_local (hl : Ledger st held) (hrem : ¬ h.isRemote = true) : Ledger st (h :: held) := by
  refine ⟨fun a => ?_, ?_, hl.closed, hl.service⟩
  · rw [total_cons, shares_local hrem, Nat.add_zero, hl.count]
  · rw [total_cons, invalid_local _ hrem, hl.valid]

/-- another pipe table, another next process id: not part of the account -/
theorem ledger_frame (hl : Ledger st held) (pipes : PipeTable) (nextPid : ℕ) :
    Ledger { st with pipes := pipes, nextPid := nextPid } held :=
  hl.moved (fun _ => rfl) rfl rfl rfl rfl

/-! ## The calls -/

section

variable (hl : Ledger st [])

include hl

theorem ledger_close (pid fd : ℕ) : Ledger (st.close pid fd).2 [] := by
  unfold Sys.close
  split_ifs
  · exact hl
  cases hf : st.find pid with
  | none => exact hl
  | some sp =>
    obtain ⟨s, p⟩ := sp
    rcases ht : p.fdTable.take fd with ⟨_ | h, t⟩
    · simpa only [ht] using hl
    · simp only [ht]
      refine ledger_drop (ledger_setTable hl hf fun w => ?_)
      simpa using FdTable.weight_take w ht

omit hl in
theorem ledger_allocOrENOSYS (hl : Ledger st [h]) (pid : ℕ) (cloexec : Bool) :
    Ledger (st.allocOrENOSYS pid h cloexec).2 [] := by
  have halloc := ledger_allocHandle hl pid cloexec
  unfold Sys.allocOrENOSYS
  generalize st.allocHandle pid h cloexec = res at halloc
  obtain ⟨_ | fd, st'⟩ := res <;> exact halloc

theorem ledger_dup (pid fd : ℕ) : Ledger (st.dup pid fd).2 [] := by
  unfold Sys.dup
  split_ifs
  · exact ledger_allocOrENOSYS (ledger_local hl (by decide)) pid false
  cases hh : st.handle pid fd with
  | none => exact hl
  | some h => exact ledger_allocOrENOSYS (ledger_bump hl (handle_le_live hh)) pid false

theorem ledger_cloneForDup2 {st' : Sys} {oldFd : ℕ}
    (hc : st.cloneForDup2 pid oldFd = some (h, st')) : Ledger st' [h] := by
  unfold Sys.cloneForDup2 at hc
  split_ifs at hc
  · cases hc
    exact ledger_local hl (by decide)
  · obtain ⟨h₀, hh, heq⟩ := Option.map_eq_some_iff.1 hc
    cases heq
    exact ledger_bump hl (handle_le_live hh)

theorem ledger_dup2 (pid oldFd newFd : ℕ) : Ledger (st.dup2 pid oldFd newFd).2 [] := by
  unfold Sys.dup2
  split_ifs with hrange
  · exact hl
  · exact hl
  · exact hl
  cases hc : st.cloneForDup2 pid oldFd with
  | none => exact hl
  | some hst =>
    obtain ⟨h, st'⟩ := hst
    have hl' := ledger_cloneForDup2 hl hc
    dsimp only
    cases hf : st'.find pid with
    | none => exact ledger_drop hl'
    | some sp =>
      obtain ⟨s, p⟩ := sp
      have hold : (p.fdTable.take newFd).1 = p.fdTable.get newFd := by
        unfold FdTable.take
        cases p.fdTable.get newFd <;> rfl
      have hset : Ledger (st'.setTable s p ((p.fdTable.take newFd).2.set newFd (some h) 0))
          ((p.fdTable.take newFd).1.toList ++ []) := by
        refine ledger_setTable hl' hf fun w => ?_
        have hw := FdTable.weight_take_set w p.fdTable newFd (by omega) (by omega) h 0
        rw [hold]
        cases hg : p.fdTable.get newFd <;> rw [hg] at hw <;> simpa using hw
      exact ledger_dropAll hset

theorem ledger_cloneTable (pid : ℕ) : Ledger (st.cloneTable pid).2 ((st.cloneTable pid).1.handles ++ []) := by
  unfold Sys.cloneTable
  cases hf : st.find pid with
  | none =>
    refine hl.moved (fun w => ?_) rfl rfl rfl rfl
    simp [total, FdTable.sum_handles, FdTable.weight_new]
  | some sp =>
    obtain ⟨s, p⟩ := sp
    have hlive : ∀ h ∈ p.fdTable.handles, ∀ w : FileHandle → ℕ, w h ≤ live w st := by
      intro h hh w
      refine le_trans ?_ (weight_le_live hf w)
      rw [← FdTable.sum_handles]
      exact List.le_sum_of_mem (List.mem_map_of_mem hh)
    refine (ledger_bumpAll hl hlive).moved (fun w => ?_) rfl rfl rfl rfl
    simp only [total, List.append_nil, FdTable.sum_handles, FdTable.weight_cloneForFork]
    rw [← FdTable.sum_handles, List.map_reverse, List.sum_reverse, List.map_map]
    rfl

theorem ledger_fork (pid : ℕ) (ok : Bool) : Ledger (st.fork pid ok).2 [] := by
  have hclone := ledger_frame (ledger_cloneTable hl pid) (st.cloneTable pid).2.pipes ((st.cloneTable pid).2.nextPid + 1)
  unfold Sys.fork
  dsimp only
  cases hs : SlotTable.firstFree 0 maxProcesses (st.cloneTable pid).2.procs with
  | none => exact ledger_dropAll hclone
  | some s =>
    dsimp only
    split_ifs
    · refine hclone.moved (fun w => ?_) rfl rfl rfl rfl
      have hnew := live_newProcess w hs ⟨(st.cloneTable pid).2.nextPid, (st.cloneTable pid).1⟩
      simp only [total, List.append_nil, FdTable.sum_handles, List.map_nil, List.sum_nil, Nat.add_zero]
      exact hnew
    · exact ledger_dropAll hclone

theorem ledger_spawn : Ledger st.spawn [] := by
  unfold Sys.spawn
  cases hs : SlotTable.firstFree 0 maxProcesses st.procs with
  | none => exact hl.moved (fun _ => rfl) rfl rfl rfl rfl
  | some s =>
    refine hl.moved (fun w => ?_) rfl rfl rfl rfl
    have hnew := live_newProcess w hs ⟨st.nextPid, FdTable.new⟩
    rw [FdTable.weight_new, Nat.add_zero] at hnew
    exact congrArg (· + 0) hnew

theorem ledger_closeCloexec (pid : ℕ) : Ledger (st.closeCloexec pid) [] := by
  unfold Sys.closeCloexec
  cases hf : st.find pid with
  | none => exact hl
  | some sp =>
    obtain ⟨s, p⟩ := sp
    have hset : Ledger (st.setTable s p p.fdTable.closeCloexecFds.2) (p.fdTable.closeCloexecFds.1 ++ []) := by
      refine ledger_setTable hl hf fun w => ?_
      simpa using FdTable.weight_closeCloexecFds w p.fdTable
    exact ledger_dropAll hset

theorem ledger_removeProcess (pid : ℕ) : Ledger (st.removeProcess pid) [] := by
  unfold Sys.removeProcess
  cases hf : st.find pid with
  | none => exact hl
  | some sp =>
    obtain ⟨s, p⟩ := sp
    obtain ⟨hlt, hp⟩ := find_some hf
    have hrem : Ledger { st with procs := update st.procs s none } (p.fdTable.handles ++ []) := by
      refine hl.moved (fun w => ?_) rfl rfl rfl rfl
      have hup := live_update w st hlt none
      rw [hp, SlotTable.weigh_some, SlotTable.weigh_none] at hup
      simp only [total, List.append_nil, FdTable.sum_handles, List.map_nil, List.sum_nil]
      omega
    exact ledger_dropAll hrem

theorem ledger_setFd (pid fd : ℕ) (cloexec : Bool) : Ledger (st.setFd pid fd cloexec) [] := by
  unfold Sys.setFd
  cases hf : st.find pid with
  | none => exact hl
  | some sp =>
    refine ledger_setTable hl hf fun w => ?_
    rw [FdTable.weight, FdTable.setFlags_entries]
    rfl

theorem ledger_pipe2 (pid flags : ℕ) (ptrValid ptrWritable : Bool) :
    Ledger (st.pipe2 pid flags ptrValid ptrWritable).2 [] := by
  cases ptrValid with
  | false => exact hl
  | true =>
    cases ha : st.pipes.allocPipe with
    | none => simpa [Sys.pipe2, ha] using hl
    | some idp =>
      obtain ⟨id, pipes⟩ := idp
      have hread := ledger_allocHandle (ledger_local (ledger_frame hl pipes st.nextPid) (h := FileHandle.newPipeRead id)
        (by simp [FileHandle.newPipeRead])) pid (hasCloexec flags)
      have hwrite := ledger_allocHandle (ledger_local hread (h := FileHandle.newPipeWrite id)
        (by simp [FileHandle.newPipeWrite])) pid (hasCloexec flags)
      simp only [Sys.pipe2, ha, not_true_eq_false, if_false]
      split_ifs
      · exact hwrite
      · exact hwrite
      · exact ledger_frame hwrite _ _

theorem ledger_write (pid fd : ℕ) (data : List UInt8) : Ledger (st.write pid fd data).2 [] := by
  unfold Sys.write
  split
  · exact hl
  · split
    · exact hl
    · split_ifs
      · exact ledger_frame hl _ _
      · exact hl

theorem ledger_readTurn (pid fd n : ℕ) : Ledger (st.readTurn pid fd n) [] := by
  unfold Sys.readTurn
  split
  · exact hl
  · split
    · exact hl
    · split_ifs
      · exact hl
      · exact ledger_frame hl _ _

end

/-! ## Opening a remote descriptor -/

theorem Valid.mono (hv : Valid opened h) (fd : ℕ) : Valid (opened ++ [fd]) h := by
  intro hrem
  obtain ⟨a, ha, hopened⟩ := hv hrem
  have hlt : a < opened.length := (List.getElem?_eq_some_iff.1 hopened).1
  exact ⟨a, ha, by rw [List.getElem?_append_left hlt, hopened]⟩

theorem total_mono {w v : FileHandle → ℕ} (hwv : ∀ h, w h ≤ v h) (st : Sys) (held : List FileHandle) :
    total w st held ≤ total v st held := by
  refine Nat.add_le_add (live_mono hwv st) ?_
  exact List.sum_le_sum fun h _ => hwv h

/-- no handle carries a counter that was not given out -/
theorem shares_le_invalid (ha : opened.length ≤ a) (h : FileHandle) : shares a h ≤ invalid opened h := by
  unfold shares invalid
  split_ifs with hs hv
  · obtain ⟨b, hb, hopened⟩ := hv hs.1
    rw [hs.2, Option.mem_some_iff] at hb
    subst hb
    have hlt := (List.getElem?_eq_some_iff.1 hopened).1
    omega
  · exact le_refl 1
  · exact Nat.zero_le _
  · exact Nat.zero_le _

/-- the state after the backend has answered -/
def answered (st : Sys) (fd : ℕ) : Sys :=
  { st with opened := st.opened ++ [fd], refs := update st.refs st.opened.length 1 }

theorem total_answered (st : Sys) (fd : ℕ) (held : List FileHandle) :
    total w (answered st fd) held = total w st held := rfl

theorem invalid_mono (opened : List ℕ) (fd : ℕ) (h : FileHandle) : invalid (opened ++ [fd]) h ≤ invalid opened h := by
  by_cases hv : Valid opened h
  · rw [invalid, if_pos (hv.mono fd)]
    exact Nat.zero_le _
  · rw [invalid, invalid, if_neg hv]
    split_ifs <;> omega

/-- the new handle is in the hands of `open` -/
theorem ledger_answered (hl : Ledger st []) (fd : ℕ) (dirPath : Option String) (flags : ℕ) :
    Ledger (answered st fd) [FileHandle.newRemote fd st.opened.length dirPath flags] := by
  generalize hh : FileHandle.newRemote fd st.opened.length dirPath flags = h
  have hrem : h.isRemote = true := by rw [← hh]; rfl
  have hrefs : h.remoteRefs = some st.opened.length := by rw [← hh]; rfl
  have hvalid : Valid (st.opened ++ [fd]) h := by
    rw [← hh]
    exact fun _ => ⟨st.opened.length, rfl, List.getElem?_concat_length⟩
  refine ⟨fun a => ?_, ?_, fun a => ?_, hl.service⟩
  · rw [total_cons, total_answered]
    rcases eq_or_ne a st.opened.length with rfl | ha
    · have hle := total_mono (shares_le_invalid (le_refl st.opened.length)) st []
      rw [hl.valid] at hle
      rw [shares_self hrem hrefs, Nat.le_zero.1 hle]
      exact update_self _ _ _
    · rw [shares_other hrefs ha, Nat.add_zero, ← hl.count]
      exact update_of_ne ha _ _
  · have hle := total_mono (invalid_mono st.opened fd) st []
    rw [hl.valid] at hle
    have hzero : invalid (st.opened ++ [fd]) h = 0 := if_pos hvalid
    rw [total_cons, total_answered]
    exact Nat.add_eq_zero_iff.2 ⟨Nat.le_zero.1 hle, hzero⟩
  · have ha' := hl.closed a
    rcases lt_trichotomy a st.opened.length with ha | rfl | ha
    · simpa [answered, closesOf, ha.ne, List.getElem?_append_left ha] using ha'
    · simpa [answered, closesOf] using ha'
    · have hnone : st.opened[a]? = none := List.getElem?_eq_none ha.le
      have hnone' : (st.opened ++ [fd])[a]? = none := List.getElem?_eq_none (by simpa using ha)
      simpa [answered, closesOf, ha.ne', hnone, hnone'] using ha'

/-- an `open` that gets a remote descriptor finds the process and a free descriptor in it -/
def Room (st : Sys) : Op → Prop
  | .openFile pid (.remote _ _) _ => (st.find pid).any fun sp => sp.2.fdTable.free ≠ 0
  | _ => True

instance (st : Sys) (o : Op) : Decidable (Room st o) := by
  unfold Room
  split <;> infer_instance

theorem allocHandle_isSome (st : Sys) (h : FileHandle) (cloexec : Bool)
    (hroom : (st.find pid).any fun sp => sp.2.fdTable.free ≠ 0) : ∃ fd, (st.allocHandle pid h cloexec).1 = some fd := by
  unfold Sys.allocHandle
  cases hf : st.find pid with
  | none => simp [hf] at hroom
  | some sp =>
    have hfree : sp.2.fdTable.free ≠ 0 := by simpa [hf] using hroom
    cases ha : sp.2.fdTable.alloc h cloexec with
    | none => exact absurd (FdTable.alloc_eq_none.1 ha) hfree
    | some ft => exact ⟨ft.1, by simp [ha]⟩

theorem ledger_openResolved (hl : Ledger st []) {o : Opened} {flags : ℕ}
    (hroom : Room st (.openFile pid o flags)) : Ledger (st.openResolved pid o flags).2 [] := by
  cases o with
  | failed e => exact hl
  | loc data pos dirPath =>
    exact ledger_allocOrENOSYS (ledger_local hl (by simp [FileHandle.newLocal])) pid (hasCloexec flags)
  | remote fd dirPath =>
    have halloc := ledger_allocHandle (ledger_answered hl fd dirPath flags) pid (hasCloexec flags)
    obtain ⟨fd', hsome⟩ := allocHandle_isSome (answered st fd)
      (FileHandle.newRemote fd st.opened.length dirPath flags) (hasCloexec flags) hroom
    unfold answered at halloc hsome
    simp only [Sys.openResolved]
    generalize Sys.allocHandle _ pid _ _ = res at halloc hsome
    obtain ⟨r, st'⟩ := res
    subst hsome
    exact halloc

theorem step_ledger (st : Sys) (o : Op) (hl : Ledger st []) (hroom : Room st o) : Ledger (step st o) [] := by
  cases o with
  | spawn => exact ledger_spawn hl
  | openFile pid o flags => exact ledger_openResolved hl hroom
  | pipe2 pid flags ptrValid ptrWritable => exact ledger_pipe2 hl pid flags ptrValid ptrWritable
  | dup pid fd => exact ledger_dup hl pid fd
  | dup2 pid oldFd newFd => exact ledger_dup2 hl pid oldFd newFd
  | fork pid ok => exact ledger_fork hl pid ok
  | close pid fd => exact ledger_close hl pid fd
  | setFd pid fd cloexec => exact ledger_setFd hl pid fd cloexec
  | closeCloexec pid => exact ledger_closeCloexec hl pid
  | removeProcess pid => exact ledger_removeProcess hl pid
  | write pid fd data => exact ledger_write hl pid fd data
  | readTurn pid fd n => exact ledger_readTurn hl pid fd n

theorem ledger_init {service : ℕ → Bool} (hservice : ∀ k, service k = true) : Ledger (init service) [] := by
  have hzero : ∀ w, total w (init service) [] = 0 := by
    intro w
    rw [total_nil]
    exact SlotTable.tally_empty _
  exact ⟨fun a => (hzero _).symm, hzero _, fun a => by simp [closesOf, init], hservice⟩

/-! ## Results -/

/-- **Every remote descriptor is closed once.** In every run in which the fs service takes the close requests and each
`open` that gets a remote descriptor has room for it, the `OP_CLOSE` requests sent for the `k`-th descriptor are: exactly
one, with its number, when no handle of it is left in any table; none, as long as there is one. -/
theorem remote_fd_closed_once (service : ℕ → Bool) (hservice : ∀ k, service k = true) (ops : List Op)
    (hroom : Along step Room (init service) ops) :
    let st := run step (init service) ops
    ∀ k fd, st.opened[k]? = some fd → closesOf st k = if live (shares k) st = 0 then [fd] else [] := by
  intro st k fd hopened
  have hl : Ledger st [] := inv_along step_ledger (init service) ops (ledger_init hservice) hroom
  have hlive := hl.count k
  rw [total_nil] at hlive
  rw [hl.closed, hlive, hopened, Option.toList_some]

/-- a descriptor opened, duplicated, inherited, and closed everywhere -/
def openDupForkClose : List Op :=
  [.spawn, .openFile 1 (.remote 40 none) 0, .dup 1 3, .fork 1 true, .close 1 3, .removeProcess 2, .dup2 1 0 4]

theorem remote_fd_closed_once_openDupForkClose :
    let st := run step (init fun _ => true) openDupForkClose
    closesOf st 0 = if live (shares 0) st = 0 then [40] else [] :=
  remote_fd_closed_once (fun _ => true) (fun _ => rfl) openDupForkClose (by decide +kernel) 0 40 (by decide +kernel)

/-- stdin is copied to all 253 descriptors, then the backend answers an `open` with descriptor 40 -/
def openOnFullTable : List Op :=
  .spawn :: (List.range' fdBase (processMaxFds - fdBase)).map (fun fd => .dup2 1 0 fd) ++
    [.openFile 1 (.remote 40 none) 0]

/-- **A full table closes twice.** -/
theorem full_table_closes_twice :
    let st := run step (init fun _ => true) openOnFullTable
    st.opened = [40] ∧ live (shares 0) st = 0 ∧ closesOf st 0 = [40, 40] := by
  decide +kernel

end SwiftCore.Syscall.RemoteRefs
