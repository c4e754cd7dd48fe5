/-
Lean model of the file-descriptor table of a process (`core/task/fd_table.rs`).

An entry is a `Box<FileHandle>`, owned by the table. Dropping a handle acts outside the table (it may send a close
request), so the functions here return the handles that leave the table, in order, and `Syscall.Files` drops them.
`remoteRefs` is the identity of the shared counter (`Arc<AtomicUsize>`); the counters themselves are global state.
-/
import SwiftCore.Lib.SlotTable

namespace SwiftCore.Task

open Function

/-- descriptors below are stdin, stdout and stderr -/
def fdBase : ℕ := 3

def processMaxFds : ℕ := 256

def fdCloexec : ℕ := 1

structure FileHandle where
  data : List UInt8
  pos : ℕ
  dirPath : Option String
  isRemote : Bool
  /-- descriptor of the fs backend -/
  fdRemote : ℕ
  remoteRefs : Option ℕ
  /-- index into the pipe table -/
  pipeId : Option ℕ
  pipeWrite : Bool
  openFlags : ℕ

namespace FileHandle

def newPipeRead (id : ℕ) : FileHandle := ⟨[], 0, none, false, 0, none, some id, false, 0⟩

def newPipeWrite (id : ℕ) : FileHandle := ⟨[], 0, none, false, 0, none, some id, true, 1⟩

/-- a handle on data held by the kernel -/
def newLocal (data : List UInt8) (pos : ℕ) (dirPath : Option String) (flags : ℕ) : FileHandle :=
  ⟨data, pos, dirPath, false, 0, none, none, false, flags⟩

/-- a handle on descriptor `fd` of the backend, with counter `refs` -/
def newRemote (fd refs : ℕ) (dirPath : Option String) (flags : ℕ) : FileHandle :=
  ⟨[], 0, dirPath, true, fd, some refs, none, false, flags⟩

/-- `make_tty_handle("/dev/tty")`, opened `O_RDWR` -/
def tty : FileHandle := newLocal [] 0 (some "/dev/tty") 2

/-- the copy made by `dup`, `dup2` and `clone_for_fork`; the counter it shares is bumped separately -/
def clone (h : FileHandle) : FileHandle := { h with remoteRefs := if h.isRemote then h.remoteRefs else none }

end FileHandle

structure FdTable where
  entries : ℕ → Option FileHandle
  flags : ℕ → ℕ

namespace FdTable

def new : FdTable := ⟨fun _ => none, fun _ => 0⟩

variable (t : FdTable)

def set (fd : ℕ) (h : Option FileHandle) (flags : ℕ) : FdTable :=
  ⟨update t.entries fd h, update t.flags fd flags⟩

/-- `none`: no free descriptor, and the handle is dropped -/
def alloc (h : FileHandle) (cloexec : Bool) : Option (ℕ × FdTable) :=
  (SlotTable.firstFree fdBase processMaxFds t.entries).map fun fd =>
    (fd, t.set fd (some h) (if cloexec then fdCloexec else 0))

def get (fd : ℕ) : Option FileHandle :=
  if fd < fdBase ∨ processMaxFds ≤ fd then none else t.entries fd

def take (fd : ℕ) : Option FileHandle × FdTable :=
  match t.get fd with
  | none => (none, t)
  | some h => (some h, t.set fd none 0)

def setFlags (fd flags : ℕ) : Bool × FdTable :=
  match t.get fd with
  | none => (false, t)
  | some _ => (true, { t with flags := update t.flags fd flags })

def isCloexec (fd : ℕ) : Bool := t.flags fd &&& fdCloexec ≠ 0

def closeCloexecFds : List FileHandle × FdTable :=
  (SlotTable.select fdBase processMaxFds t.isCloexec t.entries,
    ⟨SlotTable.clear t.isCloexec t.entries, fun fd => if t.isCloexec fd then 0 else t.flags fd⟩)

/-- the handles of a table, in the order `close_all` drops them -/
def handles : List FileHandle := SlotTable.select fdBase processMaxFds (fun _ => true) t.entries

def cloneForFork : FdTable :=
  ⟨fun fd => (t.entries fd).map FileHandle.clone, fun fd => if (t.entries fd).isSome then t.flags fd else 0⟩

/-! ## Weights of the handles of a table -/

/-- the weights of the handles of a table -/
def weight (w : FileHandle → ℕ) (t : FdTable) : ℕ := SlotTable.tally fdBase processMaxFds w t.entries

variable {t t' : FdTable} {fd : ℕ} {h : FileHandle} {cloexec : Bool}

theorem get_some (hg : t.get fd = some h) : fdBase ≤ fd ∧ fd < processMaxFds ∧ t.entries fd = some h := by
  unfold get at hg
  split_ifs at hg with hr
  exact ⟨by omega, by omega, hg⟩

variable (w : FileHandle → ℕ)

theorem weight_set (t : FdTable) (hlo : fdBase ≤ fd) (hhi : fd < processMaxFds)
    (h : Option FileHandle) (flags : ℕ) :
    (t.set fd h flags).weight w + SlotTable.weigh w (t.entries fd) = t.weight w + SlotTable.weigh w h :=
  SlotTable.tally_update w hlo hhi h

theorem weight_alloc
    (ha : t.alloc h cloexec = some (fd, t')) : t'.weight w = t.weight w + w h := by
  obtain ⟨i, hi, heq⟩ := Option.map_eq_some_iff.1 ha
  cases heq
  obtain ⟨hlo, hhi, hfree⟩ := SlotTable.firstFree_some hi
  have hset := weight_set w t hlo hhi (some h) (if cloexec then fdCloexec else 0)
  simpa [hfree] using hset

theorem take_some (ht : t.take fd = (some h, t')) : t.get fd = some h := by
  unfold take at ht
  cases hg : t.get fd with
  | none => simp [hg] at ht
  | some h₀ =>
    rw [hg, Prod.mk.injEq] at ht
    exact ht.1

/-- writing a descriptor after its handle was taken out trades the handles -/
theorem weight_take_set (t : FdTable) (fd : ℕ) (hlo : fdBase ≤ fd) (hhi : fd < processMaxFds)
    (h : FileHandle) (flags : ℕ) :
    ((t.take fd).2.set fd (some h) flags).weight w + SlotTable.weigh w (t.get fd) = t.weight w + w h := by
  have hget : t.get fd = t.entries fd := if_neg (by omega)
  have hset : ((t.take fd).2.set fd (some h) flags).weight w = (t.set fd (some h) flags).weight w := by
    unfold take
    cases t.get fd with
    | none => rfl
    | some h₀ => simp [weight, set]
  rw [hset, hget]
  exact weight_set w t hlo hhi (some h) flags

theorem weight_take (ht : t.take fd = (some h, t')) : t'.weight w + w h = t.weight w := by
  have hg := take_some ht
  obtain ⟨hlo, hhi, hentry⟩ := get_some hg
  have hset := weight_set w t hlo hhi none 0
  simp only [take, hg, Prod.mk.injEq, true_and] at ht
  simpa [hentry, ht] using hset

theorem setFlags_entries (t : FdTable) (fd flags : ℕ) : (t.setFlags fd flags).2.entries = t.entries := by
  unfold setFlags
  cases t.get fd <;> rfl

theorem weight_closeCloexecFds (t : FdTable) :
    t.closeCloexecFds.2.weight w + (t.closeCloexecFds.1.map w).sum = t.weight w :=
  SlotTable.tally_clear w t.isCloexec

theorem sum_handles (t : FdTable) : (t.handles.map w).sum = t.weight w := by
  have h : SlotTable.tally fdBase processMaxFds w (SlotTable.clear (fun _ => true) t.entries) +
      (t.handles.map w).sum = t.weight w := SlotTable.tally_clear w _
  have hclear : SlotTable.clear (fun _ => true) t.entries = fun _ => none := by
    funext i
    rfl
  rwa [hclear, SlotTable.tally_empty, Nat.zero_add] at h

theorem weight_cloneForFork (t : FdTable) :
    t.cloneForFork.weight w = t.weight fun h => w h.clone := by
  apply SlotTable.tally_congr
  intro i _ _
  cases he : t.entries i <;> simp [cloneForFork, he]

/-- the number of free descriptors -/
def free (t : FdTable) : ℕ := processMaxFds - fdBase - t.weight fun _ => 1

theorem alloc_eq_none : t.alloc h cloexec = none ↔ t.free = 0 := by
  have hle : (t.weight fun _ => 1) ≤ processMaxFds - fdBase := SlotTable.tally_one_le
  rw [alloc, Option.map_eq_none_iff, SlotTable.firstFree_eq_none_iff_tally]
  unfold free weight at *
  omega

theorem free_alloc (ha : t.alloc h cloexec = some (fd, t')) : t.free = t'.free + 1 := by
  have hle : (t'.weight fun _ => 1) ≤ processMaxFds - fdBase := SlotTable.tally_one_le
  have hw := weight_alloc (fun _ => 1) ha
  unfold free
  omega

@[simp] theorem weight_new : new.weight w = 0 := SlotTable.tally_empty w

end FdTable

end SwiftCore.Task
