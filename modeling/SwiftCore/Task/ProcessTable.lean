/-
Lean model of the process table (`core/task/process.rs`): 64 slots and a count of the used ones.

A process is modelled with its id, its parent, its state, its exit code and its descriptor table. `add`, `remove` and
`reap_zombie_child` are the only functions that fill or empty a slot, `mark_exited` the only one that changes a state.

A table is `Valid` when its ids are distinct and the count is right; `Valid.add`, `Valid.mark` and `Valid.reap` keep it so,
and `mem_mark`, `mem_reap` and `mem_add` say what the slots hold afterwards. `remove_add`: taking a process out again that
was just put in leaves the table as it was.
-/
import SwiftCore.Task.FdTable

namespace SwiftCore.Task

open Function

inductive ProcessState where
  | running
  | sleeping
  | zombie
  | terminated
  deriving DecidableEq, Repr

structure Process where
  id : ℕ
  state : ProcessState
  parentId : Option ℕ
  exitCode : Option UInt64
  fdTable : FdTable

namespace Process

/-- `Process::new`; the id is drawn from the counter by the caller -/
def new (id : ℕ) (parentId : Option ℕ) : Process := ⟨id, .running, parentId, none, FdTable.new⟩

def markExited (p : Process) (exitCode : UInt64) : Process := { p with state := .zombie, exitCode := some exitCode }

end Process

structure ProcessTable where
  processes : ℕ → Option Process
  count : ℕ

namespace ProcessTable

def maxProcesses : ℕ := 64

def new : ProcessTable := ⟨fun _ => none, 0⟩

variable (t : ProcessTable)

/-- the first slot whose process satisfies `p` -/
def slot (p : Process → Bool) : Option ℕ := SlotTable.firstSlot 0 maxProcesses p t.processes

def add (process : Process) : Option ProcessTable :=
  if maxProcesses ≤ t.count then none
  else
    (SlotTable.firstFree 0 maxProcesses t.processes).map fun s =>
      ⟨update t.processes s (some process), t.count + 1⟩

def get (id : ℕ) : Option Process := (t.slot fun p => p.id = id).bind t.processes

/-- `get_mut`, used to change the process found -/
def getMut (id : ℕ) (f : Process → Process) : ProcessTable :=
  match t.slot fun p => p.id = id with
  | none => t
  | some s => { t with processes := update t.processes s ((t.processes s).map f) }

/-- `none` where the count would underflow -/
def remove (id : ℕ) : Option ProcessTable :=
  match t.slot fun p => p.id = id with
  | none => some t
  | some s => if t.count = 0 then none else some ⟨update t.processes s none, t.count - 1⟩

def isChildMatch (process : Process) (parent : ℕ) (target : Option ℕ) : Bool :=
  if process.parentId ≠ some parent then false
  else
    match target with
    | some targetId => process.id = targetId
    | none => true

def hasChild (parent : ℕ) (target : Option ℕ) : Bool :=
  (t.slot fun p => isChildMatch p parent target).isSome

/-- the slot `reap_zombie_child` empties -/
def zombieSlot (parent : ℕ) (target : Option ℕ) : Option ℕ :=
  t.slot fun p => isChildMatch p parent target && p.state = .zombie

def reapZombieChild (parent : ℕ) (target : Option ℕ) : Option (ℕ × UInt64) × ProcessTable :=
  match t.zombieSlot parent target with
  | none => (none, t)
  | some s =>
    ((t.processes s).map fun p => (p.id, p.exitCode.getD 0), ⟨update t.processes s none, t.count - 1⟩)

def markProcessExited (id : ℕ) (exitCode : UInt64) : ProcessTable :=
  t.getMut id fun p => p.markExited exitCode

/-! ## Valid tables -/

/-- the number of used slots -/
def occupied : ℕ := SlotTable.tally 0 maxProcesses (fun _ => 1) t.processes

structure Valid : Prop where
  bounded : ∀ s p, t.processes s = some p → s < maxProcesses
  distinct : ∀ s s' p p', t.processes s = some p → t.processes s' = some p' → p.id = p'.id → s = s'
  counted : t.count = t.occupied

variable {t : ProcessTable} {s : ℕ} {p : Process}

theorem valid_new : new.Valid := ⟨by simp [new], by simp [new], by simp [new, occupied]⟩

theorem slot_some {q : Process → Bool} (h : t.slot q = some s) : s < maxProcesses ∧ ∃ p, t.processes s = some p ∧ q p = true :=
  (SlotTable.firstSlot_some h).2

theorem Valid.slot_eq (hv : t.Valid) (hp : t.processes s = some p) : (t.slot fun q => q.id = p.id) = some s := by
  apply SlotTable.firstSlot_of_unique (Nat.zero_le s) (hv.bounded s p hp) hp (by simp)
  intro s' p' _ _ hp' hid
  exact hv.distinct s' s p' p hp' hp (by simpa using hid)

theorem get_some {id : ℕ} (h : t.get id = some p) : ∃ s, t.processes s = some p ∧ p.id = id := by
  obtain ⟨s, hslot, hp⟩ := Option.bind_eq_some_iff.1 h
  obtain ⟨-, q, hq, hid⟩ := slot_some hslot
  rw [hp] at hq
  cases hq
  exact ⟨s, hp, by simpa using hid⟩

/-- writing one slot trades the counts of its old and new content -/
theorem occupied_update (hs : s < maxProcesses) (o : Option Process) :
    occupied ⟨update t.processes s o, t.count⟩ + SlotTable.weigh (fun _ => 1) (t.processes s) =
      t.occupied + SlotTable.weigh (fun _ => 1) o :=
  SlotTable.tally_update _ (Nat.zero_le s) hs o

variable {q : Process} {parent : ℕ} {target : Option ℕ}

/-- a used slot keeps its process, up to a change that leaves the id alone -/
theorem Valid.replace (hv : t.Valid) (hp : t.processes s = some p) (hid : q.id = p.id) :
    Valid { t with processes := update t.processes s (some q) } := by
  have hread : ∀ s' p', update t.processes s (some q) s' = some p' →
      ∃ p'', t.processes s' = some p'' ∧ p''.id = p'.id := by
    intro s' p' hp'
    rw [update_apply] at hp'
    split_ifs at hp' with hs
    · exact ⟨p, hs ▸ hp, by rw [← Option.some.inj hp', hid]⟩
    · exact ⟨p', hp', rfl⟩
  refine ⟨fun s' p' hp' => ?_, fun s₁ s₂ p₁ p₂ hp₁ hp₂ hids => ?_, ?_⟩
  · obtain ⟨p'', hp'', -⟩ := hread s' p' hp'
    exact hv.bounded s' p'' hp''
  · obtain ⟨q₁, hq₁, hid₁⟩ := hread s₁ p₁ hp₁
    obtain ⟨q₂, hq₂, hid₂⟩ := hread s₂ p₂ hp₂
    exact hv.distinct s₁ s₂ q₁ q₂ hq₁ hq₂ (by rw [hid₁, hid₂, hids])
  · have hcount := occupied_update (t := t) (hv.bounded s p hp) (some q)
    rw [hp] at hcount
    have hold := hv.counted
    simp only [occupied, SlotTable.weigh_some] at hcount hold ⊢
    omega

/-- a used slot is emptied -/
theorem Valid.empty (hv : t.Valid) (hp : t.processes s = some p) :
    Valid ⟨update t.processes s none, t.count - 1⟩ := by
  have hread : ∀ s' p', update t.processes s none s' = some p' → t.processes s' = some p' := by
    intro s' p' hp'
    rw [update_apply] at hp'
    split_ifs at hp'
    exact hp'
  refine ⟨fun s' p' hp' => hv.bounded s' p' (hread s' p' hp'), fun s₁ s₂ p₁ p₂ hp₁ hp₂ hids =>
    hv.distinct s₁ s₂ p₁ p₂ (hread s₁ p₁ hp₁) (hread s₂ p₂ hp₂) hids, ?_⟩
  have hcount := occupied_update (t := t) (hv.bounded s p hp) none
  rw [hp] at hcount
  have hold := hv.counted
  simp only [occupied, SlotTable.weigh_some, SlotTable.weigh_none] at hcount hold ⊢
  omega

/-! ## What the functions leave in the slots -/

theorem Valid.mark (hv : t.Valid) (id : ℕ) (c : UInt64) : (t.markProcessExited id c).Valid := by
  unfold markProcessExited getMut
  cases hslot : t.slot fun p => p.id = id with
  | none => exact hv
  | some s =>
    obtain ⟨-, p, hp, -⟩ := slot_some hslot
    simp only [hp, Option.map_some]
    exact hv.replace hp rfl

/-- `mark_process_exited` changes the process with the id, and no other -/
theorem Valid.mem_mark (hv : t.Valid) {id : ℕ} {c : UInt64} :
    (t.markProcessExited id c).processes s = some q ↔
      ∃ p, t.processes s = some p ∧ q = if p.id = id then p.markExited c else p := by
  unfold markProcessExited getMut
  cases hslot : t.slot fun p => p.id = id with
  | none =>
    have hnot : ∀ p, t.processes s = some p → p.id ≠ id := by
      intro p hp hid
      have hfound := hv.slot_eq hp
      rw [hid, hslot] at hfound
      simp at hfound
    refine ⟨fun hq => ⟨q, hq, by rw [if_neg (hnot q hq)]⟩, ?_⟩
    rintro ⟨p, hp, rfl⟩
    rw [if_neg (hnot p hp)]
    exact hp
  | some s₀ =>
    obtain ⟨-, p₀, hp₀, hid₀⟩ := slot_some hslot
    replace hid₀ : p₀.id = id := by simpa using hid₀
    by_cases hs : s = s₀
    · subst hs
      simp only [update_self, hp₀, Option.map_some, Option.some.injEq]
      refine ⟨fun hq => ⟨p₀, rfl, by rw [if_pos hid₀, hq]⟩, ?_⟩
      rintro ⟨p, rfl, rfl⟩
      rw [if_pos hid₀]
    · have hnot : ∀ p, t.processes s = some p → p.id ≠ id := fun p hp hid =>
        hs (hv.distinct s s₀ p p₀ hp hp₀ (by rw [hid, hid₀]))
      simp only [update_of_ne hs]
      refine ⟨fun hq => ⟨q, hq, by rw [if_neg (hnot q hq)]⟩, ?_⟩
      rintro ⟨p, hp, rfl⟩
      rwa [if_neg (hnot p hp)]

theorem zombieSlot_some (h : t.zombieSlot parent target = some s) :
    ∃ p, t.processes s = some p ∧ isChildMatch p parent target = true ∧ p.state = .zombie := by
  obtain ⟨-, p, hp, hmatch⟩ := slot_some h
  exact ⟨p, hp, by simpa using hmatch⟩

theorem isChildMatch_parent (h : isChildMatch p parent target = true) : p.parentId = some parent := by
  unfold isChildMatch at h
  by_contra hne
  simp [hne] at h

theorem Valid.reap (hv : t.Valid) (parent : ℕ) (target : Option ℕ) : (t.reapZombieChild parent target).2.Valid := by
  unfold reapZombieChild
  cases hslot : t.zombieSlot parent target with
  | none => exact hv
  | some s =>
    obtain ⟨p, hp, -⟩ := zombieSlot_some hslot
    exact hv.empty hp

/-- `reap_zombie_child` takes out the zombie it returns, and nothing else -/
theorem mem_reap (hslot : t.zombieSlot parent target = some s) {s' : ℕ} :
    (t.reapZombieChild parent target).2.processes s' = some q ↔ s' ≠ s ∧ t.processes s' = some q := by
  rw [reapZombieChild, hslot]
  by_cases hs : s' = s
  · subst hs
    simp
  · simp [hs]

/-- a process with a new id is put into a free slot -/
theorem Valid.mem_add (hv : t.Valid) {t' : ProcessTable} (hadd : t.add p = some t')
    (hnew : ∀ s q, t.processes s = some q → q.id ≠ p.id) :
    t'.Valid ∧ ∃ s, t.processes s = none ∧ t' = ⟨update t.processes s (some p), t.count + 1⟩ := by
  unfold add at hadd
  split_ifs at hadd
  obtain ⟨s, hs, rfl⟩ := Option.map_eq_some_iff.1 hadd
  obtain ⟨-, hlt, hfree⟩ := SlotTable.firstFree_some hs
  refine ⟨⟨fun s' p' hp' => ?_, fun s₁ s₂ p₁ p₂ hp₁ hp₂ hids => ?_, ?_⟩, s, hfree, rfl⟩
  · by_cases h : s' = s
    · exact h ▸ hlt
    · exact hv.bounded s' p' (by simpa [update_of_ne h] using hp')
  · by_cases h₁ : s₁ = s <;> by_cases h₂ : s₂ = s
    · rw [h₁, h₂]
    · subst h₁
      simp only [update_self, Option.some.injEq, update_of_ne h₂] at hp₁ hp₂
      exact absurd (by rw [← hids, hp₁]) (hnew s₂ p₂ hp₂)
    · subst h₂
      simp only [update_self, Option.some.injEq, update_of_ne h₁] at hp₁ hp₂
      exact absurd (by rw [hids, hp₂]) (hnew s₁ p₁ hp₁)
    · simp only [update_of_ne h₁, update_of_ne h₂] at hp₁ hp₂
      exact hv.distinct s₁ s₂ p₁ p₂ hp₁ hp₂ hids
  · have hcount := occupied_update (t := t) hlt (some p)
    rw [hfree] at hcount
    have hold := hv.counted
    simp only [occupied, SlotTable.weigh_some, SlotTable.weigh_none] at hcount hold ⊢
    omega

/-- the rollback of a failed `fork` -/
theorem Valid.remove_add (hv : t.Valid) {t' : ProcessTable} (hadd : t.add p = some t')
    (hnew : ∀ s q, t.processes s = some q → q.id ≠ p.id) : t'.remove p.id = some t := by
  obtain ⟨hv', s, hfree, rfl⟩ := hv.mem_add hadd hnew
  have hslot : (ProcessTable.mk (update t.processes s (some p)) (t.count + 1)).slot (fun q => q.id = p.id) = some s :=
    hv'.slot_eq (by simp)
  rw [remove, hslot]
  simp [← hfree]

end ProcessTable

end SwiftCore.Task
