/-
The bookkeeping of signals (`rt_sigaction`, `rt_sigprocmask`, `kill`, `tkill`, `tgkill`, `deliver_signal_to_pid`, and the
parts of `signal_and_return`, `setup_signal_frame` and `rt_sigreturn` that touch the signal state, of
`core/syscall/signal.rs`).

A process has one thread. A step is one system call, the exit of a process, or the return of a call through `int 0x80`,
where a pending signal is taken. What the environment decides is part of the step: what user pointers are worth, whether
the frame of a handler can be written, which process a thread id belongs to.

`log` is ghost: the signals sent to the process, those delivered (to a handler or to the default action) or dropped at
delivery (their action is to be ignored) with the mask at that time, and those refused already when they are sent to
oneself (ignored, or ignored by default). A signal is `waiting` if it was sent and since then neither delivered nor
dropped.

- `inv_step`: one lemma for each call over what it does to one process.
- `bookkeeping`: in every run SIGKILL and SIGSTOP are never blocked and keep their actions; what is delivered was waiting
  and is not blocked; a running process has exactly the waiting signals pending; a return takes the lowest signal that is
  not blocked; a failing `rt_sigaction` or `rt_sigprocmask` changes nothing.
-/
import SwiftCore.Lib.Run
import SwiftCore.Task.Signal

namespace SwiftCore.Syscall.Signals

open SwiftCore.Task Run Function

/-! ## Processes and their logs -/

inductive Event where
  | sent (sig : ℕ)
  | delivered (sig : ℕ) (mask : SigSet)
  | dropped (sig : ℕ) (mask : SigSet)
  | refused (sig : ℕ)

/-- sent, and since then neither delivered nor dropped -/
def waiting (log : List Event) (sig : ℕ) : Bool :=
  log.foldl (fun b e =>
    match e with
    | .sent sig' => b || sig' = sig
    | .delivered sig' _ => b && sig' ≠ sig
    | .dropped sig' _ => b && sig' ≠ sig
    | .refused _ => b) false

structure Proc where
  /-- its thread has not ended -/
  running : Bool
  core : Bool
  parent : Option ℕ
  signals : SignalState
  log : List Event

namespace Proc

def blank : Proc := ⟨false, false, none, SignalState.new, []⟩

variable (p : Proc)

/-- the end of `deliver_signal_to_pid` -/
def queue (sig : ℕ) : Proc := { p with signals := p.signals.setPending sig, log := p.log ++ [.sent sig] }

def refuse (sig : ℕ) : Proc := { p with log := p.log ++ [.refused sig] }

/-- the process ends by the default action of a signal it is sent -/
def strike (sig : ℕ) : Proc :=
  { p with running := false, log := p.log ++ [.sent sig, .delivered sig p.signals.mask] }

/-- the process ends -/
def stop : Proc := { p with running := false }

end Proc

structure World where
  /-- the ids in the process table -/
  table : List ℕ
  procs : ℕ → Proc

def init : World := ⟨[], fun _ => Proc.blank⟩

variable (w : World)

def World.modify (pid : ℕ) (f : Proc → Proc) : World :=
  { w with procs := update w.procs pid (f (w.procs pid)) }

inductive SigError where
  | EINVAL
  | EFAULT
  | EPERM
  | ESRCH
  deriving DecidableEq, Repr

/-! ## Actions and masks -/

def uncatchableMask : SigSet := sigBit sigkill ||| sigBit sigstop

/-- a user pointer: null, not usable, or with the value read through it -/
inductive UserPtr (α : Type) where
  | null
  | bad
  | good (v : α)

def UserPtr.isNull {α : Type} : UserPtr α → Bool
  | .null => true
  | _ => false

def UserPtr.isBad {α : Type} : UserPtr α → Bool
  | .bad => true
  | _ => false

/-- `rt_sigaction`; the old action is only written out -/
def World.rtSigaction (caller sig : ℕ) (newAct : UserPtr SigAction) (oldAct : UserPtr Unit) : Option SigError × World :=
  if sig < 1 ∨ 64 < sig then (some .EINVAL, w)
  else if ¬ newAct.isNull ∧ uncatchableMask.has sig then (some .EINVAL, w)
  else if oldAct.isBad then (some .EFAULT, w)
  else
    match newAct with
    | .null => (none, w)
    | .bad => (some .EFAULT, w)
    | .good a =>
      let action := { a with mask := a.mask &&& ~~~uncatchableMask }
      (none, w.modify caller fun p => { p with signals := p.signals.setAction sig action })

def sigBlock : UInt64 := 0
def sigUnblock : UInt64 := 1
def sigSetmask : UInt64 := 2

/-- the new mask; an unknown `how` changes nothing -/
def maskAfter (how : UInt64) (mask set : SigSet) : SigSet :=
  if how = sigBlock then mask ||| set
  else if how = sigUnblock then mask &&& ~~~set
  else if how = sigSetmask then set
  else mask

def World.rtSigprocmask (caller : ℕ) (how : UInt64) (set : UserPtr SigSet) (oldset : UserPtr Unit) :
    Option SigError × World :=
  if oldset.isBad then (some .EFAULT, w)
  else
    match set with
    | .null => (none, w)
    | .bad => (some .EFAULT, w)
    | .good set =>
      let newSet := set &&& ~~~uncatchableMask
      (none, w.modify caller fun p =>
        { p with signals := { p.signals with mask := maskAfter how p.signals.mask newSet } })

/-! ## Sending -/

def sigchld : ℕ := 17

/-- a signal to oneself that is unblocked and terminates by default -/
def Proc.dies (p : Proc) (sig : ℕ) : Bool :=
  ¬ p.signals.mask.has sig ∧ (p.signals.action sig).isDefault ∧ defaultAction sig = .terminate

/-- the rest of `deliver_signal_to_pid`; `self`: the target is the current process -/
def Proc.accept (p : Proc) (self : Bool) (sig : ℕ) : Proc :=
  let action := p.signals.action sig
  if self ∧ ¬ p.signals.mask.has sig ∧ (action.isIgnored ∨ action.isDefault ∧ defaultAction sig = .ignore) then p.refuse sig
  else p.queue sig

/-- `deliver_sigchld_to_parent`; SIGCHLD is ignored by default, so it does not end the parent -/
def World.deliverSigchldToParent (caller child : ℕ) : World :=
  match (w.procs child).parent with
  | none => w
  | some parent => if parent ∈ w.table then w.modify parent fun p => p.accept (caller = parent) sigchld else w

/-- process `pid` ends with `f`, and its parent is told -/
def World.finish (caller pid : ℕ) (f : Proc → Proc) : World :=
  (w.modify pid f).deliverSigchldToParent caller pid

/-- `deliver_signal_to_pid` -/
def World.deliverSignalToPid (caller pid sig : ℕ) : Option SigError × World :=
  if sig < 1 ∨ 64 < sig then (some .EINVAL, w)
  else if pid ∉ w.table then (some .ESRCH, w)
  else if sig = sigkill ∨ caller = pid ∧ (w.procs pid).dies sig then (none, w.finish caller pid fun p => p.strike sig)
  else (none, w.modify pid fun p => p.accept (caller = pid) sig)

def World.callerCanSignalTarget (caller target : ℕ) : Bool := caller = target || (w.procs caller).core

def World.kill (caller : ℕ) (pid : ℤ) (sig : ℕ) : Option SigError × World :=
  if 64 < sig then (some .EINVAL, w)
  else if 0 < pid then
    if pid.toNat ∉ w.table then (some .ESRCH, w)
    else if ¬ w.callerCanSignalTarget caller pid.toNat then (some .EPERM, w)
    else if sig = 0 then (none, w)
    else w.deliverSignalToPid caller pid.toNat sig
  else if pid = -1 then
    if ¬ (w.procs caller).core then (some .EPERM, w)
    else if sig = 0 then (none, w)
    else
      let targets := w.table.filter (· ≠ caller)
      (if targets = [] then some .ESRCH else none, targets.foldl (fun w pid => (w.deliverSignalToPid caller pid sig).2) w)
  else (some .EINVAL, w)

/-- `tgkill`, and `tkill` with `tgid = 0`; `owner`: the process of the thread, if there is such a thread -/
def World.tgkill (caller tgid : ℕ) (owner : Option ℕ) (sig : ℕ) : Option SigError × World :=
  if 64 < sig then (some .EINVAL, w)
  else
    match owner with
    | none => (some .ESRCH, w)
    | some pid =>
      if tgid ≠ 0 ∧ pid ≠ tgid then (some .ESRCH, w)
      else if ¬ w.callerCanSignalTarget caller pid then (some .EPERM, w)
      else if sig = 0 then (none, w)
      else w.deliverSignalToPid caller pid sig

/-! ## Delivery and return -/

/-- the return of a system call; `frameOk`: the frame of a handler can be written -/
def Proc.signalAndReturn (p : Proc) (frameOk : Bool) : Proc :=
  match p.signals.takeNextDeliverable with
  | none => p
  | some (sig, signals) =>
    let action := signals.action sig
    if action.isIgnored then { p with signals := signals, log := p.log ++ [.dropped sig p.signals.mask] }
    else
      let p := { p with signals := signals, log := p.log ++ [.delivered sig p.signals.mask] }
      if ¬ action.hasUserHandler then (if defaultAction sig = .terminate then p.stop else p)
      else if frameOk then { p with signals := { p.signals with mask := p.signals.mask ||| action.mask } }
      else p.stop

/-- `ok`: the frame can be read -/
def Proc.rtSigreturn (p : Proc) (ok : Bool) : Proc :=
  if ok then { p with signals := { p.signals with mask := 0 } } else p.stop

/-- the caller goes on as `f` says; where it ends, its parent is told -/
def World.goOn (caller : ℕ) (f : Proc → Proc) : World :=
  if (f (w.procs caller)).running then w.modify caller f else w.finish caller caller f

/-! ## Runs -/

inductive Op where
  | start (pid : ℕ) (core : Bool) (parent : Option ℕ)
  | reap (pid : ℕ)
  | exit (caller : ℕ)
  | rtSigaction (caller sig : ℕ) (newAct : UserPtr SigAction) (oldAct : UserPtr Unit)
  | rtSigprocmask (caller : ℕ) (how : UInt64) (set : UserPtr SigSet) (oldset : UserPtr Unit)
  | kill (caller : ℕ) (pid : ℤ) (sig : ℕ)
  | tgkill (caller tgid : ℕ) (owner : Option ℕ) (sig : ℕ)
  | ret (caller : ℕ) (frameOk : Bool)
  | rtSigreturn (caller : ℕ) (ok : Bool)

def Op.caller : Op → Option ℕ
  | .start _ _ _ | .reap _ => none
  | .exit caller | .rtSigaction caller _ _ _ | .rtSigprocmask caller _ _ _ | .kill caller _ _ | .tgkill caller _ _ _
  | .ret caller _ | .rtSigreturn caller _ => some caller

/-- a call, its result and what it leaves -/
def World.perform : Op → Option SigError × World
  | .start pid core parent =>
    if pid ∈ w.table then (none, w)
    else (none, { table := w.table ++ [pid], procs := update w.procs pid ⟨true, core, parent, SignalState.new, []⟩ })
  | .reap pid => if (w.procs pid).running then (none, w) else (none, { w with table := w.table.filter (· ≠ pid) })
  | .exit caller => (none, w.finish caller caller Proc.stop)
  | .rtSigaction caller sig newAct oldAct => w.rtSigaction caller sig newAct oldAct
  | .rtSigprocmask caller how set oldset => w.rtSigprocmask caller how set oldset
  | .kill caller pid sig => w.kill caller pid sig
  | .tgkill caller tgid owner sig => w.tgkill caller tgid owner sig
  | .ret caller frameOk => (none, w.goOn caller fun p => p.signalAndReturn frameOk)
  | .rtSigreturn caller ok => (none, w.goOn caller fun p => p.rtSigreturn ok)

/-- only a running process makes calls -/
def step (op : Op) : World :=
  match op.caller with
  | some caller => if (w.procs caller).running then (w.perform op).2 else w
  | none => (w.perform op).2

/-! ## Logs -/

theorem waiting_append (log : List Event) (e : Event) (sig : ℕ) :
    waiting (log ++ [e]) sig =
      match e with
      | .sent sig' => waiting log sig || sig' = sig
      | .delivered sig' _ => waiting log sig && sig' ≠ sig
      | .dropped sig' _ => waiting log sig && sig' ≠ sig
      | .refused _ => waiting log sig := by
  simp only [waiting, List.foldl_append, List.foldl_cons, List.foldl_nil]

/-- an event that ends the wait of a signal finds it waiting and not blocked -/
def Event.Due (log : List Event) : Event → Prop
  | .delivered sig mask | .dropped sig mask => mask.has sig = false ∧ waiting log sig = true
  | _ => True

/-- every event of the log was due when it happened -/
def Justified (log : List Event) : Prop := ∀ (i : ℕ) (e : Event), log[i]? = some e → e.Due (log.take i)

theorem Justified.append {log : List Event} (h : Justified log) {e : Event} (he : e.Due log) : Justified (log ++ [e]) := by
  intro i e' hi
  by_cases hlt : i < log.length
  · rw [List.getElem?_append_left hlt] at hi
    rw [List.take_append_of_le_length hlt.le]
    exact h i e' hi
  · rw [List.getElem?_append_right (by omega)] at hi
    have hindex : i - log.length = 0 := by
      by_contra hne
      cases (List.getElem?_eq_none (by simp; omega)).symm.trans hi
    obtain rfl : i = log.length := by omega
    obtain rfl : e = e' := by simpa using hi
    rwa [List.take_left]

/-! ## What each process keeps -/

/-- SIGKILL and SIGSTOP are not in the set -/
def Spares (s : SigSet) : Prop := s.has sigkill = false ∧ s.has sigstop = false

theorem spares_zero : Spares 0 := ⟨has_zero _, has_zero _⟩

theorem Spares.or {s s' : SigSet} (h : Spares s) (h' : Spares s') : Spares (s ||| s') := by
  simp [Spares, has_or, h.1, h.2, h'.1, h'.2]

theorem Spares.and_left {s : SigSet} (h : Spares s) (s' : SigSet) : Spares (s &&& s') := by
  simp only [Spares, has_and, h.1, h.2, Bool.false_and, and_self]

theorem spares_clear (s : SigSet) : Spares (s &&& ~~~uncatchableMask) := by
  have hkill : (~~~uncatchableMask).has sigkill = false := by decide
  have hstop : (~~~uncatchableMask).has sigstop = false := by decide
  simp [Spares, has_and, hkill, hstop]

structure ProcInv (p : Proc) : Prop where
  mask : Spares p.signals.mask
  actionMasks : ∀ i, Spares (p.signals.actions i).mask
  actions : p.signals.action sigkill = SigAction.default ∧ p.signals.action sigstop = SigAction.default
  justified : Justified p.log
  waiting : p.running = true → ∀ sig, 1 ≤ sig ∧ sig ≤ 64 → p.signals.pending.has sig = waiting p.log sig

variable {p : Proc} {sig : ℕ}

theorem procInv_new (core : Bool) (parent : Option ℕ) (running : Bool) :
    ProcInv ⟨running, core, parent, SignalState.new, []⟩ where
  mask := spares_zero
  actionMasks := fun _ => spares_zero
  actions := ⟨rfl, rfl⟩
  justified := by
    intro i e hi
    simp at hi
  waiting := fun _ sig _ => has_zero sig

section

variable (h : ProcInv p)

include h

theorem ProcInv.queue (hsig : 1 ≤ sig ∧ sig ≤ 64) : ProcInv (p.queue sig) := by
  have hstate : (p.queue sig).signals = { p.signals with pending := p.signals.pending ||| sigBit sig } := if_pos hsig
  refine ⟨?_, ?_, ?_, h.justified.append trivial, fun hrunning sig' hsig' => ?_⟩
  · rw [hstate]
    exact h.mask
  · rw [hstate]
    exact h.actionMasks
  · rw [hstate]
    exact h.actions
  · have hpending := @SignalState.has_setPending p.signals _ hsig _ hsig'.1
    calc (p.queue sig).signals.pending.has sig' = (p.signals.pending.has sig' || decide (sig' = sig)) := hpending
      _ = (Signals.waiting p.log sig' || decide (sig = sig')) := by
        rw [h.waiting hrunning sig' hsig', decide_eq_decide.2 eq_comm]
      _ = Signals.waiting (p.queue sig).log sig' := (waiting_append p.log (.sent sig) sig').symm

theorem ProcInv.refuse (sig : ℕ) : ProcInv (p.refuse sig) :=
  ⟨h.mask, h.actionMasks, h.actions, h.justified.append trivial, fun hrunning sig' hsig' => by
    rw [Proc.refuse, waiting_append]
    exact h.waiting hrunning sig' hsig'⟩

theorem ProcInv.strike (hmask : p.signals.mask.has sig = false) : ProcInv (p.strike sig) := by
  refine ⟨h.mask, h.actionMasks, h.actions, ?_, fun hrunning => by simp [Proc.strike] at hrunning⟩
  have hsent : Justified (p.log ++ [.sent sig]) := h.justified.append trivial
  have hlog : (p.strike sig).log = p.log ++ [.sent sig] ++ [.delivered sig p.signals.mask] := by simp [Proc.strike]
  rw [hlog]
  exact hsent.append ⟨hmask, by simp [waiting_append]⟩

theorem ProcInv.stop : ProcInv p.stop :=
  ⟨h.mask, h.actionMasks, h.actions, h.justified, fun hrunning => by simp [Proc.stop] at hrunning⟩

theorem ProcInv.accept (self : Bool) (hsig : 1 ≤ sig ∧ sig ≤ 64) : ProcInv (p.accept self sig) := by
  unfold Proc.accept
  simp only
  split_ifs
  · exact h.refuse sig
  · exact h.queue hsig

theorem ProcInv.setMask {mask : SigSet} (hmask : Spares mask) :
    ProcInv { p with signals := { p.signals with mask := mask } } :=
  ⟨hmask, h.actionMasks, h.actions, h.justified, h.waiting⟩

theorem ProcInv.setAction {a : SigAction} (hsig : uncatchableMask.has sig = false) (ha : Spares a.mask) :
    ProcInv { p with signals := p.signals.setAction sig a } := by
  unfold SignalState.setAction
  split_ifs with hrange
  · have hkeeps : ∀ sig', 1 ≤ sig' → uncatchableMask.has sig' = true →
        update p.signals.actions (sig - 1) a (sig' - 1) = p.signals.actions (sig' - 1) := by
      intro sig' hlo hhas
      refine update_of_ne (fun heq => ?_) _ _
      obtain rfl : sig' = sig := by omega
      cases hsig.symm.trans hhas
    refine ⟨h.mask, ?_, ⟨?_, ?_⟩, h.justified, h.waiting⟩
    · exact (forall_update_iff p.signals.actions fun _ a => Spares a.mask).2 ⟨ha, fun i _ => h.actionMasks i⟩
    · exact (hkeeps sigkill (by decide) (by decide)).trans h.actions.1
    · exact (hkeeps sigstop (by decide) (by decide)).trans h.actions.2
  · exact h

theorem ProcInv.spares_action (sig : ℕ) : Spares (p.signals.action sig).mask := by
  unfold SignalState.action
  split_ifs
  · exact h.actionMasks _
  · exact spares_zero

/-- a return takes the lowest signal that is pending and not blocked, or nothing -/
theorem ProcInv.signalAndReturn (hrunning : p.running = true) (frameOk : Bool) :
    ProcInv (p.signalAndReturn frameOk) := by
  unfold Proc.signalAndReturn
  cases htake : p.signals.takeNextDeliverable with
  | none => exact h
  | some taken =>
    obtain ⟨sig, signals⟩ := taken
    obtain ⟨hsig, hdeliverable, -, rfl⟩ := SignalState.take_some htake
    obtain ⟨hpending, hmask⟩ : p.signals.pending.has sig = true ∧ p.signals.mask.has sig = false := by
      simpa [SignalState.deliverable] using hdeliverable
    have hwaiting : Signals.waiting p.log sig = true := by rw [← h.waiting hrunning sig hsig, hpending]
    -- the same for both ways to end the wait
    have htaken : ∀ e : Event, (e = .delivered sig p.signals.mask ∨ e = .dropped sig p.signals.mask) →
        ProcInv { p with
          signals := { p.signals with pending := p.signals.pending &&& ~~~sigBit sig }
          log := p.log ++ [e] } := by
      intro e he
      refine ⟨h.mask, h.actionMasks, h.actions, h.justified.append ?_, fun _ sig' hsig' => ?_⟩
      · rcases he with rfl | rfl <;> exact ⟨hmask, hwaiting⟩
      · have hother : (!decide (sig' = sig)) = decide (sig ≠ sig') := by
          simp [eq_comm]
        rw [@SignalState.has_clear p.signals _ hsig _ hsig', h.waiting hrunning sig' hsig', waiting_append, hother]
        rcases he with rfl | rfl <;> rfl
    simp only
    split_ifs
    · exact htaken _ (.inr rfl)
    · exact (htaken _ (.inl rfl)).setMask (h.mask.or (h.spares_action sig))
    · exact (htaken _ (.inl rfl)).stop
    · exact (htaken _ (.inl rfl)).stop
    · exact htaken _ (.inl rfl)

theorem ProcInv.rtSigreturn (ok : Bool) : ProcInv (p.rtSigreturn ok) := by
  unfold Proc.rtSigreturn
  split_ifs
  · exact h.setMask spares_zero
  · exact h.stop

end

/-! ## Steps -/

def Inv (w : World) : Prop := ∀ pid, ProcInv (w.procs pid)

variable {w : World} {caller pid : ℕ}

theorem inv_init : Inv init := fun _ => procInv_new false none false

variable {f : Proc → Proc}

section

variable (h : Inv w)

include h

theorem Inv.modify (hf : ProcInv (f (w.procs pid))) : Inv (w.modify pid f) :=
  (forall_update_iff w.procs fun _ p => ProcInv p).2 ⟨hf, fun pid' _ => h pid'⟩

theorem Inv.deliverSigchldToParent (caller child : ℕ) : Inv (w.deliverSigchldToParent caller child) := by
  unfold World.deliverSigchldToParent
  cases (w.procs child).parent with
  | none => exact h
  | some parent =>
    simp only
    split_ifs
    · exact h.modify ((h parent).accept _ (by decide))
    · exact h

theorem Inv.finish (hf : ProcInv (f (w.procs pid))) : Inv (w.finish caller pid f) :=
  (h.modify hf).deliverSigchldToParent caller pid

theorem Inv.deliverSignalToPid (caller pid sig : ℕ) : Inv (w.deliverSignalToPid caller pid sig).2 := by
  unfold World.deliverSignalToPid
  split_ifs with hrange htable hends
  · exact h
  · refine h.finish ((h pid).strike ?_)
    rcases hends with rfl | ⟨-, hdies⟩
    · exact (h pid).mask.1
    · have hunblocked : ¬ (w.procs pid).signals.mask.has sig = true := by
        simp only [Proc.dies, decide_eq_true_eq] at hdies
        exact hdies.1
      simpa using hunblocked
  · have hsig : 1 ≤ sig ∧ sig ≤ 64 := by omega
    simp only
    refine h.modify ?_
    exact (h pid).accept _ hsig
  · exact h

theorem Inv.broadcast (caller sig : ℕ) (targets : List ℕ) :
    Inv (targets.foldl (fun w pid => (w.deliverSignalToPid caller pid sig).2) w) := by
  induction targets generalizing w with
  | nil => exact h
  | cons pid targets ih => exact ih (h.deliverSignalToPid caller pid sig)

theorem Inv.kill (caller : ℕ) (target : ℤ) (sig : ℕ) : Inv (w.kill caller target sig).2 := by
  unfold World.kill
  split_ifs
  all_goals first
    | exact h
    | exact h.deliverSignalToPid _ _ _
    | exact h.broadcast _ _ _

theorem Inv.tgkill (caller tgid : ℕ) (owner : Option ℕ) (sig : ℕ) : Inv (w.tgkill caller tgid owner sig).2 := by
  unfold World.tgkill
  cases owner with
  | none => split_ifs <;> exact h
  | some pid =>
    simp only
    split_ifs
    all_goals first
      | exact h
      | exact h.deliverSignalToPid _ _ _

theorem Inv.rtSigaction (caller sig : ℕ) (newAct : UserPtr SigAction) (oldAct : UserPtr Unit) :
    Inv (w.rtSigaction caller sig newAct oldAct).2 := by
  unfold World.rtSigaction
  split_ifs with hrange hcatch hold
  · exact h
  · exact h
  · exact h
  · cases newAct with
    | null => exact h
    | bad => exact h
    | good a =>
      have hsig : uncatchableMask.has sig = false := by
        by_contra hhas
        exact hcatch ⟨by simp [UserPtr.isNull], by simpa using hhas⟩
      simp only
      refine h.modify ?_
      exact (h caller).setAction hsig (spares_clear a.mask)

omit h in
theorem spares_maskAfter (how : UInt64) {mask set : SigSet} (hmask : Spares mask) (hset : Spares set) :
    Spares (maskAfter how mask set) := by
  unfold maskAfter
  split_ifs
  · exact hmask.or hset
  · exact hmask.and_left _
  · exact hset
  · exact hmask

theorem Inv.rtSigprocmask (caller : ℕ) (how : UInt64) (set : UserPtr SigSet) (oldset : UserPtr Unit) :
    Inv (w.rtSigprocmask caller how set oldset).2 := by
  unfold World.rtSigprocmask
  split_ifs with hold
  · exact h
  · cases set with
    | null => exact h
    | bad => exact h
    | good set =>
      simp only
      refine h.modify ?_
      exact (h caller).setMask (spares_maskAfter how (h caller).mask (spares_clear set))

theorem Inv.goOn (hf : ProcInv (f (w.procs caller))) : Inv (w.goOn caller f) := by
  unfold World.goOn
  split_ifs
  · exact h.modify hf
  · exact h.finish hf

theorem Inv.perform (op : Op) (hcaller : ∀ caller, op.caller = some caller → (w.procs caller).running = true) :
    Inv (w.perform op).2 := by
  cases op with
  | start pid core parent =>
    simp only [World.perform]
    split_ifs
    · exact h
    · exact (forall_update_iff w.procs fun _ p => ProcInv p).2 ⟨procInv_new core parent true, fun pid' _ => h pid'⟩
  | reap pid =>
    simp only [World.perform]
    split_ifs
    · exact h
    · exact h
  | exit caller => exact h.finish (h caller).stop
  | rtSigaction caller sig newAct oldAct => exact h.rtSigaction caller sig newAct oldAct
  | rtSigprocmask caller how set oldset => exact h.rtSigprocmask caller how set oldset
  | kill caller target sig => exact h.kill caller target sig
  | tgkill caller tgid owner sig => exact h.tgkill caller tgid owner sig
  | ret caller frameOk => exact h.goOn ((h caller).signalAndReturn (hcaller caller rfl) frameOk)
  | rtSigreturn caller ok => exact h.goOn ((h caller).rtSigreturn ok)

end

theorem inv_step (w : World) (op : Op) (h : Inv w) : Inv (step w op) := by
  unfold step
  cases hcaller : op.caller with
  | none => exact h.perform op (by simp [hcaller])
  | some caller =>
    simp only
    split_ifs with hrunning
    · refine h.perform op fun caller' hcaller' => ?_
      rw [hcaller, Option.some.injEq] at hcaller'
      exact hcaller' ▸ hrunning
    · exact h

/-! ## Sending to a process that blocks the signal -/

/-- sending signals takes none away and leaves the masks and the table alone -/
structure Keeps (w w' : World) : Prop where
  table : w'.table = w.table
  mask : ∀ pid, (w'.procs pid).signals.mask = (w.procs pid).signals.mask
  pending : ∀ pid sig, 1 ≤ sig → (w.procs pid).signals.pending.has sig = true →
    (w'.procs pid).signals.pending.has sig = true

theorem Keeps.refl (w : World) : Keeps w w := ⟨rfl, fun _ => rfl, fun _ _ _ h => h⟩

theorem Keeps.trans {w w' w'' : World} (h : Keeps w w') (h' : Keeps w' w'') : Keeps w w'' :=
  ⟨h'.table.trans h.table, fun pid => (h'.mask pid).trans (h.mask pid), fun pid sig hsig hp =>
    h'.pending pid sig hsig (h.pending pid sig hsig hp)⟩

variable (w)

theorem keeps_modify (pid : ℕ) (hmask : (f (w.procs pid)).signals.mask = (w.procs pid).signals.mask)
    (hpending : ∀ sig, 1 ≤ sig → (w.procs pid).signals.pending.has sig = true →
      (f (w.procs pid)).signals.pending.has sig = true) : Keeps w (w.modify pid f) := by
  refine ⟨rfl, fun pid' => ?_, fun pid' => ?_⟩
  · by_cases hpid : pid' = pid
    · subst hpid
      simpa [World.modify] using hmask
    · simp [World.modify, update_of_ne hpid]
  · by_cases hpid : pid' = pid
    · subst hpid
      simpa [World.modify] using hpending
    · simp [World.modify, update_of_ne hpid]

theorem queue_signals (p : Proc) (hsig : 1 ≤ sig ∧ sig ≤ 64) :
    (p.queue sig).signals.mask = p.signals.mask ∧ (p.queue sig).signals.pending.has sig = true ∧
      ∀ sig', 1 ≤ sig' → p.signals.pending.has sig' = true → (p.queue sig).signals.pending.has sig' = true := by
  have hstate : (p.queue sig).signals = { p.signals with pending := p.signals.pending ||| sigBit sig } := if_pos hsig
  refine ⟨by rw [hstate], ?_, fun sig' hlo hp => ?_⟩
  · have hpending := @SignalState.has_setPending p.signals _ hsig _ hsig.1
    simpa [Proc.queue] using hpending
  · have hpending := @SignalState.has_setPending p.signals _ hsig _ hlo
    rw [hp, Bool.true_or] at hpending
    exact hpending

theorem keeps_accept (pid : ℕ) (self : Bool) (hsig : 1 ≤ sig ∧ sig ≤ 64) :
    Keeps w (w.modify pid fun p => p.accept self sig) := by
  obtain ⟨hmask, -, hpending⟩ := queue_signals (w.procs pid) hsig
  apply keeps_modify
  · simp only [Proc.accept]
    split_ifs
    · rfl
    · exact hmask
  · intro sig' hlo hp
    simp only [Proc.accept]
    split_ifs
    · exact hp
    · exact hpending sig' hlo hp

theorem keeps_deliverSigchldToParent (caller child : ℕ) : Keeps w (w.deliverSigchldToParent caller child) := by
  unfold World.deliverSigchldToParent
  cases (w.procs child).parent with
  | none => exact Keeps.refl w
  | some parent =>
    simp only
    split_ifs
    · exact keeps_accept w parent _ (by decide)
    · exact Keeps.refl w

theorem keeps_deliverSignalToPid (caller pid sig : ℕ) : Keeps w (w.deliverSignalToPid caller pid sig).2 := by
  unfold World.deliverSignalToPid
  split_ifs with hrange htable hends
  · exact Keeps.refl w
  · have hstrike : Keeps w (w.modify pid fun p => p.strike sig) := keeps_modify w pid rfl fun _ _ h => h
    exact hstrike.trans (keeps_deliverSigchldToParent _ caller pid)
  · exact keeps_accept w pid _ (by omega)
  · exact Keeps.refl w

variable {w}

/-- a blocked signal is pending once it was sent -/
theorem deliver_blocked (caller : ℕ) (hsig : 1 ≤ sig ∧ sig ≤ 64) (hkill : sig ≠ sigkill) (htable : pid ∈ w.table)
    (hblocked : (w.procs pid).signals.mask.has sig = true) :
    ((w.deliverSignalToPid caller pid sig).2.procs pid).signals.pending.has sig = true := by
  have hlives : (w.procs pid).dies sig = false := by simp [Proc.dies, hblocked]
  have hqueue : (w.procs pid).accept (caller = pid) sig = (w.procs pid).queue sig := by simp [Proc.accept, hblocked]
  have hdeliver : w.deliverSignalToPid caller pid sig = (none, w.modify pid fun p => p.accept (caller = pid) sig) := by
    rw [World.deliverSignalToPid, if_neg (by omega), if_neg (by simpa using htable), if_neg (by simp [hkill, hlives])]
  rw [hdeliver]
  simpa [World.modify, hqueue] using (queue_signals (w.procs pid) hsig).2.1

theorem broadcast_blocked (caller : ℕ) (hsig : 1 ≤ sig ∧ sig ≤ 64) (hkill : sig ≠ sigkill) (targets : List ℕ)
    (htable : pid ∈ w.table) (hblocked : (w.procs pid).signals.mask.has sig = true)
    (hpid : pid ∈ targets ∨ (w.procs pid).signals.pending.has sig = true) :
    ((targets.foldl (fun w pid => (w.deliverSignalToPid caller pid sig).2) w).procs pid).signals.pending.has sig = true := by
  induction targets generalizing w with
  | nil => exact hpid.resolve_left (by simp)
  | cons target targets ih =>
    have hkeeps := keeps_deliverSignalToPid w caller target sig
    apply ih (by rwa [hkeeps.table]) (by rwa [hkeeps.mask])
    rcases hpid with hmem | hpending
    · rcases List.mem_cons.1 hmem with rfl | hmem
      · exact .inr (deliver_blocked caller hsig hkill htable hblocked)
      · exact .inl hmem
    · exact .inr (hkeeps.pending pid sig hsig.1 hpending)

/-! ## The books are right -/

variable (w)

/-- the processes a `kill` is sent to -/
def killTargets (caller : ℕ) (pid : ℤ) : List ℕ :=
  if 0 < pid then [pid.toNat] else if pid = -1 then w.table.filter (· ≠ caller) else []

/-- after a successful send, the targets that block the signal have it pending -/
def Queues (targets : List ℕ) (sig : ℕ) (r : Option SigError × World) : Prop :=
  r.1 = none → sig ≠ 0 → sig ≠ sigkill → ∀ pid ∈ targets, (w.procs pid).signals.mask.has sig = true →
    (r.2.procs pid).signals.pending.has sig = true

/-- the lowest signal that is pending and not blocked is taken: delivered once, or dropped if it is to be ignored -/
def Takes (p p' : Proc) : Prop :=
  ∀ sig, 1 ≤ sig ∧ sig ≤ 64 → p.signals.deliverable sig = true →
    (∀ sig', 1 ≤ sig' → sig' < sig → p.signals.deliverable sig' = false) →
    p'.log = p.log ++ [if (p.signals.action sig).isIgnored then .dropped sig p.signals.mask
      else .delivered sig p.signals.mask] ∧
    p'.signals.pending = p.signals.pending &&& ~~~sigBit sig

def Fair : Op → Prop
  | .rtSigaction caller sig newAct oldAct =>
    (w.rtSigaction caller sig newAct oldAct).1 ≠ none → (w.rtSigaction caller sig newAct oldAct).2 = w
  | .rtSigprocmask caller how set oldset =>
    (w.rtSigprocmask caller how set oldset).1 ≠ none → (w.rtSigprocmask caller how set oldset).2 = w
  | .kill caller pid sig => Queues w (killTargets w caller pid) sig (w.kill caller pid sig)
  | .tgkill caller tgid owner sig => Queues w owner.toList sig (w.tgkill caller tgid owner sig)
  | .ret caller frameOk => Takes (w.procs caller) ((w.procs caller).signalAndReturn frameOk)
  | _ => True

/-- what the books of a process say -/
structure Sound (p : Proc) : Prop where
  /-- SIGKILL and SIGSTOP are not blocked -/
  mask : Spares p.signals.mask
  actions : p.signals.action sigkill = SigAction.default ∧ p.signals.action sigstop = SigAction.default
  /-- whatever was delivered had been sent after its previous delivery, and was not blocked -/
  justified : Justified p.log
  /-- a signal that waits for its delivery is pending, and no other -/
  waiting : p.running = true → ∀ sig, 1 ≤ sig ∧ sig ≤ 64 → p.signals.pending.has sig = waiting p.log sig

theorem takes_signalAndReturn (p : Proc) (frameOk : Bool) : Takes p (p.signalAndReturn frameOk) := by
  intro sig hsig hdeliverable hlowest
  unfold Proc.signalAndReturn
  cases htake : p.signals.takeNextDeliverable with
  | none =>
    cases hdeliverable.symm.trans (SignalState.take_none htake hsig)
  | some taken =>
    obtain ⟨sig', signals⟩ := taken
    obtain ⟨hsig', hdeliverable', hlowest', rfl⟩ := SignalState.take_some htake
    have hsame : sig' = sig := by
      by_contra hne
      rcases Nat.lt_or_gt_of_ne hne with hlt | hgt
      · cases hdeliverable'.symm.trans (hlowest sig' hsig'.1 hlt)
      · cases hdeliverable.symm.trans (hlowest' sig hsig.1 hgt)
    subst hsame
    have haction : ({ p.signals with pending := p.signals.pending &&& ~~~sigBit sig' } : SignalState).action sig' =
        p.signals.action sig' := rfl
    simp only [haction]
    split_ifs <;> exact ⟨rfl, rfl⟩

theorem fair_kill (caller : ℕ) (target : ℤ) (sig : ℕ) :
    Queues w (killTargets w caller target) sig (w.kill caller target sig) := by
  intro hok hzero hkill pid hpid hblocked
  unfold killTargets at hpid
  unfold World.kill at hok ⊢
  split_ifs at hok hpid ⊢ with hrange hpos htable hallowed hall hcore
  · rw [List.mem_singleton] at hpid
    subst hpid
    exact deliver_blocked caller (by omega) hkill htable hblocked
  · have hmem := (List.mem_filter.1 hpid).1
    exact broadcast_blocked caller (by omega) hkill _ hmem hblocked (.inl hpid)

theorem fair_tgkill (caller tgid : ℕ) (owner : Option ℕ) (sig : ℕ) :
    Queues w owner.toList sig (w.tgkill caller tgid owner sig) := by
  intro hok hzero hkill pid hpid hblocked
  cases owner with
  | none => simp at hpid
  | some target =>
    obtain rfl : pid = target := by simpa using hpid
    unfold World.tgkill at hok ⊢
    simp only at hok ⊢
    split_ifs at hok ⊢ with hrange hgroup hallowed
    have htable : pid ∈ w.table := by
      by_contra hnot
      rw [World.deliverSignalToPid, if_neg (by omega), if_pos hnot] at hok
      simp at hok
    exact deliver_blocked caller (by omega) hkill htable hblocked

theorem fair_op (op : Op) : Fair w op := by
  cases op with
  | start _ _ _ | reap _ | exit _ | rtSigreturn _ _ => trivial
  | rtSigaction caller sig newAct oldAct =>
    intro hfailed
    unfold World.rtSigaction at hfailed ⊢
    split_ifs at hfailed ⊢
    · rfl
    · rfl
    · rfl
    · cases newAct with
      | null => rfl
      | bad => rfl
      | good a => simp at hfailed
  | rtSigprocmask caller how set oldset =>
    intro hfailed
    unfold World.rtSigprocmask at hfailed ⊢
    split_ifs at hfailed ⊢
    · rfl
    · cases set with
      | null => rfl
      | bad => rfl
      | good set => simp at hfailed
  | kill caller target sig => exact fair_kill w caller target sig
  | tgkill caller tgid owner sig => exact fair_tgkill w caller tgid owner sig
  | ret caller frameOk => exact takes_signalAndReturn _ frameOk

variable {w}

/-- **The books are right.** After every run, for every process; and at every step of it. -/
theorem bookkeeping (ops : List Op) :
    (∀ pid, Sound ((run step init ops).procs pid)) ∧ Along step Fair init ops := by
  have hinv : Inv (run step init ops) := inv_run inv_step init ops inv_init
  refine ⟨fun pid => ⟨(hinv pid).mask, (hinv pid).actions, (hinv pid).justified, (hinv pid).waiting⟩, ?_⟩
  have halways : ∀ (w : World) (ops : List Op), Along step (fun _ _ => True) w ops := by
    intro w ops
    induction ops generalizing w with
    | nil => trivial
    | cons op ops ih => exact ⟨trivial, ih _⟩
  exact along_of_inv (I := fun _ => True) (fun _ _ _ _ => trivial) (fun w op _ _ => fair_op w op) init ops trivial
    (halways init ops)

end SwiftCore.Syscall.Signals
