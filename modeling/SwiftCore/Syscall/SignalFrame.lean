/-
The delivery of a signal to a handler and the way back (`signal_and_return`, `setup_signal_frame`, `write_signal_frame` and
`rt_sigreturn` of `core/syscall/signal.rs`).

On the return of a system call the kernel puts a frame of four words on the user's stack (the restorer, RIP, RSP and
RFLAGS) and sends the process into the handler. The handler returns into the restorer, which calls `rt_sigreturn`.

`regs` has the layout of the saved registers on the kernel's stack, so an interrupt copies nothing. A program in user mode
(`Prog`) is any change of the machine, and system calls at whose return a signal may be delivered; the handler is a program
again, so deliveries nest. `Leaves` says that a handler keeps its frame: its own code does not touch the frame, and frames
of nested deliveries miss it, as they do where its calls are made with the stack pointer at or below it.

- `frame_below`: the frame lies below the interrupted stack pointer, so nested deliveries leave the outer frames alone.
- `exec_leaves`: a handler that keeps its frame still finds it when it returns, whatever is delivered in between.
- `resumes_iff`: RIP, RSP and RFLAGS always come back; the return value and the mask come back iff both were zero.
- `handler_clobbers_return`, the counterexample.
-/
import SwiftCore.Lib.Bytes
import SwiftCore.Task.Signal

namespace SwiftCore.Syscall.SignalFrame

open SwiftCore.Task Bytes

/-! ## The machine -/

structure Machine where
  /-- the registers, by their place on the kernel's stack during a system call -/
  regs : ℕ → UInt64
  mem : Memory
  /-- the bytes of user memory that are mapped, and that can be written -/
  mapped : ℕ → Bool
  writable : ℕ → Bool
  signals : SignalState

def rdi : ℕ := 8
def rax : ℕ := 14
def rip : ℕ := 15
def rflags : ℕ := 17
def rsp : ℕ := 18

variable (m : Machine)

def Machine.set (reg : ℕ) (v : UInt64) : Machine := { m with regs := Function.update m.regs reg v }

def userSpaceEnd : ℕ := 0x00007FFFFFFFFFFF

/-- `validate_user_ptr` -/
def validateUserPtr (ptr : UInt64) (len : ℕ) : Bool :=
  ptr ≠ 0 ∧ ptr.toNat ≤ userSpaceEnd ∧ ptr.toNat + (len - 1) ≤ userSpaceEnd ∧
    ∀ i : ℕ, i < len → m.mapped (ptr.toNat + i) = true

/-- `copy_to_user` -/
def copyToUser (ptr : UInt64) (src : List UInt8) : Option Machine :=
  if ptr ≠ 0 ∧ ptr.toNat + (src.length - 1) ≤ userSpaceEnd ∧
      ∀ i : ℕ, i < src.length → m.mapped (ptr.toNat + i) = true ∧ m.writable (ptr.toNat + i) = true then
    some { m with mem := store m.mem ptr.toNat src }
  else none

def readUserU64 (ptr : UInt64) : Option UInt64 :=
  if ptr ≠ 0 ∧ ptr.toNat + 7 ≤ userSpaceEnd ∧ ∀ i : ℕ, i < 8 → m.mapped (ptr.toNat + i) = true then
    some (UInt64.ofNat (ofLe (load m.mem ptr.toNat 8)))
  else none

/-! ## Delivery and return -/

/-- `to_ne_bytes` -/
def wordBytes (v : UInt64) : List UInt8 := leBytes 8 v.toNat

def writeSignalFrame (newRsp restorer savedRip savedRsp savedRflags : UInt64) : Option Machine :=
  if ¬ validateUserPtr m newRsp 32 then none
  else copyToUser m newRsp (wordBytes restorer ++ wordBytes savedRip ++ wordBytes savedRsp ++ wordBytes savedRflags)

def frameBytes : UInt64 := 32

/-- where the frame goes: below the user's stack pointer, as after a `call` -/
def frameRsp (userRsp : UInt64) : UInt64 := ((userRsp - frameBytes) &&& ~~~15) - 8

/-- `none`: the frame cannot be written and the thread ends -/
def setupSignalFrame (sig : ℕ) (action : SigAction) : Option Machine :=
  let newRsp := frameRsp (m.regs rsp)
  (writeSignalFrame m newRsp action.restorer (m.regs rip) (m.regs rsp) (m.regs rflags)).map fun m =>
    ({ m with signals := { m.signals with mask := m.signals.mask ||| action.mask } } : Machine)
      |>.set rdi sig.toUInt64 |>.set rip action.handler |>.set rsp newRsp

/-- `none`: the frame cannot be read and the thread ends -/
def rtSigreturn : Option Machine :=
  let userRsp := m.regs rsp
  if ¬ validateUserPtr m userRsp 24 then none
  else
    (readUserU64 m userRsp).bind fun savedRip =>
      (readUserU64 m (userRsp + 8)).bind fun savedRsp =>
        (readUserU64 m (userRsp + 16)).map fun savedRflags =>
          ({ m with signals := { m.signals with mask := 0 } } : Machine)
            |>.set rip savedRip |>.set rflags savedRflags |>.set rsp savedRsp

/-- how a system call ends: the thread ends, it goes on after the call, or it goes on in a handler -/
inductive Return where
  | ended
  | plain (m : Machine)
  | handler (m : Machine)

def rtSigreturnNumber : UInt64 := 15

/-- `signal_and_return` and the return to user mode; RAX holds the number of the call -/
def signalAndReturn (m : Machine) (syscallRet : UInt64) : Return :=
  if m.regs rax = rtSigreturnNumber then (rtSigreturn m).elim .ended fun m => .plain (m.set rax 0)
  else
    match m.signals.takeNextDeliverable with
    | none => .plain (m.set rax syscallRet)
    | some (sig, signals) =>
      let m := { m with signals := signals }
      let action := signals.action sig
      if action.isIgnored then .plain (m.set rax syscallRet)
      else if ¬ action.hasUserHandler then
        match defaultAction sig with
        | .terminate => .ended
        | .ignore => .plain (m.set rax syscallRet)
      else (setupSignalFrame m sig action).elim .ended fun m => .handler (m.set rax 0)

/-- the `ret` of a handler, and the restorer's call of `rt_sigreturn` -/
def handlerReturn (m : Machine) : Option Machine :=
  (readUserU64 m (m.regs rsp)).bind fun restorer =>
    match signalAndReturn (((m.set rip restorer).set rsp (m.regs rsp + 8)).set rax rtSigreturnNumber) 0 with
    | .plain m => some m
    | _ => none

/-! ## Programs in user mode -/

inductive Prog where
  | done
  /-- user code, and whatever else changes the process before its next system call -/
  | user (f : Machine → Machine) (next : Prog)
  /-- system call `num` with result `ret`; `body` is the handler, if one is called at its return -/
  | syscall (num ret : UInt64) (body next : Prog)

/-- `none`: the thread ends on the way -/
def exec : Machine → Prog → Option Machine
  | m, .done => some m
  | m, .user f next => exec (f m) next
  | m, .syscall num ret body next =>
    match signalAndReturn (m.set rax num) ret with
    | .ended => none
    | .plain m => exec m next
    | .handler m => (exec m body).bind fun m => (handlerReturn m).bind fun m => exec m next

/-- the same bytes of the frame at `a`, still mapped -/
def SameFrame (a : ℕ) (m m' : Machine) : Prop :=
  ∀ i, a ≤ i → i < a + 32 → m'.mem i = m.mem i ∧ m'.mapped i = m.mapped i

/-- the program keeps the frame at `a`: user code leaves it alone, and frames of nested deliveries miss it -/
def Leaves (a : ℕ) : Machine → Prog → Prop
  | _, .done => True
  | m, .user f next => SameFrame a m (f m) ∧ Leaves a (f m) next
  | m, .syscall num ret body next =>
    match signalAndReturn (m.set rax num) ret with
    | .ended => True
    | .plain m => Leaves a m next
    | .handler m => (a + 32 ≤ (m.regs rsp).toNat ∨ (m.regs rsp).toNat + 32 ≤ a) ∧
        Leaves a m body ∧ ∀ m₂ m₃, exec m body = some m₂ → handlerReturn m₂ = some m₃ → Leaves a m₃ next

/-- the state the process is in after the call without a signal, as far as the frame and the mask go -/
def Resumes (ret : UInt64) (m' : Machine) : Prop :=
  m'.regs rip = m.regs rip ∧ m'.regs rsp = m.regs rsp ∧ m'.regs rflags = m.regs rflags ∧ m'.regs rax = ret ∧
    m'.signals.mask = m.signals.mask

/-! ## The frame -/

@[simp] theorem set_regs (reg reg' : ℕ) (v : UInt64) :
    (m.set reg v).regs reg' = if reg' = reg then v else m.regs reg' := Function.update_apply ..

@[simp] theorem set_mem (reg : ℕ) (v : UInt64) : (m.set reg v).mem = m.mem := rfl

@[simp] theorem set_mapped (reg : ℕ) (v : UInt64) : (m.set reg v).mapped = m.mapped := rfl

@[simp] theorem set_signals (reg : ℕ) (v : UInt64) : (m.set reg v).signals = m.signals := rfl

variable {m m' m₁ m₂ m₃ : Machine} {ret : UInt64}

/-- aligning takes off less than 16 -/
theorem toNat_align (x : UInt64) : (x &&& ~~~15).toNat ≤ x.toNat ∧ x.toNat ≤ (x &&& ~~~15).toNat + 15 := by
  have hdisjoint : (x.toBitVec &&& ~~~15#64) &&& (x.toBitVec &&& 15#64) = 0#64 := by
    apply BitVec.eq_of_getLsbD_eq
    intro i hi
    simp only [BitVec.getLsbD_and, BitVec.getLsbD_not]
    cases (15#64).getLsbD i <;> simp
  have hunion : (x.toBitVec &&& ~~~15#64) ||| (x.toBitVec &&& 15#64) = x.toBitVec := by
    apply BitVec.eq_of_getLsbD_eq
    intro i hi
    simp only [BitVec.getLsbD_or, BitVec.getLsbD_and, BitVec.getLsbD_not, hi, decide_true, Bool.true_and]
    cases (15#64).getLsbD i <;> simp
  have hsum := BitVec.add_eq_or_of_and_eq_zero _ _ hdisjoint
  rw [hunion] at hsum
  have hlow : (x.toBitVec &&& 15#64).toNat ≤ 15 := by
    rw [BitVec.toNat_and]
    exact Nat.and_le_right
  have hhigh : (x.toBitVec &&& ~~~15#64).toNat ≤ x.toBitVec.toNat := by
    rw [BitVec.toNat_and]
    exact Nat.and_le_left
  have hnat := congrArg BitVec.toNat hsum
  rw [BitVec.toNat_add] at hnat
  have hx : x.toBitVec.toNat < 2 ^ 64 := x.toBitVec.isLt
  have hgoal : (x &&& ~~~15).toNat = (x.toBitVec &&& ~~~15#64).toNat := rfl
  have hxNat : x.toNat = x.toBitVec.toNat := rfl
  omega

/-- the frame lies below the interrupted stack pointer -/
theorem frame_below {userRsp : UInt64} (h : (frameRsp userRsp).toNat ≤ userSpaceEnd) :
    (frameRsp userRsp).toNat + 40 ≤ userRsp.toNat := by
  obtain ⟨hle, hge⟩ := toNat_align (userRsp - frameBytes)
  have hbytes : frameBytes.toNat = 32 := rfl
  have height : (8 : UInt64).toNat = 8 := rfl
  have huser : userRsp.toNat < 2 ^ 64 := userRsp.toNat_lt
  have hsub := UInt64.toNat_sub userRsp frameBytes
  unfold frameRsp at h ⊢
  have hsub' := UInt64.toNat_sub ((userRsp - frameBytes) &&& ~~~15) 8
  unfold userSpaceEnd at h
  omega

/-- what the frame at `a` holds -/
structure Holds (m : Machine) (a : UInt64) (restorer savedRip savedRsp savedRflags : UInt64) : Prop where
  nonzero : a ≠ 0
  inRange : a.toNat + 31 ≤ userSpaceEnd
  mapped : ∀ i : ℕ, i < 32 → m.mapped (a.toNat + i) = true
  bytes : load m.mem a.toNat 32 =
    wordBytes restorer ++ wordBytes savedRip ++ wordBytes savedRsp ++ wordBytes savedRflags

variable {a restorer savedRip savedRsp savedRflags : UInt64}

theorem writeSignalFrame_some (h : writeSignalFrame m a restorer savedRip savedRsp savedRflags = some m') :
    Holds m' a restorer savedRip savedRsp savedRflags ∧ m'.regs = m.regs ∧ m'.mapped = m.mapped ∧
      m'.signals = m.signals ∧ ∀ i, i < a.toNat ∨ a.toNat + 32 ≤ i → m'.mem i = m.mem i := by
  have hlength : (wordBytes restorer ++ wordBytes savedRip ++ wordBytes savedRsp ++ wordBytes savedRflags).length = 32 := by
    simp [wordBytes]
  unfold writeSignalFrame copyToUser at h
  split_ifs at h with hvalid hcopy
  obtain ⟨hnonzero, hrange, hmapped⟩ := hcopy
  rw [hlength] at hrange hmapped
  cases h
  refine ⟨⟨hnonzero, hrange, fun i hi => (hmapped i hi).1, ?_⟩, rfl, rfl, rfl, ?_⟩
  · have hload := load_store m.mem a.toNat
      (wordBytes restorer ++ wordBytes savedRip ++ wordBytes savedRsp ++ wordBytes savedRflags)
    rwa [hlength] at hload
  · rintro i (hlt | hge)
    · exact store_of_lt hlt
    · exact store_of_ge (by rw [hlength]; exact hge)

theorem ofLe_wordBytes (v : UInt64) : UInt64.ofNat (ofLe (wordBytes v)) = v := by
  have hlt : v.toNat < 256 ^ 8 := v.toNat_lt
  rw [wordBytes, ofLe_leBytes, Nat.mod_eq_of_lt hlt, UInt64.ofNat_toNat]

section

variable (h : Holds m a restorer savedRip savedRsp savedRflags)

include h

theorem Holds.word {k v : UInt64} (hk : k.toNat + 8 ≤ 32)
    (hv : ((wordBytes restorer ++ wordBytes savedRip ++ wordBytes savedRsp ++ wordBytes savedRflags).drop k.toNat).take 8 =
      wordBytes v) : readUserU64 m (a + k) = some v := by
  have hrange := h.inRange
  unfold userSpaceEnd at hrange
  have hadd : (a + k).toNat = a.toNat + k.toNat := by
    rw [UInt64.toNat_add]
    exact Nat.mod_eq_of_lt (by omega)
  have hpos : 0 < a.toNat := by
    by_contra hzero
    exact h.nonzero (UInt64.toNat_inj.1 (by simpa using hzero))
  have hload : load m.mem (a + k).toNat 8 = wordBytes v := by
    rw [hadd, load_part hk, h.bytes, hv]
  unfold readUserU64
  rw [if_pos, hload, ofLe_wordBytes]
  refine ⟨?_, ?_, fun i hi => ?_⟩
  · intro hzero
    rw [hzero] at hadd
    simp only [UInt64.toNat_zero] at hadd
    omega
  · unfold userSpaceEnd
    omega
  · rw [hadd, Nat.add_assoc]
    exact h.mapped _ (by omega)

/-- the words of the frame, as `ret` and `rt_sigreturn` read them -/
theorem Holds.read : readUserU64 m a = some restorer ∧ readUserU64 m (a + 8) = some savedRip ∧
      readUserU64 m (a + 16) = some savedRsp ∧ readUserU64 m (a + 24) = some savedRflags := by
  have hlength : ∀ v, (wordBytes v).length = 8 := fun v => length_leBytes 8 _
  refine ⟨?_, h.word (by decide) ?_, h.word (by decide) ?_, h.word (by decide) ?_⟩
  · have hfirst := @Holds.word m a _ _ _ _ h 0 restorer (by decide) (by simp [hlength])
    simpa using hfirst
  · simp [hlength]
  · have hdrop : (wordBytes restorer).drop 16 = [] := List.drop_eq_nil_of_le (by rw [hlength]; omega)
    simp [hlength, List.drop_append, hdrop]
  · have hdrop : (wordBytes restorer).drop 24 = [] := List.drop_eq_nil_of_le (by rw [hlength]; omega)
    have hdrop' : (wordBytes savedRip).drop 16 = [] := List.drop_eq_nil_of_le (by rw [hlength]; omega)
    simp [hlength, List.drop_append, hdrop, hdrop']

theorem Holds.of_sameFrame (hsame : SameFrame a.toNat m m') : Holds m' a restorer savedRip savedRsp savedRflags := by
  refine ⟨h.nonzero, h.inRange, fun i hi => ?_, ?_⟩
  · rw [(hsame (a.toNat + i) (by omega) (by omega)).2]
    exact h.mapped i hi
  · rw [← h.bytes]
    exact load_congr fun i hlo hhi => (hsame i hlo hhi).1

end

/-! ## Deliveries, returns and whole handlers -/

theorem rtSigreturn_some (h : rtSigreturn m = some m') : m'.mem = m.mem ∧ m'.mapped = m.mapped := by
  simp only [rtSigreturn] at h
  split_ifs at h
  obtain ⟨savedRip, -, h⟩ := Option.bind_eq_some_iff.1 h
  obtain ⟨savedRsp, -, h⟩ := Option.bind_eq_some_iff.1 h
  obtain ⟨savedRflags, -, rfl⟩ := Option.map_eq_some_iff.1 h
  exact ⟨rfl, rfl⟩

/-- without a handler the kernel leaves user memory alone -/
theorem signalAndReturn_plain (h : signalAndReturn m ret = .plain m') : m'.mem = m.mem ∧ m'.mapped = m.mapped := by
  unfold signalAndReturn at h
  split_ifs at h with hnum
  · cases hreturn : rtSigreturn m with
    | none => simp [hreturn] at h
    | some m₀ =>
      rw [hreturn, Option.elim_some, Return.plain.injEq] at h
      have hkeeps := rtSigreturn_some hreturn
      exact h ▸ hkeeps
  · cases htake : m.signals.takeNextDeliverable with
    | none =>
      rw [htake, Return.plain.injEq] at h
      exact h ▸ ⟨rfl, rfl⟩
    | some taken =>
      obtain ⟨sig, signals⟩ := taken
      rw [htake] at h
      simp only at h
      split_ifs at h
      · rw [Return.plain.injEq] at h
        exact h ▸ ⟨rfl, rfl⟩
      · cases hsetup : setupSignalFrame { m with signals := signals } sig (signals.action sig) <;> simp [hsetup] at h
      · cases hdefault : defaultAction sig with
        | terminate => simp [hdefault] at h
        | ignore =>
          rw [hdefault, Return.plain.injEq] at h
          exact h ▸ ⟨rfl, rfl⟩

/-- a handler starts on a frame with the interrupted state, below the interrupted stack pointer -/
theorem signalAndReturn_handler (h : signalAndReturn m ret = .handler m₁) :
    ∃ restorer, Holds m₁ (m₁.regs rsp) restorer (m.regs rip) (m.regs rsp) (m.regs rflags) ∧
      (m₁.regs rsp).toNat + 40 ≤ (m.regs rsp).toNat ∧ m₁.mapped = m.mapped ∧
      ∀ i, i < (m₁.regs rsp).toNat ∨ (m₁.regs rsp).toNat + 32 ≤ i → m₁.mem i = m.mem i := by
  unfold signalAndReturn at h
  split_ifs at h with hnum
  · cases hreturn : rtSigreturn m <;> simp [hreturn] at h
  · cases htake : m.signals.takeNextDeliverable with
    | none => simp [htake] at h
    | some taken =>
      obtain ⟨sig, signals⟩ := taken
      rw [htake] at h
      simp only at h
      split_ifs at h
      · cases hsetup : setupSignalFrame { m with signals := signals } sig (signals.action sig) with
        | none => simp [hsetup] at h
        | some m₀ =>
          rw [hsetup, Option.elim_some, Return.handler.injEq] at h
          obtain ⟨mf, hwrite, hm₀⟩ := Option.map_eq_some_iff.1 hsetup
          obtain ⟨hholds, -, hmapped, -, hmem⟩ := writeSignalFrame_some hwrite
          have hrsp : m₁.regs rsp = frameRsp (m.regs rsp) := by simp [← h, ← hm₀, rsp, rax]
          have hm₁ : m₁.mem = mf.mem ∧ m₁.mapped = mf.mapped := by simp [← h, ← hm₀]
          rw [hrsp]
          have hbelow := frame_below (le_trans (Nat.le_add_right _ 31) hholds.inRange)
          refine ⟨(signals.action sig).restorer, ⟨hholds.nonzero, hholds.inRange, ?_, ?_⟩, hbelow, ?_, ?_⟩
          · rw [hm₁.2]
            exact hholds.mapped
          · rw [hm₁.1]
            exact hholds.bytes
          · rw [hm₁.2, hmapped]
          · rw [hm₁.1]
            exact hmem
      · cases hdefault : defaultAction sig <;> simp [hdefault] at h

theorem handlerReturn_some (h : handlerReturn m = some m') : m'.mem = m.mem ∧ m'.mapped = m.mapped := by
  obtain ⟨restorer, -, h⟩ := Option.bind_eq_some_iff.1 h
  cases hreturn : signalAndReturn (((m.set rip restorer).set rsp (m.regs rsp + 8)).set rax rtSigreturnNumber) 0 with
  | ended => simp [hreturn] at h
  | handler m₀ => simp [hreturn] at h
  | plain m₀ =>
    rw [hreturn, Option.some.injEq] at h
    have hkeeps := signalAndReturn_plain hreturn
    exact h ▸ hkeeps

theorem SameFrame.of_eq {a : ℕ} (h : m'.mem = m.mem ∧ m'.mapped = m.mapped) : SameFrame a m m' :=
  fun i _ _ => ⟨by rw [h.1], by rw [h.2]⟩

theorem SameFrame.trans {a : ℕ} (h : SameFrame a m m') (h' : SameFrame a m' m₁) : SameFrame a m m₁ := by
  intro i hlo hhi
  obtain ⟨hmem, hmapped⟩ := h i hlo hhi
  obtain ⟨hmem', hmapped'⟩ := h' i hlo hhi
  exact ⟨hmem'.trans hmem, hmapped'.trans hmapped⟩

/-- a delivery beside a frame leaves it alone -/
theorem SameFrame.of_handler {a : ℕ} (h : signalAndReturn m ret = .handler m₁)
    (hmiss : a + 32 ≤ (m₁.regs rsp).toNat ∨ (m₁.regs rsp).toNat + 32 ≤ a) : SameFrame a m m₁ := by
  obtain ⟨restorer, -, -, hmapped, hmem⟩ := signalAndReturn_handler h
  intro i hlo hhi
  exact ⟨hmem i (by omega), by rw [hmapped]⟩

/-- **Frames survive.** A program that keeps a frame finds it unchanged at its end, with every delivery and every handler in
between. Induction on the program, which contains the handlers. -/
theorem exec_leaves {a : ℕ} {p : Prog} (hexec : exec m p = some m') (hleaves : Leaves a m p) : SameFrame a m m' := by
  induction p generalizing m m' with
  | done =>
    cases hexec
    exact SameFrame.of_eq ⟨rfl, rfl⟩
  | user f next ih => exact hleaves.1.trans (ih hexec hleaves.2)
  | syscall num ret body next ihbody ihnext =>
    have henter : SameFrame a m (m.set rax num) := SameFrame.of_eq ⟨rfl, rfl⟩
    unfold exec at hexec
    unfold Leaves at hleaves
    cases hreturn : signalAndReturn (m.set rax num) ret with
    | ended => simp [hreturn] at hexec
    | plain m₀ =>
      rw [hreturn] at hexec hleaves
      exact (henter.trans (SameFrame.of_eq (signalAndReturn_plain hreturn))).trans (ihnext hexec hleaves)
    | handler m₀ =>
      rw [hreturn] at hexec hleaves
      obtain ⟨m₂, hbody, hexec⟩ := Option.bind_eq_some_iff.1 hexec
      obtain ⟨m₃, hback, hexec⟩ := Option.bind_eq_some_iff.1 hexec
      obtain ⟨hmiss, hleaves⟩ := hleaves
      have hdelivered := henter.trans (SameFrame.of_handler hreturn hmiss)
      have hhandled := hdelivered.trans (ihbody hbody hleaves.1)
      have hreturned := hhandled.trans (SameFrame.of_eq (handlerReturn_some hback))
      exact hreturned.trans (ihnext hexec (hleaves.2 m₂ m₃ hbody hback))

/-- what the return from a frame restores -/
theorem Holds.handlerReturn (h : Holds m a restorer savedRip savedRsp savedRflags) (hrsp : m.regs rsp = a) :
    ∃ m', handlerReturn m = some m' ∧ m'.regs rip = savedRip ∧ m'.regs rsp = savedRsp ∧ m'.regs rflags = savedRflags ∧
      m'.regs rax = 0 ∧ m'.signals.mask = 0 := by
  obtain ⟨hrestorer, hrip, hsp, hflags⟩ := h.read
  -- the machine that enters `rt_sigreturn`
  let m₀ := ((m.set rip restorer).set rsp (a + 8)).set rax rtSigreturnNumber
  have hrange := h.inRange
  unfold userSpaceEnd at hrange
  have hadd : (a + 8).toNat = a.toNat + 8 := by
    rw [UInt64.toNat_add]
    exact Nat.mod_eq_of_lt (by simp; omega)
  have hrsp₀ : m₀.regs rsp = a + 8 := by simp [m₀, rsp, rax]
  have hvalid : validateUserPtr m₀ (a + 8) 24 = true := by
    simp only [validateUserPtr, hadd, decide_eq_true_eq]
    refine ⟨fun hzero => ?_, ?_, ?_, fun i hi => ?_⟩
    · rw [hzero] at hadd
      simp at hadd
    · unfold userSpaceEnd
      omega
    · unfold userSpaceEnd
      omega
    · rw [Nat.add_assoc]
      exact h.mapped _ (by omega)
  have hread : ∀ ptr, readUserU64 m₀ ptr = readUserU64 m ptr := fun _ => rfl
  let m₁ := ((({ m₀ with signals := { m₀.signals with mask := 0 } } : Machine).set rip savedRip).set rflags savedRflags).set
    rsp savedRsp
  have hreturn : rtSigreturn m₀ = some m₁ := by
    have hsixteen : a + 8 + 8 = a + 16 := UInt64.add_assoc a 8 8
    have htwentyfour : a + 8 + 16 = a + 24 := UInt64.add_assoc a 8 16
    simp [rtSigreturn, hrsp₀, hvalid, hread, hsixteen, htwentyfour, hrip, hsp, hflags, m₁]
  have hback : signalAndReturn m₀ 0 = .plain (m₁.set rax 0) := by
    rw [signalAndReturn, if_pos (by simp [m₀]), hreturn, Option.elim_some]
  refine ⟨m₁.set rax 0, ?_, by simp [m₁, rip, rsp, rax, rflags]⟩
  rw [SignalFrame.handlerReturn, hrsp, hrestorer, Option.bind_some, hback]

/-- **Handlers are almost transparent.** After a handler that keeps its frame, with whatever is delivered while it runs, the
process has its RIP, RSP and RFLAGS back. It has its return value and its mask back iff both were zero. -/
theorem resumes_iff (m : Machine) (num ret : UInt64) (body : Prog) (m₁ m₂ : Machine)
    (hdeliver : signalAndReturn (m.set rax num) ret = .handler m₁) (hbody : exec m₁ body = some m₂)
    (hleaves : Leaves (m₁.regs rsp).toNat m₁ body) (hrsp : m₂.regs rsp = m₁.regs rsp) :
    ∃ m₃, handlerReturn m₂ = some m₃ ∧
      (m₃.regs rip = m.regs rip ∧ m₃.regs rsp = m.regs rsp ∧ m₃.regs rflags = m.regs rflags) ∧
      (Resumes m ret m₃ ↔ ret = 0 ∧ m.signals.mask = 0) := by
  obtain ⟨restorer, hholds, -⟩ := signalAndReturn_handler hdeliver
  have hframe := hholds.of_sameFrame (exec_leaves hbody hleaves)
  obtain ⟨m₃, hreturn, hrip, hsp, hflags, hrax, hmask⟩ := hframe.handlerReturn hrsp
  have hregs : ∀ reg, reg ≠ rax → (m.set rax num).regs reg = m.regs reg := fun reg hreg => by simp [hreg]
  rw [hregs rip (by decide)] at hrip
  rw [hregs rsp (by decide)] at hsp
  rw [hregs rflags (by decide)] at hflags
  refine ⟨m₃, hreturn, ⟨hrip, hsp, hflags⟩, ?_⟩
  simp only [Resumes, hrip, hsp, hflags, hrax, hmask, true_and]
  exact ⟨fun h => ⟨h.1.symm, h.2.symm⟩, fun h => ⟨h.1.symm, h.2.symm⟩⟩

/-- a process with handlers for the pending signals 10 and 12 -/
def twoPending : Machine where
  regs := fun reg => if reg = rsp then 0x7000 else if reg = rip then 0x1234 else if reg = rflags then 0x202 else 0
  mem := fun _ => 0
  mapped := fun _ => true
  writable := fun _ => true
  signals := ⟨fun _ => ⟨0x5000, 0, 0x6000, 0⟩, 0, sigBit 10 ||| sigBit 12⟩

/-- signal 12 is delivered at the return of a call that the handler of 10 makes -/
def nestedHandler : Prog := .syscall 39 0 .done .done

def Return.machine : Return → Machine
  | .ended => twoPending
  | .plain m | .handler m => m

def Return.isHandler : Return → Bool
  | .handler _ => true
  | _ => false

theorem eq_handler {r : Return} (h : r.isHandler = true) : r = .handler r.machine := by
  cases r with
  | ended | plain m => simp [Return.isHandler] at h
  | handler m => rfl

theorem resumes_of_nestedHandler :
    ∃ m₁ m₂ m₃, signalAndReturn (twoPending.set rax 1) 0 = .handler m₁ ∧ exec m₁ nestedHandler = some m₂ ∧
      handlerReturn m₂ = some m₃ ∧ Resumes twoPending 0 m₃ := by
  have hdeliver := eq_handler (r := signalAndReturn (twoPending.set rax 1) 0) (by decide +kernel)
  have hsome : (exec (signalAndReturn (twoPending.set rax 1) 0).machine nestedHandler).isSome = true := by decide +kernel
  obtain ⟨m₂, hbody⟩ := Option.isSome_iff_exists.1 hsome
  have hrsp : m₂.regs rsp = (signalAndReturn (twoPending.set rax 1) 0).machine.regs rsp := by
    have hsame : (exec (signalAndReturn (twoPending.set rax 1) 0).machine nestedHandler).map (fun m => m.regs rsp) =
        some ((signalAndReturn (twoPending.set rax 1) 0).machine.regs rsp) := by decide +kernel
    rw [hbody] at hsame
    exact Option.some.inj hsame
  have hleaves : Leaves ((signalAndReturn (twoPending.set rax 1) 0).machine.regs rsp).toNat
      (signalAndReturn (twoPending.set rax 1) 0).machine nestedHandler := by
    unfold nestedHandler Leaves
    split
    · trivial
    · trivial
    · next h =>
      obtain ⟨-, -, hbelow, -⟩ := signalAndReturn_handler h
      exact ⟨.inr ((Nat.add_le_add_left (by decide) _).trans hbelow), trivial, fun _ _ _ _ => trivial⟩
  obtain ⟨m₃, hreturn, -, hiff⟩ := resumes_iff twoPending 1 0 nestedHandler _ m₂ hdeliver hbody hleaves hrsp
  exact ⟨_, m₂, m₃, hdeliver, hbody, hreturn, hiff.2 ⟨rfl, rfl⟩⟩

/-- a call that returned 5 with signal 1 blocked goes on with return value 0 and nothing blocked -/
theorem handler_clobbers_return :
    let m := { twoPending with signals := { twoPending.signals with mask := sigBit 1 } }
    (signalAndReturn (m.set rax 1) 5).isHandler = true ∧
      (handlerReturn (signalAndReturn (m.set rax 1) 5).machine).map (fun m => (m.regs rax, m.signals.mask)) =
        some (0, 0) := by
  decide +kernel

end SwiftCore.Syscall.SignalFrame
