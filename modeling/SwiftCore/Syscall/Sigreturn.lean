/-
What `rt_sigreturn` lets a process ask for (core/syscall/signal.rs: `rt_sigreturn`, called from `signal_and_return`).

The call may be made at any time, with anything on the user's stack. Three words from there become RIP, RSP and RFLAGS
of the frame that `iretq` takes; none of them is looked at.

- `rtSigreturn_words`: the frame after the call, word by word.
- `sigreturn_confined_iff`: the frame is one of an ordinary user program iff the three words on the stack are.
- `sigreturn_grants_io`: a frame with the kernel's address, all I/O ports and interrupts off.
-/
import SwiftCore.Syscall.SignalFrame

namespace SwiftCore.Syscall.SignalFrame

open SwiftCore.Task Bytes

/-! ## The frame of `iretq` -/

def cs : ℕ := 16

def ss : ℕ := 19

/-- a canonical address of user space -/
def IsUserAddress (v : UInt64) : Prop := v.toNat ≤ userSpaceEnd

/-- IOPL, NT, VM and VIF -/
def privilegedFlags : UInt64 := 0x3000 ||| 0x4000 ||| 0x20000 ||| 0x80000

def interruptFlag : UInt64 := 0x200

/-- flags of a user program: none of the privileged ones, interrupts on -/
def IsUserFlags (v : UInt64) : Prop := v &&& privilegedFlags = 0 ∧ v &&& interruptFlag ≠ 0

/-- after the call that `m` made, the frame `m'` keeps the selectors and goes on as a user program -/
structure Confined (m m' : Machine) : Prop where
  cs : m'.regs cs = m.regs cs
  ss : m'.regs ss = m.regs ss
  rip : IsUserAddress (m'.regs rip)
  rsp : IsUserAddress (m'.regs rsp)
  rflags : IsUserFlags (m'.regs rflags)

/-- word `i` on the user's stack -/
def stackWord (m : Machine) (i : ℕ) : UInt64 := UInt64.ofNat (ofLe (load m.mem ((m.regs rsp).toNat + 8 * i) 8))

/-- two addresses of user space and flags of a user program are on the stack -/
def Harmless (m : Machine) : Prop :=
  IsUserAddress (stackWord m 0) ∧ IsUserAddress (stackWord m 1) ∧ IsUserFlags (stackWord m 2)

/-! ## What the call does -/

theorem readUserU64_some {m : Machine} {ptr v : UInt64} (h : readUserU64 m ptr = some v) :
    v = UInt64.ofNat (ofLe (load m.mem ptr.toNat 8)) := by
  unfold readUserU64 at h
  split_ifs at h
  exact (Option.some.inj h).symm

/-- the words on the stack are what the process goes on with; the other registers stay -/
theorem rtSigreturn_words {m m' : Machine} (h : rtSigreturn m = some m') :
    m'.regs rip = stackWord m 0 ∧ m'.regs rsp = stackWord m 1 ∧ m'.regs rflags = stackWord m 2 ∧
      ∀ reg, reg ≠ rip → reg ≠ rsp → reg ≠ rflags → m'.regs reg = m.regs reg := by
  simp only [rtSigreturn] at h
  split_ifs at h with hvalid
  obtain ⟨savedRip, hrip, h⟩ := Option.bind_eq_some_iff.1 h
  obtain ⟨savedRsp, hrsp, h⟩ := Option.bind_eq_some_iff.1 h
  obtain ⟨savedRflags, hflags, rfl⟩ := Option.map_eq_some_iff.1 h
  -- the stack pointer is in user space, so the three addresses do not wrap
  have hend : (m.regs rsp).toNat ≤ userSpaceEnd := (of_decide_eq_true hvalid).2.1
  unfold userSpaceEnd at hend
  have hnext : (m.regs rsp + 8).toNat = (m.regs rsp).toNat + 8 := by
    rw [UInt64.toNat_add]
    exact Nat.mod_eq_of_lt (by simp; omega)
  have hlast : (m.regs rsp + 16).toNat = (m.regs rsp).toNat + 16 := by
    rw [UInt64.toNat_add]
    exact Nat.mod_eq_of_lt (by simp; omega)
  have hfirst := readUserU64_some hrip
  have hsecond := readUserU64_some hrsp
  have hthird := readUserU64_some hflags
  rw [hnext] at hsecond
  rw [hlast] at hthird
  refine ⟨?_, ?_, ?_, ?_⟩
  · rw [set_regs, if_neg (by decide), set_regs, if_neg (by decide), set_regs, if_pos rfl]
    exact hfirst
  · rw [set_regs, if_pos rfl]
    exact hsecond
  · rw [set_regs, if_neg (by decide), set_regs, if_pos rfl]
    exact hthird
  · intro reg hneRip hneRsp hneFlags
    simp [hneRip, hneRsp, hneFlags]

/-- **Privilege.** A process that calls `rt_sigreturn` ends, or goes on with a frame that is confined to user mode if
and only if the three words on its stack are harmless. -/
theorem sigreturn_confined_iff (m : Machine) (ret : UInt64) :
    match signalAndReturn (m.set rax rtSigreturnNumber) ret with
    | .ended => True
    | .plain m' => Confined m m' ↔ Harmless m
    | .handler _ => False := by
  have hnum : (m.set rax rtSigreturnNumber).regs rax = rtSigreturnNumber := by simp
  rw [signalAndReturn, if_pos hnum]
  cases hreturn : rtSigreturn (m.set rax rtSigreturnNumber) with
  | none => trivial
  | some m' =>
    obtain ⟨hrip, hrsp, hflags, hother⟩ := rtSigreturn_words hreturn
    have hstack (i : ℕ) : stackWord (m.set rax rtSigreturnNumber) i = stackWord m i := by
      simp [stackWord, rsp, rax]
    rw [hstack] at hrip hrsp hflags
    -- RAX is cleared last, and is none of the registers of the frame
    have hclear {reg : ℕ} (hreg : reg ≠ rax) : (m'.set rax 0).regs reg = m'.regs reg := by simp [hreg]
    have hcs : (m'.set rax 0).regs cs = m.regs cs := by
      rw [hclear (by decide), hother cs (by decide) (by decide) (by decide)]
      simp [cs, rax]
    have hss : (m'.set rax 0).regs ss = m.regs ss := by
      rw [hclear (by decide), hother ss (by decide) (by decide) (by decide)]
      simp [ss, rax]
    have hripWord := (hclear (by decide)).trans hrip
    have hrspWord := (hclear (by decide)).trans hrsp
    have hflagsWord := (hclear (by decide)).trans hflags
    change Confined m (m'.set rax 0) ↔ Harmless m
    constructor
    · intro hconfined
      refine ⟨?_, ?_, ?_⟩
      · rw [← hripWord]
        exact hconfined.rip
      · rw [← hrspWord]
        exact hconfined.rsp
      · rw [← hflagsWord]
        exact hconfined.rflags
    · rintro ⟨hripUser, hrspUser, hflagsUser⟩
      refine ⟨hcs, hss, ?_, ?_, ?_⟩
      · rw [hripWord]
        exact hripUser
      · rw [hrspWord]
        exact hrspUser
      · rw [hflagsWord]
        exact hflagsUser

/-- a process with a stack at 4096 on which it has put an address of the kernel, an address of the stack, and flags with
IOPL 3 and without IF -/
def forger : Machine where
  regs := Function.update (fun _ => 0) rsp 4096
  mem := store (fun _ => 0) 4096 (wordBytes 0xFFFF800000000000 ++ wordBytes 4096 ++ wordBytes 0x3002)
  mapped a := 4096 ≤ a ∧ a < 8192
  writable a := 4096 ≤ a ∧ a < 8192
  signals := .new

/-- **A forged frame.** The kernel goes back to the process with all I/O ports open and interrupts off. -/
theorem sigreturn_grants_io :
    (rtSigreturn (forger.set rax rtSigreturnNumber)).map (fun m => (m.regs rip, m.regs rflags)) =
        some (0xFFFF800000000000, 0x3002) ∧
      (0x3002 : UInt64) &&& 0x3000 = 0x3000 ∧ (0x3002 : UInt64) &&& interruptFlag = 0 := by
  refine ⟨?_, ?_, ?_⟩
  · decide +kernel
  · decide
  · decide

end SwiftCore.Syscall.SignalFrame
