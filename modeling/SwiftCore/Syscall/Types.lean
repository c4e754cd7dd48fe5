/-
Error numbers of the system calls (`core/syscall/types.rs`) and the arithmetic of `u64` they share.

A system call returns a `u64`; an error is the two's complement of its number, so it lies in the last 4096 values.
-/
import Mathlib.Tactic

namespace SwiftCore.Syscall

inductive Errno where
  | EAGAIN
  | EBADF
  | EFAULT
  | EINVAL
  | EMFILE
  | ENOMEM
  | ENOSYS
  | EPERM
  | EPIPE
  | ESRCH
deriving DecidableEq, Repr

/-- `u64::saturating_add` -/
def saturatingAddU64 (a b : UInt64) : UInt64 := if a.toNat + b.toNat < 2 ^ 64 then a + b else 0xffffffffffffffff

end SwiftCore.Syscall
