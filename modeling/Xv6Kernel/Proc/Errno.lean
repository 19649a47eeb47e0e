import Xv6Kernel.Mem.Kalloc

/-!
# The system-call dispatcher and `errno`

`syscall()` of `syscall.c` on the two fields of the calling process it writes, `p->errno` and
`p->trapframe->a0`, with `sys_geterrno` of `sysproc.c`. The other handlers are not modelled here:
a call is its number and the `long` its handler returns. `syscall.h` is not among the sources; the
numbers are those the comments of the `syscalls[]` table give, whose entries 1 to 27 are all set.

Every call records an error in `errno`: `ENOSYS` for an unknown number, the magnitude of a
negative result (as an `int`), and 0 for any other result. `geterrno` is a call like the others
(`syscall_geterrno`): its result, `errno`, is not negative, so the dispatcher takes it for a
success and clears `errno`. After a failing call the first `geterrno` returns the error and the
second returns 0 (`geterrno_clears`).
-/

namespace Xv6.Process

open Xv6.Mem (toInt)

/-- The fields of the calling process that `syscall()` reads and writes. -/
structure Trap where
  errno : Int
  a0 : Int
  deriving DecidableEq, Repr

/-- `NELEM(syscalls)`: the table's last entry is `[SYS_readlink] = 27`. -/
def NELEM_syscalls : Int := 28

def SYS_geterrno : Int := 24

def ENOSYS : Int := 38

def EOK : Int := 0

/-- A call as the dispatcher sees it: the number in `a7`, and what the handler returns when the
number is not `SYS_geterrno`. -/
structure SysReq where
  num : Int
  ret : Int
  deriving DecidableEq, Repr

/-- `sys_geterrno()`. -/
def sys_geterrno (t : Trap) : Int := t.errno

/-- `syscalls[num]()` for a number in the table. -/
def handler (t : Trap) (r : SysReq) : Int :=
  if r.num = SYS_geterrno then sys_geterrno t else r.ret

/-- `syscall()`: a number outside the table sets `errno` to `ENOSYS` and returns -1; a negative
result sets `errno` to its magnitude and returns -1; any other result clears `errno` and is
returned. -/
def syscall (t : Trap) (r : SysReq) : Trap :=
  if 0 < r.num ∧ r.num < NELEM_syscalls then
    if handler t r < 0 then ⟨toInt (-handler t r), -1⟩ else ⟨EOK, handler t r⟩
  else ⟨ENOSYS, -1⟩

/-- `geterrno` returns `errno`, and clears it when it is not negative. -/
theorem syscall_geterrno (t : Trap) (ret : Int) (h : 0 ≤ t.errno) :
    syscall t ⟨SYS_geterrno, ret⟩ = ⟨0, t.errno⟩ := by
  have hk : (0 : Int) < SYS_geterrno ∧ SYS_geterrno < NELEM_syscalls := by decide
  simp only [syscall, handler, if_pos hk, if_true, sys_geterrno, if_neg (not_lt.2 h)]
  rfl

/-- After a call whose handler fails with `-e`, `0 < e < 2 ^ 31`, the first `geterrno` returns
`e` and the second returns 0. -/
theorem geterrno_clears (t : Trap) {r : SysReq} (hk : 0 < r.num ∧ r.num < NELEM_syscalls)
    (hn : r.num ≠ SYS_geterrno) (hr : -2 ^ 31 < r.ret ∧ r.ret < 0) (ret ret' : Int) :
    (syscall (syscall t r) ⟨SYS_geterrno, ret⟩).a0 = -r.ret ∧
      (syscall (syscall (syscall t r) ⟨SYS_geterrno, ret⟩) ⟨SYS_geterrno, ret'⟩).a0 = 0 := by
  have h₁ : syscall t r = ⟨-r.ret, -1⟩ := by
    simp only [syscall, handler, if_pos hk, if_neg hn, if_pos hr.2]
    rw [Xv6.Mem.toInt_of_lt (by omega) (by omega)]
  rw [h₁, syscall_geterrno _ _ (by simp only; omega)]
  exact ⟨rfl, by rw [syscall_geterrno _ _ le_rfl]⟩

/-- `open` (call 15) fails with `-ENOENT`: `geterrno` returns 2, then 0. -/
theorem geterrno_clears_open :
    ((0 : Int) < 15 ∧ (15 : Int) < NELEM_syscalls) ∧ (15 : Int) ≠ SYS_geterrno ∧
      (-2 ^ 31 < (-2 : Int) ∧ (-2 : Int) < 0) ∧
      (syscall (syscall ⟨0, 0⟩ ⟨15, -2⟩) ⟨SYS_geterrno, 0⟩).a0 = -(-2) ∧
      (syscall (syscall (syscall ⟨0, 0⟩ ⟨15, -2⟩) ⟨SYS_geterrno, 0⟩) ⟨SYS_geterrno, 0⟩).a0 = 0 :=
  ⟨by decide, by decide, by decide, geterrno_clears ⟨0, 0⟩ (r := ⟨15, -2⟩) (by decide) (by decide)
    (by decide) 0 0⟩

end Xv6.Process
