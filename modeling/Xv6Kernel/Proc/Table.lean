import Xv6Kernel.Mem.Kalloc

/-!
# The process table

`proc.c` and `scheduler_ext.c` over `proc[NPROC]`: the fields of `struct proc` that the process
code reads and writes, and the loops over the table that `allocproc`, `kkill`, `wakeup`,
`reparent`, `sys_setpriority` and the three selectors run, one slot at a time under the slot's
`p->lock`. Each loop is a function of the table here; the machine (`Proc/Machine`) runs a loop
inside one step, since every field it reads or writes is written only under the same slot's lock.

The MLFQ queues of `scheduler_ext.c` are lists of slots, one per level; a queue's `count` is the
list's length.
-/

namespace Xv6.Process

open Xv6.Mem (toInt)

/-! ## Slots -/

/-- `enum procstate`. -/
inductive procstate where
  | UNUSED
  | USED
  | SLEEPING
  | RUNNABLE
  | RUNNING
  | ZOMBIE
  deriving DecidableEq, Repr

/-- A sleep channel (`void *chan`): the addresses the sources sleep on. -/
inductive Chan where
  | null
  /-- `&proc[i]`: `kwait` sleeps on its caller; `kexit` and `reparent` wake a parent. -/
  | proc (i : Nat)
  /-- `&ticks`, which `sys_pause` sleeps on and the clock interrupt wakes. -/
  | ticks
  | sem (i : Nat)
  | mutex (i : Nat)
  | cond (i : Nat)
  | rwlock (i : Nat)
  deriving DecidableEq, Repr

/-- The fields of `struct proc` that the process code uses; `parent` is the parent's slot, `none`
for a null pointer. -/
structure Proc where
  state : procstate
  chan : Chan
  killed : Int
  xstate : Int
  pid : Int
  priority : Int
  mlfq_level : Int
  time_used : Int
  time_quantum : Int
  parent : Option Nat
  deriving DecidableEq, Repr

/-- A slot of the static `proc[]`: every field 0. -/
def Proc.zero : Proc := ⟨.UNUSED, .null, 0, 0, 0, 0, 0, 0, 0, none⟩

/-- `freeproc(p)`: the fields it clears (the trapframe, the page table and the name are not
modelled). -/
def freeproc (p : Proc) : Proc :=
  { p with pid := 0, parent := none, chan := .null, killed := 0, xstate := 0, state := .UNUSED }

/-- The first slot below `n` whose entry satisfies `f`: the `for(p = proc; ...)` searches. -/
def firstSlot (f : Proc → Bool) (tab : Nat → Proc) (n : Nat) : Option Nat :=
  (List.range n).find? fun i => f (tab i)

theorem firstSlot_some {f : Proc → Bool} {tab : Nat → Proc} {n i : Nat}
    (h : firstSlot f tab n = some i) : i < n ∧ f (tab i) = true :=
  ⟨List.mem_range.1 (List.mem_of_find?_eq_some h), List.find?_some (p := fun i => f (tab i)) h⟩

/-! ## `allocproc`, `kkill`, `wakeup`, `reparent` -/

/-- `allocproc()` with `nextpid`: the first `UNUSED` slot takes the next pid (`allocpid`, an `int`
that wraps) and a new process's fields, and is returned with its lock held. When the trapframe or
the page table cannot be allocated (`ok = false`) `freeproc` gives the slot back, the pid spent. -/
def allocproc (tab : Nat → Proc) (NPROC : Nat) (nextpid : Int) (ok : Bool) :
    Option Nat × (Nat → Proc) × Int :=
  match firstSlot (·.state = .UNUSED) tab NPROC with
  | none => (none, tab, nextpid)
  | some i =>
    let p : Proc := { tab i with
      pid := nextpid, state := .USED, priority := 5, mlfq_level := 0, time_used := 0,
      time_quantum := 1 }
    if ok then (some i, Function.update tab i p, toInt (nextpid + 1))
    else (none, Function.update tab i (freeproc p), toInt (nextpid + 1))

/-- `kkill(pid)`: the first slot whose pid matches, in any state, is marked killed, and made
`RUNNABLE` if it sleeps. -/
def kkill (tab : Nat → Proc) (NPROC : Nat) (pid : Int) : (Nat → Proc) × Int :=
  match firstSlot (·.pid = pid) tab NPROC with
  | some i =>
    let st := if (tab i).state = .SLEEPING then procstate.RUNNABLE else (tab i).state
    (Function.update tab i { tab i with killed := 1, state := st }, 0)
  | none => (tab, -1)

/-- `wakeup(chan)` called by `self` (`myproc()`): every other slot sleeping on `chan` becomes
`RUNNABLE`. -/
def wakeup (tab : Nat → Proc) (NPROC : Nat) (self : Option Nat) (chan : Chan) : Nat → Proc :=
  fun i => if i < NPROC ∧ some i ≠ self ∧ (tab i).state = .SLEEPING ∧ (tab i).chan = chan then
    { tab i with state := .RUNNABLE } else tab i

/-- The children of `p`: the slots whose parent pointer is `p`. -/
def children (tab : Nat → Proc) (NPROC p : Nat) : List Nat :=
  (List.range NPROC).filter fun i => (tab i).parent = some p

/-- `reparent(p)` by `p`: its children pass to `initproc`, and `initproc` is woken once for each
(the first wakeup does all there is to do). -/
def reparent (tab : Nat → Proc) (NPROC p initproc : Nat) : Nat → Proc :=
  let tab' := fun i =>
    if i < NPROC ∧ (tab i).parent = some p then { tab i with parent := some initproc } else tab i
  if children tab NPROC p = [] then tab' else wakeup tab' NPROC (some p) (.proc initproc)

/-- The slot of `sys_setpriority(pid, priority)` for `pid ≠ 0`: the first slot whose pid
matches. -/
def setpriority (tab : Nat → Proc) (NPROC : Nat) (pid priority : Int) : Option (Nat → Proc) :=
  (firstSlot (·.pid = pid) tab NPROC).map fun i =>
    Function.update tab i { tab i with priority }

/-! ## The selectors -/

/-- The value of `select_next_proc`. -/
inductive Selector where
  | default_round_robin
  | priority_scheduler
  | mlfq_scheduler
  deriving DecidableEq, Repr

/-- `default_round_robin()`: the first `RUNNABLE` slot. -/
def default_round_robin (tab : Nat → Proc) (NPROC : Nat) : Option Nat :=
  firstSlot (·.state = .RUNNABLE) tab NPROC

/-- `priority_scheduler()`: the loop keeps a `RUNNABLE` slot whose priority is strictly above the
best so far, which starts at -1. -/
def priority_scheduler (tab : Nat → Proc) (NPROC : Nat) : Option Nat :=
  ((List.range NPROC).foldl (fun (best : Option Nat × Int) i =>
    if (tab i).state = .RUNNABLE ∧ best.2 < (tab i).priority then (some i, (tab i).priority)
    else best) (none, -1)).1

def MAX_PRIORITY_LEVELS : Nat := 5

/-- `mlfq_scheduler()`: the head of the first non-empty queue, whatever its state. -/
def mlfq_scheduler (queues : Nat → List Nat) : Option Nat :=
  (List.range MAX_PRIORITY_LEVELS).findSome? fun l => (queues l).head?

/-- `mlfq_add_process(p, level)`: appended to the level's queue if the level is valid and the
queue holds fewer than `NPROC` entries. -/
def mlfq_add_process (NPROC : Nat) (queues : Nat → List Nat) (p : Nat) (level : Int) :
    Nat → List Nat :=
  if level < 0 ∨ (MAX_PRIORITY_LEVELS : Int) ≤ level then queues
  else if (queues level.toNat).length < NPROC then
    Function.update queues level.toNat (queues level.toNat ++ [p])
  else queues

/-- `mlfq_remove_process(p, level)`: the first entry `p` of the level's queue goes, the rest move
down. -/
def mlfq_remove_process (queues : Nat → List Nat) (p : Nat) (level : Int) : Nat → List Nat :=
  if level < 0 ∨ (MAX_PRIORITY_LEVELS : Int) ≤ level then queues
  else Function.update queues level.toNat ((queues level.toNat).erase p)

end Xv6.Process
