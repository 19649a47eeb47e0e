import Xv6Kernel.Proc.Table

/-!
# The process machine

The kernel's processes on `NCPU` CPUs: `proc.c` (`allocproc`, `userinit`, `kfork`, `kexit`,
`kwait`, `scheduler`, `sched`, `yield`, `sleep`, `wakeup`, `kkill`), the process system calls of
`sysproc.c` (`sys_pause`, `sys_setpriority`, `sys_getpriority`, `sys_set_scheduler`), the
selectors and MLFQ queues of `scheduler_ext.c`, and the semaphores, mutexes, condition variables
and reader-writer locks of `sync_primitives.c`.

**Steps.** A step is a stretch of one CPU's code between two points where another CPU can see
what it did. Every field of a `struct proc` is read and written under that slot's `p->lock`, and
every stretch that holds a `p->lock` runs to its release without waiting, so such a stretch is one
step: a selector's scan, the re-check and switch of `scheduler`, `yield` and `sleep` up to the
scheduler's release of `p->lock` after `swtch`, and the code a process runs when it is switched
back to, up to its own release. Acquiring any other spinlock (`wait_lock`, `tickslock`, the lock
of a semaphore, mutex, condition or reader-writer lock) is a step of its own, which waits while
another thread holds the lock; what the thread does while it holds one is a step too, as a loop
test and its `sleep` are. Kernel code that the sources leave out is not modelled: files, inodes
and memory (`kfork` copies and `kexit` closes them; a failed allocation is the step's `ok`
argument), and the clock interrupt, which is the `tick` event (`trap.c` is not among the sources).

**Threads.** `code p` is where the kernel thread of slot `p` stands; a thread holds exactly the
spinlocks its position is inside (`Code.holds`), so `mycpu()->noff` at `sched` is their number
plus one for `p->lock`. `sched` panics with `"sched locks"` unless that is 1 (its other checks
always pass here). A `spinlock.c` of the usual kind is assumed: `acquire` panics when the thread
holds the lock, and otherwise waits for it.

**Ghost state.** `wakeups chan` counts the calls of `wakeup(chan)`.
-/

namespace Xv6.Process

open Xv6.Mem (toInt)
open Xv6.Fs (Stop)

/-! ## Locks, calls and where a thread stands -/

/-- The spinlocks a kernel thread holds from one step to another; `p->lock`, `pid_lock` and the
MLFQ queue locks are taken and released inside one step. -/
inductive Lock where
  | wait_lock
  | tickslock
  | sem (i : Nat)
  | mutex (i : Nat)
  | cond (i : Nat)
  | rwlock (i : Nat)
  deriving DecidableEq, Repr

/-- The lock that guards what a sleeper on `chan` tests, and that its wakers hold. -/
def Chan.lock : Chan → Option Lock
  | .null => none
  | .proc _ => some .wait_lock
  | .ticks => some .tickslock
  | .sem i => some (.sem i)
  | .mutex i => some (.mutex i)
  | .cond i => some (.cond i)
  | .rwlock i => some (.rwlock i)

def NSEM : Nat := 32
def NCOND : Nat := 32
def NMUTEX : Nat := 32
def NRWLOCK : Nat := 32
def ESRCH : Int := 3
def EINVAL : Int := 22

/-- What a process asks of the kernel next: a process system call, the `yield` of a timer
interrupt, or one of the synchronisation primitives that kernel code calls. -/
inductive Call where
  | fork
  | exit (status : Int)
  | wait (addr : Nat)
  | kill (pid : Int)
  | yield
  | pause (n : Int)
  | set_scheduler (type : Int)
  | setpriority (pid priority : Int)
  | getpriority (pid : Int)
  | sem_init (id v : Int)
  | sem_wait (id : Int)
  | sem_post (id : Int)
  | mutex_init (id : Int)
  | mutex_lock (id : Int)
  | mutex_unlock (id : Int)
  | cond_init (id : Int)
  | cond_wait (c m : Int)
  | cond_signal (id : Int)
  | cond_broadcast (id : Int)
  | rwlock_init (id : Int)
  | rwlock_read_lock (id : Int)
  | rwlock_read_unlock (id : Int)
  | rwlock_write_lock (id : Int)
  | rwlock_write_unlock (id : Int)

/-- Where `mutex_lock` and `mutex_unlock` return to: user space, or `cond_wait(c, m)`, which holds
the condition's lock. -/
inductive Ret where
  | user
  | cond_wait (c : Nat) (m : Int)

/-- Where a kernel thread stands between two steps. The positions inside a call's critical
section hold its lock. -/
inductive Code where
  /-- In user space (or about to return there). -/
  | user
  /-- At `acquire(lk)`, going on at `k`. -/
  | acquire (lk : Lock) (k : Code)
  /-- At `sleep(chan, lk)`, its loop's test just made; `k` is the loop, where it goes back to
  holding `lk` once it is woken. -/
  | sleepOn (chan : Chan) (lk : Lock) (k : Code)
  /-- Inside `sched()` in `sleep`; switched back to, it runs `sleep`'s tail and reacquires `lk`. -/
  | slept (lk : Lock) (k : Code)
  /-- Inside `sched()` in `yield`. -/
  | yielded
  /-- Inside `sched()` in `kexit`, never to return. -/
  | zombie
  /-- `kfork` holding `wait_lock`, at `np->parent = p`. -/
  | forkLink (np : Nat)
  /-- `kfork` at `acquire(&np->lock); np->state = RUNNABLE`. -/
  | forkStart (np : Nat)
  /-- `kexit` holding `wait_lock`, at `reparent(p)`. -/
  | exitBody (status : Int)
  /-- `kwait` holding `wait_lock`, at the scan of its loop. -/
  | kwaitScan (addr : Nat)
  /-- `sys_pause` holding `tickslock`, at `ticks0 = ticks`. -/
  | pauseStart (n : Int)
  /-- `sys_pause` holding `tickslock`, at its loop's test. -/
  | pauseLoop (ticks0 : Nat) (n : Int)
  | semInit (i : Nat) (v : Int)
  /-- `sem_wait` holding the semaphore's lock, at its loop's test. -/
  | semWaitLoop (i : Nat)
  | semPost (i : Nat)
  | mutexInit (i : Nat)
  /-- `mutex_lock` holding the mutex's lock, at its loop's test. -/
  | mutexLoop (i : Nat) (r : Ret)
  | mutexUnlock (i : Nat) (r : Ret)
  | condInit (i : Nat)
  /-- `cond_wait` holding the condition's lock, at `waiters++`. -/
  | condWaitBody (c : Nat) (m : Int)
  /-- `cond_wait` holding the condition's lock again after `sleep`, at `mutex_lock(mutex_id)`. -/
  | condWaitRelock (c : Nat) (m : Int)
  /-- `cond_wait` holding the condition's lock, at `waiters--`. -/
  | condWaitTail (c : Nat)
  | condSignal (i : Nat)
  | rwInit (i : Nat)
  | rwReadLoop (i : Nat)
  | rwReadUnlock (i : Nat)
  | rwWriteLoop (i : Nat)
  | rwWriteUnlock (i : Nat)

/-- The spinlocks held where a mutex call returns to. -/
def Ret.holds : Ret → List Lock
  | .user => []
  | .cond_wait c _ => [.cond c]

/-- The spinlocks a thread holds at a position. -/
def Code.holds : Code → List Lock
  | .user | .yielded | .zombie | .forkStart _ => []
  | .acquire lk k => k.holds.erase lk
  | .sleepOn _ _ k => k.holds
  | .slept lk k => k.holds.erase lk
  | .forkLink _ | .exitBody _ | .kwaitScan _ => [.wait_lock]
  | .pauseStart _ | .pauseLoop _ _ => [.tickslock]
  | .semInit i _ | .semWaitLoop i | .semPost i => [.sem i]
  | .mutexInit i => [.mutex i]
  | .mutexLoop i r | .mutexUnlock i r => .mutex i :: r.holds
  | .condInit i | .condSignal i | .condWaitTail i => [.cond i]
  | .condWaitBody c _ | .condWaitRelock c _ => [.cond c]
  | .rwInit i | .rwReadLoop i | .rwReadUnlock i | .rwWriteLoop i | .rwWriteUnlock i => [.rwlock i]

/-- The child of a `kfork` between `allocproc` and `np->state = RUNNABLE`. -/
def Code.forking : Code → Option Nat
  | .acquire _ k => k.forking
  | .forkLink np | .forkStart np => some np
  | _ => none

/-- Whether the thread is in `kexit`. -/
def Code.exiting : Code → Bool
  | .acquire _ k | .sleepOn _ _ k | .slept _ k => k.exiting
  | .exitBody _ => true
  | _ => false

/-- Whether the thread is inside the kernel on its CPU: not in user space, nor switched away. -/
def Code.inKernel : Code → Bool
  | .user | .slept _ _ | .yielded | .zombie => false
  | _ => true

/-- Every `sleep` a position leads to is made holding the lock that guards its channel, and goes
back to a loop (not into `kfork`). -/
def Code.wf : Code → Prop
  | .sleepOn chan lk k => chan.lock = some lk ∧ lk ∈ k.holds ∧ k.forking = none ∧ k.wf
  | .slept _ k => k.forking = none ∧ k.wf
  | .acquire _ k => k.wf
  | _ => True

/-! ## The state -/

/-- A `struct cpu`: the process it runs, and the choice `select_next_proc` returned that its
`scheduler` loop has not yet acted on. -/
structure Cpu where
  proc : Option Nat
  cand : Option Nat
  deriving DecidableEq, Repr

/-- A `struct mutex`; `owner` is a slot. -/
structure Mutex where
  locked : Int
  owner : Option Nat
  deriving DecidableEq, Repr

/-- A `struct rwlock`. -/
structure RWLock where
  readers : Int
  writer : Int
  owner : Option Nat
  deriving DecidableEq, Repr

/-- The machine. `param.h` is not among the sources, so `NPROC` and `NCPU` are fields. `a0` is each
process's `trapframe->a0`, where a system call's result lands; `umem p addr` is the `int` that
`copyout` last wrote at `addr` in `p`'s memory. -/
structure Sys where
  NPROC : Nat
  NCPU : Nat
  proc : Nat → Proc
  initproc : Nat
  nextpid : Int
  cpus : Nat → Cpu
  select_next_proc : Selector
  queues : Nat → List Nat
  ticks : Nat
  sem : Nat → Int
  mutex : Nat → Mutex
  cond : Nat → Int
  rw : Nat → RWLock
  code : Nat → Code
  a0 : Nat → Int
  umem : Nat → Nat → Int
  wakeups : Chan → Nat

/-- `sys_getpriority(pid)` by the process in slot `p`: its own priority for pid 0, otherwise that
of the first slot whose pid matches, in any state, or `-ESRCH`. -/
def sys_getpriority (s : Sys) (p : Nat) (pid : Int) : Int :=
  if pid = 0 then (s.proc p).priority
  else match firstSlot (·.pid = pid) s.proc s.NPROC with
    | some i => (s.proc i).priority
    | none => -ESRCH

namespace Sys

/-! ## Updates -/

def setProc (s : Sys) (p : Nat) (x : Proc) : Sys := { s with proc := Function.update s.proc p x }

def setCode (s : Sys) (p : Nat) (k : Code) : Sys := { s with code := Function.update s.code p k }

def setCpu (s : Sys) (c : Nat) (x : Cpu) : Sys := { s with cpus := Function.update s.cpus c x }

/-- Return `v` to user space: it lands in `a0`. -/
def ret (s : Sys) (p : Nat) (v : Int) : Sys :=
  { s.setCode p .user with a0 := Function.update s.a0 p v }


/-- `wakeup(chan)` by `self`, counted. -/
def wake (s : Sys) (self : Option Nat) (chan : Chan) : Sys :=
  { s with proc := wakeup s.proc s.NPROC self chan,
           wakeups := Function.update s.wakeups chan (s.wakeups chan + 1) }

/-- The thread that holds `lk`, if any. -/
def holder (s : Sys) (lk : Lock) : Option Nat :=
  (List.range s.NPROC).find? fun q => lk ∈ (s.code q).holds

def isMlfq (s : Sys) : Bool := s.select_next_proc = .mlfq_scheduler

/-! ## Scheduling -/

/-- `select_next_proc()`. -/
def select (s : Sys) : Option Nat :=
  match s.select_next_proc with
  | .default_round_robin => default_round_robin s.proc s.NPROC
  | .priority_scheduler => priority_scheduler s.proc s.NPROC
  | .mlfq_scheduler => mlfq_scheduler s.queues

/-- `sched()` from `p` on CPU `c`, to go on at `k` when switched back to; the scheduler then
clears `c->proc`. `p` holds `p->lock` and the spinlocks of `k`: `noff` must be 1. -/
def sched (s : Sys) (c p : Nat) (k : Code) : Except Stop Sys :=
  if k.holds.length + 1 ≠ 1 then .error (.panic "sched locks")
  else .ok ((s.setCode p k).setCpu c ⟨none, none⟩)

/-- `yield()` by `p` on CPU `c`: out of its MLFQ queue and back at its tail, `RUNNABLE`. -/
def yield (s : Sys) (c p : Nat) : Except Stop Sys :=
  let x := s.proc p
  let queues := if s.isMlfq then
      mlfq_add_process s.NPROC (mlfq_remove_process s.queues p x.mlfq_level) p x.mlfq_level
    else s.queues
  { s.setProc p { x with state := .RUNNABLE } with queues }.sched c p .yielded

/-- `sleep(chan, lk)` by `p` on CPU `c`, from `.sleepOn chan lk k`: `p->lock` taken, `lk`
released, out of its MLFQ queue, `SLEEPING` on `chan`. -/
def sleep (s : Sys) (c p : Nat) (chan : Chan) (lk : Lock) (k : Code) : Except Stop Sys :=
  let x := s.proc p
  let queues := if s.isMlfq then mlfq_remove_process s.queues p x.mlfq_level else s.queues
  { s.setProc p { x with chan, state := .SLEEPING } with queues }.sched c p (.slept lk k)

/-- What `p` runs when it is switched back to, up to its release of `p->lock`: the tail of
`sleep` (clear `chan`; under MLFQ a level up and back into a queue), or the return from `yield`
or from `forkret`. -/
def resume (s : Sys) (p : Nat) : Sys :=
  match s.code p with
  | .slept lk k =>
    let x := { s.proc p with chan := .null }
    let x := if s.isMlfq ∧ 0 < x.mlfq_level then
        { x with mlfq_level := x.mlfq_level - 1, time_quantum := 2 ^ (x.mlfq_level - 1).toNat,
                 time_used := 0 }
      else x
    let queues := if s.isMlfq then mlfq_add_process s.NPROC s.queues p x.mlfq_level else s.queues
    { (s.setProc p x).setCode p (.acquire lk k) with queues }
  | .yielded | .user => s.setCode p .user
  | _ => s

/-- One round of `scheduler()` on CPU `c`: the selector's choice, then, under `p->lock`, the
re-check that it is `RUNNABLE` and the switch to it. -/
def schedule (s : Sys) (c : Nat) : Sys :=
  match (s.cpus c).cand with
  | none => s.setCpu c ⟨none, s.select⟩
  | some p =>
    if (s.proc p).state = .RUNNABLE then
      ((s.setProc p { s.proc p with state := .RUNNING }).setCpu c ⟨some p, none⟩).resume p
    else s.setCpu c ⟨none, none⟩

/-! ## Process calls -/

/-- `kfork` up to `release(&np->lock)`: `allocproc`, and the copy of the parent's memory, which
fails with `ok = false` (the slot is freed). The child will start in `forkret`, `a0` 0. -/
def forkAlloc (s : Sys) (p : Nat) (ok : Bool) : Sys :=
  match allocproc s.proc s.NPROC s.nextpid ok with
  | (none, tab, n) => { s with proc := tab, nextpid := n }.ret p (-1)
  | (some i, tab, n) =>
    ({ s with proc := tab, nextpid := n, code := Function.update s.code i .user,
              a0 := Function.update s.a0 i 0 }).setCode p (.acquire .wait_lock (.forkLink i))

/-- The rest of `kfork`: `np` made `RUNNABLE`, into an MLFQ queue when MLFQ selects, and `yield`
when the child's priority is above the parent's. -/
def forkStart (s : Sys) (c p np : Nat) : Except Stop Sys :=
  let x := s.proc np
  let s := s.setProc np { x with state := .RUNNABLE }
  let s := if s.isMlfq then { s with queues := mlfq_add_process s.NPROC s.queues np x.mlfq_level }
    else s
  let s := { s with a0 := Function.update s.a0 p x.pid }
  if (s.proc p).priority < x.priority then s.yield c p else .ok (s.setCode p .user)

/-- `kexit(status)` from `reparent(p)` on, holding `wait_lock`. -/
def exitBody (s : Sys) (c p : Nat) (status : Int) : Except Stop Sys :=
  let n := (children s.proc s.NPROC p).length
  let s := { s with proc := reparent s.proc s.NPROC p s.initproc,
                    wakeups := Function.update s.wakeups (.proc s.initproc)
                      (s.wakeups (.proc s.initproc) + n) }
  let s := s.wake (some p) (match (s.proc p).parent with | some q => .proc q | none => .null)
  let x := s.proc p
  let queues := if s.isMlfq then mlfq_remove_process s.queues p x.mlfq_level else s.queues
  { s.setProc p { x with xstate := status, state := .ZOMBIE } with queues }.sched c p .zombie

/-- One round of `kwait(addr)`'s loop, holding `wait_lock`: the first `ZOMBIE` child is reaped
(its `xstate` copied out to `addr` unless `addr` is 0; a failed `copyout`, `ok = false`, returns
-1 and reaps nothing); with no child, or killed, -1; otherwise `sleep(p, &wait_lock)`. -/
def kwaitScan (s : Sys) (p addr : Nat) (ok : Bool) : Sys :=
  let kids := children s.proc s.NPROC p
  match kids.find? fun i => (s.proc i).state = .ZOMBIE with
  | some z =>
    let x := s.proc z
    if addr ≠ 0 ∧ ok = false then s.ret p (-1)
    else
      let umem := if addr ≠ 0 then Function.update s.umem p (Function.update (s.umem p) addr x.xstate)
        else s.umem
      { s.setProc z (freeproc x) with umem }.ret p x.pid
  | none =>
    if kids = [] ∨ (s.proc p).killed ≠ 0 then s.ret p (-1)
    else s.setCode p (.sleepOn (.proc p) .wait_lock (.kwaitScan addr))

/-- A primitive's entry: an id outside `0 .. n - 1` returns -1, else `acquire` its lock. -/
def enter (s : Sys) (p : Nat) (id : Int) (n : Nat) (lk : Nat → Lock) (k : Nat → Code) : Sys :=
  if id < 0 ∨ (n : Int) ≤ id then s.ret p (-1) else s.setCode p (.acquire (lk id.toNat) (k id.toNat))

/-- The step of a process in user space that makes `call`. -/
def syscall (s : Sys) (c p : Nat) (ok : Bool) : Call → Except Stop Sys
  | .fork => .ok (s.forkAlloc p ok)
  | .exit status =>
    if p = s.initproc then .error (.panic "init exiting")
    else .ok (s.setCode p (.acquire .wait_lock (.exitBody status)))
  | .wait addr => .ok (s.setCode p (.acquire .wait_lock (.kwaitScan addr)))
  | .kill pid => .ok ({ s with proc := (kkill s.proc s.NPROC pid).1 }.ret p (kkill s.proc s.NPROC pid).2)
  | .yield => s.yield c p
  | .pause n => .ok (s.setCode p (.acquire .tickslock (.pauseStart (max n 0))))
  | .set_scheduler t =>
    if t < 0 ∨ 2 < t then .ok (s.ret p (-EINVAL))
    else
      let sel := if t = 0 then Selector.default_round_robin
        else if t = 1 then .priority_scheduler else .mlfq_scheduler
      .ok ({ s with select_next_proc := sel }.ret p 0)
  | .setpriority pid priority =>
    if priority < 0 ∨ 9 < priority then .ok (s.ret p (-EINVAL))
    else if pid = 0 then .ok ((s.setProc p { s.proc p with priority }).ret p 0)
    else match setpriority s.proc s.NPROC pid priority with
      | some tab => .ok ({ s with proc := tab }.ret p 0)
      | none => .ok (s.ret p (-ESRCH))
  | .getpriority pid => .ok (s.ret p (sys_getpriority s p pid))
  | .sem_init id v => .ok (s.enter p id NSEM .sem fun i => .semInit i v)
  | .sem_wait id => .ok (s.enter p id NSEM .sem .semWaitLoop)
  | .sem_post id => .ok (s.enter p id NSEM .sem .semPost)
  | .mutex_init id => .ok (s.enter p id NMUTEX .mutex .mutexInit)
  | .mutex_lock id => .ok (s.enter p id NMUTEX .mutex fun i => .mutexLoop i .user)
  | .mutex_unlock id => .ok (s.enter p id NMUTEX .mutex fun i => .mutexUnlock i .user)
  | .cond_init id => .ok (s.enter p id NCOND .cond .condInit)
  | .cond_wait c m => .ok (s.enter p c NCOND .cond fun i => .condWaitBody i m)
  | .cond_signal id | .cond_broadcast id => .ok (s.enter p id NCOND .cond .condSignal)
  | .rwlock_init id => .ok (s.enter p id NRWLOCK .rwlock .rwInit)
  | .rwlock_read_lock id => .ok (s.enter p id NRWLOCK .rwlock .rwReadLoop)
  | .rwlock_read_unlock id => .ok (s.enter p id NRWLOCK .rwlock .rwReadUnlock)
  | .rwlock_write_lock id => .ok (s.enter p id NRWLOCK .rwlock .rwWriteLoop)
  | .rwlock_write_unlock id => .ok (s.enter p id NRWLOCK .rwlock .rwWriteUnlock)

/-- `acquire(lk)` by `p`: a panic if `p` holds it, a wait while another thread does. -/
def acquire (s : Sys) (p : Nat) (lk : Lock) (k : Code) : Except Stop Sys :=
  if lk ∈ k.holds.erase lk then .error (.panic "acquire")
  else if s.holder lk = none then .ok (s.setCode p k) else .ok s

/-- The step of process `p`, running on CPU `c`. -/
def exec (s : Sys) (c p : Nat) (call : Call) (ok : Bool) : Except Stop Sys :=
  match s.code p with
  | .user => s.syscall c p ok call
  | .acquire lk k => s.acquire p lk k
  | .sleepOn chan lk k => s.sleep c p chan lk k
  | .slept _ _ | .yielded | .zombie => .ok s
  | .forkLink np => .ok ((s.setProc np { s.proc np with parent := some p }).setCode p (.forkStart np))
  | .forkStart np => s.forkStart c p np
  | .exitBody status => s.exitBody c p status
  | .kwaitScan addr => .ok (s.kwaitScan p addr ok)
  | .pauseStart n => .ok (s.setCode p (.pauseLoop s.ticks n))
  | .pauseLoop t0 n =>
    if (s.ticks + 2 ^ 32 - t0) % 2 ^ 32 < n.toNat then
      if (s.proc p).killed ≠ 0 then .ok (s.ret p (-1))
      else .ok (s.setCode p (.sleepOn .ticks .tickslock (.pauseLoop t0 n)))
    else .ok (s.ret p 0)
  | .semInit i v => .ok ({ s with sem := Function.update s.sem i v }.ret p 0)
  | .semWaitLoop i =>
    if s.sem i ≤ 0 then .ok (s.setCode p (.sleepOn (.sem i) (.sem i) (.semWaitLoop i)))
    else .ok ({ s with sem := Function.update s.sem i (s.sem i - 1) }.ret p 0)
  | .semPost i =>
    .ok (({ s with sem := Function.update s.sem i (toInt (s.sem i + 1)) }.wake (some p) (.sem i)).ret p 0)
  | .mutexInit i => .ok ({ s with mutex := Function.update s.mutex i ⟨0, none⟩ }.ret p 0)
  | .mutexLoop i r =>
    if (s.mutex i).locked ≠ 0 ∧ (s.mutex i).owner ≠ some p then
      .ok (s.setCode p (.sleepOn (.mutex i) (.mutex i) (.mutexLoop i r)))
    else
      let s := { s with mutex := Function.update s.mutex i ⟨1, some p⟩ }
      match r with
      | .user => .ok (s.ret p 0)
      | .cond_wait c _ => .ok (s.setCode p (.condWaitTail c))
  | .mutexUnlock i r =>
    let owns := (s.mutex i).owner = some p
    let s := if owns then { s with mutex := Function.update s.mutex i ⟨0, none⟩ }.wake (some p) (.mutex i)
      else s
    match r with
    | .user => .ok (s.ret p (if owns then 0 else -1))
    | .cond_wait c m => .ok (s.setCode p (.sleepOn (.cond c) (.cond c) (.condWaitRelock c m)))
  | .condInit i => .ok ({ s with cond := Function.update s.cond i 0 }.ret p 0)
  | .condWaitBody i m =>
    let s := { s with cond := Function.update s.cond i (toInt (s.cond i + 1)) }
    if m < 0 ∨ (NMUTEX : Int) ≤ m then
      .ok (s.setCode p (.sleepOn (.cond i) (.cond i) (.condWaitRelock i m)))
    else .ok (s.setCode p (.acquire (.mutex m.toNat) (.mutexUnlock m.toNat (.cond_wait i m))))
  | .condWaitRelock i m =>
    if m < 0 ∨ (NMUTEX : Int) ≤ m then .ok (s.setCode p (.condWaitTail i))
    else .ok (s.setCode p (.acquire (.mutex m.toNat) (.mutexLoop m.toNat (.cond_wait i m))))
  | .condWaitTail i => .ok ({ s with cond := Function.update s.cond i (s.cond i - 1) }.ret p 0)
  | .condSignal i =>
    .ok ((if 0 < s.cond i then s.wake (some p) (.cond i) else s).ret p 0)
  | .rwInit i => .ok ({ s with rw := Function.update s.rw i { s.rw i with readers := 0, writer := 0 } }.ret p 0)
  | .rwReadLoop i =>
    if (s.rw i).writer ≠ 0 then .ok (s.setCode p (.sleepOn (.rwlock i) (.rwlock i) (.rwReadLoop i)))
    else .ok ({ s with rw := Function.update s.rw i { s.rw i with readers := (s.rw i).readers + 1 } }.ret p 0)
  | .rwReadUnlock i =>
    let s := { s with rw := Function.update s.rw i { s.rw i with readers := (s.rw i).readers - 1 } }
    .ok ((if (s.rw i).readers = 0 then s.wake (some p) (.rwlock i) else s).ret p 0)
  | .rwWriteLoop i =>
    if (s.rw i).writer ≠ 0 ∨ 0 < (s.rw i).readers then
      .ok (s.setCode p (.sleepOn (.rwlock i) (.rwlock i) (.rwWriteLoop i)))
    else .ok ({ s with rw := Function.update s.rw i { s.rw i with writer := 1, owner := some p } }.ret p 0)
  | .rwWriteUnlock i =>
    if (s.rw i).owner ≠ some p then .ok (s.ret p (-1))
    else
      let s := { s with rw := Function.update s.rw i { s.rw i with writer := 0, owner := none } }
      .ok ((s.wake (some p) (.rwlock i)).ret p 0)

end Sys

/-! ## Runs -/

/-- A step of the machine. -/
inductive Ev where
  /-- CPU `c` takes a step: its scheduler's, or its process's. A process in user space makes
  `call`; `ok` is whether the step's allocation or `copyout` succeeds. -/
  | cpu (c : Nat) (call : Call) (ok : Bool)
  /-- The clock interrupt: `ticks++` and `wakeup(&ticks)` under `tickslock`. -/
  | tick

def Sys.step (s : Sys) : Ev → Except Stop Sys
  | .cpu c call ok =>
    if c < s.NCPU then
      match (s.cpus c).proc with
      | some p => s.exec c p call ok
      | none => .ok (s.schedule c)
    else .ok s
  | .tick =>
    if s.holder .tickslock = none then .ok ({ s with ticks := (s.ticks + 1) % 2 ^ 32 }.wake none .ticks)
    else .ok s

def Sys.run (s : Sys) : List Ev → Except Stop Sys
  | [] => .ok s
  | e :: es =>
    match s.step e with
    | .ok s => s.run es
    | .error h => .error h

/-- The static state: every slot and CPU zero, `nextpid` 1, round-robin selection. -/
def Sys.zero (NPROC NCPU : Nat) : Sys :=
  ⟨NPROC, NCPU, fun _ => Proc.zero, 0, 1, fun _ => ⟨none, none⟩, .default_round_robin,
    fun _ => [], 0, fun _ => 0, fun _ => ⟨0, none⟩, fun _ => 0, fun _ => ⟨0, 0, none⟩,
    fun _ => .user, fun _ => 0, fun _ _ => 0, fun _ => 0⟩

/-- `userinit()`: the first process, `initproc`, `RUNNABLE` in the first free slot. -/
def userinit (s : Sys) : Sys :=
  match allocproc s.proc s.NPROC s.nextpid true with
  | (some i, tab, n) =>
    { s with proc := Function.update tab i { tab i with state := .RUNNABLE }, nextpid := n,
             initproc := i }
  | (none, _, _) => s

/-- The machine after boot. -/
def Sys.boot (NPROC NCPU : Nat) : Sys := userinit (Sys.zero NPROC NCPU)

/-- The states the machine reaches from boot, with at least one slot. -/
inductive Sys.Reach : Sys → Prop
  | boot {NPROC NCPU : Nat} (h : 0 < NPROC) : Sys.Reach (Sys.boot NPROC NCPU)
  | step {s s' : Sys} {e : Ev} (hr : s.Reach) (he : s.step e = .ok s') : s'.Reach

end Xv6.Process
