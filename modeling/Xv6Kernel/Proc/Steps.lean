import Xv6Kernel.Proc.Machine

/-!
# What a step can do

The laws of the machine read the table, the CPUs, the selector and its queues, where each thread
stands and the wakeup counts (`Core`); the semaphores, mutexes, `ticks`, `nextpid` and what a call
returns they do not. `exec_cases` says once, for every position of a running thread, what its step
does to the core: most steps only move the thread (`Code.Step`: it takes no lock, starts no
`kfork` and keeps its `sleep`s well formed), some also wake a channel whose lock the thread holds,
and the rest are `acquire`, the steps into `sched` (`yield`, `sleep`, `kexit`) and the steps of
`kfork`, `kkill`, `sys_setpriority`, `sys_set_scheduler` and the reaping in `kwait`. Every law is
proved from it, never from `Sys.exec`.
-/

namespace Xv6.Process

/-- What the machine's laws read. -/
structure Core where
  NPROC : Nat
  NCPU : Nat
  initproc : Nat
  proc : Nat → Proc
  cpus : Nat → Cpu
  select_next_proc : Selector
  queues : Nat → List Nat
  code : Nat → Code
  wakeups : Chan → Nat

def Sys.core (s : Sys) : Core :=
  ⟨s.NPROC, s.NCPU, s.initproc, s.proc, s.cpus, s.select_next_proc, s.queues, s.code, s.wakeups⟩

section Core
variable (s : Sys)
@[simp] theorem Sys.core_NPROC : s.core.NPROC = s.NPROC := rfl
@[simp] theorem Sys.core_NCPU : s.core.NCPU = s.NCPU := rfl
@[simp] theorem Sys.core_initproc : s.core.initproc = s.initproc := rfl
@[simp] theorem Sys.core_proc : s.core.proc = s.proc := rfl
@[simp] theorem Sys.core_cpus : s.core.cpus = s.cpus := rfl
@[simp] theorem Sys.core_select_next_proc : s.core.select_next_proc = s.select_next_proc := rfl
@[simp] theorem Sys.core_queues : s.core.queues = s.queues := rfl
@[simp] theorem Sys.core_code : s.core.code = s.code := rfl
@[simp] theorem Sys.core_wakeups : s.core.wakeups = s.wakeups := rfl
end Core

/-- How a thread outside `kfork` may move when it takes no lock, starts no `kfork` or `kexit`,
and goes to no `sched`. -/
structure Code.Step (κ k : Code) : Prop where
  holds : ∀ l ∈ k.holds, l ∈ κ.holds
  wf : κ.wf → k.wf
  unforked : κ.forking = none
  forking : k.forking = none
  exiting : k.exiting = true → κ.exiting = true

namespace Code.Step

theorem user {κ : Code} (hκ : κ.forking = none) : Code.Step κ .user :=
  ⟨by simp [Code.holds], fun _ => trivial, hκ, rfl, fun h => nomatch h⟩

/-- Entering a critical section from user space. -/
theorem enter {lk : Lock} {k : Code} (hk : k.holds = [lk]) (hw : k.wf) (hf : k.forking = none)
    (hx : k.exiting = false) : Code.Step .user (.acquire lk k) :=
  ⟨by simp [Code.holds, hk], fun _ => hw, rfl, hf,
    fun h => absurd h (by simpa [Code.exiting] using hx)⟩

/-- The loop test of a primitive, about to sleep on `chan` with the lock it holds. -/
theorem sleepOn {chan : Chan} {lk : Lock} {k : Code} (hc : chan.lock = some lk)
    (hl : lk ∈ k.holds) (hf : k.forking = none) : Code.Step k (.sleepOn chan lk k) :=
  ⟨by simp [Code.holds], fun hw => ⟨hc, hl, hf, hw⟩, hf, rfl, id⟩

/-- Any move that takes no lock and starts no `kfork` or `kexit`, to a position whose `sleep`s are
well formed. -/
theorem of_holds {κ k : Code} (h : ∀ l ∈ k.holds, l ∈ κ.holds) (hw : k.wf)
    (hκ : κ.forking = none) (hf : k.forking = none) (hx : k.exiting = false) : Code.Step κ k :=
  ⟨h, fun _ => hw, hκ, hf, fun h => absurd h (by simp [hx])⟩

end Code.Step

/-- A table that differs from `tab` in priorities only. -/
def PriorityOnly (tab tab' : Nat → Proc) : Prop :=
  ∀ i, tab' i = tab i ∨ ∃ pr, tab' i = { tab i with priority := pr }

theorem setpriority_priorityOnly {tab tab' : Nat → Proc} {n : Nat} {pid pr : Int}
    (h : setpriority tab n pid pr = some tab') : PriorityOnly tab tab' := by
  obtain ⟨i, -, rfl⟩ := Option.map_eq_some'.1 h
  intro j
  by_cases hj : j = i
  · subst hj; exact .inr ⟨pr, by simp⟩
  · exact .inl (Function.update_noteq hj _ _)

namespace Sys

variable {s s' : Sys} {c p : Nat} {call : Call} {ok : Bool}

theorem enter_cases {id : Int} {n : Nat} {lk : Nat → Lock} {k : Nat → Code}
    (hk : ∀ i, (k i).holds = [lk i] ∧ (k i).wf ∧ (k i).forking = none ∧ (k i).exiting = false) :
    ∃ κ, Code.Step .user κ ∧ (s.enter p id n lk k).core = (s.setCode p κ).core := by
  unfold enter
  split
  · exact ⟨_, Code.Step.user rfl, rfl⟩
  · exact ⟨_, Code.Step.enter (hk _).1 (hk _).2.1 (hk _).2.2.1 (hk _).2.2.2, rfl⟩

/-- The kinds of step a running thread `p` on CPU `c` takes, each with what it does to the core. -/
inductive Effect (s : Sys) (c p : Nat) (ok : Bool) : Sys → Prop where
  /-- The thread moves; nothing else in the core changes. -/
  | move {s' : Sys} {k : Code} : Code.Step (s.code p) k → s'.core = (s.setCode p k).core →
      Effect s c p ok s'
  /-- The thread moves after waking a channel whose lock it holds. -/
  | wake {s' : Sys} {k : Code} {chan : Chan} : Code.Step (s.code p) k →
      (∀ l, chan.lock = some l → l ∈ (s.code p).holds) →
      s'.core = ((s.wake (some p) chan).setCode p k).core → Effect s c p ok s'
  /-- `acquire` finds the lock free. -/
  | acquire {lk : Lock} {k : Code} : s.code p = .acquire lk k → s.holder lk = none →
      Effect s c p ok (s.setCode p k)
  /-- `acquire` spins, or a thread that has switched away waits to be scheduled. -/
  | idle : Effect s c p ok s
  | fork {s' : Sys} : s.code p = .user → s'.core = (s.forkAlloc p ok).core → Effect s c p ok s'
  | kill {s' : Sys} {pid : Int} : s.code p = .user →
      s'.core = ({ s with proc := (kkill s.proc s.NPROC pid).1 }.setCode p .user).core →
      Effect s c p ok s'
  | priority {s' : Sys} {tab : Nat → Proc} : s.code p = .user → PriorityOnly s.proc tab →
      s'.core = ({ s with proc := tab }.setCode p .user).core → Effect s c p ok s'
  | select {s' : Sys} {sel : Selector} : s.code p = .user →
      s'.core = ({ s with select_next_proc := sel }.setCode p .user).core → Effect s c p ok s'
  | yield {s' : Sys} : s.code p = .user → s.yield c p = .ok s' → Effect s c p ok s'
  | sleep {s' : Sys} {chan : Chan} {lk : Lock} {k : Code} : s.code p = .sleepOn chan lk k →
      s.sleep c p chan lk k = .ok s' → Effect s c p ok s'
  | link {np : Nat} : s.code p = .forkLink np →
      Effect s c p ok ((s.setProc np { s.proc np with parent := some p }).setCode p (.forkStart np))
  | start {s' : Sys} {np : Nat} : s.code p = .forkStart np → s.forkStart c p np = .ok s' →
      Effect s c p ok s'
  /-- A process other than `initproc` calls `kexit`. -/
  | exitCall {s' : Sys} {st : Int} : s.code p = .user → p ≠ s.initproc →
      s'.core = (s.setCode p (.acquire .wait_lock (.exitBody st))).core → Effect s c p ok s'
  | exit {s' : Sys} {st : Int} : s.code p = .exitBody st → s.exitBody c p st = .ok s' →
      Effect s c p ok s'
  /-- `kwait` reaps the first `ZOMBIE` child. -/
  | reap {s' : Sys} {addr z : Nat} : s.code p = .kwaitScan addr →
      (children s.proc s.NPROC p).find? (fun i => (s.proc i).state = .ZOMBIE) = some z →
      s'.core = ((s.setProc z (freeproc (s.proc z))).setCode p .user).core → Effect s c p ok s'

theorem Effect.of_step {κ k : Code} (hk : s.code p = κ) (h : s'.core = (s.setCode p k).core)
    (hs : Code.Step κ k) : Effect s c p ok s' :=
  .move (hk ▸ hs) h

theorem Effect.of_wake {κ k : Code} {chan : Chan} (hk : s.code p = κ)
    (h : s'.core = ((s.wake (some p) chan).setCode p k).core) (hs : Code.Step κ k)
    (hl : ∀ l, chan.lock = some l → l ∈ κ.holds) : Effect s c p ok s' :=
  .wake (hk ▸ hs) (hk ▸ hl) h

/-- What the step of a process in user space does. -/
theorem syscall_effect (hk : s.code p = .user) (he : s.syscall c p ok call = .ok s') :
    Effect s c p ok s' := by
  have user : ∀ {k}, Code.Step .user k → s'.core = (s.setCode p k).core → Effect s c p ok s' :=
    fun hs h => .move (hk ▸ hs) h
  have entry : ∀ {id n lk} {k : Nat → Code}, (∀ i, (k i).holds = [lk i] ∧ (k i).wf ∧
      (k i).forking = none ∧ (k i).exiting = false) → s' = s.enter p id n lk k →
      Effect s c p ok s' := by
    rintro id n lk k hk rfl
    obtain ⟨κ, hs, h⟩ : ∃ κ, Code.Step .user κ ∧ (s.enter p id n lk k).core = (s.setCode p κ).core :=
      enter_cases hk
    exact user hs h
  cases call with
  | fork => cases he; exact .fork hk rfl
  | exit status =>
    simp only [syscall] at he
    split at he
    · cases he
    · cases he; exact .exitCall hk ‹_› rfl
  | wait addr => cases he; refine user ?_ rfl; exact Code.Step.enter rfl trivial rfl rfl
  | kill pid => cases he; exact .kill hk rfl
  | yield => exact .yield hk he
  | pause n => cases he; refine user ?_ rfl; exact Code.Step.enter rfl trivial rfl rfl
  | set_scheduler t =>
    simp only [syscall] at he
    split at he <;> cases he
    · exact user (Code.Step.user rfl) rfl
    · exact .select hk rfl
  | setpriority pid pr =>
    simp only [syscall] at he
    split at he
    · cases he; exact user (Code.Step.user rfl) rfl
    · split at he
      · cases he
        refine .priority hk (fun i => ?_) rfl
        by_cases hi : i = p
        · subst hi; exact .inr ⟨pr, by simp [setProc, setCode]⟩
        · exact .inl (Function.update_noteq hi _ _)
      · split at he <;> cases he
        · exact .priority hk (setpriority_priorityOnly ‹_›) rfl
        · exact user (Code.Step.user rfl) rfl
  | getpriority pid => cases he; exact user (Code.Step.user rfl) rfl
  | sem_init id v | sem_wait id | sem_post id | mutex_init id | mutex_lock id | mutex_unlock id
  | cond_init id | cond_wait id _ | cond_signal id | cond_broadcast id | rwlock_init id
  | rwlock_read_lock id | rwlock_read_unlock id | rwlock_write_lock id | rwlock_write_unlock id =>
    cases he
    refine entry ?_ rfl
    exact fun _ => ⟨rfl, trivial, rfl, rfl⟩

theorem kwaitScan_effect {addr : Nat} (hk : s.code p = .kwaitScan addr) :
    Effect s c p ok (s.kwaitScan p addr ok) := by
  rcases hz : (children s.proc s.NPROC p).find? (fun i => (s.proc i).state = .ZOMBIE) with _ | z
  · simp only [kwaitScan, hz]
    split
    · exact .of_step hk rfl (Code.Step.user rfl)
    · exact .of_step hk rfl (Code.Step.sleepOn rfl (by simp [Code.holds]) rfl)
  · simp only [kwaitScan, hz]
    split
    · exact .of_step hk rfl (Code.Step.user rfl)
    · exact .reap hk hz rfl

/-- What the step of a running process does, from every position: `exec` said once. -/
theorem exec_effect (he : s.exec c p call ok = .ok s') : Effect s c p ok s' := by
  cases hk : s.code p with
  | user => simp only [exec, hk] at he; exact syscall_effect hk he
  | acquire lk k =>
    simp only [exec, hk, acquire] at he
    split at he
    · cases he
    · split at he <;> cases he
      · exact .acquire hk ‹_›
      · exact .idle
  | sleepOn chan lk k => simp only [exec, hk] at he; exact .sleep hk he
  | slept | yielded | zombie => simp only [exec, hk] at he; cases he; exact .idle
  | forkLink np => simp only [exec, hk] at he; cases he; exact .link hk
  | forkStart np => simp only [exec, hk] at he; exact .start hk he
  | exitBody st => simp only [exec, hk] at he; exact .exit hk he
  | kwaitScan addr => simp only [exec, hk] at he; cases he; exact kwaitScan_effect hk
  | pauseStart n =>
    simp only [exec, hk] at he
    cases he
    exact .of_step hk rfl (Code.Step.of_holds (by simp [Code.holds]) trivial rfl rfl rfl)
  | pauseLoop t0 n =>
    simp only [exec, hk] at he
    split at he
    · split at he <;> cases he
      · exact .of_step hk rfl (Code.Step.user rfl)
      · exact .of_step hk rfl (Code.Step.sleepOn rfl (by simp [Code.holds]) rfl)
    · cases he; exact .of_step hk rfl (Code.Step.user rfl)
  | semInit i v | mutexInit i | condInit i | condWaitTail i | rwInit i =>
    simp only [exec, hk] at he
    cases he; exact .of_step hk rfl (Code.Step.user rfl)
  | semWaitLoop i | rwReadLoop i | rwWriteLoop i =>
    simp only [exec, hk] at he
    split at he <;> cases he
    · exact .of_step hk rfl (Code.Step.sleepOn rfl (by simp [Code.holds]) rfl)
    · exact .of_step hk rfl (Code.Step.user rfl)
  | semPost i =>
    simp only [exec, hk] at he
    cases he
    exact .of_wake hk rfl (Code.Step.user rfl) (by simp [Chan.lock, Code.holds])
  | mutexLoop i r =>
    simp only [exec, hk] at he
    split at he
    · cases he; exact .of_step hk rfl (Code.Step.sleepOn rfl (by simp [Code.holds]) rfl)
    · cases r <;> cases he
      · exact .of_step hk rfl (Code.Step.user rfl)
      · exact .of_step hk rfl
          (Code.Step.of_holds (by simp [Code.holds, Ret.holds]) trivial rfl rfl rfl)
  | mutexUnlock i r =>
    simp only [exec, hk] at he
    have unlock : ∀ {k}, s'.core = ((if (s.mutex i).owner = some p then
          { s with mutex := Function.update s.mutex i ⟨0, none⟩ }.wake (some p) (.mutex i)
          else s).setCode p k).core → Code.Step (.mutexUnlock i r) k → Effect s c p ok s' :=
        fun h hs => by
      split at h
      · exact .of_wake hk h hs (by simp [Chan.lock, Code.holds])
      · exact .of_step hk h hs
    cases r <;> cases he
    · exact unlock rfl (Code.Step.user rfl)
    · exact unlock rfl (Code.Step.of_holds (by simp [Code.holds, Ret.holds])
        ⟨rfl, by simp [Code.holds], rfl, trivial⟩ rfl rfl rfl)
  | condWaitBody i m =>
    simp only [exec, hk] at he
    split at he <;> cases he
    · exact .of_step hk rfl (Code.Step.of_holds (by simp [Code.holds])
        ⟨rfl, by simp [Code.holds], rfl, trivial⟩ rfl rfl rfl)
    · exact .of_step hk rfl
        (Code.Step.of_holds (by simp [Code.holds, Ret.holds]) trivial rfl rfl rfl)
  | condWaitRelock i m =>
    simp only [exec, hk] at he
    split at he <;> cases he
    · exact .of_step hk rfl
        (Code.Step.of_holds (by simp [Code.holds]) trivial rfl rfl rfl)
    · exact .of_step hk rfl
        (Code.Step.of_holds (by simp [Code.holds, Ret.holds]) trivial rfl rfl rfl)
  | condSignal i =>
    simp only [exec, hk] at he
    cases he
    split
    · exact .of_wake hk rfl (Code.Step.user rfl) (by simp [Chan.lock, Code.holds])
    · exact .of_step hk rfl (Code.Step.user rfl)
  | rwReadUnlock i =>
    simp only [exec, hk] at he
    cases he
    split
    · exact .of_wake hk rfl (Code.Step.user rfl) (by simp [Chan.lock, Code.holds])
    · exact .of_step hk rfl (Code.Step.user rfl)
  | rwWriteUnlock i =>
    simp only [exec, hk] at he
    split at he <;> cases he
    · exact .of_step hk rfl (Code.Step.user rfl)
    · exact .of_wake hk rfl (Code.Step.user rfl) (by simp [Chan.lock, Code.holds])

end Sys

end Xv6.Process
