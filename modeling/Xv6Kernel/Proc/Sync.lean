import Xv6Kernel.Proc.Machine

/-!
# Semaphores, mutexes and reader-writer locks

What the primitives of `sync_primitives.c` keep over whole runs.

* `step_sem`: a step changes semaphore `i` only as `sem_init(i, v)`, as `sem_wait(i)` past its
  loop test (`value--`, with `value > 0`) or as `sem_post(i)` (`value++` on an `int`). So along
  every run that does not initialise it again, the value is its start plus the completed posts
  minus the completed waits, and never negative (`sem_counting`), as long as the posts do not
  carry it past `INT_MAX`: `sem_post` does not check, and the `int` wraps (`sem_post_wraps`).
* `stray_read_unlock`: `rwlock_read_unlock` decrements `readers` without asking whether the
  caller holds a read lock, and returns 0. A stray call takes `readers` below 0, or lets a
  writer in while a reader still holds the lock.
* `mutex_owner_slot_reused`: a mutex's owner is a slot. When the owner exits holding it and
  `kfork` hands the slot to a new process, that process passes the owner check of
  `mutex_unlock` and the wait condition of `mutex_lock`.
-/

namespace Xv6.Process

open Xv6.Mem (toInt)

/-- The thread a step runs: the process on CPU `c` for `.cpu c`, none for a scheduler round or
the clock. -/
def Sys.actor (s : Sys) : Ev → Option Nat
  | .cpu c _ _ => if c < s.NCPU then (s.cpus c).proc else none
  | .tick => none

/-! ## Semaphores -/

/-- What a step does to one semaphore. -/
inductive SemStep where
  | init (v : Int)
  | wait
  | post
  | skip
  deriving DecidableEq, Repr

/-- The value after a step of each kind. -/
def SemStep.apply (x : Int) : SemStep → Int
  | .init v => v
  | .wait => x - 1
  | .post => toInt (x + 1)
  | .skip => x

def SemStep.isInit : SemStep → Bool
  | .init _ => true
  | _ => false

def SemStep.isWait (k : SemStep) : Bool := k = .wait

def SemStep.isPost (k : SemStep) : Bool := k = .post

namespace Sys

/-- What the step of thread `p` does to semaphore `i`: `sem_init` sets it, `sem_wait` past its
loop test takes one, `sem_post` adds one. -/
def semStep (s : Sys) (p i : Nat) : SemStep :=
  match s.code p with
  | .semInit j v => if j = i then .init v else .skip
  | .semWaitLoop j => if j = i ∧ 0 < s.sem i then .wait else .skip
  | .semPost j => if j = i then .post else .skip
  | _ => .skip

/-- What the step `e` does to semaphore `i`. -/
def semEv (s : Sys) (e : Ev) (i : Nat) : SemStep :=
  match s.actor e with
  | some p => s.semStep p i
  | none => .skip

/-- The steps of the run `es` from `s`, up to a failing one, whose effect on semaphore `i` the
test `f` accepts. -/
def semCount (i : Nat) (f : SemStep → Bool) (s : Sys) : List Ev → Nat
  | [] => 0
  | e :: es =>
    match s.step e with
    | .ok s' => (if f (s.semEv e i) then 1 else 0) + semCount i f s' es
    | .error _ => 0

variable {s s' : Sys} {c p : Nat} {call : Call} {ok : Bool}

@[simp] theorem setProc_sem (x : Proc) : (s.setProc p x).sem = s.sem := rfl
@[simp] theorem setCode_sem (k : Code) : (s.setCode p k).sem = s.sem := rfl
@[simp] theorem setCpu_sem (x : Cpu) : (s.setCpu c x).sem = s.sem := rfl
@[simp] theorem ret_sem (v : Int) : (s.ret p v).sem = s.sem := rfl
@[simp] theorem wake_sem (self : Option Nat) (chan : Chan) : (s.wake self chan).sem = s.sem := rfl

theorem sched_sem {k : Code} (h : s.sched c p k = .ok s') : s'.sem = s.sem := by
  unfold sched at h
  split_ifs at h
  cases h
  rfl

theorem forkStart_sem {np : Nat} (h : s.forkStart c p np = .ok s') : s'.sem = s.sem := by
  simp only [forkStart] at h
  split_ifs at h <;> cases h <;> rfl

theorem kwaitScan_sem {addr : Nat} : (s.kwaitScan p addr ok).sem = s.sem := by
  unfold kwaitScan
  dsimp only
  split <;> split_ifs <;> rfl

theorem enter_sem {id : Int} {n : Nat} {lk : Nat → Lock} {k : Nat → Code} :
    (s.enter p id n lk k).sem = s.sem := by
  unfold enter; split <;> rfl

theorem forkAlloc_sem : (s.forkAlloc p ok).sem = s.sem := by
  unfold forkAlloc; split <;> rfl

theorem syscall_sem (h : s.syscall c p ok call = .ok s') : s'.sem = s.sem := by
  cases call with
  | yield => simp only [syscall, yield] at h; exact (sched_sem h).trans rfl
  | fork => cases h; exact forkAlloc_sem
  | exit | set_scheduler => simp only [syscall] at h; split_ifs at h <;> cases h <;> rfl
  | setpriority =>
    simp only [syscall] at h
    split_ifs at h
    · cases h; rfl
    · cases h; rfl
    · split at h <;> cases h <;> rfl
  | wait | kill | pause | getpriority => cases h; rfl
  | _ => cases h; exact enter_sem

theorem exec_sem (he : s.exec c p call ok = .ok s') (i : Nat) :
    s'.sem i = (s.semStep p i).apply (s.sem i) := by
  unfold exec at he
  unfold semStep
  cases hk : s.code p <;> simp only [hk] at he ⊢ <;> simp only [SemStep.apply]
  case semInit j v =>
    cases he
    by_cases hj : j = i
    · subst hj; simp
    · simp [hj, Function.update_noteq (Ne.symm hj)]
  case semWaitLoop j =>
    by_cases hj : j = i
    · subst hj
      split_ifs at he with h0 <;> cases he
      · simp [show ¬ 0 < s.sem j by omega]
      · simp [show 0 < s.sem j by omega]
    · split_ifs at he <;> cases he <;> simp [hj, Function.update_noteq (Ne.symm hj)]
  case semPost j =>
    cases he
    by_cases hj : j = i
    · subst hj; simp
    · simp [hj, Function.update_noteq (Ne.symm hj)]
  case user => rw [syscall_sem he]
  case acquire => unfold acquire at he; split_ifs at he <;> cases he <;> rfl
  case sleepOn | exitBody => rw [sched_sem he]; rfl
  case forkStart => rw [forkStart_sem he]
  case kwaitScan => cases he; rw [kwaitScan_sem]
  all_goals (repeat' split at he) <;> cases he <;> rfl

theorem schedule_sem : (s.schedule c).sem = s.sem := by
  unfold schedule resume
  split
  · rfl
  split
  · split <;> rfl
  · rfl

/-- A step changes semaphore `i` only as its kind says. -/
theorem step_sem {e : Ev} (he : s.step e = .ok s') (i : Nat) :
    s'.sem i = (s.semEv e i).apply (s.sem i) := by
  unfold semEv actor
  cases e with
  | cpu c call ok =>
    simp only [step] at he ⊢
    by_cases hc : c < s.NCPU
    · rw [if_pos hc] at he ⊢
      cases hq : (s.cpus c).proc with
      | some q => rw [hq] at he; exact exec_sem he i
      | none =>
        rw [hq] at he
        cases he
        simp [schedule_sem, SemStep.apply]
    · rw [if_neg hc] at he ⊢
      cases he
      rfl
  | tick =>
    simp only [step] at he
    split at he <;> cases he <;> rfl

theorem semEv_wait {e : Ev} {i : Nat} (h : s.semEv e i = .wait) : 0 < s.sem i := by
  unfold semEv semStep at h
  split at h
  · split at h <;> (try split_ifs at h) <;> simp_all
  · cases h

/-- One step of a run that does not initialise semaphore `i` again, from a value that is not
negative and that a post does not carry past `INT_MAX`. -/
theorem step_sem_count {e : Ev} (he : s.step e = .ok s') {i : Nat}
    (hinit : (s.semEv e i).isInit = false) (hv : 0 ≤ s.sem i)
    (hb : s.sem i + (if (s.semEv e i).isPost then 1 else 0) < 2 ^ 31) :
    s'.sem i = s.sem i + (if (s.semEv e i).isPost then 1 else 0) -
      (if (s.semEv e i).isWait then 1 else 0) ∧ 0 ≤ s'.sem i := by
  rw [step_sem he]
  cases hk : s.semEv e i with
  | init v => simp [hk, SemStep.isInit] at hinit
  | wait =>
    have := semEv_wait hk
    simp only [SemStep.apply, SemStep.isPost, SemStep.isWait]
    simp
    omega
  | post =>
    simp only [hk, SemStep.isPost] at hb
    simp only [SemStep.apply, SemStep.isPost, SemStep.isWait]
    simp at hb ⊢
    rw [Xv6.Mem.toInt_of_lt (by omega) hb]
    omega
  | skip =>
    simp [SemStep.apply, SemStep.isPost, SemStep.isWait, hv]

end Sys

/-- Semaphore counting: along every run that does not initialise semaphore `i` again, from a
value `v ≥ 0`, the value is `v` plus the completed `sem_post`s minus the completed `sem_wait`s, and
never negative, while `v` plus the posts stays below `2 ^ 31`. -/
theorem sem_counting {i : Nat} : ∀ {s s' : Sys} {es : List Ev}, s.run es = .ok s' →
    s.semCount i SemStep.isInit es = 0 → 0 ≤ s.sem i →
    s.sem i + s.semCount i SemStep.isPost es < 2 ^ 31 →
    s'.sem i = s.sem i + s.semCount i SemStep.isPost es - s.semCount i SemStep.isWait es ∧
      0 ≤ s'.sem i
  | s, s', [], hr, _, hv, _ => by cases hr; simp [Sys.semCount, hv]
  | s, s', e :: es, hr, hinit, hv, hb => by
    simp only [Sys.run] at hr
    cases h₁ : s.step e with
    | error => rw [h₁] at hr; cases hr
    | ok s₁ =>
      rw [h₁] at hr
      simp only [Sys.semCount, h₁] at hinit hb ⊢
      have hi : (s.semEv e i).isInit = false := by
        by_contra hc
        simp [hc] at hinit
      have hi' : s₁.semCount i SemStep.isInit es = 0 := by simpa [hi] using hinit
      push_cast at hb ⊢
      obtain ⟨e₁, h₁v⟩ := Sys.step_sem_count h₁ hi hv (by split_ifs at hb ⊢ <;> omega)
      obtain ⟨e₂, h₂v⟩ := sem_counting hr hi' h₁v (by rw [e₁]; split_ifs at hb ⊢ <;> omega)
      refine ⟨?_, h₂v⟩
      rw [e₂, e₁]
      split_ifs <;> omega


/-- One `sem_post(0)` and one `sem_wait(0)` on the semaphore `Sys.zero` leaves at 0. -/
theorem sem_counting_post_wait : ∃ s', (Sys.boot 1 1).run
      [.cpu 0 .yield true, .cpu 0 .yield true, .cpu 0 (.sem_post 0) true, .cpu 0 .yield true,
        .cpu 0 .yield true, .cpu 0 (.sem_wait 0) true, .cpu 0 .yield true, .cpu 0 .yield true] =
      .ok s' ∧
    s'.sem 0 = (Sys.boot 1 1).sem 0 + (Sys.boot 1 1).semCount 0 SemStep.isPost
        [.cpu 0 .yield true, .cpu 0 .yield true, .cpu 0 (.sem_post 0) true, .cpu 0 .yield true,
          .cpu 0 .yield true, .cpu 0 (.sem_wait 0) true, .cpu 0 .yield true, .cpu 0 .yield true] -
      (Sys.boot 1 1).semCount 0 SemStep.isWait
        [.cpu 0 .yield true, .cpu 0 .yield true, .cpu 0 (.sem_post 0) true, .cpu 0 .yield true,
          .cpu 0 .yield true, .cpu 0 (.sem_wait 0) true, .cpu 0 .yield true, .cpu 0 .yield true] ∧
    0 ≤ s'.sem 0 :=
  ⟨_, rfl, sem_counting rfl rfl le_rfl (by decide)⟩

/-- `sem_init(0, INT_MAX)` and one `sem_post(0)`: the value wraps to `INT_MIN`. -/
theorem sem_post_wraps : ∃ s, (Sys.boot 1 1).run
    [.cpu 0 .yield true, .cpu 0 .yield true, .cpu 0 (.sem_init 0 (2 ^ 31 - 1)) true,
      .cpu 0 .yield true, .cpu 0 .yield true, .cpu 0 (.sem_post 0) true, .cpu 0 .yield true,
      .cpu 0 .yield true] = .ok s ∧ s.sem 0 = -2 ^ 31 ∧ s.a0 0 = 0 :=
  ⟨_, rfl, rfl, rfl⟩

/-! ## Reader-writer locks -/

/-- A stray `rwlock_read_unlock`. On one CPU, `initproc` unlocks rwlock 0 that nobody holds: the
call returns 0 and `readers` is -1. On two CPUs, `initproc` forks slot 1, which takes a read lock
of rwlock 0; `initproc` then calls `rwlock_read_unlock(0)`, which returns 0 and sets `readers` to
0, and `rwlock_write_lock(0)`, which returns 0 with `writer` 1 while slot 1 still holds its read
lock. -/
theorem stray_read_unlock :
    (∃ s, (Sys.boot 1 1).run
      [.cpu 0 .yield true, .cpu 0 .yield true, .cpu 0 (.rwlock_read_unlock 0) true,
        .cpu 0 .yield true, .cpu 0 .yield true] = .ok s ∧
      (s.rw 0).readers = -1 ∧ s.a0 0 = 0) ∧
    ∃ s, (Sys.boot 2 2).run
      [.cpu 0 .yield true, .cpu 0 .yield true, .cpu 0 .fork true, .cpu 0 .yield true,
        .cpu 0 .yield true, .cpu 0 .yield true, .cpu 1 .yield true, .cpu 1 .yield true,
        .cpu 1 (.rwlock_read_lock 0) true, .cpu 1 .yield true, .cpu 1 .yield true] = .ok s ∧
      s.code 1 = .user ∧ s.a0 1 = 0 ∧ (s.rw 0).readers = 1 ∧
      ∃ s', s.run [.cpu 0 (.rwlock_read_unlock 0) true, .cpu 0 .yield true, .cpu 0 .yield true] =
          .ok s' ∧ s'.a0 0 = 0 ∧ (s'.rw 0).readers = 0 ∧
        ∃ s'', s'.run [.cpu 0 (.rwlock_write_lock 0) true, .cpu 0 .yield true, .cpu 0 .yield true] =
          .ok s'' ∧ s''.a0 0 = 0 ∧ s''.code 0 = .user ∧ (s''.rw 0).writer = 1 ∧
          s''.code 1 = .user :=
  ⟨⟨_, rfl, rfl, rfl⟩, _, rfl, rfl, rfl, rfl, _, rfl, rfl, rfl, _, rfl, rfl, rfl, rfl, rfl⟩

/-! ## Mutexes -/

/-- A mutex held by a process that exits. On two CPUs, `initproc` forks slot 1 (pid 2), which
takes mutex 0 and exits holding it; `initproc` reaps it with `kwait` and forks again, and `kfork`
hands slot 1 to pid 3. Pid 3 never called `mutex_lock`, yet `mutex_unlock(0)` returns 0 and frees
the mutex, and `mutex_lock(0)` returns 0 at once while the mutex is locked. -/
theorem mutex_owner_slot_reused : ∃ s, (Sys.boot 2 2).run
    [.cpu 0 .yield true, .cpu 0 .yield true, .cpu 0 .fork true, .cpu 0 .yield true,
      .cpu 0 .yield true, .cpu 0 .yield true, .cpu 1 .yield true, .cpu 1 .yield true,
      .cpu 1 (.mutex_lock 0) true, .cpu 1 .yield true, .cpu 1 .yield true,
      .cpu 1 (.exit 0) true, .cpu 1 .yield true, .cpu 1 .yield true,
      .cpu 0 (.wait 0) true, .cpu 0 .yield true, .cpu 0 .yield true,
      .cpu 0 .fork true, .cpu 0 .yield true, .cpu 0 .yield true, .cpu 0 .yield true,
      .cpu 1 .yield true, .cpu 1 .yield true] = .ok s ∧
    s.a0 0 = 3 ∧ (s.proc 1).pid = 3 ∧ (s.proc 1).state = .RUNNING ∧ s.code 1 = .user ∧
    s.mutex 0 = ⟨1, some 1⟩ ∧
    (∃ s', s.run [.cpu 1 (.mutex_unlock 0) true, .cpu 1 .yield true, .cpu 1 .yield true] =
      .ok s' ∧ s'.a0 1 = 0 ∧ s'.mutex 0 = ⟨0, none⟩) ∧
    ∃ s', s.run [.cpu 1 (.mutex_lock 0) true, .cpu 1 .yield true, .cpu 1 .yield true] =
      .ok s' ∧ s'.a0 1 = 0 ∧ s'.code 1 = .user :=
  ⟨_, rfl, rfl, rfl, rfl, rfl, rfl, ⟨_, rfl, rfl, rfl⟩, _, rfl, rfl, rfl⟩

end Xv6.Process
