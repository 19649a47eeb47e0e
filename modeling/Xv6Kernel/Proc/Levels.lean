import Xv6Kernel.Proc.Pid

/-!
# Priorities and MLFQ levels

The scheduling fields of a slot, its priority and its MLFQ level, time used and quantum, are
written in three places among the sources (the clock interrupt of `trap.c`, which charges time
and demotes a process at its quantum, is not among them, so nothing here is said of the levels): `allocproc` gives priority 5, level 0, no time used and a quantum of
one tick; `sys_setpriority` writes a priority it has checked to lie in `0 .. 9`; and the tail of
`sleep`, under MLFQ, moves a process above level 0 one level up. `freeproc` leaves them, `kfork`
only reads the child's, and the static `proc[]` starts at 0. So a property of these fields that
holds of those values and survives those writes holds in every state the machine reaches
(`Sys.Reach.levelsIn`).

* `priority_range`: every priority lies in `0 .. 9`, the range `priority_scheduler` needs to tell
  a slot from its start value -1, so `sys_getpriority` returns a value of at least 0 exactly when
  it finds the process.

`sys_getpriority(pid)` (a `Call` of the machine) reads the priority of the caller when `pid` is 0,
and otherwise that of the first slot whose pid matches, in any state, or returns `-ESRCH`. It reads
the slot that `sys_setpriority(pid, …)` writes, so after a `sys_setpriority` that returned 0 the
caller's next step, a `getpriority(pid)`, returns the priority set (`setpriority_getpriority`).
-/

namespace Xv6.Process

/-! ## The scheduling fields -/

/-- The scheduling fields of a slot: priority, MLFQ level, time used and quantum. -/
def Proc.levels (x : Proc) : Int × Int × Int × Int :=
  (x.priority, x.mlfq_level, x.time_used, x.time_quantum)

/-- Every slot's scheduling fields satisfy `Q`. -/
def LevelsIn (Q : Int × Int × Int × Int → Prop) (tab : Nat → Proc) : Prop := ∀ i, Q (tab i).levels

namespace LevelsIn

variable {Q : Int × Int × Int × Int → Prop} {tab tab' : Nat → Proc}

theorem of_eq (h : LevelsIn Q tab) (he : ∀ i, (tab' i).levels = (tab i).levels) :
    LevelsIn Q tab' :=
  fun i => he i ▸ h i

/-- One slot set to a process whose fields satisfy `Q`. -/
theorem update (h : LevelsIn Q tab) {j : Nat} {x : Proc} (hx : Q x.levels) :
    LevelsIn Q (Function.update tab j x) := by
  intro i
  rcases eq_or_ne i j with rfl | hi
  · simpa using hx
  · simpa [hi] using h i

/-- One slot set to a process with the slot's own fields. -/
theorem update_same (h : LevelsIn Q tab) {j : Nat} {x : Proc} (hx : x.levels = (tab j).levels) :
    LevelsIn Q (Function.update tab j x) :=
  h.update (hx ▸ h j)

end LevelsIn

/-! ## The table functions -/

theorem wakeup_levels (tab : Nat → Proc) (n : Nat) (self : Option Nat) (chan : Chan) (i : Nat) :
    (wakeup tab n self chan i).levels = (tab i).levels := by
  unfold wakeup
  split_ifs <;> rfl

theorem kkill_levels (tab : Nat → Proc) (n : Nat) (pid : Int) (i : Nat) :
    ((kkill tab n pid).1 i).levels = (tab i).levels := by
  unfold kkill
  split
  · exact apply_update_of_eq Proc.levels tab _ _ (by rfl) i
  · rfl

theorem reparent_levels (tab : Nat → Proc) (n p initproc i : Nat) :
    (reparent tab n p initproc i).levels = (tab i).levels := by
  have h : ∀ j, ((fun j => if j < n ∧ (tab j).parent = some p then
      { tab j with parent := some initproc } else tab j) j).levels = (tab j).levels :=
    fun j => by dsimp only; split_ifs <;> rfl
  unfold reparent
  split
  · exact h i
  · exact (wakeup_levels _ _ _ _ i).trans (h i)

theorem allocproc_levelsIn {Q : Int × Int × Int × Int → Prop} {tab : Nat → Proc}
    (h : LevelsIn Q tab) (ha : Q (5, 0, 0, 1)) (n : Nat) (next : Int) (ok : Bool) :
    LevelsIn Q (allocproc tab n next ok).2.1 := by
  unfold allocproc
  split
  · exact h
  · split <;> exact h.update ha

/-! ## What a step does to the scheduling fields -/

namespace Sys

variable {s s' : Sys} {c p : Nat} {ok : Bool} {Q : Int × Int × Int × Int → Prop}

theorem yield_levels (h : s.yield c p = .ok s') (i : Nat) :
    (s'.proc i).levels = (s.proc i).levels := by
  simp only [yield, sched, Code.holds, List.length_nil, Nat.zero_add, ne_eq, not_true_eq_false,
    if_false, Except.ok.injEq] at h
  subst h
  refine apply_update_of_eq Proc.levels s.proc p _ ?_ i
  rfl

theorem sleep_levels {chan : Chan} {lk : Lock} {k : Code} (h : s.sleep c p chan lk k = .ok s')
    (i : Nat) : (s'.proc i).levels = (s.proc i).levels := by
  simp only [sleep, sched] at h
  split at h
  · cases h
  · cases h
    refine apply_update_of_eq Proc.levels s.proc p _ ?_ i
    rfl

theorem exitBody_levels {st : Int} (h : s.exitBody c p st = .ok s') (i : Nat) :
    (s'.proc i).levels = (s.proc i).levels := by
  simp only [exitBody, sched, Code.holds, List.length_nil, Nat.zero_add, ne_eq, not_true_eq_false,
    if_false, Except.ok.injEq] at h
  subst h
  refine (apply_update_of_eq Proc.levels _ p _ ?_ i).trans ?_
  · rfl
  exact (wakeup_levels _ _ _ _ i).trans (reparent_levels _ _ _ _ i)

theorem forkStart_levels {np : Nat} (h : s.forkStart c p np = .ok s') (i : Nat) :
    (s'.proc i).levels = (s.proc i).levels := by
  have hnp := apply_update_of_eq Proc.levels s.proc np { s.proc np with state := .RUNNABLE } rfl i
  simp only [forkStart] at h
  split_ifs at h
  · exact (yield_levels h i).trans hnp
  · cases h; exact hnp
  · exact (yield_levels h i).trans hnp
  · cases h; exact hnp

/-- A round of the scheduler keeps `Q` when the MLFQ branch of `sleep`'s tail, one level up from
above level 0, keeps it. -/
theorem schedule_levelsIn (h : LevelsIn Q s.proc)
    (hres : ∀ l, Q l → 0 < l.2.1 → Q (l.1, l.2.1 - 1, 0, 2 ^ (l.2.1 - 1).toNat)) :
    LevelsIn Q (s.schedule c).proc := by
  unfold schedule
  split
  · exact h
  rename_i p _
  split
  · have hrun : LevelsIn Q (Function.update s.proc p { s.proc p with state := .RUNNING }) :=
      h.update_same rfl
    unfold resume
    split
    · simp only [setProc, setCode, setCpu, Function.update_same]
      refine hrun.update ?_
      dsimp only
      split_ifs with hm
      · simpa [Proc.levels] using hres _ (h p) hm.2
      · exact h p
    all_goals exact hrun
  · exact h

theorem forkAlloc_levelsIn (h : LevelsIn Q s.proc) (ha : Q (5, 0, 0, 1)) :
    LevelsIn Q (s.forkAlloc p ok).proc := by
  have hal := allocproc_levelsIn h ha s.NPROC s.nextpid ok
  unfold forkAlloc
  split <;> rename_i he <;> rw [he] at hal <;> exact hal

/-- A system call keeps `Q` when `allocproc`'s values satisfy it and a priority that
`sys_setpriority` accepts keeps it. -/
theorem syscall_levelsIn (h : LevelsIn Q s.proc) (ha : Q (5, 0, 0, 1))
    (hset : ∀ l pr, 0 ≤ pr → pr ≤ 9 → Q l → Q (pr, l.2)) {call : Call}
    (he : s.syscall c p ok call = .ok s') : LevelsIn Q s'.proc := by
  cases call with
  | fork => cases he; exact forkAlloc_levelsIn h ha
  | yield => exact h.of_eq (yield_levels he)
  | kill => cases he; exact h.of_eq (kkill_levels _ _ _)
  | setpriority pid pr =>
    simp only [syscall] at he
    split_ifs at he with hr
    · cases he; exact h
    · cases he; exact h.update (hset _ pr (by omega) (by omega) (h p))
    · split at he <;> cases he
      · obtain ⟨i, -, rfl⟩ := Option.map_eq_some'.1 ‹_›
        exact h.update (hset _ pr (by omega) (by omega) (h i))
      · exact h
  | exit | set_scheduler => simp only [syscall] at he; split_ifs at he <;> cases he <;> exact h
  | wait | pause | getpriority => cases he; exact h
  | _ => cases he; simpa using h

/-- A step of a running process keeps `Q`. -/
theorem exec_levelsIn (h : LevelsIn Q s.proc) (ha : Q (5, 0, 0, 1))
    (hset : ∀ l pr, 0 ≤ pr → pr ≤ 9 → Q l → Q (pr, l.2)) {call : Call}
    (he : s.exec c p call ok = .ok s') : LevelsIn Q s'.proc := by
  by_cases hus : s.code p = .user
  · simp only [exec, hus] at he
    exact syscall_levelsIn h ha hset he
  cases exec_effect he with
  | fork hk | yield hk | kill hk | priority hk | select hk | exitCall hk => exact absurd hk hus
  | move _ hc => rw [proc_eq_of_core hc]; exact h
  | wake _ _ hc => rw [proc_eq_of_core hc]; exact h.of_eq (wakeup_levels _ _ _ _)
  | acquire | idle => exact h
  | sleep _ hs => exact h.of_eq (sleep_levels hs)
  | link => exact h.update_same rfl
  | start _ hs => exact h.of_eq (forkStart_levels hs)
  | exit _ hs => exact h.of_eq (exitBody_levels hs)
  | reap _ _ hc => rw [proc_eq_of_core hc]; exact h.update_same rfl

theorem step_levelsIn (h : LevelsIn Q s.proc) (ha : Q (5, 0, 0, 1))
    (hset : ∀ l pr, 0 ≤ pr → pr ≤ 9 → Q l → Q (pr, l.2))
    (hres : ∀ l, Q l → 0 < l.2.1 → Q (l.1, l.2.1 - 1, 0, 2 ^ (l.2.1 - 1).toNat)) {e : Ev}
    (he : s.step e = .ok s') : LevelsIn Q s'.proc := by
  cases e with
  | tick =>
    simp only [step] at he
    split at he <;> cases he
    · exact h.of_eq (wakeup_levels _ _ _ _)
    · exact h
  | cpu c call ok =>
    simp only [step] at he
    split_ifs at he
    · split at he
      · exact exec_levelsIn h ha hset he
      · cases he; exact schedule_levelsIn h hres
    · cases he; exact h

theorem boot_levelsIn (h0 : Q Proc.zero.levels) (ha : Q (5, 0, 0, 1)) (NPROC NCPU : Nat) :
    LevelsIn Q (Sys.boot NPROC NCPU).proc := by
  have hal := @allocproc_levelsIn Q (fun _ => Proc.zero) (fun _ => h0) ha NPROC 1 true
  unfold Sys.boot userinit
  split <;> rename_i he <;> simp only [Sys.zero] at he <;> rw [he] at hal
  · exact hal.update_same rfl
  · exact fun _ => h0

end Sys

/-- **The scheduling fields along a run.** A property of the scheduling fields that the static
`proc[]` and `allocproc`'s values satisfy, that a priority `sys_setpriority` accepts keeps, and
that the MLFQ branch of `sleep`'s tail keeps, holds of every slot in every state the machine
reaches. -/
theorem Sys.Reach.levelsIn {Q : Int × Int × Int × Int → Prop} (h0 : Q Proc.zero.levels)
    (ha : Q (5, 0, 0, 1)) (hset : ∀ l pr, 0 ≤ pr → pr ≤ 9 → Q l → Q (pr, l.2))
    (hres : ∀ l, Q l → 0 < l.2.1 → Q (l.1, l.2.1 - 1, 0, 2 ^ (l.2.1 - 1).toNat)) {s : Sys}
    (hr : s.Reach) : LevelsIn Q s.proc := by
  induction hr with
  | boot _ => exact Sys.boot_levelsIn h0 ha _ _
  | step _ he ih => exact Sys.step_levelsIn ih ha hset hres he

theorem Sys.Reach.priorityRange {s : Sys} (hr : s.Reach) :
    ∀ i, 0 ≤ (s.proc i).priority ∧ (s.proc i).priority ≤ 9 :=
  @Sys.Reach.levelsIn (fun l => 0 ≤ l.1 ∧ l.1 ≤ 9) (by decide) (by decide)
    (fun _ _ h₁ h₂ _ => ⟨h₁, h₂⟩) (fun _ h _ => h) s hr

/-! ## `sys_getpriority` -/

/-- The search for a pid sees only the pids. -/
theorem firstSlot_pid_congr {tab tab' : Nat → Proc} (h : ∀ j, (tab' j).pid = (tab j).pid)
    (n : Nat) (pid : Int) :
    firstSlot (·.pid = pid) tab' n = firstSlot (·.pid = pid) tab n := by
  simp only [firstSlot, h]

/-- Priorities stay in range: in every state the machine reaches, every slot's priority lies in
`0 .. 9`, so `sys_getpriority` returns a value of at least 0 exactly when it finds the process, and
`-ESRCH` otherwise. -/
theorem priority_range {s : Sys} (hr : s.Reach) :
    (∀ i, 0 ≤ (s.proc i).priority ∧ (s.proc i).priority ≤ 9) ∧
    ∀ p pid, 0 ≤ sys_getpriority s p pid ↔ pid = 0 ∨ ∃ i < s.NPROC, (s.proc i).pid = pid := by
  have h := hr.priorityRange
  refine ⟨h, fun p pid => ?_⟩
  unfold sys_getpriority
  split_ifs with h0
  · exact iff_of_true (h p).1 (.inl h0)
  split
  · rename_i i hi
    obtain ⟨hin, hpid⟩ := firstSlot_some hi
    exact iff_of_true (h i).1 (.inr ⟨i, hin, by simpa using hpid⟩)
  · rename_i hn
    refine iff_of_false (by decide) fun h' => ?_
    obtain ⟨i, hin, hpid⟩ := h'.resolve_left h0
    have := List.find?_eq_none.1 hn i (List.mem_range.2 hin)
    simp [hpid] at this

/-- After boot on two slots: `initproc` at priority 5, the free slot at 0. -/
theorem priority_range_boot : (Sys.boot 2 1).Reach ∧
    (∀ i, 0 ≤ ((Sys.boot 2 1).proc i).priority ∧ ((Sys.boot 2 1).proc i).priority ≤ 9) ∧
    ∀ p pid, 0 ≤ sys_getpriority (Sys.boot 2 1) p pid ↔
      pid = 0 ∨ ∃ i < (Sys.boot 2 1).NPROC, ((Sys.boot 2 1).proc i).pid = pid :=
  ⟨.boot (by decide), priority_range (.boot (by decide))⟩

/-- `sys_getpriority` reads back what `sys_setpriority` wrote: after a `sys_setpriority(pid, pr)`
that returned 0, `sys_getpriority(pid)` by the same process returns `pr`, and so does the process's
next step when it is that call, on whichever CPU. -/
theorem setpriority_getpriority {s s' : Sys} {c p : Nat} {ok : Bool} {pid pr : Int}
    (he : s.syscall c p ok (.setpriority pid pr) = .ok s') (h0 : s'.a0 p = 0) :
    sys_getpriority s' p pid = pr ∧
      ∀ c' ok', s'.exec c' p (.getpriority pid) ok' = .ok (s'.ret p pr) := by
  suffices hg : sys_getpriority s' p pid = pr by
    have hu : s'.code p = .user := by
      simp only [Sys.syscall] at he
      split_ifs at he <;> (try split at he) <;> cases he <;> simp [Sys.ret, Sys.setCode]
    exact ⟨hg, fun _ _ => by simp only [Sys.exec, hu, Sys.syscall, hg]⟩
  simp only [Sys.syscall] at he
  split_ifs at he with hr hp
  · cases he; simp [Sys.ret, EINVAL] at h0
  · cases he; simp [sys_getpriority, hp, Sys.ret, Sys.setCode, Sys.setProc]
  · split at he <;> cases he
    · rename_i tab ht
      obtain ⟨i, hi, rfl⟩ := Option.map_eq_some'.1 ht
      have hs : firstSlot (·.pid = pid) (Function.update s.proc i { s.proc i with priority := pr })
          s.NPROC = some i := by
        rw [firstSlot_pid_congr
          (apply_update_of_eq Proc.pid s.proc i { s.proc i with priority := pr } rfl)]
        exact hi
      simp [sys_getpriority, hp, Sys.ret, Sys.setCode, hs]
    · simp [Sys.ret, ESRCH] at h0

/-- `initproc` (pid 1) sets its own priority to 7 by pid and reads it back. -/
theorem setpriority_getpriority_init :
    ∃ s', (Sys.boot 2 1).syscall 0 0 true (.setpriority 1 7) = .ok s' ∧ s'.a0 0 = 0 ∧
      sys_getpriority s' 0 1 = 7 ∧ ∀ c' ok', s'.exec c' 0 (.getpriority 1) ok' = .ok (s'.ret 0 7) :=
  ⟨_, rfl, rfl, @setpriority_getpriority (Sys.boot 2 1) _ 0 0 true 1 7 rfl rfl⟩

end Xv6.Process
