import Xv6Kernel.Proc.Invariant

/-!
# The process state machine and the schedulers

Every step changes a slot's `state` only along the transitions `proc.c` is meant to make
(`allowedTransitions`): `step_moved`, one lemma per kind of step. With the invariant, which has
each process on one CPU at most (`Core.Inv.single`: `scheduler` re-checks `RUNNABLE` under
`p->lock` after the selector has let the lock go), this is `proc_state_machine`.
-/

namespace Xv6.Process

/-- The changes of `p->state` the process code is to make. -/
def allowedTransitions : List (procstate × procstate) :=
  [(.UNUSED, .USED), (.USED, .UNUSED), (.USED, .RUNNABLE), (.RUNNABLE, .RUNNING),
   (.RUNNING, .RUNNABLE), (.RUNNING, .SLEEPING), (.SLEEPING, .RUNNABLE), (.RUNNING, .ZOMBIE),
   (.ZOMBIE, .UNUSED)]

/-- A slot keeps its state or makes one of `allowedTransitions`. -/
def Moved (a b : procstate) : Prop := a = b ∨ (a, b) ∈ allowedTransitions

theorem Moved.refl (a : procstate) : Moved a a := .inl rfl

theorem Wakes.moved {tab tab' : Nat → Proc} (hw : Wakes tab tab') (i : Nat) :
    Moved (tab i).state (tab' i).state := by
  rcases hw.state i with h | ⟨h₁, h₂⟩
  · exact .inl h.symm
  · right; rw [h₁, h₂]; decide

/-- One slot changed along an allowed transition, after a table change that moves every slot
along one. -/
theorem moved_update {tab tab' : Nat → Proc} (h : ∀ i, Moved (tab i).state (tab' i).state)
    {j : Nat} {x : Proc} (hj : Moved (tab j).state x.state) (i : Nat) :
    Moved (tab i).state (Function.update tab' j x i).state := by
  rcases eq_or_ne i j with rfl | hi
  · simpa using hj
  · simpa [hi] using h i

theorem Sys.proc_eq_of_core {s t : Sys} (h : s.core = t.core) : s.proc = t.proc :=
  congrArg Core.proc h

namespace Sys

variable {s s' : Sys} {c p : Nat} {ok : Bool}

/-! ## Each kind of step moves slots along allowed transitions -/

section Moves

variable (i : Nat)

theorem forkAlloc_moved :
    Moved (s.proc i).state ((s.forkAlloc p ok).proc i).state := by
  rcases hf : firstSlot (·.state = .UNUSED) s.proc s.NPROC with _ | j
  · simp only [forkAlloc, allocproc, hf]; exact .inl rfl
  · have hj : (s.proc j).state = .UNUSED := by simpa using (firstSlot_some hf).2
    cases ok <;> simp only [forkAlloc, allocproc, hf] <;>
      refine moved_update (fun _ => .refl _) ?_ i <;> simp [hj, Moved, allowedTransitions, freeproc]

theorem yield_moved (hr : (s.proc p).state = .RUNNING) (h : s.yield c p = .ok s') :
    Moved (s.proc i).state (s'.proc i).state := by
  simp only [yield, sched, Code.holds, List.length_nil, Nat.zero_add, ne_eq, not_true_eq_false,
    if_false, Except.ok.injEq] at h
  subst h
  exact moved_update (fun _ => .refl _) (by simp [hr, Moved, allowedTransitions]) i

theorem sleep_moved (hr : (s.proc p).state = .RUNNING) {chan : Chan} {lk : Lock} {k : Code}
    (h : s.sleep c p chan lk k = .ok s') : Moved (s.proc i).state (s'.proc i).state := by
  simp only [sleep, sched] at h
  split at h
  · cases h
  · cases h
    exact moved_update (fun _ => .refl _) (by simp [hr, Moved, allowedTransitions]) i

theorem exitBody_moved (hr : (s.proc p).state = .RUNNING) {st : Int}
    (h : s.exitBody c p st = .ok s') : Moved (s.proc i).state (s'.proc i).state := by
  simp only [exitBody, sched, Code.holds, List.length_nil, Nat.zero_add, ne_eq, not_true_eq_false,
    if_false, Except.ok.injEq] at h
  subst h
  -- `reparent` keeps every state, and the wakeups only wake sleepers
  have hw := (reparent_wakes s.proc s.NPROC p s.initproc).trans (wakeup_wakes _ s.NPROC (some p)
    (match (reparent s.proc s.NPROC p s.initproc p).parent with | some q => .proc q | none => .null))
  refine moved_update (fun j => ?_) (by simp [hr, Moved, allowedTransitions]) i
  have := hw.moved j
  split_ifs at this <;> exact this

theorem forkStart_moved (hI : s.core.Inv) (hc : (s.cpus c).proc = some p) {np : Nat}
    (hk : s.code p = .forkStart np) (h : s.forkStart c p np = .ok s') :
    Moved (s.proc i).state (s'.proc i).state := by
  have hr : (s.proc p).state = .RUNNING := hI.running c p hc
  have hu : (s.proc np).state = .USED := hI.forked p np (by simp [hk, Code.forking])
  have hnp : np ≠ p := hI.running_ne hc (by simp [hu])
  have hstart : ∀ j, Moved (s.proc j).state
      (Function.update s.proc np { s.proc np with state := .RUNNABLE } j).state :=
    moved_update (fun _ => .refl _) (by simp [hu, Moved, allowedTransitions])
  by_cases hm : s.isMlfq = true <;>
    simp only [forkStart, isMlfq_setProc, hm, if_true, if_false, Bool.false_eq_true] at h <;>
    split at h
  all_goals first
    | (cases h; exact hstart i)
    | (simp only [yield, sched, Code.holds, List.length_nil, Nat.zero_add, ne_eq,
        not_true_eq_false, if_false, Except.ok.injEq] at h
       subst h
       exact moved_update hstart (by simp [hr, hnp.symm, Moved, allowedTransitions]) i)

theorem schedule_moved : Moved (s.proc i).state ((s.schedule c).proc i).state := by
  unfold schedule
  split
  · exact .inl rfl
  rename_i p _
  split
  · rename_i hp
    have hrun : ∀ j, Moved (s.proc j).state
        (Function.update s.proc p { s.proc p with state := .RUNNING } j).state :=
      moved_update (fun _ => .refl _) (by simp [hp, Moved, allowedTransitions])
    unfold resume
    split
    · simp only [setProc, setCode, setCpu]
      refine moved_update hrun ?_ i
      split_ifs <;> simp [hp, Moved, allowedTransitions]
    all_goals exact hrun i
  · exact .inl rfl

end Moves

/-- A step of a running process moves every slot along an allowed transition. -/
theorem exec_moved (hI : s.core.Inv) (hc : (s.cpus c).proc = some p) {call : Call}
    (he : s.exec c p call ok = .ok s') (i : Nat) : Moved (s.proc i).state (s'.proc i).state := by
  have hr : (s.proc p).state = .RUNNING := hI.running c p hc
  cases exec_effect he with
  | move _ h | kill _ h | select _ h | exitCall _ _ h | priority _ _ h | wake _ _ h | fork _ h =>
    rw [proc_eq_of_core h]
    first
    | exact .refl _
    | exact (wakeup_wakes _ _ _ _).moved i
    | exact (kkill_wakes _ _ _).moved i
    | exact ‹PriorityOnly _ _›.wakes.moved i
    | exact forkAlloc_moved i
  | @reap _ _ z _ hz h =>
    rw [proc_eq_of_core h]
    have hzz : (s.proc z).state = .ZOMBIE := by simpa using List.find?_some hz
    exact moved_update (fun _ => .refl _) (by simp [hzz, Moved, allowedTransitions, freeproc]) i
  | acquire | idle => exact .refl _
  | yield _ h => exact yield_moved i hr h
  | sleep _ h => exact sleep_moved i hr h
  | link =>
    simp only [setCode, setProc]
    refine moved_update (fun _ => .refl _) ?_ i
    exact .refl _
  | start hk h => exact forkStart_moved i hI hc hk h
  | exit _ h => exact exitBody_moved i hr h

/-- Every step moves every slot along an allowed transition. -/
theorem step_moved (hI : s.core.Inv) {e : Ev} (h : s.step e = .ok s') (i : Nat) :
    Moved (s.proc i).state (s'.proc i).state := by
  cases e with
  | cpu c call ok =>
    simp only [step] at h
    split at h
    · split at h
      · exact exec_moved hI ‹_› h i
      · cases h; exact schedule_moved i
    · cases h; exact .refl _
  | tick =>
    simp only [step] at h
    split at h <;> cases h
    · exact (wakeup_wakes _ _ _ _).moved i
    · exact .refl _

end Sys

/-! ## The state machine, and one CPU per process -/

/-- From every reachable state, a step changes a slot's state only along `allowedTransitions`, and
no process is ever on two CPUs. -/
theorem proc_state_machine {s : Sys} (hr : s.Reach) :
    (∀ e s', s.step e = .ok s' → ∀ i, (s.proc i).state ≠ (s'.proc i).state →
      ((s.proc i).state, (s'.proc i).state) ∈ allowedTransitions) ∧
    ∀ c d p, (s.cpus c).proc = some p → (s.cpus d).proc = some p → c = d :=
  ⟨fun _ _ h i hne => (Sys.step_moved hr.inv h i).resolve_left hne, hr.inv.single⟩

theorem proc_state_machine_boot : (Sys.boot 2 2).Reach ∧
    (∀ e s', (Sys.boot 2 2).step e = .ok s' → ∀ i,
      ((Sys.boot 2 2).proc i).state ≠ (s'.proc i).state →
      (((Sys.boot 2 2).proc i).state, (s'.proc i).state) ∈ allowedTransitions) ∧
    ∀ c d p, ((Sys.boot 2 2).cpus c).proc = some p → ((Sys.boot 2 2).cpus d).proc = some p →
      c = d :=
  ⟨.boot (by decide), proc_state_machine (.boot (by decide))⟩

/-! ## MLFQ selection -/

/-- `mlfq_scheduler()` returns a process that stands in one of the queues. -/
theorem mlfq_scheduler_queued {queues : Nat → List Nat} {p : Nat}
    (h : mlfq_scheduler queues = some p) : ∃ l < MAX_PRIORITY_LEVELS, p ∈ queues l := by
  obtain ⟨l, hl, hp⟩ := List.exists_of_findSome?_eq_some h
  exact ⟨l, List.mem_range.1 hl, List.mem_of_mem_head? hp⟩

/-- While MLFQ selects, a process in no queue is never a CPU's next choice. -/
theorem select_queued {s : Sys} {p : Nat} (hm : s.select_next_proc = .mlfq_scheduler)
    (h : s.select = some p) : ∃ l < MAX_PRIORITY_LEVELS, p ∈ s.queues l := by
  simp only [Sys.select, hm] at h
  exact mlfq_scheduler_queued h

/-- `initproc` forks a child and switches to MLFQ while the child waits `RUNNABLE`: the child is
in no queue, and the scheduler finds nothing to run. -/
theorem set_scheduler_unqueued : ∃ s, (Sys.boot 2 1).run
    [.cpu 0 .yield true, .cpu 0 .yield true, .cpu 0 .fork true, .cpu 0 .yield true,
      .cpu 0 .yield true, .cpu 0 .yield true, .cpu 0 (.set_scheduler 2) true] = .ok s ∧
    s.select_next_proc = .mlfq_scheduler ∧ (s.proc 1).state = .RUNNABLE ∧
    (∀ l, 1 ∉ s.queues l) ∧ s.select = none :=
  ⟨_, rfl, rfl, rfl, fun _ => List.not_mem_nil 1, rfl⟩

end Xv6.Process
