import Xv6Kernel.Proc.Sched

/-!
# The process tree, reaping, and `kkill`

What `kfork`, `kexit` and `kwait` keep of the process tree over every run (`process_tree`):
`initproc` stays alive, and every other slot in use has a live parent, but for the child of a
`kfork` between `allocproc` and `np->parent = p`, whose parent pointer is still null; a slot is
freed only by its parent's `kwait`, which returns the child's pid and copies out its status
(`step_frees`); and one round of `kwait` returns -1 without reaping exactly when no child has
exited and the caller has no children or is killed, or a child has exited but the copy-out fails
(`kwaitScan_eq_ret_iff`). A killed caller with an exited child reaps it
(`unlinked_child_and_killed_reap`, which also shows a child in use with no parent).

`kkill(pid)` looks at every slot, free or not: a free slot holds pid 0, so for every other pid it
changes only a slot in use (`kkill_in_use`), while `kkill(0)` marks the first free slot killed
and reports success, and `allocproc` hands that slot out with `killed` still set
(`kill_zero_marks_free_slot`).
-/

namespace Xv6.Process

/-- Every slot in use before is in use after: no slot is freed. -/
def KeepsInUse (tab tab' : Nat → Proc) : Prop :=
  ∀ i, (tab' i).state = .UNUSED → (tab i).state = .UNUSED

theorem KeepsInUse.refl (tab : Nat → Proc) : KeepsInUse tab tab := fun _ => id

theorem KeepsInUse.trans {tab tab' tab'' : Nat → Proc} (h : KeepsInUse tab tab')
    (h' : KeepsInUse tab' tab'') : KeepsInUse tab tab'' := fun i hi => h i (h' i hi)

theorem Wakes.keepsInUse {tab tab' : Nat → Proc} (hw : Wakes tab tab') : KeepsInUse tab tab' :=
  fun i => (hw.unused_iff i).1

/-- One slot more set, to a state in use or over a free slot. -/
theorem KeepsInUse.update {tab tab' : Nat → Proc} (h : KeepsInUse tab tab') {j : Nat} {x : Proc}
    (hx : x.state = .UNUSED → (tab j).state = .UNUSED) : KeepsInUse tab (Function.update tab' j x) := by
  intro i hi
  rcases eq_or_ne i j with rfl | hij
  · exact hx (by simpa using hi)
  · exact h i (by simpa [hij] using hi)

namespace Sys

variable {s s' : Sys} {c p : Nat} {ok : Bool}

/-! ## One round of `kwait` -/

/-- A round of `kwait` that finds an exited child and copies its status out frees the child's
slot and returns its pid. -/
theorem kwaitScan_reap {addr z : Nat}
    (hz : (children s.proc s.NPROC p).find? (fun i => (s.proc i).state = .ZOMBIE) = some z)
    (hok : ¬(addr ≠ 0 ∧ ok = false)) :
    ((s.kwaitScan p addr ok).proc z).state = .UNUSED ∧ (s.kwaitScan p addr ok).a0 p = (s.proc z).pid ∧
      (addr ≠ 0 → (s.kwaitScan p addr ok).umem p addr = (s.proc z).xstate) := by
  simp only [kwaitScan, hz, hok, if_false]
  exact ⟨by simp [ret, setCode, setProc, freeproc], by simp [ret],
    fun ha => by simp [ret, setCode, setProc, ha]⟩

/-- One round of `kwait` returns -1 without reaping exactly when no child has exited and the
caller has no children or is killed, or a child has exited and the copy-out fails. -/
theorem kwaitScan_eq_ret_iff {addr : Nat} :
    s.kwaitScan p addr ok = s.ret p (-1) ↔
      ((children s.proc s.NPROC p).find? (fun i => (s.proc i).state = .ZOMBIE) = none ∧
        (children s.proc s.NPROC p = [] ∨ (s.proc p).killed ≠ 0)) ∨
      ((∃ z, (children s.proc s.NPROC p).find? (fun i => (s.proc i).state = .ZOMBIE) = some z) ∧
        addr ≠ 0 ∧ ok = false) := by
  rcases hz : (children s.proc s.NPROC p).find? (fun i => (s.proc i).state = .ZOMBIE) with _ | z
  · simp only [kwaitScan, hz]
    split_ifs with h
    · simp [h]
    · refine iff_of_false (fun e => ?_) (by simp [h])
      simpa [ret, setCode] using congrArg (fun t : Sys => t.code p) e
  · have hzz : (s.proc z).state = .ZOMBIE := by simpa using List.find?_some hz
    simp only [kwaitScan, hz]
    by_cases h : addr ≠ 0 ∧ ok = false
    · simp [h]
    · rw [if_neg h]
      refine iff_of_false (fun e => ?_) (by simp [h])
      simpa [ret, setCode, setProc, freeproc, hzz] using
        congrArg (fun t : Sys => (t.proc z).state) e

/-! ## Each kind of step but a reap keeps every slot in use -/

section Keeps

theorem forkAlloc_keepsInUse : KeepsInUse s.proc (s.forkAlloc p ok).proc := by
  rcases hf : firstSlot (·.state = .UNUSED) s.proc s.NPROC with _ | j
  · simp only [forkAlloc, allocproc, hf]; exact .refl _
  · have hj : (s.proc j).state = .UNUSED := by simpa using (firstSlot_some hf).2
    cases ok <;> simp only [forkAlloc, allocproc, hf] <;> exact (KeepsInUse.refl _).update fun _ => hj

theorem yield_keepsInUse (h : s.yield c p = .ok s') : KeepsInUse s.proc s'.proc := by
  simp only [yield, sched, Code.holds, List.length_nil, Nat.zero_add, ne_eq, not_true_eq_false,
    if_false, Except.ok.injEq] at h
  subst h
  exact (KeepsInUse.refl _).update (by simp)

theorem sleep_keepsInUse {chan : Chan} {lk : Lock} {k : Code} (h : s.sleep c p chan lk k = .ok s') :
    KeepsInUse s.proc s'.proc := by
  simp only [sleep, sched] at h
  split at h
  · cases h
  · cases h
    exact (KeepsInUse.refl _).update (by simp)

theorem exitBody_keepsInUse {st : Int} (h : s.exitBody c p st = .ok s') :
    KeepsInUse s.proc s'.proc := by
  simp only [exitBody, sched, Code.holds, List.length_nil, Nat.zero_add, ne_eq, not_true_eq_false,
    if_false, Except.ok.injEq] at h
  subst h
  have hw := (reparent_wakes s.proc s.NPROC p s.initproc).trans (wakeup_wakes _ s.NPROC (some p)
    (match (reparent s.proc s.NPROC p s.initproc p).parent with | some q => .proc q | none => .null))
  -- `reparent` changes parent pointers only
  have hre : KeepsInUse s.proc fun j =>
      if j < s.NPROC ∧ (s.proc j).parent = some p then { s.proc j with parent := some s.initproc }
      else s.proc j := fun j hj => by dsimp only at hj; split_ifs at hj <;> exact hj
  exact (hre.trans hw.keepsInUse).update (by simp)

theorem forkStart_keepsInUse {np : Nat} (h : s.forkStart c p np = .ok s') :
    KeepsInUse s.proc s'.proc := by
  have hstart := (KeepsInUse.refl s.proc).update (j := np) (x := { s.proc np with state := .RUNNABLE })
    (by simp)
  by_cases hm : s.isMlfq = true <;>
    simp only [forkStart, isMlfq_setProc, hm, if_true, if_false, Bool.false_eq_true] at h <;>
    split at h
  all_goals first
    | (cases h; exact hstart)
    | (simp only [yield, sched, Code.holds, List.length_nil, Nat.zero_add, ne_eq,
        not_true_eq_false, if_false, Except.ok.injEq] at h
       subst h
       exact hstart.update (by simp))

theorem schedule_keepsInUse : KeepsInUse s.proc (s.schedule c).proc := by
  unfold schedule
  split
  · exact .refl _
  rename_i p _
  split
  · have hrun := (KeepsInUse.refl s.proc).update (j := p) (x := { s.proc p with state := .RUNNING })
      (by simp)
    unfold resume
    split
    · simp only [setProc, setCode, setCpu]
      exact hrun.update (by split_ifs <;> simp)
    all_goals exact hrun
  · exact .refl _

end Keeps

/-- A step of a running process frees a slot in use only as a reap by that process's `kwait`:
the slot is a `ZOMBIE` child of it, and `kwait` returns its pid and copies out its status. -/
theorem exec_frees {call : Call} (he : s.exec c p call ok = .ok s')
    {i : Nat} (hu : (s.proc i).state ≠ .UNUSED) (hu' : (s'.proc i).state = .UNUSED) :
    ∃ addr, s.code p = .kwaitScan addr ∧ (s.proc i).parent = some p ∧
      (s.proc i).state = .ZOMBIE ∧ s'.a0 p = (s.proc i).pid ∧
      (addr ≠ 0 → s'.umem p addr = (s.proc i).xstate) := by
  have keep : KeepsInUse s.proc s'.proc → False := fun h => hu (h i hu')
  cases exec_effect he with
  | @reap _ addr z hk hz h =>
    have hzz : (s.proc z).state = .ZOMBIE := by simpa using List.find?_some hz
    have hiz : i = z := by
      by_contra hne
      exact hu (by simpa [proc_eq_of_core h, setCode, setProc, hne] using hu')
    subst hiz
    simp only [exec, hk, Except.ok.injEq] at he
    subst he
    have hok : ¬(addr ≠ 0 ∧ ok = false) := fun hf => by
      simp [kwaitScan, hz, hf, ret, setCode, hzz] at hu'
    have hkid : i < s.NPROC ∧ (s.proc i).parent = some p := by
      simpa [children] using List.mem_of_find?_eq_some hz
    exact ⟨addr, hk, hkid.2, hzz, (kwaitScan_reap hz hok).2⟩
  | move _ h | kill _ h | select _ h | exitCall _ _ h | priority _ _ h | wake _ _ h | fork _ h =>
    rw [proc_eq_of_core h] at keep
    refine (keep ?_).elim
    first
    | exact .refl _
    | exact (wakeup_wakes _ _ _ _).keepsInUse
    | exact (kkill_wakes _ _ _).keepsInUse
    | exact ‹PriorityOnly _ _›.wakes.keepsInUse
    | exact forkAlloc_keepsInUse
  | acquire | idle => exact (keep (.refl _)).elim
  | yield _ h => exact (keep (yield_keepsInUse h)).elim
  | sleep _ h => exact (keep (sleep_keepsInUse h)).elim
  | link => exact (keep ((KeepsInUse.refl _).update id)).elim
  | start _ h => exact (keep (forkStart_keepsInUse h)).elim
  | exit _ h => exact (keep (exitBody_keepsInUse h)).elim

/-- A step frees a slot in use only as the reap by its parent's `kwait`, running on a CPU. -/
theorem step_frees {e : Ev} (h : s.step e = .ok s') {i : Nat} (hu : (s.proc i).state ≠ .UNUSED)
    (hu' : (s'.proc i).state = .UNUSED) :
    ∃ c p addr, (s.cpus c).proc = some p ∧ s.code p = .kwaitScan addr ∧
      (s.proc i).parent = some p ∧ (s.proc i).state = .ZOMBIE ∧ s'.a0 p = (s.proc i).pid ∧
      (addr ≠ 0 → s'.umem p addr = (s.proc i).xstate) := by
  cases e with
  | cpu c call ok =>
    simp only [step] at h
    split at h
    · split at h
      · obtain ⟨addr, hf⟩ := exec_frees h hu hu'
        exact ⟨c, _, addr, ‹_›, hf⟩
      · cases h; exact absurd (schedule_keepsInUse i hu') hu
    · cases h; exact absurd hu' hu
  | tick =>
    simp only [step] at h
    split at h <;> cases h
    · exact absurd ((wakeup_wakes _ _ _ _).keepsInUse i hu') hu
    · exact absurd hu' hu

end Sys

/-! ## The process tree -/

/-- Over every run: `initproc` is alive, and every other slot in use has a live parent, or is the
child of a `kfork` not yet linked (`USED`, no parent); a step frees a slot in use only as its
parent's `kwait` reaping it, which returns its pid and copies out its status; and one round of
`kwait` returns -1 without reaping exactly when no child has exited and the caller has no children
or is killed, or a child has exited and the copy-out fails. -/
theorem process_tree {s : Sys} (hr : s.Reach) :
    (s.proc s.initproc).alive ∧
    (∀ i, (s.proc i).state ≠ .UNUSED → i ≠ s.initproc →
      (∃ q, (s.proc i).parent = some q ∧ (s.proc q).alive) ∨
      ((s.proc i).parent = none ∧ (s.proc i).state = .USED ∧ ∃ p, (s.code p).forking = some i)) ∧
    (∀ e s' i, s.step e = .ok s' → (s.proc i).state ≠ .UNUSED → (s'.proc i).state = .UNUSED →
      ∃ c p addr, (s.cpus c).proc = some p ∧ s.code p = .kwaitScan addr ∧
        (s.proc i).parent = some p ∧ (s.proc i).state = .ZOMBIE ∧ s'.a0 p = (s.proc i).pid ∧
        (addr ≠ 0 → s'.umem p addr = (s.proc i).xstate)) ∧
    (∀ p addr ok, s.kwaitScan p addr ok = s.ret p (-1) ↔
      ((children s.proc s.NPROC p).find? (fun i => (s.proc i).state = .ZOMBIE) = none ∧
        (children s.proc s.NPROC p = [] ∨ (s.proc p).killed ≠ 0)) ∨
      ((∃ z, (children s.proc s.NPROC p).find? (fun i => (s.proc i).state = .ZOMBIE) = some z) ∧
        addr ≠ 0 ∧ ok = false)) := by
  have hI := hr.inv
  refine ⟨hI.init.1, fun i hu hi => ?_, fun _ _ _ h => Sys.step_frees h,
    fun _ _ _ => Sys.kwaitScan_eq_ret_iff⟩
  exact (hI.tree i hu hi).imp_right fun ⟨hn, p, hp⟩ => ⟨hn, hI.forked p i hp, p, hp⟩

theorem process_tree_boot : (Sys.boot 2 1).Reach ∧
    ((Sys.boot 2 1).proc (Sys.boot 2 1).initproc).alive ∧
    (∀ i, ((Sys.boot 2 1).proc i).state ≠ .UNUSED → i ≠ (Sys.boot 2 1).initproc →
      (∃ q, ((Sys.boot 2 1).proc i).parent = some q ∧ ((Sys.boot 2 1).proc q).alive) ∨
      (((Sys.boot 2 1).proc i).parent = none ∧ ((Sys.boot 2 1).proc i).state = .USED ∧
        ∃ p, ((Sys.boot 2 1).code p).forking = some i)) ∧
    (∀ e s' i, (Sys.boot 2 1).step e = .ok s' → ((Sys.boot 2 1).proc i).state ≠ .UNUSED →
      (s'.proc i).state = .UNUSED →
      ∃ c p addr, ((Sys.boot 2 1).cpus c).proc = some p ∧ (Sys.boot 2 1).code p = .kwaitScan addr ∧
        ((Sys.boot 2 1).proc i).parent = some p ∧ ((Sys.boot 2 1).proc i).state = .ZOMBIE ∧
        s'.a0 p = ((Sys.boot 2 1).proc i).pid ∧
        (addr ≠ 0 → s'.umem p addr = ((Sys.boot 2 1).proc i).xstate)) ∧
    (∀ p addr ok, (Sys.boot 2 1).kwaitScan p addr ok = (Sys.boot 2 1).ret p (-1) ↔
      ((children (Sys.boot 2 1).proc 2 p).find? (fun i => ((Sys.boot 2 1).proc i).state = .ZOMBIE)
          = none ∧
        (children (Sys.boot 2 1).proc 2 p = [] ∨ ((Sys.boot 2 1).proc p).killed ≠ 0)) ∨
      ((∃ z, (children (Sys.boot 2 1).proc 2 p).find?
          (fun i => ((Sys.boot 2 1).proc i).state = .ZOMBIE) = some z) ∧
        addr ≠ 0 ∧ ok = false)) :=
  ⟨.boot (by decide), process_tree (.boot (by decide))⟩

/-- Right after `allocproc` in `kfork` the child is in use with no parent; and a killed `initproc`
whose child has exited reaps it with `kwait(0)`, which returns the child's pid, not -1. -/
theorem unlinked_child_and_killed_reap :
    (∃ s, (Sys.boot 2 1).run [.cpu 0 .yield true, .cpu 0 .yield true, .cpu 0 .fork true] = .ok s ∧
      (s.proc 1).state = .USED ∧ (s.proc 1).parent = none) ∧
    ∃ s, (Sys.boot 2 2).run
      [.cpu 0 .yield true, .cpu 0 .yield true, .cpu 0 .fork true, .cpu 0 .yield true,
        .cpu 0 .yield true, .cpu 0 .yield true, .cpu 1 .yield true, .cpu 1 .yield true,
        .cpu 1 (.exit 7) true, .cpu 1 .yield true, .cpu 1 .yield true, .cpu 0 (.kill 1) true,
        .cpu 0 (.wait 0) true, .cpu 0 .yield true, .cpu 0 .yield true] = .ok s ∧
      (s.proc 0).killed = 1 ∧ s.code 0 = .user ∧ s.a0 0 = 2 ∧ (s.proc 1).state = .UNUSED :=
  ⟨⟨_, rfl, rfl, rfl⟩, _, rfl, rfl, rfl, rfl, rfl⟩

/-! ## `kkill` -/

/-- `kkill(pid)` returns 0 exactly when some slot below `NPROC`, free or not, holds `pid`. -/
theorem kkill_eq_zero_iff {tab : Nat → Proc} {n : Nat} {pid : Int} :
    (kkill tab n pid).2 = 0 ↔ ∃ i < n, (tab i).pid = pid := by
  rcases h : firstSlot (·.pid = pid) tab n with _ | j
  · simp only [kkill, h]
    simp only [firstSlot, List.find?_eq_none, List.mem_range, decide_eq_true_eq] at h
    exact iff_of_false (by decide) fun ⟨i, hi, hp⟩ => h i hi hp
  · obtain ⟨hj, hp⟩ := firstSlot_some h
    simp only [kkill, h, true_iff]
    exact ⟨j, hj, by simpa using hp⟩

/-- `kkill(pid)` changes no slot whose pid is not `pid`. -/
theorem kkill_pid_of_ne {tab : Nat → Proc} {n : Nat} {pid : Int} {i : Nat}
    (h : (kkill tab n pid).1 i ≠ tab i) : (tab i).pid = pid := by
  rcases hf : firstSlot (·.pid = pid) tab n with _ | j
  · simp [kkill, hf] at h
  · simp only [kkill, hf] at h
    rcases eq_or_ne i j with rfl | hij
    · simpa using (firstSlot_some hf).2
    · simp [hij] at h

/-- In every reachable state, `kkill(pid)` for a pid other than 0 changes only a slot in use with
that pid, and returns 0 exactly when there is one: a free slot holds pid 0. -/
theorem kkill_in_use {s : Sys} (hr : s.Reach) {pid : Int} (hpid : pid ≠ 0) :
    ((kkill s.proc s.NPROC pid).2 = 0 ↔
      ∃ i < s.NPROC, (s.proc i).state ≠ .UNUSED ∧ (s.proc i).pid = pid) ∧
    ∀ i, (kkill s.proc s.NPROC pid).1 i ≠ s.proc i →
      (s.proc i).state ≠ .UNUSED ∧ (s.proc i).pid = pid := by
  have inUse : ∀ i, (s.proc i).pid = pid → (s.proc i).state ≠ .UNUSED := fun i hp hu =>
    hpid (by rw [← hp]; exact (hr.inv.clean i hu).1)
  refine ⟨kkill_eq_zero_iff.trans ⟨fun ⟨i, hi, hp⟩ => ⟨i, hi, inUse i hp, hp⟩,
    fun ⟨i, hi, _, hp⟩ => ⟨i, hi, hp⟩⟩, fun i h => ?_⟩
  have hp := kkill_pid_of_ne h
  exact ⟨inUse i hp, hp⟩

/-- `initproc` calls `kill(0)` while slot 1 is free: the call returns 0 and marks the free slot
killed, and the next `fork` hands that slot out still killed. -/
theorem kill_zero_marks_free_slot : ∃ s, (Sys.boot 2 1).run
    [.cpu 0 .yield true, .cpu 0 .yield true, .cpu 0 (.kill 0) true] = .ok s ∧
    (s.proc 1).state = .UNUSED ∧ (s.proc 1).killed = 1 ∧ s.a0 0 = 0 ∧
    ∃ s', s.run [.cpu 0 .fork true] = .ok s' ∧ (s'.proc 1).state = .USED ∧ (s'.proc 1).killed = 1 :=
  ⟨_, rfl, rfl, rfl, rfl, _, rfl, rfl, rfl⟩

end Xv6.Process
