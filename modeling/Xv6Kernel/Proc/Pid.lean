import Xv6Kernel.Proc.Lifecycle

/-!
# Process ids

`allocpid()` of `proc.c`: `pid = nextpid; nextpid = nextpid + 1`, on an `int`. A step changes
`nextpid` only when a `fork` finds a free slot and calls `allocpid`, and every slot in use after a
step was in use before with the same pid, but for the slot `allocproc` takes, which holds the pid
just returned (`step_pids`). So along every run from boot the `k`-th call returns `k` as an `int`,
and while no `nextpid + 1` overflows the pids returned are distinct and at least 1, and no two slots
in use share one (`allocpid_distinct`). Past that the `int` wraps: `fork`s whose copy fails spend
pids one by one, and after `2 ^ 32 - 2` of them `allocproc` hands out pid 0, after one more pid 1
again, while `initproc` holds it (`pid_reissued`).
-/

namespace Xv6.Process

open Xv6.Mem (toInt)

/-! ## What a step does to the pids in use -/

/-- Every slot in use after was in use before with the same pid, or is the slot `fresh` names and
holds the pid it names. -/
def PidStep (tab tab' : Nat → Proc) (fresh : Option (Nat × Int)) : Prop :=
  ∀ i, (tab' i).state ≠ .UNUSED →
    (tab i).state ≠ .UNUSED ∧ (tab' i).pid = (tab i).pid ∨ fresh = some (i, (tab' i).pid)

namespace PidStep

variable {tab tab' tab'' : Nat → Proc}

theorem refl (tab : Nat → Proc) : PidStep tab tab none := fun _ h => .inl ⟨h, rfl⟩

theorem trans (h : PidStep tab tab' none) (h' : PidStep tab' tab'' none) :
    PidStep tab tab'' none := by
  intro i hi
  obtain ⟨hu, hp⟩ := (h' i hi).resolve_right nofun
  obtain ⟨hu', hp'⟩ := (h i hu).resolve_right nofun
  exact .inl ⟨hu', hp.trans hp'⟩

theorem mono (h : PidStep tab tab' none) (fresh : Option (Nat × Int)) : PidStep tab tab' fresh :=
  fun i hi => .inl ((h i hi).resolve_right nofun)

/-- One slot more set, freed or kept in use with its pid. -/
theorem update (h : PidStep tab tab' none) {j : Nat} {x : Proc}
    (hx : x.state ≠ .UNUSED → (tab' j).state ≠ .UNUSED ∧ x.pid = (tab' j).pid) :
    PidStep tab (Function.update tab' j x) none := by
  refine h.trans fun i hi => .inl ?_
  rcases eq_or_ne i j with rfl | hij
  · simpa using hx (by simpa using hi)
  · simpa [hij] using hi

end PidStep

theorem Wakes.pidStep {tab tab' : Nat → Proc} (hw : Wakes tab tab') : PidStep tab tab' none :=
  fun i hi => .inl ⟨fun hu => hi ((hw.unused_iff i).2 hu), hw.pid i⟩

namespace Sys

variable {s s' : Sys} {c p : Nat} {ok : Bool}

/-- The slot `allocproc` takes in the step `e`, when the step calls `allocpid`: the process on
CPU `c`, in user space, calls `fork` while a slot is free. -/
def allocs (s : Sys) : Ev → Option Nat
  | .cpu c .fork _ =>
    if c < s.NCPU then
      match (s.cpus c).proc with
      | some p =>
        match s.code p with
        | .user => firstSlot (·.state = .UNUSED) s.proc s.NPROC
        | _ => none
      | none => none
    else none
  | _ => none

/-- The pids `allocpid` returns along the run `es` from `s`, up to a failing step. -/
def pids (s : Sys) : List Ev → List Int
  | [] => []
  | e :: es =>
    match s.step e with
    | .ok s' => (if (s.allocs e).isSome then [s.nextpid] else []) ++ s'.pids es
    | .error _ => []

/-! ### `nextpid` -/

@[simp] theorem setProc_nextpid (x : Proc) : (s.setProc p x).nextpid = s.nextpid := rfl
@[simp] theorem setCode_nextpid (k : Code) : (s.setCode p k).nextpid = s.nextpid := rfl
@[simp] theorem setCpu_nextpid (x : Cpu) : (s.setCpu c x).nextpid = s.nextpid := rfl
@[simp] theorem ret_nextpid (v : Int) : (s.ret p v).nextpid = s.nextpid := rfl
@[simp] theorem wake_nextpid (self : Option Nat) (chan : Chan) :
    (s.wake self chan).nextpid = s.nextpid := rfl

theorem sched_nextpid {k : Code} (h : s.sched c p k = .ok s') : s'.nextpid = s.nextpid := by
  unfold sched at h
  split at h <;> cases h
  rfl

theorem yield_nextpid (h : s.yield c p = .ok s') : s'.nextpid = s.nextpid := by
  simp only [yield] at h
  exact (sched_nextpid h :)

theorem sleep_nextpid {chan : Chan} {lk : Lock} {k : Code} (h : s.sleep c p chan lk k = .ok s') :
    s'.nextpid = s.nextpid := by
  simp only [sleep] at h
  exact (sched_nextpid h :)

theorem exitBody_nextpid {st : Int} (h : s.exitBody c p st = .ok s') : s'.nextpid = s.nextpid := by
  simp only [exitBody] at h
  exact (sched_nextpid h :)

theorem forkStart_nextpid {np : Nat} (h : s.forkStart c p np = .ok s') :
    s'.nextpid = s.nextpid := by
  simp only [forkStart] at h
  split_ifs at h
  · exact (yield_nextpid h :)
  · cases h; rfl
  · exact (yield_nextpid h :)
  · cases h; rfl

theorem acquire_nextpid {lk : Lock} {k : Code} (h : s.acquire p lk k = .ok s') :
    s'.nextpid = s.nextpid := by
  unfold acquire at h
  split_ifs at h <;> cases h <;> rfl

@[simp] theorem kwaitScan_nextpid (addr : Nat) : (s.kwaitScan p addr ok).nextpid = s.nextpid := by
  unfold kwaitScan
  dsimp only
  split <;> split <;> rfl

@[simp] theorem enter_nextpid (id : Int) (n : Nat) (lk : Nat → Lock) (k : Nat → Code) :
    (s.enter p id n lk k).nextpid = s.nextpid := by
  unfold enter
  split_ifs <;> rfl

@[simp] theorem enter_proc (id : Int) (n : Nat) (lk : Nat → Lock) (k : Nat → Code) :
    (s.enter p id n lk k).proc = s.proc := by
  unfold enter
  split_ifs <;> rfl

theorem syscall_nextpid {call : Call} (hcall : call ≠ .fork) (h : s.syscall c p ok call = .ok s') :
    s'.nextpid = s.nextpid := by
  cases call
  case fork => exact absurd rfl hcall
  case yield => exact yield_nextpid h
  all_goals simp only [syscall] at h
  all_goals (repeat' split at h) <;> cases h <;> first | rfl | exact enter_nextpid ..

/-- A step of a running process moves `nextpid` only as a `fork` from user space. -/
theorem exec_nextpid {call : Call} (hk : s.code p = .user → call ≠ .fork)
    (he : s.exec c p call ok = .ok s') : s'.nextpid = s.nextpid := by
  unfold exec at he
  cases h : s.code p <;> simp only [h] at he
  case user => exact syscall_nextpid (hk h) he
  case acquire => exact acquire_nextpid he
  case sleepOn => exact sleep_nextpid he
  case forkStart => exact forkStart_nextpid he
  case exitBody => exact exitBody_nextpid he
  case kwaitScan => cases he; exact kwaitScan_nextpid _
  all_goals (repeat' split at he) <;> cases he <;> rfl

theorem schedule_nextpid : (s.schedule c).nextpid = s.nextpid := by
  unfold schedule resume
  split
  · rfl
  split
  · split <;> rfl
  · rfl

/-! ### The table -/

theorem yield_pidStep (hu : (s.proc p).state ≠ .UNUSED) (h : s.yield c p = .ok s') :
    PidStep s.proc s'.proc none := by
  simp only [yield, sched, Code.holds, List.length_nil, Nat.zero_add, ne_eq, not_true_eq_false,
    if_false, Except.ok.injEq] at h
  subst h
  exact (PidStep.refl _).update fun _ => ⟨hu, rfl⟩

theorem sleep_pidStep (hu : (s.proc p).state ≠ .UNUSED) {chan : Chan} {lk : Lock} {k : Code}
    (h : s.sleep c p chan lk k = .ok s') : PidStep s.proc s'.proc none := by
  simp only [sleep, sched] at h
  split at h
  · cases h
  · cases h
    exact (PidStep.refl _).update fun _ => ⟨hu, rfl⟩

theorem exitBody_pidStep (hu : (s.proc p).state ≠ .UNUSED) {st : Int}
    (h : s.exitBody c p st = .ok s') : PidStep s.proc s'.proc none := by
  simp only [exitBody, sched, Code.holds, List.length_nil, Nat.zero_add, ne_eq, not_true_eq_false,
    if_false, Except.ok.injEq] at h
  subst h
  have hw := (reparent_wakes s.proc s.NPROC p s.initproc).trans (wakeup_wakes _ s.NPROC (some p)
    (match (reparent s.proc s.NPROC p s.initproc p).parent with | some q => .proc q | none => .null))
  -- `reparent` changes parent pointers only
  have hre : PidStep s.proc (fun j =>
      if j < s.NPROC ∧ (s.proc j).parent = some p then { s.proc j with parent := some s.initproc }
      else s.proc j) none := fun j hj => .inl (by dsimp only at hj ⊢; split_ifs at hj ⊢ <;> exact ⟨hj, rfl⟩)
  refine (hre.trans hw.pidStep).update fun _ => ⟨?_, rfl⟩
  rw [Ne, hw.unused_iff]
  dsimp only
  split_ifs <;> exact hu

theorem forkStart_pidStep (hI : s.core.Inv) (hc : (s.cpus c).proc = some p) {np : Nat}
    (hk : s.code p = .forkStart np) (h : s.forkStart c p np = .ok s') :
    PidStep s.proc s'.proc none := by
  have hr : (s.proc p).state = .RUNNING := hI.running c p hc
  have hu : (s.proc p).state ≠ .UNUSED := by simp [hr]
  have hnp : (s.proc np).state = .USED := hI.forked p np (by simp [hk, Code.forking])
  have hne : np ≠ p := hI.running_ne hc (by simp [hnp])
  have hstart := (PidStep.refl s.proc).update (j := np) (x := { s.proc np with state := .RUNNABLE })
    fun _ => ⟨by simp [hnp], rfl⟩
  by_cases hm : s.isMlfq = true <;>
    simp only [forkStart, isMlfq_setProc, hm, if_true, if_false, Bool.false_eq_true] at h <;>
    split at h
  all_goals first
    | (cases h; exact hstart)
    | (simp only [yield, sched, Code.holds, List.length_nil, Nat.zero_add, ne_eq,
        not_true_eq_false, if_false, Except.ok.injEq] at h
       subst h
       exact hstart.update fun _ => ⟨by simpa [Function.update_noteq hne.symm] using hu, rfl⟩)

theorem schedule_pidStep : PidStep s.proc (s.schedule c).proc none := by
  unfold schedule
  split
  · exact .refl _
  rename_i p _
  split
  · rename_i hp
    have hrun := (PidStep.refl s.proc).update (j := p) (x := { s.proc p with state := .RUNNING })
      fun _ => ⟨by simp [hp], rfl⟩
    unfold resume
    split
    · simp only [setProc, setCode, setCpu]
      exact hrun.update fun _ => ⟨by simp, by split_ifs <;> rfl⟩
    all_goals exact hrun
  · exact .refl _

/-- A system call other than `fork` gives no slot out. -/
theorem syscall_pidStep (hu : (s.proc p).state ≠ .UNUSED) {call : Call} (hcall : call ≠ .fork)
    (h : s.syscall c p ok call = .ok s') : PidStep s.proc s'.proc none := by
  cases call with
  | fork => exact absurd rfl hcall
  | yield => exact yield_pidStep hu h
  | kill => cases h; exact (kkill_wakes _ _ _).pidStep
  | exit | set_scheduler => simp only [syscall] at h; split_ifs at h <;> cases h <;> exact .refl _
  | setpriority =>
    simp only [syscall] at h
    split_ifs at h
    · cases h; exact .refl _
    · cases h; exact (PidStep.refl _).update fun _ => ⟨hu, rfl⟩
    · split at h <;> cases h
      · exact (setpriority_priorityOnly ‹_›).wakes.pidStep
      · exact .refl _
  | wait | pause | getpriority => cases h; exact .refl _
  | _ => cases h; exact enter_proc .. ▸ .refl _

/-- A step of a running process other than a `fork` from user space gives no slot out, and frees
or keeps every slot it changes. -/
theorem exec_pidStep (hI : s.core.Inv) (hc : (s.cpus c).proc = some p) {call : Call}
    (hk : s.code p = .user → call ≠ .fork) (he : s.exec c p call ok = .ok s') :
    PidStep s.proc s'.proc none := by
  have hr : (s.proc p).state = .RUNNING := hI.running c p hc
  have hu : (s.proc p).state ≠ .UNUSED := by simp [hr]
  by_cases hus : s.code p = .user
  · simp only [exec, hus] at he
    exact syscall_pidStep hu (hk hus) he
  cases exec_effect he with
  | fork h | yield h | kill h | priority h | select h | exitCall h => exact absurd h hus
  | move _ h => rw [proc_eq_of_core h]; exact .refl _
  | wake _ _ h => rw [proc_eq_of_core h]; exact (wakeup_wakes _ _ _ _).pidStep
  | acquire | idle => exact .refl _
  | sleep _ h => exact sleep_pidStep hu h
  | link => exact (PidStep.refl _).update fun h => ⟨h, rfl⟩
  | start hk h => exact forkStart_pidStep hI hc hk h
  | exit _ h => exact exitBody_pidStep hu h
  | reap _ _ h =>
    rw [proc_eq_of_core h]
    exact (PidStep.refl _).update fun hx => absurd rfl hx

/-- `allocproc` in `kfork`: the first free slot, if there is one, takes the pid `allocpid`
returns, and `nextpid` moves on. -/
theorem forkAlloc_pids :
    PidStep s.proc (s.forkAlloc p ok).proc
      ((firstSlot (·.state = .UNUSED) s.proc s.NPROC).map (·, s.nextpid)) ∧
    (s.forkAlloc p ok).nextpid = if (firstSlot (·.state = .UNUSED) s.proc s.NPROC).isSome then
      toInt (s.nextpid + 1) else s.nextpid := by
  rcases hf : firstSlot (·.state = .UNUSED) s.proc s.NPROC with _ | j
  · simp only [forkAlloc, allocproc, hf]
    exact ⟨(PidStep.refl _).mono _, rfl⟩
  · refine ⟨fun i hi => ?_, by cases ok <;> simp [forkAlloc, allocproc, hf, ret, setCode]⟩
    rcases eq_or_ne i j with rfl | hij
    · cases ok <;> simp [forkAlloc, allocproc, hf, freeproc, ret, setCode] at hi ⊢
    · left
      cases ok <;> simp [forkAlloc, allocproc, hf, hij, ret, setCode] at hi ⊢ <;> exact hi

/-- What a step does to the pids: only a step that calls `allocpid` gives a slot out, the one
`allocs` names, with the pid `nextpid` held, and moves `nextpid` on as an `int`. -/
theorem step_pids (hI : s.core.Inv) {e : Ev} (he : s.step e = .ok s') :
    PidStep s.proc s'.proc ((s.allocs e).map (·, s.nextpid)) ∧
    s'.nextpid = if (s.allocs e).isSome then toInt (s.nextpid + 1) else s.nextpid := by
  cases e with
  | tick =>
    simp only [step] at he
    split at he <;> cases he
    · exact ⟨(wakeup_wakes _ _ _ _).pidStep, rfl⟩
    · exact ⟨.refl _, rfl⟩
  | cpu c call ok =>
    simp only [step] at he
    by_cases hc : c < s.NCPU
    · rw [if_pos hc] at he
      cases hq : (s.cpus c).proc with
      | none =>
        rw [hq] at he
        cases he
        have ha : s.allocs (.cpu c call ok) = none := by cases call <;> simp [allocs, hc, hq]
        rw [ha]
        exact ⟨schedule_pidStep, schedule_nextpid⟩
      | some p =>
        rw [hq] at he
        by_cases hf : s.code p = .user ∧ call = .fork
        · obtain ⟨hk, rfl⟩ := hf
          simp only [exec, hk, syscall, Except.ok.injEq] at he
          subst he
          have ha : s.allocs (.cpu c .fork ok) = firstSlot (·.state = .UNUSED) s.proc s.NPROC := by
            simp [allocs, hc, hq, hk]
          rw [ha]
          exact forkAlloc_pids
        · have hk : s.code p = .user → call ≠ .fork := fun h hcall => hf ⟨h, hcall⟩
          have ha : s.allocs (.cpu c call ok) = none := by
            cases call <;> simp only [allocs]
            cases hcode : s.code p <;> simp [hc, hq, hcode] at hk ⊢
          rw [ha]
          exact ⟨exec_pidStep hI hq hk he, exec_nextpid hk he⟩
    · rw [if_neg hc] at he
      cases he
      have ha : s.allocs (.cpu c call ok) = none := by cases call <;> simp [allocs, hc]
      rw [ha]
      exact ⟨.refl _, rfl⟩

end Sys

/-! ## Pids over a run -/

/-- The pids in use, with `nextpid`: every slot in use holds a pid in `1 .. nextpid - 1`, and no
two hold the same. -/
structure PidInv (tab : Nat → Proc) (nextpid : Int) : Prop where
  pos : 1 ≤ nextpid
  range : ∀ i, (tab i).state ≠ .UNUSED → 1 ≤ (tab i).pid ∧ (tab i).pid < nextpid
  inj : ∀ i j, (tab i).state ≠ .UNUSED → (tab j).state ≠ .UNUSED → (tab i).pid = (tab j).pid → i = j

/-- A step that gives out at most the slot `a`, with pid `nextpid`, and moves `nextpid` on when it
does, keeps the pids in use distinct, as long as `nextpid + 1` does not overflow. -/
theorem PidInv.step {tab tab' : Nat → Proc} {next : Int} {a : Option Nat} (h : PidInv tab next)
    (hs : PidStep tab tab' (a.map (·, next))) (hb : a.isSome → next + 1 < 2 ^ 31) :
    PidInv tab' (if a.isSome then toInt (next + 1) else next) := by
  have hp₀ := h.pos
  -- a slot in use after is kept, with its pid, or is the fresh one, holding `next`
  have hpid : ∀ i, (tab' i).state ≠ .UNUSED → ((tab i).state ≠ .UNUSED ∧
      (tab' i).pid = (tab i).pid) ∨ (a = some i ∧ (tab' i).pid = next) := fun i hi =>
    (hs i hi).imp_right fun hf => by
      obtain ⟨j, hj, hji⟩ := Option.map_eq_some'.1 hf
      simp only [Prod.mk.injEq] at hji
      exact ⟨hji.1 ▸ hj, hji.2.symm⟩
  have hnext : (if a.isSome then toInt (next + 1) else next) = if a.isSome then next + 1 else next := by
    split_ifs with ha
    · exact Xv6.Mem.toInt_of_lt (by omega) (hb ha)
    · rfl
  rw [hnext]
  refine ⟨by split_ifs <;> omega, fun i hi => ?_, fun i j hi hj hij => ?_⟩
  · rcases hpid i hi with ⟨hu, hp⟩ | ⟨ha, hp⟩
    · have := h.range i hu
      split_ifs <;> omega
    · simp only [ha, Option.isSome_some, if_true]
      omega
  · rcases hpid i hi with ⟨hui, hpi⟩ | ⟨hai, hpi⟩ <;> rcases hpid j hj with ⟨huj, hpj⟩ | ⟨haj, hpj⟩
    · exact h.inj i j hui huj (by rw [← hpi, ← hpj, hij])
    · have := h.range i hui
      omega
    · have := h.range j huj
      omega
    · exact Option.some.inj (hai.symm.trans haj)

theorem toInt_toInt (x : Int) : toInt (toInt x) = toInt x := by
  unfold toInt
  omega

theorem toInt_toInt_add (x y : Int) : toInt (toInt x + y) = toInt (x + y) := by
  unfold toInt
  omega

/-- Along a run, the `k`-th pid `allocpid` returns is `nextpid + k` as an `int`, and the pids in
use stay distinct while no `nextpid + 1` overflows. -/
theorem run_pids : ∀ {s s' : Sys} {es : List Ev}, s.core.Inv → s.run es = .ok s' →
    toInt s.nextpid = s.nextpid →
    s.pids es = (List.range (s.pids es).length).map (fun k : Nat => toInt (s.nextpid + k)) ∧
    s'.nextpid = toInt (s.nextpid + (s.pids es).length) ∧
    (PidInv s.proc s.nextpid → s.nextpid + (s.pids es).length < 2 ^ 31 →
      PidInv s'.proc s'.nextpid)
  | s, s', [], _, hr, hn => by
    cases hr
    exact ⟨rfl, by simp [Sys.pids, hn], fun h _ => h⟩
  | s, s', e :: es, hI, hr, hn => by
    simp only [Sys.run] at hr
    cases h₁ : s.step e with
    | error => rw [h₁] at hr; cases hr
    | ok s₁ =>
      rw [h₁] at hr
      obtain ⟨hs, hnext⟩ := Sys.step_pids hI h₁
      have hn₁ : toInt s₁.nextpid = s₁.nextpid := by
        rw [hnext]
        split_ifs
        · exact toInt_toInt _
        · exact hn
      obtain ⟨ih₁, ih₂, ih₃⟩ := run_pids (Sys.step_inv hI h₁) hr hn₁
      simp only [Sys.pids, h₁]
      cases ha : s.allocs e with
      | none =>
        simp only [ha, Option.isSome_none, if_false, Bool.false_eq_true] at hnext ⊢
        rw [hnext] at ih₁ ih₂ ih₃
        refine ⟨ih₁, ih₂, fun hP hb => ih₃ ?_ hb⟩
        simpa [ha, hnext] using hP.step (a := none) (by simpa [ha] using hs) nofun
      | some j =>
        simp only [ha, Option.isSome_some, if_true] at hnext ⊢
        rw [hnext] at ih₁ ih₂
        simp only [toInt_toInt_add] at ih₁ ih₂
        refine ⟨?_, ?_, fun hP hb => ?_⟩
        · rw [List.singleton_append, List.length_cons, List.range_succ_eq_map, List.map_cons,
            List.map_map]
          conv_lhs => rw [ih₁]
          refine congrArg₂ List.cons (by simp [hn]) (List.map_congr_left fun k _ => ?_)
          simp only [Function.comp]
          congr 1
          omega
        · rw [ih₂, List.singleton_append, List.length_cons]
          congr 1
          omega
        · simp only [List.singleton_append, List.length_cons] at hb
          have hp₀ := hP.pos
          have h₁P := hP.step (a := some j) (by simpa [ha] using hs) (fun _ => by omega)
          simp only [Option.isSome_some, if_true, ← hnext] at h₁P
          refine ih₃ h₁P ?_
          rw [hnext, Xv6.Mem.toInt_of_lt (by omega) (by omega)]
          omega

/-- After boot, `initproc` holds pid 1, the only pid in use, and `nextpid` is 2. -/
theorem boot_pids {NPROC NCPU : Nat} (h : 0 < NPROC) :
    ((Sys.boot NPROC NCPU).proc (Sys.boot NPROC NCPU).initproc).pid = 1 ∧
    (Sys.boot NPROC NCPU).nextpid = 2 ∧ PidInv (Sys.boot NPROC NCPU).proc 2 := by
  obtain ⟨n, rfl⟩ : ∃ n, NPROC = n + 1 := ⟨NPROC - 1, by omega⟩
  have hs : firstSlot (·.state = .UNUSED) (fun _ => Proc.zero) (n + 1) = some 0 := by
    simp [firstSlot, List.range_succ_eq_map, Proc.zero]
  have hz : ∀ j, j ≠ 0 → ((Sys.boot (n + 1) NCPU).proc j).state = .UNUSED := fun j hj => by
    simp [Sys.boot, userinit, allocproc, hs, Sys.zero, hj]
    rfl
  have h0 : (Sys.boot (n + 1) NCPU).proc 0 = { Proc.zero with
      pid := 1, state := .RUNNABLE, priority := 5, mlfq_level := 0, time_used := 0,
      time_quantum := 1 } := by
    simp [Sys.boot, userinit, allocproc, hs, Sys.zero]
  have hi : (Sys.boot (n + 1) NCPU).initproc = 0 := by
    simp [Sys.boot, userinit, allocproc, hs, Sys.zero]
  refine ⟨by rw [hi, h0], by simp [Sys.boot, userinit, allocproc, hs, Sys.zero, toInt], ⟨by decide,
    fun i hu => ?_, fun i j hi hj _ => ?_⟩⟩
  · rcases eq_or_ne i 0 with rfl | h
    · rw [h0]; decide
    · exact absurd (hz i h) hu
  · by_contra hne
    rcases eq_or_ne i 0 with rfl | h
    · exact hj (hz j (Ne.symm hne))
    · exact hi (hz i h)

/-- Process ids over every run from boot: `allocpid` returns 1 for `initproc`, then `k + 2` as an
`int` at its `k`-th call after boot; while no `nextpid + 1` overflows, the pids it returns are
pairwise distinct and at least 1, and so are the pids of the slots in use. -/
theorem allocpid_distinct {NPROC NCPU : Nat} (hN : 0 < NPROC) {es : List Ev} {s : Sys}
    (hr : (Sys.boot NPROC NCPU).run es = .ok s) :
    ((Sys.boot NPROC NCPU).proc (Sys.boot NPROC NCPU).initproc).pid = 1 ∧
    (Sys.boot NPROC NCPU).pids es =
      (List.range ((Sys.boot NPROC NCPU).pids es).length).map (fun k : Nat => toInt (k + 2)) ∧
    (((Sys.boot NPROC NCPU).pids es).length + 2 < 2 ^ 31 →
      (1 :: (Sys.boot NPROC NCPU).pids es).Nodup ∧ (∀ v ∈ (Sys.boot NPROC NCPU).pids es, 1 ≤ v) ∧
      (∀ i, (s.proc i).state ≠ .UNUSED → 1 ≤ (s.proc i).pid) ∧
      ∀ i j, (s.proc i).state ≠ .UNUSED → (s.proc j).state ≠ .UNUSED →
        (s.proc i).pid = (s.proc j).pid → i = j) := by
  obtain ⟨hinit, hnext, hP⟩ := @boot_pids _ NCPU hN
  obtain ⟨h₁, -, h₃⟩ := run_pids (Sys.boot_inv hN) hr (by rw [hnext]; rfl)
  rw [hnext] at h₁ h₃
  have hmap : ∀ k : Nat, toInt ((2 : Int) + k) = toInt (k + 2) := fun k => by rw [Int.add_comm]
  simp only [hmap] at h₁
  refine ⟨hinit, h₁, fun hb => ?_⟩
  -- below the bound every value is its own `int`
  have hid : ∀ k ∈ List.range ((Sys.boot NPROC NCPU).pids es).length, toInt ((k : Int) + 2) = k + 2 :=
    fun k hk => Xv6.Mem.toInt_of_lt (by omega) (by have := List.mem_range.1 hk; omega)
  rw [List.map_congr_left hid] at h₁
  have hP' := h₃ hP (by omega)
  refine ⟨?_, fun v hv => ?_, fun i hi => (hP'.range i hi).1, hP'.inj⟩
  · rw [h₁, List.nodup_cons]
    refine ⟨fun hm => ?_, (List.nodup_range _).map fun a b hab => by omega⟩
    obtain ⟨k, -, hk⟩ := List.mem_map.1 hm
    omega
  · rw [h₁] at hv
    obtain ⟨k, -, rfl⟩ := List.mem_map.1 hv
    omega

/-- `initproc` runs and forks once on `Sys.boot 2 1`: the child takes pid 2. -/
theorem allocpid_distinct_fork : ∃ s, (0 < 2 ∧ (Sys.boot 2 1).run
      [.cpu 0 .yield true, .cpu 0 .yield true, .cpu 0 .fork true] = .ok s) ∧
    ((Sys.boot 2 1).proc (Sys.boot 2 1).initproc).pid = 1 ∧
    (Sys.boot 2 1).pids [.cpu 0 .yield true, .cpu 0 .yield true, .cpu 0 .fork true] =
      (List.range ((Sys.boot 2 1).pids
        [.cpu 0 .yield true, .cpu 0 .yield true, .cpu 0 .fork true]).length).map
        (fun k : Nat => toInt (k + 2)) ∧
    (((Sys.boot 2 1).pids [.cpu 0 .yield true, .cpu 0 .yield true, .cpu 0 .fork true]).length + 2 <
        2 ^ 31 →
      (1 :: (Sys.boot 2 1).pids [.cpu 0 .yield true, .cpu 0 .yield true, .cpu 0 .fork true]).Nodup ∧
      (∀ v ∈ (Sys.boot 2 1).pids [.cpu 0 .yield true, .cpu 0 .yield true, .cpu 0 .fork true],
        1 ≤ v) ∧
      (∀ i, (s.proc i).state ≠ .UNUSED → 1 ≤ (s.proc i).pid) ∧
      ∀ i j, (s.proc i).state ≠ .UNUSED → (s.proc j).state ≠ .UNUSED →
        (s.proc i).pid = (s.proc j).pid → i = j) :=
  ⟨_, ⟨by decide, rfl⟩, allocpid_distinct (by decide) rfl⟩

example : (Sys.boot 2 1).pids [.cpu 0 .yield true, .cpu 0 .yield true, .cpu 0 .fork true] = [2] :=
  rfl

/-! ## The `int` wraps -/

theorem Sys.run_append (s : Sys) (es es' : List Ev) :
    s.run (es ++ es') = match s.run es with | .ok t => t.run es' | .error h => .error h := by
  induction es generalizing s with
  | nil => rfl
  | cons e es ih =>
    simp only [List.cons_append, Sys.run]
    cases s.step e with
    | ok t => exact ih t
    | error h => rfl

/-- A `fork` whose copy of the parent's memory fails, over a free slot already in the shape
`freeproc` leaves and with -1 already in `a0`, only spends a pid. -/
theorem Sys.forkAlloc_spent {s : Sys} {p j : Nat}
    (hf : firstSlot (·.state = .UNUSED) s.proc s.NPROC = some j)
    (hj : freeproc { s.proc j with
      pid := s.nextpid, state := .USED, priority := 5, mlfq_level := 0, time_used := 0,
      time_quantum := 1 } = s.proc j)
    (hk : s.code p = .user) (ha : s.a0 p = -1) :
    s.forkAlloc p false = { s with nextpid := toInt (s.nextpid + 1) } := by
  simp only [Sys.forkAlloc, allocproc, hf, Bool.false_eq_true, if_false, Sys.ret, Sys.setCode,
    (Function.update_eq_self_iff (f := s.proc)).2 hj,
    (Function.update_eq_self_iff (f := s.code)).2 hk.symm,
    (Function.update_eq_self_iff (f := s.a0)).2 ha.symm]

/-- `initproc` running in user space on the one CPU of `Sys.boot 2 1`, after a `fork` whose copy
failed: slot 1 taken and given back, pid 2 spent. -/
def spun : Sys :=
  match (Sys.boot 2 1).run [.cpu 0 .yield true, .cpu 0 .yield true, .cpu 0 .fork false] with
  | .ok s => s
  | .error _ => Sys.boot 2 1

theorem spun_fork (v : Int) :
    { spun with nextpid := v }.step (.cpu 0 .fork false) =
      .ok { spun with nextpid := toInt (v + 1) } := by
  have hf : firstSlot (·.state = .UNUSED) spun.proc 2 = some 1 := by decide
  exact congrArg Except.ok (Sys.forkAlloc_spent (s := { spun with nextpid := v }) hf rfl rfl rfl)

/-- Failing `fork`s spend one pid each. -/
theorem spun_run (n : Nat) (w : Int) :
    { spun with nextpid := toInt w }.run (List.replicate n (.cpu 0 .fork false)) =
      .ok { spun with nextpid := toInt (w + n) } := by
  induction n generalizing w with
  | zero => simp [Sys.run]
  | succ n ih =>
    rw [List.replicate_succ, Sys.run, spun_fork]
    dsimp only
    rw [toInt_toInt_add, ih, show w + 1 + (n : Int) = w + ((n + 1 : Nat) : Int) by omega]

theorem boot_spin (n : Nat) :
    (Sys.boot 2 1).run ([.cpu 0 .yield true, .cpu 0 .yield true] ++
      List.replicate (n + 1) (.cpu 0 .fork false)) = .ok { spun with nextpid := toInt (3 + n) } := by
  rw [List.replicate_succ, List.append_cons, Sys.run_append]
  exact spun_run n 3

/-- `nextpid` wraps. On `Sys.boot 2 1`, `initproc` (pid 1) runs and calls `fork` `2 ^ 32 - 2`
times with a failing copy, each spending a pid; the next `fork` gives slot 1 pid 0. After one more
failing `fork`, the next gives slot 1 pid 1, which `initproc` holds. -/
theorem pid_reissued :
    (∃ s, (Sys.boot 2 1).run ([.cpu 0 .yield true, .cpu 0 .yield true] ++
        List.replicate (2 ^ 32 - 2) (.cpu 0 .fork false) ++ [.cpu 0 .fork true]) = .ok s ∧
      (s.proc 1).state = .USED ∧ (s.proc 1).pid = 0) ∧
    ∃ s, (Sys.boot 2 1).run ([.cpu 0 .yield true, .cpu 0 .yield true] ++
        List.replicate (2 ^ 32 - 1) (.cpu 0 .fork false) ++ [.cpu 0 .fork true]) = .ok s ∧
      (s.proc 0).state = .RUNNING ∧ (s.proc 0).pid = 1 ∧
      (s.proc 1).state = .USED ∧ (s.proc 1).pid = 1 := by
  have spin : ∀ n : Nat, (Sys.boot 2 1).run ([.cpu 0 .yield true, .cpu 0 .yield true] ++
      List.replicate (n + 1) (.cpu 0 .fork false) ++ [.cpu 0 .fork true]) =
      .ok ({ spun with nextpid := toInt (3 + n) }.forkAlloc 0 true) := fun n => by
    rw [Sys.run_append, boot_spin]
    rfl
  rw [show 2 ^ 32 - 2 = (2 ^ 32 - 3) + 1 by decide, show 2 ^ 32 - 1 = (2 ^ 32 - 2) + 1 by decide,
    spin, spin, show toInt (3 + ((2 ^ 32 - 3 : Nat) : Int)) = 0 by decide,
    show toInt (3 + ((2 ^ 32 - 2 : Nat) : Int)) = 1 by decide]
  exact ⟨⟨_, rfl, by decide⟩, _, rfl, by decide⟩

end Xv6.Process
