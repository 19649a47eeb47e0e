import Xv6Kernel.Proc.Sched

/-!
# Sleep and wakeup

A sleeper tests its condition holding the lock `lk` that guards it, and, if it must wait, calls
`sleep(chan, lk)`, which gives up `lk` and marks it `SLEEPING` in one step under `p->lock`; a
waker changes the condition holding `lk` and calls `wakeup(chan)`. The model keeps a count of the
`wakeup(chan)` calls (`Sys.wakeups`). No wakeup is lost (`no_lost_wakeup`): while a thread stands
between its test and its `sleep` (`.sleepOn chan lk k`) no step calls `wakeup(chan)`
(`step_wakeups_of_sleepOn`: the waker would hold `lk` too), and a step that calls `wakeup(chan)`
leaves no process sleeping on `chan` (`step_wakeup_clears`).

`sched` panics with `"sched locks"` unless the CPU holds `p->lock` alone. `yield`, `kexit` and
`kfork` call it holding nothing else; `sleep` does when the sleeper held no lock but the one it
gives up (`step_eq_sched_locks_iff`). `cond_wait` breaks this: it calls `mutex_lock` holding the
condition's spinlock, and a contended mutex makes it sleep there (`cond_wait_sched_locks`).
-/

namespace Xv6.Process

/-- The slot sleeps on `chan`. -/
def Proc.sleepsOn (x : Proc) (chan : Chan) : Prop := x.state = .SLEEPING ∧ x.chan = chan

/-- After `wakeup(chan)` by `self` no slot sleeps on `chan`, but for `self` and the slots past
`n`, which it does not look at. -/
theorem wakeup_clears {tab : Nat → Proc} {n : Nat} {self : Option Nat} {ch : Chan}
    (h : ∀ i, some i = self ∨ n ≤ i → ¬(tab i).sleepsOn ch) (i : Nat) :
    ¬(wakeup tab n self ch i).sleepsOn ch := by
  unfold wakeup Proc.sleepsOn
  split_ifs with hw
  · simp
  · rintro ⟨h₁, h₂⟩
    by_cases hi : some i = self ∨ n ≤ i
    · exact h i hi ⟨h₁, h₂⟩
    · push_neg at hi
      exact hw ⟨hi.2, hi.1, h₁, h₂⟩

/-- `wakeup` puts no slot to sleep. -/
theorem sleepsOn_of_wakeup {tab : Nat → Proc} {n : Nat} {self : Option Nat} {chan ch : Chan}
    {i : Nat} (h : (wakeup tab n self chan i).sleepsOn ch) : (tab i).sleepsOn ch := by
  unfold wakeup at h
  split_ifs at h
  · simp [Proc.sleepsOn] at h
  · exact h

/-- `reparent` leaves the state of every slot that does not sleep. -/
theorem reparent_state_of_ne {tab : Nat → Proc} {n p init i : Nat}
    (hi : (tab i).state ≠ .SLEEPING) : (reparent tab n p init i).state = (tab i).state := by
  have hs : ((fun j => if j < n ∧ (tab j).parent = some p then { tab j with parent := some init }
      else tab j) i).state = (tab i).state := by
    dsimp only; split_ifs <;> rfl
  rw [(reparent_wakes tab n p init).state_of_ne (hs ▸ hi), hs]

namespace Sys

variable {s s' : Sys} {c p : Nat} {ok : Bool}

theorem wakeups_eq_of_core {t : Sys} (h : s.core = t.core) : s.wakeups = t.wakeups :=
  congrArg Core.wakeups h

/-- A thread at `.sleepOn chan lk k` holds `lk`, the lock of `chan`. -/
theorem sleepOn_holds (hI : s.core.Inv) {q : Nat} {ch : Chan} {lk : Lock} {k : Code}
    (hq : s.code q = .sleepOn ch lk k) : ch.lock = some lk ∧ lk ∈ (s.code q).holds := by
  have hw := hI.wf q
  simp only [core_code, hq, Code.wf] at hw
  simp only [hq, Code.holds]
  exact ⟨hw.1, hw.2.1⟩

/-- Neither a running process nor a slot past `NPROC` sleeps. -/
theorem awake_of_running (hI : s.core.Inv) (self : Option Nat)
    (hs : ∀ j, some j = self → (s.proc j).state = .RUNNING) :
    ∀ j, some j = self ∨ s.NPROC ≤ j → (s.proc j).state ≠ .SLEEPING := by
  rintro j (hj | hj)
  · simp [hs j hj]
  · have hu : (s.proc j).state = .UNUSED := (hI.outside j hj).1
    simp [hu]

/-! ## The steps that call `wakeup` -/

section Counts

theorem yield_wakeups (h : s.yield c p = .ok s') : s'.wakeups = s.wakeups := by
  simp only [yield, sched, Code.holds, List.length_nil, Nat.zero_add, ne_eq, not_true_eq_false,
    if_false, Except.ok.injEq] at h
  subst h
  rfl

theorem sleep_wakeups {chan : Chan} {lk : Lock} {k : Code} (h : s.sleep c p chan lk k = .ok s') :
    s'.wakeups = s.wakeups := by
  simp only [sleep, sched] at h
  split at h <;> cases h
  rfl

theorem forkStart_wakeups {np : Nat} (h : s.forkStart c p np = .ok s') : s'.wakeups = s.wakeups := by
  simp only [forkStart] at h
  split_ifs at h <;> cases h <;> rfl

theorem forkAlloc_wakeups : (s.forkAlloc p ok).wakeups = s.wakeups := by
  unfold forkAlloc; split <;> rfl

theorem schedule_wakeups : (s.schedule c).wakeups = s.wakeups := by
  unfold schedule resume
  split
  · rfl
  split
  · split <;> rfl
  · rfl

/-- `kexit` calls `wakeup` on the parent's channel and, through `reparent`, on `initproc`'s:
channels whose lock is `wait_lock`, or `null`. -/
theorem exitBody_wakeups {st : Int} (h : s.exitBody c p st = .ok s') {ch : Chan} {lk : Lock}
    (hch : ch.lock = some lk) (hlk : lk ≠ .wait_lock) : s'.wakeups ch = s.wakeups ch := by
  simp only [exitBody, sched, Code.holds, List.length_nil, Nat.zero_add, ne_eq, not_true_eq_false,
    if_false, Except.ok.injEq] at h
  subst h
  have hp : ∀ i, ch ≠ .proc i := by rintro i rfl; exact hlk (Option.some.inj hch).symm
  have hn : ch ≠ .null := by rintro rfl; cases hch
  simp only [setProc, sched, setCode, setCpu, wake]
  rw [Function.update_noteq (by split <;> simp [hp, hn]), Function.update_noteq (hp _)]

/-- A step of a process changes the counts of `wakeup` calls only by `wakeup(chan)` on a channel
whose lock it holds, or in `kexit`. -/
theorem exec_wakeups {call : Call} (he : s.exec c p call ok = .ok s') :
    s'.wakeups = s.wakeups ∨
    (∃ chan k, (∀ l, chan.lock = some l → l ∈ (s.code p).holds) ∧
      s'.core = ((s.wake (some p) chan).setCode p k).core) ∨
    ∃ st, s.code p = .exitBody st ∧ s.exitBody c p st = .ok s' := by
  cases exec_effect he with
  | wake _ hl h => exact .inr (.inl ⟨_, _, hl, h⟩)
  | exit hk h => exact .inr (.inr ⟨_, hk, h⟩)
  | move _ h | kill _ h | select _ h | exitCall _ _ h | priority _ _ h | fork _ h | reap _ _ h =>
    left
    rw [wakeups_eq_of_core h]
    first
    | rfl
    | exact forkAlloc_wakeups
  | acquire | idle | link => exact .inl rfl
  | yield _ h => exact .inl (yield_wakeups h)
  | sleep _ h => exact .inl (sleep_wakeups h)
  | start _ h => exact .inl (forkStart_wakeups h)

end Counts

/-! ## No `wakeup(chan)` while a sleeper is between its test and `sleep` -/

/-- A step of a running process calls no `wakeup(chan)` while some thread is at
`.sleepOn chan lk k`: a waker holds `lk`, which the sleeper holds. -/
theorem exec_wakeups_of_sleepOn (hI : s.core.Inv) {call : Call} (he : s.exec c p call ok = .ok s')
    {q : Nat} {ch : Chan} {lk : Lock} {k : Code} (hq : s.code q = .sleepOn ch lk k) :
    s'.wakeups ch = s.wakeups ch := by
  obtain ⟨hch, hlq⟩ := sleepOn_holds hI hq
  by_cases hpq : p = q
  · subst hpq
    simp only [exec, hq] at he
    rw [sleep_wakeups he]
  have hlp : lk ∉ (s.code p).holds := fun hl => hpq (hI.excl p q lk hl hlq)
  rcases exec_wakeups he with hw | ⟨chan, k, hl, h⟩ | ⟨st, hk, h⟩
  · rw [hw]
  · rw [wakeups_eq_of_core h]
    refine Function.update_noteq ?_ _ _
    rintro rfl
    exact hlp (hl lk hch)
  · exact exitBody_wakeups h hch fun e => hlp (by simp [hk, Code.holds, e])

/-- No step calls `wakeup(chan)` while some thread is at `.sleepOn chan lk k`. -/
theorem step_wakeups_of_sleepOn (hI : s.core.Inv) {e : Ev} (h : s.step e = .ok s') {q : Nat}
    {ch : Chan} {lk : Lock} {k : Code} (hq : s.code q = .sleepOn ch lk k) :
    s'.wakeups ch = s.wakeups ch := by
  cases e with
  | cpu c call ok =>
    simp only [step] at h
    split at h
    · split at h
      · exact exec_wakeups_of_sleepOn hI h hq
      · cases h; rw [schedule_wakeups]
    · cases h; rfl
  | tick =>
    simp only [step] at h
    split at h <;> cases h
    · rename_i hfree
      refine Function.update_noteq ?_ _ _
      rintro rfl
      obtain ⟨hch, hlq⟩ := sleepOn_holds hI hq
      cases hch
      exact holder_eq_none hI hfree q hlq
    · rfl

/-! ## After `wakeup(chan)` no process sleeps on `chan` -/

/-- `kexit` of a running process leaves no process sleeping on a channel it calls `wakeup` on. -/
theorem exitBody_clears (hI : s.core.Inv) (hr : (s.proc p).state = .RUNNING) {st : Int}
    (h : s.exitBody c p st = .ok s') {ch : Chan} (hne : s'.wakeups ch ≠ s.wakeups ch) (i : Nat) :
    ¬(s'.proc i).sleepsOn ch := by
  simp only [exitBody, sched, Code.holds, List.length_nil, Nat.zero_add, ne_eq, not_true_eq_false,
    if_false, Except.ok.injEq] at h
  subst h
  -- `p` and the slots past `NPROC` do not sleep, before `reparent` and after it
  have awake := awake_of_running hI (some p) fun j hj => by cases hj; exact hr
  have quiet : ∀ j, some j = some p ∨ s.NPROC ≤ j →
      ¬(reparent s.proc s.NPROC p s.initproc j).sleepsOn ch := fun j hj ⟨h₁, _⟩ =>
    awake j hj (by rwa [reparent_state_of_ne (awake j hj)] at h₁)
  simp only [setProc, setCode, setCpu, wake] at hne ⊢
  rcases eq_or_ne i p with rfl | hip
  · simp [Proc.sleepsOn]
  rw [Function.update_noteq hip]
  rw [Function.update_apply] at hne
  split_ifs at hne with hc
  · rw [hc] at quiet ⊢
    exact wakeup_clears quiet i
  · -- the count moved at `initproc`'s channel: `reparent` found children and woke it
    intro hs
    have hinit : ch = .proc s.initproc := by
      by_contra hi
      exact hne (Function.update_noteq hi _ _)
    subst hinit
    have hkids : children s.proc s.NPROC p ≠ [] := fun hk => hne (by simp [hk])
    have hs' := sleepsOn_of_wakeup hs
    simp only [reparent, hkids, if_false] at hs'
    refine wakeup_clears (fun j hj ⟨h₁, _⟩ => awake j hj ?_) i hs'
    split_ifs at h₁ <;> exact h₁

/-- A step of a running process that calls `wakeup(chan)` leaves no process sleeping on
`chan`. -/
theorem exec_wakeup_clears (hI : s.core.Inv) (hc : (s.cpus c).proc = some p) {call : Call}
    (he : s.exec c p call ok = .ok s') {ch : Chan} (hne : s'.wakeups ch ≠ s.wakeups ch)
    (i : Nat) : ¬(s'.proc i).sleepsOn ch := by
  have hr : (s.proc p).state = .RUNNING := hI.running c p hc
  rcases exec_wakeups he with hw | ⟨chan, k, -, h⟩ | ⟨st, -, h⟩
  · exact absurd (congrFun hw ch) hne
  · rw [wakeups_eq_of_core h] at hne
    rw [proc_eq_of_core h]
    have hch : ch = chan := by
      by_contra hn
      exact hne (Function.update_noteq hn _ _)
    subst hch
    have awake := awake_of_running hI (some p) fun j hj => by cases hj; exact hr
    exact wakeup_clears (fun j hj h' => awake j hj h'.1) i
  · exact exitBody_clears hI hr h hne i

/-- A step that calls `wakeup(chan)` leaves no process sleeping on `chan`. -/
theorem step_wakeup_clears (hI : s.core.Inv) {e : Ev} (h : s.step e = .ok s') {ch : Chan}
    (hne : s'.wakeups ch ≠ s.wakeups ch) (i : Nat) : ¬(s'.proc i).sleepsOn ch := by
  cases e with
  | cpu c call ok =>
    simp only [step] at h
    split at h
    · split at h
      · exact exec_wakeup_clears hI ‹_› h hne i
      · cases h; exact absurd (by rw [schedule_wakeups]) hne
    · cases h; exact absurd rfl hne
  | tick =>
    simp only [step] at h
    split at h <;> cases h
    · have hch : ch = .ticks := by
        by_contra hn
        exact hne (Function.update_noteq hn _ _)
      subst hch
      have awake := awake_of_running hI none fun j hj => by cases hj
      exact wakeup_clears (fun j hj h' => awake j hj h'.1) i
    · exact absurd rfl hne

/-! ## `sched` with one spinlock held -/

section SchedLocks

theorem yield_ne_error {x : Fs.Stop} : s.yield c p ≠ .error x := by
  simp [yield, sched, Code.holds]

theorem syscall_ne_sched_locks {call : Call} :
    s.syscall c p ok call ≠ .error (.panic "sched locks") := by
  cases call <;> simp only [syscall] <;> (try split_ifs) <;> (try split) <;> simp [yield_ne_error]

/-- Of the calls of `sched`, `yield`'s, `kexit`'s and `kfork`'s hold no spinlock but `p->lock`: a
step of a process panics in `sched` exactly when it is `sleep` called holding a spinlock besides
the one it gives up. -/
theorem exec_eq_sched_locks_iff {call : Call} :
    s.exec c p call ok = .error (.panic "sched locks") ↔
      ∃ chan lk k, s.code p = .sleepOn chan lk k ∧ k.holds.erase lk ≠ [] := by
  cases hk : s.code p <;> simp only [exec, hk]
  case user => simp [syscall_ne_sched_locks]
  case sleepOn chan lk k =>
    simp only [sleep, sched, Code.holds]
    split_ifs with h
    · exact iff_of_true rfl ⟨chan, lk, k, rfl, fun e => h (by simp [e])⟩
    · refine iff_of_false (by simp) fun ⟨_, _, _, e, h'⟩ => ?_
      cases e
      exact h' (List.length_eq_zero.1 (by omega))
  all_goals refine iff_of_false ?_ (by simp)
  case acquire => unfold acquire; split_ifs <;> simp
  case forkStart np => simp only [forkStart]; split_ifs <;> simp [yield_ne_error]
  case exitBody st => simp [exitBody, sched, Code.holds]
  all_goals (try split_ifs) <;> (try split) <;> simp

/-- A step panics in `sched` exactly when a process on a CPU is at `.sleepOn chan lk k` holding a
spinlock besides `lk`. -/
theorem step_eq_sched_locks_iff {e : Ev} :
    s.step e = .error (.panic "sched locks") ↔
      ∃ c call ok p chan lk k, e = .cpu c call ok ∧ c < s.NCPU ∧ (s.cpus c).proc = some p ∧
        s.code p = .sleepOn chan lk k ∧ k.holds.erase lk ≠ [] := by
  cases e with
  | cpu c call ok =>
    simp only [step]
    split_ifs with hc
    · split
      · rename_i p hp
        rw [exec_eq_sched_locks_iff]
        constructor
        · rintro ⟨chan, lk, k, hk, h⟩
          exact ⟨c, call, ok, p, chan, lk, k, rfl, hc, hp, hk, h⟩
        · rintro ⟨_, _, _, q, chan, lk, k, he, -, hq, hk, h⟩
          cases he
          cases hp.symm.trans hq
          exact ⟨chan, lk, k, hk, h⟩
      · rename_i hp
        refine iff_of_false (by simp) fun ⟨_, _, _, q, _, _, _, he, _, hq, _⟩ => ?_
        cases he
        simp [hp] at hq
    · refine iff_of_false (by simp) fun ⟨_, _, _, _, _, _, _, he, hc', _⟩ => ?_
      cases he
      exact hc hc'
  | tick =>
    simp only [step]
    exact iff_of_false (by split <;> simp) fun ⟨_, _, _, _, _, _, _, he, _⟩ => by cases he

/-- Two processes on two CPUs: slot 1 takes mutex 0 and waits on condition 0, which gives the
mutex up; `initproc` takes the mutex and signals; slot 1, woken, takes the condition's lock
again and calls `mutex_lock(0)` holding it, finds the mutex taken, and sleeps holding the
condition's spinlock: `sched` panics. -/
theorem cond_wait_sched_locks : (Sys.boot 2 2).run
    [.cpu 0 .yield true, .cpu 0 .yield true, .cpu 0 .fork true, .cpu 0 .yield true,
      .cpu 0 .yield true, .cpu 0 .yield true, .cpu 1 .yield true, .cpu 1 .yield true,
      .cpu 1 (.mutex_lock 0) true, .cpu 1 .yield true, .cpu 1 .yield true,
      .cpu 1 (.cond_wait 0 0) true, .cpu 1 .yield true, .cpu 1 .yield true, .cpu 1 .yield true,
      .cpu 1 .yield true, .cpu 1 .yield true,
      .cpu 0 (.mutex_lock 0) true, .cpu 0 .yield true, .cpu 0 .yield true,
      .cpu 0 (.cond_signal 0) true, .cpu 0 .yield true, .cpu 0 .yield true,
      .cpu 1 .yield true, .cpu 1 .yield true, .cpu 1 .yield true, .cpu 1 .yield true,
      .cpu 1 .yield true, .cpu 1 .yield true, .cpu 1 .yield true] =
    .error (.panic "sched locks") :=
  rfl

end SchedLocks

end Sys

/-- No wakeup is lost: from every reachable state, while a thread stands between its test and
`sleep(chan, lk)`, holding `lk`, no step calls `wakeup(chan)`; and a step that calls `wakeup(chan)`
leaves no process sleeping on `chan`. -/
theorem no_lost_wakeup {s : Sys} (hr : s.Reach) (ch : Chan) :
    ∀ e s', s.step e = .ok s' →
      ((∃ q lk k, s.code q = .sleepOn ch lk k) → s'.wakeups ch = s.wakeups ch) ∧
      (s'.wakeups ch ≠ s.wakeups ch → ∀ i, ¬(s'.proc i).sleepsOn ch) :=
  fun _ _ h => ⟨fun ⟨_, _, _, hq⟩ => Sys.step_wakeups_of_sleepOn hr.inv h hq,
    fun hne => Sys.step_wakeup_clears hr.inv h hne⟩

theorem no_lost_wakeup_boot : (Sys.boot 2 1).Reach ∧
    ∀ e s', (Sys.boot 2 1).step e = .ok s' →
      ((∃ q lk k, (Sys.boot 2 1).code q = .sleepOn .ticks lk k) →
        s'.wakeups .ticks = (Sys.boot 2 1).wakeups .ticks) ∧
      (s'.wakeups .ticks ≠ (Sys.boot 2 1).wakeups .ticks → ∀ i, ¬(s'.proc i).sleepsOn .ticks) :=
  ⟨.boot (by decide), no_lost_wakeup (.boot (by decide)) .ticks⟩

end Xv6.Process
