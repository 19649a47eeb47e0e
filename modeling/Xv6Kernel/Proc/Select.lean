import Xv6Kernel.Proc.Machine

/-!
# The selectors

What `select_next_proc()` returns, under each of the three selectors of `scheduler_ext.c` and
`proc.c`.

* `priority_selection`: `priority_scheduler` keeps the first `RUNNABLE` slot of strictly higher
  priority than the best so far, which starts at -1. With every priority at least 0 it returns
  none exactly when no slot is `RUNNABLE`, and otherwise the `RUNNABLE` slot of highest priority,
  the lowest such slot on a tie.
* `mlfq_scheduler_none`: under the queue-membership invariant (`QueueInv`) `mlfq_scheduler`
  returns none only when no slot is `RUNNABLE`. It returns the head of the first non-empty queue
  without looking at its state, and a process stays in its queue while it runs: on two CPUs the
  head runs on one CPU while the other selects it round after round, and the `RUNNABLE` process
  queued behind it waits (`mlfq_head_running`).
* `default_round_robin_least`: `default_round_robin` returns the lowest `RUNNABLE` slot. Its scan
  starts at slot 0 on every call, so on one CPU a process that yields is selected again while a
  higher slot waits (`round_robin_reselects`).
-/

namespace Xv6.Process

/-! ## `priority_scheduler` -/

/-- What the loop of `priority_scheduler` holds after slots `0 .. n - 1`: no choice and best
priority -1, every `RUNNABLE` slot of priority at most -1; or the choice `i`, `RUNNABLE`, whose
priority is the best, at least that of every `RUNNABLE` slot and above that of every `RUNNABLE`
slot before `i`. -/
def PrioBest (tab : Nat → Proc) (n : Nat) (b : Option Nat × Int) : Prop :=
  (b.1 = none ∧ b.2 = -1 ∧ ∀ j < n, (tab j).state = .RUNNABLE → (tab j).priority ≤ -1) ∨
  ∃ i, b.1 = some i ∧ i < n ∧ (tab i).state = .RUNNABLE ∧ b.2 = (tab i).priority ∧
    (∀ j < n, (tab j).state = .RUNNABLE → (tab j).priority ≤ b.2) ∧
    (∀ j < i, (tab j).state = .RUNNABLE → (tab j).priority < b.2)

/-- The loop of `priority_scheduler` over slots `0 .. n - 1`. -/
theorem priority_scheduler_loop (tab : Nat → Proc) (n : Nat) :
    PrioBest tab n ((List.range n).foldl (fun (best : Option Nat × Int) i =>
      if (tab i).state = .RUNNABLE ∧ best.2 < (tab i).priority then (some i, (tab i).priority)
      else best) (none, -1)) := by
  induction n with
  | zero => exact .inl ⟨rfl, rfl, fun j hj => absurd hj (Nat.not_lt_zero j)⟩
  | succ n ih =>
    rw [List.range_succ, List.foldl_append, List.foldl_cons, List.foldl_nil]
    generalize (List.range n).foldl _ _ = b at ih ⊢
    split_ifs with hn
    · -- slot `n` beats the best so far
      refine .inr ⟨n, rfl, Nat.lt_succ_self n, hn.1, rfl, fun j hj hr => ?_, fun j hj hr => ?_⟩
      · rcases Nat.lt_succ_iff_lt_or_eq.1 hj with hj | rfl
        · rcases ih with ⟨-, hb, hle⟩ | ⟨i, -, -, -, -, hle, -⟩
          · have := hle j hj hr; omega
          · have := hle j hj hr; omega
        · exact le_rfl
      · rcases ih with ⟨-, hb, hle⟩ | ⟨i, -, -, -, -, hle, -⟩
        · have := hle j hj hr; omega
        · have := hle j hj hr; omega
    · -- the best so far stays
      have hn' : (tab n).state = .RUNNABLE → (tab n).priority ≤ b.2 := fun hr => by
        by_contra hc; exact hn ⟨hr, by omega⟩
      rcases ih with ⟨h1, h2, hle⟩ | ⟨i, h1, hi, hr, h2, hle, hlt⟩
      · refine .inl ⟨h1, h2, fun j hj hr => ?_⟩
        rcases Nat.lt_succ_iff_lt_or_eq.1 hj with hj | rfl
        · exact hle j hj hr
        · rw [← h2]; exact hn' hr
      · refine .inr ⟨i, h1, Nat.lt_succ_of_lt hi, hr, h2, fun j hj hr' => ?_, hlt⟩
        rcases Nat.lt_succ_iff_lt_or_eq.1 hj with hj | rfl
        · exact hle j hj hr'
        · exact hn' hr'

/-- Priority selection: when every priority is at least 0 (`allocproc` gives 5 and
`sys_setpriority` accepts 0 to 9), `priority_scheduler` returns none exactly when no slot is
`RUNNABLE`, and otherwise a `RUNNABLE` slot whose priority is the highest of every `RUNNABLE`
slot and above that of every `RUNNABLE` slot before it. -/
theorem priority_selection {tab : Nat → Proc} {n : Nat}
    (hp : ∀ j < n, 0 ≤ (tab j).priority ∧ (tab j).priority ≤ 9) :
    (priority_scheduler tab n = none ↔ ∀ j < n, (tab j).state ≠ .RUNNABLE) ∧
    ∀ i, priority_scheduler tab n = some i → i < n ∧ (tab i).state = .RUNNABLE ∧
      (∀ j < n, (tab j).state = .RUNNABLE → (tab j).priority ≤ (tab i).priority) ∧
      (∀ j < i, (tab j).state = .RUNNABLE → (tab j).priority < (tab i).priority) := by
  unfold priority_scheduler
  rcases priority_scheduler_loop tab n with ⟨h1, -, hle⟩ | ⟨i, h1, hi, hr, h2, hle, hlt⟩ <;>
    rw [h1]
  · refine ⟨iff_of_true rfl fun j hj hr => ?_, fun _ h => nomatch h⟩
    have := hle j hj hr
    have := (hp j hj).1
    omega
  · refine ⟨iff_of_false nofun fun h => h i hi hr, fun i' h => ?_⟩
    cases h
    rw [← h2]
    exact ⟨hi, hr, hle, hlt⟩

/-- The two slots of `Sys.boot 2 1`: `initproc`, `RUNNABLE` at priority 5, and a free slot. -/
theorem priority_selection_boot :
    (∀ j < 2, 0 ≤ ((Sys.boot 2 1).proc j).priority ∧ ((Sys.boot 2 1).proc j).priority ≤ 9) ∧
    ((priority_scheduler (Sys.boot 2 1).proc 2 = none ↔
        ∀ j < 2, ((Sys.boot 2 1).proc j).state ≠ .RUNNABLE) ∧
      ∀ i, priority_scheduler (Sys.boot 2 1).proc 2 = some i → i < 2 ∧
        ((Sys.boot 2 1).proc i).state = .RUNNABLE ∧
        (∀ j < 2, ((Sys.boot 2 1).proc j).state = .RUNNABLE →
          ((Sys.boot 2 1).proc j).priority ≤ ((Sys.boot 2 1).proc i).priority) ∧
        (∀ j < i, ((Sys.boot 2 1).proc j).state = .RUNNABLE →
          ((Sys.boot 2 1).proc j).priority < ((Sys.boot 2 1).proc i).priority)) :=
  ⟨by decide, priority_selection (by decide)⟩

/-! ## `mlfq_scheduler` -/

/-- The queue-membership invariant of the MLFQ queues over slots `0 .. n - 1`: every `RUNNABLE`
slot has a level of the five and is in the queue of its level and in no other; no queue holds a
slot twice; and a queued slot is one of the `n`, `RUNNABLE` or `RUNNING`. -/
def QueueInv (tab : Nat → Proc) (n : Nat) (queues : Nat → List Nat) : Prop :=
  (∀ p < n, (tab p).state = .RUNNABLE → 0 ≤ (tab p).mlfq_level ∧
      (tab p).mlfq_level < MAX_PRIORITY_LEVELS ∧
      ∀ l < MAX_PRIORITY_LEVELS, (p ∈ queues l ↔ (l : Int) = (tab p).mlfq_level)) ∧
    (∀ l < MAX_PRIORITY_LEVELS, (queues l).Nodup) ∧
    ∀ l < MAX_PRIORITY_LEVELS, ∀ p ∈ queues l,
      p < n ∧ ((tab p).state = .RUNNABLE ∨ (tab p).state = .RUNNING)

instance (tab : Nat → Proc) (n : Nat) (queues : Nat → List Nat) :
    Decidable (QueueInv tab n queues) :=
  inferInstanceAs (Decidable (_ ∧ _ ∧ _))

/-- Under the queue-membership invariant `mlfq_scheduler` returns none only when no slot is
`RUNNABLE`: a `RUNNABLE` slot keeps the queue of its level non-empty. -/
theorem mlfq_scheduler_none {tab : Nat → Proc} {n : Nat} {queues : Nat → List Nat}
    (hq : QueueInv tab n queues) (h : mlfq_scheduler queues = none) :
    ∀ p < n, (tab p).state ≠ .RUNNABLE := by
  intro p hp hr
  obtain ⟨h0, h5, hmem⟩ := hq.1 p hp hr
  have hin : p ∈ queues (tab p).mlfq_level.toNat :=
    (hmem _ (by unfold MAX_PRIORITY_LEVELS at h5 ⊢; omega)).2 (by omega)
  have := List.findSome?_eq_none_iff.1 h (tab p).mlfq_level.toNat
    (List.mem_range.2 (by unfold MAX_PRIORITY_LEVELS at h5 ⊢; omega))
  rw [List.head?_eq_none_iff] at this
  rw [this] at hin
  exact List.not_mem_nil p hin

/-- Two CPUs under MLFQ: `initproc` switches to MLFQ and forks slot 1, which CPU 1 runs; then
`initproc` yields and is queued behind slot 1. The queue-membership invariant holds, but
`mlfq_scheduler` returns slot 1, which is `RUNNING`; CPU 0's `scheduler` finds it not
`RUNNABLE`, goes back to the same state and selects it again, while `initproc` waits
`RUNNABLE`. -/
theorem mlfq_head_running : ∃ s, (Sys.boot 2 2).run
    [.cpu 0 .yield true, .cpu 0 .yield true, .cpu 0 (.set_scheduler 2) true, .cpu 0 .fork true,
      .cpu 0 .yield true, .cpu 0 .yield true, .cpu 0 .yield true, .cpu 1 .yield true,
      .cpu 1 .yield true, .cpu 0 .yield true] = .ok s ∧
    s.select_next_proc = .mlfq_scheduler ∧ QueueInv s.proc s.NPROC s.queues ∧
    (s.proc 0).state = .RUNNABLE ∧ (s.proc 1).state = .RUNNING ∧ (s.cpus 1).proc = some 1 ∧
    s.cpus 0 = ⟨none, none⟩ ∧ mlfq_scheduler s.queues = some 1 ∧
    ∃ s', s.run [.cpu 0 .yield true, .cpu 0 .yield true] = .ok s' ∧ s'.cpus 0 = ⟨none, none⟩ ∧
      s'.proc = s.proc ∧ s'.queues = s.queues ∧ s'.code = s.code :=
  ⟨_, rfl, rfl, by decide, rfl, rfl, rfl, rfl, rfl, _, rfl, rfl, rfl, rfl, rfl⟩

/-! ## `default_round_robin` -/

/-- `default_round_robin` returns the lowest `RUNNABLE` slot. -/
theorem default_round_robin_least {tab : Nat → Proc} {n i : Nat}
    (h : default_round_robin tab n = some i) :
    i < n ∧ (tab i).state = .RUNNABLE ∧ ∀ j < i, (tab j).state ≠ .RUNNABLE := by
  induction n with
  | zero => cases h
  | succ n ih =>
    unfold default_round_robin firstSlot at h ih
    rw [List.range_succ, List.find?_append] at h
    cases hf : (List.range n).find? fun i => decide ((tab i).state = .RUNNABLE) with
    | some i' =>
      rw [hf, Option.or_some] at h
      cases h
      obtain ⟨hi, hr, hlt⟩ := ih hf
      exact ⟨Nat.lt_succ_of_lt hi, hr, hlt⟩
    | none =>
      rw [hf, Option.none_or] at h
      have hi := List.find?_some h
      obtain rfl := List.mem_singleton.1 (List.mem_of_find?_eq_some h)
      refine ⟨Nat.lt_succ_self _, by simpa using hi, fun j hj hr => ?_⟩
      have := List.find?_eq_none.1 hf j (List.mem_range.2 hj)
      simp [hr] at this

/-- One CPU under round robin: `initproc` forks slot 1 and yields, so both are `RUNNABLE` and
the CPU is free. The scheduler selects slot 0, runs it, and slot 0 yields back; the next
iteration selects slot 0 again, while slot 1 waits. -/
theorem round_robin_reselects : ∃ s, (Sys.boot 2 1).run
    [.cpu 0 .yield true, .cpu 0 .yield true, .cpu 0 .fork true, .cpu 0 .yield true,
      .cpu 0 .yield true, .cpu 0 .yield true, .cpu 0 .yield true] = .ok s ∧
    s.select_next_proc = .default_round_robin ∧ (s.proc 0).state = .RUNNABLE ∧
    (s.proc 1).state = .RUNNABLE ∧ s.cpus 0 = ⟨none, none⟩ ∧
    ∃ s₁, s.run [.cpu 0 .yield true] = .ok s₁ ∧ (s₁.cpus 0).cand = some 0 ∧
    ∃ s₂, s₁.run [.cpu 0 .yield true, .cpu 0 .yield true] = .ok s₂ ∧
      (s₂.proc 0).state = .RUNNABLE ∧ (s₂.proc 1).state = .RUNNABLE ∧ s₂.cpus 0 = ⟨none, none⟩ ∧
    ∃ s₃, s₂.run [.cpu 0 .yield true] = .ok s₃ ∧ (s₃.cpus 0).cand = some 0 :=
  ⟨_, rfl, rfl, rfl, rfl, rfl, _, rfl, rfl, _, rfl, rfl, rfl, rfl, _, rfl, rfl⟩

end Xv6.Process
