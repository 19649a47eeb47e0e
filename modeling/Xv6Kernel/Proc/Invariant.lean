import Xv6Kernel.Proc.Steps

/-!
# The invariant of the process machine

`Core.Inv` is what holds in every state the machine reaches from boot (`Sys.Reach.inv`):

* a process on a CPU is `RUNNING` and on that CPU only, and a thread inside the kernel is on a
  CPU;
* no spinlock is held by two threads, and every `sleep` is made holding the lock that guards its
  channel;
* the child of a `kfork` is `USED` until its parent makes it `RUNNABLE`, and has that one parent
  making it; after `np->parent = p` its parent pointer is `p`;
* a free slot holds no pid, parent or exit status;
* `initproc` is alive and never in `kexit`, and every other slot in use has a live parent, but
  for the child of a `kfork` before `np->parent = p`.

Each kind of step has its lemma here, over the core a step of that kind leaves (`Sys.Effect`);
`exec_inv` puts them together.
-/

namespace Xv6.Process

/-- A slot in use by a process that has not exited. -/
def Proc.alive (x : Proc) : Prop := x.state ≠ .UNUSED ∧ x.state ≠ .ZOMBIE

/-- The child of a `kfork` after `np->parent = p`. -/
def Code.linked : Code → Option Nat
  | .acquire _ k => k.linked
  | .forkStart np => some np
  | _ => none

theorem Code.forking_of_linked {κ : Code} {np : Nat} (h : κ.linked = some np) :
    κ.forking = some np := by
  induction κ with
  | acquire _ k ih => exact ih h
  | forkStart => exact h
  | _ => cases h

theorem Code.linked_eq_none {κ : Code} (h : κ.forking = none) : κ.linked = none := by
  induction κ with
  | acquire _ k ih => exact ih h
  | forkStart => cases h
  | _ => rfl

theorem Code.inKernel_of_forking {κ : Code} {np : Nat} (h : κ.forking = some np) :
    κ.inKernel = true := by
  cases κ <;> first | rfl | cases h

/-- A view of a slot that an update at `p` keeps at `p` is kept at every slot. -/
theorem apply_update_of_eq {α β : Type} (g : α → β) (f : Nat → α) (p : Nat) (a : α)
    (h : g a = g (f p)) (q : Nat) : g (Function.update f p a q) = g (f q) := by
  rcases eq_or_ne q p with rfl | hq
  · simpa using h
  · simp [hq]

/-- Two functions that agree off `p`, and whose views agree at `p`, have the same view at every
slot. -/
theorem apply_eq_of_agree {α β : Type} {f f' : Nat → α} {p : Nat} (g : α → β)
    (hf : ∀ j, j ≠ p → f' j = f j) (h : g (f' p) = g (f p)) (q : Nat) : g (f' q) = g (f q) := by
  rcases eq_or_ne q p with rfl | hq
  · exact h
  · rw [hf q hq]

/-! ## The invariant -/

/-- What holds of the core in every reachable state. -/
structure Core.Inv (k : Core) : Prop where
  running : ∀ c p, (k.cpus c).proc = some p → (k.proc p).state = .RUNNING
  single : ∀ c d p, (k.cpus c).proc = some p → (k.cpus d).proc = some p → c = d
  onCpu : ∀ p, (k.code p).inKernel → ∃ c, (k.cpus c).proc = some p
  outside : ∀ q, k.NPROC ≤ q → (k.proc q).state = .UNUSED ∧ k.code q = .user
  wf : ∀ p, (k.code p).wf
  excl : ∀ p q l, l ∈ (k.code p).holds → l ∈ (k.code q).holds → p = q
  forked : ∀ p np, (k.code p).forking = some np → (k.proc np).state = .USED
  fork_unique : ∀ p q np, (k.code p).forking = some np → (k.code q).forking = some np → p = q
  linked : ∀ p np, (k.code p).linked = some np → (k.proc np).parent = some p
  clean : ∀ i, (k.proc i).state = .UNUSED →
    (k.proc i).pid = 0 ∧ (k.proc i).parent = none ∧ (k.proc i).xstate = 0
  init : (k.proc k.initproc).alive ∧ (k.code k.initproc).exiting = false
  tree : ∀ i, (k.proc i).state ≠ .UNUSED → i ≠ k.initproc →
    (∃ q, (k.proc i).parent = some q ∧ (k.proc q).alive) ∨
    ((k.proc i).parent = none ∧ ∃ p, (k.code p).forking = some i)

/-- What `wakeup`, `kkill` and `sys_setpriority` do to the table: a sleeper may become
`RUNNABLE`; no other state, and no pid, parent or exit status changes. -/
structure Wakes (tab tab' : Nat → Proc) : Prop where
  state : ∀ i, (tab' i).state = (tab i).state ∨
    (tab i).state = .SLEEPING ∧ (tab' i).state = .RUNNABLE
  pid : ∀ i, (tab' i).pid = (tab i).pid
  parent : ∀ i, (tab' i).parent = (tab i).parent
  xstate : ∀ i, (tab' i).xstate = (tab i).xstate

namespace Wakes

variable {tab tab' : Nat → Proc}

theorem state_of_ne (h : Wakes tab tab') {i : Nat} (hi : (tab i).state ≠ .SLEEPING) :
    (tab' i).state = (tab i).state :=
  (h.state i).resolve_right fun h' => hi h'.1

theorem unused_iff (h : Wakes tab tab') (i : Nat) :
    (tab' i).state = .UNUSED ↔ (tab i).state = .UNUSED := by
  rcases h.state i with e | ⟨e₁, e₂⟩
  · rw [e]
  · simp [e₁, e₂]

theorem alive_iff (h : Wakes tab tab') (i : Nat) : (tab' i).alive ↔ (tab i).alive := by
  rcases h.state i with e | ⟨e₁, e₂⟩
  · simp only [Proc.alive, e]
  · simp [Proc.alive, e₁, e₂]

theorem refl (tab : Nat → Proc) : Wakes tab tab :=
  ⟨fun _ => .inl rfl, fun _ => rfl, fun _ => rfl, fun _ => rfl⟩

theorem trans {tab'' : Nat → Proc} (h : Wakes tab tab') (h' : Wakes tab' tab'') :
    Wakes tab tab'' := by
  refine ⟨fun i => ?_, fun i => (h'.pid i).trans (h.pid i),
    fun i => (h'.parent i).trans (h.parent i), fun i => (h'.xstate i).trans (h.xstate i)⟩
  rcases h.state i with e | ⟨e₁, e₂⟩ <;> rcases h'.state i with e' | ⟨e₁', e₂'⟩ <;> simp_all

/-- One slot changed as `Wakes` allows. -/
theorem update {j : Nat} {x : Proc}
    (hs : x.state = (tab j).state ∨ (tab j).state = .SLEEPING ∧ x.state = .RUNNABLE)
    (hp : x.pid = (tab j).pid) (hq : x.parent = (tab j).parent) (hx : x.xstate = (tab j).xstate) :
    Wakes tab (Function.update tab j x) := by
  refine ⟨fun i => ?_, fun i => ?_, fun i => ?_, fun i => ?_⟩ <;>
    rcases eq_or_ne i j with rfl | hi <;> simp_all

end Wakes

theorem wakeup_wakes (tab : Nat → Proc) (n : Nat) (self : Option Nat) (chan : Chan) :
    Wakes tab (wakeup tab n self chan) := by
  refine ⟨fun i => ?_, fun i => ?_, fun i => ?_, fun i => ?_⟩ <;> unfold wakeup <;> split_ifs <;>
    simp_all

theorem kkill_wakes (tab : Nat → Proc) (n : Nat) (pid : Int) : Wakes tab (kkill tab n pid).1 := by
  unfold kkill
  split
  · exact Wakes.update (by split_ifs <;> simp_all) rfl rfl rfl
  · exact Wakes.refl tab

theorem PriorityOnly.wakes {tab tab' : Nat → Proc} (h : PriorityOnly tab tab') : Wakes tab tab' := by
  refine ⟨fun i => ?_, fun i => ?_, fun i => ?_, fun i => ?_⟩ <;>
    rcases h i with e | ⟨pr, e⟩ <;> simp [e]

namespace Core.Inv

variable {k : Core} {c p : Nat}

theorem lt_NPROC (hI : k.Inv) {q : Nat} (h : (k.proc q).state ≠ .UNUSED) : q < k.NPROC :=
  Nat.lt_of_not_le fun hq => h (hI.outside q hq).1

theorem running_ne (hI : k.Inv) (hc : (k.cpus c).proc = some p) {q : Nat}
    (hq : (k.proc q).state ≠ .RUNNING) : q ≠ p :=
  fun h => hq (h ▸ hI.running c p hc)

theorem outside_ne (hI : k.Inv) (hc : (k.cpus c).proc = some p) {q : Nat} (hq : k.NPROC ≤ q) :
    q ≠ p :=
  hI.running_ne hc (by simp [(hI.outside q hq).1])

/-- A thread that is not in `kfork` moves to a position that is not in `kfork` either, takes no
lock, and starts `kexit` only if it is not `initproc`. -/
theorem setCode (hI : k.Inv) (hc : (k.cpus c).proc = some p) {κ : Code}
    (hh : ∀ l ∈ κ.holds, l ∈ (k.code p).holds) (hw : κ.wf) (hu : (k.code p).forking = none)
    (hf : κ.forking = none) (hx : κ.exiting = true → p ≠ k.initproc) :
    ({ k with code := Function.update k.code p κ } : Core).Inv := by
  have hfk : ∀ q, (Function.update k.code p κ q).forking = (k.code q).forking := fun q => by
    by_cases hq : q = p
    · subst hq; simp [hf, hu]
    · simp [hq]
  have hlk : ∀ q, (Function.update k.code p κ q).linked = (k.code q).linked := fun q => by
    by_cases hq : q = p
    · subst hq; simp [Code.linked_eq_none hf, Code.linked_eq_none hu]
    · simp [hq]
  have hp : p < k.NPROC := hI.lt_NPROC (by simp [hI.running c p hc])
  refine ⟨hI.running, hI.single, fun q hq => ?_, fun q hq => ?_, fun q => ?_, ?_, ?_, ?_, ?_,
    hI.clean, ?_, ?_⟩
  · by_cases h : q = p
    · exact ⟨c, h ▸ hc⟩
    · exact hI.onCpu q (by simpa [h] using hq)
  · simpa [hI.outside_ne hc hq] using hI.outside q hq
  · by_cases h : q = p
    · subst h; simpa using hw
    · simpa [h] using hI.wf q
  · have hsub : ∀ q l, l ∈ (Function.update k.code p κ q).holds → l ∈ (k.code q).holds :=
      fun q l hl => by
        by_cases h : q = p
        · subst h; exact hh l (by simpa using hl)
        · simpa [h] using hl
    exact fun p q l h₁ h₂ => hI.excl p q l (hsub p l h₁) (hsub q l h₂)
  · exact fun q np h => hI.forked q np ((hfk q).symm.trans h)
  · exact fun q r np h₁ h₂ =>
      hI.fork_unique q r np ((hfk q).symm.trans h₁) ((hfk r).symm.trans h₂)
  · exact fun q np h => hI.linked q np ((hlk q).symm.trans h)
  · refine ⟨hI.init.1, ?_⟩
    by_cases h : k.initproc = p
    · subst h
      simp only [Function.update_same]
      cases hκ : κ.exiting
      · rfl
      · exact absurd rfl (hx hκ)
    · simpa [h] using hI.init.2
  · intro i hi hne
    simpa only [hfk] using hI.tree i hi hne

/-- A move of `Code.Step`. -/
theorem setCode_step (hI : k.Inv) (hc : (k.cpus c).proc = some p) {κ : Code}
    (hs : Code.Step (k.code p) κ) : ({ k with code := Function.update k.code p κ } : Core).Inv :=
  hI.setCode hc hs.holds (hs.wf (hI.wf p)) hs.unforked hs.forking fun h hp =>
    absurd (hs.exiting h) (by rw [hp, hI.init.2]; decide)

/-- A table change of `Wakes`. -/
theorem wakes (hI : k.Inv) {tab : Nat → Proc} (hw : Wakes k.proc tab) :
    ({ k with proc := tab } : Core).Inv where
  running c p h := (hw.state_of_ne (by simp [hI.running c p h])).trans (hI.running c p h)
  single := hI.single
  onCpu := hI.onCpu
  outside q hq := ⟨(hw.unused_iff q).2 (hI.outside q hq).1, (hI.outside q hq).2⟩
  wf := hI.wf
  excl := hI.excl
  forked p np h := (hw.state_of_ne (by simp [hI.forked p np h])).trans (hI.forked p np h)
  fork_unique := hI.fork_unique
  linked p np h := (hw.parent np).trans (hI.linked p np h)
  clean i hi := by
    simpa only [hw.pid, hw.parent, hw.xstate] using hI.clean i ((hw.unused_iff i).1 hi)
  init := ⟨(hw.alive_iff _).2 hI.init.1, hI.init.2⟩
  tree i hi hne := by
    simp only [hw.parent, hw.alive_iff]
    exact hI.tree i (by simpa [hw.unused_iff] using hi) hne

theorem alive_of_running (hI : k.Inv) (hc : (k.cpus c).proc = some p) : (k.proc p).alive := by
  simp [Proc.alive, hI.running c p hc]

theorem alive_of_forking (hI : k.Inv) {np : Nat} (h : (k.code p).forking = some np) :
    (k.proc np).alive := by
  simp [Proc.alive, hI.forked p np h]

/-- A free or exited slot is made free: `freeproc` in `kwait`, and in `allocproc` when an
allocation fails. -/
theorem free (hI : k.Inv) {i : Nat} (hi : ¬(k.proc i).alive) {x : Proc} (hx : x.state = .UNUSED)
    (hc : x.pid = 0 ∧ x.parent = none ∧ x.xstate = 0) :
    ({ k with proc := Function.update k.proc i x } : Core).Inv := by
  have same : ∀ q, (k.proc q).alive → Function.update k.proc i x q = k.proc q := fun q hq =>
    Function.update_noteq (fun e : q = i => hi (e ▸ hq)) _ _
  refine ⟨fun c p h => ?_, hI.single, hI.onCpu, fun q hq => ?_, hI.wf, hI.excl, fun p np h => ?_,
    hI.fork_unique, fun p np h => ?_, fun j hj => ?_, ?_, fun j hj hne => ?_⟩
  · simpa [same p (hI.alive_of_running h)] using hI.running c p h
  · rcases eq_or_ne q i with rfl | hqi
    · simpa [hx] using (hI.outside q hq).2
    · simpa [hqi] using hI.outside q hq
  · simpa [same np (hI.alive_of_forking h)] using hI.forked p np h
  · have := hI.alive_of_forking (Code.forking_of_linked h)
    simpa [same np this] using hI.linked p np h
  · rcases eq_or_ne j i with rfl | hji
    · simpa using hc
    · simpa [hji] using hI.clean j (by simpa [hji] using hj)
  · simpa [same _ hI.init.1] using hI.init
  · have hji : j ≠ i := by rintro rfl; simp [hx] at hj
    simp only [ne_eq, hji, not_false_eq_true, Function.update_noteq] at hj ⊢
    rcases hI.tree j hj hne with ⟨q, hq, hqa⟩ | h
    · exact .inl ⟨q, hq, by simpa [same q hqa] using hqa⟩
    · exact .inr h

/-- `sched` from `yield` or `sleep`: the process leaves CPU `c`, `RUNNABLE` or `SLEEPING`, for a
position outside the kernel that holds no lock, and keeps its place in any `kfork` or `kexit`. -/
theorem switch (hI : k.Inv) (hc : (k.cpus c).proc = some p) {x : Proc} {κ : Code}
    {qs : Nat → List Nat} (hst : x.state = .RUNNABLE ∨ x.state = .SLEEPING)
    (hxp : x.parent = (k.proc p).parent) (hi : κ.inKernel = false) (hh : κ.holds = [])
    (hw : κ.wf) (hf : κ.forking = (k.code p).forking) (hl : κ.linked = (k.code p).linked)
    (hx : κ.exiting = (k.code p).exiting) :
    ({ k with proc := Function.update k.proc p x, code := Function.update k.code p κ,
              cpus := Function.update k.cpus c ⟨none, none⟩, queues := qs } : Core).Inv := by
  have hrun := hI.running c p hc
  have hpar := apply_update_of_eq Proc.parent k.proc p x hxp
  have halive := apply_update_of_eq Proc.alive k.proc p x (propext (by
    rcases hst with h | h <;> simp [Proc.alive, h, hrun]))
  have hun : ∀ j, (Function.update k.proc p x j).state = .UNUSED ↔ (k.proc j).state = .UNUSED :=
    fun j => Iff.of_eq (apply_update_of_eq (fun y : Proc => y.state = .UNUSED) k.proc p x
      (by rcases hst with h | h <;> simp [h, hrun]) j)
  have hfk := apply_update_of_eq Code.forking k.code p κ hf
  have hlk := apply_update_of_eq Code.linked k.code p κ hl
  have hex := apply_update_of_eq Code.exiting k.code p κ hx
  have hoff : ∀ d q, (Function.update k.cpus c ⟨none, none⟩ d).proc = some q →
      d ≠ c ∧ (k.cpus d).proc = some q ∧ q ≠ p := fun d q h => by
    rcases eq_or_ne d c with rfl | hd
    · simp at h
    · simp only [ne_eq, hd, not_false_eq_true, Function.update_noteq] at h
      exact ⟨hd, h, fun e => hd (hI.single d c p (e ▸ h) hc)⟩
  refine ⟨fun d q h => ?_, fun d e q h₁ h₂ => ?_, fun q hq => ?_, fun q hq => ?_, fun q => ?_,
    fun q r l h₁ h₂ => ?_, fun q np h => ?_, fun q r np h₁ h₂ => ?_, fun q np h => ?_,
    fun j hj => ?_, ?_, fun j hj hne => ?_⟩
  · obtain ⟨-, hd, hq⟩ := hoff d q h
    simpa [hq] using hI.running d q hd
  · exact hI.single d e q (hoff d q h₁).2.1 (hoff e q h₂).2.1
  · rcases eq_or_ne q p with rfl | hqp
    · simp [hi] at hq
    · obtain ⟨d, hd⟩ := hI.onCpu q (by simpa [hqp] using hq)
      have hdc : d ≠ c := fun e => hqp (Option.some_injective _ ((e ▸ hd).symm.trans hc))
      exact ⟨d, by simpa [hdc] using hd⟩
  · simpa [hI.outside_ne hc hq] using hI.outside q hq
  · rcases eq_or_ne q p with rfl | hqp
    · simpa using hw
    · simpa [hqp] using hI.wf q
  · have hsub : ∀ q, l ∈ (Function.update k.code p κ q).holds → l ∈ (k.code q).holds := fun q h => by
      rcases eq_or_ne q p with rfl | hqp
      · simp [hh] at h
      · simpa [hqp] using h
    exact hI.excl q r l (hsub q h₁) (hsub r h₂)
  · rw [hfk] at h
    have hnp : np ≠ p := hI.running_ne hc (by simp [hI.forked q np h])
    simpa [hnp] using hI.forked q np h
  · rw [hfk] at h₁ h₂; exact hI.fork_unique q r np h₁ h₂
  · rw [hlk] at h; rw [hpar]; exact hI.linked q np h
  · rw [hun] at hj
    simpa [hI.running_ne hc (q := j) (by simp [hj])] using hI.clean j hj
  · rw [halive, hex]; exact hI.init
  · simp only [ne_eq, hun] at hj
    simp only [hpar, halive, hfk]
    exact hI.tree j hj hne

theorem forker_running (hI : k.Inv) {q np : Nat} (h : (k.code q).forking = some np) :
    (k.proc q).state = .RUNNING :=
  let ⟨d, hd⟩ := hI.onCpu q (Code.inKernel_of_forking h)
  hI.running d q hd

/-- `acquire(lk)` of a lock that no thread holds. -/
theorem acquire (hI : k.Inv) (hc : (k.cpus c).proc = some p) {lk : Lock} {κ : Code}
    (hk : k.code p = .acquire lk κ) (hfree : ∀ q, lk ∉ (k.code q).holds) :
    ({ k with code := Function.update k.code p κ } : Core).Inv := by
  have hfk := apply_update_of_eq Code.forking k.code p κ (by rw [hk]; rfl)
  have hlk := apply_update_of_eq Code.linked k.code p κ (by rw [hk]; rfl)
  have hex := apply_update_of_eq Code.exiting k.code p κ (by rw [hk]; rfl)
  refine ⟨hI.running, hI.single, fun q hq => ?_, fun q hq => ?_, fun q => ?_,
    fun q r l h₁ h₂ => ?_, fun q np h => ?_, fun q r np h₁ h₂ => ?_, fun q np h => ?_, hI.clean,
    by rw [hex]; exact ⟨hI.init.1, hI.init.2⟩, fun j hj hne => ?_⟩
  · rcases eq_or_ne q p with rfl | hqp
    · exact ⟨c, hc⟩
    · exact hI.onCpu q (by simpa [hqp] using hq)
  · simpa [hI.outside_ne hc hq] using hI.outside q hq
  · rcases eq_or_ne q p with rfl | hqp
    · simpa [hk, Code.wf] using hI.wf q
    · simpa [hqp] using hI.wf q
  · -- the lock taken is held by `p` alone; every other lock is held as before
    have hsub : ∀ q, l ∈ (Function.update k.code p κ q).holds → l ≠ lk → l ∈ (k.code q).holds :=
      fun q h hl => by
        rcases eq_or_ne q p with rfl | hqp
        · simpa [hk, Code.holds, List.mem_erase_of_ne hl] using h
        · simpa [hqp] using h
    by_cases hl : l = lk
    · subst hl
      have hp : ∀ q, l ∈ (Function.update k.code p κ q).holds → q = p := fun q h => by
        by_contra hqp
        exact hfree q (by simpa [hqp] using h)
      exact (hp q h₁).trans (hp r h₂).symm
    · exact hI.excl q r l (hsub q h₁ hl) (hsub r h₂ hl)
  · rw [hfk] at h; exact hI.forked q np h
  · rw [hfk] at h₁ h₂; exact hI.fork_unique q r np h₁ h₂
  · rw [hlk] at h; exact hI.linked q np h
  · simp only [hfk]; exact hI.tree j hj hne

/-- The selector, the MLFQ queues and the wakeup counts are not read by the invariant. -/
theorem ghost (hI : k.Inv) (sel : Selector) (qs : Nat → List Nat) (w : Chan → Nat) :
    ({ k with select_next_proc := sel, queues := qs, wakeups := w } : Core).Inv :=
  ⟨hI.running, hI.single, hI.onCpu, hI.outside, hI.wf, hI.excl, hI.forked, hI.fork_unique,
    hI.linked, hI.clean, hI.init, hI.tree⟩

/-- A CPU with no process changes what it has chosen. -/
theorem idleCpu (hI : k.Inv) (hc : (k.cpus c).proc = none) {y : Cpu} (hy : y.proc = none) :
    ({ k with cpus := Function.update k.cpus c y } : Core).Inv := by
  have hoff : ∀ d q, (Function.update k.cpus c y d).proc = some q → (k.cpus d).proc = some q :=
    fun d q h => by
      rcases eq_or_ne d c with rfl | hd
      · simp [hy] at h
      · simpa [hd] using h
  refine ⟨fun d q h => hI.running d q (hoff d q h), fun d e q h₁ h₂ => hI.single d e q
    (hoff d q h₁) (hoff e q h₂), fun q hq => ?_, hI.outside, hI.wf, hI.excl, hI.forked,
    hI.fork_unique, hI.linked, hI.clean, hI.init, hI.tree⟩
  obtain ⟨d, hd⟩ := hI.onCpu q hq
  have hdc : d ≠ c := by rintro rfl; simp [hc] at hd
  exact ⟨d, by simpa [hdc] using hd⟩

/-- `allocproc` hands the free slot `i` to the `kfork` of `p`, which goes on to take
`wait_lock`. -/
theorem fork (hI : k.Inv) (hc : (k.cpus c).proc = some p) (hu : k.code p = .user) {i : Nat}
    (hi : (k.proc i).state = .UNUSED) (hiN : i < k.NPROC) {x : Proc} (hx : x.state = .USED)
    (hxp : x.parent = none) :
    ({ k with proc := Function.update k.proc i x,
              code := Function.update (Function.update k.code i .user) p
                (.acquire .wait_lock (.forkLink i)) } : Core).Inv := by
  have hip : i ≠ p := hI.running_ne hc (by simp [hi])
  have hfree : ∀ q, (k.code q).forking ≠ some i := fun q h => by
    simpa [hi] using hI.forked q i h
  have hne : ∀ q, (k.proc q).alive → q ≠ i := fun q hq e => hq.1 (e ▸ hi)
  -- the code of every thread but `p` and `i` is as it was
  have hcode : ∀ q, q ≠ p → q ≠ i → Function.update (Function.update k.code i .user) p
      (.acquire .wait_lock (.forkLink i)) q = k.code q := fun q h₁ h₂ => by simp [h₁, h₂]
  have hcp : Function.update (Function.update k.code i .user) p
      (.acquire .wait_lock (.forkLink i)) p = .acquire .wait_lock (.forkLink i) := by simp
  have hci : Function.update (Function.update k.code i .user) p
      (.acquire .wait_lock (.forkLink i)) i = .user := by simp [hip]
  have hfk : ∀ q np, (Function.update (Function.update k.code i .user) p
      (.acquire .wait_lock (.forkLink i)) q).forking = some np →
      q = p ∧ np = i ∨ q ≠ p ∧ q ≠ i ∧ (k.code q).forking = some np := fun q np h => by
    rcases eq_or_ne q p with rfl | hqp
    · rw [hcp] at h; exact .inl ⟨rfl, (Option.some.inj h).symm⟩
    rcases eq_or_ne q i with rfl | hqi
    · rw [hci] at h; cases h
    · exact .inr ⟨hqp, hqi, by rwa [hcode q hqp hqi] at h⟩
  refine ⟨fun d q h => ?_, hI.single, fun q hq => ?_, fun q hq => ?_, fun q => ?_,
    fun q r l h₁ h₂ => ?_, fun q np h => ?_, fun q r np h₁ h₂ => ?_, fun q np h => ?_,
    fun j hj => ?_, ?_, fun j hj hne' => ?_⟩
  all_goals dsimp only at *
  · simpa [hne q (hI.alive_of_running h)] using hI.running d q h
  · rcases eq_or_ne q p with rfl | hqp
    · exact ⟨c, hc⟩
    rcases eq_or_ne q i with rfl | hqi
    · rw [hci] at hq; cases hq
    · exact hI.onCpu q (by rwa [hcode q hqp hqi] at hq)
  · have hqi : q ≠ i := by omega
    simpa [hqi, hI.outside_ne hc hq] using hI.outside q hq
  · rcases eq_or_ne q p with rfl | hqp
    · rw [hcp]; trivial
    rcases eq_or_ne q i with rfl | hqi
    · rw [hci]; trivial
    · rw [hcode q hqp hqi]; exact hI.wf q
  · have hsub : ∀ q, l ∈ (Function.update (Function.update k.code i .user) p
        (.acquire .wait_lock (.forkLink i)) q).holds → l ∈ (k.code q).holds := fun q h => by
      rcases eq_or_ne q p with rfl | hqp
      · simp [hcp, Code.holds] at h
      rcases eq_or_ne q i with rfl | hqi
      · simp [hci, Code.holds] at h
      · rwa [hcode q hqp hqi] at h
    exact hI.excl q r l (hsub q h₁) (hsub r h₂)
  · rcases hfk q np h with ⟨-, rfl⟩ | ⟨-, -, h⟩
    · simpa using hx
    · simpa [hne np (hI.alive_of_forking h)] using hI.forked q np h
  · rcases hfk q np h₁ with ⟨hq, hn⟩ | ⟨-, -, h₁'⟩ <;>
      rcases hfk r np h₂ with ⟨hr, hn'⟩ | ⟨-, -, h₂'⟩
    · exact hq.trans hr.symm
    · exact absurd (hn ▸ h₂') (hfree r)
    · exact absurd (hn' ▸ h₁') (hfree q)
    · exact hI.fork_unique q r np h₁' h₂'
  · rcases eq_or_ne q p with rfl | hqp
    · rw [hcp] at h; cases h
    rcases eq_or_ne q i with rfl | hqi
    · rw [hci] at h; cases h
    · rw [hcode q hqp hqi] at h
      have hnp := hne np (hI.alive_of_forking (Code.forking_of_linked h))
      simpa [hnp] using hI.linked q np h
  · rcases eq_or_ne j i with rfl | hji
    · simp [hx] at hj
    · simpa [hji] using hI.clean j (by simpa [hji] using hj)
  · have hinit := hne _ hI.init.1
    refine ⟨by simpa [hinit] using hI.init.1, ?_⟩
    rcases eq_or_ne k.initproc p with h | h
    · rw [h, hcp]; rfl
    · simpa [hcode _ h hinit] using hI.init.2
  · rcases eq_or_ne j i with rfl | hji
    · exact .inr ⟨by simpa using hxp, p, by simp [hcp, Code.forking]⟩
    simp only [ne_eq, hji, not_false_eq_true, Function.update_noteq] at hj ⊢
    rcases hI.tree j hj hne' with ⟨q, hq, hqa⟩ | ⟨hpar, r, hr⟩
    · exact .inl ⟨q, hq, by simpa [hne q hqa] using hqa⟩
    · have hrp : r ≠ p := by rintro rfl; rw [hu] at hr; cases hr
      have hri : r ≠ i := hne r (by simp [Proc.alive, hI.forker_running hr])
      exact .inr ⟨hpar, r, by rwa [hcode r hrp hri]⟩

/-- `np->parent = p` in `kfork`, holding `wait_lock`. -/
theorem link (hI : k.Inv) (hc : (k.cpus c).proc = some p) {np : Nat}
    (hk : k.code p = .forkLink np) :
    ({ k with proc := Function.update k.proc np { k.proc np with parent := some p },
              code := Function.update k.code p (.forkStart np) } : Core).Inv := by
  have hfp : (k.code p).forking = some np := by rw [hk]; rfl
  have hnp : np ≠ p := hI.running_ne hc (by simp [hI.forked p np hfp])
  have hst := apply_update_of_eq Proc.state k.proc np { k.proc np with parent := some p } rfl
  have halive := apply_update_of_eq Proc.alive k.proc np { k.proc np with parent := some p } rfl
  have hfk := apply_update_of_eq Code.forking k.code p (.forkStart np) (by rw [hk]; rfl)
  have hex := apply_update_of_eq Code.exiting k.code p (.forkStart np) (by rw [hk]; rfl)
  refine ⟨fun d q h => ?_, hI.single, fun q hq => ?_, fun q hq => ?_, fun q => ?_,
    fun q r l h₁ h₂ => ?_, fun q n h => ?_, fun q r n h₁ h₂ => ?_, fun q n h => ?_,
    fun j hj => ?_, ?_, fun j hj hne => ?_⟩
  all_goals dsimp only at *
  · rw [hst]; exact hI.running d q h
  · rcases eq_or_ne q p with rfl | hqp
    · exact ⟨c, hc⟩
    · exact hI.onCpu q (by simpa [hqp] using hq)
  · rw [hst]; simpa [hI.outside_ne hc hq] using hI.outside q hq
  · rcases eq_or_ne q p with rfl | hqp
    · simp [Code.wf]
    · simpa [hqp] using hI.wf q
  · have hsub : ∀ q, l ∈ (Function.update k.code p (.forkStart np) q).holds →
        l ∈ (k.code q).holds := fun q h => by
      rcases eq_or_ne q p with rfl | hqp
      · rw [Function.update_same] at h; cases h
      · simpa [hqp] using h
    exact hI.excl q r l (hsub q h₁) (hsub r h₂)
  · rw [hfk] at h; rw [hst]; exact hI.forked q n h
  · rw [hfk] at h₁ h₂; exact hI.fork_unique q r n h₁ h₂
  · rcases eq_or_ne q p with rfl | hqp
    · simp [Code.linked] at h; subst h; simp
    · rw [Function.update_noteq hqp] at h
      have hn : n ≠ np := fun e => hqp (hI.fork_unique q p n (Code.forking_of_linked h) (e ▸ hfp))
      simpa [hn] using hI.linked q n h
  · rw [hst] at hj
    have hj' : j ≠ np := by rintro rfl; simp [hI.forked p j hfp] at hj
    simpa [hj'] using hI.clean j hj
  · rw [halive, hex]; exact hI.init
  · rw [hst] at hj
    rcases eq_or_ne j np with rfl | hjn
    · exact .inl ⟨p, by simp, by rw [halive]; exact hI.alive_of_running hc⟩
    simp only [hfk, halive, ne_eq, hjn, not_false_eq_true, Function.update_noteq]
    exact hI.tree j hj hne

/-- `np->state = RUNNABLE` in `kfork`, which then returns to user space. -/
theorem start (hI : k.Inv) (hc : (k.cpus c).proc = some p) {np : Nat}
    (hk : k.code p = .forkStart np) (qs : Nat → List Nat) :
    ({ k with proc := Function.update k.proc np { k.proc np with state := .RUNNABLE },
              code := Function.update k.code p .user, queues := qs } : Core).Inv := by
  have hfp : (k.code p).forking = some np := by rw [hk]; rfl
  have hused := hI.forked p np hfp
  have hnp : np ≠ p := hI.running_ne hc (by simp [hused])
  have hpar := apply_update_of_eq Proc.parent k.proc np { k.proc np with state := .RUNNABLE } rfl
  have halive := apply_update_of_eq Proc.alive k.proc np { k.proc np with state := .RUNNABLE }
    (propext (by simp [Proc.alive, hused]))
  have hun : ∀ j, (Function.update k.proc np { k.proc np with state := .RUNNABLE } j).state =
      .UNUSED ↔ (k.proc j).state = .UNUSED := fun j => by
    rcases eq_or_ne j np with rfl | hj <;> simp [*]
  have hex := apply_update_of_eq Code.exiting k.code p .user (by rw [hk]; rfl)
  -- every thread in `kfork` but `p` is making a child other than `np`
  have hfk : ∀ q n, (Function.update k.code p .user q).forking = some n →
      q ≠ p ∧ n ≠ np ∧ (k.code q).forking = some n := fun q n h => by
    rcases eq_or_ne q p with rfl | hqp
    · rw [Function.update_same] at h; cases h
    · rw [Function.update_noteq hqp] at h
      exact ⟨hqp, fun e => hqp (hI.fork_unique q p n h (e ▸ hfp)), h⟩
  refine ⟨fun d q h => ?_, hI.single, fun q hq => ?_, fun q hq => ?_, fun q => ?_,
    fun q r l h₁ h₂ => ?_, fun q n h => ?_, fun q r n h₁ h₂ => ?_, fun q n h => ?_,
    fun j hj => ?_, ?_, fun j hj hne => ?_⟩
  all_goals dsimp only at *
  · have hq : q ≠ np := by rintro rfl; simp [hI.running d q h] at hused
    simpa [hq] using hI.running d q h
  · rcases eq_or_ne q p with rfl | hqp
    · exact ⟨c, hc⟩
    · exact hI.onCpu q (by simpa [hqp] using hq)
  · rw [hun]; simpa [hI.outside_ne hc hq] using hI.outside q hq
  · rcases eq_or_ne q p with rfl | hqp
    · simp [Code.wf]
    · simpa [hqp] using hI.wf q
  · have hsub : ∀ q, l ∈ (Function.update k.code p .user q).holds → l ∈ (k.code q).holds :=
      fun q h => by
        rcases eq_or_ne q p with rfl | hqp
        · simp [Code.holds] at h
        · simpa [hqp] using h
    exact hI.excl q r l (hsub q h₁) (hsub r h₂)
  · obtain ⟨-, hn, h⟩ := hfk q n h
    simpa [hn] using hI.forked q n h
  · exact hI.fork_unique q r n (hfk q n h₁).2.2 (hfk r n h₂).2.2
  · rcases eq_or_ne q p with rfl | hqp
    · rw [Function.update_same] at h; cases h
    · rw [Function.update_noteq hqp] at h
      rw [hpar]; exact hI.linked q n h
  · rw [hun] at hj
    have hj' : j ≠ np := by rintro rfl; simp [hused] at hj
    simpa [hj'] using hI.clean j hj
  · rw [halive, hex]; exact hI.init
  · simp only [ne_eq, hun] at hj
    rcases eq_or_ne j np with rfl | hjn
    · refine .inl ⟨p, by rw [hpar]; exact hI.linked p j (by rw [hk]; rfl), ?_⟩
      rw [halive]; exact hI.alive_of_running hc
    simp only [hpar, halive]
    rcases hI.tree j hj hne with h | ⟨h, r, hr⟩
    · exact .inl h
    · have hrp : r ≠ p := by rintro rfl; exact hjn (Option.some_injective _ (hr.symm.trans hfp))
      exact .inr ⟨h, r, by rwa [Function.update_noteq hrp]⟩

/-- `kexit` from `reparent(p)` to `sched`: `p`'s children pass to `initproc`, sleepers are woken,
and `p` leaves CPU `c` a `ZOMBIE`. -/
theorem exit (hI : k.Inv) (hc : (k.cpus c).proc = some p) {st : Int}
    (hk : k.code p = .exitBody st) {tab : Nat → Proc}
    (hw : Wakes (fun j => if j < k.NPROC ∧ (k.proc j).parent = some p then
      { k.proc j with parent := some k.initproc } else k.proc j) tab)
    {x : Proc} (hx : x.state = .ZOMBIE) (hxp : x.parent = (tab p).parent) (qs : Nat → List Nat) :
    ({ k with proc := Function.update tab p x, code := Function.update k.code p .zombie,
              cpus := Function.update k.cpus c ⟨none, none⟩, queues := qs } : Core).Inv := by
  have hrun := hI.running c p hc
  have hpi : p ≠ k.initproc := fun e => by simpa [e ▸ hk, Code.exiting] using hI.init.2
  -- the table before `p` becomes a `ZOMBIE`: every state as it was, or a sleeper woken; the
  -- children of `p` have `initproc` as parent
  have hst : ∀ j, (tab j).state = (k.proc j).state ∨
      (k.proc j).state = .SLEEPING ∧ (tab j).state = .RUNNABLE := fun j => by
    rcases hw.state j with h | h <;> split_ifs at h <;> simp_all
  have hsame : ∀ j, (k.proc j).state ≠ .SLEEPING → (tab j).state = (k.proc j).state :=
    fun j h => (hst j).resolve_right fun h' => h h'.1
  have halive : ∀ j, (tab j).alive ↔ (k.proc j).alive := fun j => by
    rcases hst j with h | ⟨h₁, h₂⟩ <;> simp [Proc.alive, *]
  have hun : ∀ j, (tab j).state = .UNUSED ↔ (k.proc j).state = .UNUSED := fun j => by
    rcases hst j with h | ⟨h₁, h₂⟩ <;> simp [*]
  have hpar : ∀ j, (tab j).parent =
      if (k.proc j).parent = some p then some k.initproc else (k.proc j).parent := fun j => by
    rw [hw.parent]
    by_cases hj : (k.proc j).parent = some p
    · have hlt : j < k.NPROC := hI.lt_NPROC fun h => by simp [(hI.clean j h).2.1] at hj
      simp [hj, hlt]
    · simp [hj]
  have hne : ∀ j, (k.proc j).parent ≠ some p → (tab j).parent = (k.proc j).parent := fun j h => by
    simp [hpar, h]
  have hpid : ∀ j, (k.proc j).parent ≠ some p → (tab j).pid = (k.proc j).pid ∧
      (tab j).xstate = (k.proc j).xstate := fun j h => by
    simp [hw.pid, hw.xstate, h]
  have hfk := apply_update_of_eq Code.forking k.code p .zombie (by rw [hk]; rfl)
  have hlk := apply_update_of_eq Code.linked k.code p .zombie (by rw [hk]; rfl)
  have hoff : ∀ d q, (Function.update k.cpus c ⟨none, none⟩ d).proc = some q →
      d ≠ c ∧ (k.cpus d).proc = some q ∧ q ≠ p := fun d q h => by
    rcases eq_or_ne d c with rfl | hd
    · simp at h
    · simp only [ne_eq, hd, not_false_eq_true, Function.update_noteq] at h
      exact ⟨hd, h, fun e => hd (hI.single d c p (e ▸ h) hc)⟩
  have hinit : (Function.update tab p x k.initproc).alive := by
    rw [Function.update_noteq hpi.symm, halive]; exact hI.init.1
  refine ⟨fun d q h => ?_, fun d e q h₁ h₂ => ?_, fun q hq => ?_, fun q hq => ?_, fun q => ?_,
    fun q r l h₁ h₂ => ?_, fun q n h => ?_, fun q r n h₁ h₂ => ?_, fun q n h => ?_,
    fun j hj => ?_, ?_, fun j hj hne' => ?_⟩
  all_goals dsimp only at *
  · obtain ⟨-, hd, hq⟩ := hoff d q h
    rw [Function.update_noteq hq, hsame q (by simp [hI.running d q hd])]
    exact hI.running d q hd
  · exact hI.single d e q (hoff d q h₁).2.1 (hoff e q h₂).2.1
  · rcases eq_or_ne q p with rfl | hqp
    · rw [Function.update_same] at hq; cases hq
    · obtain ⟨d, hd⟩ := hI.onCpu q (by simpa [hqp] using hq)
      have hdc : d ≠ c := fun e => hqp (Option.some_injective _ ((e ▸ hd).symm.trans hc))
      exact ⟨d, by simpa [hdc] using hd⟩
  · have hqp := hI.outside_ne hc hq
    rw [Function.update_noteq hqp, Function.update_noteq hqp, hun]
    exact hI.outside q hq
  · rcases eq_or_ne q p with rfl | hqp
    · simp [Code.wf]
    · simpa [hqp] using hI.wf q
  · have hsub : ∀ q, l ∈ (Function.update k.code p .zombie q).holds → l ∈ (k.code q).holds :=
      fun q h => by
        rcases eq_or_ne q p with rfl | hqp
        · simp [Code.holds] at h
        · simpa [hqp] using h
    exact hI.excl q r l (hsub q h₁) (hsub r h₂)
  · rw [hfk] at h
    have hused := hI.forked q n h
    rw [Function.update_noteq (hI.running_ne hc (by simp [hused])), hsame n (by simp [hused])]
    exact hused
  · rw [hfk] at h₁ h₂; exact hI.fork_unique q r n h₁ h₂
  · rw [hlk] at h
    have hq : q ≠ p := by rintro rfl; rw [hk] at h; cases h
    have hn := hI.linked q n h
    rw [Function.update_noteq (hI.running_ne hc (by simp [hI.forked q n
      (Code.forking_of_linked h)])), hne n (by simp [hn, hq])]
    exact hn
  · have hjp : j ≠ p := by rintro rfl; simp [hx] at hj
    rw [Function.update_noteq hjp, hun] at hj
    obtain ⟨h₁, h₂, h₃⟩ := hI.clean j hj
    rw [Function.update_noteq hjp, (hpid j (by simp [h₂])).1, (hpid j (by simp [h₂])).2,
      hne j (by simp [h₂])]
    exact ⟨h₁, h₂, h₃⟩
  · refine ⟨hinit, ?_⟩
    rw [Function.update_noteq hpi.symm]; exact hI.init.2
  · -- the parent of a slot is `initproc` if it was `p`, and alive as before otherwise
    have hp' : ∀ j, (k.proc j).state ≠ .UNUSED → j ≠ k.initproc →
        (∃ q, (tab j).parent = some q ∧ (Function.update tab p x q).alive) ∨
        ((tab j).parent = none ∧ ∃ r, (Function.update k.code p .zombie r).forking = some j) :=
      fun j hj hne' => by
        by_cases hjp : (k.proc j).parent = some p
        · exact .inl ⟨k.initproc, by simp [hpar, hjp], hinit⟩
        · simp only [hne j hjp, hfk]
          rcases hI.tree j hj hne' with ⟨q, hq, hqa⟩ | h
          · have hqp : q ≠ p := by rintro rfl; exact hjp hq
            exact .inl ⟨q, hq, by rw [Function.update_noteq hqp, halive]; exact hqa⟩
          · exact .inr h
    rcases eq_or_ne j p with rfl | hjp
    · simp only [Function.update_same, hxp]
      rcases hp' j (by simp [hrun]) hne' with h | ⟨-, r, hr⟩
      · exact .inl h
      · rw [hfk] at hr; simp [hI.forked r j hr] at hrun
    · rw [Function.update_noteq hjp] at hj ⊢
      exact hp' j (by simpa [hun] using hj) hne'

/-- `scheduler` on CPU `c`, which runs no process, switches to the `RUNNABLE` process `p`, which
goes on where it switched away, holding the locks it held. -/
theorem dispatch (hI : k.Inv) (hc : (k.cpus c).proc = none) {p : Nat}
    (hp : (k.proc p).state = .RUNNABLE) (tab : Nat → Proc) (htab : ∀ j, j ≠ p → tab j = k.proc j)
    (hx : (tab p).state = .RUNNING) (hxp : (tab p).parent = (k.proc p).parent)
    (code : Nat → Code) (hcode : ∀ j, j ≠ p → code j = k.code j)
    (hh : (code p).holds = (k.code p).holds) (hw : (k.code p).wf → (code p).wf)
    (hf : (k.code p).forking = none → (k.code p).wf → (code p).forking = none)
    (hex : (code p).exiting = (k.code p).exiting)
    (qs : Nat → List Nat) :
    ({ k with proc := tab, code := code, cpus := Function.update k.cpus c ⟨some p, none⟩,
              queues := qs } : Core).Inv := by
  have hpf : (k.code p).forking = none := by
    cases h : (k.code p).forking
    · rfl
    · simp [hI.forker_running h] at hp
  have hfk := apply_eq_of_agree Code.forking hcode ((hf hpf (hI.wf p)).trans hpf.symm)
  have hlk := apply_eq_of_agree Code.linked hcode
    ((Code.linked_eq_none (hf hpf (hI.wf p))).trans (Code.linked_eq_none hpf).symm)
  have hho := apply_eq_of_agree Code.holds hcode hh
  have hexq := apply_eq_of_agree Code.exiting hcode hex
  have hpar : ∀ j, (tab j).parent = (k.proc j).parent := fun j => by
    rcases eq_or_ne j p with rfl | hj
    · exact hxp
    · rw [htab j hj]
  have halive : ∀ j, (tab j).alive ↔ (k.proc j).alive := fun j => by
    rcases eq_or_ne j p with rfl | hj
    · simp [Proc.alive, hx, hp]
    · rw [htab j hj]
  have hun : ∀ j, (tab j).state = .UNUSED ↔ (k.proc j).state = .UNUSED := fun j => by
    rcases eq_or_ne j p with rfl | hj
    · simp [hx, hp]
    · rw [htab j hj]
  have hoff : ∀ d, (k.cpus d).proc ≠ some p := fun d h => by simp [hI.running d p h] at hp
  -- a CPU other than `c` runs what it ran, which is not `p`
  have hon : ∀ d q, (Function.update k.cpus c ⟨some p, none⟩ d).proc = some q →
      d = c ∧ q = p ∨ d ≠ c ∧ (k.cpus d).proc = some q ∧ q ≠ p := fun d q h => by
    rcases eq_or_ne d c with rfl | hd
    · simp at h; exact .inl ⟨rfl, h.symm⟩
    · simp only [ne_eq, hd, not_false_eq_true, Function.update_noteq] at h
      exact .inr ⟨hd, h, by rintro rfl; exact hoff d h⟩
  refine ⟨fun d q h => ?_, fun d e q h₁ h₂ => ?_, fun q hq => ?_, fun q hq => ?_, fun q => ?_,
    fun q r l h₁ h₂ => ?_, fun q n h => ?_, fun q r n h₁ h₂ => ?_, fun q n h => ?_,
    fun j hj => ?_, ?_, fun j hj hne => ?_⟩
  all_goals dsimp only at *
  · rcases hon d q h with ⟨-, rfl⟩ | ⟨-, hd, hq⟩
    · exact hx
    · rw [htab q hq]; exact hI.running d q hd
  · rcases hon d q h₁ with ⟨rfl, rfl⟩ | ⟨hd, hd', hq⟩ <;>
      rcases hon e q h₂ with ⟨rfl, e'⟩ | ⟨he, he', hq'⟩
    · rfl
    · exact absurd rfl hq'
    · exact absurd e' hq
    · exact hI.single d e q hd' he'
  · rcases eq_or_ne q p with rfl | hqp
    · exact ⟨c, by simp⟩
    · obtain ⟨d, hd⟩ := hI.onCpu q (by rwa [hcode q hqp] at hq)
      have hdc : d ≠ c := by rintro rfl; simp [hc] at hd
      exact ⟨d, by simpa [hdc] using hd⟩
  · have hqp : q ≠ p := by rintro rfl; simp [(hI.outside q hq).1] at hp
    rw [htab q hqp, hcode q hqp]; exact hI.outside q hq
  · rcases eq_or_ne q p with rfl | hqp
    · exact hw (hI.wf q)
    · rw [hcode q hqp]; exact hI.wf q
  · rw [hho] at h₁ h₂; exact hI.excl q r l h₁ h₂
  · rw [hfk] at h
    have hn : n ≠ p := by rintro rfl; simp [hI.forked q n h] at hp
    rw [htab n hn]; exact hI.forked q n h
  · rw [hfk] at h₁ h₂; exact hI.fork_unique q r n h₁ h₂
  · rw [hlk] at h; rw [hpar]; exact hI.linked q n h
  · rw [hun] at hj
    have hjp : j ≠ p := by rintro rfl; simp [hj] at hp
    rw [htab j hjp]; exact hI.clean j hj
  · rw [halive, hexq]; exact hI.init
  · simp only [ne_eq, hun] at hj
    simp only [hpar, halive, hfk]
    exact hI.tree j hj hne

end Core.Inv

/-! ## Every step keeps the invariant -/

theorem reparent_wakes (tab : Nat → Proc) (n p init : Nat) :
    Wakes (fun j => if j < n ∧ (tab j).parent = some p then { tab j with parent := some init }
      else tab j) (reparent tab n p init) := by
  unfold reparent
  split
  · exact Wakes.refl _
  · exact wakeup_wakes _ _ _ _

namespace Sys

variable {s s' : Sys} {c p : Nat} {ok : Bool}

theorem holder_eq_none (hI : s.core.Inv) {lk : Lock} (h : s.holder lk = none) (q : Nat) :
    lk ∉ (s.code q).holds := fun hq => by
  by_cases hqN : q < s.NPROC
  · exact List.find?_eq_none.1 h q (List.mem_range.2 hqN) (by simpa using hq)
  · rw [show s.code q = .user from (hI.outside q (by simpa using hqN)).2] at hq
    simp [Code.holds] at hq

theorem yield_setCode (κ : Code) : (s.setCode p κ).yield c p = s.yield c p := by
  simp [yield, sched, setCode, setProc, setCpu, isMlfq]

theorem yield_inv (hI : s.core.Inv) (hc : (s.cpus c).proc = some p) (hk : s.code p = .user)
    (h : s.yield c p = .ok s') : s'.core.Inv := by
  simp only [yield, sched, Code.holds, List.length_nil, Nat.zero_add, ne_eq, not_true_eq_false,
    if_false, Except.ok.injEq] at h
  subst h
  exact hI.switch hc (Or.inl rfl) rfl rfl rfl trivial (by simp [hk, Code.forking])
    (by simp [hk, Code.linked]) (by simp [hk, Code.exiting])

theorem sleep_inv (hI : s.core.Inv) (hc : (s.cpus c).proc = some p) {chan : Chan} {lk : Lock}
    {k : Code} (hk : s.code p = .sleepOn chan lk k) (h : s.sleep c p chan lk k = .ok s') :
    s'.core.Inv := by
  simp only [sleep, sched] at h
  split at h
  · cases h
  · rename_i hn
    cases h
    have hw := hI.wf p
    simp only [core_code, hk, Code.wf] at hw
    exact hI.switch hc (Or.inr rfl) rfl rfl (List.length_eq_zero.1 (by omega)) ⟨hw.2.2.1, hw.2.2.2⟩
      (by simp [hk, Code.forking]) (by simp [hk, Code.linked]) (by simp [hk, Code.exiting])

theorem exitBody_inv (hI : s.core.Inv) (hc : (s.cpus c).proc = some p) {st : Int}
    (hk : s.code p = .exitBody st) (h : s.exitBody c p st = .ok s') : s'.core.Inv := by
  simp only [exitBody, sched, Code.holds, List.length_nil, Nat.zero_add, ne_eq, not_true_eq_false,
    if_false, Except.ok.injEq] at h
  subst h
  refine (hI.exit hc hk ((reparent_wakes _ _ _ _).trans (wakeup_wakes _ _ _ _)) ?_ ?_
    s.queues).ghost _ _ _ <;> rfl

theorem forkAlloc_inv (hI : s.core.Inv) (hc : (s.cpus c).proc = some p) (hu : s.code p = .user) :
    (s.forkAlloc p ok).core.Inv := by
  have back : Code.Step (s.code p) .user := Code.Step.user (by simp [hu, Code.forking])
  rcases hf : firstSlot (·.state = .UNUSED) s.proc s.NPROC with _ | i
  · simp only [forkAlloc, allocproc, hf]
    exact hI.setCode_step hc back
  · obtain ⟨hiN, hiU⟩ := firstSlot_some hf
    simp only [decide_eq_true_eq] at hiU
    cases ok
    · simp only [forkAlloc, allocproc, hf]
      exact (hI.free (fun h => h.1 hiU) rfl ⟨rfl, rfl, rfl⟩).setCode_step hc back
    · simp only [forkAlloc, allocproc, hf]
      exact hI.fork hc hu hiU hiN rfl (hI.clean _ hiU).2.1

@[simp] theorem isMlfq_setProc (x : Proc) : (s.setProc p x).isMlfq = s.isMlfq := rfl

theorem forkStart_inv (hI : s.core.Inv) (hc : (s.cpus c).proc = some p) {np : Nat}
    (hk : s.code p = .forkStart np) (h : s.forkStart c p np = .ok s') : s'.core.Inv := by
  by_cases hm : s.isMlfq = true <;>
    simp only [forkStart, isMlfq_setProc, hm, if_true, if_false, Bool.false_eq_true] at h <;>
    split at h
  all_goals first
    | (cases h; exact hI.start hc hk _)
    | (rw [← yield_setCode .user] at h
       refine yield_inv ?_ ?_ ?_ h
       · exact hI.start hc hk _
       · exact hc
       · simp [setCode])

theorem schedule_inv (hI : s.core.Inv) (hc : (s.cpus c).proc = none) :
    (s.schedule c).core.Inv := by
  unfold schedule
  split
  · exact hI.idleCpu hc rfl
  rename_i p _
  split
  · rename_i hp
    have htab := fun j (hj : j ≠ p) =>
      Function.update_noteq hj { s.proc p with state := .RUNNING } s.proc
    unfold resume
    split
    · -- back in `sleep`, which goes on to reacquire its lock
      rename_i lk k hk
      have hk' : s.code p = .slept lk k := hk
      have hw := hI.wf p
      simp only [core_code, hk', Code.wf] at hw
      refine hI.dispatch hc hp _ (fun j hj => by simp [setProc, setCode, setCpu, hj]) ?_ ?_
        (Function.update s.code p (.acquire lk k)) (fun j hj => Function.update_noteq hj _ _)
        (by simp [hk', Code.holds]) (fun _ => by rw [Function.update_same]; exact hw.2)
        (fun _ _ => by simpa [Code.forking] using hw.1) (by simp [hk', Code.exiting]) _ <;>
      simp only [setProc, setCode, setCpu, Function.update_same] <;> split_ifs <;> rfl
    all_goals
      rename_i hk
      first
      | exact hI.dispatch hc hp _ htab (by simp) (by simp) s.code (fun _ _ => rfl) rfl id
          (fun h _ => h) rfl _
      | exact hI.dispatch hc hp _ htab (by simp) (by simp) (Function.update s.code p .user)
          (fun j hj => Function.update_noteq hj _ _) (by simp [show s.code p = _ from hk, Code.holds])
          (fun _ => by simp [Code.wf]) (fun _ _ => by simp [Code.forking])
          (by simp [show s.code p = _ from hk, Code.exiting]) _
  · exact hI.idleCpu hc rfl

/-- Every step of a running process keeps the invariant. -/
theorem exec_inv (hI : s.core.Inv) (hc : (s.cpus c).proc = some p) {call : Call}
    (he : s.exec c p call ok = .ok s') : s'.core.Inv := by
  cases exec_effect he with
  | move hs h => rw [h]; exact hI.setCode_step hc hs
  | wake hs _ h =>
    rw [h]; exact ((hI.wakes (wakeup_wakes _ _ _ _)).ghost _ _ _).setCode_step hc hs
  | acquire hk hl => exact hI.acquire hc hk (holder_eq_none hI hl)
  | idle => exact hI
  | fork hu h => rw [h]; exact forkAlloc_inv hI hc hu
  | kill hu h =>
    rw [h]
    exact (hI.wakes (kkill_wakes _ _ _)).setCode_step hc (Code.Step.user (by simp [hu, Code.forking]))
  | priority hu hp h =>
    rw [h]
    exact (hI.wakes hp.wakes).setCode_step hc (Code.Step.user (by simp [hu, Code.forking]))
  | select hu h =>
    rw [h]
    exact (hI.ghost _ _ _).setCode_step hc (Code.Step.user (by simp [hu, Code.forking]))
  | yield hu h => exact yield_inv hI hc hu h
  | sleep hk h => exact sleep_inv hI hc hk h
  | link hk => exact hI.link hc hk
  | start hk h => exact forkStart_inv hI hc hk h
  | exitCall hu hne h =>
    rw [h]
    exact hI.setCode hc (by simp [Code.holds]) trivial (by simp [hu, Code.forking]) rfl
      fun _ => hne
  | exit hk h => exact exitBody_inv hI hc hk h
  | @reap _ _ z hk hz h =>
    rw [h]
    have hzz : (s.proc z).state = .ZOMBIE := by simpa using List.find?_some hz
    exact (hI.free (fun h => h.2 hzz) rfl ⟨rfl, rfl, rfl⟩).setCode_step hc
      (Code.Step.user (by simp [hk, Code.forking]))

/-- Every step of the machine keeps the invariant. -/
theorem step_inv (hI : s.core.Inv) {e : Ev} (h : s.step e = .ok s') : s'.core.Inv := by
  cases e with
  | cpu c call ok =>
    simp only [step] at h
    split at h
    · split at h
      · exact exec_inv hI ‹_› h
      · cases h; exact schedule_inv hI ‹_›
    · cases h; exact hI
  | tick =>
    simp only [step] at h
    split at h <;> cases h
    · exact (hI.wakes (wakeup_wakes _ _ _ _)).ghost _ _ _
    · exact hI

/-- The machine after boot: `initproc` in slot 0, every other slot zero. -/
theorem boot_inv {NPROC NCPU : Nat} (h : 0 < NPROC) : (Sys.boot NPROC NCPU).core.Inv := by
  obtain ⟨n, rfl⟩ : ∃ n, NPROC = n + 1 := ⟨NPROC - 1, by omega⟩
  have hs : firstSlot (·.state = .UNUSED) (fun _ => Proc.zero) (n + 1) = some 0 := by
    simp [firstSlot, List.range_succ_eq_map, Proc.zero]
  -- every slot but 0 is zero, every thread in user space, every CPU idle
  have hz : ∀ j, j ≠ 0 → (Sys.boot (n + 1) NCPU).proc j = Proc.zero := fun j hj => by
    simp [Sys.boot, userinit, allocproc, hs, Sys.zero, hj]
  have h0 : ((Sys.boot (n + 1) NCPU).proc 0).state = .RUNNABLE := by
    simp [Sys.boot, userinit, allocproc, hs, Sys.zero]
  have hi : (Sys.boot (n + 1) NCPU).initproc = 0 := by
    simp [Sys.boot, userinit, allocproc, hs, Sys.zero]
  have hc : ∀ q, (Sys.boot (n + 1) NCPU).code q = .user := fun q => by
    simp [Sys.boot, userinit, allocproc, hs, Sys.zero]
  have hcpu : ∀ d, ((Sys.boot (n + 1) NCPU).cpus d).proc = none := fun d => by
    simp [Sys.boot, userinit, allocproc, hs, Sys.zero]
  have hN : (Sys.boot (n + 1) NCPU).NPROC = n + 1 := by
    simp [Sys.boot, userinit, allocproc, hs, Sys.zero]
  refine ⟨fun d q h => ?_, fun d e q h => ?_, fun q h => ?_, fun q hq => ?_, fun q => ?_,
    fun q r l h => ?_, fun q np h => ?_, fun q r np h => ?_, fun q np h => ?_, fun j hj => ?_,
    ?_, fun j hj hne => ?_⟩
  all_goals simp only [core_code, core_cpus, core_proc, core_NPROC, core_initproc] at *
  · simp [hcpu] at h
  · simp [hcpu] at h
  · rw [hc] at h; cases h
  · rw [hz q (by omega), hc]; exact ⟨rfl, rfl⟩
  · rw [hc]; trivial
  · rw [hc] at h; cases h
  · rw [hc] at h; cases h
  · rw [hc] at h; cases h
  · rw [hc] at h; cases h
  · rcases eq_or_ne j 0 with rfl | hj0
    · simp [h0] at hj
    · simp [hz j hj0, Proc.zero]
  · rw [hi, hc]; exact ⟨by simp [Proc.alive, h0], rfl⟩
  · rcases eq_or_ne j 0 with rfl | hj0
    · exact absurd hi.symm hne
    · simp [hz j hj0, Proc.zero] at hj

/-- The invariant holds in every state the machine reaches. -/
theorem Reach.inv {s : Sys} (h : s.Reach) : s.core.Inv := by
  induction h with
  | boot h => exact boot_inv h
  | step _ he ih => exact step_inv ih he

end Sys

end Xv6.Process
