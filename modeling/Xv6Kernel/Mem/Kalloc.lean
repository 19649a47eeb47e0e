import Xv6Kernel.Fs.Layout
import Mathlib.Data.List.Nodup

/-!
# The physical page allocator

`kalloc.c`: a free list of 4096-byte pages threaded through the pages themselves, and a reference
count per page (`pg_refcnt.count`) for the pages that copy-on-write fork shares. `kinit` puts every
whole page between the end of the kernel and `PHYSTOP` on the list (`freerange`); `kalloc` takes
the head of the list and sets its count to 1; `krefpage` adds a reference, `kunrefpage` drops one
and frees the page when none remains, and `kfree` puts a page back with count 0.

**Steps.** `kmem.lock` guards the list and `pg_refcnt.lock` the counts, and a call holds them one
at a time: `kalloc` pops the list under the first and then sets the count under the second;
`kfree` sets the count under the second and then pushes the page under the first; `kunrefpage`
drops the count under the second, releases it, and only then calls `kfree`. A step is one critical
section, with the range test before it, which reads no shared state; so a call is one to three
steps, and the steps of the other CPUs fall between them (`KSys.Reach`). Between two sections a
call carries its page (`KPc`).

**The law** (`KSys.Inv`): the free list holds managed pages only, each once and with count 0; no
count is negative; and a managed page with count 0 that is not on the list is carried by exactly
one call. So the free pages, the pages in use and the pages in flight add up to the managed pages
(`KSys.Inv.length_add`), every call in flight finishes its next section, and where no call is in
flight a page is on the list exactly when its count is 0 (`Kmem.Law`). The law holds after `kinit`
and every step keeps it (`KSys.Reach.inv`) under the calls' contract: `kfree` and `krefpage` take
managed pages in use, and `krefpage` one whose count is below `INT_MAX`. Inside a call the law of
the calls run alone fails: after `kunrefpage` has dropped the last reference, and until its
`kfree` pushes the page, the page has count 0 and is not on the list (`kalloc_law_breaks`).

**The bound.** The count is a C `int`, and `krefpage` adds to it without a check: past `INT_MAX`
the increment wraps to a negative count, and the page is then neither free nor in use.
-/

namespace Xv6.Mem

open Xv6.Fs (Stop)

/-! ## The allocator -/

def PGSIZE : Nat := 4096

@[simp] theorem PGSIZE_eq : PGSIZE = 4096 := rfl

/-- `PGROUNDUP(a)`. -/
def PGROUNDUP (a : Nat) : Nat := (a + PGSIZE - 1) / PGSIZE * PGSIZE

/-- An `int` result as the kernel's 32-bit arithmetic stores it (two's complement; signed
overflow is undefined in C, and the compiled `addw` wraps). -/
def toInt (x : Int) : Int := (x + 2 ^ 31) % 2 ^ 32 - 2 ^ 31

theorem toInt_of_lt {x : Int} (h₁ : -2 ^ 31 ≤ x) (h₂ : x < 2 ^ 31) : toInt x = x := by
  unfold toInt
  omega

/-- The allocator's state: `kmem.freelist` as the list of its pages from the head, and
`pg_refcnt.count`, indexed by page number. `end` (`kend`) and `PHYSTOP` come from the linker
script and `memlayout.h`, which are not among the sources, so they are fields. -/
structure Kmem where
  kend : Nat
  PHYSTOP : Nat
  freelist : List Nat
  count : Nat → Int

/-- `pa2idx(pa)`. -/
def pa2idx (pa : Nat) : Nat := pa / PGSIZE

/-- The test that `krefpage`, `kunrefpage` and `kfree` make first: `pa` is not the address of a
page between `end` and `PHYSTOP`. -/
def Kmem.bad (m : Kmem) (pa : Nat) : Bool :=
  pa % PGSIZE != 0 || decide (pa < m.kend) || decide (m.PHYSTOP ≤ pa)

/-- `pg_refcnt.count[pa2idx(pa)] = v`. -/
def Kmem.setCount (m : Kmem) (pa : Nat) (v : Int) : Kmem :=
  { m with count := Function.update m.count (pa2idx pa) v }

def krefpage (m : Kmem) (pa : Nat) : Kmem :=
  if m.bad pa then m else m.setCount pa (toInt (m.count (pa2idx pa) + 1))

/-- `kfree`'s test and its section under `pg_refcnt.lock`: the count of `pa` set to 0. -/
def kfreeZero (m : Kmem) (pa : Nat) : Except Stop Kmem :=
  if m.bad pa then .error (.panic "kfree") else .ok (m.setCount pa 0)

/-- `kfree`'s section under `kmem.lock`: `r->next = kmem.freelist; kmem.freelist = r`. -/
def kfreePush (m : Kmem) (pa : Nat) : Kmem := { m with freelist := pa :: m.freelist }

/-- `kfree(pa)`, run alone. -/
def kfree (m : Kmem) (pa : Nat) : Except Stop Kmem := (kfreeZero m pa).map (kfreePush · pa)

/-- `kunrefpage`'s section under `pg_refcnt.lock`, after its test: the count dropped, and
`should_free`. -/
def kunrefpageDrop (m : Kmem) (pa : Nat) : Except Stop (Kmem × Bool) :=
  if m.count (pa2idx pa) < 1 then .error (.panic "kunrefpage: refcount < 1") else
  let m := m.setCount pa (m.count (pa2idx pa) - 1)
  .ok (m, decide (m.count (pa2idx pa) = 0))

/-- `kunrefpage(pa)`, run alone: the state and the result, 1 when the page was freed. -/
def kunrefpage (m : Kmem) (pa : Nat) : Except Stop (Kmem × Int) :=
  if m.bad pa then .ok (m, 0) else
  match kunrefpageDrop m pa with
  | .error e => .error e
  | .ok (m, true) => (kfree m pa).map fun m => (m, 1)
  | .ok (m, false) => .ok (m, 0)

/-- `kalloc`'s section under `kmem.lock`: `r = kmem.freelist; if(r) kmem.freelist = r->next`,
with 0 for a null `r`. -/
def kallocTake (m : Kmem) : Kmem × Nat :=
  match m.freelist with
  | [] => (m, 0)
  | r :: rest => ({ m with freelist := rest }, r)

/-- `kalloc()`, run alone: the state and the page, or 0 when the list is empty. -/
def kalloc (m : Kmem) : Kmem × Nat :=
  let r := kallocTake m
  if r.2 ≠ 0 then (r.1.setCount r.2 1, r.2) else r

/-- The loop of `freerange` from page `p` to `pa_end`, with `n` rounds of fuel. -/
def freerangeLoop : Nat → Kmem → Nat → Nat → Except Stop Kmem
  | 0, m, _, _ => .ok m
  | n + 1, m, p, pa_end =>
    if p + PGSIZE ≤ pa_end then do
      let m ← kfree m p
      freerangeLoop n m (p + PGSIZE) pa_end
    else .ok m

/-- `freerange(pa_start, pa_end)`: the loop runs at most `pa_end / PGSIZE` rounds. -/
def freerange (m : Kmem) (pa_start pa_end : Nat) : Except Stop Kmem :=
  freerangeLoop (pa_end / PGSIZE + 1) m (PGROUNDUP pa_start) pa_end

/-- `kinit()` on the static state: an empty list and every count 0. -/
def kinit (kend PHYSTOP : Nat) : Except Stop Kmem :=
  freerange ⟨kend, PHYSTOP, [], fun _ => 0⟩ kend PHYSTOP

@[simp] theorem Kmem.setCount_kend (m : Kmem) (pa : Nat) (v : Int) :
    (m.setCount pa v).kend = m.kend := rfl
@[simp] theorem Kmem.setCount_PHYSTOP (m : Kmem) (pa : Nat) (v : Int) :
    (m.setCount pa v).PHYSTOP = m.PHYSTOP := rfl
@[simp] theorem Kmem.setCount_bad (m : Kmem) (pa : Nat) (v : Int) (x : Nat) :
    (m.setCount pa v).bad x = m.bad x := rfl
@[simp] theorem Kmem.setCount_freelist (m : Kmem) (pa : Nat) (v : Int) :
    (m.setCount pa v).freelist = m.freelist := rfl

/-! ## Managed pages -/

/-- The pages `freerange` hands to the list: whole pages from `PGROUNDUP(end)` below `PHYSTOP`. -/
def Kmem.frame (m : Kmem) (pa : Nat) : Prop :=
  pa % PGSIZE = 0 ∧ PGROUNDUP m.kend ≤ pa ∧ pa + PGSIZE ≤ m.PHYSTOP

instance (m : Kmem) (pa : Nat) : Decidable (m.frame pa) :=
  inferInstanceAs (Decidable (_ ∧ _ ∧ _))

/-- The `k` pages from `p` up. -/
def pages (p k : Nat) : List Nat := (List.range k).map fun i => p + i * PGSIZE

/-- The managed pages, from the lowest. -/
def Kmem.frames (m : Kmem) : List Nat :=
  pages (PGROUNDUP m.kend) ((m.PHYSTOP - PGROUNDUP m.kend) / PGSIZE)

section Pages

variable {m : Kmem} {pa pa' : Nat}

theorem pa2idx_inj (h : pa % PGSIZE = 0) (h' : pa' % PGSIZE = 0) (e : pa2idx pa = pa2idx pa') :
    pa = pa' := by
  simp only [pa2idx, PGSIZE_eq] at *
  omega

theorem PGROUNDUP_spec (a : Nat) : a ≤ PGROUNDUP a ∧ PGROUNDUP a % PGSIZE = 0 := by
  simp only [PGROUNDUP, PGSIZE_eq]
  omega

theorem Kmem.frame.bad (h : m.frame pa) : m.bad pa = false := by
  obtain ⟨h1, h2, h3⟩ := h
  have := (PGROUNDUP_spec m.kend).1
  simp only [Kmem.bad, Bool.or_eq_false_iff, bne_eq_false_iff_eq, decide_eq_false_iff_not, not_lt]
  simp only [PGSIZE_eq] at h3
  exact ⟨⟨h1, by omega⟩, by omega⟩

theorem Kmem.aligned_of_bad (h : m.bad pa = false) : pa % PGSIZE = 0 := by
  simp only [Kmem.bad, Bool.or_eq_false_iff, bne_eq_false_iff_eq] at h
  exact h.1.1

theorem Kmem.setCount_count (m : Kmem) (pa : Nat) (v : Int) (pa' : Nat) (h : pa % PGSIZE = 0)
    (h' : pa' % PGSIZE = 0) :
    (m.setCount pa v).count (pa2idx pa') = if pa' = pa then v else m.count (pa2idx pa') := by
  unfold Kmem.setCount
  split_ifs with e
  · subst e; exact Function.update_same _ _ _
  · exact Function.update_noteq (fun e' => e (pa2idx_inj h' h e')) _ _

theorem mem_pages {p k x : Nat} :
    x ∈ pages p k ↔ p ≤ x ∧ x < p + k * PGSIZE ∧ (x - p) % PGSIZE = 0 := by
  simp only [pages, List.mem_map, List.mem_range, PGSIZE_eq]
  constructor
  · rintro ⟨i, hi, rfl⟩
    exact ⟨by omega, by omega, by omega⟩
  · rintro ⟨h1, h2, h3⟩
    exact ⟨(x - p) / 4096, by omega, by omega⟩

theorem pages_nodup (p k : Nat) : (pages p k).Nodup :=
  List.Nodup.map (fun i j (e : p + i * PGSIZE = p + j * PGSIZE) => by simp only [PGSIZE_eq] at e; omega)
    (List.nodup_range k)

theorem Kmem.mem_frames : pa ∈ m.frames ↔ m.frame pa := by
  have ⟨hr, hal⟩ := PGROUNDUP_spec m.kend
  simp only [Kmem.frames, mem_pages, Kmem.frame, PGSIZE_eq] at *
  constructor
  · rintro ⟨h1, h2, h3⟩
    have : (m.PHYSTOP - PGROUNDUP m.kend) / 4096 * 4096 ≤ m.PHYSTOP - PGROUNDUP m.kend :=
      Nat.div_mul_le_self _ _
    omega
  · rintro ⟨h1, h2, h3⟩
    refine ⟨h2, ?_, by omega⟩
    have : (pa - PGROUNDUP m.kend + 4096) / 4096 * 4096 ≤ (m.PHYSTOP - PGROUNDUP m.kend) / 4096 * 4096 :=
      Nat.mul_le_mul_right _ (Nat.div_le_div_right (by omega))
    omega

end Pages

/-! ## Threads -/

/-- Where a thread stands in the allocator: outside it, or between two sections of a call, with
the page the call carries. -/
inductive KPc where
  | idle
  /-- `kalloc` has popped `r` and is to set its count to 1. -/
  | kalloc (r : Nat)
  /-- `kunrefpage` has dropped the last reference to `pa` and is to call `kfree(pa)`. -/
  | kunrefpage (pa : Nat)
  /-- `kfree` has set the count of `pa` to 0 and is to push it on the list. -/
  | kfree (pa : Nat)
  deriving DecidableEq, Repr

/-- The page a call carries between two of its sections. -/
def KPc.page : KPc → Option Nat
  | .idle => none
  | .kalloc pa | .kunrefpage pa | .kfree pa => some pa

/-- The allocator and where each thread stands in it. -/
structure KSys where
  mem : Kmem
  pc : Nat → KPc

/-- A call of the allocator's interface. -/
inductive KCall where
  | kalloc
  | kfree (pa : Nat)
  | krefpage (pa : Nat)
  | kunrefpage (pa : Nat)
  deriving DecidableEq, Repr

/-- Thread `t` makes call `c`: its range test and its first section. -/
def KSys.begin (s : KSys) (t : Nat) : KCall → Except Stop KSys
  | .kalloc =>
    let r := kallocTake s.mem
    .ok ⟨r.1, Function.update s.pc t (if r.2 ≠ 0 then .kalloc r.2 else .idle)⟩
  | .kfree pa => (kfreeZero s.mem pa).map fun m => ⟨m, Function.update s.pc t (.kfree pa)⟩
  | .krefpage pa => .ok { s with mem := krefpage s.mem pa }
  | .kunrefpage pa =>
    if s.mem.bad pa then .ok s
    else (kunrefpageDrop s.mem pa).map fun r =>
      ⟨r.1, Function.update s.pc t (if r.2 then .kunrefpage pa else .idle)⟩

/-- Thread `t`'s next section: `kalloc` sets the count of its page to 1, `kunrefpage` calls
`kfree`, whose first section sets the count to 0, and `kfree` pushes its page. -/
def KSys.resume (s : KSys) (t : Nat) : Except Stop KSys :=
  match s.pc t with
  | .idle => .ok s
  | .kalloc r => .ok ⟨s.mem.setCount r 1, Function.update s.pc t .idle⟩
  | .kunrefpage pa => (kfreeZero s.mem pa).map fun m => ⟨m, Function.update s.pc t (.kfree pa)⟩
  | .kfree pa => .ok ⟨kfreePush s.mem pa, Function.update s.pc t .idle⟩

/-- The calls' contract: `kfree` and `krefpage` only on managed pages in use. -/
def KCall.inUse (m : Kmem) : KCall → Prop
  | .kfree pa | .krefpage pa => m.frame pa ∧ 1 ≤ m.count (pa2idx pa)
  | _ => True

/-- The contract with the bound that `krefpage` needs: its page's count is below `INT_MAX`. -/
def KCall.belowMax (m : Kmem) : KCall → Prop
  | .krefpage pa => m.frame pa ∧ 1 ≤ m.count (pa2idx pa) ∧ m.count (pa2idx pa) < 2 ^ 31 - 1
  | c => c.inUse m

/-- The states that the threads reach from `kinit`, their steps interleaved in any order, every
call made under the contract `ok`. `end` lies above address 0. -/
inductive KSys.Reach (ok : Kmem → KCall → Prop) : KSys → Prop
  | init {kend PHYSTOP : Nat} {m : Kmem} :
      0 < kend → kinit kend PHYSTOP = .ok m → KSys.Reach ok ⟨m, fun _ => .idle⟩
  | call {s s' : KSys} {t : Nat} {c : KCall} :
      KSys.Reach ok s → s.pc t = .idle → ok s.mem c → s.begin t c = .ok s' → KSys.Reach ok s'
  | next {s s' : KSys} {t : Nat} : KSys.Reach ok s → s.resume t = .ok s' → KSys.Reach ok s'

/-! ## The law of the calls run alone -/

/-- The allocator's law where no call is in flight (module doc). -/
structure Kmem.Inv (m : Kmem) : Prop where
  kend_pos : 0 < m.kend
  nodup : m.freelist.Nodup
  free_frame : ∀ pa ∈ m.freelist, m.frame pa
  free_iff : ∀ pa, m.frame pa → (pa ∈ m.freelist ↔ m.count (pa2idx pa) = 0)
  nonneg : ∀ pa, m.frame pa → 0 ≤ m.count (pa2idx pa)
  /-- A page-aligned address that is not managed keeps the count 0 it starts with. -/
  other : ∀ pa, pa % PGSIZE = 0 → ¬ m.frame pa → m.count (pa2idx pa) = 0

/-- The pages in use: the managed pages with a count of at least 1. -/
def Kmem.inUse (m : Kmem) : List Nat := m.frames.filter fun pa => decide (1 ≤ m.count (pa2idx pa))

/-- The pages in flight: managed, with count 0, and not on the list. -/
def Kmem.inFlight (m : Kmem) : List Nat :=
  m.frames.filter fun pa => decide (m.count (pa2idx pa) = 0 ∧ pa ∉ m.freelist)

section Count

variable {m : Kmem} {pa : Nat}

/-- When the list holds managed pages with count 0, each once, and no count is negative, the free
pages, the pages in use and the pages in flight add up to the managed pages. -/
theorem Kmem.length_add (hnd : m.freelist.Nodup)
    (hfree : ∀ pa ∈ m.freelist, m.frame pa ∧ m.count (pa2idx pa) = 0)
    (hn : ∀ pa, m.frame pa → 0 ≤ m.count (pa2idx pa)) :
    m.freelist.length + m.inUse.length + m.inFlight.length = m.frames.length := by
  obtain ⟨F, hFd⟩ : ∃ F, F = m.frames.filter fun pa => !decide (1 ≤ m.count (pa2idx pa)) :=
    ⟨_, rfl⟩
  have hF : m.frames.length = m.inUse.length + F.length := hFd ▸ List.length_eq_length_filter_add _
  have hS : F.length = (F.filter fun pa => decide (pa ∈ m.freelist)).length +
      (F.filter fun pa => !decide (pa ∈ m.freelist)).length := List.length_eq_length_filter_add _
  have hmem : ∀ pa, pa ∈ F ↔ m.frame pa ∧ m.count (pa2idx pa) = 0 := fun pa => by
    simp only [hFd, List.mem_filter, Kmem.mem_frames, Bool.not_eq_true', decide_eq_false_iff_not,
      not_le]
    exact and_congr_right fun hf => by have := hn pa hf; omega
  have hperm : m.freelist.Perm (F.filter fun pa => decide (pa ∈ m.freelist)) :=
    (List.perm_ext_iff_of_nodup hnd ((hFd ▸ (pages_nodup _ _).filter _ : F.Nodup).filter _)).2
      fun pa => by
        simp only [List.mem_filter, hmem, decide_eq_true_eq]
        exact ⟨fun hp => ⟨hfree pa hp, hp⟩, fun h => h.2⟩
  have hfl : m.inFlight = F.filter fun pa => !decide (pa ∈ m.freelist) := by
    simp only [Kmem.inFlight, hFd, List.filter_filter]
    refine List.filter_congr fun pa hpa => ?_
    have h0 : m.count (pa2idx pa) = 0 ↔ m.count (pa2idx pa) < 1 := by
      have := hn pa (Kmem.mem_frames.1 hpa); omega
    by_cases hl : pa ∈ m.freelist <;> simp [hl, h0, ← not_le]
  rw [hperm.length_eq, hfl]
  omega

/-- Where no call is in flight, the free pages and the pages in use add up to the managed pages. -/
theorem Kmem.Inv.length_add (h : m.Inv) :
    m.freelist.length + m.inUse.length = m.frames.length := by
  have hnil : m.inFlight = [] := List.filter_eq_nil_iff.2 fun pa hpa => by
    simpa using (h.free_iff pa (Kmem.mem_frames.1 hpa)).2
  have := Kmem.length_add h.nodup
    (fun pa hp => ⟨h.free_frame pa hp, (h.free_iff pa (h.free_frame pa hp)).1 hp⟩) h.nonneg
  rwa [hnil, List.length_nil, Nat.add_zero] at this

theorem Kmem.Inv.not_mem (h : m.Inv) (hp : m.frame pa) (hc : 1 ≤ m.count (pa2idx pa)) :
    pa ∉ m.freelist := fun hm => by
  have := (h.free_iff pa hp).1 hm
  omega

end Count

/-! ## `kinit` -/

section Init

theorem pages_succ (p k : Nat) : pages p (k + 1) = p :: pages (p + PGSIZE) k := by
  simp only [pages, List.range_succ_eq_map, List.map_cons, List.map_map, PGSIZE_eq]
  refine congrArg₂ _ (by simp) (List.map_congr_left fun i _ => ?_)
  simp only [Function.comp_apply]
  omega

/-- `freerange` from page `p` on the static counts puts the `k` pages that fit below `PHYSTOP`
on the list, given enough rounds of fuel. -/
theorem freerangeLoop_pages (kend PHYSTOP : Nat) :
    ∀ (k n p : Nat) (l : List Nat), p % PGSIZE = 0 → kend ≤ p →
      k * PGSIZE ≤ PHYSTOP - p → PHYSTOP - p < (k + 1) * PGSIZE → k < n →
      freerangeLoop n ⟨kend, PHYSTOP, l, fun _ => 0⟩ p PHYSTOP =
        .ok ⟨kend, PHYSTOP, (pages p k).reverse ++ l, fun _ => 0⟩
  | _, 0, _, _, _, _, _, _, hn => absurd hn (Nat.not_lt_zero _)
  | 0, n + 1, p, l, _, _, _, h₂, _ => by
    simp only [PGSIZE_eq] at h₂
    rw [freerangeLoop, if_neg (by simp only [PGSIZE_eq]; omega)]
    rfl
  | k + 1, n + 1, p, l, hal, hk, h₁, h₂, hn => by
    simp only [PGSIZE_eq] at hal h₁ h₂
    have hbad : Kmem.bad ⟨kend, PHYSTOP, l, fun _ => 0⟩ p = false := by
      simp only [Kmem.bad, Bool.or_eq_false_iff, bne_eq_false_iff_eq, decide_eq_false_iff_not,
        not_lt, not_le]
      exact ⟨⟨hal, hk⟩, by omega⟩
    have e : kfree ⟨kend, PHYSTOP, l, fun _ => 0⟩ p = .ok ⟨kend, PHYSTOP, p :: l, fun _ => 0⟩ := by
      rw [kfree, kfreeZero, if_neg (by simp [hbad])]
      simp only [Except.map, kfreePush, Kmem.setCount]
      rw [show Function.update (fun _ => (0 : Int)) (pa2idx p) 0 = fun _ => 0 from
        Function.update_eq_self _ _]
    rw [freerangeLoop, if_pos (by simp only [PGSIZE_eq]; omega), e]
    show freerangeLoop n _ (p + PGSIZE) PHYSTOP = _
    rw [freerangeLoop_pages kend PHYSTOP k n (p + PGSIZE) (p :: l) (by simp only [PGSIZE_eq]; omega)
      (by omega) (by simp only [PGSIZE_eq]; omega) (by simp only [PGSIZE_eq]; omega) (by omega),
      pages_succ]
    simp

/-- `kinit` puts every managed page on the list, the highest first, with every count 0. -/
theorem kinit_eq (kend PHYSTOP : Nat) :
    kinit kend PHYSTOP = .ok ⟨kend, PHYSTOP,
      (pages (PGROUNDUP kend) ((PHYSTOP - PGROUNDUP kend) / PGSIZE)).reverse, fun _ => 0⟩ := by
  have ⟨hr, hal⟩ := PGROUNDUP_spec kend
  have e := freerangeLoop_pages kend PHYSTOP ((PHYSTOP - PGROUNDUP kend) / PGSIZE)
    (PHYSTOP / PGSIZE + 1) (PGROUNDUP kend) [] hal hr
    (Nat.div_mul_le_self _ _) (by simp only [PGSIZE_eq]; omega)
    (by simp only [PGSIZE_eq]; omega)
  rw [List.append_nil] at e
  exact e

end Init

/-! ## The law under any interleaving -/

/-- The allocator's law where calls interleave (module doc). -/
structure KSys.Inv (s : KSys) : Prop where
  kend_pos : 0 < s.mem.kend
  nodup : s.mem.freelist.Nodup
  free : ∀ pa ∈ s.mem.freelist, s.mem.frame pa ∧ s.mem.count (pa2idx pa) = 0
  nonneg : ∀ pa, s.mem.frame pa → 0 ≤ s.mem.count (pa2idx pa)
  /-- A page-aligned address that is not managed keeps the count 0 it starts with. -/
  other : ∀ pa, pa % PGSIZE = 0 → ¬ s.mem.frame pa → s.mem.count (pa2idx pa) = 0
  /-- A call in flight carries a managed page with count 0 that is not on the list. -/
  carried : ∀ t pa, (s.pc t).page = some pa →
    s.mem.frame pa ∧ s.mem.count (pa2idx pa) = 0 ∧ pa ∉ s.mem.freelist
  /-- No two calls carry one page. -/
  unique : ∀ t u pa, (s.pc t).page = some pa → (s.pc u).page = some pa → t = u
  /-- A managed page with count 0 that is not on the list is carried by a call. -/
  held : ∀ pa, s.mem.frame pa → s.mem.count (pa2idx pa) = 0 → pa ∉ s.mem.freelist →
    ∃ t, (s.pc t).page = some pa

section Steps

variable {s s' : KSys} {t : Nat}

@[simp] theorem Kmem.setCount_count_self (m : Kmem) (pa : Nat) (v : Int) :
    (m.setCount pa v).count (pa2idx pa) = v :=
  Function.update_same _ _ _

theorem Kmem.setCount_count_of_ne {m : Kmem} {pa x : Nat} {v : Int} (hx : x % PGSIZE = 0)
    (hpa : pa % PGSIZE = 0) (e : x ≠ pa) :
    (m.setCount pa v).count (pa2idx x) = m.count (pa2idx x) :=
  (Kmem.setCount_count m pa v x hpa hx).trans (if_neg e)

@[simp] theorem KPc.page_update_self (f : Nat → KPc) (t : Nat) (k : KPc) :
    (Function.update f t k t).page = k.page := by
  rw [Function.update_same]

/-- A step that changes the count and the list only at managed page `p`, and where thread `t`
stands, keeps the law, when `t` carries nothing but `p` before and after, no other thread carries
`p`, and `p` is left on the list with count 0, in use, or carried by `t`. -/
theorem KSys.Inv.step (h : s.Inv) {p : Nat} (hp : s.mem.frame p)
    (hk : s'.mem.kend = s.mem.kend) (hP : s'.mem.PHYSTOP = s.mem.PHYSTOP)
    (hnd : s'.mem.freelist.Nodup)
    (hc : ∀ x, x % PGSIZE = 0 → x ≠ p → s'.mem.count (pa2idx x) = s.mem.count (pa2idx x))
    (hl : ∀ x, x ≠ p → (x ∈ s'.mem.freelist ↔ x ∈ s.mem.freelist))
    (hpc : ∀ u, u ≠ t → s'.pc u = s.pc u)
    (ht : ∀ x, (s.pc t).page = some x → x = p) (ht' : ∀ x, (s'.pc t).page = some x → x = p)
    (hown : ∀ u, u ≠ t → (s.pc u).page ≠ some p)
    (hpv : 0 ≤ s'.mem.count (pa2idx p)) (hpl : p ∈ s'.mem.freelist → s'.mem.count (pa2idx p) = 0)
    (hpt : (s'.pc t).page = some p ↔ s'.mem.count (pa2idx p) = 0 ∧ p ∉ s'.mem.freelist) :
    s'.Inv := by
  have hf : ∀ x, s'.mem.frame x ↔ s.mem.frame x := fun x => by simp only [Kmem.frame, hk, hP]
  refine ⟨hk ▸ h.kend_pos, hnd, fun x hx => ?free, fun x hx => ?nonneg, fun x hal hx => ?other,
    fun u x hu => ?carried, fun u v x hu hv => ?unique, fun x hx h0 hx' => ?held⟩
  case free =>
    by_cases e : x = p
    · rw [e] at hx ⊢; exact ⟨(hf p).2 hp, hpl hx⟩
    · have hx := h.free x ((hl x e).1 hx)
      exact ⟨(hf x).2 hx.1, (hc x hx.1.1 e).trans hx.2⟩
  case nonneg =>
    by_cases e : x = p
    · rw [e]; exact hpv
    · rw [hc x ((hf x).1 hx).1 e]; exact h.nonneg x ((hf x).1 hx)
  case other =>
    have e : x ≠ p := fun e => hx (e ▸ (hf p).2 hp)
    rw [hc x hal e]; exact h.other x hal fun h' => hx ((hf x).2 h')
  case carried =>
    by_cases e : u = t
    · rw [e] at hu
      have e' := ht' x hu
      rw [e'] at hu ⊢
      exact ⟨(hf p).2 hp, hpt.1 hu⟩
    · rw [hpc u e] at hu
      obtain ⟨hxf, hx0, hxl⟩ := h.carried u x hu
      have hxp : x ≠ p := fun hxp => hown u e (hxp ▸ hu)
      exact ⟨(hf x).2 hxf, (hc x hxf.1 hxp).trans hx0, fun hx' => hxl ((hl x hxp).1 hx')⟩
  case unique =>
    by_cases eu : u = t <;> by_cases ev : v = t
    · rw [eu, ev]
    · rw [eu] at hu; have e := ht' x hu; rw [hpc v ev, e] at hv; exact absurd hv (hown v ev)
    · rw [ev] at hv; have e := ht' x hv; rw [hpc u eu, e] at hu; exact absurd hu (hown u eu)
    · rw [hpc u eu] at hu; rw [hpc v ev] at hv; exact h.unique u v x hu hv
  case held =>
    by_cases e : x = p
    · rw [e] at h0 hx' ⊢; exact ⟨t, hpt.2 ⟨h0, hx'⟩⟩
    · have hxf := (hf x).1 hx
      obtain ⟨u, hu⟩ := h.held x hxf ((hc x hxf.1 e).symm.trans h0) fun hl' => hx' ((hl x e).2 hl')
      have hut : u ≠ t := fun hut => e (ht x (hut ▸ hu))
      exact ⟨u, (hpc u hut).symm ▸ hu⟩

/-- A managed page is not page 0, since `end` lies above it. -/
theorem Kmem.frame_ne_zero {m : Kmem} (hk : 0 < m.kend) {pa : Nat} (hp : m.frame pa) :
    pa ≠ 0 := by
  have := (PGROUNDUP_spec m.kend).1
  have := hp.2.1
  omega

/-- A page whose count is not 0 is neither on the list nor carried. -/
theorem KSys.Inv.not_free (h : s.Inv) {pa : Nat} (h1 : 1 ≤ s.mem.count (pa2idx pa)) :
    pa ∉ s.mem.freelist ∧ ∀ u, (s.pc u).page ≠ some pa :=
  ⟨fun hm => by have := (h.free pa hm).2; omega,
    fun u hu => by have := (h.carried u pa hu).2.1; omega⟩

/-- The page that thread `t` carries is the only one it carries, and no other thread carries it. -/
theorem KSys.Inv.carrier (h : s.Inv) {p : Nat} (hkp : (s.pc t).page = some p) :
    (∀ x, (s.pc t).page = some x → x = p) ∧ ∀ u, u ≠ t → (s.pc u).page ≠ some p :=
  ⟨fun _ hx => Option.some.inj (hx.symm.trans hkp), fun u hu hu' => hu (h.unique u t p hu' hkp)⟩

/-- A section that sets the count of managed page `p`, off the list and carried by no other
thread, to `v ≥ 0`, and moves thread `t`, which carries nothing but `p`, to a point where it
carries `p` exactly when `v = 0`, keeps the law. -/
theorem KSys.Inv.setCount (h : s.Inv) {p : Nat} (hp : s.mem.frame p) (hpl : p ∉ s.mem.freelist)
    {v : Int} (hv : 0 ≤ v) {k : KPc} (ht : ∀ x, (s.pc t).page = some x → x = p)
    (hk : ∀ x, k.page = some x ↔ x = p ∧ v = 0) (hown : ∀ u, u ≠ t → (s.pc u).page ≠ some p) :
    (⟨s.mem.setCount p v, Function.update s.pc t k⟩ : KSys).Inv :=
  h.step hp rfl rfl h.nodup (fun _ hx e => Kmem.setCount_count_of_ne hx hp.1 e)
    (fun _ _ => Iff.rfl) (fun _ hu => Function.update_noteq hu _ _) ht
    (fun x hx => ((hk x).1 (by simpa using hx)).1) hown (by simpa using hv)
    (fun hm => absurd hm hpl) (by simpa [hpl] using hk p)

/-- A call made under the contract by an idle thread keeps the law. -/
theorem KSys.Inv.begin (h : s.Inv) (hi : s.pc t = .idle) {c : KCall} (hc : c.belowMax s.mem)
    (he : s.begin t c = .ok s') : s'.Inv := by
  have hnone : ∀ p x, (s.pc t).page = some x → x = p := fun _ _ hx => by rw [hi] at hx; cases hx
  cases c with
  | kalloc =>
    cases hf : s.mem.freelist with
    | nil =>
      simp only [KSys.begin, kallocTake, hf, ne_eq, not_true_eq_false, if_false] at he
      cases he
      rw [← hi, Function.update_eq_self]
      exact h
    | cons r rest =>
      have hm : r ∈ s.mem.freelist := by rw [hf]; exact List.mem_cons_self _ _
      obtain ⟨hr, hr0⟩ := h.free r hm
      have hnd : (r :: rest).Nodup := hf ▸ h.nodup
      simp only [KSys.begin, kallocTake, hf, ne_eq, Kmem.frame_ne_zero h.kend_pos hr,
        not_false_eq_true, if_true] at he
      cases he
      refine h.step hr rfl rfl hnd.of_cons (fun _ _ _ => rfl)
        (fun x hx => by rw [hf, List.mem_cons, or_iff_right hx])
        (fun _ hu => Function.update_noteq hu _ _) (hnone r)
        (fun x hx => by simpa [KPc.page] using hx.symm)
        (fun u _ hu => (h.carried u r hu).2.2 hm) hr0.ge
        (fun hm' => absurd hm' (List.nodup_cons.1 hnd).1)
        (iff_of_true (by simp [KPc.page]) ⟨hr0, (List.nodup_cons.1 hnd).1⟩)
  | kfree pa =>
    obtain ⟨hp, h1⟩ := hc
    have ⟨hpl, hown⟩ := h.not_free h1
    simp only [KSys.begin, kfreeZero, hp.bad, Bool.false_eq_true, if_false, Except.map] at he
    cases he
    exact h.setCount hp hpl le_rfl (hnone pa) (by simp [KPc.page, eq_comm]) fun u _ => hown u
  | krefpage pa =>
    obtain ⟨hp, h1, hmax⟩ := hc
    have ⟨hpl, hown⟩ := h.not_free h1
    cases he
    have e : krefpage s.mem pa = s.mem.setCount pa (s.mem.count (pa2idx pa) + 1) := by
      rw [krefpage, if_neg (by simp [hp.bad]), toInt_of_lt (by omega) (by omega)]
    have := h.setCount (k := .idle) (v := s.mem.count (pa2idx pa) + 1) hp hpl (by omega)
      (hnone pa) (fun _ => by simp [KPc.page]; omega) fun u _ => hown u
    rwa [← hi, Function.update_eq_self, ← e] at this
  | kunrefpage pa =>
    by_cases hb : s.mem.bad pa
    · simp only [KSys.begin, hb, if_true] at he
      cases he; exact h
    by_cases hlt : s.mem.count (pa2idx pa) < 1
    · simp [KSys.begin, hb, kunrefpageDrop, hlt, Except.map] at he
    have hp : s.mem.frame pa := by
      by_contra hnf
      have := h.other pa (Kmem.aligned_of_bad (by simpa using hb)) hnf
      omega
    have ⟨hpl, hown⟩ := h.not_free (not_lt.1 hlt)
    simp only [KSys.begin, hb, Bool.false_eq_true, if_false, kunrefpageDrop, if_neg hlt,
      Kmem.setCount_count_self, Except.map] at he
    cases he
    refine h.setCount hp hpl (by omega) (hnone pa) (fun x => ?_) fun u _ => hown u
    by_cases h0 : s.mem.count (pa2idx pa) - 1 = 0 <;> simp [h0, KPc.page, eq_comm]

/-- Each next section of a call in flight keeps the law. -/
theorem KSys.Inv.resume (h : s.Inv) (he : s.resume t = .ok s') : s'.Inv := by
  unfold KSys.resume at he
  cases hk : s.pc t with
  | idle => rw [hk] at he; cases he; exact h
  | kalloc r =>
    have hkr : (s.pc t).page = some r := by rw [hk]; rfl
    obtain ⟨hr, -, hrl⟩ := h.carried t r hkr
    rw [hk] at he; cases he
    exact h.setCount hr hrl (by decide) (h.carrier hkr).1 (by simp [KPc.page]) (h.carrier hkr).2
  | kunrefpage pa =>
    have hkp : (s.pc t).page = some pa := by rw [hk]; rfl
    obtain ⟨hp, -, hpl⟩ := h.carried t pa hkp
    rw [hk] at he
    simp only [kfreeZero, hp.bad, Bool.false_eq_true, if_false, Except.map] at he
    cases he
    exact h.setCount hp hpl le_rfl (h.carrier hkp).1 (by simp [KPc.page, eq_comm])
      (h.carrier hkp).2
  | kfree pa =>
    have hkp : (s.pc t).page = some pa := by rw [hk]; rfl
    obtain ⟨hp, hp0, hpl⟩ := h.carried t pa hkp
    rw [hk] at he; cases he
    exact h.step hp rfl rfl (List.nodup_cons.2 ⟨hpl, h.nodup⟩) (fun _ _ _ => rfl)
      (fun x hx => by simp [kfreePush, hx]) (fun _ hu => Function.update_noteq hu _ _)
      (h.carrier hkp).1 (fun x hx => by simp [KPc.page] at hx) (h.carrier hkp).2
      (hp0 ▸ le_rfl) (fun _ => hp0)
      (iff_of_false (by simp [KPc.page]) fun h' => h'.2 (List.mem_cons_self _ _))

/-- Every call in flight finishes its next section: only `kfree`'s test could panic there, and
the page a call carries passes it. -/
theorem KSys.Inv.resume_ok (h : s.Inv) (t : Nat) : ∃ s', s.resume t = .ok s' := by
  unfold KSys.resume
  cases hk : s.pc t with
  | kunrefpage pa =>
    have hp := (h.carried t pa (by rw [hk]; rfl)).1
    exact ⟨_, by simp only [kfreeZero, hp.bad, Bool.false_eq_true, if_false]; rfl⟩
  | _ => exact ⟨_, rfl⟩

theorem KSys.init_inv {kend PHYSTOP : Nat} {m : Kmem} (hk : 0 < kend)
    (h : kinit kend PHYSTOP = .ok m) : (⟨m, fun _ => .idle⟩ : KSys).Inv := by
  rw [kinit_eq] at h
  cases h
  exact ⟨hk, List.nodup_reverse.2 (pages_nodup _ _),
    fun pa hp => ⟨Kmem.mem_frames.1 (List.mem_reverse.1 hp), rfl⟩, fun _ _ => le_rfl,
    fun _ _ _ => rfl, nofun, nofun,
    fun pa hf _ hpl => absurd (List.mem_reverse.2 (Kmem.mem_frames.2 hf)) hpl⟩

/-- The law holds in every state that the threads reach under the bounded contract. -/
theorem KSys.Reach.inv (hr : s.Reach KCall.belowMax) : s.Inv := by
  induction hr with
  | init hk h => exact KSys.init_inv hk h
  | call _ hi hc he ih => exact ih.begin hi hc he
  | next _ he ih => exact ih.resume he

/-- Where no call is in flight, a managed page is on the list exactly when its count is 0. -/
theorem KSys.Inv.quiet (h : s.Inv) (hq : ∀ t, s.pc t = .idle) : s.mem.Inv where
  kend_pos := h.kend_pos
  nodup := h.nodup
  free_frame pa hp := (h.free pa hp).1
  free_iff pa hf := ⟨fun hp => (h.free pa hp).2, fun h0 => by
    by_contra hl
    obtain ⟨t, ht⟩ := h.held pa hf h0 hl
    rw [hq t] at ht
    cases ht⟩
  nonneg := h.nonneg
  other := h.other

/-- The pages in flight are those that the calls carry. -/
theorem KSys.Inv.mem_inFlight (h : s.Inv) (pa : Nat) :
    pa ∈ s.mem.inFlight ↔ ∃ t, (s.pc t).page = some pa := by
  simp only [Kmem.inFlight, List.mem_filter, Kmem.mem_frames, decide_eq_true_eq]
  constructor
  · rintro ⟨hf, h0, hl⟩
    exact h.held pa hf h0 hl
  · rintro ⟨t, ht⟩
    exact h.carried t pa ht

/-- `kalloc`'s first section takes a free managed page, whose count is 0. -/
theorem KSys.Inv.kallocTake_free (h : s.Inv) :
    ((kallocTake s.mem).2 = 0 ∧ s.mem.freelist = []) ∨
    ((kallocTake s.mem).2 ∈ s.mem.freelist ∧ s.mem.frame (kallocTake s.mem).2 ∧
      s.mem.count (pa2idx (kallocTake s.mem).2) = 0) := by
  unfold kallocTake
  split
  · exact .inl ⟨rfl, ‹_›⟩
  · rename_i r rest hf
    have hm : r ∈ s.mem.freelist := by rw [hf]; exact List.mem_cons_self _ _
    exact .inr ⟨hm, h.free r hm⟩

end Steps

/-! ## What `kalloc` and `kunrefpage` do -/

section Calls

variable {m : Kmem} {s : KSys}

theorem Kmem.setCount_setCount (m : Kmem) (pa : Nat) (v w : Int) :
    (m.setCount pa v).setCount pa w = m.setCount pa w := by
  simp only [Kmem.setCount, Function.update_idem]

/-- `kalloc`, run alone, hands out a free managed page, whose count was 0, and sets its count to
1; it returns 0 only when the list is empty. -/
theorem Kmem.Inv.kalloc_fresh (h : m.Inv) :
    ((kalloc m).2 = 0 ∧ (kalloc m).1 = m ∧ m.freelist = []) ∨
    (m.frame (kalloc m).2 ∧ m.count (pa2idx (kalloc m).2) = 0 ∧
      (kalloc m).1.count (pa2idx (kalloc m).2) = 1) := by
  cases hf : m.freelist with
  | nil =>
    have hk : kalloc m = (m, 0) := by simp [kalloc, kallocTake, hf]
    rw [hk]
    exact .inl ⟨rfl, rfl, rfl⟩
  | cons r rest =>
    have hmem : r ∈ m.freelist := by rw [hf]; exact List.mem_cons_self _ _
    have hr := h.free_frame r hmem
    have hk : kalloc m = ({ m with freelist := rest }.setCount r 1, r) := by
      simp [kalloc, kallocTake, hf, Kmem.frame_ne_zero h.kend_pos hr]
    rw [hk]
    exact .inr ⟨hr, (h.free_iff r hr).1 hmem, by simp⟩

/-- `kunrefpage`, run alone, of an address that passes its test panics on a count below 1; it
frees the page and returns 1 when the count goes from 1 to 0, and otherwise lowers the count and
returns 0. -/
theorem Kmem.Inv.kunrefpage_cases (h : m.Inv) {pa : Nat} (hb : m.bad pa = false) :
    (m.count (pa2idx pa) < 1 ∧ kunrefpage m pa = .error (.panic "kunrefpage: refcount < 1")) ∨
    (m.count (pa2idx pa) = 1 ∧ ∃ m', kunrefpage m pa = .ok (m', 1) ∧ pa ∈ m'.freelist ∧
      m'.count (pa2idx pa) = 0) ∨
    (1 < m.count (pa2idx pa) ∧ ∃ m', kunrefpage m pa = .ok (m', 0) ∧ pa ∉ m'.freelist ∧
      m'.count (pa2idx pa) = m.count (pa2idx pa) - 1) := by
  by_cases hlt : m.count (pa2idx pa) < 1
  · exact .inl ⟨hlt, by simp only [kunrefpage, hb, Bool.false_eq_true, if_false, kunrefpageDrop,
      if_pos hlt]⟩
  have hp : m.frame pa := by
    by_contra hnf
    have := h.other pa (Kmem.aligned_of_bad hb) hnf
    omega
  have hd : kunrefpageDrop m pa = .ok (m.setCount pa (m.count (pa2idx pa) - 1),
      decide (m.count (pa2idx pa) - 1 = 0)) := by
    simp only [kunrefpageDrop, if_neg hlt, Kmem.setCount_count_self]
  by_cases h1 : m.count (pa2idx pa) = 1
  · refine .inr (.inl ⟨h1, kfreePush ((m.setCount pa (m.count (pa2idx pa) - 1)).setCount pa 0) pa,
      ?_, List.mem_cons_self _ _, by simp [kfreePush]⟩)
    simp only [kunrefpage, hb, Bool.false_eq_true, if_false, hd,
      show m.count (pa2idx pa) - 1 = 0 by omega,
      decide_True, kfree, kfreeZero, Kmem.setCount_bad, hb, Bool.false_eq_true, Except.map]
  · refine .inr (.inr ⟨by omega, m.setCount pa (m.count (pa2idx pa) - 1), ?_,
      h.not_mem hp (by omega), by simp⟩)
    simp only [kunrefpage, hb, Bool.false_eq_true, if_false, hd,
      show ¬(m.count (pa2idx pa) - 1 = 0) by omega,
      decide_False]

/-- The law of the calls run alone, at a state where no call is in flight: the law, the count of
the pages, and what `kalloc` and `kunrefpage` do there. -/
structure Kmem.Law (m : Kmem) : Prop where
  inv : m.Inv
  length_add : m.freelist.length + m.inUse.length = m.frames.length
  kalloc_fresh : ((kalloc m).2 = 0 ∧ (kalloc m).1 = m ∧ m.freelist = []) ∨
    (m.frame (kalloc m).2 ∧ m.count (pa2idx (kalloc m).2) = 0 ∧
      (kalloc m).1.count (pa2idx (kalloc m).2) = 1)
  kunrefpage_cases : ∀ pa, m.bad pa = false →
    (m.count (pa2idx pa) < 1 ∧ kunrefpage m pa = .error (.panic "kunrefpage: refcount < 1")) ∨
    (m.count (pa2idx pa) = 1 ∧ ∃ m', kunrefpage m pa = .ok (m', 1) ∧ pa ∈ m'.freelist ∧
      m'.count (pa2idx pa) = 0) ∨
    (1 < m.count (pa2idx pa) ∧ ∃ m', kunrefpage m pa = .ok (m', 0) ∧ pa ∉ m'.freelist ∧
      m'.count (pa2idx pa) = m.count (pa2idx pa) - 1)

/-- The allocator's contract at a state of any interleaving: the law; the free pages, the pages in
use and the pages in flight add up to the managed pages, and the pages in flight are those the
calls carry; `kalloc` takes only a free page; every call in flight finishes its next section; and
where no call is in flight, the law of the calls run alone. -/
structure KSys.Law (s : KSys) : Prop where
  inv : s.Inv
  length_add : s.mem.freelist.length + s.mem.inUse.length + s.mem.inFlight.length =
    s.mem.frames.length
  inFlight : ∀ pa, pa ∈ s.mem.inFlight ↔ ∃ t, (s.pc t).page = some pa
  take : ((kallocTake s.mem).2 = 0 ∧ s.mem.freelist = []) ∨
    ((kallocTake s.mem).2 ∈ s.mem.freelist ∧ s.mem.frame (kallocTake s.mem).2 ∧
      s.mem.count (pa2idx (kallocTake s.mem).2) = 0)
  resume : ∀ t, ∃ s', s.resume t = .ok s'
  quiet : (∀ t, s.pc t = .idle) → s.mem.Law

/-- Every state that the threads reach from `kinit`, their critical sections interleaved in any
order, with `kfree` and `krefpage` called only on managed pages in use and `krefpage` only below
`INT_MAX`, keeps the allocator's contract. -/
theorem kalloc_law (hr : s.Reach KCall.belowMax) : s.Law :=
  have h := hr.inv
  have hq : (∀ t, s.pc t = .idle) → s.mem.Inv := h.quiet
  ⟨h, Kmem.length_add h.nodup h.free h.nonneg, h.mem_inFlight, h.kallocTake_free, h.resume_ok,
    fun hi =>
      ⟨hq hi, (hq hi).length_add, (hq hi).kalloc_fresh, fun _ hb => (hq hi).kunrefpage_cases hb⟩⟩

/-- Thread 0 allocates the one page between 4096 and 8192 and drops its reference: it stands in
`kunrefpage`'s window, before `kfree`. -/
theorem kunrefpage_window : ∃ s : KSys, s.Reach KCall.belowMax ∧ s.pc 0 = .kunrefpage 4096 ∧
    s.mem.frames = [4096] ∧ s.mem.freelist = [] ∧ s.mem.count (pa2idx 4096) = 0 :=
  ⟨_, .call (t := 0) (c := .kunrefpage 4096) (.next (t := 0) (.call (t := 0) (c := .kalloc)
    (.init (by decide) (kinit_eq 4096 8192)) rfl trivial rfl) rfl) rfl trivial rfl,
    rfl, by decide, rfl, rfl⟩

theorem kalloc_law_window : ∃ s : KSys, s.Reach KCall.belowMax ∧ s.pc 0 = .kunrefpage 4096 ∧
    s.Law := by
  obtain ⟨s, hr, hpc, -⟩ := kunrefpage_window
  exact ⟨s, hr, hpc, kalloc_law hr⟩

/-- The law of the calls run alone fails inside a call, and past `INT_MAX`. In `kunrefpage`'s
window the one managed page has count 0 and is not on the list. Without the bound, `kalloc` and
then `INT_MAX` calls of `krefpage`, each on a page in use, leave its count at `INT_MIN`. Either
way the page is neither free nor in use. -/
theorem kalloc_law_breaks :
    (∃ s : KSys, s.Reach KCall.belowMax ∧ s.mem.frame 4096 ∧ s.mem.count (pa2idx 4096) = 0 ∧
      4096 ∉ s.mem.freelist ∧ s.mem.freelist.length + s.mem.inUse.length ≠ s.mem.frames.length) ∧
    (∃ s : KSys, s.Reach KCall.inUse ∧ s.mem.count (pa2idx 4096) = -2 ^ 31 ∧
      s.mem.freelist.length + s.mem.inUse.length ≠ s.mem.frames.length) := by
  refine ⟨?window, ?wrap⟩
  case window =>
    obtain ⟨s, hr, -, hfr, hfl, h0⟩ := kunrefpage_window
    refine ⟨s, hr, Kmem.mem_frames.1 (by rw [hfr]; exact List.mem_singleton_self _), h0,
      by rw [hfl]; exact List.not_mem_nil _, ?_⟩
    simp [Kmem.inUse, hfr, hfl, h0]
  case wrap =>
    have hfr : (⟨4096, 8192, [], fun _ => 0⟩ : Kmem).frame 4096 := by decide
    have hkr : ∀ v : Int, krefpage ((⟨4096, 8192, [], fun _ => 0⟩ : Kmem).setCount 4096 v) 4096 =
        (⟨4096, 8192, [], fun _ => 0⟩ : Kmem).setCount 4096 (toInt (v + 1)) := fun v => by
      rw [krefpage, if_neg (by rw [Kmem.setCount_bad]; decide), Kmem.setCount_count_self,
        Kmem.setCount_setCount]
    -- thread 0 has allocated the page and returned
    let P : Nat → KPc := Function.update (Function.update (fun _ => .idle) 0 (.kalloc 4096)) 0 .idle
    have hk : ∀ k : Nat, k + 1 < 2 ^ 31 → KSys.Reach KCall.inUse
        ⟨(⟨4096, 8192, [], fun _ => 0⟩ : Kmem).setCount 4096 (k + 1 : Nat), P⟩ := by
      intro k
      induction k with
      | zero =>
        exact fun _ => .next (t := 0) (.call (t := 0) (c := .kalloc)
          (.init (by decide) (kinit_eq 4096 8192)) rfl trivial rfl) rfl
      | succ k ih =>
        intro hlt
        refine .call (t := 0) (c := .krefpage 4096) (ih (by omega)) rfl
          ⟨hfr, by rw [Kmem.setCount_count_self]; omega⟩ ?_
        rw [KSys.begin, hkr, toInt_of_lt (by omega) (by omega)]
        push_cast
        rfl
    refine ⟨_, .call (t := 0) (c := .krefpage 4096) (hk (2 ^ 31 - 2) (by omega)) rfl
      ⟨hfr, by rw [Kmem.setCount_count_self]; omega⟩ (by rw [KSys.begin, hkr]), ?_, ?_⟩
    · rw [Kmem.setCount_count_self]; decide
    · decide

end Calls

end Xv6.Mem
