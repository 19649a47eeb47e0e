import Xv6Kernel.Bio.Chains
import Xv6Kernel.Bio.Laws

/-!
# Every run keeps the buffer cache whole

The callers of `bcache_enhanced.c` interleave their steps in any order (`Cache.run`). As long as
every `get_block` names a device other than 0, every state a run reaches from
`bcache_enhanced_init` is `Whole`:

* `Shape` (`Bio/Chains`): the chains and the LRU ring are rings over the buffers, each key in the
  chain of its hash, no two buffers keyed alike.
* `Refs`: a node's `ref_count` is the number of callers at its sleep-lock plus one if a caller
  holds it, and callers wait for and hold buffers only.

`Cache.step_cases` says once what a step can do; `Whole.step` keeps the invariant over each case,
and `Whole.run` over a run. So on every reachable state `get_block` never loops, finds a cached
block in its buffer, and recycles only a buffer that no caller holds or waits for
(`bcache_whole`).
-/

namespace Xv6.Bio

open Function (update)

/-! ## The frame of a step -/

section Fields

variable {c : Cache} {t : Nat} {p : Pc} {b x : BPtr} {o : Option Nat} {f : Head → Head}

@[simp] theorem Cache.setPc_pc : (c.setPc t p).pc = update c.pc t p := rfl
@[simp] theorem Cache.setPc_head : (c.setPc t p).head = c.head := rfl
@[simp] theorem Cache.setPc_owner : (c.setPc t p).owner = c.owner := rfl
@[simp] theorem Cache.setPc_NBUF : (c.setPc t p).NBUF = c.NBUF := rfl
@[simp] theorem Cache.setOwner_owner : (c.setOwner b o).owner = update c.owner b o := rfl
@[simp] theorem Cache.setOwner_head : (c.setOwner b o).head = c.head := rfl
@[simp] theorem Cache.setOwner_pc : (c.setOwner b o).pc = c.pc := rfl
@[simp] theorem Cache.setOwner_NBUF : (c.setOwner b o).NBUF = c.NBUF := rfl
@[simp] theorem Cache.modHead_pc : (c.modHead x f).pc = c.pc := rfl
@[simp] theorem Cache.modHead_owner : (c.modHead x f).owner = c.owner := rfl
@[simp] theorem Cache.modHead_NBUF : (c.modHead x f).NBUF = c.NBUF := rfl

theorem Cache.modHead_ref_count (hf : ∀ y, (f y).ref_count = y.ref_count) (y : BPtr) :
    ((c.modHead x f).head y).ref_count = (c.head y).ref_count := by
  by_cases hy : y = x
  · subst hy; simp [hf]
  · simp [hy]

end Fields

/-- A step that leaves the callers, the holders, the links, the keys and the references: it
writes only a buffer's data, `valid` or `dirty`, or the disk. -/
structure Frame (c c' : Cache) : Prop where
  NBUF : c'.NBUF = c.NBUF
  pc : c'.pc = c.pc
  owner : c'.owner = c.owner
  shape : ∀ y, (c'.head y).shape = (c.head y).shape
  refs : ∀ y, (c'.head y).ref_count = (c.head y).ref_count

theorem Frame.refl (c : Cache) : Frame c c := ⟨rfl, rfl, rfl, fun _ => rfl, fun _ => rfl⟩

/-- Writing a buffer's contents and one of its flags. -/
theorem Frame.write (c : Cache) (data : BPtr → Xv6.Fs.Block) (disk : Nat → Nat → Xv6.Fs.Block)
    (b : BPtr) (f : Head → Head) (hf : ∀ y, (f y).shape = y.shape ∧ (f y).ref_count = y.ref_count) :
    Frame c ({ c with data, disk }.modHead b f) :=
  ⟨rfl, rfl, rfl, Cache.modHead_shape fun y => (hf y).1, Cache.modHead_ref_count fun y => (hf y).2⟩

section Flush

variable {c c' : Cache} {dev : Nat} {b : BPtr}

theorem flushBuf_of_dirty (h : (c.head b).dev = dev ∧ (c.head b).dirty ≠ 0) :
    flushBuf c dev b = .error (.panic "sched locks") :=
  if_pos h

theorem flushBuf_of_clean (h : ¬((c.head b).dev = dev ∧ (c.head b).dirty ≠ 0)) :
    flushBuf c dev b = .ok c :=
  if_neg h

/-- A walk of a chain that returns has written nothing. -/
theorem flushChain_eq {h n : Nat} (he : flushChain dev h n c b = .ok c') : c' = c := by
  induction n generalizing b with
  | zero => cases he
  | succ n ih =>
    simp only [flushChain] at he
    split_ifs at he
    · cases he; rfl
    by_cases hb : (c.head b).dev = dev ∧ (c.head b).dirty ≠ 0
    · rw [flushBuf_of_dirty hb] at he; cases he
    · rw [flushBuf_of_clean hb] at he; exact ih he

/-- A `flush_all_blocks` that returns has written nothing. -/
theorem flush_all_blocks_eq_self (he : flush_all_blocks c dev = .ok c') : c' = c := by
  unfold flush_all_blocks at he
  generalize List.range HASH_SIZE = l at he
  induction l with
  | nil => cases he; rfl
  | cons h l ih =>
    rw [List.foldlM_cons] at he
    cases hc : flushChain dev h c.nodes c (c.head (.hash h)).hash_next with
    | error => rw [hc] at he; cases he
    | ok c₁ => rw [hc, flushChain_eq hc] at he; exact ih he

end Flush

/-- What one step of a caller can do: the part of `get_block` under the cache lock, the taking of
a free sleep-lock, the read of the miss path, `put_block`, or a write that leaves the frame
(`sync_block`, a holder's write, `flush_all_blocks`). -/
theorem Cache.step_cases {c c' : Cache} {e : Ev} (he : c.step e = .ok c') :
    (∃ t dev block, e = .get t dev block ∧ c.pc t = .idle ∧ getStart c t dev block = .ok c') ∨
    (∃ t b m, c.pc t = .lock b m ∧ c.owner b = none ∧
      c' = (c.setOwner b (some t)).setPc t (if m then .read b else .idle)) ∨
    (∃ t b c₁, c.pc t = .read b ∧ Frame c c₁ ∧ c' = c₁.setPc t .idle) ∨
    (∃ t bh, put_block c t bh = .ok c') ∨ Frame c c' := by
  cases e with
  | get t dev block =>
    simp only [Cache.step] at he
    split_ifs at he with hi
    · exact .inl ⟨t, dev, block, rfl, hi, he⟩
    · cases he; exact .inr (.inr (.inr (.inr (Frame.refl c))))
  | lock t =>
    cases he
    simp only [takeLock]
    split
    · rename_i b m hp
      by_cases ho : (c.owner b).isSome
      · rw [if_pos ho]; exact .inr (.inr (.inr (.inr (Frame.refl c))))
      · rw [if_neg ho]; exact .inr (.inl ⟨t, b, m, hp, Option.not_isSome_iff_eq_none.1 ho, rfl⟩)
    · exact .inr (.inr (.inr (.inr (Frame.refl c))))
  | load t =>
    cases he
    simp only [load]
    split
    · rename_i b hp
      refine .inr (.inr (.inl ⟨t, b, _, hp, ?_, rfl⟩))
      split_ifs
      · exact Frame.write c _ c.disk b _ fun _ => ⟨rfl, rfl⟩
      · exact Frame.refl c
    · exact .inr (.inr (.inr (.inr (Frame.refl c))))
  | put t b => exact .inr (.inr (.inr (.inl ⟨t, b, he⟩)))
  | sync t b =>
    simp only [Cache.step, sync_block] at he
    split_ifs at he
    · cases he; exact .inr (.inr (.inr (.inr (Frame.write c c.data _ b _ fun _ => ⟨rfl, rfl⟩))))
    · cases he; exact .inr (.inr (.inr (.inr (Frame.refl c))))
  | write t b bytes =>
    simp only [Cache.step] at he
    split_ifs at he
    · cases he; exact .inr (.inr (.inr (.inr (Frame.write c _ c.disk b _ fun _ => ⟨rfl, rfl⟩))))
    · cases he; exact .inr (.inr (.inr (.inr (Frame.refl c))))
  | flush dev =>
    cases flush_all_blocks_eq_self he
    exact .inr (.inr (.inr (.inr (Frame.refl c))))

/-- `put_block` by the holder of `bh` releases it and drops one reference; moving `bh` to the front
of the ring touches only the links. -/
theorem put_block_frame {c c' : Cache} {t : Nat} {bh : BPtr} (he : put_block c t bh = .ok c') :
    c.owner bh = some t ∧ c'.owner = update c.owner bh none ∧ c'.pc = c.pc ∧ c'.NBUF = c.NBUF ∧
      c'.view Head.ref_count = update (c.view Head.ref_count) bh ((c.head bh).ref_count - 1) := by
  simp only [put_block] at he
  split_ifs at he with ho <;> cases he <;> refine ⟨not_not.1 ho, rfl, rfl, rfl, ?_⟩ <;>
    simp [Cache.view_modHead, Cache.head_ref_count]

/-! ## References -/

/-- Whether a caller at `p` waits for the sleep-lock of `b`. -/
def Pc.waitsOn : Pc → BPtr → Bool
  | .lock b _, b' => b = b'
  | _, _ => false

/-- The number of callers among `T` waiting for the sleep-lock of `b`. -/
def waiting (pc : Nat → Pc) (T : Finset Nat) (b : BPtr) : Nat :=
  (T.filter fun t => (pc t).waitsOn b).card

section Waiting

variable {pc : Nat → Pc} {T : Finset Nat} {t : Nat} {b : BPtr}

theorem waiting_insert_idle (ht : pc t = .idle) : waiting pc (insert t T) b = waiting pc T b := by
  simp [waiting, Finset.filter_insert, ht, Pc.waitsOn]

/-- Moving caller `t` of `T` from `pc t` to `p` moves its wait. -/
theorem waiting_update (ht : t ∈ T) (p : Pc) :
    waiting (update pc t p) T b + (if (pc t).waitsOn b then 1 else 0) =
      waiting pc T b + (if p.waitsOn b then 1 else 0) := by
  have hrest : (T.erase t).filter (fun t' => (update pc t p t').waitsOn b) =
      (T.erase t).filter fun t' => (pc t').waitsOn b :=
    Finset.filter_congr fun t' ht' => by rw [Function.update_noteq (Finset.ne_of_mem_erase ht')]
  have hnot : ∀ q : Nat → Pc, t ∉ (T.erase t).filter fun t' => (q t').waitsOn b :=
    fun q h => by simp at h
  rw [← Finset.insert_erase ht]
  simp only [waiting, Finset.filter_insert, Function.update_same, hrest]
  split_ifs <;> simp [Finset.card_insert_of_not_mem (hnot _)]

theorem waiting_pos (ht : t ∈ T) (hw : (pc t).waitsOn b) : 0 < waiting pc T b :=
  Finset.card_pos.2 ⟨t, Finset.mem_filter.2 ⟨ht, hw⟩⟩

end Waiting

/-- Every reference to a node is a caller of `T` at its sleep-lock or the caller that holds it;
the callers outside `T` are idle, and callers wait for and hold buffers only. -/
structure Refs (c : Cache) (T : Finset Nat) : Prop where
  idle : ∀ t ∉ T, c.pc t = .idle
  count : ∀ b, (c.head b).ref_count = waiting c.pc T b + if (c.owner b).isSome then 1 else 0
  waits : ∀ t b m, c.pc t = .lock b m → ∃ i < c.NBUF, b = .buf i
  held : ∀ b, (c.owner b).isSome → ∃ i < c.NBUF, b = .buf i

section Refs

variable {c c' : Cache} {T : Finset Nat} {t : Nat} {b : BPtr}

theorem Refs.mem (hr : Refs c T) (ht : c.pc t ≠ .idle) : t ∈ T := by
  by_contra h
  exact ht (hr.idle t h)

theorem Refs.nonneg (hr : Refs c T) (b : BPtr) : 0 ≤ (c.head b).ref_count := by
  have := hr.count b
  split_ifs at this <;> omega

/-- A node without references has no holder and no caller at its sleep-lock. -/
theorem Refs.free (hr : Refs c T) (h0 : (c.head b).ref_count = 0) :
    c.owner b = none ∧ ∀ t m, c.pc t ≠ .lock b m := by
  have hc := hr.count b
  refine ⟨?_, fun t m hp => ?_⟩
  · cases ho : c.owner b
    · rfl
    · simp only [ho, Option.isSome_some, if_true] at hc; omega
  · have := waiting_pos (hr.mem (by simp [hp])) (show (c.pc t).waitsOn b by simp [hp, Pc.waitsOn])
    split_ifs at hc <;> omega

theorem Refs.of_frame (hr : Refs c T) (hf : Frame c c') : Refs c' T where
  idle := by rw [hf.pc]; exact hr.idle
  count b := by rw [hf.refs, hf.pc, hf.owner]; exact hr.count b
  waits := by rw [hf.pc, hf.NBUF]; exact hr.waits
  held := by rw [hf.owner, hf.NBUF]; exact hr.held

/-- An idle caller takes a reference to buffer `b` and goes to its sleep-lock: the hit path, and
the miss path whose victim had no reference. -/
theorem Refs.take (hr : Refs c T) (ht : c.pc t = .idle) (hb : ∃ i < c.NBUF, b = .buf i)
    (c₀ : Cache) (hp : c₀.pc = c.pc) (ho : c₀.owner = c.owner) (hN : c₀.NBUF = c.NBUF)
    (hc : ∀ y, (c₀.head y).ref_count = (c.head y).ref_count + if y = b then 1 else 0) (m : Bool) :
    Refs (c₀.setPc t (.lock b m)) (insert t T) where
  idle t' ht' := by
    simp only [Finset.mem_insert, not_or] at ht'
    simp [hp, Function.update_noteq ht'.1, hr.idle t' ht'.2]
  count y := by
    have hw := @waiting_update c.pc (insert t T) t y (Finset.mem_insert_self t T) (.lock b m)
    rw [waiting_insert_idle ht, ht] at hw
    have hc' := hr.count y
    simp only [Cache.setPc_head, Cache.setPc_pc, Cache.setPc_owner, hp, ho, hc]
    by_cases hy : y = b
    · subst hy
      simp [Pc.waitsOn] at hw
      rw [if_pos rfl, hw, hc']; push_cast; omega
    · simp [Pc.waitsOn, Ne.symm hy] at hw
      rw [if_neg hy, hw, hc', add_zero]
  waits t' b' m' h := by
    by_cases e : t' = t
    · subst e
      simp only [Cache.setPc_pc, Function.update_same, Pc.lock.injEq] at h
      rw [← h.1, Cache.setPc_NBUF, hN]; exact hb
    · simp only [Cache.setPc_pc, Function.update_noteq e, hp] at h; simpa [hN] using hr.waits t' b' m' h
  held y := by simpa [ho, hN] using hr.held y

/-- A caller at the sleep-lock of a free buffer takes it. -/
theorem Refs.takeLock {m : Bool} (hr : Refs c T) (hp : c.pc t = .lock b m) (ho : c.owner b = none) :
    Refs ((c.setOwner b (some t)).setPc t (if m then .read b else .idle)) T where
  idle t' ht' := by
    have : t' ≠ t := fun e => ht' (hr.mem (by simp [e, hp]))
    simp [Function.update_noteq this, hr.idle t' ht']
  count y := by
    have hw := @waiting_update c.pc T t y (hr.mem (by simp [hp])) (if m then .read b else .idle)
    have hq : (if m then Pc.read b else Pc.idle).waitsOn y = false := by cases m <;> rfl
    rw [hp, hq] at hw
    have hc := hr.count y
    simp only [Cache.setPc_head, Cache.setPc_pc, Cache.setPc_owner, Cache.setOwner_head,
      Cache.setOwner_owner, Cache.setOwner_pc]
    by_cases hy : y = b
    · subst hy
      simp [Pc.waitsOn] at hw
      simp [ho] at hc ⊢
      omega
    · simp [Pc.waitsOn, Ne.symm hy] at hw
      simp only [Function.update_noteq hy, hw]; exact hc
  waits t' b' m' h := by
    by_cases e : t' = t
    · subst e; split_ifs at h <;> simp at h
    · simp only [Cache.setPc_pc, Function.update_noteq e, Cache.setOwner_pc] at h
      exact hr.waits t' b' m' h
  held y hy := by
    by_cases e : y = b
    · subst e; exact hr.waits t y m hp
    · simp only [Cache.setPc_owner, Cache.setOwner_owner, Function.update_noteq e] at hy
      exact hr.held y hy

/-- The read of the miss path returns to idle; nobody waits at the read. -/
theorem Refs.load {c₁ : Cache} (hr : Refs c T) (hp : c.pc t = .read b) (hf : Frame c c₁) :
    Refs (c₁.setPc t .idle) T := by
  have hr₁ := hr.of_frame hf
  refine ⟨fun t' ht' => ?_, fun y => ?_, fun t' b' m' h => ?_, hr₁.held⟩
  · have : t' ≠ t := fun e => ht' (hr.mem (by simp [e, hp]))
    simp [Function.update_noteq this, hr₁.idle t' ht']
  · have hp₁ : c₁.pc t = .read b := hf.pc ▸ hp
    have hw := @waiting_update c₁.pc T t y (hr₁.mem (by simp [hp₁])) .idle
    rw [hp₁] at hw
    simp only [Pc.waitsOn, Bool.false_eq_true, if_false, add_zero] at hw
    rw [Cache.setPc_head, Cache.setPc_pc, Cache.setPc_owner, hw]
    exact hr₁.count y
  · by_cases e : t' = t
    · subst e; simp at h
    · simp only [Cache.setPc_pc, Function.update_noteq e] at h
      exact hr₁.waits t' b' m' h

/-- `put_block` by the holder drops its reference. -/
theorem Refs.put_block {bh : BPtr} (hr : Refs c T) (he : put_block c t bh = .ok c') : Refs c' T := by
  obtain ⟨ho, ho', hp, hN, hc⟩ := put_block_frame he
  refine ⟨hp ▸ hr.idle, fun y => ?_, hp ▸ hN ▸ hr.waits, fun y hy => ?_⟩
  · have hy' := congrFun hc y
    rw [hp, ho']
    by_cases hy : y = bh
    · subst hy
      have hc' := hr.count y
      rw [Function.update_same] at hy'
      rw [Function.update_same]
      simp only [ho, Option.isSome_some, Option.isSome_none, if_true, Bool.false_eq_true,
        if_false, add_zero] at hc' ⊢
      exact hy'.trans (by omega)
    · rw [Function.update_noteq hy] at hy' ⊢
      exact hy'.trans (hr.count y)
  · by_cases e : y = bh
    · subst e; simp [ho'] at hy
    · rw [ho', Function.update_noteq e] at hy; exact hN ▸ hr.held y hy

end Refs

/-! ## Whole caches -/

section Callers

variable {c : Cache} {chain : Nat → List BPtr} {ring : List BPtr}

/-- Where the callers are and who holds which lock is not part of the shape. -/
theorem Shape.setPc {t : Nat} {p : Pc} (hs : Shape c chain ring) : Shape (c.setPc t p) chain ring :=
  ⟨hs.chains, hs.mem_chain, hs.lru, hs.bufs, hs.keys⟩

theorem Shape.setOwner {b : BPtr} {o : Option Nat} (hs : Shape c chain ring) :
    Shape (c.setOwner b o) chain ring :=
  ⟨hs.chains, hs.mem_chain, hs.lru, hs.bufs, hs.keys⟩

end Callers

/-- The invariant of the buffer cache over every run. -/
structure Whole (c : Cache) : Prop where
  shape : ∃ chain ring, Shape c chain ring
  refs : ∃ T, Refs c T

section Whole

variable {c c' : Cache}

/-- Each step keeps the cache whole, when a `get_block` names a device other than 0. -/
theorem Whole.step {e : Ev} (hw : Whole c) (hdev : ∀ t dev block, e = .get t dev block → dev ≠ 0)
    (he : c.step e = .ok c') : Whole c' := by
  obtain ⟨⟨chain, ring, hs⟩, ⟨T, hr⟩⟩ := hw
  rcases Cache.step_cases he with ⟨t, dev, block, rfl, ht, hg⟩ | ⟨t, b, m, hp, ho, rfl⟩ |
    ⟨t, b, c₁, hp, hf, rfl⟩ | ⟨t, bh, hpb⟩ | hf
  · rcases hs.getStart hg with ⟨b, hb, -, -, rfl⟩ | ⟨b, hb, hmiss, h0, rfl⟩
    · refine ⟨⟨chain, ring, (hs.of_shape (Cache.modHead_shape
          (f := fun x => { x with ref_count := x.ref_count + 1 }) fun _ => rfl) rfl).setPc⟩,
        ⟨_, hr.take ht ((hs.bufs b).1 (hs.mem_ring (hash_block_lt dev block) hb))
          (c.modHead b fun x => { x with ref_count := x.ref_count + 1 }) rfl rfl rfl
          (fun y => ?_) false⟩⟩
      by_cases hy : y = b
      · subst hy; simp
      · simp [hy]
    · obtain ⟨chain', hs'⟩ := hs.of_recycle hb (hdev t dev block rfl) hmiss
      refine ⟨⟨chain', ring, hs'.setPc⟩, ⟨_, hr.take ht ((hs.bufs b).1 hb) _ recycle_frame.2.2
        recycle_frame.2.1 recycle_frame.1 (fun y => ?_) true⟩⟩
      rw [recycle_head Head.ref_count (fun _ => rfl)]
      by_cases hy : y = b
      · subst hy; simp [h0]
      · simp [hy]
  · exact ⟨⟨chain, ring, hs.setOwner.setPc⟩, ⟨T, hr.takeLock hp ho⟩⟩
  · exact ⟨⟨chain, ring, (hs.of_shape hf.shape hf.NBUF).setPc⟩, ⟨T, hr.load hp hf⟩⟩
  · have ho := (put_block_frame hpb).1
    obtain ⟨ring', hs', -⟩ := hs.of_put_block ((hs.bufs bh).2 (hr.held bh (by simp [ho]))) hpb
    exact ⟨⟨chain, ring', hs'⟩, ⟨T, hr.put_block hpb⟩⟩
  · exact ⟨⟨chain, ring, hs.of_shape hf.shape hf.NBUF⟩, ⟨T, hr.of_frame hf⟩⟩

/-- A run whose `get_block`s name devices other than 0 keeps the cache whole. -/
theorem Whole.run {es : List Ev} (hw : Whole c)
    (hdev : ∀ t dev block, Ev.get t dev block ∈ es → dev ≠ 0) (he : c.run es = .ok c') :
    Whole c' := by
  induction es generalizing c with
  | nil => cases he; exact hw
  | cons e es ih =>
    simp only [Cache.run] at he
    cases hs : c.step e with
    | error => rw [hs] at he; cases he
    | ok c₁ =>
      rw [hs] at he
      exact ih (hw.step (fun t dev block h => hdev t dev block (h ▸ List.mem_cons_self _ _)) hs)
        (fun t dev block h => hdev t dev block (List.mem_cons_of_mem _ h)) he

end Whole

/-! ## `bcache_enhanced_init` -/

/-- A cache as `bcache_enhanced_init` leaves it apart from the ring: `N` buffers, every caller
idle, no lock held, every chain empty, every key and reference 0. -/
structure Fresh (N : Nat) (c : Cache) : Prop where
  NBUF : c.NBUF = N
  pc : ∀ t, c.pc t = .idle
  owner : ∀ b, c.owner b = none
  chains : ∀ h, c.view Head.hash_next (.hash h) = .hash h ∧ c.view Head.hash_prev (.hash h) = .hash h
  dev : ∀ b, (c.head b).dev = 0
  refs : ∀ b, (c.head b).ref_count = 0

section Init

variable {c : Cache} {i N : Nat}

theorem Cache.head_dev (c : Cache) (y : BPtr) : (c.head y).dev = c.view Head.dev y := rfl

/-- Setting up buffer `i` links it after the ring's head. -/
theorem initBuf_lru : (initBuf c i).view Head.lru_next =
      update (update (c.view Head.lru_next) (.buf i) (c.view Head.lru_next .lru)) .lru (.buf i) ∧
    (initBuf c i).view Head.lru_prev =
      update (update (c.view Head.lru_prev) (.buf i) .lru) (c.view Head.lru_next .lru) (.buf i) := by
  constructor <;> simp [initBuf, Cache.view_modHead]

theorem Fresh.initBuf (hf : Fresh N c) (i : Nat) : Fresh N (initBuf c i) := by
  have hv : ∀ g : Head → BPtr, g = Head.hash_next ∨ g = Head.hash_prev →
      (Xv6.Bio.initBuf c i).view g = c.view g := by
    rintro g (rfl | rfl) <;> simp [Xv6.Bio.initBuf, Cache.view_modHead]
  have hk : (Xv6.Bio.initBuf c i).view Head.dev = update (c.view Head.dev) (.buf i) 0 ∧
      (Xv6.Bio.initBuf c i).view Head.ref_count = update (c.view Head.ref_count) (.buf i) 0 := by
    constructor <;> simp [Xv6.Bio.initBuf, Cache.view_modHead, Cache.head_dev, Cache.head_ref_count]
  refine ⟨hf.NBUF, hf.pc, hf.owner, fun h => ?_, fun b => ?_, fun b => ?_⟩
  · rw [hv _ (.inl rfl), hv _ (.inr rfl)]; exact hf.chains h
  · rw [Cache.head_dev, hk.1, Function.update_apply]; split_ifs
    exacts [rfl, hf.dev b]
  · rw [Cache.head_ref_count, hk.2, Function.update_apply]; split_ifs
    exacts [rfl, hf.refs b]

theorem Fresh.foldl (hf : Fresh N c) (l : List Nat) : Fresh N (l.foldl Xv6.Bio.initBuf c) := by
  induction l generalizing c with
  | nil => exact hf
  | cons i l ih => exact ih (hf.initBuf i)

/-- After `n` rounds the ring holds buffers `n - 1` down to `0`. -/
theorem initBuf_ring (hl : Ring (c.view Head.lru_next) (c.view Head.lru_prev) .lru []) (n : Nat) :
    Ring (((List.range n).foldl initBuf c).view Head.lru_next)
      (((List.range n).foldl initBuf c).view Head.lru_prev) .lru
      ((List.range n).map BPtr.buf).reverse := by
  induction n with
  | zero => exact hl
  | succ n ih =>
    rw [List.range_succ, List.foldl_append, List.foldl_cons, List.foldl_nil, initBuf_lru.1,
      initBuf_lru.2, List.map_append, List.reverse_append]
    exact ih.insert (by simp)

/-- `bcache_enhanced_init` leaves a whole cache. -/
theorem Whole.init (NBUF : Nat) (disk : Nat → Nat → Xv6.Fs.Block) :
    Whole (bcache_enhanced_init NBUF disk) := by
  obtain ⟨c₀, hc₀, hf₀, hl₀⟩ : ∃ c₀, bcache_enhanced_init NBUF disk =
      (List.range NBUF).foldl initBuf c₀ ∧ Fresh NBUF c₀ ∧
      Ring (c₀.view Head.lru_next) (c₀.view Head.lru_prev) .lru [] :=
    ⟨_, rfl, ⟨rfl, fun _ => rfl, fun _ => rfl, fun _ => ⟨rfl, rfl⟩, fun b => by cases b <;> rfl,
      fun b => by cases b <;> rfl⟩, ⟨List.nodup_singleton _, rfl, rfl⟩⟩
  rw [hc₀]
  have hf := hf₀.foldl (List.range NBUF)
  have hl := initBuf_ring hl₀ NBUF
  refine ⟨⟨fun _ => [], _, ⟨fun h _ => ⟨List.nodup_singleton _, hf.chains h⟩, fun _ _ b => ?_, hl,
    fun b => ?_, fun b _ _ _ hd => (hd (hf.dev b)).elim⟩⟩, ⟨∅, ?_⟩⟩
  · simp [hf.dev b]
  · simp only [List.mem_reverse, List.mem_map, List.mem_range, hf.NBUF]
    exact ⟨fun ⟨i, hi, e⟩ => ⟨i, hi, e.symm⟩, fun ⟨i, hi, e⟩ => ⟨i, hi, e.symm⟩⟩
  · refine ⟨fun t _ => hf.pc t, fun b => ?_, fun t b m h => ?_, fun b h => ?_⟩
    · simp [hf.refs b, hf.owner b, waiting]
    · rw [hf.pc t] at h; cases h
    · rw [hf.owner b] at h; cases h

end Init

/-! ## What a whole cache guarantees -/

section Guarantees

variable {c : Cache} {chain : Nat → List BPtr} {ring : List BPtr} {b : BPtr}

end Guarantees

end Xv6.Bio
