import Xv6Kernel.Bio.Cache

/-!
# Where the enhanced buffer cache breaks its laws

Three laws one expects of `bcache_enhanced.c` fail in the code: each key in the one chain of its
hash, a buffer returned only once it has been read, a dirty buffer written back before it is
reused. For each, a law of `getStart` over every state says what the code does, and a run from
`bcache_enhanced_init` reaches a state where it does it.

* The recycle path unlinks its victim only when `b->dev != 0`. A buffer keyed with device 0 stays
  the first node of its old chain while it is linked at the front of its new one
  (`getStart_dev_zero`); the old chain then leads into the new one and never back to its head, and
  `get_block` on the old key loops forever (`lookup_none_of_closed`, `dev_zero_chain_loops`).
* The hit path returns after `acquiresleep` without looking at `valid` (`getStart_hit_return`). A
  second caller that hits the key a miss has just installed can take the sleep-lock before the
  miss reads the block, and gets the bytes of the block the buffer held before
  (`hit_before_read`).
* The recycle path clears `dirty` and writes nothing (`getStart_recycle`): a write still owed to
  the disk is dropped (`recycle_drops_write`).

The runs use one buffer and a disk whose block `k` holds the byte `k` everywhere (`numbered`).
-/

namespace Xv6.Bio

open Xv6.Fs (Block)

/-! ## The laws of `getStart` -/

/-- The hash loop started in a set of nodes that is closed under `hash_next` and holds neither the
chain's head nor a buffer with the key never ends, whatever the number of rounds. -/
theorem lookup_none_of_closed {c : Cache} {h dev block : Nat} (S : BPtr → Prop)
    (hS : ∀ b, S b → b ≠ .hash h ∧ ¬((c.head b).dev = dev ∧ (c.head b).block_num = block) ∧
      S (c.head b).hash_next) :
    ∀ n b, S b → lookup c h dev block n b = none
  | 0, _, _ => rfl
  | n + 1, b, hb => by
    obtain ⟨h₁, h₂, h₃⟩ := hS b hb
    rw [lookup_next h₁ h₂]
    exact lookup_none_of_closed S hS n _ h₃

section Recycle

variable {c : Cache} {t dev block : Nat} {b : BPtr}

/-- The recycle path, whatever the victim held: it takes the key with `valid` and `dirty` cleared
and one reference, keeps its place on the ring, and the disk is not written. -/
theorem getStart_recycle
    (hl : lookup c (hash_block dev block) dev block c.nodes
      (c.head (.hash (hash_block dev block))).hash_next = some none)
    (hv : victim c c.nodes (c.head .lru).lru_prev = some (some b)) :
    ∃ c', getStart c t dev block = .ok c' ∧ c'.disk = c.disk ∧
      (c'.head b).unhashed =
        { (c.head b).unhashed with dev, block_num := block, valid := 0, dirty := 0, ref_count := 1 } ∧
      c'.pc t = .lock b true := by
  simp only [getStart, hl, hv]
  refine ⟨_, rfl, by split_ifs <;> rfl, ?_, by simp [Cache.setPc]⟩
  simp only [Cache.setPc, insertHash_unhashed]
  have hu := unlinkHash_unhashed c b b
  simp only [Head.unhashed, Head.mk.injEq] at hu
  split_ifs <;> simp [Cache.modHead, Head.unhashed, hu]

/-- A victim keyed with device 0 that heads chain `g` still heads it once it is rekeyed and heads
the chain of its new key too. -/
theorem getStart_dev_zero {g : Nat}
    (hl : lookup c (hash_block dev block) dev block c.nodes
      (c.head (.hash (hash_block dev block))).hash_next = some none)
    (hv : victim c c.nodes (c.head .lru).lru_prev = some (some b))
    (hd : (c.head b).dev = 0) (hg : (c.head (.hash g)).hash_next = b)
    (hgh : g ≠ hash_block dev block) (hbg : b ≠ .hash g) :
    ∃ c', getStart c t dev block = .ok c' ∧ (c'.head (.hash g)).hash_next = b ∧
      (c'.head (.hash (hash_block dev block))).hash_next = b ∧
      (c'.head b).dev = dev ∧ (c'.head b).block_num = block := by
  obtain ⟨c', hc', -, hu, -⟩ := getStart_recycle (t := t) hl hv
  refine ⟨c', hc', ?_, ?_, congrArg Head.dev hu, congrArg Head.block_num hu⟩ <;>
    simp only [getStart, hl, hv, hd, ne_eq, not_true_eq_false, if_false, Except.ok.injEq] at hc' <;>
    subst hc'
  · rw [Cache.setPc, insertHash_hash_next_of_ne (Ne.symm hbg) (by simpa using hgh)]
    simpa [Ne.symm hbg] using hg
  · simp only [Cache.setPc, insertHash_first]

end Recycle

/-- A hit on a buffer nobody holds: the caller takes the sleep-lock and returns the buffer with the
`valid` flag and the bytes it had, read or not. -/
theorem getStart_hit_return {c : Cache} {t dev block : Nat} {b : BPtr}
    (hl : lookup c (hash_block dev block) dev block c.nodes
      (c.head (.hash (hash_block dev block))).hash_next = some (some b))
    (ho : c.owner b = none) :
    ∃ c', getStart c t dev block = .ok c' ∧ (takeLock c' t).owner b = some t ∧
      (takeLock c' t).pc t = .idle ∧ ((takeLock c' t).head b).valid = (c.head b).valid ∧
      (takeLock c' t).data b = c.data b := by
  simp only [getStart, hl]
  refine ⟨_, rfl, ?_⟩
  simp [takeLock, Cache.setPc, Cache.setOwner, Cache.modHead, ho]

/-! ## Runs from `bcache_enhanced_init` -/

/-- A disk whose block `k` holds the byte `k` (mod 256) everywhere. -/
def numbered : Nat → Nat → Block := fun _ k _ => UInt8.ofNat k

/-- Caller 0 reads block 5 of device 0 and puts it back, then reads block 7 of device 1, which
recycles the one buffer. The buffer heads chain 5 and chain 6 while it is keyed `(1, 7)`, and
`get_block(0, 5)` never returns. -/
theorem dev_zero_chain_loops : ∃ c, (bcache_enhanced_init 1 numbered).run
    [.get 0 0 5, .lock 0, .load 0, .put 0 (.buf 0), .get 0 1 7] = .ok c ∧
    (c.head (.hash 5)).hash_next = .buf 0 ∧ (c.head (.hash 6)).hash_next = .buf 0 ∧
    (c.head (.buf 0)).dev = 1 ∧ (c.head (.buf 0)).block_num = 7 ∧
    (∀ n, lookup c 5 0 5 n (c.head (.hash 5)).hash_next = none) ∧
    ∀ t, getStart c t 0 5 = .error .diverge := by
  have hrun : ∃ c, (bcache_enhanced_init 1 numbered).run
      [.get 0 0 5, .lock 0, .load 0, .put 0 (.buf 0), .get 0 1 7] = .ok c ∧
      (c.head (.hash 5)).hash_next = .buf 0 ∧ (c.head (.hash 6)).hash_next = .buf 0 ∧
      (c.head (.buf 0)).dev = 1 ∧ (c.head (.buf 0)).block_num = 7 ∧
      (c.head (.buf 0)).hash_next = .hash 6 ∧ (c.head (.hash 6)).block_num = 0 := by
    simp +decide [Cache.run, Cache.step, getStart, unlinkHash, insertHash, takeLock, load,
      put_block, Cache.modHead, Cache.setPc, Cache.setOwner, Function.update_apply,
      bcache_enhanced_init, initBuf, List.range, List.range.loop, Cache.nodes, HASH_SIZE,
      hash_block, HASH_MASK, Head.zero]
  obtain ⟨c, hc, h5, h6, hd, hb, hn, h6b⟩ := hrun
  -- the walk from chain 5 goes round buffer 0 and the head of chain 6
  have hloop : ∀ n, lookup c 5 0 5 n (c.head (.hash 5)).hash_next = none := fun n =>
    lookup_none_of_closed (· ∈ [BPtr.buf 0, .hash 6]) (by
      intro b hb'
      simp only [List.mem_cons, List.mem_singleton, List.not_mem_nil, or_false] at hb'
      rcases hb' with rfl | rfl <;> simp [hd, hn, h6, h6b]) n _ (by simp [h5])
  refine ⟨c, hc, h5, h6, hd, hb, hloop, fun t => ?_⟩
  simp [getStart, show hash_block 0 5 = 5 from rfl, hloop]

/-- Caller 0 reads block 3 and puts it back, then misses on block 5 and recycles the buffer; before
it takes the sleep-lock, caller 1 hits block 5 and takes it. Caller 1 has returned holding a
buffer keyed `(1, 5)` that is not valid and holds block 3's bytes; caller 0 has not read yet. -/
theorem hit_before_read : ∃ c, (bcache_enhanced_init 1 numbered).run
    [.get 0 1 3, .lock 0, .load 0, .put 0 (.buf 0), .get 0 1 5, .get 1 1 5, .lock 1] = .ok c ∧
    c.owner (.buf 0) = some 1 ∧ c.pc 1 = .idle ∧ c.pc 0 = .lock (.buf 0) true ∧
    (c.head (.buf 0)).dev = 1 ∧ (c.head (.buf 0)).block_num = 5 ∧ (c.head (.buf 0)).valid = 0 ∧
    c.data (.buf 0) 0 = 3 ∧ c.disk 1 5 0 = 5 := by
  simp +decide [Cache.run, Cache.step, getStart, unlinkHash, insertHash, takeLock, load,
    put_block, Cache.modHead, Cache.setPc, Cache.setOwner, Function.update_apply,
    bcache_enhanced_init, initBuf, List.range, List.range.loop, Cache.nodes, HASH_SIZE,
    hash_block, HASH_MASK, Head.zero]

/-- Caller 0 reads block 3, writes 9s into it and puts it back dirty, then reads block 5, which
recycles the buffer. The buffer is clean and keyed `(1, 5)`, and block 3 on the disk still holds
its old bytes. -/
theorem recycle_drops_write : ∃ c, (bcache_enhanced_init 1 numbered).run
    [.get 0 1 3, .lock 0, .load 0, .write 0 (.buf 0) (fun _ => 9), .put 0 (.buf 0),
      .get 0 1 5] = .ok c ∧
    (c.head (.buf 0)).dirty = 0 ∧ (c.head (.buf 0)).block_num = 5 ∧ c.disk 1 3 0 = 3 := by
  simp +decide [Cache.run, Cache.step, getStart, unlinkHash, insertHash, takeLock, load,
    put_block, Cache.modHead, Cache.setPc, Cache.setOwner, Function.update_apply,
    bcache_enhanced_init, initBuf, List.range, List.range.loop, Cache.nodes, HASH_SIZE,
    hash_block, HASH_MASK, Head.zero]

end Xv6.Bio
