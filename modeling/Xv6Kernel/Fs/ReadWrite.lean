import Xv6Kernel.Fs.Itrunc

/-!
# `readi` and `writei`

The content functions of `fs.c` on the in-memory copy of a dinode: the byte loops of `readi` and
`writei` over `bmap`, with `either_copyout`/`either_copyin` as a per-chunk success flag (the
user page tables are an external collaborator). A byte of a file lives at offset `x % BSIZE` of
the block of node `bnode (x / BSIZE)` (`fileByte`).
-/

namespace Xv6.Fs

/-- The `m` bytes of a block from offset `o`. -/
def Block.slice (blk : Block) (o m : Nat) : List UInt8 := (List.range m).map fun k => blk (o + k)

/-- `either_copyin(bp->data + o, …, m)`: bytes `t, …, t + m - 1` of the source land at offsets
`o, …, o + m - 1` of the block. -/
def Block.copyIn (blk : Block) (o : Nat) (src : Nat → UInt8) (t m : Nat) : Block := fun x =>
  if o ≤ x ∧ x < o + m then src (t + (x - o)) else blk x

/-- Byte `x` of the file whose addresses are `a`. -/
def fileByte (d : Disk) (a : Addrs) (x : Nat) : UInt8 :=
  d.block (nodeAddr d a (bnode (x / BSIZE))) (x % BSIZE)

/-- The transfer loop of `readi`: `for(tot=0; tot<n; tot+=m, off+=m, dst+=m)`, one block per
iteration; a failed `either_copyout` sets `tot = -1`. Returns the disk, the addresses, `tot` and
the bytes delivered. Each iteration moves at least one byte, so `n + 1` rounds of fuel suffice. -/
def readiLoop (sb : Superblock) (ok : Nat → Nat → Bool) (n : Nat) :
    Nat → Disk → Addrs → Nat → Nat → List UInt8 → Except Stop (Disk × Addrs × Nat × List UInt8)
  | 0, d, a, tot, _, out => .ok (d, a, tot, out)
  | fuel + 1, d, a, tot, off, out =>
    if tot < n then
      match bmap sb d a (off / BSIZE) with
      | .error e => .error e
      | .ok (d, a, addr) =>
        if addr = 0 then .ok (d, a, tot, out) else
        let m := min (n - tot) (BSIZE - off % BSIZE)
        if ok tot m then
          readiLoop sb ok n fuel d a (tot + m) (off + m) (out ++ (d.block addr).slice (off % BSIZE) m)
        else .ok (d, a, 2 ^ 32 - 1, out)
    else .ok (d, a, tot, out)

/-- `readi(ip, user_dst, dst, off, n)` on the copy `ip` of a dinode, with the static clock of
`iupdatatime`: the new disk, inode and clock, the `int` result and the bytes delivered. -/
def DInode.readi (sb : Superblock) (d : Disk) (ip : DInode) (clock : Nat) (ok : Nat → Nat → Bool)
    (off n : Nat) : Except Stop (Disk × DInode × Nat × Int × List UInt8) :=
  if off > ip.size ∨ u32 (off + n) < off then .ok (d, ip, clock, 0, []) else
  let n := if off + n > ip.size then ip.size - off else n
  match readiLoop sb ok n (n + 1) d ip.addrs 0 off [] with
  | .error e => .error e
  | .ok (d, a, tot, out) =>
    if tot > 0 then .ok (d, { ip with addrs := a, atime := u32 (clock + 1) }, u32 (clock + 1),
      toInt32 tot, out)
    else .ok (d, { ip with addrs := a }, clock, toInt32 tot, out)

/-- The transfer loop of `writei`; a failed `either_copyin` ends it. Returns the disk, the
addresses, `tot` and `off`. -/
def writeiLoop (sb : Superblock) (src : Nat → UInt8) (ok : Nat → Nat → Bool) (n : Nat) :
    Nat → Disk → Addrs → Nat → Nat → Except Stop (Disk × Addrs × Nat × Nat)
  | 0, d, a, tot, off => .ok (d, a, tot, off)
  | fuel + 1, d, a, tot, off =>
    if tot < n then
      match bmap sb d a (off / BSIZE) with
      | .error e => .error e
      | .ok (d, a, addr) =>
        if addr = 0 then .ok (d, a, tot, off) else
        let m := min (n - tot) (BSIZE - off % BSIZE)
        if ok tot m then
          writeiLoop sb src ok n fuel (d.setBlock addr ((d.block addr).copyIn (off % BSIZE) src tot m))
            a (tot + m) (off + m)
        else .ok (d, a, tot, off)
    else .ok (d, a, tot, off)

/-- The part of `writei(ip, user_src, src, off, n)` between its guards and its final `iupdate`,
on the copy `ip` of a dinode, with the static clock of `iupdatemtime`: the loop, the new size and
the modification time. Returns the new disk, inode and clock and the `int` result. -/
def DInode.writeiBody (sb : Superblock) (d : Disk) (ip : DInode) (clock : Nat)
    (src : Nat → UInt8) (ok : Nat → Nat → Bool) (off n : Nat) :
    Except Stop (Disk × DInode × Nat × Int) :=
  match writeiLoop sb src ok n (n + 1) d ip.addrs 0 off with
  | .error e => .error e
  | .ok (d, a, tot, off) =>
    let ip := { ip with addrs := a, size := if off > ip.size then off else ip.size }
    if tot > 0 then .ok (d, { ip with mtime := u32 (clock + 1) }, u32 (clock + 1), toInt32 tot)
    else .ok (d, ip, clock, toInt32 tot)

/-! ## Logical blocks -/

theorem bnode_leaf (bn : Nat) : (bnode bn).path.length = depth (bnode bn).root := by
  unfold bnode
  simp only [NDIRECT_eq, NINDIRECT_eq, NINDIRECT2_eq]
  split_ifs <;> simp [depth, *]

theorem bnode_lt_of_ok {bn : Nat} (h : (bnode bn).ok) : bn < MAXFILE := by
  by_contra hn
  simp only [MAXFILE_eq, not_lt] at hn
  unfold bnode at h
  simp only [NDIRECT_eq, NINDIRECT_eq, NINDIRECT2_eq] at h
  rw [if_neg (by omega), if_neg (by omega), if_neg (by omega)] at h
  have := h.2.2 _ (List.mem_cons_self _ _)
  simp only [NINDIRECT_eq] at this
  omega

/-- The logical block a node of `bnode` stands for: `bnode` read backwards. -/
def Node.bn (x : Node) : Nat :=
  match x.root, x.path with
  | 10, [b] => 10 + b
  | 11, [b, c] => 10 + 1024 + 1024 * b + c
  | 12, [b, c, e] => 10 + 1024 + 1048576 + 1048576 * b + 1024 * c + e
  | r, _ => r

theorem bnode_bn {bn : Nat} (h : bn < MAXFILE) : (bnode bn).bn = bn := by
  simp only [MAXFILE_eq] at h
  unfold bnode
  simp only [NDIRECT_eq, NINDIRECT_eq, NINDIRECT2_eq]
  split_ifs <;> simp only [Node.bn] <;> omega

theorem bnode_inj {bn bn' : Nat} (h : bn < MAXFILE) (h' : bn' < MAXFILE)
    (e : bnode bn = bnode bn') : bn = bn' := by
  rw [← bnode_bn h, ← bnode_bn h', e]

/-- A byte of a mapped file lies in a block `bmap` reaches. -/
theorem lt_MAXFILE_of_mapped {d : Disk} {a : Addrs} {x : Nat}
    (h : nodeAddr d a (bnode (x / BSIZE)) ≠ 0) : x / BSIZE < MAXFILE :=
  bnode_lt_of_ok (by by_contra hn; exact h (nodeAddr_of_not_ok hn))

/-! ## Writing a data block -/

section Leaf

variable {sb : Superblock} {d : Disk} {alloc : Nat → Prop} {A : Nat → Addrs} {i : Nat}

/-- The block of a leaf is no interior block of any tree. -/
theorem Owned.walk_prefix_ne_leaf (h : Owned sb d alloc A) (hi : alloc i) {y : Node}
    (hy : y.path.length = depth y.root) (hX : nodeAddr d (A i) y ≠ 0) {k r m : Nat}
    (hk : alloc k) {p p₀ : List Nat} (hz : (⟨r, p⟩ : Node).ok) (hp : p₀ ++ [m] <+: p) :
    d.walk (A k r) p₀ ≠ nodeAddr d (A i) y := by
  intro e
  have hok : (⟨r, p₀⟩ : Node).ok := Node.ok_of_prefix hz ((List.prefix_append _ _).trans hp)
  rw [← nodeAddr_of_ok hok] at e
  obtain ⟨-, rfl⟩ := h.inj k i _ y hk hi (e ▸ hX) e
  have h1 := hp.length_le
  have h2 := hz.2.1
  simp only [List.length_append, List.length_singleton] at h1 h2 hy
  omega

theorem Owned.nodeAddr_setBlock_leaf (h : Owned sb d alloc A) (hi : alloc i) {y : Node}
    (hy : y.path.length = depth y.root) (hX : nodeAddr d (A i) y ≠ 0) (blk : Block) {k : Nat}
    (hk : alloc k) (z : Node) :
    nodeAddr (d.setBlock (nodeAddr d (A i) y) blk) (A k) z = nodeAddr d (A k) z := by
  by_cases hz : z.ok
  · rw [nodeAddr_of_ok hz, nodeAddr_of_ok hz]
    refine Disk.walk_congr _ fun p₀ m hp => ?_
    have hne := h.walk_prefix_ne_leaf hi hy hX hk (r := z.root) hz hp
    simp [Disk.look, Function.update_noteq hne]
  · rw [nodeAddr_of_not_ok hz, nodeAddr_of_not_ok hz]

/-- Writing the block of a leaf keeps the invariant. -/
theorem Owned.setBlock_leaf (h : Owned sb d alloc A) (hi : alloc i) {y : Node}
    (hy : y.path.length = depth y.root) (hX : nodeAddr d (A i) y ≠ 0) (blk : Block) :
    Owned sb (d.setBlock (nodeAddr d (A i) y) blk) alloc A := by
  have e := fun k (hk : alloc k) z => h.nodeAddr_setBlock_leaf hi hy hX blk hk z
  refine ⟨h.boot, fun k z hk hne => ?_, fun k k' z z' hk hk' hne eq => ?_⟩
  · rw [e k hk z] at hne ⊢
    exact h.mark k z hk hne
  · rw [e k hk z, e k' hk' z'] at eq
    rw [e k hk z] at hne
    exact h.inj k k' z z' hk hk' hne eq

theorem Owned.fileByte_setBlock_leaf (h : Owned sb d alloc A) (hi : alloc i) {y : Node}
    (hy : y.path.length = depth y.root) (hX : nodeAddr d (A i) y ≠ 0) (blk : Block) {k : Nat}
    (hk : alloc k) (x : Nat) :
    fileByte (d.setBlock (nodeAddr d (A i) y) blk) (A k) x =
      if nodeAddr d (A k) (bnode (x / BSIZE)) = nodeAddr d (A i) y then blk (x % BSIZE)
      else fileByte d (A k) x := by
  unfold fileByte
  rw [h.nodeAddr_setBlock_leaf hi hy hX blk hk]
  split_ifs with e
  · rw [Disk.setBlock_block, e, Function.update_same]
  · rw [Disk.setBlock_block, Function.update_noteq e]

end Leaf

theorem Extends.fileByte_eq {sb : Superblock} {alloc : Nat → Prop} {d d' : Disk}
    {A A' : Nat → Addrs} (h : Extends sb alloc d A d' A') {k x : Nat} (hk : alloc k)
    (hm : nodeAddr d (A k) (bnode (x / BSIZE)) ≠ 0) : fileByte d' (A' k) x = fileByte d (A k) x := by
  unfold fileByte
  rw [h.keep k _ hk hm, h.data k _ hk (bnode_leaf _) hm]

/-! ## The write loop -/

/-- What the write loop did to inode `i` between offsets `off` and `off'`, with source byte `tot`
at `off`: the invariant holds, every node keeps its block, the bytes `[off, off')` are mapped and
hold the source bytes, and every other mapped byte of every tree is kept. -/
structure Wrote (sb : Superblock) (alloc : Nat → Prop) (i : Nat) (src : Nat → UInt8)
    (tot off off' : Nat) (d : Disk) (A : Nat → Addrs) (d' : Disk) (A' : Nat → Addrs) : Prop where
  owned : Owned sb d' alloc A'
  keep : ∀ k y, alloc k → nodeAddr d (A k) y ≠ 0 → nodeAddr d' (A' k) y = nodeAddr d (A k) y
  mapped : ∀ x, off ≤ x → x < off' → nodeAddr d' (A' i) (bnode (x / BSIZE)) ≠ 0
  written : ∀ x, off ≤ x → x < off' → fileByte d' (A' i) x = src (tot + (x - off))
  kept : ∀ k x, alloc k → nodeAddr d (A k) (bnode (x / BSIZE)) ≠ 0 → ¬ (k = i ∧ off ≤ x ∧ x < off') →
    fileByte d' (A' k) x = fileByte d (A k) x
  dinode : d'.dinode = d.dinode

section Write

variable {sb : Superblock} {alloc : Nat → Prop} {i : Nat} {src : Nat → UInt8}
  {d d₁ d₂ : Disk} {A A₁ A₂ : Nat → Addrs} {tot off off₁ off₂ : Nat}

theorem Extends.wrote (h : Extends sb alloc d A d₁ A₁) :
    Wrote sb alloc i src tot off off d A d₁ A₁ :=
  ⟨h.owned, h.keep, fun _ h1 h2 => absurd h2 (by omega), fun _ h1 h2 => absurd h2 (by omega),
    fun _ _ hk hm _ => h.fileByte_eq hk hm, h.dinode⟩

theorem Wrote.trans (hi : alloc i) (h₁ : Wrote sb alloc i src tot off off₁ d A d₁ A₁) {tot₁ : Nat}
    (h₂ : Wrote sb alloc i src tot₁ off₁ off₂ d₁ A₁ d₂ A₂) (ht : tot₁ = tot + (off₁ - off))
    (hle : off ≤ off₁) (hle₂ : off₁ ≤ off₂) : Wrote sb alloc i src tot off off₂ d A d₂ A₂ := by
  subst ht
  refine ⟨h₂.owned, fun k y hk hy => ?_, fun x hx hx' => ?_, fun x hx hx' => ?_,
    fun k x hk hm hn => ?_, h₂.dinode.trans h₁.dinode⟩
  · rw [h₂.keep k y hk (by rwa [h₁.keep k y hk hy]), h₁.keep k y hk hy]
  · by_cases hx₁ : x < off₁
    · rw [h₂.keep i _ hi (h₁.mapped x hx hx₁)]
      exact h₁.mapped x hx hx₁
    · exact h₂.mapped x (by omega) hx'
  · by_cases hx₁ : x < off₁
    · rw [h₂.kept i x hi (h₁.mapped x hx hx₁) (fun h => by omega), h₁.written x hx hx₁]
    · rw [h₂.written x (by omega) hx']
      congr 1; omega
  · rw [h₂.kept k x hk (by rwa [h₁.keep k _ hk hm])
      (by rintro ⟨h1, h2, h3⟩; exact hn ⟨h1, by omega, h3⟩),
      h₁.kept k x hk hm (by rintro ⟨h1, h2, h3⟩; exact hn ⟨h1, h2, by omega⟩)]

/-- One round of the loop: the chunk `[off, off + m)` copied into the block of logical block
`off / BSIZE`. -/
theorem Owned.wrote_chunk (h : Owned sb d alloc A) (hi : alloc i) (src : Nat → UInt8) (tot : Nat)
    {m : Nat}
    (hX : nodeAddr d (A i) (bnode (off / BSIZE)) ≠ 0) (hm : off % BSIZE + m ≤ BSIZE) :
    Wrote sb alloc i src tot off (off + m) d A
      (d.setBlock (nodeAddr d (A i) (bnode (off / BSIZE)))
        ((d.block (nodeAddr d (A i) (bnode (off / BSIZE)))).copyIn (off % BSIZE) src tot m)) A := by
  have hy := bnode_leaf (off / BSIZE)
  simp only [BSIZE_eq] at *
  have same : ∀ x, off ≤ x → x < off + m → x / 4096 = off / 4096 := by intros; omega
  refine ⟨h.setBlock_leaf hi hy hX _, fun k y hk _ => h.nodeAddr_setBlock_leaf hi hy hX _ hk y,
    fun x h1 h2 => ?_, fun x h1 h2 => ?_, fun k x hk hmx hn => ?_, rfl⟩
  · rw [h.nodeAddr_setBlock_leaf hi hy hX _ hi, BSIZE_eq, same x h1 h2]
    exact hX
  · rw [h.fileByte_setBlock_leaf hi hy hX _ hi, BSIZE_eq, same x h1 h2, if_pos rfl, Block.copyIn,
      if_pos (by omega)]
    congr 1; omega
  · rw [h.fileByte_setBlock_leaf hi hy hX _ hk]
    split_ifs with e
    · obtain ⟨rfl, e'⟩ := h.inj k i _ _ hk hi hmx e
      have hb := bnode_inj (lt_MAXFILE_of_mapped hmx) (lt_MAXFILE_of_mapped hX) e'
      simp only [BSIZE_eq] at hb ⊢
      rw [Block.copyIn, if_neg (fun hr => hn ⟨rfl, by omega, by omega⟩)]
      unfold fileByte; rw [e, BSIZE_eq]
    · rfl

/-- The write loop on inode `i` records what it wrote in `Wrote`, and moves `off` and `tot`
together. -/
theorem writeiLoop_spec (ok : Nat → Nat → Bool) (n : Nat) (hi : alloc i) :
    ∀ (fuel : Nat) {d : Disk} {A : Nat → Addrs} {a : Addrs} {tot off : Nat} {d' : Disk}
      {a' : Addrs} {tot' off' : Nat}, Owned sb d alloc A → A i = a → tot ≤ n →
    off + (n - tot) < 2 ^ 32 → writeiLoop sb src ok n fuel d a tot off = .ok (d', a', tot', off') →
    Wrote sb alloc i src tot off off' d A d' (Function.update A i a') ∧ tot ≤ tot' ∧ tot' ≤ n ∧
      off' + tot = off + tot'
  | 0, d, A, _, tot, off, _, _, _, _, h, rfl, htot, _, hw => by
    cases hw
    rw [Function.update_eq_self]
    exact ⟨(Extends.refl h).wrote, le_refl _, htot, rfl⟩
  | fuel + 1, d, A, _, tot, off, d', a', tot', off', h, rfl, htot, hrange, hw => by
    unfold writeiLoop at hw
    split_ifs at hw with hlt
    · have hbn : off / BSIZE < MAXFILE := by simp only [BSIZE_eq, MAXFILE_eq]; omega
      cases hb : bmap sb d (A i) (off / BSIZE) with
      | error e => rw [hb] at hw; cases hw
      | ok r =>
        obtain ⟨d₁, a₁, addr⟩ := r
        obtain ⟨hx, rfl⟩ := bmap_extends h hi hbn hb
        rw [hb] at hw
        dsimp only at hw
        split_ifs at hw with h0 hok
        · cases hw
          exact ⟨hx.wrote, le_refl _, htot, rfl⟩
        · have hch := hx.owned.wrote_chunk (A := Function.update A i a₁) hi src tot
            (m := min (n - tot) (BSIZE - off % BSIZE)) (by rwa [Function.update_same])
            (by simp only [BSIZE_eq]; omega)
          rw [Function.update_same] at hch
          obtain ⟨ih, h1, h2, h3⟩ := writeiLoop_spec ok n hi fuel hch.owned
            (Function.update_same _ _ _) (by omega) (by omega) hw
          rw [Function.update_idem] at ih
          exact ⟨hx.wrote.trans hi (hch.trans hi ih (by omega) (by omega) (by omega)) (by omega) le_rfl
            (by omega), by omega, h2, by omega⟩
        · cases hw
          exact ⟨hx.wrote, le_refl _, htot, rfl⟩
    · cases hw
      rw [Function.update_eq_self]
      exact ⟨(Extends.refl h).wrote, le_refl _, htot, rfl⟩

/-- On mapped blocks, when every copy-in succeeds, the write loop allocates nothing and writes
all `n - tot` bytes. -/
theorem writeiLoop_of_mapped (sb : Superblock) (src : Nat → UInt8) (ok : Nat → Nat → Bool)
    (hok : ∀ t m, ok t m = true) (n : Nat) (hi : alloc i) : ∀ (fuel : Nat) {d : Disk} {A : Nat → Addrs} (tot off : Nat),
    Owned sb d alloc A → tot ≤ n → n - tot < fuel → off + (n - tot) < 2 ^ 32 →
    (∀ x, off ≤ x → x < off + (n - tot) → nodeAddr d (A i) (bnode (x / BSIZE)) ≠ 0) →
    ∃ d', writeiLoop sb src ok n fuel d (A i) tot off = .ok (d', A i, n, off + (n - tot))
  | 0, _, _, _, _, _, _, hf, _, _ => absurd hf (Nat.not_lt_zero _)
  | fuel + 1, d, A, tot, off, h, htot, hf, hr, hm => by
    unfold writeiLoop
    by_cases hlt : tot < n
    · have hbn : off / BSIZE < MAXFILE := by simp only [BSIZE_eq, MAXFILE_eq]; omega
      have hX := hm off le_rfl (by omega)
      rw [if_pos hlt, bmap_of_mapped sb d (A i) hbn hX]
      dsimp only
      rw [if_neg hX, if_pos (hok _ _)]
      have hB : off % BSIZE + min (n - tot) (BSIZE - off % BSIZE) ≤ BSIZE := by
        simp only [BSIZE_eq]; omega
      have hm0 : 0 < min (n - tot) (BSIZE - off % BSIZE) := by simp only [BSIZE_eq]; omega
      have hm1 : min (n - tot) (BSIZE - off % BSIZE) ≤ n - tot := min_le_left _ _
      have hch := h.wrote_chunk hi src tot hX hB
      generalize min (n - tot) (BSIZE - off % BSIZE) = m at hB hm0 hm1 hch ⊢
      obtain ⟨d', e⟩ := writeiLoop_of_mapped sb src ok hok n hi fuel (tot + m) (off + m) hch.owned (by omega) (by omega)
        (by omega) fun x h1 h2 => by
          rw [hch.keep i _ hi (hm x (by omega) (by omega))]
          exact hm x (by omega) (by omega)
      rw [e, show off + m + (n - (tot + m)) = off + (n - tot) by omega]
      exact ⟨d', rfl⟩
    · rw [if_neg hlt, show n - tot = 0 by omega, Nat.add_zero, show tot = n by omega]
      exact ⟨d, rfl⟩

end Write

/-! ## The read loop -/

/-- The bytes of a block from `off % BSIZE` on are file bytes from `off`. -/
theorem slice_eq_fileByte (d : Disk) (a : Addrs) {off m : Nat} (hm : off % BSIZE + m ≤ BSIZE) :
    (d.block (nodeAddr d a (bnode (off / BSIZE)))).slice (off % BSIZE) m =
      (List.range m).map fun k => fileByte d a (off + k) := by
  refine List.map_congr_left fun k hk => ?_
  simp only [List.mem_range] at hk
  simp only [fileByte, BSIZE_eq] at *
  rw [show (off + k) / 4096 = off / 4096 by omega, show (off + k) % 4096 = off % 4096 + k by omega]

/-- On mapped blocks the read loop allocates nothing and, when every copy-out succeeds, delivers
the `n - tot` file bytes from `off`. -/
theorem readiLoop_of_mapped (sb : Superblock) (d : Disk) (a : Addrs) (ok : Nat → Nat → Bool)
    (n : Nat) : ∀ (fuel tot off : Nat) (out : List UInt8), tot ≤ n → n - tot < fuel →
    off + (n - tot) < 2 ^ 32 →
    (∀ x, off ≤ x → x < off + (n - tot) → nodeAddr d a (bnode (x / BSIZE)) ≠ 0) →
    ∃ tot' out', readiLoop sb ok n fuel d a tot off out = .ok (d, a, tot', out') ∧
      ((∀ t m, ok t m = true) → tot' = n ∧
        out' = out ++ (List.range (n - tot)).map fun k => fileByte d a (off + k))
  | 0, _, _, _, _, hf, _, _ => absurd hf (Nat.not_lt_zero _)
  | fuel + 1, tot, off, out, htot, hf, hr, hm => by
    unfold readiLoop
    by_cases hlt : tot < n
    · have hbn : off / BSIZE < MAXFILE := by simp only [BSIZE_eq, MAXFILE_eq]; omega
      have hX := hm off le_rfl (by omega)
      rw [if_pos hlt, bmap_of_mapped sb d a hbn hX]
      dsimp only
      rw [if_neg hX]
      have hB : off % BSIZE + min (n - tot) (BSIZE - off % BSIZE) ≤ BSIZE := by
        simp only [BSIZE_eq]; omega
      generalize hmd : min (n - tot) (BSIZE - off % BSIZE) = m at hB ⊢
      have hm1 : m ≤ n - tot := hmd ▸ min_le_left _ _
      have hm0 : 0 < m := by rw [← hmd]; simp only [BSIZE_eq] at *; omega
      by_cases hok : ok tot m
      · rw [if_pos hok]
        obtain ⟨tot', out', e, hall⟩ := readiLoop_of_mapped sb d a ok n fuel (tot + m) (off + m)
          (out ++ (d.block (nodeAddr d a (bnode (off / BSIZE)))).slice (off % BSIZE) m) (by omega)
          (by omega) (by omega) (fun x h1 h2 => hm x (by omega) (by omega))
        refine ⟨tot', out', e, fun hok' => ⟨(hall hok').1, ?_⟩⟩
        rw [(hall hok').2, List.append_assoc, slice_eq_fileByte d a hB,
          show n - tot = m + (n - (tot + m)) by omega, List.range_add, List.map_append, List.map_map]
        simp only [Function.comp_def, Nat.add_assoc]
      · rw [if_neg hok]
        exact ⟨_, _, rfl, fun hall => absurd (hall _ _) hok⟩
    · rw [if_neg hlt]
      exact ⟨tot, out, rfl, fun _ => ⟨by omega, by simp [show n - tot = 0 by omega]⟩⟩

/-! ## `readi` and `writei` -/

theorem u32_add_lt {off n : Nat} (hoff : off < 2 ^ 32) (hn : n < 2 ^ 32) :
    u32 (off + n) < off ↔ 2 ^ 32 ≤ off + n := by
  simp only [u32]; omega

/-- On an inode whose bytes below its size are mapped, `readi` allocates nothing and changes
only the access time; with a successful copy-out and no overflow it returns the
`min n (size - off)` bytes from `off`. -/
theorem DInode.readi_of_mapped (sb : Superblock) (d : Disk) (ip : DInode) (clock : Nat)
    (ok : Nat → Nat → Bool) {off n : Nat} (hoff : off < 2 ^ 32) (hn : n < 2 ^ 32)
    (hm : ∀ x < ip.size, nodeAddr d ip.addrs (bnode (x / BSIZE)) ≠ 0) :
    ∃ t clock' r out, ip.readi sb d clock ok off n = .ok (d, { ip with atime := t }, clock', r, out) ∧
      ((∀ t m, ok t m = true) → off ≤ ip.size → off + n < 2 ^ 32 →
        r = toInt32 (min n (ip.size - off)) ∧
        out = (List.range (min n (ip.size - off))).map fun k => fileByte d ip.addrs (off + k)) := by
  unfold DInode.readi
  by_cases h1 : off > ip.size ∨ u32 (off + n) < off
  · rw [if_pos h1]
    refine ⟨ip.atime, clock, 0, [], rfl, fun _ h h' => ?_⟩
    rw [u32_add_lt hoff hn] at h1
    omega
  · rw [if_neg h1]
    rw [u32_add_lt hoff hn] at h1
    have hn' : (if off + n > ip.size then ip.size - off else n) = min n (ip.size - off) := by
      split_ifs <;> omega
    dsimp only
    rw [hn']
    obtain ⟨tot, out, e, hall⟩ := readiLoop_of_mapped sb d ip.addrs ok (min n (ip.size - off))
      (min n (ip.size - off) + 1) 0 off [] (Nat.zero_le _) (by omega) (by omega)
      (fun x h h' => hm x (by omega))
    rw [e]
    dsimp only
    split_ifs
    · exact ⟨_, _, _, _, rfl, fun hok _ _ => by simp [(hall hok).1, (hall hok).2]⟩
    · exact ⟨_, _, _, _, rfl, fun hok _ _ => by simp [(hall hok).1, (hall hok).2]⟩

section WriteI

variable {sb : Superblock} {alloc : Nat → Prop} {i : Nat} {d d' : Disk} {A : Nat → Addrs}
  {ip ip' : DInode} {clock clock' : Nat} {src : Nat → UInt8} {ok : Nat → Nat → Bool} {r : Int}

/-- The body of `writei` on inode `i` runs the loop from `off` to `off + tot`, returns `tot`
and records the new size. -/
theorem DInode.writeiBody_spec (h : Owned sb d alloc A) (hi : alloc i) (ha : A i = ip.addrs)
    {off n : Nat} (hr : off + n < 2 ^ 32)
    (hw : ip.writeiBody sb d clock src ok off n = .ok (d', ip', clock', r)) :
    ∃ tot, tot ≤ n ∧ r = toInt32 tot ∧
      Wrote sb alloc i src 0 off (off + tot) d A d' (Function.update A i ip'.addrs) ∧
      ip' = { ip with addrs := ip'.addrs, size := max ip.size (off + tot), mtime := ip'.mtime } := by
  unfold DInode.writeiBody at hw
  cases hl : writeiLoop sb src ok n (n + 1) d ip.addrs 0 off with
  | error e => rw [hl] at hw; cases hw
  | ok q =>
    obtain ⟨d₁, a₁, tot, off₁⟩ := q
    obtain ⟨hwr, -, htot, hoff₁⟩ := writeiLoop_spec ok n hi (n + 1) h ha (Nat.zero_le _)
      (by omega) hl
    rw [hl] at hw
    have hs : (if off₁ > ip.size then off₁ else ip.size) = max ip.size (off + tot) := by
      split_ifs <;> omega
    dsimp only at hw
    rw [hs] at hw
    rw [show off₁ = off + tot by omega] at hwr
    refine ⟨tot, htot, ?_⟩
    split_ifs at hw <;> cases hw <;> exact ⟨rfl, hwr, rfl⟩

end WriteI

/-- Within `uint` offsets the write loop never stops on a panic. -/
theorem writeiLoop_ok (sb : Superblock) (src : Nat → UInt8) (ok : Nat → Nat → Bool) (n : Nat) :
    ∀ (fuel : Nat) (d : Disk) (a : Addrs) (tot off : Nat), off + (n - tot) < 2 ^ 32 →
    ∃ r, writeiLoop sb src ok n fuel d a tot off = .ok r
  | 0, _, _, _, _, _ => ⟨_, rfl⟩
  | fuel + 1, d, a, tot, off, hr => by
    unfold writeiLoop
    split_ifs with hlt
    · have hbn : off / BSIZE < MAXFILE := by simp only [BSIZE_eq, MAXFILE_eq]; omega
      rw [bmap_eq sb d a hbn]
      dsimp only
      split_ifs
      · exact ⟨_, rfl⟩
      · exact writeiLoop_ok sb src ok n fuel _ _ _ _ (by omega)
      · exact ⟨_, rfl⟩
    · exact ⟨_, rfl⟩

theorem DInode.writeiBody_ok (sb : Superblock) (d : Disk) (ip : DInode) (clock : Nat)
    (src : Nat → UInt8) (ok : Nat → Nat → Bool) (off n : Nat) (hr : off + n < 2 ^ 32) :
    ∃ r, ip.writeiBody sb d clock src ok off n = .ok r := by
  obtain ⟨q, e⟩ := writeiLoop_ok sb src ok n (n + 1) d ip.addrs 0 off (by omega)
  unfold DInode.writeiBody
  rw [e]
  dsimp only
  split_ifs <;> exact ⟨_, rfl⟩

end Xv6.Fs
