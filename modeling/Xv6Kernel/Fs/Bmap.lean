import Xv6Kernel.Fs.Tree

/-!
# `bmap`

`bmap` as the source writes it, four ranges of logical block numbers with the index arithmetic of
each (`bmap`), and the same function read as one walk down the tree (`bmap_eq`): the root slot of
`bnode bn`, then one indirect word per level of its path. Every allocation on the way fills an
empty slot or word with a fresh zeroed block, so `bmap` extends the tree of its inode and keeps
the ownership invariant (`bmap_extends`); on a mapped block it reads and changes nothing
(`bmap_of_mapped`).
-/

namespace Xv6.Fs

/-- The root-slot step of `bmap`:
`if((addr = ip->addrs[i]) == 0){ addr = balloc(ip->dev); if(addr == 0) return 0;
ip->addrs[i] = addr; }`. -/
def bmapSlot (sb : Superblock) (d : Disk) (a : Addrs) (i : Nat) : Disk × Addrs × Nat :=
  if a i = 0 then
    let (d, addr) := balloc sb d
    if addr = 0 then (d, a, 0) else (d, Function.update a i addr, addr)
  else (d, a, a i)

/-- The indirect step of `bmap` on block `cur`: `bp = bread(cur); a = (uint*)bp->data;
if((addr = a[j]) == 0){ addr = balloc(ip->dev); if(addr){ a[j] = addr; log_block_write(bp); } }
brelse(bp);`. -/
def bmapEntry (sb : Superblock) (d : Disk) (cur j : Nat) : Disk × Nat :=
  if (d.block cur).word j = 0 then
    let (d', addr) := balloc sb d
    if addr = 0 then (d', 0) else (d'.setBlock cur ((d'.block cur).setWord j addr), addr)
  else (d, (d.block cur).word j)

/-- `bmap(ip, bn)`: the disk block of logical block `bn` of an inode with addresses `a`,
allocated on the way when missing; 0 when `balloc` runs out. -/
def bmap (sb : Superblock) (d : Disk) (a : Addrs) (bn : Nat) : Except Stop (Disk × Addrs × Nat) :=
  if bn < NDIRECT then .ok (bmapSlot sb d a bn) else
  let bn := bn - NDIRECT
  if bn < NINDIRECT then
    let (d, a, addr) := bmapSlot sb d a NDIRECT
    if addr = 0 then .ok (d, a, 0) else
    let (d, addr) := bmapEntry sb d addr bn
    .ok (d, a, addr)
  else
  let bn := bn - NINDIRECT
  if bn < NINDIRECT2 then
    let (d, a, addr) := bmapSlot sb d a (NDIRECT + 1)
    if addr = 0 then .ok (d, a, 0) else
    let (d, addr) := bmapEntry sb d addr (bn / NINDIRECT)
    if addr = 0 then .ok (d, a, 0) else
    let (d, addr) := bmapEntry sb d addr (bn % NINDIRECT)
    .ok (d, a, addr)
  else
  let bn := bn - NINDIRECT2
  if bn < NINDIRECT3 then
    let (d, a, addr) := bmapSlot sb d a (NDIRECT + 2)
    if addr = 0 then .ok (d, a, 0) else
    let (d, addr) := bmapEntry sb d addr (bn / NINDIRECT2)
    if addr = 0 then .ok (d, a, 0) else
    let (d, addr) := bmapEntry sb d addr (bn % NINDIRECT2 / NINDIRECT)
    if addr = 0 then .ok (d, a, 0) else
    let (d, addr) := bmapEntry sb d addr (bn % NINDIRECT)
    .ok (d, a, addr)
  else .error (.panic "bmap: out of range")

/-- The node of logical block `bn`: the root slot and word indices `bmap` uses. -/
def bnode (bn : Nat) : Node :=
  if bn < NDIRECT then ⟨bn, []⟩ else
  let b := bn - NDIRECT
  if b < NINDIRECT then ⟨NDIRECT, [b]⟩ else
  let b := b - NINDIRECT
  if b < NINDIRECT2 then ⟨NDIRECT + 1, [b / NINDIRECT, b % NINDIRECT]⟩ else
  let b := b - NINDIRECT2
  ⟨NDIRECT + 2, [b / NINDIRECT2, b % NINDIRECT2 / NINDIRECT, b % NINDIRECT]⟩

/-- The indirect steps of `bmap` along a path, stopping at a missing block. -/
def allocPath (sb : Superblock) : Disk → Nat → List Nat → Disk × Nat
  | d, cur, [] => (d, cur)
  | d, cur, j :: p =>
    if cur = 0 then (d, 0) else
    let (d, nxt) := bmapEntry sb d cur j
    allocPath sb d nxt p

theorem allocPath_zero (sb : Superblock) (d : Disk) (p : List Nat) :
    allocPath sb d 0 p = (d, 0) := by
  cases p <;> simp [allocPath]

@[simp] theorem allocPath_nil (sb : Superblock) (d : Disk) (cur : Nat) :
    allocPath sb d cur [] = (d, cur) := rfl

theorem allocPath_cons {sb : Superblock} {d : Disk} {cur : Nat} (h : cur ≠ 0) (j : Nat)
    (p : List Nat) :
    allocPath sb d cur (j :: p) = allocPath sb (bmapEntry sb d cur j).1 (bmapEntry sb d cur j).2 p := by
  simp only [allocPath, if_neg h]

/-- `bmap` is the root step of `bnode bn` followed by the indirect steps of its path. -/
theorem bmap_eq (sb : Superblock) (d : Disk) (a : Addrs) {bn : Nat} (h : bn < MAXFILE) :
    bmap sb d a bn = .ok
      ((allocPath sb (bmapSlot sb d a (bnode bn).root).1 (bmapSlot sb d a (bnode bn).root).2.2
        (bnode bn).path).1, (bmapSlot sb d a (bnode bn).root).2.1,
       (allocPath sb (bmapSlot sb d a (bnode bn).root).1 (bmapSlot sb d a (bnode bn).root).2.2
        (bnode bn).path).2) := by
  by_cases h1 : bn < NDIRECT
  · have hb : bnode bn = ⟨bn, []⟩ := by unfold bnode; rw [if_pos h1]
    rw [hb]; unfold bmap; rw [if_pos h1]; rfl
  by_cases h2 : bn - NDIRECT < NINDIRECT
  · have hb : bnode bn = ⟨NDIRECT, [bn - NDIRECT]⟩ := by
      unfold bnode; rw [if_neg h1, if_pos h2]
    rw [hb]; unfold bmap; rw [if_neg h1, if_pos h2]
    rcases bmapSlot sb d a NDIRECT with ⟨d₁, a₁, t⟩
    dsimp only
    by_cases ht : t = 0
    · subst ht; rw [if_pos rfl, allocPath_zero]
    · rw [if_neg ht, allocPath_cons ht]; rfl
  by_cases h3 : bn - NDIRECT - NINDIRECT < NINDIRECT2
  · have hb : bnode bn = ⟨NDIRECT + 1, [(bn - NDIRECT - NINDIRECT) / NINDIRECT,
        (bn - NDIRECT - NINDIRECT) % NINDIRECT]⟩ := by
      unfold bnode; rw [if_neg h1, if_neg h2, if_pos h3]
    rw [hb]; unfold bmap; rw [if_neg h1, if_neg h2, if_pos h3]
    rcases bmapSlot sb d a (NDIRECT + 1) with ⟨d₁, a₁, t⟩
    dsimp only
    by_cases ht : t = 0
    · subst ht; rw [if_pos rfl, allocPath_zero]
    rw [if_neg ht, allocPath_cons ht]
    rcases bmapEntry sb d₁ t ((bn - NDIRECT - NINDIRECT) / NINDIRECT) with ⟨d₂, m⟩
    dsimp only
    by_cases hm : m = 0
    · subst hm; rw [if_pos rfl, allocPath_zero]
    · rw [if_neg hm, allocPath_cons hm]; rfl
  have h4 : bn - NDIRECT - NINDIRECT - NINDIRECT2 < NINDIRECT3 := by
    simp only [MAXFILE, NDIRECT_eq, NINDIRECT_eq, NINDIRECT2_eq, NINDIRECT3_eq] at *; omega
  have hb : bnode bn = ⟨NDIRECT + 2, [(bn - NDIRECT - NINDIRECT - NINDIRECT2) / NINDIRECT2,
      (bn - NDIRECT - NINDIRECT - NINDIRECT2) % NINDIRECT2 / NINDIRECT,
      (bn - NDIRECT - NINDIRECT - NINDIRECT2) % NINDIRECT]⟩ := by
    unfold bnode; rw [if_neg h1, if_neg h2, if_neg h3]
  rw [hb]; unfold bmap; rw [if_neg h1, if_neg h2, if_neg h3, if_pos h4]
  rcases bmapSlot sb d a (NDIRECT + 2) with ⟨d₁, a₁, t⟩
  dsimp only
  by_cases ht : t = 0
  · subst ht; rw [if_pos rfl, allocPath_zero]
  rw [if_neg ht, allocPath_cons ht]
  rcases bmapEntry sb d₁ t ((bn - NDIRECT - NINDIRECT - NINDIRECT2) / NINDIRECT2) with ⟨d₂, m⟩
  dsimp only
  by_cases hm : m = 0
  · subst hm; rw [if_pos rfl, allocPath_zero]
  rw [if_neg hm, allocPath_cons hm]
  rcases bmapEntry sb d₂ m ((bn - NDIRECT - NINDIRECT - NINDIRECT2) % NINDIRECT2 / NINDIRECT)
    with ⟨d₃, m'⟩
  dsimp only
  by_cases hm' : m' = 0
  · subst hm'; rw [if_pos rfl, allocPath_zero]
  · rw [if_neg hm', allocPath_cons hm']; rfl
theorem bnode_ok {bn : Nat} (h : bn < MAXFILE) :
    (bnode bn).ok ∧ (bnode bn).path.length = depth (bnode bn).root := by
  simp only [MAXFILE_eq] at h
  unfold bnode
  simp only [NDIRECT_eq, NINDIRECT_eq, NINDIRECT2_eq]
  split_ifs <;> simp [Node.ok, depth, *] <;> omega

/-! ## `bmap` on a mapped block -/

theorem allocPath_of_walk {sb : Superblock} {d : Disk} :
    ∀ {cur : Nat} {p : List Nat}, d.walk cur p ≠ 0 → allocPath sb d cur p = (d, d.walk cur p)
  | _, [], _ => rfl
  | cur, j :: p, h => by
    have hc : cur ≠ 0 := by rintro rfl; simp at h
    have hw : (d.block cur).word j ≠ 0 := by
      intro e; apply h; show d.walk (d.look cur j) p = 0; simp [Disk.look, hc, e]
    have e : d.walk cur (j :: p) = d.walk ((d.block cur).word j) p := by
      show d.walk (d.look cur j) p = _; simp [Disk.look, hc]
    rw [allocPath_cons hc, show bmapEntry sb d cur j = (d, (d.block cur).word j) from if_neg hw, e]
    exact allocPath_of_walk (e ▸ h)

/-- On a logical block that is already mapped `bmap` allocates nothing and returns its block. -/
theorem bmap_of_mapped (sb : Superblock) (d : Disk) (a : Addrs) {bn : Nat} (h : bn < MAXFILE)
    (hm : nodeAddr d a (bnode bn) ≠ 0) : bmap sb d a bn = .ok (d, a, nodeAddr d a (bnode bn)) := by
  rw [nodeAddr_of_ok (bnode_ok h).1] at hm ⊢
  have hr : a (bnode bn).root ≠ 0 := by intro e; rw [e] at hm; simp at hm
  rw [bmap_eq sb d a h, show bmapSlot sb d a (bnode bn).root = (d, a, a (bnode bn).root) from
    if_neg hr, allocPath_of_walk hm]

/-! ## `bmap` extends the tree of its inode -/

/-- `d', A'` arise from `d, A` by filling empty nodes with fresh zeroed blocks: the invariant
holds, every node keeps its block, and every data block keeps its bytes. -/
structure Extends (sb : Superblock) (alloc : Nat → Prop) (d : Disk) (A : Nat → Addrs)
    (d' : Disk) (A' : Nat → Addrs) : Prop where
  owned : Owned sb d' alloc A'
  keep : ∀ k y, alloc k → nodeAddr d (A k) y ≠ 0 → nodeAddr d' (A' k) y = nodeAddr d (A k) y
  data : ∀ k y, alloc k → y.path.length = depth y.root → nodeAddr d (A k) y ≠ 0 →
    d'.block (nodeAddr d (A k) y) = d.block (nodeAddr d (A k) y)
  dinode : d'.dinode = d.dinode

section Extend

variable {sb : Superblock} {alloc : Nat → Prop} {d d₁ d₂ : Disk} {A A₁ A₂ : Nat → Addrs}

theorem Extends.refl (h : Owned sb d alloc A) : Extends sb alloc d A d A :=
  ⟨h, fun _ _ _ _ => rfl, fun _ _ _ _ _ => rfl, rfl⟩

theorem Extends.trans (h₁ : Extends sb alloc d A d₁ A₁) (h₂ : Extends sb alloc d₁ A₁ d₂ A₂) :
    Extends sb alloc d A d₂ A₂ := by
  refine ⟨h₂.owned, fun k y hk hy => ?_, fun k y hk hl hy => ?_, h₂.dinode.trans h₁.dinode⟩
  · rw [h₂.keep k y hk (by rwa [h₁.keep k y hk hy]), h₁.keep k y hk hy]
  · have e := h₁.keep k y hk hy
    rw [← h₁.data k y hk hl hy, ← e]
    exact h₂.data k y hk hl (by rwa [e])

variable {i : Nat}

/-- The indirect step of `bmap` below node `⟨r, q⟩` extends the tree and returns the block of
node `⟨r, q ++ [j]⟩`. -/
theorem bmapEntry_spec (h : Owned sb d alloc A) (hi : alloc i) {r j : Nat} {q : List Nat}
    (hz : (⟨r, q ++ [j]⟩ : Node).ok) (hP : nodeAddr d (A i) ⟨r, q⟩ ≠ 0) :
    Extends sb alloc d A (bmapEntry sb d (nodeAddr d (A i) ⟨r, q⟩) j).1 A ∧
      (bmapEntry sb d (nodeAddr d (A i) ⟨r, q⟩) j).2 =
        nodeAddr (bmapEntry sb d (nodeAddr d (A i) ⟨r, q⟩) j).1 (A i) ⟨r, q ++ [j]⟩ := by
  set P := nodeAddr d (A i) ⟨r, q⟩ with hPdef
  have hqok : (⟨r, q⟩ : Node).ok := Node.ok_of_prefix hz (List.prefix_append _ _)
  have hzP : nodeAddr d (A i) ⟨r, q ++ [j]⟩ = (d.block P).word j := by
    rw [nodeAddr_of_ok hz, Disk.walk_concat, ← nodeAddr_of_ok hqok]
    simp [Disk.look, hP]
  by_cases hw : (d.block P).word j = 0
  · unfold bmapEntry
    rw [if_pos hw]
    rcases balloc_cases sb d with ⟨b, hb, hbs, hbf⟩ | ⟨hb, -⟩
    · rw [hb]
      have hPb : P ≠ b := h.ne_of_free hbf hi _
      have hblk : (d.take b).block P = d.block P := by simp [Function.update_noteq hPb]
      have hb0 : b ≠ 0 := by rintro rfl; rw [h.boot] at hbf; cases hbf
      have hw' : d.look P j = 0 := by simp [Disk.look, hP, hw]
      have hchg := fun k (hk : alloc k) y =>
        h.nodeAddr_setWord hi hz hP hw' hbf (lt_trans hbs sb.size_lt) hk y
      simp only [if_neg hb0, hblk]
      refine ⟨⟨h.of_install (by simp) hbf hbs fun k y hk => hchg k hk y, fun k y hk hy => ?_,
        fun k y hk hl hy => ?_, by simp⟩, ?_⟩
      · rw [hchg k hk y, if_neg]
        rintro ⟨rfl, rfl, -⟩
        exact hy (hzP.trans hw)
      · have hX : nodeAddr d (A k) y ≠ P := by
          intro e
          obtain ⟨rfl, rfl⟩ := h.inj k i _ _ hk hi hy e
          have := hz.2.1
          simp only [List.length_append, List.length_singleton] at this hl
          omega
        simp [Function.update_noteq hX, Function.update_noteq (h.ne_of_free hbf hk y)]
      · rw [hchg i hi, if_pos ⟨rfl, rfl, hz⟩]
    · rw [hb]
      exact ⟨Extends.refl h, by simp [hzP, hw]⟩
  · unfold bmapEntry
    rw [if_neg hw]
    exact ⟨Extends.refl h, hzP.symm⟩

/-- The root step of `bmap` at slot `r` extends the tree and returns the block of `⟨r, []⟩`. -/
theorem bmapSlot_spec (h : Owned sb d alloc A) (hi : alloc i) {r : Nat} (hr : r < NDIRECT + 3) :
    Extends sb alloc d A (bmapSlot sb d (A i) r).1 (Function.update A i (bmapSlot sb d (A i) r).2.1) ∧
      (bmapSlot sb d (A i) r).2.2 = nodeAddr (bmapSlot sb d (A i) r).1 (bmapSlot sb d (A i) r).2.1 ⟨r, []⟩ := by
  have hok : (⟨r, []⟩ : Node).ok := ⟨hr, Nat.zero_le _, by simp⟩
  by_cases h0 : A i r = 0
  · unfold bmapSlot
    rw [if_pos h0]
    rcases balloc_cases sb d with ⟨b, hb, hbs, hbf⟩ | ⟨hb, -⟩
    · rw [hb]
      have hb0 : b ≠ 0 := by rintro rfl; rw [h.boot] at hbf; cases hbf
      have hchg := fun k (hk : alloc k) y => h.nodeAddr_setSlot h0 hbf hk y
      simp only [if_neg hb0]
      refine ⟨⟨h.of_install (by simp) hbf hbs fun k y hk => hchg k hk y, fun k y hk hy => ?_,
        fun k y hk _ hy => ?_, by simp⟩, ?_⟩
      · rw [hchg k hk y, if_neg]
        rintro ⟨rfl, rfl, -⟩
        exact hy (by rw [nodeAddr_of_ok hok]; exact h0)
      · simp [Function.update_noteq (h.ne_of_free hbf hk y)]
      · simp [nodeAddr_of_ok hok]
    · rw [hb]
      simp only [if_true, Function.update_eq_self]
      exact ⟨Extends.refl h, by rw [nodeAddr_of_ok hok]; exact h0.symm⟩
  · unfold bmapSlot
    rw [if_neg h0]
    simp only [Function.update_eq_self]
    exact ⟨Extends.refl h, by rw [nodeAddr_of_ok hok]; rfl⟩

/-- The indirect steps of `bmap` below node `⟨r, q⟩` extend the tree and return the block of
node `⟨r, q ++ p⟩`. -/
theorem allocPath_spec (hi : alloc i) {r : Nat} :
    ∀ (p q : List Nat) {d : Disk}, Owned sb d alloc A → (⟨r, q ++ p⟩ : Node).ok →
      Extends sb alloc d A (allocPath sb d (nodeAddr d (A i) ⟨r, q⟩) p).1 A ∧
        (allocPath sb d (nodeAddr d (A i) ⟨r, q⟩) p).2 =
          nodeAddr (allocPath sb d (nodeAddr d (A i) ⟨r, q⟩) p).1 (A i) ⟨r, q ++ p⟩
  | [], q, d, h, _ => by simpa using Extends.refl h
  | j :: p, q, d, h, hz => by
    have hqj : (⟨r, q ++ [j]⟩ : Node).ok := Node.ok_of_prefix hz (by simp)
    by_cases h0 : nodeAddr d (A i) ⟨r, q⟩ = 0
    · rw [h0, allocPath_zero]
      refine ⟨Extends.refl h, ?_⟩
      rw [nodeAddr_of_ok hz, Disk.walk_append,
        ← nodeAddr_of_ok (Node.ok_of_prefix hz (List.prefix_append _ _)), h0, Disk.walk_zero]
    · obtain ⟨he, hn⟩ := bmapEntry_spec h hi hqj h0
      rw [allocPath_cons h0, hn]
      have ih := allocPath_spec hi p (q ++ [j]) he.owned (by simpa using hz)
      simp only [List.append_assoc, List.singleton_append] at ih
      exact ⟨he.trans ih.1, ih.2⟩

/-- `bmap` on inode `i` extends its tree, keeping the invariant, and returns the block of the
logical block's node. -/
theorem bmap_extends (h : Owned sb d alloc A) (hi : alloc i) {bn : Nat} (hbn : bn < MAXFILE)
    {d' : Disk} {a' : Addrs} {addr : Nat} (hb : bmap sb d (A i) bn = .ok (d', a', addr)) :
    Extends sb alloc d A d' (Function.update A i a') ∧ addr = nodeAddr d' a' (bnode bn) := by
  rw [bmap_eq sb d (A i) hbn] at hb
  obtain ⟨hs, ht⟩ := bmapSlot_spec h hi (bnode_ok hbn).1.1
  have hp := allocPath_spec (A := Function.update A i (bmapSlot sb d (A i) (bnode bn).root).2.1)
    (r := (bnode bn).root) hi (bnode bn).path [] hs.owned
    (by rw [List.nil_append]; exact (bnode_ok hbn).1)
  rw [Function.update_same, ← ht] at hp
  simp only [List.nil_append] at hp
  cases hb
  exact ⟨hs.trans hp.1, hp.2⟩

end Extend

end Xv6.Fs
