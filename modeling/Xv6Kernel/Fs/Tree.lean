import Xv6Kernel.Fs.Balloc

/-!
# The block tree of an inode

An inode's blocks form a tree: `addrs[0..9]` are leaves, `addrs[10]`, `addrs[11]` and
`addrs[12]` are the roots of single-, double- and triple-indirect trees whose inner nodes are
indirect blocks of `NINDIRECT` words. A node is a root slot with a path of word indices, and
`nodeAddr` is the block a walk down that path reaches (0 below a missing block).

`Owned` is the ownership invariant over all allocated inodes: every block a node reaches is
marked in the bitmap, and no two nodes, of one inode or of two, reach the same block. The two
ways `bmap` grows a tree, filling an empty root slot (`Owned.nodeAddr_setSlot`) or an empty word
of an indirect block (`Owned.nodeAddr_setWord`) with a fresh zeroed block, change the block of
exactly one node and keep the invariant.
-/

namespace Xv6.Fs

/-- The block numbers of an inode, `ip->addrs[NDIRECT+3]`. -/
abbrev Addrs := Nat → Nat

/-- Word `j` of indirect block `cur`, or 0 when `cur` is missing. -/
def Disk.look (d : Disk) (cur j : Nat) : Nat := if cur = 0 then 0 else (d.block cur).word j

/-- The block reached from `cur` by a path of word indices. -/
def Disk.walk (d : Disk) (cur : Nat) (p : List Nat) : Nat := p.foldl d.look cur

@[simp] theorem Disk.look_zero (d : Disk) (j : Nat) : d.look 0 j = 0 := rfl

@[simp] theorem Disk.walk_nil (d : Disk) (cur : Nat) : d.walk cur [] = cur := rfl

theorem Disk.walk_append (d : Disk) (cur : Nat) (p q : List Nat) :
    d.walk cur (p ++ q) = d.walk (d.walk cur p) q := List.foldl_append _ _ _ _

theorem Disk.walk_concat (d : Disk) (cur : Nat) (p : List Nat) (j : Nat) :
    d.walk cur (p ++ [j]) = d.look (d.walk cur p) j := by
  simp [Disk.walk_append, Disk.walk]

@[simp] theorem Disk.walk_zero (d : Disk) (p : List Nat) : d.walk 0 p = 0 := by
  induction p with
  | nil => rfl
  | cons j p ih => exact ih

/-- A walk from a zeroed block reaches 0 after one step. -/
theorem Disk.walk_of_zero_block {d : Disk} {c : Nat} (hc : d.block c = Block.zero) (j : Nat)
    (p : List Nat) : d.walk c (j :: p) = 0 := by
  show d.walk (d.look c j) p = 0
  simp [Disk.look, hc]

/-- Two disks whose steps agree along a path reach the same block. -/
theorem Disk.walk_congr {d d' : Disk} {cur : Nat} (p : List Nat)
    (h : ∀ p₀ m, p₀ ++ [m] <+: p → d'.look (d.walk cur p₀) m = d.look (d.walk cur p₀) m) :
    d'.walk cur p = d.walk cur p := by
  induction p using List.reverseRecOn with
  | nil => rfl
  | append_singleton p m ih =>
    rw [Disk.walk_concat, Disk.walk_concat,
      ih fun p₀ m' hp => h p₀ m' (hp.trans (List.prefix_append _ _))]
    exact h p m (List.prefix_refl _)

/-! ## Nodes -/

/-- How many indirect levels hang below root slot `r`. -/
def depth (r : Nat) : Nat := if r < NDIRECT then 0 else r + 1 - NDIRECT

/-- A node of the tree: a root slot and the word indices below it. -/
structure Node where
  root : Nat
  path : List Nat
  deriving DecidableEq

/-- A node that exists: a slot of `addrs`, no deeper than its tree, indices inside a block. -/
def Node.ok (x : Node) : Prop :=
  x.root < NDIRECT + 3 ∧ x.path.length ≤ depth x.root ∧ ∀ j ∈ x.path, j < NINDIRECT

instance : DecidablePred Node.ok := fun _ => inferInstanceAs (Decidable (_ ∧ _ ∧ _))

/-- The block at node `x` of the tree rooted in `a`. -/
def nodeAddr (d : Disk) (a : Addrs) (x : Node) : Nat :=
  if x.ok then d.walk (a x.root) x.path else 0

theorem Node.ok_of_prefix {r : Nat} {p p₀ : List Nat} (h : (⟨r, p⟩ : Node).ok)
    (hp : p₀ <+: p) : (⟨r, p₀⟩ : Node).ok :=
  ⟨h.1, hp.length_le.trans h.2.1, fun j hj => h.2.2 j (hp.subset hj)⟩

theorem nodeAddr_of_ok {d : Disk} {a : Addrs} {x : Node} (h : x.ok) :
    nodeAddr d a x = d.walk (a x.root) x.path := if_pos h

theorem nodeAddr_of_not_ok {d : Disk} {a : Addrs} {x : Node} (h : ¬ x.ok) :
    nodeAddr d a x = 0 := if_neg h

/-- Every block on the way to a block a node reaches is there. -/
theorem nodeAddr_prefix_ne_zero {d : Disk} {a : Addrs} {r : Nat} {p p₀ : List Nat}
    (h : nodeAddr d a ⟨r, p⟩ ≠ 0) (hp : p₀ <+: p) : nodeAddr d a ⟨r, p₀⟩ ≠ 0 := by
  have hok : (⟨r, p⟩ : Node).ok := by
    by_contra hn
    exact h (nodeAddr_of_not_ok hn)
  rw [nodeAddr_of_ok hok] at h
  rw [nodeAddr_of_ok (Node.ok_of_prefix hok hp)]
  obtain ⟨q, rfl⟩ := hp
  intro e
  rw [Disk.walk_append, e, Disk.walk_zero] at h
  exact h rfl

/-! ## Ownership -/

/-- The ownership invariant of the block trees of the inodes `alloc` with addresses `A`. -/
structure Owned (sb : Superblock) (d : Disk) (alloc : Nat → Prop) (A : Nat → Addrs) : Prop where
  boot : d.bitmap 0 = true
  mark : ∀ i x, alloc i → nodeAddr d (A i) x ≠ 0 →
    d.bitmap (nodeAddr d (A i) x) = true ∧ nodeAddr d (A i) x < sb.size
  inj : ∀ i j x y, alloc i → alloc j → nodeAddr d (A i) x ≠ 0 →
    nodeAddr d (A i) x = nodeAddr d (A j) y → i = j ∧ x = y

section Install

variable {sb : Superblock} {d : Disk} {alloc : Nat → Prop} {A : Nat → Addrs}

/-- A block whose bit is clear is the block of no node. -/
theorem Owned.ne_of_free (h : Owned sb d alloc A) {b : Nat} (hb : d.bitmap b = false)
    {i : Nat} (hi : alloc i) (x : Node) : nodeAddr d (A i) x ≠ b := by
  intro e
  by_cases h0 : nodeAddr d (A i) x = 0
  · rw [← e, h0, h.boot] at hb; cases hb
  · have := (h.mark i x hi h0).1
    rw [e, hb] at this; cases this

/-- A walk along a prefix of a node's path reaches a block that is not free. -/
theorem Owned.walk_prefix_ne (h : Owned sb d alloc A) {b : Nat} (hb : d.bitmap b = false)
    {k r : Nat} (hk : alloc k) {p p₀ : List Nat} (hy : (⟨r, p⟩ : Node).ok) (hp : p₀ <+: p) :
    d.walk (A k r) p₀ ≠ b := by
  have := h.ne_of_free hb hk ⟨r, p₀⟩
  rwa [nodeAddr_of_ok (Node.ok_of_prefix hy hp)] at this

variable {i : Nat} {b : Nat}

/-- Filling the empty word `j` of the indirect block at node `⟨r, q⟩` of inode `i` with a fresh
zeroed block `b` gives node `⟨r, q ++ [j]⟩` the block `b` and changes no other node. -/
theorem Owned.nodeAddr_setWord (h : Owned sb d alloc A) (hi : alloc i) {r j : Nat}
    {q : List Nat} (hz : (⟨r, q ++ [j]⟩ : Node).ok) (hP : nodeAddr d (A i) ⟨r, q⟩ ≠ 0)
    (hw : d.look (nodeAddr d (A i) ⟨r, q⟩) j = 0) (hb : d.bitmap b = false) (hb32 : b < 2 ^ 32)
    {k : Nat} (hk : alloc k) (y : Node) :
    nodeAddr ((d.take b).setBlock (nodeAddr d (A i) ⟨r, q⟩)
        ((d.block (nodeAddr d (A i) ⟨r, q⟩)).setWord j b)) (A k) y =
      if k = i ∧ y = ⟨r, q ++ [j]⟩ ∧ y.ok then b else nodeAddr d (A k) y := by
  set P := nodeAddr d (A i) ⟨r, q⟩ with hPdef
  set d' : Disk := (d.take b).setBlock P ((d.block P).setWord j b)
  have hqok : (⟨r, q⟩ : Node).ok := Node.ok_of_prefix hz (List.prefix_append _ _)
  have hPb : P ≠ b := h.ne_of_free hb hi _
  have hb0 : b ≠ 0 := by rintro rfl; rw [h.boot] at hb; cases hb
  have hd'P : d'.block P = (d.block P).setWord j b := by simp [d']
  have hd'b : d'.block b = Block.zero := by simp [d', Function.update_noteq hPb.symm]
  have hd'c : ∀ c, c ≠ P → c ≠ b → d'.block c = d.block c := by
    intro c h1 h2; simp [d', Function.update_noteq h1, Function.update_noteq h2]
  -- the walk to the parent is untouched, so the new node reaches `b`
  have hlook : ∀ c m, c ≠ b → (c = P → m ≠ j) → d'.look c m = d.look c m := by
    intro c m hcb hcP
    by_cases hc0 : c = 0
    · simp [hc0]
    by_cases hcP' : c = P
    · subst hcP'
      simp only [Disk.look, hc0, if_false, hd'P]
      exact Block.word_setWord_of_ne _ _ (hcP rfl)
    · simp only [Disk.look, hc0, if_false, hd'c c hcP' hcb]
  -- a path that does not run through the new node reaches the same block
  have hsame : ∀ r' p, (⟨r', p⟩ : Node).ok → ¬ (k = i ∧ r' = r ∧ q ++ [j] <+: p) →
      d'.walk (A k r') p = d.walk (A k r') p := by
    intro r' p hy hnot
    refine Disk.walk_congr p fun p₀ m hpm => hlook _ _ ?_ ?_
    · exact h.walk_prefix_ne hb hk hy ((List.prefix_append _ _).trans hpm)
    · intro e
      have hok₀ : (⟨r', p₀⟩ : Node).ok := Node.ok_of_prefix hy ((List.prefix_append _ _).trans hpm)
      have e' : nodeAddr d (A k) ⟨r', p₀⟩ = nodeAddr d (A i) ⟨r, q⟩ := by
        rw [nodeAddr_of_ok hok₀]; exact e
      obtain ⟨rfl, hx⟩ := h.inj k i _ _ hk hi (by rw [e']; exact hP) e'
      cases hx
      rintro rfl
      exact hnot ⟨rfl, rfl, hpm⟩
  by_cases hy : y.ok
  · obtain ⟨r', p⟩ := y
    rw [nodeAddr_of_ok hy, nodeAddr_of_ok hy]
    by_cases hpre : k = i ∧ r' = r ∧ q ++ [j] <+: p
    · obtain ⟨rfl, rfl, rest, rfl⟩ := hpre
      have hq : d'.walk (A k r') q = P := by
        rw [hsame r' q hqok fun ⟨_, _, hp⟩ => by
          have := hp.length_le
          simp only [List.length_append, List.length_singleton] at this
          omega, hPdef,
          nodeAddr_of_ok hqok]
      have hnew : d'.walk (A k r') (q ++ [j]) = b := by
        rw [Disk.walk_concat, hq]
        simp only [Disk.look, hP, if_false, hd'P, Block.word_setWord_self _ _ hb32]
      have hold : d.walk (A k r') (q ++ [j]) = 0 := by
        rw [Disk.walk_concat, ← nodeAddr_of_ok hqok]; exact hw
      rw [Disk.walk_append, Disk.walk_append d, hnew, hold, Disk.walk_zero]
      cases rest with
      | nil => simp [hz]
      | cons m rest =>
        rw [Disk.walk_of_zero_block hd'b]
        simp
    · rw [hsame r' p hy hpre, if_neg]
      rintro ⟨rfl, e, -⟩
      cases e
      exact hpre ⟨rfl, rfl, List.prefix_refl _⟩
  · rw [nodeAddr_of_not_ok hy, nodeAddr_of_not_ok hy, if_neg fun ⟨_, _, h'⟩ => hy h']

/-- Filling the empty root slot `r` of inode `i` with a fresh zeroed block `b` gives node
`⟨r, []⟩` the block `b` and changes no other node. -/
theorem Owned.nodeAddr_setSlot (h : Owned sb d alloc A) {r : Nat} (hr : A i r = 0)
    (hb : d.bitmap b = false) {k : Nat} (hk : alloc k) (y : Node) :
    nodeAddr (d.take b) (Function.update A i (Function.update (A i) r b) k) y =
      if k = i ∧ y = ⟨r, []⟩ ∧ y.ok then b else nodeAddr d (A k) y := by
  have hb0 : b ≠ 0 := by rintro rfl; rw [h.boot] at hb; cases hb
  by_cases hy : y.ok
  · obtain ⟨r', p⟩ := y
    rw [nodeAddr_of_ok hy, nodeAddr_of_ok hy]
    by_cases hkr : k = i ∧ r' = r
    · obtain ⟨rfl, rfl⟩ := hkr
      simp only [Function.update_same, hr, Disk.walk_zero]
      cases p with
      | nil => simp [hy]
      | cons m p =>
        rw [Disk.walk_of_zero_block (by simp)]
        simp
    · have hstart : Function.update A i (Function.update (A i) r b) k r' = A k r' := by
        by_cases hki : k = i
        · subst hki
          rw [Function.update_same, Function.update_noteq fun e => hkr ⟨rfl, e⟩]
        · rw [Function.update_noteq hki]
      rw [hstart, if_neg fun ⟨hki, e, _⟩ => hkr ⟨hki, by cases e; rfl⟩]
      refine Disk.walk_congr p fun p₀ m hpm => ?_
      have hne := h.walk_prefix_ne hb hk hy ((List.prefix_append _ _).trans hpm)
      simp [Disk.look, Function.update_noteq hne]
  · rw [nodeAddr_of_not_ok hy, nodeAddr_of_not_ok hy, if_neg fun ⟨_, _, h'⟩ => hy h']

/-- An install that marks a fresh block `b` and gives it to one node keeps the invariant. -/
theorem Owned.of_install (h : Owned sb d alloc A) {d' : Disk} {A' : Nat → Addrs} {z : Node}
    (hbm : d'.bitmap = Function.update d.bitmap b true)
    (hb : d.bitmap b = false) (hbs : b < sb.size)
    (hchg : ∀ k y, alloc k → nodeAddr d' (A' k) y =
      if k = i ∧ y = z ∧ y.ok then b else nodeAddr d (A k) y) :
    Owned sb d' alloc A' := by
  have hmarked : ∀ c, d.bitmap c = true → d'.bitmap c = true := by
    intro c hc
    rw [hbm]
    by_cases e : c = b
    · subst e; simp
    · rw [Function.update_noteq e, hc]
  refine ⟨hmarked 0 h.boot, fun k y hk hne => ?_, fun k k' y y' hk hk' hne e => ?_⟩
  · rw [hchg k y hk] at hne ⊢
    split
    · exact ⟨by simp [hbm], hbs⟩
    · rw [if_neg ‹_›] at hne
      exact ⟨hmarked _ (h.mark k y hk hne).1, (h.mark k y hk hne).2⟩
  · rw [hchg k y hk, hchg k' y' hk'] at e
    rw [hchg k y hk] at hne
    split at e <;> split at e
    · rename_i h1 h2; exact ⟨h1.1.trans h2.1.symm, h1.2.1.trans h2.2.1.symm⟩
    · exact absurd e.symm (h.ne_of_free hb hk' y')
    · exact absurd e (h.ne_of_free hb hk y)
    · rw [if_neg ‹_›] at hne
      exact h.inj k k' y y' hk hk' hne e

end Install

end Xv6.Fs
