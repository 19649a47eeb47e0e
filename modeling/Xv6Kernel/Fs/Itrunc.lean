import Xv6Kernel.Fs.Bmap
import Mathlib.Data.List.Nodup

/-!
# `itrunc`

`itrunc` as the source writes it: the direct slots, then one, two and three nested loops over the
words of the indirect blocks. Each loop is a run of `bfree`s, so the whole function frees the
blocks of the tree in one fixed order, `treeBlocks` (`itrunc_eq`). Under the ownership invariant
that list has no repeats and every block on it is marked, so `itrunc` never reaches the
`freeing free block` panic and clears exactly the tree (`itrunc_ok`).
-/

namespace Xv6.Fs

/-- `for(j = 0; j < NINDIRECT; j++) if(a[j]) bfree(ip->dev, a[j]);` over the words of `blk`. -/
def freeWords (d : Disk) (blk : Block) : Except Stop Disk :=
  (List.range NINDIRECT).foldlM (fun d j => if blk.word j ≠ 0 then bfree d (blk.word j) else pure d) d

/-- The loop over a double-indirect block: each present single-indirect block's words, then the
block itself. -/
def freeWords2 (d : Disk) (blk : Block) : Except Stop Disk :=
  (List.range NINDIRECT).foldlM (fun d j =>
    if blk.word j ≠ 0 then do
      let d ← freeWords d (d.block (blk.word j))
      bfree d (blk.word j)
    else pure d) d

/-- The loop over a triple-indirect block. -/
def freeWords3 (d : Disk) (blk : Block) : Except Stop Disk :=
  (List.range NINDIRECT).foldlM (fun d j =>
    if blk.word j ≠ 0 then do
      let d ← freeWords2 d (d.block (blk.word j))
      bfree d (blk.word j)
    else pure d) d

/-- The loop over the direct slots of `itrunc`:
`for(i = 0; i < NDIRECT; i++){ if(ip->addrs[i]){ bfree(ip->dev, ip->addrs[i]); ip->addrs[i] = 0; } }`. -/
def itruncDirect (d : Disk) (a : Addrs) : Except Stop (Disk × Addrs) :=
  (List.range NDIRECT).foldlM (fun (s : Disk × Addrs) i =>
    if s.2 i ≠ 0 then do
      let d ← bfree s.1 (s.2 i)
      pure (d, Function.update s.2 i 0)
    else pure s) (d, a)

/-- One indirect root of `itrunc`: `if(ip->addrs[r]){ bp = bread(ip->dev, ip->addrs[r]);` the
loop over its words `; brelse(bp); bfree(ip->dev, ip->addrs[r]); ip->addrs[r] = 0; }`. The
source repeats this block for `r = NDIRECT`, `NDIRECT + 1`, `NDIRECT + 2` with one, two and
three nested loops. -/
def itruncRoot (loop : Disk → Block → Except Stop Disk) (d : Disk) (a : Addrs) (r : Nat) :
    Except Stop (Disk × Addrs) :=
  if a r ≠ 0 then do
    let d ← loop d (d.block (a r))
    let d ← bfree d (a r)
    pure (d, Function.update a r 0)
  else pure (d, a)

/-- `itrunc` on the blocks: free the direct blocks, then each indirect tree with its root, and
clear every slot of `addrs`. Setting the size to 0 and `iupdate` are on the inode. -/
def itruncBlocks (d : Disk) (a : Addrs) : Except Stop (Disk × Addrs) := do
  let (d, a) ← itruncDirect d a
  let (d, a) ← itruncRoot freeWords d a NDIRECT
  let (d, a) ← itruncRoot freeWords2 d a (NDIRECT + 1)
  itruncRoot freeWords3 d a (NDIRECT + 2)

/-! ## The blocks of a tree, in the order `itrunc` frees them -/

/-- The blocks of the tree of height `n` under block `cur`: the subtrees of its present words,
then `cur`. -/
def subtree (d : Disk) : Nat → Nat → List Nat
  | 0, cur => [cur]
  | n + 1, cur => (List.range NINDIRECT).flatMap (fun j =>
      if (d.block cur).word j ≠ 0 then subtree d n ((d.block cur).word j) else []) ++ [cur]

/-- The present subtrees of a list of slots. -/
def subtrees (d : Disk) (n : Nat) (w : Nat → Nat) (l : List Nat) : List Nat :=
  l.flatMap fun j => if w j ≠ 0 then subtree d n (w j) else []

/-- Every block of the tree of `a`, slot by slot: the direct blocks, then the single-, double-
and triple-indirect trees. -/
def treeBlocks (d : Disk) (a : Addrs) : List Nat :=
  (List.range (NDIRECT + 3)).flatMap fun r => if a r ≠ 0 then subtree d (depth r) (a r) else []

/-- Every slot of `addrs` cleared. -/
def clearAddrs (a : Addrs) : Addrs := fun i => if i < NDIRECT + 3 then 0 else a i

theorem subtree_zero (d : Disk) (cur : Nat) : subtree d 0 cur = [cur] := by
  simp only [subtree]

theorem subtree_succ (d : Disk) (n cur : Nat) :
    subtree d (n + 1) cur = subtrees d n (d.block cur).word (List.range NINDIRECT) ++ [cur] := by
  simp only [subtree, subtrees]

theorem subtree_congr {d d' : Disk} (h : d'.block = d.block) :
    ∀ n cur, subtree d' n cur = subtree d n cur
  | 0, _ => rfl
  | n + 1, cur => by simp only [subtree, h, subtree_congr h n]

theorem freeList_frame {l : List Nat} :
    ∀ {d d' : Disk}, freeList d l = .ok d' → d'.block = d.block ∧ d'.dinode = d.dinode := by
  induction l with
  | nil => intro d d' h; cases h; exact ⟨rfl, rfl⟩
  | cons b l ih =>
    intro d d' h
    change (bfree d b >>= fun d => freeList d l) = _ at h
    unfold bfree at h
    split at h
    · exact ih (d := { d with bitmap := Function.update d.bitmap b false }) h
    · cases h

theorem freeList_singleton (d : Disk) (b : Nat) : freeList d [b] = bfree d b := by
  simp [freeList]

theorem subtrees_cons (d : Disk) (n : Nat) (w : Nat → Nat) (j : Nat) (l : List Nat) :
    subtrees d n w (j :: l) = (if w j ≠ 0 then subtree d n (w j) else []) ++ subtrees d n w l :=
  List.flatMap_cons _ _ _

theorem subtrees_congr {d d' : Disk} (h : d'.block = d.block) (n : Nat) (w : Nat → Nat)
    (l : List Nat) : subtrees d' n w l = subtrees d n w l := by
  simp only [subtrees, subtree_congr h]

/-- A loop over the present words of a block that frees the subtree of each is the run of
`bfree`s over those subtrees. -/
theorem foldlM_subtrees {d₀ : Disk} {n : Nat} {w : Nat → Nat}
    {F : Disk → Nat → Except Stop Disk}
    (hF : ∀ d c, d.block = d₀.block → F d c = freeList d (subtree d₀ n c)) :
    ∀ (l : List Nat) (d : Disk), d.block = d₀.block →
      l.foldlM (fun d j => if w j ≠ 0 then F d (w j) else pure d) d =
        freeList d (subtrees d₀ n w l)
  | [], _, _ => rfl
  | j :: l, d, hd => by
    rw [List.foldlM_cons, subtrees_cons, freeList_append]
    by_cases hw : w j ≠ 0
    · rw [if_pos hw, if_pos hw, hF d _ hd]
      rcases h : freeList d (subtree d₀ n (w j)) with e | d'
      · rfl
      · exact foldlM_subtrees hF l d' ((freeList_frame h).1.trans hd)
    · rw [if_neg hw, if_neg hw]
      exact foldlM_subtrees hF l d hd

/-- The subtrees under a block, then the block itself, are the subtree one level higher. -/
theorem freeList_subtree_succ {G : Disk → Block → Except Stop Disk} {n : Nat}
    (hG : ∀ d blk, G d blk = freeList d (subtrees d n blk.word (List.range NINDIRECT)))
    (d : Disk) (c : Nat) :
    (G d (d.block c) >>= fun d => bfree d c) = freeList d (subtree d (n + 1) c) := by
  rw [hG, subtree_succ, freeList_append]
  rcases h : freeList d (subtrees d n (d.block c).word (List.range NINDIRECT)) with e | d'
  · rfl
  · exact (freeList_singleton d' c).symm

theorem freeWords_eq (d : Disk) (blk : Block) :
    freeWords d blk = freeList d (subtrees d 0 blk.word (List.range NINDIRECT)) :=
  foldlM_subtrees (fun d c _ => by rw [subtree_zero, freeList_singleton]) _ d rfl

theorem freeWords2_eq (d : Disk) (blk : Block) :
    freeWords2 d blk = freeList d (subtrees d 1 blk.word (List.range NINDIRECT)) :=
  foldlM_subtrees (w := blk.word) (F := fun d c => freeWords d (d.block c) >>= fun d => bfree d c)
    (fun d' c hd => by beta_reduce; rw [freeList_subtree_succ freeWords_eq, subtree_congr hd]) _ d rfl

theorem freeWords3_eq (d : Disk) (blk : Block) :
    freeWords3 d blk = freeList d (subtrees d 2 blk.word (List.range NINDIRECT)) :=
  foldlM_subtrees (w := blk.word) (F := fun d c => freeWords2 d (d.block c) >>= fun d => bfree d c)
    (fun d' c hd => by beta_reduce; rw [freeList_subtree_succ freeWords2_eq, subtree_congr hd]) _ d rfl

/-! ## `itrunc` frees `treeBlocks` -/

theorem ok_bind {α β : Type} (x : α) (f : α → Except Stop β) : (Except.ok x >>= f) = f x := rfl

theorem error_bind {α β : Type} (e : Stop) (f : α → Except Stop β) :
    (Except.error e >>= f) = Except.error e := rfl

theorem bind_eq_ok {α β : Type} {x : Except Stop α} {f : α → Except Stop β} {b : β}
    (h : (x >>= f) = .ok b) : ∃ a, x = .ok a ∧ f a = .ok b := by
  cases x with
  | error e => cases h
  | ok a => exact ⟨a, rfl, h⟩

theorem bind_eq_error {α β : Type} {x : Except Stop α} {f : α → Except Stop β} {e : Stop}
    (h : (x >>= f) = .error e) : x = .error e ∨ ∃ a, x = .ok a ∧ f a = .error e := by
  cases x with
  | error e' => cases h; exact .inl rfl
  | ok a => exact .inr ⟨a, rfl, h⟩

theorem freeList_append_ok {d d₁ : Disk} {l₁ : List Nat} (h : freeList d l₁ = .ok d₁)
    (l₂ : List Nat) : freeList d (l₁ ++ l₂) = freeList d₁ l₂ := by
  rw [freeList_append, h, ok_bind]

theorem freeList_append_error {d : Disk} {l₁ : List Nat} {e : Stop}
    (h : freeList d l₁ = .error e) (l₂ : List Nat) : freeList d (l₁ ++ l₂) = .error e := by
  rw [freeList_append, h, error_bind]

theorem subtrees_zero (d d' : Disk) (w : Nat → Nat) (l : List Nat) :
    subtrees d 0 w l = subtrees d' 0 w l := by
  simp only [subtrees, subtree_zero]

theorem subtrees_congr_slots (d : Disk) (n : Nat) {w v : Nat → Nat} :
    ∀ {l : List Nat}, (∀ j ∈ l, w j = v j) → subtrees d n w l = subtrees d n v l
  | [], _ => rfl
  | j :: l, h => by
    rw [subtrees_cons, subtrees_cons, h j (List.mem_cons_self _ _),
      subtrees_congr_slots d n fun x hx => h x (List.mem_cons_of_mem _ hx)]

/-- The loop over a list of direct slots frees their blocks and clears them. -/
theorem directLoop_eq : ∀ (l : List Nat) (d : Disk) (a : Addrs), l.Nodup →
    l.foldlM (fun (s : Disk × Addrs) i =>
      if s.2 i ≠ 0 then do
        let d ← bfree s.1 (s.2 i)
        pure (d, Function.update s.2 i 0)
      else pure s) (d, a) =
      freeList d (subtrees d 0 a l) >>= fun d' => pure (d', fun x => if x ∈ l then 0 else a x)
  | [], d, a, _ => by simp [freeList_nil, subtrees]; rfl
  | i :: l, d, a, hn => by
    obtain ⟨hil, hl⟩ := List.nodup_cons.1 hn
    rw [List.foldlM_cons, subtrees_cons, freeList_append]
    by_cases ha : a i ≠ 0
    · simp only [if_pos ha, subtree_zero, freeList_singleton, bind_assoc, pure_bind]
      congr 1; funext d₁
      rw [directLoop_eq l d₁ _ hl, subtrees_zero d₁ d,
        subtrees_congr_slots d 0 fun j hj => Function.update_noteq (by rintro rfl; exact hil hj) _ _]
      congr 1; funext d'; congr 2; funext x
      by_cases hx : x = i
      · subst hx; simp [hil]
      · simp [hx, Function.update_noteq hx]
    · simp only [ne_eq, not_not] at ha
      simp only [ha, ne_eq, not_true_eq_false, if_false, pure_bind, List.nil_append,
        freeList_nil, ok_bind]
      rw [directLoop_eq l d a hl]
      congr 1; funext d'; congr 2; funext x
      by_cases hx : x = i
      · subst hx; simp [ha]
      · simp [hx]

theorem itruncDirect_eq (d : Disk) (a : Addrs) :
    itruncDirect d a = freeList d (subtrees d 0 a (List.range NDIRECT)) >>=
      fun d' => pure (d', fun x => if x < NDIRECT then 0 else a x) := by
  rw [itruncDirect, directLoop_eq _ d a (List.nodup_range _)]
  simp only [List.mem_range]

/-- One indirect root frees its tree, then clears the slot. -/
theorem itruncRoot_eq {G : Disk → Block → Except Stop Disk} {n : Nat}
    (hG : ∀ d blk, G d blk = freeList d (subtrees d n blk.word (List.range NINDIRECT)))
    (d : Disk) (a : Addrs) (r : Nat) :
    itruncRoot G d a r =
      freeList d (subtrees d (n + 1) a [r]) >>= fun d' => pure (d', Function.update a r 0) := by
  unfold itruncRoot
  by_cases ha : a r ≠ 0
  · rw [if_pos ha, ← bind_assoc, freeList_subtree_succ hG]
    simp [subtrees, ha]
  · simp only [ne_eq, not_not] at ha
    simp only [ha, ne_eq, not_true_eq_false, if_false, subtrees, List.flatMap_singleton,
      freeList_nil, ok_bind]
    rw [← ha, Function.update_eq_self]

/-- The slot-by-slot list is the order of the four parts of `itrunc`. -/
theorem treeBlocks_eq (d : Disk) (a : Addrs) :
    treeBlocks d a = subtrees d 0 a (List.range NDIRECT) ++ subtrees d 1 a [NDIRECT] ++
      subtrees d 2 a [NDIRECT + 1] ++ subtrees d 3 a [NDIRECT + 2] := by
  have hhead : (List.range NDIRECT).flatMap (fun r => if a r ≠ 0 then subtree d (depth r) (a r)
      else []) = subtrees d 0 a (List.range NDIRECT) :=
    List.flatMap_congr fun r hr => by
      rw [show depth r = 0 from if_pos (List.mem_range.1 hr)]
  simp only [treeBlocks, show NDIRECT + 3 = NDIRECT + 2 + 1 from rfl, List.range_succ,
    List.flatMap_append, List.flatMap_singleton, List.append_assoc, hhead]
  simp [subtrees, depth]

/-- `itrunc` frees `treeBlocks` in order and clears every slot. -/
theorem itruncBlocks_eq (d : Disk) (a : Addrs) :
    itruncBlocks d a = freeList d (treeBlocks d a) >>= fun d' => pure (d', clearAddrs a) := by
  unfold itruncBlocks
  rw [itruncDirect_eq]
  simp only [treeBlocks_eq, List.append_assoc]
  rcases e₁ : freeList d (subtrees d 0 a (List.range NDIRECT)) with err | d₁
  · rw [freeList_append_error e₁]; rfl
  have hb₁ := (freeList_frame e₁).1
  have hs : ∀ r, NDIRECT ≤ r → (if r < NDIRECT then 0 else a r) = a r := fun r hr => if_neg (by omega)
  rw [freeList_append_ok e₁, ok_bind, pure_bind]
  dsimp only
  rw [itruncRoot_eq freeWords_eq, subtrees_congr hb₁, subtrees_congr_slots (v := a) d 1 (by simp [hs])]
  rcases e₂ : freeList d₁ (subtrees d 1 a [NDIRECT]) with err | d₂
  · rw [freeList_append_error e₂]; rfl
  rw [freeList_append_ok e₂, ok_bind, pure_bind]
  dsimp only
  have hb₂ := (freeList_frame e₂).1.trans hb₁
  rw [itruncRoot_eq freeWords2_eq, subtrees_congr hb₂, subtrees_congr_slots (v := a) d 2 (by simp [hs])]
  rcases e₃ : freeList d₂ (subtrees d 2 a [NDIRECT + 1]) with err | d₃
  · rw [freeList_append_error e₃]; rfl
  rw [freeList_append_ok e₃, ok_bind, pure_bind]
  dsimp only
  have hb₃ := (freeList_frame e₃).1.trans hb₂
  rw [itruncRoot_eq freeWords3_eq, subtrees_congr hb₃, subtrees_congr_slots (v := a) d 3 (by simp [hs])]
  rcases e₄ : freeList d₃ (subtrees d 3 a [NDIRECT + 2]) with err | d₄
  · rfl
  rw [ok_bind, ok_bind]
  congr 2
  funext x
  simp only [clearAddrs, Function.update_apply]
  split_ifs <;> omega
/-! ## What `treeBlocks` holds -/

/-- A path of word indices that stays inside an indirect block. -/
def InBlock (p : List Nat) : Prop := ∀ j ∈ p, j < NINDIRECT

theorem walk_cons_of_ne {d : Disk} {cur : Nat} (hc : cur ≠ 0) (j : Nat) (p : List Nat) :
    d.walk cur (j :: p) = d.walk ((d.block cur).word j) p := by
  show d.walk (d.look cur j) p = _
  simp [Disk.look, hc]

theorem mem_subtrees {d : Disk} {n : Nat} {w : Nat → Nat} {l : List Nat} {x : Nat} :
    x ∈ subtrees d n w l ↔ ∃ j ∈ l, w j ≠ 0 ∧ x ∈ subtree d n (w j) := by
  simp only [subtrees, List.mem_flatMap]
  constructor
  · rintro ⟨j, hj, hx⟩
    split at hx
    · exact ⟨j, hj, ‹_›, hx⟩
    · simp at hx
  · rintro ⟨j, hj, hw, hx⟩
    exact ⟨j, hj, by rw [if_pos hw]; exact hx⟩

/-- The blocks of a tree of height `n` under a present block are the blocks its walks of length
at most `n` reach. -/
theorem mem_subtree {d : Disk} : ∀ {n cur x : Nat}, cur ≠ 0 →
    (x ∈ subtree d n cur ↔ ∃ p, p.length ≤ n ∧ InBlock p ∧ d.walk cur p = x ∧ x ≠ 0)
  | 0, cur, x, hc => by
    simp only [subtree_zero, List.mem_singleton]
    constructor
    · rintro rfl; exact ⟨[], le_refl _, by simp [InBlock], rfl, hc⟩
    · rintro ⟨p, hp, -, rfl, -⟩
      rw [List.length_eq_zero.1 (Nat.le_zero.1 hp)]; rfl
  | n + 1, cur, x, hc => by
    rw [subtree_succ, List.mem_append, List.mem_singleton, mem_subtrees]
    constructor
    · rintro (⟨j, hj, hw, hx⟩ | rfl)
      · obtain ⟨p, hp, hpj, hwp, hx0⟩ := (mem_subtree hw).1 hx
        refine ⟨j :: p, by simp; omega, ?_, by rw [walk_cons_of_ne hc]; exact hwp, hx0⟩
        intro k hk
        rcases List.mem_cons.1 hk with rfl | hk
        · exact List.mem_range.1 hj
        · exact hpj k hk
      · exact ⟨[], by simp, by simp [InBlock], rfl, hc⟩
    · rintro ⟨p, hp, hpj, hwp, hx0⟩
      cases p with
      | nil => exact .inr hwp.symm
      | cons j p =>
        rw [walk_cons_of_ne hc] at hwp
        have hj0 : (d.block cur).word j ≠ 0 := by
          intro e; rw [e, Disk.walk_zero] at hwp; exact hx0 hwp.symm
        refine .inl ⟨j, List.mem_range.2 (hpj j (List.mem_cons_self _ _)), hj0, ?_⟩
        exact (mem_subtree hj0).2 ⟨p, by simp at hp; omega,
          fun k hk => hpj k (List.mem_cons_of_mem _ hk), hwp, hx0⟩

/-- When the walks from `cur` of length at most `n` reach distinct blocks, the tree of height `n`
under `cur` lists each block once. -/
theorem subtree_nodup {d : Disk} : ∀ {n cur : Nat}, cur ≠ 0 →
    (∀ p p', p.length ≤ n → p'.length ≤ n → InBlock p → InBlock p' →
      d.walk cur p = d.walk cur p' → d.walk cur p ≠ 0 → p = p') → (subtree d n cur).Nodup
  | 0, cur, _, _ => by simp [subtree_zero]
  | n + 1, cur, hc, hinj => by
    -- a block below child `j` is reached by a walk through `j`
    have hchild : ∀ j x, j ∈ List.range NINDIRECT → (d.block cur).word j ≠ 0 →
        x ∈ subtree d n ((d.block cur).word j) →
        ∃ p, p.length ≤ n ∧ InBlock (j :: p) ∧ d.walk cur (j :: p) = x ∧ x ≠ 0 := by
      intro j x hj hw hx
      obtain ⟨p, hp, hpj, hwp, hx0⟩ := (mem_subtree hw).1 hx
      refine ⟨p, hp, fun k hk => ?_, by rw [walk_cons_of_ne hc]; exact hwp, hx0⟩
      rcases List.mem_cons.1 hk with rfl | hk
      · exact List.mem_range.1 hj
      · exact hpj k hk
    rw [subtree_succ, List.nodup_append]
    refine ⟨?_, List.nodup_singleton _, ?_⟩
    · rw [subtrees, List.nodup_flatMap]
      refine ⟨fun j hj => ?_, ?_⟩
      · split
        · rename_i hw
          refine subtree_nodup hw fun p p' hp hp' hpj hpj' e h0 => ?_
          have hj := List.mem_range.1 hj
          have := hinj (j :: p) (j :: p') (by simp; omega) (by simp; omega)
            (by intro k hk; rcases List.mem_cons.1 hk with rfl | hk; exact hj; exact hpj k hk)
            (by intro k hk; rcases List.mem_cons.1 hk with rfl | hk; exact hj; exact hpj' k hk)
            (by rw [walk_cons_of_ne hc, walk_cons_of_ne hc]; exact e)
            (by rw [walk_cons_of_ne hc]; exact h0)
          exact (List.cons.inj this).2
        · exact List.nodup_nil
      · refine List.Nodup.pairwise_of_forall_ne (List.nodup_range _) fun j hj j' hj' hne => ?_
        intro x hx hx'
        beta_reduce at hx hx'
        split at hx
        · split at hx'
          · obtain ⟨p, hp, hpj, hwp, hx0⟩ := hchild j x hj ‹_› hx
            obtain ⟨p', hp', hpj', hwp', -⟩ := hchild j' x hj' ‹_› hx'
            exact hne (List.cons.inj (hinj _ _ (by simp; omega) (by simp; omega) hpj hpj'
              (hwp.trans hwp'.symm) (hwp ▸ hx0))).1
          · simp at hx'
        · simp at hx
    · intro x hx hx'
      rw [List.mem_singleton] at hx'
      subst hx'
      obtain ⟨j, hj, hw, hxj⟩ := mem_subtrees.1 hx
      obtain ⟨p, hp, hpj, hwp, hx0⟩ := hchild j _ hj hw hxj
      have := hinj [] (j :: p) (by simp) (by simp; omega) (by simp [InBlock]) hpj hwp.symm hc
      cases this

/-- The blocks on `treeBlocks` are the blocks the nodes of the tree reach. -/
theorem mem_treeBlocks {d : Disk} {a : Addrs} {x : Nat} :
    x ∈ treeBlocks d a ↔ ∃ y, nodeAddr d a y = x ∧ x ≠ 0 := by
  simp only [treeBlocks, List.mem_flatMap, List.mem_range]
  constructor
  · rintro ⟨r, hr, hx⟩
    split at hx
    · rename_i hr0
      obtain ⟨p, hp, hpj, hw, hx0⟩ := (mem_subtree hr0).1 hx
      exact ⟨⟨r, p⟩, by rw [nodeAddr_of_ok (x := ⟨r, p⟩) ⟨hr, hp, hpj⟩]; exact hw, hx0⟩
    · simp at hx
  · rintro ⟨⟨r, p⟩, hy, hx0⟩
    by_cases hok : (⟨r, p⟩ : Node).ok
    · rw [nodeAddr_of_ok hok] at hy
      have hr0 : a r ≠ 0 := by intro e; rw [e, Disk.walk_zero] at hy; exact hx0 hy.symm
      exact ⟨r, hok.1, by rw [if_pos hr0]; exact (mem_subtree hr0).2 ⟨p, hok.2.1, hok.2.2, hy, hx0⟩⟩
    · rw [nodeAddr_of_not_ok hok] at hy; exact absurd hy.symm hx0

/-- When the nodes of a tree reach distinct blocks, `treeBlocks` lists each once. -/
theorem treeBlocks_nodup {d : Disk} {a : Addrs}
    (hinj : ∀ y y', nodeAddr d a y = nodeAddr d a y' → nodeAddr d a y ≠ 0 → y = y') :
    (treeBlocks d a).Nodup := by
  rw [treeBlocks, List.nodup_flatMap]
  refine ⟨fun r hr => ?_, List.Nodup.pairwise_of_forall_ne (List.nodup_range _)
    fun r hr r' hr' hne => ?_⟩
  · split
    · rename_i hr0
      refine subtree_nodup hr0 fun p p' hp hp' hpj hpj' e h0 => ?_
      have hok : (⟨r, p⟩ : Node).ok := ⟨List.mem_range.1 hr, hp, hpj⟩
      have hok' : (⟨r, p'⟩ : Node).ok := ⟨List.mem_range.1 hr, hp', hpj'⟩
      have := hinj ⟨r, p⟩ ⟨r, p'⟩ (by rw [nodeAddr_of_ok hok, nodeAddr_of_ok hok']; exact e)
        (by rw [nodeAddr_of_ok hok]; exact h0)
      exact (Node.mk.inj this).2
    · exact List.nodup_nil
  · intro x hx hx'
    beta_reduce at hx hx'
    split at hx
    · rename_i hr0
      split at hx'
      · rename_i hr0'
        obtain ⟨p, hp, hpj, hw, hx0⟩ := (mem_subtree hr0).1 hx
        obtain ⟨p', hp', hpj', hw', -⟩ := (mem_subtree hr0').1 hx'
        have hok : (⟨r, p⟩ : Node).ok := ⟨List.mem_range.1 hr, hp, hpj⟩
        have hok' : (⟨r', p'⟩ : Node).ok := ⟨List.mem_range.1 hr', hp', hpj'⟩
        exact hne (Node.mk.inj (hinj _ _
          (by rw [nodeAddr_of_ok hok, nodeAddr_of_ok hok']; exact hw.trans hw'.symm)
          (by rw [nodeAddr_of_ok hok, hw]; exact hx0))).1
      · simp at hx'
    · simp at hx

theorem nodeAddr_congr {d d' : Disk} (h : d'.block = d.block) (a : Addrs) (y : Node) :
    nodeAddr d' a y = nodeAddr d a y := by
  unfold nodeAddr Disk.walk Disk.look; rw [h]

theorem nodeAddr_clearAddrs (d : Disk) (a : Addrs) (y : Node) : nodeAddr d (clearAddrs a) y = 0 := by
  by_cases hy : y.ok
  · rw [nodeAddr_of_ok hy, show clearAddrs a y.root = 0 from if_pos hy.1, Disk.walk_zero]
  · exact nodeAddr_of_not_ok hy

/-! ## `itrunc` under the ownership invariant -/

section Trunc

variable {sb : Superblock} {d : Disk} {alloc : Nat → Prop} {A : Nat → Addrs} {i : Nat}

theorem Owned.mono (h : Owned sb d alloc A) {alloc' : Nat → Prop} (hs : ∀ k, alloc' k → alloc k) :
    Owned sb d alloc' A :=
  ⟨h.boot, fun k y hk => h.mark k y (hs k hk),
    fun k k' y y' hk hk' => h.inj k k' y y' (hs k hk) (hs k' hk')⟩

theorem Owned.treeBlocks_marked (h : Owned sb d alloc A) (hi : alloc i) :
    ∀ b ∈ treeBlocks d (A i), d.bitmap b = true := by
  intro b hb
  obtain ⟨y, rfl, h0⟩ := mem_treeBlocks.1 hb
  exact (h.mark i y hi h0).1

/-- Under the invariant `itrunc` frees every block of the tree once and never reaches the
`freeing free block` panic. -/
theorem Owned.itruncBlocks_ok (h : Owned sb d alloc A) (hi : alloc i) :
    itruncBlocks d (A i) = .ok (d.clear (treeBlocks d (A i)), clearAddrs (A i)) := by
  rw [itruncBlocks_eq, freeList_ok (treeBlocks_nodup fun y y' e h0 => (h.inj i i y y' hi hi h0 e).2)
    (h.treeBlocks_marked hi)]
  rfl

/-- After `itrunc` of inode `i` its tree is empty and the invariant holds. -/
theorem Owned.itrunc (h : Owned sb d alloc A) (hi : alloc i) :
    Owned sb (d.clear (treeBlocks d (A i))) alloc (Function.update A i (clearAddrs (A i))) := by
  have hA : ∀ k y, nodeAddr (d.clear (treeBlocks d (A i)))
      (Function.update A i (clearAddrs (A i)) k) y = if k = i then 0 else nodeAddr d (A k) y := by
    intro k y
    rw [nodeAddr_congr (Disk.clear_block _ _)]
    by_cases hki : k = i
    · subst hki; simp [nodeAddr_clearAddrs]
    · simp [hki, Function.update_noteq hki]
  have hout : ∀ k y, alloc k → k ≠ i → nodeAddr d (A k) y ≠ 0 →
      nodeAddr d (A k) y ∉ treeBlocks d (A i) := by
    intro k y hk hki h0 hmem
    obtain ⟨y', e, -⟩ := mem_treeBlocks.1 hmem
    exact hki (h.inj k i y y' hk hi h0 e.symm).1
  refine ⟨?_, fun k y hk hne => ?_, fun k k' y y' hk hk' hne e => ?_⟩
  · have : (0 : Nat) ∉ treeBlocks d (A i) := fun hm => by
      obtain ⟨_, _, h0⟩ := mem_treeBlocks.1 hm; exact h0 rfl
    simp [Disk.clear, this, h.boot]
  · by_cases hki : k = i
    · rw [hA k y, if_pos hki] at hne; exact absurd rfl hne
    rw [hA k y, if_neg hki] at hne ⊢
    simp only [Disk.clear, hout k y hk hki hne, if_false]
    exact h.mark k y hk hne
  · by_cases hki : k = i
    · rw [hA k y, if_pos hki] at hne; exact absurd rfl hne
    by_cases hki' : k' = i
    · rw [hA k y, hA k' y', if_pos hki', if_neg hki] at e
      rw [hA k y, if_neg hki] at hne
      exact absurd e hne
    rw [hA k y, hA k' y', if_neg hki, if_neg hki'] at e
    rw [hA k y, if_neg hki] at hne
    exact h.inj k k' y y' hk hk' hne e

end Trunc

end Xv6.Fs
