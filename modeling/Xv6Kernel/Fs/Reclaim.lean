import Xv6Kernel.Fs.Content

/-!
# Block maps, truncation and orphan reclaim

`bmap` and `itrunc` read the same tree. `bmap` reaches logical block `bn` through the root slot
of `bnode bn` (`bnode_root`: direct below `NDIRECT`, then the single-, double- and
triple-indirect trees of `NINDIRECT = BSIZE / 4 = 1024` entries a level), never panics below
`MAXFILE` (`bmap_ne_out_of_range`), and once it has returned a block keeps returning it while the
tree keeps its nodes, a block no other logical block of the inode reaches (`bmap_stable`).
`itrunc` frees the blocks of the nodes of the tree, each once, and clears every slot
(`bmap_itrunc_agree`).

`ireclaim` runs at mount over the dinodes `1 .. ninodes - 1`, and reclaims each orphan (allocated,
no link) through `iget` and `iput`. On a consistent image whose table holds no handle to an orphan
and has a free entry, each round does to the disk what `Disk.reclaim` says
(`Inv.ireclaimOne_reclaim`), so the whole loop reclaims every orphan and changes nothing else
(`ireclaim_reclaims`). The image must be consistent: two orphans that share a block make the
second round free a free block (`shared_orphans_panic`).
-/

namespace Xv6.Fs

/-! ## Where `bmap` places a logical block -/

/-- The root slot of `bnode bn`: the direct slot `bn`, then the single-, double- and
triple-indirect slots, each covering `NINDIRECT` times more blocks. -/
theorem bnode_root (bn : Nat) : (bnode bn).root =
    if bn < NDIRECT then bn else if bn < NDIRECT + NINDIRECT then NDIRECT
    else if bn < NDIRECT + NINDIRECT + NINDIRECT2 then NDIRECT + 1 else NDIRECT + 2 := by
  unfold bnode
  simp only [NDIRECT_eq, NINDIRECT_eq, NINDIRECT2_eq]
  split_ifs <;> first | rfl | omega

/-- Below `MAXFILE` `bmap` never reaches its `out of range` panic; every offset of `readi` and
`writei`, an `uint`, gives a logical block below `MAXFILE`. -/
theorem bmap_ne_out_of_range (sb : Superblock) (d : Disk) (a : Addrs) {off : Nat}
    (h : off < 2 ^ 32) : bmap sb d a (off / BSIZE) ≠ .error (.panic "bmap: out of range") := by
  rw [bmap_eq sb d a (by simp only [BSIZE_eq, MAXFILE_eq]; omega)]
  exact nofun

section Stable

variable {sb : Superblock} {d : Disk} {alloc : Nat → Prop} {A : Nat → Addrs} {i : Nat}

/-- Once `bmap` on inode `i` has returned a nonzero block for `bn`, every later state whose
trees keep the invariant and `i`'s nodes maps `bn` to the same block and changes nothing, and
`bmap` of any other logical block of `i` returns another block. -/
theorem bmap_stable (h : Owned sb d alloc A) (hi : alloc i) {bn : Nat} (hbn : bn < MAXFILE)
    {d₁ : Disk} {a₁ : Addrs} {addr : Nat} (hb : bmap sb d (A i) bn = .ok (d₁, a₁, addr))
    (h0 : addr ≠ 0) {alloc₂ : Nat → Prop} {d₂ : Disk} {A₂ : Nat → Addrs}
    (h₂ : Owned sb d₂ alloc₂ A₂) (hi₂ : alloc₂ i)
    (hkeep : ∀ y, nodeAddr d₁ a₁ y ≠ 0 → nodeAddr d₂ (A₂ i) y = nodeAddr d₁ a₁ y) :
    bmap sb d₂ (A₂ i) bn = .ok (d₂, A₂ i, addr) ∧
      ∀ bn' < MAXFILE, bn' ≠ bn → ∀ d₃ a₃ addr',
        bmap sb d₂ (A₂ i) bn' = .ok (d₃, a₃, addr') → addr' ≠ addr := by
  have haddr := (bmap_extends h hi hbn hb).2
  have hm : nodeAddr d₂ (A₂ i) (bnode bn) = addr := by
    rw [hkeep _ (haddr ▸ h0), ← haddr]
  refine ⟨by rw [bmap_of_mapped sb d₂ (A₂ i) hbn (hm ▸ h0), hm],
    fun bn' hbn' hne d₃ a₃ addr' hb' e => ?_⟩
  obtain ⟨hE, haddr'⟩ := bmap_extends h₂ hi₂ hbn' hb'
  -- the block of `bn` is kept by the later call, which returns the block of `bn'`
  have hk := hE.keep i (bnode bn) hi₂ (by rw [hm]; exact h0)
  rw [Function.update_same, hm] at hk
  have := hE.owned.inj i i (bnode bn) (bnode bn') hi₂ hi₂
    (by rw [Function.update_same, hk]; exact h0)
    (by rw [Function.update_same, hk, ← haddr', e])
  exact hne (bnode_inj hbn hbn' this.2).symm

end Stable

/-! ## `bmap` and `itrunc` agree -/

/-- Block map and truncation agree, for a locked entry `ip` of a state of the invariant: `bmap` of
every logical block below `MAXFILE` is the walk down `bnode bn`, its root slot chosen by the range
of `bn` and its indices injective in `bn`, and returns the block at that node of the tree it
leaves; it never panics on an offset of `readi` or `writei`; once it has returned a nonzero
block for `bn` it returns that block in every later state that keeps the tree's nodes, and no
other logical block is mapped to it; and `itrunc` succeeds, clears exactly the bits of the blocks
at the nodes of the tree, each listed once, and leaves size 0 and every slot 0. -/
theorem bmap_itrunc_agree {s : FS} {ip : Nat} (h : Inv s) (hk : s.locked ip) :
    (∀ bn, (bnode bn).root = if bn < NDIRECT then bn else if bn < NDIRECT + NINDIRECT then NDIRECT
      else if bn < NDIRECT + NINDIRECT + NINDIRECT2 then NDIRECT + 1 else NDIRECT + 2) ∧
    (∀ bn bn', bn < MAXFILE → bn' < MAXFILE → bnode bn = bnode bn' → bn = bn') ∧
    (∀ d bn, bn < MAXFILE →
      let r := bmapSlot s.sb d (s.itable ip).d.addrs (bnode bn).root
      let q := allocPath s.sb r.1 r.2.2 (bnode bn).path
      bmap s.sb d (s.itable ip).d.addrs bn = .ok (q.1, r.2.1, q.2)) ∧
    (∀ bn < MAXFILE, ∀ d₁ a₁ addr,
      bmap s.sb s.disk (s.itable ip).d.addrs bn = .ok (d₁, a₁, addr) →
        addr = nodeAddr d₁ a₁ (bnode bn)) ∧
    (∀ d off, off < 2 ^ 32 →
      bmap s.sb d (s.itable ip).d.addrs (off / BSIZE) ≠ .error (.panic "bmap: out of range")) ∧
    (∀ bn < MAXFILE, ∀ d₁ a₁ addr,
      bmap s.sb s.disk (s.itable ip).d.addrs bn = .ok (d₁, a₁, addr) → addr ≠ 0 →
      ∀ (alloc₂ : Nat → Prop) d₂ A₂, Owned s.sb d₂ alloc₂ A₂ → alloc₂ (s.itable ip).inum →
        (∀ y, nodeAddr d₁ a₁ y ≠ 0 → nodeAddr d₂ (A₂ (s.itable ip).inum) y = nodeAddr d₁ a₁ y) →
        bmap s.sb d₂ (A₂ (s.itable ip).inum) bn = .ok (d₂, A₂ (s.itable ip).inum, addr) ∧
          ∀ bn' < MAXFILE, bn' ≠ bn → ∀ d₃ a₃ addr',
            bmap s.sb d₂ (A₂ (s.itable ip).inum) bn' = .ok (d₃, a₃, addr') → addr' ≠ addr) ∧
    ∃ s', itrunc s ip = .ok s' ∧ (s'.itable ip).d.size = 0 ∧
      (∀ r < NDIRECT + 3, (s'.itable ip).d.addrs r = 0) ∧
      (∀ b, s'.disk.bitmap b =
        if b ∈ treeBlocks s.disk (s.itable ip).d.addrs then false else s.disk.bitmap b) ∧
      (treeBlocks s.disk (s.itable ip).d.addrs).Nodup ∧
      ∀ b, b ∈ treeBlocks s.disk (s.itable ip).d.addrs ↔
        ∃ y, nodeAddr s.disk (s.itable ip).d.addrs y = b ∧ b ≠ 0 := by
  obtain ⟨ha, hal⟩ := h.coh ip hk
  have hA : s.disk.addrs (s.itable ip).inum = (s.itable ip).d.addrs := ha.addrs.symm
  refine ⟨bnode_root, fun _ _ => bnode_inj, fun d _ => bmap_eq s.sb d _,
    fun bn hbn d₁ a₁ addr hb => ?_, fun d _ => bmap_ne_out_of_range s.sb d _,
    fun bn hbn d₁ a₁ addr hb h0 alloc₂ d₂ A₂ h₂ hi₂ hkeep => ?_, _, h.itrunc_eq hk, ?_⟩
  · rw [← hA] at hb
    exact (bmap_extends h.owned hal hbn hb).2
  · rw [← hA] at hb
    exact bmap_stable h.owned hal hbn hb h0 h₂ hi₂ hkeep
  · refine ⟨by simp, fun r hr => by simp only [iupdate_itable, FS.modify_self]; exact if_pos hr,
      fun b => rfl, treeBlocks_nodup fun y y' e h0 => ?_, fun _ => mem_treeBlocks⟩
    rw [← hA] at e h0
    exact (h.owned.inj _ _ y y' hal hal h0 e).2

/-- The empty file of `blankFile`, locked in entry 0. -/
theorem bmap_itrunc_agree_blankFile :
    Inv blankFile ∧ blankFile.locked 0 ∧
    ((∀ bn, (bnode bn).root = if bn < NDIRECT then bn else if bn < NDIRECT + NINDIRECT then NDIRECT
      else if bn < NDIRECT + NINDIRECT + NINDIRECT2 then NDIRECT + 1 else NDIRECT + 2) ∧
    (∀ bn bn', bn < MAXFILE → bn' < MAXFILE → bnode bn = bnode bn' → bn = bn') ∧
    (∀ d bn, bn < MAXFILE →
      let r := bmapSlot blankFile.sb d (blankFile.itable 0).d.addrs (bnode bn).root
      let q := allocPath blankFile.sb r.1 r.2.2 (bnode bn).path
      bmap blankFile.sb d (blankFile.itable 0).d.addrs bn = .ok (q.1, r.2.1, q.2)) ∧
    (∀ bn < MAXFILE, ∀ d₁ a₁ addr,
      bmap blankFile.sb blankFile.disk (blankFile.itable 0).d.addrs bn = .ok (d₁, a₁, addr) →
        addr = nodeAddr d₁ a₁ (bnode bn)) ∧
    (∀ d off, off < 2 ^ 32 → bmap blankFile.sb d (blankFile.itable 0).d.addrs (off / BSIZE) ≠
      .error (.panic "bmap: out of range")) ∧
    (∀ bn < MAXFILE, ∀ d₁ a₁ addr,
      bmap blankFile.sb blankFile.disk (blankFile.itable 0).d.addrs bn = .ok (d₁, a₁, addr) →
      addr ≠ 0 → ∀ (alloc₂ : Nat → Prop) d₂ A₂, Owned blankFile.sb d₂ alloc₂ A₂ →
        alloc₂ (blankFile.itable 0).inum →
        (∀ y, nodeAddr d₁ a₁ y ≠ 0 → nodeAddr d₂ (A₂ (blankFile.itable 0).inum) y = nodeAddr d₁ a₁ y) →
        bmap blankFile.sb d₂ (A₂ (blankFile.itable 0).inum) bn =
            .ok (d₂, A₂ (blankFile.itable 0).inum, addr) ∧
          ∀ bn' < MAXFILE, bn' ≠ bn → ∀ d₃ a₃ addr',
            bmap blankFile.sb d₂ (A₂ (blankFile.itable 0).inum) bn' = .ok (d₃, a₃, addr') →
              addr' ≠ addr) ∧
    ∃ s', itrunc blankFile 0 = .ok s' ∧ (s'.itable 0).d.size = 0 ∧
      (∀ r < NDIRECT + 3, (s'.itable 0).d.addrs r = 0) ∧
      (∀ b, s'.disk.bitmap b = if b ∈ treeBlocks blankFile.disk (blankFile.itable 0).d.addrs then
        false else blankFile.disk.bitmap b) ∧
      (treeBlocks blankFile.disk (blankFile.itable 0).d.addrs).Nodup ∧
      ∀ b, b ∈ treeBlocks blankFile.disk (blankFile.itable 0).d.addrs ↔
        ∃ y, nodeAddr blankFile.disk (blankFile.itable 0).d.addrs y = b ∧ b ≠ 0) :=
  ⟨blankFile_reachable.inv, ⟨⟨by decide, by decide⟩, by decide⟩,
    bmap_itrunc_agree blankFile_reachable.inv ⟨⟨by decide, by decide⟩, by decide⟩⟩

/-- `10 + 256` lies in the single-indirect tree: an indirect block holds `BSIZE / 4 = 1024`
entries, so the double-indirect tree starts at `10 + 1024`. On an empty inode of the blank image
`bmap` of block `10 + 256` fills slot `NDIRECT` and leaves slot `NDIRECT + 1` empty. -/
theorem bnode_single_past_256 : NINDIRECT = 1024 ∧ (bnode (10 + 256)).root = NDIRECT ∧
    (bnode (10 + 1024)).root = NDIRECT + 1 ∧
    ∃ d a addr, bmap blank.sb blank.disk (fun _ => 0) (10 + 256) = .ok (d, a, addr) ∧
      a NDIRECT ≠ 0 ∧ a (NDIRECT + 1) = 0 :=
  ⟨rfl, by decide, by decide, _, _, _, rfl, by decide, rfl⟩

/-! ## Orphan reclaim -/

/-- An orphan: an allocated dinode without links. -/
def Disk.orphan (d : Disk) (i : Nat) : Prop := (d.dinode i).type ≠ .free ∧ (d.dinode i).nlink = 0

instance (d : Disk) (i : Nat) : Decidable (d.orphan i) := inferInstanceAs (Decidable (_ ∧ _))

/-- The dinode `iput` leaves of an orphan: slots cleared, size 0, type 0. -/
def DInode.reclaimed (x : DInode) : DInode :=
  { x with addrs := clearAddrs x.addrs, size := 0, type := .free }

/-- What the round of `ireclaim` for `inum` does to the disk: an orphan's tree is freed and its
dinode reclaimed; anything else is left alone. -/
def Disk.reclaim (d : Disk) (inum : Nat) : Disk :=
  if d.orphan inum then
    (d.clear (treeBlocks d (d.dinode inum).addrs)).setDinode inum (d.dinode inum).reclaimed
  else d

@[simp] theorem Disk.setDinode_setDinode (d : Disk) (i : Nat) (x y : DInode) :
    (d.setDinode i x).setDinode i y = d.setDinode i y := by
  simp only [Disk.setDinode, Function.update_idem]

theorem treeBlocks_congr {d d' : Disk} (h : d'.block = d.block) (a : Addrs) :
    treeBlocks d' a = treeBlocks d a := by
  simp only [treeBlocks, subtree_congr h]

@[simp] theorem Disk.reclaim_block (d : Disk) (inum : Nat) : (d.reclaim inum).block = d.block := by
  unfold Disk.reclaim; split_ifs <;> rfl

theorem Disk.reclaim_dinode (d : Disk) (inum j : Nat) :
    (d.reclaim inum).dinode j = if j = inum ∧ d.orphan inum then (d.dinode j).reclaimed
      else d.dinode j := by
  unfold Disk.reclaim
  by_cases ho : d.orphan inum
  · by_cases hj : j = inum
    · subst hj; simp [ho]
    · simp [ho, hj, Function.update_noteq hj]
  · simp [ho]

theorem Disk.reclaim_bitmap (d : Disk) (inum b : Nat) :
    (d.reclaim inum).bitmap b = if d.orphan inum ∧ b ∈ treeBlocks d (d.dinode inum).addrs then false
      else d.bitmap b := by
  unfold Disk.reclaim
  by_cases ho : d.orphan inum <;> simp [ho, Disk.clear]

/-- The rounds of `ireclaim` over distinct inode numbers `l`: the dinodes of the orphans among
them reclaimed, the bits of their trees cleared, and nothing else changed. -/
theorem foldl_reclaim : ∀ (l : List Nat) (d : Disk), l.Nodup →
    (l.foldl Disk.reclaim d).block = d.block ∧
    (∀ j, (l.foldl Disk.reclaim d).dinode j =
      if j ∈ l ∧ d.orphan j then (d.dinode j).reclaimed else d.dinode j) ∧
    ∀ b, (l.foldl Disk.reclaim d).bitmap b =
      if ∃ j ∈ l, d.orphan j ∧ b ∈ treeBlocks d (d.dinode j).addrs then false else d.bitmap b
  | [], d, _ => ⟨rfl, fun j => by simp, fun b => by simp⟩
  | i :: l, d, hn => by
    obtain ⟨hi, hn⟩ := List.nodup_cons.1 hn
    obtain ⟨hblk, hdin, hbit⟩ := foldl_reclaim l (d.reclaim i) hn
    -- a later round reads the dinode and the tree of its own inode as they were
    have same : ∀ j ∈ l, (d.reclaim i).dinode j = d.dinode j := fun j hj => by
      rw [Disk.reclaim_dinode, if_neg (by rintro ⟨rfl, -⟩; exact hi hj)]
    have orph : ∀ j ∈ l, (d.reclaim i).orphan j ↔ d.orphan j := fun j hj => by
      simp only [Disk.orphan, same j hj]
    have tree : ∀ j ∈ l, treeBlocks (d.reclaim i) ((d.reclaim i).dinode j).addrs =
        treeBlocks d (d.dinode j).addrs := fun j hj => by
      rw [same j hj, treeBlocks_congr (Disk.reclaim_block d i)]
    simp only [List.foldl_cons]
    refine ⟨hblk.trans (Disk.reclaim_block d i), fun j => ?_, fun b => ?_⟩
    · rw [hdin j, Disk.reclaim_dinode]
      by_cases hj : j ∈ l
      · have hji : j ≠ i := fun e => hi (e ▸ hj)
        simp [hj, hji, orph j hj, same j hj]
      · by_cases hji : j = i
        · subst hji; simp [hj]
        · simp [hj, hji]
    · rw [hbit b, Disk.reclaim_bitmap]
      by_cases hl : ∃ j ∈ l, (d.reclaim i).orphan j ∧
          b ∈ treeBlocks (d.reclaim i) ((d.reclaim i).dinode j).addrs
      · obtain ⟨j, hj, ho, hb⟩ := hl
        rw [if_pos ⟨j, hj, ho, hb⟩,
          if_pos ⟨j, List.mem_cons_of_mem _ hj, (orph j hj).1 ho, tree j hj ▸ hb⟩]
      · rw [if_neg hl]
        have hl' : ¬ ∃ j ∈ l, d.orphan j ∧ b ∈ treeBlocks d (d.dinode j).addrs :=
          fun ⟨j, hj, ho, hb⟩ => hl ⟨j, hj, (orph j hj).2 ho, (tree j hj).symm ▸ hb⟩
        by_cases hb : d.orphan i ∧ b ∈ treeBlocks d (d.dinode i).addrs
        · rw [if_pos hb, if_pos ⟨i, List.mem_cons_self _ _, hb⟩]
        · rw [if_neg hb, if_neg]
          rintro ⟨j, hj, hjb⟩
          rcases List.mem_cons.1 hj with rfl | hj
          · exact hb hjb
          · exact hl' ⟨j, hj, hjb⟩

section Round

variable {s : FS}

/-- `iput` of the last reference to a locked entry without links frees the inode: the bits of
its tree cleared, its dinode reclaimed, its entry's reference dropped. -/
theorem Inv.iput_free {ip : Nat} (h : Inv s) (hk : s.locked ip)
    (hc : (s.itable ip).ref = 1 ∧ (s.itable ip).d.nlink = 0) :
    ∃ s', iput s ip = .ok s' ∧ Inv s' ∧ s'.sb = s.sb ∧ s'.NINODE = s.NINODE ∧
      s'.disk = (s.disk.clear (treeBlocks s.disk (s.itable ip).d.addrs)).setDinode
        (s.itable ip).inum (s.itable ip).d.reclaimed ∧
      ∀ j, (s'.itable j).inum = (s.itable j).inum ∧
        (s'.itable j).ref = if j = ip then 0 else (s.itable j).ref := by
  obtain ⟨s', e, hI, hN⟩ := h.iput_ok hk.1
  refine ⟨s', e, hI, ?_⟩
  unfold iput at e
  rw [if_pos ⟨hc.1, hk.2, hc.2⟩, h.itrunc_eq hk] at e
  cases e
  refine ⟨by simp, hN, by simp; rfl, fun j => ?_⟩
  by_cases hj : j = ip
  · subst hj; simp [hc.1]
  · simp [FS.modify_of_ne _ _ hj, hj]

/-- The table at mount as `ireclaim` needs it: no entry with a reference holds an orphan, and
some entry is free. -/
def FS.Quiet (s : FS) : Prop :=
  (∀ k, 0 < (s.itable k).ref → ¬ s.disk.orphan (s.itable k).inum) ∧
    ∃ k < s.NINODE, (s.itable k).ref = 0

/-- One round of `ireclaim`: an orphan is taken into a free entry, loaded, and put, which frees
it; the round does to the disk what `Disk.reclaim` says, and the table is quiet again. -/
theorem Inv.ireclaimOne_reclaim (h : Inv s) (hq : s.Quiet) (inum : Nat) :
    ∃ s', ireclaimOne s inum = .ok s' ∧ Inv s' ∧ s'.Quiet ∧ s'.sb = s.sb ∧
      s'.disk = s.disk.reclaim inum := by
  by_cases ho : s.disk.orphan inum
  swap
  · exact ⟨s, by unfold ireclaimOne; exact if_neg ho, h, hq, rfl,
      by unfold Disk.reclaim; exact (if_neg ho).symm⟩
  obtain ⟨hheld, k₀, hk₀, hr₀⟩ := hq
  -- `iget` finds no entry of `inum` and takes the first free one
  obtain ⟨k, hk⟩ : ∃ k, (List.range s.NINODE).find? (fun k => (s.itable k).ref = 0) = some k :=
    Option.isSome_iff_exists.1 (List.find?_isSome.2 ⟨k₀, List.mem_range.2 hk₀, by simpa using hr₀⟩)
  have h1 : (List.range s.NINODE).find? (fun k => 0 < (s.itable k).ref ∧ (s.itable k).inum = inum)
      = none := List.find?_eq_none.2 fun j _ => by
    simp only [decide_eq_true_eq, not_and]
    exact fun hr e => hheld j hr (e ▸ ho)
  have hg : iget s inum = .ok (s.modify k fun e => { e with inum, ref := 1, valid := false }, k) := by
    unfold iget; rw [h1, hk]
  obtain ⟨h₁, hk₁, -, -⟩ := h.of_iget hg
  set s₁ := s.modify k fun e => { e with inum, ref := 1, valid := false }
  -- `ilock` loads the orphan's dinode
  have hl : ilock s₁ k =
      .ok (s₁.modify k fun e => { e with d := s₁.disk.dinode e.inum, valid := true }) := by
    unfold ilock
    simp [s₁, ho.1]
  obtain ⟨h₂, hk₂, href₂, -⟩ := h₁.of_ilock hk₁ hl
  set s₂ := s₁.modify k fun e => { e with d := s₁.disk.dinode e.inum, valid := true }
  have hinum : ∀ j, (s₂.itable j).inum = if j = k then inum else (s.itable j).inum := fun j => by
    by_cases hj : j = k
    · subst hj; simp [s₂, s₁]
    · simp [s₂, s₁, FS.modify_of_ne _ _ hj, hj]
  have hd : (s₂.itable k).d = s.disk.dinode inum := by simp [s₂, s₁]
  obtain ⟨s₃, e₃, h₃, hsb₃, hN₃, hd₃, ht₃⟩ :=
    h₂.iput_free hk₂ ⟨by simp [s₂, s₁], by rw [hd]; exact ho.2⟩
  have hdisk : s₃.disk = s.disk.reclaim inum := by
    rw [hd₃, hd, hinum, if_pos rfl]
    unfold Disk.reclaim
    rw [if_pos ho]
    rfl
  refine ⟨s₃, ?_, h₃, ⟨fun j hj => ?_, k, ?_, ?_⟩, hsb₃, hdisk⟩
  · unfold ireclaimOne
    rw [if_pos (show (s.disk.dinode inum).type ≠ .free ∧ _ from ho), hg, ok_bind]
    dsimp only
    rw [hl, ok_bind, iunlock_eq hk₂.1, ok_bind, e₃]
  · -- an entry with a reference is not `k`, and holds the inode it held
    have hjk : j ≠ k := by rintro rfl; simp [ht₃] at hj
    have hr : 0 < (s.itable j).ref := by
      rw [(ht₃ j).2, if_neg hjk, href₂, FS.modify_of_ne _ _ hjk] at hj; exact hj
    rw [(ht₃ j).1, hinum, if_neg hjk, hdisk]
    have hne : (s.itable j).inum ≠ inum := fun e => hheld j hr (e ▸ ho)
    simpa [Disk.orphan, Disk.reclaim_dinode, hne] using hheld j hr
  · rw [hN₃]; exact hk₁.1
  · rw [(ht₃ k).2, if_pos rfl]

end Round

/-- The rounds of `ireclaim` over a list of inode numbers, from a quiet table of the invariant:
each succeeds, and together they do to the disk what the rounds of `Disk.reclaim` do. -/
theorem Inv.ireclaim_loop : ∀ (l : List Nat) {s : FS}, Inv s → s.Quiet →
    ∃ s', l.foldlM ireclaimOne s = .ok s' ∧ s'.sb = s.sb ∧ s'.disk = l.foldl Disk.reclaim s.disk
  | [], s, _, _ => ⟨s, rfl, rfl, rfl⟩
  | inum :: l, _, h, hq => by
    obtain ⟨s₁, e₁, h₁, hq₁, hsb₁, hd₁⟩ := h.ireclaimOne_reclaim hq inum
    obtain ⟨s', e', hsb', hd'⟩ := Inv.ireclaim_loop l h₁ hq₁
    exact ⟨s', by rw [List.foldlM_cons, e₁, ok_bind, e'], hsb'.trans hsb₁, by rw [hd', hd₁]; rfl⟩

/-- Orphan reclaim: on a consistent image (the invariant) whose table holds no reference to an
orphan and has a free entry, `ireclaim` succeeds; afterwards no dinode `1 .. ninodes - 1` is an
orphan, each orphan's dinode is reclaimed (type 0, size 0, slots cleared), the bits of the blocks
of the orphans' trees are cleared, and no other bit and no other dinode has changed. -/
theorem ireclaim_reclaims {s : FS} (h : Inv s) (hq : s.Quiet) :
    ∃ s', ireclaim s = .ok s' ∧
      (∀ inum, 1 ≤ inum → inum < s.sb.ninodes → ¬ s'.disk.orphan inum) ∧
      (∀ inum, 1 ≤ inum → inum < s.sb.ninodes → s.disk.orphan inum →
        s'.disk.dinode inum = (s.disk.dinode inum).reclaimed) ∧
      (∀ b, s'.disk.bitmap b =
        if ∃ inum < s.sb.ninodes, 1 ≤ inum ∧ s.disk.orphan inum ∧
            b ∈ treeBlocks s.disk (s.disk.dinode inum).addrs then false
        else s.disk.bitmap b) ∧
      ∀ inum, ¬ (1 ≤ inum ∧ inum < s.sb.ninodes ∧ s.disk.orphan inum) →
        s'.disk.dinode inum = s.disk.dinode inum := by
  obtain ⟨s', e, -, hd⟩ := Inv.ireclaim_loop (List.range' 1 (s.sb.ninodes - 1)) h hq
  obtain ⟨-, hdin, hbit⟩ := foldl_reclaim _ s.disk (List.nodup_range' 1 _)
  have hmem : ∀ inum, inum ∈ List.range' 1 (s.sb.ninodes - 1) ↔ 1 ≤ inum ∧ inum < s.sb.ninodes :=
    fun inum => by rw [List.mem_range'_1]; omega
  have hfree : ∀ inum, 1 ≤ inum → inum < s.sb.ninodes → s.disk.orphan inum →
      s'.disk.dinode inum = (s.disk.dinode inum).reclaimed := fun inum h1 h2 ho => by
    rw [hd, hdin, if_pos ⟨(hmem inum).2 ⟨h1, h2⟩, ho⟩]
  refine ⟨s', e, fun inum h1 h2 ho => ?_, hfree, fun b => ?_, fun inum hn => ?_⟩
  · by_cases ho₀ : s.disk.orphan inum
    · rw [Disk.orphan, hfree inum h1 h2 ho₀] at ho
      exact ho.1 rfl
    · rw [Disk.orphan, hd, hdin, if_neg fun h => ho₀ h.2] at ho
      exact ho₀ ho
  · rw [hd, hbit]
    exact if_congr (exists_congr fun j => by rw [hmem]; tauto) rfl rfl
  · rw [hd, hdin, if_neg fun h => hn ⟨((hmem inum).1 h.1).1, ((hmem inum).1 h.1).2, h.2⟩]

/-- The image a crash leaves for the next mount: the disk of `s` and an empty inode table. -/
def FS.atMount (s : FS) : FS := { s with itable := fun _ => ⟨0, 0, false, DInode.fresh .free⟩ }

theorem Inv.atMount {s : FS} (h : Inv s) : Inv s.atMount :=
  ⟨h.owned, h.holes, fun _ _ hk => by simp [FS.held, FS.atMount] at hk,
    fun _ hk => by simp [FS.locked, FS.held, FS.atMount] at hk, h.small⟩

theorem FS.atMount_quiet {s : FS} (h : 0 < s.NINODE) : s.atMount.Quiet :=
  ⟨fun _ hk => by simp [FS.atMount] at hk, 0, h, rfl⟩

/-- `blankWritten` after a crash: inode 1, a file with one data block and no link, is an
orphan, and `ireclaim` reclaims it. -/
theorem ireclaim_reclaims_blankWritten :
    Inv blankWritten.atMount ∧ blankWritten.atMount.Quiet ∧
    ∃ s', ireclaim blankWritten.atMount = .ok s' ∧
      (∀ inum, 1 ≤ inum → inum < blankWritten.atMount.sb.ninodes → ¬ s'.disk.orphan inum) ∧
      (∀ inum, 1 ≤ inum → inum < blankWritten.atMount.sb.ninodes →
        blankWritten.atMount.disk.orphan inum →
        s'.disk.dinode inum = (blankWritten.atMount.disk.dinode inum).reclaimed) ∧
      (∀ b, s'.disk.bitmap b =
        if ∃ inum < blankWritten.atMount.sb.ninodes, 1 ≤ inum ∧
            blankWritten.atMount.disk.orphan inum ∧
            b ∈ treeBlocks blankWritten.atMount.disk (blankWritten.atMount.disk.dinode inum).addrs
          then false
        else blankWritten.atMount.disk.bitmap b) ∧
      ∀ inum, ¬ (1 ≤ inum ∧ inum < blankWritten.atMount.sb.ninodes ∧
          blankWritten.atMount.disk.orphan inum) →
        s'.disk.dinode inum = blankWritten.atMount.disk.dinode inum :=
  ⟨blankWritten_reachable.inv.atMount, FS.atMount_quiet (by decide),
    ireclaim_reclaims blankWritten_reachable.inv.atMount (FS.atMount_quiet (by decide))⟩

example : blankWritten.atMount.disk.orphan 1 := by decide

/-- An image whose orphans 1 and 2 share block 5, with an empty table. -/
def sharedOrphans : FS where
  sb := ⟨8, 3, by decide⟩
  disk := ⟨fun b => decide (b = 0 ∨ b = 5), fun _ => Block.zero, fun i =>
    if i = 1 ∨ i = 2 then { DInode.fresh .file with addrs := fun r => if r = 0 then 5 else 0 }
    else DInode.fresh .free⟩
  itable := fun _ => ⟨0, 0, false, DInode.fresh .free⟩
  NINODE := 4
  atimeClock := 0
  mtimeClock := 0
  MAXPATH := 128
  NDEV := 10

/-- On an image that is not consistent `ireclaim` panics: orphan 1's round frees block 5, and
orphan 2's round frees it again. -/
theorem shared_orphans_panic :
    sharedOrphans.disk.orphan 1 ∧ sharedOrphans.disk.orphan 2 ∧ sharedOrphans.Quiet ∧
      ireclaim sharedOrphans = .error (.panic "freeing free block") :=
  ⟨by decide, by decide, FS.atMount_quiet (s := sharedOrphans) (by decide), rfl⟩

end Xv6.Fs
