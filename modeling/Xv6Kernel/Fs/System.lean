import Xv6Kernel.Fs.Itable

/-!
# The inode layer as a state machine

The operations of the inode layer that allocate and free blocks (`ialloc`, `iget`, `idup`,
`ilock`, `iunlock`, `readi`, `writei`, `itrunc`, a change of `nlink` written back by `iupdate`,
`iput` and `ireclaim`) as steps on the file-system state, each under the precondition its caller
keeps: an operation on an entry needs a reference to it, and one on its content needs its lock.

`Inv` is the invariant of every reachable state: the block trees of the allocated dinodes are
owned (`Owned`), have no holes below their sizes, at most one held entry holds each inode, and a
locked entry agrees with its allocated dinode. Each operation keeps it (`Inv.step`), so every
reachable state has it (`Reachable.inv`).
-/

namespace Xv6.Fs

/-! ## Views of the state -/

/-- The dinodes with a type. -/
def Disk.alloc (d : Disk) (i : Nat) : Prop := (d.dinode i).type ≠ .free

/-- The addresses of every dinode. -/
def Disk.addrs (d : Disk) (i : Nat) : Addrs := (d.dinode i).addrs

/-- Every byte below the size of `x` is mapped. -/
def NoHoles (d : Disk) (x : DInode) : Prop := ∀ o < x.size, nodeAddr d x.addrs (bnode (o / BSIZE)) ≠ 0

/-- The copy `x` of dinode `y` agrees with it up to the access time, which `readi` sets in memory
only. -/
def DInode.agrees (x y : DInode) : Prop := { x with atime := 0 } = { y with atime := 0 }

/-- An entry someone holds a reference to. -/
def FS.held (s : FS) (ip : Nat) : Prop := ip < s.NINODE ∧ 0 < (s.itable ip).ref

/-- An entry whose lock the caller holds: held, and loaded by `ilock`. -/
def FS.locked (s : FS) (ip : Nat) : Prop := s.held ip ∧ (s.itable ip).valid = true

theorem DInode.agrees.refl (x : DInode) : x.agrees x := rfl

section Agrees

variable {x y : DInode} (h : x.agrees y)
include h

private theorem DInode.agrees.eq : ({ x with atime := 0 } : DInode) = { y with atime := 0 } := h

theorem DInode.agrees.type : x.type = y.type := by
  have e := congrArg DInode.type h.eq; exact e
theorem DInode.agrees.nlink : x.nlink = y.nlink := by
  have e := congrArg DInode.nlink h.eq; exact e
theorem DInode.agrees.size : x.size = y.size := by
  have e := congrArg DInode.size h.eq; exact e
theorem DInode.agrees.addrs : x.addrs = y.addrs := by
  have e := congrArg DInode.addrs h.eq; exact e

end Agrees

@[simp] theorem DInode.agrees_atime (x y : DInode) (t : Nat) :
    ({ x with atime := t } : DInode).agrees y ↔ x.agrees y := Iff.rfl

/-! ## Ownership under dinode updates -/

section Restrict

variable {sb : Superblock} {d d' : Disk} {alloc alloc' : Nat → Prop} {A A' : Nat → Addrs}

/-- Ownership holds of any inodes that are owned inodes with their trees, or have empty trees. -/
theorem Owned.restrict (h : Owned sb d alloc A)
    (hs : ∀ j, alloc' j → (alloc j ∧ A' j = A j) ∨ ∀ y, nodeAddr d (A' j) y = 0) :
    Owned sb d alloc' A' := by
  refine ⟨h.boot, fun k y hk hne => ?_, fun k k' y y' hk hk' hne e => ?_⟩
  · rcases hs k hk with ⟨hk, hA⟩ | hz
    · rw [hA] at hne ⊢; exact h.mark k y hk hne
    · exact absurd (hz y) hne
  · rcases hs k hk with ⟨hk, hA⟩ | hz
    · rcases hs k' hk' with ⟨hk', hA'⟩ | hz'
      · rw [hA, hA'] at e; rw [hA] at hne
        exact h.inj k k' y y' hk hk' hne e
      · exact absurd (e.trans (hz' y')) hne
    · exact absurd (hz y) hne

theorem Owned.congr_disk (h : Owned sb d alloc A) (hb : d'.bitmap = d.bitmap)
    (hk : d'.block = d.block) : Owned sb d' alloc A := by
  have e := nodeAddr_congr hk
  refine ⟨hb ▸ h.boot, fun k y hk' hne => ?_, fun k k' y y' hk' hk'' hne eq => ?_⟩
  · rw [e] at hne ⊢; rw [hb]; exact h.mark k y hk' hne
  · rw [e, e] at eq; rw [e] at hne; exact h.inj k k' y y' hk' hk'' hne eq

end Restrict

theorem nodeAddr_zero_addrs (d : Disk) (y : Node) : nodeAddr d (fun _ => 0) y = 0 := by
  unfold nodeAddr; split_ifs <;> simp

/-! ## The invariant -/

/-- The invariant of the inode layer. -/
structure Inv (s : FS) : Prop where
  owned : Owned s.sb s.disk s.disk.alloc s.disk.addrs
  holes : ∀ i, s.disk.alloc i → NoHoles s.disk (s.disk.dinode i)
  uniq : ∀ k k', s.held k → s.held k' → (s.itable k).inum = (s.itable k').inum → k = k'
  coh : ∀ k, s.locked k → (s.itable k).d.agrees (s.disk.dinode (s.itable k).inum) ∧
    s.disk.alloc (s.itable k).inum
  small : ∀ i, s.disk.alloc i → (s.disk.dinode i).size < 2 ^ 32

theorem FS.modify_apply (s : FS) (ip : Nat) (f : Inode → Inode) (k : Nat) :
    (s.modify ip f).itable k = if k = ip then f (s.itable ip) else s.itable k := by
  split_ifs with h
  · subst h; exact FS.modify_self _ _ _
  · exact FS.modify_of_ne _ _ h

/-- A field that `f` keeps on the entry it rewrites is kept on every entry. -/
theorem FS.modify_field {β : Type} (g : Inode → β) (s : FS) (ip : Nat) (f : Inode → Inode)
    (hf : g (f (s.itable ip)) = g (s.itable ip)) (j : Nat) :
    g ((s.modify ip f).itable j) = g (s.itable j) := by
  rw [FS.modify_apply]
  split_ifs with h
  · subst h; exact hf
  · rfl

section Table

variable {s s' : FS}

/-- A change of the table that keeps every entry's inode, flag and copy and takes no new
reference keeps the invariant. -/
theorem Inv.of_refs (h : Inv s) (hsb : s'.sb = s.sb) (hd : s'.disk = s.disk)
    (hN : s'.NINODE = s.NINODE)
    (ht : ∀ j, (s'.itable j).inum = (s.itable j).inum ∧ (s'.itable j).valid = (s.itable j).valid ∧
      (s'.itable j).d = (s.itable j).d)
    (hh : ∀ j, 0 < (s'.itable j).ref → 0 < (s.itable j).ref) : Inv s' := by
  have held : ∀ j, s'.held j → s.held j := fun j hj => ⟨hN ▸ hj.1, hh j hj.2⟩
  refine ⟨by rw [hsb, hd]; exact h.owned, by rw [hd]; exact h.holes,
    fun k k' hk hk' e => h.uniq k k' (held k hk) (held k' hk') (by rwa [(ht k).1, (ht k').1] at e),
    fun k hk => ?_, ?_⟩
  · rw [(ht k).2.2, (ht k).1, hd]
    exact h.coh k ⟨held k hk.1, (ht k).2.1 ▸ hk.2⟩
  · rw [hd]; exact h.small

/-- `iget` finds or recycles an entry, which it returns held for `inum`. -/
theorem iget_cases {inum k : Nat} (he : iget s inum = .ok (s', k)) :
    k < s.NINODE ∧
    ((0 < (s.itable k).ref ∧ (s.itable k).inum = inum ∧
        s' = s.modify k fun e => { e with ref := e.ref + 1 }) ∨
      ((s.itable k).ref = 0 ∧ (∀ j < s.NINODE, 0 < (s.itable j).ref → (s.itable j).inum ≠ inum) ∧
        s' = s.modify k fun e => { e with inum, ref := 1, valid := false })) := by
  unfold iget at he
  cases h1 : (List.range s.NINODE).find? fun k => 0 < (s.itable k).ref ∧ (s.itable k).inum = inum with
  | some j =>
    rw [h1] at he
    cases he
    have hp := List.find?_some h1
    simp only [decide_eq_true_eq] at hp
    exact ⟨List.mem_range.1 (List.mem_of_find?_eq_some h1), .inl ⟨hp.1, hp.2, rfl⟩⟩
  | none =>
    rw [h1] at he
    cases h2 : (List.range s.NINODE).find? fun k => (s.itable k).ref = 0 with
    | some j =>
      rw [h2] at he
      cases he
      have hp := List.find?_some h2
      simp only [decide_eq_true_eq] at hp
      refine ⟨List.mem_range.1 (List.mem_of_find?_eq_some h2), .inr ⟨hp, fun j hj hr e => ?_, rfl⟩⟩
      have := List.find?_eq_none.1 h1 j (List.mem_range.2 hj)
      simp only [decide_eq_true_eq, not_and] at this
      exact this hr e
    | none => rw [h2] at he; cases he

theorem iget_error {inum : Nat} {e : Stop} (he : iget s inum = .error e) :
    e = .panic "iget: no inodes" := by
  unfold iget at he
  split at he
  · cases he
  · split at he <;> cases he; rfl

theorem Inv.of_iget (h : Inv s) {inum k : Nat} (he : iget s inum = .ok (s', k)) :
    Inv s' ∧ s'.held k ∧ (s'.itable k).inum = inum ∧ s'.NINODE = s.NINODE := by
  obtain ⟨hk, ⟨hr, hi, rfl⟩ | ⟨hr, hno, rfl⟩⟩ := iget_cases he
  · refine ⟨h.of_refs rfl rfl rfl (fun j => ⟨FS.modify_field Inode.inum _ _ _ rfl j,
      FS.modify_field Inode.valid _ _ _ rfl j, FS.modify_field Inode.d _ _ _ rfl j⟩) (fun j hj => ?_),
      ⟨hk, by simp; omega⟩, by simp [hi], rfl⟩
    rw [FS.modify_apply] at hj
    split_ifs at hj with hjk
    · subst hjk; exact hr
    · exact hj
  · refine ⟨⟨h.owned, h.holes, fun j j' hj hj' e => ?_, fun j hj => ?_, h.small⟩, ⟨hk, by simp⟩, by simp,
      rfl⟩
    · simp only [FS.held, FS.modify_NINODE, FS.modify_apply] at hj hj' e
      split_ifs at hj hj' e with h1 h2 h2
      · exact h1.trans h2.symm
      · exact absurd e.symm (hno j' hj'.1 hj'.2)
      · exact absurd e (hno j hj.1 hj.2)
      · exact h.uniq j j' hj hj' e
    · simp only [FS.locked, FS.held, FS.modify_NINODE, FS.modify_apply, FS.modify_disk] at hj ⊢
      split_ifs at hj ⊢ with h1
      · simp at hj
      · exact h.coh j hj

theorem Inv.of_idup (h : Inv s) {ip : Nat} (hk : s.held ip) : Inv (idup s ip) :=
  h.of_refs rfl rfl rfl (fun j => ⟨FS.modify_field Inode.inum _ _ _ rfl j,
    FS.modify_field Inode.valid _ _ _ rfl j, FS.modify_field Inode.d _ _ _ rfl j⟩) fun j hj => by
    unfold idup at hj
    rw [FS.modify_apply] at hj
    split_ifs at hj with hjk
    · subst hjk; exact hk.2
    · exact hj

theorem FS.held_idup {ip k : Nat} (hk : s.held k) : (idup s ip).held k := by
  refine ⟨hk.1, ?_⟩
  have := hk.2
  unfold idup; rw [FS.modify_apply]; split_ifs with h
  · subst h; simp only; omega
  · exact this

theorem ilock_error {ip : Nat} {e : Stop} (he : ilock s ip = .error e) :
    e = .panic "ilock" ∨ e = .panic "ilock: no type" := by
  unfold ilock at he
  dsimp only at he
  split_ifs at he <;> cases he
  · exact .inl rfl
  · exact .inr rfl

theorem Inv.of_ilock (h : Inv s) {ip : Nat} (hk : s.held ip) (he : ilock s ip = .ok s') :
    Inv s' ∧ s'.locked ip ∧ (∀ j, (s'.itable j).ref = (s.itable j).ref) ∧ s'.NINODE = s.NINODE := by
  unfold ilock at he
  dsimp only at he
  rw [if_neg (by have := hk.2; omega)] at he
  split_ifs at he with hv ht
  · cases he; exact ⟨h, ⟨hk, hv⟩, fun _ => rfl, rfl⟩
  · cases he
    have href := FS.modify_field Inode.ref s ip
      (fun e => { e with d := s.disk.dinode e.inum, valid := true }) rfl
    have hinum := FS.modify_field Inode.inum s ip
      (fun e => { e with d := s.disk.dinode e.inum, valid := true }) rfl
    have held : ∀ j, (s.modify ip fun e => { e with d := s.disk.dinode e.inum, valid := true }).held j
        ↔ s.held j := fun j => by simp only [FS.held, FS.modify_NINODE, href j]
    refine ⟨⟨h.owned, h.holes, fun j j' hj hj' e => h.uniq j j' ((held j).1 hj) ((held j').1 hj')
      (by rwa [hinum, hinum] at e), fun j hj => ?_, h.small⟩, ⟨(held ip).2 hk, by simp⟩, href, rfl⟩
    simp only [FS.locked, FS.modify_apply, FS.modify_disk] at hj ⊢
    split_ifs at hj ⊢ with hjk
    · simp only [FS.modify_self] at ht
      exact ⟨DInode.agrees.refl _, ht⟩
    · exact h.coh j ⟨(held j).1 hj.1, hj.2⟩

theorem iunlock_eq {ip : Nat} (hk : s.held ip) : iunlock s ip = .ok s := by
  unfold iunlock; rw [if_neg (by have := hk.2; omega)]

end Table

/-! ## Writing an entry back -/

theorem Disk.alloc_setDinode (d : Disk) {i : Nat} {x : DInode} (h : x.type = (d.dinode i).type) :
    (d.setDinode i x).alloc = d.alloc := by
  funext j
  by_cases hj : j = i
  · subst hj; simp [Disk.alloc, h]
  · simp [Disk.alloc, Function.update_noteq hj]

theorem Disk.addrs_setDinode (d : Disk) (i : Nat) (x : DInode) :
    (d.setDinode i x).addrs = Function.update d.addrs i x.addrs := by
  funext j
  by_cases hj : j = i
  · subst hj; simp [Disk.addrs]
  · simp [Disk.addrs, Function.update_noteq hj]

section WriteBack

variable {s s' : FS} {ip : Nat}

/-- Writing back a locked entry: its copy becomes `x`, which agrees with the entry's dinode on the
new disk, and no other dinode changes. The invariant holds when the new disk's trees are owned and
have no holes. -/
theorem Inv.writeBack (h : Inv s) (hk : s.locked ip) {x : DInode}
    (hsb : s'.sb = s.sb) (hN : s'.NINODE = s.NINODE)
    (ht : ∀ j, s'.itable j = if j = ip then { s.itable ip with d := x } else s.itable j)
    (hx : x.agrees (s'.disk.dinode (s.itable ip).inum)) (hty : s'.disk.alloc (s.itable ip).inum)
    (hother : ∀ j, j ≠ (s.itable ip).inum → s'.disk.dinode j = s.disk.dinode j)
    (hown : Owned s.sb s'.disk s'.disk.alloc s'.disk.addrs)
    (hholes : ∀ i, s'.disk.alloc i → NoHoles s'.disk (s'.disk.dinode i))
    (hxs : x.size < 2 ^ 32) : Inv s' := by
  have hsame : ∀ j, (s'.itable j).inum = (s.itable j).inum ∧ (s'.itable j).ref = (s.itable j).ref ∧
      (s'.itable j).valid = (s.itable j).valid := fun j => by
    rw [ht]; split_ifs with e
    · subst e; exact ⟨rfl, rfl, rfl⟩
    · exact ⟨rfl, rfl, rfl⟩
  have held : ∀ j, s'.held j ↔ s.held j := fun j => by simp only [FS.held, hN, (hsame j).2.1]
  have locked : ∀ j, s'.locked j ↔ s.locked j := fun j => by
    simp only [FS.locked, held, (hsame j).2.2]
  refine ⟨by rw [hsb]; exact hown, hholes, fun k k' hk' hk'' e => h.uniq k k' ((held k).1 hk')
    ((held k').1 hk'') (by rwa [(hsame k).1, (hsame k').1] at e), fun j hj => ?_, fun i hi => ?_⟩
  · rw [(hsame j).1]
    by_cases hji : j = ip
    · subst hji; rw [ht, if_pos rfl]; exact ⟨hx, hty⟩
    · have hne : (s.itable j).inum ≠ (s.itable ip).inum := fun e =>
        hji (h.uniq j ip ((locked j).1 hj).1 hk.1 e)
      obtain ⟨ha, hal⟩ := h.coh j ((locked j).1 hj)
      rw [ht, if_neg hji, hother _ hne]
      exact ⟨ha, by unfold Disk.alloc at hal ⊢; rwa [hother _ hne]⟩
  · by_cases hii : i = (s.itable ip).inum
    · subst hii; rw [← hx.size]; exact hxs
    · unfold Disk.alloc at hi
      rw [hother i hii] at hi ⊢
      exact h.small i hi

/-- A locked entry's copy has no holes. -/
theorem Inv.noHoles (h : Inv s) (hk : s.locked ip) : NoHoles s.disk (s.itable ip).d := by
  obtain ⟨ha, hal⟩ := h.coh ip hk
  have := h.holes _ hal
  unfold NoHoles at this ⊢
  rwa [ha.size, ha.addrs]

/-- A locked entry's size is a `uint`. -/
theorem Inv.size_lt (h : Inv s) (hk : s.locked ip) : (s.itable ip).d.size < 2 ^ 32 := by
  obtain ⟨ha, hal⟩ := h.coh ip hk
  rw [ha.size]
  exact h.small _ hal

/-- `readi` on a locked entry: it allocates nothing and changes only the entry's access time and
the clock; with a successful copy-out and no overflow it returns the `min n (size - off)` bytes
from `off`. -/
theorem Inv.readi_eq (h : Inv s) (hk : s.locked ip) (ok : Nat → Nat → Bool) {off n : Nat}
    (hoff : off < 2 ^ 32) (hn : n < 2 ^ 32) :
    ∃ t c r out, readi s ip ok off n = .ok ({ s with atimeClock := c }.modify ip
        fun e => { e with d := { e.d with atime := t } }, r, out) ∧
      ((∀ t m, ok t m = true) → off ≤ (s.itable ip).d.size → off + n < 2 ^ 32 →
        r = toInt32 (min n ((s.itable ip).d.size - off)) ∧
        out = (List.range (min n ((s.itable ip).d.size - off))).map
          fun k => fileByte s.disk (s.itable ip).d.addrs (off + k)) := by
  obtain ⟨t, c, r, out, e, hall⟩ :=
    DInode.readi_of_mapped s.sb s.disk (s.itable ip).d s.atimeClock ok hoff hn (h.noHoles hk)
  refine ⟨t, c, r, out, ?_, hall⟩
  unfold readi
  rw [e]
  rfl

theorem Inv.of_setAtime (h : Inv s) (hk : s.locked ip) (t c : Nat) :
    Inv ({ s with atimeClock := c }.modify ip fun e => { e with d := { e.d with atime := t } }) :=
  h.writeBack hk rfl rfl (fun j => FS.modify_apply _ _ _ j)
    (by simpa using (h.coh ip hk).1) (h.coh ip hk).2 (fun _ _ => rfl) h.owned h.holes (h.size_lt hk)

/-- `writei` on a locked entry returns `-1` before its loop, or runs its body and writes the entry
back with `iupdate`. -/
theorem Inv.writei_cases (h : Inv s) (hk : s.locked ip) {src : Nat → UInt8}
    {ok : Nat → Nat → Bool} {off n : Nat} {r : Int} (hoff : off < 2 ^ 32) (hn : n < 2 ^ 32)
    (hw : writei s ip src ok off n = .ok (s', r)) :
    (s' = s ∧ r = -1 ∧ ((s.itable ip).d.size < off ∨ 2 ^ 32 ≤ off + n)) ∨
    (off ≤ (s.itable ip).d.size ∧ off + n < 2 ^ 32 ∧ ∃ d x c tot, tot ≤ n ∧ r = toInt32 tot ∧
      Wrote s.sb s.disk.alloc (s.itable ip).inum src 0 off (off + tot) s.disk s.disk.addrs d
        (Function.update s.disk.addrs (s.itable ip).inum x.addrs) ∧
      x = { (s.itable ip).d with
        addrs := x.addrs, size := max (s.itable ip).d.size (off + tot), mtime := x.mtime } ∧
      s' = iupdate ({ s with disk := d, mtimeClock := c }.modify ip fun e => { e with d := x }) ip) := by
  unfold writei at hw
  dsimp only at hw
  by_cases h1 : off > (s.itable ip).d.size ∨ u32 (off + n) < off
  · rw [if_pos h1] at hw
    cases hw
    rw [u32_add_lt hoff hn] at h1
    exact .inl ⟨rfl, rfl, by omega⟩
  rw [if_neg h1, if_neg (by simp only [u32, MAXFILE_eq, BSIZE_eq]; omega)] at hw
  rw [u32_add_lt hoff hn] at h1
  cases hb : (s.itable ip).d.writeiBody s.sb s.disk s.mtimeClock src ok off n with
  | error e => rw [hb] at hw; cases hw
  | ok q =>
    obtain ⟨d, x, c, r'⟩ := q
    rw [hb] at hw
    cases hw
    obtain ⟨ha, hal⟩ := h.coh ip hk
    obtain ⟨tot, htot, hr, hwr, hx⟩ := DInode.writeiBody_spec h.owned hal ha.addrs.symm (by omega) hb
    exact .inr ⟨by omega, by omega, d, x, c, tot, htot, hr, hwr, hx, rfl⟩

/-- A `writei` inside the size of a locked entry, with every copy-in succeeding, allocates nothing
and writes all `n` bytes. -/
theorem Inv.writei_inside (h : Inv s) (hk : s.locked ip) (src : Nat → UInt8) {ok : Nat → Nat → Bool}
    (hok : ∀ t m, ok t m = true) {off n : Nat} (hin : off + n ≤ (s.itable ip).d.size) :
    ∃ s', writei s ip src ok off n = .ok (s', toInt32 n) := by
  have hsz := h.size_lt hk
  obtain ⟨ha, hal⟩ := h.coh ip hk
  have hA : s.disk.addrs (s.itable ip).inum = (s.itable ip).d.addrs := ha.addrs.symm
  obtain ⟨d', e⟩ := writeiLoop_of_mapped s.sb src ok hok n hal (n + 1) 0 off h.owned
    (Nat.zero_le _) (by omega) (by omega) fun x h1 h2 => by rw [hA]; exact h.noHoles hk x (by omega)
  rw [hA, Nat.sub_zero] at e
  unfold writei DInode.writeiBody
  dsimp only
  rw [if_neg (by simp only [u32]; omega), if_neg (by simp only [u32, MAXFILE_eq, BSIZE_eq]; omega), e]
  dsimp only
  split_ifs <;> exact ⟨_, rfl⟩

/-- A dinode without holes keeps none when every mapped node keeps its block. -/
theorem NoHoles.of_keep {d d' : Disk} {x x' : DInode} (hh : NoHoles d x) (hs : x'.size = x.size)
    (hkeep : ∀ y, nodeAddr d x.addrs y ≠ 0 → nodeAddr d' x'.addrs y = nodeAddr d x.addrs y) :
    NoHoles d' x' := fun o ho => by
  rw [hs] at ho
  rw [hkeep _ (hh o ho)]
  exact hh o ho

theorem Inv.of_writei (h : Inv s) (hk : s.locked ip) {src : Nat → UInt8}
    {ok : Nat → Nat → Bool} {off n : Nat} {r : Int} (hoff : off < 2 ^ 32) (hn : n < 2 ^ 32)
    (hw : writei s ip src ok off n = .ok (s', r)) : Inv s' := by
  rcases h.writei_cases hk hoff hn hw with
    ⟨rfl, -, -⟩ | ⟨hle, hlt, d, x, c, tot, htot, -, hwr, hx, rfl⟩
  · exact h
  obtain ⟨ha, hal⟩ := h.coh ip hk
  have hty : x.type = (d.dinode (s.itable ip).inum).type := by rw [hx, hwr.dinode]; exact ha.type
  have hA : d.alloc = s.disk.alloc := by funext j; simp only [Disk.alloc, hwr.dinode]
  have hd : d.addrs = s.disk.addrs := by funext j; simp only [Disk.addrs, hwr.dinode]
  have hown : Owned s.sb (d.setDinode (s.itable ip).inum x) (d.setDinode (s.itable ip).inum x).alloc
      (d.setDinode (s.itable ip).inum x).addrs := by
    rw [Disk.alloc_setDinode d hty, Disk.addrs_setDinode, hA, hd]
    exact hwr.owned.congr_disk rfl rfl
  refine h.writeBack (x := x) hk rfl rfl (fun j => by rw [iupdate_itable]; exact FS.modify_apply _ _ _ j)
    (by simp [DInode.agrees.refl])
    (by simp only [iupdate_disk, FS.modify_disk, FS.modify_self, Disk.alloc, Disk.setDinode_dinode,
      Function.update_same]; rw [hty, hwr.dinode]; exact hal)
    (fun j hj => by simp [Function.update_noteq hj, hwr.dinode]) (by simpa using hown) (fun i hi => ?_)
    (by rw [hx]; have := h.size_lt hk; simp only; omega)
  simp only [iupdate_disk, FS.modify_disk, FS.modify_self] at hi ⊢
  rw [Disk.alloc_setDinode d hty, hA] at hi
  have hblk : nodeAddr (d.setDinode (s.itable ip).inum x) = nodeAddr d := by
    funext a y; exact nodeAddr_congr rfl a y
  by_cases hii : i = (s.itable ip).inum
  · subst hii
    intro o ho
    simp only [Disk.setDinode_dinode, Function.update_same, hblk] at ho ⊢
    have hsz : x.size = max (s.itable ip).d.size (off + tot) := by rw [hx]
    have hA' : s.disk.addrs (s.itable ip).inum = (s.itable ip).d.addrs := ha.addrs.symm
    by_cases hlt : o < (s.itable ip).d.size
    · have hold := h.noHoles hk o hlt
      have := hwr.keep _ _ hi (by rw [hA']; exact hold)
      rw [Function.update_same, hA'] at this
      rw [this]; exact hold
    · have := hwr.mapped o (by omega) (by omega)
      rwa [Function.update_same] at this
  · simp only [Disk.setDinode_dinode, Function.update_noteq hii, hblk, hwr.dinode]
    refine NoHoles.of_keep (h.holes i hi) rfl fun y hy => ?_
    have := hwr.keep i y hi hy
    rwa [Function.update_noteq hii] at this

/-- Under the invariant `itrunc` of a locked entry frees its tree and never panics. -/
theorem Inv.itrunc_eq (h : Inv s) (hk : s.locked ip) :
    itrunc s ip = .ok (iupdate ({ s with disk := s.disk.clear (treeBlocks s.disk (s.itable ip).d.addrs) }.modify
      ip fun e => { e with d := { e.d with addrs := clearAddrs (s.itable ip).d.addrs, size := 0 } }) ip) := by
  obtain ⟨ha, hal⟩ := h.coh ip hk
  have e := h.owned.itruncBlocks_ok hal
  unfold itrunc
  rw [show (s.itable ip).d.addrs = s.disk.addrs (s.itable ip).inum from ha.addrs, e]
  rfl

theorem Inv.of_itrunc (h : Inv s) (hk : s.locked ip) (he : itrunc s ip = .ok s') : Inv s' := by
  rw [h.itrunc_eq hk] at he
  cases he
  obtain ⟨ha, hal⟩ := h.coh ip hk
  have hA : s.disk.addrs (s.itable ip).inum = (s.itable ip).d.addrs := ha.addrs.symm
  set T := treeBlocks s.disk (s.itable ip).d.addrs
  set x : DInode := { (s.itable ip).d with addrs := clearAddrs (s.itable ip).d.addrs, size := 0 }
  have hty : x.type = ((s.disk.clear T).dinode (s.itable ip).inum).type := ha.type
  have hown := h.owned.itrunc hal
  rw [hA] at hown
  have hblk : nodeAddr ((s.disk.clear T).setDinode (s.itable ip).inum x) = nodeAddr s.disk := by
    funext a y; exact nodeAddr_congr rfl a y
  refine h.writeBack (x := x) hk rfl rfl (fun j => by rw [iupdate_itable]; exact FS.modify_apply _ _ _ j)
    (by simp [DInode.agrees.refl])
    (by simp only [iupdate_disk, FS.modify_disk, FS.modify_self, Disk.alloc, Disk.setDinode_dinode,
      Function.update_same]; rw [hty]; exact hal)
    (fun j hj => by simp [Function.update_noteq hj]) ?_ (fun i hi => ?_) (by simp [x])
  · simp only [iupdate_disk, FS.modify_disk, FS.modify_self]
    rw [Disk.alloc_setDinode _ hty, Disk.addrs_setDinode]
    exact hown.congr_disk rfl rfl
  · simp only [iupdate_disk, FS.modify_disk, FS.modify_self] at hi ⊢
    rw [Disk.alloc_setDinode _ hty] at hi
    by_cases hii : i = (s.itable ip).inum
    · subst hii
      intro o ho
      simp at ho
    · simp only [Disk.setDinode_dinode, Function.update_noteq hii, hblk, Disk.clear_dinode]
      exact h.holes i hi

end WriteBack

/-! ## `iput`, `ialloc` and `ireclaim` -/

/-- A change of a locked entry's link count written back, `ip->nlink = v; iupdate(ip)`, as
`sys_link`, `sys_unlink` and `create` make it. -/
def setNlink (s : FS) (ip : Nat) (v : Int) : FS :=
  iupdate (s.modify ip fun e => { e with d := { e.d with nlink := v } }) ip

section Free

variable {s s' : FS} {ip : Nat}

/-- A change of a locked entry's copy that keeps its type, addresses and size, written back with
`iupdate`: `ip->nlink = v`, or the device numbers and first link `create` gives a new inode. -/
theorem Inv.of_setMeta (h : Inv s) (hk : s.locked ip) (g : DInode → DInode)
    (hty : (g (s.itable ip).d).type = (s.itable ip).d.type)
    (haddr : (g (s.itable ip).d).addrs = (s.itable ip).d.addrs)
    (hsize : (g (s.itable ip).d).size = (s.itable ip).d.size) :
    Inv (iupdate (s.modify ip fun e => { e with d := g e.d }) ip) := by
  obtain ⟨ha, hal⟩ := h.coh ip hk
  have hty' : (g (s.itable ip).d).type = (s.disk.dinode (s.itable ip).inum).type := hty.trans ha.type
  have hA : Function.update s.disk.addrs (s.itable ip).inum (g (s.itable ip).d).addrs = s.disk.addrs := by
    rw [haddr, show (s.itable ip).d.addrs = s.disk.addrs (s.itable ip).inum from ha.addrs,
      Function.update_eq_self]
  have hblk : nodeAddr (s.disk.setDinode (s.itable ip).inum (g (s.itable ip).d)) = nodeAddr s.disk := by
    funext a y; exact nodeAddr_congr rfl a y
  refine h.writeBack (x := g (s.itable ip).d) hk rfl rfl
    (fun j => by rw [iupdate_itable]; exact FS.modify_apply _ _ _ j) (by simp [DInode.agrees.refl])
    (by simp only [iupdate_disk, FS.modify_disk, FS.modify_self, Disk.alloc, Disk.setDinode_dinode,
      Function.update_same]; rw [hty']; exact hal)
    (fun j hj => by simp [Function.update_noteq hj]) ?_ (fun i hi => ?_) (hsize ▸ h.size_lt hk)
  · simp only [iupdate_disk, FS.modify_disk, FS.modify_self]
    rw [Disk.alloc_setDinode _ hty', Disk.addrs_setDinode, hA]
    exact h.owned.congr_disk rfl rfl
  · simp only [iupdate_disk, FS.modify_disk, FS.modify_self] at hi ⊢
    rw [Disk.alloc_setDinode _ hty'] at hi
    by_cases hii : i = (s.itable ip).inum
    · subst hii
      simp only [Disk.setDinode_dinode, Function.update_same, hblk]
      unfold NoHoles
      rw [hsize, haddr]
      exact h.noHoles hk
    · simp only [Disk.setDinode_dinode, Function.update_noteq hii, hblk]
      exact h.holes i hi

theorem Inv.of_setNlink (h : Inv s) (hk : s.locked ip) (v : Int) : Inv (setNlink s ip v) :=
  h.of_setMeta hk (fun d => { d with nlink := v }) rfl rfl rfl

/-- Freeing a locked entry's dinode (`ip->type = 0; iupdate(ip); ip->valid = 0`) keeps the
invariant: the inode leaves the allocated ones and the entry is no longer loaded. -/
theorem Inv.of_free (h : Inv s) (hk : s.locked ip) :
    Inv ((iupdate (s.modify ip fun e => { e with d := { e.d with type := .free } }) ip).modify ip
      fun e => { e with valid := false }) := by
  set x : DInode := { (s.itable ip).d with type := .free }
  have hblk : nodeAddr (s.disk.setDinode (s.itable ip).inum x) = nodeAddr s.disk := by
    funext a y; exact nodeAddr_congr rfl a y
  have halloc : ∀ j, (s.disk.setDinode (s.itable ip).inum x).alloc j →
      j ≠ (s.itable ip).inum ∧ s.disk.alloc j := fun j hj => by
    by_cases hji : j = (s.itable ip).inum
    · subst hji; simp [Disk.alloc, x] at hj
    · simp only [Disk.alloc, Disk.setDinode_dinode, Function.update_noteq hji] at hj
      exact ⟨hji, hj⟩
  have hsame : ∀ j, j ≠ ip → ((iupdate (s.modify ip fun e => { e with d := { e.d with type := .free } })
      ip).modify ip fun e => { e with valid := false }).itable j = s.itable j := fun j hj => by
    simp [FS.modify_of_ne _ _ hj]
  have href : ∀ j, (((iupdate (s.modify ip fun e => { e with d := { e.d with type := .free } })
      ip).modify ip fun e => { e with valid := false }).itable j).ref = (s.itable j).ref := fun j => by
    by_cases hj : j = ip
    · subst hj; simp
    · rw [hsame j hj]
  have hinum : ∀ j, (((iupdate (s.modify ip fun e => { e with d := { e.d with type := .free } })
      ip).modify ip fun e => { e with valid := false }).itable j).inum = (s.itable j).inum := fun j => by
    by_cases hj : j = ip
    · subst hj; simp
    · rw [hsame j hj]
  refine ⟨?_, fun i hi => ?_, fun k k' hk' hk'' e => h.uniq k k' ⟨hk'.1, (href k) ▸ hk'.2⟩
    ⟨hk''.1, (href k') ▸ hk''.2⟩ (by rwa [hinum, hinum] at e), fun j hj => ?_, fun i hi => ?_⟩
  · simp only [FS.modify_sb, iupdate_sb, FS.modify_disk, iupdate_disk, FS.modify_self]
    exact (h.owned.restrict fun j hj => .inl ⟨(halloc j hj).2,
      by simp [Disk.addrs, Function.update_noteq (halloc j hj).1]⟩).congr_disk rfl rfl
  · simp only [FS.modify_disk, iupdate_disk, FS.modify_self] at hi ⊢
    obtain ⟨hne, hi⟩ := halloc i hi
    simp only [Disk.setDinode_dinode, Function.update_noteq hne, hblk]
    exact h.holes i hi
  · have hji : j ≠ ip := by rintro rfl; simp [FS.locked] at hj
    have hl : s.locked j := by
      rw [FS.locked, FS.held, ← hsame j hji]; exact hj
    have hne : (s.itable j).inum ≠ (s.itable ip).inum := fun e => hji (h.uniq j ip hl.1 hk.1 e)
    obtain ⟨ha, hal⟩ := h.coh j hl
    simp only [hsame j hji, FS.modify_disk, iupdate_disk, FS.modify_self, Disk.setDinode_dinode,
      Function.update_noteq hne]
    exact ⟨ha, by simpa [Disk.alloc, Function.update_noteq hne] using hal⟩
  · simp only [FS.modify_disk, iupdate_disk, FS.modify_self] at hi ⊢
    obtain ⟨hne, hi⟩ := halloc i hi
    simp only [Disk.setDinode_dinode, Function.update_noteq hne]
    exact h.small i hi

theorem Inv.of_decRef (h : Inv s) (ip : Nat) : Inv (s.modify ip fun e => { e with ref := e.ref - 1 }) :=
  h.of_refs rfl rfl rfl (fun j => ⟨FS.modify_field Inode.inum _ _ _ rfl j,
    FS.modify_field Inode.valid _ _ _ rfl j, FS.modify_field Inode.d _ _ _ rfl j⟩) fun j hj => by
    rw [FS.modify_apply] at hj
    split_ifs at hj with hjk
    · subst hjk; simp only at hj; omega
    · exact hj

/-- `itrunc` of a locked entry succeeds and keeps the entry locked and every reference count. -/
theorem Inv.itrunc_ok (h : Inv s) (hk : s.locked ip) :
    ∃ s₁, itrunc s ip = .ok s₁ ∧ Inv s₁ ∧ s₁.locked ip ∧ s₁.NINODE = s.NINODE ∧
      ∀ j, (s₁.itable j).ref = (s.itable j).ref := by
  refine ⟨_, h.itrunc_eq hk, h.of_itrunc hk (h.itrunc_eq hk), ⟨⟨hk.1.1, by simpa using hk.1.2⟩,
    by simpa using hk.2⟩, rfl, fun j => ?_⟩
  simp only [iupdate_itable]
  exact FS.modify_field Inode.ref _ _ _ rfl j

/-- Under the invariant `iput` of a held entry succeeds and keeps the invariant. -/
theorem Inv.iput_ok (h : Inv s) (hk : s.held ip) :
    ∃ s', iput s ip = .ok s' ∧ Inv s' ∧ s'.NINODE = s.NINODE := by
  unfold iput
  by_cases hc : (s.itable ip).ref = 1 ∧ (s.itable ip).valid = true ∧ (s.itable ip).d.nlink = 0
  · obtain ⟨s₁, e₁, h₁, hl₁, hN, -⟩ := h.itrunc_ok ⟨hk, hc.2.1⟩
    rw [if_pos hc, e₁]
    exact ⟨_, rfl, (h₁.of_free hl₁).of_decRef ip, hN⟩
  · rw [if_neg hc]
    exact ⟨_, rfl, h.of_decRef ip, rfl⟩

/-- A fresh dinode with an empty tree written over a free one keeps the invariant. -/
theorem Inv.of_fresh (h : Inv s) {inum : Nat} (hfree : (s.disk.dinode inum).type = .free)
    {x : DInode} (hx : x.size = 0) (hz : ∀ y, nodeAddr s.disk x.addrs y = 0) :
    Inv { s with disk := s.disk.setDinode inum x } := by
  have hblk : nodeAddr (s.disk.setDinode inum x) = nodeAddr s.disk := by
    funext a y; exact nodeAddr_congr rfl a y
  have hne : ∀ j, s.disk.alloc j → j ≠ inum := fun j hj e => hj (e ▸ hfree)
  refine ⟨(h.owned.restrict fun j _ => ?_).congr_disk rfl rfl, fun i hi => ?_, h.uniq,
    fun j hj => ?_, fun i hi => ?_⟩
  · by_cases hji : j = inum
    · subst hji; exact .inr fun y => by simpa [Disk.addrs] using hz y
    · simp only [Disk.alloc, Disk.setDinode_dinode, Function.update_noteq hji] at *
      exact .inl ⟨‹_›, by simp [Disk.addrs, Function.update_noteq hji]⟩
  · simp only [hblk, Disk.setDinode_dinode]
    by_cases hii : i = inum
    · subst hii; intro o ho; simp [hx] at ho
    · simp only [Disk.alloc, Disk.setDinode_dinode, Function.update_noteq hii] at hi ⊢
      exact h.holes i hi
  · obtain ⟨ha, hal⟩ := h.coh j hj
    simp only [Disk.alloc, Disk.setDinode_dinode, Function.update_noteq (hne _ hal)]
    exact ⟨ha, hal⟩
  · by_cases hii : i = inum
    · subst hii; simp [hx]
    · simp only [Disk.alloc, Disk.setDinode_dinode, Function.update_noteq hii] at hi ⊢
      exact h.small i hi

theorem ialloc_error {type : IType} {e : Stop} (he : ialloc s type = .error e) :
    e = .panic "iget: no inodes" := by
  unfold ialloc at he
  split_ifs at he
  split at he
  · rcases bind_eq_error he with h1 | ⟨_, _, h2⟩
    · exact iget_error h1
    · cases h2
  · cases he

theorem Inv.of_ialloc (h : Inv s) {type : IType} {p : IPtr} (he : ialloc s type = .ok (s', p)) :
    Inv s' ∧ s'.NINODE = s.NINODE := by
  unfold ialloc at he
  split_ifs at he
  · cases he; exact ⟨h, rfl⟩
  · cases hf : (List.range' 1 (s.sb.ninodes - 1)).find? fun inum => (s.disk.dinode inum).type = .free with
    | none => rw [hf] at he; cases he; exact ⟨h, rfl⟩
    | some inum =>
      rw [hf] at he
      obtain ⟨⟨s₂, k⟩, hg, he⟩ := bind_eq_ok he
      cases he
      have hfree := List.find?_some hf
      simp only [decide_eq_true_eq] at hfree
      have h₁ := h.of_fresh hfree (x := DInode.fresh type) rfl (nodeAddr_zero_addrs s.disk)
      exact ⟨(h₁.of_iget hg).1, (h₁.of_iget hg).2.2.2⟩

theorem Inv.of_ireclaimOne (h : Inv s) {inum : Nat} (he : ireclaimOne s inum = .ok s') :
    Inv s' ∧ s'.NINODE = s.NINODE := by
  unfold ireclaimOne at he
  split_ifs at he
  · obtain ⟨⟨s₁, k⟩, hg, he⟩ := bind_eq_ok he
    obtain ⟨h₁, hk₁, -, hN₁⟩ := h.of_iget hg
    obtain ⟨s₂, hl, he⟩ := bind_eq_ok he
    obtain ⟨h₂, hk₂, href, hN₂⟩ := h₁.of_ilock hk₁ hl
    obtain ⟨s₃, hu, he⟩ := bind_eq_ok he
    rw [iunlock_eq hk₂.1] at hu
    cases hu
    obtain ⟨s₄, e₄, h₄, hN₄⟩ := h₂.iput_ok hk₂.1
    rw [e₄] at he
    cases he
    exact ⟨h₄, hN₄.trans (hN₂.trans hN₁)⟩
  · cases he; exact ⟨h, rfl⟩

theorem Inv.ireclaimOne_error (h : Inv s) {inum : Nat} {e : Stop} (he : ireclaimOne s inum = .error e) :
    e = .panic "iget: no inodes" ∨ e = .panic "ilock" ∨ e = .panic "ilock: no type" := by
  unfold ireclaimOne at he
  split_ifs at he
  rcases bind_eq_error he with h1 | ⟨⟨s₁, k⟩, hg, he⟩
  · exact .inl (iget_error h1)
  obtain ⟨h₁, hk₁, -, -⟩ := h.of_iget hg
  rcases bind_eq_error he with h2 | ⟨s₂, hl, he⟩
  · exact .inr (ilock_error h2)
  obtain ⟨h₂, hk₂, -, -⟩ := h₁.of_ilock hk₁ hl
  rcases bind_eq_error he with h3 | ⟨s₃, hu, he⟩
  · rw [iunlock_eq hk₂.1] at h3; cases h3
  rw [iunlock_eq hk₂.1] at hu
  cases hu
  obtain ⟨s₄, e₄, -, -⟩ := h₂.iput_ok hk₂.1
  rw [e₄] at he
  cases he

theorem Inv.of_ireclaim_loop : ∀ (l : List Nat) {s s' : FS}, Inv s →
    l.foldlM ireclaimOne s = .ok s' → Inv s' ∧ s'.NINODE = s.NINODE
  | [], _, _, h, he => by cases he; exact ⟨h, rfl⟩
  | inum :: l, _, _, h, he => by
    rw [List.foldlM_cons] at he
    obtain ⟨s₁, h1, h2⟩ := bind_eq_ok he
    obtain ⟨h₁, hN₁⟩ := h.of_ireclaimOne h1
    obtain ⟨h₂, hN₂⟩ := Inv.of_ireclaim_loop l h₁ h2
    exact ⟨h₂, hN₂.trans hN₁⟩

theorem Inv.ireclaim_loop_error : ∀ (l : List Nat) {s : FS} {e : Stop}, Inv s →
    l.foldlM ireclaimOne s = .error e →
    e = .panic "iget: no inodes" ∨ e = .panic "ilock" ∨ e = .panic "ilock: no type"
  | [], _, _, _, he => by cases he
  | inum :: l, _, _, h, he => by
    rw [List.foldlM_cons] at he
    rcases bind_eq_error he with h1 | ⟨s₁, h1, h2⟩
    · exact h.ireclaimOne_error h1
    · exact Inv.ireclaim_loop_error l (h.of_ireclaimOne h1).1 h2

end Free

/-! ## Steps and reachable states -/

/-- The operations of the inode layer a caller can perform. -/
inductive Op where
  | ialloc (type : IType)
  | iget (inum : Nat)
  | idup (ip : Nat)
  | ilock (ip : Nat)
  | iunlock (ip : Nat)
  | readi (ip : Nat) (ok : Nat → Nat → Bool) (off n : Nat)
  | writei (ip : Nat) (src : Nat → UInt8) (ok : Nat → Nat → Bool) (off n : Nat)
  | itrunc (ip : Nat)
  | setNlink (ip : Nat) (v : Int)
  | iput (ip : Nat)
  | ireclaim

/-- What the caller of each operation keeps: a reference to the entry it names, and the entry's
lock for its content; `readi` and `writei` take `uint` offsets and counts. -/
def Op.guard (s : FS) : Op → Prop
  | .ialloc _ | .iget _ | .ireclaim => True
  | .idup ip | .ilock ip | .iunlock ip | .iput ip => s.held ip
  | .readi ip _ off n | .writei ip _ _ off n => s.locked ip ∧ off < 2 ^ 32 ∧ n < 2 ^ 32
  | .itrunc ip | .setNlink ip _ => s.locked ip

/-- The state after an operation, or how it stopped. -/
def exec (s : FS) : Op → Except Stop FS
  | .ialloc t => (ialloc s t).map Prod.fst
  | .iget inum => (iget s inum).map Prod.fst
  | .idup ip => .ok (idup s ip)
  | .ilock ip => ilock s ip
  | .iunlock ip => iunlock s ip
  | .readi ip ok off n => (readi s ip ok off n).map Prod.fst
  | .writei ip src ok off n => (writei s ip src ok off n).map Prod.fst
  | .itrunc ip => itrunc s ip
  | .setNlink ip v => .ok (setNlink s ip v)
  | .iput ip => iput s ip
  | .ireclaim => ireclaim s

/-- A consistent image, as `mkfs` leaves it, with an empty inode table. -/
structure Image (s : FS) : Prop where
  owned : Owned s.sb s.disk s.disk.alloc s.disk.addrs
  holes : ∀ i, s.disk.alloc i → NoHoles s.disk (s.disk.dinode i)
  empty : ∀ k, (s.itable k).ref = 0
  small : ∀ i, s.disk.alloc i → (s.disk.dinode i).size < 2 ^ 32

/-- A blank image: the boot block in use, no allocated dinode, an empty table. -/
def blank : FS where
  sb := ⟨8, 4, by decide⟩
  disk := ⟨fun b => decide (b = 0), fun _ => Block.zero, fun _ => DInode.fresh .free⟩
  itable := fun _ => ⟨0, 0, false, DInode.fresh .free⟩
  NINODE := 4
  atimeClock := 0
  mtimeClock := 0
  MAXPATH := 128
  NDEV := 10

theorem blank_image : Image blank where
  owned := ⟨rfl, fun _ _ hi => absurd rfl hi, fun _ _ _ _ hi => absurd rfl hi⟩
  holes := fun _ hi => absurd rfl hi
  empty := fun _ => rfl
  small := fun _ hi => absurd rfl hi

/-- A node of a tree whose only root is its first direct slot reaches a block only as that slot. -/
theorem nodeAddr_of_direct {d : Disk} {a : Addrs} (ha : ∀ r, r ≠ 0 → a r = 0) {x : Node}
    (hx : nodeAddr d a x ≠ 0) : x = ⟨0, []⟩ := by
  have hok : x.ok := by
    by_contra hn
    exact hx (nodeAddr_of_not_ok hn)
  rw [nodeAddr_of_ok hok] at hx
  have hr : x.root = 0 := by
    by_contra hr
    rw [ha _ hr, Disk.walk_zero] at hx
    exact hx rfl
  have hp : x.path.length ≤ depth 0 := hr ▸ hok.2.1
  obtain ⟨r, p⟩ := x
  simp only [depth, NDIRECT_eq, if_pos (by decide : 0 < 10), Nat.le_zero, List.length_eq_zero] at hr hp
  simp [hr, hp]

instance (d : Disk) (i : Nat) : Decidable (d.alloc i) := inferInstanceAs (Decidable (_ ≠ _))

/-- An image whose allocated inodes, all below `n`, keep their bytes in their first direct block:
distinct, marked blocks inside the disk, sizes within one block, and an empty table. -/
theorem Image.of_direct {s : FS} (n : Nat) (hfree : ∀ i, n ≤ i → ¬ s.disk.alloc i)
    (hboot : s.disk.bitmap 0 = true) (hslots : ∀ i r, r ≠ 0 → s.disk.addrs i r = 0)
    (hmark : ∀ i < n, s.disk.alloc i → s.disk.addrs i 0 ≠ 0 →
      s.disk.bitmap (s.disk.addrs i 0) = true ∧ s.disk.addrs i 0 < s.sb.size)
    (hinj : ∀ i < n, ∀ j < n, s.disk.alloc i ∧ s.disk.alloc j ∧ s.disk.addrs i 0 ≠ 0 ∧
      s.disk.addrs i 0 = s.disk.addrs j 0 → i = j)
    (hsize : ∀ i < n, s.disk.alloc i → (s.disk.dinode i).size ≤ BSIZE ∧
      (0 < (s.disk.dinode i).size → s.disk.addrs i 0 ≠ 0))
    (hempty : ∀ k, (s.itable k).ref = 0) : Image s := by
  have hn : ∀ i, s.disk.alloc i → i < n := fun i hi => by
    by_contra h
    exact hfree i (by omega) hi
  have h0 : ∀ i, nodeAddr s.disk (s.disk.addrs i) ⟨0, []⟩ = s.disk.addrs i 0 := fun i =>
    nodeAddr_of_ok (by decide)
  refine ⟨⟨hboot, fun i x hi hx => ?_, fun i j x y hi hj hx e => ?_⟩, fun i hi o ho => ?_,
    hempty, fun i hi => ?_⟩
  · obtain rfl := nodeAddr_of_direct (hslots i) hx
    rw [h0] at hx ⊢
    exact hmark i (hn i hi) hi hx
  · obtain rfl := nodeAddr_of_direct (hslots i) hx
    obtain rfl := nodeAddr_of_direct (hslots j) (e ▸ hx)
    rw [h0, h0] at e
    rw [h0] at hx
    exact ⟨hinj i (hn i hi) j (hn j hj) ⟨hi, hj, hx, e⟩, rfl⟩
  · have hb : o / BSIZE = 0 := by
      have := (hsize i (hn i hi) hi).1
      simp only [BSIZE_eq] at *
      omega
    show nodeAddr s.disk (s.disk.addrs i) (bnode (o / BSIZE)) ≠ 0
    rw [hb, show bnode 0 = ⟨0, []⟩ from rfl, h0]
    exact (hsize i (hn i hi) hi).2 (by omega)
  · have := (hsize i (hn i hi) hi).1
    simp only [BSIZE_eq] at this
    omega

/-- The dinode of an inode whose bytes fit in its one direct block `b`, with one link. -/
def DInode.direct (type : IType) (size b : Nat) : DInode :=
  { DInode.fresh type with nlink := 1, size, addrs := fun r => if r = 0 then b else 0 }

/-- The disk of a small image: inode `i` is entry `i` of `inodes`, its type, size and block, and
every inode past the list is free; `used` is the bitmap and `blocks` the blocks' bytes. -/
def Disk.direct (inodes : List (IType × Nat × Nat)) (used : Nat → Bool) (blocks : Nat → Block) :
    Disk where
  bitmap := used
  block := blocks
  dinode := fun i => match inodes.get? i with
    | some (type, size, b) => DInode.direct type size b
    | none => DInode.fresh .free

theorem Disk.direct_free {inodes : List (IType × Nat × Nat)} {used : Nat → Bool}
    {blocks : Nat → Block} {i : Nat} (hi : inodes.length ≤ i) :
    ¬ (Disk.direct inodes used blocks).alloc i := by
  have e : inodes.get? i = none := List.get?_eq_none.2 hi
  simp only [Disk.alloc, Disk.direct, e, DInode.fresh, ne_eq, not_not]

theorem Disk.direct_slots (inodes : List (IType × Nat × Nat)) (used : Nat → Bool)
    (blocks : Nat → Block) (i : Nat) {r : Nat} (hr : r ≠ 0) :
    (Disk.direct inodes used blocks).addrs i r = 0 := by
  simp only [Disk.addrs, Disk.direct]
  split <;> simp [DInode.direct, DInode.fresh, hr]

/-- The states reachable from a consistent image by operations under their preconditions. -/
inductive Reachable : FS → Prop
  | init {s : FS} : Image s → Reachable s
  | step {s s' : FS} (op : Op) : Reachable s → op.guard s → exec s op = .ok s' → Reachable s'

theorem map_fst_eq_ok {β : Type} {x : Except Stop (FS × β)} {s' : FS}
    (h : x.map Prod.fst = .ok s') : ∃ b, x = .ok (s', b) := by
  cases x with
  | error e => cases h
  | ok q => cases h; exact ⟨q.2, rfl⟩

section Steps

variable {s s' : FS}

theorem Image.inv (h : Image s) : Inv s :=
  ⟨h.owned, h.holes, fun k _ hk => by simp [FS.held, h.empty k] at hk,
    fun k hk => by simp [FS.locked, FS.held, h.empty k] at hk, h.small⟩

/-- Every operation keeps the invariant. -/
theorem Inv.step (h : Inv s) {op : Op} (hg : op.guard s) (he : exec s op = .ok s') : Inv s' := by
  cases op with
  | ialloc t =>
    obtain ⟨_, hx⟩ := map_fst_eq_ok he
    exact (h.of_ialloc hx).1
  | iget inum =>
    obtain ⟨_, hx⟩ := map_fst_eq_ok he
    exact (h.of_iget hx).1
  | idup ip => cases he; exact h.of_idup hg
  | ilock ip => exact (h.of_ilock hg he).1
  | iunlock ip =>
    simp only [exec, iunlock_eq hg] at he
    cases he; exact h
  | readi ip ok off n =>
    obtain ⟨_, hx⟩ := map_fst_eq_ok he
    obtain ⟨t, c, r, out, e, -⟩ := h.readi_eq hg.1 ok hg.2.1 hg.2.2
    rw [e] at hx
    cases hx
    exact h.of_setAtime hg.1 t c
  | writei ip src ok off n =>
    obtain ⟨_, hx⟩ := map_fst_eq_ok he
    exact h.of_writei hg.1 hg.2.1 hg.2.2 hx
  | itrunc ip => exact h.of_itrunc hg he
  | setNlink ip v => cases he; exact h.of_setNlink hg v
  | iput ip =>
    obtain ⟨s₁, e, h₁, -⟩ := h.iput_ok hg
    simp only [exec, e] at he
    cases he; exact h₁
  | ireclaim => exact (Inv.of_ireclaim_loop _ h he).1

/-- Every reachable state has the invariant. -/
theorem Reachable.inv (h : Reachable s) : Inv s := by
  induction h with
  | init hi => exact hi.inv
  | step _ _ hg he ih => exact ih.step hg he

end Steps

/-! ## A run from the blank image -/

/-- The state after an operation that succeeds, and the state before it otherwise. -/
def FS.after (s : FS) (op : Op) : FS :=
  match exec s op with
  | .ok s' => s'
  | .error _ => s

/-- The blank image after `ialloc(T_FILE)` and `ilock` of the entry it returns: an empty
file, locked in entry 0. -/
def blankFile : FS := (blank.after (.ialloc .file)).after (.ilock 0)

theorem blankFile_reachable : Reachable blankFile :=
  .step (.ilock 0) (.step (.ialloc .file) (.init blank_image) trivial rfl) ⟨by decide, by decide⟩ rfl

end Xv6.Fs
