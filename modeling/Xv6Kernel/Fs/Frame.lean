import Xv6Kernel.Fs.Path

/-!
# What the table operations keep of an entry

A system call holds references to table entries across many operations: the directory it
locked, the entry `dirlookup` returned, the process's current directory. The frame of each
operation says what it keeps of an entry `j` (`Stays`: the inode the entry names, its flag
`valid` once set, and the type of that inode on disk) and how it moves `j`'s reference count:
`iget` and `idup` add one to the entry they return, `iput` takes one from the entry it puts, and
the other operations leave the counts alone. A put that would free `j` is the one exception,
and the lemmas exclude it by asking for a second reference.

* `iget_frame`, `ilock_frame`, `Inv.writei_frame`, `Inv.iput_frame`, `Inv.ialloc_frame`: the
  frames of the table operations.
* `Stays.iupdate_write`: a write-back that keeps an entry's type keeps every entry.
-/

namespace Xv6.Fs

/-! ## Frames -/

/-- The sizes a step keeps: the inode table's and the path buffer's. -/
structure Same (s s' : FS) : Prop where
  N : s'.NINODE = s.NINODE
  M : s'.MAXPATH = s.MAXPATH

/-- What a step keeps of table entry `j`: the inode it names, its flag `valid` once set, and the
type of that inode on disk. -/
structure Stays (j : Nat) (s s' : FS) : Prop where
  inum : (s'.itable j).inum = (s.itable j).inum
  valid : (s.itable j).valid = true → (s'.itable j).valid = true
  type : (s'.disk.dinode (s.itable j).inum).type = (s.disk.dinode (s.itable j).inum).type

section Frames

variable {s s₀ s₁ s₂ s' : FS} {j ip : Nat}

theorem Same.refl (s : FS) : Same s s := ⟨rfl, rfl⟩

theorem Same.trans (h₁ : Same s s₁) (h₂ : Same s₁ s₂) : Same s s₂ :=
  ⟨h₂.N.trans h₁.N, h₂.M.trans h₁.M⟩

theorem Stays.refl (j : Nat) (s : FS) : Stays j s s := ⟨rfl, id, rfl⟩

theorem Stays.trans (h₁ : Stays j s s₁) (h₂ : Stays j s₁ s₂) : Stays j s s₂ := by
  refine ⟨h₂.inum.trans h₁.inum, fun hv => h₂.valid (h₁.valid hv), ?_⟩
  have := h₂.type
  rw [h₁.inum] at this
  exact this.trans h₁.type

/-- An entry that keeps its inode, its flag and its references stays held, and locked. -/
theorem Stays.held (hs : Same s s') (hr : (s.itable j).ref ≤ (s'.itable j).ref)
    (hl : s.held j) : s'.held j :=
  ⟨by rw [hs.N]; exact hl.1, by have := hl.2; omega⟩

theorem Stays.locked (h : Stays j s s') (hs : Same s s') (hr : (s.itable j).ref ≤ (s'.itable j).ref)
    (hl : s.locked j) : s'.locked j :=
  ⟨Stays.held hs hr hl.1, h.valid hl.2⟩

/-- An entry that keeps its inode and its references keeps the type of its dinode's
allocation. -/
theorem Stays.alloc (h : Stays j s s') (ha : s.disk.alloc (s.itable j).inum) :
    s'.disk.alloc (s'.itable j).inum := by
  unfold Disk.alloc at *
  rw [h.inum, h.type]
  exact ha

theorem Stays.modify_ne {k : Nat} (f : Inode → Inode) (h : j ≠ k) : Stays j s (s.modify k f) :=
  ⟨by rw [FS.modify_of_ne _ _ h], fun hv => by rwa [FS.modify_of_ne _ _ h], rfl⟩

/-- Rewriting entry `k` keeping its inode and its flag once set. -/
theorem Stays.modify {k : Nat} {f : Inode → Inode} (hi : (f (s.itable k)).inum = (s.itable k).inum)
    (hv : (s.itable k).valid = true → (f (s.itable k)).valid = true) : Stays j s (s.modify k f) := by
  by_cases h : j = k
  · subst h
    exact ⟨by rw [FS.modify_self, hi], fun h' => by rw [FS.modify_self]; exact hv h', rfl⟩
  · exact Stays.modify_ne f h

/-- Writing back a locked entry after a change of its copy that keeps its inode, flag and type,
over a disk whose dinodes are those of `s`. -/
theorem Stays.iupdate_write (h : Inv s) (hk : s.locked ip) (s₀ : FS) (g : Inode → Inode)
    (hd : s₀.disk.dinode = s.disk.dinode) (ht : s₀.itable = s.itable)
    (hi : (g (s.itable ip)).inum = (s.itable ip).inum)
    (hv : (g (s.itable ip)).valid = (s.itable ip).valid)
    (hg : (g (s.itable ip)).d.type = (s.itable ip).d.type) (j : Nat) :
    Stays j s (iupdate (s₀.modify ip g) ip) := by
  have e : ∀ k, (iupdate (s₀.modify ip g) ip).itable k =
      if k = ip then g (s.itable ip) else s.itable k := fun k => by
    rw [iupdate_itable, FS.modify_apply, ht]
  refine ⟨?_, fun hv' => ?_, ?_⟩
  · rw [e]; split_ifs with hj
    · rw [hj, hi]
    · rfl
  · rw [e]; split_ifs with hj
    · rw [hv, ← hj]; exact hv'
    · exact hv'
  · simp only [iupdate_disk, FS.modify_disk, Disk.setDinode_dinode, FS.modify_self, ht, hi, hd]
    by_cases hX : (s.itable j).inum = (s.itable ip).inum
    · rw [hX, Function.update_same, hg]
      exact (h.coh ip hk).1.type
    · rw [Function.update_noteq hX]

end Frames

/-! ## The table operations -/

section Ops

variable {s s' : FS} {ip : Nat}

theorem idup_frame (k j : Nat) : Same s (idup s k) ∧ Stays j s (idup s k) ∧
    ((idup s k).itable j).ref = (s.itable j).ref + if j = k then 1 else 0 := by
  refine ⟨⟨rfl, rfl⟩, Stays.modify rfl id, ?_⟩
  unfold idup
  rw [FS.modify_apply]
  split_ifs with h
  · subst h; rfl
  · simp

theorem iget_frame {inum k : Nat} (he : iget s inum = .ok (s', k)) :
    Same s s' ∧ k < s.NINODE ∧ ∀ j, 0 < (s.itable j).ref →
      Stays j s s' ∧ (s'.itable j).ref = (s.itable j).ref + if j = k then 1 else 0 := by
  obtain ⟨hk, ⟨-, -, rfl⟩ | ⟨h0, -, rfl⟩⟩ := iget_cases he
  · refine ⟨⟨rfl, rfl⟩, hk, fun j _ => ⟨Stays.modify rfl id, ?_⟩⟩
    rw [FS.modify_apply]
    split_ifs with h
    · subst h; rfl
    · simp
  · refine ⟨⟨rfl, rfl⟩, hk, fun j hj => ?_⟩
    have hne : j ≠ k := by rintro rfl; omega
    exact ⟨Stays.modify_ne _ hne, by rw [FS.modify_of_ne _ _ hne, if_neg hne]; simp⟩

theorem ilock_frame (he : ilock s ip = .ok s') :
    Same s s' ∧ ∀ j, Stays j s s' ∧ (s'.itable j).ref = (s.itable j).ref := by
  unfold ilock at he
  dsimp only at he
  split_ifs at he <;> cases he
  · exact ⟨Same.refl s, fun j => ⟨Stays.refl j s, rfl⟩⟩
  · exact ⟨⟨rfl, rfl⟩, fun j => ⟨Stays.modify rfl fun _ => rfl, FS.modify_field Inode.ref _ _ _ rfl j⟩⟩

/-- `ilock` of an entry of the table succeeds only on a held entry, which it leaves locked. -/
theorem Inv.ilock_ok (h : Inv s) (hN : ip < s.NINODE) (he : ilock s ip = .ok s') :
    Inv s' ∧ s'.locked ip := by
  have hr : ¬ (s.itable ip).ref < 1 := fun hlt => by
    unfold ilock at he; rw [if_pos hlt] at he; cases he
  obtain ⟨h', hl, -⟩ := h.of_ilock ⟨hN, by omega⟩ he
  exact ⟨h', hl⟩

theorem iunlock_ok (he : iunlock s ip = .ok s') : s' = s := by
  unfold iunlock at he
  split_ifs at he
  cases he
  rfl

theorem touch_frame (s : FS) (dp t c j : Nat) : Same s (s.touch dp t c) ∧ Stays j s (s.touch dp t c) ∧
    ((s.touch dp t c).itable j).ref = (s.itable j).ref :=
  ⟨⟨rfl, rfl⟩, ⟨FS.touch_inum s dp t c j, fun hv => by rwa [FS.touch_valid], rfl⟩,
    FS.touch_ref s dp t c j⟩

/-- `readi` of a locked entry touches it. -/
theorem Inv.readi_touch (h : Inv s) (hk : s.locked ip) {ok : Nat → Nat → Bool} {off n : Nat}
    {r : Int} {out : List UInt8} (hoff : off < 2 ^ 32) (hn : n < 2 ^ 32)
    (he : readi s ip ok off n = .ok (s', r, out)) : ∃ t c, s' = s.touch ip t c := by
  obtain ⟨t, c, r', out', e, -⟩ := h.readi_eq hk ok hoff hn
  rw [e] at he
  cases he
  exact ⟨t, c, rfl⟩

theorem Inv.writei_frame (h : Inv s) (hk : s.locked ip) {src : Nat → UInt8}
    {ok : Nat → Nat → Bool} {off n : Nat} {r : Int} (hoff : off < 2 ^ 32) (hn : n < 2 ^ 32)
    (hw : writei s ip src ok off n = .ok (s', r)) :
    Same s s' ∧ ∀ j, Stays j s s' ∧ (s'.itable j).ref = (s.itable j).ref := by
  rcases h.writei_cases hk hoff hn hw with ⟨rfl, -, -⟩ | ⟨-, -, d, x, c, tot, -, -, hwr, hx, rfl⟩
  · exact ⟨Same.refl _, fun j => ⟨Stays.refl j _, rfl⟩⟩
  · refine ⟨⟨rfl, rfl⟩, fun j => ⟨Stays.iupdate_write h hk { s with disk := d, mtimeClock := c }
      (fun e => { e with d := x }) hwr.dinode rfl rfl rfl (by rw [hx]) j, ?_⟩⟩
    rw [iupdate_itable]
    exact FS.modify_field Inode.ref _ _ _ rfl j

/-- `ip->nlink = v; iupdate(ip)`, and the same with the device numbers, on a locked entry. -/
theorem Inv.setMeta_frame (h : Inv s) (hk : s.locked ip) (g : DInode → DInode)
    (hg : (g (s.itable ip).d).type = (s.itable ip).d.type) (j : Nat) :
    Stays j s (iupdate (s.modify ip fun e => { e with d := g e.d }) ip) ∧
      ((iupdate (s.modify ip fun e => { e with d := g e.d }) ip).itable j).ref = (s.itable j).ref :=
  ⟨Stays.iupdate_write h hk s _ rfl rfl rfl rfl hg j, by
    rw [iupdate_itable]; exact FS.modify_field Inode.ref _ _ _ rfl j⟩

theorem Inv.itrunc_frame (h : Inv s) (hk : s.locked ip) (he : itrunc s ip = .ok s') :
    Same s s' ∧ ∀ j, Stays j s s' ∧ (s'.itable j).ref = (s.itable j).ref := by
  rw [h.itrunc_eq hk] at he
  cases he
  exact ⟨⟨rfl, rfl⟩, fun j => ⟨Stays.iupdate_write h hk { s with disk := s.disk.clear (treeBlocks s.disk (s.itable ip).d.addrs) }
    (fun e => { e with d := { e.d with addrs := clearAddrs (s.itable ip).d.addrs, size := 0 } })
    (Disk.clear_dinode _ _) rfl rfl rfl rfl j,
    by rw [iupdate_itable]; exact FS.modify_field Inode.ref _ _ _ rfl j⟩⟩

/-- `iput` of an entry of the table keeps the invariant; it takes one reference from the entry
it puts and keeps every other held entry, and the entry it puts too when a second reference
remains. -/
theorem Inv.iput_frame (h : Inv s) (hN : ip < s.NINODE) (he : iput s ip = .ok s') :
    Inv s' ∧ Same s s' ∧ ∀ j, s.held j → (j = ip → 2 ≤ (s.itable j).ref) →
      Stays j s s' ∧ (s'.itable j).ref = (s.itable j).ref - if j = ip then 1 else 0 := by
  unfold iput at he
  dsimp only at he
  by_cases hc : (s.itable ip).ref = 1 ∧ (s.itable ip).valid = true ∧ (s.itable ip).d.nlink = 0
  · have hl : s.locked ip := ⟨⟨hN, by omega⟩, hc.2.1⟩
    obtain ⟨s₁, e₁, h₁, hl₁, -, -⟩ := h.itrunc_ok hl
    rw [if_pos hc, e₁] at he
    cases he
    rw [h.itrunc_eq hl] at e₁
    cases e₁
    refine ⟨(h₁.of_free hl₁).of_decRef ip, ⟨by simp, by simp [FS.modify, iupdate]⟩,
      fun j hj hsp => ?_⟩
    have hji : j ≠ ip := by rintro rfl; have := hsp rfl; omega
    have hne : (s.itable j).inum ≠ (s.itable ip).inum := fun e => hji (h.uniq j ip hj hl.1 e)
    refine ⟨⟨?_, fun hv => ?_, ?_⟩, ?_⟩
    · simp [FS.modify_of_ne _ _ hji]
    · simpa [FS.modify_of_ne _ _ hji] using hv
    · simp [Function.update_noteq hne]
    · simp [FS.modify_of_ne _ _ hji, hji]
  · rw [if_neg hc] at he
    cases he
    refine ⟨h.of_decRef ip, ⟨rfl, rfl⟩, fun j _ _ => ⟨Stays.modify rfl id, ?_⟩⟩
    rw [FS.modify_apply]
    split_ifs with hj
    · subst hj; rfl
    · simp

theorem Inv.ialloc_frame (h : Inv s) {t : IType} {p : IPtr} (he : ialloc s t = .ok (s', p)) :
    Inv s' ∧ Same s s' ∧ (∀ k, p = .slot k → k < s.NINODE) ∧
      ∀ j, s.held j → s.disk.alloc (s.itable j).inum →
        Stays j s s' ∧ (s'.itable j).ref = (s.itable j).ref + if p = .slot j then 1 else 0 := by
  have hinv := (h.of_ialloc he).1
  unfold ialloc at he
  split_ifs at he
  · cases he
    exact ⟨hinv, Same.refl s, nofun, fun j _ _ => ⟨Stays.refl j s, by simp⟩⟩
  · cases hf : (List.range' 1 (s.sb.ninodes - 1)).find? fun inum => (s.disk.dinode inum).type = .free with
    | none =>
      rw [hf] at he
      cases he
      exact ⟨hinv, Same.refl s, nofun, fun j _ _ => ⟨Stays.refl j s, by simp⟩⟩
    | some inum =>
      rw [hf] at he
      obtain ⟨⟨s₂, k⟩, hg, he⟩ := bind_eq_ok he
      cases he
      have hfree := List.find?_some hf
      simp only [decide_eq_true_eq] at hfree
      obtain ⟨hS, hk, hj⟩ := iget_frame hg
      refine ⟨hinv, ⟨hS.N, hS.M⟩, fun k' e => by cases e; exact hk, fun j hh ha => ?_⟩
      have hne : (s.itable j).inum ≠ inum := fun e => ha (e ▸ hfree)
      have h₀ : Stays j s { s with disk := s.disk.setDinode inum (DInode.fresh t) } :=
        ⟨rfl, id, by simp [Function.update_noteq hne]⟩
      obtain ⟨h₁, hr⟩ := hj j hh.2
      refine ⟨h₀.trans h₁, ?_⟩
      rw [hr]
      simp [eq_comm]

end Ops

end Xv6.Fs
