import Mathlib.Algebra.Ring.Int.Defs
import Xv6Kernel.Fs.Resolve

/-!
# Reference counts along a file-system call

A file-system call takes references to table entries (`iget`, `idup`, the walk of `namex`) and
puts them back (`iput`, `iunlockput`), locking entries in between. This module follows a call
from a `Sane` state (the invariant of the inode layer, no symbolic link on disk, no count below
zero) through the table operations it makes.

* `Moves s s' δ`: a run that ends sane, keeps the sizes of the table and the path buffer, and moves
  the count of entry `j` by `δ j`. `Step` adds that a locked entry still held at the end is still
  locked; it holds of each table operation, and of a run that never puts an entry it did not take.
* `Step.iget`, `Step.iput`, `Step.ilock`, `Step.writei`, …: one lemma per operation, each from
  the invariant lemma of the operation; the disk never gains a link, since every dinode written is
  a locked entry's copy, a fresh dinode of a type `ialloc` accepts, or a freed one.
* `Step.dirlookup`, `Step.dirlink`, `Moves.namex`: the lookups. A walk of `namex` on a disk with no
  link moves only the count of the entry it returns.
-/

namespace Xv6.Fs

/-! ## Sane states and moves of the counts -/

/-- A state a file-system call runs in: the invariant of the inode layer, no symbolic link on
disk, and no reference count below zero. -/
structure Sane (s : FS) : Prop where
  inv : Inv s
  links : s.disk.noLinks
  refs : ∀ j, 0 ≤ (s.itable j).ref

/-- One reference to entry `k`. -/
def oneRef (k j : Nat) : Int := if j = k then 1 else 0

/-- One reference to the entry a lookup returns, if it returns one. -/
def optRef : Option Nat → Nat → Int
  | none => 0
  | some k => oneRef k

/-- A run of table operations from `s` to `s'`: it ends in a sane state, keeps the sizes of the
table and of the path buffer, and moves the count of entry `j` by `δ j`. -/
structure Moves (s s' : FS) (δ : Nat → Int) : Prop where
  sane : Sane s'
  same : Same s s'
  ref : ∀ j, (s'.itable j).ref = (s.itable j).ref + δ j

/-- A run that moreover leaves locked every entry locked at its start that it leaves held. -/
structure Step (s s' : FS) (δ : Nat → Int) extends Moves s s' δ : Prop where
  locks : ∀ j, s.locked j → s'.held j → s'.locked j

@[simp] theorem oneRef_self (k : Nat) : oneRef k k = 1 := if_pos rfl

@[simp] theorem oneRef_of_ne {k j : Nat} (h : j ≠ k) : oneRef k j = 0 := if_neg h

theorem oneRef_nonneg (k j : Nat) : 0 ≤ oneRef k j := by
  unfold oneRef; split_ifs <;> decide

theorem optRef_nonneg (r : Option Nat) (j : Nat) : 0 ≤ optRef r j := by
  cases r
  · exact le_refl 0
  · exact oneRef_nonneg _ _

section Runs

variable {s s₁ s₂ s' : FS} {δ δ₁ δ₂ : Nat → Int} {j : Nat}

theorem Moves.refl (h : Sane s) : Moves s s 0 := ⟨h, Same.refl s, fun _ => (add_zero _).symm⟩

theorem Moves.trans (h₁ : Moves s s₁ δ₁) (h₂ : Moves s₁ s₂ δ₂) : Moves s s₂ (δ₁ + δ₂) :=
  ⟨h₂.sane, h₁.same.trans h₂.same, fun j => by rw [h₂.ref, h₁.ref, Pi.add_apply, add_assoc]⟩

theorem Moves.congr (h : Moves s s' δ₁) (e : ∀ j, δ₁ j = δ₂ j) : Moves s s' δ₂ :=
  ⟨h.sane, h.same, fun j => by rw [h.ref, e]⟩

/-- An entry of the table that ends the run with a reference is held. -/
theorem Moves.held (h : Moves s s' δ) (hN : j < s.NINODE) (hr : 0 < (s.itable j).ref + δ j) :
    s'.held j :=
  ⟨by rw [h.same.N]; exact hN, by rw [h.ref]; exact hr⟩

theorem Step.congr (h : Step s s' δ₁) (e : ∀ j, δ₁ j = δ₂ j) : Step s s' δ₂ :=
  ⟨h.toMoves.congr e, h.locks⟩

theorem Step.refl (h : Sane s) : Step s s 0 := ⟨Moves.refl h, fun _ _ hh => ⟨hh, ‹s.locked _›.2⟩⟩

/-- Two runs compose when the first takes references only: every entry locked at the start is
still held, so still locked, in between. -/
theorem Step.trans (h₁ : Step s s₁ δ₁) (h₂ : Step s₁ s₂ δ₂) (hδ : ∀ j, 0 ≤ δ₁ j) :
    Step s s₂ (δ₁ + δ₂) :=
  ⟨h₁.toMoves.trans h₂.toMoves, fun j hj hh => h₂.locks j
    (h₁.locks j hj (h₁.held hj.1.1 (by have := hj.1.2; have := hδ j; omega))) hh⟩

/-- A run that does not lower an entry's count keeps it locked. -/
theorem Step.locked (h : Step s s' δ) (hj : s.locked j) (hδ : 0 ≤ δ j) : s'.locked j :=
  h.locks j hj (h.held hj.1.1 (by have := hj.1.2; omega))

end Runs

/-! ## The table operations -/

theorem Disk.noLinks.setDinode {d : Disk} (hl : d.noLinks) (i : Nat) {x : DInode}
    (hx : x.type ≠ .symlink) : (d.setDinode i x).noLinks := fun j => by
  simp only [Disk.setDinode_dinode, Function.update_apply]
  split_ifs
  exacts [hx, hl j]

section Ops

variable {s s' : FS} {ip k : Nat}

/-- A locked entry of a sane state is no link: its copy agrees with its dinode. -/
theorem Sane.type_ne (h : Sane s) (hk : s.locked ip) : (s.itable ip).d.type ≠ .symlink := by
  rw [(h.inv.coh ip hk).1.type]
  exact h.links _

/-- A change of the table alone that keeps every entry's flag, and takes a reference only where it
adds one, is a step. -/
theorem Step.of_table (h : Sane s) (hi : Inv s') (hd : s'.disk = s.disk) (hs : Same s s')
    (hv : ∀ j, (s'.itable j).valid = (s.itable j).valid) {δ : Nat → Int} (hδ : ∀ j, 0 ≤ δ j)
    (hr : ∀ j, (s'.itable j).ref = (s.itable j).ref + δ j) : Step s s' δ :=
  ⟨⟨⟨hi, by rw [hd]; exact h.links, fun j => by rw [hr]; have := h.refs j; have := hδ j; omega⟩,
    hs, hr⟩, fun j hj hh => ⟨hh, by rw [hv]; exact hj.2⟩⟩

theorem Step.idup (h : Sane s) (hk : s.held ip) : Step s (idup s ip) (oneRef ip) :=
  Step.of_table h (h.inv.of_idup hk) rfl ⟨rfl, rfl⟩ (FS.modify_field Inode.valid _ _ _ rfl)
    (oneRef_nonneg ip) fun j => (idup_frame ip j).2.2

theorem Step.iget (h : Sane s) {inum : Nat} (he : iget s inum = .ok (s', k)) :
    Step s s' (oneRef k) ∧ k < s.NINODE := by
  obtain ⟨hk, ⟨hr, -, rfl⟩ | ⟨hr, -, rfl⟩⟩ := iget_cases he
  · refine ⟨Step.of_table h (h.inv.of_iget he).1 rfl ⟨rfl, rfl⟩
      (FS.modify_field Inode.valid _ _ _ rfl) (oneRef_nonneg k) fun j => ?_, hk⟩
    rw [FS.modify_apply, oneRef]
    split_ifs with hj
    · subst hj; rfl
    · simp
  · refine ⟨⟨⟨⟨(h.inv.of_iget he).1, h.links, fun j => ?_⟩, ⟨rfl, rfl⟩, fun j => ?_⟩,
      fun j hj hh => ⟨hh, ?_⟩⟩, hk⟩
    · rw [FS.modify_apply]; split_ifs
      · exact (by decide : (0 : Int) ≤ 1)
      · exact h.refs j
    · rw [FS.modify_apply, oneRef]; split_ifs with hj
      · subst hj; simp [hr]
      · simp
    · have hjk : j ≠ k := by rintro rfl; have := hj.1.2; omega
      rw [FS.modify_of_ne _ _ hjk]
      exact hj.2

theorem Step.ilock (h : Sane s) (hN : ip < s.NINODE) (he : ilock s ip = .ok s') :
    Step s s' 0 ∧ s'.locked ip := by
  obtain ⟨hs, hst⟩ := ilock_frame he
  obtain ⟨hi, hl⟩ := h.inv.ilock_ok hN he
  refine ⟨⟨⟨⟨hi, by rw [ilock_disk he]; exact h.links, fun j => by rw [(hst j).2]; exact h.refs j⟩,
    hs, fun j => by rw [(hst j).2]; simp⟩, fun j hj hh => ⟨hh, (hst j).1.valid hj.2⟩⟩, hl⟩

theorem Step.touch (h : Sane s) (hk : s.locked ip) (t c : Nat) : Step s (s.touch ip t c) 0 :=
  Step.of_table h (h.inv.touch hk t c) rfl ⟨rfl, rfl⟩ (FS.touch_valid s ip t c) (fun _ => le_refl 0)
    fun j => by rw [FS.touch_ref]; simp

/-- `iput` of a held entry takes one reference from it; a dinode it frees becomes free. -/
theorem Step.iput (h : Sane s) (hk : s.held ip) (he : iput s ip = .ok s') :
    Step s s' (-oneRef ip) := by
  obtain ⟨hi, hs, hst⟩ := h.inv.iput_frame hk.1 he
  have hr : ∀ j, (s'.itable j).ref = (s.itable j).ref + -oneRef ip j := fun j => by
    by_cases hc : (s.itable ip).ref = 1 ∧ (s.itable ip).valid = true ∧ (s.itable ip).d.nlink = 0
    · obtain ⟨s'', e, -, -, -, -, hj⟩ := h.inv.iput_free ⟨hk, hc.2.1⟩ ⟨hc.1, hc.2.2⟩
      rw [he] at e
      cases e
      rw [(hj j).2, oneRef]
      split_ifs with hji
      · subst hji; omega
      · simp
    · rw [iput_keep hc] at he
      cases he
      rw [FS.modify_apply, oneRef]
      split_ifs with hji
      · subst hji; simp [sub_eq_add_neg]
      · simp
  refine ⟨⟨⟨hi, ?_, fun j => ?_⟩, hs, hr⟩, fun j hj hh => ⟨hh, ?_⟩⟩
  · exact (h.inv.iunlockput_noLinks hk.1 h.links (by rw [iunlockput, iunlock_eq hk]; exact he)).2.1
  · rw [hr, oneRef]
    have := h.refs j
    have := hk.2
    split_ifs with hji
    · subst hji; omega
    · omega
  · refine (hst j hj.1 fun e => ?_).1.valid hj.2
    subst e
    have := hh.2
    rw [hr, oneRef_self] at this
    omega

theorem Step.iunlockput (h : Sane s) (hk : s.held ip) (he : iunlockput s ip = .ok s') :
    Step s s' (-oneRef ip) := by
  obtain ⟨s₁, hu, hp⟩ := bind_eq_ok he
  obtain rfl := iunlock_ok hu
  exact Step.iput h hk hp

/-- A write-back of a locked entry's copy that keeps its type and whose other dinodes are those of
`s`: the table moves as `hr` says, the disk gains no link. -/
theorem Step.of_writeBack (h : Sane s) (hk : s.locked ip) (hi : Inv s') (hs : Same s s')
    (hst : ∀ j, Stays j s s' ∧ (s'.itable j).ref = (s.itable j).ref) {d : Disk} {x : DInode}
    (he : s'.disk = d.setDinode (s.itable ip).inum x) (hd : d.dinode = s.disk.dinode)
    (hx : x.type = (s.itable ip).d.type) : Step s s' 0 := by
  have hl : s'.disk.noLinks := by
    rw [he]
    exact Disk.noLinks.setDinode (fun i => by rw [hd]; exact h.links i) _ (hx ▸ h.type_ne hk)
  exact ⟨⟨⟨hi, hl, fun j => by rw [(hst j).2]; exact h.refs j⟩, hs, fun j => by rw [(hst j).2]; simp⟩,
    fun j hj hh => ⟨hh, (hst j).1.valid hj.2⟩⟩

theorem Step.writei (h : Sane s) (hk : s.locked ip) {src : Nat → UInt8} {ok : Nat → Nat → Bool}
    {off n : Nat} {r : Int} (hoff : off < 2 ^ 32) (hn : n < 2 ^ 32)
    (he : writei s ip src ok off n = .ok (s', r)) : Step s s' 0 := by
  obtain ⟨hs, hst⟩ := h.inv.writei_frame hk hoff hn he
  rcases h.inv.writei_cases hk hoff hn he with ⟨rfl, -, -⟩ | ⟨-, -, d, x, c, tot, -, -, hwr, hx, rfl⟩
  · exact Step.refl h
  · exact Step.of_writeBack h hk (h.inv.of_writei hk hoff hn he) hs hst (x := x) (by simp) hwr.dinode
      (by rw [hx])

theorem Step.itrunc (h : Sane s) (hk : s.locked ip) (he : itrunc s ip = .ok s') : Step s s' 0 := by
  obtain ⟨hs, hst⟩ := h.inv.itrunc_frame hk he
  have hi := h.inv.of_itrunc hk he
  rw [h.inv.itrunc_eq hk] at he
  cases he
  exact Step.of_writeBack h hk hi hs hst
    (x := { (s.itable ip).d with addrs := clearAddrs (s.itable ip).d.addrs, size := 0 })
    (d := s.disk.clear (treeBlocks s.disk (s.itable ip).d.addrs)) (by simp) (Disk.clear_dinode _ _) rfl

theorem Step.setMeta (h : Sane s) (hk : s.locked ip) (g : DInode → DInode)
    (hty : (g (s.itable ip).d).type = (s.itable ip).d.type)
    (haddr : (g (s.itable ip).d).addrs = (s.itable ip).d.addrs)
    (hsize : (g (s.itable ip).d).size = (s.itable ip).d.size) :
    Step s (iupdate (s.modify ip fun e => { e with d := g e.d }) ip) 0 :=
  Step.of_writeBack h hk (h.inv.of_setMeta hk g hty haddr hsize) ⟨rfl, rfl⟩
    (fun j => h.inv.setMeta_frame hk g hty j) (x := g (s.itable ip).d) (by simp) rfl hty

theorem Step.setNlink (h : Sane s) (hk : s.locked ip) (v : Int) : Step s (setNlink s ip v) 0 :=
  Step.setMeta h hk (fun d => { d with nlink := v }) rfl rfl rfl

theorem Step.readi (h : Sane s) (hk : s.locked ip) {ok : Nat → Nat → Bool} {off n : Nat} {r : Int}
    {out : List UInt8} (hoff : off < 2 ^ 32) (hn : n < 2 ^ 32)
    (he : readi s ip ok off n = .ok (s', r, out)) : Step s s' 0 := by
  obtain ⟨t, c, rfl⟩ := h.inv.readi_touch hk hoff hn he
  exact Step.touch h hk t c

/-- One reference to the entry `ialloc` returns, if it returns one. -/
def ptrRef : IPtr → Nat → Int
  | .slot k => oneRef k
  | .err _ => 0

theorem ptrRef_nonneg (p : IPtr) (j : Nat) : 0 ≤ ptrRef p j := by
  cases p
  · exact oneRef_nonneg _ _
  · exact le_refl 0

/-- `ialloc` writes a fresh dinode of a type it accepts, none of them a link, over a free one, and
takes a reference to the entry it returns. -/
theorem Step.ialloc (h : Sane s) {t : IType} {p : IPtr} (he : ialloc s t = .ok (s', p)) :
    Step s s' (ptrRef p) ∧ ∀ k, p = .slot k → k < s.NINODE := by
  refine ⟨?_, (h.inv.ialloc_frame he).2.2.1⟩
  unfold Fs.ialloc at he
  split_ifs at he with ht
  · cases he; exact Step.refl h
  cases hf : (List.range' 1 (s.sb.ninodes - 1)).find? fun inum => (s.disk.dinode inum).type = .free with
  | none => rw [hf] at he; cases he; exact Step.refl h
  | some inum =>
    rw [hf] at he
    obtain ⟨⟨s₂, k⟩, hg, he⟩ := bind_eq_ok he
    cases he
    have hfree := List.find?_some hf
    simp only [decide_eq_true_eq] at hfree
    have h₀ : Step s { s with disk := s.disk.setDinode inum (DInode.fresh t) } 0 :=
      ⟨⟨⟨h.inv.of_fresh hfree rfl (nodeAddr_zero_addrs s.disk),
        h.links.setDinode inum fun e => ht (by cases e; exact ⟨by decide, by decide, by decide⟩),
        h.refs⟩, ⟨rfl, rfl⟩, fun j => (add_zero _).symm⟩, fun j hj hh => ⟨hh, hj.2⟩⟩
    exact (h₀.trans (Step.iget h₀.sane hg).1 fun _ => le_refl 0).congr fun j => zero_add _

end Ops

/-! ## Lookups -/

section Lookups

variable {s s' : FS} {dp : Nat}

/-- A scan stops at an offset that fits a `uint`: it moves on by `u32(off + sizeof(de))`. -/
theorem dirScan_off_lt {msg : String} {stop : Dirent → Bool} :
    ∀ {fuel : Nat} {s s' : FS} {off off' : Nat} {de : Option Dirent}, off < 2 ^ 32 →
      dirScan dp msg stop fuel s off = .ok (s', off', de) → off' < 2 ^ 32
  | 0, _, _, _, _, _, hoff, he => by cases he; exact hoff
  | fuel + 1, s, _, off, _, _, hoff, he => by
    unfold dirScan at he
    split_ifs at he
    · split at he
      · cases he
      · split_ifs at he
        · cases he; exact hoff
        · exact dirScan_off_lt (Nat.mod_lt _ (by decide)) he
    · cases he; exact hoff

/-- A scan of a locked directory touches it. -/
theorem Step.dirScan (h : Sane s) (hk : s.locked dp) {msg : String} {stop : Dirent → Bool}
    {fuel off off' : Nat} {de : Option Dirent} (hoff : off < 2 ^ 32)
    (he : Fs.dirScan dp msg stop fuel s off = .ok (s', off', de)) : Step s s' 0 ∧ off' < 2 ^ 32 := by
  obtain ⟨t, c, rfl⟩ := dirScan_touch h.inv hk hoff he
  exact ⟨Step.touch h hk t c, dirScan_off_lt hoff he⟩

/-- `dirlookup` in a locked directory takes a reference to the entry it returns, at an offset
that fits a `uint`. -/
theorem Step.dirlookup (h : Sane s) (hk : s.locked dp) {name : List UInt8}
    {r : Option (Nat × Nat)} (he : Fs.dirlookup s dp name = .ok (s', r)) :
    Step s s' (optRef (r.map Prod.fst)) ∧ ∀ k off, r = some (k, off) → k < s.NINODE ∧ off < 2 ^ 32 := by
  unfold Fs.dirlookup at he
  split_ifs at he
  obtain ⟨⟨s₁, off, de⟩, hs, he⟩ := bind_eq_ok he
  obtain ⟨h₁, hoff⟩ := Step.dirScan h hk (by decide) hs
  cases de with
  | none => cases he; exact ⟨h₁, nofun⟩
  | some de =>
    obtain ⟨⟨s₂, k⟩, hg, he⟩ := bind_eq_ok he
    cases he
    obtain ⟨h₂, hkN⟩ := Step.iget h₁.sane hg
    refine ⟨(h₁.trans h₂ fun _ => le_refl 0).congr fun j => zero_add _, ?_⟩
    rintro k' off' ⟨⟩
    exact ⟨h₁.same.N ▸ hkN, hoff⟩

theorem Step.isdirempty (h : Sane s) (hk : s.locked dp) {b : Bool}
    (he : Fs.isdirempty s dp = .ok (s', b)) : Step s s' 0 := by
  obtain ⟨⟨s₁, off, de⟩, hs, he⟩ := bind_eq_ok he
  cases he
  exact (Step.dirScan h hk (by decide) hs).1

/-- `dirlink` in a locked directory puts back the entry its `dirlookup` takes. -/
theorem Step.dirlink (h : Sane s) (hk : s.locked dp) {name : List UInt8} {inum : Nat} {r : Int}
    (he : Fs.dirlink s dp name inum = .ok (s', r)) : Step s s' 0 := by
  obtain ⟨⟨s₁, found⟩, hl, he⟩ := bind_eq_ok he
  obtain ⟨h₁, hb⟩ := Step.dirlookup h hk hl
  cases found with
  | some f =>
    obtain ⟨ip, off⟩ := f
    obtain ⟨s₂, hp, he⟩ := bind_eq_ok he
    cases he
    have hip : s₁.held ip := h₁.held (hb ip off rfl).1 (by
      have := h.refs ip; simp only [Option.map_some', optRef, oneRef_self]; omega)
    exact (h₁.trans (Step.iput h₁.sane hip hp) (optRef_nonneg _)).congr fun j => by
      simp only [Pi.add_apply, Pi.neg_apply, Pi.zero_apply, Option.map_some', optRef]; omega
  | none =>
    have hk₁ : s₁.locked dp := h₁.locked hk (le_refl 0)
    obtain ⟨⟨s₂, off, de⟩, hs, he⟩ := bind_eq_ok he
    obtain ⟨⟨s₃, w⟩, hw, he⟩ := bind_eq_ok he
    cases he
    obtain ⟨h₂, hoff⟩ := Step.dirScan h₁.sane hk₁ (by decide) hs
    have h₃ := Step.writei h₂.sane (h₂.locked hk₁ (le_refl 0)) hoff (by decide) hw
    exact ((h₁.trans h₂ fun _ => le_refl 0).trans h₃ fun _ => le_refl 0).congr fun j => by
      simp [optRef]

end Lookups


/-! ## The walk of `namex` -/

section Walk

/-- The rounds of `namex` on a disk with no link never follow one: from a held entry `ip` of a
sane state, the walk ends sane, its reference moved from `ip` to the entry it returns. -/
theorem Moves.namexLoop (parent : Bool) : ∀ (fuel : Nat) {s s' : FS} {ip depth : Nat}
    {path name name' : List UInt8} {r : Option Nat}, Sane s → s.held ip →
    Fs.namexLoop parent fuel s ip depth path name = .ok (s', r, name') →
    Moves s s' (optRef r - oneRef ip) ∧ ∀ k, r = some k → k < s.NINODE
  | 0, s, _, ip, _, _, _, _, _, h, hk, he => by
    cases he
    exact ⟨(Moves.refl h).congr fun j => by simp [optRef], fun k e => by cases e; exact hk.1⟩
  | fuel + 1, s, s', ip, depth, path, name, name', r, h, hk, he => by
    unfold Fs.namexLoop at he
    cases hp : skipelem path with
    | none =>
      simp only [hp] at he
      split_ifs at he
      · obtain ⟨s₁, hu, he⟩ := bind_eq_ok he
        cases he
        exact ⟨(Step.iput h hk hu).toMoves.congr fun j => by simp [optRef], nofun⟩
      · cases he
        exact ⟨(Moves.refl h).congr fun j => by simp [optRef], fun k e => by cases e; exact hk.1⟩
    | some pe =>
      obtain ⟨path', e⟩ := pe
      simp only [hp] at he
      obtain ⟨s₁, hl, he⟩ := bind_eq_ok he
      obtain ⟨h₁, hk₁⟩ := Step.ilock h hk.1 hl
      by_cases hdir : (s₁.itable ip).d.type ≠ .dir
      · rw [if_pos hdir] at he
        obtain ⟨s₂, hu, he⟩ := bind_eq_ok he
        cases he
        exact ⟨(h₁.toMoves.trans (Step.iunlockput h₁.sane hk₁.1 hu).toMoves).congr fun j => by
          simp [optRef], nofun⟩
      rw [if_neg hdir] at he
      by_cases hpar : parent = true ∧ path' = []
      · rw [if_pos hpar, iunlock_eq hk₁.1, ok_bind] at he
        cases he
        exact ⟨h₁.toMoves.congr fun j => by simp [optRef], fun k e => by cases e; exact hk.1⟩
      rw [if_neg hpar] at he
      obtain ⟨⟨s₂, next⟩, hd, he⟩ := bind_eq_ok he
      obtain ⟨h₂, hb⟩ := Step.dirlookup h₁.sane hk₁ hd
      cases next with
      | none =>
        obtain ⟨s₃, hu, he⟩ := bind_eq_ok he
        cases he
        exact ⟨((h₁.toMoves.trans h₂.toMoves).trans
          (Step.iunlockput h₂.sane (h₂.locked hk₁ (le_refl 0)).1 hu).toMoves).congr fun j => by
            simp [optRef], nofun⟩
      | some no =>
        obtain ⟨nx, off⟩ := no
        obtain ⟨s₃, hu, he⟩ := bind_eq_ok he
        have h₃ := Step.iunlockput h₂.sane (h₂.locked hk₁ (optRef_nonneg _ ip)).1 hu
        have m₃ := (h₁.toMoves.trans h₂.toMoves).trans h₃.toMoves
        obtain ⟨s₄, hl₄, he⟩ := bind_eq_ok he
        obtain ⟨h₄, hk₄⟩ := Step.ilock h₃.sane
          (by rw [h₃.same.N, h₂.same.N]; exact (hb nx off rfl).1) hl₄
        rw [if_neg (h₄.sane.type_ne hk₄), iunlock_eq hk₄.1, ok_bind] at he
        obtain ⟨h₅, hb₅⟩ := Moves.namexLoop parent fuel h₄.sane hk₄.1 he
        have m₄ := m₃.trans h₄.toMoves
        refine ⟨(m₄.trans h₅).congr fun j => ?_, fun k e => m₄.same.N ▸ hb₅ k e⟩
        simp only [Pi.add_apply, Pi.sub_apply, Pi.neg_apply, Pi.zero_apply, Option.map_some', optRef]
        omega

variable {s s' : FS} {cwd : Nat} {path : List UInt8}

/-- `namex` on a sane state, from a current directory held if the path is relative, takes one
reference: to the entry it returns. -/
theorem Moves.namex (h : Sane s) (hc : path.headD 0 ≠ slash → s.held cwd) {parent : Bool}
    {r : Option Nat}
    {name : List UInt8} (he : Fs.namex s cwd path parent = .ok (s', r, name)) :
    Moves s s' (optRef r) ∧ ∀ k, r = some k → k < s.NINODE := by
  rw [namex_eq] at he
  split_ifs at he with _ hsl
  · cases he; exact ⟨Moves.refl h, nofun⟩
  all_goals
    obtain ⟨⟨s₀, ip⟩, hg, he⟩ := bind_eq_ok he
  · obtain ⟨h₀, hN⟩ := Step.iget h hg
    obtain ⟨h₁, hb⟩ := Moves.namexLoop parent _ h₀.sane (h₀.held hN (by
      have := h.refs ip; simp only [oneRef_self]; omega)) he
    exact ⟨(h₀.toMoves.trans h₁).congr fun j => by simp only [Pi.add_apply, Pi.sub_apply]; omega,
      fun k e => h₀.same.N ▸ hb k e⟩
  · cases hg
    have h₀ := Step.idup h (hc hsl)
    obtain ⟨h₁, hb⟩ := Moves.namexLoop parent _ h₀.sane (h₀.held (hc hsl).1 (by
      have := (hc hsl).2; simp only [oneRef_self]; omega)) he
    exact ⟨(h₀.toMoves.trans h₁).congr fun j => by simp only [Pi.add_apply, Pi.sub_apply]; omega,
      fun k e => h₀.same.N ▸ hb k e⟩

theorem Moves.namei (h : Sane s) (hc : path.headD 0 ≠ slash → s.held cwd) {r : Option Nat}
    (he : Fs.namei s cwd path = .ok (s', r)) :
    Moves s s' (optRef r) ∧ ∀ k, r = some k → k < s.NINODE := by
  unfold Fs.namei at he
  cases hx : Fs.namex s cwd path false with
  | error => rw [hx] at he; cases he
  | ok q =>
    rw [hx] at he
    cases he
    exact Moves.namex h hc hx

end Walk

end Xv6.Fs
