import Mathlib.Logic.Relation
import Xv6Kernel.Fs.Calls

/-!
# The file system under its processes

The processes hold references to entries of the inode table: each its current directory
(`p->cwd`: `namei("/")` in `userinit`, `idup` of the parent's in `kfork`, put by `iput` in
`kexit`, moved by `sys_chdir`), and each file `sys_open` opened its inode (`f->ip`). A `World` is
the state of the file system with these references; `World.step` is one operation of a process,
on behalf of its current directory.

* `World.Inv`: the state is sane, every reference names an entry of the table, and each entry's
  `ref` is exactly the number of references the processes hold to it.
* `World.step_inv`: every operation keeps it, each call by its lemma of `Fs/Calls`, which says by
  how much the call moves each count (`Moves`): every call gives back each reference it takes but
  the one it hands to a new open file or to a new process, or moves from one directory to another.
* `world_refs_held`: every system a run reaches from the boot on a consistent image with no
  symbolic link keeps it, so every current directory and every opened inode is a held entry, and
  no entry counts a reference nobody holds.

`file.c` is not part of the sources: a file's reference is never given back here, and `kexit`
puts its current directory only; the files are counted all the same.
-/

namespace Xv6.Fs

/-- The file system with the references its processes hold to the inode table: the current
directory of each process and the inode of each file opened. -/
structure World where
  fs : FS
  cwds : List Nat
  files : List Nat

/-- Every reference the processes hold. -/
def World.holders (w : World) : List Nat := w.cwds ++ w.files

/-- `userinit`: the first process, its current directory `namei("/")`. -/
def userinit (s : FS) : Except Stop World := do
  let (s, cwd) ← namei s 0 (ascii "/")
  pure ⟨s, cwd.toList, []⟩

/-- One operation of a process whose current directory is `c`. -/
inductive World.step : World → World → Prop
  /-- `kfork`: the child's current directory is `idup(p->cwd)`. -/
  | kfork {w : World} {c : Nat} (hc : c ∈ w.cwds) :
      World.step w ⟨idup w.fs c, c :: w.cwds, w.files⟩
  /-- `kexit`: `iput(p->cwd)`. -/
  | kexit {w : World} {c : Nat} {s' : FS} (hc : c ∈ w.cwds) (he : iput w.fs c = .ok s') :
      World.step w ⟨s', w.cwds.erase c, w.files⟩
  | sys_chdir {w : World} {c : Nat} {s' : FS} {path : List UInt8} {c' : Nat} {r : Int}
      (hc : c ∈ w.cwds) (he : sys_chdir w.fs c path = .ok (s', c', r)) :
      World.step w ⟨s', c' :: w.cwds.erase c, w.files⟩
  | sys_open {w : World} {c : Nat} {s' : FS} {path : List UInt8} {omode : Nat}
      {fd : Option Nat} {r : Int} {f : Option Nat}
      (hc : c ∈ w.cwds) (he : sys_open w.fs c path omode fd = .ok (s', r, f)) :
      World.step w ⟨s', w.cwds, f.toList ++ w.files⟩
  | sys_mkdir {w : World} {c : Nat} {s' : FS} {path : List UInt8} {r : Int}
      (hc : c ∈ w.cwds) (he : sys_mkdir w.fs c path = .ok (s', r)) :
      World.step w ⟨s', w.cwds, w.files⟩
  | sys_mknod {w : World} {c : Nat} {s' : FS} {path : List UInt8} {major minor r : Int}
      (hc : c ∈ w.cwds) (he : sys_mknod w.fs c path major minor = .ok (s', r)) :
      World.step w ⟨s', w.cwds, w.files⟩
  | sys_link {w : World} {c : Nat} {s' : FS} {old new : List UInt8} {r : Int}
      (hc : c ∈ w.cwds) (he : sys_link w.fs c old new = .ok (s', r)) :
      World.step w ⟨s', w.cwds, w.files⟩
  | sys_unlink {w : World} {c : Nat} {s' : FS} {path : List UInt8} {r : Int}
      (hc : c ∈ w.cwds) (he : sys_unlink w.fs c path = .ok (s', r)) :
      World.step w ⟨s', w.cwds, w.files⟩
  | sys_symlink {w : World} {c : Nat} {s' : FS} {target linkpath : List UInt8} {r : Int}
      (hc : c ∈ w.cwds) (he : sys_symlink w.fs c target linkpath = .ok (s', r)) :
      World.step w ⟨s', w.cwds, w.files⟩
  | sys_readlink {w : World} {c : Nat} {s' : FS} {path : List UInt8} {ok : Nat → Nat → Bool}
      {n r : Int} {out : List UInt8}
      (hc : c ∈ w.cwds) (he : sys_readlink w.fs c path ok n = .ok (s', r, out)) :
      World.step w ⟨s', w.cwds, w.files⟩

/-- The invariant of the system: a sane file system, every reference an entry of the table, and
each entry's count the number of references the processes hold to it. -/
structure World.Inv (w : World) : Prop where
  sane : Sane w.fs
  bound : ∀ k ∈ w.holders, k < w.fs.NINODE
  count : ∀ k, (w.fs.itable k).ref = w.holders.count k

/-! ## Counting the references -/

section Count

variable {l : List Nat} {c k : Nat}

theorem count_cons_oneRef : ((c :: l).count k : Int) = l.count k + oneRef c k := by
  rw [List.count_cons]
  by_cases h : k = c
  · subst h; simp
  · simp [h, Ne.symm h]

theorem count_erase_oneRef (hc : c ∈ l) : ((l.erase c).count k : Int) = l.count k - oneRef c k := by
  rw [List.count_erase]
  by_cases h : k = c
  · subst h
    have := List.count_pos_iff.2 hc
    simp only [beq_self_eq_true, if_true, oneRef_self]
    omega
  · simp [h, Ne.symm h]

theorem count_toList_optRef (f : Option Nat) : (f.toList.count k : Int) = optRef f k := by
  cases f with
  | none => rfl
  | some c => simpa using count_cons_oneRef (l := []) (c := c) (k := k)

end Count

/-! ## One operation -/

section Step

variable {w w' : World} {δ : Nat → Int}

/-- A reference the processes hold is a held entry. -/
theorem World.Inv.held (h : w.Inv) {k : Nat} (hk : k ∈ w.holders) : w.fs.held k :=
  ⟨h.bound k hk, by rw [h.count k]; exact_mod_cast List.count_pos_iff.2 hk⟩

/-- A run whose moves of the counts are those of the processes' references keeps the invariant. -/
theorem World.Inv.of_moves (h : w.Inv) (m : Moves w.fs w'.fs δ)
    (hb : ∀ k ∈ w'.holders, k < w.fs.NINODE)
    (hc : ∀ k, (w'.holders.count k : Int) = w.holders.count k + δ k) : w'.Inv where
  sane := m.sane
  bound k hk := m.same.N ▸ hb k hk
  count k := by rw [m.ref, hc, h.count]

/-- A call that gives back every reference it takes. -/
theorem World.Inv.of_moves_zero (h : w.Inv) (m : Moves w.fs w'.fs 0)
    (hh : w'.holders = w.holders) : w'.Inv :=
  h.of_moves m (hh ▸ h.bound) fun k => by rw [hh, Pi.zero_apply, add_zero]

theorem World.step_inv (h : w.Inv) (hs : World.step w w') : w'.Inv := by
  have hcwd : ∀ {c}, c ∈ w.cwds → w.fs.held c := fun hc => h.held (List.mem_append_left _ hc)
  cases hs with
  | kfork hc =>
    refine h.of_moves (Step.idup h.sane (hcwd hc)).toMoves (fun k hk => ?_) fun k => ?_
    · rcases List.mem_cons.1 hk with rfl | hk
      · exact (hcwd hc).1
      · exact h.bound k hk
    · simp only [World.holders, List.cons_append, count_cons_oneRef]
  | kexit hc he =>
    refine h.of_moves (Step.iput h.sane (hcwd hc) he).toMoves
      (fun k hk => h.bound k (List.mem_append.2 ((List.mem_append.1 hk).imp_left
        (List.mem_of_mem_erase)))) fun k => ?_
    simp only [World.holders, List.count_append, Int.natCast_add, count_erase_oneRef hc, Pi.neg_apply]
    omega
  | sys_chdir hc he =>
    obtain ⟨m, hN⟩ := Moves.sys_chdir h.sane (hcwd hc) he
    refine h.of_moves m ?_ fun k => ?_
    · intro k hk
      simp only [World.holders, List.cons_append, List.mem_cons, List.mem_append] at hk
      rcases hk with rfl | hk | hk
      · exact hN
      · exact h.bound k (List.mem_append_left _ (List.mem_of_mem_erase hk))
      · exact h.bound k (List.mem_append_right _ hk)
    · simp only [World.holders, List.cons_append, count_cons_oneRef, List.count_append,
        Int.natCast_add, count_erase_oneRef hc, Pi.sub_apply]
      omega
  | sys_open hc he =>
    obtain ⟨m, hN⟩ := Moves.sys_open h.sane (hcwd hc) he
    refine h.of_moves m ?_ fun k => ?_
    · intro k hk
      simp only [World.holders, List.mem_append, Option.mem_toList] at hk
      rcases hk with hk | hk | hk
      · exact h.bound k (List.mem_append_left _ hk)
      · exact hN k hk
      · exact h.bound k (List.mem_append_right _ hk)
    · simp only [World.holders, List.count_append, Int.natCast_add, count_toList_optRef]
      omega
  | sys_mkdir hc he => exact h.of_moves_zero (Moves.sys_mkdir h.sane (hcwd hc) he) rfl
  | sys_mknod hc he => exact h.of_moves_zero (Moves.sys_mknod h.sane (hcwd hc) he) rfl
  | sys_link hc he => exact h.of_moves_zero (Moves.sys_link h.sane (hcwd hc) he) rfl
  | sys_unlink hc he => exact h.of_moves_zero (Moves.sys_unlink h.sane (hcwd hc) he) rfl
  | sys_symlink hc he => exact h.of_moves_zero (Moves.sys_symlink h.sane (hcwd hc) he) rfl
  | sys_readlink hc he => exact h.of_moves_zero (Moves.sys_readlink h.sane (hcwd hc) he).1 rfl

end Step

/-! ## Runs from the boot -/

section Runs

variable {s : FS} {w₀ w : World}

/-- A consistent image with no symbolic link is sane: its table is empty. -/
theorem Image.sane (hi : Image s) (hl : s.disk.noLinks) : Sane s :=
  ⟨hi.inv, hl, fun k => (hi.empty k).symm ▸ le_refl 0⟩

/-- `userinit` on such an image takes the one reference of the first process's directory. -/
theorem userinit_inv (hi : Image s) (hl : s.disk.noLinks) (he : userinit s = .ok w₀) : w₀.Inv := by
  obtain ⟨⟨s₁, cwd⟩, h1, he⟩ := bind_eq_ok he
  cases he
  obtain ⟨m, hN⟩ := Moves.namei (hi.sane hl) (fun h => absurd rfl h) h1
  refine (World.Inv.of_moves (w := ⟨s, [], []⟩) ⟨hi.sane hl, nofun, fun k => ?_⟩ m ?_ ?_)
  · rw [hi.empty k]; rfl
  · intro k hk
    simp only [World.holders, List.append_nil, Option.mem_toList] at hk
    exact hN k hk
  · intro k
    simp only [World.holders, List.append_nil, count_toList_optRef]
    simp

theorem World.reach_inv (h : w₀.Inv) (hr : Relation.ReflTransGen World.step w₀ w) : w.Inv := by
  induction hr with
  | refl => exact h
  | tail _ hs ih => exact World.step_inv ih hs

/-- On a system booted on a consistent image with no symbolic link, every run keeps the file
system sane, every reference of a process a held entry of the inode table, and each entry's count
exactly the number of references the processes hold to it. -/
theorem world_refs_held (hi : Image s) (hl : s.disk.noLinks) (he : userinit s = .ok w₀)
    (hr : Relation.ReflTransGen World.step w₀ w) :
    Sane w.fs ∧ (∀ k ∈ w.holders, w.fs.held k) ∧ ∀ k, (w.fs.itable k).ref = w.holders.count k :=
  have h := World.reach_inv (userinit_inv hi hl he) hr
  ⟨h.sane, fun _ hk => h.held hk, h.count⟩

/-- The system booted on `rootImage`: the first process forks, and the child makes `/p` and
moves into it, table entry 1. -/
theorem world_refs_held_rootImage :
    ∃ w₀ w, userinit rootImage = .ok w₀ ∧ Relation.ReflTransGen World.step w₀ w ∧
      w.cwds = [1, 0] ∧ Sane w.fs ∧
      (∀ k ∈ w.holders, w.fs.held k) ∧ ∀ k, (w.fs.itable k).ref = w.holders.count k :=
    by
  have hr : Relation.ReflTransGen World.step
      ⟨rootImage.modify 0 fun e => { e with inum := ROOTINO, ref := 1 }, [0], []⟩ _ :=
    .tail (.tail (.single (.kfork (c := 0) (List.mem_singleton_self 0)))
      (@World.step.sys_mkdir _ 0 _ (ascii "/p") _ (List.mem_cons_self 0 _) rfl))
      (@World.step.sys_chdir _ 0 _ (ascii "/p") _ _ (List.mem_cons_self 0 _) rfl)
  exact ⟨_, _, rfl, hr, rfl, world_refs_held rootImage_image (Disk.direct_noLinks (by decide)) rfl hr⟩

end Runs

end Xv6.Fs
