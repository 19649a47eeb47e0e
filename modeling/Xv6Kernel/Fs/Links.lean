import Xv6Kernel.Fs.Syscall

/-!
# Links and names

The laws that tie the link counts and the directory tree to the records on disk. An inode's
links are the records naming it in the directories that still have links, a directory's own `.`
apart; its names are the live records naming it other than `.` and `..`. `LinkCounts` says that
every allocated dinode's `nlink` is its number of links, `NamedOnce` that every directory with
links other than the root has exactly one name.

* `Inv.records_eq`, `Inv.isdirempty_records`: the records of a locked directory are those its
  dinode holds on disk, and `isdirempty` says whether every one past `.` and `..` is free.
* `create_in_unlinked_cwd`, `mkdir_in_unlinked_cwd_unnamed`: `create` does not ask whether the
  parent directory still has links, so a process whose current directory was unlinked can make a
  directory inside it: the parent's link count comes back from 0, its `..` record counts again
  for the directory above, whose `nlink` it never raised, and a directory with links that no
  record names appears.
-/

namespace Xv6.Fs

/-! ## Links and names of an inode -/

/-- Whether record `de` of directory `i` is a link to `x`: it names `x` and is not the
directory's own `.`. -/
def Dirent.linksTo (i x : Nat) (de : Dirent) : Bool :=
  de.inum == x && !(x == i && namecmp de.name (ascii ".") == 0)

/-- Whether record `de` is a name of `x`: it names `x` and is neither `.` nor `..`. -/
def Dirent.names (x : Nat) (de : Dirent) : Bool :=
  de.inum == x && namecmp de.name (ascii ".") != 0 && namecmp de.name (ascii "..") != 0

/-- Whether dinode `i` is a directory with links, one whose records count. -/
def Disk.liveDir (d : Disk) (i : Nat) : Bool :=
  (d.dinode i).type == .dir && decide (0 < (d.dinode i).nlink)

/-- The records that `p i` accepts in the directories with links among dinodes `0 .. n - 1`. -/
def Disk.countIn (d : Disk) (n : Nat) (p : Nat → Dirent → Bool) : Nat :=
  ((List.range n).map fun i =>
    if d.liveDir i then (d.records (d.dinode i)).countP (p i) else 0).sum

/-- The links to inode `x`. -/
def Disk.linkCount (d : Disk) (n x : Nat) : Nat := d.countIn n fun i => Dirent.linksTo i x

/-- The names of inode `x`. -/
def Disk.nameCount (d : Disk) (n x : Nat) : Nat := d.countIn n fun _ => Dirent.names x

/-- The link-count law: every allocated dinode's `nlink` is its number of links. -/
def LinkCounts (s : FS) : Prop :=
  ∀ x < s.sb.ninodes, s.disk.alloc x → (s.disk.dinode x).nlink = s.disk.linkCount s.sb.ninodes x

/-- Every directory with links other than the root has exactly one name. -/
def NamedOnce (s : FS) : Prop :=
  ∀ x < s.sb.ninodes, s.disk.liveDir x = true → x ≠ ROOTINO → s.disk.nameCount s.sb.ninodes x = 1

instance : DecidablePred LinkCounts := fun _ => inferInstanceAs (Decidable (∀ x < _, _))

instance : DecidablePred NamedOnce := fun _ => inferInstanceAs (Decidable (∀ x < _, _))

/-! ## The records a scan reads -/

section Records

variable {s : FS} {dp : Nat}

/-- The records of a locked directory, read through its entry, are those of its dinode. -/
theorem Inv.records_eq (h : Inv s) (hk : s.locked dp) :
    s.disk.records (s.disk.dinode (s.itable dp).inum) =
      (List.range ((s.itable dp).d.size / direntSize)).map (s.record dp) := by
  have ha := (h.coh dp hk).1
  have hsize : (s.disk.dinode (s.itable dp).inum).size = (s.itable dp).d.size :=
    (congrArg DInode.size ha).symm
  have haddrs : (s.disk.dinode (s.itable dp).inum).addrs = (s.itable dp).d.addrs :=
    (congrArg DInode.addrs ha).symm
  simp only [Disk.records, hsize, haddrs]
  rfl

/-- `isdirempty` of a locked directory whose size is a multiple of the record size says whether
every record of its dinode past `.` and `..` is free. -/
theorem Inv.isdirempty_records (h : Inv s) (hk : s.locked dp)
    (hal : (s.itable dp).d.size % direntSize = 0) :
    ∃ t c b, isdirempty s dp = .ok (s.touch dp t c, b) ∧
      (b = true ↔ ∀ de ∈ (s.disk.records (s.disk.dinode (s.itable dp).inum)).drop 2, de.inum = 0) := by
  obtain ⟨t, c, b, e, hb⟩ := h.isdirempty_exact hk hal
  refine ⟨t, c, b, e, hb.trans ⟨fun hall de hde => ?_, fun hall i h₂ hn => ?_⟩⟩
  · rw [h.records_eq hk, ← List.map_drop] at hde
    obtain ⟨i, hi, rfl⟩ := List.mem_map.1 hde
    obtain ⟨j, hj, rfl⟩ := List.mem_iff_getElem.1 hi
    simp only [List.length_drop, List.length_range] at hj
    simp only [List.getElem_drop, List.getElem_range]
    exact hall _ (by omega) (by omega)
  · refine hall _ ?_
    rw [h.records_eq hk, ← List.map_drop]
    refine List.mem_map.2 ⟨i, List.mem_iff_getElem.2 ⟨i - 2, ?_, ?_⟩, rfl⟩
    · simp only [List.length_drop, List.length_range]
      omega
    · simp only [List.getElem_drop, List.getElem_range]
      omega

end Records

/-! ## A directory unlinked while it is the current directory -/

/-- An image whose root directory holds only `.` and `..`, with an empty inode table. -/
def rootImage : FS where
  sb := ⟨32, 16, by decide⟩
  disk := Disk.direct [(.free, 0, 0), (.dir, 128, 20)] (fun b => decide (b = 0 ∨ b = 20))
    (fun
      | 20 => Block.ofRecords [(1, ascii "."), (1, ascii "..")]
      | _ => Block.zero)
  itable := fun _ => ⟨0, 0, false, DInode.fresh .free⟩
  NINODE := 8
  atimeClock := 0
  mtimeClock := 0
  MAXPATH := 128
  NDEV := 10

theorem rootImage_image : Image rootImage :=
  Image.of_direct 2 (fun _ hi => Disk.direct_free hi) rfl
    (fun i _ hr => Disk.direct_slots _ _ _ i hr) (by decide) (by decide) (by decide) (fun _ => rfl)

/-- The first process on `rootImage`: its current directory is `namei("/")`, as `userinit` sets
it; it calls `mkdir("/p")`, `mkdir("/p/d")` and `chdir("/p/d")`. Returns the state, the entry of
its current directory and the three results. -/
def cwdSetup : Except Stop (FS × Nat × List Int) := do
  let (s, cwd) ← namei rootImage 0 (ascii "/")
  let (s, r₁) ← sys_mkdir s (cwd.getD 0) (ascii "/p")
  let (s, r₂) ← sys_mkdir s (cwd.getD 0) (ascii "/p/d")
  let (s, cwd, r₃) ← sys_chdir s (cwd.getD 0) (ascii "/p/d")
  pure (s, cwd, [r₁, r₂, r₃])

/-- Creating in an unlinked current directory breaks the link-count law: after `cwdSetup` the law
holds, and `unlink("/p/d")` keeps it (`d`, inode 3, is held as the current directory, so it keeps
its dinode with `nlink` 0); `mkdir("x")` then raises `d`'s `nlink` to 1, so `d`'s `..` record
counts again for `p`, inode 2, whose `nlink` stays 1 with two links. -/
theorem create_in_unlinked_cwd :
    LinkCounts rootImage ∧
    ∃ s₀ cwd s₁ s₂, cwdSetup = .ok (s₀, cwd, [0, 0, 0]) ∧ LinkCounts s₀ ∧
      sys_unlink s₀ cwd (ascii "/p/d") = .ok (s₁, 0) ∧ LinkCounts s₁ ∧
      (s₁.disk.dinode 3).type = .dir ∧ (s₁.disk.dinode 3).nlink = 0 ∧
      sys_mkdir s₁ cwd (ascii "x") = .ok (s₂, 0) ∧ ¬ LinkCounts s₂ ∧
      (s₂.disk.dinode 3).nlink = 1 ∧
      (s₂.disk.dinode 2).nlink = 1 ∧ s₂.disk.linkCount s₂.sb.ninodes 2 = 2 :=
  ⟨by decide, _, _, _, _, rfl, by decide, rfl, by decide, rfl, rfl, rfl, by decide, rfl, rfl,
    by decide⟩

/-- Creating in an unlinked current directory leaves a directory with links and no name: after
`cwdSetup` and `unlink("/p/d")` every directory with links has one name (`d`, inode 3, has none
and no links), and after `mkdir("x")` `d`, an allocated directory other than the root with
`nlink` 1, is named by no record. -/
theorem mkdir_in_unlinked_cwd_unnamed :
    NamedOnce rootImage ∧
    ∃ s₀ cwd s₁ s₂, cwdSetup = .ok (s₀, cwd, [0, 0, 0]) ∧ NamedOnce s₀ ∧
      sys_unlink s₀ cwd (ascii "/p/d") = .ok (s₁, 0) ∧ NamedOnce s₁ ∧
      sys_mkdir s₁ cwd (ascii "x") = .ok (s₂, 0) ∧ ¬ NamedOnce s₂ ∧
      s₂.disk.alloc 3 ∧ s₂.disk.liveDir 3 = true ∧ s₂.disk.nameCount s₂.sb.ninodes 3 = 0 :=
  ⟨by decide, _, _, _, _, rfl, by decide, rfl, by decide, rfl, by decide, by decide, rfl, rfl⟩

end Xv6.Fs
