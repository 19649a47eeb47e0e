import Xv6Kernel.Fs.ReadWrite

/-!
# The inode table

The functions of `fs.c` on `itable`: `iget`, `idup`, `ilock`, `iunlock`, `iupdate`, `itrunc`,
`iput`, `ialloc` and `ireclaim`, and `readi`/`writei` on a table entry. The model is
single-threaded: `itable.lock` and the sleep locks are not modelled, and an entry whose lock the
caller holds is one that `ilock` has made valid.
-/

namespace Xv6.Fs

/-! ## Entries -/

/-- `itable.inode[ip]` rewritten by `f`. -/
def FS.modify (s : FS) (ip : Nat) (f : Inode → Inode) : FS :=
  { s with itable := Function.update s.itable ip (f (s.itable ip)) }

@[simp] theorem FS.modify_sb (s : FS) (ip : Nat) (f : Inode → Inode) : (s.modify ip f).sb = s.sb :=
  rfl
@[simp] theorem FS.modify_disk (s : FS) (ip : Nat) (f : Inode → Inode) :
    (s.modify ip f).disk = s.disk := rfl
@[simp] theorem FS.modify_NINODE (s : FS) (ip : Nat) (f : Inode → Inode) :
    (s.modify ip f).NINODE = s.NINODE := rfl
@[simp] theorem FS.modify_atimeClock (s : FS) (ip : Nat) (f : Inode → Inode) :
    (s.modify ip f).atimeClock = s.atimeClock := rfl
@[simp] theorem FS.modify_mtimeClock (s : FS) (ip : Nat) (f : Inode → Inode) :
    (s.modify ip f).mtimeClock = s.mtimeClock := rfl
@[simp] theorem FS.modify_self (s : FS) (ip : Nat) (f : Inode → Inode) :
    (s.modify ip f).itable ip = f (s.itable ip) := Function.update_same _ _ _
theorem FS.modify_of_ne (s : FS) {ip k : Nat} (f : Inode → Inode) (h : k ≠ ip) :
    (s.modify ip f).itable k = s.itable k := Function.update_noteq h _ _

/-- Dinode `i` replaced by `x`. -/
def Disk.setDinode (d : Disk) (i : Nat) (x : DInode) : Disk :=
  { d with dinode := Function.update d.dinode i x }

@[simp] theorem Disk.setDinode_bitmap (d : Disk) (i : Nat) (x : DInode) :
    (d.setDinode i x).bitmap = d.bitmap := rfl
@[simp] theorem Disk.setDinode_block (d : Disk) (i : Nat) (x : DInode) :
    (d.setDinode i x).block = d.block := rfl
@[simp] theorem Disk.setDinode_dinode (d : Disk) (i : Nat) (x : DInode) :
    (d.setDinode i x).dinode = Function.update d.dinode i x := rfl

/-- `iupdate(ip)`: the entry's copy written to its dinode. -/
def iupdate (s : FS) (ip : Nat) : FS :=
  { s with disk := s.disk.setDinode (s.itable ip).inum (s.itable ip).d }

@[simp] theorem iupdate_sb (s : FS) (ip : Nat) : (iupdate s ip).sb = s.sb := rfl
@[simp] theorem iupdate_itable (s : FS) (ip : Nat) : (iupdate s ip).itable = s.itable := rfl
@[simp] theorem iupdate_NINODE (s : FS) (ip : Nat) : (iupdate s ip).NINODE = s.NINODE := rfl
@[simp] theorem iupdate_disk (s : FS) (ip : Nat) :
    (iupdate s ip).disk = s.disk.setDinode (s.itable ip).inum (s.itable ip).d := rfl

/-! ## Table operations -/

/-- `iget(dev, inum)`: the scan returns the first entry holding `inum` with `ref > 0`; without one
it recycles the first entry with `ref == 0`. -/
def iget (s : FS) (inum : Nat) : Except Stop (FS × Nat) :=
  match (List.range s.NINODE).find? fun k => 0 < (s.itable k).ref ∧ (s.itable k).inum = inum with
  | some k => .ok (s.modify k fun e => { e with ref := e.ref + 1 }, k)
  | none =>
    match (List.range s.NINODE).find? fun k => (s.itable k).ref = 0 with
    | some k => .ok (s.modify k fun e => { e with inum, ref := 1, valid := false }, k)
    | none => .error (.panic "iget: no inodes")

/-- `idup(ip)`. -/
def idup (s : FS) (ip : Nat) : FS := s.modify ip fun e => { e with ref := e.ref + 1 }

/-- `ilock(ip)`: an entry that is not valid is loaded from its dinode. -/
def ilock (s : FS) (ip : Nat) : Except Stop FS :=
  if (s.itable ip).ref < 1 then .error (.panic "ilock") else
  if (s.itable ip).valid then .ok s else
  let s := s.modify ip fun e => { e with d := s.disk.dinode e.inum, valid := true }
  if (s.itable ip).d.type = .free then .error (.panic "ilock: no type") else .ok s

/-- `iunlock(ip)`; without sleep locks only the reference count is checked. -/
def iunlock (s : FS) (ip : Nat) : Except Stop FS :=
  if (s.itable ip).ref < 1 then .error (.panic "iunlock") else .ok s

/-- `itrunc(ip)`: the blocks freed, the addresses cleared, size 0, `iupdate`. -/
def itrunc (s : FS) (ip : Nat) : Except Stop FS := do
  let (d, a) ← itruncBlocks s.disk (s.itable ip).d.addrs
  pure (iupdate ({ s with disk := d }.modify ip fun e => { e with d := { e.d with addrs := a, size := 0 } }) ip)

/-- `iput(ip)`: dropping the last reference to a valid entry without links truncates the inode
and frees its dinode. -/
def iput (s : FS) (ip : Nat) : Except Stop FS := do
  let e := s.itable ip
  let s ← if e.ref = 1 ∧ e.valid ∧ e.d.nlink = 0 then do
      let s ← itrunc s ip
      let s := iupdate (s.modify ip fun e => { e with d := { e.d with type := .free } }) ip
      pure (s.modify ip fun e => { e with valid := false })
    else pure s
  pure (s.modify ip fun e => { e with ref := e.ref - 1 })

/-- `iunlockput(ip)`. -/
def iunlockput (s : FS) (ip : Nat) : Except Stop FS := do
  let s ← iunlock s ip
  iput s ip

/-! ## Allocation -/

/-- A `struct inode *` as `ialloc` returns it: an entry of the table, or `ERR_PTR_CODE(e)`. -/
inductive IPtr where
  | slot (ip : Nat)
  | err (e : Int)
  deriving DecidableEq, Repr

/-- `IS_ERR_PTR(ptr)`: the pointer, as an unsigned 64-bit value, is above `-1000`. An entry of
`itable` lies in kernel memory, below that. -/
def IS_ERR_PTR : IPtr → Bool
  | .slot _ => false
  | .err e => decide ((2 : Int) ^ 64 - 1000 < e % 2 ^ 64)

def EINVAL : Int := 22
def EFS_INODE_FULL : Int := 128

/-- `ialloc(dev, type)`: a type other than a file, a directory or a device is refused with
`-EINVAL`; the first free dinode from 1 gets the fresh dinode of the type and an entry through
`iget`. -/
def ialloc (s : FS) (type : IType) : Except Stop (FS × IPtr) :=
  if type ≠ .file ∧ type ≠ .dir ∧ type ≠ .device then .ok (s, .err (-EINVAL)) else
  match (List.range' 1 (s.sb.ninodes - 1)).find? fun inum => (s.disk.dinode inum).type = .free with
  | some inum => do
    let (s, ip) ← iget { s with disk := s.disk.setDinode inum (DInode.fresh type) } inum
    pure (s, .slot ip)
  | none => .ok (s, .err (-EFS_INODE_FULL))

/-! ## Content on a table entry -/

/-- `readi(ip, …)` on table entry `ip`. -/
def readi (s : FS) (ip : Nat) (ok : Nat → Nat → Bool) (off n : Nat) :
    Except Stop (FS × Int × List UInt8) := do
  let (d, x, clock, r, out) ← (s.itable ip).d.readi s.sb s.disk s.atimeClock ok off n
  pure ({ s with disk := d, atimeClock := clock }.modify ip fun e => { e with d := x }, r, out)

/-- `writei(ip, …)` on table entry `ip`: the guards return `-1`; past them the body runs and the
entry is written back by `iupdate`. -/
def writei (s : FS) (ip : Nat) (src : Nat → UInt8) (ok : Nat → Nat → Bool) (off n : Nat) :
    Except Stop (FS × Int) :=
  let x := (s.itable ip).d
  if off > x.size ∨ u32 (off + n) < off then .ok (s, -1) else
  if u32 (off + n) > MAXFILE * BSIZE then .ok (s, -1) else do
  let (d, x, clock, r) ← x.writeiBody s.sb s.disk s.mtimeClock src ok off n
  pure (iupdate ({ s with disk := d, mtimeClock := clock }.modify ip fun e => { e with d := x }) ip, r)

/-! ## Reclaiming orphans -/

/-- One round of `ireclaim`: an orphaned dinode, allocated with no links, is taken, locked,
unlocked and put, which frees it when no one else holds it. -/
def ireclaimOne (s : FS) (inum : Nat) : Except Stop FS :=
  if (s.disk.dinode inum).type ≠ .free ∧ (s.disk.dinode inum).nlink = 0 then do
    let (s, ip) ← iget s inum
    let s ← ilock s ip
    let s ← iunlock s ip
    iput s ip
  else .ok s

/-- `ireclaim(dev)`. -/
def ireclaim (s : FS) : Except Stop FS := (List.range' 1 (s.sb.ninodes - 1)).foldlM ireclaimOne s

/-- `writei` never stops on a panic. -/
theorem writei_ok (s : FS) (ip : Nat) (src : Nat → UInt8) (ok : Nat → Nat → Bool) {off n : Nat}
    (hoff : off < 2 ^ 32) (hn : n < 2 ^ 32) : ∃ r, writei s ip src ok off n = .ok r := by
  unfold writei
  dsimp only
  split_ifs with h1 h2
  · exact ⟨_, rfl⟩
  · exact ⟨_, rfl⟩
  · rw [u32_add_lt hoff hn] at h1
    obtain ⟨q, e⟩ := (s.itable ip).d.writeiBody_ok s.sb s.disk s.mtimeClock src ok off n
      (by omega)
    rw [e]
    exact ⟨_, rfl⟩

end Xv6.Fs
