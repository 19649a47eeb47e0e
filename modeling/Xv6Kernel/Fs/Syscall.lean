import Xv6Kernel.Fs.Path

/-!
# File-system system calls

The calls of `sysfile.c` that name files: `create` with `sys_open`, `sys_mkdir` and `sys_mknod`,
and `sys_link`, `sys_unlink`, `sys_symlink`, `sys_readlink` and `sys_chdir`, for a process whose
current directory is the entry `cwd`. The log is an external collaborator (`begin_op` and
`end_op` do nothing here), the file table is left out (`sys_open` takes the descriptor that
`filealloc` and `fdalloc` would give, or none), and a user string argument is given by its bytes.

* `sys_symlink_ne_zero`, `symlink_readlink_fail`: `ialloc` refuses `T_SYMLINK`, so no call of
  `sys_symlink` succeeds, and `sys_readlink` follows the link it is asked to read.
* `sys_symlink_ilock_errptr`: the error pointer `ialloc` returns passes the null test of
  `sys_symlink` and reaches `ilock`.
* `namei_follows_one_level`: a link met in a link's target is not followed.
-/

namespace Xv6.Fs

/-! ## Arguments, error numbers and pointers -/

/-- `argstr(n, buf, MAXPATH) >= 0`: `copyinstr` (not among the sources) copies the string when its
NUL falls within the buffer. -/
def argstrOk (s : FS) (str : List UInt8) : Bool := decide (str.length < s.MAXPATH)

def ENOENT : Int := 2
def ENXIO : Int := 6
def EEXIST : Int := 17
def EISDIR : Int := 21
def EMFILE : Int := 24
def ENOSPC : Int := 28

/-- The `open` flags; `fcntl.h` is not among the sources, so these are xv6's values. -/
def O_RDONLY : Nat := 0x000
def O_WRONLY : Nat := 0x001
def O_RDWR : Nat := 0x002
def O_CREATE : Nat := 0x200
def O_TRUNC : Nat := 0x400

/-- `ptr == 0`: only `ERR_PTR_CODE(0)` is the null pointer. -/
def IPtr.isNull : IPtr → Bool
  | .slot _ => false
  | .err e => decide (e % 2 ^ 64 = 0)

/-- `PTR_ERR_CODE(ptr)`, on an error pointer. -/
def PTR_ERR_CODE : IPtr → Int
  | .slot _ => 0
  | .err e => e

/-- The entry a pointer designates: an error pointer designates none, and dereferencing it reads an
address in the top 1000 bytes of the address space, which the kernel does not map. -/
def IPtr.entry : IPtr → Except Stop Nat
  | .slot ip => .ok ip
  | .err _ => .error .fault

/-- `ilock(ip)` on a pointer `ialloc` returned. -/
def ilockPtr (s : FS) (p : IPtr) : Except Stop FS := do
  let ip ← p.entry
  ilock s ip

/-! ## `create` -/

/-- The entries `.` and `..` of a new directory `ip` in `dp`, as `create` links them: whether both
links succeeded. -/
def linkDots (s : FS) (ip dp : Nat) : Except Stop (FS × Bool) := do
  let (s, r) ← dirlink s ip (ascii ".") (s.itable ip).inum
  if r < 0 then pure (s, false) else do
  let (s, r) ← dirlink s ip (ascii "..") (s.itable dp).inum
  pure (s, decide (0 ≤ r))

/-- `create(path, type, major, minor)`: the locked entry of the new inode, or of an existing file
or device when a file is asked for, or an error pointer. -/
def create (s : FS) (cwd : Nat) (path : List UInt8) (type : IType) (major minor : Int) :
    Except Stop (FS × IPtr) := do
  let (s, dp, name) ← nameiparent s cwd path
  match dp with
  | none => pure (s, .err (-ENOENT))
  | some dp => do
    let s ← ilock s dp
    let (s, found) ← dirlookup s dp name
    match found with
    | some (ip, _) => do
      let s ← iunlockput s dp
      let s ← ilock s ip
      if type = .file ∧ ((s.itable ip).d.type = .file ∨ (s.itable ip).d.type = .device) then
        pure (s, .slot ip)
      else do
        let s ← iunlockput s ip
        pure (s, .err (-EEXIST))
    | none => do
      let (s, p) ← ialloc s type
      if IS_ERR_PTR p then do
        let s ← iunlockput s dp
        pure (s, p)
      else do
        let ip ← p.entry
        let s ← ilock s ip
        let s := iupdate (s.modify ip fun e => { e with d := { e.d with major, minor, nlink := 1 } }) ip
        let (s, ok) ← if type = .dir then linkDots s ip dp else pure (s, true)
        let (s, ok) ← if ok then do
            let (s, r) ← dirlink s dp name (s.itable ip).inum
            pure (s, decide (0 ≤ r))
          else pure (s, false)
        if ok then do
          let s := if type = .dir then setNlink s dp (toShort ((s.itable dp).d.nlink + 1)) else s
          let s ← iunlockput s dp
          pure (s, .slot ip)
        else do
          -- fail_with_error
          let s := setNlink s ip 0
          let s ← iunlockput s ip
          let s ← iunlockput s dp
          pure (s, .err (-ENOSPC))

/-! ## The calls -/

/-- `sys_open(path, omode)` with the descriptor `fd` that `filealloc` and `fdalloc` give, or none:
the state, the result, and the entry handed to the new open file. -/
def sys_open (s : FS) (cwd : Nat) (path : List UInt8) (omode : Nat) (fd : Option Nat) :
    Except Stop (FS × Int × Option Nat) :=
  if !argstrOk s path then .ok (s, -EINVAL, none) else do
  let opened ← if omode &&& O_CREATE ≠ 0 then do
      let (s, p) ← create s cwd path .file 0 0
      if IS_ERR_PTR p then pure (Sum.inl (s, PTR_ERR_CODE p)) else do
      let ip ← p.entry
      pure (Sum.inr (s, ip))
    else do
      let (s, ip) ← namei s cwd path
      match ip with
      | none => pure (Sum.inl (s, -ENOENT))
      | some ip => do
        let s ← ilock s ip
        if (s.itable ip).d.type = .dir ∧ omode ≠ O_RDONLY then do
          let s ← iunlockput s ip
          pure (Sum.inl (s, -EISDIR))
        else pure (Sum.inr (s, ip))
  match opened with
  | .inl (s, e) => pure (s, e, none)
  | .inr (s, ip) =>
    if (s.itable ip).d.type = .device ∧
        ((s.itable ip).d.major < 0 ∨ (s.NDEV : Int) ≤ (s.itable ip).d.major) then do
      let s ← iunlockput s ip
      pure (s, - ENXIO, none)
    else match fd with
      | none => do
        let s ← iunlockput s ip
        pure (s, -EMFILE, none)
      | some fd => do
        let s ← if omode &&& O_TRUNC ≠ 0 ∧ (s.itable ip).d.type = .file then itrunc s ip
          else pure s
        let s ← iunlock s ip
        pure (s, fd, some ip)

/-- `sys_mkdir(path)`. -/
def sys_mkdir (s : FS) (cwd : Nat) (path : List UInt8) : Except Stop (FS × Int) :=
  if !argstrOk s path then .ok (s, -EINVAL) else do
  let (s, p) ← create s cwd path .dir 0 0
  if IS_ERR_PTR p then pure (s, PTR_ERR_CODE p) else do
  let ip ← p.entry
  let s ← iunlockput s ip
  pure (s, 0)

/-- `sys_mknod(path, major, minor)`; `create` takes `short` numbers. -/
def sys_mknod (s : FS) (cwd : Nat) (path : List UInt8) (major minor : Int) :
    Except Stop (FS × Int) :=
  if !argstrOk s path then .ok (s, -EINVAL) else do
  let (s, p) ← create s cwd path .device (toShort major) (toShort minor)
  if IS_ERR_PTR p then pure (s, PTR_ERR_CODE p) else do
  let ip ← p.entry
  let s ← iunlockput s ip
  pure (s, 0)

/-- `sys_link(old, new)`: the link count is raised before the new entry is linked and lowered
again when the link fails. -/
def sys_link (s : FS) (cwd : Nat) (old new : List UInt8) : Except Stop (FS × Int) :=
  if !(argstrOk s old && argstrOk s new) then .ok (s, -1) else do
  let (s, ip) ← namei s cwd old
  match ip with
  | none => pure (s, -1)
  | some ip => do
    let s ← ilock s ip
    if (s.itable ip).d.type = .dir then do
      let s ← iunlockput s ip
      pure (s, -1)
    else do
      let s := setNlink s ip (toShort ((s.itable ip).d.nlink + 1))
      let s ← iunlock s ip
      let (s, dp, name) ← nameiparent s cwd new
      let (s, ok) ← match dp with
        | none => pure (s, false)
        | some dp => do
          let s ← ilock s dp
          let (s, r) ← dirlink s dp name (s.itable ip).inum
          let s ← iunlockput s dp
          pure (s, decide (0 ≤ r))
      if ok then do
        let s ← iput s ip
        pure (s, 0)
      else do
        -- bad
        let s ← ilock s ip
        let s := setNlink s ip (toShort ((s.itable ip).d.nlink - 1))
        let s ← iunlockput s ip
        pure (s, -1)

/-- `sys_unlink(path)`. -/
def sys_unlink (s : FS) (cwd : Nat) (path : List UInt8) : Except Stop (FS × Int) :=
  if !argstrOk s path then .ok (s, -1) else do
  let (s, dp, name) ← nameiparent s cwd path
  match dp with
  | none => pure (s, -1)
  | some dp => do
    let s ← ilock s dp
    if namecmp name (ascii ".") = 0 ∨ namecmp name (ascii "..") = 0 then do
      let s ← iunlockput s dp
      pure (s, -1)
    else do
      let (s, found) ← dirlookup s dp name
      match found with
      | none => do
        let s ← iunlockput s dp
        pure (s, -1)
      | some (ip, off) => do
        let s ← ilock s ip
        if (s.itable ip).d.nlink < 1 then .error (.panic "unlink: nlink < 1") else do
        let (s, empty) ← if (s.itable ip).d.type = .dir then isdirempty s ip else pure (s, true)
        if !empty then do
          let s ← iunlockput s ip
          let s ← iunlockput s dp
          pure (s, -1)
        else do
          let (s, r) ← writei s dp (fun _ => 0) (fun _ _ => true) off direntSize
          if r ≠ direntSize then .error (.panic "unlink: writei") else do
          let s := if (s.itable ip).d.type = .dir then
              setNlink s dp (toShort ((s.itable dp).d.nlink - 1)) else s
          let s ← iunlockput s dp
          let s := setNlink s ip (toShort ((s.itable ip).d.nlink - 1))
          let s ← iunlockput s ip
          pure (s, 0)

/-- `sys_symlink(target, linkpath)`. -/
def sys_symlink (s : FS) (cwd : Nat) (target linkpath : List UInt8) : Except Stop (FS × Int) :=
  if !(argstrOk s target && argstrOk s linkpath) then .ok (s, -1) else do
  let (s, dp, name) ← nameiparent s cwd linkpath
  match dp with
  | none => pure (s, -1)
  | some dp => do
    let s ← ilock s dp
    let (s, found) ← dirlookup s dp name
    match found with
    | some (ip, _) => do
      let s ← iunlockput s dp
      let s ← iput s ip
      pure (s, -1)
    | none => do
      let (s, p) ← ialloc s .symlink
      if p.isNull then do
        let s ← iunlockput s dp
        pure (s, -1)
      else do
        let s ← ilockPtr s p
        let ip ← p.entry
        let s := setNlink s ip 1
        let (s, r) ← writei s ip (fun k => target.getD k 0) (fun _ _ => true) 0 target.length
        if r ≠ target.length then do
          let s := setNlink s ip 0
          let s ← iunlockput s ip
          let s ← iunlockput s dp
          pure (s, -1)
        else do
          let (s, r) ← dirlink s dp name (s.itable ip).inum
          if r < 0 then do
            let s := setNlink s ip 0
            let s ← iunlockput s ip
            let s ← iunlockput s dp
            pure (s, -1)
          else do
            let s ← iunlockput s dp
            let s ← iunlockput s ip
            pure (s, 0)

/-- `sys_readlink(path, buf, n)`, with the outcome `ok` of each copy-out to `buf`: the state,
the result and the bytes delivered. -/
def sys_readlink (s : FS) (cwd : Nat) (path : List UInt8) (ok : Nat → Nat → Bool) (n : Int) :
    Except Stop (FS × Int × List UInt8) :=
  if !argstrOk s path then .ok (s, -1, []) else do
  let (s, ip) ← namei s cwd path
  match ip with
  | none => pure (s, -1, [])
  | some ip => do
    let s ← ilock s ip
    if (s.itable ip).d.type ≠ .symlink then do
      let s ← iunlockput s ip
      pure (s, -1, [])
    else do
      let len := toInt32 (s.itable ip).d.size
      let len := if len > n then n else len
      let (s, r, out) ← readi s ip ok 0 (len % 2 ^ 32).toNat
      if r ≠ len then do
        let s ← iunlockput s ip
        pure (s, -1, [])
      else do
        let s ← iunlockput s ip
        pure (s, len, out)

/-- `sys_chdir(path)`: the state, the new current directory and the result. -/
def sys_chdir (s : FS) (cwd : Nat) (path : List UInt8) : Except Stop (FS × Nat × Int) :=
  if !argstrOk s path then .ok (s, cwd, -1) else do
  let (s, ip) ← namei s cwd path
  match ip with
  | none => pure (s, cwd, -1)
  | some ip => do
    let s ← ilock s ip
    if (s.itable ip).d.type ≠ .dir then do
      let s ← iunlockput s ip
      pure (s, cwd, -1)
    else do
      let s ← iunlock s ip
      let s ← iput s cwd
      pure (s, ip, 0)

/-! ## Symbolic links -/

/-- `ialloc` refuses `T_SYMLINK` with `ERR_PTR_CODE(-EINVAL)` and changes nothing. -/
theorem ialloc_symlink (s : FS) : ialloc s .symlink = .ok (s, .err (-EINVAL)) := rfl

/-- `sys_symlink` never returns 0: every call returns `-1` or stops. -/
theorem sys_symlink_ne_zero (s : FS) (cwd : Nat) (target linkpath : List UInt8) (s' : FS) :
    sys_symlink s cwd target linkpath ≠ .ok (s', 0) := by
  intro h
  unfold sys_symlink at h
  split_ifs at h
  · cases h
  obtain ⟨⟨s₁, dp, name⟩, -, h⟩ := bind_eq_ok h
  cases dp with
  | none => cases h
  | some dp =>
    obtain ⟨s₂, -, h⟩ := bind_eq_ok h
    obtain ⟨⟨s₃, found⟩, -, h⟩ := bind_eq_ok h
    cases found with
    | some q =>
      obtain ⟨s₄, -, h⟩ := bind_eq_ok h
      obtain ⟨s₅, -, h⟩ := bind_eq_ok h
      cases h
    | none =>
      dsimp only at h
      rw [ialloc_symlink, ok_bind] at h
      cases h

/-- `symlink` then `readlink` cannot round-trip: `sys_symlink` never returns 0, and `sys_readlink`
resolves its path with `namei`, which follows the link, so on the link `/l3 → /t` of `linkImage`
it finds the file `/t` and returns `-1`. -/
theorem symlink_readlink_fail :
    (∀ s cwd target linkpath s', sys_symlink s cwd target linkpath ≠ .ok (s', 0)) ∧
    ∃ s', sys_readlink linkImage 0 (ascii "/l3") (fun _ _ => true) 128 = .ok (s', -1, []) :=
  ⟨sys_symlink_ne_zero, _, rfl⟩

/-- Every call of `sys_symlink` that gets past its lookups hands the error pointer of
`ialloc(T_SYMLINK)`, which `IS_ERR_PTR` recognises and which is not null, to `ilock`, and stops
on the fault of dereferencing it. -/
theorem sys_symlink_ilock_errptr {s s₁ s₂ s₃ : FS} {cwd dp : Nat}
    {target linkpath name : List UInt8} (harg : (argstrOk s target && argstrOk s linkpath) = true)
    (hp : nameiparent s cwd linkpath = .ok (s₁, some dp, name)) (hl : ilock s₁ dp = .ok s₂)
    (hd : dirlookup s₂ dp name = .ok (s₃, none)) :
    (∀ s', ialloc s' .symlink = .ok (s', .err (-EINVAL))) ∧ IS_ERR_PTR (.err (-EINVAL)) = true ∧
    (IPtr.err (-EINVAL)).isNull = false ∧ (∀ s', ilockPtr s' (.err (-EINVAL)) = .error .fault) ∧
    sys_symlink s cwd target linkpath = .error .fault := by
  refine ⟨ialloc_symlink, by decide, by decide, fun _ => rfl, ?_⟩
  unfold sys_symlink
  rw [if_neg (by simp [harg]), hp, ok_bind]
  dsimp only
  rw [hl, ok_bind, hd, ok_bind]
  dsimp only
  rw [ialloc_symlink, ok_bind]
  rfl

theorem sys_symlink_ilock_errptr_linkImage :
    (∀ s', ialloc s' .symlink = .ok (s', .err (-EINVAL))) ∧ IS_ERR_PTR (.err (-EINVAL)) = true ∧
    (IPtr.err (-EINVAL)).isNull = false ∧ (∀ s', ilockPtr s' (.err (-EINVAL)) = .error .fault) ∧
    sys_symlink linkImage 0 (ascii "/t") (ascii "/x") = .error .fault :=
  sys_symlink_ilock_errptr (by decide)
    (show nameiparent linkImage 0 (ascii "/x") = .ok (_, some 0, ascii "x") from rfl) rfl rfl

/-- Links are followed one level, and a cycle opens: in `linkImage`, `namei("/l1")` on the chain
`/l1 → /l2 → /l3 → /t` returns the entry of `/l2` (inode 3), itself a link, and
`open("/a", O_RDONLY)` on the cycle `/a → /b → /a` returns a descriptor for the link `/b`. -/
theorem namei_follows_one_level :
    (∃ s', namei linkImage 0 (ascii "/l1") = .ok (s', some 2) ∧ (s'.itable 2).inum = 3 ∧
      (s'.disk.dinode 3).type = .symlink) ∧
    ∃ s', sys_open linkImage 0 (ascii "/a") O_RDONLY (some 3) = .ok (s', 3, some 2) ∧
      (s'.itable 2).inum = 7 ∧ (s'.itable 2).d.type = .symlink :=
  ⟨⟨_, rfl, by decide⟩, _, rfl, by decide⟩

end Xv6.Fs
