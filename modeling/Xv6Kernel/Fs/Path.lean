import Xv6Kernel.Fs.Dir

/-!
# Path names

`skipelem` and `namex` of `fs.c`, with `namei` and `nameiparent`. A path is a C string, given by
its bytes before the NUL. `namex` walks the path from the root (`/…`) or from the process's
current directory, one element per round, each looked up in the locked directory reached so far.
When the entry found is a symbolic link, `namex` reads the link's target, which must be absolute,
walks that from the root without following links (`walkTarget`), and goes on with the rest of the
path. Every round consumes at least one byte of the path, so the path's length bounds the rounds.

* `skipelem_length_lt`, `walkTarget_fuel`, `namexLoop_fuel`: so the fuel the model gives the two
  loops never runs out, and any larger fuel gives the same walk.
* `namei_link_double_put`: the link branch puts the link's entry twice, once with a reference
  that is not the walk's.
-/

namespace Xv6.Fs

/-- The byte `/`. -/
def slash : UInt8 := 47

/-- `MAX_SYMLINK_DEPTH`, the links one walk may follow. -/
def MAX_SYMLINK_DEPTH : Nat := 16

/-- `skipelem(path, name)`: none when only slashes remain; otherwise the rest of the path after
the next element and the slashes that follow it, and `name`, the element cut to `DIRSIZ` bytes. -/
def skipelem (path : List UInt8) : Option (List UInt8 × List UInt8) :=
  match path.dropWhile (· == slash) with
  | [] => none
  | p => some ((p.dropWhile (· != slash)).dropWhile (· == slash), (p.takeWhile (· != slash)).take DIRSIZ)

/-- The walk of a link's target in `namex`, from the held entry `ip`: each element is looked up in
the locked directory `ip`, whose entry is then put; no link is followed. Returns the state, the
entry reached or none, and `name`. -/
def walkTarget : Nat → FS → Nat → List UInt8 → List UInt8 →
    Except Stop (FS × Option Nat × List UInt8)
  | 0, s, ip, _, name => .ok (s, some ip, name)
  | fuel + 1, s, ip, path, name =>
    match skipelem path with
    | none => .ok (s, some ip, name)
    | some (path, name) => do
      let s ← ilock s ip
      if (s.itable ip).d.type ≠ .dir then do
        let s ← iunlockput s ip
        pure (s, none, name)
      else do
        let (s, next) ← dirlookup s ip name
        match next with
        | none => do
          let s ← iunlockput s ip
          pure (s, none, name)
        | some (next, _) => do
          let s ← iunlockput s ip
          walkTarget fuel s next path name

/-- The rounds of `namex` from the held entry `ip`, with `depth` links followed so far. The entry
is locked and must be a directory; with `parent` the last element stops the walk there; otherwise
the element is looked up, and a link found is read, put twice (`iunlockput(ip); iput(ip)`) and
replaced by the walk of its target from the root. Returns the state, the entry the walk ends at
or none, and `name`. -/
def namexLoop (parent : Bool) :
    Nat → FS → Nat → Nat → List UInt8 → List UInt8 → Except Stop (FS × Option Nat × List UInt8)
  | 0, s, ip, _, _, name => .ok (s, some ip, name)
  | fuel + 1, s, ip, depth, path, name =>
    match skipelem path with
    | none =>
      if parent then do
        let s ← iput s ip
        pure (s, none, name)
      else .ok (s, some ip, name)
    | some (path, name) => do
      let s ← ilock s ip
      if (s.itable ip).d.type ≠ .dir then do
        let s ← iunlockput s ip
        pure (s, none, name)
      else if parent ∧ path = [] then do
        let s ← iunlock s ip
        pure (s, some ip, name)
      else do
        let (s, next) ← dirlookup s ip name
        match next with
        | none => do
          let s ← iunlockput s ip
          pure (s, none, name)
        | some (next, _) => do
          let s ← iunlockput s ip
          let s ← ilock s next
          if (s.itable next).d.type = .symlink then
            if depth + 1 > MAX_SYMLINK_DEPTH then do
              let s ← iunlockput s next
              pure (s, none, name)
            else do
              let (s, r, out) ← readi s next (fun _ _ => true) 0 s.MAXPATH
              if r ≤ 0 then do
                let s ← iunlockput s next
                pure (s, none, name)
              -- `symlink_target[ip->size] = '\0'` past the buffer: undefined, modelled as a stop
              else if s.MAXPATH ≤ (s.itable next).d.size then .error .fault
              else do
                let target := out.takeWhile (· != 0)
                let s ← iunlockput s next
                let s ← iput s next
                if target.headD 0 = slash then do
                  let (s, root) ← iget s ROOTINO
                  let (s, ip, name) ← walkTarget (target.length + 1) s root target name
                  match ip with
                  | none => pure (s, none, name)
                  | some ip => namexLoop parent fuel s ip (depth + 1) path name
                else pure (s, none, name)
          else do
            let s ← iunlock s next
            namexLoop parent fuel s next depth path name

/-- `namex(path, nameiparent, name)` for a process whose current directory is entry `cwd`:
the state, the entry returned (none for `0`) and `name`. -/
def namex (s : FS) (cwd : Nat) (path : List UInt8) (parent : Bool) :
    Except Stop (FS × Option Nat × List UInt8) :=
  if path = [] then .ok (s, none, []) else do
  let (s, ip) ← if path.headD 0 = slash then iget s ROOTINO else pure (idup s cwd, cwd)
  namexLoop parent (path.length + 1) s ip 0 path []

/-- `namei(path)`. -/
def namei (s : FS) (cwd : Nat) (path : List UInt8) : Except Stop (FS × Option Nat) :=
  (namex s cwd path false).map fun r => (r.1, r.2.1)

/-- `nameiparent(path, name)`. -/
def nameiparent (s : FS) (cwd : Nat) (path : List UInt8) :
    Except Stop (FS × Option Nat × List UInt8) :=
  namex s cwd path true

/-! ## The walk ends before its fuel -/

/-- Each element `skipelem` takes consumes at least one byte of the path. -/
theorem skipelem_length_lt {path rest name : List UInt8} (h : skipelem path = some (rest, name)) :
    rest.length < path.length := by
  have hsuf : (path.dropWhile (· == slash)).length ≤ path.length :=
    (List.dropWhile_suffix _).length_le
  unfold skipelem at h
  cases hq : path.dropWhile (· == slash) with
  | nil => rw [hq] at h; cases h
  | cons a p =>
    rw [hq] at h hsuf
    cases h
    have ha : (a != slash) = true := by
      have := List.head_dropWhile_not (· == slash) path (by rw [hq]; exact List.cons_ne_nil _ _)
      simp only [hq, List.head_cons] at this
      simpa using this
    calc (((a :: p).dropWhile (· != slash)).dropWhile (· == slash)).length
        ≤ ((a :: p).dropWhile (· != slash)).length := (List.dropWhile_suffix _).length_le
      _ = (p.dropWhile (· != slash)).length := by
        rw [List.dropWhile_cons_of_pos (p := fun x => x != slash) ha]
      _ ≤ p.length := (List.dropWhile_suffix _).length_le
      _ < path.length := by simp only [List.length_cons] at hsuf; omega

/-- The walk of a link's target never runs out of fuel: any fuel above the target's length gives
the same walk. -/
theorem walkTarget_fuel : ∀ (f₁ f₂ : Nat) (s : FS) (ip : Nat) (path name : List UInt8),
    path.length < f₁ → path.length < f₂ →
    walkTarget f₁ s ip path name = walkTarget f₂ s ip path name
  | 0, _, _, _, _, _, h, _ => absurd h (Nat.not_lt_zero _)
  | _ + 1, 0, _, _, _, _, _, h => absurd h (Nat.not_lt_zero _)
  | f₁ + 1, f₂ + 1, s, ip, path, name, h₁, h₂ => by
    unfold walkTarget
    split
    · rfl
    · rename_i rest _ hs
      have hl := skipelem_length_lt hs
      have e : ∀ s next name, walkTarget f₁ s next rest name = walkTarget f₂ s next rest name :=
        fun s next name => walkTarget_fuel f₁ f₂ s next rest name (by omega) (by omega)
      simp only [e]

/-- The rounds of `namex` never run out of fuel: any fuel above the path's length, such as the
`path.length + 1` that `namex` gives, runs the loop of the source to its end. -/
theorem namexLoop_fuel (parent : Bool) :
    ∀ (f₁ f₂ : Nat) (s : FS) (ip depth : Nat) (path name : List UInt8),
    path.length < f₁ → path.length < f₂ →
    namexLoop parent f₁ s ip depth path name = namexLoop parent f₂ s ip depth path name
  | 0, _, _, _, _, _, _, h, _ => absurd h (Nat.not_lt_zero _)
  | _ + 1, 0, _, _, _, _, _, _, h => absurd h (Nat.not_lt_zero _)
  | f₁ + 1, f₂ + 1, s, ip, depth, path, name, h₁, h₂ => by
    unfold namexLoop
    split
    · rfl
    · rename_i rest _ hs
      have hl := skipelem_length_lt hs
      have e : ∀ s ip depth name, namexLoop parent f₁ s ip depth rest name =
          namexLoop parent f₂ s ip depth rest name :=
        fun s ip depth name => namexLoop_fuel parent f₁ f₂ s ip depth rest name (by omega) (by omega)
      simp only [e]

/-! ## An image with symbolic links -/

/-- An image whose root directory holds the links `/l1 → /l2`, `/l2 → /l3`, `/l3 → /t` to the
empty file `/t`, and the cycle `/a → /b`, `/b → /a`, each inode in one direct block, with an empty
inode table. -/
def linkImage : FS where
  sb := ⟨32, 16, by decide⟩
  disk := Disk.direct [(.free, 0, 0), (.dir, 512, 20), (.symlink, 3, 21), (.symlink, 3, 22),
      (.symlink, 2, 23), (.file, 0, 0), (.symlink, 2, 24), (.symlink, 2, 25)]
    (fun b => decide (b = 0 ∨ 20 ≤ b ∧ b < 26))
    (fun
      | 20 => Block.ofRecords [(1, ascii "."), (1, ascii ".."), (2, ascii "l1"), (3, ascii "l2"),
          (4, ascii "l3"), (5, ascii "t"), (6, ascii "a"), (7, ascii "b")]
      | 21 => Block.ofBytes (ascii "/l2")
      | 22 => Block.ofBytes (ascii "/l3")
      | 23 => Block.ofBytes (ascii "/t")
      | 24 => Block.ofBytes (ascii "/b")
      | 25 => Block.ofBytes (ascii "/a")
      | _ => Block.zero)
  itable := fun _ => ⟨0, 0, false, DInode.fresh .free⟩
  NINODE := 8
  atimeClock := 0
  mtimeClock := 0
  MAXPATH := 128
  NDEV := 10

theorem linkImage_image : Image linkImage :=
  Image.of_direct 8 (fun _ hi => Disk.direct_free hi) rfl
    (fun i _ hr => Disk.direct_slots _ _ _ i hr) (by decide) (by decide) (by decide) (fun _ => rfl)

/-- The link branch of `namex` puts the link's entry twice: resolving `/l3` in `linkImage` returns
the entry of `/t` (inode 5) with its one reference, and leaves the entry of the link (inode 4),
which held no reference before, with `ref` at `-1`. -/
theorem namei_link_double_put :
    (linkImage.itable 1).ref = 0 ∧
    ∃ s', namei linkImage 0 (ascii "/l3") = .ok (s', some 2) ∧
      (s'.itable 2).inum = 5 ∧ (s'.itable 2).ref = 1 ∧
      (s'.itable 1).inum = 4 ∧ (s'.itable 1).ref = -1 ∧ (s'.itable 0).ref = 0 :=
  ⟨rfl, _, rfl, by decide⟩

end Xv6.Fs
