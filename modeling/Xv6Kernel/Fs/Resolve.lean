import Xv6Kernel.Fs.DirApi
import Xv6Kernel.Fs.Reclaim
import Xv6Kernel.Fs.Links

/-!
# `path_resolve` and `namei`

`path_resolve(path, error)` is the walk of `namex` without its link branch, returning a status in
`*error`: `-1` for an empty path, `-2` for an element under a file that is not a directory, `-3`
for an element `dirlookup` misses. Each round locks the entry, looks the element up and puts the
entry, as `namex` does; `namex` in addition locks and unlocks the entry it steps to at once, to
test it for a link, where `path_resolve` locks it only in the next round.

* `Inv.dirlookup_ok`, `Inv.iunlockput_noLinks`: a lookup changes no dinode, and a put frees at
  most the dinode of the entry it puts; neither makes a link.
* `namexLoop_pathResolveLoop`: the two loops step together. After the first element, the state
  `namex` reaches is the one `path_resolve` reaches with the last entry locked and unlocked once
  more (`relocked`).
* `namei_path_resolve`: on a file system of the invariant with no symbolic link on disk, `namei`
  returns what `path_resolve` returns, the entry it reaches locked and unlocked once more when the
  path has an element: the two walks find the same entry, fail on the same paths and stop on the
  same panics.
-/

namespace Xv6.Fs

/-! ## The walk -/

/-- The loop of `path_resolve(path, error)` from the held entry `ip`: for each element the entry is
locked, `*error` is `-2` when it is not a directory and `-3` when `dirlookup` misses the element,
and otherwise the walk goes on from the entry `dirlookup` returns; each entry left is unlocked and
put, and no link is followed. Returns the state, the entry returned (none for `0`) and
`*error`. -/
def pathResolveLoop : Nat → FS → Nat → List UInt8 → Except Stop (FS × Option Nat × Int)
  | 0, s, ip, _ => .ok (s, some ip, 0)
  | fuel + 1, s, ip, path =>
    match skipelem path with
    | none => .ok (s, some ip, 0)
    | some (path, name) => do
      let s ← ilock s ip
      if (s.itable ip).d.type ≠ .dir then do
        let s ← iunlockput s ip
        pure (s, none, -2)
      else do
        let (s, next) ← dirlookup s ip name
        match next with
        | none => do
          let s ← iunlockput s ip
          pure (s, none, -3)
        | some (next, _) => do
          let s ← iunlockput s ip
          pathResolveLoop fuel s next path

/-- `path_resolve(path, error)` for a process whose current directory is entry `cwd`: `-1` for an
empty path; otherwise the walk from the root, for a path that starts with `/`, or from the current
directory, which `idup` takes a reference to. -/
def path_resolve (s : FS) (cwd : Nat) (path : List UInt8) : Except Stop (FS × Option Nat × Int) :=
  if path = [] then .ok (s, none, -1) else do
  let (s, ip) ← if path.headD 0 = slash then iget s ROOTINO else pure (idup s cwd, cwd)
  pathResolveLoop (path.length + 1) s ip path

example : (path_resolve rootImage 0 (ascii "/./x")).map (fun r => r.2.2) = .ok (-3) := rfl

/-- No dinode on the disk is a symbolic link. -/
def Disk.noLinks (d : Disk) : Prop := ∀ i, (d.dinode i).type ≠ .symlink

/-- The entry a walk of `path_resolve` ends at, as `namex` leaves it: locked, which loads it from
its dinode, and unlocked once more. -/
def relocked : FS × Option Nat × Int → Except Stop (FS × Option Nat)
  | (s, none, _) => .ok (s, none)
  | (s, some ip, _) => do
    let s ← ilock s ip
    let s ← iunlock s ip
    pure (s, some ip)

theorem Disk.direct_noLinks {inodes : List (IType × Nat × Nat)} {used : Nat → Bool}
    {blocks : Nat → Block} (h : ∀ x ∈ inodes, x.1 ≠ .symlink) :
    (Disk.direct inodes used blocks).noLinks := fun i => by
  unfold Disk.direct
  dsimp only
  split
  · exact h _ (List.get?_mem ‹_›)
  · decide

/-! ## What one round keeps -/

section Round

variable {s s' : FS} {ip : Nat}

/-- A second `ilock` of the entry the first locked changes nothing. -/
theorem ilock_ilock (he : ilock s ip = .ok s') : ilock s' ip = .ok s' := by
  unfold ilock at he
  dsimp only at he
  split_ifs at he with h₁ h₂ <;> cases he
  · unfold ilock; rw [if_neg h₁, if_pos h₂]
  · simp [ilock, h₁]

/-- `iunlock` after an `ilock` that succeeds. -/
theorem iunlock_of_ilock (he : ilock s ip = .ok s') : iunlock s' ip = .ok s' := by
  have hr : ¬ (s.itable ip).ref < 1 := fun hlt => by
    unfold ilock at he; rw [if_pos hlt] at he; cases he
  unfold iunlock
  rw [if_neg (by rw [((ilock_frame he).2 ip).2]; exact hr)]

theorem ilock_disk (he : ilock s ip = .ok s') : s'.disk = s.disk := by
  unfold ilock at he
  dsimp only at he
  split_ifs at he <;> cases he <;> rfl

/-- The scan of a locked directory changes only its access time. -/
theorem dirScan_touch {dp : Nat} {msg : String} {stop : Dirent → Bool} :
    ∀ {fuel : Nat} {s s' : FS} {off off' : Nat} {de : Option Dirent}, Inv s → s.locked dp →
      off < 2 ^ 32 → dirScan dp msg stop fuel s off = .ok (s', off', de) →
      ∃ t c, s' = s.touch dp t c
  | 0, s, _, _, _, _, _, _, _, he => by cases he; exact ⟨_, _, (FS.touch_self s dp).symm⟩
  | fuel + 1, s, _, off, _, _, h, hk, hoff, he => by
    unfold dirScan at he
    split_ifs at he
    · split at he
      · cases he
      · rename_i s₁ r out hr
        obtain ⟨t, c, rfl⟩ := h.readi_touch hk hoff (by decide) hr
        split_ifs at he
        · cases he; exact ⟨t, c, rfl⟩
        · obtain ⟨t', c', rfl⟩ := dirScan_touch (h.touch hk t c) ((FS.locked_touch s dp t c).2 hk)
            (Nat.mod_lt _ (by decide)) he
          exact ⟨t', c', FS.touch_touch s dp t c t' c'⟩
    · cases he; exact ⟨_, _, (FS.touch_self s dp).symm⟩

/-- A lookup in a locked directory keeps the invariant and the disk, and returns an entry of the
table. -/
theorem Inv.dirlookup_ok {dp : Nat} (h : Inv s) (hk : s.locked dp) {name : List UInt8}
    {r : Option (Nat × Nat)} (he : dirlookup s dp name = .ok (s', r)) :
    Inv s' ∧ s'.disk = s.disk ∧ s'.NINODE = s.NINODE ∧ ∀ k off, r = some (k, off) → k < s.NINODE := by
  unfold dirlookup at he
  split_ifs at he
  obtain ⟨⟨s₁, off, de⟩, hs, he⟩ := bind_eq_ok he
  obtain ⟨t, c, rfl⟩ := dirScan_touch h hk (by decide) hs
  cases de with
  | none => cases he; exact ⟨h.touch hk t c, rfl, rfl, nofun⟩
  | some de =>
    obtain ⟨⟨s₂, k⟩, hg, he⟩ := bind_eq_ok he
    cases he
    obtain ⟨hkN, ⟨-, -, rfl⟩ | ⟨-, -, rfl⟩⟩ := iget_cases hg <;>
      exact ⟨((h.touch hk t c).of_iget hg).1, rfl, rfl, fun _ _ e => by cases e; exact hkN⟩

/-- `iunlockput` keeps the invariant and the size of the table, and makes no link: a put frees at
most the dinode of the entry it puts. -/
theorem Inv.iunlockput_noLinks (h : Inv s) (hN : ip < s.NINODE) (hl : s.disk.noLinks)
    (he : iunlockput s ip = .ok s') : Inv s' ∧ s'.disk.noLinks ∧ s'.NINODE = s.NINODE := by
  obtain ⟨s₁, hu, hp⟩ := bind_eq_ok he
  obtain rfl := iunlock_ok hu
  obtain ⟨h', hS, -⟩ := h.iput_frame hN hp
  refine ⟨h', fun i => ?_, hS.N⟩
  by_cases hc : (s₁.itable ip).ref = 1 ∧ (s₁.itable ip).valid = true ∧ (s₁.itable ip).d.nlink = 0
  · obtain ⟨s'', e, -, -, -, hd, -⟩ := h.iput_free ⟨⟨hN, by omega⟩, hc.2.1⟩ ⟨hc.1, hc.2.2⟩
    rw [e] at hp
    cases hp
    rw [hd]
    by_cases hi : i = (s₁.itable ip).inum
    · subst hi; simp [DInode.reclaimed]
    · simpa [Function.update_noteq hi] using hl i
  · rw [iput_keep hc] at hp
    cases hp
    exact hl i

end Round

/-! ## The two walks step together -/

/-- A walk of `path_resolve` from an entry that `ilock` fails on stops there. -/
theorem pathResolveLoop_ilock_error {s : FS} {ip : Nat} {e : Stop} (he : ilock s ip = .error e) :
    ∀ (fuel : Nat) (path : List UInt8), (pathResolveLoop fuel s ip path >>= relocked) = .error e
  | 0, _ => by simp only [pathResolveLoop, ok_bind, relocked, he, error_bind]
  | fuel + 1, path => by
    unfold pathResolveLoop
    cases skipelem path with
    | none => simp only [ok_bind, relocked, he, error_bind]
    | some pn => simp only [he, error_bind]

/-- The rounds of `namex` over a path with an element, from an entry `ilock` succeeds on, are its
rounds from the state that lock leaves: the round's own `ilock` then changes nothing. -/
theorem namexLoop_ilock {s s' : FS} {ip depth fuel : Nat} {path name rest elem : List UInt8}
    (hp : skipelem path = some (rest, elem)) (he : ilock s ip = .ok s') (parent : Bool) :
    namexLoop parent (fuel + 1) s ip depth path name =
      namexLoop parent (fuel + 1) s' ip depth path name := by
  unfold namexLoop
  rw [hp]
  dsimp only
  rw [he, ilock_ilock he]

/-- **The loops of `namex` and `path_resolve` step together.** From an entry that `ilock` locks,
on a state of the invariant with no link on disk, the rounds of `namex` from the locked state
give the entry, and the state, that the rounds of `path_resolve` give from the unlocked one with
that entry locked and unlocked once more; a panic of one is a panic of the other. -/
theorem namexLoop_pathResolveLoop : ∀ (fuel : Nat) {s s' : FS} {ip depth : Nat}
    {path name : List UInt8}, Inv s → s.disk.noLinks → ip < s.NINODE → ilock s ip = .ok s' →
    (namexLoop false fuel s' ip depth path name).map (fun r => (r.1, r.2.1)) =
      pathResolveLoop fuel s ip path >>= relocked
  | 0, s, s', ip, _, _, _, _, _, _, he => by
    simp only [namexLoop, pathResolveLoop, ok_bind, relocked, he, iunlock_of_ilock he]
    rfl
  | fuel + 1, s, s', ip, depth, path, name, h, hl, hN, he => by
    unfold namexLoop pathResolveLoop
    cases skipelem path with
    | none => simp only [ok_bind, relocked, he, iunlock_of_ilock he]; rfl
    | some pn =>
      obtain ⟨path', name'⟩ := pn
      dsimp only
      rw [ilock_ilock he, he, ok_bind, ok_bind]
      obtain ⟨h', hk'⟩ := h.ilock_ok hN he
      have hl' : s'.disk.noLinks := by rw [ilock_disk he]; exact hl
      have hN' : ip < s'.NINODE := by rw [(ilock_frame he).1.N]; exact hN
      by_cases hdir : (s'.itable ip).d.type = .dir
      · simp only [hdir, ne_eq, not_true_eq_false, ite_false, Bool.false_eq_true, false_and]
        cases hd : dirlookup s' ip name' with
        | error => rfl
        | ok r =>
          obtain ⟨s₂, next⟩ := r
          obtain ⟨h₂, hd₂, hN₂, hnext⟩ := h'.dirlookup_ok hk' hd
          have hl₂ : s₂.disk.noLinks := by rw [hd₂]; exact hl'
          cases next with
          | none => simp only [ok_bind]; cases iunlockput s₂ ip <;> rfl
          | some no =>
            obtain ⟨next, off⟩ := no
            simp only [ok_bind]
            cases hu : iunlockput s₂ ip with
            | error => rfl
            | ok s₃ =>
              obtain ⟨h₃, hl₃, hN₃⟩ := h₂.iunlockput_noLinks (hN₂ ▸ hN') hl₂ hu
              have hn₃ : next < s₃.NINODE := by rw [hN₃, hN₂]; exact hnext next off rfl
              simp only [ok_bind]
              cases hn : ilock s₃ next with
              | error => exact (pathResolveLoop_ilock_error hn fuel path').symm
              | ok s₄ =>
                obtain ⟨h₄, hk₄⟩ := h₃.ilock_ok hn₃ hn
                have hsym : (s₄.itable next).d.type ≠ .symlink := by
                  rw [(h₄.coh next hk₄).1.type, ilock_disk hn]
                  exact hl₃ _
                simp only [ok_bind, hsym, ite_false, iunlock_of_ilock hn]
                exact namexLoop_pathResolveLoop fuel h₃ hl₃ hn₃ hn
      · simp only [hdir, ne_eq, not_false_eq_true, ite_true]
        cases iunlockput s' ip <;> rfl

/-- Where a walk of `namex` starts: the root, for a path that starts with `/`, or the current
directory. -/
theorem namex_eq (s : FS) (cwd : Nat) (path : List UInt8) (parent : Bool) :
    namex s cwd path parent = if path = [] then .ok (s, none, []) else
      (if path.headD 0 = slash then iget s ROOTINO else pure (idup s cwd, cwd)) >>= fun r =>
        namexLoop parent (path.length + 1) r.1 r.2 0 path [] := by
  unfold namex
  split_ifs <;> rfl

theorem path_resolve_eq (s : FS) (cwd : Nat) (path : List UInt8) :
    path_resolve s cwd path = if path = [] then .ok (s, none, -1) else
      (if path.headD 0 = slash then iget s ROOTINO else pure (idup s cwd, cwd)) >>= fun r =>
        pathResolveLoop (path.length + 1) r.1 r.2 path := by
  unfold path_resolve
  split_ifs <;> rfl

/-- **`namei` is `path_resolve` with the link test.** On a file system of the invariant with no
symbolic link on disk, for a process whose current directory is a held entry and for every path,
`namei` returns the entry `path_resolve` returns, none when it fails, and the state it leaves;
when the path has an element, with that entry locked and unlocked once more, as `namex` does to
test it for a link. The two walks stop on the same panics. -/
theorem namei_path_resolve {s : FS} {cwd : Nat} (h : Inv s) (hl : s.disk.noLinks)
    (hc : s.held cwd) (path : List UInt8) :
    namei s cwd path = path_resolve s cwd path >>= fun r =>
      if skipelem path = none then .ok (r.1, r.2.1) else relocked r := by
  unfold namei
  rw [namex_eq, path_resolve_eq]
  by_cases hp : path = []
  · subst hp; rfl
  rw [if_neg hp, if_neg hp]
  have hstart : ∀ s₀ ip, (if path.headD 0 = slash then iget s ROOTINO else pure (idup s cwd, cwd)) =
      .ok (s₀, ip) → Inv s₀ ∧ s₀.disk.noLinks ∧ ip < s₀.NINODE := fun s₀ ip e => by
    split_ifs at e
    · obtain ⟨hkN, ⟨-, -, rfl⟩ | ⟨-, -, rfl⟩⟩ := iget_cases e <;>
        exact ⟨(h.of_iget e).1, hl, hkN⟩
    · cases e
      exact ⟨h.of_idup hc, hl, hc.1⟩
  cases hs : (if path.headD 0 = slash then iget s ROOTINO else pure (idup s cwd, cwd)) with
  | error => rfl
  | ok q =>
    obtain ⟨s₀, ip⟩ := q
    obtain ⟨h₀, hl₀, hN₀⟩ := hstart s₀ ip hs
    simp only [ok_bind]
    cases hsk : skipelem path with
    | none => simp only [namexLoop, pathResolveLoop, hsk, ok_bind, if_true]; rfl
    | some pn =>
      simp only [reduceCtorEq, if_false]
      cases he : ilock s₀ ip with
      | error =>
        simp only [namexLoop, pathResolveLoop, hsk, he, error_bind]
        rfl
      | ok s' =>
        rw [namexLoop_ilock hsk he]
        exact namexLoop_pathResolveLoop _ h₀ hl₀ hN₀ he

/-- `namei("/.")` and `path_resolve("/.")` on `rootImage`, its root held as a current
directory. -/
theorem namei_path_resolve_root :
    ∃ s, iget rootImage ROOTINO = .ok (s, 0) ∧ Inv s ∧ s.disk.noLinks ∧ s.held 0 ∧
      namei s 0 (ascii "/.") = path_resolve s 0 (ascii "/.") >>= fun r =>
        if skipelem (ascii "/.") = none then .ok (r.1, r.2.1) else relocked r :=
  ⟨_, rfl, (rootImage_image.inv.of_iget rfl).1, Disk.direct_noLinks (by decide),
    ⟨by decide, by decide⟩, namei_path_resolve (rootImage_image.inv.of_iget rfl).1
      (Disk.direct_noLinks (by decide)) ⟨by decide, by decide⟩ (ascii "/.")⟩

end Xv6.Fs
