import Xv6Kernel.Fs.Dirlink

/-!
# The directory API of `fs.c`

The functions `fs.c` adds after `nameiparent`: `dir_lookup_ex`, `dir_create_entry` and
`dir_remove_entry`, which return a status where `dirlookup` and `dirlink` panic or return `-1`.
(`path_walk` and `path_parent` return `namei` and `nameiparent`.) The two enhanced scans read
records as `dirScan` does but end with a status on a short read (`dirScanEx`); a scan `dirScan`
completes, `dirScanEx` completes with the same result (`dirScanEx_of_dirScan`).

* `dir_lookup_ex_dirlookup`: on a locked directory of the invariant whose size is a multiple of
  the record size, `dir_lookup_ex` returns what `dirlookup` returns, with status 0 or `-2`: the
  I/O status `-3` is never returned there, and a file that is not a directory gives `-1` where
  `dirlookup` panics.
* `dir_create_entry_dirlink`: `dir_create_entry` leaves the state `dirlink` leaves; its status
  tells apart the two failures `dirlink` reports as `-1`, and `-2` is never returned.
* `dir_remove_entry_spec`: `dir_remove_entry` clears the first live record with the name and
  nothing else, and returns 0 (never `-2`); lookups of every other name are unchanged, and on a
  directory whose names are unique the name is no longer found.
-/

namespace Xv6.Fs

/-! ## The status-returning scan -/

/-- The loop of `dir_lookup_ex` and `dir_create_entry`: the loop of `dirScan`, where a record that
reads short ends the scan with no offset, for the caller's I/O status, instead of a panic.
Returns the state and the offset reached with the record the scan stopped at. -/
def dirScanEx (dp : Nat) (stop : Dirent → Bool) :
    Nat → FS → Nat → Except Stop (FS × Option (Nat × Option Dirent))
  | 0, s, off => .ok (s, some (off, none))
  | fuel + 1, s, off =>
    if off < (s.itable dp).d.size then
      match readi s dp (fun _ _ => true) off direntSize with
      | .error e => .error e
      | .ok (s, r, out) =>
        if r ≠ direntSize then .ok (s, none)
        else if stop (Dirent.ofBytes out) then .ok (s, some (off, some (Dirent.ofBytes out)))
        else dirScanEx dp stop fuel s (u32 (off + direntSize))
    else .ok (s, some (off, none))

/-- `dir_lookup_ex(dp, name, poff, out)`: `-1` when `dp` is not a directory, `-3` when a record
reads short, `-2` when no live record is named `name`, and `0` with the entry `iget` returns for
the first live record named `name` and the record's offset (`*out`, `*poff`). -/
def dir_lookup_ex (s : FS) (dp : Nat) (name : List UInt8) :
    Except Stop (FS × Int × Option (Nat × Nat)) :=
  if (s.itable dp).d.type ≠ .dir then .ok (s, -1, none) else do
  let (s, r) ← dirScanEx dp (fun de => de.inum != 0 && namecmp name de.name == 0)
    (scanFuel s dp) s 0
  match r with
  | none => pure (s, -3, none)
  | some (_, none) => pure (s, -2, none)
  | some (off, some de) =>
    let (s, ip) ← iget s de.inum
    pure (s, 0, some (ip, off))

/-- `dir_create_entry(dp, name, inum)`: `-1` when `dirlookup` finds the name (the entry it took is
put back), `-2` when a record of the scan for a free record reads short, `-3` when the record's
`writei` is short, and `0` when the record is written at the first free record or at the end. -/
def dir_create_entry (s : FS) (dp : Nat) (name : List UInt8) (inum : Nat) :
    Except Stop (FS × Int) := do
  let (s, found) ← dirlookup s dp name
  match found with
  | some (ip, _) =>
    let s ← iput s ip
    pure (s, -1)
  | none =>
    let (s, r) ← dirScanEx dp (fun de => de.inum == 0) (scanFuel s dp) s 0
    match r with
    | none => pure (s, -2)
    | some (off, _) =>
      let (s, r) ← writei s dp (Dirent.bytes inum name) (fun _ _ => true) off direntSize
      pure (s, if r ≠ direntSize then -3 else 0)

/-- `dir_remove_entry(dp, name)`: `-1` when `dirlookup` misses; otherwise the entry it took is put
back and a zero record is written over the record it found: `-2` when that write is short, `0`
otherwise. -/
def dir_remove_entry (s : FS) (dp : Nat) (name : List UInt8) : Except Stop (FS × Int) := do
  let (s, found) ← dirlookup s dp name
  match found with
  | none => pure (s, -1)
  | some (ip, off) =>
    let s ← iput s ip
    let (s, r) ← writei s dp (fun _ => 0) (fun _ _ => true) off direntSize
    pure (s, if r ≠ direntSize then -2 else 0)

/-- A scan `dirScan` completes is one `dirScanEx` completes, at the same state, offset and
record: the two loops differ only where a record reads short. -/
theorem dirScanEx_of_dirScan {dp : Nat} {msg : String} {stop : Dirent → Bool} :
    ∀ {fuel : Nat} {s s' : FS} {off off' : Nat} {de : Option Dirent},
      dirScan dp msg stop fuel s off = .ok (s', off', de) →
      dirScanEx dp stop fuel s off = .ok (s', some (off', de))
  | 0, _, _, _, _, _, h => by cases h; rfl
  | fuel + 1, s, _, off, _, _, h => by
    unfold dirScan at h
    unfold dirScanEx
    split_ifs at h ⊢
    · cases hr : readi s dp (fun _ _ => true) off direntSize with
      | error => rw [hr] at h; cases h
      | ok q =>
        obtain ⟨s₁, r, out⟩ := q
        rw [hr] at h
        dsimp only at h ⊢
        split_ifs at h ⊢
        · cases h; rfl
        · exact dirScanEx_of_dirScan h
    · cases h; rfl

/-! ## Lookup and link with a status -/

section Status

variable {s : FS} {dp : Nat}

/-- **`dir_lookup_ex` is `dirlookup` with a status**: on a locked entry of the invariant whose size
is a multiple of the record size, a directory gives what `dirlookup` gives, with status 0 when it
finds the name and `-2` when it misses, so the I/O status `-3` is never returned; any other file
gives `-1` and the state unchanged, where `dirlookup` panics. -/
theorem dir_lookup_ex_dirlookup (h : Inv s) (hk : s.locked dp)
    (hal : (s.itable dp).d.size % direntSize = 0) (name : List UInt8) :
    dir_lookup_ex s dp name = if (s.itable dp).d.type = .dir then
      (dirlookup s dp name).map fun r => (r.1, if r.2.isSome then 0 else -2, r.2)
    else .ok (s, -1, none) := by
  unfold dir_lookup_ex
  by_cases hdir : (s.itable dp).d.type = .dir
  · rw [if_neg (not_not.2 hdir), if_pos hdir]
    unfold dirlookup
    rw [if_neg (not_not.2 hdir)]
    obtain ⟨t, c, ⟨j, -, -, -, -, e⟩ | ⟨-, e⟩⟩ := dirScan_find "dirlookup read"
      (fun de => de.inum != 0 && namecmp name de.name == 0) (scanFuel s dp) 0 h hk hal
      (by unfold scanFuel; omega) <;>
      rw [Nat.mul_zero] at e <;> rw [dirScanEx_of_dirScan e, e, ok_bind, ok_bind]
    · dsimp only
      cases iget (s.touch dp t c) (s.record dp j).inum <;> rfl
    · rfl
  · rw [if_pos hdir, if_neg hdir]

/-- `dir_lookup_ex` of `t` in the locked root directory of `linkImage`. -/
theorem dir_lookup_ex_linkRoot :
    Inv linkRoot ∧ linkRoot.locked 0 ∧ (linkRoot.itable 0).d.size % direntSize = 0 ∧
    dir_lookup_ex linkRoot 0 (ascii "t") = if (linkRoot.itable 0).d.type = .dir then
      (dirlookup linkRoot 0 (ascii "t")).map fun r => (r.1, if r.2.isSome then 0 else -2, r.2)
    else .ok (linkRoot, -1, none) :=
  ⟨linkRoot_reachable.inv, ⟨⟨by decide, by decide⟩, by decide⟩, by decide,
    dir_lookup_ex_dirlookup linkRoot_reachable.inv ⟨⟨by decide, by decide⟩, by decide⟩ (by decide)
      (ascii "t")⟩

example : (dir_lookup_ex linkRoot 0 (ascii "t")).map (fun r => r.2.1) = .ok 0 := rfl

/-- A record write's status, `a` or 0, read off `dirlink`'s `-1` or 0. -/
theorem writei_status (x : Except Stop (FS × Int)) (a : Int) :
    (x >>= fun d => pure (d.1, if d.2 ≠ direntSize then a else 0)) =
      (x >>= fun d => pure (d.1, if d.2 ≠ direntSize then -1 else 0)).map fun r =>
        (r.1, if r.2 = 0 then 0 else a) := by
  cases x with
  | error => rfl
  | ok d => by_cases hr : d.2 = 64 <;> simp [hr, Except.map]

/-- **`dir_create_entry` is `dirlink` with a status**: on a locked directory of the invariant whose
size is a multiple of the record size, `dir_create_entry` leaves the state `dirlink` leaves, and
returns 0 when `dirlink` does; of the two failures `dirlink` reports as `-1`, a name already
present gives `-1` and a short record write `-3`. The status `-2`, a record that reads short, is
never returned there. -/
theorem dir_create_entry_dirlink (h : Inv s) (hk : s.locked dp)
    (hdir : (s.itable dp).d.type = .dir) (hal : (s.itable dp).d.size % direntSize = 0)
    (name : List UInt8) (inum : Nat) :
    dir_create_entry s dp name inum = (dirlink s dp name inum).map fun r =>
      (r.1, if r.2 = 0 then 0 else if s.lookup dp name = none then -3 else -1) := by
  obtain ⟨t, c, e⟩ := h.dirlookup_lookup hk hdir hal name
  unfold dir_create_entry dirlink
  cases hq : s.lookup dp name with
  | some j =>
    rw [hq] at e
    dsimp only at e
    cases hg : iget (s.touch dp t c) (s.record dp j).inum with
    | error => rw [e, hg]; rfl
    | ok q =>
      obtain ⟨s₁, ip⟩ := q
      rw [e, hg]
      show (iput s₁ ip >>= fun s => pure (s, -1)) =
        Except.map _ (iput s₁ ip >>= fun s => pure (s, -1))
      cases iput s₁ ip <;> rfl
  | none =>
    rw [hq] at e
    rw [e, ok_bind, ok_bind]
    dsimp only
    obtain ⟨t', c', ⟨j, -, -, -, -, e'⟩ | ⟨-, e'⟩⟩ := dirScan_find "dirlink read"
      (fun de => de.inum == 0) (scanFuel (s.touch dp t c) dp) 0 (h.touch hk t c)
      ((FS.locked_touch s dp t c).2 hk) (by simpa using hal)
      (by simp only [scanFuel, FS.touch_size]; omega) <;>
      rw [Nat.mul_zero] at e' <;> rw [dirScanEx_of_dirScan e', e', ok_bind, ok_bind] <;>
      exact writei_status _ (-3)

/-- `dir_create_entry` of `u` to inode 5 in the locked root directory of `linkImage`. -/
theorem dir_create_entry_linkRoot :
    Inv linkRoot ∧ linkRoot.locked 0 ∧ (linkRoot.itable 0).d.type = .dir ∧
    (linkRoot.itable 0).d.size % direntSize = 0 ∧
    dir_create_entry linkRoot 0 (ascii "u") 5 = (dirlink linkRoot 0 (ascii "u") 5).map fun r =>
      (r.1, if r.2 = 0 then 0 else if linkRoot.lookup 0 (ascii "u") = none then -3 else -1) :=
  ⟨linkRoot_reachable.inv, ⟨⟨by decide, by decide⟩, by decide⟩, by decide, by decide,
    dir_create_entry_dirlink linkRoot_reachable.inv ⟨⟨by decide, by decide⟩, by decide⟩ (by decide)
      (by decide) (ascii "u") 5⟩

end Status

/-! ## Removal -/

/-- Two names `strncmp` finds equal to a third it finds equal to each other. -/
theorem strncmp_eq_zero_trans : ∀ (n : Nat) {p q r : List UInt8},
    strncmp n p q = 0 → strncmp n q r = 0 → strncmp n p r = 0
  | 0, _, _, _, _, _ => rfl
  | n + 1, p, q, r, h₁, h₂ => by
    unfold strncmp at *
    have inj : ∀ a b : UInt8, ((a.toNat : Int) - b.toNat = 0) → a = b := fun a b e =>
      UInt8.toNat.inj (by omega)
    by_cases hp : p.headD 0 ≠ 0 ∧ p.headD 0 = q.headD 0
    · rw [if_pos hp] at h₁
      by_cases hq : q.headD 0 ≠ 0 ∧ q.headD 0 = r.headD 0
      · rw [if_pos hq] at h₂
        rw [if_pos ⟨hp.1, hp.2.trans hq.2⟩]
        exact strncmp_eq_zero_trans n h₁ h₂
      · rw [if_neg hq] at h₂
        exact absurd ⟨hp.2 ▸ hp.1, inj _ _ h₂⟩ hq
    · rw [if_neg hp] at h₁
      have e₁ := inj _ _ h₁
      have h0 : p.headD 0 = 0 := by_contra fun h0 => hp ⟨h0, e₁⟩
      rw [if_neg fun hq => hq.1 (e₁ ▸ h0)] at h₂
      rw [if_neg fun hr => hr.1 h0, h0]
      rw [← e₁, h0] at h₂
      exact h₂

/-- Two names `namecmp` finds equal to one record name are equal to each other for `namecmp`. -/
theorem namecmp_eq_zero_of_eq_zero {a b x : List UInt8} (ha : namecmp a x = 0)
    (hb : namecmp b x = 0) : namecmp a b = 0 :=
  strncmp_eq_zero_trans _ ha ((namecmp_eq_zero_comm b x).1 hb)

/-- `iget` picks its entry by the table's size, every entry's references and the inode of every
entry that has some: a change to an entry nothing refers to is invisible to it. -/
theorem iget_congr_live {s s' : FS} (hN : s'.NINODE = s.NINODE)
    (hr : ∀ k, (s'.itable k).ref = (s.itable k).ref)
    (hi : ∀ k, 0 < (s.itable k).ref → (s'.itable k).inum = (s.itable k).inum) {β : Type}
    (f : Nat → β) (inum : Nat) :
    (iget s' inum).map (fun r => f r.2) = (iget s inum).map (fun r => f r.2) := by
  have e : ∀ k, (0 < (s'.itable k).ref ∧ (s'.itable k).inum = inum) ↔
      (0 < (s.itable k).ref ∧ (s.itable k).inum = inum) := fun k => by
    rw [hr k]
    exact and_congr_right fun h0 => by rw [hi k h0]
  unfold iget
  simp only [hN, e]
  simp only [hr]
  split <;> (try split) <;> rfl

/-- Clearing one record keeps the names of a directory unique. -/
theorem NamesUnique.clear {rec rec' : Nat → Dirent} {n j : Nat} (hu : NamesUnique rec n)
    (hj : (rec' j).inum = 0) (hkeep : ∀ i < n, i ≠ j → rec' i = rec i) : NamesUnique rec' n :=
  fun a ha b hb hab la lb => by
    have haj : a ≠ j := fun e => la (e ▸ hj)
    have hbj : b ≠ j := fun e => lb (e ▸ hj)
    rw [hkeep a ha haj] at la ⊢
    rw [hkeep b hb hbj] at lb ⊢
    exact hu a ha b hb hab la lb

section Remove

variable {s : FS} {dp : Nat}

/-- A lookup that finds the name, then the put of the entry it took, as `dirlink`,
`dir_create_entry` and `dir_remove_entry` do: the record is the one `FS.lookup` names, and the put
frees nothing, so the disk, every reference count, and the inode and flag of every entry that has
references are as they were, and the directory's copy has changed only its access time. -/
theorem Inv.dirlookup_iput (h : Inv s) (hk : s.locked dp) (hdir : (s.itable dp).d.type = .dir)
    (hal : (s.itable dp).d.size % direntSize = 0) {name : List UInt8} {s₁ : FS} {ip off : Nat}
    (hf : dirlookup s dp name = .ok (s₁, some (ip, off))) :
    ∃ j s₂, s.lookup dp name = some j ∧ off = direntSize * j ∧ iput s₁ ip = .ok s₂ ∧ Inv s₂ ∧
      s₂.disk = s.disk ∧ s₂.NINODE = s.NINODE ∧
      (∃ t, (s₂.itable dp).d = { (s.itable dp).d with atime := t }) ∧
      ∀ k, (s₂.itable k).ref = (s.itable k).ref ∧ (0 < (s.itable k).ref →
        (s₂.itable k).inum = (s.itable k).inum ∧ (s₂.itable k).valid = (s.itable k).valid) := by
  obtain ⟨t, c, e⟩ := h.dirlookup_lookup hk hdir hal name
  cases hq : s.lookup dp name with
  | none => rw [hq] at e; rw [e] at hf; cases hf
  | some j =>
    rw [hq] at e
    dsimp only at e
    rw [e] at hf
    cases hg : iget (s.touch dp t c) (s.record dp j).inum with
    | error _ => rw [hg] at hf; cases hf
    | ok q =>
      obtain ⟨s₂, k⟩ := q
      rw [hg] at hf
      cases hf
      dsimp only
      have hI := ((h.touch hk t c).of_iget hg).1
      have ht : ((s.touch dp t c).itable dp).d = { (s.itable dp).d with atime := t } := by
        simp [FS.touch]
      obtain ⟨-, ⟨hr, -, rfl⟩ | ⟨hr, -, rfl⟩⟩ := iget_cases hg
      · rw [iput_keep (by simp only [FS.modify_self]; omega)]
        refine ⟨j, _, rfl, rfl, rfl, hI.of_decRef k, by simp, by simp,
          ⟨t, ((FS.modify_field (fun e => e.d) _ _ _ rfl dp).trans
            (FS.modify_field (fun e => e.d) _ _ _ rfl dp)).trans ht⟩, fun k' => ?_⟩
        by_cases hki : k' = k
        · subst hki; simp
        · simp [FS.modify_of_ne _ _ hki]
      · rw [iput_keep (by simp)]
        refine ⟨j, _, rfl, rfl, rfl, hI.of_decRef k, by simp, by simp,
          ⟨t, ((FS.modify_field (fun e => e.d) _ _ _ rfl dp).trans
            (FS.modify_field (fun e => e.d) _ _ _ rfl dp)).trans ht⟩, fun k' => ?_⟩
        by_cases hki : k' = k
        · subst hki; simp only [FS.touch_ref] at hr; simp [hr]
        · simp [FS.modify_of_ne _ _ hki]

/-- The zero record of `dir_remove_entry`, written over record `j` below the size of a locked
directory, is written whole: record `j` then holds inode 0, and the invariant, the lock, the type,
the size, every other record, every entry's inode and references and every other allocated
dinode with its bytes are kept. -/
theorem Inv.writei_zero_record (h : Inv s) (hk : s.locked dp)
    (hal : (s.itable dp).d.size % direntSize = 0) {j : Nat}
    (hj : j < (s.itable dp).d.size / direntSize) :
    ∃ s', writei s dp (fun _ => 0) (fun _ _ => true) (direntSize * j) direntSize =
        .ok (s', direntSize) ∧ Inv s' ∧ s'.locked dp ∧ s'.NINODE = s.NINODE ∧
      (s'.itable dp).d.type = (s.itable dp).d.type ∧
      (s'.itable dp).d.size = (s.itable dp).d.size ∧ (s'.record dp j).inum = 0 ∧
      (∀ i < (s.itable dp).d.size / direntSize, i ≠ j → s'.record dp i = s.record dp i) ∧
      (∀ k, (s'.itable k).inum = (s.itable k).inum ∧ (s'.itable k).ref = (s.itable k).ref) ∧
      (∀ i, i ≠ (s.itable dp).inum → s.disk.alloc i → s'.disk.dinode i = s.disk.dinode i ∧
        ∀ y < (s.disk.dinode i).size,
          fileByte s'.disk (s'.disk.addrs i) y = fileByte s.disk (s.disk.addrs i) y) := by
  have hlt : direntSize * j < (s.itable dp).d.size := by simp only [direntSize_eq] at *; omega
  have hoff : direntSize * j < 2 ^ 32 := by have := h.size_lt hk; omega
  obtain ⟨s', hw⟩ := h.writei_record hk hal (fun _ => 0) (Nat.mul_mod_right _ _) hlt
  have hz : (fun _ : Nat => (0 : UInt8)) = Dirent.bytes 0 [] :=
    funext fun k => by simp [Dirent.bytes]
  obtain ⟨hty, hkeep, ⟨-, hsz, hrec⟩ | ⟨hr, -⟩⟩ := h.writei_dirent hk hal hj.le 0 [] (hz ▸ hw)
  · obtain ⟨hS, hst⟩ := h.writei_frame hk hoff (by decide) hw
    refine ⟨s', hw, h.of_writei hk hoff (by decide) hw, (hst dp).1.locked hS (hst dp).2.ge hk,
      hS.N, hty, ?_, by rw [hrec]; rfl, hkeep, fun k => ⟨(hst k).1.inum, (hst k).2⟩,
      fun i hi ha => h.writei_keeps_other hk hoff (by decide) hw hi ha⟩
    rw [hsz]
    simp only [direntSize_eq] at *
    omega
  · exact absurd rfl hr

/-- `dir_remove_entry` when `dirlookup` finds the name at record `j`: the entry is put back and
record `j` cleared, with status 0. -/
theorem Inv.dir_remove_entry_found (h : Inv s) (hk : s.locked dp)
    (hdir : (s.itable dp).d.type = .dir) (hal : (s.itable dp).d.size % direntSize = 0)
    {name : List UInt8} {s₁ : FS} {ip off : Nat}
    (hf : dirlookup s dp name = .ok (s₁, some (ip, off))) :
    ∃ j s', s.lookup dp name = some j ∧ off = direntSize * j ∧
      dir_remove_entry s dp name = .ok (s', 0) ∧ Inv s' ∧ s'.locked dp ∧ s'.NINODE = s.NINODE ∧
      (s'.itable dp).d.type = .dir ∧ (s'.itable dp).inum = (s.itable dp).inum ∧
      (s'.itable dp).d.size = (s.itable dp).d.size ∧ (s'.record dp j).inum = 0 ∧
      (∀ i < (s.itable dp).d.size / direntSize, i ≠ j → s'.record dp i = s.record dp i) ∧
      (∀ k, (s'.itable k).ref = (s.itable k).ref ∧
        (0 < (s.itable k).ref → (s'.itable k).inum = (s.itable k).inum)) ∧
      (∀ i, i ≠ (s.itable dp).inum → s.disk.alloc i → s'.disk.dinode i = s.disk.dinode i ∧
        ∀ y < (s.disk.dinode i).size,
          fileByte s'.disk (s'.disk.addrs i) y = fileByte s.disk (s.disk.addrs i) y) := by
  obtain ⟨j, s₂, hq, rfl, hp, h₂, hd, hN, ⟨t, ht⟩, href⟩ := h.dirlookup_iput hk hdir hal hf
  have hk₂ : s₂.locked dp :=
    ⟨⟨hN ▸ hk.1.1, (href dp).1 ▸ hk.1.2⟩, ((href dp).2 hk.1.2).2 ▸ hk.2⟩
  have hsz₂ : (s₂.itable dp).d.size = (s.itable dp).d.size := by rw [ht]
  have hrec₂ : s₂.record dp = s.record dp := funext fun i => by unfold FS.record; rw [hd, ht]
  have hj : j < (s.itable dp).d.size / direntSize :=
    List.mem_range.1 (List.find?_range_eq_some.1 hq).2.1
  obtain ⟨s', hw, h', hk', hN', hty, hsz, hz, hkeep, hent, hother⟩ :=
    h₂.writei_zero_record hk₂ (hsz₂ ▸ hal) (hsz₂ ▸ hj)
  have hr : dir_remove_entry s dp name = .ok (s', 0) := by
    unfold dir_remove_entry
    rw [hf, ok_bind]
    dsimp only
    rw [hp, ok_bind, hw, ok_bind]
    rfl
  have hi₂ : (s₂.itable dp).inum = (s.itable dp).inum := ((href dp).2 hk.1.2).1
  refine ⟨j, s', hq, rfl, hr, h', hk', hN'.trans hN, by rw [hty, ht]; exact hdir,
    (hent dp).1.trans hi₂, hsz.trans hsz₂, hz, fun i hi hij => ?_, fun k => ?_,
    fun i hi ha => ?_⟩
  · rw [hkeep i (hsz₂ ▸ hi) hij, hrec₂]
  · exact ⟨(hent k).2.trans (href k).1, fun h0 => (hent k).1.trans ((href k).2 h0).1⟩
  · have ha₂ : s₂.disk.alloc i := hd ▸ ha
    obtain ⟨e₁, e₂⟩ := hother i (hi₂ ▸ hi) ha₂
    rw [hd] at e₁ e₂
    exact ⟨e₁, e₂⟩

/-- A lookup of a name that does not match record `j`, in a directory changed only by clearing
record `j`, returns what it returned before. -/
theorem Inv.dirlookup_clear {s' : FS} (h : Inv s) (hk : s.locked dp)
    (hdir : (s.itable dp).d.type = .dir) (hal : (s.itable dp).d.size % direntSize = 0)
    (h' : Inv s') (hk' : s'.locked dp) (hdir' : (s'.itable dp).d.type = .dir)
    (hsz : (s'.itable dp).d.size = (s.itable dp).d.size) (hN : s'.NINODE = s.NINODE)
    (href : ∀ k, (s'.itable k).ref = (s.itable k).ref ∧
      (0 < (s.itable k).ref → (s'.itable k).inum = (s.itable k).inum))
    {j : Nat} (hj0 : (s'.record dp j).inum = 0)
    (hkeep : ∀ i < (s.itable dp).d.size / direntSize, i ≠ j → s'.record dp i = s.record dp i)
    {name : List UInt8} (hne : (s.record dp j).inum ≠ 0 → namecmp name (s.record dp j).name ≠ 0) :
    (dirlookup s' dp name).map Prod.snd = (dirlookup s dp name).map Prod.snd := by
  have hq : s'.lookup dp name = s.lookup dp name := by
    unfold FS.lookup firstLive
    rw [hsz]
    refine find?_range_extend le_rfl fun i hi => ?_
    by_cases hij : i = j
    · subst hij
      by_cases h0 : (s.record dp i).inum = 0 <;> simp [hj0, h0, hne]
    · simp [hkeep i hi hij, show i < (s.itable dp).d.size / 64 from hi]
  rw [h'.dirlookup_result hk' hdir' (hsz ▸ hal) name, h.dirlookup_result hk hdir hal name, hq]
  cases hl : s.lookup dp name with
  | none => rfl
  | some k =>
    obtain ⟨hkm, hkn, -⟩ := List.find?_range_eq_some.1 hl
    have hkj : k ≠ j := by
      rintro rfl
      simp only [Bool.and_eq_true, bne_iff_ne, beq_iff_eq] at hkm
      exact hne hkm.1 hkm.2
    dsimp only
    rw [hkeep k (List.mem_range.1 hkn) hkj]
    exact iget_congr_live hN (fun k => (href k).1) (fun k => (href k).2)
      (fun ip => some (ip, direntSize * k)) _

end Remove

/-- **What `dir_remove_entry` removes.** On a locked directory of the invariant whose size is a
multiple of the record size: when no live record has the name, the status is `-1` and only the
directory's access time has changed. When `dirlookup` finds the name, the status is 0, so the
write status `-2` is never returned; the first live record with the name is cleared, and the
invariant, the lock, the size, every other record and every reference count are kept.
`dirlookup` of every name `namecmp` tells apart from it then returns what it returned before; in a
directory whose live records had names `namecmp` tells apart, `dirlookup` of the name misses; and
no directory comes to hold two live records whose names `namecmp` makes equal. -/
theorem dir_remove_entry_spec {s : FS} {dp : Nat} (h : Inv s) (hk : s.locked dp)
    (hdir : (s.itable dp).d.type = .dir) (hal : (s.itable dp).d.size % direntSize = 0)
    (name : List UInt8) :
    (s.lookup dp name = none → ∃ t c, dir_remove_entry s dp name = .ok (s.touch dp t c, -1)) ∧
    ∀ s₁ ip off, dirlookup s dp name = .ok (s₁, some (ip, off)) →
      ∃ j s', s.lookup dp name = some j ∧ dir_remove_entry s dp name = .ok (s', 0) ∧
        Inv s' ∧ s'.locked dp ∧ (∀ k, (s'.itable k).ref = (s.itable k).ref) ∧
        (s'.itable dp).d.size = (s.itable dp).d.size ∧ (s'.record dp j).inum = 0 ∧
        (∀ i < (s.itable dp).d.size / direntSize, i ≠ j → s'.record dp i = s.record dp i) ∧
        (∀ name', namecmp name' name ≠ 0 →
          (dirlookup s' dp name').map Prod.snd = (dirlookup s dp name').map Prod.snd) ∧
        (s.disk.namesUnique (s.itable dp).inum →
          (dirlookup s' dp name).map Prod.snd = .ok none) ∧
        ∀ i, (s.disk.dinode i).type = .dir → s.disk.namesUnique i → s'.disk.namesUnique i := by
  refine ⟨fun hm => ?_, fun s₁ ip off hf => ?_⟩
  · obtain ⟨t, c, e⟩ := h.dirlookup_lookup hk hdir hal name
    rw [hm] at e
    exact ⟨t, c, by unfold dir_remove_entry; rw [e]; rfl⟩
  obtain ⟨j, s', hq, -, hr, h', hk', hN, hdir', hi', hsz, hj0, hkeep, href, hother⟩ :=
    h.dir_remove_entry_found hk hdir hal hf
  obtain ⟨hjm, hjn, -⟩ := List.find?_range_eq_some.1 hq
  simp only [Bool.and_eq_true, bne_iff_ne, beq_iff_eq] at hjm
  have hj := List.mem_range.1 hjn
  refine ⟨j, s', hq, hr, h', hk', fun k => (href k).1, hsz, hj0, hkeep, fun name' hne =>
    h.dirlookup_clear hk hdir hal h' hk' hdir' hsz hN href hj0 hkeep fun _ e =>
      hne (namecmp_eq_zero_of_eq_zero e hjm.2), fun hu => ?_, fun i hi hu => ?_⟩
  · -- a second live record with the name would break uniqueness
    rw [h.namesUnique_iff hk] at hu
    have hm : s'.lookup dp name = none := FS.lookup_eq_none.2 fun i hi hl he => by
      rw [hsz] at hi
      have hij : i ≠ j := fun e => hl (e ▸ hj0)
      rw [hkeep i hi hij] at hl he
      exact hu i hi j hj hij hl hjm.1
        (strncmp_eq_zero_trans _ ((namecmp_eq_zero_comm _ _).1 he) hjm.2)
    rw [h'.dirlookup_result hk' hdir' (hsz ▸ hal) name, hm]
  · -- the directory lost a live record; every other directory is kept
    by_cases hid : i = (s.itable dp).inum
    · subst hid
      rw [h.namesUnique_iff hk] at hu
      rw [← hi', h'.namesUnique_iff hk', hsz]
      exact hu.clear hj0 hkeep
    · obtain ⟨hdi, hby⟩ := hother i hid (by unfold Disk.alloc; rw [hi]; decide)
      unfold Disk.namesUnique at hu ⊢
      rw [hdi]
      exact hu.congr fun k hk => record_congr fun t ht => hby _ (by
        simp only [direntSize_eq] at *; omega)

/-- Removing `t` from the locked root directory of `linkImage`. -/
theorem dir_remove_entry_linkRoot :
    Inv linkRoot ∧ linkRoot.locked 0 ∧ (linkRoot.itable 0).d.type = .dir ∧
    (linkRoot.itable 0).d.size % direntSize = 0 ∧
    (linkRoot.lookup 0 (ascii "t") = none →
      ∃ t c, dir_remove_entry linkRoot 0 (ascii "t") = .ok (linkRoot.touch 0 t c, -1)) ∧
    ∀ s₁ ip off, dirlookup linkRoot 0 (ascii "t") = .ok (s₁, some (ip, off)) →
      ∃ j s', linkRoot.lookup 0 (ascii "t") = some j ∧
        dir_remove_entry linkRoot 0 (ascii "t") = .ok (s', 0) ∧
        Inv s' ∧ s'.locked 0 ∧ (∀ k, (s'.itable k).ref = (linkRoot.itable k).ref) ∧
        (s'.itable 0).d.size = (linkRoot.itable 0).d.size ∧ (s'.record 0 j).inum = 0 ∧
        (∀ i < (linkRoot.itable 0).d.size / direntSize, i ≠ j →
          s'.record 0 i = linkRoot.record 0 i) ∧
        (∀ name', namecmp name' (ascii "t") ≠ 0 →
          (dirlookup s' 0 name').map Prod.snd = (dirlookup linkRoot 0 name').map Prod.snd) ∧
        (linkRoot.disk.namesUnique (linkRoot.itable 0).inum →
          (dirlookup s' 0 (ascii "t")).map Prod.snd = .ok none) ∧
        ∀ i, (linkRoot.disk.dinode i).type = .dir → linkRoot.disk.namesUnique i →
          s'.disk.namesUnique i :=
  ⟨linkRoot_reachable.inv, ⟨⟨by decide, by decide⟩, by decide⟩, by decide, by decide,
    dir_remove_entry_spec linkRoot_reachable.inv ⟨⟨by decide, by decide⟩, by decide⟩ (by decide)
      (by decide) (ascii "t")⟩

example : (dir_remove_entry linkRoot 0 (ascii "t")).map Prod.snd = .ok 0 := rfl

end Xv6.Fs
