import Xv6Kernel.Fs.Content

/-!
# Directories

The directory functions of `fs.c`. A directory is a file of 64-byte `struct dirent` records, a
little-endian `ushort` inode number and `DIRSIZ` name bytes, read one at a time by `readi` into a
kernel buffer, so the copy-out always succeeds. `dirlookup`, `dirlink` and `isdirempty` run the
same scan over the records (`dirScan`), which panics when a record reads short.

* `dirScan_find`: on a locked directory of the invariant whose size is a multiple of the record
  size no record reads short, and a scan returns the first record from its start that it looks
  for, changing only the directory's access time.
* `Inv.isdirempty_exact`, `Inv.dirlookup_find`: so `isdirempty` says whether every record past
  `.` and `..` is free, and `dirlookup` finds the first live record with the name.
* `Inv.dirlookup_ne_read`, `Inv.dirlink_ne_read`, `Inv.isdirempty_ne_read`: the panics
  `dirlookup read`, `dirlink read` and `isdirempty: readi` are unreachable there, and a record
  written at a record offset below the size is written whole (`Inv.writei_record`).
-/

namespace Xv6.Fs

/-! ## Records and names -/

/-- `sizeof(struct dirent)`. -/
def direntSize : Nat := 64

@[simp] theorem direntSize_eq : direntSize = 64 := rfl

/-- A `struct dirent`: the inode number and the `DIRSIZ` name bytes. -/
structure Dirent where
  inum : Nat
  name : List UInt8
  deriving DecidableEq, Repr

/-- The record in the bytes `readi` delivered into `de`. -/
def Dirent.ofBytes (bs : List UInt8) : Dirent :=
  ⟨(bs.getD 0 0).toNat + 256 * (bs.getD 1 0).toNat, (bs.drop 2).take DIRSIZ⟩

/-- Byte `k` of the record `dirlink` writes: `de.inum = inum` keeps the low 16 bits, and
`strncpy(de.name, name, DIRSIZ)` copies the name, which holds no NUL, and pads it with NULs. -/
def Dirent.bytes (inum : Nat) (name : List UInt8) (k : Nat) : UInt8 :=
  if k = 0 then UInt8.ofNat (inum % 256)
  else if k = 1 then UInt8.ofNat (inum / 256 % 256)
  else if k < 2 + DIRSIZ then name.getD (k - 2) 0 else 0

/-- `strncmp(p, q, n)`. `string.c` is not among the sources: this is the C library's function, on
strings given by their bytes before the NUL, so that a byte past the end reads as NUL. -/
def strncmp : Nat → List UInt8 → List UInt8 → Int
  | 0, _, _ => 0
  | n + 1, p, q =>
    if p.headD 0 ≠ 0 ∧ p.headD 0 = q.headD 0 then strncmp n p.tail q.tail
    else ((p.headD 0).toNat : Int) - (q.headD 0).toNat

/-- `namecmp(s, t)`. -/
def namecmp (s t : List UInt8) : Int := strncmp DIRSIZ s t

/-- The bytes of an ASCII string literal of the source, such as `"."`. -/
def ascii (str : String) : List UInt8 := str.toList.map fun c => UInt8.ofNat c.toNat

/-- A block holding the bytes `l` from offset 0, zero past them. -/
def Block.ofBytes (l : List UInt8) : Block := fun x => l.getD x 0

/-- A directory block holding the records `l`, inode number and name, one every
`sizeof(struct dirent)` bytes, zero past them. -/
def Block.ofRecords (l : List (Nat × List UInt8)) : Block := fun x =>
  match l.get? (x / direntSize) with
  | some (i, n) => Dirent.bytes i n (x % direntSize)
  | none => 0

/-- Record `k` of a directory whose addresses are `a`: bytes `64 k` to `64 k + 63`, as `readi`
delivers them. -/
def Disk.record (d : Disk) (a : Addrs) (k : Nat) : Dirent :=
  Dirent.ofBytes ((List.range direntSize).map fun j => fileByte d a (direntSize * k + j))

/-- The whole records of a directory whose dinode is `x`. -/
def Disk.records (d : Disk) (x : DInode) : List Dirent :=
  (List.range (x.size / direntSize)).map (d.record x.addrs)

/-! ## The record scan -/

/-- The scan of `dirlookup`, `dirlink` and `isdirempty`: `for(; off < dp->size; off += sizeof(de))`
reads each record with `readi`, panics with `msg` when it reads short, and stops at the first
record `stop` accepts. Returns the state, the offset reached and the record it stopped at. -/
def dirScan (dp : Nat) (msg : String) (stop : Dirent → Bool) :
    Nat → FS → Nat → Except Stop (FS × Nat × Option Dirent)
  | 0, s, off => .ok (s, off, none)
  | fuel + 1, s, off =>
    if off < (s.itable dp).d.size then
      match readi s dp (fun _ _ => true) off direntSize with
      | .error e => .error e
      | .ok (s, r, out) =>
        if r ≠ direntSize then .error (.panic msg)
        else if stop (Dirent.ofBytes out) then .ok (s, off, some (Dirent.ofBytes out))
        else dirScan dp msg stop fuel s (u32 (off + direntSize))
    else .ok (s, off, none)

/-- The rounds a scan of directory `dp` may take: each moves `off` one record on. -/
def scanFuel (s : FS) (dp : Nat) : Nat := (s.itable dp).d.size / direntSize + 1

/-- `dirlookup(dp, name, poff)`: the entry `iget` returns for the first live record named `name`,
with the record's offset (`*poff`), or none. -/
def dirlookup (s : FS) (dp : Nat) (name : List UInt8) : Except Stop (FS × Option (Nat × Nat)) :=
  if (s.itable dp).d.type ≠ .dir then .error (.panic "dirlookup not DIR") else do
  let (s, off, de) ← dirScan dp "dirlookup read"
    (fun de => de.inum != 0 && namecmp name de.name == 0) (scanFuel s dp) s 0
  match de with
  | none => pure (s, none)
  | some de =>
    let (s, ip) ← iget s de.inum
    pure (s, some (ip, off))

/-- `dirlink(dp, name, inum)`: `-1` when the name is present (the entry `dirlookup` took is put
back) or the record's `writei` is short; otherwise the record is written at the first free slot,
or at the end, and the result is `0`. -/
def dirlink (s : FS) (dp : Nat) (name : List UInt8) (inum : Nat) : Except Stop (FS × Int) := do
  let (s, found) ← dirlookup s dp name
  match found with
  | some (ip, _) =>
    let s ← iput s ip
    pure (s, -1)
  | none =>
    let (s, off, _) ← dirScan dp "dirlink read" (fun de => de.inum == 0) (scanFuel s dp) s 0
    let (s, r) ← writei s dp (Dirent.bytes inum name) (fun _ _ => true) off direntSize
    pure (s, if r ≠ direntSize then -1 else 0)

/-- `isdirempty(dp)`: whether every record past `.` and `..` is free. -/
def isdirempty (s : FS) (dp : Nat) : Except Stop (FS × Bool) := do
  let (s, _, de) ← dirScan dp "isdirempty: readi" (fun de => de.inum != 0) (scanFuel s dp) s
    (2 * direntSize)
  pure (s, de.isNone)

/-! ## What `readi` leaves -/

/-- Entry `dp` with only its access time changed, and the clock of `iupdatatime`: the state
`readi` leaves. -/
def FS.touch (s : FS) (dp t c : Nat) : FS :=
  { s with atimeClock := c }.modify dp fun e => { e with d := { e.d with atime := t } }

section Touch

variable (s : FS) (dp t c : Nat)

@[simp] theorem FS.touch_disk : (s.touch dp t c).disk = s.disk := rfl
@[simp] theorem FS.touch_sb : (s.touch dp t c).sb = s.sb := rfl
@[simp] theorem FS.touch_NINODE : (s.touch dp t c).NINODE = s.NINODE := rfl
@[simp] theorem FS.touch_mtimeClock : (s.touch dp t c).mtimeClock = s.mtimeClock := rfl

@[simp] theorem FS.touch_inum (j : Nat) : ((s.touch dp t c).itable j).inum = (s.itable j).inum :=
  FS.modify_field Inode.inum _ _ _ rfl j
@[simp] theorem FS.touch_ref (j : Nat) : ((s.touch dp t c).itable j).ref = (s.itable j).ref :=
  FS.modify_field Inode.ref _ _ _ rfl j
@[simp] theorem FS.touch_valid (j : Nat) :
    ((s.touch dp t c).itable j).valid = (s.itable j).valid :=
  FS.modify_field Inode.valid _ _ _ rfl j
@[simp] theorem FS.touch_size (j : Nat) :
    ((s.touch dp t c).itable j).d.size = (s.itable j).d.size :=
  FS.modify_field (fun e => e.d.size) _ _ _ rfl j
@[simp] theorem FS.touch_type (j : Nat) :
    ((s.touch dp t c).itable j).d.type = (s.itable j).d.type :=
  FS.modify_field (fun e => e.d.type) _ _ _ rfl j
@[simp] theorem FS.touch_nlink (j : Nat) :
    ((s.touch dp t c).itable j).d.nlink = (s.itable j).d.nlink :=
  FS.modify_field (fun e => e.d.nlink) _ _ _ rfl j
@[simp] theorem FS.touch_addrs (j : Nat) :
    ((s.touch dp t c).itable j).d.addrs = (s.itable j).d.addrs :=
  FS.modify_field (fun e => e.d.addrs) _ _ _ rfl j

theorem FS.touch_touch (t' c' : Nat) : (s.touch dp t c).touch dp t' c' = s.touch dp t' c' := by
  simp only [FS.touch, FS.modify, Function.update_same, Function.update_idem]

theorem FS.touch_self : s.touch dp (s.itable dp).d.atime s.atimeClock = s := by
  simp only [FS.touch, FS.modify, Function.update_eq_self]

theorem FS.locked_touch {k : Nat} : (s.touch dp t c).locked k ↔ s.locked k := by
  simp only [FS.locked, FS.held, FS.touch_NINODE, FS.touch_ref, FS.touch_valid]

end Touch

/-- Record `j` of the directory held in entry `dp`, through its in-memory addresses. -/
def FS.record (s : FS) (dp j : Nat) : Dirent := s.disk.record (s.itable dp).d.addrs j

@[simp] theorem FS.record_touch (s : FS) (dp t c k j : Nat) :
    (s.touch dp t c).record k j = s.record k j := by
  simp only [FS.record, FS.touch_disk, FS.touch_addrs]

/-! ## Scans on a directory of the invariant -/

section Scan

variable {s : FS} {dp : Nat}

/-- Two panics with different messages are different stops. -/
theorem error_panic_ne {α : Type} {a b : String} (h : a ≠ b) :
    (Except.error (Stop.panic a) : Except Stop α) ≠ .error (.panic b) :=
  fun e => h (by injection e with e; injection e)

theorem Inv.touch (h : Inv s) (hk : s.locked dp) (t c : Nat) : Inv (s.touch dp t c) :=
  h.of_setAtime hk t c

/-- On a locked directory whose size is a multiple of the record size, the record at a record
offset below the size reads whole. -/
theorem Inv.readi_record (h : Inv s) (hk : s.locked dp)
    (hal : (s.itable dp).d.size % direntSize = 0) {off : Nat} (ho : off % direntSize = 0)
    (hlt : off < (s.itable dp).d.size) :
    ∃ t c, readi s dp (fun _ _ => true) off direntSize = .ok (s.touch dp t c, direntSize,
      (List.range direntSize).map fun j => fileByte s.disk (s.itable dp).d.addrs (off + j)) := by
  have hsz := h.size_lt hk
  simp only [direntSize_eq] at *
  obtain ⟨t, c, r, out, e, hall⟩ := h.readi_eq hk (fun _ _ => true)
    (show off < 2 ^ 32 by omega) (show 64 < 2 ^ 32 by decide)
  obtain ⟨hr, hout⟩ := hall (fun _ _ => rfl) hlt.le (by omega)
  rw [show min 64 ((s.itable dp).d.size - off) = 64 by omega] at hr hout
  exact ⟨t, c, by rw [e, hr, hout]; rfl⟩

/-- A record written at a record offset below the size of a locked directory is written whole. -/
theorem Inv.writei_record (h : Inv s) (hk : s.locked dp)
    (hal : (s.itable dp).d.size % direntSize = 0) (src : Nat → UInt8) {off : Nat}
    (ho : off % direntSize = 0) (hlt : off < (s.itable dp).d.size) :
    ∃ s', writei s dp src (fun _ _ => true) off direntSize = .ok (s', direntSize) :=
  h.writei_inside hk src (fun _ _ => rfl) (by simp only [direntSize_eq] at *; omega)

/-- What a scan finds: on a locked directory whose size is a multiple of the record size, a scan
from record `k` with a round for each record left returns the first record from `k` on that
`stop` accepts, at its offset, or none and the end of the directory; it changes only the
directory's access time. -/
theorem dirScan_find (msg : String) (stop : Dirent → Bool) : ∀ (fuel : Nat) {s : FS} (k : Nat),
    Inv s → s.locked dp → (s.itable dp).d.size % direntSize = 0 →
    (s.itable dp).d.size / direntSize < k + fuel →
    ∃ t c, (∃ j, k ≤ j ∧ j < (s.itable dp).d.size / direntSize ∧ stop (s.record dp j) = true ∧
        (∀ i, k ≤ i → i < j → stop (s.record dp i) = false) ∧
        dirScan dp msg stop fuel s (direntSize * k) =
          .ok (s.touch dp t c, direntSize * j, some (s.record dp j))) ∨
      ((∀ i, k ≤ i → i < (s.itable dp).d.size / direntSize → stop (s.record dp i) = false) ∧
        dirScan dp msg stop fuel s (direntSize * k) =
          .ok (s.touch dp t c, max (direntSize * k) (s.itable dp).d.size, none))
  | 0, s, k, _, _, hal, hf => by
    have hle : (s.itable dp).d.size ≤ direntSize * k := by simp only [direntSize_eq] at *; omega
    refine ⟨(s.itable dp).d.atime, s.atimeClock, .inr ⟨fun i h₁ h₂ => absurd h₂ (by omega), ?_⟩⟩
    rw [FS.touch_self, max_eq_left hle]
    rfl
  | fuel + 1, s, k, h, hk, hal, hf => by
    unfold dirScan
    by_cases hlt : direntSize * k < (s.itable dp).d.size
    · have hn : k < (s.itable dp).d.size / direntSize := by simp only [direntSize_eq] at *; omega
      obtain ⟨t, c, e⟩ := h.readi_record hk hal (Nat.mul_mod_right _ _) hlt
      rw [if_pos hlt, e]
      dsimp only
      rw [if_neg (not_not.2 rfl), show Dirent.ofBytes _ = s.record dp k from rfl]
      by_cases hs : stop (s.record dp k) = true
      · rw [if_pos hs]
        exact ⟨t, c, .inl ⟨k, le_rfl, hn, hs, fun i h₁ h₂ => absurd h₂ (by omega), rfl⟩⟩
      · rw [if_neg hs]
        have hu : u32 (direntSize * k + direntSize) = direntSize * (k + 1) := by
          have := h.size_lt hk
          simp only [u32, direntSize_eq] at *
          omega
        obtain ⟨t', c', hr⟩ := dirScan_find msg stop fuel (k + 1) (h.touch hk t c)
          ((FS.locked_touch s dp t c).2 hk) (by simpa using hal) (by simpa using (by omega :
            (s.itable dp).d.size / direntSize < k + 1 + fuel))
        simp only [FS.touch_touch, FS.record_touch, FS.touch_size] at hr
        have hk' : ∀ i, k ≤ i → i < k + 1 → stop (s.record dp i) = false := fun i h₁ h₂ => by
          rw [show i = k by omega]
          simpa using hs
        rw [hu]
        refine ⟨t', c', ?_⟩
        rcases hr with ⟨j, hj, hjn, hjs, hpre, e'⟩ | ⟨hall, e'⟩
        · refine .inl ⟨j, by omega, hjn, hjs, fun i h₁ h₂ => ?_, e'⟩
          exact if hi : i = k then hk' i h₁ (by omega) else hpre i (by omega) h₂
        · refine .inr ⟨fun i h₁ h₂ => if hi : i = k then hk' i h₁ (by omega) else
            hall i (by omega) h₂, ?_⟩
          rw [e', max_eq_right (by simp only [direntSize_eq] at *; omega),
            max_eq_right hlt.le]
    · rw [if_neg hlt]
      have hn : (s.itable dp).d.size / direntSize ≤ k := by simp only [direntSize_eq] at *; omega
      refine ⟨(s.itable dp).d.atime, s.atimeClock, .inr ⟨fun i h₁ h₂ => absurd h₂ (by omega), ?_⟩⟩
      rw [FS.touch_self, max_eq_left (not_lt.1 hlt)]

/-- `isdirempty` is exact: on a locked directory whose size is a multiple of the record size it
says whether every record past `.` and `..` is free, and changes only the access time. -/
theorem Inv.isdirempty_exact (h : Inv s) (hk : s.locked dp)
    (hal : (s.itable dp).d.size % direntSize = 0) :
    ∃ t c b, isdirempty s dp = .ok (s.touch dp t c, b) ∧
      (b = true ↔ ∀ i, 2 ≤ i → i < (s.itable dp).d.size / direntSize → (s.record dp i).inum = 0) := by
  obtain ⟨t, c, hr⟩ := dirScan_find "isdirempty: readi" (fun de => de.inum != 0) (scanFuel s dp) 2
    h hk hal (by unfold scanFuel; omega)
  unfold isdirempty
  rw [Nat.mul_comm 2 direntSize]
  rcases hr with ⟨j, hj, hjn, hjs, -, e⟩ | ⟨hall, e⟩ <;> rw [e, ok_bind] <;> refine ⟨t, c, _, rfl, ?_⟩
  · exact ⟨nofun, fun hall => by simp [hall j hj hjn] at hjs⟩
  · exact ⟨fun _ i h₁ h₂ => by simpa using hall i h₁ h₂, fun _ => rfl⟩

/-- What `dirlookup` finds: on a locked directory whose size is a multiple of the record size,
the first live record named `name`, whose entry `iget` then returns with the record's offset, or
nothing when no live record has the name. -/
theorem Inv.dirlookup_find (h : Inv s) (hk : s.locked dp) (hdir : (s.itable dp).d.type = .dir)
    (hal : (s.itable dp).d.size % direntSize = 0) (name : List UInt8) :
    ∃ t c, (∃ j, j < (s.itable dp).d.size / direntSize ∧
        (s.record dp j).inum ≠ 0 ∧ namecmp name (s.record dp j).name = 0 ∧
        (∀ i < j, (s.record dp i).inum ≠ 0 → namecmp name (s.record dp i).name ≠ 0) ∧
        dirlookup s dp name = (iget (s.touch dp t c) (s.record dp j).inum).map
          fun r => (r.1, some (r.2, direntSize * j))) ∨
      ((∀ i < (s.itable dp).d.size / direntSize,
          (s.record dp i).inum ≠ 0 → namecmp name (s.record dp i).name ≠ 0) ∧
        dirlookup s dp name = .ok (s.touch dp t c, none)) := by
  obtain ⟨t, c, hr⟩ := dirScan_find "dirlookup read"
    (fun de => de.inum != 0 && namecmp name de.name == 0) (scanFuel s dp) 0 h hk hal
    (by unfold scanFuel; omega)
  unfold dirlookup
  rw [if_neg (not_not.2 hdir)]
  refine ⟨t, c, ?_⟩
  rcases hr with ⟨j, -, hjn, hjs, hpre, e⟩ | ⟨hall, e⟩ <;> rw [Nat.mul_zero] at e <;> rw [e, ok_bind]
  · simp only [Bool.and_eq_true, bne_iff_ne, ne_eq, beq_iff_eq] at hjs
    refine .inl ⟨j, hjn, hjs.1, hjs.2, fun i hi hne heq => ?_, ?_⟩
    · simpa [hne, heq] using hpre i (Nat.zero_le _) hi
    · dsimp only
      cases iget (s.touch dp t c) (s.record dp j).inum <;> rfl
  · exact .inr ⟨fun i hi hne heq => by simpa [hne, heq] using hall i (Nat.zero_le _) hi, rfl⟩

theorem Inv.dirlookup_ne_read (h : Inv s) (hk : s.locked dp) (hdir : (s.itable dp).d.type = .dir)
    (hal : (s.itable dp).d.size % direntSize = 0) (name : List UInt8) :
    dirlookup s dp name ≠ .error (.panic "dirlookup read") := by
  obtain ⟨t, c, ⟨j, -, -, -, -, e⟩ | ⟨-, e⟩⟩ := h.dirlookup_find hk hdir hal name <;> rw [e]
  · cases hg : iget (s.touch dp t c) (s.record dp j).inum with
    | error e' => obtain rfl := iget_error hg; exact error_panic_ne (by decide)
    | ok r => exact nofun
  · exact nofun

theorem Inv.dirlink_ne_read (h : Inv s) (hk : s.locked dp) (hdir : (s.itable dp).d.type = .dir)
    (hal : (s.itable dp).d.size % direntSize = 0) (name : List UInt8) (inum : Nat) :
    dirlink s dp name inum ≠ .error (.panic "dirlink read") := by
  obtain ⟨t, c, ⟨j, -, -, -, -, e⟩ | ⟨-, e⟩⟩ := h.dirlookup_find hk hdir hal name <;>
    unfold dirlink <;> rw [e]
  · cases hg : iget (s.touch dp t c) (s.record dp j).inum with
    | error e' => obtain rfl := iget_error hg; exact error_panic_ne (by decide)
    | ok r =>
      obtain ⟨h₁, hh, -⟩ := (h.touch hk t c).of_iget hg
      obtain ⟨s', e', -⟩ := h₁.iput_ok hh
      dsimp only [Except.map]
      rw [ok_bind]
      dsimp only
      rw [e', ok_bind]
      exact nofun
  · rw [ok_bind]
    dsimp only
    have hsz := h.size_lt hk
    obtain ⟨t', c', hr⟩ := dirScan_find "dirlink read" (fun de => de.inum == 0)
      (scanFuel (s.touch dp t c) dp) 0 (h.touch hk t c) ((FS.locked_touch s dp t c).2 hk)
      (by simpa using hal) (by simp only [scanFuel, FS.touch_size]; omega)
    simp only [FS.touch_size, Nat.mul_zero, Nat.zero_max] at hr
    obtain ⟨off, de, e', hoff⟩ : ∃ off de, dirScan dp "dirlink read" (fun de => de.inum == 0)
        (scanFuel (s.touch dp t c) dp) (s.touch dp t c) 0 =
          .ok ((s.touch dp t c).touch dp t' c', off, de) ∧ off < 2 ^ 32 := by
      rcases hr with ⟨j, -, hj, -, -, e'⟩ | ⟨-, e'⟩
      · exact ⟨_, _, e', by simp only [direntSize_eq] at *; omega⟩
      · exact ⟨_, _, e', hsz⟩
    rw [e', ok_bind]
    obtain ⟨q, hw⟩ := writei_ok ((s.touch dp t c).touch dp t' c') dp (Dirent.bytes inum name)
      (fun _ _ => true) (n := direntSize) hoff (by decide)
    rw [hw, ok_bind]
    exact nofun

theorem Inv.isdirempty_ne_read (h : Inv s) (hk : s.locked dp)
    (hal : (s.itable dp).d.size % direntSize = 0) :
    isdirempty s dp ≠ .error (.panic "isdirempty: readi") := by
  obtain ⟨t, c, b, e, -⟩ := h.isdirempty_exact hk hal
  rw [e]
  exact nofun

end Scan

/-! ## Reads of a reachable state -/

/-- No holes below the size, and what follows for reads: in every reachable state every block
of a byte below an allocated inode's size is mapped, with every block on its indirect path;
`readi` of a locked entry, for `uint` offsets and counts, allocates and writes nothing and, when
every copy-out succeeds and `off + n` does not wrap, returns the `min n (size - off)` bytes from
`off`; and on a locked directory whose size is a multiple of `sizeof(struct dirent)` the panics
`dirlookup read`, `dirlink read` and `isdirempty: readi` are unreachable and the record
`sys_unlink` clears at a record offset below the size is written whole. -/
theorem readi_no_holes {s : FS} (hr : Reachable s) :
    (∀ i, s.disk.alloc i → ∀ x < (s.disk.dinode i).size, ∀ p₀, p₀ <+: (bnode (x / BSIZE)).path →
      nodeAddr s.disk (s.disk.addrs i) ⟨(bnode (x / BSIZE)).root, p₀⟩ ≠ 0) ∧
    (∀ ip, s.locked ip → ∀ (ok : Nat → Nat → Bool) (off n : Nat), off < 2 ^ 32 → n < 2 ^ 32 →
      ∃ t c r out, readi s ip ok off n = .ok (s.touch ip t c, r, out) ∧
        ((∀ t m, ok t m = true) → off ≤ (s.itable ip).d.size → off + n < 2 ^ 32 →
          r = toInt32 (min n ((s.itable ip).d.size - off)) ∧
          out = (List.range (min n ((s.itable ip).d.size - off))).map
            fun k => fileByte s.disk (s.itable ip).d.addrs (off + k))) ∧
    ∀ dp, s.locked dp → (s.itable dp).d.type = .dir → (s.itable dp).d.size % direntSize = 0 →
      (∀ name, dirlookup s dp name ≠ .error (.panic "dirlookup read")) ∧
      (∀ name inum, dirlink s dp name inum ≠ .error (.panic "dirlink read")) ∧
      isdirempty s dp ≠ .error (.panic "isdirempty: readi") ∧
      ∀ off, off % direntSize = 0 → off < (s.itable dp).d.size →
        ∃ s', writei s dp (fun _ => 0) (fun _ _ => true) off direntSize = .ok (s', direntSize) := by
  have h := hr.inv
  exact ⟨fun i hi x hx _ hp => nodeAddr_prefix_ne_zero (h.holes i hi x hx) hp,
    fun ip hk ok _ _ hoff hn => h.readi_eq hk ok hoff hn,
    fun dp hk hdir hal => ⟨h.dirlookup_ne_read hk hdir hal, h.dirlink_ne_read hk hdir hal,
      h.isdirempty_ne_read hk hal, fun _ ho hlt => h.writei_record hk hal _ ho hlt⟩⟩

theorem readi_no_holes_blankWritten :
    (∀ i, blankWritten.disk.alloc i → ∀ x < (blankWritten.disk.dinode i).size, ∀ p₀,
      p₀ <+: (bnode (x / BSIZE)).path →
      nodeAddr blankWritten.disk (blankWritten.disk.addrs i) ⟨(bnode (x / BSIZE)).root, p₀⟩ ≠ 0) ∧
    (∀ ip, blankWritten.locked ip → ∀ (ok : Nat → Nat → Bool) (off n : Nat), off < 2 ^ 32 →
      n < 2 ^ 32 → ∃ t c r out, readi blankWritten ip ok off n = .ok (blankWritten.touch ip t c, r, out) ∧
        ((∀ t m, ok t m = true) → off ≤ (blankWritten.itable ip).d.size → off + n < 2 ^ 32 →
          r = toInt32 (min n ((blankWritten.itable ip).d.size - off)) ∧
          out = (List.range (min n ((blankWritten.itable ip).d.size - off))).map
            fun k => fileByte blankWritten.disk (blankWritten.itable ip).d.addrs (off + k))) ∧
    ∀ dp, blankWritten.locked dp → (blankWritten.itable dp).d.type = .dir →
      (blankWritten.itable dp).d.size % direntSize = 0 →
      (∀ name, dirlookup blankWritten dp name ≠ .error (.panic "dirlookup read")) ∧
      (∀ name inum, dirlink blankWritten dp name inum ≠ .error (.panic "dirlink read")) ∧
      isdirempty blankWritten dp ≠ .error (.panic "isdirempty: readi") ∧
      ∀ off, off % direntSize = 0 → off < (blankWritten.itable dp).d.size →
        ∃ s', writei blankWritten dp (fun _ => 0) (fun _ _ => true) off direntSize =
          .ok (s', direntSize) :=
  readi_no_holes blankWritten_reachable

/-- A read whose end wraps past `2^32` returns nothing: on the two-byte file of `blankWritten`,
`readi(ip, 0, dst, 1, 2^32 - 1)` returns 0 where `min(n, size - off)` is 1. -/
theorem readi_wrap_blankWritten :
    Reachable blankWritten ∧ blankWritten.locked 0 ∧ (blankWritten.itable 0).d.size = 2 ∧
    min (2 ^ 32 - 1) ((blankWritten.itable 0).d.size - 1) = 1 ∧
    ∃ s', readi blankWritten 0 (fun _ _ => true) 1 (2 ^ 32 - 1) = .ok (s', 0, []) :=
  ⟨blankWritten_reachable, ⟨⟨by decide, by decide⟩, by decide⟩, by decide, by decide, _, rfl⟩

end Xv6.Fs
