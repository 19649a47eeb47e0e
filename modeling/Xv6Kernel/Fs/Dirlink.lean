import Xv6Kernel.Fs.Frame

/-!
# Directory links and lookups

`dirlink` writes a record only when `dirlookup` does not find the name, at the first free record
or at the end of the directory. What `dirlookup` returns is fixed by the directory's records:
`iget` of the first live record whose name `namecmp` makes equal (`FS.lookup`,
`Inv.dirlookup_lookup`).

* `strncmp_congr`, `strncmp_self`, `strncmp_eq_zero_comm`: `namecmp` reads the first `DIRSIZ`
  bytes of each name, is zero on equal names, and is zero in both orders or in neither.
* `Dirent.ofBytes_bytes`: the record `dirlink` writes reads back as the low 16 bits of the inode
  number and the name cut or padded to `DIRSIZ` bytes.
* `Inv.writei_dirent`: the record write fits in one block, so it writes the whole record or
  nothing (`writei_chunk`).
* `Inv.dirlink_found`, `Inv.dirlink_written`: what `dirlink` leaves when the name is found, and
  when it is not.
* `dirlink_dirlookup`: link and lookup agree; a later lookup of the name returns the inode the
  record keeps, the lookup of every other name is unchanged, and no directory comes to hold two
  live records whose names `namecmp` makes equal (`NamesUnique`). The record keeps only the low 16
  bits of the inode number: `dirlink_inum_truncated`.
-/

namespace Xv6.Fs

/-! ## Names -/

theorem headD_eq_getD (p : List UInt8) : p.headD 0 = p.getD 0 0 := by cases p <;> rfl

theorem getD_tail (p : List UInt8) (k : Nat) : p.tail.getD k 0 = p.getD (k + 1) 0 := by
  cases p <;> simp

/-- `strncmp(p, q, n)` reads only the first `n` bytes of each string. -/
theorem strncmp_congr : ∀ (n : Nat) (p p' q q' : List UInt8),
    (∀ k < n, p.getD k 0 = p'.getD k 0) → (∀ k < n, q.getD k 0 = q'.getD k 0) →
    strncmp n p q = strncmp n p' q'
  | 0, _, _, _, _, _, _ => rfl
  | n + 1, p, p', q, q', hp, hq => by
    have ih := strncmp_congr n p.tail p'.tail q.tail q'.tail
      (fun k hk => by simp only [getD_tail]; exact hp (k + 1) (by omega))
      (fun k hk => by simp only [getD_tail]; exact hq (k + 1) (by omega))
    simp only [strncmp, headD_eq_getD, hp 0 (Nat.succ_pos n), hq 0 (Nat.succ_pos n), ih]

theorem strncmp_self : ∀ (n : Nat) (p : List UInt8), strncmp n p p = 0
  | 0, _ => rfl
  | n + 1, p => by
    unfold strncmp
    split_ifs
    · exact strncmp_self n p.tail
    · exact Int.sub_self _

/-- `strncmp` finds two strings equal in both orders or in neither. -/
theorem strncmp_eq_zero_comm : ∀ (n : Nat) (p q : List UInt8),
    strncmp n p q = 0 ↔ strncmp n q p = 0
  | 0, _, _ => Iff.rfl
  | n + 1, p, q => by
    unfold strncmp
    by_cases hp : p.headD 0 ≠ 0 ∧ p.headD 0 = q.headD 0
    · rw [if_pos hp, if_pos ⟨hp.2 ▸ hp.1, hp.2.symm⟩]
      exact strncmp_eq_zero_comm n _ _
    · have hq : ¬ (q.headD 0 ≠ 0 ∧ q.headD 0 = p.headD 0) := fun hq => hp ⟨hq.2 ▸ hq.1, hq.2.symm⟩
      rw [if_neg hp, if_neg hq]
      omega

theorem namecmp_self (p : List UInt8) : namecmp p p = 0 := strncmp_self _ p

theorem namecmp_eq_zero_comm (p q : List UInt8) : namecmp p q = 0 ↔ namecmp q p = 0 :=
  strncmp_eq_zero_comm _ p q

/-- The name `strncpy(de.name, name, DIRSIZ)` leaves in a record: the first `DIRSIZ` bytes of
`name`, padded with NULs. -/
def dirName (name : List UInt8) : List UInt8 := (List.range DIRSIZ).map fun k => name.getD k 0

theorem getD_dirName (name : List UInt8) {k : Nat} (hk : k < DIRSIZ) :
    (dirName name).getD k 0 = name.getD k 0 := by
  rw [DIRSIZ_eq] at hk
  simp [dirName, List.getElem?_range hk]

/-- A name compares with the record name it is stored as as with itself. -/
theorem namecmp_dirName_right (p name : List UInt8) : namecmp p (dirName name) = namecmp p name :=
  strncmp_congr _ _ _ _ _ (fun _ _ => rfl) fun _ hk => getD_dirName name hk

theorem namecmp_dirName_left (name q : List UInt8) : namecmp (dirName name) q = namecmp name q :=
  strncmp_congr _ _ _ _ _ (fun _ hk => getD_dirName name hk) fun _ _ => rfl

/-- The record `dirlink` writes reads back as the low 16 bits of the inode number and the name
as `strncpy` stores it. -/
theorem Dirent.ofBytes_bytes (inum : Nat) (name : List UInt8) :
    Dirent.ofBytes ((List.range direntSize).map (Dirent.bytes inum name)) =
      ⟨inum % 2 ^ 16, dirName name⟩ := by
  simp only [Dirent.ofBytes, direntSize_eq, dirName, DIRSIZ_eq]
  have e : ∀ x, (UInt8.ofNat (x % 256)).toNat = x % 256 := fun x =>
    UInt8.toNat_ofNat_of_lt (Nat.mod_lt _ (by decide))
  congr 1
  show (Dirent.bytes inum name 0).toNat + 256 * (Dirent.bytes inum name 1).toNat = _
  simp only [Dirent.bytes, eq_self_iff_true, Nat.one_ne_zero, if_true, if_false, e]
  omega

/-! ## What `dirlookup` returns -/

/-- The first live record among the first `n` records `rec` whose name `namecmp` makes equal to
`name`: the record the scan of `dirlookup` stops at. -/
def firstLive (rec : Nat → Dirent) (n : Nat) (name : List UInt8) : Option Nat :=
  (List.range n).find? fun j => (rec j).inum != 0 && namecmp name (rec j).name == 0

/-- The record `dirlookup` stops at in the directory held in entry `dp`. -/
def FS.lookup (s : FS) (dp : Nat) (name : List UInt8) : Option Nat :=
  firstLive (s.record dp) ((s.itable dp).d.size / direntSize) name

/-- `FS.lookup` misses exactly when no live record has the name. -/
theorem FS.lookup_eq_none {s : FS} {dp : Nat} {name : List UInt8} :
    s.lookup dp name = none ↔ ∀ k < (s.itable dp).d.size / direntSize,
      (s.record dp k).inum ≠ 0 → namecmp name (s.record dp k).name ≠ 0 := by
  unfold FS.lookup firstLive
  rw [List.find?_range_eq_none]
  refine forall₂_congr fun k _ => ?_
  by_cases h0 : (s.record dp k).inum = 0 <;> simp [h0]

/-- A search over more indices that adds no match and drops none finds the same index. -/
theorem find?_range_extend {p q : Nat → Bool} {n n' : Nat} (hn : n ≤ n')
    (h : ∀ i < n', q i = (decide (i < n) && p i)) :
    (List.range n').find? q = (List.range n).find? p := by
  cases hp : (List.range n).find? p with
  | none =>
    rw [List.find?_range_eq_none] at hp ⊢
    intro i hi
    by_cases hin : i < n <;> simp [h i hi, hin, hp i]
  | some k =>
    obtain ⟨hk, hkm, hpre⟩ := List.find?_range_eq_some.1 hp
    have hkn := List.mem_range.1 hkm
    exact List.find?_range_eq_some.2 ⟨by simp [h k (by omega), hkn, hk],
      List.mem_range.2 (by omega), fun i hi => by simp [h i (by omega), hpre i hi]⟩

/-- A search whose one possible match is index `j` finds it exactly when it matches. -/
theorem find?_range_single {q : Nat → Bool} {n j : Nat} (hj : j < n) (b : Bool)
    (h : ∀ i < n, q i = (decide (i = j) && b)) :
    (List.range n).find? q = if b then some j else none := by
  cases b with
  | false => exact List.find?_range_eq_none.2 fun i hi => by simp [h i hi]
  | true =>
    exact List.find?_range_eq_some.2 ⟨by simp [h j hj], List.mem_range.2 hj,
      fun i hi => by simp [h i (by omega), Nat.ne_of_lt hi]⟩

/-- `iget` picks its entry by the table's size and each entry's inode and references alone. -/
theorem iget_congr {s s' : FS} (hN : s'.NINODE = s.NINODE)
    (hi : ∀ k, (s'.itable k).inum = (s.itable k).inum)
    (hr : ∀ k, (s'.itable k).ref = (s.itable k).ref) {β : Type} (f : Nat → β) (inum : Nat) :
    (iget s' inum).map (fun r => f r.2) = (iget s inum).map (fun r => f r.2) := by
  unfold iget
  simp only [hN, hi, hr]
  split <;> (try split) <;> rfl

section Lookup

variable {s : FS} {dp : Nat}

/-- `dirlookup` on a locked directory whose size is a multiple of the record size: `iget` of the
record `FS.lookup` names, with its offset, or none, the directory's access time set. -/
theorem Inv.dirlookup_lookup (h : Inv s) (hk : s.locked dp) (hdir : (s.itable dp).d.type = .dir)
    (hal : (s.itable dp).d.size % direntSize = 0) (name : List UInt8) :
    ∃ t c, dirlookup s dp name = match s.lookup dp name with
      | some j => (iget (s.touch dp t c) (s.record dp j).inum).map
          fun r => (r.1, some (r.2, direntSize * j))
      | none => .ok (s.touch dp t c, none) := by
  obtain ⟨t, c, ⟨j, hj, hj0, hjn, hpre, e⟩ | ⟨hall, e⟩⟩ := h.dirlookup_find hk hdir hal name <;>
    refine ⟨t, c, ?_⟩ <;> rw [e]
  · have hq : s.lookup dp name = some j := List.find?_range_eq_some.2
      ⟨by simp [hj0, hjn], List.mem_range.2 hj, fun i hi => by
        by_cases h0 : (s.record dp i).inum = 0 <;> simp [h0, hpre i hi]⟩
    rw [hq]
  · have hq : s.lookup dp name = none := List.find?_range_eq_none.2 fun i hi => by
      by_cases h0 : (s.record dp i).inum = 0 <;> simp [h0, hall i hi]
    rw [hq]

/-- What a caller sees of `dirlookup`: the entry and offset, or none, or the panic of `iget`,
fixed by `FS.lookup` and by `iget` on the directory's state. -/
theorem Inv.dirlookup_result (h : Inv s) (hk : s.locked dp) (hdir : (s.itable dp).d.type = .dir)
    (hal : (s.itable dp).d.size % direntSize = 0) (name : List UInt8) :
    (dirlookup s dp name).map Prod.snd = match s.lookup dp name with
      | some j => (iget s (s.record dp j).inum).map fun r => some (r.2, direntSize * j)
      | none => .ok none := by
  obtain ⟨t, c, e⟩ := h.dirlookup_lookup hk hdir hal name
  rw [e]
  cases s.lookup dp name with
  | none => rfl
  | some j =>
    dsimp only
    rw [← iget_congr (FS.touch_NINODE s dp t c) (FS.touch_inum s dp t c) (FS.touch_ref s dp t c)
      fun k => some (k, direntSize * j)]
    cases iget (s.touch dp t c) (s.record dp j).inum <;> rfl

end Lookup

/-! ## The record write -/

/-- A write that fits in one block is one round of the write loop: it writes all its bytes or
none. -/
theorem writeiLoop_chunk (sb : Superblock) (src : Nat → UInt8) (ok : Nat → Nat → Bool)
    {n off : Nat} (hm : off % BSIZE + n ≤ BSIZE) (fuel : Nat) {d d' : Disk} {a a' : Addrs}
    {tot off' : Nat} (hw : writeiLoop sb src ok n (fuel + 1) d a 0 off = .ok (d', a', tot, off')) :
    tot = 0 ∨ tot = n := by
  unfold writeiLoop at hw
  split_ifs at hw with hlt
  · split at hw
    · cases hw
    · rename_i addr _
      by_cases h0 : addr = 0
      · rw [if_pos h0] at hw; cases hw; exact .inl rfl
      rw [if_neg h0, show min (n - 0) (BSIZE - off % BSIZE) = n by omega] at hw
      dsimp only at hw
      split_ifs at hw
      · cases fuel with
        | zero => cases hw; exact .inr (Nat.zero_add n)
        | succ f =>
          unfold writeiLoop at hw
          rw [if_neg (by omega)] at hw
          cases hw; exact .inr (Nat.zero_add n)
      · cases hw; exact .inl rfl
  · cases hw; exact .inl rfl

/-- A `writei` that fits in one block returns `-1`, 0 or all its bytes. -/
theorem writei_chunk {s s' : FS} {ip : Nat} {src : Nat → UInt8} {ok : Nat → Nat → Bool}
    {off n : Nat} {r : Int} (hm : off % BSIZE + n ≤ BSIZE)
    (hw : writei s ip src ok off n = .ok (s', r)) : r = -1 ∨ r = toInt32 0 ∨ r = toInt32 n := by
  unfold writei DInode.writeiBody at hw
  dsimp only at hw
  split_ifs at hw
  · cases hw; exact .inl rfl
  · cases hw; exact .inl rfl
  · split at hw
    · cases hw
    · rename_i tot _ hl
      have := writeiLoop_chunk s.sb src ok hm n hl
      split_ifs at hw <;> cases hw <;> rcases this with rfl | rfl <;> simp

/-- Two records whose bytes agree read the same. -/
theorem record_congr {d d' : Disk} {a a' : Addrs} {k : Nat}
    (h : ∀ t < direntSize, fileByte d' a' (direntSize * k + t) = fileByte d a (direntSize * k + t)) :
    d'.record a' k = d.record a k := by
  unfold Disk.record
  rw [List.map_congr_left fun t ht => h t (List.mem_range.1 ht)]

section Write

variable {s s' : FS} {dp : Nat}

/-- The record write of `dirlink` at record `j` of a locked directory whose size is a multiple of
the record size, or at the end, writes the whole record or nothing: it keeps the type and every
other record, and either returns the record's size with record `j` holding the new record, or
keeps the size and record `j`. -/
theorem Inv.writei_dirent (h : Inv s) (hk : s.locked dp)
    (hal : (s.itable dp).d.size % direntSize = 0) {j : Nat}
    (hj : j ≤ (s.itable dp).d.size / direntSize) (inum : Nat) (name : List UInt8)
    {ok : Nat → Nat → Bool} {r : Int}
    (hw : writei s dp (Dirent.bytes inum name) ok (direntSize * j) direntSize = .ok (s', r)) :
    (s'.itable dp).d.type = (s.itable dp).d.type ∧
    (∀ i < (s.itable dp).d.size / direntSize, i ≠ j → s'.record dp i = s.record dp i) ∧
    ((r = direntSize ∧ (s'.itable dp).d.size = max (s.itable dp).d.size (direntSize * (j + 1)) ∧
        s'.record dp j = ⟨inum % 2 ^ 16, dirName name⟩) ∨
      (r ≠ direntSize ∧ (s'.itable dp).d.size = (s.itable dp).d.size ∧
        (j < (s.itable dp).d.size / direntSize → s'.record dp j = s.record dp j))) := by
  have hsz := h.size_lt hk
  have hoff : direntSize * j < 2 ^ 32 := by simp only [direntSize_eq] at *; omega
  rcases h.writei_bytes hk hoff (by decide) hw with
    ⟨rfl, rfl, -⟩ | ⟨tot, htot, hr, -, ⟨a, m, hent⟩, written, kept⟩
  · exact ⟨rfl, fun _ _ _ => rfl, .inr ⟨by decide, rfl, fun _ => rfl⟩⟩
  have htot' : tot = 0 ∨ tot = direntSize := by
    rcases writei_chunk (by simp only [BSIZE_eq, direntSize_eq]; omega) hw with e | e | e <;>
      rw [hr] at e <;> simp only [toInt32, direntSize_eq] at e htot ⊢ <;> split_ifs at e <;> omega
  have hn : ∀ i < (s.itable dp).d.size / direntSize, ∀ t < direntSize,
      direntSize * i + t < (s.itable dp).d.size := fun i hi t ht => by
    simp only [direntSize_eq] at *; omega
  refine ⟨by rw [hent], fun i hi hij => record_congr fun t ht =>
    kept _ (hn i hi t ht) (by simp only [direntSize_eq] at *; omega), ?_⟩
  rcases htot' with rfl | rfl
  · refine .inr ⟨by rw [hr]; decide, by rw [hent]; exact max_eq_left (by
      simp only [direntSize_eq] at *; omega), fun hjn =>
      record_congr fun t ht => kept _ (hn j hjn t ht) (by omega)⟩
  · refine .inl ⟨by rw [hr]; rfl, by rw [hent, Nat.mul_succ], ?_⟩
    unfold FS.record Disk.record
    rw [List.map_congr_left fun t ht => (written _ (by omega) (by simpa using ht)).trans
      (congrArg _ (Nat.add_sub_cancel_left _ t))]
    exact Dirent.ofBytes_bytes inum name

/-- A `writei` on a locked entry keeps every other allocated dinode, and its bytes below its
size. -/
theorem Inv.writei_keeps_other (h : Inv s) (hk : s.locked dp) {src : Nat → UInt8}
    {ok : Nat → Nat → Bool} {off n : Nat} {r : Int} (hoff : off < 2 ^ 32) (hn : n < 2 ^ 32)
    (hw : writei s dp src ok off n = .ok (s', r)) {i : Nat} (hi : i ≠ (s.itable dp).inum)
    (ha : s.disk.alloc i) :
    s'.disk.dinode i = s.disk.dinode i ∧ ∀ y < (s.disk.dinode i).size,
      fileByte s'.disk (s'.disk.addrs i) y = fileByte s.disk (s.disk.addrs i) y := by
  rcases h.writei_cases hk hoff hn hw with ⟨rfl, -, -⟩ | ⟨-, -, d, x, c, tot, -, -, hwr, -, rfl⟩
  · exact ⟨rfl, fun _ _ => rfl⟩
  have hd : (iupdate ({ s with disk := d, mtimeClock := c }.modify dp fun e => { e with d := x })
      dp).disk.dinode i = s.disk.dinode i := by
    simp [Function.update_noteq hi, hwr.dinode]
  refine ⟨hd, fun y hy => ?_⟩
  have := hwr.kept i y ha (h.holes i ha y hy) fun e => hi e.1
  rw [Function.update_noteq hi] at this
  rw [Disk.addrs, hd, ← this]
  exact fileByte_congr (by simp) _ y

end Write

/-! ## The two paths of `dirlink` -/

/-- `iput` of an entry that is not the last reference to a valid inode without links only drops
the reference. -/
theorem iput_keep {s : FS} {ip : Nat}
    (hc : ¬ ((s.itable ip).ref = 1 ∧ (s.itable ip).valid = true ∧ (s.itable ip).d.nlink = 0)) :
    iput s ip = .ok (s.modify ip fun e => { e with ref := e.ref - 1 }) := by
  unfold iput
  rw [if_neg hc]
  rfl

section Paths

variable {s s' : FS} {dp : Nat}

/-- `dirlink` when `dirlookup` finds the name: the entry `dirlookup` took is put back and the
result is `-1`; the disk and every reference count are as before, and the directory's copy has
changed only its access time. -/
theorem Inv.dirlink_found (h : Inv s) (hk : s.locked dp) (hdir : (s.itable dp).d.type = .dir)
    (hal : (s.itable dp).d.size % direntSize = 0) {name : List UInt8} (inum : Nat) {s₁ : FS}
    {ip o : Nat} (hf : dirlookup s dp name = .ok (s₁, some (ip, o))) :
    ∃ s', dirlink s dp name inum = .ok (s', -1) ∧ s'.disk = s.disk ∧
      (∀ k, (s'.itable k).ref = (s.itable k).ref) ∧
      ∃ t, (s'.itable dp).d = { (s.itable dp).d with atime := t } := by
  obtain ⟨t, c, e⟩ := h.dirlookup_lookup hk hdir hal name
  have hl : dirlink s dp name inum = (iput s₁ ip).map fun s => (s, -1) := by
    unfold dirlink; rw [hf]; rfl
  rw [e] at hf
  cases hq : s.lookup dp name with
  | none => rw [hq] at hf; cases hf
  | some j =>
    rw [hq] at hf
    dsimp only at hf
    cases hg : iget (s.touch dp t c) (s.record dp j).inum with
    | error _ => rw [hg] at hf; cases hf
    | ok q =>
      obtain ⟨s₂, k⟩ := q
      rw [hg] at hf
      cases hf
      dsimp only at hl
      have ht : ((s.touch dp t c).itable dp).d = { (s.itable dp).d with atime := t } := by
        simp [FS.touch]
      have hd : ∀ g : Inode → Inode, (∀ e, (g e).d = e.d) →
          ((((s.touch dp t c).modify k g).modify k fun e => { e with ref := e.ref - 1 }).itable
            dp).d = { (s.itable dp).d with atime := t } := fun g hg =>
        (FS.modify_field (fun e => e.d) _ k _ rfl dp).trans
          ((FS.modify_field (fun e => e.d) _ k g (hg _) dp).trans ht)
      obtain ⟨-, ⟨hr, -, rfl⟩ | ⟨hr, -, rfl⟩⟩ := iget_cases hg
      · rw [iput_keep (by simp only [FS.modify_self]; omega)] at hl
        refine ⟨_, hl, by simp, fun k' => ?_, t, hd _ fun _ => rfl⟩
        by_cases hk' : k' = k
        · subst hk'; simp
        · simp [FS.modify_of_ne _ _ hk']
      · rw [iput_keep (by simp)] at hl
        refine ⟨_, hl, by simp, fun k' => ?_, t, hd _ fun _ => rfl⟩
        by_cases hk' : k' = k
        · subst hk'; simpa using hr.symm
        · simp [FS.modify_of_ne _ _ hk']

/-- `dirlink` when `dirlookup` misses: after the two scans have set the directory's access time,
the record is written at the first free record or at the end, and the result is 0 when the whole
record was written and `-1` otherwise. -/
theorem Inv.dirlink_miss (h : Inv s) (hk : s.locked dp) (hdir : (s.itable dp).d.type = .dir)
    (hal : (s.itable dp).d.size % direntSize = 0) {name : List UInt8} {inum : Nat}
    (hm : s.lookup dp name = none) {r : Int} (hl : dirlink s dp name inum = .ok (s', r)) :
    ∃ j ≤ (s.itable dp).d.size / direntSize,
      (j < (s.itable dp).d.size / direntSize → (s.record dp j).inum = 0) ∧ ∃ t c r',
        writei (s.touch dp t c) dp (Dirent.bytes inum name) (fun _ _ => true) (direntSize * j)
          direntSize = .ok (s', r') ∧ r = if r' ≠ direntSize then -1 else 0 := by
  obtain ⟨t, c, e⟩ := h.dirlookup_lookup hk hdir hal name
  rw [hm] at e
  unfold dirlink at hl
  rw [e, ok_bind] at hl
  dsimp only at hl
  obtain ⟨t', c', hr⟩ := dirScan_find "dirlink read" (fun de => de.inum == 0)
    (scanFuel (s.touch dp t c) dp) 0 (h.touch hk t c) ((FS.locked_touch s dp t c).2 hk)
    (by simpa using hal) (by simp only [scanFuel, FS.touch_size]; omega)
  simp only [FS.touch_size, FS.record_touch, FS.touch_touch, Nat.mul_zero, Nat.zero_max] at hr
  obtain ⟨j, hj, hj0, e'⟩ : ∃ j ≤ (s.itable dp).d.size / direntSize,
      (j < (s.itable dp).d.size / direntSize → (s.record dp j).inum = 0) ∧
      ∃ de, dirScan dp "dirlink read" (fun de => de.inum == 0) (scanFuel (s.touch dp t c) dp)
        (s.touch dp t c) 0 = .ok (s.touch dp t' c', direntSize * j, de) := by
    rcases hr with ⟨j, -, hjn, hj0, -, e'⟩ | ⟨hall, e'⟩
    · exact ⟨j, hjn.le, fun _ => by simpa using hj0, _, e'⟩
    · refine ⟨_, le_rfl, fun h => absurd h (lt_irrefl _), none, ?_⟩
      rw [e', Nat.mul_div_cancel' (Nat.dvd_of_mod_eq_zero hal)]
  obtain ⟨de, e'⟩ := e'
  rw [e', ok_bind] at hl
  obtain ⟨⟨s₃, r'⟩, hw, hl⟩ := bind_eq_ok hl
  cases hl
  exact ⟨j, hj, hj0, t', c', r', hw, rfl⟩

/-- What `dirlink` leaves when `dirlookup` misses: the invariant, the directory still locked and a
directory, every entry's inode and references, every other allocated dinode and its bytes, and
every record but the one at the first free record or the end, which holds the new record when the
result is 0 and is kept, with the size, when it is `-1`. -/
theorem Inv.dirlink_written (h : Inv s) (hk : s.locked dp) (hdir : (s.itable dp).d.type = .dir)
    (hal : (s.itable dp).d.size % direntSize = 0) {name : List UInt8} {inum : Nat}
    (hm : s.lookup dp name = none) {r : Int} (hl : dirlink s dp name inum = .ok (s', r)) :
    ∃ j ≤ (s.itable dp).d.size / direntSize,
      (j < (s.itable dp).d.size / direntSize → (s.record dp j).inum = 0) ∧
      Inv s' ∧ s'.locked dp ∧ (s'.itable dp).d.type = .dir ∧ s'.NINODE = s.NINODE ∧
      (∀ k, (s'.itable k).inum = (s.itable k).inum ∧ (s'.itable k).ref = (s.itable k).ref) ∧
      (∀ i, i ≠ (s.itable dp).inum → s.disk.alloc i → s'.disk.dinode i = s.disk.dinode i ∧
        ∀ y < (s.disk.dinode i).size,
          fileByte s'.disk (s'.disk.addrs i) y = fileByte s.disk (s.disk.addrs i) y) ∧
      (∀ i < (s.itable dp).d.size / direntSize, i ≠ j → s'.record dp i = s.record dp i) ∧
      ((r = 0 ∧ (s'.itable dp).d.size = max (s.itable dp).d.size (direntSize * (j + 1)) ∧
          s'.record dp j = ⟨inum % 2 ^ 16, dirName name⟩) ∨
        (r = -1 ∧ (s'.itable dp).d.size = (s.itable dp).d.size ∧
          (j < (s.itable dp).d.size / direntSize → s'.record dp j = s.record dp j))) := by
  obtain ⟨j, hj, hj0, t, c, r', hw, rfl⟩ := h.dirlink_miss hk hdir hal hm hl
  have h₂ := h.touch hk t c
  have hk₂ := (FS.locked_touch s dp t c).2 hk
  have hoff : direntSize * j < 2 ^ 32 := by
    have := h.size_lt hk; simp only [direntSize_eq] at *; omega
  obtain ⟨hty, hkeep, hcase⟩ := h₂.writei_dirent hk₂ (by simpa using hal) (by simpa using hj) inum
    name hw
  obtain ⟨hS, hst⟩ := h₂.writei_frame hk₂ hoff (by decide) hw
  simp only [FS.touch_size, FS.record_touch, FS.touch_type] at hty hkeep hcase
  refine ⟨j, hj, hj0, h₂.of_writei hk₂ hoff (by decide) hw,
    (hst dp).1.locked hS (hst dp).2.ge hk₂, hty.trans hdir, hS.N, fun k => ?_,
    fun i hi ha => h₂.writei_keeps_other hk₂ hoff (by decide) hw (by simpa using hi) ha, hkeep, ?_⟩
  · rw [(hst k).1.inum, (hst k).2, FS.touch_inum, FS.touch_ref]; exact ⟨rfl, rfl⟩
  · rcases hcase with ⟨hr, hsz, hrec⟩ | ⟨hr, hsz, hrec⟩
    · exact .inl ⟨by rw [hr]; rfl, hsz, hrec⟩
    · exact .inr ⟨if_pos hr, hsz, hrec⟩

end Paths

/-! ## Unique names -/

/-- No two live records among the first `n` records `rec` have names `namecmp` makes equal. -/
def NamesUnique (rec : Nat → Dirent) (n : Nat) : Prop :=
  ∀ a < n, ∀ b < n, a ≠ b → (rec a).inum ≠ 0 → (rec b).inum ≠ 0 →
    namecmp (rec a).name (rec b).name ≠ 0

/-- The directory in dinode `i` holds no two live records whose names `namecmp` makes equal. -/
def Disk.namesUnique (d : Disk) (i : Nat) : Prop :=
  NamesUnique (d.record (d.addrs i)) ((d.dinode i).size / direntSize)

theorem NamesUnique.congr {rec rec' : Nat → Dirent} {n : Nat} (hu : NamesUnique rec n)
    (h : ∀ i < n, rec' i = rec i) : NamesUnique rec' n := fun a ha b hb hab =>
  h a ha ▸ h b hb ▸ hu a ha b hb hab

/-- Setting record `j`, one of the first `n` or the next, to a record whose name no other live
record has keeps names unique. -/
theorem NamesUnique.set {rec rec' : Nat → Dirent} {n j : Nat} (hu : NamesUnique rec n)
    (hj : j ≤ n) (hkeep : ∀ i < n, i ≠ j → rec' i = rec i)
    (hfresh : ∀ i < n, i ≠ j → (rec i).inum ≠ 0 → namecmp (rec' j).name (rec i).name ≠ 0) :
    NamesUnique rec' (max n (j + 1)) := fun a ha b hb hab la lb => by
  have hlt : ∀ i < max n (j + 1), i ≠ j → i < n := fun i hi hij => by omega
  by_cases haj : a = j
  · subst haj
    have hb' := hlt b hb (Ne.symm hab)
    rw [hkeep b hb' (Ne.symm hab)] at lb ⊢
    exact hfresh b hb' (Ne.symm hab) lb
  by_cases hbj : b = j
  · subst hbj
    have ha' := hlt a ha haj
    rw [hkeep a ha' haj] at la ⊢
    exact fun e => hfresh a ha' haj la ((namecmp_eq_zero_comm _ _).1 e)
  · have ea := hkeep a (hlt a ha haj) haj
    have eb := hkeep b (hlt b hb hbj) hbj
    rw [ea] at la; rw [eb] at lb; rw [ea, eb]
    exact hu a (hlt a ha haj) b (hlt b hb hbj) hab la lb

/-- On a locked entry of the invariant the dinode's records are the entry's. -/
theorem Inv.namesUnique_iff {s : FS} {dp : Nat} (h : Inv s) (hk : s.locked dp) :
    s.disk.namesUnique (s.itable dp).inum ↔
      NamesUnique (s.record dp) ((s.itable dp).d.size / direntSize) := by
  have ha := (h.coh dp hk).1
  unfold Disk.namesUnique Disk.addrs FS.record
  rw [← ha.addrs, ← ha.size]



/-! ## A locked directory -/

/-- `linkImage` with its root directory held and locked in entry 0, as a system call holds the
directory it links into. -/
def linkRoot : FS :=
  match exec linkImage (.iget ROOTINO) >>= fun s => exec s (.ilock 0) with
  | .ok s => s
  | .error _ => linkImage

theorem linkRoot_reachable : Reachable linkRoot :=
  .step (.ilock 0) (.step (.iget ROOTINO) (.init linkImage_image) trivial rfl)
    ⟨by decide, by decide⟩ rfl

example : (linkRoot.itable 0).inum = ROOTINO ∧ (linkRoot.itable 0).d.size = 512 := by decide

/-! ## Link and lookup agree -/

section Agree

variable {s s' : FS} {dp : Nat}

/-- `dirlink` either finds the name, and then changes no block and returns `-1`, or writes after
a miss. -/
theorem Inv.dirlink_cases (h : Inv s) (hk : s.locked dp) (hdir : (s.itable dp).d.type = .dir)
    (hal : (s.itable dp).d.size % direntSize = 0) {name : List UInt8} {inum : Nat} {r : Int}
    (hl : dirlink s dp name inum = .ok (s', r)) :
    (s'.disk = s.disk ∧ r = -1) ∨ s.lookup dp name = none := by
  obtain ⟨t, c, e⟩ := h.dirlookup_lookup hk hdir hal name
  cases hq : s.lookup dp name with
  | none => exact .inr rfl
  | some j =>
    rw [hq] at e
    dsimp only at e
    cases hg : iget (s.touch dp t c) (s.record dp j).inum with
    | error err =>
      unfold dirlink at hl
      rw [e, hg] at hl
      cases hl
    | ok q =>
      rw [hg] at e
      obtain ⟨s'', hl', hd, -⟩ := h.dirlink_found hk hdir hal inum e
      rw [hl] at hl'
      cases hl'
      exact .inl ⟨hd, rfl⟩

theorem max_div_direntSize (size j : Nat) :
    max size (direntSize * (j + 1)) / direntSize = max (size / direntSize) (j + 1) := by
  have e : direntSize * (j + 1) / direntSize = j + 1 := Nat.mul_div_cancel_left _ (by decide)
  rcases le_total size (direntSize * (j + 1)) with h | h
  · rw [max_eq_right h, max_eq_right (e ▸ Nat.div_le_div_right h), e]
  · rw [max_eq_left h, max_eq_left (e ▸ Nat.div_le_div_right h)]

/-- After a `dirlink` that returns 0, `dirlookup` of the name returns `iget` of the inode number
the record keeps, or none when it is 0, and `dirlookup` of a name `namecmp` tells apart returns
what it returned before. -/
theorem Inv.dirlink_lookup_after (h : Inv s) (hk : s.locked dp)
    (hdir : (s.itable dp).d.type = .dir) (hal : (s.itable dp).d.size % direntSize = 0)
    {name : List UInt8} {inum : Nat} (hl : dirlink s dp name inum = .ok (s', 0)) :
    (∃ off, (dirlookup s' dp name).map Prod.snd =
      if inum % 2 ^ 16 = 0 then .ok none
      else (iget s' (inum % 2 ^ 16)).map fun r => some (r.2, off)) ∧
    ∀ name', namecmp name' name ≠ 0 →
      (dirlookup s' dp name').map Prod.snd = (dirlookup s dp name').map Prod.snd := by
  obtain ⟨-, hr⟩ | hm := h.dirlink_cases hk hdir hal hl
  · cases hr
  obtain ⟨j, hj, hj0, h', hk', hdir', hN, hik, -, hkeep, ⟨-, hsz, hrec⟩ | ⟨hr, -⟩⟩ :=
    h.dirlink_written hk hdir hal hm hl
  swap
  · cases hr
  have hal' : (s'.itable dp).d.size % direntSize = 0 := by
    rw [hsz]; simp only [direntSize_eq] at *; omega
  have hn' : (s'.itable dp).d.size / direntSize = max ((s.itable dp).d.size / direntSize) (j + 1) :=
    by rw [hsz, max_div_direntSize _ j]
  refine ⟨⟨direntSize * j, ?_⟩, fun name' hne => ?_⟩
  · -- the new record is the only live record with the name
    have hmiss := FS.lookup_eq_none.1 hm
    have hq : s'.lookup dp name = if inum % 2 ^ 16 != 0 then some j else none := by
      unfold FS.lookup firstLive
      rw [hn']
      refine find?_range_single (by omega) _ fun i hi => ?_
      by_cases hij : i = j
      · subst hij; simp [hrec, namecmp_dirName_right, namecmp_self]
      · have hin : i < (s.itable dp).d.size / direntSize := by omega
        rw [hkeep i hin hij]
        by_cases h0 : (s.record dp i).inum = 0 <;> simp [hij, h0, hmiss i hin]
    rw [h'.dirlookup_result hk' hdir' hal' name, hq]
    by_cases hz : inum % 2 ^ 16 = 0
    · rw [if_neg (by rw [hz]; exact Bool.false_ne_true), if_pos hz]
    · rw [if_pos (bne_iff_ne.2 hz), if_neg hz]
      dsimp only
      rw [hrec]
  · -- another name stops at the same record, which the write kept
    have hq : s'.lookup dp name' = s.lookup dp name' := by
      unfold FS.lookup firstLive
      rw [hn']
      refine find?_range_extend (le_max_left _ _) fun i hi => ?_
      by_cases hij : i = j
      · subst hij
        by_cases hin : i < (s.itable dp).d.size / direntSize
        · simp [hrec, namecmp_dirName_right, hne, hj0 hin]
        · simp [hrec, namecmp_dirName_right, hne, show ¬ i < (s.itable dp).d.size / 64 from hin]
      · have hin : i < (s.itable dp).d.size / direntSize := by omega
        simp [hkeep i hin hij, show i < (s.itable dp).d.size / 64 from hin]
    rw [h'.dirlookup_result hk' hdir' hal' name', h.dirlookup_result hk hdir hal name', hq]
    cases hl' : s.lookup dp name' with
    | none => rfl
    | some k =>
      obtain ⟨hkm, hkn, -⟩ := List.find?_range_eq_some.1 hl'
      have hkn := List.mem_range.1 hkn
      have hkj : k ≠ j := by
        rintro rfl
        simp [hj0 hkn] at hkm
      dsimp only
      rw [hkeep k hkn hkj]
      exact iget_congr hN (fun k => (hik k).1) (fun k => (hik k).2)
        (fun ip => some (ip, direntSize * k)) _

/-- Whatever `dirlink` returns, a directory whose live records had names `namecmp` tells apart
still has: the new record's name is no live record's, and every other directory is kept. -/
theorem Inv.dirlink_namesUnique (h : Inv s) (hk : s.locked dp)
    (hdir : (s.itable dp).d.type = .dir) (hal : (s.itable dp).d.size % direntSize = 0)
    {name : List UInt8} {inum : Nat} {r : Int} (hl : dirlink s dp name inum = .ok (s', r))
    {i : Nat} (hi : (s.disk.dinode i).type = .dir) (hu : s.disk.namesUnique i) :
    s'.disk.namesUnique i := by
  rcases h.dirlink_cases hk hdir hal hl with ⟨hd, -⟩ | hm
  · unfold Disk.namesUnique at hu ⊢
    rw [hd]
    exact hu
  obtain ⟨j, hj, -, h', hk', -, -, hik, hother, hkeep, hres⟩ := h.dirlink_written hk hdir hal hm hl
  by_cases hid : i = (s.itable dp).inum
  · subst hid
    rw [h.namesUnique_iff hk] at hu
    rw [← (hik dp).1, h'.namesUnique_iff hk']
    rcases hres with ⟨-, hsz, hrec⟩ | ⟨-, hsz, hrec⟩
    · rw [hsz, max_div_direntSize _ j]
      have hmiss := FS.lookup_eq_none.1 hm
      exact hu.set hj hkeep fun k hk _ hl => by rw [hrec, namecmp_dirName_left]; exact hmiss k hk hl
    · rw [hsz]
      exact hu.congr fun k hk => if hkj : k = j then hkj ▸ hrec (hkj ▸ hk) else hkeep k hk hkj
  · obtain ⟨hdi, hby⟩ := hother i hid (by unfold Disk.alloc; rw [hi]; decide)
    unfold Disk.namesUnique at hu ⊢
    rw [hdi]
    exact hu.congr fun k hk => record_congr fun t ht => hby _ (by
      simp only [direntSize_eq] at *; omega)

end Agree

/-- Directory link and lookup agree, on a locked directory of the invariant whose size is a
multiple of the record size, for every name and every inode number. When `dirlookup` finds the
name, `dirlink` puts back the entry it took and returns `-1`, with the disk, every reference count
and the directory's copy but for its access time as they were. When `dirlink` returns 0,
`dirlookup` of the name then returns `iget` of the low 16 bits of `inum`, which the record keeps,
or none when they are 0, and `dirlookup` of every name `namecmp` tells apart from it returns what
it returned before. Whatever `dirlink` returns, a directory whose live records had names `namecmp`
tells apart still has. -/
theorem dirlink_dirlookup {s : FS} {dp : Nat} (h : Inv s) (hk : s.locked dp)
    (hdir : (s.itable dp).d.type = .dir) (hal : (s.itable dp).d.size % direntSize = 0)
    (name : List UInt8) (inum : Nat) :
    (∀ s₁ ip o, dirlookup s dp name = .ok (s₁, some (ip, o)) →
      ∃ s', dirlink s dp name inum = .ok (s', -1) ∧ s'.disk = s.disk ∧
        (∀ k, (s'.itable k).ref = (s.itable k).ref) ∧
        ∃ t, (s'.itable dp).d = { (s.itable dp).d with atime := t }) ∧
    (∀ s', dirlink s dp name inum = .ok (s', 0) →
      (∃ off, (dirlookup s' dp name).map Prod.snd =
        if inum % 2 ^ 16 = 0 then .ok none
        else (iget s' (inum % 2 ^ 16)).map fun r => some (r.2, off)) ∧
      ∀ name', namecmp name' name ≠ 0 →
        (dirlookup s' dp name').map Prod.snd = (dirlookup s dp name').map Prod.snd) ∧
    ∀ s' r, dirlink s dp name inum = .ok (s', r) →
      ∀ i, (s.disk.dinode i).type = .dir → s.disk.namesUnique i → s'.disk.namesUnique i :=
  ⟨fun _ _ _ hf => h.dirlink_found hk hdir hal inum hf,
    fun _ hl => h.dirlink_lookup_after hk hdir hal hl,
    fun _ _ hl _ hi hu => h.dirlink_namesUnique hk hdir hal hl hi hu⟩

/-- Linking `n` to inode 5 in the root directory of `linkImage`. -/
theorem dirlink_dirlookup_linkRoot :
    Inv linkRoot ∧ linkRoot.locked 0 ∧ (linkRoot.itable 0).d.type = .dir ∧
    (linkRoot.itable 0).d.size % direntSize = 0 ∧
    (∀ s₁ ip o, dirlookup linkRoot 0 (ascii "n") = .ok (s₁, some (ip, o)) →
      ∃ s', dirlink linkRoot 0 (ascii "n") 5 = .ok (s', -1) ∧ s'.disk = linkRoot.disk ∧
        (∀ k, (s'.itable k).ref = (linkRoot.itable k).ref) ∧
        ∃ t, (s'.itable 0).d = { (linkRoot.itable 0).d with atime := t }) ∧
    (∀ s', dirlink linkRoot 0 (ascii "n") 5 = .ok (s', 0) →
      (∃ off, (dirlookup s' 0 (ascii "n")).map Prod.snd =
        if 5 % 2 ^ 16 = 0 then .ok none
        else (iget s' (5 % 2 ^ 16)).map fun r => some (r.2, off)) ∧
      ∀ name', namecmp name' (ascii "n") ≠ 0 →
        (dirlookup s' 0 name').map Prod.snd = (dirlookup linkRoot 0 name').map Prod.snd) ∧
    ∀ s' r, dirlink linkRoot 0 (ascii "n") 5 = .ok (s', r) →
      ∀ i, (linkRoot.disk.dinode i).type = .dir → linkRoot.disk.namesUnique i →
        s'.disk.namesUnique i :=
  ⟨linkRoot_reachable.inv, ⟨⟨by decide, by decide⟩, by decide⟩, by decide, by decide,
    dirlink_dirlookup linkRoot_reachable.inv ⟨⟨by decide, by decide⟩, by decide⟩ (by decide)
      (by decide) (ascii "n") 5⟩

/-- `dirlink` of `/n` to inode `2 ^ 16 + 5` returns 0, and `dirlookup` of `n` then returns an entry
for inode 5. -/
theorem dirlink_inum_truncated :
    ∃ s', dirlink linkRoot 0 (ascii "n") (2 ^ 16 + 5) = .ok (s', 0) ∧
      ∃ s'' k off, dirlookup s' 0 (ascii "n") = .ok (s'', some (k, off)) ∧ (s''.itable k).inum = 5 :=
  ⟨_, rfl, _, _, _, rfl, rfl⟩

end Xv6.Fs
