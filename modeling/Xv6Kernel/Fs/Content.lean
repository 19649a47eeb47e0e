import Xv6Kernel.Fs.System

/-!
# File content

What a write leaves for a later read. The entry `ip` is kept (`Keeps`) by every operation that
spares it (`Op.spares`: it neither writes nor truncates `ip`, and puts `ip` only while another
reference remains), so after `writei` a `readi` of the written range, however many sparing
operations come between, returns the bytes written (`writei_readi`).
-/

namespace Xv6.Fs

theorem fileByte_congr {d d' : Disk} (h : d'.block = d.block) (a : Addrs) (x : Nat) :
    fileByte d' a x = fileByte d a x := by
  simp only [fileByte, nodeAddr_congr h, h]

/-! ## What an operation keeps of an entry -/

/-- `s'` keeps the entry `ip` of `s`: still locked on the same inode, with the same size,
addresses and bytes. -/
structure Keeps (ip : Nat) (s s' : FS) : Prop where
  locked : s'.locked ip
  inum : (s'.itable ip).inum = (s.itable ip).inum
  size : (s'.itable ip).d.size = (s.itable ip).d.size
  addrs : (s'.itable ip).d.addrs = (s.itable ip).d.addrs
  bytes : ∀ x < (s.itable ip).d.size,
    fileByte s'.disk (s.itable ip).d.addrs x = fileByte s.disk (s.itable ip).d.addrs x

/-- Two entries hold the same file: inode, flag, size and addresses. -/
def Inode.sameFile (e' e : Inode) : Prop :=
  e'.inum = e.inum ∧ e'.valid = e.valid ∧ e'.d.size = e.d.size ∧ e'.d.addrs = e.d.addrs

theorem Inode.sameFile.refl (e : Inode) : e.sameFile e := ⟨rfl, rfl, rfl, rfl⟩

section Keeps

variable {ip : Nat} {s s₁ s₂ s' : FS}

theorem Keeps.refl (hl : s.locked ip) : Keeps ip s s := ⟨hl, rfl, rfl, rfl, fun _ _ => rfl⟩

theorem Keeps.trans (h₁ : Keeps ip s s₁) (h₂ : Keeps ip s₁ s₂) : Keeps ip s s₂ := by
  refine ⟨h₂.locked, h₂.inum.trans h₁.inum, h₂.size.trans h₁.size, h₂.addrs.trans h₁.addrs,
    fun x hx => ?_⟩
  have := h₂.bytes x (h₁.size ▸ hx)
  rw [h₁.addrs] at this
  rw [this, h₁.bytes x hx]

/-- A step that changes no block and keeps the file of the entry, and a reference to it. -/
theorem Keeps.of_blocks (hl : s.locked ip) (hb : s'.disk.block = s.disk.block)
    (hN : s'.NINODE = s.NINODE) (hr : 0 < (s'.itable ip).ref)
    (he : (s'.itable ip).sameFile (s.itable ip)) : Keeps ip s s' :=
  ⟨⟨⟨hN ▸ hl.1.1, hr⟩, he.2.1.trans hl.2⟩, he.1, he.2.2.1, he.2.2.2,
    fun x _ => fileByte_congr hb _ x⟩

/-- Rewriting one entry of a state with the same blocks and table: another entry is kept, and
so is `ip` when the rewrite keeps its file and a reference. -/
theorem Keeps.modify (hl : s.locked ip) {s₀ : FS} (hb : s₀.disk.block = s.disk.block)
    (ht : s₀.itable = s.itable) (hN : s₀.NINODE = s.NINODE) {k : Nat} {f : Inode → Inode}
    (hf : k = ip → 0 < (f (s.itable ip)).ref ∧ (f (s.itable ip)).sameFile (s.itable ip)) :
    Keeps ip s (s₀.modify k f) := by
  by_cases hk : k = ip
  · subst hk
    obtain ⟨hr, he⟩ := hf rfl
    exact Keeps.of_blocks hl hb hN (by simpa [ht] using hr) (by simpa [ht] using he)
  · exact Keeps.of_blocks hl hb hN (by rw [FS.modify_of_ne _ _ (Ne.symm hk), ht]; exact hl.1.2)
      (by rw [FS.modify_of_ne _ _ (Ne.symm hk), ht]; exact Inode.sameFile.refl _)

theorem Keeps.iupdate (h : Keeps ip s s₁) (k : Nat) : Keeps ip s (iupdate s₁ k) :=
  ⟨h.locked, h.inum, h.size, h.addrs, fun x hx => by
    rw [← h.bytes x hx]; exact fileByte_congr rfl _ x⟩

end Keeps

/-! ## Each operation keeps a spared entry -/

section Ops

variable {ip : Nat} {s s' : FS}

theorem keeps_iget (hl : s.locked ip) {inum k : Nat} (he : iget s inum = .ok (s', k)) :
    Keeps ip s s' ∧ (k = ip → 2 ≤ (s'.itable ip).ref) := by
  have h0 := hl.1.2
  obtain ⟨-, ⟨-, -, rfl⟩ | ⟨hr, -, rfl⟩⟩ := iget_cases he
  · refine ⟨Keeps.modify hl rfl rfl rfl fun hk => ?_, fun hk => ?_⟩
    · subst hk; exact ⟨by simp only; omega, ⟨rfl, rfl, rfl, rfl⟩⟩
    · subst hk; simp only [FS.modify_self]; omega
  · have hk : k ≠ ip := by rintro rfl; omega
    exact ⟨Keeps.modify hl rfl rfl rfl fun e => absurd e hk, fun e => absurd e hk⟩

theorem keeps_ialloc (hl : s.locked ip) {t : IType} {p : IPtr} (he : ialloc s t = .ok (s', p)) :
    Keeps ip s s' := by
  unfold ialloc at he
  split_ifs at he
  · cases he; exact .refl hl
  · cases hf : (List.range' 1 (s.sb.ninodes - 1)).find? fun inum => (s.disk.dinode inum).type = .free with
    | none => rw [hf] at he; cases he; exact .refl hl
    | some inum =>
      rw [hf] at he
      obtain ⟨⟨s₂, k⟩, hg, he⟩ := bind_eq_ok he
      cases he
      have h₁ : Keeps ip s { s with disk := s.disk.setDinode inum (DInode.fresh t) } :=
        Keeps.of_blocks hl rfl rfl hl.1.2 (.refl _)
      exact h₁.trans (keeps_iget h₁.locked hg).1

theorem keeps_idup (hl : s.locked ip) (k : Nat) : Keeps ip s (idup s k) :=
  Keeps.modify hl rfl rfl rfl fun hk => by
    subst hk; have := hl.1.2; exact ⟨by simp only; omega, ⟨rfl, rfl, rfl, rfl⟩⟩

theorem keeps_ilock (hl : s.locked ip) {k : Nat} (he : ilock s k = .ok s') : Keeps ip s s' := by
  unfold ilock at he
  dsimp only at he
  split_ifs at he with h1 hv <;> cases he
  · exact .refl hl
  · exact Keeps.modify hl rfl rfl rfl fun hk => by subst hk; exact absurd hl.2 hv

theorem Inv.keeps_readi (h : Inv s) (hl : s.locked ip) {k : Nat} (hk : s.locked k)
    {ok : Nat → Nat → Bool} {off n : Nat} {r : Int} {out : List UInt8} (hoff : off < 2 ^ 32)
    (hn : n < 2 ^ 32) (he : readi s k ok off n = .ok (s', r, out)) : Keeps ip s s' := by
  obtain ⟨t, c, r', out', e, -⟩ := h.readi_eq hk ok hoff hn
  rw [e] at he
  cases he
  exact Keeps.modify hl (by rfl) (by rfl) (by rfl) fun hki => by
    subst hki; exact ⟨hl.1.2, ⟨rfl, rfl, rfl, rfl⟩⟩

theorem Inv.keeps_writei (h : Inv s) (hl : s.locked ip) {k : Nat} (hk : s.locked k) (hki : k ≠ ip)
    {src : Nat → UInt8} {ok : Nat → Nat → Bool} {off n : Nat} {r : Int} (hoff : off < 2 ^ 32)
    (hn : n < 2 ^ 32) (he : writei s k src ok off n = .ok (s', r)) : Keeps ip s s' := by
  rcases h.writei_cases hk hoff hn he with ⟨rfl, -, -⟩ | ⟨-, -, d, x, c, tot, -, -, hwr, -, rfl⟩
  · exact .refl hl
  have hne : (s.itable ip).inum ≠ (s.itable k).inum := fun e => hki (h.uniq k ip hk.1 hl.1 e.symm)
  obtain ⟨ha, hal⟩ := h.coh ip hl
  have hent : (iupdate ({ s with disk := d, mtimeClock := c }.modify k fun e => { e with d := x })
      k).itable ip = s.itable ip := by
    rw [iupdate_itable]; exact FS.modify_of_ne _ _ (Ne.symm hki)
  refine ⟨⟨⟨hl.1.1, by rw [hent]; exact hl.1.2⟩, by rw [hent]; exact hl.2⟩, by rw [hent],
    by rw [hent], by rw [hent], fun y hy => ?_⟩
  have hA : s.disk.addrs (s.itable ip).inum = (s.itable ip).d.addrs := ha.addrs.symm
  have := hwr.kept _ y hal (by rw [hA]; exact h.noHoles hl y hy) (fun ⟨e, _⟩ => hne e)
  rw [Function.update_noteq hne, hA] at this
  rw [← this]
  exact fileByte_congr rfl _ y

theorem Inv.keeps_itrunc (h : Inv s) (hl : s.locked ip) {k : Nat} (hk : s.locked k) (hki : k ≠ ip)
    (he : itrunc s k = .ok s') : Keeps ip s s' := by
  rw [h.itrunc_eq hk] at he
  cases he
  exact Keeps.of_blocks hl (by simp) (by simp)
    (by simpa [FS.modify_of_ne _ _ (Ne.symm hki)] using hl.1.2)
    (by simpa [FS.modify_of_ne _ _ (Ne.symm hki)] using Inode.sameFile.refl (s.itable ip))

theorem keeps_setNlink (hl : s.locked ip) (k : Nat) (v : Int) : Keeps ip s (setNlink s k v) :=
  (Keeps.modify hl rfl rfl rfl fun hk => by
    subst hk; exact ⟨hl.1.2, ⟨rfl, rfl, rfl, rfl⟩⟩).iupdate k

theorem Inv.keeps_iput (h : Inv s) (hl : s.locked ip) {k : Nat} (hk : s.held k)
    (hsp : k = ip → 2 ≤ (s.itable ip).ref) (he : iput s k = .ok s') : Keeps ip s s' := by
  unfold iput at he
  by_cases hc : (s.itable k).ref = 1 ∧ (s.itable k).valid = true ∧ (s.itable k).d.nlink = 0
  · have hki : k ≠ ip := by rintro rfl; have := hsp rfl; omega
    rw [if_pos hc, h.itrunc_eq ⟨hk, hc.2.1⟩] at he
    cases he
    exact Keeps.of_blocks hl (by simp) (by simp) (by simpa [FS.modify_of_ne _ _ (Ne.symm hki)] using hl.1.2)
      (by simpa [FS.modify_of_ne _ _ (Ne.symm hki)] using Inode.sameFile.refl (s.itable ip))
  · rw [if_neg hc] at he
    cases he
    exact Keeps.modify hl rfl rfl rfl fun e => by
      subst e; have := hsp rfl; exact ⟨by simp only; omega, ⟨rfl, rfl, rfl, rfl⟩⟩

theorem Inv.keeps_ireclaimOne (h : Inv s) (hl : s.locked ip) {inum : Nat}
    (he : ireclaimOne s inum = .ok s') : Keeps ip s s' := by
  unfold ireclaimOne at he
  split_ifs at he
  · obtain ⟨⟨s₁, k⟩, hg, he⟩ := bind_eq_ok he
    obtain ⟨h₁, hk₁, -, -⟩ := h.of_iget hg
    obtain ⟨k₁, hk2⟩ := keeps_iget hl hg
    obtain ⟨s₂, hlk, he⟩ := bind_eq_ok he
    obtain ⟨h₂, hk₂, href, -⟩ := h₁.of_ilock hk₁ hlk
    have k₂ := keeps_ilock k₁.locked hlk
    obtain ⟨s₃, hu, he⟩ := bind_eq_ok he
    rw [iunlock_eq hk₂.1] at hu
    cases hu
    exact k₁.trans (k₂.trans (h₂.keeps_iput k₂.locked hk₂.1 (fun e => by rw [href]; exact hk2 e) he))
  · cases he; exact .refl hl

theorem Inv.keeps_ireclaim_loop : ∀ (l : List Nat) {s s' : FS}, Inv s → s.locked ip →
    l.foldlM ireclaimOne s = .ok s' → Keeps ip s s'
  | [], _, _, _, hl, he => by cases he; exact .refl hl
  | inum :: l, _, _, h, hl, he => by
    rw [List.foldlM_cons] at he
    obtain ⟨s₁, h1, h2⟩ := bind_eq_ok he
    have k₁ := h.keeps_ireclaimOne hl h1
    exact k₁.trans (Inv.keeps_ireclaim_loop l (h.of_ireclaimOne h1).1 k₁.locked h2)

end Ops

/-! ## Runs that spare an entry -/

/-- The operations that spare the entry `ip`: they neither write nor truncate it, and put it only
while another reference to it remains. -/
def Op.spares (ip : Nat) (s : FS) : Op → Prop
  | .writei k _ _ _ _ | .itrunc k => k ≠ ip
  | .iput k => k = ip → 2 ≤ (s.itable ip).ref
  | _ => True

/-- A run of operations under their preconditions, each sparing the entry `ip`. -/
inductive RunSparing (ip : Nat) : FS → List Op → FS → Prop
  | nil (s : FS) : RunSparing ip s [] s
  | cons {s s₁ s₂ : FS} {op : Op} {ops : List Op} : op.guard s → op.spares ip s →
      exec s op = .ok s₁ → RunSparing ip s₁ ops s₂ → RunSparing ip s (op :: ops) s₂

section Runs

variable {ip : Nat} {s s' : FS}

/-- Every operation that spares a locked entry keeps it. -/
theorem Inv.keeps (h : Inv s) (hl : s.locked ip) {op : Op} (hg : op.guard s)
    (hsp : op.spares ip s) (he : exec s op = .ok s') : Keeps ip s s' := by
  cases op with
  | ialloc t =>
    obtain ⟨_, hx⟩ := map_fst_eq_ok he
    exact keeps_ialloc hl hx
  | iget inum =>
    obtain ⟨_, hx⟩ := map_fst_eq_ok he
    exact (keeps_iget hl hx).1
  | idup k => cases he; exact keeps_idup hl k
  | ilock k => exact keeps_ilock hl he
  | iunlock k => simp only [exec, iunlock_eq hg] at he; cases he; exact .refl hl
  | readi k ok off n =>
    obtain ⟨⟨r, out⟩, hx⟩ := map_fst_eq_ok he
    exact h.keeps_readi hl hg.1 hg.2.1 hg.2.2 hx
  | writei k src ok off n =>
    obtain ⟨_, hx⟩ := map_fst_eq_ok he
    exact h.keeps_writei hl hg.1 hsp hg.2.1 hg.2.2 hx
  | itrunc k => exact h.keeps_itrunc hl hg hsp he
  | setNlink k v => cases he; exact keeps_setNlink hl k v
  | iput k => exact h.keeps_iput hl hg hsp he
  | ireclaim => exact Inv.keeps_ireclaim_loop _ h hl he

theorem Inv.keeps_run (h : Inv s) (hl : s.locked ip) {ops : List Op}
    (hr : RunSparing ip s ops s') : Inv s' ∧ Keeps ip s s' := by
  induction hr with
  | nil => exact ⟨h, .refl hl⟩
  | cons hg hsp he _ ih =>
    have k₁ := h.keeps hl hg hsp he
    obtain ⟨h₂, k₂⟩ := ih (h.step hg he) k₁.locked
    exact ⟨h₂, k₁.trans k₂⟩

end Runs

/-! ## Write, then read -/

theorem map_getD_range (bs : List UInt8) :
    (List.range bs.length).map (fun k => bs.getD k 0) = bs := by
  refine List.ext_getElem (by simp) fun k h1 h2 => ?_
  simp [List.getElem?_eq_getElem h2]

/-- What `writei` on a locked entry leaves of its file: nothing, when it returns `-1` before its
loop; otherwise `tot` bytes of `src` at `off`, the size `max size (off + tot)`, the entry as it was
but for its addresses and modification time, and every other byte below the old size kept. -/
theorem Inv.writei_bytes {ip : Nat} {s s' : FS} (h : Inv s) (hl : s.locked ip)
    {src : Nat → UInt8} {ok : Nat → Nat → Bool} {off n : Nat} {r : Int} (hoff : off < 2 ^ 32)
    (hn : n < 2 ^ 32) (hw : writei s ip src ok off n = .ok (s', r)) :
    (s' = s ∧ r = -1 ∧ ((s.itable ip).d.size < off ∨ 2 ^ 32 ≤ off + n)) ∨
    ∃ tot ≤ n, r = toInt32 tot ∧ s'.NINODE = s.NINODE ∧
      (∃ a m, s'.itable ip = { s.itable ip with d := { (s.itable ip).d with
        addrs := a, size := max (s.itable ip).d.size (off + tot), mtime := m } }) ∧
      (∀ x, off ≤ x → x < off + tot →
        fileByte s'.disk (s'.itable ip).d.addrs x = src (x - off)) ∧
      ∀ x < (s.itable ip).d.size, (x < off ∨ off + tot ≤ x) →
        fileByte s'.disk (s'.itable ip).d.addrs x = fileByte s.disk (s.itable ip).d.addrs x := by
  rcases h.writei_cases hl hoff hn hw with h₀ | ⟨-, -, d, x, c, tot, htot, hr, hwr, hx, rfl⟩
  · exact .inl h₀
  obtain ⟨ha, hal⟩ := h.coh ip hl
  have hA : s.disk.addrs (s.itable ip).inum = (s.itable ip).d.addrs := ha.addrs.symm
  have hent : (iupdate ({ s with disk := d, mtimeClock := c }.modify ip fun e => { e with d := x })
      ip).itable ip = { s.itable ip with d := x } := by simp
  have hbyte : ∀ y, fileByte (iupdate ({ s with disk := d, mtimeClock := c }.modify ip
      fun e => { e with d := x }) ip).disk x.addrs y = fileByte d x.addrs y :=
    fileByte_congr (by simp) _
  refine .inr ⟨tot, htot, hr, rfl, ⟨x.addrs, x.mtime, by rw [hent, hx]⟩, fun y h1 h2 => ?_,
    fun y hy hout => ?_⟩ <;> rw [hent, hbyte]
  · have := hwr.written y h1 h2
    rwa [Function.update_same, Nat.zero_add] at this
  · have := hwr.kept _ y hal (by rw [hA]; exact h.noHoles hl y hy) (by omega)
    rwa [Function.update_same, hA] at this

/-- Write/read round trip: after a `writei` of the bytes `bs` at `off ≤ size` on a locked entry
that returns `bs.length`, the size is `max size (off + bs.length)` and every other byte below the
old size is unchanged; and after any run of operations that spares the entry, a `readi` of the
range returns `bs.length` and exactly `bs`. -/
theorem writei_readi {s s₁ : FS} {ip : Nat} (hr : Reachable s) (hl : s.locked ip)
    {bs : List UInt8} {ok : Nat → Nat → Bool} {off : Nat} (hoff : off ≤ (s.itable ip).d.size)
    (hlen : off + bs.length < 2 ^ 32)
    (hw : writei s ip (fun k => bs.getD k 0) ok off bs.length = .ok (s₁, toInt32 bs.length)) :
    (s₁.itable ip).d.size = max (s.itable ip).d.size (off + bs.length) ∧
    (∀ x < (s.itable ip).d.size, x < off ∨ off + bs.length ≤ x →
      fileByte s₁.disk (s₁.itable ip).d.addrs x = fileByte s.disk (s.itable ip).d.addrs x) ∧
    ∀ ops s₂, RunSparing ip s₁ ops s₂ →
      ∃ s₃, readi s₂ ip (fun _ _ => true) off bs.length = .ok (s₃, toInt32 bs.length, bs) := by
  have h := hr.inv
  have hoff' : off < 2 ^ 32 := by omega
  have hn : bs.length < 2 ^ 32 := by omega
  rcases h.writei_bytes hl hoff' hn hw with
    ⟨-, -, hbad⟩ | ⟨tot, htot, hr', hN, ⟨a, m, hent⟩, written, kept⟩
  · omega
  obtain rfl : tot = bs.length := toInt32_inj (by omega) hn hr'.symm
  have hsize : (s₁.itable ip).d.size = max (s.itable ip).d.size (off + bs.length) := by rw [hent]
  have hl₁ : s₁.locked ip := ⟨⟨hN ▸ hl.1.1, by rw [hent]; exact hl.1.2⟩, by rw [hent]; exact hl.2⟩
  refine ⟨hsize, kept, fun ops s₂ hrun => ?_⟩
  obtain ⟨h₂, hk⟩ := (h.of_writei hl hoff' hn hw).keeps_run hl₁ hrun
  obtain ⟨t, c', r, out, e, hall⟩ := h₂.readi_eq hk.locked (fun _ _ => true) hoff' hn
  obtain ⟨hr₂, hout⟩ := hall (fun _ _ => rfl) (by rw [hk.size, hsize]; omega) hlen
  rw [hk.size, hsize, show min bs.length (max (s.itable ip).d.size (off + bs.length) - off) =
    bs.length by omega] at hr₂ hout
  have hbs : (List.range bs.length).map
      (fun k => fileByte s₂.disk (s₂.itable ip).d.addrs (off + k)) = bs := by
    refine (List.map_congr_left fun k hk' => ?_).trans (map_getD_range bs)
    simp only [List.mem_range] at hk'
    rw [hk.addrs, hk.bytes (off + k) (by omega), written (off + k) (by omega) (by omega),
      Nat.add_sub_cancel_left]
  rw [e, hr₂, hout, hbs]
  exact ⟨_, rfl⟩

/-- Two bytes written at offset 0 of the empty file of `blankFile`. -/
def blankWritten : FS :=
  match writei blankFile 0 (fun k => [7, 9].getD k 0) (fun _ _ => true) 0 2 with
  | .ok (s, _) => s
  | .error _ => blankFile

theorem blankWritten_reachable : Reachable blankWritten :=
  .step (.writei 0 (fun k => [7, 9].getD k 0) (fun _ _ => true) 0 2) blankFile_reachable
    ⟨⟨⟨by decide, by decide⟩, by decide⟩, by decide, by decide⟩ rfl

theorem writei_readi_blankFile :
    (blankWritten.itable 0).d.size = max (blankFile.itable 0).d.size (0 + [(7 : UInt8), 9].length) ∧
    (∀ x < (blankFile.itable 0).d.size, x < 0 ∨ 0 + [(7 : UInt8), 9].length ≤ x →
      fileByte blankWritten.disk (blankWritten.itable 0).d.addrs x =
        fileByte blankFile.disk (blankFile.itable 0).d.addrs x) ∧
    ∀ ops s₂, RunSparing 0 blankWritten ops s₂ →
      ∃ s₃, readi s₂ 0 (fun _ _ => true) 0 [(7 : UInt8), 9].length =
        .ok (s₃, toInt32 [(7 : UInt8), 9].length, [7, 9]) :=
  writei_readi blankFile_reachable ⟨⟨by decide, by decide⟩, by decide⟩ (by decide) (by decide)
    (show writei blankFile 0 _ (fun _ _ => true) 0 _ = _ from rfl)

end Xv6.Fs
