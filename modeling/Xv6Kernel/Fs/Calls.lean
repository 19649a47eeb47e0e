import Xv6Kernel.Fs.Refs

/-!
# The reference counts across the file-system calls

Each call of `sysfile.c` on a sane state, made by a process whose current directory is held,
ends in a sane state and gives back every reference it takes, but the one it hands on:

* `Moves.sys_mkdir`, `Moves.sys_mknod`, `Moves.sys_link`, `Moves.sys_unlink`,
  `Moves.sys_symlink`, `Moves.sys_readlink`: no count moves.
* `Moves.sys_open`: the count of the inode of the file opened rises by one, the reference the
  file keeps.
* `Moves.sys_chdir`: the process's reference moves from its old directory to its new one.

`Moves.create` gives what `create` leaves: its entry locked, with one reference for the caller.
The proofs peel each call one bind at a time and add up the moves of the operations in it.
-/
namespace Xv6.Fs
variable {s s' : FS}

/-- A bind that the two branches of an `if` share, as `do` compiles a join point. -/
theorem ite_bind_eq_ok {α β : Type} {c : Prop} [Decidable c] {x y : Except Stop α}
    {f : α → Except Stop β} {b : β} (h : (if c then x >>= f else y >>= f) = .ok b) :
    ∃ a, (if c then x else y) = .ok a ∧ f a = .ok b := by
  split_ifs at h ⊢ <;> exact bind_eq_ok h

theorem Step.linkDots (h : Sane s) {ip dp : Nat} (hk : s.locked ip) {b : Bool}
    (he : Fs.linkDots s ip dp = .ok (s', b)) : Step s s' 0 := by
  obtain ⟨⟨s₁, r⟩, h1, he⟩ := bind_eq_ok he
  have h₁ := Step.dirlink h hk h1
  dsimp only at he
  split_ifs at he
  · cases he; exact h₁
  · obtain ⟨⟨s₂, r₂⟩, h2, he⟩ := bind_eq_ok he
    cases he
    exact (h₁.trans (Step.dirlink h₁.sane (h₁.locked hk (le_refl 0)) h2) fun _ => le_refl 0).congr
      fun j => by simp

theorem Moves.create (h : Sane s) {cwd : Nat} (hc : s.held cwd) {path : List UInt8} {type : IType}
    {major minor : Int} {p : IPtr} (he : Fs.create s cwd path type major minor = .ok (s', p)) :
    Moves s s' (ptrRef p) ∧ ∀ ip, p = .slot ip → s'.locked ip := by
  obtain ⟨⟨s₁, dpo, name⟩, h1, he⟩ := bind_eq_ok he
  obtain ⟨m₁, hb₁⟩ := Moves.namex h (fun _ => hc) h1
  cases dpo with
  | none => cases he; exact ⟨m₁, nofun⟩
  | some dp =>
  obtain ⟨s₂, h2, he⟩ := bind_eq_ok he
  obtain ⟨h₂, hk₂⟩ := Step.ilock m₁.sane (m₁.same.N ▸ hb₁ dp rfl) h2
  obtain ⟨⟨s₃, found⟩, h3, he⟩ := bind_eq_ok he
  obtain ⟨h₃, hb₃⟩ := Step.dirlookup h₂.sane hk₂ h3
  have m₃ := (m₁.trans h₂.toMoves).trans h₃.toMoves
  cases found with
  | some f =>
    obtain ⟨ip, off⟩ := f
    obtain ⟨s₄, h4, he⟩ := bind_eq_ok he
    have h₄ := Step.iunlockput h₃.sane (h₃.locked hk₂ (optRef_nonneg _ dp)).1 h4
    obtain ⟨s₅, h5, he⟩ := bind_eq_ok he
    obtain ⟨h₅, hk₅⟩ := Step.ilock h₄.sane (by rw [h₄.same.N, h₃.same.N]; exact (hb₃ ip off rfl).1) h5
    have m₅ := (m₃.trans h₄.toMoves).trans h₅.toMoves
    split_ifs at he
    · cases he
      exact ⟨m₅.congr fun j => by
        simp only [Pi.add_apply, Pi.neg_apply, Pi.zero_apply, optRef, ptrRef, Option.map_some']; omega,
        fun k e => by cases e; exact hk₅⟩
    · obtain ⟨s₆, h6, he⟩ := bind_eq_ok he
      cases he
      exact ⟨(m₅.trans (Step.iunlockput h₅.sane hk₅.1 h6).toMoves).congr fun j => by
        simp only [Pi.add_apply, Pi.neg_apply, Pi.zero_apply, optRef, ptrRef, Option.map_some']; omega,
        nofun⟩
  | none =>
    obtain ⟨⟨s₄, p⟩, h4, he⟩ := bind_eq_ok he
    obtain ⟨h₄, hb₄⟩ := Step.ialloc h₃.sane h4
    have hk₄ : s₄.locked dp := (h₃.trans h₄ (optRef_nonneg _)).locked hk₂
      (by simp only [Pi.add_apply, Pi.zero_apply, Option.map_none', optRef, zero_add]; exact ptrRef_nonneg p dp)
    have m₄ := m₃.trans h₄.toMoves
    dsimp only at he
    cases p with
    | err e =>
      by_cases herr : IS_ERR_PTR (.err e) = true
      · rw [if_pos herr] at he
        obtain ⟨s₅, h5, he⟩ := bind_eq_ok he
        cases he
        exact ⟨(m₄.trans (Step.iunlockput h₄.sane hk₄.1 h5).toMoves).congr fun j => by
          simp only [Pi.add_apply, Pi.neg_apply, Pi.zero_apply, optRef, ptrRef, Option.map_some',
            Option.map_none']; omega, nofun⟩
      · rw [if_neg herr] at he
        cases he
    | slot ip =>
    rw [if_neg (show ¬ IS_ERR_PTR (.slot ip) = true from Bool.false_ne_true),
      show (IPtr.slot ip).entry = .ok ip from rfl, ok_bind] at he
    obtain ⟨s₅, h6, he⟩ := bind_eq_ok he
    obtain ⟨h₅, hk₅⟩ := Step.ilock h₄.sane (by rw [h₄.same.N]; exact hb₄ ip rfl) h6
    have hd₅ : s₅.locked dp := h₅.locked hk₄ (le_refl 0)
    have h₆ : Step s₅ (iupdate (s₅.modify ip fun e => { e with d := { e.d with major, minor, nlink := 1 } })
        ip) 0 := Step.setMeta h₅.sane hk₅ (fun d => { d with major, minor, nlink := 1 }) rfl rfl rfl
    generalize iupdate (s₅.modify ip fun e => { e with d := { e.d with major, minor, nlink := 1 } })
        ip = s₆ at h₆ he
    have m₆ := (m₄.trans h₅.toMoves).trans h₆.toMoves
    have hk₆ := h₆.locked hk₅ (le_refl 0)
    have hd₆ := h₆.locked hd₅ (le_refl 0)
    obtain ⟨⟨s₇, ok₁⟩, h7, he⟩ := ite_bind_eq_ok he
    have h₇ : Step s₆ s₇ 0 := by
      split at h7
      · exact Step.linkDots h₆.sane hk₆ h7
      · cases h7; exact Step.refl h₆.sane
    have m₇ := m₆.trans h₇.toMoves
    have hk₇ := h₇.locked hk₆ (le_refl 0)
    have hd₇ := h₇.locked hd₆ (le_refl 0)
    have hdN : dp < s.NINODE := hb₁ dp rfl
    replace m₇ : Moves s s₇ (oneRef dp + oneRef ip) := m₇.congr fun j => by
      simp only [Pi.add_apply, Pi.zero_apply, optRef, ptrRef, Option.map_some', Option.map_none']; omega
    -- the failure path: the new inode's link cleared, both entries put
    have fail : ∀ s₈, Moves s s₈ (oneRef dp + oneRef ip) → s₈.locked ip →
        (do
          let s ← iunlockput (setNlink s₈ ip 0) ip
          let s ← iunlockput s dp
          pure (s, IPtr.err (-ENOSPC)) : Except Stop (FS × IPtr)) = .ok (s', p) →
        Moves s s' (ptrRef p) ∧ ∀ ip, p = .slot ip → s'.locked ip := by
      intro s₈ m₈ hk₈ he
      obtain ⟨s₉, h9, he⟩ := bind_eq_ok he
      obtain ⟨s₁₀, h10, he⟩ := bind_eq_ok he
      cases he
      have h₈ := Step.setNlink m₈.sane hk₈ 0
      have h₉ := Step.iunlockput h₈.sane (h₈.locked hk₈ (le_refl 0)).1 h9
      have m₉ := (m₈.trans h₈.toMoves).trans h₉.toMoves
      have h₁₀ := Step.iunlockput h₉.sane (m₉.held hdN (by
        have := m₁.sane.refs dp; have := h.refs dp
        simp only [Pi.add_apply, Pi.neg_apply, Pi.zero_apply, oneRef_self]
        have := oneRef_nonneg ip dp; omega)) h10
      exact ⟨(m₉.trans h₁₀.toMoves).congr fun j => by
        simp only [Pi.add_apply, Pi.neg_apply, Pi.zero_apply, ptrRef]; omega, nofun⟩
    dsimp only at he
    cases ok₁ with
    | false =>
      rw [if_neg Bool.false_ne_true] at he
      obtain ⟨q, hq, he⟩ := bind_eq_ok he
      cases hq
      dsimp only at he
      rw [if_neg Bool.false_ne_true] at he
      exact fail s₇ m₇ hk₇ he
    | true =>
      rw [if_pos rfl] at he
      obtain ⟨⟨s₈, r⟩, h8, he⟩ := bind_eq_ok he
      obtain ⟨q, hq, he⟩ := bind_eq_ok he
      cases hq
      have h₈ := Step.dirlink h₇.sane hd₇ h8
      have m₈ := (m₇.trans h₈.toMoves).congr fun j => add_zero _
      have hk₈ := h₈.locked hk₇ (le_refl 0)
      have hd₈ := h₈.locked hd₇ (le_refl 0)
      dsimp only at he
      by_cases hr : decide (0 ≤ r) = true
      · rw [if_pos hr] at he
        obtain ⟨s₁₀, h10, he⟩ := bind_eq_ok he
        cases he
        have h₉ : Step s₈ (if type = .dir then setNlink s₈ dp (toShort ((s₈.itable dp).d.nlink + 1))
            else s₈) 0 := by
          split_ifs
          exacts [Step.setNlink h₈.sane hd₈ _, Step.refl h₈.sane]
        have h₁₀ := Step.iunlockput h₉.sane (h₉.locked hd₈ (le_refl 0)).1 h10
        have m₁₀ := (m₈.trans h₉.toMoves).trans h₁₀.toMoves
        refine ⟨m₁₀.congr fun j => ?_, fun k e => ?_⟩
        · simp only [Pi.add_apply, Pi.neg_apply, Pi.zero_apply, ptrRef]; omega
        · cases e
          refine h₁₀.locks ip (h₉.locked hk₈ (le_refl 0)) (m₁₀.held (m₃.same.N ▸ hb₄ ip rfl) ?_)
          · have := h.refs ip
            simp only [Pi.add_apply, Pi.neg_apply, Pi.zero_apply, oneRef_self]
            have := oneRef_nonneg dp ip; omega
      · rw [if_neg hr] at he
        exact fail s₈ m₈ hk₈ he

theorem Moves.sys_open (h : Sane s) {cwd : Nat} (hc : s.held cwd) {path : List UInt8} {omode : Nat}
    {fd : Option Nat} {r : Int} {f : Option Nat} (he : sys_open s cwd path omode fd = .ok (s', r, f)) :
    Moves s s' (optRef f) ∧ ∀ k, f = some k → k < s.NINODE := by
  -- from the entry opened, locked and holding the call's one reference
  have tail : ∀ s₁ ip, Moves s s₁ (oneRef ip) → s₁.locked ip →
      (if (s₁.itable ip).d.type = .device ∧
          ((s₁.itable ip).d.major < 0 ∨ (s₁.NDEV : Int) ≤ (s₁.itable ip).d.major) then do
        let s ← iunlockput s₁ ip
        pure (s, - ENXIO, none)
      else match fd with
        | none => do
          let s ← iunlockput s₁ ip
          pure (s, -EMFILE, none)
        | some fd => do
          let s ← if omode &&& O_TRUNC ≠ 0 ∧ (s₁.itable ip).d.type = .file then itrunc s₁ ip
            else pure s₁
          let s ← iunlock s ip
          pure (s, fd, some ip) : Except Stop (FS × Int × Option Nat)) = .ok (s', r, f) →
      Moves s s' (optRef f) ∧ ∀ k, f = some k → k < s.NINODE := by
    intro s₁ ip m₁ hk he
    have put : ∀ s₂ e, iunlockput s₁ ip = .ok s₂ → (s', r, f) = (s₂, e, none) →
        Moves s s' (optRef f) ∧ ∀ k, f = some k → k < s.NINODE := by
      rintro s₂ e h2 ⟨⟩
      exact ⟨(m₁.trans (Step.iunlockput m₁.sane hk.1 h2).toMoves).congr fun j => by
        simp only [Pi.add_apply, Pi.neg_apply, Pi.zero_apply, optRef]; omega, nofun⟩
    have keep : ∀ s₂ (fd : Nat), Step s₁ s₂ 0 →
        (do
          let s ← iunlock s₂ ip
          pure (s, (fd : Int), some ip) : Except Stop (FS × Int × Option Nat)) = .ok (s', r, f) →
        Moves s s' (optRef f) ∧ ∀ k, f = some k → k < s.NINODE := by
      intro s₂ fd h₂ he
      rw [iunlock_eq (h₂.locked hk (le_refl 0)).1, ok_bind] at he
      cases he
      exact ⟨(m₁.trans h₂.toMoves).congr fun j => by simp [optRef],
        fun k e => by cases e; exact m₁.same.N ▸ hk.1.1⟩
    cases fd with
    | none =>
      split_ifs at he <;>
      · obtain ⟨s₂, h2, he⟩ := bind_eq_ok he
        exact put s₂ _ h2 (Except.ok.inj he).symm
    | some fd =>
      split_ifs at he with hdev ht
      · obtain ⟨s₂, h2, he⟩ := bind_eq_ok he
        exact put s₂ _ h2 (Except.ok.inj he).symm
      · obtain ⟨s₂, h2, he⟩ := bind_eq_ok he
        exact keep s₂ fd (Step.itrunc m₁.sane hk h2) he
      · obtain ⟨s₂, h2, he⟩ := bind_eq_ok he
        obtain rfl : s₁ = s₂ := Except.ok.inj h2
        exact keep s₁ fd (Step.refl m₁.sane) he
  unfold Fs.sys_open at he
  by_cases ha : (!argstrOk s path) = true
  · rw [if_pos ha] at he; cases he; exact ⟨Moves.refl h, nofun⟩
  rw [if_neg ha] at he
  by_cases hcr : omode &&& O_CREATE ≠ 0
  · rw [if_pos hcr] at he
    obtain ⟨⟨s₁, p⟩, h1, he⟩ := bind_eq_ok he
    obtain ⟨m₁, hl₁⟩ := Moves.create h hc h1
    dsimp only at he
    cases p with
    | err e =>
      by_cases herr : IS_ERR_PTR (.err e) = true
      · rw [if_pos herr] at he
        obtain ⟨o, ho, he⟩ := bind_eq_ok he
        cases ho
        cases he
        exact ⟨m₁, nofun⟩
      · rw [if_neg herr] at he
        cases he
    | slot ip =>
      rw [if_neg (show ¬ IS_ERR_PTR (.slot ip) = true from Bool.false_ne_true)] at he
      obtain ⟨ip', hip, he⟩ := bind_eq_ok he
      cases hip
      obtain ⟨o, ho, he⟩ := bind_eq_ok he
      cases ho
      cases fd <;> exact tail s₁ ip m₁ (hl₁ ip rfl) he
  · rw [if_neg hcr] at he
    obtain ⟨⟨s₁, ipo⟩, h1, he⟩ := bind_eq_ok he
    obtain ⟨m₁, hb₁⟩ := Moves.namei h (fun _ => hc) h1
    cases ipo with
    | none =>
      obtain ⟨o, ho, he⟩ := bind_eq_ok he
      cases ho
      cases he
      exact ⟨m₁, nofun⟩
    | some ip =>
      obtain ⟨s₂, h2, he⟩ := bind_eq_ok he
      obtain ⟨h₂, hk₂⟩ := Step.ilock m₁.sane (m₁.same.N ▸ hb₁ ip rfl) h2
      split_ifs at he
      · obtain ⟨s₃, h3, he⟩ := bind_eq_ok he
        obtain ⟨o, ho, he⟩ := bind_eq_ok he
        cases ho
        cases he
        exact ⟨((m₁.trans h₂.toMoves).trans (Step.iunlockput h₂.sane hk₂.1 h3).toMoves).congr fun j => by
          simp only [Pi.add_apply, Pi.neg_apply, Pi.zero_apply, optRef]; omega, nofun⟩
      · obtain ⟨o, ho, he⟩ := bind_eq_ok he
        cases ho
        cases fd <;> exact tail s₂ ip ((m₁.trans h₂.toMoves).congr fun j => add_zero _) hk₂ he

/-- What `sys_mkdir` and `sys_mknod` do with the entry `create` returns: put it back. -/
theorem Moves.create_put (h : Sane s) {cwd : Nat} (hc : s.held cwd) {path : List UInt8}
    {type : IType} {major minor : Int} {s₁ : FS} {p : IPtr}
    (h1 : Fs.create s cwd path type major minor = .ok (s₁, p)) {r : Int}
    (he : (if IS_ERR_PTR p then pure (s₁, PTR_ERR_CODE p) else do
        let ip ← p.entry
        let s ← iunlockput s₁ ip
        pure (s, 0) : Except Stop (FS × Int)) = .ok (s', r)) : Moves s s' 0 := by
  obtain ⟨m₁, hl₁⟩ := Moves.create h hc h1
  cases p with
  | err e =>
    by_cases herr : IS_ERR_PTR (.err e) = true
    · rw [if_pos herr] at he; cases he; exact m₁
    · rw [if_neg herr] at he; cases he
  | slot ip =>
    rw [if_neg (show ¬ IS_ERR_PTR (.slot ip) = true from Bool.false_ne_true),
      show (IPtr.slot ip).entry = .ok ip from rfl, ok_bind] at he
    obtain ⟨s₂, h2, he⟩ := bind_eq_ok he
    cases he
    exact (m₁.trans (Step.iunlockput m₁.sane (hl₁ ip rfl).1 h2).toMoves).congr fun j => by
      simp only [Pi.add_apply, Pi.neg_apply, Pi.zero_apply, ptrRef]; omega

theorem Moves.sys_mkdir (h : Sane s) {cwd : Nat} (hc : s.held cwd) {path : List UInt8} {r : Int}
    (he : sys_mkdir s cwd path = .ok (s', r)) : Moves s s' 0 := by
  unfold Fs.sys_mkdir at he
  by_cases ha : (!argstrOk s path) = true
  · rw [if_pos ha] at he; cases he; exact Moves.refl h
  rw [if_neg ha] at he
  obtain ⟨⟨s₁, p⟩, h1, he⟩ := bind_eq_ok he
  exact Moves.create_put h hc h1 he

theorem Moves.sys_mknod (h : Sane s) {cwd : Nat} (hc : s.held cwd) {path : List UInt8}
    {major minor r : Int} (he : sys_mknod s cwd path major minor = .ok (s', r)) : Moves s s' 0 := by
  unfold Fs.sys_mknod at he
  by_cases ha : (!argstrOk s path) = true
  · rw [if_pos ha] at he; cases he; exact Moves.refl h
  rw [if_neg ha] at he
  obtain ⟨⟨s₁, p⟩, h1, he⟩ := bind_eq_ok he
  exact Moves.create_put h hc h1 he


theorem Moves.sys_link (h : Sane s) {cwd : Nat} (hc : s.held cwd) {old new : List UInt8} {r : Int}
    (he : sys_link s cwd old new = .ok (s', r)) : Moves s s' 0 := by
  unfold Fs.sys_link at he
  by_cases ha : (!(argstrOk s old && argstrOk s new)) = true
  · rw [if_pos ha] at he; cases he; exact Moves.refl h
  rw [if_neg ha] at he
  obtain ⟨⟨s₁, ipo⟩, h1, he⟩ := bind_eq_ok he
  obtain ⟨m₁, hb₁⟩ := Moves.namei h (fun _ => hc) h1
  cases ipo with
  | none => cases he; exact m₁
  | some ip =>
  have hN := hb₁ ip rfl
  obtain ⟨s₂, h2, he⟩ := bind_eq_ok he
  obtain ⟨h₂, hk₂⟩ := Step.ilock m₁.sane (m₁.same.N ▸ hN) h2
  have m₂ : Moves s s₂ (oneRef ip) := (m₁.trans h₂.toMoves).congr fun j => add_zero _
  by_cases hdir : (s₂.itable ip).d.type = .dir
  · rw [if_pos hdir] at he
    obtain ⟨s₃, h3, he⟩ := bind_eq_ok he
    cases he
    exact (m₂.trans (Step.iunlockput h₂.sane hk₂.1 h3).toMoves).congr fun j => by
      simp only [Pi.add_apply, Pi.neg_apply, Pi.zero_apply]; omega
  rw [if_neg hdir] at he
  -- the link count raised and the entry unlocked: the walk to the new name's parent
  have h₃ := Step.setNlink h₂.sane hk₂ (toShort ((s₂.itable ip).d.nlink + 1))
  generalize setNlink s₂ ip _ = s₃ at h₃ he
  have m₃ : Moves s s₃ (oneRef ip) := (m₂.trans h₃.toMoves).congr fun j => add_zero _
  obtain ⟨s₃', h3, he⟩ := bind_eq_ok he
  rw [iunlock_eq (h₃.locked hk₂ (le_refl 0)).1] at h3
  cases h3
  obtain ⟨⟨s₄, dpo, name⟩, h4, he⟩ := bind_eq_ok he
  obtain ⟨m₄, hb₄⟩ := Moves.namex m₃.sane (fun _ => m₃.held hc.1 (by
    have := hc.2; have := oneRef_nonneg ip cwd; omega)) h4
  -- the link made or not, the entry's reference is the call's one left
  have tail : ∀ s₅ (ok : Bool), Moves s s₅ (oneRef ip) →
      (if ok = true then do
        let s ← iput s₅ ip
        pure (s, 0)
      else do
        let s ← ilock s₅ ip
        let s : FS := setNlink s ip (toShort ((s.itable ip).d.nlink - 1))
        let s ← iunlockput s ip
        pure (s, -1) : Except Stop (FS × Int)) = .ok (s', r) → Moves s s' 0 := by
    intro s₅ ok m₅ he
    have hh₅ : s₅.held ip := m₅.held hN (by have := h.refs ip; rw [oneRef_self]; omega)
    cases ok
    · rw [if_neg Bool.false_ne_true] at he
      obtain ⟨s₆, h6, he⟩ := bind_eq_ok he
      obtain ⟨h₆, hk₆⟩ := Step.ilock m₅.sane hh₅.1 h6
      have h₇ := Step.setNlink h₆.sane hk₆ (toShort ((s₆.itable ip).d.nlink - 1))
      generalize setNlink s₆ ip _ = s₇ at h₇ he
      obtain ⟨s₈, h8, he⟩ := bind_eq_ok he
      cases he
      exact (((m₅.trans h₆.toMoves).trans h₇.toMoves).trans
        (Step.iunlockput h₇.sane (h₇.locked hk₆ (le_refl 0)).1 h8).toMoves).congr fun j => by
          simp only [Pi.add_apply, Pi.neg_apply, Pi.zero_apply]; omega
    · rw [if_pos rfl] at he
      obtain ⟨s₆, h6, he⟩ := bind_eq_ok he
      cases he
      exact (m₅.trans (Step.iput m₅.sane hh₅ h6).toMoves).congr fun j => by
        simp only [Pi.add_apply, Pi.neg_apply, Pi.zero_apply]; omega
  dsimp only at he
  cases dpo with
  | none => exact tail s₄ false ((m₃.trans m₄).congr fun j => add_zero _) he
  | some dp =>
    obtain ⟨s₆, h6, he⟩ := bind_eq_ok he
    obtain ⟨h₆, hk₆⟩ := Step.ilock m₄.sane (m₄.same.N ▸ hb₄ dp rfl) h6
    obtain ⟨⟨s₇, r₇⟩, h7, he⟩ := bind_eq_ok he
    have h₇ := Step.dirlink h₆.sane hk₆ h7
    obtain ⟨s₈, h8, he⟩ := bind_eq_ok he
    have h₈ := Step.iunlockput h₇.sane (h₇.locked hk₆ (le_refl 0)).1 h8
    exact tail s₈ _ (((((m₃.trans m₄).trans h₆.toMoves).trans h₇.toMoves).trans h₈.toMoves).congr
      fun j => by simp only [Pi.add_apply, Pi.neg_apply, Pi.zero_apply, optRef]; omega) he

theorem Moves.sys_unlink (h : Sane s) {cwd : Nat} (hc : s.held cwd) {path : List UInt8} {r : Int}
    (he : sys_unlink s cwd path = .ok (s', r)) : Moves s s' 0 := by
  unfold Fs.sys_unlink at he
  by_cases ha : (!argstrOk s path) = true
  · rw [if_pos ha] at he; cases he; exact Moves.refl h
  rw [if_neg ha] at he
  obtain ⟨⟨s₁, dpo, name⟩, h1, he⟩ := bind_eq_ok he
  obtain ⟨m₁, hb₁⟩ := Moves.namex h (fun _ => hc) h1
  cases dpo with
  | none => cases he; exact m₁
  | some dp =>
  obtain ⟨s₂, h2, he⟩ := bind_eq_ok he
  obtain ⟨h₂, hk₂⟩ := Step.ilock m₁.sane (m₁.same.N ▸ hb₁ dp rfl) h2
  have m₂ : Moves s s₂ (oneRef dp) := (m₁.trans h₂.toMoves).congr fun j => add_zero _
  -- the exits that put the parent back alone
  have putDp : ∀ s₃ (o : Int), Step s₂ s₃ 0 →
      (do let s ← iunlockput s₃ dp; pure (s, o) : Except Stop (FS × Int)) = .ok (s', r) →
      Moves s s' 0 := by
    intro s₃ o h₃ he
    obtain ⟨s₄, h4, he⟩ := bind_eq_ok he
    cases he
    exact ((m₂.trans h₃.toMoves).trans
      (Step.iunlockput h₃.sane (h₃.locked hk₂ (le_refl 0)).1 h4).toMoves).congr fun j => by
        simp only [Pi.add_apply, Pi.neg_apply, Pi.zero_apply]; omega
  by_cases hdot : namecmp name (ascii ".") = 0 ∨ namecmp name (ascii "..") = 0
  · rw [if_pos hdot] at he
    exact putDp s₂ _ (Step.refl h₂.sane) he
  rw [if_neg hdot] at he
  obtain ⟨⟨s₃, found⟩, h3, he⟩ := bind_eq_ok he
  obtain ⟨h₃, hb₃⟩ := Step.dirlookup h₂.sane hk₂ h3
  cases found with
  | none => exact putDp s₃ _ h₃ he
  | some f =>
  obtain ⟨ip, off⟩ := f
  obtain ⟨hN, hoff⟩ := hb₃ ip off rfl
  have m₃ : Moves s s₃ (oneRef dp + oneRef ip) := m₂.trans h₃.toMoves
  obtain ⟨s₄, h4, he⟩ := bind_eq_ok he
  obtain ⟨h₄, hk₄⟩ := Step.ilock h₃.sane (h₃.same.N ▸ hN) h4
  have hd₄ := h₄.locked (h₃.locked hk₂ (optRef_nonneg _ dp)) (le_refl 0)
  by_cases hn : (s₄.itable ip).d.nlink < 1
  · rw [if_pos hn] at he; cases he
  rw [if_neg hn] at he
  obtain ⟨⟨s₅, empty⟩, h5, he⟩ := ite_bind_eq_ok he
  have h₅ : Step s₄ s₅ 0 := by
    split at h5
    · exact Step.isdirempty h₄.sane hk₄ h5
    · cases h5; exact Step.refl h₄.sane
  have m₅ : Moves s s₅ (oneRef dp + oneRef ip) :=
    ((m₃.trans h₄.toMoves).trans h₅.toMoves).congr fun j => by simp only [Pi.add_apply, Pi.zero_apply]; omega
  have hk₅ := h₅.locked hk₄ (le_refl 0)
  have hd₅ := h₅.locked hd₄ (le_refl 0)
  have hdN : dp < s.NINODE := hb₁ dp rfl
  dsimp only at he
  cases empty
  · -- a directory with entries: both put back
    rw [if_pos (show (!false) = true from rfl)] at he
    obtain ⟨s₆, h6, he⟩ := bind_eq_ok he
    have m₆ := m₅.trans (Step.iunlockput h₅.sane hk₅.1 h6).toMoves
    obtain ⟨s₇, h7, he⟩ := bind_eq_ok he
    cases he
    have hd₆ : s₆.held dp := m₆.held hdN (by
      have := h.refs dp; simp only [Pi.add_apply, Pi.neg_apply, oneRef_self]; omega)
    exact (m₆.trans (Step.iunlockput m₆.sane hd₆ h7).toMoves).congr fun j => by
      simp only [Pi.add_apply, Pi.neg_apply, Pi.zero_apply]; omega
  rw [if_neg (show ¬ (!true) = true from Bool.false_ne_true)] at he
  -- the entry erased, the counts of links lowered, both put back
  obtain ⟨⟨s₆, r₆⟩, h6, he⟩ := bind_eq_ok he
  have h₆ := Step.writei h₅.sane hd₅ hoff (by decide) h6
  dsimp only at he
  by_cases hr : r₆ ≠ direntSize
  · rw [if_pos hr] at he; cases he
  rw [if_neg hr] at he
  have h₇ : Step s₆ (if (s₆.itable ip).d.type = .dir then
      setNlink s₆ dp (toShort ((s₆.itable dp).d.nlink - 1)) else s₆) 0 := by
    split_ifs
    · exact Step.setNlink h₆.sane (h₆.locked hd₅ (le_refl 0)) _
    · exact Step.refl h₆.sane
  generalize (if (s₆.itable ip).d.type = .dir then
      setNlink s₆ dp (toShort ((s₆.itable dp).d.nlink - 1)) else s₆) = s₇ at h₇ he
  have m₇ : Moves s s₇ (oneRef dp + oneRef ip) :=
    ((m₅.trans h₆.toMoves).trans h₇.toMoves).congr fun j => by simp only [Pi.add_apply, Pi.zero_apply]; omega
  have hk₇ := (h₆.trans h₇ fun _ => le_refl 0).locked hk₅ (le_refl 0)
  obtain ⟨s₈, h8, he⟩ := bind_eq_ok he
  have h₈ := Step.iunlockput h₇.sane (m₇.held hdN (by
    have := h.refs dp; have := oneRef_nonneg ip dp; simp only [Pi.add_apply, oneRef_self]; omega)) h8
  have m₈ : Moves s s₈ (oneRef ip) :=
    (m₇.trans h₈.toMoves).congr fun j => by simp only [Pi.add_apply, Pi.neg_apply]; omega
  have hk₈ := h₈.locks ip hk₇ (m₈.held (m₂.same.N ▸ hN) (by have := h.refs ip; rw [oneRef_self]; omega))
  have h₉ := Step.setNlink m₈.sane hk₈ (toShort ((s₈.itable ip).d.nlink - 1))
  generalize setNlink s₈ ip _ = s₉ at h₉ he
  obtain ⟨s₁₀, h10, he⟩ := bind_eq_ok he
  cases he
  exact ((m₈.trans h₉.toMoves).trans
    (Step.iunlockput h₉.sane (h₉.locked hk₈ (le_refl 0)).1 h10).toMoves).congr fun j => by
      simp only [Pi.add_apply, Pi.neg_apply, Pi.zero_apply]; omega


theorem Moves.sys_symlink (h : Sane s) {cwd : Nat} (hc : s.held cwd) {target linkpath : List UInt8}
    {r : Int} (he : sys_symlink s cwd target linkpath = .ok (s', r)) : Moves s s' 0 := by
  unfold Fs.sys_symlink at he
  by_cases ha : (!(argstrOk s target && argstrOk s linkpath)) = true
  · rw [if_pos ha] at he; cases he; exact Moves.refl h
  rw [if_neg ha] at he
  obtain ⟨⟨s₁, dpo, name⟩, h1, he⟩ := bind_eq_ok he
  obtain ⟨m₁, hb₁⟩ := Moves.namex h (fun _ => hc) h1
  cases dpo with
  | none => cases he; exact m₁
  | some dp =>
  obtain ⟨s₂, h2, he⟩ := bind_eq_ok he
  obtain ⟨h₂, hk₂⟩ := Step.ilock m₁.sane (m₁.same.N ▸ hb₁ dp rfl) h2
  obtain ⟨⟨s₃, found⟩, h3, he⟩ := bind_eq_ok he
  obtain ⟨h₃, hb₃⟩ := Step.dirlookup h₂.sane hk₂ h3
  cases found with
  | some f =>
    obtain ⟨ip, off⟩ := f
    obtain ⟨s₄, h4, he⟩ := bind_eq_ok he
    have m₄ := ((m₁.trans h₂.toMoves).trans h₃.toMoves).trans
      (Step.iunlockput h₃.sane (h₃.locked hk₂ (optRef_nonneg _ dp)).1 h4).toMoves
    have hh₄ : s₄.held ip := m₄.held (m₁.same.N ▸ h₂.same.N ▸ (hb₃ ip off rfl).1) (by
      have := h.refs ip
      simp only [Pi.add_apply, Pi.neg_apply, Pi.zero_apply, Option.map_some', optRef, oneRef_self]
      omega)
    obtain ⟨s₅, h5, he⟩ := bind_eq_ok he
    cases he
    exact (m₄.trans (Step.iput m₄.sane hh₄ h5).toMoves).congr fun j => by
      simp only [Pi.add_apply, Pi.neg_apply, Pi.zero_apply, Option.map_some', optRef]; omega
  | none =>
    -- ialloc refuses the type: the pointer it returns is locked and faults
    obtain ⟨⟨s₄, p⟩, h4, he⟩ := bind_eq_ok he
    rw [ialloc_symlink] at h4
    cases h4
    dsimp only at he
    rw [if_neg (by decide)] at he
    cases he

/-- A sane state has no symbolic link, so `sys_readlink` finds none to read. -/
theorem Moves.sys_readlink (h : Sane s) {cwd : Nat} (hc : s.held cwd) {path : List UInt8}
    {ok : Nat → Nat → Bool} {n r : Int} {out : List UInt8}
    (he : sys_readlink s cwd path ok n = .ok (s', r, out)) : Moves s s' 0 ∧ r = -1 ∧ out = [] := by
  unfold Fs.sys_readlink at he
  by_cases ha : (!argstrOk s path) = true
  · rw [if_pos ha] at he; cases he; exact ⟨Moves.refl h, rfl, rfl⟩
  rw [if_neg ha] at he
  obtain ⟨⟨s₁, ipo⟩, h1, he⟩ := bind_eq_ok he
  obtain ⟨m₁, hb₁⟩ := Moves.namei h (fun _ => hc) h1
  cases ipo with
  | none => cases he; exact ⟨m₁, rfl, rfl⟩
  | some ip =>
  obtain ⟨s₂, h2, he⟩ := bind_eq_ok he
  obtain ⟨h₂, hk₂⟩ := Step.ilock m₁.sane (m₁.same.N ▸ hb₁ ip rfl) h2
  rw [if_pos (h₂.sane.type_ne hk₂)] at he
  obtain ⟨s₃, h3, he⟩ := bind_eq_ok he
  cases he
  exact ⟨((m₁.trans h₂.toMoves).trans (Step.iunlockput h₂.sane hk₂.1 h3).toMoves).congr fun j => by
    simp only [Pi.add_apply, Pi.neg_apply, Pi.zero_apply, optRef]; omega, rfl, rfl⟩

/-- `sys_chdir` moves the process's reference from its old directory to its new one. -/
theorem Moves.sys_chdir (h : Sane s) {cwd : Nat} (hc : s.held cwd) {path : List UInt8}
    {cwd' : Nat} {r : Int} (he : sys_chdir s cwd path = .ok (s', cwd', r)) :
    Moves s s' (oneRef cwd' - oneRef cwd) ∧ cwd' < s.NINODE := by
  have stay : Moves s s' 0 → cwd' = cwd → Moves s s' (oneRef cwd' - oneRef cwd) ∧ cwd' < s.NINODE := by
    rintro m rfl
    exact ⟨m.congr fun j => (sub_self _).symm, hc.1⟩
  unfold Fs.sys_chdir at he
  by_cases ha : (!argstrOk s path) = true
  · rw [if_pos ha] at he; cases he; exact stay (Moves.refl h) rfl
  rw [if_neg ha] at he
  obtain ⟨⟨s₁, ipo⟩, h1, he⟩ := bind_eq_ok he
  obtain ⟨m₁, hb₁⟩ := Moves.namei h (fun _ => hc) h1
  cases ipo with
  | none => cases he; exact stay m₁ rfl
  | some ip =>
  obtain ⟨s₂, h2, he⟩ := bind_eq_ok he
  obtain ⟨h₂, hk₂⟩ := Step.ilock m₁.sane (m₁.same.N ▸ hb₁ ip rfl) h2
  have m₂ : Moves s s₂ (oneRef ip) := (m₁.trans h₂.toMoves).congr fun j => add_zero _
  by_cases hd : (s₂.itable ip).d.type ≠ .dir
  · rw [if_pos hd] at he
    obtain ⟨s₃, h3, he⟩ := bind_eq_ok he
    cases he
    exact stay ((m₂.trans (Step.iunlockput h₂.sane hk₂.1 h3).toMoves).congr fun j => by
      simp only [Pi.add_apply, Pi.neg_apply, Pi.zero_apply]; omega) rfl
  rw [if_neg hd] at he
  obtain ⟨s₃, h3, he⟩ := bind_eq_ok he
  rw [iunlock_eq hk₂.1] at h3
  cases h3
  have hc₂ : s₂.held cwd := m₂.held hc.1 (by have := hc.2; have := oneRef_nonneg ip cwd; omega)
  have hN := hb₁ ip rfl
  obtain ⟨s₄, h4, he⟩ := bind_eq_ok he
  cases he
  exact ⟨(m₂.trans (Step.iput m₂.sane hc₂ h4).toMoves).congr fun j => by
    simp only [Pi.add_apply, Pi.neg_apply, Pi.sub_apply]; omega, hN⟩

end Xv6.Fs
