import Xv6Kernel.Fs.System

/-!
# Block ownership

In every reachable state the blocks of the trees of the allocated dinodes, at every level, are
distinct and marked in use (`Inv.owned`), so `balloc` hands out none of them and `bfree` never
meets a clear bit: under the invariant the only ways an operation of the inode layer stops are
the panics of `iget` and `ilock` (`Inv.exec_error`).
-/

namespace Xv6.Fs

variable {s : FS}

/-- Under the invariant an operation stops only on `iget`'s or `ilock`'s panic. -/
theorem Inv.exec_error (h : Inv s) {op : Op} (hg : op.guard s) {e : Stop}
    (he : exec s op = .error e) :
    e = .panic "iget: no inodes" ∨ e = .panic "ilock" ∨ e = .panic "ilock: no type" := by
  cases op with
  | ialloc t =>
    simp only [exec] at he
    cases hx : ialloc s t with
    | error e' => rw [hx] at he; cases he; exact .inl (ialloc_error hx)
    | ok q => rw [hx] at he; cases he
  | iget inum =>
    simp only [exec] at he
    cases hx : iget s inum with
    | error e' => rw [hx] at he; cases he; exact .inl (iget_error hx)
    | ok q => rw [hx] at he; cases he
  | idup ip => cases he
  | ilock ip => exact .inr (ilock_error he)
  | iunlock ip => simp only [exec, iunlock_eq hg] at he; cases he
  | readi ip ok off n =>
    obtain ⟨t, c, r, out, e', -⟩ := h.readi_eq hg.1 ok hg.2.1 hg.2.2
    simp only [exec, e'] at he
    cases he
  | writei ip src ok off n =>
    obtain ⟨r, e'⟩ := writei_ok s ip src ok hg.2.1 hg.2.2
    simp only [exec, e'] at he
    cases he
  | itrunc ip => simp only [exec, h.itrunc_eq hg] at he; cases he
  | setNlink ip v => cases he
  | iput ip =>
    obtain ⟨s₁, e', -, -⟩ := h.iput_ok hg
    simp only [exec, e'] at he
    cases he
  | ireclaim => exact Inv.ireclaim_loop_error _ h he

/-- Block ownership: in every reachable state the blocks of the trees of the allocated dinodes,
which are the trees of the locked entries too, are pairwise distinct and marked in use; `balloc`
returns none of them; and no operation stops on `bfree`'s `freeing free block` panic. -/
theorem block_ownership (hr : Reachable s) :
    Owned s.sb s.disk s.disk.alloc s.disk.addrs ∧
    (∀ k, s.locked k → (s.itable k).d.addrs = s.disk.addrs (s.itable k).inum) ∧
    (∀ i y, s.disk.alloc i → nodeAddr s.disk (s.disk.addrs i) y ≠ 0 →
      nodeAddr s.disk (s.disk.addrs i) y ≠ (balloc s.sb s.disk).2) ∧
    ∀ op, op.guard s → exec s op ≠ .error (.panic "freeing free block") := by
  have h := hr.inv
  refine ⟨h.owned, fun k hk => (h.coh k hk).1.addrs, fun i y hi h0 => ?_, fun op hg he => ?_⟩
  · rcases balloc_cases s.sb s.disk with ⟨b, e, -, hb⟩ | ⟨e, -⟩
    · rw [e]; exact h.owned.ne_of_free hb hi y
    · rw [e]; exact h0
  · rcases h.exec_error hg he with h1 | h1 | h1 <;> exact absurd h1 (by decide)

theorem block_ownership_blank :
    Owned blank.sb blank.disk blank.disk.alloc blank.disk.addrs ∧
    (∀ k, blank.locked k → (blank.itable k).d.addrs = blank.disk.addrs (blank.itable k).inum) ∧
    (∀ i y, blank.disk.alloc i → nodeAddr blank.disk (blank.disk.addrs i) y ≠ 0 →
      nodeAddr blank.disk (blank.disk.addrs i) y ≠ (balloc blank.sb blank.disk).2) ∧
    ∀ op, op.guard blank → exec blank op ≠ .error (.panic "freeing free block") :=
  block_ownership (.init blank_image)

end Xv6.Fs
