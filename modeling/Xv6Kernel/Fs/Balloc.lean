import Xv6Kernel.Fs.Layout

/-!
# Block allocation

`balloc` takes the first block whose bitmap bit is clear, marks it and zeroes it; `bfree` clears
a set bit and panics on a clear one. `freeList` is a run of `bfree`s, the shape of every loop of
`itrunc`: on distinct marked blocks it succeeds and clears exactly them (`freeList_ok`).
-/

namespace Xv6.Fs

/-- The disk after `balloc` took block `b`: its bit set (`bp->data[bi/8] |= m`) and the block
zeroed (`bzero`). -/
def Disk.take (d : Disk) (b : Nat) : Disk :=
  { d with bitmap := Function.update d.bitmap b true,
           block := Function.update d.block b Block.zero }

@[simp] theorem Disk.take_bitmap (d : Disk) (b : Nat) :
    (d.take b).bitmap = Function.update d.bitmap b true := rfl
@[simp] theorem Disk.take_block (d : Disk) (b : Nat) :
    (d.take b).block = Function.update d.block b Block.zero := rfl
@[simp] theorem Disk.take_dinode (d : Disk) (b : Nat) : (d.take b).dinode = d.dinode := rfl

/-- The disk with block `c` replaced: a `log_block_write` of a buffer holding `blk`. -/
def Disk.setBlock (d : Disk) (c : Nat) (blk : Block) : Disk :=
  { d with block := Function.update d.block c blk }

@[simp] theorem Disk.setBlock_bitmap (d : Disk) (c : Nat) (blk : Block) :
    (d.setBlock c blk).bitmap = d.bitmap := rfl
@[simp] theorem Disk.setBlock_block (d : Disk) (c : Nat) (blk : Block) :
    (d.setBlock c blk).block = Function.update d.block c blk := rfl
@[simp] theorem Disk.setBlock_dinode (d : Disk) (c : Nat) (blk : Block) :
    (d.setBlock c blk).dinode = d.dinode := rfl

/-- `balloc`: its two loops visit blocks `0, 1, …, sb.size - 1` in order and take the first
whose bit is clear; it returns 0 when every block is in use. -/
def balloc (sb : Superblock) (d : Disk) : Disk × Nat :=
  match (List.range sb.size).find? (fun b => !d.bitmap b) with
  | some b => (d.take b, b)
  | none => (d, 0)

/-- `bfree`: clear bit `b`; a clear bit is the panic `freeing free block`. -/
def bfree (d : Disk) (b : Nat) : Except Stop Disk :=
  if d.bitmap b then .ok { d with bitmap := Function.update d.bitmap b false }
  else .error (.panic "freeing free block")

/-- What `balloc` can do: take a clear block below `sb.size`, or find none and change nothing. -/
theorem balloc_cases (sb : Superblock) (d : Disk) :
    (∃ b, balloc sb d = (d.take b, b) ∧ b < sb.size ∧ d.bitmap b = false) ∨
      (balloc sb d = (d, 0) ∧ ∀ b < sb.size, d.bitmap b = true) := by
  unfold balloc
  split
  · rename_i b hb
    have hmem := List.mem_of_find?_eq_some hb
    have hclear := List.find?_some hb
    simp only [Bool.not_eq_true', List.mem_range] at hclear hmem
    exact .inl ⟨b, rfl, hmem, hclear⟩
  · rename_i hb
    refine .inr ⟨rfl, fun b hlt => ?_⟩
    have := List.find?_eq_none.1 hb b (List.mem_range.2 hlt)
    simpa using this

/-! ## Runs of `bfree` -/

/-- The `bfree`s of a list of blocks, in order. -/
def freeList (d : Disk) (l : List Nat) : Except Stop Disk := l.foldlM bfree d

/-- The disk with the bits of the blocks of `l` cleared. -/
def Disk.clear (d : Disk) (l : List Nat) : Disk :=
  { d with bitmap := fun b => if b ∈ l then false else d.bitmap b }

@[simp] theorem Disk.clear_block (d : Disk) (l : List Nat) : (d.clear l).block = d.block := rfl
@[simp] theorem Disk.clear_dinode (d : Disk) (l : List Nat) :
    (d.clear l).dinode = d.dinode := rfl

theorem freeList_nil (d : Disk) : freeList d [] = .ok d := rfl

theorem freeList_append (d : Disk) (l₁ l₂ : List Nat) :
    freeList d (l₁ ++ l₂) = freeList d l₁ >>= fun d => freeList d l₂ :=
  List.foldlM_append _ _ _ _

/-- Freeing distinct marked blocks succeeds and clears exactly their bits. -/
theorem freeList_ok {l : List Nat} (hn : l.Nodup) :
    ∀ {d : Disk}, (∀ b ∈ l, d.bitmap b = true) → freeList d l = .ok (d.clear l) := by
  induction l with
  | nil => intro d _; rfl
  | cons b l ih =>
    intro d hm
    obtain ⟨hb, hn⟩ := List.nodup_cons.1 hn
    have hfree : bfree d b = .ok { d with bitmap := Function.update d.bitmap b false } := by
      simp [bfree, hm b (List.mem_cons_self _ _)]
    have hrest : ∀ x ∈ l, Function.update d.bitmap b false x = true := by
      intro x hx
      rw [Function.update_noteq (by rintro rfl; exact hb hx)]
      exact hm x (List.mem_cons_of_mem _ hx)
    show (bfree d b >>= fun d => freeList d l) = _
    rw [hfree]
    show freeList _ l = _
    rw [ih hn hrest]
    congr 1
    simp only [Disk.clear, Disk.mk.injEq, and_true]
    funext x
    by_cases hx : x = b
    · subst hx; simp
    · simp [hx, Function.update_noteq hx]

end Xv6.Fs
