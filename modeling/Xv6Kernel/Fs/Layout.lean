import Mathlib.Logic.Function.Basic
import Mathlib.Data.List.Basic
import Mathlib.Algebra.Group.Int
import Mathlib.Algebra.Group.Nat.Basic
import Mathlib.Algebra.Order.Ring.Nat

/-!
# On-disk layout and inode records

The constants of `fs.h`, a disk block seen as bytes and as the little-endian `uint` words of an
indirect block, the on-disk inode (`struct dinode`), the in-memory inode (`struct inode`) and the
file-system state the rest of the development runs on.

The free-block bitmap, the inode blocks and the data blocks are three maps of one disk: `BBLOCK`
places bit `b` at a fixed bit of a bitmap block and `IBLOCK` places dinode `inum` at a fixed slot
of an inode block, so each map is exact. There is one device (`fs.c` runs with only one), so no
`dev` field is kept. The log is an external collaborator: `log_block_write` is a write to the disk.
-/

namespace Xv6.Fs

/-! ## Constants of `fs.h` -/

def BSIZE : Nat := 4096
def NDIRECT : Nat := 10
/-- `BSIZE / sizeof(uint)` block numbers in one indirect block. -/
def NINDIRECT : Nat := BSIZE / 4
def NINDIRECT2 : Nat := NINDIRECT * NINDIRECT
def NINDIRECT3 : Nat := NINDIRECT * NINDIRECT * NINDIRECT
def MAXFILE : Nat := NDIRECT + NINDIRECT + NINDIRECT2 + NINDIRECT3
def DIRSIZ : Nat := 62
def ROOTINO : Nat := 1

@[simp] theorem BSIZE_eq : BSIZE = 4096 := rfl
@[simp] theorem NDIRECT_eq : NDIRECT = 10 := rfl
@[simp] theorem NINDIRECT_eq : NINDIRECT = 1024 := rfl
@[simp] theorem NINDIRECT2_eq : NINDIRECT2 = 1048576 := rfl
@[simp] theorem NINDIRECT3_eq : NINDIRECT3 = 1073741824 := rfl
@[simp] theorem MAXFILE_eq : MAXFILE = 1074791434 := rfl
@[simp] theorem DIRSIZ_eq : DIRSIZ = 62 := rfl

/-- A C `uint` result: arithmetic modulo `2^32`. -/
def u32 (x : Nat) : Nat := x % 2 ^ 32

/-- The C conversion of a `uint` to an `int` return value (two's complement). -/
def toInt32 (x : Nat) : Int := if x < 2 ^ 31 then x else (x : Int) - 2 ^ 32

theorem toInt32_inj {a b : Nat} (ha : a < 2 ^ 32) (hb : b < 2 ^ 32) (h : toInt32 a = toInt32 b) :
    a = b := by
  unfold toInt32 at h
  split_ifs at h <;> omega

/-- The C conversion of an `int` to a `short` field (two's complement). -/
def toShort (x : Int) : Int := (x + 2 ^ 15) % 2 ^ 16 - 2 ^ 15

/-! ## Blocks -/

/-- The bytes of one disk block, `bp->data`. -/
abbrev Block := Nat → UInt8

/-- A block of zeros, as `bzero` leaves it. -/
def Block.zero : Block := fun _ => 0

/-- `((uint*)bp->data)[j]`: the little-endian word at byte `4 * j`. -/
def Block.word (blk : Block) (j : Nat) : Nat :=
  (blk (4 * j)).toNat + 256 * (blk (4 * j + 1)).toNat +
    65536 * (blk (4 * j + 2)).toNat + 16777216 * (blk (4 * j + 3)).toNat

/-- `((uint*)bp->data)[j] = v`: byte `r` of the word is byte `r` of `v`. -/
def Block.setWord (blk : Block) (j v : Nat) : Block := fun i =>
  if i / 4 = j then UInt8.ofNat (v / 256 ^ (i % 4) % 256) else blk i

@[simp] theorem Block.word_zero (j : Nat) : Block.zero.word j = 0 := rfl

theorem Block.setWord_at (blk : Block) {j i : Nat} (v : Nat) (h : i / 4 = j) :
    blk.setWord j v i = UInt8.ofNat (v / 256 ^ (i % 4) % 256) := if_pos h

theorem Block.setWord_off (blk : Block) {j i : Nat} (v : Nat) (h : i / 4 ≠ j) :
    blk.setWord j v i = blk i := if_neg h

theorem Block.word_setWord_self (blk : Block) (j : Nat) {v : Nat} (hv : v < 2 ^ 32) :
    (blk.setWord j v).word j = v := by
  have h (x : Nat) : (UInt8.ofNat (x % 256)).toNat = x % 256 :=
    UInt8.toNat_ofNat_of_lt (Nat.mod_lt _ (by decide))
  simp only [Block.word, Block.setWord_at blk v (by omega : 4 * j / 4 = j),
    Block.setWord_at blk v (by omega : (4 * j + 1) / 4 = j),
    Block.setWord_at blk v (by omega : (4 * j + 2) / 4 = j),
    Block.setWord_at blk v (by omega : (4 * j + 3) / 4 = j),
    (by omega : 4 * j % 4 = 0), (by omega : (4 * j + 1) % 4 = 1),
    (by omega : (4 * j + 2) % 4 = 2), (by omega : (4 * j + 3) % 4 = 3), h]
  omega

theorem Block.word_setWord_of_ne (blk : Block) {j k : Nat} (v : Nat) (h : k ≠ j) :
    (blk.setWord j v).word k = blk.word k := by
  simp only [Block.word, Block.setWord_off blk v (by omega : 4 * k / 4 ≠ j),
    Block.setWord_off blk v (by omega : (4 * k + 1) / 4 ≠ j),
    Block.setWord_off blk v (by omega : (4 * k + 2) / 4 ≠ j),
    Block.setWord_off blk v (by omega : (4 * k + 3) / 4 ≠ j)]

/-! ## Inodes -/

/-- Modelled from the spec: `stat.h` is not among the sources. The type field of an inode takes
the five values the spec's data model lists; `free` is the type 0 of an unallocated dinode. -/
inductive IType where
  | free
  | dir
  | file
  | device
  | symlink
  deriving DecidableEq, Repr

/-- The fields of `struct dinode` that the modelled functions read or write. -/
structure DInode where
  type : IType
  major : Int
  minor : Int
  nlink : Int
  size : Nat
  addrs : Nat → Nat
  atime : Nat
  mtime : Nat

/-- The dinode `ialloc` writes: zero everywhere but the type. -/
def DInode.fresh (type : IType) : DInode :=
  { type, major := 0, minor := 0, nlink := 0, size := 0, addrs := fun _ => 0,
    atime := 0, mtime := 0 }

/-- An entry of the inode table, `struct inode`: the book-keeping `ref` and `valid`, and the copy
`d` of the dinode that `ilock` loads and `iupdate` writes back. -/
structure Inode where
  inum : Nat
  ref : Int
  valid : Bool
  d : DInode

/-- The superblock fields the modelled functions read; `size` is a `uint`. -/
structure Superblock where
  size : Nat
  ninodes : Nat
  size_lt : size < 2 ^ 32

/-- The disk: the free-block bitmap, the data blocks and the dinodes. -/
structure Disk where
  bitmap : Nat → Bool
  block : Nat → Block
  dinode : Nat → DInode

/-- How a kernel path stops instead of returning: a `panic` with its message, or a fault on an
address the kernel does not map. -/
inductive Stop where
  | panic (msg : String)
  | fault
  deriving DecidableEq, Repr

/-- The file-system state: the superblock, the disk, the inode table `itable.inode[NINODE]` and
the static clocks of `iupdatatime` and `iupdatemtime`. `param.h` is not among the sources, so the
table size `NINODE`, the path buffer size `MAXPATH` and the device count `NDEV` are fields. -/
structure FS where
  sb : Superblock
  disk : Disk
  itable : Nat → Inode
  NINODE : Nat
  atimeClock : Nat
  mtimeClock : Nat
  MAXPATH : Nat
  NDEV : Nat

end Xv6.Fs
