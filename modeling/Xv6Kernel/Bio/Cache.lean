import Xv6Kernel.Fs.Layout

/-!
# The enhanced buffer cache

`bcache_enhanced.c`: `NBUF` buffer heads, each on the LRU ring and, once keyed by a device and a
block, on the hash chain of `hash_block(dev, block)`; both are circular doubly-linked lists through
sentinel heads that are `struct buffer_head`s too. `get_block` looks the key up in its chain and
takes a reference to the buffer it finds; otherwise it walks the LRU ring from its tail to the
first buffer with no reference, unlinks it from its chain when `dev != 0`, rekeys it, clears
`valid` and `dirty` and links it into the key's chain. It then releases the cache lock, takes the
buffer's sleep-lock and, on the miss path only, reads the block when the buffer is not valid.
`put_block` releases the sleep-lock and drops the reference, moving a buffer left without one to
the head of the ring; `sync_block` writes a dirty buffer back.

**Threads.** Callers run concurrently: a `get_block` is three steps, the part under the cache lock
(`getStart`), the sleep-lock (`takeLock`, which waits while another thread holds it) and the read
of the miss path (`load`). A holder may also write into its buffer and set `dirty`, as the file
system's writers do. `flush_all_blocks` is one step: it holds the cache lock throughout, and it
either panics at the first dirty buffer of its device or returns having written nothing.

**The disk.** `virtio_disk_rw` (the driver is not among the sources) reads or writes the block
that the buffer's `dev` and `block_num` name. It returns only after the disk's interrupt, waiting
in `sleep`; `load` and `sync_block` call it holding no spinlock, so there the wait is part of the
step, but under the cache lock it ends in `sched`'s panic (`flushBuf`).

**Loops.** A chain or ring that does not lead back to its head makes `get_block`'s loop run
forever: the walks take one round per node (`nodes`), and a walk that has not met the head by then
has met some node twice, so it never will; the model reports it as `Halt.diverge`.
-/

namespace Xv6.Bio

open Xv6.Fs (Block)

/-! ## Buffer heads -/

def HASH_SIZE : Nat := 256
def HASH_MASK : Nat := HASH_SIZE - 1

/-- `hash_block(dev, blockno)`. -/
def hash_block (dev blockno : Nat) : Nat := (dev ^^^ blockno) &&& HASH_MASK

/-- A `struct buffer_head *`: one of the buffers, the head of hash chain `h`, the head of the LRU
ring, or null. -/
inductive BPtr where
  | buf (i : Nat)
  | hash (h : Nat)
  | lru
  | null
  deriving DecidableEq, Repr

/-- The fields of a `struct buffer_head` other than its data and its sleep-lock. -/
structure Head where
  block_num : Nat
  dirty : Int
  ref_count : Int
  valid : Int
  dev : Nat
  hash_next : BPtr
  hash_prev : BPtr
  lru_next : BPtr
  lru_prev : BPtr
  deriving DecidableEq, Repr

/-- A static `struct buffer_head`: every field 0. -/
def Head.zero : Head := ⟨0, 0, 0, 0, 0, .null, .null, .null, .null⟩

/-- Where a caller is in `get_block`. -/
inductive Pc where
  /-- Outside `get_block`. -/
  | idle
  /-- At `acquiresleep(&b->lock)`, on the miss path or not. -/
  | lock (b : BPtr) (miss : Bool)
  /-- On the miss path, holding `b`'s sleep-lock, at `if(!b->valid)`. -/
  | read (b : BPtr)
  deriving DecidableEq, Repr

/-- The cache, its callers and the disk. `param.h` is not among the sources, so `NBUF` is a
field; the sleep-lock of a node is the caller that holds it. -/
structure Cache where
  NBUF : Nat
  head : BPtr → Head
  data : BPtr → Block
  owner : BPtr → Option Nat
  pc : Nat → Pc
  disk : Nat → Nat → Block

/-- How a call stops instead of returning. -/
inductive Halt where
  | panic (msg : String)
  /-- A walk of a chain or of the ring that never meets its head again. -/
  | diverge
  deriving DecidableEq, Repr

/-- The nodes: the buffers, the chain heads and the ring's head. -/
def Cache.nodes (c : Cache) : Nat := c.NBUF + HASH_SIZE + 1

/-- `b->f = v` for the pointer and counter fields. -/
def Cache.modHead (c : Cache) (b : BPtr) (f : Head → Head) : Cache :=
  { c with head := Function.update c.head b (f (c.head b)) }

@[simp] theorem Cache.modHead_head_self (c : Cache) (b : BPtr) (f : Head → Head) :
    (c.modHead b f).head b = f (c.head b) :=
  Function.update_same _ _ _

@[simp] theorem Cache.modHead_head_of_ne {c : Cache} {b p : BPtr} (f : Head → Head) (hp : p ≠ b) :
    (c.modHead b f).head p = c.head p :=
  Function.update_noteq hp _ _

def Cache.setPc (c : Cache) (t : Nat) (p : Pc) : Cache :=
  { c with pc := Function.update c.pc t p }

def Cache.setOwner (c : Cache) (b : BPtr) (o : Option Nat) : Cache :=
  { c with owner := Function.update c.owner b o }

/-! ## `bcache_enhanced_init` -/

/-- Buffer `i` set up and put at the head of the ring. -/
def initBuf (c : Cache) (i : Nat) : Cache :=
  let b := BPtr.buf i
  let c := c.modHead b fun x => { x with valid := 0, dirty := 0, ref_count := 0, dev := 0, block_num := 0 }
  let c := c.modHead b fun x => { x with lru_next := (c.head .lru).lru_next }
  let c := c.modHead b fun x => { x with lru_prev := .lru }
  let c := c.modHead (c.head .lru).lru_next fun x => { x with lru_prev := b }
  c.modHead .lru fun x => { x with lru_next := b }

/-- `bcache_enhanced_init()` on a disk, every buffer's page filled by `kalloc` with 5s. -/
def bcache_enhanced_init (NBUF : Nat) (disk : Nat → Nat → Block) : Cache :=
  let c : Cache := ⟨NBUF, fun
      | .hash h => { Head.zero with hash_next := .hash h, hash_prev := .hash h }
      | .lru => { Head.zero with lru_next := .lru, lru_prev := .lru }
      | _ => Head.zero,
    fun _ _ => 5, fun _ => none, fun _ => .idle, disk⟩
  (List.range NBUF).foldl initBuf c

/-! ## `get_block` -/

/-- The hash loop of `get_block` over chain `h` from node `b`, with `n` rounds: `some none` at the
chain's head, `some (some b)` at the buffer keyed `(dev, block)`, `none` when the rounds run out. -/
def lookup (c : Cache) (h dev block : Nat) : Nat → BPtr → Option (Option BPtr)
  | 0, _ => none
  | n + 1, b =>
    if b = .hash h then some none
    else if (c.head b).dev = dev ∧ (c.head b).block_num = block then some (some b)
    else lookup c h dev block n (c.head b).hash_next

section Walks

variable {c : Cache} {h dev block n : Nat} {b : BPtr}

@[simp] theorem lookup_head (hb : b = .hash h) : lookup c h dev block (n + 1) b = some none := by
  simp [lookup, hb]

@[simp] theorem lookup_hit (hb : b ≠ .hash h) (hk : (c.head b).dev = dev ∧ (c.head b).block_num = block) :
    lookup c h dev block (n + 1) b = some (some b) := by
  simp [lookup, hb, hk]

@[simp] theorem lookup_next (hb : b ≠ .hash h)
    (hk : ¬((c.head b).dev = dev ∧ (c.head b).block_num = block)) :
    lookup c h dev block (n + 1) b = lookup c h dev block n (c.head b).hash_next := by
  simp only [lookup, hb, hk, if_false]

/-- The LRU loop of `get_block` from node `b` backwards: `some none` at the ring's head,
`some (some b)` at the first buffer with `ref_count == 0`, `none` when the rounds run out. -/
def victim (c : Cache) : Nat → BPtr → Option (Option BPtr)
  | 0, _ => none
  | n + 1, b =>
    if b = .lru then some none
    else if (c.head b).ref_count = 0 then some (some b)
    else victim c n (c.head b).lru_prev

@[simp] theorem victim_head (hb : b = .lru) : victim c (n + 1) b = some none := by
  simp [victim, hb]

@[simp] theorem victim_free (hb : b ≠ .lru) (hr : (c.head b).ref_count = 0) :
    victim c (n + 1) b = some (some b) := by
  simp [victim, hb, hr]

@[simp] theorem victim_next (hb : b ≠ .lru) (hr : (c.head b).ref_count ≠ 0) :
    victim c (n + 1) b = victim c n (c.head b).lru_prev := by
  simp [victim, hb, hr]

end Walks

/-- `b->hash_prev->hash_next = b->hash_next; b->hash_next->hash_prev = b->hash_prev`. -/
def unlinkHash (c : Cache) (b : BPtr) : Cache :=
  let c := c.modHead (c.head b).hash_prev fun x => { x with hash_next := (c.head b).hash_next }
  c.modHead (c.head b).hash_next fun x => { x with hash_prev := (c.head b).hash_prev }

/-- `b` linked at the front of chain `h`. -/
def insertHash (c : Cache) (h : Nat) (b : BPtr) : Cache :=
  let c := c.modHead b fun x => { x with hash_next := (c.head (.hash h)).hash_next }
  let c := c.modHead b fun x => { x with hash_prev := .hash h }
  let c := c.modHead (c.head (.hash h)).hash_next fun x => { x with hash_prev := b }
  c.modHead (.hash h) fun x => { x with hash_next := b }

/-- A head with its hash links dropped: what relinking a chain leaves alone. -/
def Head.unhashed (x : Head) : Head := { x with hash_next := .null, hash_prev := .null }

theorem Cache.modHead_unhashed {f : Head → Head} (hf : ∀ x, (f x).unhashed = x.unhashed)
    (c : Cache) (b p : BPtr) : ((c.modHead b f).head p).unhashed = (c.head p).unhashed := by
  simp only [Cache.modHead, Function.update_apply]
  split_ifs with hp
  · subst hp; exact hf _
  · rfl

@[simp] theorem Cache.modHead_hash_next_unhashed (c : Cache) (b p n : BPtr) :
    ((c.modHead b fun x => { x with hash_next := n }).head p).unhashed = (c.head p).unhashed := by
  apply Cache.modHead_unhashed; intro; rfl

@[simp] theorem Cache.modHead_hash_prev_unhashed (c : Cache) (b p q : BPtr) :
    ((c.modHead b fun x => { x with hash_prev := q }).head p).unhashed = (c.head p).unhashed := by
  apply Cache.modHead_unhashed; intro; rfl

theorem unlinkHash_unhashed (c : Cache) (b p : BPtr) :
    ((unlinkHash c b).head p).unhashed = (c.head p).unhashed := by
  simp [unlinkHash]

theorem insertHash_unhashed (c : Cache) (h : Nat) (b p : BPtr) :
    ((insertHash c h b).head p).unhashed = (c.head p).unhashed := by
  simp [insertHash]

theorem insertHash_first (c : Cache) (h : Nat) (b : BPtr) :
    ((insertHash c h b).head (.hash h)).hash_next = b := by
  simp [insertHash, Cache.modHead]

theorem Cache.modHead_hash_prev_hash_next (c : Cache) (b p q : BPtr) :
    ((c.modHead b fun x => { x with hash_prev := q }).head p).hash_next = (c.head p).hash_next := by
  by_cases hp : p = b
  · subst hp; simp
  · simp [hp]

theorem insertHash_hash_next_of_ne {c : Cache} {h : Nat} {b p : BPtr} (hb : p ≠ b)
    (hh : p ≠ .hash h) : ((insertHash c h b).head p).hash_next = (c.head p).hash_next := by
  simp only [insertHash, Cache.modHead_head_of_ne _ hh, Cache.modHead_hash_prev_hash_next,
    Cache.modHead_head_of_ne _ hb]

/-- The part of `get_block(dev, block)` under the cache lock, by caller `t`: a hit takes a
reference; a miss recycles the last buffer of the ring without a reference. The caller is then
at `acquiresleep`. -/
def getStart (c : Cache) (t dev block : Nat) : Except Halt Cache :=
  let h := hash_block dev block
  match lookup c h dev block c.nodes (c.head (.hash h)).hash_next with
  | none => .error .diverge
  | some (some b) =>
    .ok ((c.modHead b fun x => { x with ref_count := x.ref_count + 1 }).setPc t (.lock b false))
  | some none =>
    match victim c c.nodes (c.head .lru).lru_prev with
    | none => .error .diverge
    | some none => .error (.panic "get_block: no free buffers")
    | some (some b) =>
      let c := if (c.head b).dev ≠ 0 then unlinkHash c b else c
      let c := c.modHead b fun x =>
        { x with dev, block_num := block, valid := 0, dirty := 0, ref_count := 1 }
      .ok ((insertHash c h b).setPc t (.lock b true))

/-- `acquiresleep(&b->lock)` by caller `t`: it waits while another caller holds the lock; the hit
path then returns `b`. -/
def takeLock (c : Cache) (t : Nat) : Cache :=
  match c.pc t with
  | .lock b miss =>
    if (c.owner b).isSome then c
    else (c.setOwner b (some t)).setPc t (if miss then .read b else .idle)
  | _ => c

/-- The rest of the miss path: `virtio_disk_rw(b, 0)` when `b` is not valid, then return `b`. -/
def load (c : Cache) (t : Nat) : Cache :=
  match c.pc t with
  | .read b =>
    let x := c.head b
    let c := if x.valid = 0 then
        ({ c with data := Function.update c.data b (c.disk x.dev x.block_num) }.modHead b
          fun x => { x with valid := 1 })
      else c
    c.setPc t .idle
  | _ => c

/-- `put_block(bh)` by caller `t`. -/
def put_block (c : Cache) (t : Nat) (bh : BPtr) : Except Halt Cache :=
  if c.owner bh ≠ some t then .error (.panic "put_block: buffer not locked") else
  let c := c.setOwner bh none
  let c := c.modHead bh fun x => { x with ref_count := x.ref_count - 1 }
  if (c.head bh).ref_count = 0 then
    let c := c.modHead (c.head bh).lru_prev fun x => { x with lru_next := (c.head bh).lru_next }
    let c := c.modHead (c.head bh).lru_next fun x => { x with lru_prev := (c.head bh).lru_prev }
    let c := c.modHead bh fun x => { x with lru_next := (c.head .lru).lru_next }
    let c := c.modHead bh fun x => { x with lru_prev := .lru }
    let c := c.modHead (c.head .lru).lru_next fun x => { x with lru_prev := bh }
    .ok (c.modHead .lru fun x => { x with lru_next := bh })
  else .ok c

/-- `sync_block(bh)` by caller `t`: a dirty buffer is written to its block. -/
def sync_block (c : Cache) (t : Nat) (bh : BPtr) : Except Halt Cache :=
  if c.owner bh ≠ some t then .error (.panic "sync_block: buffer not locked") else
  if (c.head bh).dirty ≠ 0 then
    let x := c.head bh
    let disk := Function.update c.disk x.dev (Function.update (c.disk x.dev) x.block_num (c.data bh))
    .ok ({ c with disk }.modHead bh fun x => { x with dirty := 0 })
  else .ok c

/-! ## `flush_all_blocks` -/

/-- The body of `flush_all_blocks`'s inner loop at node `b`. For a dirty buffer of `dev` it calls
`acquiresleep(&b->lock)` and then `virtio_disk_rw(b, 1)` with the cache lock held. Both wait in
`sleep`: `acquiresleep` while a caller holds `b`, `virtio_disk_rw` always, until the disk's
interrupt reports the write done. `sched` then finds the cache lock held besides `p->lock` and
panics, so `b->dirty = 0` and `releasesleep` are never reached. -/
def flushBuf (c : Cache) (dev : Nat) (b : BPtr) : Except Halt Cache :=
  if (c.head b).dev = dev ∧ (c.head b).dirty ≠ 0 then .error (.panic "sched locks") else .ok c

/-- The inner loop of `flush_all_blocks(dev)` over chain `h` from node `b`, with `n` rounds. -/
def flushChain (dev h : Nat) : Nat → Cache → BPtr → Except Halt Cache
  | 0, _, _ => .error .diverge
  | n + 1, c, b =>
    if b = .hash h then .ok c
    else
      match flushBuf c dev b with
      | .ok c => flushChain dev h n c (c.head b).hash_next
      | .error e => .error e

/-- `flush_all_blocks(dev)`: the chains in order, all under the cache lock. -/
def flush_all_blocks (c : Cache) (dev : Nat) : Except Halt Cache :=
  (List.range HASH_SIZE).foldlM (fun c h => flushChain dev h c.nodes c (c.head (.hash h)).hash_next) c

/-! ## Runs -/

/-- A step of one caller. -/
inductive Ev where
  /-- `get_block(dev, block)`: the part under the cache lock. -/
  | get (t dev block : Nat)
  /-- The caller at `acquiresleep` takes the sleep-lock, unless another caller holds it. -/
  | lock (t : Nat)
  /-- The caller on the miss path reads the block if the buffer is not valid, and returns. -/
  | load (t : Nat)
  | put (t : Nat) (b : BPtr)
  | sync (t : Nat) (b : BPtr)
  /-- The holder of `b` writes `bytes` into it and sets `dirty`. -/
  | write (t : Nat) (b : BPtr) (bytes : Block)
  /-- `flush_all_blocks(dev)`. -/
  | flush (dev : Nat)

def Cache.step (c : Cache) : Ev → Except Halt Cache
  | .get t dev block => if c.pc t = .idle then getStart c t dev block else .ok c
  | .lock t => .ok (takeLock c t)
  | .load t => .ok (load c t)
  | .put t b => put_block c t b
  | .sync t b => sync_block c t b
  | .write t b bytes =>
    if c.owner b = some t then
      .ok ({ c with data := Function.update c.data b bytes }.modHead b fun x => { x with dirty := 1 })
    else .ok c
  | .flush dev => flush_all_blocks c dev

def Cache.run (c : Cache) : List Ev → Except Halt Cache
  | [] => .ok c
  | e :: es =>
    match c.step e with
    | .ok c => c.run es
    | .error h => .error h

end Xv6.Bio
