import Xv6.Param

namespace Xv6

/-- The buffers are named by their index in bcache.buf. -/
abbrev BufId := Fin NBUF
instance : LawfulBEq BufId := inferInstance

/-- struct buf. The sleep-lock is its holder: `locked` with `pid`. -/
structure Buf where
  valid : Bool
  dev : Nat
  blockno : Nat
  lock : Option Pid
  refcnt : Nat
  data : Block

/-- `b->refcnt++` and `b->refcnt--`. -/
def Buf.ref (b : Buf) : Buf := { b with refcnt := b.refcnt + 1 }
def Buf.unref (b : Buf) : Buf := { b with refcnt := b.refcnt - 1 }

namespace Buf

@[simp] theorem ref_valid (b : Buf) : b.ref.valid = b.valid := rfl
@[simp] theorem ref_dev (b : Buf) : b.ref.dev = b.dev := rfl
@[simp] theorem ref_blockno (b : Buf) : b.ref.blockno = b.blockno := rfl
@[simp] theorem ref_lock (b : Buf) : b.ref.lock = b.lock := rfl
@[simp] theorem ref_refcnt (b : Buf) : b.ref.refcnt = b.refcnt + 1 := rfl
@[simp] theorem ref_data (b : Buf) : b.ref.data = b.data := rfl
@[simp] theorem unref_valid (b : Buf) : b.unref.valid = b.valid := rfl
@[simp] theorem unref_dev (b : Buf) : b.unref.dev = b.dev := rfl
@[simp] theorem unref_blockno (b : Buf) : b.unref.blockno = b.blockno := rfl
@[simp] theorem unref_lock (b : Buf) : b.unref.lock = b.lock := rfl
@[simp] theorem unref_refcnt (b : Buf) : b.unref.refcnt = b.refcnt - 1 := rfl
@[simp] theorem unref_data (b : Buf) : b.unref.data = b.data := rfl

end Buf

/-- bcache, with the linked list as the order met from head.next on. The last two
fields are ghost: who holds or waits for a buffer, and the log's pins. -/
structure Bcache where
  buf : BufId → Buf
  lru : List BufId
  users : List (Pid × BufId)
  pins : List BufId

/-- struct log, with lh.block[0..n) as a list. -/
structure Log where
  start : Nat
  size : Nat
  dev : Nat
  outstanding : Int
  committing : Bool
  lh : List Nat

/-- Everything below the file system: the disk, the buffer cache and the log. -/
structure Blk where
  disk : Disk
  bc : Bcache
  log : Log

abbrev BlkM := Prog Panic Blk

namespace Bcache

def set (c : Bcache) (i : BufId) (f : Buf → Buf) : Bcache :=
  { c with buf := fun j => if j = i then f (c.buf j) else c.buf j }

@[simp] theorem set_lru (c : Bcache) (i : BufId) (f : Buf → Buf) : (c.set i f).lru = c.lru := rfl
@[simp] theorem set_users (c : Bcache) (i : BufId) (f : Buf → Buf) :
    (c.set i f).users = c.users := rfl
@[simp] theorem set_pins (c : Bcache) (i : BufId) (f : Buf → Buf) :
    (c.set i f).pins = c.pins := rfl

@[simp] theorem set_same (c : Bcache) (i : BufId) (f : Buf → Buf) :
    (c.set i f).buf i = f (c.buf i) := by
  simp [set]

theorem set_other (c : Bcache) (i : BufId) (f : Buf → Buf) {j : BufId} (h : j ≠ i) :
    (c.set i f).buf j = c.buf j := by
  simp [set, h]

end Bcache

/-- binit(): each buffer goes to the front of the list, all of them zero. -/
def binit : Bcache where
  buf := fun _ => ⟨false, 0, 0, none, 0, .zero⟩
  lru := (List.finRange NBUF).reverse
  users := []
  pins := []

namespace Blk

def setBuf (s : Blk) (i : BufId) (f : Buf → Buf) : Blk := { s with bc := s.bc.set i f }

/-- The first loop of bget: is the block cached? -/
def cached (s : Blk) (dev blockno : Nat) : Option BufId :=
  s.bc.lru.find? (fun i => (s.bc.buf i).dev == dev && (s.bc.buf i).blockno == blockno)

/-- The second loop of bget: the least recently used unused buffer. -/
def unused (s : Blk) : Option BufId :=
  s.bc.lru.reverse.find? (fun i => (s.bc.buf i).refcnt == 0)

end Blk

/-- bget() under bcache.lock. -/
def bgetScan (p : Pid) (dev blockno : Nat) (s : Blk) : Out Panic Blk BufId :=
  let take (c : Bcache) (i : BufId) : Blk := { s with bc := { c with users := (p, i) :: c.users } }
  match s.cached dev blockno with
  | some i => .ok i (take (s.bc.set i Buf.ref) i)
  | none =>
    match s.unused with
    | some i => .ok i (take (s.bc.set i (fun b =>
        { b with dev := dev, blockno := blockno, valid := false, refcnt := 1 })) i)
    | none => .fail .bgetNoBuffers

/-- acquiresleep() on a buffer. -/
def acquiresleep (p : Pid) (i : BufId) (s : Blk) : Out Panic Blk Unit :=
  match (s.bc.buf i).lock with
  | none => .ok () (s.setBuf i (fun b => { b with lock := some p }))
  | some _ => .wait

/-- The rest of bread(): virtio_disk_rw(b, 0) if the buffer is not valid. -/
def breadFill (i : BufId) (s : Blk) : Out Panic Blk Unit :=
  if (s.bc.buf i).valid then .ok () s
  else .ok () (s.setBuf i (fun b => { b with data := s.disk b.blockno, valid := true }))

/-- bread(log.dev, n) for a block number `n` computed from the log. -/
def breadOf (p : Pid) (blockno : Log → Nat) : BlkM BufId := do
  let i ← Prog.atomic (fun s => bgetScan p s.log.dev (blockno s.log) s)
  Prog.atomic (acquiresleep p i)
  Prog.atomic (breadFill i)
  return i

/-- bwrite(): virtio_disk_rw(b, 1). -/
def bwrite (p : Pid) (i : BufId) (s : Blk) : Out Panic Blk Unit :=
  if (s.bc.buf i).lock = some p then
    .ok () { s with disk := fun n =>
      if n = (s.bc.buf i).blockno then (s.bc.buf i).data else s.disk n }
  else .fail .bwrite

/-- brelse() up to releasesleep(). -/
def releasesleep (p : Pid) (i : BufId) (s : Blk) : Out Panic Blk Unit :=
  if (s.bc.buf i).lock = some p then .ok () (s.setBuf i (fun b => { b with lock := none }))
  else .fail .brelse

/-- brelse() under bcache.lock: drop the reference, and if it was the last one move
the buffer to the front of the list. -/
def brelsePut (p : Pid) (i : BufId) (s : Blk) : Out Panic Blk Unit :=
  let c := s.bc.set i Buf.unref
  .ok () { s with bc := { c with
    users := c.users.erase (p, i)
    lru := if (c.buf i).refcnt = 0 then i :: c.lru.erase i else c.lru } }

def brelse (p : Pid) (i : BufId) : BlkM Unit := do
  Prog.atomic (releasesleep p i)
  Prog.atomic (brelsePut p i)

def bpin (i : BufId) (s : Blk) : Blk :=
  { s with bc := { s.bc.set i Buf.ref with
    pins := s.bc.pins ++ [i] } }

def bunpin (i : BufId) (s : Blk) : Blk :=
  { s with bc := { s.bc.set i Buf.unref with
    pins := s.bc.pins.erase i } }

/-- memmove(dst->data, src->data, BSIZE). -/
def memmoveBuf (dst src : BufId) (s : Blk) : Blk :=
  s.setBuf dst (fun b => { b with data := (s.bc.buf src).data })

end Xv6
