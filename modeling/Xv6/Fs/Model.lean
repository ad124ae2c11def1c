import Xv6.Fs.Dinode

/-!
# The inode layer

`fs.c` from the block allocator to `writei`. `disk` is what `bread` returns, so a
`log_write` is seen at once; the transactions behind it are the log's. The inode
cache is kept by inode number. A call that has to wait for a lock is `blocked`.
-/

namespace Xv6.Fs

def NINODE : Nat := 50
def NDEV : Nat := 10
def CONSOLE : Int := 1

/-- `x` as an `int`. -/
def int (x : Int) : Int := (x + 2 ^ 31) % 2 ^ 32 - 2 ^ 31

/-- `x` as a `uint`. -/
def uint (x : Int) : Nat := (x % 2 ^ 32).toNat

/-- `memmove(data + o, src, m)`. -/
def Block.copy (b : Block) (o m : Nat) (src : Nat → UInt8) : Block := fun j =>
  if o ≤ j ∧ j < o + m then src (j - o) else b j

inductive Fault where
  | panic (msg : String)
  /-- the lock is held by another process -/
  | blocked
  deriving DecidableEq, Repr

/-- `struct inode`; `holder` is the process that holds `lock`. -/
structure Inode where
  ref : Int
  holder : Option Nat
  valid : Bool
  din : Dinode

structure State where
  sb : Superblock
  disk : Nat → Block
  icache : Nat → Inode
  /-- what the console's reader is still to get before it is killed -/
  input : List UInt8

namespace State

variable (s : State)

def log_write (b : Nat) (d : Block) : State := { s with disk := Function.update s.disk b d }

def setInode (ip : Nat) (d : Inode) : State := { s with icache := Function.update s.icache ip d }

/-! ## Blocks -/

/-- The bit of block `b` in the free bitmap. -/
def used (b : Nat) : Bool := (s.disk (s.sb.BBLOCK b)).bit (b % BPB)

def bzero (b : Nat) : State := s.log_write b Block.zero

/-- `balloc`; its two loops are one search. -/
def balloc : Except Fault (Nat × State) :=
  match (List.range s.sb.size).find? (fun b => !s.used b) with
  | some b =>
    .ok (b, (s.log_write (s.sb.BBLOCK b) ((s.disk (s.sb.BBLOCK b)).setBit (b % BPB))).bzero b)
  | none => .error (.panic "balloc: out of blocks")

def bfree (b : Nat) : Except Fault State :=
  if s.used b then
    .ok (s.log_write (s.sb.BBLOCK b) ((s.disk (s.sb.BBLOCK b)).clearBit (b % BPB)))
  else .error (.panic "freeing free block")

/-! ## Inodes -/

/-- The inode of number `i` on disk. -/
def dinode (i : Nat) : Dinode := (s.disk (s.sb.IBLOCK i)).dinode (i % IPB)

def putDinode (i : Nat) (d : Dinode) : State :=
  s.log_write (s.sb.IBLOCK i) ((s.disk (s.sb.IBLOCK i)).setDinode (i % IPB) d)

def setDin (ip : Nat) (d : Dinode) : State := s.setInode ip { s.icache ip with din := d }

def iupdate (ip : Nat) : State := s.putDinode ip (s.icache ip).din

/-- The inodes in the cache. -/
def cached : List Nat := (List.range s.sb.ninodes).filter (fun i => 0 < (s.icache i).ref)

def iget (inum : Nat) : Except Fault State :=
  if 0 < (s.icache inum).ref then
    .ok (s.setInode inum { s.icache inum with ref := (s.icache inum).ref + 1 })
  else if NINODE ≤ s.cached.length then .error (.panic "iget: no inodes")
  else .ok (s.setInode inum { s.icache inum with ref := 1, valid := false })

def idup (ip : Nat) : State := s.setInode ip { s.icache ip with ref := (s.icache ip).ref + 1 }

/-- `ialloc`, which returns the number of the inode. -/
def ialloc (type : Int) : Except Fault (Nat × State) :=
  match (List.range' 1 (s.sb.ninodes - 1)).find? (fun i => (s.dinode i).type = 0) with
  | some i => do
    let s ← (s.putDinode i ⟨short type, 0, 0, 0, 0, fun _ => 0⟩).iget i
    return (i, s)
  | none => .error (.panic "ialloc: no inodes")

def acquiresleep (p ip : Nat) : Except Fault State :=
  if (s.icache ip).holder.isSome then .error .blocked
  else .ok (s.setInode ip { s.icache ip with holder := some p })

def releasesleep (ip : Nat) : State := s.setInode ip { s.icache ip with holder := none }

def ilock (p ip : Nat) : Except Fault State :=
  if (s.icache ip).ref < 1 then .error (.panic "ilock")
  else do
    let s ← s.acquiresleep p ip
    if (s.icache ip).valid then return s
    else
      let s := s.setInode ip { s.icache ip with din := s.dinode ip, valid := true }
      if (s.icache ip).din.type = 0 then .error (.panic "ilock: no type") else return s

def iunlock (p ip : Nat) : Except Fault State :=
  if (s.icache ip).holder ≠ some p ∨ (s.icache ip).ref < 1 then .error (.panic "iunlock")
  else .ok (s.releasesleep ip)

/-! ## Block maps -/

/-- `ip->addrs[k] = b`. -/
def setAddr (ip k b : Nat) : State :=
  s.setDin ip { (s.icache ip).din with addrs := Function.update (s.icache ip).din.addrs k b }

/-- `ip->addrs[k]`, allocated if it is 0. -/
def slot (ip k : Nat) : Except Fault (Nat × State) :=
  if (s.icache ip).din.addrs k = 0 then do
    let (addr, s) ← s.balloc
    return (addr, s.setAddr ip k addr)
  else .ok ((s.icache ip).din.addrs k, s)

/-- `a[j]` in the block `addr`, allocated if it is 0. -/
def entry (addr j : Nat) : Except Fault (Nat × State) :=
  let a := s.disk addr
  if a.word j = 0 then do
    let (b, s) ← s.balloc
    return (b, s.log_write addr (a.setWord j b))
  else .ok (a.word j, s)

def bmap (ip bn : Nat) : Except Fault (Nat × State) :=
  if bn < NDIRECT then s.slot ip bn
  else
    let bn := bn - NDIRECT
    if bn < 1 <<< 7 then do
      let (addr, s) ← s.slot ip NDIRECT
      s.entry addr bn
    else
      let bn := bn - 1 <<< 7
      if bn < 1 <<< 14 then do
        let (addr, s) ← s.slot ip DINDIRECT_IDX
        let (addr, s) ← s.entry addr (bn >>> 7)
        s.entry addr (bn &&& 0x7F)
      else
        let bn := bn - 1 <<< 14
        if bn < 1 <<< 21 then do
          let (addr, s) ← s.slot ip TINDIRECT_IDX
          let (addr, s) ← s.entry addr (bn >>> 14)
          let (addr, s) ← s.entry addr (0x7F &&& (bn >>> 7))
          s.entry addr (0x7F &&& bn)
        else .error (.panic "bmap: out of range")

/-- `if(addr) bfree(addr)`, after the same for the entries of the block when it holds
`depth` levels of them. -/
def freeTree : Nat → State → Nat → Except Fault State
  | 0, s, addr => if addr = 0 then .ok s else s.bfree addr
  | depth + 1, s, addr =>
    if addr = 0 then .ok s
    else do
      let a := s.disk addr
      let s ← (List.range NINDIRECT).foldlM (fun s j => freeTree depth s (a.word j)) s
      s.bfree addr

/-- The part of `itrunc` that is about `ip->addrs[k]`. -/
def freeSlot (ip depth : Nat) (s : State) (k : Nat) : Except Fault State :=
  if (s.icache ip).din.addrs k = 0 then .ok s
  else do
    let s ← freeTree depth s ((s.icache ip).din.addrs k)
    return s.setAddr ip k 0

def itrunc (ip : Nat) : Except Fault State := do
  let s ← (List.range NDIRECT).foldlM (freeSlot ip 0) s
  let s ← freeSlot ip 1 s NDIRECT
  let s ← freeSlot ip 2 s DINDIRECT_IDX
  let s ← freeSlot ip 3 s TINDIRECT_IDX
  return (s.setDin ip { (s.icache ip).din with size := 0 }).iupdate ip

def iput (p ip : Nat) : Except Fault State := do
  let s ← s.acquiresleep p ip
  let s ←
    if (s.icache ip).valid ∧ (s.icache ip).din.nlink = 0 ∧ (s.icache ip).ref = 1 then do
      let s ← s.itrunc ip
      let s := (s.setDin ip { (s.icache ip).din with type := 0 }).iupdate ip
      .ok (s.setInode ip { s.icache ip with valid := false })
    else .ok s
  let s := s.releasesleep ip
  return s.setInode ip { s.icache ip with ref := (s.icache ip).ref - 1 }

def iunlockput (p ip : Nat) : Except Fault State := do
  let s ← s.iunlock p ip
  s.iput p ip

/-! ## Contents -/

/-- The loop of `consoleread` with `n` bytes to go of `target`: what it delivers, if it
is not killed, and what is left. -/
def consoleLoop (target : Nat) : Nat → List UInt8 → Option (List UInt8) × List UInt8
  | 0, input => (some [], input)
  | _ + 1, [] => (none, [])
  | n + 1, c :: input =>
    if c = 4 then (some [], if n + 1 < target then c :: input else input)
    else if c = 10 then (some [c], input)
    else
      let (got, rest) := consoleLoop target n input
      (got.map (c :: ·), rest)

/-- `consoleread`: the value returned and the bytes at `dst`. -/
def consoleread (p ip : Nat) (n : Int) : Except Fault ((Int × List UInt8) × State) := do
  let s ← s.iunlock p ip
  let (got, rest) := consoleLoop (uint n) n.toNat s.input
  let s ← { s with input := rest }.ilock p ip
  return (match got with
    | some bytes => (int (uint n - (n - bytes.length)), bytes)
    | none => (-1, []), s)

def consolewrite (p ip : Nat) (n : Int) : Except Fault (Int × State) := do
  let s ← s.iunlock p ip
  let s ← s.ilock p ip
  return (n, s)

/-- The loop of `readi`, which runs `n` times at most. -/
def readLoop (ip n : Nat) : Nat → State → Nat → Nat → Except Fault (List UInt8 × State)
  | 0, s, _, _ => .ok ([], s)
  | fuel + 1, s, tot, off =>
    if tot < n then do
      let (b, s) ← s.bmap ip (off / BSIZE)
      let m := min (n - tot) (BSIZE - off % BSIZE)
      let (bytes, s') ← readLoop ip n fuel s (tot + m) (off + m)
      return ((List.range m).map (fun j => s.disk b (off % BSIZE + j)) ++ bytes, s')
    else .ok ([], s)

/-- `readi`: the value returned and the bytes at `dst`. -/
def readi (p ip off n : Nat) : Except Fault ((Int × List UInt8) × State) :=
  let d := (s.icache ip).din
  if d.type = T_DEV then
    if d.major < 0 ∨ NDEV ≤ d.major ∨ d.major ≠ CONSOLE then .ok ((-1, []), s)
    else s.consoleread p ip (int n)
  else if d.size < off ∨ (off + n) % 2 ^ 32 < off then .ok ((-1, []), s)
  else do
    let n := if d.size < off + n then d.size - off else n
    let (bytes, s) ← readLoop ip n n s 0 off
    return ((int n, bytes), s)

/-- The loop of `writei`, which runs `n` times at most: it returns the last `off`. -/
def writeLoop (ip : Nat) (src : Nat → UInt8) (n : Nat) :
    Nat → State → Nat → Nat → Except Fault (Nat × State)
  | 0, s, _, off => .ok (off, s)
  | fuel + 1, s, tot, off =>
    if tot < n then do
      let (b, s) ← s.bmap ip (off / BSIZE)
      let m := min (n - tot) (BSIZE - off % BSIZE)
      let s := s.log_write b ((s.disk b).copy (off % BSIZE) m fun j => src (tot + j))
      writeLoop ip src n fuel s (tot + m) (off + m)
    else .ok (off, s)

def writei (p ip : Nat) (src : Nat → UInt8) (off n : Nat) : Except Fault (Int × State) :=
  let d := (s.icache ip).din
  if d.type = T_DEV then
    if d.major < 0 ∨ NDEV ≤ d.major ∨ d.major ≠ CONSOLE then .ok (-1, s)
    else s.consolewrite p ip (int n)
  else if d.size < off ∨ (off + n) % 2 ^ 32 < off then .ok (-1, s)
  else if MAXFILE * BSIZE < off + n then .ok (-1, s)
  else do
    let (off, s) ← writeLoop ip src n n s 0 off
    if 0 < n ∧ (s.icache ip).din.size < off then
      return (int n, (s.setDin ip { (s.icache ip).din with size := off }).iupdate ip)
    else return (int n, s)

end State

end Xv6.Fs
