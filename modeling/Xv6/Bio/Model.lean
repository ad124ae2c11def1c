import Xv6.Lib.Ring
import Xv6.Log.Model

/-!
# The buffer cache

`bio.c`, with the parts of `log.c` that use it. A step is a section under
`bcache.lock` or `log.lock`, the acquisition or the release of a sleep lock, a
copy between locked buffers, or a disk transfer, which `iderw` makes while the
caller holds the buffer. Processes call `bread`, `bwrite`, `brelse` and
`log_write` in any order, and the one that ends the last operation commits.

The cache is `binit`'s and the log is empty at the start: `recover_from_log`
calls nothing but `bread`, `bwrite` and `brelse`.
-/

namespace Xv6.Bio

open Lib Fs Log

def NBUF : Nat := MAXOPBLOCKS * 3
def ROOTDEV : Nat := 1

abbrev BufId := Fin NBUF

/-- What a process still has to do in `bio.c` and `log.c`, up to its return. -/
inductive Code where
  | caller
  | bread (blockno : Nat) (k : BufId → Code)
  | memmove (dst src : BufId) (k : Code)
  /-- the assignments of `write_head` to the header block -/
  | putHead (i : BufId) (k : Code)
  | bwrite (i : BufId) (k : Code)
  | brelse (i : BufId) (k : Code)
  /-- in `log_write`, its tests passed -/
  | append (i : BufId)
  | commit
  | writeLog (tail : Nat)
  | installTrans (tail : Nat)
  /-- `log.lh.n = 0` and the second `write_head` -/
  | clear
  /-- `commit` returned to `end_op` -/
  | committed

namespace Code

def writeHead (k : Code) : Code :=
  .bread logstart fun buf => .putHead buf (.bwrite buf (.brelse buf k))

/-- The body of the loop of `write_log`. -/
def writeLogBody (lh : LogHeader) (tail : Nat) : Code :=
  .bread (logstart + tail + 1) fun dst =>
    .bread (lh.block tail) fun src =>
      .memmove dst src (.bwrite dst (.brelse src (.brelse dst (.writeLog (tail + 1)))))

/-- The body of the loop of `install_trans`. -/
def installBody (lh : LogHeader) (tail : Nat) : Code :=
  .bread (logstart + tail + 1) fun lbuf =>
    .bread (lh.block tail) fun dbuf =>
      .memmove dbuf lbuf (.bwrite dbuf (.brelse lbuf (.brelse dbuf (.installTrans (tail + 1)))))

end Code

/-- Where a process stands between two steps. -/
inductive Cont where
  | code (c : Code)
  /-- in `bget`, past `bcache.lock` -/
  | acquiresleep (blockno : Nat) (i : BufId) (k : Code)
  /-- in `bread`, past `bget` -/
  | fill (blockno : Nat) (i : BufId) (k : Code)
  /-- in `brelse`, past `releasesleep` -/
  | decref (i : BufId) (k : Code)

structure Buf (P : Type) where
  /-- `B_VALID` -/
  valid : Bool
  /-- `B_DIRTY` -/
  dirty : Bool
  dev : Nat
  blockno : Nat
  /-- who has the sleep lock -/
  lock : Option P
  refcnt : Nat
  data : Block

structure State (P : Type) where
  buf : BufId → Buf P
  /-- the list from `bcache.head` -/
  links : LinkFields BufId
  /-- the disk `ROOTDEV` -/
  disk : Nat → Block
  lh : LogHeader
  outstanding : Int
  committing : Bool
  /-- between `begin_op` and `end_op` -/
  inOp : P → Bool
  cont : P → Cont

inductive Fault where
  | panic (msg : String)
  /-- index outside `lh.block` -/
  | blockRange
  /-- a loop over the list does not come back to `bcache.head` -/
  | endless
  /-- the action cannot happen in this state -/
  | blocked
  deriving DecidableEq, Repr

variable {P : Type}

/-- A buffer as the boot loader leaves it, with its lock initialized. -/
def Buf.init : Buf P := ⟨false, false, 0, 0, none, 0, .zero⟩

/-- The loop of `binit`. -/
def binit : LinkFields BufId := (List.finRange NBUF).foldl .pushFront .empty

def State.init (disk : Nat → Block) : State P where
  buf _ := .init
  links := binit
  disk := disk
  lh := ⟨0, fun _ => 0⟩
  outstanding := 0
  committing := false
  inOp _ := false
  cont _ := .code .caller

variable [DecidableEq P]

namespace State

variable (s : State P)

def setBuf (i : BufId) (b : Buf P) : State P := { s with buf := Function.update s.buf i b }

def setCont (p : P) (c : Cont) : State P := { s with cont := Function.update s.cont p c }

def setCode (p : P) (c : Code) : State P := s.setCont p (.code c)

/-- The test of the first loop of `bget`. -/
def caches (dev blockno : Nat) (i : BufId) : Bool :=
  (s.buf i).dev = dev ∧ (s.buf i).blockno = blockno

/-- The test of the second loop of `bget`. -/
def unused (i : BufId) : Bool := (s.buf i).refcnt = 0 ∧ (s.buf i).dirty = false

/-- The section of `bget` under `bcache.lock`. -/
def bget (dev blockno : Nat) : Except Fault (BufId × State P) :=
  match walk s.links.next (s.caches dev blockno) NBUF (s.links.next none) with
  | none => .error .endless
  | some (some i) => .ok (i, s.setBuf i { s.buf i with refcnt := (s.buf i).refcnt + 1 })
  | some none =>
    match walk s.links.prev s.unused NBUF (s.links.prev none) with
    | none => .error .endless
    | some (some i) =>
      .ok (i, s.setBuf i { s.buf i with
        dev := dev, blockno := blockno, valid := false, dirty := false, refcnt := 1 })
    | some none => .error (.panic "bget: no buffers")

/-- `holdingsleep(&b->lock)`. -/
def holdingsleep (p : P) (i : BufId) : Bool := (s.buf i).lock = some p

/-- Write the buffer if it is dirty, else read it. -/
def iderw (p : P) (i : BufId) : Except Fault (State P) :=
  let b := s.buf i
  if ¬ s.holdingsleep p i then .error (.panic "iderw: buf not locked")
  else if b.valid ∧ ¬ b.dirty then .error (.panic "iderw: nothing to do")
  else if b.blockno ≥ FSSIZE then .error (.panic "incorrect blockno")
  else if b.dirty then
    .ok { s.setBuf i { b with valid := true, dirty := false } with
      disk := Function.update s.disk b.blockno b.data }
  else .ok (s.setBuf i { b with valid := true, data := s.disk b.blockno })

def acquiresleep (p : P) (i : BufId) : Except Fault (State P) :=
  if (s.buf i).lock = none then .ok (s.setBuf i { s.buf i with lock := some p })
  else .error .blocked

/-- `bread`, past `bget`. -/
def fill (p : P) (i : BufId) : Except Fault (State P) :=
  if (s.buf i).valid then .ok s else s.iderw p i

/-- The caller, or `memmove`, writes into a buffer. -/
def store (i : BufId) (d : Block) : State P := s.setBuf i { s.buf i with data := d }

def bwrite (p : P) (i : BufId) : Except Fault (State P) :=
  if ¬ s.holdingsleep p i then .error (.panic "bwrite")
  else (s.setBuf i { s.buf i with dirty := true }).iderw p i

def brelse (p : P) (i : BufId) : Except Fault (State P) :=
  if ¬ s.holdingsleep p i then .error (.panic "brelse")
  else .ok (s.setBuf i { s.buf i with lock := none })

/-- The section of `brelse` under `bcache.lock`. -/
def decref (i : BufId) : State P :=
  let s := s.setBuf i { s.buf i with refcnt := (s.buf i).refcnt - 1 }
  if (s.buf i).refcnt = 0 then { s with links := (s.links.unlink i).pushFront i } else s

/-- The tests of `log_write`. -/
def log_write (p : P) (i : BufId) : Except Fault (State P) :=
  if s.lh.n ≥ LOGSIZE ∨ s.lh.n ≥ nlog - 1 then .error (.panic "too big a transaction")
  else if s.outstanding < 1 then .error (.panic "log_write outside of trans")
  else .ok (s.setCode p (.append i))

/-- The section of `log_write` under `log.lock`. -/
def append (i : BufId) : Except Fault (State P) :=
  match s.lh.record (s.buf i).blockno with
  | some lh => .ok { s.setBuf i { s.buf i with dirty := true } with lh := lh }
  | none => .error .blockRange

/-- `begin_op`: admitted, or asleep until the next try. -/
def begin_op (p : P) : State P :=
  if s.committing then s
  else if (s.lh.n : Int) + (s.outstanding + 1) * MAXOPBLOCKS > LOGSIZE then s
  else { s with outstanding := s.outstanding + 1, inOp := Function.update s.inOp p true }

def end_op (p : P) : Except Fault (State P) :=
  let s := { s with outstanding := s.outstanding - 1, inOp := Function.update s.inOp p false }
  if s.committing then .error (.panic "log.committing")
  else if s.outstanding = 0 then .ok { s.setCode p .commit with committing := true }
  else .ok s

/-- The next step of a process that is to execute `c`. -/
def exec (p : P) : Code → Except Fault (State P)
  | .caller => .error .blocked
  | .bread b k => do
    let (i, s) ← s.bget ROOTDEV b
    return s.setCont p (.acquiresleep b i (k i))
  | .memmove dst src k => .ok ((s.store dst (s.buf src).data).setCode p k)
  | .putHead i k => .ok ((s.store i (s.lh.put (s.buf i).data s.lh.n)).setCode p k)
  | .bwrite i k => do return (← s.bwrite p i).setCode p k
  | .brelse i k => do return (← s.brelse p i).setCont p (.decref i k)
  | .append i => do return (← s.append i).setCode p .caller
  | .commit => .ok (s.setCode p (if s.lh.n > 0 then .writeLog 0 else .committed))
  | .writeLog tail =>
    .ok (s.setCode p (if tail < s.lh.n then .writeLogBody s.lh tail
      else .writeHead (.installTrans 0)))
  | .installTrans tail =>
    .ok (s.setCode p (if tail < s.lh.n then .installBody s.lh tail else .clear))
  | .clear => .ok ({ s with lh := { s.lh with n := 0 } }.setCode p (.writeHead .committed))
  | .committed => .ok { s.setCode p .caller with committing := false }

/-- The next step of a process that stands at `c`. -/
def run (p : P) : Cont → Except Fault (State P)
  | .code c => s.exec p c
  | .acquiresleep b i k => do return (← s.acquiresleep p i).setCont p (.fill b i k)
  | .fill _ i k => do return (← s.fill p i).setCode p k
  | .decref i k => .ok ((s.decref i).setCode p k)

end State

/-! ## Steps -/

inductive Call where
  | begin_op
  | bread (blockno : Nat)
  /-- write `data` into a buffer the caller has locked -/
  | modify (i : BufId) (data : Block)
  | log_write (i : BufId)
  | bwrite (i : BufId)
  | brelse (i : BufId)
  | end_op

inductive Action (P : Type) where
  | call (p : P) (c : Call)
  /-- the process goes on with what it called -/
  | run (p : P)

/-- Operations are bracketed and log inside the brackets; a buffer is written, and
passed to `log_write`, under its sleep lock. -/
def call (s : State P) (p : P) : Call → Except Fault (State P)
  | .begin_op => if s.inOp p then .error .blocked else .ok (s.begin_op p)
  | .bread b => .ok (s.setCode p (.bread b fun _ => .caller))
  | .modify i d => if s.holdingsleep p i then .ok (s.store i d) else .error .blocked
  | .log_write i => if s.inOp p ∧ s.holdingsleep p i then s.log_write p i else .error .blocked
  | .bwrite i => .ok (s.setCode p (.bwrite i .caller))
  | .brelse i => .ok (s.setCode p (.brelse i .caller))
  | .end_op => if s.inOp p then s.end_op p else .error .blocked

def step (s : State P) : Action P → Except Fault (State P)
  | .call p c =>
    match s.cont p with
    | .code .caller => call s p c
    | _ => .error .blocked
  | .run p => s.run p (s.cont p)

end Xv6.Bio
