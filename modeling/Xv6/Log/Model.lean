import Xv6.Fs.Block
import Xv6.Lib.Run

/-!
# The log

`log.c`: file-system operations bracketed by `begin_op` and `end_op` pass the
blocks they modify to `log_write`; the last one out commits. A step is a section
under `log.lock`, or one block copy with its disk write. `log_write` is two
steps, its tests being made before it takes the lock. A crash keeps the disk and
nothing else.

`buf b` is what `bread(b)` returns: the cached buffer, which `B_DIRTY` pins from
`log_write` until the block is installed, or else the block on disk.
-/

namespace Xv6.Log

open Lib Fs

def MAXOPBLOCKS : Nat := 40
def LOGSIZE : Nat := MAXOPBLOCKS * 3

/-- `sb.nlog`, as `mkfs` writes it: the header block and the log blocks. -/
def nlog : Nat := LOGSIZE

/-- `sb.logstart`. -/
def logstart : Nat := 2

/-- The blocks that file-system operations write: those after the log. -/
def Home (b : Nat) : Prop := logstart + nlog ≤ b ∧ b < FSSIZE

instance (b : Nat) : Decidable (Home b) := inferInstanceAs (Decidable (_ ∧ _))

structure LogHeader where
  n : Nat
  block : Nat → Nat

namespace LogHeader

/-- The blocks recorded, in order. -/
def toList (h : LogHeader) : List Nat := (List.range h.n).map h.block

/-- Record `b`: at the place of an earlier record (log absorption), or as the
next one; `none` when that is outside `block[LOGSIZE]`. -/
def record (h : LogHeader) (b : Nat) : Option LogHeader :=
  let i := h.toList.idxOf b
  if i < LOGSIZE then
    some { n := if i = h.n then h.n + 1 else h.n, block := Function.update h.block i b }
  else none

/-- The assignments of `write_head` to the header block: `n`, then `block[0..i)`. -/
def put (h : LogHeader) (d : Block) : Nat → Block
  | 0 => d.setWord 0 h.n
  | i + 1 => (h.put d i).setWord (i + 1) (h.block i)

/-- `read_head`. A negative `n` runs no loop. -/
def get (d : Block) : LogHeader where
  n := if d.word 0 < 2 ^ 31 then d.word 0 else 0
  block i := d.word (i + 1)

end LogHeader

/-- Where a process stands between two steps. -/
inductive Cont where
  /-- outside `begin_op` … `end_op` -/
  | idle
  /-- between `begin_op` and `end_op` -/
  | inOp
  /-- in `log_write(b)`: tests passed, `log.lock` not yet acquired -/
  | append (b : Nat)
  /-- in `commit`, before its test -/
  | commit
  /-- in the loop of `write_log` -/
  | writeLog (tail : Nat)
  /-- before the first `write_head` of `commit` -/
  | writeHead
  /-- in the loop of `install_trans` -/
  | install (tail : Nat)
  /-- before the second `write_head` of `commit` -/
  | erase
  /-- `commit` returned to `end_op` -/
  | committed
  deriving DecidableEq, Repr

/-- Where the machine stands: in `initlog`, or past it. -/
inductive Phase where
  /-- powered on, `read_head` not yet run -/
  | boot
  /-- in the loop of `install_trans` -/
  | install (tail : Nat)
  /-- before `write_head` of `recover_from_log` -/
  | erase
  | running
  deriving DecidableEq, Repr

inductive Fault where
  | panic (msg : String)
  /-- index outside `lh.block` -/
  | blockRange
  /-- the action cannot happen in this state -/
  | blocked
  deriving DecidableEq, Repr

structure State (P : Type) where
  disk : Nat → Block
  buf : Nat → Block
  lh : LogHeader
  outstanding : Int
  committing : Bool
  phase : Phase
  cont : P → Cont

variable {P : Type} [DecidableEq P]

namespace State

variable (s : State P)

def setCont (p : P) (c : Cont) : State P := { s with cont := Function.update s.cont p c }

/-- `memmove(bread(dst)->data, bread(src)->data, BSIZE)`. -/
def memmove (dst src : Nat) : State P :=
  { s with buf := Function.update s.buf dst (s.buf src) }

/-- `bwrite`: one disk write. -/
def bwrite (b : Nat) : State P := { s with disk := Function.update s.disk b (s.buf b) }

/-- One iteration of `write_log`. -/
def writeLog (tail : Nat) : State P :=
  (s.memmove (logstart + tail + 1) (s.lh.block tail)).bwrite (logstart + tail + 1)

/-- One iteration of `install_trans`. -/
def install (tail : Nat) : State P :=
  (s.memmove (s.lh.block tail) (logstart + tail + 1)).bwrite (s.lh.block tail)

def write_head : State P :=
  { s with buf := Function.update s.buf logstart (s.lh.put (s.buf logstart) s.lh.n) }.bwrite logstart

/-- `log.lh.n = 0`. -/
def clear : State P := { s with lh := { s.lh with n := 0 } }

def read_head : Except Fault (State P) :=
  let lh := LogHeader.get (s.buf logstart)
  if lh.n ≤ LOGSIZE then .ok { s with lh := lh } else .error .blockRange

/-- `begin_op`: admitted, or asleep until the next try. -/
def begin_op (p : P) : State P :=
  if s.committing then s
  else if (s.lh.n : Int) + (s.outstanding + 1) * MAXOPBLOCKS > LOGSIZE then s
  else { s.setCont p .inOp with outstanding := s.outstanding + 1 }

def end_op (p : P) : Except Fault (State P) :=
  let s := { s with outstanding := s.outstanding - 1 }
  if s.committing then .error (.panic "log.committing")
  else if s.outstanding = 0 then .ok { s.setCont p .commit with committing := true }
  else .ok (s.setCont p .idle)

/-- The caller has modified the buffer of `b`; the tests of `log_write`. -/
def log_write (p : P) (b : Nat) (d : Block) : Except Fault (State P) :=
  let s := { s with buf := Function.update s.buf b d }
  if s.lh.n ≥ LOGSIZE ∨ s.lh.n ≥ nlog - 1 then .error (.panic "too big a transaction")
  else if s.outstanding < 1 then .error (.panic "log_write outside of trans")
  else .ok (s.setCont p (.append b))

/-- The locked section of `log_write`. -/
def append (p : P) (b : Nat) : Except Fault (State P) :=
  match s.lh.record b with
  | some lh => .ok ({ s with lh := lh }.setCont p .inOp)
  | none => .error .blockRange

/-- The next step of `commit`, or of `end_op` after it. -/
def commitStep (p : P) : Cont → Except Fault (State P)
  | .commit => .ok (s.setCont p (if s.lh.n > 0 then .writeLog 0 else .committed))
  | .writeLog tail =>
    if tail < s.lh.n then .ok ((s.writeLog tail).setCont p (.writeLog (tail + 1)))
    else .ok (s.setCont p .writeHead)
  | .writeHead => .ok (s.write_head.setCont p (.install 0))
  | .install tail =>
    if tail < s.lh.n then .ok ((s.install tail).setCont p (.install (tail + 1)))
    else .ok (s.clear.setCont p .erase)
  | .erase => .ok (s.write_head.setCont p .committed)
  | .committed => .ok { s.setCont p .idle with committing := false }
  | _ => .error .blocked

/-- The next step of `recover_from_log`. -/
def recoverStep : Phase → Except Fault (State P)
  | .boot => do
    let s ← s.read_head
    return { s with phase := .install 0 }
  | .install tail =>
    if tail < s.lh.n then .ok { s.install tail with phase := .install (tail + 1) }
    else .ok { s.clear with phase := .erase }
  | .erase => .ok { s.write_head with phase := .running }
  | .running => .error .blocked

/-- The machine as it comes up with a disk. -/
def poweron (disk : Nat → Block) : State P where
  disk := disk
  buf := disk
  lh := ⟨0, fun _ => 0⟩
  outstanding := 0
  committing := false
  phase := .boot
  cont _ := .idle

end State

/-! ## Steps -/

inductive Action (P : Type) where
  | begin_op (p : P)
  /-- modify block `b` to `d` and enter `log_write` -/
  | log_write (p : P) (b : Nat) (d : Block)
  | append (p : P)
  | end_op (p : P)
  | commit (p : P)
  | recover
  | crash

/-- What process `p`, standing at `c`, does for an action. -/
def stepProc (s : State P) : Cont → Action P → Except Fault (State P)
  | .idle, .begin_op p => .ok (s.begin_op p)
  | .inOp, .log_write p b d => if Home b then s.log_write p b d else .error .blocked
  | .append b, .append p => s.append p b
  | .inOp, .end_op p => s.end_op p
  | c, .commit p => s.commitStep p c
  | _, _ => .error .blocked

/-- The process that takes an action. -/
def Action.proc? : Action P → Option P
  | .begin_op p | .log_write p _ _ | .append p | .end_op p | .commit p => some p
  | _ => none

def step (s : State P) (a : Action P) : Except Fault (State P) :=
  match a with
  | .crash => .ok (.poweron s.disk)
  | .recover => s.recoverStep s.phase
  | a =>
    match s.phase, a.proc? with
    | .running, some p => stepProc s (s.cont p) a
    | _, _ => .error .blocked

/-- The disk as `mkfs` leaves it has an empty header. -/
def Formatted (disk : Nat → Block) : Prop := (disk logstart).word 0 = 0

/-- A state some run from power-on reaches, every action of it meeting `G`. -/
abbrev Reachable (disk : Nat → Block) (G : State P → Action P → Prop) : State P → Prop :=
  Reach step G (.poweron disk)

end Xv6.Log
