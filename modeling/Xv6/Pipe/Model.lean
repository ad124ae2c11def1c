import Xv6.Lib.Fifo
import Xv6.Lib.Run

/-!
# Pipes: the functions of `pipe.c`

`pipewrite`, `piperead` and `pipeclose` of project 3 on one pipe, called by any
number of processes. What a process does while it holds `p->lock` is one step: a
call up to its return or its `sleep`, and likewise from each wakeup on. `stored`
and `delivered` are the histories of the bytes that go through `data`.
-/

namespace Xv6.Pipe

open Lib

def PIPESIZE : Nat := 512

/-- The two addresses that processes sleep on. -/
inductive Chan where
  | nread
  | nwrite
  deriving DecidableEq, Repr

/-- Where a process stands. -/
inductive Cont where
  | idle
  /-- in the `sleep` of `pipewrite`, called for `n` bytes; `rest` is not yet stored -/
  | writing (n : Int) (rest : List UInt8)
  /-- in the `sleep` of `piperead`, called for `n` bytes -/
  | reading (n : Int)
  deriving DecidableEq, Repr

inductive Fault where
  /-- the pipe has been given back to `kfree` -/
  | freed
  /-- the action cannot happen in this state -/
  | blocked
  deriving DecidableEq, Repr

structure State where
  data : Nat → UInt8
  nread : Nat
  nwrite : Nat
  readopen : Bool
  writeopen : Bool
  /-- `kfree` has been called -/
  freed : Bool
  cont : Nat → Cont
  /-- what a sleeping process waits for -/
  chan : Nat → Option Chan
  killed : Nat → Bool
  /-- what the last call of a process returned -/
  ret : Nat → Int
  stored : List UInt8
  delivered : List UInt8

/-- A new pipe. -/
def pipealloc (data : Nat → UInt8) (killed : Nat → Bool) : State where
  data := data
  nread := 0
  nwrite := 0
  readopen := true
  writeopen := true
  freed := false
  cont _ := .idle
  chan _ := none
  killed := killed
  ret _ := 0
  stored := []
  delivered := []

namespace State

variable (s : State)

def wakeup (c : Chan) : State :=
  { s with chan := fun p => if s.chan p = some c then none else s.chan p }

/-- Process `p` sleeps on `c` at point `k`. -/
def sleep (p : Nat) (c : Chan) (k : Cont) : State :=
  { s with cont := Function.update s.cont p k, chan := Function.update s.chan p (some c) }

/-- The call of `p` returns `v`. -/
def sysret (p : Nat) (v : Int) : State :=
  { s with cont := Function.update s.cont p .idle, ret := Function.update s.ret p v }

/-- `p->data[p->nwrite++ % PIPESIZE] = b`. -/
def store (b : UInt8) : State :=
  { s with data := Function.update s.data (s.nwrite % PIPESIZE) b
           nwrite := (s.nwrite + 1) % 2 ^ 32
           stored := s.stored ++ [b] }

/-- `p->data[p->nread++ % PIPESIZE]`, handed to a reader. -/
def take : State :=
  { s with nread := (s.nread + 1) % 2 ^ 32
           delivered := s.delivered ++ [s.data (s.nread % PIPESIZE)] }

/-- The loop of `pipewrite`, up to its return or its `sleep`. -/
def fill (p : Nat) (n : Int) : List UInt8 → State → State
  | [], s => (s.wakeup .nread).sysret p n
  | b :: rest, s =>
    if s.nwrite = (s.nread + PIPESIZE) % 2 ^ 32 then
      if s.readopen = false ∨ s.killed p then s.sysret p (-1)
      else (s.wakeup .nread).sleep p .nwrite (.writing n (b :: rest))
    else fill p n rest (s.store b)

/-- The loop of `piperead` that copies, with the number of bytes it copied. -/
def copy : Nat → State → State × Nat
  | 0, s => (s, 0)
  | k + 1, s =>
    if s.nread = s.nwrite then (s, 0)
    else
      let (s, i) := copy k s.take
      (s, i + 1)

/-- `piperead`, up to its return or its `sleep`. -/
def drain (p : Nat) (n : Int) : State :=
  if s.nread = s.nwrite ∧ s.writeopen then
    if s.killed p then s.sysret p (-1) else s.sleep p .nread (.reading n)
  else
    let (s, i) := s.copy n.toNat
    (s.wakeup .nwrite).sysret p i

def pipeclose (writable : Bool) : State :=
  let s := if writable then { s with writeopen := false }.wakeup .nread
    else { s with readopen := false }.wakeup .nwrite
  if s.readopen = false ∧ s.writeopen = false then { s with freed := true } else s

end State

inductive Action where
  /-- `p` calls `pipewrite` for the `n` bytes at `addr` -/
  | pipewrite (p : Nat) (addr : Nat → UInt8) (n : Int)
  | piperead (p : Nat) (n : Int)
  /-- `p` goes on after its `sleep` -/
  | resume (p : Nat)
  | pipeclose (writable : Bool)
  | kill (p : Nat)

def step (s : State) : Action → Except Fault State
  | .pipewrite p addr n =>
    if s.cont p ≠ .idle then .error .blocked
    else if s.freed then .error .freed
    else .ok (s.fill p n ((List.range n.toNat).map addr))
  | .piperead p n =>
    if s.cont p ≠ .idle then .error .blocked
    else if s.freed then .error .freed
    else .ok (s.drain p n)
  | .resume p =>
    if s.chan p ≠ none then .error .blocked
    else if s.freed then .error .freed
    else match s.cont p with
      | .idle => .error .blocked
      | .writing n rest => .ok (s.fill p n rest)
      | .reading n => .ok (s.drain p n)
  | .pipeclose writable => if s.freed then .error .freed else .ok (s.pipeclose writable)
  | .kill p => .ok { s with
      killed := Function.update s.killed p true, chan := Function.update s.chan p none }

end Xv6.Pipe
