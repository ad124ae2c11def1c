import Xv6.Sched.Proc

/-!
# Threads: the data

Light-weight processes, as `proc.h` and `proc.c` of project 2 have them: a thread
is a slot of `ptable` with its master's `pgdir`. Any number of CPUs run; which
process `scheduler` takes is left open, so `stable` and the passes are not here.

A page directory is what one call of `setupkvm` makes and a kernel stack what one
`kalloc` of `allocproc` returns; both are numbered in order, and 0 is null.
`freed` and `kfreed` are the histories of the calls of `freevm` and `kfree`.
-/

namespace Xv6.Threads

open Lib
open Sched (NPROC Slot Level ProcState Ptr Chan int32)

def NTHREAD : Nat := 64

structure Proc where
  pgdir : Nat := 0
  kstack : Nat := 0
  state : ProcState := .UNUSED
  parent : Option Slot := none
  chan : Chan := .null
  killed : Bool := false
  lev : Int := 0
  time_allotment : Int := 0
  share : Int := 0
  pid : Int := 0
  multi_threaded : Bool := false
  tid : Int := 0
  num_thread : Int := 0
  ret_val : Nat → Int := fun _ => 0
  threads : Nat → Option Slot := fun _ => none
  first_scheduled : Bool := false
  master_thread : Option Slot := none
  from_trap : Bool := false

/-- Where a process stands between two steps. -/
inductive Cont where
  /-- never run: its context enters `forkret` -/
  | forkret
  | user
  /-- `allocproc`, for `fork` or for `thread_create`: slot marked `EMBRYO`,
  `kalloc` not yet called -/
  | allocStack (thread : Bool) (np : Slot)
  /-- `allocproc`: fields set, not yet enqueued -/
  | allocEnqueue (thread : Bool) (np : Slot)
  /-- `fork`: `allocproc` returned `np` -/
  | forkCopy (np : Slot)
  /-- `fork`: child built, not yet `RUNNABLE` -/
  | forkPublish (np : Slot)
  /-- `thread_create`: `allocproc` returned `nt` -/
  | threadShare (nt : Slot)
  /-- `thread_create`: thread built, not yet in `threads` -/
  | threadPublish (nt : Slot)
  /-- `sys_yield`: `from_trap` cleared, `yield` not yet entered -/
  | yieldCall
  /-- inside a `sleep` that was called with another lock than `ptable.lock` -/
  | asleep
  /-- inside the `sleep` of `wait` -/
  | waiting
  deriving DecidableEq, Repr

inductive Fault where
  | panic (msg : String)
  /-- an array is accessed outside, or a null pointer is followed -/
  | wild
  | divZero
  /-- the action cannot happen in this state -/
  | blocked
  deriving DecidableEq, Repr

/-- The spinlock that is passed to `sleep`. -/
inductive Spinlock where
  | ptable
  | other
  deriving DecidableEq, Repr

/-- A call of `freevm`. -/
structure Freed where
  dir : Nat
  /-- another slot that is neither unused nor a zombie has this `pgdir` -/
  shared : Bool
  deriving DecidableEq, Repr

/-- How the allocations of a step go. -/
inductive Outcome where
  | ok
  /-- `setupkvm` fails, or in `exec` something before it -/
  | noDir
  /-- `copyuvm` or `allocuvm` runs out of memory; in `exec`, what is loaded is bad -/
  | noMem
  /-- `copyout` fails -/
  | noCopy
  deriving DecidableEq, Repr

structure State where
  /-- `ptable.proc` -/
  proc : Slot → Proc
  cont : Slot → Cont
  /-- `ptable.ARRAYQUEUE` with `ptable.q_size` -/
  ARRAYQUEUE : Level → SizedArray Ptr NPROC
  MLFQ_ticks : Nat
  /-- `cpus[c].proc` -/
  cur : Nat → Option Slot
  /-- `cpus[c].ncli` -/
  ncli : Nat → Nat
  /-- the CPU that holds `ptable.lock` -/
  lock : Option Nat
  initproc : Slot
  nextpid : Int
  /-- the number of the next page directory -/
  nextDir : Nat
  /-- the number of the next kernel stack -/
  nextStack : Nat
  freed : List Freed
  kfreed : List Nat
  /-- the kernel stacks that `allocproc` got for `thread_create` -/
  workerStacks : List Nat
  /-- results of system calls -/
  ret : Slot → Int
  /-- what was last stored through a pointer argument -/
  out : Slot → Int

/-- Live slots: neither free nor a zombie. -/
def Proc.Live (p : Proc) : Prop := p.state ≠ .UNUSED ∧ p.state ≠ .ZOMBIE

instance (p : Proc) : Decidable p.Live := inferInstanceAs (Decidable (_ ∧ _))

/-- `threads[i]`, as a pointer to follow. -/
def Proc.thread (p : Proc) (i : Int) : Except Fault Slot :=
  if 0 ≤ i ∧ i < NTHREAD then
    match p.threads i.toNat with
    | some t => .ok t
    | none => .error .wild
  else .error .wild

/-- A process pointer used as a channel. -/
def chanOf : Option Slot → Chan
  | some i => .proc i
  | none => .null

/-- An array access, or the fault it is when the index is outside. -/
def orWild {α : Type} : Option α → Except Fault α
  | some a => .ok a
  | none => .error .wild

theorem level_lt {lev : Int} (h : 0 ≤ lev ∧ lev < Sched.DEPTH_QUEUE) :
    lev.toNat < Sched.DEPTH_QUEUE := by omega

/-- `lev` as an index into `ARRAYQUEUE` and `q_size`. -/
def level (lev : Int) : Except Fault Level :=
  if h : 0 ≤ lev ∧ lev < Sched.DEPTH_QUEUE then .ok ⟨lev.toNat, level_lt h⟩ else .error .wild

/-- `time_quantom[lev]`; entry `STRIDE_LEV` as `scheduler` fills it in. -/
def time_quantom (lev : Int) : Except Fault Int :=
  if 0 ≤ lev ∧ lev < 10 then
    .ok (if lev = 0 then 5 else if lev = 1 then 10 else if lev = 2 then 20
      else if lev = Sched.STRIDE_LEV then Sched.STRIDE_DEFAULT_TIME_QUANTOM else 0)
  else .error .wild

/-- `time_allotment[lev]`; entry `STRIDE_LEV` as `scheduler` fills it in. -/
def time_allotment (lev : Int) : Except Fault Int :=
  if 0 ≤ lev ∧ lev < 10 then
    .ok (if lev = 0 then 20 else if lev = 1 then 40
      else if lev = Sched.STRIDE_LEV then Sched.STRIDE_DEFAULT_TIME_QUANTOM else 0)
  else .error .wild

namespace State

variable (s : State)

/-- Update the fields of slot `i`. -/
def set (i : Slot) (f : Proc → Proc) : State :=
  { s with proc := Function.update s.proc i (f (s.proc i)) }

/-- Replace one level of `ARRAYQUEUE` with its size. -/
def setQueue (l : Level) (q : SizedArray Ptr NPROC) : State :=
  { s with ARRAYQUEUE := Function.update s.ARRAYQUEUE l q }

def setCont (i : Slot) (k : Cont) : State := { s with cont := Function.update s.cont i k }

def setCur (c : Nat) (p : Option Slot) : State := { s with cur := Function.update s.cur c p }

/-- The system call of `i` returns `v`. -/
def sysret (i : Slot) (v : Int) : State :=
  { s.setCont i .user with ret := Function.update s.ret i v }

/-- First slot of the table that satisfies `f`. -/
def findSlot (f : Proc → Bool) : Option Slot := (List.finRange NPROC).find? fun i => f (s.proc i)

@[simp] theorem set_proc (i : Slot) (f : Proc → Proc) :
    (s.set i f).proc = Function.update s.proc i (f (s.proc i)) := rfl
@[simp] theorem set_cont (i : Slot) (f : Proc → Proc) : (s.set i f).cont = s.cont := rfl
@[simp] theorem set_cur (i : Slot) (f : Proc → Proc) : (s.set i f).cur = s.cur := rfl
@[simp] theorem set_ncli (i : Slot) (f : Proc → Proc) : (s.set i f).ncli = s.ncli := rfl
@[simp] theorem set_lock (i : Slot) (f : Proc → Proc) : (s.set i f).lock = s.lock := rfl

@[simp] theorem setCont_proc (i : Slot) (k : Cont) : (s.setCont i k).proc = s.proc := rfl
@[simp] theorem setCont_cont (i : Slot) (k : Cont) :
    (s.setCont i k).cont = Function.update s.cont i k := rfl
@[simp] theorem setCont_cur (i : Slot) (k : Cont) : (s.setCont i k).cur = s.cur := rfl
@[simp] theorem setCont_ncli (i : Slot) (k : Cont) : (s.setCont i k).ncli = s.ncli := rfl
@[simp] theorem setCont_lock (i : Slot) (k : Cont) : (s.setCont i k).lock = s.lock := rfl

@[simp] theorem setCur_proc (c : Nat) (p : Option Slot) : (s.setCur c p).proc = s.proc := rfl
@[simp] theorem setCur_cont (c : Nat) (p : Option Slot) : (s.setCur c p).cont = s.cont := rfl
@[simp] theorem setCur_cur (c : Nat) (p : Option Slot) :
    (s.setCur c p).cur = Function.update s.cur c p := rfl

@[simp] theorem sysret_proc (i : Slot) (v : Int) : (s.sysret i v).proc = s.proc := rfl
@[simp] theorem sysret_cont (i : Slot) (v : Int) :
    (s.sysret i v).cont = Function.update s.cont i .user := rfl
@[simp] theorem sysret_cur (i : Slot) (v : Int) : (s.sysret i v).cur = s.cur := rfl
@[simp] theorem sysret_ncli (i : Slot) (v : Int) : (s.sysret i v).ncli = s.ncli := rfl
@[simp] theorem sysret_lock (i : Slot) (v : Int) : (s.sysret i v).lock = s.lock := rfl

end State

/-- A field that an update of a slot leaves alone. -/
theorem update_keep {β : Type} (F : Proc → β) {g : Slot → Proc} {i : Slot} {p : Proc}
    (h : F p = F (g i)) (j : Slot) : F (Function.update g i p j) = F (g j) := by
  by_cases hj : j = i
  · subst hj; simp [h]
  · simp [hj]

end Xv6.Threads
