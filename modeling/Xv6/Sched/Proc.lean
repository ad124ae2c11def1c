import Mathlib
import Xv6.Lib.SizedArray

/-!
# Process table of the MLFQ + stride kernel

The data of `proc.h`, `proc.c` and `trap.c` of project 1 that scheduling reads
and writes: the slots of `ptable`, the three levels of `ARRAYQUEUE` with their
`q_size`, the stride table `stable` and the virtual `mlfq` process that
`scheduler` keeps on its stack. One CPU runs; `cur` is its `c->proc`.

An access outside an array, a null dereference and a division by zero are
faults. A faulting step has no successor state: what the machine does then is
not defined by the code.
-/

namespace Xv6.Sched

open Lib

def NPROC : Nat := 64

def MULTSTRIDESHARE : Int := 1000
def DEPTH_QUEUE : Nat := 3
def PERIOD_BOOSTING : Nat := 200
def STRIDE_DEFAULT_TIME_QUANTOM : Int := 5
def INITIAL_LEV : Int := 0
def STRIDE_LEV : Int := 9

/-- Conversion to a 32-bit `int`. -/
def int32 (x : Int) : Int := Int.bmod x (2 ^ 32)

theorem int32_of_range {x : Int} (h : -2 ^ 31 ≤ x ∧ x < 2 ^ 31) : int32 x = x := by
  unfold int32
  apply Int.bmod_eq_of_le <;> simp <;> omega

theorem int32_lt {x : Int} : int32 x < 2 ^ 31 := by
  have := Int.bmod_lt (x := x) (m := 2 ^ 32) (by decide)
  unfold int32
  omega

theorem le_int32 {x : Int} : -2 ^ 31 ≤ int32 x := by
  have := Int.le_bmod (x := x) (m := 2 ^ 32) (by decide)
  unfold int32
  omega

/-- Index of a slot of `ptable.proc`. -/
abbrev Slot := Fin NPROC

/-- Index of a level of `ARRAYQUEUE`. -/
abbrev Level := Fin DEPTH_QUEUE

instance : NeZero NPROC := ⟨by decide⟩
instance : NeZero DEPTH_QUEUE := ⟨by decide⟩

inductive ProcState where
  | UNUSED | EMBRYO | SLEEPING | RUNNABLE | RUNNING | ZOMBIE
  deriving DecidableEq, Repr

/-- A `struct proc *`: null, `scheduler`'s virtual process, or a slot. -/
inductive Ptr where
  | null
  | mlfq
  | slot (i : Slot)
  deriving DecidableEq, Repr

/-- A sleep channel: null, `&ticks`, a `struct proc *`, or any other address. -/
inductive Chan where
  | null
  | ticks
  | proc (i : Slot)
  | other (n : Nat)
  deriving DecidableEq, Repr

/-- A process pointer used as a channel. -/
def Ptr.chan : Ptr → Chan
  | .slot i => .proc i
  | _ => .null

structure Proc where
  state : ProcState := .UNUSED
  parent : Ptr := .null
  chan : Chan := .null
  killed : Bool := false
  first_scheduled : Bool := false
  from_trap : Bool := false
  start_tick : Nat := 0
  lev : Int := 0
  time_allotment : Int := 0
  share : Int := 0
  pass : Int := 0
  pid : Int := 0
  deriving DecidableEq, Repr

/-- Where a process stands between two steps. Apart from `user`, each is a
point inside a system call at which the process holds no lock and can be
preempted; `waitLoop` alone still holds `ptable.lock`. -/
inductive Cont where
  /-- in user code, or in a system call that has nothing to do with scheduling -/
  | user
  /-- `set_cpu_share`: range check passed, `ptable.lock` not yet acquired -/
  | setShare (entry : Ptr) (share : Int)
  /-- `allocproc`: slot marked `EMBRYO`, `kalloc` not yet called -/
  | allocStack (np : Slot)
  /-- `allocproc`: fields set, not yet enqueued -/
  | allocEnqueue (np : Slot)
  /-- `fork`: `allocproc` returned `np`, `copyuvm` not yet called -/
  | forkCopy (np : Slot)
  /-- `fork`: child built, not yet `RUNNABLE` -/
  | forkPublish (np : Slot)
  /-- `sys_yield`: `from_trap` cleared, `yield` not yet entered -/
  | yieldCall
  /-- inside `sleep` -/
  | asleep
  /-- inside the `sleep` of `wait` -/
  | waiting
  /-- back in the loop of `wait`, holding `ptable.lock` -/
  | waitLoop
  deriving DecidableEq, Repr

inductive Fault where
  | panic (msg : String)
  | nullDeref
  | divZero
  /-- `lev` used as an index outside the table it indexes -/
  | levRange
  /-- index outside a row of `ARRAYQUEUE` -/
  | queueRange
  /-- index outside `stable.proc` -/
  | stableRange
  /-- `switchuvm` on the virtual process, which has no page table -/
  | mlfqSwitch
  /-- the action cannot happen in this state -/
  | blocked
  deriving DecidableEq, Repr

structure Kernel where
  /-- `ptable.proc` -/
  proc : Slot → Proc
  /-- `ptable.ARRAYQUEUE` with `ptable.q_size` -/
  ARRAYQUEUE : Level → SizedArray Ptr NPROC
  /-- `stable.proc` with `stable.stable_size` -/
  stable : SizedArray Ptr NPROC
  /-- the virtual process on `scheduler`'s stack -/
  mlfq : Proc
  min_pass : Int
  initproc : Ptr
  nextpid : Int
  ticks : Nat
  MLFQ_ticks : Nat
  /-- `c->proc`; `none` while `scheduler` runs -/
  cur : Option Slot
  cont : Slot → Cont
  /-- the value the last system call of a process returned -/
  ret : Slot → Int

/-- `time_quantom[lev]`; entry `STRIDE_LEV` as `scheduler` fills it in. -/
def time_quantom (lev : Int) : Except Fault Int :=
  if 0 ≤ lev ∧ lev < 10 then
    .ok (if lev = 0 then 1 else if lev = 1 then 2 else if lev = 2 then 4
      else if lev = STRIDE_LEV then STRIDE_DEFAULT_TIME_QUANTOM else 0)
  else .error .levRange

/-- `time_allotment[lev]`; entry `STRIDE_LEV` as `scheduler` fills it in. -/
def time_allotment (lev : Int) : Except Fault Int :=
  if 0 ≤ lev ∧ lev < 10 then
    .ok (if lev = 0 then 5 else if lev = 1 then 10
      else if lev = STRIDE_LEV then STRIDE_DEFAULT_TIME_QUANTOM else 0)
  else .error .levRange

/-- `lev` as an index into `ARRAYQUEUE` and `q_size`. -/
def level (lev : Int) : Except Fault Level :=
  if h : 0 ≤ lev ∧ lev < DEPTH_QUEUE then .ok ⟨lev.toNat, by omega⟩ else .error .levRange

/-- An array access, or the fault it is when the index is outside. -/
def orFault {α : Type} (f : Fault) : Option α → Except Fault α
  | some a => .ok a
  | none => .error f

namespace Kernel

variable (k : Kernel)

def deref : Ptr → Except Fault Proc
  | .null => .error .nullDeref
  | .mlfq => .ok k.mlfq
  | .slot i => .ok (k.proc i)

/-- Update the fields of slot `i`. -/
def set (i : Slot) (f : Proc → Proc) : Kernel :=
  { k with proc := Function.update k.proc i (f (k.proc i)) }

/-- Update the fields of the process `p` points to. -/
def setPtr (f : Proc → Proc) : Ptr → Except Fault Kernel
  | .null => .error .nullDeref
  | .mlfq => .ok { k with mlfq := f k.mlfq }
  | .slot i => .ok (k.set i f)

/-- Replace one level of `ARRAYQUEUE` with its size. -/
def setQueue (l : Level) (q : SizedArray Ptr NPROC) : Kernel :=
  { k with ARRAYQUEUE := Function.update k.ARRAYQUEUE l q }

def setCont (i : Slot) (c : Cont) : Kernel := { k with cont := Function.update k.cont i c }

/-- System call of `i` returns `v`. -/
def sysret (i : Slot) (v : Int) : Kernel :=
  { k.setCont i .user with ret := Function.update k.ret i v }

@[simp] theorem set_proc (i : Slot) (f : Proc → Proc) :
    (k.set i f).proc = Function.update k.proc i (f (k.proc i)) := rfl
@[simp] theorem set_ARRAYQUEUE (i : Slot) (f : Proc → Proc) :
    (k.set i f).ARRAYQUEUE = k.ARRAYQUEUE := rfl
@[simp] theorem set_stable (i : Slot) (f : Proc → Proc) : (k.set i f).stable = k.stable := rfl
@[simp] theorem set_mlfq (i : Slot) (f : Proc → Proc) : (k.set i f).mlfq = k.mlfq := rfl
@[simp] theorem set_initproc (i : Slot) (f : Proc → Proc) :
    (k.set i f).initproc = k.initproc := rfl
@[simp] theorem set_MLFQ_ticks (i : Slot) (f : Proc → Proc) :
    (k.set i f).MLFQ_ticks = k.MLFQ_ticks := rfl
@[simp] theorem set_cur (i : Slot) (f : Proc → Proc) : (k.set i f).cur = k.cur := rfl
@[simp] theorem set_cont (i : Slot) (f : Proc → Proc) : (k.set i f).cont = k.cont := rfl

@[simp] theorem setQueue_proc (l : Level) (q : SizedArray Ptr NPROC) :
    (k.setQueue l q).proc = k.proc := rfl
@[simp] theorem setQueue_ARRAYQUEUE (l : Level) (q : SizedArray Ptr NPROC) :
    (k.setQueue l q).ARRAYQUEUE = Function.update k.ARRAYQUEUE l q := rfl
@[simp] theorem setQueue_stable (l : Level) (q : SizedArray Ptr NPROC) :
    (k.setQueue l q).stable = k.stable := rfl
@[simp] theorem setQueue_mlfq (l : Level) (q : SizedArray Ptr NPROC) :
    (k.setQueue l q).mlfq = k.mlfq := rfl
@[simp] theorem setQueue_cur (l : Level) (q : SizedArray Ptr NPROC) :
    (k.setQueue l q).cur = k.cur := rfl
@[simp] theorem setQueue_cont (l : Level) (q : SizedArray Ptr NPROC) :
    (k.setQueue l q).cont = k.cont := rfl
@[simp] theorem setQueue_set (l : Level) (q : SizedArray Ptr NPROC) (i : Slot) (f : Proc → Proc) :
    (k.setQueue l q).set i f = (k.set i f).setQueue l q := rfl

theorem set_set (i : Slot) (f g : Proc → Proc) : (k.set i f).set i g = k.set i fun p => g (f p) := by
  simp [set]

@[simp] theorem setCont_proc (i : Slot) (c : Cont) : (k.setCont i c).proc = k.proc := rfl
@[simp] theorem setCont_ARRAYQUEUE (i : Slot) (c : Cont) :
    (k.setCont i c).ARRAYQUEUE = k.ARRAYQUEUE := rfl
@[simp] theorem setCont_stable (i : Slot) (c : Cont) : (k.setCont i c).stable = k.stable := rfl
@[simp] theorem setCont_mlfq (i : Slot) (c : Cont) : (k.setCont i c).mlfq = k.mlfq := rfl
@[simp] theorem setCont_cur (i : Slot) (c : Cont) : (k.setCont i c).cur = k.cur := rfl
@[simp] theorem setCont_cont (i : Slot) (c : Cont) :
    (k.setCont i c).cont = Function.update k.cont i c := rfl

@[simp] theorem sysret_proc (i : Slot) (v : Int) : (k.sysret i v).proc = k.proc := rfl
@[simp] theorem sysret_ARRAYQUEUE (i : Slot) (v : Int) :
    (k.sysret i v).ARRAYQUEUE = k.ARRAYQUEUE := rfl
@[simp] theorem sysret_stable (i : Slot) (v : Int) : (k.sysret i v).stable = k.stable := rfl
@[simp] theorem sysret_mlfq (i : Slot) (v : Int) : (k.sysret i v).mlfq = k.mlfq := rfl
@[simp] theorem sysret_cur (i : Slot) (v : Int) : (k.sysret i v).cur = k.cur := rfl
@[simp] theorem sysret_cont (i : Slot) (v : Int) :
    (k.sysret i v).cont = Function.update k.cont i .user := rfl

end Kernel

end Xv6.Sched
