import Xv6.Threads.Proc
import Xv6.Lib.Run

/-!
# Threads: the kernel functions and their interleaving

`proc.c`, the timer branch of `trap.c`, `sysproc.c`, `spinlock.c` and the end of
`exec.c` of project 2. A section under `ptable.lock` is one step of the CPU that
runs it, and so are the part of a system call between two such sections and the
timer interrupt up to its return or to `sched`.
-/

namespace Xv6.Threads

open Lib
open Sched (NPROC Slot Level ProcState Ptr Chan int32)

/-- The level after a `yield`. -/
def Proc.nextLev (p : Proc) : Int :=
  if p.time_allotment = 0 ∧ p.lev ≠ Sched.DEPTH_QUEUE - 1 then p.lev + 1 else p.lev

namespace State

variable (s : State)

/-! ## Locks -/

def pushcli (c : Nat) : State := { s with ncli := Function.update s.ncli c (s.ncli c + 1) }

def popcli (c : Nat) : Except Fault State :=
  if s.ncli c = 0 then .error (.panic "popcli")
  else .ok { s with ncli := Function.update s.ncli c (s.ncli c - 1) }

/-- `acquire(&ptable.lock)`; while another CPU holds the lock it spins. -/
def acquire (c : Nat) : Except Fault State :=
  match s.lock with
  | none => .ok { s.pushcli c with lock := some c }
  | some d => .error (if d = c then .panic "acquire" else .blocked)

/-- `release(&ptable.lock)`. -/
def release (c : Nat) : Except Fault State :=
  if s.lock = some c then { s with lock := none }.popcli c else .error (.panic "release")

/-- `sched`, and what `scheduler` does when it is switched to. -/
def sched (c : Nat) (i : Slot) : Except Fault State :=
  if s.lock ≠ some c then .error (.panic "sched ptable.lock")
  else if s.ncli c ≠ 1 then .error (.panic "sched locks")
  else if (s.proc i).state = .RUNNING then .error (.panic "sched running")
  else (s.setCur c none).release c

/-- `sleep(chan, lk)`, up to `sched`; `none` is a null `lk`. -/
def sleep (c : Nat) (i : Slot) (chan : Chan) : Option Spinlock → Except Fault State
  | none => .error (.panic "sleep without lk")
  | some lk => do
    let s ← if lk = .ptable then pure s else do
      let s ← s.acquire c
      s.popcli c
    (s.set i fun p => { p with chan := chan, state := .SLEEPING }).sched c i

/-- A system call that sleeps on `chan` with a lock of its own. -/
def sleepOn (c : Nat) (i : Slot) (chan : Chan) : Except Fault State :=
  ((s.pushcli c).setCont i .asleep).sleep c i chan (some .other)

def wakeup1 (c : Chan) : State :=
  { s with proc := fun i =>
      if (s.proc i).state = .SLEEPING ∧ (s.proc i).chan = c
      then { s.proc i with state := .RUNNABLE } else s.proc i }

def wakeup (c : Nat) (chan : Chan) : Except Fault State := do
  let s ← s.acquire c
  (s.wakeup1 chan).release c

/-! ## Queues -/

/-- `ARRAYQUEUE[lev][++q_size[lev]] = p`. -/
def enqueue (i : Slot) (lev : Int) : Except Fault State := do
  let l ← level lev
  let q ← orWild ((s.ARRAYQUEUE l).push (.slot i))
  return s.setQueue l q

/-- The loop that removes `p` from `ARRAYQUEUE[lev]`; `yield` has no `break`. -/
def dequeue (brk : Bool) (i : Slot) (lev : Int) : Except Fault State := do
  let l ← level lev
  let q ← orWild ((s.ARRAYQUEUE l).remove brk (.slot i))
  return s.setQueue l q

/-- Every slot of the table to level 0, its allotment refilled. -/
def boost (c : Nat) : Except Fault State := do
  let s ← s.acquire c
  { s with proc := fun i => { s.proc i with lev := 0, time_allotment := 20 } }.release c

/-! ## Page directories and kernel stacks -/

/-- `freevm(d)`, called for slot `i`. -/
def freevm (i : Slot) (d : Nat) : Except Fault State :=
  if d = 0 then .error (.panic "freevm: no pgdir")
  else .ok { s with freed := s.freed ++
    [⟨d, (List.finRange NPROC).any fun j => j ≠ i ∧ (s.proc j).Live ∧ (s.proc j).pgdir = d⟩] }

/-- `setupkvm`. -/
def setupkvm : State × Nat := ({ s with nextDir := s.nextDir + 1 }, s.nextDir)

/-- `kfree` of a kernel stack. -/
def kfree (d : Nat) : Except Fault State :=
  if d = 0 then .error (.panic "kfree") else .ok { s with kfreed := s.kfreed ++ [d] }

/-! ## Creating processes and threads -/

/-- `allocproc` up to its first `release`; without a free slot the caller, `fork`
or `thread_create`, returns `-1`. -/
def allocproc (c : Nat) (i : Slot) (thread : Bool) : Except Fault State := do
  let s ← s.acquire c
  match s.findSlot fun p => p.state = .UNUSED with
  | none =>
    let s ← s.release c
    return s.sysret i (-1)
  | some np =>
    let s := { s.set np (fun p => { p with state := .EMBRYO, pid := s.nextpid }) with
      nextpid := int32 (s.nextpid + 1) }
    let s ← s.release c
    return s.setCont i (.allocStack thread np)

/-- The slot is given back, and `-1` returned. -/
def allocFail (i np : Slot) : State :=
  (s.set np fun p => { p with kstack := 0, state := .UNUSED }).sysret i (-1)

/-- The field assignments of `allocproc` after `kalloc` succeeded. -/
def allocInit (thread : Bool) (np : Slot) : State :=
  { s.set np (fun p => { p with
      kstack := s.nextStack, multi_threaded := false, num_thread := 0,
      lev := Sched.INITIAL_LEV, time_allotment := 20, share := 0,
      first_scheduled := false, master_thread := some np, tid := 0 }) with
    nextStack := s.nextStack + 1
    workerStacks := if thread then s.workerStacks ++ [s.nextStack] else s.workerStacks }

/-- `kalloc` for the kernel stack. -/
def kalloc (i : Slot) (thread : Bool) (np : Slot) (ok : Bool) : State :=
  if ok then (s.allocInit thread np).setCont i (.allocEnqueue thread np) else s.allocFail i np

/-- The last section of `allocproc`: the new slot enters level 0. -/
def allocEnqueue (c : Nat) (i : Slot) (thread : Bool) (np : Slot) : Except Fault State := do
  let s ← s.acquire c
  let s ← s.enqueue np 0
  let s ← s.release c
  return s.setCont i (if thread then .threadShare np else .forkCopy np)

/-- `fork` from `copyuvm` to its last section: the child's page directory is a copy. -/
def forkCopy (i np : Slot) : Outcome → Except Fault State
  | .ok =>
    let (s, d) := s.setupkvm
    .ok ((s.set np fun p => { p with
      pgdir := d, parent := some i, num_thread := 0, tid := 0 }).setCont i (.forkPublish np))
  | .noDir => do
    let s ← (s.set np fun p => { p with pgdir := 0 }).kfree (s.proc np).kstack
    return s.allocFail i np
  | .noMem => do
    let (s, d) := s.setupkvm
    let s ← s.freevm np d
    let s ← (s.set np fun p => { p with pgdir := 0 }).kfree (s.proc np).kstack
    return s.allocFail i np
  | .noCopy => .error .blocked

/-- The last section of `fork`. -/
def forkPublish (c : Nat) (i np : Slot) : Except Fault State := do
  let s ← s.acquire c
  let s := (s.set np fun p => { p with state := .RUNNABLE }).setCont np .forkret
  let s ← s.release c
  return s.sysret i (s.proc np).pid

/-- `thread_create` up to its last section: the thread shares the page directory. -/
def threadShare (i nt : Slot) : Outcome → Except Fault State
  | .ok =>
    .ok ((s.set nt fun p => { p with
      multi_threaded := true, master_thread := some i, chan := .null, killed := false,
      num_thread := -1, pgdir := (s.proc i).pgdir }).setCont i (.threadPublish nt))
  | .noMem => .error (.panic "allocuvm")
  | .noCopy => .error (.panic "copyout")
  | .noDir => .error .blocked

/-- The last section of `thread_create`: the thread enters the table of its
master, and its index there is its handle. -/
def threadPublish (c : Nat) (i nt : Slot) : Except Fault State := do
  let s ← s.acquire c
  let n := (s.proc i).num_thread + 1
  if 0 ≤ n ∧ n < NTHREAD then
    let s := s.set i fun p => { p with
      multi_threaded := true, num_thread := n
      threads := Function.update (Function.update p.threads 0 (some i)) n.toNat (some nt) }
    let s := (s.set nt fun p => { p with tid := n, state := .RUNNABLE }).setCont nt .forkret
    let s ← s.release c
    return { s.sysret i 0 with out := Function.update s.out i n }
  else .error .wild

/-! ## Giving up the CPU -/

/-- The charge of `yield`: a call that does not come from `trap` costs a tick. -/
def charge (i : Slot) : State :=
  if (s.proc i).from_trap then s
  else s.set i fun p => { p with time_allotment := int32 (p.time_allotment - 1) }

/-- The queue adjustment of `yield`, for MLFQ and for stride processes. -/
def adjust (i : Slot) : Except Fault State :=
  let p := s.proc i
  if p.share = 0 then do
    let lev_pre := p.lev
    let lev_now := p.nextLev
    let s := s.set i fun p => { p with lev := lev_now }
    let s ← s.dequeue false i lev_pre
    let s ← s.enqueue i lev_now
    if lev_now ≠ lev_pre then do
      let a ← time_allotment lev_now
      return s.set i fun p => { p with time_allotment := a }
    else return s
  else do
    let a ← time_allotment p.lev
    return s.set i fun p => { p with time_allotment := a }

/-- `yield`, up to `sched`. A thread first releases a lock. -/
def yield (c : Nat) (i : Slot) : Except Fault State := do
  let s ← if (s.proc i).tid ≠ 0 then s.release c else pure s
  let s ← s.acquire c
  let s ← ((s.set i fun p => { p with state := .RUNNABLE }).charge i).adjust i
  s.sched c i

/-! ## CPU share -/

/-- `set_cpu_share`; `room` says whether the MLFQ entry can give up the share. A
thread's call is made for its parent. -/
def set_cpu_share (c : Nat) (i : Slot) (share : Int) (room : Bool) : Except Fault State :=
  if !room ∨ share < 0 then .ok (s.sysret i (-1))
  else do
    let s ← s.acquire c
    match if (s.proc i).tid ≠ 0 then (s.proc i).parent else some i with
    | none => .error .wild
    | some p =>
      let s := s.set p fun p => { p with share := share }
      let s ← s.dequeue true p (s.proc p).lev
      let s ← (s.set p fun p => { p with
        lev := Sched.STRIDE_LEV,
        time_allotment := Sched.STRIDE_DEFAULT_TIME_QUANTOM }).release c
      return s.sysret i 1

/-! ## Exit and wait -/

/-- Pass abandoned children to init, and wake it if one of them is a zombie. -/
def reparent (i : Slot) : State :=
  let s' := { s with proc := fun j =>
    if (s.proc j).parent = some i then { s.proc j with parent := some s.initproc } else s.proc j }
  if (s.findSlot fun p => p.parent = some i ∧ p.state = .ZOMBIE).isSome
  then s'.wakeup1 (.proc s.initproc) else s'

/-- The locked section of `exit`. -/
def exit (c : Nat) (i : Slot) : Except Fault State :=
  if i = s.initproc then .error (.panic "init exiting")
  else do
    let s ← s.acquire c
    -- Parent might be sleeping in wait().
    let s := (s.wakeup1 (chanOf (s.proc i).parent)).reparent i
    let s ← if (s.proc i).share = 0 then s.dequeue true i (s.proc i).lev else pure s
    (s.set i fun p => { p with state := .ZOMBIE }).sched c i

/-- `wait` frees zombie `z`. -/
def reap (c : Nat) (i z : Slot) : Except Fault State := do
  let pid := (s.proc z).pid
  let s ← s.kfree (s.proc z).kstack
  let s := s.set z fun p => { p with kstack := 0 }
  let s ← s.freevm z (s.proc z).pgdir
  let s ← (s.set z fun p => { p with
    pid := 0, parent := none, killed := false, state := .UNUSED }).release c
  return s.sysret i pid

/-- The loop of `wait`, up to its return or its `sleep`. -/
def waitLoop (c : Nat) (i : Slot) : Except Fault State :=
  match s.findSlot fun p => p.parent = some i ∧ p.state = .ZOMBIE with
  | some z => s.reap c i z
  | none =>
    if (s.findSlot fun p => p.parent = some i).isNone ∨ (s.proc i).killed then do
      let s ← s.release c
      return s.sysret i (-1)
    else (s.setCont i .waiting).sleep c i (.proc i) (some .ptable)

def wait (c : Nat) (i : Slot) : Except Fault State := do
  let s ← s.acquire c
  s.waitLoop c i

def kill (c : Nat) (i : Slot) (pid : Int) : Except Fault State := do
  let s ← s.acquire c
  match s.findSlot fun p => p.pid = pid with
  | some j =>
    let s ← (s.set j fun p => { p with
      killed := true, state := if p.state = .SLEEPING then .RUNNABLE else p.state }).release c
    return s.sysret i 0
  | none =>
    let s ← s.release c
    return s.sysret i (-1)

/-! ## Exec -/

/-- `exec`: the new image in a new page directory, then the old one is freed. -/
def exec (i : Slot) : Outcome → Except Fault State
  | .ok => do
    let (s, d) := s.setupkvm
    let oldpgdir := (s.proc i).pgdir
    let s ← (s.set i fun p => { p with pgdir := d }).freevm i oldpgdir
    return s.sysret i 0
  | .noDir => .ok (s.sysret i (-1))
  | .noMem | .noCopy => do
    let (s, d) := s.setupkvm
    let s ← s.freevm i d
    return s.sysret i (-1)

/-! ## Thread exit and join -/

/-- One iteration of the loop of `thread_exit`: thread `k` of `m` passes to init. -/
def adopt (m : Slot) (k : Nat) : Except Fault State := do
  let t ← (s.proc m).thread k
  let s := s.set t fun p => { p with parent := some s.initproc }
  return if (s.proc t).state = .ZOMBIE then s.wakeup1 (.proc s.initproc) else s

/-- `thread_exit`; `word` is `*(int*)retval`, which is what it keeps. -/
def thread_exit (c : Nat) (i : Slot) (word : Int) : Except Fault State :=
  if (s.proc i).tid = 0 then .error (.panic "master thread calling thread_exit\n")
  else do
    let s ← s.acquire c
    match (s.proc i).master_thread with
    | none => .error .wild
    | some m =>
      let s := s.wakeup1 (.proc m)
      let s ← (List.range ((s.proc m).num_thread + 1).toNat).foldlM (fun s k => s.adopt m k) s
      let s := s.set i fun p => { p with state := .ZOMBIE }
      let tid := (s.proc i).tid
      if 0 ≤ tid ∧ tid < NTHREAD then
        let s := s.set m fun p => { p with ret_val := Function.update p.ret_val tid.toNat word }
        (s.wakeup1 (chanOf (s.proc i).parent)).sched c i
      else .error .wild

/-- One iteration of the loop of `thread_join` that closes the gap at a joined thread. -/
def shift (i : Slot) (j : Nat) : Except Fault State := do
  let t ← (s.proc i).thread (j + 1)
  let s := s.set i fun p => { p with
    threads := Function.update p.threads j (some t)
    ret_val := Function.update p.ret_val j (p.ret_val (j + 1)) }
  return s.set t fun p => { p with tid := j }

/-- `thread_join` once it has found thread `t` a zombie. -/
def joinZombie (c : Nat) (i t : Slot) (threadid : Int) : Except Fault State := do
  let s ← s.kfree (s.proc t).kstack
  let s := { s with out := Function.update s.out i ((s.proc i).ret_val threadid.toNat) }
  let s := s.set i fun p => { p with num_thread := p.num_thread - 1 }
  let n := ((s.proc i).num_thread - threadid).toNat
  let s ← (List.range' threadid.toNat n).foldlM (fun s j => s.shift i j) s
  let s := if (s.proc i).num_thread = 0
    then s.set i fun p => { p with multi_threaded := false } else s
  s.release c

def thread_join (c : Nat) (i : Slot) (threadid : Int) : Except Fault State :=
  if (s.proc i).tid ≠ 0 then .error (.panic "working thread calling join\n")
  else do
    let t ← (s.proc i).thread threadid
    let s ← if (s.proc t).state = .ZOMBIE then pure s else do
      let s ← s.sleep c i (.proc i) none
      s.acquire c
    let lookup ← (s.proc i).thread threadid
    let s ← if (s.proc lookup).state = .ZOMBIE then s.joinZombie c i lookup threadid else pure s
    return s.sysret i 0

/-! ## Scheduling -/

/-- The first run of a process. -/
def forkret (c : Nat) (i : Slot) : Except Fault State := do
  let s ← if (s.proc i).multi_threaded ∧ (s.proc i).first_scheduled then
      (s.set i fun p => { p with first_scheduled := false }).acquire c
    else pure s
  -- Still holding ptable.lock from scheduler.
  let s ← s.release c
  return s.setCont i .user

/-- `sleep` after `sched` returned to it, with a lock that is not `ptable.lock`;
the system call then releases that lock. -/
def awake (c : Nat) (i : Slot) : Except Fault State := do
  let s ← (s.set i fun p => { p with chan := .null }).release c
  let s ← (s.pushcli c).popcli c
  return s.setCont i .user

/-- `scheduler` switches to a process, which runs until it has released the lock. -/
def schedule (c : Nat) (i : Slot) : Except Fault State :=
  if s.cur c ≠ none ∨ (s.proc i).state ≠ .RUNNABLE then .error .blocked
  else do
    let s ← s.acquire c
    let s := (s.set i fun p => { p with first_scheduled := true, state := .RUNNING }).setCur c (some i)
    match s.cont i with
    | .forkret => s.forkret c i
    | .asleep => s.awake c i
    | .waiting => (s.set i fun p => { p with chan := .null }).waitLoop c i
    | _ => s.release c

/-! ## Timer interrupt -/

/-- A tick of an MLFQ process is counted. -/
def countTick (i : Slot) : State :=
  if (s.proc i).share = 0 then { s with MLFQ_ticks := (s.MLFQ_ticks + 1) % 2 ^ 32 } else s

/-- The timer branch of `trap` up to the test for boosting and the boost. -/
def boosted (c : Nat) (i : Slot) : Except Fault State :=
  if (s.countTick i).MLFQ_ticks % Sched.PERIOD_BOOSTING = 0 then (s.countTick i).boost c
  else .ok (s.countTick i)

/-- The timer branch of `trap` for process `i`. -/
def preempt (c : Nat) (i : Slot) : Except Fault State := do
  let s ← s.boosted c i
  if (s.proc i).multi_threaded then return s
  else
    let s := s.set i fun p => { p with time_allotment := int32 (p.time_allotment - 1) }
    let q ← time_quantom (s.proc i).lev
    if q = 0 then .error .divZero
    else if (s.proc i).time_allotment.tmod q ≠ 0 then return s
    else (s.set i fun p => { p with from_trap := true }).yield c i

/-- `trap` on a timer interrupt, after the clock; `user` says whether it came
from user mode. -/
def trap (c : Nat) (user : Bool) : Except Fault State :=
  match s.cur c with
  | none => .ok s
  | some i =>
    if (s.proc i).killed ∧ user then s.exit c i
    else if (s.proc i).state = .RUNNING then s.preempt c i
    else .ok s

/-- A timer interrupt: CPU 0 keeps the clock. -/
def timer (c : Nat) (user : Bool) : Except Fault State :=
  if c = 0 then do
    let s ← s.wakeup c .ticks
    s.trap c user
  else s.trap c user

end State

/-! ## Steps -/

/-- What the process on a CPU does next. -/
inductive Call where
  | fork
  | thread_create
  | kalloc (ok : Bool)
  | allocEnqueue
  | forkCopy (o : Outcome)
  | forkPublish
  | threadShare (o : Outcome)
  | threadPublish
  | exec (o : Outcome)
  | exit
  | wait
  | kill (pid : Int)
  | sysYield
  | yield
  | set_cpu_share (share : Int) (room : Bool)
  | sleep (chan : Chan)
  | thread_exit (word : Int)
  | thread_join (threadid : Int)
  deriving DecidableEq, Repr

inductive Action where
  /-- an idle CPU takes a process -/
  | schedule (c : Nat) (i : Slot)
  /-- timer interrupt, from user mode or not -/
  | timer (c : Nat) (user : Bool)
  /-- `wakeup` by the running process or by a device interrupt -/
  | wakeup (c : Nat) (chan : Chan)
  | call (c : Nat) (a : Call)
  deriving DecidableEq, Repr

/-- What process `i`, standing at a point of its code, does on CPU `c`. -/
def stepProc (s : State) (c : Nat) (i : Slot) : Cont → Call → Except Fault State
  | .user, .fork => s.allocproc c i false
  | .user, .thread_create => s.allocproc c i true
  | .allocStack t np, .kalloc ok => .ok (s.kalloc i t np ok)
  | .allocEnqueue t np, .allocEnqueue => s.allocEnqueue c i t np
  | .forkCopy np, .forkCopy o => s.forkCopy i np o
  | .forkPublish np, .forkPublish => s.forkPublish c i np
  | .threadShare nt, .threadShare o => s.threadShare i nt o
  | .threadPublish nt, .threadPublish => s.threadPublish c i nt
  | .user, .exec o => s.exec i o
  | .user, .exit => s.exit c i
  | .user, .wait => s.wait c i
  | .user, .kill pid => s.kill c i pid
  | .user, .sysYield => .ok ((s.set i fun p => { p with from_trap := false }).setCont i .yieldCall)
  | .yieldCall, .yield => (s.setCont i .user).yield c i
  | .user, .set_cpu_share share room => s.set_cpu_share c i (int32 share) room
  | .user, .sleep chan => s.sleepOn c i chan
  | .user, .thread_exit word => s.thread_exit c i word
  | .user, .thread_join threadid => s.thread_join c i threadid
  | _, _ => .error .blocked

def step (s : State) : Action → Except Fault State
  | .schedule c i => s.schedule c i
  | .timer c user =>
    if user ∧ ∃ i ∈ s.cur c, s.cont i ≠ .user then .error .blocked else s.timer c user
  | .wakeup c chan => s.wakeup c chan
  | .call c a =>
    match s.cur c with
    | none => .error .blocked
    | some i => stepProc s c i (s.cont i) a

/-- After `userinit`: one process, with the first page directory and kernel stack. -/
def boot : State where
  proc := Function.update (fun _ => {}) 0
    { pgdir := 1, kstack := 1, state := .RUNNABLE, time_allotment := 20, pid := 1
      master_thread := some 0 }
  cont := Function.update (fun _ => .user) 0 .forkret
  ARRAYQUEUE l := if l = 0 then ⟨Function.update (fun _ => .null) 0 (.slot 0), 0⟩
    else ⟨fun _ => .null, -1⟩
  MLFQ_ticks := 0
  cur _ := none
  ncli _ := 0
  lock := none
  initproc := 0
  nextpid := 2
  nextDir := 2
  nextStack := 2
  freed := []
  kfreed := []
  workerStacks := []
  ret _ := 0
  out _ := 0

abbrev Reachable (G : State → Action → Prop) : State → Prop := Reach step G boot

end Xv6.Threads
