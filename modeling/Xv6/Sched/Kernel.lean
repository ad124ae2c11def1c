import Xv6.Sched.Proc
import Xv6.Lib.Run

/-!
# The kernel functions and their interleaving

`proc.c`, the timer branch of `trap.c` and `sysproc.c`, split where a process
can be preempted: a section under `ptable.lock` (interrupts are off), and the
timer interrupt up to its return or to `sched`, are single steps. What a system
call still has to do after such a point is its `Cont`.
-/

namespace Xv6.Sched

open Lib

namespace Kernel

/-! ## Queues and the stride table -/

/-- `ARRAYQUEUE[lev][++q_size[lev]] = p`. -/
def enqueue (k : Kernel) (i : Slot) (lev : Int) : Except Fault Kernel := do
  let l ← level lev
  let q ← orFault .queueRange ((k.ARRAYQUEUE l).push (.slot i))
  return k.setQueue l q

/-- The loop that removes `p` from `ARRAYQUEUE[lev]`; `yield` has no `break`. -/
def dequeue (brk : Bool) (k : Kernel) (i : Slot) (lev : Int) : Except Fault Kernel := do
  let l ← level lev
  let q ← orFault .queueRange ((k.ARRAYQUEUE l).remove brk (.slot i))
  return k.setQueue l q

/-- `stable.proc[i]`. -/
def entry (k : Kernel) (i : Int) : Except Fault Ptr := orFault .stableRange (k.stable.get? i)

/-! ## Wakeups, boosting -/

/-- Wake every slot sleeping on `c`. -/
def wakeup1 (k : Kernel) (c : Chan) : Kernel :=
  { k with proc := fun i =>
      if (k.proc i).state = .SLEEPING ∧ (k.proc i).chan = c
      then { k.proc i with state := .RUNNABLE } else k.proc i }

/-- Every slot of the table to level 0, its allotment refilled. -/
def boost (k : Kernel) : Kernel :=
  { k with proc := fun i => { k.proc i with lev := 0, time_allotment := 5 } }

/-- First slot of the table that satisfies `f`. -/
def findSlot (k : Kernel) (f : Proc → Bool) : Option Slot :=
  (List.finRange NPROC).find? fun i => f (k.proc i)

/-! ## Process creation -/

/-- `allocproc` up to its first `release`: an `UNUSED` slot becomes `EMBRYO`. -/
def allocproc (k : Kernel) : Option (Slot × Kernel) :=
  match k.findSlot fun p => p.state = .UNUSED with
  | none => none
  | some np =>
    some (np, { k.set np (fun p => { p with state := .EMBRYO, pid := k.nextpid }) with
      nextpid := int32 (k.nextpid + 1) })

/-- The field assignments of `allocproc` after `kalloc` succeeded. -/
def allocInit (k : Kernel) (np : Slot) : Kernel :=
  k.set np fun p => { p with
    lev := INITIAL_LEV, time_allotment := 5, start_tick := k.ticks,
    share := 0, pass := 0, first_scheduled := false }

/-- `fork`: the first section of `allocproc`, or `-1` when the table is full. -/
def fork (k : Kernel) (i : Slot) : Kernel :=
  match k.allocproc with
  | none => k.sysret i (-1)
  | some (np, k) => k.setCont i (.allocStack np)

/-- `kalloc` for the kernel stack: on failure the slot is given back. -/
def kalloc (k : Kernel) (i np : Slot) (ok : Bool) : Kernel :=
  if ok then (k.allocInit np).setCont i (.allocEnqueue np)
  else (k.set np fun p => { p with state := .UNUSED }).sysret i (-1)

/-- The last section of `allocproc`: the new slot enters level 0. -/
def allocEnqueue (k : Kernel) (i np : Slot) : Except Fault Kernel := do
  let k ← k.enqueue np 0
  return k.setCont i (.forkCopy np)

/-- `copyuvm` in `fork`: on failure the slot is given back; on success the child
gets its parent. -/
def copyuvm (k : Kernel) (i np : Slot) (ok : Bool) : Kernel :=
  if ok then (k.set np fun p => { p with parent := .slot i }).setCont i (.forkPublish np)
  else (k.set np fun p => { p with state := .UNUSED }).sysret i (-1)

/-- The last section of `fork`. -/
def forkPublish (k : Kernel) (i np : Slot) : Kernel :=
  (k.set np fun p => { p with state := .RUNNABLE }).sysret i (k.proc np).pid

/-! ## Giving up the CPU -/

/-- The charge of `yield`: a call that does not come from `trap` costs a tick. -/
def charge (k : Kernel) (i : Slot) : Kernel :=
  if (k.proc i).from_trap then k
  else k.set i fun p => { p with time_allotment := int32 (p.time_allotment - 1) }

/-- The level after a `yield`. -/
def Proc.nextLev (p : Proc) : Int :=
  if p.time_allotment = 0 ∧ p.lev ≠ DEPTH_QUEUE - 1 then p.lev + 1 else p.lev

/-- The queue adjustment of `yield`, for MLFQ and for stride processes. -/
def adjust (k : Kernel) (i : Slot) : Except Fault Kernel :=
  let p := k.proc i
  if p.share = 0 then do
    let lev_pre := p.lev
    let lev_now := Proc.nextLev p
    let k := k.set i fun p => { p with lev := lev_now }
    let k ← k.dequeue false i lev_pre
    let k ← k.enqueue i lev_now
    if lev_now ≠ lev_pre then do
      let a ← time_allotment lev_now
      return k.set i fun p => { p with time_allotment := a }
    else return k
  else do
    let a ← time_allotment p.lev
    return k.set i fun p => { p with time_allotment := a }

/-- `yield` by the running process `i`, up to `sched`. -/
def yield (k : Kernel) (i : Slot) : Except Fault Kernel := do
  let k ← ((k.set i fun p => { p with state := .RUNNABLE }).charge i).adjust i
  return { k with cur := none }

/-- `sleep` on `c` by the running process `i`, up to `sched`. -/
def sleep (k : Kernel) (i : Slot) (c : Chan) (cont : Cont) : Kernel :=
  { (k.set i fun p => { p with chan := c, state := .SLEEPING }).setCont i cont with cur := none }

/-- Pass abandoned children to init, and wake it if one of them is a zombie. -/
def reparent (k : Kernel) (i : Slot) : Kernel :=
  let k' := { k with proc := fun j =>
    if (k.proc j).parent = .slot i then { k.proc j with parent := k.initproc } else k.proc j }
  if (k.findSlot fun p => p.parent = .slot i ∧ p.state = .ZOMBIE).isSome
  then k'.wakeup1 k.initproc.chan else k'

/-- `exit` takes the process out of its queue, or out of the stride table with
its share given back to the MLFQ entry. -/
def unschedule (k : Kernel) (i : Slot) : Except Fault Kernel :=
  if (k.proc i).share = 0 then k.dequeue true i (k.proc i).lev
  else do
    let st ← orFault .stableRange (k.stable.remove true (.slot i))
    let k' := { k with stable := st }
    let e ← k'.entry 0
    k'.setPtr (fun m => { m with share := int32 (m.share + (k.proc i).share) }) e

/-- The locked section of `exit`, up to `sched`. -/
def exit (k : Kernel) (i : Slot) : Except Fault Kernel :=
  if k.initproc = .slot i then .error (.panic "init exiting")
  else do
    -- Parent might be sleeping in wait().
    let k ← ((k.wakeup1 (k.proc i).parent.chan).reparent i).unschedule i
    return { k.set i (fun p => { p with state := .ZOMBIE }) with cur := none }

/-- One pass of the loop of `wait`: reap a zombie child, give up, or sleep. -/
def wait (k : Kernel) (i : Slot) : Kernel :=
  match k.findSlot fun p => p.parent = .slot i ∧ p.state = .ZOMBIE with
  | some j =>
    (k.set j fun p => { p with pid := 0, parent := .null, killed := false, state := .UNUSED }).sysret
      i (k.proc j).pid
  | none =>
    if (k.findSlot fun p => p.parent = .slot i).isNone ∨ (k.proc i).killed
    then k.sysret i (-1)
    else k.sleep i (.proc i) .waiting

def kill (k : Kernel) (i : Slot) (pid : Int) : Kernel :=
  match k.findSlot fun p => p.pid = pid with
  | some j => (k.set j fun p => { p with
      killed := true, state := if p.state = .SLEEPING then .RUNNABLE else p.state }).sysret i 0
  | none => k.sysret i (-1)

/-! ## CPU share -/

/-- `set_cpu_share` before it acquires `ptable.lock`: the range check. -/
def set_cpu_share (k : Kernel) (i : Slot) (share : Int) : Except Fault Kernel := do
  let e ← k.entry 0
  let m ← k.deref e
  if int32 (m.share - share) < 20 ∨ share < 0 then return k.sysret i (-1)
  else return k.setCont i (.setShare e share)

/-- The locked section of `set_cpu_share`. -/
def setShareLocked (k : Kernel) (i : Slot) (e : Ptr) (share : Int) : Except Fault Kernel := do
  let st ← orFault .stableRange (k.stable.push (.slot i))
  let k := { k with stable := st }
  let k ← k.setPtr (fun m => { m with share := int32 (m.share - share) }) e
  let k := k.set i fun p => { p with share := share, pass := k.min_pass }
  -- dequeue from q
  let k ← k.dequeue true i (k.proc i).lev
  -- clear variables associated to MLFQ
  let k := k.set i fun p => { p with
    lev := STRIDE_LEV, time_allotment := STRIDE_DEFAULT_TIME_QUANTOM }
  return k.sysret i 1

/-! ## Scheduler -/

/-- The search for the smallest pass: `n` entries left, from index `i`. -/
def minIndex (k : Kernel) : Nat → Nat → Nat → Except Fault Nat
  | 0, _, m => .ok m
  | n + 1, i, m => do
    let p ← k.deref (← k.entry i)
    if p.state ≠ .RUNNABLE then k.minIndex n (i + 1) m
    else do
      let q ← k.deref (← k.entry m)
      k.minIndex n (i + 1) (if p.pass < q.pass then i else m)

/-- The scan of one level: `n` entries left, from index `j`. The loop variable
`p` keeps the last entry looked at when nothing is found. -/
def scanLevel (k : Kernel) (l : Level) : Nat → Nat → Ptr → Except Fault (Bool × Ptr)
  | 0, _, p => .ok (false, p)
  | n + 1, j, _ => do
    let p ← orFault .queueRange ((k.ARRAYQUEUE l).get? j)
    let q ← k.deref p
    if q.state ≠ .RUNNABLE then k.scanLevel l n (j + 1) p
    else if q.share ≠ 0 then k.scanLevel l n (j + 1) p
    else return (true, p)

def scanQueues (k : Kernel) : List Level → Ptr → Except Fault Ptr
  | [], p => .ok p
  | l :: ls, p => do
    let (found, p) ← k.scanLevel l ((k.ARRAYQUEUE l).last + 1).toNat 0 p
    if found then return p else k.scanQueues ls p

/-- What a process does under `ptable.lock` when `sched` returns to it. -/
def resume (k : Kernel) (i : Slot) : Kernel :=
  match k.cont i with
  | .asleep => (k.set i fun p => { p with chan := .null }).setCont i .user
  | .waiting => (k.set i fun p => { p with chan := .null }).setCont i .waitLoop
  | _ => k

/-- `swtch` to the chosen process, if it is runnable. -/
def dispatch (k : Kernel) (ptr : Ptr) : Except Fault Kernel := do
  let p ← k.deref ptr
  if p.state = .RUNNABLE then
    match ptr with
    | .slot i =>
      return { k.set i (fun p => { p with
        first_scheduled := true, start_tick := k.MLFQ_ticks, state := .RUNNING }) with
        cur := some i }.resume i
    | _ => .error .mlfqSwitch
  else return k

/-- The process to run for the chosen entry: for the MLFQ entry, from the queues. -/
def pick (k : Kernel) (min_index : Nat) (ptr : Ptr) : Except Fault Ptr :=
  if min_index = 0 then k.scanQueues (List.finRange DEPTH_QUEUE) ptr else .ok ptr

/-- One iteration of the loop of `scheduler`. -/
def scheduler (k : Kernel) : Except Fault Kernel := do
  let min_index ← k.minIndex (k.stable.last + 1).toNat 0 0
  let ptr ← k.entry min_index
  let p ← k.deref ptr
  -- even MLFQ's pass has to be added.
  if p.share = 0 then .error .divZero
  else do
    let pass := int32 (p.pass + MULTSTRIDESHARE.tdiv p.share)
    let k ← k.setPtr (fun p => { p with pass := pass }) ptr
    let k := { k with min_pass := pass }
    k.dispatch (← k.pick min_index ptr)

/-! ## Timer interrupt -/

/-- A tick of an MLFQ process is counted. -/
def countTick (k : Kernel) (i : Slot) : Kernel :=
  if (k.proc i).share = 0 then { k with MLFQ_ticks := (k.MLFQ_ticks + 1) % 2 ^ 32 } else k

/-- The test for boosting, made on every process's tick. -/
def boostDue (k : Kernel) : Bool := k.MLFQ_ticks % PERIOD_BOOSTING = 0

/-- The timer branch of `trap` up to the test for boosting and the boost. -/
def boosted (k : Kernel) (i : Slot) : Kernel :=
  if (k.countTick i).boostDue then (k.countTick i).boost else k.countTick i

/-- The timer branch of `trap` for the running process `i`. -/
def preempt (k : Kernel) (i : Slot) : Except Fault Kernel := do
  let k := k.boosted i
  let k := k.set i fun p => { p with time_allotment := int32 (p.time_allotment - 1) }
  let q ← time_quantom (k.proc i).lev
  if q = 0 then .error .divZero
  else if (k.proc i).time_allotment.tmod q ≠ 0 then return k
  else (k.set i fun p => { p with from_trap := true }).yield i

/-- `trap` on a timer interrupt; `user` says whether it came from user mode. -/
def timer (k : Kernel) (user : Bool) : Except Fault Kernel :=
  let k := { k with ticks := (k.ticks + 1) % 2 ^ 32 }.wakeup1 .ticks
  match k.cur with
  | none => .ok k
  | some i =>
    if (k.proc i).killed ∧ user then k.exit i
    else if (k.proc i).state = .RUNNING then k.preempt i
    else .ok k

/-! ## Boot -/

/-- `userinit`, with the allocations of the first process succeeding. -/
def userinit (k : Kernel) : Except Fault Kernel := do
  let k := { k with
    ARRAYQUEUE := fun l => { k.ARRAYQUEUE l with last := -1 }
    stable := { k.stable with last := -1 } }
  match k.allocproc with
  | none => .error .nullDeref
  | some (p, k) => do
    let k := k.allocInit p
    let k ← k.enqueue p 0
    let k := { k with initproc := .slot p }
    return k.set p fun p => { p with state := .RUNNABLE }

/-- `scheduler` before its loop: the virtual process enters the stride table. -/
def schedulerInit (k : Kernel) : Except Fault Kernel := do
  let st ← orFault .stableRange (k.stable.push .mlfq)
  return { k with
    stable := st
    mlfq := { k.mlfq with share := 100, pass := 0, pid := 85064538, state := .RUNNABLE }
    cur := none }

/-- The zero-initialised kernel. -/
def bss : Kernel where
  proc := fun _ => {}
  ARRAYQUEUE := fun _ => ⟨fun _ => .null, 0⟩
  stable := ⟨fun _ => .null, 0⟩
  mlfq := {}
  min_pass := 0
  initproc := .null
  nextpid := 1
  ticks := 0
  MLFQ_ticks := 0
  cur := none
  cont := fun _ => .user
  ret := fun _ => 0

/-- The state in which the scheduler loop starts. -/
def boot : Kernel :=
  match bss.userinit with
  | .ok k => (match k.schedulerInit with | .ok k => k | .error _ => k)
  | .error _ => bss

end Kernel

/-! ## Steps -/

inductive Action where
  /-- one iteration of the scheduler loop -/
  | schedule
  /-- timer interrupt, from user mode or not -/
  | timer (user : Bool)
  /-- `wakeup` by the running process or by a device interrupt -/
  | wakeup (c : Chan)
  | fork
  | kalloc (ok : Bool)
  | allocEnqueue
  | copyuvm (ok : Bool)
  | forkPublish
  | sysYield
  | yield
  | setCpuShare (share : Int)
  | setShareLocked
  | sleep (c : Chan)
  | exit
  | wait
  | kill (pid : Int)
  deriving DecidableEq, Repr

/-- What the running process `i`, standing at `c`, does for an action. -/
def stepProc (k : Kernel) (i : Slot) : Cont → Action → Except Fault Kernel
  | .user, .fork => .ok (k.fork i)
  | .allocStack np, .kalloc ok => .ok (k.kalloc i np ok)
  | .allocEnqueue np, .allocEnqueue => k.allocEnqueue i np
  | .forkCopy np, .copyuvm ok => .ok (k.copyuvm i np ok)
  | .forkPublish np, .forkPublish => .ok (k.forkPublish i np)
  | .user, .sysYield =>
    .ok ((k.set i fun p => { p with from_trap := false }).setCont i .yieldCall)
  | .yieldCall, .yield => (k.setCont i .user).yield i
  | .user, .setCpuShare share => k.set_cpu_share i (int32 share)
  | .setShare e share, .setShareLocked => k.setShareLocked i e share
  | .user, .sleep c => .ok (k.sleep i c .asleep)
  | .user, .exit => k.exit i
  | .user, .wait => .ok (k.wait i)
  | .waitLoop, .wait => .ok (k.wait i)
  | .user, .kill pid => .ok (k.kill i pid)
  | _, _ => .error .blocked

/-- One step of the kernel. Interrupts are off in the loop of `wait`. -/
def step (k : Kernel) (a : Action) : Except Fault Kernel :=
  match k.cur with
  | none =>
    match a with
    | .schedule => k.scheduler
    | .timer _ => k.timer false
    | .wakeup c => .ok (k.wakeup1 c)
    | _ => .error .blocked
  | some i =>
    match a with
    | .timer user =>
      if k.cont i = .waitLoop ∨ (user ∧ k.cont i ≠ .user) then .error .blocked else k.timer user
    | .wakeup c => if k.cont i = .waitLoop then .error .blocked else .ok (k.wakeup1 c)
    | a => stepProc k i (k.cont i) a

/-- A state some run from boot reaches, every action of it meeting `G`. -/
abbrev Reachable (G : Kernel → Action → Prop) : Kernel → Prop := Reach step G Kernel.boot

end Xv6.Sched
