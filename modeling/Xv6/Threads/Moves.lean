import Mathlib.Logic.Relation
import Xv6.Threads.Locks

/-!
# What a step does to the life of the slots

A step is a sequence of `Move`s. A move says what becomes of the states, the
page directories and the kernel stacks of the slots, of the calls that build new
ones, and of the processes on the CPUs; what else changes, in `Quiet` moves,
concerns none of these. An invariant that the moves keep holds in every state
that a run reaches.
-/

namespace Xv6.Threads

open Lib
open Sched (NPROC Slot Level ProcState Ptr Chan int32)

/-- The slot that a `fork` or `thread_create` in progress builds. -/
def Cont.target : Cont → Option Slot
  | .allocStack _ np | .allocEnqueue _ np | .forkCopy np | .forkPublish np | .threadShare np |
    .threadPublish np => some np
  | _ => none

/-- The zombie child that `wait` by `i` would find. -/
def State.zombie (s : State) (i : Slot) : Option Slot :=
  s.findSlot fun p => p.parent = some i ∧ p.state = .ZOMBIE

/-- The process that `exec` replaces, or `wait` reaps, satisfies `ok`. -/
def Sole (ok : Proc → Prop) (s : State) : Action → Prop
  | .call c (.exec .ok) => ∀ i ∈ s.cur c, ok (s.proc i)
  | .call c .wait => ∀ i ∈ s.cur c, ∀ z ∈ s.zombie i, ok (s.proc z)
  | .schedule _ i => s.cont i = .waiting → ∀ z ∈ s.zombie i, ok (s.proc z)
  | _ => True

theorem sole_true (s : State) (a : Action) : Sole (fun _ => True) s a := by
  unfold Sole
  split <;> intros <;> trivial

/-- Neither at the start of its life nor building another slot. -/
def Cont.Plain (k : Cont) : Prop := k ≠ .forkret ∧ k.target = none

theorem Cont.plain_user : Cont.Plain .user := ⟨by decide, rfl⟩

/-- The slots whose level or allotment an action may change, apart from a new one. -/
def Clocks (s : State) : Action → Slot → Prop
  | .timer _ _, _ => True
  | .call c .yield, j => s.cur c = some j
  | .call c (.set_cpu_share _ _), j => ∃ i, s.cur c = some i ∧
      (if (s.proc i).tid ≠ 0 then (s.proc i).parent else some i) = some j
  | _, _ => False

/-- The slot that an action may dispatch. -/
def Dispatches : Action → Slot → Prop
  | .schedule _ i, j => j = i
  | _, _ => False

/-- A change of a slot that is none of its life; `k` allows it a new level or
allotment. -/
structure Calm (k : Prop) (p p' : Proc) : Prop where
  pgdir : p'.pgdir = p.pgdir
  kstack : p'.kstack = p.kstack
  multi : p'.multi_threaded = p.multi_threaded
  state : p'.state = p.state ∨ p.state = .SLEEPING ∧ p'.state = .RUNNABLE
  clock : k ∨ p'.lev = p.lev ∧ p'.time_allotment = p.time_allotment

structure Quiet (K : Slot → Prop) (s s' : State) : Prop where
  proc : ∀ i, Calm (K i) (s.proc i) (s'.proc i)
  cont : ∀ i, s'.cont i = s.cont i ∨ (s.cont i).Plain ∧ (s'.cont i).Plain
  cur : s'.cur = s.cur
  nextDir : s'.nextDir = s.nextDir
  nextStack : s'.nextStack = s.nextStack
  freed : s'.freed = s.freed
  kfreed : s'.kfreed = s.kfreed
  workerStacks : s'.workerStacks = s.workerStacks

/-- What can become of the slots. A process that is to be replaced by `exec` or
reaped by `wait` satisfies `ok`, a slot that gets a new level or allotment is in
`K`, and one that is dispatched in `R`. -/
inductive Move (ok : Proc → Prop) (K R : Slot → Prop) : State → State → Prop where
  | quiet {s s' : State} : Quiet K s s' → Move ok K R s s'
  | run {s : State} (c : Nat) (i : Slot) (k : Cont) : s.cur c = none → R i →
      (s.proc i).state = .RUNNABLE → ¬ (s.cont i = .forkret ∧ (s.proc i).multi_threaded) →
      (k = s.cont i ∧ k ≠ .forkret ∨ k = .user ∧ (s.cont i).target = none) →
      Move ok K R s (((s.set i fun p => { p with state := .RUNNING }).setCont i k).setCur c (some i))
  | leave {s : State} (c : Nat) (i : Slot) (st : ProcState) : s.cur c = some i →
      (st = .RUNNABLE ∨ st = .SLEEPING) →
      Move ok K R s ((s.set i fun p => { p with state := st }).setCur c none)
  | alloc {s : State} (c : Nat) (i np : Slot) (t : Bool) : s.cur c = some i → (s.cont i).Plain →
      (s.proc np).state = .UNUSED →
      Move ok K R s ((s.set np fun p => { p with state := .EMBRYO }).setCont i (.allocStack t np))
  | stack {s : State} (c : Nat) (i np : Slot) (t : Bool) : s.cur c = some i →
      s.cont i = .allocStack t np →
      Move ok K R s ((s.allocInit t np).setCont i (.allocEnqueue t np))
  | noStack {s : State} (c : Nat) (i np : Slot) (t : Bool) : s.cur c = some i →
      s.cont i = .allocStack t np → Move ok K R s (s.allocFail i np)
  | enqueue {s : State} (c : Nat) (i np : Slot) (t : Bool) : s.cur c = some i →
      s.cont i = .allocEnqueue t np →
      Move ok K R s (s.setCont i (if t then .threadShare np else .forkCopy np))
  | copy {s : State} (c : Nat) (i np : Slot) : s.cur c = some i → s.cont i = .forkCopy np →
      Move ok K R s ((s.setupkvm.1.set np fun p => { p with pgdir := s.nextDir }).setCont i
        (.forkPublish np))
  | noCopy {s s' : State} (c : Nat) (i np : Slot) : s.cur c = some i → s.cont i = .forkCopy np →
      (s.set np fun p => { p with pgdir := 0 }).kfree (s.proc np).kstack = .ok s' →
      Move ok K R s (s'.allocFail i np)
  | publish {s : State} (c : Nat) (i np : Slot) : s.cur c = some i → s.cont i = .forkPublish np →
      Move ok K R s (((s.set np fun p => { p with state := .RUNNABLE }).setCont np .forkret).setCont i
        .user)
  | share {s : State} (c : Nat) (i nt : Slot) : s.cur c = some i → s.cont i = .threadShare nt →
      Move ok K R s ((s.set nt fun p => { p with
        multi_threaded := true, pgdir := (s.proc i).pgdir }).setCont i (.threadPublish nt))
  | enter {s : State} (c : Nat) (i nt : Slot) : s.cur c = some i → s.cont i = .threadPublish nt →
      Move ok K R s ((((s.set i fun p => { p with multi_threaded := true }).set nt fun p =>
        { p with state := .RUNNABLE }).setCont nt .forkret).setCont i .user)
  | exit {s : State} (c : Nat) (i : Slot) : s.cur c = some i → (s.cont i).Plain →
      Move ok K R s ((s.set i fun p => { p with state := .ZOMBIE }).setCur c none)
  | reap {s s₁ s₂ : State} (z : Slot) : (s.proc z).state = .ZOMBIE → ok (s.proc z) →
      s.kfree (s.proc z).kstack = .ok s₁ →
      (s₁.set z fun p => { p with kstack := 0 }).freevm z (s.proc z).pgdir = .ok s₂ →
      Move ok K R s (s₂.set z fun p => { p with state := .UNUSED })
  | exec {s s' : State} (c : Nat) (i : Slot) : s.cur c = some i → (s.cont i).Plain →
      ok (s.proc i) →
      (s.setupkvm.1.set i fun p => { p with pgdir := s.nextDir }).freevm i (s.proc i).pgdir =
        .ok s' → Move ok K R s s'
  | scratch {s s' : State} (i : Slot) : s.setupkvm.1.freevm i s.nextDir = .ok s' → Move ok K R s s'

abbrev Moves (ok : Proc → Prop) (K R : Slot → Prop) : State → State → Prop :=
  Relation.ReflTransGen (Move ok K R)

/-! ## Quiet changes -/

section
variable {ok : Proc → Prop} {K R : Slot → Prop} {s s' s'' : State} {c : Nat} {i : Slot}

theorem Calm.refl (k : Prop) (p : Proc) : Calm k p p := ⟨rfl, rfl, rfl, .inl rfl, .inr ⟨rfl, rfl⟩⟩

theorem Calm.trans {k : Prop} {p q r : Proc} (h : Calm k p q) (h' : Calm k q r) : Calm k p r where
  pgdir := h'.pgdir.trans h.pgdir
  kstack := h'.kstack.trans h.kstack
  multi := h'.multi.trans h.multi
  state := by
    have := h.state; have := h'.state
    grind
  clock := by
    have := h.clock; have := h'.clock
    grind

/-- A change of the other fields of a slot. -/
theorem Quiet.set {f : Proc → Proc} (hf : Calm (K i) (s.proc i) (f (s.proc i))) : Quiet K s (s.set i f) where
  proc j := by
    by_cases hj : j = i
    · subst hj; simpa using hf
    · simpa [hj] using Calm.refl _ _
  cont _ := .inl rfl
  cur := rfl
  nextDir := rfl
  nextStack := rfl
  freed := rfl
  kfreed := rfl
  workerStacks := rfl

/-- A change of the table that is calm in each slot. -/
theorem Quiet.of_proc {f : Slot → Proc} (hf : ∀ j, Calm (K j) (s.proc j) (f j)) :
    Quiet K s { s with proc := f } :=
  ⟨hf, fun _ => .inl rfl, rfl, rfl, rfl, rfl, rfl, rfl⟩

theorem Quiet.refl (s : State) : Quiet K s s :=
  ⟨fun _ => .refl _ _, fun _ => .inl rfl, rfl, rfl, rfl, rfl, rfl, rfl⟩

theorem Quiet.trans (h : Quiet K s s') (h' : Quiet K s' s'') : Quiet K s s'' where
  proc j := (h.proc j).trans (h'.proc j)
  cont j := by
    have := h.cont j; have := h'.cont j
    grind
  cur := h'.cur.trans h.cur
  nextDir := h'.nextDir.trans h.nextDir
  nextStack := h'.nextStack.trans h.nextStack
  freed := h'.freed.trans h.freed
  kfreed := h'.kfreed.trans h.kfreed
  workerStacks := h'.workerStacks.trans h.workerStacks

theorem Quiet.setCont {k : Cont} (hi : (s.cont i).Plain) (hk : k.Plain) : Quiet K s (s.setCont i k) where
  proc _ := .refl _ _
  cont j := by
    by_cases hj : j = i
    · subst hj; exact .inr ⟨hi, by simpa using hk⟩
    · exact .inl (by simp [hj])
  cur := rfl
  nextDir := rfl
  nextStack := rfl
  freed := rfl
  kfreed := rfl
  workerStacks := rfl

theorem Quiet.sysret (hi : (s.cont i).Plain) (v : Int) : Quiet K s (s.sysret i v) :=
  have h := Quiet.setCont hi Cont.plain_user
  ⟨h.proc, h.cont, h.cur, h.nextDir, h.nextStack, h.freed, h.kfreed, h.workerStacks⟩

theorem Quiet.wakeup1 (chan : Chan) : Quiet K s (s.wakeup1 chan) := by
  refine .of_proc fun j => ?_
  split
  · next h => exact ⟨rfl, rfl, rfl, .inr ⟨h.1, rfl⟩, .inr ⟨rfl, rfl⟩⟩
  · exact .refl _ _

theorem acquire_quiet (h : s.acquire c = .ok s') : Quiet K s s' := by
  unfold State.acquire at h
  split at h
  · cases h; exact ⟨fun _ => .refl _ _, fun _ => .inl rfl, rfl, rfl, rfl, rfl, rfl, rfl⟩
  · cases h

theorem popcli_quiet (h : s.popcli c = .ok s') : Quiet K s s' := by
  unfold State.popcli at h
  split at h
  · cases h
  · cases h; exact ⟨fun _ => .refl _ _, fun _ => .inl rfl, rfl, rfl, rfl, rfl, rfl, rfl⟩

theorem release_quiet (h : s.release c = .ok s') : Quiet K s s' := by
  unfold State.release at h
  split at h
  · have := popcli_quiet (K := K) h
    exact ⟨this.proc, this.cont, this.cur, this.nextDir, this.nextStack, this.freed, this.kfreed,
      this.workerStacks⟩
  · cases h

theorem Quiet.congr_set (h : Quiet K s s') (f : Proc → Proc) {g : Proc → Proc}
    (hfg : Calm (K i) (f (s.proc i)) (g (s'.proc i))) : Quiet K (s.set i f) (s'.set i g) where
  proc j := by
    by_cases hj : j = i
    · subst hj; simpa using hfg
    · simpa [hj] using h.proc j
  cont := h.cont
  cur := h.cur
  nextDir := h.nextDir
  nextStack := h.nextStack
  freed := h.freed
  kfreed := h.kfreed
  workerStacks := h.workerStacks

theorem Quiet.congr_setCont (h : Quiet K s s') (k : Cont) : Quiet K (s.setCont i k) (s'.setCont i k) where
  proc := h.proc
  cont j := by
    by_cases hj : j = i
    · subst hj; exact .inl (by simp)
    · simpa [hj] using h.cont j
  cur := h.cur
  nextDir := h.nextDir
  nextStack := h.nextStack
  freed := h.freed
  kfreed := h.kfreed
  workerStacks := h.workerStacks

theorem Quiet.congr_sysret (h : Quiet K s s') (v : Int) : Quiet K (s.setCont i .user) (s'.sysret i v) :=
  have h := h.congr_setCont (i := i) .user
  ⟨h.proc, h.cont, h.cur, h.nextDir, h.nextStack, h.freed, h.kfreed, h.workerStacks⟩

theorem Quiet.congr_setCur (h : Quiet K s s') (p : Option Slot) : Quiet K (s.setCur c p) (s'.setCur c p) :=
  ⟨h.proc, h.cont, by simp [State.setCur, h.cur], h.nextDir, h.nextStack, h.freed, h.kfreed,
    h.workerStacks⟩

theorem sched_ok (h : s.sched c i = .ok s') : Quiet K (s.setCur c none) s' := by
  unfold State.sched at h
  split at h
  · cases h
  · split at h
    · cases h
    · split at h
      · cases h
      · exact release_quiet h

theorem enqueue_quiet {j : Slot} {lev : Int} (h : s.enqueue j lev = .ok s') : Quiet K s s' := by
  simp only [State.enqueue, bind_ok, pure_ok] at h
  obtain ⟨l, -, q, -, rfl⟩ := h
  exact ⟨fun _ => .refl _ _, fun _ => .inl rfl, rfl, rfl, rfl, rfl, rfl, rfl⟩

theorem dequeue_quiet {brk : Bool} {j : Slot} {lev : Int} (h : s.dequeue brk j lev = .ok s') :
    Quiet K s s' := by
  simp only [State.dequeue, bind_ok, pure_ok] at h
  obtain ⟨l, -, q, -, rfl⟩ := h
  exact ⟨fun _ => .refl _ _, fun _ => .inl rfl, rfl, rfl, rfl, rfl, rfl, rfl⟩

theorem adjust_quiet (hK : K i) (h : s.adjust i = .ok s') : Quiet K s s' := by
  unfold State.adjust at h
  dsimp only at h
  split at h
  · obtain ⟨s1, h1, h⟩ := bind_ok.mp h
    obtain ⟨s2, h2, h⟩ := bind_ok.mp h
    have h12 := (Quiet.set (s := s) (i := i) ⟨rfl, rfl, rfl, .inl rfl, .inl hK⟩).trans
      ((dequeue_quiet h1).trans (enqueue_quiet h2))
    split at h
    · obtain ⟨a, -, h⟩ := bind_ok.mp h
      cases h
      exact h12.trans (.set ⟨rfl, rfl, rfl, .inl rfl, .inl hK⟩)
    · cases h; exact h12
  · obtain ⟨a, -, h⟩ := bind_ok.mp h
    cases h
    exact .set ⟨rfl, rfl, rfl, .inl rfl, .inl hK⟩

theorem charge_quiet (s : State) {i : Slot} (hK : K i) : Quiet K s (s.charge i) := by
  unfold State.charge
  split
  · exact .refl s
  · exact .set ⟨rfl, rfl, rfl, .inl rfl, .inl hK⟩

theorem reparent_quiet (s : State) (i : Slot) : Quiet K s (s.reparent i) := by
  have h : Quiet K s { s with proc := fun j => if (s.proc j).parent = some i
      then { s.proc j with parent := some s.initproc } else s.proc j } := by
    refine .of_proc fun j => ?_
    split
    · exact ⟨rfl, rfl, rfl, .inl rfl, .inr ⟨rfl, rfl⟩⟩
    · exact .refl _ _
  unfold State.reparent
  dsimp only
  split
  · exact h.trans (.wakeup1 _)
  · exact h

theorem Quiet.moves (h : Quiet K s s') : Moves ok K R s s' := .single (.quiet h)

/-! ## Freeing -/

theorem kfree_ok {d : Nat} (h : s.kfree d = .ok s') :
    d ≠ 0 ∧ s' = { s with kfreed := s.kfreed ++ [d] } := by
  unfold State.kfree at h
  split at h
  · cases h
  · next hd => cases h; exact ⟨hd, rfl⟩

theorem freevm_ok {d : Nat} (h : s.freevm i d = .ok s') :
    d ≠ 0 ∧ ∃ b, s' = { s with freed := s.freed ++ [⟨d, b⟩] } ∧
      (b = true → ∃ j, j ≠ i ∧ (s.proc j).Live ∧ (s.proc j).pgdir = d) := by
  unfold State.freevm at h
  split at h
  · cases h
  · next hd =>
    cases h
    refine ⟨hd, _, rfl, fun hb => ?_⟩
    obtain ⟨j, -, hj⟩ := List.any_eq_true.mp hb
    exact ⟨j, of_decide_eq_true hj⟩

theorem acquire_proc (h : s.acquire c = .ok s') : s'.proc = s.proc := by
  unfold State.acquire at h
  split at h
  · cases h; rfl
  · cases h

theorem release_proc (h : s.release c = .ok s') : s'.proc = s.proc := by
  unfold State.release State.popcli at h
  split at h
  · split at h
    · cases h
    · cases h; rfl
  · cases h

theorem sched_proc (h : s.sched c i = .ok s') : s'.proc = s.proc := by
  unfold State.sched at h
  split at h
  · cases h
  · split at h
    · cases h
    · split at h
      · cases h
      · have hp : s'.proc = (s.setCur c none).proc := release_proc h
        exact hp

/-! ## The moves of a step -/

/-- Quiet changes around a move. -/
theorem Move.between {s₁ s₂ : State} (h₁ : Quiet K s s₁) (h : Move ok K R s₁ s₂) (h₂ : Quiet K s₂ s') :
    Moves ok K R s s' :=
  .head (.quiet h₁) (.head h h₂.moves)

theorem Quiet.plain (q : Quiet K s s') (h : (s.cont i).Plain) : (s'.cont i).Plain := by
  rcases q.cont i with e | e
  · rwa [e]
  · exact e.2

theorem Quiet.cont_eq (q : Quiet K s s') (h : ¬ (s.cont i).Plain) : s'.cont i = s.cont i :=
  (q.cont i).resolve_right fun e => h e.1

theorem wakeup_quiet {chan : Chan} (h : s.wakeup c chan = .ok s') : Quiet K s s' := by
  obtain ⟨s1, h1, h⟩ := bind_ok.mp h
  exact (acquire_quiet h1).trans ((Quiet.wakeup1 chan).trans (release_quiet h))

/-- A release followed by the return of a system call. -/
theorem return_quiet {v : Int} (hk : (s.cont i).Plain)
    (h : (s.release c >>= fun s => pure (s.sysret i v)) = .ok s') : Quiet K s s' := by
  obtain ⟨s1, h1, h⟩ := bind_ok.mp h
  cases h
  have q := release_quiet (K := K) h1
  exact q.trans (.sysret (q.plain hk) v)

theorem kill_quiet {pid : Int} (hk : (s.cont i).Plain) (h : s.kill c i pid = .ok s') :
    Quiet K s s' := by
  obtain ⟨s1, h1, h⟩ := bind_ok.mp h
  have q1 := acquire_quiet (K := K) h1
  split at h
  · next j _ =>
    have q2 : Quiet K s1 (s1.set j fun p => { p with
        killed := true, state := if p.state = .SLEEPING then .RUNNABLE else p.state }) := by
      refine .set ⟨rfl, rfl, rfl, ?_, .inr ⟨rfl, rfl⟩⟩
      by_cases hs : (s1.proc j).state = .SLEEPING
      · exact .inr ⟨hs, if_pos hs⟩
      · exact .inl (if_neg hs)
    exact q1.trans (q2.trans (return_quiet ((q1.trans q2).plain hk) h))
  · exact q1.trans (return_quiet (q1.plain hk) h)

theorem set_cpu_share_quiet {share : Int} {room : Bool} (hk : (s.cont i).Plain)
    (hK : ∀ p, (if (s.proc i).tid ≠ 0 then (s.proc i).parent else some i) = some p → K p)
    (h : s.set_cpu_share c i share room = .ok s') : Quiet K s s' := by
  unfold State.set_cpu_share at h
  split at h
  · cases h; exact .sysret hk _
  · obtain ⟨s1, h1, h⟩ := bind_ok.mp h
    have q1 := acquire_quiet (K := K) h1
    dsimp only at h
    split at h
    · cases h
    · next p hp =>
      rw [acquire_proc h1] at hp
      obtain ⟨s2, h2, h⟩ := bind_ok.mp h
      have q2 := q1.trans (.trans (.set ⟨rfl, rfl, rfl, .inl rfl, .inr ⟨rfl, rfl⟩⟩) (dequeue_quiet h2))
      have q3 : Quiet K s (s2.set p fun p => { p with
          lev := Sched.STRIDE_LEV, time_allotment := Sched.STRIDE_DEFAULT_TIME_QUANTOM }) :=
        q2.trans (.set ⟨rfl, rfl, rfl, .inl rfl, .inl (hK p hp)⟩)
      exact q3.trans (return_quiet (q3.plain hk) h)

/-- The parts of a `yield` that does not fault. -/
theorem yield_ok (h : s.yield c i = .ok s') : ∃ s₁ s₂ s₃ : State,
    Quiet K s s₁ ∧ s₁.proc = s.proc ∧ s₁.acquire c = .ok s₂ ∧
    ((s₂.set i fun p => { p with state := .RUNNABLE }).charge i).adjust i = .ok s₃ ∧
    s₃.sched c i = .ok s' := by
  unfold State.yield at h
  dsimp only at h
  -- a thread releases a lock first
  have hy : ∃ s₁ : State, Quiet K s s₁ ∧ s₁.proc = s.proc ∧ (s₁.acquire c >>= fun s =>
      ((s.set i fun p => { p with state := .RUNNABLE }).charge i).adjust i >>= fun s =>
        s.sched c i) = .ok s' := by
    split at h
    · obtain ⟨s1, h1, h⟩ := bind_ok.mp h
      exact ⟨s1, release_quiet h1, release_proc h1, h⟩
    · exact ⟨s, .refl s, rfl, h⟩
  obtain ⟨s1, q1, hp, h⟩ := hy
  obtain ⟨s2, h2, h⟩ := bind_ok.mp h
  obtain ⟨s3, h3, h⟩ := bind_ok.mp h
  exact ⟨s1, s2, s3, q1, hp, h2, h3, h⟩

theorem yield_moves (hK : K i) (hc : s.cur c = some i) (h : s.yield c i = .ok s') : Moves ok K R s s' := by
  obtain ⟨s1, s2, s3, q1, -, h2, h3, h⟩ := yield_ok (K := K) h
  have q2 := q1.trans (acquire_quiet h2)
  refine Move.between q2 (.leave c i .RUNNABLE (by rw [q2.cur]; exact hc) (.inl rfl)) ?_
  exact (((charge_quiet _ hK).trans (adjust_quiet hK h3)).congr_setCur none).trans (sched_ok h)

theorem sleep_moves {chan : Chan} {lk : Option Spinlock} (hc : s.cur c = some i)
    (h : s.sleep c i chan lk = .ok s') : Moves ok K R s s' := by
  unfold State.sleep at h
  split at h
  · cases h
  · have hy : ∃ s1, Quiet K s s1 ∧ (s1.set i fun p => { p with
        chan := chan, state := .SLEEPING }).sched c i = .ok s' := by
      split at h
      · exact ⟨s, .refl s, h⟩
      · obtain ⟨s1, h1, h⟩ := bind_ok.mp h
        obtain ⟨s2, h2, h⟩ := bind_ok.mp h
        exact ⟨s2, (acquire_quiet h1).trans (popcli_quiet h2), h⟩
    obtain ⟨s1, q1, h⟩ := hy
    refine Move.between q1 (.leave c i .SLEEPING (by rw [q1.cur]; exact hc) (.inr rfl)) ?_
    have q : Quiet K (s1.set i fun p => { p with state := .SLEEPING })
        (s1.set i fun p => { p with chan := chan, state := .SLEEPING }) :=
      (Quiet.refl s1).congr_set _ ⟨rfl, rfl, rfl, .inl rfl, .inr ⟨rfl, rfl⟩⟩
    exact (q.congr_setCur none).trans (sched_ok h)

theorem sleepOn_moves {chan : Chan} (hc : s.cur c = some i) (hk : (s.cont i).Plain)
    (h : s.sleepOn c i chan = .ok s') : Moves ok K R s s' := by
  have q : Quiet K s ((s.pushcli c).setCont i .asleep) :=
    have q1 : Quiet K s (s.pushcli c) :=
      ⟨fun _ => .refl _ _, fun _ => .inl rfl, rfl, rfl, rfl, rfl, rfl, rfl⟩
    q1.trans (.setCont hk ⟨by decide, rfl⟩)
  exact .head (.quiet q) (sleep_moves (by rw [q.cur]; exact hc) h)

theorem exit_moves (hc : s.cur c = some i) (hk : (s.cont i).Plain) (h : s.exit c i = .ok s') :
    Moves ok K R s s' := by
  unfold State.exit at h
  split at h
  · cases h
  · obtain ⟨s1, h1, h⟩ := bind_ok.mp h
    dsimp only at h
    have q1 := (acquire_quiet (K := K) h1).trans
      ((Quiet.wakeup1 (chanOf (s1.proc i).parent)).trans (reparent_quiet _ i))
    have hy : ∃ s2, Quiet K s s2 ∧ (s2.set i fun p => { p with state := .ZOMBIE }).sched c i = .ok s' := by
      split at h
      · obtain ⟨s2, h2, h⟩ := bind_ok.mp h
        exact ⟨s2, q1.trans (dequeue_quiet h2), h⟩
      · exact ⟨_, q1, h⟩
    obtain ⟨s2, q2, h⟩ := hy
    exact Move.between q2 (.exit c i (by rw [q2.cur]; exact hc) (q2.plain hk)) (sched_ok h)

/-- `wait` reaps a zombie that satisfies `ok`. -/
theorem reap_moves {z : Slot} (hk : (s.cont i).Plain) (hz : (s.proc z).state = .ZOMBIE)
    (hok : ok (s.proc z)) (h : s.reap c i z = .ok s') : Moves ok K R s s' := by
  obtain ⟨s1, h1, h⟩ := bind_ok.mp h
  obtain ⟨s2, h2, h⟩ := bind_ok.mp h
  have hd : ((s1.set z fun p => { p with kstack := 0 }).proc z).pgdir = (s.proc z).pgdir := by
    rw [(kfree_ok h1).2]; simp
  rw [hd] at h2
  have hc2 : s2.cont = s.cont := by
    obtain ⟨-, b, rfl, -⟩ := freevm_ok h2
    rw [(kfree_ok h1).2]; rfl
  refine .head (.reap z hz hok h1 h2) ?_
  have q : Quiet K (s2.set z fun p => { p with state := .UNUSED }) (s2.set z fun p => { p with
      pid := 0, parent := none, killed := false, state := .UNUSED }) :=
    (Quiet.refl s2).congr_set _ ⟨rfl, rfl, rfl, .inl rfl, .inr ⟨rfl, rfl⟩⟩
  exact (q.trans (return_quiet (by simpa [hc2] using hk) h)).moves

theorem findSlot_some {f : Proc → Bool} {j : Slot} (h : s.findSlot f = some j) :
    f (s.proc j) = true := by
  have := List.find?_some (p := fun i => f (s.proc i)) h
  exact this

/-- Parents and zombies decide what `wait` finds. -/
theorem zombie_eq (h : ∀ j, (s'.proc j).parent = (s.proc j).parent ∧
    ((s'.proc j).state = .ZOMBIE ↔ (s.proc j).state = .ZOMBIE)) : s'.zombie i = s.zombie i := by
  simp only [State.zombie, State.findSlot, h]

theorem waitLoop_moves (hc : s.cur c = some i) (hk : (s.cont i).Plain)
    (hok : ∀ z ∈ s.zombie i, ok (s.proc z)) (h : s.waitLoop c i = .ok s') : Moves ok K R s s' := by
  unfold State.waitLoop at h
  split at h
  · next z hz =>
    have hz' : (s.proc z).parent = some i ∧ (s.proc z).state = .ZOMBIE := by
      simpa using findSlot_some hz
    exact reap_moves hk hz'.2 (hok z hz) h
  · split at h
    · exact (return_quiet hk h).moves
    · exact .head (.quiet (.setCont hk ⟨by decide, rfl⟩)) (sleep_moves (s := s.setCont i _) hc h)

theorem allocproc_moves {thread : Bool} (hc : s.cur c = some i) (hk : (s.cont i).Plain)
    (h : s.allocproc c i thread = .ok s') : Moves ok K R s s' := by
  obtain ⟨s1, h1, h⟩ := bind_ok.mp h
  have q1 := acquire_quiet (K := K) h1
  dsimp only at h
  split at h
  · exact (q1.trans (return_quiet (q1.plain hk) h)).moves
  · next np hnp =>
    obtain ⟨s2, h2, h⟩ := bind_ok.mp h
    cases h
    have hu : (s1.proc np).state = .UNUSED := by simpa using findSlot_some hnp
    refine Move.between q1 (.alloc c i np thread (by rw [q1.cur]; exact hc) (q1.plain hk) hu) ?_
    have q2 : Quiet K (s1.set np fun p => { p with state := .EMBRYO })
        { s1.set np fun p => { p with state := .EMBRYO, pid := s1.nextpid } with
          nextpid := int32 (s1.nextpid + 1) } :=
      have q := (Quiet.refl s1).congr_set (i := np) (fun p => { p with state := .EMBRYO })
        (g := fun p => { p with state := .EMBRYO, pid := s1.nextpid }) ⟨rfl, rfl, rfl, .inl rfl, .inr ⟨rfl, rfl⟩⟩
      ⟨q.proc, q.cont, rfl, rfl, rfl, rfl, rfl, rfl⟩
    exact (q2.trans (release_quiet h2)).congr_setCont _

theorem kalloc_moves {thread ok' : Bool} {np : Slot} (hc : s.cur c = some i)
    (hk : s.cont i = .allocStack thread np) : Moves ok K R s (s.kalloc i thread np ok') := by
  unfold State.kalloc
  split
  · exact .single (.stack c i np thread hc hk)
  · exact .single (.noStack c i np thread hc hk)

/-- A process that builds a slot keeps its place through a quiet change. -/
theorem Quiet.building (q : Quiet K s s') {k : Cont} {np : Slot} (hk : s.cont i = k)
    (ht : k.target = some np) : s'.cont i = k := by
  rw [q.cont_eq, hk]
  intro h
  rw [hk, Cont.Plain, ht] at h
  cases h.2

theorem allocEnqueue_moves {thread : Bool} {np : Slot} (hc : s.cur c = some i)
    (hk : s.cont i = .allocEnqueue thread np) (h : s.allocEnqueue c i thread np = .ok s') :
    Moves ok K R s s' := by
  obtain ⟨s1, h1, h⟩ := bind_ok.mp h
  obtain ⟨s2, h2, h⟩ := bind_ok.mp h
  obtain ⟨s3, h3, h⟩ := bind_ok.mp h
  cases h
  have q := (acquire_quiet (K := K) h1).trans ((enqueue_quiet h2).trans (release_quiet h3))
  exact .head (.quiet q) (.single (.enqueue c i np thread (by rw [q.cur]; exact hc)
    (q.building hk rfl)))

theorem forkCopy_moves {np : Slot} {o : Outcome} (hc : s.cur c = some i)
    (hk : s.cont i = .forkCopy np) (h : s.forkCopy i np o = .ok s') : Moves ok K R s s' := by
  cases o with
  | ok =>
    cases h
    refine .head (.copy c i np hc hk) (Quiet.moves ?_)
    refine .congr_setCont (.congr_set (.refl s.setupkvm.1) _ ?_) _
    exact ⟨rfl, rfl, rfl, .inl rfl, .inr ⟨rfl, rfl⟩⟩
  | noDir =>
    obtain ⟨s1, h1, h⟩ := bind_ok.mp h
    cases h
    exact .single (.noCopy c i np hc hk h1)
  | noMem =>
    obtain ⟨s1, h1, h⟩ := bind_ok.mp h
    obtain ⟨s2, h2, h⟩ := bind_ok.mp h
    cases h
    obtain ⟨-, b, rfl, -⟩ := freevm_ok h1
    exact .head (.scratch np h1) (.single (.noCopy c i np hc hk h2))
  | noCopy => cases h

theorem forkPublish_moves {np : Slot} (hc : s.cur c = some i) (hk : s.cont i = .forkPublish np)
    (h : s.forkPublish c i np = .ok s') : Moves ok K R s s' := by
  obtain ⟨s1, h1, h⟩ := bind_ok.mp h
  obtain ⟨s2, h2, h⟩ := bind_ok.mp h
  cases h
  have q1 := acquire_quiet (K := K) h1
  refine Move.between q1 (.publish c i np (by rw [q1.cur]; exact hc) (q1.building hk rfl)) ?_
  exact (release_quiet h2).congr_sysret _

theorem threadShare_moves {nt : Slot} {o : Outcome} (hc : s.cur c = some i)
    (hk : s.cont i = .threadShare nt) (h : s.threadShare i nt o = .ok s') : Moves ok K R s s' := by
  cases o with
  | ok =>
    cases h
    refine .head (.share c i nt hc hk) (Quiet.moves ?_)
    refine .congr_setCont (.congr_set (.refl s) _ ?_) _
    exact ⟨rfl, rfl, rfl, .inl rfl, .inr ⟨rfl, rfl⟩⟩
  | noDir | noMem | noCopy => cases h

theorem threadPublish_moves {nt : Slot} (hc : s.cur c = some i) (hk : s.cont i = .threadPublish nt)
    (h : s.threadPublish c i nt = .ok s') : Moves ok K R s s' := by
  obtain ⟨s1, h1, h⟩ := bind_ok.mp h
  dsimp only at h
  split at h
  · obtain ⟨s2, h2, h⟩ := bind_ok.mp h
    cases h
    have q1 := acquire_quiet (K := K) h1
    refine Move.between q1 (.enter c i nt (by rw [q1.cur]; exact hc) (q1.building hk rfl)) ?_
    have q2 := (((Quiet.refl (K := K) s1).congr_set (i := i) (fun p => { p with multi_threaded := true })
      (g := fun p => { p with
        multi_threaded := true, num_thread := (s1.proc i).num_thread + 1
        threads := Function.update (Function.update p.threads 0 (some i))
          ((s1.proc i).num_thread + 1).toNat (some nt) }) ⟨rfl, rfl, rfl, .inl rfl, .inr ⟨rfl, rfl⟩⟩).congr_set (i := nt)
      (fun p => { p with state := .RUNNABLE }) (g := fun p => { p with
        tid := (s1.proc i).num_thread + 1, state := .RUNNABLE }) ⟨?_, ?_, ?_, .inl rfl, .inr ?_⟩).congr_setCont
      (i := nt) .forkret
    · have q := (q2.trans (release_quiet h2)).congr_sysret (i := i) 0
      exact ⟨q.proc, q.cont, q.cur, q.nextDir, q.nextStack, q.freed, q.kfreed, q.workerStacks⟩
    all_goals
      by_cases hni : nt = i
      · subst hni; simp
      · simp [hni]
  · cases h

theorem exec_moves {o : Outcome} (hc : s.cur c = some i) (hk : (s.cont i).Plain)
    (hok : o = .ok → ok (s.proc i)) (h : s.exec i o = .ok s') : Moves ok K R s s' := by
  have hkeep : ∀ {t s1 : State} {j : Slot} {d : Nat} {v : Int}, t.freevm j d = .ok s1 →
      t.cont = s.cont → Quiet K s1 (s1.sysret i v) := fun h1 ht => by
    obtain ⟨-, b, rfl, -⟩ := freevm_ok h1
    exact .sysret (by simpa [ht] using hk) _
  cases o with
  | ok =>
    obtain ⟨s1, h1, h⟩ := bind_ok.mp h
    cases h
    have h2 : (s.setupkvm.1.set i fun p => { p with pgdir := s.nextDir }).freevm i
        (s.proc i).pgdir = .ok s1 := h1
    exact .head (.exec c i hc hk (hok rfl) h2) (hkeep h2 rfl).moves
  | noDir => cases h; exact (Quiet.sysret hk _).moves
  | noMem | noCopy =>
    obtain ⟨s1, h1, h⟩ := bind_ok.mp h
    cases h
    exact .head (.scratch i h1) (hkeep h1 rfl).moves

theorem adopt_quiet {m : Slot} {k : Nat} (h : s.adopt m k = .ok s') : Quiet K s s' := by
  simp only [State.adopt, bind_ok, pure_ok] at h
  obtain ⟨t, -, rfl⟩ := h
  have q : Quiet K s (s.set t fun p => { p with parent := some s.initproc }) :=
    .set ⟨rfl, rfl, rfl, .inl rfl, .inr ⟨rfl, rfl⟩⟩
  split
  · exact q.trans (.wakeup1 _)
  · exact q

theorem adopts_quiet {m : Slot} {ks : List Nat}
    (h : ks.foldlM (fun s k => s.adopt m k) s = .ok s') : Quiet K s s' := by
  induction ks generalizing s with
  | nil => cases h; exact .refl _
  | cons k ks ih =>
    simp only [List.foldlM_cons, bind_ok] at h
    obtain ⟨s1, h1, h⟩ := h
    exact (adopt_quiet h1).trans (ih h)

theorem thread_exit_moves {word : Int} (hc : s.cur c = some i) (hk : (s.cont i).Plain)
    (h : s.thread_exit c i word = .ok s') : Moves ok K R s s' := by
  unfold State.thread_exit at h
  split at h
  · cases h
  · obtain ⟨s1, h1, h⟩ := bind_ok.mp h
    dsimp only at h
    split at h
    · cases h
    · next m _ =>
      obtain ⟨s2, h2, h⟩ := bind_ok.mp h
      split at h
      · have q2 := (acquire_quiet (K := K) h1).trans ((Quiet.wakeup1 (.proc m)).trans (adopts_quiet h2))
        refine Move.between q2 (.exit c i (by rw [q2.cur]; exact hc) (q2.plain hk)) ?_
        refine .trans (.congr_setCur (.trans (.set (i := m) ?_) (.wakeup1 _)) none) (sched_ok h)
        exact ⟨rfl, rfl, rfl, .inl rfl, .inr ⟨rfl, rfl⟩⟩
      · cases h

/-- A run of `i` that starts with what `schedule` does. -/
theorem schedule_moves (hf : Free s) (hR : R i)
    (hok : s.cont i = .waiting → ∀ z ∈ s.zombie i, ok (s.proc z))
    (h : s.schedule c i = .ok s') : Moves ok K R s s' := by
  by_cases he : s.cur c ≠ none ∨ (s.proc i).state ≠ .RUNNABLE
  · simp only [State.schedule, if_pos he] at h; cases h
  · have hw : ¬ (s.cont i = .forkret ∧ (s.proc i).multi_threaded) := by
      rintro ⟨hk, hm⟩
      simp only [ne_eq, not_or, not_not] at he
      rw [hf.schedule_thread he.1 he.2 hk hm] at h
      cases h
    rw [State.schedule, if_neg he] at h
    simp only [ne_eq, not_or, not_not] at he
    obtain ⟨s1, h1, h⟩ := bind_ok.mp h
    dsimp only at h
    have q1 := acquire_quiet (K := K) h1
    have hp := acquire_proc h1
    have hcont : s1.cont = s.cont := by
      unfold State.acquire at h1
      split at h1
      · cases h1; rfl
      · cases h1
    have hrun := fun k hk => @Move.run ok K R s1 c i k (by rw [q1.cur]; exact he.1) hR
      (by rw [hp]; exact he.2) (by rw [hcont, hp]; exact hw) hk
    have q2 : Quiet K ((s1.set i fun p => { p with state := .RUNNING }).setCur c (some i))
        ((s1.set i fun p => { p with first_scheduled := true, state := .RUNNING }).setCur c (some i)) :=
      .congr_setCur (.congr_set (.refl s1) _ (by exact ⟨rfl, rfl, rfl, .inl rfl, .inr ⟨rfl, rfl⟩⟩)) _
    split at h
    · next hk =>
      have hk' : s1.cont i = .forkret := hk
      have hm : (s1.proc i).multi_threaded = false := by
        rw [hcont] at hk'; rw [hp]; simpa [hk'] using hw
      unfold State.forkret at h
      rw [if_neg (by simp [State.setCur, hm])] at h
      simp only [pure_bind, bind_ok, pure_ok] at h
      obtain ⟨s2, h2, rfl⟩ := h
      refine .head (.quiet q1) (.head (hrun .user (.inr ⟨rfl, by rw [hk']; rfl⟩)) (Quiet.moves ?_))
      exact (q2.trans (release_quiet h2)).congr_setCont .user
    · next hk =>
      have hk' : s1.cont i = .asleep := hk
      simp only [State.awake, bind_ok, pure_ok] at h
      obtain ⟨s2, h2, s3, h3, rfl⟩ := h
      refine .head (.quiet q1) (.head (hrun .user (.inr ⟨rfl, by rw [hk']; rfl⟩)) (Quiet.moves ?_))
      have q3 : Quiet K s2 (s2.pushcli c) :=
        ⟨fun _ => .refl _ _, fun _ => .inl rfl, rfl, rfl, rfl, rfl, rfl, rfl⟩
      exact ((q2.trans (.set ⟨rfl, rfl, rfl, .inl rfl, .inr ⟨rfl, rfl⟩⟩)).trans
        ((release_quiet h2).trans (q3.trans (popcli_quiet h3)))).congr_setCont .user
    · next hk =>
      have hk' : s1.cont i = .waiting := hk
      have q3 := q2.trans (.set (i := i) (f := fun p => { p with chan := .null }) ⟨rfl, rfl, rfl, .inl rfl, .inr ⟨rfl, rfl⟩⟩)
      have hid : (s1.set i fun p => { p with state := .RUNNING }).setCont i .waiting =
          s1.set i fun p => { p with state := .RUNNING } := by
        simp [State.set, State.setCont, ← hk']
      have hr := hrun .waiting (.inl ⟨hk'.symm, by decide⟩)
      rw [hid] at hr
      refine .head (.quiet q1) (.head hr (.head (.quiet q3) (waitLoop_moves ?_ ?_ ?_ h)))
      · simp [State.set, State.setCur]
      · exact ⟨by simp [State.set, State.setCur, hk'], by simp [State.set, State.setCur, hk', Cont.target]⟩
      · intro z hz
        rw [Option.mem_def, zombie_eq (s := s)] at hz
        · have hzz : (s.proc z).state = .ZOMBIE := by
            have := findSlot_some hz; simp at this; exact this.2
          have hzi : z ≠ i := by rintro rfl; rw [he.2] at hzz; cases hzz
          simp only [State.setCur, State.set_proc, Function.update_of_ne hzi, hp]
          exact hok (by rw [← hcont, hk']) z hz
        · -- the caller is no zombie, before and after it is dispatched
          intro j
          by_cases hji : j = i
          · subst hji; simp [State.setCur, he.2, hp]
          · simp [State.setCur, hji, hp]
    · next hn1 hn2 hn3 =>
      have hk : s1.cont i ≠ .forkret := fun e => hn1 e
      have hid : (s1.set i fun p => { p with state := .RUNNING }).setCont i (s1.cont i) =
          s1.set i fun p => { p with state := .RUNNING } := by
        simp [State.set, State.setCont]
      have hr := hrun (s1.cont i) (.inl ⟨rfl, hk⟩)
      rw [hid] at hr
      exact .head (.quiet q1) (.head hr (q2.trans (release_quiet h)).moves)

theorem boosted_quiet (hK : ∀ j, K j) (h : s.boosted c i = .ok s') : Quiet K s s' := by
  have q : Quiet K s (s.countTick i) := by
    unfold State.countTick
    split
    · exact ⟨fun _ => .refl _ _, fun _ => .inl rfl, rfl, rfl, rfl, rfl, rfl, rfl⟩
    · exact .refl s
  unfold State.boosted at h
  split at h
  · obtain ⟨s1, h1, h⟩ := bind_ok.mp h
    refine q.trans ((acquire_quiet h1).trans (.trans (.of_proc ?_) (release_quiet h)))
    exact fun j => ⟨rfl, rfl, rfl, .inl rfl, .inl (hK j)⟩
  · cases h; exact q

/-- After the boost, what a timer interrupt does concerns the clock of `i` only. -/
theorem preempt_moves (hK : K i) (hc : s.cur c = some i) (h : s.preempt c i = .ok s') :
    ∃ s₁, s.boosted c i = .ok s₁ ∧ Moves ok K R s₁ s' := by
  obtain ⟨s1, h1, h⟩ := bind_ok.mp h
  have hc1 : s1.cur c = some i := by
    rw [(boosted_quiet (K := fun _ => True) (fun _ => trivial) h1).cur]
    exact hc
  refine ⟨s1, h1, ?_⟩
  split at h
  · cases h; exact .refl
  · dsimp only at h
    have q2 : Quiet K s1 (s1.set i fun p => { p with time_allotment := int32 (p.time_allotment - 1) }) :=
      .set ⟨rfl, rfl, rfl, .inl rfl, .inl hK⟩
    obtain ⟨q, -, h⟩ := bind_ok.mp h
    split at h
    · cases h
    · split at h
      · cases h; exact q2.moves
      · have q3 := q2.trans (.set (i := i) (f := fun p => { p with from_trap := true })
          ⟨rfl, rfl, rfl, .inl rfl, .inr ⟨rfl, rfl⟩⟩)
        exact .head (.quiet q3) (yield_moves hK hc1 h)

theorem trap_moves {user : Bool} (hK : ∀ j, K j) (hk : user = true → ∀ i ∈ s.cur c, (s.cont i).Plain)
    (h : s.trap c user = .ok s') : Moves ok K R s s' := by
  unfold State.trap at h
  split at h
  · cases h; exact .refl
  · next i hc =>
    split at h
    · next hu => exact exit_moves hc (hk hu.2 i hc) h
    · split at h
      · obtain ⟨s1, h1, hm⟩ := preempt_moves (hK i) hc h
        exact .head (.quiet (boosted_quiet hK h1)) hm
      · cases h; exact .refl

theorem timer_moves {user : Bool} (hK : ∀ j, K j) (hk : user = true → ∀ i ∈ s.cur c, (s.cont i).Plain)
    (h : s.timer c user = .ok s') : Moves ok K R s s' := by
  unfold State.timer at h
  split at h
  · obtain ⟨s1, h1, h⟩ := bind_ok.mp h
    have q := wakeup_quiet (K := K) h1
    exact .head (.quiet q) (trap_moves hK (fun hu i hi => q.plain (hk hu i (q.cur ▸ hi))) h)
  · exact trap_moves hK hk h

theorem stepProc_moves (hf : Free s) {a : Call} (hc : s.cur c = some i)
    (hok : Sole ok s (.call c a)) (h : stepProc s c i (s.cont i) a = .ok s') :
    Moves ok (Clocks s (.call c a)) R s s' := by
  unfold stepProc at h
  have hplain : s.cont i = .user → (s.cont i).Plain := fun e => e ▸ Cont.plain_user
  split at h
  · next hk => exact allocproc_moves hc (hplain hk) h
  · next hk => exact allocproc_moves hc (hplain hk) h
  · next hk => cases h; exact kalloc_moves hc hk
  · next hk => exact allocEnqueue_moves hc hk h
  · next hk => exact forkCopy_moves hc hk h
  · next hk => exact forkPublish_moves hc hk h
  · next hk => exact threadShare_moves hc hk h
  · next hk => exact threadPublish_moves hc hk h
  · next o hk => exact exec_moves hc (hplain hk) (by rintro rfl; exact hok i hc) h
  · next hk => exact exit_moves hc (hplain hk) h
  · next hk =>
    obtain ⟨s1, h1, h⟩ := bind_ok.mp h
    have q := acquire_quiet (K := Clocks s (.call c .wait)) h1
    have hp := acquire_proc h1
    refine .head (.quiet q) (waitLoop_moves (by rw [q.cur]; exact hc) (q.plain (hplain hk)) ?_ h)
    have hz : s1.zombie i = s.zombie i := zombie_eq fun j => by rw [hp]; exact ⟨rfl, .rfl⟩
    rw [hz, hp]
    exact hok i hc
  · next hk => exact (kill_quiet (hplain hk) h).moves
  · next hk =>
    cases h
    exact (Quiet.trans (.set ⟨rfl, rfl, rfl, .inl rfl, .inr ⟨rfl, rfl⟩⟩) (.setCont (hplain hk) ⟨by decide, rfl⟩)).moves
  · next hk =>
    have q : Quiet (Clocks s (.call c .yield)) s (s.setCont i .user) :=
      .setCont (by rw [hk]; exact ⟨by decide, rfl⟩) Cont.plain_user
    exact .head (.quiet q) (yield_moves (s := s.setCont i _) hc hc h)
  · next hk => exact (set_cpu_share_quiet (hplain hk) (fun p hp => ⟨i, hc, hp⟩) h).moves
  · next hk => exact sleepOn_moves hc (hplain hk) h
  · next hk => exact thread_exit_moves hc (hplain hk) h
  · exact absurd h (hf.thread_join _)
  · cases h

/-- Every step is a sequence of moves. -/
theorem step_moves (hf : Free s) {a : Action} (hok : Sole ok s a) (h : step s a = .ok s') :
    Moves ok (Clocks s a) (Dispatches a) s s' := by
  cases a with
  | schedule c i => exact schedule_moves hf rfl hok h
  | timer c user =>
    dsimp only [step] at h
    split at h
    · cases h
    · next hu =>
      refine timer_moves (fun _ => trivial) (fun hus i hi => ?_) h
      have hk : s.cont i = .user := by
        by_contra hne; exact hu ⟨hus, i, hi, hne⟩
      exact hk ▸ Cont.plain_user
  | wakeup c chan => exact (wakeup_quiet h).moves
  | call c a =>
    dsimp only [step] at h
    split at h
    · cases h
    · next i hc => exact stepProc_moves hf hc hok h

end

/-- **Run rule for moves**: what holds at boot and is kept by every move holds in
every state of a run whose steps replace and reap only `ok` processes. -/
theorem Reachable.of_moves {ok : Proc → Prop} {G : State → Action → Prop} {I : State → Prop}
    (hG : ∀ s a, G s a → Sole ok s a) (h0 : I boot) (hm : ∀ K R s s', I s → Move ok K R s s' → I s')
    {s : State} (h : Reachable G s) : I s := by
  have hI : Free s ∧ I s := h.invariant (I := fun s => Free s ∧ I s) ⟨free_boot, h0⟩
    fun s a s' ⟨hf, hi⟩ hg hs => by
      refine ⟨hf.step_ok hs, ?_⟩
      have hm' : Moves ok (Clocks s a) (Dispatches a) s s' := step_moves hf (hG s a hg) hs
      clear hs
      induction hm' with
      | refl => exact hi
      | tail _ h ih => exact hm _ _ _ _ ih h
  exact hI.2

end Xv6.Threads
