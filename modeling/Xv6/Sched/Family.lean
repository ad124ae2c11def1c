import Xv6.Sched.Wf

/-!
# Parents, children and exits

Any number of CPUs run the kernel functions: each section under `ptable.lock` is
one step of some process, and any process that is `RUNNABLE` may be dispatched.
When it is dispatched inside `wait`, it still holds the lock and goes on to the
end of that pass of the loop.

Beside the state stand numbers of processes: a slot gets a new one when `fork`
takes it. `Deed` lists what a step can do to the life of the slots; the rest of
it is `Calm`.
-/

namespace Xv6.Sched

open Lib

namespace Kernel

variable (k : Kernel)

/-- The child that `wait` by `i` would find. -/
def zombieChild (i : Slot) : Option Slot :=
  k.findSlot fun p => p.parent = .slot i ∧ p.state = .ZOMBIE

/-- The children of `i` pass to init. -/
def disown (i : Slot) : Kernel :=
  { k with proc := fun j =>
      if (k.proc j).parent = .slot i then { k.proc j with parent := k.initproc } else k.proc j }

/-- Process `i` is dispatched by some CPU, and leaves `ptable.lock`. -/
def dispatched (i : Slot) : Except Fault Kernel :=
  if (k.proc i).state ≠ .RUNNABLE then .error .blocked
  else do
    let k' ← k.dispatch (.slot i)
    return if k.cont i = .waiting then k'.wait i else k'

/-- A timer interrupt of the CPU that runs process `i`, after the clock. -/
def interrupted (i : Slot) (user : Bool) : Except Fault Kernel :=
  if (k.proc i).killed ∧ user then k.exit i else k.preempt i

end Kernel

namespace Family

inductive Act where
  | dispatch (i : Slot)
  | interrupt (i : Slot) (user : Bool)
  /-- `wakeup`, also that of the clock -/
  | wakeup (c : Chan)
  | call (i : Slot) (a : Action)
  deriving DecidableEq, Repr

def kernelStep (k : Kernel) : Act → Except Fault Kernel
  | .dispatch i => k.dispatched i
  | .interrupt i user =>
    if (k.proc i).state ≠ .RUNNING ∨ (user ∧ k.cont i ≠ .user) then .error .blocked
    else k.interrupted i user
  | .wakeup c => .ok (k.wakeup1 c)
  | .call i a =>
    if (k.proc i).state ≠ .RUNNING then .error .blocked else stepProc k i (k.cont i) a

/-- What an action does to the set of processes. -/
inductive Event where
  | none
  /-- `fork` by `i` takes slot `np` -/
  | born (i np : Slot)
  | exits (i : Slot)
  /-- `wait` by `i` finds `z` -/
  | reaps (i z : Slot)
  deriving DecidableEq, Repr

def event (k : Kernel) : Act → Event
  | .dispatch i => if k.cont i = .waiting then (k.zombieChild i).elim .none (.reaps i) else .none
  | .interrupt i user => if (k.proc i).killed ∧ user then .exits i else .none
  | .call i .fork => (k.findSlot fun p => p.state = .UNUSED).elim .none (.born i)
  | .call i .exit => .exits i
  | .call i .wait => (k.zombieChild i).elim .none (.reaps i)
  | _ => .none

end Family

/-- The kernel, with the numbers of its processes. -/
structure Family where
  k : Kernel
  /-- the number of the process in each slot -/
  serial : Slot → Nat
  /-- the number of the next process -/
  next : Nat
  /-- the process that called `fork` for a process -/
  creator : Nat → Nat
  exited : List Nat
  /-- who was told by `wait` of whose exit -/
  reports : List (Nat × Nat)

namespace Family

def record (f : Family) (e : Event) (k : Kernel) : Family :=
  match e with
  | .none => { f with k := k }
  | .born i np => { f with
      k := k
      serial := Function.update f.serial np f.next
      creator := Function.update f.creator f.next (f.serial i)
      next := f.next + 1 }
  | .exits i => { f with k := k, exited := f.exited ++ [f.serial i] }
  | .reaps i z => { f with k := k, reports := f.reports ++ [(f.serial i, f.serial z)] }

def step (f : Family) (a : Act) : Except Fault Family := do
  let k ← kernelStep f.k a
  return f.record (event f.k a) k

/-- Init alone, as number 0. -/
def boot : Family := ⟨Kernel.boot, fun _ => 0, 1, fun _ => 0, [], []⟩

end Family

/-! ## What a step does to the life of the slots -/

/-- A change of the other fields of a slot, or that it is woken. -/
structure Eased (p p' : Proc) : Prop where
  parent : p'.parent = p.parent
  pid : p'.pid = p.pid
  chan : p'.chan = p.chan
  state : p'.state = p.state ∨ p.state = .SLEEPING ∧ p'.state = .RUNNABLE

/-- `fork` has given the child its parent. -/
def Cont.built : Cont → Bool
  | .forkPublish _ => true
  | _ => false

/-- From one point of a system call to another, with the same slot under construction. -/
structure Along (c c' : Cont) : Prop where
  child : c'.child = c.child
  built : c'.built = c.built
  left : c ≠ .waiting
  right : c' ≠ .waiting

structure Calm (k k' : Kernel) : Prop where
  proc : ∀ j, Eased (k.proc j) (k'.proc j)
  cont : ∀ j, k'.cont j = k.cont j ∨ (k.proc j).state.Started ∧ Along (k.cont j) (k'.cont j)
  initproc : k'.initproc = k.initproc

/-- Process `i` sleeps on itself, as in `wait`. -/
def SleepsOnSelf (k : Kernel) (i : Slot) : Prop :=
  (k.proc i).state = .SLEEPING ∧ (k.proc i).chan = .proc i

open Family in
/-- What a step does to the life of the slots, and the event it is. -/
inductive Deed (k : Kernel) : Event → Kernel → Prop where
  | run (i : Slot) (c : Chan) (kc : Cont) : (k.proc i).state = .RUNNABLE →
      (kc = k.cont i ∧ kc ≠ .waiting ∨ kc = .user ∧ (k.cont i).child = none) →
      Deed k .none ((k.set i fun p => { p with state := .RUNNING, chan := c }).setCont i kc)
  | stop (i : Slot) : (k.proc i).state = .RUNNING →
      Deed k .none (k.set i fun p => { p with state := .RUNNABLE })
  | sleep (i : Slot) (c : Chan) (kc : Cont) : (k.proc i).state.Started → (k.cont i).child = none →
      (kc = .asleep ∨ kc = .waiting ∧ c = .proc i ∧
        ∀ j, (k.proc j).parent = .slot i → (k.proc j).state ≠ .ZOMBIE) →
      Deed k .none ((k.set i fun p => { p with chan := c, state := .SLEEPING }).setCont i kc)
  | alloc (i np : Slot) (pid : Int) : (k.proc i).state = .RUNNING → k.cont i = .user →
      (k.proc np).state = .UNUSED →
      Deed k (.born i np)
        ((k.set np fun p => { p with state := .EMBRYO, pid := pid }).setCont i (.allocStack np))
  | drop (i np : Slot) : (k.cont i).child = some np → (k.cont i).built = false →
      Deed k .none ((k.set np fun p => { p with state := .UNUSED }).setCont i .user)
  | copy (i np : Slot) : (k.cont i).child = some np →
      Deed k .none ((k.set np fun p => { p with parent := .slot i }).setCont i (.forkPublish np))
  | publish (i np : Slot) : k.cont i = .forkPublish np →
      Deed k .none ((k.set np fun p => { p with state := .RUNNABLE }).setCont i .user)
  | exit (i : Slot) : (k.proc i).state = .RUNNING → k.cont i = .user → k.initproc ≠ .slot i →
      (∀ p, (k.proc i).parent = .slot p → ¬ SleepsOnSelf k p) →
      ((∃ z, (k.proc z).parent = .slot i ∧ (k.proc z).state = .ZOMBIE) →
        ∀ p, k.initproc = .slot p → ¬ SleepsOnSelf k p) →
      Deed k (.exits i) ((k.disown i).set i fun p => { p with state := .ZOMBIE })
  | reap (i z : Slot) (c : Chan) : (k.proc i).state.Started → (k.cont i).child = none →
      (k.proc z).parent = .slot i → (k.proc z).state = .ZOMBIE →
      Deed k (.reaps i z) (((k.set i fun p => { p with state := .RUNNING, chan := c }).set z fun p =>
        { p with pid := 0, parent := .null, killed := false, state := .UNUSED }).setCont i .user)

/-- Who is whose child, whatever the interleaving. -/
structure Kinship (k : Kernel) : Prop where
  initproc : k.initproc = .slot 0
  init : (k.proc 0).state.Started
  child : ∀ i np, (k.cont i).child = some np → (k.proc np).state = .EMBRYO
  builder : ∀ i j np, (k.cont i).child = some np → (k.cont j).child = some np → i = j
  idle : ∀ i, k.cont i ≠ .user → (k.proc i).state.Started
  parent : ∀ i j, (k.proc j).parent = .slot i → (k.proc i).state.Started
  root : (k.proc 0).parent = .null
  other : ∀ j, (k.proc j).parent ≠ .slot j
  free : ∀ j, (k.proc j).state = .UNUSED → (k.proc j).parent = .null
  embryo : ∀ j, (k.proc j).state = .EMBRYO → (k.proc j).parent ≠ .null → ∃ i, k.cont i = .forkPublish j
  built : ∀ i np, k.cont i = .forkPublish np → (k.proc np).parent = .slot i
  published : ∀ j, (k.proc j).state ≠ .UNUSED → (k.proc j).state ≠ .EMBRYO → j ≠ 0 →
    ∃ i, (k.proc j).parent = .slot i
  waiting : ∀ i, (k.proc i).state = .SLEEPING → k.cont i = .waiting →
    (k.proc i).chan = .proc i ∧ ∀ j, (k.proc j).parent = .slot i → (k.proc j).state ≠ .ZOMBIE

section
variable {k k' : Kernel} {i np : Slot}

theorem Cont.eq_forkPublish {c c' : Cont} (h1 : c'.child = c.child) (h2 : c'.built = c.built) :
    c' = .forkPublish np ↔ c = .forkPublish np := by
  cases c <;> cases c' <;> simp_all [Cont.child, Cont.built]

theorem Eased.started {p p' : Proc} (h : Eased p p') (hs : p.state.Started) : p'.state.Started := by
  rcases h.state with e | ⟨-, e⟩
  · rwa [e]
  · rw [e]; exact .inr (.inl rfl)

theorem Eased.eq {p p' : Proc} (h : Eased p p') {s : ProcState}
    (hs : s = .UNUSED ∨ s = .EMBRYO ∨ s = .ZOMBIE ∨ s = .RUNNING) : p'.state = s ↔ p.state = s := by
  rcases h.state with e | ⟨e, e'⟩
  · rw [e]
  · rw [e, e']
    rcases hs with rfl | rfl | rfl | rfl <;> simp

instance (s : ProcState) : Decidable s.Started := inferInstanceAs (Decidable (_ ∨ _ ∨ _))

/-- A change after which each slot has the parent it had, and is started if it was. -/
theorem Kinship.keep (h : Kinship k) (hinit : k'.initproc = k.initproc)
    (hp : ∀ j, (k'.proc j).parent = (k.proc j).parent)
    (hs : ∀ j, (k'.proc j).state = (k.proc j).state ∨
      (k.proc j).state.Started ∧ (k'.proc j).state.Started)
    (hc : ∀ j, k'.cont j = k.cont j ∨ (k.proc j).state.Started ∧
      (k'.cont j).child = (k.cont j).child ∧ (k'.cont j).built = (k.cont j).built)
    (hw : ∀ i, (k'.proc i).state = .SLEEPING → k'.cont i = .waiting → (k'.proc i).chan = .proc i ∧
      ∀ j, (k.proc j).parent = .slot i → (k.proc j).state ≠ .ZOMBIE) : Kinship k' := by
  have hst : ∀ j, (k.proc j).state.Started → (k'.proc j).state.Started := fun j hj => by
    rcases hs j with e | e
    · rwa [e]
    · exact e.2
  have heq : ∀ j s, ¬ ProcState.Started s → ((k'.proc j).state = s ↔ (k.proc j).state = s) :=
    fun j s hn => by
      rcases hs j with e | ⟨e, e'⟩
      · rw [e]
      · exact iff_of_false (fun he => hn (he ▸ e')) fun he => hn (he ▸ e)
  have hch : ∀ j, (k'.cont j).child = (k.cont j).child := fun j => by
    rcases hc j with e | e
    · rw [e]
    · exact e.2.1
  have hfp : ∀ j m, k'.cont j = .forkPublish m ↔ k.cont j = .forkPublish m := fun j m => by
    rcases hc j with e | ⟨-, e⟩
    · rw [e]
    · exact Cont.eq_forkPublish e.1 e.2
  exact {
    initproc := hinit.trans h.initproc
    init := hst 0 h.init
    child := fun i m hi => (heq m _ (by decide)).mpr (h.child i m (hch i ▸ hi))
    builder := fun i j m hi hj => h.builder i j m (hch i ▸ hi) (hch j ▸ hj)
    idle := fun j hj => hst j (by
      rcases hc j with e | e
      · exact h.idle j (e ▸ hj)
      · exact e.1)
    parent := fun i j hj => hst i (h.parent i j (hp j ▸ hj))
    root := (hp 0).trans h.root
    other := fun j => by rw [hp j]; exact h.other j
    free := fun j hj => (hp j).trans (h.free j ((heq j _ (by decide)).mp hj))
    embryo := fun j hj hn => by
      obtain ⟨i, hi⟩ := h.embryo j ((heq j _ (by decide)).mp hj) (hp j ▸ hn)
      exact ⟨i, (hfp i j).mpr hi⟩
    built := fun i m hi => (hp m).trans (h.built i m ((hfp i m).mp hi))
    published := fun j hu he h0 => by
      rw [hp j]
      exact h.published j (mt (heq j _ (by decide)).mpr hu) (mt (heq j _ (by decide)).mpr he) h0
    waiting := fun i hi hwt => by
      obtain ⟨h1, h2⟩ := hw i hi hwt
      refine ⟨h1, fun j hj => ?_⟩
      rw [ne_eq, heq j _ (by decide)]
      exact h2 j (hp j ▸ hj) }

theorem Kinship.calm (h : Kinship k) (c : Calm k k') : Kinship k' := by
  refine h.keep c.initproc (fun j => (c.proc j).parent) (fun j => ?_) (fun j => ?_) fun i hi hw => ?_
  · exact (c.proc j).state.imp_right fun ⟨e, e'⟩ => ⟨.inl e, e' ▸ .inr (.inl rfl)⟩
  · exact (c.cont j).imp_right fun ⟨hs, e⟩ => ⟨hs, e.child, e.built⟩
  · have hs : (k.proc i).state = .SLEEPING := by
      rcases (c.proc i).state with e | ⟨-, e⟩
      · rw [← e, hi]
      · rw [e] at hi; cases hi
    have hc : k.cont i = .waiting := by
      rcases c.cont i with e | ⟨-, e⟩
      · rw [← e, hw]
      · exact absurd hw e.right
    obtain ⟨h1, h2⟩ := h.waiting i hs hc
    exact ⟨(c.proc i).chan.trans h1, h2⟩

/-- The caller `i` of a system call changes its own state and goes on at `c`. -/
theorem Kinship.self (h : Kinship k) {p : Proc} {c : Cont} (hs : (k.proc i).state.Started)
    (hs' : p.state.Started) (hp : p.parent = (k.proc i).parent)
    (hk : c = k.cont i ∨ c.child = none ∧ (k.cont i).child = none)
    (hw : p.state = .SLEEPING → c = .waiting → p.chan = .proc i ∧
      ∀ j, (k.proc j).parent = .slot i → (k.proc j).state ≠ .ZOMBIE)
    (hinit : k'.initproc = k.initproc) (hproc : k'.proc = Function.update k.proc i p)
    (hcont : k'.cont = Function.update k.cont i c) : Kinship k' := by
  have hb : ∀ d : Cont, d.child = none → d.built = false := fun d hd => by cases d <;> first | rfl | cases hd
  refine h.keep hinit (fun j => ?_) (fun j => ?_) (fun j => ?_) fun j hj hjw => ?_
  all_goals rw [hproc] at *; rw [hcont] at *
  all_goals by_cases hji : j = i
  · subst hji; simpa using hp
  · simp [hji]
  · subst hji; simpa using .inr ⟨hs, hs'⟩
  · simp [hji]
  · subst hji
    rcases hk with rfl | ⟨h1, h2⟩
    · simp
    · exact .inr ⟨hs, by simp [h1, h2], by simp [hb _ h1, hb _ h2]⟩
  · simp [hji]
  · subst hji
    simp only [Function.update_self] at hj hjw ⊢
    exact hw hj hjw
  · simp only [Function.update_of_ne hji] at hj hjw ⊢
    exact h.waiting j hj hjw

/-- What the builder `i` of slot `np` may make of it, going on at `kc`. -/
inductive Builds (i np : Slot) (p : Proc) (kc : Cont) : Prop where
  | begin : p.state = .EMBRYO → p.parent = .null → kc = .allocStack np → Builds i np p kc
  | drop : p.state = .UNUSED → p.parent = .null → kc = .user → Builds i np p kc
  | copy : p.state = .EMBRYO → p.parent = .slot i → kc = .forkPublish np → Builds i np p kc
  | publish : p.state = .RUNNABLE → p.parent = .slot i → kc = .user → Builds i np p kc

theorem Kinship.build (h : Kinship k) {n : Slot} {p : Proc} {c : Cont} (hs : (k.proc i).state.Started)
    (hnp : (k.proc n).state = .UNUSED ∨ (k.proc n).state = .EMBRYO)
    (hmine : ∀ j, (k.cont j).child = some n → j = i)
    (hown : ∀ m, (k.cont i).child = some m → m = n) (hb : Builds i n p c)
    (hinit : k'.initproc = k.initproc) (hproc : k'.proc = Function.update k.proc n p)
    (hcont : k'.cont = Function.update k.cont i c) : Kinship k' := by
  have hns : ¬ (k.proc n).state.Started := by rcases hnp with e | e <;> rw [e] <;> decide
  have hni : i ≠ n := by rintro rfl; exact hns hs
  have hn0 : 0 ≠ n := by rintro rfl; exact hns h.init
  have hz : (k.proc n).state ≠ .ZOMBIE ∧ p.state ≠ .ZOMBIE ∧ p.state ≠ .SLEEPING := by
    refine ⟨by rcases hnp with e | e <;> rw [e] <;> decide, ?_⟩
    cases hb <;> simp_all
  have hpar : p.parent = .null ∨ p.parent = .slot i := by cases hb <;> simp_all
  have hoth : ∀ j, j ≠ n → k'.proc j = k.proc j := fun j hj => by rw [hproc]; simp [hj]
  have hself : k'.proc n = p := by rw [hproc]; simp
  have hst : ∀ j, (k.proc j).state.Started → (k'.proc j).state.Started := fun j hj => by
    rwa [hoth j (by rintro rfl; exact hns hj)]
  have hci : k'.cont i = c := by rw [hcont]; simp
  have hcj : ∀ j, j ≠ i → k'.cont j = k.cont j := fun j hj => by rw [hcont]; simp [hj]
  have hkc : c.child = none ∨ c.child = some n ∧ p.state = .EMBRYO := by
    cases hb with
    | begin h1 _ h3 => subst h3; exact .inr ⟨rfl, h1⟩
    | copy h1 _ h3 => subst h3; exact .inr ⟨rfl, h1⟩
    | drop _ _ h3 => subst h3; exact .inl rfl
    | publish _ _ h3 => subst h3; exact .inl rfl
  constructor
  · exact hinit.trans h.initproc
  · exact hst 0 h.init
  · intro j m hm
    by_cases hji : j = i
    · rw [hji, hci] at hm
      rcases hkc with e | ⟨e, he⟩
      · rw [e] at hm; cases hm
      · rw [e] at hm; cases hm; rw [hself, he]
    · rw [hcj j hji] at hm
      rw [hoth m (by rintro rfl; exact hji (hmine j hm))]
      exact h.child j m hm
  · intro j j' m hm hm'
    have hone : ∀ j, (k'.cont j).child = some m → j ≠ i → m ≠ n ∧ (k.cont j).child = some m :=
      fun j hm hji => by
        rw [hcj j hji] at hm
        exact ⟨by rintro rfl; exact hji (hmine j hm), hm⟩
    have hnp : (k'.cont i).child = some m → m = n := fun hm => by
      rw [hci] at hm
      rcases hkc with e | ⟨e, -⟩
      · rw [e] at hm; cases hm
      · rw [e] at hm; cases hm; rfl
    by_cases hji : j = i <;> by_cases hji' : j' = i
    · rw [hji, hji']
    · subst hji; exact absurd (hnp hm) (hone j' hm' hji').1
    · subst hji'; exact absurd (hnp hm') (hone j hm hji).1
    · exact h.builder j j' m (hone j hm hji).2 (hone j' hm' hji').2
  · intro j hj
    by_cases hji : j = i
    · subst hji; exact hst j hs
    · exact hst j (h.idle j (hcj j hji ▸ hj))
  · intro j m hm
    by_cases hmn : m = n
    · subst hmn
      rw [hself] at hm
      rcases hpar with e | e
      · rw [e] at hm; cases hm
      · rw [e] at hm; cases hm; exact hst _ hs
    · exact hst j (h.parent j m (hoth m hmn ▸ hm))
  · rw [hoth 0 hn0]; exact h.root
  · intro j
    by_cases hjn : j = n
    · subst hjn
      rw [hself]
      rcases hpar with e | e
      · rw [e]; simp
      · rw [e]; simpa using hni
    · rw [hoth j hjn]; exact h.other j
  · intro j hj
    by_cases hjn : j = n
    · subst hjn
      rw [hself] at hj ⊢
      cases hb <;> simp_all
    · rw [hoth j hjn] at hj ⊢; exact h.free j hj
  · intro j hj hn
    by_cases hjn : j = n
    · subst hjn
      rw [hself] at hj hn
      exact ⟨i, by rw [hci]; cases hb <;> simp_all⟩
    · rw [hoth j hjn] at hj hn
      obtain ⟨b, hbj⟩ := h.embryo j hj hn
      refine ⟨b, ?_⟩
      rw [hcj b ?_, hbj]
      rintro rfl
      exact hjn (hown j (by rw [hbj]; rfl))
  · intro j m hm
    by_cases hji : j = i
    · rw [hji, hci] at hm
      cases hb with
      | copy _ h2 h3 =>
        rw [h3] at hm
        cases hm
        rw [hself, h2, hji]
      | begin _ _ h3 | drop _ _ h3 | publish _ _ h3 => rw [h3] at hm; cases hm
    · rw [hcj j hji] at hm
      rw [hoth m (by rintro rfl; exact hji (hmine j (by rw [hm]; rfl)))]
      exact h.built j m hm
  · intro j hu he h0
    by_cases hjn : j = n
    · subst hjn
      rw [hself] at hu he ⊢
      cases hb <;> simp_all
    · rw [hoth j hjn] at hu he ⊢; exact h.published j hu he h0
  · intro j hj hw
    have hjn : j ≠ n := by rintro rfl; rw [hself] at hj; exact hz.2.2 hj
    have hji : j ≠ i := by
      rintro rfl
      rw [hci] at hw
      cases hb <;> simp_all
    rw [hoth j hjn] at hj ⊢
    obtain ⟨h1, h2⟩ := h.waiting j hj (hcj j hji ▸ hw)
    refine ⟨h1, fun m hm => ?_⟩
    by_cases hmn : m = n
    · subst hmn; rw [hself]; exact hz.2.1
    · rw [hoth m hmn] at hm ⊢; exact h2 m hm

/-- Slot `j` after the exit of `i`. -/
theorem exited_proc (k : Kernel) (i j : Slot) :
    ((k.disown i).set i fun p => { p with state := .ZOMBIE }).proc j =
      { k.proc j with
        parent := if (k.proc j).parent = .slot i then k.initproc else (k.proc j).parent
        state := if j = i then .ZOMBIE else (k.proc j).state } := by
  by_cases hji : j = i
  · subst hji
    simp only [Kernel.disown, Kernel.set_proc, Function.update_self, if_true]
    split <;> rfl
  · simp only [Kernel.disown, Kernel.set_proc, Function.update_of_ne hji, if_neg hji]
    split <;> rfl

theorem Kinship.exit (h : Kinship k) (hr : (k.proc i).state = .RUNNING) (hu : k.cont i = .user)
    (h0 : k.initproc ≠ .slot i) (hp : ∀ p, (k.proc i).parent = .slot p → ¬ SleepsOnSelf k p)
    (hz : (∃ z, (k.proc z).parent = .slot i ∧ (k.proc z).state = .ZOMBIE) →
      ∀ p, k.initproc = .slot p → ¬ SleepsOnSelf k p) :
    Kinship ((k.disown i).set i fun p => { p with state := .ZOMBIE }) := by
  have hi0 : (0 : Slot) ≠ i := by rintro rfl; exact h0 h.initproc
  have hproc := exited_proc k i
  generalize hk' : (k.disown i).set i (fun p => { p with state := .ZOMBIE }) = k' at *
  have hcont : k'.cont = k.cont := by rw [← hk']; rfl
  have hst : ∀ j, (k'.proc j).state = if j = i then .ZOMBIE else (k.proc j).state := fun j => by
    rw [hproc]
  have hnull : ∀ j, (k.proc j).parent = .null → (k'.proc j).parent = .null := fun j hj => by
    rw [hproc]
    dsimp only
    rw [hj, if_neg (by simp)]
  -- who had parent `i` has parent 0
  have hpar : ∀ j q, (k'.proc j).parent = .slot q ↔
      (k.proc j).parent = .slot i ∧ q = 0 ∨ (k.proc j).parent = .slot q ∧ q ≠ i := fun j q => by
    rw [hproc]
    dsimp only
    split
    · next e =>
      rw [h.initproc, e]
      simp only [Ptr.slot.injEq, true_and, eq_comm]
      grind
    · next e => grind
  have hnc : ∀ j, (k.cont j).child ≠ some i := fun j hj => by
    have := h.child j i hj
    rw [hr] at this; cases this
  constructor
  · rw [← hk']; exact h.initproc
  · rw [hst, if_neg hi0]; exact h.init
  · intro j m hm
    rw [hcont] at hm
    rw [hst, if_neg (by rintro rfl; exact hnc j hm)]
    exact h.child j m hm
  · rw [hcont]; exact h.builder
  · intro j hj
    rw [hcont] at hj
    rw [hst, if_neg (by rintro rfl; exact hj hu)]
    exact h.idle j hj
  · intro q j hj
    rcases (hpar j q).mp hj with ⟨-, rfl⟩ | ⟨hq, hne⟩
    · rw [hst, if_neg hi0]; exact h.init
    · rw [hst, if_neg hne]; exact h.parent q j hq
  · exact hnull 0 h.root
  · intro j hj
    rcases (hpar j j).mp hj with ⟨e, rfl⟩ | ⟨e, -⟩
    · rw [h.root] at e; cases e
    · exact h.other j e
  · intro j hj
    rw [hst] at hj
    split at hj
    · cases hj
    · exact hnull j (h.free j hj)
  · intro j hj hn
    rw [hst] at hj
    split at hj
    · cases hj
    · rw [hcont]
      exact h.embryo j hj fun e => hn (hnull j e)
  · intro j m hm
    rw [hcont] at hm
    exact (hpar m j).mpr (.inr ⟨h.built j m hm, by rintro rfl; rw [hu] at hm; cases hm⟩)
  · intro j hju he hj0
    have hold : ∃ q, (k.proc j).parent = .slot q := by
      rw [hst] at hju he
      split at hju
      · next e => subst e; exact h.published j (by rw [hr]; decide) (by rw [hr]; decide) hj0
      · next e => rw [if_neg e] at he; exact h.published j hju he hj0
    obtain ⟨q, hq⟩ := hold
    by_cases hqi : q = i
    · exact ⟨0, (hpar j 0).mpr (.inl ⟨hqi ▸ hq, rfl⟩)⟩
    · exact ⟨q, (hpar j q).mpr (.inr ⟨hq, hqi⟩)⟩
  · intro q hq hw
    rw [hcont] at hw
    have hqi : q ≠ i := by rintro rfl; rw [hu] at hw; cases hw
    rw [hst, if_neg hqi] at hq
    obtain ⟨h1, h2⟩ := h.waiting q hq hw
    refine ⟨by rw [hproc]; exact h1, fun j hj hjz => ?_⟩
    have hself : SleepsOnSelf k q := ⟨hq, h1⟩
    rw [hst] at hjz
    rcases (hpar j q).mp hj with ⟨hji, rfl⟩ | ⟨hjq, -⟩
    · split at hjz
      · next e => exact h.other j (e ▸ hji)
      · exact hz ⟨j, hji, hjz⟩ 0 h.initproc hself
    · split at hjz
      · next e => exact hp q (e ▸ hjq) hself
      · exact h2 j hjq hjz

/-- A zombie is freed. -/
theorem Kinship.reaped (h : Kinship k) {z : Slot} {f : Proc → Proc} (hz : (k.proc z).state = .ZOMBIE)
    (hs : (f (k.proc z)).state = .UNUSED) (hp : (f (k.proc z)).parent = .null) :
    Kinship (k.set z f) := by
  have hns : ¬ (k.proc z).state.Started := by rw [hz]; decide
  have hoth : ∀ j, j ≠ z → (k.set z f).proc j = k.proc j := fun j hj => by simp [hj]
  have hself : (k.set z f).proc z = f (k.proc z) := by simp
  have hst : ∀ j, (k.proc j).state.Started → ((k.set z f).proc j).state.Started := fun j hj => by
    rwa [hoth j (by rintro rfl; exact hns hj)]
  have hpar : ∀ i j, ((k.set z f).proc j).parent = .slot i → j ≠ z ∧ (k.proc j).parent = .slot i :=
    fun i j hj => by
      have hjz : j ≠ z := by rintro rfl; rw [hself, hp] at hj; cases hj
      exact ⟨hjz, hoth j hjz ▸ hj⟩
  constructor
  · exact h.initproc
  · exact hst 0 h.init
  · intro i m hm
    have hem := h.child i m hm
    rwa [hoth m (by rintro rfl; rw [hz] at hem; cases hem)]
  · exact h.builder
  · exact fun j hj => hst j (h.idle j hj)
  · exact fun i j hj => hst i (h.parent i j (hpar i j hj).2)
  · rw [hoth 0 (by rintro rfl; exact hns h.init)]; exact h.root
  · exact fun j hj => h.other j (hpar j j hj).2
  · intro j hj
    by_cases hjz : j = z
    · subst hjz; rw [hself]; exact hp
    · rw [hoth j hjz] at hj ⊢; exact h.free j hj
  · intro j hj hn
    have hjz : j ≠ z := by rintro rfl; rw [hself, hp] at hn; exact hn rfl
    rw [hoth j hjz] at hj hn
    exact h.embryo j hj hn
  · intro i m hm
    have hem := h.child i m (show (k.cont i).child = some m by rw [show k.cont i = _ from hm]; rfl)
    rw [hoth m (by rintro rfl; rw [hz] at hem; cases hem)]
    exact h.built i m hm
  · intro j hu he h0
    have hjz : j ≠ z := by rintro rfl; rw [hself] at hu; exact hu hs
    rw [hoth j hjz] at hu he ⊢
    exact h.published j hu he h0
  · intro i hi hw
    have hiz : i ≠ z := by rintro rfl; rw [hself, hs] at hi; cases hi
    rw [hoth i hiz] at hi ⊢
    obtain ⟨h1, h2⟩ := h.waiting i hi hw
    refine ⟨h1, fun j hj => ?_⟩
    obtain ⟨hjz, hj⟩ := hpar i j hj
    rw [hoth j hjz]
    exact h2 j hj

open Family in
/-- **Step lemma**: no deed breaks a family. -/
theorem Kinship.deed {e : Event} (h : Kinship k) (d : Deed k e k') : Kinship k' := by
  cases d with
  | run i c kc hr hk =>
    refine h.self (i := i) (p := { k.proc i with state := .RUNNING, chan := c }) (c := kc) ?_ ?_ rfl
      (hk.imp (fun e => e.1) fun ⟨e, hc⟩ => ⟨e ▸ rfl, hc⟩) (fun e => by cases e) rfl rfl rfl
    · rw [hr]; exact .inr (.inl rfl)
    · exact .inr (.inr rfl)
  | stop i hr =>
    refine h.self (i := i) (p := { k.proc i with state := .RUNNABLE }) (c := k.cont i) ?_ ?_ rfl (.inl rfl)
      (fun e => by cases e) rfl rfl ?_
    · rw [hr]; exact .inr (.inr rfl)
    · exact .inr (.inl rfl)
    · simp
  | sleep i c kc hs hn hk =>
    refine h.self (i := i) (p := { k.proc i with chan := c, state := .SLEEPING }) (c := kc) hs (.inl rfl)
      rfl (.inr ⟨?_, hn⟩) (fun _ hw => ?_) rfl rfl rfl
    · rcases hk with rfl | ⟨rfl, -⟩ <;> rfl
    · rcases hk with rfl | ⟨-, rfl, hz⟩
      · cases hw
      · exact ⟨rfl, hz⟩
  | alloc i np pid hr hu hn =>
    refine h.build (i := i) (n := np) (p := { k.proc np with state := .EMBRYO, pid := pid })
      (c := .allocStack np) ?_ (.inl hn) (fun j hj => ?_) (fun m hm => ?_)
      (.begin rfl (h.free np hn) rfl) rfl rfl rfl
    · rw [hr]; exact .inr (.inr rfl)
    · have := h.child j np hj
      rw [hn] at this; cases this
    · rw [hu] at hm; cases hm
  | drop i np hc hb =>
    -- a slot that is given back has no parent yet, as it has one builder
    have hp : (k.proc np).parent = .null := by
      by_contra hn
      obtain ⟨j, hj⟩ := h.embryo np (h.child i np hc) hn
      obtain rfl := h.builder i j np hc (by rw [hj]; rfl)
      rw [hj] at hb
      cases hb
    refine h.build (i := i) (n := np) (p := { k.proc np with state := .UNUSED }) (c := .user) ?_
      (.inr (h.child i np hc)) (fun j hj => h.builder j i np hj hc) (fun m hm => ?_) (.drop rfl hp rfl)
      rfl rfl rfl
    · exact h.idle i fun e => by rw [e] at hc; cases hc
    · rw [hc] at hm; cases hm; rfl
  | copy i np hc =>
    refine h.build (i := i) (n := np) (p := { k.proc np with parent := .slot i }) (c := .forkPublish np) ?_
      (.inr (h.child i np hc)) (fun j hj => h.builder j i np hj hc) (fun m hm => ?_)
      (.copy (h.child i np hc) rfl rfl) rfl rfl rfl
    · exact h.idle i fun e => by rw [e] at hc; cases hc
    · rw [hc] at hm; cases hm; rfl
  | publish i np hf =>
    have hc : (k.cont i).child = some np := by rw [hf]; rfl
    refine h.build (i := i) (n := np) (p := { k.proc np with state := .RUNNABLE }) (c := .user) ?_
      (.inr (h.child i np hc)) (fun j hj => h.builder j i np hj hc) (fun m hm => ?_)
      (.publish rfl (h.built i np hf) rfl) rfl rfl rfl
    · exact h.idle i fun e => by rw [e] at hc; cases hc
    · rw [hc] at hm; cases hm; rfl
  | exit i hr hu h0 hp hz => exact h.exit hr hu h0 hp hz
  | reap i z c hs hn hp hz =>
    have hzi : z ≠ i := by rintro rfl; rw [hz] at hs; exact absurd hs (by decide)
    have h1 : Kinship ((k.set i fun p => { p with state := .RUNNING, chan := c }).setCont i .user) :=
      h.self (i := i) (p := { k.proc i with state := .RUNNING, chan := c }) (c := .user) hs
        (.inr (.inr rfl)) rfl (.inr ⟨rfl, hn⟩) (fun e => by cases e) rfl rfl rfl
    exact h1.reaped (z := z) (f := fun p => { p with
      pid := 0, parent := .null, killed := false, state := .UNUSED }) (by simpa [hzi] using hz) rfl rfl

end

end Xv6.Sched
