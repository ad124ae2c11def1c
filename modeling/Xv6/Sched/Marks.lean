import Xv6.Sched.Clock

/-!
# Kills and boosts

`killed` is set by `kill` and cleared by `wait`; `MLFQ_ticks` is advanced by the
timer interrupt. Every other part of a step is `Steady`: it leaves the counter
and all `killed` flags alone, and frees no slot that held a process.
-/

namespace Xv6.Sched

open Lib

/-- The slot holds no process yet: it is free or being built. -/
def ProcState.Unborn (s : ProcState) : Prop := s = .UNUSED ∨ s = .EMBRYO

instance (s : ProcState) : Decidable s.Unborn := inferInstanceAs (Decidable (_ ∨ _))

structure Unmarked (p p' : Proc) : Prop where
  killed : p'.killed = p.killed
  unborn : p'.state.Unborn → p.state.Unborn

structure Steady (k k' : Kernel) : Prop where
  ticks : k'.MLFQ_ticks = k.MLFQ_ticks
  proc : ∀ j, Unmarked (k.proc j) (k'.proc j)

/-! ## Steady parts of steps -/

section
variable {k k' k'' : Kernel} {i : Slot}

theorem Unmarked.refl (p : Proc) : Unmarked p p := ⟨rfl, id⟩

theorem Unmarked.trans {p q r : Proc} (h : Unmarked p q) (h' : Unmarked q r) : Unmarked p r :=
  ⟨h'.killed.trans h.killed, fun hr => h.unborn (h'.unborn hr)⟩

theorem Steady.trans (h : Steady k k') (h' : Steady k' k'') : Steady k k'' :=
  ⟨h'.ticks.trans h.ticks, fun j => (h.proc j).trans (h'.proc j)⟩

/-- Nothing changes but queues, the stride table and program points. -/
theorem Steady.of_eq (hp : k'.proc = k.proc) (ht : k'.MLFQ_ticks = k.MLFQ_ticks) : Steady k k' :=
  ⟨ht, fun j => by rw [hp]; exact .refl _⟩

theorem Steady.refl (k : Kernel) : Steady k k := .of_eq rfl rfl

theorem Steady.set {f : Proc → Proc} (hf : Unmarked (k.proc i) (f (k.proc i))) :
    Steady k (k.set i f) := by
  refine ⟨rfl, fun j => ?_⟩
  by_cases hj : j = i
  · subst hj; simpa using hf
  · simpa [hj] using Unmarked.refl _

/-- The slot gets a state of a process. -/
theorem Steady.born {f : Proc → Proc} (hk : (f (k.proc i)).killed = (k.proc i).killed)
    (hs : ¬ (f (k.proc i)).state.Unborn) : Steady k (k.set i f) :=
  .set ⟨hk, fun h => absurd h hs⟩

theorem Steady.setPtr {f : Proc → Proc} {p : Ptr} (h : k.setPtr f p = .ok k')
    (hf : ∀ p, Unmarked p (f p)) : Steady k k' := by
  rcases setPtr_ok h with ⟨-, rfl⟩ | ⟨j, -, rfl⟩
  · exact .of_eq rfl rfl
  · exact .set (hf _)

theorem steady_enqueue {lev : Int} (h : k.enqueue i lev = .ok k') : Steady k k' := by
  obtain ⟨l, q, -, -, rfl⟩ := enqueue_ok.mp h
  exact .of_eq rfl rfl

theorem steady_dequeue {brk : Bool} {lev : Int} (h : k.dequeue brk i lev = .ok k') :
    Steady k k' := by
  obtain ⟨l, q, -, -, rfl⟩ := dequeue_ok.mp h
  exact .of_eq rfl rfl

theorem steady_wakeup1 (c : Chan) : Steady k (k.wakeup1 c) := by
  refine ⟨rfl, fun j => ?_⟩
  simp only [Kernel.wakeup1]
  split
  · exact ⟨rfl, fun h => by rcases h with h | h <;> cases h⟩
  · exact .refl _

theorem steady_boost : Steady k k.boost := ⟨rfl, fun _ => ⟨rfl, id⟩⟩

theorem steady_fork : Steady k (k.fork i) := by
  unfold Kernel.fork Kernel.allocproc
  cases hf : k.findSlot fun p => p.state = .UNUSED with
  | none => exact .of_eq rfl rfl
  | some np =>
    have hn : (k.proc np).state = .UNUSED := by simpa using findSlot_some hf
    have hset : Steady k (k.set np fun p => { p with state := .EMBRYO, pid := k.nextpid }) :=
      .set ⟨rfl, fun _ => .inl hn⟩
    exact hset.trans (.of_eq rfl rfl)

/-- A slot that was being built is given back. -/
theorem steady_free {np : Slot} (hn : (k.proc np).state = .EMBRYO) :
    Steady k ((k.set np fun p => { p with state := .UNUSED }).sysret i (-1)) := by
  have hset : Steady k (k.set np fun p => { p with state := .UNUSED }) :=
    .set ⟨rfl, fun _ => .inr hn⟩
  exact hset.trans (.of_eq rfl rfl)

theorem steady_kalloc {np : Slot} {ok : Bool} (hn : (k.proc np).state = .EMBRYO) :
    Steady k (k.kalloc i np ok) := by
  unfold Kernel.kalloc
  split
  · have hset : Steady k (k.allocInit np) := .set ⟨rfl, id⟩
    exact hset.trans (.of_eq rfl rfl)
  · exact steady_free hn

theorem steady_allocEnqueue {np : Slot} (h : k.allocEnqueue i np = .ok k') : Steady k k' := by
  simp only [Kernel.allocEnqueue, bind_ok, pure_ok] at h
  obtain ⟨k₁, h₁, rfl⟩ := h
  exact (steady_enqueue h₁).trans (.of_eq rfl rfl)

theorem steady_copyuvm {np : Slot} {ok : Bool} (hn : (k.proc np).state = .EMBRYO) :
    Steady k (k.copyuvm i np ok) := by
  unfold Kernel.copyuvm
  split
  · have hset : Steady k (k.set np fun p => { p with parent := .slot i }) := .set ⟨rfl, id⟩
    exact hset.trans (.of_eq rfl rfl)
  · exact steady_free hn

theorem steady_forkPublish {np : Slot} : Steady k (k.forkPublish i np) := by
  have hset : Steady k (k.set np fun p => { p with state := .RUNNABLE }) :=
    .born rfl (by simp [ProcState.Unborn])
  exact hset.trans (.of_eq rfl rfl)

theorem steady_adjust (h : k.adjust i = .ok k') : Steady k k' := by
  rcases adjust_ok h with ⟨-, l, l', q, q', a, -, -, -, -, rfl⟩ | ⟨-, a, rfl⟩
  · have hq : Steady k ((k.setQueue l q).setQueue l' q') := .of_eq rfl rfl
    exact hq.trans (.set ⟨rfl, id⟩)
  · exact .set ⟨rfl, id⟩

theorem steady_yield (h : k.yield i = .ok k') : Steady k k' := by
  simp only [Kernel.yield, bind_ok, pure_ok] at h
  obtain ⟨k₁, h₁, rfl⟩ := h
  have hrun : Steady k (k.set i fun p => { p with state := .RUNNABLE }) := .born rfl (by simp [ProcState.Unborn])
  obtain ⟨a, ha⟩ := charge_proc (k.set i fun p => { p with state := .RUNNABLE }) i
  have hcharge : Steady k ((k.set i fun p => { p with state := .RUNNABLE }).charge i) := by
    rw [ha]
    exact hrun.trans (.set ⟨rfl, id⟩)
  exact (hcharge.trans (steady_adjust h₁)).trans (.of_eq rfl rfl)

theorem steady_sleep (c : Chan) (cont : Cont) : Steady k (k.sleep i c cont) := by
  have hset : Steady k (k.set i fun p => { p with chan := c, state := .SLEEPING }) :=
    .born rfl (by simp [ProcState.Unborn])
  exact hset.trans (.of_eq rfl rfl)

theorem steady_reparent : Steady k (k.reparent i) := by
  have hset : Steady k { k with proc := fun j => if (k.proc j).parent = .slot i
      then { k.proc j with parent := k.initproc } else k.proc j } := by
    refine ⟨rfl, fun j => ?_⟩
    dsimp only
    split
    · exact ⟨rfl, id⟩
    · exact .refl _
  unfold Kernel.reparent
  dsimp only
  split
  · exact hset.trans (steady_wakeup1 _)
  · exact hset

theorem steady_unschedule (h : k.unschedule i = .ok k') : Steady k k' := by
  unfold Kernel.unschedule at h
  split at h
  · exact steady_dequeue h
  · simp only [bind_ok] at h
    obtain ⟨st, -, e, -, h⟩ := h
    have hst : Steady k { k with stable := st } := .of_eq rfl rfl
    exact hst.trans (.setPtr h fun _ => ⟨rfl, id⟩)

theorem steady_exit (h : k.exit i = .ok k') : Steady k k' := by
  unfold Kernel.exit at h
  split at h
  · cases h
  · simp only [bind_ok, pure_ok] at h
    obtain ⟨k₁, h₁, rfl⟩ := h
    have hw := (steady_wakeup1 (k := k) (k.proc i).parent.chan).trans (steady_reparent (i := i))
    have hz : Steady k₁ (k₁.set i fun p => { p with state := .ZOMBIE }) := .born rfl (by simp [ProcState.Unborn])
    exact ((hw.trans (steady_unschedule h₁)).trans hz).trans (.of_eq rfl rfl)

theorem steady_set_cpu_share {share : Int} (h : k.set_cpu_share i share = .ok k') :
    Steady k k' := by
  simp only [Kernel.set_cpu_share, bind_ok] at h
  obtain ⟨e, -, m, -, h⟩ := h
  split at h <;> cases h <;> exact .of_eq rfl rfl

theorem steady_setShareLocked {e : Ptr} {share : Int} (h : k.setShareLocked i e share = .ok k') :
    Steady k k' := by
  simp only [Kernel.setShareLocked, bind_ok, pure_ok] at h
  obtain ⟨st, -, k₁, h₁, k₂, h₂, rfl⟩ := h
  have hst : Steady k { k with stable := st } := .of_eq rfl rfl
  have hshare : Steady k₁ (k₁.set i fun p => { p with share := share, pass := k₁.min_pass }) :=
    .set ⟨rfl, id⟩
  have hlev : Steady k₂ (k₂.set i fun p => { p with
      lev := STRIDE_LEV, time_allotment := STRIDE_DEFAULT_TIME_QUANTOM }) := .set ⟨rfl, id⟩
  have h₁' := hst.trans (.setPtr h₁ fun _ => ⟨rfl, id⟩)
  exact (((h₁'.trans hshare).trans (steady_dequeue h₂)).trans hlev).trans (.of_eq rfl rfl)

theorem steady_resume : Steady k (k.resume i) := by
  have hchan : Steady k (k.set i fun p => { p with chan := .null }) := .set ⟨rfl, id⟩
  have hset : ∀ c : Cont, Steady k ((k.set i fun p => { p with chan := .null }).setCont i c) :=
    fun c => hchan.trans (.of_eq rfl rfl)
  unfold Kernel.resume
  split
  · exact hset _
  · exact hset _
  · exact .refl k

theorem steady_dispatch {ptr : Ptr} (h : k.dispatch ptr = .ok k') : Steady k k' := by
  rcases dispatch_ok h with rfl | ⟨j, -, -, rfl⟩
  · exact .refl k'
  · have hrun : Steady k (k.set j fun p => { p with
        first_scheduled := true, start_tick := k.MLFQ_ticks, state := .RUNNING }) :=
      .born rfl (by simp [ProcState.Unborn])
    have hcur : Steady (k.set j fun p => { p with
        first_scheduled := true, start_tick := k.MLFQ_ticks, state := .RUNNING })
        { k.set j fun p => { p with
          first_scheduled := true, start_tick := k.MLFQ_ticks, state := .RUNNING } with
          cur := some j } := .of_eq rfl rfl
    exact (hrun.trans hcur).trans steady_resume

theorem steady_scheduler (h : k.scheduler = .ok k') : Steady k k' := by
  simp only [Kernel.scheduler, bind_ok] at h
  obtain ⟨m, -, e, -, p, -, h⟩ := h
  split at h
  · cases h
  simp only [bind_ok] at h
  obtain ⟨k₁, h₁, ptr, -, h⟩ := h
  have hpass : Steady k { k₁ with min_pass := int32 (p.pass + MULTSTRIDESHARE.tdiv p.share) } :=
    (Steady.setPtr h₁ fun _ => ⟨rfl, id⟩).trans (.of_eq rfl rfl)
  exact hpass.trans (steady_dispatch h)

/-- A step that is neither a tick nor a `wait` nor a `kill` is steady. -/
theorem steady_step {a : Action} (hw : Wf k) (ht : ∀ user, a ≠ .timer user) (hwait : a ≠ .wait)
    (hkill : ∀ pid, a ≠ .kill pid) (h : step k a = .ok k') : Steady k k' := by
  unfold step at h
  split at h
  · split at h
    · exact steady_scheduler h
    · exact absurd rfl (ht _)
    · cases h; exact steady_wakeup1 _
    · cases h
  · next i hc =>
    split at h
    · exact absurd rfl (ht _)
    · split at h
      · cases h
      · cases h; exact steady_wakeup1 _
    · generalize hci : k.cont i = c at h
      unfold stepProc at h
      split at h
      · cases h; exact steady_fork
      · cases h; exact steady_kalloc (hw.embryo i _ (by rw [hci]; rfl))
      · exact steady_allocEnqueue h
      · cases h; exact steady_copyuvm (hw.embryo i _ (by rw [hci]; rfl))
      · cases h; exact steady_forkPublish
      · cases h
        have hset : Steady k (k.set i fun p => { p with from_trap := false }) := .set ⟨rfl, id⟩
        exact hset.trans (.of_eq rfl rfl)
      · have hcont : Steady k (k.setCont i .user) := .of_eq rfl rfl
        exact hcont.trans (steady_yield h)
      · exact steady_set_cpu_share h
      · exact steady_setShareLocked h
      · cases h; exact steady_sleep _ _
      · exact steady_exit h
      · exact absurd rfl hwait
      · exact absurd rfl hwait
      · exact absurd rfl (hkill _)
      · cases h

/-! ## Ticks -/

/-- The kernel as `trap` has it after `wakeup(&ticks)`. -/
def Kernel.ticked (k : Kernel) : Kernel :=
  { k with ticks := (k.ticks + 1) % 2 ^ 32 }.wakeup1 .ticks

theorem steady_ticked : Steady k k.ticked := by
  have hticks : Steady k { k with ticks := (k.ticks + 1) % 2 ^ 32 } := .of_eq rfl rfl
  exact hticks.trans (steady_wakeup1 _)

/-- Waking the sleepers leaves a running process alone. -/
theorem ticked_proc (hr : (k.proc i).state = .RUNNING) : k.ticked.proc i = k.proc i := by
  simp [Kernel.ticked, Kernel.wakeup1, hr]

/-- **Tick inversion**: nothing runs, the running process exits, or the tick is
counted for it and the boost is tested. -/
theorem timer_cases {user : Bool} (hw : Wf k) (h : k.timer user = .ok k') :
    (k.cur = none ∧ Steady k k') ∨ ∃ i, k.cur = some i ∧
      (((k.proc i).killed ∧ user) ∧ Steady k k' ∨
        ¬ ((k.proc i).killed ∧ user) ∧ Steady (k.ticked.boosted i) k') := by
  unfold Kernel.timer at h
  dsimp only at h
  split at h
  · next hc => cases h; exact .inl ⟨hc, steady_ticked⟩
  · next i hc =>
    have hr : (k.proc i).state = .RUNNING := hw.running_started hc
    change (if (k.ticked.proc i).killed ∧ user then k.ticked.exit i
      else if (k.ticked.proc i).state = ProcState.RUNNING then k.ticked.preempt i
      else .ok k.ticked) = .ok k' at h
    rw [ticked_proc hr, if_pos hr] at h
    refine .inr ⟨i, hc, ?_⟩
    split at h
    · next hk => exact .inl ⟨hk, steady_ticked.trans (steady_exit h)⟩
    · next hk =>
      refine .inr ⟨hk, ?_⟩
      obtain ⟨a, rfl | hy⟩ := preempt_ok h
      · exact .set ⟨rfl, id⟩
      · exact (Steady.set ⟨rfl, id⟩).trans (steady_yield hy)

theorem boosted_ticks : (k.boosted i).MLFQ_ticks = (k.countTick i).MLFQ_ticks := by
  unfold Kernel.boosted
  split <;> rfl

end

/-! ## Boosts -/

/-- How often `trap` calls `boost` on a timer interrupt: the branches of `timer`. -/
def timerCalls (k : Kernel) (user : Bool) : Nat :=
  match k.ticked.cur with
  | none => 0
  | some i =>
    if (k.ticked.proc i).killed ∧ user then 0
    else if (k.ticked.proc i).state = .RUNNING then
      if (k.ticked.countTick i).boostDue then 1 else 0
    else 0

/-- How often an action calls `boost`. -/
def boostCalls (k : Kernel) : Action → Nat
  | .timer user => timerCalls k user
  | _ => 0

/-- Between the two states `MLFQ_ticks` was incremented to a multiple of the period. -/
def PeriodEnds (k k' : Kernel) : Prop :=
  k'.MLFQ_ticks ≠ k.MLFQ_ticks ∧ k'.MLFQ_ticks % PERIOD_BOOSTING = 0

instance (k k' : Kernel) : Decidable (PeriodEnds k k') := inferInstanceAs (Decidable (_ ∧ _))

def periodEnds (k k' : Kernel) : Nat := if PeriodEnds k k' then 1 else 0

/-- The tick of a process with a share, while `MLFQ_ticks` stands at a multiple. -/
def StandingTick (k : Kernel) : Action → Prop
  | .timer user => ∃ i ∈ k.cur, ¬ ((k.proc i).killed ∧ user) ∧ (k.proc i).share ≠ 0 ∧
      k.MLFQ_ticks % PERIOD_BOOSTING = 0
  | _ => False

instance (k : Kernel) (a : Action) : Decidable (StandingTick k a) := by
  unfold StandingTick; cases a <;> infer_instance

/-- The calls of `boost` in a run, and the ends of periods in it. -/
def runBoosts (k : Kernel) : List Action → Nat × Nat
  | [] => (0, 0)
  | a :: as =>
    match step k a with
    | .ok k' => (boostCalls k a + (runBoosts k' as).1, periodEnds k k' + (runBoosts k' as).2)
    | .error _ => (0, 0)

section
variable {k k' : Kernel} {i : Slot}

theorem Steady.not_periodEnds (h : Steady k k') : periodEnds k k' = 0 :=
  if_neg fun hp => hp.1 h.ticks

/-- The counter of an MLFQ process's tick moves, and the counter of another's stands. -/
theorem countTick_ticks : (k.countTick i).MLFQ_ticks =
    if (k.proc i).share = 0 then (k.MLFQ_ticks + 1) % 2 ^ 32 else k.MLFQ_ticks := by
  unfold Kernel.countTick
  split <;> rfl

theorem timer_boosts {user : Bool} (hw : Wf k) (h : k.timer user = .ok k') :
    timerCalls k user = periodEnds k k' ↔ ¬ StandingTick k (.timer user) := by
  have hcur : k.ticked.cur = k.cur := rfl
  rcases timer_cases hw h with ⟨hc, hst⟩ | ⟨i, hc, ⟨hk, hst⟩ | ⟨hk, hst⟩⟩
  · have hn : ¬ StandingTick k (.timer user) := fun ⟨j, hj, _⟩ => by rw [hc] at hj; cases hj
    rw [hst.not_periodEnds, timerCalls, hcur, hc]
    exact iff_of_true rfl hn
  · have hn : ¬ StandingTick k (.timer user) := fun ⟨j, hj, hk', _⟩ => by
      cases hc.symm.trans hj
      exact hk' hk
    have hr : (k.proc i).state = .RUNNING := hw.running_started hc
    rw [hst.not_periodEnds, timerCalls, hcur, hc]
    dsimp only
    rw [ticked_proc hr, if_pos hk]
    exact iff_of_true rfl hn
  · have hr : (k.proc i).state = .RUNNING := hw.running_started hc
    have hs : StandingTick k (.timer user) ↔
        (k.proc i).share ≠ 0 ∧ k.MLFQ_ticks % PERIOD_BOOSTING = 0 :=
      ⟨fun ⟨j, hj, _, hd⟩ => by cases hc.symm.trans hj; exact hd, fun hd => ⟨i, hc, hk, hd⟩⟩
    -- what is left of the tick after the boost does not move the counter
    have ht : k'.MLFQ_ticks = (k.ticked.countTick i).MLFQ_ticks := hst.ticks.trans boosted_ticks
    rw [countTick_ticks, ticked_proc hr, steady_ticked.ticks] at ht
    have hcalls : timerCalls k user = if k'.MLFQ_ticks % PERIOD_BOOSTING = 0 then 1 else 0 := by
      rw [timerCalls, hcur, hc]
      dsimp only
      rw [ticked_proc hr, if_neg hk, if_pos hr, ht]
      simp only [Kernel.boostDue, decide_eq_true_eq, countTick_ticks, ticked_proc hr,
        steady_ticked.ticks]
    rw [hcalls, hs, periodEnds]
    unfold PeriodEnds
    by_cases hshare : (k.proc i).share = 0
    · rw [if_pos hshare] at ht
      have hmoved : k'.MLFQ_ticks ≠ k.MLFQ_ticks := by omega
      simp only [hmoved, hshare, ne_eq, not_false_eq_true, true_and, not_true_eq_false, false_and]
    · rw [if_neg hshare] at ht
      simp [ht, hshare]

theorem wait_ticks : (k.wait i).MLFQ_ticks = k.MLFQ_ticks := by
  unfold Kernel.wait
  split
  · rfl
  · split <;> rfl

theorem kill_ticks (pid : Int) : (k.kill i pid).MLFQ_ticks = k.MLFQ_ticks := by
  unfold Kernel.kill
  split <;> rfl

/-- `wait` and `kill` can be told apart from the steady steps by their action alone. -/
theorem stepProc_wait {c : Cont} (h : stepProc k i c .wait = .ok k') : k' = k.wait i := by
  unfold stepProc at h
  split at h <;> simp_all

theorem stepProc_kill {c : Cont} {pid : Int} (h : stepProc k i c (.kill pid) = .ok k') :
    c = .user ∧ k' = k.kill i pid := by
  unfold stepProc at h
  split at h <;> simp_all

theorem step_wait (h : step k .wait = .ok k') : ∃ i, k.cur = some i ∧ k' = k.wait i := by
  unfold step at h
  split at h
  · cases h
  · next i hc => exact ⟨i, hc, stepProc_wait h⟩

theorem step_kill {pid : Int} (h : step k (.kill pid) = .ok k') :
    ∃ i, k.cur = some i ∧ k.cont i = .user ∧ k' = k.kill i pid := by
  unfold step at h
  split at h
  · cases h
  · next i hc => exact ⟨i, hc, stepProc_kill h⟩

/-- Only a tick moves the counter. -/
theorem step_ticks {a : Action} (hw : Wf k) (ht : ∀ user, a ≠ .timer user)
    (h : step k a = .ok k') : k'.MLFQ_ticks = k.MLFQ_ticks := by
  by_cases hwait : a = .wait
  · subst hwait
    obtain ⟨i, -, rfl⟩ := step_wait h
    exact wait_ticks
  · by_cases hkill : ∃ pid, a = .kill pid
    · obtain ⟨pid, rfl⟩ := hkill
      obtain ⟨i, -, -, rfl⟩ := step_kill h
      exact kill_ticks pid
    · exact (steady_step hw ht hwait (fun pid he => hkill ⟨pid, he⟩) h).ticks

/-- **Step lemma**: an action calls `boost` as often as it ends a period, unless it is a
tick that finds the counter standing. -/
theorem step_boosts {a : Action} (hw : Wf k) (h : step k a = .ok k') :
    boostCalls k a = periodEnds k k' ↔ ¬ StandingTick k a := by
  cases a with
  | timer user =>
    unfold step at h
    split at h
    · next hc =>
      have hst : Steady k k' := by
        rcases timer_cases hw h with ⟨-, hst⟩ | ⟨i, hi, -⟩
        · exact hst
        · rw [hc] at hi; cases hi
      have hcur : k.ticked.cur = none := hc
      have hn : ¬ StandingTick k (.timer user) := fun ⟨j, hj, _⟩ => by rw [hc] at hj; cases hj
      rw [hst.not_periodEnds, boostCalls, timerCalls, hcur]
      exact iff_of_true rfl hn
    · dsimp only at h
      split at h
      · cases h
      · exact timer_boosts hw h
  | _ =>
    have ht : k'.MLFQ_ticks = k.MLFQ_ticks := step_ticks hw (fun _ he => by cases he) h
    rw [periodEnds, if_neg (fun hp => hp.1 ht)]
    exact iff_of_true rfl id

/-- A tick that finds the counter standing is the only one whose boost is out of order. -/
def Moving (k : Kernel) (a : Action) : Prop := ¬ StandingTick k a

instance (k : Kernel) (a : Action) : Decidable (Moving k a) := inferInstanceAs (Decidable (¬ _))

/-- **Run lemma**: without standing ticks the boosts are as many as the periods. -/
theorem runBoosts_eq {as : List Action} (hw : Wf k) (h : exec step Moving k as = some k') :
    (runBoosts k as).1 = (runBoosts k as).2 := by
  induction as generalizing k with
  | nil => rfl
  | cons a as ih =>
    obtain ⟨k₁, hg, hs, ht⟩ := exec_cons.mp h
    have hstep := (step_boosts hw hs).mpr hg
    have hrest := ih (hw.step hs) ht
    simp only [runBoosts, hs, hstep, hrest]

/-- **Boosts and periods**: in a run in which no process with a share is ticked while
`MLFQ_ticks` stands at a multiple of the period, `boost` is called once for each
period that ends; at every point of such a run the next tick boosts as it should
if and only if it is not such a tick itself. -/
theorem boost_once_per_period {as : List Action} {k : Kernel}
    (h : exec step Moving Kernel.boot as = some k) :
    (runBoosts Kernel.boot as).1 = (runBoosts Kernel.boot as).2 ∧
      ∀ a k', step k a = .ok k' → (boostCalls k a = periodEnds k k' ↔ ¬ StandingTick k a) := by
  have hk : Wf k := Wf.reachable (G := Moving) (.of_exec h .init)
  exact ⟨runBoosts_eq Wf.boot h, fun a k' hs => step_boosts hk hs⟩

end

/-- A process is ticked once as an MLFQ process, takes a share, and is ticked again. -/
theorem boost_once_per_period_shareTick : ∃ k,
    exec step Moving Kernel.boot shareTickRun = some k ∧
      (runBoosts Kernel.boot shareTickRun).1 = (runBoosts Kernel.boot shareTickRun).2 := by
  obtain ⟨k, hk⟩ := Option.isSome_iff_exists.mp
    (show (exec step Moving Kernel.boot shareTickRun).isSome by decide +kernel)
  exact ⟨k, hk, (boost_once_per_period hk).1⟩

/-- A process that takes a share before the first tick is boosted by its tick, although
`MLFQ_ticks` is not incremented. -/
theorem boost_between_periods : ∃ k k', Reachable Always k ∧ step k (.timer true) = .ok k' ∧
    boostCalls k (.timer true) = 1 ∧ k'.MLFQ_ticks = k.MLFQ_ticks := by
  obtain ⟨k, -, hr, hb, hs⟩ := Reach.of_any step Always Kernel.boot
    (fun k => boostCalls k (.timer true) = 1 ∧ ∃ k' ∈ (step k (.timer true)).toOption,
      k'.MLFQ_ticks = k.MLFQ_ticks)
    [.schedule, .setCpuShare 20, .setShareLocked] (by decide +kernel)
  obtain ⟨k', hk', ht⟩ := hs
  cases hstep : step k (.timer true) with
  | ok k₁ => rw [hstep] at hk'; cases hk'; exact ⟨k, k', hr, hstep, hb, ht⟩
  | error f => rw [hstep] at hk'; cases hk'

/-! ## Kills -/

/-- `kill` finds no slot with the pid, or one that holds a process. -/
def AimsLive (k : Kernel) : Action → Prop
  | .kill pid => ∀ j ∈ k.findSlot (fun p => p.pid = pid), ¬ (k.proc j).state.Unborn
  | _ => True

instance (k : Kernel) (a : Action) : Decidable (AimsLive k a) := by
  unfold AimsLive; cases a <;> infer_instance

/-- No slot that holds no process yet is marked as killed. -/
def Unkilled (k : Kernel) : Prop := ∀ j, (k.proc j).state.Unborn → (k.proc j).killed = false

section
variable {k k' : Kernel} {i : Slot}

theorem Unkilled.steady (h : Unkilled k) (hst : Steady k k') : Unkilled k' := fun j hj => by
  rw [(hst.proc j).killed]
  exact h j ((hst.proc j).unborn hj)

theorem Unkilled.timer {user : Bool} (h : Unkilled k) (hw : Wf k) (ht : k.timer user = .ok k') :
    Unkilled k' := by
  rcases timer_cases hw ht with ⟨-, hst⟩ | ⟨i, -, ⟨-, hst⟩ | ⟨-, hst⟩⟩
  · exact h.steady hst
  · exact h.steady hst
  · have hcount : ∀ j, ((k.ticked.boosted i).proc j).killed = (k.ticked.proc j).killed ∧
        ((k.ticked.boosted i).proc j).state = (k.ticked.proc j).state := by
      intro j
      rw [boosted_proc]
      split <;> exact ⟨rfl, rfl⟩
    have hticked : Unkilled k.ticked := h.steady steady_ticked
    have hboosted : Unkilled (k.ticked.boosted i) := fun j hj => by
      rw [(hcount j).1]
      exact hticked j ((hcount j).2 ▸ hj)
    exact hboosted.steady hst

/-- A reaped slot is free and not killed. -/
theorem Unkilled.wait (h : Unkilled k) : Unkilled (k.wait i) := by
  unfold Kernel.wait
  split
  · next j hj =>
    intro m hm
    by_cases hmj : m = j
    · subst hmj; simp
    · simp only [Kernel.sysret_proc, Kernel.set_proc, Function.update_of_ne hmj] at hm ⊢
      exact h m hm
  · split
    · exact h.steady (.of_eq rfl rfl)
    · exact h.steady (steady_sleep _ _)

/-- A kill that aims at a live process, or at none, marks no free slot. -/
theorem Unkilled.kill {pid : Int} (h : Unkilled k) (hg : AimsLive k (.kill pid)) :
    Unkilled (k.kill i pid) := by
  unfold Kernel.kill
  split
  · next j hj =>
    have hlive : ¬ (k.proc j).state.Unborn := hg j hj
    have hset : ∀ b, b = (if (k.proc j).state = .SLEEPING then .RUNNABLE else (k.proc j).state) →
        ¬ ProcState.Unborn b := by
      intro b hb
      split at hb
      · rw [hb]; simp [ProcState.Unborn]
      · rw [hb]; exact hlive
    intro m hm
    by_cases hmj : m = j
    · subst hmj
      simp only [Kernel.sysret_proc, Kernel.set_proc, Function.update_self] at hm
      exact absurd hm (hset _ rfl)
    · simp only [Kernel.sysret_proc, Kernel.set_proc, Function.update_of_ne hmj] at hm ⊢
      exact h m hm
  · exact h.steady (.of_eq rfl rfl)

/-- **Step lemma**: a step whose kill aims at a live process marks no free slot. -/
theorem Unkilled.step {a : Action} (h : Unkilled k) (hw : Wf k) (hg : AimsLive k a)
    (hs : step k a = .ok k') : Unkilled k' := by
  by_cases hwait : a = .wait
  · subst hwait
    obtain ⟨i, -, rfl⟩ := step_wait hs
    exact h.wait
  by_cases hkill : ∃ pid, a = .kill pid
  · obtain ⟨pid, rfl⟩ := hkill
    obtain ⟨i, -, -, rfl⟩ := step_kill hs
    exact h.kill hg
  by_cases htimer : ∃ user, a = .timer user
  · obtain ⟨user, rfl⟩ := htimer
    unfold Sched.step at hs
    split at hs
    · exact h.timer hw hs
    · dsimp only at hs
      split at hs
      · cases hs
      · exact h.timer hw hs
  · exact h.steady (steady_step hw (fun u he => htimer ⟨u, he⟩) hwait
      (fun pid he => hkill ⟨pid, he⟩) hs)

theorem unkilled_boot : Unkilled Kernel.boot := by
  have hb : ∀ j, (Kernel.boot.proc j).killed = false := by decide +kernel
  exact fun j _ => hb j

/-- What `kill` may do: report a process that it found, or report none and change nothing. -/
def KillsLive (k : Kernel) (i : Slot) (pid : Int) (k' : Kernel) : Prop :=
  (k'.ret i = 0 ∧ ∃ j, (k.proc j).state ≠ .UNUSED ∧ (k.proc j).pid = pid) ∨
  k' = { k with ret := Function.update k.ret i (-1) }

theorem kill_cases {pid : Int} (hu : k.cont i = .user) (hg : AimsLive k (.kill pid)) :
    KillsLive k i pid (k.kill i pid) := by
  unfold Kernel.kill
  cases hf : k.findSlot fun p => p.pid = pid with
  | none =>
    refine .inr ?_
    have hcont : Function.update k.cont i .user = k.cont := by
      rw [← hu]; exact Function.update_eq_self i k.cont
    simp only [Kernel.sysret, Kernel.setCont, hcont]
  | some j =>
    refine .inl ⟨by simp [Kernel.sysret], j, fun hj => ?_, by simpa using findSlot_some hf⟩
    exact hg j hf (.inl hj)

/-- **Kills reach processes**: in a run whose kills find a process or nothing, no free
slot is marked as killed, every further such kill does what it reports, and the child
that a `fork` returns is not killed. -/
theorem kill_live {k : Kernel} (h : Reachable AimsLive k) :
    (∀ j, (k.proc j).state = .UNUSED → (k.proc j).killed = false) ∧
    (∀ i pid k', k.cur = some i → AimsLive k (.kill pid) → step k (.kill pid) = .ok k' →
      KillsLive k i pid k') ∧
    (∀ i np k', k.cur = some i → k.cont i = .forkPublish np → step k .forkPublish = .ok k' →
      (k'.proc np).killed = false ∧ (k'.proc np).state = .RUNNABLE ∧
        k'.ret i = (k'.proc np).pid) := by
  have hI : Wf k ∧ Unkilled k := h.invariant (I := fun k => Wf k ∧ Unkilled k)
    ⟨Wf.boot, unkilled_boot⟩ fun k a k' hk hg hs => ⟨hk.1.step hs, hk.2.step hk.1 hg hs⟩
  refine ⟨fun j hj => hI.2 j (.inl hj), fun i pid k' hc hg hs => ?_, fun i np k' hc hf hs => ?_⟩
  · obtain ⟨i', hc', hu, rfl⟩ := step_kill hs
    cases hc.symm.trans hc'
    exact kill_cases hu hg
  · have hn : (k.proc np).state = .EMBRYO := hI.1.embryo i np (by rw [hf]; rfl)
    simp only [step, hc, hf, stepProc] at hs
    cases hs
    exact ⟨by simpa [Kernel.forkPublish] using hI.2 np (.inr hn), by simp [Kernel.forkPublish],
      by simp [Kernel.forkPublish, Kernel.sysret]⟩

end

/-- The first process forks and kills its child. -/
def killChildRun : List Action :=
  [.schedule, .fork, .kalloc true, .allocEnqueue, .copyuvm true, .forkPublish, .kill 2]

theorem kill_live_child : ∃ k, exec step AimsLive Kernel.boot killChildRun = some k ∧
    (k.proc 1).killed = true ∧ ∀ j, (k.proc j).state = .UNUSED → (k.proc j).killed = false := by
  obtain ⟨k, hk, hr, hp⟩ := Reach.of_any step AimsLive Kernel.boot
    (fun k => (k.proc 1).killed = true) killChildRun (by decide +kernel)
  exact ⟨k, hk, hp, (kill_live hr).1⟩

/-- The first process calls `kill(0)` and forks. -/
def killFreeRun : List Action :=
  [.schedule, .kill 0, .fork, .kalloc true, .allocEnqueue, .copyuvm true, .forkPublish]

/-- Free slots have pid 0: `kill(0)` succeeds, and the next child is born killed. -/
theorem kill_free :
    (∃ k, Reachable Always k ∧ (k.kill 0 0).ret 0 = 0 ∧ k.cur = some 0 ∧
      step k (.kill 0) = .ok (k.kill 0 0) ∧ ∀ j, (k.proc j).pid = 0 → (k.proc j).state = .UNUSED) ∧
    ∃ k, exec step Always Kernel.boot killFreeRun = some k ∧ (k.proc 1).state = .RUNNABLE ∧
      k.ret 0 = (k.proc 1).pid ∧ (k.proc 1).killed = true := by
  obtain ⟨k, -, hr, hret, hc, hu, hp⟩ := Reach.of_any step Always Kernel.boot
    (fun k => (k.kill 0 0).ret 0 = 0 ∧ k.cur = some 0 ∧ k.cont 0 = .user ∧
      ∀ j, (k.proc j).pid = 0 → (k.proc j).state = .UNUSED) [.schedule] (by decide +kernel)
  obtain ⟨k₂, hk₂, -, hborn⟩ := Reach.of_any step Always Kernel.boot
    (fun k => (k.proc 1).state = .RUNNABLE ∧ k.ret 0 = (k.proc 1).pid ∧ (k.proc 1).killed = true)
    killFreeRun (by decide +kernel)
  have hstep : step k (.kill 0) = .ok (k.kill 0 0) := by simp only [step, hc, hu, stepProc]
  exact ⟨⟨k, hr, hret, hc, hstep, hp⟩, k₂, hk₂, hborn⟩

end Xv6.Sched
