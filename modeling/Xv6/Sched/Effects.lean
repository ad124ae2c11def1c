import Xv6.Sched.Rules

/-!
# What a step does to the clocks and the passes

Most steps leave every level, allotment, share and pass alone: they are `Idle`.
`Effect` lists the others, each with the function it runs and the state in which
that function starts. Invariants about these fields are shown case by case over
`Effect`.
-/

namespace Xv6.Sched

open Lib

/-- The fields by which a process is scheduled, apart from its state. -/
structure SameClock (p p' : Proc) : Prop where
  share : p'.share = p.share
  lev : p'.lev = p.lev
  time_allotment : p'.time_allotment = p.time_allotment
  pass : p'.pass = p.pass
  from_trap : p'.from_trap = p.from_trap

theorem SameClock.refl (p : Proc) : SameClock p p := ⟨rfl, rfl, rfl, rfl, rfl⟩

theorem SameClock.trans {p q r : Proc} (h : SameClock p q) (h' : SameClock q r) : SameClock p r :=
  ⟨h'.share.trans h.share, h'.lev.trans h.lev, h'.time_allotment.trans h.time_allotment,
    h'.pass.trans h.pass, h'.from_trap.trans h.from_trap⟩

/-- The exit of `j` wakes the sleepers on `c`. -/
def ExitWakes (k : Kernel) (j : Slot) (c : Chan) : Prop :=
  c = (k.proc j).parent.chan ∨
  c = k.initproc.chan ∧ (k.findSlot fun p => p.parent = .slot j ∧ p.state = .ZOMBIE).isSome

/-- The action wakes slot `i`, should it be asleep. -/
def Wakes (k : Kernel) : Action → Slot → Prop
  | .wakeup c, i => (k.proc i).chan = c
  | .timer user, i => (k.proc i).chan = .ticks ∨
      ∃ j ∈ k.cur, ((k.proc j).killed ∧ user) ∧ ExitWakes k j (k.proc i).chan
  | .exit, i => ∃ j ∈ k.cur, ExitWakes k j (k.proc i).chan
  | .kill pid, i => k.findSlot (fun p => p.pid = pid) = some i
  | _, _ => False

instance (k : Kernel) (j : Slot) (c : Chan) : Decidable (ExitWakes k j c) :=
  inferInstanceAs (Decidable (_ ∨ _ ∧ _))

/-- A step that concerns no clock and no pass; `W` are the slots that it may wake. -/
structure Idle (W : Slot → Prop) (k k' : Kernel) : Prop extends Quiet k k' where
  mlfq : k'.mlfq = k.mlfq
  min_pass : k'.min_pass = k.min_pass
  clock : ∀ i, SameClock (k.proc i) (k'.proc i)
  runnable : ∀ i, (k'.proc i).state = .RUNNABLE → (k.proc i).state = .RUNNABLE ∨
    (k.proc i).state = .SLEEPING ∧ W i ∨ (k.proc i).state = .EMBRYO
  running : ∀ i, (k'.proc i).state = .RUNNING → (k.proc i).state = .RUNNING
  builds : ∀ i np, k'.cont i = .allocEnqueue np → k.cont i = .allocEnqueue np

/-- What waking sleepers does to a slot, if `w` allows it. -/
structure Roused (w : Prop) (p p' : Proc) : Prop where
  clock : SameClock p p'
  state : p'.state = p.state ∨ (p.state = .SLEEPING ∧ w) ∧ p'.state = .RUNNABLE

theorem Roused.trans {w : Prop} {p q r : Proc} (h : Roused w p q) (h' : Roused w q r) :
    Roused w p r where
  clock := h.clock.trans h'.clock
  state := by
    have := h.state; have := h'.state
    grind

section
variable {k k' k'' : Kernel} {i : Slot} {W : Slot → Prop}

theorem Idle.refl (W : Slot → Prop) (k : Kernel) : Idle W k k where
  toQuiet := .refl k
  mlfq := rfl
  min_pass := rfl
  clock _ := .refl _
  runnable _ h := .inl h
  running _ h := h
  builds _ _ h := h

theorem Idle.of_roused (hq : Quiet k k') (hm : k'.mlfq = k.mlfq) (hp : k'.min_pass = k.min_pass)
    (hb : ∀ i np, k'.cont i = .allocEnqueue np → k.cont i = .allocEnqueue np)
    (h : ∀ i, Roused (W i) (k.proc i) (k'.proc i)) : Idle W k k' where
  toQuiet := hq
  mlfq := hm
  min_pass := hp
  clock i := (h i).clock
  runnable i hr := by
    rcases (h i).state with e | ⟨e, -⟩
    · exact .inl (e ▸ hr)
    · exact .inr (.inl e)
  running i hr := by
    rcases (h i).state with e | ⟨-, e⟩
    · exact e ▸ hr
    · rw [e] at hr; cases hr
  builds := hb

/-- The caller goes to a point where it builds nothing. -/
theorem builds_update {f : Slot → Cont} {c : Cont} (hc : c.allocating = none) (j np : Slot)
    (h : Function.update f i c j = .allocEnqueue np) : f j = .allocEnqueue np := by
  by_cases hj : j = i
  · subst hj
    rw [Function.update_self] at h
    rw [h] at hc
    cases hc
  · rwa [Function.update_of_ne hj] at h

/-- One slot changes, in none of the fields of the clock. -/
theorem Idle.of_set (hq : Quiet k k') (hm : k'.mlfq = k.mlfq) (hp : k'.min_pass = k.min_pass)
    (hb : ∀ j np, k'.cont j = .allocEnqueue np → k.cont j = .allocEnqueue np)
    {p : Proc} (hproc : k'.proc = Function.update k.proc i p) (hc : SameClock (k.proc i) p)
    (hr : p.state = .RUNNABLE → (k.proc i).state = .RUNNABLE ∨
      (k.proc i).state = .SLEEPING ∧ W i ∨ (k.proc i).state = .EMBRYO)
    (hn : p.state ≠ .RUNNING) : Idle W k k' where
  toQuiet := hq
  mlfq := hm
  min_pass := hp
  clock j := by
    rw [hproc]
    by_cases hj : j = i
    · subst hj; simpa using hc
    · simpa [hj] using SameClock.refl _
  runnable j h := by
    rw [hproc] at h
    by_cases hj : j = i
    · subst hj; exact hr (by simpa using h)
    · exact .inl (by simpa [hj] using h)
  running j h := by
    rw [hproc] at h
    by_cases hj : j = i
    · subst hj; exact absurd (by simpa using h) hn
    · simpa [hj] using h
  builds := hb

theorem Roused.refl (w : Prop) (p : Proc) : Roused w p p := ⟨.refl p, .inl rfl⟩

theorem wakeup1_roused {c : Chan} {w : Prop} {p : Proc} (hp : k.proc i = p) (hw : p.chan = c → w) :
    Roused w p ((k.wakeup1 c).proc i) := by
  simp only [Kernel.wakeup1, hp]
  split
  · next h => exact ⟨⟨rfl, rfl, rfl, rfl, rfl⟩, .inr ⟨⟨h.1, hw h.2⟩, rfl⟩⟩
  · exact .refl w _

theorem wakeup1_idle {c : Chan} (hW : ∀ i, (k.proc i).chan = c → W i) : Idle W k (k.wakeup1 c) :=
  .of_roused (wakeup1_quiet c) rfl rfl (fun _ _ h => h) fun i => wakeup1_roused rfl (hW i)

theorem reparent_roused {j : Slot} {w : Prop}
    (hw : (k.findSlot fun p => p.parent = .slot j ∧ p.state = .ZOMBIE).isSome →
      (k.proc i).chan = k.initproc.chan → w) : Roused w (k.proc i) ((k.reparent j).proc i) := by
  have h : Roused w (k.proc i) (if (k.proc i).parent = .slot j
      then { k.proc i with parent := k.initproc } else k.proc i) := by
    split
    · exact ⟨⟨rfl, rfl, rfl, rfl, rfl⟩, .inl rfl⟩
    · exact .refl w _
  unfold Kernel.reparent
  dsimp only
  split
  · next hz =>
    refine h.trans (wakeup1_roused rfl fun hc => hw hz ?_)
    split at hc <;> exact hc
  · exact h

/-- Waking sleepers makes and unmakes no zombie child. -/
theorem wakeup1_findZombie (c : Chan) (j : Slot) :
    (k.wakeup1 c).findSlot (fun p => p.parent = .slot j ∧ p.state = .ZOMBIE) =
      k.findSlot fun p => p.parent = .slot j ∧ p.state = .ZOMBIE := by
  unfold Kernel.findSlot
  congr 1
  funext i
  simp only [Kernel.wakeup1]
  split
  · next h => simp [h.1]
  · rfl

theorem wakeup1_chan (c : Chan) (i : Slot) : ((k.wakeup1 c).proc i).chan = (k.proc i).chan := by
  simp only [Kernel.wakeup1]
  split <;> rfl

/-- What `exit` does before it takes the process out of the tables. -/
theorem exit_roused {j : Slot} {w : Prop} (hw : ExitWakes k j (k.proc i).chan → w) :
    Roused w (k.proc i) (((k.wakeup1 (k.proc j).parent.chan).reparent j).proc i) := by
  refine (wakeup1_roused rfl fun hc => hw (.inl hc)).trans (reparent_roused fun hz hc => ?_)
  rw [wakeup1_findZombie] at hz
  rw [wakeup1_chan] at hc
  exact hw (.inr ⟨hc, hz⟩)

theorem exit_frame (j : Slot) :
    ((k.wakeup1 (k.proc j).parent.chan).reparent j).mlfq = k.mlfq ∧
    ((k.wakeup1 (k.proc j).parent.chan).reparent j).min_pass = k.min_pass := by
  unfold Kernel.reparent
  dsimp only
  split <;> exact ⟨rfl, rfl⟩

/-! ## Idle steps -/

/-- Nothing but the caller's place in its system call changes. -/
theorem Idle.of_proc (hq : Quiet k k') (hm : k'.mlfq = k.mlfq) (hp : k'.min_pass = k.min_pass)
    (hb : ∀ i np, k'.cont i = .allocEnqueue np → k.cont i = .allocEnqueue np)
    (h : k'.proc = k.proc) : Idle W k k' :=
  .of_roused hq hm hp hb fun i => by rw [h]; exact .refl _ _

theorem fork_idle (hu : k.cont i = .user) : Idle W k (k.fork i) := by
  have hq := fork_quiet hu
  unfold Kernel.fork Kernel.allocproc at hq ⊢
  cases hf : k.findSlot fun p => p.state = .UNUSED with
  | none =>
    rw [hf] at hq
    exact .of_proc hq rfl rfl (builds_update rfl) rfl
  | some np =>
    rw [hf] at hq
    exact .of_set hq rfl rfl (fun j m hm => by
      by_cases hj : j = i
      · subst hj; simp at hm
      · simpa [hj] using hm) rfl ⟨rfl, rfl, rfl, rfl, rfl⟩ (fun h => by cases h) (by simp)

theorem kalloc_idle (h : Wf k) {np : Slot} (hi : k.cont i = .allocStack np) :
    Idle W k (k.kalloc i np false) :=
  .of_set (kalloc_quiet h hi false) rfl rfl (builds_update rfl) rfl ⟨rfl, rfl, rfl, rfl, rfl⟩ (fun h => by cases h)
    (by simp)

theorem copyuvm_idle (h : Wf k) {np : Slot} (hi : k.cont i = .forkCopy np) :
    Idle W k (k.copyuvm i np true) := by
  have he := h.embryo i np (by rw [hi]; rfl)
  exact .of_set (copyuvm_quiet hi) rfl rfl (builds_update rfl) rfl ⟨rfl, rfl, rfl, rfl, rfl⟩ (fun _ => .inr (.inr he))
    (by simp [he])

theorem forkPublish_idle (h : Wf k) {np : Slot} (hi : k.cont i = .forkPublish np) :
    Idle W k (k.forkPublish i np) :=
  .of_set (forkPublish_quiet h hi) rfl rfl (builds_update rfl) rfl ⟨rfl, rfl, rfl, rfl, rfl⟩
    (fun _ => .inr (.inr (h.embryo i np (by rw [hi]; rfl)))) (by simp)

theorem sleep_idle (hi : (k.cont i).allocating = none) (hr : (k.proc i).state.Started) {c : Chan}
    {cont : Cont} (hc : cont.allocating = none) : Idle W k (k.sleep i c cont) :=
  .of_set (sleep_quiet hi hr hc) rfl rfl (builds_update hc) rfl ⟨rfl, rfl, rfl, rfl, rfl⟩ (fun h => by cases h) (by simp)

theorem wait_idle (hi : (k.cont i).allocating = none) (hr : (k.proc i).state.Started) :
    Idle W k (k.wait i) := by
  have hq := wait_quiet hi hr
  unfold Kernel.wait at hq ⊢
  cases hf : k.findSlot fun p => p.parent = .slot i ∧ p.state = .ZOMBIE with
  | none =>
    rw [hf] at hq
    dsimp only at hq ⊢
    split
    · next hw => rw [if_pos hw] at hq; exact .of_proc hq rfl rfl (builds_update rfl) rfl
    · exact sleep_idle hi hr rfl
  | some j =>
    rw [hf] at hq
    exact .of_set hq rfl rfl (builds_update rfl) rfl ⟨rfl, rfl, rfl, rfl, rfl⟩ (fun h => by cases h) (by simp)

theorem kill_idle (hi : k.cont i = .user) {pid : Int}
    (hW : ∀ j, k.findSlot (fun p => p.pid = pid) = some j → W j) : Idle W k (k.kill i pid) := by
  refine .of_roused (kill_quiet hi pid) (kill_frame pid).2.2.2.2 ?_ ?_ fun j => ?_
  · unfold Kernel.kill; split <;> rfl
  · rw [(kill_frame pid).2.1]; exact builds_update rfl
  · unfold Kernel.kill
    cases hf : k.findSlot fun p => p.pid = pid with
    | none => exact .refl _ _
    | some m =>
      by_cases hj : j = m
      · subst hj
        simp only [Kernel.sysret_proc, Kernel.set_proc, Function.update_self]
        split
        · next hs => exact ⟨⟨rfl, rfl, rfl, rfl, rfl⟩, .inr ⟨⟨hs, hW j hf⟩, rfl⟩⟩
        · exact ⟨⟨rfl, rfl, rfl, rfl, rfl⟩, .inl rfl⟩
      · simpa [hj] using Roused.refl _ _

theorem set_cpu_share_idle (h : Wf k) (hi : k.cont i = .user) {share : Int}
    (hs : k.set_cpu_share i share = .ok k') : Idle W k k' := by
  have he : Ensures (fun _ => False) (k.set_cpu_share i share) (Quiet k) :=
    set_cpu_share_ensures h hi share
  have hq : Quiet k k' := he.of_ok hs
  simp only [Kernel.set_cpu_share, h.stable.entry0, ok_bind, Kernel.deref] at hs
  split at hs <;> cases hs <;> exact .of_proc hq rfl rfl (builds_update rfl) rfl

end

/-! ## The effect of a step -/

/-- What a step `k → k'` by action `a` can be. -/
inductive Effect (k : Kernel) (a : Action) (k' : Kernel) : Prop where
  | idle : (k.cur ≠ none → a ≠ .yield ∧ ∀ user, a ≠ .timer user) → Idle (Wakes k a) k k' →
      Effect k a k'
  | schedule : a = .schedule → k.cur = none → k.scheduler = .ok k' → Effect k a k'
  /-- a timer interrupt of process `i`, after the sleepers on `ticks` have been woken -/
  | tick (i : Slot) (user : Bool) (k₁ : Kernel) : a = .timer user → k.cur = some i →
      ¬ ((k.proc i).killed ∧ user) → Idle (Wakes k a) k k₁ → Wf k₁ → k₁.proc i = k.proc i →
      k₁.cur = k.cur → k₁.cont = k.cont → k₁.MLFQ_ticks = k.MLFQ_ticks →
      k₁.preempt i = .ok k' → Effect k a k'
  | exit (i : Slot) (k₁ k₂ : Kernel) : Exits k a i → Idle (Wakes k a) k k₁ → StableOk k₁.stable →
      k₁.cont = k.cont → k₁.unschedule i = .ok k₂ →
      k' = { k₂.set i (fun p => { p with state := .ZOMBIE }) with cur := none } → Effect k a k'
  | sysYield (i : Slot) : a = .sysYield → k.cur = some i → k.cont i = .user →
      k' = (k.set i fun p => { p with from_trap := false }).setCont i .yieldCall → Effect k a k'
  | yield (i : Slot) : a = .yield → k.cur = some i → k.cont i = .yieldCall →
      (k.setCont i .user).yield i = .ok k' → Effect k a k'
  | reserve (i : Slot) (s : Int) : a = .setShareLocked → k.cur = some i →
      k.cont i = .setShare .mlfq s → k.setShareLocked i .mlfq s = .ok k' → Effect k a k'
  | fill (i np : Slot) : a = .kalloc true → k.cur = some i → k.cont i = .allocStack np →
      k' = (k.allocInit np).setCont i (.allocEnqueue np) → Effect k a k'
  | enqueue (i np : Slot) : a = .allocEnqueue → k.cur = some i → k.cont i = .allocEnqueue np →
      k.allocEnqueue i np = .ok k' → Effect k a k'
  | discard (i np : Slot) : a = .copyuvm false → k.cur = some i → k.cont i = .forkCopy np →
      k' = k.copyuvm i np false → Effect k a k'

section
variable {k k' : Kernel} {i : Slot}

/-- An exit, after steps that only woke sleepers. -/
theorem Effect.of_exit {k₀ : Kernel} {a : Action} (he : Exits k₀ a i) (hq : Quiet k₀ k)
    (hm : k.mlfq = k₀.mlfq) (hp : k.min_pass = k₀.min_pass)
    (hr : ∀ j, Roused (Wakes k₀ a j) (k₀.proc j) (k.proc j)) (hc : k.cont = k₀.cont)
    (hst : StableOk k.stable) (hW : ∀ j, ExitWakes k i (k.proc j).chan → Wakes k₀ a j)
    (hs : k.exit i = .ok k') : Effect k₀ a k' := by
  unfold Kernel.exit at hs
  split at hs
  · cases hs
  · simp only [bind_ok, pure_ok] at hs
    obtain ⟨k2, h2, rfl⟩ := hs
    obtain ⟨h1, h3⟩ := exit_frame (k := k) i
    have hf := reparent_frame (k.wakeup1 (k.proc i).parent.chan) i
    refine .exit i _ k2 he (.of_roused (hq.trans ((wakeup1_quiet _).trans reparent_quiet))
      (h1.trans hm) (h3.trans hp) (fun j np hj => ?_) fun j => (hr j).trans (exit_roused (hW j))) ?_ ?_ h2 rfl
    · rw [hf.2.1] at hj
      exact hc ▸ hj
    · rw [hf.2.2.2.1]; exact hst
    · rw [hf.2.1]; exact hc

/-- The clock tick changes nothing that decides whom an exit wakes. -/
theorem exitWakes_wakeup1 {c c' : Chan} {t : Nat} (h : ExitWakes ({ k with ticks := t }.wakeup1 c) i c') :
    ExitWakes k i c' := by
  have hpar : (({ k with ticks := t }.wakeup1 c).proc i).parent = (k.proc i).parent :=
    (wakeup1_fields { k with ticks := t } c i).2.2.1
  unfold ExitWakes at h ⊢
  rw [hpar, wakeup1_findZombie] at h
  exact h

theorem timer_effect (h : Wf k) {user : Bool} (hs : k.timer user = .ok k') :
    Effect k (.timer user) k' := by
  have hw : Wf ({ k with ticks := (k.ticks + 1) % 2 ^ 32 }.wakeup1 .ticks) :=
    h.woken rfl rfl rfl fun j => wakeup1_woken _ _ j
  have hq : Quiet k ({ k with ticks := (k.ticks + 1) % 2 ^ 32 }.wakeup1 .ticks) :=
    .of_same rfl rfl rfl (fun _ => rfl) fun j => (wakeup1_woken _ _ j).same
  have hr : ∀ j, Roused (Wakes k (.timer user) j) (k.proc j)
      (({ k with ticks := (k.ticks + 1) % 2 ^ 32 }.wakeup1 .ticks).proc j) :=
    fun j => wakeup1_roused rfl .inl
  unfold Kernel.timer at hs
  dsimp only at hs
  split at hs
  · next hc => cases hs; exact .idle (absurd hc) (.of_roused hq rfl rfl (fun _ _ h => h) hr)
  · next i hc =>
    -- the tick wakes no running process
    have hrun : (k.proc i).state = .RUNNING := h.running_started hc
    have hpi : ({ k with ticks := (k.ticks + 1) % 2 ^ 32 }.wakeup1 .ticks).proc i = k.proc i := by
      simp [Kernel.wakeup1, hrun]
    rw [hpi, if_pos hrun] at hs
    split at hs
    · next hk =>
      obtain rfl := hk.2
      refine .of_exit ⟨hc, .inr ⟨rfl, hk.1⟩⟩ hq rfl rfl hr rfl hw.stable (fun j hj => .inr ?_) hs
      rw [wakeup1_chan] at hj
      exact ⟨i, hc, hk, exitWakes_wakeup1 hj⟩
    · next hk => exact .tick i user _ rfl hc hk (.of_roused hq rfl rfl (fun _ _ h => h) hr) hw hpi rfl rfl rfl hs

/-- **Step inversion**: every step has one of the effects. -/
theorem step_effect {a : Action} (h : Wf k) (hs : step k a = .ok k') : Effect k a k' := by
  unfold Sched.step at hs
  split at hs
  · next hc =>
    split at hs
    · exact .schedule rfl hc hs
    · next user =>
      -- without a process to interrupt, the mode makes no difference
      have he : k.timer false = k.timer user := by simp [Kernel.timer, Kernel.wakeup1, hc]
      exact timer_effect h (he ▸ hs)
    · cases hs; exact .idle (by simp) (wakeup1_idle fun i hi => hi)
    · cases hs
  · next i hc =>
    have hstart : (k.proc i).state.Started := .inr (.inr (h.running_started hc))
    split at hs
    · split at hs
      · cases hs
      · exact timer_effect h hs
    · split at hs
      · cases hs
      · cases hs; exact .idle (by simp) (wakeup1_idle fun i hi => hi)
    · generalize hci : k.cont i = c at hs
      unfold stepProc at hs
      split at hs
      · cases hs; exact .idle (by simp) (fork_idle hci)
      · next np ok _ _ =>
        cases hs
        cases ok with
        | true => exact .fill i np rfl hc hci rfl
        | false => exact .idle (by simp) (kalloc_idle h hci)
      · exact .enqueue i _ rfl hc hci hs
      · next np ok _ _ =>
        cases hs
        cases ok with
        | true => exact .idle (by simp) (copyuvm_idle h hci)
        | false => exact .discard i np rfl hc hci rfl
      · cases hs; exact .idle (by simp) (forkPublish_idle h hci)
      · cases hs; exact .sysYield i rfl hc hci rfl
      · exact .yield i rfl hc hci hs
      · exact .idle (by simp) (set_cpu_share_idle h hci hs)
      · obtain ⟨rfl, -⟩ := h.entry i _ _ hci
        exact .reserve i _ rfl hc hci hs
      · cases hs; exact .idle (by simp) (sleep_idle (by rw [hci]; rfl) hstart rfl)
      · exact .of_exit ⟨hc, .inl rfl⟩ (.refl k) rfl rfl (fun j => .refl _ _) rfl h.stable
          (fun j hj => ⟨i, hc, hj⟩) hs
      · cases hs; exact .idle (by simp) (wait_idle (by rw [hci]; rfl) hstart)
      · cases hs; exact .idle (by simp) (wait_idle (by rw [hci]; rfl) hstart)
      · cases hs; exact .idle (by simp) (kill_idle hci fun j hj => hj)
      · cases hs

/-! ## Yielding and ticking -/

/-- The charge of `yield`, on the record. -/
def Proc.charged (p : Proc) : Proc :=
  if p.from_trap then p else { p with time_allotment := int32 (p.time_allotment - 1) }

/-- What `yield` makes of the record of its caller. -/
structure Yields (p p' : Proc) : Prop where
  state : p'.state = .RUNNABLE
  share : p'.share = p.share
  pass : p'.pass = p.pass
  from_trap : p'.from_trap = p.from_trap
  /-- an MLFQ process may go one level down, with the allotment of that level -/
  mlfq : p.share = 0 → (∃ l : Level, p.lev = (l.val : Int)) ∧
    p'.lev = Kernel.Proc.nextLev p.charged ∧
    (p'.lev = p.lev → p'.time_allotment = p.charged.time_allotment) ∧
    (p'.lev ≠ p.lev → time_allotment p'.lev = .ok p'.time_allotment)
  /-- a stride process has its allotment refilled -/
  stride : p.share ≠ 0 → p'.lev = p.lev ∧ time_allotment p.lev = .ok p'.time_allotment

/-- The part of the state that `yield` and a tick leave alone. -/
structure SameTables (k k' : Kernel) : Prop where
  stable : k'.stable = k.stable
  mlfq : k'.mlfq = k.mlfq
  min_pass : k'.min_pass = k.min_pass
  cont : k'.cont = k.cont

theorem charge_eq (k : Kernel) (i : Slot) : k.charge i = k.set i fun p => p.charged := by
  unfold Kernel.charge Kernel.set Proc.charged
  split <;> simp [*]

theorem charged_keep (p : Proc) : p.charged.share = p.share ∧ p.charged.lev = p.lev ∧
    p.charged.pass = p.pass ∧ p.charged.from_trap = p.from_trap ∧ p.charged.state = p.state := by
  unfold Proc.charged
  split <;> exact ⟨rfl, rfl, rfl, rfl, rfl⟩

/-- What `adjust` makes of the record. -/
theorem adjust_clock (h : k.adjust i = .ok k') : ∃ l a,
    k'.proc = Function.update k.proc i { k.proc i with lev := l, time_allotment := a } ∧
    SameTables k k' ∧
    ((k.proc i).share = 0 → (∃ l₀ : Level, (k.proc i).lev = (l₀.val : Int)) ∧
      l = Kernel.Proc.nextLev (k.proc i) ∧
      (l = (k.proc i).lev → a = (k.proc i).time_allotment) ∧
      (l ≠ (k.proc i).lev → time_allotment l = .ok a)) ∧
    ((k.proc i).share ≠ 0 → l = (k.proc i).lev ∧ time_allotment (k.proc i).lev = .ok a) := by
  unfold Kernel.adjust at h
  dsimp only at h
  split at h
  · next hs =>
    simp only [bind_ok, dequeue_ok, enqueue_ok] at h
    obtain ⟨_, ⟨l, q, hl, hq, rfl⟩, _, ⟨l', q', hl', hq', rfl⟩, h⟩ := h
    split at h
    · next hne =>
      simp only [bind_ok, pure_ok] at h
      obtain ⟨a, ha, rfl⟩ := h
      exact ⟨_, a, by simp, ⟨rfl, rfl, rfl, rfl⟩,
        fun _ => ⟨⟨l, hl⟩, rfl, fun e => absurd e hne, fun _ => ha⟩, fun e => absurd hs e⟩
    · next he =>
      cases h
      exact ⟨_, (k.proc i).time_allotment, by simp, ⟨rfl, rfl, rfl, rfl⟩,
        fun _ => ⟨⟨l, hl⟩, rfl, fun _ => rfl, fun e => absurd e he⟩, fun e => absurd hs e⟩
  · next hs =>
    simp only [bind_ok, pure_ok] at h
    obtain ⟨a, ha, rfl⟩ := h
    exact ⟨(k.proc i).lev, a, rfl, ⟨rfl, rfl, rfl, rfl⟩, fun e => absurd e hs, fun _ => ⟨rfl, ha⟩⟩

theorem yield_ok (h : k.yield i = .ok k') : ∃ p', Yields (k.proc i) p' ∧
    k'.proc = Function.update k.proc i p' ∧ SameTables k k' ∧ k'.cur = none := by
  simp only [Kernel.yield, bind_ok, pure_ok] at h
  obtain ⟨k1, h1, rfl⟩ := h
  rw [charge_eq, Kernel.set_set] at h1
  obtain ⟨l, a, hp, ht, hm, hs⟩ := adjust_clock h1
  obtain ⟨p1, hp1⟩ : ∃ p1, p1 = Proc.charged { k.proc i with state := .RUNNABLE } := ⟨_, rfl⟩
  have hst := charged_keep { k.proc i with state := .RUNNABLE }
  have hc : p1.time_allotment = (k.proc i).charged.time_allotment := by
    rw [hp1]
    unfold Proc.charged
    split <;> rfl
  rw [← hp1] at hst
  simp only [Kernel.set_proc, Function.update_self, Function.update_idem] at hp hm hs
  rw [← hp1] at hp hm hs
  obtain ⟨hsh, hl, hpass, hft, hstate⟩ := hst
  refine ⟨{ p1 with lev := l, time_allotment := a }, ⟨hstate, hsh, hpass, hft, fun e => ?_, fun e => ?_⟩,
    hp, ⟨ht.stable, ht.mlfq, ht.min_pass, ht.cont⟩, rfl⟩
  · obtain ⟨hl0, hn, h1, h2⟩ := hm (hsh.trans e)
    dsimp only at hl
    rw [hl] at hl0 h1 h2
    refine ⟨hl0, ?_, fun e => (h1 e).trans hc, h2⟩
    show l = _
    rw [hn]
    unfold Kernel.Proc.nextLev
    rw [hc, hl, (charged_keep (k.proc i)).2.1]
  · have := hs (by rw [hsh]; exact e)
    rwa [hl] at this

/-- A boost, if the tick of process `i` makes it due. -/
theorem boosted_proc (k : Kernel) (i j : Slot) : (k.boosted i).proc j =
    if (k.countTick i).boostDue then { k.proc j with lev := 0, time_allotment := 5 }
    else k.proc j := by
  obtain ⟨hp, -⟩ := countTick_frame k i
  unfold Kernel.boosted
  split
  · simp [Kernel.boost, hp]
  · rw [hp]

/-- The record of a process whose tick `trap` has charged. -/
def Proc.ticked (p : Proc) : Proc := { p with time_allotment := int32 (p.time_allotment - 1) }

@[simp] theorem Proc.ticked_share (p : Proc) : p.ticked.share = p.share := rfl
@[simp] theorem Proc.ticked_lev (p : Proc) : p.ticked.lev = p.lev := rfl
@[simp] theorem Proc.ticked_time_allotment (p : Proc) :
    p.ticked.time_allotment = int32 (p.time_allotment - 1) := rfl

/-- **Tick inversion**: after the boost the tick is charged, and the process yields
if what is left of its allotment is a multiple of its quantum. -/
theorem preempt_cases (h : k.preempt i = .ok k') : ∃ q p', time_quantom ((k.boosted i).proc i).lev = .ok q ∧
    q ≠ 0 ∧ k'.proc = Function.update (k.boosted i).proc i p' ∧ SameTables k k' ∧
    (((k.boosted i).proc i).ticked.time_allotment.tmod q ≠ 0 ∧ p' = ((k.boosted i).proc i).ticked ∧
        k'.cur = k.cur ∨
      ((k.boosted i).proc i).ticked.time_allotment.tmod q = 0 ∧
        Yields { ((k.boosted i).proc i).ticked with from_trap := true } p' ∧ k'.cur = none) := by
  have hf := boosted_frame k i
  have hmp : (k.boosted i).min_pass = k.min_pass := by
    unfold Kernel.boosted Kernel.countTick
    split <;> split <;> rfl
  have hb : SameTables k (k.boosted i) := ⟨hf.2.2.2.1, hf.2.2.2.2, hmp, hf.2.1⟩
  simp only [Kernel.preempt, bind_ok, Kernel.set_proc, Function.update_self] at h
  obtain ⟨q, hq, h⟩ := h
  split at h
  · cases h
  · next hq0 =>
    split at h
    · next hne =>
      cases h
      exact ⟨q, _, hq, hq0, rfl, ⟨hb.stable, hb.mlfq, hb.min_pass, hb.cont⟩, .inl ⟨hne, rfl, hf.1⟩⟩
    · next he =>
      obtain ⟨p', hy, hp, ht, hc⟩ := yield_ok h
      refine ⟨q, p', hq, hq0, ?_, ⟨ht.stable.trans hb.stable, ht.mlfq.trans hb.mlfq,
        ht.min_pass.trans hb.min_pass, ht.cont.trans hb.cont⟩, .inr ⟨not_not.mp he, ?_, hc⟩⟩
      · simpa using hp
      · simpa [Proc.ticked] using hy

/-! ## Scheduling -/

/-- What `dispatch` leaves alone: all but the state of the process it runs. -/
structure Dispatched (k k' : Kernel) : Prop where
  stable : k'.stable = k.stable
  queue : k'.ARRAYQUEUE = k.ARRAYQUEUE
  mlfq : k'.mlfq = k.mlfq
  min_pass : k'.min_pass = k.min_pass
  clock : ∀ j, SameClock (k.proc j) (k'.proc j)
  state : ∀ j, (k'.proc j).state = (k.proc j).state ∨
    k'.cur = some j ∧ (k.proc j).state = .RUNNABLE ∧ (k'.proc j).state = .RUNNING

theorem resume_clock (k : Kernel) (i j : Slot) : SameClock (k.proc j) ((k.resume i).proc j) ∧
    ((k.resume i).proc j).state = (k.proc j).state ∧ (k.resume i).min_pass = k.min_pass := by
  have hp : ∀ c : Cont, SameClock (k.proc j)
      (((k.set i fun p => { p with chan := .null }).setCont i c).proc j) ∧
      (((k.set i fun p => { p with chan := .null }).setCont i c).proc j).state =
        (k.proc j).state := fun c => by
    by_cases hj : j = i
    · subst hj; simpa using ⟨rfl, rfl, rfl, rfl, rfl⟩
    · simpa [hj] using SameClock.refl _
  unfold Kernel.resume
  split
  · exact ⟨(hp _).1, (hp _).2, rfl⟩
  · exact ⟨(hp _).1, (hp _).2, rfl⟩
  · exact ⟨.refl _, rfl, rfl⟩

theorem dispatch_keep {ptr : Ptr} (hd : k.dispatch ptr = .ok k') : Dispatched k k' := by
  rcases dispatch_ok hd with rfl | ⟨i, -, hr, rfl⟩
  · exact ⟨rfl, rfl, rfl, rfl, fun _ => .refl _, fun _ => .inl rfl⟩
  · generalize hk1 : ({ k.set i (fun p => { p with
      first_scheduled := true, start_tick := k.MLFQ_ticks, state := .RUNNING }) with
      cur := some i } : Kernel) = k1
    have hf := resume_frame k1 i
    have hc := resume_clock k1 i
    have hproc : k1.proc = Function.update k.proc i { k.proc i with
        first_scheduled := true, start_tick := k.MLFQ_ticks, state := .RUNNING } := by rw [← hk1]; rfl
    refine ⟨hf.2.1.trans (by rw [← hk1]; rfl), hf.1.trans (by rw [← hk1]; rfl),
      hf.2.2.1.trans (by rw [← hk1]; rfl), (hc i).2.2.trans (by rw [← hk1]; rfl), fun j => ?_, fun j => ?_⟩
    · refine SameClock.trans ?_ (hc j).1
      rw [hproc]
      by_cases hj : j = i
      · subst hj; simpa using ⟨rfl, rfl, rfl, rfl, rfl⟩
      · simpa [hj] using SameClock.refl _
    · rw [(hc j).2.1, hproc]
      by_cases hj : j = i
      · subst hj
        exact .inr ⟨by rw [hf.2.2.2.1, ← hk1], hr, by simp⟩
      · exact .inl (by simp [hj])

/-- The stride of an entry. -/
def Proc.stride (p : Proc) : Int := MULTSTRIDESHARE.tdiv p.share

/-- The state in which entry `e` has been charged. -/
structure Picked (k : Kernel) (e : Ptr) (p : Proc) (k' : Kernel) : Prop where
  deref : k.deref e = .ok p
  share : p.share ≠ 0
  pass : k'.deref e = .ok { p with pass := int32 (p.pass + p.stride) }
  min_pass : k'.min_pass = int32 (p.pass + p.stride)
  other : ∀ e', e' ≠ e → k'.deref e' = k.deref e'
  stable : k'.stable = k.stable
  queue : k'.ARRAYQUEUE = k.ARRAYQUEUE
  cont : k'.cont = k.cont
  cur : k'.cur = k.cur

/-- **Scheduling inversion**: the entry at the index found is charged, and a
process is picked for it and dispatched. -/
theorem scheduler_cases (hs : k.scheduler = .ok k') : ∃ m e p k₁ ptr,
    k.minIndex (k.stable.last + 1).toNat 0 0 = .ok m ∧ k.entry m = .ok e ∧ Picked k e p k₁ ∧
    k₁.pick m e = .ok ptr ∧ k₁.dispatch ptr = .ok k' := by
  simp only [Kernel.scheduler, bind_ok] at hs
  obtain ⟨m, hm, e, he, p, hp, hs⟩ := hs
  split at hs
  · cases hs
  · next hsh =>
    simp only [bind_ok] at hs
    obtain ⟨k1, h1, ptr, hptr, hd⟩ := hs
    refine ⟨m, e, p, _, ptr, hm, he, ?_, hptr, hd⟩
    rcases setPtr_ok h1 with ⟨rfl, rfl⟩ | ⟨i, rfl, rfl⟩
    · cases hp
      refine ⟨rfl, hsh, rfl, rfl, fun e' he' => ?_, rfl, rfl, rfl, rfl⟩
      cases e' with
      | mlfq => exact absurd rfl he'
      | _ => rfl
    · cases hp
      refine ⟨rfl, hsh, by simp [Kernel.deref, Proc.stride], rfl, fun e' he' => ?_, rfl, rfl, rfl, rfl⟩
      cases e' with
      | slot j =>
        have hj : j ≠ i := fun e => he' (e ▸ rfl)
        simp [Kernel.deref, hj]
      | _ => rfl

theorem Picked.proc {e : Ptr} {p : Proc} (h : Picked k e p k') (j : Slot) :
    k'.proc j = { k.proc j with pass := (k'.proc j).pass } := by
  by_cases he : e = .slot j
  · subst he
    have h1 := Except.ok.inj h.deref
    have h2 := Except.ok.inj h.pass
    rw [h2, ← h1]
  · have := Except.ok.inj (h.other (.slot j) (Ne.symm he))
    rw [this]

/-- Scheduling changes no share, level or allotment. -/
theorem scheduler_clock (hs : k.scheduler = .ok k') (j : Slot) :
    (k'.proc j).share = (k.proc j).share ∧ (k'.proc j).lev = (k.proc j).lev ∧
    (k'.proc j).time_allotment = (k.proc j).time_allotment := by
  obtain ⟨m, e, p, k1, ptr, -, -, hp, -, hd⟩ := scheduler_cases hs
  have hc := (dispatch_keep hd).clock j
  rw [hc.share, hc.lev, hc.time_allotment, hp.proc j]
  exact ⟨rfl, rfl, rfl⟩

end

end Xv6.Sched
