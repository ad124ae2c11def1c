import Xv6.Sched.Family

/-!
# No lost child exit

Every step is a `Deed` between calm changes. From the deeds follows what holds in
every interleaving: no process waits in its sleep for a child that has exited,
every process has a live parent, and each exit is reported once, to the parent.
-/

namespace Xv6.Sched

open Lib Family

section
variable {k k' k'' : Kernel} {i : Slot}

/-! ## Calm changes -/

theorem Eased.refl (p : Proc) : Eased p p := ⟨rfl, rfl, rfl, .inl rfl⟩

theorem Eased.trans {p q r : Proc} (h : Eased p q) (h' : Eased q r) : Eased p r where
  parent := h'.parent.trans h.parent
  pid := h'.pid.trans h.pid
  chan := h'.chan.trans h.chan
  state := by
    have := h.state; have := h'.state
    grind

theorem Along.trans {c d e : Cont} (h : Along c d) (h' : Along d e) : Along c e :=
  ⟨h'.child.trans h.child, h'.built.trans h.built, h.left, h'.right⟩

theorem Calm.trans (h : Calm k k') (h' : Calm k' k'') : Calm k k'' where
  proc j := (h.proc j).trans (h'.proc j)
  cont j := by
    rcases h.cont j with e | ⟨hs, e⟩
    · rcases h'.cont j with e' | ⟨hs', e'⟩
      · exact .inl (e'.trans e)
      · right
        refine ⟨?_, e ▸ e'⟩
        rcases (h.proc j).state with es | ⟨es, -⟩
        · rwa [← es]
        · rw [es]; exact .inl rfl
    · rcases h'.cont j with e' | ⟨-, e'⟩
      · exact .inr ⟨hs, e'.symm ▸ e⟩
      · exact .inr ⟨hs, e.trans e'⟩
  initproc := h'.initproc.trans h.initproc

/-- A change of the table that is calm in each slot. -/
theorem Calm.of_proc (hp : ∀ j, Eased (k.proc j) (k'.proc j)) (hc : k'.cont = k.cont)
    (hi : k'.initproc = k.initproc) : Calm k k' :=
  ⟨hp, fun j => .inl (by rw [hc]), hi⟩

/-- Nothing changes but queues, passes and results. -/
theorem Calm.of_eq (hp : k'.proc = k.proc) (hc : k'.cont = k.cont) (hi : k'.initproc = k.initproc) :
    Calm k k' :=
  .of_proc (fun j => by rw [hp]; exact .refl _) hc hi

theorem Calm.refl (k : Kernel) : Calm k k := .of_eq rfl rfl rfl

theorem Calm.set {f : Proc → Proc} (hf : Eased (k.proc i) (f (k.proc i))) : Calm k (k.set i f) := by
  refine .of_proc (fun j => ?_) rfl rfl
  by_cases hj : j = i
  · subst hj; simpa using hf
  · simpa [hj] using Eased.refl _

theorem Calm.setCont {c : Cont} (hs : (k.proc i).state.Started) (hc : Along (k.cont i) c) :
    Calm k (k.setCont i c) where
  proc _ := .refl _
  cont j := by
    by_cases hj : j = i
    · subst hj; exact .inr ⟨hs, by simpa using hc⟩
    · exact .inl (by simp [hj])
  initproc := rfl

/-- A system call returns. -/
theorem Calm.sysret (hs : (k.proc i).state.Started) (hc : Along (k.cont i) .user) (v : Int) :
    Calm k (k.sysret i v) :=
  (Calm.setCont hs hc).trans (.of_eq rfl rfl rfl)

theorem along_user : Along .user .user := ⟨rfl, rfl, by decide, by decide⟩

theorem wakeup1_eased (k : Kernel) (c : Chan) (j : Slot) : Eased (k.proc j) ((k.wakeup1 c).proc j) := by
  simp only [Kernel.wakeup1]
  split
  · next h => exact ⟨rfl, rfl, rfl, .inr ⟨h.1, rfl⟩⟩
  · exact .refl _

theorem wakeup1_calm (c : Chan) : Calm k (k.wakeup1 c) := .of_proc (wakeup1_eased k c) rfl rfl

theorem setPtr_calm {f : Proc → Proc} {p : Ptr} (h : k.setPtr f p = .ok k') (hf : ∀ p, Eased p (f p)) :
    Calm k k' := by
  rcases setPtr_ok h with ⟨-, rfl⟩ | ⟨j, -, rfl⟩
  · exact .of_eq rfl rfl rfl
  · exact .set (hf _)

theorem enqueue_calm {j : Slot} {lev : Int} (h : k.enqueue j lev = .ok k') : Calm k k' := by
  obtain ⟨l, q, -, -, rfl⟩ := enqueue_ok.mp h
  exact .of_eq rfl rfl rfl

theorem dequeue_calm {brk : Bool} {j : Slot} {lev : Int} (h : k.dequeue brk j lev = .ok k') :
    Calm k k' := by
  obtain ⟨l, q, -, -, rfl⟩ := dequeue_ok.mp h
  exact .of_eq rfl rfl rfl

theorem adjust_calm (h : k.adjust i = .ok k') : Calm k k' := by
  rcases adjust_ok h with ⟨-, l, l', q, q', a, -, -, -, -, rfl⟩ | ⟨-, a, rfl⟩
  · have hq : Calm k ((k.setQueue l q).setQueue l' q') := .of_eq rfl rfl rfl
    exact hq.trans (.set ⟨rfl, rfl, rfl, .inl rfl⟩)
  · exact .set ⟨rfl, rfl, rfl, .inl rfl⟩

theorem unschedule_calm (h : k.unschedule i = .ok k') : Calm k k' ∧ k'.cont = k.cont := by
  unfold Kernel.unschedule at h
  split at h
  · obtain ⟨l, q, -, -, rfl⟩ := dequeue_ok.mp h
    exact ⟨.of_eq rfl rfl rfl, rfl⟩
  · simp only [bind_ok] at h
    obtain ⟨st, -, e, -, h⟩ := h
    have h1 : Calm k { k with stable := st } := .of_eq rfl rfl rfl
    refine ⟨h1.trans (setPtr_calm h fun _ => ⟨rfl, rfl, rfl, .inl rfl⟩), ?_⟩
    rcases setPtr_ok h with ⟨-, rfl⟩ | ⟨j, -, rfl⟩ <;> rfl

theorem boosted_calm (k : Kernel) (i : Slot) : Calm k (k.boosted i) := by
  have h : Calm k (k.countTick i) := by
    obtain ⟨hp, -, hc, -⟩ := countTick_frame k i
    refine .of_eq hp hc ?_
    unfold Kernel.countTick
    split <;> rfl
  unfold Kernel.boosted
  split
  · exact h.trans (.of_proc (fun _ => ⟨rfl, rfl, rfl, .inl rfl⟩) rfl rfl)
  · exact h

theorem set_cpu_share_calm {share : Int} (hs : (k.proc i).state.Started) (hu : k.cont i = .user)
    (h : k.set_cpu_share i share = .ok k') : Calm k k' := by
  simp only [Kernel.set_cpu_share, bind_ok] at h
  obtain ⟨e, -, m, -, h⟩ := h
  split at h
  · cases h; exact .sysret hs (hu ▸ along_user) _
  · cases h; exact .setCont hs (hu ▸ ⟨rfl, rfl, by decide, by simp⟩)

theorem setShareLocked_calm {e : Ptr} {share : Int} (hs : (k.proc i).state.Started)
    (hc : k.cont i = .setShare e share) (h : k.setShareLocked i e share = .ok k') : Calm k k' := by
  simp only [Kernel.setShareLocked, bind_ok, pure_ok] at h
  obtain ⟨st, -, k1, h1, k2, h2, rfl⟩ := h
  have q0 : Calm k { k with stable := st } := .of_eq rfl rfl rfl
  have q1 := q0.trans (setPtr_calm h1 fun _ => ⟨rfl, rfl, rfl, .inl rfl⟩)
  have q2 : Calm k1 (k1.set i fun p => { p with share := share, pass := k1.min_pass }) :=
    .set ⟨rfl, rfl, rfl, .inl rfl⟩
  have q2 := q1.trans (q2.trans (dequeue_calm h2))
  have q3 : Calm k (k2.set i fun p => { p with
      lev := STRIDE_LEV, time_allotment := STRIDE_DEFAULT_TIME_QUANTOM }) :=
    q2.trans (.set ⟨rfl, rfl, rfl, .inl rfl⟩)
  have hk3 := q3.cont i
  refine q3.trans (.sysret ((q3.proc i).started hs) ?_ _)
  rcases hk3 with e | ⟨-, e⟩
  · rw [e, hc]; exact ⟨rfl, rfl, by simp, by decide⟩
  · exact ⟨by rw [e.child, hc]; rfl, by rw [e.built, hc]; rfl, e.right, by decide⟩

theorem kill_calm {pid : Int} (hs : (k.proc i).state.Started) (hu : k.cont i = .user) :
    Calm k (k.kill i pid) := by
  unfold Kernel.kill
  split
  · next j _ =>
    have q : Calm k (k.set j fun p => { p with
        killed := true, state := if p.state = .SLEEPING then .RUNNABLE else p.state }) := by
      refine .set ⟨rfl, rfl, rfl, ?_⟩
      by_cases hsl : (k.proc j).state = .SLEEPING
      · exact .inr ⟨hsl, if_pos hsl⟩
      · exact .inl (if_neg hsl)
    refine q.trans (.sysret ((q.proc i).started hs) ?_ _)
    rw [Kernel.set_cont, hu]
    exact along_user
  · exact .sysret hs (hu ▸ along_user) _

/-! ## Steps -/

/-- A step: calm, or calm around a deed. -/
def Turn (k : Kernel) (e : Event) (k' : Kernel) : Prop :=
  (e = .none ∧ Calm k k') ∨ ∃ k₁ k₂, Calm k k₁ ∧ Deed k₁ e k₂ ∧ Calm k₂ k'

theorem Calm.turn (h : Calm k k') : Turn k .none k' := .inl ⟨rfl, h⟩

/-- A deed, up to what does not concern the life of slots. -/
theorem Deed.turn {e : Event} (d : Deed k e k') (hp : k''.proc = k'.proc) (hc : k''.cont = k'.cont)
    (hi : k''.initproc = k'.initproc) : Turn k e k'' :=
  .inr ⟨k, k', .refl k, d, .of_eq hp hc hi⟩

theorem running_started (h : (k.proc i).state = .RUNNING) : (k.proc i).state.Started := by
  rw [h]; exact .inr (.inr rfl)

theorem fork_turn (hr : (k.proc i).state = .RUNNING) (hu : k.cont i = .user) :
    Turn k (event k (.call i .fork)) (k.fork i) := by
  unfold event Kernel.fork Kernel.allocproc
  cases hf : k.findSlot fun p => p.state = .UNUSED with
  | none => exact (Calm.sysret (running_started hr) (hu ▸ along_user) _).turn
  | some np =>
    have hn : (k.proc np).state = .UNUSED := by simpa using findSlot_some hf
    exact (Deed.alloc i np k.nextpid hr hu hn).turn rfl rfl rfl

theorem kalloc_turn {np : Slot} {ok : Bool} (hr : (k.proc i).state = .RUNNING)
    (hc : k.cont i = .allocStack np) : Turn k .none (k.kalloc i np ok) := by
  unfold Kernel.kalloc
  split
  · have q : Calm k (k.allocInit np) := .set ⟨rfl, rfl, rfl, .inl rfl⟩
    have ha : Along ((k.allocInit np).cont i) (.allocEnqueue np) := by
      rw [Kernel.allocInit, Kernel.set_cont, hc]
      exact ⟨rfl, rfl, by simp, by simp⟩
    exact (q.trans (.setCont ((q.proc i).started (running_started hr)) ha)).turn
  · exact (Deed.drop i np (by rw [hc]; rfl) (by rw [hc]; rfl)).turn rfl rfl rfl

theorem allocEnqueue_turn {np : Slot} (hr : (k.proc i).state = .RUNNING)
    (hc : k.cont i = .allocEnqueue np) (h : k.allocEnqueue i np = .ok k') : Turn k .none k' := by
  simp only [Kernel.allocEnqueue, bind_ok, pure_ok] at h
  obtain ⟨k1, h1, rfl⟩ := h
  have q := enqueue_calm h1
  obtain ⟨l, a, -, -, rfl⟩ := enqueue_ok.mp h1
  exact (q.trans (.setCont (running_started hr) (by
    rw [Kernel.setQueue_cont, hc]; exact ⟨rfl, rfl, by simp, by simp⟩))).turn

theorem copyuvm_turn {np : Slot} {ok : Bool} (hc : k.cont i = .forkCopy np) :
    Turn k .none (k.copyuvm i np ok) := by
  unfold Kernel.copyuvm
  split
  · exact (Deed.copy i np (by rw [hc]; rfl)).turn rfl rfl rfl
  · exact (Deed.drop i np (by rw [hc]; rfl) (by rw [hc]; rfl)).turn rfl rfl rfl

/-- `yield`, called at a point at which no slot is under construction by `i`. -/
theorem yield_turn (hr : (k.proc i).state = .RUNNING) (h : k.yield i = .ok k') : Turn k .none k' := by
  simp only [Kernel.yield, bind_ok, pure_ok] at h
  obtain ⟨k1, h1, rfl⟩ := h
  refine .inr ⟨k, _, .refl k, .stop i hr, ?_⟩
  obtain ⟨a, ha⟩ := charge_proc (k.set i fun p => { p with state := .RUNNABLE }) i
  have q : Calm (k.set i fun p => { p with state := .RUNNABLE })
      ((k.set i fun p => { p with state := .RUNNABLE }).charge i) := by
    rw [ha]; exact .set ⟨rfl, rfl, rfl, .inl rfl⟩
  exact (q.trans (adjust_calm h1)).trans (.of_eq rfl rfl rfl)

/-- Calm changes before a step. -/
theorem Turn.after {e : Event} (q : Calm k k') (h : Turn k' e k'') : Turn k e k'' := by
  rcases h with ⟨he, h⟩ | ⟨k1, k2, h1, d, h2⟩
  · exact .inl ⟨he, q.trans h⟩
  · exact .inr ⟨k1, k2, q.trans h1, d, h2⟩

theorem preempt_turn (hr : (k.proc i).state = .RUNNING) (h : k.preempt i = .ok k') :
    Turn k .none k' := by
  have q := boosted_calm k i
  have hb : ((k.boosted i).proc i).state = .RUNNING := by
    rw [(q.proc i).eq (.inr (.inr (.inr rfl)))]; exact hr
  obtain ⟨a, rfl | hy⟩ := preempt_ok h
  · exact (q.trans (.set ⟨rfl, rfl, rfl, .inl rfl⟩)).turn
  · have q2 : Calm (k.boosted i) ((k.boosted i).set i fun p =>
        { p with time_allotment := a, from_trap := true }) := .set ⟨rfl, rfl, rfl, .inl rfl⟩
    exact .after (q.trans q2) (yield_turn (by simpa using hb) hy)

theorem zombieChild_isSome : (k.zombieChild i).isSome ↔
    ∃ z, (k.proc z).parent = .slot i ∧ (k.proc z).state = .ZOMBIE := by
  simp [Kernel.zombieChild, Kernel.findSlot, List.find?_isSome]

theorem zombieChild_some {z : Slot} (h : k.zombieChild i = some z) :
    (k.proc z).parent = .slot i ∧ (k.proc z).state = .ZOMBIE := by
  simpa using findSlot_some h

/-- The sleepers that `reparent` wakes. -/
def Kernel.roused (k : Kernel) (i : Slot) : Kernel :=
  if (k.zombieChild i).isSome then k.wakeup1 k.initproc.chan else k

theorem roused_calm (k : Kernel) (i : Slot) : Calm k (k.roused i) := by
  unfold Kernel.roused
  split
  · exact wakeup1_calm _
  · exact .refl k

/-- Waking init and passing it the children can be done in either order. -/
theorem reparent_eq (k : Kernel) (i : Slot) : k.reparent i = (k.roused i).disown i := by
  have hw : ∀ c, (k.disown i).wakeup1 c = (k.wakeup1 c).disown i := fun c => by
    simp only [Kernel.wakeup1, Kernel.disown, Kernel.mk.injEq, and_true]
    funext j
    by_cases hp : (k.proc j).parent = .slot i <;>
      by_cases hs : (k.proc j).state = .SLEEPING ∧ (k.proc j).chan = c <;> simp [hp, hs]
  unfold Kernel.roused
  split
  · next hz => rw [← hw]; exact if_pos hz
  · next hz => exact if_neg hz

/-- After `wakeup1(c)` nobody sleeps on `c`. -/
theorem not_sleeping_wakeup1 {c : Chan} {j : Slot} (hc : (k.proc j).chan = c) :
    ((k.wakeup1 c).proc j).state ≠ .SLEEPING := by
  simp only [Kernel.wakeup1, hc, and_true]
  split
  · simp
  · next h => exact h

/-- Who was woken up does not sleep after further calm changes. -/
theorem Calm.not_sleepsOnSelf (h : Calm k k') {p : Slot}
    (hn : (k.proc p).chan = .proc p → (k.proc p).state ≠ .SLEEPING) : ¬ SleepsOnSelf k' p := by
  rintro ⟨hs, hc⟩
  rw [(h.proc p).chan] at hc
  rcases (h.proc p).state with e | ⟨-, e⟩
  · exact hn hc (e ▸ hs)
  · rw [e] at hs; cases hs

theorem exit_turn (hr : (k.proc i).state = .RUNNING) (hu : k.cont i = .user)
    (h : k.exit i = .ok k') : Turn k (.exits i) k' := by
  unfold Kernel.exit at h
  split at h
  · cases h
  · next hi =>
    simp only [bind_ok, pure_ok] at h
    obtain ⟨k2, h2, rfl⟩ := h
    rw [reparent_eq] at h2
    have qw : Calm k (k.wakeup1 (k.proc i).parent.chan) := wakeup1_calm _
    have qr := roused_calm (k.wakeup1 (k.proc i).parent.chan) i
    have q := qw.trans qr
    have hchan : ∀ j, ((k.wakeup1 (k.proc i).parent.chan).proc j).chan = (k.proc j).chan := fun j =>
      (qw.proc j).chan
    refine .inr ⟨_, _, q, .exit i ?_ ?_ ?_ (fun p hp => ?_) (fun hz p hp => ?_), ?_⟩
    · rw [(q.proc i).eq (.inr (.inr (.inr rfl)))]; exact hr
    · rcases q.cont i with e | ⟨-, e⟩
      · rw [e, hu]
      · unfold Kernel.roused
        split <;> exact hu
    · rw [q.initproc]; exact hi
    · -- the parent was woken first
      rw [(q.proc i).parent] at hp
      refine qr.not_sleepsOnSelf fun hc => ?_
      rw [hchan] at hc
      exact not_sleeping_wakeup1 (by rw [hp]; exact hc)
    · -- init was woken if one of its new children is a zombie
      have hzc : ((k.wakeup1 (k.proc i).parent.chan).zombieChild i).isSome := by
        obtain ⟨z, hz1, hz2⟩ := hz
        exact zombieChild_isSome.mpr ⟨z, (qr.proc z).parent ▸ hz1,
          ((qr.proc z).eq (.inr (.inr (.inl rfl)))).mp hz2⟩
      have hin : k.initproc = .slot p := q.initproc ▸ hp
      have hro : (k.wakeup1 (k.proc i).parent.chan).roused i =
          (k.wakeup1 (k.proc i).parent.chan).wakeup1 k.initproc.chan := if_pos hzc
      rintro ⟨hs, hc⟩
      rw [hro] at hs hc
      refine not_sleeping_wakeup1 ?_ hs
      rw [hin, ← (wakeup1_eased _ _ _).chan]
      exact hc
    · obtain ⟨q2, hcont⟩ := unschedule_calm h2
      refine .of_proc (fun j => ?_) hcont q2.initproc
      by_cases hj : j = i
      · subst hj
        have hq := q2.proc j
        exact ⟨by simpa using hq.parent, by simpa using hq.pid, by simpa using hq.chan, .inl (by simp)⟩
      · simpa [hj] using q2.proc j

/-! ## Waiting -/

theorem zombieChild_congr (h : ∀ j, (k'.proc j).parent = (k.proc j).parent ∧
    ((k'.proc j).state = .ZOMBIE ↔ (k.proc j).state = .ZOMBIE)) : k'.zombieChild i = k.zombieChild i := by
  simp only [Kernel.zombieChild, Kernel.findSlot, h]

/-- Process `i` runs in `k'`; it did in `k`, or it was dispatched. -/
structure Resumed (k k' : Kernel) (i : Slot) : Prop where
  proc : ∀ j, j ≠ i → k'.proc j = k.proc j
  cont : ∀ j, j ≠ i → k'.cont j = k.cont j
  state : (k'.proc i).state = .RUNNING
  parent : (k'.proc i).parent = (k.proc i).parent
  pid : (k'.proc i).pid = (k.proc i).pid
  initproc : k'.initproc = k.initproc
  before : k = k' ∨ (k.proc i).state = .RUNNABLE

theorem Resumed.started (h : Resumed k k' i) : (k.proc i).state.Started := by
  rcases h.before with rfl | e
  · exact running_started h.state
  · rw [e]; exact .inr (.inl rfl)

theorem Resumed.zombieChild (h : Resumed k k' i) : k'.zombieChild i = k.zombieChild i := by
  refine zombieChild_congr fun j => ?_
  by_cases hj : j = i
  · subst hj
    have hn : (k.proc j).state ≠ .ZOMBIE := fun e => absurd (e ▸ h.started) (by decide)
    exact ⟨h.parent, iff_of_false (by rw [h.state]; decide) hn⟩
  · rw [h.proc j hj]; exact ⟨rfl, .rfl⟩

/-- Apart from its own record and its place, `k'` is `k` after a change of `i`. -/
theorem Resumed.calm (h : Resumed k k' i) {f g : Proc → Proc} {c : Cont} (hfg : Eased (f (k.proc i)) (g (k'.proc i))) :
    Calm ((k.set i f).setCont i c) ((k'.set i g).setCont i c) where
  proc j := by
    by_cases hj : j = i
    · subst hj; simpa using hfg
    · simp only [Kernel.setCont_proc, Kernel.set_proc, Function.update_of_ne hj, h.proc j hj]
      exact .refl _
  cont j := .inl (by
    by_cases hj : j = i
    · subst hj; simp
    · simp [hj, h.cont j hj])
  initproc := h.initproc

/-- One pass of the loop of `wait` by `i`. -/
theorem wait_turn (h : Resumed k k' i) (hc : (k.cont i).child = none)
    (hu : k = k' → Along (k.cont i) .user) :
    Turn k ((k.zombieChild i).elim .none (.reaps i)) (k'.wait i) := by
  have hz := h.zombieChild
  unfold Kernel.wait
  rw [← Kernel.zombieChild, hz]
  cases hf : k.zombieChild i with
  | some z =>
    obtain ⟨hp, hzs⟩ := zombieChild_some hf
    have hzi : z ≠ i := by
      rintro rfl
      have := h.started
      rw [hzs] at this; exact absurd this (by decide)
    refine .inr ⟨k, _, .refl k, .reap i z (k'.proc i).chan h.started hc hp hzs, ?_⟩
    refine ⟨fun j => ?_, fun j => .inl ?_, h.initproc⟩
    · by_cases hj : j = z
      · subst hj
        simpa [hzi, h.proc j hzi] using Eased.refl _
      · by_cases hji : j = i
        · subst hji
          exact ⟨by simpa [hj] using h.parent, by simpa [hj] using h.pid, by simp [hj],
            .inl (by simpa [hj] using h.state)⟩
        · simpa [hj, hji, h.proc j hji] using Eased.refl _
    · by_cases hji : j = i
      · subst hji; simp
      · simp [hji, h.cont j hji]
  | none =>
    have hno : ∀ j, (k.proc j).parent = .slot i → (k.proc j).state ≠ .ZOMBIE := fun j hp hs => by
      have := zombieChild_isSome.mpr ⟨j, hp, hs⟩
      rw [hf] at this; cases this
    dsimp only
    split
    · rcases h.before with rfl | hr
      · exact (Calm.sysret h.started (hu rfl) _).turn
      · refine .inr ⟨k, _, .refl k, .run i (k'.proc i).chan .user hr (.inr ⟨rfl, hc⟩), ?_⟩
        have q : Calm _ ((k'.set i id).setCont i .user) :=
          h.calm (f := fun p => { p with state := .RUNNING, chan := (k'.proc i).chan }) (g := id)
            ⟨h.parent, h.pid, rfl, .inl h.state⟩
        exact q.trans (.of_eq (by simp [Kernel.set]) rfl rfl)
    · refine .inr ⟨k, _, .refl k, .sleep i (.proc i) .waiting h.started hc (.inr ⟨rfl, rfl, hno⟩), ?_⟩
      have q := h.calm (f := fun p => { p with chan := .proc i, state := .SLEEPING })
        (g := fun p => { p with chan := .proc i, state := .SLEEPING }) (c := .waiting)
        ⟨h.parent, h.pid, rfl, .inl rfl⟩
      exact q.trans (.of_eq rfl rfl rfl)

/-- A process that is dispatched inside `wait` goes on with the loop. -/
theorem dispatched_ok (h : k.dispatched i = .ok k') : (k.proc i).state = .RUNNABLE ∧
    if k.cont i = .waiting then ∃ k₁, Resumed k k₁ i ∧ k' = k₁.wait i
    else k' = { k.set i (fun p => { p with
      first_scheduled := true, start_tick := k.MLFQ_ticks, state := .RUNNING }) with
      cur := some i }.resume i := by
  unfold Kernel.dispatched at h
  split at h
  · cases h
  · next hr =>
    simp only [ne_eq, not_not] at hr
    simp only [bind_ok, pure_ok, Kernel.dispatch, Kernel.deref, ok_bind, if_pos hr] at h
    obtain ⟨k1, rfl, rfl⟩ := h
    refine ⟨hr, ?_⟩
    by_cases hw : k.cont i = .waiting
    · rw [if_pos hw, if_pos hw]
      refine ⟨_, ?_, rfl⟩
      simp only [Kernel.resume, Kernel.set_cont, hw]
      refine ⟨fun j hj => ?_, fun j hj => ?_, ?_, ?_, ?_, rfl, .inr hr⟩
      · simp [hj]
      · simp [hj]
      · simp
      · simp
      · simp
    · rw [if_neg hw, if_neg hw]

theorem dispatched_turn (h : k.dispatched i = .ok k') : Turn k (event k (.dispatch i)) k' := by
  obtain ⟨hr, h⟩ := dispatched_ok h
  by_cases hw : k.cont i = .waiting
  · rw [if_pos hw] at h
    obtain ⟨k1, hk1, rfl⟩ := h
    rw [event, if_pos hw]
    exact wait_turn hk1 (by rw [hw]; rfl) fun e => by rw [e, hk1.state] at hr; cases hr
  · rw [if_neg hw] at h
    subst h
    rw [event, if_neg hw]
    · unfold Kernel.resume
      split
      · next ha =>
        have ha' : k.cont i = .asleep := ha
        refine .inr ⟨k, _, .refl k, .run i .null .user hr (.inr ⟨rfl, by rw [ha']; rfl⟩), ?_⟩
        refine .of_proc (fun j => ?_) rfl rfl
        by_cases hj : j = i
        · subst hj; simpa using ⟨rfl, rfl, rfl, .inl rfl⟩
        · simpa [hj] using Eased.refl _
      · next hc => exact absurd hc hw
      · refine .inr ⟨k, _, .refl k, .run i (k.proc i).chan (k.cont i) hr (.inl ⟨rfl, hw⟩), ?_⟩
        refine .of_proc (fun j => ?_) (by simp) rfl
        by_cases hj : j = i
        · subst hj; simpa using ⟨rfl, rfl, rfl, .inl rfl⟩
        · simpa [hj] using Eased.refl _

theorem stepProc_turn {a : Action} (hr : (k.proc i).state = .RUNNING)
    (h : stepProc k i (k.cont i) a = .ok k') : Turn k (event k (.call i a)) k' := by
  have hs := running_started hr
  unfold stepProc at h
  split at h
  · next hu => cases h; exact fork_turn hr hu
  · next hc => cases h; exact kalloc_turn hr hc
  · next hc => exact allocEnqueue_turn hr hc h
  · next hc => cases h; exact copyuvm_turn hc
  · next hc => cases h; exact (Deed.publish i _ hc).turn rfl rfl rfl
  · next hu =>
    cases h
    have q : Calm k (k.set i fun p => { p with from_trap := false }) := .set ⟨rfl, rfl, rfl, .inl rfl⟩
    refine (q.trans (.setCont ((q.proc i).started hs) ?_)).turn
    rw [Kernel.set_cont, hu]
    exact ⟨rfl, rfl, by decide, by decide⟩
  · next hy =>
    have q : Calm k (k.setCont i .user) :=
      .setCont hs (by rw [hy]; exact ⟨rfl, rfl, by decide, by decide⟩)
    exact .after q (yield_turn (k := k.setCont i .user) hr h)
  · next hu => exact (set_cpu_share_calm hs hu h).turn
  · next hc => exact (setShareLocked_calm hs hc h).turn
  · next c hu =>
    cases h
    exact (Deed.sleep i c .asleep hs (by rw [hu]; rfl) (.inl rfl)).turn rfl rfl rfl
  · next hu => exact exit_turn hr hu h
  · next hu =>
    cases h
    exact wait_turn ⟨fun _ _ => rfl, fun _ _ => rfl, hr, rfl, rfl, rfl, .inl rfl⟩ (by rw [hu]; rfl) fun _ =>
      hu ▸ along_user
  · next hw =>
    cases h
    exact wait_turn ⟨fun _ _ => rfl, fun _ _ => rfl, hr, rfl, rfl, rfl, .inl rfl⟩ (by rw [hw]; rfl) fun _ =>
      hw ▸ ⟨rfl, rfl, by decide, by decide⟩
  · next hu => cases h; exact (kill_calm hs hu).turn
  · cases h

/-- **Inversion**: a step is calm around the deed that its event names. -/
theorem step_turn {a : Act} (h : kernelStep k a = .ok k') : Turn k (event k a) k' := by
  cases a with
  | dispatch i => exact dispatched_turn h
  | interrupt i user =>
    dsimp only [kernelStep] at h
    split at h
    · cases h
    · next hb =>
      simp only [ne_eq, not_or, not_not, not_and] at hb
      unfold Kernel.interrupted at h
      split at h
      · next hu => rw [event, if_pos hu]; exact exit_turn hb.1 (hb.2 hu.2) h
      · next hu => rw [event, if_neg hu]; exact preempt_turn hb.1 h
  | wakeup c => cases h; exact (wakeup1_calm c).turn
  | call i a =>
    dsimp only [kernelStep] at h
    split at h
    · cases h
    · next hr => exact stepProc_turn (not_not.mp hr) h

end

/-! ## The numbers of the processes -/

/-- The numbers in the slots are those of the processes, and the books are right. -/
structure Ledger (f : Family) : Prop where
  kin : Kinship f.k
  lt : ∀ j, f.serial j < f.next
  inj : ∀ i j, (f.k.proc i).state ≠ .UNUSED → (f.k.proc j).state ≠ .UNUSED →
    f.serial i = f.serial j → i = j
  exited_lt : ∀ p ∈ f.exited, p < f.next
  exited : ∀ j, (f.k.proc j).state ≠ .UNUSED →
    (f.serial j ∈ f.exited ↔ (f.k.proc j).state = .ZOMBIE)
  reported : ∀ r ∈ f.reports, r.2 ∈ f.exited ∧
    ∀ j, (f.k.proc j).state ≠ .UNUSED → f.serial j ≠ r.2
  nodup : (f.reports.map Prod.snd).Nodup
  creator : ∀ i j, (f.k.proc j).parent = .slot i →
    f.serial i = f.creator (f.serial j) ∨ i = 0 ∧ f.creator (f.serial j) ∈ f.exited
  maker : ∀ i np, (f.k.cont i).child = some np → f.creator (f.serial np) = f.serial i

section
variable {f : Family} {k k' : Kernel}

/-- A change by which no slot is taken and no process ends. -/
theorem Ledger.keep (h : Ledger f) (hk : Kinship k)
    (hu : ∀ j, (k.proc j).state ≠ .UNUSED → (f.k.proc j).state ≠ .UNUSED ∧
      ((k.proc j).state = .ZOMBIE ↔ (f.k.proc j).state = .ZOMBIE))
    (hp : ∀ i j, (k.proc j).parent = .slot i → (f.k.proc j).parent = .slot i ∨
      (f.k.cont i).child = some j)
    (hc : ∀ i np, (k.cont i).child = some np → (f.k.cont i).child = some np) :
    Ledger { f with k := k } where
  kin := hk
  lt := h.lt
  inj i j hi hj := h.inj i j (hu i hi).1 (hu j hj).1
  exited_lt := h.exited_lt
  exited j hj := (h.exited j (hu j hj).1).trans (hu j hj).2.symm
  reported r hr := ⟨(h.reported r hr).1, fun j hj => (h.reported r hr).2 j (hu j hj).1⟩
  nodup := h.nodup
  creator i j hj := by
    rcases hp i j hj with e | e
    · exact h.creator i j e
    · exact .inl (h.maker i j e).symm
  maker i np hi := h.maker i np (hc i np hi)

theorem Ledger.calm (h : Ledger f) (c : Calm f.k k) : Ledger { f with k := k } := by
  refine h.keep (h.kin.calm c) (fun j hj => ⟨mt ((c.proc j).eq (.inl rfl)).mpr hj, ?_⟩)
    (fun i j hj => .inl ((c.proc j).parent ▸ hj)) fun i np hi => ?_
  · exact (c.proc j).eq (.inr (.inr (.inl rfl)))
  · rcases c.cont i with e | ⟨-, e⟩
    · exact e ▸ hi
    · exact e.child ▸ hi

/-- Only the states of started slots change. -/
theorem Ledger.started (h : Ledger f) (hk : Kinship k) {i : Slot} {p : Proc}
    (hs : (f.k.proc i).state.Started) (hs' : p.state.Started) (hp : p.parent = (f.k.proc i).parent)
    (hproc : k.proc = Function.update f.k.proc i p)
    (hc : ∀ i np, (k.cont i).child = some np → (f.k.cont i).child = some np) :
    Ledger { f with k := k } := by
  refine h.keep hk (fun j hj => ?_) (fun q j hj => .inl ?_) hc
  · by_cases hji : j = i
    · subst hji
      rw [hproc, Function.update_self]
      exact ⟨fun e => absurd (e ▸ hs) (by decide), iff_of_false (fun e => absurd (e ▸ hs') (by decide))
        fun e => absurd (e ▸ hs) (by decide)⟩
    · rw [hproc, Function.update_of_ne hji] at hj ⊢
      exact ⟨hj, .rfl⟩
  · by_cases hji : j = i
    · subst hji
      rwa [hproc, Function.update_self, hp] at hj
    · rwa [hproc, Function.update_of_ne hji] at hj

theorem child_update {g : Slot → Cont} {i j np : Slot} {c : Cont} (hc : c.child = none ∨ c.child = (g i).child)
    (h : (Function.update g i c j).child = some np) : (g j).child = some np := by
  by_cases hj : j = i
  · subst hj
    rw [Function.update_self] at h
    rcases hc with e | e
    · rw [e] at h; cases h
    · rwa [← e]
  · rwa [Function.update_of_ne hj] at h

/-- `fork` takes a slot. -/
theorem Ledger.born (h : Ledger f) {i np : Slot} {pid : Int} (hk : Kinship k)
    (hr : (f.k.proc i).state = .RUNNING) (hn : (f.k.proc np).state = .UNUSED)
    (hproc : k.proc = Function.update f.k.proc np { f.k.proc np with state := .EMBRYO, pid := pid })
    (hcont : k.cont = Function.update f.k.cont i (.allocStack np)) : Ledger (f.record (.born i np) k) := by
  have hin : i ≠ np := by rintro rfl; rw [hr] at hn; cases hn
  have hself : k.proc np = { f.k.proc np with state := .EMBRYO, pid := pid } := by rw [hproc]; simp
  have hoth : ∀ j, j ≠ np → k.proc j = f.k.proc j := fun j hj => by rw [hproc]; simp [hj]
  have hser : ∀ j, j ≠ np → (f.record (.born i np) k).serial j = f.serial j := fun j hj => by
    simp [Family.record, hj]
  have hnew : (f.record (.born i np) k).serial np = f.next := by simp [Family.record]
  have hcr : ∀ j, j ≠ np → (f.record (.born i np) k).creator (f.serial j) = f.creator (f.serial j) :=
    fun j _ => by simp [Family.record, (h.lt j).ne]
  have hcn : (f.record (.born i np) k).creator f.next = f.serial i := by simp [Family.record]
  have hlt : ∀ j, f.serial j ≠ f.next := fun j => (h.lt j).ne
  have hpar : (k.proc np).parent = .null := by rw [hself]; exact h.kin.free np hn
  have hnc : ∀ j, (f.k.cont j).child ≠ some np := fun j hj => by
    have := h.kin.child j np hj
    rw [hn] at this; cases this
  refine ⟨hk, fun j => ?_, fun j j' hj hj' hs => ?_, fun p hp => Nat.lt_succ_of_lt (h.exited_lt p hp),
    fun j hj => ?_, fun r hr' => ⟨(h.reported r hr').1, fun j hj => ?_⟩, h.nodup, fun q j hj => ?_,
    fun q m hq => ?_⟩
  · show _ < f.next + 1
    by_cases hjn : j = np
    · subst hjn; rw [hnew]; exact Nat.lt_succ_self _
    · rw [hser j hjn]; exact Nat.lt_succ_of_lt (h.lt j)
  · by_cases hjn : j = np <;> by_cases hjn' : j' = np
    · rw [hjn, hjn']
    · subst hjn
      rw [hnew, hser j' hjn'] at hs
      exact absurd hs.symm (hlt j')
    · subst hjn'
      rw [hnew, hser j hjn] at hs
      exact absurd hs (hlt j)
    · rw [hser j hjn, hser j' hjn'] at hs
      exact h.inj j j' (hoth j hjn ▸ hj) (hoth j' hjn' ▸ hj') hs
  · by_cases hjn : j = np
    · subst hjn
      have hz : (k.proc j).state ≠ .ZOMBIE := by rw [hself]; simp
      rw [hnew]
      exact iff_of_false (fun he => (h.exited_lt _ he).false) hz
    · rw [hser j hjn]
      have hkj : (f.record (.born i np) k).k.proc j = f.k.proc j := hoth j hjn
      rw [hkj] at hj ⊢
      exact h.exited j hj
  · by_cases hjn : j = np
    · subst hjn
      rw [hnew]
      exact (h.exited_lt _ (h.reported r hr').1).ne'
    · rw [hser j hjn]
      exact (h.reported r hr').2 j (hoth j hjn ▸ hj)
  · have hjn : j ≠ np := by
      rintro rfl
      have hj' : (k.proc j).parent = .slot q := hj
      rw [hpar] at hj'; cases hj'
    have hj' : (f.k.proc j).parent = .slot q := hoth j hjn ▸ hj
    have hqn : q ≠ np := by
      rintro rfl
      have := h.kin.parent q j hj'
      rw [hn] at this
      exact absurd this (by decide)
    rw [hser q hqn, hser j hjn, hcr j hjn]
    exact h.creator q j hj'
  · have hq' : (k.cont q).child = some m := hq
    by_cases hqi : q = i
    · subst hqi
      rw [hcont, Function.update_self] at hq'
      cases hq'
      rw [hnew, hcn, hser q hin]
    · rw [hcont, Function.update_of_ne hqi] at hq'
      have hmn : m ≠ np := by rintro rfl; exact hnc q hq'
      have hqn : q ≠ np := by
        rintro rfl
        have := h.kin.idle q fun e => by rw [e] at hq'; cases hq'
        rw [hn] at this
        exact absurd this (by decide)
      rw [hser m hmn, hcr m hmn, hser q hqn]
      exact h.maker q m hq'

/-- A process exits. -/
theorem Ledger.exit (h : Ledger f) {i : Slot} (hr : (f.k.proc i).state = .RUNNING)
    (hi : f.k.initproc ≠ .slot i)
    (hk : Kinship ((f.k.disown i).set i fun p => { p with state := .ZOMBIE })) :
    Ledger (f.record (.exits i) ((f.k.disown i).set i fun p => { p with state := .ZOMBIE })) := by
  have hproc := exited_proc f.k i
  generalize hk' : (f.k.disown i).set i (fun p => { p with state := .ZOMBIE }) = k at *
  have hcont : k.cont = f.k.cont := by rw [← hk']; rfl
  have hst : ∀ j, (k.proc j).state = if j = i then .ZOMBIE else (f.k.proc j).state := fun j => by
    rw [hproc]
  have hiu : (f.k.proc i).state ≠ .UNUSED := by rw [hr]; decide
  have hused : ∀ j, (k.proc j).state ≠ .UNUSED → (f.k.proc j).state ≠ .UNUSED := fun j hj => by
    rw [hst] at hj
    split at hj
    · next e => rw [e]; exact hiu
    · exact hj
  have hmem : ∀ p, p ∈ f.exited → p ∈ f.exited ++ [f.serial i] := fun p hp => List.mem_append_left _ hp
  refine ⟨hk, h.lt, fun j j' hj hj' => h.inj j j' (hused j hj) (hused j' hj'), fun p hp => ?_, fun j hj => ?_,
    fun r hr' => ⟨hmem _ (h.reported r hr').1, fun j hj => (h.reported r hr').2 j (hused j hj)⟩, h.nodup,
    fun q j hj => ?_, fun q m hq => h.maker q m (hcont ▸ hq)⟩
  · rcases List.mem_append.mp hp with hp | hp
    · exact h.exited_lt p hp
    · rw [List.mem_singleton.mp hp]; exact h.lt i
  · have hj' : (f.k.proc j).state ≠ .UNUSED := hused j hj
    show f.serial j ∈ f.exited ++ [f.serial i] ↔ (k.proc j).state = .ZOMBIE
    rw [hst, List.mem_append, List.mem_singleton]
    by_cases hji : j = i
    · subst hji; simp
    · rw [if_neg hji, h.exited j hj']
      exact or_iff_left fun e => hji (h.inj j i hj' hiu e)
  · have hj' : (k.proc j).parent = .slot q := hj
    show f.serial q = f.creator (f.serial j) ∨ q = 0 ∧ f.creator (f.serial j) ∈ f.exited ++ [f.serial i]
    rw [hproc] at hj'
    dsimp only at hj'
    split at hj'
    · next e =>
      -- the child passes to init, as its creator is the one that exits
      have hq : q = 0 := by rw [h.kin.initproc] at hj'; cases hj'; rfl
      rcases h.creator i j e with hc | ⟨rfl, -⟩
      · exact .inr ⟨hq, by rw [← hc]; simp⟩
      · exact absurd h.kin.initproc hi
    · exact (h.creator q j hj').imp_right fun ⟨h1, h2⟩ => ⟨h1, hmem _ h2⟩

/-- `wait` reports an exit. -/
theorem Ledger.reap (h : Ledger f) {i z : Slot} (hk : Kinship k)
    (hz : (f.k.proc z).state = .ZOMBIE) (hself : (k.proc z).state = .UNUSED)
    (hoth : ∀ j, j ≠ z → ((k.proc j).state ≠ .UNUSED → (f.k.proc j).state ≠ .UNUSED) ∧
      ((k.proc j).state = .ZOMBIE ↔ (f.k.proc j).state = .ZOMBIE))
    (hp : ∀ i j, (k.proc j).parent = .slot i → (f.k.proc j).parent = .slot i)
    (hc : ∀ i np, (k.cont i).child = some np → (f.k.cont i).child = some np) :
    Ledger (f.record (.reaps i z) k) := by
  have hzu : (f.k.proc z).state ≠ .UNUSED := by rw [hz]; decide
  have hne : ∀ j, (k.proc j).state ≠ .UNUSED → j ≠ z := fun j hj => by rintro rfl; exact hj hself
  have hk1 := h.keep hk (fun j hj => ⟨(hoth j (hne j hj)).1 hj, (hoth j (hne j hj)).2⟩)
    (fun q j hj => .inl (hp q j hj)) hc
  refine ⟨hk, hk1.lt, hk1.inj, hk1.exited_lt, hk1.exited, fun r hr => ?_, ?_, hk1.creator, hk1.maker⟩
  · rcases List.mem_append.mp hr with hr | hr
    · exact hk1.reported r hr
    · rw [List.mem_singleton.mp hr]
      refine ⟨(h.exited z hzu).mpr hz, fun j hj hs => hne j hj ?_⟩
      exact h.inj j z ((hoth j (hne j hj)).1 hj) hzu hs
  · show ((f.reports ++ [(f.serial i, f.serial z)]).map Prod.snd).Nodup
    rw [List.map_append, List.nodup_append]
    refine ⟨h.nodup, List.nodup_singleton _, fun p hp q hq => ?_⟩
    obtain ⟨r, hr, rfl⟩ := List.mem_map.mp hp
    rw [List.map_singleton, List.mem_singleton] at hq
    rw [hq]
    exact ((h.reported r hr).2 z hzu).symm

/-- **Step lemma**: the books stay right over a deed. -/
theorem Ledger.deed (h : Ledger f) {e : Event} (d : Deed f.k e k) : Ledger (f.record e k) := by
  have hk := h.kin.deed d
  cases d with
  | run i c kc hr hkc =>
    refine h.started (i := i) (p := { f.k.proc i with state := .RUNNING, chan := c }) hk
      (by rw [hr]; exact .inr (.inl rfl)) (.inr (.inr rfl)) rfl rfl fun j np hj => ?_
    refine child_update ?_ hj
    rcases hkc with ⟨rfl, -⟩ | ⟨rfl, -⟩
    · exact .inr rfl
    · exact .inl rfl
  | stop i hr =>
    exact h.started (i := i) (p := { f.k.proc i with state := .RUNNABLE }) hk (running_started hr)
      (.inr (.inl rfl)) rfl rfl fun _ _ hj => hj
  | sleep i c kc hs hn hkc =>
    refine h.started (i := i) (p := { f.k.proc i with chan := c, state := .SLEEPING }) hk hs (.inl rfl)
      rfl rfl fun j np hj => child_update (.inl ?_) hj
    rcases hkc with rfl | ⟨rfl, -⟩ <;> rfl
  | alloc i np pid hr hu hn => exact h.born hk hr hn rfl rfl
  | drop i np hc hb =>
    refine h.keep hk (fun j hj => ?_) (fun q j hj => .inl ?_) fun j m hm => child_update (.inl rfl) hm
    · have hjn : j ≠ np := by rintro rfl; simp at hj
      simpa [hjn] using hj
    · by_cases hjn : j = np
      · subst hjn; simpa using hj
      · simpa [hjn] using hj
  | copy i np hc =>
    refine h.keep hk (fun j hj => ?_) (fun q j hj => ?_) fun j m hm => child_update (c := .forkPublish np) (.inr hc.symm) hm
    · by_cases hjn : j = np
      · subst hjn; simpa using hj
      · simpa [hjn] using hj
    · by_cases hjn : j = np
      · subst hjn
        right
        have hq : q = i := by simpa [eq_comm] using hj
        rw [hq]; exact hc
      · left; simpa [hjn] using hj
  | publish i np hf =>
    have hc : (f.k.cont i).child = some np := by rw [hf]; rfl
    have he := h.kin.child i np hc
    refine h.keep hk (fun j hj => ?_) (fun q j hj => .inl ?_) fun j m hm => child_update (.inl rfl) hm
    · by_cases hjn : j = np
      · subst hjn; simp [he]
      · simpa [hjn] using hj
    · by_cases hjn : j = np
      · subst hjn; simpa using hj
      · simpa [hjn] using hj
  | exit i hr hu h0 hp hz => exact h.exit hr h0 hk
  | reap i z c hs hn hp hz =>
    have hzi : z ≠ i := by rintro rfl; rw [hz] at hs; exact absurd hs (by decide)
    refine h.reap hk hz (by simp) (fun j hj => ?_) (fun q j hj => ?_) fun j m hm => child_update (.inl rfl) hm
    · by_cases hji : j = i
      · subst hji
        have h1 : (f.k.proc j).state ≠ .UNUSED := fun e => absurd (e ▸ hs) (by decide)
        have h2 : (f.k.proc j).state ≠ .ZOMBIE := fun e => absurd (e ▸ hs) (by decide)
        simp [hj, h1, h2]
      · simp [hj, hji]
    · by_cases hjz : j = z
      · subst hjz; simp at hj
      · by_cases hji : j = i
        · subst hji; simpa [hjz] using hj
        · simpa [hjz, hji] using hj

theorem record_k (f : Family) (e : Event) (k k' : Kernel) :
    ({ f with k := k } : Family).record e k' = f.record e k' ∧
    { f.record e k with k := k' } = f.record e k' := by
  cases e <;> exact ⟨rfl, rfl⟩

/-- **Step lemma.** -/
theorem Ledger.step (h : Ledger f) {a : Act} {f' : Family} (hs : f.step a = .ok f') : Ledger f' := by
  simp only [Family.step, bind_ok, pure_ok] at hs
  obtain ⟨k, hk, rfl⟩ := hs
  rcases step_turn hk with ⟨he, q⟩ | ⟨k1, k2, q1, d, q2⟩
  · rw [he]; exact h.calm q
  · have h1 : Ledger { f with k := k1 } := h.calm q1
    have h2 : Ledger (f.record (event f.k a) k2) := (record_k f _ k1 k2).1 ▸ h1.deed d
    have hk2 : (f.record (event f.k a) k2).k = k2 := by cases event f.k a <;> rfl
    have h3 := h2.calm (k := k) (by rw [hk2]; exact q2)
    exact (record_k f _ k2 k).2 ▸ h3

theorem boot_family : ∀ i, (Kernel.boot.proc i).parent = .null ∧
    (Kernel.boot.proc i).state = if i = 0 then .RUNNABLE else .UNUSED := by decide

theorem kinship_boot : Kinship Kernel.boot where
  initproc := rfl
  init := .inr (.inl rfl)
  child i np h := by rw [boot_cont] at h; cases h
  builder i j np h := by rw [boot_cont] at h; cases h
  idle i h := absurd (boot_cont i) h
  parent i j h := by rw [(boot_family j).1] at h; cases h
  root := (boot_family 0).1
  other j h := by rw [(boot_family j).1] at h; cases h
  free j _ := (boot_family j).1
  embryo j _ h := absurd (boot_family j).1 h
  built i np h := by rw [boot_cont] at h; cases h
  published j h _ h0 := absurd (by rw [(boot_family j).2, if_neg h0]) h
  waiting i _ h := by rw [boot_cont] at h; cases h

theorem ledger_boot : Ledger .boot where
  kin := kinship_boot
  lt _ := Nat.zero_lt_one
  inj i j hi hj _ := by
    have h0 : ∀ j, (Family.boot.k.proc j).state ≠ .UNUSED → j = 0 := fun j hj => by
      by_contra hn
      exact hj (by rw [Family.boot, (boot_family j).2, if_neg hn])
    rw [h0 i hi, h0 j hj]
  exited_lt p hp := by cases hp
  exited j hj := by
    refine iff_of_false (fun h => by cases h) fun h => ?_
    have := (boot_family j).2
    rw [Family.boot] at h
    rw [this] at h
    split at h <;> cases h
  reported r hr := by cases hr
  nodup := .nil
  creator i j h := by
    rw [Family.boot, (boot_family j).1] at h; cases h
  maker i np h := by
    rw [Family.boot, boot_cont] at h; cases h

end

/-! ## No lost child exit -/

/-- Process `i` is inside the `sleep` of `wait`, on itself. -/
def Waiting (k : Kernel) (i : Slot) : Prop := k.cont i = .waiting ∧ SleepsOnSelf k i

/-- `fork` has published the process: it is no slot under construction. -/
def Published (k : Kernel) (j : Slot) : Prop :=
  (k.proc j).state ≠ .UNUSED ∧ (k.proc j).state ≠ .EMBRYO

/-- The parent of `j` is its creator, alive, or init if the creator has exited. -/
def Parented (f : Family) (j : Slot) : Prop :=
  ∃ i, (f.k.proc j).parent = .slot i ∧ (f.k.proc i).state.Started ∧
    (f.serial i = f.creator (f.serial j) ∨
      .slot i = f.k.initproc ∧ f.creator (f.serial j) ∈ f.exited)

/-- The action is a part of `wait` by process `i`. -/
def Waits (k : Kernel) : Act → Slot → Prop
  | .call j .wait, i => j = i
  | .dispatch j, i => j = i ∧ k.cont i = .waiting
  | _, _ => False

section
variable {k k' : Kernel}

/-- `wait` frees the child that it finds and returns its pid. -/
theorem wait_reaps {i z : Slot} (h : k.zombieChild i = some z) :
    ((k.wait i).proc z).state = .UNUSED ∧ (k.wait i).ret i = (k.proc z).pid := by
  unfold Kernel.wait
  rw [← Kernel.zombieChild, h]
  simp [Kernel.sysret]

/-- The step that reaps `z` is one of `wait`, by the parent of `z`, and returns its pid. -/
theorem step_reaps {a : Act} {i z : Slot} (he : event k a = .reaps i z) (h : kernelStep k a = .ok k') :
    Waits k a i ∧ (k.proc z).parent = .slot i ∧ (k'.proc z).state = .UNUSED ∧
      k'.ret i = (k.proc z).pid := by
  have hof : ∀ j, (k.zombieChild j).elim Event.none (.reaps j) = .reaps i z →
      j = i ∧ k.zombieChild i = some z := fun j hj => by
    cases hz : k.zombieChild j with
    | none => rw [hz] at hj; cases hj
    | some y => rw [hz] at hj; cases hj; exact ⟨rfl, hz⟩
  cases a with
  | dispatch j =>
    rw [event] at he
    split at he
    · next hw =>
      obtain ⟨rfl, hz⟩ := hof j he
      obtain ⟨-, h⟩ := dispatched_ok h
      rw [if_pos hw] at h
      obtain ⟨k1, hk1, rfl⟩ := h
      obtain ⟨hu, hret⟩ := wait_reaps (hk1.zombieChild.trans hz)
      refine ⟨⟨rfl, hw⟩, (zombieChild_some hz).1, hu, hret.trans ?_⟩
      by_cases hzj : z = j
      · rw [hzj]; exact hk1.pid
      · rw [hk1.proc z hzj]
    · cases he
  | interrupt j user =>
    rw [event] at he
    split at he <;> cases he
  | wakeup c => cases he
  | call j b =>
    cases b with
    | wait =>
      obtain ⟨rfl, hz⟩ := hof j he
      have hk : k' = k.wait j := by
        dsimp only [kernelStep] at h
        split at h
        · cases h
        · unfold stepProc at h
          split at h <;> first | cases h; rfl | contradiction
      rw [hk]
      obtain ⟨hu, hret⟩ := wait_reaps hz
      exact ⟨rfl, (zombieChild_some hz).1, hu, hret⟩
    | fork =>
      rw [event] at he
      cases hf : k.findSlot fun p => p.state = .UNUSED <;> rw [hf] at he <;> cases he
    | _ => cases he

/-- Only the event of `wait` takes a slot out of the zombies. -/
theorem Turn.leaves_zombie {e : Event} (h : Turn k e k') {j : Slot} (hz : (k.proc j).state = .ZOMBIE)
    (hn : (k'.proc j).state ≠ .ZOMBIE) (hk : Kinship k) : ∃ i, e = .reaps i j := by
  rcases h with ⟨-, q⟩ | ⟨k1, k2, q1, d, q2⟩
  · exact absurd (((q.proc j).eq (.inr (.inr (.inl rfl)))).mpr hz) hn
  · have h1 : (k1.proc j).state = .ZOMBIE := ((q1.proc j).eq (.inr (.inr (.inl rfl)))).mpr hz
    have h2 : (k2.proc j).state ≠ .ZOMBIE := fun e => hn (((q2.proc j).eq (.inr (.inr (.inl rfl)))).mpr e)
    have hk1 := hk.calm q1
    have hoff : ∀ i, (k1.proc i).state.Started → j ≠ i := fun i hs => by
      rintro rfl
      rw [h1] at hs; exact absurd hs (by decide)
    have hchild : ∀ i np, (k1.cont i).child = some np → j ≠ np := fun i np hc => by
      rintro rfl
      have := hk1.child i j hc
      rw [h1] at this; cases this
    cases d with
    | run i c kc hr _ => exact absurd (by simpa [hoff i (by rw [hr]; exact .inr (.inl rfl))] using h1) h2
    | stop i hr => exact absurd (by simpa [hoff i (running_started hr)] using h1) h2
    | sleep i c kc hs _ _ => exact absurd (by simpa [hoff i hs] using h1) h2
    | alloc i np pid _ _ hu =>
      have hjn : j ≠ np := by rintro rfl; rw [h1] at hu; cases hu
      exact absurd (by simpa [hjn] using h1) h2
    | drop i np hc _ => exact absurd (by simpa [hchild i np hc] using h1) h2
    | copy i np hc => exact absurd (by simpa [hchild i np hc] using h1) h2
    | publish i np hf => exact absurd (by simpa [hchild i np (by rw [hf]; rfl)] using h1) h2
    | exit i hr _ _ _ _ =>
      rw [exited_proc] at h2
      simp [hoff i (running_started hr), h1] at h2
    | reap i z c hs _ _ _ =>
      by_cases hjz : j = z
      · exact ⟨i, by rw [hjz]⟩
      · exact absurd (by simpa [hjz, hoff i hs] using h1) h2

end

/-- **No lost child exit**: in every interleaving, no process sleeps in `wait` while it
has a zombie child; every published process but init has as its parent its creator,
alive, or init once the creator has exited; a slot leaves the zombies only by a `wait`
of its parent that returns its pid; and no exit is reported twice. -/
theorem no_lost_exit {f : Family} (h : Reach Family.step Always .boot f) :
    (∀ i, Waiting f.k i → ∀ j, (f.k.proc j).parent = .slot i → (f.k.proc j).state ≠ .ZOMBIE) ∧
    (∀ j, Published f.k j → f.k.initproc ≠ .slot j → Parented f j) ∧
    (∀ a f', f.step a = .ok f' → ∀ j, (f.k.proc j).state = .ZOMBIE →
      (f'.k.proc j).state ≠ .ZOMBIE → ∃ i, Waits f.k a i ∧ (f.k.proc j).parent = .slot i ∧
        (f'.k.proc j).state = .UNUSED ∧ f'.k.ret i = (f.k.proc j).pid ∧
        f'.reports = f.reports ++ [(f.serial i, f.serial j)]) ∧
    (∀ r ∈ f.reports, r.2 ∈ f.exited) ∧ (f.reports.map Prod.snd).Nodup := by
  have hl : Ledger f := h.invariant ledger_boot fun _ _ _ hi _ hs => hi.step hs
  have hk := hl.kin
  refine ⟨fun i hi => (hk.waiting i hi.2.1 hi.1).2, fun j hj h0 => ?_, fun a f' hs j hz hn => ?_,
    fun r hr => (hl.reported r hr).1, hl.nodup⟩
  · have hj0 : j ≠ 0 := by rintro rfl; exact h0 hk.initproc
    obtain ⟨i, hi⟩ := hk.published j hj.1 hj.2 hj0
    refine ⟨i, hi, hk.parent i j hi, (hl.creator i j hi).imp_right fun ⟨e, hc⟩ => ⟨?_, hc⟩⟩
    rw [e, hk.initproc]
  · simp only [Family.step, bind_ok, pure_ok] at hs
    obtain ⟨k, hk', rfl⟩ := hs
    have hrk : (f.record (event f.k a) k).k = k := by cases event f.k a <;> rfl
    rw [hrk] at hn ⊢
    obtain ⟨i, he⟩ := (step_turn hk').leaves_zombie hz hn hk
    obtain ⟨hw, hp, hu, hret⟩ := step_reaps he hk'
    exact ⟨i, hw, hp, hu, hret, by rw [he]; rfl⟩

/-- Init forks a child and waits for it; the child exits. -/
def forkExitRun : List Act :=
  [.dispatch 0, .call 0 .fork, .call 0 (.kalloc true), .call 0 .allocEnqueue,
    .call 0 (.copyuvm true), .call 0 .forkPublish, .call 0 .wait, .dispatch 1, .call 1 .exit, .dispatch 0]

theorem no_lost_exit_forkExitRun : ∃ f, exec Family.step Always .boot forkExitRun = some f ∧
    (f.reports = [(0, 1)] ∧ f.k.ret 0 = 2) ∧ (f.reports.map Prod.snd).Nodup := by
  obtain ⟨f, hf, hr, hp⟩ := Reach.of_any Family.step Always .boot
    (fun f => f.reports = [(0, 1)] ∧ f.k.ret 0 = 2) forkExitRun (by decide +kernel)
  exact ⟨f, hf, hp, (no_lost_exit hr).2.2.2.2⟩

end Xv6.Sched
