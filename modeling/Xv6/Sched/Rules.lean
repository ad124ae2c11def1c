import Xv6.Sched.Wf

/-!
# The rule for scheduling invariants

Most steps leave alone what the queues and the stride table are about: they are
`Quiet`. `Keeps bad G I` lists what is left to show of an invariant `I`: one
obligation for each function that edits the scheduling data, and that it does
not fault in a `bad` way. `Keeps.reachable` is the resulting rule for runs.
-/

namespace Xv6.Sched

open Lib

/-- The slot an `allocproc` in progress has taken but not yet enqueued. -/
def Cont.allocating : Cont → Option Slot
  | .allocStack np | .allocEnqueue np => some np
  | _ => none

theorem Cont.child_of_allocating {c : Cont} {np : Slot} (h : c.allocating = some np) :
    c.child = some np := by
  cases c <;> simp [Cont.allocating, Cont.child] at h ⊢ <;> exact h

/-- The share that a `set_cpu_share` in progress is about to take. -/
def Cont.reserved : Cont → Option Int
  | .setShare _ s => some s
  | _ => none

/-- A live slot that is not inside `allocproc`. -/
def Active (k : Kernel) (i : Slot) : Prop :=
  (k.proc i).state.Live ∧ ∀ j, (k.cont j).allocating ≠ some i

instance (k : Kernel) (i : Slot) : Decidable (Active k i) := inferInstanceAs (Decidable (_ ∧ _))

/-- `k'` schedules as `k` does: the same tables, the same active slots, each with
its share and its level. -/
structure Quiet (k k' : Kernel) : Prop where
  queue : k'.ARRAYQUEUE = k.ARRAYQUEUE
  stable : k'.stable = k.stable
  share : k'.mlfq.share = k.mlfq.share
  active : ∀ i, Active k' i ↔ Active k i
  started : ∀ i, (k.proc i).state.Started → (k'.proc i).state.Started
  proc : ∀ i, Active k i → (k'.proc i).share = (k.proc i).share ∧ (k'.proc i).lev = (k.proc i).lev

/-! ## Quiet steps -/

section
variable {k k' k'' : Kernel} {i : Slot}

theorem Quiet.trans (h : Quiet k k') (h' : Quiet k' k'') : Quiet k k'' where
  queue := h'.queue.trans h.queue
  stable := h'.stable.trans h.stable
  share := h'.share.trans h.share
  active i := (h'.active i).trans (h.active i)
  started i hi := h'.started i (h.started i hi)
  proc i hi := by
    obtain ⟨h1, h2⟩ := h.proc i hi
    obtain ⟨h3, h4⟩ := h'.proc i ((h.active i).mpr hi)
    exact ⟨h3.trans h1, h4.trans h2⟩

/-- What a quiet step may do to a slot. -/
def Same (p p' : Proc) : Prop :=
  (p'.state.Live ↔ p.state.Live) ∧ (p.state.Started → p'.state.Started) ∧
    p'.share = p.share ∧ p'.lev = p.lev

theorem Same.refl (p : Proc) : Same p p := ⟨Iff.rfl, id, rfl, rfl⟩

/-- A change that leaves the scheduling fields of the record. -/
theorem Same.of_eq {p p' : Proc} (hs : p'.state = p.state) (hsh : p'.share = p.share)
    (hl : p'.lev = p.lev) : Same p p' := by
  rw [Same, hs]; exact ⟨Iff.rfl, id, hsh, hl⟩

/-- A started process goes to another started state. -/
theorem Same.of_started {p p' : Proc} (hs : p.state.Started) (hs' : p'.state.Started)
    (hsh : p'.share = p.share) (hl : p'.lev = p.lev) : Same p p' :=
  ⟨iff_of_true hs'.live hs.live, fun _ => hs', hsh, hl⟩

theorem Woken.same {p p' : Proc} (h : Woken p p') : Same p p' := by
  obtain ⟨hsh, hl, hs | ⟨hs, hs'⟩⟩ := h
  · exact .of_eq hs hsh hl
  · exact .of_started (.inl hs) (.inr (.inl hs')) hsh hl

theorem Quiet.of_same (hq : k'.ARRAYQUEUE = k.ARRAYQUEUE) (hst : k'.stable = k.stable)
    (hsh : k'.mlfq.share = k.mlfq.share)
    (hc : ∀ j, (k'.cont j).allocating = (k.cont j).allocating)
    (hp : ∀ i, Same (k.proc i) (k'.proc i)) : Quiet k k' where
  queue := hq
  stable := hst
  share := hsh
  active i := by simp only [Active, hc, (hp i).1]
  started i := (hp i).2.1
  proc i _ := (hp i).2.2

/-- A change to the own record of slot `i`. -/
theorem Quiet.set {f : Proc → Proc} (hf : Same (k.proc i) (f (k.proc i))) : Quiet k (k.set i f) := by
  refine .of_same rfl rfl rfl (fun _ => rfl) fun j => ?_
  by_cases hj : j = i
  · subst hj; simpa using hf
  · simpa [hj] using Same.refl _

/-- The caller moves on in its system call. -/
theorem Quiet.moved (h : Quiet k k') {c : Cont} (hc : c.allocating = (k'.cont i).allocating) :
    Quiet k (k'.setCont i c) := by
  refine h.trans (.of_same rfl rfl rfl (fun j => ?_) fun _ => .refl _)
  by_cases hj : j = i
  · subst hj; simpa using hc
  · simp [hj]

theorem Quiet.sysret (h : Quiet k k') (hc : (k'.cont i).allocating = none) (v : Int) :
    Quiet k (k'.sysret i v) := by
  have hm := h.moved (i := i) (c := .user) hc.symm
  exact ⟨hm.queue, hm.stable, hm.share, hm.active, hm.started, hm.proc⟩

theorem Quiet.refl (k : Kernel) : Quiet k k :=
  .of_same rfl rfl rfl (fun _ => rfl) fun _ => .refl _

/-- The CPU passes to `c`. -/
theorem Quiet.switched (h : Quiet k k') (c : Option Slot) : Quiet k { k' with cur := c } :=
  ⟨h.queue, h.stable, h.share, h.active, h.started, h.proc⟩

/-- A slot that `allocproc` works on is not active, whatever is done to it. -/
theorem Quiet.of_hidden (np : Slot) (hq : k'.ARRAYQUEUE = k.ARRAYQUEUE)
    (hst : k'.stable = k.stable) (hsh : k'.mlfq.share = k.mlfq.share)
    (hp : ∀ j, j ≠ np → k'.proc j = k.proc j)
    (hc : ∀ j m, m ≠ np → ((k'.cont j).allocating = some m ↔ (k.cont j).allocating = some m))
    (hs : ¬ (k.proc np).state.Started) (hn : ¬ Active k np) (hn' : ¬ Active k' np) :
    Quiet k k' where
  queue := hq
  stable := hst
  share := hsh
  active i := by
    by_cases hi : i = np
    · subst hi; exact iff_of_false hn' hn
    · simp only [Active, hp i hi, ne_eq, hc _ i hi]
  started i hi := by
    have hne : i ≠ np := by rintro rfl; exact hs hi
    rwa [hp i hne]
  proc i hi := by
    have hne : i ≠ np := by rintro rfl; exact hn hi
    rw [hp i hne]; exact ⟨rfl, rfl⟩

/-- A started process is not under construction. -/
theorem Wf.active_of_started (h : Wf k) (hs : (k.proc i).state.Started) : Active k i := by
  refine ⟨hs.live, fun j hj => ?_⟩
  have he := h.embryo j i (Cont.child_of_allocating hj)
  rw [he] at hs
  simp [ProcState.Started] at hs

theorem Wf.cur_active (h : Wf k) (hc : k.cur = some i) : Active k i :=
  h.active_of_started (.inr (.inr (h.running_started hc)))

theorem fork_quiet (hu : k.cont i = .user) : Quiet k (k.fork i) := by
  unfold Kernel.fork Kernel.allocproc
  cases hf : k.findSlot fun p => p.state = .UNUSED with
  | none => exact (Quiet.refl k).sysret (by rw [hu]; rfl) _
  | some np =>
    have hun : (k.proc np).state = .UNUSED := by simpa using findSlot_some hf
    refine .of_hidden np rfl rfl rfl (fun j hj => ?_) (fun j m hm => ?_) ?_ ?_ ?_
    · simp [hj]
    · by_cases hj : j = i
      · subst hj; simp [hu, Cont.allocating, Ne.symm hm]
      · simp [hj]
    · simp [hun, ProcState.Started]
    · intro ha
      have := ha.1
      simp [hun, ProcState.Live] at this
    · intro ha
      have := ha.2 i
      simp [Cont.allocating] at this

theorem kalloc_quiet (h : Wf k) {np : Slot} (hi : k.cont i = .allocStack np) (ok : Bool) :
    Quiet k (k.kalloc i np ok) := by
  have hs : ¬ (k.proc np).state.Started := by
    rw [h.embryo i np (by rw [hi]; rfl)]; simp [ProcState.Started]
  have hn : ¬ Active k np := fun ha => ha.2 i (by rw [hi]; rfl)
  cases ok with
  | true =>
    refine .of_hidden np rfl rfl rfl (fun j hj => ?_) (fun j m _ => ?_) hs hn fun ha => ?_
    · simp [Kernel.kalloc, Kernel.allocInit, hj]
    · by_cases hj : j = i
      · subst hj; simp [Kernel.kalloc, Kernel.allocInit, hi, Cont.allocating]
      · simp [Kernel.kalloc, Kernel.allocInit, hj]
    · exact ha.2 i (by simp [Kernel.kalloc, Cont.allocating])
  | false =>
    refine .of_hidden np rfl rfl rfl (fun j hj => ?_) (fun j m hm => ?_) hs hn fun ha => ?_
    · simp [Kernel.kalloc, hj]
    · by_cases hj : j = i
      · subst hj; simp [Kernel.kalloc, hi, Cont.allocating, Ne.symm hm]
      · simp [Kernel.kalloc, hj]
    · have := ha.1
      simp [Kernel.kalloc, ProcState.Live] at this

theorem copyuvm_quiet {np : Slot} (hi : k.cont i = .forkCopy np) :
    Quiet k (k.copyuvm i np true) :=
  (Quiet.set (.of_eq rfl rfl rfl)).moved (by simp [hi, Cont.allocating])

theorem forkPublish_quiet (h : Wf k) {np : Slot} (hi : k.cont i = .forkPublish np) :
    Quiet k (k.forkPublish i np) := by
  have he := h.embryo i np (by rw [hi]; rfl)
  refine (Quiet.set ⟨?_, fun _ => .inr (.inl rfl), rfl, rfl⟩).sysret
    (by simp [hi, Cont.allocating]) _
  simp [he, ProcState.Live]

theorem sleep_quiet (hi : (k.cont i).allocating = none) (hr : (k.proc i).state.Started) {c : Chan}
    {cont : Cont} (hc : cont.allocating = none) : Quiet k (k.sleep i c cont) := by
  have h : Quiet k ((k.set i fun p => { p with chan := c, state := .SLEEPING }).setCont i cont) :=
    (Quiet.set (.of_started hr (.inl rfl) rfl rfl)).moved (by simp [hi, hc])
  exact h.switched none

theorem wait_quiet (hi : (k.cont i).allocating = none) (hr : (k.proc i).state.Started) :
    Quiet k (k.wait i) := by
  unfold Kernel.wait
  cases hf : k.findSlot fun p => p.parent = .slot i ∧ p.state = .ZOMBIE with
  | none =>
    dsimp only
    split
    · exact (Quiet.refl k).sysret hi _
    · exact sleep_quiet hi hr rfl
  | some j =>
    have hz : (k.proc j).state = .ZOMBIE := by
      have := findSlot_some hf
      simp only [decide_eq_true_eq] at this
      exact this.2
    refine (Quiet.set ⟨?_, fun hs => ?_, rfl, rfl⟩).sysret hi _
    · simp [hz, ProcState.Live]
    · simp [hz, ProcState.Started] at hs

theorem kill_quiet (hi : k.cont i = .user) (pid : Int) : Quiet k (k.kill i pid) := by
  obtain ⟨-, hcont, hq, hst, hm⟩ := kill_frame (k := k) (i := i) pid
  refine .of_same hq hst (by rw [hm]) (fun j => ?_) fun j => (kill_woken pid j).same
  rw [hcont]
  by_cases hj : j = i
  · subst hj; simp [hi, Cont.allocating]
  · simp [hj]

theorem set_cpu_share_ensures {bad : Fault → Prop} (h : Wf k) (hi : k.cont i = .user) (share : Int) :
    Ensures bad (k.set_cpu_share i share) (Quiet k) := by
  simp only [Kernel.set_cpu_share, h.stable.entry0, ok_bind, Kernel.deref]
  split
  · exact (Quiet.refl k).sysret (by rw [hi]; rfl) _
  · exact (Quiet.refl k).moved (by rw [hi]; rfl)

theorem wakeup1_quiet (c : Chan) : Quiet k (k.wakeup1 c) :=
  .of_same rfl rfl rfl (fun _ => rfl) fun j => (wakeup1_woken k c j).same

theorem reparent_quiet : Quiet k (k.reparent i) := by
  obtain ⟨-, hcont, hq, hst, hm, -⟩ := reparent_frame k i
  exact .of_same hq hst (by rw [hm]) (fun j => by rw [hcont]) fun j => (reparent_woken k i j).same

theorem countTick_quiet : Quiet k (k.countTick i) := by
  obtain ⟨hp, -, hcont, hq, hst, hm⟩ := countTick_frame k i
  exact .of_same hq hst (by rw [hm]) (fun j => by rw [hcont]) fun j => by rw [hp]; exact .refl _

theorem resume_quiet : Quiet k (k.resume i) := by
  unfold Kernel.resume
  split
  · next hc => exact (Quiet.set (.of_eq rfl rfl rfl)).moved (by simp [hc, Cont.allocating])
  · next hc => exact (Quiet.set (.of_eq rfl rfl rfl)).moved (by simp [hc, Cont.allocating])
  · exact .refl k

theorem dispatch_quiet {ptr : Ptr} (hd : k.dispatch ptr = .ok k') : Quiet k k' := by
  rcases dispatch_ok hd with rfl | ⟨i, -, hr, rfl⟩
  · exact .refl k'
  · have h : Quiet k (k.set i fun p => { p with
        first_scheduled := true, start_tick := k.MLFQ_ticks, state := .RUNNING }) :=
      .set (.of_started (.inr (.inl hr)) (.inr (.inr rfl)) rfl rfl)
    exact (h.switched (some i)).trans resume_quiet

theorem scheduler_quiet (hs : k.scheduler = .ok k') : Quiet k k' := by
  obtain ⟨k1, ptr, hk, hd⟩ := scheduler_ok hs
  refine Quiet.trans (.of_same hk.queue hk.stable hk.share (fun j => by rw [hk.cont]) fun j => ?_)
    (dispatch_quiet hd)
  obtain ⟨h1, h2, h3⟩ := hk.proc j
  exact .of_eq h1 h2 h3

/-- The last section of `allocproc` completes the slot. -/
theorem allocEnqueue_active (k' : Kernel) (h : Wf k) {np : Slot} (hi : k.cont i = .allocEnqueue np)
    (hp : k'.proc = k.proc) (hc : k'.cont = Function.update k.cont i (.forkCopy np)) (j : Slot) :
    Active k' j ↔ Active k j ∨ j = np := by
  have hch : (k.cont i).child = some np := by rw [hi]; rfl
  have he := h.embryo i np hch
  have ha : ∀ m, m ≠ i → (k.cont m).allocating ≠ some np := by
    intro m hm hal
    exact hm (h.builder m i np (Cont.child_of_allocating hal) hch)
  unfold Active
  rw [hp, hc]
  constructor
  · rintro ⟨hl, hal⟩
    by_cases hj : j = np
    · exact .inr hj
    · refine .inl ⟨hl, fun m => ?_⟩
      by_cases hm : m = i
      · subst hm; simpa [hi, Cont.allocating] using Ne.symm hj
      · simpa [hm] using hal m
  · rintro (⟨hl, hal⟩ | rfl)
    · refine ⟨hl, fun m => ?_⟩
      by_cases hm : m = i
      · subst hm; simp [Cont.allocating]
      · simpa [hm] using hal m
    · refine ⟨by rw [he]; decide, fun m => ?_⟩
      by_cases hm : m = i
      · subst hm; simp [Cont.allocating]
      · simpa [hm] using ha m hm

end

/-! ## Faults of the scheduler -/

/-- The faults that are accesses outside a table and divisions by zero. -/
def Fault.Unchecked : Fault → Prop
  | .levRange | .queueRange | .stableRange | .divZero => True
  | _ => False

section
variable {k : Kernel} {bad : Fault → Prop}

theorem orFault_ensures {α : Type} {f : Fault} {o : Option α} (h : bad f → o.isSome) :
    Ensures bad (orFault f o) fun a => o = some a := by
  cases o with
  | none => exact fun hb => by simpa using h hb
  | some a => rfl

/-- Entry `m` of the stride table can be selected: it is the virtual process, or
a runnable slot. -/
def Selectable (k : Kernel) (m : Nat) : Prop := ∃ p q, k.entry m = .ok p ∧ k.deref p = .ok q ∧
  (p = .mlfq ∨ ∃ i, p = .slot i ∧ p ∈ k.stable.toList ∧ (k.proc i).state = .RUNNABLE)

theorem StableOk.entry_ok (h : StableOk k.stable) {i : Nat} (hi : (i : Int) ≤ k.stable.last) :
    ∃ p q, k.entry i = .ok p ∧ k.deref p = .ok q ∧ (q.state = .RUNNABLE → Selectable k i) := by
  obtain ⟨L, hL⟩ := h
  have hlast := hL.last
  have hi' : i < (Ptr.mlfq :: L.map Ptr.slot).length := by omega
  have he : k.entry i = .ok (Ptr.mlfq :: L.map Ptr.slot)[i] := by rw [Kernel.entry, hL.get? hi']; rfl
  have hm := List.getElem_mem hi'
  generalize (Ptr.mlfq :: L.map Ptr.slot)[i] = p at he hm
  have hmem : p ∈ k.stable.toList := by rw [hL.toList]; exact hm
  simp only [List.mem_cons, List.mem_map] at hm
  rcases hm with rfl | ⟨j, -, rfl⟩
  · exact ⟨_, _, he, rfl, fun _ => ⟨_, _, he, rfl, .inl rfl⟩⟩
  · exact ⟨_, _, he, rfl, fun hr => ⟨_, _, he, rfl, .inr ⟨j, rfl, hmem, hr⟩⟩⟩

/-- The search stays inside the stride table, and selects what can be selected. -/
theorem minIndex_ok (h : StableOk k.stable) : ∀ (n i m : Nat), (i : Int) + n ≤ k.stable.last + 1 →
    Selectable k m → ∃ m', k.minIndex n i m = .ok m' ∧ Selectable k m'
  | 0, i, m, _, hm => ⟨m, rfl, hm⟩
  | n + 1, i, m, hi, hm => by
    obtain ⟨p, p', hp, hp', hrun⟩ := h.entry_ok (i := i) (by omega)
    obtain ⟨q, q', hq, hq', hsel⟩ := hm
    simp only [Kernel.minIndex, hp, hp', hq, hq', ok_bind]
    split
    · exact minIndex_ok h n (i + 1) m (by omega) ⟨q, q', hq, hq', hsel⟩
    · next hs =>
      refine minIndex_ok h n (i + 1) _ (by omega) ?_
      split
      · exact hrun (not_not.mp hs)
      · exact ⟨q, q', hq, hq', hsel⟩

theorem deref_ensures (hb : ∀ f, bad f → f.Unchecked) (p : Ptr) :
    Ensures bad (k.deref p) fun _ => True := by
  cases p with
  | null => exact fun h => hb _ h
  | mlfq => trivial
  | slot i => trivial

/-- The scan of a level stays inside it. -/
theorem scanLevel_ensures (hb : ∀ f, bad f → f.Unchecked) {l : Level} : ∀ (n j : Nat) (p : Ptr),
    (bad .queueRange → (j : Int) + n ≤ (k.ARRAYQUEUE l).last + 1 ∧ (k.ARRAYQUEUE l).last < NPROC) →
    Ensures bad (k.scanLevel l n j p) fun _ => True
  | 0, _, _, _ => trivial
  | n + 1, j, p, hj => by
    have hsome : bad .queueRange → ((k.ARRAYQUEUE l).get? j).isSome := by
      intro hbad
      have := hj hbad
      simp only [SizedArray.get?]
      rw [if_pos (by omega)]; rfl
    have hj' : bad .queueRange → ((j + 1 : Nat) : Int) + n ≤ (k.ARRAYQUEUE l).last + 1 ∧
        (k.ARRAYQUEUE l).last < NPROC := fun hbad => by have := hj hbad; push_cast; omega
    refine (orFault_ensures hsome).bind fun q _ => (deref_ensures hb q).bind fun r _ => ?_
    split
    · exact scanLevel_ensures hb n (j + 1) q hj'
    · split
      · exact scanLevel_ensures hb n (j + 1) q hj'
      · trivial

theorem scanQueues_ensures (hb : ∀ f, bad f → f.Unchecked)
    (hq : bad .queueRange → ∀ l, -1 ≤ (k.ARRAYQUEUE l).last ∧ (k.ARRAYQUEUE l).last < NPROC) :
    ∀ (ls : List Level) (p : Ptr), Ensures bad (k.scanQueues ls p) fun _ => True
  | [], _ => trivial
  | l :: ls, p => by
    refine (scanLevel_ensures hb _ _ _ fun h => ?_).bind fun r _ => ?_
    · have := hq h l; omega
    · dsimp only
      split
      · trivial
      · exact scanQueues_ensures hb hq ls _

theorem dispatch_ensures (hb : ∀ f, bad f → f.Unchecked) (p : Ptr) :
    Ensures bad (k.dispatch p) fun _ => True := by
  refine (deref_ensures hb p).bind fun q _ => ?_
  split
  · split
    · trivial
    · exact fun h => hb _ h
  · trivial

/-- The scheduler stays inside its tables, and divides by no zero share, if the
entries that can be selected have none. -/
theorem scheduler_ensures (hb : ∀ f, bad f → f.Unchecked) (hst : StableOk k.stable)
    (hq : bad .queueRange → ∀ l, -1 ≤ (k.ARRAYQUEUE l).last ∧ (k.ARRAYQUEUE l).last < NPROC)
    (hz : bad .divZero → k.mlfq.share ≠ 0 ∧ ∀ i, .slot i ∈ k.stable.toList →
      (k.proc i).state = .RUNNABLE → (k.proc i).share ≠ 0) :
    Ensures bad k.scheduler (Quiet k) := by
  have h0 : Selectable k 0 := ⟨.mlfq, k.mlfq, hst.entry0, rfl, .inl rfl⟩
  have hlast : 0 ≤ k.stable.last := by
    obtain ⟨L, hL⟩ := hst
    have := hL.last
    simp at this
    omega
  obtain ⟨m, hm, p, q, hp, hq', hsel⟩ := minIndex_ok hst (k.stable.last + 1).toNat 0 0 (by omega) h0
  suffices h : Ensures bad k.scheduler fun _ => True from h.mono fun _ hs _ => scheduler_quiet hs
  simp only [Kernel.scheduler, hm, hp, hq', ok_bind]
  split
  · next hs =>
    intro hbad
    obtain ⟨hz0, hzi⟩ := hz hbad
    rcases hsel with rfl | ⟨i, rfl, hmem, hr⟩
    · cases hq'; exact hz0 hs
    · cases hq'; exact hzi i hmem hr hs
  · refine Ensures.bind (P := fun k1 : Kernel => k1.ARRAYQUEUE = k.ARRAYQUEUE) ?_ fun k1 h1 => ?_
    · cases p with
      | null => cases hq'
      | mlfq => rfl
      | slot i => rfl
    · refine Ensures.bind (P := fun _ => True) ?_ fun r _ => dispatch_ensures hb r
      unfold Kernel.pick
      split
      · exact scanQueues_ensures hb (fun h => by simpa [h1] using hq h) _ _
      · trivial

end

/-! ## Faults of the other functions -/

section
variable {k : Kernel} {i : Slot} {bad : Fault → Prop}

theorem level_ensures {lev : Int} (h : bad .levRange → ∃ l : Level, lev = (l.val : Int)) :
    Ensures bad (level lev) fun l => lev = (l.val : Int) := by
  refine .intro (fun l hl => level_ok.mp hl) fun f hf hbad => ?_
  unfold level at hf
  split at hf
  · cases hf
  · next hr =>
    cases hf
    obtain ⟨l, rfl⟩ := h hbad
    exact hr ⟨by omega, by exact_mod_cast l.isLt⟩

theorem LevOk.level {lev : Int} (h : LevOk lev) (hs : lev ≠ STRIDE_LEV) :
    ∃ l : Level, lev = (l.val : Int) := by
  obtain ⟨h0, h3⟩ := h.resolve_right hs
  exact ⟨⟨lev.toNat, by unfold DEPTH_QUEUE; omega⟩, by simp; omega⟩

theorem dequeue_ensures {brk : Bool} {lev : Int}
    (hlev : bad .levRange → ∃ l : Level, lev = (l.val : Int))
    (hq : bad .queueRange → ∀ l, ((k.ARRAYQUEUE l).remove brk (.slot i)).isSome) :
    Ensures bad (k.dequeue brk i lev) fun _ => True :=
  (level_ensures hlev).bind fun l _ => (orFault_ensures fun hb => hq hb l).bind fun _ _ => trivial

theorem enqueue_ensures {lev : Int} (hlev : bad .levRange → ∃ l : Level, lev = (l.val : Int))
    (hq : ¬ bad .queueRange) : Ensures bad (k.enqueue i lev) fun _ => True :=
  (level_ensures hlev).bind fun _ _ => (orFault_ensures fun hb => absurd hb hq).bind fun _ _ => trivial

/-- A level of the MLFQ, or the next one, is an index into the levels. -/
theorem nextLev_level {p : Proc} (h : ∃ l : Level, p.lev = (l.val : Int)) :
    ∃ l : Level, Kernel.Proc.nextLev p = (l.val : Int) := by
  obtain ⟨l, hl⟩ := h
  have := l.isLt
  unfold DEPTH_QUEUE at this
  unfold Kernel.Proc.nextLev DEPTH_QUEUE
  split
  · exact ⟨⟨l.val + 1, by unfold DEPTH_QUEUE; omega⟩, by simp; omega⟩
  · exact ⟨l, hl⟩

theorem time_allotment_ok {lev : Int} (h : LevOk lev) : ∃ a, time_allotment lev = .ok a := by
  unfold LevOk STRIDE_LEV at h
  exact ⟨_, if_pos (by omega)⟩

/-- `adjust` uses `lev` as an index into the levels only for MLFQ processes. -/
theorem adjust_ensures (hb : ¬ bad .queueRange) (hl : LevOk (k.proc i).lev)
    (hlev : bad .levRange → (k.proc i).share = 0 → ∃ l : Level, (k.proc i).lev = (l.val : Int)) :
    Ensures bad (k.adjust i) fun _ => True := by
  unfold Kernel.adjust
  dsimp only
  split
  · next hs =>
    refine (dequeue_ensures (fun h => hlev h hs) fun h => absurd h hb).bind fun _ _ => ?_
    refine (enqueue_ensures (fun h => nextLev_level (hlev h hs)) hb).bind fun _ _ => ?_
    split
    · refine Ensures.bind (P := fun _ => True) (.intro (fun _ _ => trivial) fun f hf hbad => ?_)
        fun _ _ => trivial
      -- `time_allotment` faults only outside its table
      unfold time_allotment at hf
      split at hf
      · cases hf
      · next hr =>
        cases hf
        obtain ⟨l, hl'⟩ := nextLev_level (hlev hbad hs)
        have := l.isLt
        unfold DEPTH_QUEUE at this
        omega
    · trivial
  · obtain ⟨a, ha⟩ := time_allotment_ok hl
    rw [ha]
    trivial

/-- The `exit` of a stride process. -/
theorem unschedule_stride (h : StableOk k.stable) (hs : (k.proc i).share ≠ 0) : ∃ st,
    k.stable.remove true (.slot i) = some st ∧ k.unschedule i = .ok { k with
      stable := st
      mlfq := { k.mlfq with share := int32 (k.mlfq.share + (k.proc i).share) } } := by
  obtain ⟨L, hL⟩ := h
  obtain ⟨st, hst, -⟩ := hL.remove true (.slot i)
  have h0 : ({ k with stable := st } : Kernel).entry 0 = .ok .mlfq :=
    StableOk.entry0 (StableOk.remove ⟨L, hL⟩ hst)
  refine ⟨st, hst, ?_⟩
  simp only [Kernel.unschedule, if_neg hs, hst, orFault, ok_bind, h0]
  rfl

/-- `exit` uses `lev` as an index into the levels only for MLFQ processes. -/
theorem unschedule_ensures (hb : ¬ bad .queueRange) (hst : StableOk k.stable)
    (hlev : bad .levRange → (k.proc i).share = 0 → ∃ l : Level, (k.proc i).lev = (l.val : Int)) :
    Ensures bad (k.unschedule i) fun _ => True := by
  by_cases hs : (k.proc i).share = 0
  · simp only [Kernel.unschedule, if_pos hs]
    exact dequeue_ensures (fun h => hlev h hs) fun h => absurd h hb
  · obtain ⟨st, -, hu⟩ := unschedule_stride hst hs
    rw [hu]
    trivial

/-- The faults of the locked section of `set_cpu_share`: no room in the stride
table, and a caller that already has the stride level. -/
theorem setShareLocked_ensures {s : Int} (h : LevOk (k.proc i).lev)
    (hst : bad .stableRange → (k.stable.push (.slot i)).isSome)
    (hlev : bad .levRange → (k.proc i).lev ≠ STRIDE_LEV)
    (hq : bad .queueRange → ∀ l, ((k.ARRAYQUEUE l).remove true (.slot i)).isSome) :
    Ensures bad (k.setShareLocked i .mlfq s) fun _ => True := by
  refine (orFault_ensures hst).bind fun st _ => ?_
  simp only [Kernel.setPtr, ok_bind]
  refine Ensures.bind (dequeue_ensures (fun hb => ?_) hq) fun _ _ => trivial
  simpa using h.level (hlev hb)

end

/-! ## The rule -/

theorem live_runnable : ProcState.RUNNABLE.Live := by decide

/-- A timer interrupt finds `i` running and boosts. -/
def Boosts (k : Kernel) (user : Bool) (i : Slot) : Prop :=
  k.cur = some i ∧ ¬ ((k.proc i).killed ∧ user) ∧ (k.countTick i).boostDue

instance (k : Kernel) (user : Bool) (i : Slot) : Decidable (Boosts k user i) :=
  inferInstanceAs (Decidable (_ ∧ _))

theorem boostDue_congr {k k' : Kernel} {i : Slot} (hs : (k'.proc i).share = (k.proc i).share)
    (ht : k'.MLFQ_ticks = k.MLFQ_ticks) :
    (k'.countTick i).boostDue = (k.countTick i).boostDue := by
  unfold Kernel.countTick Kernel.boostDue
  rw [hs]
  split <;> simp [ht]

/-- Process `i` exits: by the system call, or killed when a tick finds it in user mode. -/
def Exits (k : Kernel) (a : Action) (i : Slot) : Prop :=
  k.cur = some i ∧ (a = .exit ∨ a = .timer true ∧ (k.proc i).killed)

instance (k : Kernel) (a : Action) (i : Slot) : Decidable (Exits k a i) :=
  inferInstanceAs (Decidable (_ ∧ _))

/-- What is to be shown of an invariant `I` of the scheduling data: every
function that edits the data ensures it, for guarded steps. -/
structure Keeps (bad : Fault → Prop) (G : Kernel → Action → Prop) (I : Kernel → Prop) : Prop where
  faults : ∀ f, bad f → f.Unchecked
  quiet : ∀ {k k'}, I k → Quiet k k' → I k'
  schedule : ∀ {k}, Wf k → I k → Ensures bad k.scheduler fun _ => True
  boost : ∀ {k k₁ user i}, G k (.timer user) → Boosts k user i → I k → Quiet k k₁ → I k₁.boost
  enqueue : ∀ {k i np}, Wf k → I k → G k .allocEnqueue → k.cur = some i →
    k.cont i = .allocEnqueue np → Ensures bad (k.allocEnqueue i np) I
  discard : ∀ {k i np}, Wf k → I k → G k (.copyuvm false) → k.cur = some i →
    k.cont i = .forkCopy np → I (k.copyuvm i np false)
  adjust : ∀ {k i}, (∀ j, LevOk (k.proc j).lev) → I k → Active k i → Ensures bad (k.adjust i) I
  unschedule : ∀ {k k₁ a i}, G k a → Exits k a i → Quiet k k₁ → I k₁ → StableOk k₁.stable →
    Active k₁ i → Ensures bad (k₁.unschedule i) fun k' =>
      I (k'.set i fun p => { p with state := .ZOMBIE })
  reserve : ∀ {k i s}, Wf k → I k → G k .setShareLocked → k.cur = some i →
    k.cont i = .setShare .mlfq s → Ensures bad (k.setShareLocked i .mlfq s) I

namespace Keeps

variable {bad : Fault → Prop} {G : Kernel → Action → Prop} {I : Kernel → Prop}
  (K : Keeps bad G I) {k : Kernel} {i : Slot}
include K

theorem yield (hlev : ∀ j, LevOk (k.proc j).lev) (hI : I k) (ha : Active k i) :
    Ensures bad (k.yield i) I := by
  obtain ⟨a, hc⟩ := charge_proc (k.set i fun p => { p with state := .RUNNABLE }) i
  have hq : Quiet k ((k.set i fun p => { p with state := .RUNNABLE }).charge i) := by
    rw [hc, Kernel.set_set]
    exact .set ⟨iff_of_true live_runnable ha.1, fun _ => .inr (.inl rfl), rfl, rfl⟩
  have hlev' : ∀ j, LevOk
      ((((k.set i fun p => { p with state := .RUNNABLE }).charge i).proc j).lev) := by
    intro j
    rw [hc, Kernel.set_set]
    by_cases hj : j = i
    · subst hj; simpa using hlev j
    · simpa [hj] using hlev j
  exact (K.adjust hlev' (K.quiet hI hq) ((hq.active i).mpr ha)).bind fun k' h =>
    K.quiet h ((Quiet.refl k').switched none)

theorem exit {k₀ : Kernel} {a : Action} (h : Wf k) (h₀ : I k₀) (hG : G k₀ a) (he : Exits k₀ a i)
    (hq : Quiet k₀ k) (hc : k.cur = some i) : Ensures bad (k.exit i) I := by
  unfold Kernel.exit
  split
  · exact fun hb => K.faults _ hb
  have hr : Quiet k ((k.wakeup1 (k.proc i).parent.chan).reparent i) :=
    (wakeup1_quiet _).trans reparent_quiet
  have hst : StableOk ((k.wakeup1 (k.proc i).parent.chan).reparent i).stable := by
    rw [hr.stable]; exact h.stable
  have ha : Active ((k.wakeup1 (k.proc i).parent.chan).reparent i) i :=
    (hr.active i).mpr (h.cur_active hc)
  exact (K.unschedule hG he (hq.trans hr) (K.quiet h₀ (hq.trans hr)) hst ha).bind fun k' hk =>
    K.quiet hk ((Quiet.refl _).switched none)

theorem preempt {k₀ : Kernel} {user : Bool} (h : Wf k) (h₀ : I k₀) (hG : G k₀ (.timer user))
    (hb : Boosts k₀ user i ∨ ¬ (k.countTick i).boostDue) (hq : Quiet k₀ k) (hc : k.cur = some i) :
    Ensures bad (k.preempt i) I := by
  have hbst : I (k.boosted i) ∧ (∀ j, LevOk ((k.boosted i).proc j).lev) ∧ Active (k.boosted i) i := by
    refine ⟨?_, h.boosted.lev, h.boosted.cur_active ((boosted_frame k i).1.trans hc)⟩
    unfold Kernel.boosted
    split
    · next hd => exact K.boost hG (hb.resolve_right (not_not.mpr hd)) h₀ (hq.trans countTick_quiet)
    · exact K.quiet h₀ (hq.trans countTick_quiet)
  obtain ⟨hI, hlev, ha⟩ := hbst
  have hset : ∀ f : Proc → Proc, Same ((k.boosted i).proc i) (f ((k.boosted i).proc i)) →
      I ((k.boosted i).set i f) ∧ (∀ j, LevOk (((k.boosted i).set i f).proc j).lev) ∧
      Active ((k.boosted i).set i f) i := by
    intro f hf
    refine ⟨K.quiet hI (.set hf), fun j => ?_, ((Quiet.set hf).active i).mpr ha⟩
    by_cases hj : j = i
    · subst hj; simpa [hf.2.2.2] using hlev j
    · simpa [hj] using hlev j
  unfold Kernel.preempt
  dsimp only
  obtain ⟨q, htq, hq0⟩ : ∃ q, time_quantom (((k.boosted i).set i fun p =>
      { p with time_allotment := int32 (p.time_allotment - 1) }).proc i).lev = .ok q ∧ q ≠ 0 := by
    have := hlev i
    simp only [Kernel.set_proc, Function.update_self, time_quantom]
    unfold LevOk STRIDE_LEV at this
    rw [if_pos (by omega)]
    refine ⟨_, rfl, ?_⟩
    unfold STRIDE_LEV STRIDE_DEFAULT_TIME_QUANTOM
    grind
  rw [htq, ok_bind, if_neg hq0]
  split
  · exact (hset _ (.of_eq rfl rfl rfl)).1
  · rw [Kernel.set_set]
    obtain ⟨h1, h2, h3⟩ := hset (fun p => { p with
      time_allotment := int32 (p.time_allotment - 1), from_trap := true }) (.of_eq rfl rfl rfl)
    exact K.yield h2 h1 h3

theorem timer (h : Wf k) (hI : I k) {user : Bool} (hG : ∀ i, k.cur = some i → G k (.timer user)) :
    Ensures bad (k.timer user) I := by
  have hw : Wf ({ k with ticks := (k.ticks + 1) % 2 ^ 32 }.wakeup1 .ticks) :=
    h.woken rfl rfl rfl fun j => wakeup1_woken _ _ j
  have hq : Quiet k ({ k with ticks := (k.ticks + 1) % 2 ^ 32 }.wakeup1 .ticks) :=
    .of_same rfl rfl rfl (fun _ => rfl) fun j => (wakeup1_woken _ _ j).same
  unfold Kernel.timer
  dsimp only
  split
  · exact K.quiet hI hq
  · next i hc =>
    -- the tick wakes no running process: it sees the same `killed` and `share`
    have hrun : (k.proc i).state = .RUNNING := h.running_started hc
    have hpi : ({ k with ticks := (k.ticks + 1) % 2 ^ 32 }.wakeup1 .ticks).proc i = k.proc i := by
      simp [Kernel.wakeup1, hrun]
    rw [hpi, if_pos hrun]
    split
    · next hk =>
      obtain rfl := hk.2
      exact K.exit hw hI (hG i hc) ⟨hc, .inr ⟨rfl, hk.1⟩⟩ hq hc
    · next hk =>
      refine K.preempt hw hI (hG i hc) ?_ hq hc
      by_cases hd : (k.countTick i).boostDue
      · exact .inl ⟨hc, by simpa using hk, hd⟩
      · exact .inr (by rwa [boostDue_congr (congrArg Proc.share hpi) rfl])

/-- **Step lemma**: every guarded step ensures the invariant. -/
theorem step {a : Action} (h : Wf k) (hI : I k) (hG : G k a) : Ensures bad (step k a) I := by
  have hblocked : ¬ bad .blocked := fun hb => K.faults _ hb
  unfold Sched.step
  split
  · next hc =>
    split
    · exact (K.schedule h hI).mono fun k' hs _ => K.quiet hI (scheduler_quiet hs)
    · exact K.timer h hI fun i hi => by rw [hc] at hi; cases hi
    · exact K.quiet hI (wakeup1_quiet _)
    · exact hblocked
  · next i hc =>
    have hstart : (k.proc i).state.Started := .inr (.inr (h.running_started hc))
    split
    · split
      · exact hblocked
      · exact K.timer h hI fun _ _ => hG
    · split
      · exact hblocked
      · exact K.quiet hI (wakeup1_quiet _)
    · generalize hci : k.cont i = c
      unfold stepProc
      split
      · exact K.quiet hI (fork_quiet hci)
      · exact K.quiet hI (kalloc_quiet h hci _)
      · exact K.enqueue h hI hG hc hci
      · next ok _ _ =>
        cases ok with
        | true => exact K.quiet hI (copyuvm_quiet hci)
        | false => exact K.discard h hI hG hc hci
      · exact K.quiet hI (forkPublish_quiet h hci)
      · exact K.quiet hI ((Quiet.set (.of_eq rfl rfl rfl)).moved (by simp [hci, Cont.allocating]))
      · have hq : Quiet k (k.setCont i .user) := (Quiet.refl k).moved (by rw [hci]; rfl)
        exact K.yield h.lev (K.quiet hI hq) ((hq.active i).mpr (h.cur_active hc))
      · exact (set_cpu_share_ensures h hci _).mono fun _ _ hq => K.quiet hI hq
      · obtain ⟨rfl, -⟩ := h.entry i _ _ hci
        exact K.reserve h hI hG hc hci
      · exact K.quiet hI (sleep_quiet (by rw [hci]; rfl) hstart rfl)
      · exact K.exit h hI hG ⟨hc, .inl rfl⟩ (.refl k) hc
      · exact K.quiet hI (wait_quiet (by rw [hci]; rfl) hstart)
      · exact K.quiet hI (wait_quiet (by rw [hci]; rfl) hstart)
      · exact K.quiet hI (kill_quiet hci _)
      · exact hblocked

/-- **Run lemma**: in every state that guarded steps reach, the invariant holds
and no guarded step faults in a `bad` way. -/
theorem reachable (h0 : I Kernel.boot) (h : Reachable G k) :
    I k ∧ ∀ a f, G k a → Sched.step k a = .error f → ¬ bad f := by
  obtain ⟨hI, hf⟩ := h.ensures (I := fun k => Wf k ∧ I k) (B := bad) ⟨Wf.boot, h0⟩
    fun k a hk hG => (K.step hk.1 hk.2 hG).mono fun _ hs hI => ⟨hk.1.step hs, hI⟩
  exact ⟨hI.2, hf⟩

end Keeps

end Xv6.Sched
