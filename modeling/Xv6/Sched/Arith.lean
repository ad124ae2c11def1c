import Xv6.Sched.Rules

/-!
# Scheduler arithmetic

`scheduler` divides by the share of the entry it selects, and `yield`, `exit` and
`set_cpu_share` use `lev` as an index into the levels. Both are guarded by
nothing: `set_cpu_share(0)` makes an entry without a share and an MLFQ process
at level 9, and a second call indexes the levels with 9. `ArithInv` is what
rules both out, and `ArithSafe` the steps that keep it.
-/

namespace Xv6.Sched

open Lib

/-- Entries of the stride table have a share; MLFQ processes have an MLFQ level. -/
structure ArithInv (k : Kernel) : Prop where
  mlfq : k.mlfq.share ≠ 0
  entry : ∀ i, Ptr.slot i ∈ k.stable.toList → Active k i → (k.proc i).share ≠ 0
  lev : ∀ i, Active k i → (k.proc i).share = 0 → ∃ l : Level, (k.proc i).lev = (l.val : Int)

/-- The share of slot `i` and that of the virtual process add up to nothing. -/
def Cancels (k : Kernel) (i : Slot) : Prop :=
  (k.proc i).share ≠ 0 ∧ int32 (k.mlfq.share + (k.proc i).share) = 0

instance (k : Kernel) (i : Slot) : Decidable (Cancels k i) := inferInstanceAs (Decidable (_ ∧ _))

/-- The share about to be reserved is not empty, does not use up the virtual
process's and is for a process with an MLFQ level. -/
def ReserveOk (k : Kernel) : Prop := ∀ i ∈ k.cur, ∀ s ∈ (k.cont i).reserved,
  s ≠ 0 ∧ int32 (k.mlfq.share - s) ≠ 0 ∧ (k.proc i).lev ≠ STRIDE_LEV

/-- The slot about to be enqueued has no entry left over in the stride table. -/
def NoLeftover (k : Kernel) : Prop := ∀ i ∈ k.cur, ∀ np ∈ (k.cont i).allocating,
  Ptr.slot np ∉ k.stable.toList

instance (k : Kernel) : Decidable (ReserveOk k) := inferInstanceAs (Decidable (∀ _ ∈ _, _))
instance (k : Kernel) : Decidable (NoLeftover k) := inferInstanceAs (Decidable (∀ _ ∈ _, _))

/-- The steps that keep `ArithInv`. -/
def ArithSafe (k : Kernel) (a : Action) : Prop :=
  (a = .setShareLocked → ReserveOk k) ∧ (a = .allocEnqueue → NoLeftover k) ∧
    ∀ i, Exits k a i → ¬ Cancels k i

instance (k : Kernel) (a : Action) : Decidable (ArithSafe k a) :=
  inferInstanceAs (Decidable (_ ∧ _))

/-- A division by zero, or `lev` used as an index outside the table. -/
def Fault.OfArith (f : Fault) : Prop := f = .divZero ∨ f = .levRange

theorem Fault.OfArith.unchecked {f : Fault} (h : f.OfArith) : f.Unchecked := by
  rcases h with rfl | rfl <;> trivial

theorem not_ofArith : ¬ Fault.OfArith .queueRange ∧ ¬ Fault.OfArith .stableRange :=
  ⟨(by rintro (h | h) <;> cases h), (by rintro (h | h) <;> cases h)⟩

section
variable {k k' : Kernel} {i : Slot}

/-- Slots join the active ones, and entries the table, only with what `ArithInv` asks. -/
theorem ArithInv.frame (h : ArithInv k) (hm : k'.mlfq.share ≠ 0)
    (hent : ∀ j, Ptr.slot j ∈ k'.stable.toList → Active k' j →
      (Ptr.slot j ∈ k.stable.toList ∧ Active k j ∧ (k'.proc j).share = (k.proc j).share) ∨
        (k'.proc j).share ≠ 0)
    (hlev : ∀ j, Active k' j → (k'.proc j).share = 0 →
      (Active k j ∧ (k.proc j).share = 0 ∧ (k'.proc j).lev = (k.proc j).lev) ∨
        ∃ l : Level, (k'.proc j).lev = (l.val : Int)) : ArithInv k' where
  mlfq := hm
  entry j hj ha := by
    rcases hent j hj ha with ⟨hj', ha', hs⟩ | hs
    · rw [hs]; exact h.entry j hj' ha'
    · exact hs
  lev j ha hs := by
    rcases hlev j ha hs with ⟨ha', hs', hl⟩ | hl
    · rw [hl]; exact h.lev j ha' hs'
    · exact hl

theorem ArithInv.quiet (h : ArithInv k) (hq : Quiet k k') : ArithInv k' := by
  refine h.frame (by rw [hq.share]; exact h.mlfq) (fun j hj ha => .inl ?_) fun j ha hs => .inl ?_
  · have ha' := (hq.active j).mp ha
    exact ⟨hq.stable ▸ hj, ha', (hq.proc j ha').1⟩
  · have ha' := (hq.active j).mp ha
    obtain ⟨h1, h2⟩ := hq.proc j ha'
    exact ⟨ha', h1 ▸ hs, h2⟩

/-- Changes to one slot that stays active with its share, at an MLFQ level. -/
theorem ArithInv.relevel (h : ArithInv k) {p : Proc} (hm : k'.mlfq = k.mlfq)
    (hst : k'.stable = k.stable) (hc : k'.cont = k.cont)
    (hp : k'.proc = Function.update k.proc i p) (hs : p.state = (k.proc i).state)
    (hsh : p.share = (k.proc i).share)
    (hl : p.share = 0 → ∃ l : Level, p.lev = (l.val : Int)) : ArithInv k' := by
  have ha : ∀ j, Active k' j ↔ Active k j := by
    intro j
    rw [Active, Active, hc, hp]
    by_cases hj : j = i
    · subst hj; simp [hs]
    · simp [hj]
  refine h.frame (by rw [hm]; exact h.mlfq) (fun j hj haj => .inl ⟨hst ▸ hj, (ha j).mp haj, ?_⟩)
    fun j haj hj => ?_
  · by_cases hji : j = i
    · subst hji; simp [hp, hsh]
    · simp [hp, hji]
  · by_cases hji : j = i
    · subst hji; exact .inr (by simpa [hp] using hl (by simpa [hp] using hj))
    · exact .inl ⟨(ha j).mp haj, by simpa [hp, hji] using hj, by simp [hp, hji]⟩

/-- A slot leaves the active ones. -/
theorem ArithInv.drop (h : ArithInv k) {p : Proc} (hm : k'.mlfq.share ≠ 0)
    (hst : ∀ j, Ptr.slot j ∈ k'.stable.toList → Ptr.slot j ∈ k.stable.toList)
    (hp : k'.proc = Function.update k.proc i p) (hpl : ¬ p.state.Live)
    (hc : ∀ j, (k'.cont j).allocating = (k.cont j).allocating) : ArithInv k' := by
  have ha : ∀ j, Active k' j → j ≠ i ∧ Active k j := by
    intro j hj
    have hne : j ≠ i := by
      rintro rfl
      exact hpl (by simpa [hp] using hj.1)
    exact ⟨hne, by simpa [Active, hp, hc, hne] using hj⟩
  refine h.frame hm (fun j hj haj => .inl ?_) fun j haj hj => .inl ?_
  · obtain ⟨hne, haj⟩ := ha j haj
    exact ⟨hst j hj, haj, by simp [hp, hne]⟩
  · obtain ⟨hne, haj⟩ := ha j haj
    exact ⟨haj, by simpa [hp, hne] using hj, by simp [hp, hne]⟩

/-- The entries after a removal were entries before. -/
theorem StableOk.mem_of_remove {st : SizedArray Ptr NPROC} (h : StableOk k.stable) {brk : Bool}
    (hr : k.stable.remove brk (.slot i) = some st) {p : Ptr} (hp : p ∈ st.toList) :
    p ∈ k.stable.toList := by
  obtain ⟨L, hL⟩ := h
  rw [hL.toList]
  rw [(hL.of_remove hr).toList] at hp
  exact SizedArray.eraseScan_subset hp

theorem ArithInv.reserve (h : ArithInv k) (hst : StableOk k.stable) {s : Int} (hs : s ≠ 0)
    (hm : int32 (k.mlfq.share - s) ≠ 0) (hal : (k.cont i).allocating = none)
    (hk : k.setShareLocked i .mlfq s = .ok k') : ArithInv k' := by
  obtain ⟨st, l, q, hpush, -, -, hp, -, hst', hmlfq, -, hc⟩ := setShareLocked_ok hk
  obtain ⟨L, hL⟩ := hst
  have hact : ∀ j, j ≠ i → Active k' j → Active k j := by
    intro j hj ha
    refine ⟨by simpa [hp, hj] using ha.1, fun m => ?_⟩
    by_cases hmi : m = i
    · subst hmi; rw [hal]; simp
    · simpa [hc, hmi] using ha.2 m
  have hself : (k'.proc i).share = s := by simp [hp]
  have hother : ∀ j, j ≠ i → k'.proc j = k.proc j := fun j hj => by simp [hp, hj]
  refine h.frame (by rw [hmlfq]; exact hm) (fun j hj ha => ?_) fun j ha hj => ?_
  · by_cases hji : j = i
    · subst hji; exact .inr (by rw [hself]; exact hs)
    · refine .inl ⟨?_, hact j hji ha, by rw [hother j hji]⟩
      rw [hst', (hL.of_push hpush).2.toList] at hj
      rw [hL.toList]
      simpa [hji] using hj
  · have hji : j ≠ i := by rintro rfl; exact hs (hself.symm.trans hj)
    rw [hother j hji] at hj ⊢
    exact .inl ⟨hact j hji ha, hj, rfl⟩

end

/-! ## Runs in which the arithmetic is total -/

theorem arithInv_keeps : Keeps Fault.OfArith ArithSafe ArithInv where
  faults _ := Fault.OfArith.unchecked
  quiet h hq := h.quiet hq
  schedule hw h := by
    refine (scheduler_ensures (fun _ => Fault.OfArith.unchecked) hw.stable
      (fun hb => absurd hb not_ofArith.1) fun _ => ⟨h.mlfq, fun i hi hr => ?_⟩).mono
      fun _ _ _ => trivial
    exact h.entry i hi (hw.active_of_started (.inr (.inl hr)))
  boost _ _ h hq := by
    have h' := h.quiet hq
    exact ⟨h'.mlfq, h'.entry, fun _ _ _ => ⟨0, rfl⟩⟩
  enqueue {k i np} hw h hG hc hi := by
    refine .intro (fun k' hk => ?_) fun f hf hb => ?_
    · simp only [Kernel.allocEnqueue, bind_ok, enqueue_ok, pure_ok] at hk
      obtain ⟨_, ⟨l, q, -, -, rfl⟩, rfl⟩ := hk
      have hnp := hG.2.1 rfl i hc np (by rw [hi]; rfl)
      have hl := (hw.fresh i np (by rw [hi]; rfl) (by rw [hi]; simp)).2
      have ha := allocEnqueue_active ((k.setQueue l q).setCont i (.forkCopy np)) hw hi rfl rfl
      refine h.frame h.mlfq (fun j hj haj => .inl ⟨hj, ?_, rfl⟩) fun j haj hj => ?_
      · refine ((ha j).mp haj).resolve_right ?_
        rintro rfl
        exact hnp hj
      · rcases (ha j).mp haj with haj | rfl
        · exact .inl ⟨haj, hj, rfl⟩
        · exact .inr ⟨0, hl⟩
    · have he : Ensures Fault.OfArith (k.allocEnqueue i np) fun _ => True :=
        (enqueue_ensures (fun _ => ⟨0, rfl⟩) not_ofArith.1).bind fun _ _ => trivial
      exact he.not_bad hf hb
  discard {k i np} hw h _ _ hi := by
    have hu : ¬ ProcState.UNUSED.Live := by decide
    refine h.drop (i := np) h.mlfq (fun _ hj => hj) rfl hu fun j => ?_
    by_cases hj : j = i
    · subst hj; simp [Kernel.copyuvm, hi, Cont.allocating]
    · simp [Kernel.copyuvm, hj]
  adjust {k i} hlev h ha := by
    refine (adjust_ensures not_ofArith.1 (hlev i) fun _ => h.lev i ha).mono fun k' hk _ => ?_
    rcases adjust_ok hk with ⟨hs, l, l', q, q', a, hl, hl', -, -, rfl⟩ | ⟨hs, a, rfl⟩
    · exact h.relevel rfl rfl rfl rfl rfl rfl fun _ => ⟨l', hl'⟩
    · exact h.relevel rfl rfl rfl rfl rfl rfl fun h0 => absurd h0 hs
  unschedule {k k₁ a i} hG he hq h hst ha := by
    have hz : ¬ ProcState.ZOMBIE.Live := by decide
    refine (unschedule_ensures not_ofArith.1 hst fun _ => h.lev i ha).mono fun k' hk _ => ?_
    rcases unschedule_ok hst hk with ⟨hs, l, q, -, -, rfl⟩ | ⟨hs, st, hr, rfl⟩
    · exact h.drop (i := i) h.mlfq (fun _ hj => hj) rfl hz fun _ => rfl
    · refine h.drop (i := i) ?_ (fun _ hj => hst.mem_of_remove hr hj) rfl hz fun _ => rfl
      have hshare := (hq.proc i ((hq.active i).mp ha)).1
      rw [hshare] at hs
      refine fun hm => hG.2.2 i he ⟨hs, ?_⟩
      rwa [← hshare, ← hq.share]
  reserve {k i s} hw h hG hc hi := by
    obtain ⟨hs, hm, hl⟩ := hG.1 rfl i hc s (by rw [hi]; rfl)
    exact (setShareLocked_ensures (hw.lev i) (fun hb => absurd hb not_ofArith.2) (fun _ => hl)
      fun hb => absurd hb not_ofArith.1).mono fun k' hk _ =>
        h.reserve hw.stable hs hm (by rw [hi]; rfl) hk

theorem arithInv_boot : ArithInv Kernel.boot where
  mlfq := by decide
  entry i hi := by
    rw [boot_stable.toList] at hi
    simp at hi
  lev i _ _ := ⟨0, (boot_proc i).2.1⟩

/-- **Total arithmetic**: in every run of safe steps no step divides by zero or
uses `lev` as an index outside the table. -/
theorem arith_total_of_safe {k : Kernel} (h : Reachable ArithSafe k) (a : Action)
    (ha : ArithSafe k a) : step k a ≠ .error .divZero ∧ step k a ≠ .error .levRange := by
  obtain ⟨-, hf⟩ := arithInv_keeps.reachable arithInv_boot h
  exact ⟨fun hs => hf a _ ha hs (.inl rfl), fun hs => hf a _ ha hs (.inr rfl)⟩

/-- The first process forks, takes a share of `s` and sleeps; its child is preempted. -/
def forkTakeRun (s : Int) : List Action :=
  [.schedule, .fork, .kalloc true, .allocEnqueue, .copyuvm true, .forkPublish, .setCpuShare s,
    .setShareLocked, .sleep .ticks, .schedule, .timer true]

theorem arith_total_of_safe_forkTake : ∃ k,
    exec step ArithSafe Kernel.boot (forkTakeRun 20) = some k ∧ Ptr.slot 0 ∈ k.stable.toList ∧
    step k .schedule ≠ .error .divZero ∧ step k .schedule ≠ .error .levRange := by
  obtain ⟨k, hk, hr, hs, hm⟩ := Reach.of_any step ArithSafe Kernel.boot
    (fun k => ArithSafe k .schedule ∧ Ptr.slot 0 ∈ k.stable.toList) (forkTakeRun 20) (by decide +kernel)
  exact ⟨k, hk, hm, arith_total_of_safe hr .schedule hs⟩

/-- After `set_cpu_share(0)` the scheduler divides by zero; a second
`set_cpu_share` indexes the levels with 9. -/
theorem forkTake_zero_faults :
    (∃ k, exec step Always Kernel.boot (forkTakeRun 0) = some k ∧ Reachable Always k ∧
      step k .schedule = .error .divZero) ∧
    ∃ k, exec step Always Kernel.boot
        [.schedule, .setCpuShare 20, .setShareLocked, .setCpuShare 20] = some k ∧
      Reachable Always k ∧ step k .setShareLocked = .error .levRange := by
  constructor
  · obtain ⟨k, hk, hr, hf⟩ := Reach.of_any step Always Kernel.boot
      (fun k => faultsWith (step k .schedule) .divZero) (forkTakeRun 0) (by decide +kernel)
    exact ⟨k, hk, hr, faultsWith_iff.mp hf⟩
  · obtain ⟨k, hk, hr, hf⟩ := Reach.of_any step Always Kernel.boot
      (fun k => faultsWith (step k .setShareLocked) .levRange)
      [.schedule, .setCpuShare 20, .setShareLocked, .setCpuShare 20] (by decide +kernel)
    exact ⟨k, hk, hr, faultsWith_iff.mp hf⟩

end Xv6.Sched
