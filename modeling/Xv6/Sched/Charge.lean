import Xv6.Sched.Clock

/-!
# Time accounting of the MLFQ

`Counted` puts a counter beside the kernel: for each slot, the ticks it ran at
and the calls of `sys_yield` it made since it entered its level. As long as no
`yield` finds `from_trap` set, the allotment used up at levels 0 and 1 is this
count, and a process leaves the level when the count reaches the allotment.
-/

namespace Xv6.Sched

open Lib

/-- The action fills in slot `j` for a new process. -/
def Creates (k : Kernel) (a : Action) (j : Slot) : Prop :=
  a = .kalloc true ∧ ∃ i ∈ k.cur, k.cont i = .allocStack j

instance (k : Kernel) (a : Action) (j : Slot) : Decidable (Creates k a j) :=
  inferInstanceAs (Decidable (_ ∧ _))

/-- The kernel with the charges that each slot owes for its time at its level. -/
structure Counted where
  k : Kernel
  count : Slot → Nat

namespace Counted

/-- The count of slot `i` with the charge of the action; a boost starts a new count. -/
def spent (c : Counted) (a : Action) (i : Slot) : Nat :=
  (if Boosting c.k a then 0 else c.count i) + if Charges c.k a i then 1 else 0

/-- The count goes on as long as the slot keeps its level. -/
def next (c : Counted) (a : Action) (k' : Kernel) : Counted where
  k := k'
  count i := if Creates c.k a i ∨ (k'.proc i).lev ≠ (c.k.base a i).lev then 0 else c.spent a i

def step (c : Counted) (a : Action) : Except Fault Counted := do
  let k' ← Sched.step c.k a
  return c.next a k'

def boot : Counted := ⟨Kernel.boot, fun _ => 0⟩

end Counted

/-- No MLFQ process at level 0 or 1 enters `yield` from `sys_yield` with `from_trap` set. -/
def CountSafe (c : Counted) (a : Action) : Prop :=
  a = .yield → ∀ i ∈ c.k.cur, (c.k.proc i).share = 0 → (c.k.proc i).lev < 2 →
    (c.k.proc i).from_trap = false

instance (c : Counted) (a : Action) : Decidable (CountSafe c a) :=
  inferInstanceAs (Decidable (_ → _))

/-- The allotment used up at level 0 or 1 is `n`, and some of it is left. -/
def Proc.Accounted (p : Proc) (n : Nat) : Prop :=
  p.share = 0 → p.lev < 2 → ∃ A, Sched.time_allotment p.lev = .ok A ∧
    p.time_allotment = A - n ∧ (n : Int) < A

/-- Every MLFQ process is accounted for; a slot about to be enqueued owes nothing. -/
structure CountInv (c : Counted) : Prop where
  active : ∀ i, Active c.k i → (c.k.proc i).Accounted (c.count i)
  fresh : ∀ i np, c.k.cont i = .allocEnqueue np →
    (c.k.proc np).time_allotment = 5 ∧ c.count np = 0

section
variable {k k' : Kernel} {a : Action} {i j np : Slot}

/-- A slot that is active after a step was not filled in by it. -/
theorem ClockStep.not_creates {p' : Proc} (h : Wf k) (e : ClockStep k a j p') : ¬ Creates k a j := by
  rintro ⟨ha, i, hi, hci⟩
  have hact : ¬ Active k j := fun hj => hj.2 i (by rw [hci]; rfl)
  cases e with
  | keep h | reserve _ h | tick _ h | tickYield _ h | yield h => exact hact h
  | fresh m hm =>
    obtain rfl := h.builder m i j (by rw [hm]; rfl) (by rw [hci]; rfl)
    rw [hm] at hci
    cases hci

/-- `scheduler` moves no process on inside `allocproc`. -/
theorem scheduler_builds (hs : k.scheduler = .ok k') (hi : k'.cont i = .allocEnqueue np) :
    k.cont i = .allocEnqueue np := by
  obtain ⟨k1, ptr, hk, hd⟩ := scheduler_ok hs
  rw [← hk.cont]
  rcases dispatch_ok hd with rfl | ⟨m, -, -, rfl⟩
  · exact hi
  · obtain ⟨-, -, -, -, -, hother, hself⟩ := resume_frame
      { k1.set m (fun p => { p with
        first_scheduled := true, start_tick := k1.MLFQ_ticks, state := .RUNNING }) with cur := some m } m
    by_cases him : i = m
    · subst him
      rcases hself with he | ⟨-, hn, -⟩
      · exact he.symm.trans hi
      · rw [hi] at hn
        cases hn
    · exact (hother i him).symm.trans hi

/-- A slot that waits to be enqueued was filled in by the step, or waited before. -/
theorem Effect.built (h : Wf k) (e : Effect k a k') (hi : k'.cont i = .allocEnqueue np) :
    Creates k a np ∧ (k'.proc np).time_allotment = 5 ∨
    k.cont i = .allocEnqueue np ∧ ¬ Charges k a np ∧
      (k'.proc np).time_allotment = (k.base a np).time_allotment := by
  -- a slot under construction does not run
  have hcur : ∀ m, k.cur = some m → k.cont i = .allocEnqueue np → np ≠ m := fun m hc he =>
    h.cur_not_child hc (j := i) (by rw [he]; rfl)
  have hch : k.cont i = .allocEnqueue np → ¬ Charges k a np := by
    rintro he (⟨hc, -⟩ | ⟨-, hc⟩) <;> exact hcur np hc he rfl
  have hkeep : ¬ Boosting k a → k.cont i = .allocEnqueue np →
      (k'.proc np).time_allotment = (k.proc np).time_allotment →
      k.cont i = .allocEnqueue np ∧ ¬ Charges k a np ∧
        (k'.proc np).time_allotment = (k.base a np).time_allotment := fun hb he ht =>
    ⟨he, hch he, by rw [base_eq hb, ht]⟩
  have hmoved : ∀ {m : Slot} {c : Cont}, c.allocating = none →
      k'.cont = Function.update k.cont m c → k.cont i = .allocEnqueue np := fun hc he =>
    builds_update hc i np (by rw [← he]; exact hi)
  cases e with
  | idle hn hid =>
    have hb : ¬ Boosting k a := by
      rintro ⟨m, ⟨hc, user, e, -⟩, -⟩
      exact (hn (by simp [hc])).2 user e
    exact .inr (hkeep hb (hid.builds i np hi) (hid.clock np).time_allotment)
  | schedule ha _ hs =>
    exact .inr (hkeep (not_boosting (by simp [ha])) (scheduler_builds hs hi)
      (scheduler_clock hs np).2.2)
  | tick m user k₁ ha hc hk hid hw hpm hcur₁ hcont hmt hp =>
    obtain ⟨q, p', -, -, hproc, ht, -⟩ := preempt_cases hp
    have he : k.cont i = .allocEnqueue np := by rw [← hcont, ← ht.cont]; exact hi
    have hboost := boosting_iff (k := k) (a := a) ⟨hc, user, ha, hk⟩ hpm hmt
    refine .inr ⟨he, hch he, ?_⟩
    rw [hproc, Function.update_of_ne (hcur m hc he)]
    exact (boosted_base hboost (hid.clock np)).2.2.2
  | exit m k₁ k₂ hex hid hst hcont hu hk' =>
    subst hk'
    have hk2 : k₂.proc = k₁.proc ∧ k₂.cont = k₁.cont := by
      rcases unschedule_ok hst hu with ⟨-, l, q, -, -, rfl⟩ | ⟨-, st, -, rfl⟩ <;> exact ⟨rfl, rfl⟩
    have he : k.cont i = .allocEnqueue np := by
      rw [← hcont, ← hk2.2]
      exact hi
    refine .inr (hkeep (exit_not_boosting hex) he ?_)
    simp only [Kernel.set_proc, Function.update_of_ne (hcur m hex.1 he), hk2.1]
    exact (hid.clock np).time_allotment
  | sysYield m ha hc hci hk' =>
    subst hk'
    refine .inr (hkeep (not_boosting (by simp [ha])) (hmoved (c := .yieldCall) rfl rfl) ?_)
    by_cases hm : np = m
    · subst hm; simp
    · simp [hm]
  | yield m ha hc hci hy =>
    obtain ⟨p', -, hproc, ht, -⟩ := yield_ok hy
    have he : k.cont i = .allocEnqueue np := hmoved (c := .user) rfl ht.cont
    refine .inr (hkeep (not_boosting (by simp [ha])) he ?_)
    rw [hproc, Function.update_of_ne (hcur m hc he)]
    rfl
  | reserve m s ha hc hci hr =>
    obtain ⟨st, l, q, -, -, -, hproc, -, -, -, -, hcont⟩ := setShareLocked_ok hr
    have he : k.cont i = .allocEnqueue np := hmoved (c := .user) rfl hcont
    refine .inr (hkeep (not_boosting (by simp [ha])) he ?_)
    rw [hproc, Function.update_of_ne (hcur m hc he)]
  | fill m x ha hc hci hk' =>
    subst hk'
    by_cases him : i = m
    · subst him
      simp only [Kernel.setCont_cont, Function.update_self, Cont.allocEnqueue.injEq] at hi
      subst hi
      exact .inl ⟨⟨ha, i, hc, hci⟩, by simp [Kernel.allocInit]⟩
    · have he : k.cont i = .allocEnqueue np := by
        simpa [Kernel.allocInit, him] using hi
      have hne : np ≠ x := by
        rintro rfl
        exact him (h.builder i m np (by rw [he]; rfl) (by rw [hci]; rfl))
      exact .inr (hkeep (not_boosting (by simp [ha])) he (by simp [Kernel.allocInit, hne]))
  | enqueue m x ha hc hci hen =>
    simp only [Kernel.allocEnqueue, bind_ok, enqueue_ok, pure_ok] at hen
    obtain ⟨_, ⟨l, q, -, -, rfl⟩, rfl⟩ := hen
    exact .inr (hkeep (not_boosting (by simp [ha])) (hmoved (c := .forkCopy x) rfl rfl) rfl)
  | discard m x ha hc hci hk' =>
    subst hk'
    refine .inr (hkeep (not_boosting (by simp [ha])) (hmoved (c := .user) rfl rfl) ?_)
    by_cases hx : np = x
    · subst hx; simp [Kernel.copyuvm]
    · simp [Kernel.copyuvm, hx]

/-! ## One step -/

/-- What a step that brings the count at the level to `n` makes of record `p`. -/
structure Accounts (p : Proc) (n : Nat) (p' : Proc) : Prop where
  le : p.lev ≤ p'.lev
  moved : p.lev < 2 → (p'.lev = p.lev + 1 ↔ time_allotment p.lev = .ok (n : Int))

theorem time_allotment_ok_iff {lev A : Int} (hl : lev < 2) :
    time_allotment lev = .ok A ↔ lev = 0 ∧ A = 5 ∨ lev = 1 ∧ A = 10 := by
  unfold time_allotment
  split
  · next h =>
    rcases (show lev = 0 ∨ lev = 1 by omega) with rfl | rfl <;> simp [eq_comm]
  · next h =>
    constructor
    · intro h
      cases h
    · intro h
      omega

/-- As long as some of the allotment is left, the level stays. -/
theorem Proc.Accounted.stays {p p' : Proc} {n : Nat} (h : p.Accounted n) (hs : p.share = 0)
    (hl : p'.lev = p.lev) : Accounts p n p' where
  le := hl.ge
  moved hlt := by
    obtain ⟨A, hA, -, hn⟩ := h hs hlt
    rw [hA, hl]
    refine ⟨fun h => ?_, fun h => ?_⟩
    · omega
    · cases h
      omega

/-- The allotment after a charge, if the level does not change. -/
theorem Proc.Accounted.charge {p : Proc} {n : Nat} (h : p.Accounted n) (hs : p.share = 0)
    (hl : p.lev < 2) : ∃ A, Sched.time_allotment p.lev = .ok A ∧
      int32 (p.time_allotment - 1) = A - (n + 1 : Nat) ∧ ((n + 1 : Nat) : Int) ≤ A := by
  obtain ⟨A, hA, ha, hn⟩ := h hs hl
  have h10 := (time_allotment_ok_iff hl).mp hA
  refine ⟨A, hA, ?_, by omega⟩
  rw [int32_of_range (by omega), ha]
  omega

/-- `yield` moves a process on when its charged allotment is used up. -/
theorem Yields.accounts {p p' : Proc} {n : Nat} (h : Yields p p') (hs : p.share = 0)
    (hp : p.lev < 2 → ∃ A, time_allotment p.lev = .ok A ∧
      p.charged.time_allotment = A - n ∧ (n : Int) ≤ A) :
    Accounts p n p' ∧ p'.Accounted (if p'.lev ≠ p.lev then 0 else n) := by
  obtain ⟨⟨l, hl⟩, hlev, hkeep, hnew⟩ := h.mlfq hs
  unfold Kernel.Proc.nextLev DEPTH_QUEUE at hlev
  rw [(charged_keep p).2.1] at hlev
  by_cases hz : p.charged.time_allotment = 0 ∧ p.lev ≠ ((3 : Nat) : Int) - 1
  · rw [if_pos hz] at hlev
    have hne : p'.lev ≠ p.lev := by omega
    refine ⟨⟨by omega, fun hlt => iff_of_true hlev ?_⟩, fun _ hlt => ?_⟩
    · obtain ⟨A, hA, ha, -⟩ := hp hlt
      rw [hA, show A = n by omega]
    · rw [if_pos hne]
      have hA := hnew hne
      have := (time_allotment_ok_iff hlt).mp hA
      exact ⟨_, hA, by simp, by omega⟩
  · rw [if_neg hz] at hlev
    refine ⟨⟨hlev.ge, fun hlt => iff_of_false (by omega) fun he => ?_⟩, fun _ hlt => ?_⟩
    · obtain ⟨A, hA, ha, -⟩ := hp hlt
      rw [hA] at he
      cases he
      exact hz ⟨by omega, by omega⟩
    · rw [if_neg (not_not.mpr hlev)]
      rw [hlev] at hlt ⊢
      obtain ⟨A, hA, ha, hn⟩ := hp hlt
      refine ⟨A, hA, by rw [hkeep hlev, ha], lt_of_le_of_ne hn fun he => hz ⟨by omega, by omega⟩⟩

variable {c c' : Counted}

/-- A boost restarts the count, and the allotment with it. -/
theorem CountInv.base (h : CountInv c) (a : Action) (hi : Active c.k i) :
    (c.k.base a i).Accounted (if Boosting c.k a then 0 else c.count i) := by
  unfold Kernel.base
  split
  · exact fun _ _ => ⟨5, rfl, by simp, by decide⟩
  · exact h.active i hi

/-- **Step lemma**: the step accounts for an active process that stays without a share. -/
theorem ClockStep.accounts (h : Wf c.k) (hi : CountInv c) (hg : CountSafe c a) {p' : Proc}
    (e : ClockStep c.k a j p') (hs' : p'.share = 0) :
    (Active c.k j → (c.k.proc j).share = 0 → Accounts (c.k.base a j) (c.spent a j) p') ∧
    p'.Accounted (if p'.lev ≠ (c.k.base a j).lev then 0 else c.spent a j) := by
  have hsh : (c.k.base a j).share = (c.k.proc j).share := by
    unfold Kernel.base
    split <;> rfl
  have h9 : STRIDE_LEV = 9 := rfl
  cases e with
  | keep ha hc hs hl hta =>
    have hb := hi.base a ha
    have hn : c.spent a j = if Boosting c.k a then 0 else c.count j := by simp [Counted.spent, hc]
    rw [← hn] at hb
    refine ⟨fun _ hs => hb.stays (hsh.trans hs) hl, fun _ hlt => ?_⟩
    rw [hl, hta, if_neg (by simp)]
    exact hb (hsh.trans (hs ▸ hs')) (hl ▸ hlt)
  | fresh i hci hnb hc hp =>
    refine ⟨fun ha => absurd (by rw [hci]; rfl) (ha.2 i), fun _ hlt => ?_⟩
    obtain ⟨h5, h0⟩ := hi.fresh i j hci
    have hlev := (h.fresh i j (by rw [hci]; rfl) (by rw [hci]; simp)).2
    have hn : c.spent a j = 0 := by simp [Counted.spent, hnb, hc, h0]
    rw [base_eq hnb, hp, hn, ite_self, hlev, h5]
    exact ⟨5, rfl, by simp, by decide⟩
  | reserve s ha hnb hc hs hl hta =>
    have hlev := h.lev j
    unfold LevOk at hlev
    have hn : c.spent a j = c.count j := by simp [Counted.spent, hnb, hc]
    refine ⟨fun _ hsj => ?_, fun _ hlt => by omega⟩
    rw [hn, base_eq hnb]
    refine ⟨by omega, fun hlt => iff_of_false (by omega) fun he => ?_⟩
    obtain ⟨A, hA, -, hlt'⟩ := hi.active j ha hsj hlt
    rw [hA] at he
    cases he
    omega
  | tick q ha ht hq hq0 hm hp =>
    have hn : c.spent a j = (if Boosting c.k a then 0 else c.count j) + 1 := by
      simp [Counted.spent, Charges, ht]
    have hb := hi.base a ha
    generalize c.k.base a j = p at *
    subst hp
    have hacc : p.ticked.Accounted (c.spent a j) := fun hs hlt => by
      obtain ⟨A, hA, hta, hle⟩ := hb.charge hs hlt
      rw [← hn] at hta hle
      refine ⟨A, hA, hta, lt_of_le_of_ne hle fun he => hm ?_⟩
      -- the tick that uses up the allotment yields
      rw [p.ticked_time_allotment, hta, he]
      simp
    exact ⟨fun _ hs => ⟨le_refl _, (hacc.stays (hsh.trans hs) rfl).moved⟩, by simpa using hacc⟩
  | tickYield q ha ht hq hq0 hm hy =>
    have hn : c.spent a j = (if Boosting c.k a then 0 else c.count j) + 1 := by
      simp [Counted.spent, Charges, ht]
    have hb := hi.base a ha
    generalize c.k.base a j = p at *
    have hs0 : p.share = 0 := hy.share.symm.trans hs'
    have := hy.accounts (n := c.spent a j) hs0 fun hlt => by
      rw [hn]
      exact hb.charge hs0 hlt
    exact ⟨fun _ _ => ⟨this.1.le, this.1.moved⟩, this.2⟩
  | yield ha hay hc hy =>
    have hnb : ¬ Boosting c.k a := not_boosting (by simp [hay])
    have hn : c.spent a j = c.count j + 1 := by
      rw [Counted.spent, if_neg hnb, if_pos (.inr ⟨hay, hc⟩)]
    have hs0 : (c.k.proc j).share = 0 := hy.share.symm.trans hs'
    have := hy.accounts (n := c.spent a j) hs0 fun hlt => by
      rw [hn]
      obtain ⟨A, hA, hta, hle⟩ := (hi.active j ha).charge hs0 hlt
      refine ⟨A, hA, ?_, hle⟩
      unfold Proc.charged
      rw [if_neg (by simp [hg hay j hc hs0 hlt])]
      exact hta
    rw [base_eq hnb]
    exact ⟨fun _ _ => this.1, this.2⟩

/-! ## Runs in which every yield is charged -/

theorem Counted.step_ok : c.step a = .ok c' ↔ ∃ k', Sched.step c.k a = .ok k' ∧ c.next a k' = c' := by
  simp only [Counted.step, bind_ok, pure_ok]

theorem CountInv.next (h : Wf c.k) (hi : CountInv c) (hg : CountSafe c a)
    (hs : Sched.step c.k a = .ok k') : CountInv (c.next a k') where
  active j hj hsh := by
    have e := (step_effect h hs).clockStep h hj
    have := (e.accounts h hi hg hsh).2 hsh
    simpa only [Counted.next, or_iff_right (e.not_creates h)] using this
  fresh i np hc := by
    unfold Counted.next
    dsimp only
    rcases (step_effect h hs).built h hc with ⟨hcr, h5⟩ | ⟨hc, hch, ht⟩
    · exact ⟨h5, if_pos (.inl hcr)⟩
    · obtain ⟨h5, h0⟩ := hi.fresh i np hc
      refine ⟨?_, ?_⟩
      · rw [ht]
        unfold Kernel.base
        split
        · rfl
        · exact h5
      · simp [Counted.spent, hch, h0]

theorem boot_allotment : ∀ i, Active Kernel.boot i → (Kernel.boot.proc i).time_allotment = 5 := by
  decide +kernel

theorem countInv_boot : CountInv Counted.boot where
  active i ha _ _ := by
    rw [show Counted.boot.k = Kernel.boot from rfl, boot_allotment i ha, (boot_proc i).2.1]
    exact ⟨5, rfl, rfl, show (0 : Int) < 5 by decide⟩
  fresh i np hc := by
    rw [show Counted.boot.k.cont i = .user from boot_cont i] at hc
    cases hc

/-- **Time accounting**: in every run in which no yield at level 0 or 1 goes
uncharged, the allotment that an MLFQ process has used up at its level is the
count of its ticks and yields there; and, but for boosts, no step lowers its
level, and a step moves it to the next one exactly if the count reaches the
allotment. -/
theorem accounted_of_safe {c : Counted} (h : Reach Counted.step CountSafe Counted.boot c) :
    (∀ i, Active c.k i → (c.k.proc i).Accounted (c.count i)) ∧
    ∀ a c', CountSafe c a → c.step a = .ok c' → ¬ Boosting c.k a →
      ∀ i, Active c.k i → Active c'.k i → (c.k.proc i).share = 0 → (c'.k.proc i).share = 0 →
        Accounts (c.k.proc i) (c.spent a i) (c'.k.proc i) := by
  have hinv : Wf c.k ∧ CountInv c := by
    refine h.invariant (I := fun c => Wf c.k ∧ CountInv c) ⟨Wf.boot, countInv_boot⟩ ?_
    rintro c a _ ⟨hw, hi⟩ hg hs
    obtain ⟨k', hk, rfl⟩ := Counted.step_ok.mp hs
    exact ⟨hw.step hk, hi.next hw hg hk⟩
  obtain ⟨hw, hi⟩ := hinv
  refine ⟨hi.active, fun a c' hg hs hnb i ha ha' hsh hsh' => ?_⟩
  obtain ⟨k', hk, rfl⟩ := Counted.step_ok.mp hs
  have := (((step_effect hw hk).clockStep hw ha').accounts hw hi hg hsh').1 ha hsh
  rwa [base_eq hnb] at this

end

/-- Four charges at level 0, one of them for a call of `sys_yield`. -/
def yieldTickRun : List Action :=
  [.schedule, .sysYield, .yield, .schedule, .timer true, .schedule, .timer true, .schedule,
    .timer true, .schedule]

/-- The fifth charge moves the process to level 1. -/
theorem accounted_of_safe_yieldTick : ∃ c c',
    exec Counted.step CountSafe Counted.boot yieldTickRun = some c ∧ c.count 0 = 4 ∧
    c.step (.timer true) = .ok c' ∧ (c'.k.proc 0).lev = 1 ∧ (c.k.proc 0).Accounted (c.count 0) ∧
    Accounts (c.k.proc 0) (c.spent (.timer true) 0) (c'.k.proc 0) := by
  obtain ⟨c, hc, hr, h4, hg, hb, ha, hs, hstep⟩ := Reach.of_any Counted.step CountSafe Counted.boot
    (fun c => c.count 0 = 4 ∧ CountSafe c (.timer true) ∧ ¬ Boosting c.k (.timer true) ∧
      Active c.k 0 ∧ (c.k.proc 0).share = 0 ∧ (exec Counted.step Always c [.timer true]).any
        (fun c' => Active c'.k 0 ∧ (c'.k.proc 0).share = 0 ∧ (c'.k.proc 0).lev = 1))
    yieldTickRun (by decide +kernel)
  obtain ⟨c', hc', hp⟩ := (Option.any_eq_true _ _).mp hstep
  obtain ⟨_, -, hc', hx⟩ := exec_cons.mp hc'
  cases hx
  obtain ⟨ha', hs', hl⟩ := of_decide_eq_true hp
  have h := accounted_of_safe hr
  exact ⟨c, c', hc, h4, hc', hl, h.1 0 ha, h.2 _ c' hg hc' hb 0 ha ha' hs hs'⟩

/-- A tick ends the quantum between the assignment in `sys_yield` and `yield`. -/
def unchargedRun : List Action := [.schedule, .sysYield, .timer false, .schedule, .yield]

/-- Two charges are due, for the tick and for the call, and one is made. -/
theorem uncharged_not_accounted : ∃ c, exec Counted.step Always Counted.boot unchargedRun = some c ∧
    Reach Counted.step Always Counted.boot c ∧ Active c.k 0 ∧ c.count 0 = 2 ∧
    (c.k.proc 0).time_allotment = 4 ∧ ¬ (c.k.proc 0).Accounted (c.count 0) := by
  obtain ⟨c, hc, hr, ha, hn, hs, hl, h4⟩ := Reach.of_any Counted.step Always Counted.boot
    (fun c => Active c.k 0 ∧ c.count 0 = 2 ∧ (c.k.proc 0).share = 0 ∧ (c.k.proc 0).lev = 0 ∧
      (c.k.proc 0).time_allotment = 4) unchargedRun (by decide +kernel)
  refine ⟨c, hc, hr, ha, hn, h4, fun h => ?_⟩
  obtain ⟨A, hA, hta, -⟩ := h hs (by omega)
  have := (time_allotment_ok_iff (by omega)).mp hA
  omega

end Xv6.Sched
