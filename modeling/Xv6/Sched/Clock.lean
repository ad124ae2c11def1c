import Xv6.Sched.Effects

/-!
# Levels and allotments

`ClockStep` is what one step does to the level and the allotment of an active
slot. Two properties follow from it. Stride processes keep their level, unless a
boost takes it from them: `boost` does not spare them. The allotment that an
MLFQ process has used up at a level is the number of its ticks and yields there,
unless a tick ends its quantum inside `sys_yield`: `from_trap` is then set, and
the yield goes uncharged.
-/

namespace Xv6.Sched

open Lib

/-- The action is a timer interrupt that process `i` survives. -/
def Ticks (k : Kernel) (a : Action) (i : Slot) : Prop :=
  k.cur = some i ∧ ∃ user : Bool, a = .timer user ∧ ¬ ((k.proc i).killed ∧ user)

instance (k : Kernel) (a : Action) (i : Slot) : Decidable (Ticks k a i) :=
  inferInstanceAs (Decidable (_ ∧ _))

/-- The action boosts. -/
def Boosting (k : Kernel) (a : Action) : Prop := ∃ i, Ticks k a i ∧ (k.countTick i).boostDue

instance (k : Kernel) (a : Action) : Decidable (Boosting k a) :=
  inferInstanceAs (Decidable (∃ _, _))

/-- The action costs process `i` a tick: an interrupt, or the `yield` of `sys_yield`. -/
def Charges (k : Kernel) (a : Action) (i : Slot) : Prop := Ticks k a i ∨ a = .yield ∧ k.cur = some i

instance (k : Kernel) (a : Action) (i : Slot) : Decidable (Charges k a i) :=
  inferInstanceAs (Decidable (_ ∨ _))

/-- The record of slot `i` after the boost, if the action makes one. -/
def Kernel.base (k : Kernel) (a : Action) (i : Slot) : Proc :=
  if Boosting k a then { k.proc i with lev := 0, time_allotment := 5 } else k.proc i

/-- What an action makes of the record of slot `j`, which is active after it. -/
inductive ClockStep (k : Kernel) (a : Action) (j : Slot) (p' : Proc) : Prop where
  | keep : Active k j → ¬ Charges k a j → p'.share = (k.proc j).share →
      p'.lev = (k.base a j).lev → p'.time_allotment = (k.base a j).time_allotment →
      ClockStep k a j p'
  | fresh (i : Slot) : k.cont i = .allocEnqueue j → ¬ Boosting k a → ¬ Charges k a j →
      p' = k.proc j → ClockStep k a j p'
  | reserve (s : Int) : Active k j → ¬ Boosting k a → ¬ Charges k a j → p'.share = s →
      p'.lev = STRIDE_LEV → p'.time_allotment = STRIDE_DEFAULT_TIME_QUANTOM → ClockStep k a j p'
  | tick (q : Int) : Active k j → Ticks k a j → time_quantom (k.base a j).lev = .ok q → q ≠ 0 →
      (k.base a j).ticked.time_allotment.tmod q ≠ 0 → p' = (k.base a j).ticked →
      ClockStep k a j p'
  | tickYield (q : Int) : Active k j → Ticks k a j → time_quantom (k.base a j).lev = .ok q → q ≠ 0 →
      (k.base a j).ticked.time_allotment.tmod q = 0 →
      Yields { (k.base a j).ticked with from_trap := true } p' → ClockStep k a j p'
  | yield : Active k j → a = .yield → k.cur = some j → Yields (k.proc j) p' → ClockStep k a j p'

section
variable {k k' : Kernel} {a : Action} {i j : Slot}

theorem not_ticks (h : ∀ user, a ≠ .timer user) (j : Slot) : ¬ Ticks k a j := by
  rintro ⟨-, user, e, -⟩
  exact h user e

theorem not_boosting (h : ∀ user, a ≠ .timer user) : ¬ Boosting k a := by
  rintro ⟨j, hj, -⟩
  exact not_ticks h j hj

theorem not_charges (h : ∀ user, a ≠ .timer user) (hy : a ≠ .yield) (j : Slot) : ¬ Charges k a j := by
  rintro (hj | ⟨e, -⟩)
  · exact not_ticks h j hj
  · exact hy e

theorem base_eq (h : ¬ Boosting k a) (j : Slot) : k.base a j = k.proc j := if_neg h

/-- A step that is no tick and no `yield`, and leaves the clock of `j` alone. -/
theorem ClockStep.of_same {p' : Proc} (ha : Active k j) (ht : ∀ user, a ≠ .timer user)
    (hy : a ≠ .yield) (hs : p'.share = (k.proc j).share) (hl : p'.lev = (k.proc j).lev)
    (hta : p'.time_allotment = (k.proc j).time_allotment) : ClockStep k a j p' := by
  have hb := base_eq (k := k) (not_boosting ht) j
  exact .keep ha (not_charges ht hy j) hs (hb ▸ hl) (hb ▸ hta)

theorem exit_not_charges (he : Exits k a i) (j : Slot) : ¬ Charges k a j := by
  rintro (⟨hc, user, rfl, hk⟩ | ⟨rfl, -⟩)
  · obtain ⟨hc', e | ⟨e, hk'⟩⟩ := he
    · cases e
    · cases hc.symm.trans hc'
      cases e
      exact hk ⟨hk', rfl⟩
  · rcases he.2 with e | ⟨e, -⟩ <;> cases e

theorem exit_not_boosting (he : Exits k a i) : ¬ Boosting k a := by
  rintro ⟨j, hj, -⟩
  exact exit_not_charges he j (.inl hj)

/-- A slot that was under construction before is so after. -/
theorem active_of_cont (hj : Active k' j) (hp : k'.proc j = k.proc j)
    (hc : ∀ m, (k.cont m).allocating = some j → (k'.cont m).allocating = some j) : Active k j :=
  ⟨hp ▸ hj.1, fun m hm => hj.2 m (hc m hm)⟩

/-- The test for boosting sees the record of the process that ticks. -/
theorem boosting_iff {k₁ : Kernel} (hi : Ticks k a i) (hp : k₁.proc i = k.proc i)
    (ht : k₁.MLFQ_ticks = k.MLFQ_ticks) : Boosting k a ↔ (k₁.countTick i).boostDue := by
  rw [boostDue_congr (congrArg Proc.share hp) ht]
  refine ⟨fun ⟨m, hm, hd⟩ => ?_, fun hd => ⟨i, hi, hd⟩⟩
  cases hi.1.symm.trans hm.1
  exact hd

/-- The boost of a tick, for a slot that does not tick. -/
theorem boosted_base {k₁ : Kernel} (hb : Boosting k a ↔ (k₁.countTick i).boostDue)
    (hc : SameClock (k.proc j) (k₁.proc j)) :
    ((k₁.boosted i).proc j).state = (k₁.proc j).state ∧
    ((k₁.boosted i).proc j).share = (k.proc j).share ∧
    ((k₁.boosted i).proc j).lev = (k.base a j).lev ∧
    ((k₁.boosted i).proc j).time_allotment = (k.base a j).time_allotment := by
  rw [boosted_proc]
  unfold Kernel.base
  simp only [hb]
  split
  · exact ⟨rfl, hc.share, rfl, rfl⟩
  · exact ⟨rfl, hc.share, hc.lev, hc.time_allotment⟩

/-- **Step lemma**: what a step does to the clock of a slot that is active after it. -/
theorem Effect.clockStep (h : Wf k) (e : Effect k a k') (hj : Active k' j) :
    ClockStep k a j (k'.proc j) := by
  cases e with
  | idle hn hi =>
    have hc := hi.clock j
    have ha := (hi.active j).mp hj
    have hch : ∀ i, ¬ Charges k a i := by
      rintro i (⟨hc, user, e, -⟩ | ⟨e, hc⟩)
      · exact (hn (by simp [hc])).2 user e
      · exact (hn (by simp [hc])).1 e
    have hb := base_eq (k := k) (a := a) (fun ⟨i, hi, _⟩ => hch i (.inl hi)) j
    exact .keep ha (hch j) hc.share (hb ▸ hc.lev) (hb ▸ hc.time_allotment)
  | schedule ha _ hs =>
    have hc := scheduler_clock hs j
    exact .of_same (((scheduler_quiet hs).active j).mp hj) (by simp [ha]) (by simp [ha]) hc.1 hc.2.1 hc.2.2
  | tick i user k₁ ha hc hk hi hw hpi hcur hcont hmt hp =>
    have htick : Ticks k a i := ⟨hc, user, ha, hk⟩
    have hboost := boosting_iff htick hpi hmt
    obtain ⟨q, p', hq, hq0, hproc, ht, hcase⟩ := preempt_cases hp
    by_cases hji : j = i
    · subst hji
      have hb : (k₁.boosted j).proc j = k.base a j := by
        rw [boosted_proc, Kernel.base, hpi]
        simp only [hboost]
      have hpj : k'.proc j = p' := by rw [hproc]; simp
      rw [hb] at hq hcase
      rw [hpj]
      rcases hcase with ⟨hm, rfl, -⟩ | ⟨hm, hy, -⟩
      · exact .tick q (h.cur_active hc) htick hq hq0 hm rfl
      · exact .tickYield q (h.cur_active hc) htick hq hq0 hm hy
    · have hpj : k'.proc j = (k₁.boosted i).proc j := by rw [hproc]; simp [hji]
      have hch : ¬ Charges k a j := by
        rintro (⟨hcj, -⟩ | ⟨e, -⟩)
        · exact hji (Option.some.inj (hcj.symm.trans hc))
        · rw [ha] at e; cases e
      obtain ⟨hbs, hbsh, hbl, hba⟩ := boosted_base (j := j) hboost (hi.clock j)
      have hact : Active k j := (hi.active j).mp (by
        unfold Active at hj ⊢
        rwa [hpj, hbs, ht.cont] at hj)
      rw [hpj]
      exact .keep hact hch hbsh hbl hba
  | exit i k₁ k₂ he hi hst hcont hu hk' =>
    subst hk'
    have hk2 : k₂.proc = k₁.proc ∧ k₂.cont = k₁.cont := by
      rcases unschedule_ok hst hu with ⟨-, l, q, -, -, rfl⟩ | ⟨-, st, -, rfl⟩ <;> exact ⟨rfl, rfl⟩
    have hji : j ≠ i := by
      rintro rfl
      have := hj.1
      simp [ProcState.Live] at this
    have hp : (k₂.set i fun p => { p with state := .ZOMBIE }).proc j = k₁.proc j := by
      simp [hji, hk2.1]
    have hact : Active k j := (hi.active j).mp (by
      unfold Active at hj ⊢
      simpa [hp, hji, hk2] using hj)
    have hcl := hi.clock j
    have hb := base_eq (exit_not_boosting he) j
    refine .keep hact (exit_not_charges he j) ?_ ?_ ?_
    · exact (congrArg Proc.share hp).trans hcl.share
    · exact (congrArg Proc.lev hp).trans (hcl.lev.trans (by rw [hb]))
    · exact (congrArg Proc.time_allotment hp).trans (hcl.time_allotment.trans (by rw [hb]))
  | sysYield i ha hc hci hk' =>
    subst hk'
    have hq : Quiet k ((k.set i fun p => { p with from_trap := false }).setCont i .yieldCall) :=
      (Quiet.set (.of_eq rfl rfl rfl)).moved (by simp [hci, Cont.allocating])
    refine .of_same ((hq.active j).mp hj) (by simp [ha]) (by simp [ha]) ?_ ?_ ?_
    all_goals
      by_cases hji : j = i
      · subst hji; simp
      · simp [hji]
  | yield i ha hc hci hy =>
    obtain ⟨p', hyd, hproc, ht, -⟩ := yield_ok hy
    by_cases hji : j = i
    · subst hji
      rw [hproc, Function.update_self]
      exact .yield (h.cur_active hc) ha hc hyd
    · have hp : k'.proc j = k.proc j := by rw [hproc]; simp [hji]
      have hact : Active k j := active_of_cont hj hp fun m hm => by
        rw [ht.cont]
        by_cases hmi : m = i
        · subst hmi; rw [hci] at hm; cases hm
        · simpa [hmi] using hm
      have hb := base_eq (k := k) (a := a) (not_boosting (by simp [ha])) j
      refine .keep hact ?_ (by rw [hp]) (by rw [hp, hb]) (by rw [hp, hb])
      rintro (⟨-, user, e, -⟩ | ⟨-, hcj⟩)
      · rw [ha] at e; cases e
      · exact hji (Option.some.inj (hcj.symm.trans hc))
  | reserve i s ha hc hci hr =>
    obtain ⟨st, l, q, -, -, -, hproc, -, -, -, -, hcont⟩ := setShareLocked_ok hr
    have hnt : ∀ user, a ≠ .timer user := by simp [ha]
    by_cases hji : j = i
    · subst hji
      exact .reserve s (h.cur_active hc) (not_boosting hnt) (not_charges hnt (by simp [ha]) j)
        (by simp [hproc]) (by simp [hproc]) (by simp [hproc])
    · have hp : k'.proc j = k.proc j := by rw [hproc]; simp [hji]
      have hact : Active k j := active_of_cont hj hp fun m hm => by
        rw [hcont]
        by_cases hmi : m = i
        · subst hmi; rw [hci] at hm; cases hm
        · simpa [hmi] using hm
      exact .of_same hact hnt (by simp [ha]) (by rw [hp]) (by rw [hp]) (by rw [hp])
  | fill i np ha hc hci hk' =>
    have hact := ((kalloc_quiet h hci true).active j).mp (by rw [hk'] at hj; exact hj)
    have hji : j ≠ np := by
      rintro rfl
      exact hact.2 i (by rw [hci]; rfl)
    have hp : k'.proc j = k.proc j := by rw [hk']; simp [Kernel.allocInit, hji]
    exact .of_same hact (by simp [ha]) (by simp [ha]) (by rw [hp]) (by rw [hp]) (by rw [hp])
  | enqueue i np ha hc hci he =>
    simp only [Kernel.allocEnqueue, bind_ok, enqueue_ok, pure_ok] at he
    obtain ⟨_, ⟨l, q, -, -, rfl⟩, rfl⟩ := he
    have hnt : ∀ user, a ≠ .timer user := by simp [ha]
    rcases (allocEnqueue_active ((k.setQueue l q).setCont i (.forkCopy np)) h hci rfl rfl j).mp hj with
      hact | rfl
    · exact .of_same hact hnt (by simp [ha]) rfl rfl rfl
    · exact .fresh i hci (not_boosting hnt) (not_charges hnt (by simp [ha]) j) rfl
  | discard i np ha hc hci hk' =>
    have hji : j ≠ np := by
      rintro rfl
      have := hj.1
      rw [hk'] at this
      simp [Kernel.copyuvm, ProcState.Live] at this
    have hp : k'.proc j = k.proc j := by rw [hk']; simp [Kernel.copyuvm, hji]
    have hact : Active k j := active_of_cont hj hp fun m hm => by
      rw [hk']
      by_cases hmi : m = i
      · subst hmi; rw [hci] at hm; cases hm
      · simpa [Kernel.copyuvm, hmi] using hm
    exact .of_same hact (by simp [ha]) (by simp [ha]) (by rw [hp]) (by rw [hp]) (by rw [hp])

/-! ## Stride processes and boosts -/

/-- The clock of a process with a share. -/
def Proc.Strides (p : Proc) : Prop :=
  p.lev = STRIDE_LEV ∧ 1 ≤ p.time_allotment ∧ p.time_allotment ≤ STRIDE_DEFAULT_TIME_QUANTOM

/-- Every active process with a share has the stride level and a stride allotment. -/
def Immune (k : Kernel) : Prop := ∀ i, Active k i → 0 < (k.proc i).share → (k.proc i).Strides

/-- A boost finds no process with a share. -/
def BoostSafe (k : Kernel) (a : Action) : Prop :=
  Boosting k a → ∀ j, Active k j → (k.proc j).share ≤ 0

instance (k : Kernel) (a : Action) : Decidable (BoostSafe k a) :=
  inferInstanceAs (Decidable (_ → _))

theorem stride_quantom {q : Int} (h : time_quantom STRIDE_LEV = .ok q) : q = 5 :=
  (Except.ok.inj h).symm

theorem stride_allotment {b : Int} (h : time_allotment STRIDE_LEV = .ok b) : b = 5 :=
  (Except.ok.inj h).symm

/-- An allotment that `yield` has refilled. -/
theorem Yields.strides {p p' : Proc} (h : Yields p p') (hs : p.share ≠ 0) (hl : p.lev = STRIDE_LEV) :
    p'.Strides := by
  obtain ⟨hl', ha⟩ := h.stride hs
  rw [hl] at ha hl'
  have := stride_allotment ha
  exact ⟨hl', by omega, by unfold STRIDE_DEFAULT_TIME_QUANTOM; omega⟩

theorem Immune.clockStep (h : Immune k) (hg : BoostSafe k a) {p' : Proc} (hs : 0 < p'.share)
    (hw : Wf k) (e : ClockStep k a j p') : p'.Strides := by
  have h5 : STRIDE_DEFAULT_TIME_QUANTOM = 5 := rfl
  -- a step that boosts leaves the shares, so no active process has one
  have hbase : Active k j → 0 < (k.proc j).share → k.base a j = k.proc j := fun ha hs =>
    base_eq (fun hb => absurd (hg hb j ha) (by omega)) j
  have hsh : (k.base a j).share = (k.proc j).share := by
    unfold Kernel.base
    split <;> rfl
  cases e with
  | keep ha _ hsh hl hta =>
    rw [hsh] at hs
    rw [hbase ha hs] at hl hta
    unfold Proc.Strides
    rw [hl, hta]
    exact h j ha hs
  | fresh i hi _ _ hp =>
    rw [hp, (hw.fresh i j (by rw [hi]; rfl) (by rw [hi]; simp)).1] at hs
    omega
  | reserve s _ _ _ _ hl hta => exact ⟨hl, by omega, by omega⟩
  | tick q ha _ hq _ hm hp =>
    subst hp
    have hs' : 0 < (k.proc j).share := by
      dsimp only [Proc.ticked] at hs
      rwa [hsh] at hs
    rw [hbase ha hs'] at hq hm ⊢
    obtain ⟨hl, h1, h2⟩ := h j ha hs'
    rw [hl] at hq
    obtain rfl := stride_quantom hq
    have hr := @int32_of_range ((k.proc j).time_allotment - 1)
    simp only [Proc.ticked] at hm ⊢
    rw [hr (by omega)] at hm
    refine ⟨hl, ?_, ?_⟩ <;> dsimp only <;> rw [hr (by omega)]
    · by_contra hlt
      have : (k.proc j).time_allotment - 1 = 0 := by omega
      rw [this] at hm
      exact hm rfl
    · omega
  | tickYield q ha _ _ _ _ hy =>
    have hs' : 0 < (k.proc j).share := by
      rw [hy.share] at hs
      dsimp only [Proc.ticked] at hs
      rwa [hsh] at hs
    have hl := (h j ha hs').1
    have hne : (k.proc j).share ≠ 0 := by omega
    rw [hbase ha hs'] at hy
    exact hy.strides hne hl
  | yield ha _ _ hy =>
    rw [hy.share] at hs
    have hne : (k.proc j).share ≠ 0 := by omega
    exact hy.strides hne (h j ha hs).1

theorem immune_boot : Immune Kernel.boot := fun i _ hs => by
  rw [(boot_proc i).2.2] at hs
  omega

/-- **Immunity to boosts**: in every run in which no boost finds a process with a
share, every such process has the stride level and an allotment of 1 to 5. -/
theorem immune_of_safe {k : Kernel} (h : Reachable BoostSafe k) : Immune k := by
  have hi : Wf k ∧ Immune k := h.invariant (I := fun k => Wf k ∧ Immune k) ⟨Wf.boot, immune_boot⟩
    fun k a k' ⟨hw, hi⟩ hg hs => ⟨hw.step hs, fun j hj hsh =>
      hi.clockStep hg hsh hw ((step_effect hw hs).clockStep hw hj)⟩
  exact hi.2

end

/-- After one tick as an MLFQ process, the first process takes a share of 20; the
next tick finds it running. -/
def shareTickRun : List Action :=
  [.schedule, .timer false, .schedule, .setCpuShare 20, .setShareLocked, .timer false]

theorem immune_of_safe_shareTick : ∃ k, exec step BoostSafe Kernel.boot shareTickRun = some k ∧
    ((k.proc 0).share = 20 ∧ (k.proc 0).time_allotment = 4) ∧ Immune k := by
  obtain ⟨k, hk, hr, hp⟩ := Reach.of_any step BoostSafe Kernel.boot
    (fun k => (k.proc 0).share = 20 ∧ (k.proc 0).time_allotment = 4) shareTickRun (by decide +kernel)
  exact ⟨k, hk, hp, immune_of_safe hr⟩

/-- Without the first tick `MLFQ_ticks` is 0, and the tick boosts. -/
def boostedShareRun : List Action := [.schedule, .setCpuShare 20, .setShareLocked, .timer false]

theorem boostedShare_not_immune : ∃ k, exec step Always Kernel.boot boostedShareRun = some k ∧
    Reachable Always k ∧ (k.proc 0).lev = 0 ∧ ¬ Immune k := by
  obtain ⟨k, hk, hr, ha, hs, hl⟩ := Reach.of_any step Always Kernel.boot
    (fun k => Active k 0 ∧ 0 < (k.proc 0).share ∧ (k.proc 0).lev = 0) boostedShareRun
    (by decide +kernel)
  exact ⟨k, hk, hr, hl, fun h => absurd ((h 0 ha hs).1.symm.trans hl) (by decide)⟩

end Xv6.Sched
