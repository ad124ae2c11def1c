import Xv6.Log.Wf

/-!
# Who sleeps on the log

The log with the processes that `begin_op` puts to sleep. Both of its conditions
sleep on `&log`; `end_op` wakes the sleepers when it leaves an operation open, and
after a commit. Nobody sleeps that no such wakeup is still to come for, since an
idle log is empty and admits an operation.
-/

namespace Xv6.Log

open Lib Fs

variable {P : Type} [DecidableEq P]

/-- `begin_op` sleeps: a commit runs, or the log might be exhausted. -/
def State.Full (s : State P) : Prop :=
  s.committing = true ∨ (s.lh.n : Int) + (s.outstanding + 1) * MAXOPBLOCKS > LOGSIZE

instance (s : State P) : Decidable s.Full := inferInstanceAs (Decidable (_ ∨ _))

/-- The log and who sleeps on it. -/
structure Sleepers (P : Type) where
  s : State P
  asleep : P → Bool

namespace Sleepers

inductive Action (P : Type) where
  | log (a : Log.Action P)
  /-- `kill` wakes a sleeping process, which then tests again -/
  | kill (p : P)

/-- Who sleeps after a step of the log. -/
def sleepersAfter (l : Sleepers P) (s' : State P) : Log.Action P → P → Bool
  | .begin_op p => Function.update l.asleep p (decide l.s.Full)
  | .end_op _ => if s'.committing then l.asleep else fun _ => false
  | .commit p => if l.s.cont p = .committed then fun _ => false else l.asleep
  | .crash => fun _ => false
  | _ => l.asleep

def step (l : Sleepers P) : Action P → Except Fault (Sleepers P)
  | .log a =>
    if ∃ p ∈ a.proc?, l.asleep p = true then .error .blocked
    else do
      let s' ← Log.step l.s a
      return ⟨s', l.sleepersAfter s' a⟩
  | .kill p => .ok { l with asleep := Function.update l.asleep p false }

/-- The machine as it comes up with a disk. -/
def poweron (disk : Nat → Block) : Sleepers P := ⟨.poweron disk, fun _ => false⟩

end Sleepers

/-! ## An idle log is empty -/

/-- Where the header in memory has no blocks. -/
structure Emptied (s : State P) : Prop where
  idle : s.phase = .running → s.outstanding = 0 → s.committing = false → s.lh.n = 0
  cleared : ∀ p, s.cont p = .erase ∨ s.cont p = .committed → s.lh.n = 0
  boot : s.phase = .erase → s.lh.n = 0

section
variable {s s' : State P} {p : P} {c : Cont}

omit [DecidableEq P] in
/-- Nobody is inside an operation when nothing is outstanding. -/
theorem Turns.not_inOp (h : Turns s) (ho : s.outstanding = 0) (p : P) : ¬ (s.cont p).InOp :=
  fun hp => by
    have := h.outstanding_pos hp
    omega

omit [DecidableEq P] in
theorem Turns.idle_of_commit (h : Turns s) (hp : (s.cont p).InCommit) : s.outstanding = 0 := by
  obtain ⟨L, -, hL, ho⟩ := h.active
  have hnil : L = [] := List.eq_nil_iff_forall_not_mem.mpr fun q hq =>
    h.alone (h.committing.mpr ⟨p, hp⟩) q ((hL q).mp hq)
  rw [ho, hnil]
  rfl

omit [DecidableEq P] in
theorem Emptied.empty (h : s.lh.n = 0) : Emptied s := ⟨fun _ _ _ => h, fun _ _ => h, fun _ => h⟩

omit [DecidableEq P] in
/-- Nothing is asked of the header while operations are open. -/
theorem Emptied.of_open (ht : Turns s) (ho : s.outstanding ≠ 0) (hrun : s.phase = .running) :
    Emptied s where
  idle _ h0 := absurd h0 ho
  cleared p hp := by
    have hin : (s.cont p).InCommit := by rcases hp with e | e <;> rw [e] <;> trivial
    exact absurd (ht.idle_of_commit hin) ho
  boot hp := by rw [hrun] at hp; cases hp

omit [DecidableEq P] in
/-- Nor while the log is read or installed at boot. -/
theorem Emptied.of_offline (hi : ∀ p, s.cont p = .idle) (hr : s.phase ≠ .running)
    (he : s.phase ≠ .erase) : Emptied s where
  idle hp := absurd hp hr
  cleared p hp := by
    rw [hi p] at hp
    rcases hp with e | e <;> cases e
  boot hp := absurd hp he

/-- A process goes on in `commit`. -/
theorem Emptied.committing (h : Emptied s) (hc : s'.cont = Function.update s.cont p c)
    (hn : s'.lh.n = s.lh.n) (hph : s'.phase = .running) (hcl : ¬ (c = .erase ∨ c = .committed))
    (hcm : s'.committing = true) : Emptied s' where
  idle _ _ hf := by rw [hcm] at hf; cases hf
  cleared q hq := by
    rw [hn]
    rw [hc] at hq
    by_cases hqp : q = p
    · subst hqp
      rw [Function.update_self] at hq
      exact absurd hq hcl
    · rw [Function.update_of_ne hqp] at hq
      exact h.cleared q hq
  boot hp := by rw [hph] at hp; cases hp

theorem Emptied.begin_op (h : Emptied s) (ht : Turns s) (ht' : Turns (s.begin_op p))
    (hrun : s.phase = .running) : Emptied (s.begin_op p) := by
  obtain ⟨L, -, -, ho⟩ := ht.active
  unfold State.begin_op at ht' ⊢
  split
  · exact h
  · next hc =>
    split
    · exact h
    · next hf =>
      rw [if_neg hc, if_neg hf] at ht'
      refine .of_open ht' ?_ hrun
      show s.outstanding + 1 ≠ 0
      omega

theorem Emptied.end_op (h : Emptied s) (ht' : Turns s') (hrun : s.phase = .running)
    (he : s.end_op p = .ok s') : Emptied s' := by
  simp only [State.end_op] at he
  split at he
  · cases he
  · split at he
    · cases he
      exact h.committing (p := p) rfl rfl hrun (by simp) rfl
    · next ho =>
      cases he
      exact .of_open ht' ho hrun

theorem Emptied.commitStep (h : Emptied s) (ht : Turns s) (hrun : s.phase = .running)
    (hs : s.commitStep p (s.cont p) = .ok s') : Emptied s' := by
  have hcm : (s.cont p).InCommit → s.committing = true := fun hp => ht.committing.mpr ⟨p, hp⟩
  cases hc : s.cont p <;> rw [hc] at hs hcm <;> simp only [State.commitStep] at hs
  case idle => cases hs
  case inOp => cases hs
  case append => cases hs
  case commit =>
    cases hs
    by_cases hn : s.lh.n > 0
    · rw [if_pos hn]
      exact h.committing (p := p) rfl rfl hrun (by simp) (hcm trivial)
    · exact .empty (s := s.setCont p _) (by show s.lh.n = 0; omega)
  case writeLog t =>
    split at hs
    · cases hs
      exact h.committing (p := p) rfl rfl hrun (by simp) (hcm trivial)
    · cases hs
      exact h.committing (p := p) rfl rfl hrun (by simp) (hcm trivial)
  case writeHead =>
    cases hs
    exact h.committing (p := p) rfl rfl hrun (by simp) (hcm trivial)
  case install t =>
    split at hs
    · cases hs
      exact h.committing (p := p) rfl rfl hrun (by simp) (hcm trivial)
    · cases hs
      exact .empty rfl
  case erase =>
    cases hs
    exact .empty (s := s.write_head.setCont p _) (h.cleared p (.inl hc))
  case committed =>
    cases hs
    exact .empty (s := { s.setCont p .idle with committing := false }) (h.cleared p (.inr hc))

omit [DecidableEq P] in
theorem Emptied.recoverStep (h : Emptied s) (ht : Turns s)
    (hs : s.recoverStep s.phase = .ok s') : Emptied s' := by
  obtain ⟨hph, hc, -, -⟩ := recoverStep_frame hs
  have hidle : ∀ p, s'.cont p = .idle := fun p => by rw [hc]; exact ht.offline hph p
  cases hp : s.phase <;> rw [hp] at hs <;> simp only [State.recoverStep] at hs
  case boot =>
    obtain ⟨s1, h1, hs⟩ := bind_ok.mp hs
    cases hs
    exact .of_offline hidle (by simp) (by simp)
  case install t =>
    split at hs
    · cases hs
      exact .of_offline hidle (by simp) (by simp)
    · cases hs
      exact .empty rfl
  case erase =>
    cases hs
    exact .empty (s := { s.write_head with phase := .running }) (h.boot hp)
  case running => cases hs

theorem Emptied.step (h : Emptied s) (ht : Turns s) {a : Action P} (hs : Log.step s a = .ok s') :
    Emptied s' := by
  have ht' := ht.step hs
  cases step_move hs with
  | crash => exact .empty rfl
  | recover hr => exact h.recoverStep ht hr
  | begin_op hrun hc => exact h.begin_op ht ht' hrun
  | log_write hrun hc hb hn =>
    have hpos := ht.outstanding_pos (by rw [hc]; trivial)
    exact .of_open ht' (show s.outstanding ≠ 0 by omega) hrun
  | append hrun hc hr =>
    have hpos := ht.outstanding_pos (by rw [hc]; trivial)
    exact .of_open ht' (show s.outstanding ≠ 0 by omega) hrun
  | end_op hrun hc he => exact h.end_op ht' hrun he
  | commit hrun hm => exact h.commitStep ht hrun hm

/-- Before its end, a commit goes on as a commit. -/
theorem commitStep_stays (hs : s.commitStep p (s.cont p) = .ok s') (hp : s.cont p ≠ .committed) :
    ∃ c, s'.cont = Function.update s.cont p c ∧ c.InCommit ∧ s'.phase = s.phase := by
  cases hc : s.cont p <;> rw [hc] at hs <;> simp only [State.commitStep] at hs
  case idle => cases hs
  case inOp => cases hs
  case append => cases hs
  case commit =>
    cases hs
    refine ⟨_, rfl, ?_, rfl⟩
    split <;> trivial
  case writeLog t => split at hs <;> cases hs <;> exact ⟨_, rfl, trivial, rfl⟩
  case writeHead => cases hs; exact ⟨_, rfl, trivial, rfl⟩
  case install t => split at hs <;> cases hs <;> exact ⟨_, rfl, trivial, rfl⟩
  case erase => cases hs; exact ⟨_, rfl, trivial, rfl⟩
  case committed => exact absurd hc hp

end

/-! ## Nobody is stranded -/

namespace Sleepers

structure Inv (l : Sleepers P) : Prop where
  turns : Turns l.s
  emptied : Emptied l.s
  idle : ∀ p, l.asleep p = true → l.s.phase = .running ∧ l.s.cont p = .idle
  waited : ∀ p, l.asleep p = true → l.s.committing = true ∨ 0 < l.s.outstanding

section
variable {l l' : Sleepers P} {s' : State P} {p : P}

omit [DecidableEq P] in
theorem inv_poweron (disk : Nat → Block) : Inv (poweron disk : Sleepers P) where
  turns := .of_idle (fun _ => rfl) rfl rfl
  emptied := .empty rfl
  idle p hp := by cases hp
  waited p hp := by cases hp

omit [DecidableEq P] in
/-- A log that makes a process sleep is not idle. -/
theorem Inv.of_full (h : Inv l) (hrun : l.s.phase = .running) (hf : l.s.Full) :
    l.s.committing = true ∨ 0 < l.s.outstanding := by
  rcases hf with hc | hn
  · exact .inl hc
  · by_contra hno
    simp only [not_or, Bool.not_eq_true, not_lt] at hno
    obtain ⟨L, -, -, ho⟩ := h.turns.active
    have h0 : l.s.outstanding = 0 := by omega
    have hempty : l.s.lh.n = 0 := h.emptied.idle hrun h0 hno.1
    rw [hempty, h0] at hn
    revert hn
    decide

theorem begin_op_full (hf : l.s.Full) : l.s.begin_op p = l.s := by
  unfold State.begin_op
  rcases hf with hc | hn
  · rw [if_pos hc]
  · rw [if_pos hn]
    split <;> rfl

theorem begin_op_admits (hf : ¬ l.s.Full) :
    l.s.begin_op p = { l.s.setCont p .inOp with outstanding := l.s.outstanding + 1 } := by
  have hc : ¬ l.s.committing = true := fun e => hf (.inl e)
  have hn : ¬ (l.s.lh.n : Int) + (l.s.outstanding + 1) * MAXOPBLOCKS > LOGSIZE := fun e => hf (.inr e)
  rw [State.begin_op, if_neg hc, if_neg hn]

/-- A step of a process that does not sleep, which others sleep through. -/
theorem Inv.sleepThrough (h : Inv l) (ht : Turns s') (he : Emptied s') {c : Cont}
    (hp : l.s.cont p ≠ .idle) (hc : s'.cont = Function.update l.s.cont p c)
    (hph : s'.phase = l.s.phase) (hw : s'.committing = true ∨ 0 < s'.outstanding) :
    Inv ⟨s', l.asleep⟩ where
  turns := ht
  emptied := he
  idle q hq := by
    obtain ⟨hrun, hi⟩ := h.idle q hq
    have hqp : q ≠ p := by rintro rfl; exact hp hi
    refine ⟨hph.trans hrun, ?_⟩
    show s'.cont q = .idle
    rw [hc, Function.update_of_ne hqp]
    exact hi
  waited _ _ := hw

omit [DecidableEq P] in
theorem Inv.allAwake (ht : Turns s') (he : Emptied s') : Inv ⟨s', fun _ => false⟩ where
  turns := ht
  emptied := he
  idle p hp := by cases hp
  waited p hp := by cases hp

theorem Inv.begin_op (h : Inv l) (ht : Turns (l.s.begin_op p)) (he : Emptied (l.s.begin_op p))
    (hrun : l.s.phase = .running) (hi : l.s.cont p = .idle) :
    Inv ⟨l.s.begin_op p, Function.update l.asleep p (decide l.s.Full)⟩ := by
  by_cases hf : l.s.Full
  · refine ⟨ht, he, fun q hq => ?_, fun q hq => ?_⟩
    · rw [begin_op_full hf]
      by_cases hqp : q = p
      · subst hqp; exact ⟨hrun, hi⟩
      · dsimp only at hq
        rw [Function.update_of_ne hqp] at hq
        exact h.idle q hq
    · rw [begin_op_full hf]
      exact h.of_full hrun hf
  · obtain ⟨L, -, -, ho⟩ := h.turns.active
    have hawake : ∀ q, Function.update l.asleep p (decide l.s.Full) q = true →
        q ≠ p ∧ l.asleep q = true := by
      intro q hq
      by_cases hqp : q = p
      · subst hqp
        rw [Function.update_self] at hq
        exact absurd (of_decide_eq_true hq) hf
      · rw [Function.update_of_ne hqp] at hq
        exact ⟨hqp, hq⟩
    refine ⟨ht, he, fun q hq => ?_, fun q _ => ?_⟩
    · obtain ⟨hqp, hq⟩ := hawake q hq
      rw [begin_op_admits hf]
      refine ⟨hrun, ?_⟩
      show Function.update l.s.cont p .inOp q = .idle
      rw [Function.update_of_ne hqp]
      exact (h.idle q hq).2
    · rw [begin_op_admits hf]
      right
      show 0 < l.s.outstanding + 1
      omega

theorem Inv.end_op (h : Inv l) (ht : Turns s') (he : Emptied s') (hi : l.s.cont p = .inOp)
    (hs : l.s.end_op p = .ok s') :
    Inv ⟨s', if s'.committing then l.asleep else fun _ => false⟩ := by
  split
  · next hc =>
    simp only [State.end_op] at hs
    split at hs
    · cases hs
    · split at hs
      · cases hs
        exact h.sleepThrough (p := p) ht he (by rw [hi]; decide) rfl rfl (.inl hc)
      · cases hs
        exact h.sleepThrough (p := p) ht he (by rw [hi]; decide) rfl rfl (.inl hc)
  · exact .allAwake ht he

theorem Inv.commit (h : Inv l) (ht : Turns s') (he : Emptied s')
    (hs : l.s.commitStep p (l.s.cont p) = .ok s') :
    Inv ⟨s', if l.s.cont p = .committed then fun _ => false else l.asleep⟩ := by
  split
  · exact .allAwake ht he
  · next hp =>
    obtain ⟨c, hc, hin, hph⟩ := commitStep_stays hs hp
    have hcm : s'.committing = true :=
      ht.committing.mpr ⟨p, by rw [hc, Function.update_self]; exact hin⟩
    refine h.sleepThrough ht he ?_ hc hph (.inl hcm)
    intro hi
    rw [hi] at hs
    cases hs

theorem Inv.step (h : Inv l) {a : Action P} (hs : Sleepers.step l a = .ok l') : Inv l' := by
  cases a with
  | kill p =>
    cases hs
    have hsub : ∀ q, Function.update l.asleep p false q = true → l.asleep q = true := by
      intro q hq
      by_cases hqp : q = p
      · subst hqp; simp at hq
      · simpa [hqp] using hq
    exact ⟨h.turns, h.emptied, fun q hq => h.idle q (hsub q hq), fun q hq => h.waited q (hsub q hq)⟩
  | log a =>
    simp only [Sleepers.step] at hs
    split at hs
    · cases hs
    obtain ⟨s', h1, hs⟩ := bind_ok.mp hs
    cases hs
    have ht := h.turns.step h1
    have he := h.emptied.step h.turns h1
    cases step_move h1 with
    | crash => exact .allAwake ht he
    | recover hr =>
      -- nobody sleeps before the log is recovered
      have hno : ∀ p, l.asleep p ≠ true := fun p hp => (recoverStep_frame hr).1 (h.idle p hp).1
      exact ⟨ht, he, fun p hp => absurd hp (hno p), fun p hp => absurd hp (hno p)⟩
    | begin_op hrun hi => exact h.begin_op ht he hrun hi
    | log_write hrun hc =>
      have hpos := h.turns.outstanding_pos (by rw [hc]; trivial)
      refine h.sleepThrough ht he (by rw [hc]; decide) rfl rfl (.inr ?_)
      show 0 < l.s.outstanding
      omega
    | append hrun hc =>
      have hpos := h.turns.outstanding_pos (by rw [hc]; trivial)
      refine h.sleepThrough ht he (by rw [hc]; simp) rfl rfl (.inr ?_)
      show 0 < l.s.outstanding
      omega
    | end_op hrun hc hm => exact h.end_op ht he hc hm
    | commit hrun hm => exact h.commit ht he hm

omit [DecidableEq P] in
/-- Somebody is at work in a log that is not idle. -/
theorem Inv.busy (h : Inv l) (hw : l.s.committing = true ∨ 0 < l.s.outstanding) :
    ∃ q, (l.s.cont q).InCommit ∨ (l.s.cont q).InOp := by
  rcases hw with hc | ho
  · obtain ⟨q, hq⟩ := h.turns.committing.mp hc
    exact ⟨q, .inl hq⟩
  · obtain ⟨L, -, hL, hlen⟩ := h.turns.active
    obtain ⟨q, hq⟩ := List.exists_mem_of_ne_nil L (by rintro rfl; simp [hlen] at ho)
    exact ⟨q, .inr ((hL q).mp hq)⟩

/-- **Admission**: in every state that a run reaches, a commit runs alone, with
nothing outstanding; whoever sleeps in `begin_op` waits for another process that is
committing or inside an operation; and the log is empty when idle. -/
theorem admission {disk : Nat → Block} {l : Sleepers P}
    (h : Reach step Always (poweron disk) l) :
    (∀ p, (l.s.cont p).InCommit → l.s.outstanding = 0 ∧ ∀ q, ¬ (l.s.cont q).InOp) ∧
    (∀ p q, (l.s.cont p).InCommit → (l.s.cont q).InCommit → p = q) ∧
    (∀ p, l.asleep p = true → (l.s.committing = true ∨ 0 < l.s.outstanding) ∧
      ∃ q, q ≠ p ∧ ((l.s.cont q).InCommit ∨ (l.s.cont q).InOp)) ∧
    (l.s.phase = .running → l.s.outstanding = 0 → l.s.committing = false → l.s.lh.n = 0) := by
  have hI : Inv l := h.invariant (inv_poweron disk) fun _ _ _ hi _ hs => hi.step hs
  refine ⟨fun p hp => ?_, hI.turns.unique, fun p hp => ?_, hI.emptied.idle⟩
  · have h0 := hI.turns.idle_of_commit hp
    exact ⟨h0, hI.turns.not_inOp h0⟩
  · have hw := hI.waited p hp
    obtain ⟨q, hq⟩ := hI.busy hw
    refine ⟨hw, q, ?_, hq⟩
    rintro rfl
    rw [(hI.idle q hp).2] at hq
    rcases hq with e | e <;> exact e

end

/-- Process 0 is inside an operation and processes 1 and 2 as well; process 3 finds
the log too full. -/
def fourOps : List (Action (Fin 4)) :=
  [.log .recover, .log .recover, .log .recover, .log (.begin_op 0), .log (.begin_op 1),
    .log (.begin_op 2), .log (.begin_op 3)]

theorem admission_fourOps : ∃ l, exec step Always (poweron fun _ => .zero) fourOps = some l ∧
    l.asleep 3 = true ∧ ∃ q, q ≠ 3 ∧ ((l.s.cont q).InCommit ∨ (l.s.cont q).InOp) := by
  obtain ⟨l, hl, hr, hp⟩ := Reach.of_any step Always (poweron fun _ => .zero : Sleepers (Fin 4))
    (fun l => l.asleep 3 = true) fourOps (by decide +kernel)
  obtain ⟨-, -, hsleep, -⟩ := admission hr
  exact ⟨l, hl, hp, (hsleep 3 hp).2⟩

end Sleepers

end Xv6.Log
