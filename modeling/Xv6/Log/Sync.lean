import Xv6.Log.Crash

/-!
# `sync`

`sync` returns 0 and does nothing. An operation whose `end_op` has returned is
durable only from the next commit on, and that waits for the operations still
open. `Returns` records which operations have returned; a call of `sync` is a
barrier exactly if none of them has an update outside the committed ones when it
returns.
-/

namespace Xv6.Log

open Lib Fs

variable {P : Type}

/-- `sync`: the state it leaves and the value it returns. -/
def State.sync (s : State P) : State P × Int := (s, 0)

/-- The traced log, with the operations whose `end_op` has returned. -/
structure Returns (P : Type) where
  t : Traced P
  returned : List Nat

namespace Returns

def poweron (disk : Nat → Block) : Returns P := ⟨.poweron disk, []⟩

/-- The state in which a call of `sync` goes on. -/
def sync (r : Returns P) : Returns P := { r with t := { r.t with s := r.t.s.sync.1 } }

variable [DecidableEq P]

/-- The operation that returns with an action that takes the log to `s`. -/
def returns (r : Returns P) (s : State P) : Action P → List Nat
  | .end_op p | .commit p => if s.cont p = .idle then [r.t.op p] else []
  | _ => []

def step (r : Returns P) (a : Action P) : Except Fault (Returns P) := do
  let t ← r.t.step a
  return ⟨t, r.returned ++ r.returns t.s a⟩

/-- The steps in which what `log_write` tested still holds. -/
def Safe (r : Returns P) (a : Action P) : Prop := Rechecked r.t.s a

end Returns

/-- Operation `n` has no update that is not committed. -/
def Traced.Survives (t : Traced P) (n : Nat) : Prop := ∀ u ∈ t.updates, u.op = n → u ∈ t.committed

variable [DecidableEq P]

/-- A call of `sync` in `r₀` that returns in `r₁` is a barrier: whatever happens
later, crashes and recoveries included, what had returned in `r₀` survives. -/
def Barrier (disk : Nat → Block) (r₀ r₁ : Returns P) : Prop :=
  ∀ r, Reach Returns.step Returns.Safe r₁ r → r.t.s.phase = .running → r.t.s.committing = false →
    r.t.Atomic disk ∧ ∀ n ∈ r₀.returned, r.t.Survives n

/-- No operation that had returned in `r₀` has an update that a commit still has
to write in `r₁`, or that a crash has dropped. -/
def Flushed (r₀ r₁ : Returns P) : Prop :=
  ∀ n ∈ r₀.returned, ∀ u ∈ r₁.t.current ++ r₁.t.dropped, u.op ≠ n

/-! ## Returned operations -/

theorem commitStep_inCommit {s s' : State P} {p : P} {c : Cont} (h : s.commitStep p c = .ok s') :
    c.InCommit := by
  cases c with
  | idle | inOp | append => cases h
  | _ => trivial

namespace Returns

/-- An operation that has returned is not entered again. -/
structure Ok (r : Returns P) : Prop where
  lt : ∀ n ∈ r.returned, n < r.t.next
  commit : ∀ p, (r.t.s.cont p).InCommit → r.t.op p < r.t.next
  active : ∀ p, (r.t.s.cont p).InOp → r.t.op p ∉ r.returned
  inj : ∀ p q, (r.t.s.cont p).InOp → (r.t.s.cont q).InOp → r.t.op p = r.t.op q → p = q

theorem step_ok {r r' : Returns P} {a : Action P} : r.step a = .ok r' ↔
    ∃ s, Log.step r.t.s a = .ok s ∧ r' = ⟨r.t.trace s a, r.returned ++ r.returns s a⟩ := by
  simp only [step, bind_ok, pure_ok, Traced.step_ok]
  constructor
  · rintro ⟨t, ⟨s, hs, rfl⟩, rfl⟩
    exact ⟨s, hs, by rw [Traced.trace_s]⟩
  · rintro ⟨s, hs, rfl⟩
    exact ⟨_, ⟨s, hs, rfl⟩, by rw [Traced.trace_s]⟩

section
variable {disk : Nat → Block} {r r' : Returns P}

omit [DecidableEq P] in
theorem Ok.op_lt (h : r.Ok) (hn : r.t.Numbered) {p : P}
    (hp : (r.t.s.cont p).InOp ∨ (r.t.s.cont p).InCommit) : r.t.op p < r.t.next := by
  rcases hp with hp | hp
  · exact (hn.active p hp).1
  · exact h.commit p hp

omit [DecidableEq P] in
/-- A step that enters no operation; `L` are those that return. -/
theorem Ok.move (h : r.Ok) (hn : r.t.Numbered) {t : Traced P} (hop : t.op = r.t.op)
    (hnx : t.next = r.t.next) (hin : ∀ q, (t.s.cont q).InOp → (r.t.s.cont q).InOp)
    (hcm : ∀ q, (t.s.cont q).InCommit → (r.t.s.cont q).InOp ∨ (r.t.s.cont q).InCommit)
    {L : List Nat} (hL : ∀ n ∈ L, ∃ p, n = r.t.op p ∧
      ((r.t.s.cont p).InOp ∨ (r.t.s.cont p).InCommit) ∧
      ∀ q, (t.s.cont q).InOp → r.t.op q ≠ r.t.op p) : Ok ⟨t, r.returned ++ L⟩ where
  lt n hm := by
    show n < t.next
    rw [hnx]
    rcases List.mem_append.mp hm with hm | hm
    · exact h.lt n hm
    · obtain ⟨p, rfl, hp, -⟩ := hL n hm
      exact h.op_lt hn hp
  commit q hq := by
    show t.op q < t.next
    rw [hop, hnx]
    exact h.op_lt hn (hcm q hq)
  active q hq hm := by
    replace hm : t.op q ∈ r.returned ++ L := hm
    rw [hop] at hm
    rcases List.mem_append.mp hm with hm | hm
    · exact h.active q (hin q hq) hm
    · obtain ⟨p, he, -, hp⟩ := hL _ hm
      exact hp q hq he
  inj p q hp hq he := h.inj p q (hin p hp) (hin q hq) (by simpa [hop] using he)

/-- A process that is admitted gets the next number. -/
theorem Ok.begin_op (h : r.Ok) (hn : r.t.Numbered) {s : State P} {p : P}
    (hin : ∀ q, (s.cont q).InOp → (r.t.s.cont q).InOp ∨ q = p)
    (hcm : ∀ q, (s.cont q).InCommit → (r.t.s.cont q).InCommit ∧ q ≠ p) :
    Ok ⟨{ r.t with s := s, op := Function.update r.t.op p r.t.next, next := r.t.next + 1 },
      r.returned⟩ where
  lt n hm := Nat.lt_succ_of_lt (h.lt n hm)
  commit q hq := by
    obtain ⟨hq, hqp⟩ := hcm q hq
    simpa [hqp] using Nat.lt_succ_of_lt (h.commit q hq)
  active q hq hm := by
    by_cases hqp : q = p
    · subst hqp
      exact absurd (h.lt _ hm) (by simp)
    · exact h.active q ((hin q hq).resolve_right hqp) (by simpa [hqp] using hm)
  inj q q' hq hq' he := by
    have hlt : ∀ x, x ≠ p → (s.cont x).InOp → (r.t.s.cont x).InOp ∧ r.t.op x < r.t.next :=
      fun x hx hxin => by
        have := (hin x hxin).resolve_right hx
        exact ⟨this, (hn.active x this).1⟩
    by_cases hqp : q = p
    · by_cases hqp' : q' = p
      · rw [hqp, hqp']
      · have := (hlt q' hqp' hq').2
        simp [hqp, hqp'] at he
        omega
    · by_cases hqp' : q' = p
      · have := (hlt q hqp hq).2
        simp [hqp, hqp'] at he
        omega
      · exact h.inj q q' (hlt q hqp hq).1 (hlt q' hqp' hq').1 (by simpa [hqp, hqp'] using he)

theorem Ok.step {a : Action P} (h : r.Ok) (hI : r.t.Inv disk) (hs : r.step a = .ok r') : r'.Ok := by
  obtain ⟨s, hl, rfl⟩ := step_ok.mp hs
  have hn := hI.numbered
  have ht := hI.wf.turns
  cases step_move hl with
  | crash =>
    exact h.move hn (t := r.t.trace (.poweron r.t.s.disk) .crash) (L := []) rfl rfl
      (fun q hq => False.elim hq) (fun q hq => False.elim hq) (by simp)
  | recover hr =>
    have hc := (recoverStep_frame hr).2.1
    exact h.move hn (t := r.t.trace s .recover) (L := []) rfl rfl
      (fun q hq => by simpa [Traced.trace, hc] using hq)
      (fun q hq => .inr (by simpa [Traced.trace, hc] using hq)) (by simp)
  | @begin_op p hrun hp =>
    obtain ⟨c, hc, -⟩ := begin_op_frame hp
    have hother : ∀ q, q ≠ p → (r.t.s.begin_op p).cont q = r.t.s.cont q := fun q hq => by
      rw [hc, Function.update_of_ne hq]
    simp only [Traced.trace, returns, List.append_nil]
    split
    · next hin =>
      refine h.begin_op hn (fun q hq => ?_) fun q hq => ?_
      · by_cases hqp : q = p
        · exact .inr hqp
        · exact .inl (hother q hqp ▸ hq)
      · have hqp : q ≠ p := by
          rintro rfl
          rw [hin] at hq
          exact hq
        exact ⟨hother q hqp ▸ hq, hqp⟩
    · next hno =>
      -- the caller sleeps
      have hcp : (r.t.s.begin_op p).cont p = .idle := by
        unfold State.begin_op at hno ⊢
        split
        · exact hp
        · split
          · exact hp
          · next h1 h2 => simp [h1, h2, State.setCont] at hno
      have hall : (r.t.s.begin_op p).cont = r.t.s.cont := funext fun q => by
        by_cases hqp : q = p
        · subst hqp; rw [hcp, hp]
        · exact hother q hqp
      have := h.move hn (t := { r.t with s := r.t.s.begin_op p }) rfl rfl
        (fun q hq => by simpa [hall] using hq) (fun q hq => .inr (by simpa [hall] using hq))
        (L := []) (by simp)
      simpa using this
  | @log_write p b d hrun hp hb hlt =>
    refine h.move hn (t := r.t.trace _ (.log_write p b d)) (L := []) rfl rfl (fun q hq => ?_)
      (fun q hq => ?_) (by simp)
    · by_cases hqp : q = p
      · subst hqp; rw [hp]; trivial
      · simpa [Traced.trace, State.setCont, hqp] using hq
    · by_cases hqp : q = p
      · subst hqp; exact .inl (by rw [hp]; trivial)
      · exact .inr (by simpa [Traced.trace, State.setCont, hqp] using hq)
  | @append p b lh hrun hp hr =>
    refine h.move hn (t := r.t.trace ({ r.t.s with lh := lh }.setCont p .inOp) (.append p))
      (L := []) rfl rfl (fun q hq => ?_) (fun q hq => ?_) (by simp)
    · by_cases hqp : q = p
      · subst hqp; rw [hp]; trivial
      · simpa [Traced.trace, State.setCont, hqp] using hq
    · by_cases hqp : q = p
      · subst hqp; exact .inl (by rw [hp]; trivial)
      · exact .inr (by simpa [Traced.trace, State.setCont, hqp] using hq)
  | @end_op p s' hrun hp he =>
    have hin : (r.t.s.cont p).InOp := by rw [hp]; trivial
    obtain ⟨c, hc, hno⟩ : ∃ c, s.cont = Function.update r.t.s.cont p c ∧ ¬ c.InOp := by
      simp only [State.end_op] at he
      split at he
      · cases he
      · split at he <;> cases he <;> exact ⟨_, rfl, id⟩
    have hq : ∀ q, (s.cont q).InOp → (r.t.s.cont q).InOp ∧ q ≠ p := fun q hq => by
      have hqp : q ≠ p := by
        rintro rfl
        exact hno (by simpa [hc] using hq)
      exact ⟨by simpa [hc, hqp] using hq, hqp⟩
    refine h.move hn (t := r.t.trace s (.end_op p)) rfl rfl (fun q h => (hq q h).1) (fun q h => ?_) fun n hm => ?_
    · by_cases hqp : q = p
      · subst hqp; exact .inl hin
      · exact .inr (by simpa [Traced.trace, hc, hqp] using h)
    · simp only [returns] at hm
      split at hm
      · refine ⟨p, List.mem_singleton.mp hm, .inl hin, fun q hqin hqe => ?_⟩
        exact (hq q hqin).2 (h.inj q p (hq q hqin).1 hin hqe)
      · cases hm
  | @commit p s' hrun hm =>
    obtain ⟨c, hc, hno, -⟩ := commitStep_frame hm
    have hcp := commitStep_inCommit hm
    -- a commit runs alone
    have halone : ∀ q, ¬ (r.t.s.cont q).InOp := ht.alone (ht.committing.mpr ⟨p, hcp⟩)
    have hq : ∀ q, ¬ (s.cont q).InOp := fun q hq => by
      by_cases hqp : q = p
      · subst hqp; exact hno (by simpa [hc] using hq)
      · exact halone q (by simpa [hc, hqp] using hq)
    have htr : (r.t.trace s (.commit p)).op = r.t.op ∧ (r.t.trace s (.commit p)).next = r.t.next := by
      simp only [Traced.trace]
      split <;> exact ⟨rfl, rfl⟩
    refine h.move hn htr.1 htr.2 (fun q h => absurd (by simpa using h) (hq q)) (fun q h => ?_) fun n hm => ?_
    · by_cases hqp : q = p
      · subst hqp; exact .inr hcp
      · exact .inr (by simpa [hc, hqp] using h)
    · simp only [returns] at hm
      split at hm
      · exact ⟨p, List.mem_singleton.mp hm, .inr hcp, fun q hqin => absurd (by simpa using hqin) (hq q)⟩
      · cases hm

/-! ## Updates of operations that have returned -/

/-- The operations of `R` have returned, and all their updates are committed. -/
structure Done (R : List Nat) (r : Returns P) : Prop where
  returned : ∀ n ∈ R, n ∈ r.returned
  flushed : ∀ n ∈ R, ∀ u ∈ r.t.current ++ r.t.dropped, u.op ≠ n

theorem Done.step {R : List Nat} {a : Action P} (h : Done R r) (ho : r.Ok)
    (hs : r.step a = .ok r') : Done R r' := by
  obtain ⟨s, hl, rfl⟩ := step_ok.mp hs
  refine ⟨fun n hn => List.mem_append_left _ (h.returned n hn), fun n hn u hu => ?_⟩
  cases a with
  | crash =>
    refine h.flushed n hn u ?_
    simp only [Traced.trace, List.nil_append, List.mem_append] at hu ⊢
    exact hu.symm
  | log_write p b d =>
    simp only [Traced.trace, List.mem_append, List.mem_singleton] at hu
    rcases hu with (hu | rfl) | hu
    · exact h.flushed n hn u (List.mem_append_left _ hu)
    · -- the caller is in an operation, which has not returned
      have hp : r.t.s.cont p = .inOp := by cases step_move hl; assumption
      rintro rfl
      exact ho.active p (by rw [hp]; trivial) (h.returned _ hn)
    · exact h.flushed n hn u (List.mem_append_right _ hu)
  | begin_op p =>
    simp only [Traced.trace] at hu
    split at hu <;> exact h.flushed n hn u hu
  | commit p =>
    simp only [Traced.trace] at hu
    split at hu
    · exact h.flushed n hn u (List.mem_append_right _ (by simpa using hu))
    · exact h.flushed n hn u hu
  | append => exact h.flushed n hn u hu
  | end_op => exact h.flushed n hn u hu
  | recover => exact h.flushed n hn u hu

/-- What reachable states have. -/
structure Good (disk : Nat → Block) (r : Returns P) : Prop where
  inv : r.t.Inv disk
  ok : r.Ok

theorem Good.step {a : Action P} (h : Good disk r) (hG : Safe r a) (hs : r.step a = .ok r') :
    Good disk r' := by
  refine ⟨?_, h.ok.step h.inv hs⟩
  obtain ⟨s, hl, rfl⟩ := step_ok.mp hs
  exact h.inv.step hG (Traced.step_ok.mpr ⟨s, hl, rfl⟩)

theorem Good.reach (h : Good disk r) (hr : Reach Returns.step Safe r r') : Good disk r' :=
  hr.invariant h fun _ _ _ hi hG hs => hi.step hG hs

theorem Done.reach {R : List Nat} (hd : Done R r) (h : Good disk r) 
    (hr : Reach Returns.step Safe r r') : Done R r' := by
  have := hr.invariant (I := fun r => Good disk r ∧ Done R r) ⟨h, hd⟩
    fun _ _ _ hi hG hs => ⟨hi.1.step hG hs, hi.2.step hi.1.ok hs⟩
  exact this.2

/-! ## Recovery -/

/-- One step of recovery changes nothing but the log. -/
theorem recover_step {s : State P} (hs : r.t.s.recoverStep r.t.s.phase = .ok s) :
    r.step .recover = .ok { r with t := { r.t with s := s } } :=
  step_ok.mpr ⟨s, hs, by simp [Traced.trace, returns]⟩

theorem recover_reach {s : State P} (hr : Reach step Safe r' r)
    (hs : r.t.s.recoverStep r.t.s.phase = .ok s) :
    Reach step Safe r' { r with t := { r.t with s := s } } :=
  hr.step .recover (by rintro p b ⟨⟩) (recover_step hs)

/-- The loop of `install_trans` ends, and recovery with it. -/
theorem install_reach : ∀ (m k : Nat) (r : Returns P), Reach step Safe r' r →
    r.t.s.phase = .install k → r.t.s.lh.n ≤ k + m → ∃ s : State P,
      Reach step Safe r' { r with t := { r.t with s := s } } ∧ s.phase = .running ∧
      s.committing = r.t.s.committing
  | 0, k, r, hr, hp, hn => by
    have h1 := recover_reach (s := { r.t.s.clear with phase := .erase }) hr
      (by rw [hp, State.recoverStep, if_neg (by omega)])
    have h2 := recover_reach (s := { r.t.s.clear.write_head with phase := .running }) h1 rfl
    exact ⟨_, h2, rfl, rfl⟩
  | m + 1, k, r, hr, hp, hn => by
    by_cases hk : k < r.t.s.lh.n
    · have h1 := recover_reach (s := { r.t.s.install k with phase := .install (k + 1) }) hr
        (by rw [hp, State.recoverStep, if_pos hk])
      have hlh : (r.t.s.install k).lh.n = r.t.s.lh.n := rfl
      obtain ⟨s, hs, hrun, hc⟩ := install_reach m (k + 1) _ h1 rfl (by
        show (r.t.s.install k).lh.n ≤ _
        omega)
      exact ⟨s, hs, hrun, hc⟩
    · exact install_reach m k r hr hp (by omega)

/-- After a crash the log recovers; what was not committed is dropped. -/
theorem crash_reach (h : Good disk r) : ∃ s : State P, s.phase = .running ∧ s.committing = false ∧
    Reach step Safe r ⟨{ r.t with s := s, dropped := r.t.dropped ++ r.t.current, current := [] },
      r.returned⟩ := by
  have h1 : Reach step Safe r ⟨{ r.t with
      s := .poweron r.t.s.disk
      dropped := r.t.dropped ++ r.t.current
      current := [] }, r.returned⟩ := by
    refine Reach.init.step .crash (by rintro p b ⟨⟩) (step_ok.mpr ⟨_, rfl, ?_⟩)
    simp [Traced.trace, returns]
  have hn : (LogHeader.get (r.t.s.disk logstart)).n ≤ LOGSIZE := by
    have := h.inv.wf.sane.disk.bound
    unfold nlog at this
    omega
  have h2 := recover_reach (s := { State.poweron r.t.s.disk with
      lh := LogHeader.get (r.t.s.disk logstart), phase := .install 0 }) h1 (by
    simp [State.recoverStep, State.poweron, State.read_head, hn])
  obtain ⟨s, hs, hrun, hc⟩ := install_reach (LogHeader.get (r.t.s.disk logstart)).n 0 _ h2 rfl
    (by simp)
  exact ⟨s, hrun, hc, hs⟩

end

end Returns

/-! ## When `sync` is a barrier -/

open Returns

theorem good_poweron {disk : Nat → Block} (hd : Formatted disk) :
    Good disk (Returns.poweron disk : Returns P) := by
  refine ⟨inv_poweron hd, fun n hn => (by cases hn), fun p hp => absurd hp id,
    fun p hp => absurd hp id, fun p q hp => absurd hp id⟩

theorem returned_mono {r r' : Returns P} (h : Reach Returns.step Safe r r') {n : Nat}
    (hn : n ∈ r.returned) : n ∈ r'.returned := by
  refine h.invariant (I := fun r' => n ∈ r'.returned) hn fun s a s' hi _ hs => ?_
  obtain ⟨_, -, rfl⟩ := step_ok.mp hs
  exact List.mem_append_left _ hi

/-- **When sync is a barrier**: exactly if no operation that had returned before
the call has an update outside the committed ones when the call returns. -/
theorem barrier_iff_flushed {disk : Nat → Block} (hd : Formatted disk) {r₀ r₁ : Returns P}
    (h₀ : Reach Returns.step Safe (.poweron disk) r₀) (h₁ : Reach Returns.step Safe r₀.sync r₁) :
    Barrier disk r₀ r₁ ↔ Flushed r₀ r₁ := by
  have hg₀ : Good disk r₀ := (good_poweron hd).reach h₀
  have hg₁ : Good disk r₁ := hg₀.reach h₁
  constructor
  · intro hb n hn u hu he
    -- crash at once: what is not committed then is dropped
    obtain ⟨s, hrun, hc, hr⟩ := crash_reach hg₁
    obtain ⟨-, hsurv⟩ := hb _ hr hrun hc
    have hu' : u ∈ r₁.t.dropped ++ r₁.t.current := by
      rw [List.mem_append] at hu ⊢
      exact hu.symm
    have hmem := hsurv n hn u (Traced.mem_updates.mpr (.inr (.inr hu'))) he
    exact (hg₁.reach hr).inv.numbered.apart u hmem u hu' rfl
  · intro hf r hr hrun hc
    have hgr := hg₁.reach hr
    refine ⟨hgr.inv.atomic hrun hc, fun n hn u hu he => ?_⟩
    have hret : ∀ n ∈ r₀.returned, n ∈ r₁.returned := fun n hn => returned_mono h₁ hn
    have hdone : Done r₀.returned r := Done.reach ⟨hret, hf⟩ hg₁ hr
    rcases Traced.mem_updates.mp hu with hu | hu
    · exact hu
    · exact absurd he (hdone.flushed n hn u (List.mem_append.mpr hu))

instance (r₀ r₁ : Returns P) : Decidable (Flushed r₀ r₁) :=
  inferInstanceAs (Decidable (∀ _ ∈ _, ∀ _ ∈ _, _))

/-- `log_write` leaves room, as a test. -/
def Room (r : Returns P) (_ : Action P) : Prop := r.t.s.lh.n < nlog - 1

instance (r : Returns P) (a : Action P) : Decidable (Room r a) := inferInstanceAs (Decidable (_ < _))

omit [DecidableEq P] in
theorem Room.safe (r : Returns P) (a : Action P) (h : Room r a) : Safe r a := fun _ _ _ _ => .inr h

/-- One operation, with its commit. -/
def loneOp : List (Action (Fin 3)) :=
  [.recover, .recover, .recover, .begin_op 0, .log_write 0 1000 (fun _ => 1), .append 0,
    .end_op 0] ++ List.replicate 8 (.commit 0)

/-- The operation has committed when it returns: `sync` has nothing to wait for. -/
theorem barrier_iff_flushed_loneOp : ∃ r : Returns (Fin 3),
    exec Returns.step Room (.poweron fun _ => .zero) loneOp = some r ∧ r.returned = [0] ∧
    Barrier (fun _ => .zero) r r.sync := by
  obtain ⟨r, hr, hreach, hret, hf⟩ := Reach.of_any Returns.step Room
    (.poweron fun _ => .zero : Returns (Fin 3)) (fun r => r.returned = [0] ∧ Flushed r r.sync)
    loneOp (by decide +kernel)
  have h0 : Formatted fun _ => .zero := Block.word_zero 0
  exact ⟨r, hr, hret, (barrier_iff_flushed h0 (hreach.weaken Room.safe) .init).mpr hf⟩

/-- An operation returns while another is open. -/
def openOp : List (Action (Fin 3)) :=
  [.recover, .recover, .recover, .begin_op 0, .begin_op 1, .log_write 0 1000 (fun _ => 1),
    .append 0, .end_op 0]

/-- The machine crashes after `sync` has returned. -/
def crashRun : List (Action (Fin 3)) := [.crash, .recover, .recover, .recover]

/-- What the operation wrote is gone. -/
theorem openOp_not_barrier : ∃ r r' : Returns (Fin 3),
    exec Returns.step Room (.poweron fun _ => .zero) openOp = some r ∧ r.returned = [0] ∧
    r.t.s.buf 1000 0 = 1 ∧ exec Returns.step Room r.sync crashRun = some r' ∧
    r'.t.s.phase = .running ∧ r'.t.s.disk 1000 0 = 0 ∧ ¬ Barrier (fun _ => .zero) r r.sync := by
  obtain ⟨r, hr, -, hret, hbuf, hlater⟩ := Reach.of_any Returns.step Room
    (.poweron fun _ => .zero : Returns (Fin 3))
    (fun r => r.returned = [0] ∧ r.t.s.buf 1000 0 = 1 ∧
      (exec Returns.step Room r.sync crashRun).any fun r' =>
        r'.t.s.phase = .running ∧ r'.t.s.committing = false ∧ r'.t.s.disk 1000 0 = 0 ∧
          r'.t.committed.length = 0 ∧ (r'.t.dropped.map Update.op) = [0])
    openOp (by decide +kernel)
  obtain ⟨r', hr', hreach, hrun, hc, hd, hcom, hdrop⟩ :=
    Reach.of_any Returns.step Room r.sync _ crashRun hlater
  refine ⟨r, r', hr, hret, hbuf, hr', hrun, hd, fun hb => ?_⟩
  obtain ⟨-, hs⟩ := hb r' (hreach.weaken Room.safe) hrun hc
  obtain ⟨u, hu, h0⟩ : ∃ u ∈ r'.t.dropped, u.op = 0 := by
    have : 0 ∈ r'.t.dropped.map Update.op := by rw [hdrop]; exact List.mem_singleton.mpr rfl
    exact List.mem_map.mp this
  have := hs 0 (by rw [hret]; exact List.mem_singleton.mpr rfl) u
    (Traced.mem_updates.mpr (.inr (.inr hu))) h0
  rw [List.eq_nil_of_length_eq_zero hcom] at this
  cases this

end Xv6.Log
