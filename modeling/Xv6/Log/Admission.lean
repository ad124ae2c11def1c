import Xv6.Log.Wf

/-!
# Admission

`begin_op` reserves `MAXOPBLOCKS` of `LOGSIZE` blocks for each operation, while
`log_write` stops at `log.size - 1`, the header block being one of the `nlog`.
Three operations with full budgets reach the difference: the last block of the
last one does not fit. `Admits` is the condition that keeps a run below it.
-/

namespace Xv6.Log

open Lib Fs

variable {P : Type}

/-- The distinct blocks passed to `log_write` since the last commit: recorded, or
about to be. -/
def Passed (s : State P) : Set Nat := {b | b ∈ s.lh.toList ∨ ∃ p, s.cont p = .append b}

/-- `log_write(b)` is called with fewer than `nlog - 1` blocks recorded, and `b`
is at most the `nlog - 1`-th block passed since the last commit. -/
def Admits (s : State P) (a : Action P) : Prop :=
  ∀ p b d, a = .log_write p b d →
    s.lh.n < nlog - 1 ∧ (insert b (Passed s)).encard ≤ (nlog - 1 : Nat)

/-- The blocks passed fit the log. -/
structure Fits (s : State P) : Prop where
  wf : Wf s
  passed : (Passed s).encard ≤ (nlog - 1 : Nat)

theorem encard_list_le (l : List Nat) : {b | b ∈ l}.encard ≤ l.length := by
  have h : {b | b ∈ l} = (l.toFinset : Set Nat) := by ext b; simp
  rw [h, Set.encard_coe_eq_coe_finsetCard]
  exact_mod_cast l.toFinset_card_le

theorem encard_list_nodup {l : List Nat} (h : l.Nodup) : {b | b ∈ l}.encard = l.length := by
  have hl : {b | b ∈ l} = (l.toFinset : Set Nat) := by ext b; simp
  rw [hl, Set.encard_coe_eq_coe_finsetCard, List.toFinset_card_of_nodup h]

section
variable {s s' : State P}

/-- A recorded header that is well formed and no process in `log_write`. -/
theorem passed_of_header (h : s.lh.Ok) (hi : ∀ p b, s.cont p ≠ .append b) :
    (Passed s).encard ≤ (nlog - 1 : Nat) := by
  have hsub : Passed s ⊆ {b | b ∈ s.lh.toList} := by
    rintro b (hb | ⟨p, hp⟩)
    · exact hb
    · exact absurd hp (hi p b)
  refine (Set.encard_le_encard hsub).trans ((encard_list_le _).trans ?_)
  rw [LogHeader.length_toList]
  exact_mod_cast h.bound

/-- A block in flight is recorded, or is one more that fits. -/
theorem Fits.rechecked (h : Fits s) (a : Action P) : Rechecked s a := by
  rintro p b rfl hp
  by_cases hb : b ∈ s.lh.toList
  · exact .inl hb
  · have hsub : {x | x ∈ b :: s.lh.toList} ⊆ Passed s := by
      intro x hx
      rcases List.mem_cons.mp hx with rfl | hx
      · exact .inr ⟨p, hp⟩
      · exact .inl hx
    have hle := (Set.encard_le_encard hsub).trans h.passed
    rw [encard_list_nodup (List.nodup_cons.mpr ⟨hb, h.wf.sane.header.nodup⟩), List.length_cons,
      LogHeader.length_toList] at hle
    have : s.lh.n + 1 ≤ nlog - 1 := by exact_mod_cast hle
    exact .inr (by omega)

variable [DecidableEq P]

/-- A step by `p` that leaves the header or empties it passes no block but `c`'s. -/
theorem passed_move {p : P} {c : Cont} {b : Nat} (hb : b ∈ Passed s')
    (hc : s'.cont = Function.update s.cont p c) (hl : s'.lh.n = 0 ∨ s'.lh = s.lh) :
    b ∈ Passed s ∨ c = .append b := by
  rcases hb with hb | ⟨q, hq⟩
  · rcases hl with hl | hl
    · simp [LogHeader.toList, hl] at hb
    · exact .inl (.inl (hl ▸ hb))
  · by_cases hqp : q = p
    · subst hqp; exact .inr (by simpa [hc] using hq)
    · exact .inl (.inr ⟨q, by simpa [hc, hqp] using hq⟩)

theorem begin_op_frame {p : P} (hp : s.cont p = .idle) : ∃ c,
    (s.begin_op p).cont = Function.update s.cont p c ∧ (∀ b, c ≠ .append b) ∧
      (s.begin_op p).lh = s.lh := by
  have hsame : s.cont = Function.update s.cont p .idle := by rw [← hp, Function.update_eq_self]
  unfold State.begin_op
  split
  · exact ⟨.idle, hsame, by simp, rfl⟩
  · split
    · exact ⟨.idle, hsame, by simp, rfl⟩
    · exact ⟨.inOp, rfl, by simp, rfl⟩

theorem commitStep_frame {p : P} (h : s.commitStep p (s.cont p) = .ok s') :
    ∃ c, s'.cont = Function.update s.cont p c ∧ ¬ c.InOp ∧ (s'.lh.n = 0 ∨ s'.lh = s.lh) := by
  cases hc : s.cont p <;> rw [hc] at h <;> simp only [State.commitStep] at h
  case idle => cases h
  case inOp => cases h
  case append => cases h
  case commit => cases h; exact ⟨_, rfl, by split <;> exact id, .inr rfl⟩
  case writeLog t => split at h <;> cases h <;> exact ⟨_, rfl, id, .inr rfl⟩
  case writeHead => cases h; exact ⟨_, rfl, id, .inr rfl⟩
  case install t =>
    split at h <;> cases h
    · exact ⟨_, rfl, id, .inr rfl⟩
    · exact ⟨_, rfl, id, .inl rfl⟩
  case erase => cases h; exact ⟨_, rfl, id, .inr rfl⟩
  case committed => cases h; exact ⟨_, rfl, id, .inr rfl⟩

/-- **Step lemma**: an admitted step leaves the blocks passed within the log. -/
theorem Fits.step {a : Action P} (h : Fits s) (hG : Admits s a) (hs : step s a = .ok s') :
    Fits s' := by
  have hw : Wf s' := h.wf.step (h.rechecked a) hs
  have hsub : ∀ {T : Set Nat}, T.encard ≤ (nlog - 1 : Nat) → Passed s' ⊆ T →
      (Passed s').encard ≤ (nlog - 1 : Nat) := fun hT hle => (Set.encard_le_encard hle).trans hT
  refine ⟨hw, ?_⟩
  cases step_move hs with
  | crash => exact passed_of_header hw.sane.header fun p b hp => by cases hp
  | recover hr =>
    obtain ⟨hph, hc, -⟩ := recoverStep_frame hr
    refine passed_of_header hw.sane.header fun p b hp => ?_
    rw [hc, h.wf.turns.offline hph p] at hp
    cases hp
  | @begin_op p hrun hc =>
    obtain ⟨c, hc', hca, hl⟩ := begin_op_frame hc
    exact hsub h.passed fun b hb => (passed_move hb hc' (.inr hl)).resolve_right (hca b)
  | @log_write p b d hrun hc hb hn =>
    refine hsub (hG p b d rfl).2 fun x hx => ?_
    rcases passed_move (s := s) hx rfl (.inr rfl) with hx | hx
    · exact Set.mem_insert_of_mem b hx
    · cases hx; exact Set.mem_insert b _
  | @append p b lh hrun hc hr =>
    refine hsub h.passed fun x hx => ?_
    rcases hx with hx | ⟨q, hq⟩
    · rcases (LogHeader.record_mem hr).mp hx with hx | rfl
      · exact .inl hx
      · exact .inr ⟨p, hc⟩
    · by_cases hqp : q = p
      · subst hqp; simp [State.setCont] at hq
      · exact .inr ⟨q, by simpa [State.setCont, hqp] using hq⟩
  | end_op hrun hc he =>
    simp only [State.end_op] at he
    split at he
    · cases he
    · split at he <;> cases he <;>
        exact hsub h.passed fun b hb => (passed_move hb rfl (.inr rfl)).resolve_right (by simp)
  | commit hrun hm =>
    obtain ⟨c, hc, hca, hl⟩ := commitStep_frame hm
    refine hsub h.passed fun b hb => (passed_move hb hc hl).resolve_right ?_
    rintro rfl
    exact hca trivial

/-- Nothing but a misplaced action stops a process. -/
theorem Fits.stepProc_fault {p : P} {a : Action P} {f : Fault} (h : Fits s) (hG : Admits s a)
    (ha : a.proc? = some p) (hf : stepProc s (s.cont p) a = .error f) : f = .blocked := by
  cases hc : s.cont p <;> rw [hc] at hf <;> cases a <;> cases ha <;> try (cases hf; rfl)
  case idle.begin_op => cases hf
  case inOp.log_write b d =>
    obtain ⟨hn, -⟩ := hG p b d rfl
    have ho := h.wf.turns.outstanding_pos (p := p) (by rw [hc]; trivial)
    simp only [stepProc, State.log_write] at hf
    split at hf
    · rw [if_neg (by unfold nlog at hn ⊢; omega), if_neg (by omega)] at hf
      cases hf
    · cases hf; rfl
  case inOp.end_op =>
    have hcm := h.wf.turns.not_committing (p := p) (by rw [hc]; trivial)
    simp only [stepProc, State.end_op, hcm, Bool.false_eq_true, if_false] at hf
    split at hf <;> cases hf
  case append.append b =>
    obtain ⟨lh, hlh⟩ := h.wf.sane.header.record_isSome (h.rechecked (.append p) p b rfl hc)
    simp only [stepProc, State.append, hlh] at hf
    cases hf
  all_goals
    simp only [stepProc, State.commitStep] at hf
    try split at hf
    all_goals cases hf

theorem Fits.fault {a : Action P} {f : Fault} (h : Fits s) (hG : Admits s a)
    (hf : Log.step s a = .error f) : f = .blocked := by
  unfold Log.step at hf
  split at hf
  · cases hf
  · cases hp : s.phase <;> rw [hp] at hf <;> simp only [State.recoverStep] at hf
    case boot =>
      have hb : (LogHeader.get (s.buf logstart)).n ≤ LOGSIZE := by
        have := h.wf.sane.disk.bound
        rw [h.wf.sane.synced logstart not_home_logstart]
        unfold nlog at this
        omega
      simp only [State.read_head, if_pos hb] at hf
      cases hf
    case install t => split at hf <;> cases hf
    case erase => cases hf
    case running => cases hf; rfl
  · split at hf
    · next hq => exact h.stepProc_fault hG hq hf
    · cases hf; rfl

end

/-- **Admission**: in every run of admitted steps the log never holds more than
`nlog - 1` blocks, so that `lh.block` and the log area are never left, and no step
panics. -/
theorem admitted_fits [DecidableEq P] {disk : Nat → Block} (hd : Formatted disk) {s : State P}
    (h : Reachable disk Admits s) :
    s.lh.n ≤ nlog - 1 ∧
    (∀ tail < s.lh.n, tail < LOGSIZE ∧ logstart + tail + 1 < logstart + nlog) ∧
    ∀ a f, Admits s a → step s a = .error f → f = .blocked := by
  have hI : Fits s := h.invariant ⟨.poweron hd, passed_of_header (LogHeader.ok_empty rfl)
    fun p b hp => by cases hp⟩ fun s a s' hi hG hs => hi.step hG hs
  have hb := hI.wf.sane.header.bound
  exact ⟨hb, fun tail ht => by unfold nlog at hb ⊢; omega, fun a f => hI.fault⟩

/-! ## Filling the log -/

section
variable [DecidableEq P]

/-- `p` logs block `b` with contents `d`. -/
def logBlock (p : P) (d : Block) (b : Nat) : List (Action P) := [.log_write p b d, .append p]

/-- What logging the blocks `bs` as `d` makes of a state. -/
structure Logged (s t : State P) (bs : List Nat) (d : Block) : Prop where
  header : t.lh.toList = s.lh.toList ++ bs
  phase : t.phase = s.phase
  cont : t.cont = s.cont
  outstanding : t.outstanding = s.outstanding
  committing : t.committing = s.committing
  disk : t.disk = s.disk
  buf : ∀ b, t.buf b = if b ∈ bs then d else s.buf b

/-- An operation that logs new blocks records them all, as long as they fit. -/
theorem exec_logBlocks (p : P) (d : Block) : ∀ (bs : List Nat) (s : State P),
    s.phase = .running → s.cont p = .inOp → 1 ≤ s.outstanding → (∀ b ∈ bs, Home b) →
    (s.lh.toList ++ bs).Nodup → (s.lh.toList ++ bs).length ≤ nlog - 1 →
    ∃ t, exec step Always s (bs.flatMap (logBlock p d)) = some t ∧ Logged s t bs d
  | [], s, _, _, _, _, _, _ => ⟨s, rfl, ⟨by simp, rfl, rfl, rfl, rfl, rfl, by simp⟩⟩
  | b :: bs, s, hrun, hp, ho, hh, hn, hlen => by
    have hbn : b ∉ s.lh.toList := fun hm =>
      (List.nodup_append.mp hn).2.2 b hm b List.mem_cons_self rfl
    have hn' : s.lh.n < nlog - 1 := by simp at hlen; omega
    obtain ⟨lh, hlh⟩ := LogHeader.record_of_not_mem hbn (by unfold nlog at hn'; omega)
    have hl := LogHeader.record_toList hlh
    rw [if_neg hbn] at hl
    -- the state after `log_write` and `append`
    let s₁ : State P := { s with buf := Function.update s.buf b d, lh := lh }
    have h1 : exec step Always s (logBlock p d b) = some s₁ := by
      have hc : (Function.update (Function.update s.cont p (Cont.append b)) p Cont.inOp) = s.cont := by
        rw [Function.update_idem, ← hp, Function.update_eq_self]
      let s₀ := { s with buf := Function.update s.buf b d }.setCont p (.append b)
      have hap : step s₀ (.append p) = .ok s₁ := by
        rw [step_append (s := s₀) hrun (by simp [s₀, State.setCont]) hlh]
        simp only [s₀, State.setCont, hc, s₁]
      have hlw := step_log_write hrun hp (hh b List.mem_cons_self) hn' ho d
      exact exec_cons.mpr ⟨_, trivial, hlw, exec_cons.mpr ⟨_, trivial, hap, rfl⟩⟩
    obtain ⟨t, ht, h⟩ := exec_logBlocks p d bs s₁ hrun hp ho
      (fun x hx => hh x (List.mem_cons_of_mem _ hx))
      (by rw [show s₁.lh.toList = _ from hl, List.append_assoc]; exact hn)
      (by rw [show s₁.lh.toList = _ from hl, List.append_assoc]; exact hlen)
    refine ⟨t, ?_, ?_, h.phase, h.cont, h.outstanding, h.committing, h.disk, fun x => ?_⟩
    · rw [List.flatMap_cons, exec_append, h1]; exact ht
    · rw [h.header, show s₁.lh.toList = _ from hl, List.append_assoc]; rfl
    · rw [h.buf]
      by_cases hx : x ∈ bs
      · simp [hx]
      · by_cases hxb : x = b
        · subst hxb; simp [hx, s₁]
        · simp [hx, hxb, s₁]

end

/-- The blocks that process `p` passes to `log_write`. -/
def passedBy [DecidableEq P] (p : P) (as : List (Action P)) : List Nat :=
  as.filterMap fun
    | .log_write q b _ => if q = p then some b else none
    | _ => none

scoped instance neZero_three : NeZero 3 := ⟨by decide⟩

/-- Recovery, then three operations. -/
def threeOps : List (Action (Fin 3)) :=
  [.recover, .recover, .recover, .begin_op 0, .begin_op 1, .begin_op 2]

def Action.isWrite : Action P → Bool
  | .log_write .. => true
  | _ => false

theorem admits_of_not_write {s : State P} {a : Action P} (h : a.isWrite = false) : Admits s a := by
  rintro p b d rfl
  cases h

/-- Three operations, one of them between the tests of `log_write` and the lock. -/
theorem admitted_fits_threeOps : ∃ s : State (Fin 3), Reachable (fun _ => .zero) Admits s ∧
    s.cont 0 = .append 1000 ∧ s.lh.n ≤ nlog - 1 ∧
    (∀ tail < s.lh.n, tail < LOGSIZE ∧ logstart + tail + 1 < logstart + nlog) ∧
    ∀ a f, Admits s a → step s a = .error f → f = .blocked := by
  obtain ⟨s, -, hr, hrun, hc, ho, hn⟩ := Reach.of_any step (fun _ a => a.isWrite = false)
    (.poweron fun _ => .zero : State (Fin 3)) (fun s => s.phase = .running ∧
      (∀ p, s.cont p = .inOp) ∧ s.outstanding = 3 ∧ s.lh.n = 0) threeOps (by decide +kernel)
  have hA : Admits s (.log_write 0 1000 .zero) := by
    rintro p b d h
    cases h
    have hP : Passed s = ∅ := by
      ext x
      simp [Passed, LogHeader.toList, hn, hc]
    refine ⟨by rw [hn]; decide, ?_⟩
    rw [hP, insert_empty_eq, Set.encard_singleton]
    exact_mod_cast (show 1 ≤ nlog - 1 by decide)
  have hstep := step_log_write hrun (hc 0) (show Home 1000 by decide) (by rw [hn]; decide)
    (by omega) .zero
  have hr0 : Reachable (fun _ => .zero) Admits s := hr.weaken fun _ _ h => admits_of_not_write h
  have hr' := hr0.step _ hA hstep
  have hd : Formatted fun _ => .zero := Block.word_zero 0
  exact ⟨_, hr', by simp [State.setCont], admitted_fits hd hr'⟩

/-- The three operations log `i`, `j` and `k` new blocks as `d`. -/
def fillRun (d : Block) (i j k : Nat) : List (Action (Fin 3)) :=
  threeOps ++ (List.range' 1000 i).flatMap (logBlock 0 d) ++
    (List.range' (1000 + i) j).flatMap (logBlock 1 d) ++
    (List.range' (1000 + (i + j)) k).flatMap (logBlock 2 d)

theorem exec_fillRun (d : Block) {i j k : Nat} (h : i + j + k ≤ nlog - 1) :
    ∃ s, exec step Always (.poweron fun _ => .zero) (fillRun d i j k) = some s ∧
      s.phase = .running ∧ (∀ p, s.cont p = .inOp) ∧ s.outstanding = 3 ∧ s.committing = false ∧
      s.lh.toList = List.range' 1000 (i + j + k) ∧ (s.disk logstart).word 0 = 0 := by
  obtain ⟨s₀, e₀, -, hrun, hc, ho, hn, hcm, h0⟩ := Reach.of_any step Always
    (.poweron fun _ => .zero : State (Fin 3)) (fun s => s.phase = .running ∧
      (∀ p, s.cont p = .inOp) ∧ s.outstanding = 3 ∧ s.lh.n = 0 ∧ s.committing = false ∧
      (s.disk logstart).word 0 = 0) threeOps (by decide +kernel)
  have hl0 : s₀.lh.toList = [] := by simp [LogHeader.toList, hn]
  have hhome : ∀ m n, m + n ≤ i + j + k → ∀ b ∈ List.range' (1000 + m) n, Home b := by
    intro m n hmn b hb
    rw [List.mem_range'_1] at hb
    unfold Home logstart FSSIZE
    unfold nlog LOGSIZE MAXOPBLOCKS at h ⊢
    omega
  have hnd : ∀ n, (List.range' 1000 n).Nodup := fun n => List.nodup_range'
  obtain ⟨s₁, e₁, l₁⟩ := exec_logBlocks 0 d (List.range' 1000 i) s₀ hrun (hc 0) (by omega)
    (hhome 0 i (by omega)) (by rw [hl0]; exact hnd i) (by rw [hl0]; simp; omega)
  have h1 : s₁.lh.toList = List.range' 1000 i := by rw [l₁.header, hl0, List.nil_append]
  have hij : List.range' 1000 i ++ List.range' (1000 + i) j = List.range' 1000 (i + j) := by simp
  obtain ⟨s₂, e₂, l₂⟩ := exec_logBlocks 1 d (List.range' (1000 + i) j) s₁ (l₁.phase.trans hrun)
    (by rw [l₁.cont]; exact hc 1) (by rw [l₁.outstanding]; omega) (hhome i j (by omega))
    (by rw [h1, hij]; exact hnd _) (by rw [h1, hij]; simp; omega)
  have h2 : s₂.lh.toList = List.range' 1000 (i + j) := by rw [l₂.header, h1, hij]
  have hijk : List.range' 1000 (i + j) ++ List.range' (1000 + (i + j)) k =
      List.range' 1000 (i + j + k) := by simp
  obtain ⟨s₃, e₃, l₃⟩ := exec_logBlocks 2 d (List.range' (1000 + (i + j)) k) s₂
    (l₂.phase.trans (l₁.phase.trans hrun)) (by rw [l₂.cont, l₁.cont]; exact hc 2)
    (by rw [l₂.outstanding, l₁.outstanding]; omega) (hhome (i + j) k (by omega))
    (by rw [h2, hijk]; exact hnd _) (by rw [h2, hijk]; simp; omega)
  refine ⟨s₃, ?_, l₃.phase.trans (l₂.phase.trans (l₁.phase.trans hrun)), fun p => ?_, ?_, ?_, ?_, ?_⟩
  · simp only [fillRun, exec_append, e₀, e₁, e₂, Option.bind_some, e₃]
  · rw [l₃.cont, l₂.cont, l₁.cont]; exact hc p
  · rw [l₃.outstanding, l₂.outstanding, l₁.outstanding]; exact ho
  · rw [l₃.committing, l₂.committing, l₁.committing]; exact hcm
  · rw [l₃.header, h2, hijk]
  · rw [l₃.disk, l₂.disk, l₁.disk]; exact h0

/-- The three operations log 40, 40 and 39 new blocks. -/
def fullRun : List (Action (Fin 3)) := fillRun .zero 40 40 39

/-- With 119 blocks recorded, the 40th block of the third operation panics. -/
theorem fullRun_panics :
    (∀ p, (passedBy p (fullRun ++ [.log_write 2 1119 .zero])).dedup.length ≤ MAXOPBLOCKS) ∧
    ∃ s, exec step Always (.poweron fun _ => .zero) fullRun = some s ∧
      Reachable (fun _ => .zero) Always s ∧
      step s (.log_write 2 1119 .zero) = .error (.panic "too big a transaction") := by
  refine ⟨by decide +kernel, ?_⟩
  obtain ⟨s, hexec, hrun, hc, -, -, hl, -⟩ := exec_fillRun .zero (show 40 + 40 + 39 ≤ nlog - 1 by decide)
  refine ⟨s, hexec, .of_exec hexec .init, ?_⟩
  have hn : s.lh.n = 119 := by rw [← LogHeader.length_toList, hl, List.length_range']
  have hbig : s.lh.n ≥ LOGSIZE ∨ s.lh.n ≥ nlog - 1 := .inr (by rw [hn]; decide)
  simp only [step, hrun, Action.proc?, hc, stepProc, State.log_write, if_pos hbig]
  rfl

end Xv6.Log
