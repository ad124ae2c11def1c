import Xv6.Log.Model

/-!
# What runs of the log keep

`Turns` says who is where: `outstanding` counts the operations, a commit runs
alone, nothing runs before recovery is done. `Sane` says what the headers hold,
in memory and on disk: distinct home blocks, fewer than `nlog`. The latter needs
that the test of `log_write` still holds where it is relied on, under the lock
(`Rechecked`).
-/

namespace Xv6.Log

open Lib Fs

/-! ## The header -/

namespace LogHeader

variable {h h' : LogHeader} {b : Nat}

@[simp] theorem length_toList (h : LogHeader) : h.toList.length = h.n := by simp [toList]

theorem getElem_toList {i : Nat} (hi : i < h.toList.length) : h.toList[i] = h.block i := by
  simp [toList]

theorem mem_toList : b ∈ h.toList ↔ ∃ i < h.n, h.block i = b := by simp [toList]

/-- A new block is recorded last, a recorded one stays where it is. -/
theorem record_toList (hr : h.record b = some h') :
    h'.toList = if b ∈ h.toList then h.toList else h.toList ++ [b] := by
  simp only [record] at hr
  by_cases hb : b ∈ h.toList
  · have hi := List.idxOf_lt_length_of_mem hb
    have hblk : h.block (h.toList.idxOf b) = b := by rw [← getElem_toList hi, List.getElem_idxOf]
    rw [length_toList] at hi
    generalize h.toList.idxOf b = i at hi hblk hr
    split at hr
    · cases hr
      rw [if_pos hb, toList, if_neg (by omega), ← hblk, Function.update_eq_self, toList]
    · cases hr
  · have hi : h.toList.idxOf b = h.n := by rw [List.idxOf_eq_length hb, length_toList]
    rw [hi] at hr
    split at hr
    · cases hr
      rw [if_neg hb, toList, if_pos rfl, List.range_succ, List.map_append, toList]
      congr 1
      · refine List.map_congr_left fun j hj => ?_
        have hne : j ≠ h.n := (List.mem_range.mp hj).ne
        exact Function.update_of_ne hne _ _
      · simp
    · cases hr

theorem record_mem (hr : h.record b = some h') {x : Nat} :
    x ∈ h'.toList ↔ x ∈ h.toList ∨ x = b := by
  rw [record_toList hr]
  split
  · next hb => exact ⟨.inl, fun hx => hx.elim id fun he => he ▸ hb⟩
  · simp

theorem record_of_not_mem (hb : b ∉ h.toList) (hn : h.n < LOGSIZE) : ∃ h', h.record b = some h' :=
  ⟨_, if_pos (by rwa [List.idxOf_eq_length hb, length_toList])⟩

theorem put_word_zero (h : LogHeader) (d : Block) : ∀ i, (h.put d i).word 0 = h.n % 2 ^ 32
  | 0 => Block.word_setWord_self d 0 h.n
  | i + 1 => (Block.word_setWord_ne _ (by omega) _).trans (put_word_zero h d i)

theorem put_word (h : LogHeader) (d : Block) : ∀ i, ∀ j < i,
    (h.put d i).word (j + 1) = h.block j % 2 ^ 32
  | i + 1, j, hj => by
    by_cases hji : j = i
    · subst hji; exact Block.word_setWord_self _ _ _
    · exact (Block.word_setWord_ne _ (by omega) _).trans (put_word h d i j (by omega))

/-- **Header round trip**: `read_head` reads what `write_head` wrote. -/
theorem get_put (hn : h.n < 2 ^ 31) (hb : ∀ b ∈ h.toList, b < 2 ^ 32) (d : Block) :
    (get (h.put d h.n)).toList = h.toList := by
  have h0 : (get (h.put d h.n)).n = h.n := by
    simp only [get, put_word_zero]
    rw [Nat.mod_eq_of_lt (by omega), if_pos hn]
  refine List.ext_getElem (by simp [h0]) fun i hi hi' => ?_
  rw [getElem_toList, getElem_toList]
  rw [length_toList] at hi'
  have hlt := hb _ (mem_toList.mpr ⟨i, hi', rfl⟩)
  exact (put_word h d h.n i hi').trans (Nat.mod_eq_of_lt hlt)

/-- The entries of a header: distinct home blocks that fit the log. -/
structure Ok (h : LogHeader) : Prop where
  bound : h.n ≤ nlog - 1
  home : ∀ b ∈ h.toList, Home b
  nodup : h.toList.Nodup

theorem ok_of_toList (h0 : h'.toList = h.toList) (h : h.Ok) : h'.Ok where
  bound := by
    have := congrArg List.length h0
    rw [length_toList, length_toList] at this
    rw [this]; exact h.bound
  home := by rw [h0]; exact h.home
  nodup := by rw [h0]; exact h.nodup

theorem ok_empty (h0 : h.n = 0) : h.Ok where
  bound := by omega
  home b hb := by simp [toList, h0] at hb
  nodup := by simp [toList, h0]

theorem Ok.get_put (ho : h.Ok) (d : Block) : (get (h.put d h.n)).toList = h.toList := by
  have hb := ho.bound
  refine LogHeader.get_put (by unfold nlog LOGSIZE MAXOPBLOCKS at hb; omega) (fun b hm => ?_) d
  have := (ho.home b hm).2
  unfold FSSIZE at this
  omega

/-- Recording a home block that is recorded already or fits. -/
theorem Ok.record (ho : h.Ok) (hb : Home b) (hf : b ∈ h.toList ∨ h.n < nlog - 1)
    (hr : h.record b = some h') : h'.Ok := by
  have hl := record_toList hr
  by_cases hm : b ∈ h.toList
  · rw [if_pos hm] at hl
    exact ok_of_toList hl ho
  · rw [if_neg hm] at hl
    have hlen := congrArg List.length hl
    simp only [length_toList, List.length_append, List.length_singleton] at hlen
    refine ⟨?_, fun x hx => ?_, ?_⟩
    · have := hf.resolve_left hm; omega
    · rw [hl, List.mem_append, List.mem_singleton] at hx
      rcases hx with hx | rfl
      · exact ho.home x hx
      · exact hb
    · rw [hl]
      exact List.nodup_append.mpr ⟨ho.nodup, by simp, fun x hx y hy => by
        rw [List.mem_singleton.mp hy]; rintro rfl; exact hm hx⟩

/-- There is room in `block[LOGSIZE]` for what fits the log. -/
theorem Ok.record_isSome (ho : h.Ok) (hf : b ∈ h.toList ∨ h.n < nlog - 1) :
    ∃ h', h.record b = some h' := by
  have hi : h.toList.idxOf b < LOGSIZE := by
    have hb := ho.bound
    have hle : h.toList.idxOf b ≤ h.n := by
      have := List.idxOf_le_length (a := b) (l := h.toList)
      rwa [length_toList] at this
    unfold nlog LOGSIZE MAXOPBLOCKS at *
    rcases hf with hf | hf
    · have := List.idxOf_lt_length_of_mem hf
      rw [length_toList] at this
      omega
    · omega
  exact ⟨_, if_pos hi⟩

end LogHeader

/-! ## Turns -/

/-- Inside an operation, but not in `commit`. -/
def Cont.InOp : Cont → Prop
  | .inOp | .append _ => True
  | _ => False

def Cont.InCommit : Cont → Prop
  | .commit | .writeLog _ | .writeHead | .install _ | .erase | .committed => True
  | _ => False

variable {P : Type}

structure Turns (s : State P) : Prop where
  active : ∃ L : List P, L.Nodup ∧ (∀ p, p ∈ L ↔ (s.cont p).InOp) ∧ s.outstanding = L.length
  committing : s.committing = true ↔ ∃ p, (s.cont p).InCommit
  unique : ∀ p q, (s.cont p).InCommit → (s.cont q).InCommit → p = q
  alone : s.committing = true → ∀ p, ¬ (s.cont p).InOp
  offline : s.phase ≠ .running → ∀ p, s.cont p = .idle

section
variable {s s' : State P} {p : P} {c : Cont}

theorem Turns.outstanding_pos (h : Turns s) (hp : (s.cont p).InOp) : 1 ≤ s.outstanding := by
  obtain ⟨L, -, hL, ho⟩ := h.active
  have := List.length_pos_of_mem ((hL p).mpr hp)
  omega

theorem Turns.not_committing (h : Turns s) (hp : (s.cont p).InOp) : s.committing = false := by
  cases hc : s.committing with
  | false => rfl
  | true => exact absurd hp (h.alone hc p)

theorem Turns.not_inCommit (h : Turns s) (hc : s.committing = false) (p : P) :
    ¬ (s.cont p).InCommit := fun hp => by simpa [hc] using h.committing.mpr ⟨p, hp⟩

/-- Nobody is anywhere: at power-on and while the log recovers. -/
theorem Turns.of_idle (hi : ∀ p, s.cont p = .idle) (ho : s.outstanding = 0)
    (hc : s.committing = false) : Turns s where
  active := ⟨[], List.nodup_nil, fun p => by simp [hi p, Cont.InOp], by simp [ho]⟩
  committing := iff_of_false (by simp [hc]) fun ⟨p, hp⟩ => by simp [hi p, Cont.InCommit] at hp
  unique p q hp := by simp [hi p, Cont.InCommit] at hp
  alone ht := by simp [hc] at ht
  offline _ := hi

variable [DecidableEq P]

/-- A process moves on where it was: inside its operation, or inside its commit. -/
theorem Turns.move (h : Turns s) (hc : s'.cont = Function.update s.cont p c)
    (ho : s'.outstanding = s.outstanding) (hcm : s'.committing = s.committing)
    (hph : s'.phase = s.phase) (hin : c.InOp ↔ (s.cont p).InOp)
    (hic : c.InCommit ↔ (s.cont p).InCommit) (hrun : s.phase = .running) : Turns s' := by
  have hin' : ∀ q, (s'.cont q).InOp ↔ (s.cont q).InOp := by
    intro q
    by_cases hq : q = p
    · subst hq; simpa [hc] using hin
    · simp [hc, hq]
  have hic' : ∀ q, (s'.cont q).InCommit ↔ (s.cont q).InCommit := by
    intro q
    by_cases hq : q = p
    · subst hq; simpa [hc] using hic
    · simp [hc, hq]
  refine ⟨?_, ?_, fun q r hq hr => ?_, fun ht q => ?_, fun hn => absurd (hph.trans hrun) hn⟩
  · obtain ⟨L, hn, hL, hlen⟩ := h.active
    exact ⟨L, hn, fun q => (hL q).trans (hin' q).symm, ho.trans hlen⟩
  · rw [hcm, h.committing]
    exact exists_congr fun q => (hic' q).symm
  · exact h.unique q r ((hic' q).mp hq) ((hic' r).mp hr)
  · rw [hin']; exact h.alone (hcm ▸ ht) q

theorem Turns.begin_op (h : Turns s) (hp : s.cont p = .idle) (hrun : s.phase = .running) :
    Turns (s.begin_op p) := by
  unfold State.begin_op
  split
  · exact h
  next hc =>
  split
  · exact h
  have hcf : s.committing = false := by simpa using hc
  obtain ⟨L, hn, hL, hlen⟩ := h.active
  have hnc := h.not_inCommit hcf
  have hnc' : ∀ q, ¬ ((s.setCont p .inOp).cont q).InCommit := by
    intro q
    by_cases hq : q = p
    · subst hq; simp [State.setCont, Cont.InCommit]
    · simpa [State.setCont, hq] using hnc q
  have hpL : p ∉ L := fun hm => by simpa [hp, Cont.InOp] using (hL p).mp hm
  refine ⟨⟨p :: L, List.nodup_cons.mpr ⟨hpL, hn⟩, fun q => ?_, ?_⟩, ?_, fun q r hq => ?_,
    fun ht => ?_, fun hno => absurd hrun hno⟩
  · by_cases hq : q = p
    · subst hq; simp [State.setCont, Cont.InOp]
    · simp [State.setCont, hq, hL]
  · simp only [List.length_cons]; push_cast; omega
  · exact iff_of_false (by simp [State.setCont, hcf]) fun ⟨q, hq⟩ => hnc' q hq
  · exact absurd hq (hnc' q)
  · simp [State.setCont, hcf] at ht

theorem Turns.end_op (h : Turns s) (hp : s.cont p = .inOp) (hrun : s.phase = .running)
    (he : s.end_op p = .ok s') : Turns s' := by
  have hin : (s.cont p).InOp := by rw [hp]; trivial
  have hcf := h.not_committing hin
  obtain ⟨L, hn, hL, hlen⟩ := h.active
  have hpL := (hL p).mpr hin
  have hnc := h.not_inCommit hcf
  have hlen' : ((L.erase p).length : Int) = s.outstanding - 1 := by
    have := List.length_erase_of_mem hpL
    have := List.length_pos_of_mem hpL
    omega
  simp only [State.end_op, hcf, Bool.false_eq_true, if_false] at he
  split at he
  · next h0 =>
    cases he
    have hnil : L.erase p = [] := List.length_eq_zero_iff.mp (by omega)
    have hno : ∀ q, q ≠ p → ¬ (s.cont q).InOp := fun q hq hqi => by
      have : q ∈ L.erase p := hn.mem_erase_iff.mpr ⟨hq, (hL q).mpr hqi⟩
      simp [hnil] at this
    refine ⟨⟨[], List.nodup_nil, fun q => ?_, ?_⟩, ?_, fun q r hq hr => ?_, fun _ q => ?_,
      fun hno => absurd hrun hno⟩
    · by_cases hq : q = p
      · subst hq; simp [State.setCont, Cont.InOp]
      · simpa [State.setCont, hq] using hno q hq
    · simp [State.setCont, h0]
    · exact iff_of_true rfl ⟨p, by simp [State.setCont, Cont.InCommit]⟩
    · have hp' : ∀ q, ((s.setCont p .commit).cont q).InCommit → q = p := fun q hq => by
        by_contra hne
        exact hnc q (by simpa [State.setCont, hne] using hq)
      exact (hp' q hq).trans (hp' r hr).symm
    · by_cases hq : q = p
      · subst hq; simp [State.setCont, Cont.InOp]
      · simpa [State.setCont, hq] using hno q hq
  · cases he
    have hnc' : ∀ q, ¬ ((s.setCont p .idle).cont q).InCommit := by
      intro q
      by_cases hq : q = p
      · subst hq; simp [State.setCont, Cont.InCommit]
      · simpa [State.setCont, hq] using hnc q
    refine ⟨⟨L.erase p, hn.erase p, fun q => ?_, hlen'.symm⟩, ?_, fun q r hq => ?_, fun ht => ?_,
      fun hno => absurd hrun hno⟩
    · rw [hn.mem_erase_iff]
      by_cases hq : q = p
      · subst hq; simp [State.setCont, Cont.InOp]
      · simp [State.setCont, hq, hL]
    · exact iff_of_false (by simp [State.setCont]) fun ⟨q, hq⟩ => hnc' q hq
    · exact absurd hq (hnc' q)
    · simp [State.setCont] at ht

/-- The commit is over: `end_op` lets others in. -/
theorem Turns.release (h : Turns s) (hp : (s.cont p).InCommit) (hrun : s.phase = .running) :
    Turns { s.setCont p .idle with committing := false } := by
  obtain ⟨L, hn, hL, hlen⟩ := h.active
  have hcm := h.committing.mpr ⟨p, hp⟩
  have hnc' : ∀ q, ¬ ((s.setCont p .idle).cont q).InCommit := by
    intro q
    by_cases hq : q = p
    · subst hq; simp [State.setCont, Cont.InCommit]
    · have : ¬ (s.cont q).InCommit := fun hqc => hq (h.unique q p hqc hp)
      simpa [State.setCont, hq] using this
  refine ⟨⟨L, hn, fun q => ?_, hlen⟩, ?_, fun q r hq => absurd hq (hnc' q), fun ht => (by cases ht),
    fun hno => absurd hrun hno⟩
  · by_cases hq : q = p
    · subst hq
      simpa [State.setCont, Cont.InOp, hL] using h.alone hcm q
    · simp [State.setCont, hq, hL]
  · exact iff_of_false (by simp) fun ⟨q, hq⟩ => hnc' q hq

/-! ## What a step can do -/

/-- The successful steps, with what their tests found. -/
inductive Move (s : State P) : Action P → State P → Prop where
  | crash : Move s .crash (.poweron s.disk)
  | recover {s' : State P} : s.recoverStep s.phase = .ok s' → Move s .recover s'
  | begin_op {p : P} : s.phase = .running → s.cont p = .idle → Move s (.begin_op p) (s.begin_op p)
  | log_write {p : P} {b : Nat} {d : Block} : s.phase = .running → s.cont p = .inOp → Home b →
      s.lh.n < nlog - 1 →
      Move s (.log_write p b d) ({ s with buf := Function.update s.buf b d }.setCont p (.append b))
  | append {p : P} {b : Nat} {lh : LogHeader} : s.phase = .running → s.cont p = .append b →
      s.lh.record b = some lh → Move s (.append p) ({ s with lh := lh }.setCont p .inOp)
  | end_op {p : P} {s' : State P} : s.phase = .running → s.cont p = .inOp → s.end_op p = .ok s' →
      Move s (.end_op p) s'
  | commit {p : P} {s' : State P} : s.phase = .running → s.commitStep p (s.cont p) = .ok s' →
      Move s (.commit p) s'

theorem step_proc {a : Action P} (ha : a.proc? = some p) (h : step s a = .ok s') :
    s.phase = .running ∧ stepProc s (s.cont p) a = .ok s' := by
  unfold step at h
  split at h
  · cases ha
  · cases ha
  · split at h
    · next hph hq => rw [ha] at hq; cases hq; exact ⟨hph, h⟩
    · cases h

theorem step_move {a : Action P} (h : step s a = .ok s') : Move s a s' := by
  cases a with
  | crash => cases h; exact .crash
  | recover => exact .recover h
  | begin_op p =>
    obtain ⟨hrun, h⟩ := step_proc rfl h
    cases hc : s.cont p <;> rw [hc] at h <;> cases h
    exact .begin_op hrun hc
  | log_write p b d =>
    obtain ⟨hrun, h⟩ := step_proc rfl h
    cases hc : s.cont p <;> rw [hc] at h <;> try cases h
    simp only [stepProc, State.log_write] at h
    split at h
    · next hb =>
      split at h
      · cases h
      · next hn =>
        split at h <;> cases h
        exact .log_write hrun hc hb (by omega)
    · cases h
  | append p =>
    obtain ⟨hrun, h⟩ := step_proc rfl h
    cases hc : s.cont p <;> rw [hc] at h <;> try cases h
    simp only [stepProc, State.append] at h
    split at h
    · next hr => cases h; exact .append hrun hc hr
    · cases h
  | end_op p =>
    obtain ⟨hrun, h⟩ := step_proc rfl h
    cases hc : s.cont p <;> rw [hc] at h <;> try cases h
    exact .end_op hrun hc h
  | commit p =>
    obtain ⟨hrun, h⟩ := step_proc rfl h
    refine .commit hrun ?_
    cases hc : s.cont p <;> rw [hc] at h <;> exact h

theorem step_log_write {b : Nat} (hrun : s.phase = .running) (hp : s.cont p = .inOp) (hb : Home b)
    (hn : s.lh.n < nlog - 1) (ho : 1 ≤ s.outstanding) (d : Block) : step s (.log_write p b d) =
      .ok ({ s with buf := Function.update s.buf b d }.setCont p (.append b)) := by
  have hlt : ¬ (s.lh.n ≥ LOGSIZE ∨ s.lh.n ≥ nlog - 1) := by unfold nlog at hn ⊢; omega
  simp only [step, hrun, Action.proc?, hp, stepProc, if_pos hb, State.log_write, if_neg hlt,
    if_neg (show ¬ s.outstanding < 1 by omega)]

theorem step_append {b : Nat} {lh : LogHeader} (hrun : s.phase = .running)
    (hp : s.cont p = .append b) (hr : s.lh.record b = some lh) :
    step s (.append p) = .ok ({ s with lh := lh }.setCont p .inOp) := by
  simp only [step, hrun, Action.proc?, hp, stepProc, State.append, hr]

theorem Turns.commitStep (h : Turns s) (hrun : s.phase = .running)
    (hs : s.commitStep p (s.cont p) = .ok s') : Turns s' := by
  cases hc : s.cont p <;> rw [hc] at hs <;> simp only [State.commitStep] at hs
  case idle => cases hs
  case inOp => cases hs
  case append => cases hs
  case commit =>
    cases hs
    refine h.move rfl rfl rfl rfl ?_ ?_ hrun <;> split <;> simp [hc, Cont.InOp, Cont.InCommit]
  case writeLog t =>
    split at hs <;> cases hs <;>
      exact h.move rfl rfl rfl rfl (by simp [hc, Cont.InOp]) (by simp [hc, Cont.InCommit]) hrun
  case writeHead =>
    cases hs
    exact h.move rfl rfl rfl rfl (by simp [hc, Cont.InOp]) (by simp [hc, Cont.InCommit]) hrun
  case install t =>
    split at hs <;> cases hs <;>
      exact h.move rfl rfl rfl rfl (by simp [hc, Cont.InOp]) (by simp [hc, Cont.InCommit]) hrun
  case erase =>
    cases hs
    exact h.move rfl rfl rfl rfl (by simp [hc, Cont.InOp]) (by simp [hc, Cont.InCommit]) hrun
  case committed =>
    cases hs
    exact h.release (by rw [hc]; trivial) hrun

omit [DecidableEq P] in
theorem recoverStep_frame (hs : s.recoverStep s.phase = .ok s') : s.phase ≠ .running ∧
    s'.cont = s.cont ∧ s'.outstanding = s.outstanding ∧ s'.committing = s.committing := by
  cases hp : s.phase <;> rw [hp] at hs <;> simp only [State.recoverStep] at hs
  case boot =>
    simp only [bind_ok, pure_ok, State.read_head] at hs
    obtain ⟨s₁, h1, rfl⟩ := hs
    split at h1
    · cases h1; exact ⟨by simp, rfl, rfl, rfl⟩
    · cases h1
  case install t => split at hs <;> cases hs <;> exact ⟨by simp, rfl, rfl, rfl⟩
  case erase => cases hs; exact ⟨by simp, rfl, rfl, rfl⟩
  case running => cases hs

theorem Turns.step {a : Action P} (h : Turns s) (hs : step s a = .ok s') : Turns s' := by
  cases step_move hs with
  | crash => exact .of_idle (fun _ => rfl) rfl rfl
  | recover hr =>
    obtain ⟨hph, hc, ho, hcm⟩ := recoverStep_frame hr
    have hi : ∀ p, s'.cont p = .idle := fun p => by rw [hc]; exact h.offline hph p
    have hcf : s.committing = false := by
      cases hcm : s.committing with
      | false => rfl
      | true =>
        obtain ⟨p, hp⟩ := h.committing.mp hcm
        simp [h.offline hph p, Cont.InCommit] at hp
    refine .of_idle hi (ho.trans ?_) (hcm.trans hcf)
    obtain ⟨L, -, hL, hlen⟩ := h.active
    have hnil : L = [] := List.eq_nil_iff_forall_not_mem.mpr fun p hp => by
      simpa [h.offline hph p, Cont.InOp] using (hL p).mp hp
    rw [hlen, hnil]; rfl
  | begin_op hrun hc => exact h.begin_op hc hrun
  | log_write hrun hc =>
    exact h.move rfl rfl rfl rfl (by simp [hc, Cont.InOp]) (by simp [hc, Cont.InCommit]) hrun
  | append hrun hc =>
    exact h.move rfl rfl rfl rfl (by simp [hc, Cont.InOp]) (by simp [hc, Cont.InCommit]) hrun
  | end_op hrun hc he => exact h.end_op hc hrun he
  | commit hrun hm => exact h.commitStep hrun hm

end

/-! ## Headers, in memory and on disk -/

section
variable {s s' : State P}

/-- What `log_write` tested before it took the lock still holds under it: the
block is recorded, or there is room for it in the log. -/
def Rechecked (s : State P) (a : Action P) : Prop :=
  ∀ p b, a = .append p → s.cont p = .append b → b ∈ s.lh.toList ∨ s.lh.n < nlog - 1

structure Sane (s : State P) : Prop where
  header : s.lh.Ok
  disk : (LogHeader.get (s.disk logstart)).Ok
  /-- the buffers of the log are clean -/
  synced : ∀ b, ¬ Home b → s.buf b = s.disk b
  inflight : ∀ p b, s.cont p = .append b → Home b
  cleared : ∀ p, s.cont p = .erase ∨ s.cont p = .committed → s.lh.n = 0
  clearedBoot : s.phase = .erase → s.lh.n = 0

theorem not_home_logstart : ¬ Home logstart := by decide

/-- A log block is no home block, nor the header. -/
theorem not_home_slot {t : Nat} (ht : t < nlog - 1) : ¬ Home (logstart + t + 1) := by
  unfold Home; omega

@[simp] theorem writeLog_buf (t : Nat) :
    (s.writeLog t).buf = Function.update s.buf (logstart + t + 1) (s.buf (s.lh.block t)) := rfl

@[simp] theorem writeLog_disk (t : Nat) :
    (s.writeLog t).disk = Function.update s.disk (logstart + t + 1) (s.buf (s.lh.block t)) := by
  simp [State.writeLog, State.bwrite, State.memmove]

@[simp] theorem install_buf (t : Nat) :
    (s.install t).buf = Function.update s.buf (s.lh.block t) (s.buf (logstart + t + 1)) := rfl

@[simp] theorem install_disk (t : Nat) :
    (s.install t).disk = Function.update s.disk (s.lh.block t) (s.buf (logstart + t + 1)) := by
  simp [State.install, State.bwrite, State.memmove]

@[simp] theorem write_head_buf : s.write_head.buf =
    Function.update s.buf logstart (s.lh.put (s.buf logstart) s.lh.n) := rfl

@[simp] theorem write_head_disk : s.write_head.disk =
    Function.update s.disk logstart (s.lh.put (s.buf logstart) s.lh.n) := by
  simp [State.write_head, State.bwrite]

/-- The buffers and the disk, when one block is written from its buffer. -/
theorem Sane.written (h : Sane s) (s' : State P) {a : Nat} {v : Block} (hb : s'.buf = Function.update s.buf a v)
    (hd : s'.disk = Function.update s.disk a v) {b : Nat} (hn : ¬ Home b) :
    s'.buf b = s'.disk b := by
  rw [hb, hd]
  by_cases hba : b = a
  · subst hba; simp
  · simp [hba, h.synced b hn]

/-- The header on disk after a write to another block, or by `write_head`. -/
theorem Sane.diskOk (h : Sane s) {a : Nat} {v : Block} (hd : s'.disk = Function.update s.disk a v)
    (ha : a ≠ logstart) : (LogHeader.get (s'.disk logstart)).Ok := by
  rw [hd, Function.update_of_ne (Ne.symm ha)]; exact h.disk

theorem Sane.write_head (h : Sane s) : (LogHeader.get (s.write_head.disk logstart)).toList =
    s.lh.toList := by
  rw [write_head_disk, Function.update_self]
  exact h.header.get_put _

theorem Sane.write_head_ok (h : Sane s) :
    (LogHeader.get (s.write_head.disk logstart)).Ok :=
  LogHeader.ok_of_toList h.write_head h.header

theorem Sane.poweron {disk : Nat → Block} (h : (LogHeader.get (disk logstart)).Ok) :
    Sane (State.poweron disk : State P) where
  header := LogHeader.ok_empty rfl
  disk := h
  synced _ _ := rfl
  inflight p b hp := by cases hp
  cleared p hp := by rcases hp with hp | hp <;> cases hp
  clearedBoot hp := by cases hp

theorem Sane.recoverStep (h : Sane s) (hi : ∀ p, s.cont p = .idle)
    (hs : s.recoverStep s.phase = .ok s') : Sane s' := by
  have hin : ∀ p b, s.cont p = .append b → Home b := h.inflight
  have hcl : ∀ p, ¬ (s.cont p = .erase ∨ s.cont p = .committed) := fun p => by simp [hi p]
  cases hp : s.phase <;> rw [hp] at hs <;> simp only [State.recoverStep] at hs
  case boot =>
    simp only [bind_ok, pure_ok, State.read_head] at hs
    obtain ⟨s₁, h1, rfl⟩ := hs
    split at h1
    · cases h1
      refine ⟨?_, h.disk, h.synced, hin, fun p hc => absurd hc (hcl p), fun hc => by cases hc⟩
      dsimp only
      rw [h.synced logstart not_home_logstart]; exact h.disk
    · cases h1
  case install t =>
    split at hs
    · next ht =>
      cases hs
      have hh : Home (s.lh.block t) := h.header.home _ (LogHeader.mem_toList.mpr ⟨t, ht, rfl⟩)
      have hne : s.lh.block t ≠ logstart := fun he => not_home_logstart (he ▸ hh)
      exact ⟨h.header, h.diskOk (install_disk t) hne,
        fun b hb => h.written (s.install t) (install_buf t) (install_disk t) hb, hin,
        fun p hc => absurd hc (hcl p), fun hc => by cases hc⟩
    · cases hs
      exact ⟨LogHeader.ok_empty rfl, h.disk, h.synced, hin, fun _ _ => rfl, fun _ => rfl⟩
  case erase =>
    cases hs
    exact ⟨h.header, h.write_head_ok,
      fun b hb => h.written s.write_head write_head_buf write_head_disk hb, hin,
      fun p hc => absurd hc (hcl p), fun hc => by cases hc⟩
  case running => cases hs

variable [DecidableEq P] {p : P} {c : Cont}

/-- A step of `commit` by `p`, given what it leaves of the header. -/
theorem Sane.move (h : Sane s) (hc : s'.cont = Function.update s.cont p c)
    (hph : s'.phase = s.phase) (hlh : s'.lh.Ok) (hd : (LogHeader.get (s'.disk logstart)).Ok)
    (hsy : ∀ b, ¬ Home b → s'.buf b = s'.disk b) (hin : ∀ b, c = .append b → Home b)
    (h0 : s'.lh.n = 0 ∨ s'.lh = s.lh ∧ c ≠ .erase ∧ c ≠ .committed) : Sane s' where
  header := hlh
  disk := hd
  synced := hsy
  inflight q b hq := by
    by_cases hqp : q = p
    · subst hqp; exact hin b (by simpa [hc] using hq)
    · exact h.inflight q b (by simpa [hc, hqp] using hq)
  cleared q hq := by
    rcases h0 with h0 | ⟨hl, h1, h2⟩
    · exact h0
    · by_cases hqp : q = p
      · subst hqp
        rw [hc, Function.update_self] at hq
        exact absurd hq (not_or.mpr ⟨h1, h2⟩)
      · rw [hl]; exact h.cleared q (by simpa [hc, hqp] using hq)
  clearedBoot hq := by
    rcases h0 with h0 | ⟨hl, -, -⟩
    · exact h0
    · rw [hl]; exact h.clearedBoot (hph ▸ hq)

theorem Sane.commitStep (h : Sane s) (hs : s.commitStep p (s.cont p) = .ok s') : Sane s' := by
  have hbound : ∀ t, t < s.lh.n → t < nlog - 1 := fun t ht => lt_of_lt_of_le ht h.header.bound
  cases hc : s.cont p <;> rw [hc] at hs <;> simp only [State.commitStep] at hs
  case idle => cases hs
  case inOp => cases hs
  case append => cases hs
  case commit =>
    cases hs
    refine h.move rfl rfl h.header h.disk h.synced (fun b hb => ?_) ?_
    · split at hb <;> cases hb
    · by_cases hn : s.lh.n > 0
      · exact .inr ⟨rfl, by simp [hn], by simp [hn]⟩
      · exact .inl (by simpa [State.setCont] using hn)
  case writeLog t =>
    split at hs
    · next ht =>
      cases hs
      refine h.move rfl rfl h.header (h.diskOk (writeLog_disk t) (by omega)) (fun b hb => ?_)
        (fun b hb => by cases hb) (.inr ⟨rfl, by simp, by simp⟩)
      exact h.written (s.writeLog t) (writeLog_buf t) (writeLog_disk t) hb
    · cases hs
      exact h.move rfl rfl h.header h.disk h.synced (fun b hb => by cases hb)
        (.inr ⟨rfl, by simp, by simp⟩)
  case writeHead =>
    cases hs
    refine h.move rfl rfl h.header h.write_head_ok (fun b hb => ?_) (fun b hb => by cases hb)
      (.inr ⟨rfl, by simp, by simp⟩)
    exact h.written s.write_head write_head_buf write_head_disk hb
  case install t =>
    split at hs
    · next ht =>
      cases hs
      have hh : Home (s.lh.block t) := h.header.home _ (LogHeader.mem_toList.mpr ⟨t, ht, rfl⟩)
      have hne : s.lh.block t ≠ logstart := fun he => not_home_logstart (he ▸ hh)
      refine h.move rfl rfl h.header (h.diskOk (install_disk t) hne) (fun b hb => ?_)
        (fun b hb => by cases hb) (.inr ⟨rfl, by simp, by simp⟩)
      exact h.written (s.install t) (install_buf t) (install_disk t) hb
    · cases hs
      exact h.move rfl rfl (LogHeader.ok_empty rfl) h.disk h.synced (fun b hb => by cases hb)
        (.inl rfl)
  case erase =>
    cases hs
    have h0 := h.cleared p (.inl hc)
    refine h.move rfl rfl h.header h.write_head_ok (fun b hb => ?_) (fun b hb => by cases hb)
      (.inl h0)
    exact h.written s.write_head write_head_buf write_head_disk hb
  case committed =>
    cases hs
    exact h.move rfl rfl h.header h.disk h.synced (fun b hb => by cases hb)
      (.inr ⟨rfl, by simp, by simp⟩)

theorem Sane.step {a : Action P} (h : Sane s) (ht : Turns s) (hG : Rechecked s a)
    (hs : step s a = .ok s') : Sane s' := by
  cases step_move hs with
  | crash => exact .poweron h.disk
  | recover hr => exact h.recoverStep (ht.offline (recoverStep_frame hr).1) hr
  | begin_op hrun hc =>
    unfold State.begin_op
    split
    · exact h
    · split
      · exact h
      · exact h.move rfl rfl h.header h.disk h.synced (fun b hb => by cases hb)
          (.inr ⟨rfl, by simp, by simp⟩)
  | @log_write p b d hrun hc hb hn =>
    refine h.move rfl rfl h.header h.disk (fun b' hb' => ?_) (fun b' hb' => ?_)
      (.inr ⟨rfl, by simp, by simp⟩)
    · have hne : b' ≠ b := by rintro rfl; exact hb' hb
      exact (Function.update_of_ne hne _ _).trans (h.synced b' hb')
    · cases hb'; exact hb
  | @append p b lh hrun hc hr =>
    have hlh := h.header.record (h.inflight p b hc) (hG p b rfl hc) hr
    refine ⟨hlh, h.disk, h.synced, fun q b' hq => ?_, fun q hq => ?_, fun hph => ?_⟩
    · by_cases hqp : q = p
      · subst hqp; simp [State.setCont] at hq
      · exact h.inflight q b' (by simpa [State.setCont, hqp] using hq)
    · -- a commit would run alone
      by_cases hqp : q = p
      · subst hqp; simp [State.setCont] at hq
      · have hq' : (s.cont q).InCommit := by
          have : s.cont q = .erase ∨ s.cont q = .committed := by
            simpa [State.setCont, hqp] using hq
          rcases this with hq | hq <;> rw [hq] <;> trivial
        exact absurd (by rw [hc]; trivial) (ht.alone (ht.committing.mpr ⟨q, hq'⟩) p)
    · exact absurd (hrun.symm.trans hph) (by simp)
  | @end_op p s' hrun hc he =>
    simp only [State.end_op] at he
    split at he
    · cases he
    · split at he <;> cases he <;>
        exact h.move rfl rfl h.header h.disk h.synced (fun b hb => by cases hb)
          (.inr ⟨rfl, by simp, by simp⟩)
  | commit hrun hm => exact h.commitStep hm

end

/-- What runs keep in which the tests of `log_write` hold under the lock. -/
structure Wf (s : State P) : Prop where
  turns : Turns s
  sane : Sane s

theorem Wf.poweron {disk : Nat → Block} (h : Formatted disk) :
    Wf (State.poweron disk : State P) where
  turns := .of_idle (fun _ => rfl) rfl rfl
  sane := .poweron (LogHeader.ok_empty (by
    unfold Formatted at h
    simp [LogHeader.get, h]))

theorem Wf.step [DecidableEq P] {s s' : State P} {a : Action P} (h : Wf s) (hG : Rechecked s a)
    (hs : step s a = .ok s') : Wf s' :=
  ⟨h.turns.step hs, h.sane.step h.turns hG hs⟩

end Xv6.Log
