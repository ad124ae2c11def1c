import Xv6.Log.Stages

/-!
# Crashes

The log's state, traced with the updates that operations made: those of
committed operations, those since the last commit, and those a crash dropped.
Between commits the home blocks are the updates of the committed operations,
replayed, and no operation is committed in part.

Two operations that pass the limit test of `log_write` together can record one
block more than the log area holds. `write_log` then overwrites the block after
it, with no commit.
-/

namespace Xv6.Log

open Lib Fs

variable {P : Type}

/-! ## Traces -/

/-- One `log_write`: the operation, the block and its new contents. -/
structure Update where
  op : Nat
  block : Nat
  data : Block

def Update.write (u : Update) : Nat × Block := (u.block, u.data)

structure Traced (P : Type) where
  s : State P
  /-- the operation a process is in, or was in last -/
  op : P → Nat
  /-- the number of the next operation -/
  next : Nat
  /-- of operations whose commit wrote its header -/
  committed : List Update
  /-- since the last commit -/
  current : List Update
  /-- lost in a crash -/
  dropped : List Update

namespace Traced

def updates (t : Traced P) : List Update := t.committed ++ t.current ++ t.dropped

def poweron (disk : Nat → Block) : Traced P where
  s := .poweron disk
  op _ := 0
  next := 0
  committed := []
  current := []
  dropped := []

variable [DecidableEq P]

/-- The trace after an action that takes the log to `s`. -/
def trace (t : Traced P) (s : State P) : Action P → Traced P
  | .begin_op p =>
    if s.cont p = .inOp then
      { t with s := s, op := Function.update t.op p t.next, next := t.next + 1 }
    else { t with s := s }
  | .log_write p b d => { t with s := s, current := t.current ++ [⟨t.op p, b, d⟩] }
  | .commit p =>
    if t.s.cont p = .writeHead then
      { t with s := s, committed := t.committed ++ t.current, current := [] }
    else { t with s := s }
  | .crash => { t with s := s, dropped := t.dropped ++ t.current, current := [] }
  | _ => { t with s := s }

def step (t : Traced P) (a : Action P) : Except Fault (Traced P) := do
  let s ← Log.step t.s a
  return t.trace s a

/-- The home blocks hold the updates of the committed operations, and no
operation is committed in part. -/
structure Atomic (disk : Nat → Block) (t : Traced P) : Prop where
  home : ∀ b, Home b → t.s.disk b = replay (t.committed.map Update.write) disk b
  whole : ∀ u ∈ t.committed, ∀ v ∈ t.current ++ t.dropped, u.op ≠ v.op

end Traced

/-! ## Numbers of operations -/

section
variable {s s' : State P} [DecidableEq P]

/-- A process is in an operation if it was, or if it was just admitted. -/
theorem step_inOp {a : Action P} (hs : step s a = .ok s') {q : P} (hq : (s'.cont q).InOp) :
    (s.cont q).InOp ∨ a = .begin_op q ∧ s'.cont q = .inOp := by
  have hmove : ∀ {p : P} {c : Cont}, s'.cont = Function.update s.cont p c →
      (c.InOp → (s.cont p).InOp) → (s.cont q).InOp := fun {p c} hc hin => by
    by_cases hqp : q = p
    · subst hqp; exact hin (by simpa [hc] using hq)
    · simpa [hc, hqp] using hq
  cases step_move hs with
  | crash => exact absurd hq id
  | recover hr => rw [(recoverStep_frame hr).2.1] at hq; exact .inl hq
  | @begin_op p hrun hp =>
    by_cases hqp : q = p
    · subst hqp
      obtain ⟨c, hc, -⟩ := begin_op_frame hp
      unfold State.begin_op at hq ⊢
      split at hq
      · exact .inl hq
      · split at hq
        · exact .inl hq
        · next h1 h2 => exact .inr ⟨rfl, by simp [h1, h2, State.setCont]⟩
    · obtain ⟨c, hc, -⟩ := begin_op_frame hp
      exact .inl (by simpa [hc, hqp] using hq)
  | log_write hrun hp => exact .inl (hmove rfl fun _ => by rw [hp]; trivial)
  | append hrun hp => exact .inl (hmove rfl fun _ => by rw [hp]; trivial)
  | @end_op p s' hrun hp he =>
    simp only [State.end_op] at he
    split at he
    · cases he
    · split at he <;> cases he <;> exact .inl (hmove rfl fun h => absurd h id)
  | @commit p s' hrun hm =>
    obtain ⟨c, hc, hin, -⟩ := commitStep_frame hm
    exact .inl (hmove hc fun h => absurd h hin)

end

namespace Traced

/-- The numbers of operations: a process in an operation has one that no earlier
operation had. -/
structure Numbered (t : Traced P) : Prop where
  lt : ∀ u ∈ t.updates, u.op < t.next
  active : ∀ p, (t.s.cont p).InOp → t.op p < t.next ∧ ∀ u ∈ t.committed ++ t.dropped, u.op ≠ t.op p
  fresh : ∀ u ∈ t.current, ∀ v ∈ t.committed ++ t.dropped, v.op ≠ u.op
  apart : ∀ u ∈ t.committed, ∀ v ∈ t.dropped, u.op ≠ v.op

theorem mem_updates {t : Traced P} {u : Update} :
    u ∈ t.updates ↔ u ∈ t.committed ∨ u ∈ t.current ∨ u ∈ t.dropped := by
  simp [updates]

structure Inv (disk : Nat → Block) (t : Traced P) : Prop where
  wf : Wf t.s
  carries : Carries t.s (replay (t.committed.map Update.write) disk) (t.current.map Update.write)
  numbered : t.Numbered

section
variable {t t' : Traced P}

/-- A step that makes no update and starts no operation. -/
theorem Numbered.keep (h : t.Numbered) (s : State P)
    (hin : ∀ q, (s.cont q).InOp → (t.s.cont q).InOp) : Numbered { t with s := s } where
  lt := h.lt
  active p hp := h.active p (hin p hp)
  fresh := h.fresh
  apart := h.apart

/-- The updates since the last commit become those of committed operations. -/
theorem Numbered.commit (h : t.Numbered) (s : State P) (hin : ∀ q, ¬ (s.cont q).InOp) :
    Numbered { t with s := s, committed := t.committed ++ t.current, current := [] } where
  lt u hu := h.lt u (by simpa [mem_updates, or_assoc] using hu)
  active p hp := absurd hp (hin p)
  fresh u hu := by cases hu
  apart u hu v hv := by
    rcases List.mem_append.mp hu with hu | hu
    · exact h.apart u hu v hv
    · exact (h.fresh u hu v (List.mem_append_right _ hv)).symm

theorem Numbered.crash (h : t.Numbered) (s : State P) (hin : ∀ q, ¬ (s.cont q).InOp) :
    Numbered { t with s := s, dropped := t.dropped ++ t.current, current := [] } where
  lt u hu := h.lt u (by
    simp only [mem_updates, List.mem_append, List.not_mem_nil, false_or] at hu ⊢
    exact hu.imp_right Or.symm)
  active p hp := absurd hp (hin p)
  fresh u hu := by cases hu
  apart u hu v hv := by
    rcases List.mem_append.mp hv with hv | hv
    · exact h.apart u hu v hv
    · exact h.fresh v hv u (List.mem_append_left _ hu)

theorem Numbered.log_write (h : t.Numbered) (s : State P) {p : P} (hp : (t.s.cont p).InOp)
    (b : Nat) (d : Block) (hin : ∀ q, (s.cont q).InOp → (t.s.cont q).InOp) :
    Numbered { t with s := s, current := t.current ++ [⟨t.op p, b, d⟩] } where
  lt u hu := by
    simp only [mem_updates, List.mem_append, List.mem_singleton] at hu
    rcases hu with hu | (hu | rfl) | hu
    · exact h.lt u (mem_updates.mpr (.inl hu))
    · exact h.lt u (mem_updates.mpr (.inr (.inl hu)))
    · exact (h.active p hp).1
    · exact h.lt u (mem_updates.mpr (.inr (.inr hu)))
  active q hq := h.active q (hin q hq)
  fresh u hu v hv := by
    rcases List.mem_append.mp hu with hu | hu
    · exact h.fresh u hu v hv
    · rw [List.mem_singleton.mp hu]; exact (h.active p hp).2 v hv
  apart := h.apart

variable [DecidableEq P]

@[simp] theorem trace_s (s : State P) (a : Action P) : (t.trace s a).s = s := by
  cases a <;> simp only [trace] <;> split <;> rfl

/-- The log takes the step, the trace follows. -/
theorem step_ok {a : Action P} : t.step a = .ok t' ↔
    ∃ s, Log.step t.s a = .ok s ∧ t' = t.trace s a := by
  simp only [step, bind_ok, pure_ok]
  exact exists_congr fun s => and_congr_right' eq_comm

theorem Numbered.begin_op (h : t.Numbered) (s : State P) {p : P}
    (hin : ∀ q, (s.cont q).InOp → (t.s.cont q).InOp ∨ q = p) :
    Numbered { t with s := s, op := Function.update t.op p t.next, next := t.next + 1 } where
  lt u hu := Nat.lt_succ_of_lt (h.lt u hu)
  active q hq := by
    by_cases hqp : q = p
    · subst hqp
      simp only [Function.update_self]
      refine ⟨Nat.lt_succ_self _, fun u hu => (h.lt u ?_).ne⟩
      exact mem_updates.mpr ((List.mem_append.mp hu).imp_right .inr)
    · simp only [Function.update_of_ne hqp]
      obtain ⟨hlt, hne⟩ := h.active q ((hin q hq).resolve_right hqp)
      exact ⟨Nat.lt_succ_of_lt hlt, hne⟩
  fresh := h.fresh
  apart := h.apart

theorem Numbered.step {a : Action P} (h : t.Numbered) (hw : Wf t.s) (hs : t.step a = .ok t') :
    t'.Numbered := by
  obtain ⟨s, hl, rfl⟩ := step_ok.mp hs
  have hin := fun q (hq : (s.cont q).InOp) => step_inOp hl hq
  have hold : (∀ p, a ≠ .begin_op p) → ∀ q, (s.cont q).InOp → (t.s.cont q).InOp := fun ha q hq =>
    (hin q hq).resolve_right fun he => ha q he.1
  cases a with
  | crash => cases hl; exact h.crash _ fun q hq => hq
  | recover => exact h.keep s (hold fun p he => by cases he)
  | append p => exact h.keep s (hold fun p he => by cases he)
  | end_op p => exact h.keep s (hold fun p he => by cases he)
  | log_write p b d =>
    have hp : t.s.cont p = .inOp := by cases step_move hl; assumption
    exact h.log_write s (by rw [hp]; trivial) b d (hold fun p he => by cases he)
  | begin_op p =>
    simp only [trace]
    split
    · refine h.begin_op s fun q hq => (hin q hq).imp id ?_
      rintro ⟨he, -⟩
      cases he
      rfl
    · next hno =>
      refine h.keep s fun q hq => (hin q hq).resolve_right ?_
      rintro ⟨he, hq'⟩
      cases he
      exact hno hq'
  | commit p =>
    have hin' := hold fun p he => by cases he
    simp only [trace]
    split
    · next hp =>
      -- a commit runs alone
      refine h.commit s fun q hq => hw.turns.alone ?_ q (hin' q hq)
      exact hw.turns.committing.mpr ⟨p, by rw [hp]; trivial⟩
    · exact h.keep s hin'

theorem Inv.step {disk : Nat → Block} {a : Action P} (h : t.Inv disk) (hG : Rechecked t.s a)
    (hs : t.step a = .ok t') : t'.Inv disk := by
  obtain ⟨s, hl, rfl⟩ := step_ok.mp hs
  refine ⟨by rw [trace_s]; exact h.wf.step hG hl, ?_, h.numbered.step h.wf hs⟩
  have hc := h.carries
  have ht := h.wf.turns
  cases step_move hl with
  | crash => exact hc.crash
  | recover hr => exact hc.recoverStep h.wf.sane (ht.offline (recoverStep_frame hr).1) hr
  | begin_op hrun hp => simp only [trace]; split <;> exact hc.begin_op ht hrun hp
  | @log_write p b d hrun hp hb hn =>
    simp only [trace, List.map_append]
    exact hc.log_write ht hrun hp b d
  | append hrun hp hr => exact hc.append ht hrun hp hr
  | end_op hrun hp he => exact hc.end_op ht hrun hp he
  | commit hrun hm =>
    obtain ⟨hhead, helse⟩ := hc.commitStep h.wf hrun hm
    simp only [trace]
    split
    · next hp =>
      simp only [List.map_append, replay_append]
      exact hhead hp
    · next hp => exact helse hp

end

end Traced

theorem inv_poweron [DecidableEq P] {disk : Nat → Block} (hd : Formatted disk) :
    (Traced.poweron disk : Traced P).Inv disk := by
  refine ⟨.poweron hd, ?_, ?_⟩
  · refine .of_offline (by simp [Traced.poweron, State.poweron]) ?_ (fun _ => rfl) rfl rfl trivial
    have hnil : (LogHeader.get (disk logstart)).toList = [] := by
      unfold Formatted at hd
      simp [LogHeader.toList, LogHeader.get, hd]
    rw [DiskShows, Traced.poweron, State.poweron, hnil]
    exact .of_nil fun _ _ => rfl
  · exact ⟨fun u hu => (by cases hu), fun p hp => absurd hp id, fun u hu => (by cases hu),
      fun u hu => (by cases hu)⟩

theorem Traced.Inv.atomic {disk : Nat → Block} {t : Traced P} (hI : t.Inv disk)
    (hrun : t.s.phase = .running) (hc : t.s.committing = false) : t.Atomic disk := by
  have hno := hI.wf.turns.not_inCommit hc
  have hnil := hI.carries.clean hrun fun q hq => hno q hq.inCommit
  have hshows := hI.carries.disk
  rw [DiskShows, hnil] at hshows
  refine ⟨fun b hb => hshows.home_eq hb, fun u hu v hv => ?_⟩
  rcases List.mem_append.mp hv with hv | hv
  · exact hI.numbered.fresh v hv u (List.mem_append_left _ hu)
  · exact hI.numbered.apart u hu v hv

/-- One operation, a crash right after its commit wrote the header, recovery. -/
def committedOp : List (Action (Fin 3)) :=
  [.recover, .recover, .recover, .begin_op 0, .log_write 0 1000 (fun _ => 1), .append 0,
    .end_op 0, .commit 0, .commit 0, .commit 0, .commit 0, .crash, .recover, .recover, .recover,
    .recover]

section
variable [DecidableEq P]

theorem Traced.trace_updates {t : Traced P} {s : State P} {a : Action P} {u : Update}
    (hu : u ∈ (t.trace s a).updates) : u ∈ t.updates ∨ ∃ p, a = .log_write p u.block u.data := by
  cases a with
  | log_write p b d =>
    simp only [Traced.trace, Traced.mem_updates, List.mem_append, List.mem_singleton] at hu ⊢
    rcases hu with hu | (hu | rfl) | hu
    · exact .inl (.inl hu)
    · exact .inl (.inr (.inl hu))
    · exact .inr ⟨p, rfl⟩
    · exact .inl (.inr (.inr hu))
  | crash =>
    simp only [Traced.trace, Traced.mem_updates, List.mem_append, List.not_mem_nil,
      false_or] at hu
    exact .inl (Traced.mem_updates.mpr (hu.imp_right Or.symm))
  | commit p =>
    simp only [Traced.trace] at hu
    split at hu
    · simp only [Traced.mem_updates, List.mem_append, List.not_mem_nil, false_or] at hu
      exact .inl (Traced.mem_updates.mpr (or_assoc.mp hu))
    · exact .inl hu
  | begin_op p => simp only [Traced.trace] at hu; split at hu <;> exact .inl hu
  | append => exact .inl hu
  | end_op => exact .inl hu
  | recover => exact .inl hu

/-- A run of the log, traced: its updates are those of its `log_write`s. -/
theorem Traced.exec_of_log : ∀ (as : List (Action P)) (t : Traced P) (s : State P),
    exec Log.step Always t.s as = some s →
    ∃ t', exec Traced.step Always t as = some t' ∧ t'.s = s ∧
      ∀ u ∈ t'.updates, u ∈ t.updates ∨ ∃ p, .log_write p u.block u.data ∈ as
  | [], t, s, h => by cases h; exact ⟨t, rfl, rfl, fun u hu => .inl hu⟩
  | a :: as, t, s, h => by
    obtain ⟨s₁, -, hs, h⟩ := exec_cons.mp h
    obtain ⟨t', ht, rfl, hu⟩ := exec_of_log as (t.trace s₁ a) s (by rw [trace_s]; exact h)
    refine ⟨t', exec_cons.mpr ⟨_, trivial, step_ok.mpr ⟨s₁, hs, rfl⟩, ht⟩, rfl, fun u hm => ?_⟩
    rcases hu u hm with hm | ⟨p, hp⟩
    · rcases trace_updates hm with hm | ⟨p, rfl⟩
      · exact .inl hm
      · exact .inr ⟨p, List.mem_cons_self⟩
    · exact .inr ⟨p, List.mem_cons_of_mem _ hp⟩

/-- `write_log` copies blocks beyond its range to the blocks `logstart + k + 1` on. -/
theorem exec_writeLog (p : P) : ∀ (m k : Nat) (s : State P), s.phase = .running →
    s.cont p = .writeLog k → k + m ≤ s.lh.n → (∀ i < s.lh.n, logstart + k + m < s.lh.block i) →
    ∃ t, exec step Always s (List.replicate m (.commit p)) = some t ∧
      (∀ b ≤ logstart + k, t.disk b = s.disk b) ∧
      ∀ i < m, t.disk (logstart + (k + i) + 1) = s.buf (s.lh.block (k + i))
  | 0, k, s, _, _, _, _ => ⟨s, rfl, fun _ _ => rfl, fun i hi => by omega⟩
  | m + 1, k, s, hrun, hc, hn, hb => by
    have hs : step s (.commit p) = .ok ((s.writeLog k).setCont p (.writeLog (k + 1))) := by
      simp only [step, hrun, Action.proc?, hc, stepProc, State.commitStep]
      rw [if_pos (by omega)]
    obtain ⟨t, ht, hlow, hcopy⟩ := exec_writeLog p m (k + 1)
      ((s.writeLog k).setCont p (.writeLog (k + 1))) hrun (Function.update_self ..)
      (show k + 1 + m ≤ s.lh.n by omega) fun i hi => by
        have : logstart + k + (m + 1) < s.lh.block i := hb i hi
        show _ < s.lh.block i
        omega
    refine ⟨t, exec_cons.mpr ⟨_, trivial, hs, ht⟩, fun b hbk => ?_, fun i hi => ?_⟩
    · rw [hlow b (by omega)]
      show (s.writeLog k).disk b = _
      rw [writeLog_disk, Function.update_of_ne (by omega)]
    · cases i with
      | zero =>
        rw [hlow _ (by omega)]
        show (s.writeLog k).disk _ = _
        rw [writeLog_disk]
        simp
      | succ i =>
        have h1 := hcopy i (by omega)
        have h2 : (s.writeLog k).buf (s.lh.block (k + 1 + i)) = s.buf (s.lh.block (k + 1 + i)) := by
          have := hb (k + 1 + i) (by omega)
          rw [writeLog_buf, Function.update_of_ne (by omega)]
        rw [show k + (i + 1) = k + 1 + i by omega]
        exact h1.trans h2

/-- Recovery with an empty header copies nothing. -/
theorem exec_recover_empty {s : State P} (h : (s.disk logstart).word 0 = 0) :
    ∃ t, exec step Always s [.crash, .recover, .recover, .recover] = some t ∧
      t.phase = .running ∧ t.committing = false ∧ ∀ b, b ≠ logstart → t.disk b = s.disk b := by
  have hn : (LogHeader.get (s.disk logstart)).n = 0 := by simp [LogHeader.get, h]
  let s₁ : State P := { State.poweron s.disk with
    lh := LogHeader.get (s.disk logstart), phase := .install 0 }
  have h1 : step (.poweron s.disk) .recover = .ok s₁ := by
    simp [step, State.recoverStep, State.poweron, State.read_head, hn, s₁]
  have h2 : step s₁ .recover = .ok { s₁.clear with phase := .erase } := by
    simp [step, State.recoverStep, hn, s₁]
  have h3 : step { s₁.clear with phase := .erase } .recover =
      .ok { State.write_head { s₁.clear with phase := .erase } with phase := .running } := rfl
  refine ⟨_, exec_cons.mpr ⟨_, trivial, rfl, exec_cons.mpr ⟨_, trivial, h1,
    exec_cons.mpr ⟨_, trivial, h2, exec_cons.mpr ⟨_, trivial, h3, rfl⟩⟩⟩⟩, rfl, rfl,
    fun b hb => ?_⟩
  show (State.write_head { s₁.clear with phase := .erase }).disk b = _
  rw [write_head_disk, Function.update_of_ne hb]
  rfl

end

/-- The steps of processes 1 and 2 that log two new blocks at once, then all end
their operations and 2 starts the commit. -/
def race (d : Block) : List (Action (Fin 3)) :=
  [.log_write 1 1118 d, .log_write 2 1119 d, .append 1, .append 2, .end_op 0, .end_op 1, .end_op 2,
    .commit 2]

theorem exec_race {s : State (Fin 3)} (d : Block) (hrun : s.phase = .running)
    (hc : ∀ p, s.cont p = .inOp) (ho : s.outstanding = 3) (hcm : s.committing = false)
    (hn : s.lh.n = 118) (h1 : 1118 ∉ s.lh.toList) (h2 : 1119 ∉ s.lh.toList) :
    ∃ t, exec step Always s (race d) = some t ∧ t.phase = .running ∧ t.cont 2 = .writeLog 0 ∧
      t.lh.toList = s.lh.toList ++ [1118, 1119] ∧ t.disk = s.disk ∧ t.buf 1119 = d := by
  obtain ⟨lh₁, hr₁⟩ := LogHeader.record_of_not_mem h1 (by rw [hn]; decide)
  have hl₁ := LogHeader.record_toList hr₁
  rw [if_neg h1] at hl₁
  have hn₁ : lh₁.n = 119 := by rw [← LogHeader.length_toList, hl₁]; simp [hn]
  have h2' : 1119 ∉ lh₁.toList := by rw [hl₁]; simp [h2]
  obtain ⟨lh₂, hr₂⟩ := LogHeader.record_of_not_mem h2' (by rw [hn₁]; decide)
  have hl₂ := LogHeader.record_toList hr₂
  rw [if_neg h2', hl₁] at hl₂
  have hn₂ : lh₂.n = 120 := by rw [← LogHeader.length_toList, hl₂]; simp [hn]
  let s₁ := { s with buf := Function.update s.buf 1118 d }.setCont 1 (.append 1118)
  let s₂ := { s₁ with buf := Function.update s₁.buf 1119 d }.setCont 2 (.append 1119)
  let s₃ := { s₂ with lh := lh₁ }.setCont 1 .inOp
  let s₄ := { s₃ with lh := lh₂ }.setCont 2 .inOp
  let s₅ := { s₄.setCont 0 .idle with outstanding := 2 }
  let s₆ := { s₅.setCont 1 .idle with outstanding := 1 }
  let s₇ := { s₆.setCont 2 .commit with outstanding := 0, committing := true }
  have e₁ : step s (.log_write 1 1118 d) = .ok s₁ :=
    step_log_write hrun (hc 1) (show Home 1118 by decide) (by rw [hn]; decide) (by omega) d
  have e₂ : step s₁ (.log_write 2 1119 d) = .ok s₂ :=
    step_log_write (s := s₁) hrun (by simp [s₁, State.setCont, hc]) (show Home 1119 by decide)
      (show s.lh.n < nlog - 1 by rw [hn]; decide) (show 1 ≤ s.outstanding by omega) d
  have e₃ : step s₂ (.append 1) = .ok s₃ := step_append hrun (by simp [s₂, s₁, State.setCont]) hr₁
  have e₄ : step s₃ (.append 2) = .ok s₄ := step_append hrun (by simp [s₃, s₂, State.setCont]) hr₂
  have e₅ : step s₄ (.end_op 0) = .ok s₅ := by
    simp [step, s₅, s₄, s₃, s₂, s₁, State.setCont, hrun, Action.proc?, hc, stepProc, State.end_op,
      hcm, ho]
  have e₆ : step s₅ (.end_op 1) = .ok s₆ := by
    simp [step, s₆, s₅, s₄, s₃, s₂, s₁, State.setCont, hrun, Action.proc?, stepProc, State.end_op,
      hcm]
  have e₇ : step s₆ (.end_op 2) = .ok s₇ := by
    simp [step, s₇, s₆, s₅, s₄, s₃, s₂, s₁, State.setCont, hrun, Action.proc?, stepProc,
      State.end_op, hcm]
  have e₈ : step s₇ (.commit 2) = .ok (s₇.setCont 2 (.writeLog 0)) := by
    simp [step, s₇, s₆, s₅, s₄, s₃, s₂, s₁, State.setCont, hrun, Action.proc?, stepProc,
      State.commitStep, hn₂]
  refine ⟨s₇.setCont 2 (.writeLog 0), ?_, hrun, by simp [State.setCont], hl₂.trans (by simp), rfl,
    by simp [s₇, s₆, s₅, s₄, s₃, s₂, State.setCont]⟩
  exact exec_cons.mpr ⟨s₁, trivial, e₁, exec_cons.mpr ⟨s₂, trivial, e₂,
    exec_cons.mpr ⟨s₃, trivial, e₃, exec_cons.mpr ⟨s₄, trivial, e₄,
    exec_cons.mpr ⟨s₅, trivial, e₅, exec_cons.mpr ⟨s₆, trivial, e₆,
    exec_cons.mpr ⟨s₇, trivial, e₇, exec_cons.mpr ⟨_, trivial, e₈, rfl⟩⟩⟩⟩⟩⟩⟩⟩

/-- 118 blocks are recorded, then the last two at once; the machine crashes when
`write_log` has copied all of them. -/
def racingRun : List (Action (Fin 3)) :=
  fillRun (fun _ => 1) 40 39 39 ++ race (fun _ => 1) ++ List.replicate 120 (.commit 2) ++
    [.crash, .recover, .recover, .recover]

theorem mem_passedBy [DecidableEq P] {p : P} {b : Nat} {d : Block} {as : List (Action P)}
    (h : .log_write p b d ∈ as) : b ∈ passedBy p as :=
  List.mem_filterMap.mpr ⟨_, h, by simp⟩

end Xv6.Log
