import Xv6.Threads.Wf

/-!
# How long a process runs

The allotment of a slot that can run is in the range of its level, so that at
most `time_quantom` timer interrupts separate it from the `yield` of `trap`. A
boost, or a new share, starts the count again, and a process with threads is not
preempted at all: those are the ways to run longer than 20 interrupts.
-/

namespace Xv6.Threads

open Lib
open Sched (NPROC Slot Level ProcState Ptr Chan int32)

/-! ## Allotments -/

/-- The allotment is in the range of the level. -/
def Proc.Allot (p : Proc) : Prop :=
  p.lev = 0 ∧ 1 ≤ p.time_allotment ∧ p.time_allotment ≤ 20 ∨
  p.lev = 1 ∧ 1 ≤ p.time_allotment ∧ p.time_allotment ≤ 40 ∨
  p.lev = 2 ∧ -2 ^ 31 ≤ p.time_allotment ∧ p.time_allotment < 2 ^ 31 ∨
  p.lev = Sched.STRIDE_LEV ∧ 1 ≤ p.time_allotment ∧ p.time_allotment ≤ 5

/-- The same inside `yield`, where the allotment may be used up. -/
def Proc.Spent (p : Proc) : Prop :=
  p.lev = 0 ∧ 0 ≤ p.time_allotment ∧ p.time_allotment ≤ 20 ∨
  p.lev = 1 ∧ 0 ≤ p.time_allotment ∧ p.time_allotment ≤ 40 ∨
  p.lev = 2 ∧ -2 ^ 31 ≤ p.time_allotment ∧ p.time_allotment < 2 ^ 31 ∨
  p.lev = Sched.STRIDE_LEV ∧ 0 ≤ p.time_allotment ∧ p.time_allotment ≤ 5

section
variable {p p' : Proc} {q : Int}

theorem Proc.Allot.congr (h : p.Allot) (hl : p'.lev = p.lev)
    (ha : p'.time_allotment = p.time_allotment) : p'.Allot := by
  unfold Proc.Allot at h ⊢
  rwa [hl, ha]

theorem Proc.Allot.spent (h : p.Allot) : p.Spent := by
  unfold Proc.Allot at h; unfold Proc.Spent
  omega

/-- The quantum of a level that allotments have. -/
theorem time_quantom_cases (h : time_quantom p.lev = .ok q) :
    p.lev = 0 ∧ q = 5 ∨ p.lev = 1 ∧ q = 10 ∨ p.lev = 2 ∧ q = 20 ∨
    p.lev = Sched.STRIDE_LEV ∧ q = 5 ∨ p.lev ≠ 0 ∧ p.lev ≠ 1 ∧ p.lev ≠ 2 ∧ p.lev ≠ Sched.STRIDE_LEV := by
  unfold time_quantom at h
  split at h
  · cases h
    grind [Sched.STRIDE_DEFAULT_TIME_QUANTOM]
  · cases h

/-- Interrupts left before `trap` calls `yield`. -/
def Proc.left (p : Proc) (q : Int) : Int := int32 (p.time_allotment - 1) % q + 1

theorem Proc.Allot.left_le (h : p.Allot) (hq : time_quantom p.lev = .ok q) : p.left q ≤ 20 := by
  have hc := time_quantom_cases hq
  unfold Proc.Allot at h; unfold Proc.left
  rcases hc with ⟨-, rfl⟩ | ⟨-, rfl⟩ | ⟨-, rfl⟩ | ⟨-, rfl⟩ | hc
  all_goals omega

theorem Proc.left_pos (hq : q ≠ 0) : 1 ≤ p.left q := by
  have := Int.emod_nonneg (int32 (p.time_allotment - 1)) hq
  unfold Proc.left
  omega

theorem Proc.Allot.tick_spent (h : p.Allot) :
    { p with time_allotment := int32 (p.time_allotment - 1) }.Spent := by
  have hge := @Sched.le_int32 (p.time_allotment - 1)
  have hlt := @Sched.int32_lt (p.time_allotment - 1)
  have hr := @Sched.int32_of_range (p.time_allotment - 1)
  unfold Proc.Allot at h; unfold Proc.Spent
  dsimp only
  omega

/-- An interrupt without `yield` brings the `yield` nearer. -/
theorem Proc.Allot.tick (h : p.Allot) (hq : time_quantom p.lev = .ok q)
    (hn : (int32 (p.time_allotment - 1)).tmod q ≠ 0) :
    { p with time_allotment := int32 (p.time_allotment - 1) }.Allot ∧
    { p with time_allotment := int32 (p.time_allotment - 1) }.left q + 1 ≤ p.left q := by
  have hm : int32 (p.time_allotment - 1) % q ≠ 0 := fun e =>
    hn (Int.tmod_eq_zero_of_dvd (Int.dvd_of_emod_eq_zero e))
  have hs := h.tick_spent
  have hr := @Sched.int32_of_range (int32 (p.time_allotment - 1) - 1)
  -- the one step at which the allotment wraps around
  have hw : int32 (-2 ^ 31 - 1) = 2 ^ 31 - 1 := by decide
  unfold Proc.Spent at hs
  unfold Proc.Allot Proc.left
  dsimp only at hs ⊢
  generalize int32 (p.time_allotment - 1) = a at *
  rcases time_quantom_cases hq with ⟨hl, rfl⟩ | ⟨hl, rfl⟩ | ⟨hl, rfl⟩ | ⟨hl, rfl⟩ | hl
  · omega
  · omega
  · rcases eq_or_ne a (-2 ^ 31) with rfl | ha
    · rw [hw]; omega
    · omega
  · have h9 : Sched.STRIDE_LEV = 9 := rfl
    omega
  · omega

theorem time_allotment_cases {lev a : Int} (h : time_allotment lev = .ok a) :
    lev = 0 ∧ a = 20 ∨ lev = 1 ∧ a = 40 ∨ lev = Sched.STRIDE_LEV ∧ a = 5 ∨
    lev ≠ 0 ∧ lev ≠ 1 ∧ lev ≠ Sched.STRIDE_LEV ∧ a = 0 := by
  unfold time_allotment at h
  split at h
  · cases h
    grind [Sched.STRIDE_DEFAULT_TIME_QUANTOM]
  · cases h

/-- A process that keeps its level has not used its allotment up. -/
theorem Proc.Spent.stay (h : p.Spent) (hl : p.lev < 3) (he : p.nextLev = p.lev) : p.Allot := by
  have h9 : Sched.STRIDE_LEV = 9 := rfl
  have h3 : (Sched.DEPTH_QUEUE : Int) = 3 := rfl
  unfold Proc.nextLev at he; unfold Proc.Spent at h; unfold Proc.Allot
  split at he <;> omega

theorem Proc.Spent.demote (h : p.Spent) (hl : p.lev < 3) (hn : p.nextLev ≠ p.lev) {a : Int}
    (ha : Threads.time_allotment p.nextLev = .ok a) :
    { p with lev := p.nextLev, time_allotment := a }.Allot := by
  have h9 : Sched.STRIDE_LEV = 9 := rfl
  have h3 : (Sched.DEPTH_QUEUE : Int) = 3 := rfl
  have hc := time_allotment_cases ha
  have hnl : p.nextLev = p.lev + 1 ∧ p.lev ≠ 2 := by
    unfold Proc.nextLev at hn ⊢
    split at hn
    · next hb => rw [if_pos hb]; exact ⟨rfl, by omega⟩
    · exact absurd rfl hn
  unfold Proc.Spent at h; unfold Proc.Allot
  dsimp only
  omega

theorem Proc.Spent.refill (h : p.Spent) {a : Int} (ha : Threads.time_allotment p.lev = .ok a) :
    { p with time_allotment := a }.Allot := by
  have hc := time_allotment_cases ha
  unfold Proc.Spent at h; unfold Proc.Allot
  dsimp only
  omega

end

/-! ## Slots whose clock stays -/

/-- The slot that is built has its allotment. -/
def Cont.filled : Cont → Option Slot
  | .allocEnqueue _ np | .forkCopy np | .forkPublish np | .threadShare np | .threadPublish np =>
    some np
  | _ => none

/-- The slot has got its allotment. -/
def Filled (s : State) (j : Slot) : Prop :=
  (s.proc j).state ≠ .UNUSED ∧ (s.proc j).state ≠ .EMBRYO ∨ ∃ i, (s.cont i).filled = some j

theorem Cont.filled_target {k : Cont} {j : Slot} (h : k.filled = some j) : k.target = some j := by
  cases k <;> simp_all [Cont.filled, Cont.target]

@[simp] theorem Cont.filled_enqueued {t : Bool} {np : Slot} :
    Cont.filled (if t then .threadShare np else .forkCopy np) = some np := by
  cases t <;> rfl

section
variable {ok : Proc → Prop} {K R : Slot → Prop} {s s' : State} {c : Nat} {i j : Slot}

theorem Filled.of_running (h : (s.proc j).state = .RUNNING) : Filled s j :=
  .inl (by simp [h])

theorem Filled.back (h : Filled s' j)
    (hst : (s'.proc j).state ≠ .UNUSED → (s'.proc j).state ≠ .EMBRYO → Filled s j)
    (hc : ∀ i, (s'.cont i).filled = some j → Filled s j) : Filled s j := by
  rcases h with ⟨h1, h2⟩ | ⟨i, hi⟩
  · exact hst h1 h2
  · exact hc i hi

/-- A slot that did not build before builds none after, or the same. -/
theorem filled_update {f : Slot → Cont} {k : Cont} {m : Slot} (hk : k.filled = none ∨ k.filled = (f i).filled)
    (h : (Function.update f i k m).filled = some j) : (f m).filled = some j := by
  by_cases hm : m = i
  · subst hm
    rw [Function.update_self] at h
    rcases hk with e | e
    · rw [e] at h; cases h
    · rwa [← e]
  · rwa [Function.update_of_ne hm] at h

/-- A slot gets its allotment before it can run, or keeps it. -/
theorem Move.filled (hw : Wf s) (m : Move ok K R s s') (h : Filled s' j) :
    Filled s j ∨ (s'.proc j).Allot := by
  cases m with
  | quiet q =>
    refine .inl (h.back (fun h1 h2 => .inl ?_) fun i hi => .inr ⟨i, ?_⟩)
    · have := (q.proc j).state
      grind
    · rcases q.cont i with e | ⟨-, -, e⟩
      · rwa [← e]
      · rw [Cont.filled_target hi] at e; cases e
  | run c i k hc _ hs _ hk =>
    refine .inl (h.back (fun h1 h2 => ?_) fun m hm => .inr ⟨m, filled_update ?_ hm⟩)
    · by_cases hj : j = i
      · subst hj; exact .inl (by simp [hs])
      · exact .inl (by simpa [hj] using And.intro h1 h2)
    · rcases hk with ⟨rfl, -⟩ | ⟨rfl, -⟩
      · exact .inr rfl
      · exact .inl rfl
  | leave c i st hc hst =>
    refine .inl (h.back (fun h1 h2 => ?_) fun m hm => .inr ⟨m, hm⟩)
    by_cases hj : j = i
    · subst hj; exact .of_running (hw.running c j hc)
    · exact .inl (by simpa [hj] using And.intro h1 h2)
  | alloc c i np t hc hk hu =>
    refine .inl (h.back (fun h1 h2 => ?_) fun m hm => .inr ⟨m, filled_update (.inl rfl) hm⟩)
    by_cases hj : j = np
    · subst hj; simp at h2
    · exact .inl (by simpa [hj] using And.intro h1 h2)
  | stack c i np t hc hk =>
    by_cases hj : j = np
    · subst hj; exact .inr (.inl (by simp [State.allocInit, Sched.INITIAL_LEV]))
    · refine .inl (h.back (fun h1 h2 => ?_) fun m hm => .inr ⟨m, ?_⟩)
      · exact .inl (by simpa [State.allocInit, hj] using And.intro h1 h2)
      · by_cases hm' : m = i
        · subst hm'; simp [State.allocInit, Cont.filled] at hm; exact absurd hm.symm hj
        · simpa [State.allocInit, hm'] using hm
  | noStack c i np t hc hk =>
    refine .inl (h.back (fun h1 h2 => ?_) fun m hm => .inr ⟨m, filled_update (.inl rfl) hm⟩)
    by_cases hj : j = np
    · subst hj; simp [State.allocFail] at h1
    · exact .inl (by simpa [State.allocFail, hj] using And.intro h1 h2)
  | enqueue c i np t hc hk =>
    refine .inl (h.back (fun h1 h2 => .inl ⟨h1, h2⟩) fun m hm =>
      .inr ⟨m, filled_update (.inr ?_) hm⟩)
    rw [Cont.filled_enqueued, hk]; rfl
  | copy c i np hc hk =>
    refine .inl (h.back (fun h1 h2 => .inl ?_) fun m hm => .inr ⟨m, filled_update (.inr ?_) hm⟩)
    · simpa [State.setupkvm, update_keep Proc.state] using And.intro h1 h2
    · show _ = (s.cont i).filled
      rw [hk]; rfl
  | noCopy c i np hc hk hf =>
    obtain ⟨-, rfl⟩ := kfree_ok hf
    refine .inl (h.back (fun h1 h2 => ?_) fun m hm => .inr ⟨m, filled_update (.inl rfl) hm⟩)
    by_cases hj : j = np
    · subst hj; simp [State.allocFail] at h1
    · exact .inl (by simpa [State.allocFail, hj] using And.intro h1 h2)
  | publish c i np hc hk =>
    refine .inl (h.back (fun h1 h2 => ?_) fun m hm =>
      .inr ⟨m, filled_update (.inl rfl) (filled_update (.inl rfl) hm)⟩)
    by_cases hj : j = np
    · subst hj; exact .inr ⟨i, by rw [hk]; rfl⟩
    · exact .inl (by simpa [hj] using And.intro h1 h2)
  | share c i nt hc hk =>
    refine .inl (h.back (fun h1 h2 => .inl ?_) fun m hm => .inr ⟨m, filled_update (.inr ?_) hm⟩)
    · simpa [update_keep Proc.state] using And.intro h1 h2
    · show _ = (s.cont i).filled
      rw [hk]; rfl
  | enter c i nt hc hk =>
    refine .inl (h.back (fun h1 h2 => ?_) fun m hm =>
      .inr ⟨m, filled_update (.inl rfl) (filled_update (.inl rfl) hm)⟩)
    by_cases hj : j = nt
    · subst hj; exact .inr ⟨i, by rw [hk]; rfl⟩
    · exact .inl (by simpa [hj, update_keep Proc.state] using And.intro h1 h2)
  | exit c i hc hk =>
    refine .inl (h.back (fun h1 h2 => ?_) fun m hm => .inr ⟨m, hm⟩)
    by_cases hj : j = i
    · subst hj; exact .of_running (hw.running c j hc)
    · exact .inl (by simpa [hj] using And.intro h1 h2)
  | reap z hz _ hf hv =>
    obtain ⟨-, rfl⟩ := kfree_ok hf
    obtain ⟨-, b, rfl, -⟩ := freevm_ok hv
    refine .inl (h.back (fun h1 h2 => ?_) fun m hm => .inr ⟨m, hm⟩)
    by_cases hj : j = z
    · subst hj; simp at h1
    · exact .inl (by simpa [hj] using And.intro h1 h2)
  | exec c i hc hk _ hv =>
    obtain ⟨-, b, rfl, -⟩ := freevm_ok hv
    refine .inl (h.back (fun h1 h2 => .inl ?_) fun m hm => .inr ⟨m, hm⟩)
    simpa [State.setupkvm, update_keep Proc.state] using And.intro h1 h2
  | scratch i hv =>
    obtain ⟨-, b, rfl, -⟩ := freevm_ok hv
    exact .inl (h.back (fun h1 h2 => .inl ⟨h1, h2⟩) fun m hm => .inr ⟨m, hm⟩)

/-- The level and the allotment of a slot, except where it gets its first ones. -/
theorem Move.clock (hw : Wf s) (m : Move ok K R s s') (hj : ¬ K j) :
    (s'.proc j).lev = (s.proc j).lev ∧ (s'.proc j).time_allotment = (s.proc j).time_allotment ∨
    (s'.proc j).Allot ∧ (s'.proc j).state = .EMBRYO := by
  cases m with
  | quiet q => exact .inl ((q.proc j).clock.resolve_left hj)
  | stack c i np t hc hk =>
    by_cases hn : j = np
    · subst hn
      exact .inr ⟨.inl (by simp [State.allocInit, Sched.INITIAL_LEV]),
        by simpa [State.allocInit] using hw.target i j (by rw [hk]; rfl)⟩
    · exact .inl (by simp [State.allocInit, hn])
  | noCopy c i np hc hk hf =>
    obtain ⟨-, rfl⟩ := kfree_ok hf
    exact .inl (by simp [State.allocFail, update_keep Proc.lev, update_keep Proc.time_allotment])
  | reap z hz _ hf hv =>
    obtain ⟨-, rfl⟩ := kfree_ok hf
    obtain ⟨-, b, rfl, -⟩ := freevm_ok hv
    exact .inl (by simp [update_keep Proc.lev, update_keep Proc.time_allotment])
  | exec c i hc hk _ hv =>
    obtain ⟨-, b, rfl, -⟩ := freevm_ok hv
    exact .inl (by simp [State.setupkvm, update_keep Proc.lev, update_keep Proc.time_allotment])
  | scratch i hv =>
    obtain ⟨-, b, rfl, -⟩ := freevm_ok hv
    exact .inl ⟨rfl, rfl⟩
  | _ =>
    exact .inl (by simp [State.allocFail, State.setupkvm, update_keep Proc.lev,
      update_keep Proc.time_allotment])

/-- A slot that runs has run, and has not lost its threads. -/
theorem Move.runs (hw : Wf s) (m : Move ok K R s s') (hr : ¬ R j) (h : (s'.proc j).state = .RUNNING) :
    (s.proc j).state = .RUNNING ∧
    ((s'.proc j).multi_threaded = false → (s.proc j).multi_threaded = false) := by
  cases m with
  | quiet q =>
    have := (q.proc j).state
    exact ⟨by grind, fun e => (q.proc j).multi ▸ e⟩
  | run c i k hc hi =>
    by_cases hn : j = i
    · subst hn; exact absurd hi hr
    · simpa [hn] using h
  | leave c i st hc hst =>
    by_cases hn : j = i
    · subst hn; rcases hst with rfl | rfl <;> simp at h
    · simpa [hn] using h
  | alloc c i np t hc hk hu =>
    by_cases hn : j = np
    · subst hn; simp at h
    · simpa [hn] using h
  | stack c i np t hc hk =>
    by_cases hn : j = np
    · subst hn
      have := hw.target i j (by rw [hk]; rfl)
      simp [State.allocInit, this] at h
    · simpa [State.allocInit, hn] using h
  | noStack c i np t hc hk =>
    by_cases hn : j = np
    · subst hn; simp [State.allocFail] at h
    · simpa [State.allocFail, hn] using h
  | enqueue c i np t hc hk => exact ⟨h, id⟩
  | copy c i np hc hk =>
    simpa [State.setupkvm, update_keep Proc.state, update_keep Proc.multi_threaded] using h
  | noCopy c i np hc hk hf =>
    obtain ⟨-, rfl⟩ := kfree_ok hf
    by_cases hn : j = np
    · subst hn; simp [State.allocFail] at h
    · simpa [State.allocFail, hn] using h
  | publish c i np hc hk =>
    by_cases hn : j = np
    · subst hn; simp at h
    · simpa [hn] using h
  | share c i nt hc hk =>
    by_cases hn : j = nt
    · subst hn
      have := hw.target i j (by rw [hk]; rfl)
      simp [this] at h
    · simpa [hn] using h
  | enter c i nt hc hk =>
    by_cases hn : j = nt
    · subst hn; simp at h
    · by_cases hi : j = i
      · subst hi
        exact ⟨by simpa [hn] using h, fun e => by simp [hn] at e⟩
      · simpa [hn, hi] using h
  | exit c i hc hk =>
    by_cases hn : j = i
    · subst hn; simp at h
    · simpa [hn] using h
  | reap z hz _ hf hv =>
    obtain ⟨-, rfl⟩ := kfree_ok hf
    obtain ⟨-, b, rfl, -⟩ := freevm_ok hv
    by_cases hn : j = z
    · subst hn; simp at h
    · simpa [hn] using h
  | exec c i hc hk _ hv =>
    obtain ⟨-, b, rfl, -⟩ := freevm_ok hv
    simpa [State.setupkvm, update_keep Proc.state, update_keep Proc.multi_threaded] using h
  | scratch i hv =>
    obtain ⟨-, b, rfl, -⟩ := freevm_ok hv
    exact ⟨h, id⟩

end

/-! ## `yield` refills -/

section
variable {s s' : State} {c : Nat} {i : Slot}

/-- The allotment that `charge` leaves. -/
theorem charge_spent (h : (s.proc i).Spent) (hf : (s.proc i).from_trap = false → (s.proc i).Allot) :
    ((s.charge i).proc i).Spent := by
  unfold State.charge
  split
  · exact h
  · next hft => simpa using (hf (by simpa using hft)).tick_spent

/-- What `adjust` leaves is in the range of the level again. -/
theorem adjust_allot (hp : (s.proc i).Spent) (h : s.adjust i = .ok s') :
    (s'.proc i).Allot ∧ (s'.proc i).state = (s.proc i).state := by
  have h9 : Sched.STRIDE_LEV = 9 := rfl
  unfold State.adjust at h
  dsimp only at h
  split at h
  · simp only [State.dequeue, State.enqueue, bind_ok, pure_ok] at h
    obtain ⟨s1, ⟨l, hl, _, -, rfl⟩, _, ⟨_, -, _, -, rfl⟩, h⟩ := h
    have hlev : (s.proc i).lev < 3 := by
      unfold level at hl
      split at hl
      · next hb => exact hb.2
      · cases hl
    split at h
    · next hne =>
      simp only [bind_ok, pure_ok] at h
      obtain ⟨a, ha, rfl⟩ := h
      refine ⟨?_, by simp [State.setQueue]⟩
      refine (hp.demote hlev hne ha).congr ?_ ?_ <;> simp [State.setQueue]
    · next he =>
      cases h
      refine ⟨?_, by simp [State.setQueue]⟩
      have he' := not_not.mp he
      refine (hp.stay hlev he').congr ?_ ?_ <;> simp [State.setQueue, he']
  · simp only [bind_ok, pure_ok] at h
    obtain ⟨a, ha, rfl⟩ := h
    refine ⟨?_, by simp⟩
    simpa using hp.refill ha

theorem yield_allot (hp : (s.proc i).Spent)
    (hf : (s.proc i).from_trap = false → (s.proc i).Allot) (h : s.yield c i = .ok s') :
    (s'.proc i).Allot ∧ (s'.proc i).state = .RUNNABLE := by
  obtain ⟨s1, s2, s3, -, hp1, h2, h3, h⟩ := yield_ok (K := fun _ => False) h
  have hp2 : s2.proc = s.proc := (acquire_proc h2).trans hp1
  have hs : ((s2.set i fun p => { p with state := .RUNNABLE }).proc i).Spent := by
    simp only [State.set_proc, Function.update_self, hp2]
    exact hp
  have hc := charge_spent hs fun e => by
    simp only [State.set_proc, Function.update_self, hp2] at e ⊢
    exact hf e
  have ha := adjust_allot hc h3
  rw [sched_proc h]
  refine ⟨ha.1, ha.2.trans ?_⟩
  unfold State.charge
  split <;> simp

end

/-! ## Interrupts in a row -/

/-- After `n` interrupts in a row, slot `j` is in time for its next `yield`. -/
structure InTime (s : State) (n : Nat) (j : Slot) : Prop where
  allot : Filled s j → (s.proc j).Allot
  off : (s.proc j).state ≠ .RUNNING → n = 0
  bound : n ≤ 20
  due : (s.proc j).state = .RUNNING → (s.proc j).multi_threaded = false →
    ∀ q, time_quantom (s.proc j).lev = .ok q → n + (s.proc j).left q ≤ 21

/-- The interrupts in a row, if the slot is still running. -/
def State.kept (s : State) (n : Nat) (j : Slot) : Nat :=
  if (s.proc j).state = .RUNNING then n else 0

section
variable {ok : Proc → Prop} {K R : Slot → Prop} {s s' : State} {n : Nat} {i j : Slot}

theorem InTime.of_allot (h : (s.proc j).Allot) : InTime s 0 j where
  allot _ := h
  off _ := rfl
  bound := Nat.zero_le _
  due _ _ q hq := by
    have := h.left_le hq
    omega

theorem InTime.of_vacant (h : ¬ Filled s j) : InTime s 0 j where
  allot hf := absurd hf h
  off _ := rfl
  bound := Nat.zero_le _
  due hr := absurd (.of_running hr) h

theorem InTime.self (h : InTime s n j) : s.kept n j = n := by
  unfold State.kept
  split
  · rfl
  · next e => exact (h.off e).symm

/-- **Step lemma**: a move that is no change of the clock of `j` keeps it in time. -/
theorem InTime.move (h : InTime s n j) (hw : Wf s) (m : Move ok K R s s') (hj : ¬ K j)
    (hr : R j → n = 0) : InTime s' (s'.kept n j) j := by
  have ha : Filled s' j → (s'.proc j).Allot := fun hf => by
    rcases m.clock hw hj with ⟨hl, ha⟩ | ⟨ha, -⟩
    · rcases m.filled hw hf with hf | ha'
      · exact (h.allot hf).congr hl ha
      · exact ha'
    · exact ha
  by_cases hf : Filled s' j
  · by_cases hn : s'.kept n j = 0
    · rw [hn]; exact .of_allot (ha hf)
    · have hrun : (s'.proc j).state = .RUNNING := by
        by_contra e; exact hn (if_neg e)
      have hk : s'.kept n j = n := if_pos hrun
      have hnr : ¬ R j := fun e => hn (hk.trans (hr e))
      obtain ⟨hrun', hm⟩ := m.runs hw hnr hrun
      rw [hk]
      refine ⟨ha, fun e => absurd hrun e, h.bound, fun _ hmt q hq => ?_⟩
      rcases m.clock hw hj with ⟨hl, hal⟩ | ⟨-, he⟩
      · have := h.due hrun' (hm hmt) q (hl ▸ hq)
        unfold Proc.left at this ⊢
        rwa [hal]
      · rw [he] at hrun; cases hrun
  · have hn : s'.kept n j = 0 := if_neg fun e => hf (.of_running e)
    rw [hn]; exact .of_vacant hf

theorem InTime.moves (h : InTime s n j) (hw : Wf s) (m : Moves ok K R s s') (hj : ¬ K j)
    (hr : R j → n = 0) :
    InTime s' (s'.kept n j) j := by
  induction m with
  | refl => rwa [h.self]
  | @tail s₁ s₂ hm m ih =>
    have hw1 := hw.moves hm
    have h2 := ih.move hw1 m hj fun e => by simp [State.kept, hr e]
    have hk : s₂.kept (s₁.kept n j) j = s₂.kept n j := by
      by_cases e : (s₂.proc j).state = .RUNNING
      · by_cases hrj : R j
        · simp [State.kept, hr hrj]
        · simp [State.kept, (m.runs hw1 hrj e).1]
      · simp [State.kept, e]
    rwa [hk] at h2

/-- A boost, or a new share, after at most 16 interrupts. -/
theorem InTime.refill (h : InTime s n j) (hn : (s.proc j).state = .RUNNING →
    (s.proc j).multi_threaded = false → n ≤ 16) (hs : (s'.proc j).state = (s.proc j).state)
    (hm : (s'.proc j).multi_threaded = (s.proc j).multi_threaded)
    (hl : (s'.proc j).lev = 0 ∧ (s'.proc j).time_allotment = 20 ∨
      (s'.proc j).lev = Sched.STRIDE_LEV ∧ (s'.proc j).time_allotment = 5) : InTime s' n j := by
  have h9 : Sched.STRIDE_LEV = 9 := rfl
  refine ⟨fun _ => ?_, fun e => h.off (hs ▸ e), h.bound, fun e hm' q hq => ?_⟩
  · unfold Proc.Allot; omega
  · have hn' := hn (hs ▸ e) (hm ▸ hm')
    have hc := time_quantom_cases hq
    have h5 : (s'.proc j).left 5 = 5 := by
      unfold Proc.left
      rcases hl with ⟨-, e⟩ | ⟨-, e⟩ <;> rw [e] <;> rfl
    have hq5 : q = 5 := by omega
    subst hq5
    omega

/-- The processes that a boost at the next interrupt of `i` finds running had at
most 16 interrupts. -/
def BoostSafe (s : State) (n : Slot → Nat) (i : Slot) : Prop :=
  (s.countTick i).MLFQ_ticks % Sched.PERIOD_BOOSTING = 0 →
    ∀ j, (s.proc j).state = .RUNNING → (s.proc j).multi_threaded = false → n j ≤ 16

theorem InTime.quiet (h : InTime s n j) (hw : Wf s) (q : Quiet (fun _ => False) s s') :
    InTime s' (s'.kept n j) j :=
  h.move hw (.quiet q : Move (fun _ => True) _ (fun _ => False) s s') id nofun

/-- An interrupt without `yield`. -/
theorem InTime.tick (h : InTime s n i) (hrun : (s.proc i).state = .RUNNING)
    (hm : (s.proc i).multi_threaded = false) {q : Int} (hq : time_quantom (s.proc i).lev = .ok q)
    (hq0 : q ≠ 0) (hne : (int32 ((s.proc i).time_allotment - 1)).tmod q ≠ 0)
    (hp : s'.proc i = { s.proc i with time_allotment := int32 ((s.proc i).time_allotment - 1) }) :
    InTime s' (n + 1) i := by
  obtain ⟨ha, hl⟩ := (h.allot (.of_running hrun)).tick hq hne
  rw [← hp] at ha hl
  have hd := h.due hrun hm q hq
  have hpos := Proc.left_pos (p := s'.proc i) hq0
  refine ⟨fun _ => ha, fun e => absurd (by rw [hp]; exact hrun) e, by omega, fun _ _ q' hq' => ?_⟩
  have hqq : q' = q := by
    rw [hp] at hq'
    exact Except.ok.inj (hq'.symm.trans hq)
  subst hqq
  push_cast
  omega

theorem boosted_inTime {n : Slot → Nat} {c : Nat} (hw : Wf s) (hn : ∀ j, InTime s (n j) j)
    (hb : BoostSafe s n i) (h : s.boosted c i = .ok s') : Wf s' ∧ ∀ j, InTime s' (n j) j ∧
      (s'.proc j).multi_threaded = (s.proc j).multi_threaded ∧
      (s'.proc j).state = (s.proc j).state := by
  have hw' := hw.quiet (boosted_quiet (K := fun _ => True) (fun _ => trivial) h)
  have hct : (s.countTick i).proc = s.proc := by
    unfold State.countTick
    split <;> rfl
  refine ⟨hw', fun j => ?_⟩
  unfold State.boosted at h
  split at h
  · next hd =>
    obtain ⟨s1, h1, h⟩ := bind_ok.mp h
    have hp : s'.proc j = { s.proc j with lev := 0, time_allotment := 20 } := by
      rw [release_proc h]
      simp only [acquire_proc h1, hct]
    refine ⟨(hn j).refill (hb hd j) ?_ ?_ (.inl ?_), ?_, ?_⟩ <;> simp [hp]
  · cases h
    have q : Quiet (fun _ => False) s (s.countTick i) := by
      unfold State.countTick
      split
      · exact ⟨fun _ => .refl _ _, fun _ => .inl rfl, rfl, rfl, rfl, rfl, rfl, rfl⟩
      · exact .refl s
    have hk : (s.countTick i).kept (n j) j = n j := by
      rw [State.kept, hct]; exact (hn j).self
    have hj := (hn j).quiet hw q
    rw [hk] at hj
    exact ⟨hj, by rw [hct], by rw [hct]⟩

/-- The interrupt of a process without threads. -/
theorem preempt_inTime {n : Slot → Nat} {c : Nat} (hw : Wf s) (hn : ∀ j, InTime s (n j) j)
    (hb : BoostSafe s n i) (hm : (s.proc i).multi_threaded = false) (hc : s.cur c = some i)
    (h : s.preempt c i = .ok s') (j : Slot) :
    InTime s' (s'.kept (if j = i then n j + 1 else n j) j) j := by
  obtain ⟨s1, h1, hmv⟩ : ∃ s₁, s.boosted c i = .ok s₁ ∧
      Moves (fun _ => True) (· = i) (fun _ => False) s₁ s' := preempt_moves rfl hc h
  obtain ⟨hw1, hn1⟩ := boosted_inTime hw hn hb h1
  by_cases hj : j = i
  · subst hj
    rw [if_pos rfl]
    have hi := (hn1 j).1
    have hrun : (s1.proc j).state = .RUNNING := (hn1 j).2.2.trans (hw.running c j hc)
    have hm1 : (s1.proc j).multi_threaded = false := (hn1 j).2.1.trans hm
    have ha := hi.allot (.of_running hrun)
    obtain ⟨s1', h1', h⟩ := bind_ok.mp h
    cases h1.symm.trans h1'
    rw [hm1, if_neg (by simp)] at h
    obtain ⟨q, hq, h⟩ := bind_ok.mp h
    replace hq : time_quantom (s1.proc j).lev = .ok q := by simpa using hq
    split at h
    · cases h
    · next hq0 =>
      split at h
      · next hne =>
        cases h
        rw [State.kept, if_pos (by simpa using hrun)]
        exact hi.tick hrun hm1 hq hq0 (by simpa using hne) (by simp)
      · obtain ⟨hy, hr⟩ := yield_allot (i := j) (by
          simp only [State.set_proc, Function.update_self]
          exact ha.tick_spent) (by simp) h
        rw [State.kept, if_neg (by simp [hr])]
        exact .of_allot hy
  · rw [if_neg hj]
    exact (hn1 j).1.moves hw1 hmv hj nofun

/-- The interrupted process is exiting, or it has no threads and no boost comes too late. -/
def Preempts (s : State) (n : Slot → Nat) (i : Slot) (user : Bool) : Prop :=
  ¬ ((s.proc i).killed ∧ user) → (s.proc i).multi_threaded = false ∧ BoostSafe s n i

instance (s : State) (n : Slot → Nat) (i : Slot) (user : Bool) : Decidable (Preempts s n i user) :=
  inferInstanceAs (Decidable (¬ _ → _ ∧ (_ = _ → ∀ _, _)))

theorem exit_state {c : Nat} (h : s.exit c i = .ok s') : (s'.proc i).state = .ZOMBIE := by
  unfold State.exit at h
  split at h
  · cases h
  · obtain ⟨s1, -, h⟩ := bind_ok.mp h
    dsimp only at h
    split at h
    · obtain ⟨s2, -, h⟩ := bind_ok.mp h
      rw [sched_proc h]; simp
    · rw [pure_bind] at h
      rw [sched_proc h]; simp

theorem trap_inTime {n : Slot → Nat} {c : Nat} {user : Bool} (hw : Wf s)
    (hn : ∀ j, InTime s (n j) j) (hg : ∀ i ∈ s.cur c, Preempts s n i user)
    (hk : user = true → ∀ i ∈ s.cur c, (s.cont i).Plain) (h : s.trap c user = .ok s') (j : Slot) :
    InTime s' (s'.kept (if s.cur c = some j then n j + 1 else n j) j) j := by
  unfold State.trap at h
  split at h
  · next hc =>
    cases h
    rw [hc, if_neg (by simp), (hn j).self]
    exact hn j
  · next i hc =>
    rw [hc]
    split at h
    · next hu =>
      have hm : Moves (fun _ => True) (fun _ => False) (fun _ => False) s s' :=
        exit_moves hc (hk hu.2 i hc) h
      have hmv := (hn j).moves hw hm id nofun
      by_cases hj : j = i
      · subst hj
        have hz : (s'.proc j).state ≠ .RUNNING := by simp [exit_state h]
        rw [State.kept, if_neg hz] at hmv ⊢
        exact hmv
      · rwa [if_neg (by simpa using Ne.symm hj)]
    · next hu =>
      rw [if_pos (hw.running c i hc)] at h
      obtain ⟨hm, hb⟩ := hg i hc (by simpa using hu)
      have := preempt_inTime hw hn hb hm hc h j
      simpa [eq_comm] using this

/-- Waking up others leaves a process that runs, and the clock, alone. -/
theorem wakeup_running {c : Nat} {chan : Chan} (h : s.wakeup c chan = .ok s') :
    s'.MLFQ_ticks = s.MLFQ_ticks ∧ s'.cur = s.cur ∧
    ∀ j, (s.proc j).state = .RUNNING ∨ (s'.proc j).state = .RUNNING → s'.proc j = s.proc j := by
  have hs : s'.MLFQ_ticks = s.MLFQ_ticks ∧ s'.cur = s.cur ∧ s'.proc = (s.wakeup1 chan).proc := by
    obtain ⟨s1, h1, h⟩ := bind_ok.mp h
    unfold State.acquire at h1
    split at h1
    · cases h1
      unfold State.release State.popcli at h
      split at h
      · split at h
        · cases h
        · cases h; exact ⟨rfl, rfl, rfl⟩
      · cases h
    · cases h1
  refine ⟨hs.1, hs.2.1, fun j hj => ?_⟩
  rw [hs.2.2] at hj ⊢
  simp only [State.wakeup1] at hj ⊢
  split
  · next hsl => rw [if_pos hsl, hsl.1] at hj; simp at hj
  · rfl

theorem timer_inTime {n : Slot → Nat} {c : Nat} {user : Bool} (hw : Wf s)
    (hn : ∀ j, InTime s (n j) j) (hg : ∀ i ∈ s.cur c, Preempts s n i user)
    (hk : user = true → ∀ i ∈ s.cur c, (s.cont i).Plain) (h : s.timer c user = .ok s') (j : Slot) :
    InTime s' (s'.kept (if s.cur c = some j then n j + 1 else n j) j) j := by
  unfold State.timer at h
  split at h
  · obtain ⟨s1, h1, h⟩ := bind_ok.mp h
    have q := wakeup_quiet (K := fun _ => False) h1
    obtain ⟨ht, hc, hp⟩ := wakeup_running h1
    have hn1 : ∀ j, InTime s1 (n j) j := fun j => by
      have hj := (hn j).quiet hw q
      have hk : s1.kept (n j) j = n j := by
        by_cases hr : (s.proc j).state = .RUNNING
        · rw [State.kept, hp j (.inl hr), if_pos hr]
        · rw [(hn j).off hr]; simp [State.kept]
      rwa [hk] at hj
    rw [← hc]
    refine trap_inTime (hw.quiet q) hn1 (fun i hi => ?_) (fun hu i hi => ?_) h j
    · rw [hc] at hi
      have hpi := hp i (.inl (hw.running c i hi))
      have hgi := hg i hi
      unfold Preempts BoostSafe State.countTick at hgi ⊢
      rw [hpi, ht]
      refine fun hk => (hgi hk).imp id fun hb hd j hj hm => ?_
      have hpj := hp j (.inr hj)
      rw [hpj] at hj hm
      refine hb ?_ j hj hm
      split at hd <;> simpa [*] using hd
    · rw [hc] at hi
      exact q.plain (hk hu i hi)
  · exact trap_inTime hw hn hg hk h j

/-- What `set_cpu_share` does to the slot that gets the share. -/
theorem set_cpu_share_proc {c : Nat} {share : Int} {room : Bool} {p : Slot}
    (hp : (if (s.proc i).tid ≠ 0 then (s.proc i).parent else some i) = some p)
    (h : s.set_cpu_share c i share room = .ok s') :
    s'.proc p = (if room ∧ 0 ≤ share then { s.proc p with
      share := share, lev := Sched.STRIDE_LEV, time_allotment := Sched.STRIDE_DEFAULT_TIME_QUANTOM }
      else s.proc p) := by
  unfold State.set_cpu_share at h
  split at h
  · next hr =>
    cases h
    rw [if_neg (by rintro ⟨h1, h2⟩; simp [h1] at hr; omega)]; rfl
  · next hr =>
    obtain ⟨s1, h1, h⟩ := bind_ok.mp h
    dsimp only at h
    rw [acquire_proc h1, hp] at h
    simp only [State.dequeue, bind_ok, pure_ok] at h
    obtain ⟨-, ⟨l, -, q, -, rfl⟩, s3, h3, rfl⟩ := h
    rw [if_pos (by simpa using hr), State.sysret_proc, release_proc h3]
    simp [State.setQueue, acquire_proc h1]

end

/-! ## Runs with their interrupts -/

/-- The state, with the interrupts in a row that each slot has had. -/
structure Ticked where
  s : State
  streak : Slot → Nat

/-- The action is a timer interrupt of the process. -/
def Action.Interrupts (s : State) : Action → Slot → Prop
  | .timer c _, i => s.cur c = some i
  | _, _ => False

instance (s : State) (a : Action) (i : Slot) : Decidable (a.Interrupts s i) :=
  match a with
  | .timer c _ => inferInstanceAs (Decidable (s.cur c = some i))
  | .schedule .. | .wakeup .. | .call .. => isFalse id

def Ticked.step (t : Ticked) (a : Action) : Except Fault Ticked := do
  let s ← Threads.step t.s a
  return ⟨s, fun i => s.kept (if a.Interrupts t.s i then t.streak i + 1 else t.streak i) i⟩

def Ticked.boot : Ticked := ⟨Threads.boot, fun _ => 0⟩

/-- No interrupt of a process with threads, no boost of a running process after
more than 16 interrupts in a row, and no new share either. -/
def SliceSafe (t : Ticked) : Action → Prop
  | .timer c user => ∀ i ∈ t.s.cur c, Preempts t.s t.streak i user
  | .call c (.set_cpu_share share room) => room ∧ 0 ≤ int32 share → ∀ i ∈ t.s.cur c, ∀ p,
      (if (t.s.proc i).tid ≠ 0 then (t.s.proc i).parent else some i) = some p →
      (t.s.proc p).state = .RUNNING → (t.s.proc p).multi_threaded = false → t.streak p ≤ 16
  | _ => True

instance (t : Ticked) (a : Action) : Decidable (SliceSafe t a) :=
  match a with
  | .timer c user => inferInstanceAs (Decidable (∀ i ∈ t.s.cur c, Preempts t.s t.streak i user))
  | .call c (.set_cpu_share share room) =>
    inferInstanceAs (Decidable (room ∧ 0 ≤ int32 share → ∀ i ∈ t.s.cur c, ∀ _, _ → _ → _ → _))
  | .schedule .. | .wakeup .. | .call _ .fork | .call _ .thread_create | .call _ (.kalloc _) |
    .call _ .allocEnqueue | .call _ (.forkCopy _) | .call _ .forkPublish | .call _ (.exec _) |
    .call _ .wait | .call _ (.threadShare _) | .call _ .threadPublish | .call _ .exit |
    .call _ (.kill _) | .call _ .sysYield | .call _ .yield | .call _ (.sleep _) |
    .call _ (.thread_exit _) | .call _ (.thread_join _) => isTrue trivial

structure Sliced (t : Ticked) : Prop where
  free : Free t.s
  wf : Wf t.s
  inTime : ∀ j, InTime t.s (t.streak j) j

section
variable {t t' : Ticked} {a : Action}

/-- A slot whose clock the action leaves alone. -/
theorem Sliced.other (h : Sliced t) {s' : State} (hs : step t.s a = .ok s') {j : Slot}
    (hj : ¬ Clocks t.s a j) : InTime s' (s'.kept (t.streak j) j) j := by
  refine (h.inTime j).moves h.wf (step_moves h.free (sole_true _ _) hs) hj ?_
  cases a with
  | schedule c i =>
    rintro rfl
    by_cases he : t.s.cur c ≠ none ∨ (t.s.proc j).state ≠ .RUNNABLE
    · simp only [step, State.schedule, if_pos he] at hs; cases hs
    · simp only [ne_eq, not_or, not_not] at he
      exact (h.inTime j).off (by simp [he.2])
  | _ => intro h; cases h

theorem Sliced.yield (h : Sliced t) {s' : State} {c : Nat} {i : Slot} (hc : t.s.cur c = some i)
    (hs : (t.s.setCont i .user).yield c i = .ok s') : InTime s' (s'.kept (t.streak i) i) i := by
  have ha := (h.inTime i).allot (.of_running (h.wf.running c i hc))
  have hy := yield_allot (s := t.s.setCont i .user) ha.spent (fun _ => ha) hs
  obtain ⟨hy, hr⟩ := hy
  rw [State.kept, if_neg (by simp [hr])]
  exact .of_allot hy

theorem Sliced.set_cpu_share (h : Sliced t) {s' : State} {c : Nat} {i j : Slot} {share : Int} {room : Bool}
    (hk : (t.s.cont i).Plain)
    (hj : (if (t.s.proc i).tid ≠ 0 then (t.s.proc i).parent else some i) = some j)
    (hg : room ∧ 0 ≤ share → (t.s.proc j).state = .RUNNING → (t.s.proc j).multi_threaded = false →
      t.streak j ≤ 16) (hs : t.s.set_cpu_share c i share room = .ok s') :
    InTime s' (s'.kept (t.streak j) j) j := by
  by_cases hr : room ∧ 0 ≤ share
  · have hp := set_cpu_share_proc hj hs
    rw [if_pos hr] at hp
    have hn : s'.kept (t.streak j) j = t.streak j := by
      rw [State.kept, hp]; exact (h.inTime j).self
    rw [hn]
    refine (h.inTime j).refill (hg hr) ?_ ?_ (.inr ?_) <;> simp [hp, Sched.STRIDE_DEFAULT_TIME_QUANTOM]
  · have he : !room ∨ share < 0 := by
      by_contra e
      simp only [Bool.not_eq_true', not_or, Bool.not_eq_false, not_lt] at e
      exact hr e
    rw [State.set_cpu_share, if_pos he] at hs
    cases hs
    exact (h.inTime j).quiet h.wf (.sysret hk _)

/-- **Step lemma**: a guarded step keeps every slot in time. -/
theorem Sliced.step (h : Sliced t) (hg : SliceSafe t a) (ht : t.step a = .ok t') : Sliced t' := by
  obtain ⟨s', hs, hst⟩ := bind_ok.mp ht
  cases hst
  have hw' := h.wf.moves (step_moves h.free (sole_true t.s a) hs)
  refine ⟨h.free.step_ok hs, hw', fun j => ?_⟩
  show InTime s' (s'.kept _ j) j
  cases a with
  | timer c user =>
    dsimp only [Threads.step] at hs
    split at hs
    · cases hs
    · next hu =>
      have := timer_inTime h.wf h.inTime hg (fun hus i hi => ?_) hs j
      · exact this
      · have hk : t.s.cont i = .user := by
          by_contra hne; exact hu ⟨hus, i, hi, hne⟩
        exact hk ▸ Cont.plain_user
  | schedule c i => exact h.other hs id
  | wakeup c chan => exact h.other hs id
  | call c a =>
    by_cases hj : Clocks t.s (.call c a) j
    · dsimp only [Threads.step] at hs
      split at hs
      · cases hs
      · next i hc =>
        unfold stepProc at hs
        cases a with
        | yield =>
          split at hs <;> try contradiction
          cases hc.symm.trans hj
          exact h.yield hc hs
        | set_cpu_share share room =>
          split at hs <;> try contradiction
          next hk heq =>
            cases heq
            obtain ⟨i', hc', hj⟩ := hj
            cases hc.symm.trans hc'
            refine h.set_cpu_share (by rw [hk]; exact Cont.plain_user) hj (fun hr => ?_) hs
            exact hg hr i hc j hj
        | _ => exact hj.elim
    · exact h.other hs hj

theorem sliced_boot : Sliced .boot where
  free := free_boot
  wf := wf_boot
  inTime j := by
    by_cases hj : j = 0
    · subst hj
      exact .of_allot (.inl (by simp [Ticked.boot, boot]))
    · refine .of_vacant ?_
      rintro (⟨hu, -⟩ | ⟨i, hi⟩)
      · simp [Ticked.boot, boot, hj] at hu
      · by_cases h0 : i = 0
        · subst h0; simp [Ticked.boot, boot, Cont.filled] at hi
        · simp [Ticked.boot, boot, h0, Cont.filled] at hi

end

/-- **Bounded slices**: if no process with threads is interrupted, and no boost or
new share starts the slice of a running process again after 16 interrupts, then no
process gets more than 20 interrupts in a row. -/
theorem slices_bounded {t : Ticked} (h : Reach Ticked.step SliceSafe .boot t) (j : Slot) :
    t.streak j ≤ 20 :=
  ((h.invariant sliced_boot fun _ _ _ hi hg hs => hi.step hg hs).inTime j).bound

/-- Init is interrupted four times. -/
def tickRun : List Action := .schedule 0 0 :: List.replicate 4 (.timer 0 true)

theorem slices_bounded_tickRun : ∃ t, exec Ticked.step SliceSafe .boot tickRun = some t ∧
    t.streak 0 = 4 ∧ t.streak 0 ≤ 20 := by
  obtain ⟨t, ht, hr, hp⟩ := Reach.of_any Ticked.step SliceSafe .boot (fun t => t.streak 0 = 4) tickRun
    (by decide +kernel)
  exact ⟨t, ht, hp, slices_bounded hr 0⟩

/-- Init takes a share before the first interrupt: with `MLFQ_ticks` at 0, every
interrupt boosts. -/
def boostRun : List Action :=
  [.schedule 0 0, .call 0 (.set_cpu_share 10 true)] ++ List.replicate 21 (.timer 0 true)

theorem boostRun_unbounded : ¬ ∀ t, Reach Ticked.step Always .boot t → ∀ j, t.streak j ≤ 20 := by
  intro h
  obtain ⟨t, -, hr, hp⟩ := Reach.of_any Ticked.step Always .boot (fun t => t.streak 0 = 21) boostRun
    (by decide +kernel)
  have := h t hr 0
  omega

end Xv6.Threads
