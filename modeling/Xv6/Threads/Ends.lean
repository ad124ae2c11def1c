import Xv6.Threads.Dirs
import Xv6.Threads.Slices

/-!
# The end of a process

`exit` changes the slot of its caller and passes its children on; the other
threads of the process go on. A slot that comes to life is a new process, or a
thread of the process whose `thread_create` takes it. If whoever exits is alone,
no slot of a process that has ended is alive again.
-/

namespace Xv6.Threads

open Lib
open Sched (NPROC Slot Level ProcState Ptr Chan int32)

/-- The slot that completes an `exit` by the action. -/
def Action.exits (s : State) : Action → Option Slot
  | .call c .exit => s.cur c
  | .timer c true => (s.cur c).filter fun i => (s.proc i).killed
  | _ => none

/-- The slot whose process gets a thread by the action. -/
def Action.creates (s : State) : Action → Option Slot
  | .call c .thread_create => s.cur c
  | _ => none

/-- The state, with the process of each slot and the processes of which a thread
has called `exit`. -/
structure Grouped where
  s : State
  process : Slot → Nat
  /-- no process has this number or a larger one -/
  next : Nat
  ended : List Nat

def Grouped.step (g : Grouped) (a : Action) : Except Fault Grouped := do
  let s ← Threads.step g.s a
  return {
    s := s
    process := fun j =>
      if (g.s.proc j).Live ∨ ¬ (s.proc j).Live then g.process j
      else ((a.creates g.s).map g.process).getD g.next
    next := g.next + 1
    ended := g.ended ++ ((a.exits g.s).map g.process).toList }

def Grouped.boot : Grouped := ⟨Threads.boot, fun _ => 0, 1, []⟩

/-- Whoever exits is the only thread of its process that is alive. -/
def EndSafe (g : Grouped) (a : Action) : Prop :=
  ∀ i ∈ a.exits g.s, ∀ j, j ≠ i → g.process j = g.process i → ¬ (g.s.proc j).Live

instance (g : Grouped) (a : Action) : Decidable (EndSafe g a) :=
  inferInstanceAs (Decidable (∀ i ∈ a.exits g.s, _))

/-- `scheduler` on CPU `c` may select slot `j`. -/
def Selects (s : State) (c : Nat) (j : Slot) : Prop :=
  s.cur c = none ∧ (s.proc j).state = .RUNNABLE

instance (s : State) (c : Nat) (j : Slot) : Decidable (Selects s c j) :=
  inferInstanceAs (Decidable (_ ∧ _))

structure Ended (g : Grouped) : Prop where
  free : Free g.s
  wf : Wf g.s
  lt : ∀ j, g.process j < g.next
  ended_lt : ∀ p ∈ g.ended, p < g.next
  /-- no slot of a process that has ended is alive -/
  dead : ∀ p ∈ g.ended, ∀ j, g.process j = p → ¬ (g.s.proc j).Live

section
variable {s s' : State} {g g' : Grouped} {a : Action}

theorem Proc.Live.of_running {p : Proc} (h : p.state = .RUNNING) : p.Live := by
  rw [Proc.Live, h]; decide

/-- A killed process exits at its next timer interrupt from user mode. -/
theorem timer_exit_state {c : Nat} {i : Slot} (hw : Wf s) (hc : s.cur c = some i)
    (hk : (s.proc i).killed = true) (h : s.timer c true = .ok s') :
    (s'.proc i).state = .ZOMBIE := by
  have ht : ∀ t : State, t.cur c = some i → t.proc i = s.proc i → t.trap c true = .ok s' →
      (s'.proc i).state = .ZOMBIE := fun t htc htp ht => by
    have he : (t.proc i).killed ∧ True := ⟨by rw [htp]; exact hk, trivial⟩
    simp only [State.trap, htc, if_pos he] at ht
    exact exit_state ht
  unfold State.timer at h
  split at h
  · obtain ⟨s1, h1, h⟩ := bind_ok.mp h
    obtain ⟨-, hcur, hp⟩ := wakeup_running h1
    exact ht s1 (hcur ▸ hc) (hp i (.inl (hw.running c i hc))) h
  · exact ht s hc rfl h

/-- After an exit the caller is a zombie. -/
theorem exits_zombie {i : Slot} (hw : Wf s) (hi : a.exits s = some i) (h : step s a = .ok s') :
    (s'.proc i).state = .ZOMBIE := by
  unfold Action.exits at hi
  split at hi
  · next c =>
    simp only [step, hi] at h
    unfold stepProc at h
    split at h <;> try contradiction
    exact exit_state h
  · next c =>
    rw [Option.filter_eq_some_iff] at hi
    dsimp only [step] at h
    split at h
    · cases h
    · exact timer_exit_state hw hi.1 hi.2 h
  · cases hi

/-- The creator of a thread runs. -/
theorem Wf.creates_live (hw : Wf s) {i : Slot} (hi : a.creates s = some i) : (s.proc i).Live := by
  unfold Action.creates at hi
  split at hi
  · exact .of_running (hw.running _ i hi)
  · cases hi

theorem Wf.exits_live (hw : Wf s) {i : Slot} (hi : a.exits s = some i) : (s.proc i).Live := by
  unfold Action.exits at hi
  split at hi
  · exact .of_running (hw.running _ i hi)
  · exact .of_running (hw.running _ i (Option.filter_eq_some_iff.mp hi).1)
  · cases hi

/-- An action by which a process exits creates no thread. -/
theorem Action.creates_of_exits {i : Slot} (hi : a.exits s = some i) : a.creates s = none := by
  unfold Action.exits at hi
  split at hi
  · rfl
  · rfl
  · cases hi

/-- The process of a slot that comes to life is new, or that of a running creator. -/
theorem Ended.born (h : Ended g) :
    ((a.creates g.s).map g.process).getD g.next = g.next ∨
    ∃ i, a.creates g.s = some i ∧ (g.s.proc i).Live ∧
      ((a.creates g.s).map g.process).getD g.next = g.process i := by
  cases hi : a.creates g.s with
  | none => exact .inl rfl
  | some i => exact .inr ⟨i, rfl, h.wf.creates_live hi, rfl⟩

/-- **Step lemma**: a guarded step revives no slot of a process that has ended. -/
theorem Ended.step (h : Ended g) (hg : EndSafe g a) (hs : g.step a = .ok g') : Ended g' := by
  obtain ⟨s', hs', he⟩ := bind_ok.mp hs
  cases he
  have hborn := h.born (a := a)
  refine ⟨h.free.step_ok hs', h.wf.moves (step_moves h.free (sole_true g.s a) hs'), fun j => ?_,
    fun p hp => ?_, fun p hp j hj hl => ?_⟩
  · dsimp only
    split
    · exact Nat.lt_succ_of_lt (h.lt j)
    · rcases hborn with e | ⟨i, -, -, e⟩
      · rw [e]; exact Nat.lt_succ_self _
      · rw [e]; exact Nat.lt_succ_of_lt (h.lt i)
  · rcases List.mem_append.mp hp with hp | hp
    · exact Nat.lt_succ_of_lt (h.ended_lt p hp)
    · obtain ⟨i, -, rfl⟩ := Option.map_eq_some_iff.mp (Option.mem_toList.mp hp)
      exact Nat.lt_succ_of_lt (h.lt i)
  · dsimp only at hj hl
    by_cases hlive : (g.s.proc j).Live
    · rw [if_pos (.inl hlive)] at hj
      rcases List.mem_append.mp hp with hp | hp
      · exact h.dead p hp j hj hlive
      · obtain ⟨i, hi, rfl⟩ := Option.map_eq_some_iff.mp (Option.mem_toList.mp hp)
        by_cases hji : j = i
        · subst hji
          exact hl.2 (exits_zombie h.wf hi hs')
        · exact hg i hi j hji hj hlive
    · rw [if_neg (by simp [hlive, hl])] at hj
      rcases List.mem_append.mp hp with hp | hp
      · rcases hborn with e | ⟨i, -, hi, e⟩
        · have := h.ended_lt p hp
          omega
        · exact h.dead p hp i (e.symm.trans hj) hi
      · obtain ⟨i, hi, rfl⟩ := Option.map_eq_some_iff.mp (Option.mem_toList.mp hp)
        rw [Action.creates_of_exits hi] at hj
        have := h.lt i
        simp only [Option.map_none, Option.getD_none] at hj
        omega

theorem ended_boot : Ended .boot where
  free := free_boot
  wf := wf_boot
  lt _ := Nat.zero_lt_one
  ended_lt p hp := by cases hp
  dead p hp := by cases hp

end

/-- **The end of a process**: if whoever exits is the only thread of its process
that is alive, then no scheduler selects a slot of a process after one of its
threads has exited. -/
theorem exit_ends {g : Grouped} (h : Reach Grouped.step EndSafe .boot g) :
    ∀ p ∈ g.ended, ∀ c j, g.process j = p → ¬ Selects g.s c j := by
  have hi : Ended g := h.invariant ended_boot fun _ _ _ hi hg hs => hi.step hg hs
  intro p hp c j hj hs
  exact hi.dead p hp j hj (by rw [Proc.Live, hs.2]; decide)

theorem exit_ends_forkExecRun : ∃ g, exec Grouped.step EndSafe .boot forkExecRun = some g ∧
    g.ended = [2] ∧ ∀ c j, g.process j = 2 → ¬ Selects g.s c j := by
  obtain ⟨g, hs, hr, hp⟩ := Reach.of_any Grouped.step EndSafe .boot (fun g => g.ended = [2])
    forkExecRun (by decide +kernel)
  exact ⟨g, hs, hp, exit_ends hr 2 (by rw [hp]; simp)⟩

/-- Init forks a child and waits for it; the child creates a thread and exits. -/
def threadExitRun : List Action := threadExecRun.dropLast ++ [.call 0 .exit]

/-- The thread of the child is runnable, and the CPU looks for a process to run. -/
theorem threadExitRun_selects : ¬ ∀ g, Reach Grouped.step Always .boot g →
    ∀ p ∈ g.ended, ∀ c j, g.process j = p → ¬ Selects g.s c j := by
  intro h
  obtain ⟨g, -, hr, hp⟩ := Reach.of_any Grouped.step Always .boot
    (fun g => (g.ended = [2] ∧ g.process 2 = 2) ∧ Selects g.s 0 2) threadExitRun (by decide +kernel)
  exact h g hr 2 (by rw [hp.1.1]; simp) 0 2 hp.1.2 hp.2

end Xv6.Threads
