import Xv6.Sched.Wf
import Xv6.Vm.Model

/-!
# A fork that fails

`fork` as one process runs it without interruption, with the memory it allocates:
the kernel stack in `allocproc`, then the page directory and the pages of the child
in `copyuvm`. `kalloc` fails when no frame is free, so the number of free frames says
at which of its calls `fork` runs out of memory.
-/

namespace Xv6.Sched

open Lib

/-- The kernel with its memory: what is allocated for each slot. -/
structure Machine where
  k : Kernel
  m : Vm.Mem
  kstack : Slot → Nat
  pgdir : Slot → Nat
  sz : Slot → Nat

inductive Halt where
  | sched (f : Fault)
  | vm (f : Vm.Fault)
  deriving DecidableEq, Repr

namespace Machine

variable (s : Machine)

/-- The child `np` of `i` has no memory: `fork` gives stack and slot back. -/
def forkNoMem (k : Kernel) (m : Vm.Mem) (i np : Slot) (stack : Nat) : Except Halt Machine := do
  let m ← (m.kfree stack).mapError .vm
  return { s with
    k := k.copyuvm i np false
    m := m
    pgdir := Function.update s.pgdir np 0
    kstack := Function.update s.kstack np 0 }

/-- `fork` from the return of `allocproc` on. -/
def forkBuild (k : Kernel) (m : Vm.Mem) (i np : Slot) (stack : Nat) : Except Halt Machine := do
  let (m, d) ← (m.copyuvm (s.pgdir i) (s.sz i)).mapError .vm
  match d with
  | none => s.forkNoMem k m i np stack
  | some d =>
    return {
      k := (k.copyuvm i np true).forkPublish i np
      m := m
      kstack := Function.update s.kstack np stack
      pgdir := Function.update s.pgdir np d
      sz := Function.update s.sz np (s.sz i) }

/-- `fork`, called by process `i`. -/
def fork (i : Slot) : Except Halt Machine :=
  match s.k.allocproc with
  | none => .ok { s with k := s.k.fork i }
  | some (np, _) =>
    match s.m.kalloc with
    | (m, none) => .ok { s with k := (s.k.fork i).kalloc i np false, m := m }
    | (m, some stack) => do
      let k ← (((s.k.fork i).kalloc i np true).allocEnqueue i np).mapError .sched
      s.forkBuild k m i np stack

end Machine

/-- The same queues, stride table, free slots and free frames. -/
structure Unchanged (s s' : Machine) : Prop where
  queues : ∀ l, (s'.k.ARRAYQUEUE l).last = (s.k.ARRAYQUEUE l).last ∧
    (s'.k.ARRAYQUEUE l).toList = (s.k.ARRAYQUEUE l).toList
  stable : s'.k.stable.last = s.k.stable.last ∧ s'.k.stable.toList = s.k.stable.toList
  unused : ∀ j, (s'.k.proc j).state = .UNUSED ↔ (s.k.proc j).state = .UNUSED
  free : ∀ p, p ∈ s'.m.free ↔ p ∈ s.m.free

section
variable {s s' : Machine} {k k' : Kernel} {m : Vm.Mem} {i np : Slot} {stack : Nat}

theorem mapError_ok {ε ε' α : Type} {f : ε → ε'} {x : Except ε α} {a : α} :
    x.mapError f = .ok a ↔ x = .ok a := by
  cases x with
  | ok b => exact ⟨fun h => by cases h; rfl, fun h => by cases h; rfl⟩
  | error e => exact ⟨fun h => (by cases h), fun h => (by cases h)⟩

/-- Where `allocproc` finds a slot. -/
theorem allocproc_some (h : k.allocproc = some (np, k')) :
    (k.proc np).state = .UNUSED ∧ k.fork i = k'.setCont i (.allocStack np) ∧
      k'.ARRAYQUEUE = k.ARRAYQUEUE ∧ k'.stable = k.stable ∧
      ∀ j, j ≠ np → k'.proc j = k.proc j := by
  have hf : k.fork i = k'.setCont i (.allocStack np) := by rw [Kernel.fork, h]
  unfold Kernel.allocproc at h
  split at h
  · cases h
  · next n hn =>
    cases h
    refine ⟨by simpa using findSlot_some hn, hf, rfl, rfl, fun j hj => ?_⟩
    exact Function.update_of_ne hj ..

theorem allocproc_none (h : k.allocproc = none) (j : Slot) : (k.proc j).state ≠ .UNUSED := by
  unfold Kernel.allocproc at h
  split at h
  · next hn =>
    have := List.find?_eq_none.mp hn j (List.mem_finRange j)
    simpa using this
  · cases h

/-- The last section of `allocproc` makes level 0 longer. -/
theorem allocEnqueue_last (h : k.allocEnqueue i np = .ok k') :
    (k'.ARRAYQUEUE 0).last = (k.ARRAYQUEUE 0).last + 1 := by
  obtain ⟨k1, h1, h⟩ := bind_ok.mp h
  cases h
  obtain ⟨l, hl, h1⟩ := bind_ok.mp h1
  obtain ⟨q, hq, h1⟩ := bind_ok.mp h1
  cases h1
  cases hl
  rw [Kernel.setCont_ARRAYQUEUE, Kernel.setQueue_ARRAYQUEUE]
  show (Function.update k.ARRAYQUEUE 0 q 0).last = _
  rw [Function.update_self]
  unfold SizedArray.push SizedArray.set? at hq
  split at hq
  · cases hq; rfl
  · cases hq

/-- What `fork` does after `allocproc` leaves the queues alone. -/
theorem forkBuild_queues (h : s.forkBuild k m i np stack = .ok s') :
    s'.k.ARRAYQUEUE = k.ARRAYQUEUE := by
  obtain ⟨⟨m1, d⟩, -, h⟩ := bind_ok.mp h
  cases d with
  | none =>
    obtain ⟨m2, -, h⟩ := bind_ok.mp h
    cases h
    rfl
  | some d =>
    cases h
    rfl

/-- **A failed fork** leaves queues, stride table, free slots and free frames as they
were if and only if it failed in `allocproc`: for want of a slot or of a kernel stack. -/
theorem failed_fork_iff (h : s.fork i = .ok s') (_ : s'.k.ret i = -1) :
    Unchanged s s' ↔ (∀ j, (s.k.proc j).state ≠ .UNUSED) ∨ s.m.free = [] := by
  unfold Machine.fork at h
  split at h
  · next ha =>
    cases h
    have hf : s.k.fork i = s.k.sysret i (-1) := by rw [Kernel.fork, ha]
    refine ⟨fun _ => .inl (allocproc_none ha), fun _ => ?_⟩
    rw [hf]
    exact ⟨fun _ => ⟨rfl, rfl⟩, ⟨rfl, rfl⟩, fun _ => Iff.rfl, fun _ => Iff.rfl⟩
  · next np k1 ha =>
    obtain ⟨hu, hf, hq, hst, hother⟩ := allocproc_some (i := i) ha
    split at h
    · next m1 hm =>
      have hfree : s.m.free = [] ∧ m1 = s.m := by
        unfold Vm.Mem.kalloc at hm
        split at hm
        · next e => cases hm; exact ⟨e, rfl⟩
        · cases hm
      cases h
      refine ⟨fun _ => .inr hfree.1, fun _ => ⟨fun l => ?_, ?_, fun j => ?_, fun p => ?_⟩⟩
      · show ((s.k.fork i).ARRAYQUEUE l).last = _ ∧ ((s.k.fork i).ARRAYQUEUE l).toList = _
        rw [hf, Kernel.setCont_ARRAYQUEUE, hq]
        exact ⟨rfl, rfl⟩
      · show (s.k.fork i).stable.last = _ ∧ (s.k.fork i).stable.toList = _
        rw [hf, Kernel.setCont_stable, hst]
        exact ⟨rfl, rfl⟩
      · show (Function.update (s.k.fork i).proc np _ j).state = .UNUSED ↔ _
        by_cases hj : j = np
        · subst hj
          simp [hu]
        · rw [Function.update_of_ne hj, hf, Kernel.setCont_proc, hother j hj]
      · rw [hfree.2]
    · next m1 stack hm =>
      -- from here on the new slot is in level 0
      obtain ⟨k2, h2, h⟩ := bind_ok.mp h
      have hlen := allocEnqueue_last (mapError_ok.mp h2)
      have hqs := forkBuild_queues h
      have hq0 : (((s.k.fork i).kalloc i np true).ARRAYQUEUE 0).last = (s.k.ARRAYQUEUE 0).last := by
        show ((s.k.fork i).ARRAYQUEUE 0).last = _
        rw [hf, Kernel.setCont_ARRAYQUEUE, hq]
      constructor
      · intro hun
        have := (hun.queues 0).1
        rw [hqs, hlen, hq0] at this
        omega
      · rintro (hno | hfree)
        · exact absurd hu (hno np)
        · rw [Vm.Mem.kalloc, hfree] at hm
          cases hm

/-- A step of the running process is what it does at its point of the code. -/
theorem step_of_stepProc {a : Action} {c : Cont} (hc : k.cur = some i) (hk : k.cont i = c)
    (ha : (∀ u, a ≠ .timer u) ∧ ∀ ch, a ≠ .wakeup ch) (h : stepProc k i c a = .ok k') :
    step k a = .ok k' := by
  unfold step
  rw [hc]
  cases a with
  | timer u => exact absurd rfl (ha.1 u)
  | wakeup ch => exact absurd rfl (ha.2 ch)
  | _ => dsimp only; rw [hk]; exact h

theorem allocEnqueue_cont (h : k.allocEnqueue i np = .ok k') :
    k'.cur = k.cur ∧ k'.cont i = .forkCopy np := by
  obtain ⟨k1, h1, h⟩ := bind_ok.mp h
  cases h
  obtain ⟨l, -, h1⟩ := bind_ok.mp h1
  obtain ⟨q, -, h1⟩ := bind_ok.mp h1
  cases h1
  exact ⟨rfl, Function.update_self ..⟩

/-- The parts of a `fork` of the running process are steps of the kernel. -/
theorem fork_reach (hc : s.k.cur = some i) (hk : s.k.cont i = .user) (h : s.fork i = .ok s') :
    Reach step Always s.k s'.k := by
  have h0 : Reach step Always s.k (s.k.fork i) :=
    .step .fork .init trivial (step_of_stepProc hc hk ⟨by simp, by simp⟩ rfl)
  unfold Machine.fork at h
  split at h
  · cases h
    exact h0
  · next np k1 ha =>
    have hcur : (s.k.fork i).cur = some i := by
      rw [Kernel.fork, ha]
      unfold Kernel.allocproc at ha
      split at ha
      · cases ha
      · cases ha; exact hc
    have hcont : (s.k.fork i).cont i = .allocStack np := by
      rw [Kernel.fork, ha]
      exact Function.update_self ..
    have h1 : ∀ ok, Reach step Always s.k ((s.k.fork i).kalloc i np ok) := fun ok =>
      h0.step (.kalloc ok) trivial (step_of_stepProc hcur hcont ⟨by simp, by simp⟩ rfl)
    split at h
    · cases h
      exact h1 false
    · next m1 stack hm =>
      obtain ⟨k2, h2, h⟩ := bind_ok.mp h
      have he := mapError_ok.mp h2
      have hcur' : ((s.k.fork i).kalloc i np true).cur = some i := hcur
      have hcont' : ((s.k.fork i).kalloc i np true).cont i = .allocEnqueue np :=
        Function.update_self ..
      have h2 : Reach step Always s.k k2 :=
        (h1 true).step .allocEnqueue trivial (step_of_stepProc hcur' hcont' ⟨by simp, by simp⟩ he)
      obtain ⟨hc2, hk2⟩ := allocEnqueue_cont he
      have h3 : ∀ ok, Reach step Always s.k (k2.copyuvm i np ok) := fun ok =>
        h2.step (.copyuvm ok) trivial
          (step_of_stepProc (hc2.trans hcur') hk2 ⟨by simp, by simp⟩ rfl)
      obtain ⟨⟨m2, d⟩, -, h⟩ := bind_ok.mp h
      cases d with
      | none =>
        obtain ⟨m3, -, h⟩ := bind_ok.mp h
        cases h
        exact h3 false
      | some d =>
        cases h
        refine (h3 true).step .forkPublish trivial
          (step_of_stepProc (c := .forkPublish np) (hc2.trans hcur') ?_ ⟨by simp, by simp⟩ rfl)
        exact Function.update_self ..

end

/-- The machine with the first process running and the free frames `free`. -/
def initMachine (k : Kernel) (free : List Nat) : Machine where
  k := k
  m := ⟨1, 0, free, fun _ _ => none, fun _ _ => 0⟩
  kstack _ := 0
  pgdir _ := 0
  sz _ := 0

/-- Init forks with one free frame: it becomes the kernel stack, and there is none
for the page directory. -/
theorem fork_leaves_entry : ∃ k, Reachable Always k ∧ ∃ s', (initMachine k [5]).fork 0 = .ok s' ∧
    s'.k.ret 0 = -1 ∧ (s'.k.proc 1).state = .UNUSED ∧
    Ptr.slot 1 ∈ (s'.k.ARRAYQUEUE 0).toList ∧ ¬ Unchanged (initMachine k [5]) s' := by
  obtain ⟨k, -, hr, hp⟩ := Reach.of_any step Always Kernel.boot
    (fun k => (match (initMachine k [5]).fork 0 with
      | .ok s' => decide (s'.k.ret 0 = -1 ∧ (s'.k.proc 1).state = .UNUSED ∧
          Ptr.slot 1 ∈ (s'.k.ARRAYQUEUE 0).toList ∧
          (s'.k.ARRAYQUEUE 0).last ≠ (k.ARRAYQUEUE 0).last)
      | .error _ => false) = true) [.schedule] (by decide +kernel)
  split at hp
  · next s' hs =>
    obtain ⟨h1, h2, h3, h4⟩ := of_decide_eq_true hp
    exact ⟨k, hr, s', hs, h1, h2, h3, fun hu => h4 (hu.queues 0).1⟩
  · cases hp

/-- Init forks with no free frame. -/
theorem failed_fork_iff_noStack : ∃ k, Reachable Always k ∧ ∃ s',
    (initMachine k []).fork 0 = .ok s' ∧ s'.k.ret 0 = -1 ∧ (Unchanged (initMachine k []) s' ↔
      (∀ j, ((initMachine k []).k.proc j).state ≠ .UNUSED) ∨ (initMachine k []).m.free = []) := by
  obtain ⟨k, -, hr, hp⟩ := Reach.of_any step Always Kernel.boot
    (fun k => (match (initMachine k []).fork 0 with
      | .ok s' => decide (s'.k.ret 0 = -1)
      | .error _ => false) = true) [.schedule] (by decide +kernel)
  split at hp
  · next s' hs =>
    have h1 := of_decide_eq_true hp
    exact ⟨k, hr, s', hs, h1, failed_fork_iff hs h1⟩
  · cases hp

end Xv6.Sched
