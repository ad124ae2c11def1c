import Xv6.Sched.Rules

/-!
# The stride table

The CPU is divided: the shares of the entries of `stable` sum to 100, and the
virtual process keeps at least 20. `set_cpu_share` tests this before it takes
`ptable.lock` and applies it after, so two calls can pass the test together; it
also takes a second entry when a process calls it again. `Divided` holds in runs
in which what it tested is still so when it applies it.
-/

namespace Xv6.Sched

open Lib

/-- The sum of the shares of `L`. -/
def shares (k : Kernel) (L : List Slot) : Int := (L.map fun i => (k.proc i).share).sum

/-- `L` are the slots of the stride table, each a started process with an entry
of its own, and the CPU is divided between them and the virtual process. -/
structure Divided (k : Kernel) (L : List Slot) : Prop where
  repr : k.stable.Repr (.mlfq :: L.map .slot)
  nodup : L.Nodup
  active : ∀ i ∈ L, Active k i
  started : ∀ i ∈ L, (k.proc i).state.Started
  nonneg : ∀ i ∈ L, 0 ≤ (k.proc i).share
  /-- a process with a share has an entry -/
  all : ∀ i, Active k i → (k.proc i).share ≠ 0 → i ∈ L
  sum : k.mlfq.share + shares k L = 100
  floor : 20 ≤ k.mlfq.share

def StableInv (k : Kernel) : Prop := ∃ L, Divided k L

/-- The process of slot `i` exits without a share but with an entry in the table. -/
def Stale (k : Kernel) (i : Slot) : Prop :=
  (k.proc i).share = 0 ∧ Ptr.slot i ∈ k.stable.toList

instance (k : Kernel) (i : Slot) : Decidable (Stale k i) := inferInstanceAs (Decidable (_ ∧ _))

/-- The steps that keep the CPU divided: a reservation is applied for a process
without an entry, when what the range check tested still holds and the table has
room; and no process that has an entry exits without a share. -/
def StableSafe (k : Kernel) (a : Action) : Prop :=
  (a = .setShareLocked → ∀ i ∈ k.cur, ∀ s ∈ (k.cont i).reserved,
    Ptr.slot i ∉ k.stable.toList ∧ 20 ≤ k.mlfq.share - s ∧ k.stable.last + 1 < NPROC) ∧
  ∀ i, Exits k a i → ¬ Stale k i

instance (k : Kernel) (a : Action) : Decidable (StableSafe k a) :=
  inferInstanceAs (Decidable (_ ∧ _))

section
variable {k k' : Kernel} {i : Slot} {L : List Slot}

theorem Divided.mem_stable (h : Divided k L) (i : Slot) : Ptr.slot i ∈ k.stable.toList ↔ i ∈ L := by
  rw [h.repr.toList, List.mem_cons, List.mem_map_of_injective slot_injective]
  simp

theorem Divided.shares_nonneg (h : Divided k L) {M : List Slot} (hM : ∀ i ∈ M, i ∈ L) :
    0 ≤ shares k M := by
  refine List.sum_nonneg fun x hx => ?_
  obtain ⟨i, hi, rfl⟩ := List.mem_map.mp hx
  exact h.nonneg i (hM i hi)

/-- Steps that edit neither the table nor a share. -/
theorem Divided.frame (h : Divided k L) (hst : k'.stable = k.stable)
    (hm : k'.mlfq.share = k.mlfq.share) (ha : ∀ i ∈ L, Active k' i)
    (hstart : ∀ i ∈ L, (k'.proc i).state.Started)
    (hall : ∀ i, Active k' i → (k'.proc i).share ≠ 0 → Active k i ∧ (k.proc i).share ≠ 0)
    (hs : ∀ i ∈ L, (k'.proc i).share = (k.proc i).share) : Divided k' L where
  repr := by rw [hst]; exact h.repr
  nodup := h.nodup
  active := ha
  started := hstart
  nonneg i hi := by rw [hs i hi]; exact h.nonneg i hi
  all i hi hn := h.all i (hall i hi hn).1 (hall i hi hn).2
  sum := by
    rw [hm, ← h.sum]
    exact congrArg (k.mlfq.share + ·) (congrArg List.sum (List.map_congr_left hs))
  floor := by rw [hm]; exact h.floor

theorem Divided.quiet (h : Divided k L) (hq : Quiet k k') : Divided k' L :=
  h.frame hq.stable hq.share (fun i hi => (hq.active i).mpr (h.active i hi))
    (fun i hi => hq.started i (h.started i hi))
    (fun i hi hn => by
      have hi' := (hq.active i).mp hi
      rw [(hq.proc i hi').1] at hn
      exact ⟨hi', hn⟩)
    fun i hi => (hq.proc i (h.active i hi)).1

/-- `yield` and `boost` change levels and allotments only. -/
theorem Divided.relevel (h : Divided k L) (hst : k'.stable = k.stable) (hm : k'.mlfq = k.mlfq)
    (hc : k'.cont = k.cont)
    (hp : ∀ j, (k'.proc j).state = (k.proc j).state ∧ (k'.proc j).share = (k.proc j).share) :
    Divided k' L := by
  have ha : ∀ j, Active k' j ↔ Active k j := fun j => by rw [Active, Active, (hp j).1, hc]
  refine h.frame hst (by rw [hm]) (fun j hj => (ha j).mpr (h.active j hj))
    (fun j hj => by rw [(hp j).1]; exact h.started j hj) (fun j hj hn => ?_) fun j _ => (hp j).2
  rw [(hp j).2] at hn
  exact ⟨(ha j).mp hj, hn⟩

/-- A slot without a share and without an entry leaves the active slots. -/
theorem Divided.drop (h : Divided k L) {p : Proc} (hst : k'.stable = k.stable)
    (hm : k'.mlfq = k.mlfq) (hp : k'.proc = Function.update k.proc i p) (hpl : ¬ p.state.Live)
    (hc : ∀ j, (k'.cont j).allocating = (k.cont j).allocating) (hi : i ∉ L) : Divided k' L := by
  have hne : ∀ j ∈ L, j ≠ i := by rintro j hj rfl; exact hi hj
  have ha : ∀ j, Active k' j ↔ Active k j ∧ j ≠ i := by
    intro j
    unfold Active
    simp only [hc, hp]
    by_cases hj : j = i
    · subst hj; simp [hpl]
    · simp [hj]
  refine h.frame hst (by rw [hm]) (fun j hj => (ha j).mpr ⟨h.active j hj, hne j hj⟩)
    (fun j hj => by simpa [hp, hne j hj] using h.started j hj) (fun j hj hn => ?_)
    fun j hj => by simp [hp, hne j hj]
  obtain ⟨hj, hji⟩ := (ha j).mp hj
  exact ⟨hj, by simpa [hp, hji] using hn⟩

/-- A reservation that still passes the range check is taken from the virtual process. -/
theorem Divided.reserve (h : Divided k L) (ha : Active k i) (hst : (k.proc i).state.Started)
    {s : Int} (h0 : 0 ≤ s) (hi : i ∉ L) (hf : 20 ≤ k.mlfq.share - s)
    (hal : (k.cont i).allocating = none) (hk : k.setShareLocked i .mlfq s = .ok k') :
    Divided k' (L ++ [i]) := by
  obtain ⟨st, l, q, hpush, -, -, hp, -, hst', hm, -, hc⟩ := setShareLocked_ok hk
  have hne : ∀ j ∈ L, j ≠ i := by rintro j hj rfl; exact hi hj
  have hmax : k.mlfq.share ≤ 100 := by
    have := h.sum; have := h.shares_nonneg fun _ hj => hj; omega
  have hm' : k'.mlfq.share = k.mlfq.share - s := by
    rw [hm]; exact int32_of_range (by omega)
  have hact : ∀ j, Active k' j ↔ Active k j := by
    intro j
    unfold Active
    rw [hp, hc]
    have hcj : ∀ m, (Function.update k.cont i .user m).allocating = (k.cont m).allocating := by
      intro m
      by_cases hmi : m = i
      · subst hmi; rw [Function.update_self, hal]; rfl
      · simp [hmi]
    simp only [hcj]
    by_cases hj : j = i
    · subst hj; simp
    · simp [hj]
  have hself : (k'.proc i).share = s ∧ (k'.proc i).state = (k.proc i).state := by simp [hp]
  have hother : ∀ j, j ≠ i → k'.proc j = k.proc j := fun j hj => by simp [hp, hj]
  refine ⟨?_, ?_, fun j hj => ?_, fun j hj => ?_, fun j hj => ?_, fun j hj hn => ?_, ?_, ?_⟩
  · rw [hst']
    simpa using (h.repr.of_push hpush).2
  · exact List.nodup_append.mpr ⟨h.nodup, by simp, fun a hal b hb => by
      rw [List.mem_singleton.mp hb]; exact hne a hal⟩
  · rcases List.mem_append.mp hj with hj | hj
    · exact (hact j).mpr (h.active j hj)
    · obtain rfl := List.mem_singleton.mp hj; exact (hact j).mpr ha
  · rcases List.mem_append.mp hj with hj | hj
    · rw [hother j (hne j hj)]; exact h.started j hj
    · obtain rfl := List.mem_singleton.mp hj; rw [hself.2]; exact hst
  · rcases List.mem_append.mp hj with hj | hj
    · rw [hother j (hne j hj)]; exact h.nonneg j hj
    · obtain rfl := List.mem_singleton.mp hj; rw [hself.1]; exact h0
  · by_cases hji : j = i
    · subst hji; simp
    · rw [hother j hji] at hn
      exact List.mem_append_left _ (h.all j ((hact j).mp hj) hn)
  · have hL : shares k' L = shares k L :=
      congrArg List.sum (List.map_congr_left fun j hj => by rw [hother j (hne j hj)])
    have hsum := h.sum
    have happ : shares k' (L ++ [i]) = shares k' L + s := by
      simp [shares, hself.1]
    rw [happ, hL, hm']
    omega
  · omega

/-- An exiting process with a share gives it back with its entry. -/
theorem Divided.refund (h : Divided k L) (ha : Active k i) (hs : (k.proc i).share ≠ 0)
    {p : Proc} (hpl : ¬ p.state.Live) {st : SizedArray Ptr NPROC}
    (hr : k.stable.remove true (.slot i) = some st) (hst : k'.stable = st)
    (hm : k'.mlfq.share = int32 (k.mlfq.share + (k.proc i).share))
    (hp : k'.proc = Function.update k.proc i p) (hc : k'.cont = k.cont) :
    Divided k' (L.erase i) := by
  have hi := h.all i ha hs
  have hmem : ∀ j, j ∈ L.erase i ↔ j ≠ i ∧ j ∈ L := fun j => h.nodup.mem_erase_iff
  have hsum : (k.proc i).share + shares k (L.erase i) = shares k L :=
    List.sum_map_erase (fun j => (k.proc j).share) hi
  have hrest : 0 ≤ shares k (L.erase i) := h.shares_nonneg fun j hj => ((hmem j).mp hj).2
  have h100 := h.sum
  have h20 := h.floor
  have hnn := h.nonneg i hi
  have hm' : k'.mlfq.share = k.mlfq.share + (k.proc i).share := by
    rw [hm]; exact int32_of_range (by omega)
  have hact : ∀ j, j ≠ i → (Active k' j ↔ Active k j) := by
    intro j hj; simp [Active, hp, hc, hj]
  have hother : ∀ j, j ≠ i → k'.proc j = k.proc j := fun j hj => by simp [hp, hj]
  refine ⟨?_, h.nodup.erase i, fun j hj => ?_, fun j hj => ?_, fun j hj => ?_, fun j hj hn => ?_,
    ?_, by omega⟩
  · rw [hst]
    have := h.repr.of_remove hr
    rwa [SizedArray.eraseScan_cons_ne (by simp), SizedArray.eraseScan_map slot_injective,
      SizedArray.eraseScan_nodup true h.nodup] at this
  · obtain ⟨hne, hj⟩ := (hmem j).mp hj
    exact (hact j hne).mpr (h.active j hj)
  · obtain ⟨hne, hj⟩ := (hmem j).mp hj
    rw [hother j hne]; exact h.started j hj
  · obtain ⟨hne, hj⟩ := (hmem j).mp hj
    rw [hother j hne]; exact h.nonneg j hj
  · have hne : j ≠ i := by
      rintro rfl
      exact hpl (by simpa [hp] using hj.1)
    rw [hother j hne] at hn
    exact (hmem j).mpr ⟨hne, h.all j ((hact j hne).mp hj) hn⟩
  · have heq : shares k' (L.erase i) = shares k (L.erase i) :=
      congrArg List.sum (List.map_congr_left fun j hj => by rw [hother j ((hmem j).mp hj).1])
    rw [heq, hm']
    omega

/-- The room that a push into the stride table needs. -/
theorem Divided.push_isSome (h : Divided k L) (hroom : k.stable.last + 1 < NPROC) (i : Slot) :
    (k.stable.push (.slot i)).isSome := by
  have hlast := h.repr.last
  obtain ⟨st, hst, -⟩ := h.repr.push (.slot i) (by omega)
  rw [hst]; rfl

end

/-! ## Runs in which the CPU stays divided -/

/-- An access outside the stride table. -/
def Fault.OfStable (f : Fault) : Prop := f = .stableRange

theorem not_ofStable : ¬ Fault.OfStable .queueRange ∧ ¬ Fault.OfStable .levRange ∧
    ¬ Fault.OfStable .divZero :=
  ⟨(by rintro h; cases h), (by rintro h; cases h), (by rintro h; cases h)⟩

theorem stableInv_keeps : Keeps Fault.OfStable StableSafe StableInv where
  faults := by rintro f rfl; trivial
  quiet h hq := by
    obtain ⟨L, h⟩ := h
    exact ⟨L, h.quiet hq⟩
  schedule hw _ := (scheduler_ensures (by rintro f rfl; trivial) hw.stable
    (fun h => absurd h not_ofStable.1) fun h => absurd h not_ofStable.2.2).mono fun _ _ _ => trivial
  boost _ _ h hq := by
    obtain ⟨L, h⟩ := h
    exact ⟨L, (h.quiet hq).relevel rfl rfl rfl fun _ => ⟨rfl, rfl⟩⟩
  enqueue {k i np} hw h _ _ hi := by
    obtain ⟨L, h⟩ := h
    refine .intro (fun k' hk => ⟨L, ?_⟩) fun f hf hb => ?_
    · simp only [Kernel.allocEnqueue, bind_ok, enqueue_ok, pure_ok] at hk
      obtain ⟨_, ⟨l, q, -, -, rfl⟩, rfl⟩ := hk
      have ha := allocEnqueue_active ((k.setQueue l q).setCont i (.forkCopy np)) hw hi rfl rfl
      refine h.frame rfl rfl (fun j hj => (ha j).mpr (.inl (h.active j hj))) h.started
        (fun j hj hn => ⟨?_, hn⟩) fun _ _ => rfl
      rcases (ha j).mp hj with hj | rfl
      · exact hj
      · exact absurd (hw.fresh i j (by rw [hi]; rfl) (by rw [hi]; simp)).1 hn
    · have he : Ensures Fault.OfStable (k.allocEnqueue i np) fun _ => True :=
        (enqueue_ensures (fun _ => ⟨0, rfl⟩) not_ofStable.1).bind fun _ _ => trivial
      exact he.not_bad hf hb
  discard {k i np} hw h _ _ hi := by
    obtain ⟨L, h⟩ := h
    have hu : ¬ ProcState.UNUSED.Live := by decide
    refine ⟨L, h.drop (i := np) rfl rfl rfl hu (fun j => ?_) fun hm => ?_⟩
    · by_cases hj : j = i
      · subst hj; simp [Kernel.copyuvm, hi, Cont.allocating]
      · simp [Kernel.copyuvm, hj]
    · have := h.started np hm
      rw [hw.embryo i np (by rw [hi]; rfl)] at this
      simp [ProcState.Started] at this
  adjust {k i} hlev h _ := by
    obtain ⟨L, h⟩ := h
    refine (adjust_ensures not_ofStable.1 (hlev i) fun hb => absurd hb not_ofStable.2.1).mono fun k' hk _ => ⟨L, ?_⟩
    have hrel : ∀ (k' : Kernel) (l a : Int), k'.stable = k.stable → k'.mlfq = k.mlfq →
        k'.cont = k.cont →
        k'.proc = Function.update k.proc i { k.proc i with lev := l, time_allotment := a } →
        Divided k' L := by
      intro k' l a hst hm hc hp
      refine h.relevel hst hm hc fun j => ?_
      by_cases hj : j = i
      · subst hj; simp [hp]
      · simp [hp, hj]
    rcases adjust_ok hk with ⟨-, l, l', q, q', a, -, -, -, -, rfl⟩ | ⟨-, a, rfl⟩
    · exact hrel _ _ a rfl rfl rfl rfl
    · exact hrel _ (k.proc i).lev a rfl rfl rfl rfl
  unschedule {k k₁ a i} hG he hq h hst ha := by
    obtain ⟨L, h⟩ := h
    have hz : ¬ ProcState.ZOMBIE.Live := by decide
    refine (unschedule_ensures not_ofStable.1 hst fun hb => absurd hb not_ofStable.2.1).mono fun k' hk _ => ?_
    rcases unschedule_ok hst hk with ⟨hs, l, q, -, -, rfl⟩ | ⟨hs, st, hr, rfl⟩
    · refine ⟨L, h.drop (i := i) rfl rfl rfl hz (fun _ => rfl) fun hm => hG.2 i he ⟨?_, ?_⟩⟩
      · rw [← (hq.proc i ((hq.active i).mp ha)).1]; exact hs
      · rw [← hq.stable]; exact (h.mem_stable i).mpr hm
    · exact ⟨L.erase i, h.refund ha hs hz hr rfl rfl rfl rfl⟩
  reserve {k i s} hw h hG hc hi := by
    obtain ⟨L, h⟩ := h
    obtain ⟨hn, hf, hroom⟩ := hG.1 rfl i hc s (by rw [hi]; rfl)
    refine (setShareLocked_ensures (hw.lev i) (fun _ => h.push_isSome hroom i)
      (fun hb => absurd hb not_ofStable.2.1) fun hb => absurd hb not_ofStable.1).mono fun k' hk _ => ⟨L ++ [i], h.reserve (hw.cur_active hc) ?_ (hw.entry i _ _ hi).2.1 ?_ hf
        (by rw [hi]; rfl) hk⟩
    · exact .inr (.inr (hw.running_started hc))
    · exact fun hm => hn ((h.mem_stable i).mpr hm)

theorem divided_boot : Divided Kernel.boot [] where
  repr := boot_stable
  nodup := List.nodup_nil
  active := by simp
  started := by simp
  nonneg := by simp
  all i _ hs := absurd (boot_proc i).2.2 hs
  sum := rfl
  floor := by decide

/-- The stride table holds the virtual process and distinct live processes; their
shares sum to 100, at least 20 of them the virtual process's. -/
structure ShareRep (k : Kernel) : Prop where
  entries : ∃ L : List Slot, k.stable.toList = .mlfq :: L.map .slot ∧ L.Nodup ∧
    (∀ i ∈ L, (k.proc i).state.Live) ∧ k.mlfq.share + shares k L = 100
  floor : 20 ≤ k.mlfq.share
  size : k.stable.last < NPROC

theorem Divided.rep {k : Kernel} {L : List Slot} (h : Divided k L) : ShareRep k where
  entries := ⟨L, h.repr.toList, h.nodup, fun i hi => (h.active i hi).1, h.sum⟩
  floor := h.floor
  size := by have := h.repr.last; have := h.repr.fits; omega

/-- **Share conservation**: in every run of safe steps the CPU stays divided, and
no step leaves the stride table. -/
theorem shareRep_of_safe {k : Kernel} (h : Reachable StableSafe k) :
    ShareRep k ∧ ∀ a, StableSafe k a → step k a ≠ .error .stableRange := by
  obtain ⟨⟨L, hL⟩, hf⟩ := stableInv_keeps.reachable ⟨[], divided_boot⟩ h
  exact ⟨hL.rep, fun a hG hs => hf a _ hG hs rfl⟩

/-- The first process forks and takes a share; its child takes one and exits. -/
def takeExitRun : List Action :=
  [.schedule, .fork, .kalloc true, .allocEnqueue, .copyuvm true, .forkPublish, .setCpuShare 30,
    .setShareLocked, .sleep .ticks, .schedule, .setCpuShare 40, .setShareLocked, .exit]

theorem shareRep_of_safe_takeExit : ∃ k, exec step StableSafe Kernel.boot takeExitRun = some k ∧
    k.mlfq.share = 70 ∧ ShareRep k ∧
    ∀ a, StableSafe k a → step k a ≠ .error .stableRange := by
  obtain ⟨k, hk, hr, hm⟩ := Reach.of_any step StableSafe Kernel.boot
    (fun k => k.mlfq.share = 70) takeExitRun (by decide +kernel)
  exact ⟨k, hk, hm, shareRep_of_safe hr⟩

/-- A process is preempted between the range check and the lock, and another
takes 80 in between. -/
def preemptedShareRun : List Action :=
  [.schedule, .fork, .kalloc true, .allocEnqueue, .copyuvm true, .forkPublish, .setCpuShare 80,
    .timer false, .schedule, .setCpuShare 80, .setShareLocked, .sleep .ticks, .schedule,
    .setShareLocked]

/-- Both reservations of 80 are applied: the virtual process has a share of -60. -/
theorem preemptedShare_not_shareRep : ∃ k,
    exec step Always Kernel.boot preemptedShareRun = some k ∧ Reachable Always k ∧
    k.mlfq.share = -60 ∧ ¬ ShareRep k := by
  obtain ⟨k, hk, hr, hm⟩ := Reach.of_any step Always Kernel.boot
    (fun k => k.mlfq.share = -60) preemptedShareRun (by decide +kernel)
  exact ⟨k, hk, hr, hm, fun hs => by have := hs.floor; omega⟩

end Xv6.Sched
