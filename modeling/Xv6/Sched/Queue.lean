import Xv6.Sched.Rules
import Xv6.Lib.Placed

/-!
# The MLFQ queues

Where a process is queued is recorded twice: in `lev` and in the levels of
`ARRAYQUEUE`. `QueueInv` says that the two agree. Three steps break the
agreement: `boost` resets `lev` and moves nothing, a `fork` that fails in
`copyuvm` frees a slot that is already queued, and `set_cpu_share(0)` takes a
process out of its queue and leaves it an MLFQ process. In runs without them the
queues are exact, and no append leaves the array.
-/

namespace Xv6.Sched

open Lib

/-- An MLFQ process past `allocproc`. -/
def Queued (k : Kernel) (i : Slot) : Prop := Active k i ∧ (k.proc i).share = 0

instance (k : Kernel) (i : Slot) : Decidable (Queued k i) := inferInstanceAs (Decidable (_ ∧ _))

/-- Where the slots belong according to `lev`. -/
def Want (k : Kernel) (l : Level) (i : Slot) : Prop := Queued k i ∧ (k.proc i).lev = (l.val : Int)

/-- The arrays hold, once each, the slots that `W` puts into them. -/
def Holds (A : Level → SizedArray Ptr NPROC) (W : Level → Slot → Prop) : Prop :=
  ∃ q : Level → List Slot, (∀ l, (A l).Repr ((q l).map .slot)) ∧ Placed q W

structure QueueInv (k : Kernel) : Prop where
  holds : Holds k.ARRAYQUEUE (Want k)
  lev : ∀ i, Queued k i → ∃ l : Level, (k.proc i).lev = (l.val : Int)

/-! ## Operations on the queues -/

section
variable {k k' : Kernel} {W V : Level → Slot → Prop} {l : Level} {i : Slot}

theorem Holds.congr {A : Level → SizedArray Ptr NPROC} (h : Holds A W)
    (hW : ∀ l x, V l x ↔ W l x) : Holds A V := by
  obtain ⟨q, hq, hp⟩ := h
  exact ⟨q, hq, hp.congr hW⟩

theorem Holds.range {A : Level → SizedArray Ptr NPROC} (h : Holds A W) (l : Level) :
    -1 ≤ (A l).last ∧ (A l).last < NPROC := by
  obtain ⟨q, hq, -⟩ := h
  have := (hq l).last
  have := (hq l).fits
  omega

theorem level_inj {l m : Level} : (l.val : Int) = (m.val : Int) ↔ l = m := by
  rw [Fin.ext_iff]; exact Int.ofNat_inj

theorem level_eq_zero {l : Level} : (0 : Int) = (l.val : Int) ↔ l = 0 :=
  (level_inj (l := 0)).trans eq_comm

theorem level_val (l : Level) : level l.val = .ok l := level_ok.mpr rfl

/-- An enqueued process that was nowhere is where it was put. -/
theorem Holds.enqueue (h : Holds k.ARRAYQUEUE W) (hi : ∀ l, ¬ W l i)
    (hW : ∀ l' x, V l' x ↔ W l' x ∨ (l' = l ∧ x = i)) :
    ∃ a, k.enqueue i l.val = .ok (k.setQueue l a) ∧ Holds (k.setQueue l a).ARRAYQUEUE V := by
  obtain ⟨q, hq, hp⟩ := h
  have hlen : ((q l).map Ptr.slot).length < NPROC := by
    rw [List.length_map, ← Fintype.card_fin NPROC]
    exact hp.length_lt (hi l)
  obtain ⟨a, ha, hr⟩ := (hq l).push (.slot i) hlen
  refine ⟨a, ?_, Function.update q l (q l ++ [i]), fun l' => ?_, hp.append hi hW⟩
  · simp only [Kernel.enqueue, level_val, ok_bind, ha]; rfl
  · by_cases hl : l' = l
    · subst hl; simpa using hr
    · simpa [hl] using hq l'

/-- A dequeued process that was at most there is nowhere. -/
theorem Holds.dequeue (brk : Bool) (h : Holds k.ARRAYQUEUE W) (hi : ∀ l', W l' i → l' = l)
    (hW : ∀ l' x, V l' x ↔ W l' x ∧ x ≠ i) :
    ∃ a, k.dequeue brk i l.val = .ok (k.setQueue l a) ∧ Holds (k.setQueue l a).ARRAYQUEUE V := by
  obtain ⟨q, hq, hp⟩ := h
  have hn : ((q l).map Ptr.slot).Nodup := (hp.nodup l).map slot_injective
  obtain ⟨a, ha, hr⟩ := (hq l).remove_nodup brk (.slot i) hn
  refine ⟨a, ?_, Function.update q l ((q l).erase i), fun l' => ?_, hp.erase hi hW⟩
  · simp only [Kernel.dequeue, level_val, ok_bind, ha]; rfl
  · by_cases hl : l' = l
    · subst hl
      simpa [List.map_erase slot_injective] using hr
    · simpa [hl] using hq l'

theorem Quiet.queued (h : Quiet k k') (i : Slot) : Queued k' i ↔ Queued k i := by
  unfold Queued
  rw [h.active]
  exact and_congr_right fun ha => by rw [(h.proc i ha).1]

theorem Quiet.want (h : Quiet k k') (l : Level) (i : Slot) : Want k' l i ↔ Want k l i := by
  unfold Want
  rw [h.queued]
  exact and_congr_right fun hq => by rw [(h.proc i hq.1).2]

end

/-! ## Runs in which the queues stay exact -/

/-- The steps that keep `lev` and the queues in agreement: a boost finds every
queued process at level 0 already, no `fork` fails in `copyuvm`, and a
reservation is not empty and is made by a process that has an MLFQ level. -/
def QueueSafe (k : Kernel) : Action → Prop
  | .timer user => ∀ i, Boosts k user i → ∀ j, Queued k j → (k.proc j).lev = 0
  | .copyuvm ok => ok = true
  | .setShareLocked =>
    ∀ i ∈ k.cur, ∀ s ∈ (k.cont i).reserved, s ≠ 0 ∧ (k.proc i).lev ≠ STRIDE_LEV
  | _ => True

instance (k : Kernel) (a : Action) : Decidable (QueueSafe k a) :=
  Action.casesOn (motive := fun a => Decidable (QueueSafe k a)) a instDecidableTrue
    (fun user =>
      (inferInstance : Decidable (∀ i, Boosts k user i → ∀ j, Queued k j → (k.proc j).lev = 0)))
    (fun _ => instDecidableTrue) instDecidableTrue (fun _ => instDecidableTrue) instDecidableTrue
    (fun ok => instDecidableEqBool ok true)
    instDecidableTrue instDecidableTrue instDecidableTrue (fun _ => instDecidableTrue)
    (inferInstance : Decidable
      (∀ i ∈ k.cur, ∀ s ∈ (k.cont i).reserved, s ≠ 0 ∧ (k.proc i).lev ≠ STRIDE_LEV))
    (fun _ => instDecidableTrue) instDecidableTrue instDecidableTrue (fun _ => instDecidableTrue)

/-- An access to the queues that leaves their arrays. -/
def Fault.OfQueues (f : Fault) : Prop := f = .queueRange ∨ f = .levRange

section
variable {k k' : Kernel} {i : Slot}

theorem Fault.OfQueues.unchecked {f : Fault} (h : f.OfQueues) : f.Unchecked := by
  rcases h with rfl | rfl <;> trivial

theorem QueueInv.quiet (h : QueueInv k) (hq : Quiet k k') : QueueInv k' where
  holds := by rw [hq.queue]; exact h.holds.congr hq.want
  lev i hi := by
    have hi' := (hq.queued i).mp hi
    rw [(hq.proc i hi'.1).2]; exact h.lev i hi'

/-- A boost that finds every queued process at level 0 changes nothing. -/
theorem QueueInv.boost (h : QueueInv k) (h0 : ∀ j, Queued k j → (k.proc j).lev = 0) :
    QueueInv k.boost where
  holds := h.holds.congr fun l x => and_congr_right fun hx => by rw [h0 x hx]; rfl
  lev _ _ := ⟨0, rfl⟩

theorem QueueInv.enqueue (h : QueueInv k) (hw : Wf k) {np : Slot}
    (hi : k.cont i = .allocEnqueue np) : ∃ k', k.allocEnqueue i np = .ok k' ∧ QueueInv k' := by
  obtain ⟨hs, hl⟩ := hw.fresh i np (by rw [hi]; rfl) (by rw [hi]; simp)
  have hn : ¬ Active k np := fun ha => ha.2 i (by rw [hi]; rfl)
  have hact : ∀ (a) (j), Active ((k.setQueue 0 a).setCont i (.forkCopy np)) j ↔
      Active k j ∨ j = np := fun a j =>
    allocEnqueue_active ((k.setQueue 0 a).setCont i (.forkCopy np)) hw hi rfl rfl j
  have hW : ∀ (a) (l : Level) (j : Slot), Want ((k.setQueue 0 a).setCont i (.forkCopy np)) l j ↔
      Want k l j ∨ (l = 0 ∧ j = np) := by
    intro a l j
    unfold Want Queued
    rw [hact]
    by_cases hj : j = np
    · subst hj; simp [hn, hs, hl, level_eq_zero]
    · simp [hj]
  obtain ⟨a, ha, hh⟩ := h.holds.enqueue (i := np) (l := 0) (fun l hx => hn hx.1.1)
    (V := fun l j => Want k l j ∨ (l = 0 ∧ j = np)) fun _ _ => Iff.rfl
  refine ⟨(k.setQueue 0 a).setCont i (.forkCopy np), ?_, hh.congr (hW a), fun j hj => ?_⟩
  · have ha' : k.enqueue np 0 = .ok (k.setQueue 0 a) := ha
    simp only [Kernel.allocEnqueue, ha', ok_bind]; rfl
  · rcases (hact a j).mp hj.1 with hj' | rfl
    · exact h.lev j ⟨hj', hj.2⟩
    · exact ⟨0, hl⟩

/-- Moving an active MLFQ process to level `l` moves nothing else. -/
theorem want_moved {l : Level} {a : Int} (ha : Active k i) (hs : (k.proc i).share = 0)
    (hp : k'.proc = Function.update k.proc i { k.proc i with lev := l.val, time_allotment := a })
    (hc : k'.cont = k.cont) (m : Level) (j : Slot) :
    Want k' m j ↔ (Want k m j ∧ j ≠ i) ∨ (m = l ∧ j = i) := by
  unfold Want Queued Active
  rw [hp, hc]
  by_cases hj : j = i
  · subst hj
    have hlive := ha.1
    have hal := ha.2
    have hl : (l.val : Int) = (m.val : Int) ↔ m = l := level_inj.trans eq_comm
    simpa [hs, hlive, hl] using fun _ => hal
  · simp [hj]

/-- `yield` moves an MLFQ process to the end of the queue of its new level. -/
theorem QueueInv.adjust (h : QueueInv k) (hlev : ∀ j, LevOk (k.proc j).lev) (ha : Active k i) :
    ∃ k', k.adjust i = .ok k' ∧ QueueInv k' := by
  by_cases hs : (k.proc i).share = 0
  · obtain ⟨l, hl⟩ := h.lev i ⟨ha, hs⟩
    obtain ⟨l', hl'⟩ := nextLev_level (h.lev i ⟨ha, hs⟩)
    -- out of level `l`, then into level `l'`
    obtain ⟨q, hq, hh⟩ := Holds.dequeue (k := k.set i fun p => { p with lev := l'.val })
      false (i := i) (l := l) (V := fun m j => Want k m j ∧ j ≠ i) h.holds
      (fun m hm => level_inj.mp (hm.2.symm.trans hl)) fun _ _ => Iff.rfl
    obtain ⟨q', hq', hh'⟩ := hh.enqueue (i := i) (l := l') (fun m hm => hm.2 rfl)
      (V := fun m j => (Want k m j ∧ j ≠ i) ∨ (m = l' ∧ j = i)) fun _ _ => Iff.rfl
    have hdone : ∀ (k' : Kernel) (a : Int), k'.proc = Function.update k.proc i
        { k.proc i with lev := l'.val, time_allotment := a } → k'.cont = k.cont →
        Holds k'.ARRAYQUEUE (fun m j => (Want k m j ∧ j ≠ i) ∨ (m = l' ∧ j = i)) → QueueInv k' := by
      intro k' a hp hc hh
      have hw := want_moved ha hs hp hc
      refine ⟨hh.congr hw, fun j hj => ?_⟩
      by_cases hji : j = i
      · subst hji; exact ⟨l', by simp [hp]⟩
      · have hj' : Queued k j := by simpa [Queued, Active, hp, hc, hji] using hj
        simpa [hp, hji] using h.lev j hj'
    have hk : k.adjust i = if (l'.val : Int) ≠ l.val then do
          let a ← time_allotment l'.val
          return (((k.set i fun p => { p with lev := l'.val }).setQueue l q).setQueue l' q').set i
            fun p => { p with time_allotment := a }
        else return ((k.set i fun p => { p with lev := l'.val }).setQueue l q).setQueue l' q' := by
      simp only [Kernel.adjust, if_pos hs, hl', hl, hq, hq', ok_bind]
    rw [hk]
    split
    · obtain ⟨a, hta⟩ := time_allotment_ok (show LevOk (l'.val : Int) from
        .inl ⟨by omega, by exact_mod_cast l'.isLt⟩)
      rw [hta]
      exact ⟨_, rfl, hdone _ a (by simp) rfl hh'⟩
    · exact ⟨_, rfl, hdone _ (k.proc i).time_allotment (by simp) rfl hh'⟩
  · obtain ⟨a, ht⟩ := time_allotment_ok (hlev i)
    refine ⟨k.set i fun p => { p with time_allotment := a }, ?_, h.quiet (.set (.of_eq rfl rfl rfl))⟩
    simp only [Kernel.adjust, if_neg hs, ht, ok_bind]
    rfl

/-- A process that is live no more, or no longer an MLFQ process, leaves its queue. -/
theorem want_removed {p : Proc} (hp : k'.proc = Function.update k.proc i p)
    (hout : ¬ p.state.Live ∨ p.share ≠ 0)
    (hc : ∀ j, (k'.cont j).allocating = (k.cont j).allocating) (m : Level) (j : Slot) :
    Want k' m j ↔ Want k m j ∧ j ≠ i := by
  unfold Want Queued Active
  rw [hp]
  simp only [hc]
  by_cases hj : j = i
  · subst hj
    rcases hout with hout | hout <;> simp [hout]
  · simp [hj]

theorem QueueInv.removed (h : QueueInv k) {p : Proc} (hp : k'.proc = Function.update k.proc i p)
    (hout : ¬ p.state.Live ∨ p.share ≠ 0)
    (hc : ∀ j, (k'.cont j).allocating = (k.cont j).allocating)
    (hh : Holds k'.ARRAYQUEUE fun m j => Want k m j ∧ j ≠ i) : QueueInv k' := by
  have hw := want_removed hp hout hc
  refine ⟨hh.congr hw, fun j hj => ?_⟩
  by_cases hji : j = i
  · subst hji
    rcases hout with hout | hout
    · exact absurd hj.1.1 (by simpa [hp] using hout)
    · exact absurd hj.2 (by simpa [hp] using hout)
  · have hj' : Queued k j := by simpa [Queued, Active, hp, hc, hji] using hj
    simpa [hp, hji] using h.lev j hj'

/-- `exit` takes an MLFQ process out of its queue; a stride process is in none. -/
theorem QueueInv.unschedule (h : QueueInv k) (hst : StableOk k.stable) (ha : Active k i) :
    ∃ k', k.unschedule i = .ok k' ∧
      QueueInv (k'.set i fun p => { p with state := .ZOMBIE }) := by
  have hz : ¬ ProcState.ZOMBIE.Live := by decide
  by_cases hs : (k.proc i).share = 0
  · obtain ⟨l, hl⟩ := h.lev i ⟨ha, hs⟩
    obtain ⟨q, hq, hh⟩ := h.holds.dequeue true (i := i) (l := l)
      (fun m hm => level_inj.mp (hm.2.symm.trans hl)) fun _ _ => Iff.rfl
    refine ⟨k.setQueue l q, ?_, h.removed rfl (.inl hz) (fun _ => rfl) hh⟩
    rw [Kernel.unschedule, if_pos hs, hl, hq]
  · obtain ⟨st, -, hu⟩ := unschedule_stride hst hs
    refine ⟨_, hu, h.removed rfl (.inl hz) (fun _ => rfl) (h.holds.congr fun m j => ?_)⟩
    refine ⟨fun hw => hw.1, fun hw => ⟨hw, ?_⟩⟩
    rintro rfl
    exact hs hw.1.2

theorem Holds.remove_isSome {A : Level → SizedArray Ptr NPROC} {W : Level → Slot → Prop}
    (h : Holds A W) {brk : Bool} (l : Level) : ((A l).remove brk (.slot i)).isSome := by
  obtain ⟨q, hq, -⟩ := h
  obtain ⟨a, ha, -⟩ := (hq l).remove brk (.slot i)
  rw [ha]; rfl

/-- A process with an MLFQ level that takes a share leaves its queue. -/
theorem QueueInv.reserve (h : QueueInv k) (hw : Wf k) {s : Int} (hs : s ≠ 0)
    (hlev : (k.proc i).lev ≠ STRIDE_LEV) (hi : k.cont i = .setShare .mlfq s) :
    Ensures Fault.OfQueues (k.setShareLocked i .mlfq s) QueueInv := by
  refine (setShareLocked_ensures (hw.lev i) ?_ (fun _ => hlev) fun _ => h.holds.remove_isSome).mono
    fun k' hk _ => ?_
  · rintro (hb | hb) <;> cases hb
  obtain ⟨st, l, q, -, hl, hq, hp, hq', -, -, -, hc⟩ := setShareLocked_ok hk
  obtain ⟨a, ha, hh⟩ := h.holds.dequeue true (i := i) (l := l)
    (fun m hm => level_inj.mp (hm.2.symm.trans hl)) fun _ _ => Iff.rfl
  -- the level that was dequeued is the one `Holds` speaks of
  obtain ⟨l', a', hl', ha', he⟩ := dequeue_ok.mp ha
  obtain rfl := level_inj.mp hl'
  rw [ha'] at hq
  cases hq
  refine h.removed hp (.inr hs) (fun j => ?_) ?_
  · rw [hc]
    by_cases hj : j = i
    · subst hj; simp [hi, Cont.allocating]
    · simp [hj]
  · rw [hq', ← Kernel.setQueue_ARRAYQUEUE, ← he]; exact hh

/-- The guard leaves every edit of the queues exact. -/
theorem queueInv_keeps : Keeps Fault.OfQueues QueueSafe QueueInv where
  faults _ := Fault.OfQueues.unchecked
  quiet h hq := h.quiet hq
  schedule hw h := (scheduler_ensures (fun _ => Fault.OfQueues.unchecked) hw.stable
    (fun _ => h.holds.range) (by rintro (hb | hb) <;> cases hb)).mono fun _ _ _ => trivial
  boost hG hb h hq := (h.quiet hq).boost fun j hj => by
    have hj' := (hq.queued j).mp hj
    rw [(hq.proc j hj'.1).2]
    exact hG _ hb j hj'
  enqueue hw h _ _ hi := by
    obtain ⟨k', hk, h'⟩ := h.enqueue hw hi
    rw [hk]; exact h'
  discard _ _ hG := absurd hG Bool.false_ne_true
  adjust hlev h ha := by
    obtain ⟨k', hk, h'⟩ := h.adjust hlev ha
    rw [hk]; exact h'
  unschedule _ _ _ h hst ha := by
    obtain ⟨k', hk, h'⟩ := h.unschedule hst ha
    rw [hk]; exact h'
  reserve {k i s} hw h hG hc hi := by
    obtain ⟨hs, hlev⟩ := hG i hc s (by rw [hi]; rfl)
    exact h.reserve hw hs hlev hi

end

instance (k : Kernel) (l : Level) (i : Slot) : Decidable (Want k l i) :=
  inferInstanceAs (Decidable (_ ∧ _))

theorem boot_want : ∀ (l : Level) (i : Slot), i ∈ (if l = 0 then [0] else [] : List Slot) ↔
    Want Kernel.boot l i := by decide +kernel

theorem boot_last : ∀ l : Level, (Kernel.boot.ARRAYQUEUE l).last = if l = 0 then 0 else -1 := by
  decide

theorem queueInv_boot : QueueInv Kernel.boot where
  holds := by
    refine ⟨fun l => if l = 0 then [0] else [], fun l => ?_, fun l => ?_, boot_want⟩
    · dsimp only
      refine ⟨by rw [boot_last]; split <;> rfl, by split <;> decide, fun j hj => ?_⟩
      by_cases hl : l = 0
      · subst hl
        obtain rfl : j = 0 := by simpa using hj
        rfl
      · simp [hl] at hj
    · split <;> simp
  lev i _ := ⟨0, (boot_proc i).2.1⟩

/-! ## The representation -/

/-- Every live MLFQ process occurs exactly once in the queues, namely at its
level; no other slot occurs in them; the levels fit their arrays. -/
structure QueueRep (k : Kernel) : Prop where
  once : ∀ i, (k.proc i).state.Live → (k.proc i).share = 0 →
    ∃ l : Level, (k.proc i).lev = (l.val : Int) ∧
      ∀ l', (k.ARRAYQUEUE l').toList.count (.slot i) = if l' = l then 1 else 0
  absent : ∀ i, ¬ (k.proc i).state.Live ∨ 0 < (k.proc i).share →
    ∀ l, Ptr.slot i ∉ (k.ARRAYQUEUE l).toList
  size : ∀ l, (k.ARRAYQUEUE l).last ≤ NPROC - 1

/-- No slot is inside `allocproc`. -/
def NoAlloc (k : Kernel) : Prop := ∀ j, (k.cont j).allocating = none

instance (k : Kernel) : Decidable (NoAlloc k) := inferInstanceAs (Decidable (∀ _, _))

theorem QueueInv.rep {k : Kernel} (h : QueueInv k) (hn : NoAlloc k) : QueueRep k := by
  obtain ⟨q, hq, hp⟩ := h.holds
  have hmem : ∀ i l, Ptr.slot i ∈ (k.ARRAYQUEUE l).toList ↔ Want k l i := by
    intro i l
    rw [(hq l).toList, List.mem_map_of_injective slot_injective, hp.mem]
  have hnodup : ∀ l, (k.ARRAYQUEUE l).toList.Nodup := by
    intro l
    rw [(hq l).toList]; exact (hp.nodup l).map slot_injective
  refine ⟨fun i hl hs => ?_, fun i hi l hm => ?_, fun l => ?_⟩
  · have hqd : Queued k i := ⟨⟨hl, fun j => by rw [hn j]; simp⟩, hs⟩
    obtain ⟨l, hlev⟩ := h.lev i hqd
    refine ⟨l, hlev, fun l' => ?_⟩
    split
    · next he => subst he; exact List.count_eq_one_of_mem (hnodup l') ((hmem i l').mpr ⟨hqd, hlev⟩)
    · next hne =>
      refine List.count_eq_zero_of_not_mem fun hm => hne ?_
      exact level_inj.mp (((hmem i l').mp hm).2.symm.trans hlev)
  · obtain ⟨⟨⟨hl, -⟩, hs⟩, -⟩ := (hmem i l).mp hm
    rcases hi with hi | hi
    · exact hi hl
    · omega
  · have := (h.holds.range l).2; omega

/-- **Queue representation**: in every run of safe steps the queues are exact
whenever no slot is inside `allocproc`, and no step leaves their arrays. -/
theorem queueRep_of_safe {k : Kernel} (h : Reachable QueueSafe k) :
    (NoAlloc k → QueueRep k) ∧ (∀ l, (k.ARRAYQUEUE l).last ≤ NPROC - 1) ∧
      ∀ a f, QueueSafe k a → step k a = .error f → f ≠ .queueRange ∧ f ≠ .levRange := by
  obtain ⟨hI, hf⟩ := queueInv_keeps.reachable queueInv_boot h
  refine ⟨hI.rep, fun l => ?_, fun a f hG hs => ?_⟩
  · have := (hI.holds.range l).2; omega
  · exact ⟨fun he => hf a f hG hs (.inl he), fun he => hf a f hG hs (.inr he)⟩

/-- The first process forks and takes a share; its child runs and yields. -/
def forkShareRun : List Action :=
  [.schedule, .fork, .kalloc true, .allocEnqueue, .copyuvm true, .forkPublish, .setCpuShare 20,
    .setShareLocked, .sleep .ticks, .schedule, .sysYield, .yield]

theorem queueRep_of_safe_forkShare : ∃ k, exec step QueueSafe Kernel.boot forkShareRun = some k ∧
    QueueRep k ∧ ∀ a f, QueueSafe k a → step k a = .error f → f ≠ .queueRange ∧ f ≠ .levRange := by
  obtain ⟨k, hk, hr, hn⟩ := Reach.of_any step QueueSafe Kernel.boot
    NoAlloc forkShareRun (by decide +kernel)
  obtain ⟨h1, -, h3⟩ := queueRep_of_safe hr
  exact ⟨k, hk, h1 hn, h3⟩

/-- The first process forks, and `copyuvm` runs out of memory. -/
def failedForkRun : List Action := [.schedule, .fork, .kalloc true, .allocEnqueue, .copyuvm false]

/-- A failed `fork` leaves a free slot in the queue. -/
theorem failedFork_not_queueRep : ∃ k, exec step Always Kernel.boot failedForkRun = some k ∧
    Reachable Always k ∧ NoAlloc k ∧ (k.proc 1).state = .UNUSED ∧
    Ptr.slot 1 ∈ (k.ARRAYQUEUE 0).toList ∧ ¬ QueueRep k := by
  obtain ⟨k, hk, hr, hn, hu, hm⟩ := Reach.of_any step Always Kernel.boot
    (fun k => NoAlloc k ∧ (k.proc 1).state = .UNUSED ∧ Ptr.slot 1 ∈ (k.ARRAYQUEUE 0).toList)
    failedForkRun (by decide +kernel)
  exact ⟨k, hk, hr, hn, hu, hm, fun hq => hq.absent 1 (.inl (by rw [hu]; decide)) 0 hm⟩

end Xv6.Sched
