import Xv6.Sched.Kernel

/-!
# What every run keeps

`Wf` holds of every state that any run reaches, whatever the system calls do to
the queues: the running process is the one in `cur`, the slot a `fork` in
progress builds is `EMBRYO` and belongs to one builder, a process inside a system call
is neither free nor a zombie, `lev` is an MLFQ level or `STRIDE_LEV`, and the
stride table holds the virtual process followed by slots.
-/

namespace Xv6.Sched

open Lib

/-- The slot that a `fork` in progress builds. -/
def Cont.child : Cont → Option Slot
  | .allocStack np | .allocEnqueue np | .forkCopy np | .forkPublish np => some np
  | _ => none

/-- A live state: neither free nor a zombie. -/
def ProcState.Live (s : ProcState) : Prop := s ≠ .UNUSED ∧ s ≠ .ZOMBIE

instance (s : ProcState) : Decidable s.Live := inferInstanceAs (Decidable (_ ∧ _))

/-- A state in which a process can be inside a system call. -/
def ProcState.Started (s : ProcState) : Prop := s = .SLEEPING ∨ s = .RUNNABLE ∨ s = .RUNNING

theorem ProcState.Started.live {s : ProcState} (h : s.Started) : s.Live := by
  rcases h with rfl | rfl | rfl <;> decide

/-- `lev` is an MLFQ level or the stride level. -/
def LevOk (lev : Int) : Prop := (0 ≤ lev ∧ lev < 3) ∨ lev = STRIDE_LEV

/-- The stride table holds the virtual process, then slots. -/
def StableOk (st : SizedArray Ptr NPROC) : Prop := ∃ L : List Slot, st.Repr (.mlfq :: L.map .slot)

/-- A reservation of `s` from entry `e` that passed the range check. -/
def EntryOk (e : Ptr) (s : Int) : Prop := e = .mlfq ∧ 0 ≤ s ∧ s < 2 ^ 31

structure Wf (k : Kernel) : Prop where
  running : ∀ i, (k.proc i).state = .RUNNING ↔ k.cur = some i
  started : ∀ i, k.cont i ≠ .user → (k.proc i).state.Started
  embryo : ∀ i np, (k.cont i).child = some np → (k.proc np).state = .EMBRYO
  builder : ∀ i j np, (k.cont i).child = some np → (k.cont j).child = some np → i = j
  /-- a slot past `allocInit` has no share yet -/
  fresh : ∀ i np, (k.cont i).child = some np → k.cont i ≠ .allocStack np →
    (k.proc np).share = 0 ∧ (k.proc np).lev = 0
  lev : ∀ i, LevOk (k.proc i).lev
  /-- a reservation in progress passed the range check -/
  entry : ∀ i e s, k.cont i = .setShare e s → EntryOk e s
  stable : StableOk k.stable

theorem Wf.running_started {k : Kernel} (h : Wf k) {i : Slot} (hc : k.cur = some i) :
    (k.proc i).state = .RUNNING := (h.running i).mpr hc

/-- The running process is no slot under construction. -/
theorem Wf.cur_not_child {k : Kernel} (h : Wf k) {i j np : Slot} (hc : k.cur = some i)
    (hj : (k.cont j).child = some np) : np ≠ i := by
  rintro rfl
  have h1 := h.embryo j np hj
  rw [h.running_started hc] at h1
  cases h1

/-! ## Frames of the kernel functions -/

section
variable (k : Kernel)

theorem wakeup1_fields (c : Chan) (i : Slot) :
    ((k.wakeup1 c).proc i).share = (k.proc i).share ∧ ((k.wakeup1 c).proc i).lev = (k.proc i).lev ∧
    ((k.wakeup1 c).proc i).parent = (k.proc i).parent ∧
    (((k.wakeup1 c).proc i).state = (k.proc i).state ∨
      (k.proc i).state = .SLEEPING ∧ ((k.wakeup1 c).proc i).state = .RUNNABLE) := by
  simp only [Kernel.wakeup1]
  split
  · next h => exact ⟨rfl, rfl, rfl, .inr ⟨h.1, rfl⟩⟩
  · exact ⟨rfl, rfl, rfl, .inl rfl⟩

/-- What waking sleepers can do to a slot. -/
def Woken (p p' : Proc) : Prop :=
  p'.share = p.share ∧ p'.lev = p.lev ∧
    (p'.state = p.state ∨ p.state = .SLEEPING ∧ p'.state = .RUNNABLE)

theorem Woken.refl (p : Proc) : Woken p p := ⟨rfl, rfl, .inl rfl⟩

theorem Woken.trans {p q r : Proc} (h1 : Woken p q) (h2 : Woken q r) : Woken p r := by
  unfold Woken at *; grind

theorem wakeup1_woken (c : Chan) (i : Slot) : Woken (k.proc i) ((k.wakeup1 c).proc i) := by
  obtain ⟨h1, h2, -, h3⟩ := wakeup1_fields k c i; exact ⟨h1, h2, h3⟩

theorem reparent_woken (i j : Slot) : Woken (k.proc j) ((k.reparent i).proc j) := by
  have h : Woken (k.proc j) (if (k.proc j).parent = .slot i
      then { k.proc j with parent := k.initproc } else k.proc j) := by
    split <;> exact ⟨rfl, rfl, .inl rfl⟩
  unfold Kernel.reparent
  dsimp only
  split
  · exact h.trans (wakeup1_woken _ _ _)
  · exact h

theorem reparent_frame (i : Slot) : (k.reparent i).cur = k.cur ∧ (k.reparent i).cont = k.cont ∧
    (k.reparent i).ARRAYQUEUE = k.ARRAYQUEUE ∧ (k.reparent i).stable = k.stable ∧
    (k.reparent i).mlfq = k.mlfq ∧ (k.reparent i).initproc = k.initproc := by
  unfold Kernel.reparent; dsimp only; split <;> exact ⟨rfl, rfl, rfl, rfl, rfl, rfl⟩

theorem charge_proc (i : Slot) : ∃ a, k.charge i = k.set i fun p => { p with time_allotment := a } := by
  unfold Kernel.charge
  split
  · exact ⟨(k.proc i).time_allotment, by simp [Kernel.set]⟩
  · exact ⟨_, rfl⟩

end

theorem orFault_ok {α : Type} {f : Fault} {o : Option α} {a : α} :
    orFault f o = .ok a ↔ o = some a := by
  cases o with
  | none => exact ⟨fun h => (by cases h), fun h => (by cases h)⟩
  | some b => exact ⟨fun h => (by cases h; rfl), fun h => (by cases h; rfl)⟩

theorem level_ok {lev : Int} {l : Level} : level lev = .ok l ↔ lev = (l.val : Int) := by
  unfold level
  split
  · next h =>
    constructor
    · rintro h; cases h; simp; omega
    · rintro rfl; simp
  · next h =>
    constructor
    · intro h; cases h
    · rintro rfl
      have := l.isLt
      unfold DEPTH_QUEUE at *
      omega

theorem enqueue_ok {k k' : Kernel} {i : Slot} {lev : Int} :
    k.enqueue i lev = .ok k' ↔ ∃ l q, lev = (l.val : Int) ∧
      (k.ARRAYQUEUE l).push (.slot i) = some q ∧
      k' = k.setQueue l q := by
  simp only [Kernel.enqueue, bind_ok, orFault_ok, level_ok, pure_ok]
  grind

theorem dequeue_ok {brk : Bool} {k k' : Kernel} {i : Slot} {lev : Int} :
    k.dequeue brk i lev = .ok k' ↔ ∃ l q, lev = (l.val : Int) ∧
      (k.ARRAYQUEUE l).remove brk (.slot i) = some q ∧
      k' = k.setQueue l q := by
  simp only [Kernel.dequeue, bind_ok, orFault_ok, level_ok, pure_ok]
  grind

theorem setPtr_ok {k k' : Kernel} {f : Proc → Proc} {p : Ptr} (h : k.setPtr f p = .ok k') :
    (p = .mlfq ∧ k' = { k with mlfq := f k.mlfq }) ∨ ∃ i, p = .slot i ∧ k' = k.set i f := by
  cases p with
  | null => cases h
  | mlfq => cases h; exact .inl ⟨rfl, rfl⟩
  | slot i => cases h; exact .inr ⟨i, rfl, rfl⟩

theorem findSlot_some {k : Kernel} {f : Proc → Bool} {i : Slot} (h : k.findSlot f = some i) :
    f (k.proc i) = true := by
  have := List.find?_some (p := fun i => f (k.proc i)) h
  exact this

theorem nextLev_levOk {p : Proc} (h : LevOk p.lev) (hl : p.lev ≠ STRIDE_LEV) :
    LevOk (Kernel.Proc.nextLev p) := by
  unfold Kernel.Proc.nextLev LevOk DEPTH_QUEUE STRIDE_LEV at *
  split <;> omega

/-- What `adjust` can do: move the process between two levels, or only refill
the allotment of a stride process. -/
theorem adjust_ok {k k' : Kernel} {i : Slot} (h : k.adjust i = .ok k') :
    ((k.proc i).share = 0 ∧ ∃ l l' q q' a, (k.proc i).lev = (l.val : Int) ∧
      Kernel.Proc.nextLev (k.proc i) = (l'.val : Int) ∧
      (k.ARRAYQUEUE l).remove false (.slot i) = some q ∧
      (Function.update k.ARRAYQUEUE l q l').push (.slot i) = some q' ∧
      k' = ((k.setQueue l q).setQueue l' q').set i fun p =>
        { p with lev := Kernel.Proc.nextLev (k.proc i), time_allotment := a }) ∨
    ((k.proc i).share ≠ 0 ∧ ∃ a, k' = k.set i fun p => { p with time_allotment := a }) := by
  unfold Kernel.adjust at h
  dsimp only at h
  split at h
  · next hs =>
    simp only [bind_ok, dequeue_ok, enqueue_ok] at h
    obtain ⟨_, ⟨l, q, hl, hq, rfl⟩, _, ⟨l', q', hl', hq', rfl⟩, h⟩ := h
    refine .inl ⟨hs, l, l', q, q', ?_⟩
    split at h
    · simp only [bind_ok, pure_ok] at h
      obtain ⟨a, -, rfl⟩ := h
      exact ⟨a, hl, hl', hq, hq', by simp [Kernel.set_set]⟩
    · cases h
      exact ⟨(k.proc i).time_allotment, hl, hl', hq, hq', rfl⟩
  · next hs =>
    simp only [bind_ok, pure_ok] at h
    obtain ⟨a, -, rfl⟩ := h
    exact .inr ⟨hs, a, rfl⟩

/-! ## Preservation, function by function -/

section
variable {k k' : Kernel} {i : Slot}

theorem Wf.woken (h : Wf k) (hcur : k'.cur = k.cur) (hcont : k'.cont = k.cont)
    (hst : k'.stable = k.stable) (hp : ∀ i, Woken (k.proc i) (k'.proc i)) : Wf k' where
  running j := by have := hp j; have := h.running j; unfold Woken at *; grind
  started j hj := by
    have := hp j; have := h.started j (hcont ▸ hj)
    unfold Woken ProcState.Started at *; grind
  embryo j np hj := by
    have := hp np; have := h.embryo j np (hcont ▸ hj)
    unfold Woken at *; grind
  builder := by rw [hcont]; exact h.builder
  fresh j np hj hn := by
    rw [(hp np).1, (hp np).2.1]; rw [hcont] at hj hn; exact h.fresh j np hj hn
  lev j := by rw [(hp j).2.1]; exact h.lev j
  entry := by rw [hcont]; exact h.entry
  stable := by rw [hst]; exact h.stable

theorem Wf.boost (h : Wf k) : Wf k.boost where
  running := h.running
  started := h.started
  embryo := h.embryo
  builder := h.builder
  fresh j np hj hn := ⟨(h.fresh j np hj hn).1, rfl⟩
  lev _ := .inl ⟨by simp [Kernel.boost], by simp [Kernel.boost]⟩
  entry := h.entry
  stable := h.stable

/-- The running process gives up the CPU, keeping its place in its system call. -/
theorem Wf.leave (h : Wf k) (hc : k.cur = some i) (hcur : k'.cur = none) (hcont : k'.cont = k.cont)
    (hst : StableOk k'.stable) (hi : (k.cont i ≠ .user → (k'.proc i).state.Started) ∧ (k'.proc i).state ≠ .RUNNING ∧ LevOk (k'.proc i).lev)
    (hj : ∀ j, j ≠ i → Woken (k.proc j) (k'.proc j)) : Wf k' where
  running j := by
    by_cases hji : j = i
    · subst hji; simp [hi.2.1, hcur]
    · have := hj j hji; have := h.running j; unfold Woken at *; grind
  started j hjc := by
    by_cases hji : j = i
    · subst hji; exact hi.1 (hcont ▸ hjc)
    · have := hj j hji; have := h.started j (hcont ▸ hjc)
      unfold Woken ProcState.Started at *; grind
  embryo j np hjc := by
    rw [hcont] at hjc
    have := hj np (h.cur_not_child hc hjc); have := h.embryo j np hjc
    unfold Woken at *; grind
  builder := by rw [hcont]; exact h.builder
  fresh j np hjc hn := by
    rw [hcont] at hjc hn
    have hw := hj np (h.cur_not_child hc hjc)
    rw [hw.1, hw.2.1]; exact h.fresh j np hjc hn
  lev j := by
    by_cases hji : j = i
    · subst hji; exact hi.2.2
    · rw [(hj j hji).2.1]; exact h.lev j
  entry := by rw [hcont]; exact h.entry
  stable := hst

theorem Wf.yield (h : Wf k) (hc : k.cur = some i) (hy : k.yield i = .ok k') : Wf k' := by
  simp only [Kernel.yield, bind_ok, pure_ok] at hy
  obtain ⟨k1, h1, rfl⟩ := hy
  obtain ⟨a, ha⟩ := charge_proc (k.set i fun p => { p with state := .RUNNABLE }) i
  rw [ha, Kernel.set_set] at h1
  have hlev := h.lev i
  rcases adjust_ok h1 with ⟨-, l, l', q, q', b, hl, hl', -, -, rfl⟩ | ⟨-, b, rfl⟩
  · refine h.leave hc rfl rfl h.stable ⟨fun _ => ?_, ?_, ?_⟩ fun j hj => ?_
    · simp [ProcState.Started]
    · simp
    · simp only [Kernel.set_proc, Function.update_self] at hl hl' ⊢
      have := l'.isLt
      unfold DEPTH_QUEUE at this
      exact .inl (by omega)
    · simp [hj, Woken.refl]
  · refine h.leave hc rfl rfl h.stable ⟨fun _ => ?_, ?_, ?_⟩ fun j hj => ?_
    · simp [ProcState.Started]
    · simp
    · simpa using hlev
    · simp [hj, Woken.refl]

theorem Wf.sleep (h : Wf k) (hc : k.cur = some i) {c : Chan} {cont : Cont}
    (hn : cont.child = none) (he : ∀ e s, cont ≠ .setShare e s) : Wf (k.sleep i c cont) where
  running j := by have := h.running j; by_cases hji : j = i <;> simp [Kernel.sleep, hji]; grind
  started j hj := by
    by_cases hji : j = i
    · subst hji; simp [Kernel.sleep, ProcState.Started]
    · simpa [Kernel.sleep, hji] using h.started j (by simpa [Kernel.sleep, hji] using hj)
  embryo j np hj := by
    by_cases hji : j = i
    · subst hji; simp [Kernel.sleep, hn] at hj
    · have hj' : (k.cont j).child = some np := by simpa [Kernel.sleep, hji] using hj
      simpa [Kernel.sleep, h.cur_not_child hc hj'] using h.embryo j np hj'
  builder j j' np hj hj' := by
    have := h.builder j j' np
    simp only [Kernel.sleep, Kernel.setCont_cont, Kernel.set_cont, Function.update_apply] at hj hj'
    grind
  fresh j np hj hne := by
    by_cases hji : j = i
    · subst hji; simp [Kernel.sleep, hn] at hj
    · have hj' : (k.cont j).child = some np := by simpa [Kernel.sleep, hji] using hj
      simpa [Kernel.sleep, h.cur_not_child hc hj'] using
        h.fresh j np hj' (by simpa [Kernel.sleep, hji] using hne)
  lev j := by
    by_cases hji : j = i
    · subst hji; simpa [Kernel.sleep] using h.lev j
    · simpa [Kernel.sleep, hji] using h.lev j
  entry j e s hj := by
    by_cases hji : j = i
    · subst hji; exact absurd (by simpa [Kernel.sleep] using hj) (he e s)
    · exact h.entry j e s (by simpa [Kernel.sleep, hji] using hj)
  stable := h.stable

/-- A section of a system call that keeps the CPU and moves the caller to `c`. -/
theorem Wf.call (h : Wf k) (hc : k.cur = some i) {c : Cont} (hcur : k'.cur = some i)
    (hcont : k'.cont = Function.update k.cont i c) (hstable : StableOk k'.stable)
    (hent : ∀ e s, c = .setShare e s → EntryOk e s)
    (hrun : ∀ j, (k'.proc j).state = .RUNNING ↔ (k.proc j).state = .RUNNING)
    (hst : ∀ j, (k.proc j).state.Started → (k'.proc j).state.Started)
    (hlev : ∀ j, LevOk (k'.proc j).lev)
    (hch : ∀ j np, j ≠ i → (k.cont j).child = some np → (k'.proc np).state = .EMBRYO ∧
      (k'.proc np).share = (k.proc np).share ∧ (k'.proc np).lev = (k.proc np).lev)
    (hown : ∀ np, c.child = some np → (k'.proc np).state = .EMBRYO ∧
      (∀ j, j ≠ i → (k.cont j).child ≠ some np) ∧
      (c ≠ .allocStack np → (k'.proc np).share = 0 ∧ (k'.proc np).lev = 0)) : Wf k' where
  running j := by rw [hrun, hcur, h.running, hc]
  started j hj := by
    by_cases hji : j = i
    · subst hji
      exact hst j (.inr (.inr (h.running_started hc)))
    · exact hst j (h.started j (by simpa [hcont, hji] using hj))
  embryo j np hj := by
    by_cases hji : j = i
    · subst hji; exact (hown np (by simpa [hcont] using hj)).1
    · exact (hch j np hji (by simpa [hcont, hji] using hj)).1
  builder j j' np hj hj' := by
    have hb := h.builder j j' np
    have ho := hown np
    rw [hcont] at hj hj'
    simp only [Function.update_apply] at hj hj'
    grind
  fresh j np hj hn := by
    by_cases hji : j = i
    · subst hji
      exact (hown np (by simpa [hcont] using hj)).2.2 (by simpa [hcont] using hn)
    · have hj' : (k.cont j).child = some np := by simpa [hcont, hji] using hj
      obtain ⟨-, h1, h2⟩ := hch j np hji hj'
      rw [h1, h2]
      exact h.fresh j np hj' (by simpa [hcont, hji] using hn)
  lev := hlev
  entry j e s hj := by
    by_cases hji : j = i
    · subst hji; exact hent e s (by simpa [hcont] using hj)
    · exact h.entry j e s (by simpa [hcont, hji] using hj)
  stable := hstable

/-- The slots other builders work on are not the one `i` builds. -/
theorem Wf.child_ne (h : Wf k) {j np np' : Slot} (hi : (k.cont i).child = some np) (hj : j ≠ i)
    (hc : (k.cont j).child = some np') : np' ≠ np := by
  rintro rfl; exact hj (h.builder j i np' hc hi)

/-- A section that changes nothing but the caller's own record and position. -/
theorem Wf.callSelf (h : Wf k) (hc : k.cur = some i) {c : Cont} {p : Proc}
    (hcur : k'.cur = some i) (hcont : k'.cont = Function.update k.cont i c)
    (hproc : k'.proc = Function.update k.proc i p) (hstable : StableOk k'.stable)
    (hent : ∀ e s, c = .setShare e s → EntryOk e s)
    (hstate : p.state = (k.proc i).state) (hlev : LevOk p.lev)
    (hch : c.child = none) : Wf k' := by
  refine h.call hc hcur hcont hstable hent (fun j => ?_) (fun j hj => ?_) (fun j => ?_) (fun j np hji hj => ?_)
    fun np hnp => by simp [hch] at hnp
  · by_cases hji : j = i
    · subst hji; simp [hproc, hstate]
    · simp [hproc, hji]
  · by_cases hji : j = i
    · subst hji; simpa [hproc, hstate] using hj
    · simpa [hproc, hji] using hj
  · by_cases hji : j = i
    · subst hji; simpa [hproc] using hlev
    · simpa [hproc, hji] using h.lev j
  · have hne := h.cur_not_child hc hj
    simp [hproc, hne, h.embryo j np hj]

theorem Wf.fork (h : Wf k) (hc : k.cur = some i) : Wf (k.fork i) := by
  unfold Kernel.fork Kernel.allocproc
  cases hf : k.findSlot fun p => p.state = .UNUSED with
  | none =>
    exact h.callSelf hc (c := .user) hc rfl (Function.update_eq_self i k.proc).symm h.stable
      (fun _ _ hx => by cases hx) rfl (h.lev i) rfl
  | some np =>
    have hu : (k.proc np).state = .UNUSED := by simpa using findSlot_some hf
    have hne : ∀ j np', (k.cont j).child = some np' → np' ≠ np := by
      rintro j np' hj rfl
      rw [h.embryo j np' hj] at hu; cases hu
    refine h.call hc (c := .allocStack np) hc rfl h.stable (fun _ _ hx => by cases hx) (fun j => ?_) (fun j hj => ?_) (fun j => ?_)
      (fun j np' _ hj => ?_) fun np' hnp => ?_
    · by_cases hjn : j = np
      · subst hjn; simp [hu]
      · simp [hjn]
    · have hjn : j ≠ np := by rintro rfl; simp [hu, ProcState.Started] at hj
      simpa [hjn] using hj
    · by_cases hjn : j = np
      · subst hjn; simpa using h.lev j
      · simpa [hjn] using h.lev j
    · simp [hne j np' hj, h.embryo j np' hj]
    · obtain rfl : np = np' := by simpa [Cont.child] using hnp
      refine ⟨by simp, fun j _ hj => hne j np hj rfl, fun hx => absurd rfl hx⟩

/-- A section of a `fork` in progress that changes only the slot it builds. -/
theorem Wf.callChild (h : Wf k) (hc : k.cur = some i) {np : Slot} {c : Cont} {p : Proc}
    (hi : (k.cont i).child = some np) (hcur : k'.cur = some i)
    (hcont : k'.cont = Function.update k.cont i c) (hstable : k'.stable = k.stable)
    (hent : ∀ e s, c ≠ .setShare e s)
    (hproc : k'.proc = Function.update k.proc np p)
    (hstate : p.state ≠ .RUNNING) (hlev : LevOk p.lev)
    (hown : ∀ np', c.child = some np' → np' = np ∧ p.state = .EMBRYO ∧
      (c ≠ .allocStack np → p.share = 0 ∧ p.lev = 0)) : Wf k' := by
  have he := h.embryo i np hi
  refine h.call hc hcur hcont (hstable ▸ h.stable) (fun e s hx => absurd hx (hent e s))
    (fun j => ?_) (fun j hj => ?_) (fun j => ?_) (fun j np' hji hj => ?_) fun np' hnp => ?_
  · by_cases hjn : j = np
    · subst hjn; simp [hproc, hstate, he]
    · simp [hproc, hjn]
  · have hjn : j ≠ np := by rintro rfl; simp [he, ProcState.Started] at hj
    simpa [hproc, hjn] using hj
  · by_cases hjn : j = np
    · subst hjn; simpa [hproc] using hlev
    · simpa [hproc, hjn] using h.lev j
  · simp [hproc, h.child_ne hi hji hj, h.embryo j np' hj]
  · obtain ⟨rfl, h1, h2⟩ := hown np' hnp
    exact ⟨by simpa [hproc] using h1, fun j hji hj => h.child_ne hi hji hj rfl,
      fun hn => by simpa [hproc] using h2 hn⟩

theorem Wf.kalloc (h : Wf k) (hc : k.cur = some i) {np : Slot} (hi : k.cont i = .allocStack np)
    (ok : Bool) : Wf (k.kalloc i np ok) := by
  have hch : (k.cont i).child = some np := by rw [hi]; rfl
  cases ok with
  | true =>
    refine h.callChild hc hch (c := .allocEnqueue np) hc rfl rfl (by simp) rfl ?_ ?_ fun np' hnp => ?_
    · simp [h.embryo i np hch]
    · exact .inl ⟨by simp [INITIAL_LEV], by simp [INITIAL_LEV]⟩
    · obtain rfl : np = np' := by simpa [Cont.child] using hnp
      exact ⟨rfl, h.embryo i np hch, fun _ => ⟨rfl, rfl⟩⟩
  | false =>
    exact h.callChild hc hch (c := .user) hc rfl rfl (by simp) rfl (by simp) (by simpa using h.lev np)
      fun np' hnp => by simp [Cont.child] at hnp

theorem Wf.allocEnqueue (h : Wf k) (hc : k.cur = some i) {np : Slot}
    (hi : k.cont i = .allocEnqueue np) (hs : k.allocEnqueue i np = .ok k') : Wf k' := by
  have hch : (k.cont i).child = some np := by rw [hi]; rfl
  simp only [Kernel.allocEnqueue, bind_ok, enqueue_ok, pure_ok] at hs
  obtain ⟨_, ⟨l, q, -, -, rfl⟩, rfl⟩ := hs
  refine h.callChild hc hch (c := .forkCopy np) hc rfl rfl (by simp)
    (Function.update_eq_self np k.proc).symm ?_ (h.lev np)
    fun np' hnp => ?_
  · simp [h.embryo i np hch]
  · obtain rfl : np = np' := by simpa [Cont.child] using hnp
    exact ⟨rfl, h.embryo i np hch, fun _ => h.fresh i np hch (by rw [hi]; simp)⟩

theorem Wf.copyuvm (h : Wf k) (hc : k.cur = some i) {np : Slot} (hi : k.cont i = .forkCopy np)
    (ok : Bool) : Wf (k.copyuvm i np ok) := by
  have hch : (k.cont i).child = some np := by rw [hi]; rfl
  cases ok with
  | true =>
    refine h.callChild hc hch (c := .forkPublish np) hc rfl rfl (by simp) rfl ?_ (h.lev np) fun np' hnp => ?_
    · simp [h.embryo i np hch]
    · obtain rfl : np = np' := by simpa [Cont.child] using hnp
      exact ⟨rfl, h.embryo i np hch, fun _ => h.fresh i np hch (by rw [hi]; simp)⟩
  | false =>
    exact h.callChild hc hch (c := .user) hc rfl rfl (by simp) rfl (by simp) (by simpa using h.lev np)
      fun np' hnp => by simp [Cont.child] at hnp

theorem Wf.forkPublish (h : Wf k) (hc : k.cur = some i) {np : Slot}
    (hi : k.cont i = .forkPublish np) : Wf (k.forkPublish i np) := by
  have hch : (k.cont i).child = some np := by rw [hi]; rfl
  exact h.callChild hc hch (c := .user) hc rfl rfl (by simp) rfl (by simp) (by simpa using h.lev np)
    fun np' hnp => by simp [Cont.child] at hnp

theorem Wf.wait (h : Wf k) (hc : k.cur = some i) : Wf (k.wait i) := by
  unfold Kernel.wait
  cases hf : k.findSlot fun p => p.parent = .slot i ∧ p.state = .ZOMBIE with
  | none =>
    dsimp only
    split
    · exact h.callSelf hc (c := .user) hc rfl (Function.update_eq_self i k.proc).symm h.stable
        (fun _ _ hx => by cases hx) rfl (h.lev i) rfl
    · exact h.sleep hc rfl (by simp)
  | some j =>
    have hz : (k.proc j).state = .ZOMBIE := by
      have := findSlot_some hf
      simp only [decide_eq_true_eq] at this
      exact this.2
    refine h.call hc (c := .user) hc rfl h.stable (fun _ _ hx => by cases hx) (fun j' => ?_) (fun j' hj' => ?_) (fun j' => ?_)
      (fun j' np _ hj' => ?_) fun np hnp => by simp [Cont.child] at hnp
    · by_cases hjj : j' = j
      · subst hjj; simp [hz]
      · simp [hjj]
    · have hjj : j' ≠ j := by rintro rfl; simp [hz, ProcState.Started] at hj'
      simpa [hjj] using hj'
    · by_cases hjj : j' = j
      · subst hjj; simpa using h.lev j'
      · simpa [hjj] using h.lev j'
    · have he := h.embryo j' np hj'
      have hjj : np ≠ j := by rintro rfl; rw [hz] at he; cases he
      simp [hjj, he]

theorem kill_woken (pid : Int) (j : Slot) : Woken (k.proc j) ((k.kill i pid).proc j) := by
  unfold Kernel.kill
  cases k.findSlot fun p => p.pid = pid with
  | none => exact Woken.refl _
  | some m =>
    by_cases hjm : j = m
    · subst hjm
      simp only [Kernel.sysret_proc, Kernel.set_proc, Function.update_self]
      split
      · next hs => exact ⟨rfl, rfl, .inr ⟨hs, rfl⟩⟩
      · exact ⟨rfl, rfl, .inl rfl⟩
    · simp [hjm, Woken.refl]

theorem kill_frame (pid : Int) : (k.kill i pid).cur = k.cur ∧
    (k.kill i pid).cont = Function.update k.cont i .user ∧
    (k.kill i pid).ARRAYQUEUE = k.ARRAYQUEUE ∧ (k.kill i pid).stable = k.stable ∧
    (k.kill i pid).mlfq = k.mlfq := by
  unfold Kernel.kill
  cases k.findSlot fun p => p.pid = pid <;> exact ⟨rfl, rfl, rfl, rfl, rfl⟩

theorem Wf.kill (h : Wf k) (hc : k.cur = some i) (pid : Int) : Wf (k.kill i pid) := by
  have hw := kill_woken (k := k) (i := i) pid
  obtain ⟨hcur, hcont, -, hst, -⟩ := kill_frame (k := k) (i := i) pid
  refine h.call hc (c := .user) (hcur.trans hc) hcont (hst ▸ h.stable) (fun _ _ hx => by cases hx) (fun j => ?_) (fun j hj => ?_) (fun j => ?_)
    (fun j np _ hj => ?_) fun np hnp => by simp [Cont.child] at hnp
  · have := hw j; unfold Woken at this; grind
  · have := hw j; unfold Woken ProcState.Started at *; grind
  · rw [(hw j).2.1]; exact h.lev j
  · have := hw np; have := h.embryo j np hj; unfold Woken at *; grind

theorem slot_injective : Function.Injective Ptr.slot := fun _ _ h => Ptr.slot.inj h

/-- Removing a slot leaves the virtual process first. -/
theorem StableOk.remove {st st' : SizedArray Ptr NPROC} (h : StableOk st) {brk : Bool}
    (hr : st.remove brk (.slot i) = some st') : StableOk st' := by
  obtain ⟨L, hL⟩ := h
  refine ⟨SizedArray.eraseScan brk i L, ?_⟩
  have := hL.of_remove hr
  rwa [SizedArray.eraseScan_cons_ne (by simp), SizedArray.eraseScan_map slot_injective] at this

theorem StableOk.push {st st' : SizedArray Ptr NPROC} (h : StableOk st)
    (hp : st.push (.slot i) = some st') : StableOk st' := by
  obtain ⟨L, hL⟩ := h
  refine ⟨L ++ [i], ?_⟩
  have := (hL.of_push hp).2
  simpa using this

theorem StableOk.entry0 (h : StableOk k.stable) : k.entry 0 = .ok .mlfq := by
  obtain ⟨L, hL⟩ := h
  have h0 : k.stable.get? 0 = some .mlfq := hL.get? (i := 0) (by simp)
  rw [Kernel.entry, h0]
  rfl

/-- What `unschedule` can do. -/
theorem unschedule_ok (h : StableOk k.stable) (hu : k.unschedule i = .ok k') :
    ((k.proc i).share = 0 ∧ ∃ l q, (k.proc i).lev = (l.val : Int) ∧
      (k.ARRAYQUEUE l).remove true (.slot i) = some q ∧ k' = k.setQueue l q) ∨
    ((k.proc i).share ≠ 0 ∧ ∃ st, k.stable.remove true (.slot i) = some st ∧
      k' = { k with
        stable := st
        mlfq := { k.mlfq with share := int32 (k.mlfq.share + (k.proc i).share) } }) := by
  unfold Kernel.unschedule at hu
  split at hu
  · next hs => exact .inl ⟨hs, dequeue_ok.mp hu⟩
  · next hs =>
    simp only [bind_ok, orFault_ok] at hu
    obtain ⟨st, hst, e, he, hu⟩ := hu
    have h0 : ({ k with stable := st } : Kernel).entry 0 = .ok .mlfq :=
      StableOk.entry0 (h.remove hst)
    rw [h0] at he
    cases he
    cases hu
    exact .inr ⟨hs, st, hst, rfl⟩

theorem Wf.exit (h : Wf k) (hc : k.cur = some i) (hu : k.cont i = .user)
    (he : k.exit i = .ok k') : Wf k' := by
  unfold Kernel.exit at he
  split at he
  · cases he
  simp only [bind_ok, pure_ok] at he
  obtain ⟨k2, h2, rfl⟩ := he
  have hf := reparent_frame (k.wakeup1 (k.proc i).parent.chan) i
  have hw : ∀ j, Woken (k.proc j) (((k.wakeup1 (k.proc i).parent.chan).reparent i).proc j) :=
    fun j => (wakeup1_woken k _ j).trans (reparent_woken _ i j)
  have hlev := h.lev i
  rw [← (hw i).2.1] at hlev
  have hst : StableOk ((k.wakeup1 (k.proc i).parent.chan).reparent i).stable := by
    rw [hf.2.2.2.1]; exact h.stable
  rcases unschedule_ok hst h2 with ⟨-, l, q, -, -, rfl⟩ | ⟨-, st, hr, rfl⟩
  · refine h.leave hc rfl hf.2.1 hst ⟨fun hn => absurd hu hn, ?_, ?_⟩ fun j hj => ?_
    · simp
    · simpa using hlev
    · simpa [hj] using hw j
  · refine h.leave hc rfl hf.2.1 (hst.remove hr) ⟨fun hn => absurd hu hn, ?_, ?_⟩ fun j hj => ?_
    · simp
    · simpa using hlev
    · simpa [hj] using hw j

/-- Changes to a record that `Wf` does not look at. -/
theorem Wf.set (h : Wf k) {f : Proc → Proc} (hf : Woken (k.proc i) (f (k.proc i))) :
    Wf (k.set i f) := by
  refine h.woken rfl rfl rfl fun j => ?_
  by_cases hj : j = i
  · subst hj; simpa using hf
  · simp [hj, Woken.refl]

theorem countTick_frame (k : Kernel) (i : Slot) : (k.countTick i).proc = k.proc ∧
    (k.countTick i).cur = k.cur ∧ (k.countTick i).cont = k.cont ∧
    (k.countTick i).ARRAYQUEUE = k.ARRAYQUEUE ∧ (k.countTick i).stable = k.stable ∧
    (k.countTick i).mlfq = k.mlfq := by
  unfold Kernel.countTick; split <;> exact ⟨rfl, rfl, rfl, rfl, rfl, rfl⟩

theorem boosted_frame (k : Kernel) (i : Slot) : (k.boosted i).cur = k.cur ∧
    (k.boosted i).cont = k.cont ∧ (k.boosted i).ARRAYQUEUE = k.ARRAYQUEUE ∧
    (k.boosted i).stable = k.stable ∧ (k.boosted i).mlfq = k.mlfq := by
  have := countTick_frame k i
  unfold Kernel.boosted
  split <;> exact this.2

theorem Wf.boosted (h : Wf k) : Wf (k.boosted i) := by
  obtain ⟨hp, hcur, hcont, -, hst, -⟩ := countTick_frame k i
  have h' : Wf (k.countTick i) := h.woken hcur hcont hst fun j => by rw [hp]; exact Woken.refl _
  unfold Kernel.boosted
  split
  · exact h'.boost
  · exact h'

/-- What the timer branch can do after boosting: charge the tick, and return or
yield. -/
theorem preempt_ok (hp : k.preempt i = .ok k') : ∃ a,
    k' = (k.boosted i).set i (fun p => { p with time_allotment := a }) ∨
    ((k.boosted i).set i fun p => { p with time_allotment := a, from_trap := true }).yield i =
      .ok k' := by
  simp only [Kernel.preempt, bind_ok] at hp
  obtain ⟨q, -, hp⟩ := hp
  split at hp
  · cases hp
  split at hp
  · cases hp; exact ⟨_, .inl rfl⟩
  · rw [Kernel.set_set] at hp; exact ⟨_, .inr hp⟩

theorem Wf.preempt (h : Wf k) (hc : k.cur = some i) (hp : k.preempt i = .ok k') : Wf k' := by
  have hb := h.boosted (i := i)
  have hf := boosted_frame k i
  obtain ⟨a, rfl | hy⟩ := preempt_ok hp
  · exact hb.set ⟨rfl, rfl, .inl rfl⟩
  · exact Wf.yield (hb.set ⟨rfl, rfl, .inl rfl⟩) (hf.1.trans hc) hy

theorem Wf.timer (h : Wf k) {user : Bool} (hu : ∀ i, k.cur = some i → user = true → k.cont i = .user)
    (ht : k.timer user = .ok k') : Wf k' := by
  have hw : Wf ({ k with ticks := (k.ticks + 1) % 2 ^ 32 }.wakeup1 .ticks) :=
    h.woken rfl rfl rfl fun j => wakeup1_woken _ _ j
  unfold Kernel.timer at ht
  dsimp only at ht
  split at ht
  · cases ht; exact hw
  · next i hc =>
    split at ht
    · next hk => exact hw.exit hc (hu i hc hk.2) ht
    · split at ht
      · exact hw.preempt hc ht
      · cases ht; exact hw

theorem Wf.set_cpu_share (h : Wf k) (hc : k.cur = some i) {share : Int} (hr : share < 2 ^ 31)
    (hs : k.set_cpu_share i share = .ok k') : Wf k' := by
  simp only [Kernel.set_cpu_share, bind_ok, h.stable.entry0] at hs
  obtain ⟨e, he, m, -, hs⟩ := hs
  cases he
  split at hs
  · cases hs
    exact h.callSelf hc (c := .user) hc rfl (Function.update_eq_self i k.proc).symm h.stable
      (fun _ _ hx => by cases hx) rfl (h.lev i) rfl
  · next hn =>
    cases hs
    exact h.callSelf hc (c := .setShare .mlfq share) hc rfl (Function.update_eq_self i k.proc).symm
      h.stable (fun _ _ hx => by cases hx; exact ⟨rfl, by omega, hr⟩) rfl (h.lev i) rfl

/-- What the locked section of `set_cpu_share` does. -/
theorem setShareLocked_ok {share : Int} (hs : k.setShareLocked i .mlfq share = .ok k') :
    ∃ st l q, k.stable.push (.slot i) = some st ∧ (k.proc i).lev = (l.val : Int) ∧
      (k.ARRAYQUEUE l).remove true (.slot i) = some q ∧
      k'.proc = Function.update k.proc i { k.proc i with
        share := share, pass := k.min_pass, lev := STRIDE_LEV,
        time_allotment := STRIDE_DEFAULT_TIME_QUANTOM } ∧
      k'.ARRAYQUEUE = Function.update k.ARRAYQUEUE l q ∧ k'.stable = st ∧
      k'.mlfq = { k.mlfq with share := int32 (k.mlfq.share - share) } ∧
      k'.cur = k.cur ∧ k'.cont = Function.update k.cont i .user := by
  simp only [Kernel.setShareLocked, Kernel.setPtr, bind_ok, orFault_ok, dequeue_ok, pure_ok] at hs
  obtain ⟨st, hst, _, hm, _, ⟨l, q, hl, hq, rfl⟩, rfl⟩ := hs
  cases hm
  exact ⟨st, l, q, hst, by simpa using hl, hq, by simp, rfl, rfl, rfl, rfl, rfl⟩

theorem Wf.setShareLocked (h : Wf k) (hc : k.cur = some i) {e : Ptr} {share : Int}
    (hi : k.cont i = .setShare e share) (hs : k.setShareLocked i e share = .ok k') : Wf k' := by
  obtain ⟨rfl, -⟩ := h.entry i e share hi
  obtain ⟨st, l, q, hst, -, -, hp, -, hst', -, hcur, hcont⟩ := setShareLocked_ok hs
  exact h.callSelf hc (c := .user) (hcur.trans hc) hcont hp (hst' ▸ h.stable.push hst)
    (fun _ _ hx => by cases hx) rfl (.inr rfl) rfl

/-- What `dispatch` can do: nothing, or run a runnable slot. -/
theorem dispatch_ok {ptr : Ptr} (hd : k.dispatch ptr = .ok k') :
    k' = k ∨ ∃ i, ptr = .slot i ∧ (k.proc i).state = .RUNNABLE ∧
      k' = { k.set i (fun p => { p with
        first_scheduled := true, start_tick := k.MLFQ_ticks, state := .RUNNING }) with
        cur := some i }.resume i := by
  simp only [Kernel.dispatch, bind_ok] at hd
  obtain ⟨p, hp, hd⟩ := hd
  split at hd
  · next hr =>
    split at hd
    · next i => cases hp; cases hd; exact .inr ⟨i, rfl, hr, rfl⟩
    · cases hd
  · cases hd; exact .inl rfl

/-- `resume` finishes a `sleep`; it never touches the scheduling data. -/
theorem resume_frame (k : Kernel) (i : Slot) :
    (k.resume i).ARRAYQUEUE = k.ARRAYQUEUE ∧ (k.resume i).stable = k.stable ∧
    (k.resume i).mlfq = k.mlfq ∧ (k.resume i).cur = k.cur ∧
    (∀ j, ((k.resume i).proc j).state = (k.proc j).state ∧
      ((k.resume i).proc j).share = (k.proc j).share ∧
      ((k.resume i).proc j).lev = (k.proc j).lev) ∧
    (∀ j, j ≠ i → (k.resume i).cont j = k.cont j) ∧
    (((k.resume i).cont i = k.cont i) ∨
      ((k.cont i).child = none ∧ ((k.resume i).cont i).child = none ∧
        ∀ e s, (k.resume i).cont i ≠ .setShare e s)) := by
  have hp : ∀ (c : Cont) (j : Slot),
      (((k.set i fun p => { p with chan := .null }).setCont i c).proc j).state =
        (k.proc j).state ∧
      (((k.set i fun p => { p with chan := .null }).setCont i c).proc j).share =
        (k.proc j).share ∧
      (((k.set i fun p => { p with chan := .null }).setCont i c).proc j).lev =
        (k.proc j).lev := by
    intro c j
    by_cases hji : j = i
    · subst hji; simp
    · simp [hji]
  unfold Kernel.resume
  split
  · next hc =>
    exact ⟨rfl, rfl, rfl, rfl, hp _, fun j hj => by simp [hj], .inr (by simp [hc, Cont.child])⟩
  · next hc =>
    exact ⟨rfl, rfl, rfl, rfl, hp _, fun j hj => by simp [hj], .inr (by simp [hc, Cont.child])⟩
  · exact ⟨rfl, rfl, rfl, rfl, fun _ => ⟨rfl, rfl, rfl⟩, fun _ _ => rfl, .inl rfl⟩

theorem Wf.dispatch (h : Wf k) (hc : k.cur = none) {ptr : Ptr} (hd : k.dispatch ptr = .ok k') :
    Wf k' := by
  rcases dispatch_ok hd with rfl | ⟨i, -, hr, rfl⟩
  · exact h
  generalize hk1 : ({ k.set i (fun p => { p with
    first_scheduled := true, start_tick := k.MLFQ_ticks, state := .RUNNING }) with
    cur := some i } : Kernel) = k1
  have hcont1 : k1.cont = k.cont := by rw [← hk1]; rfl
  have hself : (k1.proc i).state = .RUNNING ∧ (k1.proc i).share = (k.proc i).share ∧
      (k1.proc i).lev = (k.proc i).lev := by rw [← hk1]; simp
  have hother : ∀ j, j ≠ i → k1.proc j = k.proc j := by rw [← hk1]; intro j hj; simp [hj]
  obtain ⟨-, hst, -, hcur, hp, hcj, hci⟩ := resume_frame k1 i
  rw [hcont1] at hcj hci
  have hchild : ∀ j np, ((k1.resume i).cont j).child = some np → (k.cont j).child = some np := by
    intro j np hj
    by_cases hji : j = i
    · subst hji
      rcases hci with hci | hci
      · rwa [hci] at hj
      · rw [hci.2.1] at hj; cases hj
    · rwa [hcj j hji] at hj
  have hne : ∀ j np, (k.cont j).child = some np → np ≠ i := by
    rintro j np hj rfl
    rw [h.embryo j np hj] at hr; cases hr
  refine ⟨fun j => ?_, fun j hj => ?_, fun j np hj => ?_, fun j j' np hj hj' => ?_,
    fun j np hj hn => ?_, fun j => ?_, fun j e s hj => ?_, ?_⟩
  · rw [(hp j).1, hcur, ← hk1]
    by_cases hji : j = i
    · subst hji; simp
    · have := h.running j; simp [hji, this, hc, Ne.symm hji]
  · rw [(hp j).1]
    by_cases hji : j = i
    · subst hji; rw [hself.1]; exact .inr (.inr rfl)
    · rw [hother j hji]; exact h.started j (by rwa [hcj j hji] at hj)
  · have hj' := hchild j np hj
    rw [(hp np).1, hother np (hne j np hj')]
    exact h.embryo j np hj'
  · exact h.builder j j' np (hchild j np hj) (hchild j' np hj')
  · have hj' := hchild j np hj
    rw [(hp np).2.1, (hp np).2.2, hother np (hne j np hj')]
    refine h.fresh j np hj' fun hx => hn ?_
    by_cases hji : j = i
    · subst hji
      rcases hci with hci | hci
      · rw [hci]; exact hx
      · rw [hx] at hci; cases hci.1
    · rw [hcj j hji]; exact hx
  · rw [(hp j).2.2]
    by_cases hji : j = i
    · subst hji; rw [hself.2.2]; exact h.lev j
    · rw [hother j hji]; exact h.lev j
  · by_cases hji : j = i
    · subst hji
      rcases hci with hci | hci
      · exact h.entry j e s (hci ▸ hj)
      · exact absurd hj (hci.2.2 e s)
    · exact h.entry j e s (by rwa [hcj j hji] at hj)
  · rw [hst, ← hk1]; exact h.stable

/-- Charging an entry changes no more than its pass. -/
structure Charged (k k' : Kernel) : Prop where
  cur : k'.cur = k.cur
  cont : k'.cont = k.cont
  queue : k'.ARRAYQUEUE = k.ARRAYQUEUE
  stable : k'.stable = k.stable
  share : k'.mlfq.share = k.mlfq.share
  proc : ∀ j, (k'.proc j).state = (k.proc j).state ∧ (k'.proc j).share = (k.proc j).share ∧
    (k'.proc j).lev = (k.proc j).lev

/-- What `scheduler` does: charge the chosen entry, then dispatch. -/
theorem scheduler_ok (hs : k.scheduler = .ok k') : ∃ k1 ptr, Charged k k1 ∧ k1.dispatch ptr = .ok k' := by
  simp only [Kernel.scheduler, bind_ok] at hs
  obtain ⟨m, -, e, -, p, -, hs⟩ := hs
  split at hs
  · cases hs
  simp only [bind_ok] at hs
  obtain ⟨k1, h1, ptr, -, hd⟩ := hs
  refine ⟨_, ptr, ?_, hd⟩
  rcases setPtr_ok h1 with ⟨-, rfl⟩ | ⟨i, -, rfl⟩
  · exact ⟨rfl, rfl, rfl, rfl, rfl, fun j => ⟨rfl, rfl, rfl⟩⟩
  · refine ⟨rfl, rfl, rfl, rfl, rfl, fun j => ?_⟩
    by_cases hj : j = i
    · subst hj; simp
    · simp [hj]

theorem Wf.scheduler (h : Wf k) (hc : k.cur = none) (hs : k.scheduler = .ok k') : Wf k' := by
  obtain ⟨k1, ptr, hk, hd⟩ := scheduler_ok hs
  have h1 : Wf k1 := h.woken hk.cur hk.cont hk.stable fun j =>
    ⟨(hk.proc j).2.1, (hk.proc j).2.2, .inl (hk.proc j).1⟩
  exact h1.dispatch (hk.cur.trans hc) hd

end

/-! ## Steps and runs -/

theorem Wf.step {k k' : Kernel} {a : Action} (h : Wf k) (hs : step k a = .ok k') : Wf k' := by
  unfold Sched.step at hs
  split at hs
  · next hc =>
    split at hs
    · exact h.scheduler hc hs
    · exact h.timer (fun i hi => by rw [hc] at hi; cases hi) hs
    · cases hs; exact h.woken rfl rfl rfl fun j => wakeup1_woken _ _ j
    · cases hs
  · next i hc =>
    split at hs
    · next user =>
      split at hs
      · cases hs
      · next hu =>
        refine h.timer (fun j hj ht => ?_) hs
        rw [hc] at hj
        cases hj
        simpa [ht] using (not_or.mp hu).2
    · split at hs
      · cases hs
      · cases hs; exact h.woken rfl rfl rfl fun j => wakeup1_woken _ _ j
    · generalize hci : k.cont i = c at hs
      unfold stepProc at hs
      split at hs
      · cases hs; exact h.fork hc
      · cases hs; exact h.kalloc hc hci _
      · exact h.allocEnqueue hc hci hs
      · cases hs; exact h.copyuvm hc hci _
      · cases hs; exact h.forkPublish hc hci
      · cases hs
        exact h.callSelf hc (c := .yieldCall) hc rfl rfl h.stable (fun _ _ hx => by cases hx) rfl
          (h.lev i) rfl
      · have hu : Wf (k.setCont i .user) := h.callSelf hc hc rfl
          (Function.update_eq_self i k.proc).symm h.stable (fun _ _ hx => by cases hx) rfl
          (h.lev i) rfl
        exact hu.yield hc hs
      · exact h.set_cpu_share hc int32_lt hs
      · exact h.setShareLocked hc hci hs
      · cases hs; exact h.sleep hc rfl (by simp)
      · exact h.exit hc hci hs
      · cases hs; exact h.wait hc
      · cases hs; exact h.wait hc
      · cases hs; exact h.kill hc _
      · cases hs

theorem boot_cont (i : Slot) : Kernel.boot.cont i = .user := rfl

theorem boot_proc : ∀ i, ((Kernel.boot.proc i).state = .RUNNABLE ∨ (Kernel.boot.proc i).state = .UNUSED)
    ∧ (Kernel.boot.proc i).lev = 0 ∧ (Kernel.boot.proc i).share = 0 := by decide

theorem boot_stable : Kernel.boot.stable.Repr [.mlfq] where
  last := by decide
  fits := by decide
  cell i hi := by
    obtain rfl : i = 0 := by simpa using hi
    rfl

theorem Wf.boot : Wf Kernel.boot where
  running i := by
    have hc : Kernel.boot.cur = none := rfl
    have := (boot_proc i).1
    grind
  started i h := absurd (boot_cont i) h
  embryo i np h := by rw [boot_cont] at h; cases h
  builder i j np h := by rw [boot_cont] at h; cases h
  fresh i np h := by rw [boot_cont] at h; cases h
  lev i := .inl (by rw [(boot_proc i).2.1]; omega)
  entry i e s h := by rw [boot_cont] at h; cases h
  stable := ⟨[], boot_stable⟩

theorem Wf.reachable {G : Kernel → Action → Prop} {k : Kernel} (h : Reachable G k) : Wf k :=
  h.invariant Wf.boot fun _ _ _ hi _ hs => hi.step hs

end Xv6.Sched
