import Xv6.Threads.Kernel

/-!
# The discipline of `ptable.lock`

Between two steps no CPU holds `ptable.lock` and interrupts are enabled on every
CPU: each step acquires as often as it releases. The steps that break this are
the first run of a thread, whose `forkret` acquires the lock that `scheduler`
holds for it; `yield` by a thread, which begins with a release; and
`thread_join`, which sleeps with a null lock or releases what it has not acquired.
-/

namespace Xv6.Threads

open Lib
open Sched (NPROC Slot Level ProcState Ptr Chan int32)

/-- A misuse of a spinlock. -/
def LockFault (e : Fault) : Prop :=
  e ∈ ["acquire", "release", "popcli", "sleep without lk", "sched ptable.lock", "sched locks",
    "sched running"].map Fault.panic

instance (e : Fault) : Decidable (LockFault e) := inferInstanceAs (Decidable (_ ∈ _))

/-- No CPU is inside a critical section. -/
structure Free (s : State) : Prop where
  lock : s.lock = none
  ncli : ∀ c, s.ncli c = 0

/-- CPU `c` holds exactly `ptable.lock`. -/
structure Holds (c : Nat) (s : State) : Prop where
  lock : s.lock = some c
  ncli : ∀ d, s.ncli d = if d = c then 1 else 0

/-- The action does not reach one of the three defects. -/
def LockSafe (s : State) : Action → Prop
  | .schedule _ i => ¬ (s.cont i = .forkret ∧ (s.proc i).multi_threaded)
  | .timer c _ => ∀ i ∈ s.cur c, (s.proc i).tid = 0 ∨ (s.proc i).multi_threaded
  | .call c .yield => ∀ i ∈ s.cur c, (s.proc i).tid = 0
  | .call c (.thread_join id) => ∀ i ∈ s.cur c, (s.proc i).tid = 0 → (s.proc i).thread id = .error .wild
  | _ => True

instance (s : State) (a : Action) : Decidable (LockSafe s a) := by
  cases a with
  | schedule c i => exact inferInstanceAs (Decidable (¬ _))
  | timer c user => exact inferInstanceAs (Decidable (∀ i ∈ s.cur c, _))
  | wakeup c chan => exact inferInstanceAs (Decidable True)
  | call c a =>
    cases a with
    | yield => exact inferInstanceAs (Decidable (∀ i ∈ s.cur c, _))
    | thread_join id => exact inferInstanceAs (Decidable (∀ i ∈ s.cur c, _ → _))
    | _ => exact inferInstanceAs (Decidable True)

/-! ## Locks -/

section
variable {s s' : State} {c : Nat} {i : Slot}

theorem Holds.congr (h : Holds c s) (hl : s'.lock = s.lock) (hn : s'.ncli = s.ncli) : Holds c s' :=
  ⟨hl.trans h.lock, fun d => hn ▸ h.ncli d⟩

theorem Free.congr (h : Free s) (hl : s'.lock = s.lock) (hn : s'.ncli = s.ncli) : Free s' :=
  ⟨hl.trans h.lock, fun d => hn ▸ h.ncli d⟩

theorem Holds.set (h : Holds c s) (f : Proc → Proc) : Holds c (s.set i f) := h.congr rfl rfl

theorem Holds.setCont (h : Holds c s) (k : Cont) : Holds c (s.setCont i k) := h.congr rfl rfl

theorem Free.setCont (h : Free s) (k : Cont) : Free (s.setCont i k) := h.congr rfl rfl

theorem Free.sysret (h : Free s) (v : Int) : Free (s.sysret i v) := h.congr rfl rfl

theorem Holds.wakeup1 (h : Holds c s) (chan : Chan) : Holds c (s.wakeup1 chan) := h.congr rfl rfl

/-- After `acquire` the CPU holds the lock, and nothing else has changed. -/
theorem Free.acquire (h : Free s) (c : Nat) : Ensures LockFault (s.acquire c) fun s' =>
    Holds c s' ∧ s'.proc = s.proc ∧ s'.cont = s.cont ∧ s'.cur = s.cur := by
  simp only [State.acquire, h.lock]
  refine ⟨⟨rfl, fun d => ?_⟩, rfl, rfl, rfl⟩
  by_cases hd : d = c
  · subst hd; simp [State.pushcli, h.ncli]
  · simp [State.pushcli, hd, h.ncli]

theorem Holds.release (h : Holds c s) : Ensures LockFault (s.release c) fun s' =>
    Free s' ∧ s'.proc = s.proc ∧ s'.cont = s.cont ∧ s'.cur = s.cur := by
  have hn := h.ncli c
  rw [if_pos rfl] at hn
  simp only [State.release, h.lock, if_true, State.popcli, hn, if_neg Nat.one_ne_zero]
  refine ⟨⟨rfl, fun d => ?_⟩, rfl, rfl, rfl⟩
  by_cases hd : d = c
  · subst hd; simp
  · simp [hd, h.ncli]

/-- A release as the last thing a step does. -/
theorem Holds.leave (h : Holds c s) : Ensures LockFault (s.release c) Free :=
  h.release.mono fun _ _ h => h.1

theorem Holds.sched (h : Holds c s) (hi : (s.proc i).state ≠ .RUNNING) :
    Ensures LockFault (s.sched c i) Free := by
  have hn := h.ncli c
  rw [if_pos rfl] at hn
  simp only [State.sched, h.lock, hn, ne_eq, not_true_eq_false, if_false, if_neg hi]
  exact Holds.leave (s := s.setCur c none) (h.congr rfl rfl)

/-- A release followed by the return of a system call. -/
theorem Holds.return (h : Holds c s) {f : State → State} (hf : ∀ s, Free s → Free (f s)) :
    Ensures LockFault (s.release c >>= fun s => pure (f s)) Free :=
  h.leave.bind fun s hs => hf s hs

/-! ## Queues and memory -/

theorem orWild_ensures {α : Type} (o : Option α) : Ensures LockFault (orWild o) fun _ => True := by
  cases o with
  | none => simp [orWild, Ensures, LockFault]
  | some a => trivial

theorem level_ensures (lev : Int) : Ensures LockFault (level lev) fun _ => True := by
  unfold level
  split
  · trivial
  · simp [Ensures, LockFault]

theorem time_allotment_ensures (lev : Int) :
    Ensures LockFault (time_allotment lev) fun _ => True := by
  unfold time_allotment
  split
  · trivial
  · simp [Ensures, LockFault]

theorem time_quantom_ensures (lev : Int) : Ensures LockFault (time_quantom lev) fun _ => True := by
  unfold time_quantom
  split
  · trivial
  · simp [Ensures, LockFault]

theorem Holds.enqueue (h : Holds c s) (j : Slot) (lev : Int) :
    Ensures LockFault (s.enqueue j lev) fun s' => Holds c s' ∧ s'.proc = s.proc :=
  (level_ensures lev).bind fun _ _ => (orWild_ensures _).bind fun _ _ => ⟨h.congr rfl rfl, rfl⟩

theorem Holds.dequeue (h : Holds c s) (brk : Bool) (j : Slot) (lev : Int) :
    Ensures LockFault (s.dequeue brk j lev) fun s' => Holds c s' ∧ s'.proc = s.proc :=
  (level_ensures lev).bind fun _ _ => (orWild_ensures _).bind fun _ _ => ⟨h.congr rfl rfl, rfl⟩

/-- `adjust` keeps the lock and does not touch the state of the process. -/
theorem Holds.adjust (h : Holds c s) :
    Ensures LockFault (s.adjust i) fun s' => Holds c s' ∧ (s'.proc i).state = (s.proc i).state := by
  unfold State.adjust
  dsimp only
  split
  · refine ((h.set _).dequeue _ _ _).bind fun s1 ⟨h1, hp1⟩ => ?_
    refine (h1.enqueue _ _).bind fun s2 ⟨h2, hp2⟩ => ?_
    have hs : (s2.proc i).state = (s.proc i).state := by simp [hp2, hp1]
    split
    · exact (time_allotment_ensures _).bind fun _ _ => ⟨h2.set _, by simpa using hs⟩
    · exact ⟨h2, hs⟩
  · exact (time_allotment_ensures _).bind fun _ _ => ⟨h.set _, by simp⟩

theorem freevm_ensures {P : State → Prop} (d : Nat)
    (hP : ∀ f, P { s with freed := f }) : Ensures LockFault (s.freevm i d) P := by
  unfold State.freevm
  split
  · simp [Ensures, LockFault]
  · exact hP _

theorem kfree_ensures {P : State → Prop} (d : Nat)
    (hP : ∀ f, P { s with kfreed := f }) : Ensures LockFault (s.kfree d) P := by
  unfold State.kfree
  split
  · simp [Ensures, LockFault]
  · exact hP _

/-! ## Sections that end in `sched` -/

theorem Holds.sleep (h : Holds c s) (chan : Chan) :
    Ensures LockFault (s.sleep c i chan (some .ptable)) Free :=
  (h.set _).sched (by simp)

/-- `sleep` with another lock, which the CPU holds when it calls it. -/
theorem Free.sleepOn (h : Free s) (chan : Chan) :
    Ensures LockFault (s.sleepOn c i chan) Free := by
  have h1 : Ensures LockFault (((s.pushcli c).setCont i .asleep).acquire c) fun s1 =>
      s1.lock = some c ∧ ∀ d, s1.ncli d = if d = c then 2 else 0 := by
    simp only [State.acquire, State.setCont, State.pushcli, h.lock]
    refine ⟨rfl, fun d => ?_⟩
    by_cases hd : d = c
    · subst hd; simp [h.ncli]
    · simp [hd, h.ncli]
  have h2 : ∀ s1 : State, (s1.lock = some c ∧ ∀ d, s1.ncli d = if d = c then 2 else 0) →
      Ensures LockFault (s1.popcli c) (Holds c) := fun s1 ⟨hl, hn⟩ => by
    rw [State.popcli, if_neg (by simp [hn])]
    refine ⟨hl, fun d => ?_⟩
    by_cases hd : d = c
    · subst hd; simp [hn]
    · simp [hd, hn]
  unfold State.sleepOn State.sleep
  dsimp only
  rw [if_neg (by decide)]
  exact h1.bind fun s1 hs => (h2 s1 hs).bind fun s2 hs => Holds.sched (hs.set _) (by simp)

theorem Holds.yield (h : Holds c s) :
    Ensures LockFault (((s.set i fun p => { p with state := .RUNNABLE }).charge i).adjust i >>=
      fun s => s.sched c i) Free := by
  have hs : Holds c ((s.set i fun p => { p with state := .RUNNABLE }).charge i) ∧
      ((((s.set i fun p => { p with state := .RUNNABLE }).charge i).proc i).state = .RUNNABLE) := by
    unfold State.charge
    split
    · exact ⟨h.set _, by simp⟩
    · exact ⟨(h.set _).set _, by simp⟩
  refine hs.1.adjust.bind fun s1 ⟨h1, hr⟩ => h1.sched ?_
  rw [hr, hs.2]
  decide

theorem Free.yield (h : Free s) (hi : (s.proc i).tid = 0) :
    Ensures LockFault (s.yield c i) Free := by
  unfold State.yield
  rw [if_neg (by simpa using hi)]
  exact (h.acquire c).bind fun s1 ⟨h1, _⟩ => h1.yield

theorem Holds.reparent (h : Holds c s) (j : Slot) : Holds c (s.reparent j) := by
  unfold State.reparent
  dsimp only
  split <;> exact h.congr rfl rfl

theorem Free.exit (h : Free s) : Ensures LockFault (s.exit c i) Free := by
  unfold State.exit
  split
  · simp [Ensures, LockFault]
  · refine (h.acquire c).bind fun s1 ⟨h1, _⟩ => ?_
    have h2 := (h1.wakeup1 (chanOf (s1.proc i).parent)).reparent i
    dsimp only
    split
    · exact (h2.dequeue _ _ _).bind fun s2 ⟨h3, _⟩ => (h3.set _).sched (by simp)
    · exact (h2.set _).sched (by simp)

/-! ## Wait, kill, wakeups -/

theorem Holds.reap (h : Holds c s) (z : Slot) : Ensures LockFault (s.reap c i z) Free := by
  refine kfree_ensures (P := Holds c) _ (fun _ => h.congr rfl rfl) |>.bind fun s1 h1 => ?_
  dsimp only
  refine freevm_ensures (P := Holds c) (s := s1.set z _) _ (fun _ => h1.congr rfl rfl) |>.bind
    fun s2 h2 => ?_
  exact (h2.set _).return fun _ hs => hs.sysret _

theorem Holds.waitLoop (h : Holds c s) : Ensures LockFault (s.waitLoop c i) Free := by
  unfold State.waitLoop
  split
  · exact h.reap _
  · split
    · exact h.return fun _ hs => hs.sysret _
    · exact (h.setCont _).sleep _

theorem Free.wait (h : Free s) : Ensures LockFault (s.wait c i) Free :=
  (h.acquire c).bind fun _ ⟨h1, _⟩ => h1.waitLoop

theorem Free.kill (h : Free s) (pid : Int) : Ensures LockFault (s.kill c i pid) Free := by
  refine (h.acquire c).bind fun s1 ⟨h1, _⟩ => ?_
  split
  · exact (h1.set _).return fun _ hs => hs.sysret _
  · exact h1.return fun _ hs => hs.sysret _

theorem Free.wakeup (h : Free s) (chan : Chan) : Ensures LockFault (s.wakeup c chan) fun s' =>
    Free s' ∧ s'.proc = (s.wakeup1 chan).proc ∧ s'.cont = s.cont ∧ s'.cur = s.cur :=
  (h.acquire c).bind fun s1 ⟨h1, hp, hc, hu⟩ =>
    (h1.wakeup1 chan).release.mono fun s2 _ ⟨h2, hp2, hc2, hu2⟩ =>
      ⟨h2, by simp [hp2, State.wakeup1, hp], hc2.trans hc, hu2.trans hu⟩

/-! ## Creating processes and threads -/

theorem Free.allocproc (h : Free s) (thread : Bool) :
    Ensures LockFault (s.allocproc c i thread) Free := by
  refine (h.acquire c).bind fun s1 ⟨h1, _⟩ => ?_
  dsimp only
  split
  · exact h1.return fun _ hs => hs.sysret _
  · exact Holds.return (s := { s1.set _ _ with nextpid := _ }) (h1.congr rfl rfl)
      fun _ hs => hs.setCont _

theorem Free.kalloc (h : Free s) (thread : Bool) (np : Slot) (ok : Bool) :
    Free (s.kalloc i thread np ok) := by
  unfold State.kalloc
  split <;> exact h.congr rfl rfl

theorem Free.allocEnqueue (h : Free s) (thread : Bool) (np : Slot) :
    Ensures LockFault (s.allocEnqueue c i thread np) Free :=
  (h.acquire c).bind fun _ ⟨h1, _⟩ => (h1.enqueue _ _).bind fun _ ⟨h2, _⟩ =>
    h2.return fun _ hs => hs.setCont _

theorem Free.forkCopy (h : Free s) (np : Slot) (o : Outcome) :
    Ensures LockFault (s.forkCopy i np o) Free := by
  cases o with
  | ok => exact h.congr rfl rfl
  | noDir =>
    refine Ensures.bind (kfree_ensures (P := Free) (s := s.set np _) _ fun _ => h.congr rfl rfl)
      fun _ h1 => ?_
    exact .pure (h1.congr rfl rfl)
  | noMem =>
    refine Ensures.bind (freevm_ensures (P := Free) (s := s.setupkvm.1) _ fun _ => h.congr rfl rfl)
      fun s1 h1 => ?_
    refine Ensures.bind (kfree_ensures (P := Free) (s := s1.set np _) _ fun _ => h1.congr rfl rfl)
      fun _ h2 => ?_
    exact .pure (h2.congr rfl rfl)
  | noCopy => simp [State.forkCopy, Ensures, LockFault]

theorem Free.forkPublish (h : Free s) (np : Slot) :
    Ensures LockFault (s.forkPublish c i np) Free :=
  (h.acquire c).bind fun _ ⟨h1, _⟩ => ((h1.set _).setCont _).leave.bind fun _ hs => hs.sysret _

theorem Free.threadShare (h : Free s) (nt : Slot) (o : Outcome) :
    Ensures LockFault (s.threadShare i nt o) Free := by
  cases o with
  | ok => exact h.congr rfl rfl
  | noDir | noMem | noCopy => simp [State.threadShare, Ensures, LockFault]

theorem Free.threadPublish (h : Free s) (nt : Slot) :
    Ensures LockFault (s.threadPublish c i nt) Free := by
  refine (h.acquire c).bind fun s1 ⟨h1, _⟩ => ?_
  dsimp only
  split
  · exact (((h1.set _).set _).setCont _).leave.bind fun _ hs => hs.congr rfl rfl
  · simp [Ensures, LockFault]

theorem Free.exec (h : Free s) (o : Outcome) : Ensures LockFault (s.exec i o) Free := by
  cases o with
  | ok =>
    exact Ensures.bind (freevm_ensures (P := Free) (s := s.setupkvm.1.set i _) _
      fun _ => h.congr rfl rfl) fun _ h1 => .pure (h1.sysret _)
  | noDir => exact h.sysret _
  | noMem | noCopy =>
    exact Ensures.bind (freevm_ensures (P := Free) (s := s.setupkvm.1) _
      fun _ => h.congr rfl rfl) fun _ h1 => .pure (h1.sysret _)

theorem Free.set_cpu_share (h : Free s) (share : Int) (room : Bool) :
    Ensures LockFault (s.set_cpu_share c i share room) Free := by
  unfold State.set_cpu_share
  split
  · exact h.sysret _
  · refine (h.acquire c).bind fun s1 ⟨h1, _⟩ => ?_
    dsimp only
    split
    · simp [Ensures, LockFault]
    · exact ((h1.set _).dequeue _ _ _).bind fun s2 ⟨h2, _⟩ =>
        (h2.set _).return fun _ hs => hs.sysret _

/-! ## Thread exit and join -/

theorem Holds.adopt (h : Holds c s) (m : Slot) (k : Nat) :
    Ensures LockFault (s.adopt m k) (Holds c) := by
  unfold State.adopt Proc.thread
  split
  · split
    · refine Ensures.bind (P := fun _ => True) trivial fun t _ => ?_
      dsimp only
      split
      · exact (h.set _).wakeup1 _
      · exact h.set _
    · simp [bind, Except.bind, Ensures, LockFault]
  · simp [bind, Except.bind, Ensures, LockFault]

/-- A loop keeps the lock if each iteration does. -/
theorem Holds.foldlM {f : State → Nat → Except Fault State}
    (hf : ∀ s k, Holds c s → Ensures LockFault (f s k) (Holds c)) (ks : List Nat) {s : State}
    (h : Holds c s) : Ensures LockFault (ks.foldlM f s) (Holds c) := by
  induction ks generalizing s with
  | nil => exact h
  | cons k ks ih =>
    rw [List.foldlM_cons]
    exact (hf s k h).bind fun s' h' => ih h'

theorem Free.thread_exit (h : Free s) (word : Int) :
    Ensures LockFault (s.thread_exit c i word) Free := by
  unfold State.thread_exit
  split
  · simp [Ensures, LockFault]
  · refine (h.acquire c).bind fun s1 ⟨h1, _⟩ => ?_
    dsimp only
    split
    · simp [Ensures, LockFault]
    · next m _ =>
      refine ((h1.wakeup1 _).foldlM (fun s k hs => hs.adopt m k) _).bind fun s2 h2 => ?_
      split
      · refine Holds.sched (((h2.set _).set _).wakeup1 _) ?_
        -- the caller is a zombie, and no wakeup changes that
        simp only [State.wakeup1, State.set_proc]
        by_cases hm : i = m
        · subst hm; simp
        · simp [hm]
      · simp [Ensures, LockFault]

theorem thread_join_ensures {id : Int}
    (hj : (s.proc i).tid = 0 → (s.proc i).thread id = .error .wild) :
    Ensures LockFault (s.thread_join c i id) Free := by
  unfold State.thread_join
  split
  · simp [Ensures, LockFault]
  · next ht => simp [hj (by simpa using ht), bind, Except.bind, Ensures, LockFault]

/-! ## Scheduling and the timer -/

theorem Holds.awake (h : Holds c s) : Ensures LockFault (s.awake c i) Free := by
  refine (h.set _).release.bind fun s1 ⟨h1, _⟩ => ?_
  refine Ensures.bind (P := Free) ?_ fun _ hs => hs.setCont _
  have hn : (s1.pushcli c).ncli c = 1 := by simp [State.pushcli, h1.ncli]
  rw [State.popcli, if_neg (by rw [hn]; decide)]
  refine ⟨h1.lock, fun d => ?_⟩
  by_cases hd : d = c
  · subst hd; simp [State.pushcli, h1.ncli]
  · simp [State.pushcli, hd, h1.ncli]

theorem Free.schedule (h : Free s) (hi : ¬ (s.cont i = .forkret ∧ (s.proc i).multi_threaded)) :
    Ensures LockFault (s.schedule c i) Free := by
  unfold State.schedule
  split
  · simp [Ensures, LockFault]
  · refine (h.acquire c).bind fun s1 ⟨h1, hp, hc, _⟩ => ?_
    have h2 : Holds c ((s1.set i fun p => { p with first_scheduled := true, state := .RUNNING }).setCur
        c (some i)) := h1.congr rfl rfl
    dsimp only
    split
    · next hk =>
      -- a process that is no thread: `forkret` only releases
      have hm : (s.proc i).multi_threaded = false := by
        have hk' : s.cont i = .forkret := by rw [← hc]; exact hk
        simpa [hk'] using hi
      unfold State.forkret
      rw [if_neg (by simp [State.setCur, hp, hm])]
      exact h2.return fun _ hs => hs.setCont _
    · exact h2.awake
    · exact (h2.set _).waitLoop
    · exact h2.leave

theorem Free.boosted (h : Free s) : Ensures LockFault (s.boosted c i) fun s' =>
    Free s' ∧ ((s'.proc i).tid = (s.proc i).tid ∧
      (s'.proc i).multi_threaded = (s.proc i).multi_threaded) := by
  have hp : (s.countTick i).proc = s.proc := by unfold State.countTick; split <;> rfl
  have hf : Free (s.countTick i) := by unfold State.countTick; split <;> exact h.congr rfl rfl
  unfold State.boosted
  split
  · refine (hf.acquire c).bind fun s1 ⟨h1, hp1, _⟩ => ?_
    refine Ensures.mono (Holds.release (h1.congr rfl rfl)) fun s2 _ ⟨h2, hp2, _⟩ => ⟨h2, ?_⟩
    simp [hp2, hp1, hp]
  · exact ⟨hf, by rw [hp]; exact ⟨rfl, rfl⟩⟩

theorem Free.preempt (h : Free s) (hi : (s.proc i).tid = 0 ∨ (s.proc i).multi_threaded) :
    Ensures LockFault (s.preempt c i) Free := by
  refine h.boosted.bind fun s1 ⟨h1, ht, hm⟩ => ?_
  split
  · exact h1
  · next hn =>
    have ht0 : (s1.proc i).tid = 0 := by rw [ht]; simpa [← hm, hn] using hi
    refine (time_quantom_ensures _).bind fun q _ => ?_
    split
    · simp [Ensures, LockFault]
    · split
      · exact h1.congr rfl rfl
      · exact Free.yield (h1.congr rfl rfl) (by simpa using ht0)

theorem Free.trap (h : Free s) (user : Bool)
    (hi : ∀ i ∈ s.cur c, (s.proc i).tid = 0 ∨ (s.proc i).multi_threaded) :
    Ensures LockFault (s.trap c user) Free := by
  unfold State.trap
  split
  · exact h
  · next i hc =>
    split
    · exact h.exit
    · split
      · exact h.preempt (hi i hc)
      · exact h

theorem Free.timer (h : Free s) (user : Bool)
    (hi : ∀ i ∈ s.cur c, (s.proc i).tid = 0 ∨ (s.proc i).multi_threaded) :
    Ensures LockFault (s.timer c user) Free := by
  unfold State.timer
  split
  · refine (h.wakeup _).bind fun s1 ⟨h1, hp, _, hu⟩ => h1.trap user fun i hc => ?_
    have hw : (s1.proc i).tid = (s.proc i).tid ∧
        (s1.proc i).multi_threaded = (s.proc i).multi_threaded := by
      rw [hp]
      simp only [State.wakeup1]
      split <;> exact ⟨rfl, rfl⟩
    rw [hw.1, hw.2]
    exact hi i (hu ▸ hc)
  · exact h.trap user hi

/-! ## Steps and runs -/

theorem Free.stepProc (h : Free s) {a : Call} (hc : s.cur c = some i)
    (ha : LockSafe s (.call c a)) : Ensures LockFault (stepProc s c i (s.cont i) a) Free := by
  unfold Threads.stepProc
  split
  · exact h.allocproc _
  · exact h.allocproc _
  · exact h.kalloc _ _ _
  · exact h.allocEnqueue _ _
  · exact h.forkCopy _ _
  · exact h.forkPublish _
  · exact h.threadShare _ _
  · exact h.threadPublish _
  · exact h.exec _
  · exact h.exit
  · exact h.wait
  · exact h.kill _
  · exact h.congr rfl rfl
  · exact (h.setCont _).yield (ha i hc)
  · exact h.set_cpu_share _ _
  · exact h.sleepOn _
  · exact h.thread_exit _
  · exact thread_join_ensures (ha i hc)
  · simp [Ensures, LockFault]

/-- **Step lemma**: a step that avoids the defects neither misuses a lock nor
keeps one. -/
theorem Free.step (h : Free s) {a : Action} (ha : LockSafe s a) :
    Ensures LockFault (step s a) Free := by
  cases a with
  | schedule c i => exact h.schedule ha
  | timer c user =>
    dsimp only [Threads.step]
    split
    · simp [Ensures, LockFault]
    · exact h.timer user ha
  | wakeup c chan => exact (h.wakeup chan).mono fun _ _ h => h.1
  | call c a =>
    dsimp only [Threads.step]
    split
    · simp [Ensures, LockFault]
    · next i hc => exact h.stepProc hc ha

theorem free_boot : Free boot := ⟨rfl, fun _ => rfl⟩

/-! ## What the unsafe steps do -/

theorem release_panics (h : s.lock = none) : s.release c = .error (.panic "release") :=
  if_neg (by rw [h]; exact nofun)

theorem Free.yield_thread (h : Free s) (ht : (s.proc i).tid ≠ 0) :
    s.yield c i = .error (.panic "release") := by
  unfold State.yield
  rw [if_pos ht, release_panics h.lock]
  rfl

/-- The first run of a thread: `forkret` acquires what `scheduler` holds. -/
theorem Free.schedule_thread (h : Free s) (hc : s.cur c = none) (hr : (s.proc i).state = .RUNNABLE)
    (hk : s.cont i = .forkret) (hm : (s.proc i).multi_threaded = true) :
    s.schedule c i = .error (.panic "acquire") := by
  simp [State.schedule, hc, hr, State.acquire, h.lock, State.set, State.setCur, State.pushcli, hk,
    State.forkret, hm, bind, Except.bind]

theorem shift_lock {j : Nat} (h : s.shift i j = .ok s') : s'.lock = s.lock := by
  simp only [State.shift, bind_ok, pure_ok] at h
  obtain ⟨t, -, rfl⟩ := h
  rfl

theorem shifts_lock {js : List Nat} (h : js.foldlM (fun s j => s.shift i j) s = .ok s') :
    s'.lock = s.lock := by
  induction js generalizing s with
  | nil => cases h; rfl
  | cons j js ih =>
    simp only [List.foldlM_cons, bind_ok] at h
    obtain ⟨s1, h1, h⟩ := h
    exact (ih h).trans (shift_lock h1)

theorem Free.joinZombie (h : Free s) (t : Slot) (id : Int) : s.joinZombie c i t id ≠ .ok s' := by
  intro hj
  simp only [State.joinZombie, bind_ok] at hj
  obtain ⟨s1, h1, s2, h2, hr⟩ := hj
  have hl1 : s1.lock = none := by
    unfold State.kfree at h1
    split at h1
    · cases h1
    · cases h1; exact h.lock
  have hl2 : s2.lock = none := (shifts_lock h2).trans hl1
  split at hr
  · rw [release_panics (s := s2.set i _) hl2] at hr; cases hr
  · rw [release_panics hl2] at hr; cases hr

/-- `thread_join` does not return: it sleeps with a null lock, or releases a lock
that it does not hold. -/
theorem Free.thread_join (h : Free s) (id : Int) : s.thread_join c i id ≠ .ok s' := by
  intro hj
  unfold State.thread_join at hj
  split at hj
  · cases hj
  · obtain ⟨t, ht, hj⟩ := bind_ok.mp hj
    dsimp only at hj
    split at hj
    · next hz =>
      simp only [pure_bind, ht, ok_bind, if_pos hz] at hj
      obtain ⟨s1, h1, -⟩ := bind_ok.mp hj
      exact h.joinZombie _ _ h1
    · cases hj

theorem Free.yield_ok (h : Free s) (hy : s.yield c i = .ok s') : Free s' := by
  by_cases ht : (s.proc i).tid = 0
  · exact (h.yield ht).of_ok hy
  · rw [h.yield_thread ht] at hy; cases hy

theorem Free.preempt_ok (h : Free s) (hp : s.preempt c i = .ok s') : Free s' := by
  obtain ⟨s1, h1, hp⟩ := bind_ok.mp hp
  have hf := (h.boosted.of_ok h1).1
  split at hp
  · cases hp; exact hf
  · obtain ⟨q, -, hp⟩ := bind_ok.mp hp
    split at hp
    · cases hp
    · split at hp
      · cases hp; exact hf.congr rfl rfl
      · exact Free.yield_ok (s := (s1.set i _).set i _) (hf.congr rfl rfl) hp

theorem Free.trap_ok {user : Bool} (h : Free s) (ht : s.trap c user = .ok s') : Free s' := by
  unfold State.trap at ht
  split at ht
  · cases ht; exact h
  · split at ht
    · exact h.exit.of_ok ht
    · split at ht
      · exact h.preempt_ok ht
      · cases ht; exact h

/-- Whatever step is taken, it leaves no lock held. -/
theorem Free.step_ok (h : Free s) {a : Action} (hs : Threads.step s a = .ok s') : Free s' := by
  by_cases ha : LockSafe s a
  · exact (h.step ha).of_ok hs
  · cases a with
    | schedule c i =>
      simp only [LockSafe, not_not] at ha
      by_cases he : s.cur c ≠ none ∨ (s.proc i).state ≠ .RUNNABLE
      · simp only [Threads.step, State.schedule, if_pos he] at hs; cases hs
      · simp only [ne_eq, not_or, not_not] at he
        rw [Threads.step, h.schedule_thread he.1 he.2 ha.1 ha.2] at hs
        cases hs
    | timer c user =>
      dsimp only [Threads.step] at hs
      split at hs
      · cases hs
      · unfold State.timer at hs
        split at hs
        · obtain ⟨s1, h1, hs⟩ := bind_ok.mp hs
          exact ((h.wakeup _).of_ok h1).1.trap_ok hs
        · exact h.trap_ok hs
    | wakeup c chan => exact absurd trivial ha
    | call c a =>
      dsimp only [Threads.step] at hs
      split at hs
      · cases hs
      · next i hc =>
        cases a with
        | yield =>
          unfold Threads.stepProc at hs
          split at hs <;> try contradiction
          exact (h.setCont _).yield_ok hs
        | thread_join id =>
          unfold Threads.stepProc at hs
          split at hs <;> try contradiction
          exact absurd hs (h.thread_join _)
        | _ => exact absurd trivial ha

end

/-- Between two steps no CPU holds `ptable.lock`, in any run. -/
theorem reachable_free {G : State → Action → Prop} {s : State} (h : Reachable G s) : Free s :=
  h.invariant free_boot fun _ _ _ hf _ hs => hf.step_ok hs

/-- Init creates a thread and sleeps. -/
def createRun : List Action :=
  [.schedule 0 0, .call 0 .thread_create, .call 0 (.kalloc true), .call 0 .allocEnqueue,
    .call 0 (.threadShare .ok), .call 0 .threadPublish, .call 0 (.sleep (.other 0))]

end Xv6.Threads
