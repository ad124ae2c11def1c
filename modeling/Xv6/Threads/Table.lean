import Xv6.Threads.Moves

/-!
# Threads: the table of a master

`threads[1..num_thread]` of a master holds its workers, `tid` is the index of a
worker there and `ret_val` is indexed the same way. `thread_join` takes a worker
out and closes the gap; `thread_exit` walks the table to find parents to change.
-/

namespace Xv6.Threads

open Lib
open Sched (NPROC Slot Level ProcState Ptr Chan int32)

/-! ## Closing the gap -/

namespace State

variable (s : State)

/-- What `thread_join` does to the table of `i` when it takes out worker `threadid`. -/
def closeGap (i : Slot) (threadid : Int) : Except Fault State :=
  let s := s.set i fun p => { p with num_thread := p.num_thread - 1 }
  let n := ((s.proc i).num_thread - threadid).toNat
  (List.range' threadid.toNat n).foldlM (fun s j => s.shift i j) s

theorem joinZombie_eq (c : Nat) (i t : Slot) (threadid : Int) :
    s.joinZombie c i t threadid = (do
      let s ← s.kfree (s.proc t).kstack
      let s := { s with out := Function.update s.out i ((s.proc i).ret_val threadid.toNat) }
      let s ← s.closeGap i threadid
      let s := if (s.proc i).num_thread = 0
        then s.set i fun p => { p with multi_threaded := false } else s
      s.release c) := rfl

end State

/-- The workers `ws` of `m`, in the order of the table, with their return values. -/
structure Workers (s : State) (m : Slot) (ws : List Slot) (rs : List Int) : Prop where
  num_thread : (s.proc m).num_thread = ws.length
  room : ws.length < NTHREAD
  length : rs.length = ws.length
  thread : ∀ k t, ws[k]? = some t → (s.proc m).threads (k + 1) = some t
  tid : ∀ k t, ws[k]? = some t → (s.proc t).tid = (k + 1 : Nat)
  ret_val : ∀ k v, rs[k]? = some v → (s.proc m).ret_val (k + 1) = v

section
variable {s s' : State} {m : Slot} {ws : List Slot} {rs : List Int}

theorem Proc.thread_ok {p : Proc} {k : Nat} {t : Slot} (hk : k < NTHREAD)
    (h : p.threads k = some t) : p.thread k = .ok t := by
  simp [Proc.thread, hk, h]

/-- Two places of the table hold two threads. -/
theorem Workers.ne (h : Workers s m ws rs) {k l : Nat} {t u : Slot} (hk : ws[k]? = some t)
    (hl : ws[l]? = some u) (hkl : k ≠ l) : t ≠ u := by
  rintro rfl
  have e : ((k + 1 : Nat) : Int) = (l + 1 : Nat) := (h.tid k t hk).symm.trans (h.tid l t hl)
  omega

/-- One iteration writes one place of the table. -/
theorem shift_ok {j : Nat} {t : Slot} (hj : j + 1 < NTHREAD)
    (ht : (s.proc m).threads (j + 1) = some t) :
    ∃ s', s.shift m j = .ok s' ∧
      (s'.proc m).threads = Function.update (s.proc m).threads j (some t) := by
  refine ⟨_, by rw [State.shift, show ((j : Int) + 1) = (j + 1 : Nat) from rfl,
    Proc.thread_ok hj ht]; rfl, ?_⟩
  by_cases hm : m = t
  · subst hm; simp
  · simp [hm]

/-- The loop leaves the places outside its range alone. -/
theorem shifts_ok (j n : Nat) (hn : j + n < NTHREAD)
    (ht : ∀ k, j < k → k ≤ j + n → ∃ t, (s.proc m).threads k = some t) :
    ∃ s', (List.range' j n).foldlM (fun s j => s.shift m j) s = .ok s' ∧
      ∀ k, j + n ≤ k → (s'.proc m).threads k = (s.proc m).threads k := by
  induction n generalizing s j with
  | zero => exact ⟨s, rfl, fun _ _ => rfl⟩
  | succ n ih =>
    obtain ⟨t, hjt⟩ := ht (j + 1) (by omega) (by omega)
    obtain ⟨s1, h1, ht1⟩ := shift_ok (by omega) hjt
    have hkeep : ∀ k, j < k → (s1.proc m).threads k = (s.proc m).threads k := fun k hk => by
      rw [ht1, Function.update_of_ne (by omega)]
    obtain ⟨s2, h2, ht2⟩ := ih (s := s1) (j + 1) (by omega) fun k hk hkn => by
      rw [hkeep k (by omega)]
      exact ht k (by omega) (by omega)
    refine ⟨s2, ?_, fun k hk => ?_⟩
    · rw [List.range'_succ, List.foldlM_cons, h1]
      exact h2
    · rw [ht2 k (by omega), hkeep k (by omega)]

theorem eraseLast {α : Type} {l : List α} {k : Nat} {a : α}
    (h : (l.eraseIdx (l.length - 1))[k]? = some a) : l[k]? = some a := by
  rw [List.getElem?_eraseIdx] at h
  split at h
  · exact h
  · rw [List.getElem?_eq_none (by omega)] at h
    cases h

/-- The last worker is taken out by the new count alone. -/
theorem Workers.dropLast (h : Workers s m ws rs) (hw : ws ≠ []) :
    Workers (s.set m fun p => { p with num_thread := p.num_thread - 1 }) m
      (ws.eraseIdx (ws.length - 1)) (rs.eraseIdx (ws.length - 1)) := by
  have hpos : 0 < ws.length := List.length_pos_of_ne_nil hw
  have hl := h.length
  have hr := h.room
  have hd : (ws.eraseIdx (ws.length - 1)).length = ws.length - 1 :=
    List.length_eraseIdx_of_lt (by omega)
  have he : (rs.eraseIdx (ws.length - 1)).length = rs.length - 1 :=
    List.length_eraseIdx_of_lt (by omega)
  refine ⟨?_, by omega, by omega, fun k t hk => ?_, fun k t hk => ?_, fun k v hk => ?_⟩
  · simp only [State.set_proc, Function.update_self, h.num_thread]
    omega
  · simpa using h.thread k t (eraseLast hk)
  · rw [← h.tid k t (eraseLast hk)]
    exact update_keep Proc.tid (by rfl) t
  · rw [← hl] at hk
    simpa using h.ret_val k v (eraseLast hk)

/-- A worker in front of the last one stays, and the last one is lost. -/
theorem Workers.not_closed (h : Workers s m ws rs) {t : Nat} (ht : 1 ≤ t) (htn : t < ws.length)
    (hth : ∀ k, ws.length - 1 ≤ k → (s'.proc m).threads k = (s.proc m).threads k) :
    ¬ Workers s' m (ws.eraseIdx (t - 1)) (rs.eraseIdx (t - 1)) := by
  intro h'
  obtain ⟨n, hn⟩ : ∃ n, ws.length = n + 2 := ⟨ws.length - 2, by omega⟩
  have hlast : ws[n + 1]? = some ws[n + 1] := List.getElem?_eq_getElem (by omega)
  have hprev : ws[n]? = some ws[n] := List.getElem?_eq_getElem (by omega)
  have hk : (ws.eraseIdx (t - 1))[n]? = some ws[n + 1] := by
    rw [List.getElem?_eraseIdx, if_neg (by omega), hlast]
  have heq : some ws[n + 1] = some ws[n] := by
    calc some ws[n + 1] = (s'.proc m).threads (n + 1) := (h'.thread n _ hk).symm
      _ = (s.proc m).threads (n + 1) := hth (n + 1) (by omega)
      _ = some ws[n] := h.thread n _ hprev
  exact h.ne hlast hprev (by omega) (Option.some.inj heq)

/-- **Compaction of the table**: taking out worker `t` leaves the other workers, in
order, with their indices and return values, if and only if `t` is the last one. -/
theorem closeGap_erases_iff (h : Workers s m ws rs) {t : Nat} (ht : 1 ≤ t)
    (htn : t ≤ ws.length) :
    ∃ s', s.closeGap m t = .ok s' ∧
      (Workers s' m (ws.eraseIdx (t - 1)) (rs.eraseIdx (t - 1)) ↔ t = ws.length) := by
  obtain ⟨s1, h1⟩ : ∃ s1, s1 = s.set m fun p => { p with num_thread := p.num_thread - 1 } :=
    ⟨_, rfl⟩
  have hnum : (s1.proc m).num_thread = (ws.length : Int) - 1 := by
    rw [h1, ← h.num_thread]; simp
  have hth : (s1.proc m).threads = (s.proc m).threads := by rw [h1]; simp
  have hloop : s.closeGap m t = (List.range' t ((ws.length : Int) - 1 - t).toNat).foldlM
      (fun s j => s.shift m j) s1 := by
    rw [State.closeGap, ← h1, hnum, Int.toNat_natCast]
  have hr := h.room
  rw [hloop]
  rcases Nat.lt_or_ge t ws.length with hlt | hge
  · obtain ⟨s2, h2, ht2⟩ := shifts_ok (s := s1) (m := m) t ((ws.length : Int) - 1 - t).toNat
      (by omega) fun k hk hkn => by
        obtain ⟨k, rfl⟩ : ∃ l, k = l + 1 := ⟨k - 1, by omega⟩
        exact ⟨ws[k], by rw [hth]; exact h.thread k _ (List.getElem?_eq_getElem (by omega))⟩
    refine ⟨s2, h2, fun h' => absurd h' ?_, fun e => by omega⟩
    exact h.not_closed ht hlt fun k hk => by rw [ht2 k (by omega), hth]
  · have hz : ((ws.length : Int) - 1 - t).toNat = 0 := by omega
    have hteq : t = ws.length := by omega
    refine ⟨s1, by rw [hz]; rfl, fun _ => hteq, fun _ => ?_⟩
    rw [h1, hteq]
    exact h.dropLast (List.ne_nil_of_length_pos (by omega))

end

/-- Slot 0 with two workers, the first of which has exited. -/
def twoWorkers : State :=
  { boot with proc := fun i =>
      if i = 0 then { num_thread := 2, threads := fun k => if k = 1 then some 1 else some 2
                      ret_val := fun k => 10 * k }
      else if i = 1 then { state := .ZOMBIE, tid := 1 }
      else { state := .RUNNABLE, tid := 2 } }

theorem workers_twoWorkers : Workers twoWorkers 0 [1, 2] [10, 20] where
  num_thread := rfl
  room := by decide
  length := rfl
  thread k t h := by
    match k with
    | 0 | 1 => cases h; rfl
    | k + 2 => cases h
  tid k t h := by
    match k with
    | 0 | 1 => cases h; rfl
    | k + 2 => cases h
  ret_val k v h := by
    match k with
    | 0 | 1 => cases h; rfl
    | k + 2 => cases h

theorem closeGap_erases_iff_last : ∃ s', twoWorkers.closeGap 0 (2 : Nat) = .ok s' ∧
    (Workers s' 0 [1] [10] ↔ 2 = 2) :=
  closeGap_erases_iff workers_twoWorkers (by decide) (by decide)

/-- The first of two workers is joined: it stays in the table, and the second is
no longer there. -/
theorem joinFirst_loses : ¬ ∀ s m ws rs, Workers s m ws rs → ∀ t, 1 ≤ t → t ≤ ws.length →
    (∀ w, ws[t - 1]? = some w → (s.proc w).state = .ZOMBIE) →
    ∃ s', s.closeGap m t = .ok s' ∧
      Workers s' m (ws.eraseIdx (t - 1)) (rs.eraseIdx (t - 1)) := by
  intro hall
  obtain ⟨s', h, hw⟩ := hall twoWorkers 0 [1, 2] [10, 20] workers_twoWorkers 1 (by decide)
    (by decide) (fun w hw => by cases hw; rfl)
  have h2 : (s'.proc 0).threads 1 = some 2 := hw.thread 0 2 rfl
  have h1 : (s'.proc 0).threads 1 = some 1 := by cases h; rfl
  rw [h1] at h2
  cases h2

/-! ## Parents -/

/-- Only children of `i` have another parent in `s'` than in `s`. -/
def KeepsParents (s s' : State) (i : Slot) : Prop :=
  ∀ j, (s.proc j).parent ≠ some i → (s'.proc j).parent = (s.proc j).parent

/-- All threads in the table of the master of `i` belong to init, or to `i`. -/
def Adopted (s : State) (i : Slot) : Prop :=
  ∀ m, (s.proc i).master_thread = some m →
    ∀ k : Nat, (k : Int) ≤ (s.proc m).num_thread → ∀ t, (s.proc m).threads k = some t →
      (s.proc t).parent = some s.initproc ∨ (s.proc t).parent = some i

section
variable {s s' : State} {c : Nat} {i m : Slot}

/-- A field other than `state` is kept by a wakeup. -/
theorem wakeup1_field {β : Type} (F : Proc → β) (hF : ∀ p, F { p with state := .RUNNABLE } = F p)
    (ch : Chan) (j : Slot) : F ((s.wakeup1 ch).proc j) = F (s.proc j) := by
  simp only [State.wakeup1]
  split
  · exact hF _
  · rfl

theorem acquire_initproc (h : s.acquire c = .ok s') : s'.initproc = s.initproc := by
  unfold State.acquire at h
  split at h
  · cases h; rfl
  · cases h

/-- The parents after a walk over the places `ks` of the table of `m`. -/
structure Walked (s s' : State) (m : Slot) (ks : List Nat) : Prop where
  initproc : s'.initproc = s.initproc
  threads : ∀ j, (s'.proc j).threads = (s.proc j).threads
  met : ∀ k ∈ ks, ∀ t, (s.proc m).threads k = some t → (s'.proc t).parent = some s.initproc
  keep : ∀ t, (∀ k ∈ ks, (s.proc m).threads k ≠ some t) → (s'.proc t).parent = (s.proc t).parent

theorem Walked.nil : Walked s s m [] :=
  ⟨rfl, fun _ => rfl, fun _ h => absurd h List.not_mem_nil, fun _ _ => rfl⟩

/-- The walk between two changes of other fields. -/
theorem Walked.frame {s₁ s₂ : State} {ks : List Nat} (h : Walked s₁ s₂ m ks)
    (hi : s₁.initproc = s.initproc) (hi' : s'.initproc = s₂.initproc)
    (ht : ∀ j, (s₁.proc j).threads = (s.proc j).threads)
    (ht' : ∀ j, (s'.proc j).threads = (s₂.proc j).threads)
    (hp : ∀ j, (s₁.proc j).parent = (s.proc j).parent)
    (hp' : ∀ j, (s'.proc j).parent = (s₂.proc j).parent) : Walked s s' m ks where
  initproc := hi'.trans (h.initproc.trans hi)
  threads j := (ht' j).trans ((h.threads j).trans (ht j))
  met k hk t hkt := by
    rw [hp', h.met k hk t (by rw [ht]; exact hkt), hi]
  keep t hkt := by
    rw [hp', h.keep t (fun k hk => by rw [ht]; exact hkt k hk), hp]

theorem adopt_walked {k : Nat} (h : s.adopt m k = .ok s') : Walked s s' m [k] := by
  simp only [State.adopt, bind_ok, pure_ok] at h
  obtain ⟨t, ht, rfl⟩ := h
  have htm : (s.proc m).threads k = some t := by
    unfold Proc.thread at ht
    split at ht
    · split at ht
      · next h => cases ht; exact h
      · cases ht
    · cases ht
  obtain ⟨s1, h1⟩ : ∃ s1, s1 = s.set t fun p => { p with parent := some s.initproc } := ⟨_, rfl⟩
  have hpar : ∀ j, (s1.proc j).parent = if j = t then some s.initproc else (s.proc j).parent := by
    intro j
    by_cases hj : j = t
    · subst hj; simp [h1]
    · simp [h1, hj]
  have hthr : ∀ j, (s1.proc j).threads = (s.proc j).threads := by
    rw [h1]
    exact update_keep Proc.threads (by rfl)
  have hw : Walked s s1 m [k] := by
    refine ⟨by rw [h1]; rfl, hthr, fun l hl u hu => ?_, fun u hu => ?_⟩
    · cases List.mem_singleton.mp hl
      cases htm.symm.trans hu
      rw [hpar, if_pos rfl]
    · rw [hpar, if_neg]
      rintro rfl
      exact hu k (List.mem_singleton_self k) htm
  rw [← h1]
  split
  · exact hw.frame rfl rfl (fun _ => rfl) (wakeup1_field Proc.threads (fun _ => rfl) _)
      (fun _ => rfl) (wakeup1_field Proc.parent (fun _ => rfl) _)
  · exact hw

theorem Walked.trans {s'' : State} {ks ls : List Nat} (h : Walked s s' m ks)
    (h' : Walked s' s'' m ls) : Walked s s'' m (ks ++ ls) where
  initproc := h'.initproc.trans h.initproc
  threads j := (h'.threads j).trans (h.threads j)
  met k hk t ht := by
    by_cases hl : ∃ l ∈ ls, (s.proc m).threads l = some t
    · obtain ⟨l, hl, hlt⟩ := hl
      rw [h'.met l hl t (by rw [h.threads]; exact hlt), h.initproc]
    · rw [h'.keep t fun l hl' e => hl ⟨l, hl', by rw [← h.threads]; exact e⟩]
      rcases List.mem_append.mp hk with hk | hk
      · exact h.met k hk t ht
      · exact absurd ⟨k, hk, ht⟩ hl
  keep t ht := by
    rw [h'.keep t fun l hl e => ht l (List.mem_append_right _ hl) (by rw [← h.threads]; exact e)]
    exact h.keep t fun k hk => ht k (List.mem_append_left _ hk)

theorem adopts_walked {ks : List Nat} (h : ks.foldlM (fun s k => s.adopt m k) s = .ok s') :
    Walked s s' m ks := by
  induction ks generalizing s with
  | nil => cases h; exact .nil
  | cons k ks ih =>
    simp only [List.foldlM_cons, bind_ok] at h
    obtain ⟨s1, h1, h⟩ := h
    exact (adopt_walked h1).trans (ih h)

/-- `thread_exit` walks the whole table of the master. -/
theorem thread_exit_walked {word : Int} (h : s.thread_exit c i word = .ok s') :
    ∃ m, (s.proc i).master_thread = some m ∧ ∃ s₁,
      Walked s s₁ m (List.range ((s.proc m).num_thread + 1).toNat) ∧
      ∀ j, (s'.proc j).parent = (s₁.proc j).parent := by
  unfold State.thread_exit at h
  split at h
  · cases h
  · obtain ⟨s1, h1, h⟩ := bind_ok.mp h
    dsimp only at h
    have hp := acquire_proc h1
    rw [hp] at h
    split at h
    · cases h
    · next m hm =>
      obtain ⟨s2, h2, h⟩ := bind_ok.mp h
      split at h
      · have hw := adopts_walked h2
        rw [wakeup1_field Proc.num_thread (fun _ => rfl), hp] at hw
        have hpar : ∀ j, ((s1.wakeup1 (.proc m)).proc j).parent = (s.proc j).parent := fun j => by
          rw [wakeup1_field Proc.parent (fun _ => rfl), hp]
        have hthr : ∀ j, ((s1.wakeup1 (.proc m)).proc j).threads = (s.proc j).threads := fun j => by
          rw [wakeup1_field Proc.threads (fun _ => rfl), hp]
        refine ⟨m, hm, s2, hw.frame (acquire_initproc h1 :) rfl hthr (fun _ => rfl) hpar
          (fun _ => rfl), fun j => ?_⟩
        rw [sched_proc h, wakeup1_field Proc.parent (fun _ => rfl)]
        exact (update_keep Proc.parent (by rfl) j).trans (update_keep Proc.parent (by rfl) j)
      · cases h

end

/-! ### Exits of threads that have run -/

/-- The first run of a thread as `forkret` is meant: it releases the lock that
`scheduler` holds. -/
def State.enterThread (s : State) (c : Nat) (i : Slot) : Except Fault State :=
  if s.cur c ≠ none ∨ (s.proc i).state ≠ .RUNNABLE then .error .blocked
  else do
    let s ← s.acquire c
    let s := (s.set i fun p => { p with first_scheduled := false, state := .RUNNING }).setCur c
      (some i)
    let s ← s.release c
    return s.setCont i .user

/-- `step`, with the first run of threads as it is meant. -/
def stepEntered (s : State) : Action → Except Fault State
  | .schedule c i =>
    if s.cont i = .forkret ∧ (s.proc i).multi_threaded then s.enterThread c i else s.schedule c i
  | a => step s a

def forkCalls : List Call := [.fork, .kalloc true, .allocEnqueue, .forkCopy .ok, .forkPublish]

def createCalls : List Call :=
  [.thread_create, .kalloc true, .allocEnqueue, .threadShare .ok, .threadPublish]

/-- Process `i` makes the calls and sleeps. -/
def turn (i : Slot) (calls : List Call) : List Action :=
  .schedule 0 i :: (calls ++ [Call.sleep (.other i)]).map (.call 0)

/-- Init forks slot 1, which forks slot 2, which creates a thread, slot 3, that runs. -/
def grandchildRun : List Action :=
  turn 0 forkCalls ++ turn 1 forkCalls ++ turn 2 createCalls ++ [.schedule 0 3]

/-- The thread exits, and slot 1 waits for its child. -/
def exitWaitRun : List Action :=
  grandchildRun ++
    [.call 0 (.thread_exit 7), .wakeup 0 (.other 1), .schedule 0 1, .call 0 .wait]

end Xv6.Threads
