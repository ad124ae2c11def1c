import Xv6.Lib.Owned
import Xv6.Threads.Wf

/-!
# Joining a thread

`thread_join` never returns, in any state that a run reaches: whatever the
arguments, it panics or follows a bad pointer. So no thread is ever given back:
its slot stays in use and its kernel stack is never passed to `kfree`.
-/

namespace Xv6.Threads

open Lib
open Sched (NPROC Slot Level ProcState Ptr Chan int32)

/-! ## The result of a join -/

/-- Thread `t` has handle `id` in the table of `i`. -/
def Handle (s : State) (i : Slot) (id : Int) (t : Slot) : Prop :=
  1 ≤ id ∧ id ≤ (s.proc i).num_thread ∧ (s.proc i).thread id = .ok t

/-- The join of `id` does what it should: of a thread that has exited it stores
the value, of one that has not it waits, and of anything else it returns `-1`. -/
def Joins (s : State) (c : Nat) (i : Slot) (id : Int) : Prop :=
  ∃ s', s.thread_join c i id = .ok s' ∧
    (∀ t, Handle s i id t → (s.proc t).state = .ZOMBIE →
      s'.ret i = 0 ∧ s'.out i = (s.proc i).ret_val id.toNat) ∧
    (∀ t, Handle s i id t → (s.proc t).state ≠ .ZOMBIE → (s'.proc i).state = .SLEEPING) ∧
    ((¬ ∃ t, Handle s i id t) → s'.ret i = -1 ∧ s'.proc = s.proc ∧ s'.out i = s.out i)

/-- No join does what it should. -/
theorem join_never {s : State} (h : Reachable Always s) (c : Nat) (i : Slot) (id : Int) :
    ¬ Joins s c i id :=
  fun ⟨_, hj, _⟩ => (reachable_free h).thread_join id hj

/-- Init creates a thread. -/
def threadRun : List Action := createRun.take 6

theorem join_never_threadRun : ∃ s, exec step Always boot threadRun = some s ∧
    Handle s 0 1 1 ∧ ¬ Joins s 0 0 1 := by
  obtain ⟨s, hs, hr, hp⟩ := Reach.of_any step Always boot
    (fun s => 1 ≤ (s.proc 0).num_thread ∧ (s.proc 0).thread 1 = .ok 1) threadRun (by decide +kernel)
  exact ⟨s, hs, ⟨by decide, hp⟩, join_never hr 0 0 1⟩

/-- The join of a thread that has not exited panics. -/
theorem join_threadRun_panics : ∃ s, exec step Always boot threadRun = some s ∧
    Reachable Always s ∧ Handle s 0 1 1 ∧ (s.proc 1).state = .RUNNABLE ∧
    step s (.call 0 (.thread_join 1)) = .error (.panic "sleep without lk") := by
  obtain ⟨s, hs, hr, ⟨h1, h2⟩, h3⟩ := Reach.of_any step Always boot
    (fun s => ((1 ≤ (s.proc 0).num_thread ∧ (s.proc 0).thread 1 = .ok 1) ∧
      (s.proc 1).state = .RUNNABLE) ∧
      faultsWith (step s (.call 0 (.thread_join 1))) (.panic "sleep without lk") = true)
    threadRun (by decide +kernel)
  exact ⟨s, hs, hr, ⟨by decide, h1⟩, h2, faultsWith_iff.mp h3⟩

/-! ## Threads and their kernel stacks -/

/-- Slot `t` is a thread, or becomes one. -/
def Worker (s : State) (t : Slot) : Prop :=
  ((s.proc t).state = .EMBRYO ∧ ∃ i, s.cont i = .allocEnqueue true t ∨ s.cont i = .threadShare t ∨
    s.cont i = .threadPublish t ∧ (s.proc t).multi_threaded = true) ∨
  ((s.proc t).state = .RUNNABLE ∧ s.cont t = .forkret ∧ (s.proc t).multi_threaded = true)

/-- The kernel stack of a slot. -/
def State.stack (s : State) (i : Slot) : Option Nat :=
  if (s.proc i).kstack = 0 then none else some (s.proc i).kstack

structure Stacks (s : State) : Prop where
  wf : Wf s
  owned : Owned s.stack s.nextStack s.kfreed
  pos : 0 < s.nextStack
  own : ∀ i j d, s.stack i = some d → s.stack j = some d → i = j
  /-- each stack of a thread is still that of a thread -/
  worker : ∀ d ∈ s.workerStacks, ∃ t, s.stack t = some d ∧ Worker s t

section
variable {ok : Proc → Prop} {K R : Slot → Prop} {s s' : State}

/-- A change that does not concern thread `t`. -/
theorem Worker.keep {t : Slot} (h : Worker s t) (hs : (s'.proc t).state = (s.proc t).state)
    (hm : (s'.proc t).multi_threaded = (s.proc t).multi_threaded)
    (hb : ∀ i, (s.cont i).target = some t → s'.cont i = s.cont i)
    (hk : s.cont t = .forkret → s'.cont t = .forkret) : Worker s' t := by
  rcases h with ⟨he, i, hi⟩ | ⟨hr, hf, hmt⟩
  · refine .inl ⟨hs.trans he, i, ?_⟩
    rw [hm, hb i (by rcases hi with e | e | ⟨e, -⟩ <;> rw [e] <;> rfl)]
    exact hi
  · exact .inr ⟨hs.trans hr, hk hf, hm.trans hmt⟩

theorem Worker.not_running {t : Slot} (h : Worker s t) : (s.proc t).state ≠ .RUNNING := by
  rcases h with ⟨he, -⟩ | ⟨hr, -⟩
  · rw [he]; decide
  · rw [hr]; decide

theorem Worker.not_zombie {t : Slot} (h : Worker s t) : (s.proc t).state ≠ .ZOMBIE := by
  rcases h with ⟨he, -⟩ | ⟨hr, -⟩
  · rw [he]; decide
  · rw [hr]; decide

theorem Worker.not_unused {t : Slot} (h : Worker s t) : (s.proc t).state ≠ .UNUSED := by
  rcases h with ⟨he, -⟩ | ⟨hr, -⟩
  · rw [he]; decide
  · rw [hr]; decide

/-- A slot that somebody builds otherwise is no thread. -/
theorem Worker.not_built (h : Wf s) {i t : Slot} {k : Cont} (hi : s.cont i = k)
    (hk : k.target = some t)
    (hn : k ≠ .allocEnqueue true t ∧ k ≠ .threadShare t ∧ k ≠ .threadPublish t) : ¬ Worker s t := by
  rintro (⟨-, j, hj⟩ | ⟨hr, -⟩)
  · have hij : i = j := h.builder i j t (by rw [hi, hk])
      (by rcases hj with e | e | ⟨e, -⟩ <;> rw [e] <;> rfl)
    subst hij
    rw [hi] at hj
    rcases hj with e | e | ⟨e, -⟩
    · exact hn.1 e
    · exact hn.2.1 e
    · exact hn.2.2 e
  · have := h.target i t (by rw [hi, hk])
    rw [hr] at this; cases this

theorem Worker.not_caller (h : Wf s) {c : Nat} {i t : Slot} (ht : Worker s t)
    (hc : s.cur c = some i) : t ≠ i := by
  rintro rfl; exact ht.not_running (h.running c t hc)

/-- A move of the builder of another slot. -/
theorem Worker.other (h : Wf s) {c : Nat} {i np t : Slot} (ht : Worker s t)
    (hc : s.cur c = some i) (hi : (s.cont i).target = some np) (htn : t ≠ np)
    (hs : (s'.proc t).state = (s.proc t).state)
    (hm : (s'.proc t).multi_threaded = (s.proc t).multi_threaded)
    (hcont : ∀ j, j ≠ i → j ≠ np → s'.cont j = s.cont j) : Worker s' t := by
  refine ht.keep hs hm (fun j hj => hcont j ?_ ?_) fun hf =>
    (hcont t (ht.not_caller h hc) htn).trans hf
  · rintro rfl; rw [hi] at hj; cases hj; exact htn rfl
  · rintro rfl
    have := (h.idle j (.inr (.inl (h.target i j hi)))).2
    rw [hj] at this; cases this

theorem stack_congr (h : ∀ i, (s'.proc i).kstack = (s.proc i).kstack) : s'.stack = s.stack := by
  funext i; simp only [State.stack, h]

/-- A move after which each slot has the stack it had. -/
theorem Stacks.keep (h : Stacks s) (hw : Wf s') (hk : ∀ i, (s'.proc i).kstack = (s.proc i).kstack)
    (hn : s'.nextStack = s.nextStack) (hf : s'.kfreed = s.kfreed)
    (hws : s'.workerStacks = s.workerStacks) (ht : ∀ t, Worker s t → Worker s' t) : Stacks s' where
  wf := hw
  owned := by rw [stack_congr hk, hn, hf]; exact h.owned
  pos := hn ▸ h.pos
  own := by rw [stack_congr hk]; exact h.own
  worker d hd := by
    obtain ⟨t, hs, hwk⟩ := h.worker d (hws ▸ hd)
    exact ⟨t, by rw [stack_congr hk]; exact hs, ht t hwk⟩

/-- A move that frees the stack of `z`, which is no thread. -/
theorem Stacks.free (h : Stacks s) {z : Slot} (hw : Wf s') (hz : (s.proc z).kstack ≠ 0)
    (hzw : ¬ Worker s z) (hk : ∀ i, (s'.proc i).kstack = if i = z then 0 else (s.proc i).kstack)
    (hn : s'.nextStack = s.nextStack) (hf : s'.kfreed = s.kfreed ++ [(s.proc z).kstack])
    (hws : s'.workerStacks = s.workerStacks) (ht : ∀ t, t ≠ z → Worker s t → Worker s' t) :
    Stacks s' := by
  have hst : s'.stack = Function.update s.stack z none := by
    funext i
    by_cases hi : i = z
    · subst hi; simp [State.stack, hk]
    · simp [State.stack, hk, hi]
  have hzs : s.stack z = some (s.proc z).kstack := if_neg hz
  refine ⟨hw, ?_, hn ▸ h.pos, fun i j d hi hj => ?_, fun d hd => ?_⟩
  · rw [hst, hn, hf]
    exact h.owned.free hzs fun j hj hjs => hj (h.own j z _ hjs hzs)
  · rw [hst] at hi hj
    have hiz : i ≠ z := by rintro rfl; simp at hi
    have hjz : j ≠ z := by rintro rfl; simp at hj
    exact h.own i j d (by simpa [hiz] using hi) (by simpa [hjz] using hj)
  · obtain ⟨t, hs, hwk⟩ := h.worker d (hws ▸ hd)
    have htz : t ≠ z := by rintro rfl; exact hzw hwk
    exact ⟨t, by rw [hst]; simpa [htz] using hs, ht t htz hwk⟩

/-- **Step lemma**: every move keeps the stacks of the threads. -/
theorem Stacks.move (h : Stacks s) (m : Move ok K R s s') : Stacks s' := by
  have hw := h.wf.move m
  cases m with
  | quiet q =>
    refine h.keep hw (fun j => (q.proc j).kstack) q.nextStack q.kfreed q.workerStacks fun t ht => ?_
    refine ht.keep ?_ (q.proc t).multi (fun i hi => q.cont_eq fun hp => ?_) fun hf => ?_
    · refine (q.proc t).state.resolve_right fun e => ?_
      rcases ht with ⟨he, -⟩ | ⟨hr, -⟩
      · rw [he] at e; cases e.1
      · rw [hr] at e; cases e.1
    · rw [hp.2] at hi; cases hi
    · rw [q.cont_eq (fun hp => hp.1 hf), hf]
  | run c i k hc hR hs hn hk =>
    have hi : ∀ t, Worker s t → t ≠ i := by
      rintro t (⟨he, -⟩ | ⟨-, hf, hm⟩) rfl
      · rw [hs] at he; cases he
      · exact hn ⟨hf, hm⟩
    refine h.keep hw (fun j => ?_) rfl rfl rfl fun t ht => ht.keep ?_ ?_ (fun j hj => ?_) fun hf => ?_
    · by_cases hj : j = i
      · subst hj; simp
      · simp [hj]
    · simp [hi t ht]
    · simp [hi t ht]
    · by_cases hji : j = i
      · subst hji
        rcases hk with ⟨e, -⟩ | ⟨-, hn⟩
        · simp [e]
        · rw [hn] at hj; cases hj
      · simp [hji]
    · simpa [hi t ht] using hf
  | leave c i st hc _ | exit c i hc _ =>
    refine h.keep hw (fun j => ?_) rfl rfl rfl fun t ht => ht.keep ?_ ?_ (fun _ _ => rfl) id
    · by_cases hj : j = i
      · subst hj; simp
      · simp [hj]
    · simp [ht.not_caller h.wf hc]
    · simp [ht.not_caller h.wf hc]
  | alloc c i np t hc hp hu =>
    have hnp : ∀ t, Worker s t → t ≠ np := by rintro t ht rfl; exact ht.not_unused hu
    refine h.keep hw (fun j => ?_) rfl rfl rfl fun t ht => ht.keep ?_ ?_ (fun j hj => ?_) fun hf => ?_
    · by_cases hj : j = np
      · subst hj; simp
      · simp [hj]
    · simp [hnp t ht]
    · simp [hnp t ht]
    · have hji : j ≠ i := by rintro rfl; rw [hp.2] at hj; cases hj
      simp [hji]
    · simpa [ht.not_caller h.wf hc] using hf
  | stack c i np thread hc hk =>
    have hi : (s.cont i).target = some np := by rw [hk]; rfl
    have hnp : ∀ t, Worker s t → t ≠ np := by
      rintro t ht rfl
      exact Worker.not_built h.wf hk rfl ⟨by simp, by simp, by simp⟩ ht
    have hst : State.stack ((s.allocInit thread np).setCont i (.allocEnqueue thread np)) =
        Function.update s.stack np (some s.nextStack) := by
      funext j
      by_cases hj : j = np
      · subst hj; simp [State.stack, State.allocInit, Nat.ne_of_gt h.pos]
      · simp [State.stack, State.allocInit, hj]
    have hold : ∀ d ∈ s.workerStacks, ∃ t, Function.update s.stack np (some s.nextStack) t = some d ∧
        Worker ((s.allocInit thread np).setCont i (.allocEnqueue thread np)) t := fun d hd => by
      obtain ⟨t, hs, ht⟩ := h.worker d hd
      have htn := hnp t ht
      refine ⟨t, by simpa [htn] using hs, ht.other h.wf hc hi htn ?_ ?_ fun j hj _ => ?_⟩
      · simp [State.allocInit, htn]
      · simp [State.allocInit, htn]
      · simp [State.allocInit, hj]
    refine ⟨hw, ?_, Nat.succ_pos _, fun j j' d hd hd' => ?_, fun d hd => ?_⟩
    · rw [hst]; exact h.owned.create np
    · rw [hst] at hd hd'
      by_cases hj : j = np <;> by_cases hj' : j' = np
      · rw [hj, hj']
      · subst hj
        have := h.owned.lt j' d (by simpa [hj'] using hd')
        simp at hd; omega
      · subst hj'
        have := h.owned.lt j d (by simpa [hj] using hd)
        simp at hd'; omega
      · exact h.own j j' d (by simpa [hj] using hd) (by simpa [hj'] using hd')
    · rw [hst]
      cases thread with
      | false => exact hold d hd
      | true =>
        rcases List.mem_append.mp hd with hd | hd
        · exact hold d hd
        · refine ⟨np, by simpa using (List.mem_singleton.mp hd).symm, .inl ⟨?_, i, .inl (by simp)⟩⟩
          simpa [State.allocInit] using h.wf.target i np hi
  | noStack c i np thread hc hk =>
    have hi : (s.cont i).target = some np := by rw [hk]; rfl
    have hnp : ¬ Worker s np := Worker.not_built h.wf hk rfl ⟨by simp, by simp, by simp⟩
    have hst : (s.allocFail i np).stack = Function.update s.stack np none := by
      funext j
      by_cases hj : j = np
      · subst hj; simp [State.stack, State.allocFail]
      · simp [State.stack, State.allocFail, hj]
    have hsub : ∀ j d, (s.allocFail i np).stack j = some d → s.stack j = some d := fun j d hj => by
      rw [hst] at hj
      by_cases hjn : j = np
      · subst hjn; simp at hj
      · simpa [hjn] using hj
    refine ⟨hw, h.owned.sub hsub, h.pos, fun j j' d hj hj' => h.own j j' d (hsub j d hj) (hsub j' d hj'),
      fun d hd => ?_⟩
    obtain ⟨t, hs, ht⟩ := h.worker d hd
    have htn : t ≠ np := by rintro rfl; exact hnp ht
    refine ⟨t, by rw [hst]; simpa [htn] using hs, ht.other h.wf hc hi htn ?_ ?_ fun j hj _ => ?_⟩
    · simp [State.allocFail, htn]
    · simp [State.allocFail, htn]
    · simp [State.allocFail, hj]
  | enqueue c i np thread hc hk =>
    refine h.keep hw (fun _ => rfl) rfl rfl rfl fun t ht => ?_
    by_cases htn : t = np
    · subst htn
      cases thread with
      | false => exact absurd ht (Worker.not_built h.wf hk rfl ⟨by simp, by simp, by simp⟩)
      | true =>
        exact .inl ⟨h.wf.target i t (by rw [hk]; rfl), i, .inr (.inl (by simp))⟩
    · exact ht.other h.wf hc (by rw [hk]; rfl) htn rfl rfl fun j hj _ => by simp [hj]
  | copy c i np hc hk =>
    have hnp : ¬ Worker s np := Worker.not_built h.wf hk rfl ⟨by simp, by simp, by simp⟩
    refine h.keep hw (fun j => ?_) rfl rfl rfl fun t ht => ?_
    · by_cases hj : j = np
      · subst hj; simp [State.setupkvm]
      · simp [State.setupkvm, hj]
    · have htn : t ≠ np := by rintro rfl; exact hnp ht
      refine ht.other h.wf hc (by rw [hk]; rfl) htn ?_ ?_ fun j hj _ => ?_
      · simp [State.setupkvm, htn]
      · simp [State.setupkvm, htn]
      · simp [State.setupkvm, hj]
  | noCopy c i np hc hk hf =>
    have hnp : ¬ Worker s np := Worker.not_built h.wf hk rfl ⟨by simp, by simp, by simp⟩
    obtain ⟨hne, rfl⟩ := kfree_ok hf
    refine h.free (z := np) hw hne hnp (fun j => ?_) rfl rfl rfl fun t htn ht => ?_
    · by_cases hj : j = np
      · subst hj; simp [State.allocFail]
      · simp [State.allocFail, hj]
    · refine ht.other h.wf hc (by rw [hk]; rfl) htn ?_ ?_ fun j hj _ => ?_
      · simp [State.allocFail, htn]
      · simp [State.allocFail, htn]
      · simp [State.allocFail, hj]
  | publish c i np hc hk =>
    have hnp : ¬ Worker s np := Worker.not_built h.wf hk rfl ⟨by simp, by simp, by simp⟩
    refine h.keep hw (fun j => ?_) rfl rfl rfl fun t ht => ?_
    · by_cases hj : j = np
      · subst hj; simp
      · simp [hj]
    · have htn : t ≠ np := by rintro rfl; exact hnp ht
      refine ht.other h.wf hc (by rw [hk]; rfl) htn ?_ ?_ fun j hj hjn => ?_
      · simp [htn]
      · simp [htn]
      · simp [hj, hjn]
  | share c i nt hc hk =>
    have hi : (s.cont i).target = some nt := by rw [hk]; rfl
    refine h.keep hw (fun j => ?_) rfl rfl rfl fun t ht => ?_
    · by_cases hj : j = nt
      · subst hj; simp
      · simp [hj]
    · by_cases htn : t = nt
      · subst htn
        exact .inl ⟨by simpa using h.wf.target i t hi, i, .inr (.inr (by simp))⟩
      · refine ht.other h.wf hc hi htn ?_ ?_ fun j hj _ => ?_
        · simp [htn]
        · simp [htn]
        · simp [hj]
  | enter c i nt hc hk =>
    have hi : (s.cont i).target = some nt := by rw [hk]; rfl
    have hni := h.wf.not_target hc hi
    refine h.keep hw (fun j => ?_) rfl rfl rfl fun t ht => ?_
    · by_cases hj : j = nt
      · subst hj; simp [hni]
      · by_cases hji : j = i
        · subst hji; simp [hj]
        · simp [hj, hji]
    · by_cases htn : t = nt
      · subst htn
        -- the thread was marked when it was built
        have hm : (s.proc t).multi_threaded = true := by
          rcases ht with ⟨-, j, hj⟩ | ⟨hr, -⟩
          · have hji : j = i := h.wf.builder j i t
              (by rcases hj with e | e | ⟨e, -⟩ <;> rw [e] <;> rfl) hi
            subst hji
            rw [hk] at hj
            rcases hj with e | e | ⟨-, e⟩
            · cases e
            · cases e
            · exact e
          · have := h.wf.target i t hi
            rw [hr] at this; cases this
        exact .inr ⟨by simp, by simp [hni], by simpa [hni] using hm⟩
      · have hti := ht.not_caller h.wf hc
        refine ht.other h.wf hc hi htn ?_ ?_ fun j hj hjn => ?_
        · simp [htn, hti]
        · simp [htn, hti]
        · simp [hj, hjn]
  | reap z hz _ hf hv =>
    obtain ⟨hne, rfl⟩ := kfree_ok hf
    obtain ⟨-, b, rfl, -⟩ := freevm_ok hv
    refine h.free (z := z) hw hne (fun ht => ht.not_zombie hz) (fun j => ?_) rfl rfl rfl
      fun t htz ht => ht.keep ?_ ?_ (fun _ _ => rfl) id
    · by_cases hj : j = z
      · subst hj; simp
      · simp [hj]
    · simp [htz]
    · simp [htz]
  | exec c i hc hk _ hv =>
    obtain ⟨-, b, rfl, -⟩ := freevm_ok hv
    refine h.keep hw (fun j => ?_) rfl rfl rfl fun t ht => ht.keep ?_ ?_ (fun _ _ => rfl) id
    · by_cases hj : j = i
      · subst hj; simp [State.setupkvm]
      · simp [State.setupkvm, hj]
    · simp [State.setupkvm, ht.not_caller h.wf hc]
    · simp [State.setupkvm, ht.not_caller h.wf hc]
  | scratch i hv =>
    obtain ⟨-, b, rfl, -⟩ := freevm_ok hv
    exact h.keep hw (fun _ => rfl) rfl rfl rfl fun t ht => ht.keep rfl rfl (fun _ _ => rfl) id

theorem stacks_boot : Stacks boot where
  wf := wf_boot
  owned := by
    have hst : boot.stack = Function.update (fun _ => none) 0 (some 1) := by
      funext j
      by_cases hj : j = 0
      · subst hj; rfl
      · simp [State.stack, boot, hj]
    rw [hst]
    have h1 : Owned (fun _ : Slot => (none : Option Nat)) 1 [] :=
      ⟨by simp, by simp, by simp, List.nodup_nil⟩
    exact h1.create 0
  pos := by decide
  own i j d hi hj := by
    have h0 : ∀ j, boot.stack j = some d → j = 0 := fun j hj => by
      by_contra hne
      simp [State.stack, boot, hne] at hj
    rw [h0 i hi, h0 j hj]
  worker d hd := by simp [boot] at hd

end

theorem Stacks.reachable {G : State → Action → Prop} {s : State} (h : Reachable G s) : Stacks s :=
  Reachable.of_moves (fun s a _ => sole_true s a) stacks_boot (fun _ _ _ _ => Stacks.move) h

/-! ## Giving threads back -/

/-- A join that returns 0 gives the slot of the thread back. -/
def Reclaims (s : State) (c : Nat) (i : Slot) (id : Int) : Prop :=
  ∃ s', s.thread_join c i id = .ok s' ∧ s'.ret i = 0 ∧
    ∀ t, Handle s i id t → (s'.proc t).state = .UNUSED ∧
      ∀ l, Ptr.slot t ∉ (s'.ARRAYQUEUE l).toList

/-- **No thread is given back**: in every state that a run reaches, no join gives
a slot back, and each kernel stack that a thread got was never passed to `kfree`
and is still that of a slot in use. -/
theorem never_reclaimed {s : State} (h : Reachable Always s) :
    (∀ c i id, ¬ Reclaims s c i id) ∧
    ∀ d ∈ s.workerStacks, s.kfreed.count d = 0 ∧
      ∃ t, s.stack t = some d ∧ (s.proc t).state ≠ .UNUSED := by
  refine ⟨fun c i id ⟨_, hj, _⟩ => (reachable_free h).thread_join id hj, fun d hd => ?_⟩
  have hs := Stacks.reachable h
  obtain ⟨t, ht, hw⟩ := hs.worker d hd
  exact ⟨List.count_eq_zero.mpr (hs.owned.live t d ht), t, ht, hw.not_unused⟩

theorem never_reclaimed_threadRun : ∃ s, exec step Always boot threadRun = some s ∧
    2 ∈ s.workerStacks ∧ ¬ Reclaims s 0 0 1 ∧ s.kfreed.count 2 = 0 := by
  obtain ⟨s, hs, hr, hp⟩ := Reach.of_any step Always boot (fun s => 2 ∈ s.workerStacks) threadRun
    (by decide +kernel)
  have h := never_reclaimed hr
  exact ⟨s, hs, hp, h.1 0 0 1, (h.2 2 hp).1⟩

/-- Init creates a thread, whose kernel stack has number 2, and joins it: the
join panics, and the stack has not been freed. -/
theorem threadRun_keeps_stack : ∃ s, exec step Always boot threadRun = some s ∧
    Reachable Always s ∧ Handle s 0 1 1 ∧ s.workerStacks = [2] ∧ s.kfreed = [] ∧
    step s (.call 0 (.thread_join 1)) = .error (.panic "sleep without lk") := by
  obtain ⟨s, hs, hr, ⟨h1, h2, h3⟩, h4⟩ := Reach.of_any step Always boot
    (fun s => ((1 ≤ (s.proc 0).num_thread ∧ (s.proc 0).thread 1 = .ok 1) ∧
      s.workerStacks = [2] ∧ s.kfreed = []) ∧
      faultsWith (step s (.call 0 (.thread_join 1))) (.panic "sleep without lk") = true)
    threadRun (by decide +kernel)
  exact ⟨s, hs, hr, ⟨by decide, h1⟩, h2, h3, faultsWith_iff.mp h4⟩

end Xv6.Threads
