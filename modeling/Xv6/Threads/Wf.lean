import Xv6.Threads.Moves

/-!
# What every run of the threads kernel keeps

A process on a CPU is `RUNNING` and on no other CPU. The slot that a `fork` or
`thread_create` in progress builds is `EMBRYO` and belongs to one builder. A slot
that is free, under construction or a zombie is inside no system call.
-/

namespace Xv6.Threads

open Lib
open Sched (NPROC Slot Level ProcState Ptr Chan int32)

structure Wf (s : State) : Prop where
  running : ∀ c i, s.cur c = some i → (s.proc i).state = .RUNNING
  once : ∀ c d i, s.cur c = some i → s.cur d = some i → c = d
  target : ∀ i np, (s.cont i).target = some np → (s.proc np).state = .EMBRYO
  builder : ∀ i j np, (s.cont i).target = some np → (s.cont j).target = some np → i = j
  idle : ∀ i, (s.proc i).state = .UNUSED ∨ (s.proc i).state = .EMBRYO ∨
    (s.proc i).state = .ZOMBIE → (s.cont i).Plain

theorem wf_boot : Wf boot where
  running _ _ h := by cases h
  once _ _ _ h := by cases h
  target i np h := by
    by_cases hi : i = 0
    · subst hi; simp [boot, Cont.target] at h
    · simp [boot, hi, Cont.target] at h
  builder i j np h := by
    by_cases hi : i = 0
    · subst hi; simp [boot, Cont.target] at h
    · simp [boot, hi, Cont.target] at h
  idle i h := by
    by_cases hi : i = 0
    · subst hi; simp [boot] at h
    · simp [boot, hi, Cont.Plain, Cont.target]

@[simp] theorem Cont.target_enqueued {t : Bool} {np : Slot} :
    Cont.target (if t then .threadShare np else .forkCopy np) = some np := by
  cases t <;> rfl

section
variable {ok : Proc → Prop} {K R : Slot → Prop} {s s' : State}

theorem Wf.quiet (h : Wf s) (q : Quiet K s s') : Wf s' where
  running c i hc := by
    have h1 := h.running c i (q.cur ▸ hc)
    rcases (q.proc i).state with e | e
    · rw [e, h1]
    · rw [h1] at e; cases e.1
  once c d i hc hd := h.once c d i (q.cur ▸ hc) (q.cur ▸ hd)
  target i np hi := by
    rcases q.cont i with e | e
    · have h1 := h.target i np (e ▸ hi)
      rcases (q.proc np).state with e | e
      · rw [e, h1]
      · rw [h1] at e; cases e.1
    · rw [e.2.2] at hi; cases hi
  builder i j np hi hj := by
    rcases q.cont i with e | e
    · rcases q.cont j with e' | e'
      · exact h.builder i j np (e ▸ hi) (e' ▸ hj)
      · rw [e'.2.2] at hj; cases hj
    · rw [e.2.2] at hi; cases hi
  idle i hi := by
    have hp : (s.proc i).state = .UNUSED ∨ (s.proc i).state = .EMBRYO ∨
        (s.proc i).state = .ZOMBIE := by
      rcases (q.proc i).state with e | e
      · rwa [e] at hi
      · rw [e.2] at hi; rcases hi with hi | hi | hi <;> cases hi
    exact q.plain (h.idle i hp)

/-- The caller of a system call is none of the slots under construction. -/
theorem Wf.not_target (h : Wf s) {c : Nat} {i j np : Slot} (hc : s.cur c = some i)
    (hj : (s.cont j).target = some np) : np ≠ i := by
  rintro rfl
  have h1 := h.target j np hj
  rw [h.running c np hc] at h1
  cases h1

/-- The caller `i` changes the state of the slot `np` it builds, or begins or ends
to build, and moves on to `k`. -/
theorem Wf.build (h : Wf s) {c : Nat} {i : Slot} (np : Slot) (st : ProcState) {k : Cont}
    (hc : s.cur c = some i) (hnp : (s.proc np).state = .UNUSED ∨ (s.proc np).state = .EMBRYO)
    (hmine : ∀ j, (s.cont j).target = some np → j = i)
    (hk : k.target = none ∨ k.target = some np ∧ st = .EMBRYO)
    (hst : st = .UNUSED ∨ st = .EMBRYO ∨ st = .RUNNABLE) (hcur : s'.cur = s.cur)
    (hproc : ∀ j, (s'.proc j).state = if j = np then st else (s.proc j).state)
    (hcont : ∀ j, s'.cont j = if j = i then k
      else if j = np ∧ st = .RUNNABLE then .forkret else s.cont j) : Wf s' := by
  have hrun := h.running c i hc
  have hne : np ≠ i := by rintro rfl; rw [hrun] at hnp; rcases hnp with h | h <;> cases h
  constructor
  · intro d j hd
    rw [hcur] at hd
    have hj := h.running d j hd
    have hjn : j ≠ np := by rintro rfl; rw [hj] at hnp; rcases hnp with h | h <;> cases h
    rw [hproc, if_neg hjn, hj]
  · rw [hcur]; exact h.once
  · intro j m hm
    rw [hcont] at hm
    by_cases hji : j = i
    · rw [if_pos hji] at hm
      rcases hk with hk | ⟨hk, he⟩
      · rw [hk] at hm; cases hm
      · rw [hk] at hm; cases hm; rw [hproc, if_pos rfl, he]
    · rw [if_neg hji] at hm
      split at hm
      · cases hm
      · have hmn : m ≠ np := by rintro rfl; exact hji (hmine j hm)
        rw [hproc, if_neg hmn]; exact h.target j m hm
  · intro j j' m hm hm'
    have hb := h.builder j j' m
    have h1 := hmine j; have h2 := hmine j'
    rw [hcont] at hm hm'
    grind [Cont.target]
  · intro j hj
    rw [hproc] at hj
    have hji : j ≠ i := by rintro rfl; rw [if_neg hne.symm, hrun] at hj; simp at hj
    rw [hcont, if_neg hji]
    by_cases hjn : j = np
    · subst hjn
      rw [if_pos rfl] at hj
      rw [if_neg (by rintro ⟨-, rfl⟩; simp at hj)]
      exact h.idle j (hnp.elim .inl fun e => .inr (.inl e))
    · rw [if_neg (by simp [hjn])]
      exact h.idle j (by rwa [if_neg hjn] at hj)

/-- A step of the builder of `np` before the last: the state stays `EMBRYO`. -/
theorem Wf.building (h : Wf s) {c : Nat} {i np : Slot} {k : Cont} (hc : s.cur c = some i)
    (hi : (s.cont i).target = some np) (hk : k.target = some np) (hcur : s'.cur = s.cur)
    (hproc : ∀ j, (s'.proc j).state = (s.proc j).state)
    (hcont : s'.cont = Function.update s.cont i k) : Wf s' := by
  have hnp := h.target i np hi
  refine h.build np .EMBRYO (k := k) hc (.inr hnp) (fun j hj => h.builder j i np hj hi)
    (.inr ⟨hk, rfl⟩) (.inr (.inl rfl)) hcur (fun j => ?_) (fun j => ?_)
  · rw [hproc]
    by_cases hj : j = np
    · rw [if_pos hj, hj, hnp]
    · rw [if_neg hj]
  · rw [hcont, Function.update_apply]; simp

/-- The last step of the builder of `np`. -/
theorem Wf.built (h : Wf s) {c : Nat} {i np : Slot} (st : ProcState) (hc : s.cur c = some i)
    (hi : (s.cont i).target = some np) (hst : st = .UNUSED ∨ st = .RUNNABLE) (hcur : s'.cur = s.cur)
    (hproc : ∀ j, (s'.proc j).state = if j = np then st else (s.proc j).state)
    (hcont : ∀ j, s'.cont j = if j = i then .user
      else if j = np ∧ st = .RUNNABLE then .forkret else s.cont j) : Wf s' :=
  h.build np st hc (.inr (h.target i np hi)) (fun j hj => h.builder j i np hj hi) (.inl rfl)
    (hst.imp_right .inr) hcur hproc hcont

/-- The process on CPU `c` leaves it, in state `st`. -/
theorem Wf.off (h : Wf s) {c : Nat} {i : Slot} {st : ProcState} (hc : s.cur c = some i)
    (hst : st = .RUNNABLE ∨ st = .SLEEPING ∨ st = .ZOMBIE ∧ (s.cont i).Plain) :
    Wf ((s.set i fun p => { p with state := st }).setCur c none) where
  running d j hd := by
    have hdc : d ≠ c := by rintro rfl; simp at hd
    have hd' : s.cur d = some j := by simpa [hdc] using hd
    have hji : j ≠ i := by rintro rfl; exact hdc (h.once d c j hd' hc)
    simpa [hji] using h.running d j hd'
  once d d' j hd hd' := by
    have hdc : d ≠ c := by rintro rfl; simp at hd
    have hdc' : d' ≠ c := by rintro rfl; simp at hd'
    exact h.once d d' j (by simpa [hdc] using hd) (by simpa [hdc'] using hd')
  target j np hj := by
    have := h.not_target hc hj
    simpa [this] using h.target j np hj
  builder := h.builder
  idle j hj := by
    by_cases hji : j = i
    · subst hji
      rcases hst with rfl | rfl | ⟨rfl, hp⟩
      · simp at hj
      · simp at hj
      · exact hp
    · exact h.idle j (by simpa [hji] using hj)

/-- An idle CPU takes a runnable process. -/
theorem Wf.run (h : Wf s) {c : Nat} {i : Slot} {k : Cont} (hc : s.cur c = none)
    (hi : (s.proc i).state = .RUNNABLE)
    (hk : k = s.cont i ∨ k.target = none ∧ (s.cont i).target = none) :
    Wf (((s.set i fun p => { p with state := .RUNNING }).setCont i k).setCur c (some i)) where
  running d j hd := by
    by_cases hji : j = i
    · subst hji; simp
    · have hdc : d ≠ c := by rintro rfl; simp at hd; exact hji hd.symm
      simpa [hji] using h.running d j (by simpa [hdc] using hd)
  once d d' j hd hd' := by
    have hj : ∀ e, e ≠ c → Function.update s.cur c (some i) e = some j → j ≠ i := fun e hec he => by
      rintro rfl
      have := h.running e j (by simpa [hec] using he)
      rw [hi] at this; cases this
    by_cases hdc : d = c <;> by_cases hdc' : d' = c
    · rw [hdc, hdc']
    · subst hdc
      exact absurd (by simpa using hd.symm) (hj d' hdc' hd')
    · subst hdc'
      exact absurd (by simpa using hd'.symm) (hj d hdc hd)
    · exact h.once d d' j (by simpa [hdc] using hd) (by simpa [hdc'] using hd')
  target j np hj := by
    have hold : (s.cont j).target = some np := by
      by_cases hji : j = i
      · subst hji
        rcases hk with rfl | ⟨hk, -⟩
        · simpa using hj
        · simp [hk] at hj
      · simpa [hji] using hj
    have he := h.target j np hold
    have hni : np ≠ i := by rintro rfl; rw [hi] at he; cases he
    simpa [hni] using he
  builder j j' np hj hj' := by
    have hold : ∀ j, (Function.update s.cont i k j).target = some np → (s.cont j).target = some np :=
      fun j hj => by
        by_cases hji : j = i
        · subst hji
          rcases hk with rfl | ⟨hk, -⟩
          · simpa using hj
          · simp [hk] at hj
        · simpa [hji] using hj
    exact h.builder j j' np (hold j hj) (hold j' hj')
  idle j hj := by
    have hji : j ≠ i := by rintro rfl; simp at hj
    simpa [hji] using h.idle j (by simpa [hji] using hj)

/-- A zombie is freed, or nothing but memory changes. -/
theorem Wf.freed (h : Wf s) (hcur : s'.cur = s.cur) (hcont : s'.cont = s.cont)
    (hproc : ∀ j, (s'.proc j).state = (s.proc j).state ∨
      (s.proc j).state = .ZOMBIE ∧ (s'.proc j).state = .UNUSED) : Wf s' where
  running c j hc := by
    have hr := h.running c j (hcur ▸ hc)
    rcases hproc j with e | e
    · rw [e, hr]
    · rw [hr] at e; cases e.1
  once := by rw [hcur]; exact h.once
  target j np hj := by
    have he := h.target j np (hcont ▸ hj)
    rcases hproc np with e | e
    · rw [e, he]
    · rw [he] at e; cases e.1
  builder := by rw [hcont]; exact h.builder
  idle j hj := by
    rw [hcont]
    rcases hproc j with e | e
    · exact h.idle j (by rwa [e] at hj)
    · exact h.idle j (.inr (.inr e.1))

/-- **Step lemma**: every move keeps `Wf`. -/
theorem Wf.move (h : Wf s) (m : Move ok K R s s') : Wf s' := by
  cases m with
  | quiet q => exact h.quiet q
  | run c i k hc _ hs hw hk => exact h.run hc hs (hk.imp (·.1) fun ⟨e, ht⟩ => ⟨e ▸ rfl, ht⟩)
  | leave c i st hc hst => exact h.off hc (hst.imp_right .inl)
  | alloc c i np t hc hk hu =>
    refine h.build np .EMBRYO (k := .allocStack t np) hc (.inl hu) (fun j hj => ?_)
      (.inr ⟨rfl, rfl⟩) (.inr (.inl rfl)) rfl (fun j => ?_) (fun j => ?_)
    · have := h.target j np hj; rw [hu] at this; cases this
    · simp [Function.update_apply, apply_ite Proc.state]
    · simp [Function.update_apply]
  | stack c i np t hc hk =>
    refine h.building hc (by rw [hk]; rfl) (k := .allocEnqueue t np) rfl rfl (fun j => ?_) rfl
    by_cases hj : j = np
    · subst hj; simp [State.allocInit]
    · simp [State.allocInit, hj]
  | noStack c i np t hc hk =>
    refine h.built .UNUSED hc (by rw [hk]; rfl) (.inl rfl) rfl (fun j => ?_) fun j => ?_
    · simp [State.allocFail, Function.update_apply, apply_ite Proc.state]
    · simp [State.allocFail, Function.update_apply]
  | enqueue c i np t hc hk =>
    exact h.building hc (by rw [hk]; rfl) (by simp) rfl (fun _ => rfl) rfl
  | copy c i np hc hk =>
    refine h.building hc (by rw [hk]; rfl) (k := .forkPublish np) rfl rfl (fun j => ?_) rfl
    by_cases hj : j = np
    · subst hj; simp [State.setupkvm]
    · simp [State.setupkvm, hj]
  | noCopy c i np hc hk hf =>
    obtain ⟨-, rfl⟩ := kfree_ok hf
    refine h.built .UNUSED hc (by rw [hk]; rfl) (.inl rfl) rfl (fun j => ?_) fun j => ?_
    · by_cases hj : j = np
      · subst hj; simp [State.allocFail]
      · simp [State.allocFail, hj]
    · simp [State.allocFail, Function.update_apply]
  | publish c i np hc hk =>
    refine h.built .RUNNABLE hc (by rw [hk]; rfl) (.inr rfl) rfl (fun j => ?_) fun j => ?_
    · simp [Function.update_apply, apply_ite Proc.state]
    · simp [Function.update_apply]
  | share c i nt hc hk =>
    refine h.building hc (by rw [hk]; rfl) (k := .threadPublish nt) rfl rfl (fun j => ?_) rfl
    by_cases hj : j = nt
    · subst hj; simp
    · simp [hj]
  | enter c i nt hc hk =>
    refine h.built .RUNNABLE hc (by rw [hk]; rfl) (.inr rfl) rfl (fun j => ?_) fun j => ?_
    · by_cases hj : j = nt
      · subst hj; simp
      · by_cases hji : j = i
        · subst hji; simp [hj]
        · simp [hj, hji]
    · simp [Function.update_apply]
  | exit c i hc hk => exact h.off hc (.inr (.inr ⟨rfl, hk⟩))
  | reap z hz _ hf hv =>
    obtain ⟨-, rfl⟩ := kfree_ok hf
    obtain ⟨-, b, rfl, -⟩ := freevm_ok hv
    refine h.freed rfl rfl fun j => ?_
    by_cases hj : j = z
    · subst hj; exact .inr ⟨hz, by simp⟩
    · exact .inl (by simp [hj])
  | exec c i hc hk _ hv =>
    obtain ⟨-, b, rfl, -⟩ := freevm_ok hv
    refine h.freed rfl rfl fun j => .inl ?_
    by_cases hj : j = i
    · subst hj; simp [State.setupkvm]
    · simp [State.setupkvm, hj]
  | scratch i hv =>
    obtain ⟨-, b, rfl, -⟩ := freevm_ok hv
    exact h.freed rfl rfl fun _ => .inl rfl

theorem Wf.moves (h : Wf s) (m : Moves ok K R s s') : Wf s' := by
  induction m with
  | refl => exact h
  | tail _ m ih => exact ih.move m

end

theorem Wf.reachable {G : State → Action → Prop} {s : State} (h : Reachable G s) : Wf s :=
  Reachable.of_moves (fun s a _ => sole_true s a) wf_boot (fun _ _ _ _ => Wf.move) h

end Xv6.Threads
