import Xv6.Lib.Owned
import Xv6.Threads.Wf

/-!
# Who owns a page directory

Threads share the page directory of their master, and nothing counts the
sharers. As long as `exec` is called and `wait` reaps only processes that never
created a thread, `freevm` is never called on a page directory that another slot
still uses, nor twice on one.
-/

namespace Xv6.Threads

open Lib
open Sched (NPROC Slot Level ProcState Ptr Chan int32)

/-- `exec` by, and `wait` for, single-threaded processes only. -/
def Single : State → Action → Prop := Sole fun p => p.multi_threaded = false

instance (s : State) (a : Action) : Decidable (Single s a) :=
  match a with
  | .schedule _ i => inferInstanceAs (Decidable (s.cont i = .waiting → ∀ z ∈ s.zombie i, _))
  | .call c (.exec .ok) => inferInstanceAs (Decidable (∀ i ∈ s.cur c, _))
  | .call c .wait => inferInstanceAs (Decidable (∀ i ∈ s.cur c, ∀ z ∈ s.zombie i, _))
  | .timer .. | .wakeup .. | .call _ (.exec .noDir) | .call _ (.exec .noMem) |
    .call _ (.exec .noCopy) | .call _ .fork | .call _ .thread_create | .call _ (.kalloc _) |
    .call _ .allocEnqueue | .call _ (.forkCopy _) | .call _ .forkPublish |
    .call _ (.threadShare _) | .call _ .threadPublish | .call _ .exit | .call _ (.kill _) |
    .call _ .sysYield | .call _ .yield | .call _ (.set_cpu_share _ _) | .call _ (.sleep _) |
    .call _ (.thread_exit _) | .call _ (.thread_join _) => isTrue trivial

/-- The slot has got its page directory. -/
def Settled (s : State) (i : Slot) : Prop :=
  (s.proc i).state ≠ .UNUSED ∧ (s.proc i).state ≠ .EMBRYO ∨
    ∃ j, s.cont j = .forkPublish i ∨ s.cont j = .threadPublish i

instance (s : State) (i : Slot) : Decidable (Settled s i) := inferInstanceAs (Decidable (_ ∨ _))

/-- The slot has threads, is one, or is creating its first. -/
def Sharing (s : State) (i : Slot) : Prop :=
  (s.proc i).multi_threaded = true ∨ ∃ nt, s.cont i = .threadPublish nt

/-- The page directory of a slot. -/
def State.dir (s : State) (i : Slot) : Option Nat :=
  if Settled s i then some (s.proc i).pgdir else none

/-- The page directories that were freed. -/
def State.freedDirs (s : State) : List Nat := s.freed.map Freed.dir

structure Dirs (s : State) : Prop where
  wf : Wf s
  owned : Owned s.dir s.nextDir s.freedDirs
  stale : ∀ i, ¬ Settled s i → (s.proc i).pgdir = 0 ∨ (s.proc i).pgdir ∈ s.freedDirs
  pos : ∀ i, Settled s i → (s.proc i).pgdir ≠ 0
  next : 0 < s.nextDir
  shared : ∀ i j, i ≠ j → Settled s i → Settled s j → (s.proc i).pgdir = (s.proc j).pgdir →
    Sharing s i
  sole : ∀ f ∈ s.freed, f.shared = false

section
variable {K R : Slot → Prop} {s s' : State}

theorem Settled.of_running {i : Slot} (h : (s.proc i).state = .RUNNING) : Settled s i :=
  .inl (by rw [h]; decide)

theorem Settled.of_zombie {i : Slot} (h : (s.proc i).state = .ZOMBIE) : Settled s i :=
  .inl (by rw [h]; decide)

/-- A slot that a builder has not given its page directory. -/
theorem Wf.not_settled (h : Wf s) (i np : Slot) {k : Cont} (hi : s.cont i = k)
    (hk : k.target = some np) (hn : k ≠ .forkPublish np ∧ k ≠ .threadPublish np) :
    ¬ Settled s np := by
  rintro (⟨-, he⟩ | ⟨j, hj⟩)
  · exact he (h.target i np (by rw [hi, hk]))
  · have hij : i = j := h.builder i j np (by rw [hi, hk]) (by rcases hj with e | e <;> rw [e] <;> rfl)
    subst hij
    rw [hi] at hj
    exact hj.elim hn.1 hn.2

theorem Wf.not_settled_unused (h : Wf s) (np : Slot) (hu : (s.proc np).state = .UNUSED) :
    ¬ Settled s np := by
  rintro (⟨hn, -⟩ | ⟨j, hj⟩)
  · exact hn hu
  · have := h.target j np (by rcases hj with e | e <;> rw [e] <;> rfl)
    rw [hu] at this; cases this

theorem dir_congr (hs : ∀ i, Settled s' i ↔ Settled s i)
    (hp : ∀ i, Settled s i → (s'.proc i).pgdir = (s.proc i).pgdir) : s'.dir = s.dir := by
  funext i
  by_cases hi : Settled s i
  · simp [State.dir, hs, hi, hp i hi]
  · simp [State.dir, hs, hi]

/-- A move after which each slot has the page directory it had. -/
theorem Dirs.keep (h : Dirs s) (hw : Wf s') (hs : ∀ i, Settled s' i ↔ Settled s i)
    (hp : ∀ i, Settled s i → (s'.proc i).pgdir = (s.proc i).pgdir)
    (hst : ∀ i, ¬ Settled s i → (s'.proc i).pgdir = (s.proc i).pgdir ∨ (s'.proc i).pgdir = 0)
    (hsh : ∀ i, Settled s i → Sharing s i → Sharing s' i) (hn : s'.nextDir = s.nextDir)
    (hf : s'.freed = s.freed) : Dirs s' where
  wf := hw
  owned := by rw [dir_congr hs hp, hn, State.freedDirs, hf]; exact h.owned
  stale i hi := by
    rw [hs] at hi
    rcases hst i hi with e | e
    · rw [e, State.freedDirs, hf]; exact h.stale i hi
    · exact .inl e
  pos i hi := by
    rw [hs] at hi
    rw [hp i hi]; exact h.pos i hi
  next := hn ▸ h.next
  shared i j hij hi hj he := by
    rw [hs] at hi hj
    rw [hp i hi, hp j hj] at he
    exact hsh i hi (h.shared i j hij hi hj he)
  sole := by rw [hf]; exact h.sole

/-- No other slot in use has the page directory of a slot that does not share. -/
theorem Dirs.alone (h : Dirs s) {i j : Slot} (hi : Settled s i) (hn : ¬ Sharing s i) (hj : j ≠ i) :
    (s.proc j).pgdir ≠ (s.proc i).pgdir := by
  intro he
  by_cases hs : Settled s j
  · exact hn (h.shared i j hj.symm hi hs he.symm)
  · have hd : s.dir i = some (s.proc i).pgdir := if_pos hi
    rcases h.stale j hs with e | e
    · exact h.pos i hi (he ▸ e)
    · exact h.owned.live i _ hd (he ▸ e)

/-- No slot has the next page directory. -/
theorem Dirs.fresh (h : Dirs s) (i : Slot) : (s.proc i).pgdir ≠ s.nextDir := by
  intro he
  by_cases hs : Settled s i
  · have := h.owned.lt i _ (if_pos hs)
    omega
  · have := h.next
    rcases h.stale i hs with e | e
    · omega
    · have := h.owned.freed_lt _ e
      omega

theorem not_sharing {i : Slot} (hm : (s.proc i).multi_threaded = false) (hk : (s.cont i).Plain) :
    ¬ Sharing s i := by
  rintro (h | ⟨nt, h⟩)
  · rw [hm] at h; cases h
  · rw [h] at hk; cases hk.2

/-- A freed entry that no other slot has. -/
theorem sole_append {f : Freed} (h : ∀ f ∈ s.freed, f.shared = false) (hf : ¬ f.shared = true) :
    ∀ g ∈ s.freed ++ [f], g.shared = false := by
  intro g hg
  rcases List.mem_append.mp hg with hg | hg
  · exact h g hg
  · rw [List.mem_singleton.mp hg]; simpa using hf

/-- A slot under construction stands at no point of a system call. -/
theorem Wf.target_plain (h : Wf s) {i np : Slot} (hi : (s.cont i).target = some np) :
    (s.cont np).Plain := h.idle np (.inr (.inl (h.target i np hi)))

/-- The builder of `np` moves on to `k`: the other slots are settled as before. -/
theorem settled_other (h : Wf s) {c : Nat} {i np : Slot} {k : Cont} (hc : s.cur c = some i)
    (hi : (s.cont i).target = some np) (hk : k.target = some np ∨ k.target = none)
    (hst : ∀ j, j ≠ np → (s'.proc j).state = (s.proc j).state)
    (hcont : ∀ j, j ≠ np → s'.cont j = if j = i then k else s.cont j)
    (hnp : (s'.cont np).target = none) {j : Slot} (hj : j ≠ np) : Settled s' j ↔ Settled s j := by
  simp only [Settled, hst j hj]
  refine or_congr .rfl (exists_congr fun m => ?_)
  by_cases hmn : m = np
  · subst hmn
    have hp := (h.target_plain hi).2
    constructor
    · rintro (e | e) <;> rw [e] at hnp <;> cases hnp
    · rintro (e | e) <;> rw [e] at hp <;> cases hp
  · rw [hcont m hmn]
    by_cases hmi : m = i
    · subst hmi
      rw [if_pos rfl]
      constructor
      · rintro (e | e) <;> rw [e] at hk <;> simp only [Cont.target, Option.some.injEq, reduceCtorEq,
          or_false] at hk <;> exact absurd hk hj
      · rintro (e | e) <;> rw [e] at hi <;> cases hi <;> exact absurd rfl hj
    · rw [if_neg hmi]

/-- A state after which `np` is not settled, as before. -/
theorem settled_iff {np : Slot} (hn : ¬ Settled s np) (hn' : ¬ Settled s' np)
    (ho : ∀ j, j ≠ np → (Settled s' j ↔ Settled s j)) (j : Slot) : Settled s' j ↔ Settled s j := by
  by_cases hj : j = np
  · subst hj; exact iff_of_false hn' hn
  · exact ho j hj

/-- A move that gives `np` a new page directory. -/
theorem Dirs.settle (h : Dirs s) (hw : Wf s') (np : Slot)
    (hs : ∀ j, j ≠ np → (Settled s' j ↔ Settled s j)) (hnp : Settled s' np)
    (hd : (s'.proc np).pgdir = s.nextDir)
    (hp : ∀ j, j ≠ np → (s'.proc j).pgdir = (s.proc j).pgdir)
    (hsh : ∀ j, j ≠ np → Settled s j → Sharing s j → Sharing s' j)
    (hn : s'.nextDir = s.nextDir + 1) (hf : s'.freed = s.freed) : Dirs s' := by
  have hdir : s'.dir = Function.update s.dir np (some s.nextDir) := by
    funext j
    by_cases hj : j = np
    · subst hj; rw [State.dir, if_pos hnp, hd]; simp
    · simp [State.dir, hs j hj, hj, hp j hj]
  refine ⟨hw, ?_, fun j hj => ?_, fun j hj => ?_, hn ▸ Nat.succ_pos _, fun j j' hjj hj hj' he => ?_,
    hf ▸ h.sole⟩
  · rw [hdir, hn, State.freedDirs, hf]; exact h.owned.create np
  · have hjn : j ≠ np := by rintro rfl; exact hj hnp
    rw [hp j hjn, State.freedDirs, hf]
    exact h.stale j fun hjs => hj ((hs j hjn).mpr hjs)
  · by_cases hjn : j = np
    · subst hjn; rw [hd]; exact Nat.ne_of_gt h.next
    · rw [hp j hjn]; exact h.pos j ((hs j hjn).mp hj)
  · have hjn : j ≠ np := by
      rintro rfl
      rw [hd, hp j' hjj.symm] at he
      exact h.fresh j' he.symm
    have hjn' : j' ≠ np := by
      rintro rfl
      rw [hd, hp j hjj] at he
      exact h.fresh j he
    rw [hp j hjn, hp j' hjn'] at he
    exact hsh j hjn ((hs j hjn).mp hj) (h.shared j j' hjj ((hs j hjn).mp hj) ((hs j' hjn').mp hj') he)

/-- A move that frees the page directory of `z`, which nobody shares. -/
theorem Dirs.release (h : Dirs s) (hw : Wf s') {z : Slot} {b : Bool} (hz : Settled s z)
    (hs : ∀ j, j ≠ z → (Settled s' j ↔ Settled s j)) (hnz : ¬ Settled s' z)
    (hp : ∀ j, (s'.proc j).pgdir = (s.proc j).pgdir)
    (hm : ∀ j, (s'.proc j).multi_threaded = (s.proc j).multi_threaded)
    (hc : ∀ j, s'.cont j = s.cont j) (halone : ∀ j, j ≠ z → (s.proc j).pgdir ≠ (s.proc z).pgdir)
    (hn : s'.nextDir = s.nextDir) (hf : s'.freed = s.freed ++ [⟨(s.proc z).pgdir, b⟩])
    (hb : ¬ b = true) : Dirs s' := by
  have hdir : s'.dir = Function.update s.dir z none := by
    funext j
    by_cases hj : j = z
    · subst hj; simp [State.dir, hnz]
    · simp [State.dir, hs j hj, hj, hp j]
  have hfd : s'.freedDirs = s.freedDirs ++ [(s.proc z).pgdir] := by simp [State.freedDirs, hf]
  have hne : ∀ j, Settled s' j → j ≠ z := by rintro j hj rfl; exact hnz hj
  refine ⟨hw, ?_, fun j hj => ?_, fun j hj => ?_, hn ▸ h.next, fun j j' hjj hj hj' he => ?_,
    hf ▸ sole_append h.sole hb⟩
  · rw [hdir, hn, hfd]
    have hd : s.dir z = some (s.proc z).pgdir := if_pos hz
    refine h.owned.free hd fun j hj hjd => ?_
    simp only [State.dir] at hjd
    split at hjd
    · exact halone j hj (Option.some.inj hjd)
    · cases hjd
  · rw [hp, hfd, List.mem_append, List.mem_singleton]
    by_cases hjz : j = z
    · subst hjz; exact .inr (.inr rfl)
    · exact (h.stale j fun hjs => hj ((hs j hjz).mpr hjs)).imp_right .inl
  · rw [hp]; exact h.pos j ((hs j (hne j hj)).mp hj)
  · rw [hp, hp] at he
    have := h.shared j j' hjj ((hs j (hne j hj)).mp hj) ((hs j' (hne j' hj')).mp hj') he
    simpa only [Sharing, hm, hc] using this

/-- A move that gives `i` a new page directory and frees the old one, which nobody
shares. -/
theorem Dirs.replace (h : Dirs s) (hw : Wf s') {i : Slot} {b : Bool} (hi : Settled s i)
    (hs : ∀ j, Settled s' j ↔ Settled s j) (hd : (s'.proc i).pgdir = s.nextDir)
    (hp : ∀ j, j ≠ i → (s'.proc j).pgdir = (s.proc j).pgdir)
    (hm : ∀ j, (s'.proc j).multi_threaded = (s.proc j).multi_threaded)
    (hc : ∀ j, s'.cont j = s.cont j) (halone : ∀ j, j ≠ i → (s.proc j).pgdir ≠ (s.proc i).pgdir)
    (hn : s'.nextDir = s.nextDir + 1) (hf : s'.freed = s.freed ++ [⟨(s.proc i).pgdir, b⟩])
    (hb : ¬ b = true) : Dirs s' := by
  have hdir : s'.dir = Function.update (Function.update s.dir i none) i (some s.nextDir) := by
    funext j
    by_cases hj : j = i
    · subst hj; rw [State.dir, if_pos ((hs j).mpr hi), hd]; simp
    · simp [State.dir, hs j, hj, hp j hj]
  have hfd : s'.freedDirs = s.freedDirs ++ [(s.proc i).pgdir] := by simp [State.freedDirs, hf]
  refine ⟨hw, ?_, fun j hj => ?_, fun j hj => ?_, hn ▸ Nat.succ_pos _, fun j j' hjj hj hj' he => ?_,
    hf ▸ sole_append h.sole hb⟩
  · rw [hdir, hn, hfd]
    have hd : s.dir i = some (s.proc i).pgdir := if_pos hi
    refine (h.owned.free hd fun j hj hjd => ?_).create i
    simp only [State.dir] at hjd
    split at hjd
    · exact halone j hj (Option.some.inj hjd)
    · cases hjd
  · have hji : j ≠ i := by rintro rfl; exact hj ((hs j).mpr hi)
    rw [hp j hji, hfd, List.mem_append]
    exact (h.stale j fun hjs => hj ((hs j).mpr hjs)).imp_right .inl
  · by_cases hji : j = i
    · subst hji; rw [hd]; exact Nat.ne_of_gt h.next
    · rw [hp j hji]; exact h.pos j ((hs j).mp hj)
  · have hji : j ≠ i := by
      rintro rfl; rw [hd, hp j' hjj.symm] at he; exact h.fresh j' he.symm
    have hji' : j' ≠ i := by
      rintro rfl; rw [hd, hp j hjj] at he; exact h.fresh j he
    rw [hp j hji, hp j' hji'] at he
    have := h.shared j j' hjj ((hs j).mp hj) ((hs j').mp hj') he
    simpa only [Sharing, hm, hc] using this

/-- **Step lemma**: a move that replaces and reaps only single-threaded processes
keeps the owners of the page directories. -/
theorem Dirs.move (h : Dirs s) (m : Move (fun p => p.multi_threaded = false) K R s s') : Dirs s' := by
  have hw := h.wf.move m
  cases m with
  | quiet q =>
    have hs : ∀ i, Settled s' i ↔ Settled s i := fun i => by
      refine or_congr ?_ (exists_congr fun j => ?_)
      · rcases (q.proc i).state with e | ⟨e, e'⟩
        · rw [e]
        · rw [e, e']; decide
      · rcases q.cont j with e | ⟨e, e'⟩
        · rw [e]
        · constructor <;> rintro (h | h)
          · rw [h] at e'; cases e'.2
          · rw [h] at e'; cases e'.2
          · rw [h] at e; cases e.2
          · rw [h] at e; cases e.2
    refine h.keep hw hs (fun i _ => (q.proc i).pgdir) (fun i _ => .inl (q.proc i).pgdir) ?_
      q.nextDir q.freed
    rintro i - (hm | ⟨nt, hk⟩)
    · exact .inl ((q.proc i).multi.trans hm)
    · exact .inr ⟨nt, (q.cont_eq (by rw [hk]; exact fun hp => by cases hp.2)).trans hk⟩
  | run c i k hc hR hst hn hk =>
    have hrun : Settled s i := .inl (by rw [hst]; decide)
    have hcont : ∀ j nt, (Function.update s.cont i k j = .threadPublish nt ↔
        s.cont j = .threadPublish nt) ∧ (Function.update s.cont i k j = .forkPublish nt ↔
        s.cont j = .forkPublish nt) := fun j nt => by
      by_cases hj : j = i
      · subst hj
        rcases hk with ⟨rfl, -⟩ | ⟨rfl, hn⟩
        · simp
        · simp only [Function.update_self, reduceCtorEq, false_iff]
          constructor <;> intro e <;> rw [e] at hn <;> cases hn
      · simp [hj]
    refine h.keep hw (fun j => ?_) (fun j _ => by simp [update_keep Proc.pgdir])
      (fun j _ => .inl (by simp [update_keep Proc.pgdir])) ?_ rfl rfl
    · by_cases hj : j = i
      · subst hj; exact iff_of_true (.inl (by simp)) hrun
      · simp [Settled, hj, hcont]
    · rintro j - (hm | ⟨nt, hk⟩)
      · exact .inl (by simpa [update_keep Proc.multi_threaded] using hm)
      · exact .inr ⟨nt, (hcont j nt).1.mpr hk⟩
  | leave c i st hc hst | exit c i hc hst =>
    have hrun := Settled.of_running (h.wf.running c i hc)
    refine h.keep hw (fun j => ?_) (fun j _ => by simp [update_keep Proc.pgdir])
      (fun j _ => .inl (by simp [update_keep Proc.pgdir])) ?_ rfl rfl
    · by_cases hj : j = i
      · subst hj
        refine iff_of_true (.inl ?_) hrun
        first | (rcases hst with rfl | rfl <;> simp) | simp
      · simp [Settled, hj]
    · rintro j - (hm | hk)
      · exact .inl (by simpa [update_keep Proc.multi_threaded] using hm)
      · exact .inr hk
  | alloc c i np t hc hp hu =>
    have hn := h.wf.not_settled_unused np hu
    have hcont : ∀ j, (∃ m, Function.update s.cont i (.allocStack t np) m = .forkPublish j ∨
        Function.update s.cont i (.allocStack t np) m = .threadPublish j) ↔
        ∃ m, s.cont m = .forkPublish j ∨ s.cont m = .threadPublish j := fun j =>
      exists_congr fun m => by
        by_cases hm : m = i
        · subst hm
          simp only [Function.update_self, reduceCtorEq, or_self, false_iff]
          rintro (e | e) <;> rw [e] at hp <;> cases hp.2
        · simp [hm]
    have hs : ∀ j, Settled ((s.set np fun p => { p with state := .EMBRYO }).setCont i
        (.allocStack t np)) j ↔ Settled s j := fun j => by
      by_cases hj : j = np
      · subst hj
        refine iff_of_false ?_ hn
        rintro (⟨-, he⟩ | he)
        · exact he (by simp)
        · exact hn (.inr ((hcont j).mp he))
      · simp only [Settled, State.setCont_proc, State.set_proc, Function.update_of_ne hj,
          State.setCont_cont, State.set_cont, hcont]
    refine h.keep hw hs (fun j _ => by simp [update_keep Proc.pgdir])
      (fun j _ => .inl (by simp [update_keep Proc.pgdir])) ?_ rfl rfl
    · rintro j - (hm | ⟨nt, hk⟩)
      · exact .inl (by simpa [update_keep Proc.multi_threaded] using hm)
      · have hji : j ≠ i := by rintro rfl; rw [hk] at hp; cases hp.2
        exact .inr ⟨nt, by simpa [hji] using hk⟩
  | stack c i np t hc hk =>
    have hi : (s.cont i).target = some np := by rw [hk]; rfl
    have hne := h.wf.not_target hc hi
    have hn := h.wf.not_settled i np hk rfl ⟨by simp, by simp⟩
    have hn' := hw.not_settled i np (k := .allocEnqueue t np) (by simp) rfl
      ⟨by simp, by simp⟩
    have hs := settled_iff hn hn' fun j hj => settled_other h.wf hc hi (k := .allocEnqueue t np)
      (.inl rfl) (fun j hj => by simp [State.allocInit, hj])
      (fun j _ => by simp [State.allocInit, Function.update_apply])
      (by simpa [State.allocInit, hne] using (h.wf.target_plain hi).2) hj
    have hp : ∀ j, (((s.allocInit t np).setCont i (.allocEnqueue t np)).proc j).pgdir =
        (s.proc j).pgdir := fun j => by simp [State.allocInit, update_keep Proc.pgdir]
    refine h.keep hw hs (fun j _ => hp j) (fun j _ => .inl (hp j)) ?_ rfl rfl
    rintro j hjs (hm | ⟨nt, hkj⟩)
    · have hj : j ≠ np := by rintro rfl; exact hn hjs
      exact .inl (by simpa [State.allocInit, hj] using hm)
    · have hji : j ≠ i := by rintro rfl; rw [hk] at hkj; cases hkj
      exact .inr ⟨nt, by simpa [State.allocInit, hji] using hkj⟩
  | noStack c i np t hc hk =>
    have hi : (s.cont i).target = some np := by rw [hk]; rfl
    have hne := h.wf.not_target hc hi
    have hn := h.wf.not_settled i np hk rfl ⟨by simp, by simp⟩
    have hn' := hw.not_settled_unused np (by simp [State.allocFail])
    have hs := settled_iff hn hn' fun j hj => settled_other h.wf hc hi (k := .user) (.inr rfl)
      (fun j hj => by simp [State.allocFail, hj])
      (fun j _ => by simp [State.allocFail, Function.update_apply])
      (by simpa [State.allocFail, hne] using (h.wf.target_plain hi).2) hj
    have hp : ∀ j, ((s.allocFail i np).proc j).pgdir = (s.proc j).pgdir := fun j => by
      simp [State.allocFail, update_keep Proc.pgdir]
    refine h.keep hw hs (fun j _ => hp j) (fun j _ => .inl (hp j)) ?_ rfl rfl
    rintro j - (hm | ⟨nt, hkj⟩)
    · exact .inl (by simpa [State.allocFail, update_keep Proc.multi_threaded] using hm)
    · have hji : j ≠ i := by rintro rfl; rw [hk] at hkj; cases hkj
      exact .inr ⟨nt, by simpa [State.allocFail, hji] using hkj⟩
  | enqueue c i np t hc hk =>
    have hi : (s.cont i).target = some np := by rw [hk]; rfl
    have hne := h.wf.not_target hc hi
    have hn := h.wf.not_settled i np hk rfl ⟨by simp, by simp⟩
    have hn' := hw.not_settled i np (k := if t then .threadShare np else .forkCopy np)
      (by simp) (by simp) (by cases t <;> simp)
    have hs' : ∀ j, j ≠ np →
        (Settled (s.setCont i (if t then .threadShare np else .forkCopy np)) j ↔ Settled s j) :=
      fun j hj => by
        refine settled_other h.wf hc hi (k := if t then .threadShare np else .forkCopy np)
          (.inl (by simp)) ?_ (fun j _ => ?_) ?_ hj
        · exact fun _ _ => rfl
        · simp [Function.update_apply]
        · simpa [hne] using (h.wf.target_plain hi).2
    have hs := settled_iff hn hn' hs'
    refine h.keep hw hs (fun _ _ => rfl) (fun _ _ => .inl rfl) ?_ rfl rfl
    rintro j - (hm | ⟨nt, hkj⟩)
    · exact .inl hm
    · have hji : j ≠ i := by rintro rfl; rw [hk] at hkj; cases hkj
      exact .inr ⟨nt, by simpa [hji] using hkj⟩
  | copy c i np hc hk =>
    have hi : (s.cont i).target = some np := by rw [hk]; rfl
    have hne := h.wf.not_target hc hi
    have hn := h.wf.not_settled i np hk rfl ⟨by simp, by simp⟩
    refine h.settle hw np (fun j hj => settled_other h.wf hc hi (k := .forkPublish np)
      (.inl rfl) (fun j hj => by simp [State.setupkvm, hj])
      (fun j _ => by simp [State.setupkvm, Function.update_apply])
      (by simpa [State.setupkvm, hne] using (h.wf.target_plain hi).2) hj)
      (.inr ⟨i, .inl (by simp)⟩) (by simp) (fun j hj => by simp [State.setupkvm, hj]) ?_ rfl rfl
    rintro j hj - (hm | ⟨nt, hkj⟩)
    · exact .inl (by simpa [State.setupkvm, hj] using hm)
    · have hji : j ≠ i := by rintro rfl; rw [hk] at hkj; cases hkj
      exact .inr ⟨nt, by simpa [State.setupkvm, hji] using hkj⟩
  | noCopy c i np hc hk hf =>
    obtain ⟨-, rfl⟩ := kfree_ok hf
    have hi : (s.cont i).target = some np := by rw [hk]; rfl
    have hne := h.wf.not_target hc hi
    have hn := h.wf.not_settled i np hk rfl ⟨by simp, by simp⟩
    have hn' := hw.not_settled_unused np (by simp [State.allocFail])
    have hs := settled_iff hn hn' fun j hj => settled_other h.wf hc hi (k := .user) (.inr rfl)
      (fun j hj => by simp [State.allocFail, hj])
      (fun j _ => by simp [State.allocFail, Function.update_apply])
      (by simpa [State.allocFail, hne] using (h.wf.target_plain hi).2) hj
    have hp : ∀ j, j ≠ np → (((({ s.set np fun p => { p with pgdir := 0 } with
        kfreed := s.kfreed ++ [(s.proc np).kstack] } : State)).allocFail i np).proc j).pgdir =
          (s.proc j).pgdir := fun j hj => by simp [State.allocFail, hj]
    refine h.keep hw hs (fun j hjs => hp j ?_) (fun j hjs => ?_) ?_ rfl rfl
    · rintro rfl; exact hn hjs
    · by_cases hj : j = np
      · subst hj; exact .inr (by simp [State.allocFail])
      · exact .inl (hp j hj)
    · rintro j - (hm | ⟨nt, hkj⟩)
      · exact .inl (by simpa [State.allocFail, update_keep Proc.multi_threaded] using hm)
      · have hji : j ≠ i := by rintro rfl; rw [hk] at hkj; cases hkj
        exact .inr ⟨nt, by simpa [State.allocFail, hji] using hkj⟩
  | publish c i np hc hk =>
    have hi : (s.cont i).target = some np := by rw [hk]; rfl
    have hne := h.wf.not_target hc hi
    have hnp : Settled s np := .inr ⟨i, .inl hk⟩
    have hs : ∀ j, Settled (((s.set np fun p => { p with state := .RUNNABLE }).setCont np
        .forkret).setCont i .user) j ↔ Settled s j := fun j => by
      by_cases hj : j = np
      · subst hj; exact iff_of_true (.inl (by simp)) hnp
      · exact settled_other h.wf hc hi (k := .user) (.inr rfl) (fun j hj => by simp [hj])
          (fun j hj => by simp [Function.update_apply, hj]) (by simp [hne, Cont.target]) hj
    refine h.keep hw hs (fun j _ => by simp [update_keep Proc.pgdir])
      (fun j _ => .inl (by simp [update_keep Proc.pgdir])) ?_ rfl rfl
    rintro j - (hm | ⟨nt, hkj⟩)
    · exact .inl (by simpa [update_keep Proc.multi_threaded] using hm)
    · have hji : j ≠ i := by rintro rfl; rw [hk] at hkj; cases hkj
      have hjn : j ≠ np := by
        rintro rfl; have := (h.wf.target_plain hi).2; rw [hkj] at this; cases this
      exact .inr ⟨nt, by simpa [hji, hjn] using hkj⟩
  | share c i nt hc hk =>
    have hi : (s.cont i).target = some nt := by rw [hk]; rfl
    have hne := h.wf.not_target hc hi
    have hn := h.wf.not_settled i nt hk rfl ⟨by simp, by simp⟩
    have hrun := Settled.of_running (h.wf.running c i hc)
    have hs : ∀ j, j ≠ nt → (Settled ((s.set nt fun p => { p with
        multi_threaded := true, pgdir := (s.proc i).pgdir }).setCont i (.threadPublish nt)) j ↔
        Settled s j) := fun j hj => settled_other h.wf hc hi (k := .threadPublish nt)
      (.inl rfl) (fun j hj => by simp [hj]) (fun j _ => by simp [Function.update_apply])
      (by simpa [hne] using (h.wf.target_plain hi).2) hj
    have hnt : Settled ((s.set nt fun p => { p with
        multi_threaded := true, pgdir := (s.proc i).pgdir }).setCont i (.threadPublish nt)) nt :=
      .inr ⟨i, .inr (by simp)⟩
    have hdir : State.dir ((s.set nt fun p => { p with
        multi_threaded := true, pgdir := (s.proc i).pgdir }).setCont i (.threadPublish nt)) =
        Function.update s.dir nt (some (s.proc i).pgdir) := by
      funext j
      by_cases hj : j = nt
      · subst hj; rw [State.dir, if_pos hnt]; simp
      · simp [State.dir, hs j hj, hj]
    refine ⟨hw, ?_, fun j hj => ?_, fun j hj => ?_, h.next, fun j j' hjj hj hj' he => ?_, h.sole⟩
    · rw [hdir]; exact h.owned.share nt (if_pos hrun)
    · have hjn : j ≠ nt := by rintro rfl; exact hj hnt
      simp only [State.setCont_proc, State.set_proc, Function.update_of_ne hjn]
      exact h.stale j fun hjs => hj ((hs j hjn).mpr hjs)
    · by_cases hjn : j = nt
      · subst hjn; simpa using h.pos i hrun
      · simpa [hjn] using h.pos j ((hs j hjn).mp hj)
    · by_cases hjn : j = nt
      · subst hjn; exact .inl (by simp)
      · by_cases hji : j = i
        · subst hji; exact .inr ⟨nt, by simp⟩
        · have hsh : Sharing s j := by
            by_cases hjn' : j' = nt
            · subst hjn'
              exact h.shared j i hji ((hs j hjn).mp hj) hrun (by simpa [hjn] using he)
            · exact h.shared j j' hjj ((hs j hjn).mp hj) ((hs j' hjn').mp hj')
                (by simpa [hjn, hjn'] using he)
          rcases hsh with hm | ⟨m, hkj⟩
          · exact .inl (by simpa [hjn] using hm)
          · exact .inr ⟨m, by simpa [hji] using hkj⟩
  | enter c i nt hc hk =>
    have hi : (s.cont i).target = some nt := by rw [hk]; rfl
    have hne := h.wf.not_target hc hi
    have hnt : Settled s nt := .inr ⟨i, .inr hk⟩
    have hs : ∀ j, Settled ((((s.set i fun p => { p with multi_threaded := true }).set nt fun p =>
        { p with state := .RUNNABLE }).setCont nt .forkret).setCont i .user) j ↔ Settled s j :=
      fun j => by
        by_cases hj : j = nt
        · subst hj; exact iff_of_true (.inl (by simp)) hnt
        · refine settled_other h.wf hc hi (k := .user) (.inr rfl) (fun j hj => ?_)
            (fun j hj => by simp [Function.update_apply, hj]) (by simp [hne, Cont.target]) hj
          simp [hj, update_keep Proc.state]
    refine h.keep hw hs (fun j _ => ?_) (fun j _ => .inl ?_) ?_ rfl rfl
    · by_cases hj : j = nt
      · subst hj; simp [hne]
      · simp [hj, update_keep Proc.pgdir]
    · by_cases hj : j = nt
      · subst hj; simp [hne]
      · simp [hj, update_keep Proc.pgdir]
    · rintro j - hsh
      by_cases hji : j = i
      · subst hji; exact .inl (by simp [hne.symm])
      · rcases hsh with hm | ⟨m, hkj⟩
        · refine .inl ?_
          by_cases hj : j = nt
          · subst hj; simpa [hji] using hm
          · simpa [hj, hji] using hm
        · have hjn : j ≠ nt := by
            rintro rfl; have := (h.wf.target_plain hi).2; rw [hkj] at this; cases this
          exact .inr ⟨m, by simpa [hji, hjn] using hkj⟩
  | reap z hz hok hf hv =>
    obtain ⟨-, rfl⟩ := kfree_ok hf
    obtain ⟨-, b, rfl, hb⟩ := freevm_ok hv
    have hzs := Settled.of_zombie hz
    have hns := not_sharing hok (h.wf.idle z (.inr (.inr hz)))
    have halone := fun j => h.alone (j := j) hzs hns
    refine h.release hw hzs (fun j hj => ?_) (hw.not_settled_unused z (by simp)) (fun j => ?_)
      (fun j => ?_) (fun _ => rfl) halone rfl rfl fun hb' => ?_
    · simp [Settled, hj]
    · simp [update_keep Proc.pgdir]
    · by_cases hj : j = z
      · subst hj; simp
      · simp [hj]
    · obtain ⟨j, hj, -, hd⟩ := hb hb'
      exact halone j hj (by simpa [hj] using hd)
  | exec c i hc hk hok hv =>
    obtain ⟨-, b, rfl, hb⟩ := freevm_ok hv
    have hrun := Settled.of_running (h.wf.running c i hc)
    have halone := fun j => h.alone (j := j) hrun (not_sharing hok hk)
    refine h.replace hw hrun (fun j => ?_) ?_ (fun j hj => ?_) (fun j => ?_) (fun _ => rfl) halone
      rfl rfl fun hb' => ?_
    · simp [Settled, State.setupkvm, update_keep Proc.state]
    · simp
    · simp [State.setupkvm, hj]
    · simp [State.setupkvm, update_keep Proc.multi_threaded]
    · obtain ⟨j, hj, -, hd⟩ := hb hb'
      exact halone j hj (by simpa [State.setupkvm, hj] using hd)
  | scratch i hv =>
    obtain ⟨-, b, rfl, hb⟩ := freevm_ok hv
    refine ⟨hw, ?_, fun j hj => ?_, h.pos, Nat.succ_pos _, h.shared, sole_append h.sole fun hb' => ?_⟩
    · have ho : Owned s.dir (s.nextDir + 1) ((s.freed ++ [Freed.mk s.nextDir b]).map Freed.dir) := by
        rw [List.map_append]; exact h.owned.scratch
      exact ho
    · exact (h.stale j hj).imp_right fun hm => by
        simp only [State.freedDirs, State.setupkvm, List.map_append, List.mem_append]; exact .inl hm
    · obtain ⟨j, -, -, hj⟩ := hb hb'
      exact h.fresh j hj

theorem dirs_boot : Dirs boot := by
  have hset : ∀ i, Settled boot i ↔ i = 0 := fun i => by
    constructor
    · rintro (⟨hu, -⟩ | ⟨j, hj⟩)
      · by_contra hi; exact hu (by simp [boot, hi])
      · by_cases h0 : j = 0
        · subst h0; simp [boot] at hj
        · simp [boot, h0] at hj
    · rintro rfl; exact .inl (by simp [boot])
  have hdir : boot.dir = Function.update (fun _ => none) 0 (some 1) := by
    funext i
    by_cases hi : i = 0
    · subst hi; simp [State.dir, hset]; rfl
    · simp [State.dir, hset, hi]
  refine ⟨wf_boot, ?_, fun i hi => .inl ?_, fun i hi => ?_, by decide, fun i j hij hi hj => ?_, by simp [boot]⟩
  · rw [hdir]
    have h1 : Owned (fun _ : Slot => (none : Option Nat)) 1 [] :=
      ⟨by simp, by simp, by simp, List.nodup_nil⟩
    exact h1.create 0
  · rw [hset] at hi; simp [boot, hi]
  · rw [hset] at hi; subst hi; decide
  · rw [hset] at hi hj; exact absurd (hi.trans hj.symm) hij

end

/-- **Page directories are freed by their only owner**: if `exec` is called by, and
`wait` reaps, processes without threads only, then in every state reached no call
of `freevm` was on a page directory that another slot in use had, and none was
on one that had been freed. -/
theorem freevm_sole {s : State} (h : Reachable Single s) :
    (∀ f ∈ s.freed, f.shared = false) ∧ s.freedDirs.Nodup := by
  have hd : Dirs s := Reachable.of_moves (fun _ _ hg => hg) dirs_boot (fun _ _ _ _ => Dirs.move) h
  exact ⟨hd.sole, hd.owned.nodup⟩

/-- Init forks a child and waits for it; the child calls `exec` and exits. -/
def forkExecRun : List Action :=
  [.schedule 0 0, .call 0 .fork, .call 0 (.kalloc true), .call 0 .allocEnqueue,
    .call 0 (.forkCopy .ok), .call 0 .forkPublish, .call 0 .wait, .schedule 0 1,
    .call 0 (.exec .ok), .call 0 .exit, .schedule 0 0]

theorem freevm_sole_forkExecRun : ∃ s, exec step Single boot forkExecRun = some s ∧
    s.freedDirs = [2, 3] ∧ (∀ f ∈ s.freed, f.shared = false) ∧ s.freedDirs.Nodup := by
  obtain ⟨s, hs, hr, hp⟩ := Reach.of_any step Single boot (fun s => s.freedDirs = [2, 3])
    forkExecRun (by decide +kernel)
  exact ⟨s, hs, hp, freevm_sole hr⟩

/-- Init forks a child and waits for it; the child creates a thread and calls `exec`. -/
def threadExecRun : List Action :=
  [.schedule 0 0, .call 0 .fork, .call 0 (.kalloc true), .call 0 .allocEnqueue,
    .call 0 (.forkCopy .ok), .call 0 .forkPublish, .call 0 .wait, .schedule 0 1,
    .call 0 .thread_create, .call 0 (.kalloc true), .call 0 .allocEnqueue,
    .call 0 (.threadShare .ok), .call 0 .threadPublish, .call 0 (.exec .ok)]

/-- The page directory is freed under the thread, which is still runnable. -/
theorem threadExecRun_frees_shared : ¬ ∀ s, Reachable Always s →
    (∀ f ∈ s.freed, f.shared = false) ∧ s.freedDirs.Nodup := by
  intro h
  obtain ⟨s, -, hr, hp⟩ := Reach.of_any step Always boot
    (fun s : State => s.freed = [Freed.mk 2 true] ∧ (s.proc 2).state = .RUNNABLE ∧ (s.proc 2).pgdir = 2)
    threadExecRun (by decide +kernel)
  have := (h s hr).1 ⟨2, true⟩ (by rw [hp.1]; simp)
  cases this

end Xv6.Threads
