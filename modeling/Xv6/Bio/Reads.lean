import Xv6.Bio.Coherence

/-!
# What `bread` returns

In every run a block has one buffer in use, only unused buffers are recycled, and
`bread` returns what the last holder of the block left in it.
-/

namespace Xv6.Bio

open Lib Fs Log

variable {P : Type} [DecidableEq P] {t t' : Traced P} {s' : State P} {a : Action P} {p : P} {i : BufId}

/-- `refcnt`, `B_DIRTY` or `B_VALID` is set. -/
def Buf.Active (b : Buf P) : Prop := b.refcnt ≠ 0 ∨ b.dirty = true ∨ b.valid = true

omit [DecidableEq P] in
theorem Coherent.dev_of_active (h : Coherent t) (hi : (t.s.buf i).Active) :
    (t.s.buf i).dev = ROOTDEV := by
  rcases hi with hi | hi | hi
  · exact h.wf.dev_of_pos (Nat.pos_of_ne_zero hi)
  · exact h.dev i (h.dirty i hi)
  · exact h.dev i hi

/-- Only an unused buffer changes its block. -/
theorem Coherent.recycled (h : Coherent t) (hs : Bio.step t.s a = .ok s')
    (hi : (s'.buf i).dev ≠ (t.s.buf i).dev ∨ (s'.buf i).blockno ≠ (t.s.buf i).blockno) :
    (t.s.buf i).refcnt = 0 ∧ (t.s.buf i).dirty = false := by
  have hkeep : ∀ {j : BufId} {b : Buf P}, s'.buf = Function.update t.s.buf j b →
      b.dev = (t.s.buf j).dev → b.blockno = (t.s.buf j).blockno →
        (t.s.buf i).refcnt = 0 ∧ (t.s.buf i).dirty = false := by
    intro j b he hd hb
    rw [he] at hi
    exact absurd hi (by rw [update_field Buf.dev hd, update_field Buf.blockno hb]; simp)
  have hsame : s'.buf = t.s.buf → (t.s.buf i).refcnt = 0 ∧ (t.s.buf i).dirty = false := by
    intro he
    rw [he] at hi
    simp at hi
  cases step_effect h.wf.linked hs with
  | control p c c' hc hs ht hb hl hd he => exact hsame hb
  | brelse p j ha hc he => subst he; exact hsame rfl
  | hit p b k j ha hc hj he => subst he; exact hkeep rfl rfl rfl
  | recycle p b k j ha hc hm hu he =>
    subst he
    have hu : (t.s.buf j).refcnt = 0 ∧ (t.s.buf j).dirty = false := by simpa [State.unused] using hu
    by_cases hij : i = j
    · exact hij ▸ hu
    · simp [hij] at hi
  | lock p b j k ha hc hl he => subst he; exact hkeep rfl rfl rfl
  | valid p b j k ha hc hv he => subst he; exact hsame rfl
  | load p b j k d disk ha hc hv hd he => subst he; exact hkeep rfl rfl rfl
  | store p j d c c' hc ht hs he => subst he; exact hkeep rfl rfl rfl
  | write p j k ha hc hl he => subst he; exact hkeep rfl rfl rfl
  | unlock p j k ha hc hl he => subst he; exact hkeep rfl rfl rfl
  | decref p j k ha hc he =>
    subst he
    have hb : ((t.s.decref j).setCode p k).buf = Function.update t.s.buf j
        { t.s.buf j with refcnt := (t.s.buf j).refcnt - 1 } := by rw [setCode_buf, decref_buf]
    exact hkeep hb rfl rfl
  | append p j lh ha hc hr he => subst he; exact hkeep rfl rfl rfl

/-- **What `bread` returns.** -/
theorem Coherent.bread (h : Coherent t) (hg : Saves t (.run p)) {b : Nat} {k : Code}
    (hc : t.s.cont p = .fill b i k) (hs : t.step (.run p) = .ok t') :
    (t'.s.buf i).lock = some p ∧ (t'.s.buf i).dev = ROOTDEV ∧ (t'.s.buf i).blockno = b ∧
      (t'.s.buf i).data = t.last b := by
  have h' := h.step hg hs
  obtain ⟨s', hs1, ht⟩ := bind_ok.mp hs
  cases ht
  have hlast : (t.trace s' (.run p)).last = t.last := by
    rw [Traced.trace, Traced.mark, touch_run hc]
    rfl
  have hst : (t.trace s' (.run p)).s = s' := by
    rw [Traced.trace, Traced.mark, touch_run hc]
    rfl
  have hl := h.wf.fills p i (by rw [hc]; rfl)
  have hb := h.wf.asked p b i (by rw [hc]; rfl)
  have hdev := h.wf.dev_of_pos (h.wf.pos_of_lock hl)
  -- the buffer keeps its lock and its block, and is valid
  have hkey : (s'.buf i).lock = some p ∧ (s'.buf i).dev = ROOTDEV ∧ (s'.buf i).blockno = b ∧
      (s'.buf i).valid = true := by
    simp only [Bio.step, hc, State.run] at hs1
    obtain ⟨s1, hf, hs2⟩ := bind_ok.mp hs1
    cases hs2
    rcases fill_ok hf with ⟨hv, rfl⟩ | ⟨-, d, disk, -, rfl⟩
    · exact ⟨hl, hdev, hb, hv⟩
    · simp [hl, hdev, hb]
  have hd := h'.data i (by rw [hst]; exact hkey.2.2.2)
  rw [hst, hlast, hkey.2.2.1] at hd
  rw [hst]
  exact ⟨hkey.1, hkey.2.1, hkey.2.2.1, hd⟩

/-! ## Runs -/

section
variable {G : Traced P → Action P → Prop} {b : Nat}

theorem step_call {c : Call} (hc : t.s.cont p = .code .caller) (h : call t.s p c = .ok s') :
    t.step (.call p c) = .ok (t.trace s' (.call p c)) := by
  have : Bio.step t.s (.call p c) = .ok s' := by
    simp only [Bio.step, hc]
    exact h
  rw [Traced.step, this]
  rfl

theorem step_run {c : Cont} (hc : t.s.cont p = c) (h : t.s.run p c = .ok s') :
    t.step (.run p) = .ok (t.trace s' (.run p)) := by
  have : Bio.step t.s (.run p) = .ok s' := by
    simp only [Bio.step, hc]
    exact h
  rw [Traced.step, this]
  rfl

theorem trace_run {c : Cont} (hc : t.s.cont p = c) (ht : c.touch = .nothing) :
    t.trace s' (.run p) = { t with s := s' } := by
  rw [Traced.trace, mark_nothing (by rw [touch_run hc, ht]), Traced.log, hc, ht]

/-- A process reads a block that no buffer has. -/
theorem run_read (h : Coherent t) (hc : t.s.cont p = .code .caller)
    (hm : ∀ j, t.s.caches ROOTDEV b j = false) (hu : ∃ j, t.s.unused j = true) (hb : b < FSSIZE)
    (hG : ∀ t, G t (.call p (.bread b)) ∧ G t (.run p)) :
    ∃ i, t.s.unused i = true ∧ Reach Traced.step G t
      { t with s := t.s.setBuf i ⟨true, false, ROOTDEV, b, some p, 1, t.s.disk b⟩ } := by
  have hlock : ∀ {i}, t.s.unused i = true → (t.s.buf i).lock = none := by
    intro i hi
    have hi : (t.s.buf i).refcnt = 0 ∧ (t.s.buf i).dirty = false := by simpa [State.unused] using hi
    cases hl : (t.s.buf i).lock with
    | none => rfl
    | some q => exact absurd hi.1 (Nat.ne_of_gt (h.wf.pos_of_lock hl))
  -- the call
  let s1 := t.s.setCode p (.bread b fun _ => .caller)
  have h1 : t.step (.call p (.bread b)) = .ok { t with s := s1 } := step_call hc rfl
  -- `bget` finds no buffer of the block and recycles one
  obtain ⟨i, hi, hget⟩ : ∃ i, t.s.unused i = true ∧ s1.bget ROOTDEV b =
      .ok (i, s1.setBuf i { t.s.buf i with
        dev := ROOTDEV, blockno := b, valid := false, dirty := false, refcnt := 1 }) := by
    rcases bget_cases (s := s1) h.wf.linked b with ⟨i, hi, -⟩ | ⟨-, i, hi, e⟩ | ⟨-, hn, -⟩
    · have : t.s.caches ROOTDEV b i = true := hi
      rw [hm i] at this
      cases this
    · exact ⟨i, hi, e⟩
    · obtain ⟨j, hj⟩ := hu
      have : t.s.unused j = false := hn j
      rw [hj] at this
      cases this
  refine ⟨i, hi, ?_⟩
  let s2 := (s1.setBuf i { t.s.buf i with
    dev := ROOTDEV, blockno := b, valid := false, dirty := false, refcnt := 1 }).setCont p
      (.acquiresleep b i .caller)
  have hc1 : s1.cont p = .code (.bread b fun _ => .caller) := Function.update_self _ _ _
  have h2 : ({ t with s := s1 } : Traced P).step (.run p) = .ok { t with s := s2 } := by
    have hr : s1.run p (.code (.bread b fun _ => .caller)) = .ok s2 := by
      rw [State.run, State.exec, hget]
      rfl
    rw [step_run hc1 hr, trace_run hc1 rfl]
  -- the lock is free
  let s3 := (s2.setBuf i { s2.buf i with lock := some p }).setCont p (.fill b i .caller)
  have hc2 : s2.cont p = .acquiresleep b i .caller := Function.update_self _ _ _
  have hb2 : s2.buf i = { t.s.buf i with
      dev := ROOTDEV, blockno := b, valid := false, dirty := false, refcnt := 1 } :=
    Function.update_self _ _ _
  have h3 : ({ t with s := s2 } : Traced P).step (.run p) = .ok { t with s := s3 } := by
    have hr : s2.run p (.acquiresleep b i .caller) = .ok s3 := by
      have hl : (s2.buf i).lock = none := by rw [hb2]; exact hlock hi
      rw [State.run, State.acquiresleep, if_pos hl]
      rfl
    rw [step_run hc2 hr, trace_run hc2 rfl]
  -- the block is read
  let s4 := (s3.setBuf i { s3.buf i with valid := true, data := t.s.disk b }).setCode p .caller
  have hc3 : s3.cont p = .fill b i .caller := Function.update_self _ _ _
  have hb3 : s3.buf i = ⟨false, false, ROOTDEV, b, some p, 1, (t.s.buf i).data⟩ := by
    rw [show s3.buf i = { s2.buf i with lock := some p } from Function.update_self _ _ _, hb2]
  have h4 : ({ t with s := s3 } : Traced P).step (.run p) = .ok { t with s := s4 } := by
    have hr : s3.run p (.fill b i .caller) = .ok s4 := by
      have hf : s3.fill p i = .ok (s3.setBuf i { s3.buf i with valid := true, data := t.s.disk b }) := by
        simp only [State.fill, State.iderw, State.holdingsleep, hb3]
        simp [Nat.not_le.mpr hb]
        rfl
      rw [State.run, hf]
      rfl
    rw [step_run hc3 hr, trace_run hc3 rfl]
  have he : s4 = t.s.setBuf i ⟨true, false, ROOTDEV, b, some p, 1, t.s.disk b⟩ := by
    have hbuf : s4.buf = Function.update t.s.buf i ⟨true, false, ROOTDEV, b, some p, 1, t.s.disk b⟩ := by
      simp only [s4, setCode_buf, setBuf_buf, hb3]
      simp only [s3, s2, s1, setCont_buf, setBuf_buf, setCode_buf, Function.update_idem]
    have hcont : s4.cont = t.s.cont := by
      simp only [s4, s3, s2, s1, setCode_cont, setCont_cont, setBuf_cont, Function.update_idem]
      rw [← hc, Function.update_eq_self]
    calc s4 = { t.s with buf := s4.buf, cont := s4.cont } := rfl
      _ = _ := by rw [hbuf, hcont]; rfl
  rw [← he]
  exact (((Reach.init.step _ (hG _).1 h1).step _ (hG _).2 h2).step _ (hG _).2 h3).step _ (hG _).2 h4

end

/-! ## Coherence -/

/-- **Coherence of the buffer cache.** In every run in which callers save what they
store before they release it: a block has one buffer in use, only an unused buffer
is recycled, the list holds each buffer once, and `bread` returns what was last
stored in the block, or the disk's contents. -/
theorem cache_coherent {disk : Nat → Block} (h : Reachable disk t) :
    (∀ i j, (t.s.buf i).Active → (t.s.buf j).Active → (t.s.buf i).dev = (t.s.buf j).dev →
      (t.s.buf i).blockno = (t.s.buf j).blockno → i = j) ∧
    (∀ a t' i, t.step a = .ok t' →
      ((t'.s.buf i).dev ≠ (t.s.buf i).dev ∨ (t'.s.buf i).blockno ≠ (t.s.buf i).blockno) →
        (t.s.buf i).refcnt = 0 ∧ (t.s.buf i).dirty = false) ∧
    Linked t.s ∧
    ∀ p b i k t', t.s.cont p = .fill b i k → t.step (.run p) = .ok t' →
      (t'.s.buf i).lock = some p ∧ (t'.s.buf i).dev = ROOTDEV ∧ (t'.s.buf i).blockno = b ∧
        (t'.s.buf i).data = t.last b := by
  have hc := Coherent.reachable h
  refine ⟨fun i j hi hj _ hb => ?_, fun a t' i hs hi => ?_, hc.wf.linked, fun p b i k t' hp hs => ?_⟩
  · exact hc.wf.uniq i j (hc.dev_of_active hi) (hc.dev_of_active hj) hb
  · obtain ⟨s', hs1, ht⟩ := bind_ok.mp hs
    cases ht
    have hst : (t.trace s' a).s = s' := by
      unfold Traced.trace Traced.mark
      split <;> rfl
    rw [hst] at hi
    exact hc.recycled hs1 hi
  · exact hc.bread (fun q j he => by cases he) hp hs

/-- A block read by the first of two processes, whose buffer is then the block's only one. -/
theorem cache_coherent_firstRead : ∃ (t : Traced Bool) (i : BufId),
    Reachable (fun b _ => UInt8.ofNat b) t ∧ (t.s.buf i).lock = some true ∧
      (t.s.buf i).data = (fun _ => 200) ∧
      ∀ j, (t.s.buf j).Active → (t.s.buf j).dev = ROOTDEV → (t.s.buf j).blockno = 200 → j = i := by
  obtain ⟨i, -, hr⟩ := run_read (t := .init fun b _ => UInt8.ofNat b) (p := true) (G := Saves) (b := 200)
    (.init _) rfl (fun _ => rfl) ⟨⟨0, by decide⟩, rfl⟩ (by decide)
    fun _ => ⟨fun _ _ h => (by cases h), fun _ _ h => (by cases h)⟩
  refine ⟨_, i, hr, by simp, by simp [State.init, Traced.init], fun j hj hd hb => ?_⟩
  refine (cache_coherent hr).1 j i hj ?_ ?_ ?_
  · simp [Buf.Active]
  · simpa using hd
  · simpa using hb

end Xv6.Bio
