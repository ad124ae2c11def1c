import Xv6.Bio.Reads
import Xv6.Log.Wf

/-!
# Room in the cache

A buffer cannot be recycled while a process has it, waits for it or is giving it
back, or while the log pins it. The blocks in use are therefore as many as the
buffers that are not unused, and `bget` panics on a block that is not cached
exactly when there are `NBUF` of them. With `NBUF = LOGSIZE` a nearly full log
leaves one buffer, and a second reader finds none.
-/

namespace Xv6.Bio

open Lib Fs Log

def NPROC : Nat := 64

section
variable {P : Type} {t t' : Traced P} {p : P} {i : BufId} {b : Nat}

/-- A process has locked the buffer, is about to lock it or is giving it back. -/
def HasRef (s : State P) (p : P) (i : BufId) : Prop :=
  (s.buf i).lock = some p ∨ (s.cont p).waits = some i

/-- The blocks that processes have and those that the log pins. -/
def InUse (t : Traced P) : Set Nat :=
  {b | b ∈ t.pinned ∨ ∃ p i, HasRef t.s p i ∧ (t.s.buf i).blockno = b}

/-- A block that is asked for has a buffer, or fewer than `NBUF` blocks are in use. -/
def Room (t : Traced P) (b : Nat) : Prop :=
  (∃ i, t.s.caches ROOTDEV b i = true) ∨ (InUse t).encard < NBUF

/-- The blocks that processes ask for have room. -/
def HasRoom (t : Traced P) (a : Action P) : Prop :=
  ∀ p b k, a = .run p → t.s.cont p = .code (.bread b k) → Room t b

theorem Wf.hasRef {s : State P} (h : Wf s) (hi : (s.buf i).refcnt ≠ 0) : ∃ p, HasRef s p i := by
  cases hl : (s.buf i).lock with
  | some p => exact ⟨p, .inl hl⟩
  | none =>
    have hr := h.refs i
    rw [hl] at hr
    have hne : (Waiting s.cont i).encard ≠ 0 := by
      intro h0
      rw [h0] at hr
      exact hi (by exact_mod_cast hr)
    obtain ⟨p, hp⟩ := Set.nonempty_iff_ne_empty.mpr fun he => hne (Set.encard_eq_zero.mpr he)
    exact ⟨p, .inr hp⟩

theorem Wf.pos_of_hasRef {s : State P} (h : Wf s) (hp : HasRef s p i) : 0 < (s.buf i).refcnt := by
  rcases hp with hp | hp
  · exact h.pos_of_lock hp
  · exact h.pos_of_waits hp

theorem unused_false {s : State P} :
    s.unused i = false ↔ (s.buf i).refcnt ≠ 0 ∨ (s.buf i).dirty = true := by
  simp only [State.unused, decide_eq_false_iff_not, not_and_or, Bool.not_eq_false]

namespace Coherent

/-- The blocks in use are those of the buffers that are not unused. -/
theorem inUse_eq (h : Coherent t) :
    InUse t = (fun i => (t.s.buf i).blockno) '' {i | t.s.unused i = false} := by
  ext b
  constructor
  · rintro (hb | ⟨p, i, hp, hb⟩)
    · obtain ⟨i, hd, hb⟩ := (h.pinned b).mp hb
      exact ⟨i, unused_false.mpr (.inr hd), hb⟩
    · exact ⟨i, unused_false.mpr (.inl (Nat.ne_of_gt (h.wf.pos_of_hasRef hp))), hb⟩
  · rintro ⟨i, hi, hb⟩
    rcases unused_false.mp hi with hr | hd
    · obtain ⟨p, hp⟩ := h.wf.hasRef hr
      exact .inr ⟨p, i, hp, hb⟩
    · exact .inl ((h.pinned b).mpr ⟨i, hd, hb⟩)

/-- One buffer for each of them. -/
theorem encard_inUse (h : Coherent t) :
    (InUse t).encard = {i | t.s.unused i = false}.encard := by
  rw [h.inUse_eq]
  refine Set.InjOn.encard_image fun i hi j hj hb => ?_
  have hdev : ∀ {i}, t.s.unused i = false → (t.s.buf i).dev = ROOTDEV := by
    intro i hi
    rcases unused_false.mp hi with hr | hd
    · exact h.wf.dev_of_pos (Nat.pos_of_ne_zero hr)
    · exact h.dev i (h.dirty i hd)
  exact h.wf.uniq i j (hdev hi) (hdev hj) hb

/-- **Counting**: a buffer is unused just when fewer than `NBUF` blocks are in use. -/
theorem exists_unused_iff (h : Coherent t) :
    (∃ i, t.s.unused i = true) ↔ (InUse t).encard < NBUF := by
  rw [h.encard_inUse]
  have hcard : (Set.univ : Set BufId).encard = NBUF := by
    rw [Set.encard_univ]
    simp
  constructor
  · rintro ⟨i, hi⟩
    have hss : {i | t.s.unused i = false} ⊂ Set.univ := by
      refine Set.ssubset_univ_iff.mpr fun he => ?_
      have : i ∈ {i | t.s.unused i = false} := he ▸ Set.mem_univ i
      rw [Set.mem_ofPred_eq, hi] at this
      cases this
    rw [← hcard]
    exact (Set.toFinite _).encard_lt_encard hss
  · intro hlt
    by_contra hn
    have he : {i | t.s.unused i = false} = Set.univ := by
      ext i
      simpa using fun hi => hn ⟨i, hi⟩
    rw [he, hcard] at hlt
    exact lt_irrefl _ hlt

/-- **When `bget` panics.** -/
theorem bget_panics_iff (h : Coherent t) :
    t.s.bget ROOTDEV b = .error (.panic "bget: no buffers") ↔ ¬ Room t b := by
  rw [Room, not_or, ← h.exists_unused_iff]
  rcases bget_cases h.wf.linked b with ⟨i, hi, e⟩ | ⟨hm, i, hi, e⟩ | ⟨hm, hn, e⟩
  · rw [e]
    exact ⟨fun h => (by cases h), fun hr => absurd ⟨i, hi⟩ hr.1⟩
  · rw [e]
    exact ⟨fun h => (by cases h), fun hr => absurd ⟨i, hi⟩ hr.2⟩
  · rw [e]
    refine ⟨fun _ => ⟨?_, ?_⟩, fun _ => rfl⟩
    · rintro ⟨i, hi⟩
      rw [hm i] at hi
      cases hi
    · rintro ⟨i, hi⟩
      rw [hn i] at hi
      cases hi

end Coherent

end

variable {P : Type} [DecidableEq P] {t t' : Traced P} {p : P} {i : BufId} {b : Nat}

/-- **The cache is large enough** just for the blocks that have room: `bget` finds the
block or an unused buffer, and does not panic, exactly then. -/
theorem bget_finds_iff {disk : Nat → Block} {k : BufId → Code} (h : Reachable disk t)
    (hc : t.s.cont p = .code (.bread b k)) :
    (((∃ i, t.s.caches ROOTDEV b i = true) ∨ ∃ i, t.s.unused i = true) ↔ Room t b) ∧
    (t.step (.run p) ≠ .error (.panic "bget: no buffers") ↔ Room t b) := by
  have hco := Coherent.reachable h
  have hstep : t.step (.run p) = .error (.panic "bget: no buffers") ↔
      t.s.bget ROOTDEV b = .error (.panic "bget: no buffers") := by
    simp only [Traced.step, Bio.step, hc, State.run, State.exec]
    cases t.s.bget ROOTDEV b with
    | error e => exact ⟨fun h => (by cases h; rfl), fun h => (by cases h; rfl)⟩
    | ok r => exact ⟨fun h => (by cases h), fun h => (by cases h)⟩
  refine ⟨?_, ?_⟩
  · rw [Room, hco.exists_unused_iff]
  · rw [Ne, hstep, hco.bget_panics_iff, not_not]

/-- A first read. -/
theorem bget_finds_iff_firstRead : ∃ t : Traced Bool, Reachable (fun _ => .zero) t ∧
    t.s.cont true = .code (.bread 200 fun _ => .caller) ∧
      t.step (.run true) ≠ .error (.panic "bget: no buffers") := by
  have h1 := step_call (t := (.init fun _ => .zero : Traced Bool)) (p := true) (c := .bread 200) rfl rfl
  have h0 : Reachable (fun _ => .zero) (.init fun _ => .zero : Traced Bool) := .init
  have hr := h0.step _ (show Saves _ _ from fun _ _ h => (by cases h)) h1
  refine ⟨_, hr, rfl, (bget_finds_iff hr rfl).2.mpr (.inr ?_)⟩
  rw [← (Coherent.reachable hr).exists_unused_iff]
  exact ⟨⟨0, by decide⟩, rfl⟩

/-! ## A full log -/

/-- Callers save what they store, and an operation logs at most `MAXOPBLOCKS` blocks. -/
def Admits (t : Traced P) (a : Action P) : Prop :=
  Saves t a ∧ ∀ p i, a = .call p (.log_write i) →
    (insert (t.s.buf i).blockno (t.logged p)).card ≤ MAXOPBLOCKS

omit [DecidableEq P] in
theorem admits_run : Admits t (.run p) :=
  ⟨fun _ _ h => (by cases h), fun _ _ h => (by cases h)⟩

/-- An operation logs a block that is not in the log yet. -/
theorem run_log (hc : t.s.cont p = .code .caller) (hl : (t.s.buf i).lock = some p)
    (hb : (t.s.buf i).blockno = b) (hop : t.s.inOp p = true) (hn : t.s.lh.n < nlog - 1)
    (ho : 1 ≤ t.s.outstanding) (hnew : b ∉ t.s.lh.toList)
    (hm : (insert b (t.logged p)).card ≤ MAXOPBLOCKS) :
    ∃ lh, lh.toList = t.s.lh.toList ++ [b] ∧ Reach Traced.step Admits t
      { t with
        s := { t.s.setBuf i { t.s.buf i with dirty := true } with lh := lh }
        unsaved := Function.update t.unsaved i false
        pinned := insert b t.pinned
        logged := Function.update t.logged p (insert b (t.logged p)) } := by
  subst hb
  have hn' : t.s.lh.n < LOGSIZE := by unfold nlog at hn; omega
  obtain ⟨lh, hr⟩ := LogHeader.record_of_not_mem hnew hn'
  have hl' : lh.toList = t.s.lh.toList ++ [(t.s.buf i).blockno] := by
    rw [LogHeader.record_toList hr, if_neg hnew]
  refine ⟨lh, hl', ?_⟩
  -- the tests pass
  let s1 := t.s.setCode p (.append i)
  have h1 : t.step (.call p (.log_write i)) = .ok { t with s := s1 } := by
    refine step_call hc ?_
    have hh : t.s.inOp p = true ∧ t.s.holdingsleep p i = true := ⟨hop, by simp [State.holdingsleep, hl]⟩
    rw [call, if_pos hh, State.log_write, if_neg (by omega), if_neg (by omega)]
    rfl
  -- the block is recorded
  let s2 := { s1.setBuf i { t.s.buf i with dirty := true } with lh := lh }.setCode p .caller
  have hc1 : s1.cont p = .code (.append i) := Function.update_self _ _ _
  have h2 : ({ t with s := s1 } : Traced P).step (.run p) =
      .ok { t with
        s := s2
        unsaved := Function.update t.unsaved i false
        pinned := insert (s2.buf i).blockno t.pinned
        logged := Function.update t.logged p (insert (t.s.buf i).blockno (t.logged p)) } := by
    have hs : s1.run p (.code (.append i)) = .ok s2 := by
      have ha : s1.append i = .ok { s1.setBuf i { t.s.buf i with dirty := true } with lh := lh } := by
        have hr' : s1.lh.record (s1.buf i).blockno = some lh := hr
        rw [State.append, hr']
        rfl
      rw [State.run, State.exec, ha]
      rfl
    rw [step_run hc1 hs, Traced.trace, Traced.mark, touch_run hc1, Traced.log, hc1]
    rfl
  have hblk : (s2.buf i).blockno = (t.s.buf i).blockno := by
    simp [s2, s1]
  have he : s2 = { t.s.setBuf i { t.s.buf i with dirty := true } with lh := lh } := by
    have hcont : s2.cont = t.s.cont := by
      simp only [s2, s1, setCode_cont, setBuf_cont, Function.update_idem]
      rw [← hc, Function.update_eq_self]
    calc s2 = { { t.s.setBuf i { t.s.buf i with dirty := true } with lh := lh } with
        cont := s2.cont } := rfl
      _ = _ := by rw [hcont]; rfl
  rw [hblk, he] at h2
  have hg : Admits t (.call p (.log_write i)) :=
    ⟨fun _ _ h => (by cases h), fun q j h => by cases h; exact hm⟩
  exact (Reach.init.step _ hg h1).step _ admits_run h2

/-- A process gives back a buffer that nobody else has. -/
theorem run_release (hc : t.s.cont p = .code .caller) (hl : (t.s.buf i).lock = some p)
    (hu : t.unsaved i = false) (hr : (t.s.buf i).refcnt = 1) :
    ∃ links, Reach Traced.step Admits t
      { t with s := { t.s.setBuf i { t.s.buf i with lock := none, refcnt := 0 } with
        links := links } } := by
  refine ⟨(t.s.links.unlink i).pushFront i, ?_⟩
  let s1 := t.s.setCode p (.brelse i .caller)
  have h1 : t.step (.call p (.brelse i)) = .ok { t with s := s1 } := step_call hc rfl
  let s2 := (s1.setBuf i { t.s.buf i with lock := none }).setCont p (.decref i .caller)
  have hc1 : s1.cont p = .code (.brelse i .caller) := Function.update_self _ _ _
  have h2 : ({ t with s := s1 } : Traced P).step (.run p) = .ok { t with s := s2 } := by
    have hs : s1.run p (.code (.brelse i .caller)) = .ok s2 := by
      have hh : s1.holdingsleep p i = true := by
        simp only [State.holdingsleep, decide_eq_true_eq]
        exact hl
      rw [State.run, State.exec, State.brelse, if_neg (by simp [hh])]
      rfl
    rw [step_run hc1 hs, trace_run hc1 rfl]
  let s3 := (s2.decref i).setCode p .caller
  have hc2 : s2.cont p = .decref i .caller := Function.update_self _ _ _
  have h3 : ({ t with s := s2 } : Traced P).step (.run p) = .ok { t with s := s3 } := by
    have hs : s2.run p (.decref i .caller) = .ok s3 := rfl
    rw [step_run hc2 hs, trace_run hc2 rfl]
  have he : s3 = { t.s.setBuf i { t.s.buf i with lock := none, refcnt := 0 } with
      links := (t.s.links.unlink i).pushFront i } := by
    have hb2 : s2.buf i = { t.s.buf i with lock := none } := Function.update_self _ _ _
    have hd : s2.decref i = { s2.setBuf i { t.s.buf i with lock := none, refcnt := 0 } with
        links := (t.s.links.unlink i).pushFront i } := by
      simp only [State.decref, hb2, hr]
      rw [if_pos (by simp)]
      rfl
    have hbuf : s3.buf = Function.update t.s.buf i { t.s.buf i with lock := none, refcnt := 0 } := by
      simp only [s3, hd, setCode_buf, setBuf_buf]
      simp only [s2, s1, setCont_buf, setBuf_buf, setCode_buf, Function.update_idem]
    have hcont : s3.cont = t.s.cont := by
      simp only [s3, setCode_cont, hd, setBuf_cont]
      simp only [s2, s1, setCont_cont, setCode_cont, setBuf_cont, Function.update_idem]
      rw [← hc, Function.update_eq_self]
    have hlk : s3.links = (t.s.links.unlink i).pushFront i := by
      simp only [s3, hd]
      rfl
    have hrest : s3.disk = t.s.disk ∧ s3.lh = t.s.lh ∧ s3.outstanding = t.s.outstanding ∧
        s3.committing = t.s.committing ∧ s3.inOp = t.s.inOp := by
      simp only [s3, hd]
      exact ⟨rfl, rfl, rfl, rfl, rfl⟩
    obtain ⟨e1, e2, e3, e4, e5⟩ := hrest
    calc s3 = ⟨s3.buf, s3.links, s3.disk, s3.lh, s3.outstanding, s3.committing, s3.inOp, s3.cont⟩ := rfl
      _ = _ := by rw [hbuf, hcont, hlk, e1, e2, e3, e4, e5]; rfl
  rw [he] at h3
  have hg : Admits t (.call p (.brelse i)) :=
    ⟨fun q j h => by cases h; exact hu, fun _ _ h => (by cases h)⟩
  exact ((Reach.init.step _ hg h1).step _ admits_run h2).step _ admits_run h3

/-- Operations of processes `0`, `1` and `2` have logged the `k` blocks from block 200 on,
`MAXOPBLOCKS` each, and nobody has a buffer. -/
structure Filling (t : Traced (Fin NPROC)) (k : Nat) : Prop where
  reach : Reach Traced.step Admits (.init fun _ => .zero) t
  cont : ∀ p, t.s.cont p = .code .caller
  lock : ∀ i, (t.s.buf i).lock = none
  inOp : ∀ p : Fin NPROC, p.val < 3 → t.s.inOp p = true
  outstanding : t.s.outstanding = 3
  log : t.s.lh.toList = (List.range k).map (200 + ·)
  pinned : t.pinned = (Finset.range k).image (200 + ·)
  cached : ∀ i, (t.s.buf i).dev = ROOTDEV → 200 ≤ (t.s.buf i).blockno ∧ (t.s.buf i).blockno < 200 + k
  logged : ∀ p : Fin NPROC, ∀ b ∈ t.logged p,
    200 + MAXOPBLOCKS * p.val ≤ b ∧ b < 200 + MAXOPBLOCKS * p.val + MAXOPBLOCKS

namespace Filling

variable {t : Traced (Fin NPROC)} {k b : Nat}

theorem coherent (h : Filling t k) : Coherent t :=
  Coherent.reachable (h.reach.weaken fun _ _ hg => hg.1)

theorem uncached (h : Filling t k) (hb : b < 200 ∨ 200 + k ≤ b) (i : BufId) :
    t.s.caches ROOTDEV b i = false := by
  simp only [State.caches, decide_eq_false_iff_not, not_and]
  intro hd hb'
  have := h.cached i hd
  omega

theorem inUse (h : Filling t k) : InUse t = ((Finset.range k).image (200 + ·) : Finset Nat) := by
  ext b
  rw [← h.pinned]
  refine ⟨fun hb => hb.elim id ?_, .inl⟩
  rintro ⟨p, i, hl | hw, -⟩
  · rw [h.lock] at hl
    cases hl
  · rw [h.cont] at hw
    cases hw

theorem card_pinned : ((Finset.range k).image (200 + ·)).card = k := by
  rw [Finset.card_image_of_injective _ fun _ _ h => Nat.add_left_cancel h, Finset.card_range]

theorem unused (h : Filling t k) (hk : k < NBUF) : ∃ i, t.s.unused i = true := by
  rw [h.coherent.exists_unused_iff, h.inUse, Set.encard_coe_eq_coe_finsetCard, card_pinned]
  exact_mod_cast hk

/-- The next block is logged. -/
theorem next (h : Filling t k) (hk : k < nlog - 1) : ∃ t', Filling t' (k + 1) := by
  have hk' : k < 119 := hk
  have hco := h.coherent
  let p : Fin NPROC := ⟨k / MAXOPBLOCKS, by unfold MAXOPBLOCKS NPROC; omega⟩
  have hp : p.val = k / 40 := rfl
  obtain ⟨i, hi, hr⟩ := run_read (p := p) (b := 200 + k) (G := Admits) hco (h.cont p)
    (h.uncached (.inr (Nat.le_refl _))) (h.unused (by unfold NBUF MAXOPBLOCKS; omega))
    (by unfold FSSIZE; omega)
    fun _ => ⟨⟨fun _ _ h => (by cases h), fun _ _ h => (by cases h)⟩, admits_run⟩
  have hlen : t.s.lh.n = k := by
    rw [← LogHeader.length_toList, h.log, List.length_map, List.length_range]
  have hnew : 200 + k ∉ t.s.lh.toList := by
    rw [h.log]
    simp
  have hcard : (insert (200 + k) (t.logged p)).card ≤ MAXOPBLOCKS := by
    have hsub : insert (200 + k) (t.logged p) ⊆
        Finset.Ico (200 + MAXOPBLOCKS * p.val) (200 + MAXOPBLOCKS * p.val + MAXOPBLOCKS) := by
      intro b hb
      rw [Finset.mem_Ico]
      rcases Finset.mem_insert.mp hb with rfl | hb
      · unfold MAXOPBLOCKS
        omega
      · exact h.logged p b hb
    refine (Finset.card_le_card hsub).trans ?_
    rw [Nat.card_Ico]
    omega
  obtain ⟨t1, e1⟩ : ∃ t1, t1 = { t with
    s := t.s.setBuf i ⟨true, false, ROOTDEV, 200 + k, some p, 1, t.s.disk (200 + k)⟩ } := ⟨_, rfl⟩
  rw [← e1] at hr
  have hb1 : t1.s.buf i = ⟨true, false, ROOTDEV, 200 + k, some p, 1, t.s.disk (200 + k)⟩ := by
    rw [e1]
    exact Function.update_self _ _ _
  obtain ⟨lh, hlh, hr2⟩ := run_log (t := t1) (p := p) (i := i) (b := 200 + k)
    (by rw [e1]; exact h.cont p) (by rw [hb1]) (by rw [hb1])
    (by rw [e1]; exact h.inOp p (by rw [hp]; omega))
    (by rw [e1]; exact lt_of_eq_of_lt hlen hk)
    (by rw [e1]; exact le_of_le_of_eq (by decide) h.outstanding.symm) (by rw [e1]; exact hnew)
    (by rw [e1]; exact hcard)
  obtain ⟨t2, e2⟩ : ∃ t2, t2 = { t1 with
    s := { t1.s.setBuf i { t1.s.buf i with dirty := true } with lh := lh }
    unsaved := Function.update t1.unsaved i false
    pinned := insert (200 + k) t1.pinned
    logged := Function.update t1.logged p (insert (200 + k) (t1.logged p)) } := ⟨_, rfl⟩
  rw [← e2] at hr2
  have hb2 : t2.s.buf i = ⟨true, true, ROOTDEV, 200 + k, some p, 1, t.s.disk (200 + k)⟩ := by
    rw [e2]
    exact (Function.update_self _ _ _).trans (by rw [hb1])
  obtain ⟨links, hr3⟩ := run_release (t := t2) (p := p) (i := i) (by rw [e2, e1]; exact h.cont p)
    (by rw [hb2]) (by rw [e2]; exact Function.update_self _ _ _) (by rw [hb2])
  have hbuf : Function.update t2.s.buf i { t2.s.buf i with lock := none, refcnt := 0 } =
      Function.update t.s.buf i ⟨true, true, ROOTDEV, 200 + k, none, 0, t.s.disk (200 + k)⟩ := by
    rw [hb2, e2, e1]
    simp
  refine ⟨_, ((h.reach.trans hr).trans hr2).trans hr3, ?_, ?_, ?_, ?_, ?_, ?_, ?_, ?_⟩
  · rw [e2, e1]
    exact h.cont
  · intro j
    show (Function.update t2.s.buf i { t2.s.buf i with lock := none, refcnt := 0 } j).lock = none
    rw [hbuf]
    by_cases hj : j = i
    · subst hj
      simp
    · simpa [hj] using h.lock j
  · rw [e2, e1]
    exact h.inOp
  · rw [e2, e1]
    exact h.outstanding
  · have hl2 : lh.toList = t.s.lh.toList ++ [200 + k] := by
      rw [hlh, e1]
      rfl
    have he : t2.s.lh = lh := by rw [e2]
    show t2.s.lh.toList = _
    rw [he, hl2, h.log, List.range_succ, List.map_append]
    rfl
  · have he : t2.pinned = insert (200 + k) t.pinned := by rw [e2, e1]
    show t2.pinned = _
    rw [he, h.pinned, Finset.range_add_one, Finset.image_insert]
  · intro j hd
    replace hd : (Function.update t2.s.buf i
        { t2.s.buf i with lock := none, refcnt := 0 } j).dev = ROOTDEV := hd
    show 200 ≤ (Function.update t2.s.buf i { t2.s.buf i with lock := none, refcnt := 0 } j).blockno ∧
      (Function.update t2.s.buf i { t2.s.buf i with lock := none, refcnt := 0 } j).blockno <
        200 + (k + 1)
    rw [hbuf] at hd ⊢
    by_cases hj : j = i
    · subst hj
      simp
    · rw [Function.update_of_ne hj] at hd ⊢
      have := h.cached j hd
      omega
  · intro q b hb
    have he : t2.logged = Function.update t.logged p (insert (200 + k) (t.logged p)) := by rw [e2, e1]
    replace hb : b ∈ t2.logged q := hb
    rw [he] at hb
    by_cases hq : q = p
    · subst hq
      rw [Function.update_self] at hb
      rcases Finset.mem_insert.mp hb with rfl | hb
      · unfold MAXOPBLOCKS
        omega
      · exact h.logged _ b hb
    · rw [Function.update_of_ne hq] at hb
      exact h.logged q b hb

end Filling

/-- Three operations are admitted. -/
theorem filling_zero : ∃ t, Filling t 0 := by
  have hadm : ∀ (t : Traced (Fin NPROC)) (p : Fin NPROC), t.s.cont p = .code .caller →
      t.s.inOp p = false → t.s.committing = false → t.s.lh.n = 0 → t.s.outstanding < 3 →
      t.step (.call p .begin_op) = .ok { t with
        s := { t.s with
          outstanding := t.s.outstanding + 1
          inOp := Function.update t.s.inOp p true }
        logged := Function.update t.logged p ∅ } := by
    intro t p hc hop hcm hn ho
    have hb : call t.s p .begin_op = .ok { t.s with
        outstanding := t.s.outstanding + 1
        inOp := Function.update t.s.inOp p true } := by
      simp only [call, hop, State.begin_op, hcm, hn]
      rw [if_neg (by simp), if_neg (by simp), if_neg (by unfold LOGSIZE MAXOPBLOCKS; omega)]
    rw [step_call hc hb, Traced.trace, mark_nothing rfl, Traced.log]
  have hg : ∀ (t : Traced (Fin NPROC)) (p : Fin NPROC), Admits t (.call p .begin_op) := fun _ _ =>
    ⟨fun _ _ h => (by cases h), fun _ _ h => (by cases h)⟩
  let p0 : Fin NPROC := ⟨0, by decide⟩
  let p1 : Fin NPROC := ⟨1, by decide⟩
  let p2 : Fin NPROC := ⟨2, by decide⟩
  have r1 := Reach.init.step _ (hg (.init fun _ => .zero) p0) (hadm _ p0 rfl rfl rfl rfl (by decide))
  have r2 := r1.step _ (hg _ p1) (hadm _ p1 rfl rfl rfl rfl (by decide))
  have r3 := r2.step _ (hg _ p2) (hadm _ p2 rfl rfl rfl rfl (by decide))
  refine ⟨_, r3, fun _ => rfl, fun _ => rfl, fun p hp => ?_, rfl, rfl, rfl, fun i hi => (by cases hi),
    fun p b hb => ?_⟩
  · have : p = p0 ∨ p = p1 ∨ p = p2 := by
      rcases p with ⟨n, hn⟩
      simp only [p0, p1, p2, Fin.mk.injEq]
      simp only at hp
      omega
    rcases this with rfl | rfl | rfl <;> rfl
  · replace hb : b ∈ Function.update (Function.update (Function.update
      (fun _ : Fin NPROC => (∅ : Finset Nat)) p0 ∅) p1 ∅) p2 ∅ p := hb
    simp [Function.update_apply] at hb

/-- **A full log.** Three operations have logged `MAXOPBLOCKS` blocks each, less one for
the last; a reader has the last unused buffer, and the next reader finds none. -/
theorem fullLog_panics : ∃ (t : Traced (Fin NPROC)) (p : Fin NPROC),
    Reach Traced.step Admits (.init fun _ => .zero) t ∧
      t.step (.run p) = .error (.panic "bget: no buffers") := by
  have hfill : ∀ k ≤ nlog - 1, ∃ t, Filling t k := by
    intro k
    induction k with
    | zero => exact fun _ => filling_zero
    | succ k ih =>
      intro hk
      obtain ⟨t, ht⟩ := ih (by omega)
      exact ht.next (by omega)
  obtain ⟨t, ht⟩ := hfill (nlog - 1) (Nat.le_refl _)
  let p3 : Fin NPROC := ⟨3, by decide⟩
  let p4 : Fin NPROC := ⟨4, by decide⟩
  obtain ⟨i, hi, hr⟩ := run_read (p := p3) (b := 100) (G := Admits) ht.coherent (ht.cont p3)
    (ht.uncached (.inl (by decide))) (ht.unused (by decide)) (by decide)
    fun _ => ⟨⟨fun _ _ h => (by cases h), fun _ _ h => (by cases h)⟩, admits_run⟩
  obtain ⟨t1, e1⟩ : ∃ t1, t1 = { t with
    s := t.s.setBuf i ⟨true, false, ROOTDEV, 100, some p3, 1, t.s.disk 100⟩ } := ⟨_, rfl⟩
  rw [← e1] at hr
  have hc1 : t1.s.cont p4 = .code .caller := by rw [e1]; exact ht.cont p4
  have h2 : t1.step (.call p4 (.bread 101)) =
      .ok { t1 with s := t1.s.setCode p4 (.bread 101 fun _ => .caller) } := step_call hc1 rfl
  have r2 := (ht.reach.trans hr).step _
    (show Admits t1 _ from ⟨fun _ _ h => (by cases h), fun _ _ h => (by cases h)⟩) h2
  obtain ⟨t2, e2⟩ : ∃ t2, t2 = { t1 with s := t1.s.setCode p4 (.bread 101 fun _ => .caller) } :=
    ⟨_, rfl⟩
  rw [← e2] at r2
  have hc2 : t2.s.cont p4 = .code (.bread 101 fun _ => .caller) := by
    rw [e2]
    simp
  have hbuf : t2.s.buf = Function.update t.s.buf i ⟨true, false, ROOTDEV, 100, some p3, 1, t.s.disk 100⟩ := by
    rw [e2, e1]
    rfl
  have hpin : t2.pinned = (Finset.range (nlog - 1)).image (200 + ·) := by
    rw [e2, e1]
    exact ht.pinned
  have hr2 : Reachable (fun _ => .zero) t2 := r2.weaken fun _ _ hg => hg.1
  have hfind := (bget_finds_iff hr2 hc2).2
  refine ⟨t2, p4, r2, ?_⟩
  by_contra hn
  rcases hfind.mp hn with ⟨j, hj⟩ | hlt
  · -- the block has no buffer
    simp only [State.caches, hbuf, decide_eq_true_eq] at hj
    by_cases hji : j = i
    · subst hji
      simp at hj
    · rw [Function.update_of_ne hji] at hj
      have := ht.cached j hj.1
      omega
  · -- the blocks in use are those of the log and the reader's
    have hsub : ((insert 100 ((Finset.range (nlog - 1)).image (200 + ·)) : Finset Nat) : Set Nat) ⊆
        InUse t2 := by
      intro b hb
      rcases Finset.mem_insert.mp hb with rfl | hb
      · exact .inr ⟨p3, i, .inl (by rw [hbuf]; simp), by rw [hbuf]; simp⟩
      · exact .inl (by rw [hpin]; exact hb)
    have hcard : (insert 100 ((Finset.range (nlog - 1)).image (200 + ·))).card = NBUF := by
      have hn : 100 ∉ (Finset.range (nlog - 1)).image (200 + ·) := by
        simp only [Finset.mem_image, not_exists, not_and]
        intro x _
        omega
      rw [Finset.card_insert_of_notMem hn, Filling.card_pinned]
      rfl
    have hle := Set.encard_le_encard hsub
    rw [Set.encard_coe_eq_coe_finsetCard, hcard] at hle
    exact absurd hlt (not_lt.mpr hle)

end Xv6.Bio
