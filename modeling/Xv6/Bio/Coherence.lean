import Xv6.Bio.Wf

/-!
# Coherence

The cache, traced with the bytes last stored in each block, the buffers stored
into since their last `log_write` or `bwrite`, and the blocks passed to
`log_write` and not written since. A valid buffer holds what was last stored in
its block, and so does the disk where no buffer is newer; hence `bread` returns
what the last holder of the block left.
-/

namespace Xv6.Bio

open Lib Fs Log

variable {P : Type}

structure Traced (P : Type) where
  s : State P
  last : Nat → Block
  /-- stored into since the last `log_write` or `bwrite` -/
  unsaved : BufId → Bool
  /-- passed to `log_write` and not written to the disk since -/
  pinned : Finset Nat
  /-- the blocks that the operation of a process passed to `log_write` -/
  logged : P → Finset Nat

namespace Traced

def init (disk : Nat → Block) : Traced P := ⟨.init disk, disk, fun _ => false, ∅, fun _ => ∅⟩

variable [DecidableEq P]

/-- What an action that takes the cache to `s` does to the buffer it touches. -/
def mark (t : Traced P) (s : State P) (a : Action P) : Traced P :=
  match touch t.s a with
  | .nothing => { t with s := s }
  | .stores i =>
    { t with
      s := s
      last := Function.update t.last (s.buf i).blockno (s.buf i).data
      unsaved := Function.update t.unsaved i true }
  | .writes i =>
    { t with
      s := s
      unsaved := Function.update t.unsaved i false
      pinned := t.pinned.erase (s.buf i).blockno }
  | .logs i =>
    { t with
      s := s
      unsaved := Function.update t.unsaved i false
      pinned := insert (s.buf i).blockno t.pinned }

/-- What an action adds to the blocks of an operation. -/
def log (t : Traced P) : Action P → P → Finset Nat
  | .call p .begin_op => Function.update t.logged p ∅
  | .run p =>
    match (t.s.cont p).touch with
    | .logs i => Function.update t.logged p (insert (t.s.buf i).blockno (t.logged p))
    | _ => t.logged
  | _ => t.logged

/-- The trace after an action that takes the cache to `s`. -/
def trace (t : Traced P) (s : State P) (a : Action P) : Traced P :=
  { t.mark s a with logged := t.log a }

def step (t : Traced P) (a : Action P) : Except Fault (Traced P) := do
  let s ← Bio.step t.s a
  return t.trace s a

end Traced

/-- Callers save what they store in a buffer before they release it. -/
def Saves (t : Traced P) (a : Action P) : Prop :=
  ∀ p i, a = .call p (.brelse i) → t.unsaved i = false

def Cont.Safe : Cont → Set BufId → Set BufId → Prop
  | .code c, held, fresh => c.Safe held fresh
  | .acquiresleep _ i k, held, fresh => i ∉ held → i ∉ fresh → k.Safe (insert i held) fresh
  | .fill _ _ k, held, fresh => k.Safe held fresh
  | .decref _ k, held, fresh => k.Safe held fresh

structure Coherent (t : Traced P) : Prop where
  wf : Wf t.s
  safe : ∀ p, (t.s.cont p).Safe {i | (t.s.buf i).lock = some p}
    {i | (t.s.buf i).lock = some p ∧ t.unsaved i = true}
  dev : ∀ i, (t.s.buf i).valid = true → (t.s.buf i).dev = ROOTDEV
  dirty : ∀ i, (t.s.buf i).dirty = true → (t.s.buf i).valid = true
  loaded : ∀ i p, (t.s.buf i).lock = some p → (t.s.cont p).fills ≠ some i → (t.s.buf i).valid = true
  unsaved : ∀ i, t.unsaved i = true → (t.s.buf i).lock.isSome = true ∧ (t.s.buf i).valid = true
  data : ∀ i, (t.s.buf i).valid = true → (t.s.buf i).data = t.last (t.s.buf i).blockno
  disk : ∀ b, (∀ i, (t.s.buf i).blockno = b → (t.s.buf i).valid = true →
    (t.s.buf i).dirty = false ∧ t.unsaved i = false) → t.s.disk b = t.last b
  pinned : ∀ b, b ∈ t.pinned ↔ ∃ i, (t.s.buf i).dirty = true ∧ (t.s.buf i).blockno = b

section
variable {t t' : Traced P} {s' : State P} {a : Action P} {p q : P} {i j : BufId} [DecidableEq P]

omit [DecidableEq P] in
theorem mark_nothing (h : touch t.s a = .nothing) : t.mark s' a = { t with s := s' } := by
  rw [Traced.mark, h]

omit [DecidableEq P] in
theorem touch_run {c : Cont} (hc : t.s.cont p = c) : touch t.s (.run p) = c.touch := by
  rw [touch, hc]

namespace Coherent

omit [DecidableEq P] in
theorem not_unsaved (h : Coherent t) (hl : (t.s.buf i).lock = none) : t.unsaved i = false := by
  cases hu : t.unsaved i with
  | false => rfl
  | true =>
    have := (h.unsaved i hu).1
    rw [hl] at this
    cases this

omit [DecidableEq P] in
/-- A buffer in use is the only one of its block. -/
theorem only (h : Coherent t) (hi : (t.s.buf i).valid = true) (hj : (t.s.buf j).valid = true)
    (hb : (t.s.buf i).blockno = (t.s.buf j).blockno) : i = j :=
  h.wf.uniq i j (h.dev i hi) (h.dev j hj) hb

/-- A step of `p` that leaves buffers, disk and trace. -/
theorem control (h : Coherent t) {c : Cont} (hw : Wf s') (hb : s'.buf = t.s.buf)
    (hd : s'.disk = t.s.disk) (he : s'.cont = Function.update t.s.cont p c)
    (hs : c.Safe {i | (t.s.buf i).lock = some p} {i | (t.s.buf i).lock = some p ∧ t.unsaved i = true})
    (hf : ∀ i, (t.s.cont p).fills = some i → (t.s.buf i).valid = true) :
    Coherent { t with s := s' } where
  wf := hw
  safe q := by
    simp only [hb, he]
    by_cases hq : q = p
    · subst hq
      rw [Function.update_self]
      exact hs
    · rw [Function.update_of_ne hq]
      exact h.safe q
  dev := by simp only [hb]; exact h.dev
  dirty := by simp only [hb]; exact h.dirty
  loaded j q hl hq := by
    simp only [hb, he] at hl hq ⊢
    by_cases hqp : q = p
    · subst hqp
      by_cases hfj : (t.s.cont q).fills = some j
      · exact hf j hfj
      · exact h.loaded j q hl hfj
    · rw [Function.update_of_ne hqp] at hq
      exact h.loaded j q hl hq
  unsaved := by simp only [hb]; exact h.unsaved
  data := by simp only [hb]; exact h.data
  disk := by simp only [hb, hd]; exact h.disk
  pinned := by simp only [hb]; exact h.pinned

/-- A step of `p` that changes buffer `i` to `b` and leaves its block, and lets no
other process's lock or modified buffers change. -/
theorem change (h : Coherent t) {c : Cont} {b : Buf P} (hw : Wf t'.s)
    (hbuf : t'.s.buf = Function.update t.s.buf i b)
    (he : t'.s.cont = Function.update t.s.cont p c)
    (hdev : b.dev = (t.s.buf i).dev) (hblk : b.blockno = (t.s.buf i).blockno)
    (hlast : ∀ n, n ≠ b.blockno → t'.last n = t.last n)
    (hun : ∀ j, j ≠ i → t'.unsaved j = t.unsaved j)
    (hdisk : ∀ n, n ≠ b.blockno → t'.s.disk n = t.s.disk n)
    (hpin : ∀ n, n ≠ b.blockno → (n ∈ t'.pinned ↔ n ∈ t.pinned))
    (hlock : ∀ q, q ≠ p → (b.lock = some q ↔ (t.s.buf i).lock = some q))
    (hmine : ∀ q, q ≠ p → (t.s.buf i).lock = some q → t'.unsaved i = t.unsaved i)
    (hsafe : c.Safe {j | (t'.s.buf j).lock = some p}
      {j | (t'.s.buf j).lock = some p ∧ t'.unsaved j = true})
    (hfills : ∀ j, j ≠ i → (t.s.cont p).fills ≠ some j)
    (hdv : b.dirty = true → b.valid = true)
    (hld : ∀ q, b.lock = some q → (t'.s.cont q).fills ≠ some i → b.valid = true)
    (hunv : t'.unsaved i = true → b.lock.isSome = true ∧ b.valid = true)
    (hdata : b.valid = true → b.data = t'.last b.blockno)
    (hnew : (b.valid = true → b.dirty = false ∧ t'.unsaved i = false) →
      t'.s.disk b.blockno = t'.last b.blockno)
    (hpb : b.dirty = true ↔ b.blockno ∈ t'.pinned) (hvi : (t.s.buf i).dev = ROOTDEV) :
    Coherent t' := by
  have hself : t'.s.buf i = b := by rw [hbuf, Function.update_self]
  have hne : ∀ j, j ≠ i → t'.s.buf j = t.s.buf j := fun j hj => by rw [hbuf, Function.update_of_ne hj]
  -- no other valid buffer has the block of `i`
  have hother : ∀ j, j ≠ i → (t.s.buf j).valid = true → (t.s.buf j).blockno ≠ b.blockno := by
    intro j hj hv hb
    exact hj (h.wf.uniq j i (h.dev j hv) hvi (hb.trans hblk))
  refine ⟨hw, fun q => ?_, fun j => ?_, fun j => ?_, fun j q hl hq => ?_, fun j => ?_, fun j => ?_,
    fun n hn => ?_, fun n => ?_⟩
  · by_cases hqp : q = p
    · subst hqp
      rw [he, Function.update_self]
      exact hsafe
    · have h1 : {j | (t'.s.buf j).lock = some q} = {j | (t.s.buf j).lock = some q} := by
        ext j
        by_cases hj : j = i
        · subst hj
          simp [hself, hlock q hqp]
        · simp [hne j hj]
      have h2 : {j | (t'.s.buf j).lock = some q ∧ t'.unsaved j = true} =
          {j | (t.s.buf j).lock = some q ∧ t.unsaved j = true} := by
        ext j
        by_cases hj : j = i
        · subst hj
          simp only [Set.mem_ofPred_eq, hself, hlock q hqp]
          exact and_congr_right fun hl => by rw [hmine q hqp hl]
        · simp [hne j hj, hun j hj]
      rw [he, Function.update_of_ne hqp, h1, h2]
      exact h.safe q
  · by_cases hj : j = i
    · subst hj
      rw [hself, hdev]
      exact fun _ => hvi
    · rw [hne j hj]
      exact h.dev j
  · by_cases hj : j = i
    · subst hj
      rw [hself]
      exact hdv
    · rw [hne j hj]
      exact h.dirty j
  · by_cases hj : j = i
    · subst hj
      rw [hself] at hl ⊢
      exact hld q hl hq
    · rw [hne j hj] at hl ⊢
      by_cases hqp : q = p
      · subst hqp
        exact h.loaded j q hl (hfills j hj)
      · rw [he, Function.update_of_ne hqp] at hq
        exact h.loaded j q hl hq
  · by_cases hj : j = i
    · subst hj
      rw [hself]
      exact hunv
    · rw [hne j hj, hun j hj]
      exact h.unsaved j
  · by_cases hj : j = i
    · subst hj
      rw [hself]
      exact hdata
    · rw [hne j hj]
      intro hv
      rw [hlast _ (hother j hj hv)]
      exact h.data j hv
  · by_cases hnb : n = b.blockno
    · subst hnb
      refine hnew fun hv => ?_
      have := hn i (by rw [hself])
      rw [hself] at this
      exact this hv
    · rw [hdisk n hnb, hlast n hnb]
      refine h.disk n fun j hj hv => ?_
      have hji : j ≠ i := by
        rintro rfl
        exact hnb (hj.symm.trans hblk.symm)
      have := hn j (by rw [hne j hji, hj])
      rw [hne j hji, hun j hji] at this
      exact this hv
  · by_cases hnb : n = b.blockno
    · subst hnb
      rw [← hpb]
      constructor
      · intro hd
        exact ⟨i, by rw [hself]; exact ⟨hd, rfl⟩⟩
      · rintro ⟨j, hd, hj⟩
        by_cases hji : j = i
        · subst hji
          rwa [hself] at hd
        · rw [hne j hji] at hd hj
          exact absurd hj (hother j hji (h.dirty j hd))
    · rw [hpin n hnb, h.pinned]
      refine exists_congr fun j => ?_
      by_cases hji : j = i
      · subst hji
        rw [hself]
        constructor
        · rintro ⟨-, e⟩
          exact absurd (e.symm.trans hblk.symm) hnb
        · rintro ⟨-, e⟩
          exact absurd e.symm hnb
      · rw [hne j hji]

/-- A step of `p` that changes what the table says of buffer `i`. -/
theorem retable (h : Coherent t) {c : Cont} {b : Buf P} (hw : Wf s')
    (hbuf : s'.buf = Function.update t.s.buf i b)
    (he : s'.cont = Function.update t.s.cont p c) (hd : s'.disk = t.s.disk)
    (hb : b = { t.s.buf i with refcnt := b.refcnt, lock := b.lock })
    (hlock : ∀ q, q ≠ p → (b.lock = some q ↔ (t.s.buf i).lock = some q))
    (hsafe : c.Safe {j | (s'.buf j).lock = some p}
      {j | (s'.buf j).lock = some p ∧ t.unsaved j = true})
    (hfills : (t.s.cont p).fills = none)
    (hld : ∀ q, b.lock = some q → (s'.cont q).fills ≠ some i → (t.s.buf i).valid = true)
    (hunv : t.unsaved i = true → b.lock.isSome = true)
    (hvi : (t.s.buf i).dev = ROOTDEV) : Coherent { t with s := s' } := by
  have hv : b.valid = (t.s.buf i).valid := by rw [hb]
  have hdt : b.dirty = (t.s.buf i).dirty := by rw [hb]
  have hblk : b.blockno = (t.s.buf i).blockno := by rw [hb]
  have hdat : b.data = (t.s.buf i).data := by rw [hb]
  refine h.change hw hbuf he (by rw [hb]) hblk (fun _ _ => rfl) (fun _ _ => rfl) (fun _ _ => by rw [hd])
    (fun _ _ => Iff.rfl) hlock (fun _ _ _ => rfl) hsafe (fun j _ => by rw [hfills]; simp) ?_ ?_ ?_ ?_
    (fun hn => ?_) ?_ hvi
  · rw [hv, hdt]
    exact h.dirty i
  · rw [hv]
    exact hld
  · rw [hv]
    exact fun hu => ⟨hunv hu, (h.unsaved i hu).2⟩
  · rw [hv, hdat, hblk]
    exact h.data i
  · rw [hd, hblk]
    refine h.disk _ fun j hj hvj => ?_
    obtain rfl := h.wf.uniq j i (h.dev j hvj) hvi hj
    rw [← hdt]
    exact hn (hv.trans hvj)
  · rw [hdt, hblk, h.pinned]
    constructor
    · exact fun hd => ⟨i, hd, rfl⟩
    · rintro ⟨j, hj, hbj⟩
      obtain rfl := h.wf.uniq j i (h.dev j (h.dirty j hj)) hvi hbj
      exact hj

/-- A step of `p` that recycles buffer `i`. -/
theorem recycle (h : Coherent t) {b : Nat} {k : Code} (hw : Wf s')
    (hc : s' = (t.s.setBuf i { t.s.buf i with
      dev := ROOTDEV, blockno := b, valid := false, dirty := false, refcnt := 1 }).setCont p
        (.acquiresleep b i k))
    (hfills : (t.s.cont p).fills = none) (hu : t.s.unused i = true)
    (hsafe : (Cont.acquiresleep b i k).Safe {i | (t.s.buf i).lock = some p}
      {i | (t.s.buf i).lock = some p ∧ t.unsaved i = true}) : Coherent { t with s := s' } := by
  subst hc
  have hu : (t.s.buf i).refcnt = 0 ∧ (t.s.buf i).dirty = false := by
    simpa [State.unused] using hu
  have hlock : (t.s.buf i).lock = none := by
    cases hl : (t.s.buf i).lock with
    | none => rfl
    | some q => exact absurd hu.1 (Nat.ne_of_gt (h.wf.pos_of_lock hl))
  have hun := h.not_unsaved hlock
  have hlk : ∀ j, (Function.update t.s.buf i { t.s.buf i with
      dev := ROOTDEV, blockno := b, valid := false, dirty := false, refcnt := 1 } j).lock =
        (t.s.buf j).lock := update_field Buf.lock rfl
  refine ⟨hw, fun q => ?_, fun j => ?_, fun j => ?_, fun j q hl hq => ?_, fun j => ?_, fun j => ?_,
    fun n hn => ?_, fun n => ?_⟩
  · simp only [setCont_buf, setBuf_buf, hlk]
    by_cases hqp : q = p
    · subst hqp
      rw [setCont_cont, Function.update_self]
      exact hsafe
    · rw [setCont_cont, Function.update_of_ne hqp]
      exact h.safe q
  · by_cases hj : j = i
    · subst hj
      simp
    · simpa [hj] using h.dev j
  · by_cases hj : j = i
    · subst hj
      simp
    · simpa [hj] using h.dirty j
  · simp only [setCont_buf, setBuf_buf, hlk] at hl
    have hj : j ≠ i := by
      rintro rfl
      rw [hlock] at hl
      cases hl
    rw [setCont_buf, setBuf_buf, Function.update_of_ne hj]
    refine h.loaded j q hl fun hf => ?_
    by_cases hqp : q = p
    · subst hqp
      rw [hfills] at hf
      cases hf
    · exact hq (by rw [setCont_cont, Function.update_of_ne hqp]; exact hf)
  · by_cases hj : j = i
    · subst hj
      intro hu'
      rw [hun] at hu'
      cases hu'
    · simpa [hj] using h.unsaved j
  · by_cases hj : j = i
    · subst hj
      simp
    · simpa [hj] using h.data j
  · refine h.disk n fun j hj hv => ?_
    by_cases hji : j = i
    · subst hji
      exact ⟨hu.2, hun⟩
    · have := hn j
      simp only [setCont_buf, setBuf_buf, Function.update_of_ne hji] at this
      exact this hj hv
  · rw [h.pinned]
    refine exists_congr fun j => ?_
    by_cases hj : j = i
    · subst hj
      simp [hu.2]
    · simp [hj]

theorem mark (h : Coherent t) (hg : Saves t a) (hs : Effect t.s a s') : Coherent (t.mark s' a) := by
  have hw := h.wf.step hs
  cases hs with
  | control p c c' hc hs ht hb hl hd he =>
    rw [mark_nothing ht]
    exact h.control hw hb hd he (hs _) fun i hi => by rw [hc] at hi; cases hi
  | brelse p i ha hc he =>
    subst he ha
    have hu := hg p i rfl
    rw [mark_nothing rfl]
    refine h.control (p := p) (c := .code (.brelse i .caller)) hw rfl rfl rfl ⟨?_, trivial⟩
      fun j hj => by rw [hc] at hj; cases hj
    exact fun hi => by rw [hi.2] at hu; cases hu
  | hit p b k i ha hc hi he =>
    subst he ha
    have hi : (t.s.buf i).dev = ROOTDEV ∧ (t.s.buf i).blockno = b := by simpa [State.caches] using hi
    have hsafe := h.safe p
    rw [hc] at hsafe
    have hlk : ∀ j, (Function.update t.s.buf i { t.s.buf i with
        refcnt := (t.s.buf i).refcnt + 1 } j).lock = (t.s.buf j).lock := update_field Buf.lock rfl
    rw [mark_nothing (by rw [touch_run hc]; rfl)]
    refine h.retable (i := i) hw rfl rfl rfl rfl (fun _ _ => Iff.rfl) ?_ (by rw [hc]; rfl)
      (fun q hl hf => h.loaded i q hl fun hf' => ?_) (fun hu => (h.unsaved i hu).1) hi.1
    · simp only [setCont_buf, setBuf_buf, hlk]
      exact hsafe i
    · by_cases hqp : q = p
      · subst hqp
        rw [hc] at hf'
        cases hf'
      · exact hf (by rw [setCont_cont, Function.update_of_ne hqp]; exact hf')
  | recycle p b k i ha hc hm hu he =>
    subst ha
    have hsafe := h.safe p
    rw [hc] at hsafe
    rw [mark_nothing (by rw [touch_run hc]; rfl)]
    exact h.recycle hw he (by rw [hc]; rfl) hu (hsafe i)
  | lock p b i k ha hc hl he =>
    subst he ha
    have hun := h.not_unsaved hl
    have hsafe := h.safe p
    rw [hc] at hsafe
    rw [mark_nothing (by rw [touch_run hc]; rfl)]
    have hpos := h.wf.pos_of_waits (i := i) (p := p) (by rw [hc]; rfl)
    refine h.retable (i := i) hw rfl rfl rfl rfl (fun q hq => ?_) ?_ (by rw [hc]; rfl)
      (fun q hq hf => ?_) (fun _ => rfl) (h.wf.dev_of_pos hpos)
    · simp [hl, Ne.symm hq]
    · have h1 : {j | (Function.update t.s.buf i { t.s.buf i with lock := some p } j).lock = some p} =
          insert i {j | (t.s.buf j).lock = some p} := by
        ext j
        by_cases hj : j = i
        · subst hj
          simp
        · simp [hj]
      have h2 : {j | (Function.update t.s.buf i { t.s.buf i with lock := some p } j).lock = some p ∧
          t.unsaved j = true} = {j | (t.s.buf j).lock = some p ∧ t.unsaved j = true} := by
        ext j
        by_cases hj : j = i
        · subst hj
          simp [hun]
        · simp [hj]
      simp only [setCont_buf, setBuf_buf, h1, h2]
      exact hsafe (fun hi => by simp [hl] at hi) fun hi => by simp [hl] at hi
    · cases hq
      simp [Cont.fills] at hf
  | valid p b i k ha hc hv he =>
    subst he ha
    have hsafe := h.safe p
    rw [hc] at hsafe
    rw [mark_nothing (by rw [touch_run hc]; rfl)]
    exact h.control (p := p) (c := .code k) hw rfl rfl rfl hsafe fun j hj => by
      rw [hc] at hj
      cases hj
      exact hv
  | load p b i k d disk ha hc hv hd he =>
    have hdt : (t.s.buf i).dirty = false := by
      by_contra hd'
      have := h.dirty i (by simpa using hd')
      rw [hv] at this
      cases this
    obtain ⟨rfl, rfl⟩ := hd hdt
    subst he ha
    have hl : (t.s.buf i).lock = some p := h.wf.fills p i (by rw [hc]; rfl)
    have hun : t.unsaved i = false := by
      by_contra hu
      have := (h.unsaved i (by simpa using hu)).2
      rw [hv] at this
      cases this
    have hdev := h.wf.dev_of_pos (h.wf.pos_of_lock hl)
    have hdisk : t.s.disk (t.s.buf i).blockno = t.last (t.s.buf i).blockno := by
      refine h.disk _ fun j hj hvj => ?_
      obtain rfl := h.wf.uniq j i (h.dev j hvj) hdev hj
      rw [hv] at hvj
      cases hvj
    have hsafe := h.safe p
    rw [hc] at hsafe
    have hlk : ∀ j, (Function.update t.s.buf i { t.s.buf i with
        valid := true, dirty := false, data := t.s.disk (t.s.buf i).blockno } j).lock =
          (t.s.buf j).lock := update_field Buf.lock rfl
    rw [mark_nothing (by rw [touch_run hc]; rfl)]
    refine h.change (p := p) (i := i) (c := .code k) hw rfl rfl rfl rfl (fun _ _ => rfl) (fun _ _ => rfl)
      (fun _ _ => rfl) (fun _ _ => Iff.rfl) (fun _ _ => Iff.rfl) (fun _ _ _ => rfl) ?_ (fun j hj => ?_)
      (fun _ => rfl) (fun _ _ _ => rfl) (fun _ => ⟨by rw [hl]; rfl, rfl⟩) (fun _ => hdisk) (fun _ => hdisk)
      ?_ hdev
    · simp only [setCode_buf, setBuf_buf, hlk]
      exact hsafe
    · rw [hc]
      simpa [Cont.fills] using Ne.symm hj
    · rw [h.pinned]
      refine ⟨fun hd => (by cases hd), ?_⟩
      rintro ⟨j, hj, hbj⟩
      obtain rfl := h.wf.uniq j i (h.dev j (h.dirty j hj)) hdev hbj
      rw [hdt] at hj
      cases hj
  | store p i d c c' hc ht hs he =>
    subst he
    have hsafe := h.safe p
    rw [hc] at hsafe
    obtain ⟨hl, hsafe⟩ := hs _ hsafe
    have hdev := h.wf.dev_of_pos (h.wf.pos_of_lock hl)
    have hv := h.loaded i p hl (by rw [hc]; simp)
    have hlk : ∀ j, (Function.update t.s.buf i { t.s.buf i with data := d } j).lock =
      (t.s.buf j).lock := update_field Buf.lock rfl
    rw [Traced.mark, ht]
    refine h.change (p := p) (i := i) (c := .code c') hw rfl rfl rfl rfl (fun n hn => ?_) (fun j hj => ?_)
      (fun _ _ => rfl) (fun _ _ => Iff.rfl) (fun _ _ => Iff.rfl) (fun q hq hlq => ?_) ?_ (fun j hj => ?_)
      (fun _ => hv) (fun _ _ _ => hv) (fun _ => ⟨by rw [hl]; rfl, hv⟩) (fun _ => ?_) (fun hn => ?_)
      ?_ hdev
    · simp only [setCode_buf, State.store, setBuf_buf, Function.update_self]
      exact Function.update_of_ne hn _ _
    · exact Function.update_of_ne hj _ _
    · rw [hl] at hlq
      cases hlq
      exact absurd rfl hq
    · have h1 : {j | (t.s.buf j).lock = some p ∧ Function.update t.unsaved i true j = true} =
          insert i {j | (t.s.buf j).lock = some p ∧ t.unsaved j = true} := by
        ext j
        by_cases hj : j = i
        · subst hj
          simp [hl]
        · simp [hj]
      simp only [setCode_buf, State.store, setBuf_buf, hlk, h1]
      exact hsafe
    · rw [hc]
      simp
    · simp [State.store]
    · have := (hn hv).2
      simp at this
    · rw [h.pinned]
      refine ⟨fun hd => ⟨i, hd, rfl⟩, ?_⟩
      rintro ⟨j, hj, hbj⟩
      obtain rfl := h.wf.uniq j i (h.dev j (h.dirty j hj)) hdev hbj
      exact hj
  | write p i k ha hc hl he =>
    subst he ha
    have hdev := h.wf.dev_of_pos (h.wf.pos_of_lock hl)
    have hv := h.loaded i p hl (by rw [hc]; simp)
    have hsafe := h.safe p
    rw [hc] at hsafe
    have hlk : ∀ j, (Function.update t.s.buf i { t.s.buf i with
      valid := true, dirty := false } j).lock = (t.s.buf j).lock := update_field Buf.lock rfl
    have ht : touch t.s (.run p) = .writes i := touch_run hc
    rw [Traced.mark, ht]
    refine h.change (p := p) (i := i) (c := .code k) hw rfl rfl rfl rfl (fun n hn => rfl) (fun j hj => ?_)
      (fun n hn => ?_) (fun n hn => ?_) (fun _ _ => Iff.rfl) (fun q hq hlq => ?_) ?_ (fun j hj => ?_)
      (fun _ => rfl) (fun _ _ _ => rfl) (fun _ => ⟨by rw [hl]; rfl, rfl⟩) (fun _ => h.data i hv)
      (fun hn => ?_) ?_ hdev
    · exact Function.update_of_ne hj _ _
    · exact Function.update_of_ne hn _ _
    · simp only [setCode_buf, setBuf_buf, Function.update_self]
      exact Finset.mem_erase.trans (and_iff_right hn)
    · rw [hl] at hlq
      cases hlq
      exact absurd rfl hq
    · have h1 : {j | (t.s.buf j).lock = some p ∧ Function.update t.unsaved i false j = true} =
          {j | (t.s.buf j).lock = some p ∧ t.unsaved j = true} \ {i} := by
        ext j
        by_cases hj : j = i
        · subst hj
          simp
        · simp [hj]
      simp only [setCode_buf, setBuf_buf, hlk, h1]
      exact hsafe
    · rw [hc]
      simp
    · simpa [State.setCode, State.setCont] using h.data i hv
    · simp
  | unlock p i k ha hc hl he =>
    subst he ha
    have hdev := h.wf.dev_of_pos (h.wf.pos_of_lock hl)
    have hv := h.loaded i p hl (by rw [hc]; simp)
    have hsafe := h.safe p
    rw [hc] at hsafe
    obtain ⟨hu, hsafe⟩ := hsafe
    have hun : t.unsaved i = false := by
      by_contra hu'
      exact hu ⟨hl, by simpa using hu'⟩
    rw [mark_nothing (by rw [touch_run hc]; rfl)]
    refine h.retable (i := i) (p := p) hw rfl rfl rfl rfl (fun q hq => ?_) ?_ (by rw [hc]; rfl)
      (fun q hq => ?_) (fun hu' => ?_) hdev
    · simp [hl, Ne.symm hq]
    · have h1 : {j | (Function.update t.s.buf i { t.s.buf i with lock := none } j).lock = some p} =
          {j | (t.s.buf j).lock = some p} \ {i} := by
        ext j
        by_cases hj : j = i
        · subst hj
          simp
        · simp [hj]
      have h2 : {j | (Function.update t.s.buf i { t.s.buf i with lock := none } j).lock = some p ∧
          t.unsaved j = true} = {j | (t.s.buf j).lock = some p ∧ t.unsaved j = true} := by
        ext j
        by_cases hj : j = i
        · subst hj
          simp [hun]
        · simp [hj]
      simp only [setCont_buf, setBuf_buf, h1, h2]
      exact hsafe
    · cases hq
    · rw [hun] at hu'
      cases hu'
  | decref p i k ha hc he =>
    subst he ha
    have hpos := h.wf.pos_of_waits (i := i) (p := p) (by rw [hc]; rfl)
    have hsafe := h.safe p
    rw [hc] at hsafe
    have hlk : ∀ j, (Function.update t.s.buf i { t.s.buf i with
      refcnt := (t.s.buf i).refcnt - 1 } j).lock = (t.s.buf j).lock := update_field Buf.lock rfl
    rw [mark_nothing (by rw [touch_run hc]; rfl)]
    refine h.retable (i := i) (p := p) (c := .code k) hw decref_buf ?_ ?_ rfl (fun _ _ => Iff.rfl) ?_
      (by rw [hc]; rfl) (fun q hl hf => h.loaded i q hl fun hf' => ?_) (fun hu => (h.unsaved i hu).1)
      (h.wf.dev_of_pos hpos)
    · rw [setCode_cont, decref_frame.1]
    · exact decref_frame.2.1
    · simp only [setCode_buf, decref_buf, hlk]
      exact hsafe
    · by_cases hqp : q = p
      · subst hqp
        rw [hc] at hf'
        cases hf'
      · exact hf (by rw [setCode_cont, Function.update_of_ne hqp, decref_frame.1]; exact hf')
  | append p i lh ha hc hr he =>
    subst he ha
    have hsafe := h.safe p
    rw [hc] at hsafe
    have hl : (t.s.buf i).lock = some p := hsafe
    have hdev := h.wf.dev_of_pos (h.wf.pos_of_lock hl)
    have hv := h.loaded i p hl (by rw [hc]; simp)
    have ht : touch t.s (.run p) = .logs i := touch_run hc
    rw [Traced.mark, ht]
    refine h.change (p := p) (i := i) (c := .code .caller) hw rfl rfl rfl rfl (fun n hn => rfl)
      (fun j hj => ?_) (fun n hn => rfl) (fun n hn => ?_) (fun _ _ => Iff.rfl) (fun q hq hlq => ?_)
      trivial (fun j hj => ?_) (fun _ => hv) (fun _ _ _ => hv) (fun _ => ⟨by rw [hl]; rfl, hv⟩)
      (fun _ => h.data i hv) (fun hn => ?_) ?_ hdev
    · exact Function.update_of_ne hj _ _
    · simp only [setCode_buf, setBuf_buf, Function.update_self]
      exact Finset.mem_insert.trans (or_iff_right hn)
    · rw [hl] at hlq
      cases hlq
      exact absurd rfl hq
    · rw [hc]
      simp
    · have := (hn hv).1
      cases this
    · simp

/-- **Coherence is kept by every step.** -/
theorem step (h : Coherent t) (hg : Saves t a) (hs : t.step a = .ok t') : Coherent t' := by
  obtain ⟨s', hs1, h'⟩ := bind_ok.mp hs
  cases h'
  have hm := h.mark hg (step_effect h.wf.linked hs1)
  exact ⟨hm.wf, hm.safe, hm.dev, hm.dirty, hm.loaded, hm.unsaved, hm.data, hm.disk, hm.pinned⟩

omit [DecidableEq P] in
theorem init (disk : Nat → Block) : Coherent (.init disk : Traced P) where
  wf := .init disk
  safe _ := trivial
  dev i hi := by cases hi
  dirty i hi := by cases hi
  loaded i p hl := by cases hl
  unsaved i hi := by cases hi
  data i hi := by cases hi
  disk _ _ := rfl
  pinned b := by simp [Traced.init, State.init, Buf.init]

end Coherent

/-- The states that runs reach in which callers save what they store. -/
abbrev Reachable (disk : Nat → Block) : Traced P → Prop := Reach Traced.step Saves (.init disk)

theorem Coherent.reachable {disk : Nat → Block} (h : Reachable disk t) : Coherent t :=
  h.invariant (.init disk) fun _ _ _ ht hg hs => ht.step hg hs

end

end Xv6.Bio
