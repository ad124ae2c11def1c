import Xv6.Bio.Model

/-!
# Steps of the cache

What a step can do to the cache, said once (`Effect`), and the invariant of the
table: the list holds every buffer, a block has one buffer, and `refcnt` counts
the processes that have the buffer or are about to lock it or give it back.
-/

namespace Xv6.Bio

open Lib Fs Log

variable {P : Type}

/-! ## What the code is going to do -/

/-- A process with this code, the locks of `held` and the modified buffers `fresh`,
stores into what it has locked only, and writes a buffer before it releases it. -/
def Code.Safe : Code → Set BufId → Set BufId → Prop
  | .bread _ k, held, fresh => ∀ i, i ∉ held → i ∉ fresh → (k i).Safe (insert i held) fresh
  | .memmove dst _ k, held, fresh => dst ∈ held ∧ k.Safe held (insert dst fresh)
  | .putHead i k, held, fresh => i ∈ held ∧ k.Safe held (insert i fresh)
  | .bwrite i k, held, fresh => k.Safe held (fresh \ {i})
  | .brelse i k, held, fresh => i ∉ fresh ∧ k.Safe (held \ {i}) fresh
  | .append i, held, _ => i ∈ held
  | _, _, _ => True

theorem Code.writeHead_safe (k : Code) (held fresh : Set BufId)
    (hk : ∀ held fresh, k.Safe held fresh) : (writeHead k).Safe held fresh := by
  intro i _ _
  exact ⟨Set.mem_insert _ _, by simp, hk _ _⟩

theorem Code.writeLogBody_safe (lh : LogHeader) (tail : Nat) (held fresh : Set BufId) :
    (writeLogBody lh tail).Safe held fresh := by
  intro dst hd hdf src hs hsf
  simp only [Set.mem_insert_iff, not_or] at hs
  refine ⟨by simp, ?_, ?_, trivial⟩
  · simp [hs.1, hsf]
  · simp

theorem Code.installBody_safe (lh : LogHeader) (tail : Nat) (held fresh : Set BufId) :
    (installBody lh tail).Safe held fresh := by
  intro lbuf hl hlf dbuf hd hdf
  simp only [Set.mem_insert_iff, not_or] at hd
  refine ⟨by simp, ?_, ?_, trivial⟩
  · simp [Ne.symm hd.1, hlf]
  · simp

/-- The buffer that a process is about to lock, or to give back. -/
def Cont.waits : Cont → Option BufId
  | .acquiresleep _ i _ | .decref i _ => some i
  | _ => none

/-- The block asked for in `bread`, and the buffer that `bget` chose. -/
def Cont.asks : Cont → Option (Nat × BufId)
  | .acquiresleep b i _ | .fill b i _ => some (b, i)
  | _ => none

/-- The buffer that a process is about to test for `B_VALID`. -/
def Cont.fills : Cont → Option BufId
  | .fill _ i _ => some i
  | _ => none

@[simp] theorem waits_code (c : Code) : (Cont.code c).waits = none := rfl
@[simp] theorem asks_code (c : Code) : (Cont.code c).asks = none := rfl
@[simp] theorem fills_code (c : Code) : (Cont.code c).fills = none := rfl

/-! ## Effects -/

/-- The block an action writes in a buffer, or to the disk, or in the log. -/
inductive Touch where
  | nothing
  | stores (i : BufId)
  | writes (i : BufId)
  | logs (i : BufId)
  deriving DecidableEq

def Code.touch : Code → Touch
  | .memmove i _ _ | .putHead i _ => .stores i
  | .bwrite i _ => .writes i
  | .append i => .logs i
  | _ => .nothing

def Cont.touch : Cont → Touch
  | .code c => c.touch
  | _ => .nothing

def touch (s : State P) : Action P → Touch
  | .call _ (.modify i _) => .stores i
  | .call _ _ => .nothing
  | .run p => (s.cont p).touch

variable [DecidableEq P]

inductive Effect (s : State P) (a : Action P) (s' : State P) : Prop where
  /-- control, and what concerns the log alone -/
  | control (p : P) (c c' : Code) (hc : s.cont p = .code c)
      (hs : ∀ fresh, c'.Safe {i | (s.buf i).lock = some p} fresh) (ht : touch s a = .nothing)
      (hb : s'.buf = s.buf) (hl : s'.links = s.links) (hd : s'.disk = s.disk)
      (he : s'.cont = Function.update s.cont p (.code c'))
  | brelse (p : P) (i : BufId) (ha : a = .call p (.brelse i)) (hc : s.cont p = .code .caller)
      (he : s' = s.setCode p (.brelse i .caller))
  | hit (p : P) (b : Nat) (k : BufId → Code) (i : BufId) (ha : a = .run p)
      (hc : s.cont p = .code (.bread b k)) (hi : s.caches ROOTDEV b i = true)
      (he : s' = (s.setBuf i { s.buf i with refcnt := (s.buf i).refcnt + 1 }).setCont p
        (.acquiresleep b i (k i)))
  | recycle (p : P) (b : Nat) (k : BufId → Code) (i : BufId) (ha : a = .run p)
      (hc : s.cont p = .code (.bread b k)) (hm : ∀ j, s.caches ROOTDEV b j = false)
      (hu : s.unused i = true)
      (he : s' = (s.setBuf i { s.buf i with
        dev := ROOTDEV, blockno := b, valid := false, dirty := false, refcnt := 1 }).setCont p
          (.acquiresleep b i (k i)))
  | lock (p : P) (b : Nat) (i : BufId) (k : Code) (ha : a = .run p)
      (hc : s.cont p = .acquiresleep b i k) (hl : (s.buf i).lock = none)
      (he : s' = (s.setBuf i { s.buf i with lock := some p }).setCont p (.fill b i k))
  | valid (p : P) (b : Nat) (i : BufId) (k : Code) (ha : a = .run p)
      (hc : s.cont p = .fill b i k) (hv : (s.buf i).valid = true) (he : s' = s.setCode p k)
  | load (p : P) (b : Nat) (i : BufId) (k : Code) (d : Block) (disk : Nat → Block) (ha : a = .run p)
      (hc : s.cont p = .fill b i k) (hv : (s.buf i).valid = false)
      (hd : (s.buf i).dirty = false → d = s.disk (s.buf i).blockno ∧ disk = s.disk)
      (he : s' = { s.setBuf i { s.buf i with valid := true, dirty := false, data := d } with
        disk := disk }.setCode p k)
  | store (p : P) (i : BufId) (d : Block) (c c' : Code) (hc : s.cont p = .code c)
      (ht : touch s a = .stores i)
      (hs : ∀ fresh, c.Safe {i | (s.buf i).lock = some p} fresh →
        (s.buf i).lock = some p ∧ c'.Safe {i | (s.buf i).lock = some p} (insert i fresh))
      (he : s' = (s.store i d).setCode p c')
  | write (p : P) (i : BufId) (k : Code) (ha : a = .run p) (hc : s.cont p = .code (.bwrite i k))
      (hl : (s.buf i).lock = some p)
      (he : s' = { s.setBuf i { s.buf i with valid := true, dirty := false } with
        disk := Function.update s.disk (s.buf i).blockno (s.buf i).data }.setCode p k)
  | unlock (p : P) (i : BufId) (k : Code) (ha : a = .run p) (hc : s.cont p = .code (.brelse i k))
      (hl : (s.buf i).lock = some p)
      (he : s' = (s.setBuf i { s.buf i with lock := none }).setCont p (.decref i k))
  | decref (p : P) (i : BufId) (k : Code) (ha : a = .run p) (hc : s.cont p = .decref i k)
      (he : s' = (s.decref i).setCode p k)
  | append (p : P) (i : BufId) (lh : LogHeader) (ha : a = .run p) (hc : s.cont p = .code (.append i))
      (hr : s.lh.record (s.buf i).blockno = some lh)
      (he : s' = { s.setBuf i { s.buf i with dirty := true } with lh := lh }.setCode p .caller)

section
variable {s s' : State P} {p : P} {i : BufId} {l : List BufId}

/-- The list from `bcache.head` holds every buffer. -/
def Linked (s : State P) : Prop := ∃ l, Ring s.links l ∧ ∀ i, i ∈ l

omit [DecidableEq P] in
theorem length_le_of_ring (h : Ring s.links l) : l.length ≤ NBUF := by
  have := h.nodup.length_le_card
  simpa using this

omit [DecidableEq P] in
/-- `bget` finds the block, or else takes an unused buffer, or else panics. -/
theorem bget_cases (h : Linked s) (b : Nat) :
    (∃ i, s.caches ROOTDEV b i = true ∧ s.bget ROOTDEV b =
      .ok (i, s.setBuf i { s.buf i with refcnt := (s.buf i).refcnt + 1 })) ∨
    ((∀ j, s.caches ROOTDEV b j = false) ∧ ∃ i, s.unused i = true ∧ s.bget ROOTDEV b =
      .ok (i, s.setBuf i { s.buf i with
        dev := ROOTDEV, blockno := b, valid := false, dirty := false, refcnt := 1 })) ∨
    ((∀ j, s.caches ROOTDEV b j = false) ∧ (∀ j, s.unused j = false) ∧
      s.bget ROOTDEV b = .error (.panic "bget: no buffers")) := by
  obtain ⟨l, hr, hl⟩ := h
  have hlen := length_le_of_ring hr
  have hn : walk s.links.next (s.caches ROOTDEV b) NBUF (s.links.next none) = _ := hr.walk_next hlen
  have hp : walk s.links.prev s.unused NBUF (s.links.prev none) = _ := hr.walk_prev hlen
  rw [State.bget, hn, hp]
  cases hf : l.find? (s.caches ROOTDEV b) with
  | some i => exact .inl ⟨i, List.find?_some hf, rfl⟩
  | none =>
    have hm : ∀ j, s.caches ROOTDEV b j = false := fun j => by
      simpa using List.find?_eq_none.mp hf j (hl j)
    cases hg : l.reverse.find? s.unused with
    | some i => exact .inr (.inl ⟨hm, i, List.find?_some hg, rfl⟩)
    | none =>
      refine .inr (.inr ⟨hm, fun j => ?_, rfl⟩)
      simpa using List.find?_eq_none.mp hg j (List.mem_reverse.mpr (hl j))

theorem setCode_self {c : Code} (hc : s.cont p = .code c) : s.setCode p c = s := by
  simp [State.setCode, State.setCont, ← hc]

/-- `bread`, past `bget`: the buffer is valid, or is read from the disk. -/
theorem fill_ok (h : s.fill p i = .ok s') : ((s.buf i).valid = true ∧ s' = s) ∨
    ((s.buf i).valid = false ∧ ∃ d disk,
      ((s.buf i).dirty = false → d = s.disk (s.buf i).blockno ∧ disk = s.disk) ∧
      s' = { s.setBuf i { s.buf i with valid := true, dirty := false, data := d } with
        disk := disk }) := by
  unfold State.fill at h
  split at h
  · next hv =>
    cases h
    exact .inl ⟨hv, rfl⟩
  · next hv =>
    have hv : (s.buf i).valid = false := by simpa using hv
    simp only [State.iderw] at h
    split at h
    · cases h
    · split at h
      · cases h
      · split at h
        · cases h
        · refine .inr ⟨hv, ?_⟩
          split at h
          · next hd =>
            cases h
            refine ⟨(s.buf i).data, Function.update s.disk (s.buf i).blockno (s.buf i).data,
              fun hd' => ?_, rfl⟩
            rw [hd] at hd'
            cases hd'
          · next hd =>
            cases h
            refine ⟨s.disk (s.buf i).blockno, s.disk, fun _ => ⟨rfl, rfl⟩, ?_⟩
            simp only [Bool.not_eq_true] at hd
            simp [State.setBuf, hd]

theorem fill_effect {b : Nat} {k : Code} (hc : s.cont p = .fill b i k)
    (h : s.fill p i = .ok s') : Effect s (.run p) (s'.setCode p k) := by
  rcases fill_ok h with ⟨hv, rfl⟩ | ⟨hv, d, disk, hd, rfl⟩
  · exact .valid p b i k rfl hc hv rfl
  · exact .load p b i k d disk rfl hc hv hd rfl

theorem bwrite_ok (h : s.bwrite p i = .ok s') : (s.buf i).lock = some p ∧
    s' = { s.setBuf i { s.buf i with valid := true, dirty := false } with
      disk := Function.update s.disk (s.buf i).blockno (s.buf i).data } := by
  simp only [State.bwrite, State.iderw, State.holdingsleep] at h
  split at h
  · cases h
  · next hh =>
    have hh : (s.buf i).lock = some p := by simpa using hh
    split at h
    · cases h
    · split at h
      · cases h
      · split at h
        · cases h
        · refine ⟨hh, ?_⟩
          simp [State.setBuf] at h
          rw [← h]
          simp [State.setBuf]

theorem call_effect {c : Call} (hc : s.cont p = .code .caller) (h : call s p c = .ok s') :
    Effect s (.call p c) s' := by
  have hstay : ∀ {t : State P}, t.buf = s.buf → t.links = s.links → t.disk = s.disk →
      t.cont = s.cont → touch s (.call p c) = .nothing → Effect s (.call p c) t := by
    intro t hb hl hd he ht
    refine .control p .caller .caller hc (fun _ => trivial) ht hb hl hd ?_
    rw [he, ← hc, Function.update_eq_self]
  cases c with
  | begin_op =>
    simp only [call, State.begin_op] at h
    split at h
    · cases h
    · cases h
      split
      · exact hstay rfl rfl rfl rfl rfl
      · split
        · exact hstay rfl rfl rfl rfl rfl
        · exact hstay rfl rfl rfl rfl rfl
  | bread b =>
    cases h
    exact .control p .caller (.bread b fun _ => .caller) hc (fun _ _ _ _ => trivial)
      rfl rfl rfl rfl rfl
  | modify i d =>
    simp only [call] at h
    split at h
    · next hh =>
      cases h
      have hh : (s.buf i).lock = some p := by simpa [State.holdingsleep] using hh
      exact .store p i d .caller .caller hc rfl (fun _ _ => ⟨hh, trivial⟩)
        (setCode_self (s := s.store i d) hc).symm
    · cases h
  | log_write i =>
    simp only [call, State.log_write] at h
    split at h
    · next hh =>
      split at h
      · cases h
      · split at h
        · cases h
        · cases h
          have hh : (s.buf i).lock = some p := by simpa [State.holdingsleep] using hh.2
          exact .control p .caller (.append i) hc (fun _ => hh) rfl rfl rfl rfl rfl
    · cases h
  | bwrite i =>
    cases h
    exact .control p .caller (.bwrite i .caller) hc (fun _ => trivial) rfl rfl rfl rfl rfl
  | brelse i =>
    cases h
    exact .brelse p i rfl hc rfl
  | end_op =>
    simp only [call, State.end_op] at h
    split at h
    · split at h
      · cases h
      · split at h
        · cases h
          exact .control p .caller .commit hc (fun _ => trivial) rfl rfl rfl rfl rfl
        · cases h
          exact hstay rfl rfl rfl rfl rfl
    · cases h

theorem exec_effect (hr : Linked s) {c : Code} (hc : s.cont p = .code c)
    (h : s.exec p c = .ok s') : Effect s (.run p) s' := by
  have ht : touch s (.run p) = c.touch := by rw [touch, hc, Cont.touch]
  cases c with
  | caller => cases h
  | bread b k =>
    obtain ⟨⟨i, t⟩, hb, h⟩ := bind_ok.mp h
    cases h
    rcases bget_cases hr b with ⟨i', hi, e⟩ | ⟨hm, i', hu, e⟩ | ⟨-, -, e⟩
    · rw [e] at hb; cases hb
      exact .hit p b k i rfl hc hi rfl
    · rw [e] at hb; cases hb
      exact .recycle p b k i rfl hc hm hu rfl
    · rw [e] at hb; cases hb
  | memmove dst src k =>
    cases h
    exact .store p dst _ _ k hc ht (fun _ h => h) rfl
  | putHead i k =>
    cases h
    exact .store p i _ _ k hc ht (fun _ h => h) rfl
  | bwrite i k =>
    obtain ⟨t, hb, h⟩ := bind_ok.mp h
    cases h
    obtain ⟨hl, rfl⟩ := bwrite_ok hb
    exact .write p i k rfl hc hl rfl
  | brelse i k =>
    obtain ⟨t, hb, h⟩ := bind_ok.mp h
    cases h
    rw [State.brelse] at hb
    split at hb
    · cases hb
    · next hh =>
      cases hb
      exact .unlock p i k rfl hc (by simpa [State.holdingsleep] using hh) rfl
  | append i =>
    obtain ⟨t, hb, h⟩ := bind_ok.mp h
    cases h
    simp only [State.append] at hb
    split at hb
    · next lh hlh =>
      cases hb
      exact .append p i lh rfl hc hlh rfl
    · cases hb
  | commit =>
    cases h
    refine .control p .commit _ hc (fun _ => ?_) ht rfl rfl rfl rfl
    split <;> trivial
  | writeLog tail =>
    cases h
    refine .control p (.writeLog tail) _ hc (fun _ => ?_) ht rfl rfl rfl rfl
    split
    · exact Code.writeLogBody_safe _ _ _ _
    · exact Code.writeHead_safe _ _ _ fun _ _ => trivial
  | installTrans tail =>
    cases h
    refine .control p (.installTrans tail) _ hc (fun _ => ?_) ht rfl rfl rfl rfl
    split
    · exact Code.installBody_safe _ _ _ _
    · trivial
  | clear =>
    cases h
    exact .control p .clear _ hc (fun _ => Code.writeHead_safe .committed _ _ fun _ _ => trivial) ht
      rfl rfl rfl rfl
  | committed =>
    cases h
    exact .control p .committed .caller hc (fun _ => trivial) ht rfl rfl rfl rfl

/-- **What a step can do.** -/
theorem step_effect (hr : Linked s) {a : Action P} (h : step s a = .ok s') : Effect s a s' := by
  cases a with
  | call p c =>
    simp only [step] at h
    split at h
    · next hc => exact call_effect hc h
    · cases h
  | run p =>
    simp only [step] at h
    cases hc : s.cont p with
    | code c =>
      rw [hc] at h
      exact exec_effect hr hc h
    | acquiresleep b i k =>
      rw [hc] at h
      obtain ⟨t, hb, h⟩ := bind_ok.mp h
      cases h
      simp only [State.acquiresleep] at hb
      split at hb
      · next hl =>
        cases hb
        exact .lock p b i k rfl hc hl rfl
      · cases hb
    | fill b i k =>
      rw [hc] at h
      obtain ⟨t, hb, h⟩ := bind_ok.mp h
      cases h
      exact fill_effect hc hb
    | decref i k =>
      rw [hc] at h
      cases h
      exact .decref p i k rfl hc rfl

/-! ## The table -/

/-- The processes about to lock a buffer or to give it back. -/
def Waiting (cont : P → Cont) (i : BufId) : Set P := {p | (cont p).waits = some i}

omit [DecidableEq P] in
theorem mem_waiting {cont : P → Cont} : p ∈ Waiting cont i ↔ (cont p).waits = some i := Iff.rfl

theorem waiting_keep {cont : P → Cont} {c : Cont} (h : c.waits = (cont p).waits) :
    Waiting (Function.update cont p c) i = Waiting cont i := by
  ext q
  rw [mem_waiting, mem_waiting]
  by_cases hq : q = p
  · subst hq
    rw [Function.update_self, h]
  · rw [Function.update_of_ne hq]

theorem waiting_join {cont : P → Cont} {c : Cont} (h : c.waits = some i) (h' : (cont p).waits = none)
    (j : BufId) : (Waiting (Function.update cont p c) j).encard =
      (Waiting cont j).encard + if j = i then 1 else 0 := by
  by_cases hj : j = i
  · subst hj
    have hp : p ∉ Waiting cont j := fun hp => by rw [mem_waiting, h'] at hp; cases hp
    have hi : Waiting (Function.update cont p c) j = insert p (Waiting cont j) := by
      ext q
      rw [mem_waiting, Set.mem_insert_iff, mem_waiting]
      by_cases hq : q = p
      · subst hq
        simp [h]
      · rw [Function.update_of_ne hq]
        simp [hq]
    rw [hi, Set.encard_insert_of_notMem hp, if_pos rfl]
  · have hk : Waiting (Function.update cont p c) j = Waiting cont j := by
      ext q
      rw [mem_waiting, mem_waiting]
      by_cases hq : q = p
      · subst hq
        rw [Function.update_self, h, h']
        simp [Ne.symm hj]
      · rw [Function.update_of_ne hq]
    rw [hk, if_neg hj, add_zero]

theorem waiting_leave {cont : P → Cont} {c : Cont} (h : c.waits = none) (h' : (cont p).waits = some i)
    (j : BufId) : (Waiting cont j).encard =
      (Waiting (Function.update cont p c) j).encard + if j = i then 1 else 0 := by
  have : (Waiting (Function.update (Function.update cont p c) p (cont p)) j).encard =
      (Waiting (Function.update cont p c) j).encard + if j = i then 1 else 0 :=
    waiting_join h' (by simp [h]) j
  rwa [Function.update_idem, Function.update_eq_self] at this

structure Wf (s : State P) : Prop where
  linked : Linked s
  blank : ∀ i, (s.buf i).dev ≠ ROOTDEV → (s.buf i).refcnt = 0
  uniq : ∀ i j, (s.buf i).dev = ROOTDEV → (s.buf j).dev = ROOTDEV →
    (s.buf i).blockno = (s.buf j).blockno → i = j
  refs : ∀ i, ((s.buf i).refcnt : ℕ∞) =
    (Waiting s.cont i).encard + if (s.buf i).lock.isSome then 1 else 0
  fills : ∀ p i, (s.cont p).fills = some i → (s.buf i).lock = some p
  asked : ∀ p b i, (s.cont p).asks = some (b, i) → (s.buf i).blockno = b

namespace Wf

omit [DecidableEq P] in
theorem pos_of_waits (h : Wf s) (hp : (s.cont p).waits = some i) : 0 < (s.buf i).refcnt := by
  rw [Nat.pos_iff_ne_zero]
  intro h0
  have hr := h.refs i
  rw [h0, Nat.cast_zero, eq_comm, add_eq_zero, Set.encard_eq_zero] at hr
  have : p ∈ Waiting s.cont i := hp
  rw [hr.1] at this
  exact this

omit [DecidableEq P] in
theorem pos_of_lock (h : Wf s) (hp : (s.buf i).lock = some p) : 0 < (s.buf i).refcnt := by
  rw [Nat.pos_iff_ne_zero]
  intro h0
  have hr := h.refs i
  rw [h0, hp, Nat.cast_zero, eq_comm, add_eq_zero] at hr
  simp at hr

omit [DecidableEq P] in
theorem dev_of_pos (h : Wf s) (hp : 0 < (s.buf i).refcnt) : (s.buf i).dev = ROOTDEV := by
  by_contra hd
  rw [h.blank i hd] at hp
  exact Nat.lt_irrefl 0 hp

/-- A step that leaves `dev` and `blockno` of every buffer. -/
theorem next (h : Wf s) {c : Cont} (hl : Linked s')
    (hdev : ∀ i, (s'.buf i).dev = (s.buf i).dev) (hblk : ∀ i, (s'.buf i).blockno = (s.buf i).blockno)
    (hpos : ∀ i, (s.buf i).dev ≠ ROOTDEV → (s'.buf i).refcnt = (s.buf i).refcnt)
    (hrefs : ∀ i, ((s'.buf i).refcnt : ℕ∞) =
      (Waiting s'.cont i).encard + if (s'.buf i).lock.isSome then 1 else 0)
    (he : s'.cont = Function.update s.cont p c)
    (hlock : ∀ q i, q ≠ p → (s.buf i).lock = some q → (s'.buf i).lock = some q)
    (hfills : ∀ i, c.fills = some i → (s'.buf i).lock = some p)
    (hasks : ∀ b i, c.asks = some (b, i) → (s.buf i).blockno = b) : Wf s' where
  linked := hl
  blank i hd := by
    rw [hdev] at hd
    rw [hpos i hd, h.blank i hd]
  uniq i j hi hj hb := by
    rw [hdev] at hi hj
    rw [hblk, hblk] at hb
    exact h.uniq i j hi hj hb
  refs := hrefs
  fills q i hq := by
    rw [he] at hq
    by_cases hqp : q = p
    · subst hqp
      rw [Function.update_self] at hq
      exact hfills i hq
    · rw [Function.update_of_ne hqp] at hq
      exact hlock q i hqp (h.fills q i hq)
  asked q b i hq := by
    rw [he] at hq
    rw [hblk]
    by_cases hqp : q = p
    · subst hqp
      rw [Function.update_self] at hq
      exact hasks b i hq
    · rw [Function.update_of_ne hqp] at hq
      exact h.asked q b i hq

/-- A step that leaves what the table says of every buffer. -/
theorem keep (h : Wf s) {c : Cont} (hl : s'.links = s.links)
    (hdev : ∀ i, (s'.buf i).dev = (s.buf i).dev) (hblk : ∀ i, (s'.buf i).blockno = (s.buf i).blockno)
    (href : ∀ i, (s'.buf i).refcnt = (s.buf i).refcnt)
    (hlock : ∀ i, (s'.buf i).lock = (s.buf i).lock)
    (he : s'.cont = Function.update s.cont p c) (hw : (s.cont p).waits = c.waits)
    (hfills : c.fills = none) (hasks : c.asks = none) : Wf s' := by
  refine h.next (c := c) (p := p) ?_ hdev hblk (fun i _ => href i) (fun i => ?_) he
    (fun q i _ hq => by rw [hlock, hq]) (fun i hi => by rw [hfills] at hi; cases hi)
    (fun b i hi => by rw [hasks] at hi; cases hi)
  · rw [Linked, hl]
    exact h.linked
  · rw [href, hlock, he, waiting_keep hw.symm]
    exact h.refs i

end Wf

omit [DecidableEq P] in
theorem linked_moved (h : Linked s) (i : BufId) :
    ∃ l, Ring ((s.links.unlink i).pushFront i) l ∧ ∀ j, j ∈ l := by
  obtain ⟨l, hr, hl⟩ := h
  obtain ⟨l₁, l₂, rfl⟩ := List.append_of_mem (hl i)
  refine ⟨i :: (l₁ ++ l₂), hr.unlink.pushFront ?_, fun j => ?_⟩
  · exact (List.nodup_cons.mp (List.nodup_middle.mp hr.nodup)).1
  · have := hl j
    simp only [List.mem_append, List.mem_cons] at this ⊢
    tauto

@[simp] theorem setCont_buf (c : Cont) : (s.setCont p c).buf = s.buf := rfl
@[simp] theorem setCont_cont (c : Cont) : (s.setCont p c).cont = Function.update s.cont p c := rfl
@[simp] theorem setCode_buf (c : Code) : (s.setCode p c).buf = s.buf := rfl
@[simp] theorem setCode_cont (c : Code) : (s.setCode p c).cont = Function.update s.cont p (.code c) := rfl
omit [DecidableEq P] in
@[simp] theorem setBuf_buf (b : Buf P) : (s.setBuf i b).buf = Function.update s.buf i b := rfl
omit [DecidableEq P] in
@[simp] theorem setBuf_cont (b : Buf P) : (s.setBuf i b).cont = s.cont := rfl

omit [DecidableEq P] in
/-- A field that an update of a buffer leaves is left in every buffer. -/
theorem update_field {α : Type} {b : Buf P} (f : Buf P → α) (h : f b = f (s.buf i)) (j : BufId) :
    f (Function.update s.buf i b j) = f (s.buf j) := by
  by_cases hj : j = i
  · subst hj
    rw [Function.update_self, h]
  · rw [Function.update_of_ne hj]

omit [DecidableEq P] in
theorem decref_buf : (s.decref i).buf =
    Function.update s.buf i { s.buf i with refcnt := (s.buf i).refcnt - 1 } := by
  simp only [State.decref]
  split <;> rfl

omit [DecidableEq P] in
theorem decref_frame : (s.decref i).cont = s.cont ∧ (s.decref i).disk = s.disk ∧
    (s.decref i).lh = s.lh := by
  simp only [State.decref]
  split <;> exact ⟨rfl, rfl, rfl⟩

omit [DecidableEq P] in
theorem decref_linked (h : Linked s) : Linked (s.decref i) := by
  simp only [State.decref]
  split
  · exact linked_moved h i
  · exact h

theorem sub_one_of_cast {n x : ℕ} {e : ℕ∞} (h : (n : ℕ∞) = e + 1 + x) :
    ((n - 1 : ℕ) : ℕ∞) = e + x := by
  have he : e ≠ ⊤ := by
    rintro rfl
    simp at h
  lift e to ℕ using he
  have hn : n = e + 1 + x := by exact_mod_cast h
  have : n - 1 = e + x := by omega
  exact_mod_cast this

theorem Wf.recycle (h : Wf s) {b : Nat} {k : Code} (hc : (s.cont p).waits = none)
    (hm : ∀ j, s.caches ROOTDEV b j = false) (hu : s.unused i = true) :
    Wf ((s.setBuf i { s.buf i with
      dev := ROOTDEV, blockno := b, valid := false, dirty := false, refcnt := 1 }).setCont p
        (.acquiresleep b i k)) := by
  have h0 : (s.buf i).refcnt = 0 := by
    have : (s.buf i).refcnt = 0 ∧ (s.buf i).dirty = false := by simpa [State.unused] using hu
    exact this.1
  have hm' : ∀ j, (s.buf j).dev = ROOTDEV → (s.buf j).blockno ≠ b := fun j hd => by
    simpa [State.caches, hd] using hm j
  have hr := h.refs i
  rw [h0, Nat.cast_zero, eq_comm, add_eq_zero, Set.encard_eq_zero] at hr
  have hlock : (s.buf i).lock = none := by
    cases hl : (s.buf i).lock with
    | none => rfl
    | some q => simp [hl] at hr
  refine ⟨h.linked, fun j hj => ?_, fun j j' hj hj' hb => ?_, fun j => ?_, fun q j hq => ?_,
    fun q b' j hq => ?_⟩
  · by_cases hji : j = i
    · subst hji
      simp at hj
    · simp only [setCont_buf, setBuf_buf, Function.update_of_ne hji] at hj ⊢
      exact h.blank j hj
  · by_cases hji : j = i
    · by_cases hji' : j' = i
      · rw [hji, hji']
      · subst hji
        simp only [setCont_buf, setBuf_buf, Function.update_self, Function.update_of_ne hji'] at hj' hb
        exact absurd hb.symm (hm' j' hj')
    · by_cases hji' : j' = i
      · subst hji'
        simp only [setCont_buf, setBuf_buf, Function.update_self, Function.update_of_ne hji] at hj hb
        exact absurd hb (hm' j hj)
      · simp only [setCont_buf, setBuf_buf, Function.update_of_ne hji, Function.update_of_ne hji']
          at hj hj' hb
        exact h.uniq j j' hj hj' hb
  · rw [setCont_cont, setBuf_cont, waiting_join rfl hc]
    by_cases hji : j = i
    · subst hji
      simp [hlock, hr.1]
    · simpa [hji] using h.refs j
  · by_cases hqp : q = p
    · subst hqp
      simp [Cont.fills] at hq
    · simp only [setCont_cont, setBuf_cont, Function.update_of_ne hqp] at hq
      have hl := h.fills q j hq
      by_cases hji : j = i
      · subst hji
        rw [hlock] at hl
        cases hl
      · simpa [hji] using hl
  · by_cases hqp : q = p
    · subst hqp
      simp only [setCont_cont, Function.update_self, Cont.asks, Option.some.injEq, Prod.mk.injEq] at hq
      obtain ⟨rfl, rfl⟩ := hq
      simp
    · simp only [setCont_cont, setBuf_cont, Function.update_of_ne hqp] at hq
      by_cases hji : j = i
      · -- nobody has asked for a buffer without references
        subst hji
        exfalso
        cases hcq : s.cont q with
        | acquiresleep b'' j' k' =>
          rw [hcq] at hq
          simp only [Cont.asks, Option.some.injEq, Prod.mk.injEq] at hq
          have hw : q ∈ Waiting s.cont j := by
            rw [mem_waiting, hcq, Cont.waits, hq.2]
          rw [hr.1] at hw
          exact hw
        | fill b'' j' k' =>
          rw [hcq] at hq
          simp only [Cont.asks, Option.some.injEq, Prod.mk.injEq] at hq
          have := h.fills q j (by rw [hcq, Cont.fills, hq.2])
          rw [hlock] at this
          cases this
        | code c => rw [hcq] at hq; cases hq
        | decref j' k' => rw [hcq] at hq; cases hq
      · simpa [hji] using h.asked q b' j hq

/-- **The table is kept by every step.** -/
theorem Wf.step (h : Wf s) {a : Action P} (he : Effect s a s') : Wf s' := by
  cases he with
  | control p c c' hc hs ht hb hl hd he =>
    exact h.keep hl (fun _ => by rw [hb]) (fun _ => by rw [hb]) (fun _ => by rw [hb])
      (fun _ => by rw [hb]) he (by rw [hc]; rfl) rfl rfl
  | brelse p i ha hc he =>
    subst he
    exact h.keep rfl (fun _ => rfl) (fun _ => rfl) (fun _ => rfl) (fun _ => rfl) rfl
      (by rw [hc]; rfl) rfl rfl
  | hit p b k i ha hc hi he =>
    subst he
    have hi : (s.buf i).dev = ROOTDEV ∧ (s.buf i).blockno = b := by simpa [State.caches] using hi
    refine h.next (p := p) (c := .acquiresleep b i (k i)) h.linked (update_field Buf.dev rfl)
      (update_field Buf.blockno rfl) (fun j hj => ?_) (fun j => ?_) rfl (fun q j _ hq => ?_)
      (fun j hj => by cases hj) fun b' j hj => ?_
    · have : j ≠ i := fun e => hj (e ▸ hi.1)
      simp [this]
    · rw [setCont_cont, setBuf_cont, waiting_join rfl (by rw [hc]; rfl)]
      by_cases hji : j = i
      · subst hji
        have := h.refs j
        simp only [setCont_buf, setBuf_buf, Function.update_self, Nat.cast_add, Nat.cast_one, this,
          if_true]
        ring
      · simpa [hji] using h.refs j
    · exact Eq.trans (update_field Buf.lock (by rfl) j) hq
    · cases hj
      exact hi.2
  | recycle p b k i ha hc hm hu he =>
    subst he
    exact h.recycle (by rw [hc]; rfl) hm hu
  | lock p b i k ha hc hl he =>
    subst he
    refine h.next (p := p) (c := .fill b i k) h.linked (update_field Buf.dev rfl)
      (update_field Buf.blockno rfl) (fun j _ => update_field Buf.refcnt (by rfl) j) (fun j => ?_) rfl
      (fun q j _ hq => ?_) (fun j hj => ?_) fun b' j hj => ?_
    · have := h.refs j
      rw [waiting_leave (c := .fill b i k) rfl (by rw [hc]; rfl)] at this
      rw [setCont_cont, setBuf_cont]
      by_cases hji : j = i
      · subst hji
        simpa [hl] using this
      · simpa [hji] using this
    · have hji : j ≠ i := by
        rintro rfl
        rw [hl] at hq
        cases hq
      simpa [hji] using hq
    · cases hj
      simp
    · exact h.asked p b' j (by rw [hc]; exact hj)
  | valid p b i k ha hc hv he =>
    subst he
    exact h.keep rfl (fun _ => rfl) (fun _ => rfl) (fun _ => rfl) (fun _ => rfl) rfl
      (by rw [hc]; rfl) rfl rfl
  | load p b i k d disk ha hc hv hd he =>
    subst he
    exact h.keep rfl (update_field Buf.dev rfl) (update_field Buf.blockno rfl)
      (update_field Buf.refcnt rfl) (update_field Buf.lock rfl) rfl (by rw [hc]; rfl) rfl rfl
  | store p i d c c' hc ht hs he =>
    subst he
    exact h.keep rfl (update_field Buf.dev rfl) (update_field Buf.blockno rfl)
      (update_field Buf.refcnt rfl) (update_field Buf.lock rfl) rfl (by rw [hc]; rfl) rfl rfl
  | write p i k ha hc hl he =>
    subst he
    exact h.keep rfl (update_field Buf.dev rfl) (update_field Buf.blockno rfl)
      (update_field Buf.refcnt rfl) (update_field Buf.lock rfl) rfl (by rw [hc]; rfl) rfl rfl
  | unlock p i k ha hc hl he =>
    subst he
    refine h.next (p := p) (c := .decref i k) h.linked (update_field Buf.dev rfl)
      (update_field Buf.blockno rfl) (fun j _ => update_field Buf.refcnt (by rfl) j) (fun j => ?_) rfl
      (fun q j hqp hq => ?_) (fun j hj => by cases hj) fun b' j hj => by cases hj
    · rw [setCont_cont, setBuf_cont, waiting_join rfl (by rw [hc]; rfl)]
      by_cases hji : j = i
      · subst hji
        simpa [hl] using h.refs j
      · simpa [hji] using h.refs j
    · have hji : j ≠ i := by
        rintro rfl
        rw [hl] at hq
        cases hq
        exact hqp rfl
      simpa [hji] using hq
  | decref p i k ha hc he =>
    subst he
    have hpos := h.pos_of_waits (i := i) (p := p) (by rw [hc]; rfl)
    refine h.next (p := p) (c := .code k) (decref_linked h.linked) (fun j => ?_) (fun j => ?_)
      (fun j hj => ?_) (fun j => ?_) ?_ (fun q j _ hq => ?_) (fun j hj => by cases hj)
      fun b' j hj => by cases hj
    · rw [setCode_buf, decref_buf]
      exact update_field Buf.dev (by rfl) j
    · rw [setCode_buf, decref_buf]
      exact update_field Buf.blockno (by rfl) j
    · have : j ≠ i := fun e => hj (e ▸ h.dev_of_pos hpos)
      rw [setCode_buf, decref_buf, Function.update_of_ne this]
    · have := h.refs j
      rw [waiting_leave (c := .code k) rfl (by rw [hc]; rfl)] at this
      rw [setCode_buf, decref_buf, setCode_cont, decref_frame.1]
      by_cases hji : j = i
      · subst hji
        rw [if_pos rfl] at this
        rw [Function.update_self]
        simpa using sub_one_of_cast (x := if (s.buf j).lock.isSome then 1 else 0) (by simpa using this)
      · simpa [hji] using this
    · rw [setCode_cont, decref_frame.1]
    · rw [setCode_buf, decref_buf]
      exact Eq.trans (update_field Buf.lock (by rfl) j) hq
  | append p i lh ha hc hr he =>
    subst he
    exact h.keep rfl (update_field Buf.dev rfl) (update_field Buf.blockno rfl)
      (update_field Buf.refcnt rfl) (update_field Buf.lock rfl) rfl (by rw [hc]; rfl) rfl rfl

omit [DecidableEq P] in
theorem Wf.init (disk : Nat → Block) : Wf (.init disk : State P) where
  linked := by
    have hr := (Ring.empty : Ring (.empty : LinkFields BufId) []).pushAll (List.nodup_finRange NBUF) fun _ _ => List.not_mem_nil
    exact ⟨_, hr, fun i => by simp⟩
  blank _ _ := rfl
  uniq i j hi := by cases hi
  refs i := by
    have hw : Waiting (State.init disk : State P).cont i = ∅ := by
      ext p
      simp [Waiting, State.init]
    rw [hw]
    simp [State.init, Buf.init]
  fills p i hp := by cases hp
  asked p b i hp := by cases hp

end

end Xv6.Bio
