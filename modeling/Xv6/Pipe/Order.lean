import Xv6.Pipe.Model

/-!
# Pipes: order and room

The bytes that `data` holds are those stored and not yet delivered, in order.
Each store and each take keeps this, however the counters wrap, and nothing else
touches the buffer.
-/

namespace Xv6.Pipe

open Lib

/-- The buffer holds `q`. -/
def Holds (s : State) (q : List UInt8) : Prop :=
  Fifo PIPESIZE (2 ^ 32) s.data s.nread s.nwrite q

/-- What is stored and not delivered is in the buffer. -/
def Inv (s : State) : Prop := ∃ q, Holds s q ∧ s.stored = s.delivered ++ q

theorem size_lt : PIPESIZE < 2 ^ 32 := by decide

theorem size_dvd : PIPESIZE ∣ 2 ^ 32 := ⟨2 ^ 23, by decide⟩

section
variable {s s' : State} {p : Nat} {n : Int}

theorem Inv.wakeup (h : Inv s) (c : Chan) : Inv (s.wakeup c) := h

theorem Inv.sleep (h : Inv s) (c : Chan) (k : Cont) : Inv (s.sleep p c k) := h

theorem Inv.sysret (h : Inv s) (v : Int) : Inv (s.sysret p v) := h

/-- A byte is stored when the buffer is not full. -/
theorem Inv.store (h : Inv s) (hfull : s.nwrite ≠ (s.nread + PIPESIZE) % 2 ^ 32) (b : UInt8) :
    Inv (s.store b) := by
  obtain ⟨q, hq, hst⟩ := h
  have hroom : q.length < PIPESIZE :=
    Nat.lt_of_le_of_ne hq.room fun e => hfull ((hq.full_iff size_lt).mpr e)
  refine ⟨q ++ [b], hq.push size_dvd hroom b, ?_⟩
  show s.stored ++ [b] = s.delivered ++ (q ++ [b])
  rw [hst, List.append_assoc]

/-- The byte that is taken is the first one not delivered. -/
theorem Inv.take (h : Inv s) (hne : s.nread ≠ s.nwrite) : Inv s.take := by
  obtain ⟨q, hq, hst⟩ := h
  cases q with
  | nil => exact absurd ((hq.empty_iff size_lt).mpr rfl) hne
  | cons a q =>
    obtain ⟨ha, hq'⟩ := hq.pop size_dvd (by decide)
    refine ⟨q, hq', ?_⟩
    show s.stored = (s.delivered ++ [s.data (s.nread % PIPESIZE)]) ++ q
    rw [ha, hst, List.append_assoc]
    rfl

theorem Inv.fill (h : Inv s) (bs : List UInt8) : Inv (s.fill p n bs) := by
  induction bs generalizing s with
  | nil => exact (h.wakeup _).sysret _
  | cons b bs ih =>
    rw [State.fill]
    split
    · split
      · exact h.sysret _
      · exact (h.wakeup _).sleep _ _
    · next hfull => exact ih (h.store hfull b)

theorem Inv.copy (h : Inv s) (k : Nat) : Inv (s.copy k).1 := by
  induction k generalizing s with
  | zero => exact h
  | succ k ih =>
    rw [State.copy]
    split
    · exact h
    · next hne => exact ih (h.take hne)

theorem Inv.drain (h : Inv s) : Inv (s.drain p n) := by
  unfold State.drain
  split
  · split
    · exact h.sysret _
    · exact h.sleep _ _
  · exact ((h.copy _).wakeup _).sysret _

theorem Inv.pipeclose (h : Inv s) (w : Bool) : Inv (s.pipeclose w) := by
  unfold State.pipeclose
  dsimp only
  split
  · split
    · exact h
    · exact h
  · split
    · exact h
    · exact h

theorem Inv.step (h : Inv s) {a : Action} (hs : Pipe.step s a = .ok s') : Inv s' := by
  cases a with
  | pipewrite p addr n =>
    simp only [Pipe.step] at hs
    split at hs
    · cases hs
    · split at hs
      · cases hs
      · cases hs; exact h.fill _
  | piperead p n =>
    simp only [Pipe.step] at hs
    split at hs
    · cases hs
    · split at hs
      · cases hs
      · cases hs; exact h.drain
  | resume p =>
    simp only [Pipe.step] at hs
    split at hs
    · cases hs
    · split at hs
      · cases hs
      · split at hs
        · cases hs
        · cases hs; exact h.fill _
        · cases hs; exact h.drain
  | pipeclose w =>
    simp only [Pipe.step] at hs
    split at hs
    · cases hs
    · cases hs; exact h.pipeclose w
  | kill p => cases hs; exact h

theorem inv_pipealloc (data : Nat → UInt8) (killed : Nat → Bool) : Inv (pipealloc data killed) :=
  ⟨[], Fifo.nil (Nat.two_pow_pos 32), rfl⟩

/-- A read section copies bytes unless the buffer is empty. -/
theorem copy_count (k : Nat) (hk : 0 < k) (h : (s.copy k).2 = 0) : s.nread = s.nwrite := by
  obtain ⟨k, rfl⟩ : ∃ l, k = l + 1 := ⟨k - 1, by omega⟩
  rw [State.copy] at h
  split at h
  · assumption
  · cases h

/-- The copy delivers what it counts. -/
theorem copy_delivered (k : Nat) :
    (s.copy k).1.delivered.length = s.delivered.length + (s.copy k).2 := by
  induction k generalizing s with
  | zero => rfl
  | succ k ih =>
    rw [State.copy]
    split
    · rfl
    · show (s.take.copy k).1.delivered.length = s.delivered.length + ((s.take.copy k).2 + 1)
      rw [ih]
      show (s.delivered ++ [_]).length + _ = _
      rw [List.length_append, List.length_singleton]
      omega

/-- A write section stores the bytes it has left, in order, up to where it sleeps
or returns. -/
theorem fill_stored (bs : List UInt8) : ∃ done rest, bs = done ++ rest ∧
    (s.fill p n bs).stored = s.stored ++ done ∧
    ((s.fill p n bs).cont p = .writing n rest ∨ (s.fill p n bs).cont p = .idle ∧
      ((s.fill p n bs).ret p = n ∧ rest = [] ∨ (s.fill p n bs).ret p = -1)) := by
  induction bs generalizing s with
  | nil =>
    refine ⟨[], [], rfl, (List.append_nil _).symm, .inr ⟨?_, .inl ⟨?_, rfl⟩⟩⟩
    · exact Function.update_self ..
    · exact Function.update_self ..
  | cons b bs ih =>
    rw [State.fill]
    split
    · split
      · refine ⟨[], b :: bs, rfl, (List.append_nil _).symm, .inr ⟨?_, .inr ?_⟩⟩
        · exact Function.update_self ..
        · exact Function.update_self ..
      · refine ⟨[], b :: bs, rfl, (List.append_nil _).symm, .inl ?_⟩
        exact Function.update_self ..
    · obtain ⟨done, rest, hbs, hst, hend⟩ := ih (s := s.store b)
      refine ⟨b :: done, rest, by rw [hbs]; rfl, ?_, hend⟩
      rw [hst]
      show (s.stored ++ [b]) ++ done = _
      rw [List.append_assoc]
      rfl

/-- A read section that returns has delivered what it returns, and 0 bytes of
`n > 0` only at the end of the stream. -/
theorem drain_returns (h : (s.drain p n).cont p = .idle) :
    (0 < n → (s.drain p n).ret p = 0 → s.nread = s.nwrite ∧ s.writeopen = false) ∧
    (0 ≤ (s.drain p n).ret p →
      ((s.drain p n).delivered.length : Int) = s.delivered.length + (s.drain p n).ret p) := by
  by_cases hw : s.nread = s.nwrite ∧ s.writeopen
  · by_cases hk : s.killed p
    · have hd : s.drain p n = s.sysret p (-1) := by rw [State.drain, if_pos hw, if_pos hk]
      have hr : (s.drain p n).ret p = -1 := by rw [hd]; exact Function.update_self ..
      rw [hr]
      exact ⟨fun _ e => by omega, fun e => by omega⟩
    · have hd : s.drain p n = s.sleep p .nread (.reading n) := by
        rw [State.drain, if_pos hw, if_neg hk]
      have hc : (s.drain p n).cont p = .reading n := by rw [hd]; exact Function.update_self ..
      rw [hc] at h
      cases h
  · have hd : s.drain p n =
        ((s.copy n.toNat).1.wakeup .nwrite).sysret p (s.copy n.toNat).2 := by
      rw [State.drain, if_neg hw]
    have hr : (s.drain p n).ret p = (s.copy n.toNat).2 := by rw [hd]; exact Function.update_self ..
    rw [hr]
    constructor
    · intro hn e
      have hempty : s.nread = s.nwrite := copy_count n.toNat (by omega) (by omega)
      exact ⟨hempty, Bool.eq_false_iff.mpr fun ho => hw ⟨hempty, ho⟩⟩
    · intro _
      rw [hd]
      exact_mod_cast copy_delivered n.toNat

end

/-! ## Runs -/

/-- By `a`, process `p` calls `piperead` for `n` bytes or goes on with the call. -/
def Reads (s : State) (p : Nat) (n : Int) : Action → Prop
  | .piperead q m => q = p ∧ m = n
  | .resume q => q = p ∧ s.cont p = .reading n
  | _ => False

/-- By `a`, process `p` calls `pipewrite` for `n` bytes, those of `bs`, or goes on
with a call that has `bs` left. -/
def Writes (s : State) (p : Nat) (n : Int) (bs : List UInt8) : Action → Prop
  | .pipewrite q addr m => q = p ∧ m = n ∧ bs = (List.range n.toNat).map addr
  | .resume q => q = p ∧ s.cont p = .writing n bs
  | _ => False

theorem Reads.drain {s s' : State} {p : Nat} {n : Int} {a : Action} (h : Reads s p n a)
    (hs : step s a = .ok s') : s' = s.drain p n := by
  cases a with
  | piperead q m =>
    obtain ⟨rfl, rfl⟩ := h
    simp only [step] at hs
    split at hs
    · cases hs
    · split at hs
      · cases hs
      · cases hs; rfl
  | resume q =>
    obtain ⟨rfl, hk⟩ := h
    simp only [step, hk] at hs
    split at hs
    · cases hs
    · split at hs
      · cases hs
      · cases hs; rfl
  | _ => cases h

theorem Writes.fill {s s' : State} {p : Nat} {n : Int} {bs : List UInt8} {a : Action}
    (h : Writes s p n bs a) (hs : step s a = .ok s') : s' = s.fill p n bs := by
  cases a with
  | pipewrite q addr m =>
    obtain ⟨rfl, rfl, rfl⟩ := h
    simp only [step] at hs
    split at hs
    · cases hs
    · split at hs
      · cases hs
      · cases hs; rfl
  | resume q =>
    obtain ⟨rfl, hk⟩ := h
    simp only [step, hk] at hs
    split at hs
    · cases hs
    · split at hs
      · cases hs
      · cases hs; rfl
  | _ => cases h

/-- **A pipe is a bounded queue**: in every state that a run reaches, what was
delivered is the beginning of what was stored, and the rest, at most `PIPESIZE`
bytes, is in the buffer in order. A read returns as many bytes as it delivers, and 0
for `n > 0` only at the end of the stream; a write stores its bytes in order, and
all of them if it returns `n`. -/
theorem pipe_fifo {data : Nat → UInt8} {killed : Nat → Bool} {s : State}
    (h : Reach step Always (pipealloc data killed) s) :
    (∃ q, s.stored = s.delivered ++ q ∧ q.length ≤ PIPESIZE ∧
      ∀ k b, q[k]? = some b → s.data ((s.nread + k) % PIPESIZE) = b) ∧
    (∀ p n a s', Reads s p n a → step s a = .ok s' → s'.cont p = .idle →
      (0 < n → s'.ret p = 0 → s.stored = s.delivered ∧ s.writeopen = false) ∧
      (0 ≤ s'.ret p → (s'.delivered.length : Int) = s.delivered.length + s'.ret p)) ∧
    ∀ p n bs a s', Writes s p n bs a → step s a = .ok s' →
      ∃ done rest, bs = done ++ rest ∧ s'.stored = s.stored ++ done ∧
        (s'.cont p = .writing n rest ∨
          s'.cont p = .idle ∧ (s'.ret p = n ∧ rest = [] ∨ s'.ret p = -1)) := by
  have hI : Inv s := h.invariant (inv_pipealloc data killed) fun _ _ _ hi _ hs => hi.step hs
  obtain ⟨q, hq, hst⟩ := hI
  refine ⟨⟨q, hst, hq.room, hq.cell⟩, fun p n a s' hr hs hc => ?_, fun p n bs a s' hw hs => ?_⟩
  · rw [hr.drain hs] at hc ⊢
    obtain ⟨hz, hret⟩ := drain_returns hc
    refine ⟨fun hn e => ?_, hret⟩
    obtain ⟨hempty, hclosed⟩ := hz hn e
    rw [(hq.empty_iff size_lt).mp hempty, List.append_nil] at hst
    exact ⟨hst, hclosed⟩
  · rw [hw.fill hs]
    exact fill_stored bs

/-- Process 0 writes three bytes and process 1 reads two. -/
def passRun : List Action := [.pipewrite 0 (fun i => UInt8.ofNat i) 3, .piperead 1 2]

theorem pipe_fifo_passRun : ∃ s,
    exec step Always (pipealloc (fun _ => 0) fun _ => false) passRun = some s ∧
    s.delivered = [0, 1] ∧ ∃ q, s.stored = s.delivered ++ q ∧ q.length ≤ PIPESIZE := by
  obtain ⟨s, hs, hr, hp⟩ := Reach.of_any step Always (pipealloc (fun _ => 0) fun _ => false)
    (fun s => s.delivered = [0, 1]) passRun (by decide +kernel)
  obtain ⟨⟨q, hq, hlen, -⟩, -⟩ := pipe_fifo hr
  exact ⟨s, hs, hp, q, hq, hlen⟩

end Xv6.Pipe
