import Mathlib.Data.List.Basic
import Mathlib.Logic.Function.Basic
import Mathlib.Data.Nat.ModEq

/-!
# Bounded queues with free-running counters

`N` cells hold a queue; `r` counts what was taken out and `w` what was put in,
both modulo `M`. A counter gives its cell modulo `N`, which divides `M`, so the
cells go round while the counters wrap.
-/

namespace Lib

/-- The cells from counter `r` on hold `q`, and counter `w` is behind its last element. -/
structure Fifo {α : Type*} (N M : Nat) (data : Nat → α) (r w : Nat) (q : List α) : Prop where
  head_lt : r < M
  tail : w = (r + q.length) % M
  room : q.length ≤ N
  cell : ∀ k a, q[k]? = some a → data ((r + k) % N) = a

namespace Fifo

variable {α : Type*} {N M : Nat} {data : Nat → α} {r w : Nat} {q : List α}

theorem nil (hr : r < M) : Fifo N M data r r [] :=
  ⟨hr, (Nat.mod_eq_of_lt hr).symm, Nat.zero_le _, fun _ _ h => by cases h⟩

/-- Two distances up to `N` from one counter are told apart modulo `M`. -/
theorem dist_inj (hNM : N < M) {k l : Nat} (hk : k ≤ N) (hl : l ≤ N)
    (h : (r + k) % M = (r + l) % M) : k = l := by
  have hmod : k ≡ l [MOD M] := Nat.ModEq.add_left_cancel' r h
  exact hmod.eq_of_lt_of_lt (by omega) (by omega)

theorem empty_iff (h : Fifo N M data r w q) (hNM : N < M) : r = w ↔ q = [] := by
  have hr : (r + 0) % M = r := Nat.mod_eq_of_lt h.head_lt
  constructor
  · intro e
    have hz : 0 = q.length := dist_inj hNM (Nat.zero_le N) h.room (hr.trans (e.trans h.tail))
    exact List.eq_nil_of_length_eq_zero hz.symm
  · rintro rfl
    exact hr.symm.trans h.tail.symm

theorem full_iff (h : Fifo N M data r w q) (hNM : N < M) : w = (r + N) % M ↔ q.length = N := by
  rw [h.tail]
  exact ⟨dist_inj hNM h.room (Nat.le_refl N), fun e => by rw [e]⟩

/-- The cell of the next element. -/
theorem tail_cell (h : Fifo N M data r w q) (hdvd : N ∣ M) : w % N = (r + q.length) % N := by
  rw [h.tail, Nat.mod_mod_of_dvd _ hdvd]

theorem push (h : Fifo N M data r w q) (hdvd : N ∣ M) (hq : q.length < N) (a : α) :
    Fifo N M (Function.update data (w % N) a) r ((w + 1) % M) (q ++ [a]) where
  head_lt := h.head_lt
  tail := by
    rw [h.tail, List.length_append, List.length_singleton, ← Nat.add_assoc, Nat.mod_add_mod]
  room := by
    rw [List.length_append, List.length_singleton]
    omega
  cell k b hk := by
    rw [h.tail_cell hdvd]
    rcases Nat.lt_or_ge k q.length with hlt | hge
    · rw [List.getElem?_append_left hlt] at hk
      -- fewer than `N` cells apart, so not the same cell
      have hne : (r + k) % N ≠ (r + q.length) % N := fun e => by
        have hmod : k ≡ q.length [MOD N] := Nat.ModEq.add_left_cancel' r e
        have := hmod.eq_of_lt_of_lt (by omega) hq
        omega
      rw [Function.update_of_ne hne]
      exact h.cell k b hk
    · rw [List.getElem?_append_right hge] at hk
      have hlen := (List.getElem?_eq_some_iff.mp hk).1
      rw [List.length_singleton] at hlen
      obtain rfl : k = q.length := by omega
      rw [Function.update_self]
      simpa using hk

theorem pop {a : α} (h : Fifo N M data r w (a :: q)) (hdvd : N ∣ M) (hM : 0 < M) :
    data (r % N) = a ∧ Fifo N M data ((r + 1) % M) w q := by
  refine ⟨h.cell 0 a rfl, Nat.mod_lt _ hM, ?_, ?_, fun k b hk => ?_⟩
  · rw [h.tail, Nat.mod_add_mod, List.length_cons]
    congr 1
    omega
  · have := h.room
    rw [List.length_cons] at this
    omega
  · rw [Nat.add_mod, Nat.mod_mod_of_dvd _ hdvd, ← Nat.add_mod, Nat.add_assoc, Nat.add_comm 1 k]
    exact h.cell (k + 1) b hk

end Fifo

end Lib
