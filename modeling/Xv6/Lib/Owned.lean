import Mathlib.Data.List.Nodup
import Mathlib.Logic.Function.Basic

/-!
# Allocations and their owners

Resources are numbered in the order of their allocation. `own` says which
resource each owner has; owners may share one. What has been freed is in
`freed`, and `Owned` says that nobody has it and that it was freed once.
-/

namespace Lib

variable {ι : Type*}

structure Owned (own : ι → Option ℕ) (next : ℕ) (freed : List ℕ) : Prop where
  lt : ∀ i d, own i = some d → d < next
  live : ∀ i d, own i = some d → d ∉ freed
  freed_lt : ∀ d ∈ freed, d < next
  nodup : freed.Nodup

namespace Owned

variable {own : ι → Option ℕ} {next : ℕ} {freed : List ℕ}

/-- An allocation that nobody keeps. -/
theorem scratch (h : Owned own next freed) : Owned own (next + 1) (freed ++ [next]) where
  lt i d hi := Nat.lt_succ_of_lt (h.lt i d hi)
  live i d hi hm := by
    rcases List.mem_append.mp hm with hm | hm
    · exact h.live i d hi hm
    · exact Nat.ne_of_lt (h.lt i d hi) (List.mem_singleton.mp hm)
  freed_lt d hd := by
    rcases List.mem_append.mp hd with hd | hd
    · exact Nat.lt_succ_of_lt (h.freed_lt d hd)
    · exact (List.mem_singleton.mp hd) ▸ Nat.lt_succ_self next
  nodup := List.nodup_append.mpr ⟨h.nodup, List.nodup_singleton _, fun d hd e he =>
    (List.mem_singleton.mp he) ▸ Nat.ne_of_lt (h.freed_lt d hd)⟩

/-- Owners may lose what they have. -/
theorem sub (h : Owned own next freed) {own' : ι → Option ℕ}
    (hs : ∀ i d, own' i = some d → own i = some d) : Owned own' next freed where
  lt i d hi := h.lt i d (hs i d hi)
  live i d hi := h.live i d (hs i d hi)
  freed_lt := h.freed_lt
  nodup := h.nodup

variable [DecidableEq ι]

/-- A new resource for `i`. -/
theorem create (h : Owned own next freed) (i : ι) :
    Owned (Function.update own i (some next)) (next + 1) freed where
  lt j d hj := by
    by_cases hji : j = i
    · subst hji; simp at hj; omega
    · exact Nat.lt_succ_of_lt (h.lt j d (by simpa [hji] using hj))
  live j d hj hm := by
    by_cases hji : j = i
    · subst hji
      simp at hj
      exact Nat.ne_of_lt (h.freed_lt d hm) hj.symm
    · exact h.live j d (by simpa [hji] using hj) hm
  freed_lt d hd := Nat.lt_succ_of_lt (h.freed_lt d hd)
  nodup := h.nodup

/-- `i` takes a share in what `j` has. -/
theorem share (h : Owned own next freed) (i : ι) {j : ι} {d : ℕ} (hj : own j = some d) :
    Owned (Function.update own i (some d)) next freed where
  lt k e hk := by
    by_cases hki : k = i
    · subst hki; simp at hk; exact hk ▸ h.lt j d hj
    · exact h.lt k e (by simpa [hki] using hk)
  live k e hk := by
    by_cases hki : k = i
    · subst hki; simp at hk; exact hk ▸ h.live j d hj
    · exact h.live k e (by simpa [hki] using hk)
  freed_lt := h.freed_lt
  nodup := h.nodup

/-- The only owner of a resource frees it. -/
theorem free (h : Owned own next freed) {i : ι} {d : ℕ} (hi : own i = some d)
    (hu : ∀ j, j ≠ i → own j ≠ some d) : Owned (Function.update own i none) next (freed ++ [d]) where
  lt j e hj := by
    by_cases hji : j = i
    · subst hji; simp at hj
    · exact h.lt j e (by simpa [hji] using hj)
  live j e hj hm := by
    by_cases hji : j = i
    · subst hji; simp at hj
    · have hj' : own j = some e := by simpa [hji] using hj
      rcases List.mem_append.mp hm with hm | hm
      · exact h.live j e hj' hm
      · exact hu j hji (List.mem_singleton.mp hm ▸ hj')
  freed_lt e he := by
    rcases List.mem_append.mp he with he | he
    · exact h.freed_lt e he
    · exact (List.mem_singleton.mp he) ▸ h.lt i d hi
  nodup := List.nodup_append.mpr ⟨h.nodup, List.nodup_singleton _, fun e he f hf => by
    rw [List.mem_singleton.mp hf]
    rintro rfl
    exact h.live i e hi he⟩

end Owned

end Lib
