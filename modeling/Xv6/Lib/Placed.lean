import Mathlib.Data.List.Nodup
import Mathlib.Data.Fintype.Card
import Mathlib.Logic.Function.Basic

/-!
# Elements placed in a family of lists

`Placed q W`: list `q l` holds, once each, exactly the elements `x` with
`W l x`. It is the abstract statement of a multi-level queue: `W` says where an
element belongs, `q` where it physically is.
-/

namespace Lib

variable {ι α : Type*}

structure Placed (q : ι → List α) (W : ι → α → Prop) : Prop where
  nodup : ∀ l, (q l).Nodup
  mem : ∀ l x, x ∈ q l ↔ W l x

namespace Placed

variable {q : ι → List α} {W W' : ι → α → Prop}

theorem congr (h : Placed q W) (hW : ∀ l x, W' l x ↔ W l x) : Placed q W' where
  nodup := h.nodup
  mem l x := (h.mem l x).trans (hW l x).symm

/-- The lists of a finite type are no longer than the type is large. -/
theorem length_le [Fintype α] (h : Placed q W) (l : ι) : (q l).length ≤ Fintype.card α :=
  (h.nodup l).length_le_card

/-- A list that misses an element is shorter. -/
theorem length_lt [Fintype α] (h : Placed q W) {l : ι} {x : α} (hx : ¬ W l x) :
    (q l).length < Fintype.card α := by
  have hn : (x :: q l).Nodup := List.nodup_cons.mpr ⟨fun hm => hx ((h.mem l x).mp hm), h.nodup l⟩
  exact hn.length_le_card

section
variable [DecidableEq ι]

/-- An element that is in no list is appended to one. -/
theorem append (h : Placed q W) {l : ι} {x : α} (hx : ∀ l, ¬ W l x)
    (hW : ∀ l' y, W' l' y ↔ W l' y ∨ (l' = l ∧ y = x)) :
    Placed (Function.update q l (q l ++ [x])) W' where
  nodup l' := by
    by_cases hl : l' = l
    · subst hl
      rw [Function.update_self, List.nodup_append]
      refine ⟨h.nodup l', by simp, fun y hy z hz hyz => ?_⟩
      rw [List.mem_singleton] at hz
      exact hx l' ((h.mem l' x).mp (hz ▸ hyz ▸ hy))
    · rw [Function.update_of_ne hl]; exact h.nodup l'
  mem l' y := by
    rw [hW]
    by_cases hl : l' = l
    · subst hl; simp [h.mem]
    · simp [hl, h.mem]

variable [DecidableEq α]

/-- An element is taken out of its list. -/
theorem erase (h : Placed q W) {l : ι} {x : α} (hx : ∀ l', W l' x → l' = l)
    (hW : ∀ l' y, W' l' y ↔ W l' y ∧ y ≠ x) :
    Placed (Function.update q l ((q l).erase x)) W' where
  nodup l' := by
    by_cases hl : l' = l
    · subst hl; rw [Function.update_self]; exact (h.nodup l').erase x
    · rw [Function.update_of_ne hl]; exact h.nodup l'
  mem l' y := by
    rw [hW]
    by_cases hl : l' = l
    · subst hl
      rw [Function.update_self, (h.nodup l').mem_erase_iff, h.mem, and_comm]
    · rw [Function.update_of_ne hl, h.mem]
      exact ⟨fun hy => ⟨hy, fun he => hl (hx l' (he ▸ hy))⟩, fun hy => hy.1⟩

end

end Placed

end Lib
