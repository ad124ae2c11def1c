import Mathlib.Data.List.Basic

/-!
# Overwriting a part of a sequence

`overwrite l off src` is `l` with `src` at `off`; where `src` goes beyond the end, the
result is longer. `off` is at most the length of `l`.
-/

namespace Lib

variable {α : Type*} {l src : List α} {off : Nat}

def overwrite (l : List α) (off : Nat) (src : List α) : List α :=
  l.take off ++ src ++ l.drop (off + src.length)

theorem length_overwrite (h : off ≤ l.length) :
    (overwrite l off src).length = max l.length (off + src.length) := by
  unfold overwrite
  rw [List.length_append, List.length_append, List.length_take, List.length_drop]
  omega

theorem getElem?_overwrite (h : off ≤ l.length) (k : Nat) : (overwrite l off src)[k]? =
    if off ≤ k ∧ k < off + src.length then src[k - off]? else l[k]? := by
  have htake : (l.take off).length = off := by
    rw [List.length_take]
    omega
  unfold overwrite
  by_cases hlt : k < off
  · rw [if_neg (by omega), List.append_assoc, List.getElem?_append_left (by omega),
      List.getElem?_take_of_lt hlt]
  · by_cases hin : k < off + src.length
    · rw [if_pos ⟨by omega, hin⟩, List.append_assoc, List.getElem?_append_right (by omega), htake,
        List.getElem?_append_left (by omega)]
    · rw [if_neg (by omega), List.getElem?_append_right (by rw [List.length_append]; omega),
        List.getElem?_drop, List.length_append, htake]
      congr 1
      omega

theorem overwrite_nil (l : List α) (off : Nat) : overwrite l off [] = l := by
  unfold overwrite
  rw [List.append_nil, List.length_nil, Nat.add_zero, List.take_append_drop]

/-- Two overwrites in a row are one. -/
theorem overwrite_append (h : off ≤ l.length) (a b : List α) :
    overwrite (overwrite l off a) (off + a.length) b = overwrite l off (a ++ b) := by
  have hle : off + a.length ≤ (overwrite l off a).length := by
    rw [length_overwrite h]
    exact Nat.le_max_right ..
  refine List.ext_getElem? fun k => ?_
  rw [getElem?_overwrite hle, getElem?_overwrite h, getElem?_overwrite h, List.length_append]
  by_cases hk : k < off
  · rw [if_neg (by omega), if_neg (by omega), if_neg (by omega)]
  · by_cases ha : k < off + a.length
    · rw [if_neg (by omega), if_pos (by omega), if_pos (by omega), List.getElem?_append_left (by omega)]
    · by_cases hb : k < off + a.length + b.length
      · rw [if_pos (by omega), if_pos (by omega), List.getElem?_append_right (by omega)]
        congr 1
        omega
      · rw [if_neg (by omega), if_neg (by omega), if_neg (by omega)]

/-- What was written is read back. -/
theorem read_overwrite (h : off ≤ l.length) : ((overwrite l off src).drop off).take src.length = src := by
  refine List.ext_getElem? fun k => ?_
  rw [List.getElem?_take]
  split
  · next hk => rw [List.getElem?_drop, getElem?_overwrite h, if_pos (by omega), Nat.add_sub_cancel_left]
  · next hk => exact (List.getElem?_eq_none (by omega)).symm

/-- Overwriting up to the end. -/
theorem overwrite_length (l src : List α) : overwrite l l.length src = l ++ src := by
  unfold overwrite
  rw [List.take_length, List.drop_eq_nil_of_le (by omega), List.append_nil]

end Lib
