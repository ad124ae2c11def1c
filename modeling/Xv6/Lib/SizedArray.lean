import Mathlib.Data.List.Nodup
import Mathlib.Data.List.Perm.Basic
import Mathlib.Logic.Function.Basic

/-!
# Arrays with the index of their last element

A fixed array of `N` cells with a separate integer `last`, the index of the
last element in use (`-1` when empty). The operations are the C idioms: append
by `A[++last] = x`, and removal by a scan that decrements `last` and shifts the
tail down by one, with or without a `break` after the first hit. Every access
is checked against `N`; an access outside the array yields `none`.

`Repr a l` says `a` holds the list `l`. Append is `l ++ [x]`, a removal scan is
`eraseScan`, which is `List.erase` when the element occurs at most once.
-/

namespace Lib

structure SizedArray (α : Type*) (N : Nat) where
  cell : Nat → α
  last : Int

namespace SizedArray

variable {α : Type*} {N : Nat}

/-- `A[i]`, if `i` is inside the array. -/
def get? (a : SizedArray α N) (i : Int) : Option α :=
  if 0 ≤ i ∧ i < N then some (a.cell i.toNat) else none

/-- `A[i] = x`, if `i` is inside the array. -/
def set? (a : SizedArray α N) (i : Int) (x : α) : Option (SizedArray α N) :=
  if 0 ≤ i ∧ i < N then some { a with cell := Function.update a.cell i.toNat x } else none

/-- `A[++last] = x`. -/
def push (a : SizedArray α N) (x : α) : Option (SizedArray α N) :=
  { a with last := a.last + 1 }.set? (a.last + 1) x

/-- `last--`. -/
def dec (a : SizedArray α N) : SizedArray α N := { a with last := a.last - 1 }

/-- `for (j = i; j <= last; j++) A[j] = A[j+1];` with at most `k` iterations. -/
def shift (a : SizedArray α N) : Nat → Nat → Option (SizedArray α N)
  | 0, _ => some a
  | k + 1, j =>
    if (j : Int) ≤ a.last then do
      let y ← a.get? (j + 1)
      let a ← a.set? j y
      a.shift k (j + 1)
    else some a

section
variable [DecidableEq α]

/-- `for (i = 0; i <= last; i++) if (A[i] == x) { last--; shift from i; break?; }`
with at most `k` iterations. -/
def scan (brk : Bool) (x : α) (a : SizedArray α N) : Nat → Nat → Option (SizedArray α N)
  | 0, _ => some a
  | k + 1, i =>
    if (i : Int) ≤ a.last then do
      let y ← a.get? i
      if y = x then do
        let a' ← a.dec.shift (a.last - i).toNat i
        if brk then some a' else a'.scan brk x k (i + 1)
      else a.scan brk x k (i + 1)
    else some a

/-- The whole removal loop: no more iterations than elements. -/
def remove (brk : Bool) (x : α) (a : SizedArray α N) : Option (SizedArray α N) :=
  a.scan brk x (a.last + 1).toNat 0

end

/-- The elements in use, in order. -/
def toList (a : SizedArray α N) : List α := (List.range (a.last + 1).toNat).map a.cell

/-! ## The list it holds -/

/-- `a` holds exactly the elements of `l`, in order, and they fit. -/
structure Repr (a : SizedArray α N) (l : List α) : Prop where
  last : a.last = l.length - 1
  fits : l.length ≤ N
  cell : ∀ i (h : i < l.length), a.cell i = l[i]

theorem Repr.toList {a : SizedArray α N} {l : List α} (h : a.Repr l) : a.toList = l := by
  have hl : (a.last + 1).toNat = l.length := by rw [h.last]; omega
  apply List.ext_getElem
  · simp [SizedArray.toList, hl]
  · intro i h1 h2
    simp only [SizedArray.toList, List.getElem_map, List.getElem_range]
    exact h.cell i h2

theorem Repr.nil {a : SizedArray α N} (h : a.last = -1) : a.Repr [] where
  last := by simp [h]
  fits := by simp
  cell := by simp

theorem Repr.get? {a : SizedArray α N} {l : List α} (h : a.Repr l) {i : Nat} (hi : i < l.length) :
    a.get? i = some l[i] := by
  have := h.fits
  unfold SizedArray.get?
  rw [if_pos (by omega), Int.toNat_natCast, h.cell i hi]

theorem Repr.push {a : SizedArray α N} {l : List α} (h : a.Repr l) (x : α) (hfit : l.length < N) :
    ∃ a', a.push x = some a' ∧ a'.Repr (l ++ [x]) := by
  have hl := h.last
  have hn : (a.last + 1).toNat = l.length := by omega
  refine ⟨_, if_pos (by omega), ?_, ?_, ?_⟩
  · simp; omega
  · simp; omega
  · intro i hi
    simp only [hn]
    rcases Nat.lt_or_ge i l.length with hlt | hge
    · rw [Function.update_of_ne (by omega), h.cell i hlt, List.getElem_append_left hlt]
    · obtain rfl : i = l.length := by simp at hi; omega
      simp

theorem Repr.of_push {a a' : SizedArray α N} {l : List α} (h : a.Repr l) {x : α}
    (hp : a.push x = some a') : l.length < N ∧ a'.Repr (l ++ [x]) := by
  have hl := h.last
  have hfit : l.length < N := by
    by_contra hc
    simp only [SizedArray.push, SizedArray.set?, if_neg (show ¬ (0 ≤ a.last + 1 ∧ a.last + 1 < N) by omega)] at hp
    cases hp
  obtain ⟨b, hb, hr⟩ := h.push x hfit
  rw [hb] at hp
  cases hp
  exact ⟨hfit, hr⟩

theorem push_full {a : SizedArray α N} {x : α} (h : (N : Int) ≤ a.last + 1) : a.push x = none :=
  if_neg (by simp; omega)

/-- The shift loop copies every later cell down by one and moves nothing else. -/
theorem shift_spec : ∀ (k j : Nat) (a : SizedArray α N), a.last = (j : Int) + k - 1 →
    a.last + 1 < N → ∃ a', a.shift k j = some a' ∧ a'.last = a.last ∧
      ∀ i, a'.cell i = if j ≤ i ∧ i < j + k then a.cell (i + 1) else a.cell i
  | 0, j, a, _, _ => ⟨a, rfl, rfl, fun i => by rw [if_neg (by omega)]⟩
  | k + 1, j, a, hl, hN => by
    have hget : a.get? (j + 1) = some (a.cell (j + 1)) := if_pos (by omega)
    have hset : a.set? j (a.cell (j + 1)) =
        some { a with cell := Function.update a.cell j (a.cell (j + 1)) } := if_pos (by omega)
    obtain ⟨a', ha', hlast, hcell⟩ := shift_spec k (j + 1)
      { a with cell := Function.update a.cell j (a.cell (j + 1)) } (by simp; omega) hN
    refine ⟨a', ?_, hlast, fun i => ?_⟩
    · simp only [shift, if_pos (show (j : Int) ≤ a.last by omega), hget, hset,
        Option.bind_eq_bind, Option.bind_some, ha']
    · rw [hcell i]
      simp only [Function.update_apply]
      by_cases h1 : i = j
      · subst h1; simp
      · grind

theorem Repr.shift {a : SizedArray α N} {l : List α} (h : a.Repr l) {i : Nat} (hi : i < l.length) :
    ∃ a', a.dec.shift (a.last - i).toNat i = some a' ∧ a'.Repr (l.eraseIdx i) := by
  have hl := h.last
  have hf := h.fits
  have hdec : a.dec.last = a.last - 1 := rfl
  obtain ⟨a', ha', hlast, hcell⟩ := shift_spec (a.last - i).toNat i a.dec (by omega) (by omega)
  have hlen : (l.eraseIdx i).length = l.length - 1 := by
    rw [List.length_eraseIdx, if_pos hi]
  refine ⟨a', ha', by rw [hlast, hlen, hdec]; omega, by omega, fun j hj => ?_⟩
  rw [hcell j, List.getElem_eraseIdx]
  split
  · rw [dif_neg (by omega)]; exact h.cell _ _
  · rw [dif_pos (by omega)]; exact h.cell _ _

/-! ## Removal -/

section
variable [DecidableEq α]

/-- What a removal scan leaves of the list: with `brk` it stops after the first
hit; without, it goes on but steps over the element shifted into the hole. -/
def eraseScan (brk : Bool) (x : α) : List α → List α
  | [] => []
  | [y] => if y = x then [] else [y]
  | y :: z :: zs =>
    if y = x then z :: (if brk then zs else eraseScan brk x zs)
    else y :: eraseScan brk x (z :: zs)

theorem eraseScan_cons_ne {brk : Bool} {x y : α} {l : List α} (h : y ≠ x) :
    eraseScan brk x (y :: l) = y :: eraseScan brk x l := by
  cases l <;> simp [eraseScan, h]

theorem eraseScan_cons_break {x : α} {l : List α} : eraseScan true x (x :: l) = l := by
  cases l <;> simp [eraseScan]

theorem eraseScan_not_mem {brk : Bool} {x : α} {l : List α} (h : x ∉ l) : eraseScan brk x l = l := by
  induction l with
  | nil => rfl
  | cons y ys ih =>
    simp only [List.mem_cons, not_or] at h
    rw [eraseScan_cons_ne (Ne.symm h.1), ih h.2]

theorem eraseScan_nodup (brk : Bool) {x : α} {l : List α} (h : l.Nodup) :
    eraseScan brk x l = l.erase x := by
  induction l with
  | nil => rfl
  | cons y ys ih =>
    obtain ⟨hy, hys⟩ := List.nodup_cons.mp h
    by_cases hyx : y = x
    · subst hyx
      rw [List.erase_cons_head]
      cases ys with
      | nil => simp [eraseScan]
      | cons z zs =>
        -- past the hole there is no second occurrence to find
        rw [eraseScan, if_pos rfl, eraseScan_not_mem (fun hm => hy (List.mem_cons_of_mem _ hm)),
          ite_self]
    · rw [List.erase_cons_tail (by simpa using hyx), eraseScan_cons_ne hyx, ih hys]

theorem eraseScan_subset {brk : Bool} {x : α} : ∀ {l : List α} {y : α},
    y ∈ eraseScan brk x l → y ∈ l
  | [], _, h => h
  | [z], _, h => by
    rw [eraseScan] at h
    split at h
    · cases h
    · exact h
  | w :: z :: zs, y, h => by
    rw [eraseScan] at h
    split at h
    · rcases List.mem_cons.mp h with rfl | h
      · simp
      · have : y ∈ zs := by
          split at h
          · exact h
          · exact eraseScan_subset h
        simp [this]
    · rcases List.mem_cons.mp h with rfl | h
      · simp
      · exact List.mem_cons_of_mem _ (eraseScan_subset h)

theorem eraseScan_map {β : Type*} [DecidableEq β] {f : α → β} (hf : Function.Injective f)
    (brk : Bool) {x : α} : ∀ l : List α, eraseScan brk (f x) (l.map f) = (eraseScan brk x l).map f
  | [] => rfl
  | [y] => by by_cases h : y = x <;> simp [eraseScan, h, hf.eq_iff]
  | y :: z :: zs => by
    have ih1 := eraseScan_map hf brk (x := x) zs
    have ih2 := eraseScan_map hf brk (x := x) (z :: zs)
    rw [List.map_cons] at ih2
    by_cases h : y = x
    · cases brk <;> simp [eraseScan, h, ih1]
    · simp [eraseScan, h, hf.eq_iff, ih2]

/-- The removal scan from index `i` turns the list into its first `i` elements
followed by `eraseScan` of the rest. -/
theorem Repr.scan (brk : Bool) (x : α) : ∀ (k i : Nat) (a : SizedArray α N) (l : List α),
    a.Repr l → l.length ≤ i + k → ∃ a', a.scan brk x k i = some a' ∧
      a'.Repr (l.take i ++ eraseScan brk x (l.drop i))
  | 0, i, a, l, h, hk => by
    refine ⟨a, rfl, ?_⟩
    rw [List.drop_eq_nil_of_le (by omega), eraseScan, List.append_nil,
      List.take_of_length_le (by omega)]
    exact h
  | k + 1, i, a, l, h, hk => by
    have hl := h.last
    by_cases hi : i < l.length
    · have hget := h.get? hi
      simp only [SizedArray.scan, if_pos (show (i : Int) ≤ a.last by omega), hget,
        Option.bind_eq_bind, Option.bind_some]
      rw [List.drop_eq_getElem_cons hi]
      have htake : (l.take i).length = i := by simp; omega
      by_cases hx : l[i] = x
      · obtain ⟨b, hb, hrb⟩ := h.shift hi
        rw [List.eraseIdx_eq_take_drop_succ] at hrb
        simp only [hb, Option.bind_some, hx]
        cases brk with
        | true => exact ⟨b, rfl, by rw [eraseScan_cons_break]; exact hrb⟩
        | false =>
          have hlen : (l.take i ++ l.drop (i + 1)).length ≤ i + 1 + k := by simp; omega
          obtain ⟨c, hc, hrc⟩ := Repr.scan false x k (i + 1) b _ hrb hlen
          refine ⟨c, by simpa using hc, ?_⟩
          have hdrop : (l.take i ++ l.drop (i + 1)).drop (i + 1) = (l.drop (i + 1)).drop 1 := by
            rw [List.drop_append, htake, List.drop_eq_nil_of_le (by omega)]; simp
          have htk : (l.take i ++ l.drop (i + 1)).take (i + 1) =
              l.take i ++ (l.drop (i + 1)).take 1 := by
            rw [List.take_append, htake, List.take_of_length_le (by omega)]; simp
          rw [hdrop, htk, List.append_assoc] at hrc
          cases hd : l.drop (i + 1) with
          | nil => simpa [hd, eraseScan] using hrc
          | cons z zs => simpa [hd, eraseScan] using hrc
      · obtain ⟨c, hc, hrc⟩ := Repr.scan brk x k (i + 1) a l h (by omega)
        refine ⟨c, by simpa only [if_neg hx] using hc, ?_⟩
        rw [eraseScan_cons_ne hx]
        rw [List.take_succ_eq_append_getElem hi, List.append_assoc] at hrc
        exact hrc
    · refine ⟨a, by rw [SizedArray.scan, if_neg (by omega)], ?_⟩
      rw [List.drop_eq_nil_of_le (by omega), eraseScan, List.append_nil,
        List.take_of_length_le (by omega)]
      exact h

theorem Repr.remove (brk : Bool) (x : α) {a : SizedArray α N} {l : List α} (h : a.Repr l) :
    ∃ a', a.remove brk x = some a' ∧ a'.Repr (eraseScan brk x l) := by
  have hl := h.last
  obtain ⟨a', ha', hr⟩ := Repr.scan brk x (a.last + 1).toNat 0 a l h (by omega)
  exact ⟨a', ha', by simpa using hr⟩

theorem Repr.of_remove {brk : Bool} {x : α} {a a' : SizedArray α N} {l : List α} (h : a.Repr l)
    (hr : a.remove brk x = some a') : a'.Repr (eraseScan brk x l) := by
  obtain ⟨b, hb, hrb⟩ := h.remove brk x
  rw [hb] at hr
  cases hr
  exact hrb

/-- Removing an element that occurs at most once is `List.erase`. -/
theorem Repr.remove_nodup (brk : Bool) (x : α) {a : SizedArray α N} {l : List α} (h : a.Repr l)
    (hl : l.Nodup) : ∃ a', a.remove brk x = some a' ∧ a'.Repr (l.erase x) := by
  rw [← eraseScan_nodup brk hl]; exact h.remove brk x

end

end SizedArray

end Lib
