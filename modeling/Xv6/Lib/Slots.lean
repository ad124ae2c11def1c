import Mathlib.Data.List.Basic
import Mathlib.Data.Option.Basic
import Mathlib.Logic.Function.Basic

/-!
# Tables of slots as finite maps

A table is a row of slots, each of which is empty or holds a key with its value. A key
is looked up from the first slot on. If no key is in two slots the table is a finite
map: a key that is put into an empty slot, or behind the last one, is added, and a slot
that is emptied removes its key.
-/

namespace Lib

structure Slots (κ ν : Type*) where
  len : Nat
  cell : Nat → Option (κ × ν)

namespace Slots

variable {κ ν : Type*} {t : Slots κ ν} {k k' : κ} {v : ν} {i j : Nat}

/-- The first slot that holds `k`. -/
def index [DecidableEq κ] (t : Slots κ ν) (k : κ) : Option Nat :=
  (List.range t.len).find? fun i => (t.cell i).any fun c => c.1 = k

/-- The value of `k`, and the slot it is in. -/
def get [DecidableEq κ] (t : Slots κ ν) (k : κ) : Option (ν × Nat) :=
  (t.index k).bind fun i => (t.cell i).map fun c => (c.2, i)

/-- The first empty slot. -/
def room (t : Slots κ ν) : Option Nat := (List.range t.len).find? fun i => (t.cell i).isNone

/-- Where a key is put: the first empty slot, or the end. -/
def free (t : Slots κ ν) : Nat := t.room.getD t.len

def set (t : Slots κ ν) (i : Nat) (c : Option (κ × ν)) : Slots κ ν :=
  ⟨max t.len (i + 1), Function.update t.cell i c⟩

/-- No key is in two slots. -/
def Distinct (t : Slots κ ν) : Prop :=
  ∀ i < t.len, ∀ j < t.len, ∀ k v v', t.cell i = some (k, v) → t.cell j = some (k, v') → i = j

/-! ## Looking up -/

section
variable [DecidableEq κ]

theorem index_some (h : t.index k = some i) : i < t.len ∧ ∃ v, t.cell i = some (k, v) := by
  unfold index at h
  have hany := List.find?_some h
  refine ⟨List.mem_range.mp (List.mem_of_find?_eq_some h), ?_⟩
  cases hc : t.cell i with
  | none =>
    rw [hc] at hany
    cases hany
  | some c =>
    rw [hc] at hany
    obtain rfl : c.1 = k := of_decide_eq_true hany
    exact ⟨c.2, rfl⟩

/-- A key is found if it is in some slot. -/
theorem get_eq_none : t.get k = none ↔ ∀ i < t.len, ∀ v, t.cell i ≠ some (k, v) := by
  unfold get
  cases hi : t.index k with
  | none =>
    refine iff_of_true rfl fun i hlt v hc => ?_
    have := List.find?_eq_none.mp hi i (List.mem_range.mpr hlt)
    rw [hc] at this
    simp at this
  | some i =>
    obtain ⟨hlt, v, hc⟩ := index_some hi
    rw [Option.bind_some, hc]
    exact iff_of_false (by simp) fun h => h i hlt v hc

/-- In a table without double keys a key is found where it is. -/
theorem get_eq_some (h : t.Distinct) : t.get k = some (v, i) ↔ i < t.len ∧ t.cell i = some (k, v) := by
  unfold get
  cases hj : t.index k with
  | none =>
    refine iff_of_false (by simp) fun ⟨hlt, hc⟩ => ?_
    have := List.find?_eq_none.mp hj i (List.mem_range.mpr hlt)
    rw [hc] at this
    simp at this
  | some j =>
    obtain ⟨hlt, v', hc⟩ := index_some hj
    rw [Option.bind_some, hc, Option.map_some, Option.some.injEq, Prod.mk.injEq]
    constructor
    · rintro ⟨rfl, rfl⟩
      exact ⟨hlt, hc⟩
    · rintro ⟨hlt', hc'⟩
      obtain rfl := h j hlt i hlt' k v' v hc hc'
      rw [hc] at hc'
      cases hc'
      exact ⟨rfl, rfl⟩

end

/-! ## Free slots -/

theorem room_some (h : t.room = some i) : i < t.len ∧ t.cell i = none :=
  ⟨List.mem_range.mp (List.mem_of_find?_eq_some h),
    Option.isNone_iff_eq_none.mp (List.find?_some (p := fun i => (t.cell i).isNone) h)⟩

theorem free_le (t : Slots κ ν) : t.free ≤ t.len := by
  unfold free
  cases h : t.room with
  | none => exact Nat.le_refl _
  | some i => exact Nat.le_of_lt (room_some h).1

/-- A slot that is free holds nothing. -/
theorem free_empty (h : t.free < t.len) : t.cell t.free = none := by
  unfold free at h ⊢
  cases hr : t.room with
  | none =>
    rw [hr] at h
    exact absurd h (Nat.lt_irrefl _)
  | some i => exact (room_some hr).2

/-- The end is used only if no slot is free. -/
theorem free_eq_len : t.free = t.len ↔ ∀ i < t.len, t.cell i ≠ none := by
  unfold free
  cases hr : t.room with
  | none =>
    refine iff_of_true rfl fun i hi hn => ?_
    have := List.find?_eq_none.mp hr i (List.mem_range.mpr hi)
    rw [hn] at this
    exact this rfl
  | some i =>
    obtain ⟨hi, hn⟩ := room_some hr
    exact iff_of_false (Nat.ne_of_lt hi) fun h => h i hi hn

/-! ## Adding and removing -/

@[simp] theorem set_cell (c : Option (κ × ν)) : (t.set i c).cell i = c := Function.update_self ..

theorem set_cell_ne (h : j ≠ i) (c : Option (κ × ν)) : (t.set i c).cell j = t.cell j :=
  Function.update_of_ne h ..

/-- No slot is skipped when a key is put. -/
theorem lt_set_len (hi : i ≤ t.len) (c : Option (κ × ν)) : j < (t.set i c).len ↔ j < t.len ∨ j = i := by
  unfold set
  dsimp only
  omega

variable [DecidableEq κ]

/-- A key that is new can be put into a slot that is empty. -/
theorem Distinct.put (h : t.Distinct) (hi : i ≤ t.len) (hk : t.get k = none) :
    (t.set i (some (k, v))).Distinct := by
  have hnew := get_eq_none.mp hk
  have hlt : ∀ x, x < (t.set i (some (k, v))).len → x ≠ i → x < t.len := fun x hx hne =>
    ((lt_set_len hi _).mp hx).resolve_right hne
  intro a ha b hb c w w' hca hcb
  by_cases hai : a = i <;> by_cases hbi : b = i
  · exact hai.trans hbi.symm
  · subst hai
    rw [set_cell] at hca
    rw [set_cell_ne hbi] at hcb
    cases hca
    exact absurd hcb (hnew b (hlt b hb hbi) w')
  · subst hbi
    rw [set_cell] at hcb
    rw [set_cell_ne hai] at hca
    cases hcb
    exact absurd hca (hnew a (hlt a ha hai) w)
  · rw [set_cell_ne hai] at hca
    rw [set_cell_ne hbi] at hcb
    exact h a (hlt a ha hai) b (hlt b hb hbi) c w w' hca hcb

/-- **Adding**: the new key is found where it was put, and all others as before. -/
theorem get_put (h : t.Distinct) (hi : i ≤ t.len) (he : i < t.len → t.cell i = none)
    (hk : t.get k = none) :
    (t.set i (some (k, v))).get k' = if k' = k then some (v, i) else t.get k' := by
  have hd := h.put (v := v) hi hk
  split
  · next hkk =>
    subst hkk
    exact (get_eq_some hd).mpr ⟨(lt_set_len hi _).mpr (.inr rfl), set_cell _⟩
  · next hkk =>
    refine Option.ext fun ⟨w, j⟩ => ?_
    rw [get_eq_some hd, get_eq_some h, lt_set_len hi]
    by_cases hji : j = i
    · subst hji
      rw [set_cell]
      refine iff_of_false (fun hc => hkk ?_) fun hc => ?_
      · cases hc.2
        rfl
      · rw [he hc.1] at hc
        cases hc.2
    · rw [set_cell_ne hji, or_iff_left hji]

omit [DecidableEq κ] in
theorem Distinct.clear (h : t.Distinct) (hi : i < t.len) : (t.set i none).Distinct := by
  have hlt : ∀ x, x < (t.set i none).len → x < t.len := fun x hx =>
    ((lt_set_len (Nat.le_of_lt hi) _).mp hx).elim id fun he => he ▸ hi
  intro a ha b hb c w w' hca hcb
  have hne : ∀ x u, (t.set i none).cell x = some u → x ≠ i := by
    rintro x u hx rfl
    rw [set_cell] at hx
    cases hx
  rw [set_cell_ne (hne a _ hca)] at hca
  rw [set_cell_ne (hne b _ hcb)] at hcb
  exact h a (hlt a ha) b (hlt b hb) c w w' hca hcb

/-- **Removing**: a key whose slot is emptied is not found, and all others as before. -/
theorem get_clear (h : t.Distinct) (hk : t.get k = some (v, i)) :
    (t.set i none).get k' = if k' = k then none else t.get k' := by
  obtain ⟨hi, hc⟩ := (get_eq_some h).mp hk
  have hd := h.clear hi
  have hle := Nat.le_of_lt hi
  split
  · next hkk =>
    subst hkk
    refine get_eq_none.mpr fun j hj w hw => ?_
    by_cases hji : j = i
    · subst hji
      rw [set_cell] at hw
      cases hw
    · rw [set_cell_ne hji] at hw
      exact hji (h j (((lt_set_len hle _).mp hj).resolve_right hji) i hi k' w v hw hc)
  · next hkk =>
    refine Option.ext fun ⟨w, j⟩ => ?_
    rw [get_eq_some hd, get_eq_some h, lt_set_len hle]
    by_cases hji : j = i
    · subst hji
      rw [set_cell, hc]
      refine iff_of_false (fun hn => by cases hn.2) fun hn => hkk ?_
      cases hn.2
      rfl
    · rw [set_cell_ne hji, or_iff_left hji]

end Slots

end Lib
