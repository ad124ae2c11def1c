import Mathlib.Data.List.Nodup
import Mathlib.Logic.Function.Basic

/-!
# Redo logs

A disk with a redo log has a header that lists addresses, a slot with a value
for each of them, and the home values. `Shows D hdr slot home H` says that
recovery, which copies the slots home, turns the disk into `H` on the domain
`D`. A commit moves `H` in one write, the header's; every other write leaves
what the disk shows.
-/

namespace Lib

variable {A B : Type*}

/-- The home values after a list of updates, in order. -/
def replay [DecidableEq A] (us : List (A × B)) (h : A → B) : A → B :=
  us.foldl (fun h u => Function.update h u.1 u.2) h

section
variable [DecidableEq A] (us vs : List (A × B)) (h : A → B)

@[simp] theorem replay_nil : replay [] h = h := rfl

theorem replay_append : replay (us ++ vs) h = replay vs (replay us h) := List.foldl_append ..

theorem replay_concat (a : A) (v : B) :
    replay (us ++ [(a, v)]) h = Function.update (replay us h) a v := replay_append ..

/-- An address that no update writes keeps its value. -/
theorem replay_of_not_mem {a : A} (ha : a ∉ us.map Prod.fst) : replay us h a = h a := by
  induction us generalizing h with
  | nil => rfl
  | cons u us ih =>
    simp only [List.map_cons, List.mem_cons, not_or] at ha
    exact (ih _ ha.2).trans (Function.update_of_ne ha.1 _ _)

end

/-- What recovery makes of a disk: the slots for the addresses in the header, the
home values elsewhere. -/
structure Shows (D : A → Prop) (hdr : List A) (slot : Nat → B) (home H : A → B) : Prop where
  slot : ∀ i (hi : i < hdr.length), slot i = H hdr[i]
  home : ∀ a, D a → a ∉ hdr → home a = H a

namespace Shows

variable {D : A → Prop} {hdr : List A} {slot slot' : Nat → B} {home home' H H' : A → B}

/-- With an empty header the home values are what the disk shows. -/
theorem of_nil (hh : ∀ a, D a → home a = H a) : Shows D [] slot home H where
  slot _ hi := by simp at hi
  home a ha _ := hh a ha

theorem home_eq (h : Shows D [] slot home H) {a : A} (ha : D a) : home a = H a :=
  h.home a ha List.not_mem_nil

/-- Writing the log while the header is empty. -/
theorem log (h : Shows D [] slot home H) (hh : ∀ a, D a → home' a = home a) :
    Shows D [] slot' home' H :=
  .of_nil fun _ ha => (hh _ ha).trans (h.home_eq ha)

/-- **Commit**: one header write makes the logged values current. -/
theorem commit (h : Shows D [] slot home H) {L : List A}
    (hs : ∀ i (hi : i < L.length), slot' i = H' L[i]) (hr : ∀ a, D a → a ∉ L → H' a = H a)
    (hh : ∀ a, D a → home' a = home a) : Shows D L slot' home' H' where
  slot := hs
  home a ha hn := by rw [hh a ha, hr a ha hn, h.home_eq ha]

/-- A write to the home of a logged address. -/
theorem install (h : Shows D hdr slot home H) {a : A} (ha : a ∈ hdr)
    (hs : ∀ i < hdr.length, slot' i = slot i) (hh : ∀ b, D b → b ≠ a → home' b = home b) :
    Shows D hdr slot' home' H where
  slot i hi := (hs i hi).trans (h.slot i hi)
  home b hb hn := by
    have hne : b ≠ a := by rintro rfl; exact hn ha
    rw [hh b hb hne, h.home b hb hn]

/-- Erasing the header once all logged values are home. -/
theorem erase (h : Shows D hdr slot home H) (hall : ∀ a ∈ hdr, home a = H a)
    (hh : ∀ a, D a → home' a = home a) : Shows D [] slot' home' H :=
  .of_nil fun a ha => by
    rw [hh a ha]
    by_cases hm : a ∈ hdr
    · exact hall a hm
    · exact h.home a ha hm

end Shows

end Lib
