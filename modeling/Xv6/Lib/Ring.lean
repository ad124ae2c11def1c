import Mathlib.Data.List.Chain
import Mathlib.Data.List.Nodup
import Mathlib.Data.Option.Basic
import Mathlib.Logic.Function.Basic

/-!
# Rings of links

A circular doubly linked list through a sentinel: `none` is the sentinel, `some x`
the node `x`. `Ring r l` says that `next` leads from the sentinel through `l` and
back to it, and that `prev` leads the other way. A node is taken out and put in
front by the usual assignments; a loop over the ring is a `find?` in `l`.
-/

namespace Lib

variable {ι : Type*}

/-- The link fields of the nodes and of the sentinel. -/
structure LinkFields (ι : Type*) where
  next : Option ι → Option ι
  prev : Option ι → Option ι

namespace LinkFields

/-- The sentinel alone. -/
def empty : LinkFields ι := ⟨fun _ => none, fun _ => none⟩

variable [DecidableEq ι]

/-- `x->next->prev = x->prev; x->prev->next = x->next`. -/
def unlink (r : LinkFields ι) (x : ι) : LinkFields ι :=
  let r := { r with prev := Function.update r.prev (r.next (some x)) (r.prev (some x)) }
  { r with next := Function.update r.next (r.prev (some x)) (r.next (some x)) }

/-- `x->next = head.next; x->prev = &head; head.next->prev = x; head.next = x`. -/
def pushFront (r : LinkFields ι) (x : ι) : LinkFields ι :=
  let r := { r with next := Function.update r.next (some x) (r.next none) }
  let r := { r with prev := Function.update r.prev (some x) none }
  let r := { r with prev := Function.update r.prev (r.next none) (some x) }
  { r with next := Function.update r.next none (some x) }

end LinkFields

/-- A loop that starts at a node, follows `f` and stops at the first node with
`p`, or at the sentinel; `none` if neither is met in `n` steps. -/
def walk (f : Option ι → Option ι) (p : ι → Bool) : ℕ → Option ι → Option (Option ι)
  | _, none => some none
  | 0, some _ => none
  | n + 1, some x => if p x then some (some x) else walk f p n (f (some x))

/-! ## Links -/

/-- Consecutive nodes are linked both ways. -/
def Links (r : LinkFields ι) (l : List (Option ι)) : Prop :=
  l.IsChain fun a b => r.next a = b ∧ r.prev b = a

theorem links_append {r : LinkFields ι} {l₁ l₂ : List (Option ι)} {x : Option ι} :
    Links r (l₁ ++ x :: l₂) ↔ Links r (l₁ ++ [x]) ∧ Links r (x :: l₂) :=
  List.isChain_split

theorem links_cons_cons {r : LinkFields ι} {l : List (Option ι)} {x y : Option ι} :
    Links r (x :: y :: l) ↔ (r.next x = y ∧ r.prev y = x) ∧ Links r (y :: l) :=
  List.isChain_cons_cons

/-- Links read `next` of every node but the last and `prev` of every node but the first. -/
theorem Links.transport {r r' : LinkFields ι} {l : List (Option ι)} (h : Links r l)
    (hn : ∀ a ∈ l.dropLast, r'.next a = r.next a) (hp : ∀ a ∈ l.tail, r'.prev a = r.prev a) :
    Links r' l := by
  induction l with
  | nil => exact .nil
  | cons x l ih =>
    cases l with
    | nil => exact .singleton _
    | cons y l =>
      rw [links_cons_cons] at h ⊢
      obtain ⟨⟨hx, hy⟩, hl⟩ := h
      refine ⟨⟨?_, ?_⟩, ih hl (fun a ha => hn a ?_) fun a ha => hp a ?_⟩
      · rw [hn x (by simp), hx]
      · rw [hp y (by simp), hy]
      · rw [List.dropLast_cons_cons]; exact List.mem_cons_of_mem _ ha
      · exact List.mem_cons_of_mem _ ha

structure Ring (r : LinkFields ι) (l : List ι) : Prop where
  links : Links r (none :: l.map some ++ [none])
  nodup : l.Nodup

namespace Ring

variable {r : LinkFields ι} {l l₁ l₂ : List ι} {x : ι}

theorem empty : Ring (.empty : LinkFields ι) [] :=
  ⟨.cons_cons ⟨rfl, rfl⟩ (.singleton _), .nil⟩

variable [DecidableEq ι]

/-- **Push a node in front.** -/
theorem pushFront (h : Ring r l) (hx : x ∉ l) : Ring (r.pushFront x) (x :: l) where
  nodup := List.nodup_cons.mpr ⟨hx, h.nodup⟩
  links := by
    obtain ⟨y, l', e⟩ : ∃ y l', l.map some ++ [none] = y :: l' := by
      cases l with
      | nil => exact ⟨none, [], rfl⟩
      | cons a l => exact ⟨some a, l.map some ++ [none], rfl⟩
    have hl := h.links
    rw [List.cons_append, e, links_cons_cons] at hl
    obtain ⟨⟨hn, -⟩, hl⟩ := hl
    have hmem : ∀ a ∈ y :: l', a ≠ some x := by
      intro a ha hax
      rw [← e, hax] at ha
      simp at ha
      exact hx ha
    have hnd : (y :: l').Nodup := by
      rw [← e]
      refine List.nodup_append.mpr ⟨h.nodup.map (Option.some_injective _), by simp, ?_⟩
      intro a ha b hb hab
      subst hab
      simp at ha hb
      obtain ⟨c, -, rfl⟩ := ha
      cases hb
    have hlast : none ∉ (y :: l').dropLast := by
      rw [← e, List.dropLast_concat]
      simp
    rw [List.map_cons, List.cons_append, List.cons_append, e, links_cons_cons, links_cons_cons]
    have hy : y ≠ some x := hmem y (by simp)
    refine ⟨⟨?_, ?_⟩, ⟨?_, ?_⟩, ?_⟩
    · simp [LinkFields.pushFront]
    · simp [LinkFields.pushFront, hn, hy.symm]
    · simp [LinkFields.pushFront, hn]
    · simp [LinkFields.pushFront, hn]
    · refine Links.transport hl (fun a ha => ?_) fun a ha => ?_
      · have h1 : a ≠ none := fun ha' => hlast (ha' ▸ ha)
        have h2 : a ≠ some x := hmem a (List.dropLast_subset _ ha)
        simp [LinkFields.pushFront, h1, h2]
      · have h1 : a ≠ y := fun ha' => (List.nodup_cons.mp hnd).1 (ha' ▸ ha)
        have h2 : a ≠ some x := hmem a (List.mem_cons_of_mem _ ha)
        simp [LinkFields.pushFront, hn, h1, h2]

/-- **Push the nodes of a list**, one after the other. -/
theorem pushAll (h : Ring r l) {xs : List ι} (hxs : xs.Nodup) (hd : ∀ x ∈ xs, x ∉ l) :
    Ring (xs.foldl .pushFront r) (xs.reverse ++ l) := by
  induction xs generalizing r l with
  | nil => exact h
  | cons x xs ih =>
    obtain ⟨hx, hxs⟩ := List.nodup_cons.mp hxs
    have := ih (h.pushFront (hd x List.mem_cons_self)) hxs fun y hy hm => by
      rcases List.mem_cons.mp hm with rfl | hm
      · exact hx hy
      · exact hd y (List.mem_cons_of_mem _ hy) hm
    simpa using this

/-- **Take a node out.** -/
theorem unlink (h : Ring r (l₁ ++ x :: l₂)) : Ring (r.unlink x) (l₁ ++ l₂) where
  nodup := (List.nodup_middle.mp h.nodup).of_cons
  links := by
    -- `a` is the neighbour before `x`, `b` the one after it
    obtain ⟨A, a, hA⟩ : ∃ A a, none :: l₁.map some = A ++ [a] :=
      ⟨_, _, (List.dropLast_append_getLast (List.cons_ne_nil _ _)).symm⟩
    obtain ⟨b, B, hB⟩ : ∃ b B, l₂.map some ++ [none] = b :: B := by
      cases l₂ with
      | nil => exact ⟨none, [], rfl⟩
      | cons a l => exact ⟨some a, l.map some ++ [none], rfl⟩
    have hnd := List.nodup_middle.mp h.nodup
    obtain ⟨hx, hnd⟩ := List.nodup_cons.mp hnd
    have hdis := List.nodup_append.mp hnd
    have hndA : (A ++ [a]).Nodup := by
      rw [← hA]
      exact List.nodup_cons.mpr ⟨by simp, hdis.1.map (Option.some_injective _)⟩
    have hndB : (b :: B).Nodup := by
      rw [← hB]
      refine List.nodup_append.mpr ⟨hdis.2.1.map (Option.some_injective _), by simp, ?_⟩
      simp
    have hxA : some x ∉ A ++ [a] := by
      rw [← hA]
      simpa using fun h' => hx (List.mem_append_left _ h')
    have hxB : some x ∉ b :: B := by
      rw [← hB]
      simpa using fun h' => hx (List.mem_append_right _ h')
    -- no link field of the two halves but `a->next` and `b->prev` is assigned
    have htail : b ∉ (A ++ [a]).tail := by
      rw [← hA, List.tail_cons]
      intro hb
      obtain ⟨c, hc, rfl⟩ := List.mem_map.mp hb
      have : some c ∈ l₂.map some ++ [none] := hB ▸ List.mem_cons_self
      simp at this
      exact hdis.2.2 c hc c this rfl
    have hlast : a ∉ (b :: B).dropLast := by
      rw [← hB, List.dropLast_concat]
      intro ha
      obtain ⟨c, hc, rfl⟩ := List.mem_map.mp ha
      have : some c ∈ none :: l₁.map some := hA ▸ by simp
      simp at this
      exact hdis.2.2 c this c hc rfl
    have hl : Links r (A ++ a :: some x :: b :: B) := by
      have := h.links
      rwa [List.map_append, List.map_cons, ← List.cons_append, hA, List.append_assoc,
        List.cons_append, hB, List.append_assoc, List.singleton_append] at this
    rw [links_append, links_cons_cons, links_cons_cons] at hl
    obtain ⟨hlA, ⟨-, hxa⟩, ⟨hxb, -⟩, hlB⟩ := hl
    have hne : some x ≠ b := fun e => hxB (e ▸ List.mem_cons_self)
    rw [List.map_append, ← List.cons_append, hA, List.append_assoc, hB, List.append_assoc,
      List.singleton_append, links_append, links_cons_cons]
    refine ⟨Links.transport hlA (fun c hc => ?_) fun c hc => ?_, ⟨?_, ?_⟩,
      Links.transport hlB (fun c hc => ?_) fun c hc => ?_⟩
    · have : c ≠ a := by
        rintro rfl
        rw [List.dropLast_concat] at hc
        exact (List.nodup_append.mp hndA).2.2 c hc c (by simp) rfl
      simp [LinkFields.unlink, hxa, hxb, hne, this]
    · have : c ≠ b := fun e => htail (e ▸ hc)
      simp [LinkFields.unlink, hxb, this]
    · simp [LinkFields.unlink, hxa, hxb, hne]
    · simp [LinkFields.unlink, hxa, hxb]
    · have : c ≠ a := fun e => hlast (e ▸ hc)
      simp [LinkFields.unlink, hxa, hxb, hne, this]
    · have : c ≠ b := fun e => (List.nodup_cons.mp hndB).1 (e ▸ hc)
      simp [LinkFields.unlink, hxb, this]

end Ring

/-! ## Loops -/

theorem walk_of_chain {f : Option ι → Option ι} {p : ι → Bool} {l : List ι} {n : ℕ} {a : Option ι}
    (h : (a :: l.map some ++ [none]).IsChain fun a b => f a = b) (hn : l.length ≤ n) :
    walk f p n (f a) = some (l.find? p) := by
  induction l generalizing a n with
  | nil =>
    rw [List.map_nil, List.cons_append, List.nil_append, List.isChain_pair] at h
    rw [h]
    cases n <;> rfl
  | cons x l ih =>
    rw [List.map_cons, List.cons_append, List.cons_append, List.isChain_cons_cons] at h
    obtain ⟨hx, hl⟩ := h
    obtain ⟨m, rfl⟩ : ∃ m, n = m + 1 := ⟨n - 1, by simp at hn; omega⟩
    rw [hx, walk, List.find?_cons]
    cases p x with
    | true => rfl
    | false => exact ih hl (by simpa using hn)

namespace Ring

variable {r : LinkFields ι} {l : List ι} {p : ι → Bool} {n : ℕ}

/-- **Forwards**: from `head.next` along `next`. -/
theorem walk_next (h : Ring r l) (hn : l.length ≤ n) :
    walk r.next p n (r.next none) = some (l.find? p) :=
  walk_of_chain (h.links.imp fun _ _ h => h.1) hn

/-- **Backwards**: from `head.prev` along `prev`. -/
theorem walk_prev (h : Ring r l) (hn : l.length ≤ n) :
    walk r.prev p n (r.prev none) = some (l.reverse.find? p) := by
  refine walk_of_chain ?_ (by simpa using hn)
  have : (none :: l.map some ++ [none]).reverse = none :: l.reverse.map some ++ [none] := by
    simp
  rw [← this, List.isChain_reverse]
  exact h.links.imp fun _ _ h => h.2

end Ring

end Lib
