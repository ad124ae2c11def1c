import Mathlib.Data.List.Basic
import Mathlib.Data.List.Nodup
import Mathlib.Data.List.Induction
import Mathlib.Logic.Function.Basic

/-!
# Forests of radix trees

Trees of blocks, in a memory of blocks with numbered words: a word is the number of
the child, 0 if there is none. Each tree has a root word of its own and a height;
`block (r, path)` is the block that is reached from root `r` along `path`. The places of
a forest are its roots with the paths that the heights allow.

`Graft.block_eq` says what a new block does to all places: it fills one of them.
-/

namespace Lib

/-- The block reached from block `a`. -/
def follow (mem : Nat → Nat → Nat) : Nat → List Nat → Nat
  | a, [] => a
  | a, i :: is => if a = 0 then 0 else follow mem (mem a i) is

theorem follow_zero (mem : Nat → Nat → Nat) (path : List Nat) : follow mem 0 path = 0 := by
  cases path <;> rfl

theorem follow_append (mem : Nat → Nat → Nat) (a : Nat) (path path' : List Nat) :
    follow mem a (path ++ path') = follow mem (follow mem a path) path' := by
  induction path generalizing a with
  | nil => rfl
  | cons i is ih =>
    rw [List.cons_append, follow, follow]
    split
    · rw [follow_zero]
    · exact ih _

theorem follow_concat (mem : Nat → Nat → Nat) (a : Nat) (path : List Nat) (i : Nat) :
    follow mem a (path ++ [i]) = if follow mem a path = 0 then 0 else mem (follow mem a path) i := by
  rw [follow_append]
  rfl

/-- Roots and words. -/
structure Forest (ι : Type*) where
  root : ι → Nat
  mem : Nat → Nat → Nat

namespace Forest

variable {ι : Type*}

def block (f : Forest ι) (p : ι × List Nat) : Nat := follow f.mem (f.root p.1) p.2

theorem block_concat (f : Forest ι) (r : ι) (path : List Nat) (i : Nat) :
    f.block (r, path ++ [i]) = if f.block (r, path) = 0 then 0 else f.mem (f.block (r, path)) i :=
  follow_concat ..

/-- A block on the way is there. -/
theorem block_prefix {f : Forest ι} {r : ι} {path path' : List Nat}
    (h : f.block (r, path ++ path') ≠ 0) : f.block (r, path) ≠ 0 := by
  intro h0
  refine h ?_
  show follow f.mem (f.root r) (path ++ path') = 0
  rw [follow_append]
  exact (congrArg (follow f.mem · path') h0).trans (follow_zero ..)

variable (height : ι → Nat) (fan : Nat)

/-- The paths that the height of a root allows. -/
def IsPlace (p : ι × List Nat) : Prop := p.2.length ≤ height p.1 ∧ ∀ i ∈ p.2, i < fan

/-- The places whose blocks hold words of the forest. -/
def IsInner (p : ι × List Nat) : Prop := p.2.length < height p.1 ∧ ∀ i ∈ p.2, i < fan

variable {height fan}

theorem IsInner.isPlace {p : ι × List Nat} (h : IsInner height fan p) : IsPlace height fan p :=
  ⟨Nat.le_of_lt h.1, h.2⟩

theorem isPlace_concat {r : ι} {path : List Nat} {i : Nat} :
    IsPlace height fan (r, path ++ [i]) ↔ IsInner height fan (r, path) ∧ i < fan := by
  simp only [IsPlace, IsInner, List.length_append, List.length_singleton, List.mem_append,
    List.mem_singleton]
  constructor
  · rintro ⟨hl, hi⟩
    exact ⟨⟨by omega, fun j hj => hi j (.inl hj)⟩, hi i (.inr rfl)⟩
  · rintro ⟨⟨hl, hj⟩, hi⟩
    refine ⟨by omega, ?_⟩
    rintro j (h | rfl)
    · exact hj j h
    · exact hi

variable {f f' : Forest ι}

/-- The same block at a place: the root is the same, and the words of the blocks on
the way. -/
theorem block_congr {q : ι × List Nat} (hroot : f'.root q.1 = f.root q.1)
    (hmem : ∀ q, IsInner height fan q → f.block q ≠ 0 →
      ∀ i < fan, f'.mem (f.block q) i = f.mem (f.block q) i)
    (hq : IsPlace height fan q) : f'.block q = f.block q := by
  obtain ⟨r, path⟩ := q
  induction path using List.reverseRecOn with
  | nil => exact hroot
  | append_singleton path i ih =>
    obtain ⟨hin, hi⟩ := isPlace_concat.mp hq
    rw [block_concat, block_concat, ih hroot hin.isPlace]
    split
    · rfl
    · next hne => exact hmem _ hin hne i hi

/-! ## Ownership -/

/-- No block is at two places. -/
def Inj (height : ι → Nat) (fan : Nat) (f : Forest ι) : Prop :=
  ∀ p q, IsPlace height fan p → IsPlace height fan q → f.block p ≠ 0 → f.block p = f.block q → p = q

theorem Inj.congr (h : Inj height fan f)
    (hat : ∀ q, IsPlace height fan q → f'.block q = f.block q) : Inj height fan f' := by
  intro p q hp hq hne he
  rw [hat p hp] at hne he
  rw [hat q hq] at he
  exact h p q hp hq hne he

/-- Setting the word at `(f.block q, i)` is seen from `q` only. -/
theorem Inj.word_iff (h : Inj height fan f) {q q' : ι × List Nat} (hq : IsInner height fan q)
    (hq' : IsInner height fan q') (hne : f.block q ≠ 0) {i i' : Nat} :
    f.block q = f.block q' ∧ i = i' ↔ (q.1, q.2 ++ [i]) = (q'.1, q'.2 ++ [i']) := by
  constructor
  · rintro ⟨he, rfl⟩
    rw [h q q' hq.isPlace hq'.isPlace hne he]
  · intro he
    simp only [Prod.mk.injEq, List.append_singleton_inj] at he
    obtain ⟨h1, h2, h3⟩ := he
    exact ⟨congrArg f.block (Prod.ext h1 h2), h3⟩

/-! ## Grafting -/

variable [DecidableEq ι]

/-- A new block, empty, is put at place `p`: the word that leads there is set. -/
structure Graft (height : ι → Nat) (fan : Nat) (f f' : Forest ι) (p : ι × List Nat) (b : Nat) :
    Prop where
  root : ∀ r, f'.root r = if p = (r, []) then b else f.root r
  mem : ∀ q, IsInner height fan q → f.block q ≠ 0 → ∀ i < fan,
    f'.mem (f.block q) i = if p = (q.1, q.2 ++ [i]) then b else f.mem (f.block q) i
  empty : ∀ i < fan, f'.mem b i = 0
  ne : b ≠ 0
  free : f.block p = 0
  parent : ∀ path i, p.2 = path ++ [i] → f.block (p.1, path) ≠ 0

/-- **Grafting** fills one place and changes no other. -/
theorem Graft.block_eq {p : ι × List Nat} {b : Nat} (h : Graft height fan f f' p b)
    {q : ι × List Nat} (hq : IsPlace height fan q) : f'.block q = if p = q then b else f.block q := by
  obtain ⟨r, path⟩ := q
  induction path using List.reverseRecOn with
  | nil => exact h.root r
  | append_singleton path i ih =>
    obtain ⟨hin, hi⟩ := isPlace_concat.mp hq
    rw [block_concat, ih hin.isPlace]
    by_cases hp : p = (r, path)
    · -- below the new block there is nothing, as before
      have h0 : f.block (r, path) = 0 := by rw [← hp]; exact h.free
      have hne : p ≠ (r, path ++ [i]) := by rw [hp]; simp
      rw [if_pos hp, if_neg h.ne, h.empty i hi, if_neg hne, block_concat, if_pos h0]
    · rw [if_neg hp]
      by_cases h0 : f.block (r, path) = 0
      · have hne : p ≠ (r, path ++ [i]) := by
          rintro rfl
          exact h.parent path i rfl h0
        rw [if_pos h0, if_neg hne, block_concat, if_pos h0]
      · rw [if_neg h0, h.mem _ hin h0 i hi, block_concat, if_neg h0]

theorem Inj.graft {p : ι × List Nat} {b : Nat} (h : Inj height fan f)
    (hg : Graft height fan f f' p b) (hfresh : ∀ q, IsPlace height fan q → f.block q ≠ b) :
    Inj height fan f' := by
  intro q q' hq hq' hne he
  rw [hg.block_eq hq] at hne he
  rw [hg.block_eq hq'] at he
  by_cases hp : p = q
  · by_cases hp' : p = q'
    · exact hp.symm.trans hp'
    · rw [if_pos hp, if_neg hp'] at he
      exact absurd he.symm (hfresh q' hq')
  · rw [if_neg hp] at hne he
    by_cases hp' : p = q'
    · rw [if_pos hp'] at he
      exact absurd he (hfresh q hq)
    · rw [if_neg hp'] at he
      exact h q q' hq hq' hne he

end Forest

/-! ## The blocks of a tree -/

/-- The blocks of the tree of height `h` at `a`, children before parents. -/
def subtree (mem : Nat → Nat → Nat) (fan : Nat) : Nat → Nat → List Nat
  | 0, a => if a = 0 then [] else [a]
  | h + 1, a =>
    if a = 0 then [] else (List.range fan).flatMap (fun i => subtree mem fan h (mem a i)) ++ [a]

section
variable {mem : Nat → Nat → Nat} {fan : Nat}

theorem mem_subtree {h a x : Nat} : x ∈ subtree mem fan h a ↔
    x ≠ 0 ∧ ∃ path : List Nat, path.length ≤ h ∧ (∀ i ∈ path, i < fan) ∧ follow mem a path = x := by
  induction h generalizing a x with
  | zero =>
    rw [subtree]
    split
    · next h0 =>
      subst h0
      refine iff_of_false List.not_mem_nil ?_
      rintro ⟨hx, path, -, -, he⟩
      rw [follow_zero] at he
      exact hx he.symm
    · next hne =>
      rw [List.mem_singleton]
      constructor
      · rintro rfl
        exact ⟨hne, [], Nat.le_refl _, fun _ h => absurd h List.not_mem_nil, rfl⟩
      · rintro ⟨-, path, hlen, -, he⟩
        rw [List.eq_nil_of_length_eq_zero (Nat.le_zero.mp hlen)] at he
        exact he.symm
  | succ h ih =>
    rw [subtree]
    split
    · next h0 =>
      subst h0
      refine iff_of_false List.not_mem_nil ?_
      rintro ⟨hx, path, -, -, he⟩
      rw [follow_zero] at he
      exact hx he.symm
    · next hne =>
      simp only [List.mem_append, List.mem_flatMap, List.mem_range, List.mem_singleton, ih]
      constructor
      · rintro (⟨i, hi, hx, path, hlen, hfan, he⟩ | rfl)
        · refine ⟨hx, i :: path, by simp; omega, ?_, ?_⟩
          · rintro j (_ | ⟨_, hj⟩)
            · exact hi
            · exact hfan j hj
          · rw [follow, if_neg hne]
            exact he
        · exact ⟨hne, [], Nat.zero_le _, fun _ h => absurd h List.not_mem_nil, rfl⟩
      · rintro ⟨hx, path, hlen, hfan, he⟩
        cases path with
        | nil => exact .inr he.symm
        | cons i path =>
          rw [follow, if_neg hne] at he
          refine .inl ⟨i, hfan i List.mem_cons_self, hx, path, by simp at hlen; omega,
            fun j hj => hfan j (List.mem_cons_of_mem _ hj), he⟩

/-- No block occurs twice when no two paths lead to it. -/
theorem nodup_subtree {h a : Nat} (hinj : ∀ path path' : List Nat, path.length ≤ h →
    path'.length ≤ h → (∀ i ∈ path, i < fan) → (∀ i ∈ path', i < fan) → follow mem a path ≠ 0 →
    follow mem a path = follow mem a path' → path = path') : (subtree mem fan h a).Nodup := by
  induction h generalizing a with
  | zero =>
    rw [subtree]
    split
    · exact List.nodup_nil
    · exact List.nodup_singleton a
  | succ h ih =>
    rw [subtree]
    split
    · exact List.nodup_nil
    · next hne =>
      have hcons : ∀ (i : Nat) (path : List Nat), follow mem a (i :: path) = follow mem (mem a i) path :=
        fun i path => by rw [follow, if_neg hne]
      have hlt : ∀ {i : Nat} {path : List Nat}, i < fan → (∀ j ∈ path, j < fan) →
          ∀ j ∈ i :: path, j < fan := by
        rintro i path hi hp j (_ | ⟨_, hj⟩)
        · exact hi
        · exact hp j hj
      refine List.nodup_append.mpr ⟨List.nodup_flatMap.mpr ⟨fun i hi => ?_, ?_⟩,
        List.nodup_singleton a, ?_⟩
      · rw [List.mem_range] at hi
        refine ih fun path path' hl hl' hf hf' hne' he => ?_
        rw [← hcons, ← hcons] at he
        rw [← hcons] at hne'
        have := hinj (i :: path) (i :: path') (by simp; omega) (by simp; omega) (hlt hi hf)
          (hlt hi hf') hne' he
        exact (List.cons.inj this).2
      · refine List.nodup_range.pairwise_of_forall_ne fun i hi j hj hij => ?_
        rw [List.mem_range] at hi hj
        refine List.disjoint_left.mpr ?_
        intro x hx hx'
        obtain ⟨hx0, path, hl, hf, rfl⟩ := mem_subtree.mp hx
        obtain ⟨-, path', hl', hf', he⟩ := mem_subtree.mp hx'
        rw [← hcons, ← hcons] at he
        rw [← hcons] at hx0
        have := hinj (i :: path) (j :: path') (by simp; omega) (by simp; omega) (hlt hi hf)
          (hlt hj hf') hx0 he.symm
        exact hij (List.cons.inj this).1
      · intro x hx y hy
        rw [List.mem_singleton.mp hy]
        rintro rfl
        obtain ⟨i, hi, hx⟩ := List.mem_flatMap.mp hx
        rw [List.mem_range] at hi
        obtain ⟨hx0, path, hl, hf, he⟩ := mem_subtree.mp hx
        have hw : follow mem x [] = follow mem x (i :: path) := by
          rw [hcons]
          exact he.symm
        have := hinj [] (i :: path) (Nat.zero_le _) (by simp; omega)
          (fun _ h => absurd h List.not_mem_nil) (hlt hi hf) hne hw
        cases this

end

/-! ## The blocks of a forest -/

namespace Forest

variable {ι : Type*} {height : ι → Nat} {fan : Nat} {f : Forest ι}

/-- The blocks of the trees of the roots in a list. -/
def blocks (height : ι → Nat) (fan : Nat) (f : Forest ι) (rs : List ι) : List Nat :=
  rs.flatMap fun r => subtree f.mem fan (height r) (f.root r)

theorem mem_blocks {rs : List ι} {x : Nat} : x ∈ blocks height fan f rs ↔
    x ≠ 0 ∧ ∃ p, p.1 ∈ rs ∧ IsPlace height fan p ∧ f.block p = x := by
  simp only [blocks, List.mem_flatMap, mem_subtree]
  constructor
  · rintro ⟨r, hr, hx, path, hl, hf, he⟩
    exact ⟨hx, (r, path), hr, ⟨hl, hf⟩, he⟩
  · rintro ⟨hx, ⟨r, path⟩, hr, ⟨hl, hf⟩, he⟩
    exact ⟨r, hr, hx, path, hl, hf, he⟩

/-- In a forest without sharing no block is listed twice. -/
theorem Inj.nodup_blocks (h : Inj height fan f) {rs : List ι} (hrs : rs.Nodup) :
    (blocks height fan f rs).Nodup := by
  refine List.nodup_flatMap.mpr ⟨fun r _ => ?_, hrs.pairwise_of_forall_ne fun r _ r' _ hne => ?_⟩
  · refine nodup_subtree fun path path' hl hl' hf hf' hne he => ?_
    exact (Prod.mk.inj (h (r, path) (r, path') ⟨hl, hf⟩ ⟨hl', hf'⟩ hne he)).2
  · refine List.disjoint_left.mpr ?_
    intro x hx hx'
    obtain ⟨hx0, path, hl, hf, rfl⟩ := mem_subtree.mp hx
    obtain ⟨-, path', hl', hf', he⟩ := mem_subtree.mp hx'
    exact hne (Prod.mk.inj (h (r, path) (r', path') ⟨hl, hf⟩ ⟨hl', hf'⟩ hx0 he.symm)).1

end Forest

end Lib
