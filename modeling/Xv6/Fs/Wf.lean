import Xv6.Fs.Model
import Xv6.Lib.Radix
import Xv6.Lib.Run

/-!
# Well-formed file systems

The trees of blocks below the inodes as one forest: no block is at two places, and the
bitmap holds the blocks of the forest and the blocks before the data. What an allocation
does to it: one more block, at one place that was empty.
-/

namespace Xv6.Fs

open Lib

/-- Where the data blocks start. -/
def Superblock.dstart (sb : Superblock) : Nat := sb.size - sb.nblocks

/-- The parts of the disk, in the order of `mkfs`. -/
structure Superblock.Layout (sb : Superblock) : Prop where
  inodes : ∀ i < sb.ninodes, sb.IBLOCK i < sb.bmapstart
  bitmap : ∀ b < sb.size, sb.BBLOCK b < sb.dstart
  size : sb.size < 2 ^ 32

/-- The height of the tree below `addrs[k]` of an inode. -/
def height (r : Nat × Nat) : Nat := r.2 - 9

/-- A place in the trees: an inode, a slot of it, and the entries on the way. -/
abbrev Place : Type := (Nat × Nat) × List Nat

abbrev IsPlace (p : Place) : Prop := Forest.IsPlace height NINDIRECT p

abbrev IsInner (p : Place) : Prop := Forest.IsInner height NINDIRECT p

/-- A place for file data. -/
def IsLeaf (p : Place) : Prop := IsPlace p ∧ p.2.length = height p.1

/-- The entry of the cache is in use, and `ilock` has read it. -/
def Inode.Loaded (d : Inode) : Prop := d.valid = true ∧ 0 < d.ref

instance (d : Inode) : Decidable d.Loaded := inferInstanceAs (Decidable (_ ∧ _))

namespace State

variable (s : State)

/-- The inode of number `i`, in memory or, if it is not there, on disk. -/
def cur (i : Nat) : Dinode := if (s.icache i).Loaded then (s.icache i).din else s.dinode i

/-- The block at slot `k` of inode `i`. -/
def root (r : Nat × Nat) : Nat :=
  if r.1 < s.sb.ninodes ∧ (s.cur r.1).type ≠ 0 ∧ r.2 < NDIRECT + 3 then (s.cur r.1).addrs r.2
  else 0

/-- The trees below the inodes. -/
def forest : Forest (Nat × Nat) where
  root := s.root
  mem b := (s.disk b).word

/-- The block at a place, 0 if there is none. -/
abbrev block (p : Place) : Nat := s.forest.block p

end State

/-- Blocks are owned, and the bitmap is exact. -/
structure Wf (s : State) : Prop where
  layout : s.sb.Layout
  inj : Forest.Inj height NINDIRECT s.forest
  data : ∀ p, IsPlace p → s.block p ≠ 0 → s.sb.dstart ≤ s.block p ∧ s.block p < s.sb.size
  bitmap : ∀ b < s.sb.size, s.used b = true ↔ b < s.sb.dstart ∨ ∃ p, IsPlace p ∧ s.block p = b

theorem isPlace_root (r : Nat × Nat) : IsPlace (r, []) :=
  ⟨Nat.zero_le _, fun _ h => absurd h List.not_mem_nil⟩

/-- A leaf holds no entries. -/
theorem IsLeaf.not_inner {p : Place} (h : IsLeaf p) : ¬ IsInner p := fun h' =>
  absurd h.2 (Nat.ne_of_lt h'.1)

namespace Superblock.Layout

variable {sb : Superblock} (h : sb.Layout)

include h in
theorem bmapstart_lt {b : Nat} (hb : b < sb.size) : sb.bmapstart < sb.dstart :=
  Nat.lt_of_le_of_lt (Nat.le_add_left ..) (h.bitmap b hb)

include h in
/-- The blocks of inodes are before the bitmap. -/
theorem inode_ne {i b : Nat} (hi : i < sb.ninodes) (hb : sb.bmapstart ≤ b) : sb.IBLOCK i ≠ b :=
  Nat.ne_of_lt (Nat.lt_of_lt_of_le (h.inodes i hi) hb)

theorem le_BBLOCK (sb : Superblock) (b : Nat) : sb.bmapstart ≤ sb.BBLOCK b := Nat.le_add_left ..

end Superblock.Layout

/-! ## The forest of a state -/

section
variable {s s' : State}

theorem cur_loaded {i : Nat} (h : (s.icache i).Loaded) : s.cur i = (s.icache i).din := if_pos h

theorem cur_unloaded {i : Nat} (h : ¬ (s.icache i).Loaded) : s.cur i = s.dinode i := if_neg h

theorem cur_congr {i : Nat} (hc : s'.icache i = s.icache i) (hd : s'.dinode i = s.dinode i) :
    s'.cur i = s.cur i := by
  rw [State.cur, State.cur, hc, hd]

theorem dinode_congr (hsb : s'.sb = s.sb) {i : Nat}
    (hd : s'.disk (s.sb.IBLOCK i) = s.disk (s.sb.IBLOCK i)) : s'.dinode i = s.dinode i := by
  rw [State.dinode, State.dinode, hsb, hd]

theorem used_congr (hsb : s'.sb = s.sb) {b : Nat}
    (hd : s'.disk (s.sb.BBLOCK b) = s.disk (s.sb.BBLOCK b)) : s'.used b = s.used b := by
  rw [State.used, State.used, hsb, hd]

theorem root_congr (hsb : s'.sb = s.sb) {r : Nat × Nat} (hc : r.1 < s.sb.ninodes → s'.cur r.1 = s.cur r.1) :
    s'.root r = s.root r := by
  unfold State.root
  rw [hsb]
  by_cases hi : r.1 < s.sb.ninodes
  · rw [hc hi]
  · rw [if_neg (fun h => hi h.1), if_neg (fun h => hi h.1)]

/-- The inode of a root that is there. -/
theorem root_ne_zero {r : Nat × Nat} (h : s.root r ≠ 0) :
    r.1 < s.sb.ninodes ∧ (s.cur r.1).type ≠ 0 ∧ r.2 < NDIRECT + 3 := by
  by_contra hn
  exact h (if_neg hn)

theorem block_ne_zero {p : Place} (h : s.block p ≠ 0) : p.1.1 < s.sb.ninodes ∧ (s.cur p.1.1).type ≠ 0 ∧
    p.1.2 < NDIRECT + 3 :=
  root_ne_zero fun h0 => h ((congrArg (follow _ · p.2) h0).trans (follow_zero ..))

end

namespace Wf

variable {s : State} (h : Wf s)

include h

theorem le_block {p : Place} (hp : IsPlace p) (hne : s.block p ≠ 0) : s.sb.bmapstart < s.block p :=
  Nat.lt_of_lt_of_le (h.layout.bmapstart_lt (h.data p hp hne).2) (h.data p hp hne).1

theorem block_ne_BBLOCK {p : Place} (hp : IsPlace p) (hne : s.block p ≠ 0) {b : Nat}
    (hb : b < s.sb.size) : s.block p ≠ s.sb.BBLOCK b :=
  Nat.ne_of_gt (Nat.lt_of_lt_of_le (h.layout.bitmap b hb) (h.data p hp hne).1)

theorem block_ne_IBLOCK {p : Place} (hp : IsPlace p) (hne : s.block p ≠ 0) {i : Nat}
    (hi : i < s.sb.ninodes) : s.block p ≠ s.sb.IBLOCK i :=
  (h.layout.inode_ne hi (Nat.le_of_lt (h.le_block hp hne))).symm

/-- The roots depend on the cache and on the blocks before the bitmap. -/
theorem root_eq {s' : State} (hsb : s'.sb = s.sb) (hc : s'.icache = s.icache)
    (hlow : ∀ x < s.sb.bmapstart, s'.disk x = s.disk x) (r : Nat × Nat) : s'.root r = s.root r := by
  refine root_congr hsb fun hlt => cur_congr (congrFun hc _) (dinode_congr hsb ?_)
  exact hlow _ (h.layout.inodes _ hlt)

end Wf

/-! ## Allocation -/

/-- `s'` is `s` with the block `b` allocated. -/
structure Alloc (s : State) (b : Nat) (s' : State) : Prop where
  sb : s'.sb = s.sb
  icache : s'.icache = s.icache
  input : s'.input = s.input
  lt : b < s.sb.size
  free : s.used b = false
  disk : ∀ x, x ≠ b → x ≠ s.sb.BBLOCK b → s'.disk x = s.disk x
  zero : s'.disk b = Block.zero
  bitmap : s.sb.BBLOCK b ≠ b → s'.disk (s.sb.BBLOCK b) = (s.disk (s.sb.BBLOCK b)).setBit (b % BPB)

theorem balloc_ok {s s' : State} {b : Nat} (h : s.balloc = .ok (b, s')) : Alloc s b s' := by
  simp only [State.balloc] at h
  split at h
  · next b' hf =>
    cases h
    have hb := List.find?_some hf
    have hlt := List.mem_of_find?_eq_some hf
    rw [List.mem_range] at hlt
    refine ⟨rfl, rfl, rfl, hlt, by simpa using hb, ?_, Function.update_self .., ?_⟩
    · intro x hx hx'
      exact (Function.update_of_ne hx ..).trans (Function.update_of_ne hx' ..)
    · intro hne
      exact (Function.update_of_ne hne ..).trans (Function.update_self ..)
  · cases h

theorem balloc_error {s : State} {f : Fault} (h : s.balloc = .error f) :
    f = .panic "balloc: out of blocks" := by
  simp only [State.balloc] at h
  split at h
  · cases h
  · cases h
    rfl

namespace Alloc

variable {s s' : State} {b : Nat} (h : Alloc s b s') (hwf : Wf s)

include h hwf

theorem le : s.sb.dstart ≤ b := by
  by_contra hlt
  have := (hwf.bitmap b h.lt).mpr (.inl (by omega))
  rw [h.free] at this
  cases this

theorem fresh {p : Place} (hp : IsPlace p) : s.block p ≠ b := by
  intro he
  have := (hwf.bitmap b h.lt).mpr (.inr ⟨p, hp, he⟩)
  rw [h.free] at this
  cases this

theorem ne_BBLOCK {c : Nat} (hc : c < s.sb.size) : s.sb.BBLOCK c ≠ b :=
  Nat.ne_of_lt (Nat.lt_of_lt_of_le (hwf.layout.bitmap c hc) (h.le hwf))

theorem used {c : Nat} (hc : c < s.sb.size) : s'.used c = (decide (c = b) || s.used c) := by
  unfold State.used
  rw [h.sb]
  by_cases hB : s.sb.BBLOCK c = s.sb.BBLOCK b
  · rw [hB, h.bitmap (h.ne_BBLOCK hwf h.lt), Block.bit_setBit]
    have hiff : c % BPB = b % BPB ↔ c = b := by
      constructor
      · intro hm
        have hd : c / BPB = b / BPB := Nat.add_right_cancel hB
        rw [← Nat.div_add_mod c BPB, ← Nat.div_add_mod b BPB, hd, hm]
      · rintro rfl
        rfl
    by_cases hcb : c = b
    · simp [hcb]
    · rw [if_neg (fun hm => hcb (hiff.mp hm)), decide_eq_false hcb, Bool.false_or]
  · have hcb : c ≠ b := by
      rintro rfl
      exact hB rfl
    rw [h.disk _ (h.ne_BBLOCK hwf hc) hB, decide_eq_false hcb, Bool.false_or]

/-- Below the bitmap, where the inodes are, nothing changes. -/
theorem low {x : Nat} (hx : x < s.sb.bmapstart) : s'.disk x = s.disk x := by
  have hB := Superblock.Layout.le_BBLOCK s.sb b
  have hb := hwf.layout.bmapstart_lt h.lt
  have := h.le hwf
  exact h.disk x (by omega) (by omega)

/-- The blocks that are in the forest do not change. -/
theorem owned {p : Place} (hp : IsPlace p) (hne : s.block p ≠ 0) :
    s'.disk (s.block p) = s.disk (s.block p) :=
  h.disk _ (h.fresh hwf hp) (hwf.block_ne_BBLOCK hp hne h.lt)

end Alloc

end Xv6.Fs
