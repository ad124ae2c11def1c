import Xv6.Fs.Block

/-!
# Inodes on disk

`struct superblock` and `struct dinode` of `fs.h`: where the inode of a number and
the bit of a block are, and an inode as it is written to its block and read back.
-/

namespace Xv6.Fs

def NDIRECT : Nat := 10
def INDIRECT_IDX : Nat := 10
def DINDIRECT_IDX : Nat := 11
def TINDIRECT_IDX : Nat := 12
def NINDIRECT : Nat := BSIZE / 4
def MAXFILE : Nat := NDIRECT + NINDIRECT + 16384 + 2097152

/-- Inodes per block. -/
def IPB : Nat := BSIZE / 64

/-- Bitmap bits per block. -/
def BPB : Nat := BSIZE * 8

def T_DIR : Int := 1
def T_FILE : Int := 2
def T_DEV : Int := 3

structure Superblock where
  size : Nat
  nblocks : Nat
  ninodes : Nat
  nlog : Nat
  logstart : Nat
  inodestart : Nat
  bmapstart : Nat
  deriving DecidableEq, Repr

/-- `IBLOCK(i, sb)`. -/
def Superblock.IBLOCK (sb : Superblock) (i : Nat) : Nat := i / IPB + sb.inodestart

/-- `BBLOCK(b, sb)`. -/
def Superblock.BBLOCK (sb : Superblock) (b : Nat) : Nat := b / BPB + sb.bmapstart

/-- The value of `x` as a `short`. -/
def short (x : Int) : Int := (x + 2 ^ 15) % 2 ^ 16 - 2 ^ 15

/-- What an inode in memory copies from its `struct dinode`; `addrs` has
`NDIRECT+3` entries. -/
@[ext] structure Dinode where
  type : Int
  major : Int
  minor : Int
  nlink : Int
  size : Nat
  addrs : Nat → Nat

namespace Block

/-- `((struct dinode*)data)[k]`. -/
def dinode (b : Block) (k : Nat) : Dinode where
  type := short (b.half (32 * k))
  major := short (b.half (32 * k + 1))
  minor := short (b.half (32 * k + 2))
  nlink := short (b.half (32 * k + 3))
  size := b.word (16 * k + 2)
  addrs j := if j < NDIRECT + 3 then b.word (16 * k + 3 + j) else 0

/-- The first `n` words of `memmove(dip->addrs, ip->addrs, sizeof(ip->addrs))`. -/
def putAddrs (b : Block) (k : Nat) (addrs : Nat → Nat) : Nat → Block
  | 0 => b
  | n + 1 => (b.putAddrs k addrs n).setWord (16 * k + 3 + n) (addrs n)

/-- The assignments of `iupdate` to `((struct dinode*)data)[k]`. -/
def setDinode (b : Block) (k : Nat) (d : Dinode) : Block :=
  let b := b.setHalf (32 * k) (d.type % 2 ^ 16).toNat
  let b := b.setHalf (32 * k + 1) (d.major % 2 ^ 16).toNat
  let b := b.setHalf (32 * k + 2) (d.minor % 2 ^ 16).toNat
  let b := b.setHalf (32 * k + 3) (d.nlink % 2 ^ 16).toNat
  let b := b.setWord (16 * k + 2) d.size
  b.putAddrs k d.addrs (NDIRECT + 3)

end Block

/-- An inode whose fields are values of their types. -/
structure Dinode.Ok (d : Dinode) : Prop where
  type : short d.type = d.type
  major : short d.major = d.major
  minor : short d.minor = d.minor
  nlink : short d.nlink = d.nlink
  size : d.size < 2 ^ 32
  addrs : ∀ j, d.addrs j < 2 ^ 32
  range : ∀ j, NDIRECT + 3 ≤ j → d.addrs j = 0

namespace Block

variable (b : Block) {k : Nat}

theorem putAddrs_word (addrs : Nat → Nat) (n j : Nat) : (b.putAddrs k addrs n).word j =
    if 16 * k + 3 ≤ j ∧ j < 16 * k + 3 + n then addrs (j - (16 * k + 3)) % 2 ^ 32 else b.word j := by
  induction n with
  | zero => rw [putAddrs, if_neg (by omega)]
  | succ n ih =>
    by_cases hj : j = 16 * k + 3 + n
    · subst hj
      rw [putAddrs, word_setWord_self, if_pos (by omega), Nat.add_sub_cancel_left]
    · rw [putAddrs, word_setWord_ne _ hj, ih]
      split
      · rw [if_pos (by omega)]
      · rw [if_neg (by omega)]

theorem putAddrs_half (addrs : Nat → Nat) (n : Nat) {j : Nat} (hj : j < 32 * k + 6 ∨ 32 * k + 32 ≤ j)
    (hn : n ≤ NDIRECT + 3) : (b.putAddrs k addrs n).half j = b.half j := by
  unfold NDIRECT at hn
  induction n with
  | zero => rfl
  | succ n ih => rw [putAddrs, half_setWord_ne _ (by omega), ih (by omega)]

theorem short_mod (x : Int) : short ((x % 2 ^ 16).toNat % 2 ^ 16 : Nat) = short x := by
  unfold short
  omega

/-- **Inode round trip**: `ilock` reads what `iupdate` wrote. -/
theorem dinode_setDinode (d : Dinode) (hd : d.Ok) : (b.setDinode k d).dinode k = d := by
  have h0 : (b.setDinode k d).half (32 * k) = (d.type % 2 ^ 16).toNat % 2 ^ 16 := by
    unfold setDinode
    rw [putAddrs_half _ _ _ (by omega) (Nat.le_refl _), half_setWord_ne _ (by omega),
      half_setHalf_ne _ (by omega), half_setHalf_ne _ (by omega), half_setHalf_ne _ (by omega),
      half_setHalf_self]
  have h1 : (b.setDinode k d).half (32 * k + 1) = (d.major % 2 ^ 16).toNat % 2 ^ 16 := by
    unfold setDinode
    rw [putAddrs_half _ _ _ (by omega) (Nat.le_refl _), half_setWord_ne _ (by omega),
      half_setHalf_ne _ (by omega), half_setHalf_ne _ (by omega), half_setHalf_self]
  have h2 : (b.setDinode k d).half (32 * k + 2) = (d.minor % 2 ^ 16).toNat % 2 ^ 16 := by
    unfold setDinode
    rw [putAddrs_half _ _ _ (by omega) (Nat.le_refl _), half_setWord_ne _ (by omega),
      half_setHalf_ne _ (by omega), half_setHalf_self]
  have h3 : (b.setDinode k d).half (32 * k + 3) = (d.nlink % 2 ^ 16).toNat % 2 ^ 16 := by
    unfold setDinode
    rw [putAddrs_half _ _ _ (by omega) (Nat.le_refl _), half_setWord_ne _ (by omega),
      half_setHalf_self]
  have h4 : (b.setDinode k d).word (16 * k + 2) = d.size % 2 ^ 32 := by
    unfold setDinode
    rw [putAddrs_word, if_neg (by omega), word_setWord_self]
  have h5 : ∀ j < NDIRECT + 3, (b.setDinode k d).word (16 * k + 3 + j) = d.addrs j % 2 ^ 32 := by
    intro j hj
    unfold setDinode
    rw [putAddrs_word, if_pos (by omega), Nat.add_sub_cancel_left]
  refine Dinode.ext ?_ ?_ ?_ ?_ ?_ ?_
  · rw [dinode, h0, short_mod, hd.type]
  · rw [dinode, h1, short_mod, hd.major]
  · rw [dinode, h2, short_mod, hd.minor]
  · rw [dinode, h3, short_mod, hd.nlink]
  · rw [dinode, h4, Nat.mod_eq_of_lt hd.size]
  · funext j
    show (if j < NDIRECT + 3 then (b.setDinode k d).word (16 * k + 3 + j) else 0) = d.addrs j
    split
    · next hj => rw [h5 j hj, Nat.mod_eq_of_lt (hd.addrs j)]
    · next hj => exact (hd.range j (by omega)).symm

/-- Writing an inode leaves the others of its block alone. -/
theorem dinode_setDinode_ne (d : Dinode) {j : Nat} (hj : j ≠ k) :
    (b.setDinode k d).dinode j = b.dinode j := by
  have hh : ∀ {i : Nat}, i / 32 = j → (b.setDinode k d).half i = b.half i := by
    intro i hi
    unfold setDinode
    rw [putAddrs_half _ _ _ (by omega) (Nat.le_refl _), half_setWord_ne _ (by omega),
      half_setHalf_ne _ (by omega), half_setHalf_ne _ (by omega), half_setHalf_ne _ (by omega),
      half_setHalf_ne _ (by omega)]
  have hw : ∀ {i : Nat}, i / 16 = j → (b.setDinode k d).word i = b.word i := by
    intro i hi
    unfold setDinode
    rw [putAddrs_word, if_neg (by unfold NDIRECT; omega), word_setWord_ne _ (by omega),
      word_setHalf_ne _ (by omega), word_setHalf_ne _ (by omega), word_setHalf_ne _ (by omega),
      word_setHalf_ne _ (by omega)]
  refine Dinode.ext ?_ ?_ ?_ ?_ ?_ ?_
  · rw [dinode, dinode, hh (i := 32 * j) (by omega)]
  · rw [dinode, dinode, hh (i := 32 * j + 1) (by omega)]
  · rw [dinode, dinode, hh (i := 32 * j + 2) (by omega)]
  · rw [dinode, dinode, hh (i := 32 * j + 3) (by omega)]
  · exact hw (by omega)
  · funext i
    show (if i < NDIRECT + 3 then (b.setDinode k d).word (16 * j + 3 + i) else 0) =
      if i < NDIRECT + 3 then b.word (16 * j + 3 + i) else 0
    split
    · next hi => rw [hw (by unfold NDIRECT at hi; omega)]
    · rfl

theorem short_range (x : Int) : short (short x) = short x := by
  unfold short
  omega

/-- What is read from a block is an inode. -/
theorem dinode_ok : (b.dinode k).Ok where
  type := short_range _
  major := short_range _
  minor := short_range _
  nlink := short_range _
  size := word_lt ..
  addrs j := by
    show (if j < NDIRECT + 3 then b.word (16 * k + 3 + j) else 0) < 2 ^ 32
    split
    · exact word_lt ..
    · exact Nat.two_pow_pos 32
  range j hj := if_neg (by omega)

/-- A block of zeros holds free inodes. -/
theorem dinode_zero (k : Nat) : zero.dinode k = ⟨0, 0, 0, 0, 0, fun _ => 0⟩ := by
  have hh : ∀ i, zero.half i = 0 := fun i => by simp [half, zero]
  have h0 : short ((0 : Nat) : Int) = 0 := by decide
  simp only [dinode, hh, h0, word_zero, ite_self]

end Block

end Xv6.Fs
