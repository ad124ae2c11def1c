import Mathlib

/-!
# Disk blocks

A buffer of `BSIZE` bytes, as a function from the index (indices from `BSIZE` on
are not used), and the `uint`s that the file system reads and writes in it
through pointer casts. The machine is little-endian.
-/

namespace Xv6.Fs

/-- `BSIZE`: bytes in a block. -/
def BSIZE : Nat := 512

/-- `FSSIZE`: blocks of the file system. -/
def FSSIZE : Nat := 100000

abbrev Block := Nat → UInt8

namespace Block

/-- `memset(data, 0, BSIZE)`. -/
def zero : Block := fun _ => 0

/-- `((uint*)data)[i]`. -/
def word (b : Block) (i : Nat) : Nat :=
  (b (4 * i)).toNat + 2 ^ 8 * (b (4 * i + 1)).toNat + 2 ^ 16 * (b (4 * i + 2)).toNat +
    2 ^ 24 * (b (4 * i + 3)).toNat

/-- `((uint*)data)[i] = v`. -/
def setWord (b : Block) (i v : Nat) : Block := fun j =>
  if 4 * i ≤ j ∧ j < 4 * i + 4 then UInt8.ofNat (v / 2 ^ (8 * (j - 4 * i))) else b j

theorem word_lt (b : Block) (i : Nat) : b.word i < 2 ^ 32 := by
  have h0 := (b (4 * i)).toNat_lt
  have h1 := (b (4 * i + 1)).toNat_lt
  have h2 := (b (4 * i + 2)).toNat_lt
  have h3 := (b (4 * i + 3)).toNat_lt
  unfold word
  omega

@[simp] theorem word_zero (i : Nat) : zero.word i = 0 := by simp [word, zero]

theorem word_setWord_self (b : Block) (i v : Nat) : (b.setWord i v).word i = v % 2 ^ 32 := by
  have hbyte : ∀ k < 4, (b.setWord i v (4 * i + k)).toNat = v / 2 ^ (8 * k) % 2 ^ 8 := by
    intro k hk
    rw [setWord, if_pos (by omega), UInt8.toNat_ofNat']
    congr 4
    omega
  have h0 := hbyte 0 (by omega)
  rw [Nat.add_zero] at h0
  rw [word, h0, hbyte 1 (by omega), hbyte 2 (by omega), hbyte 3 (by omega)]
  norm_num
  omega

theorem word_setWord_ne (b : Block) {i j : Nat} (h : j ≠ i) (v : Nat) :
    (b.setWord i v).word j = b.word j := by
  have hbyte : ∀ k < 4, b.setWord i v (4 * j + k) = b (4 * j + k) := by
    intro k hk
    rw [setWord, if_neg (by omega)]
  have h0 := hbyte 0 (by omega)
  rw [Nat.add_zero] at h0
  rw [word, h0, hbyte 1 (by omega), hbyte 2 (by omega), hbyte 3 (by omega)]
  rfl

/-! ## Half words -/

/-- `((ushort*)data)[i]`. -/
def half (b : Block) (i : Nat) : Nat := (b (2 * i)).toNat + 2 ^ 8 * (b (2 * i + 1)).toNat

/-- `((ushort*)data)[i] = v`. -/
def setHalf (b : Block) (i v : Nat) : Block := fun j =>
  if 2 * i ≤ j ∧ j < 2 * i + 2 then UInt8.ofNat (v / 2 ^ (8 * (j - 2 * i))) else b j

theorem half_congr {b b' : Block} {i : Nat} (h : ∀ j, j / 2 = i → b' j = b j) :
    b'.half i = b.half i := by
  rw [half, half, h (2 * i) (by omega), h (2 * i + 1) (by omega)]

theorem word_congr {b b' : Block} {i : Nat} (h : ∀ j, j / 4 = i → b' j = b j) :
    b'.word i = b.word i := by
  rw [word, word, h (4 * i) (by omega), h (4 * i + 1) (by omega), h (4 * i + 2) (by omega),
    h (4 * i + 3) (by omega)]

theorem half_setHalf_self (b : Block) (i v : Nat) : (b.setHalf i v).half i = v % 2 ^ 16 := by
  have h0 : (b.setHalf i v (2 * i)).toNat = v % 2 ^ 8 := by
    rw [setHalf, if_pos (by omega), UInt8.toNat_ofNat', Nat.sub_self]
    norm_num
  have h1 : (b.setHalf i v (2 * i + 1)).toNat = v / 2 ^ 8 % 2 ^ 8 := by
    rw [setHalf, if_pos (by omega), UInt8.toNat_ofNat']
    congr 3
    omega
  rw [half, h0, h1]
  omega

theorem half_setHalf_ne (b : Block) {i j : Nat} (h : j ≠ i) (v : Nat) :
    (b.setHalf i v).half j = b.half j :=
  half_congr fun k hk => by rw [setHalf, if_neg (by omega)]

theorem word_setHalf_ne (b : Block) {i j : Nat} (h : i / 2 ≠ j) (v : Nat) :
    (b.setHalf i v).word j = b.word j :=
  word_congr fun k hk => by rw [setHalf, if_neg (by omega)]

theorem half_setWord_ne (b : Block) {i j : Nat} (h : j / 2 ≠ i) (v : Nat) :
    (b.setWord i v).half j = b.half j :=
  half_congr fun k hk => by rw [setWord, if_neg (by omega)]

/-! ## Bits -/

/-- `data[i/8] & (1 << (i%8))`. -/
def bit (b : Block) (i : Nat) : Bool := (b (i / 8)).toBitVec.getLsbD (i % 8)

/-- `data[i/8] |= 1 << (i%8)`. -/
def setBit (b : Block) (i : Nat) : Block :=
  Function.update b (i / 8) ⟨(b (i / 8)).toBitVec ||| BitVec.twoPow 8 (i % 8)⟩

/-- `data[i/8] &= ~(1 << (i%8))`. -/
def clearBit (b : Block) (i : Nat) : Block :=
  Function.update b (i / 8) ⟨(b (i / 8)).toBitVec &&& ~~~BitVec.twoPow 8 (i % 8)⟩

theorem bit_setBit (b : Block) (i j : Nat) :
    (b.setBit i).bit j = if j = i then true else b.bit j := by
  unfold bit setBit
  by_cases hb : j / 8 = i / 8
  · rw [hb, Function.update_self, BitVec.getLsbD_or, BitVec.getLsbD_twoPow]
    by_cases hji : j = i
    · subst hji
      have : j % 8 < 8 := Nat.mod_lt _ (by decide)
      simp [this]
    · have : i % 8 ≠ j % 8 := by omega
      simp [hji, this]
  · have hji : j ≠ i := by rintro rfl; exact hb rfl
    rw [Function.update_of_ne hb, if_neg hji]

theorem bit_clearBit (b : Block) (i j : Nat) :
    (b.clearBit i).bit j = if j = i then false else b.bit j := by
  unfold bit clearBit
  have hlt : j % 8 < 8 := Nat.mod_lt _ (by decide)
  by_cases hb : j / 8 = i / 8
  · rw [hb, Function.update_self, BitVec.getLsbD_and, BitVec.getLsbD_not, BitVec.getLsbD_twoPow]
    by_cases hji : j = i
    · subst hji
      simp [hlt]
    · have : i % 8 ≠ j % 8 := by omega
      simp [hji, this, hlt]
  · have hji : j ≠ i := by rintro rfl; exact hb rfl
    rw [Function.update_of_ne hb, if_neg hji]

@[simp] theorem bit_zero (i : Nat) : zero.bit i = false := by simp [bit, zero]

end Block

end Xv6.Fs
