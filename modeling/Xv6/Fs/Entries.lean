import Xv6.Lib.Slots
import Xv6.Fs.Dir
import Xv6.Fs.Contents

/-!
# Directories as finite maps

The entries of a directory are a table of slots whose keys are the fields of 14 bytes
that hold the names. `dirlookup` looks a key up, `dirlink` puts a new key into the first
free slot, and writing zeros over an entry empties its slot.
-/

namespace Xv6.Fs

open Lib

/-! ## Names -/

/-- The bytes that are stored for a name. -/
def field (name : Name) : List UInt8 := (List.range DIRSIZ).map (strncpy DIRSIZ name)

theorem strncpy_succ (n j : Nat) (t : Name) : strncpy (n + 1) t (j + 1) =
    if t 0 = 0 then 0 else strncpy n (fun j => t (j + 1)) j := by
  rw [strncpy]
  exact if_neg (Nat.succ_ne_zero j)

theorem strncmp_iff (n : Nat) : ∀ p q : Name,
    strncmp n p q = 0 ↔ ∀ j < n, strncpy n p j = strncpy n q j := by
  induction n with
  | zero => exact fun p q => iff_of_true rfl fun j hj => absurd hj (Nat.not_lt_zero j)
  | succ n ih =>
    intro p q
    have hall : (∀ j < n + 1, strncpy (n + 1) p j = strncpy (n + 1) q j) ↔ p 0 = q 0 ∧
        (p 0 ≠ 0 → ∀ j < n, strncpy n (fun j => p (j + 1)) j = strncpy n (fun j => q (j + 1)) j) := by
      constructor
      · intro h
        have h0 : p 0 = q 0 := h 0 (Nat.succ_pos n)
        refine ⟨h0, fun hp j hj => ?_⟩
        have := h (j + 1) (by omega)
        rwa [strncpy_succ, strncpy_succ, if_neg hp, if_neg (h0 ▸ hp)] at this
      · rintro ⟨h0, h⟩ j hj
        cases j with
        | zero => exact h0
        | succ j =>
          rw [strncpy_succ, strncpy_succ, ← h0]
          split
          · rfl
          · next hp => exact h hp j (by omega)
    rw [hall, strncmp]
    split
    · next hpq =>
      rw [ih]
      exact ⟨fun h => ⟨hpq.2, fun _ => h⟩, fun h => h.2 hpq.1⟩
    · next hpq =>
      have heq : ((p 0).toNat : Int) - (q 0).toNat = 0 ↔ p 0 = q 0 := by
        rw [← UInt8.toNat_inj]
        omega
      rw [heq]
      refine ⟨fun h => ⟨h, fun hp => absurd ⟨hp, h⟩ hpq⟩, fun h => h.1⟩

/-- **Comparing names**: `namecmp` compares the fields. -/
theorem namecmp_iff (s t : Name) : namecmp s t = 0 ↔ field s = field t := by
  unfold namecmp field
  rw [strncmp_iff, List.map_inj_left]
  exact ⟨fun h j hj => h j (List.mem_range.mp hj), fun h j hj => h j (List.mem_range.mpr hj)⟩

/-- A name is stored as it is read. -/
theorem strncpy_stored (n : Nat) : ∀ (u t : Name), (∀ j < n, u j = strncpy n t j) →
    ∀ j < n, strncpy n u j = strncpy n t j := by
  induction n with
  | zero => exact fun u t _ j hj => absurd hj (Nat.not_lt_zero j)
  | succ n ih =>
    intro u t h j hj
    have h0 : u 0 = t 0 := h 0 (Nat.succ_pos n)
    cases j with
    | zero => exact h0
    | succ j =>
      rw [strncpy_succ, strncpy_succ, h0]
      split
      · rfl
      · next ht =>
        refine ih _ _ (fun i hi => ?_) _ (by omega)
        have := h (i + 1) (by omega)
        rwa [strncpy_succ, if_neg ht] at this

theorem field_stored {u t : Name} (h : ∀ j < DIRSIZ, u j = strncpy DIRSIZ t j) : field u = field t :=
  List.map_inj_left.mpr fun j hj => strncpy_stored DIRSIZ u t h j (List.mem_range.mp hj)

/-! ## Entries -/

/-- What a slot holds: nothing if the inode number is 0. -/
def Dirent.cell (de : Dirent) : Option (List UInt8 × Nat) :=
  if de.inum = 0 then none else some (field de.name, de.inum)

theorem Dirent.cell_some {de : Dirent} {name : List UInt8} {inum : Nat} :
    de.cell = some (name, inum) ↔ de.inum ≠ 0 ∧ field de.name = name ∧ de.inum = inum := by
  unfold Dirent.cell
  split
  · next h => exact iff_of_false (by simp) fun hc => hc.1 h
  · next h => simp [h]

namespace State

/-- Entry `k` of directory `dp`, from its bytes. -/
def dirent (s : State) (dp k : Nat) : Dirent :=
  .ofBytes ((List.range 16).map fun j => s.byte dp (16 * k + j))

/-- The slots of directory `dp`. -/
def table (s : State) (dp : Nat) : Slots (List UInt8) Nat where
  len := (s.icache dp).din.size / 16
  cell k := if k < (s.icache dp).din.size / 16 then (s.dirent dp k).cell else none

end State

/-- `dp` is a directory that process `p` has locked, and no name is in it twice. -/
structure DirOk (p dp : Nat) (s : State) : Prop where
  inv : Inv s
  holder : (s.icache dp).holder = some p
  type : (s.icache dp).din.type = T_DIR
  size : (s.icache dp).din.size % 16 = 0
  distinct : (s.table dp).Distinct

section
variable {s s' : State} {p dp : Nat}

theorem State.table_cell {k : Nat} (hk : k < (s.table dp).len) :
    (s.table dp).cell k = (s.dirent dp k).cell := if_pos hk

/-- The directory is what the disk says, whatever is cached. -/
theorem byte_congr (h : Inv s) (h' : Inv s') (hsb : s'.sb = s.sb) (hdisk : s'.disk = s.disk)
    (i pos : Nat) : s'.byte i pos = s.byte i pos := by
  have hcur : ∀ i, s'.cur i = s.cur i := fun i => by
    rw [h.cur, h'.cur]
    exact dinode_congr hsb (congrFun hdisk _)
  have hforest : s'.forest = s.forest := by
    have hroot : s'.root = s.root := funext fun r => root_congr hsb fun _ => hcur _
    unfold State.forest
    rw [hroot, hdisk]
  unfold State.byte State.addr State.block
  rw [hforest, hdisk]

theorem State.table_congr (hb : ∀ pos, s'.byte dp pos = s.byte dp pos)
    (hs : (s'.icache dp).din.size = (s.icache dp).din.size) : s'.table dp = s.table dp := by
  unfold State.table State.dirent
  rw [hs]
  simp only [hb]

/-! ## Looking up -/

theorem DirOk.readi (h : DirOk p dp s) {k : Nat} (hk : k < (s.table dp).len) :
    s.readi p dp (16 * k) 16 = .ok ((16, (List.range 16).map fun j => s.byte dp (16 * k + j)), s) := by
  have hl := h.inv.live h.holder
  have hsize := h.inv.size_le hl
  have hmax := maxfile_lt
  have hlen : k < (s.icache dp).din.size / 16 := hk
  have hmin : min 16 ((s.icache dp).din.size - 16 * k) = 16 := by omega
  have ht : (s.icache dp).din.type ≠ T_DEV := by
    rw [h.type]
    decide
  have := readi_eq h.inv h.holder ht (show 16 * k ≤ _ by omega) (show 16 * k + 16 < 2 ^ 32 by omega)
  rwa [hmin] at this

/-- A loop over the entries from `a` on finds the first that stops it. -/
theorem DirOk.scan (h : DirOk p dp s) (msg : String) (stop : Dirent → Bool) : ∀ n a : Nat,
    a + n = (s.table dp).len → State.scan p dp msg stop (List.range' (16 * a) n 16) s =
      .ok (((List.range' a n).find? fun k => stop (s.dirent dp k)).map fun k =>
        (16 * k, s.dirent dp k), s) := by
  intro n
  induction n with
  | zero => exact fun a _ => rfl
  | succ n ih =>
    intro a ha
    rw [List.range'_succ, List.range'_succ, State.scan, h.readi (by omega), ok_bind]
    dsimp only
    rw [if_neg (not_not_intro rfl), List.find?_cons]
    change (if stop (s.dirent dp a) then _ else _) = _
    split
    · next hs =>
      rw [hs]
      rfl
    · next hs =>
      rw [Bool.not_eq_true] at hs
      rw [hs]
      exact ih (a + 1) (by omega)

theorem DirOk.scan_all (h : DirOk p dp s) (msg : String) (stop : Dirent → Bool) :
    State.scan p dp msg stop (slots 0 (s.icache dp).din.size) s =
      .ok (((List.range (s.table dp).len).find? fun k => stop (s.dirent dp k)).map fun k =>
        (16 * k, s.dirent dp k), s) := by
  have hsize := h.size
  have hslots : slots 0 (s.icache dp).din.size = List.range' (16 * 0) (s.table dp).len 16 := by
    unfold slots
    congr 1
    show _ = (s.icache dp).din.size / 16
    omega
  rw [hslots, h.scan msg stop _ 0 (Nat.zero_add _), List.range_eq_range']

/-- **`dirlookup`** finds what the map has for the name, with its offset. -/
theorem DirOk.dirlookup (h : DirOk p dp s) (name : Name) : s.dirlookup p dp name =
    match (s.table dp).get (field name) with
    | none => .ok (none, s)
    | some (inum, k) => (s.iget inum).map fun s' => (some (inum, 16 * k), s') := by
  rw [State.dirlookup, if_neg (not_not_intro h.type), h.scan_all, ok_bind]
  have hfind : ((List.range (s.table dp).len).find? fun k =>
      decide ((s.dirent dp k).inum ≠ 0 ∧ namecmp name (s.dirent dp k).name = 0)) =
      (s.table dp).index (field name) := by
    refine List.find?_congr fun k hk => ?_
    rw [State.table_cell (List.mem_range.mp hk), Dirent.cell, Bool.eq_iff_iff, decide_eq_true_iff]
    split
    · next h0 => exact iff_of_false (fun hc => hc.1 h0) (by simp)
    · next h0 =>
      rw [namecmp_iff]
      simp only [h0, ne_eq, not_false_eq_true, true_and, Option.any_some, decide_eq_true_iff]
      exact eq_comm
  rw [hfind, Slots.get]
  cases hi : (s.table dp).index (field name) with
  | none => rfl
  | some k =>
    obtain ⟨hk, inum, hc⟩ := Slots.index_some hi
    rw [Option.map_some, Option.bind_some, hc, Option.map_some]
    rw [State.table_cell hk, Dirent.cell_some] at hc
    dsimp only
    rw [hc.2.2]
    cases s.iget inum <;> rfl

end

end Xv6.Fs
