import Xv6.Fs.File
import Xv6.Fs.Files
import Xv6.Fs.Calls

/-!
# Reading and writing at an offset

What `pread` and `pwrite` do, beside `fileread` and `filewrite`. All four take the lock
of the inode, and all but `pread` give it back on every way out. `pwrite` is `filewrite`
at its offset, however many transactions the write is split into.
-/

namespace Xv6.Fs

open Lib

/-! ## An empty file -/

/-- Inode 2 is open. -/
def opened : Nat → Inode
  | 2 => ⟨1, none, true, smallFile⟩
  | _ => noInode

theorem small_open : Inv (small opened) := by
  have hd2 := small_dinode opened (show 2 < 8 by decide)
  refine small_inv opened (fun i hi => ?_) fun i p hp => ?_
  · match i, hi with
    | 2, _ => exact ⟨by decide, hd2.symm, by decide⟩
    | 0, hi => exact absurd hi.1 Bool.false_ne_true
    | 1, hi => exact absurd hi.1 Bool.false_ne_true
    | i + 3, hi => exact absurd hi.1 Bool.false_ne_true
  · match i, hp with
    | 0, hp => cases hp
    | 1, hp => cases hp
    | 2, hp => cases hp
    | i + 3, hp => cases hp

/-- Every file of the table is inode 2, open for reading and writing. -/
def smallTable : Ftable := ⟨small opened, fun _ => ⟨.FD_INODE, 1, true, true, 0, 2, 0⟩⟩

theorem small_cur : smallTable.fs.cur 2 = smallFile := cur_loaded (by decide : (opened 2).Loaded)

theorem small_opened : Opened smallTable.fs 2 :=
  ⟨Int.one_pos, rfl, by rw [small_cur]; decide⟩

/-! ## Giving the lock back -/

section
variable {t t' : Ftable} {p f : Nat} {α : Type}

/-- Wherever the call returns, the lock of the inode is as before. -/
def Restores (t : Ftable) (ip : Nat) (x : Except Fault (α × Ftable)) : Prop :=
  ∀ a t', x = .ok (a, t') → (t'.fs.icache ip).holder = (t.fs.icache ip).holder

theorem Restores.same (ip : Nat) (a : α) : Restores t ip (.ok (a, t)) := fun _ _ h => by
  cases h
  rfl

/-- A call between `ilock` and `iunlock`. -/
theorem holder_between {s s₁ s₂ s' : State} {ip : Nat} (hl : s.ilock p ip = .ok s₁)
    (hu : s₂.iunlock p ip = .ok s') : (s'.icache ip).holder = (s.icache ip).holder := by
  rw [(iunlock_released hu).2, holder_releasesleep, (ilock_locked hl).1]

/-- Moving the offset keeps the inode. -/
theorem moved_ip (t : Ftable) (f : Nat) (r : Int) :
    ((if 0 < r then t.addOff f r else t).file f).ip = (t.file f).ip := by
  split
  · show (Function.update t.file f _ f).ip = _
    rw [Function.update_self]
  · rfl

theorem fileread_restores (t : Ftable) (p f : Nat) (n : Int) (piperead : Int × List UInt8) :
    Restores t (t.file f).ip (t.fileread p f n piperead) := by
  unfold Ftable.fileread
  split
  · exact .same _ _
  · split
    · exact .same _ _
    · intro a t' h
      simp only [bind_ok, pure_ok, Prod.mk.injEq, Prod.exists] at h
      obtain ⟨s₁, h₁, r, bytes, s₂, -, s₃, h₃, -, rfl⟩ := h
      rw [moved_ip] at h₃
      exact holder_between h₁ h₃
    · exact fun _ _ h => by cases h

theorem filewriteLoop_restores {addr : Nat → UInt8} {n : Int} {fuel : Nat} {i : Int} :
    Restores t (t.file f).ip (Ftable.filewriteLoop p f addr n fuel t i) := by
  induction fuel generalizing t i with
  | zero => exact .same _ _
  | succ fuel ih =>
    intro a t' h
    rw [Ftable.filewriteLoop] at h
    split at h
    · generalize (if maxWrite < n - i then maxWrite else n - i) = n1 at h
      simp only [bind_ok, Prod.exists] at h
      obtain ⟨s₁, h₁, r, s₂, -, s₃, h₃, h⟩ := h
      rw [moved_ip] at h₃
      have hb := holder_between h₁ h₃
      split at h
      · rw [pure_ok, Prod.mk.injEq] at h
        obtain ⟨-, rfl⟩ := h
        exact hb
      · split at h
        · cases h
        · refine Eq.trans ?_ hb
          have := ih _ _ h
          dsimp only at this
          rwa [moved_ip] at this
    · cases h
      rfl

theorem filewrite_restores (t : Ftable) (p f : Nat) (addr : Nat → UInt8) (n pipewrite : Int) :
    Restores t (t.file f).ip (t.filewrite p f addr n pipewrite) := by
  unfold Ftable.filewrite
  split
  · exact .same _ _
  · split
    · exact .same _ _
    · intro a t' h
      simp only [bind_ok, pure_ok, Prod.mk.injEq, Prod.exists] at h
      obtain ⟨i, t₁, h₁, -, rfl⟩ := h
      exact filewriteLoop_restores _ _ h₁
    · exact fun _ _ h => by cases h

theorem pwriteLoop_restores {addr : Nat → UInt8} {n : Int} {fuel : Nat} {i offset : Int} :
    Restores t (t.file f).ip (Ftable.pwriteLoop p f addr n fuel t i offset) := by
  induction fuel generalizing t i offset with
  | zero => exact .same _ _
  | succ fuel ih =>
    intro a t' h
    rw [Ftable.pwriteLoop] at h
    split at h
    · generalize (if maxWrite < n - i then maxWrite else n - i) = n1 at h
      simp only [bind_ok, Prod.exists] at h
      obtain ⟨s₁, h₁, r, s₂, -, s₃, h₃, h⟩ := h
      have hb := holder_between h₁ h₃
      split at h
      · rw [pure_ok, Prod.mk.injEq] at h
        obtain ⟨-, rfl⟩ := h
        exact hb
      · split at h
        · cases h
        · exact (ih _ _ h).trans hb
    · cases h
      rfl

theorem pwrite_restores (t : Ftable) (p f : Nat) (addr : Nat → UInt8) (n offset pipewrite : Int) :
    Restores t (t.file f).ip (t.pwrite p f addr n offset pipewrite) := by
  unfold Ftable.pwrite
  split
  · exact .same _ _
  · split
    · exact .same _ _
    · intro a t' h
      simp only [bind_ok, pure_ok, Prod.mk.injEq, Prod.exists] at h
      obtain ⟨i, t₁, h₁, -, rfl⟩ := h
      exact pwriteLoop_restores _ _ h₁
    · exact fun _ _ h => by cases h

/-- `pread` is asked for bytes that are not all in the file, or it starts at the end. -/
def Outside (size : Nat) (n offset : Int) : Prop :=
  uint offset = size ∨ size < uint (offset + n) ∨ int (offset + n) < offset

instance (size : Nat) (n offset : Int) : Decidable (Outside size n offset) :=
  inferInstanceAs (Decidable (_ ∨ _))

/-- `pread` at the end of the file keeps the lock. -/
theorem pread_end (ho : Opened t.fs (t.file f).ip) (hr : (t.file f).readable = true)
    (ht : (t.file f).type = .FD_INODE) {offset : Int}
    (he : uint offset = (t.fs.cur (t.file f).ip).size) (n : Int) (piperead : Int × List UInt8) :
    t.pread p f n offset piperead = .ok ((0, []), { t with fs := t.fs.lockedBy p (t.file f).ip }) := by
  rw [Ftable.pread, if_neg (by rw [hr]; decide), ht]
  dsimp only
  rw [ho.ilock, ok_bind]
  rw [lockedBy_icache]
  exact if_pos he

/-- `pread` beyond the end of the file keeps the lock. -/
theorem pread_beyond (ho : Opened t.fs (t.file f).ip) (hr : (t.file f).readable = true)
    (ht : (t.file f).type = .FD_INODE) {n offset : Int} (he : uint offset ≠ (t.fs.cur (t.file f).ip).size)
    (hn : (t.fs.cur (t.file f).ip).size < uint (offset + n) ∨ int (offset + n) < offset)
    (piperead : Int × List UInt8) :
    t.pread p f n offset piperead = .ok ((-1, []), { t with fs := t.fs.lockedBy p (t.file f).ip }) := by
  rw [Ftable.pread, if_neg (by rw [hr]; decide), ht]
  dsimp only
  rw [ho.ilock, ok_bind]
  rw [lockedBy_icache]
  dsimp only
  rw [if_neg he, if_pos hn]
  rfl

/-- **`pread` gives the lock back** if and only if it is not asked to read at or beyond
the end of the file; the three other calls always do. -/
theorem pread_restores_iff (ho : Opened t.fs (t.file f).ip) (n offset : Int) :
    ((∀ piperead, Restores t (t.file f).ip (t.pread p f n offset piperead)) ↔
      ¬ ((t.file f).readable = true ∧ (t.file f).type = .FD_INODE ∧
        Outside (t.fs.cur (t.file f).ip).size n offset)) ∧
    (∀ addr pipewrite, Restores t (t.file f).ip (t.pwrite p f addr n offset pipewrite)) ∧
    (∀ piperead, Restores t (t.file f).ip (t.fileread p f n piperead)) ∧
    ∀ addr pipewrite, Restores t (t.file f).ip (t.filewrite p f addr n pipewrite) := by
  refine ⟨⟨fun h hn => ?_, fun hn piperead => ?_⟩, fun addr => pwrite_restores t p f addr n offset,
    fileread_restores t p f n, fun addr => filewrite_restores t p f addr n⟩
  · obtain ⟨hr, ht, hout⟩ := hn
    have hkept : ∀ r, t.pread p f n offset (0, []) ≠
        .ok ((r, []), { t with fs := t.fs.lockedBy p (t.file f).ip }) := by
      intro r hp
      have := h _ _ _ hp
      rw [lockedBy_icache, ho.free] at this
      cases this
    by_cases he : uint offset = (t.fs.cur (t.file f).ip).size
    · exact hkept 0 (pread_end ho hr ht he n _)
    · exact hkept (-1) (pread_beyond ho hr ht he (hout.resolve_left he) _)
  · unfold Ftable.pread
    split
    · exact .same _ _
    · next hr =>
      split
      · exact .same _ _
      · next ht =>
        intro a t' h
        rw [ho.ilock, ok_bind] at h
        dsimp only at h
        rw [lockedBy_icache] at h
        have hout : ¬ Outside (t.fs.cur (t.file f).ip).size n offset :=
          fun hout => hn ⟨by simpa using hr, ht, hout⟩
        rw [if_neg fun he => hout (.inl he), if_neg fun he => hout (.inr he)] at h
        simp only [bind_ok, pure_ok, Prod.mk.injEq, Prod.exists] at h
        obtain ⟨r, bytes, s₂, -, s₃, h₃, -, rfl⟩ := h
        exact holder_between (ho.ilock p) h₃
      · exact fun _ _ h => by cases h

theorem pread_restores_iff_small :
    ((∀ piperead, Restores smallTable 2 (smallTable.pread 0 0 1 0 piperead)) ↔
      ¬ (true = true ∧ FdType.FD_INODE = .FD_INODE ∧ Outside (smallTable.fs.cur 2).size 1 0)) ∧
    (∀ addr pipewrite, Restores smallTable 2 (smallTable.pwrite 0 0 addr 1 0 pipewrite)) ∧
    (∀ piperead, Restores smallTable 2 (smallTable.fileread 0 0 1 piperead)) ∧
    ∀ addr pipewrite, Restores smallTable 2 (smallTable.filewrite 0 0 addr 1 pipewrite) :=
  pread_restores_iff (t := smallTable) (f := 0) small_opened 1 0

/-- After a read at the end of the file nobody can lock it. -/
theorem pread_end_keeps : ¬ Restores smallTable 2 (smallTable.pread 0 0 1 0 (0, [])) ∧
    ∃ t', smallTable.pread 0 0 1 0 (0, []) = .ok ((0, []), t') ∧
      ∀ p, t'.fs.ilock p 2 = .error .blocked := by
  have hp : smallTable.pread 0 0 1 0 (0, []) =
      .ok ((0, []), { smallTable with fs := smallTable.fs.lockedBy 0 2 }) :=
    pread_end (t := smallTable) (f := 0) (p := 0) small_opened rfl rfl
      (show uint 0 = (smallTable.fs.cur 2).size by rw [small_cur]; rfl) 1 _
  refine ⟨fun h => ?_, _, hp, fun p => ?_⟩
  · have := h _ _ hp
    rw [lockedBy_icache] at this
    cases this
  · dsimp only
    have hl : (smallTable.fs.lockedBy 0 2).icache 2 = ⟨1, some 0, true, smallTable.fs.cur 2⟩ :=
      lockedBy_icache
    rw [State.ilock, State.acquiresleep, hl]
    rfl

/-! ## Writing at an offset -/

namespace Ftable

/-- `f->off = off`. -/
def atOff (t : Ftable) (f off : Nat) : Ftable := t.setFile f { t.file f with off := off }

theorem atOff_file (t : Ftable) (f off : Nat) : (t.atOff f off).file f = { t.file f with off := off } :=
  Function.update_self ..

theorem atOff_addOff (t : Ftable) (f off : Nat) (r : Int) :
    (t.atOff f off).addOff f r = t.atOff f (uint (off + r)) := by
  unfold addOff
  rw [atOff_file]
  simp only [atOff, setFile, Function.update_idem]

theorem atOff_self (t : Ftable) (f : Nat) : t.atOff f (t.file f).off = t := by
  show ({ fs := t.fs, file := Function.update t.file f (t.file f) } : Ftable) = t
  rw [Function.update_eq_self]

end Ftable

theorem uint_of_lt {m : Nat} (h : m < 2 ^ 32) : uint m = m := by
  unfold uint
  omega

/-- The size of one transaction of a write. -/
theorem chunk_range {n i : Int} (h : i < n) : ∃ m : Nat,
    (if maxWrite < n - i then maxWrite else n - i) = m ∧ 0 < m ∧ i + m ≤ n ∧ m < 2 ^ 31 := by
  have hmax : maxWrite = 9216 := by decide
  rw [hmax]
  refine ⟨(if 9216 < n - i then 9216 else n - i).toNat, ?_⟩
  split <;> omega

/-- The two loops write the same, and each advances its own offset. -/
theorem pwriteLoop_eq (h : Inv t.fs) (hip : (t.file f).ip < t.fs.sb.ninodes)
    (ht : (t.fs.cur (t.file f).ip).type ≠ T_DEV) {addr : Nat → UInt8} {n : Int} {fuel : Nat} {i : Int}
    {off : Nat} (hoff : off < 2 ^ 31) : Ftable.pwriteLoop p f addr n fuel t i off =
      (Ftable.filewriteLoop p f addr n fuel (t.atOff f off) i).map fun x =>
        (x.1, { x.2 with file := t.file }) := by
  induction fuel generalizing t i off with
  | zero => rfl
  | succ fuel ih =>
    rw [Ftable.pwriteLoop, Ftable.filewriteLoop]
    split
    · next hlt =>
      obtain ⟨m, hm, hpos, hle, hm31⟩ := chunk_range hlt
      rw [hm, t.atOff_file, uint_of_lt (Nat.lt_trans hoff (by decide))]
      dsimp only
      rw [uint_of_lt (Nat.lt_trans hm31 (by decide))]
      show (t.fs.ilock p (t.file f).ip >>= _) = Except.map _ (t.fs.ilock p (t.file f).ip >>= _)
      cases h₁ : t.fs.ilock p (t.file f).ip with
      | error e => rfl
      | ok s₁ =>
        simp only [ok_bind]
        cases h₂ : s₁.writei p (t.file f).ip (fun j => addr (i.toNat + j)) off m with
        | error e => rfl
        | ok x =>
          obtain ⟨r, s₂⟩ := x
          simp only [ok_bind]
          rw [moved_ip, t.atOff_file]
          dsimp only
          cases h₃ : s₂.iunlock p (t.file f).ip with
          | error e => rfl
          | ok s₃ =>
            simp only [ok_bind]
            rcases write_turn h hip ht h₁ h₂ h₃ with ⟨rfl, -⟩ | ⟨rfl, -, hmax, he⟩
            · rfl
            · have hlt31 := maxfile_lt
              have hsum : (off : Int) + (m : Int) = ((off + m : Nat) : Int) := by omega
              have hneg : ¬ (m : Int) < 0 := by omega
              have hpos' : (0 : Int) < m := by omega
              have hne : ¬ (m : Int) ≠ m := fun hm => hm rfl
              simp only [if_neg hneg, if_pos hpos', if_neg hne]
              rw [t.atOff_addOff, hsum, uint_of_lt (by omega), int_of_lt (by omega)]
              exact ih (t := { t with fs := s₃ }) he.inv (by rw [he.sb]; exact hip)
                (by rw [he.type _ hip]; exact ht) (by omega)
    · rfl

/-- The `m` bytes at `addr + i`. -/
def bytesAt (addr : Nat → UInt8) (i m : Nat) : List UInt8 := (List.range m).map fun j => addr (i + j)

theorem bytesAt_length (addr : Nat → UInt8) (i m : Nat) : (bytesAt addr i m).length = m := by
  rw [bytesAt, List.length_map, List.length_range]

theorem bytesAt_append (addr : Nat → UInt8) (i m m' : Nat) :
    bytesAt addr i m ++ bytesAt addr (i + m) m' = bytesAt addr i (m + m') := by
  unfold bytesAt
  rw [List.range_add, List.map_append, List.map_map]
  refine congrArg _ (List.map_congr_left fun j _ => ?_)
  rw [Function.comp_apply, Nat.add_assoc]

/-- **A long write** is one overwrite of a prefix of what is given, in any number of
transactions, and the offset is behind it. -/
theorem filewriteLoop_spec (h : Inv t.fs) (hip : (t.file f).ip < t.fs.sb.ninodes)
    (ht : (t.fs.cur (t.file f).ip).type ≠ T_DEV) {addr : Nat → UInt8} {n : Int} {fuel i : Nat} {j : Int}
    (hin : i ≤ n) (hfuel : n - i ≤ fuel) (hoff : (t.file f).off < 2 ^ 31)
    (hs : Ftable.filewriteLoop p f addr n fuel t i = .ok (j, t')) : ∃ m : Nat, j = i + m ∧ j ≤ n ∧
      t'.file = (t.atOff f ((t.file f).off + m)).file ∧
      Edited (t.file f).ip (overwrite (t.fs.content (t.file f).ip) (t.file f).off (bytesAt addr i m))
        t.fs t'.fs ∧
      (0 < m → (t.file f).off ≤ (t.fs.content (t.file f).ip).length ∧
        (t.file f).off + m ≤ MAXFILE * BSIZE ∧ 0 < (t.fs.icache (t.file f).ip).ref ∧
        (t.fs.icache (t.file f).ip).holder = none) := by
  have hzero : Edited (t.file f).ip
      (overwrite (t.fs.content (t.file f).ip) (t.file f).off (bytesAt addr i 0)) t.fs t.fs := by
    show Edited _ (overwrite _ _ []) _ _
    rw [overwrite_nil]
    exact .refl h
  have hself : t.file = (t.atOff f ((t.file f).off + 0)).file := congrArg Ftable.file (t.atOff_self f).symm
  induction fuel generalizing t i with
  | zero =>
    cases hs
    exact ⟨0, by omega, by omega, hself, hzero, fun h0 => absurd h0 (Nat.lt_irrefl 0)⟩
  | succ fuel ih =>
    rw [Ftable.filewriteLoop] at hs
    split at hs
    · next hlt =>
      obtain ⟨m, hm, hpos, hle, hm31⟩ := chunk_range hlt
      rw [hm] at hs
      dsimp only at hs
      rw [uint_of_lt (Nat.lt_trans hm31 (by decide))] at hs
      simp only [bind_ok, Prod.exists] at hs
      obtain ⟨s₁, h₁, r, s₂, h₂, s₃, h₃, hs⟩ := hs
      rw [moved_ip] at h₃
      obtain ⟨hfree, href, -⟩ := ilock_locked h₁
      rcases write_turn h hip ht h₁ h₂ h₃ with ⟨rfl, he⟩ | ⟨rfl, hle', hmax, he⟩
      · cases hs
        refine ⟨0, by omega, by omega, hself, ?_, fun h0 => absurd h0 (Nat.lt_irrefl 0)⟩
        show Edited _ (overwrite _ _ []) _ _
        rw [overwrite_nil]
        exact he
      · have hlt31 := maxfile_lt
        have hadd : t.addOff f m = t.atOff f ((t.file f).off + m) := by
          have := t.atOff_addOff f (t.file f).off m
          rw [t.atOff_self] at this
          rw [this, ← Nat.cast_add, uint_of_lt (by omega)]
        have hneg : ¬ (m : Int) < 0 := by omega
        have hpos' : (0 : Int) < m := by omega
        have hne : ¬ (m : Int) ≠ m := fun hm => hm rfl
        simp only [if_neg hneg, if_pos hpos', if_neg hne] at hs
        rw [hadd] at hs
        have hsum : (i : Int) + (m : Int) = ((i + m : Nat) : Int) := by omega
        rw [hsum] at hs
        generalize hu : ({ fs := s₃, file := (t.atOff f ((t.file f).off + m)).file } : Ftable) = u at hs
        have hufs : u.fs = s₃ := by rw [← hu]
        have hufile : u.file f = { t.file f with off := (t.file f).off + m } := by
          rw [← hu]
          exact t.atOff_file ..
        have huip : (u.file f).ip = (t.file f).ip := by rw [hufile]
        have huoff : (u.file f).off = (t.file f).off + m := by rw [hufile]
        have hui : Inv u.fs := by
          rw [hufs]
          exact he.inv
        obtain ⟨m', rfl, hj, hfile, he', hrest⟩ := ih (t := u) (i := i + m) hui
          (by rw [huip, hufs, he.sb]; exact hip) (by rw [huip, hufs, he.type _ hip]; exact ht) (by omega)
          (by omega) (by rw [huoff]; omega) hs
          (by
            show Edited _ (overwrite _ _ []) _ _
            rw [overwrite_nil]
            exact .refl hui)
          (congrArg Ftable.file (u.atOff_self f).symm)
        rw [huip, huoff, hufs, he.content] at he'
        refine ⟨m + m', by omega, hj, ?_, ?_, fun _ => ⟨hle', ?_, href, hfree⟩⟩
        · rw [hfile, ← hu]
          simp only [Ftable.atOff, Ftable.setFile, Function.update_self, Function.update_idem, Nat.add_assoc]
        · have hlen := bytesAt_length addr i m
          have he'' := he.trans he'
          rwa [show (List.range m).map (fun j => addr ((i : Int).toNat + j)) = bytesAt addr i m from rfl,
            show (t.file f).off + m = (t.file f).off + (bytesAt addr i m).length by rw [hlen],
            overwrite_append hle', bytesAt_append] at he''
        · by_cases h0 : 0 < m'
          · have := (hrest h0).2.1
            rw [huoff] at this
            omega
          · omega
    · cases hs
      exact ⟨0, by omega, by omega, hself, hzero, fun h0 => absurd h0 (Nat.lt_irrefl 0)⟩

/-- `f` is a regular file, open for reading and writing. -/
structure Regular (t : Ftable) (f : Nat) : Prop where
  inode : (t.file f).type = .FD_INODE
  readable : (t.file f).readable = true
  writable : (t.file f).writable = true
  lt : (t.file f).ip < t.fs.sb.ninodes
  type : (t.fs.cur (t.file f).ip).type = T_FILE

namespace Regular

variable (hf : Regular t f)

include hf

theorem not_dev : (t.fs.cur (t.file f).ip).type ≠ T_DEV := by
  rw [hf.type]
  decide

theorem pwrite_eq (h : Inv t.fs) (addr : Nat → UInt8) (n : Int) {off : Nat} (hoff : off < 2 ^ 31) (x : Int) :
    t.pwrite p f addr n off x =
      ((t.atOff f off).filewrite p f addr n x).map fun y => (y.1, { y.2 with file := t.file }) := by
  have hw : ¬ (t.file f).writable = false := by rw [hf.writable]; decide
  rw [Ftable.pwrite, Ftable.filewrite, t.atOff_file]
  dsimp only
  rw [if_neg hw, hf.inode]
  dsimp only
  rw [if_neg hw, pwriteLoop_eq h hf.lt hf.not_dev hoff]
  cases Ftable.filewriteLoop p f addr n n.toNat (t.atOff f off) 0 with
  | error e => rfl
  | ok y => rfl

/-- What was read is what is asked for. -/
theorem readi_locked (h : Inv t.fs) {s₁ : State} (h₁ : t.fs.ilock p (t.file f).ip = .ok s₁) {n off : Nat}
    (hle : off + n ≤ (t.fs.content (t.file f).ip).length) :
    (s₁.icache (t.file f).ip).din.size = (t.fs.content (t.file f).ip).length ∧
    s₁.readi p (t.file f).ip off n =
      .ok ((n, ((t.fs.content (t.file f).ip).drop off).take n), s₁) := by
  have hi₁ := h.ilock hf.lt h₁
  obtain ⟨-, hr, rfl⟩ := ilock_locked h₁
  have hlt := maxfile_lt
  have hself : (t.fs.lockedBy p (t.file f).ip).icache (t.file f).ip =
    ⟨(t.fs.icache (t.file f).ip).ref, some p, true, t.fs.cur (t.file f).ip⟩ := lockedBy_icache
  have hp : ((t.fs.lockedBy p (t.file f).ip).icache (t.file f).ip).holder = some p := by rw [hself]
  have hsize : ((t.fs.lockedBy p (t.file f).ip).icache (t.file f).ip).din.size =
      (t.fs.content (t.file f).ip).length := by rw [hself, content_length]
  have hmax := hi₁.size_le (hi₁.live hp)
  have ht : ((t.fs.lockedBy p (t.file f).ip).icache (t.file f).ip).din.type ≠ T_DEV := by
    rw [hself]
    exact hf.not_dev
  refine ⟨hsize, ?_⟩
  rw [readi_eq hi₁ hp ht (by omega) (by omega), hsize, Nat.min_eq_left (by omega)]
  congr 3
  refine List.ext_getElem? fun k => ?_
  rw [getElem?_map_range, List.getElem?_take]
  split
  · next hk =>
    rw [List.getElem?_drop, State.content, getElem?_map_range, if_pos]
    · rw [byte_congr h hi₁ rfl rfl]
    · rw [← content_length]
      omega
  · rfl

theorem pread_eq (h : Inv t.fs) {n off : Nat} (hn : 0 < n)
    (hle : off + n ≤ (t.fs.content (t.file f).ip).length) (hlt : off + n < 2 ^ 31) (x : Int × List UInt8) :
    t.pread p f n off x = t.fs.ilock p (t.file f).ip >>= fun s => s.iunlock p (t.file f).ip >>= fun s =>
      .ok (((n : Int), ((t.fs.content (t.file f).ip).drop off).take n), { t with fs := s }) := by
  have hr : ¬ (t.file f).readable = false := by rw [hf.readable]; decide
  rw [Ftable.pread, if_neg hr, hf.inode]
  dsimp only
  cases h₁ : t.fs.ilock p (t.file f).ip with
  | error e => rfl
  | ok s₁ =>
    obtain ⟨hsize, hread⟩ := hf.readi_locked h h₁ hle
    have hsum : (off : Int) + (n : Int) = ((off + n : Nat) : Int) := by omega
    simp only [ok_bind]
    rw [hsize, uint_of_lt (by omega), if_neg (by omega), hsum, uint_of_lt (by omega),
      int_of_lt hlt, if_neg (by omega), uint_of_lt (by omega), hread]
    simp only [ok_bind]
    have hneg : ¬ (n : Int) < 0 := by omega
    rw [if_neg hneg]
    rfl

theorem fileread_eq (h : Inv t.fs) {n off : Nat} (hn : 0 < n)
    (hle : off + n ≤ (t.fs.content (t.file f).ip).length) (hlt : off + n < 2 ^ 31) (x : Int × List UInt8) :
    (t.atOff f off).fileread p f n x = t.fs.ilock p (t.file f).ip >>= fun s =>
      s.iunlock p (t.file f).ip >>= fun s =>
        .ok (((n : Int), ((t.fs.content (t.file f).ip).drop off).take n), { t.atOff f (off + n) with fs := s }) := by
  have hr : ¬ (t.file f).readable = false := by rw [hf.readable]; decide
  rw [Ftable.fileread, t.atOff_file]
  dsimp only
  rw [if_neg hr, hf.inode]
  dsimp only
  show (t.fs.ilock p (t.file f).ip >>= _) = _
  cases h₁ : t.fs.ilock p (t.file f).ip with
  | error e => rfl
  | ok s₁ =>
    obtain ⟨-, hread⟩ := hf.readi_locked h h₁ hle
    simp only [ok_bind]
    rw [uint_of_lt (by omega), hread]
    simp only [ok_bind]
    have hpos : (0 : Int) < n := by omega
    have hsum : (off : Int) + (n : Int) = ((off + n : Nat) : Int) := by omega
    rw [if_pos hpos, t.atOff_addOff, hsum, uint_of_lt (by omega), t.atOff_file]
    rfl

/-- What `pwrite` has written completely. -/
theorem pwrite_ok (h : Inv t.fs) {addr : Nat → UInt8} {n off : Nat} (hn : 0 < n) (hoff : off < 2 ^ 31) {x : Int}
    (hs : t.pwrite p f addr n off x = .ok (n, t')) : t'.file = t.file ∧ Opened t.fs (t.file f).ip ∧
      off ≤ (t.fs.content (t.file f).ip).length ∧ off + n ≤ MAXFILE * BSIZE ∧
      Edited (t.file f).ip (overwrite (t.fs.content (t.file f).ip) off (bytesAt addr 0 n)) t.fs t'.fs := by
  have hw : ¬ (t.file f).writable = false := by rw [hf.writable]; decide
  rw [Ftable.pwrite, if_neg hw, hf.inode] at hs
  dsimp only at hs
  rw [pwriteLoop_eq h hf.lt hf.not_dev hoff] at hs
  cases hloop : Ftable.filewriteLoop p f addr n (n : Int).toNat (t.atOff f off) 0 with
  | error e =>
    rw [hloop] at hs
    cases hs
  | ok y =>
    obtain ⟨j, u⟩ := y
    rw [hloop] at hs
    obtain ⟨hj, rfl⟩ := Prod.mk.inj (Except.ok.inj hs)
    have hjn : j = n := by
      by_contra hne
      dsimp only at hj
      rw [if_neg hne] at hj
      omega
    have hufile : (t.atOff f off).file f = { t.file f with off := off } := t.atOff_file ..
    obtain ⟨m, hm, -, -, he, hrest⟩ := filewriteLoop_spec (t := t.atOff f off) (i := 0) h
      (by rw [hufile]; exact hf.lt) (by rw [hufile]; exact hf.not_dev) (by omega) (by omega)
      (by rw [hufile]; exact hoff) hloop
    obtain rfl : m = n := by omega
    rw [hufile] at he hrest
    obtain ⟨hle, hmax, href, hfree⟩ := hrest hn
    refine ⟨rfl, ⟨href, hfree, ?_⟩, hle, hmax, he⟩
    rw [hf.type]
    decide

end Regular

theorem small_regular : Regular smallTable 0 :=
  ⟨rfl, rfl, rfl, (by decide : 2 < 8), (congrArg Dinode.type small_cur : _)⟩

end

end Xv6.Fs
