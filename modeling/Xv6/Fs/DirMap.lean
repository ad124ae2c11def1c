import Xv6.Fs.Entries
import Xv6.Fs.Stable
import Xv6.Fs.Refs

/-!
# Linking and unlinking names

`dirlink` and the write of `sys_unlink` that clears an entry, as edits of the map that
`dirlookup` reads. `dirlink` looks the name up and gives up the inode it finds with
`iput`, which waits for the lock of that inode: the caller of `dirlink` holds the lock of
the directory, so a name of the directory itself is waited for without end.
-/

namespace Xv6.Fs

open Lib

section
variable {s s' : State} {p dp k : Nat} {src : Nat → UInt8}

/-! ## Writing an entry -/

/-- The entry that was written. -/
theorem Wrote.dirent (hw : Wrote dp src (16 * k) 16 s s') :
    s'.dirent dp k = .ofBytes ((List.range 16).map src) := by
  unfold State.dirent
  congr 1
  refine List.map_congr_left fun j hj => ?_
  have hj := List.mem_range.mp hj
  rw [hw.bytes _ (by omega) (by omega), Nat.add_sub_cancel_left]

/-- The entries beside it. -/
theorem Wrote.dirent_ne (hw : Wrote dp src (16 * k) 16 s s') {j : Nat} (hj : j < (s.table dp).len)
    (hne : j ≠ k) : s'.dirent dp j = s.dirent dp j := by
  have hlen : j < (s.icache dp).din.size / 16 := hj
  unfold State.dirent
  congr 1
  refine List.map_congr_left fun i hi => ?_
  have hi := List.mem_range.mp hi
  exact hw.rest _ (by omega) (by omega)

theorem Wrote.table (h : DirOk p dp s) (hk : k ≤ (s.table dp).len) (hw : Wrote dp src (16 * k) 16 s s') :
    s'.table dp = (s.table dp).set k (Dirent.ofBytes ((List.range 16).map src)).cell := by
  have hsize := h.size
  have hk' : k ≤ (s.icache dp).din.size / 16 := hk
  have hlen : (s'.icache dp).din.size / 16 = max ((s.icache dp).din.size / 16) (k + 1) := by
    obtain ⟨addrs, ha⟩ := hw.inode
    rw [ha]
    dsimp only
    omega
  have hcell : (s'.table dp).cell =
      Function.update (s.table dp).cell k (Dirent.ofBytes ((List.range 16).map src)).cell := by
    funext j
    by_cases hj : j = k
    · subst hj
      rw [Function.update_self, State.table_cell (by show j < _ / 16; omega), hw.dirent]
    · rw [Function.update_of_ne hj]
      by_cases hlt : j < (s.table dp).len
      · rw [State.table_cell hlt, State.table_cell, hw.dirent_ne hlt hj]
        have hlt' : j < (s.icache dp).din.size / 16 := hlt
        show j < _ / 16
        omega
      · have hlt' : ¬ j < (s.icache dp).din.size / 16 := hlt
        exact (if_neg (by omega)).trans (if_neg hlt').symm
  show Slots.mk _ (s'.table dp).cell = _
  rw [hcell]
  unfold Slots.set
  congr 1

theorem DirOk.wrote (h : DirOk p dp s) (hk : k ≤ (s.table dp).len) (hw : Wrote dp src (16 * k) 16 s s')
    (hd : ((s.table dp).set k (Dirent.ofBytes ((List.range 16).map src)).cell).Distinct) :
    DirOk p dp s' := by
  obtain ⟨addrs, ha⟩ := hw.inode
  have hsize := h.size
  refine ⟨hw.inv, ?_, ?_, ?_, by rw [hw.table h hk]; exact hd⟩
  · rw [ha]
    exact h.holder
  · rw [ha]
    exact h.type
  · rw [ha]
    dsimp only
    omega

/-- Where an entry is written, one block is mapped. -/
theorem DirOk.writei (h : DirOk p dp s) (hk : k ≤ (s.table dp).len) (hmax : 16 * k + 16 ≤ MAXFILE * BSIZE)
    (src : Nat → UInt8) : (∃ s', s.writei p dp src (16 * k) 16 = .ok (16, s')) ∨
      ∃ f, s.bmap dp (16 * k / BSIZE) = .error f ∧ s.writei p dp src (16 * k) 16 = .error f := by
  have hlt := maxfile_lt
  have hk' : k ≤ (s.icache dp).din.size / 16 := hk
  have hout : ¬ ((s.icache dp).din.size < 16 * k ∨ (16 * k + 16) % 2 ^ 32 < 16 * k) := by
    rintro (hlt | hlt)
    · omega
    · exact not_wraps (by omega) hlt
  have ht : (s.icache dp).din.type ≠ T_DEV := by
    rw [h.type]
    decide
  have hone : min (16 - 0) (BSIZE - 16 * k % BSIZE) = 16 := by
    unfold BSIZE
    omega
  simp only [State.writei]
  rw [if_neg ht, if_neg hout, if_neg (by omega), State.writeLoop, if_pos (by decide), hone]
  cases hb : s.bmap dp (16 * k / BSIZE) with
  | error f => exact .inr ⟨f, rfl, rfl⟩
  | ok x =>
    left
    simp only [ok_bind]
    rw [State.writeLoop, if_neg (by decide), ok_bind]
    dsimp only
    split
    · exact ⟨_, rfl⟩
    · exact ⟨_, rfl⟩

/-- Over an entry that is there, a write does not fail. -/
theorem DirOk.overwrite (h : DirOk p dp s) (hk : k < (s.table dp).len) (src : Nat → UInt8) :
    ∃ s', s.writei p dp src (16 * k) 16 = .ok (16, s') ∧ Wrote dp src (16 * k) 16 s s' := by
  have hl := h.inv.live h.holder
  have hk' : k < (s.icache dp).din.size / 16 := hk
  have hsize := h.inv.size_le hl
  have ht : (s.icache dp).din.type ≠ T_DEV := by
    rw [h.type]
    decide
  have hmax : 16 * k + 16 ≤ MAXFILE * BSIZE := by omega
  have hne : s.addr dp (16 * k / BSIZE) ≠ 0 := h.inv.addr_ne hl (by omega)
  rcases h.writei (Nat.le_of_lt hk) hmax src with ⟨s', hs⟩ | ⟨f, hf, -⟩
  · exact ⟨s', hs, (writei_ok h.inv h.holder ht (by omega) hmax hs).2⟩
  · rw [bmap_eq_self hl hne] at hf
    cases hf

/-! ## `dirlink` -/

theorem cell_entry {inum : Nat} (name : Name) (hpos : 0 < inum) (hlt : inum < 2 ^ 16) :
    (Dirent.ofBytes ((List.range 16).map (Dirent.bytes ⟨inum, strncpy DIRSIZ name⟩))).cell =
      some (field name, inum) := by
  have hinum : (Dirent.ofBytes ((List.range 16).map (Dirent.bytes ⟨inum, strncpy DIRSIZ name⟩))).inum =
      inum := by
    show (UInt8.ofNat inum).toNat + 2 ^ 8 * (UInt8.ofNat (inum / 2 ^ 8)).toNat = inum
    rw [UInt8.toNat_ofNat', UInt8.toNat_ofNat']
    omega
  rw [Dirent.cell_some, hinum]
  refine ⟨by omega, field_stored fun j hj => ?_, rfl⟩
  have hget : ∀ f : Nat → UInt8, ∀ i < 16, ((List.range 16).map f).getD i 0 = f i := by
    intro f i hi
    rw [List.getD_eq_getElem _ _ (by simpa using hi), List.getElem_map, List.getElem_range]
  exact hget _ (j + 2) (by unfold DIRSIZ at hj; omega)

theorem cell_zeros : (Dirent.ofBytes ((List.range 16).map fun _ => 0)).cell = none := by
  have : (Dirent.ofBytes ((List.range 16).map fun _ => 0)).inum = 0 := by decide
  exact if_pos this

/-- A name that is there: its inode is found and given up. -/
theorem DirOk.dirlink_present (h : DirOk p dp s) {name : Name} {i : Nat}
    (hget : (s.table dp).get (field name) = some (i, k)) (inum : Nat) :
    s.dirlink p dp name inum = s.iget i >>= fun s => s.iput p i >>= fun s => .ok (-1, s) := by
  rw [State.dirlink, h.dirlookup, hget]
  dsimp only
  cases hg : s.iget i with
  | error f => rfl
  | ok s₁ => rfl

/-- A name that is not there is written to the first free slot. -/
theorem DirOk.dirlink_absent (h : DirOk p dp s) {name : Name}
    (hget : (s.table dp).get (field name) = none) (inum : Nat) :
    s.dirlink p dp name inum =
      (s.writei p dp (Dirent.bytes ⟨inum, strncpy DIRSIZ name⟩) (16 * (s.table dp).free) 16) >>=
        fun (r, s) => if r ≠ 16 then .error (.panic "dirlink") else .ok ((0 : Int), s) := by
  have hsize := h.size
  have hroom : ((List.range (s.table dp).len).find? fun k => decide ((s.dirent dp k).inum = 0)) =
      (s.table dp).room := by
    refine List.find?_congr fun k hk => ?_
    rw [State.table_cell (List.mem_range.mp hk), Dirent.cell]
    split
    · next h0 => simp [h0]
    · next h0 => simp [h0]
  have hlen : (slots 0 (s.icache dp).din.size).length = (s.table dp).len := by
    unfold slots
    rw [List.length_range']
    show _ = (s.icache dp).din.size / 16
    omega
  rw [State.dirlink, h.dirlookup, hget]
  dsimp only
  rw [ok_bind]
  dsimp only
  rw [h.scan_all, ok_bind, hroom, hlen]
  unfold Slots.free
  cases (s.table dp).room with
  | none => rfl
  | some k => rfl

/-! ## Finding an inode and giving it up -/

theorem setInode_self (s : State) (i : Nat) : s.setInode i (s.icache i) = s := by
  unfold State.setInode
  rw [Function.update_eq_self]

/-- `iput` of an inode whose lock is free, and which is not to be freed. -/
theorem iput_total {i : Nat} (hh : (s.icache i).holder = none)
    (hn : ¬ ((s.icache i).valid ∧ (s.icache i).din.nlink = 0 ∧ (s.icache i).ref = 1)) (p : Nat) :
    s.iput p i = .ok (s.setInode i { s.icache i with ref := (s.icache i).ref - 1 }) := by
  have hl : s.acquiresleep p i = .ok (s.setInode i { s.icache i with holder := some p }) := by
    rw [State.acquiresleep, if_neg (by rw [hh]; exact Bool.false_ne_true)]
  have hself : (s.setInode i { s.icache i with holder := some p }).icache i =
      { s.icache i with holder := some p } := Function.update_self ..
  have hput : s.iput p i = .ok (((s.setInode i { s.icache i with holder := some p }).releasesleep i).setInode i
      { ((s.setInode i { s.icache i with holder := some p }).releasesleep i).icache i with
        ref := (((s.setInode i { s.icache i with holder := some p }).releasesleep i).icache i).ref - 1 }) := by
    rw [State.iput, hl, ok_bind]
    dsimp only
    rw [hself, if_neg hn]
    rfl
  rw [hput]
  simp only [State.releasesleep, State.setInode, Function.update_self, Function.update_idem]
  congr 3
  rw [← hh]

/-- Nothing that a process can see has changed. -/
structure Unaltered (s s' : State) : Prop where
  inv : Inv s'
  sb : s'.sb = s.sb
  disk : s'.disk = s.disk
  input : s'.input = s.input
  refs : s'.refs = s.refs
  holder : ∀ j, (s'.icache j).holder = (s.icache j).holder
  loaded : ∀ j, (s.icache j).Loaded → s'.icache j = s.icache j

/-- The map finds the same. -/
theorem DirOk.unaltered (h : DirOk p dp s) (hu : Unaltered s s') :
    DirOk p dp s' ∧ s'.table dp = s.table dp := by
  have hdp : s'.icache dp = s.icache dp := hu.loaded dp (h.inv.held dp p h.holder)
  have ht : s'.table dp = s.table dp :=
    State.table_congr (byte_congr h.inv hu.inv hu.sb hu.disk dp) (by rw [hdp])
  exact ⟨⟨hu.inv, by rw [hdp]; exact h.holder, by rw [hdp]; exact h.type, by rw [hdp]; exact h.size,
    by rw [ht]; exact h.distinct⟩, ht⟩

theorem iget_iput (h : Inv s) {i : Nat} (hc : 0 ≤ (s.icache i).ref) (hh : (s.icache i).holder = none)
    {s₁ : State} (hg : s.iget i = .ok s₁) (p : Nat) : ∃ s', s₁.iput p i = .ok s' ∧ Unaltered s s' := by
  have hinv := h.iget hg
  unfold State.iget at hg
  split at hg
  · next hr =>
    cases hg
    have hself : (s.setInode i { s.icache i with ref := (s.icache i).ref + 1 }).icache i =
        { s.icache i with ref := (s.icache i).ref + 1 } := Function.update_self ..
    refine ⟨s, ?_, h, rfl, rfl, rfl, rfl, fun _ => rfl, fun _ _ => rfl⟩
    rw [iput_total (by rw [hself]; exact hh) (fun hn => by rw [hself] at hn; have := hn.2.2; dsimp only at this; omega), hself]
    simp only [State.setInode, Function.update_idem, Int.add_sub_cancel]
    rw [Function.update_eq_self]
  · next hr =>
    split at hg
    · cases hg
    · cases hg
      have hself : (s.setInode i { s.icache i with ref := 1, valid := false }).icache i =
          { s.icache i with ref := 1, valid := false } := Function.update_self ..
      have hne : ∀ j, j ≠ i → (s.setInode i { s.icache i with ref := 0, valid := false }).icache j =
          s.icache j := fun j hj => Function.update_of_ne hj ..
      refine ⟨s.setInode i { s.icache i with ref := 0, valid := false }, ?_, ?_, rfl, rfl, rfl, ?_, fun j => ?_,
        fun j hj => hne j fun he => ?_⟩
      · rw [iput_total (by rw [hself]; exact hh) (fun hn => by rw [hself] at hn; cases hn.1), hself]
        simp only [State.setInode, Function.update_idem]
        rfl
      · refine h.setInode (fun hv => absurd hv.1 Bool.false_ne_true) fun q hq => ?_
        exact absurd (h.held i q hq).2 hr
      · refine refs_setInode _ ?_
        show 0 = (s.icache i).ref
        omega
      · by_cases hj : j = i
        · subst hj
          show (Function.update s.icache j _ j).holder = _
          rw [Function.update_self]
        · rw [hne j hj]
      · rw [he] at hj
        exact hr hj.2

/-- The inode that the name has, if any, is not locked, and there is an entry for it in
the inode cache. -/
def Linkable (s : State) (dp : Nat) (name : Name) : Prop :=
  ∀ i k, (s.table dp).get (field name) = some (i, k) →
    (s.icache i).holder = none ∧ (0 < (s.icache i).ref ∨ s.cached.length < NINODE)

/-- What `dirlink` is to do: -1 for a name that is there, which changes nothing, and
otherwise the name is added at the first free slot. -/
def LinksExactly (p dp : Nat) (s : State) (name : Name) (inum : Nat) : Prop :=
  ((s.table dp).get (field name) ≠ none →
    ∃ s', s.dirlink p dp name inum = .ok (-1, s') ∧ Unaltered s s') ∧
  ((s.table dp).get (field name) = none →
    ((s.table dp).free < (s.table dp).len ∨
      4 ≤ s.freeBlocks ∧ 16 * (s.table dp).len + 16 ≤ MAXFILE * BSIZE →
      ∃ s', s.dirlink p dp name inum = .ok (0, s')) ∧
    ∀ r s', s.dirlink p dp name inum = .ok (r, s') → r = 0 ∧
      (s'.table dp).len = max (s.table dp).len ((s.table dp).free + 1) ∧
      ∀ name', (s'.table dp).get (field name') =
        if field name' = field name then some (inum, (s.table dp).free)
        else (s.table dp).get (field name'))

/-- A name that is there, its inode being locked or without a place in the cache. -/
theorem DirOk.dirlink_fails (h : DirOk p dp s) {name : Name} {i : Nat}
    (hget : (s.table dp).get (field name) = some (i, k)) (inum : Nat)
    (hn : ¬ ((s.icache i).holder = none ∧ (0 < (s.icache i).ref ∨ s.cached.length < NINODE))) :
    ∃ f, s.dirlink p dp name inum = .error f := by
  rw [h.dirlink_present hget]
  cases hg : s.iget i with
  | error f => exact ⟨f, rfl⟩
  | ok s₁ =>
    refine ⟨.blocked, ?_⟩
    have hroom : 0 < (s.icache i).ref ∨ s.cached.length < NINODE := by
      unfold State.iget at hg
      split at hg
      · next hr => exact .inl hr
      · split at hg
        · cases hg
        · next hc => exact .inr (by omega)
    have hh : ((s₁.icache i).holder).isSome := by
      have hs : ((s.icache i).holder).isSome := by
        rw [Option.isSome_iff_ne_none]
        exact fun h0 => hn ⟨h0, hroom⟩
      unfold State.iget at hg
      split at hg
      · cases hg
        simpa [State.setInode] using hs
      · split at hg <;> cases hg
        simpa [State.setInode] using hs
    rw [ok_bind, State.iput, State.acquiresleep, if_pos hh]
    rfl

theorem DirOk.dirlink_there (h : DirOk p dp s) (hc : Counted s) {name : Name} {i : Nat}
    (hget : (s.table dp).get (field name) = some (i, k)) (inum : Nat) (hh : (s.icache i).holder = none)
    (hroom : 0 < (s.icache i).ref ∨ s.cached.length < NINODE) :
    ∃ s', s.dirlink p dp name inum = .ok (-1, s') ∧ Unaltered s s' := by
  have hg : ∃ s₁, s.iget i = .ok s₁ := by
    unfold State.iget
    split
    · exact ⟨_, rfl⟩
    · next hr => exact ⟨_, if_neg (by omega)⟩
  obtain ⟨s₁, hg⟩ := hg
  obtain ⟨s', hp, hu⟩ := iget_iput h.inv (hc i) hh hg p
  exact ⟨s', by rw [h.dirlink_present hget, hg, ok_bind, hp, ok_bind], hu⟩

/-- The name is added. -/
theorem DirOk.dirlink_new (h : DirOk p dp s) {name : Name} {inum : Nat} (hpos : 0 < inum)
    (hlt : inum < 2 ^ 16) (hget : (s.table dp).get (field name) = none) {r : Int}
    (hs : s.dirlink p dp name inum = .ok (r, s')) : r = 0 ∧ Wrote dp
      (Dirent.bytes ⟨inum, strncpy DIRSIZ name⟩) (16 * (s.table dp).free) 16 s s' ∧ DirOk p dp s' ∧
      s'.table dp = (s.table dp).set (s.table dp).free (some (field name, inum)) := by
  have hle := (s.table dp).free_le
  have ht : (s.icache dp).din.type ≠ T_DEV := by
    rw [h.type]
    decide
  have hk : (s.table dp).free ≤ (s.icache dp).din.size / 16 := hle
  rw [h.dirlink_absent hget, bind_ok] at hs
  obtain ⟨⟨r₁, s₁⟩, hw, hs⟩ := hs
  have hmax : 16 * (s.table dp).free + 16 ≤ MAXFILE * BSIZE := by
    by_contra hgt
    have hout : ¬ ((s.icache dp).din.size < 16 * (s.table dp).free ∨
        (16 * (s.table dp).free + 16) % 2 ^ 32 < 16 * (s.table dp).free) := by
      have hsize := h.inv.size_le (h.inv.live h.holder)
      have hlt := maxfile_lt
      rintro (hlt | hlt)
      · omega
      · exact not_wraps (by omega) hlt
    simp only [State.writei] at hw
    rw [if_neg ht, if_neg hout, if_pos (by omega)] at hw
    cases hw
    cases hs
  obtain ⟨rfl, hwrote⟩ := writei_ok h.inv h.holder ht (by omega) hmax hw
  cases hs
  have htab := hwrote.table h hle
  rw [cell_entry name hpos hlt] at htab
  refine ⟨rfl, hwrote, h.wrote hle hwrote ?_, htab⟩
  rw [cell_entry name hpos hlt]
  exact h.distinct.put hle hget

theorem DirOk.dirlink_total (h : DirOk p dp s) {name : Name} (inum : Nat)
    (hget : (s.table dp).get (field name) = none)
    (hroom : (s.table dp).free < (s.table dp).len ∨
      4 ≤ s.freeBlocks ∧ 16 * (s.table dp).len + 16 ≤ MAXFILE * BSIZE) :
    ∃ s', s.dirlink p dp name inum = .ok (0, s') := by
  rw [h.dirlink_absent hget]
  rcases hroom with hlt | ⟨hf, hmax⟩
  · obtain ⟨s', hw, -⟩ := h.overwrite hlt (Dirent.bytes ⟨inum, strncpy DIRSIZ name⟩)
    exact ⟨s', by rw [hw]; rfl⟩
  · have hle := (s.table dp).free_le
    rcases h.writei hle (by omega) (Dirent.bytes ⟨inum, strncpy DIRSIZ name⟩) with ⟨s', hw⟩ | ⟨f, hf', -⟩
    · exact ⟨s', by rw [hw]; rfl⟩
    · have hbn : 16 * (s.table dp).free / BSIZE < MAXFILE := by
        have : 16 * (s.table dp).free + 16 ≤ MAXFILE * BSIZE := by omega
        rw [Nat.div_lt_iff_lt_mul (by decide)]
        omega
      obtain ⟨a, s', hb⟩ := bmap_total h.inv.wf (h.inv.live h.holder) hbn hf
      rw [hb] at hf'
      cases hf'

/-- **`dirlink`** does exactly that if and only if the name can be looked up and given up. -/
theorem DirOk.dirlink_iff (h : DirOk p dp s) (hc : Counted s) {name : Name} {inum : Nat}
    (hpos : 0 < inum) (hlt : inum < 2 ^ 16) :
    LinksExactly p dp s name inum ↔ Linkable s dp name := by
  constructor
  · intro hl i k hget
    by_contra hn
    obtain ⟨f, hf⟩ := h.dirlink_fails hget inum hn
    obtain ⟨s', hs, -⟩ := hl.1 (by rw [hget]; simp)
    rw [hf] at hs
    cases hs
  · intro hl
    refine ⟨fun hne => ?_, fun hget => ⟨h.dirlink_total inum hget, fun r s' hs => ?_⟩⟩
    · obtain ⟨⟨i, k⟩, hget⟩ := Option.ne_none_iff_exists'.mp hne
      obtain ⟨hh, hroom⟩ := hl i k hget
      exact h.dirlink_there hc hget inum hh hroom
    · obtain ⟨rfl, -, -, htab⟩ := h.dirlink_new hpos hlt hget hs
      rw [htab]
      exact ⟨rfl, rfl, fun name' => Slots.get_put h.distinct (Slots.free_le _) Slots.free_empty hget⟩

/-- **Clearing** an entry removes its name, and does not fail. -/
theorem DirOk.clear (h : DirOk p dp s) {name : List UInt8} {i : Nat}
    (hget : (s.table dp).get name = some (i, k)) : ∃ s',
    s.writei p dp (fun _ => 0) (16 * k) 16 = .ok (16, s') ∧ Wrote dp (fun _ => 0) (16 * k) 16 s s' ∧
      DirOk p dp s' ∧ s'.table dp = (s.table dp).set k none := by
  obtain ⟨hk, -⟩ := (Slots.get_eq_some h.distinct).mp hget
  obtain ⟨s', hs, hw⟩ := h.overwrite hk fun _ => 0
  have htab := hw.table h (Nat.le_of_lt hk)
  rw [cell_zeros] at htab
  refine ⟨s', hs, hw, h.wrote (Nat.le_of_lt hk) hw ?_, htab⟩
  rw [cell_zeros]
  exact h.distinct.clear hk

/-- A name of the directory itself is waited for by the process that holds its lock. -/
theorem DirOk.dirlink_self (h : DirOk p dp s) {name : Name}
    (hget : (s.table dp).get (field name) = some (dp, k)) (inum : Nat) :
    s.dirlink p dp name inum = .error .blocked := by
  have hr : 0 < (s.icache dp).ref := (h.inv.held dp p h.holder).2
  have hh : (((s.setInode dp { s.icache dp with ref := (s.icache dp).ref + 1 }).icache dp).holder).isSome := by
    simp [State.setInode, h.holder]
  rw [h.dirlink_present hget, State.iget, if_pos hr, ok_bind, State.iput, State.acquiresleep, if_pos hh]
  rfl

/-! ## Sequences of operations -/

/-- The operations on a directory that a process has locked. -/
inductive DirOp where
  | dirlink (name : Name) (inum : Nat)
  | dirlookup (name : Name)
  /-- the write of `sys_unlink` at the offset of the name -/
  | clear (name : Name)

/-- Inode numbers are not 0, and fit in an entry. -/
def DirOp.Valid : DirOp → Prop
  | .dirlink _ inum => 0 < inum ∧ inum < 2 ^ 16
  | _ => True

def dirStep (p dp : Nat) (s : State) : DirOp → Except Fault State
  | .dirlink name inum => do
    let (_, s) ← s.dirlink p dp name inum
    return s
  | .dirlookup name => do
    let (_, s) ← s.dirlookup p dp name
    return s
  | .clear name => do
    let (found, s) ← s.dirlookup p dp name
    match found with
    | none => return s
    | some (_, off) =>
      let (_, s) ← s.writei p dp (fun _ => 0) off 16
      return s

/-- `iget` changes no directory. -/
theorem DirOk.iget (h : DirOk p dp s) {i : Nat} (hg : s.iget i = .ok s') :
    DirOk p dp s' ∧ s'.table dp = s.table dp := by
  have hr : 0 < (s.icache dp).ref := (h.inv.held dp p h.holder).2
  have hkeep : (s'.icache dp).holder = (s.icache dp).holder ∧ (s'.icache dp).din = (s.icache dp).din ∧
      s'.sb = s.sb ∧ s'.disk = s.disk := by
    by_cases hi : i = dp
    · subst hi
      rw [State.iget, if_pos hr] at hg
      cases hg
      simp [State.setInode]
    · unfold State.iget at hg
      split at hg
      · cases hg
        simp [State.setInode, Ne.symm hi]
      · split at hg <;> cases hg
        simp [State.setInode, Ne.symm hi]
  obtain ⟨hh, hd, hsb, hdisk⟩ := hkeep
  have ht : s'.table dp = s.table dp :=
    State.table_congr (byte_congr h.inv (h.inv.iget hg) hsb hdisk dp) (by rw [hd])
  exact ⟨⟨h.inv.iget hg, hh.trans h.holder, by rw [hd]; exact h.type, by rw [hd]; exact h.size,
    by rw [ht]; exact h.distinct⟩, ht⟩

theorem DirOk.looked (h : DirOk p dp s) (hc : Counted s) {name : Name} {r : Option (Nat × Nat)}
    (hs : s.dirlookup p dp name = .ok (r, s')) : (DirOk p dp s' ∧ Counted s') ∧
      s'.table dp = s.table dp ∧ r = ((s.table dp).get (field name)).map fun x => (x.1, 16 * x.2) := by
  rw [h.dirlookup] at hs
  cases hget : (s.table dp).get (field name) with
  | none =>
    rw [hget] at hs
    cases hs
    exact ⟨⟨h, hc⟩, rfl, rfl⟩
  | some x =>
    obtain ⟨i, k⟩ := x
    rw [hget] at hs
    dsimp only at hs
    cases hg : s.iget i with
    | error f => rw [hg] at hs; cases hs
    | ok s₁ =>
      rw [hg] at hs
      cases hs
      obtain ⟨h', ht⟩ := h.iget hg
      exact ⟨⟨h', hc.oneMore (refs_iget hc hg)⟩, ht, rfl⟩

theorem Wrote.counted {off n : Nat} (hw : Wrote dp src off n s s') (hc : Counted s) : Counted s' := by
  intro j
  by_cases hj : j = dp
  · subst hj
    obtain ⟨addrs, ha⟩ := hw.inode
    unfold State.refs
    rw [ha]
    exact hc j
  · unfold State.refs
    rw [hw.icache j hj]
    exact hc j

/-- **Step lemma**: every operation keeps the directory a map. -/
theorem DirOk.step (h : DirOk p dp s) (hc : Counted s) {a : DirOp} (hv : a.Valid)
    (hs : dirStep p dp s a = .ok s') : DirOk p dp s' ∧ Counted s' := by
  cases a with
  | dirlink name inum =>
    obtain ⟨⟨r, s₁⟩, h₁, hs⟩ := bind_ok.mp hs
    cases hs
    cases hget : (s.table dp).get (field name) with
    | none =>
      obtain ⟨-, hw, h', -⟩ := h.dirlink_new hv.1 hv.2 hget h₁
      exact ⟨h', hw.counted hc⟩
    | some x =>
      obtain ⟨i, k⟩ := x
      by_cases hl : (s.icache i).holder = none ∧ (0 < (s.icache i).ref ∨ s.cached.length < NINODE)
      · obtain ⟨s₂, h₂, hu⟩ := h.dirlink_there hc hget inum hl.1 hl.2
        rw [h₂] at h₁
        cases h₁
        exact ⟨(h.unaltered hu).1, hc.congr hu.refs⟩
      · obtain ⟨f, hf⟩ := h.dirlink_fails hget inum hl
        rw [hf] at h₁
        cases h₁
  | dirlookup name =>
    obtain ⟨⟨r, s₁⟩, h₁, hs⟩ := bind_ok.mp hs
    cases hs
    exact (h.looked hc h₁).1
  | clear name =>
    obtain ⟨⟨r, s₁⟩, h₁, hs⟩ := bind_ok.mp hs
    obtain ⟨⟨h', hc'⟩, ht, rfl⟩ := h.looked hc h₁
    cases hget : (s.table dp).get (field name) with
    | none =>
      rw [hget] at hs
      cases hs
      exact ⟨h', hc'⟩
    | some x =>
      obtain ⟨i, k⟩ := x
      rw [hget] at hs
      obtain ⟨⟨r, s₂⟩, h₂, hs⟩ := bind_ok.mp hs
      cases hs
      obtain ⟨s₃, h₃, hw, h'', -⟩ := h'.clear (ht ▸ hget)
      rw [h₃] at h₂
      cases h₂
      exact ⟨h'', hw.counted hc'⟩

theorem small_dirOk : DirOk 0 1 (small held) :=
  ⟨small_held, rfl, rfl, rfl, fun i hi => absurd hi (Nat.not_lt_zero i)⟩

theorem small_counted : Counted (small held) := by
  intro i
  match i with
  | 0 => exact Int.le_refl 0
  | 1 => exact Int.le_of_lt Int.one_pos
  | 2 => exact Int.le_of_lt Int.one_pos
  | i + 3 => exact Int.le_refl 0

theorem small_freeBlocks : 4 ≤ (small held).freeBlocks := by
  have hf : (small held).freeBlocks = ((Finset.range 16).filter fun b => decide (b < 4) = false).card := by
    unfold State.freeBlocks
    refine congrArg _ (Finset.filter_congr fun b hb => ?_)
    rw [small_used held (Finset.mem_range.mp hb)]
  rw [hf]
  decide

/-- `dirlink(dp, ".", dp->inum)` on an empty directory. -/
theorem small_dot : ∃ s, dirStep 0 1 (small held) (.dirlink (str [46]) 1) = .ok s ∧ DirOk 0 1 s ∧
    (s.table 1).get (field (str [46])) = some (1, 0) := by
  have hget : ((small held).table 1).get (field (str [46])) = none := rfl
  obtain ⟨s, hs⟩ := small_dirOk.dirlink_total 1 hget (.inr ⟨small_freeBlocks, by decide⟩)
  obtain ⟨-, -, h, ht⟩ := small_dirOk.dirlink_new Nat.one_pos (by decide) hget hs
  refine ⟨s, by rw [dirStep, hs]; rfl, h, ?_⟩
  rw [ht, Slots.get_put small_dirOk.distinct (Slots.free_le _) Slots.free_empty hget, if_pos rfl]
  rfl

end

end Xv6.Fs
