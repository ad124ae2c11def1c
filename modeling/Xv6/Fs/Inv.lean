import Xv6.Fs.Io

/-!
# What holds between calls

The file system is well formed, files have no holes below their sizes, and an inode in
memory is the one on disk. Only `writei`, `itrunc` and the calls built on them touch
addresses; the other calls keep all blocks.
-/

namespace Xv6.Fs

open Lib

structure Inv (s : State) : Prop where
  wf : Wf s
  holes : ∀ i < s.sb.ninodes, (s.cur i).type ≠ 0 → s.NoHoles i
  coherent : ∀ i, (s.icache i).Loaded → Live s i ∧ (s.icache i).din = s.dinode i
  held : ∀ i p, (s.icache i).holder = some p → (s.icache i).Loaded

section
variable {s s' : State} {ip : Nat}

theorem Inv.cur (h : Inv s) (i : Nat) : s.cur i = s.dinode i := by
  unfold State.cur
  split
  · next hv => exact (h.coherent i hv).2
  · rfl

theorem Inv.live (h : Inv s) {p : Nat} (hp : (s.icache ip).holder = some p) : Live s ip :=
  (h.coherent ip (h.held ip p hp)).1

/-! ## Inodes on disk -/

theorem dinode_putDinode {d : Dinode} (hd : d.Ok) (i : Nat) :
    (s.putDinode ip d).dinode i = if i = ip then d else s.dinode i := by
  show ((Function.update s.disk (s.sb.IBLOCK ip) _) (s.sb.IBLOCK i)).dinode (i % IPB) = _
  by_cases hB : s.sb.IBLOCK i = s.sb.IBLOCK ip
  · rw [hB, Function.update_self]
    by_cases hi : i = ip
    · subst hi
      rw [if_pos rfl, Block.dinode_setDinode _ _ hd]
    · have hmod : i % IPB ≠ ip % IPB := by
        intro hm
        have hdiv : i / IPB = ip / IPB := Nat.add_right_cancel hB
        exact hi (by rw [← Nat.div_add_mod i IPB, ← Nat.div_add_mod ip IPB, hdiv, hm])
      rw [if_neg hi, Block.dinode_setDinode_ne _ _ hmod, State.dinode, hB]
  · rw [Function.update_of_ne hB, if_neg]
    · rfl
    · rintro rfl
      exact hB rfl

theorem disk_putDinode {d : Dinode} (h : Wf s) (hip : ip < s.sb.ninodes) {x : Nat}
    (hx : s.sb.bmapstart ≤ x) : (s.putDinode ip d).disk x = s.disk x :=
  Function.update_of_ne (h.layout.inode_ne hip hx).symm ..

/-- `s'` is `s` with other inodes, whose trees are the same. -/
structure Same (s s' : State) : Prop where
  sb : s'.sb = s.sb
  disk : ∀ x, s.sb.bmapstart ≤ x → s'.disk x = s.disk x
  root : ∀ r, s'.root r = s.root r

theorem Same.block (h : Same s s') (hwf : Wf s) {p : Place} (hp : IsPlace p) :
    s'.block p = s.block p :=
  Forest.block_congr (h.root _)
    (fun _ hq hne i _ => congrArg (Block.word · i) (h.disk _ (Nat.le_of_lt (hwf.le_block hq.isPlace hne)))) hp

theorem Same.wf (h : Same s s') (hwf : Wf s) : Wf s' :=
  hwf.congr h.sb (fun _ hp => h.block hwf hp)
    fun _ _ => used_congr h.sb (h.disk _ (Superblock.Layout.le_BBLOCK ..))

theorem Same.addr (h : Same s s') (hwf : Wf s) (i bn : Nat) : s'.addr i bn = s.addr i bn :=
  addr_congr (fun _ hp _ => h.block hwf hp) bn

theorem Same.byte (h : Same s s') (hwf : Wf s) {i pos : Nat} (hne : s.addr i (pos / BSIZE) ≠ 0) :
    s'.byte i pos = s.byte i pos := by
  unfold State.byte
  rw [h.addr hwf]
  obtain ⟨-, hl, ha⟩ := addr_ne_zero hne
  rw [ha] at hne ⊢
  exact congrFun (h.disk _ (Nat.le_of_lt (hwf.le_block hl.1 hne))) _

/-! ## Calls that change the cache only -/

/-- The invariant is about the disk and the inodes that are valid. -/
theorem Inv.of_disk (h : Inv s) (hsb : s'.sb = s.sb) (hdisk : s'.disk = s.disk)
    (hc : ∀ i, (s'.icache i).Loaded → i < s.sb.ninodes ∧ (s.dinode i).type ≠ 0 ∧
      (s'.icache i).din = s.dinode i)
    (hheld : ∀ i p, (s'.icache i).holder = some p → (s'.icache i).Loaded) :
    Inv s' := by
  have hd : ∀ i, s'.dinode i = s.dinode i := fun i => dinode_congr hsb (congrFun hdisk _)
  have hcur : ∀ i, s'.cur i = s.cur i := by
    intro i
    rw [h.cur]
    unfold State.cur
    split
    · next hv => exact (hc i hv).2.2
    · exact hd i
  have hs : Same s s' := ⟨hsb, fun x _ => congrFun hdisk x, fun r => root_congr hsb fun _ => hcur _⟩
  refine ⟨hs.wf h.wf, fun i hi ht bn hbn => ?_, fun i hv => ?_, hheld⟩
  · rw [hs.addr h.wf]
    rw [hsb] at hi
    rw [hcur] at ht hbn
    exact h.holes i hi ht bn hbn
  · obtain ⟨hlt, ht, hdin⟩ := hc i hv
    exact ⟨⟨by rw [hsb]; exact hlt, hv, by rw [hdin]; exact ht⟩, by rw [hdin, hd]⟩

theorem Inv.loaded_dinode (h : Inv s) {i : Nat} (hv : (s.icache i).Loaded) :
    i < s.sb.ninodes ∧ (s.dinode i).type ≠ 0 ∧ (s.icache i).din = s.dinode i := by
  obtain ⟨hl, hd⟩ := h.coherent i hv
  exact ⟨hl.lt, by rw [← hd]; exact hl.type, hd⟩

/-- A new cache entry for one inode. -/
theorem Inv.setInode (h : Inv s) {d : Inode} (hv : d.Loaded → ip < s.sb.ninodes ∧
    (s.dinode ip).type ≠ 0 ∧ d.din = s.dinode ip)
    (hheld : ∀ p, d.holder = some p → d.Loaded) : Inv (s.setInode ip d) := by
  refine h.of_disk rfl rfl (fun i hi => ?_) fun i p hp => ?_
  · by_cases he : i = ip
    · subst he
      simp only [State.setInode, Function.update_self] at hi ⊢
      exact hv hi
    · simp only [State.setInode, Function.update_of_ne he] at hi ⊢
      exact h.loaded_dinode hi
  · by_cases he : i = ip
    · subst he
      simp only [State.setInode, Function.update_self] at hp ⊢
      exact hheld p hp
    · simp only [State.setInode, Function.update_of_ne he] at hp ⊢
      exact h.held i p hp

theorem Inv.iget (h : Inv s) (hs : s.iget ip = .ok s') : Inv s' := by
  unfold State.iget at hs
  split at hs
  · next hr =>
    cases hs
    refine h.setInode (fun hv => h.loaded_dinode ⟨hv.1, hr⟩) fun p hp => ?_
    have hh := h.held ip p hp
    exact ⟨hh.1, by show 0 < (s.icache ip).ref + 1; omega⟩
  · next hr =>
    split at hs
    · cases hs
    · cases hs
      refine h.setInode (fun hv => absurd hv.1 Bool.false_ne_true) fun p hp => ?_
      exact absurd (h.held ip p hp).2 hr

theorem Inv.idup (h : Inv s) (hr : 0 < (s.icache ip).ref) : Inv (s.idup ip) := by
  refine h.setInode (fun hv => h.loaded_dinode ⟨hv.1, hr⟩) fun p hp => ?_
  have hh := h.held ip p hp
  exact ⟨hh.1, by show 0 < (s.icache ip).ref + 1; omega⟩

/-- What `ilock` leaves: the lock is taken, and the inode is the one on disk. -/
theorem ilock_ok {p : Nat} (hs : s.ilock p ip = .ok s') : (s.icache ip).holder = none ∧
    0 < (s.icache ip).ref ∧ ∃ d : Inode, s' = s.setInode ip d ∧ d.ref = (s.icache ip).ref ∧
    d.holder = some p ∧ d.valid = true ∧
    ((s.icache ip).valid = true ∧ d.din = (s.icache ip).din ∨
      (s.icache ip).valid = false ∧ d.din = s.dinode ip ∧ d.din.type ≠ 0) := by
  unfold State.ilock at hs
  split at hs
  · cases hs
  · next hr =>
    obtain ⟨s₁, h₁, hs⟩ := bind_ok.mp hs
    unfold State.acquiresleep at h₁
    split at h₁
    · cases h₁
    · next hh =>
      cases h₁
      refine ⟨by simpa using hh, by omega, ?_⟩
      simp only [State.setInode, Function.update_self] at hs
      split at hs
      · next hv =>
        cases hs
        exact ⟨_, rfl, rfl, rfl, hv, .inl ⟨hv, rfl⟩⟩
      · next hv =>
        split at hs
        · cases hs
        · next ht =>
          cases hs
          refine ⟨{ ref := (s.icache ip).ref, holder := some p, valid := true, din := s.dinode ip },
            ?_, rfl, rfl, rfl, .inr ⟨by simpa using hv, rfl, ht⟩⟩
          simp only [State.setInode, Function.update_idem]
          rfl

theorem Inv.ilock (h : Inv s) {p : Nat} (hip : ip < s.sb.ninodes) (hs : s.ilock p ip = .ok s') :
    Inv s' := by
  obtain ⟨-, hr, d, rfl, hdr, -, hv, hd⟩ := ilock_ok hs
  refine h.setInode (fun _ => ?_) fun _ _ => ⟨hv, by omega⟩
  rcases hd with ⟨hv', hd⟩ | ⟨-, hd, ht⟩
  · rw [hd]
    exact h.loaded_dinode ⟨hv', hr⟩
  · rw [hd] at ht ⊢
    exact ⟨hip, ht, rfl⟩

theorem Inv.iunlock (h : Inv s) {p : Nat} (hs : s.iunlock p ip = .ok s') : Inv s' := by
  unfold State.iunlock at hs
  split at hs
  · cases hs
  · cases hs
    exact h.setInode (fun hv => h.loaded_dinode hv) fun _ hp => by cases hp

/-! ## Writing an inode back -/

/-- The state after `iupdate`, with the fields of `ip` set before it. -/
def State.put (s : State) (ip : Nat) (d : Dinode) : State := (s.setDin ip d).iupdate ip

theorem State.put_icache (s : State) (ip : Nat) (d : Dinode) :
    (s.put ip d).icache = Function.update s.icache ip { s.icache ip with din := d } := rfl

theorem State.put_dinode {d : Dinode} (hd : d.Ok) (i : Nat) :
    (s.put ip d).dinode i = if i = ip then d else s.dinode i := by
  have hin : ((s.setDin ip d).icache ip).din = d := by
    simp only [State.setDin, State.setInode, Function.update_self]
  show ((s.setDin ip d).putDinode ip ((s.setDin ip d).icache ip).din).dinode i = _
  rw [hin, dinode_putDinode hd]
  rfl

theorem Same.put (h : Wf s) (hip : ip < s.sb.ninodes) {d : Dinode} (hd : d.Ok)
    (hroot : ∀ k < NDIRECT + 3, (if d.type = 0 then 0 else d.addrs k) = s.root (ip, k)) :
    Same s (s.put ip d) := by
  refine ⟨rfl, fun x hx => Function.update_of_ne (h.layout.inode_ne hip hx).symm .., ?_⟩
  rintro ⟨i, k⟩
  by_cases hi : i = ip
  · subst hi
    have hcur : (s.put i d).cur i = d := by
      unfold State.cur
      rw [State.put_icache, Function.update_self, State.put_dinode hd, if_pos rfl]
      exact ite_self _
    by_cases hk : k < NDIRECT + 3
    · rw [← hroot k hk, State.root, hcur]
      split
      · next hc => rw [if_neg hc.2.1]
      · next hc =>
        split
        · rfl
        · next ht => exact absurd ⟨hip, ht, hk⟩ hc
    · exact (if_neg fun hc => hk hc.2.2).trans (if_neg fun hc => hk hc.2.2).symm
  · have hsb : (s.put ip d).sb = s.sb := rfl
    refine root_congr hsb fun _ => cur_congr ?_ ?_
    · rw [State.put_icache, Function.update_of_ne hi]
    · rw [State.put_dinode hd, if_neg hi]

/-- After the inode is written back the invariant holds again, if it holds but for `ip`. -/
theorem Inv.put (h : Wf s) (hl : Live s ip) {d : Dinode} (hd : d.Ok) (ht : d.type ≠ 0)
    (haddrs : d.addrs = (s.icache ip).din.addrs)
    (hholes : ∀ bn, bn * BSIZE < d.size → s.addr ip bn ≠ 0)
    (hother : ∀ i < s.sb.ninodes, i ≠ ip → (s.cur i).type ≠ 0 → s.NoHoles i)
    (hcoh : ∀ i, i ≠ ip → (s.icache i).Loaded → Live s i ∧ (s.icache i).din = s.dinode i)
    (hheld : ∀ i p, (s.icache i).holder = some p → (s.icache i).Loaded) :
    Inv (s.put ip d) := by
  have hs : Same s (s.put ip d) := by
    refine Same.put h hl.lt hd fun k hk => ?_
    rw [if_neg ht, haddrs]
    exact (hl.block_nil hk).symm
  have hself : (s.put ip d).icache ip = { s.icache ip with din := d } := by
    rw [State.put_icache, Function.update_self]
  have hne : ∀ i, i ≠ ip → (s.put ip d).icache i = s.icache i := by
    intro i hi
    rw [State.put_icache, Function.update_of_ne hi]
  refine ⟨hs.wf h, fun i hi ht' bn hbn => ?_, fun i hv => ?_, fun i p hp => ?_⟩
  · rw [hs.addr h]
    by_cases he : i = ip
    · subst he
      have hcur : (s.put i d).cur i = d := by
        unfold State.cur
        rw [hself, State.put_dinode hd, if_pos rfl]
        exact ite_self _
      rw [hcur] at hbn
      exact hholes bn hbn
    · have hcur : (s.put ip d).cur i = s.cur i :=
        cur_congr (hne i he) (by rw [State.put_dinode hd, if_neg he])
      rw [hcur] at ht' hbn
      exact hother i hi he ht' bn hbn
  · by_cases he : i = ip
    · subst he
      refine ⟨⟨hl.lt, hv, ?_⟩, ?_⟩
      · rw [hself]
        exact ht
      · rw [hself, State.put_dinode hd, if_pos rfl]
    · rw [hne i he] at hv ⊢
      obtain ⟨hli, hdi⟩ := hcoh i he hv
      refine ⟨⟨hli.lt, by rw [hne i he]; exact hli.loaded, by rw [hne i he]; exact hli.type⟩, ?_⟩
      rw [State.put_dinode hd, if_neg he]
      exact hdi
  · by_cases he : i = ip
    · subst he
      rw [hself] at hp ⊢
      exact hheld i p hp
    · rw [hne i he] at hp ⊢
      exact hheld i p hp

/-- `iupdate` after a change that keeps type, size and addresses. -/
theorem Inv.iupdate (h : Inv s) (hl : Live s ip) {d : Dinode} (hd : d.Ok) (ht : d.type ≠ 0)
    (haddrs : d.addrs = (s.icache ip).din.addrs) (hsize : d.size = (s.icache ip).din.size) :
    Inv (s.put ip d) := by
  refine Inv.put h.wf hl hd ht haddrs (fun bn hbn => ?_) (fun i hi _ => h.holes i hi)
    (fun i _ => h.coherent i) h.held
  refine h.holes ip hl.lt (by rw [hl.cur]; exact hl.type) bn ?_
  rw [hl.cur, ← hsize]
  exact hbn

/-- The fields of an inode in memory are values of their types. -/
theorem Inv.ok (h : Inv s) {i : Nat} (hv : (s.icache i).Loaded) : (s.icache i).din.Ok := by
  rw [(h.coherent i hv).2]
  exact Block.dinode_ok _

theorem Inv.noHoles (h : Inv s) (hl : Live s ip) : s.NoHoles ip :=
  h.holes ip hl.lt (by rw [hl.cur]; exact hl.type)

/-- A file is not longer than `MAXFILE` blocks. -/
theorem Inv.size_le (h : Inv s) (hl : Live s ip) : (s.icache ip).din.size ≤ MAXFILE * BSIZE := by
  by_contra hlt
  have hbn := h.noHoles hl MAXFILE (by rw [hl.cur]; omega)
  exact hbn (if_neg (Nat.lt_irrefl _))

/-- The inode stays one of their types when its tree grows. -/
theorem Grown.ok (hg : Grown ip s s') (hl : Live s ip) (hok : (s.icache ip).din.Ok) :
    (s'.icache ip).din.Ok := by
  obtain ⟨a, hk, ha⟩ := hg.inode
  have haddr : ∀ k, (s'.icache ip).din.addrs k = a k := fun k => by rw [ha]
  rw [ha]
  refine ⟨hok.type, hok.major, hok.minor, hok.nlink, hok.size, fun k => ?_, fun k hk' => ?_⟩
  · by_cases hlt : k < NDIRECT + 3
    · have hb := (hg.live hl).block_nil hlt
      rw [haddr] at hb
      by_cases h0 : a k = 0
      · show a k < 2 ^ 32
        rw [h0]
        exact Nat.two_pow_pos 32
      · rw [← hb] at h0
        have hlt' := (hg.wf.data _ (isPlace_root _) h0).2
        rw [hb] at hlt'
        exact Nat.lt_trans hlt' hg.wf.layout.size
    · show a k < 2 ^ 32
      rw [hk k (by omega), hok.range k (by omega)]
      exact Nat.two_pow_pos 32
  · show a k = 0
    rw [hk k hk']
    exact hok.range k hk'

end

end Xv6.Fs
