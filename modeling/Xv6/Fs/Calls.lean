import Xv6.Fs.Trunc
import Xv6.Fs.Contents

/-!
# Calls on inodes

What each call of the inode layer keeps when inodes in memory need not be on disk:
blocks are owned by the inodes as they are in memory. Only dropping the last reference
to an inode that was not written back would lose blocks.
-/

namespace Xv6.Fs

open Lib

/-- Blocks are owned, and the inodes in memory are inodes of the file system. -/
structure Sound (s : State) : Prop where
  wf : Wf s
  live : ∀ i, (s.icache i).Loaded → Live s i ∧ (s.icache i).din.Ok
  held : ∀ i p, (s.icache i).holder = some p → (s.icache i).Loaded

theorem Inv.sound {s : State} (h : Inv s) : Sound s :=
  ⟨h.wf, fun i hi => ⟨(h.coherent i hi).1, h.ok hi⟩, h.held⟩

/-- The invariant from its parts on disk and in memory. -/
theorem Sound.inv {s : State} (h : Sound s) (hd : ∀ i, (s.icache i).Loaded → (s.icache i).din = s.dinode i)
    (hh : ∀ i < s.sb.ninodes, (s.cur i).type ≠ 0 → s.NoHoles i) : Inv s :=
  ⟨h.wf, hh, fun i hi => ⟨(h.live i hi).1, hd i hi⟩, h.held⟩

/-- What `ialloc` writes for a new inode. -/
def fresh (type : Int) : Dinode := ⟨short type, 0, 0, 0, 0, fun _ => 0⟩

namespace Sound

variable {s s' : State} {ip p : Nat}

theorem isLive (h : Sound s) (hp : (s.icache ip).holder = some p) : Live s ip :=
  (h.live ip (h.held ip p hp)).1

/-- A new cache entry for an inode, which is the inode as it was. -/
theorem setInode (h : Sound s) {d : Inode}
    (hcur : ip < s.sb.ninodes → (if d.Loaded then d.din else s.dinode ip) = s.cur ip)
    (hlive : d.Loaded → ip < s.sb.ninodes ∧ d.din.type ≠ 0 ∧ d.din.Ok)
    (hheld : ∀ p, d.holder = some p → d.Loaded) : Sound (s.setInode ip d) := by
  have hself : (s.setInode ip d).icache ip = d := Function.update_self ..
  have hne : ∀ i, i ≠ ip → (s.setInode ip d).icache i = s.icache i :=
    fun i hi => Function.update_of_ne hi ..
  have hsb : (s.setInode ip d).sb = s.sb := rfl
  have hsame : Same s (s.setInode ip d) := by
    refine ⟨hsb, fun _ _ => rfl, fun r => root_congr hsb fun hr => ?_⟩
    by_cases he : r.1 = ip
    · rw [he] at hr ⊢
      rw [← hcur hr, State.cur, hself]
      rfl
    · exact cur_congr (hne _ he) rfl
  refine ⟨hsame.wf h.wf, fun i hi => ?_, fun i p hp => ?_⟩
  · by_cases he : i = ip
    · subst he
      rw [hself] at hi ⊢
      obtain ⟨hlt, ht, hok⟩ := hlive hi
      exact ⟨⟨hlt, by rw [hself]; exact hi, by rw [hself]; exact ht⟩, hok⟩
    · rw [hne i he] at hi ⊢
      obtain ⟨hl, hok⟩ := h.live i hi
      exact ⟨⟨hl.lt, by rw [hne i he]; exact hi, by rw [hne i he]; exact hl.type⟩, hok⟩
  · by_cases he : i = ip
    · subst he
      rw [hself] at hp ⊢
      exact hheld p hp
    · rw [hne i he] at hp ⊢
      exact h.held i p hp

/-- The same inode with another holder, or another count that is not 0. -/
theorem recount (h : Sound s) {d : Inode} (hv : d.valid = (s.icache ip).valid) (hd : d.din = (s.icache ip).din)
    (hr : 0 < d.ref) (hr' : 0 < (s.icache ip).ref)
    (hheld : ∀ p, d.holder = some p → d.valid = true) : Sound (s.setInode ip d) := by
  have hiff : d.Loaded ↔ (s.icache ip).Loaded := by
    unfold Inode.Loaded
    rw [hv]
    exact and_congr_right fun _ => iff_of_true hr hr'
  refine h.setInode (fun _ => ?_) (fun hl => ?_) fun p hp => ⟨hheld p hp, hr⟩
  · rw [hd, State.cur]
    simp only [hiff]
  · obtain ⟨hl, hok⟩ := h.live ip (hiff.mp hl)
    rw [hd]
    exact ⟨hl.lt, hl.type, hok⟩

theorem iget (h : Sound s) (hs : s.iget ip = .ok s') : Sound s' := by
  unfold State.iget at hs
  split at hs
  · next hr =>
    cases hs
    exact h.recount rfl rfl (by show 0 < (s.icache ip).ref + 1; omega) hr fun p hp => (h.held ip p hp).1
  · next hr =>
    split at hs
    · cases hs
    · cases hs
      refine h.setInode (fun _ => ?_) (fun hl => absurd hl.1 Bool.false_ne_true) fun p hp =>
        absurd (h.held ip p hp).2 hr
      rw [cur_unloaded fun hl => hr hl.2]
      exact if_neg fun hl => Bool.false_ne_true hl.1

theorem idup (h : Sound s) (hr : 0 < (s.icache ip).ref) : Sound (s.idup ip) :=
  h.recount rfl rfl (by show 0 < (s.icache ip).ref + 1; omega) hr fun p hp => (h.held ip p hp).1

theorem ilock (h : Sound s) (hip : ip < s.sb.ninodes) (hs : s.ilock p ip = .ok s') : Sound s' := by
  obtain ⟨-, hr, d, rfl, hdr, -, hv, hd⟩ := ilock_ok hs
  rcases hd with ⟨hv', hd⟩ | ⟨hv', hd, ht⟩
  · exact h.recount (hv.trans hv'.symm) hd (by omega) hr fun _ _ => hv
  · refine h.setInode (fun _ => ?_) (fun _ => ⟨hip, ht, ?_⟩) fun _ _ => ⟨hv, by omega⟩
    · rw [if_pos ⟨hv, by omega⟩, hd, cur_unloaded]
      intro hl
      exact Bool.false_ne_true (hv'.symm.trans hl.1)
    · rw [hd]
      exact Block.dinode_ok _

theorem iunlock (h : Sound s) (hs : s.iunlock p ip = .ok s') : Sound s' := by
  unfold State.iunlock at hs
  split at hs
  · cases hs
  · next hc =>
    cases hs
    have hr : 0 < (s.icache ip).ref := by omega
    exact h.recount rfl rfl hr hr fun _ hp => by cases hp

/-- Writing an inode back. -/
theorem put (h : Sound s) (hl : Live s ip) {d : Dinode} (hd : d.Ok) (ht : d.type ≠ 0)
    (haddrs : d.addrs = (s.icache ip).din.addrs) : Sound (s.put ip d) := by
  have hsame : Same s (s.put ip d) := by
    refine Same.put h.wf hl.lt hd fun k hk => ?_
    rw [if_neg ht, haddrs]
    exact (hl.block_nil hk).symm
  have hself : (s.put ip d).icache ip = { s.icache ip with din := d } := by
    rw [State.put_icache, Function.update_self]
  have hne : ∀ i, i ≠ ip → (s.put ip d).icache i = s.icache i := by
    intro i hi
    rw [State.put_icache, Function.update_of_ne hi]
  refine ⟨hsame.wf h.wf, fun i hi => ?_, fun i p hp => ?_⟩
  · by_cases he : i = ip
    · subst he
      refine ⟨⟨hl.lt, hi, ?_⟩, ?_⟩
      · rw [hself]
        exact ht
      · rw [hself]
        exact hd
    · rw [hne i he] at hi ⊢
      obtain ⟨hli, hok⟩ := h.live i hi
      exact ⟨⟨hli.lt, by rw [hne i he]; exact hi, by rw [hne i he]; exact hli.type⟩, hok⟩
  · by_cases he : i = ip
    · subst he
      rw [hself] at hp ⊢
      exact h.held i p hp
    · rw [hne i he] at hp ⊢
      exact h.held i p hp

theorem of_grown (h : Sound s) (hl : Live s ip) (hg : Grown ip s s') : Sound s' := by
  have hin : ∀ i, (s'.icache i).Loaded ↔ (s.icache i).Loaded := by
    intro i
    by_cases he : i = ip
    · obtain ⟨a, -, ha⟩ := hg.inode
      rw [he, ha]
      rfl
    · rw [hg.icache i he]
  refine ⟨hg.wf, fun i hi => ?_, fun i p hp => ?_⟩
  · rw [hin] at hi
    obtain ⟨hli, hok⟩ := h.live i hi
    by_cases he : i = ip
    · subst he
      exact ⟨hg.live hl, hg.ok hl hok⟩
    · rw [hg.icache i he]
      exact ⟨⟨by rw [hg.sb]; exact hli.lt, by rw [hg.icache i he]; exact hi,
        by rw [hg.icache i he]; exact hli.type⟩, hok⟩
  · rw [hin]
    refine h.held i p ?_
    by_cases he : i = ip
    · obtain ⟨a, -, ha⟩ := hg.inode
      rw [he, ha] at hp
      rw [he]
      exact hp
    · rw [← hg.icache i he]
      exact hp

theorem bmap (h : Sound s) (hl : Live s ip) {bn a : Nat} (hs : s.bmap ip bn = .ok (a, s')) :
    Sound s' ∧ Extends ip s s' := by
  have hbn : bn < MAXFILE := by
    by_contra hge
    rw [bmap_range (by omega)] at hs
    cases hs
  have hext := (bmap_spec h.wf hl hbn hs).1
  exact ⟨h.of_grown hl (.of_extends hext), hext⟩

theorem of_truncated (h : Sound s) (hl : Live s ip) (ht : Truncated ip s s') : Sound s' := by
  obtain ⟨d, hc, hok, hd⟩ := ht.inode
  refine ⟨ht.wf, fun i hi => ?_, fun i p hp => ?_⟩
  · by_cases he : i = ip
    · subst he
      refine ⟨⟨by rw [ht.sb]; exact hl.lt, hi, ?_⟩, ?_⟩
      · rw [hc, hd]
        exact hl.type
      · rw [hc]
        exact hok
    · rw [ht.icache i he] at hi ⊢
      obtain ⟨hli, hok⟩ := h.live i hi
      exact ⟨⟨by rw [ht.sb]; exact hli.lt, by rw [ht.icache i he]; exact hi,
        by rw [ht.icache i he]; exact hli.type⟩, hok⟩
  · by_cases he : i = ip
    · subst he
      rw [hc] at hp ⊢
      exact h.held i p hp
    · rw [ht.icache i he] at hp ⊢
      exact h.held i p hp

/-- `itrunc` does not panic. -/
theorem itrunc (h : Sound s) (hl : Live s ip) : ∃ s', s.itrunc ip = .ok s' ∧ Truncated ip s s' ∧ Sound s' := by
  obtain ⟨s', hs, ht⟩ := itrunc_ok h.wf hl (h.live ip hl.loaded).2
  exact ⟨s', hs, ht, h.of_truncated hl ht⟩

/-- The console's `write` lets go of the lock and takes it again. -/
theorem consolewrite (h : Sound s) {n r : Int} (hip : ip < s.sb.ninodes)
    (hs : s.consolewrite p ip n = .ok (r, s')) : Sound s' := by
  obtain ⟨s₁, h₁, hs⟩ := bind_ok.mp hs
  obtain ⟨s₂, h₂, hs⟩ := bind_ok.mp hs
  cases hs
  have hsb : s₁.sb = s.sb := by
    unfold State.iunlock at h₁
    split at h₁
    · cases h₁
    · cases h₁
      rfl
  exact (h.iunlock h₁).ilock (by rw [hsb]; exact hip) h₂

/-- What `writei` may do, whatever it is asked for. -/
theorem writei_cases {src : Nat → UInt8} {off n : Nat} {r : Int}
    (hs : s.writei p ip src off n = .ok (r, s')) :
    (s.icache ip).din.type = T_DEV ∧ s.consolewrite p ip (int n) = .ok (r, s') ∨ s' = s ∨
    ∃ off' s₁, off + n ≤ MAXFILE * BSIZE ∧ State.writeLoop ip src n n s 0 off = .ok (off', s₁) ∧
      (s' = s₁ ∨ s' = s₁.put ip { (s₁.icache ip).din with size := off' }) := by
  simp only [State.writei] at hs
  split at hs
  · next ht =>
    split at hs
    · cases hs
      exact .inr (.inl rfl)
    · exact .inl ⟨ht, hs⟩
  · split at hs
    · cases hs
      exact .inr (.inl rfl)
    · split at hs
      · cases hs
        exact .inr (.inl rfl)
      · next hmax =>
        obtain ⟨⟨off', s₁⟩, hloop, hs⟩ := bind_ok.mp hs
        refine .inr (.inr ⟨off', s₁, by omega, hloop, ?_⟩)
        split at hs
        · rw [pure_ok, Prod.mk.injEq] at hs
          exact .inr hs.2.symm
        · rw [pure_ok, Prod.mk.injEq] at hs
          exact .inl hs.2.symm

theorem writei (h : Sound s) (hl : Live s ip) {src : Nat → UInt8} {off n : Nat} {r : Int}
    (hs : s.writei p ip src off n = .ok (r, s')) : Sound s' := by
  rcases writei_cases hs with ⟨-, hs⟩ | rfl | ⟨off', s₁, hmax, hloop, hs⟩
  · exact h.consolewrite hl.lt hs
  · exact h
  · obtain ⟨ho, hg, -⟩ := writeLoop_spec h.wf hl (Nat.zero_le n) (Nat.sub_le ..) hmax hloop
    have h₁ := h.of_grown hl hg
    rcases hs with rfl | rfl
    · exact h₁
    · have hok := (h₁.live ip (hg.live hl).loaded).2
      have hlt := maxfile_lt
      refine h₁.put (hg.live hl) ⟨hok.type, hok.major, hok.minor, hok.nlink, ?_, hok.addrs, hok.range⟩
        (hg.live hl).type rfl
      show off' < 2 ^ 32
      omega

/-! ## Dropping a reference -/

/-- `iput` that frees nothing. -/
theorem iput_drop (hn : ¬ ((s.icache ip).valid ∧ (s.icache ip).din.nlink = 0 ∧ (s.icache ip).ref = 1))
    (hs : s.iput p ip = .ok s') : (s.icache ip).holder = none ∧
      s' = s.setInode ip { s.icache ip with ref := (s.icache ip).ref - 1 } := by
  obtain ⟨s₁, h₁, hs⟩ := bind_ok.mp hs
  unfold State.acquiresleep at h₁
  split at h₁
  · cases h₁
  · next hh =>
    have hh : (s.icache ip).holder = none := by simpa using hh
    cases h₁
    simp only [State.setInode, Function.update_self] at hs
    rw [if_neg hn] at hs
    cases hs
    refine ⟨hh, ?_⟩
    simp only [State.releasesleep, State.setInode, Function.update_self, Function.update_idem]
    congr 2
    rw [← hh]

/-- `s'` is `s` after the inode `ip` and its blocks were freed. -/
structure Released (ip : Nat) (s s' : State) : Prop where
  sound : Sound s'
  sb : s'.sb = s.sb
  input : s'.input = s.input
  icache : ∀ j, j ≠ ip → s'.icache j = s.icache j
  inode : ∃ d, s'.icache ip = { ref := 0, holder := none, valid := false, din := d }
  dinode : ∀ i < s.sb.ninodes, s'.dinode i =
    if i = ip then { (s.icache ip).din with type := 0, size := 0, addrs := fun _ => 0 } else s.dinode i
  block : ∀ p, IsPlace p → s'.block p = if p.1.1 = ip then 0 else s.block p
  data : ∀ x, s.sb.dstart ≤ x → x < s.sb.size → s'.disk x = s.disk x
  used : ∀ c < s.sb.size, s'.used c = true ↔
    s.used c = true ∧ ¬ (c ≠ 0 ∧ ∃ p, IsPlace p ∧ p.1.1 = ip ∧ s.block p = c)

/-- `iput` of the last reference to an inode without links frees it. -/
theorem iput_free (h : Sound s) (hv : (s.icache ip).valid = true) (hn : (s.icache ip).din.nlink = 0)
    (hr : (s.icache ip).ref = 1) (hh : (s.icache ip).holder = none) :
    ∃ s', s.iput p ip = .ok s' ∧ Released ip s s' := by
  have hlo : (s.icache ip).Loaded := ⟨hv, by omega⟩
  generalize hs₁ : s.setInode ip { s.icache ip with holder := some p } = s₁
  have hc₁ : s₁.icache ip = { s.icache ip with holder := some p } := by
    rw [← hs₁]
    exact Function.update_self ..
  have hne₁ : ∀ j, j ≠ ip → s₁.icache j = s.icache j := by
    intro j hj
    rw [← hs₁]
    exact Function.update_of_ne hj ..
  have hsb₁ : s₁.sb = s.sb := by rw [← hs₁]; rfl
  have hd₁ : s₁.disk = s.disk := by rw [← hs₁]; rfl
  have h₁ : Sound s₁ := by
    rw [← hs₁]
    exact h.recount rfl rfl hlo.2 hlo.2 fun _ _ => hv
  have hl₁ : Live s₁ ip := (h₁.live ip (by rw [hc₁]; exact hlo)).1
  have hcur₁ : ∀ i, s₁.cur i = s.cur i := by
    intro i
    by_cases he : i = ip
    · rw [he, hl₁.cur, cur_loaded hlo, hc₁]
    · exact cur_congr (hne₁ i he) (dinode_congr hsb₁ (congrFun hd₁ _))
  have hb₁ : ∀ q, IsPlace q → s₁.block q = s.block q := fun q hq =>
    Forest.block_congr (root_congr hsb₁ fun _ => hcur₁ _)
      (fun _ _ _ i _ => congrArg (Block.word · i) (congrFun hd₁ _)) hq
  obtain ⟨s₂, hs₂, ht, h₂⟩ := h₁.itrunc hl₁
  obtain ⟨d, hc₂, hok, hd⟩ := ht.inode
  have hdin : (s₁.icache ip).din = (s.icache ip).din := by rw [hc₁]
  rw [hdin] at hd
  have hr₂ : (s₂.icache ip).ref = 1 := by rw [hc₂, hc₁]; exact hr
  generalize hd₃ : ({ d with type := 0 } : Dinode) = d₃
  have hok₃ : d₃.Ok := by
    subst hd₃
    exact ⟨rfl, hok.major, hok.minor, hok.nlink, hok.size, hok.addrs, hok.range⟩
  have ht₃ : d₃.type = 0 := by rw [← hd₃]
  generalize hs₃ : s₂.put ip d₃ = s₃
  generalize hs' : s₃.setInode ip { ref := 0, holder := none, valid := false, din := d₃ } = s'
  have hc₃ : s₃.icache ip = { s₂.icache ip with din := d₃ } := by
    rw [← hs₃, State.put_icache, Function.update_self]
  have hcall : s.iput p ip = .ok s' := by
    have hcond : (s₁.icache ip).valid ∧ (s₁.icache ip).din.nlink = 0 ∧ (s₁.icache ip).ref = 1 := by
      rw [hc₁]
      exact ⟨hv, hn, hr⟩
    have hput : (s₂.setDin ip { (s₂.icache ip).din with type := 0 }).iupdate ip = s₃ := by
      rw [← hs₃, ← hd₃, hc₂]
      rfl
    refine bind_ok.mpr ⟨s₁, ?_, ?_⟩
    · rw [State.acquiresleep, hh, ← hs₁]
      rfl
    · simp only [if_pos hcond]
      refine bind_ok.mpr ⟨s₂, hs₂, ?_⟩
      rw [hput]
      simp only [ok_bind, State.releasesleep, State.setInode, Function.update_self, Function.update_idem]
      rw [hc₃, hr₂, ← hs']
      rfl
  have hdi : ∀ i, s'.dinode i = if i = ip then d₃ else s₂.dinode i := by
    intro i
    rw [← State.put_dinode hok₃, hs₃, ← hs']
    rfl
  have hc' : s'.icache ip = { ref := 0, holder := none, valid := false, din := d₃ } := by
    rw [← hs']
    exact Function.update_self ..
  have hne' : ∀ j, j ≠ ip → s'.icache j = s.icache j := by
    intro j hj
    rw [← hne₁ j hj, ← ht.icache j hj, ← hs', ← hs₃]
    exact (Function.update_of_ne hj ..).trans (Function.update_of_ne hj ..)
  have hsb' : s'.sb = s₂.sb := by rw [← hs', ← hs₃]; rfl
  have hlow : ∀ x, s₂.sb.bmapstart ≤ x → s'.disk x = s₂.disk x := by
    intro x hx
    rw [← hs', ← hs₃]
    exact Function.update_of_ne (h₂.wf.layout.inode_ne (by rw [ht.sb]; exact hl₁.lt) hx).symm ..
  have hsame : Same s₂ s' := by
    refine ⟨hsb', hlow, fun r => ?_⟩
    by_cases he : r.1 = ip
    · have h0 : s₂.root r = 0 := (ht.block (r, []) (isPlace_root r)).trans (if_pos he)
      have hcur : s'.cur ip = d₃ := by
        rw [cur_unloaded (by rw [hc']; exact fun hl => Bool.false_ne_true hl.1), hdi, if_pos rfl]
      rw [h0]
      unfold State.root
      rw [he, hcur]
      exact if_neg fun hc => hc.2.1 ht₃
    · refine root_congr hsb' fun _ => cur_congr ?_ ?_
      · rw [hne' _ he, ht.icache _ he, hne₁ _ he]
      · rw [hdi, if_neg he]
  refine ⟨s', hcall, ⟨hsame.wf ht.wf, fun i hi => ?_, fun i q hq => ?_⟩, ?_, ?_, hne', ⟨d₃, hc'⟩,
    fun i hi => ?_, fun q hq => ?_, fun x hx hlt => ?_, fun c hc => ?_⟩
  · by_cases he : i = ip
    · rw [he, hc'] at hi
      exact absurd hi.1 Bool.false_ne_true
    · rw [hne' i he] at hi ⊢
      obtain ⟨hli, hoki⟩ := h.live i hi
      exact ⟨⟨by rw [hsb', ht.sb, hsb₁]; exact hli.lt, by rw [hne' i he]; exact hi,
        by rw [hne' i he]; exact hli.type⟩, hoki⟩
  · by_cases he : i = ip
    · rw [he, hc'] at hq
      cases hq
    · rw [hne' i he] at hq ⊢
      exact h.held i q hq
  · rw [hsb', ht.sb, hsb₁]
  · rw [← hs', ← hs₃, ← hs₁] at *
    exact ht.input
  · rw [hdi]
    split
    · rw [← hd₃, hd]
    · next he =>
      rw [ht.dinode i (by rw [hsb₁]; exact hi), if_neg he]
      exact dinode_congr hsb₁ (congrFun hd₁ _)
  · rw [hsame.block ht.wf hq, ht.block q hq, hb₁ q hq]
  · have hb := h.wf.layout.bmapstart_lt hlt
    rw [hlow x (by rw [ht.sb, hsb₁]; omega), ht.data x (by rw [hsb₁]; exact hx) (by rw [hsb₁]; exact hlt), hd₁]
  · have hu : s'.used c = s₂.used c := used_congr hsb' (hlow _ (Superblock.Layout.le_BBLOCK ..))
    have hu₁ : s₁.used c = s.used c := used_congr hsb₁ (congrFun hd₁ _)
    rw [hu, ht.used c (by rw [hsb₁]; exact hc), hu₁]
    refine and_congr_right fun _ => not_congr (and_congr_right fun _ => exists_congr fun q => ?_)
    refine and_congr_right fun hq => and_congr_right fun _ => ?_
    rw [hb₁ q hq]

/-! ## Allocating an inode -/

theorem fresh_ok (type : Int) : (fresh type).Ok :=
  ⟨Block.short_range type, rfl, rfl, rfl, Nat.two_pow_pos 32, fun _ => Nat.two_pow_pos 32, fun _ _ => rfl⟩

theorem ialloc_ok {type : Int} {i : Nat} (hs : s.ialloc type = .ok (i, s')) : 0 < i ∧ i < s.sb.ninodes ∧
    (s.dinode i).type = 0 ∧ (s.putDinode i (fresh type)).iget i = .ok s' := by
  simp only [State.ialloc] at hs
  split at hs
  · next i' hf =>
    obtain ⟨s₁, h₁, hs⟩ := bind_ok.mp hs
    cases hs
    have ht := List.find?_some hf
    have hm := List.mem_of_find?_eq_some hf
    rw [List.mem_range'_1] at hm
    exact ⟨by omega, by omega, by simpa using ht, h₁⟩
  · cases hs

/-- A free inode on disk has no tree, and a new one has none. -/
theorem same_fresh (h : Wf s) (hip : ip < s.sb.ninodes) (h0 : (s.dinode ip).type = 0) (type : Int) :
    Same s (s.putDinode ip (fresh type)) := by
  generalize hs₁ : s.putDinode ip (fresh type) = s₁
  have hsb : s₁.sb = s.sb := by rw [← hs₁]; rfl
  have hc : s₁.icache = s.icache := by rw [← hs₁]; rfl
  have hd : ∀ i, s₁.dinode i = if i = ip then fresh type else s.dinode i := by
    rw [← hs₁]
    exact dinode_putDinode (fresh_ok type)
  refine ⟨hsb, fun x hx => by rw [← hs₁]; exact disk_putDinode h hip hx, fun r => ?_⟩
  by_cases he : r.1 = ip
  · by_cases hl : (s.icache ip).Loaded
    · refine root_congr hsb fun _ => ?_
      rw [he, cur_loaded (by rw [hc]; exact hl), cur_loaded hl, hc]
    · have hcur : s₁.cur ip = fresh type := by
        rw [cur_unloaded (by rw [hc]; exact hl), hd, if_pos rfl]
      have hr : s.root r = 0 := by
        unfold State.root
        rw [he, cur_unloaded hl]
        exact if_neg fun hc => hc.2.1 h0
      have hr' : s₁.root r = 0 := by
        unfold State.root
        rw [he, hcur]
        exact ite_self _
      rw [hr, hr']
  · exact root_congr hsb fun _ => cur_congr (congrFun hc _) (by rw [hd, if_neg he])

theorem ialloc (h : Sound s) {type : Int} {i : Nat} (hs : s.ialloc type = .ok (i, s')) : Sound s' := by
  obtain ⟨-, hi, h0, hg⟩ := ialloc_ok hs
  have hsame := same_fresh h.wf hi h0 type
  refine Sound.iget (s := s.putDinode i (fresh type)) ⟨hsame.wf h.wf, fun j hj => ?_, h.held⟩ hg
  obtain ⟨hl, hok⟩ := h.live j hj
  exact ⟨⟨hl.lt, hl.loaded, hl.type⟩, hok⟩

end Sound

/-! ## A small file system -/

def smallDir : Dinode := ⟨T_DIR, 0, 0, 1, 0, fun _ => 0⟩

def smallFile : Dinode := ⟨T_FILE, 0, 0, 1, 0, fun _ => 0⟩

/-- Sixteen blocks, the first four in use, and eight inodes. -/
def blank (icache : Nat → Inode) : State where
  sb := ⟨16, 12, 8, 0, 2, 2, 3⟩
  disk b := if b = 3 then (((Block.zero.setBit 0).setBit 1).setBit 2).setBit 3 else Block.zero
  icache := icache
  input := []

/-- An empty directory, inode 1, and an empty file, inode 2. -/
def small (icache : Nat → Inode) : State := ((blank icache).putDinode 1 smallDir).putDinode 2 smallFile

/-- Nothing is cached. -/
def noInode : Inode := ⟨0, none, false, ⟨0, 0, 0, 0, 0, fun _ => 0⟩⟩

/-- Process 0 holds both inodes. -/
def held : Nat → Inode
  | 1 => ⟨1, some 0, true, smallDir⟩
  | 2 => ⟨1, some 0, true, smallFile⟩
  | _ => noInode

theorem small_dinode (c : Nat → Inode) {i : Nat} (hi : i < 8) : (small c).dinode i =
    if i = 2 then smallFile else if i = 1 then smallDir else ⟨0, 0, 0, 0, 0, fun _ => 0⟩ := by
  have hd : smallDir.Ok := ⟨rfl, rfl, rfl, rfl, by decide, fun _ => Nat.two_pow_pos 32, fun _ _ => rfl⟩
  have hf : smallFile.Ok := ⟨rfl, rfl, rfl, rfl, by decide, fun _ => Nat.two_pow_pos 32, fun _ _ => rfl⟩
  have hb : (blank c).dinode i = ⟨0, 0, 0, 0, 0, fun _ => 0⟩ := by
    have hB : (blank c).disk ((blank c).sb.IBLOCK i) = Block.zero := by
      refine if_neg ?_
      show i / IPB + 2 ≠ 3
      have : i / IPB = 0 := Nat.div_eq_of_lt hi
      omega
    rw [State.dinode, hB, Block.dinode_zero]
  rw [small, dinode_putDinode hf, dinode_putDinode hd, hb]

theorem small_used (c : Nat → Inode) {b : Nat} (hb : b < 16) : (small c).used b = decide (b < 4) := by
  have h3 : (small c).disk 3 = (((Block.zero.setBit 0).setBit 1).setBit 2).setBit 3 := rfl
  have hB : (small c).sb.BBLOCK b = 3 := by
    show b / BPB + 3 = 3
    rw [Nat.div_eq_of_lt (Nat.lt_trans hb (by decide))]
  have hm : b % BPB = b := Nat.mod_eq_of_lt (Nat.lt_trans hb (by decide))
  rw [State.used, hB, hm, h3, Block.bit_setBit, Block.bit_setBit, Block.bit_setBit, Block.bit_setBit,
    Block.bit_zero]
  have hall : ∀ b < 16, (if b = 3 then true else if b = 2 then true else if b = 1 then true
      else if b = 0 then true else false) = decide (b < 4) := by decide
  exact hall b hb

theorem small_inv (c : Nat → Inode) (hc : ∀ i, (c i).Loaded → i < 8 ∧ (c i).din = (small c).dinode i ∧
    (c i).din.type ≠ 0) (hheld : ∀ i p, (c i).holder = some p → (c i).Loaded) : Inv (small c) := by
  have hcur : ∀ i < 8, (small c).cur i = (small c).dinode i := by
    intro i hi
    unfold State.cur
    split
    · next hl => exact (hc i hl).2.1
    · rfl
  have hzero : ∀ i < 8, (small c).cur i = ⟨((small c).cur i).type, 0, 0, ((small c).cur i).nlink, 0, fun _ => 0⟩ := by
    intro i hi
    rw [hcur i hi, small_dinode c hi]
    split
    · rfl
    · split <;> rfl
  have hroot : ∀ r, (small c).root r = 0 := by
    intro r
    unfold State.root
    split
    · next hr =>
      rw [hzero r.1 hr.1]
    · rfl
  have hblock : ∀ p, (small c).block p = 0 := fun p =>
    (congrArg (follow _ · p.2) (hroot p.1)).trans (follow_zero ..)
  have hlayout : (small c).sb.Layout :=
    ⟨by show ∀ i < 8, i / IPB + 2 < 3; decide, by show ∀ b < 16, b / BPB + 3 < 4; decide,
      by show 16 < 2 ^ 32; decide⟩
  refine ⟨⟨hlayout, fun p q _ _ hne => absurd (hblock p) hne, fun p _ hne => absurd (hblock p) hne,
    fun b hb => ?_⟩, fun i hi _ bn hbn => ?_, fun i hl => ?_, hheld⟩
  · rw [small_used c hb, decide_eq_true_eq]
    show b < 4 ↔ b < 4 ∨ _
    refine (or_iff_left_of_imp ?_).symm
    rintro ⟨p, -, hp⟩
    rw [hblock p] at hp
    omega
  · rw [hzero i hi] at hbn
    exact absurd hbn (Nat.not_lt_zero _)
  · obtain ⟨hlt, hd, ht⟩ := hc i hl
    exact ⟨⟨hlt, hl, ht⟩, hd⟩

/-- Both inodes are locked. -/
theorem small_held : Inv (small held) := by
  have hd1 := small_dinode held (show 1 < 8 by decide)
  have hd2 := small_dinode held (show 2 < 8 by decide)
  refine small_inv held (fun i hi => ?_) fun i p hp => ?_
  · match i, hi with
    | 1, _ => exact ⟨by decide, hd1.symm, by decide⟩
    | 2, _ => exact ⟨by decide, hd2.symm, by decide⟩
    | 0, hi => exact absurd hi.1 Bool.false_ne_true
    | i + 3, hi => exact absurd hi.1 Bool.false_ne_true
  · match i, hp with
    | 1, _ => exact ⟨rfl, by decide⟩
    | 2, _ => exact ⟨rfl, by decide⟩

/-- Nothing is cached. -/
theorem small_idle : Inv (small fun _ => noInode) :=
  small_inv _ (fun _ hi => absurd hi.1 Bool.false_ne_true) fun _ _ hp => by cases hp

end Xv6.Fs
