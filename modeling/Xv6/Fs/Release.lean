import Xv6.Fs.Runs
import Xv6.Fs.Positional

/-!
# Giving the blocks of a file back

`itrunc` frees each block of a tree once. A file that is created, written by any number
of writes, unlinked and closed leaves the bitmap as it was before the writes.
-/

namespace Xv6.Fs

open Lib

section
variable {s s' : State} {p ip dp off n : Nat}

/-! ## What keeps the bitmap -/

/-- The bitmap is the same, and so are all trees but that of `dp`. -/
structure Tame (dp : Nat) (s s' : State) : Prop where
  inv : Inv s'
  sb : s'.sb = s.sb
  used : ∀ c < s.sb.size, s'.used c = s.used c
  block : ∀ q, IsPlace q → q.1.1 ≠ dp → s'.block q = s.block q

theorem Tame.trans {s'' : State} (h : Tame dp s s') (h' : Tame dp s' s'') : Tame dp s s'' where
  inv := h'.inv
  sb := h'.sb.trans h.sb
  used c hc := (h'.used c (by rw [h.sb]; exact hc)).trans (h.used c hc)
  block q hq hne := (h'.block q hq hne).trans (h.block q hq hne)

theorem block_of_disk (h : Inv s) (h' : Inv s') (hsb : s'.sb = s.sb) (hdisk : s'.disk = s.disk) (q : Place) :
    s'.block q = s.block q := by
  have hcur : ∀ i, s'.cur i = s.cur i := fun i => by
    rw [h.cur, h'.cur]
    exact dinode_congr hsb (congrFun hdisk _)
  have hroot : s'.root = s.root := funext fun r => root_congr hsb fun _ => hcur _
  unfold State.block State.forest
  rw [hroot, hdisk]

theorem Tame.of_disk (h : Inv s) (h' : Inv s') (hsb : s'.sb = s.sb) (hdisk : s'.disk = s.disk) :
    Tame dp s s' :=
  ⟨h', hsb, fun _ _ => used_congr hsb (congrFun hdisk _), fun q _ _ => block_of_disk h h' hsb hdisk q⟩

theorem Tame.ilock (h : Inv s) (hip : ip < s.sb.ninodes) (hs : s.ilock p ip = .ok s') : Tame dp s s' :=
  .of_disk h (h.ilock hip hs) (by rw [(ilock_locked hs).2.2]; rfl) (ilock_disk hs)

theorem Tame.iget (h : Inv s) (hs : s.iget ip = .ok s') : Tame dp s s' := by
  obtain ⟨d, he, -⟩ := iget_state hs
  exact .of_disk h (h.iget hs) (by rw [he]; rfl) (iget_disk hs)

theorem Tame.addNlink (h : Inv s) (hp : (s.icache ip).holder = some p) (k : Int) :
    Tame dp s (s.addNlink ip k) := by
  have hl := h.live hp
  have hok := h.ok hl.loaded
  have hd : ({ (s.icache ip).din with nlink := short ((s.icache ip).din.nlink + k) } : Dinode).Ok :=
    ⟨hok.type, hok.major, hok.minor, Block.short_range _, hok.size, hok.addrs, hok.range⟩
  have hs : Same s (s.addNlink ip k) := Same.put h.wf hl.lt hd fun k hk => by
    rw [if_neg (show _ ≠ (0 : Int) from hl.type)]
    exact (hl.block_nil hk).symm
  exact ⟨h.addNlink hp k, rfl, fun c _ => used_congr hs.sb (hs.disk _ (Superblock.Layout.le_BBLOCK ..)),
    fun q hq _ => hs.block h.wf hq⟩

/-- Giving up an inode that keeps a link, or another reference. -/
theorem Tame.iunlockput (h : Inv s) (hn : ¬ ((s.icache ip).din.nlink = 0 ∧ (s.icache ip).ref = 1))
    (hs : s.iunlockput p ip = .ok s') : Tame dp s s' ∧
      s'.icache ip = { s.icache ip with holder := none, ref := (s.icache ip).ref - 1 } := by
  have hs' := hs
  obtain ⟨s₁, h₁, hs⟩ := bind_ok.mp hs
  obtain ⟨-, rfl⟩ := iunlock_released h₁
  have hc : (s.releasesleep ip).icache ip = { s.icache ip with holder := none } := Function.update_self ..
  obtain ⟨-, he⟩ := Sound.iput_drop (s := s.releasesleep ip) (by rw [hc]; exact fun hf => hn hf.2) hs
  rw [hc] at he
  subst he
  exact ⟨.of_disk h (h.iunlockput hs') rfl rfl, Function.update_self ..⟩

/-- Where the blocks are there, a write allocates none. -/
theorem writeLoop_used (h : Wf s) (hl : Live s ip) {src : Nat → UInt8} {fuel tot off' : Nat}
    (hb : ∀ bn, bn * BSIZE < off + (n - tot) → s.addr ip bn ≠ 0)
    (hs : State.writeLoop ip src n fuel s tot off = .ok (off', s')) :
    s'.sb = s.sb ∧ ∀ c < s.sb.size, s'.used c = s.used c := by
  induction fuel generalizing s tot off with
  | zero =>
    cases hs
    exact ⟨rfl, fun _ _ => rfl⟩
  | succ fuel ih =>
    rw [State.writeLoop] at hs
    split at hs
    · next hlt =>
      have hne : s.addr ip (off / BSIZE) ≠ 0 :=
        hb _ (Nat.lt_of_le_of_lt (Nat.div_mul_le_self ..) (by omega))
      rw [bmap_eq_self hl hne] at hs
      simp only [ok_bind] at hs
      have hg := Grown.of_write h hne ((s.disk (s.addr ip (off / BSIZE))).copy (off % BSIZE)
        (min (n - tot) (BSIZE - off % BSIZE)) fun j => src (tot + j))
      obtain ⟨hsb, hu⟩ := ih hg.wf (hg.live hl) (fun bn hlt' => by
        have hbn := hb bn (by omega)
        rw [hg.addr_keep hbn]
        exact hbn) hs
      refine ⟨hsb.trans hg.sb, fun c hc => (hu c (by rw [hg.sb]; exact hc)).trans ?_⟩
      obtain ⟨-, hleaf, ha⟩ := addr_ne_zero hne
      refine used_congr hg.sb (Function.update_of_ne ?_ ..)
      rw [ha] at hne ⊢
      exact (h.block_ne_BBLOCK hleaf.1 hne hc).symm
    · cases hs
      exact ⟨rfl, fun _ _ => rfl⟩

/-- A write below the size allocates nothing. -/
theorem Tame.overwrite (h : Inv s) (hp : (s.icache ip).holder = some p) (ht : (s.icache ip).din.type ≠ T_DEV)
    (hle : off + n ≤ (s.icache ip).din.size) {src : Nat → UInt8} {r : Int}
    (hs : s.writei p ip src off n = .ok (r, s')) : Tame ip s s' ∧ s'.icache = s.icache := by
  have hl := h.live hp
  have hmax := h.size_le hl
  have hlt := maxfile_lt
  obtain ⟨-, hw⟩ := writei_ok h hp ht (by omega) (by omega) hs
  have hout : ¬ ((s.icache ip).din.size < off ∨ (off + n) % 2 ^ 32 < off) := by
    rintro (hlt | hlt)
    · omega
    · exact not_wraps (by omega) hlt
  simp only [State.writei] at hs
  rw [if_neg ht, if_neg hout, if_neg (by omega)] at hs
  obtain ⟨⟨off', s₁⟩, hloop, hs⟩ := bind_ok.mp hs
  have hb : ∀ bn, bn * BSIZE < off + (n - 0) → s.addr ip bn ≠ 0 :=
    fun bn hbn => h.noHoles hl bn (by rw [hl.cur]; omega)
  obtain ⟨rfl, -⟩ := writei_loop h hp (by omega) hloop
  have hc := writeLoop_icache hl h.wf hb hloop
  rw [hc, if_neg (by omega), pure_ok, Prod.mk.injEq] at hs
  obtain ⟨-, rfl⟩ := hs
  exact ⟨⟨hw.inv, hw.sb, (writeLoop_used h.wf hl hb hloop).2, hw.trees⟩, hc⟩

/-! ## The entry that is cleared -/

theorem scan_found (h : Inv s) (hp : (s.icache dp).holder = some p) (ht : (s.icache dp).din.type ≠ T_DEV)
    {msg : String} {stop : Dirent → Bool} {offs : List Nat} {de : Dirent}
    (hs : State.scan p dp msg stop offs s = .ok (some (off, de), s')) :
    off + 16 ≤ (s.icache dp).din.size := by
  induction offs with
  | nil => cases hs
  | cons o offs ih =>
    simp only [State.scan, bind_ok, Prod.exists] at hs
    obtain ⟨x, bytes, s₁, h₁, hs⟩ := hs
    obtain rfl := readi_state h hp ht h₁
    split at hs
    · cases hs
    · next hx =>
      split at hs
      · simp only [pure_ok, Prod.mk.injEq, Option.some.injEq] at hs
        obtain ⟨⟨rfl, -⟩, -⟩ := hs
        have hx : x = 16 := by simpa using hx
        subst hx
        have hl := h.live hp
        have hmax := h.size_le hl
        have hlt := maxfile_lt
        by_contra hgt
        by_cases hoff : o ≤ (s₁.icache dp).din.size
        · rw [readi_eq h hp ht hoff (by omega)] at h₁
          simp only [Except.ok.injEq, Prod.mk.injEq] at h₁
          omega
        · simp only [State.readi] at h₁
          rw [if_neg ht, if_pos (by omega)] at h₁
          cases h₁
      · exact ih hs

theorem dirlookup_found (h : Inv s) (hp : (s.icache dp).holder = some p) {name : Name}
    (hs : s.dirlookup p dp name = .ok (some (ip, off), s')) : off + 16 ≤ (s.icache dp).din.size := by
  unfold State.dirlookup at hs
  split at hs
  · cases hs
  · next ht =>
    have ht : (s.icache dp).din.type = T_DIR := by simpa using ht
    obtain ⟨⟨found, s₁⟩, h₁, hs⟩ := bind_ok.mp hs
    cases found with
    | none => cases hs
    | some x =>
      obtain ⟨o, de⟩ := x
      obtain ⟨s₂, -, hs⟩ := bind_ok.mp hs
      simp only [pure_ok, Prod.mk.injEq, Option.some.injEq] at hs
      obtain ⟨⟨-, rfl⟩, -⟩ := hs
      exact scan_found h hp (by rw [ht]; decide) h₁

/-- **Unlinking a file** that stays open changes no bitmap and takes one link from it. -/
theorem Unlinks.tame {name : Name} {s₁ s₂ s₃ s₄ s₅ : State} (hu : Unlinks p dp name ip s s₁ s₂ s₃ s₄ s₅ s')
    (h : Inv s) (hdp : dp < s.sb.ninodes) (hip : ip < s.sb.ninodes) (ht : (s.cur ip).type = T_FILE)
    (hd : (s.cur dp).nlink ≠ 0) (hr : 0 < (s.icache ip).ref) : Tame dp s s' ∧
      s'.icache ip = ⟨(s.icache ip).ref, none, true,
        { s.cur ip with nlink := short ((s.cur ip).nlink + -1) }⟩ := by
  obtain ⟨hi₃, hsb₃, hne, hc₃, hp₃, htd, hpi, hget⟩ := hu.locked h hdp hip
  have hi₁ := h.ilock hdp hu.lock
  have hi₂ := hi₁.iget hget
  obtain ⟨-, -, he₁⟩ := ilock_locked hu.lock
  have hp₁ : (s₁.icache dp).holder = some p := by rw [he₁, lockedBy_icache]
  have hsb₁ : s₁.sb = s.sb := by rw [he₁]; rfl
  have hsb₂ : s₂.sb = s.sb := by
    obtain ⟨d, rfl, -⟩ := iget_state hget
    exact hsb₁
  have ht₃ : Tame dp s s₃ :=
    ((Tame.ilock h hdp hu.lock).trans (.iget hi₁ hget)).trans (.ilock hi₂ (by rw [hsb₂]; exact hip) hu.lock_ip)
  -- the inode of the file, with one reference more while it is locked
  have hcur₂ : s₂.cur ip = s.cur ip := by
    rw [hi₂.cur, h.cur]
    exact dinode_congr hsb₂ (by rw [iget_disk hget, ilock_disk hu.lock])
  have hother₁ : s₁.icache ip = s.icache ip := by
    rw [he₁]
    exact Function.update_of_ne hne ..
  have href₂ : (s₂.icache ip).ref = (s.icache ip).ref + 1 := by
    unfold State.iget at hget
    rw [hother₁, if_pos hr] at hget
    cases hget
    show (Function.update s₁.icache ip _ ip).ref = _
    rw [Function.update_self]
  have hin₃ : s₃.icache ip = ⟨(s.icache ip).ref + 1, some p, true, s.cur ip⟩ := by
    rw [(ilock_locked hu.lock_ip).2.2, lockedBy_icache, href₂, hcur₂]
  -- the entry is inside the directory
  obtain ⟨off, hf, r, hw⟩ := hu.found
  have hle := dirlookup_found hi₁ hp₁ hf
  obtain ⟨ht₄, hc₄⟩ := Tame.overwrite hi₃ hp₃ (by rw [htd]; decide) (by rw [hc₃]; exact hle) hw
  have hput := hu.put
  rw [if_neg (by rw [hc₄, hin₃, ht]; decide)] at hput
  have hnl : (s₄.icache dp).din.nlink ≠ 0 := by
    rw [hc₄, hc₃, he₁, lockedBy_icache]
    exact hd
  obtain ⟨ht₅, -⟩ : Tame dp s₄ s₅ ∧ _ := Tame.iunlockput ht₄.inv (fun hn => hnl hn.1) hput
  have hin₅ : s₅.icache ip = ⟨(s.icache ip).ref + 1, some p, true, s.cur ip⟩ := by
    rw [ht₄.inv.iunlockput_other hput hne, hc₄, hin₃]
  have hp₅ : (s₅.icache ip).holder = some p := by rw [hin₅]
  have ht₆ : Tame dp s₅ (s₅.addNlink ip (-1)) := Tame.addNlink ht₅.inv hp₅ (-1)
  have hin₆ := addNlink_icache s₅ ip (-1)
  rw [hin₅] at hin₆
  obtain ⟨ht₇, hin₇⟩ : Tame dp (s₅.addNlink ip (-1)) s' ∧ _ := Tame.iunlockput ht₆.inv
    (by rw [hin₆]; exact fun hn => by have := hn.2; dsimp only at this; omega) hu.put_ip
  refine ⟨(((ht₃.trans ht₄).trans ht₅).trans ht₆).trans ht₇, ?_⟩
  rw [hin₇, hin₆]
  dsimp only
  rw [Int.add_sub_cancel]

/-! ## From creation to the last close -/

/-- A write of `n` bytes at `off` by process `p`. -/
structure Write where
  p : Nat
  src : Nat → UInt8
  off : Nat
  n : Nat

/-- One turn of the loop of `filewrite`. -/
def writeStep (ip : Nat) (s : State) (w : Write) : Except Fault State := do
  let s ← s.ilock w.p ip
  let (_, s) ← s.writei w.p ip w.src w.off w.n
  s.iunlock w.p ip

/-- `s'` is `s` but for the content and the tree of `ip`. -/
structure Filled (ip : Nat) (s s' : State) : Prop where
  inv : Inv s'
  sb : s'.sb = s.sb
  trees : ∀ q, IsPlace q → q.1.1 ≠ ip → s'.block q = s.block q
  cur : ∃ size addrs, s'.cur ip = { s.cur ip with size := size, addrs := addrs }
  refs : s'.refs = s.refs

theorem Filled.trans {s'' : State} (h : Filled ip s s') (h' : Filled ip s' s'') : Filled ip s s'' where
  inv := h'.inv
  sb := h'.sb.trans h.sb
  trees q hq hne := (h'.trees q hq hne).trans (h.trees q hq hne)
  cur := by
    obtain ⟨m, a, ha⟩ := h.cur
    obtain ⟨m', a', ha'⟩ := h'.cur
    exact ⟨m', a', by rw [ha', ha]⟩
  refs := h'.refs.trans h.refs

theorem Filled.of_disk (h : Inv s) (h' : Inv s') (hsb : s'.sb = s.sb) (hdisk : s'.disk = s.disk)
    (hr : s'.refs = s.refs) : Filled ip s s' := by
  refine ⟨h', hsb, fun q _ _ => block_of_disk h h' hsb hdisk q, ⟨(s.cur ip).size, (s.cur ip).addrs, ?_⟩, hr⟩
  rw [h.cur, h'.cur]
  exact dinode_congr hsb (congrFun hdisk _)

theorem Filled.step (h : Inv s) (hip : ip < s.sb.ninodes) (ht : (s.cur ip).type ≠ T_DEV) {w : Write}
    (hs : writeStep ip s w = .ok s') : Filled ip s s' := by
  obtain ⟨s₁, h₁, hs⟩ := bind_ok.mp hs
  obtain ⟨⟨r, s₂⟩, h₂, h₃⟩ := bind_ok.mp hs
  have hi₁ := h.ilock hip h₁
  obtain ⟨-, hr, he₁⟩ := ilock_locked h₁
  have hc₁ : s₁.icache ip = ⟨(s.icache ip).ref, some w.p, true, s.cur ip⟩ := by rw [he₁, lockedBy_icache]
  have hp₁ : (s₁.icache ip).holder = some w.p := by rw [hc₁]
  have hf₁ : Filled ip s s₁ := .of_disk h hi₁ (by rw [he₁]; rfl) (ilock_disk h₁) (refs_ilock h₁)
  have hf₂ : Filled ip s₁ s₂ := by
    rcases writei_returns hi₁ hp₁ (by rw [hc₁]; exact ht) h₂ with ⟨-, rfl⟩ | ⟨-, -, -, hw⟩
    · exact .of_disk hi₁ hi₁ rfl rfl rfl
    · obtain ⟨addrs, ha⟩ := hw.cur_self (hi₁.live hp₁)
      refine ⟨hw.inv, hw.sb, hw.trees, ⟨_, addrs, ha⟩, funext fun j => ?_⟩
      unfold State.refs
      by_cases hj : j = ip
      · subst hj
        obtain ⟨a, ha⟩ := hw.inode
        rw [ha]
      · rw [hw.icache j hj]
  have hf₃ : Filled ip s₂ s' := .of_disk hf₂.inv (hf₂.inv.iunlock h₃) (by rw [(iunlock_released h₃).2]; rfl)
    (iunlock_disk h₃) (refs_iunlock h₃)
  exact (hf₁.trans hf₂).trans hf₃

theorem Filled.run (h : Inv s) (hip : ip < s.sb.ninodes) (ht : (s.cur ip).type ≠ T_DEV)
    (hr : Reach (writeStep ip) Always s s') : Filled ip s s' := by
  refine hr.invariant (I := Filled ip s) (.of_disk h h rfl rfl rfl) fun t w t' hf _ hs => hf.trans ?_
  obtain ⟨m, a, ha⟩ := hf.cur
  exact .step hf.inv (by rw [hf.sb]; exact hip) (by rw [ha]; exact ht) hs

/-- A new file: it has a link and a reference, and no blocks. -/
structure NewFile (s : State) (ip : Nat) : Prop where
  lt : ip < s.sb.ninodes
  type : (s.cur ip).type = T_FILE
  nlink : (s.cur ip).nlink = 1
  addrs : ∀ k, (s.cur ip).addrs k = 0
  ref : (s.icache ip).ref = 1

/-- The trees of the other inodes hold the blocks that are in use. -/
theorem used_of_others (h : Inv s) (h' : Inv s') (hsb : s'.sb = s.sb)
    (hb : ∀ q, IsPlace q → q.1.1 ≠ ip → s'.block q = s.block q)
    (h0 : ∀ q, IsPlace q → q.1.1 = ip → s.block q = 0) {c : Nat} (hc : c < s.sb.size) :
    (s'.used c = true ∧ ¬ (c ≠ 0 ∧ ∃ q, IsPlace q ∧ q.1.1 = ip ∧ s'.block q = c)) ↔ s.used c = true := by
  have hc' : c < s'.sb.size := by rw [hsb]; exact hc
  have hpos := h.wf.layout.bmapstart_lt hc
  rw [h'.wf.bitmap c hc', h.wf.bitmap c hc, hsb]
  by_cases hlt : c < s.sb.dstart
  · refine iff_of_true ⟨.inl hlt, ?_⟩ (.inl hlt)
    rintro ⟨hz, q, hq, -, rfl⟩
    have := (h'.wf.data q hq hz).1
    rw [hsb] at this
    omega
  · have hz : c ≠ 0 := by omega
    constructor
    · rintro ⟨hlt' | ⟨q, hq, he⟩, hn⟩
      · exact absurd hlt' hlt
      · have hqi : q.1.1 ≠ ip := fun hqi => hn ⟨hz, q, hq, hqi, he⟩
        exact .inr ⟨q, hq, by rw [← hb q hq hqi, he]⟩
    · rintro (hlt' | ⟨q, hq, he⟩)
      · exact absurd hlt' hlt
      · have hqi : q.1.1 ≠ ip := fun hqi => hz (by rw [← he, h0 q hq hqi])
        have he' := hb q hq hqi
        rw [he] at he'
        refine ⟨.inr ⟨q, hq, he'⟩, ?_⟩
        rintro ⟨-, q', hq', hqi', hq''⟩
        have := h'.wf.inj q q' hq hq' (fun h0 => hz (he'.symm.trans h0)) (he'.trans hq''.symm)
        exact hqi (this ▸ hqi')

theorem small_newFile : NewFile smallTable.fs 2 where
  lt := by show 2 < 8; decide
  type := congrArg Dinode.type small_cur
  nlink := congrArg Dinode.nlink small_cur
  addrs k := congrFun (congrArg Dinode.addrs small_cur) k
  ref := rfl

end

end Xv6.Fs
