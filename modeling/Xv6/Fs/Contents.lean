import Xv6.Fs.Inv

/-!
# The inode layer as arrays of bytes

`readi` returns the bytes of a file and `writei` sets them, at any offset that the file
has a block map for. Between the calls the invariant holds, so a read finds all its
blocks.
-/

namespace Xv6.Fs

open Lib

theorem int_of_lt {n : Nat} (h : n < 2 ^ 31) : int n = n := by
  unfold int
  omega

theorem maxfile_lt : MAXFILE * BSIZE < 2 ^ 31 := by decide

section
variable {s s' : State} {p ip off n : Nat}

theorem not_wraps (h : off + n < 2 ^ 32) : ¬ (off + n) % 2 ^ 32 < off := by
  rw [Nat.mod_eq_of_lt h]
  omega

/-- **`readi`** on a file or a directory returns its bytes, as many as there are, and
changes nothing. -/
theorem readi_eq (h : Inv s) (hp : (s.icache ip).holder = some p) (ht : (s.icache ip).din.type ≠ T_DEV)
    (hoff : off ≤ (s.icache ip).din.size) (hn : off + n < 2 ^ 32) :
    s.readi p ip off n = .ok ((↑(min n ((s.icache ip).din.size - off)),
      (List.range (min n ((s.icache ip).din.size - off))).map fun j => s.byte ip (off + j)), s) := by
  have hl := h.live hp
  have hsize := h.size_le hl
  have hmax := maxfile_lt
  have hm : (if (s.icache ip).din.size < off + n then (s.icache ip).din.size - off else n) =
      min n ((s.icache ip).din.size - off) := by
    split <;> omega
  have hout : ¬ ((s.icache ip).din.size < off ∨ (off + n) % 2 ^ 32 < off) := by
    rintro (hlt | hlt)
    · omega
    · exact not_wraps hn hlt
  simp only [State.readi]
  rw [if_neg ht, if_neg hout, hm]
  generalize hmin : min n ((s.icache ip).din.size - off) = m
  have hr : State.readLoop ip m m s 0 off = _ := readLoop_spec hl (Nat.zero_le m) (Nat.sub_le ..)
    fun bn hbn => h.noHoles hl bn (by rw [hl.cur]; omega)
  rw [hr]
  simp only [ok_bind, Nat.sub_zero]
  rw [int_of_lt (by omega)]
  rfl

/-- What `writei` does: `n` bytes from `off` on are those of `src`, and the other bytes
of all files stay. -/
structure Wrote (ip : Nat) (src : Nat → UInt8) (off n : Nat) (s s' : State) : Prop where
  inv : Inv s'
  sb : s'.sb = s.sb
  input : s'.input = s.input
  icache : ∀ j, j ≠ ip → s'.icache j = s.icache j
  inode : ∃ addrs, s'.icache ip = { s.icache ip with din :=
    { (s.icache ip).din with size := max (s.icache ip).din.size (off + n), addrs := addrs } }
  bytes : ∀ pos, off ≤ pos → pos < off + n → s'.byte ip pos = src (pos - off)
  rest : ∀ pos, (pos < off ∨ off + n ≤ pos) → pos < (s.icache ip).din.size → s'.byte ip pos = s.byte ip pos
  cur : ∀ i < s.sb.ninodes, i ≠ ip → s'.cur i = s.cur i
  other : ∀ i < s.sb.ninodes, i ≠ ip → ∀ pos, s.addr i (pos / BSIZE) ≠ 0 → s'.byte i pos = s.byte i pos
  keep : ∀ p, IsPlace p → s.block p ≠ 0 → s'.block p = s.block p
  trees : ∀ p, IsPlace p → p.1.1 ≠ ip → s'.block p = s.block p

/-- Byte `pos` of a file is in a block that is there. -/
theorem Inv.addr_ne (h : Inv s) (hl : Live s ip) {pos : Nat} (hpos : pos < (s.icache ip).din.size) :
    s.addr ip (pos / BSIZE) ≠ 0 := by
  refine h.noHoles hl _ ?_
  rw [hl.cur]
  exact Nat.lt_of_le_of_lt (Nat.div_mul_le_self ..) hpos

/-- Below the end of what is written, and up to it from the old size, all blocks are there. -/
theorem Written.there_below {src : Nat → UInt8} {s' : State} (h : Inv s) (hl : Live s ip)
    (hoff : off ≤ (s.icache ip).din.size) (hg : Grown ip s s') (hw : Written ip src off n s s')
    {bn : Nat} (hbn : bn * BSIZE < max (s.icache ip).din.size (off + n)) : s'.addr ip bn ≠ 0 := by
  by_cases hlt : bn * BSIZE < (s.icache ip).din.size
  · have hne := h.noHoles hl bn (by rw [hl.cur]; exact hlt)
    rw [hg.addr_keep hne]
    exact hne
  · have hd : bn * BSIZE / BSIZE = bn := Nat.mul_div_cancel _ (by decide)
    have := hw.there (bn * BSIZE) (by omega) (by omega)
    rwa [hd] at this

theorem writei_loop (h : Inv s) (hp : (s.icache ip).holder = some p) {src : Nat → UInt8} {off' : Nat}
    (hmax : off + n ≤ MAXFILE * BSIZE)
    (hs : State.writeLoop ip src n n s 0 off = .ok (off', s')) :
    off' = off + n ∧ Grown ip s s' ∧ Written ip src off n s s' := by
  have hw := writeLoop_spec h.wf (h.live hp) (Nat.zero_le n) (Nat.le_of_eq (Nat.sub_zero n)) hmax hs
  simpa only [Nat.sub_zero, Nat.zero_add] using hw

/-- A write below the size leaves the inode as it is. -/
theorem Wrote.of_loop (h : Inv s) (hl : Live s ip) {src : Nat → UInt8} (hle : off + n ≤ (s.icache ip).din.size)
    (hc : s'.icache = s.icache) (hg : Grown ip s s') (hw : Written ip src off n s s') :
    Wrote ip src off n s s' := by
  have hd : ∀ i < s.sb.ninodes, s'.dinode i = s.dinode i := fun i hi => hg.dinode h.wf hi
  have hcur : ∀ i < s.sb.ninodes, s'.cur i = s.cur i := fun i hi => cur_congr (congrFun hc i) (hd i hi)
  have hinv : Inv s' := by
    refine ⟨hg.wf, fun i hi ht bn hbn => ?_, fun i hv => ?_, fun i p hp => ?_⟩
    · rw [hg.sb] at hi
      rw [hcur i hi] at ht hbn
      have hne := h.holes i hi ht bn hbn
      rw [hg.addr_keep hne]
      exact hne
    · rw [hc] at hv ⊢
      obtain ⟨hli, hdi⟩ := h.coherent i hv
      exact ⟨⟨by rw [hg.sb]; exact hli.lt, by rw [hc]; exact hv, by rw [hc]; exact hli.type⟩,
        by rw [hd i hli.lt]; exact hdi⟩
    · rw [hc] at hp ⊢
      exact h.held i p hp
  refine ⟨hinv, hg.sb, hg.input, hg.icache, ⟨(s.icache ip).din.addrs, ?_⟩, hw.bytes,
    fun pos hout hpos => hw.rest pos hout (h.addr_ne hl hpos), fun i hi _ => hcur i hi,
    fun i _ hi pos hne => hg.byte_other hi hne, hg.keep, hg.other⟩
  rw [hc, Nat.max_eq_left hle]

/-- A write beyond the size writes the inode back. -/
theorem Wrote.of_put (h : Inv s) (hl : Live s ip) {src : Nat → UInt8} (hoff : off ≤ (s.icache ip).din.size)
    (hmax : off + n ≤ MAXFILE * BSIZE) (hle : (s.icache ip).din.size < off + n) (hg : Grown ip s s')
    (hw : Written ip src off n s s') :
    Wrote ip src off n s (s'.put ip { (s'.icache ip).din with size := off + n }) := by
  have hl' := hg.live hl
  have hok := hg.ok hl (h.ok hl.loaded)
  have hlt := maxfile_lt
  have hd : ({ (s'.icache ip).din with size := off + n } : Dinode).Ok :=
    ⟨hok.type, hok.major, hok.minor, hok.nlink, by show off + n < 2 ^ 32; omega, hok.addrs, hok.range⟩
  have hsame : Same s' (s'.put ip { (s'.icache ip).din with size := off + n }) := by
    refine Same.put hg.wf hl'.lt hd fun k hk => ?_
    rw [if_neg (show _ ≠ (0 : Int) from hl'.type)]
    exact (hl'.block_nil hk).symm
  have hcur : ∀ i < s.sb.ninodes, i ≠ ip → s'.cur i = s.cur i := fun i hi hne => hg.cur h.wf hi hne
  obtain ⟨addrs, hk, ha⟩ := hg.inode
  have hinv : Inv (s'.put ip { (s'.icache ip).din with size := off + n }) := by
    refine Inv.put hg.wf hl' hd hl'.type rfl (fun bn hbn => ?_) (fun i hi hne ht bn hbn => ?_)
      (fun i hne hv => ?_) fun i p hp => ?_
    · refine hw.there_below h hl hoff hg ?_
      have : bn * BSIZE < off + n := hbn
      omega
    · rw [hg.sb] at hi
      rw [hcur i hi hne] at ht hbn
      have ha := h.holes i hi ht bn hbn
      rw [hg.addr_keep ha]
      exact ha
    · rw [hg.icache i hne] at hv ⊢
      obtain ⟨hli, hdi⟩ := h.coherent i hv
      refine ⟨⟨by rw [hg.sb]; exact hli.lt, by rw [hg.icache i hne]; exact hli.loaded,
        by rw [hg.icache i hne]; exact hli.type⟩, ?_⟩
      rw [hg.dinode h.wf hli.lt]
      exact hdi
    · by_cases he : i = ip
      · subst he
        rw [ha] at hp ⊢
        exact h.held i p hp
      · rw [hg.icache i he] at hp ⊢
        exact h.held i p hp
  refine ⟨hinv, hg.sb, hg.input, fun j hj => ?_, ⟨addrs, ?_⟩, fun pos hlo hhi => ?_,
    fun pos hout hpos => ?_, fun i hi hne => ?_, fun i hi hne pos hpos => ?_, fun q hq hne => ?_,
    fun q hq hne => ?_⟩
  · rw [State.put_icache, Function.update_of_ne hj]
    exact hg.icache j hj
  · rw [State.put_icache, Function.update_self, ha, Nat.max_eq_right (Nat.le_of_lt hle)]
  · rw [hsame.byte hg.wf (hw.there pos hlo hhi)]
    exact hw.bytes pos hlo hhi
  · have hne := h.addr_ne hl hpos
    rw [hsame.byte hg.wf (by rw [hg.addr_keep hne]; exact hne)]
    exact hw.rest pos hout hne
  · rw [← hcur i hi hne]
    refine cur_congr ?_ ?_
    · rw [State.put_icache, Function.update_of_ne hne]
    · rw [State.put_dinode hd, if_neg hne]
  · rw [hsame.byte hg.wf (by rw [hg.addr_keep hpos]; exact hpos)]
    exact hg.byte_other hne hpos
  · rw [hsame.block hg.wf hq]
    exact hg.keep q hq hne
  · rw [hsame.block hg.wf hq]
    exact hg.other q hq hne

/-- **`writei`** on a file or a directory sets the bytes that it is given. -/
theorem writei_ok (h : Inv s) (hp : (s.icache ip).holder = some p) (ht : (s.icache ip).din.type ≠ T_DEV)
    {src : Nat → UInt8} (hoff : off ≤ (s.icache ip).din.size) (hmax : off + n ≤ MAXFILE * BSIZE) {r : Int}
    (hs : s.writei p ip src off n = .ok (r, s')) : r = n ∧ Wrote ip src off n s s' := by
  have hl := h.live hp
  have hlt := maxfile_lt
  have hout : ¬ ((s.icache ip).din.size < off ∨ (off + n) % 2 ^ 32 < off) := by
    rintro (hlt | hlt)
    · omega
    · exact not_wraps (by omega) hlt
  simp only [State.writei] at hs
  rw [if_neg ht, if_neg hout, if_neg (by omega)] at hs
  obtain ⟨⟨off', s₁⟩, hloop, hs⟩ := bind_ok.mp hs
  obtain ⟨rfl, hg, hw⟩ := writei_loop h hp hmax hloop
  obtain ⟨addrs, -, ha⟩ := hg.inode
  have hsize : (s₁.icache ip).din.size = (s.icache ip).din.size := by rw [ha]
  rw [int_of_lt (by omega), hsize] at hs
  split at hs
  · next hgt =>
    cases hs
    exact ⟨rfl, Wrote.of_put h hl hoff hmax hgt.2 hg hw⟩
  · next hle =>
    cases hs
    refine ⟨rfl, Wrote.of_loop h hl (by omega) ?_ hg hw⟩
    exact writeLoop_icache hl h.wf (fun bn hbn => h.noHoles hl bn (by rw [hl.cur]; omega)) hloop

end

end Xv6.Fs
