import Xv6.Fs.Bmap

/-!
# Reading and writing files

The loops of `readi` and `writei`. Where all blocks are there a read changes nothing; a
write adds the blocks that are missing and sets the bytes that it is given, and all
other bytes of all files stay.
-/

namespace Xv6.Fs

open Lib

namespace State

/-- Byte `pos` of the file `i`. -/
def byte (s : State) (i pos : Nat) : UInt8 := s.disk (s.addr i (pos / BSIZE)) (pos % BSIZE)

/-- Every block of the file `i` below its size is there. -/
def NoHoles (s : State) (i : Nat) : Prop := ∀ bn, bn * BSIZE < (s.cur i).size → s.addr i bn ≠ 0

end State

theorem addr_ne_zero {s : State} {i bn : Nat} (h : s.addr i bn ≠ 0) : bn < MAXFILE ∧ IsLeaf (leafAt i bn) ∧
    s.addr i bn = s.block (leafAt i bn) := by
  have hbn : bn < MAXFILE := by
    by_contra hbn
    exact h (if_neg hbn)
  exact ⟨hbn, leafAt_isLeaf hbn, if_pos hbn⟩

theorem addr_congr {s s' : State} {i : Nat} (h : ∀ p, IsPlace p → p.1.1 = i → s'.block p = s.block p)
    (bn : Nat) : s'.addr i bn = s.addr i bn := by
  unfold State.addr
  split
  · next hbn => exact h _ (leafAt_isLeaf hbn).1 rfl
  · rfl

/-- Two blocks of files that are one. -/
theorem Wf.addr_inj {s : State} (h : Wf s) {i i' bn bn' : Nat} (hne : s.addr i bn ≠ 0)
    (he : s.addr i bn = s.addr i' bn') : i = i' ∧ bn = bn' := by
  obtain ⟨-, hl, ha⟩ := addr_ne_zero hne
  obtain ⟨-, hl', ha'⟩ := addr_ne_zero (he ▸ hne)
  rw [ha] at hne he
  rw [ha'] at he
  exact leafAt_inj (h.inj _ _ hl.1 hl'.1 hne he)

theorem Wf.congr {s s' : State} (h : Wf s) (hsb : s'.sb = s.sb)
    (hb : ∀ p, IsPlace p → s'.block p = s.block p) (hused : ∀ c < s.sb.size, s'.used c = s.used c) :
    Wf s' where
  layout := by rw [hsb]; exact h.layout
  inj := h.inj.congr hb
  data p hp hne := by
    rw [hb p hp] at hne ⊢
    rw [hsb]
    exact h.data p hp hne
  bitmap c hc := by
    rw [hsb] at hc ⊢
    rw [hused c hc, h.bitmap c hc]
    refine or_congr_right (exists_congr fun p => and_congr_right fun hp => ?_)
    rw [hb p hp]

/-! ## What happens to a file -/

/-- `s'` is `s` with more blocks and other data in the tree of `ip`. -/
structure Grown (ip : Nat) (s s' : State) : Prop where
  wf : Wf s'
  sb : s'.sb = s.sb
  input : s'.input = s.input
  icache : ∀ j, j ≠ ip → s'.icache j = s.icache j
  inode : ∃ addrs, (∀ k, NDIRECT + 3 ≤ k → addrs k = (s.icache ip).din.addrs k) ∧
    s'.icache ip = { s.icache ip with din := { (s.icache ip).din with addrs := addrs } }
  low : ∀ x < s.sb.bmapstart, s'.disk x = s.disk x
  keep : ∀ p, IsPlace p → s.block p ≠ 0 → s'.block p = s.block p
  other : ∀ p, IsPlace p → p.1.1 ≠ ip → s'.block p = s.block p
  data : ∀ p, IsLeaf p → p.1.1 ≠ ip → s.block p ≠ 0 → s'.disk (s.block p) = s.disk (s.block p)

namespace Grown

variable {ip : Nat} {s s' s'' : State}

theorem of_extends (h : Extends ip s s') : Grown ip s s' where
  wf := h.wf
  sb := h.sb
  input := h.input
  icache := h.icache
  inode := h.inode
  low := h.low
  keep := h.keep
  other := h.other
  data p hp _ hne := h.data p hp hne

theorem trans (h : Grown ip s s') (h' : Grown ip s' s'') : Grown ip s s'' where
  wf := h'.wf
  sb := h'.sb.trans h.sb
  input := h'.input.trans h.input
  icache j hj := (h'.icache j hj).trans (h.icache j hj)
  inode := by
    obtain ⟨a, hka, ha⟩ := h.inode
    obtain ⟨a', hka', ha'⟩ := h'.inode
    refine ⟨a', fun k hk => ?_, by rw [ha', ha]⟩
    rw [hka' k hk, ha]
    exact hka k hk
  low x hx := (h'.low x (by rw [h.sb]; exact hx)).trans (h.low x hx)
  keep p hp hne := by
    have he := h.keep p hp hne
    exact (h'.keep p hp (by rw [he]; exact hne)).trans he
  other p hp hi := (h'.other p hp hi).trans (h.other p hp hi)
  data p hp hi hne := by
    have he := h.keep p hp.1 hne
    have hd := h'.data p hp hi (by rw [he]; exact hne)
    rw [he] at hd
    exact hd.trans (h.data p hp hi hne)

theorem live (h : Grown ip s s') (hl : Live s ip) : Live s' ip := by
  obtain ⟨a, -, ha⟩ := h.inode
  refine ⟨by rw [h.sb]; exact hl.lt, ?_, ?_⟩
  · rw [ha]
    exact hl.loaded
  · rw [ha]
    exact hl.type

theorem dinode (h : Grown ip s s') (hwf : Wf s) {i : Nat} (hi : i < s.sb.ninodes) :
    s'.dinode i = s.dinode i := dinode_congr h.sb (h.low _ (hwf.layout.inodes i hi))

theorem cur (h : Grown ip s s') (hwf : Wf s) {i : Nat} (hi : i < s.sb.ninodes) (hne : i ≠ ip) :
    s'.cur i = s.cur i := cur_congr (h.icache i hne) (h.dinode hwf hi)

theorem addr_keep (h : Grown ip s s') {i bn : Nat} (hne : s.addr i bn ≠ 0) :
    s'.addr i bn = s.addr i bn := by
  obtain ⟨hbn, hl, ha⟩ := addr_ne_zero hne
  rw [ha] at hne ⊢
  exact (if_pos hbn).trans (h.keep _ hl.1 hne)

/-- The other files stay as they are. -/
theorem byte_other (h : Grown ip s s') {i pos : Nat} (hi : i ≠ ip) (hne : s.addr i (pos / BSIZE) ≠ 0) :
    s'.byte i pos = s.byte i pos := by
  unfold State.byte
  rw [h.addr_keep hne]
  obtain ⟨-, hl, ha⟩ := addr_ne_zero hne
  rw [ha] at hne ⊢
  exact congrFun (h.data _ hl hi hne) _

/-- Writing to a block of the file. -/
theorem of_write (h : Wf s) {bn : Nat} (hne : s.addr ip bn ≠ 0) (d : Block) :
    Grown ip s (s.log_write (s.addr ip bn) d) := by
  obtain ⟨hbn, hl, ha⟩ := addr_ne_zero hne
  have hne' := hne
  rw [ha] at hne'
  have hsb : (s.log_write (s.addr ip bn) d).sb = s.sb := rfl
  have hdisk : ∀ x, x ≠ s.addr ip bn → (s.log_write (s.addr ip bn) d).disk x = s.disk x :=
    fun x hx => Function.update_of_ne hx ..
  have hlow : ∀ x < s.sb.bmapstart, (s.log_write (s.addr ip bn) d).disk x = s.disk x := by
    intro x hx
    have := h.le_block hl.1 hne'
    exact hdisk x (by omega)
  have hb : ∀ p, IsPlace p → (s.log_write (s.addr ip bn) d).block p = s.block p := by
    intro p hp
    refine Forest.block_congr (h.root_eq hsb rfl hlow _) (fun q hq hqne i _ => ?_) hp
    refine congrArg (Block.word · i) (hdisk _ fun he => ?_)
    have hqp : q = leafAt ip bn := h.inj _ _ hq.isPlace hl.1 hqne (he.trans ha)
    exact hl.not_inner (hqp ▸ hq)
  refine ⟨h.congr hsb hb fun c hc => used_congr hsb (hdisk _ ?_), rfl, rfl, fun _ _ => rfl,
    ⟨_, fun _ _ => rfl, rfl⟩, hlow, fun p hp _ => hb p hp, fun p hp _ => hb p hp,
    fun p hp hi hpne => hdisk _ fun he => hi ?_⟩
  · rw [ha]
    exact (h.block_ne_BBLOCK hl.1 hne' hc).symm
  · rw [h.inj _ _ hp.1 hl.1 hpne (he.trans ha)]
    rfl

end Grown

/-! ## Loops -/

section
variable {s s' : State} {ip : Nat}

/-- The part of a transfer that is in one block. -/
theorem chunk_le {n off : Nat} : off % BSIZE + min n (BSIZE - off % BSIZE) ≤ BSIZE := by
  have : off % BSIZE < BSIZE := Nat.mod_lt _ (by decide)
  omega

theorem chunk_pos {n off : Nat} (h : 0 < n) : 0 < min n (BSIZE - off % BSIZE) := by
  have : off % BSIZE < BSIZE := Nat.mod_lt _ (by decide)
  omega

theorem chunk_div (off j : Nat) (h : off % BSIZE + j < BSIZE) :
    (off + j) / BSIZE = off / BSIZE ∧ (off + j) % BSIZE = off % BSIZE + j := by
  unfold BSIZE at *
  omega

/-- **Reading**: where the blocks are there, the bytes are returned, and nothing else happens. -/
theorem readLoop_spec (hl : Live s ip) {n fuel tot off : Nat} (htot : tot ≤ n) (hfuel : n - tot ≤ fuel)
    (hb : ∀ bn, bn * BSIZE < off + (n - tot) → s.addr ip bn ≠ 0) :
    State.readLoop ip n fuel s tot off = .ok ((List.range (n - tot)).map (fun j => s.byte ip (off + j)), s) := by
  induction fuel generalizing tot off with
  | zero =>
    have : n - tot = 0 := by omega
    rw [State.readLoop, this]
    rfl
  | succ fuel ih =>
    rw [State.readLoop]
    split
    · next hlt =>
      have hle : off % BSIZE + min (n - tot) (BSIZE - off % BSIZE) ≤ BSIZE := chunk_le
      have hpos : 0 < min (n - tot) (BSIZE - off % BSIZE) := chunk_pos (by omega)
      have hne : s.addr ip (off / BSIZE) ≠ 0 := by
        refine hb _ (Nat.lt_of_le_of_lt (Nat.div_mul_le_self ..) (by omega))
      rw [bmap_eq_self hl hne]
      simp only [ok_bind]
      generalize hm : min (n - tot) (BSIZE - off % BSIZE) = m at hle hpos
      have hsum : n - tot = m + (n - (tot + m)) := by omega
      rw [ih (by omega) (by omega) fun bn h => hb bn (by omega)]
      simp only [ok_bind, hsum, List.range_add, List.map_append, List.map_map]
      refine congrArg Except.ok (Prod.ext (congrArg₂ (· ++ ·) ?_ ?_) rfl)
      · refine List.map_congr_left fun j hj => ?_
        rw [List.mem_range] at hj
        obtain ⟨hd, hmod⟩ := chunk_div off j (by omega)
        rw [State.byte, hd, hmod]
      · refine List.map_congr_left fun j _ => ?_
        rw [Function.comp_apply, Nat.add_assoc]
    · next hge =>
      have : n - tot = 0 := by omega
      rw [this]
      rfl

/-- What one turn of the loop of `writei` does. -/
theorem writeChunk_spec (h : Wf s) (hl : Live s ip) {bn a : Nat} (hbn : bn < MAXFILE)
    (hs : s.bmap ip bn = .ok (a, s')) (d : Block → Block) :
    Grown ip s (s'.log_write a (d (s'.disk a))) ∧
      (s'.log_write a (d (s'.disk a))).addr ip bn = a ∧ a ≠ 0 ∧
      (s'.log_write a (d (s'.disk a))).disk a = d (s'.disk a) ∧
      (s.addr ip bn ≠ 0 → a = s.addr ip bn ∧ s'.disk a = s.disk a) ∧
      ∀ bn', bn' ≠ bn → s.addr ip bn' ≠ 0 →
        (s'.log_write a (d (s'.disk a))).disk (s.addr ip bn') = s.disk (s.addr ip bn') := by
  obtain ⟨hext, ha, hne⟩ := bmap_spec h hl hbn hs
  have hne' : s'.addr ip bn ≠ 0 := by rw [ha]; exact hne
  have hw : Grown ip s' (s'.log_write a (d (s'.disk a))) := by
    have := Grown.of_write hext.wf hne' (d (s'.disk a))
    rwa [ha] at this
  have hg := Grown.of_extends hext
  refine ⟨hg.trans hw, ?_, hne, Function.update_self .., fun h0 => ?_, fun bn' hbn' h0 => ?_⟩
  · rw [hw.addr_keep hne', ha]
  · have he : a = s.addr ip bn := by rw [← ha, hg.addr_keep h0]
    rw [he]
    obtain ⟨-, hlf, hb⟩ := addr_ne_zero h0
    rw [hb] at h0 ⊢
    exact ⟨rfl, hext.data _ hlf h0⟩
  · have hk := hg.addr_keep h0
    obtain ⟨-, hlf, hb⟩ := addr_ne_zero h0
    have hna : s.addr ip bn' ≠ a := by
      intro he
      exact hbn' (hext.wf.addr_inj (by rw [hk]; exact h0) (hk.trans (he.trans ha.symm))).2
    rw [hb] at h0 hna ⊢
    exact (Function.update_of_ne hna ..).trans (hext.data _ hlf h0)

/-- What `writei` does to the bytes of its file: `n` bytes from `off` on are those of `src`. -/
structure Written (ip : Nat) (src : Nat → UInt8) (off n : Nat) (s s' : State) : Prop where
  there : ∀ pos, off ≤ pos → pos < off + n → s'.addr ip (pos / BSIZE) ≠ 0
  bytes : ∀ pos, off ≤ pos → pos < off + n → s'.byte ip pos = src (pos - off)
  rest : ∀ pos, (pos < off ∨ off + n ≤ pos) → s.addr ip (pos / BSIZE) ≠ 0 → s'.byte ip pos = s.byte ip pos

theorem Written.trans {src : Nat → UInt8} {off m n : Nat} {s'' : State} (h : Written ip src off m s s')
    (hg : Grown ip s s') (hg' : Grown ip s' s'')
    (h' : Written ip (fun j => src (m + j)) (off + m) n s' s'') : Written ip src off (m + n) s s'' where
  there pos hlo hhi := by
    by_cases hm : pos < off + m
    · have ht := h.there pos hlo hm
      rw [hg'.addr_keep ht]
      exact ht
    · exact h'.there pos (by omega) (by omega)
  bytes pos hlo hhi := by
    by_cases hm : pos < off + m
    · rw [h'.rest pos (.inl hm) (h.there pos hlo hm), h.bytes pos hlo hm]
    · rw [h'.bytes pos (by omega) (by omega)]
      exact congrArg src (by omega)
  rest pos hout ht := by
    have ht' : s'.addr ip (pos / BSIZE) ≠ 0 := by
      rw [hg.addr_keep ht]
      exact ht
    rw [h'.rest pos (by omega) ht', h.rest pos (by omega) ht]

/-- One turn of the loop of `writei` sets the bytes of one block. -/
theorem written_chunk (h : Wf s) (hl : Live s ip) {off m a : Nat} (src : Nat → UInt8)
    (hm : off % BSIZE + m ≤ BSIZE) (hbn : off / BSIZE < MAXFILE)
    (hs : s.bmap ip (off / BSIZE) = .ok (a, s')) :
    Grown ip s (s'.log_write a ((s'.disk a).copy (off % BSIZE) m src)) ∧
      Written ip src off m s (s'.log_write a ((s'.disk a).copy (off % BSIZE) m src)) := by
  obtain ⟨hg, ha, hne, hself, hold, hrest⟩ :=
    writeChunk_spec h hl hbn hs fun b => b.copy (off % BSIZE) m src
  refine ⟨hg, ?_, ?_, ?_⟩
  · intro pos hlo hhi
    obtain ⟨hd, -⟩ := chunk_div off (pos - off) (by omega)
    rw [Nat.add_sub_cancel' hlo] at hd
    rw [hd, ha]
    exact hne
  · intro pos hlo hhi
    obtain ⟨hd, hmod⟩ := chunk_div off (pos - off) (by omega)
    rw [Nat.add_sub_cancel' hlo] at hd hmod
    rw [State.byte, hd, hmod, ha, hself, Block.copy, if_pos (by omega)]
    exact congrArg src (by omega)
  · intro pos hout ht
    unfold State.byte
    rw [hg.addr_keep ht]
    by_cases hd : pos / BSIZE = off / BSIZE
    · rw [hd] at ht ⊢
      obtain ⟨he, hdisk⟩ := hold ht
      rw [← he, hself, hdisk, Block.copy, if_neg]
      unfold BSIZE at *
      omega
    · exact congrFun (hrest _ hd ht) _

/-- **Writing** sets the bytes that are given, in the blocks that are there and in new ones. -/
theorem writeLoop_spec (h : Wf s) (hl : Live s ip) {src : Nat → UInt8} {n fuel tot off off' : Nat}
    (htot : tot ≤ n) (hfuel : n - tot ≤ fuel) (hmax : off + (n - tot) ≤ MAXFILE * BSIZE)
    (hs : State.writeLoop ip src n fuel s tot off = .ok (off', s')) :
    off' = off + (n - tot) ∧ Grown ip s s' ∧
      Written ip (fun j => src (tot + j)) off (n - tot) s s' := by
  induction fuel generalizing s tot off with
  | zero =>
    have hz : n - tot = 0 := by omega
    cases hs
    rw [hz]
    exact ⟨rfl, .of_extends (.refl h), fun _ _ _ => by omega, fun _ _ _ => by omega, fun _ _ _ => rfl⟩
  | succ fuel ih =>
    rw [State.writeLoop] at hs
    split at hs
    · next hlt =>
      obtain ⟨⟨a, s₁⟩, hb, hs⟩ := bind_ok.mp hs
      have hle : off % BSIZE + min (n - tot) (BSIZE - off % BSIZE) ≤ BSIZE := chunk_le
      have hpos : 0 < min (n - tot) (BSIZE - off % BSIZE) := chunk_pos (by omega)
      have hbn : off / BSIZE < MAXFILE := by
        rw [Nat.div_lt_iff_lt_mul (by decide)]
        omega
      simp only at hs
      generalize hm : min (n - tot) (BSIZE - off % BSIZE) = m at hle hpos hs
      obtain ⟨hg, hw⟩ := written_chunk h hl (fun j => src (tot + j)) hle hbn hb
      obtain ⟨ho, hg', hw'⟩ := ih hg.wf (hg.live hl) (by omega) (by omega) (by omega) hs
      have hsum : n - tot = m + (n - (tot + m)) := by omega
      refine ⟨by omega, hg.trans hg', ?_⟩
      rw [hsum]
      refine hw.trans hg hg' ?_
      simpa only [Nat.add_assoc] using hw'
    · next hge =>
      have hz : n - tot = 0 := by omega
      cases hs
      rw [hz]
      exact ⟨rfl, .of_extends (.refl h), fun _ _ _ => by omega, fun _ _ _ => by omega, fun _ _ _ => rfl⟩

/-- Where the blocks are there, no address changes. -/
theorem writeLoop_icache (hl : Live s ip) {src : Nat → UInt8} {n fuel tot off off' : Nat} (h : Wf s)
    (hb : ∀ bn, bn * BSIZE < off + (n - tot) → s.addr ip bn ≠ 0)
    (hs : State.writeLoop ip src n fuel s tot off = .ok (off', s')) : s'.icache = s.icache := by
  induction fuel generalizing s tot off with
  | zero =>
    cases hs
    rfl
  | succ fuel ih =>
    rw [State.writeLoop] at hs
    split at hs
    · next hlt =>
      have hne : s.addr ip (off / BSIZE) ≠ 0 :=
        hb _ (Nat.lt_of_le_of_lt (Nat.div_mul_le_self ..) (by omega))
      rw [bmap_eq_self hl hne] at hs
      simp only [ok_bind] at hs
      have hg := Grown.of_write h hne ((s.disk (s.addr ip (off / BSIZE))).copy (off % BSIZE)
        (min (n - tot) (BSIZE - off % BSIZE)) fun j => src (tot + j))
      have := ih (hg.live hl) hg.wf (fun bn hlt' => ?_) hs
      · exact this
      · have hbn := hb bn (by omega)
        rw [hg.addr_keep hbn]
        exact hbn
    · cases hs
      rfl

end

end Xv6.Fs
