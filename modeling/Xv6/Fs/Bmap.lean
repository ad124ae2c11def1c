import Xv6.Fs.Wf

/-!
# Block maps

What `bmap` may change: it adds blocks to the tree of its inode and moves none. Each of
its accesses adds at most one, at the place that it reads; a block that is there is
found without a change.
-/

namespace Xv6.Fs

open Lib

/-- An inode in memory that `ilock` has read. -/
structure Live (s : State) (ip : Nat) : Prop where
  lt : ip < s.sb.ninodes
  loaded : (s.icache ip).Loaded
  type : (s.icache ip).din.type ≠ 0

theorem Live.cur {s : State} {ip : Nat} (h : Live s ip) : s.cur ip = (s.icache ip).din := if_pos h.loaded

theorem Live.block_nil {s : State} {ip : Nat} (h : Live s ip) {k : Nat} (hk : k < NDIRECT + 3) :
    s.block ((ip, k), []) = (s.icache ip).din.addrs k := by
  show s.root (ip, k) = _
  rw [State.root, if_pos ⟨h.lt, by rw [h.cur]; exact h.type, hk⟩, h.cur]

/-- `s'` is `s` with more blocks in the tree of `ip`. -/
structure Extends (ip : Nat) (s s' : State) : Prop where
  wf : Wf s'
  sb : s'.sb = s.sb
  input : s'.input = s.input
  icache : ∀ j, j ≠ ip → s'.icache j = s.icache j
  inode : ∃ addrs, (∀ k, NDIRECT + 3 ≤ k → addrs k = (s.icache ip).din.addrs k) ∧
    s'.icache ip = { s.icache ip with din := { (s.icache ip).din with addrs := addrs } }
  low : ∀ x < s.sb.bmapstart, s'.disk x = s.disk x
  keep : ∀ p, IsPlace p → s.block p ≠ 0 → s'.block p = s.block p
  other : ∀ p, IsPlace p → p.1.1 ≠ ip → s'.block p = s.block p
  data : ∀ p, IsLeaf p → s.block p ≠ 0 → s'.disk (s.block p) = s.disk (s.block p)

namespace Extends

variable {ip : Nat} {s s' s'' : State}

theorem refl (h : Wf s) : Extends ip s s where
  wf := h
  sb := rfl
  input := rfl
  icache _ _ := rfl
  inode := ⟨_, fun _ _ => rfl, rfl⟩
  low _ _ := rfl
  keep _ _ _ := rfl
  other _ _ _ := rfl
  data _ _ _ := rfl

theorem trans (h : Extends ip s s') (h' : Extends ip s' s'') : Extends ip s s'' where
  wf := h'.wf
  sb := h'.sb.trans h.sb
  input := h'.input.trans h.input
  icache j hj := (h'.icache j hj).trans (h.icache j hj)
  inode := by
    obtain ⟨a, hka, ha⟩ := h.inode
    obtain ⟨a', hka', ha'⟩ := h'.inode
    refine ⟨a', fun k hk => ?_, by rw [ha', ha]⟩
    rw [hka' k hk, ha]
    exact hka k hk
  low x hx := (h'.low x (by rw [h.sb]; exact hx)).trans (h.low x hx)
  keep p hp hne := by
    have he := h.keep p hp hne
    exact (h'.keep p hp (by rw [he]; exact hne)).trans he
  other p hp hi := (h'.other p hp hi).trans (h.other p hp hi)
  data p hp hne := by
    have he := h.keep p hp.1 hne
    have hd := h'.data p hp (by rw [he]; exact hne)
    rw [he] at hd
    exact hd.trans (h.data p hp hne)

theorem live (h : Extends ip s s') (hl : Live s ip) : Live s' ip := by
  obtain ⟨a, -, ha⟩ := h.inode
  refine ⟨by rw [h.sb]; exact hl.lt, ?_, ?_⟩
  · rw [ha]
    exact hl.loaded
  · rw [ha]
    exact hl.type

theorem dinode (h : Extends ip s s') (hwf : Wf s) {i : Nat} (hi : i < s.sb.ninodes) :
    s'.dinode i = s.dinode i := dinode_congr h.sb (h.low _ (hwf.layout.inodes i hi))

theorem cur (h : Extends ip s s') (hwf : Wf s) {i : Nat} (hi : i < s.sb.ninodes) (hne : i ≠ ip) :
    s'.cur i = s.cur i := cur_congr (h.icache i hne) (h.dinode hwf hi)

end Extends

/-! ## One more block -/

section
variable {s s₁ s' : State} {b : Nat} {p : Place}

/-- The forest keeps its properties when an allocated block is put into it. -/
theorem Wf.graft (h : Wf s) (ha : Alloc s b s₁) (hg : Forest.Graft height NINDIRECT s.forest s'.forest p b)
    (hp : IsPlace p) (hsb : s'.sb = s.sb) (hused : ∀ c < s.sb.size, s'.used c = s₁.used c) : Wf s' where
  layout := by rw [hsb]; exact h.layout
  inj := h.inj.graft hg fun q hq => ha.fresh h hq
  data q hq hne := by
    rw [State.block, hg.block_eq hq] at hne ⊢
    rw [hsb]
    split at hne
    · next he =>
      rw [if_pos he]
      exact ⟨ha.le h, ha.lt⟩
    · next he =>
      rw [if_neg he]
      exact h.data q hq hne
  bitmap c hc := by
    rw [hsb] at hc ⊢
    rw [hused c hc, ha.used h hc, Bool.or_eq_true, decide_eq_true_eq, h.bitmap c hc]
    constructor
    · rintro (rfl | hlt | ⟨q, hq, he⟩)
      · exact .inr ⟨p, hp, by rw [State.block, hg.block_eq hp, if_pos rfl]⟩
      · exact .inl hlt
      · by_cases hpq : p = q
        · -- the place was empty, and block 0 is not for data
          have h0 : c = 0 := by rw [← he, ← hpq]; exact hg.free
          have := h.layout.bmapstart_lt hc
          exact .inl (by omega)
        · exact .inr ⟨q, hq, by rw [State.block, hg.block_eq hq, if_neg hpq]; exact he⟩
    · rintro (hlt | ⟨q, hq, he⟩)
      · exact .inr (.inl hlt)
      · rw [State.block, hg.block_eq hq] at he
        split at he
        · exact .inl he.symm
        · exact .inr (.inr ⟨q, hq, he⟩)

/-- The frame of an allocation for a place of `ip`. -/
theorem Extends.of_graft (h : Wf s) (ha : Alloc s b s₁)
    (hg : Forest.Graft height NINDIRECT s.forest s'.forest p b) (hp : IsPlace p)
    (hsb : s'.sb = s.sb) (hinput : s'.input = s₁.input) (hused : ∀ c < s.sb.size, s'.used c = s₁.used c)
    (hicache : ∀ j, j ≠ p.1.1 → s'.icache j = s.icache j)
    (hinode : ∃ addrs, (∀ k, NDIRECT + 3 ≤ k → addrs k = (s.icache p.1.1).din.addrs k) ∧
      s'.icache p.1.1 = { s.icache p.1.1 with din := { (s.icache p.1.1).din with addrs := addrs } })
    (hlow : ∀ x < s.sb.bmapstart, s'.disk x = s₁.disk x)
    (hdata : ∀ q, IsLeaf q → s.block q ≠ 0 → s'.disk (s.block q) = s₁.disk (s.block q)) :
    Extends p.1.1 s s' where
  wf := h.graft ha hg hp hsb hused
  sb := hsb
  input := hinput.trans ha.input
  icache := hicache
  inode := hinode
  low x hx := (hlow x hx).trans (ha.low h hx)
  keep q hq hne := by
    rw [State.block, hg.block_eq hq, if_neg]
    rintro rfl
    exact hne hg.free
  other q hq hi := by
    rw [State.block, hg.block_eq hq, if_neg]
    rintro rfl
    exact hi rfl
  data q hq hne := (hdata q hq hne).trans (ha.owned h hq.1 hne)

end

/-! ## The accesses of `bmap` -/

section
variable {s s' : State} {ip a : Nat}

/-- A slot that is set is read. -/
theorem slot_eq {k : Nat} (h : (s.icache ip).din.addrs k ≠ 0) :
    s.slot ip k = .ok ((s.icache ip).din.addrs k, s) := if_neg h

/-- An entry that is set is read. -/
theorem entry_eq {j : Nat} (h : (s.disk a).word j ≠ 0) : s.entry a j = .ok ((s.disk a).word j, s) :=
  if_neg h

theorem slot_spec (h : Wf s) (hl : Live s ip) {k : Nat} (hk : k < NDIRECT + 3)
    (hs : s.slot ip k = .ok (a, s')) :
    Extends ip s s' ∧ s'.block ((ip, k), []) = a ∧ a ≠ 0 := by
  by_cases h0 : (s.icache ip).din.addrs k = 0
  · simp only [State.slot, if_pos h0, bind_ok, pure_ok, Prod.mk.injEq, Prod.exists] at hs
    obtain ⟨b, s₁, hb, rfl, rfl⟩ := hs
    have ha := balloc_ok hb
    have hb0 : b ≠ 0 := by
      have := ha.le h
      have := h.layout.bmapstart_lt ha.lt
      omega
    have hic : (s₁.setAddr ip k b).icache ip = { s.icache ip with din :=
        { (s.icache ip).din with addrs := Function.update (s.icache ip).din.addrs k b } } := by
      simp only [State.setAddr, State.setDin, State.setInode, Function.update_self, ha.icache]
    have hic' : ∀ j, j ≠ ip → (s₁.setAddr ip k b).icache j = s.icache j := by
      intro j hj
      simp only [State.setAddr, State.setDin, State.setInode, Function.update_of_ne hj, ha.icache]
    have hsb : (s₁.setAddr ip k b).sb = s.sb := ha.sb
    have hg : Forest.Graft height NINDIRECT s.forest (s₁.setAddr ip k b).forest ((ip, k), []) b := by
      refine ⟨?_, ?_, ?_, hb0, ?_, ?_⟩
      · rintro ⟨i, k'⟩
        have hl' : Live (s₁.setAddr ip k b) ip :=
          ⟨ha.sb.symm ▸ hl.lt, by rw [hic]; exact hl.loaded, by rw [hic]; exact hl.type⟩
        by_cases hi : i = ip
        · subst hi
          by_cases hk' : k' < NDIRECT + 3
          · refine (hl'.block_nil hk').trans ?_
            rw [hic]
            by_cases hkk : k = k'
            · subst hkk
              rw [if_pos rfl]
              exact Function.update_self ..
            · rw [if_neg (by simpa using hkk)]
              exact (Function.update_of_ne (Ne.symm hkk) ..).trans (hl.block_nil hk').symm
          · rw [if_neg (by rintro ⟨⟩; exact hk' hk)]
            exact (if_neg fun h => hk' h.2.2).trans (if_neg fun h => hk' h.2.2).symm
        · rw [if_neg (by rintro ⟨⟩; exact hi rfl)]
          refine root_congr hsb fun hlt => ?_
          exact cur_congr (hic' i hi) (dinode_congr hsb (ha.low h (h.layout.inodes i hlt)))
      · intro q hq hne i hi
        rw [if_neg (by simp)]
        exact congrArg (Block.word · i) (ha.owned h hq.isPlace hne)
      · intro i hi
        show (s₁.disk b).word i = 0
        rw [ha.zero, Block.word_zero]
      · exact (hl.block_nil hk).trans h0
      · intro path i he
        cases path <;> cases he
    have hext : Extends ip s (s₁.setAddr ip k b) :=
      Extends.of_graft h ha hg (isPlace_root _) ha.sb rfl (fun _ _ => rfl) hic'
        ⟨_, fun i hi => Function.update_of_ne (by omega) .., hic⟩
        (fun _ _ => rfl) fun _ _ _ => rfl
    refine ⟨hext, ?_, hb0⟩
    rw [State.block, hg.block_eq (isPlace_root _), if_pos rfl]
  · rw [slot_eq h0] at hs
    cases hs
    exact ⟨.refl h, hl.block_nil hk, h0⟩

theorem entry_spec (h : Wf s) {p : Place} (hp : IsInner p) (hpa : s.block p = a) (ha0 : a ≠ 0)
    {j a' : Nat} (hj : j < NINDIRECT) (hs : s.entry a j = .ok (a', s')) :
    Extends p.1.1 s s' ∧ s'.block (p.1, p.2 ++ [j]) = a' ∧ a' ≠ 0 := by
  have hne : s.block p ≠ 0 := by rw [hpa]; exact ha0
  have hblock : s.block (p.1, p.2 ++ [j]) = (s.disk a).word j := by
    have := Forest.block_concat s.forest p.1 p.2 j
    rw [if_neg hne] at this
    rw [← hpa]
    exact this
  have hp' : IsPlace (p.1, p.2 ++ [j]) := Forest.isPlace_concat.mpr ⟨hp, hj⟩
  by_cases h0 : (s.disk a).word j = 0
  · simp only [State.entry, if_pos h0, bind_ok, pure_ok, Prod.mk.injEq, Prod.exists] at hs
    obtain ⟨b, s₁, hb, rfl, rfl⟩ := hs
    have ha := balloc_ok hb
    have hb0 : b ≠ 0 := by
      have := ha.le h
      have := h.layout.bmapstart_lt ha.lt
      omega
    have hab : a ≠ b := by rw [← hpa]; exact ha.fresh h hp.isPlace
    have hsb : (s₁.log_write a ((s.disk a).setWord j b)).sb = s.sb := ha.sb
    have hsb₁ : (s₁.log_write a ((s.disk a).setWord j b)).sb = s₁.sb := rfl
    have hdisk : ∀ x, x ≠ a → (s₁.log_write a ((s.disk a).setWord j b)).disk x = s₁.disk x :=
      fun x hx => Function.update_of_ne hx ..
    have hpd : s.sb.bmapstart < a := by rw [← hpa]; exact h.le_block hp.isPlace hne
    have hg : Forest.Graft height NINDIRECT s.forest
        (s₁.log_write a ((s.disk a).setWord j b)).forest (p.1, p.2 ++ [j]) b := by
      refine ⟨?_, ?_, ?_, hb0, ?_, ?_⟩
      · intro r
        rw [if_neg (by simp)]
        exact h.root_eq hsb ha.icache
          (fun x hx => (hdisk x (by omega)).trans (ha.low h hx)) r
      · intro q hq hqne i hi
        show ((s₁.log_write a ((s.disk a).setWord j b)).disk (s.block q)).word i = if _ then b else _
        have hiff : a = s.block q ∧ j = i ↔ (p.1, p.2 ++ [j]) = (q.1, q.2 ++ [i]) := by
          rw [← hpa]
          exact h.inj.word_iff hp hq hne
        by_cases hqa : s.block q = a
        · rw [hqa]
          show (Function.update s₁.disk a _ a).word i = _
          rw [Function.update_self]
          by_cases hij : j = i
          · subst hij
            rw [if_pos (hiff.mp ⟨hqa.symm, rfl⟩), Block.word_setWord_self]
            exact Nat.mod_eq_of_lt (Nat.lt_trans ha.lt h.layout.size)
          · rw [if_neg fun he => hij (hiff.mpr he).2, Block.word_setWord_ne _ (Ne.symm hij)]
            exact congrArg (Block.word · i) (congrArg s.disk hqa.symm)
        · rw [if_neg fun he => hqa (hiff.mpr he).1.symm, hdisk _ hqa, ha.owned h hq.isPlace hqne]
          rfl
      · intro i hi
        show ((s₁.log_write a ((s.disk a).setWord j b)).disk b).word i = 0
        rw [hdisk _ hab.symm, ha.zero, Block.word_zero]
      · exact hblock.trans h0
      · intro path i he
        obtain ⟨rfl, -⟩ := List.append_singleton_inj.mp he
        exact hne
    have hB : ∀ c < s.sb.size, s₁.sb.BBLOCK c ≠ a := by
      intro c hc
      rw [ha.sb, ← hpa]
      exact (h.block_ne_BBLOCK hp.isPlace hne hc).symm
    have hleaf : ∀ q, IsLeaf q → s.block q ≠ 0 → s.block q ≠ a := by
      intro q hq hqne he
      have hqp : q = p := h.inj q p hq.1 hp.isPlace hqne (he.trans hpa.symm)
      exact hq.not_inner (hqp ▸ hp)
    have hext := Extends.of_graft (p := (p.1, p.2 ++ [j])) h ha hg hp' hsb rfl
      (fun c hc => used_congr hsb₁ (hdisk _ (hB c hc))) (fun i _ => congrFun ha.icache i)
      ⟨_, fun _ _ => rfl, congrFun ha.icache _⟩ (fun x hx => hdisk x (by omega))
      fun q hq hqne => hdisk _ (hleaf q hq hqne)
    refine ⟨hext, ?_, hb0⟩
    rw [State.block, hg.block_eq hp', if_pos rfl]
  · rw [entry_eq h0] at hs
    cases hs
    exact ⟨.refl h, hblock, h0⟩

end

/-! ## Descents -/

namespace State

/-- The accesses below a slot, one for each level. -/
def descend (s : State) (a : Nat) : List Nat → Except Fault (Nat × State)
  | [] => .ok (a, s)
  | j :: js => do
    let (a, s) ← s.entry a j
    s.descend a js

end State

/-- The slot and the path of block `bn` of a file. -/
def leaf (bn : Nat) : Nat × List Nat :=
  if bn < 10 then (bn, [])
  else if bn < 138 then (10, [bn - 10])
  else if bn < 16522 then (11, [(bn - 138) / 128, (bn - 138) % 128])
  else (12, [(bn - 16522) / 16384, (bn - 16522) / 128 % 128, (bn - 16522) % 128])

/-- The place of block `bn` of the file `i`. -/
def leafAt (i bn : Nat) : Place := ((i, (leaf bn).1), (leaf bn).2)

/-- The block that holds block `bn` of the file `i`, 0 if there is none. -/
def State.addr (s : State) (i bn : Nat) : Nat := if bn < MAXFILE then s.block (leafAt i bn) else 0

theorem leaf_slot_lt (bn : Nat) : (leaf bn).1 < NDIRECT + 3 := by
  unfold leaf NDIRECT
  split
  · omega
  · split
    · simp
    · split <;> simp

theorem leafAt_isLeaf {i bn : Nat} (h : bn < MAXFILE) : IsLeaf (leafAt i bn) := by
  have h : bn < 2113674 := h
  unfold leafAt leaf
  by_cases h1 : bn < 10
  · rw [if_pos h1]
    exact ⟨isPlace_root _, by simp [height]; omega⟩
  · rw [if_neg h1]
    by_cases h2 : bn < 138
    · rw [if_pos h2]
      refine ⟨⟨Nat.le_refl _, ?_⟩, rfl⟩
      intro j hj
      rw [List.mem_singleton] at hj
      show j < 128
      omega
    · rw [if_neg h2]
      by_cases h3 : bn < 16522
      · rw [if_pos h3]
        refine ⟨⟨Nat.le_refl _, ?_⟩, rfl⟩
        intro j hj
        simp only [List.mem_cons, List.not_mem_nil, or_false] at hj
        show j < 128
        omega
      · rw [if_neg h3]
        refine ⟨⟨Nat.le_refl _, ?_⟩, rfl⟩
        intro j hj
        simp only [List.mem_cons, List.not_mem_nil, or_false] at hj
        show j < 128
        omega

/-- The block of a file that is at a slot and a path. -/
def unleaf : Nat × List Nat → Nat
  | (k, []) => k
  | (_, [j]) => 10 + j
  | (_, [i, j]) => 138 + 128 * i + j
  | (_, i :: j :: l :: _) => 16522 + 16384 * i + 128 * j + l

theorem unleaf_leaf (bn : Nat) : unleaf (leaf bn) = bn := by
  unfold leaf
  by_cases h1 : bn < 10
  · rw [if_pos h1, unleaf]
  · rw [if_neg h1]
    by_cases h2 : bn < 138
    · rw [if_pos h2, unleaf]
      omega
    · rw [if_neg h2]
      by_cases h3 : bn < 16522
      · rw [if_pos h3, unleaf]
        omega
      · rw [if_neg h3, unleaf]
        omega

/-- No two blocks of files are at one place. -/
theorem leafAt_inj {i bn i' bn' : Nat} (h : leafAt i bn = leafAt i' bn') : i = i' ∧ bn = bn' := by
  simp only [leafAt, Prod.mk.injEq] at h
  obtain ⟨⟨hi, hk⟩, hp⟩ := h
  refine ⟨hi, ?_⟩
  rw [← unleaf_leaf bn, ← unleaf_leaf bn']
  exact congrArg unleaf (Prod.ext hk hp)

theorem State.bmap_eq (s : State) (ip : Nat) {bn : Nat} (h : bn < MAXFILE) :
    s.bmap ip bn = (do
      let (a, s) ← s.slot ip (leaf bn).1
      s.descend a (leaf bn).2) := by
  have h : bn < 2113674 := h
  have hlast : ∀ {s : State} {a j : Nat}, s.descend a [j] = s.entry a j := by
    intro s a j
    rw [State.descend]
    cases s.entry a j <;> rfl
  have hand : ∀ x : Nat, x &&& 0x7F = x % 128 := fun x => Nat.and_two_pow_sub_one_eq_mod x 7
  unfold State.bmap leaf NDIRECT
  simp only [Nat.shiftRight_eq_div_pow, Nat.reducePow, Nat.reduceShiftLeft]
  by_cases h1 : bn < 10
  · rw [if_pos h1, if_pos h1]
    cases s.slot ip bn <;> rfl
  · rw [if_neg h1, if_neg h1]
    by_cases h2 : bn < 138
    · rw [if_pos (by omega), if_pos h2]
      refine congrArg (s.slot ip 10 >>= ·) (funext fun x => ?_)
      rw [hlast]
    · rw [if_neg (by omega), if_neg h2]
      by_cases h3 : bn < 16522
      · rw [if_pos (by omega), if_pos h3]
        refine congrArg (s.slot ip 11 >>= ·) (funext fun x => ?_)
        rw [State.descend, Nat.sub_sub]
        refine congrArg (x.2.entry x.1 ((bn - 138) / 128) >>= ·) (funext fun x => ?_)
        show _ = x.2.descend x.1 _
        rw [hlast, hand]
      · rw [if_neg (by omega), if_neg h3, if_pos (by omega)]
        refine congrArg (s.slot ip 12 >>= ·) (funext fun x => ?_)
        rw [State.descend, Nat.sub_sub, Nat.sub_sub]
        refine congrArg (x.2.entry x.1 ((bn - 16522) / 16384) >>= ·) (funext fun x => ?_)
        show _ = x.2.descend x.1 _
        rw [State.descend, Nat.and_comm, hand]
        refine congrArg (x.2.entry x.1 ((bn - 16522) / 128 % 128) >>= ·) (funext fun x => ?_)
        show _ = x.2.descend x.1 _
        rw [hlast, Nat.and_comm, hand]

section
variable {s s' : State} {ip a a' : Nat}

theorem descend_spec {r : Nat × Nat} (path : List Nat) {js : List Nat} (h : Wf s) (hp : IsPlace (r, path ++ js))
    (hpa : s.block (r, path) = a) (ha0 : a ≠ 0) (hs : s.descend a js = .ok (a', s')) :
    Extends r.1 s s' ∧ s'.block (r, path ++ js) = a' ∧ a' ≠ 0 := by
  induction js generalizing s a path with
  | nil =>
    cases hs
    rw [List.append_nil]
    exact ⟨.refl h, hpa, ha0⟩
  | cons j js ih =>
    simp only [State.descend, bind_ok, Prod.exists] at hs
    obtain ⟨a₁, s₁, he, hs⟩ := hs
    have hj : path ++ j :: js = path ++ [j] ++ js := by simp
    rw [hj] at hp ⊢
    have hin : IsInner (r, path) ∧ j < NINDIRECT := by
      refine Forest.isPlace_concat.mp ⟨Nat.le_trans ?_ hp.1, fun i hi => hp.2 i ?_⟩
      · simp
      · exact List.mem_append_left _ hi
    obtain ⟨hext, hb, hne⟩ := entry_spec h hin.1 hpa ha0 hin.2 he
    obtain ⟨hext', hb', hne'⟩ := ih (path ++ [j]) hext.wf hp hb hne hs
    exact ⟨hext.trans hext', hb', hne'⟩

theorem descend_eq {r : Nat × Nat} {path js : List Nat} (hpa : s.block (r, path) = a)
    (hne : s.block (r, path ++ js) ≠ 0) :
    s.descend a js = .ok (s.block (r, path ++ js), s) := by
  induction js generalizing a path with
  | nil =>
    rw [List.append_nil, hpa]
    rfl
  | cons j js ih =>
    have hj : path ++ j :: js = path ++ [j] ++ js := by simp
    rw [hj] at hne ⊢
    have hne₁ : s.block (r, path ++ [j]) ≠ 0 := Forest.block_prefix hne
    have hne₀ : s.block (r, path) ≠ 0 := Forest.block_prefix hne₁
    have hb : s.block (r, path ++ [j]) = (s.disk a).word j := by
      have := Forest.block_concat s.forest r path j
      rw [if_neg hne₀] at this
      rw [← hpa]
      exact this
    rw [hb] at hne₁
    rw [State.descend, entry_eq hne₁]
    exact ih hb hne

theorem entry_error {j : Nat} {f : Fault} (h : s.entry a j = .error f) :
    f = .panic "balloc: out of blocks" := by
  simp only [State.entry] at h
  split at h
  · rcases bind_error.mp h with h | ⟨_, _, h⟩
    · exact balloc_error h
    · cases h
  · cases h

theorem descend_error {js : List Nat} {f : Fault} (h : s.descend a js = .error f) :
    f = .panic "balloc: out of blocks" := by
  induction js generalizing s a with
  | nil => cases h
  | cons j js ih =>
    rcases bind_error.mp h with h | ⟨_, _, h⟩
    · exact entry_error h
    · exact ih h

/-- **Block maps**: `bmap` returns the block of the file that it is asked for, which it
may add to the tree. -/
theorem bmap_spec (h : Wf s) (hl : Live s ip) {bn : Nat} (hbn : bn < MAXFILE)
    (hs : s.bmap ip bn = .ok (a, s')) : Extends ip s s' ∧ s'.addr ip bn = a ∧ a ≠ 0 := by
  simp only [State.bmap_eq s ip hbn, bind_ok, Prod.exists] at hs
  obtain ⟨a₁, s₁, h₁, hs⟩ := hs
  obtain ⟨hext, hb, hne⟩ := slot_spec h hl (leaf_slot_lt bn) h₁
  obtain ⟨hext', hb', hne'⟩ := descend_spec [] hext.wf
    (leafAt_isLeaf (i := ip) hbn).1 hb hne hs
  exact ⟨hext.trans hext', (if_pos hbn).trans hb', hne'⟩

/-- A block that is there is returned without a change. -/
theorem bmap_eq_self (hl : Live s ip) {bn : Nat} (hne : s.addr ip bn ≠ 0) :
    s.bmap ip bn = .ok (s.addr ip bn, s) := by
  have hbn : bn < MAXFILE := by
    by_contra hbn
    exact hne (if_neg hbn)
  have ha : s.addr ip bn = s.block ((ip, (leaf bn).1), [] ++ (leaf bn).2) := if_pos hbn
  rw [ha] at hne ⊢
  have hr : s.block ((ip, (leaf bn).1), []) ≠ 0 := Forest.block_prefix hne
  have hb := hl.block_nil (leaf_slot_lt bn)
  rw [hb] at hr
  rw [State.bmap_eq s ip hbn, slot_eq hr]
  exact descend_eq hb hne

theorem bmap_error {bn : Nat} {f : Fault} (hbn : bn < MAXFILE) (h : s.bmap ip bn = .error f) :
    f = .panic "balloc: out of blocks" := by
  rw [State.bmap_eq s ip hbn] at h
  rcases bind_error.mp h with h | ⟨_, _, h⟩
  · unfold State.slot at h
    split at h
    · rcases bind_error.mp h with h | ⟨_, _, h⟩
      · exact balloc_error h
      · cases h
    · cases h
  · exact descend_error h

/-- Beyond the largest file `bmap` panics, before it does anything. -/
theorem bmap_range {bn : Nat} (h : MAXFILE ≤ bn) : s.bmap ip bn = .error (.panic "bmap: out of range") := by
  have h : 2113674 ≤ bn := h
  unfold State.bmap NDIRECT
  simp only [Nat.reduceShiftLeft]
  rw [if_neg (by omega), if_neg (by omega), if_neg (by omega), if_neg (by omega)]

end

end Xv6.Fs
