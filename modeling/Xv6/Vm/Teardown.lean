import Xv6.Vm.Grow

/-!
# Making and freeing directories

`setupkvm` maps the kernel into a fresh directory, and `freevm` gives back every
frame of a directory. A directory that is made and then freed, at whatever point
the memory ran out, leaves the free frames as they were.
-/

namespace Xv6.Vm

open Lib

/-- How `kernel.ld` places the kernel. -/
structure Linked (m : Mem) : Prop where
  low : EXTMEM < m.kdata
  high : m.kdata < PHYSTOP
  align : m.kdata % PGSIZE = 0

/-- All frames of `d` were freed, and no others. -/
structure Razed (d : Nat) (m : Mem) (use : Nat → Use) (m' : Mem) (use' : Nat → Use) : Prop
    extends Edit d m use m' use' where
  frames : Frames m' use'
  gone : ∀ p, (use p).Mine d → use' p = .free

section
variable {m m' m'' : Mem} {use use' use'' : Nat → Use} {d p : Nat}

theorem Edit.razed (h : Edit d m use m' use') (h' : Razed d m' use' m'' use'') :
    Razed d m use m'' use'' where
  toEdit := h.trans h'.toEdit
  frames := h'.frames
  gone p hp := h'.gone p ((h.mine p).mpr hp)

/-! ## `freevm` -/

/-- The loop of `freevm`: the page tables up to index `n` are free. -/
theorem freeTables_ok (hs : Space m use d) : ∀ n ≤ 1024, ∃ m' use',
    (List.range n).foldlM (fun (m : Mem) i => match m.table d i with
      | some pde => m.kfree pde.page
      | none => .ok m) m = .ok m' ∧ Frames m' use' ∧ m'.table d = m.table d ∧
      Edit d m use m' use' ∧ (∀ p i, i < n → use p = .table d i → use' p = .free) ∧
      ∀ p, (∀ i < n, use p ≠ .table d i) → use' p = use p := by
  intro n
  induction n with
  | zero =>
    exact fun _ => ⟨m, use, rfl, hs.frames, rfl, .refl, fun _ i hi => absurd hi (Nat.not_lt_zero i),
      fun _ _ => rfl⟩
  | succ n ih =>
    intro hn
    obtain ⟨m₁, use₁, hm₁, hF₁, hd₁, he₁, hgone, hkeep⟩ := ih (by omega)
    rw [List.range_succ, List.foldlM_append, hm₁]
    simp only [List.foldlM_cons, List.foldlM_nil, ok_bind, hd₁]
    cases hpde : m.table d n with
    | none =>
      have hno : ∀ p, use p ≠ .table d n := fun p hp => by
        have := ((hs.tree.table n p).mp hp).2
        rw [hpde] at this
        cases this
      refine ⟨m₁, use₁, rfl, hF₁, hd₁, he₁, fun p i hi hp => ?_, fun p hp => ?_⟩
      · rcases Nat.lt_succ_iff_lt_or_eq.mp hi with hi | rfl
        · exact hgone p i hi hp
        · exact absurd hp (hno p)
      · exact hkeep p fun i hi => hp i (by omega)
    | some pde =>
      have hu : use pde.page = .table d n := hs.tree.table_use (by omega) hpde
      have hu₁ : use₁ pde.page = .table d n := by
        rw [hkeep pde.page fun i hi he => ?_, hu]
        rw [hu] at he
        cases he
        omega
      obtain ⟨m₂, hm₂, hF₂, hkend, hkdata, htab, hdata⟩ :=
        kfree_ok hF₁ (p := pde.page) (by rw [hu₁]; simp) (by rw [hu₁]; simp)
      have hmine : (use₁ pde.page).Mine d := .inr (.inr (by rw [hu₁]; rfl))
      have hne : d ≠ pde.page := fun he => by rw [← he, hs.tree.dir_use] at hu; cases hu
      refine ⟨m₂, _, by dsimp only; rw [hm₂]; rfl, hF₂, (htab d hne).trans hd₁,
        he₁.trans (.single hkend hkdata hmine (.inl rfl) (fun q hq => htab q ?_)
          fun q hq => hdata q ?_), fun p i hi hp => ?_, fun p hp => ?_⟩
      · exact fun he => hq (he ▸ hmine)
      · exact fun he => hq (he ▸ hmine)
      · by_cases hpp : p = pde.page
        · subst hpp; exact Function.update_self ..
        · rw [Function.update_of_ne hpp]
          refine hgone p i ?_ hp
          by_contra hc
          obtain rfl : i = n := by omega
          have := ((hs.tree.table i p).mp hp).2
          rw [hpde] at this
          exact hpp (Option.some.inj this).symm
      · have hpp : p ≠ pde.page := fun he => hp n (Nat.lt_succ_self n) (he ▸ hu)
        rw [Function.update_of_ne hpp]
        exact hkeep p fun i hi => hp i (by omega)

/-- **Freeing**: `freevm` does not panic, and frees exactly the frames of the directory. -/
theorem freevm_ok (hs : Space m use d) (hidle : Idle use d) :
    ∃ m' use', m.freevm d = .ok m' ∧ Razed d m use m' use' := by
  have hd0 : d ≠ 0 := by
    have h1 := (hs.frames.valid d (by rw [hs.tree.dir_use]; simp)).1
    have h2 := hs.frames.kend
    omega
  obtain ⟨m₁, use₁, hm₁, hs₁, hk₁, hp₁⟩ :=
    deallocuvm_ok hs (Nat.le_refl KERNBASE) (by decide : 0 < KERNBASE)
  have hnone : ∀ va < KERNBASE, m₁.pte d va = none := by
    intro va hva
    have hround : PGROUNDUP KERNBASE = KERNBASE := by decide
    rw [hp₁ va (by unfold KERNBASE at hva; omega), if_pos ⟨Nat.zero_le _, by rw [hround]; exact hva⟩]
  obtain ⟨m₂, use₂, hm₂, hF₂, hd₂, he₂, hgone₂, hkeep₂⟩ := freeTables_ok hs₁ 1024 (Nat.le_refl _)
  have hd : use₂ d = .dir d := by
    rw [hkeep₂ d fun i _ he => ?_, hs₁.tree.dir_use]
    rw [hs₁.tree.dir_use] at he
    cases he
  obtain ⟨m₃, hm₃, hF₃, hkend, hkdata, htab, hdata⟩ :=
    kfree_ok hF₂ (p := d) (by rw [hd]; simp) (by rw [hd]; simp)
  have hmine : (use₂ d).Mine d := .inr (.inr (by rw [hd]; rfl))
  have he : Edit d m₁ use₁ m₃ (Function.update use₂ d .free) := by
    refine he₂.trans (.single hkend hkdata hmine (.inl rfl) (fun q hq => htab q ?_)
      fun q hq => hdata q ?_)
    · exact fun he => hq (he ▸ hmine)
    · exact fun he => hq (he ▸ hmine)
  refine ⟨m₃, Function.update use₂ d .free, ?_, hk₁.toEdit.trans he, hF₃, fun p hp => ?_⟩
  · rw [Mem.freevm, if_neg hd0, hm₁, ok_bind]
    exact bind_ok.mpr ⟨m₂, hm₂, hm₃⟩
  · by_cases hpd : p = d
    · subst hpd; exact Function.update_self ..
    · rw [Function.update_of_ne hpd]
      rcases (hk₁.mine p).mpr hp with h | h | h
      · rw [hkeep₂ p fun i _ hi => by rw [h] at hi; cases hi]
        exact h
      · rcases hk₁.keep p with ⟨h1, -⟩ | ⟨h1, -⟩
        · exact absurd (h1.symm.trans h) (hidle p)
        · rw [h1] at h; cases h
      · cases hu : use₁ p with
        | dir e =>
          rw [hu] at h
          cases h
          exact absurd ((hs₁.tree.dir p).mp hu) hpd
        | table e i =>
          rw [hu] at h
          cases h
          exact hgone₂ p i ((hs₁.tree.table i p).mp hu).1 hu
        | page e i j =>
          -- no user page is left
          rw [hu] at h
          cases h
          obtain ⟨hi, hj, hmap⟩ := (hs₁.tree.page i j p).mp hu
          obtain ⟨va, hva, heq⟩ := entry_pte hi hj
          rw [← heq m₁, hnone va hva] at hmap
          cases hmap
        | _ => rw [hu] at h; cases h

/-! ## `setupkvm` -/

/-- The entry of an address is in the page table that has that use. -/
theorem Tree.pte_table (h : Tree m use d) {t va : Nat} (ht : use t = .table d (PDX va)) :
    m.pte d va = m.table t (PTX va) := by
  obtain ⟨-, hmap⟩ := (h.table _ t).mp ht
  obtain ⟨pde, hpde, rfl⟩ := Option.map_eq_some_iff.mp hmap
  rw [Mem.pte, Mem.entry, hpde, Option.bind_some]

/-- A page of the kernel is mapped: no frame changes its use. -/
theorem Space.setKernel (hs : Space m use d) {t va : Nat} {e : Pte} (hva : KERNBASE ≤ va)
    (hva' : va < 2 ^ 32) (ht : use t = .table d (PDX va)) (he : e.perm.u = false) :
    Space (m.setEntry t (PTX va) (some e)) use d ∧
      Edit d m use (m.setEntry t (PTX va) (some e)) use := by
  have hdx : 512 ≤ PDX va := PDX_kernel hva hva'
  refine ⟨⟨hs.frames.congr rfl rfl, ?_⟩, .contents rfl rfl (fun q hq => ?_) fun _ _ => rfl⟩
  · refine hs.tree.setEntry ht (fun _ => Iff.rfl) (fun _ _ => Iff.rfl) (fun q i j => ?_) fun x _ hx => ?_
    · split
      · next hij =>
        obtain ⟨rfl, -⟩ := hij
        rw [hs.tree.page]
        exact iff_of_false (fun h => by omega) fun h => by omega
      · rfl
    · cases hx
      exact he
  · exact setEntry_table_of_ne (fun hqt => hq (.inr (.inr (by rw [hqt, ht]; rfl)))) _

/-- The loop of `mappages` on addresses of the kernel that have no page yet. -/
theorem mapLoop_kernel {perm : Perm} (hperm : perm.u = false) :
    ∀ (n va pa : Nat) (m : Mem) (use : Nat → Use), Space m use d → Idle use d → KERNBASE ≤ va →
      va % PGSIZE = 0 → va + PGSIZE * n ≤ 2 ^ 32 → (∀ b < 2 ^ 32, va ≤ b → m.pte d b = none) →
      ∃ m' use' ok, Mem.mapLoop d perm n m va pa = .ok (m', ok) ∧ Space m' use' d ∧ Idle use' d ∧
        Edit d m use m' use' ∧
        ∀ b < 2 ^ 32, b < va ∨ va + PGSIZE * n ≤ b → m'.pte d b = m.pte d b := by
  intro n
  induction n with
  | zero =>
    exact fun va pa m use hs hidle _ _ _ _ => ⟨m, use, true, rfl, hs, hidle, .refl, fun _ _ _ => rfl⟩
  | succ n ih =>
    intro va pa m use hs hidle hk hmod hend hnone
    have hva : va < 2 ^ 32 := by unfold PGSIZE at hend; omega
    rw [Mem.mapLoop]
    generalize hw : m.walkpgdir d va true = r
    obtain ⟨m₁, r⟩ := r
    obtain ⟨use₁, hs₁, hg, hheld, hentry, ht⟩ := walkpgdir_alloc hs hw
    have hidle₁ : Idle use₁ d := fun p hp => hidle p (hheld p hp)
    have hpte : ∀ b, m₁.pte d b = m.pte d b := fun b => hentry _ _ (PDX_lt b)
    cases r with
    | none => exact ⟨m₁, use₁, false, rfl, hs₁, hidle₁, hg.toEdit, fun b _ _ => hpte b⟩
    | some t =>
      have hut : use₁ t = .table d (PDX va) := ht t rfl
      dsimp only
      rw [← hs₁.tree.pte_table hut, hpte, hnone va hva (Nat.le_refl va)]
      obtain ⟨hs₂, he₂⟩ := hs₁.setKernel (e := ⟨pa / PGSIZE, perm⟩) hk hva hut hperm
      have hpte₂ : ∀ b < 2 ^ 32, b / PGSIZE ≠ va / PGSIZE →
          (m₁.setEntry t (PTX va) (some ⟨pa / PGSIZE, perm⟩)).pte d b = m.pte d b := by
        intro b hb hne
        rw [pte_setEntry hs₁.tree hva hb hut, if_neg hne, hpte]
      -- the pages behind this one are still without entries
      obtain ⟨m', use', ok, hm, hs', hidle', he, hrest⟩ := ih (va + PGSIZE) (pa + PGSIZE) _ use₁ hs₂
        hidle₁ (by omega) (by unfold PGSIZE at *; omega) (by unfold PGSIZE at *; omega)
        fun b hb hle => by
          rw [hpte₂ b hb (by unfold PGSIZE at *; omega)]
          exact hnone b hb (by omega)
      refine ⟨m', use', ok, hm, hs', hidle', (hg.toEdit.trans he₂).trans he, fun b hb hout => ?_⟩
      rw [hrest b hb (by unfold PGSIZE at *; omega)]
      exact hpte₂ b hb (by unfold PGSIZE at *; omega)

/-- A list of mappings of the kernel, in the order of their addresses, from `lo` on. -/
def KmapOk : Nat → List Mem.Kmap → Prop
  | _, [] => True
  | lo, k :: ks => lo ≤ k.virt ∧ k.virt % PGSIZE = 0 ∧ 0 < k.size ∧ k.size % PGSIZE = 0 ∧
      k.virt + k.size ≤ 2 ^ 32 ∧ k.perm.u = false ∧ KmapOk (k.virt + k.size) ks

theorem kmap_ok (h : Linked m) : KmapOk KERNBASE m.kmap := by
  have h1 := h.low
  have h2 := h.high
  have h3 := h.align
  unfold Mem.kmap
  simp only [KmapOk, EXTMEM, PHYSTOP, KERNLINK, KERNBASE, DEVSPACE, PGSIZE, and_true, true_and] at *
  omega

/-- A mapping of the kernel as a loop over its pages. -/
theorem mappages_kernel {va size : Nat} (hmod : va % PGSIZE = 0) (hpos : 0 < size)
    (hsize : size % PGSIZE = 0) (hend : va + size ≤ 2 ^ 32) (pa : Nat) (perm : Perm) :
    m.mappages d va size pa perm = Mem.mapLoop d perm (size / PGSIZE) m va pa := by
  unfold Mem.mappages PGROUNDDOWN PGSIZE at *
  have h1 : (va + size - 1) % 2 ^ 32 / 4096 - va / 4096 + 1 = size / 4096 := by omega
  have h2 : va / 4096 * 4096 = va := by omega
  rw [h1, h2]

/-- The loop of `setupkvm`: all of the kernel is mapped, or the directory is freed. -/
theorem mapKernel_ok : ∀ (ks : List Mem.Kmap) (lo : Nat) (m : Mem) (use : Nat → Use), KERNBASE ≤ lo →
    KmapOk lo ks → Space m use d → Idle use d → (∀ b < 2 ^ 32, lo ≤ b → m.pte d b = none) →
    ∃ m' r, Mem.mapKernel d ks m = .ok (m', r) ∧
      ((r = some d ∧ ∃ use', Space m' use' d ∧ Idle use' d ∧ Edit d m use m' use' ∧
        ∀ b < lo, m'.pte d b = m.pte d b) ∨ (r = none ∧ ∃ use', Razed d m use m' use')) := by
  intro ks
  induction ks with
  | nil =>
    exact fun lo m use _ _ hs hidle _ => ⟨m, some d, rfl, .inl ⟨rfl, use, hs, hidle, .refl, fun _ _ => rfl⟩⟩
  | cons k ks ih =>
    intro lo m use hlo hok hs hidle hnone
    obtain ⟨hvirt, hmod, hpos, hsize, hend, hperm, hok⟩ := hok
    have hn : PGSIZE * (k.size / PGSIZE) = k.size := by unfold PGSIZE at *; omega
    obtain ⟨m₁, use₁, ok, hm₁, hs₁, hidle₁, he₁, hp₁⟩ := mapLoop_kernel hperm (k.size / PGSIZE) k.virt
      k.phys_start m use hs hidle (by omega) hmod (by omega) fun b hb hle => hnone b hb (by omega)
    rw [Mem.mapKernel, mappages_kernel hmod hpos hsize hend, hm₁, ok_bind]
    cases ok with
    | true =>
      obtain ⟨m', r, hm, hcase⟩ := ih (k.virt + k.size) m₁ use₁ (by omega) hok hs₁ hidle₁
        fun b hb hle => by rw [hp₁ b hb (.inr (by omega))]; exact hnone b hb (by omega)
      refine ⟨m', r, hm, ?_⟩
      rcases hcase with ⟨hr, use', hs', hidle', he, hp⟩ | ⟨hr, use', hz⟩
      · refine .inl ⟨hr, use', hs', hidle', he₁.trans he, fun b hb => ?_⟩
        rw [hp b (by omega), hp₁ b (by omega) (.inl (by omega))]
      · exact .inr ⟨hr, use', he₁.razed hz⟩
    | false =>
      obtain ⟨m', use', hm, hz⟩ := freevm_ok hs₁ hidle₁
      exact ⟨m', none, bind_ok.mpr ⟨m', hm, rfl⟩, .inr ⟨rfl, use', he₁.razed hz⟩⟩

/-- No frame belongs to a directory but those of `old`. -/
def OnlyDir (use : Nat → Use) (old : Nat) : Prop :=
  ∀ p, use p = .free ∨ use p = .other ∨ (use p).tree = some old

/-- The frames of other directories can be taken as frames in use elsewhere. -/
theorem Built.only (h : Built m d) : ∃ use, Space m use d ∧ Idle use d ∧ OnlyDir use d := by
  obtain ⟨use, hs, -⟩ := h
  obtain ⟨use', huse'⟩ : ∃ use' : Nat → Use, ∀ p, use' p =
      if use p = .free ∨ (use p).tree = some d then use p else .other := ⟨_, fun _ => rfl⟩
  have hkeep : ∀ p, use p = .free ∨ (use p).tree = some d → use' p = use p := fun p hp => by
    rw [huse', if_pos hp]
  have hdrop : ∀ p, ¬ (use p = .free ∨ (use p).tree = some d) → use' p = .other := fun p hp => by
    rw [huse', if_neg hp]
  refine ⟨use', ⟨⟨hs.frames.nodup, fun p => ?_, fun p hp => ?_, hs.frames.kend⟩,
    hs.tree.congr (fun p => ?_) fun p _ => .inl rfl⟩, fun p => ?_, fun p => ?_⟩
  all_goals by_cases hp : use p = .free ∨ (use p).tree = some d
  · rw [hkeep p hp, hs.frames.free]
  · rw [hdrop p hp, hs.frames.free]
    exact iff_of_false (fun he => hp (.inl he)) (by simp)
  · exact hs.frames.valid p (hkeep p hp ▸ by assumption)
  · exact absurd (hdrop p hp) (by assumption)
  · exact .inl (hkeep p hp)
  · rw [hdrop p hp]
    exact .inr ⟨fun he => hp (.inr he), by simp [Use.tree]⟩
  · rw [hkeep p hp]
    rintro he
    rw [he] at hp
    rcases hp with hp | hp <;> cases hp
  · rw [hdrop p hp]
    simp
  · rw [hkeep p hp]
    exact hp.elim .inl fun h => .inr (.inr h)
  · exact .inr (.inl (hdrop p hp))

theorem OnlyDir.mine (h : OnlyDir use p) {q : Nat} (hne : d ≠ p) : (use q).Mine d ↔ use q = .free := by
  constructor
  · rintro (h1 | h1 | h1)
    · exact h1
    · rcases h q with h2 | h2 | h2 <;> rw [h1] at h2 <;> cases h2
    · rcases h q with h2 | h2 | h2
      · exact h2
      · rw [h2] at h1; cases h1
      · exact absurd (Option.some.inj (h1.symm.trans h2)) hne
  · exact .inl

/-- A directory whose memory has been taken back left no trace in the free list. -/
theorem Razed.free_iff (hz : Razed d m use m' use') {old : Nat} (ho : OnlyDir use old)
    (hne : d ≠ old) (hF : Frames m use) (p : Nat) : p ∈ m'.free ↔ p ∈ m.free := by
  rw [hF.free, hz.frames.free, ← ho.mine hne]
  constructor
  · exact fun h => (hz.mine p).mp (.inl h)
  · exact fun h => hz.gone p h

/-- A cleared frame is an empty directory. -/
theorem clear_space (hF : Frames m use) {old : Nat} (ho : OnlyDir use old) (hold : use old = .dir old)
    (hk : m.kalloc = (m', some d)) :
    d ≠ old ∧ Space (m'.clear d) (Function.update use d (.dir d)) d ∧
      Idle (Function.update use d (.dir d)) d ∧
      Edit d m use (m'.clear d) (Function.update use d (.dir d)) ∧
      ∀ va, (m'.clear d).pte d va = none := by
  obtain ⟨hm, hfree, hF'⟩ := kalloc_some hF hk d
  have hne : d ≠ old := fun he => by rw [he, hold] at hfree; cases hfree
  have hempty : (m'.clear d).table d = fun _ => none := Function.update_self ..
  have hentry : ∀ i j, (m'.clear d).entry d i j = none := fun i j => by rw [Mem.entry, hempty]; rfl
  have hother : ∀ q u, q ≠ d → u ≠ .free → u.Mine d → Function.update use d (.dir d) q ≠ u := by
    intro q u hq hu hmine he
    rw [Function.update_of_ne hq] at he
    exact hu (he.symm.trans ((ho.mine hne).mp (he ▸ hmine)))
  have hfresh : ∀ q u, u ≠ .free → u ≠ .dir d → u.Mine d → Function.update use d (.dir d) q ≠ u := by
    intro q u hu hd hmine
    by_cases hq : q = d
    · subst hq
      rw [Function.update_self]
      exact Ne.symm hd
    · exact hother q u hq hu hmine
  refine ⟨hne, ⟨?_, ⟨fun q => ?_, fun i q => ?_, fun i j q => ?_, fun i j e _ _ _ he => ?_⟩⟩,
    fun q => hfresh q _ (by simp) (by simp) (.inr (.inl rfl)), ?_, fun va => hentry _ _⟩
  · have := hF'.retag (p := d) (u := .dir d) (by simp) (by simp) (by simp)
    rw [Function.update_idem] at this
    exact this.congr rfl rfl
  · constructor
    · intro he
      by_contra hq
      exact hother q _ hq (by simp) (.inr (.inr rfl)) he
    · rintro rfl
      exact Function.update_self ..
  · rw [hempty]
    exact iff_of_false (hfresh q _ (by simp) (by simp) (.inr (.inr rfl))) fun h => by cases h.2
  · rw [hentry]
    exact iff_of_false (hfresh q _ (by simp) (by simp) (.inr (.inr rfl))) fun h => by cases h.2.2
  · rw [hentry] at he
    cases he
  · have hqd : ∀ q, ¬ (use q).Mine d → q ≠ d := fun q hq he => hq (.inl (by rw [he, hfree]))
    refine .single (by rw [hm]; rfl) (by rw [hm]; rfl) (.inl hfree) (.inr (.inr rfl)) (fun q hq => ?_)
      fun q hq => ?_
    · rw [hm]
      exact Function.update_of_ne (hqd q hq) _ _
    · rw [hm]
      exact Function.update_of_ne (hqd q hq) _ _

/-- **Making a directory**: `setupkvm` returns one without user pages, or leaves nothing. -/
theorem setupkvm_ok (hF : Frames m use) {old : Nat} (ho : OnlyDir use old) (hold : use old = .dir old)
    (hl : Linked m) : ∃ m' r, m.setupkvm = .ok (m', r) ∧
      ((∃ d use', r = some d ∧ d ≠ old ∧ Space m' use' d ∧ Idle use' d ∧ Edit d m use m' use' ∧
        ∀ va < KERNBASE, m'.pte d va = none) ∨
      (r = none ∧ (∀ p, p ∈ m'.free ↔ p ∈ m.free) ∧ (m' = m ∨ ∃ d use', d ≠ old ∧ Razed d m use m' use'))) := by
  unfold Mem.setupkvm
  split
  · next m₁ hk =>
    obtain ⟨rfl, -⟩ := kalloc_none hk
    exact ⟨m₁, none, rfl, .inr ⟨rfl, fun _ => Iff.rfl, .inl rfl⟩⟩
  · next m₁ d hk =>
    obtain ⟨hne, hs, hidle, he, hnone⟩ := clear_space hF ho hold hk
    have hkmap : m₁.kmap = m.kmap := by
      have := (kalloc_some hF hk d).1
      unfold Mem.kmap
      rw [this]
    rw [hkmap]
    obtain ⟨m', r, hm, hcase⟩ := mapKernel_ok m.kmap KERNBASE _ _ (Nat.le_refl _) (kmap_ok hl) hs hidle
      fun b _ _ => hnone b
    refine ⟨m', r, hm, ?_⟩
    rcases hcase with ⟨rfl, use', hs', hidle', he', hp⟩ | ⟨rfl, use', hz⟩
    · exact .inl ⟨d, use', rfl, hne, hs', hidle', he.trans he', fun va hva => by rw [hp va hva, hnone]⟩
    · have hz' := he.razed hz
      exact .inr ⟨rfl, hz'.free_iff ho hne hF, .inr ⟨d, use', hne, hz'⟩⟩

end

end Xv6.Vm
