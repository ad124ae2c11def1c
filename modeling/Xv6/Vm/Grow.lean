import Xv6.Vm.Frames

/-!
# Growing and shrinking a process

`allocuvm` and `deallocuvm` change exactly the user pages between two sizes, and a
failing `allocuvm` undoes what it did. `growproc` takes their result 0 for an error
in both cases, and hands a wrapped size to `deallocuvm`.
-/

namespace Xv6.Vm

open Lib

section
variable {m m' : Mem} {use use' : Nat → Use} {d a : Nat}

/-! ## Pages of a range -/

theorem pages_page {lo hi va : Nat} (hlo : lo % PGSIZE = 0) :
    (∃ a ∈ Mem.pages lo hi, va / PGSIZE = a / PGSIZE) ↔ lo ≤ va ∧ va < PGROUNDUP hi := by
  unfold Mem.pages PGROUNDUP PGSIZE at *
  constructor
  · rintro ⟨a, ha, hva⟩
    obtain ⟨k, hk, rfl⟩ := List.mem_range'.mp ha
    omega
  · rintro ⟨h1, h2⟩
    refine ⟨lo + 4096 * ((va - lo) / 4096), List.mem_range'.mpr ⟨(va - lo) / 4096, ?_, rfl⟩, ?_⟩
    · omega
    · omega

theorem pages_lt {lo hi : Nat} (hlo : lo % PGSIZE = 0) (h : a ∈ Mem.pages lo hi) :
    lo ≤ a ∧ a < hi ∧ a % PGSIZE = 0 := by
  unfold Mem.pages PGSIZE at *
  obtain ⟨k, hk, rfl⟩ := List.mem_range'.mp h
  omega

theorem PGROUNDUP_mod (sz : Nat) : PGROUNDUP sz % PGSIZE = 0 := Nat.mul_mod_left _ _

/-! ## Shrinking -/

/-- An iteration of `deallocuvm`: the page of the address is gone. -/
theorem unmap_ok (hs : Space m use d) (ha : a < KERNBASE) :
    ∃ m' use', m.unmap d a = .ok m' ∧ Space m' use' d ∧ Shrinks d m use m' use' ∧
      ∀ va < 2 ^ 32, m'.pte d va = if va / PGSIZE = a / PGSIZE then none else m.pte d va := by
  have ha32 : a < 2 ^ 32 := by unfold KERNBASE at ha; omega
  have hgone : m.pte d a = none → ∀ va < 2 ^ 32,
      m.pte d va = if va / PGSIZE = a / PGSIZE then none else m.pte d va := by
    intro hn va hva
    split
    · next he =>
      obtain ⟨h1, h2⟩ := (index_inj hva ha32).mpr he
      unfold Mem.pte at hn ⊢
      rw [h1, h2, hn]
    · rfl
  unfold Mem.unmap Mem.walkpgdir
  cases hd : m.table d (PDX a) with
  | none =>
    have hn : m.pte d a = none := by unfold Mem.pte Mem.entry; rw [hd]; rfl
    exact ⟨m, use, rfl, hs, .refl, hgone hn⟩
  | some pde =>
    dsimp only
    cases ht : m.table pde.page (PTX a) with
    | none =>
      have hn : m.pte d a = none := by unfold Mem.pte Mem.entry; rw [hd]; exact ht
      exact ⟨m, use, rfl, hs, .refl, hgone hn⟩
    | some e =>
      have he : m.pte d a = some e := by unfold Mem.pte Mem.entry; rw [hd]; exact ht
      have hu : use e.page = .page d (PDX a) (PTX a) := hs.tree.pte_use ha he
      have hut : use pde.page = .table d (PDX a) := hs.tree.table_use (PDX_lt a) hd
      obtain ⟨hlow, -⟩ := hs.frames.valid e.page (by rw [hu]; simp)
      have hkend := hs.frames.kend
      obtain ⟨m₁, hk, hF, hkend₁, hkdata₁, htab, hdata⟩ :=
        kfree_ok hs.frames (p := e.page) (by rw [hu]; simp) (by rw [hu]; simp)
      have hT : Tree m₁ use d := hs.tree.congr (fun _ => .inl rfl) fun q hq => by
        by_cases hqe : q = e.page
        · exact .inr ⟨_, _, hqe ▸ hu⟩
        · exact .inl (htab q hqe)
      have hne : ∀ q u, u ≠ .free → (∀ i j, u ≠ .page d i j) →
          (Function.update use e.page .free q = u ↔ use q = u) := by
        intro q u h1 h2
        by_cases hq : q = e.page
        · subst hq
          rw [Function.update_self, hu]
          exact iff_of_false (Ne.symm h1) fun he => h2 _ _ he.symm
        · rw [Function.update_of_ne hq]
      refine ⟨m₁.setEntry pde.page (PTX a) none, Function.update use e.page .free, ?_, ⟨?_, ?_⟩,
        ⟨?_, fun q => ?_⟩, fun va hva => ?_⟩
      · dsimp only
        rw [if_neg (by omega), hk]
        rfl
      · exact hF.congr rfl rfl
      · refine hT.setEntry hut (fun q => hne q _ (by simp) (by simp))
          (fun q i' => hne q _ (by simp) (by simp)) (fun q i' j' => ?_) (fun x _ hx => by cases hx)
        by_cases hq : q = e.page
        · subst hq
          rw [Function.update_self, hu]
          split
          · simp
          · next hij =>
            refine iff_of_false (by simp) fun he => hij ?_
            cases he
            exact ⟨rfl, rfl⟩
        · rw [Function.update_of_ne hq]
          split
          · next hij =>
            obtain ⟨rfl, rfl⟩ := hij
            refine iff_of_false (fun he' => hq ?_) (by simp)
            have hpage := ((hs.tree.page _ _ q).mp he').2.2
            change (m.pte d a).map Pte.page = some q at hpage
            rw [he] at hpage
            exact (Option.some.inj hpage).symm
          · rfl
      · have hmine : (use e.page).Mine d := .inr (.inr (by rw [hu]; rfl))
        refine .single ?_ ?_ hmine (.inl rfl) (fun q hq => ?_)
          fun q hq => hdata q fun he => hq (he ▸ hmine)
        · exact hkend₁
        · exact hkdata₁
        have h1 : q ≠ e.page := fun he => hq (he ▸ hmine)
        have h2 : q ≠ pde.page := fun he => hq (.inr (.inr (by rw [he, hut]; rfl)))
        rw [setEntry_table_of_ne h2, htab q h1]
      · by_cases hq : q = e.page
        · subst hq
          exact .inr ⟨Function.update_self .., _, _, hu⟩
        · exact .inl ⟨Function.update_of_ne hq _ _, hdata q hq⟩
      · rw [pte_setEntry hT ha32 hva hut]
        split
        · rfl
        · unfold Mem.pte Mem.entry
          have hdne : d ≠ e.page := fun hde => by rw [← hde, hs.tree.dir_use] at hu; cases hu
          rw [htab d hdne]
          cases hdv : m.table d (PDX va) with
          | none => rfl
          | some pde' =>
            have hu' := hs.tree.table_use (PDX_lt va) hdv
            rw [Option.bind_some, Option.bind_some,
              htab _ fun he => by rw [he, hu] at hu'; cases hu']

/-- The loop of `deallocuvm` over any user addresses. -/
theorem unmap_all (l : List Nat) (hl : ∀ a ∈ l, a < KERNBASE) : ∀ {m : Mem} {use : Nat → Use},
    Space m use d → ∃ m' use', l.foldlM (fun m a => m.unmap d a) m = .ok m' ∧ Space m' use' d ∧
      Shrinks d m use m' use' ∧ ∀ va < 2 ^ 32,
        m'.pte d va = if ∃ a ∈ l, va / PGSIZE = a / PGSIZE then none else m.pte d va := by
  induction l with
  | nil => exact fun hs => ⟨_, _, rfl, hs, .refl, fun _ _ => by simp⟩
  | cons a l ih =>
    intro m use hs
    obtain ⟨m₁, use₁, hm₁, hs₁, hk₁, hp₁⟩ := unmap_ok hs (hl a List.mem_cons_self)
    obtain ⟨m₂, use₂, hm₂, hs₂, hk₂, hp₂⟩ := ih (fun b hb => hl b (List.mem_cons_of_mem a hb)) hs₁
    refine ⟨m₂, use₂, ?_, hs₂, hk₁.trans hk₂, fun va hva => ?_⟩
    · rw [List.foldlM_cons, hm₁]; exact hm₂
    · rw [hp₂ va hva, hp₁ va hva]
      simp only [List.mem_cons, exists_eq_or_imp]
      by_cases h1 : ∃ b ∈ l, va / PGSIZE = b / PGSIZE <;>
        by_cases h2 : va / PGSIZE = a / PGSIZE <;> simp [h1, h2]

/-- **Shrinking**: the user pages from the new size up to the old one are gone. -/
theorem deallocuvm_ok (hs : Space m use d) {oldsz newsz : Nat} (hold : oldsz ≤ KERNBASE)
    (hlt : newsz < oldsz) : ∃ m' use', m.deallocuvm d oldsz newsz = .ok (m', newsz) ∧
      Space m' use' d ∧ Shrinks d m use m' use' ∧ ∀ va < 2 ^ 32, m'.pte d va =
        if PGROUNDUP newsz ≤ va ∧ va < PGROUNDUP oldsz then none else m.pte d va := by
  have hpages : ∀ a ∈ Mem.pages (PGROUNDUP newsz) oldsz, a < KERNBASE := fun a ha => by
    have := (pages_lt (PGROUNDUP_mod newsz) ha).2.1
    omega
  obtain ⟨m', use', hm, hs', hk, hp⟩ := unmap_all _ hpages hs
  refine ⟨m', use', ?_, hs', hk, fun va hva => ?_⟩
  · rw [Mem.deallocuvm, if_neg (by omega), hm]; rfl
  · rw [hp va hva]
    exact if_congr (pages_page (PGROUNDUP_mod newsz)) rfl rfl

/-! ## Growing -/

theorem mappages_page (ha : a % PGSIZE = 0) (hlt : a < KERNBASE) (pa : Nat) (perm : Perm) :
    m.mappages d a PGSIZE pa perm = Mem.mapLoop d perm 1 m a pa := by
  unfold KERNBASE at hlt
  unfold Mem.mappages PGROUNDDOWN PGSIZE at *
  have h1 : (a + 4096 - 1) % 2 ^ 32 / 4096 - a / 4096 + 1 = 1 := by omega
  have h2 : a / 4096 * 4096 = a := by omega
  rw [h1, h2]

/-- The frame `mem`, held for `d`, is mapped at `a`, or there is no memory for a
page table. -/
theorem mappages_ok (hs : Space m use d) {mem : Nat} (perm : Perm) (ha : a % PGSIZE = 0)
    (hlt : a < KERNBASE) (hn : m.pte d a = none) (hmem : use mem = .held d) :
    ∃ m' use' ok, m.mappages d a PGSIZE (mem * PGSIZE) perm = .ok (m', ok) ∧ Space m' use' d ∧
      Edit d m use m' use' ∧
      (∀ p, use p ≠ .free → (p ≠ mem → use' p = use p) ∧ m'.data p = m.data p) ∧
      (∀ p, use' p = .held d → use p = .held d) ∧
      (ok = false → use' mem = .held d) ∧ (ok = true → use' mem = .page d (PDX a) (PTX a)) ∧
      ∀ va < 2 ^ 32, m'.pte d va =
        if ok ∧ va / PGSIZE = a / PGSIZE then some ⟨mem, perm⟩ else m.pte d va := by
  have ha32 : a < 2 ^ 32 := by unfold KERNBASE at hlt; omega
  rw [mappages_page ha hlt, Mem.mapLoop]
  generalize hw : m.walkpgdir d a true = r
  obtain ⟨m₁, r⟩ := r
  obtain ⟨use₁, hs₁, hg, hheld, hentry, ht⟩ := walkpgdir_alloc hs hw
  have hmem₁ : use₁ mem = .held d := (hg.keep mem (by rw [hmem]; simp)).1.trans hmem
  have hpte : ∀ va, m₁.pte d va = m.pte d va := fun va => hentry _ _ (PDX_lt va)
  cases r with
  | none =>
    exact ⟨m₁, use₁, false, rfl, hs₁, hg.toEdit, fun p hp => ⟨fun _ => (hg.keep p hp).1,
      (hg.keep p hp).2⟩, hheld, fun _ => hmem₁, fun h => (by cases h),
      fun va _ => by simpa using hpte va⟩
  | some t =>
    have hut : use₁ t = .table d (PDX a) := ht t rfl
    have htn : m₁.table t (PTX a) = none := by
      obtain ⟨-, hmap⟩ := (hs₁.tree.table _ t).mp hut
      obtain ⟨pde, hpde, rfl⟩ := Option.map_eq_some_iff.mp hmap
      have := hpte a
      rw [hn] at this
      unfold Mem.pte Mem.entry at this
      rwa [hpde, Option.bind_some] at this
    have hdiv : mem * PGSIZE / PGSIZE = mem := Nat.mul_div_cancel _ (by decide)
    have hne : ∀ q u, u ≠ .held d → u ≠ .page d (PDX a) (PTX a) →
        (Function.update use₁ mem (.page d (PDX a) (PTX a)) q = u ↔ use₁ q = u) := by
      intro q u h1 h2
      by_cases hq : q = mem
      · subst hq
        rw [Function.update_self, hmem₁]
        exact iff_of_false (Ne.symm h2) (Ne.symm h1)
      · rw [Function.update_of_ne hq]
    dsimp only
    rw [htn, hdiv]
    refine ⟨m₁.setEntry t (PTX a) (some ⟨mem, perm⟩),
      Function.update use₁ mem (.page d (PDX a) (PTX a)), true, rfl, ⟨?_, ?_⟩, ?_,
      fun q hq => ⟨fun hqm => ?_, (hg.keep q hq).2⟩, fun q hq => ?_, fun h => (by cases h), fun _ => Function.update_self .., fun va hva => ?_⟩
    · exact (hs₁.frames.retag (by rw [hmem₁]; simp) (by rw [hmem₁]; simp) (by simp)).congr rfl rfl
    · refine hs₁.tree.setEntry hut (fun q => hne q _ (by simp) (by simp))
        (fun q i' => hne q _ (by simp) (by simp)) (fun q i' j' => ?_) fun x h => ?_
      · split
        · next hij =>
          obtain ⟨rfl, rfl⟩ := hij
          by_cases hq : q = mem
          · subst hq
            rw [Function.update_self]
            exact iff_of_true rfl ⟨PDX_user hlt, PTX_lt a, rfl⟩
          · rw [Function.update_of_ne hq]
            refine iff_of_false (fun he => ?_) fun he => hq (Option.some.inj he.2.2).symm
            have hp := ((hs₁.tree.page _ _ q).mp he).2.2
            change (m₁.pte d a).map Pte.page = some q at hp
            rw [hpte, hn] at hp
            cases hp
        · next hij =>
          refine hne q _ (by simp) fun he => hij ?_
          cases he
          exact ⟨rfl, rfl⟩
      · have := PDX_user hlt
        omega
    · refine hg.toEdit.trans (.single ?_ ?_ (.inr (.inl hmem₁)) (.inr (.inr rfl)) (fun q hq => ?_)
        fun q _ => ?_)
      · rfl
      · rfl
      · exact setEntry_table_of_ne (fun he => hq (.inr (.inr (by rw [he, hut]; rfl)))) _
      · rfl
    · rw [Function.update_of_ne hqm]
      exact (hg.keep q hq).1
    · by_cases hqm : q = mem
      · subst hqm; rw [Function.update_self] at hq; cases hq
      · rw [Function.update_of_ne hqm] at hq; exact hheld q hq
    · rw [pte_setEntry hs₁.tree ha32 hva hut, hpte]
      simp

/-- A held frame is given back. -/
theorem kfree_held (hs : Space m use d) {mem : Nat} (hmem : use mem = .held d) :
    ∃ m', m.kfree mem = .ok m' ∧ Space m' (Function.update use mem .free) d ∧
      Edit d m use m' (Function.update use mem .free) ∧ (∀ va, m'.pte d va = m.pte d va) ∧
      ∀ p, p ≠ mem → m'.data p = m.data p := by
  obtain ⟨m', hk, hF, hkend, hkdata, htab, hdata⟩ :=
    kfree_ok hs.frames (p := mem) (by rw [hmem]; simp) (by rw [hmem]; simp)
  have hne : ∀ q, (use q).tree = some d → q ≠ mem := fun q hq he => by
    rw [he, hmem] at hq; cases hq
  have hT : Tree m' (Function.update use mem .free) d :=
    hs.tree.retag (by rw [hmem]; simp [Use.tree]) (by simp [Use.tree]) fun q hq => htab q (hne q hq)
  refine ⟨m', hk, ⟨hF, hT⟩, ?_, fun va => ?_, hdata⟩
  · have hmine : (use mem).Mine d := .inr (.inl hmem)
    refine .single hkend hkdata hmine (.inl rfl) (fun q hq => htab q ?_) fun q hq => hdata q ?_
    · exact fun he => hq (he ▸ hmine)
    · exact fun he => hq (he ▸ hmine)
  · unfold Mem.pte Mem.entry
    rw [htab d (hne d (by rw [hs.tree.dir_use]; rfl))]
    cases hd : m.table d (PDX va) with
    | none => rfl
    | some e =>
      rw [Option.bind_some, Option.bind_some,
        htab _ (hne _ (by rw [hs.tree.table_use (PDX_lt va) hd]; rfl))]

/-- A frame is allocated for `d` and cleared. -/
theorem kalloc_clear (hs : Space m use d) {mem : Nat} (h : m.kalloc = (m', some mem)) :
    Space (m'.clear mem) (Function.update use mem (.held d)) d ∧ use mem = .free ∧
      Grows d m use (m'.clear mem) (Function.update use mem (.held d)) ∧
      ∀ va, (m'.clear mem).pte d va = m.pte d va := by
  obtain ⟨hm, hfree, hF⟩ := kalloc_some hs.frames h d
  have hne : ∀ q, use q ≠ .free → q ≠ mem := fun q hq he => hq (he ▸ hfree)
  have htab : ∀ q, q ≠ mem → (m'.clear mem).table q = m.table q := fun q hq => by
    rw [hm]; exact Function.update_of_ne hq _ _
  have hdata : ∀ q, q ≠ mem → (m'.clear mem).data q = m.data q := fun q hq => by
    rw [hm]; exact Function.update_of_ne hq _ _
  have hnt : ∀ q, (use q).tree = some d → q ≠ mem := fun q hq =>
    hne q fun he => by rw [he] at hq; cases hq
  have hmine : (use mem).Mine d := .inl hfree
  refine ⟨⟨hF.congr rfl rfl, hs.tree.retag (by rw [hfree]; simp [Use.tree]) (by simp [Use.tree])
    fun q hq => htab q (hnt q hq)⟩, hfree, ⟨?_, fun q hq => ?_⟩, fun va => ?_⟩
  · refine .single (by rw [hm]; rfl) (by rw [hm]; rfl) hmine (.inr (.inl rfl)) (fun q hq => htab q ?_)
      fun q hq => hdata q ?_
    · exact fun he => hq (he ▸ hmine)
    · exact fun he => hq (he ▸ hmine)
  · exact ⟨Function.update_of_ne (hne q hq) _ _, hdata q (hne q hq)⟩
  · unfold Mem.pte Mem.entry
    rw [htab d (hnt d (by rw [hs.tree.dir_use]; rfl))]
    cases hd : m.table d (PDX va) with
    | none => rfl
    | some e =>
      rw [Option.bind_some, Option.bind_some,
        htab _ (hnt _ (by rw [hs.tree.table_use (PDX_lt va) hd]; rfl))]

/-- The addresses in the pages that growing from `oldsz` to `newsz` adds. -/
def Added (oldsz newsz va : Nat) : Prop := PGROUNDUP oldsz ≤ va ∧ va < PGROUNDUP newsz

/-- What growing from `m₀` may end in: all pages are there, or none. -/
def GrownTo (d : Nat) (m₀ m' : Mem) (oldsz newsz r : Nat) : Prop :=
  (r = newsz ∧ ∀ va < 2 ^ 32, (Added oldsz newsz va → (m'.pte d va).isSome) ∧
    (¬ Added oldsz newsz va → m'.pte d va = m₀.pte d va)) ∨
  (r = 0 ∧ ∀ va < 2 ^ 32, m'.pte d va = m₀.pte d va)

/-- A failing `allocuvm` unmaps what it mapped. -/
theorem undo_ok {m₀ : Mem} {use₀ : Nat → Use} {oldsz newsz : Nat} (h₀ : Space m₀ use₀ d)
    (hs : Space m use d) (hg : Grows d m₀ use₀ m use) (hnew : newsz < KERNBASE)
    (hlt : oldsz < newsz) (hnone : ∀ va < KERNBASE, Added oldsz newsz va → m₀.pte d va = none)
    (hpte : ∀ va < 2 ^ 32, ¬ Added oldsz newsz va → m.pte d va = m₀.pte d va) :
    ∃ m' use', m.deallocuvm d newsz oldsz = .ok (m', oldsz) ∧ Space m' use' d ∧
      Grows d m₀ use₀ m' use' ∧ (∀ p, use p = .held d → use' p = .held d) ∧
      (∀ p, use' p = .held d → use p = .held d) ∧ ∀ va < 2 ^ 32, m'.pte d va = m₀.pte d va := by
  obtain ⟨m', use', hm, hs', hk, hp⟩ := deallocuvm_ok hs (by omega : newsz ≤ KERNBASE) hlt
  have hround : PGROUNDUP newsz ≤ KERNBASE := by
    unfold KERNBASE at *
    unfold PGROUNDUP PGSIZE
    omega
  have hback : ∀ va < 2 ^ 32, m'.pte d va = m₀.pte d va := by
    intro va hva
    rw [hp va hva]
    split
    · next hin => exact (hnone va (by omega) hin).symm
    · next hout => exact hpte va hva hout
  refine ⟨m', use', hm, hs', ?_, fun p hu => ?_, fun p hu => ?_, hback⟩
  · refine hg.undo hk h₀ hs' fun va hva => hback va ?_
    unfold KERNBASE at hva
    omega
  · rcases hk.keep p with ⟨h1, -⟩ | ⟨-, i, j, h1⟩
    · exact h1.trans hu
    · rw [hu] at h1; cases h1
  · rcases hk.keep p with ⟨h1, -⟩ | ⟨h1, -⟩
    · exact h1.symm.trans hu
    · rw [h1] at hu; cases hu

/-- The loop of `allocuvm` from address `lo` on. -/
theorem allocLoop_ok {m₀ : Mem} {use₀ : Nat → Use} {oldsz newsz : Nat} (h₀ : Space m₀ use₀ d)
    (hidle₀ : Idle use₀ d) (hnew : newsz < KERNBASE)
    (hnone : ∀ va < KERNBASE, Added oldsz newsz va → m₀.pte d va = none) :
    ∀ (n lo : Nat) (m : Mem) (use : Nat → Use), lo % PGSIZE = 0 → PGROUNDUP oldsz ≤ lo →
      lo + PGSIZE * n = PGROUNDUP newsz → Space m use d → Idle use d → Grows d m₀ use₀ m use →
      (∀ va < 2 ^ 32, PGROUNDUP oldsz ≤ va → va < lo → (m.pte d va).isSome) →
      (∀ va < 2 ^ 32, va < PGROUNDUP oldsz ∨ lo ≤ va → m.pte d va = m₀.pte d va) →
      ∃ m' use' r, Mem.allocLoop d oldsz newsz (List.range' lo n PGSIZE) m = .ok (m', r) ∧
        Space m' use' d ∧ Idle use' d ∧ Grows d m₀ use₀ m' use' ∧ GrownTo d m₀ m' oldsz newsz r := by
  intro n
  induction n with
  | zero =>
    intro lo m use _ _ hlo hs hidle hg hin hout
    rw [Nat.mul_zero, Nat.add_zero] at hlo
    subst hlo
    refine ⟨m, use, newsz, rfl, hs, hidle, hg, .inl ⟨rfl, fun va hva => ⟨fun ha => ?_, fun ha => ?_⟩⟩⟩
    · exact hin va hva ha.1 ha.2
    · refine hout va hva ?_
      unfold Added at ha
      omega
  | succ n ih =>
    intro lo m use hmod hle hlo hs hidle hg hin hout
    have hround : PGROUNDUP newsz ≤ KERNBASE := by
      unfold KERNBASE at *
      unfold PGROUNDUP PGSIZE
      omega
    have hlt : lo < newsz ∧ oldsz < newsz ∧ lo < KERNBASE ∧ lo < PGROUNDUP newsz := by
      unfold PGROUNDUP PGSIZE KERNBASE at *
      omega
    obtain ⟨hlonew, holdnew, hloK, hloR⟩ := hlt
    have hlo32 : lo < 2 ^ 32 := by unfold KERNBASE at hloK; omega
    have hlon : m.pte d lo = none := by
      rw [hout lo hlo32 (.inr (Nat.le_refl lo))]
      exact hnone lo hloK ⟨hle, hloR⟩
    have hout' : ∀ va < 2 ^ 32, ¬ Added oldsz newsz va → m.pte d va = m₀.pte d va := by
      intro va hva ha
      refine hout va hva ?_
      unfold Added at ha
      omega
    rw [List.range'_succ, Mem.allocLoop]
    generalize hk : m.kalloc = r
    obtain ⟨m₁, r⟩ := r
    cases r with
    | none =>
      obtain ⟨rfl, -⟩ := kalloc_none hk
      obtain ⟨m', use', hm, hs', hg', -, hheld, hback⟩ :=
        undo_ok h₀ hs hg hnew holdnew hnone hout'
      refine ⟨m', use', 0, ?_, hs', fun p hp => hidle p (hheld p hp), hg', .inr ⟨rfl, hback⟩⟩
      dsimp only
      rw [hm]
      rfl
    | some mem =>
      obtain ⟨hs₁, hfree, hg₁, hpte₁⟩ := kalloc_clear hs hk
      obtain ⟨m₂, use₂, ok, hmap, hs₂, he₂, hkeep₂, hheld₂, hfail, hdone, hpte₂⟩ :=
        mappages_ok hs₁ ⟨true, true⟩ hmod hloK ((hpte₁ lo).trans hlon)
          (Function.update_self ..)
      have hgrow : Grows d m use m₂ use₂ := by
        refine ⟨hg₁.toEdit.trans he₂, fun p hp => ?_⟩
        obtain ⟨h1, h2⟩ := hg₁.keep p hp
        obtain ⟨h3, h4⟩ := hkeep₂ p (h1 ▸ hp)
        exact ⟨(h3 fun he => hp (he ▸ hfree)).trans h1, h4.trans h2⟩
      have hheldmem : ∀ p, use₂ p = .held d → p = mem := by
        intro p hp
        by_contra hne
        have h1 := hheld₂ p hp
        rw [Function.update_of_ne hne] at h1
        exact hidle p h1
      dsimp only
      rw [hmap]
      cases ok with
      | true =>
        have hidle₂ : Idle use₂ d := fun p hp => by
          rw [hheldmem p hp, hdone rfl] at hp; cases hp
        have hpte : ∀ va < 2 ^ 32, m₂.pte d va =
            if va / PGSIZE = lo / PGSIZE then some ⟨mem, ⟨true, true⟩⟩ else m.pte d va := by
          intro va hva
          rw [hpte₂ va hva, hpte₁]
          simp
        refine ih (lo + PGSIZE) m₂ use₂ ?_ ?_ ?_ hs₂ hidle₂ (hg.trans hgrow)
          (fun va hva h1 h2 => ?_) fun va hva h1 => ?_
        · unfold PGSIZE at *; omega
        · omega
        · rw [Nat.mul_succ] at hlo; omega
        · rw [hpte va hva]
          split
          · rfl
          · next hne =>
            refine hin va hva h1 ?_
            unfold PGSIZE at *
            omega
        · rw [hpte va hva, if_neg, hout va hva]
          · omega
          · unfold PGSIZE at *
            omega
      | false =>
        have hout₂ : ∀ va < 2 ^ 32, ¬ Added oldsz newsz va → m₂.pte d va = m₀.pte d va := by
          intro va hva ha
          rw [hpte₂ va hva, hpte₁, ← hout' va hva ha]
          simp
        obtain ⟨m₃, use₃, hm₃, hs₃, hg₃, hstay, hheld₃, hback⟩ :=
          undo_ok h₀ hs₂ (hg.trans hgrow) hnew holdnew hnone hout₂
        have hmem₃ : use₃ mem = .held d := hstay mem (hfail rfl)
        obtain ⟨m₄, hm₄, hs₄, he₄, hpte₄, hdata₄⟩ := kfree_held hs₃ hmem₃
        refine ⟨m₄, _, 0, ?_, hs₄, fun p hp => ?_, ⟨hg₃.toEdit.trans he₄, fun p hp => ?_⟩,
          .inr ⟨rfl, fun va hva => (hpte₄ va).trans (hback va hva)⟩⟩
        · simp only [ok_bind, hm₃, hm₄, Bool.false_eq_true, if_false]
          rfl
        · by_cases hpm : p = mem
          · subst hpm; rw [Function.update_self] at hp; cases hp
          · rw [Function.update_of_ne hpm] at hp
            exact hpm (hheldmem p (hheld₃ p hp))
        · obtain ⟨h1, h2⟩ := hg₃.keep p hp
          have hpm : p ≠ mem := fun he => hidle₀ p (h1.symm.trans (he ▸ hmem₃))
          rw [Function.update_of_ne hpm]
          exact ⟨h1, (hdata₄ p hpm).trans h2⟩

/-- **Growing**: `allocuvm` maps the pages up to the new size, or changes no mapping. -/
theorem allocuvm_ok (hs : Space m use d) (hidle : Idle use d) {oldsz newsz : Nat}
    (hnew : newsz < KERNBASE) (hle : oldsz ≤ newsz)
    (hnone : ∀ va < KERNBASE, Added oldsz newsz va → m.pte d va = none) :
    ∃ m' use' r, m.allocuvm d oldsz newsz = .ok (m', r) ∧ Space m' use' d ∧ Idle use' d ∧
      Grows d m use m' use' ∧ GrownTo d m m' oldsz newsz r := by
  rw [Mem.allocuvm, if_neg (by omega), if_neg (by omega)]
  have hn : PGROUNDUP oldsz + PGSIZE * ((newsz - PGROUNDUP oldsz + PGSIZE - 1) / PGSIZE) =
      PGROUNDUP newsz := by
    unfold PGROUNDUP PGSIZE
    omega
  refine allocLoop_ok hs hidle hnew hnone _ _ m use (PGROUNDUP_mod oldsz) (Nat.le_refl _) hn hs hidle
    .refl (fun va _ h1 h2 => ?_) fun _ _ _ => rfl
  omega

/-! ## `growproc` -/

/-- A directory made by the functions of `vm.c`. -/
def Built (m : Mem) (d : Nat) : Prop := ∃ use, Space m use d ∧ Idle use d

/-- The user pages that are present are those below the size. -/
def Sized (m : Mem) (d sz : Nat) : Prop :=
  ∀ va < KERNBASE, (m.pte d va).isSome ↔ va < PGROUNDUP sz

/-- The page of an address is mapped as before and holds the same bytes. -/
def SamePage (m m' : Mem) (d va : Nat) : Prop :=
  m'.pte d va = m.pte d va ∧ ∀ e, m.pte d va = some e → m'.data e.page = m.data e.page

/-- `growproc(n)` either grows the process by exactly `n` or has no effect. -/
def GrowsExactly (m : Mem) (d sz : Nat) (n : Int) : Prop :=
  ∃ m' sz' ok, m.growproc d sz n = .ok (m', sz', ok) ∧
    (ok = true → (sz' : Int) = sz + n ∧ Sized m' d sz' ∧ ∀ va < min sz sz', SamePage m m' d va) ∧
    (ok = false → sz' = sz ∧ ∀ va < KERNBASE, SamePage m m' d va)

theorem PGROUNDUP_le {sz : Nat} (h : sz < KERNBASE) : sz ≤ PGROUNDUP sz ∧ PGROUNDUP sz ≤ KERNBASE := by
  unfold KERNBASE at *
  unfold PGROUNDUP PGSIZE
  omega

theorem PGROUNDUP_mono {a b : Nat} (h : a ≤ b) : PGROUNDUP a ≤ PGROUNDUP b := by
  unfold PGROUNDUP PGSIZE
  omega

/-- A page in use that stays mapped keeps its bytes while the directory grows. -/
theorem Grows.samePage (h : Grows d m use m' use') (hs : Space m use d) {va : Nat}
    (hva : va < KERNBASE) (hp : m'.pte d va = m.pte d va) : SamePage m m' d va := by
  refine ⟨hp, fun e he => (h.keep e.page ?_).2⟩
  rw [hs.tree.pte_use hva he]
  simp

/-- A page that stays mapped keeps its bytes while the directory shrinks. -/
theorem Shrinks.samePage (h : Shrinks d m use m' use') (hs' : Space m' use' d) {va : Nat}
    (hva : va < KERNBASE) (hp : m'.pte d va = m.pte d va) : SamePage m m' d va := by
  refine ⟨hp, fun e he => ?_⟩
  rcases h.keep e.page with ⟨-, h1⟩ | ⟨h1, -⟩
  · exact h1
  · rw [hs'.tree.pte_use hva (hp.trans he)] at h1
    cases h1

theorem SamePage.refl (m : Mem) (d va : Nat) : SamePage m m d va := ⟨rfl, fun _ _ => rfl⟩

/-- Growing: exact, whether or not there is memory. -/
theorem growproc_pos (hb : Built m d) {sz : Nat} (hsz : sz < KERNBASE) (hsized : Sized m d sz)
    {n : Int} (hn : 0 < n) (hn' : n < 2 ^ 31) : GrowsExactly m d sz n := by
  obtain ⟨use, hs, hidle⟩ := hb
  have hK : KERNBASE = 2147483648 := rfl
  have hnew : ((sz + n) % 2 ^ 32).toNat = sz + n.toNat := by omega
  unfold GrowsExactly Mem.growproc
  simp only [if_pos hn, hnew]
  by_cases hbig : KERNBASE ≤ sz + n.toNat
  · refine ⟨m, sz, false, ?_, fun h => (by cases h), fun _ => ⟨rfl, fun va _ => .refl m d va⟩⟩
    rw [Mem.allocuvm, if_pos hbig]
    rfl
  · have hround := PGROUNDUP_le hsz
    have hround' := PGROUNDUP_le (show sz + n.toNat < KERNBASE by omega)
    have hnone : ∀ va < KERNBASE, Added sz (sz + n.toNat) va → m.pte d va = none := by
      intro va hva ha
      have hnot : ¬ (m.pte d va).isSome := fun h => by
        have := (hsized va hva).mp h
        unfold Added at ha
        omega
      simpa using hnot
    obtain ⟨m', use', r, hm, hs', -, hg, hgrown⟩ :=
      allocuvm_ok hs hidle (by omega : sz + n.toNat < KERNBASE) (by omega) hnone
    rw [hm]
    rcases hgrown with ⟨rfl, hp⟩ | ⟨rfl, hp⟩
    · refine ⟨m', sz + n.toNat, true, ?_, fun _ => ⟨by omega, fun va hva => ?_, fun va hva => ?_⟩,
        fun h => (by cases h)⟩
      · rw [ok_bind]
        dsimp only
        rw [if_neg (by omega)]
        rfl
      · obtain ⟨h1, h2⟩ := hp va (by omega)
        have hmono := PGROUNDUP_mono (Nat.le_add_right sz n.toNat)
        by_cases ha : Added sz (sz + n.toNat) va
        · exact iff_of_true (h1 ha) ha.2
        · rw [h2 ha, hsized va hva]
          unfold Added at ha
          omega
      · refine hg.samePage hs (by omega) ((hp va (by omega)).2 fun ha => ?_)
        unfold Added at ha
        omega
    · refine ⟨m', sz, false, rfl, fun h => (by cases h), fun _ => ⟨rfl, fun va hva => ?_⟩⟩
      exact hg.samePage hs hva (hp va (by omega))

/-- Shrinking to a size above 0: exact. -/
theorem growproc_neg (hb : Built m d) {sz : Nat} (hsz : sz < KERNBASE) (hsized : Sized m d sz)
    {n : Int} (hn : n < 0) (hpos : 0 < (sz : Int) + n) : GrowsExactly m d sz n := by
  obtain ⟨use, hs, hidle⟩ := hb
  have hK : KERNBASE = 2147483648 := rfl
  obtain ⟨newsz, hnewsz⟩ : ∃ newsz : Nat, (newsz : Int) = sz + n := ⟨(sz + n).toNat, by omega⟩
  have hnew : ((sz + n) % 2 ^ 32).toNat = newsz := by omega
  obtain ⟨m', use', hm, hs', hk, hp⟩ :=
    deallocuvm_ok hs (by omega : sz ≤ KERNBASE) (by omega : newsz < sz)
  have hround := PGROUNDUP_le (show newsz < KERNBASE by omega)
  have hmono := PGROUNDUP_mono (by omega : newsz ≤ sz)
  refine ⟨m', newsz, true, ?_, fun _ => ⟨hnewsz, fun va hva => ?_, fun va hva => ?_⟩,
    fun h => (by cases h)⟩
  · simp only [Mem.growproc, if_neg (by omega : ¬ n > 0), if_pos hn, hnew, hm, ok_bind]
    rw [if_neg (by omega)]
    rfl
  · rw [hp va (by omega)]
    split
    · next hin => exact iff_of_false (by simp) (by omega)
    · next hout =>
      rw [hsized va hva]
      omega
  · refine hk.samePage hs' (by omega) ?_
    rw [hp va (by omega), if_neg (by omega)]

/-- **Growing and shrinking**: `growproc(n)` is exact or has no effect if and only if
the size it asks for is positive, or the process has no memory. -/
theorem growproc_exact_iff {m : Mem} {d sz : Nat} (hb : Built m d) (hsz : sz < KERNBASE)
    (hsized : Sized m d sz) {n : Int} (hn : -2 ^ 31 ≤ n ∧ n < 2 ^ 31) :
    GrowsExactly m d sz n ↔ 0 < (sz : Int) + n ∨ sz = 0 := by
  have hK : KERNBASE = 2147483648 := rfl
  have hround := PGROUNDUP_le hsz
  constructor
  · rintro ⟨m', sz', ok, hm, hdone, hfail⟩
    by_contra hc
    obtain ⟨hle, h0⟩ := not_or.mp hc
    have hneg : n < 0 := by omega
    simp only [Mem.growproc, if_neg (by omega : ¬ n > 0), if_pos hneg] at hm
    by_cases hz : (sz : Int) + n = 0
    · -- the new size 0 is taken for an error
      have hnew : ((sz + n) % 2 ^ 32).toNat = 0 := by omega
      obtain ⟨use, hs, -⟩ := hb
      obtain ⟨m₁, use₁, hm₁, -, -, hp⟩ :=
        deallocuvm_ok hs (by omega : sz ≤ KERNBASE) (by omega : 0 < sz)
      rw [hnew, hm₁, ok_bind] at hm
      cases hm
      have hgone := ((hfail rfl).2 0 (by omega)).1
      have hthere := (hsized 0 (by omega)).mpr (by omega)
      rw [hp 0 (by omega), if_pos ⟨by decide, by omega⟩] at hgone
      rw [← hgone] at hthere
      cases hthere
    · -- the wrapped size is above the old one
      rw [Mem.deallocuvm, if_pos (by omega), ok_bind] at hm
      dsimp only at hm
      rw [if_neg h0] at hm
      cases hm
      have := (hdone rfl).1
      omega
  · rintro (hpos | rfl)
    · rcases lt_trichotomy n 0 with hneg | rfl | hpos'
      · exact growproc_neg hb hsz hsized hneg hpos
      · exact ⟨m, sz, true, rfl, fun _ => ⟨by omega, hsized, fun va _ => .refl m d va⟩,
          fun h => (by cases h)⟩
      · exact growproc_pos hb hsz hsized hpos' hn.2
    · rcases lt_trichotomy n 0 with hneg | rfl | hpos'
      · refine ⟨m, 0, false, ?_, fun h => (by cases h), fun _ => ⟨rfl, fun va _ => .refl m d va⟩⟩
        simp only [Mem.growproc, if_neg (by omega : ¬ n > 0), if_pos hneg, Mem.deallocuvm,
          if_pos (Nat.zero_le _), ok_bind, if_true]
        rfl
      · exact ⟨m, 0, true, rfl, fun _ => ⟨by omega, hsized, fun va _ => .refl m d va⟩,
          fun h => (by cases h)⟩
      · exact growproc_pos hb hsz hsized hpos' hn.2

end

/-! ## A process with one page -/

/-- Frame 2 is a directory, frame 3 its only page table, frame 4 the page at
address 0, and two frames are free. -/
def onePage : Mem where
  kend := 1
  kdata := EXTMEM
  free := [5, 6]
  table t i :=
    if t = 2 ∧ i = 0 then some ⟨3, ⟨true, true⟩⟩
    else if t = 3 ∧ i = 0 then some ⟨4, ⟨true, true⟩⟩
    else none
  data _ _ := 7

def onePage_use (p : Nat) : Use :=
  if p = 2 then .dir 2 else if p = 3 then .table 2 0 else if p = 4 then .page 2 0 0
  else if p = 5 ∨ p = 6 then .free else .other

theorem onePage_entry (i j : Nat) :
    onePage.entry 2 i j = if i = 0 ∧ j = 0 then some ⟨4, ⟨true, true⟩⟩ else none := by
  unfold Mem.entry onePage
  by_cases hi : i = 0 <;> by_cases hj : j = 0 <;> simp [hi, hj]

theorem onePage_built : Built onePage 2 := by
  refine ⟨onePage_use, ⟨⟨by decide, fun p => ?_, fun p hp => ?_, by decide⟩, fun p => ?_,
    fun i p => ?_, fun i j p => ?_, fun i j e h1 _ _ he => ?_⟩, fun p hp => ?_⟩
  · unfold onePage onePage_use
    simp only [List.mem_cons, List.not_mem_nil, or_false]
    grind
  · unfold onePage_use at hp
    change 1 ≤ p ∧ p < 57344
    grind
  · unfold onePage_use
    grind
  · unfold onePage onePage_use
    grind
  · rw [onePage_entry]
    unfold onePage_use
    grind
  · rw [onePage_entry, if_neg (by omega)] at he
    cases he
  · unfold onePage_use at hp
    grind

theorem onePage_sized : Sized onePage 2 4096 := by
  intro va hva
  have hround : PGROUNDUP 4096 = 4096 := by decide
  unfold KERNBASE at hva
  unfold Mem.pte
  rw [onePage_entry, hround]
  unfold PDX PTX
  split
  · next h => exact iff_of_true rfl (by omega)
  · next h => exact iff_of_false (by simp) (by omega)

theorem growproc_exact_iff_onePage : GrowsExactly onePage 2 4096 1 ∧
    (GrowsExactly onePage 2 4096 1 ↔ 0 < ((4096 : Nat) : Int) + 1 ∨ 4096 = 0) := by
  have h := growproc_exact_iff onePage_built (by decide) onePage_sized
    (show -2 ^ 31 ≤ (1 : Int) ∧ (1 : Int) < 2 ^ 31 by decide)
  exact ⟨h.mpr (.inl (by decide)), h⟩

/-- `sbrk(-4096)` fails and has unmapped the page; `sbrk(-4097)` succeeds and has done
nothing. -/
theorem growproc_inexact :
    (∃ m', onePage.growproc 2 4096 (-4096) = .ok (m', 4096, false) ∧
      (onePage.pte 2 0).isSome ∧ m'.pte 2 0 = none) ∧
    onePage.growproc 2 4096 (-4097) = .ok (onePage, 4096, true) ∧
    ¬ GrowsExactly onePage 2 4096 (-4096) ∧ ¬ GrowsExactly onePage 2 4096 (-4097) := by
  refine ⟨⟨_, rfl, rfl, rfl⟩, rfl, fun ⟨m', sz', ok, hm, _, hfail⟩ => ?_,
    fun ⟨m', sz', ok, hm, hdone, _⟩ => ?_⟩
  · cases hm
    have hgone := ((hfail rfl).2 0 (by decide)).1
    cases hgone
  · cases hm
    have hsize := (hdone rfl).1
    cases hsize

end Xv6.Vm
