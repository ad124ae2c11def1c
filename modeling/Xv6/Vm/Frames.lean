import Xv6.Vm.Model

/-!
# What the frames are used for

A ghost map gives each frame one `Use`. Because it is a function, the directory,
the page tables and the user pages of all directories, and the free list, are
disjoint. `Frames` ties the map to the free list and `Tree` to one directory; an
`Edit` of a directory touches only its own frames and free ones.
-/

namespace Xv6.Vm

/-- The use of a frame. -/
inductive Use where
  | free
  /-- allocated for directory `d`, and not yet part of it -/
  | held (d : Nat)
  | dir (d : Nat)
  | table (d i : Nat)
  | page (d i j : Nat)
  /-- in use elsewhere, or no frame of `kmem` -/
  | other
  deriving DecidableEq

/-- The directory that a frame is part of. -/
def Use.tree : Use → Option Nat
  | .dir d | .table d _ | .page d _ _ => some d
  | _ => none

/-- The frame is free, or belongs to directory `d`. -/
def Use.Mine (d : Nat) (u : Use) : Prop := u = .free ∨ u = .held d ∨ u.tree = some d

/-- The entry of page table `i` of a directory at index `j`. -/
def Mem.entry (m : Mem) (d i j : Nat) : Option Pte := (m.table d i).bind fun e => m.table e.page j

/-- The page-table entry of an address. -/
def Mem.pte (m : Mem) (d va : Nat) : Option Pte := m.entry d (PDX va) (PTX va)

structure Frames (m : Mem) (use : Nat → Use) : Prop where
  nodup : m.free.Nodup
  free : ∀ p, p ∈ m.free ↔ use p = .free
  valid : ∀ p, use p ≠ .other → m.kend ≤ p ∧ p < PHYSTOP / PGSIZE
  kend : 0 < m.kend

structure Tree (m : Mem) (use : Nat → Use) (d : Nat) : Prop where
  dir : ∀ p, use p = .dir d ↔ p = d
  table : ∀ i p, use p = .table d i ↔ i < 1024 ∧ (m.table d i).map Pte.page = some p
  page : ∀ i j p, use p = .page d i j ↔ i < 512 ∧ j < 1024 ∧ (m.entry d i j).map Pte.page = some p
  kernel : ∀ i j e, 512 ≤ i → i < 1024 → j < 1024 → m.entry d i j = some e → e.perm.u = false

/-- Between the two states only frames of `d` and free frames changed. -/
structure Edit (d : Nat) (m : Mem) (use : Nat → Use) (m' : Mem) (use' : Nat → Use) : Prop where
  kend : m'.kend = m.kend
  kdata : m'.kdata = m.kdata
  mine : ∀ p, (use' p).Mine d ↔ (use p).Mine d
  same : ∀ p, ¬ (use p).Mine d → use' p = use p
  table : ∀ p, ¬ (use p).Mine d → m'.table p = m.table p
  data : ∀ p, ¬ (use p).Mine d → m'.data p = m.data p

/-! ## Addresses -/

theorem PDX_lt (va : Nat) : PDX va < 1024 := Nat.mod_lt _ (by decide)

theorem PTX_lt (va : Nat) : PTX va < 1024 := Nat.mod_lt _ (by decide)

/-- The two indices of an address are its page number. -/
theorem index_inj {a b : Nat} (ha : a < 2 ^ 32) (hb : b < 2 ^ 32) :
    PDX a = PDX b ∧ PTX a = PTX b ↔ a / PGSIZE = b / PGSIZE := by
  unfold PDX PTX PGSIZE
  omega

theorem PDX_user {va : Nat} (h : va < KERNBASE) : PDX va < 512 := by
  unfold PDX
  unfold KERNBASE at h
  omega

theorem PDX_kernel {va : Nat} (h : KERNBASE ≤ va) (h' : va < 2 ^ 32) : 512 ≤ PDX va := by
  unfold PDX
  unfold KERNBASE at h
  omega

section
variable {m m' m'' : Mem} {use use' use'' : Nat → Use} {d t p i j : Nat}

/-- The user entries are those of the user addresses. -/
theorem entry_pte (hi : i < 512) (hj : j < 1024) :
    ∃ va < KERNBASE, ∀ (m : Mem) (d : Nat), m.pte d va = m.entry d i j := by
  have h1 : PDX (i * 2 ^ 22 + j * 2 ^ 12) = i := by unfold PDX; omega
  have h2 : PTX (i * 2 ^ 22 + j * 2 ^ 12) = j := by unfold PTX; omega
  refine ⟨i * 2 ^ 22 + j * 2 ^ 12, by unfold KERNBASE; omega, fun m d => ?_⟩
  unfold Mem.pte
  rw [h1, h2]

/-! ## Edits -/

theorem Edit.refl : Edit d m use m use :=
  ⟨rfl, rfl, fun _ => Iff.rfl, fun _ _ => rfl, fun _ _ => rfl, fun _ _ => rfl⟩

theorem Edit.trans (h : Edit d m use m' use') (h' : Edit d m' use' m'' use'') :
    Edit d m use m'' use'' where
  kend := h'.kend.trans h.kend
  kdata := h'.kdata.trans h.kdata
  mine p := (h'.mine p).trans (h.mine p)
  same p hp := (h'.same p fun hm => hp ((h.mine p).mp hm)).trans (h.same p hp)
  table p hp := (h'.table p fun hm => hp ((h.mine p).mp hm)).trans (h.table p hp)
  data p hp := (h'.data p fun hm => hp ((h.mine p).mp hm)).trans (h.data p hp)

/-- A change at one frame of `d` that gives it another use for `d`. -/
theorem Edit.single (hk : m'.kend = m.kend) (hd : m'.kdata = m.kdata) {u : Use}
    (hp : (use p).Mine d) (hu : u.Mine d) (ht : ∀ q, ¬ (use q).Mine d → m'.table q = m.table q)
    (hda : ∀ q, ¬ (use q).Mine d → m'.data q = m.data q) :
    Edit d m use m' (Function.update use p u) := by
  have hne : ∀ q, ¬ (use q).Mine d → q ≠ p := fun q hq hqp => hq (hqp ▸ hp)
  refine ⟨hk, hd, fun q => ?_, fun q hq => Function.update_of_ne (hne q hq) _ _, ht, hda⟩
  by_cases hq : q = p
  · subst hq
    rw [Function.update_self]
    exact iff_of_true hu hp
  · rw [Function.update_of_ne hq]

/-- A change of the contents of frames of `d`. -/
theorem Edit.contents (hk : m'.kend = m.kend) (hd : m'.kdata = m.kdata)
    (ht : ∀ q, ¬ (use q).Mine d → m'.table q = m.table q)
    (hda : ∀ q, ¬ (use q).Mine d → m'.data q = m.data q) : Edit d m use m' use :=
  ⟨hk, hd, fun _ => Iff.rfl, fun _ _ => rfl, ht, hda⟩

/-! ## Trees -/

/-- A tree reads only its directory and its tables. -/
theorem Tree.congr (h : Tree m use d)
    (hu : ∀ p, use' p = use p ∨ (use p).tree ≠ some d ∧ (use' p).tree ≠ some d)
    (ht : ∀ p, (use p).tree = some d → m'.table p = m.table p ∨ ∃ i j, use p = .page d i j) :
    Tree m' use' d := by
  have hiff : ∀ p u, u.tree = some d → (use' p = u ↔ use p = u) := by
    intro p u hud
    rcases hu p with he | ⟨h1, h2⟩
    · rw [he]
    · exact iff_of_false (fun he => h2 (he ▸ hud)) (fun he => h1 (he ▸ hud))
  have hdir : m'.table d = m.table d := by
    have hd : use d = .dir d := (h.dir d).mpr rfl
    rcases ht d (by rw [hd]; rfl) with he | ⟨i, j, he⟩
    · exact he
    · rw [hd] at he; cases he
  have hentry : ∀ i j, i < 1024 → m'.entry d i j = m.entry d i j := by
    intro i j hi
    unfold Mem.entry
    rw [hdir]
    cases hti : m.table d i with
    | none => rfl
    | some e =>
      have hue : use e.page = .table d i := (h.table i e.page).mpr ⟨hi, by rw [hti]; rfl⟩
      rcases ht e.page (by rw [hue]; rfl) with he | ⟨i', j', he⟩
      · simp only [Option.bind_some, he]
      · rw [hue] at he; cases he
  refine ⟨fun p => ?_, fun i p => ?_, fun i j p => ?_, fun i j e h1 h2 h3 he => ?_⟩
  · rw [hiff p _ rfl, h.dir]
  · rw [hiff p _ rfl, h.table, hdir]
  · rw [hiff p _ rfl, h.page]
    constructor
    · rintro ⟨h1, h2, h3⟩; exact ⟨h1, h2, by rw [hentry i j (by omega)]; exact h3⟩
    · rintro ⟨h1, h2, h3⟩; exact ⟨h1, h2, by rw [hentry i j (by omega)] at h3; exact h3⟩
  · rw [hentry i j h2] at he
    exact h.kernel i j e h1 h2 h3 he

/-- The edits of one directory leave the others alone. -/
theorem Tree.foreign {d₀ : Nat} (h : Tree m use d₀) (he : Edit d m use m' use') (hne : d₀ ≠ d) :
    Tree m' use' d₀ := by
  have hmine : ∀ u : Use, u.tree = some d₀ → ¬ u.Mine d := by
    rintro u hu (rfl | rfl | hm)
    · cases hu
    · cases hu
    · exact hne (Option.some.inj (hu.symm.trans hm))
  refine h.congr (fun p => ?_) fun p hp => .inl (he.table p (hmine _ hp))
  by_cases hp : (use p).Mine d
  · have hp' := (he.mine p).mpr hp
    exact .inr ⟨fun ht => hmine _ ht hp, fun ht => hmine _ ht hp'⟩
  · exact .inl (he.same p hp)

theorem Tree.dir_use (h : Tree m use d) : use d = .dir d := (h.dir d).mpr rfl

theorem Tree.table_use (h : Tree m use d) {e : Pte} (hi : i < 1024) (he : m.table d i = some e) :
    use e.page = .table d i := (h.table i e.page).mpr ⟨hi, by rw [he]; rfl⟩

theorem Tree.page_use (h : Tree m use d) {e : Pte} (hi : i < 512) (hj : j < 1024)
    (he : m.entry d i j = some e) : use e.page = .page d i j :=
  (h.page i j e.page).mpr ⟨hi, hj, by rw [he]; rfl⟩

/-- A user page has the use that its address gives it. -/
theorem Tree.pte_use (h : Tree m use d) {va : Nat} {e : Pte} (hva : va < KERNBASE)
    (he : m.pte d va = some e) : use e.page = .page d (PDX va) (PTX va) :=
  h.page_use (PDX_user hva) (PTX_lt va) he

/-! ## Allocation -/

theorem kalloc_none (h : m.kalloc = (m', none)) : m' = m ∧ m.free = [] := by
  unfold Mem.kalloc at h
  split at h
  · next hf => cases h; exact ⟨rfl, hf⟩
  · cases h

theorem kalloc_some (hF : Frames m use) (h : m.kalloc = (m', some p)) (d : Nat) :
    m' = { m with free := m'.free } ∧ use p = .free ∧
      Frames m' (Function.update use p (.held d)) := by
  unfold Mem.kalloc at h
  split at h
  · cases h
  · next q rest hf =>
    simp only [Prod.mk.injEq, Option.some.injEq] at h
    obtain ⟨rfl, rfl⟩ := h
    have hn := hF.nodup
    rw [hf, List.nodup_cons] at hn
    have hp : use q = .free := (hF.free q).mp (by rw [hf]; exact List.mem_cons_self)
    refine ⟨rfl, hp, hn.2, fun x => ?_, fun x hx => ?_, hF.kend⟩
    · by_cases hx : x = q
      · subst hx
        rw [Function.update_self]
        exact iff_of_false hn.1 (by simp)
      · rw [Function.update_of_ne hx, ← hF.free, hf]
        simp [hx]
    · by_cases hxq : x = q
      · subst hxq
        exact hF.valid x (by rw [hp]; simp)
      · rw [Function.update_of_ne hxq] at hx
        exact hF.valid x hx

/-- A frame that is in no tree can change its use without the trees noticing. -/
theorem Tree.retag (h : Tree m use d) {u : Use} (hp : (use p).tree ≠ some d)
    (hu : u.tree ≠ some d) (ht : ∀ q, (use q).tree = some d → m'.table q = m.table q) :
    Tree m' (Function.update use p u) d := by
  refine h.congr (fun q => ?_) fun q hq => .inl (ht q hq)
  by_cases hq : q = p
  · subst hq
    rw [Function.update_self]
    exact .inr ⟨hp, hu⟩
  · exact .inl (Function.update_of_ne hq _ _)

/-- The free list is not what changed. -/
theorem Frames.congr (h : Frames m use) (hf : m'.free = m.free) (hk : m'.kend = m.kend) :
    Frames m' use :=
  ⟨hf ▸ h.nodup, fun p => by rw [hf]; exact h.free p, fun p hp => by rw [hk]; exact h.valid p hp,
    hk ▸ h.kend⟩

/-- A frame passes from one use to another, neither of them being free. -/
theorem Frames.retag (h : Frames m use) {u : Use} (hp : use p ≠ .free) (hp' : use p ≠ .other)
    (hu : u ≠ .free) : Frames m (Function.update use p u) := by
  refine ⟨h.nodup, fun q => ?_, fun q hq => ?_, h.kend⟩
  · by_cases hqp : q = p
    · subst hqp
      rw [Function.update_self]
      exact iff_of_false (fun hm => hp ((h.free q).mp hm)) hu
    · rw [Function.update_of_ne hqp]; exact h.free q
  · by_cases hqp : q = p
    · subst hqp; exact h.valid q hp'
    · rw [Function.update_of_ne hqp] at hq; exact h.valid q hq

/-- `kfree` of a frame in use does not panic, and makes it free. -/
theorem kfree_ok (hF : Frames m use) (hp : use p ≠ .free) (hp' : use p ≠ .other) :
    ∃ m', m.kfree p = .ok m' ∧ Frames m' (Function.update use p .free) ∧
      m'.kend = m.kend ∧ m'.kdata = m.kdata ∧ (∀ q, q ≠ p → m'.table q = m.table q) ∧
      ∀ q, q ≠ p → m'.data q = m.data q := by
  obtain ⟨h1, h2⟩ := hF.valid p hp'
  refine ⟨_, if_neg (by omega), ⟨?_, fun q => ?_, fun q hq => ?_, hF.kend⟩, rfl, rfl,
    fun q hq => Function.update_of_ne hq _ _, fun q hq => Function.update_of_ne hq _ _⟩
  · exact List.nodup_cons.mpr ⟨fun hm => hp ((hF.free p).mp hm), hF.nodup⟩
  · by_cases hqp : q = p
    · subst hqp; simp
    · rw [Function.update_of_ne hqp, ← hF.free]; simp [hqp]
  · by_cases hqp : q = p
    · subst hqp; exact ⟨h1, h2⟩
    · rw [Function.update_of_ne hqp] at hq; exact hF.valid q hq

/-! ## Entries -/

@[simp] theorem setEntry_free (e : Option Pte) : (m.setEntry t i e).free = m.free := rfl
@[simp] theorem setEntry_kend (e : Option Pte) : (m.setEntry t i e).kend = m.kend := rfl
@[simp] theorem setEntry_kdata (e : Option Pte) : (m.setEntry t i e).kdata = m.kdata := rfl
@[simp] theorem setEntry_data (e : Option Pte) : (m.setEntry t i e).data = m.data := rfl

theorem setEntry_table_of_ne {q : Nat} (h : q ≠ t) (e : Option Pte) :
    (m.setEntry t i e).table q = m.table q := Function.update_of_ne h _ _

theorem setEntry_table (e : Option Pte) :
    (m.setEntry t i e).table t = Function.update (m.table t) i e := Function.update_self ..

/-- An entry of a page table of `d` is set. -/
theorem entry_setEntry (h : Tree m use d) (ht : use t = .table d i) {i' j' : Nat} (hi' : i' < 1024)
    (e : Option Pte) :
    (m.setEntry t j e).entry d i' j' = if i' = i ∧ j' = j then e else m.entry d i' j' := by
  have htd : t ≠ d := fun he => by rw [he, h.dir_use] at ht; cases ht
  obtain ⟨hi, hti⟩ := (h.table i t).mp ht
  obtain ⟨pde, hpde, rfl⟩ := Option.map_eq_some_iff.mp hti
  unfold Mem.entry
  rw [setEntry_table_of_ne (Ne.symm htd)]
  by_cases hii : i' = i
  · subst hii
    rw [hpde, Option.bind_some, Option.bind_some, setEntry_table, Function.update_apply]
    simp
  · rw [if_neg (fun hc => hii hc.1)]
    cases hd : m.table d i' with
    | none => rfl
    | some pde' =>
      have hne : pde'.page ≠ pde.page := fun he => by
        have hu := h.table_use hi' hd
        rw [he, ht] at hu
        cases hu
        exact hii rfl
      rw [Option.bind_some, Option.bind_some, setEntry_table_of_ne hne]

/-- The same, by addresses. -/
theorem pte_setEntry (h : Tree m use d) {a va : Nat} (ha : a < 2 ^ 32) (hva : va < 2 ^ 32)
    (ht : use t = .table d (PDX a)) (e : Option Pte) :
    (m.setEntry t (PTX a) e).pte d va = if va / PGSIZE = a / PGSIZE then e else m.pte d va := by
  unfold Mem.pte
  rw [entry_setEntry h ht (PDX_lt va)]
  exact if_congr (index_inj hva ha) rfl rfl

/-- A page table of `d` gets an entry, and the use of the frames follows. -/
theorem Tree.setEntry (h : Tree m use d) (ht : use t = .table d i) {e : Option Pte}
    (hdir : ∀ q, use' q = .dir d ↔ use q = .dir d)
    (htab : ∀ q i', use' q = .table d i' ↔ use q = .table d i')
    (hpage : ∀ q i' j', use' q = .page d i' j' ↔ if i' = i ∧ j' = j
      then i < 512 ∧ j < 1024 ∧ e.map Pte.page = some q else use q = .page d i' j')
    (hker : ∀ x, 512 ≤ i → e = some x → x.perm.u = false) :
    Tree (m.setEntry t j e) use' d := by
  have htd : d ≠ t := fun he => by rw [← he, h.dir_use] at ht; cases ht
  refine ⟨fun q => (hdir q).trans (h.dir q), fun i' q => ?_, fun i' j' q => ?_, fun i' j' x h1 h2 h3 he => ?_⟩
  · rw [htab, h.table, setEntry_table_of_ne htd]
  · rw [hpage]
    split
    · next hij =>
      obtain ⟨rfl, rfl⟩ := hij
      constructor
      · rintro ⟨h1, h2, h3⟩
        exact ⟨h1, h2, by rw [entry_setEntry h ht (by omega), if_pos ⟨rfl, rfl⟩]; exact h3⟩
      · rintro ⟨h1, h2, h3⟩
        rw [entry_setEntry h ht (by omega), if_pos ⟨rfl, rfl⟩] at h3
        exact ⟨h1, h2, h3⟩
    · next hij =>
      rw [h.page]
      constructor
      · rintro ⟨h1, h2, h3⟩
        exact ⟨h1, h2, by rw [entry_setEntry h ht (by omega), if_neg hij]; exact h3⟩
      · rintro ⟨h1, h2, h3⟩
        rw [entry_setEntry h ht (by omega), if_neg hij] at h3
        exact ⟨h1, h2, h3⟩
  · rw [entry_setEntry h ht h2] at he
    split at he
    · next hij => exact hker x (hij.1 ▸ h1) he
    · exact h.kernel i' j' x h1 h2 h3 he

/-! ## Growing and shrinking a directory -/

/-- No frame is held for `d`. -/
def Idle (use : Nat → Use) (d : Nat) : Prop := ∀ p, use p ≠ .held d

/-- A directory of which all frames are accounted for. -/
structure Space (m : Mem) (use : Nat → Use) (d : Nat) : Prop where
  frames : Frames m use
  tree : Tree m use d

/-- Frames were taken from the free list, and those in use are as they were. -/
structure Grows (d : Nat) (m : Mem) (use : Nat → Use) (m' : Mem) (use' : Nat → Use) : Prop
    extends Edit d m use m' use' where
  keep : ∀ p, use p ≠ .free → use' p = use p ∧ m'.data p = m.data p

/-- User pages were given back, and all other frames are as they were. -/
structure Shrinks (d : Nat) (m : Mem) (use : Nat → Use) (m' : Mem) (use' : Nat → Use) : Prop
    extends Edit d m use m' use' where
  keep : ∀ p, use' p = use p ∧ m'.data p = m.data p ∨
    use' p = .free ∧ ∃ i j, use p = .page d i j

theorem Grows.refl : Grows d m use m use := ⟨.refl, fun _ _ => ⟨rfl, rfl⟩⟩

theorem Grows.trans (h : Grows d m use m' use') (h' : Grows d m' use' m'' use'') :
    Grows d m use m'' use'' where
  toEdit := h.toEdit.trans h'.toEdit
  keep p hp := by
    obtain ⟨h1, h2⟩ := h.keep p hp
    obtain ⟨h3, h4⟩ := h'.keep p (h1 ▸ hp)
    exact ⟨h3.trans h1, h4.trans h2⟩

theorem Shrinks.refl : Shrinks d m use m use := ⟨.refl, fun _ => .inl ⟨rfl, rfl⟩⟩

theorem Shrinks.trans (h : Shrinks d m use m' use') (h' : Shrinks d m' use' m'' use'') :
    Shrinks d m use m'' use'' where
  toEdit := h.toEdit.trans h'.toEdit
  keep p := by
    rcases h'.keep p with ⟨h3, h4⟩ | ⟨h3, i, j, h4⟩
    · rcases h.keep p with ⟨h1, h2⟩ | ⟨h1, h2⟩
      · exact .inl ⟨h3.trans h1, h4.trans h2⟩
      · exact .inr ⟨h3.trans h1, h2⟩
    · rcases h.keep p with ⟨h1, -⟩ | ⟨h1, -⟩
      · exact .inr ⟨h3, i, j, h1 ▸ h4⟩
      · rw [h1] at h4; cases h4

/-- Giving back what was taken leaves the frames that were in use. -/
theorem Grows.undo (h : Grows d m use m' use') (h' : Shrinks d m' use' m'' use'')
    (hs : Space m use d) (hs'' : Space m'' use'' d)
    (hp : ∀ va < KERNBASE, m''.pte d va = m.pte d va) : Grows d m use m'' use'' where
  toEdit := h.toEdit.trans h'.toEdit
  keep p hu := by
    obtain ⟨h1, h2⟩ := h.keep p hu
    rcases h'.keep p with ⟨h3, h4⟩ | ⟨h3, i, j, h4⟩
    · exact ⟨h3.trans h1, h4.trans h2⟩
    · -- a page given back has no entry any more
      obtain ⟨hi, hj, he⟩ := (hs.tree.page i j p).mp (h1 ▸ h4)
      obtain ⟨va, hva, heq⟩ := entry_pte hi hj
      rw [← heq m, ← hp va hva, heq m''] at he
      have hback := (hs''.tree.page i j p).mpr ⟨hi, hj, he⟩
      rw [h3] at hback
      cases hback

/-- **Walking**: with `alloc`, `walkpgdir` finds or makes the page table, or finds no memory;
no entry of the directory's tables changes. -/
theorem walkpgdir_alloc (hs : Space m use d) {va : Nat} {r : Option Nat}
    (h : m.walkpgdir d va true = (m', r)) : ∃ use', Space m' use' d ∧ Grows d m use m' use' ∧
      (∀ p, use' p = .held d → use p = .held d) ∧
      (∀ i j, i < 1024 → m'.entry d i j = m.entry d i j) ∧
      ∀ t, r = some t → use' t = .table d (PDX va) := by
  unfold Mem.walkpgdir at h
  split at h
  · next pde hpde =>
    cases h
    refine ⟨use, hs, .refl, fun _ h => h, fun _ _ _ => rfl, fun t ht => ?_⟩
    cases ht
    exact hs.tree.table_use (PDX_lt va) hpde
  · next hnone =>
    rw [if_pos rfl] at h
    split at h
    · next m₁ hk =>
      obtain ⟨rfl, -⟩ := kalloc_none hk
      cases h
      exact ⟨use, hs, .refl, fun _ h => h, fun _ _ _ => rfl, fun _ ht => by cases ht⟩
    · next m₁ t hk =>
      obtain ⟨hm₁, hfree, hF⟩ := kalloc_some hs.frames hk d
      cases h
      have htd : t ≠ d := fun he => by rw [he, hs.tree.dir_use] at hfree; cases hfree
      have hne : ∀ q, use q ≠ .free → q ≠ t := fun q hq he => hq (he ▸ hfree)
      have htable : ∀ q, q ≠ t → q ≠ d →
          ((m₁.clear t).setEntry d (PDX va) (some ⟨t, ⟨true, true⟩⟩)).table q = m.table q := by
        intro q hq hqd
        rw [setEntry_table_of_ne hqd, hm₁]
        exact Function.update_of_ne hq _ _
      have hdata : ∀ q, q ≠ t →
          ((m₁.clear t).setEntry d (PDX va) (some ⟨t, ⟨true, true⟩⟩)).data q = m.data q := by
        intro q hq
        rw [setEntry_data, hm₁]
        exact Function.update_of_ne hq _ _
      have hdir : ((m₁.clear t).setEntry d (PDX va) (some ⟨t, ⟨true, true⟩⟩)).table d =
          Function.update (m.table d) (PDX va) (some ⟨t, ⟨true, true⟩⟩) := by
        rw [setEntry_table, hm₁]
        exact congrArg (fun f => Function.update f _ _) (Function.update_of_ne (Ne.symm htd) _ _)
      have hzero : ((m₁.clear t).setEntry d (PDX va) (some ⟨t, ⟨true, true⟩⟩)).table t =
          fun _ => none := by
        rw [setEntry_table_of_ne htd]
        exact Function.update_self ..
      -- the new table is empty, as the missing one was
      have hentry : ∀ i j, i < 1024 →
          ((m₁.clear t).setEntry d (PDX va) (some ⟨t, ⟨true, true⟩⟩)).entry d i j = m.entry d i j := by
        intro i j hi
        unfold Mem.entry
        rw [hdir]
        by_cases hii : i = PDX va
        · subst hii
          rw [Function.update_self, Option.bind_some, hzero, hnone]
          rfl
        · rw [Function.update_of_ne hii]
          cases hti : m.table d i with
          | none => rfl
          | some e =>
            have hu := hs.tree.table_use hi hti
            have h1 : e.page ≠ t := hne _ (by rw [hu]; simp)
            have h2 : e.page ≠ d := fun he => by rw [he, hs.tree.dir_use] at hu; cases hu
            rw [Option.bind_some, Option.bind_some, htable _ h1 h2]
      refine ⟨Function.update use t (.table d (PDX va)), ⟨?_, ?_⟩, ⟨?_, fun q hq => ?_⟩,
        fun q hq => ?_, hentry, fun t' ht' => ?_⟩
      · have hF' := hF.retag (p := t) (u := .table d (PDX va)) (by simp) (by simp) (by simp)
        rw [Function.update_idem] at hF'
        exact hF'.congr rfl rfl
      · refine ⟨fun q => ?_, fun i q => ?_, fun i j q => ?_, fun i j e h1 h2 h3 he => ?_⟩
        · by_cases hq : q = t
          · subst hq
            rw [Function.update_self]
            exact iff_of_false (by simp) htd
          · rw [Function.update_of_ne hq, hs.tree.dir]
        · rw [hdir]
          by_cases hq : q = t
          · subst hq
            rw [Function.update_self, Function.update_apply]
            split
            · next hi => subst hi; exact iff_of_true rfl ⟨PDX_lt va, rfl⟩
            · next hi =>
              refine iff_of_false (fun he => hi (by cases he; rfl)) fun ⟨h1, h2⟩ => ?_
              rw [(hs.tree.table i q).mpr ⟨h1, h2⟩] at hfree
              cases hfree
          · rw [Function.update_of_ne hq, hs.tree.table, Function.update_apply]
            split
            · next hi =>
              subst hi
              rw [hnone]
              refine iff_of_false (fun hc => by cases hc.2) fun hc => hq ?_
              exact (Option.some.inj hc.2).symm
            · rfl
        · by_cases hq : q = t
          · subst hq
            rw [Function.update_self]
            refine iff_of_false (by simp) fun ⟨h1, h2, h3⟩ => ?_
            rw [hentry i j (by omega)] at h3
            rw [(hs.tree.page i j q).mpr ⟨h1, h2, h3⟩] at hfree
            cases hfree
          · rw [Function.update_of_ne hq, hs.tree.page]
            constructor
            · rintro ⟨h1, h2, h3⟩; exact ⟨h1, h2, by rw [hentry i j (by omega)]; exact h3⟩
            · rintro ⟨h1, h2, h3⟩; exact ⟨h1, h2, by rw [hentry i j (by omega)] at h3; exact h3⟩
        · rw [hentry i j h2] at he
          exact hs.tree.kernel i j e h1 h2 h3 he
      · have hnm : ∀ q, ¬ (use q).Mine d → q ≠ t ∧ q ≠ d := fun q hq =>
          ⟨fun he => hq (.inl (he ▸ hfree)), fun he => hq (.inr (.inr (by rw [he, hs.tree.dir_use]; rfl)))⟩
        exact .single (by rw [hm₁]; rfl) (by rw [hm₁]; rfl) (.inl hfree) (.inr (.inr rfl))
          (fun q hq => htable q (hnm q hq).1 (hnm q hq).2) fun q hq => hdata q (hnm q hq).1
      · exact ⟨Function.update_of_ne (hne q hq) _ _, hdata q (hne q hq)⟩
      · by_cases hqt : q = t
        · subst hqt; rw [Function.update_self] at hq; cases hq
        · rwa [Function.update_of_ne hqt] at hq
      · cases ht'; exact Function.update_self ..

end

end Xv6.Vm
