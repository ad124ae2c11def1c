import Xv6.Vm.Grow

/-!
# Copying to user memory

`copyout` looks each page up with `uva2ka` and copies the part of the buffer that
falls into it. `uva2ka` reads the entry that `walkpgdir` returns without testing
for null, so an address whose page table is absent is a fault and not an error.
-/

namespace Xv6.Vm

open Lib

/-- The frame of the page of an address, if the page is accessible to the user. -/
def Mem.user (m : Mem) (d va : Nat) : Option Nat :=
  (m.pte d va).bind fun e => if e.perm.u then some e.page else none

/-- No frame is under two user pages. -/
def Unshared (m : Mem) (d : Nat) : Prop :=
  ∀ a < 2 ^ 32, ∀ b < 2 ^ 32, ∀ q, m.user d a = some q → m.user d b = some q →
    a / PGSIZE = b / PGSIZE

/-- The bytes of `buf` are at `va`, and no other byte of any frame has changed. -/
structure Copied (m m' : Mem) (d va : Nat) (buf : List UInt8) : Prop where
  only : m' = { m with data := m'.data }
  bytes : ∀ k, ∀ hk : k < buf.length, ∀ q, m.user d (va + k) = some q →
    m'.data q ((va + k) % PGSIZE) = buf[k]
  rest : ∀ q o, (∀ k < buf.length, m.user d (va + k) = some q → (va + k) % PGSIZE ≠ o) →
    m'.data q o = m.data q o

/-- Only bytes of user pages have changed. -/
structure Within (m m' : Mem) (d : Nat) : Prop where
  only : m' = { m with data := m'.data }
  rest : ∀ q, (∀ a < 2 ^ 32, m.user d a ≠ some q) → m'.data q = m.data q

section
variable {m m' m'' : Mem} {d va : Nat} {buf : List UInt8}

/-! ## Lookups -/

theorem user_congr (ht : m'.table = m.table) (va : Nat) : m'.user d va = m.user d va := by
  unfold Mem.user Mem.pte Mem.entry
  rw [ht]

theorem user_page {a b : Nat} (ha : a < 2 ^ 32) (hb : b < 2 ^ 32) (h : a / PGSIZE = b / PGSIZE) :
    m.user d a = m.user d b := by
  obtain ⟨h1, h2⟩ := (index_inj ha hb).mpr h
  unfold Mem.user Mem.pte
  rw [h1, h2]

/-- What `uva2ka` finds: the frame of a user page, unless there is no page table. -/
theorem uva2ka_eq (m : Mem) (d va : Nat) : m.uva2ka d va =
    if m.table d (PDX va) = none then .error .nullDeref else .ok (m.user d va) := by
  unfold Mem.uva2ka Mem.walkpgdir Mem.user Mem.pte Mem.entry
  cases hd : m.table d (PDX va) with
  | none => rfl
  | some pde =>
    simp only [reduceCtorEq, if_false, Option.bind_some]
    cases ht : m.table pde.page (PTX va) with
    | none => rfl
    | some e =>
      rw [Option.bind_some]
      dsimp only
      split <;> rfl

/-- A page without a page table is no user page. -/
theorem user_none (h : m.table d (PDX va) = none) : m.user d va = none := by
  unfold Mem.user Mem.pte Mem.entry
  rw [h]
  rfl

/-- The frame of a user page has the use that the address gives it. -/
theorem Tree.user_use {use : Nat → Use} (h : Tree m use d) {a q : Nat} (ha : a < 2 ^ 32)
    (hq : m.user d a = some q) : use q = .page d (PDX a) (PTX a) := by
  obtain ⟨e, he, hu⟩ := Option.bind_eq_some_iff.mp hq
  split at hu
  · next hperm =>
    cases hu
    by_cases hK : a < KERNBASE
    · exact h.pte_use hK he
    · -- the kernel's pages are not accessible
      have hk := h.kernel _ _ e (PDX_kernel (by omega) ha) (PDX_lt a) (PTX_lt a) he
      rw [hk] at hperm
      cases hperm
  · cases hu

/-- In a directory made by `vm.c` each user page has a frame of its own. -/
theorem Built.unshared (h : Built m d) : Unshared m d := by
  obtain ⟨use, hs, -⟩ := h
  intro a ha b hb q h1 h2
  have heq := (hs.tree.user_use ha h1).symm.trans (hs.tree.user_use hb h2)
  simp only [Use.page.injEq, true_and] at heq
  exact (index_inj ha hb).mp heq

/-! ## One page -/

theorem write_table (p o : Nat) (b : List UInt8) : (m.write p o b).table = m.table := rfl

theorem write_data (p o q j : Nat) (b : List UInt8) : (m.write p o b).data q j =
    if q = p ∧ o ≤ j ∧ j < o + b.length then b.getD (j - o) 0 else m.data q j := by
  dsimp only [Mem.write]
  by_cases hq : q = p
  · subst hq
    rw [Function.update_self]
    simp
  · rw [Function.update_of_ne hq, if_neg (fun h => hq h.1)]

theorem write_within (p o : Nat) (b : List UInt8) {a : Nat} (ha : a < 2 ^ 32)
    (hp : m.user d a = some p) : Within m (m.write p o b) d where
  only := rfl
  rest q hq := by
    have hqp : q ≠ p := fun he => hq a ha (he.symm ▸ hp)
    exact Function.update_of_ne hqp _ _

theorem Within.refl (m : Mem) (d : Nat) : Within m m d := ⟨rfl, fun _ _ => rfl⟩

theorem Within.table (h : Within m m' d) : m'.table = m.table := by rw [h.only]

theorem Within.trans (h : Within m m' d) (h' : Within m' m'' d) : Within m m'' d where
  only := by
    rw [h'.only, h.only]
  rest q hq := by
    rw [h'.rest q fun a ha => by rw [user_congr h.table]; exact hq a ha, h.rest q hq]

/-- A part of the buffer in one page, and the rest after it. -/
theorem Copied.cons {p n : Nat} (hun : Unshared m d) (hva : va + buf.length ≤ 2 ^ 32)
    (hn : n ≤ buf.length) (hfit : va % PGSIZE + n ≤ PGSIZE) (hp : m.user d va = some p)
    (h : Copied (m.write p (va % PGSIZE) (buf.take n)) m' d (va + n) (buf.drop n)) :
    Copied m m' d va buf := by
  have huser : ∀ a, (m.write p (va % PGSIZE) (buf.take n)).user d a = m.user d a := user_congr rfl
  have hlen : (buf.drop n).length = buf.length - n := List.length_drop
  have htake : (buf.take n).length = n := by rw [List.length_take]; omega
  have hmod : ∀ k < n, (va + k) % PGSIZE = va % PGSIZE + k ∧ (va + k) / PGSIZE = va / PGSIZE := by
    intro k hk
    unfold PGSIZE at *
    omega
  have hfirst : ∀ k < n, m.user d (va + k) = some p := by
    intro k hk
    rw [← hp]
    exact user_page (by omega) (by omega) (hmod k hk).2
  refine ⟨by rw [h.only]; rfl, fun k hk q hq => ?_, fun q o hout => ?_⟩
  · by_cases hkn : k < n
    · -- written first, and not overwritten
      obtain rfl : q = p := Option.some.inj (hq.symm.trans (hfirst k hkn))
      have hm := (hmod k hkn).1
      rw [h.rest q _ fun k' hk' hq' he => ?_, write_data, if_pos ⟨rfl, by omega, by omega⟩, hm]
      · rw [Nat.add_sub_cancel_left, List.getD_eq_getElem _ _ (by omega), List.getElem_take]
      · rw [huser] at hq'
        have hpage := hun (va + k) (by omega) (va + n + k') (by omega) q hq hq'
        unfold PGSIZE at *
        omega
    · have hb := h.bytes (k - n) (by omega) q (by
        rw [huser, show va + n + (k - n) = va + k by omega]; exact hq)
      rw [show va + n + (k - n) = va + k by omega, List.getElem_drop] at hb
      rw [hb]
      congr 1
      omega
  · rw [h.rest q o fun k' hk' hq' => ?_, write_data, if_neg]
    · rintro ⟨rfl, h1, h2⟩
      rw [htake] at h2
      refine hout (o - va % PGSIZE) (by omega) (hfirst _ (by omega)) ?_
      rw [(hmod _ (by omega)).1]
      omega
    · rw [huser] at hq'
      have := hout (n + k') (by omega) (by rw [← Nat.add_assoc]; exact hq')
      rwa [← Nat.add_assoc] at this

/-! ## The loop -/

/-- What the loop of `copyout` does with lookups `lk`: it copies all of the buffer, or
stops at the first address whose lookup finds no frame. -/
inductive Outcome (m : Mem) (d va : Nat) (buf : List UInt8) (lk : Nat → Except Fault (Option Nat)) :
    Except Fault (Mem × Bool) → Prop where
  | done (m' : Mem) : (∀ k < buf.length, (m.user d (va + k)).isSome) → Copied m m' d va buf →
      Within m m' d → Outcome m d va buf lk (.ok (m', true))
  | stop (k : Nat) (m' : Mem) : k < buf.length → (∀ i < k, (m.user d (va + i)).isSome) →
      lk (PGROUNDDOWN (va + k)) = .ok none → Within m m' d → Outcome m d va buf lk (.ok (m', false))
  | fault (k : Nat) (f : Fault) : k < buf.length → (∀ i < k, (m.user d (va + i)).isSome) →
      lk (PGROUNDDOWN (va + k)) = .error f → Outcome m d va buf lk (.error f)

theorem PGROUNDDOWN_page (a : Nat) : PGROUNDDOWN a / PGSIZE = a / PGSIZE := by
  unfold PGROUNDDOWN PGSIZE
  omega

theorem PGROUNDDOWN_le (a : Nat) : PGROUNDDOWN a ≤ a := Nat.div_mul_le_self _ _

theorem sub_PGROUNDDOWN (a : Nat) : a - PGROUNDDOWN a = a % PGSIZE := by
  unfold PGROUNDDOWN PGSIZE
  omega

/-- **Loop lemma**: with lookups that find user pages only, the loop copies page by page. -/
theorem copyoutLoop_outcome {lk : Nat → Except Fault (Option Nat)}
    {look : Mem → Nat → Except Fault (Option Nat)}
    (hlk : ∀ a < 2 ^ 32, ∀ q, lk (PGROUNDDOWN a) = .ok (some q) → m.user d a = some q) :
    ∀ (fuel : Nat) (m₁ : Mem) (va : Nat) (buf : List UInt8), m₁.table = m.table →
      (∀ m₂ : Mem, m₂.table = m.table → ∀ a, look m₂ a = lk a) → Unshared m₁ d →
      buf.length ≤ fuel → va + buf.length ≤ 2 ^ 32 →
      Outcome m₁ d va buf lk (Mem.copyoutLoop look fuel m₁ va buf) := by
  intro fuel
  induction fuel with
  | zero =>
    intro m₁ va buf _ _ _ hlen _
    refine .done m₁ (fun k hk => ?_) ⟨rfl, fun k hk => ?_, fun _ _ _ => rfl⟩ (.refl m₁ d)
    · omega
    · omega
  | succ fuel ih =>
    intro m₁ va buf ht hlook hun hlen hva
    rw [Mem.copyoutLoop]
    split
    · next h0 =>
      refine .done m₁ (fun k hk => ?_) ⟨rfl, fun k hk => ?_, fun _ _ _ => rfl⟩ (.refl m₁ d)
      · omega
      · omega
    · next h0 =>
      dsimp only
      rw [hlook m₁ ht]
      cases hr : lk (PGROUNDDOWN va) with
      | error f => exact .fault 0 f (by omega) (fun i hi => by omega) hr
      | ok r =>
        cases r with
        | none => exact .stop 0 m₁ (by omega) (fun i hi => by omega) hr (.refl m₁ d)
        | some p =>
          have hp : m₁.user d va = some p := by
            rw [user_congr ht]
            exact hlk va (by omega) p hr
          simp only [ok_bind, sub_PGROUNDDOWN]
          obtain ⟨n, hn⟩ : ∃ n, n = min (PGSIZE - va % PGSIZE) buf.length := ⟨_, rfl⟩
          rw [← hn]
          have hbound : n ≤ buf.length ∧ va % PGSIZE + n ≤ PGSIZE ∧ 0 < n := by
            unfold PGSIZE at *
            omega
          obtain ⟨hnlen, hnfit, hnpos⟩ := hbound
          have hdrop : (buf.drop n).length = buf.length - n := List.length_drop
          have hw : Within m₁ (m₁.write p (va % PGSIZE) (buf.take n)) d :=
            write_within p _ _ (by omega) hp
          have huser : ∀ a, (m₁.write p (va % PGSIZE) (buf.take n)).user d a = m₁.user d a :=
            user_congr rfl
          -- the addresses of this page are all accessible
          have hhere : ∀ k < n, (m₁.user d (va + k)).isSome := by
            intro k hk
            rw [user_page (b := va) (by omega) (by omega) (by unfold PGSIZE at *; omega), hp]
            rfl
          by_cases hend : buf.length = n
          · -- the last page: the loop stops at once
            have hnil : buf.drop n = [] := List.drop_eq_nil_of_le (by omega)
            have hstop : Mem.copyoutLoop look fuel (m₁.write p (va % PGSIZE) (buf.take n))
                ((PGROUNDDOWN va + PGSIZE) % 2 ^ 32) (buf.drop n) =
                .ok (m₁.write p (va % PGSIZE) (buf.take n), true) := by
              rw [hnil]
              cases fuel <;> rfl
            rw [hstop]
            refine .done _ (fun k hk => hhere k (by omega)) ?_ hw
            refine .cons hun hva hnlen hnfit hp ⟨rfl, fun k hk => ?_, fun _ _ _ => rfl⟩
            omega
          · have hnext : (PGROUNDDOWN va + PGSIZE) % 2 ^ 32 = va + n := by
              unfold PGROUNDDOWN PGSIZE at *
              omega
            rw [hnext]
            have hrec := ih (m₁.write p (va % PGSIZE) (buf.take n)) (va + n) (buf.drop n) ht hlook
              (fun a ha b hb q h1 h2 => hun a ha b hb q (huser a ▸ h1) (huser b ▸ h2))
              (by omega) (by omega)
            have hall : ∀ k, (∀ i < k,
                ((m₁.write p (va % PGSIZE) (buf.take n)).user d (va + n + i)).isSome) →
                ∀ i < n + k, (m₁.user d (va + i)).isSome := by
              intro k hk i hi
              by_cases hin : i < n
              · exact hhere i hin
              · have := hk (i - n) (by omega)
                rwa [huser, show va + n + (i - n) = va + i by omega] at this
            generalize Mem.copyoutLoop look fuel (m₁.write p (va % PGSIZE) (buf.take n)) (va + n)
              (buf.drop n) = r at hrec
            cases hrec with
            | done m' hk hc hw' =>
              refine .done m' (fun k hkl => hall _ hk k (by omega)) ?_ (hw.trans hw')
              exact .cons hun hva hnlen hnfit hp hc
            | stop k m' hkl hk hnone hw' =>
              refine .stop (n + k) m' (by omega) (hall k hk) ?_ (hw.trans hw')
              rw [← Nat.add_assoc]
              exact hnone
            | fault k f hkl hk hf =>
              refine .fault (n + k) f (by omega) (hall k hk) ?_
              rw [← Nat.add_assoc]
              exact hf

/-! ## `copyout` -/

/-- The lookups of `copyout`. -/
def Mem.lookups (m : Mem) (d a : Nat) : Except Fault (Option Nat) :=
  if m.table d (PDX a) = none then .error .nullDeref else .ok (m.user d a)

theorem lookups_user {a : Nat} (ha : a < 2 ^ 32) {q : Nat}
    (h : m.lookups d (PGROUNDDOWN a) = .ok (some q)) : m.user d a = some q := by
  unfold Mem.lookups at h
  split at h
  · cases h
  · rw [← user_page (Nat.lt_of_le_of_lt (PGROUNDDOWN_le a) ha) ha (PGROUNDDOWN_page a)]
    exact Except.ok.inj h

theorem lookups_none {a : Nat} (ha : a < 2 ^ 32) (h : m.lookups d (PGROUNDDOWN a) = .ok none) :
    m.user d a = none := by
  unfold Mem.lookups at h
  split at h
  · cases h
  · rw [← user_page (Nat.lt_of_le_of_lt (PGROUNDDOWN_le a) ha) ha (PGROUNDDOWN_page a)]
    exact Except.ok.inj h

theorem PDX_PGROUNDDOWN (a : Nat) : PDX (PGROUNDDOWN a) = PDX a := by
  unfold PDX PGROUNDDOWN PGSIZE
  omega

theorem lookups_error {a : Nat} {f : Fault} (h : m.lookups d (PGROUNDDOWN a) = .error f) :
    f = .nullDeref ∧ m.table d (PDX a) = none := by
  unfold Mem.lookups at h
  split at h
  · next hn =>
    rw [PDX_PGROUNDDOWN] at hn
    exact ⟨(Except.error.inj h).symm, hn⟩
  · cases h

theorem copyout_outcome (hun : Unshared m d) (hva : va + buf.length ≤ 2 ^ 32) :
    Outcome m d va buf (m.lookups d) (m.copyout d va buf) := by
  refine copyoutLoop_outcome (fun a ha q hq => lookups_user ha hq) _ m va buf rfl
    (fun m₂ ht a => ?_) hun (Nat.le_refl _) hva
  rw [uva2ka_eq, ht, user_congr ht]
  rfl

/-- `copyout` writes the range if all of it is accessible, and otherwise fails
without a fault and without a byte written outside user pages. -/
def CopiesExactly (m : Mem) (d va : Nat) (buf : List UInt8) : Prop :=
  ∃ m' ok, m.copyout d va buf = .ok (m', ok) ∧
    (ok = true ↔ ∀ k < buf.length, (m.user d (va + k)).isSome) ∧
    (ok = true → Copied m m' d va buf) ∧ Within m m' d

/-- The first address of the range that the user cannot access has a page table. -/
def TableAtEnd (m : Mem) (d va : Nat) (buf : List UInt8) : Prop :=
  ∀ k < buf.length, (∀ i < k, (m.user d (va + i)).isSome) → m.user d (va + k) = none →
    m.table d (PDX (va + k)) ≠ none

/-- **Copying out**: `copyout` does exactly that if and only if the range does not run, or
start, into addresses that have no page table. -/
theorem copyout_exact_iff {m : Mem} {d va : Nat} {buf : List UInt8} (hb : Built m d)
    (hva : va + buf.length ≤ 2 ^ 32) :
    CopiesExactly m d va buf ↔ TableAtEnd m d va buf := by
  have hout := copyout_outcome hb.unshared hva
  constructor
  · rintro ⟨m', ok, hm, -, -, -⟩ k hk hpre hnone hn
    rw [hm] at hout
    have hlook : m.lookups d (PGROUNDDOWN (va + k)) = .error .nullDeref := by
      rw [Mem.lookups, PDX_PGROUNDDOWN, if_pos hn]
    -- the loop gets as far as address `k`, and no further
    cases hout with
    | done m' hall => have := hall k hk; rw [hnone] at this; cases this
    | stop j m' hj hprej hstop =>
      rcases lt_trichotomy j k with hlt | rfl | hlt
      · have := hpre j hlt
        rw [lookups_none (by omega) hstop] at this
        cases this
      · rw [hlook] at hstop; cases hstop
      · have := hprej k hlt
        rw [hnone] at this
        cases this
  · intro htab
    unfold CopiesExactly
    generalize m.copyout d va buf = r at hout
    cases hout with
    | done m' hall hc hw => exact ⟨m', true, rfl, iff_of_true rfl hall, fun _ => hc, hw⟩
    | stop k m' hk hpre hstop hw =>
      refine ⟨m', false, rfl, iff_of_false (by simp) fun hall => ?_, fun h => (by cases h), hw⟩
      have := hall k hk
      rw [lookups_none (by omega) hstop] at this
      cases this
    | fault k f hk hpre hf =>
      obtain ⟨-, hn⟩ := lookups_error hf
      exact absurd hn (htab k hk hpre (user_none hn))

end

/-- Two bytes go to the end of the only page. -/
theorem copyout_exact_iff_onePage : CopiesExactly onePage 2 4094 [1, 2] ∧
    (CopiesExactly onePage 2 4094 [1, 2] ↔ TableAtEnd onePage 2 4094 [1, 2]) := by
  have h : CopiesExactly onePage 2 4094 [1, 2] ↔ _ := copyout_exact_iff onePage_built (by decide)
  have huser : ∀ k < 2, onePage.user 2 (4094 + k) ≠ none := by decide
  exact ⟨h.mpr fun k hk _ hn => absurd hn (huser k hk), h⟩

/-- At 4 MiB the directory has no page table: `copyout` follows a null pointer. -/
theorem copyout_null : onePage.table 2 (PDX 0x400000) = none ∧
    onePage.copyout 2 0x400000 [1] = .error .nullDeref ∧ ¬ CopiesExactly onePage 2 0x400000 [1] := by
  refine ⟨by decide, rfl, fun ⟨m', ok, hm, _⟩ => ?_⟩
  cases hm

end Xv6.Vm
