import Xv6.Fs.Calls

/-!
# Block maps are stable

`bmap` gives each block of a file its own block of the disk, and always the same. It
fails only when the disk is full, and beyond the largest file.
-/

namespace Xv6.Fs

open Lib

namespace State

/-- The number of free blocks. -/
def freeBlocks (s : State) : Nat := ((Finset.range s.sb.size).filter fun b => s.used b = false).card

end State

variable {s s' : State} {ip a : Nat}

theorem balloc_total (h : 0 < s.freeBlocks) : ∃ b s', s.balloc = .ok (b, s') := by
  obtain ⟨b, hb⟩ := Finset.card_pos.mp h
  rw [Finset.mem_filter, Finset.mem_range] at hb
  have hsome : ((List.range s.sb.size).find? fun b => !s.used b).isSome :=
    List.find?_isSome.mpr ⟨b, List.mem_range.mpr hb.1, by simp [hb.2]⟩
  obtain ⟨c, hc⟩ := Option.isSome_iff_exists.mp hsome
  refine ⟨c, ?_⟩
  simp only [State.balloc, hc]
  exact ⟨_, rfl⟩

/-- An allocation takes one block. -/
theorem Alloc.freeBlocks {b : Nat} (h : Alloc s b s') (hwf : Wf s) :
    s.freeBlocks = s'.freeBlocks + 1 := by
  unfold State.freeBlocks
  rw [h.sb]
  have hsub : (Finset.range s.sb.size).filter (fun c => s.used c = false) =
      insert b ((Finset.range s.sb.size).filter fun c => s'.used c = false) := by
    ext c
    simp only [Finset.mem_insert, Finset.mem_filter, Finset.mem_range]
    constructor
    · rintro ⟨hc, hu⟩
      by_cases hcb : c = b
      · exact .inl hcb
      · exact .inr ⟨hc, by rw [h.used hwf hc, hu, decide_eq_false hcb]; rfl⟩
    · rintro (rfl | ⟨hc, hu⟩)
      · exact ⟨h.lt, h.free⟩
      · rw [h.used hwf hc, Bool.or_eq_false_iff] at hu
        exact ⟨hc, hu.2⟩
  rw [hsub, Finset.card_insert_of_notMem]
  rw [Finset.mem_filter, h.used hwf h.lt, decide_eq_true rfl]
  rintro ⟨-, hu⟩
  cases hu

theorem freeBlocks_congr (hsb : s'.sb = s.sb) (h : ∀ c < s.sb.size, s'.used c = s.used c) :
    s'.freeBlocks = s.freeBlocks := by
  unfold State.freeBlocks
  rw [hsb]
  refine congrArg _ (Finset.filter_congr fun c hc => ?_)
  rw [h c (Finset.mem_range.mp hc)]

/-! ## Room for the blocks on the way -/

theorem slot_total (h : Wf s) (ip k : Nat) (hf : 0 < s.freeBlocks) :
    ∃ a s', s.slot ip k = .ok (a, s') ∧ s.freeBlocks ≤ s'.freeBlocks + 1 := by
  by_cases h0 : (s.icache ip).din.addrs k = 0
  · obtain ⟨b, s₁, hb⟩ := balloc_total hf
    refine ⟨b, s₁.setAddr ip k b, ?_, Nat.le_of_eq ((balloc_ok hb).freeBlocks h)⟩
    rw [State.slot, if_pos h0, hb]
    rfl
  · exact ⟨_, s, slot_eq h0, Nat.le_succ _⟩

theorem entry_total (h : Wf s) {p : Place} (hp : IsPlace p) (hpa : s.block p = a) (ha0 : a ≠ 0) {j : Nat}
    (hf : 0 < s.freeBlocks) : ∃ a' s', s.entry a j = .ok (a', s') ∧ s.freeBlocks ≤ s'.freeBlocks + 1 := by
  by_cases h0 : (s.disk a).word j = 0
  · obtain ⟨b, s₁, hb⟩ := balloc_total hf
    have ha := balloc_ok hb
    have hfree : (s₁.log_write a ((s.disk a).setWord j b)).freeBlocks = s₁.freeBlocks := by
      have hsb : (s₁.log_write a ((s.disk a).setWord j b)).sb = s₁.sb := rfl
      refine freeBlocks_congr hsb fun c hc => used_congr hsb (Function.update_of_ne ?_ ..)
      rw [ha.sb] at hc ⊢
      rw [← hpa]
      exact (h.block_ne_BBLOCK hp (by rw [hpa]; exact ha0) hc).symm
    refine ⟨b, s₁.log_write a ((s.disk a).setWord j b), ?_, ?_⟩
    · simp only [State.entry, if_pos h0, hb]
      rfl
    · rw [hfree]
      exact Nat.le_of_eq (ha.freeBlocks h)
  · exact ⟨_, s, entry_eq h0, Nat.le_succ _⟩

theorem descend_total {r : Nat × Nat} (path : List Nat) {js : List Nat} (h : Wf s)
    (hp : IsPlace (r, path ++ js)) (hpa : s.block (r, path) = a) (ha0 : a ≠ 0)
    (hf : js.length ≤ s.freeBlocks) : ∃ e, s.descend a js = .ok e := by
  induction js generalizing s a path with
  | nil => exact ⟨_, rfl⟩
  | cons j js ih =>
    have hj : path ++ j :: js = path ++ [j] ++ js := by simp
    rw [hj] at hp
    have hin : IsInner (r, path) ∧ j < NINDIRECT := by
      refine Forest.isPlace_concat.mp ⟨Nat.le_trans ?_ hp.1, fun i hi => hp.2 i ?_⟩
      · simp
      · exact List.mem_append_left _ hi
    rw [List.length_cons] at hf
    obtain ⟨a₁, s₁, he, hf₁⟩ := entry_total h hin.1.isPlace hpa ha0 (j := j) (by omega)
    obtain ⟨hext, hb, hne⟩ := entry_spec h hin.1 hpa ha0 hin.2 he
    obtain ⟨e, hd⟩ := ih (path ++ [j]) hext.wf hp hb hne (by omega)
    refine ⟨e, ?_⟩
    rw [State.descend, he]
    exact hd

theorem leaf_length (bn : Nat) : (leaf bn).2.length ≤ 3 := by
  unfold leaf
  split
  · exact Nat.zero_le _
  · split
    · simp
    · split <;> simp

/-- With four free blocks `bmap` does not fail. -/
theorem bmap_total (h : Wf s) (hl : Live s ip) {bn : Nat} (hbn : bn < MAXFILE) (hf : 4 ≤ s.freeBlocks) :
    ∃ a s', s.bmap ip bn = .ok (a, s') := by
  obtain ⟨a₁, s₁, h₁, hf₁⟩ := slot_total h ip (leaf bn).1 (by omega)
  obtain ⟨hext, hb, hne⟩ := slot_spec h hl (leaf_slot_lt bn) h₁
  have hlen := leaf_length bn
  have hlen' : (leaf bn).2.length ≤ s₁.freeBlocks := by omega
  obtain ⟨e, hd⟩ := descend_total [] hext.wf (leafAt_isLeaf (i := ip) hbn).1 hb hne hlen'
  refine ⟨e.1, e.2, ?_⟩
  rw [State.bmap_eq s ip hbn, h₁]
  exact hd

/-! ## Stability -/

/-- What a call of `bmap` that returns has done. -/
structure Mapped (ip bn a : Nat) (s s' : State) : Prop where
  ne_zero : a ≠ 0
  lt : a < s.sb.size
  used : s'.used a = true
  again : s'.bmap ip bn = .ok (a, s')
  other : ∀ bn' a' s'', bn' ≠ bn → s'.bmap ip bn' = .ok (a', s'') →
    a' ≠ a ∧ s''.bmap ip bn = .ok (a, s'')

theorem bmap_mapped (h : Wf s) (hl : Live s ip) {bn : Nat} (hs : s.bmap ip bn = .ok (a, s')) :
    Mapped ip bn a s s' ∧ Wf s' ∧ Live s' ip := by
  have hbn : bn < MAXFILE := by
    by_contra hge
    rw [bmap_range (by omega)] at hs
    cases hs
  obtain ⟨hext, ha, hne⟩ := bmap_spec h hl hbn hs
  have hl' := hext.live hl
  have hne' : s'.addr ip bn ≠ 0 := by rw [ha]; exact hne
  obtain ⟨-, hleaf, hblock⟩ := addr_ne_zero hne'
  rw [ha] at hblock
  have hlt : a < s'.sb.size := by
    rw [hblock] at hne ⊢
    exact (hext.wf.data _ hleaf.1 hne).2
  have hused : s'.used a = true := (hext.wf.bitmap a hlt).mpr (.inr ⟨_, hleaf.1, hblock.symm⟩)
  refine ⟨⟨hne, by rw [← hext.sb]; exact hlt, hused, ?_, fun bn' a' s'' hbn' hs' => ?_⟩, hext.wf, hl'⟩
  · have := bmap_eq_self hl' hne'
    rwa [ha] at this
  · have hlt' : bn' < MAXFILE := by
      by_contra hge
      rw [bmap_range (by omega)] at hs'
      cases hs'
    obtain ⟨hext', ha', hne''⟩ := bmap_spec hext.wf hl' hlt' hs'
    have hkeep : s''.addr ip bn = a := by
      rw [(Grown.of_extends hext').addr_keep hne', ha]
    have hkeep' : s''.addr ip bn ≠ 0 := by rw [hkeep]; exact hne
    refine ⟨fun he => hbn' ?_, ?_⟩
    · have heq : s''.addr ip bn' = s''.addr ip bn := by rw [ha', he, hkeep]
      exact (hext'.wf.addr_inj (by rw [ha']; exact hne'') heq).2
    · have := bmap_eq_self (hext'.live hl') hkeep'
      rwa [hkeep] at this

/-- **`bmap` is a stable injection** below `MAXFILE`, and panics beyond. Below, only a full
disk can stop it; its indexes are those of `leaf`. -/
theorem bmap_stable (h : Wf s) (hl : Live s ip) (bn : Nat) :
    (bn < MAXFILE →
      (4 ≤ s.freeBlocks → ∃ a s', s.bmap ip bn = .ok (a, s')) ∧
      (∀ f, s.bmap ip bn = .error f → f = .panic "balloc: out of blocks") ∧
      (∀ a s', s.bmap ip bn = .ok (a, s') → Mapped ip bn a s s') ∧
      (s.bmap ip bn = do
        let (a, s) ← s.slot ip (leaf bn).1
        s.descend a (leaf bn).2) ∧
      (leaf bn).1 < NDIRECT + 3 ∧ ∀ j ∈ (leaf bn).2, j < NINDIRECT) ∧
    (MAXFILE ≤ bn → s.bmap ip bn = .error (.panic "bmap: out of range")) :=
  ⟨fun hbn => ⟨bmap_total h hl hbn, fun _ => bmap_error hbn, fun _ _ hs => (bmap_mapped h hl hs).1,
    s.bmap_eq ip hbn, leaf_slot_lt bn, (leafAt_isLeaf (i := ip) hbn).1.2⟩, bmap_range⟩

theorem bmap_stable_small :
    (200 < MAXFILE →
      (4 ≤ (small held).freeBlocks → ∃ a s', (small held).bmap 2 200 = .ok (a, s')) ∧
      (∀ f, (small held).bmap 2 200 = .error f → f = .panic "balloc: out of blocks") ∧
      (∀ a s', (small held).bmap 2 200 = .ok (a, s') → Mapped 2 200 a (small held) s') ∧
      ((small held).bmap 2 200 = do
        let (a, s) ← (small held).slot 2 (leaf 200).1
        s.descend a (leaf 200).2) ∧
      (leaf 200).1 < NDIRECT + 3 ∧ ∀ j ∈ (leaf 200).2, j < NINDIRECT) ∧
    (MAXFILE ≤ 200 → (small held).bmap 2 200 = .error (.panic "bmap: out of range")) :=
  bmap_stable small_held.wf (small_held.live (p := 0) rfl) 200

end Xv6.Fs
