import Xv6.Fs.Inv

/-!
# Truncation

`itrunc` frees the blocks of a tree, children before parents, each by one `bfree`. It
reads a block that holds entries before it frees anything below, and freeing changes
bitmap blocks only, so the entries it reads are those of the tree.
-/

namespace Xv6.Fs

open Lib

/-- `s'` is `s` with the blocks of a list freed, one by one. -/
structure Freed (s : State) (l : List Nat) (s' : State) : Prop where
  sb : s'.sb = s.sb
  input : s'.input = s.input
  disk : ∀ x, (x < s.sb.bmapstart ∨ s.sb.dstart ≤ x) → s'.disk x = s.disk x
  used : ∀ c < s.sb.size, s'.used c = true ↔ s.used c = true ∧ c ∉ l
  calls : ∃ t, l.foldlM State.bfree s = .ok t ∧ t.sb = s'.sb ∧ t.disk = s'.disk

section
variable {s s' : State}

/-- Only the disk matters to `bfree`. -/
theorem foldlM_bfree_congr {l : List Nat} {t u : State} (hsb : t.sb = s.sb) (hd : t.disk = s.disk)
    (h : l.foldlM State.bfree s = .ok u) :
    ∃ v, l.foldlM State.bfree t = .ok v ∧ v.sb = u.sb ∧ v.disk = u.disk := by
  induction l generalizing s t with
  | nil =>
    cases h
    exact ⟨t, rfl, hsb, hd⟩
  | cons b l ih =>
    rw [List.foldlM_cons] at h
    obtain ⟨s₁, h₁, h⟩ := bind_ok.mp h
    unfold State.bfree at h₁
    split at h₁
    · next hu =>
      cases h₁
      have hu' : t.used b = true := by
        rw [used_congr hsb (congrFun hd _)]
        exact hu
      obtain ⟨v, hv, hvs⟩ := ih (s := s.log_write _ _) (t := t.log_write (t.sb.BBLOCK b)
        ((t.disk (t.sb.BBLOCK b)).clearBit (b % BPB))) hsb (by simp only [State.log_write, hsb, hd]) h
      refine ⟨v, ?_, hvs⟩
      rw [List.foldlM_cons, State.bfree, if_pos hu']
      exact hv
    · cases h₁

theorem Freed.refl : Freed s [] s :=
  ⟨rfl, rfl, fun _ _ => rfl, fun _ _ => by simp, s, rfl, rfl, rfl⟩

theorem Freed.trans {l l' : List Nat} {s'' : State} (h : Freed s l s') (h' : Freed s' l' s'') :
    Freed s (l ++ l') s'' where
  sb := h'.sb.trans h.sb
  input := h'.input.trans h.input
  disk x hx := (h'.disk x (by rw [h.sb]; exact hx)).trans (h.disk x hx)
  used c hc := by
    rw [h'.used c (by rw [h.sb]; exact hc), h.used c hc, List.mem_append, not_or, and_assoc]
  calls := by
    obtain ⟨t, ht, hts, htd⟩ := h.calls
    obtain ⟨u, hu, hus, hud⟩ := h'.calls
    obtain ⟨v, hv, hvs, hvd⟩ := foldlM_bfree_congr hts htd hu
    refine ⟨v, ?_, hvs.trans hus, hvd.trans hud⟩
    rw [List.foldlM_append, ht]
    exact hv

/-- A change of the cache is not seen. -/
theorem Freed.cache {l : List Nat} (h : Freed s l s') (ip : Nat) (d : Inode) :
    Freed s l (s'.setInode ip d) :=
  ⟨h.sb, h.input, h.disk, h.used, h.calls⟩

theorem bfree_spec (hl : s.sb.Layout) {b : Nat} (hb : b < s.sb.size) (hu : s.used b = true) :
    ∃ s', s.bfree b = .ok s' ∧ s'.icache = s.icache ∧ Freed s [b] s' := by
  refine ⟨_, if_pos hu, rfl, rfl, rfl, fun x hx => ?_, fun c hc => ?_, ?_⟩
  · have h₁ := Superblock.Layout.le_BBLOCK s.sb b
    have h₂ := hl.bitmap b hb
    exact Function.update_of_ne (by omega) ..
  · show ((Function.update s.disk (s.sb.BBLOCK b) _) (s.sb.BBLOCK c)).bit (c % BPB) = true ↔ _
    rw [List.mem_singleton]
    by_cases hB : s.sb.BBLOCK c = s.sb.BBLOCK b
    · rw [hB, Function.update_self, Block.bit_clearBit]
      by_cases hcb : c = b
      · simp [hcb]
      · have hne : c % BPB ≠ b % BPB := by
          intro hm
          have hd : c / BPB = b / BPB := Nat.add_right_cancel hB
          exact hcb (by rw [← Nat.div_add_mod c BPB, ← Nat.div_add_mod b BPB, hd, hm])
        rw [if_neg hne, and_iff_left hcb, State.used, hB]
    · have hcb : c ≠ b := by
        rintro rfl
        exact hB rfl
      rw [Function.update_of_ne hB, and_iff_left hcb, State.used]
  · refine ⟨_, ?_, rfl, rfl⟩
    rw [List.foldlM_cons, State.bfree, if_pos hu]
    rfl

/-- Blocks that can be freed: in use, and each once. -/
structure Freeable (s : State) (l : List Nat) : Prop where
  nodup : l.Nodup
  lt : ∀ b ∈ l, b < s.sb.size
  used : ∀ b ∈ l, s.used b = true

theorem Freeable.left {l l' : List Nat} (h : Freeable s (l ++ l')) : Freeable s l :=
  ⟨(List.nodup_append.mp h.nodup).1, fun b hb => h.lt b (List.mem_append_left _ hb),
    fun b hb => h.used b (List.mem_append_left _ hb)⟩

/-- What is left to free is still in use after the rest is freed. -/
theorem Freeable.right {l l' : List Nat} (h : Freeable s (l ++ l')) (hf : Freed s l s') :
    Freeable s' l' := by
  obtain ⟨-, hn', hne⟩ := List.nodup_append.mp h.nodup
  have hlt : ∀ b ∈ l', b < s.sb.size := fun b hb => h.lt b (List.mem_append_right _ hb)
  refine ⟨hn', fun b hb => by rw [hf.sb]; exact hlt b hb, fun b hb => ?_⟩
  rw [hf.used b (hlt b hb)]
  exact ⟨h.used b (List.mem_append_right _ hb), fun hb' => hne b hb' b hb rfl⟩

/-- A loop that frees lists of blocks: `I` is what its turns keep. -/
theorem foldlM_freed {α : Type*} {f : State → α → Except Fault State} {l : α → List Nat}
    {I : State → Prop} {xs : List α}
    (hstep : ∀ x ∈ xs, ∀ t, I t → Freeable t (l x) → ∃ t', f t x = .ok t' ∧ I t' ∧ Freed t (l x) t')
    (hI : I s) (hf : Freeable s (xs.flatMap l)) :
    ∃ s', xs.foldlM f s = .ok s' ∧ I s' ∧ Freed s (xs.flatMap l) s' := by
  induction xs generalizing s with
  | nil => exact ⟨s, rfl, hI, .refl⟩
  | cons x xs ih =>
    rw [List.flatMap_cons] at hf ⊢
    obtain ⟨s₁, h₁, hI₁, hf₁⟩ := hstep x List.mem_cons_self s hI hf.left
    obtain ⟨s', h', hI', hf'⟩ := ih (fun y hy => hstep y (List.mem_cons_of_mem _ hy)) hI₁ (hf.right hf₁)
    refine ⟨s', ?_, hI', hf₁.trans hf'⟩
    rw [List.foldlM_cons]
    exact bind_ok.mpr ⟨s₁, h₁, h'⟩

/-- What freeing does not touch: the cache, and all blocks but the bitmap. -/
structure Kept (s s' : State) : Prop where
  sb : s'.sb = s.sb
  icache : s'.icache = s.icache
  data : ∀ x, s.sb.dstart ≤ x → s'.disk x = s.disk x

theorem Freed.kept {l : List Nat} (h : Freed s l s') (hc : s'.icache = s.icache) : Kept s s' :=
  ⟨h.sb, hc, fun x hx => h.disk x (.inr hx)⟩

theorem Kept.trans {s'' : State} (h : Kept s s') (h' : Kept s' s'') : Kept s s'' :=
  ⟨h'.sb.trans h.sb, h'.icache.trans h.icache, fun x hx =>
    (h'.data x (by rw [h.sb]; exact hx)).trans (h.data x hx)⟩

/-- **Freeing a tree** frees the blocks of the tree, and no other. -/
theorem freeTree_spec {mem : Nat → Nat → Nat} {depth a : Nat} (hl : s.sb.Layout)
    (hmem : ∀ x, s.sb.dstart ≤ x → (s.disk x).word = mem x)
    (hd : ∀ b ∈ subtree mem NINDIRECT depth a, s.sb.dstart ≤ b)
    (hf : Freeable s (subtree mem NINDIRECT depth a)) :
    ∃ s', State.freeTree depth s a = .ok s' ∧ s'.icache = s.icache ∧
      Freed s (subtree mem NINDIRECT depth a) s' := by
  induction depth generalizing s a with
  | zero =>
    rw [subtree] at hf hd ⊢
    rw [State.freeTree]
    split
    · exact ⟨s, rfl, rfl, .refl⟩
    · next h0 =>
      rw [if_neg h0] at hf
      exact bfree_spec hl (hf.lt a List.mem_cons_self) (hf.used a List.mem_cons_self)
  | succ depth ih =>
    rw [subtree] at hf hd ⊢
    rw [State.freeTree]
    split
    · exact ⟨s, rfl, rfl, .refl⟩
    · next h0 =>
      rw [if_neg h0] at hf hd
      have hda : s.sb.dstart ≤ a := hd a (List.mem_append_right _ List.mem_cons_self)
      have hturn : ∀ j ∈ List.range NINDIRECT, ∀ t, Kept s t →
          Freeable t (subtree mem NINDIRECT depth (mem a j)) →
          ∃ t', State.freeTree depth t ((s.disk a).word j) = .ok t' ∧ Kept s t' ∧
            Freed t (subtree mem NINDIRECT depth (mem a j)) t' := by
        intro j hj t hk hft
        have hlt : t.sb.Layout := by rw [hk.sb]; exact hl
        rw [hmem a hda]
        obtain ⟨t', h', hc', hf'⟩ := ih hlt
          (fun x hx => by
            rw [hk.sb] at hx
            rw [hk.data x hx]
            exact hmem x hx)
          (fun b hb => by
            rw [hk.sb]
            exact hd b (List.mem_append_left _ (List.mem_flatMap.mpr ⟨j, hj, hb⟩))) hft
        exact ⟨t', h', hk.trans (hf'.kept hc'), hf'⟩
      obtain ⟨s₁, h₁, hk₁, hf₁⟩ := foldlM_freed hturn ⟨rfl, rfl, fun _ _ => rfl⟩ hf.left
      have hfa := hf.right hf₁
      obtain ⟨s', h', hc', hf'⟩ := bfree_spec (by rw [hf₁.sb]; exact hl)
        (hfa.lt a List.mem_cons_self) (hfa.used a List.mem_cons_self)
      exact ⟨s', bind_ok.mpr ⟨s₁, h₁, h'⟩, hc'.trans hk₁.icache, hf₁.trans hf'⟩

/-! ## The slots of an inode -/

/-- `t` but for the addresses `ks` of `ip`, which are 0 in `t'`. -/
structure Unslotted (ip : Nat) (ks : List Nat) (t t' : State) : Prop where
  other : ∀ j, j ≠ ip → t'.icache j = t.icache j
  inode : ∃ addrs, (∀ k ∈ ks, addrs k = 0) ∧ (∀ k, k ∉ ks → addrs k = (t.icache ip).din.addrs k) ∧
    t'.icache ip = { t.icache ip with din := { (t.icache ip).din with addrs := addrs } }

theorem freeSlot_spec (ip k depth : Nat) {mem : Nat → Nat → Nat} (hl : s.sb.Layout)
    (hmem : ∀ x, s.sb.dstart ≤ x → (s.disk x).word = mem x)
    (hd : ∀ b ∈ subtree mem NINDIRECT depth ((s.icache ip).din.addrs k), s.sb.dstart ≤ b)
    (hf : Freeable s (subtree mem NINDIRECT depth ((s.icache ip).din.addrs k))) :
    ∃ s', State.freeSlot ip depth s k = .ok s' ∧ Unslotted ip [k] s s' ∧
      Freed s (subtree mem NINDIRECT depth ((s.icache ip).din.addrs k)) s' := by
  by_cases h0 : (s.icache ip).din.addrs k = 0
  · refine ⟨s, if_pos h0, ⟨fun _ _ => rfl, _, ?_, fun _ _ => rfl, rfl⟩, ?_⟩
    · intro j hj
      rw [List.mem_singleton.mp hj]
      exact h0
    · have hnil : subtree mem NINDIRECT depth ((s.icache ip).din.addrs k) = [] := by
        rw [h0]
        cases depth <;> exact if_pos rfl
      rw [hnil]
      exact .refl
  · obtain ⟨s₁, h₁, hc₁, hf₁⟩ := freeTree_spec hl hmem hd hf
    refine ⟨s₁.setAddr ip k 0, ?_, ⟨fun j hj => ?_, ?_⟩, hf₁.cache ip _⟩
    · rw [State.freeSlot, if_neg h0]
      exact bind_ok.mpr ⟨s₁, h₁, rfl⟩
    · rw [← hc₁]
      exact Function.update_of_ne hj ..
    · refine ⟨Function.update (s.icache ip).din.addrs k 0, fun j hj => ?_, fun j hj => ?_, ?_⟩
      · rw [List.mem_singleton.mp hj, Function.update_self]
      · exact Function.update_of_ne (fun he => hj (List.mem_singleton.mpr he)) ..
      · rw [← hc₁]
        exact Function.update_self ..

theorem Unslotted.cons {ip k : Nat} {ks : List Nat} {s'' : State} (h : Unslotted ip [k] s s')
    (h' : Unslotted ip ks s' s'') : Unslotted ip (k :: ks) s s'' := by
  refine ⟨fun j hj => (h'.other j hj).trans (h.other j hj), ?_⟩
  obtain ⟨a, h0, hk, ha⟩ := h.inode
  obtain ⟨a', h0', hk', ha'⟩ := h'.inode
  rw [ha] at hk' ha'
  refine ⟨a', fun j hj => ?_, fun j hj => ?_, ha'⟩
  · by_cases hjs : j ∈ ks
    · exact h0' j hjs
    · rw [hk' j hjs]
      exact h0 j (List.mem_singleton.mpr ((List.mem_cons.mp hj).resolve_right hjs))
  · rw [List.mem_cons, not_or] at hj
    rw [hk' j hj.2]
    exact hk j (fun he => hj.1 (List.mem_singleton.mp he))

theorem freeSlots_spec (ip : Nat) (mem : Nat → Nat → Nat) {addrs : Nat → Nat} {ks : List Nat}
    (hl : s.sb.Layout) (hks : ks.Nodup) (hmem : ∀ x, s.sb.dstart ≤ x → (s.disk x).word = mem x)
    (haddrs : ∀ k ∈ ks, (s.icache ip).din.addrs k = addrs k)
    (hd : ∀ k ∈ ks, ∀ b ∈ subtree mem NINDIRECT (k - 9) (addrs k), s.sb.dstart ≤ b)
    (hf : Freeable s (ks.flatMap fun k => subtree mem NINDIRECT (k - 9) (addrs k))) :
    ∃ s', ks.foldlM (fun s k => State.freeSlot ip (k - 9) s k) s = .ok s' ∧ Unslotted ip ks s s' ∧
      Freed s (ks.flatMap fun k => subtree mem NINDIRECT (k - 9) (addrs k)) s' := by
  induction ks generalizing s with
  | nil => exact ⟨s, rfl, ⟨fun _ _ => rfl, _, fun _ h => absurd h List.not_mem_nil, fun _ _ => rfl, rfl⟩, .refl⟩
  | cons k ks ih =>
    rw [List.flatMap_cons] at hf ⊢
    obtain ⟨hk, hks⟩ := List.nodup_cons.mp hks
    have ha := haddrs k List.mem_cons_self
    obtain ⟨s₁, h₁, hu₁, hf₁⟩ := freeSlot_spec ip k (k - 9) hl hmem
      (by rw [ha]; exact hd k List.mem_cons_self) (by rw [ha]; exact hf.left)
    rw [ha] at hf₁
    have haddrs₁ : ∀ j ∈ ks, (s₁.icache ip).din.addrs j = addrs j := by
      obtain ⟨a, -, hsame, he⟩ := hu₁.inode
      intro j hj
      rw [he]
      refine (hsame j ?_).trans (haddrs j (List.mem_cons_of_mem _ hj))
      intro hjk
      exact hk (List.mem_singleton.mp hjk ▸ hj)
    obtain ⟨s', h', hu', hf'⟩ := ih (by rw [hf₁.sb]; exact hl) hks
      (fun x hx => by
        rw [hf₁.sb] at hx
        rw [hf₁.disk x (.inr hx)]
        exact hmem x hx) haddrs₁
      (fun j hj b hb => by
        rw [hf₁.sb]
        exact hd j (List.mem_cons_of_mem _ hj) b hb) (hf.right hf₁)
    refine ⟨s', ?_, hu₁.cons hu', hf₁.trans hf'⟩
    rw [List.foldlM_cons]
    exact bind_ok.mpr ⟨s₁, h₁, h'⟩

/-! ## `itrunc` -/

/-- The tree of an inode in memory. -/
def State.tree (s : State) (ip : Nat) : Forest Nat where
  root k := if k < NDIRECT + 3 then (s.icache ip).din.addrs k else 0
  mem b := (s.disk b).word

/-- The inode owns the blocks of its tree. -/
structure Owns (s : State) (ip : Nat) : Prop where
  layout : s.sb.Layout
  lt : ip < s.sb.ninodes
  inj : Forest.Inj (· - 9) NINDIRECT (s.tree ip)
  data : ∀ p, Forest.IsPlace (· - 9) NINDIRECT p → (s.tree ip).block p ≠ 0 →
    s.sb.dstart ≤ (s.tree ip).block p ∧ (s.tree ip).block p < s.sb.size ∧
    s.used ((s.tree ip).block p) = true

/-- The blocks that `itrunc` frees, in this order. -/
def State.treeBlocks (s : State) (ip : Nat) : List Nat :=
  Forest.blocks (· - 9) NINDIRECT (s.tree ip) (List.range (NDIRECT + 3))

theorem mem_treeBlocks {ip b : Nat} : b ∈ s.treeBlocks ip ↔
    b ≠ 0 ∧ ∃ p, Forest.IsPlace (· - 9) NINDIRECT p ∧ (s.tree ip).block p = b := by
  rw [State.treeBlocks, Forest.mem_blocks]
  refine and_congr_right fun hb => ⟨fun ⟨p, _, h⟩ => ⟨p, h⟩, fun ⟨p, hp, he⟩ => ⟨p, ?_, hp, he⟩⟩
  rw [List.mem_range]
  by_contra hk
  have hr : (s.tree ip).root p.1 = 0 := if_neg hk
  exact hb (he.symm.trans ((congrArg (follow _ · p.2) hr).trans (follow_zero ..)))

theorem itrunc_eq (s : State) (ip : Nat) : s.itrunc ip = (do
    let s ← (List.range (NDIRECT + 3)).foldlM (fun s k => State.freeSlot ip (k - 9) s k) s
    return s.put ip { (s.icache ip).din with size := 0 }) := by
  have hr : List.range (NDIRECT + 3) = List.range NDIRECT ++ [10, 11, 12] := by decide
  have hdirect : ∀ (ks : List Nat) (t : State), (∀ k ∈ ks, k < NDIRECT) →
      ks.foldlM (fun s k => State.freeSlot ip (k - 9) s k) t = ks.foldlM (State.freeSlot ip 0) t := by
    intro ks
    induction ks with
    | nil => exact fun _ _ => rfl
    | cons k ks ih =>
      intro t hk
      have h0 : k - 9 = 0 := Nat.sub_eq_zero_of_le (Nat.le_of_lt_succ (hk k List.mem_cons_self))
      rw [List.foldlM_cons, List.foldlM_cons, h0]
      exact congrArg _ (funext fun t => ih t fun j hj => hk j (List.mem_cons_of_mem _ hj))
  rw [hr, List.foldlM_append, hdirect _ s fun k hk => List.mem_range.mp hk, State.itrunc, bind_assoc]
  refine congrArg _ (funext fun t => ?_)
  simp only [List.foldlM_cons, List.foldlM_nil, bind_assoc, pure_bind]
  rfl

/-- **Truncation** frees each block of the tree of the inode once and no other, and
leaves it without blocks, in memory and on disk. -/
theorem itrunc_spec {ip : Nat} (h : Owns s ip) :
    ∃ s₁, Freed s (s.treeBlocks ip) s₁ ∧ Unslotted ip (List.range (NDIRECT + 3)) s s₁ ∧
      s.itrunc ip = .ok (s₁.put ip { (s₁.icache ip).din with size := 0 }) := by
  have hmem : ∀ {b}, b ∈ s.treeBlocks ip → s.sb.dstart ≤ b ∧ b < s.sb.size ∧ s.used b = true := by
    intro b hb
    obtain ⟨h0, p, hp, rfl⟩ := mem_treeBlocks.mp hb
    exact h.data p hp h0
  have hroot : ∀ k ∈ List.range (NDIRECT + 3), (s.icache ip).din.addrs k = (s.tree ip).root k :=
    fun k hk => (if_pos (List.mem_range.mp hk)).symm
  obtain ⟨s₁, h₁, hu, hf⟩ := freeSlots_spec ip (s.tree ip).mem h.layout
    List.nodup_range (fun _ _ => rfl) hroot
    (fun k hk b hb => (hmem (List.mem_flatMap.mpr ⟨k, hk, hb⟩)).1)
    ⟨h.inj.nodup_blocks List.nodup_range, fun b hb => (hmem hb).2.1, fun b hb => (hmem hb).2.2⟩
  exact ⟨s₁, hf, hu, (itrunc_eq s ip).trans (bind_ok.mpr ⟨s₁, h₁, rfl⟩)⟩

/-! ## In a well-formed file system -/

variable {ip : Nat}

theorem tree_block (hl : Live s ip) {p : Nat × List Nat} :
    (s.tree ip).block p = s.block ((ip, p.1), p.2) := by
  have hr : (s.tree ip).root p.1 = s.root (ip, p.1) := by
    unfold State.root
    rw [hl.cur]
    by_cases hk : p.1 < NDIRECT + 3
    · exact (if_pos hk).trans (if_pos ⟨hl.lt, hl.type, hk⟩).symm
    · exact (if_neg hk).trans (if_neg fun h => hk h.2.2).symm
  exact congrArg (follow _ · p.2) hr

theorem Wf.owns (h : Wf s) (hl : Live s ip) : Owns s ip where
  layout := h.layout
  lt := hl.lt
  inj p q hp hq hne he := by
    rw [tree_block hl] at hne he
    rw [tree_block hl] at he
    have := h.inj ((ip, p.1), p.2) ((ip, q.1), q.2) hp hq hne he
    simp only [Prod.mk.injEq, true_and] at this
    exact Prod.ext this.1 this.2
  data p hp hne := by
    have hp' : IsPlace ((ip, p.1), p.2) := hp
    rw [tree_block hl] at hne ⊢
    obtain ⟨hlo, hhi⟩ := h.data _ hp' hne
    exact ⟨hlo, hhi, (h.bitmap _ hhi).mpr (.inr ⟨_, hp', rfl⟩)⟩

/-- The forest keeps its properties without the tree of `ip`. -/
theorem Wf.prune (h : Wf s) (hsb : s'.sb = s.sb)
    (hb : ∀ p, IsPlace p → s'.block p = if p.1.1 = ip then 0 else s.block p)
    (hused : ∀ c < s.sb.size, s'.used c = true ↔
      s.used c = true ∧ ¬ (c ≠ 0 ∧ ∃ p, IsPlace p ∧ p.1.1 = ip ∧ s.block p = c)) : Wf s' where
  layout := by rw [hsb]; exact h.layout
  inj p q hp hq hne he := by
    change s'.block p ≠ 0 at hne
    change s'.block p = s'.block q at he
    rw [hb p hp] at hne he
    rw [hb q hq] at he
    split at hne
    · exact absurd rfl hne
    · next hpi =>
      rw [if_neg hpi] at he
      split at he
      · exact absurd he hne
      · exact h.inj p q hp hq hne he
  data p hp hne := by
    rw [hb p hp] at hne ⊢
    rw [hsb]
    split at hne
    · exact absurd rfl hne
    · next hpi =>
      rw [if_neg hpi]
      exact h.data p hp hne
  bitmap c hc := by
    rw [hsb] at hc ⊢
    rw [hused c hc, h.bitmap c hc]
    constructor
    · rintro ⟨hlt | ⟨p, hp, he⟩, hnot⟩
      · exact .inl hlt
      · by_cases hpi : p.1.1 = ip
        · -- a block of the tree that is gone can only be block 0
          have h0 : c = 0 := by
            by_contra h0
            exact hnot ⟨h0, p, hp, hpi, he⟩
          have := h.layout.bmapstart_lt hc
          exact .inl (by omega)
        · exact .inr ⟨p, hp, by rw [hb p hp, if_neg hpi]; exact he⟩
    · rintro (hlt | ⟨p, hp, he⟩)
      · refine ⟨.inl hlt, ?_⟩
        rintro ⟨h0, q, hq, -, rfl⟩
        have := (h.data q hq h0).1
        omega
      · rw [hb p hp] at he
        split at he
        · have := h.layout.bmapstart_lt hc
          subst he
          exact ⟨.inl (by omega), fun hn => hn.1 rfl⟩
        · next hpi =>
          refine ⟨.inr ⟨p, hp, he⟩, ?_⟩
          rintro ⟨h0, q, hq, hqi, hqe⟩
          have hpq := h.inj p q hp hq (fun h00 => h0 (he.symm.trans h00)) (he.trans hqe.symm)
          exact hpi (hpq ▸ hqi)

/-- `s'` is `s` without the blocks of `ip`, whose inode in memory is on disk. -/
structure Truncated (ip : Nat) (s s' : State) : Prop where
  wf : Wf s'
  sb : s'.sb = s.sb
  input : s'.input = s.input
  icache : ∀ j, j ≠ ip → s'.icache j = s.icache j
  inode : ∃ d : Dinode, s'.icache ip = { s.icache ip with din := d } ∧ d.Ok ∧
    d = { (s.icache ip).din with size := 0, addrs := fun _ => 0 }
  dinode : ∀ i < s.sb.ninodes, s'.dinode i = if i = ip then (s'.icache ip).din else s.dinode i
  block : ∀ p, IsPlace p → s'.block p = if p.1.1 = ip then 0 else s.block p
  data : ∀ x, s.sb.dstart ≤ x → x < s.sb.size → s'.disk x = s.disk x
  used : ∀ c < s.sb.size, s'.used c = true ↔
    s.used c = true ∧ ¬ (c ≠ 0 ∧ ∃ p, IsPlace p ∧ p.1.1 = ip ∧ s.block p = c)

theorem itrunc_ok (h : Wf s) (hl : Live s ip) (hok : (s.icache ip).din.Ok) :
    ∃ s', s.itrunc ip = .ok s' ∧ Truncated ip s s' := by
  obtain ⟨s₁, hf, hu, hs⟩ := itrunc_spec (h.owns hl)
  obtain ⟨addrs, h0, hk, ha⟩ := hu.inode
  have haddrs : addrs = fun _ => 0 := by
    funext k
    by_cases hlt : k < NDIRECT + 3
    · exact h0 k (List.mem_range.mpr hlt)
    · rw [hk k (fun hm => hlt (List.mem_range.mp hm))]
      exact hok.range k (by omega)
  subst haddrs
  have hdin : (s₁.icache ip).din = { (s.icache ip).din with addrs := fun _ => 0 } := by rw [ha]
  rw [hdin] at hs
  generalize hd : ({ (s.icache ip).din with size := 0, addrs := fun _ => 0 } : Dinode) = d at hs
  have hdok : d.Ok := by
    subst hd
    exact ⟨hok.type, hok.major, hok.minor, hok.nlink, Nat.two_pow_pos 32,
      fun _ => Nat.two_pow_pos 32, fun _ _ => rfl⟩
  have hself : (s₁.put ip d).icache ip = { s.icache ip with din := d } := by
    rw [State.put_icache, Function.update_self, ha]
  have hother : ∀ j, j ≠ ip → (s₁.put ip d).icache j = s.icache j := by
    intro j hj
    rw [State.put_icache, Function.update_of_ne hj, hu.other j hj]
  have hsb : (s₁.put ip d).sb = s.sb := hf.sb
  have hsb₁ : (s₁.put ip d).sb = s₁.sb := rfl
  have hcur : (s₁.put ip d).cur ip = d := by
    unfold State.cur
    rw [hself, State.put_dinode hdok, if_pos rfl]
    exact ite_self _
  have hdi : ∀ i < s.sb.ninodes, (s₁.put ip d).dinode i = if i = ip then d else s.dinode i := by
    intro i hi
    rw [State.put_dinode hdok, dinode_congr hf.sb (hf.disk _ (.inl (h.layout.inodes i hi)))]
  have hdata : ∀ x, s.sb.dstart ≤ x → x < s.sb.size → (s₁.put ip d).disk x = s.disk x := by
    intro x hx hlt
    have hb := h.layout.bmapstart_lt hlt
    rw [← hf.disk x (.inr hx)]
    have hI : s₁.sb.IBLOCK ip ≠ x := by
      rw [hf.sb]
      exact h.layout.inode_ne hl.lt (by omega)
    exact Function.update_of_ne hI.symm ..
  have hblock : ∀ p, IsPlace p → (s₁.put ip d).block p = if p.1.1 = ip then 0 else s.block p := by
    intro p hp
    split
    · next hpi =>
      have hr : (s₁.put ip d).root p.1 = 0 := by
        unfold State.root
        rw [hpi, hcur, ← hd]
        exact ite_self _
      exact (congrArg (follow _ · p.2) hr).trans (follow_zero ..)
    · next hpi =>
      refine Forest.block_congr ?_ (fun q hq hne i _ => congrArg (Block.word · i) ?_) hp
      · refine root_congr hsb fun hi => cur_congr (hother _ hpi) ?_
        rw [hdi _ hi, if_neg hpi]
      · obtain ⟨hlo, hhi⟩ := h.data q hq.isPlace hne
        exact hdata _ hlo hhi
  have hused : ∀ c < s.sb.size, (s₁.put ip d).used c = true ↔
      s.used c = true ∧ ¬ (c ≠ 0 ∧ ∃ p, IsPlace p ∧ p.1.1 = ip ∧ s.block p = c) := by
    intro c hc
    have hB : (s₁.put ip d).used c = s₁.used c := by
      have hI : s₁.sb.IBLOCK ip ≠ s₁.sb.BBLOCK c := by
        rw [hf.sb]
        exact h.layout.inode_ne hl.lt (Superblock.Layout.le_BBLOCK ..)
      exact used_congr hsb₁ (Function.update_of_ne hI.symm ..)
    rw [hB, hf.used c hc, mem_treeBlocks]
    refine and_congr_right fun _ => not_congr (and_congr_right fun _ => ?_)
    constructor
    · rintro ⟨q, hq, he⟩
      rw [tree_block hl] at he
      exact ⟨((ip, q.1), q.2), hq, rfl, he⟩
    · rintro ⟨⟨⟨i, k⟩, path⟩, hq, rfl, he⟩
      exact ⟨(k, path), hq, (tree_block hl).trans he⟩
  exact ⟨s₁.put ip d, hs, h.prune hf.sb hblock hused, hf.sb, hf.input, hother, ⟨d, hself, hdok, hd.symm⟩,
    fun i hi => by rw [hself]; exact hdi i hi, hblock, hdata, hused⟩

end

end Xv6.Fs
