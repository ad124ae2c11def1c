import Xv6.Fs.Dir
import Xv6.Lib.Run

/-!
# References to inodes

What each function does to the reference counts of the inode cache, whatever the
disk holds: `iget` and `idup` add one, `iput` takes one, all others keep them. A
path that is resolved ends in one reference more, and a path that is not in none.
-/

namespace Xv6.Fs

open Lib

/-- The reference counts of the inode cache. -/
def State.refs (s : State) (i : Nat) : Int := (s.icache i).ref

/-- No count has gone below 0. -/
def Counted (s : State) : Prop := ∀ i, 0 ≤ s.refs i

section
variable {s s' s₁ : State} {ip p : Nat}

/-! ## Functions that keep the counts -/

theorem refs_setInode (d : Inode) (h : d.ref = s.refs ip) : (s.setInode ip d).refs = s.refs := by
  funext i
  by_cases hi : i = ip
  · subst hi
    simpa [State.refs, State.setInode] using h
  · simp [State.refs, State.setInode, hi]

theorem refs_setDin (d : Dinode) : (s.setDin ip d).refs = s.refs := refs_setInode _ rfl

theorem refs_setAddr (k b : Nat) : (s.setAddr ip k b).refs = s.refs := refs_setDin _

theorem refs_log_write (b : Nat) (d : Block) : (s.log_write b d).refs = s.refs := rfl

theorem refs_iupdate : (s.iupdate ip).refs = s.refs := rfl

theorem refs_balloc {b : Nat} (h : s.balloc = .ok (b, s')) : s'.refs = s.refs := by
  unfold State.balloc at h
  split at h
  · cases h; rfl
  · cases h

theorem refs_bfree {b : Nat} (h : s.bfree b = .ok s') : s'.refs = s.refs := by
  unfold State.bfree at h
  split at h <;> cases h
  rfl

theorem refs_slot {k b : Nat} (h : s.slot ip k = .ok (b, s')) : s'.refs = s.refs := by
  unfold State.slot at h
  split at h
  · simp only [bind_ok, pure_ok, Prod.exists, Prod.mk.injEq] at h
    obtain ⟨a, s₁, h₁, -, rfl⟩ := h
    exact (refs_setAddr _ _).trans (refs_balloc h₁)
  · cases h; rfl

theorem refs_entry {addr j b : Nat} (h : s.entry addr j = .ok (b, s')) : s'.refs = s.refs := by
  simp only [State.entry] at h
  split at h
  · simp only [bind_ok, pure_ok, Prod.exists, Prod.mk.injEq] at h
    obtain ⟨a, s₁, h₁, -, rfl⟩ := h
    exact (refs_log_write _ _).trans (refs_balloc h₁)
  · cases h; rfl

theorem refs_bmap {bn b : Nat} (h : s.bmap ip bn = .ok (b, s')) : s'.refs = s.refs := by
  simp only [State.bmap] at h
  split at h
  · exact refs_slot h
  · split at h
    · simp only [bind_ok, Prod.exists] at h
      obtain ⟨a₁, s₁, h₁, h⟩ := h
      exact (refs_entry h).trans (refs_slot h₁)
    · split at h
      · simp only [bind_ok, Prod.exists] at h
        obtain ⟨a₁, s₁, h₁, a₂, s₂, h₂, h⟩ := h
        exact ((refs_entry h).trans (refs_entry h₂)).trans (refs_slot h₁)
      · split at h
        · simp only [bind_ok, Prod.exists] at h
          obtain ⟨a₁, s₁, h₁, a₂, s₂, h₂, a₃, s₃, h₃, h⟩ := h
          exact (((refs_entry h).trans (refs_entry h₃)).trans (refs_entry h₂)).trans (refs_slot h₁)
        · cases h

theorem refs_acquiresleep (h : s.acquiresleep p ip = .ok s') : s'.refs = s.refs := by
  unfold State.acquiresleep at h
  split at h <;> cases h
  exact refs_setInode _ rfl

theorem refs_releasesleep : (s.releasesleep ip).refs = s.refs := refs_setInode _ rfl

theorem refs_ilock (h : s.ilock p ip = .ok s') : s'.refs = s.refs := by
  unfold State.ilock at h
  split at h
  · cases h
  · simp only [bind_ok] at h
    obtain ⟨s₁, h₁, h⟩ := h
    split at h
    · cases h; exact refs_acquiresleep h₁
    · split at h
      · cases h
      · cases h
        refine (refs_setInode _ ?_).trans (refs_acquiresleep h₁)
        rfl

theorem refs_iunlock (h : s.iunlock p ip = .ok s') : s'.refs = s.refs := by
  unfold State.iunlock at h
  split at h <;> cases h
  exact refs_releasesleep

/-- A loop of a function that keeps the counts. -/
theorem refs_foldlM {f : State → Nat → Except Fault State}
    (hf : ∀ s k s', f s k = .ok s' → s'.refs = s.refs) (l : List Nat) :
    ∀ {s s' : State}, l.foldlM f s = .ok s' → s'.refs = s.refs := by
  induction l with
  | nil => exact fun h => by cases h; rfl
  | cons k l ih =>
    intro s s' h
    rw [List.foldlM_cons, bind_ok] at h
    obtain ⟨s₁, h₁, h⟩ := h
    exact (ih h).trans (hf s k s₁ h₁)

theorem refs_freeTree (depth : Nat) : ∀ {s s' : State} {addr : Nat},
    State.freeTree depth s addr = .ok s' → s'.refs = s.refs := by
  induction depth with
  | zero =>
    intro s s' addr h
    unfold State.freeTree at h
    split at h
    · cases h; rfl
    · exact refs_bfree h
  | succ depth ih =>
    intro s s' addr h
    unfold State.freeTree at h
    split at h
    · cases h; rfl
    · simp only [bind_ok] at h
      obtain ⟨s₁, h₁, h⟩ := h
      exact (refs_bfree h).trans (refs_foldlM (fun _ _ _ hk => ih hk) _ h₁)

theorem refs_freeSlot {depth k : Nat} (h : State.freeSlot ip depth s k = .ok s') :
    s'.refs = s.refs := by
  unfold State.freeSlot at h
  split at h
  · cases h; rfl
  · simp only [bind_ok, pure_ok] at h
    obtain ⟨s₁, h₁, rfl⟩ := h
    exact (refs_setAddr _ _).trans (refs_freeTree depth h₁)

theorem refs_itrunc (h : s.itrunc ip = .ok s') : s'.refs = s.refs := by
  simp only [State.itrunc, bind_ok, pure_ok] at h
  obtain ⟨s₁, h₁, s₂, h₂, s₃, h₃, s₄, h₄, rfl⟩ := h
  have hdirect := refs_foldlM (fun _ _ _ hk => refs_freeSlot hk) _ h₁
  have hslots := ((refs_freeSlot h₄).trans (refs_freeSlot h₃)).trans (refs_freeSlot h₂)
  exact (refs_iupdate.trans (refs_setDin _)).trans (hslots.trans hdirect)

theorem refs_consoleread {n : Int} {r : Int × List UInt8} (h : s.consoleread p ip n = .ok (r, s')) :
    s'.refs = s.refs := by
  simp only [State.consoleread, bind_ok, pure_ok, Prod.mk.injEq] at h
  obtain ⟨s₁, h₁, s₂, h₂, -, rfl⟩ := h
  have hinput : ∀ l, ({ s₁ with input := l } : State).refs = s₁.refs := fun _ => rfl
  exact (refs_ilock h₂).trans ((hinput _).trans (refs_iunlock h₁))

theorem refs_readLoop {n : Nat} : ∀ {fuel : Nat} {s s' : State} {tot off : Nat} {bytes : List UInt8},
    State.readLoop ip n fuel s tot off = .ok (bytes, s') → s'.refs = s.refs := by
  intro fuel
  induction fuel with
  | zero => exact fun h => by cases h; rfl
  | succ fuel ih =>
    intro s s' tot off bytes h
    unfold State.readLoop at h
    split at h
    · simp only [bind_ok, pure_ok, Prod.exists, Prod.mk.injEq] at h
      obtain ⟨b, s₁, h₁, bytes', s₂, h₂, -, rfl⟩ := h
      exact (ih h₂).trans (refs_bmap h₁)
    · cases h; rfl

theorem refs_readi {off n : Nat} {r : Int × List UInt8} (h : s.readi p ip off n = .ok (r, s')) :
    s'.refs = s.refs := by
  simp only [State.readi] at h
  split at h
  · split at h
    · cases h; rfl
    · exact refs_consoleread h
  · split at h
    · cases h; rfl
    · simp only [bind_ok, pure_ok, Prod.exists, Prod.mk.injEq] at h
      obtain ⟨bytes, s₁, h₁, -, rfl⟩ := h
      exact refs_readLoop h₁

theorem refs_scan {msg : String} {stop : Dirent → Bool} {offs : List Nat} :
    ∀ {s s' : State} {r : Option (Nat × Dirent)},
      State.scan p ip msg stop offs s = .ok (r, s') → s'.refs = s.refs := by
  induction offs with
  | nil => exact fun h => by cases h; rfl
  | cons off offs ih =>
    intro s s' r h
    simp only [State.scan, bind_ok, Prod.exists] at h
    obtain ⟨x, bytes, s₁, h₁, h⟩ := h
    split at h
    · cases h
    · split at h
      · cases h; exact refs_readi h₁
      · exact (ih h).trans (refs_readi h₁)

/-! ## Functions that move the counts -/

/-- The counts with one reference more at `i`. -/
def oneMore (r : Nat → Int) (i : Nat) : Nat → Int := Function.update r i (r i + 1)

theorem refs_iget (hc : Counted s) (h : s.iget ip = .ok s') : s'.refs = oneMore s.refs ip := by
  have h0 := hc ip
  unfold State.iget at h
  split at h
  · cases h
    funext i
    by_cases hi : i = ip
    · subst hi; simp [State.refs, State.setInode, oneMore]
    · simp [State.refs, State.setInode, oneMore, hi]
  · next hn =>
    split at h
    · cases h
    · cases h
      have hz : s.refs ip = 0 := by unfold State.refs at *; omega
      funext i
      by_cases hi : i = ip
      · subst hi
        rw [oneMore, Function.update_self, hz]
        simp [State.refs, State.setInode]
      · simp [State.refs, State.setInode, oneMore, hi]

theorem refs_idup : (s.idup ip).refs = oneMore s.refs ip := by
  funext i
  by_cases hi : i = ip
  · subst hi; simp [State.idup, State.refs, State.setInode, oneMore]
  · simp [State.idup, State.refs, State.setInode, oneMore, hi]

/-- `iput` takes back one reference, whether or not it frees the inode. -/
theorem refs_iput (h : s.iput p ip = .ok s') : s.refs = oneMore s'.refs ip := by
  have hdrop : ∀ t : State, t.refs = oneMore ((t.releasesleep ip).setInode ip
      { (t.releasesleep ip).icache ip with ref := ((t.releasesleep ip).icache ip).ref - 1 }).refs ip := by
    intro t
    funext i
    by_cases hi : i = ip
    · subst hi; simp [State.refs, State.setInode, State.releasesleep, oneMore]
    · simp [State.refs, State.setInode, State.releasesleep, oneMore, hi]
  obtain ⟨s₁, h₁, h⟩ := bind_ok.mp h
  have hs₁ := refs_acquiresleep h₁
  split at h
  · simp only [bind_ok, ok_bind, pure_ok] at h
    obtain ⟨s₂, h₂, rfl⟩ := h
    rw [← hdrop, ← hs₁, ← refs_itrunc h₂]
    rw [refs_setInode, refs_iupdate, refs_setDin]
    rfl
  · cases h
    rw [← hdrop, hs₁]

theorem refs_iunlockput (h : s.iunlockput p ip = .ok s') : s.refs = oneMore s'.refs ip := by
  simp only [State.iunlockput, bind_ok] at h
  obtain ⟨s₁, h₁, h⟩ := h
  rw [← refs_iunlock h₁]
  exact refs_iput h

/-- Adding a reference can be undone by removing it only. -/
theorem oneMore_inj {r r' : Nat → Int} {i : Nat} (h : oneMore r i = oneMore r' i) : r = r' := by
  funext j
  have hj := congrFun h j
  unfold oneMore at hj
  by_cases hji : j = i
  · subst hji
    rw [Function.update_self, Function.update_self] at hj
    omega
  · rwa [Function.update_of_ne hji, Function.update_of_ne hji] at hj

theorem oneMore_comm (r : Nat → Int) (i j : Nat) :
    oneMore (oneMore r i) j = oneMore (oneMore r j) i := by
  funext x
  simp only [oneMore, Function.update_apply]
  by_cases hi : x = i <;> by_cases hj : x = j <;> simp_all

/-- A count that stays above 0 without a reference was above 0 with it. -/
theorem Counted.oneMore (hc : Counted s) (h : s'.refs = Fs.oneMore s.refs ip) : Counted s' := by
  intro i
  have h0 := hc i
  rw [h]
  unfold Fs.oneMore
  by_cases hi : i = ip
  · subst hi; rw [Function.update_self]; omega
  · rwa [Function.update_of_ne hi]

theorem Counted.congr (hc : Counted s) (h : s'.refs = s.refs) : Counted s' := fun i => by
  rw [h]; exact hc i

theorem refs_dirlookup {name : Name} {r : Option (Nat × Nat)} (hc : Counted s)
    (h : s.dirlookup p ip name = .ok (r, s')) :
    s'.refs = r.elim s.refs fun x => oneMore s.refs x.1 := by
  unfold State.dirlookup at h
  split at h
  · cases h
  · simp only [bind_ok, Prod.exists] at h
    obtain ⟨found, s₁, h₁, h⟩ := h
    have hs₁ := refs_scan h₁
    cases found with
    | none => cases h; exact hs₁
    | some x =>
      simp only [bind_ok, pure_ok, Prod.mk.injEq] at h
      obtain ⟨s₂, h₂, rfl, rfl⟩ := h
      rw [refs_iget (hc.congr hs₁) h₂, hs₁]
      rfl

/-! ## Paths -/

/-- The loop of `namei` gives up its reference, or passes it on to what it returns. -/
theorem refs_namexLoop : ∀ {fuel : Nat} {path : List UInt8} {name name' : Name} {ip : Nat}
    {s s' : State} {r : Option Nat} {base : Nat → Int}, Counted s →
    s.refs = oneMore base ip → (∀ i, 0 ≤ base i) →
    State.namexLoop p false fuel path name ip s = .ok (r, name', s') →
    s'.refs = r.elim base (oneMore base) := by
  intro fuel
  induction fuel with
  | zero => exact fun _ hb _ h => by cases h; exact hb
  | succ fuel ih =>
    intro path name name' ip s s' r base hc hb h0 h
    unfold State.namexLoop at h
    split at h
    · rw [if_neg Bool.false_ne_true] at h
      cases h
      exact hb
    · next path₁ name₁ hskip =>
      rw [bind_ok] at h
      obtain ⟨s₁, h₁, h⟩ := h
      have hs₁ := refs_ilock h₁
      split at h
      · rw [bind_ok] at h
        obtain ⟨s₂, h₂, h⟩ := h
        cases h
        exact oneMore_inj (((refs_iunlockput h₂).symm.trans hs₁).trans hb)
      · rw [if_neg (fun hn => Bool.false_ne_true hn.1), bind_ok] at h
        obtain ⟨⟨found, s₂⟩, h₂, h⟩ := h
        have hs₂ := refs_dirlookup (hc.congr hs₁) h₂
        cases found with
        | none =>
          rw [bind_ok] at h
          obtain ⟨s₃, h₃, h⟩ := h
          cases h
          exact oneMore_inj (((refs_iunlockput h₃).symm.trans (hs₂.trans hs₁)).trans hb)
        | some x =>
          obtain ⟨next, off⟩ := x
          rw [bind_ok] at h
          obtain ⟨s₃, h₃, h⟩ := h
          rw [Option.elim_some] at hs₂
          have hs₃ : s₃.refs = oneMore base next := by
            refine oneMore_inj ((refs_iunlockput h₃).symm.trans ?_)
            rw [hs₂, hs₁, hb, oneMore_comm]
          have hc₃ : Counted s₃ := by
            intro i
            rw [hs₃, oneMore, Function.update_apply]
            have := h0 i
            have := h0 next
            split <;> omega
          exact ih hc₃ hs₃ h0 h

/-- **Path references**: `namei` adds one reference to the inode it returns. -/
theorem refs_namei {path : List UInt8} {name name' : Name} {cwd : Nat} {r : Option Nat}
    (hc : Counted s) (h : s.namex p cwd path false name = .ok (r, name', s')) :
    s'.refs = r.elim s.refs (oneMore s.refs) := by
  simp only [State.namex, bind_ok, Prod.exists] at h
  obtain ⟨ip, s₁, h₁, h⟩ := h
  have hs₁ : s₁.refs = oneMore s.refs ip := by
    unfold State.startDir at h₁
    split at h₁
    · simp only [bind_ok, pure_ok, Prod.mk.injEq] at h₁
      obtain ⟨s₂, h₂, rfl, rfl⟩ := h₁
      exact refs_iget hc h₂
    · cases h₁; exact refs_idup
  exact refs_namexLoop (hc.oneMore hs₁) hs₁ hc h

end

end Xv6.Fs
