import Xv6.Lib.Overwrite
import Xv6.Fs.Entries
import Xv6.Fs.Refs

/-!
# Files as sequences of bytes

The content of a file, and what a write between `ilock` and `iunlock` does to it: it is
overwritten, and no other file changes.
-/

namespace Xv6.Fs

open Lib

section
variable {s s' : State} {p ip : Nat}

/-! ## The lock of an inode -/

/-- What an open file relies on: its inode is allocated, referenced and not locked. -/
structure Opened (s : State) (ip : Nat) : Prop where
  ref : 0 < (s.icache ip).ref
  free : (s.icache ip).holder = none
  type : (s.cur ip).type ≠ 0

/-- The state in which `p` has locked `ip`. -/
def State.lockedBy (s : State) (p ip : Nat) : State :=
  s.setInode ip ⟨(s.icache ip).ref, some p, true, s.cur ip⟩

theorem lockedBy_icache : (s.lockedBy p ip).icache ip = ⟨(s.icache ip).ref, some p, true, s.cur ip⟩ :=
  Function.update_self ..

theorem ilock_locked (h : s.ilock p ip = .ok s') : (s.icache ip).holder = none ∧
    0 < (s.icache ip).ref ∧ s' = s.lockedBy p ip := by
  obtain ⟨hh, hr, d, rfl, hdr, hdh, hv, hd⟩ := ilock_ok h
  refine ⟨hh, hr, congrArg (s.setInode ip) ?_⟩
  have hdin : d.din = s.cur ip := by
    rcases hd with ⟨hv', hd⟩ | ⟨hv', hd, -⟩
    · rw [hd, cur_loaded ⟨hv', hr⟩]
    · rw [hd, cur_unloaded]
      intro hl
      exact Bool.false_ne_true (hv'.symm.trans hl.1)
  rw [← hdr, ← hdh, ← hdin, ← hv]

theorem Opened.ilock (h : Opened s ip) (p : Nat) : s.ilock p ip = .ok (s.lockedBy p ip) := by
  have hr := h.ref
  have hok : ∃ s', s.ilock p ip = .ok s' := by
    rw [State.ilock, if_neg (by omega), State.acquiresleep, if_neg (by rw [h.free]; exact Bool.false_ne_true),
      ok_bind]
    simp only [State.setInode, Function.update_self]
    split
    · exact ⟨_, rfl⟩
    · next hv =>
      have ht := h.type
      rw [cur_unloaded fun hl => hv hl.1] at ht
      exact ⟨_, if_neg ht⟩
  obtain ⟨s', hs⟩ := hok
  rw [hs, (ilock_locked hs).2.2]

theorem iunlock_released (h : s.iunlock p ip = .ok s') : (s.icache ip).holder = some p ∧
    s' = s.releasesleep ip := by
  unfold State.iunlock at h
  split at h
  · cases h
  · next hc =>
    cases h
    exact ⟨by by_contra hn; exact hc (.inl hn), rfl⟩

theorem holder_releasesleep : ((s.releasesleep ip).icache ip).holder = none := by
  show (Function.update s.icache ip _ ip).holder = none
  rw [Function.update_self]

end

/-- What `writei` returns for a file. -/
theorem writei_returns {s s' : State} {p ip off n : Nat} {src : Nat → UInt8} (h : Inv s)
    (hp : (s.icache ip).holder = some p) (ht : (s.icache ip).din.type ≠ T_DEV) {r : Int}
    (hs : s.writei p ip src off n = .ok (r, s')) :
    r = -1 ∧ s' = s ∨
    r = n ∧ off ≤ (s.icache ip).din.size ∧ off + n ≤ MAXFILE * BSIZE ∧ Wrote ip src off n s s' := by
  have hs' := hs
  simp only [State.writei] at hs
  rw [if_neg ht] at hs
  split at hs
  · cases hs
    exact .inl ⟨rfl, rfl⟩
  · next hout =>
    split at hs
    · cases hs
      exact .inl ⟨rfl, rfl⟩
    · next hmax =>
      have hoff : off ≤ (s.icache ip).din.size := by omega
      obtain ⟨hr, hw⟩ := writei_ok h hp ht hoff (by omega) hs'
      exact .inr ⟨hr, hoff, by omega, hw⟩

/-! ## The content of a file -/

/-- The bytes of the file `i`. -/
def State.content (s : State) (i : Nat) : List UInt8 := (List.range (s.cur i).size).map (s.byte i)

section
variable {s s' : State} {p ip off n : Nat} {src : Nat → UInt8}

theorem content_length (s : State) (i : Nat) : (s.content i).length = (s.cur i).size := by
  rw [State.content, List.length_map, List.length_range]

theorem getElem?_map_range {β : Type} (g : Nat → β) (m k : Nat) :
    ((List.range m).map g)[k]? = if k < m then some (g k) else none := by
  rw [List.getElem?_map]
  split
  · next h => rw [List.getElem?_range h, Option.map_some]
  · next h => rw [List.getElem?_eq_none (by simpa using h), Option.map_none]

/-- The content is on the disk. -/
theorem content_congr (h : Inv s) (h' : Inv s') (hsb : s'.sb = s.sb) (hdisk : s'.disk = s.disk) (i : Nat) :
    s'.content i = s.content i := by
  have hcur : s'.cur i = s.cur i := by
    rw [h.cur, h'.cur]
    exact dinode_congr hsb (congrFun hdisk _)
  unfold State.content
  rw [hcur]
  exact List.map_congr_left fun k _ => byte_congr h h' hsb hdisk i k

theorem Wrote.cur_self (hw : Wrote ip src off n s s') (hl : Live s ip) : ∃ addrs, s'.cur ip =
    { s.cur ip with size := max (s.cur ip).size (off + n), addrs := addrs } := by
  obtain ⟨addrs, ha⟩ := hw.inode
  refine ⟨addrs, ?_⟩
  have hl' : (s'.icache ip).Loaded := by
    rw [ha]
    exact hl.loaded
  rw [cur_loaded hl', hl.cur, ha]

/-- The file is overwritten. -/
theorem Wrote.content (hw : Wrote ip src off n s s') (hl : Live s ip) (hoff : off ≤ (s.cur ip).size) :
    s'.content ip = overwrite (s.content ip) off ((List.range n).map src) := by
  obtain ⟨addrs, ha⟩ := hw.cur_self hl
  rw [hl.cur] at hoff
  refine List.ext_getElem? fun k => ?_
  rw [getElem?_overwrite (by rw [content_length, hl.cur]; exact hoff)]
  unfold State.content
  rw [getElem?_map_range, getElem?_map_range, getElem?_map_range, List.length_map, List.length_range, ha]
  dsimp only
  rw [hl.cur]
  by_cases hin : off ≤ k ∧ k < off + n
  · rw [if_pos hin, if_pos (by omega), if_pos (by omega), hw.bytes k hin.1 hin.2]
  · rw [if_neg hin]
    by_cases hk : k < (s.icache ip).din.size
    · rw [if_pos (by omega), if_pos hk, hw.rest k (by omega) hk]
    · rw [if_neg (by omega), if_neg hk]

/-- No file is longer than `MAXFILE` blocks. -/
theorem Inv.size_cur (h : Inv s) {i : Nat} (hi : i < s.sb.ninodes) (ht : (s.cur i).type ≠ 0) :
    (s.cur i).size ≤ MAXFILE * BSIZE := by
  by_contra hlt
  exact h.holes i hi ht MAXFILE (by omega) (if_neg (Nat.lt_irrefl _))

/-- Below its size an allocated file has all its blocks. -/
theorem Inv.addr_below (h : Inv s) {i : Nat} (hi : i < s.sb.ninodes) (ht : (s.cur i).type ≠ 0) {pos : Nat}
    (hpos : pos < (s.cur i).size) : s.addr i (pos / BSIZE) ≠ 0 :=
  h.holes i hi ht _ (Nat.lt_of_le_of_lt (Nat.div_mul_le_self ..) hpos)

theorem Wrote.content_other (hw : Wrote ip src off n s s') (h : Inv s) {i : Nat} (hi : i < s.sb.ninodes)
    (hne : i ≠ ip) (ht : (s.cur i).type ≠ 0) : s'.content i = s.content i := by
  unfold State.content
  rw [hw.cur i hi hne]
  refine List.map_congr_left fun k hk => hw.other i hi hne k (h.addr_below hi ht ?_)
  exact List.mem_range.mp hk

/-! ## Changes of one file -/

/-- `c` is the content of the file `ip` now, and for all else `s'` is as `s`. -/
structure Edited (ip : Nat) (c : List UInt8) (s s' : State) : Prop where
  inv : Inv s'
  sb : s'.sb = s.sb
  type : ∀ i < s.sb.ninodes, (s'.cur i).type = (s.cur i).type
  content : s'.content ip = c
  other : ∀ i < s.sb.ninodes, i ≠ ip → (s.cur i).type ≠ 0 → s'.content i = s.content i
  refs : s'.refs = s.refs
  holder : ∀ i, (s'.icache i).holder = (s.icache i).holder

theorem Edited.refl (h : Inv s) : Edited ip (s.content ip) s s :=
  ⟨h, rfl, fun _ _ => rfl, rfl, fun _ _ _ _ => rfl, rfl, fun _ => rfl⟩

theorem Edited.trans {c c' : List UInt8} {s'' : State} (h : Edited ip c s s') (h' : Edited ip c' s' s'') :
    Edited ip c' s s'' where
  inv := h'.inv
  sb := h'.sb.trans h.sb
  type i hi := (h'.type i (by rw [h.sb]; exact hi)).trans (h.type i hi)
  content := h'.content
  other i hi hne ht := by
    rw [h'.other i (by rw [h.sb]; exact hi) hne (by rw [h.type i hi]; exact ht)]
    exact h.other i hi hne ht
  refs := h'.refs.trans h.refs
  holder i := (h'.holder i).trans (h.holder i)

/-- A change of the cache that keeps counts and locks is no change. -/
theorem Edited.of_disk (h : Inv s) (h' : Inv s') (hsb : s'.sb = s.sb) (hdisk : s'.disk = s.disk)
    (hr : s'.refs = s.refs) (hh : ∀ i, (s'.icache i).holder = (s.icache i).holder) :
    Edited ip (s.content ip) s s' := by
  have hcur : ∀ i, s'.cur i = s.cur i := fun i => by
    rw [h.cur, h'.cur]
    exact dinode_congr hsb (congrFun hdisk _)
  exact ⟨h', hsb, fun i _ => by rw [hcur], content_congr h h' hsb hdisk ip,
    fun i _ _ _ => content_congr h h' hsb hdisk i, hr, hh⟩

theorem lockedBy_inv (h : Inv s) (hip : ip < s.sb.ninodes) {s₁ : State} (hs : s.ilock p ip = .ok s₁) :
    Inv (s.lockedBy p ip) := by
  rw [← (ilock_locked hs).2.2]
  exact h.ilock hip hs

theorem lockedBy_cur (hr : 0 < (s.icache ip).ref) (i : Nat) : (s.lockedBy p ip).cur i = s.cur i := by
  by_cases he : i = ip
  · subst he
    rw [cur_loaded (by rw [lockedBy_icache]; exact ⟨rfl, hr⟩), lockedBy_icache]
  · exact cur_congr (Function.update_of_ne he ..) rfl

theorem releasesleep_icache (s : State) (ip i : Nat) : (s.releasesleep ip).icache i =
    if i = ip then { s.icache ip with holder := none } else s.icache i := by
  show Function.update s.icache ip _ i = _
  rw [Function.update_apply]

/-- **A write of a file** between `ilock` and `iunlock`. -/
theorem write_turn (h : Inv s) (hip : ip < s.sb.ninodes) (ht : (s.cur ip).type ≠ T_DEV) {s₁ s₂ s₃ : State}
    {r : Int} (h₁ : s.ilock p ip = .ok s₁) (h₂ : s₁.writei p ip src off n = .ok (r, s₂))
    (h₃ : s₂.iunlock p ip = .ok s₃) :
    r = -1 ∧ Edited ip (s.content ip) s s₃ ∨
    r = n ∧ off ≤ (s.content ip).length ∧ off + n ≤ MAXFILE * BSIZE ∧
      Edited ip (overwrite (s.content ip) off ((List.range n).map src)) s s₃ := by
  have hinv₁ := h.ilock hip h₁
  obtain ⟨hfree, hr, rfl⟩ := ilock_locked h₁
  have hself : (s.lockedBy p ip).icache ip = ⟨(s.icache ip).ref, some p, true, s.cur ip⟩ := lockedBy_icache
  have hp : ((s.lockedBy p ip).icache ip).holder = some p := by rw [hself]
  have hl := hinv₁.live hp
  have hne : ∀ i, i ≠ ip → (s.lockedBy p ip).icache i = s.icache i := fun i hi => Function.update_of_ne hi ..
  have hcontent := content_congr h hinv₁ rfl rfl
  rcases writei_returns hinv₁ hp (by rw [hself]; exact ht) h₂ with ⟨rfl, rfl⟩ | ⟨rfl, hoff, hmax, hw⟩
  · have hinv₃ := hinv₁.iunlock h₃
    obtain ⟨-, rfl⟩ := iunlock_released h₃
    refine .inl ⟨rfl, Edited.of_disk h hinv₃ rfl rfl ?_ fun i => ?_⟩
    · rw [refs_releasesleep]
      exact refs_setInode _ rfl
    · rw [releasesleep_icache]
      split
      · next he => rw [he, hfree]
      · next he => rw [hne i he]
  · have hinv₃ := hw.inv.iunlock h₃
    obtain ⟨-, rfl⟩ := iunlock_released h₃
    rw [hself] at hoff
    refine .inr ⟨rfl, by rw [content_length]; exact hoff, hmax, hinv₃, hw.sb, fun i hi => ?_, ?_, fun i hi hi' hti => ?_,
      ?_, fun i => ?_⟩
    · have hcur₃ : (s₂.releasesleep ip).cur i = s₂.cur i := by
        rw [hinv₃.cur, hw.inv.cur]
        rfl
      rw [hcur₃, ← lockedBy_cur (p := p) hr i]
      by_cases he : i = ip
      · subst he
        obtain ⟨addrs, ha⟩ := hw.cur_self hl
        rw [ha]
      · rw [hw.cur i hi he]
    · rw [content_congr hw.inv hinv₃ rfl rfl, hw.content hl (by rw [lockedBy_cur hr]; exact hoff), hcontent]
    · rw [content_congr hw.inv hinv₃ rfl rfl, hw.content_other hinv₁ hi hi' (by rw [lockedBy_cur hr]; exact hti),
        hcontent]
    · rw [refs_releasesleep]
      funext i
      unfold State.refs
      by_cases he : i = ip
      · obtain ⟨addrs, ha⟩ := hw.inode
        rw [he, ha, hself]
      · rw [hw.icache i he, hne i he]
    · rw [releasesleep_icache]
      split
      · next he => rw [he, hfree]
      · next he => rw [hw.icache i he, hne i he]

end

end Xv6.Fs
