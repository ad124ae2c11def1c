import Xv6.Lib.Simulate
import Xv6.Fs.Runs

/-!
# Files under any calls

The inode layer as arrays of bytes. Each call leaves all files but one as they are, and
any calls of `readi`, `writei` and `itrunc` answer as they would on arrays.
-/

namespace Xv6.Fs

open Lib

section
variable {s s' : State} {p ip i off n : Nat}

/-! ## Files that are left alone -/

/-- The file `i` is as it was. -/
structure Spared (i : Nat) (s s' : State) : Prop where
  cur : s'.cur i = s.cur i
  content : s'.content i = s.content i

theorem Spared.refl : Spared i s s := ⟨rfl, rfl⟩

theorem Spared.trans {s'' : State} (h : Spared i s s') (h' : Spared i s' s'') : Spared i s s'' :=
  ⟨h'.cur.trans h.cur, h'.content.trans h.content⟩

/-- Only the cache has changed. -/
theorem Spared.of_disk (h : Inv s) (h' : Inv s') (hsb : s'.sb = s.sb) (hdisk : s'.disk = s.disk) :
    Spared i s s' := by
  refine ⟨?_, content_congr h h' hsb hdisk i⟩
  rw [h.cur, h'.cur]
  exact dinode_congr hsb (congrFun hdisk _)

theorem Spared.of_bytes (hcur : s'.cur i = s.cur i)
    (hb : ∀ pos < (s.cur i).size, s'.byte i pos = s.byte i pos) : Spared i s s' := by
  refine ⟨hcur, ?_⟩
  unfold State.content
  rw [hcur]
  exact List.map_congr_left fun k hk => hb k (List.mem_range.mp hk)

theorem Spared.wrote {src : Nat → UInt8} (h : Inv s) (hw : Wrote ip src off n s s') (hi : i < s.sb.ninodes)
    (ht : (s.cur i).type ≠ 0) (hne : i ≠ ip) : Spared i s s' :=
  .of_bytes (hw.cur i hi hne) fun pos hpos => hw.other i hi hne pos (h.addr_below hi ht hpos)

/-- The inode of another file is written. -/
theorem Spared.addNlink (h : Inv s) (hp : (s.icache ip).holder = some p) (hi : i < s.sb.ninodes)
    (ht : (s.cur i).type ≠ 0) (hne : i ≠ ip) (k : Int) : Spared i s (s.addNlink ip k) := by
  have hl := h.live hp
  have hok := h.ok hl.loaded
  have hd : ({ (s.icache ip).din with nlink := short ((s.icache ip).din.nlink + k) } : Dinode).Ok :=
    ⟨hok.type, hok.major, hok.minor, Block.short_range _, hok.size, hok.addrs, hok.range⟩
  have hs : Same s (s.addNlink ip k) := Same.put h.wf hl.lt hd fun k hk => by
    rw [if_neg (show _ ≠ (0 : Int) from hl.type)]
    exact (hl.block_nil hk).symm
  have hput : (s.addNlink ip k).dinode i = if i = ip then _ else s.dinode i := State.put_dinode hd i
  have hdin : (s.addNlink ip k).dinode i = s.dinode i := hput.trans (if_neg hne)
  exact .of_bytes (cur_congr (addNlink_other hne k) hdin)
    fun pos hpos => hs.byte h.wf (h.addr_below hi ht hpos)

/-- Bytes of a file whose tree and data are kept. -/
theorem byte_kept (h : Inv s) (hi : i < s.sb.ninodes) (ht : (s.cur i).type ≠ 0)
    (hb : ∀ q, IsPlace q → q.1.1 = i → s'.block q = s.block q)
    (hd : ∀ x, s.sb.dstart ≤ x → x < s.sb.size → s'.disk x = s.disk x) {pos : Nat}
    (hpos : pos < (s.cur i).size) : s'.byte i pos = s.byte i pos := by
  have hne := h.addr_below hi ht hpos
  unfold State.byte
  rw [addr_congr hb]
  obtain ⟨-, hleaf, ha⟩ := addr_ne_zero hne
  rw [ha] at hne ⊢
  obtain ⟨hlo, hhi⟩ := h.wf.data _ hleaf.1 hne
  exact congrFun (hd _ hlo hhi) _

theorem Spared.truncated (h : Inv s) (htr : Truncated ip s s') (hi : i < s.sb.ninodes)
    (ht : (s.cur i).type ≠ 0) (hne : i ≠ ip) : Spared i s s' :=
  .of_bytes (cur_congr (htr.icache i hne) (by rw [htr.dinode i hi, if_neg hne])) fun _ hpos =>
    byte_kept h hi ht (fun q hq hqi => by rw [htr.block q hq, if_neg (by rw [hqi]; exact hne)]) htr.data hpos

theorem Spared.released (h : Inv s) (hr : Sound.Released ip s s') (hi : i < s.sb.ninodes)
    (ht : (s.cur i).type ≠ 0) (hne : i ≠ ip) : Spared i s s' :=
  .of_bytes (cur_congr (hr.icache i hne) (by rw [hr.dinode i hi, if_neg hne])) fun _ hpos =>
    byte_kept h hi ht (fun q hq hqi => by rw [hr.block q hq, if_neg (by rw [hqi]; exact hne)]) hr.data hpos

/-- Giving up an inode leaves the others as they are. -/
theorem Spared.iput (h : Inv s) (hs : s.iput p ip = .ok s') (hi : i < s.sb.ninodes)
    (ht : (s.cur i).type ≠ 0) (hne : i ≠ ip) : Spared i s s' := by
  by_cases hn : (s.icache ip).valid ∧ (s.icache ip).din.nlink = 0 ∧ (s.icache ip).ref = 1
  · obtain ⟨s₁, h₁, hr⟩ := h.sound.iput_free (p := p) hn.1 hn.2.1 hn.2.2 (iput_free_lock hs)
    rw [h₁] at hs
    cases hs
    exact .released h hr hi ht hne
  · have hinv := h.iput hs
    obtain ⟨-, rfl⟩ := Sound.iput_drop hn hs
    exact .of_disk h hinv rfl rfl

theorem Spared.iunlockput (h : Inv s) (hs : s.iunlockput p ip = .ok s') (hi : i < s.sb.ninodes)
    (ht : (s.cur i).type ≠ 0) (hne : i ≠ ip) : Spared i s s' := by
  obtain ⟨s₁, h₁, hs⟩ := bind_ok.mp hs
  have he := (iunlock_released h₁).2
  have hi₁ := h.iunlock h₁
  have hsp : Spared i s s₁ := .of_disk h hi₁ (by rw [he]; rfl) (iunlock_disk h₁)
  refine hsp.trans (.iput hi₁ hs ?_ (by rw [hsp.cur]; exact ht) hne)
  rw [he]
  exact hi

/-! ## The inode layer as arrays -/

/-- Calls on files by processes that hold their locks. -/
inductive Io where
  | readi (p ip off n : Nat)
  | writei (p ip : Nat) (src : Nat → UInt8) (off n : Nat)
  | itrunc (p ip : Nat)

def ioStep (s : State) : Io → Except Fault ((Int × List UInt8) × State)
  | .readi p ip off n => s.readi p ip off n
  | .writei p ip src off n => do
    let (r, s) ← s.writei p ip src off n
    return ((r, []), s)
  | .itrunc _ ip => do
    let s ← s.itrunc ip
    return ((0, []), s)

/-- The same calls on arrays of bytes. -/
def arrayStep (c : Nat → List UInt8) : Io → (Int × List UInt8) × (Nat → List UInt8)
  | .readi _ ip off n =>
    if off ≤ (c ip).length ∧ off + n < 2 ^ 32 then
      let bytes := ((c ip).drop off).take n
      ((bytes.length, bytes), c)
    else ((-1, []), c)
  | .writei _ ip src off n =>
    if off ≤ (c ip).length ∧ off + n ≤ MAXFILE * BSIZE then
      ((n, []), Function.update c ip (overwrite (c ip) off ((List.range n).map src)))
    else ((-1, []), c)
  | .itrunc _ ip => ((0, []), Function.update c ip [])

/-- The process holds the lock of the inode, which is a file or a directory. -/
def FileLock (s : State) (p ip : Nat) : Prop :=
  (s.icache ip).holder = some p ∧ (s.icache ip).din.type ≠ T_DEV

/-- Who calls on which inode; `off` and `n` are `uint`. -/
def Io.By (U : Nat → Nat → Prop) : Io → Prop
  | .readi p ip off n => U p ip ∧ off < 2 ^ 32 ∧ n < 2 ^ 32
  | .writei p ip _ off n => U p ip ∧ off < 2 ^ 32 ∧ n < 2 ^ 32
  | .itrunc p ip => U p ip

/-- The arrays are the contents of the files. -/
structure Contents (U : Nat → Nat → Prop) (s : State) (c : Nat → List UInt8) : Prop where
  inv : Inv s
  holds : ∀ p ip, U p ip → FileLock s p ip
  content : ∀ i < s.sb.ninodes, (s.cur i).type ≠ 0 → s.content i = c i

theorem take_drop_content (s : State) (i off n : Nat) : ((s.content i).drop off).take n =
    (List.range (min n ((s.cur i).size - off))).map fun j => s.byte i (off + j) := by
  refine List.ext_getElem? fun k => ?_
  rw [getElem?_map_range, List.getElem?_take]
  by_cases hk : k < n
  · rw [if_pos hk, List.getElem?_drop, State.content, getElem?_map_range]
    by_cases hlt : off + k < (s.cur i).size
    · rw [if_pos hlt, if_pos (by omega)]
    · rw [if_neg hlt, if_neg (by omega)]
  · rw [if_neg hk, if_neg (by omega)]

namespace Contents

variable {U : Nat → Nat → Prop} {c : Nat → List UInt8}

theorem live (h : Contents U s c) (hU : U p ip) : Live s ip := h.inv.live (h.holds p ip hU).1

theorem size (h : Contents U s c) (hU : U p ip) : (c ip).length = (s.icache ip).din.size := by
  have hl := h.live hU
  rw [← h.content ip hl.lt (by rw [hl.cur]; exact hl.type), content_length, hl.cur]

theorem readi (h : Contents U s c) (hU : U p ip) (hoff : off < 2 ^ 32) (hn : n < 2 ^ 32) {r : Int × List UInt8}
    (hs : s.readi p ip off n = .ok (r, s')) : (arrayStep c (.readi p ip off n)).1 = r ∧ Contents U s' c := by
  obtain ⟨hp, ht⟩ := h.holds p ip hU
  have hl := h.live hU
  obtain rfl := readi_state h.inv hp ht hs
  refine ⟨?_, h⟩
  have hsize := h.size hU
  unfold arrayStep
  dsimp only
  by_cases hin : off ≤ (c ip).length ∧ off + n < 2 ^ 32
  · rw [if_pos hin]
    rw [hsize] at hin
    rw [readi_eq h.inv hp ht hin.1 hin.2] at hs
    have hb : ((c ip).drop off).take n = (List.range (min n ((s'.icache ip).din.size - off))).map
        fun j => s'.byte ip (off + j) := by
      rw [← h.content ip hl.lt (by rw [hl.cur]; exact hl.type), take_drop_content, hl.cur]
    rw [← (Prod.mk.inj (Except.ok.inj hs)).1, hb, List.length_map, List.length_range]
  · rw [if_neg hin]
    rw [hsize] at hin
    simp only [State.readi] at hs
    rw [if_neg ht, if_pos (by omega)] at hs
    exact (Prod.mk.inj (Except.ok.inj hs)).1

/-- A change of one file that its array follows. -/
theorem update (h : Contents U s c) {b : List UInt8} (hinv : Inv s') (hsb : s'.sb = s.sb)
    (hholds : ∀ p i, U p i → FileLock s' p i)
    (htype : ∀ i < s.sb.ninodes, (s'.cur i).type ≠ 0 → (s.cur i).type ≠ 0)
    (hself : s'.content ip = b) (hother : ∀ i < s.sb.ninodes, (s.cur i).type ≠ 0 → i ≠ ip →
      s'.content i = s.content i) : Contents U s' (Function.update c ip b) := by
  refine ⟨hinv, hholds, fun i hi ht => ?_⟩
  rw [hsb] at hi
  by_cases he : i = ip
  · rw [he, Function.update_self, hself]
  · have ht' := htype i hi ht
    rw [Function.update_of_ne he, hother i hi ht' he, h.content i hi ht']

theorem writei (h : Contents U s c) (hU : U p ip) {src : Nat → UInt8} {r : Int}
    (hs : s.writei p ip src off n = .ok (r, s')) : (arrayStep c (.writei p ip src off n)).1 = (r, []) ∧
      Contents U s' (arrayStep c (.writei p ip src off n)).2 := by
  obtain ⟨hp, ht⟩ := h.holds p ip hU
  have hl := h.live hU
  have hsize := h.size hU
  have hcur := hl.cur
  have hlt := maxfile_lt
  unfold arrayStep
  dsimp only
  by_cases hin : off ≤ (c ip).length ∧ off + n ≤ MAXFILE * BSIZE
  · rw [if_pos hin]
    rw [hsize] at hin
    obtain ⟨rfl, hw⟩ := writei_ok h.inv hp ht hin.1 hin.2 hs
    refine ⟨rfl, h.update hw.inv hw.sb (fun q i hq => ?_) (fun i hi => ?_) ?_ fun i hi hti hne => ?_⟩
    · have hh := h.holds q i hq
      unfold FileLock
      by_cases he : i = ip
      · subst he
        obtain ⟨addrs, ha⟩ := hw.inode
        rw [ha]
        exact hh
      · rw [hw.icache i he]
        exact hh
    · by_cases he : i = ip
      · subst he
        obtain ⟨addrs, ha⟩ := hw.cur_self hl
        rw [ha]
        exact id
      · rw [hw.cur i hi he]
        exact id
    · rw [hw.content hl (by rw [hcur]; exact hin.1), h.content ip hl.lt (by rw [hcur]; exact hl.type)]
    · exact hw.content_other h.inv hi hne hti
  · rw [if_neg hin]
    rw [hsize] at hin
    rcases writei_returns h.inv hp ht hs with ⟨rfl, rfl⟩ | ⟨-, hoff, hmax, -⟩
    · exact ⟨rfl, h⟩
    · exact absurd ⟨hoff, hmax⟩ hin

theorem itrunc (h : Contents U s c) (hU : U p ip) (hs : s.itrunc ip = .ok s') :
    Contents U s' (Function.update c ip []) := by
  have hl := h.live hU
  obtain ⟨s₁, h₁, htr⟩ := itrunc_ok h.inv.wf hl (h.inv.ok hl.loaded)
  rw [h₁] at hs
  cases hs
  obtain ⟨d, hc, -, hd⟩ := htr.inode
  have hcur : s'.cur ip = d := by
    rw [cur_loaded (by rw [hc]; exact hl.loaded), hc]
  refine h.update (htr.inv h.inv hl) htr.sb (fun q i hq => ?_) (fun i hi => ?_) ?_ fun i hi hti hne =>
    (Spared.truncated h.inv htr hi hti hne).content
  · have hh := h.holds q i hq
    unfold FileLock
    by_cases he : i = ip
    · subst he
      rw [hc, hd]
      exact hh
    · rw [htr.icache i he]
      exact hh
  · by_cases he : i = ip
    · subst he
      rw [hcur, hl.cur, hd]
      exact id
    · rw [cur_congr (htr.icache i he) (by rw [htr.dinode i hi, if_neg he])]
      exact id
  · unfold State.content
    rw [hcur, hd]
    rfl

theorem simulates (U : Nat → Nat → Prop) : Simulates ioStep arrayStep (Io.By U) (Contents U) where
  step := by
    intro s c a r s' h hG hs
    cases a with
    | readi p ip off n =>
      obtain ⟨hr, h'⟩ := h.readi hG.1 hG.2.1 hG.2.2 hs
      refine ⟨hr, ?_⟩
      unfold arrayStep
      dsimp only
      split <;> exact h'
    | writei p ip src off n =>
      obtain ⟨⟨x, s₁⟩, h₁, hs⟩ := bind_ok.mp hs
      cases hs
      exact h.writei hG.1 h₁
    | itrunc p ip =>
      obtain ⟨s₁, h₁, hs⟩ := bind_ok.mp hs
      cases hs
      exact ⟨rfl, h.itrunc hG h₁⟩

end Contents

end

/-! ## Faults -/

theorem writeLoop_error {s : State} {src : Nat → UInt8} {ip n fuel tot off : Nat} {f : Fault}
    (hmax : off + (n - tot) ≤ MAXFILE * BSIZE) (hs : State.writeLoop ip src n fuel s tot off = .error f) :
    f = .panic "balloc: out of blocks" := by
  induction fuel generalizing s tot off with
  | zero => cases hs
  | succ fuel ih =>
    rw [State.writeLoop] at hs
    split at hs
    · next hlt =>
      have hbn : off / BSIZE < MAXFILE := by
        rw [Nat.div_lt_iff_lt_mul (by decide)]
        omega
      rcases bind_error.mp hs with hs | ⟨_, _, hs⟩
      · exact bmap_error hbn hs
      · have hmin := Nat.min_le_left (n - tot) (BSIZE - off % BSIZE)
        exact ih (by omega) hs
    · cases hs

/-- A write of a file faults only where the disk is full. -/
theorem writei_error {s : State} {src : Nat → UInt8} {p ip off n : Nat} {f : Fault}
    (ht : (s.icache ip).din.type ≠ T_DEV) (hs : s.writei p ip src off n = .error f) :
    f = .panic "balloc: out of blocks" := by
  simp only [State.writei] at hs
  rw [if_neg ht] at hs
  split at hs
  · cases hs
  · split at hs
    · cases hs
    · next hmax =>
      rcases bind_error.mp hs with hs | ⟨_, _, hs⟩
      · exact writeLoop_error (by omega) hs
      · split at hs <;> cases hs

/-- So do calls on files that are locked. -/
theorem Contents.error {U : Nat → Nat → Prop} {s : State} {c : Nat → List UInt8} {a : Io} {f : Fault}
    (h : Contents U s c) (hU : a.By U) (hs : ioStep s a = .error f) : f = .panic "balloc: out of blocks" := by
  cases a with
  | readi p ip off n =>
    obtain ⟨hp, ht⟩ := h.holds p ip hU.1
    have hs : s.readi p ip off n = .error f := hs
    by_cases hin : off ≤ (s.icache ip).din.size ∧ off + n < 2 ^ 32
    · rw [readi_eq h.inv hp ht hin.1 hin.2] at hs
      cases hs
    · have hoff := hU.2.1
      have hn := hU.2.2
      simp only [State.readi] at hs
      rw [if_neg ht, if_pos (by omega)] at hs
      cases hs
  | writei p ip src off n =>
    rcases bind_error.mp hs with hs | ⟨_, _, hs⟩
    · exact writei_error (h.holds p ip hU.1).2 hs
    · cases hs
  | itrunc p ip =>
    have hl := h.live hU
    obtain ⟨s₁, h₁, -⟩ := itrunc_ok h.inv.wf hl (h.inv.ok hl.loaded)
    rcases bind_error.mp hs with hs | ⟨_, _, hs⟩
    · rw [h₁] at hs
      cases hs
    · cases hs

/-- **The inode layer is arrays of bytes**: any reads, writes and truncations of locked files
answer as they do on arrays, and leave the contents that the arrays have, unless the disk
gets full. -/
theorem io_refines {U : Nat → Nat → Prop} {s : State} {ops : List Io} (h : Inv s)
    (hU : ∀ p ip, U p ip → FileLock s p ip) (hops : ∀ a ∈ ops, a.By U) :
    (∃ s', outputs ioStep ops s = .ok ((answers arrayStep ops s.content).1, s') ∧
      Contents U s' (answers arrayStep ops s.content).2) ∨
    outputs ioStep ops s = .error (.panic "balloc: out of blocks") := by
  have hc : Contents U s s.content := ⟨h, hU, fun _ _ _ => rfl⟩
  rcases hs : outputs ioStep ops s with f | ⟨outs, s'⟩
  · refine .inr (congrArg Except.error ?_)
    exact (Contents.simulates U).run_error (fun hc ha hs => hc.error ha hs) hops hc hs
  · obtain ⟨ho, hc'⟩ := (Contents.simulates U).run hops hc hs
    exact .inl ⟨s', by rw [ho], hc'⟩

theorem io_refines_held :
    (∃ s', outputs ioStep [.writei 0 2 (fun _ => 7) 0 10, .readi 0 2 4 10, .itrunc 0 2] (small held) =
        .ok ((answers arrayStep [.writei 0 2 (fun _ => 7) 0 10, .readi 0 2 4 10, .itrunc 0 2]
          (small held).content).1, s') ∧
      Contents (fun p ip => p = 0 ∧ ip = 2) s' (answers arrayStep
        [.writei 0 2 (fun _ => 7) 0 10, .readi 0 2 4 10, .itrunc 0 2] (small held).content).2) ∨
    outputs ioStep [.writei 0 2 (fun _ => 7) 0 10, .readi 0 2 4 10, .itrunc 0 2] (small held) =
      .error (.panic "balloc: out of blocks") :=
  io_refines small_held (fun p ip hU => by rw [hU.1, hU.2]; exact ⟨rfl, by decide⟩) fun a ha => by
    rcases List.mem_cons.mp ha with rfl | ha
    · exact ⟨⟨rfl, rfl⟩, by decide, by decide⟩
    · rcases List.mem_cons.mp ha with rfl | ha
      · exact ⟨⟨rfl, rfl⟩, by decide, by decide⟩
      · obtain rfl := List.mem_singleton.mp ha
        exact ⟨rfl, rfl⟩

end Xv6.Fs
