import Xv6.Fs.Calls
import Xv6.Fs.Entries
import Xv6.Fs.File
import Xv6.Fs.Files

/-!
# Runs of the inode layer

Any calls, in any order, keep the invariant: files have no holes, and an inode in memory
has the addresses that it has on disk. So a read finds every block it maps, allocates
none and leaves the disk as it is.
-/

namespace Xv6.Fs

open Lib

section
variable {s s' : State} {p ip dp off n : Nat}

/-! ## Calls that only read -/

theorem readi_state (h : Inv s) (hp : (s.icache ip).holder = some p) (ht : (s.icache ip).din.type ≠ T_DEV)
    {r : Int × List UInt8} (hs : s.readi p ip off n = .ok (r, s')) : s' = s := by
  have hl := h.live hp
  simp only [State.readi] at hs
  rw [if_neg ht] at hs
  split at hs
  · cases hs
    rfl
  · next hout =>
    generalize hm : (if (s.icache ip).din.size < off + n then (s.icache ip).din.size - off else n) = m at hs
    have hle : off + m ≤ (s.icache ip).din.size := by
      rw [← hm]
      split <;> omega
    have hr : State.readLoop ip m m s 0 off = _ := readLoop_spec hl (Nat.zero_le m) (Nat.sub_le ..)
      fun bn hbn => h.noHoles hl bn (by rw [hl.cur]; omega)
    rw [hr, ok_bind] at hs
    exact (Prod.mk.inj (Except.ok.inj hs)).2.symm

theorem scan_state (h : Inv s) (hp : (s.icache dp).holder = some p) (ht : (s.icache dp).din.type ≠ T_DEV)
    {msg : String} {stop : Dirent → Bool} {offs : List Nat} {r : Option (Nat × Dirent)}
    (hs : State.scan p dp msg stop offs s = .ok (r, s')) : s' = s := by
  induction offs with
  | nil =>
    cases hs
    rfl
  | cons off offs ih =>
    simp only [State.scan, bind_ok, Prod.exists] at hs
    obtain ⟨x, bytes, s₁, h₁, hs⟩ := hs
    obtain rfl := readi_state h hp ht h₁
    split at hs
    · cases hs
    · split at hs
      · cases hs
        rfl
      · exact ih hs

theorem dirlookup_state (h : Inv s) (hp : (s.icache dp).holder = some p) {name : Name}
    {r : Option (Nat × Nat)} (hs : s.dirlookup p dp name = .ok (r, s')) :
    (s.icache dp).din.type = T_DIR ∧ r.elim (s' = s) fun x => s.iget x.1 = .ok s' := by
  unfold State.dirlookup at hs
  split at hs
  · cases hs
  · next ht =>
    have ht : (s.icache dp).din.type = T_DIR := by simpa using ht
    simp only [bind_ok, Prod.exists] at hs
    obtain ⟨found, s₁, h₁, hs⟩ := hs
    obtain rfl := scan_state h hp (by rw [ht]; decide) h₁
    cases found with
    | none =>
      cases hs
      exact ⟨ht, rfl⟩
    | some x =>
      simp only [bind_ok, pure_ok, Prod.mk.injEq] at hs
      obtain ⟨s₂, h₂, rfl, rfl⟩ := hs
      exact ⟨ht, h₂⟩

theorem iget_state (hs : s.iget ip = .ok s') : ∃ d : Inode, s' = s.setInode ip d ∧
    d.holder = (s.icache ip).holder ∧ (0 < (s.icache ip).ref → d.din = (s.icache ip).din) := by
  unfold State.iget at hs
  split at hs
  · cases hs
    exact ⟨_, rfl, rfl, fun _ => rfl⟩
  · split at hs <;> cases hs
    exact ⟨_, rfl, rfl, fun _ => rfl⟩

theorem iget_disk (hs : s.iget ip = .ok s') : s'.disk = s.disk := by
  obtain ⟨d, rfl, -⟩ := iget_state hs
  rfl

theorem ilock_disk (hs : s.ilock p ip = .ok s') : s'.disk = s.disk := by
  obtain ⟨-, -, d, rfl, -⟩ := ilock_ok hs
  rfl

theorem iunlock_disk (hs : s.iunlock p ip = .ok s') : s'.disk = s.disk := by
  unfold State.iunlock at hs
  split at hs <;> cases hs
  rfl

theorem dirlookup_disk (h : Inv s) (hp : (s.icache dp).holder = some p) {name : Name}
    {r : Option (Nat × Nat)} (hs : s.dirlookup p dp name = .ok (r, s')) : s'.disk = s.disk := by
  obtain ⟨-, hr⟩ := dirlookup_state h hp hs
  cases r with
  | none => exact congrArg State.disk hr
  | some x => exact iget_disk hr

theorem consoleread_disk {m : Int} {r : Int × List UInt8} (hs : s.consoleread p ip m = .ok (r, s')) :
    s'.disk = s.disk := by
  simp only [State.consoleread, bind_ok, pure_ok, Prod.mk.injEq] at hs
  obtain ⟨s₁, h₁, s₂, h₂, -, rfl⟩ := hs
  have hinput : ∀ l, ({ s₁ with input := l } : State).disk = s₁.disk := fun _ => rfl
  exact (ilock_disk h₂).trans ((hinput _).trans (iunlock_disk h₁))

/-- A read changes no block, also of a device. -/
theorem readi_disk (h : Inv s) (hp : (s.icache ip).holder = some p) {r : Int × List UInt8}
    (hs : s.readi p ip off n = .ok (r, s')) : s'.disk = s.disk := by
  by_cases ht : (s.icache ip).din.type = T_DEV
  · simp only [State.readi] at hs
    rw [if_pos ht] at hs
    split at hs
    · cases hs
      rfl
    · exact consoleread_disk hs
  · rw [readi_state h hp ht hs]

theorem pread_disk {t t' : Ftable} {f : Nat} (h : Inv t.fs) (hip : (t.file f).ip < t.fs.sb.ninodes) {n offset : Int}
    {piperead r : Int × List UInt8} (hs : t.pread p f n offset piperead = .ok (r, t')) :
    t'.fs.disk = t.fs.disk := by
  unfold Ftable.pread at hs
  split at hs
  · cases hs
    rfl
  · split at hs
    · cases hs
      rfl
    · obtain ⟨s₁, h₁, hs⟩ := bind_ok.mp hs
      have hd₁ := ilock_disk h₁
      dsimp only at hs
      split at hs
      · cases hs
        exact hd₁
      · split at hs
        · cases hs
          exact hd₁
        · simp only [bind_ok, pure_ok, Prod.mk.injEq, Prod.exists] at hs
          obtain ⟨x, bytes, s₂, h₂, s₃, h₃, -, rfl⟩ := hs
          have hp₁ : (s₁.icache (t.file f).ip).holder = some p := by
            obtain ⟨-, -, d, rfl, -, hd, -⟩ := ilock_ok h₁
            exact (congrArg Inode.holder (Function.update_self ..)).trans hd
          exact (iunlock_disk h₃).trans ((readi_disk (h.ilock hip h₁) hp₁ h₂).trans hd₁)
    · cases hs

/-! ## Calls that write -/

theorem Truncated.inv (h : Inv s) (hl : Live s ip) (ht : Truncated ip s s') : Inv s' := by
  obtain ⟨d, hc, -, hd⟩ := ht.inode
  refine (h.sound.of_truncated hl ht).inv (fun i hi => ?_) fun i hi htype bn hbn => ?_
  · by_cases he : i = ip
    · subst he
      rw [ht.dinode i hl.lt, if_pos rfl]
    · rw [ht.icache i he] at hi ⊢
      obtain ⟨hli, hdi⟩ := h.coherent i hi
      rw [ht.dinode i hli.lt, if_neg he]
      exact hdi
  · rw [ht.sb] at hi
    by_cases he : i = ip
    · subst he
      have hlo : (s'.icache i).Loaded := by
        rw [hc]
        exact hl.loaded
      rw [cur_loaded hlo, hc, hd] at hbn
      exact absurd hbn (Nat.not_lt_zero _)
    · have hcur : s'.cur i = s.cur i :=
        cur_congr (ht.icache i he) (by rw [ht.dinode i hi, if_neg he])
      have haddr : s'.addr i bn = s.addr i bn :=
        addr_congr (fun q hq hqi => by rw [ht.block q hq, if_neg (by rw [hqi]; exact he)]) bn
      rw [hcur] at htype hbn
      rw [haddr]
      exact h.holes i hi htype bn hbn

theorem Sound.Released.inv (h : Inv s) (hr : Sound.Released ip s s') : Inv s' := by
  obtain ⟨d, hc⟩ := hr.inode
  have hn : ¬ (s'.icache ip).Loaded := by
    rw [hc]
    exact fun hl => Bool.false_ne_true hl.1
  refine hr.sound.inv (fun i hi => ?_) fun i hi htype bn hbn => ?_
  · have he : i ≠ ip := fun he => hn (he ▸ hi)
    rw [hr.icache i he] at hi ⊢
    obtain ⟨hli, hdi⟩ := h.coherent i hi
    rw [hr.dinode i hli.lt, if_neg he]
    exact hdi
  · rw [hr.sb] at hi
    have he : i ≠ ip := by
      rintro rfl
      rw [cur_unloaded hn, hr.dinode i hi, if_pos rfl] at htype
      exact htype rfl
    have hcur : s'.cur i = s.cur i :=
      cur_congr (hr.icache i he) (by rw [hr.dinode i hi, if_neg he])
    have haddr : s'.addr i bn = s.addr i bn :=
      addr_congr (fun q hq hqi => by rw [hr.block q hq, if_neg (by rw [hqi]; exact he)]) bn
    rw [hcur] at htype hbn
    rw [haddr]
    exact h.holes i hi htype bn hbn

/-- `iput` waits until the lock is free. -/
theorem iput_free_lock (hs : s.iput p ip = .ok s') : (s.icache ip).holder = none := by
  obtain ⟨s₁, h₁, -⟩ := bind_ok.mp hs
  unfold State.acquiresleep at h₁
  split at h₁
  · cases h₁
  · next hh => simpa using hh

namespace Inv

variable (h : Inv s)

include h

theorem itrunc (hp : (s.icache ip).holder = some p) (hs : s.itrunc ip = .ok s') : Inv s' := by
  have hl := h.live hp
  obtain ⟨s₁, h₁, ht⟩ := itrunc_ok h.wf hl (h.ok hl.loaded)
  rw [h₁] at hs
  cases hs
  exact ht.inv h hl

theorem iput (hs : s.iput p ip = .ok s') : Inv s' := by
  by_cases hn : (s.icache ip).valid ∧ (s.icache ip).din.nlink = 0 ∧ (s.icache ip).ref = 1
  · obtain ⟨s₁, h₁, hr⟩ := h.sound.iput_free (p := p) hn.1 hn.2.1 hn.2.2 (iput_free_lock hs)
    rw [h₁] at hs
    cases hs
    exact hr.inv h
  · obtain ⟨hh, rfl⟩ := Sound.iput_drop hn hs
    refine h.setInode (fun hv => h.loaded_dinode ⟨hv.1, ?_⟩) fun q hq => ?_
    · have : 0 < (s.icache ip).ref - 1 := hv.2
      omega
    · dsimp only at hq
      rw [hh] at hq
      cases hq

theorem iunlockput (hs : s.iunlockput p ip = .ok s') : Inv s' := by
  obtain ⟨s₁, h₁, hs⟩ := bind_ok.mp hs
  exact (h.iunlock h₁).iput hs

theorem consolewrite {r m : Int} (hip : ip < s.sb.ninodes) (hs : s.consolewrite p ip m = .ok (r, s')) :
    Inv s' := by
  obtain ⟨s₁, h₁, hs⟩ := bind_ok.mp hs
  obtain ⟨s₂, h₂, hs⟩ := bind_ok.mp hs
  cases hs
  have hsb : s₁.sb = s.sb := by
    unfold State.iunlock at h₁
    split at h₁ <;> cases h₁
    rfl
  exact (h.iunlock h₁).ilock (by rw [hsb]; exact hip) h₂

theorem consoleread {m : Int} {r : Int × List UInt8} (hip : ip < s.sb.ninodes)
    (hs : s.consoleread p ip m = .ok (r, s')) : Inv s' := by
  simp only [State.consoleread, bind_ok, pure_ok, Prod.mk.injEq] at hs
  obtain ⟨s₁, h₁, s₂, h₂, -, rfl⟩ := hs
  have hsb : s₁.sb = s.sb := by
    unfold State.iunlock at h₁
    split at h₁ <;> cases h₁
    rfl
  have hi₁ := h.iunlock h₁
  have hinput : ∀ l, Inv { s₁ with input := l } := fun l =>
    hi₁.of_disk rfl rfl (fun i hi => hi₁.loaded_dinode hi) hi₁.held
  exact (hinput _).ilock (by rw [hsb]; exact hip) h₂

theorem writei (hp : (s.icache ip).holder = some p) {src : Nat → UInt8} {r : Int}
    (hs : s.writei p ip src off n = .ok (r, s')) : Inv s' := by
  have hl := h.live hp
  by_cases ht : (s.icache ip).din.type = T_DEV
  · simp only [State.writei] at hs
    rw [if_pos ht] at hs
    split at hs
    · cases hs
      exact h
    · exact h.consolewrite hl.lt hs
  · rcases writei_returns h hp ht hs with ⟨-, rfl⟩ | ⟨-, -, -, hw⟩
    · exact h
    · exact hw.inv

theorem dirlink (hp : (s.icache dp).holder = some p) {name : Name} {inum : Nat} {r : Int}
    (hs : s.dirlink p dp name inum = .ok (r, s')) : Inv s' := by
  obtain ⟨⟨found, s₁⟩, h₁, h₂⟩ := bind_ok.mp hs
  obtain ⟨ht, hr⟩ := dirlookup_state h hp h₁
  cases found with
  | some x =>
    obtain ⟨s₂, hput, hret⟩ := bind_ok.mp h₂
    cases hret
    exact (h.iget hr).iput hput
  | none =>
    obtain rfl : s₁ = s := hr
    obtain ⟨⟨empty, s₂⟩, hscan, h₃⟩ := bind_ok.mp h₂
    obtain rfl := scan_state h hp (by rw [ht]; decide) hscan
    obtain ⟨⟨x, s₃⟩, hw, hret⟩ := bind_ok.mp h₃
    dsimp only at hret
    split at hret
    · cases hret
    · cases hret
      exact h.writei hp hw

theorem addNlink (hp : (s.icache ip).holder = some p) (k : Int) : Inv (s.addNlink ip k) := by
  have hl := h.live hp
  have hok := h.ok hl.loaded
  exact Inv.iupdate h hl ⟨hok.type, hok.major, hok.minor, Block.short_range _, hok.size, hok.addrs, hok.range⟩
    hl.type rfl rfl

/-- `iput` of one inode keeps the cache entries of the others. -/
theorem iput_other (hs : s.iput p ip = .ok s') {j : Nat} (hj : j ≠ ip) : s'.icache j = s.icache j := by
  by_cases hn : (s.icache ip).valid ∧ (s.icache ip).din.nlink = 0 ∧ (s.icache ip).ref = 1
  · obtain ⟨s₁, h₁, hr⟩ := h.sound.iput_free (p := p) hn.1 hn.2.1 hn.2.2 (iput_free_lock hs)
    rw [h₁] at hs
    cases hs
    exact hr.icache j hj
  · obtain ⟨-, rfl⟩ := Sound.iput_drop hn hs
    exact Function.update_of_ne hj ..

theorem iunlockput_other (hs : s.iunlockput p ip = .ok s') {j : Nat} (hj : j ≠ ip) :
    s'.icache j = s.icache j := by
  obtain ⟨s₁, h₁, hs⟩ := bind_ok.mp hs
  rw [(h.iunlock h₁).iput_other hs hj, (iunlock_released h₁).2]
  exact Function.update_of_ne hj ..

end Inv

/-! ## Unlinking -/

/-- An unlink that removes the entry of `ip` in `dp`, by its states: `dp` locked, the
entry found, `ip` locked, the entry cleared, and `dp` given back. -/
structure Unlinks (p dp : Nat) (name : Name) (ip : Nat) (s s₁ s₂ s₃ s₄ s₅ s' : State) : Prop where
  lock : s.ilock p dp = .ok s₁
  found : ∃ off, s₁.dirlookup p dp name = .ok (some (ip, off), s₂) ∧ ∃ r,
    s₃.writei p dp (fun _ => 0) off 16 = .ok (r, s₄)
  lock_ip : s₂.ilock p ip = .ok s₃
  linked : 1 ≤ (s₃.icache ip).din.nlink
  put : (if (s₄.icache ip).din.type = T_DIR then s₄.addNlink dp (-1) else s₄).iunlockput p dp = .ok s₅
  put_ip : (s₅.addNlink ip (-1)).iunlockput p ip = .ok s'

/-- The ways out of an unlink. -/
theorem unlink_cases (h : Inv s) (hdp : dp < s.sb.ninodes) {name : Name} {r : Int}
    (hs : s.unlink p dp name = .ok (r, s'))
    (hnames : ∀ s₁ i off s₂, s.ilock p dp = .ok s₁ → s₁.dirlookup p dp name = .ok (some (i, off), s₂) →
      i < s.sb.ninodes) :
    (r = -1 ∧ ∃ s₁ s₂, s.ilock p dp = .ok s₁ ∧ (s₂ = s₁ ∨ ∃ i s₃ s₄, i ≠ dp ∧ i < s.sb.ninodes ∧
        s₁.iget i = .ok s₃ ∧ s₃.ilock p i = .ok s₄ ∧ s₄.iunlockput p i = .ok s₂) ∧
      s₂.iunlockput p dp = .ok s') ∨
    r = 0 ∧ ∃ i s₁ s₂ s₃ s₄ s₅, i < s.sb.ninodes ∧ Unlinks p dp name i s s₁ s₂ s₃ s₄ s₅ s' := by
  obtain ⟨s₁, h₁, hs⟩ := bind_ok.mp hs
  have hi₁ := h.ilock hdp h₁
  have hp₁ : (s₁.icache dp).holder = some p := by
    rw [(ilock_locked h₁).2.2, lockedBy_icache]
  split at hs
  · obtain ⟨s₂, h₂, hs⟩ := bind_ok.mp hs
    cases hs
    exact .inl ⟨rfl, s₁, s₁, h₁, .inl rfl, h₂⟩
  · obtain ⟨⟨found, s₂⟩, h₂, hs⟩ := bind_ok.mp hs
    have hl := dirlookup_state hi₁ hp₁ h₂
    cases found with
    | none =>
      obtain ⟨s₃, h₃, hs⟩ := bind_ok.mp hs
      cases hs
      obtain rfl : s₂ = s₁ := hl.2
      exact .inl ⟨rfl, s₂, s₂, h₁, .inl rfl, h₃⟩
    | some x =>
      obtain ⟨i, off⟩ := x
      have hi := hnames s₁ i off s₂ h₁ h₂
      have hget : s₁.iget i = .ok s₂ := hl.2
      obtain ⟨s₃, h₃, hs⟩ := bind_ok.mp hs
      have hsb₂ : s₂.sb = s.sb := by
        obtain ⟨d, rfl, -⟩ := iget_state hget
        rw [(ilock_locked h₁).2.2]
        rfl
      have hi₃ := (hi₁.iget hget).ilock (by rw [hsb₂]; exact hi) h₃
      have hne : i ≠ dp := by
        rintro rfl
        obtain ⟨d, rfl, hd, -⟩ := iget_state hget
        have hfree : (Function.update s₁.icache i d i).holder = none := (ilock_locked h₃).1
        rw [Function.update_self, hd, hp₁] at hfree
        cases hfree
      have hp₃ : (s₃.icache i).holder = some p := by
        rw [(ilock_locked h₃).2.2, lockedBy_icache]
      split at hs
      · cases hs
      · next hlink =>
        have htail : ∃ full : Bool, (if full = true then do
              let s ← s₃.iunlockput p i
              let s ← s.iunlockput p dp
              return (-1, s)
            else do
              let y ← s₃.writei p dp (fun _ => 0) off 16
              if y.1 ≠ 16 then .error (.panic "unlink: writei")
              else
                let s := if (y.2.icache i).din.type = T_DIR then y.2.addNlink dp (-1) else y.2
                let s ← s.iunlockput p dp
                let s := s.addNlink i (-1)
                let s ← s.iunlockput p i
                return (0, s)) = .ok (r, s') := by
          dsimp only at hs
          split at hs
          · next ht =>
            obtain ⟨⟨empty, s₄⟩, h₄, hk⟩ := bind_ok.mp hs
            obtain ⟨⟨full, s₅⟩, h₅, hs₄⟩ := bind_ok.mp h₄
            cases hs₄
            obtain rfl := scan_state hi₃ hp₃ (by rw [ht]; decide) h₅
            exact ⟨_, hk⟩
          · exact ⟨false, hs⟩
        obtain ⟨full, hs⟩ := htail
        split at hs
        · obtain ⟨s₅, h₅, hs⟩ := bind_ok.mp hs
          obtain ⟨s₆, h₆, hs⟩ := bind_ok.mp hs
          cases hs
          exact .inl ⟨rfl, s₁, s₅, h₁, .inr ⟨i, s₂, s₃, hne, hi, hget, h₃, h₅⟩, h₆⟩
        · obtain ⟨⟨x, s₅⟩, h₅, hs⟩ := bind_ok.mp hs
          dsimp only at hs
          split at hs
          · cases hs
          · obtain ⟨s₆, h₆, hs⟩ := bind_ok.mp hs
            obtain ⟨s₇, h₇, hs⟩ := bind_ok.mp hs
            cases hs
            exact .inr ⟨rfl, i, s₁, s₂, s₃, s₅, s₆, hi, h₁, ⟨off, h₂, x, h₅⟩, h₃, by omega, h₆, h₇⟩

theorem addNlink_other {j : Nat} (hj : j ≠ ip) (k : Int) : (s.addNlink ip k).icache j = s.icache j :=
  Function.update_of_ne hj ..

theorem addNlink_icache (s : State) (ip : Nat) (k : Int) : (s.addNlink ip k).icache ip =
    { s.icache ip with din := { (s.icache ip).din with nlink := short ((s.icache ip).din.nlink + k) } } :=
  Function.update_self ..

namespace Unlinks

variable {name : Name} {s₁ s₂ s₃ s₄ s₅ : State}

/-- When the entry is cleared both inodes are locked. -/
theorem locked (hu : Unlinks p dp name ip s s₁ s₂ s₃ s₄ s₅ s') (h : Inv s) (hdp : dp < s.sb.ninodes)
    (hi : ip < s.sb.ninodes) : Inv s₃ ∧ s₃.sb = s.sb ∧ ip ≠ dp ∧ s₃.icache dp = s₁.icache dp ∧
      (s₃.icache dp).holder = some p ∧ (s₃.icache dp).din.type = T_DIR ∧ (s₃.icache ip).holder = some p ∧
      s₁.iget ip = .ok s₂ := by
  have hi₁ := h.ilock hdp hu.lock
  have hp₁ : (s₁.icache dp).holder = some p := by
    rw [(ilock_locked hu.lock).2.2, lockedBy_icache]
  obtain ⟨off, hf, -⟩ := hu.found
  obtain ⟨ht, hget⟩ := dirlookup_state hi₁ hp₁ hf
  have hsb₁ : s₁.sb = s.sb := by
    rw [(ilock_locked hu.lock).2.2]
    rfl
  have hsb₂ : s₂.sb = s₁.sb := by
    obtain ⟨d, rfl, -⟩ := iget_state hget
    rfl
  have hi₃ := (hi₁.iget hget).ilock (by rw [hsb₂, hsb₁]; exact hi) hu.lock_ip
  obtain ⟨hfree, -, h₃⟩ := ilock_locked hu.lock_ip
  have hne : ip ≠ dp := by
    rintro rfl
    obtain ⟨d, rfl, hd, -⟩ := iget_state hget
    have hfree' : (Function.update s₁.icache ip d ip).holder = none := hfree
    rw [Function.update_self, hd, hp₁] at hfree'
    cases hfree'
  have hdp₂ : s₂.icache dp = s₁.icache dp := by
    obtain ⟨d, rfl, -⟩ := iget_state hget
    exact Function.update_of_ne hne.symm ..
  have hdp₃ : s₃.icache dp = s₁.icache dp := by
    rw [← hdp₂, h₃]
    exact Function.update_of_ne hne.symm ..
  have hsb₃ : s₃.sb = s.sb := by
    rw [h₃, ← hsb₁, ← hsb₂]
    rfl
  exact ⟨hi₃, hsb₃, hne, hdp₃, by rw [hdp₃]; exact hp₁, by rw [hdp₃]; exact ht,
    by rw [h₃, lockedBy_icache], hget⟩

/-- When the directory is given back. -/
theorem cleared (hu : Unlinks p dp name ip s s₁ s₂ s₃ s₄ s₅ s') (h : Inv s) (hdp : dp < s.sb.ninodes)
    (hi : ip < s.sb.ninodes) : Inv s₄ ∧ (s₄.icache dp).holder = some p ∧ s₄.icache ip = s₃.icache ip := by
  obtain ⟨hi₃, -, hne, -, hp₃, ht, -⟩ := hu.locked h hdp hi
  obtain ⟨off, -, r, hw⟩ := hu.found
  rcases writei_returns hi₃ hp₃ (by rw [ht]; decide) hw with ⟨-, rfl⟩ | ⟨-, -, -, hw⟩
  · exact ⟨hi₃, hp₃, rfl⟩
  · refine ⟨hw.inv, ?_, hw.icache ip hne⟩
    obtain ⟨addrs, ha⟩ := hw.inode
    rw [ha]
    exact hp₃

theorem given (hu : Unlinks p dp name ip s s₁ s₂ s₃ s₄ s₅ s') (h : Inv s) (hdp : dp < s.sb.ninodes)
    (hi : ip < s.sb.ninodes) : Inv s₅ ∧ s₅.icache ip = s₃.icache ip := by
  obtain ⟨-, -, hne, -⟩ := hu.locked h hdp hi
  obtain ⟨hi₄, hp₄, hc₄⟩ := hu.cleared h hdp hi
  have hput := hu.put
  split at hput
  · have hi' := hi₄.addNlink hp₄ (-1)
    refine ⟨hi'.iunlockput hput, ?_⟩
    rw [hi'.iunlockput_other hput hne, addNlink_other hne, hc₄]
  · refine ⟨hi₄.iunlockput hput, ?_⟩
    rw [hi₄.iunlockput_other hput hne, hc₄]

theorem inv (hu : Unlinks p dp name ip s s₁ s₂ s₃ s₄ s₅ s') (h : Inv s) (hdp : dp < s.sb.ninodes)
    (hi : ip < s.sb.ninodes) : Inv s' := by
  obtain ⟨-, -, -, -, -, -, hp₃, -⟩ := hu.locked h hdp hi
  obtain ⟨hi₅, hc₅⟩ := hu.given h hdp hi
  exact (hi₅.addNlink (by rw [hc₅]; exact hp₃) (-1)).iunlockput hu.put_ip

end Unlinks

/-- The name is that of an inode of the file system. -/
def Names (s : State) (p dp : Nat) (name : Name) : Prop :=
  ∀ s₁ i off s₂, s.ilock p dp = .ok s₁ → s₁.dirlookup p dp name = .ok (some (i, off), s₂) → i < s.sb.ninodes

theorem Inv.unlink (h : Inv s) (hdp : dp < s.sb.ninodes) {name : Name} (hn : Names s p dp name) {r : Int}
    (hs : s.unlink p dp name = .ok (r, s')) : Inv s' := by
  rcases unlink_cases h hdp hs hn with ⟨-, s₁, s₂, h₁, hmid, h₃⟩ | ⟨-, i, s₁, s₂, s₃, s₄, s₅, hi, hu⟩
  · have hi₁ := h.ilock hdp h₁
    have hsb₁ : s₁.sb = s.sb := by
      rw [(ilock_locked h₁).2.2]
      rfl
    rcases hmid with rfl | ⟨i, s₃, s₄, -, hi, hget, hlock, hput⟩
    · exact hi₁.iunlockput h₃
    · have hsb₃ : s₃.sb = s₁.sb := by
        obtain ⟨d, rfl, -⟩ := iget_state hget
        rfl
      exact (((hi₁.iget hget).ilock (by rw [hsb₃, hsb₁]; exact hi) hlock).iunlockput hput).iunlockput h₃
  · exact hu.inv h hdp hi

/-! ## Any calls -/

inductive Op where
  | iget (inum : Nat)
  | ilock (p ip : Nat)
  | iunlock (p ip : Nat)
  | iput (p ip : Nat)
  | readi (p ip off n : Nat)
  | writei (p ip : Nat) (src : Nat → UInt8) (off n : Nat)
  | itrunc (ip : Nat)
  | dirlink (p dp : Nat) (name : Name) (inum : Nat)
  | unlink (p dp : Nat) (name : Name)

def fsStep (s : State) : Op → Except Fault State
  | .iget inum => s.iget inum
  | .ilock p ip => s.ilock p ip
  | .iunlock p ip => s.iunlock p ip
  | .iput p ip => s.iput p ip
  | .readi p ip off n => do
    let (_, s) ← s.readi p ip off n
    return s
  | .writei p ip src off n => do
    let (_, s) ← s.writei p ip src off n
    return s
  | .itrunc ip => s.itrunc ip
  | .dirlink p dp name inum => do
    let (_, s) ← s.dirlink p dp name inum
    return s
  | .unlink p dp name => do
    let (_, s) ← s.unlink p dp name
    return s

/-- What the callers see to: the caller holds the lock of the inode it reads or writes,
and inodes are those of the file system. -/
def Called (s : State) : Op → Prop
  | .ilock _ ip => ip < s.sb.ninodes
  | .readi p ip _ _ => (s.icache ip).holder = some p
  | .writei p ip _ _ _ => (s.icache ip).holder = some p
  | .itrunc ip => ∃ p, (s.icache ip).holder = some p
  | .dirlink p dp _ _ => (s.icache dp).holder = some p
  | .unlink p dp name => dp < s.sb.ninodes ∧ Names s p dp name
  | _ => True

theorem Inv.readi (h : Inv s) (hp : (s.icache ip).holder = some p) {r : Int × List UInt8}
    (hs : s.readi p ip off n = .ok (r, s')) : Inv s' := by
  have hl := h.live hp
  by_cases ht : (s.icache ip).din.type = T_DEV
  · simp only [State.readi] at hs
    rw [if_pos ht] at hs
    split at hs
    · cases hs
      exact h
    · exact h.consoleread hl.lt hs
  · rw [readi_state h hp ht hs]
    exact h

/-- **Step lemma**: every call keeps the invariant. -/
theorem Inv.fsStep (h : Inv s) {a : Op} (ha : Called s a) (hs : fsStep s a = .ok s') : Inv s' := by
  cases a with
  | iget inum => exact h.iget hs
  | ilock p ip => exact h.ilock ha hs
  | iunlock p ip => exact h.iunlock hs
  | iput p ip => exact h.iput hs
  | readi p ip off n =>
    obtain ⟨⟨r, s₁⟩, h₁, hs⟩ := bind_ok.mp hs
    cases hs
    exact h.readi ha h₁
  | writei p ip src off n =>
    obtain ⟨⟨r, s₁⟩, h₁, hs⟩ := bind_ok.mp hs
    cases hs
    exact h.writei ha h₁
  | itrunc ip =>
    obtain ⟨p, hp⟩ := ha
    exact h.itrunc hp hs
  | dirlink p dp name inum =>
    obtain ⟨⟨r, s₁⟩, h₁, hs⟩ := bind_ok.mp hs
    cases hs
    exact h.dirlink ha h₁
  | unlink p dp name =>
    obtain ⟨⟨r, s₁⟩, h₁, hs⟩ := bind_ok.mp hs
    cases hs
    exact h.unlink ha.1 ha.2 h₁

theorem inv_of_run {s₀ : State} (h₀ : Inv s₀) (hr : Reach fsStep Called s₀ s) : Inv s :=
  hr.invariant (I := Inv) h₀ fun _ _ _ hi ha hs => hi.fsStep ha hs

end

end Xv6.Fs
