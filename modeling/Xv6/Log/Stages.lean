import Xv6.Lib.RedoLog
import Xv6.Log.Admission

/-!
# What the disk shows

`DiskShows disk H`: recovery, run on `disk`, leaves `H` in the home blocks.
`Carries` says what the disk shows, and what the buffers hold on top of it, at
every stage of a commit and of a recovery. Every step leaves what the disk
shows, except the write of the header in `commit`.
-/

namespace Xv6.Log

open Lib Fs

variable {P : Type}

/-! ## What a disk shows -/

/-- Recovery turns the home blocks of `disk` into `H`. -/
abbrev DiskShows (disk H : Nat → Block) : Prop :=
  Shows Home (LogHeader.get (disk logstart)).toList (fun i => disk (logstart + i + 1)) disk H

section
variable {disk disk' H H' : Nat → Block} {v : Block}

theorem DiskShows.writeSlot (h : DiskShows disk H)
    (h0 : (LogHeader.get (disk logstart)).toList = []) {k : Nat} (hk : k < nlog - 1)
    (hd : disk' = Function.update disk (logstart + k + 1) v) : DiskShows disk' H := by
  subst hd
  unfold DiskShows at h ⊢
  rw [h0] at h
  rw [Function.update_of_ne (by omega), h0]
  refine h.log fun b hb => Function.update_of_ne ?_ _ _
  rintro rfl
  exact not_home_slot hk hb

theorem DiskShows.writeHome (h : DiskShows disk H) (hok : (LogHeader.get (disk logstart)).Ok)
    {a : Nat} (ha : a ∈ (LogHeader.get (disk logstart)).toList)
    (hd : disk' = Function.update disk a v) : DiskShows disk' H := by
  have hh := hok.home a ha
  subst hd
  unfold DiskShows at h ⊢
  rw [Function.update_of_ne (show logstart ≠ a from fun he => not_home_logstart (he ▸ hh))]
  refine h.install ha (fun i hi => Function.update_of_ne ?_ _ _)
    fun b _ hb => Function.update_of_ne hb _ _
  have hn := hok.bound
  rw [LogHeader.length_toList] at hi
  rintro rfl
  exact not_home_slot (by omega) hh

theorem home_update_head {b : Nat} (hb : Home b) :
    Function.update disk logstart v b = disk b :=
  Function.update_of_ne (fun he => not_home_logstart (by rwa [he] at hb)) _ _

/-- A new header lists `L`, whose slots are written. -/
theorem DiskShows.writeHead (h : DiskShows disk H)
    (h0 : (LogHeader.get (disk logstart)).toList = []) {L : List Nat}
    (hL : (LogHeader.get v).toList = L) (hs : ∀ i (hi : i < L.length), disk (logstart + i + 1) = H' L[i])
    (hr : ∀ b, Home b → b ∉ L → H' b = H b) (hd : disk' = Function.update disk logstart v) :
    DiskShows disk' H' := by
  subst hd hL
  unfold DiskShows at h ⊢
  rw [h0] at h
  rw [Function.update_self]
  refine h.commit (fun i hi => ?_) hr fun b hb => home_update_head hb
  exact (Function.update_of_ne (by omega) _ _).trans (hs i hi)

/-- The header is emptied, all its blocks being home. -/
theorem DiskShows.eraseHead (hall : ∀ b, Home b → disk b = H b)
    (h0 : (LogHeader.get v).toList = []) (hd : disk' = Function.update disk logstart v) :
    DiskShows disk' H := by
  subst hd
  unfold DiskShows
  rw [Function.update_self, h0]
  exact .of_nil fun b hb => (home_update_head hb).trans (hall b hb)

end

/-! ## The stages of a commit and of a recovery -/

def Cont.Installing : Cont → Prop
  | .install _ | .erase => True
  | _ => False

/-- What holds when a process stands in `commit`, `cur` being the updates since
the last commit and `H` what the disk shows. -/
def Stage (s : State P) (H : Nat → Block) (cur : List (Nat × Block)) : Cont → Prop
  | .writeLog k => ∀ i < k, s.disk (logstart + i + 1) = s.buf (s.lh.block i)
  | .writeHead => ∀ i < s.lh.n, s.disk (logstart + i + 1) = s.buf (s.lh.block i)
  | .install k => (LogHeader.get (s.disk logstart)).toList = s.lh.toList ∧
      (∀ i < k, s.disk (s.lh.block i) = H (s.lh.block i)) ∧ cur = []
  | .erase => (∀ b, Home b → s.disk b = H b) ∧ cur = []
  | .committed => cur = []
  | _ => True

/-- What holds when the machine stands in `recover_from_log`. -/
def Recovering (s : State P) (H : Nat → Block) : Phase → Prop
  | .install k => (LogHeader.get (s.disk logstart)).toList = s.lh.toList ∧
      ∀ i < k, s.disk (s.lh.block i) = H (s.lh.block i)
  | .erase => ∀ b, Home b → s.disk b = H b
  | _ => True

/-- The disk shows `H`, and the buffers the updates `cur` on top of it. -/
structure Carries (s : State P) (H : Nat → Block) (cur : List (Nat × Block)) : Prop where
  disk : DiskShows s.disk H
  bufs : s.phase = .running → ∀ b, Home b → s.buf b = replay cur H b
  recorded : s.phase = .running → ∀ b ∈ cur.map Prod.fst,
    b ∈ s.lh.toList ∨ ∃ p, s.cont p = .append b
  clean : s.phase = .running → (∀ p, ¬ (s.cont p).Installing) →
    (LogHeader.get (s.disk logstart)).toList = []
  stage : ∀ p, Stage s H cur (s.cont p)
  offline : s.phase ≠ .running → s.buf = s.disk ∧ cur = []
  recovering : Recovering s H s.phase

section
variable {s s' : State P} {H : Nat → Block} {cur : List (Nat × Block)} {p : P} {c : Cont}

theorem stage_of_not_inCommit (h : ¬ c.InCommit) : Stage s H cur c := by
  cases c <;> first | trivial | exact absurd trivial h

theorem Cont.Installing.inCommit (h : c.Installing) : c.InCommit := by
  cases c <;> trivial

/-- While the log recovers no process is in a commit. -/
theorem Carries.of_offline (hp : s.phase ≠ .running) (hd : DiskShows s.disk H)
    (hi : ∀ p, s.cont p = .idle) (hbd : s.buf = s.disk) (hcur : cur = [])
    (hr : Recovering s H s.phase) : Carries s H cur where
  disk := hd
  bufs h := absurd h hp
  recorded h := absurd h hp
  clean h := absurd h hp
  stage p := by rw [hi p]; trivial
  offline _ := ⟨hbd, hcur⟩
  recovering := hr

/-- One block is copied home from the log. -/
theorem install_home (h : DiskShows s.disk H) (hw : Sane s) {k : Nat} (hk : k < s.lh.n)
    (hl : (LogHeader.get (s.disk logstart)).toList = s.lh.toList)
    (hi : ∀ i < k, s.disk (s.lh.block i) = H (s.lh.block i)) :
    DiskShows (s.install k).disk H ∧
    (LogHeader.get ((s.install k).disk logstart)).toList = s.lh.toList ∧
    s.buf (logstart + k + 1) = H (s.lh.block k) ∧
    ∀ i < k + 1, (s.install k).disk (s.lh.block i) = H (s.lh.block i) := by
  have hm : s.lh.block k ∈ s.lh.toList := LogHeader.mem_toList.mpr ⟨k, hk, rfl⟩
  have hb := hw.header.home _ hm
  have hn := hw.header.bound
  have hv : s.buf (logstart + k + 1) = H (s.lh.block k) := by
    have hlen : k < (LogHeader.get (s.disk logstart)).toList.length := by
      rw [hl, LogHeader.length_toList]; exact hk
    rw [hw.synced _ (not_home_slot (by omega))]
    exact (h.slot k hlen).trans (congrArg H (by simp only [hl, LogHeader.getElem_toList]))
  refine ⟨h.writeHome hw.disk (hl ▸ hm) (install_disk k), ?_, hv, fun i hik => ?_⟩
  · rw [install_disk, Function.update_of_ne fun he => not_home_logstart (by rwa [he])]
    exact hl
  · rw [install_disk, hv]
    by_cases he : s.lh.block i = s.lh.block k
    · rw [he, Function.update_self]
    · rw [Function.update_of_ne he]
      have hne : i ≠ k := by rintro rfl; exact he rfl
      exact hi i (by omega)

/-- All blocks of the header are home. -/
theorem installed_home (h : DiskShows s.disk H) {k : Nat} (hk : ¬ k < s.lh.n)
    (hl : (LogHeader.get (s.disk logstart)).toList = s.lh.toList)
    (hi : ∀ i < k, s.disk (s.lh.block i) = H (s.lh.block i)) {b : Nat} (hb : Home b) :
    s.disk b = H b := by
  by_cases hm : b ∈ s.lh.toList
  · obtain ⟨i, hin, rfl⟩ := LogHeader.mem_toList.mp hm
    exact hi i (by omega)
  · exact h.home b hb (by rw [hl]; exact hm)

theorem toList_of_n (h : s.lh.n = 0) : s.lh.toList = [] := by simp [LogHeader.toList, h]

theorem Carries.recoverStep (h : Carries s H cur) (hw : Sane s) (hi : ∀ p, s.cont p = .idle)
    (hs : s.recoverStep s.phase = .ok s') : Carries s' H cur := by
  obtain ⟨hph, hc, -⟩ := recoverStep_frame hs
  obtain ⟨hbd, hcur⟩ := h.offline hph
  have hr := h.recovering
  cases hp : s.phase <;> rw [hp] at hs hr <;> simp only [State.recoverStep] at hs
  case boot =>
    simp only [bind_ok, pure_ok, State.read_head] at hs
    obtain ⟨s₁, h1, rfl⟩ := hs
    split at h1
    · cases h1
      exact .of_offline (by simp) h.disk hi hbd hcur ⟨by simp only [hbd], fun i hi => by omega⟩
    · cases h1
  case install k =>
    obtain ⟨hl, hin⟩ := hr
    split at hs
    · next hk =>
      cases hs
      obtain ⟨hd, hl', -, hin'⟩ := install_home h.disk hw hk hl hin
      refine .of_offline (by simp) hd hi ?_ hcur ⟨hl', hin'⟩
      show (s.install k).buf = (s.install k).disk
      rw [install_buf, install_disk, hbd]
    · next hk =>
      cases hs
      exact .of_offline (by simp) h.disk hi hbd hcur fun b hb =>
        installed_home h.disk hk hl hin hb
  case erase =>
    cases hs
    have h0 := toList_of_n (hw.clearedBoot hp)
    have hhd := hw.write_head.trans h0
    rw [write_head_disk, Function.update_self] at hhd
    refine ⟨.eraseHead hr hhd write_head_disk, fun _ b hb => ?_, fun _ b hb => ?_, fun _ _ => ?_,
      fun p => ?_, fun he => absurd rfl he, trivial⟩
    · rw [hcur, replay_nil]
      show s.write_head.buf b = _
      rw [write_head_buf, home_update_head hb, hbd, hr b hb]
    · simp [hcur] at hb
    · exact hw.write_head.trans h0
    · rw [hc, hi p]; trivial
  case running => cases hs

/-- The log is up, and no process but `p` is in a commit. -/
theorem Carries.of_running (hrun : s.phase = .running) (p : P)
    (ho : ∀ q, q ≠ p → ¬ (s.cont q).InCommit) (hd : DiskShows s.disk H)
    (hb : ∀ b, Home b → s.buf b = replay cur H b)
    (hr : ∀ b ∈ cur.map Prod.fst, b ∈ s.lh.toList ∨ ∃ p, s.cont p = .append b)
    (hc : ¬ (s.cont p).Installing → (LogHeader.get (s.disk logstart)).toList = [])
    (hst : Stage s H cur (s.cont p)) : Carries s H cur where
  disk := hd
  bufs _ := hb
  recorded _ := hr
  clean _ hn := hc (hn p)
  stage q := by
    by_cases hq : q = p
    · exact hq ▸ hst
    · exact stage_of_not_inCommit (ho q hq)
  offline hn := absurd hrun hn
  recovering := by rw [hrun]; trivial

/-- No process installs while none but `p` is in a commit, and `p` does not. -/
theorem Carries.header_nil (h : Carries s H cur) (hrun : s.phase = .running)
    (ho : ∀ q, q ≠ p → ¬ (s.cont q).InCommit) (hp : ¬ (s.cont p).Installing) :
    (LogHeader.get (s.disk logstart)).toList = [] := by
  refine h.clean hrun fun q hq => ?_
  by_cases hqp : q = p
  · exact hp (hqp ▸ hq)
  · exact ho q hqp hq.inCommit

theorem Carries.crash (h : Carries s H cur) : Carries (State.poweron s.disk : State P) H [] :=
  .of_offline (by simp [State.poweron]) h.disk (fun _ => rfl) rfl rfl trivial

/-- A write to a log block leaves the home blocks. -/
theorem home_update_slot {f : Nat → Block} {v : Block} {k b : Nat} (hk : k < nlog - 1)
    (hb : Home b) : Function.update f (logstart + k + 1) v b = f b :=
  Function.update_of_ne (fun he => not_home_slot hk (by rwa [he] at hb)) _ _

variable [DecidableEq P]

/-- **Commit**: its steps leave what the disk shows, but for the write of the
header, which makes the updates since the last commit current. -/
theorem Carries.commitStep (h : Carries s H cur) (hw : Wf s) (hrun : s.phase = .running)
    (hs : s.commitStep p (s.cont p) = .ok s') :
    (s.cont p = .writeHead → Carries s' (replay cur H) []) ∧
    (s.cont p ≠ .writeHead → Carries s' H cur) := by
  have hin : (s.cont p).InCommit := by
    cases hc : s.cont p <;> rw [hc] at hs <;> trivial
  have ho : ∀ q, q ≠ p → ¬ (s.cont q).InCommit := fun q hq hqc => hq (hw.turns.unique q p hqc hin)
  have ho' : ∀ (c : Cont) q, q ≠ p → ¬ ((Function.update s.cont p c) q).InCommit := fun c q hq => by
    rw [Function.update_of_ne hq]; exact ho q hq
  have hrec : ∀ b ∈ cur.map Prod.fst, b ∈ s.lh.toList := fun b hb => by
    refine (h.recorded hrun b hb).resolve_right fun ⟨q, hq⟩ => ?_
    exact hw.turns.alone (hw.turns.committing.mpr ⟨p, hin⟩) q (by rw [hq]; trivial)
  have hst := h.stage p
  have hbufs := h.bufs hrun
  have hclean := h.header_nil hrun ho
  have hn := hw.sane.header.bound
  have hblk : ∀ i < s.lh.n, Home (s.lh.block i) := fun i hi =>
    hw.sane.header.home _ (LogHeader.mem_toList.mpr ⟨i, hi, rfl⟩)
  cases hc : s.cont p <;> rw [hc] at hs hst hclean <;> simp only [State.commitStep] at hs
  case idle => cases hs
  case inOp => cases hs
  case append => cases hs
  case commit =>
    cases hs
    refine ⟨fun he => (by cases he), fun _ => .of_running hrun p (ho' _) h.disk hbufs
      (fun b hb => .inl (hrec b hb)) (fun _ => hclean id) ?_⟩
    simp only [State.setCont, Function.update_self]
    split
    · exact fun i hi => by omega
    · next h0 =>
      have hnil := toList_of_n (s := s) (by omega)
      refine List.eq_nil_iff_forall_not_mem.mpr fun u hu => ?_
      simpa [hnil] using hrec u.1 (List.mem_map_of_mem hu)
  case writeLog k =>
    split at hs <;> cases hs
    · next hk =>
      have hkn : k < nlog - 1 := by omega
      refine ⟨fun he => (by cases he), fun _ => .of_running hrun p (ho' _)
        (h.disk.writeSlot (hclean id) hkn (writeLog_disk k)) (fun b hb => ?_)
        (fun b hb => .inl (hrec b hb)) (fun _ => ?_) ?_⟩
      · exact (home_update_slot hkn hb).trans (hbufs b hb)
      · simp only [State.setCont, writeLog_disk]
        rw [Function.update_of_ne (by omega)]
        exact hclean id
      · simp only [State.setCont, Function.update_self]
        intro i hi
        show (s.writeLog k).disk _ = (s.writeLog k).buf (s.lh.block i)
        rw [writeLog_disk, writeLog_buf, home_update_slot hkn (hblk i (by omega))]
        by_cases hik : i = k
        · rw [hik, Function.update_self]
        · rw [Function.update_of_ne (by omega)]
          exact hst i (by omega)
    · refine ⟨fun he => (by cases he), fun _ => .of_running hrun p (ho' _) h.disk hbufs
        (fun b hb => .inl (hrec b hb)) (fun _ => hclean id) ?_⟩
      simp only [State.setCont, Function.update_self]
      exact fun i (hi : i < s.lh.n) => hst i (by omega)
  case writeHead =>
    cases hs
    refine ⟨fun _ => .of_running hrun p (ho' _) ?_ (fun b hb => ?_) (fun b hb => by simp at hb)
      (fun hi => ?_) ?_, fun he => absurd rfl he⟩
    · have hhd := hw.sane.write_head
      rw [write_head_disk, Function.update_self] at hhd
      refine h.disk.writeHead (hclean id) hhd (fun i hi => ?_) (fun b _ hm => ?_) write_head_disk
      · rw [LogHeader.getElem_toList]
        rw [LogHeader.length_toList] at hi
        rw [hst i hi, hbufs _ (hblk i hi)]
      · exact replay_of_not_mem _ _ fun hb => hm (hrec b hb)
    · show s.write_head.buf b = _
      rw [write_head_buf, home_update_head hb, hbufs b hb, replay_nil]
    · simp [State.setCont, Cont.Installing] at hi
    · simp only [State.setCont, Function.update_self]
      exact ⟨hw.sane.write_head, fun i hi => by omega, rfl⟩
  case install k =>
    obtain ⟨hl, hi, hcur⟩ := hst
    split at hs <;> cases hs
    · next hk =>
      obtain ⟨hd, hl', hv, hi'⟩ := install_home h.disk hw.sane hk hl hi
      refine ⟨fun he => (by cases he), fun _ => .of_running hrun p (ho' _) hd (fun b hb => ?_)
        (fun b hb => .inl (hrec b hb)) (fun hi => ?_) ?_⟩
      · show (s.install k).buf b = _
        rw [install_buf, hv]
        by_cases hbk : b = s.lh.block k
        · subst hbk; rw [Function.update_self, hcur, replay_nil]
        · rw [Function.update_of_ne hbk, hbufs b hb]
      · simp [State.setCont, Cont.Installing] at hi
      · simp only [State.setCont, Function.update_self]
        exact ⟨hl', hi', hcur⟩
    · next hk =>
      refine ⟨fun he => (by cases he), fun _ => .of_running hrun p (ho' _) h.disk hbufs
        (fun b hb => by simp [hcur] at hb) (fun hi => ?_) ?_⟩
      · simp [State.setCont, Cont.Installing] at hi
      · simp only [State.setCont, Function.update_self]
        exact ⟨fun b hb => installed_home h.disk hk hl hi hb, hcur⟩
  case erase =>
    cases hs
    obtain ⟨hall, hcur⟩ := hst
    have h0 := toList_of_n (hw.sane.cleared p (.inl hc))
    have hhd := hw.sane.write_head.trans h0
    refine ⟨fun he => (by cases he), fun _ => .of_running hrun p (ho' _) ?_ (fun b hb => ?_)
      (fun b hb => by simp [hcur] at hb) (fun _ => hhd) ?_⟩
    · rw [write_head_disk, Function.update_self] at hhd
      exact .eraseHead hall hhd write_head_disk
    · show s.write_head.buf b = _
      rw [write_head_buf, home_update_head hb, hbufs b hb]
    · simp only [State.setCont, Function.update_self]
      exact hcur
  case committed =>
    cases hs
    refine ⟨fun he => (by cases he), fun _ => .of_running hrun p (ho' _) h.disk hbufs
      (fun b hb => .inl (hrec b hb)) (fun _ => hclean id) ?_⟩
    simp only [State.setCont, Function.update_self]
    trivial

theorem Carries.begin_op (h : Carries s H cur) (ht : Turns s) (hrun : s.phase = .running)
    (hp : s.cont p = .idle) : Carries (s.begin_op p) H cur := by
  unfold State.begin_op
  split
  · exact h
  next hcm =>
  split
  · exact h
  have hno := ht.not_inCommit (by simpa using hcm)
  refine .of_running hrun p (fun q hq => ?_) h.disk (h.bufs hrun) (fun b hb => ?_)
    (fun _ => h.clean hrun fun q hq => hno q hq.inCommit) ?_
  · simpa [State.setCont, hq] using hno q
  · rcases h.recorded hrun b hb with hl | ⟨q, hq⟩
    · exact .inl hl
    · have hqp : q ≠ p := by rintro rfl; simp [hp] at hq
      exact .inr ⟨q, by simpa [State.setCont, hqp] using hq⟩
  · simp only [State.setCont, Function.update_self]
    trivial

/-- A step of a process inside an operation: it writes the buffers `buf'` and the
header `lh'` only. -/
theorem Carries.op (h : Carries s H cur) (ht : Turns s) (hrun : s.phase = .running)
    (hp : (s.cont p).InOp) {cur' : List (Nat × Block)} (hd : s'.disk = s.disk)
    (hph : s'.phase = s.phase) (hc : s'.cont = Function.update s.cont p c)
    (hcn : Stage s' H cur' c) (hb : ∀ b, Home b → s'.buf b = replay cur' H b)
    (hr : ∀ b ∈ cur'.map Prod.fst, b ∈ s'.lh.toList ∨ ∃ p, s'.cont p = .append b) :
    Carries s' H cur' := by
  have hno := ht.not_inCommit (ht.not_committing hp)
  have hnil := h.clean hrun fun q hq => hno q hq.inCommit
  refine .of_running (hph.trans hrun) p (fun q hq => ?_) (by rw [hd]; exact h.disk) hb hr
    (fun _ => by rw [hd]; exact hnil) ?_
  · rw [hc, Function.update_of_ne hq]; exact hno q
  · rw [hc, Function.update_self]; exact hcn

theorem Carries.log_write (h : Carries s H cur) (ht : Turns s) (hrun : s.phase = .running)
    (hp : s.cont p = .inOp) (b : Nat) (d : Block) :
    Carries ({ s with buf := Function.update s.buf b d }.setCont p (.append b)) H
      (cur ++ [(b, d)]) := by
  refine h.op ht hrun (p := p) (by rw [hp]; trivial) rfl rfl rfl trivial (fun b' hb' => ?_)
    fun b' hb' => ?_
  · rw [replay_concat]
    show Function.update s.buf b d b' = _
    by_cases hbb : b' = b
    · subst hbb; simp
    · rw [Function.update_of_ne hbb, Function.update_of_ne hbb, h.bufs hrun b' hb']
  · rw [List.map_append, List.mem_append] at hb'
    rcases hb' with hb' | hb'
    · refine (h.recorded hrun b' hb').imp id fun ⟨q, hq⟩ => ⟨q, ?_⟩
      have hqp : q ≠ p := by rintro rfl; simp [hp] at hq
      simpa [State.setCont, hqp] using hq
    · exact .inr ⟨p, by simp [State.setCont, List.mem_singleton.mp hb']⟩

theorem Carries.append (h : Carries s H cur) (ht : Turns s) (hrun : s.phase = .running) {b : Nat}
    (hp : s.cont p = .append b) {lh : LogHeader} (hr : s.lh.record b = some lh) :
    Carries ({ s with lh := lh }.setCont p .inOp) H cur := by
  refine h.op ht hrun (p := p) (by rw [hp]; trivial) rfl rfl rfl trivial (h.bufs hrun)
    fun b' hb' => ?_
  rcases h.recorded hrun b' hb' with hm | ⟨q, hq⟩
  · exact .inl ((LogHeader.record_mem hr).mpr (.inl hm))
  · by_cases hqp : q = p
    · subst hqp
      rw [hp] at hq
      cases hq
      exact .inl ((LogHeader.record_mem hr).mpr (.inr rfl))
    · exact .inr ⟨q, by simpa [State.setCont, hqp] using hq⟩

theorem Carries.end_op (h : Carries s H cur) (ht : Turns s) (hrun : s.phase = .running)
    (hp : s.cont p = .inOp) (he : s.end_op p = .ok s') : Carries s' H cur := by
  have hrec : ∀ (c : Cont), ∀ b ∈ cur.map Prod.fst,
      b ∈ s.lh.toList ∨ ∃ q, (s.setCont p c).cont q = .append b := fun c b hb => by
    refine (h.recorded hrun b hb).imp id fun ⟨q, hq⟩ => ⟨q, ?_⟩
    have hqp : q ≠ p := by rintro rfl; simp [hp] at hq
    simpa [State.setCont, hqp] using hq
  have hin : (s.cont p).InOp := by rw [hp]; trivial
  simp only [State.end_op] at he
  split at he
  · cases he
  · split at he <;> cases he
    · exact h.op ht hrun hin rfl rfl rfl trivial (h.bufs hrun) (hrec .commit)
    · exact h.op ht hrun hin rfl rfl rfl trivial (h.bufs hrun) (hrec .idle)

end

end Xv6.Log
