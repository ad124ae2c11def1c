import Mathlib.Data.List.Basic
import Xv6.Threads.Proc
import Xv6.Lib.Run

/-!
# The memory of a process with threads

`sbrk` and the memory part of `thread_create`, with `allocuvm` and `deallocuvm`
of `vm.c`. The threads of a process share its page directory, but each has its own
`sz`: `growproc` changes that of the caller, and `thread_create` those of the caller
and of the new thread.
-/

namespace Xv6.Threads

open Lib
open Sched (int32)

def PGSIZE : Nat := 4096
def KERNBASE : Nat := 2 ^ 31

def PGROUNDUP (sz : Nat) : Nat := (sz + PGSIZE - 1) / PGSIZE * PGSIZE
def PDX (va : Nat) : Nat := va / 2 ^ 22
def PTX (va : Nat) : Nat := va / PGSIZE % 1024

/-- The value of `x` as an `unsigned int`. -/
def uint (x : Int) : Nat := (x % 2 ^ 32).toNat

/-- The user part of a page directory: its page tables, and which of their
entries are present. -/
abbrev Pgdir := Nat → Option (Nat → Bool)

namespace Pgdir

variable (d : Pgdir)

/-- The page of `va` is mapped. -/
def present (va : Nat) : Bool :=
  match d (PDX va) with
  | some pgtab => pgtab (PTX va)
  | none => false

/-- `walkpgdir` with `alloc`, then the entry of `va` set to present. -/
def map (va : Nat) : Pgdir :=
  Function.update d (PDX va) (some (Function.update ((d (PDX va)).getD fun _ => false) (PTX va) true))

/-- An iteration of the loop of `deallocuvm`, which skips the rest of a page
table that is not there. -/
def unmap (va : Nat) : Pgdir :=
  match d (PDX va) with
  | some pgtab => Function.update d (PDX va) (some (Function.update pgtab (PTX va) false))
  | none => d

/-- `mappages` for one page. -/
def mappages (va : Nat) : Except Fault Pgdir :=
  if d.present va then .error (.panic "remap") else .ok (d.map va)

end Pgdir

/-- The values of `a` in `for(a = lo; a < hi; a += PGSIZE)`. -/
def pages (lo hi : Nat) : List Nat := List.range' lo ((hi - lo + PGSIZE - 1) / PGSIZE) PGSIZE

/-- The loop of `allocuvm`; memory runs out after `room` pages. -/
def allocLoop : Nat → Pgdir → List Nat → Except Fault (Pgdir × Bool)
  | _, d, [] => .ok (d, true)
  | 0, d, _ :: _ => .ok (d, false)
  | room + 1, d, a :: as => do
    let d ← d.mappages a
    allocLoop room d as

def deallocuvm (d : Pgdir) (oldsz newsz : Nat) : Pgdir × Nat :=
  if oldsz ≤ newsz then (d, oldsz)
  else ((pages (PGROUNDUP newsz) oldsz).foldl Pgdir.unmap d, newsz)

def allocuvm (d : Pgdir) (oldsz newsz room : Nat) : Except Fault (Pgdir × Nat) :=
  if KERNBASE ≤ newsz then .ok (d, 0)
  else if newsz < oldsz then .ok (d, oldsz)
  else do
    let (d, done) ← allocLoop room d (pages (PGROUNDUP oldsz) newsz)
    return if done then (d, newsz) else ((deallocuvm d newsz oldsz).1, 0)

/-- Memory that a thread got: a result of `sbrk`, or the stack of a new thread. -/
structure Grant where
  thread : Nat
  lo : Nat
  hi : Nat
  deriving DecidableEq, Repr

/-- A process with its threads, the first of which is the master. -/
structure Space where
  pgdir : Pgdir
  /-- `sz` of each thread -/
  sz : List Nat
  /-- what the threads got and the process has not given back -/
  grants : List Grant

namespace Space

variable (s : Space)

def size (t : Nat) : Except Fault Nat :=
  match s.sz[t]? with
  | some sz => .ok sz
  | none => .error .blocked

/-- `growproc(n)` by thread `t`. -/
def growproc (t : Nat) (n : Int) (room : Nat) : Except Fault (Space × Int) := do
  let oldsz ← s.size t
  let (d, sz) ← if n > 0 then allocuvm s.pgdir oldsz (uint (oldsz + n)) room
    else if n < 0 then pure (deallocuvm s.pgdir oldsz (uint (oldsz + n)))
    else pure (s.pgdir, oldsz)
  if n ≠ 0 ∧ sz = 0 then return ({ s with pgdir := d }, -1)
  else return ({ s with pgdir := d, sz := s.sz.set t sz }, 0)

/-- The process has given back what lies at `sz` or above. -/
def trim (sz : Nat) : Space :=
  { s with grants := s.grants.map fun g => { g with hi := min g.hi sz } }

/-- `sys_sbrk` by thread `t`. -/
def sbrk (t : Nat) (n : Int) (room : Nat) : Except Fault Space := do
  let addr ← s.size t
  let (s', r) ← s.growproc t n room
  if r < 0 then return s'
  else if n > 0 then return { s' with grants := s'.grants ++ [⟨t, addr, addr + n.toNat⟩] }
  else
    let sz ← s'.size t
    return s'.trim sz

/-- `thread_create` by thread `t`; `slot` says whether `allocproc` found a slot. -/
def thread_create (t : Nat) (slot : Bool) (room : Nat) : Except Fault Space :=
  if !slot then .ok s
  else do
    let oldsz := PGROUNDUP (← s.size t)
    let (d, sz) ← allocuvm s.pgdir oldsz (uint (oldsz + 2 * PGSIZE)) room
    if sz = 0 then .error (.panic "allocuvm")
    else return {
      pgdir := d
      -- of the threads, only the caller and the new one learn the size
      sz := s.sz.set t sz ++ [sz]
      grants := s.grants ++ [⟨s.sz.length, oldsz, sz⟩] }

inductive Resize where
  | sbrk (t : Nat) (n : Int) (room : Nat)
  | thread_create (t : Nat) (slot : Bool) (room : Nat)
  deriving DecidableEq, Repr

def step : Resize → Except Fault Space
  | .sbrk t n room => s.sbrk t (int32 n) room
  | .thread_create t slot room => s.thread_create t slot room

end Space

/-! ## Page directories -/

/-- The user pages below `sz` are mapped, and no others. -/
def MappedBelow (d : Pgdir) (sz : Nat) : Prop := ∀ va, d.present va = true ↔ va < sz

section
variable {d d' : Pgdir} {lo hi oldsz newsz room : Nat}

theorem same_page {a b : Nat} : PDX a = PDX b ∧ PTX a = PTX b ↔ a / PGSIZE = b / PGSIZE := by
  unfold PDX PTX PGSIZE
  omega

theorem present_map (d : Pgdir) (a b : Nat) :
    (d.map a).present b = true ↔ b / PGSIZE = a / PGSIZE ∨ d.present b = true := by
  rw [← same_page]
  unfold Pgdir.present Pgdir.map
  by_cases hd : PDX b = PDX a
  · rw [hd]
    by_cases ht : PTX b = PTX a
    · simp [ht]
    · cases d (PDX a) <;> simp [ht]
  · simp [hd]

theorem present_unmap (d : Pgdir) (a b : Nat) :
    (d.unmap a).present b = true ↔ b / PGSIZE ≠ a / PGSIZE ∧ d.present b = true := by
  rw [ne_eq, ← same_page]
  unfold Pgdir.present Pgdir.unmap
  by_cases hd : PDX b = PDX a
  · rw [hd]
    cases he : d (PDX a) with
    | none => simp [he]
    | some t =>
      by_cases ht : PTX b = PTX a
      · simp [ht]
      · simp [ht]
  · cases d (PDX a) <;> simp [hd]

theorem PGROUNDUP_mod (sz : Nat) : PGROUNDUP sz % PGSIZE = 0 := Nat.mul_mod_left _ _

theorem le_PGROUNDUP (sz : Nat) : sz ≤ PGROUNDUP sz := by
  unfold PGROUNDUP PGSIZE
  omega

/-- The loop of `allocuvm` maps the pages in order as long as there is memory. -/
theorem allocLoop_spec (n room : Nat) (hlo : lo % PGSIZE = 0) (hd : MappedBelow d lo) :
    ∃ d', allocLoop room d (List.range' lo n PGSIZE) = .ok (d', decide (n ≤ room)) ∧
      MappedBelow d' (lo + min n room * PGSIZE) := by
  induction n generalizing d lo room with
  | zero => exact ⟨d, by simp [allocLoop], by simpa using hd⟩
  | succ n ih =>
    rw [List.range'_succ]
    cases room with
    | zero => exact ⟨d, by simp [allocLoop], by simpa using hd⟩
    | succ room =>
      have hm : d.mappages lo = .ok (d.map lo) := by
        rw [Pgdir.mappages, if_neg (by rw [hd lo]; exact Nat.lt_irrefl lo)]
      have hf : MappedBelow (d.map lo) (lo + PGSIZE) := fun va => by
        rw [present_map, hd va]
        unfold PGSIZE at *
        omega
      obtain ⟨d', h1, h2⟩ := ih room (by rw [Nat.add_mod_right]; exact hlo) hf
      refine ⟨d', ?_, ?_⟩
      · rw [allocLoop, hm, ok_bind, h1]
        simp
      · rw [Nat.succ_min_succ, Nat.succ_mul, Nat.add_comm _ PGSIZE, ← Nat.add_assoc]
        exact h2

/-- The loop of `deallocuvm` unmaps its pages. -/
theorem unmaps_spec (hlo : lo % PGSIZE = 0) (n va : Nat) :
    ((List.range' lo n PGSIZE).foldl Pgdir.unmap d).present va = true ↔
      ¬ (lo ≤ va ∧ va < lo + n * PGSIZE) ∧ d.present va = true := by
  induction n generalizing d lo with
  | zero => simp
  | succ n ih =>
    rw [List.range'_succ, List.foldl_cons, ih (by rw [Nat.add_mod_right]; exact hlo), present_unmap,
      ← and_assoc]
    refine and_congr_left fun _ => ?_
    rw [Nat.succ_mul]
    unfold PGSIZE at *
    omega

/-- The number of pages that `allocuvm` maps. -/
def growth (oldsz newsz : Nat) : Nat := (newsz - PGROUNDUP oldsz + PGSIZE - 1) / PGSIZE

theorem deallocuvm_filled (h : newsz < oldsz) (hd : MappedBelow d hi) (hhi : hi ≤ PGROUNDUP oldsz)
    (hlo : PGROUNDUP newsz ≤ hi) :
    MappedBelow (deallocuvm d oldsz newsz).1 (PGROUNDUP newsz) := fun va => by
  rw [deallocuvm, if_neg (by omega), pages, unmaps_spec (PGROUNDUP_mod _), hd va]
  unfold PGROUNDUP PGSIZE at *
  omega

theorem allocuvm_ok (hd : MappedBelow d (PGROUNDUP oldsz)) (hle : oldsz ≤ newsz)
    (hk : newsz < KERNBASE)
    (hr : growth oldsz newsz ≤ room) :
    ∃ d', allocuvm d oldsz newsz room = .ok (d', newsz) ∧ MappedBelow d' (PGROUNDUP newsz) := by
  obtain ⟨d', h1, h2⟩ := allocLoop_spec (growth oldsz newsz) room (PGROUNDUP_mod oldsz) hd
  refine ⟨d', ?_, ?_⟩
  · have hp : pages (PGROUNDUP oldsz) newsz = List.range' (PGROUNDUP oldsz) (growth oldsz newsz) PGSIZE := rfl
    rw [allocuvm, if_neg (by omega), if_neg (by omega), hp, h1, ok_bind]
    simp [hr]
  · rw [Nat.min_eq_left hr] at h2
    have he : PGROUNDUP oldsz + growth oldsz newsz * PGSIZE = PGROUNDUP newsz := by
      unfold growth PGROUNDUP PGSIZE
      omega
    rwa [he] at h2

/-- Without memory for all pages, or above `KERNBASE`, nothing changes. -/
theorem allocuvm_fail (hd : MappedBelow d (PGROUNDUP oldsz)) (hle : oldsz ≤ newsz)
    (hf : KERNBASE ≤ newsz ∨ room < growth oldsz newsz) :
    ∃ d', allocuvm d oldsz newsz room = .ok (d', 0) ∧ MappedBelow d' (PGROUNDUP oldsz) := by
  by_cases hk : KERNBASE ≤ newsz
  · exact ⟨d, if_pos hk, hd⟩
  · have hr : room < growth oldsz newsz := hf.resolve_left hk
    obtain ⟨d', h1, h2⟩ := allocLoop_spec (growth oldsz newsz) room (PGROUNDUP_mod oldsz) hd
    have hp : pages (PGROUNDUP oldsz) newsz = List.range' (PGROUNDUP oldsz) (growth oldsz newsz) PGSIZE := rfl
    refine ⟨(deallocuvm d' newsz oldsz).1, ?_, ?_⟩
    · rw [allocuvm, if_neg hk, if_neg (by omega), hp, h1, ok_bind]
      simp [Nat.not_le.mpr hr]
    · rw [Nat.min_eq_right (by omega)] at h2
      unfold growth at hr
      refine deallocuvm_filled ?_ h2 ?_ (Nat.le_add_right _ _)
      · unfold PGROUNDUP PGSIZE at hr
        omega
      · unfold PGROUNDUP PGSIZE at *
        omega

end

/-! ## The size of the process -/

/-- All threads agree on size `z`, which is that of the mapped memory. -/
structure Agree (s : Space) (z : Nat) : Prop where
  sz : ∀ a ∈ s.sz, a = z
  filled : MappedBelow s.pgdir (PGROUNDUP z)
  lt : z < KERNBASE
  held : ∀ g ∈ s.grants, g.hi ≤ z
  disjoint : s.grants.Pairwise fun g g' => g.hi ≤ g'.lo ∨ g'.hi ≤ g.lo

/-- One thread, and nothing granted yet. -/
structure Fresh (s : Space) : Prop where
  single : s.sz.length = 1
  grants : s.grants = []
  filled : ∀ z ∈ s.sz, MappedBelow s.pgdir (PGROUNDUP z) ∧ z < KERNBASE

/-- `growproc(n)` changes the size `z`, but not to 0. -/
def Resizes (z : Nat) (n : Int) (room : Nat) : Prop :=
  (0 < n ∧ z + n < KERNBASE ∧ growth z (z + n.toNat) ≤ room) ∨ (n < 0 ∧ 0 < z + n)

instance (z : Nat) (n : Int) (room : Nat) : Decidable (Resizes z n room) :=
  inferInstanceAs (Decidable (_ ∨ _))

/-- Nobody changes the size while there is another thread, and nobody gives
exactly all memory back. -/
def ResizeSafe (s : Space) : Space.Resize → Prop
  | .sbrk t n room => ∀ z ∈ s.sz[t]?, (int32 n < 0 → z + int32 n ≠ 0) ∧
      (Resizes z (int32 n) room → s.sz.length = 1)
  | .thread_create _ slot _ => slot = true → s.sz.length = 1

instance (s : Space) (a : Space.Resize) : Decidable (ResizeSafe s a) :=
  match a with
  | .sbrk t _ _ => inferInstanceAs (Decidable (∀ z ∈ s.sz[t]?, _ ∧ _))
  | .thread_create _ slot _ => inferInstanceAs (Decidable (slot = true → _))

section
variable {s s' : Space} {z t room : Nat} {n : Int} {a : Space.Resize}

theorem uint_eq {x : Nat} {y : Int} (h : y = x) (hx : x < 2 ^ 32) : uint y = x := by
  unfold uint
  omega

theorem le_int32 : -2 ^ 31 ≤ int32 n := by
  have := Int.le_bmod (x := n) (m := 2 ^ 32) (by decide)
  unfold int32
  omega

/-- The size after `growproc(n)` by a thread whose size is `z`. -/
def resized (z : Nat) (n : Int) (room : Nat) : Nat :=
  if Resizes z n room then (z + n).toNat else z

/-- What `growproc` does to a process of size `z` that does not give all back. -/
theorem growproc_ok (room : Nat) (h : Agree s z) (ht : s.sz[t]? = some z)
    (hn : int32 n < 0 → z + int32 n ≠ 0) :
    ∃ d r, s.growproc t (int32 n) room =
        .ok ({ s with pgdir := d, sz := s.sz.set t (resized z (int32 n) room) }, r) ∧
      MappedBelow d (PGROUNDUP (resized z (int32 n) room)) ∧ resized z (int32 n) room < KERNBASE ∧
      (r = 0 ∨ r = -1) ∧ (Resizes z (int32 n) room → r = 0) ∧
      (0 < int32 n → r = 0 → Resizes z (int32 n) room) := by
  have hself : s.sz.set t z = s.sz := by
    obtain ⟨hl, rfl⟩ := List.getElem?_eq_some_iff.mp ht
    exact List.set_getElem_self hl
  have h1 : int32 n < 2 ^ 31 := Sched.int32_lt
  have h2 : -2 ^ 31 ≤ int32 n := le_int32
  have hz : z < 2 ^ 31 := h.lt
  generalize int32 n = n at *
  have hsz : s.size t = .ok z := by simp only [Space.size, ht]
  rw [Space.growproc, hsz, ok_bind]
  rcases lt_trichotomy n 0 with hneg | rfl | hpos
  · rw [if_neg (by omega), if_pos hneg]
    by_cases hz' : 0 < z + n
    · have hr : Resizes z n room := .inr ⟨hneg, hz'⟩
      have hu : uint (z + n) = (z + n).toNat := uint_eq (by omega) (by omega)
      have hlt : (z + n).toNat < z := by omega
      rw [resized, if_pos hr, hu]
      refine ⟨(deallocuvm s.pgdir z (z + n).toNat).1, 0, ?_, ?_, ?_, .inl rfl, fun _ => rfl, fun _ _ => hr⟩
      · rw [deallocuvm, if_neg (by omega)]
        simp only [pure, Except.pure, ok_bind]
        rw [if_neg (by omega)]
      · refine deallocuvm_filled hlt h.filled le_rfl ?_
        unfold PGROUNDUP PGSIZE
        omega
      · unfold KERNBASE; omega
    · have hr : ¬ Resizes z n room := by rintro (h | h) <;> omega
      have hn0 := hn hneg
      have hu : z ≤ uint (z + n) := by unfold uint; omega
      rw [resized, if_neg hr, hself]
      refine ⟨s.pgdir, if z = 0 then -1 else 0, ?_, h.filled, h.lt, ?_, fun h => absurd h hr,
        fun h => by omega⟩
      · rw [deallocuvm, if_pos hu]
        simp only [pure, Except.pure, ok_bind, hself]
        split
        · next h0 => rw [if_pos h0.2]
        · next h0 => rw [if_neg fun e => h0 ⟨by omega, e⟩]
      · split <;> simp
  · have hr : ¬ Resizes z 0 room := by rintro (h | h) <;> omega
    rw [resized, if_neg hr, hself]
    refine ⟨s.pgdir, 0, ?_, h.filled, h.lt, .inl rfl, fun _ => rfl, fun h => by omega⟩
    simp [hself, pure, Except.pure, bind, Except.bind]
  · have hu : uint (z + n) = z + n.toNat := uint_eq (by omega) (by omega)
    rw [if_pos hpos, hu]
    by_cases hr : Resizes z n room
    · obtain ⟨-, hk, hg⟩ : 0 < n ∧ (z : Int) + n < KERNBASE ∧ growth z (z + n.toNat) ≤ room := by
        rcases hr with h | h
        · exact h
        · omega
      have hk' : z + n.toNat < KERNBASE := by omega
      obtain ⟨d, hd, hf⟩ := allocuvm_ok h.filled (Nat.le_add_right z n.toNat) hk' hg
      have hzn : (z + n).toNat = z + n.toNat := by omega
      rw [resized, if_pos hr, hzn, hd, ok_bind]
      refine ⟨d, 0, ?_, hf, hk', .inl rfl, fun _ => rfl, fun _ _ => hr⟩
      dsimp only
      rw [if_neg (by omega)]
      rfl
    · have hf : KERNBASE ≤ z + n.toNat ∨ room < growth z (z + n.toNat) := by
        by_contra hc
        simp only [not_or, not_le, not_lt] at hc
        exact hr (.inl ⟨hpos, by omega, hc.2⟩)
      obtain ⟨d, hd, hf⟩ := allocuvm_fail h.filled (Nat.le_add_right z n.toNat) hf
      rw [resized, if_neg hr, hd, ok_bind]
      refine ⟨d, -1, ?_, hf, h.lt, .inr rfl, fun h => absurd h hr, fun _ h => by cases h⟩
      dsimp only
      rw [if_pos ⟨by omega, rfl⟩, hself]
      rfl

/-- The size changes only for a thread that is alone. -/
theorem Agree.set_sz (h : Agree s z) (ht : s.sz[t]? = some z) {z' : Nat}
    (hg : z' ≠ z → s.sz.length = 1) : ∀ a ∈ s.sz.set t z', a = z' := by
  intro a ha
  by_cases hz : z' = z
  · subst hz
    exact (List.mem_or_eq_of_mem_set ha).elim (h.sz a) id
  · obtain ⟨b, hb⟩ := List.length_eq_one_iff.mp (hg hz)
    have ht0 : t = 0 := by
      have := (List.getElem?_eq_some_iff.mp ht).1
      rw [hb, List.length_singleton] at this
      omega
    rw [hb, ht0] at ha
    simpa using ha

/-- A new grant begins where the memory ended. -/
theorem Agree.grant (h : Agree s z) {z' : Nat} {g : Grant} {d : Pgdir} {sz : List Nat}
    (hsz : ∀ a ∈ sz, a = z') (hd : MappedBelow d (PGROUNDUP z')) (hlt : z' < KERNBASE) (hz : z ≤ z')
    (hlo : z ≤ g.lo) (hhi : g.hi ≤ z') : Agree ⟨d, sz, s.grants ++ [g]⟩ z' where
  sz := hsz
  filled := hd
  lt := hlt
  held g' hg := by
    rcases List.mem_append.mp hg with hg | hg
    · exact (h.held g' hg).trans hz
    · rw [List.mem_singleton.mp hg]; exact hhi
  disjoint := by
    refine List.pairwise_append.mpr ⟨h.disjoint, List.pairwise_singleton _ _, fun g' hg g'' hg' => ?_⟩
    rw [List.mem_singleton.mp hg']
    exact .inl ((h.held g' hg).trans hlo)

theorem Agree.trim (h : Agree s z) {z' : Nat} {d : Pgdir} {sz : List Nat}
    (hsz : ∀ a ∈ sz, a = z') (hd : MappedBelow d (PGROUNDUP z')) (hlt : z' < KERNBASE) :
    Agree (Space.trim ⟨d, sz, s.grants⟩ z') z' where
  sz := hsz
  filled := hd
  lt := hlt
  held g hg := by
    obtain ⟨g', -, rfl⟩ := List.mem_map.mp hg
    exact Nat.min_le_right _ _
  disjoint := by
    refine List.pairwise_map.mpr (h.disjoint.imp fun hgg => ?_)
    exact hgg.imp (Nat.min_le_left _ _).trans (Nat.min_le_left _ _).trans

/-- **Step lemma for `sbrk`.** -/
theorem Agree.sbrk (h : Agree s z) (ht : s.sz[t]? = some z)
    (hn : int32 n < 0 → z + int32 n ≠ 0) (hg : Resizes z (int32 n) room → s.sz.length = 1) :
    ∃ s', s.sbrk t (int32 n) room = .ok s' ∧ Agree s' (resized z (int32 n) room) := by
  obtain ⟨d, r, hgp, hf, hlt, hr, hrz, hzr⟩ := growproc_ok room h ht hn
  have hsize : s.size t = .ok z := by simp only [Space.size, ht]
  have hset : ∀ a ∈ s.sz.set t (resized z (int32 n) room), a = resized z (int32 n) room :=
    h.set_sz ht fun hne => hg (by by_contra hc; exact hne (if_neg hc))
  rw [Space.sbrk, hsize, ok_bind, hgp, ok_bind]
  dsimp only
  split
  · next hneg =>
    have hno : ¬ Resizes z (int32 n) room := fun e => by rw [hrz e] at hneg; omega
    refine ⟨_, rfl, hset, hf, hlt, fun g hg => ?_, h.disjoint⟩
    rw [resized, if_neg hno]
    exact h.held g hg
  · next hneg =>
    have hr0 : r = 0 := hr.resolve_right fun e => hneg (by omega)
    split
    · next hpos =>
      have hres : resized z (int32 n) room = z + (int32 n).toNat := by
        rw [resized, if_pos (hzr hpos hr0)]
        omega
      refine ⟨_, rfl, h.grant hset hf hlt ?_ le_rfl ?_⟩
      · rw [hres]; exact Nat.le_add_right _ _
      · exact hres.ge
    · have hs' : Space.size { s with pgdir := d, sz := s.sz.set t (resized z (int32 n) room) } t =
          .ok (resized z (int32 n) room) := by
        have hl := (List.getElem?_eq_some_iff.mp ht).1
        simp only [Space.size, List.getElem?_set_self hl]
      rw [hs', ok_bind]
      exact ⟨_, rfl, h.trim hset hf hlt⟩

/-- **Step lemma for `thread_create`**, which succeeds or panics for lack of memory. -/
theorem Agree.thread_create (h : Agree s z) (ht : s.sz[t]? = some z) (hg : s.sz.length = 1) :
    s.thread_create t true room = .error (.panic "allocuvm") ∨
    ∃ s', s.thread_create t true room = .ok s' ∧ Agree s' (PGROUNDUP z + 2 * PGSIZE) := by
  have hsize : s.size t = .ok z := by simp only [Space.size, ht]
  have hz : z < 2 ^ 31 := h.lt
  have hu : uint (PGROUNDUP z + 2 * PGSIZE : Nat) = PGROUNDUP z + 2 * PGSIZE :=
    uint_eq rfl (by unfold PGROUNDUP PGSIZE; omega)
  have hr : PGROUNDUP (PGROUNDUP z) = PGROUNDUP z := by unfold PGROUNDUP PGSIZE; omega
  have hd : MappedBelow s.pgdir (PGROUNDUP (PGROUNDUP z)) := hr.symm ▸ h.filled
  simp only [Space.thread_create, Bool.not_true, Bool.false_eq_true, if_false, hsize, ok_bind]
  have hu' : uint ((PGROUNDUP z : Int) + 2 * PGSIZE) = PGROUNDUP z + 2 * PGSIZE := by exact_mod_cast hu
  rw [hu']
  by_cases hf : KERNBASE ≤ PGROUNDUP z + 2 * PGSIZE ∨
      room < growth (PGROUNDUP z) (PGROUNDUP z + 2 * PGSIZE)
  · obtain ⟨d, hd, -⟩ := allocuvm_fail hd (Nat.le_add_right _ _) hf
    left
    rw [hd, ok_bind]
    rfl
  · simp only [not_or, not_le, not_lt] at hf
    obtain ⟨d, hd, hfill⟩ := allocuvm_ok hd (Nat.le_add_right _ _) hf.1 hf.2
    right
    rw [hd, ok_bind]
    dsimp only
    rw [if_neg (by unfold PGSIZE; omega)]
    refine ⟨_, rfl, h.grant (fun a ha => ?_) hfill hf.1 ?_ (le_PGROUNDUP z) le_rfl⟩
    · rcases List.mem_append.mp ha with ha | ha
      · exact h.set_sz ht (fun _ => hg) a ha
      · exact List.mem_singleton.mp ha
    · exact (le_PGROUNDUP z).trans (Nat.le_add_right _ _)

/-- **Step lemma**: the threads agree after a guarded call, and it does not map a
page again. -/
theorem Agree.step (h : Agree s z) (hg : ResizeSafe s a) :
    (∀ s', s.step a = .ok s' → ∃ z', Agree s' z') ∧ s.step a ≠ .error (.panic "remap") := by
  cases a with
  | sbrk t n room =>
    cases ht : s.sz[t]? with
    | none =>
      have he : s.step (.sbrk t n room) = .error .blocked := by
        simp [Space.step, Space.sbrk, Space.size, ht, bind, Except.bind]
      rw [he]
      exact ⟨fun s' h => (by cases h), by simp⟩
    | some b =>
      obtain rfl := h.sz b (List.mem_of_getElem? ht)
      obtain ⟨hn, hg⟩ := hg b ht
      obtain ⟨s1, hs, ha⟩ := h.sbrk ht hn hg
      rw [Space.step, hs]
      exact ⟨fun s' h => (by cases h; exact ⟨_, ha⟩), by simp⟩
  | thread_create t slot room =>
    cases slot with
    | false =>
      exact ⟨fun s' hs => (by cases hs; exact ⟨z, h⟩), by simp [Space.step, Space.thread_create]⟩
    | true =>
      cases ht : s.sz[t]? with
      | none =>
        have he : s.step (.thread_create t true room) = .error .blocked := by
          simp [Space.step, Space.thread_create, Space.size, ht, bind, Except.bind]
        rw [he]
        exact ⟨fun s' h => (by cases h), by simp⟩
      | some b =>
        obtain rfl := h.sz b (List.mem_of_getElem? ht)
        rcases h.thread_create ht (hg rfl) with hs | ⟨s1, hs, ha⟩
        · rw [Space.step, hs]
          exact ⟨fun s' h => (by cases h), by simp⟩
        · rw [Space.step, hs]
          exact ⟨fun s' h => (by cases h; exact ⟨_, ha⟩), by simp⟩

theorem Fresh.agree (h : Fresh s) : ∃ z, Agree s z := by
  obtain ⟨z, hz⟩ := List.length_eq_one_iff.mp h.single
  have hf := h.filled z (by rw [hz]; exact List.mem_singleton_self z)
  refine ⟨z, fun a ha => by rw [hz] at ha; exact List.mem_singleton.mp ha, hf.1, hf.2, ?_, ?_⟩
  · rw [h.grants]; exact fun g hg => absurd hg List.not_mem_nil
  · rw [h.grants]; exact .nil

end

/-- **Threads agree on the size**: if the size changes only while the process has one
thread, and nobody gives exactly all memory back, then all threads have the same `sz`,
the pages below it are the mapped ones, what was granted is disjoint, and no page is
mapped again. -/
theorem threads_agree {s₀ s : Space} (h0 : Fresh s₀) (h : Reach Space.step ResizeSafe s₀ s) :
    (∃ z, Agree s z) ∧ ∀ a, ResizeSafe s a → s.step a ≠ .error (.panic "remap") := by
  obtain ⟨z, hz⟩ := h.invariant (I := fun s => ∃ z, Agree s z) h0.agree
    fun s a s' ⟨_, hi⟩ hg hs => (hi.step hg).1 s' hs
  exact ⟨⟨z, hz⟩, fun a hg => (hz.step hg).2⟩

/-- A process with one page. -/
def Space.onePage : Space where
  pgdir i := if i = 0 then some fun j => j = 0 else none
  sz := [PGSIZE]
  grants := []

theorem fresh_onePage : Fresh Space.onePage where
  single := rfl
  grants := rfl
  filled z hz := by
    obtain rfl : z = PGSIZE := List.mem_singleton.mp hz
    refine ⟨fun va => ?_, by decide⟩
    unfold Pgdir.present Space.onePage PDX PTX PGROUNDUP PGSIZE
    by_cases h : va / 2 ^ 22 = 0
    · simp only [h, if_true, decide_eq_true_eq]
      omega
    · simp only [h, if_false]
      constructor
      · intro h'; cases h'
      · intro h'; omega

/-- The master takes memory, gives some back and creates a thread. -/
def growRun : List Space.Resize :=
  [.sbrk 0 5000 9, .sbrk 0 (-3000) 9, .thread_create 0 true 9, .sbrk 1 0 9]

theorem threads_agree_growRun : ∃ s, exec Space.step ResizeSafe .onePage growRun = some s ∧
    (s.sz = [16384, 16384] ∧ s.grants = [⟨0, 4096, 6096⟩, ⟨1, 8192, 16384⟩]) ∧ (∃ z, Agree s z) ∧
    ∀ a, ResizeSafe s a → s.step a ≠ .error (.panic "remap") := by
  obtain ⟨s, hs, hr, hp⟩ := Reach.of_any Space.step ResizeSafe .onePage
    (fun s => s.sz = [16384, 16384] ∧ s.grants = [⟨0, 4096, 6096⟩, ⟨1, 8192, 16384⟩])
    growRun (by decide +kernel)
  exact ⟨s, hs, hp, threads_agree fresh_onePage hr⟩

/-- The master creates two threads: the first keeps the size of its creation, and its
next `sbrk` panics. -/
theorem twoThreads_disagree : ¬ ∀ s, Reach Space.step Always .onePage s →
    (∃ z, Agree s z) ∧ ∀ a, s.step a ≠ .error (.panic "remap") := by
  intro h
  obtain ⟨s, -, hr, hp⟩ := Reach.of_any Space.step Always .onePage
    (fun s => s.sz = [20480, 12288, 20480] ∧
      faultsWith (s.step (.sbrk 1 1000 9)) (.panic "remap") = true)
    [.thread_create 0 true 9, .thread_create 0 true 9] (by decide +kernel)
  obtain ⟨⟨z, hz⟩, -⟩ := h s hr
  have h1 := hz.sz 12288 (by rw [hp.1]; decide)
  have h2 := hz.sz 20480 (by rw [hp.1]; decide)
  omega

end Xv6.Threads
