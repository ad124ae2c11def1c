import Xv6.Sched.Effects
import Xv6.Sched.Queue

/-!
# The queue update of `yield`

The removal loop of `yield` has no `break`: after the shift it goes on to scan
the row that has just become shorter. On rows in which no process occurs twice
the loop is still an erasure, and the append that follows makes the update a
round-robin move: the process goes to the end of its row, or of the next one.
-/

namespace Xv6.Sched

open Lib

/-- All entries of the queues. -/
def entries (q : Level → List Ptr) : List Ptr := (List.finRange DEPTH_QUEUE).flatMap q

/-- `p` went to the end of row `l`, and nothing else moved. -/
structure MovedTo (q q' : Level → List Ptr) (p : Ptr) (l : Level) : Prop where
  last : ∃ r, q' l = r ++ [p] ∧ p ∉ r
  absent : ∀ m, m ≠ l → p ∉ q' m
  order : ∀ m, (q' m).filter (· ≠ p) = (q m).filter (· ≠ p)

/-- The rows after `p` was taken out of each and appended to row `l`. -/
def requeue (q : Level → List Ptr) (p : Ptr) (l : Level) : Level → List Ptr :=
  fun m => if m = l then (q m).erase p ++ [p] else (q m).erase p

section
variable {q : Level → List Ptr} {p : Ptr} {l : Level}

theorem nodup_row (h : (entries q).Nodup) (m : Level) : (q m).Nodup :=
  (List.nodup_flatMap.mp h).1 m (List.mem_finRange m)

/-- A process that is in one row is in no other. -/
theorem not_mem_row (h : (entries q).Nodup) (hp : p ∈ q l) {m : Level} (hm : m ≠ l) : p ∉ q m := by
  intro hpm
  have hd := (List.nodup_flatMap.mp h).2
  have hsymm : Std.Symm (Function.onFun List.Disjoint q) := ⟨fun _ _ hxy => hxy.symm⟩
  exact hd.forall (List.mem_finRange m) (List.mem_finRange l) hm hpm hp

theorem length_row_le (m : Level) : (q m).length ≤ (entries q).length := by
  rw [entries, List.length_flatMap]
  exact List.single_le_sum (by simp) _ (List.mem_map_of_mem (List.mem_finRange m))

/-- Another row together with the row of `p` is no longer than all of them. -/
theorem length_row_lt (hp : p ∈ q l) {m : Level} (hm : m ≠ l) :
    (q m).length < (entries q).length := by
  have hpos : 0 < (q l).length := List.length_pos_of_mem hp
  have hlen : (entries q).length = (q 0).length + ((q 1).length + (q 2).length) := by
    change (q 0 ++ (q 1 ++ (q 2 ++ []))).length = _
    simp
  have hcase : ∀ x : Level, x = 0 ∨ x = 1 ∨ x = 2 := by decide
  rcases hcase m with rfl | rfl | rfl <;> rcases hcase l with rfl | rfl | rfl <;>
    first | exact absurd rfl hm | omega

/-- The record of the caller between the charge and the move. -/
theorem charged_runnable (p : Proc) : Proc.charged { p with state := .RUNNABLE } =
    { p with state := .RUNNABLE, time_allotment := p.charged.time_allotment } := by
  unfold Proc.charged
  split <;> rfl

/-- The level after the charge is the next one exactly when the allotment is used up. -/
theorem nextLev_eq {r : Proc} (h : r.lev = l.val) : ∃ l' : Level,
    Kernel.Proc.nextLev r = l'.val ∧
      l'.val = if r.time_allotment = 0 ∧ l.val < 2 then l.val + 1 else l.val := by
  have hl := l.isLt
  unfold DEPTH_QUEUE at hl
  unfold Kernel.Proc.nextLev
  by_cases hd : r.time_allotment = 0 ∧ l.val < 2
  · refine ⟨⟨l.val + 1, by unfold DEPTH_QUEUE; omega⟩, ?_, ?_⟩
    · rw [if_pos ⟨hd.1, by unfold DEPTH_QUEUE; omega⟩, h]
      rfl
    · rw [if_pos hd]
  · refine ⟨l, ?_, ?_⟩
    · rw [if_neg (fun hc => hd ⟨hc.1, by have := hc.2; unfold DEPTH_QUEUE at this; omega⟩), h]
    · rw [if_neg hd]

variable {k : Kernel} {i : Slot}

/-- The removal loop erases a process that its row holds at most once. -/
theorem dequeue_erase (hr : ∀ m, (k.ARRAYQUEUE m).Repr (q m)) (hn : (q l).Nodup) (brk : Bool) :
    ∃ a, k.dequeue brk i l.val = .ok (k.setQueue l a) ∧ a.Repr ((q l).erase (.slot i)) := by
  obtain ⟨a, ha, har⟩ := (hr l).remove_nodup brk (.slot i) hn
  exact ⟨a, dequeue_ok.mpr ⟨l, a, rfl, ha, rfl⟩, har⟩

/-- Removal from row `l` and append to row `l'` are the round-robin move. -/
theorem requeue_ok (hr : ∀ m, (k.ARRAYQUEUE m).Repr (q m)) (hn : (entries q).Nodup)
    (hlen : (entries q).length ≤ NPROC) (hi : Ptr.slot i ∈ q l) (l' : Level) :
    ∃ k₁ k₂ A, k.dequeue false i l.val = .ok k₁ ∧ k₁.enqueue i l'.val = .ok k₂ ∧
      k₂ = { k with ARRAYQUEUE := A } ∧ ∀ m, (A m).Repr (requeue q (.slot i) l' m) := by
  obtain ⟨a, ha, har⟩ := dequeue_erase (i := i) hr (nodup_row hn l) false
  have hrow : ∀ m, ((k.setQueue l a).ARRAYQUEUE m).Repr ((q m).erase (.slot i)) := by
    intro m
    by_cases hm : m = l
    · subst hm
      simpa using har
    · rw [List.erase_of_not_mem (not_mem_row hn hi hm)]
      simpa [hm] using hr m
  -- the row that is appended to has a free cell once the process is out
  have hfit : ((q l').erase (.slot i)).length < NPROC := by
    by_cases hl : l' = l
    · subst hl
      have hpos : 0 < (q l').length := List.length_pos_of_mem hi
      have hle : (q l').length ≤ (entries q).length := length_row_le l'
      rw [List.length_erase_of_mem hi]
      omega
    · have hlt : (q l').length < (entries q).length := length_row_lt hi hl
      have hle : ((q l').erase (.slot i)).length ≤ (q l').length := List.length_erase_le
      omega
  obtain ⟨b, hb, hbr⟩ := (hrow l').push (.slot i) hfit
  refine ⟨k.setQueue l a, (k.setQueue l a).setQueue l' b, _, ha,
    enqueue_ok.mpr ⟨l', b, rfl, hb, rfl⟩, rfl, ?_⟩
  intro m
  unfold requeue
  by_cases hm : m = l'
  · subst hm
    rw [if_pos rfl, Function.update_self]
    exact hbr
  · rw [if_neg hm, Function.update_of_ne hm]
    exact hrow m

theorem requeue_moved (hn : (entries q).Nodup) : MovedTo q (requeue q p l) p l where
  last := ⟨(q l).erase p, if_pos rfl, (nodup_row hn l).not_mem_erase⟩
  absent m hm := by
    rw [requeue, if_neg hm]
    exact (nodup_row hn m).not_mem_erase
  order m := by
    have herase : ((q m).erase p).filter (· ≠ p) = (q m).filter (· ≠ p) := by
      rw [(nodup_row hn m).erase_eq_filter, List.filter_filter]
      congr 1
      funext x
      by_cases hx : x = p <;> simp [hx]
    unfold requeue
    split
    · rw [List.filter_append, herase]
      simp
    · exact herase

/-- **Round robin**: on rows that hold no process twice, `yield` moves its
caller to the end of the row of its new level and changes nothing else; no
access leaves a row. -/
theorem yield_round_robin (k : Kernel) (i : Slot) (q : Level → List Ptr) (l : Level)
    (hr : ∀ m, (k.ARRAYQUEUE m).Repr (q m)) (hn : (entries q).Nodup)
    (hlen : (entries q).length ≤ NPROC) (hshare : (k.proc i).share = 0)
    (hlev : (k.proc i).lev = l.val) (hi : Ptr.slot i ∈ q l) :
    ∃ (l' : Level) (a : Int) (A : Level → SizedArray Ptr NPROC) (q' : Level → List Ptr),
      (l'.val = if (k.proc i).charged.time_allotment = 0 ∧ l.val < 2 then l.val + 1 else l.val) ∧
      k.yield i = .ok { k with
        proc := Function.update k.proc i
          { k.proc i with state := .RUNNABLE, lev := l'.val, time_allotment := a }
        ARRAYQUEUE := A
        cur := none } ∧
      (l' ≠ l → time_allotment l'.val = .ok a) ∧
      (l' = l → a = (k.proc i).charged.time_allotment) ∧
      (∀ m, (A m).Repr (q' m)) ∧ MovedTo q q' (.slot i) l' := by
  obtain ⟨hcs, hcl, -⟩ := charged_keep (k.proc i)
  obtain ⟨l', hl', hval⟩ := nextLev_eq (r := (k.proc i).charged) (hcl.trans hlev)
  obtain ⟨t, ht⟩ : ∃ t, t = (k.proc i).charged.time_allotment := ⟨_, rfl⟩
  rw [← ht] at hval ⊢
  -- `adjust` starts from the charged record
  obtain ⟨c, hc⟩ : ∃ c, c = k.set i fun p => { p with state := .RUNNABLE, time_allotment := t } :=
    ⟨_, rfl⟩
  have hcharge : (k.set i fun p => { p with state := .RUNNABLE }).charge i = c := by
    rw [hc, charge_eq, Kernel.set_set, ht]
    simp only [Kernel.set, charged_runnable]
  have hcp : c.proc i = { k.proc i with state := .RUNNABLE, time_allotment := t } := by
    rw [hc, Kernel.set_proc, Function.update_self]
  have hnext : Kernel.Proc.nextLev (c.proc i) = l'.val := by
    rw [← hl', hcp]
    simp only [Kernel.Proc.nextLev, hcl, ht]
  have hclev : (c.proc i).lev = l.val := by rw [hcp]; exact hlev
  have hcshare : (c.proc i).share = 0 := by rw [hcp]; exact hshare
  obtain ⟨k₁, k₂, A, h₁, h₂, rfl, hA⟩ := requeue_ok
    (k := c.set i fun p => { p with lev := l'.val }) (l := l) (by rw [hc]; exact hr) hn hlen hi l'
  have hadj : c.adjust i = if (l'.val : Int) ≠ l.val then do
        let a ← time_allotment l'.val
        return { c.set i fun p => { p with lev := l'.val } with ARRAYQUEUE := A }.set i
          fun p => { p with time_allotment := a }
      else return { c.set i fun p => { p with lev := l'.val } with ARRAYQUEUE := A } := by
    simp only [Kernel.adjust, if_pos hcshare, hnext, hclev, h₁, h₂, ok_bind]
  by_cases hll : l' = l
  · subst hll
    refine ⟨l', t, A, _, hval, ?_, fun h => absurd rfl h, fun _ => rfl, hA, requeue_moved hn⟩
    rw [if_neg (fun h => h rfl)] at hadj
    rw [Kernel.yield, hcharge, hadj, hc]
    simp [Kernel.set]
  · obtain ⟨a, ha⟩ := time_allotment_ok (show LevOk (l'.val : Int) from
      .inl ⟨by omega, by exact_mod_cast l'.isLt⟩)
    refine ⟨l', a, A, _, hval, ?_, fun _ => ha, fun h => absurd h hll, hA, requeue_moved hn⟩
    rw [if_pos (fun h => hll (level_inj.mp h)), ha] at hadj
    rw [Kernel.yield, hcharge, hadj, hc]
    simp [Kernel.set]

end

/-- Three processes on level 0 and one on level 1; the middle one of level 0 has
one tick of its allotment left. -/
def threeQueued : Kernel :=
  { Kernel.bss with
    proc := fun i => { (Kernel.bss.proc i) with state := .RUNNABLE, time_allotment := 1 }
    ARRAYQUEUE := fun l =>
      if l = 0 then ⟨fun j => .slot (if j = 0 then 3 else if j = 1 then 0 else 5), 2⟩
      else if l = 1 then ⟨fun _ => .slot 7, 0⟩
      else ⟨fun _ => .null, -1⟩ }

def threeQueued_rows : Level → List Ptr :=
  fun l => if l = 0 then [.slot 3, .slot 0, .slot 5] else if l = 1 then [.slot 7] else []

theorem threeQueued_repr (m : Level) : (threeQueued.ARRAYQUEUE m).Repr (threeQueued_rows m) := by
  have hlast : ∀ m, (threeQueued.ARRAYQUEUE m).last = (threeQueued_rows m).length - 1 := by decide
  have hfits : ∀ m, (threeQueued_rows m).length ≤ NPROC := by decide
  have hcell : ∀ m, ∀ j : Fin (threeQueued_rows m).length,
      (threeQueued.ARRAYQUEUE m).cell j = (threeQueued_rows m)[j] := by decide
  exact ⟨hlast m, hfits m, fun j hj => hcell m ⟨j, hj⟩⟩

theorem yield_round_robin_threeQueued : ∃ k A q',
    threeQueued.yield 0 = .ok k ∧ k.ARRAYQUEUE = A ∧ (k.proc 0).lev = 1 ∧
      (∀ m, (A m).Repr (q' m)) ∧ MovedTo threeQueued_rows q' (.slot 0) 1 := by
  obtain ⟨l', a, A, q', hval, hy, -, -, hA, hm⟩ := yield_round_robin threeQueued 0
    threeQueued_rows 0 threeQueued_repr (by decide) (by decide) rfl rfl (by decide)
  obtain rfl : l' = 1 := Fin.ext (hval.trans (by decide))
  exact ⟨_, A, q', hy, rfl, rfl, hA, hm⟩

end Xv6.Sched
