import Xv6.Fs.Dir
import Xv6.Lib.Run

/-!
# Path splitting

`skipelem` takes a path apart into its segments, the nonempty parts between slashes,
and `namex` goes down one directory for each of them.
-/

namespace Xv6.Fs

open Lib

/-- The segments of a path. -/
def segments (path : List UInt8) : List (List UInt8) := (path.splitOn slash).filter (· ≠ [])

theorem segments_nil : segments [] = [] := by simp [segments]

theorem segments_slash (path : List UInt8) : segments (slash :: path) = segments path := by
  unfold segments
  rw [← List.nil_append (slash :: path), List.splitOn_append_cons_self_of_not_mem List.not_mem_nil]
  simp

theorem segments_dropWhile (path : List UInt8) :
    segments (path.dropWhile (· = slash)) = segments path := by
  induction path with
  | nil => rfl
  | cons c path ih =>
    rw [List.dropWhile_cons]
    split
    · next hc =>
      rw [of_decide_eq_true hc, segments_slash]
      exact ih
    · rfl

/-- A segment up to the end of the path, or to the next slash. -/
theorem segments_append {seg rest : List UInt8} (hne : seg ≠ []) (hs : slash ∉ seg)
    (hr : rest = [] ∨ ∃ rest', rest = slash :: rest') : segments (seg ++ rest) = seg :: segments rest := by
  rcases hr with rfl | ⟨rest', rfl⟩
  · rw [List.append_nil, segments_nil, segments, List.splitOn_eq_singleton hs]
    simp [hne]
  · rw [segments_slash]
    unfold segments
    rw [List.splitOn_append_cons_self_of_not_mem hs]
    simp [hne]

/-- `name` holds a segment: its first `DIRSIZ` bytes, ended if there is room. -/
structure Holds (name : Name) (seg : List UInt8) : Prop where
  bytes : ∀ j < DIRSIZ, ∀ h : j < seg.length, name j = seg[j]
  ended : seg.length < DIRSIZ → name seg.length = 0

/-- What is left of a path after its slashes starts with a segment. -/
theorem dropWhile_cons_ne {path rest : List UInt8} {c : UInt8}
    (h : path.dropWhile (· = slash) = c :: rest) : c ≠ slash := by
  induction path with
  | nil => cases h
  | cons d path ih =>
    rw [List.dropWhile_cons] at h
    split at h
    · exact ih h
    · next hd =>
      cases h
      exact of_decide_eq_false (by simpa using hd)

/-- A path that starts with a segment, as the segment and the rest. -/
theorem segments_cons {c : UInt8} {rest : List UInt8} (hc : c ≠ slash) :
    segments (c :: rest) = (c :: rest).takeWhile (· ≠ slash) ::
      segments ((c :: rest).dropWhile (· ≠ slash)) := by
  have hsplit := List.takeWhile_append_dropWhile (p := (· ≠ slash)) (l := c :: rest)
  have hne : (c :: rest).takeWhile (· ≠ slash) ≠ [] := by
    rw [List.takeWhile_cons, if_pos (by simpa using hc)]
    exact List.cons_ne_nil _ _
  have hs : slash ∉ (c :: rest).takeWhile (· ≠ slash) := by
    intro hm
    have := List.mem_takeWhile_imp hm
    simp at this
  have hr : (c :: rest).dropWhile (· ≠ slash) = [] ∨
      ∃ rest', (c :: rest).dropWhile (· ≠ slash) = slash :: rest' := by
    cases hd : (c :: rest).dropWhile (· ≠ slash) with
    | nil => exact .inl rfl
    | cons d rest' =>
      have := List.head_dropWhile_not (p := (· ≠ slash)) (l := c :: rest) (by rw [hd]; exact List.cons_ne_nil _ _)
      refine .inr ⟨rest', ?_⟩
      simp only [hd, List.head_cons] at this
      rw [show d = slash by simpa using this]
  have := segments_append hne hs hr
  rwa [hsplit] at this

theorem segments_eq_nil {path : List UInt8} :
    segments path = [] ↔ path.dropWhile (· = slash) = [] := by
  rw [← segments_dropWhile path]
  constructor
  · intro h
    cases hd : path.dropWhile (· = slash) with
    | nil => rfl
    | cons c rest =>
      rw [hd, segments_cons (dropWhile_cons_ne hd)] at h
      cases h
  · intro h
    rw [h, segments_nil]

/-- **`skipelem`** on a path without segments. -/
theorem skipelem_none {path : List UInt8} {name : Name} :
    skipelem path name = none ↔ segments path = [] := by
  rw [segments_eq_nil]
  simp only [skipelem]
  split
  · next h => exact iff_of_true rfl h
  · next h => exact iff_of_false (Option.some_ne_none _) h

/-- **`skipelem`** on a path with a segment: it is put into `name`, and the path goes on
behind it. -/
theorem skipelem_some {path path' : List UInt8} {name name' : Name}
    (h : skipelem path name = some (path', name')) :
    ∃ seg, segments path = seg :: segments path' ∧ Holds name' seg ∧ (∀ j, DIRSIZ ≤ j → name' j = name j) ∧
      path'.length < path.length ∧ (path' = [] ↔ segments path' = []) := by
  simp only [skipelem] at h
  split at h
  · cases h
  · next hne =>
    simp only [Option.some.injEq, Prod.mk.injEq] at h
    obtain ⟨hpath, hname⟩ := h
    cases hd : path.dropWhile (· = slash) with
    | nil => exact absurd hd hne
    | cons c rest =>
      rw [hd] at hpath hname
      generalize hseg : (c :: rest).takeWhile (· ≠ slash) = seg at hname
      refine ⟨seg, ?_, ?_, ?_, ?_, ?_⟩
      · rw [← segments_dropWhile path, hd, segments_cons (dropWhile_cons_ne hd), hseg, ← hpath,
          segments_dropWhile]
      · rw [← hname]
        split
        · next hge =>
          refine ⟨fun j hj hlt => ?_, fun hlt => by omega⟩
          rw [if_pos hj, List.getD_eq_getElem]
        · next hlt =>
          refine ⟨fun j hj hlt => ?_, fun _ => ?_⟩
          · rw [if_pos hlt, List.getD_eq_getElem]
          · rw [if_neg (Nat.lt_irrefl _), if_pos rfl]
      · intro j hj
        rw [← hname]
        split
        · exact if_neg (by omega)
        · exact (if_neg (by omega)).trans (if_neg (by omega))
      · have h₁ : (c :: rest).length ≤ path.length := by
          rw [← hd]
          exact List.length_dropWhile_le ..
        have h₂ : (c :: rest).dropWhile (· ≠ slash) = rest.dropWhile (· ≠ slash) := by
          rw [List.dropWhile_cons, if_pos (by simpa using dropWhile_cons_ne hd)]
        have h₃ := List.length_dropWhile_le (fun x => decide (x ≠ slash)) rest
        rw [h₂] at hpath
        rw [← hpath]
        have h₄ := List.length_dropWhile_le (fun x => decide (x = slash)) (rest.dropWhile (· ≠ slash))
        rw [List.length_cons] at h₁
        omega
      · rw [segments_eq_nil, ← hpath, List.dropWhile_idempotent]

/-- `skipelem("a/bb/c", name) = "bb/c"` -/
example : (skipelem [97, 47, 98, 98, 47, 99] fun _ => 0).map (·.1) = some [98, 98, 47, 99] := by decide

/-- The elements that `skipelem` yields one after another: what is left of the path, and
`name`. -/
def elements (path : List UInt8) (name : Name) : List (List UInt8 × Name) :=
  match h : skipelem path name with
  | none => []
  | some (path', name') => (path', name') :: elements path' name'
termination_by path.length
decreasing_by
  obtain ⟨-, -, -, -, hlt, -⟩ := skipelem_some h
  exact hlt

/-- One element of a path, against the segments. -/
structure Yields (segs : List (List UInt8)) (name : Name) (k : Nat) (seg : List UInt8)
    (e : List UInt8 × Name) : Prop where
  holds : Holds e.2 seg
  rest : segments e.1 = segs.drop (k + 1)
  empty : e.1 = [] ↔ k + 1 = segs.length
  beyond : ∀ j, DIRSIZ ≤ j → e.2 j = name j

theorem elements_cons {path path' : List UInt8} {name name' : Name}
    (h : skipelem path name = some (path', name')) :
    elements path name = (path', name') :: elements path' name' := by
  rw [elements]
  split
  · next h' => rw [h'] at h; cases h
  · next h' => rw [h'] at h; cases h; rfl

theorem elements_nil {path : List UInt8} {name : Name} (h : skipelem path name = none) :
    elements path name = [] := by
  rw [elements]
  split
  · rfl
  · next h' => rw [h'] at h; cases h

/-- **Path splitting**: the elements of a path are its segments, in order. -/
theorem path_split (path : List UInt8) (name : Name) :
    (elements path name).length = (segments path).length ∧
    ∀ k (h : k < (elements path name).length) (h' : k < (segments path).length),
      Yields (segments path) name k (segments path)[k] (elements path name)[k] := by
  induction hn : path.length using Nat.strongRecOn generalizing path name with
  | ind n ih =>
    cases hs : skipelem path name with
    | none =>
      rw [elements_nil hs, skipelem_none.mp hs]
      exact ⟨rfl, fun k h => absurd h (Nat.not_lt_zero k)⟩
    | some e =>
      obtain ⟨path', name'⟩ := e
      obtain ⟨seg, hseg, hold, hbeyond, hlt, hempty⟩ := skipelem_some hs
      obtain ⟨hlen, hall⟩ := ih path'.length (by omega) path' name' rfl
      simp only [elements_cons hs, hseg]
      refine ⟨by rw [List.length_cons, List.length_cons, hlen], ?_⟩
      rintro (_ | k) h h'
      · refine ⟨hold, rfl, ?_, hbeyond⟩
        rw [List.getElem_cons_zero, hempty, List.length_cons]
        constructor
        · intro h0
          rw [h0]
          rfl
        · intro h0
          exact List.eq_nil_of_length_eq_zero (by omega)
      · have hy := hall k (Nat.lt_of_succ_lt_succ h) (Nat.lt_of_succ_lt_succ h')
        simp only [List.getElem_cons_succ]
        refine ⟨hy.holds, hy.rest, ?_, fun j hj => (hy.beyond j hj).trans (hbeyond j hj)⟩
        rw [hy.empty, List.length_cons]
        omega

/-! ## `namex` -/

/-- What `strncmp` sees of a string is what is before its end. -/
theorem strncmp_congr {n : Nat} {p q : Name} (t : Name) (h : ∀ j < n, (∀ i < j, p i ≠ 0) → p j = q j) :
    strncmp n p t = strncmp n q t := by
  induction n generalizing p q t with
  | zero => rfl
  | succ n ih =>
    have h0 : p 0 = q 0 := h 0 (Nat.zero_lt_succ n) fun i hi => absurd hi (Nat.not_lt_zero i)
    rw [strncmp, strncmp, ← h0]
    split
    · next hc =>
      refine ih _ fun j hj hp => h (j + 1) (Nat.succ_lt_succ hj) fun i hi => ?_
      cases i with
      | zero => exact hc.1
      | succ i => exact hp i (Nat.lt_of_succ_lt_succ hi)
    · rfl

theorem Holds.namecmp {name : Name} {seg : List UInt8} (h : Holds name seg) (t : Name) :
    namecmp name t = namecmp (str seg) t := by
  refine strncmp_congr t fun j hj hne => ?_
  unfold str
  by_cases hlt : j < seg.length
  · rw [h.bytes j hj hlt, List.getD_eq_getElem]
  · rw [List.getD_eq_default _ _ (by omega)]
    by_cases he : j = seg.length
    · rw [he]
      exact h.ended (by omega)
    · exact absurd (h.ended (by omega)) (hne seg.length (by omega))

theorem Holds.dirlookup {name : Name} {seg : List UInt8} (h : Holds name seg) (s : State) (p dp : Nat) :
    s.dirlookup p dp name = s.dirlookup p dp (str seg) := by
  unfold State.dirlookup
  simp only [h.namecmp]

/-- Down one directory for each name, from `ip`; the last inode is not locked. -/
def walkDirs (p : Nat) : List (List UInt8) → Nat → State → Except Fault (Option Nat × State)
  | [], ip, s => .ok (some ip, s)
  | seg :: segs, ip, s => do
    let s ← s.ilock p ip
    if (s.icache ip).din.type ≠ T_DIR then
      let s ← s.iunlockput p ip
      return (none, s)
    else
      let (found, s) ← s.dirlookup p ip (str seg)
      match found with
      | none =>
        let s ← s.iunlockput p ip
        return (none, s)
      | some (next, _) =>
        let s ← s.iunlockput p ip
        walkDirs p segs next s

/-- A directory that a walk has found, and that is to be the parent. -/
def asParent (p : Nat) : Option Nat × State → Except Fault (Option Nat × State)
  | (none, s) => .ok (none, s)
  | (some ip, s) => do
    let s ← s.ilock p ip
    if (s.icache ip).din.type ≠ T_DIR then
      let s ← s.iunlockput p ip
      return (none, s)
    else
      let s ← s.iunlock p ip
      return (some ip, s)

/-- The result of `namex` without `name`. -/
def forget (r : Option Nat × Name × State) : Option Nat × State := (r.1, r.2.2)

/-- The directory of a path's last name, from `ip`. -/
def parentOf (p : Nat) (segs : List (List UInt8)) (ip : Nat) (s : State) :
    Except Fault (Option Nat × State) :=
  if segs = [] then do
    let s ← s.iput p ip
    return (none, s)
  else do
    let r ← walkDirs p segs.dropLast ip s
    asParent p r

theorem namexLoop_parent {p fuel ip : Nat} {path : List UInt8} {name : Name} {s : State}
    (hf : path.length < fuel) :
    (State.namexLoop p true fuel path name ip s).map forget = parentOf p (segments path) ip s := by
  induction fuel generalizing path name ip s with
  | zero => cases hf
  | succ fuel ih =>
    rw [State.namexLoop]
    split
    · next hs =>
      rw [skipelem_none.mp hs, parentOf, if_pos rfl]
      cases s.iput p ip <;> rfl
    · next path' name' hs =>
      obtain ⟨seg, hseg, hold, -, hlt, hempty⟩ := skipelem_some hs
      rw [hseg, parentOf, if_neg (List.cons_ne_nil _ _)]
      by_cases hlast : segments path' = []
      · -- the last name: the walk is over
        rw [hlast, List.dropLast_singleton, walkDirs, ok_bind, asParent]
        cases s.ilock p ip with
        | error e => rfl
        | ok s₁ =>
          simp only [ok_bind, hempty.mpr hlast, and_self, if_true]
          by_cases ht : (s₁.icache ip).din.type = T_DIR
          · rw [if_neg (not_not_intro ht), if_neg (not_not_intro ht)]
            cases s₁.iunlock p ip <;> rfl
          · rw [if_pos ht, if_pos ht]
            cases s₁.iunlockput p ip <;> rfl
      · have hne : path' ≠ [] := fun h => hlast (hempty.mp h)
        rw [List.dropLast_cons_of_ne_nil hlast, walkDirs]
        cases s.ilock p ip with
        | error e => rfl
        | ok s₁ =>
          simp only [ok_bind, hne, and_false, if_false, hold.dirlookup]
          by_cases ht : (s₁.icache ip).din.type = T_DIR
          · rw [if_neg (not_not_intro ht), if_neg (not_not_intro ht)]
            cases s₁.dirlookup p ip (str seg) with
            | error e => rfl
            | ok r =>
              obtain ⟨found, s₂⟩ := r
              cases found with
              | none =>
                simp only [ok_bind]
                cases s₂.iunlockput p ip <;> rfl
              | some e =>
                simp only [ok_bind]
                cases s₂.iunlockput p ip with
                | error e => rfl
                | ok s₃ =>
                  have hrec : (State.namexLoop p true fuel path' name' e.1 s₃).map forget =
                      parentOf p (segments path') e.1 s₃ := ih (by omega)
                  rw [parentOf, if_neg hlast] at hrec
                  exact hrec
          · rw [if_pos ht, if_pos ht]
            cases s₁.iunlockput p ip <;> rfl

/-- When the parent is found, `name` is the last segment. -/
theorem namexLoop_name {p fuel ip r : Nat} {path : List UInt8} {name name' : Name} {s s' : State}
    (hf : path.length < fuel)
    (h : State.namexLoop p true fuel path name ip s = .ok (some r, name', s')) :
    (∃ seg, (segments path).getLast? = some seg ∧ Holds name' seg) ∧
      ∀ j, DIRSIZ ≤ j → name' j = name j := by
  induction fuel generalizing path name ip s with
  | zero => cases hf
  | succ fuel ih =>
    rw [State.namexLoop] at h
    split at h
    · obtain ⟨s₁, -, h⟩ := bind_ok.mp h
      cases h
    · next path' name₁ hs =>
      obtain ⟨seg, hseg, hold, hbeyond, hlt, hempty⟩ := skipelem_some hs
      rw [hseg]
      obtain ⟨s₁, -, h⟩ := bind_ok.mp h
      split at h
      · obtain ⟨s₂, -, h⟩ := bind_ok.mp h
        cases h
      · split at h
        · next hlast =>
          obtain ⟨s₂, -, h⟩ := bind_ok.mp h
          cases h
          rw [hempty.mp hlast.2]
          exact ⟨⟨seg, rfl, hold⟩, hbeyond⟩
        · next hlast =>
          obtain ⟨⟨found, s₂⟩, -, h⟩ := bind_ok.mp h
          have hne : segments path' ≠ [] := fun h0 => hlast ⟨rfl, hempty.mpr h0⟩
          cases found with
          | none =>
            obtain ⟨s₃, -, h⟩ := bind_ok.mp h
            cases h
          | some e =>
            obtain ⟨s₃, -, h⟩ := bind_ok.mp h
            obtain ⟨⟨last, hl, hh⟩, hb⟩ := ih (by omega) h
            refine ⟨⟨last, ?_, hh⟩, fun j hj => (hb j hj).trans (hbeyond j hj)⟩
            rw [List.getLast?_cons, hl]
            rfl

/-- **Paths**: `skipelem` splits a path into its segments, and `namex` with `nameiparent`
goes down all of them but the last, which it leaves in `name`. -/
theorem path_resolution (path : List UInt8) (name : Name) :
    ((elements path name).length = (segments path).length ∧
      ∀ k (h : k < (elements path name).length) (h' : k < (segments path).length),
        Yields (segments path) name k (segments path)[k] (elements path name)[k]) ∧
    ∀ (s : State) (p cwd : Nat),
      (s.namex p cwd path true name).map forget =
        (do
          let (ip, s) ← s.startDir cwd path
          parentOf p (segments path) ip s) ∧
      ∀ r name' s', s.namex p cwd path true name = .ok (some r, name', s') →
        (∃ seg, (segments path).getLast? = some seg ∧ Holds name' seg) ∧
          ∀ j, DIRSIZ ≤ j → name' j = name j := by
  refine ⟨path_split path name, fun s p cwd => ⟨?_, fun r name' s' h => ?_⟩⟩
  · unfold State.namex
    cases s.startDir cwd path with
    | error e => rfl
    | ok e => exact namexLoop_parent (Nat.lt_succ_self _)
  · unfold State.namex at h
    obtain ⟨⟨ip, s₁⟩, -, h⟩ := bind_ok.mp h
    exact namexLoop_name (Nat.lt_succ_self _) h

end Xv6.Fs
