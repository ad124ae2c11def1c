import Mathlib.Tactic.TypeStar

/-!
# Guarded runs

A deterministic step function `step s a` that either yields the next state or
faults. `Reach step G s₀` is the set of states that runs from `s₀` reach when
every action meets the guard `G` in the state it starts from; with the guard
`Always` these are all runs. A faulting step has no successor, so it ends its
run; `Ensures` is the triple that speaks of faults and of results.
-/

namespace Lib

/-! ## Computations that may fault -/

section
universe u v
variable {ε : Type u} {α β : Type v}

theorem bind_ok {x : Except ε α} {f : α → Except ε β} {b : β} :
    (x >>= f) = .ok b ↔ ∃ a, x = .ok a ∧ f a = .ok b := by
  cases x with
  | error e => exact ⟨fun h => (by cases h), fun ⟨a, h, _⟩ => (by cases h)⟩
  | ok a => exact ⟨fun h => ⟨a, rfl, h⟩, fun ⟨_, h, hf⟩ => (by cases h; exact hf)⟩

theorem bind_error {x : Except ε α} {f : α → Except ε β} {e : ε} :
    (x >>= f) = .error e ↔ x = .error e ∨ ∃ a, x = .ok a ∧ f a = .error e := by
  cases x with
  | error e' =>
    exact ⟨fun h => .inl (by cases h; rfl), fun h => by
      rcases h with h | ⟨a, h, _⟩
      · cases h; rfl
      · cases h⟩
  | ok a =>
    exact ⟨fun h => .inr ⟨a, rfl, h⟩, fun h => by
      rcases h with h | ⟨_, h, hf⟩
      · cases h
      · cases h; exact hf⟩

@[simp] theorem ok_bind {a : α} {f : α → Except ε β} : (Except.ok a >>= f) = f a := rfl

@[simp] theorem pure_ok {a b : α} : (pure a : Except ε α) = .ok b ↔ a = b :=
  ⟨fun h => by cases h; rfl, fun h => by cases h; rfl⟩

/-- `x` does not fault in a `bad` way, and what it returns satisfies `Q`. -/
def Ensures (bad : ε → Prop) (x : Except ε α) (Q : α → Prop) : Prop :=
  match x with
  | .ok a => Q a
  | .error e => ¬ bad e

namespace Ensures

variable {bad : ε → Prop} {x : Except ε α} {P Q : α → Prop}

theorem of_ok (h : Ensures bad x Q) {a : α} (hx : x = .ok a) : Q a := by subst hx; exact h

theorem not_bad (h : Ensures bad x Q) {e : ε} (hx : x = .error e) : ¬ bad e := by subst hx; exact h

theorem intro (ho : ∀ a, x = .ok a → Q a) (he : ∀ e, x = .error e → ¬ bad e) :
    Ensures bad x Q := by
  cases x with
  | ok a => exact ho a rfl
  | error e => exact he e rfl

theorem mono (h : Ensures bad x P) (hPQ : ∀ a, x = .ok a → P a → Q a) : Ensures bad x Q :=
  .intro (fun a hx => hPQ a hx (h.of_ok hx)) fun _ hx => h.not_bad hx

theorem pure {a : α} (h : Q a) : Ensures bad (Pure.pure a) Q := h

/-- **Sequencing**: what the first computation ensures is what the second may assume. -/
theorem bind {f : α → Except ε β} {R : β → Prop} (h : Ensures bad x P)
    (hf : ∀ a, P a → Ensures bad (f a) R) : Ensures bad (x >>= f) R := by
  cases x with
  | ok a => exact hf a h
  | error e => exact h

end Ensures

/-- `x` faults with `e`, as a test. -/
def faultsWith [DecidableEq ε] (x : Except ε α) (e : ε) : Bool :=
  match x with
  | .ok _ => false
  | .error e' => e' = e

theorem faultsWith_iff [DecidableEq ε] {x : Except ε α} {e : ε} :
    faultsWith x e = true ↔ x = .error e := by
  cases x <;> simp [faultsWith]

end

/-! ## Runs -/

variable {σ α ε : Type*}

/-- The states reached from `s₀` by actions that meet `G` and do not fault. -/
inductive Reach (step : σ → α → Except ε σ) (G : σ → α → Prop) (s₀ : σ) : σ → Prop where
  | init : Reach step G s₀ s₀
  | step {s s' : σ} (a : α) : Reach step G s₀ s → G s a → step s a = .ok s' →
      Reach step G s₀ s'

/-- The guard that every action meets. -/
def Always : σ → α → Prop := fun _ _ => True

variable {step : σ → α → Except ε σ} {G : σ → α → Prop} {s₀ : σ}

/-- **Run rule**: what holds at the start and is kept by every guarded step
holds in every state reached. -/
theorem Reach.invariant {I : σ → Prop} (h0 : I s₀)
    (hstep : ∀ s a s', I s → G s a → step s a = .ok s' → I s') {s : σ}
    (h : Reach step G s₀ s) : I s := by
  induction h with
  | init => exact h0
  | step a _ hg hs ih => exact hstep _ a _ ih hg hs

theorem Reach.trans {s t : σ} (h : Reach step G s₀ s) (h' : Reach step G s t) :
    Reach step G s₀ t := by
  induction h' with
  | init => exact h
  | step a _ hg hs ih => exact .step a ih hg hs

theorem Reach.weaken {G' : σ → α → Prop} (hG : ∀ s a, G s a → G' s a) {s : σ}
    (h : Reach step G s₀ s) : Reach step G' s₀ s := by
  induction h with
  | init => exact .init
  | step a _ hg hs ih => exact .step a ih (hG _ _ hg) hs

/-- **Run rule for guarded steps**: an invariant that every guarded step ensures
holds in every state reached, and no guarded step faults there in a `bad` way. -/
theorem Reach.ensures {I : σ → Prop} {B : ε → Prop} (h0 : I s₀)
    (hstep : ∀ s a, I s → G s a → Ensures B (step s a) I) {s : σ} (h : Reach step G s₀ s) :
    I s ∧ ∀ a e, G s a → step s a = .error e → ¬ B e := by
  have hI : I s := h.invariant h0 fun s a s' hi hg hs => (hstep s a hi hg).of_ok hs
  exact ⟨hI, fun a e hg he => (hstep s a hI hg).not_bad he⟩

/-! ## Executing a run -/

section
variable (step) (G) [∀ s a, Decidable (G s a)]

/-- Run a list of actions from `s`, if each meets the guard and none faults. -/
def exec (s : σ) : List α → Option σ
  | [] => some s
  | a :: as =>
    if G s a then
      match step s a with
      | .ok s' => exec s' as
      | .error _ => none
    else none

end

theorem exec_cons [∀ s a, Decidable (G s a)] {s t : σ} {a : α} {as : List α} :
    exec step G s (a :: as) = some t ↔
      ∃ s', G s a ∧ step s a = .ok s' ∧ exec step G s' as = some t := by
  constructor
  · intro h
    simp only [exec] at h
    split at h
    · next hg =>
      split at h
      · next s' hs => exact ⟨s', hg, hs, h⟩
      · cases h
    · cases h
  · rintro ⟨s', hg, hs, h⟩
    rw [exec, if_pos hg, hs]
    exact h

theorem Reach.of_exec [∀ s a, Decidable (G s a)] {s t : σ} {as : List α}
    (h : exec step G s as = some t) (hr : Reach step G s₀ s) : Reach step G s₀ t := by
  induction as generalizing s with
  | nil => cases h; exact hr
  | cons a as ih =>
    obtain ⟨s', hg, hs, ht⟩ := exec_cons.mp h
    exact ih ht (hr.step a hg hs)

theorem exec_append [∀ s a, Decidable (G s a)] (s : σ) (as bs : List α) :
    exec step G s (as ++ bs) = (exec step G s as).bind fun t => exec step G t bs := by
  induction as generalizing s with
  | nil => rfl
  | cons a as ih =>
    simp only [List.cons_append, exec]
    split
    · split
      · exact ih _
      · rfl
    · rfl

/-- A run that executes, with what its last state computes to have. -/
theorem Reach.of_any (step : σ → α → Except ε σ) (G : σ → α → Prop) [∀ s a, Decidable (G s a)]
    (s₀ : σ) (p : σ → Prop) [DecidablePred p] (as : List α)
    (h : (exec step G s₀ as).any (p ·) = true) :
    ∃ s, exec step G s₀ as = some s ∧ Reach step G s₀ s ∧ p s := by
  obtain ⟨s, hs, hp⟩ := (Option.any_eq_true _ _).mp h
  exact ⟨s, hs, .of_exec hs .init, of_decide_eq_true hp⟩

instance (s : σ) (a : α) : Decidable (Always s a) := inferInstanceAs (Decidable True)

end Lib
