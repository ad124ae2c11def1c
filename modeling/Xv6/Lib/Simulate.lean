import Xv6.Lib.Run

/-!
# Runs with outputs

A machine that answers each action and may fault, and a specification that answers every
action. If each answer of the machine is the specification's, then so are the answers of
every run that does not fault.
-/

namespace Lib

universe u
variable {σ τ α β : Type u} {ε : Type*}

/-- The answers of a run, and the state it ends in. -/
def outputs (step : σ → α → Except ε (β × σ)) : List α → σ → Except ε (List β × σ)
  | [], s => .ok ([], s)
  | a :: as, s => do
    let (b, s) ← step s a
    let (bs, s) ← outputs step as s
    return (b :: bs, s)

/-- The answers of the specification. -/
def answers (spec : τ → α → β × τ) : List α → τ → List β × τ
  | [], t => ([], t)
  | a :: as, t =>
    let (b, t) := spec t a
    let (bs, t) := answers spec as t
    (b :: bs, t)

/-- `R` relates the states of the machine to those of the specification, and every answer
to an action in `G` is the specification's. -/
structure Simulates (step : σ → α → Except ε (β × σ)) (spec : τ → α → β × τ) (G : α → Prop)
    (R : σ → τ → Prop) : Prop where
  step : ∀ {s t a b s'}, R s t → G a → step s a = .ok (b, s') → (spec t a).1 = b ∧ R s' (spec t a).2

variable {step : σ → α → Except ε (β × σ)} {spec : τ → α → β × τ} {G : α → Prop} {R : σ → τ → Prop}

theorem outputs_cons {a : α} {as : List α} {s s' : σ} {bs : List β} :
    outputs step (a :: as) s = .ok (bs, s') ↔ ∃ b s₁ bs', step s a = .ok (b, s₁) ∧
      outputs step as s₁ = .ok (bs', s') ∧ bs = b :: bs' := by
  constructor
  · intro h
    obtain ⟨⟨b, s₁⟩, h₁, h⟩ := bind_ok.mp h
    obtain ⟨⟨bs', s₂⟩, h₂, h⟩ := bind_ok.mp h
    cases h
    exact ⟨b, s₁, bs', h₁, h₂, rfl⟩
  · rintro ⟨b, s₁, bs', h₁, h₂, rfl⟩
    exact bind_ok.mpr ⟨(b, s₁), h₁, bind_ok.mpr ⟨(bs', s'), h₂, rfl⟩⟩

/-- **Refinement of runs**: the machine answers as the specification does. -/
theorem Simulates.run (h : Simulates step spec G R) {as : List α} (hG : ∀ a ∈ as, G a) {s s' : σ} {t : τ}
    {bs : List β} (hR : R s t) (hs : outputs step as s = .ok (bs, s')) :
    (answers spec as t).1 = bs ∧ R s' (answers spec as t).2 := by
  induction as generalizing s t bs with
  | nil =>
    cases hs
    exact ⟨rfl, hR⟩
  | cons a as ih =>
    obtain ⟨b, s₁, bs', h₁, h₂, rfl⟩ := outputs_cons.mp hs
    obtain ⟨hb, hR₁⟩ := h.step hR (hG a List.mem_cons_self) h₁
    obtain ⟨hbs, hR'⟩ := ih (fun a ha => hG a (List.mem_cons_of_mem _ ha)) hR₁ h₂
    refine ⟨?_, hR'⟩
    show (spec t a).1 :: (answers spec as (spec t a).2).1 = b :: bs'
    rw [hb, hbs]

/-- A run that faults does so in a step from a related state. -/
theorem Simulates.run_error (h : Simulates step spec G R) {P : ε → Prop}
    (hP : ∀ {s t a f}, R s t → G a → step s a = .error f → P f) {as : List α} (hG : ∀ a ∈ as, G a) {s : σ}
    {t : τ} {f : ε} (hR : R s t) (hs : outputs step as s = .error f) : P f := by
  induction as generalizing s t with
  | nil => cases hs
  | cons a as ih =>
    rcases bind_error.mp hs with hs | ⟨⟨b, s₁⟩, h₁, hs⟩
    · exact hP hR (hG a List.mem_cons_self) hs
    · obtain ⟨-, hR₁⟩ := h.step hR (hG a List.mem_cons_self) h₁
      rcases bind_error.mp hs with hs | ⟨_, _, hs⟩
      · exact ih (fun a ha => hG a (List.mem_cons_of_mem _ ha)) hR₁ hs
      · cases hs

end Lib
