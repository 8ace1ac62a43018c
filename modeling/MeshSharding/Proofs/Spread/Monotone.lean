import MeshSharding.Proofs.Spread.Adoption

namespace MeshSharding

-- All values keep their shardings up to refinement. Nothing but the shardings of edge operations, of
-- named computations, and those kept with values may differ.
structure Program.Refines (p q : Program) : Prop where
  bare_eq  : q.bare = p.bare
  sharding : ∀ v s, p.sharding v = some s → ∃ t, q.sharding v = some t ∧ s.Refines t

namespace Program.Refines

variable {p q r : Program}

@[refl]
protected theorem refl (p : Program) : p.Refines p where
  bare_eq        := rfl
  sharding _ s h := ⟨s, h, .refl s⟩

protected theorem trans (h₁ : p.Refines q) (h₂ : q.Refines r) : p.Refines r where
  bare_eq        := h₂.bare_eq.trans h₁.bare_eq
  sharding v s h := by
    have ⟨t, ht, hst⟩ := h₁.sharding v s h
    have ⟨u, hu, htu⟩ := h₂.sharding v t ht
    exact ⟨u, hu, hst.trans htu⟩

end Program.Refines

namespace SpreadPlan

variable {plan : SpreadPlan} {p q : Program} {v w : ValueId} {vs : List ValueId} {link : Link}
  {proposal refined : Sharding}

-- A value that shares the sharding of the changed one has the same sharding before the write, so
-- that one sharding is refined for both.
theorem Changes.refines_program (h : plan.Changes p proposal v refined)
    (hq : p.setSharding v refined = .ok q) : p.Refines q where
  bare_eq         := Program.setSharding_bare hq
  sharding w s hs := by
    obtain hw | ⟨hw, he⟩ | ⟨hw, -⟩ := Program.setSharding_cases hq w
    · exact ⟨s, hw.trans hs, .refl s⟩
    · exact ⟨refined, hw, (h.refines s (he ▸ hs)).left⟩
    · simp [hw] at hs

theorem Changes.keeps_unset (h : plan.Changes p proposal v refined)
    (hq : p.setSharding v refined = .ok q) (ho : plan.options.openOnly) (hw : p.sharding w = none) :
    q.sharding w = none := by
  have hv : p.sharding v ≠ none := fun hn => by simp [(h.first hn).left] at ho
  obtain he | ⟨-, he⟩ | ⟨-, he, -⟩ := Program.setSharding_cases hq w
  · exact he.trans hw
  · exact absurd (he.symm.trans hw) hv
  · exact absurd he hv

theorem Adopts.refines_program (h : plan.Adopts proposal p vs q) : p.Refines q := by
  induction h with
  | nil p             => exact .refl p
  | cons hc hq _ ih => exact (hc.refines_program hq).trans ih

theorem Adopts.keeps_unset (h : plan.Adopts proposal p vs q) (ho : plan.options.openOnly)
    (hw : p.sharding w = none) : q.sharding w = none := by
  induction h with
  | nil               => exact hw
  | cons hc hq _ ih => exact ih (hc.keeps_unset hq ho hw)

theorem Evaluates.refines_program (h : plan.Evaluates p link vs q) : p.Refines q := by
  cases h with
  | nothing       => exact .refl p
  | adopt _ _ ha => exact ha.refines_program

theorem Evaluates.keeps_unset (h : plan.Evaluates p link vs q) (ho : plan.options.openOnly)
    (hw : p.sharding w = none) : q.sharding w = none := by
  cases h with
  | nothing       => exact hw
  | adopt _ _ ha => exact ha.keeps_unset ho hw

-- What holds between a program and the one after the evaluation of any link of the plan also holds
-- after a whole run, if it is reflexive and transitive.
theorem run_of_evaluates {R : Program → Program → Prop} (refl : ∀ p, R p p)
    (trans : ∀ {p q r}, R p q → R q r → R p r)
    (step : ∀ {p q vs} (i : Nat), plan.Evaluates p ((plan.links[i]?).getD default) vs q → R p q)
    (budget : Nat) (queue : List Nat) (changed : Bool) (p : Program) :
    R p (plan.run budget queue changed p).program := by
  induction budget generalizing queue changed p with
  | zero => cases queue <;> exact refl p
  | succ budget ih =>
    cases queue with
    | nil => exact refl p
    | cons index queue =>
      have ⟨vs, he, _⟩ := evaluate_evaluates plan p ((plan.links[index]?).getD default)
      simp only [run, Outcome.andThen]
      cases hr : (plan.evaluate p ((plan.links[index]?).getD default)).result with
      | error e => exact step index he
      | ok updated => exact trans (step index he) (ih _ _ _)

end SpreadPlan

namespace Program

variable (p : Program) (options : SpreadOptions)

-- The check of the groups at the end leaves the program as it is.
theorem spread_program {plan : SpreadPlan} (h : p.spreadPlan options = .ok plan) :
    (p.spread options).program =
      (plan.run options.maxIterations (List.range plan.links.length) false p).program := by
  simp only [spread, h, Outcome.andThen]
  cases (plan.run options.maxIterations (List.range plan.links.length) false p).result <;> rfl

theorem spreadPlan_eq_ok_iff {plan : SpreadPlan} : p.spreadPlan options = .ok plan ↔
    p.links = .ok plan.links ∧ plan.options = options ∧ plan.storage = p.storageOf ∧ plan.pinned = p.pinned := by
  obtain ⟨planOptions, links, storage, pinned⟩ := plan
  simp only [spreadPlan]
  cases p.links <;> simp [bind, Except.bind, pure, Except.pure, eq_comm]
  tauto

theorem spreadPlan_options {plan : SpreadPlan} (h : p.spreadPlan options = .ok plan) :
    plan.options = options :=
  ((p.spreadPlan_eq_ok_iff options).mp h).right.left

theorem spread_refines : p.Refines (p.spread options).program := by
  cases h : p.spreadPlan options with
  | error e =>
    have he : (p.spread options).program = p := by simp [spread, h]
    rw [he]
  | ok plan =>
    rw [spread_program p options h]
    exact SpreadPlan.run_of_evaluates Refines.refl Refines.trans (fun _ he => he.refines_program) _ _ _ p

theorem spread_keeps_unset (ho : options.openOnly) {v : ValueId} (hv : p.sharding v = none) :
    (p.spread options).program.sharding v = none := by
  cases h : p.spreadPlan options with
  | error e =>
    have he : (p.spread options).program = p := by simp [spread, h]
    rw [he, hv]
  | ok plan =>
    rw [spread_program p options h]
    rw [← spreadPlan_options p options h] at ho
    exact SpreadPlan.run_of_evaluates (R := fun p q => p.sharding v = none → q.sharding v = none)
      (fun _ hv => hv) (fun hpq hqr hv => hqr (hpq hv)) (fun _ he hv => he.keeps_unset ho hv) _ _ _ p hv

theorem spread_monotone :
    p.Refines (p.spread options).program ∧
      (options.openOnly →
        ∀ v, p.sharding v = none → (p.spread options).program.sharding v = none) :=
  ⟨p.spread_refines options, fun ho _ => p.spread_keeps_unset options ho⟩

end Program

end MeshSharding
