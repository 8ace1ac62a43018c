import MeshSharding.Pipeline.Pass
import MeshSharding.Proofs.Lookup

namespace MeshSharding

section Except

variable {ε α β γ : Type}

@[simp]
theorem toOption_ok (a : α) : (Except.ok a : Except ε α).toOption = some a :=
  rfl

@[simp]
theorem toOption_error (e : ε) : (Except.error e : Except ε α).toOption = none :=
  rfl

@[simp]
theorem toOption_eq_some_iff {x : Except ε α} {a : α} : x.toOption = some a ↔ x = .ok a := by
  cases x <;> simp

@[simp]
theorem toOption_bind {x : Except ε α} {f : α → Except ε β} :
    (x >>= f).toOption = x.toOption.bind fun a => (f a).toOption := by
  cases x <;> rfl

@[simp]
theorem map_bind_except {x : Except ε α} {f : α → β} {h : β → Except ε γ} :
    (x.map f >>= h) = x >>= fun a => h (f a) := by
  cases x <;> rfl

end Except

namespace Outcome

variable {α β : Type} {outcome : Outcome α} {next : Program → α → Outcome β} {p : Program} {a : α} {e : Diagnostic}

-- The program and the result of a step that has succeeded.
def reached? (outcome : Outcome α) : Option (Program × α) :=
  outcome.result.toOption.map (outcome.program, ·)

-- The program after a step that has succeeded.
def arrives? (outcome : Outcome α) : Option Program :=
  outcome.result.toOption.map fun _ => outcome.program

@[simp]
theorem reached?_ok : (⟨p, .ok a⟩ : Outcome α).reached? = some (p, a) :=
  rfl

@[simp]
theorem reached?_error : (⟨p, .error e⟩ : Outcome α).reached? = none :=
  rfl

@[simp]
theorem arrives?_ok : (⟨p, .ok a⟩ : Outcome α).arrives? = some p :=
  rfl

@[simp]
theorem arrives?_error : (⟨p, .error e⟩ : Outcome α).arrives? = none :=
  rfl

theorem arrives?_eq_map : outcome.arrives? = outcome.reached?.map (·.1) := by
  cases h : outcome.result <;> simp [arrives?, reached?, h]

theorem program_of_arrives? (h : outcome.arrives? = some p) : outcome.program = p := by
  cases hr : outcome.result <;> simp [arrives?, hr] at h
  exact h

theorem arrives?_andThen :
    (outcome.andThen next).arrives? = outcome.reached?.bind fun (p, a) => (next p a).arrives? := by
  cases h : outcome.result <;> simp [andThen, arrives?, reached?, h]

-- Whether anything has changed does not matter for where the steps lead.
theorem arrives?_forEach {step : Program → α → Outcome Bool} (changed : Bool) (items : List α) :
    (forEach step p changed items).arrives? = items.foldlM (fun q a => (step q a).arrives?) p := by
  induction items generalizing p changed with
  | nil             => rfl
  | cons a items ih =>
    rw [forEach, arrives?_andThen, List.foldlM_cons, arrives?_eq_map]
    cases (step p a).reached? with
    | none      => rfl
    | some pair => exact ih _

end Outcome

namespace Program

variable {p q : Program} {verify : Bool} {pass : Pass}

theorem arrives?_runPass : (Pipeline.runPass verify p pass).arrives? =
    (pass.run p).arrives?.filter fun q => !verify || q.verify = .ok () := by
  have hv (q : Program) (changed : Bool) :
      (⟨q, do
          if verify then q.verify
          return changed⟩ : Outcome Bool).arrives? = (some q).filter fun q => !verify || q.verify = .ok () := by
    cases verify <;> cases h : q.verify <;> simp [Outcome.arrives?, Option.filter, h, pure, Except.pure]
  simp only [Pipeline.runPass, Outcome.arrives?_andThen, hv]
  rw [Outcome.arrives?_eq_map]
  cases (pass.run p).reached? <;> rfl

theorem arrives?_spreadShardings (options : PipelineOptions) : (p.spreadShardings options).arrives? =
    (Pipeline.ofOptions options).passes.foldlM
      (fun q pass => (Pipeline.runPass options.verifyEachPass q pass).arrives?) p :=
  Outcome.arrives?_forEach _ _

end Program

end MeshSharding
