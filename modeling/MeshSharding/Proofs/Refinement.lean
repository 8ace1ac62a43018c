import MeshSharding.Proofs.Place

namespace MeshSharding

structure DimSharding.Refines (dim refined : DimSharding) : Prop where
  closed   : refined.closed = dim.closed
  priority : refined.priority = dim.priority
  axes     : dim.axes <+: refined.axes
  fixed    : dim.closed → refined.axes = dim.axes

-- More axes in open dimensions, and nothing else.
structure Sharding.Refines (sharding refined : Sharding) : Prop where
  mesh       : refined.mesh = sharding.mesh
  replicated : refined.replicated = sharding.replicated
  dims       : List.Forall₂ DimSharding.Refines sharding.dims refined.dims

namespace DimSharding.Refines

@[refl]
protected theorem refl (dim : DimSharding) : dim.Refines dim where
  closed   := rfl
  priority := rfl
  axes     := List.prefix_rfl
  fixed _  := rfl

protected theorem trans {d₁ d₂ d₃ : DimSharding} (h₁ : d₁.Refines d₂) (h₂ : d₂.Refines d₃) :
    d₁.Refines d₃ where
  closed   := h₂.closed.trans h₁.closed
  priority := h₂.priority.trans h₁.priority
  axes     := h₁.axes.trans h₂.axes
  fixed h  := (h₂.fixed (h₁.closed ▸ h)).trans (h₁.fixed h)

theorem forall₂_trans {l₁ l₂ l₃ : List DimSharding} :
    List.Forall₂ Refines l₁ l₂ → List.Forall₂ Refines l₂ l₃ → List.Forall₂ Refines l₁ l₃
  | .nil,        .nil        => .nil
  | .cons h₁ t₁, .cons h₂ t₂ => .cons (h₁.trans h₂) (forall₂_trans t₁ t₂)

theorem eq_of_axes_eq {dim refined : DimSharding} (h : dim.Refines refined)
    (ha : refined.axes = dim.axes) : refined = dim := by
  have ⟨hc, hp, _, _⟩ := h
  cases dim
  cases refined
  simp_all

end DimSharding.Refines

namespace Sharding.Refines

@[refl]
protected theorem refl (sharding : Sharding) : sharding.Refines sharding where
  mesh       := rfl
  replicated := rfl
  dims       := List.forall₂_same.mpr fun dim _ => .refl dim

protected theorem trans {s₁ s₂ s₃ : Sharding} (h₁ : s₁.Refines s₂) (h₂ : s₂.Refines s₃) :
    s₁.Refines s₃ where
  mesh       := h₂.mesh.trans h₁.mesh
  replicated := h₂.replicated.trans h₁.replicated
  dims       := DimSharding.Refines.forall₂_trans h₁.dims h₂.dims

theorem rank_eq {sharding refined : Sharding} (h : sharding.Refines refined) :
    refined.rank = sharding.rank :=
  h.dims.length_eq.symm

end Sharding.Refines

namespace SpreadPlan

variable (mesh : Mesh) (shape : List Nat)

theorem refines_set_dim {sharding : Sharding} {index : Nat} {dim refined : DimSharding}
    (hd : sharding.dims[index]? = some dim) (h : dim.Refines refined) :
    sharding.Refines (sharding.withDims (sharding.dims.set index refined)) where
  mesh       := rfl
  replicated := rfl
  dims       := by
    refine List.forall₂_iff_get.mpr ⟨by simp [Sharding.withDims], fun i h₁ h₂ => ?_⟩
    simp only [Sharding.withDims, List.get_eq_getElem, List.getElem_set]
    split
    case isTrue hi =>
      subst hi
      simp only [List.getElem?_eq_getElem h₁, Option.some.injEq] at hd
      exact hd ▸ h
    case isFalse => rfl

-- One step of `extendDims` at a dimension of the sharding.
theorem extendDims_step (sharding : Sharding) (index : Nat) (proposed : DimSharding)
    (rest : List DimSharding) :
    ∃ next : Sharding,
      extendDims mesh shape sharding index ((sharding.dims.drop index).zip (proposed :: rest)) =
        extendDims mesh shape next (index + 1) ((next.dims.drop (index + 1)).zip rest) ∧
      (next = sharding ∨
        (sharding.Refines next ∧ (next.checkIn mesh shape).isOk ∧
          ∃ dim : DimSharding,
            next = sharding.withDims (sharding.dims.set index (dim.withAxes proposed.axes)))) := by
  cases hd : sharding.dims.drop index with
  | nil =>
    have : sharding.dims.drop (index + 1) = [] := by
      rw [← List.drop_drop, hd, List.drop_nil]
    exact ⟨sharding, by simp [extendDims, this], .inl rfl⟩
  | cons dim dims =>
    have hi : sharding.dims[index]? = some dim := by
      rw [← List.head?_drop, hd, List.head?_cons]
    have hr : sharding.dims.drop (index + 1) = dims := by
      rw [← List.drop_drop, hd, List.drop_one, List.tail_cons]
    simp only [List.zip_cons_cons, extendDims]
    split
    case isFalse => exact ⟨sharding, by rw [hr], .inl rfl⟩
    case isTrue h =>
      simp only [Bool.and_eq_true, decide_eq_true_eq] at h
      have ⟨⟨⟨ho, _⟩, hp⟩, hc⟩ := h
      refine ⟨_, ?_, .inr ⟨refines_set_dim hi ?_, hc, dim, rfl⟩⟩
      · simp [Sharding.withDims, List.drop_set_of_lt, hr]
      · refine ⟨rfl, rfl, List.isPrefixOf_iff_prefix.mp hp, fun hcl => ?_⟩
        simp [DimSharding.isOpen, hcl] at ho

theorem extendDims_refines (sharding : Sharding) (index : Nat) (proposed : List DimSharding) :
    sharding.Refines
      (extendDims mesh shape sharding index ((sharding.dims.drop index).zip proposed)) := by
  induction proposed generalizing sharding index with
  | nil => simp [extendDims]; rfl
  | cons dim rest ih =>
    have ⟨next, he, h⟩ := extendDims_step mesh shape sharding index dim rest
    rw [he]
    obtain rfl | ⟨h, -, -⟩ := h
    · exact ih next (index + 1)
    · exact h.trans (ih next (index + 1))

-- What is not kept as it is has been checked.
theorem extendDims_checked (sharding : Sharding) (index : Nat) (proposed : List DimSharding) :
    let extended := extendDims mesh shape sharding index ((sharding.dims.drop index).zip proposed)
    extended = sharding ∨ (extended.checkIn mesh shape).isOk := by
  induction proposed generalizing sharding index with
  | nil => simp [extendDims]
  | cons dim rest ih =>
    have ⟨next, he, h⟩ := extendDims_step mesh shape sharding index dim rest
    simp only [he]
    obtain rfl | ⟨-, hc, -⟩ := h
    · exact ih next (index + 1)
    · obtain hn | hn := ih next (index + 1)
      · exact .inr (by rwa [hn])
      · exact .inr hn

-- The axes of each dimension are those it had, or those of a dimension of the proposal.
theorem extendDims_axes {P : List AxisRef → Prop} (sharding : Sharding) (index : Nat)
    (proposed : List DimSharding) (hs : ∀ dim ∈ sharding.dims, P dim.axes)
    (hp : ∀ dim ∈ proposed, P dim.axes) :
    ∀ dim ∈ (extendDims mesh shape sharding index ((sharding.dims.drop index).zip proposed)).dims,
      P dim.axes := by
  induction proposed generalizing sharding index with
  | nil => simpa [extendDims] using hs
  | cons dim rest ih =>
    have ⟨next, he, h⟩ := extendDims_step mesh shape sharding index dim rest
    rw [he]
    have hp' : ∀ dim ∈ rest, P dim.axes := fun d hd => hp d (List.mem_cons_of_mem _ hd)
    obtain rfl | ⟨-, -, d, rfl⟩ := h
    · exact ih next (index + 1) hs hp'
    · refine ih _ (index + 1) (fun e hem => ?_) hp'
      obtain hm | rfl := List.mem_or_eq_of_mem_set hem
      · exact hs e hm
      · exact hp dim List.mem_cons_self

end SpreadPlan

end MeshSharding
