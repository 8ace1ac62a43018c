import MeshSharding.Proofs.Refinement

namespace MeshSharding.SpreadPlan

-- What can be said of the new sharding of a value that adopts a proposal.
structure Changes (plan : SpreadPlan) (p : Program) (proposal : Sharding) (v : ValueId)
    (refined : Sharding) : Prop where
  settable : p.isSettable v
  free     : plan.storage v ∉ plan.pinned
  ne       : p.sharding v ≠ some refined
  fits     : refined.check p.meshes (p.typeOf v).shape = .ok ()
  first    : p.sharding v = none → plan.options.openOnly = false ∧ refined = proposal
  refines  : ∀ current, p.sharding v = some current → current.Refines refined ∧
    ∀ dim ∈ refined.dims, dim.axes ∈ current.dimAxes ++ proposal.dimAxes

-- The values adopt the proposal in turn.
inductive Adopts (plan : SpreadPlan) (proposal : Sharding) :
    Program → List ValueId → Program → Prop
  | nil (p : Program) : Adopts plan proposal p [] p
  | cons {p q r : Program} {v : ValueId} {vs : List ValueId} {refined : Sharding} :
      plan.Changes p proposal v refined → p.setSharding v refined = .ok q →
      Adopts plan proposal q vs r → Adopts plan proposal p (v :: vs) r

def candidates (p : Program) (link : Link) : List Sharding :=
  (link.members ++ link.inputs).filterMap p.sharding ++ link.fixed

-- Some members of the link adopt one of the candidates.
inductive Evaluates (plan : SpreadPlan) (p : Program) (link : Link) :
    List ValueId → Program → Prop
  | nothing : Evaluates plan p link [] p
  | adopt {proposal : Sharding} {vs : List ValueId} {q : Program} :
      proposal ∈ candidates p link → vs ⊆ link.members → plan.Adopts proposal p vs q →
      Evaluates plan p link vs q

variable {plan : SpreadPlan} {p q r : Program} {v : ValueId} {vs ws : List ValueId} {link : Link}
  {proposal refined sharding : Sharding}

theorem best?_mem {shardings : List Sharding} (h : plan.best? p shardings = some sharding) :
    sharding ∈ shardings := by
  cases shardings with
  | nil => simp [best?] at h
  | cons first rest =>
    simp only [best?, Option.some.injEq] at h
    subst h
    induction rest generalizing first with
    | nil => simp
    | cons next rest ih =>
      have hm := ih (best?.better plan p first next)
      simp only [List.foldl_cons, List.mem_cons] at hm ⊢
      obtain h | h := hm
      · rw [h, best?.better]
        split <;> simp
      · exact .inr (.inr h)

theorem check_eq_ok_of_checkIn {mesh : Mesh} {shape : List Nat}
    (hm : (p.meshes.resolve sharding.mesh).toOption = some mesh)
    (h : (sharding.checkIn mesh shape).isOk) : sharding.check p.meshes shape = .ok () := by
  cases hr : p.meshes.resolve sharding.mesh with
  | error e => simp [hr, Except.toOption] at hm
  | ok m =>
    simp only [hr, Except.toOption, Option.some.injEq] at hm
    subst hm
    cases hc : sharding.checkIn m shape with
    | error e => simp [hc, Except.isOk, Except.toBool] at h
    | ok _    => simp [Sharding.check, hr, hc, bind, Except.bind]

theorem change?_changes (h : plan.change? p proposal v = some refined) :
    plan.Changes p proposal v refined := by
  simp only [change?] at h
  split at h
  case isTrue => contradiction
  case isFalse hs =>
    simp only [Bool.or_eq_true, List.contains_iff_mem, Bool.not_eq_true', not_or,
      Bool.not_eq_false] at hs
    simp only [Option.filter_eq_some_iff, decide_eq_true_eq] at h
    have ⟨h, hne⟩ := h
    simp only [refine?, Option.bind_eq_bind, Option.bind_eq_some_iff] at h
    have ⟨mesh, hm, h⟩ := h
    split at h
    case _ hv =>
      simp only [Option.bind_eq_some_iff, Option.guard_eq_some', Bool.and_eq_true,
        Bool.not_eq_true', Option.pure_def, Option.some.injEq] at h
      obtain ⟨-, ⟨ho, hc⟩, rfl⟩ := h
      exact {
        settable := hs.right
        free := hs.left
        ne := hne
        fits := check_eq_ok_of_checkIn hm hc
        first _ := ⟨ho, rfl⟩
        refines _ hc := by simp [hv] at hc }
    case _ current hv =>
      simp only [Option.bind_eq_some_iff, Option.guard_eq_some', Option.pure_def,
        Option.some.injEq] at h
      obtain ⟨-, ⟨hmesh, -⟩, rfl⟩ := h
      have hr := extendDims_refines mesh (p.typeOf v).shape current 0 proposal.dims
      have hc := extendDims_checked mesh (p.typeOf v).shape current 0 proposal.dims
      have ha := extendDims_axes mesh (p.typeOf v).shape (P := (· ∈ current.dimAxes ++ proposal.dimAxes))
        current 0 proposal.dims
        (fun dim hd => List.mem_append_left _ (List.mem_map_of_mem hd))
        (fun dim hd => List.mem_append_right _ (List.mem_map_of_mem hd))
      simp only [List.drop_zero] at hr hc ha
      have hok := hc.resolve_left fun h => hne (by rw [h, hv])
      exact {
        settable := hs.right
        free := hs.left
        ne := hne
        fits := check_eq_ok_of_checkIn (by rw [hr.mesh, hmesh, hm]) hok
        first hn := by simp [hv] at hn
        refines c hc := by
          cases hv.symm.trans hc
          exact ⟨hr, ha⟩ }

variable (plan p link proposal)

-- The program after the members have been gone through, whether with or without success.
theorem adopt_adopts (updated members : List ValueId) :
    ∃ vs, vs ⊆ members ∧
      plan.Adopts proposal p vs (plan.adopt proposal p updated members).program ∧
      ∀ result, (plan.adopt proposal p updated members).result = .ok result →
        result = updated ++ vs := by
  induction members generalizing p updated with
  | nil => exact ⟨[], by simp, .nil p, by simp [adopt]⟩
  | cons v rest ih =>
    cases hc : plan.change? p proposal v with
    | none =>
      have ⟨vs, hs, ha, hr⟩ := ih p updated
      exact ⟨vs, List.subset_cons_of_subset v hs, by simpa [adopt, hc] using ha,
        by simpa [adopt, hc] using hr⟩
    | some refined =>
      cases hq : p.setSharding v refined with
      | error e => exact ⟨[], by simp, by simpa [adopt, hc, hq] using .nil p, by simp [adopt, hc, hq]⟩
      | ok q    =>
        have ⟨vs, hs, ha, hr⟩ := ih q (updated ++ [v])
        refine ⟨v :: vs, ?_, ?_, ?_⟩
        · exact List.cons_subset_cons v hs
        · simpa [adopt, hc, hq] using .cons (change?_changes hc) hq ha
        · simpa [adopt, hc, hq] using hr

theorem evaluate_evaluates :
    ∃ vs, plan.Evaluates p link vs (plan.evaluate p link).program ∧
      ∀ updated, (plan.evaluate p link).result = .ok updated → updated = vs := by
  cases hb : plan.best? p (candidates p link) with
  | none =>
    have he : plan.evaluate p link = ⟨p, .ok []⟩ := by
      simp only [candidates] at hb
      simp only [evaluate, hb]
    exact ⟨[], by simpa [he] using .nothing, by simp [he]⟩
  | some proposal =>
    have he : plan.evaluate p link = plan.adopt proposal p [] link.members := by
      simp only [candidates] at hb
      simp only [evaluate, hb]
    have ⟨vs, hs, ha, hr⟩ := adopt_adopts plan p proposal [] link.members
    rw [he]
    exact ⟨vs, .adopt (best?_mem hb) hs ha, by simpa using hr⟩

variable {plan p link proposal}

theorem Adopts.bare_eq (h : plan.Adopts proposal p vs q) : q.bare = p.bare := by
  induction h with
  | nil             => rfl
  | cons _ hq _ ih => exact ih.trans (Program.setSharding_bare hq)

theorem Evaluates.bare_eq (h : plan.Evaluates p link vs q) : q.bare = p.bare := by
  cases h with
  | nothing       => rfl
  | adopt _ _ ha => exact ha.bare_eq

end MeshSharding.SpreadPlan
