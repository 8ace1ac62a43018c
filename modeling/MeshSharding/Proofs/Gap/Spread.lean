import MeshSharding.Proofs.Gap.Edits
import MeshSharding.Proofs.Spread.Monotone

namespace MeshSharding

variable {p : Program} {g : Gap} {v : ValueId} {s proposal : Sharding}

-- A plan that says of the handles past a gap what another one says of the handles.
structure SpreadPlan.Past (plan' plan : SpreadPlan) (g : Gap) : Prop where
  options : plan'.options = plan.options
  links   : plan'.links = plan.links.map (·.past g)
  storage : ∀ v : ValueId, plan'.storage (v.past g) = (plan.storage v).past g
  pinned  : plan'.pinned = plan.pinned.map (·.past g)

namespace SpreadPlan.Past

variable {plan plan' : SpreadPlan} (h : Past plan' plan g)
include h

theorem best? (shardings : List Sharding) : plan'.best? (p.past g) shardings = plan.best? p shardings := by
  have hm (sharding : Sharding) : plan'.merit (p.past g) sharding = plan.merit p sharding := by
    simp [merit, h.options]
  have hb : best?.better plan' (p.past g) = best?.better plan p := by
    funext best sharding
    simp [best?.better, hm]
  cases shardings <;> simp [SpreadPlan.best?, hb]

theorem refine? : plan'.refine? (p.past g) (v.past g) proposal = plan.refine? p v proposal := by
  simp [SpreadPlan.refine?, h.options]

theorem change? : plan'.change? (p.past g) proposal (v.past g) = plan.change? p proposal v := by
  have hc : plan'.storage (v.past g) ∈ plan'.pinned ↔ plan.storage v ∈ plan.pinned := by
    simp [h.pinned, h.storage]
  simp [SpreadPlan.change?, hc, h.refine?]

theorem adopt (updated members : List ValueId) :
    (plan'.adopt proposal (p.past g) (updated.map (·.past g)) (members.map (·.past g))).reached? =
      (plan.adopt proposal p updated members).reached?.map fun (q, vs) => (q.past g, vs.map (·.past g)) := by
  induction members generalizing p updated with
  | nil => rfl
  | cons v members ih =>
    simp only [List.map_cons, SpreadPlan.adopt, h.change?]
    cases plan.change? p proposal v with
    | none         => exact ih _
    | some refined =>
      have hs := Program.past_setSharding (p := p) (g := g) (v := v) (s := refined)
      cases hp : p.setSharding v refined with
      | error e =>
        cases hq : (p.past g).setSharding (v.past g) refined with
        | error e => simp [hp, hq]
        | ok q    => simp [hp, hq] at hs
      | ok q =>
        have hu : updated.map (·.past g) ++ [v.past g] = (updated ++ [v]).map (·.past g) := by simp
        rw [hp, toOption_ok, Option.map_some, toOption_eq_some_iff] at hs
        simp only [hp, hs, hu]
        exact ih _

theorem evaluate {link : Link} : (plan'.evaluate (p.past g) (link.past g)).reached? =
    (plan.evaluate p link).reached?.map fun (q, vs) => (q.past g, vs.map (·.past g)) := by
  have hs : ((link.past g).members ++ (link.past g).inputs).filterMap (p.past g).sharding =
      (link.members ++ link.inputs).filterMap p.sharding := by
    simp only [Link.past_members, Link.past_inputs, ← List.map_append, List.filterMap_map, Function.comp_def,
      Program.past_sharding]
  simp only [SpreadPlan.evaluate, hs, Link.past_fixed, h.best?]
  cases plan.best? p ((link.members ++ link.inputs).filterMap p.sharding ++ link.fixed) with
  | none   => rfl
  | some s => exact h.adopt [] link.members

theorem concerns {storage : Storage} {link : Link} :
    plan'.concerns (storage.past g) (link.past g) = plan.concerns storage link := by
  simp [SpreadPlan.concerns, h.storage, Function.comp_def]

theorem enqueue {queue : List Nat} : plan'.enqueue queue (v.past g) = plan.enqueue queue v := by
  simp only [SpreadPlan.enqueue, h.links, h.storage, List.zipIdx_map, List.filter_map, List.map_map, Function.comp_def,
    Prod.map_fst, h.concerns]
  rfl

theorem run {budget : Nat} {queue : List Nat} {changed : Bool} :
    (plan'.run budget queue changed (p.past g)).arrives? =
      (plan.run budget queue changed p).arrives?.map (·.past g) := by
  induction budget generalizing queue changed p with
  | zero          => cases queue <;> rfl
  | succ budget ih =>
    cases queue with
    | nil              => rfl
    | cons index queue =>
      have hl : (plan'.links[index]?).getD default = ((plan.links[index]?).getD default).past g := by
        rw [h.links, List.getElem?_map]
        cases plan.links[index]? <;> rfl
      have hq (vs : List ValueId) : (vs.map (·.past g)).foldl plan'.enqueue queue = vs.foldl plan.enqueue queue := by
        have he (queue : List Nat) (v : ValueId) : plan'.enqueue queue (v.past g) = plan.enqueue queue v := h.enqueue
        rw [List.foldl_map]
        simp only [he]
      simp only [SpreadPlan.run, Outcome.arrives?_andThen, hl, h.evaluate]
      cases (plan.evaluate p ((plan.links[index]?).getD default)).reached? with
      | none      => rfl
      | some pair => simp [hq, ih]

end SpreadPlan.Past

namespace Program

theorem WellFormed.past_links (hp : p.WellFormed) :
    (p.past g).links.toOption = p.links.toOption.map (·.map (·.past g)) := by
  simp only [links, toOption_bind, hp.past_groups]
  cases p.groups.toOption with
  | none        => rfl
  | some groups =>
    simp [pure, Except.pure, List.flatMap_map, List.map_flatMap, Link.past, ShardingGroup.past, Function.comp_def]

theorem arrives?_agreeing {changed : Bool} :
    (⟨p, do p.checkAgreement (← p.groups); return changed⟩ : Outcome Bool).arrives? =
      (some p).filter (·.GroupsAgree) := by
  cases hg : p.groups with
  | error e   =>
    have hn : ¬ p.GroupsAgree := by simp [groupsAgree_iff, hg]
    simp [Outcome.arrives?, hn, Option.filter]
  | ok groups =>
    have hc : p.GroupsAgree ↔ p.checkAgreement groups = .ok () := by simp [groupsAgree_iff, hg]
    cases hk : p.checkAgreement groups <;> simp [Outcome.arrives?, hc, hk, pure, Except.pure, Option.filter]

theorem arrives?_spread {options : SpreadOptions} : (p.spread options).arrives? = p.links.toOption.bind fun links =>
    let plan : SpreadPlan := { options, links, storage := p.storageOf, pinned := p.pinned }
    (plan.run options.maxIterations (List.range links.length) false p).arrives?.filter (·.GroupsAgree) := by
  cases hl : p.links with
  | error e  => simp [spread, spreadPlan, hl, bind, Except.bind]
  | ok links =>
    have hp : p.spreadPlan options = .ok { options, links, storage := p.storageOf, pinned := p.pinned } := by
      simp [spreadPlan, hl, bind, Except.bind, pure, Except.pure]
    simp only [spread, hp, Outcome.arrives?_andThen, arrives?_agreeing, toOption_ok, Option.bind_some]
    rw [Outcome.arrives?_eq_map]
    cases (SpreadPlan.run _ _ _ _ p).reached? <;> rfl

theorem WellFormed.past_spread (hp : p.WellFormed) {options : SpreadOptions} :
    ((p.past g).spread options).arrives? = (p.spread options).arrives?.map (·.past g) := by
  rw [arrives?_spread, arrives?_spread, hp.past_links]
  cases p.links.toOption with
  | none       => rfl
  | some links =>
    let plan : SpreadPlan := { options, links, storage := p.storageOf, pinned := p.pinned }
    let plan' : SpreadPlan :=
      { options, links := links.map (·.past g), storage := (p.past g).storageOf, pinned := (p.past g).pinned }
    have hplan : plan'.Past plan g := ⟨rfl, rfl, fun _ => past_storageOf, past_pinned⟩
    have hbare : (plan.run options.maxIterations (List.range links.length) false p).program.bare = p.bare :=
      SpreadPlan.run_of_evaluates (R := fun p q => q.bare = p.bare) (fun _ => rfl) (fun h h' => h'.trans h)
        (fun _ h => h.bare_eq) _ _ _ p
    have hrun : (plan'.run options.maxIterations (List.range links.length) false (p.past g)).arrives? =
        (plan.run options.maxIterations (List.range links.length) false p).arrives?.map (·.past g) := hplan.run
    simp only [Option.map_some, Option.bind_some, List.length_map]
    rw [hrun]
    cases hq : (plan.run options.maxIterations (List.range links.length) false p).arrives? with
    | none   => simp
    | some q =>
      have hw : q.WellFormed := hp.of_bare_eq (Outcome.program_of_arrives? hq ▸ hbare)
      by_cases ha : q.GroupsAgree <;> simp [Option.filter, hw.past_groupsAgree, ha]

end Program

end MeshSharding
