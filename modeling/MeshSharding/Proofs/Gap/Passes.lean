import MeshSharding.Pipeline.Pass
import MeshSharding.Proofs.Gap.Spread
import MeshSharding.Proofs.Simplify.Rounds

namespace MeshSharding

def Simplification.past (simplification : Simplification) (g : Gap) : Simplification :=
  match simplification with
  | bypass     => bypass
  | erase      => erase
  | readFrom v => readFrom (v.past g)

namespace Program

variable {p q : Program} {g : Gap} {o : OpId} {b : BlockId} {owner : ValueId} {position : Nat}

section Move

theorem past_moveConstraint :
    ((p.past g).moveConstraint (o.past g)).arrives? = (p.moveConstraint o).arrives?.map (·.past g) := by
  cases hk : (p.op o).kind with
  | constraint s =>
    have hs := past_setSharding (p := p) (g := g) (v := p.input o) (s := s)
    simp only [moveConstraint, past_op, Operation.past_kind, hk, past_input, past_output, past_hasUses, past_isSettable]
    split
    case isTrue  => rfl
    case isFalse =>
      cases hp : p.setSharding (p.input o) s with
      | error e =>
        cases hq : (p.past g).setSharding ((p.input o).past g) s with
        | error e => simp
        | ok q    => simp [hp, hq] at hs
      | ok q =>
        rw [hp, toOption_ok, Option.map_some, toOption_eq_some_iff] at hs
        simp [hs]
  | _ => simp [moveConstraint, hk]

end Move

section Prepare

variable {view : FlowView} {targets owners : List ValueId} {changed : Bool}

@[simp]
theorem past_positionAfter : (p.past g).positionAfter (o.past g) = p.positionAfter o := by
  simp only [positionAfter, past_op, Operation.past_block, past_block, Block.past_operations, List.findIdx?_map,
    Function.comp_def, OpId.past_inj, List.length_map]

theorem Spans.attachEdge (h : p.Spans g) :
    ((p.past g).attachEdge b position (owner.past g) (targets.map (·.past g))).toOption =
      (p.attachEdge b position owner targets).toOption.map (·.past g) := by
  have hs : (owner.past g :: targets.map (·.past g)).findSome? (p.past g).storedSharding =
      (owner :: targets).findSome? p.storedSharding := by
    simp [List.findSome?_cons, List.findSome?_map, Function.comp_def]
  have hi := h.insert b position (.edge owner ((owner :: targets).findSome? p.storedSharding))
  simp only [NewOp.past] at hi
  simp only [Program.attachEdge, toOption_bind, hs, hi]
  cases (p.insert b position (.edge owner ((owner :: targets).findSome? p.storedSharding))).toOption with
  | none      => rfl
  | some pair =>
    have hr : (pair.1.past g).replaceUsesExcept (owner.past g) ((pair.1.output pair.2).past g) (some (pair.2.past g)) =
        (pair.1.replaceUsesExcept owner (pair.1.output pair.2) (some pair.2)).past g :=
      @past_replaceUsesExcept _ _ _ _ (some pair.2)
    have hf (q : Program) : (owner.past g :: targets.map (·.past g)).foldl (fun p v => p.storeSharding v none) (q.past g) =
        ((owner :: targets).foldl (fun p v => p.storeSharding v none) q).past g :=
      past_foldl (f := (·.past g)) (fun _ _ => past_storeSharding) (owner :: targets)
    simp only [Option.map_some, Option.bind_some, past_output] at hr ⊢
    rw [hr, hf]
    rfl

-- The lists only grow.
theorem Spans.of_attachEdge (h : p.Spans g) (hq : p.attachEdge b position owner targets = .ok q) : q.Spans g := by
  have ⟨r, edge, s, hi, hb⟩ := attachEdge_eq_ok hq
  have ⟨_, hr, _, _⟩ := insert_eq_ok_iff.mp hi
  have ho : q.operations.length = r.operations.length :=
    (read_of_bare_eq (·.operations.length) (by simp) hb).trans length_operations_replaceUsesExcept
  have hv : q.values.length = r.values.length :=
    (read_of_bare_eq (·.values.length) (by simp) hb).trans length_values_replaceUsesExcept
  constructor
  case op    => rw [ho, hr, length_operations_place]; exact h.op.trans (Nat.le_add_right ..)
  case value => rw [hv, hr, length_values_place]; exact h.value.trans (Nat.le_add_right ..)

theorem Spans.attachEdges (h : p.Spans g) :
    (attachEdges (view.past g) b (p.past g) position changed (owners.map (·.past g))).arrives? =
      (Program.attachEdges view b p position changed owners).arrives?.map (·.past g) := by
  induction owners generalizing p position changed with
  | nil => rfl
  | cons owner owners ih =>
    simp only [List.map_cons, Program.attachEdges, past_edgeOfOwner?, Option.isSome_map, past_targets]
    split
    case isTrue  => exact ih h
    case isFalse =>
      have ha : ((p.past g).attachEdge b position (owner.past g) ((view.targets p owner).map (·.past g))).toOption =
          (p.attachEdge b position owner (view.targets p owner)).toOption.map (·.past g) := h.attachEdge
      cases hp : p.attachEdge b position owner (view.targets p owner) with
      | error e =>
        cases hq : (p.past g).attachEdge b position (owner.past g) ((view.targets p owner).map (·.past g)) with
        | error e => simp
        | ok q    => simp [hp, hq] at ha
      | ok q =>
        rw [hp, toOption_ok, Option.map_some, toOption_eq_some_iff] at ha
        simp only [ha]
        exact ih (h.of_attachEdge hp)

theorem Spans.attachEdgesOf (h : p.Spans g) :
    ((p.past g).attachEdgesOf (o.past g)).arrives? = (p.attachEdgesOf o).arrives?.map (·.past g) := by
  cases hv : p.flowView? o with
  | none      => simp [Program.attachEdgesOf, hv]
  | some view =>
    cases view with
    | named u                => simp [Program.attachEdgesOf, hv, FlowView.past]
    | structural u transform =>
      have ha : (Program.attachEdges ((FlowView.structural u transform).past g) (p.op o).block (p.past g) (p.positionAfter o) false
          (((FlowView.structural u transform).owners p).map (·.past g))).arrives? =
            (Program.attachEdges (.structural u transform) (p.op o).block p (p.positionAfter o) false
              ((FlowView.structural u transform).owners p)).arrives?.map (·.past g) := h.attachEdges
      rw [← past_owners] at ha
      simpa [Program.attachEdgesOf, hv, FlowView.past] using ha

theorem Spans.of_attachEdges (h : p.Spans g) :
    (Program.attachEdges view b p position changed owners).program.Spans g := by
  induction owners generalizing p position changed with
  | nil => exact h
  | cons owner owners ih =>
    simp only [Program.attachEdges]
    split
    case isTrue  => exact ih h
    case isFalse =>
      cases hq : p.attachEdge b position owner (view.targets p owner) with
      | error e => exact h
      | ok q    => exact ih (h.of_attachEdge hq)

theorem Spans.of_attachEdgesOf (h : p.Spans g) : (p.attachEdgesOf o).program.Spans g := by
  rw [Program.attachEdgesOf]
  split
  case h_1 => exact h.of_attachEdges
  case h_2 => exact h

theorem Spans.attachAll (h : p.Spans g) (os : List OpId) :
    (os.map (·.past g)).foldlM (fun (q : Program) o => (q.attachEdgesOf o).arrives?) (p.past g) =
      (os.foldlM (fun (q : Program) o => (q.attachEdgesOf o).arrives?) p).map (·.past g) := by
  induction os generalizing p with
  | nil          => rfl
  | cons o os ih =>
    rw [List.map_cons, List.foldlM_cons, List.foldlM_cons, h.attachEdgesOf]
    cases hq : (p.attachEdgesOf o).arrives? with
    | none   => rfl
    | some q => exact ih (Outcome.program_of_arrives? hq ▸ h.of_attachEdgesOf)

end Prepare

section Finish

@[simp]
theorem past_bypass : (p.past g).bypass (o.past g) = (p.bypass o).past g := by
  simp [bypass]

@[simp]
theorem past_sinkEdge : (p.past g).sinkEdge (o.past g) = (p.sinkEdge o).past g := by
  have hb : ((p.definer? (p.input o)).map (·.past g)).bind (p.past g).flowView? =
      ((p.definer? (p.input o)).bind p.flowView?).map (·.past g) := by
    cases p.definer? (p.input o) <;> simp
  have hf (view : FlowView) (s : Sharding) (vs : List ValueId) :
      (vs.map (·.past g)).foldl
        (fun q v => q.storeSharding v (some ((view.past g).targetSharding (p.past g) v s))) (p.past g) =
          (vs.foldl (fun q v => q.storeSharding v (some (view.targetSharding p v s))) p).past g :=
    past_foldl (fun _ _ => by rw [past_targetSharding, past_storeSharding]) vs
  simp only [sinkEdge, past_op, Operation.past_kind, past_input, past_definer?, hb]
  cases (p.definer? (p.input o)).bind p.flowView? with
  | none      => cases (p.op o).kind <;> simp
  | some view =>
    cases (p.op o).kind with
    | edge s =>
      cases s with
      | none   => simp
      | some s =>
        have hf := hf view s (p.input o :: view.targets p (p.input o))
        rw [List.map_cons] at hf
        simp only [Option.map_some, past_targets, hf, past_output, past_replaceUses, past_erase]
    | _ => simp

@[simp]
theorem past_finishOp : (p.past g).finishOp (o.past g) = (p.finishOp o).map (·.past g) := by
  cases h : (p.op o).kind with
  | constraint s =>
    simp only [finishOp, past_op, Operation.past_kind, h, past_input, past_output, past_hasUses, past_sharding, past_bypass,
      past_setKind]
    split <;> rfl
  | barrier allowed =>
    cases hs : p.sharding (p.output o) with
    | none   => simp [finishOp, h, hs]
    | some s =>
      simp only [finishOp, past_op, Operation.past_kind, h, past_input, past_output, past_sharding, past_bypass,
        past_setKind, hs]
      split <;> rfl
  | _ => simp [finishOp, h]

theorem past_applyWhere {step : Program → OpId → Option Program}
    (h : ∀ q o, step (q.past g) (o.past g) = (step q o).map (·.past g)) (changed : Bool) (os : List OpId) :
    applyWhere step (p.past g) changed (os.map (·.past g)) =
      ((applyWhere step p changed os).1.past g, (applyWhere step p changed os).2) := by
  induction os generalizing p changed with
  | nil          => rfl
  | cons o os ih =>
    cases hq : step p o <;> simp [applyWhere, h, hq, ih]

@[simp]
theorem past_sinkOp : (p.past g).sinkOp (o.past g) = (p.sinkOp o).map (·.past g) := by
  simp [sinkOp, apply_ite]

theorem past_finish : (p.past g).finish.1 = p.finish.1.past g := by
  simp only [finish, past_walk, past_applyWhere fun _ _ => past_sinkOp, past_applyWhere fun _ _ => past_finishOp]

end Finish

section Simplify

@[simp]
theorem past_usersAllowMissing {v : ValueId} :
    (p.past g).usersAllowMissing (v.past g) = p.usersAllowMissing v := by
  simp [usersAllowMissing, Function.comp_def]

@[simp]
theorem past_simplifyCollective? {c : Collective} :
    (p.past g).simplifyCollective? (o.past g) c = (p.simplifyCollective? o c).map (·.past g) := by
  simp only [simplifyCollective?, past_input, past_output, past_sharding, past_usersAllowMissing, past_typeOf]
  cases p.sharding (p.input o) with
  | some s => cases h : c.isIdentityOn s <;> simp [h, Simplification.past]
  | none   =>
    cases c.allowsMissingOperand && p.usersAllowMissing (p.output o) with
    | false => rfl
    | true  =>
      cases h : c.isIdentityOn (Sharding.fullyReplicated c.out.mesh (p.typeOf (p.input o)).rank) <;>
        simp [h, Simplification.past]

@[simp]
theorem past_simplifyReshard? {s : Sharding} :
    (p.past g).simplifyReshard? (o.past g) s = (p.simplifyReshard? o s).map (·.past g) := by
  simp only [simplifyReshard?, past_input, past_output, past_sharding, past_hasUses, past_definer?]
  cases Sharding.satisfies (p.sharding (p.input o)) s with
  | true  => rfl
  | false =>
    cases p.hasUses (p.output o) with
    | false => rfl
    | true  =>
      cases p.definer? (p.input o) with
      | none       => rfl
      | some inner => cases h : (p.op inner).kind <;> simp [h, Simplification.past]

@[simp]
theorem past_simplification? : (p.past g).simplification? (o.past g) = (p.simplification? o).map (·.past g) := by
  cases he : (p.op o).erased with
  | true  => simp [simplification?, he]
  | false => cases hk : (p.op o).kind <;> simp [simplification?, he, hk]

@[simp]
theorem past_applySimplification {simplification : Simplification} :
    (p.past g).applySimplification (o.past g) (simplification.past g) =
      (p.applySimplification o simplification).past g := by
  cases simplification <;> simp [applySimplification, Simplification.past]

@[simp]
theorem past_simplifyOp : (p.past g).simplifyOp (o.past g) = (p.simplifyOp o).map (·.past g) := by
  simp [simplifyOp, Function.comp_def]

theorem past_simplifyRounds (rounds : Nat) (changed : Bool) :
    ((p.past g).simplifyRounds rounds changed).1 = (p.simplifyRounds rounds changed).1.past g := by
  induction rounds generalizing p changed with
  | zero           => rfl
  | succ rounds ih =>
    simp only [simplifyRounds, past_walk, past_applyWhere fun _ _ => past_simplifyOp]
    cases h : applyWhere simplifyOp p false p.walk with
    | mk q c => cases c <;> simp [ih]

-- The program with the gap has a longer list of operations, and allows for more rounds.
theorem Sound.past_simplify (hp : p.Sound) : (p.past g).simplify.1 = p.simplify.1.past g := by
  have hl := Nat.succ_le_succ (length_le_past_operations (p := p) (g := g))
  rw [Program.simplify, past_simplifyRounds, hp.simplify_eq (Nat.succ_le_succ (Nat.mul_le_mul hl hl))]

end Simplify

section Pipeline

variable {verify : Bool} {pass : Pass}

theorem Sound.past_run (hp : p.Sound) (h : pass ≠ .prepare) :
    (pass.run (p.past g)).arrives? = (pass.run p).arrives?.map (·.past g) := by
  cases pass with
  | prepare        => exact absurd rfl h
  | spread options => exact hp.wellFormed.past_spread
  | finish         => simp [Pass.run, past_finish]
  | simplify       => simp [Pass.run, hp.past_simplify]

theorem Sound.of_runPass (hp : p.Sound) (h : (Pipeline.runPass verify p pass).arrives? = some q) : q.Sound := by
  rw [arrives?_runPass, Option.filter_eq_some_iff] at h
  exact Outcome.program_of_arrives? h.left ▸ (hp.run pass).left

-- A check after a pass does not tell programs that differ in a gap from each other.
theorem Sound.past_runPass (hp : p.Sound) (h : (pass.run q).arrives? = (pass.run p).arrives?.map (·.past g)) :
    (Pipeline.runPass verify q pass).arrives? = (Pipeline.runPass verify p pass).arrives?.map (·.past g) := by
  rw [arrives?_runPass, arrives?_runPass, h]
  cases hr : (pass.run p).arrives? with
  | none   => rfl
  | some r =>
    have hw : r.WellFormed := Outcome.program_of_arrives? hr ▸ (hp.run pass).left.wellFormed
    by_cases hv : r.verify = .ok () <;> cases verify <;> simp [Option.filter, hw.past_verify, hv]

theorem Sound.past_passes (hp : p.Sound) {passes : List Pass} (h : .prepare ∉ passes) :
    passes.foldlM (fun q pass => (Pipeline.runPass verify q pass).arrives?) (p.past g) =
      (passes.foldlM (fun q pass => (Pipeline.runPass verify q pass).arrives?) p).map (·.past g) := by
  induction passes generalizing p with
  | nil               => rfl
  | cons pass passes ih =>
    have ⟨hne, h⟩ := List.ne_and_not_mem_of_not_mem_cons h
    rw [List.foldlM_cons, List.foldlM_cons, hp.past_runPass (hp.past_run (Ne.symm hne))]
    cases hq : (Pipeline.runPass verify p pass).arrives? with
    | none   => rfl
    | some q => exact ih (hp.of_runPass hq) h

end Pipeline

end Program

end MeshSharding
