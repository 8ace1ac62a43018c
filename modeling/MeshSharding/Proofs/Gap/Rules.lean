import MeshSharding.Proofs.Arrival
import MeshSharding.Proofs.Gap.Reading
import MeshSharding.Proofs.Verify.Retyped

namespace MeshSharding

variable {p : Program} {g : Gap} {o u : OpId} {v owner : ValueId} {b : BlockId} {i : Nat} {s : Sharding}

section Lists

variable {α β : Type} [BEq α] [LawfulBEq α] [BEq β] [LawfulBEq β]

theorem eraseDups_map {f : α → β} (hf : Function.Injective f) (l : List α) :
    (l.map f).eraseDups = l.eraseDups.map f := by
  induction hn : l.length using Nat.strong_induction_on generalizing l with
  | _ n ih =>
    cases l with
    | nil => rfl
    | cons a l =>
      have hl : (l.filter fun b => !b == a).length < n := by
        rw [← hn, List.length_cons]
        exact Nat.lt_succ_of_le (List.length_filter_le ..)
      have hb (b : α) : (f b == f a) = (b == a) := by
        rw [Bool.eq_iff_iff, beq_iff_eq, beq_iff_eq, hf.eq_iff]
      rw [List.map_cons, List.eraseDups_cons, List.eraseDups_cons, List.map_cons, List.filter_map, ← ih _ hl _ rfl]
      simp only [Function.comp_def, hb]

end Lists

section Groups

variable {entries : List GroupEntry} {group : ShardingGroup}

theorem GroupEntry.past_merge : merge (entries.map (·.past g)) = merge entries := by
  have hstep (merged : Merged) (entry : GroupEntry) :
      merge.step (entries.map (·.past g)) merged (entry.past g) = merge.step entries merged entry := by
    simp only [merge.step, List.find?_map, Function.comp_def, past, ValueId.past_inj]
    cases entries.find? (·.value = entry.value) <;> rfl
  simp only [merge, List.map_map, List.foldl_map, hstep]
  rfl

theorem GroupEntry.past_groups : groups (entries.map (·.past g)) = (groups entries).map (·.past g) := by
  have hm (l : List GroupEntry) : (l.map fun entry => entry.value.past g).eraseDups =
      ((l.map (·.value)).eraseDups).map (·.past g) := by
    rw [← eraseDups_map ValueId.past_injective, List.map_map]
    rfl
  have hid (entry : GroupEntry) : (entry.past g).id = entry.id := rfl
  simp only [groups, past_merge, List.map_map, List.filter_map, Function.comp_def, hid]
  simp only [past, hm, ShardingGroup.past, List.map_map, Function.comp_def]

@[simp]
theorem Program.past_groupEntries : (p.past g).groupEntries = p.groupEntries.map (·.past g) := by
  simp only [groupEntries, past_walk, List.filterMap_map, List.map_filterMap]
  congr 1
  funext o
  cases h : (p.op o).kind <;> simp [h, GroupEntry.past]

@[simp]
theorem ShardingGroup.past_conflict? : (group.past g).conflict? (p.past g) = group.conflict? p := by
  simp [conflict?, past, List.filterMap_map]

namespace Program

theorem WellFormed.past_checkNotCrossing (hp : p.WellFormed) :
    (p.past g).checkNotCrossing (group.past g) = .ok () ↔ p.checkNotCrossing group = .ok () := by
  have hd : (group.past g).members.headD default = (group.members.headD default).past g := by
    cases hm : group.members <;> simp [ShardingGroup.past, hm]
  have hi {a b : Option OpId} : a.map (·.past g) = b.map (·.past g) ↔ a = b :=
    (Option.map_injective OpId.past_injective).eq_iff
  simp only [checkNotCrossing_eq_ok_iff, hd, hp.past_manualAround?]
  simp [ShardingGroup.past, hp.past_manualAround?, hi]

theorem WellFormed.past_groups (hp : p.WellFormed) :
    (p.past g).groups.toOption = p.groups.toOption.map (·.map (·.past g)) := by
  have hc : (∀ group ∈ GroupEntry.groups (p.past g).groupEntries, (p.past g).checkNotCrossing group = .ok ()) ↔
      ∀ group ∈ GroupEntry.groups p.groupEntries, p.checkNotCrossing group = .ok () := by
    simp [GroupEntry.past_groups, hp.past_checkNotCrossing]
  ext groups
  simp only [Option.map_eq_some_iff, toOption_eq_some_iff, groups_eq_ok_iff]
  constructor
  case mp =>
    rintro ⟨rfl, h⟩
    exact ⟨_, ⟨rfl, hc.mp h⟩, by rw [past_groupEntries, GroupEntry.past_groups]⟩
  case mpr =>
    rintro ⟨_, ⟨rfl, h⟩, rfl⟩
    rw [← GroupEntry.past_groups, ← past_groupEntries]
    exact ⟨rfl, hc.mpr h⟩

theorem past_checkAgreement {groups : List ShardingGroup} :
    (p.past g).checkAgreement (groups.map (·.past g)) = .ok () ↔ p.checkAgreement groups = .ok () := by
  simp [checkAgreement_eq_ok_iff]

theorem WellFormed.past_groupsAgree (hp : p.WellFormed) : (p.past g).GroupsAgree ↔ p.GroupsAgree := by
  simp only [groupsAgree_iff, ← toOption_eq_some_iff (x := groups _), hp.past_groups, Option.map_eq_some_iff]
  simp [past_checkAgreement]

end Program

end Groups

namespace Program

section Checks

variable {op : Operation} {vs : List ValueId}

theorem past_types : (vs.map (·.past g)).map (p.past g).typeOf = vs.map p.typeOf := by
  simp

@[simp]
theorem past_checkFits : (p.past g).checkFits s (v.past g) = p.checkFits s v :=
  checkFits_congr past_meshes past_typeOf s

theorem past_getD (l : List ValueId) : (l[i]?.map (·.past g)).getD default = (l[i]?.getD default).past g := by
  cases l[i]? <;> simp

@[simp]
theorem past_checkUnary : (p.past g).checkUnary (op.past g) = (p.checkUnary op).map (·.past g) := by
  simp only [checkUnary, Operation.past_operands, Operation.past_results, List.length_map, List.getElem?_map, past_getD,
    past_typeOf]
  cases checkArity .operands 1 op.operands.length <;> cases checkArity .results 1 op.results.length <;>
    cases checkType .result (p.typeOf (op.operands[0]?.getD default)) (p.typeOf (op.results[0]?.getD default)) <;> rfl

@[simp]
theorem past_checkEdgeOwner : (p.past g).checkEdgeOwner (owner.past g) = p.checkEdgeOwner owner := by
  cases h : p.definer? owner <;> simp [checkEdgeOwner, h]

@[simp]
theorem past_checkCollective {collective : Collective} :
    (p.past g).checkCollective collective (v.past g) = p.checkCollective collective v := by
  simp [checkCollective, operandSharding]

@[simp]
theorem past_returnedBy : (p.past g).returnedBy b = (p.returnedBy b).map (·.map (·.past g)) := by
  cases h : p.returned? b <;> simp [returnedBy, h, Except.map]

@[simp]
theorem past_checkNamed {computation : NamedComputation} :
    (p.past g).checkNamed (op.past g) computation = p.checkNamed op computation := by
  simp only [checkNamed, Operation.past_operands, Operation.past_results, Operation.past_regions, past_block,
    Block.past_arguments, List.length_map, past_returnedBy, map_bind_except, past_types, checkTypes_congr past_types,
    checkShardings_congr past_meshes past_types]

@[simp]
theorem past_commonMesh {first : MeshRef} {shardings : List Sharding} :
    (p.past g).commonMesh first shardings = p.commonMesh first shardings :=
  rfl

@[simp]
theorem past_checkManual {computation : ManualComputation} :
    (p.past g).checkManual (op.past g) computation = p.checkManual op computation := by
  simp only [checkManual, Operation.past_operands, Operation.past_results, Operation.past_regions, past_block,
    Block.past_arguments, List.length_map, past_returnedBy, map_bind_except, past_commonMesh,
    checkBoundary_congr past_types past_types]

@[simp]
theorem past_checkOp : (p.past g).checkOp (o.past g) = p.checkOp o := by
  have he : (p.past g).checkElementwise (((p.op o).operands ++ (p.op o).results).map (·.past g)) =
      p.checkElementwise ((p.op o).operands ++ (p.op o).results) := checkElementwise_congr past_types
  rw [List.map_append] at he
  cases h : (p.op o).kind <;> simp [checkOp, h, he]

end Checks

section Verify

variable {visible : List ValueId} {last : Bool}

theorem past_verifyOp : (p.past g).verifyOp (visible.map (·.past g)) last (o.past g) = .ok () ↔
    p.verifyOp visible last o = .ok () := by
  simp only [verifyOp_eq_ok_iff, past_op, Operation.past_kind, Operation.past_operands, past_checkOp,
    List.map_subset_iff _ ValueId.past_injective]

theorem past_verifyOps {region region' : List ValueId → BlockId → Except Diagnostic Unit}
    (hr : ∀ outer b, region' (outer.map (·.past g)) b = .ok () ↔ region outer b = .ok ()) {os : List OpId} :
    (p.past g).verifyOps region' (visible.map (·.past g)) (os.map (·.past g)) = .ok () ↔
      p.verifyOps region visible os = .ok () := by
  induction os generalizing visible with
  | nil => simp [verifyOps]
  | cons o os ih =>
    have hi : (if (p.op o).kind.isIsolated then [] else visible.map (·.past g)) =
        (if (p.op o).kind.isIsolated then [] else visible).map (·.past g) := by
      split <;> rfl
    simp only [List.map_cons, verifyOps, check_bind_eq_ok_iff, forM_eq_ok_iff, past_op, Operation.past_kind,
      Operation.past_regions, Operation.past_results, ← List.map_append, hi, hr, ih, List.isEmpty_map, past_verifyOp]

theorem past_verifyBlock {depth : Nat} {outer : List ValueId} :
    (p.past g).verifyBlock depth (outer.map (·.past g)) b = .ok () ↔ p.verifyBlock depth outer b = .ok () := by
  induction depth generalizing outer b with
  | zero          => simp [verifyBlock]
  | succ depth ih =>
    simp only [verifyBlock, past_block, Block.past_arguments, Block.past_operations, ← List.map_append]
    exact past_verifyOps fun _ _ => ih

theorem past_verifyStored : (p.past g).verifyStored (v.past g) = .ok () ↔ p.verifyStored v = .ok () := by
  cases h : p.definer? v <;> simp [verifyStored_eq_ok_iff, h]

-- There is nothing to check for handles that the program does not have.
theorem forall_verifyStored_iff :
    (∀ v, v.index < p.values.length → p.verifyStored v = .ok ()) ↔ ∀ v, p.verifyStored v = .ok () := by
  constructor
  case mp =>
    intro h v
    by_cases hv : v.index < p.values.length
    case pos => exact h v hv
    case neg => simp [verifyStored, storedSharding, value_of_length_le (Nat.le_of_not_lt hv)]
  case mpr => exact fun h v _ => h v

theorem past_forall_verifyStored :
    (∀ v, (p.past g).verifyStored v = .ok ()) ↔ ∀ v, p.verifyStored v = .ok () := by
  constructor
  case mp  => exact fun h v => past_verifyStored.mp (h (v.past g))
  case mpr =>
    intro h w
    cases ValueId.eq_gap_or_past g w with
    | inl hg => simp [verifyStored, storedSharding, hg, past_value_gap]
    | inr hv =>
      obtain ⟨v, hv⟩ := hv
      exact hv ▸ past_verifyStored.mpr (h v)

-- Errors name operations and values, so only what is accepted is the same.
theorem WellFormed.past_verify (hp : p.WellFormed) : (p.past g).verify = .ok () ↔ p.verify = .ok () := by
  have hb : (p.past g).verifyBlock p.blocks.length (([] : List ValueId).map (·.past g)) entry = .ok () ↔
      p.verifyBlock p.blocks.length [] entry = .ok () := past_verifyBlock
  have hu {o : OpId} : (p.uses (p.input o)).map (·.past g) = [⟨o.past g, 0⟩] ↔ p.uses (p.input o) = [⟨o, 0⟩] :=
    (List.map_injective_iff.mpr fun _ _ => Use.past_inj.mp).eq_iff (b := [⟨o, 0⟩])
  have hg : (∃ groups, (p.past g).groups = .ok groups) ↔ ∃ groups, p.groups = .ok groups := by
    simp only [← toOption_eq_some_iff, ← Option.isSome_iff_exists, hp.past_groups, Option.isSome_map]
  rw [List.map_nil] at hb
  simp only [verify_eq_ok_iff, forall_verifyStored_iff, past_forall_verifyStored, hg, past_terminator?,
    Option.isSome_map, past_length_blocks, hb, past_walk, List.forall_mem_map, past_op, Operation.past_kind,
    past_input, past_uses, hu]

end Verify

end Program

end MeshSharding
