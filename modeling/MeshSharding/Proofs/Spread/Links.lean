import MeshSharding.Proofs.Spread.Monotone
import MeshSharding.Proofs.Verify.Groups

namespace MeshSharding

structure Link.Within (p : Program) (link : Link) : Prop where
  members : ∀ v ∈ link.members, v.index < p.values.length
  inputs  : ∀ v ∈ link.inputs, v.index < p.values.length

theorem exists_of_mem_zipWith {α β γ : Type} {f : α → β → γ} {as : List α} {bs : List β} {c : γ}
    (h : c ∈ as.zipWith f bs) : ∃ a ∈ as, ∃ b ∈ bs, c = f a b := by
  rw [← List.map_uncurry_zip_eq_zipWith] at h
  obtain ⟨⟨a, b⟩, hm, rfl⟩ := List.mem_map.mp h
  have ⟨ha, hb⟩ := List.of_mem_zip hm
  exact ⟨a, ha, b, hb, rfl⟩

namespace Program

variable {p : Program} {o : OpId} {link : Link} {v : ValueId}

-- The members of groups are the operands of group operations.
theorem exists_group {group : ShardingGroup} (h : group ∈ GroupEntry.groups p.groupEntries)
    (hv : v ∈ group.members) : ∃ o id, o ∈ p.walk ∧ (p.op o).kind = .group id ∧ v = p.input o := by
  obtain ⟨_, _, rfl⟩ := List.mem_map.mp h
  simp only [List.mem_eraseDups, List.mem_map, List.mem_filter] at hv
  obtain ⟨entry, ⟨he, _⟩, rfl⟩ := hv
  obtain ⟨ho, hk, hv⟩ := mem_groupEntries_iff.mp he
  exact ⟨entry.op, entry.id, ho, hk, hv.symm⟩

theorem links_eq_ok_iff {all : List Link} : p.links = .ok all ↔ ∃ groups, p.groups = .ok groups ∧
    all = p.walk.flatMap (fun o => p.ownLinks o ++ p.flowLinks o) ++
      groups.map fun group => { members := group.members } := by
  simp only [links, bind_eq_ok_iff, pure, Except.pure, Except.ok.injEq, eq_comm (a := all)]

theorem group_mem_links {all : List Link} {group : ShardingGroup} (h : p.links = .ok all)
    (hg : group ∈ GroupEntry.groups p.groupEntries) : { members := group.members } ∈ all := by
  obtain ⟨groups, hgroups, rfl⟩ := links_eq_ok_iff.mp h
  obtain ⟨rfl, _⟩ := groups_eq_ok_iff.mp hgroups
  exact List.mem_append_right _ (List.mem_map_of_mem hg)

-- The values that an operation takes and results in, and those that its regions take and return.
inductive Meets (p : Program) (o : OpId) (v : ValueId) : Prop
  | operand  : v ∈ (p.op o).operands → Meets p o v
  | result   : v ∈ (p.op o).results → Meets p o v
  | argument {b : BlockId} : b ∈ (p.op o).regions → v ∈ (p.block b).arguments → Meets p o v
  | returned {b : BlockId} {values : List ValueId} : b ∈ (p.op o).regions → p.returned? b = some values →
      v ∈ values → Meets p o v

section Flow

variable {view : FlowView} {owner : ValueId}

theorem op_of_flowView? (h : p.flowView? o = some view) : view.op = o := by
  simp only [flowView?] at h
  repeat' split at h
  all_goals simp only [Option.some.injEq, reduceCtorEq] at h
  all_goals simp [← h, FlowView.op]

theorem meets_owner (h : owner ∈ view.owners p) : p.Meets view.op owner := by
  cases view with
  | structural o _ => exact .result h
  | named o =>
    simp only [FlowView.owners, List.mem_append, List.mem_flatMap] at h
    obtain ⟨b, hb, h⟩ | h := h
    · exact .argument hb h
    · exact .result h

theorem meets_source (h : v ∈ view.sources p owner) : p.Meets view.op v := by
  simp only [FlowView.sources] at h
  split at h
  case _ => simp at h
  case _ =>
    obtain h | h := List.mem_append.mp h
    · exact .operand (List.mem_of_getElem? (Option.mem_toList.mp h))
    · simp only [List.mem_filterMap, Option.bind_eq_bind, Option.bind_eq_some_iff] at h
      obtain ⟨b, hb, values, hr, _, _, hi⟩ := h
      exact .returned hb hr (List.mem_of_getElem? hi)
  case _ => exact .operand (List.mem_of_getElem? (Option.mem_toList.mp h))
  case _ =>
    simp only [List.mem_filterMap, Option.bind_eq_some_iff] at h
    obtain ⟨b, hb, values, hr, hi⟩ := h
    exact .returned hb hr (List.mem_of_getElem? hi)

theorem meets_target (h : v ∈ view.targets p owner) : p.Meets view.op v := by
  simp only [FlowView.targets] at h
  split at h
  case _ =>
    simp only [List.mem_filterMap, Option.ite_none_right_eq_some] at h
    obtain ⟨b, hb, _, hi⟩ := h
    exact .argument hb (List.mem_of_getElem? hi)
  case _ => simp at h

-- A link along an edge fixes nothing.
theorem flowLinks_meet (h : link ∈ p.flowLinks o) :
    (∀ v ∈ link.members, p.Meets o v) ∧ link.inputs = [] ∧ link.fixed = [] := by
  simp only [flowLinks] at h
  split at h
  case _ => simp at h
  case _ view hview =>
    obtain ⟨owner, ho, rfl⟩ := List.mem_map.mp h
    rw [← op_of_flowView? hview]
    refine ⟨fun v hv => ?_, rfl, rfl⟩
    simp only [List.mem_cons, List.mem_append] at hv
    obtain rfl | hv | hv := hv
    · exact meets_owner ho
    · exact meets_source hv
    · exact meets_target hv

end Flow

namespace WellFormed

variable (hp : p.WellFormed)
include hp

theorem meets_lt (h : p.Meets o v) : v.index < p.values.length := by
  cases h with
  | operand h       => exact hp.operands o v h
  | result h        => exact hp.result_lt h
  | argument _ h    => exact hp.argument_lt h
  | returned _ hr h =>
    simp only [returned?, Option.map_eq_some_iff] at hr
    obtain ⟨u, _, rfl⟩ := hr
    exact hp.operands u v h

theorem exists_returned {computation : ManualComputation} (hk : (p.op o).kind = .manual computation)
    (h : v ∈ (p.returned? (((p.op o).regions[0]?).getD default)).getD []) :
    ∃ b ∈ (p.op o).regions, ∃ values, p.returned? b = some values ∧ v ∈ values := by
  obtain ⟨b, hb⟩ := (hp.shaped o).body (by simp [hk, OpKind.isIsolated])
  simp only [hb, List.getElem?_cons_zero, Option.getD_some] at h
  refine ⟨b, by simp [hb], ?_⟩
  cases hr : p.returned? b with
  | none        => simp [hr] at h
  | some values => exact ⟨values, rfl, by simpa [hr] using h⟩

theorem ownLinks_meet (h : link ∈ p.ownLinks o) : ∀ v ∈ link.members ++ link.inputs, p.Meets o v := by
  simp only [ownLinks] at h
  split at h
  case _ =>
    split at h
    case isFalse => simp at h
    case isTrue =>
      rw [List.mem_singleton.mp h]
      intro v hv
      rw [List.append_nil, List.mem_append] at hv
      exact hv.elim .operand .result
  case _ =>
    rw [List.mem_singleton.mp h]
    simpa using fun v => Meets.operand
  case _ hk | _ hk =>
    have hu : (p.op o).kind.isUnary := by simp [hk, OpKind.isUnary]
    have hi : p.Meets o (p.input o) := .operand (by simp [hp.operands_eq hu])
    have hr : p.Meets o (p.output o) := .result (by simp [hp.results_eq hu])
    rw [List.mem_singleton.mp h]
    simp [hi, hr]
  case _ hk =>
    obtain h | h := List.mem_append.mp h
    · obtain ⟨v, hv, _, _, rfl⟩ := exists_of_mem_zipWith h
      simpa using Meets.operand hv
    · obtain ⟨v, hv, _, _, rfl⟩ := exists_of_mem_zipWith h
      obtain ⟨b, hb, values, hr, hv⟩ := hp.exists_returned hk hv
      simpa using Meets.returned hb hr hv
  case _ => simp at h

theorem exists_operand_of_group {group : ShardingGroup} (h : group ∈ GroupEntry.groups p.groupEntries)
    (hv : v ∈ group.members) : ∃ o ∈ p.walk, v ∈ (p.op o).operands := by
  obtain ⟨o, id, ho, hk, rfl⟩ := exists_group h hv
  obtain ⟨a, ha, _⟩ := (hp.shaped o).group (by simp [hk, OpKind.isGroup])
  exact ⟨o, ho, by simp [input, ha]⟩

theorem links_within {all : List Link} (h : p.links = .ok all) (hl : link ∈ all) : link.Within p := by
  obtain ⟨groups, hg, rfl⟩ := links_eq_ok_iff.mp h
  obtain hl | hl := List.mem_append.mp hl
  · obtain ⟨o, _, hl⟩ := List.mem_flatMap.mp hl
    obtain hl | hl := List.mem_append.mp hl
    · obtain ⟨hm, hi⟩ := List.forall_mem_append.mp (hp.ownLinks_meet hl)
      exact ⟨fun v hv => hp.meets_lt (hm v hv), fun v hv => hp.meets_lt (hi v hv)⟩
    · obtain ⟨hm, hi, _⟩ := flowLinks_meet hl
      exact ⟨fun v hv => hp.meets_lt (hm v hv), by simp [hi]⟩
  · obtain ⟨group, hgroup, rfl⟩ := List.mem_map.mp hl
    obtain ⟨rfl, _⟩ := groups_eq_ok_iff.mp hg
    refine ⟨fun v hv => ?_, by simp⟩
    obtain ⟨o, _, ho⟩ := hp.exists_operand_of_group hgroup hv
    exact hp.operands o v ho

theorem spreadPlan_within {options : SpreadOptions} {plan : SpreadPlan}
    (h : p.spreadPlan options = .ok plan) : ∀ link ∈ plan.links, link.Within p :=
  fun _ hl => hp.links_within ((p.spreadPlan_eq_ok_iff options).mp h).left hl

end WellFormed

end Program

namespace SpreadPlan

-- The links that can be evaluated are the links of the plan, and an empty one.
theorem forall_links {plan : SpreadPlan} {P : Link → Prop} (h : ∀ link ∈ plan.links, P link)
    (he : P { members := [] }) (i : Nat) : P ((plan.links[i]?).getD default) := by
  cases hl : plan.links[i]? with
  | none      => exact he
  | some link => exact h link (List.mem_of_getElem? hl)

end SpreadPlan

end MeshSharding
