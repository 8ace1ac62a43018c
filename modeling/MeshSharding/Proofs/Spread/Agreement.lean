import MeshSharding.Proofs.Spread.Pinned
import MeshSharding.Proofs.Verify.Fits

namespace MeshSharding

-- Members of a group without a conflict do not have different shardings.
theorem ShardingGroup.sharding_eq {p : Program} {group : ShardingGroup} {v w : ValueId} {s t : Sharding}
    (h : group.conflict? p = none) (hv : v ∈ group.members) (hw : w ∈ group.members)
    (hs : p.sharding v = some s) (ht : p.sharding w = some t) : s = t := by
  have hms : s ∈ group.members.filterMap p.sharding := List.mem_filterMap.mpr ⟨v, hv, hs⟩
  have hmt : t ∈ group.members.filterMap p.sharding := List.mem_filterMap.mpr ⟨w, hw, ht⟩
  rw [conflict?] at h
  split at h
  case _ hn => simp [hn] at hms
  case _ first rest he =>
    rw [he] at hms hmt
    simp only [Option.map_eq_none_iff, List.find?_eq_none, decide_not, Bool.not_eq_true',
      decide_eq_false_iff_not, not_not] at h
    have hall : ∀ u ∈ first :: rest, u = first := List.forall_mem_cons.mpr ⟨rfl, h⟩
    rw [hall s hms, hall t hmt]

namespace SpreadPlan

variable {plan : SpreadPlan} {p : Program} {v : ValueId} {proposal : Sharding}

-- Why a value without a sharding does not adopt a proposal.
theorem first_of_change?_eq_none (h : plan.change? p proposal v = none) (hv : p.sharding v = none) :
    plan.storage v ∈ plan.pinned ∨ p.isSettable v = false ∨ plan.options.openOnly ∨
      proposal.check p.meshes (p.typeOf v).shape ≠ .ok () := by
  by_contra hc
  simp only [not_or, not_not, Bool.not_eq_false, Bool.not_eq_true] at hc
  obtain ⟨hpin, hset, hopen, hcheck⟩ := hc
  obtain ⟨mesh, hmesh, hin⟩ := Program.bind_eq_ok hcheck
  simp [change?, refine?, hpin, hset, hopen, hv, hmesh, hin, Except.toOption, Except.isOk, Except.toBool,
    Option.filter, guard] at h

-- If all candidates are one sharding, it is the best one.
theorem best?_eq_some {shardings : List Sharding} {s : Sharding} (hs : s ∈ shardings)
    (h : ∀ t ∈ shardings, t = s) : plan.best? p shardings = some s := by
  cases hb : plan.best? p shardings with
  | some best => rw [h best (best?_mem hb)]
  | none =>
    cases shardings with
    | nil               => contradiction
    | cons first rest => simp [best?] at hb

end SpreadPlan

namespace Program

open SpreadPlan

variable {p : Program} {o : OpId} {v w : ValueId} {b : BlockId} {i : Nat}

section Fixed

theorem arities_of_checkManual {op : Operation} {computation : ManualComputation}
    (h : p.checkManual op computation = .ok ()) :
    (p.block ((op.regions[0]?).getD default)).arguments.length = computation.inShardings.length ∧
      op.results.length = computation.outShardings.length := by
  obtain ⟨inShardings, outShardings, manual⟩ := computation
  simp only [checkManual, bind_eq_ok_iff, checkArity, exists_require_eq_ok_iff] at h
  obtain ⟨_, -, hin, harguments, hout, -⟩ := h
  exact ⟨harguments.symm.trans hin, hout⟩

-- An operation that fixes the sharding of its result states one.
theorem shardingOfResult_isSome (h : p.checkOp o = .ok ()) (hv : (p.op o).results[i]? = some v)
    (hd : p.definitionOf v = .result o i) (hs : p.isSettable v = false) :
    (p.shardingOfResult v o i).isSome := by
  have hi := (List.getElem?_eq_some_iff.mp hv).choose
  simp only [isSettable, hd, Bool.or_eq_false_iff] at hs
  cases hk : (p.op o).kind <;> simp only [hk, OpKind.storesResultShardings] at hs
  case constraint | reshard | collective => simp [shardingOfResult, hk]
  case manual computation =>
    simp only [checkOp, hk] at h
    simp [shardingOfResult, hk, ← (arities_of_checkManual h).right, hi]
  case group | terminator =>
    simp only [checkOp, hk, checkArity, check_bind_eq_ok_iff, require_eq_ok_iff] at h
    omega
  all_goals simp at hs

theorem shardingOfArgument_isSome (hp : p.WellFormed) (hb : b ∈ (p.op o).regions) (h : p.checkOp o = .ok ())
    (hv : (p.block b).arguments[i]? = some v) (hd : p.definitionOf v = .argument b i)
    (hs : p.isSettable v = false) : (p.shardingOfArgument v b i).isSome := by
  have hi := (List.getElem?_eq_some_iff.mp hv).choose
  have hparent : p.parentKind? b = some (p.op o).kind := by
    rw [parentKind?, (hp.regions b o).mp hb, Option.map_some]
  simp only [isSettable, hd, hparent, Bool.or_eq_false_iff, Option.any_some, Bool.not_eq_false'] at hs
  cases hk : (p.op o).kind <;> simp only [hk, OpKind.isManual] at hs
  case manual computation =>
    obtain ⟨c, hc⟩ := (hp.shaped o).body (by simp [hk, OpKind.isIsolated])
    obtain rfl : b = c := by simpa [hc] using hb
    simp only [checkOp, hk] at h
    have hl := (arities_of_checkManual h).left
    simp only [hc, List.getElem?_cons_zero, Option.getD_some] at hl
    simp [shardingOfArgument, hparent, hk, ← hl, hi]
  all_goals simp at hs

-- An operand that cannot be given a sharding has one. The body of the program is set apart: it can be the
-- region of a manual computation that is not part of the program.
theorem sharding_isSome_of_fixed (hp : p.WellFormed) (hverify : p.verify = .ok ()) (ho : o ∈ p.walk)
    (hv : v ∈ (p.op o).operands) (hs : p.isSettable v = false) (hbody : v ∉ (p.block entry).arguments) :
    (p.sharding v).isSome := by
  have hscope := ((verify_iff hp).mp hverify).left.sound.scope o ho v hv
  have hlt := hp.operands o v hv
  have hedge : p.edgeForTarget? v = none := by
    simp only [isSettable, Bool.or_eq_false_iff, Option.isSome_eq_false_iff, Option.isNone_iff_eq_none] at hs
    exact hs.left
  simp only [sharding, hedge, Option.map_none]
  cases hd : p.definitionOf v with
  | result u i =>
    have hi := (hp.results v u i).mpr ⟨hlt, hd⟩
    have hu := hp.definer_mem_walk hscope ho (List.mem_of_getElem? hi)
    exact shardingOfResult_isSome (checkOp_of_verify hp hverify hu) hi hd hs
  | argument b i =>
    have hi := (hp.arguments v b i).mpr ⟨hlt, hd⟩
    have hm := List.mem_of_getElem? hi
    have hb := hp.definingBlock_of_argument hm ▸ hp.definingBlock_mem_nested hscope ho
    obtain rfl | ⟨u, hr, hu⟩ := parent_of_nested hb
    · contradiction
    · exact shardingOfArgument_isSome hp hr (checkOp_of_verify hp hverify hu) hi hd hs

end Fixed

-- Why a value is not given the sharding of its group.
inductive Barred (p : Program) (options : SpreadOptions) (s : Sharding) (v : ValueId) : Prop
  | option : options.openOnly → Barred p options s v
  | pinned : p.storageOf v ∈ p.pinned → Barred p options s v
  | misfit : p.checkFits s v ≠ .ok () → Barred p options s v
  | fixed  : p.isSettable v = false → v ∈ (p.block entry).arguments → Barred p options s v

theorem barred_of_change?_eq_none {options : SpreadOptions} {plan : SpreadPlan} {q : Program} {s : Sharding}
    (hp : p.WellFormed) (hv : p.verify = .ok ()) (hplan : p.spreadPlan options = .ok plan)
    (ho : o ∈ p.walk) (hop : w ∈ (p.op o).operands) (hb : q.bare = p.bare)
    (hw : (p.spread options).program.sharding w = none) (hq : q.sharding w = none)
    (h : plan.change? q s w = none) : p.Barred options s w := by
  obtain ⟨-, hoptions, hstorage, hpinned⟩ := (p.spreadPlan_eq_ok_iff options).mp hplan
  obtain hpin | hset | hopen | hcheck := first_of_change?_eq_none h hq
  · exact .pinned (by rwa [hstorage, hpinned] at hpin)
  · rw [read_of_bare_eq (fun r => r.isSettable w) (by simp) hb] at hset
    refine .fixed hset (by_contra fun hbody => ?_)
    have hsome := sharding_isSome_of_fixed hp hv ho hop hset hbody
    rw [← spread_sharding_eq_of_fixed options hset, hw] at hsome
    contradiction
  · exact .option (hoptions ▸ hopen)
  · have hmeshes := read_of_bare_eq (fun r => r.meshes) (by simp) hb
    have htype := read_of_bare_eq (fun r => r.typeOf w) (by simp) hb
    exact .misfit (by rwa [checkFits, ← hmeshes, ← htype])

theorem conflict?_of_spread {options : SpreadOptions} {plan : SpreadPlan} {changed : Bool}
    {group : ShardingGroup} (hplan : p.spreadPlan options = .ok plan)
    (hr : (p.spread options).result = .ok changed) (hg : group ∈ GroupEntry.groups p.groupEntries) :
    group.conflict? (p.spread options).program = none := by
  obtain ⟨groups, hgroups, hchecked⟩ := bind_eq_ok_iff.mp ((spread_eq_ok_iff hplan).mp hr).right
  obtain ⟨rfl, _⟩ := groups_eq_ok_iff.mp hgroups
  have hentries := read_of_bare_eq (fun r => r.groupEntries) (by simp) (p.spread_refines options).bare_eq
  exact checkAgreement_eq_ok_iff.mp hchecked group (hentries ▸ hg)

-- After a run that succeeds, the members of a group that have a sharding have the same one. A member without
-- one is barred from it, unless the others have got theirs by being filled in beside other values.
theorem spread_groups_agree (h : p.Reachable) (hv : p.verify = .ok ()) (options : SpreadOptions)
    {changed : Bool} (hr : (p.spread options).result = .ok changed) :
    let q := (p.spread options).program
    ∀ group ∈ GroupEntry.groups p.groupEntries, ∀ v ∈ group.members, ∀ w ∈ group.members, ∀ s,
      q.sharding v = some s → q.sharding w = some s ∨ q.sharding w = none ∧
        (p.Barred options s w ∨
          p.FilledBeside q v ∧ ∃ ref, s = Sharding.fullyOpen ref (p.typeOf v).rank) := by
  intro q group hg v hm w hmw s hs
  have hp := h.wellFormed
  obtain ⟨plan, hplan⟩ := exists_spreadPlan hr
  have hsame (u : ValueId) (hu : u ∈ group.members) (t : Sharding) (ht : q.sharding u = some t) : t = s :=
    ShardingGroup.sharding_eq (conflict?_of_spread hplan hr hg) hu hm ht hs
  cases hw : q.sharding w with
  | some t => exact .inl (congrArg some (hsame w hmw t hw))
  | none   =>
    refine .inr ⟨rfl, ?_⟩
    -- The members kept their shardings since the link of the group was settled, or were filled in.
    have hlink := group_mem_links ((p.spreadPlan_eq_ok_iff options).mp hplan).left hg
    obtain ⟨earlier, hb, hsettled, hsince⟩ := spread_settled hp hplan hr hlink
    simp only [List.append_nil] at hsince
    obtain hkept | ⟨-, hfilled, ref, href⟩ := hsince v hm
    case inr => exact .inr ⟨hfilled, ref, Option.some.inj (hs.symm.trans href)⟩
    -- So back then the group proposed the sharding, and `w` did not adopt it.
    have hbest : plan.best? earlier (candidates earlier { members := group.members }) = some s := by
      simp only [candidates, List.append_nil]
      refine best?_eq_some (List.mem_filterMap.mpr ⟨v, hm, hkept.symm.trans hs⟩) fun t ht => ?_
      obtain ⟨u, hu, ht⟩ := List.mem_filterMap.mp ht
      refine hsame u hu t (Eq.trans ?_ ht)
      exact (hsince u hu).resolve_right fun hfill => by simp [hfill.left] at ht
    have hearlier : earlier.sharding w = none := by
      obtain hkept | ⟨hn, -⟩ := hsince w hmw
      · exact hkept.symm.trans hw
      · exact hn
    obtain ⟨o, ho, hop⟩ := hp.exists_operand_of_group hg hmw
    exact .inl (barred_of_change?_eq_none hp hv hplan ho hop hb hw hearlier (hsettled s hbest _ hmw))

-- Two arguments in a group, of which one is sharded.
def groupedPair? : Option Program :=
  let type : TensorType := ⟨[8], .f32⟩
  let sharding : Sharding := ⟨.symbol "mesh", [{ axes := [⟨"a", none⟩], closed := false }], []⟩
  build "main" [
    .mesh "mesh" { axes := [⟨"a", 2⟩] },
    .argument type (some sharding),
    .argument type none,
    .append entry (.group ⟨0⟩ 0),
    .append entry (.group ⟨1⟩ 0),
    .append entry (.terminator [⟨0⟩, ⟨1⟩])]

def groupedPair : Program :=
  groupedPair?.get (by rfl)

-- If no first shardings are given, the other argument stays without one.
theorem spread_groups_disagree_groupedPair :
    let p := groupedPair
    let options : SpreadOptions := { openOnly := true }
    let q := (p.spread options).program
    p.verify = .ok () ∧ (p.spread options).result = .ok false ∧
      (∃ group ∈ GroupEntry.groups p.groupEntries, group.members = [⟨0⟩, ⟨1⟩]) ∧
      (q.sharding ⟨0⟩).isSome ∧ q.sharding ⟨1⟩ = none :=
  ⟨by rfl, by rfl, ⟨⟨0, [⟨0⟩, ⟨1⟩], [⟨0⟩, ⟨1⟩]⟩, by decide, rfl⟩, by rfl, by rfl⟩

-- Else it gets the sharding of the first one.
theorem spread_groups_agree_groupedPair :
    let p := groupedPair
    let q := (p.spread {}).program
    p.Reachable ∧ p.verify = .ok () ∧ (p.spread {}).result = .ok true ∧ p.sharding ⟨1⟩ = none ∧
      (∃ s, q.sharding ⟨0⟩ = some s ∧ q.sharding ⟨1⟩ = some s) ∧
      ∀ group ∈ GroupEntry.groups p.groupEntries, ∀ v ∈ group.members, ∀ w ∈ group.members, ∀ s,
        q.sharding v = some s → q.sharding w = some s ∨ q.sharding w = none ∧
          (p.Barred {} s w ∨
            p.FilledBeside q v ∧ ∃ ref, s = Sharding.fullyOpen ref (p.typeOf v).rank) := by
  have hr : groupedPair.Reachable := build_reachable (Option.some_get _).symm
  have hresult : (groupedPair.spread {}).result = .ok true := by rfl
  have hagree := spread_groups_agree hr rfl {} hresult
  have hsome : ((groupedPair.spread {}).program.sharding ⟨1⟩).isSome := by rfl
  have hfirst : ((groupedPair.spread {}).program.sharding ⟨0⟩).isSome := by rfl
  obtain ⟨s, hs⟩ := Option.isSome_iff_exists.mp hfirst
  refine ⟨hr, rfl, hresult, rfl, ⟨s, hs, ?_⟩, hagree⟩
  obtain h | ⟨hnone, -⟩ := hagree ⟨0, [⟨0⟩, ⟨1⟩], [⟨0⟩, ⟨1⟩]⟩ (by decide) ⟨0⟩ (by simp) ⟨1⟩ (by simp) s hs
  · exact h
  · simp [hnone] at hsome

end Program

end MeshSharding
